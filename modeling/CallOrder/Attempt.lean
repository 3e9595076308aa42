/-
Operations that may fail.

An attempt reads a state and leaves one behind, also when it fails: what was done before the
failure stays done.  It tells what it came to, a value or a failure, and the events that it
emitted on the way.  Two attempts in a row run the second only if the first succeeds, and their
events follow one another; the laws of a monad hold, so attempts can be regrouped freely.
-/
import CallOrder.Event

namespace CallOrder

/-- What came of an attempt. -/
structure Outcome (σ α : Type) where
  result : Except Failure α
  state : σ
  events : List Event

/-- The outcome with events before its own. -/
def Outcome.after (earlier : List Event) (o : Outcome σ α) : Outcome σ α :=
  { o with events := earlier ++ o.events }

/-- An operation on a state of type `σ` that is to give an `α`. -/
def Attempt (σ α : Type) : Type :=
  σ → Outcome σ α

namespace Attempt

/-- The attempt that does nothing and gives `a`. -/
protected def pure (a : α) : Attempt σ α :=
  fun s => ⟨.ok a, s, []⟩

/-- The attempt that fails and does nothing else. -/
def fail (f : Failure) : Attempt σ α :=
  fun s => ⟨.error f, s, []⟩

/-- One attempt, then the one that its value asks for. -/
protected def bind (x : Attempt σ α) (next : α → Attempt σ β) : Attempt σ β :=
  fun s =>
    match x s with
    | ⟨.ok a, t, events⟩ => (next a t).after events
    | ⟨.error f, t, events⟩ => ⟨.error f, t, events⟩

instance : Monad (Attempt σ) where
  pure := Attempt.pure
  bind := Attempt.bind

/-- The value of a computation that has no state, or its failure. -/
def ofExcept : Except Failure α → Attempt σ α
  | .ok a => Attempt.pure a
  | .error f => fail f

/-- The value of a part of a setup, or its mistake. -/
def ofSetup : Except SetupError α → Attempt σ α
  | .ok a => Attempt.pure a
  | .error e => fail (.setup e)

/-- The state as it is. -/
def current : Attempt σ σ :=
  fun s => ⟨.ok s, s, []⟩

/-- Changes the state. -/
def update (change : σ → σ) : Attempt σ Unit :=
  fun s => ⟨.ok (), change s, []⟩

/-- Emits an event. -/
def emit (event : Event) : Attempt σ Unit :=
  fun s => ⟨.ok (), s, [event]⟩

/-- An attempt on a part of the state. -/
def on (get : τ → σ) (set : σ → τ → τ) (x : Attempt σ α) : Attempt τ α :=
  fun t => let o := x (get t); ⟨o.result, set o.state t, o.events⟩

/-- The attempt with its failure as a value. -/
def caught (x : Attempt σ α) : Attempt σ (Except Failure α) :=
  fun s => let o := x s; ⟨.ok o.result, o.state, o.events⟩

/-- The attempt without its events, as when it runs where the log is not kept. -/
def unlogged (x : Attempt σ α) : Attempt σ α :=
  fun s => { x s with events := [] }

/-- Attempts on each item in turn, up to the first that fails. -/
def forEach (act : ι → Attempt σ α) : List ι → Attempt σ (List α)
  | [] => pure []
  | i :: rest => do
    let a ← act i
    let others ← forEach act rest
    return a :: others

/-- Attempts on each item in turn, failed or not. -/
def forEachCaught (act : ι → Attempt σ α) (items : List ι) :
    Attempt σ (List (Except Failure α)) :=
  forEach (fun i => (act i).caught) items

/-! ### The laws of a monad -/

theorem pure_apply (a : α) (s : σ) : (pure a : Attempt σ α) s = ⟨.ok a, s, []⟩ := rfl

theorem bind_apply (x : Attempt σ α) (next : α → Attempt σ β) (s : σ) :
    (x >>= next) s =
      match x s with
      | ⟨.ok a, t, events⟩ => (next a t).after events
      | ⟨.error f, t, events⟩ => ⟨.error f, t, events⟩ := rfl

@[simp] theorem after_nil (o : Outcome σ α) : o.after [] = o := rfl

@[simp] theorem after_after (es ds : List Event) (o : Outcome σ α) :
    (o.after ds).after es = o.after (es ++ ds) := by
  simp [Outcome.after]

protected theorem bind_assoc (x : Attempt σ α) (f : α → Attempt σ β) (g : β → Attempt σ γ) :
    x >>= f >>= g = x >>= fun a => f a >>= g := by
  funext s
  simp only [bind_apply]
  cases hx : x s with
  | mk result t events =>
    cases result with
    | error e => rfl
    | ok a =>
      simp only
      cases hf : f a t with
      | mk result u later => cases result <;> simp [Outcome.after]

protected theorem id_map (x : Attempt σ α) : id <$> x = x := by
  funext s
  show Attempt.bind x (Attempt.pure ∘ id) s = x s
  unfold Attempt.bind
  cases x s with
  | mk result t events => cases result <;> simp [Outcome.after, Attempt.pure]

instance : LawfulMonad (Attempt σ) :=
  LawfulMonad.mk' (Attempt σ) Attempt.id_map (fun _ _ => rfl) Attempt.bind_assoc

end Attempt

end CallOrder
