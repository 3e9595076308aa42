/-
Actual calls.

A call that an expectation answers takes effect at once: the expectation is counted and its
prerequisites are closed before any hook runs, and that stays so whatever the hooks do.  A hook
may call a controller again.  Every such call is answered by an expectation that may be called
less often afterwards, so calls nest at most once more than all expectations together may still
be called; within that depth a call always ends.
-/
import CallOrder.Switchboard

namespace CallOrder

/-- Everything that a call can touch: the handler with its controllers. -/
abbrev Bench := Handler Switchboard

namespace Bench

/-- A handler with nothing expected, so many controllers, and so many counters beside its own. -/
def start (kind : ReporterKind) (config : Config) (controllers counters : Nat) : Bench where
  collaborator :=
    { controllers := List.replicate controllers {}, counters := List.replicate counters {} }
  config := config
  reporter := { kind }

/-- The count of a counter: number zero is the handler's. -/
def completionOf (b : Bench) : Nat → Completion
  | 0 => b.completion
  | k + 1 => b.collaborator.counter k

/-- An attempt on a counter. -/
def onCounter (number : Nat) (x : Attempt Completion α) : Attempt Bench α :=
  match number with
  | 0 => Handler.onCompletion x
  | k + 1 =>
    x.on (·.completionOf (k + 1)) fun c =>
      Handler.modify fun s => { s with counters := s.counters.set k c }

/-- How often all expectations may still be called. -/
def remaining (b : Bench) : Nat :=
  b.collaborator.remaining

/-- How a hook calls again: the controller and the request, and nothing where no deeper nesting
is allowed. -/
abbrev Reentry := Nat → Request → Bench → Option (Outcome Bench Returned)

/-- Runs a hook with the arguments of its call. -/
def runHook (again : Reentry) (args : List Value) : Hook → Bench → Option (Outcome Bench Unit)
  | .completion counter hook, b => some (onCounter counter (hook.invoke args.length) b)
  | .note tag, b => some ⟨.ok (), b.modify (·.note (.arguments tag args)), []⟩
  | .giveUp reason, b => some ⟨.error (.panic (.reason reason)), b, []⟩
  | .reenter controller request, b =>
    (again controller request b).map fun o =>
      ⟨.ok (), o.state.modify (·.note (.reentrant o.result)), o.events⟩

/-- Runs hooks in order, up to the first that fails. -/
def runHooks (again : Reentry) (args : List Value) :
    List Hook → Bench → Option (Outcome Bench Unit)
  | [], b => some ⟨.ok (), b, []⟩
  | hook :: rest, b => do
    let first ← runHook again args hook b
    match first.result with
    | .error f => return ⟨.error f, first.state, first.events⟩
    | .ok () => return (← runHooks again args rest first.state).after first.events

/-- What an answered call returns: its stub if that is of the type asked for, and the default of
that type if it has none. -/
def answer (request : Request) : Option Returned → Attempt Bench Returned
  | none => return request.type.default
  | some stub =>
    if stub.type = request.type then return stub
    else Handler.fatal
      (.wrongReturnType request.call.receiver request.call.method request.type)

/-- What follows once an expectation answers a call: its hooks, then its stub. -/
def serve (again : Reentry) (request : Request) (e : Expectation) (b : Bench) :
    Option (Outcome Bench Returned) := do
  let ran ← runHooks again request.call.args e.hooks b
  match ran.result with
  | .error f => return ⟨.error f, ran.state, ran.events⟩
  | .ok () => return (answer request e.stub ran.state).after ran.events

/-- A call, if calls may nest in one another at most `depth` deep. -/
def callWithin : Nat → Reentry
  | 0, _, _, _ => none
  | depth + 1, controller, request, b =>
    let ledger := b.collaborator.ledger controller
    match ledger.judge request.call with
    | .dangling p => some ⟨.error (.panic (.noSuchExpectation ledger.calls.length p)), b, []⟩
    | .refused reasons =>
      some ((Handler.fatal (.unexpectedCall request.call reasons) b).after
        [.unexpected request.call.receiver request.call.method])
    | .accepted index e => do
      let counted := b.modify (·.modify controller (·.invoke index))
      let served ← serve (callWithin depth) request e counted
      return served.after
        [.matched request.call.receiver request.call.method index (e.invoked + 1)]

/-! ### Within the depth that the counts allow, a call always ends

Whether a call ends within a depth is settled by what is still allowed: each level of nesting has
used up one call before its hooks run.
-/

/-- A way to call again that ends wherever less than `depth` is still allowed, and never raises
what is. -/
def Ends (depth : Nat) (again : Reentry) : Prop :=
  ∀ controller request b, b.remaining < depth →
    ∃ o, again controller request b = some o ∧ o.state.remaining ≤ b.remaining

theorem remaining_onCounter (number : Nat) (x : Attempt Completion α) (b : Bench) :
    (onCounter number x b).state.remaining = b.remaining := by
  cases number <;> rfl

theorem runHook_ends {depth : Nat} {again : Reentry} (h : Ends depth again) (args : List Value)
    (hook : Hook) (b : Bench) (hb : b.remaining < depth) :
    ∃ o, runHook again args hook b = some o ∧ o.state.remaining ≤ b.remaining := by
  cases hook with
  | completion counter hook => exact ⟨_, rfl, Nat.le_of_eq (remaining_onCounter counter _ b)⟩
  | note tag => exact ⟨_, rfl, Nat.le_refl _⟩
  | giveUp reason => exact ⟨_, rfl, Nat.le_refl _⟩
  | reenter controller request =>
    obtain ⟨o, ho, hle⟩ := h controller request b hb
    exact ⟨_, by rw [runHook, ho]; rfl, hle⟩

theorem runHooks_ends {depth : Nat} {again : Reentry} (h : Ends depth again)
    (args : List Value) :
    ∀ (hooks : List Hook) (b : Bench), b.remaining < depth →
      ∃ o, runHooks again args hooks b = some o ∧ o.state.remaining ≤ b.remaining
  | [], b, _ => ⟨_, rfl, Nat.le_refl _⟩
  | hook :: rest, b, hb => by
    obtain ⟨first, hfirst, hle⟩ := runHook_ends h args hook b hb
    simp only [runHooks, hfirst, Option.bind_eq_bind, Option.bind_some]
    cases first.result with
    | error f => exact ⟨_, rfl, hle⟩
    | ok _ =>
      obtain ⟨o, ho, hle'⟩ := runHooks_ends h args rest first.state (by omega)
      exact ⟨o.after first.events, by simp [ho], Nat.le_trans hle' hle⟩

theorem collaborator_answer (request : Request) (stub : Option Returned) (b : Bench) :
    (answer request stub b).state.collaborator = b.collaborator := by
  unfold answer
  split
  · rfl
  · split <;> rfl

theorem serve_ends {depth : Nat} {again : Reentry} (h : Ends depth again) (request : Request)
    (e : Expectation) (b : Bench) (hb : b.remaining < depth) :
    ∃ o, serve again request e b = some o ∧ o.state.remaining ≤ b.remaining := by
  obtain ⟨ran, hran, hle⟩ := runHooks_ends h request.call.args e.hooks b hb
  simp only [serve, hran, Option.bind_eq_bind, Option.bind_some]
  cases ran.result with
  | error f => exact ⟨_, rfl, hle⟩
  | ok _ =>
    refine ⟨_, rfl, ?_⟩
    show (answer request e.stub ran.state).state.collaborator.remaining ≤ b.remaining
    rw [collaborator_answer]
    exact hle

/-- A call ends within any depth greater than what is still allowed. -/
theorem callWithin_ends : ∀ depth, Ends depth (callWithin depth)
  | 0, _, _, _, hb => absurd hb (Nat.not_lt_zero _)
  | depth + 1, controller, request, b, hb => by
    unfold callWithin
    simp only
    split
    · exact ⟨_, rfl, Nat.le_refl _⟩
    · exact ⟨_, rfl, Nat.le_refl _⟩
    · rename_i index e hjudge
      obtain ⟨hget, hopen⟩ := Ledger.judge_accepted hjudge
      have hone := Switchboard.remaining_invoke hget hopen
      obtain ⟨served, hserved, hle⟩ := serve_ends (callWithin_ends depth) request e
        (b.modify (·.modify controller (·.invoke index)))
        (by simp only [remaining, Handler.modify] at hb ⊢; omega)
      refine ⟨_, by simp [hserved]; rfl, ?_⟩
      show served.state.remaining ≤ b.remaining
      simp only [remaining, Handler.modify] at hle ⊢
      omega

/-- A call, nested as deep as it takes. -/
def call (controller : Nat) (request : Request) : Attempt Bench Returned := fun b =>
  (callWithin (b.remaining + 1) controller request b).get (by
    obtain ⟨o, ho, -⟩ := callWithin_ends (b.remaining + 1) controller request b (Nat.lt_succ_self _)
    rw [ho]
    rfl)

/-- Lets a controller complain of what is missing. -/
def verify (controller : Nat) : Attempt Bench Unit := do
  let b ← Attempt.current
  Handler.onReporter (Reporter.errors (b.collaborator.ledger controller).missing)

end Bench

end CallOrder
