/-
Calls, however deep they nest.

A call is given a depth within which its hooks may call again, and `call` gives it one that
is enough.  Here the depth is taken out of the picture.  What ends within some depth comes
to the same within any greater one (`callWithin_extends`), so within any depth that is
enough it comes to what `call` comes to (`callWithin_eq`).

So a hook that calls again makes a call like any other (`Hook.fire`), hooks run as attempts
that follow one another, and a call that an expectation answers is what its text says: it
is counted, then its hooks run up to the first that fails, and then it returns
(`call_of_judge`).
-/
import CallOrder.Proofs.Run

namespace CallOrder

/-- What a hook does with the arguments of its call. -/
def Hook.fire (args : List Value) : Hook → Attempt Bench Unit
  | .completion counter hook => Bench.onCounter counter (hook.invoke args.length)
  | .note tag => Attempt.update (Handler.modify (·.note (.arguments tag args)))
  | .giveUp reason => Attempt.fail (.panic (.reason reason))
  | .reenter controller request => do
    let result ← (Bench.call controller request).caught
    Attempt.update (Handler.modify (·.note (.reentrant result)))

/-- What hooks do one after another, up to the first that fails. -/
def Hook.fireAll (args : List Value) : List Hook → Attempt Bench Unit
  | [] => return ()
  | hook :: rest => do
    hook.fire args
    fireAll args rest

namespace Bench

variable {again again' : Reentry} {args : List Value} {hook : Hook} {hooks : List Hook}
  {request : Request} {e : Expectation} {b : Bench} {depth : Nat}

/-! ### Greater depths -/

/-- Whatever comes of calling again in one way comes of it in the other, too. -/
def Extends (again again' : Reentry) : Prop :=
  ∀ controller request b o, again controller request b = some o →
    again' controller request b = some o

theorem Extends.runHook (h : Extends again again') {o : Outcome Bench Unit}
    (ho : Bench.runHook again args hook b = some o) :
    Bench.runHook again' args hook b = some o := by
  cases hook with
  | reenter controller request =>
      rw [Bench.runHook, Option.map_eq_some_iff] at ho ⊢
      obtain ⟨inner, hinner, ho⟩ := ho
      exact ⟨inner, h controller request b inner hinner, ho⟩
  | _ => exact ho

theorem Extends.runHooks (h : Extends again again') {o : Outcome Bench Unit}
    (ho : Bench.runHooks again args hooks b = some o) :
    Bench.runHooks again' args hooks b = some o := by
  induction hooks generalizing b o with
  | nil => exact ho
  | cons hook rest ih =>
      simp only [Bench.runHooks, Option.bind_eq_bind, Option.bind_eq_some_iff] at ho ⊢
      obtain ⟨first, hfirst, ho⟩ := ho
      refine ⟨first, h.runHook hfirst, ?_⟩
      cases hresult : first.result with
      | error f => rwa [hresult] at ho
      | ok _ =>
          simp only [hresult, Option.bind_eq_some_iff] at ho ⊢
          obtain ⟨others, hothers, ho⟩ := ho
          exact ⟨others, ih hothers, ho⟩

theorem Extends.serve (h : Extends again again') {o : Outcome Bench Returned}
    (ho : Bench.serve again request e b = some o) : Bench.serve again' request e b = some o := by
  simp only [Bench.serve, Option.bind_eq_bind, Option.bind_eq_some_iff] at ho ⊢
  obtain ⟨ran, hran, ho⟩ := ho
  exact ⟨ran, h.runHooks hran, ho⟩

/-- What ends within a depth comes to the same within the next. -/
theorem callWithin_extends (depth : Nat) : Extends (callWithin depth) (callWithin (depth + 1)) := by
  induction depth with
  | zero => exact fun _ _ _ _ ho => by simp [callWithin] at ho
  | succ depth ih =>
      intro controller request b o ho
      rw [callWithin] at ho ⊢
      cases hjudge : (b.collaborator.ledger controller).judge request.call with
      | dangling p => simpa only [hjudge] using ho
      | refused reasons => simpa only [hjudge] using ho
      | accepted index e =>
          simp only [hjudge, Option.bind_eq_bind, Option.bind_eq_some_iff] at ho ⊢
          obtain ⟨served, hserved, ho⟩ := ho
          exact ⟨served, ih.serve hserved, ho⟩

/-- **Within any depth that is enough a call comes to the same.** -/
theorem callWithin_eq (controller : Nat) (request : Request) (h : b.remaining < depth) :
    callWithin depth controller request b = some (call controller request b) := by
  induction h with
  | refl =>
      obtain ⟨o, ho, -⟩ := callWithin_ends (b.remaining + 1) controller request b
        (Nat.lt_succ_self _)
      rw [call_eq_of_callWithin ho]
      exact ho
  | step _ ih => exact callWithin_extends _ controller request b _ ih

/-! ### Hooks that may nest -/

/-- Hooks that may call again within a depth that is enough do what hooks do. -/
theorem runHook_eq (args : List Value) (hook : Hook) (h : b.remaining < depth) :
    runHook (callWithin depth) args hook b = some (hook.fire args b) := by
  cases hook with
  | reenter controller request =>
      rw [runHook, callWithin_eq controller request h, Option.map_some, Option.some.injEq]
      simp only [Hook.fire, Attempt.bind_apply, Attempt.caught, Attempt.update, Outcome.after,
        List.append_nil]
  | _ => rfl

/-- A hook never raises what is still allowed. -/
theorem remaining_fire (args : List Value) (hook : Hook) (b : Bench) :
    (hook.fire args b).state.remaining ≤ b.remaining := by
  have hdepth : b.remaining < b.remaining + 1 := Nat.lt_succ_self _
  obtain ⟨o, ho, hle⟩ := runHook_ends (callWithin_ends _) args hook b hdepth
  rw [runHook_eq args hook hdepth] at ho
  obtain rfl := Option.some.inj ho
  exact hle

theorem runHooks_eq (args : List Value) (hooks : List Hook) (h : b.remaining < depth) :
    runHooks (callWithin depth) args hooks b = some (Hook.fireAll args hooks b) := by
  induction hooks generalizing b with
  | nil => rfl
  | cons hook rest ih =>
      have hle := remaining_fire args hook b
      rw [runHooks, runHook_eq args hook h, Hook.fireAll, Attempt.bind_apply]
      rcases hfire : hook.fire args b with ⟨f | u, t, events⟩
      · rfl
      · rw [hfire] at hle
        simp only [Option.bind_eq_bind, Option.bind_some, ih (Nat.lt_of_le_of_lt hle h)]
        rfl

/-- What follows once an expectation answers a call. -/
def sequel (request : Request) (e : Expectation) : Attempt Bench Returned := do
  Hook.fireAll request.call.args e.hooks
  answer request e.stub

theorem serve_eq (request : Request) (e : Expectation) (h : b.remaining < depth) :
    serve (callWithin depth) request e b = some (sequel request e b) := by
  rw [serve, runHooks_eq _ _ h, sequel, Attempt.bind_apply]
  rcases Hook.fireAll request.call.args e.hooks b with ⟨f | u, t, events⟩ <;> rfl

/-- A call that is answered is one less that is allowed. -/
theorem remaining_counted {controller index : Nat}
    (h : (b.collaborator.ledger controller).judge request.call = .accepted index e) :
    remaining (b.modify (·.modify controller (·.invoke index))) + 1 = b.remaining := by
  obtain ⟨hget, hopen⟩ := Ledger.judge_accepted h
  exact Switchboard.remaining_invoke hget hopen

theorem remaining_answer (request : Request) (stub : Option Returned) (b : Bench) :
    (answer request stub b).state.remaining = b.remaining := by
  rw [remaining, collaborator_answer, remaining]

/-- **A call that an expectation answers is counted first.  Then its hooks run, up to the first
that fails, and then it returns.** -/
theorem call_of_judge {controller index : Nat}
    (h : (b.collaborator.ledger controller).judge request.call = .accepted index e) :
    call controller request b =
      (sequel request e (b.modify (·.modify controller (·.invoke index)))).after
        [.matched request.call.receiver request.call.method index (e.invoked + 1)] := by
  have hless : remaining (b.modify (·.modify controller (·.invoke index))) < b.remaining :=
    Nat.lt_of_succ_le (Nat.le_of_eq (remaining_counted h))
  refine call_eq_of_callWithin ?_
  simp only [callWithin, h, serve_eq request e hless]
  rfl

end Bench

end CallOrder
