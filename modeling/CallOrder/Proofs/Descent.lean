/-
Calls within calls, one step at a time.

Elsewhere a call is one attempt, whatever calls its hooks make.  Here it is taken apart
(`Descent.next?`): a call is judged; if an expectation answers, it is counted and its hooks
are to run; a hook that calls puts its call on top of it; what that came to is noted, and
the hooks go on.  Nothing bounds how deep this goes.  That it ends is a matter of the counts.

Each call that was answered and did not return yet has used up one of the calls that were
still allowed, and no step gives one back (`Within`), so however the hooks refer to one
another there are never more calls within each other than were allowed at first, and one
that is about to be refused.  By the same count every call arrives, at just what the attempt
comes to (`steps_call`).
-/
import CallOrder.Proofs.Exercise
import CallOrder.Proofs.Nesting

namespace CallOrder

/-- What is up next while a call is made. -/
inductive Focus where
  /-- A call is to be judged. -/
  | calling (controller : Nat) (request : Request)
  /-- The innermost call goes on with its hooks. -/
  | working
  /-- A call came to something. -/
  | came (result : Except Failure Returned)

/-- A call that is being made: the bench, the calls that were answered and did not return yet, the
innermost first, what is up next, and the events so far. -/
structure Descent where
  bench : Bench
  inFlight : List InFlight
  focus : Focus
  events : List Event

namespace Descent

/-- A call is to be made from within others. -/
def calling (b : Bench) (callers : List InFlight) (controller : Nat) (request : Request)
    (events : List Event) : Descent :=
  ⟨b, callers, .calling controller request, events⟩

/-- A call came to something, within others. -/
def arrived (callers : List InFlight) (events : List Event) (o : Outcome Bench Returned) :
    Descent :=
  ⟨o.state, callers, .came o.result, events ++ o.events⟩

/-- A hook ran: the call goes on with the others, or it fails with the hook. -/
def onward (c : InFlight) (callers : List InFlight) (events : List Event)
    (o : Outcome Bench Unit) : Descent :=
  match o.result with
  | .ok () => ⟨o.state, c :: callers, .working, events ++ o.events⟩
  | .error f => ⟨o.state, callers, .came (.error f), events ++ o.events⟩

/-- The next step, if any is left. -/
def next? : Descent → Option Descent
  | ⟨b, callers, .calling controller request, events⟩ =>
    let ledger := b.collaborator.ledger controller
    match ledger.judge request.call with
    | .dangling p =>
      some (arrived callers events
        ⟨.error (.panic (.noSuchExpectation ledger.calls.length p)), b, []⟩)
    | .refused reasons =>
      some (arrived callers (events ++ [.unexpected request.call.receiver request.call.method])
        (Handler.fatal (.unexpectedCall request.call reasons) b))
    | .accepted index e =>
      some ⟨b.modify (·.modify controller (·.invoke index)),
        ⟨request, e.hooks, e.stub⟩ :: callers, .working,
        events ++ [.matched request.call.receiver request.call.method index (e.invoked + 1)]⟩
  | ⟨_, [], .working, _⟩ => none
  | ⟨b, ⟨request, [], stub⟩ :: callers, .working, events⟩ =>
    some (arrived callers events (Bench.answer request stub b))
  | ⟨b, ⟨request, .reenter controller again :: rest, stub⟩ :: callers, .working, events⟩ =>
    some (calling b (⟨request, rest, stub⟩ :: callers) controller again events)
  | ⟨b, ⟨request, hook :: rest, stub⟩ :: callers, .working, events⟩ =>
    (Bench.runHook Exercise.withoutReentry request.call.args hook b).map
      (onward ⟨request, rest, stub⟩ callers events)
  | ⟨_, [], .came _, _⟩ => none
  | ⟨b, c :: callers, .came result, events⟩ =>
    some ⟨b.modify (·.note (.reentrant result)), c :: callers, .working, events⟩

/-- How many calls are within each other: those that did not return yet, and the one that is to be
judged. -/
def nesting (x : Descent) : Nat :=
  x.inFlight.length + match x.focus with
    | .calling .. => 1
    | _ => 0

/-- One step. -/
def Step (x y : Descent) : Prop :=
  x.next? = some y

/-- What any number of steps lead to. -/
def Steps : Descent → Descent → Prop :=
  Relation.ReflTransGen Step

/-! ### How deep it goes -/

variable {allowed : Nat} {x y : Descent} {b : Bench} {callers : List InFlight}
  {events : List Event}

/-- A hook that makes no call is one step. -/
theorem next?_hook {hook : Hook} (hhook : hook.reenters = false) (request : Request)
    (rest : List Hook) (stub : Option Returned) :
    next? ⟨b, ⟨request, hook :: rest, stub⟩ :: callers, .working, events⟩ =
      some (onward ⟨request, rest, stub⟩ callers events (hook.fire request.call.args b)) := by
  cases hook with
  | reenter controller again => exact Bool.noConfusion hhook
  | _ => rfl

/-- Calls that did not return yet have used up what they were allowed. -/
def Within (allowed : Nat) (x : Descent) : Prop :=
  x.inFlight.length + x.bench.remaining ≤ allowed

theorem Within.onward {c : InFlight} {o : Outcome Bench Unit}
    (h : (c :: callers).length + o.state.remaining ≤ allowed) :
    (onward c callers events o).Within allowed := by
  rw [Descent.onward]
  cases o.result with
  | ok _ => exact h
  | error f => exact Nat.le_trans (Nat.add_le_add_right (Nat.le_succ _) _) h

/-- No step gives back what was used up. -/
theorem Within.step (h : x.Within allowed) (hnext : x.Step y) : y.Within allowed := by
  rw [Step] at hnext
  obtain ⟨b, callers, focus, events⟩ := x
  cases focus with
  | calling controller request =>
      rw [next?] at hnext
      cases hjudge : (b.collaborator.ledger controller).judge request.call with
      | dangling p =>
          simp only [hjudge, Option.some.injEq] at hnext
          subst hnext
          exact h
      | refused reasons =>
          simp only [hjudge, Option.some.injEq] at hnext
          subst hnext
          exact h
      | accepted index e =>
          simp only [hjudge, Option.some.injEq] at hnext
          subst hnext
          have hone := Bench.remaining_counted hjudge
          simp only [Within, List.length_cons] at h ⊢
          omega
  | working =>
      cases callers with
      | nil => cases hnext
      | cons c callers =>
          obtain ⟨request, hooks, stub⟩ := c
          cases hooks with
          | nil =>
              cases hnext
              have hanswer := Bench.remaining_answer request stub b
              simp only [Within, arrived, List.length_cons] at h ⊢
              omega
          | cons hook rest =>
              cases hhook : hook.reenters with
              | false =>
                  rw [next?_hook hhook] at hnext
                  cases hnext
                  have hfire := Bench.remaining_fire request.call.args hook b
                  exact .onward (Nat.le_trans (Nat.add_le_add_left hfire _) h)
              | true =>
                  cases hook with
                  | reenter controller again =>
                      cases hnext
                      exact h
                  | _ => cases hhook
  | came result =>
      cases callers with
      | nil => cases hnext
      | cons c callers =>
          cases hnext
          exact h

theorem Within.steps (h : x.Within allowed) (hsteps : Steps x y) : y.Within allowed := by
  induction hsteps with
  | refl => exact h
  | tail _ hnext ih => exact ih.step hnext

/-! ### Where it ends -/

/-- Calls are made in the way of the attempt, wherever so much is allowed. -/
def Arrives (allowed : Nat) : Prop :=
  ∀ (b : Bench) (callers : List InFlight) (events : List Event) (controller : Nat)
    (request : Request), b.remaining < allowed →
      Steps (calling b callers controller request events)
        (arrived callers events (Bench.call controller request b))

theorem arrived_after (earlier : List Event) (o : Outcome Bench Returned) :
    arrived callers events (o.after earlier) = arrived callers (events ++ earlier) o := by
  rw [arrived, Outcome.after, arrived, List.append_assoc]

theorem fire_reenter (args : List Value) (controller : Nat) (again : Request) :
    (Hook.reenter controller again).fire args b =
      let o := Bench.call controller again b
      ⟨.ok (), o.state.modify (·.note (.reentrant o.result)), o.events⟩ := by
  simp only [Hook.fire, Attempt.bind_apply, Attempt.caught, Attempt.update, Outcome.after,
    List.append_nil]

/-- If the calls arrive that hooks make, a hook does what it does in the attempt. -/
theorem Arrives.steps_hook (h : Arrives allowed) (request : Request) (hook : Hook)
    (rest : List Hook) (stub : Option Returned) (hb : b.remaining < allowed) :
    Steps ⟨b, ⟨request, hook :: rest, stub⟩ :: callers, .working, events⟩
      (onward ⟨request, rest, stub⟩ callers events (hook.fire request.call.args b)) := by
  cases hhook : hook.reenters with
  | false => exact .single (next?_hook hhook request rest stub)
  | true =>
      cases hook with
      | reenter controller again =>
          have hcall := h b (⟨request, rest, stub⟩ :: callers) events controller again hb
          rw [fire_reenter]
          refine .head (b := calling b (⟨request, rest, stub⟩ :: callers) controller again events)
            rfl ?_
          exact hcall.tail rfl
      | _ => cases hhook

/-- So an answered call runs its hooks and returns. -/
theorem Arrives.steps_hooks (h : Arrives allowed) (request : Request) (hooks : List Hook)
    (stub : Option Returned) (hb : b.remaining < allowed) :
    Steps ⟨b, ⟨request, hooks, stub⟩ :: callers, .working, events⟩
      (arrived callers events
        ((Hook.fireAll request.call.args hooks >>= fun _ => Bench.answer request stub) b)) := by
  induction hooks generalizing b events with
  | nil => exact .single rfl
  | cons hook rest ih =>
      have hremaining := Bench.remaining_fire request.call.args hook b
      refine (h.steps_hook request hook rest stub hb).trans ?_
      rw [Hook.fireAll, bind_assoc, Attempt.bind_apply]
      rcases hfire : hook.fire request.call.args b with ⟨f | u, t, more⟩
      · exact .refl
      · rw [hfire] at hremaining
        simp only [arrived_after]
        exact ih (Nat.lt_of_le_of_lt hremaining hb)

/-- **Every call arrives**, by induction on how many calls are still allowed. -/
theorem arrives (allowed : Nat) : Arrives allowed := by
  induction allowed with
  | zero => exact fun _ _ _ _ _ hb => absurd hb (Nat.not_lt_zero _)
  | succ allowed ih =>
      intro b callers events controller request hb
      cases hjudge : (b.collaborator.ledger controller).judge request.call with
      | dangling p =>
          refine .single ?_
          rw [Bench.call_of_dangling hjudge, calling, Step, next?]
          simp only [hjudge]
      | refused reasons =>
          refine .single ?_
          rw [Bench.call_of_refused hjudge, arrived_after, calling, Step, next?]
          simp only [hjudge]
      | accepted index e =>
          have hone := Bench.remaining_counted hjudge
          rw [Bench.call_of_judge hjudge, arrived_after]
          refine .head ?_ (ih.steps_hooks request e.hooks e.stub (by omega))
          rw [calling, Step, next?]
          simp only [hjudge]

/-! ### Every way it can go -/

theorem rightUnique_step : Relator.RightUnique Step :=
  fun _ _ _ h h' => Option.some.inj (h.symm.trans h')

/-- Where steps lead to an end, every step on the way leads there. -/
theorem Steps.to_last {last : Descent} (hlast : Steps x last) (hend : last.next? = none)
    (h : Steps x y) : Steps y last := by
  rcases Relation.ReflTransGen.total_of_right_unique rightUnique_step h hlast with hon | hback
  · exact hon
  · cases hback.cases_head with
    | inl heq =>
        subst heq
        exact .refl
    | inr hstep =>
        obtain ⟨z, hz, -⟩ := hstep
        cases hend.symm.trans hz

/-- A run of steps that never stops goes wherever steps lead. -/
theorem Steps.exists_of_run {run : Nat → Descent} (hrun : ∀ k, (run k).Step (run (k + 1)))
    (h : Steps (run 0) x) : ∃ k, run k = x := by
  induction h with
  | refl => exact ⟨0, rfl⟩
  | tail _ hstep ih =>
      obtain ⟨k, rfl⟩ := ih
      exact ⟨k + 1, rightUnique_step (hrun k) hstep⟩

theorem nesting_le_of_within (h : x.Within allowed) : x.nesting ≤ 1 + allowed := by
  obtain ⟨b, callers, focus, events⟩ := x
  simp only [Within, nesting] at h ⊢
  cases focus <;> simp only <;> omega

end Descent

theorem Bench.remaining_eq_sum (b : Bench) :
    b.remaining = (b.collaborator.controllers.map fun l =>
      (l.calls.map fun e => e.times - e.invoked).sum).sum := by
  have hledger (l : Ledger) : l.remaining = (l.calls.map fun e => e.times - e.invoked).sum :=
    total_eq_sum _ _
  rw [remaining, Switchboard.remaining, total_eq_sum, funext hledger]

namespace Descent

/-- **A call ends, whatever its hooks call.**  Its steps lead to what the attempt comes to, and no
further, whichever of them were taken already; there is no run of steps that goes on for ever; and
at no time are there more calls within each other than all expectations together still allowed,
and one. -/
theorem call_terminates (b : Bench) (controller : Nat) (request : Request) :
    let first := calling b [] controller request []
    let last := arrived [] [] (Bench.call controller request b)
    last.next? = none ∧
    (∀ x, Steps first x → Steps x last ∧
      x.nesting ≤ 1 + (b.collaborator.controllers.map fun l =>
        (l.calls.map fun e => e.times - e.invoked).sum).sum) ∧
    ∀ run : Nat → Descent, run 0 = first → ∃ k, (run k).next? ≠ some (run (k + 1)) := by
  intro first last
  have hsteps : Steps first last := arrives (b.remaining + 1) b [] [] controller request
    (Nat.lt_succ_self _)
  refine ⟨rfl, fun x hx => ⟨hsteps.to_last rfl hx, ?_⟩, fun run hfirst => ?_⟩
  · have hwithin : first.Within b.remaining := Nat.le_of_eq (Nat.zero_add _)
    rw [← b.remaining_eq_sum]
    exact nesting_le_of_within (hwithin.steps hx)
  · by_contra hrun
    simp only [not_exists, not_not] at hrun
    rw [← hfirst] at hsteps
    obtain ⟨k, hk⟩ := hsteps.exists_of_run hrun
    have hnext := hrun k
    rw [hk] at hnext
    cases hnext

/-- Two controllers: a knock at the one makes a ring at the other, and a ring knocks again. -/
def echoing : Bench :=
  let chores : Attempt Bench Unit := do
    let knock ← Bench.declare 0 ⟨"door", "knock", []⟩
    let ring ← Bench.declare 1 ⟨"bell", "ring", []⟩
    Bench.run knock (.reenter 1 ⟨⟨"bell", "ring", []⟩, .unit⟩)
    Bench.run ring (.reenter 0 ⟨⟨"door", "knock", []⟩, .unit⟩)
  (chores (Bench.start .recording {} 2 0)).state

/-- One knock and one ring are allowed.  The knock within the ring within the knock is the third
and is refused, and the knock that came first returns all the same. -/
theorem knock_within_ring_within_knock :
    let knock : Request := ⟨⟨"door", "knock", []⟩, .unit⟩
    let allowed := (echoing.collaborator.controllers.map fun l =>
      (l.calls.map fun e => e.times - e.invoked).sum).sum
    let last := arrived [] [] (Bench.call 0 knock echoing)
    allowed = 2 ∧ ∃ x, Steps (calling echoing [] 0 knock []) x ∧ x.nesting = 3 ∧
      x.nesting ≤ 1 + allowed ∧ Steps x last ∧ last.next? = none := by
  intro knock allowed last
  obtain ⟨hend, hreach, -⟩ := call_terminates echoing 0 knock
  have hstep {x y : Descent} (h : x.next? = some y) : Step x y := h
  have hsteps : Steps (calling echoing [] 0 knock []) _ :=
    (((Relation.ReflTransGen.single (hstep rfl)).tail (hstep rfl)).tail (hstep rfl)).tail
      (hstep rfl)
  obtain ⟨hlast, hbound⟩ := hreach _ hsteps
  exact ⟨rfl, _, hsteps, rfl, hbound, hlast, hend⟩

end Descent

end CallOrder
