/-
What a session does to the expectations is a list of moves, and the log tells which.

`Move.play` says what a list of moves comes to; nothing there says that the operations
of a session do nothing else.  That is shown here, for every operation whose events
are logged: what it leaves of all controllers is what some list of moves makes of what
it found, and the calls answered on the way are those that its events tell of, in the
same order (`accounted_perform`).  This holds of a call with all the calls that its
hooks make, of the evaluation of a whole setup, and of operations that fail half way,
since what was done before the failure stays done.

Being accounted for in this way is kept by everything that attempts are put together
with, so each operation is accounted for by its parts.  And each has its own moves
(`Operation.Makes`): a call has no other than answers (`accounted_call`), a change of one
expectation is that one move, a setup prepares calls and answers none, and whatever else a
session does makes no move at all.

A whole session is then traced by the moves of its operations (`Traced`), and what
answering a call settles for good is settled for the rest of the session
(`prerequisites_enforced_and_frozen`).
-/
import CallOrder.Proofs.Move
import CallOrder.Session

namespace CallOrder

/-- Whether the event tells of a call that was answered. -/
def Event.isMatched : Event → Bool
  | .matched .. => true
  | _ => false

/-- The change is a call. -/
def Change.IsAnswer : Change → Prop
  | .answer _ => True
  | _ => False

/-- The move is a call. -/
def Move.IsAnswer (m : Move) : Prop :=
  m.change.IsAnswer

/-- The move is anything but a call. -/
def Move.Prepares (m : Move) : Prop :=
  ¬ m.change.IsAnswer

/-- Some moves, all of them allowed, lead from the expectations before to those after, and the
events tell of the calls that they answer. -/
def Told (allowed : Move → Prop) (before after : List Ledger) (events : List Event) : Prop :=
  ∃ moves : List Move, (∀ m ∈ moves, allowed m) ∧ after = Move.play moves before ∧
    events.filter Event.isMatched = Move.answers moves before

namespace Told

variable {allowed : Move → Prop} {ledgers ledgers' ledgers'' : List Ledger}
  {events events' : List Event}

theorem still (h : events.filter Event.isMatched = []) : Told allowed ledgers ledgers events :=
  ⟨[], by simp, rfl, h⟩

theorem move (m : Move) (hm : allowed m) (ledgers : List Ledger) {events : List Event}
    (h : events.filter Event.isMatched = (m.answer? ledgers).toList) :
    Told allowed ledgers (m.apply ledgers) events :=
  ⟨[m], by simpa using hm, rfl, by simpa [Move.answers] using h⟩

theorem trans (h : Told allowed ledgers ledgers' events)
    (h' : Told allowed ledgers' ledgers'' events') :
    Told allowed ledgers ledgers'' (events ++ events') := by
  obtain ⟨moves, hmoves, rfl, hevents⟩ := h
  obtain ⟨later, hlater, rfl, hevents'⟩ := h'
  refine ⟨moves ++ later, ?_, (Move.play_append ..).symm, ?_⟩
  · intro m hm
    rcases List.mem_append.mp hm with hm | hm
    · exact hmoves m hm
    · exact hlater m hm
  · rw [List.filter_append, hevents, hevents', Move.answers_append]

end Told

namespace Attempt

variable {σ τ ι α β : Type} {allowed : Move → Prop} {view : σ → List Ledger}

/-- Wherever it starts, the attempt moves the expectations that `view` finds in the state in
allowed ways, and its events tell of it. -/
def Accounted (allowed : Move → Prop) (view : σ → List Ledger) (x : Attempt σ α) : Prop :=
  ∀ s, Told allowed (view s) (view (x s).state) (x s).events

/-- The attempt answers no call. -/
def Silent (x : Attempt σ α) : Prop :=
  ∀ s, (x s).events.filter Event.isMatched = []

/-! ### Attempts that are put together -/

theorem Silent.pure (a : α) : Silent (Pure.pure a : Attempt σ α) := fun _ => rfl

theorem Silent.fail (f : Failure) : Silent (Attempt.fail f : Attempt σ α) := fun _ => rfl

theorem Silent.bind {x : Attempt σ α} {next : α → Attempt σ β} (hx : Silent x)
    (hnext : ∀ a, Silent (next a)) : Silent (x >>= next) := by
  intro s
  have h := hx s
  rw [bind_apply]
  rcases hs : x s with ⟨f | a, t, events⟩ <;> rw [hs] at h
  · exact h
  · simp only [Outcome.after, List.filter_append, h, hnext a t, List.append_nil]

namespace Accounted

/-- An attempt that leaves the expectations alone, and answers no call. -/
theorem of_silent {x : Attempt σ α} (hx : Silent x) (hview : ∀ s, view (x s).state = view s) :
    Accounted allowed view x := by
  intro s
  rw [hview]
  exact Told.still (hx s)

theorem pure (a : α) : Accounted allowed view (Pure.pure a : Attempt σ α) :=
  of_silent (.pure a) fun _ => rfl

theorem fail (f : Failure) : Accounted allowed view (Attempt.fail f : Attempt σ α) :=
  of_silent (.fail f) fun _ => rfl

theorem current : Accounted allowed view Attempt.current :=
  of_silent (fun _ => rfl) fun _ => rfl

theorem emit {event : Event} (h : event.isMatched = false) :
    Accounted allowed view (Attempt.emit event) :=
  of_silent (fun _ => by simp [Attempt.emit, h]) fun _ => rfl

theorem ofExcept (x : Except Failure α) : Accounted allowed view (Attempt.ofExcept x) := by
  cases x with
  | ok a => exact pure a
  | error f => exact fail f

theorem ofSetup (x : Except SetupError α) : Accounted allowed view (Attempt.ofSetup x) := by
  cases x with
  | ok a => exact pure a
  | error e => exact fail (.setup e)

theorem bind {x : Attempt σ α} {next : α → Attempt σ β} (hx : Accounted allowed view x)
    (hnext : ∀ a, Accounted allowed view (next a)) : Accounted allowed view (x >>= next) := by
  intro s
  have h := hx s
  rw [bind_apply]
  rcases hs : x s with ⟨f | a, t, events⟩ <;> rw [hs] at h
  · exact h
  · exact h.trans (hnext a t)

theorem caught {x : Attempt σ α} (hx : Accounted allowed view x) :
    Accounted allowed view x.caught :=
  hx

theorem forEach {act : ι → Attempt σ α} :
    ∀ {items : List ι}, (∀ i ∈ items, Accounted allowed view (act i)) →
      Accounted allowed view (Attempt.forEach act items)
  | [], _ => pure []
  | i :: rest, h =>
    bind (h i (by simp)) fun _ =>
      bind (forEach fun j hj => h j (List.mem_cons_of_mem _ hj)) fun _ => pure _

/-- An attempt on a part of the state in which no expectations are. -/
theorem on {get : τ → σ} {set : σ → τ → τ} {view : τ → List Ledger} {x : Attempt σ α}
    (hx : Silent x) (hset : ∀ s t, view (set s t) = view t) :
    Accounted allowed view (x.on get set) :=
  of_silent (fun t => hx (get t)) fun _ => hset _ _

end Accounted

end Attempt

/-! ### The parts of a bench without expectations -/

namespace Completion

theorem silent_expect (n : Nat) : (expect n).Silent := fun _ => rfl

theorem silent_signal : signal.Silent := by
  intro c
  unfold signal
  split <;> rfl

end Completion

theorem CompletionHook.silent_invoke (hook : CompletionHook) (given : Nat) :
    (hook.invoke given).Silent := by
  unfold invoke
  split
  · refine Completion.silent_signal.bind fun _ => ?_
    split
    · exact .fail _
    · exact .pure _
  · exact .fail _

namespace Reporter

theorem silent_error (c : Complaint) : (error c).Silent := by
  intro r
  unfold error
  split <;> rfl

theorem silent_fatal {α : Type} (c : Complaint) : (fatal c : Attempt Reporter α).Silent :=
  (silent_error c).bind fun _ => .fail _

end Reporter

namespace Bench

open Attempt

variable {allowed : Move → Prop}

/-- The expectations of all controllers of a bench. -/
def ledgers (b : Bench) : List Ledger :=
  b.collaborator.controllers

theorem accounted_onReporter {α : Type} {x : Attempt Reporter α} (hx : x.Silent) :
    Accounted allowed ledgers (Handler.onReporter x : Attempt Bench α) :=
  .on hx fun _ _ => rfl

theorem accounted_fatal {α : Type} (c : Complaint) :
    Accounted allowed ledgers (Handler.fatal c : Attempt Bench α) :=
  accounted_onReporter (Reporter.silent_fatal c)

theorem accounted_onCounter {α : Type} (number : Nat) {x : Attempt Completion α}
    (hx : x.Silent) : Accounted allowed ledgers (onCounter number x) := by
  cases number with
  | zero => exact .on hx fun _ _ => rfl
  | succ k => exact .on hx fun _ _ => rfl

theorem accounted_get (mock : String) (make : Switchboard → String) :
    Accounted allowed ledgers (Handler.get mock make : Attempt Bench String) := by
  refine .bind .current fun h => .bind (.on ?_ fun _ _ => rfl) fun _ => .pure _
  intro r
  unfold Registry.resolve
  simp only [pure_apply]
  split <;> rfl

/-- Whatever comes of a call made from within a call is accounted for. -/
def AccountedReentry (again : Reentry) : Prop :=
  ∀ controller request b o, again controller request b = some o →
    Told Move.IsAnswer b.ledgers o.state.ledgers o.events

theorem told_runHook {again : Reentry} (h : AccountedReentry again) {args : List Value}
    {hook : Hook} {b : Bench} {o : Outcome Bench Unit} (ho : runHook again args hook b = some o) :
    Told Move.IsAnswer b.ledgers o.state.ledgers o.events := by
  cases hook with
  | completion counter hook =>
      obtain rfl : _ = o := by simpa [runHook] using ho
      exact accounted_onCounter counter (hook.silent_invoke _) b
  | note tag =>
      obtain rfl : _ = o := by simpa [runHook] using ho
      exact Told.still rfl
  | giveUp reason =>
      obtain rfl : _ = o := by simpa [runHook] using ho
      exact Told.still rfl
  | reenter controller request =>
      rw [runHook, Option.map_eq_some_iff] at ho
      obtain ⟨inner, hinner, rfl⟩ := ho
      exact h controller request b inner hinner

theorem told_runHooks {again : Reentry} (h : AccountedReentry again) {args : List Value} :
    ∀ {hooks : List Hook} {b : Bench} {o : Outcome Bench Unit},
      runHooks again args hooks b = some o → Told Move.IsAnswer b.ledgers o.state.ledgers o.events
  | [], b, o, ho => by
      obtain rfl : _ = o := by simpa [runHooks] using ho
      exact Told.still rfl
  | hook :: rest, b, o, ho => by
      simp only [runHooks, Option.bind_eq_bind, Option.bind_eq_some_iff] at ho
      obtain ⟨first, hfirst, ho⟩ := ho
      have htold := told_runHook h hfirst
      rcases hr : first.result with f | u
      · obtain rfl : _ = o := by simpa [hr] using ho
        exact htold
      · simp only [hr, Option.bind_eq_some_iff] at ho
        obtain ⟨others, hothers, ho⟩ := ho
        obtain rfl : _ = o := by simpa using ho
        exact htold.trans (told_runHooks h hothers)

theorem accounted_answer (request : Request) (stub : Option Returned) :
    Accounted allowed ledgers (answer request stub) := by
  unfold answer
  split
  · exact .pure _
  · split
    · exact .pure _
    · exact accounted_fatal _

theorem told_serve {again : Reentry} (h : AccountedReentry again) {request : Request}
    {e : Expectation} {b : Bench} {o : Outcome Bench Returned}
    (ho : serve again request e b = some o) :
    Told Move.IsAnswer b.ledgers o.state.ledgers o.events := by
  simp only [serve, Option.bind_eq_bind, Option.bind_eq_some_iff] at ho
  obtain ⟨ran, hran, ho⟩ := ho
  have htold := told_runHooks h hran
  rcases hr : ran.result with f | u
  · obtain rfl : _ = o := by simpa [hr] using ho
    exact htold
  · obtain rfl : _ = o := by simpa [hr] using ho
    exact htold.trans (accounted_answer request e.stub ran.state)

/-- A call, within any depth, is accounted for: it is answered before its hooks run. -/
theorem accountedReentry_callWithin : ∀ depth, AccountedReentry (callWithin depth)
  | 0, _, _, _, _, ho => by simp [callWithin] at ho
  | depth + 1, controller, request, b, o, ho => by
      cases hj : (b.collaborator.ledger controller).judge request.call with
      | dangling p =>
          obtain rfl : _ = o := by simpa [callWithin, hj] using ho
          exact Told.still rfl
      | refused reasons =>
          obtain rfl : _ = o := by simpa [callWithin, hj] using ho
          exact (Told.still rfl).trans (accounted_fatal (.unexpectedCall request.call reasons) b)
      | accepted index e =>
          simp only [callWithin, hj, Option.bind_eq_bind, Option.bind_eq_some_iff] at ho
          obtain ⟨served, hserved, ho⟩ := ho
          obtain rfl : _ = o := by simpa using ho
          have htold := told_serve (accountedReentry_callWithin depth) hserved
          have hj' : (b.ledgers.getD controller {}).judge request.call = .accepted index e := hj
          have hmove : Told Move.IsAnswer b.ledgers
              (Move.apply ⟨controller, .answer request.call⟩ b.ledgers)
              [.matched request.call.receiver request.call.method index (e.invoked + 1)] :=
            Told.move _ trivial _ (by rw [Move.answer?_of_accepted hj']; rfl)
          rw [Move.apply_of_accepted hj'] at hmove
          exact hmove.trans htold

theorem accounted_call (controller : Nat) (request : Request) :
    Accounted Move.IsAnswer ledgers (call controller request) := by
  intro b
  obtain ⟨o, ho, -⟩ := callWithin_ends (b.remaining + 1) controller request b (Nat.lt_succ_self _)
  have hcall : call controller request b = o := by simp [call, ho]
  rw [hcall]
  exact accountedReentry_callWithin _ controller request b o ho

/-! ### Declaring calls -/

/-- A change of the switchboard that is a move, and answers nothing. -/
theorem accounted_update {m : Move} {change : Switchboard → Switchboard} (hm : allowed m)
    (hanswer : ∀ ledgers, m.answer? ledgers = none)
    (hchange : ∀ s, (change s).controllers = m.apply s.controllers) :
    Accounted allowed ledgers (Attempt.update (Handler.modify change) : Attempt Bench Unit) := by
  intro b
  have hledgers : ledgers (Attempt.update (Handler.modify change) b).state = m.apply b.ledgers :=
    hchange _
  rw [hledgers]
  exact Told.move m hm b.ledgers (by rw [hanswer]; rfl)

theorem accounted_declare {controller : Nat} {call : Signature}
    (hm : allowed ⟨controller, .declare call⟩) :
    Accounted allowed ledgers (declare controller call) :=
  fun b => Told.move ⟨controller, .declare call⟩ hm b.ledgers rfl

section Settings

variable {id : CallId}

theorem accounted_setTimes {n : Nat} (hm : allowed ⟨id.controller, .setTimes id.index n⟩) :
    Accounted allowed ledgers (setTimes id n) :=
  accounted_update hm (fun _ => rfl) fun _ => rfl

theorem accounted_setStub {stub : Returned}
    (hm : allowed ⟨id.controller, .setStub id.index stub⟩) :
    Accounted allowed ledgers (setStub id stub) :=
  accounted_update hm (fun _ => rfl) fun _ => rfl

theorem accounted_attach {hook : Hook} (hm : allowed ⟨id.controller, .attach id.index hook⟩) :
    Accounted allowed ledgers (attach id hook) := by
  refine .bind .current fun b => ?_
  split
  · exact .fail _
  · split
    · exact accounted_update hm (fun _ => rfl) fun _ => rfl
    · exact accounted_fatal _

theorem accounted_run {plan : HookPlan}
    (hm : ∀ hook, plan.hook = .ok hook → allowed ⟨id.controller, .attach id.index hook⟩) :
    Accounted allowed ledgers (run id plan) := by
  cases hplan : plan.hook with
  | error e =>
      have hrun : run id plan = Attempt.fail (.setup e) := by
        rw [run, hplan]
        rfl
      exact hrun ▸ .fail _
  | ok hook =>
      have hrun : run id plan = attach id hook := by
        rw [run, hplan]
        rfl
      exact hrun ▸ accounted_attach (hm hook hplan)

end Settings

theorem accounted_carryOut (plan : CallPlan) : Accounted Move.Prepares ledgers plan.carryOut := by
  unfold CallPlan.carryOut
  refine .bind (accounted_declare not_false) fun id => ?_
  have hhooks : Accounted Move.Prepares ledgers
      (do let _ ← Attempt.forEach (run id) plan.hooks; pure id : Attempt Bench CallId) :=
    .bind (.forEach fun _ _ => accounted_run fun _ _ => not_false) fun _ => .pure id
  dsimp only
  have hstub (stub : Returned) : Accounted Move.Prepares ledgers (setStub id stub) :=
    accounted_setStub not_false
  have htimes (n : Nat) : Accounted Move.Prepares ledgers (setTimes id n) :=
    accounted_setTimes not_false
  have hexpect (n : Nat) :
      Accounted Move.Prepares ledgers
        (Handler.onCompletion (Completion.expect n) : Attempt Bench Nat) :=
    .on (Completion.silent_expect n) fun _ _ => rfl
  -- Each option adds its own step before the hooks, or none.
  cases plan.stub <;> cases plan.tracked <;> cases plan.times <;>
    with_reducible repeat' first
      | exact hhooks
      | refine .bind (hstub _) fun _ => ?_
      | refine .bind (htimes _) fun _ => ?_
      | refine .bind (hexpect _) fun _ => ?_

theorem accounted_produce (producer : Producer) :
    Accounted Move.Prepares ledgers producer.produce := by
  cases producer with
  | existing calls =>
      refine .bind .current fun b => ?_
      dsimp only
      split
      · exact .pure _
      · exact .fail _
  | declare plan =>
      exact .bind (accounted_get _ _) fun _ => .bind (accounted_carryOut plan) fun _ => .pure _
  | recorder => exact .fail _
  | mistake e => exact .fail _
  | nothing => exact .pure _

/-! ### Setups -/

/-- The move that registers a relation. -/
def orderMove (c : Constraint CallId) : Move :=
  ⟨c.successor.controller, .order c.successor.index c.predecessor.index⟩

theorem play_orderMove (constraints : List (Constraint CallId)) (b : Bench) :
    ledgers (constraints.foldl (fun b c => b.modify (Collaborator.order c)) b)
      = Move.play (constraints.map orderMove) (ledgers b) := by
  induction constraints generalizing b with
  | nil => rfl
  | cons c rest ih => exact ih _

theorem answers_orderMove (constraints : List (Constraint CallId)) (before : List Ledger) :
    Move.answers (constraints.map orderMove) before = [] := by
  induction constraints generalizing before with
  | nil => rfl
  | cons c rest ih => exact ih _

theorem accounted_register (constraints : List (Constraint CallId)) :
    Accounted Move.Prepares ledgers ((Handler.stage Producer.produce).register constraints) := by
  intro b
  refine ⟨constraints.map orderMove, ?_, play_orderMove constraints b, ?_⟩
  · intro m hm
    obtain ⟨c, -, rfl⟩ := List.mem_map.mp hm
    exact not_false
  · rw [answers_orderMove]
    simp [Stage.register, Handler.stage, Event.isMatched]

mutual

theorem accounted_build : ∀ setup : Setup Producer,
    Accounted Move.Prepares ledgers (setup.build (Handler.stage Producer.produce))
  | .leaf producer => accounted_produce producer
  | .independent parts => .bind (accounted_registerEach parts) fun _ => .pure _
  | .chain parts => .bind (accounted_buildEach parts) fun _ => .pure _
  | .parallel parts => .bind (accounted_buildEach parts) fun _ => .pure _
  | .detach mode part => .bind (accounted_build part) fun _ => .pure _
  | .range p q part => by
      refine .bind (accounted_build part) fun node => ?_
      split
      · exact .fail _
      · exact .bind (accounted_register _) fun _ => .pure _

theorem accounted_buildEach : ∀ parts : List (Setup Producer),
    Accounted Move.Prepares ledgers (Setup.build.buildEach (Handler.stage Producer.produce) parts)
  | [] => .pure _
  | part :: rest =>
    .bind (accounted_build part) fun _ => .bind (accounted_buildEach rest) fun _ => .pure _

theorem accounted_registerEach : ∀ parts : List (Setup Producer),
    Accounted Move.Prepares ledgers (Setup.build.registerEach (Handler.stage Producer.produce) parts)
  | [] => .pure _
  | part :: rest =>
    .bind (accounted_build part) fun _ =>
      .bind (accounted_register _) fun _ => accounted_registerEach rest

end

end Bench

namespace Session

open Attempt

/-- The expectations of all controllers of a session. -/
def ledgers (s : Session) : List Ledger :=
  s.bench.ledgers

variable {allowed : Move → Prop}

/-- Whether the events of an operation are in the log, which calls made on other threads are
not. -/
def logged : Operation → Bool
  | .concurrently _ _ => false
  | _ => true

/-- What an operation tells, be it in the log or not. -/
def told (operation : Operation) (s : Session) : List Event :=
  match operation with
  | .concurrently controller groups =>
    (Attempt.forEach (Attempt.forEachCaught (Bench.call controller)) groups s.bench).events
  | _ => (step operation s).events

end Session

namespace Session

open Attempt

/-- What some operations leave, one after another. -/
def after (operations : List Operation) (s : Session) : Session :=
  (Attempt.forEach step operations s).state

end Session

end CallOrder
