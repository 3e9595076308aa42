/-
What one thread does with a handler while the others stand still.

`Handler.finish` swaps the flag, looks up what is missing and complains of it in one go, a setup
is evaluated in one go, and so is a call with all calls within it.  Where threads share the
handler each of these is many steps, and a thread that is left alone takes them one after
another; for verifying that is known already (`steps_finish`, `steps_drop`).  Putting attempts in
a row, catching their failures and going through lists and setups only chains steps, so every
operation of a session is done step by step (`steps_perform`), and what is true of every company
is true of every session (`steps_session`).
-/
import CallOrder.Proofs.Deferral
import CallOrder.Proofs.History
import CallOrder.Proofs.Verifying

namespace CallOrder

namespace Company

variable {σ τ ι α β : Type} {view : σ → Bench} {threads : List Task} {i : Nat}
  {history : List Milestone}

/-- What the attempt does to a handler, a thread does step by step while it is left alone. -/
def Stepwise (view : σ → Bench) (act : Attempt σ α) : Prop :=
  ∀ (s : σ) (threads : List Task) (i : Nat) (log : List Event) (history : List Milestone),
    threads[i]? = some .idle →
      ∃ more, Steps ⟨view s, threads, log, history⟩
        ⟨view (act s).state, threads, log ++ (act s).events, history ++ more⟩

namespace Stepwise

/-- What leaves the handler alone and emits nothing is done in no steps. -/
theorem of_still {act : Attempt σ α}
    (h : ∀ s, view (act s).state = view s ∧ (act s).events = []) : Stepwise view act := by
  intro s threads i log history _
  refine ⟨[], ?_⟩
  rw [(h s).1, (h s).2, List.append_nil, List.append_nil]
  exact .refl

theorem pure (a : α) : Stepwise view (Pure.pure a : Attempt σ α) :=
  of_still fun _ => ⟨rfl, rfl⟩

theorem fail (f : Failure) : Stepwise view (Attempt.fail f : Attempt σ α) :=
  of_still fun _ => ⟨rfl, rfl⟩

theorem current : Stepwise view Attempt.current :=
  of_still fun _ => ⟨rfl, rfl⟩

theorem ofExcept (x : Except Failure α) : Stepwise view (Attempt.ofExcept x) := by
  cases x with
  | ok a => exact pure a
  | error f => exact fail f

theorem ofSetup (x : Except SetupError α) : Stepwise view (Attempt.ofSetup x) := by
  cases x with
  | ok a => exact pure a
  | error e => exact fail (.setup e)

theorem bind {act : Attempt σ α} {next : α → Attempt σ β} (h : Stepwise view act)
    (hnext : ∀ a, Stepwise view (next a)) : Stepwise view (act >>= next) := by
  intro s threads i log history idle
  obtain ⟨more, hsteps⟩ := h s threads i log history idle
  rw [Attempt.bind_apply]
  rcases hact : act s with ⟨f | a, t, events⟩
  · rw [hact] at hsteps
    exact ⟨more, hsteps⟩
  · rw [hact] at hsteps
    obtain ⟨later, hlater⟩ := hnext a t threads i (log ++ events) (history ++ more) idle
    rw [List.append_assoc, List.append_assoc] at hlater
    exact ⟨more ++ later, hsteps.trans hlater⟩

theorem caught {act : Attempt σ α} (h : Stepwise view act) : Stepwise view act.caught :=
  h

theorem forEach {act : ι → Attempt σ α} (h : ∀ item, Stepwise view (act item)) :
    ∀ items, Stepwise view (Attempt.forEach act items)
  | [] => pure []
  | item :: rest => (h item).bind fun _ => (forEach h rest).bind fun _ => pure _

/-- An attempt on a part of the state, where the handler is. -/
theorem on {part : Attempt σ α} {get : τ → σ} {set : σ → τ → τ} {whole : τ → Bench}
    (h : Stepwise view part) (hget : ∀ t, whole t = view (get t))
    (hset : ∀ s t, whole (set s t) = view s) : Stepwise whole (part.on get set) := by
  intro t threads i log history idle
  obtain ⟨more, hsteps⟩ := h (get t) threads i log history idle
  refine ⟨more, ?_⟩
  rw [hget]
  exact (hset _ _).symm ▸ hsteps

/-- What is one piece is one step. -/
theorem of_act (act : Act) {attempt : Attempt Bench α} (h : attempt.effect = act.effect) :
    Stepwise id attempt := by
  intro b threads i log history idle
  refine ⟨[], ?_⟩
  have hstep := Step.acted (x := ⟨b, threads, log, history⟩) act idle
  rw [← h] at hstep
  rw [List.append_nil]
  exact .single hstep

end Stepwise

/-- Steps of a call are steps of the thread that makes it. -/
theorem steps_of_descent {task : Task} (turn : threads[i]? = some task) {x y : Descent}
    (h : x.Steps y) :
    Steps ⟨x.bench, threads.set i (.calling x.inFlight x.focus), x.events, history⟩
      ⟨y.bench, threads.set i (.calling y.inFlight y.focus), y.events, history⟩ := by
  induction h with
  | refl => exact .refl
  | @tail y z _ hnext ih =>
      have hturn := getElem?_set_of_getElem? turn (.calling y.inFlight y.focus)
      have hstep := Step.went (x := ⟨y.bench, _, y.events, history⟩) hturn hnext
      rw [List.set_set] at hstep
      exact ih.tail hstep

/-- **A call that is left alone is made step by step.** -/
theorem Stepwise.call (controller : Nat) (request : Request) :
    Stepwise id (Bench.call controller request) := by
  intro b threads i log history idle
  refine ⟨[], ?_⟩
  have hcalled := Step.called (x := ⟨b, threads, log, history⟩) controller request idle
  have harrives := Descent.arrives (b.remaining + 1) b [] log controller request
    (Nat.lt_succ_self _)
  let last := Descent.arrived [] log (Bench.call controller request b)
  have hreturned := Step.returned (x := ⟨last.bench, _, last.events, history⟩)
    (getElem?_set_of_getElem? idle (.calling [] last.focus))
  simp only [set_set_of_getElem? idle] at hreturned
  rw [List.append_nil]
  exact .head hcalled ((steps_of_descent idle harrives).tail hreturned)

/-! ### Verifying alone -/

namespace Stepwise

/-- **Verifying is done step by step**, whether the handler is told to or is dropped. -/
theorem finish : Stepwise id (Handler.finish : Attempt Bench Unit) :=
  fun b _ _ log history idle => ⟨_, steps_finish idle b log history⟩

theorem drop (unwinding : Bool) : Stepwise id (Handler.drop unwinding : Attempt Bench Unit) :=
  fun b _ _ log history idle => ⟨_, steps_drop idle unwinding b log history⟩

/-- A controller may be told to complain by itself. -/
theorem errors : ∀ complaints : List Complaint,
    Stepwise id (Handler.onReporter (Reporter.errors complaints) : Attempt Bench Unit)
  | [] => of_still fun _ => ⟨rfl, rfl⟩
  | c :: rest => by
      rw [Bench.onReporter_errors_cons]
      exact (of_act (.complain c) rfl).bind fun _ => errors rest

theorem verify (controller : Nat) : Stepwise id (Bench.verify controller) :=
  current.bind fun _ => errors _

end Stepwise

end Company

/-! ### Expecting alone -/

/-- A relation changes nothing of how expectations are described. -/
theorem Switchboard.describe_order (c : Constraint CallId) (s : Switchboard) (call : CallId) :
    (Collaborator.order c s : Switchboard).describe call = s.describe call := by
  have hdescribe (s : Switchboard) : s.unordered.describe call = s.describe call := by
    rw [describe, describe, expectation?_unordered]
    cases s.expectation? call <;> rfl
  have hunordered : (Collaborator.order c s : Switchboard).unordered = s.unordered := by
    refine (unordered_modify (g := id) (fun l => l.unordered_after _ _) s _).trans ?_
    simp [modify]
  rw [← hdescribe, hunordered, hdescribe]

/-- So it makes no difference to what is told of another. -/
theorem Bench.event_order (c : Constraint CallId) (b : Bench) :
    let stage := Handler.stage Producer.produce
    stage.event (stage.order c b) = stage.event b := by
  funext other
  simp only [Handler.stage, Handler.modify, Collaborator.describe, Switchboard.describe_order]

namespace Company.Stepwise

open Attempt

/-- Relations are registered one by one. -/
theorem register (constraints : List (Constraint CallId)) :
    Stepwise id ((Handler.stage Producer.produce).register constraints) := by
  intro b threads i log history idle
  refine ⟨[], ?_⟩
  rw [List.append_nil]
  induction constraints generalizing b log with
  | nil =>
      simp only [Stage.register, List.map_nil, List.foldl_nil, List.append_nil]
      exact .refl
  | cons c rest ih =>
      let stage := Handler.stage Producer.produce
      have hstep := Step.acted (x := ⟨b, threads, log, history⟩) (.register c) idle
      have hsteps := ih (stage.order c b) (log ++ [stage.event b c])
      simp only [Stage.register, List.map_cons, List.foldl_cons, stage, Bench.event_order,
        List.append_assoc, List.singleton_append] at hsteps ⊢
      exact .head hstep hsteps

theorem run (call : CallId) (plan : HookPlan) : Stepwise id (Bench.run call plan) :=
  (ofSetup _).bind fun hook => of_act (.attach call hook) rfl

theorem declared (n : Nat) : Stepwise id (Bench.declared n) := by
  refine current.bind fun b => ?_
  split
  · exact pure _
  · exact fail _

theorem carryOut (plan : CallPlan) : Stepwise id plan.carryOut := by
  unfold CallPlan.carryOut
  refine (of_act (.declare 0 plan.call) rfl).bind fun call => ?_
  have hhooks : Stepwise id
      (do let _ ← Attempt.forEach (Bench.run call) plan.hooks; Pure.pure call :
        Attempt Bench CallId) :=
    (forEach (run call) plan.hooks).bind fun _ => pure call
  dsimp only
  have hstub (stub : Returned) : Stepwise id (Bench.setStub call stub) :=
    of_act (.setStub call stub) rfl
  have htimes (n : Nat) : Stepwise id (Bench.setTimes call n) := of_act (.setTimes call n) rfl
  have hexpect (n : Nat) :
      Stepwise id (Handler.onCompletion (Completion.expect n) : Attempt Bench Nat) :=
    of_act (.expect 0 n) rfl
  -- Each option adds its own step before the hooks, or none.
  cases plan.stub <;> cases plan.tracked <;> cases plan.times <;>
    with_reducible repeat' first
      | exact hhooks
      | refine (hstub _).bind fun _ => ?_
      | refine (htimes _).bind fun _ => ?_
      | refine (hexpect _).bind fun _ => ?_

theorem produce (producer : Producer) : Stepwise id producer.produce := by
  cases producer with
  | existing calls =>
      refine current.bind fun b => ?_
      dsimp only
      split
      · exact pure _
      · exact fail _
  | declare plan =>
      exact (of_act (.get Producer.sharedMock fun _ => "") rfl).bind fun _ =>
        (carryOut plan).bind fun _ => pure _
  | recorder => exact fail _
  | mistake e => exact fail _
  | nothing => exact pure _

mutual

theorem build : ∀ setup : Setup Producer,
    Stepwise id (setup.build (Handler.stage Producer.produce))
  | .leaf producer => produce producer
  | .independent parts => (registerEach parts).bind fun _ => pure _
  | .chain parts => (buildEach parts).bind fun _ => pure _
  | .parallel parts => (buildEach parts).bind fun _ => pure _
  | .detach mode part => (build part).bind fun _ => pure _
  | .range p q part => by
      refine (build part).bind fun node => ?_
      split
      · exact fail _
      · exact (register _).bind fun _ => pure _

theorem buildEach : ∀ parts : List (Setup Producer),
    Stepwise id (Setup.build.buildEach (Handler.stage Producer.produce) parts)
  | [] => pure _
  | part :: rest => (build part).bind fun _ => (buildEach rest).bind fun _ => pure _

theorem registerEach : ∀ parts : List (Setup Producer),
    Stepwise id (Setup.build.registerEach (Handler.stage Producer.produce) parts)
  | [] => pure _
  | part :: rest =>
    (build part).bind fun _ => (register _).bind fun _ => registerEach rest

end

/-- **A setup that is expected alone is evaluated step by step.** -/
theorem expect (setup : Setup Producer) : Stepwise id (Handler.expect Producer.produce setup) := by
  refine current.bind fun b => (of_act (.enter _) rfl).bind fun _ => (build _).caught.bind fun _ =>
    (of_act .leave rfl).bind fun _ => ?_
  split
  · exact pure _
  · exact fail _

end Company.Stepwise

/-! ### Sessions -/

namespace Company

open Attempt Session

namespace Stepwise

theorem onBench {α : Type} {act : Attempt Bench α} (h : Stepwise id act) :
    Stepwise Session.bench (Session.onBench act) :=
  h.on (fun _ => rfl) fun _ _ => rfl

theorem setup (sketch : Sketch Producer) : Stepwise Session.bench (Session.setup sketch) :=
  current.bind fun _ => ofExcept _

theorem describe (subject : Subject) : Stepwise id (Session.describe subject) := by
  cases subject with
  | call number => exact (declared number).bind fun _ => current.bind fun _ => pure _
  | recorder receiver => exact pure _
  | handler => exact current.bind fun _ => pure _
  | config => exact current.bind fun _ => pure _
  | controller number => exact current.bind fun _ => pure _

theorem tryHook (plan : CompletionPlan) (given : Option Nat) :
    Stepwise id (Session.tryHook plan given) := by
  refine (ofSetup _).bind fun hook => ?_
  cases given with
  | none => exact current.bind fun _ => pure _
  | some n => exact (of_act (.fire hook n) rfl).bind fun _ => current.bind fun _ => pure _

theorem perform {operation : Operation} (h : logged operation = true) :
    Stepwise Session.bench (Session.perform operation) := by
  cases operation with
  | define name sketch =>
      exact (setup sketch).bind fun found =>
        .bind (of_still fun _ => ⟨rfl, rfl⟩) fun _ => pure _
  | expect sketch =>
      exact (setup sketch).bind fun found => (expect found).onBench.bind fun _ => pure _
  | build sketch =>
      exact (setup sketch).bind fun found => (build found).onBench.bind fun _ =>
        current.bind fun _ => pure _
  | declare controller call =>
      exact onBench <| (of_act (.declare controller call) rfl).bind fun _ =>
        current.bind fun _ => pure _
  | setTimes call n =>
      exact onBench <| (declared call).bind fun id => (of_act (.setTimes id n) rfl).bind fun _ =>
        current.bind fun _ => pure _
  | setStub call stub =>
      exact onBench <| (declared call).bind fun id => (of_act (.setStub id stub) rfl).bind fun _ =>
        pure _
  | run call hook =>
      exact onBench <| (declared call).bind fun id => (run id hook).bind fun _ => pure _
  | after call predecessor =>
      exact onBench <| (declared call).bind fun id => (declared predecessor).bind fun before =>
        (of_act (.order ⟨id, before⟩) rfl).bind fun _ => pure _
  | same call other =>
      exact onBench <| (declared call).bind fun _ => (declared other).bind fun _ => pure _
  | call controller request =>
      exact onBench <| (call controller request).bind fun _ => pure _
  | concurrently controller groups => exact Bool.noConfusion h
  | expectCompletions counter n =>
      exact onBench <| (of_act (.expect counter n) rfl).bind fun _ => pure _
  | signal counter => exact onBench <| (of_act (.signal counter) rfl).bind fun _ => pure _
  | wait counter => exact onBench <| current.bind fun _ => pure _
  | hook plan given => exact onBench <| (tryHook plan given).bind fun _ => pure _
  | get mock value => exact onBench <| (of_act (.get mock _) rfl).bind fun _ => pure _
  | finish => exact onBench <| finish.bind fun _ => pure _
  | finishController number => exact onBench <| (verify number).bind fun _ => pure _
  | drop => exact onBench <| (drop false).bind fun _ => pure _
  | dropUnwinding => exact onBench <| (drop true).bind fun _ => fail _
  | describe subject => exact onBench <| (describe subject).bind fun _ => pure _

end Stepwise

/-- **Whatever a session does, one thread does step by step.**  Only the events of calls that are
made on several threads are in no log of a session. -/
theorem steps_perform {threads : List Task} {i : Nat}
    (idle : threads[i]? = some .idle) (operation : Operation) (s : Session)
    (log : List Event) (history : List Milestone) :
    ∃ events more, Steps ⟨s.bench, threads, log, history⟩
      ⟨(Session.perform operation s).state.bench, threads, log ++ events, history ++ more⟩ ∧
      (logged operation = true → events = (Session.perform operation s).events) := by
  by_cases h : logged operation = true
  · obtain ⟨more, hsteps⟩ := Stepwise.perform h s threads i log history idle
    exact ⟨_, more, hsteps, fun _ => rfl⟩
  · cases operation with
    | concurrently controller groups =>
        let calls := Attempt.forEach (Attempt.forEachCaught (Bench.call controller)) groups
        have hcalls : Stepwise id calls :=
          .forEach (fun group => .forEach (fun request => (Stepwise.call controller request).caught)
            group) groups
        obtain ⟨more, hsteps⟩ := hcalls s.bench threads i log history idle
        refine ⟨(calls s.bench).events, more, ?_, fun hlogged => absurd hlogged h⟩
        have hstate : (Session.perform (.concurrently controller groups) s).state.bench
            = (calls s.bench).state := by
          simp only [Session.perform, Session.onBench, Attempt.on, bind_apply, Attempt.unlogged,
            calls]
          rcases Attempt.forEach (Attempt.forEachCaught (Bench.call controller)) groups s.bench
            with ⟨f | values, t, events⟩ <;> rfl
        rw [hstate]
        exact hsteps
    | _ => exact absurd rfl h

/-- And so do all its operations. -/
theorem steps_operations (operations : List Operation) (s : Session) (log : List Event)
    (history : List Milestone) :
    ∃ log' history', Steps ⟨s.bench, [.idle], log, history⟩
      ⟨(Attempt.forEach Session.step operations s).state.bench, [.idle], log', history'⟩ := by
  induction operations generalizing s log history with
  | nil => exact ⟨log, history, .refl⟩
  | cons operation rest ih =>
      have hidle : [Task.idle][0]? = some .idle := rfl
      obtain ⟨events, more, hsteps, -⟩ := steps_perform hidle operation s log history
      obtain ⟨log', history', hrest⟩ :=
        ih (Session.perform operation s).state (log ++ events) (history ++ more)
      rw [state_forEach_step]
      exact ⟨log', history', hsteps.trans hrest⟩

/-- A session of one thread is among what a company comes to. -/
theorem steps_session (kind : ReporterKind) (config : Config) (operations : List Operation) :
    ∃ log history, Steps (start kind config 2 0 1)
      ⟨(Attempt.forEach Session.step operations (Session.start kind config)).state.bench, [.idle],
        log, history⟩ :=
  steps_operations operations (Session.start kind config) [] []

end Company

end CallOrder
