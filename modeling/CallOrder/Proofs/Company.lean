/-
A handler and the threads of a test that share it.

A session does one operation after another.  Here any number of threads do what they like with
one handler, and a step is what no other thread can come between (`Step`): a piece of an
expectation being made (`Act`), a step of a call (`Descent.next?`), or a step of verifying.
Verifying begins where the flag is swapped.  What is missing is looked up later, and complained of
one by one later still, and others may do anything in the meantime.

What happens on the way to a verification is told by a history beside the log
(`Milestone`): when it was asked for, when the handler was dropped, when verification was
begun, what it found, and what the reporter was told.

What a call can do next is said once and for all here (`Descent.Step.way`), for whoever shows
that steps keep something up.
-/
import CallOrder.CallPlan
import CallOrder.Proofs.Descent

namespace CallOrder

/-- What an attempt leaves, whatever it came to. -/
def Attempt.effect {σ α : Type} (x : Attempt σ α) (s : σ) : σ × List Event :=
  ((x s).state, (x s).events)

/-- What a thread does in one piece, calls and verifying apart. -/
inductive Act where
  | declare (controller : Nat) (call : Signature)
  | setTimes (id : CallId) (n : Nat)
  | setStub (id : CallId) (stub : Returned)
  | attach (id : CallId) (hook : Hook)
  /-- Orders a call after another by hand. -/
  | order (c : Constraint CallId)
  /-- Orders a call after another, as the walk over a tree does. -/
  | register (c : Constraint CallId)
  | expect (counter n : Nat) (overflow : Overflow := .wraps)
  | signal (counter : Nat)
  /-- Runs a hook on the handler's counter with so many arguments. -/
  | fire (hook : CompletionHook) (given : Nat)
  | get (mock : String) (make : Switchboard → String)
  /-- Tells the reporter of something. -/
  | complain (c : Complaint)
  | enter (label : String)
  | leave

/-- What it leaves of the handler, and its events. -/
def Act.effect : Act → Bench → Bench × List Event
  | declare controller call => (Bench.declare controller call).effect
  | setTimes id n => (Bench.setTimes id n).effect
  | setStub id stub => (Bench.setStub id stub).effect
  | attach id hook => (Bench.attach id hook).effect
  | order c => (Bench.after c.successor c.predecessor).effect
  | register c => ((Handler.stage Producer.produce).register [c]).effect
  | expect counter n overflow => (Bench.onCounter counter (Completion.expect n overflow)).effect
  | signal counter => (Bench.onCounter counter Completion.signal).effect
  | fire hook given => (Bench.onCounter 0 (hook.invoke given)).effect
  | get mock make => (Handler.get mock make : Attempt Bench String).effect
  | complain c => (Handler.onReporter (Reporter.error c) : Attempt Bench Unit).effect
  | enter label => (Attempt.emit (.entered label) : Attempt Bench Unit).effect
  | leave => (Attempt.emit .exited : Attempt Bench Unit).effect

/-- What a thread is about. -/
inductive Task where
  | idle
  /-- It makes a call: those that were answered and did not return yet, and what is up next. -/
  | calling (inFlight : List InFlight) (focus : Focus)
  /-- It began to verify, and is to look up what is missing. -/
  | verifying
  /-- It verifies, and is still to complain of these. -/
  | complaining (left : List Complaint)

/-- What happens on the way to a verification. -/
inductive Milestone where
  /-- The handler was told to verify. -/
  | asked
  /-- The handler was dropped, in the ordinary course or while a panic unwinds. -/
  | dropped (unwinding : Bool)
  /-- The collaborator was told to verify. -/
  | begun
  /-- It looked up what is missing among these expectations. -/
  | collected (l : Ledger)
  /-- It told the reporter of one. -/
  | told (c : Complaint)

/-- A handler, the threads that share it, and what happened so far. -/
structure Company where
  bench : Bench
  threads : List Task
  log : List Event := []
  history : List Milestone := []

namespace Company

/-- So many threads, none of which has done anything with the handler. -/
def start (kind : ReporterKind) (config : Config) (controllers counters n : Nat) : Company where
  bench := Bench.start kind config controllers counters
  threads := List.replicate n .idle

/-- A thread goes on to something else, and something happened. -/
def mark (x : Company) (i : Nat) (task : Task) (milestone : Milestone) : Company :=
  { x with threads := x.threads.set i task, history := x.history ++ [milestone] }

/-- The flag is swapped, and the thread that finds it down verifies. -/
def swap (x : Company) (i : Nat) : Company :=
  if x.bench.verified then x
  else { x with bench := { x.bench with verified := true } }.mark i .verifying .begun

/-- What is left of a verification after the reporter was told: it goes on, or it fails. -/
def onward (left : List Complaint) : Except Failure Unit → Task
  | .ok () => .complaining left
  | .error _ => .idle

/-- What a thread does about verifying, without another coming in between. -/
inductive Verification : Company → Company → Prop where
  /-- The handler is told to verify. -/
  | asked {x : Company} {i : Nat} (idle : x.threads[i]? = some .idle) :
      Verification x ((x.mark i .idle .asked).swap i)
  /-- The handler is dropped, once. -/
  | dropped {x : Company} {i : Nat} (unwinding : Bool) (idle : x.threads[i]? = some .idle)
      (lives : x.bench.dropped = false) :
      Verification x
        (let gone := { x with bench := { x.bench with dropped := true } }.mark i .idle
          (.dropped unwinding)
        if x.bench.config.verifyOnDrop && !unwinding then gone.swap i else gone)
  /-- Under the lock of the handler's controller, what is missing is looked up. -/
  | collected {x : Company} {i : Nat} (turn : x.threads[i]? = some .verifying) :
      Verification x (x.mark i (.complaining (Collaborator.unmet x.bench.collaborator))
        (.collected (x.bench.collaborator.ledger 0)))
  /-- The reporter is told of what is missing next. -/
  | told {x : Company} {i : Nat} {c : Complaint} {left : List Complaint}
      {o : Outcome Bench Unit} (turn : x.threads[i]? = some (.complaining (c :: left)))
      (tell : Handler.onReporter (Reporter.error c) x.bench = o) :
      Verification x
        ({ x with bench := o.state, log := x.log ++ o.events }.mark i (onward left o.result)
          (.told c))
  /-- Nothing is left to complain of. -/
  | ended {x : Company} {i : Nat} (turn : x.threads[i]? = some (.complaining [])) :
      Verification x { x with threads := x.threads.set i .idle }

/-- What a thread does without another coming in between. -/
inductive Step : Company → Company → Prop where
  | acted {x : Company} {i : Nat} (act : Act) (idle : x.threads[i]? = some .idle) :
      Step x { x with
        bench := (act.effect x.bench).1
        log := x.log ++ (act.effect x.bench).2 }
  /-- A call is begun. -/
  | called {x : Company} {i : Nat} (controller : Nat) (request : Request)
      (idle : x.threads[i]? = some .idle) :
      Step x { x with threads := x.threads.set i (.calling [] (.calling controller request)) }
  /-- A call goes on. -/
  | went {x : Company} {i : Nat} {inFlight : List InFlight} {focus : Focus} {y : Descent}
      (turn : x.threads[i]? = some (.calling inFlight focus))
      (next : Descent.Step ⟨x.bench, inFlight, focus, x.log⟩ y) :
      Step x { x with
        bench := y.bench
        threads := x.threads.set i (.calling y.inFlight y.focus)
        log := y.events }
  /-- A call came to something, and the thread is done with it. -/
  | returned {x : Company} {i : Nat} {result : Except Failure Returned}
      (turn : x.threads[i]? = some (.calling [] (.came result))) :
      Step x { x with threads := x.threads.set i .idle }
  | verified {x y : Company} (verification : Verification x y) : Step x y

/-- What any number of steps lead to. -/
def Steps : Company → Company → Prop :=
  Relation.ReflTransGen Step

/-- What every step keeps holds after any number of them. -/
theorem Steps.invariant {P : Company → Prop} {x y : Company} (h : Steps x y) (hx : P x)
    (hstep : ∀ {x y}, P x → Step x y → P y) : P y := by
  induction h with
  | refl => exact hx
  | tail _ hnext ih => exact hstep ih hnext

section Threads

variable {threads : List Task} {i : Nat} {task : Task}

/-- A thread may be about something else and come back to what it was about. -/
theorem set_set_of_getElem? (turn : threads[i]? = some task) (other : Task) :
    (threads.set i other).set i task = threads := by
  obtain ⟨hi, rfl⟩ := List.getElem?_eq_some_iff.mp turn
  rw [List.set_set, List.set_getElem_self]

theorem getElem?_set_of_getElem? (turn : threads[i]? = some task) (other : Task) :
    (threads.set i other)[i]? = some other :=
  List.getElem?_set_self (List.getElem?_eq_some_iff.mp turn).1

theorem set_of_getElem? (turn : threads[i]? = some task) :
    threads.set i task = threads := by
  obtain ⟨hi, rfl⟩ := List.getElem?_eq_some_iff.mp turn
  exact List.set_getElem_self hi

end Threads

/-! ### Verifying is nothing to the expectations -/

variable {x y : Company}

theorem collaborator_swap (x : Company) (i : Nat) :
    (x.swap i).bench.collaborator = x.bench.collaborator := by
  unfold swap
  split <;> rfl

theorem threads_swap (x : Company) (i : Nat) :
    (x.swap i).threads = x.threads ∨ (x.swap i).threads = x.threads.set i .verifying := by
  unfold swap
  split
  · exact Or.inl rfl
  · exact Or.inr rfl

namespace Verification

/-- **No step of verifying changes an expectation**, nor anything else of the collaborator. -/
theorem collaborator_eq (h : Verification x y) :
    y.bench.collaborator = x.bench.collaborator := by
  cases h with
  | asked idle => exact collaborator_swap _ _
  | dropped unwinding idle lives =>
      dsimp only
      split
      · exact collaborator_swap _ _
      · rfl
  | collected turn => rfl
  | told turn tell =>
      subst tell
      rfl
  | ended turn => rfl

/-- Nor does it begin or change a call. -/
theorem mem_of_calling {inFlight : List InFlight} {focus : Focus} (h : Verification x y)
    (hmem : .calling inFlight focus ∈ y.threads) : .calling inFlight focus ∈ x.threads := by
  have hset {threads : List Task} {i : Nat} (task : Task) (htask : task ≠ .calling inFlight focus)
      (hmem : .calling inFlight focus ∈ threads.set i task) :
      .calling inFlight focus ∈ threads :=
    (List.mem_or_eq_of_mem_set hmem).resolve_right htask.symm
  have hswap {x : Company} {i : Nat} (hmem : .calling inFlight focus ∈ (x.swap i).threads) :
      .calling inFlight focus ∈ x.threads := by
    rcases threads_swap x i with heq | heq <;> rw [heq] at hmem
    · exact hmem
    · exact hset .verifying nofun hmem
  cases h with
  | asked idle => exact hset .idle nofun (hswap hmem)
  | dropped unwinding idle lives =>
      dsimp only at hmem
      split at hmem
      · exact hset .idle nofun (hswap hmem)
      · exact hset .idle nofun hmem
  | collected turn => exact hset (.complaining _) nofun hmem
  | told turn tell =>
      refine hset _ ?_ hmem
      unfold onward
      split <;> exact nofun
  | ended turn => exact hset .idle nofun hmem

end Verification

end Company

/-! ### What attaching a hook comes to -/

namespace Bench

variable {b : Bench} {id : CallId} {hook : Hook} {e : Expectation}

theorem attach_of_accepts (he : b.collaborator.expectation? id = some e)
    (haccepts : hook.accepts e.call.args.length = true) :
    attach id hook b = modifyCall id (fun e => { e with hooks := e.hooks ++ [hook] }) b := by
  simp only [attach, Attempt.bind_apply, Attempt.current, he, haccepts, if_true]
  rfl

theorem attach_of_refuses (he : b.collaborator.expectation? id = some e)
    (hrefuses : hook.accepts e.call.args.length = false) :
    attach id hook b = Handler.fatal (.hookRefused e.call) b := by
  simp only [attach, Attempt.bind_apply, Attempt.current, he, hrefuses, Bool.false_eq_true,
    if_false]
  rfl

theorem attach_of_unknown (he : b.collaborator.expectation? id = none) :
    attach id hook b = ⟨.error (.unknown "call"), b, []⟩ := by
  simp only [attach, Attempt.bind_apply, Attempt.current, he]
  rfl

end Bench

/-! ### What a step of a call can be -/

namespace Descent

/-- The ways in which a call goes on. -/
inductive Way : Descent → Descent → Prop where
  | dangling {b : Bench} {callers : List InFlight} {events : List Event} {controller p : Nat}
      {request : Request}
      (judge : (b.collaborator.ledger controller).judge request.call = .dangling p) :
      Way (calling b callers controller request events) (arrived callers events
        ⟨.error (.panic (.noSuchExpectation (b.collaborator.ledger controller).calls.length p)),
          b, []⟩)
  | refused {b : Bench} {callers : List InFlight} {events : List Event} {controller : Nat}
      {request : Request} {reasons : List Reason}
      (judge : (b.collaborator.ledger controller).judge request.call = .refused reasons) :
      Way (calling b callers controller request events)
        (arrived callers (events ++ [.unexpected request.call.receiver request.call.method])
          (Handler.fatal (.unexpectedCall request.call reasons) b))
  | accepted {b : Bench} {callers : List InFlight} {events : List Event} {controller index : Nat}
      {request : Request} {e : Expectation}
      (judge : (b.collaborator.ledger controller).judge request.call = .accepted index e) :
      Way (calling b callers controller request events)
        ⟨b.modify (·.modify controller (·.invoke index)),
          ⟨request, e.hooks, e.stub⟩ :: callers, .working,
          events ++ [.matched request.call.receiver request.call.method index (e.invoked + 1)]⟩
  | answered {b : Bench} {callers : List InFlight} {events : List Event} {request : Request}
      {stub : Option Returned} :
      Way ⟨b, ⟨request, [], stub⟩ :: callers, .working, events⟩
        (arrived callers events (Bench.answer request stub b))
  | fired {b : Bench} {callers : List InFlight} {events : List Event} {request : Request}
      {hook : Hook} {rest : List Hook} {stub : Option Returned} (alone : hook.reenters = false) :
      Way ⟨b, ⟨request, hook :: rest, stub⟩ :: callers, .working, events⟩
        (onward ⟨request, rest, stub⟩ callers events (hook.fire request.call.args b))
  | reentered {b : Bench} {callers : List InFlight} {events : List Event} {controller : Nat}
      {request again : Request} {rest : List Hook} {stub : Option Returned} :
      Way ⟨b, ⟨request, .reenter controller again :: rest, stub⟩ :: callers, .working, events⟩
        (calling b (⟨request, rest, stub⟩ :: callers) controller again events)
  | noted {b : Bench} {c : InFlight} {callers : List InFlight} {events : List Event}
      {result : Except Failure Returned} :
      Way ⟨b, c :: callers, .came result, events⟩
        ⟨b.modify (·.note (.reentrant result)), c :: callers, .working, events⟩

/-- **There are no others.** -/
theorem Step.way {x y : Descent} (h : x.Step y) : Way x y := by
  rw [Step] at h
  obtain ⟨b, callers, focus, events⟩ := x
  cases focus with
  | calling controller request =>
      rw [next?] at h
      cases hjudge : (b.collaborator.ledger controller).judge request.call with
      | dangling p =>
          simp only [hjudge, Option.some.injEq] at h
          exact h ▸ .dangling hjudge
      | refused reasons =>
          simp only [hjudge, Option.some.injEq] at h
          exact h ▸ .refused hjudge
      | accepted index e =>
          simp only [hjudge, Option.some.injEq] at h
          exact h ▸ .accepted hjudge
  | working =>
      cases callers with
      | nil => cases h
      | cons c callers =>
          obtain ⟨request, hooks, stub⟩ := c
          cases hooks with
          | nil =>
              cases h
              exact .answered
          | cons hook rest =>
              cases hhook : hook.reenters with
              | false =>
                  rw [next?_hook hhook] at h
                  cases h
                  exact .fired hhook
              | true =>
                  cases hook with
                  | reenter controller again =>
                      cases h
                      exact .reentered
                  | _ => cases hhook
  | came result =>
      cases callers with
      | nil => cases h
      | cons c callers =>
          cases h
          exact .noted

end Descent

end CallOrder
