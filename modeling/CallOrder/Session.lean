/-
Sessions: a handler and what is done with it, one operation after another.

An operation that fails ends nothing but itself; the session goes on from the state that it left.
After each operation the session tells what came of it, what the reporter recorded and the hooks
noted meanwhile, how often every declared call was made, and how many completions are
outstanding.
-/
import CallOrder.CallPlan
import CallOrder.Sketch

namespace CallOrder

/-- Something that can be put into words. -/
inductive Subject where
  | handler
  | config
  | controller (number : Nat)
  | call (number : Nat)
  /-- What declares the calls of a receiver. -/
  | recorder (receiver : String)

/-- What can be done in a session.  Declared calls are given by number. -/
inductive Operation where
  | define (name : String) (sketch : Sketch Producer)
  | expect (sketch : Sketch Producer)
  /-- Evaluates a setup without ordering what it comes to. -/
  | build (sketch : Sketch Producer)
  | declare (controller : Nat) (call : Signature)
  | setTimes (call n : Nat)
  | setStub (call : Nat) (stub : Returned)
  | run (call : Nat) (hook : HookPlan)
  | after (call predecessor : Nat)
  /-- Asks whether two numbers stand for the same call. -/
  | same (call other : Nat)
  | call (controller : Nat) (request : Request)
  /-- Makes calls on several threads, group by group. -/
  | concurrently (controller : Nat) (groups : List (List Request))
  | expectCompletions (counter n : Nat)
  | signal (counter : Nat)
  | wait (counter : Nat)
  /-- Makes a completion hook, and runs it with so many arguments if a number is given. -/
  | hook (plan : CompletionPlan) (given : Option Nat)
  /-- Asks for the instance of a mock type; one that is made is told the handler's controller. -/
  | get (mock value : String)
  | finish
  /-- Lets a controller complain of what is missing. -/
  | finishController (number : Nat)
  | drop
  /-- Drops the handler while a panic unwinds. -/
  | dropUnwinding
  | describe (subject : Subject)

/-- What an operation comes to. -/
inductive Answer where
  | nothing
  | number (n : Nat)
  | truth (b : Bool)
  | text (s : String)
  | tree (node : Node String)
  | returned (value : Returned)
  /-- Whether who waits is released, rather than blocked. -/
  | waited (released : Bool)
  /-- What came of the calls of each group. -/
  | results (groups : List (List (Except Failure Returned)))

/-- A handler with its controllers, and the setups that have names. -/
structure Session where
  bench : Bench
  definitions : Definitions Producer := []

namespace Session

/-- A session with two controllers, the first of which is the handler's. -/
def start (kind : ReporterKind) (config : Config) : Session :=
  { bench := Bench.start kind config 2 0 }

/-- An attempt on the handler. -/
def onBench (x : Attempt Bench α) : Attempt Session α :=
  x.on bench fun b s => { s with bench := b }

/-- The setup that a sketch stands for in this session. -/
def setup (sketch : Sketch Producer) : Attempt Session (Setup Producer) := do
  Attempt.ofExcept (sketch.setup (← Attempt.current).definitions)

/-- A subject in words. -/
def describe : Subject → Attempt Bench String
  | .handler => return (← Attempt.current).text
  | .config => return (← Attempt.current).config.text
  | .controller number => return ((← Attempt.current).collaborator.ledger number).text
  | .call number => do
    let id ← Bench.declared number
    return (← Attempt.current).collaborator.describe id
  | .recorder receiver => return Text.record "Recorder" [("receiver", Text.quoted receiver)]

/-- Makes a completion hook, runs it if it is given arguments, and puts it into words. -/
def tryHook (plan : CompletionPlan) (given : Option Nat) : Attempt Bench String := do
  let hook ← Handler.hook plan
  if let some n := given then
    Handler.onCompletion (hook.invoke n)
  return hook.text (← Attempt.current).completion

/-- What an operation does. -/
def perform : Operation → Attempt Session Answer
  | .define name sketch => do
    let found ← setup sketch
    Attempt.update fun s => { s with definitions := (name, found) :: s.definitions }
    return .nothing
  | .expect sketch => do
    let found ← setup sketch
    onBench (Handler.expect Producer.produce found)
    return .nothing
  | .build sketch => do
    let found ← setup sketch
    let node ← onBench (found.build (Handler.stage Producer.produce))
    let s ← Attempt.current
    return .tree (node.map s.bench.collaborator.describe)
  | .declare controller call => onBench do
    let id ← Bench.declare controller call
    return .text ((← Attempt.current).collaborator.describe id)
  | .setTimes call n => onBench do
    let id ← Bench.declared call
    Bench.setTimes id n
    return .number ((← Attempt.current).invoked id)
  | .setStub call stub => onBench do
    Bench.setStub (← Bench.declared call) stub
    return .nothing
  | .run call hook => onBench do
    Bench.run (← Bench.declared call) hook
    return .nothing
  | .after call predecessor => onBench do
    Bench.after (← Bench.declared call) (← Bench.declared predecessor)
    return .nothing
  | .same call other => onBench do
    return .truth ((← Bench.declared call) = (← Bench.declared other))
  | .call controller request => onBench do
    return .returned (← Bench.call controller request)
  | .concurrently controller groups => onBench do
    let results ← Attempt.unlogged <|
      Attempt.forEach (Attempt.forEachCaught (Bench.call controller)) groups
    return .results results
  | .expectCompletions counter n => onBench do
    return .number (← Bench.onCounter counter (Completion.expect n))
  | .signal counter => onBench do
    Bench.onCounter counter Completion.signal
    return .nothing
  | .wait counter => onBench do
    return .waited ((← Attempt.current).completionOf counter).isDrained
  | .hook plan given => onBench do
    return .text (← tryHook plan given)
  | .get mock value => onBench do
    return .text (← Handler.get mock fun c => value ++ " " ++ Collaborator.text c)
  | .finish => onBench do
    Handler.finish
    return .nothing
  | .finishController number => onBench do
    Bench.verify number
    return .nothing
  | .drop => onBench do
    Handler.drop false
    return .nothing
  | .dropUnwinding => onBench do
    Handler.drop true
    Attempt.fail (.panic (.reason "unwinding"))
  | .describe subject => onBench do
    return .text (← describe subject)

/-- What a session tells after an operation. -/
structure Report where
  result : Except Failure Answer
  /-- What the reporter recorded meanwhile. -/
  failures : List Complaint
  /-- How often each declared call was made so far. -/
  invoked : List Nat
  outstanding : Nat
  /-- What hooks noted meanwhile. -/
  notes : List Note

/-- The report on what led from one state to another. -/
def report (before after : Session) (result : Except Failure Answer) : Report where
  result := result
  failures := after.bench.reporter.failures.drop before.bench.reporter.failures.length
  invoked := after.bench.collaborator.declared.map after.bench.invoked
  outstanding := after.bench.completion.outstanding
  notes := after.bench.collaborator.notes.drop before.bench.collaborator.notes.length

/-- One operation and the report on it; its failure is part of the report. -/
def step (operation : Operation) : Attempt Session Report := do
  let before ← Attempt.current
  let result ← (perform operation).caught
  return report before (← Attempt.current) result

/-- A whole session: the operations in order, then the handler is dropped if it still lives. -/
def run (operations : List Operation) : Attempt Session (List Report × Report) := do
  let reports ← Attempt.forEach step operations
  return (reports, ← step .drop)

/-! ### A step never fails, and the session goes on from the state that the operation left -/

theorem step_apply (operation : Operation) (s : Session) :
    step operation s = ⟨.ok (report s (perform operation s).state (perform operation s).result),
      (perform operation s).state, (perform operation s).events⟩ := by
  simp only [step, Attempt.bind_apply, Attempt.current, Attempt.caught, Outcome.after,
    Attempt.pure_apply, List.nil_append, List.append_nil]

theorem state_forEach_step (operation : Operation) (rest : List Operation) (s : Session) :
    (Attempt.forEach step (operation :: rest) s).state
      = (Attempt.forEach step rest (perform operation s).state).state := by
  rw [Attempt.forEach, Attempt.bind_apply, step_apply]
  simp only [Attempt.bind_apply]
  rcases Attempt.forEach step rest (perform operation s).state with ⟨f | reports, t, events⟩ <;> rfl

end Session

end CallOrder
