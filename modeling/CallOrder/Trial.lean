/-
Trials: whether a setup admits an order of calls.

Each order is tried on a fresh handler, for which the setup is put together anew; where no order
is tried, nothing is.  The calls are made in turn until one fails or returns something other than
what is wanted; then the handler verifies.  The order is admitted if nothing stopped the trial and
nothing was recorded.
-/
import CallOrder.Session

namespace CallOrder

/-- A call of a trial, with what it is wanted to return, if that matters. -/
structure TrialCall where
  request : Request
  want : Option Document := none

/-- What came of a trial. -/
structure TrialReport where
  /-- The call that stopped it, and what came of that call. -/
  stopped : Option (Nat × Except Failure Returned)
  failures : List Complaint
  outstanding : Nat

namespace Trial

/-- Whether a call returned what is wanted of it. -/
def wanted (call : TrialCall) (value : Returned) : Bool :=
  call.want.all (· == value.document)

/-- Makes calls in turn, the first of which is number `start`, up to one that stops the trial. -/
def callsFrom (start : Nat) :
    List TrialCall → Attempt Bench (Option (Nat × Except Failure Returned))
  | [] => return none
  | c :: rest => do
    match ← (Bench.call 0 c.request).caught with
    | .error f => return some (start, .error f)
    | .ok value =>
      if wanted c value then callsFrom (start + 1) rest else return some (start, .ok value)

/-- Tries calls in their order on a handler that expects the setup of a sketch. -/
def run (sketch : Sketch Producer) (calls : List TrialCall) : Attempt Bench TrialReport := do
  let setup ← Attempt.ofExcept (sketch.setup [])
  Handler.expect Producer.produce setup
  let stopped ← callsFrom 0 calls
  Handler.finish
  let b ← Attempt.current
  return { stopped, failures := b.reporter.failures, outstanding := b.completion.outstanding }

/-- Whether the order was admitted. -/
def passed (r : TrialReport) : Bool :=
  r.stopped.isNone && r.failures.isEmpty

/-- A handler that records, and verifies only when it is told to. -/
def fresh : Bench :=
  Bench.start .recording { verifyOnDrop := false } 1 0

/-- Tries several orders, each on a fresh handler; a setup that fails ends them all. -/
def runEach (sketch : Sketch Producer) :
    List (List TrialCall) → Attempt Unit (List TrialReport) :=
  Attempt.forEach fun calls => (run sketch calls).on (fun _ => fresh) fun _ u => u

end Trial

end CallOrder
