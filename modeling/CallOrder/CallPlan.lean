/-
Declaring expected calls, one at a time or from within a setup.

A plan says all there is to a call before it is declared.  Carrying it out declares the call
first, so the expectation exists even if one of its hooks turns out to be impossible.
-/
import CallOrder.Dispatch

namespace CallOrder

/-- A hook as it is asked for. -/
inductive HookPlan where
  | completion (counter : Nat) (plan : CompletionPlan)
  | note (tag : String)
  | giveUp (reason : String)
  | reenter (controller : Nat) (request : Request)

/-- The hook asked for. -/
def HookPlan.hook : HookPlan → Except SetupError Hook
  | completion counter plan => plan.hook.map (.completion counter)
  | note tag => .ok (.note tag)
  | giveUp reason => .ok (.giveUp reason)
  | reenter controller request => .ok (.reenter controller request)

namespace Bench

/-- Declares an expected call on a controller. -/
def declare (controller : Nat) (call : Signature) : Attempt Bench CallId := fun b =>
  let id := { controller, index := (b.collaborator.ledger controller).calls.length }
  ⟨.ok id,
   b.modify fun s => { s.modify controller (·.declare call) with declared := s.declared ++ [id] },
   [.declared call.receiver call.method id.index]⟩

/-- Changes an expectation. -/
def modifyCall (id : CallId) (change : Expectation → Expectation) : Attempt Bench Unit :=
  Attempt.update (·.modify (·.modifyCall id change))

/-- Sets how often a call is expected. -/
def setTimes (id : CallId) (n : Nat) : Attempt Bench Unit :=
  modifyCall id fun e => { e with times := n }

/-- Sets what a call returns. -/
def setStub (id : CallId) (stub : Returned) : Attempt Bench Unit :=
  modifyCall id fun e => { e with stub := some stub }

/-- Attaches a hook to an expected call, whose arguments it has to take. -/
def attach (id : CallId) (hook : Hook) : Attempt Bench Unit := do
  let b ← Attempt.current
  match b.collaborator.expectation? id with
  | none => Attempt.fail (.unknown "call")
  | some e =>
    if hook.accepts e.call.args.length then
      modifyCall id fun e => { e with hooks := e.hooks ++ [hook] }
    else
      Handler.fatal (.hookRefused e.call)

/-- Makes a hook and attaches it. -/
def run (id : CallId) (plan : HookPlan) : Attempt Bench Unit := do
  let hook ← Attempt.ofSetup plan.hook
  attach id hook

/-- Orders a call after another. -/
def after (id predecessor : CallId) : Attempt Bench Unit :=
  Attempt.update (·.modify (Collaborator.order ⟨id, predecessor⟩))

/-- How often a call was made. -/
def invoked (b : Bench) (id : CallId) : Nat :=
  (b.collaborator.expectation? id).elim 0 (·.invoked)

/-- The call that was declared as number `n`, counted from zero over all controllers. -/
def declared (n : Nat) : Attempt Bench CallId := do
  let b ← Attempt.current
  match b.collaborator.declared[n]? with
  | some id => return id
  | none => Attempt.fail (.unknown "call")

end Bench

/-- An expected call with all that belongs to it. -/
structure CallPlan where
  call : Signature
  stub : Option Returned := none
  /-- How many completions are expected of it; it is to be called as often. -/
  tracked : Option Nat := none
  times : Option Nat := none
  hooks : List HookPlan := []

/-- Declares the call of a plan on the handler's controller, then what belongs to it: its stub,
its completions, how often it is called, and its hooks one after another. -/
def CallPlan.carryOut (plan : CallPlan) : Attempt Bench CallId := do
  let id ← Bench.declare 0 plan.call
  if let some stub := plan.stub then
    Bench.setStub id stub
  if let some n := plan.tracked then
    Bench.setTimes id (← Handler.onCompletion (Completion.expect n))
  if let some n := plan.times then
    Bench.setTimes id n
  let _ ← Attempt.forEach (Bench.run id) plan.hooks
  return id

/-- What a leaf of a setup comes to. -/
inductive Producer where
  /-- Calls that were declared before, by number. -/
  | existing (calls : Node Nat)
  /-- A call declared anew at every evaluation, through the mock that the calls of setups share. -/
  | declare (plan : CallPlan)
  /-- What declares calls, where a declared call belongs. -/
  | recorder
  /-- A mistake. -/
  | mistake (e : SetupError)
  /-- Nothing to expect. -/
  | nothing

namespace Producer

/-- The mock type whose instance declares the calls of setups. -/
def sharedMock : String := "MockIface"

/-- What a recorder is called where an expectation is asked for. -/
def recorderType : String := "kitchensink_mock::controller::Recorder"

/-- The tree that a producer comes to. -/
def produce : Producer → Attempt Bench (Node CallId)
  | existing calls => do
    let known := (← Attempt.current).collaborator.declared
    if calls.leaves.all (· < known.length) then
      return calls.map fun n => known.getD n ⟨0, n⟩
    else
      Attempt.fail (.unknown "call")
  | declare plan => do
    let _ ← Handler.get sharedMock fun _ => ""
    return .single (← plan.carryOut)
  | recorder => Attempt.fail (.setup (.notAnExpectation recorderType))
  | mistake e => Attempt.fail (.setup e)
  | nothing => return .empty

end Producer

end CallOrder
