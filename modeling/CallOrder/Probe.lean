/-
Setups over bare names.

A probe is an expectation that is known by its name alone and keeps every relation registered
for it, so that what a setup stands for can be seen without any call being made.
-/
import CallOrder.Handler
import CallOrder.Sketch

namespace CallOrder

/-- The relations registered so far, in order and with repetitions. -/
structure Probes where
  constraints : Array (Constraint String) := #[]

instance : Collaborator Probes String where
  order c p := { p with constraints := p.constraints.push c }
  describe _ name := name
  unmet _ := [.other "finish"]
  text _ := "Probes"

namespace Probe

/-- A leaf comes to a tree of probes, or is a mistake. -/
abbrev Leaf := Except SetupError (Node String)

/-- A handler of probes, and the setups that have names. -/
structure Board where
  handler : Handler Probes
  definitions : Definitions Leaf := []

/-- What can be done with probes. -/
inductive Operation where
  | define (name : String) (sketch : Sketch Leaf)
  | build (sketch : Sketch Leaf)
  | expect (sketch : Sketch Leaf)
  /-- Registers the relations of a tree that comes after the anchors. -/
  | propagate (anchors : List String) (node : Node String)
  | buildPropagate (anchors : List String) (sketch : Sketch Leaf)
  | finish
  | drop
  | describe

/-- What an operation comes to. -/
inductive Answer where
  | nothing
  | text (s : String)
  | tree (node : Node String)
  | frontier (anchors : List String)
  | treeAndFrontier (node : Node String) (anchors : List String)

/-- A board on which nothing happened yet. -/
def start (config : Config) : Board :=
  { handler := { collaborator := {}, config } }

/-- An attempt on the handler. -/
def onHandler (x : Attempt (Handler Probes) α) : Attempt Board α :=
  x.on Board.handler fun h b => { b with handler := h }

/-- The setup that a sketch stands for on this board. -/
def setup (sketch : Sketch Leaf) : Attempt Board (Setup Leaf) := do
  Attempt.ofExcept (sketch.setup (← Attempt.current).definitions)

/-- How setups over probes are evaluated. -/
def stage : Stage Leaf (Handler Probes) String :=
  Handler.stage Attempt.ofSetup

/-- Registers the relations of a tree after anchors, and gives the new anchors. -/
def propagate (anchors : List String) (node : Node String) :
    Attempt (Handler Probes) (List String) := do
  let walk := node.propagate anchors
  stage.register walk.constraints
  return walk.frontier

/-- What an operation does. -/
def perform : Operation → Attempt Board Answer
  | .define name sketch => do
    let found ← setup sketch
    Attempt.update fun b => { b with definitions := (name, found) :: b.definitions }
    return .text found.text
  | .build sketch => do
    let found ← setup sketch
    return .tree (← onHandler (found.build stage))
  | .expect sketch => do
    let found ← setup sketch
    onHandler (Handler.expect Attempt.ofSetup found)
    return .nothing
  | .propagate anchors node => do
    return .frontier (← onHandler (propagate anchors node))
  | .buildPropagate anchors sketch => do
    let found ← setup sketch
    let node ← onHandler (found.build stage)
    return .treeAndFrontier node (← onHandler (propagate anchors node))
  | .finish => do
    onHandler Handler.finish
    return .nothing
  | .drop => do
    onHandler (Handler.drop false)
    return .nothing
  | .describe => return .text (← Attempt.current).handler.text

/-- What is told after an operation: what came of it, the relations registered meanwhile, and
how often the probes were verified so far. -/
structure Report where
  result : Except Failure Answer
  constraints : List (Constraint String)
  finished : Nat

/-- One operation and the report on it. -/
def step (operation : Operation) : Attempt Board Report := do
  let before ← Attempt.current
  let result ← (perform operation).caught
  let now ← Attempt.current
  return {
    result
    constraints :=
      now.handler.collaborator.constraints.toList.drop before.handler.collaborator.constraints.size
    finished := now.handler.verified.toNat }

/-- All operations in order, then the handler is dropped if it still lives. -/
def run (operations : List Operation) : Attempt Board (List Report × Report) := do
  let reports ← Attempt.forEach step operations
  return (reports, ← step .drop)

end Probe

end CallOrder
