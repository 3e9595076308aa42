/-
The relations that a tree of expectations stands for.

The walk carries the frontier: the expectations that whatever comes next has to come after.  A
single expectation is ordered after the whole frontier and becomes the frontier itself; chains
hand it on from part to part, parallel parts all start from the same one and join what they
leave, and a detached part does without it on the side that it gave up.
-/
import CallOrder.Node

namespace CallOrder

/-- One expectation has to come after another. -/
structure Constraint (ι : Type) where
  successor : ι
  predecessor : ι
deriving DecidableEq

/-- What a walk found: the relations in order, repetitions kept, and the frontier it ends with. -/
structure Walk (ι : Type) where
  constraints : List (Constraint ι)
  frontier : List ι
deriving DecidableEq

variable {ι : Type} [DecidableEq ι]

/-- The relations of one expectation to a frontier.  It is never ordered after itself, though a
walk can meet it twice. -/
def Constraint.after (anchors : List ι) (e : ι) : List (Constraint ι) :=
  (anchors.filter (· ≠ e)).map fun anchor => ⟨e, anchor⟩

/-- The walk over a tree from a frontier. -/
def Node.propagate : List ι → Node ι → Walk ι
  | anchors, .single e => ⟨Constraint.after anchors e, [e]⟩
  | anchors, .chain parts => inSequence anchors parts
  | anchors, .parallel parts => sideBySide anchors parts
  | anchors, .detach .head parts =>
    let inner := sideBySide [] parts
    ⟨inner.constraints, anchors ++ inner.frontier⟩
  | anchors, .detach .tail parts => ⟨(sideBySide anchors parts).constraints, anchors⟩
  | anchors, .detach .both parts => ⟨(sideBySide [] parts).constraints, anchors⟩
  | anchors, .empty => ⟨[], anchors⟩
where
  /-- Each tree from the frontier that the one before it left. -/
  inSequence : List ι → List (Node ι) → Walk ι
    | anchors, [] => ⟨[], anchors⟩
    | anchors, n :: rest =>
      let first := propagate anchors n
      let others := inSequence first.frontier rest
      ⟨first.constraints ++ others.constraints, others.frontier⟩
  /-- Each tree from the same frontier; what they leave is joined. -/
  sideBySide : List ι → List (Node ι) → Walk ι
    | _, [] => ⟨[], []⟩
    | anchors, n :: rest =>
      let first := propagate anchors n
      let others := sideBySide anchors rest
      ⟨first.constraints ++ others.constraints, first.frontier ++ others.frontier⟩

end CallOrder
