/-
Trees of expectations and the order they stand for.

A chain orders its parts one after another, parallel parts share what they come after, and a
detached group gives up its order on one side or both.  The tree says nothing yet about single
expectations: which of them is ordered after which follows when the tree is walked.
-/
import CallOrder.DetachMode
import CallOrder.Range
import CallOrder.Text.Layout

namespace CallOrder

/-- A tree over expectations of type `ι`. -/
inductive Node (ι : Type) where
  | single (e : ι)
  | chain (parts : List (Node ι))
  | parallel (parts : List (Node ι))
  | detach (side : Cut) (parts : List (Node ι))
  | empty

namespace Node

/-- The cut of a detached group. -/
def cut? : Node ι → Option Cut
  | detach side _ => some side
  | _ => none

/-- The tree decoupled as the mode says. -/
def detached (n : Node ι) : DetachMode → Node ι
  | .none => n
  | .cut side => detach side [n]

/-- Whether the tree orders nothing by its form alone. -/
def isEmpty : Node ι → Bool
  | empty => true
  | _ => false

/-- What a tree contributes to a chain around it: a chain its parts, an empty tree nothing. -/
def links : Node ι → List (Node ι)
  | chain parts => parts
  | empty => []
  | n => [n]

/-- The tree of what was taken from a group: one part stands for itself, several make a group
again, and nothing is empty. -/
def ofSlice (group : List (Node ι) → Node ι) : Option (Slice (Node ι)) → Node ι
  | none => empty
  | some (.single part) => part
  | some (.range parts) => group parts

/-- The part of a tree between two positions.  A group keeps its kind; anything else is a
sequence of one, so every range of it is itself. -/
def between (p q : Int64) : Node ι → Node ι
  | chain parts => ofSlice chain (Slice.between p q parts)
  | parallel parts => ofSlice parallel (Slice.between p q parts)
  | n => n

/-- The expectations of a tree from left to right, repetitions kept. -/
def leaves : Node ι → List ι
  | single e => [e]
  | chain parts => leavesAll parts
  | parallel parts => leavesAll parts
  | detach _ parts => leavesAll parts
  | empty => []
where
  /-- The expectations of several trees. -/
  leavesAll : List (Node ι) → List ι
    | [] => []
    | n :: rest => leaves n ++ leavesAll rest

/-- The same tree over other expectations. -/
def map (f : ι → κ) : Node ι → Node κ
  | single e => single (f e)
  | chain parts => chain (mapAll parts)
  | parallel parts => parallel (mapAll parts)
  | detach side parts => detach side (mapAll parts)
  | empty => empty
where
  /-- The same trees over other expectations. -/
  mapAll : List (Node ι) → List (Node κ)
    | [] => []
    | n :: rest => map f n :: mapAll rest

/-- A tree in words, over the words of its expectations. -/
def text : Node String → String
  | single e => Text.applied "Single" e
  | chain parts => Text.applied "Chain" (Text.listed (textAll parts))
  | parallel parts => Text.applied "Parallel" (Text.listed (textAll parts))
  | detach side parts => Text.applied ("Detach" ++ side.name) (Text.listed (textAll parts))
  | empty => "Empty"
where
  /-- The words of each of several trees. -/
  textAll : List (Node String) → List String
    | [] => []
    | n :: rest => text n :: textAll rest

end Node

end CallOrder
