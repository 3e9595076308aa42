/-
Positions in a sequence, counted from either end, and the part of it that two positions bound.

A position is a signed word.  Below zero it counts from the end, and one that points past
either end is moved to that end; so in a sequence with elements every word stands for one of
them.  Two positions bound the same part whichever is named first, and a part of one element is
that element rather than a sequence.
-/
namespace CallOrder

/-- The index that a position stands for among `length` elements: `length - |position|` below
zero, stopping at the front; else the position itself, stopping at the last element. -/
def clampIndex (position : Int64) (length : Nat) : Nat :=
  if position.toInt < 0 then length - position.toInt.natAbs
  else min position.toInt.natAbs (length - 1)

/-- What two positions bound in a sequence. -/
inductive Slice (α : Type) where
  /-- Both positions stand for the same element. -/
  | single (item : α)
  /-- The elements from the lower position to the upper one, both included. -/
  | range (items : List α)
deriving DecidableEq

/-- The part of `items` between two positions; a sequence without elements has none. -/
def Slice.between (p q : Int64) (items : List α) : Option (Slice α) :=
  let i := clampIndex p items.length
  let j := clampIndex q items.length
  if i = j then items[i]?.map .single
  else some (.range ((items.take (max i j + 1)).drop (min i j)))

end CallOrder
