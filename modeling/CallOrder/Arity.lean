/-
How many arguments a hook takes: exactly so many, or at least so many less one, the last
parameter being an open tail.

There are hooks for up to nine parameters, and one with a tail has at least the tail.
-/
import CallOrder.SetupError

namespace CallOrder

/-- The shape of a hook's parameters. -/
inductive Arity where
  /-- Exactly this many parameters. -/
  | fixed (count : Nat)
  /-- This many parameters, the last of which takes any number of arguments. -/
  | variadic (count : Nat)
deriving DecidableEq

namespace Arity

/-- The most parameters a hook can have. -/
def maximum : Nat := 9

/-- The shape of `count` parameters, with an open tail or not. -/
def ofCount (count : Nat) (openTail : Bool) : Except SetupError Arity :=
  if openTail then
    if 1 ≤ count ∧ count ≤ maximum then .ok (variadic count)
    else .error (.unsupportedArity count true)
  else
    if count ≤ maximum then .ok (fixed count)
    else .error (.unsupportedArity count false)

/-- Whether a call of so many arguments fits. -/
def accepts : Arity → Nat → Bool
  | fixed count, given => given = count
  | variadic count, given => count ≤ given + 1

/-- A shape in words. -/
def text : Arity → String
  | fixed count => Text.applied "Fixed" (toString count)
  | variadic count => Text.applied "Variadic" (toString count)

end Arity

end CallOrder
