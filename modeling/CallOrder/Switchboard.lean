/-
The controllers and counters of a test.

The first controller is the one that the handler works for; others may stand beside it, as other
counters may beside the handler's own.  Expectations are told apart by their controller and their
number there, and the switchboard keeps them in the order in which they were declared, whichever
controller took them.
-/
import CallOrder.Handler
import CallOrder.Ledger

namespace CallOrder

/-- Which expectation: the number of its controller, and its own number there. -/
structure CallId where
  controller : Nat
  index : Nat
deriving DecidableEq

/-- What a hook noted. -/
inductive Note where
  /-- The arguments of a call. -/
  | arguments (tag : String) (args : List Value)
  /-- What came of a call made from within a call. -/
  | reentrant (result : Except Failure Returned)

/-- The controllers, the counters beside the handler's, the expectations in order of declaration,
and what hooks noted. -/
structure Switchboard where
  controllers : List Ledger := []
  counters : List Completion := []
  declared : List CallId := []
  notes : List Note := []

namespace Switchboard

/-- The expectations of a controller. -/
def ledger (s : Switchboard) (controller : Nat) : Ledger :=
  s.controllers.getD controller {}

/-- A counter beside the handler's. -/
def counter (s : Switchboard) (number : Nat) : Completion :=
  s.counters.getD number {}

/-- Changes a controller. -/
def modify (controller : Nat) (change : Ledger → Ledger) (s : Switchboard) : Switchboard :=
  { s with controllers := s.controllers.modify controller change }

/-- Changes an expectation. -/
def modifyCall (id : CallId) (change : Expectation → Expectation) (s : Switchboard) :
    Switchboard :=
  s.modify id.controller (·.modify id.index change)

/-- The expectation of an identity. -/
def expectation? (s : Switchboard) (id : CallId) : Option Expectation :=
  (s.ledger id.controller).calls[id.index]?

/-- An expectation in words. -/
def describe (s : Switchboard) (id : CallId) : String :=
  Text.applied "Call" ((s.expectation? id).elim "" (·.call.text))

/-- How often all expectations of all controllers may still be called. -/
def remaining (s : Switchboard) : Nat :=
  total Ledger.remaining s.controllers

/-- Keeps a note. -/
def note (n : Note) (s : Switchboard) : Switchboard :=
  { s with notes := s.notes ++ [n] }

/-- The relation is registered with the successor's controller, under the number that the
predecessor has with its own. -/
instance : Collaborator Switchboard CallId where
  order c := modify c.successor.controller (·.after c.successor.index c.predecessor.index)
  describe := describe
  unmet s := (s.ledger 0).missing
  text s := (s.ledger 0).text

/-- Where a controller answers a call, one is taken from what all of them still allow. -/
theorem remaining_invoke {s : Switchboard} {controller index : Nat} {e : Expectation}
    (hi : (s.ledger controller).calls[index]? = some e) (he : e.satisfied = false) :
    (s.modify controller (·.invoke index)).remaining + 1 = s.remaining := by
  have hget : s.controllers[controller]? = some (s.ledger controller) := by
    unfold ledger at hi ⊢
    rw [List.getD_eq_getElem?_getD] at hi ⊢
    cases hc : s.controllers[controller]? with
    | none => simp [hc] at hi
    | some l => rfl
  have hsum := total_modify Ledger.remaining (·.invoke index) _ _ _ hget
  have hone := Ledger.remaining_invoke hi he
  simp only [remaining, modify]
  omega

end Switchboard

end CallOrder
