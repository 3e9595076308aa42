/-
The instances of the mock types of a test, one of each.

The first to ask for a type opens its place and makes the instance; everyone after gets the same
one.  Making it may ask for other types.  If making it fails, the place stays open and empty, and
the next to ask makes the instance after all.
-/
import CallOrder.Attempt

namespace CallOrder

/-- The places of mock types, each with its instance once that is made. -/
structure Registry where
  slots : List (String × Option String) := []
  /-- How many times the making of an instance was begun. -/
  attempts : Nat := 0

namespace Registry

/-- The number of types that were asked for. -/
def size (r : Registry) : Nat :=
  r.slots.length

/-- Whether no type was asked for yet. -/
def isEmpty (r : Registry) : Bool :=
  r.size = 0

/-- The instance of a type, if it is made. -/
def instance? (r : Registry) (mock : String) : Option String :=
  (r.slots.lookup mock).join

/-- Opens the place of a type. -/
def reserve (r : Registry) (mock : String) : Registry :=
  if (r.slots.lookup mock).isSome then r
  else { r with slots := r.slots ++ [(mock, none)] }

/-- Puts the instance of a type into its place. -/
def fill (r : Registry) (mock value : String) : Registry :=
  { r with slots := r.slots.map fun slot => if slot.1 = mock then (mock, some value) else slot }

/-- The instance of a type, made by `make` if there is none; what `make` gives besides is passed
on, and is missing where it did not run. -/
def resolve (mock : String) (make : Attempt Registry (String × β)) :
    Attempt Registry (String × Option β) := fun r =>
  let opened := r.reserve mock
  match opened.instance? mock with
  | some value => ⟨.ok (value, none), opened, []⟩
  | none =>
    match make { opened with attempts := opened.attempts + 1 } with
    | ⟨.ok (value, extra), made, events⟩ =>
      ⟨.ok (value, some extra), made.fill mock value, events ++ [.created mock]⟩
    | ⟨.error f, left, events⟩ => ⟨.error f, left, events⟩

end Registry

end CallOrder
