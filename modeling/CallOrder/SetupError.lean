/-
The mistakes that a setup can hold.

Each is a defect of the setup itself and is found while it is put together or evaluated, before
any call is made.
-/
import CallOrder.DetachMode
import CallOrder.Text.Layout
import CallOrder.Text.Quoted

namespace CallOrder

/-- Why a setup is refused. -/
inductive SetupError where
  /-- A part is made of something that is no expectation; `typeName` says what it is. -/
  | notAnExpectation (typeName : String)
  /-- A detach mode was given by a number that stands for none. -/
  | unknownMode (number : Nat)
  /-- A range was to be taken of a detached part. -/
  | detachedRange (mode : DetachMode)
  /-- A hook was asked for that takes more arguments, or fewer, than hooks can. -/
  | unsupportedArity (count : Nat) (variadic : Bool)
deriving DecidableEq

namespace SetupError

/-- The message of an error. -/
def message : SetupError → String
  | notAnExpectation typeName => "type [" ++ typeName ++ "] is not based on an expectation"
  | unknownMode number => "detach mode [" ++ toString number ++ "] is not supported"
  | detachedRange mode => "detach [" ++ mode.name ++ "] not supported in sub"
  | unsupportedArity count _ => "argument number not supported: " ++ toString count

/-- An error in full, with its kind and all that it holds. -/
def text : SetupError → String
  | notAnExpectation typeName =>
    Text.record "Composition" [("type_name", Text.quoted typeName)]
  | unknownMode number => Text.applied "UnsupportedDetachMode" (toString number)
  | detachedRange mode => Text.applied "DetachNotAllowedInSub" mode.name
  | unsupportedArity count variadic =>
    Text.record "UnsupportedArity"
      [("argc", toString count), ("variadic", Text.truth variadic)]

end SetupError

/-- The mode of that number, or the error that there is none. -/
def DetachMode.ofNumber (n : Nat) : Except SetupError DetachMode :=
  match ofNumber? n with
  | .some mode => .ok mode
  | .none => .error (.unknownMode n)

end CallOrder
