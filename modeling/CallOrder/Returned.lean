/-
What calls return.

The caller says which type it asks for.  A call without a stub returns the default of that type;
a stub of another type is refused.
-/
import CallOrder.Document

namespace CallOrder

/-- The types a call can be asked to return. -/
inductive ReturnType where
  | text
  | number
  | truth
  | unit
  | numbers
  | optionalText
deriving DecidableEq

/-- A value that a call returns. -/
inductive Returned where
  | text (s : String)
  | number (n : Int)
  | truth (b : Bool)
  | unit
  | numbers (ns : List Int)
  | optionalText (s : Option String)
deriving DecidableEq

/-- The name of a type in messages. -/
def ReturnType.name : ReturnType → String
  | text => "alloc::string::String"
  | number => "i64"
  | truth => "bool"
  | unit => "()"
  | numbers => "alloc::vec::Vec<i64>"
  | optionalText => "core::option::Option<alloc::string::String>"

/-- The value of a type that a call without a stub returns. -/
def ReturnType.default : ReturnType → Returned
  | text => .text ""
  | number => .number 0
  | truth => .truth false
  | unit => .unit
  | numbers => .numbers []
  | optionalText => .optionalText none

/-- The type of a value. -/
def Returned.type : Returned → ReturnType
  | text _ => .text
  | number _ => .number
  | truth _ => .truth
  | unit => .unit
  | numbers _ => .numbers
  | optionalText _ => .optionalText

/-- A value as a document. -/
def Returned.document : Returned → Document
  | text s => .text s
  | number n => .number n
  | truth b => .truth b
  | unit => .null
  | numbers ns => .list (ns.map .number)
  | optionalText s => s.elim .null .text

theorem ReturnType.type_default (t : ReturnType) : t.default.type = t := by
  cases t <;> rfl

end CallOrder
