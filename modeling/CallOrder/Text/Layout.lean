/-
How compound values are laid out on one line: lists in brackets, tuples in parentheses, records
with their fields in braces.

A tuple of one element keeps a comma behind it, so that it differs from a value in parentheses.
-/
namespace CallOrder.Text

/-- The texts one after another, a comma and a space between two of them. -/
def commaSeparated (items : List String) : String :=
  ", ".intercalate items

/-- A list: the elements in brackets. -/
def listed (items : List String) : String :=
  "[" ++ commaSeparated items ++ "]"

/-- A tuple: the elements in parentheses, a single one followed by a comma. -/
def tupled : List String → String
  | [item] => "(" ++ item ++ ",)"
  | items => "(" ++ commaSeparated items ++ ")"

/-- A name with its contents in parentheses. -/
def applied (name : String) (contents : String) : String :=
  name ++ "(" ++ contents ++ ")"

/-- A value that may be missing: `Some(…)` around it, or `None`. -/
def optional : Option String → String
  | some item => applied "Some" item
  | none => "None"

/-- A record: its name, then each field's name and value in braces. -/
def record (name : String) (fields : List (String × String)) : String :=
  name ++ " \x7b " ++ commaSeparated (fields.map fun field => field.1 ++ ": " ++ field.2) ++ " \x7d"

/-- A truth value in words. -/
def truth (b : Bool) : String :=
  if b then "true" else "false"

end CallOrder.Text
