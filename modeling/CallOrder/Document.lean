/-
The plain data that configurations and modes are written in: null, truth values, whole numbers,
texts, lists, and tables of named fields.
-/
namespace CallOrder

/-- A piece of plain data.  The fields of a table have distinct names. -/
inductive Document where
  | null
  | truth (value : Bool)
  | number (value : Int)
  | text (value : String)
  | list (items : List Document)
  | table (fields : List (String × Document))
deriving BEq

/-- The value of a table's field. -/
def Document.field? (name : String) (fields : List (String × Document)) : Option Document :=
  fields.lookup name

end CallOrder
