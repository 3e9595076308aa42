/-
The configuration of a mock handler, and how it is read from a document.

Every field has a default.  A table may leave fields out and may hold fields that mean nothing
here; a list gives the fields in order and may stop early, but may not go on.
-/
import CallOrder.Document
import CallOrder.Text.Layout
import CallOrder.Text.Quoted

namespace CallOrder

/-- What can be chosen about a handler. -/
structure Config where
  /-- Names the handler's setups in the log. -/
  label : Option String := none
  /-- Whether dropping the handler verifies its expectations. -/
  verifyOnDrop : Bool := true
deriving DecidableEq

namespace Config

/-- A choice made after the configuration was read. -/
inductive Change where
  | label (label : String)
  | verifyOnDrop (choice : Bool)

/-- The configuration with another choice. -/
def change (c : Config) : Change → Config
  | .label label => { c with label := some label }
  | .verifyOnDrop choice => { c with verifyOnDrop := choice }

/-- Whether every choice is the default. -/
def isDefault (c : Config) : Bool :=
  c = {}

/-- A label is a text, or null for none. -/
def labelOf? : Document → Option (Option String)
  | .null => some none
  | .text label => some (some label)
  | _ => none

/-- The choice to verify is a truth value. -/
def verifyOf? : Document → Option Bool
  | .truth choice => some choice
  | _ => none

/-- A field's value: the default where it is absent, refused where it is not of its kind. -/
def fieldOr (default : α) (read : Document → Option α) : Option Document → Option α
  | none => some default
  | some value => read value

/-- The configuration with these fields, each of which may be absent. -/
def ofFields? (label verify : Option Document) : Option Config := do
  let label ← fieldOr none labelOf? label
  let verifyOnDrop ← fieldOr true verifyOf? verify
  return { label, verifyOnDrop }

/-- The configuration that a document holds. -/
def ofDocument? : Document → Option Config
  | .table fields =>
    ofFields? (Document.field? "label" fields) (Document.field? "verify_on_drop" fields)
  | .list items => if items.length ≤ 2 then ofFields? items[0]? items[1]? else none
  | _ => none

/-- A configuration as a document: a table of both fields. -/
def document (c : Config) : Document :=
  .table [("label", c.label.elim .null .text), ("verify_on_drop", .truth c.verifyOnDrop)]

/-- A configuration in words. -/
def text (c : Config) : String :=
  Text.record "MocksConfig"
    [("label", Text.optional (c.label.map Text.quoted)),
     ("verify_on_drop", Text.truth c.verifyOnDrop)]

/-- What is written is read back. -/
theorem ofDocument?_document (c : Config) : ofDocument? c.document = some c := by
  obtain ⟨label, _⟩ := c
  cases label <;> rfl

end Config

end CallOrder
