/-
How a part of a setup is decoupled from the order around it.

A cut frees a part from what comes before it, from what comes after it, or from both.  A detach
mode is a cut or none at all; modes are written by name, by number, or in a document.
-/
import CallOrder.Document

namespace CallOrder

/-- Which of its two sides a part gives up its order on. -/
inductive Cut where
  /-- The part is not ordered after what comes before it. -/
  | head
  /-- What comes after the part is not ordered after it. -/
  | tail
  /-- Neither. -/
  | both
deriving DecidableEq

/-- A cut, or none. -/
inductive DetachMode where
  | none
  | cut (side : Cut)
deriving DecidableEq

/-- The name of a cut. -/
def Cut.name : Cut → String
  | .head => "Head"
  | .tail => "Tail"
  | .both => "Both"

namespace DetachMode

/-- The name of a mode. -/
def name : DetachMode → String
  | none => "None"
  | cut side => side.name

/-- Every mode, in the order of their numbers. -/
def all : List DetachMode :=
  [none, cut .head, cut .tail, cut .both]

/-- The number of a mode. -/
def number : DetachMode → Nat
  | none => 0
  | cut .head => 1
  | cut .tail => 2
  | cut .both => 3

/-- The mode of that name. -/
def ofName? (name : String) : Option DetachMode :=
  all.find? (·.name = name)

/-- The mode of that number. -/
def ofNumber? (n : Nat) : Option DetachMode :=
  all.find? (·.number = n)

/-- A mode in a document is its name. -/
def document (mode : DetachMode) : Document :=
  .text mode.name

/-- The mode that a document holds: its name, alone or as the only field of a table whose value
is null. -/
def ofDocument? : Document → Option DetachMode
  | .text name => ofName? name
  | .table [(name, .null)] => ofName? name
  | _ => Option.none

/-! ### A mode is known by its name and by its number -/

theorem ofName?_name (mode : DetachMode) : ofName? mode.name = some mode := by
  cases mode with
  | none => rfl
  | cut side => cases side <;> rfl

theorem ofNumber?_number (mode : DetachMode) : ofNumber? mode.number = some mode := by
  cases mode with
  | none => rfl
  | cut side => cases side <;> rfl

theorem ofDocument?_document (mode : DetachMode) : ofDocument? mode.document = some mode :=
  ofName?_name mode

end DetachMode

end CallOrder
