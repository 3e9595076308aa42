/-
The values that calls take as arguments.

Values of different kinds differ, lists and optional values are compared part by part, and the
one value that differs from everything, itself included, is the number that is not a number.
-/
import CallOrder.Text.Layout
import CallOrder.Text.Quoted

namespace CallOrder

/-- An argument of a call. -/
inductive Value where
  | text (s : String)
  | number (n : Int)
  | truth (b : Bool)
  | unit
  | char (c : Char)
  /-- The float that is not a number. -/
  | nan
  | none
  | some (v : Value)
  | list (vs : List Value)

namespace Value

/-- Whether two values are equal. -/
def same : Value → Value → Bool
  | text s, text t => s = t
  | number m, number n => m = n
  | truth a, truth b => a = b
  | unit, unit => true
  | char c, char d => c = d
  | none, none => true
  | some v, some w => same v w
  | list vs, list ws => allSame vs ws
  | _, _ => false
where
  /-- Whether two lists have equal values at every place, and end together. -/
  allSame : List Value → List Value → Bool
    | [], [] => true
    | v :: vs, w :: ws => same v w && allSame vs ws
    | _, _ => false

/-- A value in words. -/
def render : Value → String
  | text s => Text.quoted s
  | number n => toString n
  | truth b => Text.truth b
  | unit => Text.tupled []
  | char c => Text.quotedSingle c
  | nan => "NaN"
  | none => Text.optional Option.none
  | some v => Text.optional (Option.some (render v))
  | list vs => Text.listed (renderAll vs)
where
  /-- The words of each value of a list. -/
  renderAll : List Value → List String
    | [] => []
    | v :: vs => render v :: renderAll vs

/-- A tuple of arguments in words. -/
def renderTuple (vs : List Value) : String :=
  Text.tupled (vs.map render)

/-- A list of values in words. -/
def renderList (vs : List Value) : String :=
  Text.listed (vs.map render)

end Value

end CallOrder
