/-
Setups as they are written down.

In a sketch a detach mode may be given by a number, and a name may stand for a setup that was
defined before.  The whole sketch is made into a setup before any of it is evaluated, so a number
that stands for no mode is found first.
-/
import CallOrder.Setup

namespace CallOrder

/-- A detach mode as it is written down. -/
inductive ModeSketch where
  | named (mode : DetachMode)
  | numbered (n : Nat)
deriving DecidableEq

/-- The mode that was meant. -/
def ModeSketch.mode : ModeSketch → Except SetupError DetachMode
  | named mode => .ok mode
  | numbered n => DetachMode.ofNumber n

/-- A setup as it is written down. -/
inductive Sketch (π : Type) where
  | leaf (producer : π)
  /-- The setup of that name. -/
  | named (name : String)
  | independent (parts : List (Sketch π))
  | chain (parts : List (Sketch π))
  | parallel (parts : List (Sketch π))
  | detach (mode : ModeSketch) (part : Sketch π)
  | range (p q : Int64) (part : Sketch π)

/-- Setups by name, the latest definition of a name first. -/
abbrev Definitions (π : Type) := List (String × Setup π)

/-- The setup that a sketch stands for. -/
def Sketch.setup (known : Definitions π) : Sketch π → Except Failure (Setup π)
  | leaf producer => return .leaf producer
  | named name =>
    match known.lookup name with
    | some found => .ok found
    | none => .error (.unknown name)
  | independent parts => return .independent (← setupEach parts)
  | chain parts => return .chain (← setupEach parts)
  | parallel parts => return .parallel (← setupEach parts)
  | detach mode part => do
    let mode ← mode.mode.mapError .setup
    return .detach mode (← setup known part)
  | range p q part => return .range p q (← setup known part)
where
  /-- The setups that several sketches stand for. -/
  setupEach : List (Sketch π) → Except Failure (List (Setup π))
    | [] => return []
    | part :: rest => return (← setup known part) :: (← setupEach rest)

end CallOrder
