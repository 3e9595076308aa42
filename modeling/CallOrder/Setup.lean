/-
Setups: which calls are expected, and in which order.

A setup is an expression over producers, each of which declares what it expects when it is
evaluated.  Evaluation goes through the expression from left to right, stops at the first
failure, and gives a tree of expectations.  Relations are registered only where a part is
complete in itself: each part of an independent setup, and the whole that a range is taken of.
-/
import CallOrder.Attempt
import CallOrder.Constraint

namespace CallOrder

/-- An expression over producers of type `π`. -/
inductive Setup (π : Type) where
  | leaf (producer : π)
  /-- Parts ordered neither relative to each other nor to what is around them. -/
  | independent (parts : List (Setup π))
  /-- Parts one after another. -/
  | chain (parts : List (Setup π))
  /-- Parts side by side. -/
  | parallel (parts : List (Setup π))
  /-- A part decoupled from what is around it. -/
  | detach (mode : DetachMode) (part : Setup π)
  /-- What lies between two positions of a part. -/
  | range (p q : Int64) (part : Setup π)

/-- A setup in words, which say nothing of what is in it. -/
def Setup.text (_ : Setup π) : String :=
  "SetupFunc \x7b .. \x7d"

/-- What setups are evaluated against: how a producer is run, how a relation is registered, and
which event tells of it. -/
structure Stage (π σ ι : Type) where
  produce : π → Attempt σ (Node ι)
  order : Constraint ι → σ → σ
  event : σ → Constraint ι → Event

/-- Registers relations one after another. -/
def Stage.register (stage : Stage π σ ι) (constraints : List (Constraint ι)) :
    Attempt σ Unit := fun s =>
  ⟨.ok (), constraints.foldl (fun t c => stage.order c t) s, constraints.map (stage.event s)⟩

variable {π σ ι : Type} [DecidableEq ι]

/-- Evaluates a setup to the tree of what it expects. -/
def Setup.build (stage : Stage π σ ι) : Setup π → Attempt σ (Node ι)
  | leaf producer => stage.produce producer
  | independent parts => do
    registerEach parts
    return .empty
  | chain parts => do
    let nodes ← buildEach parts
    return .chain (nodes.flatMap Node.links)
  | parallel parts => do
    let nodes ← buildEach parts
    return .parallel nodes
  | detach mode part => do
    let node ← build stage part
    return node.detached mode
  | range p q part => do
    let node ← build stage part
    match node.cut? with
    | some side => Attempt.fail (.setup (.detachedRange (.cut side)))
    | none =>
      stage.register (node.propagate []).constraints
      return node.between p q
where
  /-- Evaluates setups one after another. -/
  buildEach : List (Setup π) → Attempt σ (List (Node ι))
    | [] => return []
    | part :: rest => do
      let node ← build stage part
      let others ← buildEach rest
      return node :: others
  /-- Evaluates setups one after another, and registers what each stands for on its own before
  the next is evaluated. -/
  registerEach : List (Setup π) → Attempt σ Unit
    | [] => return ()
    | part :: rest => do
      let node ← build stage part
      stage.register ((node.detached (.cut .both)).propagate []).constraints
      registerEach rest

end CallOrder
