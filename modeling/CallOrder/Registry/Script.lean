/-
What can be done with one registry, as data.

Making an instance may do further things with the registry first, and may give up in the end;
what the inner operations did stays done.
-/
import CallOrder.Registry

namespace CallOrder.Registry

/-- An operation on a registry. -/
inductive Operation where
  /-- Asks for the instance of a type.  Making it does what is asked `before`, gives up if there
  is a reason to, and else comes to `value`. -/
  | resolve (mock value : String) (before : Option (List Operation)) (reason : Option String)
  /-- Asks for the instance of a type on so many threads at once. -/
  | concurrently (mock value : String) (threads : Nat)

mutual

/-- What an operation comes to. -/
inductive Answer where
  /-- The instance, whether this operation made it, and what making it did before. -/
  | resolved (value : String) (created : Bool) (before : Option (List Report))
  /-- What each thread got, and how many of them made an instance. -/
  | shared (values : List String) (created : Nat)

/-- What came of an operation, and the registry after it. -/
inductive Report where
  | mk (result : Except Failure Answer) (size : Nat) (isEmpty : Bool)

end

/-- Asks for an instance that needs nothing but itself. -/
def resolvePlain (mock value : String) : Attempt Registry (String × Option Unit) :=
  resolve mock (return (value, ()))

/-- What an operation does. -/
def perform : Operation → Attempt Registry Answer
  | .resolve mock value before reason => do
    let (found, extra) ← resolve mock do
      let reports ← performBefore before
      match reason with
      | some text => Attempt.fail (.panic (.reason text))
      | none => return (value, reports)
    return .resolved found extra.isSome extra.join
  | .concurrently mock value threads => do
    let found ← Attempt.unlogged <|
      Attempt.forEach (fun _ => resolvePlain mock value) (List.range threads)
    return .shared (found.map (·.1)) (found.countP (·.2.isSome))
where
  /-- What is done before an instance is made, if anything is. -/
  performBefore : Option (List Operation) → Attempt Registry (Option (List Report))
    | none => return none
    | some operations => return some (← performEach operations)
  /-- Operations in order, with the report on each. -/
  performEach : List Operation → Attempt Registry (List Report)
    | [] => return []
    | operation :: rest => do
      let result ← (perform operation).caught
      let r ← Attempt.current
      return .mk result r.size r.isEmpty :: (← performEach rest)

/-- Operations in order, with the report on each. -/
def run (operations : List Operation) : Attempt Registry (List Report) :=
  perform.performEach operations

end CallOrder.Registry
