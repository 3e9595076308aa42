/-
What can be done with one count of completions and hooks on it, as data.

Clones of a count are the same count, so an operation need not say which of them it uses.  Hooks
are numbered in the order in which they came to be.
-/
import CallOrder.Completion

namespace CallOrder.Completion

/-- An operation on a count and its hooks. -/
inductive Operation where
  | expect (n : Nat)
  | signal
  | wait
  | describe
  | create (plan : CompletionPlan)
  | copy (hook : Nat)
  | describeHook (hook : Nat)
  | accepts (hook : Nat) (counts : List Nat)
  | invoke (hook given : Nat)
  /-- Runs a hook on so many threads at once. -/
  | concurrently (hook threads given : Nat)

/-- What an operation comes to. -/
inductive Answer where
  | nothing
  | number (n : Nat)
  | text (s : String)
  /-- Whether who waits is released, rather than blocked. -/
  | waited (released : Bool)
  | created (index : Nat) (arity : Arity)
  | accepted (each : List Bool)
  /-- How many threads gave up. -/
  | gaveUp (threads : Nat)

/-- A count with the hooks on it. -/
structure Counter where
  completion : Completion := {}
  hooks : List CompletionHook := []

namespace Counter

/-- An attempt on the count. -/
def onCompletion (x : Attempt Completion α) : Attempt Counter α :=
  x.on completion fun c s => { s with completion := c }

/-- The hook of a number. -/
def hook (index : Nat) : Attempt Counter CompletionHook := do
  match (← Attempt.current).hooks[index]? with
  | some found => return found
  | none => Attempt.fail (.unknown "hook")

/-- Keeps a hook, and gives its number. -/
def keep (hook : CompletionHook) : Attempt Counter Nat := fun s =>
  ⟨.ok s.hooks.length, { s with hooks := s.hooks ++ [hook] }, []⟩

/-- What an operation does. -/
def perform : Operation → Attempt Counter Answer
  | .expect n => return .number (← onCompletion (expect n))
  | .signal => do
    onCompletion signal
    return .nothing
  | .wait => return .waited (← Attempt.current).completion.isDrained
  | .describe => return .text (← Attempt.current).completion.text
  | .create plan => do
    let made ← Attempt.ofSetup plan.hook
    return .created (← keep made) made.arity
  | .copy index => return .number (← keep (← hook index))
  | .describeHook index => do
    let found ← hook index
    return .text (found.text (← Attempt.current).completion)
  | .accepts index counts => return .accepted (counts.map (← hook index).arity.accepts)
  | .invoke index given => do
    let found ← hook index
    onCompletion (found.invoke given)
    return .nothing
  | .concurrently index threads given => do
    let found ← hook index
    let results ← Attempt.unlogged <| onCompletion <|
      Attempt.forEachCaught (fun _ => found.invoke given) (List.range threads)
    return .gaveUp (results.countP (·.toOption.isNone))

/-- Operations in order, with what came of each and the count after it. -/
def run : List Operation → Attempt Counter (List (Except Failure Answer × Nat)) :=
  Attempt.forEach fun operation => do
    let result ← (perform operation).caught
    return (result, (← Attempt.current).completion.outstanding)

end Counter

end CallOrder.Completion
