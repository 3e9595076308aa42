/-
Counting completions.

A test declares how many completions it expects, the hooks of the expected calls signal one
each, and who waits is released when none is outstanding.  A signal that nobody expected is a
defect of the test and changes nothing.

The count is a machine word.  What comes of a sum that is more than a word holds depends on how
the program was built (`Overflow`): a release build keeps the remainder, and a build that checks
its arithmetic panics.  Where nothing is said of it, the build is a release build.
-/
import CallOrder.Attempt

namespace CallOrder

/-- The count of completions that are expected and were not signalled yet. -/
structure Completion where
  outstanding : Nat := 0
deriving DecidableEq

/-- What a build makes of a sum that is more than a word holds. -/
inductive Overflow where
  /-- It keeps the remainder. -/
  | wraps
  | panics
deriving DecidableEq

namespace Completion

/-- Whether a word holds the count with `n` more completions. -/
def Fits (c : Completion) (n : Nat) : Prop :=
  c.outstanding + n < UInt64.size

instance (c : Completion) (n : Nat) : Decidable (c.Fits n) :=
  inferInstanceAs (Decidable (c.outstanding + n < UInt64.size))

/-- The count with `n` more completions, as far as a word holds it. -/
def plus (c : Completion) (n : Nat) : Completion where
  outstanding := (c.outstanding + n) % UInt64.size

/-- Expects `n` more completions, and gives `n` back. -/
def expect (n : Nat) (overflow : Overflow := .wraps) : Attempt Completion Nat := fun c =>
  if overflow = .panics ∧ ¬ c.Fits n then ⟨.error (.panic .overflow), c, []⟩
  else ⟨.ok n, c.plus n, [.expecting n (c.plus n).outstanding]⟩

/-- Signals one completion. -/
def signal : Attempt Completion Unit := fun c =>
  match c.outstanding with
  | 0 => ⟨.error (.panic .negativeCount), c, []⟩
  | n + 1 => ⟨.ok (), { outstanding := n }, [.signalled n]⟩

/-- Whether who waits is released. -/
def isDrained (c : Completion) : Bool :=
  c.outstanding = 0

/-- A count in words. -/
def text (c : Completion) : String :=
  Text.record "Completion" [("outstanding", toString c.outstanding)]

/-! ### What expecting more comes to -/

variable {c : Completion} {n : Nat} {overflow : Overflow}

theorem plus_of_fits (h : c.Fits n) : c.plus n = ⟨c.outstanding + n⟩ :=
  congrArg mk (Nat.mod_eq_of_lt h)

theorem outstanding_plus_lt (c : Completion) (n : Nat) : (c.plus n).outstanding < UInt64.size :=
  Nat.mod_lt _ (by decide)

/-- A sum is made, or the build panics over one that no word holds. -/
theorem wraps_or_fits_or (overflow : Overflow) (c : Completion) (n : Nat) :
    (overflow = .wraps ∨ c.Fits n) ∨ overflow = .panics ∧ ¬ c.Fits n := by
  cases overflow with
  | wraps => exact .inl (.inl rfl)
  | panics => exact (Decidable.em (c.Fits n)).imp .inr fun h => ⟨rfl, h⟩

theorem expect_eq (h : overflow = .wraps ∨ c.Fits n) :
    expect n overflow c = ⟨.ok n, c.plus n, [.expecting n (c.plus n).outstanding]⟩ := by
  refine if_neg fun ⟨hpanics, hexceeds⟩ => ?_
  rcases h with rfl | hfits
  · cases hpanics
  · exact hexceeds hfits

/-- A build that checks its arithmetic leaves the count as it is rather than wrap. -/
theorem expect_of_not_fits (h : ¬ c.Fits n) :
    expect n .panics c = ⟨.error (.panic .overflow), c, []⟩ :=
  if_pos ⟨rfl, h⟩

end Completion

/-- The side effect of a call that signals one completion and may then give up on purpose. -/
structure CompletionHook where
  arity : Arity
  /-- The reason it gives up with. -/
  reason : Option String := none
deriving DecidableEq

/-- What is asked of a completion hook, before it is known whether there are such hooks. -/
structure CompletionPlan where
  parameters : Nat
  openTail : Bool := false
  reason : Option String := none
deriving DecidableEq

/-- The hook asked for. -/
def CompletionPlan.hook (plan : CompletionPlan) : Except SetupError CompletionHook := do
  let arity ← Arity.ofCount plan.parameters plan.openTail
  return { arity, reason := plan.reason }

namespace CompletionHook

/-- Runs the hook with so many arguments. -/
def invoke (hook : CompletionHook) (given : Nat) : Attempt Completion Unit := do
  if hook.arity.accepts given then
    Completion.signal
    match hook.reason with
    | some text => Attempt.fail (.panic (.reason text))
    | none => pure ()
  else
    Attempt.fail (.panic (.arityMismatch hook.arity given))

/-- A hook on a count in words. -/
def text (hook : CompletionHook) (c : Completion) : String :=
  Text.record "CompletionHook"
    [("arity", hook.arity.text), ("completion", c.text),
     ("reason", Text.optional (hook.reason.map Text.quoted))]

end CompletionHook

end CallOrder
