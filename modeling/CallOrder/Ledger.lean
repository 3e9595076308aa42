/-
The expectations of one controller, and which of them answers a call.

Expectations are numbered in the order of declaration.  A call is answered by the first whose
key it has, that is not closed, that may be called once more, and whose prerequisites were all
called as often as they should be.  Answering closes the prerequisites: once a successor was
called they are never called again.  If none answers, each expectation of the method says why.
-/
import CallOrder.Completion
import CallOrder.Total

namespace CallOrder

/-- An actual call: its key and the type that it is to return. -/
structure Request where
  call : Signature
  type : ReturnType := .text

/-- The side effect of a call. -/
inductive Hook where
  /-- Signals a completion to a counter. -/
  | completion (counter : Nat) (hook : CompletionHook)
  /-- Notes the arguments under a tag. -/
  | note (tag : String)
  /-- Gives up with a reason. -/
  | giveUp (reason : String)
  /-- Makes another call on a controller and notes what came of it. -/
  | reenter (controller : Nat) (request : Request)

/-- Whether a hook can be run with so many arguments. -/
def Hook.accepts : Hook → Nat → Bool
  | completion _ hook, given => hook.arity.accepts given
  | _, _ => true

/-- One expected call. -/
structure Expectation where
  call : Signature
  /-- How often it is to be called. -/
  times : Nat := 1
  /-- How often it was called. -/
  invoked : Nat := 0
  /-- The numbers of the expectations that come before it. -/
  prerequisites : List Nat := []
  /-- Whether one that comes after it was called. -/
  closed : Bool := false
  hooks : List Hook := []
  /-- What it returns. -/
  stub : Option Returned := none

namespace Expectation

/-- Whether it was called as often as it is to be. -/
def satisfied (e : Expectation) : Bool :=
  e.times ≤ e.invoked

/-- How often it may still be called. -/
def remaining (e : Expectation) : Nat :=
  e.times - e.invoked

end Expectation

/-- The expectations of a controller, in the order of declaration. -/
structure Ledger where
  calls : List Expectation := []

/-- What one expectation has to say to a call. -/
inductive Finding where
  /-- It is of another method. -/
  | unrelated
  | admitted
  | rejected (reason : Reason)
  /-- One of its prerequisites is the number of no expectation. -/
  | dangling (index : Nat)

/-- What the expectations together have to say to a call. -/
inductive Verdict where
  /-- It is answered by the expectation of that number. -/
  | accepted (index : Nat) (e : Expectation)
  /-- It is answered by none, for these reasons. -/
  | refused (reasons : List Reason)
  | dangling (index : Nat)

namespace Ledger

/-- The first prerequisite that was not called as often as it should be. -/
def firstPending (l : Ledger) : List Nat → Except Nat (Option Expectation)
  | [] => .ok none
  | p :: rest =>
    match l.calls[p]? with
    | none => .error p
    | some e => if e.satisfied then firstPending l rest else .ok (some e)

/-- What an expectation has to say to a call: the first test that fails decides. -/
def examine (l : Ledger) (call : Signature) (e : Expectation) : Finding :=
  if !e.call.sameMethod call then .unrelated
  else if !e.call.sameArgs call then .rejected (.otherArguments e.call)
  else if e.closed then .rejected (.successorCalled e.call)
  else if e.satisfied then .rejected (.exhausted e.call)
  else
    match l.firstPending e.prerequisites with
    | .error p => .dangling p
    | .ok (some p) => .rejected (.pending e.call p.call)
    | .ok none => .admitted

/-- The verdict of some expectations in a row, the first of which is number `start`. -/
def judgeFrom (l : Ledger) (call : Signature) (start : Nat) : List Expectation → Verdict
  | [] => .refused []
  | e :: rest =>
    match l.examine call e with
    | .unrelated => judgeFrom l call (start + 1) rest
    | .admitted => .accepted start e
    | .dangling p => .dangling p
    | .rejected reason =>
      match judgeFrom l call (start + 1) rest with
      | .refused reasons => .refused (reason :: reasons)
      | verdict => verdict

/-- Which expectation answers a call. -/
def judge (l : Ledger) (call : Signature) : Verdict :=
  judgeFrom l call 0 l.calls

/-- Changes the expectation of a number. -/
def modify (index : Nat) (change : Expectation → Expectation) (l : Ledger) : Ledger :=
  { l with calls := l.calls.modify index change }

/-- Closes expectations. -/
def close (indices : List Nat) (l : Ledger) : Ledger :=
  { l with calls := l.calls.mapIdx fun i e => if i ∈ indices then { e with closed := true } else e }

/-- What changes when the expectation of a number answers a call: its prerequisites are closed
and it was called once more. -/
def invoke (index : Nat) (l : Ledger) : Ledger :=
  match l.calls[index]? with
  | none => l
  | some e => (l.close e.prerequisites).modify index fun e => { e with invoked := e.invoked + 1 }

/-- Takes on a new expectation, to be called once. -/
def declare (call : Signature) (l : Ledger) : Ledger :=
  { l with calls := l.calls ++ [{ call }] }

/-- Takes on that one expectation comes after another; a relation counts once. -/
def after (index predecessor : Nat) (l : Ledger) : Ledger :=
  l.modify index fun e =>
    if predecessor ∈ e.prerequisites then e
    else { e with prerequisites := e.prerequisites ++ [predecessor] }

/-- How often all expectations together may still be called. -/
def remaining (l : Ledger) : Nat :=
  total Expectation.remaining l.calls

/-- The expectations that were not called as often as they should have been. -/
def missing (l : Ledger) : List Complaint :=
  (l.calls.filter (!·.satisfied)).map fun e => .missingCalls e.call e.times e.invoked

/-- A controller in words. -/
def text (l : Ledger) : String :=
  Text.record "Controller" [("calls", toString l.calls.length)]

/-! ### Answering a call uses it up

The number of calls still allowed goes down by one with every call that is answered, and nothing
that a hook does raises it. -/

theorem remaining_close (indices : List Nat) (l : Ledger) :
    (l.close indices).remaining = l.remaining := by
  have h : (l.close indices).calls.map Expectation.remaining
      = l.calls.map Expectation.remaining := by
    apply List.ext_getElem?
    intro i
    simp only [close, List.getElem?_map, List.getElem?_mapIdx, Option.map_map]
    cases l.calls[i]? with
    | none => rfl
    | some e => by_cases hi : i ∈ indices <;> simp [hi, Expectation.remaining]
  exact total_eq_of_map_eq h

theorem getElem?_close (indices : List Nat) (l : Ledger) (i : Nat) :
    (l.close indices).calls[i]? = l.calls[i]?.map fun e =>
      if i ∈ indices then { e with closed := true } else e := by
  simp [close, List.getElem?_mapIdx]

/-- Answering a call takes one from what is still allowed. -/
theorem remaining_invoke {l : Ledger} {i : Nat} {e : Expectation} (hi : l.calls[i]? = some e)
    (he : e.satisfied = false) : (l.invoke i).remaining + 1 = l.remaining := by
  have hlt : e.invoked < e.times := by simpa [Expectation.satisfied] using he
  have hclose := remaining_close e.prerequisites l
  have hget := getElem?_close e.prerequisites l i
  rw [hi] at hget
  have := total_modify Expectation.remaining
    (fun e => { e with invoked := e.invoked + 1 }) (l.close e.prerequisites).calls i _ hget
  simp only [invoke, hi, modify, remaining] at hclose ⊢
  rw [← hclose]
  split at this <;> simp only [Expectation.remaining] at this ⊢ <;> omega

/-- The verdict names an expectation of its number, which may be called once more. -/
theorem judgeFrom_accepted {l : Ledger} {call : Signature} :
    ∀ {rest : List Expectation} {start i : Nat} {e : Expectation},
      judgeFrom l call start rest = .accepted i e →
        start ≤ i ∧ rest[i - start]? = some e ∧ l.examine call e = .admitted
  | [], start, i, e, h => by simp [judgeFrom] at h
  | x :: rest, start, i, e, h => by
    unfold judgeFrom at h
    split at h
    · obtain ⟨hle, hget, hex⟩ := judgeFrom_accepted h
      refine ⟨by omega, ?_, hex⟩
      rw [show i - start = (i - (start + 1)) + 1 by omega]
      simpa using hget
    · rename_i hx
      obtain ⟨rfl, rfl⟩ : start = i ∧ x = e := by simpa using h
      exact ⟨Nat.le_refl _, by simp, hx⟩
    · simp at h
    · split at h
      · simp at h
      · obtain ⟨hle, hget, hex⟩ := judgeFrom_accepted h
        refine ⟨by omega, ?_, hex⟩
        rw [show i - start = (i - (start + 1)) + 1 by omega]
        simpa using hget

theorem not_satisfied_of_admitted {l : Ledger} {call : Signature} {e : Expectation}
    (h : l.examine call e = .admitted) : e.satisfied = false := by
  unfold examine at h
  repeat' split at h
  all_goals simp_all

theorem judge_accepted {l : Ledger} {call : Signature} {i : Nat} {e : Expectation}
    (h : l.judge call = .accepted i e) : l.calls[i]? = some e ∧ e.satisfied = false := by
  obtain ⟨-, hget, hex⟩ := judgeFrom_accepted h
  exact ⟨by simpa using hget, not_satisfied_of_admitted hex⟩

end Ledger

end CallOrder
