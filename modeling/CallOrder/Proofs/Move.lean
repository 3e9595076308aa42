/-
Every way in which the expectations of the controllers can change.

A controller changes its expectations under its own lock, one piece at a time: it
takes on a new one, a setting of one changes, a relation is registered, or a call is
answered.  A `Move` is one such piece.  Whatever is done with controllers, by however
many callers and however deep calls nest in the hooks of others, what happens to the
expectations is a list of moves, and `play` says what they come to.

What no move undoes is that an expectation is closed, and a closed expectation is
never counted again (`Frozen.apply`).  Answering a call closes the prerequisites of
the expectation that answers, each of which was called as often as it is to be.  So
from that moment on their counts stand still, whatever is played afterwards
(`frozen_after_answer`).
-/
import CallOrder.Event
import CallOrder.Proofs.Judgement

namespace CallOrder

/-- A change of one controller's expectations, made in one piece. -/
inductive Change where
  | declare (call : Signature)
  | setTimes (index n : Nat)
  | setStub (index : Nat) (stub : Returned)
  | attach (index : Nat) (hook : Hook)
  | order (index predecessor : Nat)
  /-- A call is made; it is counted if an expectation answers it. -/
  | answer (call : Signature)

/-- What the change comes to. -/
def Change.apply : Change → Ledger → Ledger
  | declare call, l => l.declare call
  | setTimes index n, l => l.modify index fun e => { e with times := n }
  | setStub index stub, l => l.modify index fun e => { e with stub := some stub }
  | attach index hook, l => l.modify index fun e => { e with hooks := e.hooks ++ [hook] }
  | order index predecessor, l => l.after index predecessor
  | answer call, l =>
    match l.judge call with
    | .accepted index _ => l.invoke index
    | _ => l

/-- A change and the controller that it happens to. -/
structure Move where
  controller : Nat
  change : Change

namespace Move

/-- What the move comes to, among the expectations of all controllers. -/
def apply (m : Move) (ledgers : List Ledger) : List Ledger :=
  ledgers.modify m.controller m.change.apply

/-- The event that tells of the move, if it is a call that is answered. -/
def answer? (m : Move) (ledgers : List Ledger) : Option Event :=
  match m.change with
  | .answer call =>
    match (ledgers.getD m.controller {}).judge call with
    | .accepted index e => some (.matched call.receiver call.method index (e.invoked + 1))
    | _ => none
  | _ => none

/-- What several moves come to, one after another. -/
def play : List Move → List Ledger → List Ledger
  | [], ledgers => ledgers
  | m :: rest, ledgers => play rest (m.apply ledgers)

/-- The events that tell of the calls answered on the way. -/
def answers : List Move → List Ledger → List Event
  | [], _ => []
  | m :: rest, ledgers => (m.answer? ledgers).toList ++ answers rest (m.apply ledgers)

theorem play_append (before later : List Move) (ledgers : List Ledger) :
    play (before ++ later) ledgers = play later (play before ledgers) := by
  induction before generalizing ledgers with
  | nil => rfl
  | cons m rest ih => exact ih _

theorem answers_append (before later : List Move) (ledgers : List Ledger) :
    answers (before ++ later) ledgers
      = answers before ledgers ++ answers later (play before ledgers) := by
  induction before generalizing ledgers with
  | nil => rfl
  | cons m rest ih => simp only [List.cons_append, answers, ih, List.append_assoc, play]

theorem answer?_of_accepted {controller index : Nat} {call : Signature} {e : Expectation}
    {ledgers : List Ledger}
    (h : (ledgers.getD controller {}).judge call = .accepted index e) :
    answer? ⟨controller, .answer call⟩ ledgers =
      some (.matched call.receiver call.method index (e.invoked + 1)) := by
  simp only [answer?, h]

/-- A call that is answered is counted for the expectation that answers. -/
theorem apply_of_accepted {controller index : Nat} {call : Signature} {e : Expectation}
    {ledgers : List Ledger}
    (h : (ledgers.getD controller {}).judge call = .accepted index e) :
    apply ⟨controller, .answer call⟩ ledgers = ledgers.modify controller (·.invoke index) := by
  refine List.ext_getElem? fun i => ?_
  simp only [apply, List.getElem?_modify]
  by_cases hi : controller = i
  · subst hi
    rw [List.getD_eq_getElem?_getD] at h
    cases hl : ledgers[controller]? with
    | none => rfl
    | some l =>
        simp only [hl, Option.getD_some] at h
        simp [Change.apply, h]
  · simp [hi]

/-- A move happens to one controller only. -/
theorem getD_apply (m : Move) (ledgers : List Ledger) (controller : Nat) :
    (m.apply ledgers).getD controller {} =
      if m.controller = controller ∧ controller < ledgers.length
      then m.change.apply (ledgers.getD controller {}) else ledgers.getD controller {} := by
  simp only [apply, List.getD_eq_getElem?_getD, List.getElem?_modify]
  by_cases hlt : controller < ledgers.length
  · by_cases hc : m.controller = controller
    · simp [hc, hlt]
    · simp [hc]
  · simp [hlt]

end Move

namespace Ledger

/-! ### A closed expectation stays as it is -/

/-- The expectation of that number is closed, and was called that often. -/
def Frozen (l : Ledger) (index invoked : Nat) : Prop :=
  ∃ e, l.calls[index]? = some e ∧ e.closed = true ∧ e.invoked = invoked

variable {l : Ledger} {p k : Nat}

/-- Changing an expectation in what is neither its mark nor its count freezes and thaws none. -/
theorem Frozen.modify (h : l.Frozen p k) (index : Nat) {change : Expectation → Expectation}
    (hclosed : ∀ e, (change e).closed = e.closed) (hinvoked : ∀ e, (change e).invoked = e.invoked) :
    (l.modify index change).Frozen p k := by
  obtain ⟨e, he, hc, hk⟩ := h
  by_cases hi : index = p
  · refine ⟨change e, ?_, by rw [hclosed, hc], by rw [hinvoked, hk]⟩
    simp [Ledger.modify, hi, he]
  · exact ⟨e, by simp [Ledger.modify, hi, he], hc, hk⟩

theorem Frozen.invoke (h : l.Frozen p k) {call : Signature} {i : Nat} {e : Expectation}
    (hj : l.judge call = .accepted i e) : (l.invoke i).Frozen p k := by
  obtain ⟨q, hq, hc, hk⟩ := h
  obtain ⟨-, hget, hadm⟩ := judgeFrom_accepted hj
  have hi : l.calls[i]? = some e := by simpa using hget
  -- What answers is not closed, so it is not the frozen one.
  have hne : i ≠ p := by
    rintro rfl
    obtain rfl : e = q := by simpa using hi.symm.trans hq
    have hopen := (examine_eq_admitted_iff.mp hadm).2.1
    rw [hc] at hopen
    exact Bool.noConfusion hopen
  refine ⟨_, by rw [getElem?_invoke hi, hq, Option.map_some], ?_, ?_⟩
  · simp [hc]
  · simp [hne, hk]

/-- **No change thaws an expectation.** -/
theorem Frozen.apply (h : l.Frozen p k) (c : Change) : (c.apply l).Frozen p k := by
  cases c with
  | declare call =>
      obtain ⟨e, he, hc, hk⟩ := h
      have hlt : p < l.calls.length := (List.getElem?_eq_some_iff.mp he).1
      exact ⟨e, by simp only [Change.apply, declare, List.getElem?_append_left hlt, he], hc, hk⟩
  | setTimes index n => exact h.modify index (fun _ => rfl) (fun _ => rfl)
  | setStub index stub => exact h.modify index (fun _ => rfl) (fun _ => rfl)
  | attach index hook => exact h.modify index (fun _ => rfl) (fun _ => rfl)
  | order index predecessor =>
      refine h.modify index (fun e => ?_) (fun e => ?_) <;> split <;> rfl
  | answer call =>
      simp only [Change.apply]
      cases hj : l.judge call with
      | accepted i e => exact h.invoke hj
      | refused reasons => exact h
      | dangling r => exact h

/-- **Answering a call freezes what comes before it**, satisfied as it is. -/
theorem frozen_after_answer {call : Signature} {i : Nat} {e : Expectation}
    (hj : l.judge call = .accepted i e) (hp : p ∈ e.prerequisites) :
    ∃ q, l.calls[p]? = some q ∧ q.times ≤ q.invoked ∧ (l.invoke i).Frozen p q.invoked := by
  obtain ⟨-, hget, hadm⟩ := judgeFrom_accepted hj
  have hi : l.calls[i]? = some e := by simpa using hget
  obtain ⟨-, -, hdue, hready⟩ := examine_eq_admitted_iff.mp hadm
  obtain ⟨q, hq, hsat⟩ := hready p hp
  have hne : i ≠ p := by
    rintro rfl
    obtain rfl : e = q := by simpa using hi.symm.trans hq
    exact Bool.noConfusion (hsat.symm.trans hdue)
  refine ⟨q, hq, by simpa [Expectation.satisfied] using hsat, _,
    by rw [getElem?_invoke hi, hq, Option.map_some], ?_, ?_⟩
  · simp [hp]
  · simp [hne]

end Ledger

namespace Move

end Move

end CallOrder
