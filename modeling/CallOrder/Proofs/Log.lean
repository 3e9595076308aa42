/-
What the log of a run says about the order of its calls.

Calls are answered in the order in which their events are logged, those that hooks make
among the others.  So the log names the expectations that answer, one after another,
and each of them could answer where those before it had (`answers_answerers`).

Two things follow for the order of these numbers, wherever the expectations start.  Once
an expectation answered, its prerequisites are closed and none of them answers any
more: all their calls came first (`Answers.before`).  And it answered only after they
were called as often as they are to be, so a prerequisite that is to be called at all
was called (`Answers.mem`).
-/
import CallOrder.Proofs.Building
import CallOrder.Proofs.History
import CallOrder.Proofs.Weave

namespace CallOrder

namespace Ledger

/-- Answering a call changes nothing that was asked of an expectation, and only the count of the
one that answers. -/
theorem exists_getElem?_invoke {l : Ledger} {call : Signature} {i j : Nat} {e f : Expectation}
    (judge : l.judge call = .accepted i e) (hf : l.calls[j]? = some f) :
    ∃ f', (l.invoke i).calls[j]? = some f' ∧ f'.prerequisites = f.prerequisites ∧
      f'.times = f.times ∧ (i ≠ j → f'.invoked = f.invoked) := by
  rw [getElem?_invoke (judge_accepted judge).1, hf, Option.map_some]
  refine ⟨_, rfl, rfl, rfl, ?_⟩
  intro hij
  simp [hij]

/-- The expectations of these numbers answer calls, one after another. -/
inductive Answers : Ledger → List Nat → Prop where
  | nil (l : Ledger) : Answers l []
  | cons {l : Ledger} {call : Signature} {i : Nat} {e : Expectation} {rest : List Nat}
      (judge : l.judge call = .accepted i e) (others : Answers (l.invoke i) rest) :
      Answers l (i :: rest)

namespace Answers

variable {l : Ledger} {numbers : List Nat} {p s k : Nat}

/-- What is frozen answers nothing. -/
theorem not_mem_of_frozen (h : l.Answers numbers) (hp : l.Frozen p k) : p ∉ numbers := by
  induction h with
  | nil l => exact List.not_mem_nil
  | @cons l call i e rest judge others ih =>
      have hne : p ≠ i := by
        rintro rfl
        obtain ⟨q, hq, hclosed, -⟩ := hp
        obtain ⟨-, hget, hadm⟩ := judgeFrom_accepted judge
        obtain rfl : e = q := by simpa using hget.symm.trans hq
        have hopen := (examine_eq_admitted_iff.mp hadm).2.1
        exact Bool.noConfusion (hopen.symm.trans hclosed)
      rw [List.mem_cons]
      rintro (rfl | hmem)
      · exact hne rfl
      · exact ih (hp.invoke judge) hmem

/-- What was called as often as it is to be answers nothing. -/
theorem not_mem_of_met (h : l.Answers numbers) {q : Expectation} (hq : l.calls[p]? = some q)
    (hmet : q.times ≤ q.invoked) : p ∉ numbers := by
  induction h generalizing q with
  | nil l => exact List.not_mem_nil
  | @cons l call i e rest judge others ih =>
      have hne : i ≠ p := by
        rintro rfl
        obtain ⟨hi, hdue⟩ := judge_accepted judge
        obtain rfl : e = q := by simpa using hi.symm.trans hq
        rw [Expectation.satisfied, decide_eq_false_iff_not] at hdue
        exact hdue hmet
      obtain ⟨q', hq', -, htimes, hinvoked⟩ := exists_getElem?_invoke judge hq
      rw [List.mem_cons]
      rintro (rfl | hmem)
      · exact hne rfl
      · exact ih hq' (by rw [htimes, hinvoked hne]; exact hmet) hmem

/-- **All calls of a prerequisite come before those of its successor.** -/
theorem before (h : l.Answers numbers) {f : Expectation} (hs : l.calls[s]? = some f)
    (hp : p ∈ f.prerequisites) : Before numbers p s := by
  induction h generalizing f with
  | nil l => exact .nil
  | @cons l call i e rest judge others ih =>
      refine .cons ?_ ?_
      · -- The successor answers now, so its prerequisites never do again.
        rintro rfl
        obtain rfl : e = f := by simpa using (judge_accepted judge).1.symm.trans hs
        obtain ⟨q, -, -, hfrozen⟩ := frozen_after_answer judge hp
        exact others.not_mem_of_frozen hfrozen
      · obtain ⟨f', hs', hprerequisites, -, -⟩ := exists_getElem?_invoke judge hs
        exact ih hs' (hprerequisites ▸ hp)

/-- **A prerequisite that is still to be called is called where its successor is.** -/
theorem mem (h : l.Answers numbers) {f q : Expectation} (hs : l.calls[s]? = some f)
    (hp : p ∈ f.prerequisites) (hq : l.calls[p]? = some q) (hdue : q.invoked < q.times)
    (hmem : s ∈ numbers) : p ∈ numbers := by
  induction h generalizing f q with
  | nil l => exact absurd hmem List.not_mem_nil
  | @cons l call i e rest judge others ih =>
      by_cases hip : i = p
      · exact hip ▸ List.mem_cons_self
      · refine List.mem_cons_of_mem _ ?_
        rcases List.mem_cons.mp hmem with rfl | hmem
        · -- The successor answers only where the prerequisite is satisfied.
          obtain rfl : e = f := by simpa using (judge_accepted judge).1.symm.trans hs
          obtain ⟨q', hq', hsatisfied, -⟩ := frozen_after_answer judge hp
          obtain rfl : q = q' := by simpa using hq.symm.trans hq'
          omega
        · obtain ⟨f', hs', hprerequisites, -, -⟩ := exists_getElem?_invoke judge hs
          obtain ⟨q', hq', -, htimes, hinvoked⟩ := exists_getElem?_invoke judge hq
          exact ih hs' (hprerequisites ▸ hp) hq' (by rw [htimes, hinvoked hip]; exact hdue) hmem

end Answers

end Ledger

/-- The number of the expectation that answered, if the event tells of a call that was. -/
def Event.answerer? : Event → Option Nat
  | .matched _ _ index _ => some index
  | _ => none

theorem Event.filterMap_answerer?_filter (events : List Event) :
    (events.filter isMatched).filterMap answerer? = events.filterMap answerer? := by
  rw [List.filterMap_filter]
  refine List.filterMap_congr fun event _ => ?_
  cases event <;> rfl

namespace Move

/-- A call that no expectation answers is not told of, and changes nothing. -/
theorem still_of_not_accepted {controller : Nat} {call : Signature} {ledgers : List Ledger}
    (h : ∀ i e, (ledgers.getD controller {}).judge call ≠ .accepted i e) :
    answer? ⟨controller, .answer call⟩ ledgers = none ∧
      apply ⟨controller, .answer call⟩ ledgers = ledgers := by
  refine ⟨?_, List.ext_getElem? fun k => ?_⟩
  · cases hj : (ledgers.getD controller {}).judge call with
    | accepted i e => exact absurd hj (h i e)
    | refused reasons => simp only [answer?, hj]
    | dangling p => simp only [answer?, hj]
  · rw [apply, List.getElem?_modify]
    by_cases hk : controller = k
    · subst hk
      rw [List.getD_eq_getElem?_getD] at h
      cases hl : ledgers[controller]? with
      | none => rfl
      | some l =>
          rw [hl, Option.getD_some] at h
          cases hj : l.judge call with
          | accepted i e => exact absurd hj (h i e)
          | refused reasons => simp [Change.apply, hj]
          | dangling p => simp [Change.apply, hj]
    · simp [hk]

/-- Where only the first controller expects anything, the calls that are answered are answered by
its expectations. -/
theorem answers_of_first (moves : List Move) (hmoves : ∀ m ∈ moves, m.change.IsAnswer)
    (l : Ledger) (n : Nat) :
    l.Answers ((answers moves (l :: List.replicate n {})).filterMap Event.answerer?) := by
  induction moves generalizing l with
  | nil => exact .nil l
  | cons m rest ih =>
      have hrest := ih fun m hm => hmoves m (List.mem_cons_of_mem _ hm)
      obtain ⟨controller, change⟩ := m
      cases change with
      | answer call =>
          rw [answers, List.filterMap_append]
          by_cases haccepted : ∃ i e,
              ((l :: List.replicate n {}).getD controller {}).judge call = .accepted i e
          · obtain ⟨i, e, hj⟩ := haccepted
            rw [answer?_of_accepted hj, apply_of_accepted hj]
            cases controller with
            | zero => exact .cons hj (hrest (l.invoke i))
            | succ c =>
                have hempty : (l :: List.replicate n {}).getD (c + 1) {} = ({} : Ledger) := by
                  by_cases hc : c < n <;>
                    simp [List.getD_eq_getElem?_getD, hc]
                rw [hempty] at hj
                have hget := (Ledger.judge_accepted hj).1
                cases hget
          · push Not at haccepted
            obtain ⟨hnone, hsame⟩ := still_of_not_accepted haccepted
            rw [hnone, hsame]
            exact hrest l
      | _ => exact absurd (hmoves _ List.mem_cons_self) id

end Move

namespace Bench

/-- The numbers of the handler's expectations that answer when requests are made one after
another, in this order; calls that hooks make are among them. -/
def answerers (b : Bench) (requests : List Request) : List Nat :=
  (Attempt.forEach (call 0) requests b).events.filterMap Event.answerer?

/-- What these expectations expect: the calls that are answered, in this order. -/
def served (b : Bench) (requests : List Request) : List Signature :=
  (b.answerers requests).filterMap fun i => (b.collaborator.ledger 0).calls[i]?.map (·.call)

/-- Where no other controller expects anything, they could answer one after another. -/
theorem answers_answerers {b : Bench} {l : Ledger} (h : b.Has l) (requests : List Request) :
    l.Answers (b.answerers requests) := by
  have hcalls : Attempt.Accounted Move.IsAnswer ledgers (Attempt.forEach (call 0) requests) :=
    .forEach fun request _ => accounted_call 0 request
  obtain ⟨n, hn⟩ := h
  obtain ⟨moves, hmoves, -, hevents⟩ := hcalls b
  rw [answerers, ← Event.filterMap_answerer?_filter, hevents,
    show b.ledgers = l :: List.replicate n {} from hn]
  exact Move.answers_of_first moves hmoves l n

end Bench

end CallOrder
