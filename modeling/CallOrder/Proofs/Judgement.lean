/-
Which expectation answers a call, without the walk that finds it.

`judge` walks the expectations in their order and lets each examine the call.
What is shown here is what comes out, in terms of the ledger alone.  An
expectation admits a call exactly when it has the call's key, is not closed, may be
called once more, and has every prerequisite satisfied (`examine_eq_admitted_iff`).
In a ledger whose prerequisites are all numbers of its own expectations, the call
is answered by the first expectation that admits it (`judge_eq_accepted_iff`).  What
answering changes is a count and some marks, and nothing else (`getElem?_invoke`).
-/
import CallOrder.Ledger
import CallOrder.Proofs.Key

namespace CallOrder

namespace Ledger

variable {l : Ledger} {call : Signature} {e : Expectation}

/-! ### Prerequisites -/

/-- Nothing is pending exactly where every number is that of a satisfied expectation. -/
theorem firstPending_eq_none_iff {numbers : List Nat} :
    l.firstPending numbers = .ok none ↔
      ∀ p ∈ numbers, ∃ q, l.calls[p]? = some q ∧ q.satisfied = true := by
  induction numbers with
  | nil => simp [firstPending]
  | cons p rest ih =>
      rw [firstPending, List.forall_mem_cons]
      cases hp : l.calls[p]? with
      | none => simp
      | some q =>
          by_cases hq : q.satisfied = true
          · simp [hq, ih]
          · simp [hq]

theorem dangling_of_firstPending {numbers : List Nat} {p : Nat}
    (h : l.firstPending numbers = .error p) : p ∈ numbers ∧ l.calls[p]? = none := by
  induction numbers with
  | nil => simp [firstPending] at h
  | cons r rest ih =>
      rw [firstPending] at h
      cases hr : l.calls[r]? with
      | none =>
          obtain rfl : r = p := by simpa [hr] using h
          exact ⟨by simp, hr⟩
      | some q =>
          by_cases hq : q.satisfied = true
          · simp only [hr, hq, if_true] at h
            exact ⟨List.mem_cons_of_mem _ (ih h).1, (ih h).2⟩
          · simp [hr, hq] at h

/-! ### What one expectation says -/

/-- **What it takes for an expectation to admit a call.** -/
theorem examine_eq_admitted_iff :
    l.examine call e = .admitted ↔
      e.call.sameKey call = true ∧ e.closed = false ∧ e.satisfied = false ∧
        ∀ p ∈ e.prerequisites, ∃ q, l.calls[p]? = some q ∧ q.satisfied = true := by
  rw [← firstPending_eq_none_iff, Signature.sameKey_iff_and]
  unfold examine
  by_cases hmethod : e.call.sameMethod call = true
  · by_cases hargs : e.call.sameArgs call = true
    · by_cases hclosed : e.closed = true
      · simp [hmethod, hargs, hclosed]
      · by_cases hsat : e.satisfied = true
        · simp [hmethod, hargs, hclosed, hsat]
        · rcases hpre : l.firstPending e.prerequisites with p | _ | q
          · simp [hmethod, hargs, hclosed, hsat]
          · simp [hmethod, hargs, hclosed, hsat]
          · simp [hmethod, hargs, hclosed, hsat]
    · simp [hmethod, hargs]
  · simp [hmethod]

theorem dangling_of_examine {p : Nat} (h : l.examine call e = .dangling p) :
    p ∈ e.prerequisites ∧ l.calls[p]? = none := by
  unfold examine at h
  split at h <;> try exact Finding.noConfusion h
  split at h <;> try exact Finding.noConfusion h
  split at h <;> try exact Finding.noConfusion h
  split at h <;> try exact Finding.noConfusion h
  split at h
  · rename_i q hq
    obtain rfl : q = p := by simpa using h
    exact dangling_of_firstPending hq
  · exact Finding.noConfusion h
  · exact Finding.noConfusion h

/-! ### What they say together -/

/-- Every prerequisite is the number of an expectation. -/
def Grounded (l : Ledger) : Prop :=
  ∀ e ∈ l.calls, ∀ p ∈ e.prerequisites, p < l.calls.length

theorem Grounded.examine_ne_dangling (hl : l.Grounded) (he : e ∈ l.calls) (p : Nat) :
    l.examine call e ≠ .dangling p := by
  intro h
  obtain ⟨hmem, hnone⟩ := dangling_of_examine h
  exact absurd (hl e he p hmem) (Nat.not_lt.mpr (List.getElem?_eq_none_iff.mp hnone))

/-- Expectations that neither admit the call nor dangle are passed over. -/
theorem judgeFrom_of_first {rest : List Expectation} {k : Nat} :
    ∀ start : Nat, rest[k]? = some e → l.examine call e = .admitted →
      (∀ f ∈ rest, ∀ p, l.examine call f ≠ .dangling p) →
      (∀ j < k, ∀ f, rest[j]? = some f → l.examine call f ≠ .admitted) →
      l.judgeFrom call start rest = .accepted (start + k) e := by
  induction rest generalizing k with
  | nil => intro start hk; simp at hk
  | cons f rest ih =>
      intro start hk hadm hdangling hfirst
      cases k with
      | zero =>
          obtain rfl : f = e := by simpa using hk
          simp [judgeFrom, hadm]
      | succ k =>
          have hrec := ih (start + 1) (by simpa using hk) hadm
            (fun g hg => hdangling g (List.mem_cons_of_mem _ hg))
            (fun j hj g hg => hfirst (j + 1) (by omega) g (by simpa using hg))
          rw [show start + (k + 1) = start + 1 + k by omega, judgeFrom]
          cases hf : l.examine call f with
          | unrelated => exact hrec
          | admitted => exact absurd hf (hfirst 0 (by omega) f (by simp))
          | rejected reason => simp [hrec]
          | dangling p => exact absurd hf (hdangling f (by simp) p)

/-- Nothing before the expectation that answers admits the call. -/
theorem not_admitted_before {rest : List Expectation} {i : Nat} :
    ∀ start : Nat, l.judgeFrom call start rest = .accepted (start + i) e →
      ∀ j < i, ∀ f, rest[j]? = some f → l.examine call f ≠ .admitted := by
  induction rest generalizing i with
  | nil => intro start h; simp [judgeFrom] at h
  | cons g rest ih =>
      intro start h j hj f hf hadm
      obtain ⟨i, rfl⟩ : ∃ i', i = i' + 1 := ⟨i - 1, by omega⟩
      have hrec : l.examine call g ≠ .admitted ∧
          l.judgeFrom call (start + 1) rest = .accepted (start + 1 + i) e := by
        rw [judgeFrom] at h
        rw [show start + 1 + i = start + (i + 1) by omega]
        cases hg : l.examine call g with
        | unrelated => exact ⟨by simp, by simpa [hg] using h⟩
        | admitted => simp [hg] at h
        | dangling p => simp [hg] at h
        | rejected reason =>
            refine ⟨by simp, ?_⟩
            simp only [hg] at h
            split at h
            · simp at h
            · exact h
      cases j with
      | zero =>
          obtain rfl : g = f := by simpa using hf
          exact hrec.1 hadm
      | succ j => exact ih _ hrec.2 j (by omega) f (by simpa using hf) hadm

/-- **A call is answered by the first expectation that admits it.** -/
theorem judge_eq_accepted_iff (hl : l.Grounded) {i : Nat} :
    l.judge call = .accepted i e ↔
      l.calls[i]? = some e ∧ l.examine call e = .admitted ∧
        ∀ j < i, ∀ f, l.calls[j]? = some f → l.examine call f ≠ .admitted := by
  constructor
  · intro h
    obtain ⟨-, hget, hadm⟩ := judgeFrom_accepted h
    refine ⟨by simpa using hget, hadm, ?_⟩
    exact not_admitted_before 0 (by rw [Nat.zero_add]; exact h)
  · intro h
    obtain ⟨hget, hadm, hfirst⟩ := h
    have := judgeFrom_of_first 0 hget hadm
      (fun f hf => hl.examine_ne_dangling hf) hfirst
    rwa [Nat.zero_add] at this

/-- What no expectation looks up in vain, they do not together. -/
theorem judge_ne_dangling_of {p : Nat} (h : ∀ e ∈ l.calls, l.examine call e ≠ .dangling p) :
    l.judge call ≠ .dangling p := by
  have hall : ∀ (rest : List Expectation), (∀ e ∈ rest, e ∈ l.calls) → ∀ start,
      l.judgeFrom call start rest ≠ .dangling p := by
    intro rest
    induction rest with
    | nil => exact fun _ _ => Verdict.noConfusion
    | cons e rest ih =>
        intro hrest start
        have hothers := ih (fun f hf => hrest f (List.mem_cons_of_mem _ hf)) (start + 1)
        rw [judgeFrom]
        cases hexamine : l.examine call e with
        | unrelated => exact hothers
        | admitted => exact Verdict.noConfusion
        | dangling q =>
            intro heq
            obtain rfl : q = p := by simpa using heq
            exact h e (hrest e (by simp)) hexamine
        | rejected reason =>
            simp only
            split
            · exact Verdict.noConfusion
            · exact hothers
  exact hall l.calls (fun _ he => he) 0

/-- Where every prerequisite is the number of an expectation, none is looked up in vain. -/
theorem Grounded.judge_ne_dangling (hl : l.Grounded) (call : Signature) (p : Nat) :
    l.judge call ≠ .dangling p :=
  judge_ne_dangling_of fun _ he => hl.examine_ne_dangling he p

/-! ### What answering changes -/

/-- The expectation that answers is counted, its prerequisites are closed, and everything else
stays. -/
theorem getElem?_invoke {i : Nat} (hi : l.calls[i]? = some e) (j : Nat) :
    (l.invoke i).calls[j]? = l.calls[j]?.map fun f =>
      { f with
        closed := f.closed || decide (j ∈ e.prerequisites)
        invoked := f.invoked + if i = j then 1 else 0 } := by
  simp only [invoke, hi, modify, List.getElem?_modify, getElem?_close]
  cases l.calls[j]? with
  | none => rfl
  | some f => by_cases hij : i = j <;> by_cases hj : j ∈ e.prerequisites <;> simp [hij, hj]

end Ledger

end CallOrder
