/-
The sequences of calls that a ledger answers are the linear extensions of its order.

Let nothing have been called yet, and let the expected calls be told apart by their
keys.  A sequence of calls is then answered call by call, with nothing missing at the
end, exactly when it makes every expected call as often as it is to be made and no
other, and every relation finds all calls of the predecessor before the first of the
successor (`answered_iff_extension`).

The ledger decides by what it stores: counts that go up, and marks on expectations
that are closed.  Both are functions of the calls made so far, whatever their order,
and `made` writes them down: an expectation was invoked as often as its call occurs,
and is closed once a call of one of its successors occurs.  Answering one more call
leads from `made w` to `made (w ++ [c])` (`invoke_made`), so a run is settled by
asking of each prefix whether the next call is enabled there.  That a closed
expectation is never needed again is the one point where the order of the whole
sequence comes in: its successor's call stands before it, which a linear extension
does not allow.
-/
import CallOrder.Constraint
import CallOrder.Proofs.Judgement
import Mathlib.Data.List.Induction

namespace CallOrder

namespace Signature

/-- How many of the calls have the key. -/
def tally (s : Signature) (w : List Signature) : Nat :=
  w.countP s.sameKey

/-- All calls of the key `p` are made before the first of the key `s`. -/
def Precedes (p s : Signature) (w : List Signature) : Prop :=
  ∀ (m n : Nat) (c d : Signature),
    w[m]? = some c → s.sameKey c = true → w[n]? = some d → p.sameKey d = true → n < m

instance (p s : Signature) (w : List Signature) : Decidable (Precedes p s w) :=
  decidable_of_iff
    (∀ m n : Fin w.length, s.sameKey w[m] = true → p.sameKey w[n] = true → n < m) <| by
      constructor
      · intro h m n c d hm hc hn hd
        obtain ⟨hmlt, rfl⟩ := List.getElem?_eq_some_iff.mp hm
        obtain ⟨hnlt, rfl⟩ := List.getElem?_eq_some_iff.mp hn
        exact h ⟨m, hmlt⟩ ⟨n, hnlt⟩ hc hd
      · intro h m n hs hp
        exact h m n _ _ (List.getElem?_eq_getElem m.isLt) hs (List.getElem?_eq_getElem n.isLt) hp

variable {s p : Signature} {u v w : List Signature}

@[simp] theorem tally_nil (s : Signature) : s.tally [] = 0 := rfl

theorem tally_append (s : Signature) (u v : List Signature) :
    s.tally (u ++ v) = s.tally u + s.tally v :=
  List.countP_append

theorem tally_singleton (s c : Signature) : s.tally [c] = if s.sameKey c then 1 else 0 := by
  simp [tally, List.countP_cons]

theorem tally_cons (s c : Signature) (v : List Signature) :
    s.tally (c :: v) = s.tally [c] + s.tally v :=
  tally_append s [c] v

theorem tally_pos_iff : 0 < s.tally w ↔ ∃ c ∈ w, s.sameKey c = true :=
  List.countP_pos_iff

/-- Where a call of the successor comes next, no call of the predecessor is left. -/
theorem Precedes.tally_rest {c : Signature} (h : Precedes p s (u ++ c :: v))
    (hc : s.sameKey c = true) : p.tally (c :: v) = 0 := by
  by_contra hpos
  obtain ⟨d, hd, hpd⟩ := tally_pos_iff.mp (Nat.pos_of_ne_zero hpos)
  obtain ⟨n, hn⟩ := List.mem_iff_getElem?.mp hd
  have hs : (u ++ c :: v)[u.length]? = some c := by simp
  have hp : (u ++ c :: v)[u.length + n]? = some d := by
    rw [List.getElem?_append_right (by omega), Nat.add_sub_cancel_left]
    exact hn
  have := h _ _ c d hs hc hp hpd
  omega

end Signature

namespace Ledger

open Signature

/-! ### Calls made one after another -/

/-- The ledger after calls made one after another, if each of them is answered. -/
def answered : List Signature → Ledger → Option Ledger
  | [], l => some l
  | c :: rest, l =>
    match l.judge c with
    | .accepted i _ => answered rest (l.invoke i)
    | _ => none

theorem answered_append (u v : List Signature) (l : Ledger) :
    answered (u ++ v) l = (answered u l).bind (answered v) := by
  induction u generalizing l with
  | nil => rfl
  | cons c u ih =>
      simp only [List.cons_append, answered]
      cases l.judge c with
      | accepted i e => exact ih _
      | refused reasons => rfl
      | dangling p => rfl

theorem answered_singleton {c : Signature} {l l' : Ledger} :
    answered [c] l = some l' ↔ ∃ i e, l.judge c = .accepted i e ∧ l' = l.invoke i := by
  simp only [answered]
  cases l.judge c with
  | accepted i e => simp [eq_comm]
  | refused reasons => simp
  | dangling p => simp

/-- A call of a run is the last one, or stands before it. -/
private theorem eq_last_or_before {w u v : List Signature} {c d : Signature}
    (h : w ++ [d] = u ++ c :: v) : (u = w ∧ c = d) ∨ ∃ t, w = u ++ c :: t := by
  rcases List.eq_nil_or_concat v with rfl | ⟨t, x, rfl⟩
  · obtain ⟨rfl, hcd⟩ := List.append_inj' h rfl
    exact Or.inl ⟨rfl, by simpa using hcd.symm⟩
  · refine Or.inr ⟨t, ?_⟩
    rw [List.concat_eq_append, ← List.cons_append, ← List.append_assoc] at h
    exact (List.append_inj' h rfl).1

/-! ### What a ledger has become is a function of the calls made -/

/-- A ledger whose expectations were not called yet. -/
structure Untouched (l : Ledger) : Prop where
  grounded : l.Grounded
  unused : ∀ e ∈ l.calls, e.invoked = 0 ∧ e.closed = false

/-- Whether one of the calls made comes after the expectation of that number. -/
def overtaken (l : Ledger) (w : List Signature) (i : Nat) : Bool :=
  l.calls.any fun f => decide (i ∈ f.prerequisites) && decide (0 < f.call.tally w)

theorem overtaken_iff {l : Ledger} {w : List Signature} {i : Nat} :
    l.overtaken w i = true ↔ ∃ f ∈ l.calls, i ∈ f.prerequisites ∧ 0 < f.call.tally w := by
  simp [overtaken]

/-- What an expectation of an untouched ledger is after the calls `w` were answered. -/
def standing (l : Ledger) (w : List Signature) (i : Nat) (e : Expectation) : Expectation :=
  { e with invoked := e.call.tally w, closed := l.overtaken w i }

/-- What an untouched ledger is after the calls `w` were answered. -/
def made (w : List Signature) (l : Ledger) : Ledger :=
  { l with calls := l.calls.mapIdx (l.standing w) }

variable {l : Ledger} {w : List Signature} {c : Signature} {i : Nat} {e : Expectation}

theorem getElem?_made (l : Ledger) (w : List Signature) (i : Nat) :
    (l.made w).calls[i]? = l.calls[i]?.map (l.standing w i) := by
  simp [made]

theorem length_made (l : Ledger) (w : List Signature) :
    (l.made w).calls.length = l.calls.length := by
  simp [made]

theorem mem_made {f : Expectation} (hf : f ∈ (l.made w).calls) :
    ∃ i e, l.calls[i]? = some e ∧ f = l.standing w i e := by
  obtain ⟨i, hi⟩ := List.mem_iff_getElem?.mp hf
  rw [getElem?_made, Option.map_eq_some_iff] at hi
  obtain ⟨e, he, rfl⟩ := hi
  exact ⟨i, e, he, rfl⟩

theorem Untouched.made_nil (hl : l.Untouched) : l.made [] = l := by
  have hcalls : (l.made []).calls = l.calls := by
    refine List.ext_getElem? fun i => ?_
    rw [getElem?_made]
    cases hi : l.calls[i]? with
    | none => rfl
    | some e =>
        obtain ⟨hinvoked, hclosed⟩ := hl.unused e (List.mem_of_getElem? hi)
        cases e
        simp_all [standing, overtaken]
  cases l
  simpa [made] using hcalls

theorem Untouched.grounded_made (hl : l.Untouched) (w : List Signature) :
    (l.made w).Grounded := by
  intro f hf p hp
  obtain ⟨i, e, he, rfl⟩ := mem_made hf
  rw [length_made]
  exact hl.grounded e (List.mem_of_getElem? he) p hp

/-! ### When the next call is answered -/

/-- After the calls `w`, the call `c` is one of the expectation `e`, which has the number `i`
and may be called now. -/
structure Enabled (l : Ledger) (w : List Signature) (c : Signature) (i : Nat)
    (e : Expectation) : Prop where
  named : l.calls[i]? = some e
  key : e.call.sameKey c = true
  /-- It was not called as often as it is to be. -/
  due : e.call.tally w < e.times
  /-- What it comes after was. -/
  ready : ∀ p ∈ e.prerequisites, ∀ q, l.calls[p]? = some q → q.times ≤ q.call.tally w
  /-- What comes after it was not called. -/
  current : ∀ f ∈ l.calls, i ∈ f.prerequisites → f.call.tally w = 0

theorem standing_satisfied : (l.standing w i e).satisfied = true ↔ e.times ≤ e.call.tally w := by
  rw [standing, Expectation.satisfied, decide_eq_true_iff]

/-- The tests that the ledger makes are those of `Enabled`. -/
theorem Untouched.examine_made_iff (hl : l.Untouched) (hi : l.calls[i]? = some e) :
    (l.made w).examine c (l.standing w i e) = .admitted ↔ l.Enabled w c i e := by
  rw [examine_eq_admitted_iff]
  constructor
  · intro h
    obtain ⟨hkey, hclosed, hsat, hready⟩ := h
    refine ⟨hi, hkey, ?_, ?_, ?_⟩
    · rw [← Bool.not_eq_true, standing_satisfied] at hsat
      omega
    · intro p hp q hq
      obtain ⟨q', hq', hsatq⟩ := hready p hp
      rw [getElem?_made, hq, Option.map_some, Option.some.injEq] at hq'
      rw [← hq'] at hsatq
      exact standing_satisfied.mp hsatq
    · intro f hf hpre
      by_contra hpos
      have : l.overtaken w i = true := overtaken_iff.mpr ⟨f, hf, hpre, by omega⟩
      exact Bool.noConfusion (this.symm.trans hclosed)
  · intro h
    obtain ⟨-, hkey, hdue, hready, hcurrent⟩ := h
    refine ⟨hkey, ?_, ?_, ?_⟩
    · show l.overtaken w i = false
      rw [← Bool.not_eq_true, overtaken_iff]
      rintro ⟨f, hf, hpre, hpos⟩
      have := hcurrent f hf hpre
      omega
    · rw [← Bool.not_eq_true, standing_satisfied]
      omega
    · intro p hp
      have hlt := hl.grounded e (List.mem_of_getElem? hi) p hp
      refine ⟨l.standing w p l.calls[p], ?_, ?_⟩
      · rw [getElem?_made, List.getElem?_eq_getElem hlt, Option.map_some]
      · exact standing_satisfied.mpr (hready p hp _ (List.getElem?_eq_getElem hlt))

section Distinct

variable (hl : l.Untouched) (hk : Distinguishable (l.calls.map (·.call)))

include hk in
/-- An expectation is known by its key. -/
theorem index_eq_of_key {j : Nat} {f : Expectation} (hi : l.calls[i]? = some e)
    (hj : l.calls[j]? = some f) (he : e.call.sameKey c = true) (hf : f.call.sameKey c = true) :
    i = j := by
  have hef : e.call = f.call := (eq_of_sameKey he).trans (eq_of_sameKey hf).symm
  refine hk.apart.index_unique (c := e.call) (d := f.call) ?_ ?_ ?_
  · rw [List.getElem?_map, hi, Option.map_some]
  · rw [List.getElem?_map, hj, Option.map_some]
  · rw [← hef]
    exact hk.own _ (List.mem_map_of_mem (List.mem_of_getElem? hi))

include hl hk in
/-- **A call is answered exactly where it is enabled.** -/
theorem judge_made_iff {f : Expectation} :
    (l.made w).judge c = .accepted i f ↔ ∃ e, l.Enabled w c i e ∧ f = l.standing w i e := by
  rw [judge_eq_accepted_iff (hl.grounded_made w)]
  constructor
  · intro h
    obtain ⟨hget, hadm, -⟩ := h
    rw [getElem?_made, Option.map_eq_some_iff] at hget
    obtain ⟨e, he, rfl⟩ := hget
    exact ⟨e, (hl.examine_made_iff he).mp hadm, rfl⟩
  · intro h
    obtain ⟨e, hen, rfl⟩ := h
    refine ⟨by rw [getElem?_made, hen.named, Option.map_some],
      (hl.examine_made_iff hen.named).mpr hen, ?_⟩
    -- No other expectation has the key, so none before it can admit the call.
    intro j hj g hg hadm
    rw [getElem?_made, Option.map_eq_some_iff] at hg
    obtain ⟨g, hg, rfl⟩ := hg
    have := index_eq_of_key hk hg hen.named ((hl.examine_made_iff hg).mp hadm).key hen.key
    omega

include hk in
/-- Answering a call that is enabled adds it to the calls made. -/
theorem invoke_made (hen : l.Enabled w c i e) : (l.made w).invoke i = l.made (w ++ [c]) := by
  have hget : (l.made w).calls[i]? = some (l.standing w i e) := by
    rw [getElem?_made, hen.named, Option.map_some]
  have htally : ∀ j f, l.calls[j]? = some f →
      f.call.tally (w ++ [c]) = f.call.tally w + if i = j then 1 else 0 := by
    intro j f hf
    rw [tally_append, tally_singleton]
    by_cases hfc : f.call.sameKey c = true
    · rw [if_pos hfc, if_pos (index_eq_of_key hk hen.named hf hen.key hfc)]
    · have hij : i ≠ j := by
        rintro rfl
        obtain rfl : e = f := by simpa using hen.named.symm.trans hf
        exact hfc hen.key
      rw [if_neg hfc, if_neg hij]
  have hovertaken : ∀ j, l.overtaken (w ++ [c]) j
      = (decide (j ∈ e.prerequisites) || l.overtaken w j) := by
    intro j
    rw [Bool.eq_iff_iff, Bool.or_eq_true, overtaken_iff, overtaken_iff, decide_eq_true_iff]
    constructor
    · intro h
      obtain ⟨f, hf, hpre, hpos⟩ := h
      obtain ⟨k, hk'⟩ := List.mem_iff_getElem?.mp hf
      rw [htally k f hk'] at hpos
      by_cases hik : i = k
      · subst hik
        obtain rfl : e = f := by simpa using hen.named.symm.trans hk'
        exact Or.inl hpre
      · rw [if_neg hik] at hpos
        exact Or.inr ⟨f, hf, hpre, by omega⟩
    · rintro (hpre | ⟨f, hf, hpre, hpos⟩)
      · refine ⟨e, List.mem_of_getElem? hen.named, hpre, ?_⟩
        rw [htally i e hen.named, if_pos rfl]
        omega
      · exact ⟨f, hf, hpre, by rw [tally_append]; omega⟩
  have hcalls : ((l.made w).invoke i).calls = (l.made (w ++ [c])).calls := by
    refine List.ext_getElem? fun j => ?_
    rw [getElem?_invoke hget, getElem?_made, getElem?_made, Option.map_map]
    cases hj : l.calls[j]? with
    | none => rfl
    | some f =>
        simp only [Option.map_some, Function.comp_apply, standing, htally j f hj, hovertaken,
          Bool.or_comm]
        rfl
  cases h : (l.made w).invoke i
  cases h' : l.made (w ++ [c])
  simp only [h, h'] at hcalls
  rw [hcalls]

include hl hk in
/-- A run is answered exactly if each of its calls is enabled after those before it. -/
theorem answered_iff_enabled {l' : Ledger} :
    answered w l = some l' ↔
      (∀ u c v, w = u ++ c :: v → ∃ i e, l.Enabled u c i e) ∧ l' = l.made w := by
  induction w using List.reverseRecOn generalizing l' with
  | nil => simp [answered, hl.made_nil, eq_comm]
  | append_singleton w d ih =>
      rw [answered_append, Option.bind_eq_some_iff]
      constructor
      · intro h
        obtain ⟨m, hm, hd⟩ := h
        obtain ⟨hall, rfl⟩ := ih.mp hm
        obtain ⟨i, f, hjudge, rfl⟩ := answered_singleton.mp hd
        obtain ⟨e, hen, -⟩ := (judge_made_iff hl hk).mp hjudge
        refine ⟨?_, invoke_made hk hen⟩
        intro u c v huv
        rcases eq_last_or_before huv with ⟨rfl, rfl⟩ | ⟨t, rfl⟩
        · exact ⟨i, e, hen⟩
        · exact hall u c t rfl
      · intro h
        obtain ⟨hall, rfl⟩ := h
        obtain ⟨i, e, hen⟩ := hall w d [] rfl
        refine ⟨l.made w, ih.mpr ⟨?_, rfl⟩, answered_singleton.mpr ?_⟩
        · intro u c v huv
          exact hall u c (v ++ [d]) (by rw [huv]; simp)
        · exact ⟨i, _, (judge_made_iff hl hk).mpr ⟨e, hen, rfl⟩, (invoke_made hk hen).symm⟩

end Distinct

/-! ### Linear extensions -/

/-- The sequence makes the calls of the ledger as often as they are to be made, in an order
that the relations allow. -/
structure Extension (l : Ledger) (relations : List (Constraint Nat)) (w : List Signature) :
    Prop where
  /-- It makes no other call. -/
  expected : ∀ c ∈ w, ∃ e ∈ l.calls, e.call.sameKey c = true
  /-- It makes each exactly as often as its cardinality says. -/
  counted : ∀ e ∈ l.calls, e.call.tally w = e.times
  /-- All calls of a predecessor come before the first of its successor. -/
  ordered : ∀ r ∈ relations, ∀ s p, l.calls[r.successor]? = some s →
    l.calls[r.predecessor]? = some p → Precedes p.call s.call w

instance (l : Ledger) (relations : List (Constraint Nat)) (w : List Signature) :
    Decidable (l.Extension relations w) :=
  decidable_of_iff
    ((∀ c ∈ w, ∃ e ∈ l.calls, e.call.sameKey c = true) ∧
      (∀ e ∈ l.calls, e.call.tally w = e.times) ∧
      ∀ r ∈ relations, ∀ s ∈ l.calls[r.successor]?, ∀ p ∈ l.calls[r.predecessor]?,
        Precedes p.call s.call w)
    ⟨fun h => ⟨h.1, h.2.1, fun r hr s p hs hp => h.2.2 r hr s hs p hp⟩,
      fun h => ⟨h.expected, h.counted, fun r hr s hs p hp => h.ordered r hr s p hs hp⟩⟩

/-- The relations are those that the expectations hold as prerequisites. -/
def Holds (l : Ledger) (relations : List (Constraint Nat)) : Prop :=
  ∀ i e, l.calls[i]? = some e → ∀ p, p ∈ e.prerequisites ↔ ⟨i, p⟩ ∈ relations

theorem missing_made_eq_nil_iff :
    (l.made w).missing = [] ↔ ∀ e ∈ l.calls, e.times ≤ e.call.tally w := by
  simp only [missing, List.map_eq_nil_iff, List.filter_eq_nil_iff, Bool.not_eq_true,
    Bool.not_eq_false']
  constructor
  · intro h e he
    obtain ⟨i, hi⟩ := List.mem_iff_getElem?.mp he
    have hmem : l.standing w i e ∈ (l.made w).calls :=
      List.mem_of_getElem? (by rw [getElem?_made, hi, Option.map_some])
    exact standing_satisfied.mp (h _ hmem)
  · intro h f hf
    obtain ⟨i, e, he, rfl⟩ := mem_made hf
    exact standing_satisfied.mpr (h e (List.mem_of_getElem? he))

/-- Splitting a run at one of its calls. -/
theorem exists_split {m : Nat} (h : w[m]? = some c) :
    w = w.take m ++ c :: w.drop (m + 1) := by
  obtain ⟨hlt, hget⟩ := List.getElem?_eq_some_iff.mp h
  rw [← hget, ← List.drop_eq_getElem_cons hlt, List.take_append_drop]

section Distinct

variable {relations : List (Constraint Nat)} (hk : Distinguishable (l.calls.map (·.call)))
  (hr : l.Holds relations)

include hk hr in
/-- Calls that are enabled one after another, until nothing is missing, are a linear
extension. -/
theorem extension_of_enabled
    (hen : ∀ u c v, w = u ++ c :: v → ∃ i e, l.Enabled u c i e)
    (hdone : ∀ e ∈ l.calls, e.times ≤ e.call.tally w) : l.Extension relations w := by
  have hnamed : ∀ u c v, w = u ++ c :: v → ∀ i e, l.calls[i]? = some e →
      e.call.sameKey c = true → l.Enabled u c i e := by
    intro u c v huv i e hi hec
    obtain ⟨j, f, hf⟩ := hen u c v huv
    obtain rfl := index_eq_of_key hk hi hf.named hec hf.key
    obtain rfl : f = e := by simpa using hf.named.symm.trans hi
    exact hf
  -- The last call of a key finds it due, so it is never called too often.
  have hcount : ∀ e ∈ l.calls, ∀ u v, w = u ++ v → e.call.tally u ≤ e.times := by
    intro e he u
    obtain ⟨i, hi⟩ := List.mem_iff_getElem?.mp he
    induction u using List.reverseRecOn with
    | nil => intro v _; simp
    | append_singleton u c ih =>
        intro v huv
        have huv' : w = u ++ c :: v := by rw [huv]; simp
        rw [tally_append, tally_singleton]
        by_cases hec : e.call.sameKey c = true
        · have := (hnamed u c v huv' i e hi hec).due
          rw [if_pos hec]
          omega
        · have := ih (c :: v) huv'
          rw [if_neg hec]
          omega
  refine ⟨?_, ?_, ?_⟩
  · intro c hc
    obtain ⟨u, v, huv⟩ := List.append_of_mem hc
    obtain ⟨i, e, he⟩ := hen u c v huv
    exact ⟨e, List.mem_of_getElem? he.named, he.key⟩
  · intro e he
    exact Nat.le_antisymm (hcount e he w [] (by simp)) (hdone e he)
  · intro r hrel s p hs hp m n c d hm hsc hn hpd
    by_contra hle
    have hsplit := exists_split hm
    have henabled := hnamed _ c _ hsplit _ s hs hsc
    have hready := henabled.ready r.predecessor ((hr _ s hs _).mpr hrel) p hp
    -- The predecessor is satisfied before position `m`, yet is called again at `n`.
    have hagain : 0 < p.call.tally (c :: w.drop (m + 1)) := by
      refine tally_pos_iff.mpr ⟨d, ?_, hpd⟩
      have hdrop : c :: w.drop (m + 1) = w.drop m := by
        obtain ⟨hlt, hget⟩ := List.getElem?_eq_some_iff.mp hm
        rw [← hget, ← List.drop_eq_getElem_cons hlt]
      rw [hdrop]
      refine List.mem_of_getElem? (i := n - m) ?_
      rw [List.getElem?_drop, show m + (n - m) = n by omega]
      exact hn
    have htotal := hcount p (List.mem_of_getElem? hp) w [] (by simp)
    rw [hsplit, tally_append] at htotal
    omega

include hr in
/-- In a linear extension every call is enabled after those before it. -/
theorem Extension.enabled (h : l.Extension relations w) :
    ∀ u c v, w = u ++ c :: v → ∃ i e, l.Enabled u c i e := by
  intro u c v huv
  obtain ⟨e, he, hec⟩ := h.expected c (by simp [huv])
  obtain ⟨i, hi⟩ := List.mem_iff_getElem?.mp he
  have hhere : w[u.length]? = some c := by simp [huv]
  refine ⟨i, e, hi, hec, ?_, ?_, ?_⟩
  · have := h.counted e he
    rw [huv, tally_append, tally_cons, tally_singleton, if_pos hec] at this
    omega
  · intro p hp q hq
    have hpre := h.ordered ⟨i, p⟩ ((hr i e hi p).mp hp) e q hi hq
    rw [huv] at hpre
    have hcount := h.counted q (List.mem_of_getElem? hq)
    rw [huv, tally_append, hpre.tally_rest hec] at hcount
    omega
  · intro f hf hif
    by_contra hpos
    obtain ⟨d, hd, hfd⟩ := tally_pos_iff.mp (Nat.pos_of_ne_zero hpos)
    obtain ⟨k, hk⟩ := List.mem_iff_getElem?.mp hf
    obtain ⟨m, hm⟩ := List.mem_iff_getElem?.mp hd
    have hmlt : m < u.length := (List.getElem?_eq_some_iff.mp hm).1
    have hwm : w[m]? = some d := by rw [huv, List.getElem?_append_left hmlt]; exact hm
    -- The successor `f` was called at `m`, before the call of `e` at hand.
    have := h.ordered ⟨k, i⟩ ((hr k f hk i).mp hif) f e hk hi m u.length d c hwm hfd hhere hec
    omega

include hk hr in
/-- **A ledger answers a sequence of calls, and then misses none, exactly if the sequence is a
linear extension of its relations.** -/
theorem answered_iff_extension (hl : l.Untouched) :
    (∃ l', answered w l = some l' ∧ l'.missing = []) ↔ l.Extension relations w := by
  constructor
  · intro h
    obtain ⟨l', hrun, hmissing⟩ := h
    obtain ⟨hen, rfl⟩ := (answered_iff_enabled hl hk).mp hrun
    exact extension_of_enabled hk hr hen (missing_made_eq_nil_iff.mp hmissing)
  · intro h
    refine ⟨l.made w, (answered_iff_enabled hl hk).mpr ⟨h.enabled hr, rfl⟩, ?_⟩
    exact missing_made_eq_nil_iff.mpr fun e he => Nat.le_of_eq (h.counted e he).symm

end Distinct

end Ledger

end CallOrder
