/-
Words that are woven out of others, and languages of such words.

Two languages are joined in two ways: by concatenation, where one word ends before the
other begins, and by shuffling, where the letters of both come in any order that keeps
each word as it is.  Where no letter belongs to both, either join can be undone by
taking the letters of one language out of a word: a word is in the shuffle if what is
left of it on both sides is a word (`mem_shuffle_iff`), and in the concatenation if no
letter of the second stands before one of the first besides (`mem_mul_iff`).
-/
import Mathlib.Computability.Language

namespace CallOrder

variable {α : Type}

/-- No `d` stands before a `c` in the word. -/
def Before (w : List α) (c d : α) : Prop :=
  ¬[d, c].Sublist w

namespace Before

variable {u v w : List α} {c d e : α}

theorem nil : Before [] c d :=
  fun h => List.cons_ne_nil _ _ (List.sublist_nil.mp h)

theorem cons (hd : d = e → c ∉ w) (h : Before w c d) : Before (e :: w) c d := by
  intro hdc
  rcases List.sublist_cons_iff.mp hdc with hdc | ⟨r, hr, hdc⟩
  · exact h hdc
  · obtain ⟨hde, rfl⟩ := List.cons.inj hr
    exact hd hde (List.singleton_sublist.mp hdc)

theorem of_not_mem_left (h : c ∉ w) : Before w c d :=
  fun hdc => h (hdc.subset (by simp))

theorem of_not_mem_right (h : d ∉ w) : Before w c d :=
  fun hdc => h (hdc.subset (by simp))

theorem sublist (h : Before w c d) (hu : u.Sublist w) : Before u c d :=
  fun hdc => h (hdc.trans hu)

/-- Renaming letters, or leaving some out, keeps apart what two letters alone become. -/
theorem filterMap {β : Type} {f : α → Option β} {a b : β} (h : Before w c d)
    (ha : ∀ x, f x = some a → x = c) (hb : ∀ x, f x = some b → x = d) :
    Before (w.filterMap f) a b := by
  intro hba
  obtain ⟨v, hv, hvba⟩ := List.sublist_filterMap_iff.mp hba
  obtain ⟨v₁, x, v₂, rfl, -, hx, hrest⟩ := List.filterMap_eq_cons_iff.mp hvba.symm
  obtain ⟨v₃, y, v₄, rfl, -, hy, -⟩ := List.filterMap_eq_cons_iff.mp hrest
  obtain rfl := hb x hx
  obtain rfl := ha y hy
  have hyx : [x, y].Sublist (v₁ ++ x :: (v₃ ++ y :: v₄)) :=
    (List.Sublist.cons_cons x (List.singleton_sublist.mpr (by simp))).trans
      (List.sublist_append_right v₁ _)
  exact h (hyx.trans hv)

/-- What comes before and after a letter that occurs. -/
theorem trans (hce : Before w c e) (hed : Before w e d) (he : e ∈ w) : Before w c d := by
  intro hdc
  obtain ⟨u, v, rfl⟩ := List.append_of_mem he
  obtain ⟨l, m, hlm, hl, hm⟩ := List.sublist_append_iff.mp hdc
  rcases l with _ | ⟨x, l⟩
  · -- Both stand at the letter or after it, so the second stands after it.
    obtain rfl : [d, c] = m := by simpa using hlm
    have hc : c ∈ v := by
      rcases List.sublist_cons_iff.mp hm with hm | ⟨r, hr, hm⟩
      · exact hm.subset (by simp)
      · obtain ⟨-, rfl⟩ := List.cons.inj hr
        exact hm.subset (by simp)
    exact hce ((List.Sublist.cons_cons e (List.singleton_sublist.mpr hc)).trans
      (List.sublist_append_right u _))
  · obtain rfl : d = x := (List.cons.inj hlm).1
    have hd : [d].Sublist u := List.singleton_sublist.mpr (hl.subset (by simp))
    exact hed (hd.append (List.singleton_sublist.mpr (by simp)))

theorem filter_iff {p : α → Bool} (hc : p c = true) (hd : p d = true) :
    Before (w.filter p) c d ↔ Before w c d := by
  constructor
  · intro h hdc
    exact h (by simpa [hc, hd] using hdc.filter p)
  · intro h
    exact h.sublist List.filter_sublist

/-- What is only in the first part of a word stands before what is only in the second. -/
theorem append (hc : c ∉ v) (hd : d ∉ u) : Before (u ++ v) c d := by
  intro hdc
  obtain ⟨l, m, hlm, hl, hm⟩ := List.sublist_append_iff.mp hdc
  rcases l with _ | ⟨x, l⟩
  · obtain rfl : [d, c] = m := by simpa using hlm
    exact hc (hm.subset (by simp))
  · obtain rfl : d = x := (List.cons.inj hlm).1
    exact hd (hl.subset (by simp))

theorem iff_getElem? :
    Before w c d ↔ ∀ m n : Nat, w[m]? = some d → w[n]? = some c → n ≤ m := by
  have hpairs : Before w c d ↔ w.Pairwise fun x y => ¬(x = d ∧ y = c) := by
    rw [List.pairwise_iff_forall_sublist]
    constructor
    · rintro h x y hxy ⟨rfl, rfl⟩
      exact h hxy
    · intro h hdc
      exact h hdc ⟨rfl, rfl⟩
  rw [hpairs, List.pairwise_iff_getElem]
  constructor
  · intro h m n hm hn
    obtain ⟨hmlt, hmd⟩ := List.getElem?_eq_some_iff.mp hm
    obtain ⟨hnlt, hnc⟩ := List.getElem?_eq_some_iff.mp hn
    by_contra hlt
    exact h m n hmlt hnlt (Nat.not_le.mp hlt) ⟨hmd, hnc⟩
  · rintro h m n hm hn hmn ⟨hmd, hnc⟩
    have := h m n (List.getElem?_eq_some_iff.mpr ⟨hm, hmd⟩)
      (List.getElem?_eq_some_iff.mpr ⟨hn, hnc⟩)
    omega

end Before

/-! ### Taking a word apart -/

/-- The third word is woven out of the first two, each of which keeps its order. -/
inductive Weaves : List α → List α → List α → Prop where
  | done : Weaves [] [] []
  | first {c : α} {u v w : List α} (rest : Weaves u v w) : Weaves (c :: u) v (c :: w)
  | second {c : α} {u v w : List α} (rest : Weaves u v w) : Weaves u (c :: v) (c :: w)

variable {p : α → Bool} {u v w : List α}

/-- Words over different letters are read off what is woven out of them. -/
theorem Weaves.filter (h : Weaves u v w) (hu : ∀ c ∈ u, p c = true) (hv : ∀ c ∈ v, p c = false) :
    w.filter p = u ∧ w.filter (!p ·) = v := by
  induction h with
  | done => exact ⟨rfl, rfl⟩
  | @first c u v w _ ih =>
      obtain ⟨hfirst, hsecond⟩ := ih (fun d hd => hu d (List.mem_cons_of_mem _ hd)) hv
      have hc : p c = true := hu c (by simp)
      simp [hc, hfirst, hsecond]
  | @second c u v w _ ih =>
      obtain ⟨hfirst, hsecond⟩ := ih hu fun d hd => hv d (List.mem_cons_of_mem _ hd)
      have hc : p c = false := hv c (by simp)
      simp [hc, hfirst, hsecond]

theorem weaves_append (u v : List α) : Weaves u v (u ++ v) := by
  induction u with
  | nil =>
      induction v with
      | nil => exact .done
      | cons c v ih => exact ih.second
  | cons c u ih => exact ih.first

theorem weaves_filter (p : α → Bool) (w : List α) :
    Weaves (w.filter p) (w.filter (!p ·)) w := by
  induction w with
  | nil => exact .done
  | cons c w ih =>
      by_cases hc : p c = true
      · simpa [hc] using ih.first
      · simpa [hc] using ih.second

/-- Where the letters on one side all come first, the sides stand one after the other. -/
theorem filter_append_filter (h : ∀ c d, p c = true → p d = false → Before w c d) :
    w.filter p ++ w.filter (!p ·) = w := by
  induction w with
  | nil => rfl
  | cons e w ih =>
      have hrest := ih fun c d hc hd => (h c d hc hd).sublist (List.sublist_cons_self e w)
      by_cases he : p e = true
      · simpa [he] using hrest
      · have hnone : w.filter p = [] := by
          rw [List.filter_eq_nil_iff]
          intro c hc hpc
          refine h c e hpc (by simpa using he) ?_
          exact List.Sublist.cons_cons e (List.singleton_sublist.mpr hc)
        rw [hnone] at hrest
        simpa [he, hnone] using hrest

/-! ### Joining languages -/

/-- The words that are woven out of a word of each language. -/
def shuffle (L M : Language α) : Language α :=
  {w | ∃ u ∈ L, ∃ v ∈ M, Weaves u v w}

/-- The words that are woven out of a word of each of several languages. -/
def shuffleAll (languages : List (Language α)) : Language α :=
  languages.foldr shuffle 1

/-- Every letter of every word of the language is on one side. -/
def Over (p : α → Bool) (side : Bool) (L : Language α) : Prop :=
  ∀ w ∈ L, ∀ c ∈ w, p c = side

section Apart

variable {L M : Language α} (hL : Over p true L) (hM : Over p false M)

include hL hM

theorem mem_shuffle_iff : w ∈ shuffle L M ↔ w.filter p ∈ L ∧ w.filter (!p ·) ∈ M := by
  constructor
  · intro h
    obtain ⟨u, hu, v, hv, hw⟩ := h
    obtain ⟨rfl, rfl⟩ := hw.filter (hL u hu) (hM v hv)
    exact ⟨hu, hv⟩
  · intro h
    obtain ⟨hfirst, hsecond⟩ := h
    exact ⟨_, hfirst, _, hsecond, weaves_filter p w⟩

theorem mem_mul_iff :
    w ∈ L * M ↔ w.filter p ∈ L ∧ w.filter (!p ·) ∈ M ∧
      ∀ c d, p c = true → p d = false → Before w c d := by
  constructor
  · intro h
    obtain ⟨u, hu, v, hv, rfl⟩ := Language.mem_mul.mp h
    obtain ⟨hfirst, hsecond⟩ := (weaves_append u v).filter (hL u hu) (hM v hv)
    refine ⟨hfirst.symm ▸ hu, hsecond.symm ▸ hv, ?_⟩
    intro c d hc hd
    refine Before.append ?_ ?_
    · intro hcv
      exact Bool.noConfusion (hc.symm.trans (hM v hv c hcv))
    · intro hdu
      exact Bool.noConfusion (hd.symm.trans (hL u hu d hdu))
  · intro h
    obtain ⟨hfirst, hsecond, hbefore⟩ := h
    exact Language.mem_mul.mpr ⟨_, hfirst, _, hsecond, filter_append_filter hbefore⟩

end Apart

/-! ### Languages of all arrangements of certain letters -/

/-- The words of the language are the arrangements of the letters that meet a condition, which
depends on nothing but which letters stand before which. -/
structure Arranges (L : Language α) (letters : List α) (condition : List α → Prop) : Prop where
  mem_iff : ∀ w, w ∈ L ↔ w.Perm letters ∧ condition w
  congr : ∀ {u w}, (∀ c ∈ letters, ∀ d ∈ letters, Before u c d ↔ Before w c d) →
    (condition u ↔ condition w)

namespace Arranges

variable {L M : Language α} {A B : List α} {O O' : List α → Prop}

theorem one : Arranges (1 : Language α) [] fun _ => True :=
  ⟨fun w => by simp [Language.mem_one], fun _ => Iff.rfl⟩

theorem replicate (n : Nat) (c : α) :
    Arranges ({List.replicate n c} : Set (List α)) (List.replicate n c) fun _ => True :=
  ⟨fun w => by rw [List.perm_replicate, and_true]; exact Set.mem_singleton_iff, fun _ => Iff.rfl⟩

/-- Letters that are in `A` or `B`, but not in both, tell the two sides of a word apart. -/
theorem perm_append_iff (hdisjoint : A.Disjoint B) {p : α → Bool}
    (hp : ∀ c, p c = true ↔ c ∈ A) :
    w.Perm (A ++ B) ↔ (w.filter p).Perm A ∧ (w.filter (!p ·)).Perm B := by
  have hA : A.filter p = A := List.filter_eq_self.mpr fun c hc => (hp c).mpr hc
  have hA' : A.filter (!p ·) = [] :=
    List.filter_eq_nil_iff.mpr fun c hc => by simp [(hp c).mpr hc]
  have hB : B.filter p = [] :=
    List.filter_eq_nil_iff.mpr fun c hc hpc => hdisjoint ((hp c).mp hpc) hc
  have hB' : B.filter (!p ·) = B := by
    refine List.filter_eq_self.mpr fun c hc => ?_
    have hpc : ¬p c = true := fun hpc => hdisjoint ((hp c).mp hpc) hc
    simpa using hpc
  constructor
  · intro h
    have hfirst := h.filter p
    have hsecond := h.filter (!p ·)
    rw [List.filter_append, hA, hB, List.append_nil] at hfirst
    rw [List.filter_append, hA', hB', List.nil_append] at hsecond
    exact ⟨hfirst, hsecond⟩
  · intro h
    obtain ⟨hfirst, hsecond⟩ := h
    exact (List.filter_append_perm p w).symm.trans (hfirst.append hsecond)

section Disjoint

variable (h : Arranges L A O) (h' : Arranges M B O') (hdisjoint : A.Disjoint B)

include h h' hdisjoint

theorem sides : ∃ p : α → Bool, (∀ c, p c = true ↔ c ∈ A) ∧ Over p true L ∧ Over p false M ∧
    ∀ w, (w.filter p ∈ L ∧ w.filter (!p ·) ∈ M) ↔ w.Perm (A ++ B) ∧ O w ∧ O' w := by
  classical
  let p : α → Bool := fun c => decide (c ∈ A)
  have hp : ∀ c, p c = true ↔ c ∈ A := fun c => decide_eq_true_iff
  refine ⟨p, hp, ?_, ?_, ?_⟩
  · intro w hw c hc
    exact (hp c).mpr (((h.mem_iff w).mp hw).1.subset hc)
  · intro w hw c hc
    have hB : c ∈ B := ((h'.mem_iff w).mp hw).1.subset hc
    exact decide_eq_false fun hA => hdisjoint hA hB
  · intro w
    have hO : O (w.filter p) ↔ O w :=
      h.congr fun c hc d hd => Before.filter_iff ((hp c).mpr hc) ((hp d).mpr hd)
    have hO' : O' (w.filter (!p ·)) ↔ O' w := by
      refine h'.congr fun c hc d hd => Before.filter_iff ?_ ?_
      · simpa [p] using fun hA => hdisjoint hA hc
      · simpa [p] using fun hA => hdisjoint hA hd
    rw [h.mem_iff, h'.mem_iff, perm_append_iff hdisjoint hp, hO, hO']
    constructor
    · intro h
      obtain ⟨⟨hperm, ho⟩, hperm', ho'⟩ := h
      exact ⟨⟨hperm, hperm'⟩, ho, ho'⟩
    · intro h
      obtain ⟨⟨hperm, hperm'⟩, ho, ho'⟩ := h
      exact ⟨⟨hperm, ho⟩, hperm', ho'⟩

/-- Shuffling puts no condition on letters of different languages. -/
theorem shuffle : Arranges (CallOrder.shuffle L M) (A ++ B) fun w => O w ∧ O' w := by
  obtain ⟨p, -, hL, hM, hsides⟩ := sides h h' hdisjoint
  refine ⟨fun w => (mem_shuffle_iff hL hM).trans (hsides w), ?_⟩
  intro u w hbefore
  refine and_congr (h.congr fun c hc d hd => ?_) (h'.congr fun c hc d hd => ?_)
  · exact hbefore c (List.mem_append_left _ hc) d (List.mem_append_left _ hd)
  · exact hbefore c (List.mem_append_right _ hc) d (List.mem_append_right _ hd)

/-- Concatenating puts all letters of the first language before those of the second. -/
theorem mul : Arranges (L * M) (A ++ B) fun w =>
    O w ∧ O' w ∧ ∀ c ∈ A, ∀ d ∈ B, Before w c d := by
  obtain ⟨p, hp, hL, hM, hsides⟩ := sides h h' hdisjoint
  have hfalse : ∀ d ∈ B, p d = false := by
    intro d hd
    have hpd : ¬p d = true := fun hpd => hdisjoint ((hp d).mp hpd) hd
    simpa using hpd
  refine ⟨fun w => ?_, ?_⟩
  · rw [mem_mul_iff hL hM, ← and_assoc, hsides]
    constructor
    · intro h
      obtain ⟨⟨hperm, ho, ho'⟩, hbefore⟩ := h
      exact ⟨hperm, ho, ho', fun c hc d hd => hbefore c d ((hp c).mpr hc) (hfalse d hd)⟩
    · intro h
      obtain ⟨hperm, ho, ho', hbefore⟩ := h
      refine ⟨⟨hperm, ho, ho'⟩, ?_⟩
      intro c d hc hd hdc
      have hdw : d ∈ A ++ B := hperm.subset (hdc.subset (by simp))
      rcases List.mem_append.mp hdw with hdA | hdB
      · exact Bool.noConfusion (((hp d).mpr hdA).symm.trans hd)
      · exact hbefore c ((hp c).mp hc) d hdB hdc
  · intro u w hbefore
    refine and_congr (h.congr fun c hc d hd => ?_) (and_congr (h'.congr fun c hc d hd => ?_) ?_)
    · exact hbefore c (List.mem_append_left _ hc) d (List.mem_append_left _ hd)
    · exact hbefore c (List.mem_append_right _ hc) d (List.mem_append_right _ hd)
    · refine forall₂_congr fun c hc => forall₂_congr fun d hd => ?_
      exact hbefore c (List.mem_append_left _ hc) d (List.mem_append_right _ hd)

end Disjoint

end Arranges

end CallOrder
