/-
The order language of the combinators.

A pattern has a main language, over the calls that it orders itself, and one language
for each of its free parts: a leaf is called as often as it is to be, a chain
concatenates, parallel parts are shuffled, and independent parts leave nothing to the
main language but stand for languages of their own.  The words of the pattern are all
that can be woven out of one word of each.

As long as no two leaves share a letter, all of this comes to one thing: a word of any
of these languages is an arrangement of certain letters in which certain letters stand
before others (`arranges_main`), and so is a word of the pattern (`mem_language_iff`).
-/
import CallOrder.Proofs.Pattern
import CallOrder.Proofs.Weave

namespace CallOrder

namespace Pattern

variable {π ι α : Type}

/-- The words over the calls that the pattern orders itself, each leaf standing for a word. -/
def main (word : π → List α) : Pattern π → Language α
  | leaf plan => ({word plan} : Set (List α))
  | chain parts => concatenated parts
  | parallel first others => shuffle (main word first) (shuffled others)
  | independent _ => 1
where
  /-- A word of each part, one after another. -/
  concatenated : List (Pattern π) → Language α
    | [] => 1
    | p :: rest => main word p * concatenated rest
  /-- A word of each part, woven together. -/
  shuffled : List (Pattern π) → Language α
    | [] => 1
    | p :: rest => shuffle (main word p) (shuffled rest)

/-- The words that are woven out of one of the main language and one of each free part. -/
def language (word : π → List α) (p : Pattern π) : Language α :=
  shuffleAll (p.main word :: p.freeParts.map (main word))

/-- All letters of one leaf stand before those of the other. -/
def Precede (word : ι → List α) (w : List α) (x y : ι) : Prop :=
  ∀ c ∈ word x, ∀ d ∈ word y, Before w c d

theorem precede_iff {word : ι → List α} {w : List α} {xs ys : List ι} :
    (∀ c ∈ xs.flatMap word, ∀ d ∈ ys.flatMap word, Before w c d) ↔
      ∀ x ∈ xs, ∀ y ∈ ys, Precede word w x y := by
  constructor
  · intro h x hx y hy c hc d hd
    exact h c (List.mem_flatMap.mpr ⟨x, hx, hc⟩) d (List.mem_flatMap.mpr ⟨y, hy, hd⟩)
  · intro h c hc d hd
    obtain ⟨x, hx, hcx⟩ := List.mem_flatMap.mp hc
    obtain ⟨y, hy, hdy⟩ := List.mem_flatMap.mp hd
    exact h x hx y hy c hcx d hdy

/-! ### The words of a pattern are arrangements -/

/-- Every leaf stands for a letter so many times over, and no two for the same letter. -/
structure Lettered (word : ι → List α) (leaves : List ι) : Prop where
  uniform : ∀ x ∈ leaves, ∃ n c, word x = List.replicate n c
  apart : leaves.Pairwise fun x y => (word x).Disjoint (word y)

namespace Lettered

variable {word : ι → List α} {xs ys : List ι}

theorem of_append (h : Lettered word (xs ++ ys)) :
    Lettered word xs ∧ Lettered word ys ∧ (xs.flatMap word).Disjoint (ys.flatMap word) := by
  obtain ⟨hxs, hys, hcross⟩ := List.pairwise_append.mp h.apart
  refine ⟨⟨fun x hx => h.uniform x (List.mem_append_left _ hx), hxs⟩,
    ⟨fun y hy => h.uniform y (List.mem_append_right _ hy), hys⟩, ?_⟩
  intro c hc hc'
  obtain ⟨x, hx, hcx⟩ := List.mem_flatMap.mp hc
  obtain ⟨y, hy, hcy⟩ := List.mem_flatMap.mp hc'
  exact hcross x hx y hy hcx hcy

theorem perm (h : Lettered word xs) (hperm : ys.Perm xs) : Lettered word ys :=
  ⟨fun x hx => h.uniform x (hperm.subset hx),
    (hperm.pairwise_iff fun hxy => hxy.symm).mpr h.apart⟩

/-- A leaf stands before what comes after it, where words stand in the order of their leaves. -/
theorem precede (h : Lettered word (xs ++ ys)) {x y : ι} (hx : x ∈ xs) (hy : y ∈ ys) :
    Precede word ((xs ++ ys).flatMap word) x y := by
  obtain ⟨-, -, hdisjoint⟩ := h.of_append
  intro c hc d hd
  have hcx : c ∈ xs.flatMap word := List.mem_flatMap.mpr ⟨x, hx, hc⟩
  have hdy : d ∈ ys.flatMap word := List.mem_flatMap.mpr ⟨y, hy, hd⟩
  rw [List.flatMap_append]
  exact Before.append (fun hcy => hdisjoint hcx hcy) fun hdx => hdisjoint hdx hdy

end Lettered

variable {word : ι → List α}

mutual

theorem arranges_main : ∀ p : Pattern ι, Lettered word p.spine →
    Arranges (p.main word) (p.spine.flatMap word) fun w => p.Ordered (Precede word w)
  | .leaf e, h => by
      obtain ⟨n, c, hword⟩ := h.uniform e (by simp [spine])
      simpa [main, spine, Ordered, hword] using Arranges.replicate n c
  | .chain parts, h => arranges_concatenated parts h
  | .parallel first others, h => by
      obtain ⟨hfirst, hothers, hdisjoint⟩ := h.of_append
      have hboth := (arranges_main first hfirst).shuffle (arranges_shuffled others hothers)
        hdisjoint
      simpa [main, spine, Ordered] using hboth
  | .independent parts, _ => Arranges.one

theorem arranges_concatenated : ∀ parts : List (Pattern ι),
    Lettered word (spine.spineAll parts) →
      Arranges (main.concatenated word parts) ((spine.spineAll parts).flatMap word)
        fun w => Ordered.inSequence (Precede word w) parts
  | [], _ => Arranges.one
  | p :: rest, h => by
      obtain ⟨hfirst, hothers, hdisjoint⟩ := h.of_append
      have hboth := (arranges_main p hfirst).mul (arranges_concatenated rest hothers) hdisjoint
      simp only [precede_iff] at hboth
      rw [spine.spineAll, List.flatMap_append]
      exact hboth

theorem arranges_shuffled : ∀ parts : List (Pattern ι),
    Lettered word (spine.spineAll parts) →
      Arranges (main.shuffled word parts) ((spine.spineAll parts).flatMap word)
        fun w => Ordered.sideBySide (Precede word w) parts
  | [], _ => Arranges.one
  | p :: rest, h => by
      obtain ⟨hfirst, hothers, hdisjoint⟩ := h.of_append
      have hboth := (arranges_main p hfirst).shuffle (arranges_shuffled rest hothers) hdisjoint
      simpa [main.shuffled, spine.spineAll, Ordered.sideBySide] using hboth

end

theorem gather {as bs cs ds xs ys : List ι} (hx : xs.Perm (as ++ bs)) (hy : ys.Perm (cs ++ ds)) :
    (xs ++ ys).Perm (as ++ cs ++ (bs ++ ds)) := by
  refine (hx.append hy).trans ?_
  rw [List.append_assoc, List.append_assoc]
  exact List.Perm.append_left as (List.perm_append_comm_assoc bs cs ds)

mutual

/-- Every leaf is ordered by the pattern itself or by one of its free parts. -/
theorem leaves_perm : ∀ p : Pattern ι, p.leaves.Perm (p.spine ++ p.freeParts.flatMap spine)
  | .leaf _ => .refl _
  | .chain parts => leavesAll_perm parts
  | .parallel first others => by
      rw [spine, freeParts, List.flatMap_append]
      exact gather (leaves_perm first) (leavesAll_perm others)
  | .independent parts => leavesEach_perm parts

theorem leavesAll_perm : ∀ parts : List (Pattern ι),
    (leaves.leavesAll parts).Perm
      (spine.spineAll parts ++ (freeParts.freeAll parts).flatMap spine)
  | [] => .refl _
  | p :: rest => by
      rw [spine.spineAll, freeParts.freeAll, List.flatMap_append]
      exact gather (leaves_perm p) (leavesAll_perm rest)

theorem leavesEach_perm : ∀ parts : List (Pattern ι),
    (leaves.leavesAll parts).Perm ((freeParts.freeEach parts).flatMap spine)
  | [] => .refl _
  | p :: rest => by
      have hboth := (leaves_perm p).append (leavesEach_perm rest)
      simpa [leaves.leavesAll, freeParts.freeEach] using hboth

end

theorem arranges_shuffleAll (qs : List (Pattern ι)) (h : Lettered word (qs.flatMap spine)) :
    Arranges (shuffleAll (qs.map (main word))) ((qs.flatMap spine).flatMap word)
      fun w => ∀ q ∈ qs, q.Ordered (Precede word w) := by
  induction qs with
  | nil => simpa [shuffleAll] using Arranges.one
  | cons q rest ih =>
      obtain ⟨hfirst, hothers, hdisjoint⟩ := h.of_append
      have hboth := (arranges_main q hfirst).shuffle (ih hothers) hdisjoint
      simpa [shuffleAll] using hboth

/-- **The words of a pattern** make every call as often as it is to be, in the order of the
pattern and of its free parts. -/
theorem mem_language_iff {p : Pattern ι} (h : Lettered word p.leaves) {w : List α} :
    w ∈ p.language word ↔ w.Perm (p.leaves.flatMap word) ∧
      p.Ordered (Precede word w) ∧ ∀ q ∈ p.freeParts, q.Ordered (Precede word w) := by
  have hperm : p.leaves.Perm ((p :: p.freeParts).flatMap spine) := leaves_perm p
  have hall := arranges_shuffleAll (p :: p.freeParts) (h.perm hperm.symm)
  rw [language, ← List.map_cons, hall.mem_iff, List.forall_mem_cons]
  refine and_congr_left fun _ => ?_
  have hletters := hperm.flatMap_right word
  exact ⟨fun hw => hw.trans hletters.symm, fun hw => hw.trans hletters⟩

/-! ### The same words by number -/

/-- The leaves stand for the same words as the calls that they declare, from number `n` on. -/
def Numbered (word : π → List α) (byId : CallId → List α) (n : Nat) (leaves : List π) : Prop :=
  ∀ k x, leaves[k]? = some x → byId ⟨0, n + k⟩ = word x

namespace Numbered

variable {word : π → List α} {byId : CallId → List α} {n : Nat} {xs ys : List π}

theorem left (h : Numbered word byId n (xs ++ ys)) : Numbered word byId n xs := by
  intro k x hx
  have hlt : k < xs.length := (List.getElem?_eq_some_iff.mp hx).1
  exact h k x (by rw [List.getElem?_append_left hlt]; exact hx)

theorem right (h : Numbered word byId n (xs ++ ys)) : Numbered word byId (n + xs.length) ys := by
  intro k x hx
  rw [Nat.add_assoc]
  refine h (xs.length + k) x ?_
  rw [List.getElem?_append_right (by omega), Nat.add_sub_cancel_left]
  exact hx

theorem map_ids (h : Numbered word byId n xs) :
    (ids n xs.length).map byId = xs.map word := by
  induction xs generalizing n with
  | nil => rfl
  | cons x xs ih =>
      have hx : byId ⟨0, n⟩ = word x := h 0 x rfl
      have hsplit : Numbered word byId n ([x] ++ xs) := h
      rw [List.map_cons, ← ih hsplit.right, ← hx, List.length_cons, ids, List.range'_succ]
      rfl

theorem flatMap_ids (h : Numbered word byId n xs) :
    (ids n xs.length).flatMap byId = xs.flatMap word := by
  rw [List.flatMap_def, List.flatMap_def, h.map_ids]

theorem lettered (h : Numbered word byId n xs) (hxs : Lettered word xs) :
    Lettered byId (ids n xs.length) := by
  refine ⟨?_, ?_⟩
  · intro id hid
    have hmem : byId id ∈ xs.map word := by
      rw [← h.map_ids]
      exact List.mem_map_of_mem hid
    obtain ⟨x, hx, hword⟩ := List.mem_map.mp hmem
    rw [← hword]
    exact hxs.uniform x hx
  · have hapart : ((ids n xs.length).map byId).Pairwise List.Disjoint := by
      rw [h.map_ids]
      exact List.pairwise_map.mpr hxs.apart
    exact List.pairwise_map.mp hapart

end Numbered

section Label

variable {word : π → List α} {byId : CallId → List α}

mutual

theorem main_label : ∀ (p : Pattern π) (n : Nat), Numbered word byId n p.leaves →
    (p.label n).main byId = p.main word
  | .leaf plan, n, h => by rw [label, main, main, ← h 0 plan rfl, Nat.add_zero]
  | .chain parts, n, h => concatenated_label parts n h
  | .parallel first others, n, h => by
      rw [label, main, main, main_label first n h.left, shuffled_label others _ h.right]
  | .independent _, _, _ => rfl

theorem concatenated_label : ∀ (parts : List (Pattern π)) (n : Nat),
    Numbered word byId n (leaves.leavesAll parts) →
      main.concatenated byId (label.labelAll n parts) = main.concatenated word parts
  | [], _, _ => rfl
  | p :: rest, n, h => by
      rw [label.labelAll, main.concatenated, main.concatenated, main_label p n h.left,
        concatenated_label rest _ h.right]

theorem shuffled_label : ∀ (parts : List (Pattern π)) (n : Nat),
    Numbered word byId n (leaves.leavesAll parts) →
      main.shuffled byId (label.labelAll n parts) = main.shuffled word parts
  | [], _, _ => rfl
  | p :: rest, n, h => by
      rw [label.labelAll, main.shuffled, main.shuffled, main_label p n h.left,
        shuffled_label rest _ h.right]

end

mutual

theorem freeParts_label : ∀ (p : Pattern π) (n : Nat), Numbered word byId n p.leaves →
    (p.label n).freeParts.map (main byId) = p.freeParts.map (main word)
  | .leaf _, _, _ => rfl
  | .chain parts, n, h => freeAll_label parts n h
  | .parallel first others, n, h => by
      rw [label, freeParts, freeParts, List.map_append, List.map_append,
        freeParts_label first n h.left, freeAll_label others _ h.right]
  | .independent parts, n, h => freeEach_label parts n h

theorem freeAll_label : ∀ (parts : List (Pattern π)) (n : Nat),
    Numbered word byId n (leaves.leavesAll parts) →
      (freeParts.freeAll (label.labelAll n parts)).map (main byId)
        = (freeParts.freeAll parts).map (main word)
  | [], _, _ => rfl
  | p :: rest, n, h => by
      rw [label.labelAll, freeParts.freeAll, freeParts.freeAll, List.map_append, List.map_append,
        freeParts_label p n h.left, freeAll_label rest _ h.right]

theorem freeEach_label : ∀ (parts : List (Pattern π)) (n : Nat),
    Numbered word byId n (leaves.leavesAll parts) →
      (freeParts.freeEach (label.labelAll n parts)).map (main byId)
        = (freeParts.freeEach parts).map (main word)
  | [], _, _ => rfl
  | p :: rest, n, h => by
      rw [label.labelAll, freeParts.freeEach, freeParts.freeEach, List.map_append,
        List.map_append, List.map_cons, List.map_cons, main_label p n h.left,
        freeParts_label p n h.left, freeEach_label rest _ h.right]

end

theorem language_label (p : Pattern π) (n : Nat) (h : Numbered word byId n p.leaves) :
    (p.label n).language byId = p.language word := by
  rw [language, language, main_label p n h, freeParts_label p n h]

end Label

end Pattern

end CallOrder
