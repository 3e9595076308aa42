/-
Ranges found with machine words.

The index that a position stands for is found with numbers of any size elsewhere
(`clampIndex`).  A machine has words: the length of a sequence is one, and so is every index.
Here a range is found with words alone, and each step that could go wrong is looked at first
(`Slice.reckon`): a sum that no word holds, and an index past the end.

Nothing goes wrong as long as a word can count the elements, and what is found is the same
(`Slice.reckon_eq`).  Two steps need care.  The least position has a magnitude that no position
is, but a word is (`Word.toNat_magnitude`).  And the upper index plus one, at most the length,
still is a word.
-/
import CallOrder.Proofs.Span

namespace CallOrder

/-- The index that a position stands for, in one formula: counted from the end where the position
is below zero, then moved to the nearer end where it points past one. -/
theorem clampIndex_eq_clamp (position : Int64) {length : Nat} (h : 0 < length) :
    (clampIndex position length : Int)
      = max 0 (min (length - 1 : Int)
          (if position.toInt < 0 then length + position.toInt else position.toInt)) := by
  unfold clampIndex
  split <;> omega

/-! ### Words -/

/-- What can go wrong where indices are words. -/
inductive Fault where
  /-- A sum is more than a word holds. -/
  | overflow
  /-- An index is past the end. -/
  | pastEnd
deriving DecidableEq

namespace Word

/-- How far a position is from zero. -/
def magnitude (position : Int64) : UInt64 :=
  position.abs.toUInt64

/-- The difference, or zero if there is more to take away than there is. -/
def minus (a b : UInt64) : UInt64 :=
  if b ≤ a then a - b else 0

/-- The sum, if it is a word. -/
def plus (a b : UInt64) : Except Fault UInt64 :=
  if a.toNat + b.toNat < UInt64.size then .ok (a + b) else .error .overflow

/-- The index that a position stands for among `length` elements. -/
def index (position : Int64) (length : UInt64) : UInt64 :=
  if position < 0 then minus length (magnitude position)
  else min (magnitude position) (minus length 1)

variable {α : Type}

/-- The element of an index. -/
def itemAt (i : UInt64) (items : List α) : Except Fault α :=
  match items[i.toNat]? with
  | some item => .ok item
  | none => .error .pastEnd

/-- The elements from an index on. -/
def itemsFrom (i : UInt64) (items : List α) : Except Fault (List α) :=
  if i.toNat ≤ items.length then .ok (items.drop i.toNat) else .error .pastEnd

/-! ### They are the numbers that they stand for -/

/-- The magnitude of the least position is no position, but it is a word. -/
theorem toNat_magnitude (position : Int64) :
    (magnitude position).toNat = position.toInt.natAbs := by
  have hword : (magnitude position).toNat = position.toBitVec.abs.toNat := rfl
  have hbound := position.toBitVec.isLt
  rw [hword, BitVec.toNat_abs, ← Int64.toInt_toBitVec, BitVec.toInt_eq_msb_cond]
  split <;> omega

theorem toNat_minus (a b : UInt64) : (minus a b).toNat = a.toNat - b.toNat := by
  unfold minus
  split
  · rename_i h
    exact UInt64.toNat_sub_of_le a b h
  · rename_i h
    have hlt : a.toNat < b.toNat := Nat.lt_of_not_le fun hle => h (UInt64.le_iff_toNat_le.mpr hle)
    rw [Nat.sub_eq_zero_of_le (Nat.le_of_lt hlt)]
    rfl

theorem toNat_min (a b : UInt64) : (min a b).toNat = min a.toNat b.toNat := by
  show (if a ≤ b then a else b).toNat = if a.toNat ≤ b.toNat then a.toNat else b.toNat
  rw [apply_ite UInt64.toNat]
  simp only [UInt64.le_iff_toNat_le]

theorem toNat_max (a b : UInt64) : (max a b).toNat = max a.toNat b.toNat := by
  show (if a ≤ b then b else a).toNat = if a.toNat ≤ b.toNat then b.toNat else a.toNat
  rw [apply_ite UInt64.toNat]
  simp only [UInt64.le_iff_toNat_le]

theorem toNat_index (position : Int64) (length : UInt64) :
    (index position length).toNat = clampIndex position length.toNat := by
  have hnegative : position < 0 ↔ position.toInt < 0 := Int64.lt_iff_toInt_lt
  unfold index clampIndex
  by_cases hbelow : position.toInt < 0
  · rw [if_pos (hnegative.mpr hbelow), if_pos hbelow, toNat_minus, toNat_magnitude]
  · rw [if_neg (mt hnegative.mp hbelow), if_neg hbelow, toNat_min, toNat_minus, toNat_magnitude]
    rfl

theorem plus_of_lt {a b : UInt64} (h : a.toNat + b.toNat < UInt64.size) :
    ∃ c, plus a b = .ok c ∧ c.toNat = a.toNat + b.toNat :=
  ⟨a + b, if_pos h, by rw [UInt64.toNat_add]; exact Nat.mod_eq_of_lt h⟩

theorem itemAt_eq {i : UInt64} {items : List α} {item : α} (h : items[i.toNat]? = some item) :
    itemAt i items = .ok item := by
  simp only [itemAt, h]

end Word

namespace Slice

open Word

variable {α : Type} {p q : Int64} {items : List α}

/-- What two indices bound, the lower one first, unless something goes wrong. -/
def cutOut (lower upper : UInt64) (items : List α) : Except Fault (Slice α) :=
  if lower = upper then
    single <$> itemAt lower items
  else do
    let stop ← plus upper 1
    range <$> itemsFrom lower (items.take stop.toNat)

/-- The part of `items` between two positions, found with words, unless something goes wrong. -/
def reckon (p q : Int64) (items : List α) : Except Fault (Option (Slice α)) :=
  if items.isEmpty then
    .ok none
  else
    let i := index p (UInt64.ofNat items.length)
    let j := index q (UInt64.ofNat items.length)
    some <$> cutOut (min i j) (max i j) items

/-- Two indices of elements bound a part, and it is found. -/
theorem cutOut_of_lt {lower upper : UInt64} (hle : lower.toNat ≤ upper.toNat)
    (hlt : upper.toNat < items.length) (hsize : items.length < UInt64.size) :
    some <$> cutOut lower upper items = .ok (bounded lower.toNat upper.toNat items) := by
  unfold cutOut bounded
  by_cases hsame : lower = upper
  · subst hsame
    rw [if_pos rfl, if_pos rfl, itemAt_eq (List.getElem?_eq_getElem hlt),
      List.getElem?_eq_getElem hlt]
    rfl
  · have hne : lower.toNat ≠ upper.toNat := mt UInt64.toNat_inj.mp hsame
    -- The upper index is less than the length, so there is one more word.
    obtain ⟨stop, hplus, hstop⟩ := plus_of_lt (a := upper) (b := 1)
      (Nat.lt_of_le_of_lt (Nat.succ_le_of_lt hlt) hsize)
    have hstop' : stop.toNat = upper.toNat + 1 := hstop
    have hfrom : lower.toNat ≤ (items.take (upper.toNat + 1)).length := by
      rw [List.length_take]
      omega
    rw [if_neg hsame, if_neg hne, hplus, Nat.max_eq_right hle, Nat.min_eq_left hle]
    show some <$> range <$> itemsFrom lower (items.take stop.toNat) = _
    rw [hstop', itemsFrom, if_pos hfrom]
    rfl

/-- **Nothing goes wrong, and the part that is found is the one between the positions**, as long as
a word can count the elements. -/
theorem reckon_eq (p q : Int64) (h : items.length < UInt64.size) :
    reckon p q items = .ok (between p q items) := by
  cases items with
  | nil => simp [reckon, between, clampIndex_zero]
  | cons first rest =>
      let length := UInt64.ofNat (first :: rest).length
      have hlength : length.toNat = (first :: rest).length := UInt64.toNat_ofNat_of_lt' h
      have hlower : (min (index p length) (index q length)).toNat
          = low p q (first :: rest).length := by
        rw [toNat_min, toNat_index, toNat_index, hlength]
        rfl
      have hupper : (max (index p length) (index q length)).toNat
          = high p q (first :: rest).length := by
        rw [toNat_max, toNat_index, toNat_index, hlength]
        rfl
      have hin : high p q (first :: rest).length < (first :: rest).length :=
        high_lt (Nat.succ_pos _)
      show some <$> cutOut (min (index p length) (index q length))
        (max (index p length) (index q length)) (first :: rest) = _
      rw [cutOut_of_lt (by rw [hlower, hupper]; exact low_le_high) (by rwa [hupper]) h, hlower,
        hupper, low, high, bounded_min_max, between_eq_bounded]

/-! ### What is bound -/

theorem bounded_comm (i j : Nat) (items : List α) : bounded i j items = bounded j i items := by
  by_cases h : i = j
  · rw [h]
  · rw [bounded, bounded, if_neg h, if_neg (Ne.symm h), Nat.max_comm, Nat.min_comm]

theorem between_comm (p q : Int64) (items : List α) : between p q items = between q p items :=
  bounded_comm _ _ items

/-- Where both positions stand for the same element, that is bound. -/
theorem between_of_eq (hpos : 0 < items.length)
    (h : low p q items.length = high p q items.length) :
    ∃ item, items[low p q items.length]? = some item ∧ between p q items = some (single item) := by
  have hlt : low p q items.length < items.length := h ▸ high_lt hpos
  have hget := List.getElem?_eq_getElem hlt
  refine ⟨_, hget, ?_⟩
  rw [between_eq_bounded, ← bounded_min_max, ← low, ← high, bounded, if_pos h, hget,
    Option.map_some]

/-- What is bound else are the elements from the lower index to the upper one. -/
theorem getElem?_of_lt (h : low p q items.length < high p q items.length) {k : Nat}
    (hk : k < size p q items.length) :
    ((items.take (high p q items.length + 1)).drop (low p q items.length))[k]?
      = items[low p q items.length + k]? := by
  have hsize : size p q items.length = high p q items.length - low p q items.length + 1 := rfl
  rw [List.getElem?_drop, List.getElem?_take_of_lt (by omega)]

theorem between_eq_none_iff : between p q items = none ↔ items = [] := by
  cases items with
  | nil => simp [between, clampIndex_zero]
  | cons first rest =>
      have hpos : 0 < (first :: rest).length := Nat.succ_pos _
      refine iff_of_false (fun h => ?_) (List.cons_ne_nil _ _)
      rcases Nat.lt_or_eq_of_le (low_le_high (p := p) (q := q)) with hlt | heq
      · rw [between_of_lt hlt] at h
        cases h
      · obtain ⟨item, -, hitem⟩ := between_of_eq hpos heq
        rw [hitem] at h
        cases h

/-- A range is bound only by positions that stand for different elements. -/
theorem lt_of_between_eq_range {part : List α} (h : between p q items = some (range part)) :
    low p q items.length < high p q items.length ∧
      part = (items.take (high p q items.length + 1)).drop (low p q items.length) := by
  have hne : items ≠ [] := fun hnil => by
    rw [between_eq_none_iff.mpr hnil] at h
    cases h
  rcases Nat.lt_or_eq_of_le (low_le_high (p := p) (q := q)) with hlt | heq
  · rw [between_of_lt hlt] at h
    cases h
    exact ⟨hlt, rfl⟩
  · obtain ⟨item, -, hitem⟩ := between_of_eq (List.length_pos_iff.mpr hne) heq
    rw [hitem] at h
    cases h

/-- **What two positions bound in a sequence.**

Nothing only if it has no elements, and the same whichever position is named first.  It can be found
with words, without a sum that no word holds and without an index past the end, in every sequence
whose elements a word can count.  Where there are elements each position stands for an index, the
nearest one there is; one index bounds its element, and two bound the elements from the lower to the
upper one in their order.  What is bound in a range is bound in the whole by the indices that lie as
many elements further on, and by any positions that are these indices. -/
theorem range_extracted (p q : Int64) (items : List α) :
    (between p q items = none ↔ items = []) ∧
    between p q items = between q p items ∧
    (items.length < UInt64.size → reckon p q items = .ok (between p q items)) ∧
    let lo := low p q items.length
    let hi := high p q items.length
    (items ≠ [] →
      (∀ position, (clampIndex position items.length : Int)
        = max 0 (min (items.length - 1 : Int)
            (if position.toInt < 0 then items.length + position.toInt else position.toInt))) ∧
      lo ≤ hi ∧ hi ≤ items.length - 1 ∧
      (lo = hi → ∃ item, items[lo]? = some item ∧ between p q items = some (single item)) ∧
      (lo < hi → ∃ part, between p q items = some (range part) ∧ part.length = hi - lo + 1 ∧
        ∀ k < hi - lo + 1, part[k]? = items[lo + k]?)) ∧
    ∀ part, between p q items = some (range part) → ∀ a b,
      between a b part
        = bounded (lo + clampIndex a part.length) (lo + clampIndex b part.length) items ∧
      ∀ i j : Int64, i.toInt = ↑(lo + clampIndex a part.length) →
        j.toInt = ↑(lo + clampIndex b part.length) → between a b part = between i j items := by
  refine ⟨between_eq_none_iff, between_comm p q items, reckon_eq p q, fun hne => ?_, ?_⟩
  · have hpos := List.length_pos_iff.mpr hne
    refine ⟨fun position => clampIndex_eq_clamp position hpos, low_le_high,
      Nat.le_pred_of_lt (high_lt hpos), between_of_eq hpos, fun hlt => ?_⟩
    exact ⟨_, between_of_lt hlt, length_of_lt hlt, fun k hk => getElem?_of_lt hlt hk⟩
  · rintro part hpart a b
    obtain ⟨hlt, rfl⟩ := lt_of_between_eq_range hpart
    rw [length_of_lt hlt]
    exact ⟨between_range_eq_bounded hlt, fun i j hi hj => between_range hlt hi hj⟩

/-- From the greatest position back to the fourth last there are all letters but the first, and in
these the last one and the second are two others of the whole. -/
theorem letters_but_first :
    let letters := ["a", "b", "c", "d", "e"]
    between Int64.maxValue (-4) letters = some (range ["b", "c", "d", "e"]) ∧
    between (-1) 1 ["b", "c", "d", "e"] = between 4 2 letters ∧
    reckon Int64.minValue 1 letters = .ok (between Int64.minValue 1 letters) := by
  intro letters
  have h : between Int64.maxValue (-4) letters = some (range ["b", "c", "d", "e"]) := by decide
  obtain ⟨-, -, -, -, hrange⟩ := range_extracted Int64.maxValue (-4) letters
  obtain ⟨-, -, hreckon, -, -⟩ := range_extracted Int64.minValue 1 letters
  exact ⟨h, (hrange _ h (-1) 1).2 4 2 (by decide) (by decide), hreckon (by decide)⟩

end Slice

end CallOrder
