/-
Ranges of ranges.

Two positions stand for two indices, and these bound the range (`Slice.low`, `Slice.high`).  A
position in the range stands for as many elements further on in the whole, so what two
positions bound in a range is bound in the whole by two others (`Slice.between_range`).

A tree that is a group stays one of its kind while a range of it has two elements or more.
So the same goes for ranges of trees (`Node.between_between`).  From the first position to
the last one all of a tree is in the range, and though a group of one part is that part
then, the walk is the same (`Node.propagate_whole`).
-/
import CallOrder.Constraint

namespace CallOrder

/-! ### Positions -/

theorem clampIndex_zero (position : Int64) : clampIndex position 0 = 0 := by
  unfold clampIndex
  split <;> omega

theorem clampIndex_lt (position : Int64) {length : Nat} (h : 0 < length) :
    clampIndex position length < length := by
  unfold clampIndex
  split <;> omega

/-- A position that is an index stands for itself. -/
theorem clampIndex_of_toInt_eq {position : Int64} {index length : Nat}
    (hposition : position.toInt = index) (h : index < length) :
    clampIndex position length = index := by
  unfold clampIndex
  split <;> omega

theorem exists_toInt_eq (index : Nat) (h : (index : Int) ≤ Int64.maxValue.toInt) :
    ∃ position : Int64, position.toInt = index := by
  have hmax : Int64.maxValue.toInt = 9223372036854775807 := by decide
  exact ⟨Int64.ofInt index, Int64.toInt_ofInt_of_le (by omega) (by omega)⟩

namespace Slice

/-- The lower one of the indices that two positions stand for. -/
def low (p q : Int64) (length : Nat) : Nat :=
  min (clampIndex p length) (clampIndex q length)

/-- The upper one. -/
def high (p q : Int64) (length : Nat) : Nat :=
  max (clampIndex p length) (clampIndex q length)

/-- How many elements there are from the lower one to the upper one. -/
def size (p q : Int64) (length : Nat) : Nat :=
  high p q length - low p q length + 1

/-- The index in the whole of what a position stands for among these elements. -/
def further (p q a : Int64) (length : Nat) : Nat :=
  low p q length + clampIndex a (size p q length)

variable {α : Type} {p q a b i j : Int64} {items : List α}

theorem low_le_high {length : Nat} : low p q length ≤ high p q length := by
  unfold low high
  omega

/-- What two indices bound. -/
def bounded (i j : Nat) (items : List α) : Option (Slice α) :=
  if i = j then items[i]?.map single
  else some (.range ((items.take (max i j + 1)).drop (min i j)))

/-- Two positions bound what the indices bound that they stand for. -/
theorem between_eq_bounded (p q : Int64) (items : List α) :
    between p q items
      = bounded (clampIndex p items.length) (clampIndex q items.length) items :=
  rfl

theorem bounded_min_max (i j : Nat) (items : List α) :
    bounded (min i j) (max i j) items = bounded i j items := by
  have hmax : max (min i j) (max i j) = max i j := by omega
  have hmin : min (min i j) (max i j) = min i j := by omega
  unfold bounded
  by_cases h : i = j
  · simp [h]
  · rw [if_neg h, if_neg (by omega), hmax, hmin]

theorem between_of_lt (h : low p q items.length < high p q items.length) :
    between p q items
      = some (.range ((items.take (high p q items.length + 1)).drop (low p q items.length))) := by
  have hne : clampIndex p items.length ≠ clampIndex q items.length := by
    unfold low high at h
    omega
  exact if_neg hne

theorem length_pos_of_lt {length : Nat} (h : low p q length < high p q length) : 0 < length := by
  rcases Nat.eq_zero_or_pos length with rfl | hpos
  · simp [low, high, clampIndex_zero] at h
  · exact hpos

theorem high_lt {length : Nat} (h : 0 < length) : high p q length < length :=
  Nat.max_lt.mpr ⟨clampIndex_lt p h, clampIndex_lt q h⟩

/-- A range has as many elements as there are from its lower index to its upper one. -/
theorem length_of_lt (h : low p q items.length < high p q items.length) :
    ((items.take (high p q items.length + 1)).drop (low p q items.length)).length
      = size p q items.length := by
  have hhigh : high p q items.length < items.length := high_lt (length_pos_of_lt h)
  rw [List.length_drop, List.length_take, size]
  omega

theorem further_lt {length : Nat} (h : low p q length < high p q length) (a : Int64) :
    further p q a length < length := by
  have hhigh : high p q length < length := high_lt (length_pos_of_lt h)
  have ha : clampIndex a (size p q length) < size p q length := clampIndex_lt a (Nat.succ_pos _)
  have hsize : size p q length = high p q length - low p q length + 1 := rfl
  unfold further
  omega

/-- What two indices bound in a range is bound in the whole by those that lie as many elements
further on. -/
theorem bounded_range {lower upper i j : Nat} (hle : lower ≤ upper) (hi : i ≤ upper - lower)
    (hj : j ≤ upper - lower) :
    bounded i j ((items.take (upper + 1)).drop lower) = bounded (lower + i) (lower + j) items := by
  unfold bounded
  by_cases hsame : i = j
  · subst hsame
    rw [if_pos rfl, if_pos rfl, List.getElem?_drop, List.getElem?_take_of_lt (by omega)]
  · rw [if_neg hsame, if_neg (by omega), Nat.add_max_add_left, Nat.add_min_add_left,
      List.take_drop, List.drop_drop, List.take_take]
    congr 4
    omega

/-- So what two positions bound in a range is bound in the whole by two indices. -/
theorem between_range_eq_bounded (h : low p q items.length < high p q items.length) :
    between a b ((items.take (high p q items.length + 1)).drop (low p q items.length))
      = bounded (further p q a items.length) (further p q b items.length) items := by
  have hin (position : Int64) : clampIndex position (size p q items.length)
      ≤ high p q items.length - low p q items.length :=
    Nat.le_of_lt_succ (clampIndex_lt position (Nat.succ_pos _))
  rw [further, further, ← bounded_range (Nat.le_of_lt h) (hin a) (hin b), ← length_of_lt h]
  rfl

/-- **What two positions bound in a range is bound in the whole by those that lie as many elements
further on.** -/
theorem between_range (h : low p q items.length < high p q items.length)
    (hi : i.toInt = further p q a items.length) (hj : j.toInt = further p q b items.length) :
    between a b ((items.take (high p q items.length + 1)).drop (low p q items.length))
      = between i j items := by
  rw [between_range_eq_bounded h, ← clampIndex_of_toInt_eq hi (further_lt h a),
    ← clampIndex_of_toInt_eq hj (further_lt h b)]
  rfl

/-- From the first position to the last one there is all of it. -/
theorem between_whole (items : List α) :
    between 0 (-1) items = match items with
      | [] => none
      | [item] => some (.single item)
      | items => some (.range items) := by
  have hfirst (length : Nat) : clampIndex 0 length = 0 := by
    simp [clampIndex]
  have hlast (length : Nat) : clampIndex (-1) length = length - 1 := by
    have hminus : (-1 : Int64).toInt = -1 := by decide
    simp [clampIndex, hminus]
  match items with
  | [] => rfl
  | [item] => simp [between, hfirst, hlast]
  | first :: second :: rest =>
      simp [between, hfirst, hlast]

end Slice

namespace Node

variable {ι : Type} {n : Node ι} {p q a b i j : Int64}

/-- What the positions of a range count: the parts of a group, or the tree itself, unless it is
empty. -/
def sequence : Node ι → List (Node ι)
  | chain parts => parts
  | parallel parts => parts
  | empty => []
  | n => [n]

/-- The index in the whole of what a position stands for in a range of it. -/
def further (n : Node ι) (p q a : Int64) : Nat :=
  Slice.low p q n.sequence.length + clampIndex a (n.between p q).sequence.length

theorem ofSlice_between {group : List (Node ι) → Node ι} {parts : List (Node ι)}
    (hgroup : ∀ ns, (group ns).between a b = ofSlice group (Slice.between a b ns))
    (h : Slice.low p q parts.length < Slice.high p q parts.length)
    (hi : i.toInt = Slice.further p q a parts.length)
    (hj : j.toInt = Slice.further p q b parts.length) :
    (ofSlice group (Slice.between p q parts)).between a b
      = ofSlice group (Slice.between i j parts) := by
  rw [Slice.between_of_lt h, ofSlice, hgroup, Slice.between_range h hi hj]

/-- Only a group has a range of more than one element. -/
theorem group_of_lt (h : Slice.low p q n.sequence.length < Slice.high p q n.sequence.length) :
    n = chain n.sequence ∨ n = parallel n.sequence := by
  have hlength := Slice.high_lt (p := p) (q := q) (Slice.length_pos_of_lt h)
  cases n with
  | chain parts => exact Or.inl rfl
  | parallel parts => exact Or.inr rfl
  | single e =>
      simp only [sequence, List.length_singleton] at h hlength
      omega
  | detach side parts =>
      simp only [sequence, List.length_singleton] at h hlength
      omega
  | empty => exact absurd (Slice.length_pos_of_lt h) (Nat.lt_irrefl 0)

/-- Such a range is a group of its elements, and neither it nor the whole is detached. -/
theorem sequence_between_of_lt
    (h : Slice.low p q n.sequence.length < Slice.high p q n.sequence.length) :
    (n.between p q).sequence.length = Slice.size p q n.sequence.length ∧
      n.cut? = none ∧ (n.between p q).cut? = none := by
  have hslice := Slice.between_of_lt h
  have hlength := Slice.length_of_lt h
  rcases group_of_lt h with hn | hn
  · rw [hn, between, hslice]
    exact ⟨hlength, rfl, rfl⟩
  · rw [hn, between, hslice]
    exact ⟨hlength, rfl, rfl⟩

theorem further_of_lt
    (h : Slice.low p q n.sequence.length < Slice.high p q n.sequence.length) (a : Int64) :
    n.further p q a = Slice.further p q a n.sequence.length := by
  rw [further, (sequence_between_of_lt h).1, Slice.further]

/-- **A range of a range of a tree is a range of the tree.** -/
theorem between_between
    (h : Slice.low p q n.sequence.length < Slice.high p q n.sequence.length)
    (hi : i.toInt = n.further p q a) (hj : j.toInt = n.further p q b) :
    (n.between p q).between a b = n.between i j := by
  rw [further_of_lt h] at hi hj
  cases n with
  | chain parts => exact ofSlice_between (fun _ => rfl) h hi hj
  | parallel parts => exact ofSlice_between (fun _ => rfl) h hi hj
  | _ => rfl

variable [DecidableEq ι]

/-- **The range from the first position to the last one is walked as the whole is**, save that side
by side with nothing an empty tree is left, which keeps the frontier. -/
theorem propagate_whole (hn : n ≠ parallel []) (anchors : List ι) :
    (n.between 0 (-1)).propagate anchors = n.propagate anchors := by
  match n with
  | chain [] => rfl
  | chain [part] => simp [between, Slice.between_whole, ofSlice, propagate, propagate.inSequence]
  | chain (first :: second :: rest) => simp [between, Slice.between_whole, ofSlice]
  | parallel [] => exact absurd rfl hn
  | parallel [part] => simp [between, Slice.between_whole, ofSlice, propagate, propagate.sideBySide]
  | parallel (first :: second :: rest) => simp [between, Slice.between_whole, ofSlice]
  | single e => rfl
  | detach side parts => rfl
  | empty => rfl

end Node

end CallOrder
