/-
The places of a registry, and what becomes of them.

Opening a place adds one at the end if the type has none, and filling it changes nothing but
the instance of the type.  So where every type has one place, no place is ever lost or
moved, and an instance that is in its place stays there as long as only empty places are
filled (`keptIn_reserve`, `keptIn_fill`).
-/
import CallOrder.Registry
import Mathlib.Data.List.Nodup

namespace CallOrder

namespace Registry

variable {r s t : Registry} {mock value : String}

/-- The types that have a place, in the order of the places. -/
def types (r : Registry) : List String :=
  r.slots.map Prod.fst

/-- The registry once the making of another instance has begun. -/
def begun (r : Registry) : Registry :=
  { r with attempts := r.attempts + 1 }

theorem size_eq_length_types (r : Registry) : r.size = r.types.length :=
  (List.length_map ..).symm

theorem isSome_lookup_iff : (r.slots.lookup mock).isSome ↔ mock ∈ r.types := by
  simp [types, List.lookup_isSome_iff]

theorem types_reserve (r : Registry) (mock : String) :
    (r.reserve mock).types = if mock ∈ r.types then r.types else r.types ++ [mock] := by
  unfold reserve
  by_cases h : mock ∈ r.types
  · rw [if_pos h, if_pos (isSome_lookup_iff.mpr h)]
  · rw [if_neg h, if_neg fun hsome => h (isSome_lookup_iff.mp hsome)]
    simp [types]

theorem mem_types_reserve {other : String} :
    other ∈ (r.reserve mock).types ↔ other ∈ r.types ∨ other = mock := by
  rw [types_reserve]
  split
  · exact ⟨Or.inl, fun h => h.elim id fun heq => heq ▸ ‹mock ∈ r.types›⟩
  · simp

theorem nodup_types_reserve (h : r.types.Nodup) (mock : String) : (r.reserve mock).types.Nodup := by
  rw [types_reserve]
  split
  · exact h
  · exact h.append (List.nodup_singleton mock) (List.disjoint_singleton.mpr ‹_›)

/-- A place that was just opened is empty. -/
theorem instance?_reserve (r : Registry) (mock other : String) :
    (r.reserve mock).instance? other = r.instance? other := by
  unfold reserve
  split
  · rfl
  · rw [instance?, instance?, List.lookup_append]
    cases r.slots.lookup other with
    | some value? => rfl
    | none => cases h : other == mock <;> simp [List.lookup_cons, h]

theorem types_fill (r : Registry) (mock value : String) : (r.fill mock value).types = r.types := by
  simp only [types, fill, List.map_map]
  refine List.map_congr_left fun slot _ => ?_
  by_cases h : slot.1 = mock <;> simp [h]

/-- Where a type has a place, that is the one filled, and no other. -/
theorem instance?_fill (h : mock ∈ r.types) (value other : String) :
    (r.fill mock value).instance? other
      = if other = mock then some value else r.instance? other := by
  have hlookup (slots : List (String × Option String)) :
      (slots.map fun slot => if slot.1 = mock then (mock, some value) else slot).lookup other
        = if other = mock then (slots.lookup other).map fun _ => some value
          else slots.lookup other := by
    induction slots with
    | nil => simp
    | cons slot rest ih =>
        obtain ⟨type, value?⟩ := slot
        by_cases hfirst : other = type
        · subst hfirst
          by_cases htype : other = mock <;> simp [htype]
        · by_cases htype : type = mock
          · subst htype
            simpa [List.lookup_cons, beq_false_of_ne hfirst, hfirst] using ih
          · simpa [List.lookup_cons, beq_false_of_ne hfirst, htype] using ih
  rw [instance?, fill, hlookup]
  by_cases hother : other = mock
  · obtain ⟨value?, hvalue⟩ := Option.isSome_iff_exists.mp (isSome_lookup_iff.mpr h)
    rw [if_pos hother, if_pos hother, hother, hvalue]
    rfl
  · rw [if_neg hother, if_neg hother]
    rfl

/-- The first place of a type is its only one. -/
theorem instance?_of_mem (h : r.types.Nodup) {value? : Option String}
    (hmem : (mock, value?) ∈ r.slots) : r.instance? mock = value? := by
  obtain ⟨early, late, hslots⟩ := List.append_of_mem hmem
  have hlookup : r.slots.lookup mock = some value? := by
    refine List.lookup_eq_some_iff.mpr ⟨early, late, hslots, fun slot hslot => ?_⟩
    rw [types, hslots, List.map_append, List.map_cons] at h
    have hne := (List.nodup_append.mp h).2.2 slot.1 (List.mem_map_of_mem hslot) mock
      (List.mem_cons_self ..)
    simpa using hne.symm
  rw [instance?, hlookup]
  rfl

/-- Every place of one registry is where it was in the other, and what is in it stays there. -/
def KeptIn (r s : Registry) : Prop :=
  ∀ (k : Nat) (mock : String) (value? : Option String), r.slots[k]? = some (mock, value?) →
    ∃ later?, s.slots[k]? = some (mock, later?) ∧ ∀ value, value? = some value → later? = some value

theorem KeptIn.refl (r : Registry) : r.KeptIn r :=
  fun _ _ value? h => ⟨value?, h, fun _ => id⟩

theorem KeptIn.trans (h : r.KeptIn s) (h' : s.KeptIn t) : r.KeptIn t := by
  intro k mock value? hk
  obtain ⟨between?, hbetween, hkept⟩ := h k mock value? hk
  obtain ⟨later?, hlater, hkept'⟩ := h' k mock between? hbetween
  exact ⟨later?, hlater, fun value hvalue => hkept' value (hkept value hvalue)⟩

theorem keptIn_reserve (r : Registry) (mock : String) : r.KeptIn (r.reserve mock) := by
  unfold reserve
  split
  · exact .refl r
  · intro k other value? hk
    refine ⟨value?, ?_, fun _ => id⟩
    rw [← hk]
    exact List.getElem?_append_left (List.getElem?_eq_some_iff.mp hk).1

/-- Filling a place that is empty takes nothing away. -/
theorem keptIn_fill (hnodup : r.types.Nodup) (h : r.instance? mock = none) (value : String) :
    r.KeptIn (r.fill mock value) := by
  intro k other value? hk
  have hslot : (r.fill mock value).slots[k]?
      = some (if other = mock then (mock, some value) else (other, value?)) := by
    rw [fill, List.getElem?_map, hk]
    rfl
  by_cases hother : other = mock
  · subst hother
    obtain rfl : none = value? := h.symm.trans (instance?_of_mem hnodup (List.mem_of_getElem? hk))
    rw [if_pos rfl] at hslot
    exact ⟨some value, hslot, nofun⟩
  · rw [if_neg hother] at hslot
    exact ⟨value?, hslot, fun _ => id⟩

end Registry

end CallOrder
