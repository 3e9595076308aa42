/-
Equal keys are equal calls.

A controller compares an expected call with an actual one by `sameKey`, which is
not an equivalence: a call with a number that is not a number among its arguments
has the key of nothing, itself included.  What holds is that two calls of the same
key are the same call (`eq_of_sameKey`).  So among calls that have their own key
and are told apart by it, which is what `Distinguishable` says, the key can be read
as equality.
-/
import CallOrder.Signature
import Mathlib.Data.List.Nodup

namespace CallOrder

namespace Value

/-! ### Values that are found equal are equal -/

mutual

theorem eq_of_same : ∀ {v w : Value}, same v w = true → v = w
  | .text _, w, h => by cases w <;> simp_all [same]
  | .number _, w, h => by cases w <;> simp_all [same]
  | .truth _, w, h => by cases w <;> simp_all [same]
  | .unit, w, h => by cases w <;> simp_all [same]
  | .char _, w, h => by cases w <;> simp_all [same]
  | .nan, w, h => by simp [same] at h
  | .none, w, h => by cases w <;> simp_all [same]
  | .some v, w, h => by
      cases w with
      | some w =>
          simp only [same] at h
          rw [eq_of_same h]
      | _ => simp [same] at h
  | .list vs, w, h => by
      cases w with
      | list ws =>
          simp only [same] at h
          rw [eq_of_allSame h]
      | _ => simp [same] at h

theorem eq_of_allSame : ∀ {vs ws : List Value}, same.allSame vs ws = true → vs = ws
  | [], [], _ => rfl
  | [], _ :: _, h => by simp [same.allSame] at h
  | _ :: _, [], h => by simp [same.allSame] at h
  | v :: vs, w :: ws, h => by
      simp only [same.allSame, Bool.and_eq_true] at h
      rw [eq_of_same h.1, eq_of_allSame h.2]

end

end Value

namespace Signature

theorem sameKey_iff_and {s t : Signature} :
    s.sameKey t = true ↔ s.sameMethod t = true ∧ s.sameArgs t = true := by
  simp [sameKey]

/-- **Two calls of the same key are the same call.** -/
theorem eq_of_sameKey {s t : Signature} (h : s.sameKey t = true) : s = t := by
  obtain ⟨hmethod, hargs⟩ := sameKey_iff_and.mp h
  simp only [sameMethod, Bool.and_eq_true, decide_eq_true_eq] at hmethod
  cases s
  cases t
  simp only [mk.injEq]
  exact ⟨hmethod.1, hmethod.2, Value.eq_of_allSame hargs⟩

/-- Where a call has its own key, having that key is being that call. -/
theorem sameKey_iff {s t : Signature} (hs : s.sameKey s = true) :
    s.sameKey t = true ↔ s = t :=
  ⟨eq_of_sameKey, fun h => h ▸ hs⟩

/-- No two of the calls have the same key. -/
def Apart (calls : List Signature) : Prop :=
  calls.Pairwise fun c d => c.sameKey d = false

instance (calls : List Signature) : Decidable (Apart calls) :=
  inferInstanceAs <| Decidable (calls.Pairwise fun c d => c.sameKey d = false)

/-- A key is found at one place only. -/
theorem Apart.index_unique {calls : List Signature} (h : Apart calls) {i j : Nat} {c d : Signature}
    (hi : calls[i]? = some c) (hj : calls[j]? = some d) (hcd : c.sameKey d = true) : i = j := by
  obtain rfl : c = d := eq_of_sameKey hcd
  obtain ⟨hilt, hic⟩ := List.getElem?_eq_some_iff.mp hi
  obtain ⟨hjlt, hjc⟩ := List.getElem?_eq_some_iff.mp hj
  have hpairs := List.pairwise_iff_getElem.mp h
  rcases Nat.lt_trichotomy i j with hij | hij | hij
  · have hfalse := hpairs i j hilt hjlt hij
    rw [hic, hjc, hcd] at hfalse
    exact Bool.noConfusion hfalse
  · exact hij
  · have hfalse := hpairs j i hjlt hilt hij
    rw [hic, hjc, hcd] at hfalse
    exact Bool.noConfusion hfalse

/-- Calls that have their own keys and are told apart by them. -/
structure Distinguishable (calls : List Signature) : Prop where
  /-- Each call has its own key. -/
  own : ∀ c ∈ calls, c.sameKey c = true
  apart : Apart calls

instance (calls : List Signature) : Decidable (Distinguishable calls) :=
  decidable_of_iff ((∀ c ∈ calls, c.sameKey c = true) ∧ Apart calls)
    ⟨fun h => ⟨h.1, h.2⟩, fun h => ⟨h.own, h.apart⟩⟩

namespace Distinguishable

variable {calls : List Signature}

/-- Distinguishable calls are all different. -/
theorem nodup (h : Distinguishable calls) : calls.Nodup := by
  refine List.Pairwise.imp_of_mem ?_ h.apart
  rintro c d hc - hcd rfl
  rw [h.own c hc] at hcd
  exact Bool.noConfusion hcd

theorem sublist {some : List Signature} (h : Distinguishable calls) (hsome : some.Sublist calls) :
    Distinguishable some :=
  ⟨fun c hc => h.own c (hsome.subset hc), List.Pairwise.sublist hsome h.apart⟩

theorem sameKey_iff (h : Distinguishable calls) {c d : Signature} (hc : c ∈ calls) :
    c.sameKey d = true ↔ c = d :=
  Signature.sameKey_iff (h.own c hc)

end Distinguishable

end Signature

end CallOrder
