/-
Adding up a measure over a list.
-/
namespace CallOrder

/-- The sum of a measure over the items of a list. -/
def total {α : Type} (measure : α → Nat) : List α → Nat
  | [] => 0
  | a :: rest => measure a + total measure rest

/-- Two lists with the same measures at every place have the same sum. -/
theorem total_eq_of_map_eq {α β : Type} {f : α → Nat} {g : β → Nat} :
    ∀ {as : List α} {bs : List β}, as.map f = bs.map g → total f as = total g bs
  | [], [], _ => rfl
  | [], _ :: _, h => by simp at h
  | _ :: _, [], h => by simp at h
  | a :: as, b :: bs, h => by
    simp only [List.map_cons, List.cons.injEq] at h
    simp only [total, h.1, total_eq_of_map_eq h.2]

/-- Where one item changes, the sum changes by what its measure does. -/
theorem total_modify {α : Type} (measure : α → Nat) (change : α → α) :
    ∀ (items : List α) (i : Nat) (a : α), items[i]? = some a →
      total measure (items.modify i change) + measure a
        = total measure items + measure (change a)
  | [], i, a, h => by simp at h
  | x :: rest, 0, a, h => by
    obtain rfl : x = a := by simpa using h
    simp only [List.modify_zero_cons, total]
    omega
  | x :: rest, i + 1, a, h => by
    have := total_modify measure change rest i a (by simpa using h)
    simp only [List.modify_succ_cons, total]
    omega

end CallOrder
