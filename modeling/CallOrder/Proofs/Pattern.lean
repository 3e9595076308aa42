/-
Setups of the three ordering combinators, and the order that they stand for.

A pattern is a setup of which every leaf declares one call: chains, parallel parts of
which there is at least one, and parts independent of each other.  Its node tree leaves
out what is independent, which is registered on its own when it is evaluated.

Read as a specification, a pattern says which of its calls lead which others
(`Ordered`): in a chain, every call of a part leads every call of the parts after it.
Parts that are independent are not ordered with anything around them, so they are
specifications of their own, the `freeParts` of the pattern.
-/
import CallOrder.CallPlan
import Mathlib.Data.List.Nodup

namespace CallOrder

/-- A setup of the ordering combinators over plans of type `π`. -/
inductive Pattern (π : Type) where
  | leaf (plan : π)
  | chain (parts : List (Pattern π))
  | parallel (first : Pattern π) (others : List (Pattern π))
  | independent (parts : List (Pattern π))

namespace Pattern

variable {π ι : Type} {r : ι → ι → Prop}

/-- The setup that declares a call at every leaf. -/
def setup : Pattern CallPlan → Setup Producer
  | leaf plan => .leaf (.declare plan)
  | chain parts => .chain (setupAll parts)
  | parallel first others => .parallel (setup first :: setupAll others)
  | independent parts => .independent (setupAll parts)
where
  /-- The setups of several patterns. -/
  setupAll : List (Pattern CallPlan) → List (Setup Producer)
    | [] => []
    | p :: rest => setup p :: setupAll rest

/-- The leaves from left to right. -/
def leaves : Pattern π → List π
  | leaf plan => [plan]
  | chain parts => leavesAll parts
  | parallel first others => leaves first ++ leavesAll others
  | independent parts => leavesAll parts
where
  /-- The leaves of several patterns. -/
  leavesAll : List (Pattern π) → List π
    | [] => []
    | p :: rest => leaves p ++ leavesAll rest

/-- The leaves that the pattern itself orders: those of independent parts are left out. -/
def spine : Pattern π → List π
  | leaf plan => [plan]
  | chain parts => spineAll parts
  | parallel first others => spine first ++ spineAll others
  | independent _ => []
where
  /-- The leaves that several patterns order. -/
  spineAll : List (Pattern π) → List π
    | [] => []
    | p :: rest => spine p ++ spineAll rest

/-- The independent parts, at any depth. -/
def freeParts : Pattern π → List (Pattern π)
  | leaf _ => []
  | chain parts => freeAll parts
  | parallel first others => freeParts first ++ freeAll others
  | independent parts => freeEach parts
where
  /-- The independent parts of several patterns. -/
  freeAll : List (Pattern π) → List (Pattern π)
    | [] => []
    | p :: rest => freeParts p ++ freeAll rest
  /-- Several patterns, each with its independent parts. -/
  freeEach : List (Pattern π) → List (Pattern π)
    | [] => []
    | p :: rest => p :: freeParts p ++ freeEach rest

/-! ### The leaves of parts -/

mutual

theorem spine_sublist : ∀ p : Pattern π, p.spine.Sublist p.leaves
  | .leaf _ => List.Sublist.refl _
  | .chain parts => spineAll_sublist parts
  | .parallel first others => (spine_sublist first).append (spineAll_sublist others)
  | .independent _ => List.nil_sublist _

theorem spineAll_sublist : ∀ parts : List (Pattern π),
    (spine.spineAll parts).Sublist (leaves.leavesAll parts)
  | [] => List.Sublist.refl _
  | p :: rest => (spine_sublist p).append (spineAll_sublist rest)

end

mutual

theorem freeParts_sublist : ∀ p : Pattern π, ∀ q ∈ p.freeParts, q.leaves.Sublist p.leaves
  | .leaf _, _, hq => absurd hq List.not_mem_nil
  | .chain parts, q, hq => freeAll_sublist parts q hq
  | .parallel first others, q, hq => by
      rcases List.mem_append.mp hq with hq | hq
      · exact (freeParts_sublist first q hq).trans (List.sublist_append_left ..)
      · exact (freeAll_sublist others q hq).trans (List.sublist_append_right ..)
  | .independent parts, q, hq => freeEach_sublist parts q hq

theorem freeAll_sublist : ∀ parts : List (Pattern π), ∀ q ∈ freeParts.freeAll parts,
    q.leaves.Sublist (leaves.leavesAll parts)
  | [], _, hq => absurd hq List.not_mem_nil
  | p :: rest, q, hq => by
      rcases List.mem_append.mp hq with hq | hq
      · exact (freeParts_sublist p q hq).trans (List.sublist_append_left ..)
      · exact (freeAll_sublist rest q hq).trans (List.sublist_append_right ..)

theorem freeEach_sublist : ∀ parts : List (Pattern π), ∀ q ∈ freeParts.freeEach parts,
    q.leaves.Sublist (leaves.leavesAll parts)
  | [], _, hq => absurd hq List.not_mem_nil
  | p :: rest, q, hq => by
      rcases List.mem_append.mp hq with hq | hq
      · rcases List.mem_cons.mp hq with rfl | hq
        · exact List.sublist_append_left ..
        · exact (freeParts_sublist p q hq).trans (List.sublist_append_left ..)
      · exact (freeEach_sublist rest q hq).trans (List.sublist_append_right ..)

end

/-! ### The order that a pattern stands for -/

/-- The relation holds between calls as the pattern orders them. -/
def Ordered (r : ι → ι → Prop) : Pattern ι → Prop
  | leaf _ => True
  | chain parts => inSequence parts
  | parallel first others => Ordered r first ∧ sideBySide others
  | independent _ => True
where
  /-- Each part is ordered in itself, and each call of a part leads those of all later ones. -/
  inSequence : List (Pattern ι) → Prop
    | [] => True
    | p :: rest =>
      Ordered r p ∧ inSequence rest ∧ ∀ x ∈ spine p, ∀ y ∈ spine.spineAll rest, r x y
  /-- Each part is ordered in itself. -/
  sideBySide : List (Pattern ι) → Prop
    | [] => True
    | p :: rest => Ordered r p ∧ sideBySide rest

mutual

theorem Ordered.congr {r' : ι → ι → Prop} : ∀ p : Pattern ι, p.spine.Nodup →
    (∀ x ∈ p.spine, ∀ y ∈ p.spine, x ≠ y → (r x y ↔ r' x y)) → (p.Ordered r ↔ p.Ordered r')
  | .leaf _, _, _ => Iff.rfl
  | .chain parts, hnodup, h => Ordered.congr_inSequence parts hnodup h
  | .parallel first others, hnodup, h => by
      obtain ⟨hfirst, hothers, -⟩ := List.nodup_append.mp hnodup
      exact and_congr
        (Ordered.congr first hfirst fun x hx y hy =>
          h x (List.mem_append_left _ hx) y (List.mem_append_left _ hy))
        (Ordered.congr_sideBySide others hothers fun x hx y hy =>
          h x (List.mem_append_right _ hx) y (List.mem_append_right _ hy))
  | .independent _, _, _ => Iff.rfl

theorem Ordered.congr_inSequence {r' : ι → ι → Prop} : ∀ parts : List (Pattern ι),
    (spine.spineAll parts).Nodup →
    (∀ x ∈ spine.spineAll parts, ∀ y ∈ spine.spineAll parts, x ≠ y → (r x y ↔ r' x y)) →
      (Ordered.inSequence r parts ↔ Ordered.inSequence r' parts)
  | [], _, _ => Iff.rfl
  | p :: rest, hnodup, h => by
      obtain ⟨hfirst, hothers, hapart⟩ := List.nodup_append.mp hnodup
      refine and_congr ?_ (and_congr ?_ ?_)
      · exact Ordered.congr p hfirst fun x hx y hy =>
          h x (List.mem_append_left _ hx) y (List.mem_append_left _ hy)
      · exact Ordered.congr_inSequence rest hothers fun x hx y hy =>
          h x (List.mem_append_right _ hx) y (List.mem_append_right _ hy)
      · refine forall₂_congr fun x hx => forall₂_congr fun y hy => ?_
        exact h x (List.mem_append_left _ hx) y (List.mem_append_right _ hy) (hapart x hx y hy)

theorem Ordered.congr_sideBySide {r' : ι → ι → Prop} : ∀ parts : List (Pattern ι),
    (spine.spineAll parts).Nodup →
    (∀ x ∈ spine.spineAll parts, ∀ y ∈ spine.spineAll parts, x ≠ y → (r x y ↔ r' x y)) →
      (Ordered.sideBySide r parts ↔ Ordered.sideBySide r' parts)
  | [], _, _ => Iff.rfl
  | p :: rest, hnodup, h => by
      obtain ⟨hfirst, hothers, -⟩ := List.nodup_append.mp hnodup
      exact and_congr
        (Ordered.congr p hfirst fun x hx y hy =>
          h x (List.mem_append_left _ hx) y (List.mem_append_left _ hy))
        (Ordered.congr_sideBySide rest hothers fun x hx y hy =>
          h x (List.mem_append_right _ hx) y (List.mem_append_right _ hy))

end

mutual

theorem Ordered.of_forall : ∀ p : Pattern ι,
    (∀ x ∈ p.spine, ∀ y ∈ p.spine, r x y) → p.Ordered r
  | .leaf _, _ => trivial
  | .chain parts, h => Ordered.of_forall_inSequence parts h
  | .parallel first others, h =>
    ⟨Ordered.of_forall first fun x hx y hy =>
        h x (List.mem_append_left _ hx) y (List.mem_append_left _ hy),
      Ordered.of_forall_sideBySide others fun x hx y hy =>
        h x (List.mem_append_right _ hx) y (List.mem_append_right _ hy)⟩
  | .independent _, _ => trivial

theorem Ordered.of_forall_inSequence : ∀ parts : List (Pattern ι),
    (∀ x ∈ spine.spineAll parts, ∀ y ∈ spine.spineAll parts, r x y) →
      Ordered.inSequence r parts
  | [], _ => trivial
  | p :: rest, h =>
    ⟨Ordered.of_forall p fun x hx y hy =>
        h x (List.mem_append_left _ hx) y (List.mem_append_left _ hy),
      Ordered.of_forall_inSequence rest fun x hx y hy =>
        h x (List.mem_append_right _ hx) y (List.mem_append_right _ hy),
      fun x hx y hy => h x (List.mem_append_left _ hx) y (List.mem_append_right _ hy)⟩

theorem Ordered.of_forall_sideBySide : ∀ parts : List (Pattern ι),
    (∀ x ∈ spine.spineAll parts, ∀ y ∈ spine.spineAll parts, r x y) →
      Ordered.sideBySide r parts
  | [], _ => trivial
  | p :: rest, h =>
    ⟨Ordered.of_forall p fun x hx y hy =>
        h x (List.mem_append_left _ hx) y (List.mem_append_left _ hy),
      Ordered.of_forall_sideBySide rest fun x hx y hy =>
        h x (List.mem_append_right _ hx) y (List.mem_append_right _ hy)⟩

end

/-! ### What a pattern is evaluated to -/

/-- The node tree that the pattern is evaluated to. -/
def node : Pattern ι → Node ι
  | leaf e => .single e
  | chain parts => .chain ((nodes parts).flatMap Node.links)
  | parallel first others => .parallel (node first :: nodes others)
  | independent _ => .empty
where
  /-- The node trees of several patterns. -/
  nodes : List (Pattern ι) → List (Node ι)
    | [] => []
    | p :: rest => node p :: nodes rest

/-- The relations that are registered while the pattern is evaluated. -/
def registered [DecidableEq ι] : Pattern ι → List (Constraint ι)
  | leaf _ => []
  | chain parts => registeredAll parts
  | parallel first others => registered first ++ registeredAll others
  | independent parts => registeredEach parts
where
  /-- The relations that several patterns register. -/
  registeredAll : List (Pattern ι) → List (Constraint ι)
    | [] => []
    | p :: rest => registered p ++ registeredAll rest
  /-- The relations that several independent patterns register, with their own. -/
  registeredEach : List (Pattern ι) → List (Constraint ι)
    | [] => []
    | p :: rest => registered p ++ ((node p).propagate []).constraints ++ registeredEach rest

/-! ### Calls by number -/

/-- The pattern over the calls that its leaves declare, of which the first gets the number `n`. -/
def label : Nat → Pattern π → Pattern CallId
  | n, leaf _ => leaf ⟨0, n⟩
  | n, chain parts => chain (labelAll n parts)
  | n, parallel first others =>
    parallel (label n first) (labelAll (n + (leaves first).length) others)
  | n, independent parts => independent (labelAll n parts)
where
  /-- Several patterns over the calls that they declare one after another. -/
  labelAll : Nat → List (Pattern π) → List (Pattern CallId)
    | _, [] => []
    | n, p :: rest => label n p :: labelAll (n + (leaves p).length) rest

/-- The calls of that many leaves, of which the first has the number `n`. -/
def ids (n count : Nat) : List CallId :=
  (List.range' n count).map (CallId.mk 0)

theorem ids_append (n k m : Nat) : ids n k ++ ids (n + k) m = ids n (k + m) := by
  rw [ids, ids, ids, ← List.map_append, ← List.range'_append]
  simp

theorem mem_ids {n count : Nat} {id : CallId} :
    id ∈ ids n count ↔ id.controller = 0 ∧ n ≤ id.index ∧ id.index < n + count := by
  rw [ids, List.mem_map]
  constructor
  · intro h
    obtain ⟨i, hi, rfl⟩ := h
    exact ⟨rfl, List.mem_range'_1.mp hi⟩
  · intro h
    obtain ⟨hc, hi⟩ := h
    refine ⟨id.index, List.mem_range'_1.mpr hi, ?_⟩
    rw [← hc]

theorem nodup_ids (n count : Nat) : (ids n count).Nodup :=
  List.Nodup.map (fun _ _ h => congrArg CallId.index h) List.nodup_range'

mutual

theorem leaves_label : ∀ (p : Pattern π) (n : Nat), (p.label n).leaves = ids n p.leaves.length
  | .leaf _, _ => rfl
  | .chain parts, n => leavesAll_label parts n
  | .parallel first others, n => by
      simp only [label, leaves, leaves_label first, leavesAll_label others, ids_append,
        List.length_append]
  | .independent parts, n => leavesAll_label parts n

theorem leavesAll_label : ∀ (parts : List (Pattern π)) (n : Nat),
    leaves.leavesAll (label.labelAll n parts) = ids n (leaves.leavesAll parts).length
  | [], _ => rfl
  | p :: rest, n => by
      simp only [label.labelAll, leaves.leavesAll, leaves_label p, leavesAll_label rest,
        ids_append, List.length_append]

end

end Pattern

end CallOrder
