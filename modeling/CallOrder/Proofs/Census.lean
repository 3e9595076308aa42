/-
How often a walk finds the same thing.

A frontier is a list, and parallel parts join what they leave.  A part that hands on what it
started from leaves it as it was; where two parallel parts do so there are two copies
afterwards, and whatever comes next is ordered after each of them.  The order is the same
as without the second copy, since a relation counts once, but from block to block the
copies pile up.

How many there are is a matter of the tree alone (`Node.census`).  Copies multiply along a
chain and add up side by side, and with them goes how often each leaf is ordered after
what comes before the tree, and how often it is left for what follows.  The recursion is
that of the profile, with numbers in the place of sets (`describes_census`).  So it can be
said exactly when a walk finds something twice (`frontier_repeats`).  It never does in a
tree of which every parallel group hands on what it starts from no more than once
(`passesOnce`).
-/
import CallOrder.Proofs.Profile
import Mathlib.Data.List.Count
import Mathlib.Data.List.Dedup
import Mathlib.Tactic.Ring

namespace CallOrder

variable {ι : Type}

/-- How often a tree has to do with what comes before and after it. -/
structure Census (ι : Type) where
  /-- How often an expectation comes after what comes before the tree. -/
  entries : ι → Nat
  /-- How often an expectation is left for what follows the tree. -/
  exits : ι → Nat
  /-- How often a relation is there whatever comes before. -/
  inner : Constraint ι → Nat
  /-- How many copies of what comes before the tree are left for what follows it. -/
  copies : Nat

variable [DecidableEq ι]

/-- How often a relation is there if predecessors are there so often, and successors so often. -/
def Constraint.crossing (predecessors successors : ι → Nat) (r : Constraint ι) : Nat :=
  if r.predecessor = r.successor then 0
  else successors r.successor * predecessors r.predecessor

namespace Census

omit [DecidableEq ι] in
/-- Of nothing in a chain. -/
def through : Census ι :=
  ⟨fun _ => 0, fun _ => 0, fun _ => 0, 1⟩

omit [DecidableEq ι] in
/-- Of no branches. -/
def blocked : Census ι :=
  ⟨fun _ => 0, fun _ => 0, fun _ => 0, 0⟩

/-- Of one expectation. -/
def single (e : ι) : Census ι :=
  ⟨fun x => if x = e then 1 else 0, fun x => if x = e then 1 else 0, fun _ => 0, 0⟩

omit [DecidableEq ι] in
/-- Of two trees from the same frontier. -/
def beside (p q : Census ι) : Census ι where
  entries := fun e => p.entries e + q.entries e
  exits := fun e => p.exits e + q.exits e
  inner := fun r => p.inner r + q.inner r
  copies := p.copies + q.copies

omit [DecidableEq ι] in
/-- Of branches that are detached. -/
def detached (p : Census ι) : Cut → Census ι
  | .head => { p with entries := fun _ => 0, copies := 1 }
  | .tail => { p with exits := fun _ => 0, copies := 1 }
  | .both => { p with entries := fun _ => 0, exits := fun _ => 0, copies := 1 }

/-- Of one tree after another. -/
def andThen (p q : Census ι) : Census ι where
  entries := fun e => p.entries e + p.copies * q.entries e
  exits := fun e => q.exits e + q.copies * p.exits e
  inner := fun r => p.inner r + q.inner r + r.crossing p.exits q.entries
  copies := p.copies * q.copies

end Census

/-- The census of a tree. -/
def Node.census : Node ι → Census ι
  | single e => .single e
  | chain parts => inSequence parts
  | parallel parts => sideBySide parts
  | detach side parts => (sideBySide parts).detached side
  | empty => .through
where
  /-- The census of trees one after another. -/
  inSequence : List (Node ι) → Census ι
    | [] => .through
    | n :: rest => (census n).andThen (inSequence rest)
  /-- The census of trees side by side. -/
  sideBySide : List (Node ι) → Census ι
    | [] => .blocked
    | n :: rest => (census n).beside (sideBySide rest)

/-! ### Walks by their census -/

namespace Constraint

theorem crossing_add (f g successors : ι → Nat) (r : Constraint ι) :
    r.crossing (fun e => f e + g e) successors
      = r.crossing f successors + r.crossing g successors := by
  unfold crossing
  split
  · rfl
  · exact Nat.mul_add _ _ _

theorem crossing_mul (k : Nat) (f successors : ι → Nat) (r : Constraint ι) :
    r.crossing (fun e => k * f e) successors
      = r.crossing f (fun e => k * successors e) := by
  unfold crossing
  split
  · rfl
  · rw [Nat.mul_left_comm, Nat.mul_assoc]

theorem add_crossing (f successors successors' : ι → Nat) (r : Constraint ι) :
    r.crossing f (fun e => successors e + successors' e)
      = r.crossing f successors + r.crossing f successors' := by
  unfold crossing
  split
  · rfl
  · exact Nat.add_mul _ _ _

/-- An expectation is ordered after each of a frontier as often as that is there. -/
theorem count_after (anchors : List ι) (e : ι) (r : Constraint ι) :
    (after anchors e).count r
      = r.crossing (fun a => anchors.count a) fun x => if x = e then 1 else 0 := by
  obtain ⟨s, p⟩ := r
  by_cases hs : s = e
  · subst hs
    have hinj : Function.Injective fun a => (⟨s, a⟩ : Constraint ι) :=
      fun a b h => congrArg predecessor h
    rw [after, List.count_map_of_injective _ _ hinj, crossing]
    by_cases hp : p = s
    · rw [if_pos hp, List.count_eq_zero]
      simp [hp]
    · rw [if_neg hp, List.count_filter (by simpa using hp)]
      simp
  · rw [crossing, List.count_eq_zero.mpr fun h => hs (mem_after.mp h).1]
    simp [hs]

end Constraint

namespace Census

/-- The walks, one for each frontier to start from, are those over a tree of this census. -/
structure Describes (c : Census ι) (walk : List ι → Walk ι) : Prop where
  constraints : ∀ anchors r, (walk anchors).constraints.count r
    = c.inner r + r.crossing (fun a => anchors.count a) c.entries
  frontier : ∀ anchors e, (walk anchors).frontier.count e
    = c.exits e + c.copies * anchors.count e

namespace Describes

variable {p q : Census ι} {v w : List ι → Walk ι}

theorem single (e : ι) :
    (Census.single e).Describes fun anchors => (Node.single e).propagate anchors where
  constraints := by
    intro anchors r
    show (Constraint.after anchors e).count r = 0 + _
    rw [Constraint.count_after, Nat.zero_add]
    rfl
  frontier := by
    intro anchors x
    show [e].count x = (if x = e then 1 else 0) + 0 * anchors.count x
    rw [Nat.zero_mul, Nat.add_zero]
    by_cases h : x = e
    · simp [h]
    · simp [h, Ne.symm h]

/-- One walk from where another ended: it meets the exits of the first tree, and each copy of what
that started from. -/
theorem andThen (hp : p.Describes v) (hq : q.Describes w) :
    (p.andThen q).Describes fun anchors =>
      let first := v anchors
      let others := w first.frontier
      ⟨first.constraints ++ others.constraints, others.frontier⟩ where
  constraints := by
    intro anchors r
    have hmet : (fun e => (v anchors).frontier.count e)
        = fun e => p.exits e + p.copies * anchors.count e := funext (hp.frontier anchors)
    show _ = p.inner r + q.inner r + r.crossing p.exits q.entries
      + r.crossing _ (fun e => p.entries e + p.copies * q.entries e)
    rw [List.count_append, hp.constraints, hq.constraints, hmet, Constraint.crossing_add,
      Constraint.crossing_mul, Constraint.add_crossing]
    ring
  frontier := by
    intro anchors e
    show _ = q.exits e + q.copies * p.exits e + p.copies * q.copies * anchors.count e
    rw [hq.frontier, hp.frontier]
    ring

/-- Two walks from the same frontier. -/
theorem beside (hp : p.Describes v) (hq : q.Describes w) :
    (p.beside q).Describes fun anchors =>
      ⟨(v anchors).constraints ++ (w anchors).constraints,
        (v anchors).frontier ++ (w anchors).frontier⟩ where
  constraints := by
    intro anchors r
    show _ = p.inner r + q.inner r + r.crossing _ (fun e => p.entries e + q.entries e)
    rw [List.count_append, hp.constraints, hq.constraints, Constraint.add_crossing]
    ring
  frontier := by
    intro anchors e
    show _ = p.exits e + q.exits e + (p.copies + q.copies) * anchors.count e
    rw [List.count_append, hp.frontier, hq.frontier]
    ring

/-- Branches that are detached start from nothing, or leave one copy of what there was before, or
both. -/
theorem detached {parts : List (Node ι)}
    (hp : p.Describes fun anchors => Node.propagate.sideBySide anchors parts) (side : Cut) :
    (p.detached side).Describes fun anchors => (Node.detach side parts).propagate anchors := by
  have hnothing (r : Constraint ι) :
      (Node.propagate.sideBySide [] parts).constraints.count r = p.inner r := by
    simpa [Constraint.crossing] using hp.constraints [] r
  have hleft (e : ι) : (Node.propagate.sideBySide [] parts).frontier.count e = p.exits e := by
    simpa using hp.frontier [] e
  cases side with
  | head =>
      refine ⟨fun anchors r => ?_, fun anchors e => ?_⟩
      · simpa [Node.propagate, Census.detached, Constraint.crossing] using hnothing r
      · simp [Node.propagate, Census.detached, hleft, Nat.add_comm]
  | tail =>
      refine ⟨fun anchors r => hp.constraints anchors r, fun anchors e => ?_⟩
      simp [Node.propagate, Census.detached]
  | both =>
      refine ⟨fun anchors r => ?_, fun anchors e => ?_⟩
      · simpa [Node.propagate, Census.detached, Constraint.crossing] using hnothing r
      · simp [Node.propagate, Census.detached]

end Describes

end Census

namespace Node

mutual

/-- **The walk over a tree is the one of its census.** -/
theorem describes_census : ∀ n : Node ι, n.census.Describes fun anchors => n.propagate anchors
  | .single e => .single e
  | .chain parts => census_inSequence parts
  | .parallel parts => census_sideBySide parts
  | .detach side parts => (census_sideBySide parts).detached side
  | .empty => ⟨by simp [census, Census.through, propagate, Constraint.crossing],
      by simp [census, Census.through, propagate]⟩

theorem census_inSequence : ∀ parts : List (Node ι),
    (census.inSequence parts).Describes fun anchors => propagate.inSequence anchors parts
  | [] => ⟨by simp [census.inSequence, Census.through, propagate.inSequence, Constraint.crossing],
      by simp [census.inSequence, Census.through, propagate.inSequence]⟩
  | n :: rest => (describes_census n).andThen (census_inSequence rest)

theorem census_sideBySide : ∀ parts : List (Node ι),
    (census.sideBySide parts).Describes fun anchors => propagate.sideBySide anchors parts
  | [] => ⟨by simp [census.sideBySide, Census.blocked, propagate.sideBySide, Constraint.crossing],
      by simp [census.sideBySide, Census.blocked, propagate.sideBySide]⟩
  | n :: rest => (describes_census n).beside (census_sideBySide rest)

end

end Node

/-! ### When a walk finds something twice

Nothing but the leaves of a tree is counted in its census.
-/

namespace Census

variable {p q c : Census ι} {xs ys : List ι} {anchors : List ι} {walk : List ι → Walk ι}

theorem add_le_one {m n : Nat} (hm : m ≤ 1) (hn : n ≤ 1) (h : m = 0 ∨ n = 0) : m + n ≤ 1 := by
  omega

theorem ite_le_one {cond : Prop} [Decidable cond] {m n : Nat} (hm : m ≤ 1) (hn : n ≤ 1) :
    (if cond then m else n) ≤ 1 := by
  split
  · exact hm
  · exact hn

omit [DecidableEq ι] in
/-- The census counts only these expectations. -/
structure On (c : Census ι) (xs : List ι) : Prop where
  entries : ∀ e, e ∉ xs → c.entries e = 0
  exits : ∀ e, e ∉ xs → c.exits e = 0
  inner : ∀ r, r.successor ∉ xs ∨ r.predecessor ∉ xs → c.inner r = 0

omit [DecidableEq ι] in
/-- Nothing is counted twice. -/
structure Once (c : Census ι) : Prop where
  entries : ∀ e, c.entries e ≤ 1
  exits : ∀ e, c.exits e ≤ 1
  inner : ∀ r, c.inner r ≤ 1

theorem On.single (e : ι) : (Census.single e).On [e] where
  entries := fun _ hx => if_neg fun h => hx (List.mem_singleton.mpr h)
  exits := fun _ hx => if_neg fun h => hx (List.mem_singleton.mpr h)
  inner := fun _ _ => rfl

theorem On.andThen (hp : p.On xs) (hq : q.On ys) : (p.andThen q).On (xs ++ ys) where
  entries := by
    intro e he
    rw [List.mem_append, not_or] at he
    simp [Census.andThen, hp.entries e he.1, hq.entries e he.2]
  exits := by
    intro e he
    rw [List.mem_append, not_or] at he
    simp [Census.andThen, hp.exits e he.1, hq.exits e he.2]
  inner := by
    intro r hr
    rw [List.mem_append, List.mem_append, not_or, not_or] at hr
    have hcrossing : r.crossing p.exits q.entries = 0 := by
      unfold Constraint.crossing
      rcases hr with hr | hr
      · simp [hq.entries _ hr.2]
      · simp [hp.exits _ hr.1]
    simp [Census.andThen, hcrossing, hp.inner r (hr.imp And.left And.left),
      hq.inner r (hr.imp And.right And.right)]

omit [DecidableEq ι] in
theorem On.beside (hp : p.On xs) (hq : q.On ys) : (p.beside q).On (xs ++ ys) where
  entries := by
    intro e he
    rw [List.mem_append, not_or] at he
    simp [Census.beside, hp.entries e he.1, hq.entries e he.2]
  exits := by
    intro e he
    rw [List.mem_append, not_or] at he
    simp [Census.beside, hp.exits e he.1, hq.exits e he.2]
  inner := by
    intro r hr
    rw [List.mem_append, List.mem_append, not_or, not_or] at hr
    simp [Census.beside, hp.inner r (hr.imp And.left And.left),
      hq.inner r (hr.imp And.right And.right)]

omit [DecidableEq ι] in
theorem On.detached (hp : p.On xs) (side : Cut) : (p.detached side).On xs := by
  cases side with
  | head => exact ⟨fun _ _ => rfl, hp.exits, hp.inner⟩
  | tail => exact ⟨hp.entries, fun _ _ => rfl, hp.inner⟩
  | both => exact ⟨fun _ _ => rfl, fun _ _ => rfl, hp.inner⟩

theorem Once.single (e : ι) : (Census.single e).Once where
  entries := fun _ => ite_le_one (Nat.le_refl 1) (Nat.zero_le 1)
  exits := fun _ => ite_le_one (Nat.le_refl 1) (Nat.zero_le 1)
  inner := fun _ => Nat.zero_le _

omit [DecidableEq ι] in
/-- What is counted in trees that have no leaf in common is counted in one of them. -/
theorem apart {f g : ι → Nat} (hf : ∀ e, e ∉ xs → f e = 0) (hg : ∀ e, e ∉ ys → g e = 0)
    (hapart : ∀ x ∈ xs, x ∉ ys) (e : ι) : f e = 0 ∨ g e = 0 := by
  by_cases he : e ∈ xs
  · exact Or.inr (hg e (hapart e he))
  · exact Or.inl (hf e he)

omit [DecidableEq ι] in
theorem apart_inner (hp : p.On xs) (hq : q.On ys) (hapart : ∀ x ∈ xs, x ∉ ys)
    (r : Constraint ι) : p.inner r = 0 ∨ q.inner r = 0 := by
  by_cases hr : r.successor ∈ xs
  · exact Or.inr (hq.inner r (Or.inl (hapart _ hr)))
  · exact Or.inl (hp.inner r (Or.inl hr))

/-- A relation that leads from one tree to the other is in neither. -/
theorem apart_crossing (hp : p.On xs) (hq : q.On ys) (hapart : ∀ x ∈ xs, x ∉ ys)
    (r : Constraint ι) : p.inner r + q.inner r = 0 ∨ r.crossing p.exits q.entries = 0 := by
  by_cases hs : r.successor ∈ ys
  · by_cases hpred : r.predecessor ∈ xs
    · refine Or.inl ?_
      rw [hp.inner r (Or.inl fun h => hapart _ h hs), hq.inner r (Or.inr (hapart _ hpred))]
    · refine Or.inr ?_
      simp [Constraint.crossing, hp.exits _ hpred]
  · refine Or.inr ?_
    simp [Constraint.crossing, hq.entries _ hs]

omit [DecidableEq ι] in
theorem Once.beside (hp : p.Once) (hq : q.Once) (hpOn : p.On xs) (hqOn : q.On ys)
    (hapart : ∀ x ∈ xs, x ∉ ys) : (p.beside q).Once where
  entries := fun e => add_le_one (hp.entries e) (hq.entries e)
    (apart hpOn.entries hqOn.entries hapart e)
  exits := fun e => add_le_one (hp.exits e) (hq.exits e) (apart hpOn.exits hqOn.exits hapart e)
  inner := fun r => add_le_one (hp.inner r) (hq.inner r) (apart_inner hpOn hqOn hapart r)

/-- One tree after another, if neither leaves more than one copy. -/
theorem Once.andThen (hp : p.Once) (hq : q.Once) (hpOn : p.On xs) (hqOn : q.On ys)
    (hapart : ∀ x ∈ xs, x ∉ ys) (hpCopies : p.copies ≤ 1) (hqCopies : q.copies ≤ 1) :
    (p.andThen q).Once where
  entries := fun e => by
    refine add_le_one (hp.entries e) (Nat.mul_le_mul hpCopies (hq.entries e)) ?_
    exact (apart hpOn.entries hqOn.entries hapart e).imp_right fun h => by rw [h, Nat.mul_zero]
  exits := fun e => by
    refine add_le_one (hq.exits e) (Nat.mul_le_mul hqCopies (hp.exits e)) ?_
    exact (apart hpOn.exits hqOn.exits hapart e).symm.imp_right fun h => by rw [h, Nat.mul_zero]
  inner := fun r => by
    have hcrossing : r.crossing p.exits q.entries ≤ 1 :=
      ite_le_one (Nat.zero_le 1) (Nat.mul_le_mul (hq.entries _) (hp.exits _))
    exact add_le_one (add_le_one (hp.inner r) (hq.inner r) (apart_inner hpOn hqOn hapart r))
      hcrossing (apart_crossing hpOn hqOn hapart r)

omit [DecidableEq ι] in
theorem Once.detached (hp : p.Once) (side : Cut) : (p.detached side).Once := by
  cases side with
  | head => exact ⟨fun _ => Nat.zero_le _, hp.exits, hp.inner⟩
  | tail => exact ⟨hp.entries, fun _ => Nat.zero_le _, hp.inner⟩
  | both => exact ⟨fun _ => Nat.zero_le _, fun _ => Nat.zero_le _, hp.inner⟩

/-- The frontier repeats nothing if no exit is counted twice, and no copy but one is left of what
there was before. -/
theorem Describes.nodup_frontier_iff (h : c.Describes walk) (hon : c.On xs)
    (hanchors : anchors.Nodup) (hfresh : ∀ a ∈ anchors, a ∉ xs) :
    (walk anchors).frontier.Nodup ↔ (∀ e, c.exits e ≤ 1) ∧ (anchors = [] ∨ c.copies ≤ 1) := by
  rw [List.nodup_iff_count_le_one]
  simp only [h.frontier]
  constructor
  · intro hcount
    refine ⟨fun e => Nat.le_trans (Nat.le_add_right _ _) (hcount e), ?_⟩
    cases anchors with
    | nil => exact Or.inl rfl
    | cons a rest =>
        have ha := hcount a
        rw [List.count_eq_one_of_mem hanchors List.mem_cons_self] at ha
        omega
  · rintro ⟨hexits, hcopies⟩ e
    by_cases he : e ∈ anchors
    · have hcopies := hcopies.resolve_left (List.ne_nil_of_mem he)
      rw [hon.exits e (hfresh e he), List.count_eq_one_of_mem hanchors he]
      omega
    · rw [List.count_eq_zero.mpr he]
      exact hexits e

/-- No relation is registered twice if no inner one is counted twice and, if there is anything
before the tree, no entry is. -/
theorem Describes.nodup_constraints_iff (h : c.Describes walk) (hon : c.On xs)
    (hanchors : anchors.Nodup) (hfresh : ∀ a ∈ anchors, a ∉ xs) :
    (walk anchors).constraints.Nodup ↔
      (∀ r, c.inner r ≤ 1) ∧ (anchors = [] ∨ ∀ e, c.entries e ≤ 1) := by
  rw [List.nodup_iff_count_le_one]
  simp only [h.constraints]
  constructor
  · intro hcount
    refine ⟨fun r => Nat.le_trans (Nat.le_add_right _ _) (hcount r), ?_⟩
    cases anchors with
    | nil => exact Or.inl rfl
    | cons a rest =>
        refine Or.inr fun e => ?_
        by_cases he : e ∈ xs
        · have hr := hcount ⟨e, a⟩
          have hne : a ≠ e := fun hae => hfresh a List.mem_cons_self (hae ▸ he)
          rw [Constraint.crossing, if_neg hne,
            List.count_eq_one_of_mem hanchors List.mem_cons_self, Nat.mul_one] at hr
          exact Nat.le_trans (Nat.le_add_left _ _) hr
        · rw [hon.entries e he]
          exact Nat.zero_le 1
  · rintro ⟨hinner, hentries⟩ r
    by_cases hr : r.predecessor ∈ anchors
    · have hentry := hentries.resolve_left (List.ne_nil_of_mem hr) r.successor
      rw [hon.inner r (Or.inr (hfresh _ hr)), Constraint.crossing,
        List.count_eq_one_of_mem hanchors hr]
      split <;> omega
    · have hzero : r.crossing (fun a => anchors.count a) c.entries = 0 := by
        unfold Constraint.crossing
        simp [List.count_eq_zero.mpr hr]
      rw [hzero]
      exact hinner r

end Census

namespace Node

mutual

theorem on_census : ∀ n : Node ι, n.census.On n.leaves
  | .single e => .single e
  | .chain parts => on_inSequence parts
  | .parallel parts => on_sideBySide parts
  | .detach side parts => (on_sideBySide parts).detached side
  | .empty => ⟨fun _ _ => rfl, fun _ _ => rfl, fun _ _ => rfl⟩

theorem on_inSequence : ∀ parts : List (Node ι),
    (census.inSequence parts).On (leaves.leavesAll parts)
  | [] => ⟨fun _ _ => rfl, fun _ _ => rfl, fun _ _ => rfl⟩
  | n :: rest => (on_census n).andThen (on_inSequence rest)

theorem on_sideBySide : ∀ parts : List (Node ι),
    (census.sideBySide parts).On (leaves.leavesAll parts)
  | [] => ⟨fun _ _ => rfl, fun _ _ => rfl, fun _ _ => rfl⟩
  | n :: rest => (on_census n).beside (on_sideBySide rest)

end

/-- Whether every parallel group of the tree hands on what it starts from no more than once. -/
def passesOnce : Node ι → Bool
  | single _ => true
  | chain parts => each parts
  | parallel parts => decide ((census.sideBySide parts).copies ≤ 1) && each parts
  | detach _ parts => each parts
  | empty => true
where
  /-- Whether it is so in each of several trees. -/
  each : List (Node ι) → Bool
    | [] => true
    | n :: rest => passesOnce n && each rest

mutual

theorem copies_le_one : ∀ n : Node ι, n.passesOnce = true → n.census.copies ≤ 1
  | .single _, _ => Nat.zero_le 1
  | .chain parts, h => copies_inSequence parts h
  | .parallel _, h => of_decide_eq_true (Bool.and_eq_true_iff.mp h).1
  | .detach .head _, _ => Nat.le_refl 1
  | .detach .tail _, _ => Nat.le_refl 1
  | .detach .both _, _ => Nat.le_refl 1
  | .empty, _ => Nat.le_refl 1

theorem copies_inSequence : ∀ parts : List (Node ι), passesOnce.each parts = true →
    (census.inSequence parts).copies ≤ 1
  | [], _ => Nat.le_refl 1
  | n :: rest, h =>
    Nat.mul_le_mul (copies_le_one n (Bool.and_eq_true_iff.mp h).1)
      (copies_inSequence rest (Bool.and_eq_true_iff.mp h).2)

end

mutual

/-- **Where every parallel group hands on what it starts from no more than once, nothing is counted
twice.** -/
theorem once_census : ∀ n : Node ι, n.passesOnce = true → n.leaves.Nodup → n.census.Once
  | .single e, _, _ => .single e
  | .chain parts, h, hnodup => once_inSequence parts h hnodup
  | .parallel parts, h, hnodup => once_sideBySide parts (Bool.and_eq_true_iff.mp h).2 hnodup
  | .detach side parts, h, hnodup => (once_sideBySide parts h hnodup).detached side
  | .empty, _, _ => ⟨fun _ => Nat.zero_le 1, fun _ => Nat.zero_le 1, fun _ => Nat.zero_le 1⟩

theorem once_inSequence : ∀ parts : List (Node ι), passesOnce.each parts = true →
    (leaves.leavesAll parts).Nodup → (census.inSequence parts).Once
  | [], _, _ => ⟨fun _ => Nat.zero_le 1, fun _ => Nat.zero_le 1, fun _ => Nat.zero_le 1⟩
  | n :: rest, h, hnodup => by
      obtain ⟨hn, hrest⟩ := Bool.and_eq_true_iff.mp h
      obtain ⟨hown, hothers, -⟩ := List.nodup_append.mp hnodup
      exact (once_census n hn hown).andThen (once_inSequence rest hrest hothers) (on_census n)
        (on_inSequence rest) (fun _ hx => leaves_apart hnodup hx) (copies_le_one n hn)
        (copies_inSequence rest hrest)

theorem once_sideBySide : ∀ parts : List (Node ι), passesOnce.each parts = true →
    (leaves.leavesAll parts).Nodup → (census.sideBySide parts).Once
  | [], _, _ => ⟨fun _ => Nat.zero_le 1, fun _ => Nat.zero_le 1, fun _ => Nat.zero_le 1⟩
  | n :: rest, h, hnodup => by
      obtain ⟨hn, hrest⟩ := Bool.and_eq_true_iff.mp h
      obtain ⟨hown, hothers, -⟩ := List.nodup_append.mp hnodup
      exact (once_census n hn hown).beside (once_sideBySide rest hrest hothers) (on_census n)
        (on_sideBySide rest) fun _ hx => leaves_apart hnodup hx

end

/-! ### How much there is to register at a leaf -/

variable {n : Node ι} {anchors before later : List ι} {e : ι} {r : Constraint ι}

/-- A leaf is ordered after what is before it only. -/
theorem predecessor_mem_before (hnodup : n.leaves.Nodup) (hsplit : n.leaves = before ++ e :: later)
    (hr : r ∈ (n.propagate anchors).constraints) (hs : r.successor = e) :
    r.predecessor ∈ anchors ++ before := by
  have hpairs : n.leaves.Pairwise fun p s => s = e → p ∈ anchors ++ before := by
    rw [hsplit] at hnodup ⊢
    obtain ⟨-, hlater, hapart⟩ := List.nodup_append.mp hnodup
    refine List.pairwise_append.mpr ⟨?_, List.pairwise_cons.mpr ⟨?_, ?_⟩, ?_⟩
    · exact List.pairwise_of_forall_mem_list fun p hp _ _ _ => List.mem_append_right _ hp
    · exact fun s hmem heq => absurd (heq ▸ hmem) (List.nodup_cons.mp hlater).1
    · refine List.pairwise_of_forall_mem_list fun p _ s hmem heq => ?_
      exact absurd (heq ▸ hmem) (List.nodup_cons.mp hlater).1
    · exact fun p hp s _ _ => List.mem_append_right _ hp
  exact satisfies_propagate (r := fun p s => s = e → p ∈ anchors ++ before) n anchors
    (fun a ha _ _ _ => List.mem_append_left _ ha) hpairs r hr hs

/-- So there are no more different relations of a leaf than there is before it. -/
theorem length_dedup_le (hnodup : n.leaves.Nodup) (hsplit : n.leaves = before ++ e :: later) :
    ((n.propagate anchors).constraints.filter (·.successor = e)).dedup.length
      ≤ anchors.length + before.length := by
  have hmem {r : Constraint ι}
      (hr : r ∈ ((n.propagate anchors).constraints.filter (·.successor = e)).dedup) :
      r ∈ (n.propagate anchors).constraints ∧ r.successor = e := by
    simpa using hr
  have hdistinct : ((((n.propagate anchors).constraints.filter (·.successor = e)).dedup).map
      Constraint.predecessor).Nodup := by
    refine (List.nodup_map_iff_inj_on (List.nodup_dedup _)).mpr fun r hr r' hr' heq => ?_
    obtain ⟨s, p⟩ := r
    obtain ⟨s', p'⟩ := r'
    obtain rfl : p = p' := heq
    obtain rfl : s = e := (hmem hr).2
    obtain rfl : s' = s := (hmem hr').2
    rfl
  have hsub : (((n.propagate anchors).constraints.filter (·.successor = e)).dedup).map
      Constraint.predecessor ⊆ anchors ++ before := by
    intro p hp
    obtain ⟨r, hr, rfl⟩ := List.mem_map.mp hp
    exact predecessor_mem_before hnodup hsplit (hmem hr).1 (hmem hr).2
  have hlength := (List.subperm_of_subset hdistinct hsub).length_le
  rwa [List.length_map, List.length_append] at hlength

/-- **When the frontier repeats itself.**

What a walk starts from is left in as many copies as the tree makes of it.  The frontier repeats
nothing exactly if no exit of the tree is counted twice and it makes no second copy of anything, and
no relation is registered twice exactly if none is counted twice within the tree and no entry comes
after anything twice.  The different relations of a leaf are never more than there is before it.

So in a tree of which every parallel group hands on what it starts from no more than once, the
frontier is a set, every relation is registered once, and at each leaf there is no more to do than
there is before it. -/
theorem frontier_repeats (n : Node ι) (anchors : List ι) (hleaves : n.leaves.Nodup)
    (hanchors : anchors.Nodup) (hfresh : ∀ a ∈ anchors, a ∉ n.leaves) :
    (∀ a ∈ anchors, (n.propagate anchors).frontier.count a = n.census.copies) ∧
    ((n.propagate anchors).frontier.Nodup ↔
      (∀ e, n.census.exits e ≤ 1) ∧ (anchors = [] ∨ n.census.copies ≤ 1)) ∧
    ((n.propagate anchors).constraints.Nodup ↔
      (∀ r, n.census.inner r ≤ 1) ∧ (anchors = [] ∨ ∀ e, n.census.entries e ≤ 1)) ∧
    (∀ before e later, n.leaves = before ++ e :: later →
      ((n.propagate anchors).constraints.filter (·.successor = e)).dedup.length
        ≤ anchors.length + before.length) ∧
    (n.passesOnce = true →
      (n.propagate anchors).frontier.Nodup ∧ (n.propagate anchors).constraints.Nodup ∧
      ∀ before e later, n.leaves = before ++ e :: later →
        ((n.propagate anchors).constraints.filter (·.successor = e)).length
          ≤ anchors.length + before.length) := by
  have hcensus := n.describes_census
  have hfrontier := hcensus.nodup_frontier_iff n.on_census hanchors hfresh
  have hconstraints := hcensus.nodup_constraints_iff n.on_census hanchors hfresh
  refine ⟨fun a ha => ?_, hfrontier, hconstraints, fun _ _ _ => length_dedup_le hleaves, ?_⟩
  · rw [hcensus.frontier, n.on_census.exits a (hfresh a ha),
      List.count_eq_one_of_mem hanchors ha, Nat.zero_add, Nat.mul_one]
  · intro hpasses
    have honce := once_census n hpasses hleaves
    have hconstraints := hconstraints.mpr ⟨honce.inner, Or.inr honce.entries⟩
    refine ⟨hfrontier.mpr ⟨honce.exits, Or.inr (copies_le_one n hpasses)⟩, hconstraints, ?_⟩
    intro before e later hsplit
    rw [← (hconstraints.filter _).dedup]
    exact length_dedup_le hleaves hsplit

/-- From a knock and a ring, a light beside nothing and a bell that nobody waits for leave both as
they are, and the door is closed after each of them once. -/
theorem closed_once_after_each :
    let tree :=
      chain [parallel [single "light", empty], detach .tail [single "bell"], single "close"]
    (tree.propagate ["knock", "ring"]).frontier.Nodup ∧
    (tree.propagate ["knock", "ring"]).constraints.Nodup ∧
    ((tree.propagate ["knock", "ring"]).constraints.filter (·.successor = "close")).length ≤ 4 ∧
    ((chain [parallel [single "light", empty], detach .tail [single "bell"]]).propagate
      ["knock", "ring"]).frontier.count "ring" = 1 := by
  intro tree
  obtain ⟨-, -, -, -, honce⟩ := frontier_repeats tree ["knock", "ring"] (by decide) (by decide)
    (by decide)
  obtain ⟨hfrontier, hconstraints, hwork⟩ := honce (by decide)
  obtain ⟨hcount, -⟩ := frontier_repeats
    (chain [parallel [single "light", empty], detach .tail [single "bell"]]) ["knock", "ring"]
    (by decide) (by decide) (by decide)
  exact ⟨hfrontier, hconstraints, hwork ["light", "bell"] "close" [] rfl, hcount "ring" (by decide)⟩

/-- Two empty branches leave what there was before twice, and what comes next is ordered after it
twice, which is more than there is before it. -/
theorem ordered_twice_after_one :
    let block : Node Nat := parallel [empty, empty]
    let tree := chain [block, single 1]
    (tree.leaves.Nodup ∧ [0].Nodup ∧ ∀ a ∈ [0], a ∉ tree.leaves) ∧
    (block.propagate [0]).frontier = [0, 0] ∧ ¬(block.propagate [0]).frontier.Nodup ∧
    (tree.propagate [0]).constraints = [⟨1, 0⟩, ⟨1, 0⟩] ∧ ¬(tree.propagate [0]).constraints.Nodup ∧
    ¬((tree.propagate [0]).constraints.filter (·.successor = 1)).length ≤ [0].length := by
  decide

/-- From block to block the copies double. -/
example :
    (chain (List.replicate 5 (parallel [empty, detach .tail [single 1]]))).census.copies = 32 := by
  decide

end Node

end CallOrder
