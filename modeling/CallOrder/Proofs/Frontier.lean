/-
Whether what comes before a tree comes before what follows it.

A walk forgets most of what it met: its frontier is all that is left to come after.
Nothing is lost by that as long as each expectation of the old frontier leads to one of
the new, by way of the relations that were registered in between.  For every kind of
tree but one this is so.  A single expectation comes after the whole frontier and takes
its place, a chain passes it on from part to part, a detached group gives it back, and
parallel parts keep it if one of them does.  But parallel parts of which there are none
leave nothing at all, and then what follows is ordered after nothing.

`handsOn` says of a tree whether it keeps the frontier, and this is exact
(`frontier_kept_or_lost`).  Where it does not, a set of expectations shows it: one
that holds everything before the tree, that no registered relation leads out of, and
that nothing of the new frontier belongs to (`Walk.Parts`).
-/
import CallOrder.Proofs.Walk

namespace CallOrder

variable {ι : Type}

namespace Walk

/-- The second expectation is the first, or comes after it by way of the relations of the
walk. -/
def Reaches (w : Walk ι) (a e : ι) : Prop :=
  Relation.ReflTransGen (fun p s => ⟨s, p⟩ ∈ w.constraints) a e

/-- Each expectation of a frontier is still before one of the frontier that the walk ends with. -/
def Keeps (anchors : List ι) (w : Walk ι) : Prop :=
  ∀ a ∈ anchors, ∃ e ∈ w.frontier, w.Reaches a e

/-- None of them is before any of it. -/
def Loses (anchors : List ι) (w : Walk ι) : Prop :=
  ∀ a ∈ anchors, ∀ e ∈ w.frontier, ¬w.Reaches a e

variable {w v : Walk ι} {a e : ι}

theorem Reaches.refl : w.Reaches a a :=
  Relation.ReflTransGen.refl

/-- A relation of the walk is one step. -/
theorem Reaches.step {p s : ι} (h : w.Reaches a p) (hc : ⟨s, p⟩ ∈ w.constraints) :
    w.Reaches a s :=
  Relation.ReflTransGen.tail h hc

theorem Reaches.trans {m : ι} (h : w.Reaches a m) (h' : w.Reaches m e) : w.Reaches a e :=
  Relation.ReflTransGen.trans h h'

/-- More relations reach further. -/
theorem Reaches.mono (h : w.Reaches a e) (hsub : w.constraints ⊆ v.constraints) :
    v.Reaches a e := by
  induction h with
  | refl => exact .refl
  | tail _ hc ih => exact ih.step (hsub hc)

/-- Nothing outside a set is reached that no relation leads out of. -/
theorem Reaches.mem_of_closed {side : ι → Prop} (h : w.Reaches a e)
    (hclosed : ∀ c ∈ w.constraints, side c.predecessor → side c.successor) (ha : side a) :
    side e := by
  induction h with
  | refl => exact ha
  | tail _ hc ih => exact hclosed _ hc ih

/-- A set that parts what comes before a tree with these leaves from what the walk ends with. -/
structure Parts (side : ι → Prop) (anchors leaves : List ι) (w : Walk ι) : Prop where
  before : ∀ a ∈ anchors, side a
  frontier : ∀ e ∈ w.frontier, ¬side e
  /-- No relation leads out of the set. -/
  closed : ∀ c ∈ w.constraints, side c.predecessor → side c.successor
  /-- The set holds nothing from elsewhere. -/
  bounded : ∀ x, side x → x ∈ anchors ∨ x ∈ leaves

theorem Parts.loses {side : ι → Prop} {anchors leaves : List ι}
    (h : Parts side anchors leaves w) : w.Loses anchors :=
  fun a ha e he hae => h.frontier e he (hae.mem_of_closed h.closed (h.before a ha))

end Walk

namespace Node

theorem leavesAll_append (ns ms : List (Node ι)) :
    leaves.leavesAll (ns ++ ms) = leaves.leavesAll ns ++ leaves.leavesAll ms := by
  induction ns with
  | nil => rfl
  | cons n rest ih => simp [leaves.leavesAll, ih]

variable [DecidableEq ι]

/-! ### What a walk can find

A walk goes over the leaves from left to right.  Its frontier holds nothing but leaves
and what it started from, and each relation orders a leaf after a leaf further left or
after what the walk started from.
-/

mutual

theorem mem_frontier : ∀ (n : Node ι) (anchors : List ι),
    ∀ e ∈ (n.propagate anchors).frontier, e ∈ anchors ∨ e ∈ n.leaves
  | .single x, anchors, e, he => by simp_all [propagate, leaves]
  | .chain parts, anchors, e, he => mem_frontier_inSequence parts anchors e he
  | .parallel parts, anchors, e, he => mem_frontier_sideBySide parts anchors e he
  | .detach .head parts, anchors, e, he => by
      rcases List.mem_append.mp he with he | he
      · exact Or.inl he
      · have := mem_frontier_sideBySide parts [] e he
        simpa [leaves] using Or.inr this
  | .detach .tail _, _, _, he => Or.inl he
  | .detach .both _, _, _, he => Or.inl he
  | .empty, _, _, he => Or.inl he

theorem mem_frontier_inSequence : ∀ (parts : List (Node ι)) (anchors : List ι),
    ∀ e ∈ (propagate.inSequence anchors parts).frontier,
      e ∈ anchors ∨ e ∈ leaves.leavesAll parts
  | [], _, _, he => Or.inl he
  | n :: rest, anchors, e, he => by
      have hrest := mem_frontier_inSequence rest _ e he
      have hfirst := mem_frontier n anchors e
      simp only [leaves.leavesAll, List.mem_append]
      tauto

theorem mem_frontier_sideBySide : ∀ (parts : List (Node ι)) (anchors : List ι),
    ∀ e ∈ (propagate.sideBySide anchors parts).frontier,
      e ∈ anchors ∨ e ∈ leaves.leavesAll parts
  | [], _, _, he => absurd he List.not_mem_nil
  | n :: rest, anchors, e, he => by
      have hfirst := mem_frontier n anchors e
      have hrest := mem_frontier_sideBySide rest anchors e
      simp only [propagate.sideBySide, List.mem_append] at he
      simp only [leaves.leavesAll, List.mem_append]
      tauto

end

mutual

/-- **A walk registers only what holds from left to right**, and from what it started from. -/
theorem satisfies_propagate {r : ι → ι → Prop} : ∀ (n : Node ι) (anchors : List ι),
    (∀ a ∈ anchors, ∀ x ∈ n.leaves, r a x) → n.leaves.Pairwise r →
      Pattern.Satisfies r (n.propagate anchors).constraints
  | .single x, anchors, hanchors, _ => by
      intro c hc
      obtain ⟨a, ha, rfl⟩ := List.mem_map.mp hc
      exact hanchors a (List.mem_filter.mp ha).1 x (by simp [leaves])
  | .chain parts, anchors, hanchors, hpairs =>
      satisfies_inSequence parts anchors hanchors hpairs
  | .parallel parts, anchors, hanchors, hpairs =>
      satisfies_sideBySide parts anchors hanchors hpairs
  | .detach .head parts, _, _, hpairs => satisfies_sideBySide parts [] (by simp) hpairs
  | .detach .tail parts, anchors, hanchors, hpairs =>
      satisfies_sideBySide parts anchors hanchors hpairs
  | .detach .both parts, _, _, hpairs => satisfies_sideBySide parts [] (by simp) hpairs
  | .empty, _, _, _ => Pattern.satisfies_nil

theorem satisfies_inSequence {r : ι → ι → Prop} : ∀ (parts : List (Node ι)) (anchors : List ι),
    (∀ a ∈ anchors, ∀ x ∈ leaves.leavesAll parts, r a x) →
      (leaves.leavesAll parts).Pairwise r →
        Pattern.Satisfies r (propagate.inSequence anchors parts).constraints
  | [], _, _, _ => Pattern.satisfies_nil
  | n :: rest, anchors, hanchors, hpairs => by
      obtain ⟨hown, hothers, hcross⟩ := List.pairwise_append.mp hpairs
      refine Pattern.satisfies_append.mpr ⟨?_, ?_⟩
      · exact satisfies_propagate n anchors
          (fun a ha x hx => hanchors a ha x (List.mem_append_left _ hx)) hown
      · refine satisfies_inSequence rest _ ?_ hothers
        intro a ha x hx
        rcases mem_frontier n anchors a ha with ha | ha
        · exact hanchors a ha x (List.mem_append_right _ hx)
        · exact hcross a ha x hx

theorem satisfies_sideBySide {r : ι → ι → Prop} : ∀ (parts : List (Node ι)) (anchors : List ι),
    (∀ a ∈ anchors, ∀ x ∈ leaves.leavesAll parts, r a x) →
      (leaves.leavesAll parts).Pairwise r →
        Pattern.Satisfies r (propagate.sideBySide anchors parts).constraints
  | [], _, _, _ => Pattern.satisfies_nil
  | n :: rest, anchors, hanchors, hpairs => by
      obtain ⟨hown, hothers, -⟩ := List.pairwise_append.mp hpairs
      refine Pattern.satisfies_append.mpr ⟨?_, ?_⟩
      · exact satisfies_propagate n anchors
          (fun a ha x hx => hanchors a ha x (List.mem_append_left _ hx)) hown
      · exact satisfies_sideBySide rest anchors
          (fun a ha x hx => hanchors a ha x (List.mem_append_right _ hx)) hothers

end

variable {n : Node ι} {anchors : List ι} {c : Constraint ι}

/-- The relations of a walk order leaves after leaves or after what it started from. -/
theorem mem_of_mem_constraints (hc : c ∈ (n.propagate anchors).constraints) :
    (c.predecessor ∈ anchors ∨ c.predecessor ∈ n.leaves) ∧ c.successor ∈ n.leaves :=
  satisfies_propagate (r := fun p s => (p ∈ anchors ∨ p ∈ n.leaves) ∧ s ∈ n.leaves) n anchors
    (fun _ ha _ hx => ⟨Or.inl ha, hx⟩)
    (List.pairwise_of_forall_mem_list fun _ hx _ hy => ⟨Or.inr hx, hy⟩) c hc

theorem mem_of_mem_inSequence {parts : List (Node ι)}
    (hc : c ∈ (propagate.inSequence anchors parts).constraints) :
    (c.predecessor ∈ anchors ∨ c.predecessor ∈ leaves.leavesAll parts) ∧
      c.successor ∈ leaves.leavesAll parts :=
  mem_of_mem_constraints (n := .chain parts) hc

theorem mem_of_mem_sideBySide {parts : List (Node ι)}
    (hc : c ∈ (propagate.sideBySide anchors parts).constraints) :
    (c.predecessor ∈ anchors ∨ c.predecessor ∈ leaves.leavesAll parts) ∧
      c.successor ∈ leaves.leavesAll parts :=
  mem_of_mem_constraints (n := .parallel parts) hc

/-! ### Trees that hand on the frontier -/

/-- Whether what comes before the tree comes before what follows it: in a chain every part has to
see to it, of parallel parts one. -/
def handsOn : Node ι → Bool
  | single _ => true
  | chain parts => inSequence parts
  | parallel parts => sideBySide parts
  | detach _ _ => true
  | empty => true
where
  /-- Whether every one of the trees hands on the frontier. -/
  inSequence : List (Node ι) → Bool
    | [] => true
    | n :: rest => handsOn n && inSequence rest
  /-- Whether one of the trees does. -/
  sideBySide : List (Node ι) → Bool
    | [] => false
    | n :: rest => handsOn n || sideBySide rest

mutual

/-- **What a tree hands on is kept by the walk over it.** -/
theorem keeps_propagate : ∀ (n : Node ι), n.handsOn = true → ∀ anchors : List ι,
    (n.propagate anchors).Keeps anchors
  | .single x, _, anchors => by
      intro a ha
      refine ⟨x, by simp [propagate], ?_⟩
      by_cases hax : a = x
      · rw [hax]
        exact .refl
      · have hc : ⟨x, a⟩ ∈ Constraint.after anchors x :=
          List.mem_map.mpr ⟨a, by simp [ha, hax], rfl⟩
        exact Walk.Reaches.refl.step hc
  | .chain parts, h, anchors => keeps_inSequence parts h anchors
  | .parallel parts, h, anchors => keeps_sideBySide parts h anchors
  | .detach .head parts, _, anchors => fun a ha => ⟨a, List.mem_append_left _ ha, .refl⟩
  | .detach .tail _, _, _ => fun a ha => ⟨a, ha, .refl⟩
  | .detach .both _, _, _ => fun a ha => ⟨a, ha, .refl⟩
  | .empty, _, _ => fun a ha => ⟨a, ha, .refl⟩

theorem keeps_inSequence : ∀ (parts : List (Node ι)), handsOn.inSequence parts = true →
    ∀ anchors : List ι, (propagate.inSequence anchors parts).Keeps anchors
  | [], _, _ => fun a ha => ⟨a, ha, .refl⟩
  | n :: rest, h, anchors => by
      obtain ⟨hfirst, hothers⟩ : n.handsOn = true ∧ handsOn.inSequence rest = true := by
        simpa [handsOn.inSequence] using h
      intro a ha
      obtain ⟨m, hm, ham⟩ := keeps_propagate n hfirst anchors a ha
      obtain ⟨e, he, hme⟩ := keeps_inSequence rest hothers _ m hm
      refine ⟨e, he, (ham.mono ?_).trans (hme.mono ?_)⟩
      · exact List.subset_append_left ..
      · exact List.subset_append_right ..

theorem keeps_sideBySide : ∀ (parts : List (Node ι)), handsOn.sideBySide parts = true →
    ∀ anchors : List ι, (propagate.sideBySide anchors parts).Keeps anchors
  | [], h, _ => Bool.noConfusion h
  | n :: rest, h, anchors => by
      intro a ha
      by_cases hfirst : n.handsOn = true
      · obtain ⟨e, he, hae⟩ := keeps_propagate n hfirst anchors a ha
        exact ⟨e, List.mem_append_left _ he, hae.mono (List.subset_append_left ..)⟩
      · have hothers : handsOn.sideBySide rest = true := by
          simpa [handsOn.sideBySide, hfirst] using h
        obtain ⟨e, he, hae⟩ := keeps_sideBySide rest hothers anchors a ha
        exact ⟨e, List.mem_append_right _ he, hae.mono (List.subset_append_right ..)⟩

end

/-! ### Trees that lose it

Two trees one after the other, or side by side, in which no expectation is met twice and none that
was met before.
-/

section Cons

variable {n : Node ι} {rest : List (Node ι)} {anchors : List ι} {side side' : ι → Prop}

omit [DecidableEq ι] in
theorem leaves_apart (hnodup : (leaves.leavesAll (n :: rest)).Nodup) {x : ι}
    (hx : x ∈ n.leaves) : x ∉ leaves.leavesAll rest :=
  fun hx' => (List.nodup_append.mp hnodup).2.2 x hx x hx' rfl

variable (hnodup : (leaves.leavesAll (n :: rest)).Nodup)
  (hfresh : ∀ a ∈ anchors, a ∉ leaves.leavesAll (n :: rest))

include hnodup hfresh

/-- What the first tree ends with is new to the others. -/
theorem fresh_of_mem_frontier {a : ι} (ha : a ∈ (n.propagate anchors).frontier) :
    a ∉ leaves.leavesAll rest := by
  rcases mem_frontier n anchors a ha with ha | ha
  · exact fun hx => hfresh a ha (List.mem_append_right _ hx)
  · exact leaves_apart hnodup ha

/-- A frontier that the first tree loses does not come back. -/
theorem parts_inSequence_of_first (hside : Walk.Parts side anchors n.leaves (n.propagate anchors)) :
    Walk.Parts side anchors (leaves.leavesAll (n :: rest))
      (propagate.inSequence anchors (n :: rest)) := by
  have hout : ∀ x ∈ leaves.leavesAll rest, ¬side x := by
    intro x hx hs
    rcases hside.bounded x hs with ha | ha
    · exact hfresh x ha (List.mem_append_right _ hx)
    · exact leaves_apart hnodup ha hx
  refine ⟨hside.before, ?_, ?_, ?_⟩
  · intro e he
    rcases mem_frontier_inSequence rest _ e he with he | he
    · exact hside.frontier e he
    · exact hout e he
  · intro c hc hp
    rcases List.mem_append.mp hc with hc | hc
    · exact hside.closed c hc hp
    · rcases (mem_of_mem_inSequence hc).1 with hfrom | hfrom
      · exact absurd hp (hside.frontier _ hfrom)
      · exact absurd hp (hout _ hfrom)
  · intro x hx
    rcases hside.bounded x hx with hx | hx
    · exact Or.inl hx
    · exact Or.inr (List.mem_append_left _ hx)

/-- If the others lose the frontier of the first tree, then all that was met up to there is
parted from the end. -/
theorem parts_inSequence_of_rest (hside : Walk.Parts side (n.propagate anchors).frontier
      (leaves.leavesAll rest) (propagate.inSequence (n.propagate anchors).frontier rest)) :
    Walk.Parts (fun x => x ∈ anchors ∨ x ∈ n.leaves ∨ side x) anchors
      (leaves.leavesAll (n :: rest)) (propagate.inSequence anchors (n :: rest)) := by
  have hlater : ∀ a ∈ anchors, a ∉ leaves.leavesAll rest :=
    fun a ha hx => hfresh a ha (List.mem_append_right _ hx)
  have hold : ∀ x ∈ leaves.leavesAll rest, x ∉ anchors ∧ x ∉ n.leaves :=
    fun x hx => ⟨fun ha => hlater x ha hx, fun hn => leaves_apart hnodup hn hx⟩
  refine ⟨fun a ha => Or.inl ha, ?_, ?_, ?_⟩
  · intro e he
    have hnot := hside.frontier e he
    rcases mem_frontier_inSequence rest _ e he with hfirst | hrest
    · exact absurd (hside.before e hfirst) hnot
    · have := hold e hrest
      tauto
  · intro c hc hp
    rcases List.mem_append.mp hc with hc | hc
    · exact Or.inr (Or.inl (mem_of_mem_constraints hc).2)
    · refine Or.inr (Or.inr (hside.closed c hc ?_))
      rcases (mem_of_mem_inSequence hc).1 with hfirst | hrest
      · exact hside.before _ hfirst
      · have := hold _ hrest
        tauto
  · intro x hx
    have hin := hside.bounded x
    have hmid := mem_frontier n anchors x
    simp only [leaves.leavesAll, List.mem_append]
    tauto

omit hfresh in
/-- What is lost side by side is lost: two sets with leaves of their own meet in the frontier
alone. -/
theorem parts_sideBySide (hside : Walk.Parts side anchors n.leaves (n.propagate anchors))
    (hside' : Walk.Parts side' anchors (leaves.leavesAll rest)
      (propagate.sideBySide anchors rest)) :
    Walk.Parts (fun x => side x ∨ side' x) anchors (leaves.leavesAll (n :: rest))
      (propagate.sideBySide anchors (n :: rest)) := by
  have hfirst : ∀ x, x ∈ anchors ∨ x ∈ n.leaves → side' x → side x := by
    intro x hx hs
    rcases hside'.bounded x hs with ha | ha
    · exact hside.before x ha
    · rcases hx with hx | hx
      · exact hside.before x hx
      · exact absurd ha (leaves_apart hnodup hx)
  have hrest : ∀ x, x ∈ anchors ∨ x ∈ leaves.leavesAll rest → side x → side' x := by
    intro x hx hs
    rcases hside.bounded x hs with ha | ha
    · exact hside'.before x ha
    · rcases hx with hx | hx
      · exact hside'.before x hx
      · exact absurd hx (leaves_apart hnodup ha)
  refine ⟨fun a ha => Or.inl (hside.before a ha), ?_, ?_, ?_⟩
  · intro e he
    rcases List.mem_append.mp he with he | he
    · have := hside.frontier e he
      have := hfirst e (mem_frontier n anchors e he)
      tauto
    · have := hside'.frontier e he
      have := hrest e (mem_frontier_sideBySide rest anchors e he)
      tauto
  · intro c hc hp
    rcases List.mem_append.mp hc with hc | hc
    · have := hside.closed c hc
      have := hfirst _ (mem_of_mem_constraints hc).1
      tauto
    · have := hside'.closed c hc
      have := hrest _ (mem_of_mem_sideBySide hc).1
      tauto
  · intro x hx
    have := hside.bounded x
    have := hside'.bounded x
    simp only [leaves.leavesAll, List.mem_append]
    tauto

end Cons

mutual

/-- A tree that does not hand on the frontier is parted from what it comes after. -/
theorem exists_parts : ∀ (n : Node ι), n.handsOn = false → n.leaves.Nodup →
    ∀ anchors : List ι, (∀ a ∈ anchors, a ∉ n.leaves) →
      ∃ side, Walk.Parts side anchors n.leaves (n.propagate anchors)
  | .chain parts, h, hnodup, anchors, hfresh =>
      exists_parts_inSequence parts h hnodup anchors hfresh
  | .parallel parts, h, hnodup, anchors, hfresh =>
      exists_parts_sideBySide parts h hnodup anchors hfresh

theorem exists_parts_inSequence : ∀ (parts : List (Node ι)),
    handsOn.inSequence parts = false → (leaves.leavesAll parts).Nodup →
      ∀ anchors : List ι, (∀ a ∈ anchors, a ∉ leaves.leavesAll parts) →
        ∃ side, Walk.Parts side anchors (leaves.leavesAll parts)
          (propagate.inSequence anchors parts)
  | n :: rest, h, hnodup, anchors, hfresh => by
      obtain ⟨hown, hothers, -⟩ := List.nodup_append.mp hnodup
      by_cases hn : n.handsOn = true
      · have hrest : handsOn.inSequence rest = false := by
          simpa [handsOn.inSequence, hn] using h
        obtain ⟨side, hside⟩ := exists_parts_inSequence rest hrest hothers
          (n.propagate anchors).frontier fun a ha => fresh_of_mem_frontier hnodup hfresh ha
        exact ⟨_, parts_inSequence_of_rest hnodup hfresh hside⟩
      · obtain ⟨side, hside⟩ := exists_parts n (by simpa using hn) hown anchors
          fun a ha hx => hfresh a ha (List.mem_append_left _ hx)
        exact ⟨side, parts_inSequence_of_first hnodup hfresh hside⟩

theorem exists_parts_sideBySide : ∀ (parts : List (Node ι)),
    handsOn.sideBySide parts = false → (leaves.leavesAll parts).Nodup →
      ∀ anchors : List ι, (∀ a ∈ anchors, a ∉ leaves.leavesAll parts) →
        ∃ side, Walk.Parts side anchors (leaves.leavesAll parts)
          (propagate.sideBySide anchors parts)
  | [], _, _, anchors, _ =>
      -- Nothing is left, so what came before is parted from it as it stands.
      ⟨fun x => x ∈ anchors, fun _ ha => ha, by simp [propagate.sideBySide],
        by simp [propagate.sideBySide], fun _ hx => Or.inl hx⟩
  | n :: rest, h, hnodup, anchors, hfresh => by
      obtain ⟨hown, hothers, -⟩ := List.nodup_append.mp hnodup
      obtain ⟨hn, hrest⟩ : n.handsOn = false ∧ handsOn.sideBySide rest = false := by
        simpa [handsOn.sideBySide] using h
      obtain ⟨side, hside⟩ := exists_parts n hn hown anchors
        fun a ha hx => hfresh a ha (List.mem_append_left _ hx)
      obtain ⟨side', hside'⟩ := exists_parts_sideBySide rest hrest hothers anchors
        fun a ha hx => hfresh a ha (List.mem_append_right _ hx)
      exact ⟨_, parts_sideBySide hnodup hside hside'⟩

end

/-! ### A tree between two expectations -/

/-- What stands after a tree that hands on the frontier comes after what stands before it. -/
theorem reaches_around (h : n.handsOn = true) (anchors : List ι) (x y : ι) :
    ((chain [single x, n, single y]).propagate anchors).Reaches x y := by
  have hparts : handsOn.inSequence [n, single y] = true := by
    simp [handsOn.inSequence, handsOn, h]
  obtain ⟨e, he, hxe⟩ := keeps_inSequence [n, single y] hparts [x] x (List.mem_singleton_self x)
  obtain rfl : e = y := List.mem_singleton.mp he
  exact hxe.mono (List.subset_append_right ..)

/-- What stands after one that loses it does not, if no expectation is met twice. -/
theorem not_reaches_around {x y : ι} (h : n.handsOn = false)
    (hnodup : (chain [single x, n, single y]).leaves.Nodup) :
    ¬((chain [single x, n, single y]).propagate []).Reaches x y := by
  have hparts : handsOn.inSequence [n, single y] = false := by
    simp [handsOn.inSequence, handsOn, h]
  obtain ⟨hx, hothers⟩ := List.nodup_cons.mp hnodup
  obtain ⟨side, hside⟩ := exists_parts_inSequence [n, single y] hparts hothers [x] (by
    intro a ha
    rwa [List.mem_singleton.mp ha])
  exact hside.loses x (List.mem_singleton_self x) y (List.mem_singleton_self y)

/-- **A tree either keeps the frontier or loses all of it**, and with it the order between what
stands before the tree and what stands after it.

It keeps the frontier exactly if it hands it on.  A tree in which an expectation is met twice may
be ordered behind what it lost all the same, so the second half is about trees without such. -/
theorem frontier_kept_or_lost (n : Node ι) :
    (n.handsOn = true →
      (∀ anchors, (n.propagate anchors).Keeps anchors) ∧
      ∀ anchors x y, ((chain [single x, n, single y]).propagate anchors).Reaches x y) ∧
    (n.handsOn = false → n.leaves.Nodup →
      (∀ anchors, (∀ a ∈ anchors, a ∉ n.leaves) → (n.propagate anchors).Loses anchors) ∧
      ∀ x y, (chain [single x, n, single y]).leaves.Nodup →
        ¬((chain [single x, n, single y]).propagate []).Reaches x y) := by
  refine ⟨fun h => ⟨keeps_propagate n h, reaches_around h⟩, fun h hnodup => ⟨?_, ?_⟩⟩
  · intro anchors hfresh
    obtain ⟨side, hside⟩ := exists_parts n h hnodup anchors hfresh
    exact hside.loses
  · exact fun x y => not_reaches_around h

/-- A branch without expectations keeps a frontier that a block without branches would lose. -/
theorem frontier_kept_by_empty_branch :
    ((chain [single 0, parallel [parallel [], empty], single 1]).propagate []).Reaches 0 1 ∧
    ((parallel [parallel [], chain [single 0, parallel []]]).propagate [1]).Loses [1] :=
  ⟨((frontier_kept_or_lost (parallel [parallel [], empty])).1 rfl).2 [] 0 1,
    ((frontier_kept_or_lost (parallel [parallel [], chain [single 0, parallel []]])).2
      rfl (by decide)).1 [1] (by decide)⟩

/-- A block without branches leaves no frontier, and nothing is ordered around it. -/
theorem frontier_lost_by_no_branches :
    ¬((parallel []).propagate [0]).Keeps [0] ∧
    ((chain [single 0, parallel [], single 1]).propagate []).constraints = [] ∧
    ¬((chain [single 0, parallel [], single 1]).propagate []).Reaches 0 1 := by
  refine ⟨?_, rfl, ?_⟩
  · intro h
    obtain ⟨e, he, -⟩ := h 0 (List.mem_singleton_self 0)
    exact List.not_mem_nil he
  · intro h
    have hclosed : ∀ c ∈ ((chain [single 0, parallel [], single 1]).propagate []).constraints,
        0 = c.predecessor → 0 = c.successor := by decide
    exact absurd (h.mem_of_closed hclosed rfl) (by decide)

end Node

end CallOrder
