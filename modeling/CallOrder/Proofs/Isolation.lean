/-
Parts of a tree that are detached from what is around them.

What is around a part of a tree is a tree with a hole (`Context`).  A walk comes to the
hole with some frontier, and what it does from there on depends on nothing of the part
but the frontier that the part ends with.  So the walk over the whole is the walk over
the part within a frame that is the same for every part (`propagate_fill`).

A part that is detached behind gives back the frontier that it was given.  An empty tree
does the same, so neither the frame nor what is left at the end can tell the two apart.
A part that is detached in front takes no notice of the frontier.  And the frame orders
nothing but what is outside, after what is outside or after what the part ended with.
Everything about isolation follows from these three (`detached_isolated`).
-/
import CallOrder.Proofs.Frontier

namespace CallOrder

variable {ι : Type}

namespace Node

/-- The ways to put several trees into one. -/
inductive Group where
  | chain
  | parallel
  | detach (side : Cut)

/-- The trees put into one. -/
def Group.node : Group → List (Node ι) → Node ι
  | .chain, parts => Node.chain parts
  | .parallel, parts => Node.parallel parts
  | .detach side, parts => Node.detach side parts

/-- A tree with a hole in it. -/
inductive Context (ι : Type) where
  | hole
  /-- The hole is in one of several trees. -/
  | within (group : Group) (before : List (Node ι)) (inner : Context ι) (later : List (Node ι))

namespace Context

/-- The tree with another one in the hole. -/
def fill : Context ι → Node ι → Node ι
  | hole, n => n
  | within group before inner later, n => group.node (before ++ inner.fill n :: later)

/-- The expectations to the left of the hole. -/
def leavesBefore : Context ι → List ι
  | hole => []
  | within _ before inner _ => leaves.leavesAll before ++ inner.leavesBefore

/-- Those to the right. -/
def leavesLater : Context ι → List ι
  | hole => []
  | within _ _ inner later => inner.leavesLater ++ leaves.leavesAll later

end Context

theorem leaves_group (group : Group) (parts : List (Node ι)) :
    (group.node parts).leaves = leaves.leavesAll parts := by
  cases group <;> rfl

theorem leaves_fill (c : Context ι) (n : Node ι) :
    (c.fill n).leaves = c.leavesBefore ++ n.leaves ++ c.leavesLater := by
  induction c with
  | hole => simp [Context.fill, Context.leavesBefore, Context.leavesLater]
  | within group before inner later ih =>
      simp [Context.fill, Context.leavesBefore, Context.leavesLater, leaves_group,
        leavesAll_append, leaves.leavesAll, ih]

end Node

/-! ### The walk around a hole -/

/-- What a walk does around a hole: the frontier it comes to the hole with, the relations before,
and what follows from the frontier it leaves the hole with. -/
structure Frame (ι : Type) where
  arriving : List ι
  early : List (Constraint ι)
  late : List ι → List (Constraint ι)
  leaving : List ι → List ι

/-- The whole walk, if that is the walk over what is in the hole. -/
def Frame.around (f : Frame ι) (inner : Walk ι) : Walk ι where
  constraints := f.early ++ inner.constraints ++ f.late inner.frontier
  frontier := f.leaving inner.frontier

namespace Node.Context

variable [DecidableEq ι]

/-- The walk around the hole among trees side by side, of which it is one. -/
def frameBeside (anchors : List ι) (before : List (Node ι)) (f : Frame ι)
    (later : List (Node ι)) : Frame ι :=
  let first := propagate.sideBySide anchors before
  let others := propagate.sideBySide anchors later
  { arriving := f.arriving
    early := first.constraints ++ f.early
    late := fun frontier => f.late frontier ++ others.constraints
    leaving := fun frontier => first.frontier ++ (f.leaving frontier ++ others.frontier) }

/-- The walk around the hole of a context. -/
def frame : Context ι → List ι → Frame ι
  | hole, anchors => ⟨anchors, [], fun _ => [], id⟩
  | within .chain before inner later, anchors =>
    let first := propagate.inSequence anchors before
    let f := inner.frame first.frontier
    let others := fun frontier => propagate.inSequence (f.leaving frontier) later
    { arriving := f.arriving
      early := first.constraints ++ f.early
      late := fun frontier => f.late frontier ++ (others frontier).constraints
      leaving := fun frontier => (others frontier).frontier }
  | within .parallel before inner later, anchors =>
    frameBeside anchors before (inner.frame anchors) later
  | within (.detach .head) before inner later, anchors =>
    let f := frameBeside [] before (inner.frame []) later
    { f with leaving := fun frontier => anchors ++ f.leaving frontier }
  | within (.detach .tail) before inner later, anchors =>
    { frameBeside anchors before (inner.frame anchors) later with leaving := fun _ => anchors }
  | within (.detach .both) before inner later, anchors =>
    { frameBeside [] before (inner.frame []) later with leaving := fun _ => anchors }

theorem sideBySide_around (anchors : List ι) (before later : List (Node ι)) (f : Frame ι)
    (n m : Node ι) (hm : m.propagate anchors = f.around (n.propagate f.arriving)) :
    propagate.sideBySide anchors (before ++ m :: later) =
      (frameBeside anchors before f later).around (n.propagate f.arriving) := by
  rw [sideBySide_append]
  simp [propagate.sideBySide, hm, Frame.around, frameBeside]

/-- **The walk over a tree with something in its hole is the walk over that, within the frame of
the context.** -/
theorem propagate_fill (c : Context ι) (n : Node ι) (anchors : List ι) :
    (c.fill n).propagate anchors
      = (c.frame anchors).around (n.propagate (c.frame anchors).arriving) := by
  induction c generalizing anchors with
  | hole => simp [fill, frame, Frame.around]
  | within group before inner later ih =>
      cases group with
      | chain =>
          show propagate.inSequence anchors (before ++ inner.fill n :: later) = _
          rw [inSequence_append]
          simp [propagate.inSequence, ih, Frame.around, frame]
      | parallel => exact sideBySide_around anchors before later _ n _ (ih anchors)
      | detach side =>
          have h (entry : List ι) := sideBySide_around entry before later _ n _ (ih entry)
          cases side with
          | head =>
              show (⟨(propagate.sideBySide [] (before ++ inner.fill n :: later)).constraints,
                anchors ++ (propagate.sideBySide [] (before ++ inner.fill n :: later)).frontier⟩ :
                Walk ι) = _
              rw [h]
              rfl
          | tail =>
              show (⟨(propagate.sideBySide anchors (before ++ inner.fill n :: later)).constraints,
                anchors⟩ : Walk ι) = _
              rw [h]
              rfl
          | both =>
              show (⟨(propagate.sideBySide [] (before ++ inner.fill n :: later)).constraints,
                anchors⟩ : Walk ι) = _
              rw [h]
              rfl

end Node.Context

/-! ### What a frame orders

The expectations outside a part are those that are not in it.
-/

/-- Where the walk comes from outside, the frame orders expectations outside, after those outside
or after what the walk left the hole with. -/
structure Frame.Outside (outside : ι → Prop) (f : Frame ι) : Prop where
  arriving : ∀ a ∈ f.arriving, outside a
  early : ∀ r ∈ f.early, outside r.predecessor ∧ outside r.successor
  late : ∀ frontier, ∀ r ∈ f.late frontier,
    (outside r.predecessor ∨ r.predecessor ∈ frontier) ∧ outside r.successor
  leaving : ∀ frontier, ∀ e ∈ f.leaving frontier, outside e ∨ e ∈ frontier

namespace Node.Context

variable [DecidableEq ι] {outside : ι → Prop} {anchors : List ι}

/-- Trees outside are walked outside. -/
theorem outside_sideBySide {parts : List (Node ι)} (hanchors : ∀ a ∈ anchors, outside a)
    (hparts : ∀ e ∈ leaves.leavesAll parts, outside e) :
    (∀ r ∈ (propagate.sideBySide anchors parts).constraints,
      outside r.predecessor ∧ outside r.successor) ∧
    ∀ e ∈ (propagate.sideBySide anchors parts).frontier, outside e := by
  refine ⟨fun r hr => ?_, fun e he => ?_⟩
  · obtain ⟨hfrom, hto⟩ := mem_of_mem_sideBySide hr
    exact ⟨hfrom.elim (hanchors _) (hparts _), hparts _ hto⟩
  · exact (mem_frontier_sideBySide parts anchors e he).elim (hanchors e) (hparts e)

theorem outside_frameBeside {before later : List (Node ι)} {f : Frame ι}
    (hanchors : ∀ a ∈ anchors, outside a) (hf : f.Outside outside)
    (hbefore : ∀ e ∈ leaves.leavesAll before, outside e)
    (hlater : ∀ e ∈ leaves.leavesAll later, outside e) :
    (frameBeside anchors before f later).Outside outside := by
  obtain ⟨hearly, hfirst⟩ := outside_sideBySide hanchors hbefore
  obtain ⟨hlate, hothers⟩ := outside_sideBySide hanchors hlater
  refine ⟨hf.arriving, fun r hr => ?_, fun frontier r hr => ?_, fun frontier e he => ?_⟩
  · exact (List.mem_append.mp hr).elim (hearly r) (hf.early r)
  · rcases List.mem_append.mp hr with hr | hr
    · exact hf.late frontier r hr
    · exact ⟨Or.inl (hlate r hr).1, (hlate r hr).2⟩
  · rcases List.mem_append.mp he with he | he
    · exact Or.inl (hfirst e he)
    · exact (List.mem_append.mp he).elim (hf.leaving frontier e) fun he => Or.inl (hothers e he)

/-- **The frame of a context outside orders nothing inside.** -/
theorem outside_frame (c : Context ι) (hanchors : ∀ a ∈ anchors, outside a)
    (hbefore : ∀ e ∈ c.leavesBefore, outside e) (hlater : ∀ e ∈ c.leavesLater, outside e) :
    (c.frame anchors).Outside outside := by
  induction c generalizing anchors with
  | hole => exact ⟨hanchors, nofun, nofun, fun _ _ he => Or.inr he⟩
  | within group before inner later ih =>
      have hfirst : ∀ e ∈ leaves.leavesAll before, outside e :=
        fun e he => hbefore e (List.mem_append_left _ he)
      have hothers : ∀ e ∈ leaves.leavesAll later, outside e :=
        fun e he => hlater e (List.mem_append_right _ he)
      have hinner (entry : List ι) (hentry : ∀ a ∈ entry, outside a) :
          (inner.frame entry).Outside outside :=
        ih hentry (fun e he => hbefore e (List.mem_append_right _ he))
          fun e he => hlater e (List.mem_append_left _ he)
      have hbeside (entry : List ι) (hentry : ∀ a ∈ entry, outside a) :
          (frameBeside entry before (inner.frame entry) later).Outside outside :=
        outside_frameBeside hentry (hinner entry hentry) hfirst hothers
      cases group with
      | chain =>
          have hentry : ∀ a ∈ (propagate.inSequence anchors before).frontier, outside a :=
            fun a ha => (mem_frontier_inSequence before anchors a ha).elim (hanchors a) (hfirst a)
          have hf := hinner _ hentry
          refine ⟨hf.arriving, fun r hr => ?_, fun frontier r hr => ?_, fun frontier e he => ?_⟩
          · rcases List.mem_append.mp hr with hr | hr
            · obtain ⟨hfrom, hto⟩ := mem_of_mem_inSequence hr
              exact ⟨hfrom.elim (hanchors _) (hfirst _), hfirst _ hto⟩
            · exact hf.early r hr
          · rcases List.mem_append.mp hr with hr | hr
            · exact hf.late frontier r hr
            · obtain ⟨hfrom, hto⟩ := mem_of_mem_inSequence hr
              exact ⟨hfrom.elim (hf.leaving frontier _) fun h => Or.inl (hothers _ h),
                hothers _ hto⟩
          · exact (mem_frontier_inSequence later _ e he).elim (hf.leaving frontier e)
              fun he => Or.inl (hothers e he)
      | parallel => exact hbeside anchors hanchors
      | detach side =>
          cases side with
          | head =>
              have hf := hbeside [] nofun
              refine ⟨hf.arriving, hf.early, hf.late, fun frontier e he => ?_⟩
              exact (List.mem_append.mp he).elim (fun he => Or.inl (hanchors e he))
                (hf.leaving frontier e)
          | tail =>
              have hf := hbeside anchors hanchors
              exact ⟨hf.arriving, hf.early, hf.late, fun _ e he => Or.inl (hanchors e he)⟩
          | both =>
              have hf := hbeside [] nofun
              exact ⟨hf.arriving, hf.early, hf.late, fun _ e he => Or.inl (hanchors e he)⟩

end Node.Context

/-- A set that no relation leads into is reached from within only. -/
theorem Walk.Reaches.mem_of_entered {w : Walk ι} {side : ι → Prop} {a e : ι} (h : w.Reaches a e)
    (hentered : ∀ r ∈ w.constraints, side r.successor → side r.predecessor) (he : side e) :
    side a := by
  induction h with
  | refl => exact he
  | tail _ hr ih => exact ih (hentered _ hr he)

/-! ### Detached parts -/

/-- Whether the relation is between others than these expectations. -/
def Constraint.avoids [DecidableEq ι] (inside : List ι) (r : Constraint ι) : Bool :=
  r.predecessor ∉ inside ∧ r.successor ∉ inside

theorem Constraint.avoids_iff [DecidableEq ι] {inside : List ι} {r : Constraint ι} :
    r.avoids inside = true ↔ r.predecessor ∉ inside ∧ r.successor ∉ inside :=
  decide_eq_true_iff

namespace Node

variable [DecidableEq ι] {c : Context ι} {side : Cut} {parts : List (Node ι)} {anchors : List ι}

/-- What is met once, and is not what the walk starts from, is outside or inside. -/
theorem outside_frame_of_nodup (hnodup : (c.fill (detach side parts)).leaves.Nodup)
    (hfresh : ∀ a ∈ anchors, a ∉ (c.fill (detach side parts)).leaves) :
    (c.frame anchors).Outside fun e => e ∉ leaves.leavesAll parts := by
  rw [leaves_fill] at hnodup hfresh
  obtain ⟨hleft, -, hright⟩ := List.nodup_append.mp hnodup
  obtain ⟨-, -, hleft⟩ := List.nodup_append.mp hleft
  refine c.outside_frame (fun a ha hin => hfresh a ha ?_) (fun e he hin => hleft e he e hin rfl)
    fun e he hin => hright e ?_ e he rfl
  · exact List.mem_append_left _ (List.mem_append_right _ hin)
  · exact List.mem_append_right _ hin

theorem constraints_detach_of_ne_tail (hside : side ≠ .tail) (anchors : List ι) :
    ((detach side parts).propagate anchors).constraints
      = (propagate.sideBySide [] parts).constraints := by
  cases side with
  | head => rfl
  | tail => exact absurd rfl hside
  | both => rfl

theorem frontier_detach_of_ne_head (hside : side ≠ .head) (parts : List (Node ι))
    (anchors : List ι) :
    ((detach side parts).propagate anchors).frontier = anchors := by
  cases side with
  | head => exact absurd rfl hside
  | tail => rfl
  | both => rfl

/-- Nothing in a part that is detached in front is ordered after what is outside. -/
theorem predecessor_mem_of_successor_mem
    (houtside : (c.frame anchors).Outside fun e => e ∉ leaves.leavesAll parts)
    (hside : side ≠ .tail) :
    ∀ r ∈ ((c.fill (detach side parts)).propagate anchors).constraints,
      r.successor ∈ leaves.leavesAll parts → r.predecessor ∈ leaves.leavesAll parts := by
  intro r hr hin
  rw [Context.propagate_fill] at hr
  rcases List.mem_append.mp hr with hr | hr
  · rcases List.mem_append.mp hr with hr | hr
    · exact absurd hin (houtside.early r hr).2
    · rw [constraints_detach_of_ne_tail hside] at hr
      exact (mem_of_mem_sideBySide hr).1.resolve_left List.not_mem_nil
  · exact absurd hin (houtside.late _ r hr).2

/-- Nothing outside a part that is detached behind is ordered after what is in it. -/
theorem successor_mem_of_predecessor_mem
    (houtside : (c.frame anchors).Outside fun e => e ∉ leaves.leavesAll parts)
    (hside : side ≠ .head) :
    ∀ r ∈ ((c.fill (detach side parts)).propagate anchors).constraints,
      r.predecessor ∈ leaves.leavesAll parts → r.successor ∈ leaves.leavesAll parts := by
  intro r hr hin
  rw [Context.propagate_fill] at hr
  rcases List.mem_append.mp hr with hr | hr
  · rcases List.mem_append.mp hr with hr | hr
    · exact absurd hin (houtside.early r hr).1
    · exact (mem_of_mem_constraints hr).2
  · have hfrom := (houtside.late _ r hr).1
    rw [frontier_detach_of_ne_head hside] at hfrom
    exact absurd hin (hfrom.elim id (houtside.arriving _))

/-- An empty tree in its place leaves all that is outside as it is. -/
theorem propagate_fill_empty
    (houtside : (c.frame anchors).Outside fun e => e ∉ leaves.leavesAll parts)
    (hside : side ≠ .head) :
    (c.fill empty).propagate anchors =
      ⟨((c.fill (detach side parts)).propagate anchors).constraints.filter
          (·.avoids (leaves.leavesAll parts)),
        ((c.fill (detach side parts)).propagate anchors).frontier⟩ := by
  have hfrontier := frontier_detach_of_ne_head hside parts (c.frame anchors).arriving
  have hinner : ((detach side parts).propagate (c.frame anchors).arriving).constraints.filter
      (·.avoids (leaves.leavesAll parts)) = [] := by
    refine List.filter_eq_nil_iff.mpr fun r hr hout => ?_
    exact (Constraint.avoids_iff.mp hout).2 (mem_of_mem_constraints hr).2
  have hearly : (c.frame anchors).early.filter (·.avoids (leaves.leavesAll parts))
      = (c.frame anchors).early :=
    List.filter_eq_self.mpr fun r hr => Constraint.avoids_iff.mpr (houtside.early r hr)
  have hlate : ((c.frame anchors).late (c.frame anchors).arriving).filter
      (·.avoids (leaves.leavesAll parts)) = (c.frame anchors).late (c.frame anchors).arriving := by
    refine List.filter_eq_self.mpr fun r hr => Constraint.avoids_iff.mpr ?_
    obtain ⟨hfrom, hto⟩ := houtside.late _ r hr
    exact ⟨hfrom.elim id (houtside.arriving _), hto⟩
  have hempty : (empty : Node ι).propagate (c.frame anchors).arriving
      = ⟨[], (c.frame anchors).arriving⟩ := rfl
  rw [Context.propagate_fill, Context.propagate_fill, hempty]
  simp only [Frame.around, hfrontier, List.filter_append, hearly, hinner, hlate]

/-- **Detached parts are isolated from what is around them.**

Nothing in a part that is detached in front comes after anything outside, not even by way of
others.  Nothing outside comes after anything in a part that is detached behind, nothing of it is
left at the end, and all that is outside is ordered as if the part were empty. -/
theorem detached_isolated (c : Context ι) (side : Cut) (parts : List (Node ι))
    (hnodup : (c.fill (detach side parts)).leaves.Nodup)
    (hfresh : ∀ a ∈ anchors, a ∉ (c.fill (detach side parts)).leaves) :
    (side ≠ .tail → ∀ p s, ((c.fill (detach side parts)).propagate anchors).Reaches p s →
      s ∈ leaves.leavesAll parts → p ∈ leaves.leavesAll parts) ∧
    (side ≠ .head →
      (∀ p s, ((c.fill (detach side parts)).propagate anchors).Reaches p s →
        p ∈ leaves.leavesAll parts → s ∈ leaves.leavesAll parts) ∧
      (∀ e ∈ ((c.fill (detach side parts)).propagate anchors).frontier,
        e ∉ leaves.leavesAll parts) ∧
      (c.fill empty).propagate anchors =
        ⟨((c.fill (detach side parts)).propagate anchors).constraints.filter
            (·.avoids (leaves.leavesAll parts)),
          ((c.fill (detach side parts)).propagate anchors).frontier⟩) := by
  have houtside := outside_frame_of_nodup hnodup hfresh
  refine ⟨fun hside p s hps hs => ?_, fun hside => ⟨fun p s hps hp => ?_, fun e he => ?_, ?_⟩⟩
  · exact hps.mem_of_entered (predecessor_mem_of_successor_mem houtside hside) hs
  · exact hps.mem_of_closed (successor_mem_of_predecessor_mem houtside hside) hp
  · rw [Context.propagate_fill] at he
    have hleft := houtside.leaving _ e he
    rw [frontier_detach_of_ne_head hside] at hleft
    exact hleft.elim id (houtside.arriving e)
  · exact propagate_fill_empty houtside hside

/-- The places around a part of a parallel group in a chain. -/
def amidChain : Context Nat :=
  .within .chain [single 0]
    (.within .parallel [single 1] (.within (.detach .head) [] .hole [single 4]) []) [single 5]

/-- A chain there that is detached on both sides keeps its own order, and has no other. -/
theorem detached_amid_chain :
    ((amidChain.fill (detach .both [chain [single 2, single 3]])).propagate []).constraints
      = [⟨1, 0⟩, ⟨3, 2⟩, ⟨5, 1⟩, ⟨5, 0⟩, ⟨5, 4⟩] ∧
    (amidChain.fill empty).propagate [] = ⟨[⟨1, 0⟩, ⟨5, 1⟩, ⟨5, 0⟩, ⟨5, 4⟩], [5]⟩ ∧
    ¬((amidChain.fill (detach .both [chain [single 2, single 3]])).propagate []).Reaches 0 3 := by
  have h := detached_isolated amidChain .both [chain [single 2, single 3]]
    (by decide) (List.forall_mem_nil _)
  refine ⟨by decide, (h.2 nofun).2.2.trans (by decide), fun hreaches => ?_⟩
  exact absurd (h.1 nofun 0 3 hreaches (by decide)) (by decide)

end Node

end CallOrder
