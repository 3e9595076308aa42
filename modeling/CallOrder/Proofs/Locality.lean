/-
Taking a range of a part orders nothing anew inside the part.

What a range is taken of is registered as a whole, on its own.  Then the range, which is a
smaller tree, stands for the part in whatever is around it, and it is walked again with
that, and once more for every range that is taken further out.  None of these walks adds
a relation between two expectations of the part, and where they order one of them
relative to the surroundings it is one that the range has kept (`range_local`).

Two facts about walks are behind this.  A walk from more anchors adds nothing but
relations to those it has more (`Walk.Within`), so the surroundings matter only by the
anchors that they bring along, and these are none of the part's.  And a range of a tree,
walked on its own, finds nothing that the tree does not find (`constraints_between`).
-/
import CallOrder.Proofs.Transcript

namespace CallOrder

variable {ι : Type}

/-! ### Walks from more anchors -/

/-- The first walk finds nothing that the second does not, except after further anchors. -/
structure Walk.Within (w v : Walk ι) (further : List ι) : Prop where
  constraints : ∀ r ∈ w.constraints, r.predecessor ∈ further ∨ r ∈ v.constraints
  frontier : ∀ e ∈ w.frontier, e ∈ further ∨ e ∈ v.frontier

namespace Node

variable [DecidableEq ι]

mutual

/-- **A walk from more anchors orders nothing anew but after those it has more.** -/
theorem propagate_within : ∀ (n : Node ι) {anchors fewer further : List ι},
    (∀ a ∈ anchors, a ∈ further ∨ a ∈ fewer) →
      (n.propagate anchors).Within (n.propagate fewer) further
  | .single x, anchors, fewer, further, h => by
      refine ⟨fun r hr => ?_, fun e he => Or.inr he⟩
      simp only [propagate, Constraint.after, List.mem_map, List.mem_filter] at hr ⊢
      obtain ⟨a, ⟨ha, hne⟩, rfl⟩ := hr
      exact (h a ha).imp id fun hin => ⟨a, ⟨hin, hne⟩, rfl⟩
  | .chain parts, _, _, _, h => inSequence_within parts h
  | .parallel parts, _, _, _, h => sideBySide_within parts h
  | .detach .head parts, anchors, fewer, further, h => by
      refine ⟨fun r hr => Or.inr hr, fun e he => ?_⟩
      rcases List.mem_append.mp he with he | he
      · exact (h e he).imp id (List.mem_append_left _)
      · exact Or.inr (List.mem_append_right _ he)
  | .detach .tail parts, _, _, _, h => ⟨(sideBySide_within parts h).constraints, h⟩
  | .detach .both parts, _, _, _, h => ⟨fun _ hr => Or.inr hr, h⟩
  | .empty, _, _, _, h => ⟨nofun, h⟩

theorem inSequence_within : ∀ (parts : List (Node ι)) {anchors fewer further : List ι},
    (∀ a ∈ anchors, a ∈ further ∨ a ∈ fewer) →
      (propagate.inSequence anchors parts).Within (propagate.inSequence fewer parts) further
  | [], _, _, _, h => ⟨nofun, h⟩
  | n :: rest, anchors, fewer, further, h => by
      have hfirst := propagate_within n h
      have hrest := inSequence_within rest hfirst.frontier
      refine ⟨fun r hr => ?_, hrest.frontier⟩
      rcases List.mem_append.mp hr with hr | hr
      · exact (hfirst.constraints r hr).imp id (List.mem_append_left _)
      · exact (hrest.constraints r hr).imp id (List.mem_append_right _)

theorem sideBySide_within : ∀ (parts : List (Node ι)) {anchors fewer further : List ι},
    (∀ a ∈ anchors, a ∈ further ∨ a ∈ fewer) →
      (propagate.sideBySide anchors parts).Within (propagate.sideBySide fewer parts) further
  | [], _, _, _, _ => ⟨nofun, nofun⟩
  | n :: rest, anchors, fewer, further, h => by
      have hfirst := propagate_within n h
      have hrest := sideBySide_within rest h
      refine ⟨fun r hr => ?_, fun e he => ?_⟩
      · rcases List.mem_append.mp hr with hr | hr
        · exact (hfirst.constraints r hr).imp id (List.mem_append_left _)
        · exact (hrest.constraints r hr).imp id (List.mem_append_right _)
      · rcases List.mem_append.mp he with he | he
        · exact (hfirst.frontier e he).imp id (List.mem_append_left _)
        · exact (hrest.frontier e he).imp id (List.mem_append_right _)

end

theorem mem_propagate_of_nil {n : Node ι} {r : Constraint ι}
    (hr : r ∈ (n.propagate []).constraints) (anchors : List ι) :
    r ∈ (n.propagate anchors).constraints :=
  ((n.propagate_within (List.forall_mem_nil _)).constraints r hr).resolve_left List.not_mem_nil

/-! ### Ranges of a tree -/

theorem mem_inSequence_infix {parts : List (Node ι)} {r : Constraint ι}
    (hr : r ∈ (propagate.inSequence [] parts).constraints) (before later : List (Node ι)) :
    r ∈ (propagate.inSequence [] (before ++ (parts ++ later))).constraints := by
  simp only [inSequence_append]
  refine List.mem_append_right _ (List.mem_append_left _ ?_)
  exact mem_propagate_of_nil (n := .chain parts) hr _

theorem mem_sideBySide_infix {parts : List (Node ι)} {r : Constraint ι}
    (hr : r ∈ (propagate.sideBySide [] parts).constraints) (before later : List (Node ι)) :
    r ∈ (propagate.sideBySide [] (before ++ (parts ++ later))).constraints := by
  simp only [sideBySide_append]
  exact List.mem_append_right _ (List.mem_append_left _ hr)

/-- What is found in a range of a group is found in the group, if what is found in some of its
parts in a row is. -/
theorem mem_of_mem_ofSlice {group : List (Node ι) → Node ι} {r : Constraint ι}
    (hgroup : ∀ parts before later, r ∈ ((group parts).propagate []).constraints →
      r ∈ ((group (before ++ (parts ++ later))).propagate []).constraints)
    (hone : ∀ n, r ∈ (n.propagate []).constraints → r ∈ ((group [n]).propagate []).constraints)
    {p q : Int64} {parts : List (Node ι)}
    (hr : r ∈ ((ofSlice group (Slice.between p q parts)).propagate []).constraints) :
    r ∈ ((group parts).propagate []).constraints := by
  simp only [Slice.between] at hr
  split at hr
  · cases hi : parts[clampIndex p parts.length]? with
    | none => simp [hi, ofSlice, propagate] at hr
    | some n =>
        simp only [hi, Option.map_some, ofSlice] at hr
        obtain ⟨before, later, rfl⟩ := List.append_of_mem (List.mem_of_getElem? hi)
        exact hgroup [n] before later (hone n hr)
  · simp only [ofSlice] at hr
    have hsplit (i k : Nat) :
        (parts.take k).take i ++ ((parts.take k).drop i ++ parts.drop k) = parts := by
      rw [← List.append_assoc, List.take_append_drop, List.take_append_drop]
    rw [← hsplit (min (clampIndex p parts.length) (clampIndex q parts.length))]
    exact hgroup _ _ _ hr

/-- **What is found in a range of a tree is found in the tree.** -/
theorem mem_of_mem_between {n : Node ι} {p q : Int64} {r : Constraint ι}
    (hr : r ∈ ((n.between p q).propagate []).constraints) : r ∈ (n.propagate []).constraints := by
  cases n with
  | chain parts =>
      refine mem_of_mem_ofSlice (fun parts before later h => mem_inSequence_infix h before later)
        (fun n hn => List.mem_append_left _ hn) hr
  | parallel parts =>
      refine mem_of_mem_ofSlice (fun parts before later h => mem_sideBySide_infix h before later)
        (fun n hn => List.mem_append_left _ hn) hr
  | _ => exact hr

/-! ### A part with a smaller tree in its place -/

/-- Of the part's own expectations, the tree has only those of the smaller tree, and they are
ordered as in that one. -/
structure Placed (own : ι → Prop) (m n : Node ι) : Prop where
  leaves : ∀ e ∈ n.leaves, own e → e ∈ m.leaves
  constraints : ∀ r ∈ (n.propagate []).constraints, own r.successor → own r.predecessor →
    r ∈ (m.propagate []).constraints

namespace Placed

variable {own : ι → Prop} {m n : Node ι} {before later : List (Node ι)} {anchors : List ι}
  {r : Constraint ι}

theorem refl (own : ι → Prop) (m : Node ι) : Placed own m m :=
  ⟨fun _ he _ => he, fun _ hr _ _ => hr⟩

theorem empty (own : ι → Prop) (m : Node ι) : Placed own m .empty :=
  ⟨nofun, nofun⟩

/-- So they are also behind anchors that are not the part's own. -/
theorem of_foreign (h : Placed own m n) (hanchors : ∀ a ∈ anchors, ¬own a)
    (hr : r ∈ (n.propagate anchors).constraints) (hs : own r.successor) (hp : own r.predecessor) :
    r ∈ (m.propagate []).constraints := by
  have hwithin : (n.propagate anchors).Within (n.propagate []) anchors :=
    n.propagate_within fun _ ha => Or.inl ha
  rcases hwithin.constraints r hr with hin | hin
  · exact absurd hp (hanchors _ hin)
  · exact h.constraints r hin hs hp

theorem between (h : Placed own m n) (p q : Int64) : Placed own m (n.between p q) where
  leaves e he := h.leaves e ((n.leaves_between_sublist p q).subset he)
  constraints r hr := h.constraints r (mem_of_mem_between hr)

theorem inSequence (h : Placed own m n) (hbefore : ∀ e ∈ Node.leaves.leavesAll before, ¬own e)
    (hlater : ∀ e ∈ Node.leaves.leavesAll later, ¬own e) :
    Placed own m (.chain (before ++ n :: later)) where
  leaves e he hown := by
    simp only [Node.leaves, leavesAll_append, Node.leaves.leavesAll, List.mem_append] at he
    rcases he with he | he | he
    · exact absurd hown (hbefore e he)
    · exact h.leaves e he hown
    · exact absurd hown (hlater e he)
  constraints r hr hs hp := by
    simp only [propagate, inSequence_append, propagate.inSequence, List.mem_append] at hr
    rcases hr with hr | hr | hr
    · exact absurd hs (hbefore _ (mem_of_mem_inSequence hr).2)
    · refine h.of_foreign (fun a ha => ?_) hr hs hp
      exact hbefore a ((mem_frontier_inSequence before [] a ha).resolve_left List.not_mem_nil)
    · exact absurd hs (hlater _ (mem_of_mem_inSequence hr).2)

theorem parallel (h : Placed own m n) (hbefore : ∀ e ∈ Node.leaves.leavesAll before, ¬own e)
    (hlater : ∀ e ∈ Node.leaves.leavesAll later, ¬own e) :
    Placed own m (.parallel (before ++ n :: later)) where
  leaves := (h.inSequence hbefore hlater).leaves
  constraints r hr hs hp := by
    simp only [propagate, sideBySide_append, propagate.sideBySide, List.mem_append] at hr
    rcases hr with hr | hr | hr
    · exact absurd hs (hbefore _ (mem_of_mem_sideBySide hr).2)
    · exact h.constraints r hr hs hp
    · exact absurd hs (hlater _ (mem_of_mem_sideBySide hr).2)

/-- The parts of a chain may stand in a chain themselves. -/
theorem chain (h : Placed own m n) (hbefore : ∀ e ∈ Node.leaves.leavesAll before, ¬own e)
    (hlater : ∀ e ∈ Node.leaves.leavesAll later, ¬own e) :
    Placed own m (.chain ((before ++ n :: later).flatMap links)) where
  leaves e he := by
    rw [Node.leaves, leavesAll_flatMap_links] at he
    exact (h.inSequence hbefore hlater).leaves e he
  constraints r hr := by
    rw [propagate, inSequence_flatMap_links] at hr
    exact (h.inSequence hbefore hlater).constraints r hr

theorem detached (h : Placed own m n) (mode : DetachMode) : Placed own m (n.detached mode) where
  leaves e he := h.leaves e (by rwa [leaves_detached] at he)
  constraints r hr hs hp := by
    refine h.constraints r ?_ hs hp
    cases mode with
    | none => exact hr
    | cut side =>
        -- On its own, a detached tree has nothing to be cut from.
        have hown : r ∈ (propagate.sideBySide [] [n]).constraints := by cases side <;> exact hr
        simpa [propagate.sideBySide] using hown

end Placed

end Node

/-! ### A part in its surroundings -/

/-- The relation is not new among the part's own expectations, and if it is between one of them
and another, that one is in the smaller tree. -/
structure Constraint.Respects [DecidableEq ι] (own : ι → Prop) (m : Node ι) (r : Constraint ι) :
    Prop where
  inside : own r.successor → own r.predecessor → r ∈ (m.propagate []).constraints
  successor : own r.successor → ¬own r.predecessor → r.successor ∈ m.leaves
  predecessor : own r.predecessor → ¬own r.successor → r.predecessor ∈ m.leaves

/-- None of the expectations that leaves came to are the part's own. -/
def Transcript.Foreign (own : ι → Prop) (r : Transcript ι) : Prop :=
  ∀ e ∈ r.leaves, ¬own e

variable [DecidableEq ι] {own : ι → Prop} {m n : Node ι}

theorem Node.Placed.respects (h : Node.Placed own m n) :
    ∀ r ∈ (n.propagate []).constraints, r.Respects own m := by
  intro r hr
  obtain ⟨hp, hs⟩ := mem_of_mem_constraints hr
  refine ⟨h.constraints r hr, fun hown _ => h.leaves _ hs hown, fun hown _ => ?_⟩
  exact h.leaves _ (hp.resolve_left List.not_mem_nil) hown

theorem Transcript.Closed.respects {r : Transcript ι} (h : r.Closed) (hforeign : r.Foreign own)
    (m : Node ι) : ∀ c ∈ r.relations, c.Respects own m := by
  intro c hc
  have hp := hforeign _ (h c hc).1
  have hs := hforeign _ (h c hc).2
  exact ⟨fun hown => absurd hown hs, fun hown => absurd hown hs, fun hown => absurd hown hp⟩

namespace Setup.Context

variable {π σ : Type} {stage : Stage π σ ι} {s t : σ} {r r' : Transcript ι}

/-- What two stretches of a transcript and a tree are to what is between them, if that came to the
tree `m`: they see of what is in there no more than of this tree. -/
def Surround (m n : Node ι) (early late : Transcript ι) : Prop :=
  ∀ own, early.Foreign own → late.Foreign own →
    Node.Placed own m n ∧ (∀ c ∈ early.relations, c.Respects own m) ∧
      ∀ c ∈ late.relations, c.Respects own m

namespace Surround

variable {early late added : Transcript ι}

theorem itself (m : Node ι) : Surround m m {} {} :=
  fun own _ _ => ⟨.refl own m, nofun, nofun⟩

theorem change {n' : Node ι} (h : Surround m n early late)
    (hplaced : ∀ own, early.Foreign own → late.Foreign own → Node.Placed own m n →
      Node.Placed own m n') : Surround m n' early late := by
  intro own hearly hlate
  obtain ⟨hn, hrelations⟩ := h own hearly hlate
  exact ⟨hplaced own hearly hlate hn, hrelations⟩

theorem before (h : Surround m n early late) (hadded : added.Closed) :
    Surround m n (added ++ early) late := by
  intro own hearly hlate
  obtain ⟨hfirst, hearly⟩ := List.forall_mem_append.mp hearly
  obtain ⟨hn, hrelations, hothers⟩ := h own hearly hlate
  exact ⟨hn, List.forall_mem_append.mpr ⟨hadded.respects hfirst m, hrelations⟩, hothers⟩

theorem later (h : Surround m n early late) (hadded : added.Closed) :
    Surround m n early (late ++ added) := by
  intro own hearly hlate
  obtain ⟨hlate, hlast⟩ := List.forall_mem_append.mp hlate
  obtain ⟨hn, hrelations, hothers⟩ := h own hearly hlate
  exact ⟨hn, hrelations, List.forall_mem_append.mpr ⟨hothers, hadded.respects hlast m⟩⟩

/-- The whole may be registered on its own. -/
theorem registered (h : Surround m n early late) :
    Surround m n early (late ++ { relations := (n.propagate []).constraints }) := by
  intro own hearly hlate
  obtain ⟨hlate, -⟩ := List.forall_mem_append.mp hlate
  obtain ⟨hn, hrelations, hothers⟩ := h own hearly hlate
  exact ⟨hn, hrelations, List.forall_mem_append.mpr ⟨hothers, hn.respects⟩⟩

end Surround

/-- The evaluation of a setup is part of one that comes to `n` and writes down what makes `r'` of
`r`.  It is led up to by an attempt and comes to a tree of its own, and all that is written down
before it and after it surrounds it. -/
def Encloses (stage : Stage π σ ι) (lead : Attempt (σ × Transcript ι) Unit) (setup : Setup π)
    (s : σ) (r : Transcript ι) (n : Node ι) (r' : Transcript ι) : Prop :=
  ∃ u v m early mid late,
    lead.Gives (s, r) () (u, r ++ early) ∧
    (setup.build stage.recording).Gives (u, r ++ early) m (v, r ++ early ++ mid) ∧
    r' = r ++ early ++ mid ++ late ∧ Surround m n early late

namespace Encloses

variable {lead : Attempt (σ × Transcript ι) Unit} {setup : Setup π}

theorem change {n' : Node ι} (h : Encloses stage lead setup s r n r')
    (hplaced : ∀ own m, Node.Placed own m n → Node.Placed own m n') :
    Encloses stage lead setup s r n' r' := by
  obtain ⟨u, v, m, early, mid, late, hlead, hsetup, hwhole, hsurround⟩ := h
  exact ⟨u, v, m, early, mid, late, hlead, hsetup, hwhole,
    hsurround.change fun own _ _ => hplaced own m⟩

theorem registered (h : Encloses stage lead setup s r n r') :
    Encloses stage lead setup s r n (r' ++ { relations := (n.propagate []).constraints }) := by
  obtain ⟨u, v, m, early, mid, late, hlead, hsetup, rfl, hsurround⟩ := h
  exact ⟨u, v, m, early, mid, _, hlead, hsetup, Transcript.append_assoc .., hsurround.registered⟩

/-- There may be trees to the left and to the right of it that belong to the surroundings. -/
theorem beside {α : Type} {x : Attempt (σ × Transcript ι) α} {a : α} {u : σ}
    {first last : Transcript ι} {n' : Node ι} (ms ls : List (Node ι))
    (h : Encloses stage lead setup u (r ++ first) n r') (hx : x.Gives (s, r) a (u, r ++ first))
    (hfirst : first.Closed) (hms : Node.leaves.leavesAll ms ⊆ first.leaves)
    (hlast : last.Closed) (hls : Node.leaves.leavesAll ls ⊆ last.leaves)
    (hplaced : ∀ own m, (∀ e ∈ Node.leaves.leavesAll ms, ¬own e) →
      (∀ e ∈ Node.leaves.leavesAll ls, ¬own e) → Node.Placed own m n → Node.Placed own m n') :
    Encloses stage (x >>= fun _ => lead) setup s r n' (r' ++ last) := by
  obtain ⟨v, w, m, early, mid, late, hlead, hsetup, rfl, hsurround⟩ := h
  rw [Transcript.append_assoc r] at hlead hsetup
  refine ⟨v, w, m, first ++ early, mid, late ++ last, ?_, hsetup, ?_, ?_⟩
  · exact Attempt.gives_bind_iff.mpr ⟨a, _, hx, hlead⟩
  · simp only [Transcript.append_assoc]
  · refine ((hsurround.before hfirst).later hlast).change fun own hearly hlate =>
      hplaced own m (fun e he => ?_) fun e he => ?_
    · exact hearly e (List.mem_append_left _ (hms he))
    · exact hlate e (List.mem_append_right _ (hls he))

end Encloses

/-- **The evaluation of a setup with something in a hole is that of what is in the hole between two
stretches that surround it.** -/
theorem encloses_fill (context : Context π) (setup : Setup π)
    (h : ((context.fill setup).build stage.recording).Gives (s, r) n (t, r')) :
    Encloses stage (context.lead stage.recording) setup s r n r' := by
  induction context generalizing s r n t r' with
  | hole =>
      obtain ⟨-, rfl⟩ := gives_build_recording h
      refine ⟨s, t, n, {}, setup.transcript stage s, {}, ?_, ?_, ?_, .itself n⟩
      · simp [lead]
      · simpa [fill] using h
      · simp [fill]
  | within group before inner later ih =>
      cases group with
      | independent =>
          simp only [fill, Group.setup, build, Attempt.gives_bind_iff, Attempt.gives_pure_iff] at h
          obtain ⟨_, _, heach, rfl, rfl⟩ := h
          obtain ⟨n', u, v, r₁, first, last, hbefore, hinner, rfl, hfirst, hlast⟩ :=
            gives_registerEach_middle heach
          exact (ih hinner).registered.beside [] [] hbefore hfirst (List.nil_subset _) hlast
            (List.nil_subset _) fun own m _ _ _ => .empty own m
      | chain =>
          simp only [fill, Group.setup, build, Attempt.gives_bind_iff, Attempt.gives_pure_iff] at h
          obtain ⟨_, _, heach, rfl, rfl⟩ := h
          obtain ⟨ms, n', ls, u, v, r₁, first, last, hbefore, hinner, rfl, rfl, hfirst, hlast⟩ :=
            gives_buildEach_middle heach
          exact (ih hinner).beside ms ls hbefore hfirst.1 hfirst.2 hlast.1 hlast.2
            fun own m hms hls hn => hn.chain hms hls
      | parallel =>
          simp only [fill, Group.setup, build, Attempt.gives_bind_iff, Attempt.gives_pure_iff] at h
          obtain ⟨_, _, heach, rfl, rfl⟩ := h
          obtain ⟨ms, n', ls, u, v, r₁, first, last, hbefore, hinner, rfl, rfl, hfirst, hlast⟩ :=
            gives_buildEach_middle heach
          exact (ih hinner).beside ms ls hbefore hfirst.1 hfirst.2 hlast.1 hlast.2
            fun own m hms hls hn => hn.parallel hms hls
  | detach mode inner ih =>
      simp only [fill, build, Attempt.gives_bind_iff, Attempt.gives_pure_iff] at h
      obtain ⟨n', _, hinner, rfl, rfl⟩ := h
      exact (ih hinner).change fun own m hn => hn.detached mode
  | range p q inner ih =>
      simp only [fill, build, Attempt.gives_bind_iff] at h
      obtain ⟨n', ⟨_, _⟩, hinner, hrange⟩ := h
      cases hcut : n'.cut? with
      | some side => simp [hcut] at hrange
      | none =>
          simp only [hcut, Attempt.gives_bind_iff, Attempt.gives_pure_iff] at hrange
          obtain ⟨_, _, hown, rfl, rfl⟩ := hrange
          rw [Stage.gives_register_recording hown]
          exact (ih hinner).registered.change fun own m hn => hn.between p q

/-- With a range in the hole, the part that it is taken of is evaluated and registered between the
two stretches, and the range is the tree that they see. -/
theorem transcript_fill_range (context : Context π) (p q : Int64) (part : Setup π)
    (h : ((context.fill (.range p q part)).build stage).Gives s n t) :
    ∃ m u early late, (part.build stage).Gives (context.entry stage s) m u ∧ m.cut? = none ∧
      (context.fill (.range p q part)).transcript stage s = early
        ++ part.transcript stage (context.entry stage s)
        ++ { relations := (m.propagate []).constraints } ++ late ∧
      Surround (m.between p q) n early late := by
  obtain ⟨u, v, range, early, mid, late, hlead, hrange, hwhole, hsurround⟩ :=
    context.encloses_fill (.range p q part) ((stage.records_build _).recorded h {})
  obtain ⟨hlead, -⟩ := (context.records_lead stage).gives hlead
  have hentry : context.entry stage s = u := (Attempt.gives_iff.mp hlead).2
  simp only [build, Attempt.gives_bind_iff] at hrange
  obtain ⟨m, ⟨w, r₁⟩, hpart, hrange⟩ := hrange
  obtain ⟨hown, rfl⟩ := gives_build_recording hpart
  cases hcut : m.cut? with
  | some side => simp [hcut] at hrange
  | none =>
      simp only [hcut, Attempt.gives_bind_iff, Attempt.gives_pure_iff] at hrange
      obtain ⟨_, ⟨_, _⟩, hregister, rfl, hstate⟩ := hrange
      obtain ⟨rfl, hmid⟩ := Prod.mk.inj hstate
      rw [Stage.gives_register_recording hregister] at hmid
      rw [hentry]
      refine ⟨m, w, early, late, hown, hcut, ?_, hsurround⟩
      rw [← hmid] at hwhole
      exact hwhole

end Setup.Context

namespace Handler

variable {κ π : Type} [Collaborator κ ι] {produce : π → Attempt (Handler κ) (Node ι)}

/-- **A range is local to the part that it is taken of.**

Let a setup be expected in which a range is taken of a part, whose leaves come to expectations that
no other leaf comes to.  Between the expectations of the part, those relations are registered that
its own evaluation registers and those of its tree, and no others.  Where an expectation of the
part is related to one from elsewhere, it is in the range. -/
theorem range_local (context : Setup.Context π) (p q : Int64) (part : Setup π) {h t : Handler κ}
    {whole own : Transcript ι}
    (hexpect : (expect produce (context.fill (.range p q part))).Gives h () t)
    (hwhole : transcript produce (context.fill (.range p q part)) h = whole)
    (hown : part.transcript (stage produce) (context.entry (stage produce) h) = own)
    (hfresh : ∀ e ∈ own.leaves, whole.leaves.count e = own.leaves.count e) :
    ∃ n u, (part.build (stage produce)).Gives (context.entry (stage produce) h) n u ∧
      n.cut? = none ∧
      (∀ x ∈ n.leaves, ∀ y ∈ n.leaves, ⟨x, y⟩ ∈ whole.relations ↔
        ⟨x, y⟩ ∈ own.relations ∨ ⟨x, y⟩ ∈ (n.propagate []).constraints) ∧
      ∀ x ∈ n.leaves, ∀ y, y ∉ own.leaves →
        ⟨x, y⟩ ∈ whole.relations ∨ ⟨y, x⟩ ∈ whole.relations → x ∈ (n.between p q).leaves := by
  let outer := Setup.Context.within .independent [] context []
  have houter : outer.entry (stage produce) h = context.entry (stage produce) h := by
    simp [outer, Setup.Context.entry, Setup.Context.lead, Setup.build.registerEach]
  have hbuild : ((outer.fill (.range p q part)).build (stage produce)).Gives h .empty t :=
    gives_expect_iff.mp hexpect
  obtain ⟨n, u, early, late, hpart, hcut, hsplit, hsurround⟩ :=
    outer.transcript_fill_range p q part hbuild
  rw [houter] at hpart hsplit
  have hsplit : whole = early ++ own ++ { relations := (n.propagate []).constraints } ++ late := by
    rw [← hwhole, ← hown]
    exact hsplit
  have hleaves : n.leaves ⊆ own.leaves := hown ▸ Setup.leaves_subset_transcript hpart
  have hclosed : own.Closed := hown ▸ part.closed_transcript (stage produce) _
  have hforeign : early.Foreign (· ∈ own.leaves) ∧ late.Foreign (· ∈ own.leaves) := by
    have hcount (e : ι) (he : e ∈ own.leaves) :
        early.leaves.count e = 0 ∧ late.leaves.count e = 0 := by
      have hequal := hfresh e he
      simp only [hsplit, Transcript.leaves_append, List.count_append, List.count_nil] at hequal
      omega
    exact ⟨fun e hin he => List.count_eq_zero.mp (hcount e he).1 hin,
      fun e hin he => List.count_eq_zero.mp (hcount e he).2 hin⟩
  obtain ⟨-, hearly, hlate⟩ := hsurround _ hforeign.1 hforeign.2
  have hmem (r : Constraint ι) : r ∈ whole.relations ↔
      (r ∈ own.relations ∨ r ∈ (n.propagate []).constraints) ∨
        (r ∈ early.relations ∨ r ∈ late.relations) := by
    simp only [hsplit, Transcript.relations_append, List.mem_append]
    tauto
  have haround : ∀ r, r ∈ early.relations ∨ r ∈ late.relations →
      r.Respects (· ∈ own.leaves) (n.between p q) :=
    fun r hr => hr.elim (hearly r) (hlate r)
  have hinside : ∀ r, r ∈ own.relations ∨ r ∈ (n.propagate []).constraints →
      r.predecessor ∈ own.leaves ∧ r.successor ∈ own.leaves := by
    intro r hr
    rcases hr with hr | hr
    · exact hclosed r hr
    · obtain ⟨hp, hs⟩ := Node.mem_of_mem_constraints hr
      exact ⟨hleaves (hp.resolve_left List.not_mem_nil), hleaves hs⟩
  refine ⟨n, u, hpart, hcut, fun x hx y hy => ?_, fun x hx y hy hrelated => ?_⟩
  · rw [hmem]
    refine ⟨fun hr => hr.elim id fun hr => Or.inr ?_, Or.inl⟩
    exact Node.mem_of_mem_between ((haround _ hr).inside (hleaves hx) (hleaves hy))
  · rw [hmem, hmem] at hrelated
    rcases hrelated with (hr | hr) | (hr | hr)
    · exact absurd (hinside _ hr).1 hy
    · exact (haround _ hr).successor (hleaves hx) hy
    · exact absurd (hinside _ hr).2 hy
    · exact (haround _ hr).predecessor (hleaves hx) hy

end Handler

namespace Bench

/-- A knock, then something while a light goes on, all of which is looked at again, and then a door
is closed. -/
def arrival : Setup.Context Producer :=
  .within .chain [.leaf (.declare { call := ⟨"door", "knock", []⟩ })]
    (.range 0 (-1) (.within .parallel [] .hole [.leaf (.declare { call := ⟨"light", "on", []⟩ })]))
    [.leaf (.declare { call := ⟨"door", "close", []⟩ })]

/-- Four rings, each louder than the one before. -/
def rings : Setup Producer :=
  .chain ([1, 2, 3, 4].map fun loudness =>
    .leaf (.declare { call := ⟨"bell", "ring", [.number loudness]⟩ }))

/-- What is written down of the arrival, with the middle ones of the rings amid it. -/
def arrived : Transcript CallId :=
  Handler.transcript Producer.produce (arrival.fill (.range 1 2 rings)) (start .recording {} 1 0)

/-- The second and the third ring, numbers 2 and 3, come between the knock and the closing of the
door.  All four are ordered among each other as if there were no arrival. -/
theorem middle_rings_on_arrival :
    arrived.relations.map (fun r => (r.successor.index, r.predecessor.index))
      = [(2, 1), (3, 2), (4, 3), (3, 2), (2, 0), (3, 2), (5, 0), (6, 3), (6, 5)] ∧
    ∃ n u, (rings.build (Handler.stage Producer.produce)).Gives
        (arrival.entry (Handler.stage Producer.produce) (start .recording {} 1 0)) n u ∧
      (∀ x ∈ n.leaves, ∀ y ∈ n.leaves,
        ⟨x, y⟩ ∈ arrived.relations ↔ ⟨x, y⟩ ∈ (n.propagate []).constraints) ∧
      ∀ x ∈ n.leaves, ⟨x, ⟨0, 0⟩⟩ ∈ arrived.relations → x ∈ (n.between 1 2).leaves := by
  obtain ⟨t, hexpect⟩ : ∃ t,
      (Handler.expect Producer.produce (arrival.fill (.range 1 2 rings))).Gives
        (start .recording {} 1 0) () t := ⟨_, _, rfl⟩
  have harrived : arrived.leaves
      = [⟨0, 0⟩, ⟨0, 1⟩, ⟨0, 2⟩, ⟨0, 3⟩, ⟨0, 4⟩, ⟨0, 5⟩, ⟨0, 6⟩] := by decide +kernel
  obtain ⟨own, hown, hleaves, hrelations⟩ : ∃ own, rings.transcript (Handler.stage Producer.produce)
      (arrival.entry (Handler.stage Producer.produce) (start .recording {} 1 0)) = own ∧
        own.leaves = [⟨0, 1⟩, ⟨0, 2⟩, ⟨0, 3⟩, ⟨0, 4⟩] ∧ own.relations = [] :=
    ⟨_, rfl, by decide +kernel, by decide +kernel⟩
  obtain ⟨n, u, hbuild, -, hinside, houtside⟩ :=
    Handler.range_local arrival 1 2 rings hexpect (show _ = arrived from rfl) hown (by
      rw [hleaves, harrived]
      decide)
  refine ⟨by decide +kernel, n, u, hbuild, fun x hx y hy => ?_, fun x hx hrelated => ?_⟩
  · simpa [hrelations] using hinside x hx y hy
  · exact houtside x hx ⟨0, 0⟩ (by rw [hleaves]; decide) (Or.inl hrelated)

end Bench

end CallOrder
