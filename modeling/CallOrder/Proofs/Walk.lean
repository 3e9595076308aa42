/-
The walk over the node tree of a pattern registers the order of the pattern.

The walk registers much less than the order that a pattern stands for: only what is
needed between one part and the next, and from a frontier that forgets most of what
came before.  That the little it registers comes to the same is shown here for every
relation that is transitive over the calls of the pattern (`satisfies_registered_iff`).

What carries the induction is that the frontier stands for all that it replaced.
Where the registered relations hold, a call comes after the frontier exactly if it
comes after everything that the walk met before (`Walks`).  A chain needs that to go
on from where its parts end, and parallel parts need one branch at least to keep it.
-/
import CallOrder.Proofs.Pattern
import Mathlib.Logic.Relation

namespace CallOrder

namespace Pattern

variable {ι : Type} {r : ι → ι → Prop}

/-- The relation holds between calls as the constraints say. -/
def Satisfies (r : ι → ι → Prop) (constraints : List (Constraint ι)) : Prop :=
  ∀ c ∈ constraints, r c.predecessor c.successor

/-- Everything in a frontier leads the call. -/
def Leads (r : ι → ι → Prop) (frontier : List ι) (x : ι) : Prop :=
  ∀ f ∈ frontier, r f x

variable {anchors frontier : List ι} {x : ι}

@[simp] theorem satisfies_append {cs ds : List (Constraint ι)} :
    Satisfies r (cs ++ ds) ↔ Satisfies r cs ∧ Satisfies r ds := by
  simp [Satisfies, or_imp, forall_and]

@[simp] theorem satisfies_nil : Satisfies r ([] : List (Constraint ι)) := by
  simp [Satisfies]

@[simp] theorem leads_append {as bs : List ι} :
    Leads r (as ++ bs) x ↔ Leads r as x ∧ Leads r bs x := by
  simp [Leads, or_imp, forall_and]

@[simp] theorem leads_nil : Leads r ([] : List ι) x := by
  simp [Leads]

theorem satisfies_after_iff [DecidableEq ι] (hrefl : ∀ x, r x x) :
    Satisfies r (Constraint.after anchors x) ↔ Leads r anchors x := by
  constructor
  · intro h a ha
    by_cases hax : a = x
    · rw [hax]
      exact hrefl x
    · exact h ⟨x, a⟩ (List.mem_map.mpr ⟨a, by simp [ha, hax], rfl⟩)
  · intro h c hc
    obtain ⟨a, ha, rfl⟩ := List.mem_map.mp hc
    exact h a (List.mem_filter.mp ha).1

end Pattern

/-! ### Chains in chains -/

namespace Node

variable {ι : Type} [DecidableEq ι]

theorem inSequence_append (anchors : List ι) (ns ms : List (Node ι)) :
    propagate.inSequence anchors (ns ++ ms) =
      let first := propagate.inSequence anchors ns
      let others := propagate.inSequence first.frontier ms
      ⟨first.constraints ++ others.constraints, others.frontier⟩ := by
  induction ns generalizing anchors with
  | nil => rfl
  | cons n ns ih => simp only [List.cons_append, propagate.inSequence, ih, List.append_assoc]

theorem sideBySide_append (anchors : List ι) (ns ms : List (Node ι)) :
    propagate.sideBySide anchors (ns ++ ms) =
      let first := propagate.sideBySide anchors ns
      let others := propagate.sideBySide anchors ms
      ⟨first.constraints ++ others.constraints, first.frontier ++ others.frontier⟩ := by
  induction ns with
  | nil => rfl
  | cons n ns ih => simp only [List.cons_append, propagate.sideBySide, ih, List.append_assoc]

/-- A chain within a chain is walked as if its parts stood there themselves. -/
theorem inSequence_links (anchors : List ι) (n : Node ι) (rest : List (Node ι)) :
    propagate.inSequence anchors (n.links ++ rest) = propagate.inSequence anchors (n :: rest) := by
  cases n with
  | chain parts =>
      rw [links, inSequence_append]
      simp only [propagate.inSequence, propagate]
  | empty => simp [links, propagate.inSequence, propagate]
  | single e => rfl
  | parallel parts => rfl
  | detach side parts => rfl

theorem inSequence_flatMap_links (anchors : List ι) (ns : List (Node ι)) :
    propagate.inSequence anchors (ns.flatMap links) = propagate.inSequence anchors ns := by
  induction ns generalizing anchors with
  | nil => rfl
  | cons n rest ih => simp only [List.flatMap_cons, inSequence_links, propagate.inSequence, ih]

end Node

namespace Pattern

variable {ι : Type} {r : ι → ι → Prop}

/-- A walk registers that the calls it met are ordered and led by what it started from, and its
frontier leads what is led by both. -/
structure Spans (r : ι → ι → Prop) (anchors : List ι) (walk : Walk ι) (ordered : Prop)
    (spine : List ι) : Prop where
  satisfies_iff : Satisfies r walk.constraints ↔ ordered ∧ ∀ x ∈ spine, Leads r anchors x
  frontier_iff : Satisfies r walk.constraints →
    ∀ x, Leads r anchors x → (Leads r walk.frontier x ↔ Leads r spine x)

/-- Besides, whatever the frontier leads is led by what the walk started from. -/
structure Walks (r : ι → ι → Prop) (anchors : List ι) (walk : Walk ι) (ordered : Prop)
    (spine : List ι) : Prop extends Spans r anchors walk ordered spine where
  keeps : Satisfies r walk.constraints → ∀ x, Leads r walk.frontier x → Leads r anchors x

variable {anchors : List ι} {first others : Walk ι} {o o' : Prop} {s s' : List ι}

theorem Walks.stay (anchors : List ι) : Walks r anchors ⟨[], anchors⟩ True [] where
  satisfies_iff := by simp
  frontier_iff := fun _ x hx => by simp [hx]
  keeps := fun _ _ hx => hx

theorem Walks.single [DecidableEq ι] (hrefl : ∀ x, r x x) {e : ι}
    (htrans : ∀ x z, r x e → r e z → r x z) :
    Walks r anchors ((Node.single e).propagate anchors) True [e] where
  satisfies_iff := by
    rw [Node.propagate, satisfies_after_iff hrefl]
    simp
  frontier_iff := fun _ x _ => Iff.rfl
  keeps := by
    intro h x hx a ha
    rw [Node.propagate, satisfies_after_iff hrefl] at h
    exact htrans a x (h a ha) (hx e (by simp [Node.propagate]))

/-- One walk from where another ended. -/
theorem Walks.andThen (h : Walks r anchors first o s) (h' : Walks r first.frontier others o' s') :
    Walks r anchors ⟨first.constraints ++ others.constraints, others.frontier⟩
      (o ∧ o' ∧ ∀ x ∈ s, ∀ y ∈ s', r x y) (s ++ s') := by
  -- What the frontier between the two leads is led by all that came before.
  have hbetween : Satisfies r first.constraints → ∀ y,
      Leads r first.frontier y ↔ Leads r anchors y ∧ Leads r s y := by
    intro hfirst y
    constructor
    · intro hy
      have ha := h.keeps hfirst y hy
      exact ⟨ha, (h.frontier_iff hfirst y ha).mp hy⟩
    · intro h
      obtain ⟨ha, hs⟩ := h
      exact (h.frontier_iff hfirst y ha).mpr hs
  refine ⟨⟨?_, ?_⟩, ?_⟩
  · rw [satisfies_append, h'.satisfies_iff]
    constructor
    · intro h
      obtain ⟨hfirst, ho', hlater⟩ := h
      obtain ⟨ho, hs⟩ := h.satisfies_iff.mp hfirst
      refine ⟨⟨ho, ho', ?_⟩, ?_⟩
      · intro x hx y hy
        exact ((hbetween hfirst y).mp (hlater y hy)).2 x hx
      · intro x hx
        rcases List.mem_append.mp hx with hx | hx
        · exact hs x hx
        · exact ((hbetween hfirst x).mp (hlater x hx)).1
    · intro h
      obtain ⟨⟨ho, ho', hcross⟩, hall⟩ := h
      have hfirst : Satisfies r first.constraints :=
        h.satisfies_iff.mpr ⟨ho, fun x hx => hall x (List.mem_append_left _ hx)⟩
      refine ⟨hfirst, ho', ?_⟩
      intro y hy
      exact (hbetween hfirst y).mpr
        ⟨hall y (List.mem_append_right _ hy), fun x hx => hcross x hx y hy⟩
  · intro hsat x hx
    obtain ⟨hfirst, hothers⟩ := satisfies_append.mp hsat
    rw [leads_append]
    constructor
    · intro hfront
      have hmid := h'.keeps hothers x hfront
      exact ⟨((hbetween hfirst x).mp hmid).2, (h'.frontier_iff hothers x hmid).mp hfront⟩
    · intro h
      obtain ⟨hs, hs'⟩ := h
      exact (h'.frontier_iff hothers x ((hbetween hfirst x).mpr ⟨hx, hs⟩)).mpr hs'
  · intro hsat x hfront
    obtain ⟨hfirst, hothers⟩ := satisfies_append.mp hsat
    exact h.keeps hfirst x (h'.keeps hothers x hfront)

/-- Two walks from the same frontier. -/
theorem Spans.beside (h : Spans r anchors first o s) (h' : Spans r anchors others o' s') :
    Spans r anchors
      ⟨first.constraints ++ others.constraints, first.frontier ++ others.frontier⟩
      (o ∧ o') (s ++ s') := by
  refine ⟨?_, ?_⟩
  · rw [satisfies_append, h.satisfies_iff, h'.satisfies_iff]
    constructor
    · intro h
      obtain ⟨⟨ho, hs⟩, ho', hs'⟩ := h
      refine ⟨⟨ho, ho'⟩, ?_⟩
      intro x hx
      rcases List.mem_append.mp hx with hx | hx
      · exact hs x hx
      · exact hs' x hx
    · intro h
      obtain ⟨⟨ho, ho'⟩, hall⟩ := h
      exact ⟨⟨ho, fun x hx => hall x (List.mem_append_left _ hx)⟩,
        ho', fun x hx => hall x (List.mem_append_right _ hx)⟩
  · intro hsat x hx
    obtain ⟨hfirst, hothers⟩ := satisfies_append.mp hsat
    rw [leads_append, leads_append, h.frontier_iff hfirst x hx, h'.frontier_iff hothers x hx]

/-! ### The walk over a pattern -/

variable [DecidableEq ι]

mutual

/-- **The walk over a pattern registers the order of the pattern**, after what it starts from. -/
theorem walks (hrefl : ∀ x, r x x) : ∀ (p : Pattern ι) (anchors : List ι),
    (∀ y ∈ p.spine, ∀ x z, r x y → r y z → r x z) →
      Walks r anchors (p.node.propagate anchors) (p.Ordered r) p.spine
  | .leaf e, anchors, htrans => Walks.single hrefl (htrans e (by simp [spine]))
  | .chain parts, anchors, htrans => walks_inSequence hrefl parts anchors htrans
  | .parallel first others, anchors, htrans => by
      have hfirst := walks hrefl first anchors fun y hy =>
        htrans y (List.mem_append_left _ hy)
      have hothers := spans_sideBySide hrefl others anchors fun y hy =>
        htrans y (List.mem_append_right _ hy)
      -- One branch is enough to keep what the walk started from.
      refine ⟨hfirst.toSpans.beside hothers, ?_⟩
      intro hsat x hx
      exact hfirst.keeps (satisfies_append.mp hsat).1 x (leads_append.mp hx).1
  | .independent parts, anchors, _ => Walks.stay anchors

theorem walks_inSequence (hrefl : ∀ x, r x x) : ∀ (parts : List (Pattern ι)) (anchors : List ι),
    (∀ y ∈ spine.spineAll parts, ∀ x z, r x y → r y z → r x z) →
      Walks r anchors
        (Node.propagate.inSequence anchors ((node.nodes parts).flatMap Node.links))
        (Ordered.inSequence r parts) (spine.spineAll parts)
  | [], anchors, _ => Walks.stay anchors
  | p :: rest, anchors, htrans => by
      have hfirst := walks hrefl p anchors fun y hy => htrans y (List.mem_append_left _ hy)
      have hothers := walks_inSequence hrefl rest (p.node.propagate anchors).frontier fun y hy =>
        htrans y (List.mem_append_right _ hy)
      rw [node.nodes, List.flatMap_cons, Node.inSequence_links]
      exact hfirst.andThen hothers

theorem spans_sideBySide (hrefl : ∀ x, r x x) : ∀ (parts : List (Pattern ι)) (anchors : List ι),
    (∀ y ∈ spine.spineAll parts, ∀ x z, r x y → r y z → r x z) →
      Spans r anchors (Node.propagate.sideBySide anchors (node.nodes parts))
        (Ordered.sideBySide r parts) (spine.spineAll parts)
  | [], anchors, _ => ⟨by simp [Node.propagate.sideBySide, node.nodes, Ordered.sideBySide,
      spine.spineAll], fun _ _ _ => Iff.rfl⟩
  | p :: rest, anchors, htrans => by
      have hfirst := walks hrefl p anchors fun y hy => htrans y (List.mem_append_left _ hy)
      have hothers := spans_sideBySide hrefl rest anchors fun y hy =>
        htrans y (List.mem_append_right _ hy)
      exact hfirst.toSpans.beside hothers

end

/-! ### No call is registered after itself -/

end Pattern

namespace Node

variable {ι : Type} [DecidableEq ι]

mutual

theorem ne_of_mem_propagate : ∀ (n : Node ι) (anchors : List ι),
    ∀ c ∈ (n.propagate anchors).constraints, c.predecessor ≠ c.successor
  | .single e, anchors, c, hc => by
      obtain ⟨a, ha, rfl⟩ := List.mem_map.mp hc
      simpa using (List.mem_filter.mp ha).2
  | .chain parts, anchors, c, hc => ne_of_mem_inSequence parts anchors c hc
  | .parallel parts, anchors, c, hc => ne_of_mem_sideBySide parts anchors c hc
  | .detach .head parts, _, c, hc => ne_of_mem_sideBySide parts [] c hc
  | .detach .tail parts, anchors, c, hc => ne_of_mem_sideBySide parts anchors c hc
  | .detach .both parts, _, c, hc => ne_of_mem_sideBySide parts [] c hc
  | .empty, _, _, hc => absurd hc List.not_mem_nil

theorem ne_of_mem_inSequence : ∀ (parts : List (Node ι)) (anchors : List ι),
    ∀ c ∈ (propagate.inSequence anchors parts).constraints, c.predecessor ≠ c.successor
  | [], _, _, hc => absurd hc List.not_mem_nil
  | n :: rest, anchors, c, hc => by
      rcases List.mem_append.mp hc with hc | hc
      · exact ne_of_mem_propagate n anchors c hc
      · exact ne_of_mem_inSequence rest _ c hc

theorem ne_of_mem_sideBySide : ∀ (parts : List (Node ι)) (anchors : List ι),
    ∀ c ∈ (propagate.sideBySide anchors parts).constraints, c.predecessor ≠ c.successor
  | [], _, _, hc => absurd hc List.not_mem_nil
  | n :: rest, anchors, c, hc => by
      rcases List.mem_append.mp hc with hc | hc
      · exact ne_of_mem_propagate n anchors c hc
      · exact ne_of_mem_sideBySide rest anchors c hc

end

end Node

namespace Pattern

variable {ι : Type} [DecidableEq ι] {r : ι → ι → Prop}

mutual

theorem ne_of_mem_registered : ∀ (p : Pattern ι), ∀ c ∈ p.registered,
    c.predecessor ≠ c.successor
  | .leaf _, _, hc => absurd hc List.not_mem_nil
  | .chain parts, c, hc => ne_of_mem_registeredAll parts c hc
  | .parallel first others, c, hc => by
      rcases List.mem_append.mp hc with hc | hc
      · exact ne_of_mem_registered first c hc
      · exact ne_of_mem_registeredAll others c hc
  | .independent parts, c, hc => ne_of_mem_registeredEach parts c hc

theorem ne_of_mem_registeredAll : ∀ (parts : List (Pattern ι)),
    ∀ c ∈ registered.registeredAll parts, c.predecessor ≠ c.successor
  | [], _, hc => absurd hc List.not_mem_nil
  | p :: rest, c, hc => by
      rcases List.mem_append.mp hc with hc | hc
      · exact ne_of_mem_registered p c hc
      · exact ne_of_mem_registeredAll rest c hc

theorem ne_of_mem_registeredEach : ∀ (parts : List (Pattern ι)),
    ∀ c ∈ registered.registeredEach parts, c.predecessor ≠ c.successor
  | [], _, hc => absurd hc List.not_mem_nil
  | p :: rest, c, hc => by
      rcases List.mem_append.mp hc with hc | hc
      · rcases List.mem_append.mp hc with hc | hc
        · exact ne_of_mem_registered p c hc
        · exact p.node.ne_of_mem_propagate [] c hc
      · exact ne_of_mem_registeredEach rest c hc

end

/-! ### What a pattern registers -/

mutual

theorem satisfies_registered_iff_of_refl (hrefl : ∀ x, r x x) : ∀ p : Pattern ι,
    (∀ y ∈ p.leaves, ∀ x z, r x y → r y z → r x z) →
      (Satisfies r p.registered ↔ ∀ q ∈ p.freeParts, q.Ordered r)
  | .leaf _, _ => by simp [registered, freeParts]
  | .chain parts, htrans => satisfies_registeredAll_iff hrefl parts htrans
  | .parallel first others, htrans => by
      have hfirst := satisfies_registered_iff_of_refl hrefl first fun y hy =>
        htrans y (List.mem_append_left _ hy)
      have hothers := satisfies_registeredAll_iff hrefl others fun y hy =>
        htrans y (List.mem_append_right _ hy)
      rw [registered, satisfies_append, hfirst, hothers, freeParts, List.forall_mem_append]
  | .independent parts, htrans => satisfies_registeredEach_iff hrefl parts htrans

theorem satisfies_registeredAll_iff (hrefl : ∀ x, r x x) : ∀ parts : List (Pattern ι),
    (∀ y ∈ leaves.leavesAll parts, ∀ x z, r x y → r y z → r x z) →
      (Satisfies r (registered.registeredAll parts) ↔
        ∀ q ∈ freeParts.freeAll parts, q.Ordered r)
  | [], _ => by simp [registered.registeredAll, freeParts.freeAll]
  | p :: rest, htrans => by
      have hfirst := satisfies_registered_iff_of_refl hrefl p fun y hy =>
        htrans y (List.mem_append_left _ hy)
      have hothers := satisfies_registeredAll_iff hrefl rest fun y hy =>
        htrans y (List.mem_append_right _ hy)
      rw [registered.registeredAll, satisfies_append, hfirst, hothers, freeParts.freeAll,
        List.forall_mem_append]

theorem satisfies_registeredEach_iff (hrefl : ∀ x, r x x) : ∀ parts : List (Pattern ι),
    (∀ y ∈ leaves.leavesAll parts, ∀ x z, r x y → r y z → r x z) →
      (Satisfies r (registered.registeredEach parts) ↔
        ∀ q ∈ freeParts.freeEach parts, q.Ordered r)
  | [], _ => by simp [registered.registeredEach, freeParts.freeEach]
  | p :: rest, htrans => by
      have hfirst := satisfies_registered_iff_of_refl hrefl p fun y hy =>
        htrans y (List.mem_append_left _ hy)
      have hothers := satisfies_registeredEach_iff hrefl rest fun y hy =>
        htrans y (List.mem_append_right _ hy)
      -- The part itself is walked from nothing, so nothing leads it.
      have hown : Satisfies r (p.node.propagate []).constraints ↔ p.Ordered r := by
        have hwalk := (walks hrefl p [] fun y hy =>
          htrans y (List.mem_append_left _ (p.spine_sublist.subset hy))).satisfies_iff
        simpa using hwalk
      rw [registered.registeredEach, satisfies_append, satisfies_append, hfirst, hown, hothers,
        freeParts.freeEach, List.forall_mem_append, List.forall_mem_cons, @and_comm (p.Ordered r)]

end

/-- **What a pattern registers holds of a relation exactly if its free parts are ordered by it.** -/
theorem satisfies_registered_iff {p : Pattern ι} (hnodup : p.leaves.Nodup)
    (htrans : ∀ y ∈ p.leaves, ∀ x z, r x y → r y z → r x z) :
    Satisfies r p.registered ↔ ∀ q ∈ p.freeParts, q.Ordered r := by
  -- No call is registered after itself, so the relation may as well be reflexive.
  have hsame : Satisfies r p.registered ↔ Satisfies (Relation.ReflGen r) p.registered := by
    refine forall₂_congr fun c hc => ?_
    have hne := (ne_of_mem_registered p c hc).symm
    simp [Relation.reflGen_iff, hne]
  have htrans' : ∀ y ∈ p.leaves, ∀ x z, Relation.ReflGen r x y → Relation.ReflGen r y z →
      Relation.ReflGen r x z := by
    intro y hy x z hxy hyz
    rcases hxy with _ | hxy
    · exact hyz
    · rcases hyz with _ | hyz
      · exact .single hxy
      · exact .single (htrans y hy x z hxy hyz)
  rw [hsame, satisfies_registered_iff_of_refl (fun x => .refl) p htrans']
  refine forall₂_congr fun q hq => ?_
  refine Ordered.congr q ?_ ?_
  · exact (hnodup.sublist (freeParts_sublist p q hq)).sublist q.spine_sublist
  · intro x _ y _ hxy
    simp [Relation.reflGen_iff, hxy.symm]

/-- What a pattern registers is between leaves of it. -/
theorem mem_leaves_of_mem_registered {p : Pattern ι} (hnodup : p.leaves.Nodup) :
    ∀ c ∈ p.registered, c.predecessor ∈ p.leaves ∧ c.successor ∈ p.leaves := by
  have h : Satisfies (fun x y => x ∈ p.leaves ∧ y ∈ p.leaves) p.registered := by
    rw [satisfies_registered_iff hnodup fun y _ x z hxy hyz => ⟨hxy.1, hyz.2⟩]
    intro q hq
    have hsub := (q.spine_sublist.trans (freeParts_sublist p q hq)).subset
    exact Ordered.of_forall q fun x hx y hy => ⟨hsub hx, hsub hy⟩
  exact h

end Pattern

end CallOrder
