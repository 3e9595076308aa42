/-
Laws of ranges.

A range is taken of a part that is evaluated and registered as a whole, and what it leaves
is a tree made of the part's own.  So one range may say what another says.

The range from the first position to the last one leaves a tree that is walked as the part
is.  What is registered of the part on its own would have been registered anyway where the
tree is walked, since a walk finds no fewer relations if it starts from more
(`Node.mem_propagate_of_nil`).  So nothing is changed by taking it, whatever stands around
it, unless a range is taken around it as well, which would count the parts of a group that
was left whole (`Node.Substitute`).

A range of a range leaves the tree that one range of the part leaves, with other positions.
The two differ in what they register by the relations of the first range, and these are
found in the part (`Node.mem_of_mem_between`).  As their trees are the same, ranges may be
taken around them, too (`Node.Coincide`).
-/
import CallOrder.Proofs.Locality
import CallOrder.Proofs.Replacement
import CallOrder.Proofs.Span

namespace CallOrder

variable {ι : Type} [DecidableEq ι]

/-! ### Two likenesses -/

namespace Node

/-- Two trees that lead on with the same frontier and stand for the same set of relations, with what
was registered while they were built counted in. -/
structure Substitute (n : Node ι) (own : List (Constraint ι)) (n' : Node ι)
    (own' : List (Constraint ι)) : Prop where
  frontier : ∀ anchors, (n.propagate anchors).frontier = (n'.propagate anchors).frontier
  relations : ∀ anchors r, r ∈ own ++ (n.propagate anchors).constraints ↔
    r ∈ own' ++ (n'.propagate anchors).constraints

/-- One and the same tree, with the same set of relations registered while it was built. -/
def Coincide (n : Node ι) (own : List (Constraint ι)) (n' : Node ι)
    (own' : List (Constraint ι)) : Prop :=
  n = n' ∧ ∀ r, r ∈ own ↔ r ∈ own'

theorem Substitute.kept : Kept (Substitute (ι := ι)) where
  among {n own n' own'} h group before later early late := by
    let place := Context.within group before .hole later
    have hfrontier (anchors : List ι) : ((place.fill n).propagate anchors).frontier
        = ((place.fill n').propagate anchors).frontier := by
      rw [place.propagate_fill, place.propagate_fill, Frame.around, Frame.around, h.frontier]
    refine ⟨hfrontier, fun anchors r => ?_⟩
    show r ∈ _ ++ ((place.fill n).propagate anchors).constraints ↔
      r ∈ _ ++ ((place.fill n').propagate anchors).constraints
    have hinner := h.relations (place.frame anchors).arriving r
    rw [place.propagate_fill, place.propagate_fill, Frame.around, Frame.around, h.frontier]
    simp only [List.mem_append] at hinner ⊢
    grind
  linked h := by
    refine ⟨fun anchors => ?_, fun anchors r => ?_⟩
    · rw [propagate, propagate, inSequence_flatMap_links, inSequence_flatMap_links]
      exact h.frontier anchors
    · rw [propagate, propagate, inSequence_flatMap_links, inSequence_flatMap_links]
      exact h.relations anchors r
  registered h early late := by
    refine ⟨fun anchors => rfl, fun anchors r => ?_⟩
    have hown := h.relations [] r
    simp only [List.mem_append] at hown ⊢
    grind

namespace Coincide

variable {n n' : Node ι} {own own' : List (Constraint ι)}

omit [DecidableEq ι] in
theorem around (h : ∀ r, r ∈ own ↔ r ∈ own') (n : Node ι) (early late : List (Constraint ι)) :
    Coincide n (early ++ (own ++ late)) n (early ++ (own' ++ late)) :=
  ⟨rfl, fun r => by simp only [List.mem_append, h r]⟩

theorem kept : Kept (Coincide (ι := ι)) where
  among {n own n' own'} h group before later early late := by
    obtain ⟨rfl, hown⟩ := h
    exact around hown _ early late
  linked h := by
    obtain ⟨hchain, hown⟩ := h
    exact ⟨by rw [chain.inj hchain], hown⟩
  registered h early late := by
    obtain ⟨rfl, hown⟩ := h
    exact around hown _ early _

theorem ranged : Ranged (Coincide (ι := ι)) where
  cut h := congrArg cut? h.1
  between h p q := by
    obtain ⟨rfl, hown⟩ := h
    exact around hown _ [] _

end Coincide

end Node

/-! ### Ranges of a part -/

section Evaluation

variable {π σ τ : Type} {stage : Stage π σ ι} {view : σ → τ} {s t : σ} {part : Setup π}
  {n : Node ι} {added : Transcript ι}

theorem Setup.adds_range (h : (part.build stage.recording).Adds s n t added)
    (hcut : n.cut? = none) (p q : Int64) :
    ((Setup.range p q part).build stage.recording).Adds s (n.between p q)
      ((n.propagate []).constraints.foldl (fun t c => stage.order c t) t)
      (added ++ { relations := (n.propagate []).constraints }) := by
  refine h.bind ?_
  rw [hcut]
  have hregister := stage.adds_register (n.propagate []).constraints t
  rw [← Transcript.append_nil ({ relations := _ } : Transcript ι)]
  exact hregister.bind (.pure _ _)

namespace Stage.Overlooks

/-- The whole range may be taken of a part. -/
theorem range_whole (h : stage.Overlooks view) (hpart : (part.build stage).Gives s n t)
    (hcut : n.cut? = none) (hn : n ≠ .parallel []) :
    AlikeFrom view s s (part.build stage.recording)
      ((Setup.range 0 (-1) part).build stage.recording) Node.Substitute := by
  obtain ⟨added, hadds⟩ := (stage.records_build part).adds hpart
  refine Or.inr ⟨n, t, added, _, _, _, hadds, Setup.adds_range hadds hcut 0 (-1),
    (h.foldl_order _ t).symm, (List.append_nil _).symm, fun anchors => ?_, fun anchors r => ?_⟩
  · rw [Node.propagate_whole hn]
  · have hwalk (hr : r ∈ (n.propagate []).constraints) := Node.mem_propagate_of_nil hr anchors
    rw [Node.propagate_whole hn, Transcript.relations_append]
    simp only [List.mem_append]
    grind

end Stage.Overlooks

/-- A range of a range of a part comes to what a range of the part comes to. -/
theorem Setup.adds_range_range (hpart : (part.build stage).Gives s n t) {p q a a' i j : Int64}
    (hlt : Slice.low p q n.sequence.length < Slice.high p q n.sequence.length)
    (hi : i.toInt = n.further p q a) (hj : j.toInt = n.further p q a') :
    ∃ twice once : List (Constraint ι), ∃ added added' : Transcript ι,
      ((Setup.range a a' (.range p q part)).build stage.recording).Adds s (n.between i j)
        (twice.foldl (fun t c => stage.order c t) t) added ∧
      ((Setup.range i j part).build stage.recording).Adds s (n.between i j)
        (once.foldl (fun t c => stage.order c t) t) added' ∧
      added.leaves = added'.leaves ∧ ∀ r, r ∈ added.relations ↔ r ∈ added'.relations := by
  obtain ⟨added, hadds⟩ := (stage.records_build part).adds hpart
  obtain ⟨-, hcut, hcut'⟩ := Node.sequence_between_of_lt hlt
  have htwice := adds_range (adds_range hadds hcut p q) hcut' a a'
  rw [Node.between_between hlt hi hj, ← List.foldl_append] at htwice
  refine ⟨_, _, _, _, htwice, adds_range hadds hcut i j, List.append_nil _, fun r => ?_⟩
  have hbetween := Node.mem_of_mem_between (n := n) (p := p) (q := q) (r := r)
  simp only [Transcript.relations_append, List.mem_append]
  grind

end Evaluation

namespace Bench

/-- Expecting one setup succeeds if expecting the other does.  The same calls are then declared in
the same order, and the same set of relations is registered. -/
def SameOrder (b : Bench) (x y : Setup Producer) : Prop :=
  ((∃ t, (Handler.expect Producer.produce x).Gives b () t) ↔
    ∃ t, (Handler.expect Producer.produce y).Gives b () t) ∧
  ∀ t t', (Handler.expect Producer.produce x).Gives b () t →
    (Handler.expect Producer.produce y).Gives b () t' →
      unordered t = unordered t' ∧
      (Handler.transcript Producer.produce x b).leaves
        = (Handler.transcript Producer.produce y b).leaves ∧
      ∀ r, r ∈ (Handler.transcript Producer.produce x b).relations ↔
        r ∈ (Handler.transcript Producer.produce y b).relations

/-- Both setups come to one and the same tree, and the same set of relations is registered. -/
def SameTree (b : Bench) (x y : Setup Producer) : Prop :=
  ∃ n t t', (x.build (Handler.stage Producer.produce)).Gives b n t ∧
    (y.build (Handler.stage Producer.produce)).Gives b n t' ∧ unordered t = unordered t' ∧
    ∀ r, r ∈ (x.transcript (Handler.stage Producer.produce) b).relations ↔
      r ∈ (y.transcript (Handler.stage Producer.produce) b).relations

section Place

variable {b : Bench} {context : Setup.Context Producer} {part : Setup Producer}
  {n : Node CallId} {u : Bench}

/-- What is alike in a place leaves the same order, if the likeness is kept around the place. -/
theorem sameOrder_fill
    {like : Node CallId → List (Constraint CallId) → Node CallId → List (Constraint CallId) → Prop}
    (hkept : Node.Kept like) (hplace : context.Unranged ∨ Node.Ranged like)
    (hset : ∀ own own', like .empty own .empty own' → ∀ r, r ∈ own ↔ r ∈ own')
    {x y : Setup Producer}
    (hxy : AlikeFrom unordered (context.entry (Handler.stage Producer.produce) b)
      (context.entry (Handler.stage Producer.produce) b)
      (x.build (Handler.stage Producer.produce).recording)
      (y.build (Handler.stage Producer.produce).recording) like) :
    SameOrder b (context.fill x) (context.fill y) := by
  obtain ⟨hsuccess, hsame⟩ := Handler.expect_replaced overlooks_stage hkept context hplace b
    (x := x) (y := y) fun t ht => by
      obtain rfl : context.entry (Handler.stage Producer.produce) b = t :=
        (Attempt.gives_iff.mp ht).2
      exact hxy
  refine ⟨hsuccess, fun t t' ht ht' => ?_⟩
  obtain ⟨hview, hleaves, hlike⟩ := hsame t t' ht ht'
  exact ⟨hview, hleaves, hset _ _ hlike⟩

theorem sameOrder_range_whole
    (hpart : (part.build (Handler.stage Producer.produce)).Gives
      (context.entry (Handler.stage Producer.produce) b) n u)
    (hcontext : context.Unranged) (hcut : n.cut? = none) (hn : n ≠ .parallel []) :
    SameOrder b (context.fill part) (context.fill (.range 0 (-1) part)) := by
  refine sameOrder_fill Node.Substitute.kept (Or.inl hcontext) (fun own own' hlike r => ?_)
    (overlooks_stage.range_whole hpart hcut hn)
  have hset := hlike.relations [] r
  rwa [Node.propagate, List.append_nil, List.append_nil] at hset

theorem same_range_range
    (hpart : (part.build (Handler.stage Producer.produce)).Gives
      (context.entry (Handler.stage Producer.produce) b) n u) {p q a a' i j : Int64}
    (hlt : Slice.low p q n.sequence.length < Slice.high p q n.sequence.length)
    (hi : i.toInt = n.further p q a) (hj : j.toInt = n.further p q a') :
    SameTree (context.entry (Handler.stage Producer.produce) b) (.range a a' (.range p q part))
        (.range i j part) ∧
      SameOrder b (context.fill (.range a a' (.range p q part)))
        (context.fill (.range i j part)) := by
  obtain ⟨twice, once, added, added', htwice, honce, hleaves, hset⟩ :=
    Setup.adds_range_range hpart hlt hi hj
  have hview : unordered (twice.foldl (fun t c => (Handler.stage Producer.produce).order c t) u)
      = unordered (once.foldl (fun t c => (Handler.stage Producer.produce).order c t) u) := by
    rw [overlooks_stage.foldl_order, overlooks_stage.foldl_order]
  constructor
  · obtain ⟨hbuild, hadded⟩ := Setup.gives_build_recording (htwice {})
    obtain ⟨hbuild', hadded'⟩ := Setup.gives_build_recording (honce {})
    refine ⟨_, _, _, hbuild, hbuild', hview, fun r => ?_⟩
    rw [Transcript.nil_append, Transcript.nil_append] at hadded hadded'
    rw [← hadded, ← hadded']
    exact hset r
  · exact sameOrder_fill Node.Coincide.kept (Or.inr Node.Coincide.ranged) (fun _ _ h => h.2)
      (Or.inr ⟨_, _, _, _, _, _, htwice, honce, hview, hleaves, rfl, hset⟩)

/-- **Ranges that say nothing new.**

Let a part come to a tree in the place where it stands.  If no range is taken around the place, and
the tree is neither detached nor side by side with nothing, the range of all of it may be taken
there.  If a range of it has more than one element, a range of that range may as well be taken of
the part, at positions as many elements further on as the first range starts, which are positions
as long as one can count the elements of the tree.  The two then come to the same tree and register
the same set of relations, and setups with either of them in the place leave the same order. -/
theorem range_laws (b : Bench) (context : Setup.Context Producer) (part : Setup Producer)
    (n : Node CallId) (u : Bench)
    (hpart : (part.build (Handler.stage Producer.produce)).Gives
      (context.entry (Handler.stage Producer.produce) b) n u) :
    (context.Unranged → n.cut? = none → n ≠ .parallel [] →
      SameOrder b (context.fill part) (context.fill (.range 0 (-1) part))) ∧
    ∀ p q : Int64, Slice.low p q n.sequence.length < Slice.high p q n.sequence.length →
      ((n.sequence.length : Int) ≤ Int64.maxValue.toInt →
        ∀ a : Int64, ∃ i : Int64, i.toInt = n.further p q a) ∧
      ∀ a a' i j : Int64, i.toInt = n.further p q a → j.toInt = n.further p q a' →
        SameTree (context.entry (Handler.stage Producer.produce) b)
            (.range a a' (.range p q part)) (.range i j part) ∧
          SameOrder b (context.fill (.range a a' (.range p q part)))
            (context.fill (.range i j part)) := by
  refine ⟨sameOrder_range_whole hpart, fun p q hlt => ⟨fun hlength a => ?_, ?_⟩⟩
  · have hfurther := Slice.further_lt hlt a
    rw [← Node.further_of_lt hlt] at hfurther
    exact exists_toInt_eq _ (by omega)
  · exact fun a a' i j hi hj => same_range_range hpart hlt hi hj

/-- Someone knocks before something else, and afterwards the door is closed. -/
def reception : Setup.Context Producer :=
  .within .chain [.leaf (.declare { call := ⟨"door", "knock", []⟩ })] .hole
    [.leaf (.declare { call := ⟨"door", "close", []⟩ })]

/-- During a reception all four rings may be named as a range.  The last three of them, the last one
first, are the fourth ring down to the second. -/
theorem rings_during_reception :
    let pairs := fun setup : Setup Producer =>
      (Handler.transcript Producer.produce setup (start .recording {} 1 0)).relations.map
        fun r => (r.successor.index, r.predecessor.index)
    pairs (reception.fill rings) = [(1, 0), (2, 1), (3, 2), (4, 3), (5, 4)] ∧
    pairs (reception.fill (.range 0 (-1) rings))
      = [(2, 1), (3, 2), (4, 3), (1, 0), (2, 1), (3, 2), (4, 3), (5, 4)] ∧
    SameOrder (start .recording {} 1 0) (reception.fill rings)
      (reception.fill (.range 0 (-1) rings)) ∧
    pairs (reception.fill (.range (-1) 0 (.range 1 (-1) rings)))
      = [(2, 1), (3, 2), (4, 3), (3, 2), (4, 3), (2, 0), (3, 2), (4, 3), (5, 4)] ∧
    SameOrder (start .recording {} 1 0) (reception.fill (.range (-1) 0 (.range 1 (-1) rings)))
      (reception.fill (.range 3 1 rings)) := by
  intro pairs
  obtain ⟨u, hrings⟩ : ∃ u, (rings.build (Handler.stage Producer.produce)).Gives
      (reception.entry (Handler.stage Producer.produce) (start .recording {} 1 0))
      (.chain [.single ⟨0, 1⟩, .single ⟨0, 2⟩, .single ⟨0, 3⟩, .single ⟨0, 4⟩]) u := ⟨_, _, rfl⟩
  obtain ⟨hwhole, hrange⟩ := range_laws (start .recording {} 1 0) reception rings _ u hrings
  obtain ⟨-, hranges⟩ := hrange 1 (-1) (by decide)
  refine ⟨by decide +kernel, by decide +kernel, hwhole trivial rfl nofun, by decide +kernel, ?_⟩
  exact (hranges (-1) 0 3 1 (by decide) (by decide)).2

end Place

end Bench

end CallOrder
