/-
Independent parts might as well be detached ones.

An independent setup registers the relations of its parts at once and leaves nothing
behind.  A chain of the same parts, each detached on both sides, registers nothing at first
and leaves a tree that stands for those relations, whatever it comes after.  Where the one
takes the place of the other, the same relations are registered in the end, in another
order (`Bench.eager_or_deferred`).  Only a range around the place would tell them apart,
since it counts the links of a chain.

What makes up for the difference is kept beside the two trees: together with what was
registered while they were built they stand for the same relations, and they lead on with
the same frontier (`Node.Exchange`).  Trees may grow around them, and it stays so; where
such a tree is registered, nothing is left of the difference (`Exchange.kept`).

Nor does it matter whether independent parts are expected together or one after another,
and then not even the order of what is registered differs.
-/
import CallOrder.Proofs.Replacement

namespace CallOrder

variable {ι : Type} [DecidableEq ι]

namespace Node

/-- Two trees that lead on with the same frontier and stand for the same relations, with what was
registered while they were built counted in. -/
structure Exchange (n : Node ι) (own : List (Constraint ι)) (n' : Node ι)
    (own' : List (Constraint ι)) : Prop where
  frontier : ∀ anchors, (n.propagate anchors).frontier = (n'.propagate anchors).frontier
  relations : ∀ anchors, (own ++ (n.propagate anchors).constraints).Perm
    (own' ++ (n'.propagate anchors).constraints)

namespace Exchange

variable {n n' m m' : Node ι} {own own' : List (Constraint ι)}

/-- All that counts of a tree is how it is walked. -/
theorem congr (h : Exchange n own n' own')
    (hm : ∀ anchors, m.propagate anchors = n.propagate anchors)
    (hm' : ∀ anchors, m'.propagate anchors = n'.propagate anchors) : Exchange m own m' own' := by
  refine ⟨fun anchors => ?_, fun anchors => ?_⟩
  · rw [hm, hm']
    exact h.frontier anchors
  · rw [hm, hm']
    exact h.relations anchors

/-- Trees may grow around the two, and relations may be registered before them and after. -/
theorem fill (h : Exchange n own n' own') (c : Context ι) (early late : List (Constraint ι)) :
    Exchange (c.fill n) (early ++ (own ++ late)) (c.fill n') (early ++ (own' ++ late)) where
  frontier anchors := by
    rw [c.propagate_fill, c.propagate_fill, Frame.around, Frame.around, h.frontier]
  relations anchors := by
    have hinner := h.relations (c.frame anchors).arriving
    rw [c.propagate_fill, c.propagate_fill, Frame.around, Frame.around, h.frontier]
    rw [List.perm_iff_count] at hinner ⊢
    intro r
    have hcount := hinner r
    simp only [List.count_append] at hcount ⊢
    omega

/-- **The difference is kept beside whatever grows around**, and nothing is left of it where both
are registered. -/
theorem kept : Kept (Exchange (ι := ι)) where
  among h group before later early late := h.fill (.within group before .hole later) early late
  linked h := h.congr (fun anchors => inSequence_flatMap_links anchors _)
    fun anchors => inSequence_flatMap_links anchors _
  registered h early late := by
    refine ⟨fun anchors => rfl, fun anchors => ?_⟩
    have haround := ((h.relations []).append_right late).append_left early
    show (_ ++ []).Perm (_ ++ [])
    simpa only [List.append_nil, List.append_assoc] using haround

end Exchange

end Node

section Evaluation

variable {π σ τ : Type} {stage : Stage π σ ι} {view : σ → τ}

namespace Stage.Overlooks

/-- Parts that are built and registered one by one leave what the tree stands for that they would
otherwise be detached in. -/
theorem registerEach_detached (h : stage.Overlooks view) (parts : List (Setup π)) :
    Alike view (Setup.build.registerEach stage.recording parts)
      (Setup.build.buildEach stage.recording (parts.map (.detach (.cut .both))))
      fun _ own ns own' => ∀ anchors, (Node.propagate.inSequence anchors ns).frontier = anchors ∧
        own.Perm (own' ++ (Node.propagate.inSequence anchors ns).constraints) := by
  induction parts with
  | nil => exact .pure fun anchors => ⟨rfl, List.Perm.refl _⟩
  | cons part rest ih =>
      simp only [Setup.build.registerEach, List.map_cons, Setup.build.buildEach, Setup.build,
        bind_assoc, pure_bind]
      refine (h.build part).bind fun n own n' own' hn => ?_
      obtain ⟨rfl, rfl⟩ := hn
      refine h.register_first ?_
      rw [← bind_pure (Setup.build.registerEach stage.recording rest)]
      refine ih.gives fun _ further ns further' hrest anchors => ?_
      obtain ⟨hfrontier, hperm⟩ := hrest anchors
      -- A part that is detached on both sides leaves the frontier as it was.
      have hnext : (Node.propagate.inSequence anchors (n.detached (.cut .both) :: ns)).constraints
          = ((n.detached (.cut .both)).propagate anchors).constraints
            ++ (Node.propagate.inSequence anchors ns).constraints := rfl
      refine ⟨hfrontier, ?_⟩
      rw [List.perm_iff_count] at hperm ⊢
      intro r
      have hcount := hperm r
      rw [hnext]
      simp only [Node.constraints_detached_both, List.count_append] at hcount ⊢
      omega

/-- An independent setup and a chain of its parts, each detached on both sides. -/
theorem independent_detached (h : stage.Overlooks view) (parts : List (Setup π)) :
    Alike view ((Setup.independent parts).build stage.recording)
      ((Setup.chain (parts.map (.detach (.cut .both)))).build stage.recording) Node.Exchange := by
  refine (h.registerEach_detached parts).gives fun _ own ns own' hns => ?_
  have hchain (anchors : List ι) : (Node.chain (ns.flatMap Node.links)).propagate anchors
      = Node.propagate.inSequence anchors ns :=
    Node.inSequence_flatMap_links anchors ns
  refine ⟨fun anchors => ?_, fun anchors => ?_⟩
  · rw [hchain]
    exact (hns anchors).1.symm
  · rw [hchain]
    show (own ++ []).Perm _
    rw [List.append_nil]
    exact (hns anchors).2

end Stage.Overlooks

end Evaluation

namespace Handler

variable {κ π σ : Type} [Collaborator κ ι] {produce : π → Attempt (Handler κ) (Node ι)}
  {h t : Handler κ}

/-! ### One after another -/

/-- What is written down while setups are expected one after another. -/
def transcripts (produce : π → Attempt (Handler κ) (Node ι)) :
    List (Setup π) → Handler κ → Transcript ι
  | [], _ => {}
  | setup :: rest, h =>
    transcript produce setup h ++ transcripts produce rest (expect produce setup h).state

/-- A setup whose parts are ordered relative to nothing is not ordered relative to anything. -/
theorem build_independent_independent (stage : Stage π σ ι) (parts : List (Setup π)) :
    (Setup.independent [.independent parts]).build stage
      = (Setup.independent parts).build stage := by
  have hnone : stage.register
      ((Node.detached (.empty : Node ι) (.cut .both)).propagate []).constraints = pure () := rfl
  simp only [Setup.build, Setup.build.registerEach, bind_assoc, pure_bind, hnone]

/-- Independent parts are evaluated one after another. -/
theorem build_independent_cons (stage : Stage π σ ι) (part : Setup π) (rest : List (Setup π)) :
    (Setup.independent (part :: rest)).build stage = (do
      let _ ← (Setup.independent [part]).build stage
      (Setup.independent rest).build stage) := by
  simp only [Setup.build, Setup.build.registerEach, bind_assoc, pure_bind]

/-- Independent parts come to what is expected of them one after another. -/
theorem gives_independent_iff {parts : List (Setup π)} {r r' : Transcript ι} :
    ((Setup.independent parts).build (stage produce).recording).Gives (h, r) .empty (t, r') ↔
      (∃ us, (Attempt.forEach (expect produce) parts).Gives h us t) ∧
        r' = r ++ transcripts produce parts h := by
  induction parts generalizing h r with
  | nil =>
      simp only [Setup.build, Setup.build.registerEach, Attempt.forEach, pure_bind,
        Attempt.gives_pure_iff, transcripts, Transcript.append_nil]
      constructor
      · intro hend
        obtain ⟨rfl, rfl⟩ := Prod.mk.inj hend.2
        exact ⟨⟨[], rfl, rfl⟩, rfl⟩
      · intro hend
        obtain ⟨⟨us, -, rfl⟩, rfl⟩ := hend
        exact ⟨trivial, rfl⟩
  | cons part rest ih =>
      rw [build_independent_cons, Attempt.gives_bind_iff]
      constructor
      · intro hgives
        obtain ⟨n, ⟨u, r₁⟩, hpart, hrest⟩ := hgives
        obtain ⟨-, hu, rfl⟩ := gives_recording_iff.mp hpart
        obtain ⟨⟨us, hus⟩, rfl⟩ := ih.mp hrest
        refine ⟨⟨() :: us, ?_⟩, ?_⟩
        · simp only [Attempt.forEach, Attempt.gives_bind_iff, Attempt.gives_pure_iff]
          exact ⟨(), u, hu, us, t, hus, rfl, rfl⟩
        · rw [transcripts, (Attempt.gives_iff.mp hu).2, Transcript.append_assoc]
      · intro hgives
        obtain ⟨⟨us, hus⟩, rfl⟩ := hgives
        simp only [Attempt.forEach, Attempt.gives_bind_iff, Attempt.gives_pure_iff] at hus
        obtain ⟨_, u, hu, us', v, hus', rfl, rfl⟩ := hus
        refine ⟨.empty, _, gives_recording_iff.mpr ⟨rfl, hu, rfl⟩, ih.mpr ⟨⟨us', hus'⟩, ?_⟩⟩
        rw [transcripts, (Attempt.gives_iff.mp hu).2, Transcript.append_assoc]

/-- **Expecting independent parts together is expecting one after another.** -/
theorem expect_independent_iff (parts : List (Setup π)) :
    ((expect produce (.independent parts)).Gives h () t ↔
        ∃ us, (Attempt.forEach (expect produce) parts).Gives h us t) ∧
      ((expect produce (.independent parts)).Gives h () t →
        transcript produce (.independent parts) h = transcripts produce parts h) := by
  have hboth (r : Transcript ι) :
      ((expect produce (.independent parts)).Gives h () t ∧
          r = transcript produce (.independent parts) h) ↔
        (∃ us, (Attempt.forEach (expect produce) parts).Gives h us t) ∧
          r = transcripts produce parts h := by
    have hrecorded : ((Setup.independent parts).build (stage produce).recording).Gives
        (h, {}) .empty (t, r) ↔ _ := gives_independent_iff
    rw [← build_independent_independent, gives_recording_iff] at hrecorded
    simpa using hrecorded
  refine ⟨⟨fun hexpect => ?_, fun hparts => ?_⟩, fun hexpect => ?_⟩
  · exact ((hboth _).mp ⟨hexpect, rfl⟩).1
  · exact ((hboth _).mpr ⟨hparts, rfl⟩).1
  · exact ((hboth _).mp ⟨hexpect, rfl⟩).2

end Handler

namespace Bench

/-- **Independent parts might as well be detached ones.**

Wherever an independent setup stands, save within a range, a chain of its parts, each detached on
both sides, may stand as well.  The setup succeeds with the one if it does with the other; the same
calls are then declared in the same order, and the same relations are registered, each equally
often.  On its own an independent setup registers what its parts register that are expected one
after another, in the same order. -/
theorem eager_or_deferred (b : Bench) (parts : List (Setup Producer)) :
    (∀ context : Setup.Context Producer, context.Unranged →
      let eager := context.fill (.independent parts)
      let deferred := context.fill (.chain (parts.map (.detach (.cut .both))))
      ((∃ t, (Handler.expect Producer.produce eager).Gives b () t) ↔
        ∃ t, (Handler.expect Producer.produce deferred).Gives b () t) ∧
      ∀ t t', (Handler.expect Producer.produce eager).Gives b () t →
        (Handler.expect Producer.produce deferred).Gives b () t' →
          unordered t = unordered t' ∧
          (Handler.transcript Producer.produce eager b).leaves
            = (Handler.transcript Producer.produce deferred b).leaves ∧
          (Handler.transcript Producer.produce eager b).relations.Perm
            (Handler.transcript Producer.produce deferred b).relations) ∧
    ∀ t, ((Handler.expect Producer.produce (.independent parts)).Gives b () t ↔
        ∃ us, (Attempt.forEach (Handler.expect Producer.produce) parts).Gives b us t) ∧
      ((Handler.expect Producer.produce (.independent parts)).Gives b () t →
        Handler.transcript Producer.produce (.independent parts) b
          = Handler.transcripts Producer.produce parts b) := by
  refine ⟨fun context hcontext => ?_, fun t => Handler.expect_independent_iff parts⟩
  obtain ⟨hsuccess, hsame⟩ := Handler.expect_replaced overlooks_stage Node.Exchange.kept context
    (Or.inl hcontext) b fun t _ => overlooks_stage.independent_detached parts t t rfl
  refine ⟨hsuccess, fun t t' ht ht' => ?_⟩
  obtain ⟨hview, hleaves, hrelations⟩ := hsame t t' ht ht'
  refine ⟨hview, hleaves, ?_⟩
  have hperm := hrelations.relations []
  rwa [Node.propagate, List.append_nil, List.append_nil] at hperm

/-- Something that is to be done about the house. -/
def chore (name : String) : Setup Producer :=
  .leaf (.declare { call := ⟨"house", name, []⟩ })

/-- Chores that have nothing to do with each other, though some come one after another. -/
def chores : List (Setup Producer) :=
  [.chain [chore "sweep", chore "mop"], .independent [.chain [chore "wash", chore "dry"]]]

/-- Something is done beside airing, between entering and leaving. -/
def morning : Setup.Context Producer :=
  .within .chain [chore "enter"] (.within .parallel [] .hole [chore "air"]) [chore "leave"]

/-- Washing up, numbers 3 and 4, is part of the detached chores, but it is independent itself.  So
it is still registered at once and comes before sweeping and mopping, numbers 1 and 2, which are
now registered with the whole morning. -/
theorem chores_amid_morning :
    let early := morning.fill (.independent chores)
    let late := morning.fill (.chain (chores.map (.detach (.cut .both))))
    let relations := fun setup : Setup Producer =>
      (Handler.transcript Producer.produce setup (start .recording {} 1 0)).relations
    (relations early).map (fun r => (r.successor.index, r.predecessor.index))
      = [(2, 1), (4, 3), (5, 0), (6, 0), (6, 5)] ∧
    (relations late).map (fun r => (r.successor.index, r.predecessor.index))
      = [(4, 3), (2, 1), (5, 0), (6, 0), (6, 5)] ∧
    (relations early).Perm (relations late) ∧
    relations (.independent chores)
      = (Handler.transcripts Producer.produce chores (start .recording {} 1 0)).relations := by
  intro early late relations
  obtain ⟨hplaced, halone⟩ := eager_or_deferred (start .recording {} 1 0) chores
  obtain ⟨t, ht⟩ : ∃ t, (Handler.expect Producer.produce early).Gives
      (start .recording {} 1 0) () t := ⟨_, _, rfl⟩
  obtain ⟨hsuccess, hsame⟩ := hplaced morning trivial
  obtain ⟨t', ht'⟩ := hsuccess.mp ⟨t, ht⟩
  obtain ⟨u, hu⟩ : ∃ u, (Handler.expect Producer.produce (.independent chores)).Gives
      (start .recording {} 1 0) () u := ⟨_, _, rfl⟩
  refine ⟨by decide +kernel, by decide +kernel, (hsame t t' ht ht').2.2, ?_⟩
  exact congrArg Transcript.relations ((halone u).2 hu)

end Bench

end CallOrder
