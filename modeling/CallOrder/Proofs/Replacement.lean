/-
One setup in the place of another.

Let two setups be evaluated in the same place, each with the same around it.  What comes
before the place is the same, so both start from the same state; that is where they have to
be compared, and nowhere else.  What comes after goes by a view of the state that leaves
relations out (`Stage.Overlooks`), and does the same after either if the view is the same.

So it is left to what the two come to: a tree each, and the relations that were registered
on the way.  A likeness of these is kept if trees may grow around the two, and if both may
be registered (`Node.Kept`).  Then it holds of the wholes if it holds in the place, though
perhaps not if a range is taken around the place; for that it has to be kept by ranges as
well (`Node.Ranged`, `Stage.Overlooks.fill`).
-/
import CallOrder.Proofs.Deferral
import CallOrder.Proofs.Isolation

namespace CallOrder

variable {ι : Type}

/-! ### Starting alike -/

section Start

variable {σ τ α γ δ : Type} {view : σ → τ} {s : σ} {x : Attempt (σ × Transcript ι) α}
  {y : Attempt σ α}

/-- Where what is recorded succeeds, something is added, the same whatever was there. -/
theorem Attempt.Records.adds (h : x.Records y) {a : α} {t : σ} (hy : y.Gives s a t) :
    ∃ added, x.Adds s a t added := by
  obtain ⟨hresult, rfl⟩ := gives_iff.mp hy
  obtain ⟨added, hx⟩ := h s
  exact ⟨added, fun r => ⟨(y s).events, by rw [hx r, hresult]⟩⟩

/-- What comes first is the same, and it leads both to the same state. -/
theorem AlikeFrom.after {next : α → Attempt (σ × Transcript ι) γ}
    {next' : α → Attempt (σ × Transcript ι) δ}
    {post : γ → List (Constraint ι) → δ → List (Constraint ι) → Prop} (h : x.Records y)
    (hnext : ∀ a t early, y.Gives s a t → AlikeFrom view t t (next a) (next' a)
      fun c own d own' => post c (early ++ own) d (early ++ own')) :
    AlikeFrom view s s (x >>= next) (x >>= next') post := by
  cases hresult : (y s).result with
  | error f =>
      have hfails := h.fails hresult
      exact Or.inl ⟨hfails.bind next, hfails.bind next'⟩
  | ok a =>
      have hy : y.Gives s a (y s).state := Attempt.gives_iff.mpr ⟨hresult, rfl⟩
      obtain ⟨added, hx⟩ := h.adds hy
      rcases hnext a (y s).state added.relations hy with
        ⟨hfails, hfails'⟩ | ⟨c, u, further, d, u', further', hc, hd, hu, hleaves, hpost⟩
      · exact Or.inl ⟨hx.bind_fails hfails, hx.bind_fails hfails'⟩
      · refine Or.inr ⟨c, u, _, d, u', _, hx.bind hc, hx.bind hd, hu, ?_, hpost⟩
        rw [Transcript.leaves_append, Transcript.leaves_append, hleaves]

end Start

/-! ### What is kept around a place -/

section Kept

variable [DecidableEq ι]

/-- Two trees, each with what was registered while it was built, are still alike when trees grow
around them, and when both were registered and nothing is left of them. -/
structure Node.Kept
    (like : Node ι → List (Constraint ι) → Node ι → List (Constraint ι) → Prop) : Prop where
  among : ∀ {n own n' own'}, like n own n' own' →
    ∀ (group : Group) (before later : List (Node ι)) (early late : List (Constraint ι)),
      like (group.node (before ++ n :: later)) (early ++ (own ++ late))
        (group.node (before ++ n' :: later)) (early ++ (own' ++ late))
  linked : ∀ {ns own ns' own'}, like (chain ns) own (chain ns') own' →
    like (chain (ns.flatMap links)) own (chain (ns'.flatMap links)) own'
  registered : ∀ {n own n' own'}, like n own n' own' → ∀ early late : List (Constraint ι),
    like empty (early ++ (own ++ ((n.propagate []).constraints ++ late)))
      empty (early ++ (own' ++ ((n'.propagate []).constraints ++ late)))

/-- They are still alike when the same range is taken of both. -/
structure Node.Ranged
    (like : Node ι → List (Constraint ι) → Node ι → List (Constraint ι) → Prop) : Prop where
  cut : ∀ {n own n' own'}, like n own n' own' → n.cut? = n'.cut?
  between : ∀ {n own n' own'}, like n own n' own' → ∀ p q,
    like (n.between p q) (own ++ (n.propagate []).constraints)
      (n'.between p q) (own' ++ (n'.propagate []).constraints)

/-- There is no range around the hole. -/
def Setup.Context.Unranged {π : Type} : Setup.Context π → Prop
  | .hole => True
  | .within _ _ inner _ => inner.Unranged
  | .detach _ inner => inner.Unranged
  | .range _ _ _ => False

variable {π σ τ : Type} {x y : Setup π}
  {like : Node ι → List (Constraint ι) → Node ι → List (Constraint ι) → Prop}

namespace Stage.Overlooks

variable {stage : Stage π σ ι} {view : σ → τ} {s : σ}

/-- Several setups are built, in one of which something takes the place of something else. -/
theorem buildEach_middle (h : stage.Overlooks view) (hkept : Node.Kept like)
    (before later : List (Setup π))
    (hxy : ∀ ms t, (Setup.build.buildEach stage before).Gives s ms t →
      AlikeFrom view t t (x.build stage.recording) (y.build stage.recording) like) :
    AlikeFrom view s s (Setup.build.buildEach stage.recording (before ++ x :: later))
      (Setup.build.buildEach stage.recording (before ++ y :: later))
      fun ns own ns' own' =>
        ∀ group : Node.Group, like (group.node ns) own (group.node ns') own' := by
  rw [Setup.buildEach_append, Setup.buildEach_append]
  refine .after (stage.records_buildEach before) fun ms t early hms => ?_
  simp only [Setup.build.buildEach, bind_assoc, pure_bind]
  refine (hxy ms t hms).bind fun n own n' own' hn => ?_
  refine (h.buildEach later).gives fun ls late ls' late' hls => ?_
  obtain ⟨rfl, rfl⟩ := hls
  exact fun group => hkept.among hn group ms ls early late

/-- Several setups are built and registered one by one, in one of which something takes the place
of something else. -/
theorem registerEach_middle (h : stage.Overlooks view) (hkept : Node.Kept like)
    (before later : List (Setup π))
    (hxy : ∀ t, (Setup.build.registerEach stage before).Gives s () t →
      AlikeFrom view t t (x.build stage.recording) (y.build stage.recording) like) :
    AlikeFrom view s s (Setup.build.registerEach stage.recording (before ++ x :: later))
      (Setup.build.registerEach stage.recording (before ++ y :: later))
      fun _ own _ own' => like .empty own .empty own' := by
  rw [Setup.registerEach_append, Setup.registerEach_append]
  refine .after (stage.records_registerEach before) fun _ t early hbefore => ?_
  simp only [Setup.build.registerEach, Node.constraints_detached_both]
  refine (hxy t hbefore).bind fun n own n' own' hn => ?_
  refine (h.register _ _).bind fun _ added _ added' hadded => ?_
  obtain ⟨rfl, rfl⟩ := hadded
  refine (h.registerEach later).mono fun _ late _ late' hlate => ?_
  obtain rfl := hlate
  exact hkept.registered hn early late

/-- **What is alike where it stands is alike with anything around it**, save that ranges around it
have to be kept to. -/
theorem fill (h : stage.Overlooks view) (hkept : Node.Kept like) (context : Setup.Context π)
    (hplace : context.Unranged ∨ Node.Ranged like)
    (hxy : ∀ t, (context.lead stage).Gives s () t →
      AlikeFrom view t t (x.build stage.recording) (y.build stage.recording) like) :
    AlikeFrom view s s ((context.fill x).build stage.recording)
      ((context.fill y).build stage.recording) like := by
  induction context generalizing s with
  | hole => exact hxy s (Attempt.gives_pure_iff.mpr ⟨rfl, rfl⟩)
  | within group before inner later ih =>
      cases group with
      | independent =>
          refine (h.registerEach_middle hkept before later fun t ht => ?_).gives
            fun _ _ _ _ hown => hown
          exact ih hplace fun u hu => hxy u (Attempt.gives_bind_iff.mpr ⟨(), t, ht, hu⟩)
      | chain =>
          refine (h.buildEach_middle hkept before later fun ms t ht => ?_).gives
            fun _ _ _ _ hns => hkept.linked (hns .chain)
          exact ih hplace fun u hu => hxy u (Attempt.gives_bind_iff.mpr ⟨ms, t, ht, hu⟩)
      | parallel =>
          refine (h.buildEach_middle hkept before later fun ms t ht => ?_).gives
            fun _ _ _ _ hns => hns .parallel
          exact ih hplace fun u hu => hxy u (Attempt.gives_bind_iff.mpr ⟨ms, t, ht, hu⟩)
  | detach mode inner ih =>
      refine (ih hplace hxy).gives fun n own n' own' hn => ?_
      cases mode with
      | none => exact hn
      | cut side =>
          have hdetached := hkept.among hn (.detach side) [] [] [] []
          rwa [List.append_nil, List.append_nil] at hdetached
  | range p q inner ih =>
      have hranged : Node.Ranged like := hplace.resolve_left id
      refine (ih (Or.inr hranged) hxy).bind fun n own n' own' hn => ?_
      rw [← hranged.cut hn]
      cases n.cut? with
      | some side => exact .fail _
      | none =>
          refine (h.register _ _).gives fun _ further _ further' hfurther => ?_
          obtain ⟨rfl, rfl⟩ := hfurther
          exact hranged.between hn p q

end Stage.Overlooks

namespace Handler

variable {κ : Type} [Collaborator κ ι] {produce : π → Attempt (Handler κ) (Node ι)}

/-- What is written down beside what was written down before. -/
theorem gives_recording_iff {setup : Setup π} {n : Node ι} {h t : Handler κ}
    {r r' : Transcript ι} :
    ((Setup.independent [setup]).build (stage produce).recording).Gives (h, r) n (t, r') ↔
      n = .empty ∧ (expect produce setup).Gives h () t ∧ r' = r ++ transcript produce setup h := by
  have hrecords := (stage produce).records_build (.independent [setup])
  constructor
  · intro hgives
    obtain ⟨hbuild, rfl⟩ := hrecords.gives hgives
    obtain ⟨_, _, _, hpure⟩ := Attempt.gives_bind_iff.mp hbuild
    obtain ⟨rfl, rfl⟩ := Attempt.gives_pure_iff.mp hpure
    exact ⟨rfl, gives_expect_iff.mpr hbuild, rfl⟩
  · intro hend
    obtain ⟨rfl, hexpect, rfl⟩ := hend
    exact hrecords.recorded (gives_expect_iff.mp hexpect) r

/-- Setups in which something takes the place of something like it are expected with the same
success, with the same expectations, and with relations that are alike. -/
theorem expect_replaced {view : Handler κ → τ} (hview : (stage produce).Overlooks view)
    (hkept : Node.Kept like) (context : Setup.Context π)
    (hplace : context.Unranged ∨ Node.Ranged like) (h : Handler κ)
    (hxy : ∀ t, (context.lead (stage produce)).Gives h () t → AlikeFrom view t t
      (x.build (stage produce).recording) (y.build (stage produce).recording) like) :
    ((∃ t, (expect produce (context.fill x)).Gives h () t) ↔
        ∃ t, (expect produce (context.fill y)).Gives h () t) ∧
      ∀ t t', (expect produce (context.fill x)).Gives h () t →
        (expect produce (context.fill y)).Gives h () t' →
          view t = view t' ∧
          (transcript produce (context.fill x) h).leaves
            = (transcript produce (context.fill y) h).leaves ∧
          like .empty (transcript produce (context.fill x) h).relations
            .empty (transcript produce (context.fill y) h).relations := by
  have hwhole := hview.fill hkept (.within .independent [] context []) hplace (s := h)
    fun t ht => hxy t (by simpa [Setup.Context.lead, Setup.build.registerEach] using ht)
  rcases hwhole with ⟨hx, hy⟩ | ⟨n, u, added, n', u', added', hx, hy, hu, hleaves, hlike⟩
  · have hnone {setup : Setup π}
        (hfails : ((Setup.independent [setup]).build (stage produce).recording).Fails h) :
        ¬∃ t, (expect produce setup).Gives h () t := by
      intro hgives
      obtain ⟨t, ht⟩ := hgives
      exact hfails {} _ _ (gives_recording_iff.mpr ⟨rfl, ht, rfl⟩)
    exact ⟨iff_of_false (hnone hx) (hnone hy), fun t t' ht => absurd ⟨t, ht⟩ (hnone hx)⟩
  · obtain ⟨rfl, hxu, hxadded⟩ := gives_recording_iff.mp (hx {})
    obtain ⟨rfl, hyu, hyadded⟩ := gives_recording_iff.mp (hy {})
    refine ⟨⟨fun _ => ⟨u', hyu⟩, fun _ => ⟨u, hxu⟩⟩, fun t t' ht ht' => ?_⟩
    obtain ⟨-, rfl⟩ := hxu.unique ht
    obtain ⟨-, rfl⟩ := hyu.unique ht'
    rw [Transcript.nil_append, Transcript.nil_append] at hxadded hyadded
    rw [← hxadded, ← hyadded]
    exact ⟨hu, hleaves, hlike⟩

end Handler

end Kept

end CallOrder
