/-
One evaluation as the image of another.

A setup can be evaluated against states that have little to do with each other, and its
producers may come to other expectations each time.  If each leaf comes to the images of the
expectations that it came to before, so does everything that is made of them.  Trees are put
together, decoupled, cut into ranges and walked by their form alone; which expectations are in
them matters only where a walk meets one twice, and then its image is met twice as well
(`Node.propagate_map`).

So the two evaluations succeed or fail together (`Stage.Mirrors.build`).  Whether their states go
on to correspond is up to what producers and relations do to them, and where they do, what is
written down of the one is the image of what is written down of the other
(`Stage.Mirrors.transcript_eq`).
-/
import CallOrder.Proofs.Transcript

namespace CallOrder

variable {ι κ : Type} {f : ι → κ}

/-! ### Trees over images -/

/-- The same part of a sequence of images. -/
def Slice.map {α β : Type} (f : α → β) : Slice α → Slice β
  | single a => single (f a)
  | range items => range (items.map f)

theorem Slice.between_map {α β : Type} (f : α → β) (p q : Int64) (items : List α) :
    between p q (items.map f) = (between p q items).map (map f) := by
  simp only [between, List.length_map, List.getElem?_map, ← List.map_take, ← List.map_drop]
  split
  · cases items[clampIndex p items.length]? <;> rfl
  · rfl

/-- The relation between the images. -/
def Constraint.map (f : ι → κ) (c : Constraint ι) : Constraint κ :=
  ⟨f c.successor, f c.predecessor⟩

/-- The walk over the image of a tree. -/
def Walk.map (f : ι → κ) (w : Walk ι) : Walk κ :=
  ⟨w.constraints.map (Constraint.map f), w.frontier.map f⟩

namespace Node

theorem mapAll_eq_map (ns : List (Node ι)) : map.mapAll f ns = ns.map (map f) := by
  induction ns with
  | nil => rfl
  | cons n rest ih => rw [map.mapAll, ih, List.map_cons]

theorem links_map (n : Node ι) : (n.map f).links = n.links.map (map f) := by
  cases n with
  | chain parts => exact mapAll_eq_map parts
  | _ => rfl

theorem flatMap_links_map (ns : List (Node ι)) :
    (ns.map (map f)).flatMap links = (ns.flatMap links).map (map f) := by
  rw [List.flatMap_map, List.map_flatMap]
  exact congrArg (List.flatMap · ns) (funext links_map)

theorem cut?_map (n : Node ι) : (n.map f).cut? = n.cut? := by
  cases n <;> rfl

theorem detached_map (n : Node ι) (mode : DetachMode) :
    (n.map f).detached mode = (n.detached mode).map f := by
  cases mode <;> rfl

theorem between_map (n : Node ι) (p q : Int64) :
    (n.map f).between p q = (n.between p q).map f := by
  have hgroup (parts : List (Node ι)) {group : List (Node ι) → Node ι}
      {group' : List (Node κ) → Node κ}
      (hmap : ∀ parts, (group parts).map f = group' (parts.map (map f))) :
      ofSlice group' (Slice.between p q (map.mapAll f parts))
        = (ofSlice group (Slice.between p q parts)).map f := by
    rw [mapAll_eq_map, Slice.between_map]
    rcases Slice.between p q parts with _ | part | items
    · rfl
    · rfl
    · exact (hmap items).symm
  cases n with
  | chain parts => exact hgroup parts fun items => congrArg chain (mapAll_eq_map items)
  | parallel parts => exact hgroup parts fun items => congrArg parallel (mapAll_eq_map items)
  | _ => rfl

mutual

theorem leaves_map : ∀ n : Node ι, (n.map f).leaves = n.leaves.map f
  | .single _ => rfl
  | .chain parts => leavesAll_map parts
  | .parallel parts => leavesAll_map parts
  | .detach _ parts => leavesAll_map parts
  | .empty => rfl

theorem leavesAll_map : ∀ ns : List (Node ι),
    leaves.leavesAll (map.mapAll f ns) = (leaves.leavesAll ns).map f
  | [] => rfl
  | n :: rest => by
      rw [map.mapAll, leaves.leavesAll, leaves.leavesAll, leaves_map n, leavesAll_map rest,
        List.map_append]

end

end Node

section Walk

variable [DecidableEq ι] [DecidableEq κ]

theorem Constraint.after_map (hf : Function.Injective f) (anchors : List ι) (e : ι) :
    after (anchors.map f) (f e) = (after anchors e).map (map f) := by
  simp only [after, List.filter_map, List.map_map, Function.comp_def, ne_eq, hf.eq_iff, map]

mutual

/-- **A walk goes by the form of a tree**, as long as different expectations have different
images. -/
theorem Node.propagate_map (hf : Function.Injective f) : ∀ (n : Node ι) (anchors : List ι),
    (n.map f).propagate (anchors.map f) = (n.propagate anchors).map f
  | .single e, anchors => by
      rw [Node.map, Node.propagate, Node.propagate, Constraint.after_map hf]
      rfl
  | .chain parts, anchors => Node.inSequence_map hf parts anchors
  | .parallel parts, anchors => Node.sideBySide_map hf parts anchors
  | .detach .head parts, anchors => by
      have hinner := Node.sideBySide_map hf parts []
      rw [List.map_nil] at hinner
      rw [Node.map, Node.propagate, Node.propagate, hinner]
      simp only [Walk.map, List.map_append]
  | .detach .tail parts, anchors => by
      rw [Node.map, Node.propagate, Node.propagate, Node.sideBySide_map hf parts anchors]
      rfl
  | .detach .both parts, anchors => by
      have hinner := Node.sideBySide_map hf parts []
      rw [List.map_nil] at hinner
      rw [Node.map, Node.propagate, Node.propagate, hinner]
      rfl
  | .empty, _ => rfl

theorem Node.inSequence_map (hf : Function.Injective f) :
    ∀ (ns : List (Node ι)) (anchors : List ι),
      Node.propagate.inSequence (anchors.map f) (Node.map.mapAll f ns)
        = (Node.propagate.inSequence anchors ns).map f
  | [], _ => rfl
  | n :: rest, anchors => by
      rw [Node.map.mapAll, Node.propagate.inSequence, Node.propagate.inSequence,
        Node.propagate_map hf n anchors]
      simp only [Walk.map, Node.inSequence_map hf rest, List.map_append]

theorem Node.sideBySide_map (hf : Function.Injective f) :
    ∀ (ns : List (Node ι)) (anchors : List ι),
      Node.propagate.sideBySide (anchors.map f) (Node.map.mapAll f ns)
        = (Node.propagate.sideBySide anchors ns).map f
  | [], _ => rfl
  | n :: rest, anchors => by
      rw [Node.map.mapAll, Node.propagate.sideBySide, Node.propagate.sideBySide,
        Node.propagate_map hf n anchors, Node.sideBySide_map hf rest anchors]
      simp only [Walk.map, List.map_append]

end

/-- What is registered of the image of a tree on its own. -/
theorem Node.constraints_map (hf : Function.Injective f) (n : Node ι) :
    ((n.map f).propagate []).constraints
      = (n.propagate []).constraints.map (Constraint.map f) :=
  congrArg Walk.constraints (n.propagate_map hf [])

end Walk

/-! ### Evaluations that correspond -/

variable {π σ τ α β γ δ : Type} {related : σ → τ → Prop}

/-- Started in related states, the attempts end in related states, and both fail alike or the
second comes to the image of what the first comes to. -/
def Attempt.Mirrors (related : σ → τ → Prop) (image : α → β) (x : Attempt σ α)
    (y : Attempt τ β) : Prop :=
  ∀ s t, related s t → related (x s).state (y t).state ∧ (y t).result = (x s).result.map image

namespace Attempt.Mirrors

variable {x : Attempt σ α} {y : Attempt τ β} {image : α → β} {image' : γ → δ}

theorem pure {a : α} {b : β} (h : b = image a) :
    Mirrors related image (Pure.pure a : Attempt σ α) (Pure.pure b : Attempt τ β) :=
  fun _ _ hst => ⟨hst, congrArg Except.ok h⟩

theorem fail (e : Failure) :
    Mirrors related image (Attempt.fail e : Attempt σ α) (Attempt.fail e : Attempt τ β) :=
  fun _ _ hst => ⟨hst, rfl⟩

theorem bind {next : α → Attempt σ γ} {next' : β → Attempt τ δ} (h : Mirrors related image x y)
    (hnext : ∀ a, Mirrors related image' (next a) (next' (image a))) :
    Mirrors related image' (x >>= next) (y >>= next') := by
  intro s t hst
  obtain ⟨hstate, hresult⟩ := h s t hst
  rw [bind_apply, bind_apply]
  rcases hx : x s with ⟨e | a, s', events⟩ <;> rcases hy : y t with ⟨e' | b, t', events'⟩ <;>
    rw [hx, hy] at hstate hresult
  · exact ⟨hstate, by rw [Except.error.inj hresult]; rfl⟩
  · cases hresult
  · cases hresult
  · obtain rfl : b = image a := Except.ok.inj hresult
    exact hnext a s' t' hstate

end Attempt.Mirrors

namespace Stage

/-- Relations keep states related, if the second stage takes on the image of what the first takes
on. -/
structure Mirrors (stage : Stage π σ ι) (stage' : Stage π τ κ) (f : ι → κ)
    (related : σ → τ → Prop) : Prop where
  injective : Function.Injective f
  order : ∀ c s t, related s t → related (stage.order c s) (stage'.order (c.map f) t)

/-- The producers come to images as well, and keep states related. -/
def MirrorsEach (stage : Stage π σ ι) (stage' : Stage π τ κ) (f : ι → κ)
    (related : σ → τ → Prop) (producers : List π) : Prop :=
  ∀ p ∈ producers, Attempt.Mirrors related (Node.map f) (stage.produce p) (stage'.produce p)

variable {stage : Stage π σ ι} {stage' : Stage π τ κ}

namespace Mirrors

theorem register (h : stage.Mirrors stage' f related) (constraints : List (Constraint ι)) :
    Attempt.Mirrors related id (stage.register constraints)
      (stage'.register (constraints.map (Constraint.map f))) := by
  intro s t hst
  refine ⟨?_, rfl⟩
  show related (constraints.foldl _ s) ((constraints.map (Constraint.map f)).foldl _ t)
  induction constraints generalizing s t with
  | nil => exact hst
  | cons c rest ih => exact ih _ _ (h.order c s t hst)

variable [DecidableEq ι] [DecidableEq κ]

mutual

/-- **What is evaluated comes to the image**, where each leaf does. -/
theorem build (h : stage.Mirrors stage' f related) : ∀ setup : Setup π,
    stage.MirrorsEach stage' f related setup.leaves →
      Attempt.Mirrors related (Node.map f) (setup.build stage) (setup.build stage')
  | .leaf producer, hleaves => hleaves producer List.mem_cons_self
  | .independent parts, hleaves => (h.registerEach parts hleaves).bind fun _ => .pure rfl
  | .chain parts, hleaves =>
      (h.buildEach parts hleaves).bind fun ns => .pure <| by
        rw [Node.flatMap_links_map, Node.map, Node.mapAll_eq_map]
  | .parallel parts, hleaves =>
      (h.buildEach parts hleaves).bind fun ns => .pure <| by rw [Node.map, Node.mapAll_eq_map]
  | .detach mode part, hleaves =>
      (h.build part hleaves).bind fun n => .pure (n.detached_map mode)
  | .range p q part, hleaves => by
      refine (h.build part hleaves).bind fun n => ?_
      simp only [Node.cut?_map, Node.constraints_map h.injective]
      cases n.cut? with
      | some side => exact .fail _
      | none => exact (h.register _).bind fun _ => .pure (n.between_map p q)

theorem buildEach (h : stage.Mirrors stage' f related) : ∀ parts : List (Setup π),
    stage.MirrorsEach stage' f related (Setup.leaves.leavesAll parts) →
      Attempt.Mirrors related (List.map (Node.map f)) (Setup.build.buildEach stage parts)
        (Setup.build.buildEach stage' parts)
  | [], _ => .pure rfl
  | part :: rest, hleaves => by
      have hpart := h.build part fun p hp => hleaves p (List.mem_append_left _ hp)
      have hrest := h.buildEach rest fun p hp => hleaves p (List.mem_append_right _ hp)
      exact hpart.bind fun n => hrest.bind fun ns => .pure rfl

theorem registerEach (h : stage.Mirrors stage' f related) : ∀ parts : List (Setup π),
    stage.MirrorsEach stage' f related (Setup.leaves.leavesAll parts) →
      Attempt.Mirrors related id (Setup.build.registerEach stage parts)
        (Setup.build.registerEach stage' parts)
  | [], _ => .pure rfl
  | part :: rest, hleaves => by
      have hpart := h.build part fun p hp => hleaves p (List.mem_append_left _ hp)
      have hrest := h.registerEach rest fun p hp => hleaves p (List.mem_append_right _ hp)
      refine hpart.bind fun n => ?_
      rw [Node.detached_map, Node.constraints_map h.injective]
      exact (h.register _).bind fun _ => hrest

end

end Mirrors

end Stage

/-! ### What is written down -/

/-- The transcript over images. -/
def Transcript.map (f : ι → κ) (r : Transcript ι) : Transcript κ :=
  ⟨r.leaves.map f, r.relations.map (Constraint.map f)⟩

theorem Transcript.map_append (r s : Transcript ι) : (r ++ s).map f = r.map f ++ s.map f := by
  rw [map, leaves_append, relations_append, List.map_append, List.map_append]
  rfl

namespace Stage

variable {stage : Stage π σ ι} {stage' : Stage π τ κ}

/-- States with transcripts, of which one is the image of the other. -/
def Transcribed (f : ι → κ) (related : σ → τ → Prop) (s : σ × Transcript ι)
    (t : τ × Transcript κ) : Prop :=
  related s.1 t.1 ∧ t.2 = s.2.map f

theorem Mirrors.recording (h : stage.Mirrors stage' f related) :
    stage.recording.Mirrors stage'.recording f (Transcribed f related) where
  injective := h.injective
  order c s t hst := ⟨h.order c s.1 t.1 hst.1, by
    show t.2 ++ _ = Transcript.map f (s.2 ++ _)
    rw [hst.2, Transcript.map_append]
    rfl⟩

theorem MirrorsEach.recording {producers : List π}
    (h : stage.MirrorsEach stage' f related producers) :
    stage.recording.MirrorsEach stage'.recording f (Transcribed f related) producers := by
  intro p hp s t hst
  obtain ⟨hstate, hresult⟩ := h p hp s.1 t.1 hst.1
  rcases hs : stage.produce p s.1 with ⟨e | n, s', events⟩ <;>
    rcases ht : stage'.produce p t.1 with ⟨e' | m, t', events'⟩ <;>
    rw [hs, ht] at hstate hresult <;> simp only [Stage.recording, hs, ht]
  · exact ⟨⟨hstate, hst.2⟩, by rw [Except.error.inj hresult]; rfl⟩
  · cases hresult
  · cases hresult
  · obtain rfl : m = n.map f := Except.ok.inj hresult
    refine ⟨⟨hstate, ?_⟩, rfl⟩
    show t.2 ++ _ = Transcript.map f (s.2 ++ _)
    rw [hst.2, Transcript.map_append, Node.leaves_map]
    rfl

variable [DecidableEq ι] [DecidableEq κ]

/-- **What is written down is the image of what is written down**, also where evaluation stops
half way. -/
theorem Mirrors.transcript_eq (h : stage.Mirrors stage' f related) {setup : Setup π}
    (hleaves : stage.MirrorsEach stage' f related setup.leaves) {s : σ} {t : τ}
    (hst : related s t) :
    setup.transcript stage' t = (setup.transcript stage s).map f :=
  ((h.recording.build setup hleaves.recording) (s, {}) (t, {}) ⟨hst, rfl⟩).1.2

end Stage

end CallOrder
