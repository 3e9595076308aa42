/-
What the evaluation of a setup does, written down.

A stage says how producers are run and how relations are registered, and any state may be
behind it.  A recording stage does what the stage does and keeps a transcript beside it:
the expectations that the producers came to, and every relation that was registered, each
in order and with repetitions.  The transcript is for reading only.  An evaluation comes
to the same with it or without, and what it adds does not depend on what is there
(`build_recording`).

Nothing is registered but relations among the expectations that were met so far, and a
tree has no others either (`closed_transcript`,
`leaves_subset_transcript`).
-/
import CallOrder.Proofs.Evaluation

namespace CallOrder

/-! ### Attempts that succeed -/

namespace Attempt

variable {σ α β : Type}

/-- Started in one state, the attempt succeeds with a value and leaves another. -/
def Gives (x : Attempt σ α) (s : σ) (a : α) (t : σ) : Prop :=
  ∃ events, x s = ⟨.ok a, t, events⟩

theorem gives_iff {x : Attempt σ α} {s t : σ} {a : α} :
    x.Gives s a t ↔ (x s).result = .ok a ∧ (x s).state = t := by
  constructor
  · intro h
    obtain ⟨events, h⟩ := h
    rw [h]
    exact ⟨rfl, rfl⟩
  · intro h
    obtain ⟨hresult, hstate⟩ := h
    exact ⟨(x s).events, by rw [← hresult, ← hstate]⟩

@[simp] theorem gives_pure_iff {a b : α} {s t : σ} :
    (pure a : Attempt σ α).Gives s b t ↔ a = b ∧ s = t := by
  rw [gives_iff, pure_apply, Except.ok.injEq]

@[simp] theorem not_gives_fail {f : Failure} {a : α} {s t : σ} :
    ¬(fail f : Attempt σ α).Gives s a t := by
  rw [gives_iff]
  exact fun h => absurd h.1 nofun

@[simp] theorem gives_bind_iff {x : Attempt σ α} {next : α → Attempt σ β} {s u : σ} {b : β} :
    (x >>= next).Gives s b u ↔ ∃ a t, x.Gives s a t ∧ (next a).Gives t b u := by
  rw [gives_iff, bind_apply]
  rcases hx : x s with ⟨f | a, t, events⟩
  · simp [gives_iff, hx]
  · constructor
    · intro h
      exact ⟨a, t, ⟨events, hx⟩, gives_iff.mpr h⟩
    · intro h
      obtain ⟨a', t', hfirst, hnext⟩ := h
      obtain ⟨hresult, rfl⟩ := gives_iff.mp hfirst
      rw [hx] at hresult hnext
      obtain rfl := Except.ok.inj hresult
      exact gives_iff.mp hnext

theorem Gives.unique {x : Attempt σ α} {s t u : σ} {a b : α} (h : x.Gives s a t)
    (h' : x.Gives s b u) : a = b ∧ t = u := by
  obtain ⟨hresult, hstate⟩ := gives_iff.mp h
  obtain ⟨hresult', hstate'⟩ := gives_iff.mp h'
  exact ⟨Except.ok.inj (hresult.symm.trans hresult'), hstate.symm.trans hstate'⟩

end Attempt

/-! ### Transcripts -/

/-- The expectations that leaves came to and the relations that were registered, in order. -/
structure Transcript (ι : Type) where
  leaves : List ι := []
  relations : List (Constraint ι) := []

namespace Transcript

variable {ι : Type}

/-- One transcript and then another. -/
instance : Append (Transcript ι) :=
  ⟨fun r s => ⟨r.leaves ++ s.leaves, r.relations ++ s.relations⟩⟩

@[simp] theorem leaves_append (r s : Transcript ι) : (r ++ s).leaves = r.leaves ++ s.leaves := rfl

@[simp] theorem relations_append (r s : Transcript ι) :
    (r ++ s).relations = r.relations ++ s.relations := rfl

@[simp] theorem nil_append (r : Transcript ι) : ({} : Transcript ι) ++ r = r := rfl

@[simp] theorem append_nil (r : Transcript ι) : r ++ ({} : Transcript ι) = r := by
  show (⟨r.leaves ++ [], r.relations ++ []⟩ : Transcript ι) = r
  rw [List.append_nil, List.append_nil]

theorem append_assoc (r s t : Transcript ι) : r ++ s ++ t = r ++ (s ++ t) := by
  show (⟨r.leaves ++ s.leaves ++ t.leaves, r.relations ++ s.relations ++ t.relations⟩ :
    Transcript ι) =
      ⟨r.leaves ++ (s.leaves ++ t.leaves), r.relations ++ (s.relations ++ t.relations)⟩
  rw [List.append_assoc, List.append_assoc]

/-- Every relation is between expectations that leaves came to. -/
def Closed (r : Transcript ι) : Prop :=
  ∀ c ∈ r.relations, c.predecessor ∈ r.leaves ∧ c.successor ∈ r.leaves

end Transcript

/-- The stage with a transcript beside its state. -/
def Stage.recording {π σ ι : Type} (stage : Stage π σ ι) : Stage π (σ × Transcript ι) ι where
  produce p s :=
    match stage.produce p s.1 with
    | ⟨.ok n, t, events⟩ => ⟨.ok n, (t, s.2 ++ { leaves := n.leaves }), events⟩
    | ⟨.error f, t, events⟩ => ⟨.error f, (t, s.2), events⟩
  order c s := (stage.order c s.1, s.2 ++ { relations := [c] })
  event s := stage.event s.1

section Records

variable {σ ι α β : Type}

/-- The first attempt does what the second does, and what it adds to a transcript does not depend
on what is there. -/
def Attempt.Records (x : Attempt (σ × Transcript ι) α) (y : Attempt σ α) : Prop :=
  ∀ s, ∃ added, ∀ r, x (s, r) = ⟨(y s).result, ((y s).state, r ++ added), (y s).events⟩

namespace Attempt.Records

variable {x : Attempt (σ × Transcript ι) α} {y : Attempt σ α}

protected theorem pure (a : α) :
    Records (ι := ι) (Pure.pure a) (Pure.pure a : Attempt σ α) :=
  fun s => ⟨{}, fun r => by rw [Transcript.append_nil, pure_apply, pure_apply]⟩

theorem fail (f : Failure) : Records (ι := ι) (Attempt.fail f) (Attempt.fail f : Attempt σ α) :=
  fun s => ⟨{}, fun r => by rw [Transcript.append_nil]; rfl⟩

theorem bind {next : α → Attempt (σ × Transcript ι) β} {next' : α → Attempt σ β}
    (h : Records x y) (hnext : ∀ a, Records (next a) (next' a)) :
    Records (x >>= next) (y >>= next') := by
  intro s
  obtain ⟨added, hx⟩ := h s
  rcases hy : y s with ⟨f | a, t, events⟩
  · refine ⟨added, fun r => ?_⟩
    simp only [bind_apply, hx r, hy]
  · obtain ⟨further, ha⟩ := hnext a t
    refine ⟨added ++ further, fun r => ?_⟩
    simp only [bind_apply, hx r, hy, ha, Outcome.after, Transcript.append_assoc]

/-- What an attempt adds can be read off a run that starts with an empty transcript. -/
theorem apply (h : Records x y) (s : σ) (r : Transcript ι) :
    x (s, r) = ⟨(y s).result, ((y s).state, r ++ (x (s, {})).state.2), (y s).events⟩ := by
  obtain ⟨added, hx⟩ := h s
  rw [hx r, hx {}, Transcript.nil_append]

theorem gives (h : Records x y) {s t : σ} {r r' : Transcript ι} {a : α}
    (hx : x.Gives (s, r) a (t, r')) : y.Gives s a t ∧ r' = r ++ (x (s, {})).state.2 := by
  obtain ⟨hresult, hstate⟩ := gives_iff.mp hx
  rw [h.apply] at hresult hstate
  obtain ⟨rfl, rfl⟩ := Prod.mk.inj hstate
  exact ⟨gives_iff.mpr ⟨hresult, rfl⟩, rfl⟩

theorem recorded (h : Records x y) {s t : σ} {a : α} (hy : y.Gives s a t) (r : Transcript ι) :
    x.Gives (s, r) a (t, r ++ (x (s, {})).state.2) := by
  obtain ⟨hresult, rfl⟩ := gives_iff.mp hy
  rw [gives_iff, h.apply s r]
  exact ⟨hresult, rfl⟩

end Attempt.Records

variable {π : Type}

theorem Stage.records_produce (stage : Stage π σ ι) (p : π) :
    (stage.recording.produce p).Records (stage.produce p) := by
  intro s
  rcases h : stage.produce p s with ⟨f | n, t, events⟩
  · exact ⟨{}, fun r => by simp [recording, h]⟩
  · exact ⟨{ leaves := n.leaves }, fun r => by simp [recording, h]⟩

theorem Stage.foldl_order_recording (stage : Stage π σ ι) (constraints : List (Constraint ι))
    (s : σ) (r : Transcript ι) :
    constraints.foldl (fun t c => stage.recording.order c t) (s, r)
      = (constraints.foldl (fun t c => stage.order c t) s, r ++ { relations := constraints }) := by
  induction constraints generalizing s r with
  | nil => rw [List.foldl_nil, List.foldl_nil, Transcript.append_nil]
  | cons c rest ih =>
      have hcons : ({ relations := [c] } : Transcript ι) ++ { relations := rest }
          = { relations := c :: rest } := rfl
      rw [List.foldl_cons, List.foldl_cons, ← hcons, ← Transcript.append_assoc]
      exact ih (stage.order c s) (r ++ { relations := [c] })

theorem Stage.records_register (stage : Stage π σ ι) (constraints : List (Constraint ι)) :
    (stage.recording.register constraints).Records (stage.register constraints) := by
  refine fun s => ⟨{ relations := constraints }, fun r => ?_⟩
  rw [register, register, foldl_order_recording]
  rfl

variable [DecidableEq ι]

mutual

theorem Stage.records_build (stage : Stage π σ ι) : ∀ setup : Setup π,
    (setup.build stage.recording).Records (setup.build stage)
  | .leaf producer => stage.records_produce producer
  | .independent parts => (stage.records_registerEach parts).bind fun _ => .pure _
  | .chain parts => (stage.records_buildEach parts).bind fun _ => .pure _
  | .parallel parts => (stage.records_buildEach parts).bind fun _ => .pure _
  | .detach mode part => (stage.records_build part).bind fun _ => .pure _
  | .range p q part => by
      refine (stage.records_build part).bind fun n => ?_
      cases n.cut? with
      | some side => exact .fail _
      | none => exact (stage.records_register _).bind fun _ => .pure _

theorem Stage.records_buildEach (stage : Stage π σ ι) : ∀ parts : List (Setup π),
    (Setup.build.buildEach stage.recording parts).Records (Setup.build.buildEach stage parts)
  | [] => .pure _
  | part :: rest =>
      (stage.records_build part).bind fun _ => (stage.records_buildEach rest).bind fun _ => .pure _

theorem Stage.records_registerEach (stage : Stage π σ ι) : ∀ parts : List (Setup π),
    (Setup.build.registerEach stage.recording parts).Records (Setup.build.registerEach stage parts)
  | [] => .pure _
  | part :: rest =>
      (stage.records_build part).bind fun _ =>
        (stage.records_register _).bind fun _ => stage.records_registerEach rest

end

end Records

variable {π σ ι : Type}

/-- What is written down while a setup is evaluated. -/
def Setup.transcript [DecidableEq ι] (stage : Stage π σ ι) (setup : Setup π) (s : σ) :
    Transcript ι :=
  (setup.build stage.recording (s, {})).state.2

/-- **Recording changes nothing in what is recorded.** -/
theorem Setup.build_recording [DecidableEq ι] (stage : Stage π σ ι) (setup : Setup π) (s : σ)
    (r : Transcript ι) :
    setup.build stage.recording (s, r) =
      ⟨(setup.build stage s).result,
        ((setup.build stage s).state, r ++ setup.transcript stage s),
        (setup.build stage s).events⟩ :=
  (stage.records_build setup).apply s r

/-! ### What can be in a transcript -/

/-- Relations are registered among the expectations met so far, and of these a tree is made. -/
theorem Stage.sound_recording (stage : Stage π σ ι) :
    stage.recording.Sound (fun s => s.2.Closed)
      (fun s xs t => s.2.leaves ⊆ t.2.leaves ∧ xs ⊆ t.2.leaves) where
  nothing _ _ := ⟨List.Subset.refl _, List.nil_subset _⟩
  further _ _ _ _ _ h h' :=
    ⟨List.Subset.trans h.1 h'.1, List.append_subset.mpr ⟨List.Subset.trans h.2 h'.1, h'.2⟩⟩
  sublist _ _ _ _ h hsub := ⟨h.1, List.Subset.trans hsub.subset h.2⟩
  always_order s t c ht h := by
    intro d hd
    have hleaves : (t.2 ++ { relations := [c] }).leaves = t.2.leaves := List.append_nil _
    rcases List.mem_append.mp hd with hd | hd
    · simpa [recording, hleaves] using ht d hd
    · obtain rfl : d = c := by simpa using hd
      simpa [recording, hleaves] using h.2
  spans_order s t xs c h := by
    simpa [recording] using h

theorem Stage.upholds_recording (stage : Stage π σ ι) (producers : List π) :
    stage.recording.Upholds (fun s => s.2.Closed)
      (fun s xs t => s.2.leaves ⊆ t.2.leaves ∧ xs ⊆ t.2.leaves) producers := by
  intro p _ s hs
  rcases h : stage.produce p s.1 with ⟨f | n, t, events⟩
  · refine ⟨?_, fun n hn => ?_⟩
    · simpa [recording, h] using hs
    · simp [recording, h] at hn
  · refine ⟨?_, fun m hm => ?_⟩
    · intro c hc
      obtain ⟨hp, hq⟩ := hs c (by simpa [recording, h] using hc)
      simp [recording, h, hp, hq]
    · obtain rfl : n = m := by simpa [recording, h] using hm
      simp [recording, h]

/-- What a recording attempt ensures of an empty transcript holds of what it adds. -/
theorem Attempt.Records.of_gives {α : Type} {x : Attempt (σ × Transcript ι) α} {y : Attempt σ α}
    (h : x.Records y) (post : α → Transcript ι → Prop) {s t : σ} {r r' : Transcript ι} {a : α}
    (hensures : x.Ensures (s, {}) (fun s => s.2.Closed) fun a t => post a t.2)
    (hx : x.Gives (s, r) a (t, r')) :
    ∃ added, r' = r ++ added ∧ added.Closed ∧ post a added := by
  obtain ⟨hy, rfl⟩ := h.gives hx
  exact ⟨_, rfl, hensures.1, hensures.2 a (gives_iff.mp (h.recorded hy {})).1⟩

section Evaluation

variable [DecidableEq ι] {stage : Stage π σ ι} {s t : σ} {r r' : Transcript ι}

theorem Setup.gives_build_recording {setup : Setup π} {n : Node ι}
    (h : (setup.build stage.recording).Gives (s, r) n (t, r')) :
    (setup.build stage).Gives s n t ∧ r' = r ++ setup.transcript stage s :=
  (stage.records_build setup).gives h

theorem Setup.ensures_build_recording (setup : Setup π) (s : σ) :
    (setup.build stage.recording).Ensures (s, {}) (fun s => s.2.Closed)
      fun n t => n.leaves ⊆ t.2.leaves :=
  (stage.sound_recording.ensures_build setup (stage.upholds_recording _) (s, {}) nofun).mono
    fun _ _ h => h.2

/-- **No relation is registered but between expectations that were met.** -/
theorem Setup.closed_transcript (stage : Stage π σ ι) (setup : Setup π) (s : σ) :
    (setup.transcript stage s).Closed :=
  (setup.ensures_build_recording s).1

/-- Nor is there any other in the tree that a setup comes to. -/
theorem Setup.leaves_subset_transcript {setup : Setup π} {n : Node ι}
    (h : (setup.build stage).Gives s n t) : n.leaves ⊆ (setup.transcript stage s).leaves :=
  (setup.ensures_build_recording s).2 n
    (Attempt.gives_iff.mp ((stage.records_build setup).recorded h {})).1

theorem Setup.gives_buildEach_recording {parts : List (Setup π)} {ns : List (Node ι)}
    (h : (Setup.build.buildEach stage.recording parts).Gives (s, r) ns (t, r')) :
    ∃ added, r' = r ++ added ∧ added.Closed ∧ Node.leaves.leavesAll ns ⊆ added.leaves :=
  (stage.records_buildEach parts).of_gives (fun ns r => Node.leaves.leavesAll ns ⊆ r.leaves)
    ((stage.sound_recording.ensures_buildEach parts (stage.upholds_recording _) (s, {}) nofun).mono
      fun _ _ h => h.2) h

theorem Setup.gives_registerEach_recording {parts : List (Setup π)} {a : Unit}
    (h : (Setup.build.registerEach stage.recording parts).Gives (s, r) a (t, r')) :
    ∃ added, r' = r ++ added ∧ added.Closed := by
  obtain ⟨added, hadded, hclosed, -⟩ :=
    (stage.records_registerEach parts).of_gives (fun _ _ => True)
      ((stage.sound_recording.ensures_registerEach parts (stage.upholds_recording _) (s, {})
        nofun).mono fun _ _ _ => trivial) h
  exact ⟨added, hadded, hclosed⟩

omit [DecidableEq ι] in
theorem Stage.gives_register_recording {constraints : List (Constraint ι)} {u : Unit}
    (h : (stage.recording.register constraints).Gives (s, r) u (t, r')) :
    r' = r ++ { relations := constraints } := by
  obtain ⟨-, hstate⟩ := Attempt.gives_iff.mp h
  rw [register, foldl_order_recording] at hstate
  exact (Prod.mk.inj hstate).2.symm

end Evaluation

/-- What is registered of a tree on its own. -/
theorem Node.constraints_detached_both [DecidableEq ι] (n : Node ι) (anchors : List ι) :
    ((n.detached (.cut .both)).propagate anchors).constraints = (n.propagate []).constraints := by
  show (n.propagate []).constraints ++ [] = _
  rw [List.append_nil]

namespace Setup

variable [DecidableEq ι] (stage : Stage π σ ι)

theorem buildEach_append (before later : List (Setup π)) :
    build.buildEach stage (before ++ later) = do
      let ms ← build.buildEach stage before
      let ns ← build.buildEach stage later
      return ms ++ ns := by
  induction before with
  | nil => simp [build.buildEach]
  | cons part rest ih => simp [build.buildEach, ih]

theorem registerEach_append (before later : List (Setup π)) :
    build.registerEach stage (before ++ later) =
      (do
        build.registerEach stage before
        build.registerEach stage later) := by
  induction before with
  | nil => simp [build.registerEach]
  | cons part rest ih => simp [build.registerEach, ih]

variable {stage} {s t : σ} {r r' : Transcript ι} {before later : List (Setup π)}
  {setup : Setup π}

/-- One of several setups is evaluated between those before it and those after it. -/
theorem gives_buildEach_middle {ns : List (Node ι)}
    (h : (build.buildEach stage.recording (before ++ setup :: later)).Gives (s, r) ns (t, r')) :
    ∃ ms n ls u v r₁ first last,
      (build.buildEach stage.recording before).Gives (s, r) ms (u, r ++ first) ∧
      (setup.build stage.recording).Gives (u, r ++ first) n (v, r₁) ∧
      ns = ms ++ n :: ls ∧ r' = r₁ ++ last ∧
      (first.Closed ∧ Node.leaves.leavesAll ms ⊆ first.leaves) ∧
      last.Closed ∧ Node.leaves.leavesAll ls ⊆ last.leaves := by
  simp only [buildEach_append, build.buildEach, Attempt.gives_bind_iff, Attempt.gives_pure_iff] at h
  obtain ⟨ms, ⟨u, r₀⟩, hbefore, _, _, ⟨n, ⟨v, r₁⟩, hsetup, ls, _, hlater, rfl, rfl⟩, rfl, rfl⟩ := h
  obtain ⟨first, rfl, hfirst⟩ := gives_buildEach_recording hbefore
  obtain ⟨last, rfl, hlast⟩ := gives_buildEach_recording hlater
  exact ⟨ms, n, ls, u, v, r₁, first, last, hbefore, hsetup, rfl, rfl, hfirst, hlast⟩

theorem gives_registerEach_middle
    (h : (build.registerEach stage.recording (before ++ setup :: later)).Gives (s, r) () (t, r')) :
    ∃ n u v r₁ first last,
      (build.registerEach stage.recording before).Gives (s, r) () (u, r ++ first) ∧
      (setup.build stage.recording).Gives (u, r ++ first) n (v, r₁) ∧
      r' = r₁ ++ { relations := (n.propagate []).constraints } ++ last ∧
      first.Closed ∧ last.Closed := by
  simp only [registerEach_append, build.registerEach, Attempt.gives_bind_iff,
    Node.constraints_detached_both] at h
  obtain ⟨_, ⟨u, r₀⟩, hbefore, n, ⟨v, r₁⟩, hsetup, _, ⟨w, r₂⟩, hown, hlater⟩ := h
  obtain ⟨first, rfl, hfirst⟩ := gives_registerEach_recording hbefore
  obtain ⟨last, rfl, hlast⟩ := gives_registerEach_recording hlater
  rw [Stage.gives_register_recording hown]
  exact ⟨n, u, v, r₁, first, last, hbefore, hsetup, rfl, hfirst, hlast⟩

end Setup

/-! ### A place in a setup -/

namespace Setup

/-- The ways to put several setups into one. -/
inductive Group where
  | independent
  | chain
  | parallel

/-- The setups put into one. -/
def Group.setup : Group → List (Setup π) → Setup π
  | .independent, parts => .independent parts
  | .chain, parts => .chain parts
  | .parallel, parts => .parallel parts

/-- A setup with a hole in it. -/
inductive Context (π : Type) where
  | hole
  /-- The hole is in one of several setups. -/
  | within (group : Group) (before : List (Setup π)) (inner : Context π) (later : List (Setup π))
  | detach (mode : DetachMode) (inner : Context π)
  | range (p q : Int64) (inner : Context π)

namespace Context

/-- The setup with another one in the hole. -/
def fill : Context π → Setup π → Setup π
  | hole, setup => setup
  | within group before inner later, setup => group.setup (before ++ inner.fill setup :: later)
  | detach mode inner, setup => .detach mode (inner.fill setup)
  | range p q inner, setup => .range p q (inner.fill setup)

variable [DecidableEq ι]

/-- Evaluates all that is evaluated before what is in the hole. -/
def lead (stage : Stage π σ ι) : Context π → Attempt σ Unit
  | hole => return ()
  | within .independent before inner _ => do
    build.registerEach stage before
    inner.lead stage
  | within _ before inner _ => do
    let _ ← build.buildEach stage before
    inner.lead stage
  | detach _ inner => inner.lead stage
  | range _ _ inner => inner.lead stage

/-- The state in which what is in the hole is evaluated. -/
def entry (stage : Stage π σ ι) (context : Context π) (s : σ) : σ :=
  (context.lead stage s).state

theorem records_lead (stage : Stage π σ ι) (context : Context π) :
    (context.lead stage.recording).Records (context.lead stage) := by
  induction context with
  | hole => exact .pure _
  | within group before inner later ih =>
      cases group with
      | independent => exact (stage.records_registerEach before).bind fun _ => ih
      | chain => exact (stage.records_buildEach before).bind fun _ => ih
      | parallel => exact (stage.records_buildEach before).bind fun _ => ih
  | detach mode inner ih => exact ih
  | range p q inner ih => exact ih

end Context

end Setup

/-! ### What is written down while a handler expects a setup -/

namespace Handler

variable {κ : Type} [Collaborator κ ι] [DecidableEq ι]

/-- What is written down while a setup is expected. -/
def transcript (produce : π → Attempt (Handler κ) (Node ι)) (setup : Setup π) (h : Handler κ) :
    Transcript ι :=
  (Setup.independent [setup]).transcript (stage produce) h

theorem gives_expect_iff {produce : π → Attempt (Handler κ) (Node ι)} {setup : Setup π}
    {h t : Handler κ} :
    (expect produce setup).Gives h () t ↔
      ((Setup.independent [setup]).build (stage produce)).Gives h .empty t := by
  obtain ⟨hstate, hresult⟩ := expect_apply produce setup h
  rw [Attempt.gives_iff, Attempt.gives_iff, hstate, hresult]
  simp only [Setup.build, Attempt.bind_apply]
  rcases Setup.build.registerEach (stage produce) [setup] h with ⟨f | n, u, events⟩
  · simp [Except.map]
  · simp [Except.map, Outcome.after, Attempt.pure_apply]

end Handler

end CallOrder
