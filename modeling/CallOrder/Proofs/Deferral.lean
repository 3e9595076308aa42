/-
Relations may as well be registered later.

While a setup is evaluated, relations are registered here and there: after each part of an
independent setup, and where a range is taken.  Whatever is evaluated after that finds a
state that it would not have found otherwise.  It makes no difference as long as there is
a view of the state that leaves relations out and is all that producers go by
(`Stage.Overlooks`).

So two evaluations can be compared that run the same producers and register relations at
different times (`Alike`): they are started where the view is the same, and end where it is
the same, with the same leaves written down.  An evaluation is alike to itself whichever
relations were registered before (`Stage.Overlooks.build`).

The producers of calls do overlook relations (`Bench.overlooks_stage`).  What they read of
a bench is which calls were declared, and what they change of an expectation has nothing to
do with what it comes after.  So they do the same on a bench of which all relations were
forgotten (`Bench.Oblivious`).
-/
import CallOrder.CallPlan
import CallOrder.Proofs.Transcript

namespace CallOrder

section Stage

variable {π σ τ ι α β γ δ : Type}

/-- Relations are out of view, and what is in view is all that producers go by. -/
structure Stage.Overlooks (stage : Stage π σ ι) (view : σ → τ) : Prop where
  order : ∀ c s, view (stage.order c s) = view s
  produce : ∀ p s s', view s = view s' →
    (stage.produce p s).result = (stage.produce p s').result ∧
      view (stage.produce p s).state = view (stage.produce p s').state

namespace Attempt

/-- Whatever was written down before, the attempt fails. -/
def Fails (x : Attempt (σ × Transcript ι) α) (s : σ) : Prop :=
  ∀ r a t, ¬x.Gives (s, r) a t

/-- Whatever was written down before, the attempt succeeds and adds the same to it. -/
def Adds (x : Attempt (σ × Transcript ι) α) (s : σ) (a : α) (t : σ) (added : Transcript ι) : Prop :=
  ∀ r, x.Gives (s, r) a (t, r ++ added)

variable {x : Attempt (σ × Transcript ι) α} {s t u : σ} {a : α} {b : β}
  {added further : Transcript ι}

theorem Fails.bind (h : x.Fails s) (next : α → Attempt (σ × Transcript ι) β) :
    (x >>= next).Fails s := by
  intro r b u hgives
  obtain ⟨a, t, hx, -⟩ := gives_bind_iff.mp hgives
  exact h r a t hx

theorem Adds.bind {next : α → Attempt (σ × Transcript ι) β} (h : x.Adds s a t added)
    (hnext : (next a).Adds t b u further) : (x >>= next).Adds s b u (added ++ further) := by
  intro r
  rw [gives_bind_iff, ← Transcript.append_assoc]
  exact ⟨a, _, h r, hnext (r ++ added)⟩

theorem Adds.bind_fails {next : α → Attempt (σ × Transcript ι) β} (h : x.Adds s a t added)
    (hnext : (next a).Fails t) : (x >>= next).Fails s := by
  intro r b u hgives
  obtain ⟨a', t', hx, hnext'⟩ := gives_bind_iff.mp hgives
  obtain ⟨rfl, rfl⟩ := (h r).unique hx
  exact hnext _ b u hnext'

theorem Adds.pure (s : σ) (a : α) :
    (Pure.pure a : Attempt (σ × Transcript ι) α).Adds s a s {} := by
  intro r
  rw [gives_pure_iff, Transcript.append_nil]
  exact ⟨rfl, rfl⟩

/-- Where what is recorded fails, so does the attempt that records it. -/
theorem Records.fails {y : Attempt σ α} {f : Failure} (h : Records x y)
    (hy : (y s).result = .error f) : x.Fails s := by
  intro r a t hx
  obtain ⟨t, r'⟩ := t
  rw [(gives_iff.mp (h.gives hx).1).1] at hy
  exact absurd hy nofun

end Attempt

theorem Stage.adds_produce {stage : Stage π σ ι} {p : π} {s t : σ} {n : Node ι}
    (h : (stage.produce p).Gives s n t) :
    (stage.recording.produce p).Adds s n t { leaves := n.leaves } := by
  obtain ⟨events, h⟩ := h
  exact fun r => ⟨events, by simp only [recording, h]⟩

theorem Stage.adds_register (stage : Stage π σ ι) (constraints : List (Constraint ι)) (s : σ) :
    (stage.recording.register constraints).Adds s ()
      (constraints.foldl (fun t c => stage.order c t) s) { relations := constraints } := by
  intro r
  rw [Attempt.gives_iff]
  exact ⟨rfl, stage.foldl_order_recording constraints s r⟩

/-- Started where the view is the same, both attempts fail, or both succeed, end where it is the
same and write down the same leaves.  The relations that they write down are told apart. -/
def Alike (view : σ → τ) (x : Attempt (σ × Transcript ι) α) (y : Attempt (σ × Transcript ι) β)
    (post : α → List (Constraint ι) → β → List (Constraint ι) → Prop) : Prop :=
  ∀ s s', view s = view s' → (x.Fails s ∧ y.Fails s') ∨
    ∃ a t added b t' added', x.Adds s a t added ∧ y.Adds s' b t' added' ∧ view t = view t' ∧
      added.leaves = added'.leaves ∧ post a added.relations b added'.relations

/-- So they do, started in these two states. -/
def AlikeFrom (view : σ → τ) (s s' : σ) (x : Attempt (σ × Transcript ι) α)
    (y : Attempt (σ × Transcript ι) β)
    (post : α → List (Constraint ι) → β → List (Constraint ι) → Prop) : Prop :=
  (x.Fails s ∧ y.Fails s') ∨
    ∃ a t added b t' added', x.Adds s a t added ∧ y.Adds s' b t' added' ∧ view t = view t' ∧
      added.leaves = added'.leaves ∧ post a added.relations b added'.relations

section Alike

variable {view : σ → τ} {x : Attempt (σ × Transcript ι) α} {y : Attempt (σ × Transcript ι) β}
  {post : α → List (Constraint ι) → β → List (Constraint ι) → Prop}
  {next : α → Attempt (σ × Transcript ι) γ} {next' : β → Attempt (σ × Transcript ι) δ}
  {post' : γ → List (Constraint ι) → δ → List (Constraint ι) → Prop} {f : α → γ} {g : β → δ}

theorem Alike.pure {a : α} {b : β} (h : post a [] b []) :
    Alike view (Pure.pure a) (Pure.pure b) post :=
  fun s s' hview => Or.inr ⟨a, s, {}, b, s', {}, .pure s a, .pure s' b, hview, rfl, h⟩

theorem Alike.fail (f : Failure) :
    Alike view (Attempt.fail f : Attempt (σ × Transcript ι) α)
      (Attempt.fail f : Attempt (σ × Transcript ι) β) post :=
  fun _ _ _ => Or.inl ⟨fun _ _ _ => Attempt.not_gives_fail, fun _ _ _ => Attempt.not_gives_fail⟩

namespace AlikeFrom

variable {s s' : σ}

theorem bind (h : AlikeFrom view s s' x y post)
    (hnext : ∀ a own b own', post a own b own' →
      Alike view (next a) (next' b) fun c further d further' =>
        post' c (own ++ further) d (own' ++ further')) :
    AlikeFrom view s s' (x >>= next) (y >>= next') post' := by
  rcases h with ⟨hx, hy⟩ | ⟨a, t, added, b, t', added', hx, hy, ht, hleaves, hpost⟩
  · exact Or.inl ⟨hx.bind next, hy.bind next'⟩
  · rcases hnext a added.relations b added'.relations hpost t t' ht with
      ⟨hx', hy'⟩ | ⟨c, u, further, d, u', further', hx', hy', hu, hleaves', hpost'⟩
    · exact Or.inl ⟨hx.bind_fails hx', hy.bind_fails hy'⟩
    · refine Or.inr ⟨c, u, _, d, u', _, hx.bind hx', hy.bind hy', hu, ?_, hpost'⟩
      rw [Transcript.leaves_append, Transcript.leaves_append, hleaves, hleaves']

/-- Neither registers anything with what it gives. -/
theorem gives (h : AlikeFrom view s s' x y post)
    (hpost : ∀ a own b own', post a own b own' → post' (f a) own (g b) own') :
    AlikeFrom view s s' (do return f (← x)) (do return g (← y)) post' := by
  refine h.bind fun a own b own' hab => .pure ?_
  rw [List.append_nil, List.append_nil]
  exact hpost a own b own' hab

end AlikeFrom

namespace Alike

theorem bind (h : Alike view x y post)
    (hnext : ∀ a own b own', post a own b own' →
      Alike view (next a) (next' b) fun c further d further' =>
        post' c (own ++ further) d (own' ++ further')) :
    Alike view (x >>= next) (y >>= next') post' :=
  fun s s' hview => AlikeFrom.bind (h s s' hview) hnext

theorem mono {post' : α → List (Constraint ι) → β → List (Constraint ι) → Prop}
    (h : Alike view x y post) (hpost : ∀ a own b own', post a own b own' → post' a own b own') :
    Alike view x y post' := by
  intro s s' hview
  rcases h s s' hview with hfails | ⟨a, t, added, b, t', added', hx, hy, ht, hleaves, h⟩
  · exact Or.inl hfails
  · exact Or.inr ⟨a, t, added, b, t', added', hx, hy, ht, hleaves, hpost _ _ _ _ h⟩

theorem gives (h : Alike view x y post)
    (hpost : ∀ a own b own', post a own b own' → post' (f a) own (g b) own') :
    Alike view (do return f (← x)) (do return g (← y)) post' :=
  fun s s' hview => AlikeFrom.gives (h s s' hview) hpost

end Alike

end Alike

namespace Stage.Overlooks

variable {stage : Stage π σ ι} {view : σ → τ} {x : Attempt (σ × Transcript ι) α}
  {y : Attempt (σ × Transcript ι) β}
  {post : α → List (Constraint ι) → β → List (Constraint ι) → Prop}

theorem foldl_order (h : stage.Overlooks view) (constraints : List (Constraint ι)) (s : σ) :
    view (constraints.foldl (fun t c => stage.order c t) s) = view s := by
  induction constraints generalizing s with
  | nil => rfl
  | cons c rest ih => exact (ih _).trans (h.order c s)

/-- Each may register relations of its own. -/
theorem register (h : stage.Overlooks view) (constraints others : List (Constraint ι)) :
    Alike view (stage.recording.register constraints) (stage.recording.register others)
      fun _ own _ own' => own = constraints ∧ own' = others := by
  intro s s' hview
  refine Or.inr ⟨(), _, _, (), _, _, stage.adds_register constraints s,
    stage.adds_register others s', ?_, rfl, rfl, rfl⟩
  rw [h.foldl_order, h.foldl_order, hview]

/-- One may register relations that the other does not. -/
theorem register_first (h : stage.Overlooks view) {constraints : List (Constraint ι)}
    (hxy : Alike view x y fun a own b own' => post a (constraints ++ own) b own') :
    Alike view (stage.recording.register constraints >>= fun _ => x) y post := by
  intro s s' hview
  have hfirst := stage.adds_register constraints s
  rcases hxy _ s' ((h.foldl_order constraints s).trans hview) with
    ⟨hx, hy⟩ | ⟨a, t, added, b, t', added', hx, hy, ht, hleaves, hpost⟩
  · exact Or.inl ⟨hfirst.bind_fails hx, hy⟩
  · exact Or.inr ⟨a, t, _, b, t', added', hfirst.bind hx, hy, ht, hleaves, hpost⟩

theorem leaf (h : stage.Overlooks view) (p : π) :
    Alike view (stage.recording.produce p) (stage.recording.produce p)
      fun n own n' own' => n = n' ∧ own = own' := by
  intro s s' hview
  obtain ⟨hresult, hstate⟩ := h.produce p s s' hview
  have hrecords := stage.records_produce p
  cases hs : (stage.produce p s).result with
  | error f => exact Or.inl ⟨hrecords.fails hs, hrecords.fails (hresult.symm.trans hs)⟩
  | ok n =>
      have hgives := Attempt.gives_iff.mpr ⟨hs, rfl⟩
      have hgives' := Attempt.gives_iff.mpr ⟨hresult.symm.trans hs, rfl⟩
      exact Or.inr ⟨n, _, _, n, _, _, Stage.adds_produce hgives, Stage.adds_produce hgives', hstate,
        rfl, rfl, rfl⟩

variable [DecidableEq ι]

mutual

/-- **The evaluation of a setup comes to the same, whichever relations were registered before.** -/
theorem build (h : stage.Overlooks view) : ∀ setup : Setup π,
    Alike view (setup.build stage.recording) (setup.build stage.recording)
      fun n own n' own' => n = n' ∧ own = own'
  | .leaf producer => h.leaf producer
  | .independent parts =>
      (h.registerEach parts).gives fun _ _ _ _ hown => ⟨rfl, hown⟩
  | .chain parts =>
      (h.buildEach parts).gives fun _ _ _ _ hns => ⟨by rw [hns.1], hns.2⟩
  | .parallel parts =>
      (h.buildEach parts).gives fun _ _ _ _ hns => ⟨by rw [hns.1], hns.2⟩
  | .detach mode part =>
      (h.build part).gives fun _ _ _ _ hn => ⟨by rw [hn.1], hn.2⟩
  | .range p q part => by
      refine (h.build part).bind fun n own n' own' hn => ?_
      obtain ⟨rfl, rfl⟩ := hn
      cases n.cut? with
      | some side => exact .fail _
      | none =>
          refine (h.register _ _).gives fun _ further _ further' hfurther => ⟨rfl, ?_⟩
          rw [hfurther.1, hfurther.2]

theorem buildEach (h : stage.Overlooks view) : ∀ parts : List (Setup π),
    Alike view (Setup.build.buildEach stage.recording parts)
      (Setup.build.buildEach stage.recording parts) fun ns own ns' own' => ns = ns' ∧ own = own'
  | [] => .pure ⟨rfl, rfl⟩
  | part :: rest => by
      refine (h.build part).bind fun n own n' own' hn => ?_
      obtain ⟨rfl, rfl⟩ := hn
      refine (h.buildEach rest).gives fun ns further ns' further' hns => ?_
      rw [hns.1, hns.2]
      exact ⟨rfl, rfl⟩

theorem registerEach (h : stage.Overlooks view) : ∀ parts : List (Setup π),
    Alike view (Setup.build.registerEach stage.recording parts)
      (Setup.build.registerEach stage.recording parts) fun _ own _ own' => own = own'
  | [] => .pure rfl
  | part :: rest => by
      refine (h.build part).bind fun n own n' own' hn => ?_
      obtain ⟨rfl, rfl⟩ := hn
      refine (h.register _ _).bind fun _ further _ further' hfurther => ?_
      obtain ⟨rfl, rfl⟩ := hfurther
      refine (h.registerEach rest).mono fun _ last _ last' hlast => ?_
      rw [hlast]

end

end Stage.Overlooks

end Stage

/-! ### The producers of calls -/

/-- The expectation without what it comes after. -/
def Expectation.unordered (e : Expectation) : Expectation :=
  { e with prerequisites := [] }

namespace Ledger

/-- The expectations without what they come after. -/
def unordered (l : Ledger) : Ledger where
  calls := l.calls.map Expectation.unordered

theorem unordered_modify {f g : Expectation → Expectation}
    (h : ∀ e, (f e).unordered = g e.unordered) (l : Ledger) (index : Nat) :
    (l.modify index f).unordered = l.unordered.modify index g := by
  simp only [unordered, modify, Ledger.mk.injEq]
  refine List.ext_getElem? fun i => ?_
  simp only [List.getElem?_map, List.getElem?_modify]
  cases l.calls[i]? with
  | none => rfl
  | some e => by_cases hi : index = i <;> simp [hi, h]

theorem unordered_after (l : Ledger) (index predecessor : Nat) :
    (l.after index predecessor).unordered = l.unordered := by
  unfold after
  rw [unordered_modify (g := id) (fun e => by split <;> rfl)]
  simp [modify]

theorem unordered_declare (l : Ledger) (call : Signature) :
    (l.declare call).unordered = l.unordered.declare call := by
  simp only [unordered, declare, List.map_append, List.map_singleton]
  rfl

end Ledger

namespace Switchboard

/-- All controllers without the relations that they took on. -/
def unordered (s : Switchboard) : Switchboard :=
  { s with controllers := s.controllers.map Ledger.unordered }

theorem ledger_unordered (s : Switchboard) (controller : Nat) :
    s.unordered.ledger controller = (s.ledger controller).unordered := by
  simp only [ledger, unordered, List.getD_eq_getElem?_getD, List.getElem?_map]
  cases s.controllers[controller]? <;> rfl

theorem expectation?_unordered (s : Switchboard) (id : CallId) :
    s.unordered.expectation? id = (s.expectation? id).map Expectation.unordered := by
  rw [expectation?, ledger_unordered, expectation?]
  exact List.getElem?_map

theorem unordered_modify {f g : Ledger → Ledger} (h : ∀ l, (f l).unordered = g l.unordered)
    (s : Switchboard) (controller : Nat) :
    (s.modify controller f).unordered = s.unordered.modify controller g := by
  have hcontrollers : (s.controllers.modify controller f).map Ledger.unordered
      = (s.controllers.map Ledger.unordered).modify controller g := by
    refine List.ext_getElem? fun i => ?_
    simp only [List.getElem?_map, List.getElem?_modify]
    cases s.controllers[i]? with
    | none => rfl
    | some l => by_cases hi : controller = i <;> simp [hi, h]
  simp only [unordered, modify, hcontrollers]

theorem unordered_order (c : Constraint CallId) (s : Switchboard) :
    Switchboard.unordered (Collaborator.order c s) = s.unordered := by
  refine (unordered_modify (g := id) (fun l => l.unordered_after _ _) s _).trans ?_
  simp [modify]

end Switchboard

/-- What belongs to a plan besides its call: its stub, its completions, how often it is called, and
its hooks. -/
def CallPlan.equip (plan : CallPlan) (id : CallId) : Attempt Bench Unit := do
  plan.stub.forM (Bench.setStub id)
  plan.tracked.forM fun n => do
    Bench.setTimes id (← Handler.onCompletion (Completion.expect n))
  plan.times.forM (Bench.setTimes id)
  let _ ← Attempt.forEach (Bench.run id) plan.hooks

theorem CallPlan.carryOut_eq (plan : CallPlan) :
    plan.carryOut = do
      let id ← Bench.declare 0 plan.call
      plan.equip id
      return id := by
  obtain ⟨call, stub, tracked, times, hooks⟩ := plan
  cases stub <;> cases tracked <;> cases times <;> simp [carryOut, equip]

namespace Bench

/-- The bench with all relations forgotten. -/
def unordered (b : Bench) : Bench :=
  b.modify Switchboard.unordered

/-- The attempt does the same where all relations were forgotten. -/
def Oblivious {α : Type} (x : Attempt Bench α) : Prop :=
  ∀ b, x (unordered b) = ⟨(x b).result, unordered (x b).state, (x b).events⟩

namespace Oblivious

open Attempt

variable {α β : Type} {x : Attempt Bench α}

theorem pure (a : α) : Oblivious (Pure.pure a) :=
  fun _ => rfl

theorem fail (f : Failure) : Oblivious (Attempt.fail f : Attempt Bench α) :=
  fun _ => rfl

theorem ofSetup (result : Except SetupError α) : Oblivious (Attempt.ofSetup result) := by
  cases result with
  | error e => exact fail _
  | ok a => exact pure a

theorem bind {next : α → Attempt Bench β} (h : Oblivious x) (hnext : ∀ a, Oblivious (next a)) :
    Oblivious (x >>= next) := by
  intro b
  rw [bind_apply, bind_apply, h b]
  rcases hx : x b with ⟨f | a, t, events⟩
  · rfl
  · simp only [Outcome.after, hnext a t]

/-- What is read may not depend on relations. -/
theorem reading {next : Bench → Attempt Bench α} (hsame : ∀ b, next (unordered b) = next b)
    (h : ∀ b, Oblivious (next b)) : Oblivious (do next (← current)) := by
  intro b
  show (next (unordered b) (unordered b)).after [] = _
  rw [hsame, h b]
  rfl

theorem forEach {ι : Type} {act : ι → Attempt Bench α} (h : ∀ i, Oblivious (act i))
    (items : List ι) : Oblivious (Attempt.forEach act items) := by
  induction items with
  | nil => exact pure []
  | cons i rest ih => exact (h i).bind fun _ => ih.bind fun _ => pure _

/-- What is beside the collaborator has nothing to do with relations. -/
theorem on {τ : Type} (get : Bench → τ) (set : τ → Bench → Bench)
    (hget : ∀ b, get (unordered b) = get b)
    (hset : ∀ t b, set t (unordered b) = unordered (set t b)) (x : Attempt τ α) :
    Oblivious (x.on get set) :=
  fun b => by simp only [Attempt.on, hget, hset]

theorem onCompletion (x : Attempt Completion α) :
    Oblivious (Handler.onCompletion x : Attempt Bench α) :=
  on Handler.completion (fun c b => { b with completion := c }) (fun _ => rfl) (fun _ _ => rfl) x

theorem fatal (complaint : Complaint) : Oblivious (Handler.fatal complaint : Attempt Bench α) :=
  on Handler.reporter (fun r b => { b with reporter := r }) (fun _ => rfl) (fun _ _ => rfl) _

theorem get (mock value : String) :
    Oblivious (Handler.get mock fun _ => value : Attempt Bench String) :=
  reading (fun _ => rfl) fun _ =>
    (on Handler.registry (fun r b => { b with registry := r }) (fun _ => rfl) (fun _ _ => rfl)
      _).bind fun _ => pure _

/-- A change that has nothing to do with what an expectation comes after. -/
theorem modifyCall {change : Expectation → Expectation}
    (h : ∀ e, (change e).unordered = change e.unordered) (id : CallId) :
    Oblivious (Bench.modifyCall id change) := by
  intro b
  have hmodify : (b.collaborator.modifyCall id change).unordered
      = b.collaborator.unordered.modifyCall id change :=
    Switchboard.unordered_modify (fun l => l.unordered_modify h id.index) _ _
  simp only [Bench.modifyCall, update, Bench.unordered, Handler.modify, hmodify]

theorem setTimes (id : CallId) (n : Nat) : Oblivious (Bench.setTimes id n) := by
  refine modifyCall ?_ id
  intro e
  rfl

theorem setStub (id : CallId) (stub : Returned) : Oblivious (Bench.setStub id stub) := by
  refine modifyCall ?_ id
  intro e
  rfl

theorem attach (id : CallId) (hook : Hook) : Oblivious (Bench.attach id hook) := by
  refine reading (fun b => ?_) fun b => ?_
  · have hget : (unordered b).collaborator.expectation? id
        = (b.collaborator.expectation? id).map Expectation.unordered :=
      b.collaborator.expectation?_unordered id
    rw [hget]
    cases b.collaborator.expectation? id <;> rfl
  · cases b.collaborator.expectation? id with
    | none => exact fail _
    | some e =>
        by_cases haccepts : hook.accepts e.call.args.length
        · simp only [haccepts, if_true]
          refine modifyCall ?_ id
          intro e
          rfl
        · simp only [haccepts]
          exact fatal _

theorem run (id : CallId) (plan : HookPlan) : Oblivious (Bench.run id plan) :=
  (ofSetup plan.hook).bind (attach id)

theorem declare (controller : Nat) (call : Signature) :
    Oblivious (Bench.declare controller call) := by
  intro b
  have hlength : ((unordered b).collaborator.ledger controller).calls.length
      = (b.collaborator.ledger controller).calls.length := by
    show (b.collaborator.unordered.ledger controller).calls.length = _
    rw [Switchboard.ledger_unordered]
    exact List.length_map _
  have hdeclare : (b.collaborator.modify controller (·.declare call)).unordered
      = b.collaborator.unordered.modify controller (·.declare call) :=
    Switchboard.unordered_modify (fun l => l.unordered_declare call) _ _
  simp only [Bench.declare, hlength]
  simp only [unordered, Handler.modify, ← hdeclare]
  rfl

theorem forM {ι : Type} {act : ι → Attempt Bench Unit} (h : ∀ i, Oblivious (act i))
    (item : Option ι) : Oblivious (item.forM act) := by
  cases item with
  | none => exact pure ()
  | some i => exact h i

theorem equip (plan : CallPlan) (id : CallId) : Oblivious (plan.equip id) :=
  (forM (setStub id) _).bind fun _ =>
    (forM (fun n => (onCompletion (Completion.expect n)).bind (setTimes id)) _).bind fun _ =>
      (forM (setTimes id) _).bind fun _ =>
        (forEach (run id) _).bind fun _ => pure ()

theorem produce (p : Producer) : Oblivious p.produce := by
  cases p with
  | existing calls =>
      refine reading (fun _ => rfl) fun b => ?_
      by_cases h : calls.leaves.all (· < b.collaborator.declared.length)
      · simp only [h, if_true]
        exact pure _
      · simp only [h]
        exact fail _
  | declare plan =>
      refine (get Producer.sharedMock "").bind fun _ => ?_
      rw [CallPlan.carryOut_eq]
      refine Oblivious.bind ?_ fun id => pure (Node.single id)
      exact (declare 0 plan.call).bind fun id => (equip plan id).bind fun _ => pure id
  | recorder => exact fail _
  | mistake e => exact fail _
  | nothing => exact pure _

end Oblivious

/-- **Producers of calls take no notice of relations.** -/
theorem overlooks_stage : (Handler.stage Producer.produce).Overlooks unordered where
  order c b := by
    show b.modify (fun s => Switchboard.unordered (Collaborator.order c s)) = unordered b
    simp only [Switchboard.unordered_order]
    rfl
  produce p b b' h := by
    have hb := Oblivious.produce p b
    have hb' := Oblivious.produce p b'
    rw [h, hb'] at hb
    injection hb with hresult hstate
    exact ⟨hresult.symm, hstate.symm⟩

end Bench

end CallOrder
