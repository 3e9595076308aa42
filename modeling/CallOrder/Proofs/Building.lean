/-
What a handler expects once a pattern was evaluated.

Evaluating a pattern declares the calls of the leaves from left to right on the
handler's controller, gives the node tree over their numbers, and registers on the way
what the pattern registers over these numbers.  The controller is then arranged with
exactly these calls and relations (`Ledger.Expects`).  Only a hook can stand in the
way, if there is none of its kind or if it does not take the arguments of its call.

Nothing but the controller's own expectations matters here, so what an attempt does is
told by them alone (`Leaves`): started where they are `l`, it leaves others or fails,
and where it is sure to succeed it does.
-/
import CallOrder.Proofs.Arrangement
import CallOrder.Proofs.Walk

namespace CallOrder

namespace CallPlan

/-- How often the call is expected: the number set last counts. -/
def cardinality (plan : CallPlan) : Nat :=
  plan.times.getD (plan.tracked.getD 1)

/-- The expectation that the plan asks for. -/
def expectation (plan : CallPlan) : Expectation where
  call := plan.call
  times := plan.cardinality
  stub := plan.stub

end CallPlan

/-- What was asked of an expectation, without its side effects and what became of it. -/
def Expectation.asked (e : Expectation) : Expectation where
  call := e.call
  times := e.times
  stub := e.stub

/-- A relation between calls of one controller, by their numbers there. -/
def Constraint.numbers (c : Constraint CallId) : Constraint Nat :=
  ⟨c.successor.index, c.predecessor.index⟩

namespace Ledger

/-- Takes on an expectation that is already set. -/
def add (l : Ledger) (e : Expectation) : Ledger where
  calls := l.calls ++ [e]

/-- What holds of all expectations and of a new one holds of all with it. -/
theorem forall_mem_add {l : Ledger} {e : Expectation} {P : Expectation → Prop}
    (h : ∀ f ∈ l.calls, P f) (he : P e) : ∀ f ∈ (l.add e).calls, P f :=
  List.forall_mem_append.mpr ⟨h, List.forall_mem_singleton.mpr he⟩

theorem modify_add (l : Ledger) (e : Expectation) (change : Expectation → Expectation) :
    (l.add e).modify l.calls.length change = l.add (change e) := by
  simp [add, modify, List.modify_eq_take_drop]

/-- The expectations are those of the plans, with these relations between them. -/
structure Expects (l : Ledger) (plans : List CallPlan) (constraints : List (Constraint CallId)) :
    Prop where
  asked : l.calls.map Expectation.asked = plans.map CallPlan.expectation
  /-- Without hooks that are asked for, there are none. -/
  hookless : (∀ plan ∈ plans, plan.hooks = []) → l.Hookless
  arranged : l.Arranged (constraints.map Constraint.numbers)

namespace Expects

variable {l : Ledger} {plans : List CallPlan} {constraints : List (Constraint CallId)}

theorem length (h : l.Expects plans constraints) : l.calls.length = plans.length := by
  simpa using congrArg List.length h.asked

theorem nothing : ({} : Ledger).Expects [] [] :=
  ⟨rfl, fun _ _ he => absurd he List.not_mem_nil, .nothing⟩

/-- What a plan asks for becomes the last expectation. -/
theorem add (h : l.Expects plans constraints) (plan : CallPlan) {hooks : List Hook}
    (hnone : plan.hooks = [] → hooks = []) :
    (l.add { plan.expectation with hooks }).Expects (plans ++ [plan]) constraints := by
  refine ⟨?_, ?_, ?_⟩
  · rw [Ledger.add, List.map_append, List.map_append, h.asked]
    rfl
  · intro hhooks e he
    rcases List.mem_append.mp he with he | he
    · exact h.hookless (fun p hp => hhooks p (List.mem_append_left _ hp)) e he
    · obtain rfl := List.mem_singleton.mp he
      exact hnone (hhooks plan (by simp))
  · -- It is what is declared, with all but its call changed afterwards.
    have hadd : l.add { plan.expectation with hooks } =
        (l.declare plan.call).modify l.calls.length
          fun e => { e with times := plan.cardinality, stub := plan.stub, hooks } :=
      (modify_add l { call := plan.call } fun e =>
        { e with times := plan.cardinality, stub := plan.stub, hooks }).symm
    rw [hadd]
    exact (h.arranged.declare plan.call).modify _ _ (fun _ => rfl) (fun _ => rfl) (fun _ => rfl)

theorem after (h : l.Expects plans constraints) {c : Constraint CallId}
    (hs : c.successor.index < plans.length) (hp : c.predecessor.index < plans.length) :
    (l.after c.successor.index c.predecessor.index).Expects plans (constraints ++ [c]) := by
  refine ⟨?_, fun hhooks => (h.hookless hhooks).after _ _, ?_⟩
  · rw [← h.asked, Ledger.after, Ledger.modify]
    refine List.ext_getElem? fun i => ?_
    simp only [List.getElem?_map, List.getElem?_modify]
    cases l.calls[i]? with
    | none => rfl
    | some e =>
        by_cases hi : c.successor.index = i
        · by_cases hmem : c.predecessor.index ∈ e.prerequisites <;>
            simp [hi, hmem, Expectation.asked]
        · simp [hi]
  · rw [List.map_append]
    exact h.arranged.after (h.length.symm ▸ hs) (h.length.symm ▸ hp)

end Expects

end Ledger

/-- Where an attempt fails, so does what begins with it. -/
theorem Attempt.result_bind_of_error {σ α β : Type} {x : Attempt σ α} {next : α → Attempt σ β}
    {s : σ} {f : Failure} (h : (x s).result = .error f) : ((x >>= next) s).result = .error f := by
  rw [bind_apply]
  rcases hx : x s with ⟨f' | a, t, events⟩
  · obtain rfl : f' = f := by simpa [hx] using h
    rfl
  · simp [hx] at h

theorem Attempt.state_bind_of_error {σ α β : Type} {x : Attempt σ α} {next : α → Attempt σ β}
    {s : σ} {f : Failure} (h : (x s).result = .error f) :
    ((x >>= next) s).state = (x s).state := by
  rw [bind_apply]
  rcases hx : x s with ⟨f' | a, t, events⟩
  · rfl
  · simp [hx] at h

namespace Bench

open Attempt

/-- The handler's controller has these expectations, and no other controller has any. -/
def Has (b : Bench) (l : Ledger) : Prop :=
  ∃ n, b.collaborator.controllers = l :: List.replicate n {}

/-- Wherever the handler's controller has the expectations `l`, the attempt succeeds with a value
and leaves expectations as is said, or it is not sure to succeed and fails. -/
def Leaves {α : Type} (sure : Prop) (l : Ledger) (x : Attempt Bench α)
    (post : α → Ledger → Prop) : Prop :=
  ∀ b : Bench, b.Has l →
    (∃ a b' events l', x b = ⟨.ok a, b', events⟩ ∧ b'.Has l' ∧ post a l') ∨
      ¬sure ∧ ∃ f, (x b).result = .error f

theorem Has.ledger_eq {b : Bench} {l : Ledger} (h : b.Has l) : b.collaborator.ledger 0 = l := by
  obtain ⟨n, hn⟩ := h
  rw [Switchboard.ledger, hn]
  rfl

theorem Has.modify {b : Bench} {l : Ledger} (h : b.Has l) (change : Ledger → Ledger) :
    Has (b.modify (·.modify 0 change)) (change l) := by
  obtain ⟨n, hn⟩ := h
  exact ⟨n, by simp [Handler.modify, Switchboard.modify, hn]⟩

/-- A hook that can be made is attached if it takes the arguments of the call. -/
theorem run_apply {b : Bench} {id : CallId} {plan : HookPlan} {hook : Hook} {e : Expectation}
    (hhook : plan.hook = .ok hook) (he : b.collaborator.expectation? id = some e) :
    Bench.run id plan b =
      if hook.accepts e.call.args.length then
        Bench.modifyCall id (fun e => { e with hooks := e.hooks ++ [hook] }) b
      else Handler.fatal (.hookRefused e.call) b := by
  rw [Bench.run, hhook]
  show (Bench.attach id hook b).after [] = _
  rw [Attempt.after_nil, Bench.attach, bind_apply, Attempt.current]
  simp only [he, Attempt.after_nil]
  split <;> rfl

/-- One that cannot be made changes nothing. -/
theorem run_of_error {b : Bench} {id : CallId} {plan : HookPlan} {mistake : SetupError}
    (hhook : plan.hook = .error mistake) :
    Bench.run id plan b = ⟨.error (.setup mistake), b, []⟩ := by
  rw [Bench.run, hhook]
  rfl

/-- Making the mock that the calls of setups share changes no controller. -/
theorem get_apply (mock : String) (make : Switchboard → String) (b : Bench) :
    ∃ value t events, (Handler.get mock make : Attempt Bench String) b = ⟨.ok value, t, events⟩ ∧
      t.collaborator = b.collaborator ∧ t.completion = b.completion := by
  simp only [Handler.get, bind_apply, Attempt.current, Handler.onRegistry, Attempt.on,
    Registry.resolve, pure_apply]
  cases (b.registry.reserve mock).instance? mock with
  | some value => exact ⟨value, _, _, rfl, rfl, rfl⟩
  | none => exact ⟨_, _, _, rfl, rfl, rfl⟩

/-- A plan is carried out by its producer where that mock was made. -/
theorem produce_declare_apply (plan : CallPlan) (b : Bench) :
    ∃ (t : Bench) (events : List Event), t.collaborator = b.collaborator ∧
      (Producer.declare plan).produce b
        = ((plan.carryOut >>= fun id => (return .single id : Attempt Bench (Node CallId))) t).after
          events := by
  obtain ⟨value, t, events, hget, ht, -⟩ := get_apply Producer.sharedMock (fun _ => "") b
  refine ⟨t, events, ht, ?_⟩
  simp only [Producer.produce, bind_apply, hget]

namespace Leaves

variable {α β ι : Type} {sure : Prop} {l l' : Ledger} {x : Attempt Bench α}
  {post : α → Ledger → Prop}

/-- An attempt that always succeeds. -/
theorem of_ok (h : ∀ b : Bench, b.Has l →
    ∃ a b' events l', x b = ⟨.ok a, b', events⟩ ∧ b'.Has l' ∧ post a l') :
    Leaves sure l x post :=
  fun b hb => Or.inl (h b hb)

theorem pure {a : α} (h : post a l) : Leaves sure l (Pure.pure a) post :=
  of_ok fun b hb => ⟨a, b, [], l, rfl, hb, h⟩

/-- An attempt that fails, where success is not sure. -/
theorem of_error (hsure : ¬sure)
    (h : ∀ b : Bench, b.Has l → ∃ f, (x b).result = .error f) : Leaves sure l x post :=
  fun b hb => Or.inr ⟨hsure, h b hb⟩

theorem bind {next : α → Attempt Bench β} {post' : β → Ledger → Prop}
    (hx : Leaves sure l x post) (hnext : ∀ a l', post a l' → Leaves sure l' (next a) post') :
    Leaves sure l (x >>= next) post' := by
  intro b hb
  rcases hx b hb with ⟨a, t, events, l', hxb, ht, ha⟩ | ⟨hsure, f, hf⟩
  · rw [bind_apply, hxb]
    rcases hnext a l' ha t ht with ⟨c, u, later, l'', hnextt, hu, hc⟩ | hfails
    · refine Or.inl ⟨c, u, events ++ later, l'', ?_, hu, hc⟩
      simp only [hnextt]
      rfl
    · exact Or.inr hfails
  · exact Or.inr ⟨hsure, f, result_bind_of_error hf⟩

theorem mono {post' : α → Ledger → Prop} (hx : Leaves sure l x post)
    (h : ∀ a l', post a l' → post' a l') : Leaves sure l x post' := by
  intro b hb
  rcases hx b hb with ⟨a, t, events, l', hxb, ht, ha⟩ | hfails
  · exact Or.inl ⟨a, t, events, l', hxb, ht, h a l' ha⟩
  · exact Or.inr hfails

theorem declare (l : Ledger) (call : Signature) : Leaves sure l (Bench.declare 0 call)
    fun id l' => id = ⟨0, l.calls.length⟩ ∧ l' = l.add { call } := by
  refine of_ok fun b hb => ⟨_, _, _, l.add { call }, rfl, hb.modify (·.declare call), ?_, rfl⟩
  rw [hb.ledger_eq]

theorem modifyCall (l : Ledger) (i : Nat) (change : Expectation → Expectation) :
    Leaves sure l (Bench.modifyCall ⟨0, i⟩ change) fun _ l' => l' = l.modify i change :=
  of_ok fun _ hb => ⟨(), _, [], _, rfl, hb.modify (·.modify i change), rfl⟩

theorem expectCompletions (l : Ledger) (n : Nat) :
    Leaves sure l (Handler.onCompletion (Completion.expect n)) fun a l' => a = n ∧ l' = l :=
  of_ok fun _ hb => ⟨n, _, _, l, rfl, hb, rfl, rfl⟩

theorem get (l : Ledger) (mock : String) (make : Switchboard → String) :
    Leaves sure l (Handler.get mock make) fun _ l' => l' = l := by
  refine of_ok fun b hb => ?_
  obtain ⟨value, t, events, hget, ht, -⟩ := get_apply mock make b
  obtain ⟨n, hn⟩ := hb
  exact ⟨value, t, events, l, hget, ⟨n, ht ▸ hn⟩, rfl⟩

/-- Attaching a hook adds to those of the expectation, unless it is refused. -/
theorem run (l : Ledger) (e : Expectation) (plan : HookPlan) (hsure : ¬sure) :
    Leaves sure (l.add e) (Bench.run ⟨0, l.calls.length⟩ plan)
      fun _ l' => ∃ hooks, l' = l.add { e with hooks } := by
  cases hhook : plan.hook with
  | error mistake => exact of_error hsure fun b _ => ⟨_, by rw [run_of_error hhook]⟩
  | ok hook =>
      intro b hb
      have hget : b.collaborator.expectation? ⟨0, l.calls.length⟩ = some e := by
        rw [Switchboard.expectation?, hb.ledger_eq]
        simp [Ledger.add]
      rw [run_apply hhook hget]
      split
      · refine Or.inl ⟨(), _, _, _, rfl, hb.modify _, e.hooks ++ [hook], ?_⟩
        exact Ledger.modify_add l e _
      · exact Or.inr ⟨hsure, Handler.fatal_fails _ b⟩

theorem forEach_run (l : Ledger) (e : Expectation) {plans : List HookPlan}
    (hsure : sure → plans = []) :
    Leaves sure (l.add e) (Attempt.forEach (Bench.run ⟨0, l.calls.length⟩) plans)
      fun _ l' => ∃ hooks, l' = l.add { e with hooks } ∧ (plans = [] → hooks = e.hooks) := by
  induction plans generalizing e with
  | nil => exact pure ⟨e.hooks, rfl, fun _ => rfl⟩
  | cons plan rest ih =>
      have hunsure : ¬sure := fun h => List.cons_ne_nil _ _ (hsure h)
      refine (run l e plan hunsure).bind ?_
      rintro _ _ ⟨hooks, rfl⟩
      refine (ih { e with hooks } fun h => absurd h hunsure).bind ?_
      rintro _ _ ⟨hooks', rfl, -⟩
      exact pure ⟨hooks', rfl, fun h => absurd h (List.cons_ne_nil _ _)⟩

/-- A plan is carried out to the expectation that it asks for. -/
theorem carryOut (l : Ledger) {plan : CallPlan} (hsure : sure → plan.hooks = []) :
    Leaves sure l plan.carryOut fun id l' =>
      id = ⟨0, l.calls.length⟩ ∧ ∃ hooks, l' = l.add { plan.expectation with hooks } ∧
        (plan.hooks = [] → hooks = []) := by
  obtain ⟨call, stub, tracked, times, hooks⟩ := plan
  refine (declare l call).bind ?_
  rintro _ _ ⟨rfl, rfl⟩
  -- Each option sets something of the new expectation, or nothing, and the hooks come last.
  have hset {β : Type} (e : Expectation) (change : Expectation → Expectation)
      {next : Unit → Attempt Bench β} {post : β → Ledger → Prop}
      (hnext : Leaves sure (l.add (change e)) (next ()) post) :
      Leaves sure (l.add e) (Bench.modifyCall ⟨0, l.calls.length⟩ change >>= next) post := by
    refine (modifyCall (l.add e) l.calls.length change).bind ?_
    rintro _ _ rfl
    rw [Ledger.modify_add]
    exact hnext
  have htracked {β : Type} (l : Ledger) (n : Nat) {next : Nat → Attempt Bench β}
      {post : β → Ledger → Prop} (hnext : Leaves sure l (next n) post) :
      Leaves sure l (Handler.onCompletion (Completion.expect n) >>= next) post := by
    refine (expectCompletions l n).bind ?_
    rintro _ _ ⟨rfl, rfl⟩
    exact hnext
  have hend (e : Expectation) (hnone : e.hooks = []) :
      Leaves sure (l.add e) (do
          let _ ← Attempt.forEach (Bench.run ⟨0, l.calls.length⟩) hooks
          return (⟨0, l.calls.length⟩ : CallId))
        fun id l' => id = ⟨0, l.calls.length⟩ ∧ ∃ hooks', l' = l.add { e with hooks := hooks' } ∧
          (hooks = [] → hooks' = []) := by
    refine (forEach_run l e hsure).bind ?_
    rintro _ _ ⟨hooks', rfl, h⟩
    exact pure ⟨rfl, hooks', rfl, fun hh => (h hh).trans hnone⟩
  cases stub <;> cases tracked <;> cases times
  · exact hend _ rfl
  · exact hset _ _ (hend _ rfl)
  · exact htracked _ _ (hset _ _ (hend _ rfl))
  · exact htracked _ _ (hset _ _ (hset _ _ (hend _ rfl)))
  · exact hset _ _ (hend _ rfl)
  · exact hset _ _ (hset _ _ (hend _ rfl))
  · exact hset _ _ (htracked _ _ (hset _ _ (hend _ rfl)))
  · exact hset _ _ (htracked _ _ (hset _ _ (hset _ _ (hend _ rfl))))

variable {plans : List CallPlan} {constraints : List (Constraint CallId)}

theorem produce (h : l.Expects plans constraints) {plan : CallPlan}
    (hsure : sure → plan.hooks = []) :
    Leaves sure l (Producer.declare plan).produce fun node l' =>
      node = .single ⟨0, plans.length⟩ ∧ l'.Expects (plans ++ [plan]) constraints := by
  refine (get l Producer.sharedMock fun _ => "").bind ?_
  intro _ l' hl'
  rw [hl']
  refine (carryOut l hsure).bind ?_
  rintro _ _ ⟨rfl, hooks, rfl, hnone⟩
  exact pure ⟨by rw [h.length], h.add plan hnone⟩

theorem register (h : l.Expects plans constraints) {new : List (Constraint CallId)}
    (hnew : ∀ c ∈ new, c.predecessor ∈ Pattern.ids 0 plans.length ∧
      c.successor ∈ Pattern.ids 0 plans.length) :
    Leaves sure l ((Handler.stage Producer.produce).register new) fun _ l' =>
      l'.Expects plans (constraints ++ new) := by
  refine of_ok fun b hb => ?_
  -- The events depend on where the registration starts, but nothing else does.
  suffices hstate : ∃ l', Has (new.foldl (fun b c => b.modify (Collaborator.order c)) b) l' ∧
      l'.Expects plans (constraints ++ new) by
    obtain ⟨l', hl', hexpects⟩ := hstate
    exact ⟨(), _, _, l', rfl, hl', hexpects⟩
  induction new generalizing l b constraints with
  | nil => exact ⟨l, hb, by simpa using h⟩
  | cons c rest ih =>
      obtain ⟨hp, hs⟩ := hnew c (by simp)
      obtain ⟨-, -, hp⟩ := Pattern.mem_ids.mp hp
      obtain ⟨hcontroller, -, hs⟩ := Pattern.mem_ids.mp hs
      have hone := hb.modify (·.after c.successor.index c.predecessor.index)
      rw [← hcontroller] at hone
      obtain ⟨l', hl', hexpects⟩ := ih (h.after (by simpa using hs) (by simpa using hp))
        (fun d hd => hnew d (List.mem_cons_of_mem _ hd)) _ hone
      exact ⟨l', hl', by simpa using hexpects⟩

end Leaves

open Leaves

/-! ### Evaluating a pattern -/

variable {sure : Prop} {l : Ledger} {plans : List CallPlan} {constraints : List (Constraint CallId)}

theorem buildEach_cons {part : Setup Producer} {rest : List (Setup Producer)}
    {node : Node CallId} {nodes : List (Node CallId)} {between after : Ledger → Prop}
    (hpart : Leaves sure l (part.build (Handler.stage Producer.produce)) fun n l' =>
      n = node ∧ between l')
    (hrest : ∀ l', between l' →
      Leaves sure l' (Setup.build.buildEach (Handler.stage Producer.produce) rest) fun ns l'' =>
        ns = nodes ∧ after l'') :
    Leaves sure l (Setup.build.buildEach (Handler.stage Producer.produce) (part :: rest))
      fun ns l' => ns = node :: nodes ∧ after l' := by
  refine hpart.bind ?_
  rintro _ l' ⟨rfl, hl'⟩
  refine (hrest l' hl').bind ?_
  rintro _ l'' ⟨rfl, hl''⟩
  exact pure ⟨rfl, hl''⟩

/-- The relations of a part on its own are between the calls that it declared. -/
theorem mem_ids_of_mem_propagate (t : Pattern CallPlan) (plans : List CallPlan) :
    ∀ c ∈ ((t.label plans.length).node.propagate []).constraints,
      c.predecessor ∈ Pattern.ids 0 (plans ++ t.leaves).length ∧
        c.successor ∈ Pattern.ids 0 (plans ++ t.leaves).length := by
  intro c hc
  have hleaves : (Pattern.independent [t.label plans.length]).leaves
      = Pattern.ids plans.length t.leaves.length := by
    rw [Pattern.leaves, Pattern.leaves.leavesAll, Pattern.leaves.leavesAll, List.append_nil,
      Pattern.leaves_label]
  have hc' : c ∈ (Pattern.independent [t.label plans.length]).registered := by
    simp [Pattern.registered, Pattern.registered.registeredEach, hc]
  have hmem := Pattern.mem_leaves_of_mem_registered (hleaves ▸ Pattern.nodup_ids ..) c hc'
  rw [hleaves, Pattern.mem_ids, Pattern.mem_ids] at hmem
  rw [Pattern.mem_ids, Pattern.mem_ids, List.length_append]
  omega

mutual

/-- **A pattern is evaluated to its node tree over the calls that it declares.** -/
theorem build : ∀ (t : Pattern CallPlan) {l : Ledger} {plans : List CallPlan}
    {constraints : List (Constraint CallId)}, (sure → ∀ plan ∈ t.leaves, plan.hooks = []) →
    l.Expects plans constraints →
      Leaves sure l (t.setup.build (Handler.stage Producer.produce)) fun node l' =>
        node = (t.label plans.length).node ∧
          l'.Expects (plans ++ t.leaves) (constraints ++ (t.label plans.length).registered)
  | .leaf plan, l, plans, constraints, hsure, h => by
      refine (produce h (fun hs => hsure hs plan (by simp [Pattern.leaves]))).mono ?_
      rintro node l' ⟨rfl, hl'⟩
      refine ⟨rfl, ?_⟩
      rw [Pattern.label, Pattern.registered, List.append_nil]
      exact hl'
  | .chain parts, l, plans, constraints, hsure, h => by
      refine (buildEach parts hsure h).bind ?_
      rintro _ l' ⟨rfl, hl'⟩
      exact pure ⟨rfl, hl'⟩
  | .parallel first others, l, plans, constraints, hsure, h => by
      have hfirst := build first (fun hs plan hp => hsure hs plan (List.mem_append_left _ hp)) h
      have hothers := fun l' (hl' : Ledger.Expects l' (plans ++ first.leaves)
          (constraints ++ (first.label plans.length).registered)) =>
        buildEach others (fun hs plan hp => hsure hs plan (List.mem_append_right _ hp)) hl'
      refine (buildEach_cons hfirst hothers).bind ?_
      rintro _ l' ⟨rfl, hl'⟩
      rw [List.length_append, List.append_assoc, List.append_assoc] at hl'
      refine pure ⟨?_, hl'⟩
      rw [List.length_append]
      rfl
  | .independent parts, l, plans, constraints, hsure, h => by
      refine (registerEach parts hsure h).bind ?_
      intro _ l' hl'
      exact pure ⟨rfl, hl'⟩

theorem buildEach : ∀ (parts : List (Pattern CallPlan)) {l : Ledger} {plans : List CallPlan}
    {constraints : List (Constraint CallId)},
    (sure → ∀ plan ∈ Pattern.leaves.leavesAll parts, plan.hooks = []) →
    l.Expects plans constraints →
      Leaves sure l (Setup.build.buildEach (Handler.stage Producer.produce)
          (Pattern.setup.setupAll parts)) fun nodes l' =>
        nodes = Pattern.node.nodes (Pattern.label.labelAll plans.length parts) ∧
          l'.Expects (plans ++ Pattern.leaves.leavesAll parts)
            (constraints ++ Pattern.registered.registeredAll
              (Pattern.label.labelAll plans.length parts))
  | [], l, plans, constraints, _, h => by
      refine pure ⟨rfl, ?_⟩
      rw [Pattern.leaves.leavesAll, Pattern.label.labelAll, Pattern.registered.registeredAll,
        List.append_nil, List.append_nil]
      exact h
  | p :: rest, l, plans, constraints, hsure, h => by
      have hpart := build p (fun hs plan hp => hsure hs plan (List.mem_append_left _ hp)) h
      have hrest := fun l' (hl' : Ledger.Expects l' (plans ++ p.leaves)
          (constraints ++ (p.label plans.length).registered)) =>
        buildEach rest (fun hs plan hp => hsure hs plan (List.mem_append_right _ hp)) hl'
      refine (buildEach_cons hpart hrest).mono ?_
      rintro _ l' ⟨rfl, hl'⟩
      rw [List.length_append, List.append_assoc, List.append_assoc] at hl'
      refine ⟨?_, hl'⟩
      rw [List.length_append]
      rfl

theorem registerEach : ∀ (parts : List (Pattern CallPlan)) {l : Ledger} {plans : List CallPlan}
    {constraints : List (Constraint CallId)},
    (sure → ∀ plan ∈ Pattern.leaves.leavesAll parts, plan.hooks = []) →
    l.Expects plans constraints →
      Leaves sure l (Setup.build.registerEach (Handler.stage Producer.produce)
          (Pattern.setup.setupAll parts)) fun _ l' =>
        l'.Expects (plans ++ Pattern.leaves.leavesAll parts)
          (constraints ++ Pattern.registered.registeredEach
            (Pattern.label.labelAll plans.length parts))
  | [], l, plans, constraints, _, h => by
      refine pure ?_
      rw [Pattern.leaves.leavesAll, Pattern.label.labelAll, Pattern.registered.registeredEach,
        List.append_nil, List.append_nil]
      exact h
  | p :: rest, l, plans, constraints, hsure, h => by
      have hpart := build p (fun hs plan hp => hsure hs plan (List.mem_append_left _ hp)) h
      refine hpart.bind ?_
      rintro _ l' ⟨rfl, hl'⟩
      have hown : ((((p.label plans.length).node.detached (.cut .both)).propagate []).constraints)
          = ((p.label plans.length).node.propagate []).constraints := by
        simp [Node.detached, Node.propagate, Node.propagate.sideBySide]
      rw [hown]
      refine (register hl' (mem_ids_of_mem_propagate p plans)).bind ?_
      intro _ l'' hl''
      have hrest := registerEach rest
        (fun hs plan hp => hsure hs plan (List.mem_append_right _ hp)) hl''
      refine hrest.mono ?_
      intro _ m hm
      rw [List.length_append] at hm
      simpa [Pattern.leaves.leavesAll, Pattern.label.labelAll,
        Pattern.registered.registeredEach] using hm

end

/-- **A handler with nothing expected comes to expect the leaves of a pattern**, with the
relations that the pattern registers as a part on its own.  Without hooks it always does. -/
theorem expect (t : Pattern CallPlan) :
    Leaves (∀ plan ∈ t.leaves, plan.hooks = []) {} (Handler.expect Producer.produce t.setup)
      fun _ l' => l'.Expects t.leaves ((Pattern.independent [t]).label 0).registered := by
  have hleaves : (Pattern.independent [t]).leaves = t.leaves := by
    simp [Pattern.leaves, Pattern.leaves.leavesAll]
  have hsure : (∀ plan ∈ t.leaves, plan.hooks = []) →
      ∀ plan ∈ (Pattern.independent [t]).leaves, plan.hooks = [] := by
    rw [hleaves]
    exact id
  have hbuild := build (.independent [t]) hsure .nothing
  rw [show (Pattern.independent [t]).setup = .independent [t.setup] from rfl] at hbuild
  intro b hb
  rcases hbuild b hb with ⟨node, b', events, l', hrun, hb', -, hexpects⟩ | ⟨hsure, f, hf⟩
  · rw [hleaves, List.nil_append, List.nil_append] at hexpects
    refine Or.inl ⟨(), b', .entered (b.config.label.getD "") :: (events ++ [.exited]), l', ?_, hb',
      hexpects⟩
    simp [Handler.expect, bind_apply, Attempt.current, Attempt.emit, Attempt.caught, hrun,
      pure_apply, Outcome.after]
  · refine Or.inr ⟨hsure, f, ?_⟩
    simp only [Handler.expect, bind_apply, Attempt.current, Attempt.emit, Attempt.caught, hf,
      Attempt.fail, Outcome.after]

end Bench

end CallOrder
