/-
Handlers that count the completion of each call.

A test that waits for calls made elsewhere prepares its handler in a certain way.  For
each expected call it lets the handler's counter expect some completions more and has the
call made as often, and as the only side effect of the call it attaches a hook that signals
one of them.  It may do so call by call, or from within setups, and register any relations
meanwhile (`Prepared`).

The counter then expects as many completions as there are calls to be made: those of the
expectations that were set in this way (`Prepared.tallied`).  If all were, and each has its
hook, the handler is ready, and its count is that of all calls together, as far as a word holds
it (`Ready.outstanding_eq`).  In a build that panics over a sum that is more, a handler does not
get ready with such a sum (`Ready.remaining_lt`).
-/
import CallOrder.Proofs.Building
import CallOrder.Proofs.Evaluation
import Mathlib.Algebra.GroupWithZero.Nat

namespace CallOrder

theorem total_eq_sum {α : Type} (measure : α → Nat) (items : List α) :
    total measure items = (items.map measure).sum := by
  induction items with
  | nil => rfl
  | cons a rest ih => rw [total, ih, List.map_cons, List.sum_cons]

/-- The only side effect of the call is to signal a completion to the handler's counter, and the
hook takes the arguments of the call. -/
def Expectation.Signals (e : Expectation) : Prop :=
  ∃ hook : CompletionHook, e.hooks = [.completion 0 hook] ∧
    hook.arity.accepts e.call.args.length = true

namespace Ledger

/-- How often the expectation of a number is to be called. -/
def timesOf (l : Ledger) (i : Nat) : Nat :=
  l.calls[i]?.elim 0 (·.times)

/-- How often the expectations of these numbers are to be called together. -/
def tally (l : Ledger) (tracked : List Nat) : Nat :=
  (tracked.map l.timesOf).sum

variable {l : Ledger} {tracked : List Nat}

theorem timesOf_modify {change : Expectation → Expectation}
    (h : ∀ e, (change e).times = e.times) (i j : Nat) :
    (l.modify i change).timesOf j = l.timesOf j := by
  simp only [timesOf, modify, List.getElem?_modify]
  cases l.calls[j]? with
  | none => rfl
  | some e => by_cases hij : i = j <;> simp [hij, h]

theorem timesOf_modify_of_ne {change : Expectation → Expectation} {i j : Nat} (h : i ≠ j) :
    (l.modify i change).timesOf j = l.timesOf j := by
  simp [timesOf, modify, h]

theorem timesOf_declare {call : Signature} {i : Nat} (h : i < l.calls.length) :
    (l.declare call).timesOf i = l.timesOf i := by
  rw [timesOf, declare, List.getElem?_append_left h]
  rfl

theorem tally_modify {change : Expectation → Expectation}
    (h : ∀ e, (change e).times = e.times) (i : Nat) (tracked : List Nat) :
    (l.modify i change).tally tracked = l.tally tracked :=
  congrArg List.sum (List.map_congr_left fun j _ => timesOf_modify h i j)

theorem tally_declare (h : ∀ i ∈ tracked, i < l.calls.length) (call : Signature) :
    (l.declare call).tally tracked = l.tally tracked :=
  congrArg List.sum (List.map_congr_left fun i hi => timesOf_declare (h i hi))

/-- One that was not among them counts as often as it is to be called from now on. -/
theorem tally_setTimes {i : Nat} (hi : i < l.calls.length) (hnew : i ∉ tracked) (n : Nat) :
    (l.modify i fun e => { e with times := n }).tally (i :: tracked) = n + l.tally tracked := by
  have hothers : tracked.map (l.modify i fun e => { e with times := n }).timesOf
      = tracked.map l.timesOf :=
    List.map_congr_left fun j hj => timesOf_modify_of_ne fun hij => hnew (hij ▸ hj)
  have hown : (l.modify i fun e => { e with times := n }).timesOf i = n := by
    simp [timesOf, modify, hi]
  rw [tally, List.map_cons, List.sum_cons, hothers, hown, tally]

end Ledger

namespace Bench

/-- Lets the handler's counter expect `n` completions more, and a call be made as often. -/
def track (id : CallId) (n : Nat) (overflow : Overflow := .wraps) : Attempt Bench Unit := do
  setTimes id (← Handler.onCompletion (Completion.expect n overflow))

/-- Handlers as they are prepared in a build of some kind, with the numbers of the expectations
that are tracked. -/
inductive Prepared (overflow : Overflow) : List Nat → Bench → Prop where
  | start (kind : ReporterKind) (config : Config) {controllers : Nat} (counters : Nat)
      (hcontrollers : 0 < controllers) :
      Prepared overflow [] (Bench.start kind config controllers counters)
  | declare {tracked : List Nat} {b : Bench} (h : Prepared overflow tracked b) (call : Signature) :
      Prepared overflow tracked (Bench.declare 0 call b).state
  /-- An expectation is tracked once, where the build does not panic over the sum. -/
  | track {tracked : List Nat} {b : Bench} (h : Prepared overflow tracked b) {i : Nat}
      (hi : i < (b.collaborator.ledger 0).calls.length) (hnew : i ∉ tracked) (n : Nat)
      (hmade : (Bench.track ⟨0, i⟩ n overflow b).result = .ok ()) :
      Prepared overflow (i :: tracked) (Bench.track ⟨0, i⟩ n overflow b).state
  /-- It gets its hook, if that can be made and takes the arguments of the call. -/
  | run {tracked : List Nat} {b : Bench} (h : Prepared overflow tracked b) {i : Nat}
      {e : Expectation} (hi : (b.collaborator.ledger 0).calls[i]? = some e) (hnone : e.hooks = [])
      (plan : CompletionPlan) :
      Prepared overflow tracked (Bench.run ⟨0, i⟩ (.completion 0 plan) b).state
  | stub {tracked : List Nat} {b : Bench} (h : Prepared overflow tracked b) (id : CallId)
      (stub : Returned) : Prepared overflow tracked (Bench.setStub id stub b).state
  | after {tracked : List Nat} {b : Bench} (h : Prepared overflow tracked b)
      (id predecessor : CallId) : Prepared overflow tracked (Bench.after id predecessor b).state
  /-- Anything may happen that touches neither expectations nor the handler's counter. -/
  | aside {tracked : List Nat} {b t : Bench} (h : Prepared overflow tracked b)
      (hcontrollers : t.collaborator.controllers = b.collaborator.controllers)
      (hcompletion : t.completion = b.completion) : Prepared overflow tracked t

/-- What holds of a handler while it is prepared. -/
structure Tallied (overflow : Overflow) (tracked : List Nat) (b : Bench) (l : Ledger) : Prop where
  has : b.Has l
  uncalled : ∀ e ∈ l.calls, e.invoked = 0
  hooked : ∀ e ∈ l.calls, e.hooks = [] ∨ e.Signals
  distinct : tracked.Nodup
  known : ∀ i ∈ tracked, i < l.calls.length
  /-- As many completions are expected as tracked calls, as far as a word holds them. -/
  counted : b.completion.outstanding = l.tally tracked % UInt64.size
  /-- A build that panics over more has no more. -/
  held : overflow = .panics → l.tally tracked < UInt64.size

/-- Where the build does not panic, the call is to be made as often as completions are added. -/
theorem track_apply {b : Bench} {n : Nat} {overflow : Overflow}
    (h : overflow = .wraps ∨ b.completion.Fits n) (id : CallId) :
    track id n overflow b = ⟨.ok (),
      (setTimes id n { b with completion := b.completion.plus n }).state,
      [.expecting n (b.completion.plus n).outstanding]⟩ := by
  simp only [track, Handler.onCompletion, Attempt.bind_apply, Attempt.on, Completion.expect_eq h]
  rfl

theorem wraps_or_fits_of_track {b : Bench} {id : CallId} {n : Nat} {overflow : Overflow}
    (h : (track id n overflow b).result = .ok ()) :
    overflow = .wraps ∨ b.completion.Fits n := by
  rcases Completion.wraps_or_fits_or overflow b.completion n with hmade | ⟨rfl, hexceeds⟩
  · exact hmade
  · simp only [track, Handler.onCompletion, Attempt.bind_apply, Attempt.on,
      Completion.expect_of_not_fits hexceeds, reduceCtorEq] at h

/-- Changing an expectation changes that one of the handler's controller, or none. -/
theorem Has.modifyCall {b : Bench} {l : Ledger} (h : b.Has l) (id : CallId)
    (change : Expectation → Expectation) :
    (id.controller = 0 ∧ Has (Bench.modifyCall id change b).state (l.modify id.index change)) ∨
      Has (Bench.modifyCall id change b).state l := by
  obtain ⟨controller, index⟩ := id
  obtain ⟨n, hn⟩ := h
  cases controller with
  | zero => exact Or.inl ⟨rfl, Has.modify ⟨n, hn⟩ (·.modify index change)⟩
  | succ k =>
      refine Or.inr ⟨n, ?_⟩
      show b.collaborator.controllers.modify (k + 1) (·.modify index change) = _
      rw [hn, List.modify_succ_cons]
      congr 1
      refine List.ext_getElem? fun i => ?_
      rw [List.getElem?_modify]
      cases hi : (List.replicate n ({} : Ledger))[i]? with
      | none => rfl
      | some m =>
          obtain rfl : m = {} := List.eq_of_mem_replicate (List.mem_of_getElem? hi)
          by_cases hk : k = i <;> simp [hk, Ledger.modify]

namespace Tallied

variable {overflow : Overflow} {tracked : List Nat} {b : Bench} {l : Ledger}

/-- A change that leaves the counts and gives no other hook than one that signals. -/
theorem modify (h : Tallied overflow tracked b l) {i : Nat} {change : Expectation → Expectation}
    {t : Bench} (ht : t.Has (l.modify i change)) (hcompletion : t.completion = b.completion)
    (htimes : ∀ e, (change e).times = e.times) (hinvoked : ∀ e, (change e).invoked = e.invoked)
    (hhooks : ∀ e, l.calls[i]? = some e → e.hooks = [] ∨ e.Signals →
      (change e).hooks = [] ∨ (change e).Signals) :
    Tallied overflow tracked t (l.modify i change) := by
  have hget {j : Nat} {f : Expectation} (hf : (l.modify i change).calls[j]? = some f) :
      ∃ e, l.calls[j]? = some e ∧ f = if i = j then change e else e := by
    rw [Ledger.modify, List.getElem?_modify, Option.map_eq_map, Option.map_eq_some_iff] at hf
    obtain ⟨e, he, rfl⟩ := hf
    exact ⟨e, he, rfl⟩
  have htally := l.tally_modify htimes i tracked
  refine ⟨ht, ?_, ?_, h.distinct, ?_, ?_, htally.symm ▸ h.held⟩
  · intro f hf
    obtain ⟨j, hj⟩ := List.mem_iff_getElem?.mp hf
    obtain ⟨e, he, rfl⟩ := hget hj
    have hzero := h.uncalled e (List.mem_of_getElem? he)
    split
    · rw [hinvoked, hzero]
    · exact hzero
  · intro f hf
    obtain ⟨j, hj⟩ := List.mem_iff_getElem?.mp hf
    obtain ⟨e, he, rfl⟩ := hget hj
    have hown := h.hooked e (List.mem_of_getElem? he)
    split
    · rename_i hij
      subst hij
      exact hhooks e he hown
    · exact hown
  · intro j hj
    simpa [Ledger.modify] using h.known j hj
  · rw [hcompletion, h.counted, htally]

theorem aside (h : Tallied overflow tracked b l) {t : Bench}
    (hcontrollers : t.collaborator.controllers = b.collaborator.controllers)
    (hcompletion : t.completion = b.completion) : Tallied overflow tracked t l := by
  obtain ⟨n, hn⟩ := h.has
  exact ⟨⟨n, hcontrollers.trans hn⟩, h.uncalled, h.hooked, h.distinct, h.known,
    hcompletion ▸ h.counted, h.held⟩

theorem modifyCall (h : Tallied overflow tracked b l) (id : CallId) {change : Expectation → Expectation}
    (htimes : ∀ e, (change e).times = e.times) (hinvoked : ∀ e, (change e).invoked = e.invoked)
    (hhooks : ∀ e, id.controller = 0 → l.calls[id.index]? = some e → e.hooks = [] ∨ e.Signals →
      (change e).hooks = [] ∨ (change e).Signals) :
    ∃ l', Tallied overflow tracked (Bench.modifyCall id change b).state l' := by
  rcases h.has.modifyCall id change with ⟨hid, ht⟩ | ht
  · exact ⟨_, h.modify ht rfl htimes hinvoked fun e => hhooks e hid⟩
  · exact ⟨l, ht, h.uncalled, h.hooked, h.distinct, h.known, h.counted, h.held⟩

theorem declare (h : Tallied overflow tracked b l) (call : Signature) :
    Tallied overflow tracked (Bench.declare 0 call b).state (l.declare call) := by
  have htally := Ledger.tally_declare h.known call
  refine ⟨h.has.modify (·.declare call), Ledger.forall_mem_add h.uncalled rfl,
    Ledger.forall_mem_add h.hooked (Or.inl rfl),
    h.distinct, fun i hi => ?_, ?_, htally.symm ▸ h.held⟩
  · have := h.known i hi
    simp only [Ledger.declare, List.length_append]
    omega
  · show b.completion.outstanding = _
    rw [h.counted, htally]

/-- What is tracked is added to the count. -/
theorem track (h : Tallied overflow tracked b l) {i : Nat} (hi : i < l.calls.length)
    (hnew : i ∉ tracked) {n : Nat} (hmade : overflow = .wraps ∨ b.completion.Fits n) :
    Tallied overflow (i :: tracked) (Bench.track ⟨0, i⟩ n overflow b).state
      (l.modify i fun e => { e with times := n }) := by
  have htally := Ledger.tally_setTimes hi hnew n
  rw [track_apply hmade]
  refine ⟨h.has.modify _, Ledger.forall_mem_modify h.uncalled fun _ he => he,
    Ledger.forall_mem_modify h.hooked fun _ he => he, List.nodup_cons.mpr ⟨hnew, h.distinct⟩,
    ?_, ?_, ?_⟩
  · intro j hj
    rcases List.mem_cons.mp hj with rfl | hj
    · simpa [Ledger.modify] using hi
    · simpa [Ledger.modify] using h.known j hj
  · show (b.completion.plus n).outstanding = _
    rw [htally, Completion.plus, h.counted, Nat.mod_add_mod, Nat.add_comm]
  · intro hpanics
    have hfits := hmade.resolve_left (by rw [hpanics]; exact Overflow.noConfusion)
    rw [Completion.Fits, h.counted, Nat.mod_eq_of_lt (h.held hpanics)] at hfits
    rwa [htally, Nat.add_comm]

/-- A hook is attached if it can be made and takes the arguments; else nothing changes. -/
theorem run (h : Tallied overflow tracked b l) {i : Nat} {e : Expectation} (hi : l.calls[i]? = some e)
    (hnone : e.hooks = []) (plan : CompletionPlan) :
    ∃ l', Tallied overflow tracked (Bench.run ⟨0, i⟩ (.completion 0 plan) b).state l' := by
  cases hhook : plan.hook with
  | error mistake =>
      have hplan : (HookPlan.completion 0 plan).hook = .error mistake := by
        rw [HookPlan.hook, hhook]
        rfl
      rw [run_of_error hplan]
      exact ⟨l, h⟩
  | ok hook =>
      have hplan : (HookPlan.completion 0 plan).hook = .ok (.completion 0 hook) := by
        rw [HookPlan.hook, hhook]
        rfl
      have hget : b.collaborator.expectation? ⟨0, i⟩ = some e := by
        rw [Switchboard.expectation?, h.has.ledger_eq]
        exact hi
      rw [run_apply hplan hget]
      split
      · rename_i haccepts
        refine h.modifyCall ⟨0, i⟩ (fun _ => rfl) (fun _ => rfl) fun f _ hf _ => ?_
        obtain rfl : e = f := Option.some.inj (hi.symm.trans hf)
        exact Or.inr ⟨hook, by simp [hnone], haccepts⟩
      · exact ⟨l, h.aside rfl rfl⟩

end Tallied

/-- **While a handler is prepared, its counter expects as many completions as tracked calls.** -/
theorem Prepared.tallied {overflow : Overflow} {tracked : List Nat} {b : Bench}
    (h : Prepared overflow tracked b) : ∃ l, Tallied overflow tracked b l := by
  induction h with
  | @start kind config controllers counters hcontrollers =>
      obtain ⟨n, rfl⟩ : ∃ n, controllers = n + 1 := ⟨controllers - 1, by omega⟩
      exact ⟨{}, ⟨n, rfl⟩, nofun, nofun, List.nodup_nil, nofun, rfl, fun _ => Nat.zero_lt_succ _⟩
  | declare _ call ih =>
      obtain ⟨l, hl⟩ := ih
      exact ⟨_, hl.declare call⟩
  | track _ hi hnew n hmade ih =>
      obtain ⟨l, hl⟩ := ih
      rw [hl.has.ledger_eq] at hi
      exact ⟨_, hl.track hi hnew (wraps_or_fits_of_track hmade)⟩
  | run _ hi hnone plan ih =>
      obtain ⟨l, hl⟩ := ih
      rw [hl.has.ledger_eq] at hi
      exact hl.run hi hnone plan
  | stub _ id stub ih =>
      obtain ⟨l, hl⟩ := ih
      exact hl.modifyCall id (fun _ => rfl) (fun _ => rfl) fun _ _ _ hown => hown
  | after _ id predecessor ih =>
      obtain ⟨l, hl⟩ := ih
      refine hl.modifyCall id (fun e => ?_) (fun e => ?_) fun e _ _ hown => ?_
      · split <;> rfl
      · split <;> rfl
      · split
        · exact hown
        · exact hown
  | aside _ hcontrollers hcompletion ih =>
      obtain ⟨l, hl⟩ := ih
      exact ⟨l, hl.aside hcontrollers hcompletion⟩

/-! ### Setups that prepare -/

/-- The handler is being prepared, in a release build. -/
def InPreparation (b : Bench) : Prop :=
  ∃ tracked, Prepared .wraps tracked b

/-- Setups may prepare a handler, if their producers do. -/
theorem InPreparation.expect {π : Type} {produce : π → Attempt Bench (Node CallId)}
    {setup : Setup π}
    (hproduce : ∀ p ∈ setup.leaves, ∀ b, InPreparation b → InPreparation (produce p b).state)
    {b : Bench} (hb : InPreparation b) : InPreparation (Handler.expect produce setup b).state := by
  have hsound : (Handler.stage produce).Sound InPreparation fun _ _ _ => True := by
    refine ⟨fun _ _ => trivial, fun _ _ _ _ _ _ _ => trivial, fun _ _ _ _ _ _ => trivial, ?_,
      fun _ _ _ _ _ => trivial⟩
    rintro b t c ⟨tracked, ht⟩ -
    exact ⟨tracked, ht.after c.successor c.predecessor⟩
  exact Handler.always_expect hsound (fun p hp b hb => ⟨hproduce p hp b hb, fun _ _ => trivial⟩) hb

/-- The expectation of that number has no hook yet. -/
def Unhooked (i : Nat) (b : Bench) : Prop :=
  ∃ e, (b.collaborator.ledger 0).calls[i]? = some e ∧ e.hooks = []

/-- It is not tracked yet either. -/
def Untracked (i : Nat) (b : Bench) : Prop :=
  ∃ tracked, Prepared .wraps tracked b ∧ i ∉ tracked ∧ Unhooked i b

section Steps

variable {b : Bench} {i : Nat}

/-- Changes other than of the hooks leave it without. -/
theorem Unhooked.modifyCall {tracked : List Nat} (h : Unhooked i b)
    (hb : Prepared .wraps tracked b)
    {change : Expectation → Expectation} (hhooks : ∀ e, (change e).hooks = e.hooks) :
    Unhooked i (Bench.modifyCall ⟨0, i⟩ change b).state := by
  obtain ⟨l, hl⟩ := hb.tallied
  obtain ⟨e, he, hnone⟩ := h
  rw [hl.has.ledger_eq] at he
  have hledger : (Bench.modifyCall ⟨0, i⟩ change b).state.collaborator.ledger 0
      = l.modify i change := (hl.has.modify (·.modify i change)).ledger_eq
  refine ⟨change e, ?_, (hhooks e).trans hnone⟩
  rw [hledger]
  simp [Ledger.modify, he]

theorem InPreparation.ensures_declare (hb : InPreparation b) (call : Signature) :
    (Bench.declare 0 call).Ensures b InPreparation fun id t =>
      id = ⟨0, (b.collaborator.ledger 0).calls.length⟩ ∧ Untracked id.index t := by
  obtain ⟨tracked, hb⟩ := hb
  obtain ⟨l, hl⟩ := hb.tallied
  refine ⟨⟨tracked, hb.declare call⟩, fun id hid => ?_⟩
  obtain rfl : ⟨0, (b.collaborator.ledger 0).calls.length⟩ = id := Except.ok.inj hid
  have hledger : (Bench.declare 0 call b).state.collaborator.ledger 0 = l.declare call :=
    (hl.has.modify (·.declare call)).ledger_eq
  refine ⟨rfl, tracked, hb.declare call, ?_, { call }, ?_, rfl⟩
  · rw [hl.has.ledger_eq]
    exact fun hmem => Nat.lt_irrefl _ (hl.known _ hmem)
  · rw [hledger, hl.has.ledger_eq]
    simp [Ledger.declare]

theorem Untracked.ensures_setStub (h : Untracked i b) (stub : Returned) :
    (Bench.setStub ⟨0, i⟩ stub).Ensures b InPreparation fun _ t => Untracked i t := by
  obtain ⟨tracked, hb, hnew, hnone⟩ := h
  exact ⟨⟨tracked, hb.stub _ _⟩, fun _ _ =>
    ⟨tracked, hb.stub _ _, hnew, hnone.modifyCall hb fun _ => rfl⟩⟩

theorem Untracked.ensures_track (h : Untracked i b) (n : Nat) :
    (Bench.track ⟨0, i⟩ n).Ensures b InPreparation fun _ t => Unhooked i t := by
  obtain ⟨tracked, hb, hnew, hnone⟩ := h
  have hi : i < (b.collaborator.ledger 0).calls.length := by
    obtain ⟨e, he, -⟩ := hnone
    exact (List.getElem?_eq_some_iff.mp he).1
  have hunhooked : Unhooked i (Bench.setTimes ⟨0, i⟩ n b).state :=
    hnone.modifyCall hb fun _ => rfl
  exact ⟨⟨i :: tracked, hb.track hi hnew n rfl⟩, fun _ _ => hunhooked⟩

theorem Unhooked.ensures_run (h : Unhooked i b) (hb : InPreparation b) (plan : CompletionPlan) :
    (Attempt.forEach (Bench.run ⟨0, i⟩) [.completion 0 plan]).Ensures b InPreparation
      fun _ _ => True := by
  obtain ⟨tracked, hb⟩ := hb
  obtain ⟨e, he, hnone⟩ := h
  have hrun : (Bench.run ⟨0, i⟩ (.completion 0 plan)).Ensures b InPreparation fun _ _ => True :=
    ⟨⟨tracked, hb.run he hnone plan⟩, fun _ _ => trivial⟩
  exact hrun.bind fun _ t ht _ => .pure ht trivial

end Steps

/-- A plan that has its completions expected and its hook attached prepares. -/
theorem InPreparation.produce {b : Bench} (hb : InPreparation b) (call : Signature)
    (stub : Option Returned) (n : Nat) (plan : CompletionPlan) :
    InPreparation ((Producer.declare
      { call, stub, tracked := some n, hooks := [.completion 0 plan] }).produce b).state := by
  have hrest (i : Nat) (t : Bench) (ht : Untracked i t) :
      Attempt.Ensures (do
          Bench.track ⟨0, i⟩ n
          let _ ← Attempt.forEach (Bench.run ⟨0, i⟩) [.completion 0 plan]
          pure (⟨0, i⟩ : CallId)) t InPreparation fun _ _ => True :=
    (ht.ensures_track n).bind fun _ u hu hnone =>
      (hnone.ensures_run hu plan).bind fun _ v hv _ => .pure hv trivial
  have hcarry (t : Bench) (ht : InPreparation t) :
      (CallPlan.carryOut
        { call, stub, tracked := some n, hooks := [.completion 0 plan] }).Ensures t
          InPreparation fun _ _ => True := by
    refine (ht.ensures_declare call).bind ?_
    rintro ⟨_, i⟩ u hu ⟨hid, hnew⟩
    obtain ⟨rfl, -⟩ := CallId.mk.inj hid
    dsimp only
    cases stub with
    | none => exact hrest i u hnew
    | some stub => exact (hnew.ensures_setStub stub).bind fun _ v _ hv => hrest i v hv
  obtain ⟨value, t, events, hget, hcollaborator, hcompletion⟩ :=
    get_apply Producer.sharedMock (fun _ => "") b
  obtain ⟨tracked, hb⟩ := hb
  have ht : InPreparation t := ⟨tracked, hb.aside (congrArg _ hcollaborator) hcompletion⟩
  have hall : Attempt.Ensures
      (CallPlan.carryOut { call, stub, tracked := some n, hooks := [.completion 0 plan] } >>=
        fun id => (return .single id : Attempt Bench (Node CallId))) t InPreparation
      fun _ _ => True :=
    (hcarry t ht).bind fun _ _ hu _ => .pure hu trivial
  rw [Producer.produce, Attempt.bind_apply, hget]
  exact hall.1

/-! ### Handlers that are ready -/

/-- All expectations are tracked, and each has its hook. -/
def Ready (overflow : Overflow) (b : Bench) : Prop :=
  ∃ tracked, Prepared overflow tracked b ∧
    (∀ i < (b.collaborator.ledger 0).calls.length, i ∈ tracked) ∧
    ∀ e ∈ (b.collaborator.ledger 0).calls, e.hooks ≠ []

namespace Ready

variable {overflow : Overflow} {b : Bench}

theorem signals (h : b.Ready overflow) :
    ∀ e ∈ (b.collaborator.ledger 0).calls, e.Signals := by
  obtain ⟨tracked, hprepared, -, hhooks⟩ := h
  obtain ⟨l, hl⟩ := hprepared.tallied
  intro e he
  have hown := hhooks e he
  rw [hl.has.ledger_eq] at he
  exact (hl.hooked e he).resolve_left hown

end Ready

end Bench

end CallOrder
