/-
Hooks get as many arguments as they take.

Whether a hook takes the arguments of a call is asked once, when it is attached, and of the
expected call.  It is run much later with the arguments of an actual one.  That they are as
many rests on the key: an expectation answers only a call that is equal to its own
(`Signature.eq_of_sameKey`).  So the hooks that an answered call takes with it fit that call
(`Descent.Fitted.step`), and whatever is attached, declared or called meanwhile by others does
not touch them.

A completion hook gives up over its arguments exactly if it does not take them
(`CompletionHook.misfit_invoke_iff`), so no call ever does, however deep inside it the hook is
run and whoever shares the handler (`hooks_take_their_arguments`).
-/
import CallOrder.Proofs.Binding
import CallOrder.Proofs.Company
import CallOrder.Proofs.Reply

namespace CallOrder

/-- What holds of every item, and is kept by a change of the one at an index, holds after the
change. -/
theorem forall_mem_list_modify {α : Type} {P : α → Prop} {items : List α} {i : Nat} {change : α → α}
    (h : ∀ a ∈ items, P a) (hchange : ∀ a, items[i]? = some a → P (change a)) :
    ∀ a ∈ items.modify i change, P a := by
  intro a ha
  obtain ⟨j, hj⟩ := List.mem_iff_getElem?.mp ha
  rw [List.getElem?_modify, Option.map_eq_map, Option.map_eq_some_iff] at hj
  obtain ⟨b, hb, rfl⟩ := hj
  split
  · rename_i hij
    exact hchange b (hij ▸ hb)
  · exact h b (List.mem_of_getElem? hb)

/-- A hook was run with arguments that it does not take. -/
def Misfit {α : Type} (result : Except Failure α) : Prop :=
  ∃ arity given, result = .error (.panic (.arityMismatch arity given))

theorem not_misfit_ok {α : Type} (a : α) : ¬ Misfit (.ok a) :=
  fun ⟨_, _, h⟩ => nomatch h

/-- What the reporter makes of a complaint is no misfit. -/
theorem Failure.ByReporter.not_misfit {α : Type} {f : Failure} (h : f.ByReporter) :
    ¬ Misfit (.error f : Except Failure α) := by
  rintro ⟨arity, given, heq⟩
  obtain ⟨c, rfl | rfl⟩ := h <;> cases heq

/-- All hooks take the arguments of the call. -/
def Hook.Fit (hooks : List Hook) (call : Signature) : Prop :=
  ∀ hook ∈ hooks, hook.accepts call.args.length = true

/-- So do the hooks of every expectation, whichever controller it is of. -/
def Bench.Fitted (b : Bench) : Prop :=
  ∀ l ∈ b.ledgers, ∀ e ∈ l.calls, Hook.Fit e.hooks e.call

/-! ### Running a hook -/

/-- **A completion hook fails over its arguments exactly if it does not take so many.** -/
theorem CompletionHook.misfit_invoke_iff (hook : CompletionHook) (given : Nat) (c : Completion) :
    Misfit (hook.invoke given c).result ↔ hook.arity.accepts given = false := by
  unfold invoke
  cases haccepts : hook.arity.accepts given with
  | false => exact iff_of_true ⟨_, _, rfl⟩ rfl
  | true =>
      refine iff_of_false ?_ nofun
      rintro ⟨arity, count, heq⟩
      rw [if_pos rfl, Attempt.bind_apply, Completion.signal] at heq
      cases hc : c.outstanding with
      | zero =>
          rw [hc] at heq
          cases heq
      | succ n =>
          rw [hc] at heq
          cases hreason : hook.reason <;> rw [hreason] at heq <;> cases heq

namespace Bench

variable {b : Bench}

theorem result_onCounter {α : Type} (number : Nat) (x : Attempt Completion α) (b : Bench) :
    (onCounter number x b).result = (x (b.completionOf number)).result := by
  cases number <;> rfl

/-- A hook that takes its arguments and makes no call does not fail over them. -/
theorem not_misfit_fire {args : List Value} {hook : Hook} (hhook : hook.reenters = false)
    (haccepts : hook.accepts args.length = true) : ¬ Misfit (hook.fire args b).result := by
  cases hook with
  | completion counter hook =>
      rw [Hook.fire, result_onCounter, CompletionHook.misfit_invoke_iff]
      exact fun hrefuses => Bool.noConfusion (haccepts.symm.trans hrefuses)
  | note tag => exact not_misfit_ok _
  | giveUp reason =>
      rintro ⟨arity, given, heq⟩
      cases heq
  | reenter controller request => cases hhook

theorem not_misfit_fatal {α : Type} (c : Complaint) (b : Bench) :
    ¬ Misfit (Handler.fatal c b : Outcome Bench α).result := by
  obtain ⟨f, hf⟩ := Handler.fatal_fails (α := α) c b
  rw [hf]
  exact (Handler.byReporter_of_fatal hf).not_misfit

theorem not_misfit_answer (request : Request) (stub : Option Returned) (b : Bench) :
    ¬ Misfit (answer request stub b).result := by
  unfold answer
  split
  · exact not_misfit_ok _
  · split
    · exact not_misfit_ok _
    · exact not_misfit_fatal _ b

/-- A hook that makes no call leaves the expectations alone. -/
theorem ledgers_fire {args : List Value} {hook : Hook} (hhook : hook.reenters = false)
    (b : Bench) : (hook.fire args b).state.ledgers = b.ledgers := by
  have hsame : Attempt.Accounted (fun _ => False) ledgers (hook.fire args) :=
    accounted_fire fun controller request heq => by
      rw [heq] at hhook
      cases hhook
  exact (hsame b).eq

/-! ### Attaching a hook -/

section Attach

variable {id : CallId} {hook : Hook} {plan : HookPlan} {e : Expectation}

/-- A hook can be attached to an expectation exactly if it takes the arguments. -/
theorem run_ok_iff (he : b.collaborator.expectation? id = some e) (hplan : plan.hook = .ok hook) :
    (run id plan b).result = .ok () ↔ hook.accepts e.call.args.length = true := by
  have hrun : run id plan b = attach id hook b := by
    rw [run, hplan]
    rfl
  rw [hrun]
  cases haccepts : hook.accepts e.call.args.length with
  | true => exact iff_of_true (by rw [attach_of_accepts he haccepts]; rfl) rfl
  | false =>
      obtain ⟨f, hf⟩ := Handler.fatal_fails (α := Unit) (.hookRefused e.call) b
      refine iff_of_false ?_ Bool.false_ne_true
      rw [attach_of_refuses he haccepts, hf]
      intro hok
      cases hok

/-- What cannot be attached changes no expectation, and nothing else of the collaborator. -/
theorem collaborator_run_of_error {f : Failure} (h : (run id plan b).result = .error f) :
    (run id plan b).state.collaborator = b.collaborator := by
  rw [run] at h ⊢
  cases hplan : plan.hook with
  | error e => rfl
  | ok hook =>
      rw [hplan] at h
      show (attach id hook b).state.collaborator = b.collaborator
      have hattach : (attach id hook b).result = .error f := h
      cases he : b.collaborator.expectation? id with
      | none => rw [attach_of_unknown he]
      | some e =>
          cases haccepts : hook.accepts e.call.args.length with
          | false =>
              rw [attach_of_refuses he haccepts]
              rfl
          | true =>
              rw [attach_of_accepts he haccepts] at hattach
              cases hattach

end Attach

/-! ### What is attached stays in place -/

namespace Fitted

theorem congr {t : Bench} (h : b.Fitted) (heq : t.ledgers = b.ledgers) : t.Fitted := by
  rw [Fitted, heq]
  exact h

theorem ledger (h : b.Fitted) (controller : Nat) :
    ∀ e ∈ (b.collaborator.ledger controller).calls, Hook.Fit e.hooks e.call := by
  rw [Switchboard.ledger, List.getD_eq_getElem?_getD]
  cases hl : b.collaborator.controllers[controller]? with
  | none => exact List.forall_mem_nil _
  | some l => exact h l (List.mem_of_getElem? hl)

/-- A change of one controller that keeps its hooks fitting keeps all of them fitting. -/
theorem modify (h : b.Fitted) {controller : Nat} {change : Ledger → Ledger}
    (hchange : (∀ e ∈ (b.collaborator.ledger controller).calls, Hook.Fit e.hooks e.call) →
      ∀ e ∈ (change (b.collaborator.ledger controller)).calls, Hook.Fit e.hooks e.call) :
    Fitted (b.modify (·.modify controller change)) := by
  refine forall_mem_list_modify h fun l hl => ?_
  have hledger : b.collaborator.ledger controller = l := by
    rw [Switchboard.ledger, List.getD_eq_getElem?_getD]
    exact congrArg (Option.getD · {}) hl
  exact hledger ▸ hchange (h.ledger controller)

/-- A change of one expectation, too. -/
theorem modifyCall (h : b.Fitted) {id : CallId} {change : Expectation → Expectation}
    (hchange : ∀ e, b.collaborator.expectation? id = some e → Hook.Fit e.hooks e.call →
      Hook.Fit (change e).hooks (change e).call) :
    Fitted (Bench.modifyCall id change b).state :=
  h.modify fun hfit => forall_mem_list_modify hfit fun e he =>
    hchange e he (hfit e (List.mem_of_getElem? he))

theorem order (h : b.Fitted) (c : Constraint CallId) :
    Fitted (b.modify (Collaborator.order c)) :=
  h.modify fun hfit => Ledger.forall_mem_after hfit fun _ _ he => he

/-- A new expectation has no hooks yet. -/
theorem declare (h : b.Fitted) (controller : Nat) (call : Signature) :
    Fitted (Bench.declare controller call b).state := by
  have hdeclared : Fitted (b.modify (·.modify controller (·.declare call))) := by
    refine h.modify fun hfit => List.forall_mem_append.mpr ⟨hfit, ?_⟩
    exact List.forall_mem_singleton.mpr (List.forall_mem_nil _)
  exact hdeclared.congr rfl

/-- A hook is attached only where it takes the arguments. -/
theorem attach (h : b.Fitted) (id : CallId) (hook : Hook) :
    Fitted (Bench.attach id hook b).state := by
  cases he : b.collaborator.expectation? id with
  | none =>
      rw [attach_of_unknown he]
      exact h
  | some e =>
      cases haccepts : hook.accepts e.call.args.length with
      | false =>
          rw [attach_of_refuses he haccepts]
          exact h.congr rfl
      | true =>
          rw [attach_of_accepts he haccepts]
          refine h.modifyCall fun f hf hfit => List.forall_mem_append.mpr ⟨hfit, ?_⟩
          obtain rfl : e = f := Option.some.inj (he.symm.trans hf)
          exact List.forall_mem_singleton.mpr haccepts

/-- Answering a call changes no hooks. -/
theorem invoke (h : b.Fitted) (controller index : Nat) :
    Fitted (b.modify (·.modify controller (·.invoke index))) := by
  refine h.modify fun hfit e he => ?_
  obtain ⟨f, hf, hcall, hhooks, -⟩ := Ledger.mem_invoke he
  rw [hcall, hhooks]
  exact hfit f hf

/-- **Nothing that is done to a handler in one piece attaches a hook where it does not fit.** -/
theorem effect (h : b.Fitted) (act : Act) : Fitted (act.effect b).1 := by
  cases act with
  | declare controller call => exact h.declare controller call
  | setTimes id n => exact h.modifyCall fun _ _ hfit => hfit
  | setStub id stub => exact h.modifyCall fun _ _ hfit => hfit
  | attach id hook => exact h.attach id hook
  | order c => exact h.order c
  | register c => exact h.order c
  | expect counter n overflow => exact h.congr (by cases counter <;> rfl)
  | signal counter => exact h.congr (by cases counter <;> rfl)
  | fire hook given => exact h.congr rfl
  | get mock make =>
      have hsame : Attempt.Accounted (fun _ => False) ledgers (Handler.get mock make) :=
        accounted_get mock make
      exact h.congr (hsame b).eq
  | complain c => exact h.congr rfl
  | enter label => exact h.congr rfl
  | leave => exact h.congr rfl

end Fitted

theorem fitted_start (kind : ReporterKind) (config : Config) (controllers counters : Nat) :
    (start kind config controllers counters).Fitted := by
  intro l hl e he
  obtain rfl := List.eq_of_mem_replicate hl
  exact absurd he List.not_mem_nil

end Bench

/-! ### Calls -/

namespace Descent

variable {x y : Descent}

/-- So far every hook fits its call, and none was run that does not. -/
structure Fitted (x : Descent) : Prop where
  bench : x.bench.Fitted
  /-- The hooks that are still to run take the arguments of the call that was answered. -/
  inFlight : ∀ c ∈ x.inFlight, Hook.Fit c.hooks c.request.call
  result : ∀ result, x.focus = .came result → ¬ Misfit result

theorem Fitted.onward {c : InFlight} {callers : List InFlight} {events : List Event}
    {o : Outcome Bench Unit} (hbench : o.state.Fitted)
    (hinFlight : ∀ d ∈ c :: callers, Hook.Fit d.hooks d.request.call)
    (hresult : ¬ Misfit o.result) : (onward c callers events o).Fitted := by
  rw [Descent.onward]
  obtain ⟨f | u, t, more⟩ := o
  · refine ⟨hbench, (List.forall_mem_cons.mp hinFlight).2, fun _ heq => ?_⟩
    cases heq
    rintro ⟨arity, given, heq⟩
    cases heq
    exact hresult ⟨arity, given, rfl⟩
  · exact ⟨hbench, hinFlight, fun _ heq => by cases heq⟩

theorem Fitted.step (h : x.Fitted) (hstep : x.Step y) : y.Fitted := by
  cases hstep.way with
  | dangling judge =>
      exact ⟨h.bench, h.inFlight, fun _ heq => by cases heq; exact fun ⟨_, _, heq⟩ => nomatch heq⟩
  | refused judge =>
      exact ⟨h.bench, h.inFlight, fun _ heq => by cases heq; exact Bench.not_misfit_fatal _ _⟩
  | accepted judge =>
      refine ⟨h.bench.invoke _ _, List.forall_mem_cons.mpr ⟨?_, h.inFlight⟩, nofun⟩
      -- The call is the expected one, and so has as many arguments.
      obtain ⟨he, hkey⟩ := Ledger.sameKey_of_judge judge
      rw [← Signature.eq_of_sameKey hkey]
      exact h.bench.ledger _ _ he
  | answered =>
      refine ⟨h.bench.congr ?_, (List.forall_mem_cons.mp h.inFlight).2, fun _ heq => ?_⟩
      · exact congrArg Switchboard.controllers (Bench.collaborator_answer ..)
      · cases heq
        exact Bench.not_misfit_answer _ _ _
  | fired alone =>
      obtain ⟨hhooks, hcallers⟩ := List.forall_mem_cons.mp h.inFlight
      obtain ⟨haccepts, hrest⟩ := List.forall_mem_cons.mp hhooks
      exact .onward (h.bench.congr (Bench.ledgers_fire alone _))
        (List.forall_mem_cons.mpr ⟨hrest, hcallers⟩) (Bench.not_misfit_fire alone haccepts)
  | reentered =>
      obtain ⟨hhooks, hcallers⟩ := List.forall_mem_cons.mp h.inFlight
      exact ⟨h.bench, List.forall_mem_cons.mpr ⟨(List.forall_mem_cons.mp hhooks).2, hcallers⟩,
        nofun⟩
  | noted => exact ⟨h.bench.congr rfl, h.inFlight, nofun⟩

theorem Fitted.steps (h : x.Fitted) (hsteps : x.Steps y) : y.Fitted := by
  induction hsteps with
  | refl => exact h
  | tail _ hstep ih => exact ih.step hstep

end Descent

/-- Where all hooks fit, no call fails over the arguments of a hook, and after it all hooks
fit. -/
theorem Bench.Fitted.call {b : Bench} (h : b.Fitted) (controller : Nat) (request : Request) :
    (Bench.call controller request b).state.Fitted ∧
      ¬ Misfit (Bench.call controller request b).result := by
  have hfirst : (Descent.calling b [] controller request []).Fitted :=
    ⟨h, List.forall_mem_nil _, nofun⟩
  have hlast := hfirst.steps
    (Descent.arrives (b.remaining + 1) b [] [] controller request (Nat.lt_succ_self _))
  exact ⟨hlast.bench, hlast.result _ rfl⟩

/-! ### Everything at a time -/

namespace Company

variable {x y : Company}

/-- So far every hook fits its call, and no thread has run one that does not. -/
structure Fitted (x : Company) : Prop where
  bench : x.bench.Fitted
  inFlight : ∀ inFlight focus, .calling inFlight focus ∈ x.threads →
    ∀ c ∈ inFlight, Hook.Fit c.hooks c.request.call
  result : ∀ inFlight result, .calling inFlight (.came result) ∈ x.threads → ¬ Misfit result

theorem Fitted.start (kind : ReporterKind) (config : Config) (controllers counters n : Nat) :
    (start kind config controllers counters n).Fitted := by
  refine ⟨Bench.fitted_start _ _ _ _, fun inFlight focus hmem => ?_,
    fun inFlight result hmem => ?_⟩
  · cases List.eq_of_mem_replicate hmem
  · cases List.eq_of_mem_replicate hmem

theorem Fitted.step (h : x.Fitted) (hstep : Step x y) : y.Fitted := by
  cases hstep with
  | acted act idle => exact ⟨h.bench.effect act, h.inFlight, h.result⟩
  | called controller request idle =>
      refine ⟨h.bench, fun inFlight focus hmem => ?_, fun inFlight result hmem => ?_⟩
      · rcases List.mem_or_eq_of_mem_set hmem with hmem | heq
        · exact h.inFlight _ _ hmem
        · cases heq
          exact List.forall_mem_nil _
      · exact h.result _ _ ((List.mem_or_eq_of_mem_set hmem).resolve_right nofun)
  | @went i inFlight focus z turn next =>
      have hturn := List.mem_of_getElem? turn
      have hx : Descent.Fitted ⟨x.bench, inFlight, focus, x.log⟩ := by
        refine ⟨h.bench, h.inFlight _ _ hturn, fun result heq => ?_⟩
        obtain rfl : focus = .came result := heq
        exact h.result _ _ hturn
      have hz := hx.step next
      refine ⟨hz.bench, fun inFlight focus hmem => ?_, fun inFlight result hmem => ?_⟩
      · rcases List.mem_or_eq_of_mem_set hmem with hmem | heq
        · exact h.inFlight _ _ hmem
        · cases heq
          exact hz.inFlight
      · rcases List.mem_or_eq_of_mem_set hmem with hmem | heq
        · exact h.result _ _ hmem
        · injection heq with _ hfocus
          exact hz.result _ hfocus.symm
  | returned turn =>
      exact ⟨h.bench,
        fun _ _ hmem => h.inFlight _ _ ((List.mem_or_eq_of_mem_set hmem).resolve_right nofun),
        fun _ _ hmem => h.result _ _ ((List.mem_or_eq_of_mem_set hmem).resolve_right nofun)⟩
  | verified verification =>
      exact ⟨h.bench.congr (congrArg Switchboard.controllers verification.collaborator_eq),
        fun _ _ hmem => h.inFlight _ _ (verification.mem_of_calling hmem),
        fun _ _ hmem => h.result _ _ (verification.mem_of_calling hmem)⟩

theorem Fitted.steps (h : x.Fitted) (hsteps : Steps x y) : y.Fitted :=
  hsteps.invariant h Fitted.step

/-- **A hook gets as many arguments as it takes.**

Whatever any number of threads do with a handler: a hook that is attached takes the arguments of
its expectation, and one that does not is refused and leaves all expectations as they are.  So
whenever a call, within others or not, is about to run a completion hook, that hook takes the
arguments of the call, and no call comes to the panic of a hook that does not. -/
theorem hooks_take_their_arguments {kind : ReporterKind} {config : Config}
    {controllers counters n : Nat} (h : Steps (start kind config controllers counters n) x) :
    (∀ l ∈ x.bench.collaborator.controllers, ∀ e ∈ l.calls, ∀ hook ∈ e.hooks,
      hook.accepts e.call.args.length = true) ∧
    (∀ id plan f, (Bench.run id plan x.bench).result = .error f →
      (Bench.run id plan x.bench).state.collaborator = x.bench.collaborator) ∧
    (∀ id plan e hook, x.bench.collaborator.expectation? id = some e → plan.hook = .ok hook →
      ((Bench.run id plan x.bench).result = .ok () ↔ hook.accepts e.call.args.length = true)) ∧
    (∀ (i : Nat) request counter (hook : CompletionHook) rest stub callers,
      x.threads[i]? =
        some (.calling (⟨request, .completion counter hook :: rest, stub⟩ :: callers) .working) →
      hook.arity.accepts request.call.args.length = true) ∧
    (∀ (i : Nat) inFlight arity given, x.threads[i]? ≠
      some (.calling inFlight (.came (.error (.panic (.arityMismatch arity given)))))) ∧
    ∀ controller request arity given, (Bench.call controller request x.bench).result ≠
      .error (.panic (.arityMismatch arity given)) := by
  have hfitted := (Fitted.start kind config controllers counters n).steps h
  refine ⟨hfitted.bench, fun _ _ _ => Bench.collaborator_run_of_error,
    fun _ _ _ _ => Bench.run_ok_iff, ?_, ?_, ?_⟩
  · intro i request counter hook rest stub callers turn
    have hcalls := hfitted.inFlight _ _ (List.mem_of_getElem? turn)
    have hhooks := hcalls _ (List.mem_cons_self ..)
    exact hhooks _ (List.mem_cons_self ..)
  · intro i inFlight arity given turn
    exact hfitted.result _ _ (List.mem_of_getElem? turn) ⟨arity, given, rfl⟩
  · intro controller request arity given heq
    exact (hfitted.bench.call controller request).2 ⟨arity, given, heq⟩

/-- A knock that is told how often and how hard. -/
def loudKnock : Request := ⟨⟨"door", "knock", [.number 2, .text "loudly"]⟩, .unit⟩

/-- A hook that takes one argument at least. -/
def atLeastOne : CompletionHook := { arity := .variadic 2 }

/-- A knock with two arguments is about to run a hook that takes one at least.  A hook that takes
exactly one could not be attached. -/
theorem loud_knock_fits : ∃ x, Steps (start .recording {} 1 0 1) x ∧
    x.threads[0]? = some (.calling [⟨loudKnock, [.completion 0 atLeastOne], none⟩] .working) ∧
    atLeastOne.arity.accepts loudKnock.call.args.length = true ∧
    (Bench.run ⟨0, 0⟩ (.completion 0 { parameters := 1 }) x.bench).state.collaborator
      = x.bench.collaborator ∧
    (Bench.call 0 loudKnock x.bench).result ≠ .error (.panic (.arityMismatch (.variadic 2) 2)) := by
  have hdeclared : Steps (start .recording {} 1 0 1) _ :=
    .single (.acted (i := 0) (.declare 0 loudKnock.call) rfl)
  have hattached := hdeclared.tail (.acted (i := 0) (.attach ⟨0, 0⟩ (.completion 0 atLeastOne)) rfl)
  have hcalled := hattached.tail (.called (i := 0) 0 loudKnock rfl)
  have hsteps := hcalled.tail (.went (i := 0) rfl rfl)
  obtain ⟨-, hrefused, -, hfits, -, hcall⟩ := hooks_take_their_arguments hsteps
  exact ⟨_, hsteps, rfl, hfits 0 loudKnock 0 atLeastOne [] none [] rfl,
    hrefused ⟨0, 0⟩ (.completion 0 { parameters := 1 }) _ rfl, hcall 0 loudKnock _ _⟩

end Company

end CallOrder
