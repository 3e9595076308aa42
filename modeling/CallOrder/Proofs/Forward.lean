/-
Calls made in the order in which they were declared.

However setups are put together, and wherever their evaluation stops, a relation is only
ever registered between an expectation and one that was declared after it: trees have
their expectations in the order of declaration, ranges leave some of them out, and a walk
goes from left to right.  So every prerequisite has a smaller number than what it is a
prerequisite of (`Ledger.Forward`).

Then no call has to wait.  Let each expectation be called in its turn, as often as it is
to be.  When it is its turn, all expectations before it were called as often as they are
to be.  So its prerequisites are satisfied, and none of those before it takes the call
away, even if it has the same key; and it is not closed, for what closes an expectation is
a call of a later one (`Forward.next`).  So each call is answered by the expectation whose
turn it is, and in the end nothing is missing (`declared_order_answered`).
-/
import CallOrder.Proofs.Evaluation
import CallOrder.Proofs.Log

namespace CallOrder

open Signature

/-! ### Taking turns -/

/-- The places in a list of numbers, counted from `start`, each as often as its number says. -/
def placesFrom : Nat → List Nat → List Nat
  | _, [] => []
  | start, n :: rest => List.replicate n start ++ placesFrom (start + 1) rest

/-- The first place is the first whose number is not zero, and taking one from that number leaves
the other places. -/
theorem exists_of_placesFrom_eq_cons {i : Nat} {rest : List Nat} :
    ∀ {counts : List Nat} {start : Nat}, placesFrom start counts = i :: rest →
      ∃ k n, i = start + k ∧ counts[k]? = some (n + 1) ∧ (∀ j < k, counts[j]? = some 0) ∧
        placesFrom start (counts.modify k (· - 1)) = rest
  | [], _, h => by simp [placesFrom] at h
  | 0 :: counts, start, h => by
      have hlater : placesFrom (start + 1) counts = i :: rest := by simpa [placesFrom] using h
      obtain ⟨k, n, hi, hk, hbefore, hrest⟩ := exists_of_placesFrom_eq_cons hlater
      refine ⟨k + 1, n, by omega, by simpa using hk, ?_, by simpa [placesFrom] using hrest⟩
      intro j hj
      cases j with
      | zero => rfl
      | succ j => simpa using hbefore j (by omega)
  | (m + 1) :: counts, start, h => by
      simp only [placesFrom, List.replicate_succ, List.cons_append, List.cons.injEq] at h
      obtain ⟨rfl, rfl⟩ := h
      exact ⟨0, m, rfl, rfl, by simp, by simp [placesFrom]⟩

theorem eq_zero_of_placesFrom_eq_nil {n : Nat} :
    ∀ {counts : List Nat} {start : Nat}, placesFrom start counts = [] → n ∈ counts → n = 0
  | [], _, _, hn => absurd hn List.not_mem_nil
  | m :: counts, start, h, hn => by
      obtain ⟨hm, hrest⟩ := List.append_eq_nil_iff.mp h
      rcases List.mem_cons.mp hn with rfl | hn
      · simpa using hm
      · exact eq_zero_of_placesFrom_eq_nil hrest hn

namespace Ledger

/-- The numbers of the expectations in the order of declaration, each as often as it is to be
called. -/
def inOrder (l : Ledger) : List Nat :=
  placesFrom 0 (l.calls.map (·.times))

/-- The same, each as often as it may still be called. -/
def due (l : Ledger) : List Nat :=
  placesFrom 0 (l.calls.map (·.remaining))

/-- The request makes the call of the expectation of that number, and asks for the type of its
stub, if it has one. -/
def Asks (l : Ledger) (i : Nat) (request : Request) : Prop :=
  ∃ e, l.calls[i]? = some e ∧ request.call = e.call ∧
    ∀ stub, e.stub = some stub → stub.type = request.type

/-- Every expectation comes after earlier ones only. -/
structure Forward (l : Ledger) : Prop where
  /-- Each call has its own key. -/
  own : ∀ e ∈ l.calls, e.call.sameKey e.call = true
  hookless : l.Hookless
  earlier : ∀ (i : Nat) (e : Expectation), l.calls[i]? = some e → ∀ p ∈ e.prerequisites, p < i
  /-- What is still to be called may be. -/
  available : ∀ e ∈ l.calls, e.satisfied = false → e.closed = false

variable {l : Ledger} {i : Nat} {e : Expectation} {rest : List Nat}

theorem Forward.grounded (h : l.Forward) : l.Grounded := by
  intro e he p hp
  obtain ⟨i, hi⟩ := List.mem_iff_getElem?.mp he
  exact Nat.lt_trans (h.earlier i e hi p hp) (List.getElem?_eq_some_iff.mp hi).1

theorem satisfied_iff_remaining : e.satisfied = true ↔ e.remaining = 0 := by
  simp only [Expectation.satisfied, Expectation.remaining, decide_eq_true_eq]
  omega

/-- Whose turn it is may be called, and all before it are done. -/
theorem exists_of_due_eq_cons (h : l.due = i :: rest) :
    ∃ e, l.calls[i]? = some e ∧ e.satisfied = false ∧
      ∀ j < i, ∀ f, l.calls[j]? = some f → f.satisfied = true := by
  obtain ⟨k, n, hik, hk, hbefore, -⟩ := exists_of_placesFrom_eq_cons h
  rw [Nat.zero_add] at hik
  subst hik
  rw [List.getElem?_map, Option.map_eq_some_iff] at hk
  obtain ⟨e, he, hremaining⟩ := hk
  refine ⟨e, he, ?_, ?_⟩
  · rw [← Bool.not_eq_true, satisfied_iff_remaining, hremaining]
    exact Nat.succ_ne_zero n
  · intro j hj f hf
    have hzero := hbefore j hj
    rw [List.getElem?_map, hf] at hzero
    exact satisfied_iff_remaining.mpr (Option.some.inj hzero)

/-- Answering takes one turn. -/
theorem due_invoke (h : l.due = i :: rest) : (l.invoke i).due = rest := by
  obtain ⟨k, n, hik, hk, -, hrest⟩ := exists_of_placesFrom_eq_cons h
  rw [Nat.zero_add] at hik
  subst hik
  rw [← hrest, due]
  congr 1
  rw [List.getElem?_map, Option.map_eq_some_iff] at hk
  obtain ⟨e, he, -⟩ := hk
  refine List.ext_getElem? fun j => ?_
  rw [List.getElem?_map, getElem?_invoke he, List.getElem?_modify, List.getElem?_map,
    Option.map_map]
  cases l.calls[j]? with
  | none => rfl
  | some f => by_cases hij : i = j <;> simp [hij, Expectation.remaining, Nat.sub_sub]

namespace Forward

/-- **The call of whose turn it is is answered by it**, and then it is the next one's turn. -/
theorem next (h : l.Forward) (hdue : l.due = i :: rest) :
    ∃ e, l.calls[i]? = some e ∧ l.judge e.call = .accepted i e ∧ (l.invoke i).Forward ∧
      (l.invoke i).due = rest := by
  obtain ⟨e, hi, hopen, hdone⟩ := exists_of_due_eq_cons hdue
  have he : e ∈ l.calls := List.mem_of_getElem? hi
  refine ⟨e, hi, ?_, ?_, due_invoke hdue⟩
  · refine (judge_eq_accepted_iff h.grounded).mpr ⟨hi, ?_, ?_⟩
    · refine examine_eq_admitted_iff.mpr ⟨h.own e he, h.available e he hopen, hopen, ?_⟩
      intro p hp
      have hlt := h.earlier i e hi p hp
      have hq := List.getElem?_eq_getElem (h.grounded e he p hp)
      exact ⟨_, hq, hdone p hlt _ hq⟩
    · intro j hj f hf hadmitted
      have hsatisfied := hdone j hj f hf
      rw [not_satisfied_of_admitted hadmitted] at hsatisfied
      exact Bool.noConfusion hsatisfied
  · refine ⟨?_, h.hookless.invoke i, ?_, ?_⟩
    · intro f hf
      obtain ⟨g, hg, hcall, -⟩ := mem_invoke hf
      rw [hcall]
      exact h.own g hg
    · intro j f hf
      rw [getElem?_invoke hi, Option.map_eq_some_iff] at hf
      obtain ⟨g, hg, rfl⟩ := hf
      exact h.earlier j g hg
    · intro f hf hdue'
      obtain ⟨j, hj⟩ := List.mem_iff_getElem?.mp hf
      rw [getElem?_invoke hi, Option.map_eq_some_iff] at hj
      obtain ⟨g, hg, rfl⟩ := hj
      have hopen' : g.satisfied = false := by
        simp only [Expectation.satisfied, decide_eq_false_iff_not] at hdue' ⊢
        omega
      -- What is closed now comes before the expectation that answered, and is done.
      have hnot : j ∉ e.prerequisites := by
        intro hmem
        rw [hdone j (h.earlier i e hi j hmem) g hg] at hopen'
        exact Bool.noConfusion hopen'
      simp [h.available g (List.mem_of_getElem? hg) hopen', hnot]

end Forward

/-- When no turn is left, nothing is missing. -/
theorem missing_eq_nil_of_due (h : l.due = []) : l.missing = [] := by
  have hdone : ∀ e ∈ l.calls, e.satisfied = true := fun e he =>
    satisfied_iff_remaining.mpr (eq_zero_of_placesFrom_eq_nil h (List.mem_map_of_mem he))
  have hnone : l.calls.filter (!·.satisfied) = [] :=
    List.filter_eq_nil_iff.mpr fun e he => by simp [hdone e he]
  rw [missing, hnone]
  rfl

/-- Answering calls changes neither calls nor stubs. -/
theorem Asks.invoke {j : Nat} {request : Request} (h : l.Asks j request)
    (hi : l.calls[i]? = some e) : (l.invoke i).Asks j request := by
  obtain ⟨f, hf, hcall, hstub⟩ := h
  have hget := getElem?_invoke hi j
  rw [hf, Option.map_some] at hget
  exact ⟨_, hget, hcall, hstub⟩

end Ledger

/-- Where the first attempt succeeds and the others do, all of them do. -/
theorem Attempt.forEach_cons_of_ok {σ ι α : Type} {act : ι → Attempt σ α} {i : ι} {rest : List ι}
    {s t u : σ} {a : α} {values : List α} {events later : List Event}
    (h : act i s = ⟨.ok a, t, events⟩) (hrest : forEach act rest t = ⟨.ok values, u, later⟩) :
    forEach act (i :: rest) s = ⟨.ok (a :: values), u, events ++ later⟩ := by
  simp only [forEach, bind_apply, h, hrest, Outcome.after, pure_apply, List.append_nil]

namespace Bench

/-- Requests for the first turns that are left are answered by whose turn it is, one by one. -/
theorem forEach_call_of_due {b : Bench} {numbers rest : List Nat} {requests : List Request}
    (hforward : (b.collaborator.ledger 0).Forward)
    (hdue : (b.collaborator.ledger 0).due = numbers ++ rest)
    (hasks : List.Forall₂ (b.collaborator.ledger 0).Asks numbers requests) :
    ∃ values t events, Attempt.forEach (call 0) requests b = ⟨.ok values, t, events⟩ ∧
      events.filterMap Event.answerer? = numbers ∧ (t.collaborator.ledger 0).due = rest := by
  induction numbers generalizing b requests with
  | nil =>
      cases hasks
      exact ⟨[], b, [], rfl, rfl, hdue⟩
  | cons i numbers ih =>
      cases hasks with
      | @cons _ r _ others hasks hothers =>
      obtain ⟨e, hi, hjudge, hforward', hdue'⟩ := hforward.next hdue
      obtain ⟨e', hi', hcall, hstub⟩ := hasks
      obtain rfl : e = e' := Option.some.inj (hi.symm.trans hi')
      rw [← hcall] at hjudge
      have hone := call_of_accepted hjudge (hforward.hookless e (List.mem_of_getElem? hi)) hstub
      have hledger := ledger_counted hjudge
      rw [← hledger] at hforward' hdue'
      obtain ⟨values, t, events, hrun, hnumbers, hrest⟩ :=
        ih hforward' hdue' (by
          rw [hledger]
          exact hothers.imp fun _ _ h => h.invoke hi)
      refine ⟨_, t, _, Attempt.forEach_cons_of_ok hone hrun, ?_, hrest⟩
      simp [Event.answerer?, hnumbers]

end Bench

/-! ### Expectations that setups declare -/

/-- An expectation as it is declared: nothing came of it yet, it comes after nothing, and its call
has its own key and no side effect. -/
structure Expectation.Fresh (e : Expectation) : Prop where
  own : e.call.sameKey e.call = true
  uncalled : e.invoked = 0
  unclosed : e.closed = false
  first : e.prerequisites = []
  hookless : e.hooks = []

namespace Ledger

/-- Expectations of which none was called, each of which comes after earlier ones only. -/
structure Laid (l : Ledger) : Prop where
  forward : l.Forward
  uncalled : ∀ e ∈ l.calls, e.invoked = 0

variable {l : Ledger}

/-- Before the first call, each expectation is due as often as it is to be called. -/
theorem Laid.due_eq (h : l.Laid) : l.due = l.inOrder := by
  have hcounts : l.calls.map Expectation.remaining = l.calls.map Expectation.times :=
    List.map_congr_left fun e he => by rw [Expectation.remaining, h.uncalled e he, Nat.sub_zero]
  rw [due, inOrder, hcounts]

theorem Laid.nothing : ({} : Ledger).Laid where
  forward := ⟨nofun, nofun, nofun, nofun⟩
  uncalled := nofun

theorem Laid.add (h : l.Laid) {e : Expectation} (he : e.Fresh) : (l.add e).Laid := by
  refine ⟨⟨forall_mem_add h.forward.own he.own, forall_mem_add h.forward.hookless he.hookless, ?_,
    forall_mem_add h.forward.available fun _ => he.unclosed⟩,
    forall_mem_add h.uncalled he.uncalled⟩
  intro i f hf
  by_cases hi : i < l.calls.length
  · rw [Ledger.add, List.getElem?_append_left hi] at hf
    exact h.forward.earlier i f hf
  · rw [Ledger.add, List.getElem?_append_right (Nat.not_lt.mp hi)] at hf
    obtain rfl := List.mem_singleton.mp (List.mem_of_getElem? hf)
    simp [he.first]

/-- A relation to an earlier expectation keeps prerequisites early. -/
theorem Laid.after (h : l.Laid) {i p : Nat} (hp : p < i) : (l.after i p).Laid := by
  refine ⟨⟨forall_mem_after h.forward.own fun _ _ h => h, h.forward.hookless.after i p, ?_,
    forall_mem_after h.forward.available fun _ _ h => h⟩,
    forall_mem_after h.uncalled fun _ _ h => h⟩
  intro j f hf q hq
  obtain ⟨g, hg, -, hpre⟩ := exists_of_getElem?_after hf
  rcases (hpre q).mp hq with hold | ⟨rfl, rfl⟩
  · exact h.forward.earlier j g hg q hold
  · exact hp

end Ledger

namespace Bench

/-- There is a handler's controller, and its expectations are laid. -/
def Laid (b : Bench) : Prop :=
  0 < b.collaborator.controllers.length ∧ (b.collaborator.ledger 0).Laid

/-- The expectations were declared on the handler's controller in their order, between the first
state and the second. -/
structure Spans (b : Bench) (ids : List CallId) (t : Bench) : Prop where
  grows : (b.collaborator.ledger 0).calls.length ≤ (t.collaborator.ledger 0).calls.length
  declared : ∀ id ∈ ids, id.controller = 0 ∧ (b.collaborator.ledger 0).calls.length ≤ id.index ∧
    id.index < (t.collaborator.ledger 0).calls.length
  ascending : ids.Pairwise fun p s => p.index < s.index

/-- Wherever it starts, the attempt declares a fresh expectation on the handler's controller, and
gives that one if it succeeds.  It may do anything but touch the controller's other
expectations. -/
def Declares (x : Attempt Bench (Node CallId)) : Prop :=
  ∀ b : Bench, 0 < b.collaborator.controllers.length →
    x.Ensures b
      (fun t => 0 < t.collaborator.controllers.length ∧
        ∃ e : Expectation, e.Fresh ∧ t.collaborator.ledger 0 = (b.collaborator.ledger 0).add e)
      fun node _ => node = .single ⟨0, (b.collaborator.ledger 0).calls.length⟩

/-- A relation between expectations in the order of declaration leaves them laid. -/
theorem Laid.order {b t : Bench} {c : Constraint CallId} (h : t.Laid)
    (hspans : b.Spans [c.predecessor, c.successor] t) :
    Laid (t.modify (Collaborator.order c)) := by
  obtain ⟨⟨controller, i⟩, p⟩ := c
  obtain rfl : controller = 0 := (hspans.declared ⟨controller, i⟩ (by simp)).1
  have hlt : p.index < i := by simpa using hspans.ascending
  refine ⟨(Switchboard.length_modify ..).symm ▸ h.1, ?_⟩
  show ((t.collaborator.modify 0 (·.after i p.index)).ledger 0).Laid
  rw [Switchboard.ledger_modify_self h.1]
  exact h.2.after hlt

theorem Spans.order {b t : Bench} {ids : List CallId} (h : b.Spans ids t)
    (c : Constraint CallId) : b.Spans ids (t.modify (Collaborator.order c)) := by
  have hlength : ((t.modify (Collaborator.order c)).collaborator.ledger 0).calls.length
      = (t.collaborator.ledger 0).calls.length :=
    Switchboard.length_ledger_modify (fun l => l.length_after _ _) 0
  exact ⟨hlength.symm ▸ h.grows, hlength.symm ▸ h.declared, h.ascending⟩

variable {π : Type} {produce : π → Attempt Bench (Node CallId)}

/-- **Relations are registered in the order of declaration.** -/
theorem sound_stage : (Handler.stage produce).Sound Laid Spans where
  nothing b _ := ⟨Nat.le_refl _, nofun, .nil⟩
  further b t u ids ids' h h' := by
    refine ⟨Nat.le_trans h.grows h'.grows, ?_, ?_⟩
    · intro id hid
      rcases List.mem_append.mp hid with hid | hid
      · obtain ⟨hcontroller, hlow, hhigh⟩ := h.declared id hid
        exact ⟨hcontroller, hlow, Nat.lt_of_lt_of_le hhigh h'.grows⟩
      · obtain ⟨hcontroller, hlow, hhigh⟩ := h'.declared id hid
        exact ⟨hcontroller, Nat.le_trans h.grows hlow, hhigh⟩
    · refine List.pairwise_append.mpr ⟨h.ascending, h'.ascending, fun p hp s hs => ?_⟩
      exact Nat.lt_of_lt_of_le (h.declared p hp).2.2 (h'.declared s hs).2.1
  sublist b t ids ids' h hsub :=
    ⟨h.grows, fun id hid => h.declared id (hsub.subset hid), h.ascending.sublist hsub⟩
  always_order b t c ht hspans := ht.order hspans
  spans_order b t ids c hspans := hspans.order c

theorem spans_of_add {b t : Bench} {e : Expectation}
    (h : t.collaborator.ledger 0 = (b.collaborator.ledger 0).add e) :
    b.Spans [⟨0, (b.collaborator.ledger 0).calls.length⟩] t := by
  refine ⟨?_, ?_, List.pairwise_singleton _ _⟩
  · rw [h]
    simp [Ledger.add]
  · intro id hid
    obtain rfl := List.mem_singleton.mp hid
    refine ⟨rfl, Nat.le_refl _, ?_⟩
    rw [h]
    simp [Ledger.add]

/-- Fresh expectations are laid after those that are there. -/
theorem upholds_of_declares {producers : List π} (h : ∀ p ∈ producers, Declares (produce p)) :
    (Handler.stage produce).Upholds Laid Spans producers := by
  intro p hp b hb
  show (produce p).Ensures b Laid fun node t => Spans b node.leaves t
  obtain ⟨⟨hcontrollers, e, he, hledger⟩, hnode⟩ := h p hp b hb.1
  refine ⟨⟨hcontrollers, hledger ▸ hb.2.add he⟩, fun node hresult => ?_⟩
  rw [hnode node hresult]
  exact spans_of_add hledger

end Bench

/-! ### Producers that declare -/

/-- The hook that is asked for cannot be attached to the call. -/
def HookPlan.Misfits (plan : HookPlan) (call : Signature) : Prop :=
  ∀ hook, plan.hook = .ok hook → hook.accepts call.args.length = false

/-- The plan attaches no hook: it has none, or fails with the first. -/
def CallPlan.Bare (plan : CallPlan) : Prop :=
  ∀ first ∈ plan.hooks.head?, first.Misfits plan.call

namespace Bench

/-- The handler's controller has a fresh expectation of the call beside those that it had. -/
def Added (l : Ledger) (call : Signature) (t : Bench) : Prop :=
  0 < t.collaborator.controllers.length ∧
    ∃ e : Expectation, e.Fresh ∧ e.call = call ∧ t.collaborator.ledger 0 = l.add e

section Added

variable {l : Ledger} {call : Signature} {b : Bench}

theorem ensures_modifyCall (hb : b.Added l call) {change : Expectation → Expectation}
    (hfresh : ∀ e : Expectation, e.Fresh → (change e).Fresh)
    (hcall : ∀ e : Expectation, (change e).call = e.call) :
    (modifyCall ⟨0, l.calls.length⟩ change).Ensures b (Added l call) fun _ _ => True := by
  obtain ⟨hcontrollers, e, he, rfl, hledger⟩ := hb
  refine ⟨⟨(Switchboard.length_modify ..).symm ▸ hcontrollers, change e, hfresh e he, hcall e, ?_⟩,
    fun _ _ => trivial⟩
  show (b.collaborator.modify 0 (·.modify l.calls.length change)).ledger 0 = _
  rw [Switchboard.ledger_modify_self hcontrollers, hledger, Ledger.modify_add]

/-- A hook that does not fit changes no expectation, and fails. -/
theorem ensures_run_of_misfits (hb : b.Added l call) {plan : HookPlan} (hplan : plan.Misfits call) :
    (run ⟨0, l.calls.length⟩ plan).Ensures b (Added l call) fun _ _ => False := by
  obtain ⟨hcontrollers, e, he, rfl, hledger⟩ := hb
  have hstill : b.Added l e.call := ⟨hcontrollers, e, he, rfl, hledger⟩
  cases hhook : plan.hook with
  | error mistake =>
      rw [Attempt.Ensures, run_of_error hhook]
      exact ⟨hstill, fun _ hok => by cases hok⟩
  | ok hook =>
      have hget : b.collaborator.expectation? ⟨0, l.calls.length⟩ = some e := by
        rw [Switchboard.expectation?, hledger]
        simp [Ledger.add]
      obtain ⟨f, hf⟩ : ∃ f, (Handler.fatal (.hookRefused e.call) b :
          Outcome Bench Unit).result = .error f := Handler.fatal_fails _ b
      rw [Attempt.Ensures, run_apply hhook hget, hplan hook hhook, if_neg Bool.false_ne_true, hf]
      exact ⟨hstill, fun _ hok => by cases hok⟩

theorem ensures_declare (hcontrollers : 0 < b.collaborator.controllers.length)
    (hown : call.sameKey call = true) :
    (declare 0 call).Ensures b (Added (b.collaborator.ledger 0) call) fun id _ =>
      id = ⟨0, (b.collaborator.ledger 0).calls.length⟩ := by
  refine ⟨⟨(Switchboard.length_modify ..).symm ▸ hcontrollers, { call }, ⟨hown, rfl, rfl, rfl, rfl⟩,
    rfl, ?_⟩, fun id hid => (Except.ok.inj hid).symm⟩
  exact Switchboard.ledger_modify_self hcontrollers (·.declare call)

theorem ensures_forEach_run (hb : b.Added l call) {plans : List HookPlan}
    (hplans : ∀ first ∈ plans.head?, first.Misfits call) :
    (Attempt.forEach (run ⟨0, l.calls.length⟩) plans).Ensures b (Added l call)
      fun _ _ => True := by
  cases plans with
  | nil => exact .pure hb trivial
  | cons first rest =>
      exact (ensures_run_of_misfits hb (hplans first rfl)).bind fun _ _ _ h => h.elim

/-- Carrying out a plan that attaches no hook adds one fresh expectation, also where it fails. -/
theorem ensures_carryOut {plan : CallPlan} (hcontrollers : 0 < b.collaborator.controllers.length)
    (hown : plan.call.sameKey plan.call = true) (hbare : plan.Bare) :
    plan.carryOut.Ensures b (Added (b.collaborator.ledger 0) plan.call) fun id _ =>
      id = ⟨0, (b.collaborator.ledger 0).calls.length⟩ := by
  unfold CallPlan.carryOut
  refine (ensures_declare hcontrollers hown).bind ?_
  rintro _ t ht rfl
  generalize b.collaborator.ledger 0 = l at ht ⊢
  dsimp only
  have hhooks (t : Bench) (ht : t.Added l plan.call) :
      (do let _ ← Attempt.forEach (run ⟨0, l.calls.length⟩) plan.hooks
          pure ⟨0, l.calls.length⟩ : Attempt Bench CallId).Ensures t (Added l plan.call) fun id _ =>
        id = ⟨0, l.calls.length⟩ :=
    (ensures_forEach_run ht hbare).bind fun _ _ hu _ => .pure hu rfl
  have hstub (t : Bench) (ht : t.Added l plan.call) (stub : Returned) :
      (setStub ⟨0, l.calls.length⟩ stub).Ensures t (Added l plan.call) fun _ _ => True :=
    ensures_modifyCall ht (fun _ he => ⟨he.own, he.uncalled, he.unclosed, he.first, he.hookless⟩)
      fun _ => rfl
  have htimes (t : Bench) (ht : t.Added l plan.call) (n : Nat) :
      (setTimes ⟨0, l.calls.length⟩ n).Ensures t (Added l plan.call) fun _ _ => True :=
    ensures_modifyCall ht (fun _ he => ⟨he.own, he.uncalled, he.unclosed, he.first, he.hookless⟩)
      fun _ => rfl
  have htracked (t : Bench) (ht : t.Added l plan.call) (n : Nat) :
      (Handler.onCompletion (Completion.expect n) : Attempt Bench Nat).Ensures t
        (Added l plan.call) fun _ _ => True :=
    ⟨ht, fun _ _ => trivial⟩
  -- Each option adds its own step before the hooks, or none.
  cases plan.stub <;> cases plan.tracked <;> cases plan.times <;>
    with_reducible repeat' first
      | exact hhooks _ ‹_›
      | refine (hstub _ ‹_› _).bind fun _ _ _ _ => ?_
      | refine (htimes _ ‹_› _).bind fun _ _ _ _ => ?_
      | refine (htracked _ ‹_› _).bind fun _ _ _ _ => ?_

/-- **A plan without hooks declares**, and so does one whose first hook fails. -/
theorem declares_produce {plan : CallPlan} (hown : plan.call.sameKey plan.call = true)
    (hbare : plan.Bare) : Declares (Producer.declare plan).produce := by
  intro b hcontrollers
  obtain ⟨t, events, ht, hproduce⟩ := produce_declare_apply plan b
  have hcarry : Attempt.Ensures
      (plan.carryOut >>= fun id => (return .single id : Attempt Bench (Node CallId))) t
      (Added (t.collaborator.ledger 0) plan.call) fun node _ =>
        node = .single ⟨0, (t.collaborator.ledger 0).calls.length⟩ :=
    (ensures_carryOut (ht ▸ hcontrollers) hown hbare).bind fun id u hu hid =>
      .pure hu (by rw [hid])
  rw [ht] at hcarry
  rw [Attempt.Ensures, hproduce]
  obtain ⟨⟨hcontrollers', e, he, -, hledger⟩, hnode⟩ := hcarry
  exact ⟨⟨hcontrollers', e, he, hledger⟩, hnode⟩

end Added

/-! ### The calls of all setups, one after another -/

/-- A handler that began with nothing expected, after setups were expected one after another,
whether they failed or not. -/
def expectingEach {π : Type} (kind : ReporterKind) (config : Config) (controllers counters : Nat)
    (produce : π → Attempt Bench (Node CallId)) (setups : List (Setup π)) : Bench :=
  (Attempt.forEachCaught (Handler.expect produce) setups
    (start kind config controllers counters)).state

section Declared

variable {π : Type} {produce : π → Attempt Bench (Node CallId)} {setups : List (Setup π)}
  {kind : ReporterKind} {config : Config} {controllers counters : Nat}

theorem laid_expectingEach (hcontrollers : 0 < controllers)
    (hdeclares : ∀ setup ∈ setups, ∀ p ∈ setup.leaves, Declares (produce p)) :
    (expectingEach kind config controllers counters produce setups).Laid := by
  have hstart : (start kind config controllers counters).Laid := by
    have hledger : (start kind config controllers counters).collaborator.ledger 0 = {} := by
      simp [start, Switchboard.ledger, List.getD_eq_getElem?_getD, hcontrollers]
    refine ⟨by simpa [start] using hcontrollers, ?_⟩
    rw [hledger]
    exact .nothing
  have hall : (Attempt.forEachCaught (Handler.expect produce) setups).Ensures
      (start kind config controllers counters) Laid fun _ _ => True :=
    Attempt.Ensures.forEach hstart fun setup hsetup b hb =>
      ⟨Handler.always_expect sound_stage (upholds_of_declares (hdeclares setup hsetup)) hb,
        fun _ _ => trivial⟩
  exact hall.1

/-- A handler of which nothing is missing reports nothing. -/
theorem finish_of_nothing_missing {b : Bench} (h : (b.collaborator.ledger 0).missing = []) :
    Handler.finish b = ⟨.ok (), { b with verified := true }, []⟩ := by
  unfold Handler.finish
  split
  · rename_i hverified
    rw [← hverified]
  · show Handler.onReporter (Reporter.errors (b.collaborator.ledger 0).missing)
      { b with verified := true } = _
    rw [h]
    rfl

/-- **Whatever setups were expected, the calls that they declared can be made in the order of
declaration**, each as often as it is expected.

Setups may fail half way, calls may have the same key, and calls that are expected zero times are
left out.  Each call is answered, the first of them by the expectations whose turns come first;
and nothing is missing in the end. -/
theorem declared_order_answered (hcontrollers : 0 < controllers)
    (hdeclares : ∀ setup ∈ setups, ∀ p ∈ setup.leaves, Declares (produce p)) {b : Bench}
    (hb : b = expectingEach kind config controllers counters produce setups)
    {requests : List Request}
    (hrequests : List.Forall₂ (b.collaborator.ledger 0).Asks (b.collaborator.ledger 0).inOrder
      requests) :
    ∃ values t events, Attempt.forEach (call 0) requests b = ⟨.ok values, t, events⟩ ∧
      (∀ k, b.answerers (requests.take k) = (b.collaborator.ledger 0).inOrder.take k) ∧
      verify 0 t = ⟨.ok (), t, []⟩ ∧
      Handler.finish t = ⟨.ok (), { t with verified := true }, []⟩ := by
  obtain ⟨-, hlaid⟩ : b.Laid := hb ▸ laid_expectingEach hcontrollers hdeclares
  have hdue := hlaid.due_eq
  have hall : (b.collaborator.ledger 0).due = (b.collaborator.ledger 0).inOrder ++ [] := by
    rw [hdue, List.append_nil]
  obtain ⟨values, t, events, hrun, -, hdone⟩ := forEach_call_of_due hlaid.forward hall hrequests
  have hmissing := Ledger.missing_eq_nil_of_due hdone
  refine ⟨values, t, events, hrun, fun k => ?_, verify_eq_iff.mpr hmissing,
    finish_of_nothing_missing hmissing⟩
  obtain ⟨values', u, events', hrun', hnumbers, -⟩ :=
    forEach_call_of_due hlaid.forward (by rw [hdue, List.take_append_drop])
      (List.forall₂_take k hrequests)
  rw [answerers, hrun', hnumbers]

end Declared

/-- A bell is rung twice and once more by someone else, and then somebody knocks; then the setup
fails, for there is no hook of so many parameters. -/
def callers : List (Setup Producer) :=
  [.chain
    [.leaf (.declare { call := ⟨"bell", "ring", []⟩, times := some 2 }),
      .parallel
        [.leaf (.declare { call := ⟨"bell", "ring", []⟩ }),
          .detach (.cut .head)
            (.leaf (.declare { call := ⟨"door", "knock", []⟩, times := some 0 }))]],
    .range 0 0
      (.chain
        [.leaf (.declare { call := ⟨"door", "knock", []⟩ }),
          .leaf (.declare
            { call := ⟨"door", "open", []⟩, hooks := [.completion 0 { parameters := 10 }] })])]

/-- What all of them do, one after another. -/
def visits : List Request :=
  [⟨⟨"bell", "ring", []⟩, .unit⟩, ⟨⟨"bell", "ring", []⟩, .text⟩, ⟨⟨"bell", "ring", []⟩, .unit⟩,
    ⟨⟨"door", "knock", []⟩, .unit⟩, ⟨⟨"door", "open", []⟩, .unit⟩]

/-- Each of them is answered by who was expected. -/
theorem callers_answered :
    ∃ values t events,
      Attempt.forEach (call 0) visits (expectingEach .recording {} 1 0 Producer.produce callers)
        = ⟨.ok values, t, events⟩ ∧
      (∀ k, (expectingEach .recording {} 1 0 Producer.produce callers).answerers (visits.take k)
        = [0, 0, 1, 3, 4].take k) ∧
      verify 0 t = ⟨.ok (), t, []⟩ ∧
      Handler.finish t = ⟨.ok (), { t with verified := true }, []⟩ := by
  have hplain (call : Signature) (times : Option Nat) (hown : call.sameKey call = true) :
      Declares (Producer.declare { call, times }).produce :=
    declares_produce hown nofun
  have hfails : CallPlan.Bare
      { call := ⟨"door", "open", []⟩, hooks := [.completion 0 { parameters := 10 }] } := by
    rintro _ ⟨⟩ hook hhook
    exact absurd hhook nofun
  have hdeclares : ∀ setup ∈ callers, ∀ p ∈ setup.leaves, Declares p.produce := by
    simp only [callers, Setup.leaves, Setup.leaves.leavesAll, List.cons_append, List.nil_append,
      List.forall_mem_cons, List.not_mem_nil, false_implies, implies_true, and_true]
    exact ⟨⟨hplain _ _ (by decide), hplain _ _ (by decide), hplain _ _ (by decide)⟩,
      hplain _ _ (by decide), declares_produce (by decide) hfails⟩
  refine declared_order_answered (by decide) hdeclares rfl ?_
  have hasks {i : Nat} {e : Expectation} {request : Request} {l : Ledger} (hi : l.calls[i]? = some e)
      (hcall : request.call = e.call) (hstub : e.stub = none) : l.Asks i request :=
    ⟨e, hi, hcall, by simp [hstub]⟩
  show List.Forall₂ (Ledger.Asks _) [0, 0, 1, 3, 4] visits
  exact .cons (hasks rfl rfl rfl) <| .cons (hasks rfl rfl rfl) <| .cons (hasks rfl rfl rfl) <|
    .cons (hasks rfl rfl rfl) <| .cons (hasks rfl rfl rfl) .nil

end Bench

end CallOrder
