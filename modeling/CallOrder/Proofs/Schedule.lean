/-
What calls come to does not depend on the order in which they are made.

Two threads that make the same calls may do so in many orders.  Where the hooks do nothing
but signal, and on one counter, any two orders in which every call succeeds leave the same
bench behind, and each call returns the same in both
(`results_independent_of_order`).

On the way the two runs differ.  A predecessor is closed early in one and late in the
other, and the counter goes down at other times.  But what a run leaves is written down
without its order: the ledger is what the calls made of it (`Ledger.made`), which goes by
how often each of them occurs, and the counter is lower by the hooks of all the calls
(`settled`).  One call leads from one such bench to the next (`call_settled`).
-/
import CallOrder.Proofs.Run
import Mathlib.Algebra.GroupWithZero.Nat

namespace CallOrder

/-- A call is made equally often in every order. -/
theorem Signature.tally_perm {w v : List Signature} (h : w.Perm v) (s : Signature) :
    s.tally w = s.tally v :=
  h.countP_eq _

/-- Attempts that succeed one after another have done so one by one. -/
theorem Attempt.forEach_cons_ok {σ ι α : Type} {act : ι → Attempt σ α} {i : ι} {rest : List ι}
    {s t : σ} {a : α} {values : List α} {events : List Event} (hact : (act i s).result = .ok a)
    (h : forEach act (i :: rest) s = ⟨.ok values, t, events⟩) :
    ∃ others later, forEach act rest (act i s).state = ⟨.ok others, t, later⟩ ∧
      values = a :: others := by
  rcases hfirst : act i s with ⟨f | b, u, early⟩
  · simp [hfirst] at hact
  · obtain rfl : b = a := by simpa [hfirst] using hact
    simp only [forEach, bind_apply, hfirst] at h
    rcases hrest : forEach act rest u with ⟨f | others, v, later⟩
    · simp [hrest, Outcome.after] at h
    · simp only [hrest, Outcome.after, pure_apply, Outcome.mk.injEq] at h
      obtain ⟨hvalues, rfl, -⟩ := h
      exact ⟨others, later, rfl, (Except.ok.inj hvalues).symm⟩

namespace Ledger

open Signature

variable {l : Ledger} {w v : List Signature} {i : Nat} {e : Expectation}

/-- What the calls made of a ledger does not depend on their order. -/
theorem made_perm (l : Ledger) (h : w.Perm v) : l.made w = l.made v := by
  have hovertaken : l.overtaken w = l.overtaken v := by
    funext i
    simp only [overtaken, tally_perm h]
  have hstanding : l.standing w = l.standing v := by
    funext i e
    simp only [standing, tally_perm h, hovertaken]
  rw [made, made, hstanding]

/-- The expectation that has the key of a call. -/
def named (l : Ledger) (call : Signature) : Option Expectation :=
  l.calls.find? (·.call.sameKey call)

/-- What a request is answered with. -/
def reply (l : Ledger) (request : Request) : Returned :=
  ((l.named request.call).bind (·.stub)).getD request.type.default

/-- How many hooks run when a request is answered. -/
def effects (l : Ledger) (request : Request) : Nat :=
  (l.named request.call).elim 0 (·.hooks.length)

/-- The only hooks are those that signal to the counter of that number. -/
def SignalsOnly (l : Ledger) (counter : Nat) : Prop :=
  ∀ e ∈ l.calls, ∀ hook ∈ e.hooks, ∃ done, hook = .completion counter done

/-- A call that is enabled is one of the only expectation of its key. -/
theorem Enabled.named_eq {c : Signature} (hk : Distinguishable (l.calls.map (·.call)))
    (h : l.Enabled w c i e) : l.named c = some e := by
  obtain ⟨f, hf⟩ : ∃ f, l.named c = some f :=
    Option.isSome_iff_exists.mp (List.find?_isSome.mpr ⟨e, List.mem_of_getElem? h.named, h.key⟩)
  obtain ⟨j, hj⟩ := List.mem_iff_getElem?.mp (List.mem_of_find?_eq_some hf)
  have hkey : f.call.sameKey c = true := by simpa using List.find?_some hf
  obtain rfl := index_eq_of_key hk h.named hj h.key hkey
  rw [hf, ← hj]
  exact h.named

end Ledger

namespace Bench

variable {b : Bench} {controller counter : Nat}

/-! ### Signals add up -/

/-- The bench after so many signals to a counter. -/
def signalled (counter n : Nat) (b : Bench) : Bench :=
  (onCounter counter (Attempt.update fun c => { outstanding := c.outstanding - n }) b).state

theorem signalled_zero (counter : Nat) (b : Bench) : b.signalled counter 0 = b := by
  cases counter with
  | zero => rfl
  | succ k =>
      have hset : b.collaborator.counters.set k (b.collaborator.counter k)
          = b.collaborator.counters := by
        by_cases hk : k < b.collaborator.counters.length
        · simp [Switchboard.counter, List.getD_eq_getElem?_getD, hk]
        · exact List.set_eq_of_length_le (Nat.not_lt.mp hk)
      show b.modify (fun s =>
        { s with counters := s.counters.set k (b.collaborator.counter k) }) = b
      simp only [Handler.modify, hset]

theorem completionOf_signalled (counter n : Nat) (b : Bench) :
    (b.signalled counter n).completionOf counter
      = { outstanding := (b.completionOf counter).outstanding - n } := by
  cases counter with
  | zero => rfl
  | succ k =>
      show (b.collaborator.counters.set k _).getD k {} = _
      by_cases hk : k < b.collaborator.counters.length
      · simp [List.getD_eq_getElem?_getD, hk]
        rfl
      · -- There is no such counter, and what is not there has nothing outstanding.
        have hnone : b.completionOf (k + 1) = {} := by
          simp [completionOf, Switchboard.counter, List.getD_eq_getElem?_getD, hk]
        simp [List.getD_eq_getElem?_getD, hk, hnone]

theorem signalled_signalled (counter m n : Nat) (b : Bench) :
    (b.signalled counter m).signalled counter n = b.signalled counter (m + n) := by
  have hcount := completionOf_signalled counter m b
  cases counter with
  | zero =>
      simp only [signalled, onCounter, Handler.onCompletion, Attempt.on, Attempt.update,
        Nat.sub_sub]
  | succ k =>
      rw [signalled, onCounter, Attempt.on]
      simp only [Attempt.update, hcount, Nat.sub_sub]
      simp only [signalled, onCounter, Attempt.on, Attempt.update, Handler.modify, List.set_set]

theorem ledger_signalled (counter n : Nat) (b : Bench) (controller : Nat) :
    (b.signalled counter n).collaborator.ledger controller
      = b.collaborator.ledger controller := by
  cases counter <;> rfl

/-- Signalling and answering do not interfere. -/
theorem signalled_modify (counter n : Nat) (change : Ledger → Ledger) (b : Bench) :
    (b.signalled counter n).modify (·.modify controller change)
      = signalled counter n (b.modify (·.modify controller change)) := by
  cases counter <;> rfl

/-! ### One call -/

theorem state_runHook_completion {again : Reentry} {args : List Value} {done : CompletionHook}
    {o : Outcome Bench Unit} (h : runHook again args (.completion counter done) b = some o)
    (hok : o.result = .ok ()) : o.state = b.signalled counter 1 := by
  obtain rfl : onCounter counter (done.invoke args.length) b = o := Option.some.inj h
  have hsignal : ∀ c, (done.invoke args.length c).result = .ok () →
      (done.invoke args.length c).state = { outstanding := c.outstanding - 1 } := by
    intro c hc
    unfold CompletionHook.invoke at hc ⊢
    by_cases haccepts : done.arity.accepts args.length = true
    · rw [if_pos haccepts, Attempt.bind_apply] at hc ⊢
      obtain ⟨outstanding⟩ := c
      cases outstanding with
      | zero => simp [Completion.signal] at hc
      | succ n =>
          cases hreason : done.reason with
          | none => rfl
          | some reason => simp [Completion.signal, hreason, Outcome.after, Attempt.fail] at hc
    · rw [if_neg haccepts] at hc
      cases hc
  cases counter with
  | zero =>
      have hstate := hsignal b.completion hok
      simp only [onCounter, Handler.onCompletion, Attempt.on, signalled, Attempt.update, hstate]
  | succ k =>
      have hstate := hsignal (b.completionOf (k + 1)) hok
      simp only [onCounter, Attempt.on, signalled, Attempt.update, hstate]

/-- Hooks that all succeed have signalled once each. -/
theorem state_runHooks_completion {again : Reentry} {args : List Value} {hooks : List Hook}
    (hhooks : ∀ hook ∈ hooks, ∃ done, hook = .completion counter done) {o : Outcome Bench Unit}
    (h : runHooks again args hooks b = some o) (hok : o.result = .ok ()) :
    o.state = b.signalled counter hooks.length := by
  induction hooks generalizing b o with
  | nil =>
      obtain rfl : _ = o := Option.some.inj h
      exact (signalled_zero counter b).symm
  | cons hook rest ih =>
      obtain ⟨done, rfl⟩ := hhooks hook (by simp)
      simp only [runHooks, Option.bind_eq_bind, Option.bind_eq_some_iff] at h
      obtain ⟨first, hfirst, h⟩ := h
      cases hresult : first.result with
      | error f =>
          obtain rfl : _ = o := by simpa [hresult] using h
          cases hok
      | ok u =>
          simp only [hresult, Option.bind_eq_some_iff] at h
          obtain ⟨others, hothers, h⟩ := h
          obtain rfl : others.after first.events = o := Option.some.inj h
          have hrest := ih (fun hook hmem => hhooks hook (List.mem_cons_of_mem _ hmem)) hothers hok
          show others.state = _
          rw [hrest, state_runHook_completion hfirst hresult, signalled_signalled, List.length_cons,
            Nat.add_comm]

theorem answer_of_ok {request : Request} {stub : Option Returned} {value : Returned}
    (h : (answer request stub b).result = .ok value) :
    value = stub.getD request.type.default ∧ (answer request stub b).state = b := by
  unfold answer at h ⊢
  cases stub with
  | none => exact ⟨(Except.ok.inj h).symm, rfl⟩
  | some stub =>
      by_cases htype : stub.type = request.type
      · simp only [if_pos htype] at h ⊢
        exact ⟨(Except.ok.inj h).symm, rfl⟩
      · simp only [if_neg htype] at h
        obtain ⟨f, hf⟩ := Handler.fatal_fails (α := Returned)
          (.wrongReturnType request.call.receiver request.call.method request.type) b
        rw [hf] at h
        cases h

/-- A call that succeeds was answered, and each hook of its expectation has signalled. -/
theorem call_of_ok {request : Request} {value : Returned}
    (hhooks : (b.collaborator.ledger controller).SignalsOnly counter)
    (h : (call controller request b).result = .ok value) :
    ∃ i e, (b.collaborator.ledger controller).judge request.call = .accepted i e ∧
      value = e.stub.getD request.type.default ∧
      (call controller request b).state
        = signalled counter e.hooks.length (b.modify (·.modify controller (·.invoke i))) := by
  by_cases hanswered : ∃ i e,
      (b.collaborator.ledger controller).judge request.call = .accepted i e
  · obtain ⟨i, e, hjudge⟩ := hanswered
    refine ⟨i, e, hjudge, ?_⟩
    obtain ⟨o, ho, -⟩ := callWithin_ends (b.remaining + 1) controller request b
      (Nat.lt_succ_self _)
    rw [call_eq_of_callWithin ho] at h ⊢
    simp only [callWithin, hjudge, serve, Option.bind_eq_bind, Option.bind_eq_some_iff] at ho
    obtain ⟨served, ⟨ran, hran, hserved⟩, ho⟩ := ho
    obtain rfl := Option.some.inj ho
    have hown := hhooks e (Ledger.sameKey_of_judge hjudge).1
    cases hresult : ran.result with
    | error f =>
        obtain rfl : _ = served := by simpa [hresult] using hserved
        cases h
    | ok u =>
        have hstate := state_runHooks_completion hown hran hresult
        obtain rfl : _ = served := by simpa [hresult] using hserved
        obtain ⟨hvalue, hsame⟩ := answer_of_ok h
        exact ⟨hvalue, hsame.trans hstate⟩
  · push Not at hanswered
    obtain ⟨f, hf⟩ := call_of_not_accepted hanswered
    rw [hf] at h
    cases h

/-! ### What a run leaves -/

/-- The bench once the calls `w` were answered by a controller and `n` completions were signalled
to a counter. -/
def settled (controller counter : Nat) (w : List Signature) (n : Nat) (b : Bench) : Bench :=
  signalled counter n (b.modify (·.modify controller (·.made w)))

theorem ledger_settled (controller counter : Nat) (w : List Signature) (n : Nat) (b : Bench) :
    (b.settled controller counter w n).collaborator.ledger controller
      = (b.collaborator.ledger controller).made w := by
  rw [settled, ledger_signalled]
  by_cases hin : controller < b.collaborator.controllers.length
  · exact Switchboard.ledger_modify_self hin _
  · have hout : b.collaborator.controllers[controller]? = none :=
      List.getElem?_eq_none (Nat.not_lt.mp hin)
    simp [Handler.modify, Switchboard.modify, Switchboard.ledger, List.getD_eq_getElem?_getD, hout,
      Ledger.made]

theorem settled_perm {w v : List Signature} (h : w.Perm v) (n : Nat) :
    b.settled controller counter w n = b.settled controller counter v n := by
  have hmade : (Ledger.made w) = Ledger.made v := funext fun l => l.made_perm h
  rw [settled, settled, hmade]

section Untouched

variable (huntouched : (b.collaborator.ledger controller).Untouched)
  (hdistinct : Signature.Distinguishable ((b.collaborator.ledger controller).calls.map (·.call)))
  (hhooks : (b.collaborator.ledger controller).SignalsOnly counter)

include huntouched in
/-- Before the first call nothing is settled. -/
theorem settled_nil : b.settled controller counter [] 0 = b := by
  have hmade : b.collaborator.modify controller (·.made []) = b.collaborator.modify controller id :=
    Switchboard.modify_congr huntouched.made_nil
  have hsame : b.collaborator.modify controller id = b.collaborator := by
    simp [Switchboard.modify]
  rw [settled, signalled_zero]
  simp only [Handler.modify, hmade, hsame]

include huntouched hdistinct hhooks in
/-- A call that succeeds is one more that is settled, and what it returns is settled before. -/
theorem call_settled {w : List Signature} {n : Nat} {request : Request} {value : Returned}
    (h : (call controller request (b.settled controller counter w n)).result = .ok value) :
    value = (b.collaborator.ledger controller).reply request ∧
      (call controller request (b.settled controller counter w n)).state
        = b.settled controller counter (w ++ [request.call])
            (n + (b.collaborator.ledger controller).effects request) := by
  have hledger := ledger_settled controller counter w n b
  have hsignals : ((b.settled controller counter w n).collaborator.ledger controller).SignalsOnly
      counter := by
    rw [hledger]
    intro f hf
    obtain ⟨i, e, he, rfl⟩ := Ledger.mem_made hf
    exact hhooks e (List.mem_of_getElem? he)
  obtain ⟨i, f, hjudge, hvalue, hstate⟩ := call_of_ok hsignals h
  rw [hledger, Ledger.judge_made_iff huntouched hdistinct] at hjudge
  obtain ⟨e, henabled, rfl⟩ := hjudge
  have hnamed := henabled.named_eq hdistinct
  constructor
  · rw [hvalue, Ledger.reply, hnamed]
    rfl
  · have hinvoke : (b.collaborator.modify controller (·.made w)).modify controller (·.invoke i)
        = b.collaborator.modify controller (·.made (w ++ [request.call])) := by
      rw [Switchboard.modify_modify]
      exact Switchboard.modify_congr (Ledger.invoke_made hdistinct henabled)
    have heffects : (b.collaborator.ledger controller).effects request = e.hooks.length := by
      rw [Ledger.effects, hnamed]
      rfl
    rw [hstate, settled, signalled_modify, signalled_signalled, heffects, settled]
    simp only [Handler.modify, hinvoke]
    rfl

include huntouched hdistinct hhooks in
/-- A run in which every call succeeds has settled its calls. -/
theorem forEach_call_settled {requests : List Request} {values : List Returned} {t : Bench}
    {events : List Event} {w : List Signature} {n : Nat}
    (h : Attempt.forEach (call controller) requests (b.settled controller counter w n)
      = ⟨.ok values, t, events⟩) :
    values = requests.map (b.collaborator.ledger controller).reply ∧
      t = b.settled controller counter (w ++ requests.map (·.call))
        (n + (requests.map (b.collaborator.ledger controller).effects).sum) := by
  induction requests generalizing values t events w n with
  | nil =>
      obtain ⟨rfl, rfl, -⟩ : [] = values ∧ b.settled controller counter w n = t ∧ _ := by
        simpa [Attempt.forEach, Attempt.pure_apply] using h
      exact ⟨rfl, by simp⟩
  | cons request rest ih =>
      cases hcall : (call controller request (b.settled controller counter w n)).result with
      | error f =>
          rw [Attempt.forEach_cons_of_error hcall] at h
          cases h
      | ok value =>
          obtain ⟨hvalue, hstate⟩ := call_settled huntouched hdistinct hhooks hcall
          obtain ⟨others, later, hrest, rfl⟩ := Attempt.forEach_cons_ok hcall h
          rw [hstate] at hrest
          obtain ⟨rfl, rfl⟩ := ih hrest
          refine ⟨by rw [hvalue, List.map_cons], ?_⟩
          rw [List.map_cons, List.map_cons, List.sum_cons, List.append_assoc, Nat.add_assoc]
          rfl

include huntouched hdistinct hhooks in
/-- **Two orders of the same calls, in each of which every call succeeds, leave the same behind:
the controller with its counts and marks, the counters, and all else that a bench holds.  What a
call returns is the same in both.** -/
theorem results_independent_of_order {requests requests' : List Request}
    (horder : requests.Perm requests') {values values' : List Returned} {t t' : Bench}
    {events events' : List Event}
    (h : Attempt.forEach (call controller) requests b = ⟨.ok values, t, events⟩)
    (h' : Attempt.forEach (call controller) requests' b = ⟨.ok values', t', events'⟩) :
    t = t' ∧ ∃ value : Request → Returned,
      values = requests.map value ∧ values' = requests'.map value := by
  have hsettled : b = b.settled controller counter [] 0 := (settled_nil huntouched).symm
  rw [hsettled] at h h'
  obtain ⟨hvalues, ht⟩ := forEach_call_settled huntouched hdistinct hhooks h
  obtain ⟨hvalues', ht'⟩ := forEach_call_settled huntouched hdistinct hhooks h'
  refine ⟨?_, (b.collaborator.ledger controller).reply, hvalues, hvalues'⟩
  have heffects := (horder.map (b.collaborator.ledger controller).effects).sum_nat
  rw [ht, ht', heffects]
  exact settled_perm ((horder.map (·.call)).append_left []) _

end Untouched

/-- A bench that expects two knocks and a ring, each of which signals, before a door opens. -/
def awaiting : Bench :=
  let signalling (call : Signature) (n : Nat) (stub : Option Returned) : Setup Producer :=
    .leaf (.declare
      { call, stub, tracked := some n, hooks := [.completion 0 { parameters := 0 }] })
  let visit : Setup Producer := .chain
    [.parallel
      [signalling ⟨"door", "knock", []⟩ 2 none,
        signalling ⟨"bell", "ring", []⟩ 1 (some (.text "dong"))],
      .leaf (.declare { call := ⟨"door", "open", []⟩ })]
  (Handler.expect Producer.produce visit (start .recording {} 1 0)).state

/-- It makes no difference whether the bell rings before the knocks or between them. -/
theorem ring_before_or_between_knocks :
    let ring : Request := ⟨⟨"bell", "ring", []⟩, .text⟩
    let knock : Request := ⟨⟨"door", "knock", []⟩, .unit⟩
    let enter : Request := ⟨⟨"door", "open", []⟩, .unit⟩
    ∃ t values values' events events',
      Attempt.forEach (call 0) [ring, knock, knock, enter] awaiting = ⟨.ok values, t, events⟩ ∧
      Attempt.forEach (call 0) [knock, ring, knock, enter] awaiting = ⟨.ok values', t, events'⟩ ∧
      ∃ value : Request → Returned, values = [ring, knock, knock, enter].map value ∧
        values' = [knock, ring, knock, enter].map value := by
  intro ring knock enter
  have huntouched : (awaiting.collaborator.ledger 0).Untouched :=
    ⟨by unfold Ledger.Grounded; decide, by decide⟩
  have hhooks : (awaiting.collaborator.ledger 0).SignalsOnly 0 := by
    have hcalls : (awaiting.collaborator.ledger 0).calls.map (·.hooks)
        = [[.completion 0 ⟨.fixed 0, none⟩], [.completion 0 ⟨.fixed 0, none⟩], []] := rfl
    intro e he hook hhook
    have hmem := List.mem_map_of_mem (f := (·.hooks)) he
    rw [hcalls] at hmem
    simp only [List.mem_cons, List.not_mem_nil, or_false] at hmem
    rcases hmem with hown | hown | hown <;> simp_all
  obtain ⟨values, t, events, h⟩ : ∃ values t events,
      Attempt.forEach (call 0) [ring, knock, knock, enter] awaiting = ⟨.ok values, t, events⟩ :=
    ⟨_, _, _, rfl⟩
  obtain ⟨values', t', events', h'⟩ : ∃ values t events,
      Attempt.forEach (call 0) [knock, ring, knock, enter] awaiting = ⟨.ok values, t, events⟩ :=
    ⟨_, _, _, rfl⟩
  obtain ⟨rfl, hvalue⟩ := results_independent_of_order huntouched (by decide) hhooks
    (.swap knock ring [knock, enter]) h h'
  exact ⟨t, values, values', events, events', h, h', hvalue⟩

end Bench

end CallOrder
