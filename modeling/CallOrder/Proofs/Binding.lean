/-
Which expectations a registered relation binds.

A relation names two expectations, each by its controller and its number there, and two
names are the same only if both parts are.  But it is kept with the successor's
controller, and of the predecessor only the number is kept.  So where the predecessor is
on another controller, what the successor waits for is whatever has that number on its
own: itself, a stranger, or nothing at all.

Where both are on one controller, the relation binds them and nothing else.  Each
controller then has expectations that wait for at most one other, and a call is answered
exactly where its expectation was not called yet and what it waits for was
(`Sparse.judge_iff`).  Between two controllers it never binds them, whatever is declared
(`binds_iff_same_controller`).
-/
import CallOrder.Proofs.Building

namespace CallOrder

open Signature

namespace Ledger

/-- Expectations to be called once, each with a key of its own and without hooks, of which none
waits for another but as the relation says. -/
structure Sparse (l : Ledger) (relation : Option (Constraint Nat)) : Prop where
  distinguishable : Distinguishable (l.calls.map (·.call))
  hookless : l.Hookless
  once : ∀ e ∈ l.calls, e.times = 1 ∧ e.invoked ≤ 1
  /-- What is closed was called. -/
  closed : ∀ e ∈ l.calls, e.closed = true → e.invoked = 1
  waits : ∀ (i : Nat) (e : Expectation), l.calls[i]? = some e → ∀ p,
    p ∈ e.prerequisites ↔ relation = some ⟨i, p⟩

namespace Sparse

variable {l : Ledger} {relation : Option (Constraint Nat)} {i : Nat} {e : Expectation}
  {call : Signature}

theorem satisfied_iff (h : l.Sparse relation) (he : e ∈ l.calls) :
    e.satisfied = true ↔ e.invoked = 1 := by
  obtain ⟨htimes, hle⟩ := h.once e he
  simp only [Expectation.satisfied, decide_eq_true_eq, htimes]
  omega

theorem uncalled_of_due (h : l.Sparse relation) (he : e ∈ l.calls) (hdue : e.satisfied = false) :
    e.invoked = 0 := by
  have hnot : ¬e.invoked = 1 := by
    rw [← h.satisfied_iff he, hdue]
    exact Bool.false_ne_true
  have hle := (h.once e he).2
  omega

/-- A call can be answered by its own expectation only, and not before what that waits for was
called. -/
theorem of_judge (h : l.Sparse relation) (hi : l.calls[i]? = some e) {j : Nat} {f : Expectation}
    (hjudge : l.judge e.call = .accepted j f) :
    j = i ∧ e.invoked = 0 ∧
      ∀ p, relation = some ⟨i, p⟩ → ∃ q, l.calls[p]? = some q ∧ q.invoked = 1 := by
  obtain ⟨hj, hdue⟩ := judge_accepted hjudge
  obtain ⟨-, -, hadmitted⟩ := judgeFrom_accepted hjudge
  obtain ⟨hkey, -, -, hpre⟩ := examine_eq_admitted_iff.mp hadmitted
  have hown := h.distinguishable.own e.call (List.mem_map_of_mem (List.mem_of_getElem? hi))
  obtain rfl : j = i := index_eq_of_key h.distinguishable hj hi hkey hown
  obtain rfl : e = f := Option.some.inj (hi.symm.trans hj)
  refine ⟨rfl, h.uncalled_of_due (List.mem_of_getElem? hi) hdue, fun p hp => ?_⟩
  obtain ⟨q, hq, hsatisfied⟩ := hpre p ((h.waits j e hi p).mpr hp)
  exact ⟨q, hq, (h.satisfied_iff (List.mem_of_getElem? hq)).mp hsatisfied⟩

theorem grounded (h : l.Sparse relation)
    (hbounded : ∀ r, relation = some r → r.predecessor < l.calls.length) : l.Grounded := by
  intro e he p hp
  obtain ⟨i, hi⟩ := List.mem_iff_getElem?.mp he
  exact hbounded _ ((h.waits i e hi p).mp hp)

/-- **It is answered exactly if it was not made yet, and what it waits for was.** -/
theorem judge_iff (h : l.Sparse relation)
    (hbounded : ∀ r, relation = some r → r.predecessor < l.calls.length)
    (hi : l.calls[i]? = some e) :
    l.judge e.call = .accepted i e ↔
      e.invoked = 0 ∧ ∀ p, relation = some ⟨i, p⟩ → ∃ q, l.calls[p]? = some q ∧ q.invoked = 1 := by
  refine ⟨fun hjudge => (h.of_judge hi hjudge).2, fun hready => ?_⟩
  obtain ⟨hzero, hpre⟩ := hready
  have he : e ∈ l.calls := List.mem_of_getElem? hi
  have hown := h.distinguishable.own e.call (List.mem_map_of_mem he)
  refine (judge_eq_accepted_iff (h.grounded hbounded)).mpr ⟨hi, ?_, fun j hj f hf hadmitted => ?_⟩
  · have hopen : e.satisfied = false := by
      rw [← Bool.not_eq_true, h.satisfied_iff he, hzero]
      exact Nat.zero_ne_one
    have hunclosed : e.closed = false := by
      rw [← Bool.not_eq_true]
      intro hclosed
      rw [h.closed e he hclosed] at hzero
      exact Nat.one_ne_zero hzero
    refine examine_eq_admitted_iff.mpr ⟨hown, hunclosed, hopen, fun p hp => ?_⟩
    obtain ⟨q, hq, hcalled⟩ := hpre p ((h.waits i e hi p).mp hp)
    exact ⟨q, hq, (h.satisfied_iff (List.mem_of_getElem? hq)).mpr hcalled⟩
  · -- No other expectation has the key.
    have hkey := (examine_eq_admitted_iff.mp hadmitted).1
    exact Nat.ne_of_lt hj (index_eq_of_key h.distinguishable hf hi hkey hown)

/-- Answering keeps all of it. -/
theorem invoke (h : l.Sparse relation) (hjudge : l.judge call = .accepted i e) :
    (l.invoke i).Sparse relation := by
  obtain ⟨hi, hdue⟩ := judge_accepted hjudge
  obtain ⟨-, -, hadmitted⟩ := judgeFrom_accepted hjudge
  obtain ⟨-, -, -, hpre⟩ := examine_eq_admitted_iff.mp hadmitted
  have hmem {f : Expectation} (hf : f ∈ (l.invoke i).calls) :
      ∃ (j : Nat) (g : Expectation), l.calls[j]? = some g ∧
      f = { g with
        closed := g.closed || decide (j ∈ e.prerequisites)
        invoked := g.invoked + if i = j then 1 else 0 } := by
    obtain ⟨j, hj⟩ := List.mem_iff_getElem?.mp hf
    rw [getElem?_invoke hi, Option.map_eq_some_iff] at hj
    obtain ⟨g, hg, rfl⟩ := hj
    exact ⟨j, g, hg, rfl⟩
  have hcalls : (l.invoke i).calls.map (·.call) = l.calls.map (·.call) := by
    refine List.ext_getElem? fun j => ?_
    rw [List.getElem?_map, getElem?_invoke hi, List.getElem?_map, Option.map_map]
    rfl
  have hzero := h.uncalled_of_due (List.mem_of_getElem? hi) hdue
  refine ⟨hcalls ▸ h.distinguishable, h.hookless.invoke i, ?_, ?_, ?_⟩
  · intro f hf
    obtain ⟨j, g, hg, rfl⟩ := hmem hf
    obtain ⟨htimes, hle⟩ := h.once g (List.mem_of_getElem? hg)
    refine ⟨htimes, ?_⟩
    by_cases hij : i = j
    · subst hij
      obtain rfl : e = g := Option.some.inj (hi.symm.trans hg)
      simp [hzero]
    · simpa [hij] using hle
  · intro f hf hclosed
    obtain ⟨j, g, hg, rfl⟩ := hmem hf
    have hbefore : g.invoked = 1 := by
      rcases Bool.or_eq_true_iff.mp hclosed with hclosed | hclosed
      · exact h.closed g (List.mem_of_getElem? hg) hclosed
      · obtain ⟨q, hq, hsatisfied⟩ := hpre j (of_decide_eq_true hclosed)
        obtain rfl : g = q := Option.some.inj (hg.symm.trans hq)
        exact (h.satisfied_iff (List.mem_of_getElem? hg)).mp hsatisfied
    have hij : i ≠ j := by
      rintro rfl
      obtain rfl : e = g := Option.some.inj (hi.symm.trans hg)
      omega
    simpa [hij] using hbefore
  · intro j f hf
    rw [getElem?_invoke hi, Option.map_eq_some_iff] at hf
    obtain ⟨g, hg, rfl⟩ := hf
    exact h.waits j g hg

/-- Where nothing was related yet, what is registered is the only relation. -/
theorem after (h : l.Sparse none) (i p : Nat) : (l.after i p).Sparse (some ⟨i, p⟩) := by
  have hnone : ∀ e ∈ l.calls, e.prerequisites = [] := by
    intro e he
    obtain ⟨j, hj⟩ := List.mem_iff_getElem?.mp he
    exact List.eq_nil_iff_forall_not_mem.mpr fun q hq => nomatch (h.waits j e hj q).mp hq
  have hget (j : Nat) : (l.after i p).calls[j]? = l.calls[j]?.map fun e =>
      { e with prerequisites := if i = j then [p] else [] } := by
    rw [getElem?_after]
    cases hj : l.calls[j]? with
    | none => rfl
    | some e => simp [hnone e (List.mem_of_getElem? hj)]
  have hcalls : (l.after i p).calls.map (·.call) = l.calls.map (·.call) := by
    refine List.ext_getElem? fun j => ?_
    rw [List.getElem?_map, hget, List.getElem?_map, Option.map_map]
    rfl
  refine ⟨hcalls ▸ h.distinguishable, h.hookless.after i p, forall_mem_after h.once fun _ _ h => h,
    forall_mem_after h.closed fun _ _ h => h, ?_⟩
  intro j f hf q
  rw [hget, Option.map_eq_some_iff] at hf
  obtain ⟨e, -, rfl⟩ := hf
  by_cases hij : i = j
  · simp [hij, eq_comm]
  · simp [hij]

/-- Expectations are sparse when they are declared. -/
theorem of_declared (hkeys : Distinguishable (l.calls.map (·.call)))
    (hdeclared : ∀ e ∈ l.calls, e = { call := e.call, stub := e.stub }) : l.Sparse none := by
  have hall {P : Expectation → Prop} (h : ∀ call stub, P { call, stub }) : ∀ e ∈ l.calls, P e := by
    intro e he
    rw [hdeclared e he]
    exact h e.call e.stub
  refine ⟨hkeys, hall fun _ _ => rfl, hall fun _ _ => ⟨rfl, Nat.zero_le 1⟩, hall nofun, ?_⟩
  intro i e hi p
  rw [hdeclared e (List.mem_of_getElem? hi)]
  simp

end Sparse

end Ledger

/-! ### Calls on several controllers -/

/-- The failure is what the reporter makes of a complaint. -/
def Failure.ByReporter (f : Failure) : Prop :=
  ∃ c, f = .fatal c ∨ f = .panic (.complaint c)

theorem Handler.byReporter_of_fatal {κ α : Type} {c : Complaint} {h : Handler κ} {f : Failure}
    (hf : (Handler.fatal c h : Outcome (Handler κ) α).result = .error f) : f.ByReporter := by
  refine ⟨c, ?_⟩
  cases hkind : h.reporter.kind <;>
    simp_all [Handler.fatal, Handler.onReporter, Attempt.on, Reporter.fatal, Attempt.bind_apply,
      Reporter.error, Outcome.after, Attempt.fail]

namespace Bench

section Call

variable {b : Bench} {controller : Nat} {request : Request}

/-- Without hooks, a call changes nothing on other controllers. -/
theorem ledger_call_of_ne (hhooks : (b.collaborator.ledger controller).Hookless) {k : Nat}
    (hk : k ≠ controller) :
    (call controller request b).state.collaborator.ledger k = b.collaborator.ledger k := by
  rcases collaborator_call_cases hhooks with ⟨i, e, -, hcounted⟩ | hsame
  · rw [hcounted, Switchboard.ledger_modify_of_ne hk]
  · rw [hsame]

theorem invoked_of_expectation {id : CallId} {e : Expectation}
    (h : b.collaborator.expectation? id = some e) : b.invoked id = e.invoked := by
  rw [invoked, h]
  rfl

/-- Without hooks and with nothing to look up in vain, only the reporter makes a call fail. -/
theorem byReporter_of_call (hhooks : (b.collaborator.ledger controller).Hookless)
    (hgrounded : (b.collaborator.ledger controller).Grounded) {f : Failure}
    (h : (call controller request b).result = .error f) : f.ByReporter := by
  cases hj : (b.collaborator.ledger controller).judge request.call with
  | accepted i e =>
      rw [call_of_hookless hj (hhooks e (Ledger.sameKey_of_judge hj).1)] at h
      cases hstub : e.stub with
      | none =>
          rw [hstub] at h
          cases h
      | some stub =>
          by_cases htype : stub.type = request.type
          · rw [hstub] at h
            simp only [answer, if_pos htype] at h
            cases h
          · rw [hstub] at h
            simp only [answer, if_neg htype] at h
            exact Handler.byReporter_of_fatal h
  | refused reasons =>
      rw [call_of_refused hj] at h
      exact Handler.byReporter_of_fatal h
  | dangling p => exact absurd hj (hgrounded.judge_ne_dangling _ p)

end Call

/-- Makes calls on controllers one after another, whatever comes of them. -/
def afterCalls (b : Bench) (calls : List (Nat × Request)) : Bench :=
  (Attempt.forEachCaught (fun c => call c.1 c.2) calls b).state

theorem afterCalls_cons (b : Bench) (c : Nat × Request) (rest : List (Nat × Request)) :
    b.afterCalls (c :: rest) = (call c.1 c.2 b).state.afterCalls rest :=
  Attempt.state_forEachCaught_cons _ c rest b

/-- What every call keeps up, a run of calls does. -/
theorem afterCalls_keeps {P : Bench → Prop}
    (hcall : ∀ b controller request, P b → P (call controller request b).state) {b : Bench}
    (hb : P b) (calls : List (Nat × Request)) : P (b.afterCalls calls) := by
  induction calls generalizing b with
  | nil => exact hb
  | cons c rest ih =>
      rw [afterCalls_cons]
      exact ih (hcall b c.1 c.2 hb)

/-- Making the call of an expectation is refused, and changes no expectation. -/
def Refuses (b : Bench) (id : CallId) : Prop :=
  ∃ e, b.collaborator.expectation? id = some e ∧ ∀ request : Request, request.call = e.call →
    (call id.controller request b).state.collaborator = b.collaborator ∧
    ∃ f, (call id.controller request b).result = .error f

/-- Making the call of an expectation calls it once more, and gives what it returns, if that is of
the type that is asked for. -/
def Accepts (b : Bench) (id : CallId) : Prop :=
  ∃ e, b.collaborator.expectation? id = some e ∧ ∀ request : Request, request.call = e.call →
    (call id.controller request b).state.invoked id = b.invoked id + 1 ∧
    ((∀ stub, e.stub = some stub → stub.type = request.type) →
      (call id.controller request b).result = .ok (e.stub.getD request.type.default))

/-- In every run of calls one expectation has to wait for another, and nothing else has to wait for
anything. -/
structure Binds (t : Bench) (successor predecessor : CallId) : Prop where
  waits : ∀ calls, (t.afterCalls calls).invoked predecessor = 0 →
    (t.afterCalls calls).Refuses successor
  follows : ∀ calls, (t.afterCalls calls).invoked predecessor ≠ 0 →
    (t.afterCalls calls).invoked successor = 0 → (t.afterCalls calls).Accepts successor
  others : ∀ calls id, (t.collaborator.expectation? id).isSome → id ≠ successor →
    (t.afterCalls calls).invoked id = 0 → (t.afterCalls calls).Accepts id
  /-- Whatever is called, only the reporter makes it fail. -/
  failures : ∀ calls controller request f,
    (call controller request (t.afterCalls calls)).result = .error f → f.ByReporter

/-! ### Sparse expectations on several controllers -/

/-- Each controller has sparse expectations with the relation that is said of it, as many as it had
to begin with. -/
structure SparseSince (b t : Bench) (relations : Nat → Option (Constraint Nat)) : Prop where
  sparse : ∀ k, (b.collaborator.ledger k).Sparse (relations k)
  lengths : ∀ k, (b.collaborator.ledger k).calls.length = (t.collaborator.ledger k).calls.length

namespace SparseSince

variable {t b : Bench} {relations : Nat → Option (Constraint Nat)} {id : CallId} {e : Expectation}
  {request : Request}

/-- Every call keeps it. -/
theorem call (h : b.SparseSince t relations) (controller : Nat) (request : Request) :
    (call controller request b).state.SparseSince t relations := by
  have hhooks := (h.sparse controller).hookless
  rcases collaborator_call_cases hhooks with ⟨i, e, hj, hcounted⟩ | hsame
  · obtain ⟨hi, -⟩ := Ledger.judge_accepted hj
    have hself : (Bench.call controller request b).state.collaborator.ledger controller
        = (b.collaborator.ledger controller).invoke i := by
      rw [hcounted, Switchboard.ledger_modify_self (Switchboard.lt_length_of_getElem? hi)]
    refine ⟨fun k => ?_, fun k => ?_⟩
    · by_cases hk : k = controller
      · subst hk
        rw [hself]
        exact (h.sparse k).invoke hj
      · rw [ledger_call_of_ne hhooks hk]
        exact h.sparse k
    · by_cases hk : k = controller
      · subst hk
        rw [hself, ← h.lengths k, Ledger.invoke, hi]
        simp [Ledger.modify, Ledger.close]
      · rw [ledger_call_of_ne hhooks hk, h.lengths k]
  · exact ⟨hsame ▸ h.sparse, hsame ▸ h.lengths⟩

/-- So does a run of calls. -/
theorem afterCalls (h : b.SparseSince t relations) (calls : List (Nat × Request)) :
    (b.afterCalls calls).SparseSince t relations := by
  refine afterCalls_keeps (P := fun b => b.SparseSince t relations) ?_ h calls
  intro b controller request hb
  exact hb.call controller request

theorem exists_expectation (h : b.SparseSince t relations)
    (hid : (t.collaborator.expectation? id).isSome) :
    ∃ e, b.collaborator.expectation? id = some e := by
  obtain ⟨f, hf⟩ := Option.isSome_iff_exists.mp hid
  have hlt := (List.getElem?_eq_some_iff.mp hf).1
  rw [← h.lengths id.controller] at hlt
  exact ⟨_, List.getElem?_eq_getElem hlt⟩

/-- An expectation refuses while what it waits for was not called. -/
theorem refuses (h : b.SparseSince t relations) (he : b.collaborator.expectation? id = some e)
    {p : Nat} (hrelation : relations id.controller = some ⟨id.index, p⟩)
    (hwaits : ∀ q, (b.collaborator.ledger id.controller).calls[p]? = some q → q.invoked ≠ 1) :
    b.Refuses id := by
  refine ⟨e, he, fun request hrequest => ?_⟩
  have hnone : ∀ i f,
      (b.collaborator.ledger id.controller).judge request.call ≠ .accepted i f := by
    intro i f hj
    rw [hrequest] at hj
    obtain ⟨-, -, hpre⟩ := (h.sparse id.controller).of_judge he hj
    obtain ⟨q, hq, hcalled⟩ := hpre p hrelation
    exact hwaits q hq hcalled
  exact ⟨(state_call_of_not_accepted hnone).1, call_of_not_accepted hnone⟩

/-- One that was not called yet accepts if what it waits for was. -/
theorem accepts (h : b.SparseSince t relations)
    (hbounded : ∀ r, relations id.controller = some r →
      r.predecessor < (t.collaborator.ledger id.controller).calls.length)
    (he : b.collaborator.expectation? id = some e) (hzero : e.invoked = 0)
    (hready : ∀ p, relations id.controller = some ⟨id.index, p⟩ →
      ∃ q, (b.collaborator.ledger id.controller).calls[p]? = some q ∧ q.invoked = 1) :
    b.Accepts id := by
  have hsparse := h.sparse id.controller
  refine ⟨e, he, fun request hrequest => ?_⟩
  have hj : (b.collaborator.ledger id.controller).judge request.call = .accepted id.index e := by
    rw [hrequest]
    exact (hsparse.judge_iff (h.lengths id.controller ▸ hbounded) he).mpr ⟨hzero, hready⟩
  have hhooks := hsparse.hookless e (List.mem_of_getElem? he)
  refine ⟨?_, fun hstub => by rw [call_of_accepted hj hhooks hstub]⟩
  unfold invoked Switchboard.expectation?
  rw [collaborator_call_of_accepted hj hhooks,
    Switchboard.ledger_modify_self (Switchboard.lt_length_of_getElem? he),
    Ledger.getElem?_invoke he, show (b.collaborator.ledger id.controller).calls[id.index]? = some e
      from he]
  simp

/-- Where its call is counted, what an expectation waits for was called. -/
theorem ready_of_invoked (h : b.SparseSince t relations)
    (he : b.collaborator.expectation? id = some e) (hrequest : request.call = e.call)
    (hcalled : (Bench.call id.controller request b).state.invoked id = b.invoked id + 1) :
    ∀ p, relations id.controller = some ⟨id.index, p⟩ →
      ∃ q, (b.collaborator.ledger id.controller).calls[p]? = some q ∧ q.invoked = 1 := by
  rcases collaborator_call_cases (h.sparse id.controller).hookless with ⟨i, f, hj, -⟩ | hsame
  · rw [hrequest] at hj
    exact ((h.sparse id.controller).of_judge he hj).2.2
  · rw [invoked, invoked, hsame] at hcalled
    omega

end SparseSince

end Bench

/-! ### Expectations to be called once -/

/-- A call that is to be made once, of the controller that it is asked of. -/
structure SingleCall where
  controller : Nat
  call : Signature
  stub : Option Returned := none

namespace SingleCall

/-- Declares the call, and then what it returns if that is said. -/
def declare (c : SingleCall) : Attempt Bench CallId := do
  let id ← Bench.declare c.controller c.call
  if let some stub := c.stub then
    Bench.setStub id stub
  return id

/-- The expectation that is declared. -/
def expectation (c : SingleCall) : Expectation where
  call := c.call
  stub := c.stub

/-- Declaring adds the expectation to those of its controller. -/
theorem ledger_declare {c : SingleCall} {b : Bench}
    (h : c.controller < b.collaborator.controllers.length) (k : Nat) :
    (c.declare b).state.collaborator.ledger k =
      if c.controller = k then (b.collaborator.ledger k).add c.expectation
      else b.collaborator.ledger k := by
  obtain ⟨controller, call, stub⟩ := c
  have hself := Switchboard.ledger_modify_self h (·.declare call)
  cases stub with
  | none =>
      show (b.collaborator.modify controller (·.declare call)).ledger k = _
      by_cases hk : controller = k
      · subst hk
        rw [hself, if_pos rfl]
        rfl
      · rw [Switchboard.ledger_modify_of_ne (Ne.symm hk), if_neg hk]
  | some stub =>
      show ((b.collaborator.modify controller (·.declare call)).modify controller
        (·.modify (b.collaborator.ledger controller).calls.length
          fun e => { e with stub := some stub })).ledger k = _
      by_cases hk : controller = k
      · subst hk
        rw [Switchboard.ledger_modify_self ((Switchboard.length_modify ..).symm ▸ h), hself,
          if_pos rfl]
        exact Ledger.modify_add _ { call } _
      · rw [Switchboard.ledger_modify_of_ne (Ne.symm hk),
          Switchboard.ledger_modify_of_ne (Ne.symm hk), if_neg hk]

theorem length_controllers_declare (c : SingleCall) (b : Bench) :
    (c.declare b).state.collaborator.controllers.length = b.collaborator.controllers.length := by
  obtain ⟨controller, call, stub⟩ := c
  cases stub with
  | none => exact Switchboard.length_modify ..
  | some stub => exact (Switchboard.length_modify ..).trans (Switchboard.length_modify ..)

end SingleCall

namespace Bench

/-- A handler that began with nothing expected, after calls were declared one after another on its
controllers. -/
def expectingOnce (kind : ReporterKind) (config : Config) (controllers counters : Nat)
    (calls : List SingleCall) : Bench :=
  (Attempt.forEachCaught SingleCall.declare calls (start kind config controllers counters)).state

theorem calls_forEachCaught_declare {calls : List SingleCall} {b : Bench}
    (h : ∀ c ∈ calls, c.controller < b.collaborator.controllers.length) (k : Nat) :
    ((Attempt.forEachCaught SingleCall.declare calls b).state.collaborator.ledger k).calls =
      (b.collaborator.ledger k).calls ++
        (calls.filter (·.controller = k)).map SingleCall.expectation := by
  induction calls generalizing b with
  | nil => simp [Attempt.forEachCaught, Attempt.forEach, Attempt.pure_apply]
  | cons c rest ih =>
      have hone := SingleCall.ledger_declare (h c (by simp)) k
      rw [Attempt.state_forEachCaught_cons, ih fun d hd => by
        rw [c.length_controllers_declare]
        exact h d (List.mem_cons_of_mem _ hd), hone]
      by_cases hk : c.controller = k
      · simp [hk, Ledger.add]
      · simp [hk]

section Binding

variable {kind : ReporterKind} {config : Config} {controllers counters : Nat}
  {calls : List SingleCall}

/-- Each controller expects the calls that were declared on it. -/
theorem calls_expectingOnce (h : ∀ c ∈ calls, c.controller < controllers) (k : Nat) :
    ((expectingOnce kind config controllers counters calls).collaborator.ledger k).calls =
      (calls.filter (·.controller = k)).map SingleCall.expectation := by
  have hnothing : ((start kind config controllers counters).collaborator.ledger k).calls = [] := by
    by_cases hk : k < controllers <;>
      simp [start, Switchboard.ledger, List.getD_eq_getElem?_getD, hk]
  have hdeclared : ∀ c ∈ calls,
      c.controller < (start kind config controllers counters).collaborator.controllers.length := by
    simpa [start] using h
  rw [expectingOnce, calls_forEachCaught_declare hdeclared, hnothing, List.nil_append]

theorem sparse_expectingOnce (h : ∀ c ∈ calls, c.controller < controllers)
    (hkeys : Distinguishable (calls.map (·.call))) (k : Nat) :
    ((expectingOnce kind config controllers counters calls).collaborator.ledger k).Sparse none := by
  refine .of_declared ?_ ?_
  · rw [calls_expectingOnce h k, List.map_map]
    exact hkeys.sublist ((List.filter_sublist ..).map _)
  · rw [calls_expectingOnce h k, List.forall_mem_map]
    exact fun c _ => rfl

/-- What the relation comes to on each controller. -/
def kept (a b : CallId) (k : Nat) : Option (Constraint Nat) :=
  if k = a.controller then some ⟨a.index, b.index⟩ else none

variable {s t : Bench} {a b : CallId}

/-- A single relation is registered in either way. -/
theorem collaborator_related (hab : a ≠ b)
    (ht : t = (after a b s).state ∨ t = ((Handler.stage Producer.produce).register
      ((Node.chain [.single b, .single a]).propagate []).constraints s).state) :
    t.collaborator = s.collaborator.modify a.controller (·.after a.index b.index) := by
  have hchain : ((Node.chain [.single b, .single a]).propagate []).constraints = [⟨a, b⟩] := by
    simp [Node.propagate, Node.propagate.inSequence, Constraint.after, hab.symm]
  rw [hchain] at ht
  rcases ht with rfl | rfl
  · rfl
  · rfl

/-- Registering it declares nothing. -/
theorem isSome_expectation_related {id : CallId}
    (ht : t.collaborator = s.collaborator.modify a.controller (·.after a.index b.index))
    (h : (s.collaborator.expectation? id).isSome) : (t.collaborator.expectation? id).isSome := by
  obtain ⟨e, he⟩ := Option.isSome_iff_exists.mp h
  have hlt := (List.getElem?_eq_some_iff.mp he).1
  rw [← Switchboard.length_ledger_modify (fun l => l.length_after a.index b.index), ← ht] at hlt
  exact Option.isSome_iff_exists.mpr ⟨_, List.getElem?_eq_getElem hlt⟩

/-- Nor does it call anything. -/
theorem invoked_related
    (hs : ∀ k, ∀ e ∈ (s.collaborator.ledger k).calls, e.invoked = 0)
    (ht : t.collaborator = s.collaborator.modify a.controller (·.after a.index b.index))
    (id : CallId) : t.invoked id = 0 := by
  cases he : t.collaborator.expectation? id with
  | none => rw [invoked, he, Option.elim_none]
  | some e =>
      rw [invoked_of_expectation he]
      have hcontroller := Switchboard.lt_length_of_getElem? he
      have hmem : e ∈ (t.collaborator.ledger id.controller).calls := List.mem_of_getElem? he
      rw [ht, Switchboard.length_modify] at hcontroller
      rw [ht] at hmem
      by_cases hk : id.controller = a.controller
      · rw [hk] at hmem hcontroller
        rw [Switchboard.ledger_modify_self hcontroller] at hmem
        exact Ledger.forall_mem_after (hs a.controller) (fun _ _ h => h) e hmem
      · rw [Switchboard.ledger_modify_of_ne hk] at hmem
        exact hs id.controller e hmem

theorem sparseSince_related (hs : ∀ k, (s.collaborator.ledger k).Sparse none)
    (ha : (s.collaborator.expectation? a).isSome)
    (ht : t.collaborator = s.collaborator.modify a.controller (·.after a.index b.index)) :
    t.SparseSince t (kept a b) := by
  obtain ⟨e, he⟩ := Option.isSome_iff_exists.mp ha
  refine ⟨fun k => ?_, fun _ => rfl⟩
  rw [ht, kept]
  by_cases hk : k = a.controller
  · subst hk
    rw [Switchboard.ledger_modify_self (Switchboard.lt_length_of_getElem? he), if_pos rfl]
    exact (hs a.controller).after a.index b.index
  · rw [Switchboard.ledger_modify_of_ne hk, if_neg hk]
    exact hs k

/-- Where both are on one controller, the relation binds them. -/
theorem binds_of_same_controller (h : t.SparseSince t (kept a b)) (hab : a ≠ b)
    (ha : (t.collaborator.expectation? a).isSome) (hb : (t.collaborator.expectation? b).isSome)
    (hsame : a.controller = b.controller) : t.Binds a b := by
  have hrun := h.afterCalls
  have hkept : kept a b a.controller = some ⟨a.index, b.index⟩ := if_pos rfl
  have hbounded (k : Nat) : ∀ r, kept a b k = some r →
      r.predecessor < (t.collaborator.ledger k).calls.length := by
    intro r hr
    unfold kept at hr
    split at hr
    · obtain rfl := Option.some.inj hr
      obtain ⟨q, hq⟩ := Option.isSome_iff_exists.mp hb
      rename_i hk
      rw [hk, hsame]
      exact (List.getElem?_eq_some_iff.mp hq).1
    · cases hr
  refine ⟨?_, ?_, ?_, ?_⟩
  · intro calls hzero
    obtain ⟨e, he⟩ := (hrun calls).exists_expectation ha
    refine (hrun calls).refuses he hkept fun q hq hone => ?_
    rw [hsame] at hq
    rw [invoked_of_expectation hq, hone] at hzero
    exact Nat.one_ne_zero hzero
  · intro calls hcalled hzero
    obtain ⟨e, he⟩ := (hrun calls).exists_expectation ha
    obtain ⟨q, hq⟩ := (hrun calls).exists_expectation hb
    rw [invoked_of_expectation hq] at hcalled
    rw [invoked_of_expectation he] at hzero
    refine (hrun calls).accepts (hbounded a.controller) he hzero fun p hp => ?_
    rw [hkept] at hp
    obtain rfl : b.index = p := by simpa using hp
    have hle := (((hrun calls).sparse b.controller).once q (List.mem_of_getElem? hq)).2
    rw [hsame]
    exact ⟨q, hq, by omega⟩
  · intro calls id hid hne hzero
    obtain ⟨e, he⟩ := (hrun calls).exists_expectation hid
    rw [invoked_of_expectation he] at hzero
    refine (hrun calls).accepts (hbounded id.controller) he hzero fun p hp => ?_
    -- The relation that is kept is the successor's own.
    unfold kept at hp
    split at hp
    · rename_i hk
      obtain ⟨hindex, -⟩ : a.index = id.index ∧ b.index = p := by simpa using hp
      have hid : id = a := by
        cases id
        cases a
        simp_all
      exact absurd hid hne
    · cases hp
  · intro calls controller request f hf
    have hsparse := (hrun calls).sparse controller
    refine byReporter_of_call hsparse.hookless (hsparse.grounded ?_) hf
    rw [(hrun calls).lengths controller]
    exact hbounded controller

/-- Where they are not, calling the predecessor leaves what the successor waits for as it is. -/
theorem same_controller_of_binds (h : t.SparseSince t (kept a b)) (hab : a ≠ b)
    (hb : (t.collaborator.expectation? b).isSome) (huncalled : ∀ id, t.invoked id = 0)
    (hbinds : t.Binds a b) : a.controller = b.controller := by
  by_contra hne
  obtain ⟨e, he, hcall⟩ := hbinds.others [] b hb hab.symm (huncalled b)
  obtain ⟨hcounted, -⟩ := hcall ⟨e.call, .unit⟩ rfl
  let u := t.afterCalls [(b.controller, ⟨e.call, .unit⟩)]
  have hledger : u.collaborator.ledger a.controller = t.collaborator.ledger a.controller :=
    ledger_call_of_ne (h.sparse b.controller).hookless hne
  have hsame (i : Nat) : u.invoked ⟨a.controller, i⟩ = t.invoked ⟨a.controller, i⟩ := by
    rw [invoked, invoked, Switchboard.expectation?, Switchboard.expectation?, hledger]
  have hcalled : u.invoked b ≠ 0 := by
    show (call b.controller ⟨e.call, .unit⟩ (t.afterCalls [])).state.invoked b ≠ 0
    rw [hcounted]
    exact Nat.succ_ne_zero _
  obtain ⟨e', he', hcall'⟩ := hbinds.follows _ hcalled ((hsame a.index).trans (huncalled a))
  have hu : u.SparseSince t (kept a b) := h.call b.controller ⟨e.call, .unit⟩
  obtain ⟨hcounted', -⟩ := hcall' ⟨e'.call, .unit⟩ rfl
  obtain ⟨q, hq, hone⟩ := hu.ready_of_invoked he' rfl hcounted' b.index (if_pos rfl)
  have hq' : u.collaborator.expectation? ⟨a.controller, b.index⟩ = some q := hq
  have hzero : u.invoked ⟨a.controller, b.index⟩ = 0 := (hsame b.index).trans (huncalled _)
  rw [invoked_of_expectation hq', hone] at hzero
  exact Nat.one_ne_zero hzero

/-- **A relation binds the expectations that it names exactly if they are on one controller**,
whichever of its controllers have which other expectations, and whether it was registered on its
own or by the walk over a chain. -/
theorem binds_iff_same_controller (hcontrollers : ∀ c ∈ calls, c.controller < controllers)
    (hkeys : Distinguishable (calls.map (·.call)))
    (hs : s = expectingOnce kind config controllers counters calls)
    (ha : (s.collaborator.expectation? a).isSome) (hb : (s.collaborator.expectation? b).isSome)
    (hab : a ≠ b)
    (ht : t = (after a b s).state ∨ t = ((Handler.stage Producer.produce).register
      ((Node.chain [.single b, .single a]).propagate []).constraints s).state) :
    t.Binds a b ↔ a.controller = b.controller := by
  have hsparse (k : Nat) : (s.collaborator.ledger k).Sparse none :=
    hs ▸ sparse_expectingOnce hcontrollers hkeys k
  have huncalled (k : Nat) : ∀ e ∈ (s.collaborator.ledger k).calls, e.invoked = 0 := by
    rw [hs, calls_expectingOnce hcontrollers k, List.forall_mem_map]
    exact fun c _ => rfl
  have hrelated := collaborator_related hab ht
  have hsince := sparseSince_related hsparse ha hrelated
  have hb' := isSome_expectation_related hrelated hb
  constructor
  · exact same_controller_of_binds hsince hab hb' (invoked_related huncalled hrelated)
  · exact binds_of_same_controller hsince hab (isSome_expectation_related hrelated ha) hb'

end Binding

/-- The door is opened after a knock, both on the second controller; the bell on the first one
waits for nobody. -/
theorem open_bound_to_knock :
    Binds
      (after ⟨1, 0⟩ ⟨1, 1⟩ (expectingOnce .recording {} 2 0
        [⟨1, ⟨"door", "open", []⟩, some (.truth true)⟩, ⟨0, ⟨"bell", "ring", []⟩, none⟩,
          ⟨1, ⟨"door", "knock", []⟩, none⟩])).state
      ⟨1, 0⟩ ⟨1, 1⟩ :=
  (binds_iff_same_controller (by decide) (by decide) rfl rfl rfl (by decide) (Or.inl rfl)).mpr rfl

/-- The first expectations of two controllers have one number.  What should come second waits for
itself, and is refused although the other was called. -/
theorem waits_for_itself :
    let t := (after ⟨0, 0⟩ ⟨1, 0⟩ (expectingOnce .recording {} 2 0
      [⟨0, ⟨"s", "a", []⟩, none⟩, ⟨1, ⟨"s", "b", []⟩, none⟩])).state
    let u := t.afterCalls [(1, ⟨⟨"s", "b", []⟩, .unit⟩)]
    u.invoked ⟨1, 0⟩ = 1 ∧ u.invoked ⟨0, 0⟩ = 0 ∧
      (call 0 ⟨⟨"s", "a", []⟩, .unit⟩ u).result
        = .error (.fatal (.unexpectedCall ⟨"s", "a", []⟩
          [.pending ⟨"s", "a", []⟩ ⟨"s", "a", []⟩])) ∧
      ¬t.Binds ⟨0, 0⟩ ⟨1, 0⟩ := by
  refine ⟨rfl, rfl, rfl, fun h => ?_⟩
  obtain ⟨e, he, hcall⟩ := h.follows [(1, ⟨⟨"s", "b", []⟩, .unit⟩)] Nat.one_ne_zero rfl
  obtain rfl : _ = e := Option.some.inj he
  obtain ⟨hcounted, -⟩ := hcall ⟨⟨"s", "a", []⟩, .unit⟩ rfl
  exact absurd hcounted Nat.zero_ne_one

end Bench

end CallOrder
