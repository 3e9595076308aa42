/-
Runs of calls on a bench.

A call does more than the ledger: it runs hooks, hands out a stub and tells the
reporter.  Where the expectations have no hooks and the caller asks for the type that
the stub has, none of that can fail, and what is left of a run of calls is the run of
the ledger: the calls are all answered, with nothing missing at the end, exactly if
the ledger answers them and misses nothing (`admits_iff_answered`).
-/
import CallOrder.CallPlan
import CallOrder.Proofs.Extension

namespace CallOrder

namespace Attempt

variable {σ ι α : Type} {act : ι → Attempt σ α} {i : ι} {rest : List ι} {s : σ}

/-- Where the first attempt succeeds, the attempts come to what the others come to. -/
theorem forEach_cons_ok_iff {a : α} {t : σ} {events : List Event} {P : σ → Prop}
    (h : act i s = ⟨.ok a, t, events⟩) :
    (∃ values u later, forEach act (i :: rest) s = ⟨.ok values, u, later⟩ ∧ P u) ↔
      ∃ values u later, forEach act rest t = ⟨.ok values, u, later⟩ ∧ P u := by
  simp only [forEach, bind_apply, h]
  rcases forEach act rest t with ⟨f | values, u, later⟩
  · simp [Outcome.after]
  · simp [Outcome.after, pure_apply]

/-- Where the first attempt fails, none of the others is made. -/
theorem forEach_cons_of_error {f : Failure} (h : (act i s).result = .error f) :
    forEach act (i :: rest) s = ⟨.error f, (act i s).state, (act i s).events⟩ := by
  rw [forEach, bind_apply]
  rcases hact : act i s with ⟨f' | a, t, events⟩
  · obtain rfl : f' = f := by simpa [hact] using h
    rfl
  · simp [hact] at h

/-- Attempts that may fail go on from where the one before stopped. -/
theorem state_forEachCaught_cons (act : ι → Attempt σ α) (i : ι) (rest : List ι) (s : σ) :
    (forEachCaught act (i :: rest) s).state = (forEachCaught act rest (act i s).state).state := by
  simp only [forEachCaught, forEach, bind_apply, caught, Outcome.after]
  rcases forEach (fun i => (act i).caught) rest (act i s).state with ⟨f | values, t, events⟩ <;> rfl

theorem result_forEachCaught_cons (act : ι → Attempt σ α) (i : ι) (rest : List ι) (s : σ) :
    (forEachCaught act (i :: rest) s).result =
      (forEachCaught act rest (act i s).state).result.map ((act i s).result :: ·) := by
  simp only [forEachCaught, forEach, bind_apply, caught, Outcome.after]
  rcases forEach (fun i => (act i).caught) rest (act i s).state with ⟨f | values, t, events⟩ <;> rfl

end Attempt

namespace Switchboard

variable {s : Switchboard} {controller : Nat}

theorem length_modify (s : Switchboard) (controller : Nat) (change : Ledger → Ledger) :
    (s.modify controller change).controllers.length = s.controllers.length := by
  simp [modify]

theorem ledger_modify_self (h : controller < s.controllers.length) (change : Ledger → Ledger) :
    (s.modify controller change).ledger controller = change (s.ledger controller) := by
  simp [modify, ledger, List.getD_eq_getElem?_getD, h]

theorem ledger_modify_of_ne {k : Nat} (h : k ≠ controller) (change : Ledger → Ledger) :
    (s.modify controller change).ledger k = s.ledger k := by
  simp [modify, ledger, List.getD_eq_getElem?_getD, h.symm]

theorem modify_modify (s : Switchboard) (controller : Nat) (f g : Ledger → Ledger) :
    (s.modify controller f).modify controller g = s.modify controller (g ∘ f) := by
  simp only [modify, List.modify_modify_eq]

/-- Two changes that do the same to a controller's ledger are the same change. -/
theorem modify_congr {s : Switchboard} {controller : Nat} {f g : Ledger → Ledger}
    (h : f (s.ledger controller) = g (s.ledger controller)) :
    s.modify controller f = s.modify controller g := by
  have hcontrollers : s.controllers.modify controller f = s.controllers.modify controller g := by
    refine List.ext_getElem? fun k => ?_
    rw [List.getElem?_modify, List.getElem?_modify]
    by_cases hk : controller = k
    · subst hk
      cases hc : s.controllers[controller]? with
      | none => rfl
      | some l =>
          obtain rfl : s.ledger controller = l := by
            simp [ledger, List.getD_eq_getElem?_getD, hc]
          simpa using h
    · simp only [hk, if_false]
  simp only [modify, hcontrollers]

/-- A change that keeps the number of expectations of a controller keeps it of all. -/
theorem length_ledger_modify {change : Ledger → Ledger}
    (h : ∀ l, (change l).calls.length = l.calls.length) (k : Nat) :
    ((s.modify controller change).ledger k).calls.length = (s.ledger k).calls.length := by
  simp only [ledger, modify, List.getD_eq_getElem?_getD, List.getElem?_modify]
  cases s.controllers[k]? with
  | none => rfl
  | some l => by_cases hk : controller = k <;> simp [hk, h]

/-- A number that stands for no controller has nothing to answer with. -/
theorem lt_length_of_getElem? {i : Nat} {e : Expectation}
    (h : (s.ledger controller).calls[i]? = some e) : controller < s.controllers.length := by
  by_contra hlt
  have hnone : s.controllers[controller]? = none := List.getElem?_eq_none (Nat.not_lt.mp hlt)
  rw [ledger, List.getD_eq_getElem?_getD, hnone] at h
  simp at h

end Switchboard

namespace Ledger

/-- No expectation has a side effect. -/
def Hookless (l : Ledger) : Prop :=
  ∀ e ∈ l.calls, e.hooks = []

/-- The request asks for the type that the stub has, if there is one. -/
def Suits (l : Ledger) (request : Request) : Prop :=
  ∀ e ∈ l.calls, e.call.sameKey request.call = true →
    ∀ stub, e.stub = some stub → stub.type = request.type

instance (l : Ledger) (request : Request) : Decidable (l.Suits request) :=
  inferInstanceAs <| Decidable (∀ e ∈ l.calls, e.call.sameKey request.call = true →
    ∀ stub ∈ e.stub, stub.type = request.type)

variable {l : Ledger} {request : Request} {i : Nat}

/-- Answering a call changes no side effect and no stub. -/
theorem mem_invoke {f : Expectation} (hf : f ∈ (l.invoke i).calls) :
    ∃ e ∈ l.calls, f.call = e.call ∧ f.hooks = e.hooks ∧ f.stub = e.stub := by
  cases hi : l.calls[i]? with
  | none =>
      rw [invoke, hi] at hf
      exact ⟨f, hf, rfl, rfl, rfl⟩
  | some e =>
      obtain ⟨j, hj⟩ := List.mem_iff_getElem?.mp hf
      rw [getElem?_invoke hi, Option.map_eq_some_iff] at hj
      obtain ⟨g, hg, rfl⟩ := hj
      exact ⟨g, List.mem_of_getElem? hg, rfl, rfl, rfl⟩

theorem Hookless.invoke (h : l.Hookless) (i : Nat) : (l.invoke i).Hookless := by
  intro f hf
  obtain ⟨e, he, -, hhooks, -⟩ := mem_invoke hf
  rw [hhooks]
  exact h e he

theorem Suits.invoke (h : l.Suits request) (i : Nat) : (l.invoke i).Suits request := by
  intro f hf
  obtain ⟨e, he, hcall, -, hstub⟩ := mem_invoke hf
  rw [hcall, hstub]
  exact h e he

theorem sameKey_of_judge {e : Expectation} (h : l.judge request.call = .accepted i e) :
    e ∈ l.calls ∧ e.call.sameKey request.call = true := by
  obtain ⟨-, hget, hadm⟩ := judgeFrom_accepted h
  exact ⟨List.mem_of_getElem? hget, (examine_eq_admitted_iff.mp hadm).1⟩

end Ledger

/-- The reporter is told of nothing exactly if there is nothing to tell. -/
theorem Reporter.errors_eq_iff {complaints : List Complaint} {r : Reporter} :
    Reporter.errors complaints r = ⟨.ok (), r, []⟩ ↔ complaints = [] := by
  constructor
  · intro h
    cases complaints with
    | nil => rfl
    | cons c rest =>
        cases hkind : r.kind with
        | recording =>
            simp [Reporter.errors, Attempt.bind_apply, Reporter.error, hkind, Outcome.after] at h
        | panicking =>
            simp [Reporter.errors, Attempt.bind_apply, Reporter.error, hkind] at h
  · rintro rfl
    rfl

/-- What is fatal fails, whatever the reporter does. -/
theorem Handler.fatal_fails {κ α : Type} (c : Complaint) (h : Handler κ) :
    ∃ f, (Handler.fatal c h : Outcome (Handler κ) α).result = .error f := by
  cases hkind : h.reporter.kind <;>
    simp [Handler.fatal, Handler.onReporter, Attempt.on, Reporter.fatal, Attempt.bind_apply,
      Reporter.error, hkind, Outcome.after, Attempt.fail]

namespace Bench

variable {b : Bench} {controller : Nat} {request : Request}

theorem call_eq_of_callWithin {o : Outcome Bench Returned}
    (h : callWithin (b.remaining + 1) controller request b = some o) :
    call controller request b = o := by
  simp [call, h]

/-- A call that is answered without side effects is counted, and then comes to what its stub
says. -/
theorem call_of_hookless {i : Nat} {e : Expectation}
    (h : (b.collaborator.ledger controller).judge request.call = .accepted i e)
    (hhooks : e.hooks = []) :
    call controller request b =
      (answer request e.stub (b.modify (·.modify controller (·.invoke i)))).after
        [.matched request.call.receiver request.call.method i (e.invoked + 1)] := by
  refine call_eq_of_callWithin ?_
  simp only [callWithin, h, serve, hhooks, runHooks, Option.bind_eq_bind, Option.bind_some]
  rfl

/-- Whatever it comes to, the call is counted and nothing else changes for the controllers. -/
theorem collaborator_call_of_accepted {i : Nat} {e : Expectation}
    (h : (b.collaborator.ledger controller).judge request.call = .accepted i e)
    (hhooks : e.hooks = []) :
    (call controller request b).state.collaborator
      = b.collaborator.modify controller (·.invoke i) := by
  rw [call_of_hookless h hhooks]
  exact collaborator_answer request e.stub _

/-- A call that is answered without side effects gives the stub, or the default of the type
asked for. -/
theorem call_of_accepted {i : Nat} {e : Expectation}
    (h : (b.collaborator.ledger controller).judge request.call = .accepted i e)
    (hhooks : e.hooks = []) (hstub : ∀ stub, e.stub = some stub → stub.type = request.type) :
    call controller request b =
      ⟨.ok (e.stub.getD request.type.default), b.modify (·.modify controller (·.invoke i)),
        [.matched request.call.receiver request.call.method i (e.invoked + 1)]⟩ := by
  rw [call_of_hookless h hhooks]
  cases hs : e.stub with
  | none => rfl
  | some stub =>
      simp only [answer, hstub stub hs, if_true]
      rfl

theorem call_of_refused {reasons : List Reason}
    (h : (b.collaborator.ledger controller).judge request.call = .refused reasons) :
    call controller request b =
      (Handler.fatal (.unexpectedCall request.call reasons) b).after
        [.unexpected request.call.receiver request.call.method] :=
  call_eq_of_callWithin (by simp only [callWithin, h])

theorem call_of_dangling {p : Nat}
    (h : (b.collaborator.ledger controller).judge request.call = .dangling p) :
    call controller request b =
      ⟨.error (.panic (.noSuchExpectation (b.collaborator.ledger controller).calls.length p)),
        b, []⟩ :=
  call_eq_of_callWithin (by simp only [callWithin, h])

/-- A call that no expectation answers fails. -/
theorem call_of_not_accepted
    (h : ∀ i e, (b.collaborator.ledger controller).judge request.call ≠ .accepted i e) :
    ∃ f, (call controller request b).result = .error f := by
  cases hj : (b.collaborator.ledger controller).judge request.call with
  | accepted i e => exact absurd hj (h i e)
  | dangling p => exact ⟨_, by rw [call_of_dangling hj]⟩
  | refused reasons =>
      rw [call_of_refused hj]
      exact Handler.fatal_fails _ b

/-- It touches nothing but the reporter. -/
theorem state_call_of_not_accepted
    (h : ∀ i e, (b.collaborator.ledger controller).judge request.call ≠ .accepted i e) :
    (call controller request b).state.collaborator = b.collaborator ∧
      (call controller request b).state.completion = b.completion := by
  cases hj : (b.collaborator.ledger controller).judge request.call with
  | accepted i e => exact absurd hj (h i e)
  | dangling p =>
      rw [call_of_dangling hj]
      exact ⟨rfl, rfl⟩
  | refused reasons =>
      rw [call_of_refused hj]
      exact ⟨rfl, rfl⟩

/-- Without side effects, a call counts the expectation that answers it, or changes nothing for the
controllers. -/
theorem collaborator_call_cases (hhooks : (b.collaborator.ledger controller).Hookless) :
    (∃ i e, (b.collaborator.ledger controller).judge request.call = .accepted i e ∧
      (call controller request b).state.collaborator
        = b.collaborator.modify controller (·.invoke i)) ∨
      (call controller request b).state.collaborator = b.collaborator := by
  by_cases hj : ∃ i e, (b.collaborator.ledger controller).judge request.call = .accepted i e
  · obtain ⟨i, e, hj⟩ := hj
    have hown := hhooks e (Ledger.sameKey_of_judge hj).1
    exact Or.inl ⟨i, e, hj, collaborator_call_of_accepted hj hown⟩
  · push Not at hj
    exact Or.inr (state_call_of_not_accepted hj).1

/-- Requests made one after another are all answered, and the controller has nothing to complain
of after them. -/
def Admits (b : Bench) (controller : Nat) (requests : List Request) : Prop :=
  ∃ values t events, Attempt.forEach (call controller) requests b = ⟨.ok values, t, events⟩ ∧
    verify controller t = ⟨.ok (), t, []⟩

/-- A controller has nothing to complain of exactly if nothing is missing. -/
theorem verify_eq_iff :
    verify controller b = ⟨.ok (), b, []⟩ ↔ (b.collaborator.ledger controller).missing = [] := by
  have hverify : verify controller b = Handler.onReporter
      (Reporter.errors (b.collaborator.ledger controller).missing) b := rfl
  rw [hverify]
  constructor
  · intro h
    have hon : Reporter.errors (b.collaborator.ledger controller).missing b.reporter
        = ⟨.ok (), b.reporter, []⟩ := by
      simp only [Handler.onReporter, Attempt.on, Outcome.mk.injEq] at h
      obtain ⟨hresult, hstate, hevents⟩ := h
      have hreporter := congrArg Handler.reporter hstate
      cases hr : Reporter.errors (b.collaborator.ledger controller).missing b.reporter
      simp_all
    exact Reporter.errors_eq_iff.mp hon
  · intro h
    rw [h]
    rfl

/-- A call whose stub is of another type than was asked for fails. -/
theorem call_of_mistyped {i : Nat} {e : Expectation} {stub : Returned}
    (h : (b.collaborator.ledger controller).judge request.call = .accepted i e)
    (hhooks : e.hooks = []) (hstub : e.stub = some stub) (htype : stub.type ≠ request.type) :
    ∃ f, (call controller request b).result = .error f := by
  rw [call_of_hookless h hhooks, hstub]
  simp only [answer, if_neg htype]
  exact Handler.fatal_fails _ _

/-- The controller's expectations after one more was called. -/
theorem ledger_counted {i : Nat} {e : Expectation}
    (h : (b.collaborator.ledger controller).judge request.call = .accepted i e) :
    (b.modify (·.modify controller (·.invoke i))).collaborator.ledger controller
      = (b.collaborator.ledger controller).invoke i := by
  obtain ⟨he, -⟩ := Ledger.sameKey_of_judge h
  obtain ⟨k, hk⟩ := List.mem_iff_getElem?.mp he
  exact Switchboard.ledger_modify_self (Switchboard.lt_length_of_getElem? hk) _

theorem admits_nil_iff :
    b.Admits controller [] ↔ (b.collaborator.ledger controller).missing = [] := by
  constructor
  · intro h
    obtain ⟨values, t, events, h, hverify⟩ := h
    obtain ⟨-, rfl, -⟩ : _ ∧ b = t ∧ _ := by
      simpa [Attempt.forEach, Attempt.pure_apply] using h
    exact verify_eq_iff.mp hverify
  · intro h
    exact ⟨[], b, [], rfl, verify_eq_iff.mpr h⟩

/-- A run of which the first call fails is not admitted. -/
theorem not_admits_of_error {rest : List Request} {f : Failure}
    (h : (call controller request b).result = .error f) :
    ¬b.Admits controller (request :: rest) := by
  rintro ⟨values, t, events, hrun, -⟩
  rw [Attempt.forEach_cons_of_error h] at hrun
  simp at hrun

/-- Without side effects, a run that is admitted is a run of the ledger. -/
theorem answered_of_admits {requests : List Request}
    (hhooks : (b.collaborator.ledger controller).Hookless) (h : b.Admits controller requests) :
    ∃ l', Ledger.answered (requests.map (·.call)) (b.collaborator.ledger controller) = some l' ∧
      l'.missing = [] := by
  induction requests generalizing b with
  | nil => exact ⟨_, rfl, admits_nil_iff.mp h⟩
  | cons r rest ih =>
      simp only [List.map_cons, Ledger.answered]
      cases hj : (b.collaborator.ledger controller).judge r.call with
      | accepted i e =>
          have hown := hhooks e (Ledger.sameKey_of_judge hj).1
          by_cases hstub : ∀ stub, e.stub = some stub → stub.type = r.type
          · have hnext := (Attempt.forEach_cons_ok_iff (call_of_accepted hj hown hstub)).mp h
            have hledger := ledger_counted hj
            have hrest := ih (by rw [hledger]; exact hhooks.invoke i) hnext
            rw [hledger] at hrest
            exact hrest
          · push Not at hstub
            obtain ⟨stub, hstub, htype⟩ := hstub
            obtain ⟨f, hf⟩ := call_of_mistyped hj hown hstub htype
            exact absurd h (not_admits_of_error hf)
      | refused reasons =>
          have hno : ∀ i e, (b.collaborator.ledger controller).judge r.call ≠ .accepted i e := by
            simp [hj]
          obtain ⟨f, hf⟩ := call_of_not_accepted hno
          exact absurd h (not_admits_of_error hf)
      | dangling p =>
          have hno : ∀ i e, (b.collaborator.ledger controller).judge r.call ≠ .accepted i e := by
            simp [hj]
          obtain ⟨f, hf⟩ := call_of_not_accepted hno
          exact absurd h (not_admits_of_error hf)

/-- Without side effects, a run of the ledger is admitted if it asks for the types of the
stubs. -/
theorem admits_of_answered {requests : List Request} {l' : Ledger}
    (hhooks : (b.collaborator.ledger controller).Hookless)
    (hsuits : ∀ r ∈ requests, (b.collaborator.ledger controller).Suits r)
    (h : Ledger.answered (requests.map (·.call)) (b.collaborator.ledger controller) = some l')
    (hmissing : l'.missing = []) : b.Admits controller requests := by
  induction requests generalizing b with
  | nil =>
      obtain rfl : b.collaborator.ledger controller = l' := by simpa [Ledger.answered] using h
      exact admits_nil_iff.mpr hmissing
  | cons r rest ih =>
      simp only [List.map_cons, Ledger.answered] at h
      cases hj : (b.collaborator.ledger controller).judge r.call with
      | accepted i e =>
          simp only [hj] at h
          obtain ⟨he, hkey⟩ := Ledger.sameKey_of_judge hj
          have hledger := ledger_counted hj
          have hcall := call_of_accepted hj (hhooks e he) (hsuits r (by simp) e he hkey)
          refine (Attempt.forEach_cons_ok_iff hcall).mpr (ih ?_ ?_ ?_)
          · rw [hledger]
            exact hhooks.invoke i
          · intro r' hr'
            rw [hledger]
            exact (hsuits r' (List.mem_cons_of_mem _ hr')).invoke i
          · rw [hledger]
            exact h
      | refused reasons => simp [hj] at h
      | dangling p => simp [hj] at h

/-- **Without side effects, a run of calls is the run of the ledger.** -/
theorem admits_iff_answered {requests : List Request}
    (hhooks : (b.collaborator.ledger controller).Hookless)
    (hsuits : ∀ r ∈ requests, (b.collaborator.ledger controller).Suits r) :
    b.Admits controller requests ↔
      ∃ l', Ledger.answered (requests.map (·.call)) (b.collaborator.ledger controller) = some l' ∧
        l'.missing = [] := by
  constructor
  · exact answered_of_admits hhooks
  · intro h
    obtain ⟨l', h, hmissing⟩ := h
    exact admits_of_answered hhooks hsuits h hmissing

end Bench

end CallOrder
