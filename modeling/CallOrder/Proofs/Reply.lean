/-
What comes of a call.

A call is answered by the first expectation that admits it, or it is refused, and then each
expectation of its method has one objection to it: the first of four tests that it fails
(`Ledger.Objects`).  A refused call leaves nothing behind but what the reporter keeps
(`Bench.Stopped`).

A call that is answered leaves more than its result.  The expectation is counted and its
direct prerequisites are closed before any hook runs (`Bench.Counts`).  Then there are
three ways to fail: a hook may fail, after which no other runs, a hook may make a call
that changes expectations itself, and the stub may be of another type than was asked for
(`Bench.Answered`).  Whatever comes of it, what was counted and closed stays so, since the
hooks can do nothing to expectations but have them answer more calls
(`Told.since`).
-/
import CallOrder.Proofs.History
import CallOrder.Proofs.Nesting
import CallOrder.Proofs.Transcript

namespace CallOrder

/-! ### Objections -/

theorem Expectation.satisfied_iff {e : Expectation} :
    e.satisfied = true ↔ e.times ≤ e.invoked := by
  simp [satisfied]

theorem Expectation.not_satisfied_iff {e : Expectation} :
    e.satisfied = false ↔ e.invoked < e.times := by
  simp [satisfied]

namespace Ledger

open Expectation

variable {l : Ledger} {call : Signature} {e : Expectation} {reason : Reason}

/-- What it takes for an expectation to answer a call. -/
structure Admits (l : Ledger) (call : Signature) (e : Expectation) : Prop where
  method : e.call.sameMethod call = true
  arguments : e.call.sameArgs call = true
  unclosed : e.closed = false
  due : e.invoked < e.times
  ready : ∀ p ∈ e.prerequisites, ∃ q, l.calls[p]? = some q ∧ q.times ≤ q.invoked

/-- The first test that an expectation of the method fails. -/
inductive Objects (l : Ledger) (call : Signature) (e : Expectation) : Reason → Prop where
  | arguments (differ : e.call.sameArgs call = false) : Objects l call e (.otherArguments e.call)
  | closed (arguments : e.call.sameArgs call = true) (closed : e.closed = true) :
      Objects l call e (.successorCalled e.call)
  | exhausted (arguments : e.call.sameArgs call = true) (unclosed : e.closed = false)
      (satisfied : e.times ≤ e.invoked) : Objects l call e (.exhausted e.call)
  /-- The prerequisite is the first one that is not satisfied. -/
  | pending (arguments : e.call.sameArgs call = true) (unclosed : e.closed = false)
      (due : e.invoked < e.times) {before later : List Nat} {p : Nat} {q : Expectation}
      (first : e.prerequisites = before ++ p :: later)
      (ready : ∀ r ∈ before, ∃ f, l.calls[r]? = some f ∧ f.times ≤ f.invoked)
      (found : l.calls[p]? = some q) (unsatisfied : q.invoked < q.times) :
      Objects l call e (.pending e.call q.call)

theorem examine_eq_admitted_iff_admits : l.examine call e = .admitted ↔ l.Admits call e := by
  rw [examine_eq_admitted_iff, Signature.sameKey_iff_and, not_satisfied_iff]
  simp only [satisfied_iff]
  exact ⟨fun ⟨⟨hmethod, hargs⟩, hopen, hdue, hready⟩ => ⟨hmethod, hargs, hopen, hdue, hready⟩,
    fun h => ⟨⟨h.method, h.arguments⟩, h.unclosed, h.due, h.ready⟩⟩

instance : Decidable (l.Admits call e) :=
  match h : l.examine call e with
  | .admitted => isTrue (examine_eq_admitted_iff_admits.mp h)
  | .unrelated | .rejected _ | .dangling _ =>
    isFalse fun hadmits => by simp [examine_eq_admitted_iff_admits.mpr hadmits] at h

theorem split_of_firstPending {numbers : List Nat} {q : Expectation}
    (h : l.firstPending numbers = .ok (some q)) :
    ∃ before p later, numbers = before ++ p :: later ∧
      (∀ r ∈ before, ∃ f, l.calls[r]? = some f ∧ f.times ≤ f.invoked) ∧
      l.calls[p]? = some q ∧ q.invoked < q.times := by
  induction numbers with
  | nil => simp [firstPending] at h
  | cons p rest ih =>
      rw [firstPending] at h
      cases hp : l.calls[p]? with
      | none => simp [hp] at h
      | some f =>
          cases hf : f.satisfied with
          | true =>
              simp only [hp, hf, if_true] at h
              obtain ⟨before, r, later, rfl, hready, hr, hq⟩ := ih h
              refine ⟨p :: before, r, later, rfl, List.forall_mem_cons.mpr ⟨?_, hready⟩, hr, hq⟩
              exact ⟨f, hp, satisfied_iff.mp hf⟩
          | false =>
              obtain rfl : f = q := by simpa [hp, hf] using h
              exact ⟨[], p, rest, rfl, List.forall_mem_nil _, hp, not_satisfied_iff.mp hf⟩

/-- What an expectation says that neither answers nor is of another method. -/
theorem objects_of_examine (h : l.examine call e = .rejected reason) :
    e.call.sameMethod call = true ∧ l.Objects call e reason := by
  unfold examine at h
  cases hmethod : e.call.sameMethod call with
  | false => simp [hmethod] at h
  | true =>
  refine ⟨rfl, ?_⟩
  -- The tests in their order: each is the first that fails, or leads on to the next.
  cases hargs : e.call.sameArgs call with
  | false =>
      obtain rfl : _ = reason := by simpa [hmethod, hargs] using h
      exact .arguments hargs
  | true =>
  cases hclosed : e.closed with
  | true =>
      obtain rfl : _ = reason := by simpa [hmethod, hargs, hclosed] using h
      exact .closed hargs hclosed
  | false =>
  cases hsatisfied : e.satisfied with
  | true =>
      obtain rfl : _ = reason := by simpa [hmethod, hargs, hclosed, hsatisfied] using h
      exact .exhausted hargs hclosed (satisfied_iff.mp hsatisfied)
  | false =>
  rcases hpending : l.firstPending e.prerequisites with p | _ | q
  · simp [hmethod, hargs, hclosed, hsatisfied, hpending] at h
  · simp [hmethod, hargs, hclosed, hsatisfied, hpending] at h
  · obtain rfl : _ = reason := by simpa [hmethod, hargs, hclosed, hsatisfied, hpending] using h
    obtain ⟨before, p, later, hsplit, hready, hq, hdue⟩ := split_of_firstPending hpending
    exact .pending hargs hclosed (not_satisfied_iff.mp hsatisfied) hsplit hready hq hdue

theorem examine_eq_unrelated_iff :
    l.examine call e = .unrelated ↔ e.call.sameMethod call = false := by
  cases hmethod : e.call.sameMethod call with
  | false => simp [examine, hmethod]
  | true =>
      unfold examine
      simp only [hmethod]
      repeat' split
      all_goals simp_all

/-- A refusal holds one objection of each expectation of the method, in order. -/
theorem objects_of_judgeFrom {rest : List Expectation} {start : Nat} {reasons : List Reason}
    (h : l.judgeFrom call start rest = .refused reasons) :
    List.Forall₂ (l.Objects call) (rest.filter (·.call.sameMethod call)) reasons := by
  induction rest generalizing start reasons with
  | nil =>
      obtain rfl : [] = reasons := by simpa [judgeFrom] using h
      exact .nil
  | cons f rest ih =>
      rw [judgeFrom] at h
      cases hf : l.examine call f with
      | unrelated =>
          simp only [hf] at h
          rw [List.filter_cons_of_neg (by simp [examine_eq_unrelated_iff.mp hf])]
          exact ih h
      | admitted => simp [hf] at h
      | dangling p => simp [hf] at h
      | rejected reason =>
          obtain ⟨hmethod, hobjects⟩ := objects_of_examine hf
          simp only [hf] at h
          cases hrest : l.judgeFrom call (start + 1) rest with
          | accepted i e => simp [hrest] at h
          | dangling p => simp [hrest] at h
          | refused others =>
              obtain rfl : reason :: others = reasons := by simpa [hrest] using h
              rw [List.filter_cons, if_pos hmethod]
              exact .cons hobjects (ih hrest)

/-- **A call that no expectation admits is refused**, for one reason of each expectation of its
method. -/
theorem judge_of_none_admits (hl : l.Grounded) (h : ∀ e ∈ l.calls, ¬l.Admits call e) :
    ∃ reasons, l.judge call = .refused reasons ∧
      List.Forall₂ (l.Objects call) (l.calls.filter (·.call.sameMethod call)) reasons := by
  cases hjudge : l.judge call with
  | accepted i e =>
      obtain ⟨-, hget, hadmitted⟩ := judgeFrom_accepted hjudge
      have he : e ∈ l.calls := List.mem_of_getElem? hget
      exact absurd (examine_eq_admitted_iff_admits.mp hadmitted) (h e he)
  | dangling p => exact absurd hjudge (hl.judge_ne_dangling call p)
  | refused reasons => exact ⟨reasons, rfl, objects_of_judgeFrom hjudge⟩

/-- There is no reason exactly if there is no expectation of the method. -/
theorem isEmpty_reasons {reasons : List Reason}
    (h : List.Forall₂ (l.Objects call) (l.calls.filter (·.call.sameMethod call)) reasons) :
    reasons.isEmpty = !l.calls.any (·.call.sameMethod call) := by
  have hempty {es : List Expectation} (hes : List.Forall₂ (l.Objects call) es reasons) :
      reasons.isEmpty = es.isEmpty := by
    cases hes <;> rfl
  rw [hempty h, Bool.eq_iff_iff]
  simp [List.filter_eq_nil_iff]

end Ledger

theorem Complaint.message_unexpectedCall {call : Signature} {reasons : List Reason} {some : Bool}
    (h : reasons.isEmpty = !some) :
    (unexpectedCall call reasons).message =
      "unexpected call to " ++ call.text ++ " because: " ++
        if some then "\n".intercalate (reasons.map Reason.message)
        else "there are no expected calls of this method" := by
  unfold message
  cases some <;> simp [h]

/-! ### What calls do to expectations -/

/-- The same expectation, perhaps called more often and closed since. -/
structure Expectation.Since (e f : Expectation) : Prop where
  same : f = { e with invoked := f.invoked, closed := f.closed }
  invoked : e.invoked ≤ f.invoked
  closed : e.closed = true → f.closed = true

namespace Expectation.Since

variable {e f g : Expectation}

theorem refl (e : Expectation) : e.Since e :=
  ⟨rfl, Nat.le_refl _, id⟩

theorem trans (h : e.Since f) (h' : f.Since g) : e.Since g := by
  refine ⟨?_, Nat.le_trans h.invoked h'.invoked, fun hclosed => h'.closed (h.closed hclosed)⟩
  rw [h'.same, h.same]

end Expectation.Since

/-- Each expectation of the one ledger is still there in the other. -/
def Ledger.Since (l m : Ledger) : Prop :=
  ∀ (i : Nat) (e : Expectation), l.calls[i]? = some e → ∃ f, m.calls[i]? = some f ∧ e.Since f

theorem Ledger.Since.refl (l : Ledger) : l.Since l :=
  fun _ e he => ⟨e, he, .refl e⟩

theorem Ledger.Since.trans {l m n : Ledger} (h : l.Since m) (h' : m.Since n) : l.Since n := by
  intro i e he
  obtain ⟨f, hf, hef⟩ := h i e he
  obtain ⟨g, hg, hfg⟩ := h' i f hf
  exact ⟨g, hg, hef.trans hfg⟩

theorem Ledger.since_invoke (l : Ledger) (index : Nat) : l.Since (l.invoke index) := by
  cases hindex : l.calls[index]? with
  | none =>
      rw [invoke, hindex]
      exact .refl l
  | some e =>
      intro i f hf
      refine ⟨_, by rw [getElem?_invoke hindex, hf, Option.map_some], rfl, ?_, fun hclosed => ?_⟩
      · exact Nat.le_add_right _ _
      · simp [hclosed]

/-- Calls leave every expectation as it was, but for its count and its mark. -/
theorem Move.since_play {moves : List Move} (hmoves : ∀ m ∈ moves, m.change.IsAnswer)
    (ledgers : List Ledger) (controller : Nat) :
    (ledgers.getD controller {}).Since ((play moves ledgers).getD controller {}) := by
  induction moves generalizing ledgers with
  | nil => exact .refl _
  | cons m rest ih =>
      obtain ⟨hm, hrest⟩ := List.forall_mem_cons.mp hmoves
      refine Ledger.Since.trans ?_ (ih hrest (m.apply ledgers))
      rw [getD_apply]
      split
      · cases hchange : m.change with
        | answer call =>
            rw [Change.apply]
            split
            · exact Ledger.since_invoke _ _
            · exact .refl _
        | _ => simp [hchange, Change.IsAnswer] at hm
      · exact .refl _

theorem Told.since {before after : List Ledger} {events : List Event}
    (h : Told Move.IsAnswer before after events) (controller : Nat) :
    (before.getD controller {}).Since (after.getD controller {}) := by
  obtain ⟨moves, hmoves, rfl, -⟩ := h
  exact Move.since_play hmoves before controller

/-- Where nothing is allowed nothing changes. -/
theorem Told.eq {before after : List Ledger} {events : List Event}
    (h : Told (fun _ => False) before after events) : after = before := by
  obtain ⟨moves, hmoves, rfl, -⟩ := h
  rw [List.eq_nil_iff_forall_not_mem.mpr hmoves, Move.play]

namespace Bench

variable {allowed : Move → Prop} {args : List Value} {hook : Hook} {hooks : List Hook}

/-- A hook changes expectations by the calls that it makes, and in no other way. -/
theorem accounted_fire (h : ∀ controller request, hook = .reenter controller request →
      Attempt.Accounted allowed ledgers (call controller request)) :
    Attempt.Accounted allowed ledgers (hook.fire args) := by
  cases hook with
  | completion counter hook => exact accounted_onCounter counter (hook.silent_invoke _)
  | note tag => exact .of_silent (fun _ => rfl) fun _ => rfl
  | giveUp reason => exact .fail _
  | reenter controller request =>
      exact (h controller request rfl).caught.bind fun _ =>
        .of_silent (fun _ => rfl) fun _ => rfl

theorem accounted_fireAll (h : ∀ controller request, .reenter controller request ∈ hooks →
      Attempt.Accounted allowed ledgers (call controller request)) :
    Attempt.Accounted allowed ledgers (Hook.fireAll args hooks) := by
  induction hooks with
  | nil => exact .pure ()
  | cons hook rest ih =>
      refine (accounted_fire fun controller request hhook => ?_).bind fun _ =>
        ih fun controller request hmem => h controller request (List.mem_cons_of_mem _ hmem)
      exact h controller request (hhook ▸ List.mem_cons_self)

/-! ### The outcome -/

/-- The reporter was told of something after which nothing can go on, and that is all.  If it
records, it keeps it. -/
def Stopped (b : Bench) (c : Complaint) (o : Outcome Bench Returned) : Prop :=
  match b.reporter.kind with
  | .recording => o.result = .error (.fatal c) ∧
      o.state = { b with reporter := { b.reporter with failures := b.reporter.failures ++ [c] } }
  | .panicking => o.result = .error (.panic (.complaint c)) ∧ o.state = b

/-- The expectation of that number was counted and its prerequisites were closed, and nothing else
changed. -/
structure Counts (b : Bench) (controller index : Nat) (e : Expectation) (t : Bench) : Prop where
  expectations : ∀ id,
    t.collaborator.expectation? id = (b.collaborator.expectation? id).map fun f =>
    if id.controller = controller then
      { f with
        invoked := f.invoked + if id.index = index then 1 else 0
        closed := f.closed || decide (id.index ∈ e.prerequisites) }
    else f
  frame : t = b.modify fun s => { s with controllers := t.ledgers }

/-- What the call returns after its hooks: its stub if that is of the type asked for, the default
of that type if it has none. -/
def Returns (t : Bench) (request : Request) (stub : Option Returned) (o : Outcome Bench Returned) :
    Prop :=
  match stub with
  | none => o.result = .ok request.type.default ∧ o.state = t
  | some value =>
    if value.type = request.type then o.result = .ok value ∧ o.state = t
    else Stopped t (.wrongReturnType request.call.receiver request.call.method request.type) o

/-- What comes of a call that the expectation of that number answers. -/
structure Answered (b : Bench) (controller : Nat) (request : Request) (index : Nat)
    (e : Expectation) (o : Outcome Bench Returned) (counted : Bench) : Prop where
  counts : b.Counts controller index e counted
  /-- All hooks ran and the call returned, or one of them was the last that ran, and failed. -/
  hooks : (∃ t, (Hook.fireAll request.call.args e.hooks).Gives counted () t ∧
      t.Returns request e.stub o) ∨
    ∃ before hook later s f, e.hooks = before ++ hook :: later ∧
      (Hook.fireAll request.call.args before).Gives counted () s ∧
      (hook.fire request.call.args s).result = .error f ∧ o.result = .error f ∧
      o.state = (hook.fire request.call.args s).state
  /-- What was counted and closed stays so. -/
  stays : ∀ other, (counted.collaborator.ledger other).Since (o.state.collaborator.ledger other)
  /-- If no hook makes a call, no expectation changes any more. -/
  alone : (∀ other again, .reenter other again ∉ e.hooks) → o.state.ledgers = counted.ledgers

variable {b : Bench} {controller : Nat} {request : Request} {e : Expectation}

theorem stopped_fatal (b : Bench) (c : Complaint) : b.Stopped c (Handler.fatal c b) := by
  unfold Stopped
  cases hkind : b.reporter.kind <;>
    simp [Handler.fatal, Handler.onReporter, Attempt.on, Reporter.fatal, Attempt.bind_apply,
      Reporter.error, hkind, Outcome.after, Attempt.fail]

theorem returns_answer (t : Bench) (request : Request) (stub : Option Returned) :
    t.Returns request stub (answer request stub t) := by
  unfold Returns answer
  cases stub with
  | none => exact ⟨rfl, rfl⟩
  | some value =>
      by_cases htype : value.type = request.type
      · simp only [if_pos htype]
        exact ⟨rfl, rfl⟩
      · simp only [if_neg htype]
        exact stopped_fatal t _

theorem counts_invoke {index : Nat}
    (h : (b.collaborator.ledger controller).calls[index]? = some e) :
    b.Counts controller index e (b.modify (·.modify controller (·.invoke index))) := by
  refine ⟨fun id => ?_, rfl⟩
  show ((b.collaborator.modify controller (·.invoke index)).ledger id.controller).calls[id.index]?
    = (b.collaborator.expectation? id).map _
  by_cases hcontroller : id.controller = controller
  · simp only [hcontroller, if_true]
    rw [Switchboard.ledger_modify_self (Switchboard.lt_length_of_getElem? h),
      Ledger.getElem?_invoke h, Switchboard.expectation?, hcontroller]
    simp only [eq_comm (a := index)]
  · simp only [hcontroller, if_false]
    rw [Switchboard.ledger_modify_of_ne hcontroller, Option.map_id']
    rfl

/-- Hooks all succeed, or one of them is the last that runs. -/
theorem gives_fireAll_or (args : List Value) (hooks : List Hook) (b : Bench) :
    (∃ t, (Hook.fireAll args hooks).Gives b () t) ∨
      ∃ before hook later s f, hooks = before ++ hook :: later ∧
        (Hook.fireAll args before).Gives b () s ∧ (hook.fire args s).result = .error f ∧
        (Hook.fireAll args hooks b).result = .error f ∧
        (Hook.fireAll args hooks b).state = (hook.fire args s).state := by
  induction hooks generalizing b with
  | nil => exact Or.inl ⟨b, Attempt.gives_pure_iff.mpr ⟨rfl, rfl⟩⟩
  | cons hook rest ih =>
      rcases hfire : hook.fire args b with ⟨f | u, t, events⟩
      · refine Or.inr ⟨[], hook, rest, b, f, rfl, ⟨[], rfl⟩, by rw [hfire], ?_, ?_⟩
        · rw [Hook.fireAll, Attempt.bind_apply, hfire]
        · rw [Hook.fireAll, Attempt.bind_apply, hfire]
      · have hfirst : (hook.fire args).Gives b () t := ⟨events, hfire⟩
        rcases ih t with
          ⟨t', hrest⟩ | ⟨before, last, later, s, f, rfl, hbefore, hlast, hresult, hstate⟩
        · exact Or.inl ⟨t', Attempt.gives_bind_iff.mpr ⟨(), t, hfirst, hrest⟩⟩
        · refine Or.inr ⟨hook :: before, last, later, s, f, rfl, ?_, hlast, ?_, ?_⟩
          · exact Attempt.gives_bind_iff.mpr ⟨(), t, hfirst, hbefore⟩
          · rw [Hook.fireAll, Attempt.bind_apply, hfire]
            exact hresult
          · rw [Hook.fireAll, Attempt.bind_apply, hfire]
            exact hstate

/-- Where all hooks succeed the call returns, and where one fails it fails with that. -/
theorem sequel_or (request : Request) (e : Expectation) (b : Bench) :
    (∃ t, (Hook.fireAll request.call.args e.hooks).Gives b () t ∧
      t.Returns request e.stub (sequel request e b)) ∨
    ∃ before hook later s f, e.hooks = before ++ hook :: later ∧
      (Hook.fireAll request.call.args before).Gives b () s ∧
      (hook.fire request.call.args s).result = .error f ∧ (sequel request e b).result = .error f ∧
      (sequel request e b).state = (hook.fire request.call.args s).state := by
  rcases gives_fireAll_or request.call.args e.hooks b with
    ⟨t, events, hall⟩ | ⟨before, hook, later, s, f, hsplit, hbefore, hlast, hresult, hstate⟩
  · refine Or.inl ⟨t, ⟨events, hall⟩, ?_⟩
    have hserved : sequel request e b = (answer request e.stub t).after events := by
      rw [sequel, Attempt.bind_apply, hall]
    rw [hserved]
    exact returns_answer t request e.stub
  · refine Or.inr ⟨before, hook, later, s, f, hsplit, hbefore, hlast, ?_⟩
    rcases hall : Hook.fireAll request.call.args e.hooks b with ⟨g | u, t, events⟩
    · rw [hall] at hresult hstate
      obtain rfl : g = f := Except.error.inj hresult
      rw [sequel, Attempt.bind_apply, hall]
      exact ⟨rfl, hstate⟩
    · rw [hall] at hresult
      cases hresult

theorem accounted_sequel (h : ∀ controller request, .reenter controller request ∈ e.hooks →
      Attempt.Accounted allowed ledgers (call controller request)) :
    Attempt.Accounted allowed ledgers (sequel request e) :=
  (accounted_fireAll h).bind fun _ => accounted_answer _ _

/-- **A call that an expectation answers takes effect before its hooks run, and whatever these do,
the effect stays.** -/
theorem answered_of_judge {index : Nat}
    (h : (b.collaborator.ledger controller).judge request.call = .accepted index e) :
    b.Answered controller request index e (call controller request b)
      (b.modify (·.modify controller (·.invoke index))) := by
  rw [call_of_judge h]
  refine ⟨counts_invoke (Ledger.judge_accepted h).1, sequel_or request e _, fun other => ?_,
    fun halone => ?_⟩
  · exact (accounted_sequel (fun _ _ _ => accounted_call _ _) _).since other
  · exact (accounted_sequel (fun other again hmem => absurd hmem (halone other again)) _).eq

/-- **What comes of a call, matched or not.**

Let all prerequisites of a controller's expectations be numbers of its expectations.  A call is
answered by the first expectation that admits it.  That one is counted and its direct prerequisites
are closed, and nothing else changes, before its hooks run in order, up to and including the first
that fails.  Then the call fails with that, or else it returns, unless the stub is of another type.
What was counted and closed stays so in either case.

If no expectation admits the call, the reporter is told of one reason of each expectation of the
method, in the order of declaration, which is the first test that it fails, and nothing else
happens. -/
theorem call_outcome (b : Bench) (controller : Nat) (request : Request)
    (hgrounded : (b.collaborator.ledger controller).Grounded) :
    (∀ (index : Nat) (e : Expectation),
      (b.collaborator.ledger controller).calls[index]? = some e →
      (b.collaborator.ledger controller).Admits request.call e →
      (∀ i < index, ∀ f, (b.collaborator.ledger controller).calls[i]? = some f →
        ¬(b.collaborator.ledger controller).Admits request.call f) →
      ∃ counted, b.Answered controller request index e (call controller request b) counted) ∧
    ((∀ e ∈ (b.collaborator.ledger controller).calls,
        ¬(b.collaborator.ledger controller).Admits request.call e) →
      ∃ reasons, List.Forall₂ ((b.collaborator.ledger controller).Objects request.call)
          ((b.collaborator.ledger controller).calls.filter (·.call.sameMethod request.call))
          reasons ∧
        b.Stopped (.unexpectedCall request.call reasons) (call controller request b) ∧
        (Complaint.unexpectedCall request.call reasons).message =
          "unexpected call to " ++ request.call.text ++ " because: " ++
            if (b.collaborator.ledger controller).calls.any (·.call.sameMethod request.call) then
              "\n".intercalate (reasons.map Reason.message)
            else "there are no expected calls of this method") := by
  refine ⟨fun index e hget hadmits hfirst => ?_, fun hnone => ?_⟩
  · have hjudge : (b.collaborator.ledger controller).judge request.call = .accepted index e := by
      simp only [Ledger.judge_eq_accepted_iff hgrounded, ne_eq,
        Ledger.examine_eq_admitted_iff_admits]
      exact ⟨hget, hadmits, hfirst⟩
    exact ⟨_, answered_of_judge hjudge⟩
  · obtain ⟨reasons, hjudge, hobjects⟩ := Ledger.judge_of_none_admits hgrounded hnone
    refine ⟨reasons, hobjects, ?_, ?_⟩
    · rw [call_of_refused hjudge]
      exact stopped_fatal b _
    · exact Complaint.message_unexpectedCall (Ledger.isEmpty_reasons hobjects)

/-- Someone is expected at the door: to come in once, which was done, to knock once with a letter
and once with a parcel, each after coming in the second time, and then to leave. -/
def doorway : Bench :=
  let came : Expectation := { call := ⟨"door", "come", []⟩, invoked := 1 }
  let again : Expectation := { call := ⟨"door", "come", []⟩ }
  let knock (what : String) : Expectation :=
    { call := ⟨"door", "knock", [.text what]⟩, prerequisites := [0, 1] }
  let leave : Expectation :=
    { call := ⟨"door", "leave", []⟩, prerequisites := [0], stub := some (.number 3)
      hooks := [.note "left", .giveUp "stuck", .note "gone"] }
  { collaborator := { controllers := [⟨[came, again, knock "letter", knock "parcel", leave]⟩] } }

/-- To knock with a letter is too early.  To leave fails where a hook gives up, so the last hook
does not run, but it is counted, and no one comes in the first time any more. -/
theorem leave_through_doorway :
    let knock : Request := ⟨⟨"door", "knock", [.text "letter"]⟩, .text⟩
    let left := call 0 ⟨⟨"door", "leave", []⟩, .text⟩ doorway
    (∃ reasons, List.Forall₂ ((doorway.collaborator.ledger 0).Objects knock.call)
        ((doorway.collaborator.ledger 0).calls.filter (·.call.sameMethod knock.call)) reasons ∧
      reasons.length = 2 ∧
      doorway.Stopped (.unexpectedCall knock.call reasons) (call 0 knock doorway)) ∧
    left.result = .error (.panic (.reason "stuck")) ∧ left.state.collaborator.notes.length = 1 ∧
    (left.state.collaborator.expectation? ⟨0, 4⟩).map (·.invoked) = some 1 ∧
    (left.state.collaborator.expectation? ⟨0, 0⟩).map (·.closed) = some true ∧
    (left.state.collaborator.expectation? ⟨0, 1⟩).map (·.closed) = some false := by
  intro knock left
  have hgrounded : (doorway.collaborator.ledger 0).Grounded := by
    simp [Ledger.Grounded, doorway, Switchboard.ledger]
  obtain ⟨-, hrefused⟩ := call_outcome doorway 0 knock hgrounded
  obtain ⟨hanswered, -⟩ := call_outcome doorway 0 ⟨⟨"door", "leave", []⟩, .text⟩ hgrounded
  constructor
  · obtain ⟨reasons, hobjects, hstopped, -⟩ := hrefused (by decide +kernel)
    refine ⟨reasons, hobjects, ?_, hstopped⟩
    rw [← hobjects.length_eq]
    decide +kernel
  · obtain ⟨counted, h⟩ := hanswered 4 _ rfl (by decide +kernel) (by decide +kernel)
    have hexpectation (id : CallId) :
        left.state.collaborator.expectation? id = counted.collaborator.expectation? id :=
      congrArg (fun ledgers : List Ledger => (ledgers.getD id.controller {}).calls[id.index]?)
        (h.alone (by simp))
    simp only [hexpectation, h.counts.expectations]
    exact ⟨rfl, by decide +kernel, by decide +kernel, by decide +kernel, by decide +kernel⟩

end Bench

end CallOrder
