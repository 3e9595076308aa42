/-
Expectations that are set up one operation at a time, before anything is called.

Declaring, setting how often, setting what is returned and ordering can come in any
order, and an operation that names a call which was not declared yet fails and changes
nothing.  What they leave is an arrangement (`Ledger.Arranged`): nothing was called, and
the prerequisites are the relations that were registered.  Each operation keeps it, and
none of them attaches a hook, so a bench that was set up in this way admits exactly the
linear extensions of what was registered (`admits_iff_linear_extension`), be there
cycles among it or calls that are never to be made.
-/
import CallOrder.Proofs.Run
import CallOrder.Session

namespace CallOrder

namespace Ledger

theorem exists_of_mem_modify {l : Ledger} {index : Nat} {change : Expectation → Expectation}
    {f : Expectation} (hf : f ∈ (l.modify index change).calls) :
    ∃ e ∈ l.calls, f = e ∨ f = change e := by
  obtain ⟨i, hi⟩ := List.mem_iff_getElem?.mp hf
  rw [Ledger.modify, List.getElem?_modify, Option.map_eq_map, Option.map_eq_some_iff] at hi
  obtain ⟨e, he, rfl⟩ := hi
  refine ⟨e, List.mem_of_getElem? he, ?_⟩
  split
  · exact Or.inr rfl
  · exact Or.inl rfl

/-- What holds of all expectations, and is kept by a change, holds after changing one. -/
theorem forall_mem_modify {l : Ledger} {index : Nat} {change : Expectation → Expectation}
    {P : Expectation → Prop} (h : ∀ e ∈ l.calls, P e) (hchange : ∀ e, P e → P (change e)) :
    ∀ e ∈ (l.modify index change).calls, P e := by
  intro f hf
  obtain ⟨e, he, rfl | rfl⟩ := exists_of_mem_modify hf
  · exact h f he
  · exact hchange e (h e he)

/-- What does not depend on prerequisites is kept by a relation. -/
theorem forall_mem_after {l : Ledger} {index predecessor : Nat} {P : Expectation → Prop}
    (h : ∀ e ∈ l.calls, P e) (hchange : ∀ e prerequisites, P e → P { e with prerequisites }) :
    ∀ e ∈ (l.after index predecessor).calls, P e := by
  refine forall_mem_modify h fun e he => ?_
  split
  · exact he
  · exact hchange e _ he

theorem length_after (l : Ledger) (i p : Nat) : (l.after i p).calls.length = l.calls.length := by
  simp [after, modify]

/-- A relation adds one prerequisite at one place, if it is not there yet. -/
theorem getElem?_after (l : Ledger) (i p j : Nat) :
    (l.after i p).calls[j]? = l.calls[j]?.map fun f =>
      { f with
        prerequisites :=
          if i = j ∧ p ∉ f.prerequisites then f.prerequisites ++ [p] else f.prerequisites } := by
  rw [after, modify, List.getElem?_modify]
  cases l.calls[j]? with
  | none => rfl
  | some f => by_cases hij : i = j <;> by_cases hold : p ∈ f.prerequisites <;> simp [hij, hold]

theorem exists_of_getElem?_after {l : Ledger} {i p j : Nat} {e : Expectation}
    (he : (l.after i p).calls[j]? = some e) :
    ∃ f, l.calls[j]? = some f ∧ e = { f with prerequisites := e.prerequisites } ∧
      ∀ q, q ∈ e.prerequisites ↔ q ∈ f.prerequisites ∨ i = j ∧ q = p := by
  rw [getElem?_after, Option.map_eq_some_iff] at he
  obtain ⟨f, hf, rfl⟩ := he
  refine ⟨f, hf, rfl, fun q => ?_⟩
  by_cases hij : i = j
  · by_cases hold : p ∈ f.prerequisites
    · simp only [hold, not_true_eq_false, and_false, if_false, hij, true_and]
      exact (or_iff_left_of_imp fun hq => hq ▸ hold).symm
    · simp [hij, hold]
  · simp [hij]

theorem Grounded.after {l : Ledger} (h : l.Grounded) {i p : Nat} (hp : p < l.calls.length) :
    (l.after i p).Grounded := by
  intro f hf q hq
  rw [length_after]
  obtain ⟨j, hj⟩ := List.mem_iff_getElem?.mp hf
  obtain ⟨g, hg, -, hpre⟩ := exists_of_getElem?_after hj
  rcases (hpre q).mp hq with hold | ⟨-, rfl⟩
  · exact h g (List.mem_of_getElem? hg) q hold
  · exact hp

namespace Hookless

variable {l : Ledger}

theorem declare (h : l.Hookless) (call : Signature) : (l.declare call).Hookless := by
  intro e he
  rcases List.mem_append.mp he with he | he
  · exact h e he
  · obtain rfl := List.mem_singleton.mp he
    rfl

theorem modify (h : l.Hookless) (index : Nat) {change : Expectation → Expectation}
    (hhooks : ∀ e, (change e).hooks = e.hooks) : (l.modify index change).Hookless :=
  forall_mem_modify h fun e he => (hhooks e).trans he

theorem after (h : l.Hookless) (index predecessor : Nat) :
    (l.after index predecessor).Hookless :=
  h.modify index fun e => by split <;> rfl

end Hookless

/-- Expectations of which none was called, with the relations that were registered between
them. -/
structure Arranged (l : Ledger) (relations : List (Constraint Nat)) : Prop where
  untouched : l.Untouched
  holds : l.Holds relations
  bounded : ∀ r ∈ relations, r.successor < l.calls.length

namespace Arranged

variable {l : Ledger} {relations : List (Constraint Nat)}

theorem nothing : ({} : Ledger).Arranged [] where
  untouched := ⟨fun _ he => absurd he List.not_mem_nil, fun _ he => absurd he List.not_mem_nil⟩
  holds := fun i e he => by simp at he
  bounded := fun _ hr => absurd hr List.not_mem_nil

/-- A new expectation comes after nothing. -/
theorem declare (h : l.Arranged relations) (call : Signature) :
    (l.declare call).Arranged relations := by
  have hmem : ∀ e ∈ (l.declare call).calls, e ∈ l.calls ∨ e = { call } := by
    intro e he
    simpa [Ledger.declare] using he
  have hlength : (l.declare call).calls.length = l.calls.length + 1 := by
    simp [Ledger.declare]
  refine ⟨⟨?_, ?_⟩, ?_, ?_⟩
  · intro e he p hp
    rcases hmem e he with he | rfl
    · have := h.untouched.grounded e he p hp
      omega
    · exact absurd hp List.not_mem_nil
  · intro e he
    rcases hmem e he with he | rfl
    · exact h.untouched.unused e he
    · exact ⟨rfl, rfl⟩
  · intro i e he p
    by_cases hi : i < l.calls.length
    · rw [Ledger.declare, List.getElem?_append_left hi] at he
      exact h.holds i e he p
    · -- The new expectation: a relation of it would have been registered before it existed.
      have hil : i = l.calls.length := by
        have := (List.getElem?_eq_some_iff.mp he).1
        omega
      subst hil
      obtain rfl : { call } = e := by simpa [Ledger.declare] using he
      constructor
      · intro hp
        exact absurd hp List.not_mem_nil
      · intro hr
        exact absurd (h.bounded _ hr) (Nat.lt_irrefl _)
  · intro r hr
    have := h.bounded r hr
    omega

/-- Nothing is disarranged by a change of how often a call is expected, of what it returns or of
its hooks. -/
theorem modify (h : l.Arranged relations) (index : Nat) (change : Expectation → Expectation)
    (hinvoked : ∀ e, (change e).invoked = e.invoked) (hclosed : ∀ e, (change e).closed = e.closed)
    (hprerequisites : ∀ e, (change e).prerequisites = e.prerequisites) :
    (l.modify index change).Arranged relations := by
  have hlength : (l.modify index change).calls.length = l.calls.length := by
    simp [Ledger.modify]
  refine ⟨⟨?_, ?_⟩, ?_, ?_⟩
  · intro f hf p hp
    rw [hlength]
    obtain ⟨e, he, rfl | rfl⟩ := exists_of_mem_modify hf
    · exact h.untouched.grounded f he p hp
    · exact h.untouched.grounded e he p (hprerequisites e ▸ hp)
  · intro f hf
    obtain ⟨e, he, rfl | rfl⟩ := exists_of_mem_modify hf
    · exact h.untouched.unused f he
    · rw [hinvoked, hclosed]
      exact h.untouched.unused e he
  · intro i f hf p
    rw [Ledger.modify, List.getElem?_modify, Option.map_eq_map, Option.map_eq_some_iff] at hf
    obtain ⟨e, he, rfl⟩ := hf
    rw [← h.holds i e he p]
    split
    · rw [hprerequisites]
    · rfl
  · intro r hr
    rw [hlength]
    exact h.bounded r hr

/-- Ordering one expectation after another adds that relation. -/
theorem after (h : l.Arranged relations) {index predecessor : Nat} (hi : index < l.calls.length)
    (hp : predecessor < l.calls.length) :
    (l.after index predecessor).Arranged (relations ++ [⟨index, predecessor⟩]) := by
  refine ⟨⟨h.untouched.grounded.after hp, forall_mem_after h.untouched.unused fun _ _ h => h⟩,
    ?_, ?_⟩
  · intro i f hf p
    obtain ⟨e, he, -, hpre⟩ := exists_of_getElem?_after hf
    rw [hpre p, h.holds i e he p, List.mem_append, List.mem_singleton, Constraint.mk.injEq,
      eq_comm (a := i)]
  · intro r hr
    rw [length_after]
    rcases List.mem_append.mp hr with hr | hr
    · exact h.bounded r hr
    · obtain rfl : r = ⟨index, predecessor⟩ := by simpa using hr
      exact hi

end Arranged

end Ledger

namespace Session

open Attempt

/-- Whether the operation sets up expectations of that controller. -/
def arranges (controller : Nat) : Operation → Bool
  | .declare number _ => number = controller
  | .setTimes _ _ => true
  | .setStub _ _ => true
  | .after _ _ => true
  | _ => false

/-- The relations that the operations register, if `n` calls were declared before them.  A
relation with a call that was not declared yet is none. -/
def relations : Nat → List Operation → List (Constraint Nat)
  | _, [] => []
  | n, .declare _ _ :: rest => relations (n + 1) rest
  | n, .after call predecessor :: rest =>
    if call < n ∧ predecessor < n then ⟨call, predecessor⟩ :: relations n rest
    else relations n rest
  | n, _ :: rest => relations n rest

/-- The session has that controller, and the calls that were declared are its `n` expectations. -/
structure Arranged (s : Session) (controller n : Nat) (relations : List (Constraint Nat)) :
    Prop where
  present : controller < s.bench.collaborator.controllers.length
  declared : s.bench.collaborator.declared = (List.range n).map (CallId.mk controller)
  length : (s.bench.collaborator.ledger controller).calls.length = n
  hookless : (s.bench.collaborator.ledger controller).Hookless
  ledger : (s.bench.collaborator.ledger controller).Arranged relations

namespace Arranged

variable {s : Session} {controller n : Nat} {known : List (Constraint Nat)}

theorem fresh (kind : ReporterKind) (config : Config) {controllers : Nat} (counters : Nat)
    (h : controller < controllers) :
    Arranged { bench := Bench.start kind config controllers counters } controller 0 [] := by
  have hledger : (Bench.start kind config controllers counters).collaborator.ledger controller
      = {} := by
    simp [Bench.start, Switchboard.ledger, List.getD_eq_getElem?_getD, h]
  refine ⟨by simpa [Bench.start] using h, rfl, ?_, ?_, ?_⟩
  · rw [hledger]
    rfl
  · rw [hledger]
    exact fun _ he => absurd he List.not_mem_nil
  · rw [hledger]
    exact .nothing

/-- A change of the controller's expectations that declares none. -/
theorem modify (h : s.Arranged controller n known) {change : Ledger → Ledger}
    {known' : List (Constraint Nat)} (hlength : ∀ l, (change l).calls.length = l.calls.length)
    (hhookless : (change (s.bench.collaborator.ledger controller)).Hookless)
    (hledger : (change (s.bench.collaborator.ledger controller)).Arranged known') :
    Arranged { s with bench := s.bench.modify (·.modify controller change) }
      controller n known' := by
  have hself := Switchboard.ledger_modify_self h.present change
  refine ⟨?_, h.declared, ?_, ?_, ?_⟩
  · show controller < (s.bench.collaborator.modify controller change).controllers.length
    rw [Switchboard.length_modify]
    exact h.present
  · show ((s.bench.collaborator.modify controller change).ledger controller).calls.length = n
    rw [hself, hlength, h.length]
  · show ((s.bench.collaborator.modify controller change).ledger controller).Hookless
    rw [hself]
    exact hhookless
  · show ((s.bench.collaborator.modify controller change).ledger controller).Arranged known'
    rw [hself]
    exact hledger

theorem declare (h : s.Arranged controller n known) (call : Signature) :
    Arranged (perform (.declare controller call) s).state controller (n + 1) known := by
  have hself := Switchboard.ledger_modify_self h.present (·.declare call)
  refine ⟨?_, ?_, ?_, ?_, ?_⟩
  · show controller < (s.bench.collaborator.modify controller (·.declare call)).controllers.length
    rw [Switchboard.length_modify]
    exact h.present
  · show s.bench.collaborator.declared ++
        [⟨controller, (s.bench.collaborator.ledger controller).calls.length⟩] = _
    rw [h.length, h.declared, List.range_succ, List.map_append, List.map_singleton]
  · show ((s.bench.collaborator.modify controller (·.declare call)).ledger
        controller).calls.length = n + 1
    rw [hself, Ledger.declare, List.length_append, h.length, List.length_singleton]
  · show ((s.bench.collaborator.modify controller (·.declare call)).ledger controller).Hookless
    rw [hself]
    exact h.hookless.declare call
  · show ((s.bench.collaborator.modify controller (·.declare call)).ledger controller).Arranged _
    rw [hself]
    exact h.ledger.declare call

/-- A number stands for the call that was declared as that number, or for none. -/
theorem declared_apply (h : s.Arranged controller n known) (call : Nat) :
    Bench.declared call s.bench =
      if call < n then ⟨.ok ⟨controller, call⟩, s.bench, []⟩
      else ⟨.error (.unknown "call"), s.bench, []⟩ := by
  have hget : s.bench.collaborator.declared[call]? =
      if call < n then some ⟨controller, call⟩ else none := by
    rw [h.declared, List.getElem?_map]
    by_cases hc : call < n
    · rw [if_pos hc, List.getElem?_range hc]
      rfl
    · rw [if_neg hc, List.getElem?_eq_none (by simpa using hc)]
      rfl
  simp only [Bench.declared, bind_apply, Attempt.current, hget]
  split <;> rfl

theorem setTimes (h : s.Arranged controller n known) (call times : Nat) :
    Arranged (perform (.setTimes call times) s).state controller n known := by
  simp only [perform, onBench, Attempt.on, bind_apply, h.declared_apply]
  by_cases hc : call < n
  · have hledger := h.ledger.modify call (fun e => { e with times := times })
      (fun _ => rfl) (fun _ => rfl) (fun _ => rfl)
    simp only [if_pos hc, Outcome.after]
    exact h.modify (fun l => by simp [Ledger.modify]) (h.hookless.modify call fun _ => rfl) hledger
  · simp only [if_neg hc]
    exact h

theorem setStub (h : s.Arranged controller n known) (call : Nat) (stub : Returned) :
    Arranged (perform (.setStub call stub) s).state controller n known := by
  simp only [perform, onBench, Attempt.on, bind_apply, h.declared_apply]
  by_cases hc : call < n
  · have hledger := h.ledger.modify call (fun e => { e with stub := some stub })
      (fun _ => rfl) (fun _ => rfl) (fun _ => rfl)
    simp only [if_pos hc, Outcome.after]
    exact h.modify (fun l => by simp [Ledger.modify]) (h.hookless.modify call fun _ => rfl) hledger
  · simp only [if_neg hc]
    exact h

theorem after (h : s.Arranged controller n known) (call predecessor : Nat) :
    Arranged (perform (.after call predecessor) s).state controller n
      (known ++ relations n [.after call predecessor]) := by
  simp only [perform, onBench, Attempt.on, bind_apply, h.declared_apply]
  by_cases hc : call < n
  · by_cases hp : predecessor < n
    · have hnew : relations n [.after call predecessor] = [⟨call, predecessor⟩] := by
        simp [relations, hc, hp]
      simp only [if_pos hc, Outcome.after, h.declared_apply, if_pos hp, hnew]
      exact h.modify (fun l => by simp [Ledger.after, Ledger.modify])
        (h.hookless.after call predecessor)
        (h.ledger.after (h.length.symm ▸ hc) (h.length.symm ▸ hp))
    · have hnone : relations n [.after call predecessor] = [] := by
        simp [relations, hp]
      simp only [if_pos hc, Outcome.after, h.declared_apply, if_neg hp, hnone, List.append_nil]
      exact h
  · have hnone : relations n [.after call predecessor] = [] := by
      simp [relations, hc]
    simp only [if_neg hc, hnone, List.append_nil]
    exact h

/-- **Operations that set up expectations keep them arranged**, with the relations that they
register. -/
theorem forEach_step (h : s.Arranged controller n known) {operations : List Operation}
    (harranges : ∀ operation ∈ operations, arranges controller operation = true) :
    ∃ n', (Attempt.forEach step operations s).state.Arranged controller n'
      (known ++ relations n operations) := by
  induction operations generalizing s n known with
  | nil => exact ⟨n, by rw [relations, List.append_nil]; exact h⟩
  | cons operation rest ih =>
      have hfirst : arranges controller operation = true := harranges operation (by simp)
      have hrest : ∀ operation ∈ rest, arranges controller operation = true :=
        fun operation hmem => harranges operation (List.mem_cons_of_mem _ hmem)
      rw [state_forEach_step]
      cases operation with
      | declare number call =>
          obtain rfl : number = controller := by simpa [arranges] using hfirst
          exact ih (h.declare call) hrest
      | setTimes call times => exact ih (h.setTimes call times) hrest
      | setStub call stub => exact ih (h.setStub call stub) hrest
      | after call predecessor =>
          obtain ⟨n', hn'⟩ := ih (h.after call predecessor) hrest
          refine ⟨n', ?_⟩
          have hsplit : relations n (.after call predecessor :: rest)
              = relations n [.after call predecessor] ++ relations n rest := by
            simp only [relations]
            split <;> simp
          rw [hsplit, ← List.append_assoc]
          exact hn'
      | _ => exact Bool.noConfusion hfirst

end Arranged

/-- The handler that is left of one with nothing expected by operations on it. -/
def prepared (kind : ReporterKind) (config : Config) (controllers counters : Nat)
    (operations : List Operation) : Bench :=
  (Attempt.forEach step operations
    { bench := Bench.start kind config controllers counters }).state.bench

section Prepared

variable {kind : ReporterKind} {config : Config} {controller controllers counters : Nat}
  {operations : List Operation} {requests : List Request}

/-- **A controller that was set up admits exactly the linear extensions of its relations.**

All requests are answered, and the controller has nothing to complain of at the end, exactly if
every expected call is made as often as it is to be and no other is made, and all calls of a
predecessor are made before the first of its successor. -/
theorem admits_iff_linear_extension (hcontroller : controller < controllers)
    (harranges : ∀ operation ∈ operations, arranges controller operation = true)
    (hdistinct : Signature.Distinguishable
      (((prepared kind config controllers counters operations).collaborator.ledger
        controller).calls.map (·.call)))
    (hsuits : ∀ r ∈ requests,
      ((prepared kind config controllers counters operations).collaborator.ledger
        controller).Suits r) :
    (prepared kind config controllers counters operations).Admits controller requests ↔
      ((prepared kind config controllers counters operations).collaborator.ledger
        controller).Extension (relations 0 operations) (requests.map (·.call)) := by
  obtain ⟨n, harranged⟩ :=
    (Arranged.fresh kind config counters hcontroller).forEach_step harranges
  have hledger := harranged.ledger
  rw [List.nil_append] at hledger
  exact (Bench.admits_iff_answered harranged.hookless hsuits).trans
    (Ledger.answered_iff_extension hdistinct hledger.holds hledger.untouched)

/-- A call that is to be made twice, and comes after one that is to be made once. -/
theorem admits_predecessor_then_twice :
    (prepared .recording {} 1 0
      [.declare 0 ⟨"door", "open", []⟩, .declare 0 ⟨"door", "pass", []⟩, .setTimes 1 2,
        .after 1 0]).Admits 0
      [⟨⟨"door", "open", []⟩, .unit⟩, ⟨⟨"door", "pass", []⟩, .unit⟩,
        ⟨⟨"door", "pass", []⟩, .unit⟩] :=
  (admits_iff_linear_extension (by decide) (by decide) (by decide) (by decide)).mpr (by decide)

end Prepared

end Session

end CallOrder
