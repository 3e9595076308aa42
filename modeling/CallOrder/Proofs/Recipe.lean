/-
Setups as recipes.

A producer may be a recipe: wherever it is evaluated, it declares the same expectation, which
comes after nothing, and then gives it, or fails, but always in the same way.  If all producers
of a setup are, the setup as a whole is a recipe as well.  What it adds to a handler depends on
nothing that is there.

For let there be two handlers, one of which has expected something before.  Then the numbers of
all that it is about to declare are greater, by how much was expected before, and nothing else
is different (`Bench.Ahead`).  Each leaf and each relation keeps it that way, so one evaluation
is the image of the other.  Repeated, the setup adds one copy after another, and what comes after
what is settled within each copy (`Bench.recipe_repeated`).
-/
import CallOrder.Proofs.Deferral
import CallOrder.Proofs.Forward
import CallOrder.Proofs.Relocation

namespace CallOrder

/-- The expectation whose number is greater by `k`. -/
def CallId.shift (k : Nat) (id : CallId) : CallId :=
  { id with index := id.index + k }

theorem CallId.shift_injective (k : Nat) : Function.Injective (shift k) := by
  rintro ⟨controller, i⟩ ⟨controller', j⟩ h
  simp only [shift, CallId.mk.injEq, Nat.add_right_cancel_iff] at h
  obtain ⟨rfl, rfl⟩ := h
  rfl

/-- The expectation where the numbers of those that it comes after are greater by `k`. -/
def Expectation.shift (k : Nat) (e : Expectation) : Expectation :=
  { e with prerequisites := e.prerequisites.map (· + k) }

namespace Ledger

variable {l : Ledger} {earlier : List Expectation} {e : Expectation}

/-- The expectations with others before them. -/
def behind (earlier : List Expectation) (l : Ledger) : Ledger where
  calls := earlier ++ l.calls.map (·.shift earlier.length)

theorem length_behind : (l.behind earlier).calls.length = l.calls.length + earlier.length := by
  simp [behind, Nat.add_comm]

theorem behind_add (he : e.prerequisites = []) :
    (l.add e).behind earlier = (l.behind earlier).add e := by
  have hshift : e.shift earlier.length = e := by
    rw [Expectation.shift, he, List.map_nil, ← he]
  simp only [behind, add, List.map_append, List.map_singleton, hshift, List.append_assoc]

/-- A relation is taken on by the same two, whose numbers are greater. -/
theorem behind_after (i p : Nat) :
    (l.after i p).behind earlier
      = (l.behind earlier).after (i + earlier.length) (p + earlier.length) := by
  suffices hget : ∀ j, ((l.after i p).behind earlier).calls[j]?
      = ((l.behind earlier).after (i + earlier.length) (p + earlier.length)).calls[j]? from
    congrArg Ledger.mk (List.ext_getElem? hget)
  intro j
  rw [getElem?_after]
  -- No relation reaches what was there earlier, for the numbers in it are too great.
  by_cases hj : j < earlier.length
  · have hne : i + earlier.length ≠ j := by omega
    simp [behind, List.getElem?_append_left hj, hne]
  · obtain ⟨m, rfl⟩ := Nat.exists_eq_add_of_le (Nat.not_lt.mp hj)
    have hhit : i + earlier.length = earlier.length + m ↔ i = m := by omega
    simp only [behind, List.getElem?_append_right (Nat.le_add_right ..), Nat.add_sub_cancel_left,
      List.getElem?_map, getElem?_after, Option.map_map, hhit]
    cases l.calls[m]? with
    | none => rfl
    | some f =>
        by_cases him : i = m <;> by_cases hp : p ∈ f.prerequisites <;>
          simp [Expectation.shift, him, hp]

theorem Grounded.add (h : l.Grounded) (he : e.prerequisites = []) : (l.add e).Grounded := by
  have hlength : (l.add e).calls.length = l.calls.length + 1 := by simp [Ledger.add]
  refine forall_mem_add (fun f hf p hp => ?_) fun p hp => ?_
  · exact hlength ▸ Nat.lt_succ_of_lt (h f hf p hp)
  · rw [he] at hp
    cases hp

end Ledger

/-- What is expected of the handler's controller. -/
def Handler.held (b : Bench) : List Expectation :=
  (b.collaborator.ledger 0).calls

namespace Bench

/-- The handler's controller is left with one expectation beside those of `l`, and this is the
result. -/
structure Newest {α : Type} (l : Ledger) (e : Expectation) (result : Except Failure α)
    (o : Outcome Bench α) : Prop where
  present : 0 < o.state.collaborator.controllers.length
  ledger : o.state.collaborator.ledger 0 = l.add e
  result : o.result = result

theorem Newest.give {α β : Type} {l : Ledger} {e : Expectation} {result : Except Failure α}
    {x : Attempt Bench α} {b : Bench} (h : Newest l e result (x b)) (image : α → β) :
    Newest l e (result.map image) ((do return image (← x)) b) := by
  obtain ⟨hpresent, hledger, hresult⟩ := h
  rw [Attempt.bind_apply]
  rcases hx : x b with ⟨f | a, t, events⟩ <;> rw [hx] at hpresent hledger hresult <;>
    exact ⟨hpresent, hledger, hresult ▸ rfl⟩

/-- Wherever it is evaluated, the attempt declares that expectation on the handler's controller,
which comes after nothing, and gives it or fails in that way. -/
def IsRecipe (x : Attempt Bench (Node CallId)) : Prop :=
  ∃ (e : Expectation) (outcome : Except Failure Unit), e.prerequisites = [] ∧
    ∀ b : Bench, 0 < b.collaborator.controllers.length →
      Newest (b.collaborator.ledger 0) e
        (outcome.map fun _ => .single ⟨0, (b.collaborator.ledger 0).calls.length⟩) (x b)

end Bench

/-! ### Plans are recipes -/

/-- The call does not refuse the hook: it has the arguments that the hook takes, or there is no
such hook in the first place. -/
def HookPlan.fits (asked : HookPlan) (call : Signature) : Bool :=
  match asked.hook with
  | .ok hook => hook.accepts call.args.length
  | .error _ => true

namespace Bench

/-- The attempt revises the newest expectation of the handler's controller, if that is of the call
and comes after nothing.  Whatever was expected before, it makes the same of it and comes to the
same. -/
def Revises {α : Type} (call : Signature) (x : CallId → Attempt Bench α) : Prop :=
  ∀ e : Expectation, e.call = call → e.prerequisites = [] →
    ∃ (e' : Expectation) (result : Except Failure α), e'.call = call ∧ e'.prerequisites = [] ∧
      ∀ (l : Ledger) (b : Bench), 0 < b.collaborator.controllers.length →
        b.collaborator.ledger 0 = l.add e → Newest l e' result (x ⟨0, l.calls.length⟩ b)

theorem newest_modifyCall {l : Ledger} {e : Expectation} {b : Bench}
    (hb : 0 < b.collaborator.controllers.length) (hl : b.collaborator.ledger 0 = l.add e)
    (change : Expectation → Expectation) :
    Newest l (change e) (.ok ()) (modifyCall ⟨0, l.calls.length⟩ change b) := by
  refine ⟨(Switchboard.length_modify ..).symm ▸ hb, ?_, rfl⟩
  show (b.collaborator.modify 0 (·.modify l.calls.length change)).ledger 0 = _
  rw [Switchboard.ledger_modify_self hb, hl, Ledger.modify_add]

namespace Revises

variable {α β : Type} {call : Signature} {x : CallId → Attempt Bench α}

theorem pure (a : α) : Revises call fun _ => (Pure.pure a : Attempt Bench α) :=
  fun e hcall hfirst => ⟨e, .ok a, hcall, hfirst, fun _ _ hb hl => ⟨hb, hl, rfl⟩⟩

theorem bind {next : CallId → α → Attempt Bench β} (hx : Revises call x)
    (hnext : ∀ a, Revises call fun id => next id a) :
    Revises call fun id => x id >>= next id := by
  intro e hcall hfirst
  obtain ⟨e', result, hcall', hfirst', hx⟩ := hx e hcall hfirst
  cases result with
  | error f =>
      refine ⟨e', .error f, hcall', hfirst', fun l b hb hl => ?_⟩
      have hone := hx l b hb hl
      exact ⟨Attempt.state_bind_of_error hone.result ▸ hone.present,
        Attempt.state_bind_of_error hone.result ▸ hone.ledger,
        Attempt.result_bind_of_error hone.result⟩
  | ok a =>
      obtain ⟨e'', result, hcall'', hfirst'', hnext⟩ := hnext a e' hcall' hfirst'
      refine ⟨e'', result, hcall'', hfirst'', fun l b hb hl => ?_⟩
      have hone := hx l b hb hl
      obtain ⟨events, hgives⟩ := Attempt.gives_iff.mpr ⟨hone.result, rfl⟩
      obtain ⟨hb', hl', hresult'⟩ := hnext l _ hone.present hone.ledger
      dsimp only
      rw [Attempt.bind_apply, hgives]
      exact ⟨hb', hl', hresult'⟩

theorem modifyCall {change : Expectation → Expectation}
    (hcall : ∀ e, (change e).call = e.call)
    (hfirst : ∀ e, (change e).prerequisites = e.prerequisites) :
    Revises call fun id => Bench.modifyCall id change := by
  intro e he he'
  exact ⟨change e, .ok (), (hcall e).trans he, (hfirst e).trans he', fun _ _ hb hl =>
    newest_modifyCall hb hl change⟩

theorem setStub (stub : Returned) : Revises call fun id => Bench.setStub id stub :=
  modifyCall (fun _ => rfl) fun _ => rfl

theorem setTimes (n : Nat) : Revises call fun id => Bench.setTimes id n :=
  modifyCall (fun _ => rfl) fun _ => rfl

theorem expectCompletions (n : Nat) :
    Revises call fun _ => (Handler.onCompletion (Completion.expect n) : Attempt Bench Nat) :=
  fun e hcall hfirst => ⟨e, .ok n, hcall, hfirst, fun _ _ hb hl => ⟨hb, hl, rfl⟩⟩

theorem forM {act : CallId → α → Attempt Bench Unit}
    (h : ∀ a, Revises call fun id => act id a) (asked : Option α) :
    Revises call fun id => asked.forM (act id) := by
  cases asked with
  | none => exact pure ()
  | some a => exact h a

theorem run {asked : HookPlan} (hfits : asked.fits call = true) :
    Revises call fun id => Bench.run id asked := by
  intro e hcall hfirst
  cases hhook : asked.hook with
  | error mistake =>
      refine ⟨e, .error (.setup mistake), hcall, hfirst, fun l b hb hl => ?_⟩
      dsimp only
      rw [run_of_error hhook]
      exact ⟨hb, hl, rfl⟩
  | ok hook =>
      refine ⟨{ e with hooks := e.hooks ++ [hook] }, .ok (), hcall, hfirst, fun l b hb hl => ?_⟩
      have hget : b.collaborator.expectation? ⟨0, l.calls.length⟩ = some e := by
        rw [Switchboard.expectation?, hl]
        simp [Ledger.add]
      have haccepts : hook.accepts e.call.args.length = true := by
        rw [HookPlan.fits, hhook] at hfits
        exact hcall ▸ hfits
      dsimp only
      rw [run_apply hhook hget, if_pos haccepts]
      exact newest_modifyCall hb hl fun e => { e with hooks := e.hooks ++ [hook] }

theorem forEach {ι : Type} {act : CallId → ι → Attempt Bench α} {items : List ι}
    (h : ∀ i ∈ items, Revises call fun id => act id i) :
    Revises call fun id => Attempt.forEach (act id) items := by
  induction items with
  | nil => exact pure []
  | cons i rest ih =>
      obtain ⟨hi, hrest⟩ := List.forall_mem_cons.mp h
      exact hi.bind fun a => (ih hrest).bind fun others => pure (a :: others)

theorem equip {plan : CallPlan} (hfits : ∀ asked ∈ plan.hooks, asked.fits call = true) :
    Revises call plan.equip :=
  (forM setStub _).bind fun _ =>
    (forM (fun n => (expectCompletions n).bind setTimes) _).bind fun _ =>
      (forM setTimes _).bind fun _ =>
        (forEach fun asked hasked => run (hfits asked hasked)).bind fun _ => pure ()

end Revises

/-- **A plan is a recipe** if its call refuses none of its hooks. -/
theorem isRecipe_produce {plan : CallPlan}
    (hfits : ∀ asked ∈ plan.hooks, asked.fits plan.call = true) :
    IsRecipe (Producer.declare plan).produce := by
  obtain ⟨e, result, -, hfirst, hequip⟩ := Revises.equip hfits { call := plan.call } rfl rfl
  refine ⟨e, result, hfirst, fun b hb => ?_⟩
  obtain ⟨t, events, ht, hproduce⟩ := produce_declare_apply plan b
  rw [← ht] at hb
  rw [hproduce, ← ht]
  have hdeclared : (declare 0 plan.call t).state.collaborator.ledger 0
      = (t.collaborator.ledger 0).add { call := plan.call } :=
    Switchboard.ledger_modify_self hb _
  have hone := (hequip _ _ ((Switchboard.length_modify ..).symm ▸ hb) hdeclared).give fun _ =>
    Node.single (⟨0, (t.collaborator.ledger 0).calls.length⟩ : CallId)
  have hcarry : (plan.carryOut >>= fun id => (return .single id : Attempt Bench (Node CallId)))
      = do
        let id ← declare 0 plan.call
        let _ ← plan.equip id
        return .single id := by
    rw [CallPlan.carryOut_eq]
    simp only [bind_assoc, pure_bind]
  rw [hcarry]
  exact ⟨hone.present, hone.ledger, hone.result⟩

/-! ### On top of what was expected before -/

/-- The second handler has the expectations of the first on top of earlier ones. -/
structure Ahead (earlier : List Expectation) (b t : Bench) : Prop where
  here : 0 < b.collaborator.controllers.length
  there : 0 < t.collaborator.controllers.length
  ledger : t.collaborator.ledger 0 = (b.collaborator.ledger 0).behind earlier

variable {π : Type} {produce : π → Attempt Bench (Node CallId)} {setup : Setup π}
  {earlier : List Expectation} {b t : Bench}

theorem Ahead.order (h : Ahead earlier b t) (c : Constraint CallId) :
    Ahead earlier (b.modify (Collaborator.order c))
      (t.modify (Collaborator.order (c.map (CallId.shift earlier.length)))) := by
  obtain ⟨⟨controller, i⟩, ⟨owner, p⟩⟩ := c
  refine ⟨(Switchboard.length_modify ..).symm ▸ h.here,
    (Switchboard.length_modify ..).symm ▸ h.there, ?_⟩
  show (t.collaborator.modify controller (·.after (i + earlier.length) (p + earlier.length))).ledger 0
    = ((b.collaborator.modify controller (·.after i p)).ledger 0).behind earlier
  by_cases hcontroller : 0 = controller
  · subst hcontroller
    rw [Switchboard.ledger_modify_self h.there, Switchboard.ledger_modify_self h.here, h.ledger,
      Ledger.behind_after]
  · rw [Switchboard.ledger_modify_of_ne hcontroller, Switchboard.ledger_modify_of_ne hcontroller,
      h.ledger]

theorem mirrors_stage (produce : π → Attempt Bench (Node CallId)) (earlier : List Expectation) :
    (Handler.stage produce).Mirrors (Handler.stage produce) (CallId.shift earlier.length)
      (Ahead earlier) where
  injective := CallId.shift_injective _
  order c _ _ h := h.order c

/-- A recipe declares the same expectation on top of any. -/
theorem IsRecipe.mirrors {x : Attempt Bench (Node CallId)} (h : IsRecipe x)
    (earlier : List Expectation) :
    Attempt.Mirrors (Ahead earlier) (Node.map (CallId.shift earlier.length)) x x := by
  intro b t hbt
  obtain ⟨e, outcome, he, hx⟩ := h
  obtain ⟨hhere, hledger, hresult⟩ := hx b hbt.here
  obtain ⟨hthere, hledger', hresult'⟩ := hx t hbt.there
  refine ⟨⟨hhere, hthere, ?_⟩, ?_⟩
  · rw [hledger, hledger', hbt.ledger, Ledger.behind_add he]
  · rw [hresult, hresult', hbt.ledger, Ledger.length_behind]
    cases outcome <;> rfl

theorem mirrorsEach_of_isRecipe (hrecipes : ∀ p ∈ setup.leaves, IsRecipe (produce p)) :
    (Handler.stage produce).MirrorsEach (Handler.stage produce) (CallId.shift earlier.length)
      (Ahead earlier) (Setup.independent [setup]).leaves := by
  rw [setup.leaves_independent_singleton]
  exact fun p hp => (hrecipes p hp).mirrors earlier

/-- **What is expected is added on top of what there was**, whether the setup fails or not. -/
theorem Ahead.expect (h : Ahead earlier b t)
    (hrecipes : ∀ p ∈ setup.leaves, IsRecipe (produce p)) :
    Ahead earlier (Handler.expect produce setup b).state (Handler.expect produce setup t).state ∧
      (Handler.expect produce setup t).result = (Handler.expect produce setup b).result := by
  obtain ⟨hstate, hresult⟩ :=
    (mirrors_stage produce earlier).build (.independent [setup]) (mirrorsEach_of_isRecipe hrecipes) b t h
  obtain ⟨hb, hb'⟩ := Handler.expect_apply produce setup b
  obtain ⟨ht, ht'⟩ := Handler.expect_apply produce setup t
  rw [hb, ht, hb', ht', hresult]
  refine ⟨hstate, ?_⟩
  cases ((Setup.independent [setup]).build (Handler.stage produce) b).result <;> rfl

/-! ### What a setup adds comes after nothing else -/

/-- There is a handler's controller, and whatever comes after something there comes after what is
there. -/
def Grounded (b : Bench) : Prop :=
  0 < b.collaborator.controllers.length ∧ (b.collaborator.ledger 0).Grounded

theorem Grounded.order {c : Constraint CallId} (h : t.Grounded)
    (hspans : b.Spans [c.predecessor, c.successor] t) :
    Grounded (t.modify (Collaborator.order c)) := by
  obtain ⟨⟨controller, i⟩, p⟩ := c
  obtain rfl : controller = 0 := (hspans.declared ⟨controller, i⟩ (by simp)).1
  have hp : p.index < (t.collaborator.ledger 0).calls.length :=
    (hspans.declared p (by simp)).2.2
  refine ⟨(Switchboard.length_modify ..).symm ▸ h.1, ?_⟩
  show ((t.collaborator.modify 0 (·.after i p.index)).ledger 0).Grounded
  rw [Switchboard.ledger_modify_self h.1]
  exact h.2.after hp

theorem sound_grounded (produce : π → Attempt Bench (Node CallId)) :
    (Handler.stage produce).Sound Grounded Spans := by
  have hlaid : (Handler.stage produce).Sound Laid Spans := sound_stage
  exact
    { nothing := fun b _ => ⟨Nat.le_refl _, nofun, .nil⟩
      further := hlaid.further
      sublist := hlaid.sublist
      always_order := fun _ _ _ ht hspans => ht.order hspans
      spans_order := hlaid.spans_order }

theorem upholds_of_isRecipe (hrecipes : ∀ p ∈ setup.leaves, IsRecipe (produce p)) :
    (Handler.stage produce).Upholds Grounded Spans setup.leaves := by
  intro p hp b hb
  show (produce p).Ensures b Grounded fun node t => Spans b node.leaves t
  obtain ⟨e, outcome, he, hx⟩ := hrecipes p hp
  obtain ⟨hcontrollers, hledger, hresult⟩ := hx b hb.1
  refine ⟨⟨hcontrollers, hledger ▸ hb.2.add he⟩, fun node hnode => ?_⟩
  rw [hresult] at hnode
  cases outcome with
  | error f => cases hnode
  | ok _ =>
      obtain rfl := Except.ok.inj hnode
      exact spans_of_add hledger

/-! ### One copy after another -/

variable {fresh : Bench}

/-- Whatever a handler holds is on top of nothing, if the other one holds nothing. -/
theorem ahead_of_held_eq_nil (hb : 0 < b.collaborator.controllers.length)
    (hfresh : 0 < fresh.collaborator.controllers.length) (hempty : fresh.held = []) :
    Ahead b.held fresh b := by
  refine ⟨hfresh, hb, ?_⟩
  have hnothing : (fresh.collaborator.ledger 0).calls = [] := hempty
  rw [Ledger.behind, hnothing, List.map_nil, List.append_nil]
  rfl

theorem Ahead.held_eq (h : Ahead earlier b t) :
    t.held = earlier ++ b.held.map (·.shift earlier.length) :=
  congrArg Ledger.calls h.ledger

/-- What a setup adds to nothing comes after what it adds. -/
theorem lt_of_mem_prerequisites (hrecipes : ∀ p ∈ setup.leaves, IsRecipe (produce p))
    (hfresh : 0 < fresh.collaborator.controllers.length) (hempty : fresh.held = []) :
    ∀ e ∈ (Handler.expect produce setup fresh).state.held, ∀ p ∈ e.prerequisites,
      p < (Handler.expect produce setup fresh).state.held.length := by
  have hgrounded : fresh.Grounded := by
    refine ⟨hfresh, fun e he => ?_⟩
    rw [show (fresh.collaborator.ledger 0).calls = [] from hempty] at he
    cases he
  exact (Handler.always_expect (sound_grounded produce) (upholds_of_isRecipe hrecipes) hgrounded).2

/-- So many copies of a setup, one after another, each expectation on top of those before. -/
def copies (copy : List Expectation) (start n : Nat) : List Expectation :=
  (List.range n).flatMap fun j => copy.map (·.shift (start + j * copy.length))

theorem copies_succ (copy : List Expectation) (start n : Nat) :
    copies copy start (n + 1)
      = copy.map (·.shift start) ++ copies copy (start + copy.length) n := by
  have hnext (j : Nat) :
      start + (j + 1) * copy.length = start + copy.length + j * copy.length := by
    rw [Nat.succ_mul]
    omega
  simp only [copies, List.range_succ_eq_map, List.flatMap_cons, List.flatMap_map, hnext,
    Nat.zero_mul, Nat.add_zero]

/-- An expectation among copies is in the one that its place says, where what it comes after is
as well. -/
theorem copies_apart {copy : List Expectation}
    (hcopy : ∀ e ∈ copy, ∀ p ∈ e.prerequisites, p < copy.length) {e : Expectation} {p : Nat} :
    ∀ {n start i : Nat}, (copies copy start n)[i]? = some e → p ∈ e.prerequisites →
      ∃ q, p = start + q ∧ q / copy.length = i / copy.length
  | 0, _, _, hi, _ => by cases hi
  | n + 1, start, i, hi, hp => by
      rw [copies_succ] at hi
      -- It is in the first copy, or in one of the others, which start after that one.
      by_cases hfirst : i < copy.length
      · rw [List.getElem?_append_left (by simpa using hfirst), List.getElem?_map,
          Option.map_eq_some_iff] at hi
        obtain ⟨f, hf, rfl⟩ := hi
        obtain ⟨q, hq, rfl⟩ := List.mem_map.mp hp
        have hlt := hcopy f (List.mem_of_getElem? hf) q hq
        exact ⟨q, Nat.add_comm q start, by rw [Nat.div_eq_of_lt hlt, Nat.div_eq_of_lt hfirst]⟩
      · obtain ⟨m, rfl⟩ := Nat.exists_eq_add_of_le (Nat.not_lt.mp hfirst)
        rw [List.getElem?_append_right (by simp), List.length_map, Nat.add_sub_cancel_left] at hi
        obtain ⟨q, rfl, hq⟩ := copies_apart hcopy hi hp
        have hpos : 0 < copy.length := by
          refine List.length_pos_iff.mpr ?_
          rintro rfl
          simp [copies] at hi
        refine ⟨copy.length + q, by omega, ?_⟩
        rw [Nat.add_div_left _ hpos, Nat.add_div_left _ hpos, hq]

/-- A setup of recipes is expected so many times. -/
theorem forEachCaught_expect (hrecipes : ∀ p ∈ setup.leaves, IsRecipe (produce p))
    (hfresh : 0 < fresh.collaborator.controllers.length) (hempty : fresh.held = []) :
    ∀ (n : Nat) (b : Bench), 0 < b.collaborator.controllers.length →
      ∃ t events, Attempt.forEachCaught (Handler.expect produce) (List.replicate n setup) b
          = ⟨.ok (List.replicate n (Handler.expect produce setup fresh).result), t, events⟩ ∧
        t.held = b.held ++ copies (Handler.expect produce setup fresh).state.held b.held.length n
  | 0, b, _ => ⟨b, [], rfl, (List.append_nil _).symm⟩
  | n + 1, b, hb => by
      obtain ⟨hahead, hresult⟩ := (ahead_of_held_eq_nil hb hfresh hempty).expect hrecipes
      obtain ⟨t, events, hrun, ht⟩ := forEachCaught_expect hrecipes hfresh hempty n _ hahead.there
      have hstate' := Attempt.state_forEachCaught_cons (Handler.expect produce) setup
        (List.replicate n setup) b
      have hresult' := Attempt.result_forEachCaught_cons (Handler.expect produce) setup
        (List.replicate n setup) b
      rw [hrun] at hstate' hresult'
      rw [hresult] at hresult'
      obtain ⟨later, hlater⟩ := Attempt.gives_iff.mpr ⟨hresult', hstate'⟩
      refine ⟨t, later, hlater, ?_⟩
      rw [ht, hahead.held_eq, List.append_assoc, List.length_append, List.length_map, copies_succ]

/-- **A setup of recipes is a recipe.**

Expected by a handler that holds something, it comes to the same as where nothing is held.  It
adds the same expectations, and registers the same relations, with numbers that are greater by
how many there were; those stay as they are.  Expected any number of times, it adds a copy each
time, and what comes after what is settled within each copy. -/
theorem recipe_repeated (hrecipes : ∀ p ∈ setup.leaves, IsRecipe (produce p))
    (hb : 0 < b.collaborator.controllers.length)
    (hfresh : 0 < fresh.collaborator.controllers.length) (hempty : fresh.held = [])
    {copy : List Expectation}
    (hcopy : copy = (Handler.expect produce setup fresh).state.held) :
    (Handler.expect produce setup b).result = (Handler.expect produce setup fresh).result ∧
    (Handler.expect produce setup b).state.held = b.held ++ copy.map (·.shift b.held.length) ∧
    Handler.transcript produce setup b
      = (Handler.transcript produce setup fresh).map (CallId.shift b.held.length) ∧
    ∀ n, ∃ t events, Attempt.forEachCaught (Handler.expect produce) (List.replicate n setup) b
        = ⟨.ok (List.replicate n (Handler.expect produce setup fresh).result), t, events⟩ ∧
      t.held = b.held ++ copies copy b.held.length n ∧
      ∀ (i : Nat) (e : Expectation), t.held[b.held.length + i]? = some e →
        ∀ p ∈ e.prerequisites,
          ∃ q, p = b.held.length + q ∧ q / copy.length = i / copy.length := by
  subst hcopy
  have hahead := ahead_of_held_eq_nil hb hfresh hempty
  obtain ⟨hafter, hresult⟩ := hahead.expect hrecipes
  refine ⟨hresult, hafter.held_eq, ?_, fun n => ?_⟩
  · exact (mirrors_stage produce b.held).transcript_eq (mirrorsEach_of_isRecipe hrecipes) hahead
  · obtain ⟨t, events, hrun, ht⟩ := forEachCaught_expect hrecipes hfresh hempty n b hb
    refine ⟨t, events, hrun, ht, fun i e hi p hp => ?_⟩
    rw [ht, List.getElem?_append_right (Nat.le_add_right ..), Nat.add_sub_cancel_left] at hi
    exact copies_apart (lt_of_mem_prerequisites hrecipes hfresh hempty) hi hp

/-- After two knocks the door opens and closes, beside that the bell rings before the light is
switched on, and then the setup fails, for there is no hook of so many parameters. -/
def outing : Setup Producer :=
  .chain
    [.range 0 1
      (.chain
        [.leaf (.declare { call := ⟨"door", "knock", []⟩, times := some 2 }),
          .leaf (.declare { call := ⟨"door", "open", []⟩, hooks := [.note "opened"] }),
          .leaf (.declare { call := ⟨"door", "close", []⟩ })]),
      .independent
        [.chain
          [.leaf (.declare { call := ⟨"bell", "ring", []⟩ }),
            .leaf (.declare { call := ⟨"light", "on", []⟩ })]],
      .leaf (.declare
        { call := ⟨"door", "leave", []⟩, hooks := [.completion 0 { parameters := 10 }] })]

/-- The bell is to ring after three knocks, of which there was one. -/
def knockedOnce : Bench :=
  { start .recording {} 1 0 with
    collaborator :=
      { controllers :=
          [{ calls :=
              [{ call := ⟨"door", "knock", []⟩, times := 3, invoked := 1 },
                { call := ⟨"bell", "ring", []⟩, prerequisites := [0] }] }] } }

/-- Where the outing is expected once more, and again, each is ordered for itself. -/
theorem outing_expected_twice :
    (Handler.expect Producer.produce outing knockedOnce).result
      = .error (.setup (.unsupportedArity 10 false)) ∧
    (Handler.transcript Producer.produce outing knockedOnce).relations
      = [⟨⟨0, 3⟩, ⟨0, 2⟩⟩, ⟨⟨0, 4⟩, ⟨0, 3⟩⟩, ⟨⟨0, 6⟩, ⟨0, 5⟩⟩] ∧
    ∃ t events, Attempt.forEachCaught (Handler.expect Producer.produce) [outing, outing] knockedOnce
        = ⟨.ok [.error (.setup (.unsupportedArity 10 false)),
            .error (.setup (.unsupportedArity 10 false))], t, events⟩ ∧
      t.held.take 2 = knockedOnce.held ∧
      t.held.map (·.prerequisites)
        = [[], [0], [], [2], [3], [], [5], [], [], [8], [9], [], [11], []] := by
  have hrecipes : ∀ p ∈ outing.leaves, IsRecipe p.produce := by
    simp only [outing, Setup.leaves, Setup.leaves.leavesAll, List.cons_append, List.nil_append,
      List.forall_mem_cons, List.not_mem_nil, false_implies, implies_true, and_true]
    exact ⟨isRecipe_produce (by decide), isRecipe_produce (by decide), isRecipe_produce (by decide),
      isRecipe_produce (by decide), isRecipe_produce (by decide), isRecipe_produce (by decide)⟩
  obtain ⟨hresult, -, htranscript, hrepeated⟩ :=
    recipe_repeated hrecipes (b := knockedOnce) (by decide)
      (show 0 < (start .recording {} 1 0).collaborator.controllers.length by decide) rfl rfl
  obtain ⟨t, events, hrun, ht, -⟩ := hrepeated 2
  refine ⟨hresult, ?_, t, events, hrun, ?_, ?_⟩
  · rw [htranscript]
    rfl
  · rw [ht]
    rfl
  · rw [ht]
    rfl

end Bench

end CallOrder
