/-
What one thread does at a registry while the others stand still.

`Registry.resolve` opens a place, looks into it, makes the instance and fills the place in
one go.  At a registry that threads share each of these is a step of its own, and a thread
that is left alone takes them one after another (`steps_resolve`).  Putting attempts in a
row, catching their failures and going through a list only chains such steps, so a whole
script of operations, nested as deep as it may be, comes to what one thread can come to
(`steps_run`), and what is true of every workshop (`one_instance`) is true of the registry that
the script leaves.
-/
import CallOrder.Proofs.Workshop
import CallOrder.Registry.Script

namespace CallOrder

/-! ### What asking for an instance comes to -/

namespace Registry

variable {r : Registry} {mock value : String} {β : Type} {make : Attempt Registry (String × β)}

theorem resolve_of_found (h : (r.reserve mock).instance? mock = some value) :
    resolve mock make r = ⟨.ok (value, none), r.reserve mock, []⟩ := by
  simp only [resolve, h]

/-- Only a value fills the place; a failure leaves what was done before it. -/
theorem resolve_of_missing (h : (r.reserve mock).instance? mock = none) :
    resolve mock make r =
      match make (r.reserve mock).begun with
      | ⟨.ok (value, extra), made, events⟩ =>
        ⟨.ok (value, some extra), made.fill mock value, events ++ [.created mock]⟩
      | ⟨.error f, left, events⟩ => ⟨.error f, left, events⟩ := by
  simp only [resolve, h]
  rfl

end Registry

namespace Workshop

/-! ### Attempts step by step -/

variable {x : Workshop} {i : Nat} {quests : List Quest} {mock : String}
  {α β : Type} {busy : List String}

/-- Nobody is making anything but these. -/
def MakingOnly (x : Workshop) (busy : List String) : Prop :=
  ∀ mock, 0 < x.makings mock → mock ∈ busy

/-- Asking is not making yet. -/
theorem MakingOnly.asked (h : x.MakingOnly busy) (turn : x.threads[i]? = some quests)
    (mock : String) (registry : Registry) (happening : Happening) :
    (x.next i (.asking mock :: quests) registry happening).MakingOnly busy := by
  intro m hpos
  have hmakings := makings_next turn (.asking mock :: quests) registry happening m
  rw [count_asking_cons] at hmakings
  exact h m (by omega)

theorem MakingOnly.began (h : x.MakingOnly busy)
    (turn : x.threads[i]? = some (.asking mock :: quests)) (registry : Registry)
    (happening : Happening) :
    (x.next i (.making mock :: quests) registry happening).MakingOnly (mock :: busy) := by
  intro m hpos
  have hmakings := makings_next turn (.making mock :: quests) registry happening m
  rw [count_asking_cons, count_making_cons] at hmakings
  by_cases hm : mock = m
  · exact List.mem_cons.mpr (Or.inl hm.symm)
  · rw [decide_eq_false hm, Bool.toNat_false] at hmakings
    exact List.mem_cons_of_mem _ (h m (by omega))

/-- What an attempt does to a registry, a thread does step by step while it is left alone, wherever
nobody is making anything but these. -/
def Stepwise (busy : List String) (act : Attempt Registry α) : Prop :=
  ∀ (x : Workshop) (i : Nat) (quests : List Quest), x.threads[i]? = some quests →
    free quests = true → x.MakingOnly busy →
      ∃ more, Steps x ⟨(act x.registry).state, x.threads, x.history ++ more⟩

/-- What is told of a thread that asked for an instance in the end. -/
def ending (mock : String) : Except Failure (String × β) → Happening
  | .ok (value, _) => .got mock value
  | .error _ => .gaveUp mock

/-- It may change what it is about and come back to it. -/
theorem threads_set_set (turn : x.threads[i]? = some quests) (quests' : List Quest) :
    (x.threads.set i quests').set i quests = x.threads := by
  obtain ⟨hi, rfl⟩ := List.getElem?_eq_some_iff.mp turn
  rw [List.set_set, List.set_getElem_self]

theorem getElem?_threads_next (turn : x.threads[i]? = some quests) (quests' : List Quest)
    (registry : Registry) (happening : Happening) :
    (x.next i quests' registry happening).threads[i]? = some quests' :=
  List.getElem?_set_self (List.getElem?_eq_some_iff.mp turn).1

namespace Stepwise

/-- What leaves the registry alone is done in no steps. -/
theorem of_state_eq {act : Attempt Registry α} (h : ∀ r, (act r).state = r) :
    Stepwise busy act := by
  intro x i quests _ _ _
  refine ⟨[], ?_⟩
  rw [h, List.append_nil]
  exact .refl

theorem bind {act : Attempt Registry α} {rest : α → Attempt Registry β} (h : Stepwise busy act)
    (hrest : ∀ a, Stepwise busy (rest a)) : Stepwise busy (act >>= rest) := by
  intro x i quests turn hfree hbusy
  obtain ⟨more, hsteps⟩ := h x i quests turn hfree hbusy
  rw [Attempt.bind_apply]
  rcases hact : act x.registry with ⟨result, r, events⟩
  rw [hact] at hsteps
  rcases result with f | a
  · exact ⟨more, hsteps⟩
  · obtain ⟨later, hlater⟩ :=
      hrest a ⟨r, x.threads, x.history ++ more⟩ i quests turn hfree hbusy
    rw [List.append_assoc] at hlater
    exact ⟨more ++ later, hsteps.trans hlater⟩

theorem caught {act : Attempt Registry α} (h : Stepwise busy act) : Stepwise busy act.caught :=
  h

theorem unlogged {act : Attempt Registry α} (h : Stepwise busy act) : Stepwise busy act.unlogged :=
  h

theorem forEach {ι : Type} {act : ι → Attempt Registry α} (h : ∀ item, Stepwise busy (act item)) :
    ∀ items, Stepwise busy (Attempt.forEach act items)
  | [] => of_state_eq fun _ => rfl
  | item :: rest =>
      (h item).bind fun _ => (forEach h rest).bind fun _ => of_state_eq fun _ => rfl

end Stepwise

/-- Where the place is open and empty, the thread begins to make the instance, makes it step by step,
and gets it, or gives up. -/
theorem steps_make {make : Attempt Registry (String × β)} {o : Outcome Registry (String × β)}
    (hmake : Stepwise (mock :: busy) make) (ho : make x.registry.begun = o) (hmock : mock ∉ busy)
    (turn : x.threads[i]? = some (.asking mock :: quests)) (hplace : mock ∈ x.registry.types)
    (hmissing : x.registry.instance? mock = none) (hbusy : x.MakingOnly busy) :
    ∃ more, Steps x
      ⟨match o.result with
        | .ok (value, _) => o.state.fill mock value
        | .error _ => o.state,
        x.threads.set i quests, x.history ++ (more ++ [ending mock o.result])⟩ := by
  have hnobody : x.makings mock = 0 :=
    Nat.eq_zero_of_not_pos fun hpos => hmock (hbusy mock hpos)
  have hbegan := Step.began turn hmissing (List.count_eq_zero.mp hnobody)
  have hmaking :=
    getElem?_threads_next turn (.making mock :: quests) x.registry.begun (.began mock)
  obtain ⟨more, hmade⟩ := hmake _ i _ hmaking rfl (hbusy.began turn _ _)
  rw [next, ho] at hmade
  have hsteps : Steps x _ := .head hbegan hmade
  obtain ⟨result, made, events⟩ := o
  rcases result with f | ⟨value, extra⟩
  · have hgaveUp : Steps x _ := hsteps.tail (.gaveUp (i := i) hmaking)
    refine ⟨.began mock :: more, ?_⟩
    simpa [next, ending] using hgaveUp
  · have hcompleted := hsteps.tail (.completed (i := i) value hmaking)
    have hkept : mock ∈ made.types := types_subset hsteps hplace
    have hthere : (made.fill mock value).instance? mock = some value := by
      rw [Registry.instance?_fill hkept, if_pos rfl]
    have hasking := getElem?_threads_next hmaking (.asking mock :: quests) (made.fill mock value)
      (.completed mock value)
    have hgot : Steps x _ := hcompleted.tail (.found hasking hthere)
    refine ⟨.began mock :: more ++ [.completed mock value], ?_⟩
    simpa [next, ending] using hgot

/-- **An instance that is asked for alone is got, or given up, step by step.** -/
theorem steps_resolve {make : Attempt Registry (String × β)} (hmock : mock ∉ busy)
    (hmake : Stepwise (mock :: busy) make) (turn : x.threads[i]? = some quests)
    (hfree : free quests = true) (hbusy : x.MakingOnly busy) :
    ∃ more, Steps x ⟨(Registry.resolve mock make x.registry).state, x.threads,
      x.history ++ (more ++ [ending mock (Registry.resolve mock make x.registry).result])⟩ := by
  have hasked := Step.asked mock turn hfree
  have hasking :=
    getElem?_threads_next turn (.asking mock :: quests) (x.registry.reserve mock) (.asked mock)
  cases hthere : (x.registry.reserve mock).instance? mock with
  | some value =>
      have hfound := Step.found hasking hthere
      refine ⟨[.asked mock], ?_⟩
      have hsteps : Steps x _ := .tail (.single hasked) hfound
      rw [Registry.resolve_of_found hthere]
      simpa [next, threads_set_set turn, ending] using hsteps
  | none =>
      rcases ho : make (x.registry.reserve mock).begun with ⟨result, made, events⟩
      obtain ⟨more, hmade⟩ := steps_make hmake ho hmock hasking
        (Registry.mem_types_reserve.mpr (Or.inr rfl)) hthere (hbusy.asked turn _ _ _)
      have hsteps : Steps x _ := .head hasked hmade
      refine ⟨.asked mock :: more, ?_⟩
      rw [Registry.resolve_of_missing hthere, ho]
      rcases result with f | ⟨value, extra⟩
      · simpa [next, threads_set_set turn, ending] using hsteps
      · simpa [next, threads_set_set turn, ending] using hsteps

/-! ### What a script does -/

theorem Stepwise.resolve {make : Attempt Registry (String × β)} (hmock : mock ∉ busy)
    (hmake : Stepwise (mock :: busy) make) : Stepwise busy (Registry.resolve mock make) := by
  intro x i quests turn hfree hbusy
  obtain ⟨more, hsteps⟩ := steps_resolve hmock hmake turn hfree hbusy
  exact ⟨_, hsteps⟩

end Workshop

namespace Registry.Operation

/-- Whether it asks for nothing that is being made, be it these or what it is making itself. -/
def wellNested (busy : List String) : Operation → Bool
  | .resolve mock _ before _ => decide (mock ∉ busy) && wellNestedBefore (mock :: busy) before
  | .concurrently mock _ _ => decide (mock ∉ busy)
where
  /-- So it is with what is done before an instance is made. -/
  wellNestedBefore (busy : List String) : Option (List Operation) → Bool
    | none => true
    | some operations => wellNestedEach busy operations
  /-- And with operations in order. -/
  wellNestedEach (busy : List String) : List Operation → Bool
    | [] => true
    | operation :: rest => wellNested busy operation && wellNestedEach busy rest

end Registry.Operation

namespace Workshop

open Registry.Operation

mutual

/-- What is done with a registry is done step by step, as deep as it is nested. -/
theorem stepwise_perform : ∀ (operation : Registry.Operation) {busy : List String},
    operation.wellNested busy = true → Stepwise busy (Registry.perform operation)
  | .resolve mock value before reason, busy, h => by
      obtain ⟨hmock, hbefore⟩ := Bool.and_eq_true_iff.mp h
      rw [Registry.perform]
      refine Stepwise.bind (.resolve (of_decide_eq_true hmock) ?_) fun _ => .of_state_eq fun _ => rfl
      refine (stepwise_performBefore before hbefore).bind fun reports => ?_
      cases reason with
      | none => exact .of_state_eq fun _ => rfl
      | some text => exact .of_state_eq fun _ => rfl
  | .concurrently mock value threads, busy, h => by
      rw [Registry.perform]
      refine Stepwise.bind ?_ fun _ => .of_state_eq fun _ => rfl
      refine Stepwise.unlogged (.forEach (fun _ => ?_) _)
      exact .resolve (of_decide_eq_true h) (.of_state_eq fun _ => rfl)

theorem stepwise_performBefore :
    ∀ (before : Option (List Registry.Operation)) {busy : List String},
    wellNested.wellNestedBefore busy before = true →
      Stepwise busy (Registry.perform.performBefore before)
  | none, busy, _ => .of_state_eq fun _ => rfl
  | some operations, busy, h => by
      rw [Registry.perform.performBefore]
      exact (stepwise_performEach operations h).bind fun _ => .of_state_eq fun _ => rfl

theorem stepwise_performEach : ∀ (operations : List Registry.Operation) {busy : List String},
    wellNested.wellNestedEach busy operations = true →
      Stepwise busy (Registry.perform.performEach operations)
  | [], busy, _ => .of_state_eq fun _ => rfl
  | operation :: rest, busy, h => by
      obtain ⟨hfirst, hrest⟩ := Bool.and_eq_true_iff.mp h
      rw [Registry.perform.performEach]
      refine (stepwise_perform operation hfirst).caught.bind fun _ => ?_
      refine Stepwise.bind (.of_state_eq fun _ => rfl) fun _ => ?_
      exact (stepwise_performEach rest hrest).bind fun _ => .of_state_eq fun _ => rfl

end

variable {x : Workshop} {i : Nat} {quests : List Quest} {busy : List String}

/-- **What a script of operations comes to is what one thread comes to.** -/
theorem steps_run {operations : List Registry.Operation} (turn : x.threads[i]? = some quests)
    (hfree : free quests = true) (hbusy : x.MakingOnly busy)
    (h : wellNested.wellNestedEach busy operations = true) :
    ∃ more, Steps x ⟨(Registry.run operations x.registry).state, x.threads, x.history ++ more⟩ :=
  stepwise_performEach operations h x i quests turn hfree hbusy

/-! ### What every workshop comes to -/

/-- **Of each type there is one instance.**

However many threads ask for whatever types, one while making another or not, and wherever making
one is given up: of each type at most one instance is ever made.  Whoever gets an instance gets that
one, and once it is made it stays, and no making of its type begins again.  If a making is given up,
the registry is as it was, and whoever comes next to the place makes the instance.  Places stay
where they are with what is in them, and there are as many as types were asked for.

The steps are those of `Registry.resolve`: wherever a thread can ask for something, what asking
for an instance, or a whole script, does in one go is done step by step while the thread is left
alone, if it asks for nothing that is being made. -/
theorem one_instance {n : Nat} (h : Steps (start n) x) :
    (∀ mock, x.completions mock ≤ 1) ∧
    (∀ mock value, .got mock value ∈ x.history → .completed mock value ∈ x.history) ∧
    (∀ mock value, .completed mock value ∈ x.history → ∀ y, Steps x y →
      y.registry.instance? mock = some value ∧ y.beginnings mock = x.beginnings mock ∧
      ∀ value', .got mock value' ∈ y.history → value' = value) ∧
    (∀ y mock, Step x y → y.history = x.history ++ [.gaveUp mock] →
      y.registry = x.registry ∧
      ∀ z, Steps y z → z.beginnings mock = y.beginnings mock →
        z.registry.instance? mock = none ∧
        ∀ j rest, z.threads[j]? = some (.asking mock :: rest) →
          Step z (z.next j (.making mock :: rest) z.registry.begun (.began mock))) ∧
    (∀ y, Steps x y → x.registry.KeptIn y.registry) ∧
    x.registry.size = (x.history.filterMap Happening.asked?).dedup.length ∧
    ∀ (i : Nat) (quests : List Quest) (busy : List String), x.threads[i]? = some quests →
      free quests = true → x.MakingOnly busy →
      (∀ {β : Type} (mock : String) (make : Attempt Registry (String × β)), mock ∉ busy →
        Stepwise (mock :: busy) make →
          let o := Registry.resolve mock make x.registry
          ∃ more, Steps x ⟨o.state, x.threads, x.history ++ (more ++ [ending mock o.result])⟩) ∧
      ∀ operations, wellNested.wellNestedEach busy operations = true →
        ∃ more, Steps x
          ⟨(Registry.run operations x.registry).state, x.threads, x.history ++ more⟩ := by
  have hsound := (Sound.start n).steps h
  refine ⟨fun mock => ?_, hsound.recorded.got, fun mock value hcompleted y hsteps => ?_,
    fun y mock hstep => hsound.left_to_next hstep, fun y hsteps => hsound.keptIn hsteps,
    hsound.size_eq, fun i quests busy turn hfree hbusy =>
      ⟨fun mock make hmock hmake => steps_resolve hmock hmake turn hfree hbusy,
        fun operations hnested => steps_run turn hfree hbusy hnested⟩⟩
  · have hsingle := hsound.counted.single mock
    omega
  · have hy := (hsound.steps hsteps).recorded
    have hmade := (hy.made mock value).mpr ((isPrefix_history hsteps).mem hcompleted)
    refine ⟨hmade, hsound.beginnings_eq hcompleted hsteps, fun value' hgot => ?_⟩
    have hmade' := (hy.made mock value').mpr (hy.got mock value' hgot)
    exact Option.some.inj (hmade'.symm.trans hmade)

/-- One thread makes a composite for which it needs a store.  Another has given up on the store, and
wants a composite as well.  The first makes the store, and then gives up on the composite: the store
stays, and the composite is left to the other. -/
theorem store_outlives_composite : ∃ x y, Steps (start 2) x ∧ Step x y ∧
    y.history = x.history ++ [.gaveUp "Composite"] ∧ x.beginnings "Store" = 2 ∧
    x.completions "Store" ≤ 1 ∧ y.registry.instance? "Store" = some "s" ∧
    y.beginnings "Store" = 2 ∧ y.registry.instance? "Composite" = none ∧
    Step y (y.next 1 [.making "Composite"] y.registry.begun (.began "Composite")) ∧
    x.registry.size = 2 := by
  have hcomposite : Steps (start 2) _ := .single (.asked (i := 0) "Composite" rfl rfl)
  have hmaking := hcomposite.tail (.began (i := 0) rfl rfl (by decide))
  have hstore := hmaking.tail (.asked (i := 0) "Store" rfl rfl)
  have hother := hstore.tail (.asked (i := 1) "Store" rfl rfl)
  have htrying := hother.tail (.began (i := 1) rfl rfl (by decide))
  have hfailed := htrying.tail (.gaveUp (i := 1) rfl)
  have hwaiting := hfailed.tail (.asked (i := 1) "Composite" rfl rfl)
  have hagain := hwaiting.tail (.began (i := 0) rfl rfl (by decide))
  have hmade := hagain.tail (.completed (i := 0) "s" rfl)
  have hx := hmade.tail (.found (i := 0) rfl rfl)
  have hgaveUp {x : Workshop} (_ : Steps (start 2) x)
      (turn : x.threads[0]? = some [.making "Composite"]) :
      Step x (x.next 0 [] x.registry (.gaveUp "Composite")) := .gaveUp turn
  obtain ⟨honce, -, hstays, hleft, -, hsize, -⟩ := one_instance hx
  have hstep := hgaveUp hx rfl
  obtain ⟨hregistry, hnext⟩ := hleft _ "Composite" hstep rfl
  obtain ⟨hmissing, hturn⟩ := hnext _ .refl rfl
  obtain ⟨hvalue, hbegun, -⟩ := hstays "Store" "s" (by decide) _ (.single hstep)
  exact ⟨_, _, hx, hstep, rfl, rfl, honce "Store", hvalue, hbegun, hmissing, hturn 1 [] rfl, hsize⟩

end Workshop

end CallOrder
