/-
Threads at one registry of instances.

Who asks for an instance opens the place of its type under the lock of the registry, and
goes to the place without it.  If the instance is there, that is it.  If it is not, one
thread makes it while the others wait, and since making it holds no lock of the registry,
it may ask for other instances on the way.  What a thread is about is therefore a stack.
Making an instance comes to any value, or is given up; then the place is as empty as
before, and whoever comes next to it makes the instance after all.  A thread that asks for
what it is making itself waits for ever, and is not excluded here.

A history beside the registry tells what happened.  The registry holds what was asked for
and what was made (`Recorded`).  For each type, the instances that were made and those
that are being made are one at most (`Counted`).  Both together are kept by every step,
and everything that can be said of instances follows from them (`one_instance`).
-/
import CallOrder.Proofs.Place
import Mathlib.Data.List.Dedup
import Mathlib.Logic.Relation

namespace CallOrder

/-- What a thread is about: it has opened a place and wants what belongs there, or it makes it. -/
inductive Quest where
  | asking (mock : String)
  | making (mock : String)
deriving DecidableEq

/-- The type that it is about. -/
def Quest.mock : Quest → String
  | asking mock => mock
  | making mock => mock

/-- What happens at a registry. -/
inductive Happening where
  | asked (mock : String)
  | began (mock : String)
  | completed (mock value : String)
  | gaveUp (mock : String)
  | got (mock value : String)
deriving DecidableEq

namespace Happening

/-- Whether the making of an instance of the type began. -/
def begins (mock : String) : Happening → Bool
  | began other => other = mock
  | _ => false

/-- Whether an instance of the type was made. -/
def completes (mock : String) : Happening → Bool
  | completed other _ => other = mock
  | _ => false

/-- Whether the making of an instance of the type was given up. -/
def fails (mock : String) : Happening → Bool
  | gaveUp other => other = mock
  | _ => false

/-- The type that was asked for, if one was. -/
def asked? : Happening → Option String
  | asked mock => some mock
  | _ => none

end Happening

/-- A registry, what each thread is about, the innermost first, and what happened so far. -/
structure Workshop where
  registry : Registry
  threads : List (List Quest)
  history : List Happening := []

namespace Workshop

/-- A number of threads, and a registry that nothing was asked of. -/
def start (n : Nat) : Workshop where
  registry := {}
  threads := List.replicate n []

/-- One thread goes on to what it is about now. -/
def next (x : Workshop) (i : Nat) (quests : List Quest) (registry : Registry)
    (happening : Happening) : Workshop where
  registry := registry
  threads := x.threads.set i quests
  history := x.history ++ [happening]

/-- Whether a thread can ask for something: it does not wait for what it asked for before. -/
def free : List Quest → Bool
  | .asking _ :: _ => false
  | _ => true

/-- What a thread does without another coming in between. -/
inductive Step : Workshop → Workshop → Prop where
  /-- It opens the place of a type, be it at first or while it makes something else. -/
  | asked {x : Workshop} {i : Nat} {quests : List Quest} (mock : String)
      (turn : x.threads[i]? = some quests) (free : free quests = true) :
      Step x (x.next i (.asking mock :: quests) (x.registry.reserve mock) (.asked mock))
  /-- It gets the instance that is there. -/
  | found {x : Workshop} {i : Nat} {mock value : String} {rest : List Quest}
      (turn : x.threads[i]? = some (.asking mock :: rest))
      (there : x.registry.instance? mock = some value) :
      Step x (x.next i rest x.registry (.got mock value))
  /-- It begins to make the instance that is not there, if nobody is making it. -/
  | began {x : Workshop} {i : Nat} {mock : String} {rest : List Quest}
      (turn : x.threads[i]? = some (.asking mock :: rest))
      (missing : x.registry.instance? mock = none)
      (nobody : Quest.making mock ∉ x.threads.flatten) :
      Step x (x.next i (.making mock :: rest) x.registry.begun (.began mock))
  /-- It has made the instance, and puts it into the place. -/
  | completed {x : Workshop} {i : Nat} {mock : String} {rest : List Quest} (value : String)
      (turn : x.threads[i]? = some (.making mock :: rest)) :
      Step x (x.next i (.asking mock :: rest) (x.registry.fill mock value) (.completed mock value))
  /-- It gives up what it was making. -/
  | gaveUp {x : Workshop} {i : Nat} {mock : String} {rest : List Quest}
      (turn : x.threads[i]? = some (.making mock :: rest)) :
      Step x (x.next i rest x.registry (.gaveUp mock))

/-- What any number of steps lead to. -/
def Steps : Workshop → Workshop → Prop :=
  Relation.ReflTransGen Step

/-- How often the making of an instance of the type began. -/
def beginnings (x : Workshop) (mock : String) : Nat :=
  x.history.countP (·.begins mock)

/-- How often an instance of the type was made. -/
def completions (x : Workshop) (mock : String) : Nat :=
  x.history.countP (·.completes mock)

/-- How often the making of an instance of the type was given up. -/
def failures (x : Workshop) (mock : String) : Nat :=
  x.history.countP (·.fails mock)

/-- How many threads are making an instance of the type, or how often one thread is. -/
def makings (x : Workshop) (mock : String) : Nat :=
  x.threads.flatten.count (.making mock)

variable {x y z : Workshop} {i : Nat} {quests quests' : List Quest} {registry : Registry}
  {happening : Happening} {mock value : String}

/-- A step is that of one thread, and one thing happens. -/
theorem Step.eq_next (h : Step x y) :
    ∃ i quests registry happening, y = x.next i quests registry happening := by
  cases h <;> exact ⟨_, _, _, _, rfl⟩

theorem isPrefix_history (h : Steps x y) : x.history <+: y.history := by
  induction h with
  | refl => exact List.prefix_refl _
  | tail _ hstep ih =>
      obtain ⟨i, quests, registry, happening, rfl⟩ := hstep.eq_next
      exact ih.trans (List.prefix_append ..)

/-- No place is ever closed. -/
theorem types_subset (h : Steps x y) : x.registry.types ⊆ y.registry.types := by
  induction h with
  | refl => exact List.Subset.refl _
  | tail _ hstep ih =>
      intro other hother
      cases hstep with
      | asked mock turn free => exact Registry.mem_types_reserve.mpr (Or.inl (ih hother))
      | completed value turn =>
          rw [next, Registry.types_fill]
          exact ih hother
      | found | began | gaveUp => exact ih hother

/-! ### The registry and the history -/

/-- The registry holds what the history tells, and nobody is about a type without a place. -/
structure Recorded (x : Workshop) : Prop where
  nodup : x.registry.types.Nodup
  opened : ∀ mock, mock ∈ x.registry.types ↔ .asked mock ∈ x.history
  placed : ∀ quests ∈ x.threads, ∀ q ∈ quests, q.mock ∈ x.registry.types
  made : ∀ mock value, x.registry.instance? mock = some value ↔ .completed mock value ∈ x.history
  got : ∀ mock value, .got mock value ∈ x.history → .completed mock value ∈ x.history

/-- Of each type, the instances made and those in the making are one at most, and what was begun
was made, was given up, or is in the making. -/
structure Counted (x : Workshop) : Prop where
  single : ∀ mock, x.completions mock + x.makings mock ≤ 1
  begun : ∀ mock, x.beginnings mock = x.completions mock + x.failures mock + x.makings mock

theorem completions_pos (h : .completed mock value ∈ x.history) : 0 < x.completions mock :=
  List.countP_pos_iff.mpr ⟨_, h, decide_eq_true rfl⟩

theorem exists_completed (h : 0 < x.completions mock) :
    ∃ value, .completed mock value ∈ x.history := by
  obtain ⟨happening, hmem, hcompletes⟩ := List.countP_pos_iff.mp h
  cases happening with
  | completed other value =>
      obtain rfl : other = mock := of_decide_eq_true hcompletes
      exact ⟨value, hmem⟩
  | _ => exact Bool.noConfusion hcompletes

theorem Recorded.completions_eq_zero (h : x.Recorded)
    (hmissing : x.registry.instance? mock = none) : x.completions mock = 0 := by
  by_contra hpos
  obtain ⟨value, hvalue⟩ := exists_completed (Nat.pos_of_ne_zero hpos)
  rw [(h.made mock value).mpr hvalue] at hmissing
  exact absurd hmissing nofun

theorem Recorded.instance?_eq_none (h : x.Recorded) (hnone : x.completions mock = 0) :
    x.registry.instance? mock = none := by
  refine Option.eq_none_iff_forall_ne_some.mpr fun value hvalue => ?_
  have hpos := completions_pos ((h.made mock value).mp hvalue)
  omega

theorem mem_history_next {happening' : Happening} :
    happening' ∈ (x.next i quests registry happening).history
      ↔ happening' ∈ x.history ∨ happening' = happening := by
  rw [next, List.mem_append, List.mem_singleton]

theorem makings_next (turn : x.threads[i]? = some quests) (quests' : List Quest)
    (registry : Registry) (happening : Happening) (mock : String) :
    (x.next i quests' registry happening).makings mock + quests.count (.making mock)
      = x.makings mock + quests'.count (.making mock) := by
  obtain ⟨hi, rfl⟩ := List.getElem?_eq_some_iff.mp turn
  obtain ⟨early, late, hbefore, -, hafter⟩ : ∃ early late, x.threads = early ++ x.threads[i] :: late ∧
      early.length = i ∧ x.threads.set i quests' = early ++ quests' :: late := List.exists_of_set hi
  have hold : x.makings mock = early.flatten.count (.making mock)
      + (x.threads[i].count (.making mock) + late.flatten.count (.making mock)) := by
    rw [makings]
    conv_lhs => rw [hbefore]
    simp
  have hnew : (x.next i quests' registry happening).makings mock
      = early.flatten.count (.making mock)
        + (quests'.count (.making mock) + late.flatten.count (.making mock)) := by
    simp [makings, next, hafter]
  omega

theorem count_making_cons (mock m : String) (rest : List Quest) :
    (Quest.making mock :: rest).count (.making m)
      = rest.count (.making m) + (decide (mock = m)).toNat := by
  by_cases h : mock = m <;> simp [h]

theorem count_asking_cons (mock m : String) (rest : List Quest) :
    (Quest.asking mock :: rest).count (.making m) = rest.count (.making m) := by
  simp

theorem countP_history_next (p : Happening → Bool) :
    (x.next i quests registry happening).history.countP p
      = x.history.countP p + (p happening).toNat := by
  cases h : p happening <;> simp [next, h]

namespace Recorded

theorem start (n : Nat) : (start n).Recorded where
  nodup := List.nodup_nil
  opened _ := ⟨nofun, nofun⟩
  placed quests hquests q hq := by
    obtain rfl := List.eq_of_mem_replicate hquests
    exact absurd hq List.not_mem_nil
  made _ _ := ⟨nofun, nofun⟩
  got _ _ := nofun

/-- What a thread has a place for it still has after others opened theirs. -/
theorem placed_next (h : x.Recorded) (htypes : x.registry.types ⊆ registry.types)
    (hquests : ∀ q ∈ quests, q.mock ∈ registry.types) :
    ∀ quests' ∈ (x.next i quests registry happening).threads, ∀ q ∈ quests',
      q.mock ∈ registry.types := by
  intro quests' hmem q hq
  rcases List.mem_or_eq_of_mem_set hmem with hmem | rfl
  · exact htypes (h.placed quests' hmem q hq)
  · exact hquests q hq

/-- Where no place is opened and none is filled, nothing has to be told of them. -/
theorem quiet (h : x.Recorded) (hslots : registry.slots = x.registry.slots)
    (hquests : ∀ q ∈ quests, q.mock ∈ x.registry.types)
    (hasked : ∀ mock, happening ≠ .asked mock)
    (hcompleted : ∀ mock value, happening ≠ .completed mock value)
    (hgot : ∀ mock value, happening = .got mock value → x.registry.instance? mock = some value) :
    (x.next i quests registry happening).Recorded := by
  have htypes : registry.types = x.registry.types := by rw [Registry.types, hslots, Registry.types]
  have hinstance (mock : String) : registry.instance? mock = x.registry.instance? mock := by
    rw [Registry.instance?, hslots, Registry.instance?]
  have hsame {mock value : String} :
      .completed mock value ∈ (x.next i quests registry happening).history
        ↔ .completed mock value ∈ x.history :=
    mem_history_next.trans (or_iff_left (hcompleted mock value).symm)
  refine ⟨?_, fun mock => ?_, ?_, fun mock value => ?_, fun mock value hmem => ?_⟩
  · exact htypes ▸ h.nodup
  · rw [mem_history_next, or_iff_left (hasked mock).symm, ← h.opened]
    exact iff_of_eq (congrArg (mock ∈ ·) htypes)
  · exact h.placed_next (htypes ▸ List.Subset.refl _) (htypes ▸ hquests)
  · rw [hsame, ← h.made]
    exact iff_of_eq (congrArg (· = some value) (hinstance mock))
  · rw [hsame]
    rcases mem_history_next.mp hmem with hmem | rfl
    · exact h.got mock value hmem
    · exact (h.made mock value).mp (hgot mock value rfl)

/-- Opening a place is asking for its type. -/
theorem asked (h : x.Recorded) (turn : x.threads[i]? = some quests) (mock : String) :
    (x.next i (.asking mock :: quests) (x.registry.reserve mock) (.asked mock)).Recorded := by
  have hold : x.registry.types ⊆ (x.registry.reserve mock).types :=
    fun _ hmem => Registry.mem_types_reserve.mpr (Or.inl hmem)
  refine ⟨Registry.nodup_types_reserve h.nodup mock, fun other => ?_, ?_, fun other value => ?_,
    fun other value hmem => ?_⟩
  · rw [mem_history_next, ← h.opened, Happening.asked.injEq]
    exact Registry.mem_types_reserve
  · refine h.placed_next hold fun q hq => ?_
    rcases List.mem_cons.mp hq with rfl | hq
    · exact Registry.mem_types_reserve.mpr (Or.inr rfl)
    · exact hold (h.placed quests (List.mem_of_getElem? turn) q hq)
  · rw [mem_history_next, or_iff_left nofun, ← h.made]
    exact iff_of_eq (congrArg (· = some value) (Registry.instance?_reserve ..))
  · rw [mem_history_next, or_iff_left nofun] at hmem ⊢
    exact h.got other value hmem

/-- Where none of the type was made before, filling its place is making the one that there is. -/
theorem completed (h : x.Recorded) {rest : List Quest}
    (turn : x.threads[i]? = some (.making mock :: rest)) (hnone : x.completions mock = 0)
    (value : String) :
    (x.next i (.asking mock :: rest) (x.registry.fill mock value)
      (.completed mock value)).Recorded := by
  have hquests := h.placed _ (List.mem_of_getElem? turn)
  have hmock : mock ∈ x.registry.types := hquests (.making mock) (List.mem_cons_self ..)
  have htypes := Registry.types_fill x.registry mock value
  refine ⟨?_, fun other => ?_, ?_, fun other value' => ?_, fun other value' hmem => ?_⟩
  · exact htypes ▸ h.nodup
  · rw [mem_history_next, or_iff_left nofun, ← h.opened]
    exact iff_of_eq (congrArg (other ∈ ·) htypes)
  · refine h.placed_next (htypes ▸ List.Subset.refl _) fun q hq => ?_
    rw [htypes]
    rcases List.mem_cons.mp hq with rfl | hq
    · exact hmock
    · exact hquests q (List.mem_cons_of_mem _ hq)
  · rw [mem_history_next, Happening.completed.injEq]
    have hfill := Registry.instance?_fill hmock value other
    refine (iff_of_eq (congrArg (· = some value') hfill)).trans ?_
    by_cases hother : other = mock
    · subst hother
      have hnew : .completed other value' ∉ x.history := fun hmem => by
        have hpos := completions_pos hmem
        omega
      simp [hnew, eq_comm]
    · simp [hother, h.made]
  · rw [mem_history_next, or_iff_left nofun] at hmem
    exact mem_history_next.mpr (Or.inl (h.got other value' hmem))

end Recorded

namespace Counted

theorem start (n : Nat) : (start n).Counted := by
  have hmakings (mock : String) : (Workshop.start n).makings mock = 0 := by
    simp [makings, Workshop.start]
  refine ⟨fun mock => ?_, fun mock => ?_⟩
  · rw [hmakings]
    exact Nat.zero_le 1
  · rw [hmakings]
    rfl

/-- What was being made is taken from the makings once it was made or given up. -/
theorem making_pos {rest : List Quest} (turn : x.threads[i]? = some (.making mock :: rest)) :
    0 < x.makings mock :=
  List.count_pos_iff.mpr
    (List.mem_flatten.mpr ⟨_, List.mem_of_getElem? turn, List.mem_cons_self ..⟩)

/-- A step keeps the counts if what happens is that the thread begins a making or has done with
one. -/
theorem next (h : x.Counted) (turn : x.threads[i]? = some quests)
    (hcount : ∀ mock, x.completions mock + x.makings mock + (happening.completes mock).toNat
        + quests'.count (.making mock) ≤ 1 + quests.count (.making mock) ∧
      (happening.begins mock).toNat + quests.count (.making mock)
        = (happening.completes mock).toNat + (happening.fails mock).toNat
          + quests'.count (.making mock)) :
    (x.next i quests' registry happening).Counted := by
  refine ⟨fun mock => ?_, fun mock => ?_⟩
  · have hmakings := makings_next turn quests' registry happening mock
    obtain ⟨hless, -⟩ := hcount mock
    rw [completions, countP_history_next, ← completions]
    omega
  · have hmakings := makings_next turn quests' registry happening mock
    obtain ⟨-, hbalance⟩ := hcount mock
    have hbefore := h.begun mock
    rw [beginnings, completions, failures, countP_history_next, countP_history_next,
      countP_history_next, ← beginnings, ← completions, ← failures]
    omega

theorem step (h : x.Counted) (hrecorded : x.Recorded) (hstep : Step x y) : y.Counted := by
  cases hstep with
  | asked mock turn free =>
      refine h.next turn fun m => ?_
      have hsingle := h.single m
      simp only [Happening.completes, Happening.begins, Happening.fails, count_asking_cons,
        Bool.toNat_false, and_true]
      omega
  | found turn there =>
      refine h.next turn fun m => ?_
      have hsingle := h.single m
      simp only [Happening.completes, Happening.begins, Happening.fails, count_asking_cons,
        Bool.toNat_false, and_true]
      omega
  | began turn missing nobody =>
      rename_i i mock rest
      refine h.next turn fun m => ?_
      -- It is the only making of the type, and nothing of it was made.
      have hsingle : x.completions m + x.makings m + (decide (mock = m)).toNat ≤ 1 := by
        by_cases hm : mock = m
        · subst hm
          have hcompletions := hrecorded.completions_eq_zero missing
          have hmakings : x.makings mock = 0 := List.count_eq_zero.mpr nobody
          simp [hcompletions, hmakings]
        · simpa [hm] using h.single m
      simp only [Happening.completes, Happening.begins, Happening.fails, count_asking_cons,
        count_making_cons, Bool.toNat_false]
      omega
  | completed value turn =>
      refine h.next turn fun m => ?_
      have hsingle := h.single m
      simp only [Happening.completes, Happening.begins, Happening.fails, count_asking_cons,
        count_making_cons, Bool.toNat_false]
      omega
  | gaveUp turn =>
      refine h.next turn fun m => ?_
      have hsingle := h.single m
      simp only [Happening.completes, Happening.begins, Happening.fails, count_making_cons,
        Bool.toNat_false]
      omega

end Counted

/-! ### Registry and history go together -/

/-- Registry, history and threads agree. -/
structure Sound (x : Workshop) : Prop where
  recorded : x.Recorded
  counted : x.Counted

namespace Sound

theorem start (n : Nat) : (start n).Sound :=
  ⟨.start n, .start n⟩

/-- What is being made was not made yet. -/
theorem completions_eq_zero (h : x.Sound) {rest : List Quest}
    (turn : x.threads[i]? = some (.making mock :: rest)) : x.completions mock = 0 := by
  have hsingle := h.counted.single mock
  have hpos := Counted.making_pos turn
  omega

theorem step (h : x.Sound) (hstep : Step x y) : y.Sound := by
  refine ⟨?_, h.counted.step h.recorded hstep⟩
  have hrest {i : Nat} {q : Quest} {rest : List Quest} (turn : x.threads[i]? = some (q :: rest)) :
      ∀ q' ∈ q :: rest, q'.mock ∈ x.registry.types :=
    h.recorded.placed _ (List.mem_of_getElem? turn)
  cases hstep with
  | asked mock turn free => exact h.recorded.asked turn mock
  | found turn there =>
      refine h.recorded.quiet rfl (fun q hq => hrest turn q (List.mem_cons_of_mem _ hq))
        nofun nofun fun mock value heq => ?_
      cases heq
      exact there
  | began turn missing nobody =>
      refine h.recorded.quiet rfl (fun q hq => ?_) nofun nofun nofun
      rcases List.mem_cons.mp hq with rfl | hq
      · exact hrest turn (.asking _) (List.mem_cons_self ..)
      · exact hrest turn q (List.mem_cons_of_mem _ hq)
  | completed value turn => exact h.recorded.completed turn (h.completions_eq_zero turn) value
  | gaveUp turn =>
      exact h.recorded.quiet rfl (fun q hq => hrest turn q (List.mem_cons_of_mem _ hq))
        nofun nofun nofun

theorem steps (h : x.Sound) (hsteps : Steps x y) : y.Sound := by
  induction hsteps with
  | refl => exact h
  | tail _ hstep ih => exact ih.step hstep

/-- Places stay where they are, and so do the instances in them. -/
theorem keptIn (h : x.Sound) (hsteps : Steps x y) : x.registry.KeptIn y.registry := by
  induction hsteps with
  | refl => exact .refl _
  | tail hbefore hstep ih =>
      have hsound := h.steps hbefore
      refine ih.trans ?_
      cases hstep with
      | asked mock turn free => exact Registry.keptIn_reserve _ mock
      | completed value turn =>
          have hnone := hsound.recorded.instance?_eq_none (hsound.completions_eq_zero turn)
          exact Registry.keptIn_fill hsound.recorded.nodup hnone value
      | found | began | gaveUp => exact .refl _

/-- What was made once is not made again. -/
theorem beginnings_eq (h : x.Sound) (hcompleted : .completed mock value ∈ x.history)
    (hsteps : Steps x y) : y.beginnings mock = x.beginnings mock := by
  induction hsteps with
  | refl => rfl
  | tail hbefore hstep ih =>
      have hmade := (h.steps hbefore).recorded.made mock value |>.mpr
        ((isPrefix_history hbefore).mem hcompleted)
      rw [← ih]
      cases hstep with
      | began turn missing nobody =>
          rename_i i other rest
          have hne : other ≠ mock := by
            rintro rfl
            rw [missing] at hmade
            exact absurd hmade nofun
          rw [beginnings, countP_history_next, Happening.begins, decide_eq_false hne]
          rfl
      | _ =>
          rw [beginnings, countP_history_next]
          rfl

/-- As many types have a place as were asked for. -/
theorem size_eq (h : x.Sound) :
    x.registry.size = (x.history.filterMap Happening.asked?).dedup.length := by
  rw [Registry.size_eq_length_types]
  refine List.Perm.length_eq ((List.perm_ext_iff_of_nodup h.recorded.nodup
    (List.nodup_dedup _)).mpr fun mock => ?_)
  rw [h.recorded.opened, List.mem_dedup, List.mem_filterMap]
  constructor
  · exact fun hasked => ⟨.asked mock, hasked, rfl⟩
  · rintro ⟨happening, hmem, hasked⟩
    cases happening with
    | asked other =>
        obtain rfl : other = mock := Option.some.inj hasked
        exact hmem
    | _ => exact absurd hasked nofun

/-- When the making of an instance is given up, and until another begins, nobody finds one and
everybody who comes to the place makes it. -/
theorem left_to_next (h : x.Sound) (hstep : Step x y)
    (hgaveUp : y.history = x.history ++ [.gaveUp mock]) :
    y.registry = x.registry ∧
    ∀ z, Steps y z → z.beginnings mock = y.beginnings mock →
      z.registry.instance? mock = none ∧
      ∀ j rest, z.threads[j]? = some (.asking mock :: rest) →
        Step z (z.next j (.making mock :: rest) z.registry.begun (.began mock)) := by
  have hy := h.step hstep
  obtain ⟨hregistry, hcompletions, hmakings⟩ :
      y.registry = x.registry ∧ y.completions mock = 0 ∧ y.makings mock = 0 := by
    cases hstep with
    | gaveUp turn =>
        rename_i i other rest
        obtain rfl : other = mock := by simpa [next] using hgaveUp
        have hcompletions := h.completions_eq_zero turn
        have hmakings := makings_next turn rest x.registry (.gaveUp other) other
        have hsingle := h.counted.single other
        rw [count_making_cons, decide_eq_true rfl, Bool.toNat_true] at hmakings
        refine ⟨rfl, ?_, by omega⟩
        rw [completions, countP_history_next, ← completions, hcompletions]
        rfl
    | _ => exact absurd hgaveUp (by simp [next])
  refine ⟨hregistry, fun z hsteps hsame => ?_⟩
  have hz := hy.steps hsteps
  -- What was begun up to now was given up, so nothing is left for what was made or is being made.
  have hfailures : y.failures mock ≤ z.failures mock :=
    (isPrefix_history hsteps).sublist.countP_le
  have hybegun := hy.counted.begun mock
  have hzbegun := hz.counted.begun mock
  have hmissing : z.registry.instance? mock = none := hz.recorded.instance?_eq_none (by omega)
  refine ⟨hmissing, fun j rest turn => .began turn hmissing ?_⟩
  exact List.count_eq_zero.mp (show z.makings mock = 0 by omega)

end Sound

end Workshop

end CallOrder
