/-
Chains of single calls, and how far apart they keep them.

A chain orders each call after the one before it and after no other.  That a call
comes after all that are further back rests on the calls between: one that is to be
made at least once has to wait for its predecessor, and its successor for it.  A call
that is to be made zero times waits for nothing and lets its successor go at once, so
it cuts the chain in two, and the later half may be called before the earlier one.

So two calls of a chain are kept in order exactly if it is not cut between them, unless
one of the two never happens (`sequence_precedes_iff`).  The way back goes along the
chain by transitivity, for the words that are kept as for the log of a run with hooks;
the way forth makes a run that is admitted and starts behind the cut.
-/
import CallOrder.Proofs.Admission
import CallOrder.Proofs.Log

namespace CallOrder

open Signature

namespace Pattern

variable {π ι : Type}

/-- Single calls, one after another. -/
def sequence (plans : List π) : Pattern π :=
  .chain (plans.map .leaf)

@[simp] theorem leaves_sequence (plans : List π) : (sequence plans).leaves = plans := by
  rw [sequence, leaves]
  induction plans with
  | nil => rfl
  | cons plan rest ih => rw [List.map_cons, leaves.leavesAll, ih, leaves, List.singleton_append]

theorem labelAll_map_leaf (plans : List π) (n : Nat) :
    label.labelAll n (plans.map .leaf) = (ids n plans.length).map .leaf := by
  induction plans generalizing n with
  | nil => rfl
  | cons plan rest ih =>
      rw [List.map_cons, label.labelAll, ih]
      simp [label, leaves, ids, List.range'_succ]

theorem links_nodes_map_leaf (es : List ι) :
    (node.nodes (es.map .leaf)).flatMap Node.links = es.map .single := by
  induction es with
  | nil => rfl
  | cons e es ih => rw [List.map_cons, node.nodes, List.flatMap_cons, ih]; rfl

variable [DecidableEq ι] {r : ι → ι → Prop}

/-- Each of several single calls is ordered after the one before it. -/
theorem satisfies_inSequence_iff {e : ι} {es : List ι} (hnodup : (e :: es).Nodup) :
    Satisfies r (Node.propagate.inSequence [e] (es.map .single)).constraints ↔
      (e :: es).IsChain r := by
  induction es generalizing e with
  | nil => simp [Node.propagate.inSequence]
  | cons f es ih =>
      obtain ⟨hhead, hrest⟩ := List.nodup_cons.mp hnodup
      have hne : e ≠ f := fun h => hhead (by simp [h])
      have hone : Satisfies r (Constraint.after [e] f) ↔ r e f := by
        simp [Constraint.after, Satisfies, hne]
      rw [List.map_cons, Node.propagate.inSequence, Node.propagate, satisfies_append, hone,
        ih hrest, List.isChain_cons_cons]

end Pattern

namespace Pattern

variable {r : CallId → CallId → Prop} {plans : List CallPlan} {w : List Signature}

theorem satisfies_relations_sequence_iff :
    Satisfies r (sequence plans).relations ↔
      ∀ k, k + 1 < plans.length → r ⟨0, k⟩ ⟨0, k + 1⟩ := by
  have hregistered : ∀ es : List CallId, registered.registeredAll (es.map .leaf) = [] := by
    intro es
    induction es with
    | nil => rfl
    | cons e es ih => rw [List.map_cons, registered.registeredAll, ih]; rfl
  have hrelations : (sequence plans).relations =
      (Node.propagate.inSequence [] ((ids 0 plans.length).map .single)).constraints := by
    rw [relations, sequence, label, label.labelAll, label, labelAll_map_leaf, registered,
      registered.registeredEach, registered, hregistered, node, links_nodes_map_leaf,
      Node.propagate]
    simp [label.labelAll, registered.registeredEach]
  have hchain : Satisfies r (Node.propagate.inSequence []
      ((ids 0 plans.length).map .single)).constraints ↔ (ids 0 plans.length).IsChain r := by
    have hnodup := nodup_ids 0 plans.length
    cases hids : ids 0 plans.length with
    | nil => simp [Node.propagate.inSequence]
    | cons e es =>
        rw [hids] at hnodup
        rw [← satisfies_inSequence_iff hnodup]
        simp [Node.propagate.inSequence, Node.propagate, Constraint.after]
  rw [hrelations, hchain, List.isChain_iff_getElem]
  simp [ids]

/-- Each call is ordered after the one before it. -/
theorem mem_relations_sequence {k : Nat} (hk : k + 1 < plans.length) :
    ⟨⟨0, k + 1⟩, ⟨0, k⟩⟩ ∈ (sequence plans).relations :=
  satisfies_relations_sequence_iff (r := fun p s => ⟨s, p⟩ ∈ (sequence plans).relations).mp
    (fun _ hc => hc) k hk

theorem kept_sequence_iff :
    (sequence plans).Kept w ↔ w.Perm (plans.flatMap CallPlan.word) ∧
      ∀ k, k + 1 < plans.length → Precede (CallPlan.wordAt plans) w ⟨0, k⟩ ⟨0, k + 1⟩ := by
  rw [Kept, satisfies_relations_sequence_iff, leaves_sequence]

/-- No call between these two is expected zero times. -/
def Uncut (plans : List CallPlan) (i j : Nat) : Prop :=
  ∀ k plan, i < k → k < j → plans[k]? = some plan → plan.cardinality ≠ 0

/-- Where a chain is not cut, what relates each call to the next, and passes on over calls that
are made, relates the two ends. -/
theorem Uncut.related {i j : Nat} (h : Uncut plans i j) (hij : i < j) (hj : j < plans.length)
    {r : Nat → Nat → Prop} (next : ∀ k, k + 1 < plans.length → r k (k + 1))
    (pass : ∀ k plan, plans[k]? = some plan → plan.cardinality ≠ 0 → k + 1 < plans.length →
      r i k → r i (k + 1)) : r i j := by
  obtain ⟨d, rfl⟩ := Nat.exists_eq_add_of_lt hij
  induction d with
  | zero => exact next i hj
  | succ d ih =>
      have hmid : i + d + 1 < plans.length := by omega
      have hplan := List.getElem?_eq_getElem hmid
      have hcalled := h _ _ (by omega) (by omega) hplan
      have huncut : Uncut plans i (i + d + 1) := fun k plan hik hkd => h k plan hik (by omega)
      exact pass _ _ hplan hcalled hj (ih huncut (by omega) hmid)

/-- A word that keeps the relations of an uncut chain keeps its ends in order. -/
theorem precede_of_kept_sequence (h : (sequence plans).Kept w) {i j : Nat} (hij : i < j)
    (hj : j < plans.length) (huncut : Uncut plans i j) :
    Precede (CallPlan.wordAt plans) w ⟨0, i⟩ ⟨0, j⟩ := by
  obtain ⟨hperm, hnext⟩ := kept_sequence_iff.mp h
  refine huncut.related (r := fun m n => Precede (CallPlan.wordAt plans) w ⟨0, m⟩ ⟨0, n⟩)
    hij hj hnext ?_
  intro k plan hplan hcalled hk hbefore
  exact CallPlan.precede_trans hperm hplan hcalled hbefore (hnext k hk)

/-! ### Starting behind a cut -/

/-- The calls after number `k`, then those up to it. -/
def rotated (plans : List CallPlan) (k : Nat) : List CallId :=
  ids (k + 1) (plans.length - (k + 1)) ++ ids 0 (k + 1)

/-- The calls are made in that order. -/
def rotatedWord (plans : List CallPlan) (k : Nat) : List Signature :=
  (rotated plans k).flatMap (CallPlan.wordAt plans)

theorem rotated_perm {k : Nat} (hk : k < plans.length) :
    (rotated plans k).Perm (ids 0 plans.length) := by
  have hids : ids 0 (k + 1) ++ ids (k + 1) (plans.length - (k + 1)) = ids 0 plans.length := by
    have happend := ids_append 0 (k + 1) (plans.length - (k + 1))
    rwa [Nat.zero_add, Nat.add_sub_cancel' hk] at happend
  rw [← hids]
  exact List.perm_append_comm

/-- It makes every call as often as it is to be. -/
theorem rotatedWord_perm {k : Nat} (hk : k < plans.length) :
    (rotatedWord plans k).Perm (plans.flatMap CallPlan.word) := by
  rw [← (CallPlan.numbered_wordAt plans).flatMap_ids]
  exact (rotated_perm hk).flatMap_right _

/-- A letter of a call stands where calls around its number are made one after another. -/
theorem singleton_sublist_ids {i a n : Nat} {plan : CallPlan} {c : Signature}
    (hi : plans[i]? = some plan) (hc : c ∈ plan.word) (ha : a ≤ i) (hn : i < a + n) :
    [c].Sublist ((ids a n).flatMap (CallPlan.wordAt plans)) := by
  refine List.singleton_sublist.mpr (List.mem_flatMap.mpr ⟨⟨0, i⟩, mem_ids.mpr ⟨rfl, ha, hn⟩, ?_⟩)
  rw [CallPlan.wordAt_of_getElem? hi]
  exact hc

section Rotated

variable (hdistinct : Distinguishable (plans.map (·.call))) {k : Nat} (hk : k < plans.length)

include hdistinct hk

theorem lettered_rotated : Lettered (CallPlan.wordAt plans) (rotated plans k) :=
  ((CallPlan.numbered_wordAt plans).lettered (CallPlan.lettered hdistinct)).perm (rotated_perm hk)

/-- Behind a call that is expected zero times, a chain can be started. -/
theorem kept_rotatedWord {plan : CallPlan} (hplan : plans[k]? = some plan)
    (hnever : plan.cardinality = 0) : (sequence plans).Kept (rotatedWord plans k) := by
  have hlettered := lettered_rotated hdistinct hk
  rw [kept_sequence_iff]
  refine ⟨rotatedWord_perm hk, ?_⟩
  intro m hm
  rcases Nat.lt_trichotomy m k with hmk | rfl | hmk
  · -- Both are in the later half of the run.
    have hsplit : rotated plans k =
        (ids (k + 1) (plans.length - (k + 1)) ++ ids 0 (m + 1)) ++ ids (m + 1) (k - m) := by
      have happend := ids_append 0 (m + 1) (k - m)
      rw [Nat.zero_add, show m + 1 + (k - m) = k + 1 by omega] at happend
      rw [rotated, List.append_assoc, happend]
    rw [hsplit] at hlettered
    rw [rotatedWord, hsplit]
    refine hlettered.precede (List.mem_append_right _ (mem_ids.mpr ?_)) (mem_ids.mpr ?_)
    · simp
    · simp only [true_and]
      omega
  · intro c hc
    rw [CallPlan.wordAt_of_getElem? hplan] at hc
    exact absurd (CallPlan.mem_word.mp hc).1 (by omega)
  · -- Both are in the earlier half of the run.
    have hsplit : rotated plans k = ids (k + 1) (m - k) ++
        (ids (m + 1) (plans.length - (m + 1)) ++ ids 0 (k + 1)) := by
      have happend := ids_append (k + 1) (m - k) (plans.length - (m + 1))
      rw [show k + 1 + (m - k) = m + 1 by omega,
        show m - k + (plans.length - (m + 1)) = plans.length - (k + 1) by omega] at happend
      rw [rotated, ← happend, List.append_assoc]
    rw [hsplit] at hlettered
    rw [rotatedWord, hsplit]
    refine hlettered.precede (mem_ids.mpr ?_) (List.mem_append_left _ (mem_ids.mpr ?_))
    · simp only [true_and]
      omega
    · simp only [true_and]
      omega

/-- The run that starts behind the cut makes the calls behind it first. -/
theorem not_precedes_rotatedWord {i j : Nat} {p q : CallPlan} (hi : plans[i]? = some p)
    (hj : plans[j]? = some q) (hik : i ≤ k) (hkj : k < j) (hp : p.cardinality ≠ 0)
    (hq : q.cardinality ≠ 0) : ¬Precedes p.call q.call (rotatedWord plans k) := by
  rw [CallPlan.precedes_iff hdistinct (rotatedWord_perm hk) hi hj (by omega)]
  intro hprecede
  have hjlt : j < plans.length := (List.getElem?_eq_some_iff.mp hj).1
  have hpword : p.call ∈ p.word := CallPlan.mem_word.mpr ⟨Nat.pos_of_ne_zero hp, rfl⟩
  have hqword : q.call ∈ q.word := CallPlan.mem_word.mpr ⟨Nat.pos_of_ne_zero hq, rfl⟩
  have hfirst := singleton_sublist_ids hj hqword (a := k + 1) (n := plans.length - (k + 1))
    (by omega) (by omega)
  have hsecond := singleton_sublist_ids hi hpword (a := 0) (n := k + 1) (by omega) (by omega)
  refine hprecede _ hpword _ hqword ?_
  rw [rotatedWord, rotated, List.flatMap_append]
  exact hfirst.append hsecond

end Rotated

end Pattern

namespace CallPlan

/-- A request for the call, of the type that the stub of its plan has. -/
def request (plans : List CallPlan) (call : Signature) : Request where
  call := call
  type := ((plans.find? (·.call.sameKey call)).bind (·.stub)).elim .text (·.type)

theorem suits_request {plans : List CallPlan} (hdistinct : Distinguishable (plans.map (·.call)))
    {plan : CallPlan} (hplan : plan ∈ plans) (call : Signature) :
    plan.Suits (request plans call) := by
  intro hkey stub hstub
  have hsome : (plans.find? (·.call.sameKey call)).isSome = true :=
    List.find?_isSome.mpr ⟨plan, hplan, hkey⟩
  obtain ⟨found, hfound⟩ := Option.isSome_iff_exists.mp hsome
  have hfoundkey : found.call.sameKey call = true := by simpa using List.find?_some hfound
  have hcalls : plan.call = found.call :=
    (eq_of_sameKey hkey).trans (eq_of_sameKey hfoundkey).symm
  obtain ⟨i, hi⟩ := List.mem_iff_getElem?.mp hplan
  obtain ⟨j, hj⟩ := List.mem_iff_getElem?.mp (List.mem_of_find?_eq_some hfound)
  obtain rfl := index_eq hdistinct hi hj hcalls
  obtain rfl : plan = found := by simpa using hi.symm.trans hj
  simp [request, hfound, hstub]

end CallPlan

namespace Ledger.Expects

variable {l : Ledger} {plans : List CallPlan} {numbers : List Nat}

/-- A call of a chain is answered after the one before it, if that one is to be called. -/
theorem next (h : l.Expects plans (Pattern.sequence plans).relations) (hn : l.Answers numbers)
    {k : Nat} {plan : CallPlan} (hplan : plans[k]? = some plan) (hk : k + 1 < plans.length) :
    Before numbers k (k + 1) ∧ (plan.cardinality ≠ 0 → k + 1 ∈ numbers → k ∈ numbers) := by
  obtain ⟨q, hq, -, htimes⟩ := h.exists_expectation hplan
  obtain ⟨f, hf, -, -⟩ := h.exists_expectation (List.getElem?_eq_getElem hk)
  have hp : k ∈ f.prerequisites := by
    rw [h.arranged.holds _ f hf]
    exact List.mem_map_of_mem (Pattern.mem_relations_sequence hk)
  refine ⟨hn.before hf hp, fun hcalled => hn.mem hf hp hq ?_⟩
  rw [(h.arranged.untouched.unused q (List.mem_of_getElem? hq)).1, htimes]
  exact Nat.pos_of_ne_zero hcalled

theorem not_mem_of_never {constraints : List (Constraint CallId)} (h : l.Expects plans constraints)
    (hn : l.Answers numbers) {k : Nat} {plan : CallPlan} (hplan : plans[k]? = some plan)
    (hnever : plan.cardinality = 0) : k ∉ numbers := by
  obtain ⟨q, hq, -, htimes⟩ := h.exists_expectation hplan
  exact hn.not_mem_of_met hq (by omega)

/-- Where a chain is not cut, its ends are answered in order. -/
theorem before_of_uncut (h : l.Expects plans (Pattern.sequence plans).relations)
    (hn : l.Answers numbers) {i j : Nat} (hij : i < j) (hj : j < plans.length)
    (huncut : Pattern.Uncut plans i j) : Before numbers i j := by
  refine huncut.related (r := Before numbers) hij hj ?_ ?_
  · intro k hk
    exact (h.next hn (List.getElem?_eq_getElem (by omega)) hk).1
  · intro k plan hplan hcalled hk hbefore
    obtain ⟨hnext, hmade⟩ := h.next hn hplan hk
    by_cases hmem : k + 1 ∈ numbers
    · exact hbefore.trans hnext (hmade hcalled hmem)
    · exact .of_not_mem_right hmem

end Ledger.Expects

namespace Bench

variable {kind : ReporterKind} {config : Config} {controllers counters : Nat}
  {plans : List CallPlan}

/-- The calls that are answered after a pattern was expected are those of the leaves, by number. -/
theorem served_expecting {t : Pattern CallPlan} (hcontrollers : 0 < controllers)
    (hok : (expecting kind config controllers counters t).result = .ok ())
    (hapart : Apart (t.leaves.map (·.call))) {i j : Nat} {p q : CallPlan}
    (hij : i ≠ j) (hi : t.leaves[i]? = some p) (hj : t.leaves[j]? = some q)
    {requests : List Request}
    (h : Before ((expecting kind config controllers counters t).state.answerers requests) i j) :
    Precedes p.call q.call
      ((expecting kind config controllers counters t).state.served requests) := by
  obtain ⟨l, hl, hexpects⟩ := exists_expects hcontrollers hok
  have hnumber : ∀ {k : Nat} {plan : CallPlan}, t.leaves[k]? = some plan →
      plan.call.sameKey plan.call = true →
        ∀ m, (l.calls[m]?.map fun e => e.call) = some plan.call → m = k := by
    intro k plan hplan hown m hm
    obtain ⟨e, he, hcall⟩ := Option.map_eq_some_iff.mp hm
    obtain ⟨plan', hplan', hcall', -⟩ := hexpects.exists_plan he
    refine CallPlan.index_eq_of_key hapart hplan' hplan ?_
    rw [← hcall', hcall]
    exact hown
  refine precedes_of_before fun hp hq => ⟨?_, ?_⟩
  · intro hcalls
    exact hij (CallPlan.index_eq_of_key hapart hi hj (hcalls ▸ hp))
  · rw [served, hl.ledger_eq]
    exact h.filterMap (hnumber hi hp) (hnumber hj hq)

section Chain

variable (hcontrollers : 0 < controllers) (hapart : Apart (plans.map (·.call)))
  {i j : Nat} {p q : CallPlan} (hij : i < j) (hi : plans[i]? = some p) (hj : plans[j]? = some q)

include hcontrollers hapart hij hi hj

/-- With whatever hooks, the calls that are answered are in order if the chain is not cut. -/
theorem precedes_served (hok : (expecting kind config controllers counters
      (.sequence plans)).result = .ok ())
    (hcalled : p.cardinality = 0 ∨ q.cardinality = 0 ∨ Pattern.Uncut plans i j)
    (requests : List Request) :
    Precedes p.call q.call
      ((expecting kind config controllers counters (.sequence plans)).state.served requests) := by
  obtain ⟨l, hl, hexpects⟩ := exists_expects hcontrollers hok
  have hanswers := answers_answerers hl requests
  rw [Pattern.leaves_sequence] at hexpects
  refine served_expecting hcontrollers hok (i := i) (j := j) ?_ (Nat.ne_of_lt hij) ?_ ?_ ?_
  · rwa [Pattern.leaves_sequence]
  · rwa [Pattern.leaves_sequence]
  · rwa [Pattern.leaves_sequence]
  rcases hcalled with hp | hq | huncut
  · exact .of_not_mem_left (hexpects.not_mem_of_never hanswers hi hp)
  · exact .of_not_mem_right (hexpects.not_mem_of_never hanswers hj hq)
  · exact hexpects.before_of_uncut hanswers hij (List.getElem?_eq_some_iff.mp hj).1 huncut

/-- Without hooks, the requests that are admitted are in order exactly if the chain is not cut. -/
theorem precedes_requests_iff (hown : ∀ plan ∈ plans, plan.call.sameKey plan.call = true)
    (hhooks : ∀ plan ∈ plans, plan.hooks = []) :
    (∀ requests, (expecting kind config controllers counters
        (.sequence plans)).state.Admits 0 requests →
      Precedes p.call q.call (requests.map (·.call))) ↔
    p.cardinality = 0 ∨ q.cardinality = 0 ∨ Pattern.Uncut plans i j := by
  have hhooks' : ∀ plan ∈ (Pattern.sequence plans).leaves, plan.hooks = [] := by
    rw [Pattern.leaves_sequence]
    exact hhooks
  have hdistinct : Distinguishable (plans.map (·.call)) :=
    ⟨by simpa using hown, hapart⟩
  have hdistinct' : Distinguishable ((Pattern.sequence plans).leaves.map (·.call)) := by
    rw [Pattern.leaves_sequence]
    exact hdistinct
  have hjlt : j < plans.length := (List.getElem?_eq_some_iff.mp hj).1
  constructor
  · intro h
    by_contra hcut
    rw [Pattern.Uncut] at hcut
    push Not at hcut
    obtain ⟨hp, hq, k, plan, hik, hkj, hplan, hnever⟩ := hcut
    have hk : k < plans.length := by omega
    have hmap : ((Pattern.rotatedWord plans k).map (CallPlan.request plans)).map (·.call)
        = Pattern.rotatedWord plans k := by
      simp [Function.comp_def, CallPlan.request]
    have hadmits : (expecting kind config controllers counters
        (.sequence plans)).state.Admits 0
          ((Pattern.rotatedWord plans k).map (CallPlan.request plans)) := by
      refine admits_of_kept hcontrollers hhooks' hdistinct' ?_ ?_
      · intro r hr plan' hplan'
        obtain ⟨call, -, rfl⟩ := List.mem_map.mp hr
        rw [Pattern.leaves_sequence] at hplan'
        exact CallPlan.suits_request hdistinct hplan' call
      · rw [hmap]
        exact Pattern.kept_rotatedWord hdistinct hk hplan hnever
    have hprecedes := h _ hadmits
    rw [hmap] at hprecedes
    exact Pattern.not_precedes_rotatedWord hdistinct hk hi hj (by omega) hkj hp hq hprecedes
  · intro h requests hadmits
    have hkept := kept_of_admits hcontrollers hhooks' hdistinct' hadmits
    obtain ⟨hperm, -⟩ := Pattern.kept_sequence_iff.mp hkept
    rw [CallPlan.precedes_iff hdistinct hperm hi hj (by omega)]
    intro c hc d hd
    rcases h with hp | hq | huncut
    · exact absurd (CallPlan.mem_word.mp hc).1 (by omega)
    · exact absurd (CallPlan.mem_word.mp hd).1 (by omega)
    · refine Pattern.precede_of_kept_sequence hkept hij hjlt huncut c ?_ d ?_
      · rw [CallPlan.wordAt_of_getElem? hi]
        exact hc
      · rw [CallPlan.wordAt_of_getElem? hj]
        exact hd

/-- **A chain keeps two of its calls in order exactly if it is not cut between them.**

Let neither of the two be expected zero times, for then it never happens.  If no call between them
is either, then in every run all calls of the earlier child are answered before all calls of the
later one, whatever hooks there are and whatever calls these make.  If one is, and the calls have
their own keys and no hooks, then requests are admitted in which the later child comes first. -/
theorem sequence_precedes_iff :
    ((expecting kind config controllers counters (.sequence plans)).result = .ok () →
      p.cardinality = 0 ∨ q.cardinality = 0 ∨ Pattern.Uncut plans i j → ∀ requests,
        Precedes p.call q.call ((expecting kind config controllers counters
          (.sequence plans)).state.served requests)) ∧
    ((∀ plan ∈ plans, plan.call.sameKey plan.call = true) → (∀ plan ∈ plans, plan.hooks = []) →
      ((∀ requests, (expecting kind config controllers counters
          (.sequence plans)).state.Admits 0 requests →
        Precedes p.call q.call (requests.map (·.call))) ↔
      p.cardinality = 0 ∨ q.cardinality = 0 ∨ Pattern.Uncut plans i j)) :=
  ⟨precedes_served hcontrollers hapart hij hi hj,
    precedes_requests_iff hcontrollers hapart hij hi hj⟩

end Chain

/-- A door is unlocked before it is closed, if it has to be passed in between; what is called is
noted. -/
theorem unlock_precedes_close :
    Precedes ⟨"door", "unlock", []⟩ ⟨"door", "close", []⟩
      ((expecting .recording {} 1 0 (.sequence
        [{ call := ⟨"door", "unlock", []⟩, hooks := [.note "unlocked"] },
          { call := ⟨"door", "pass", []⟩, times := some 2, hooks := [.note "passed"] },
          { call := ⟨"door", "close", []⟩ }])).state.served
        [⟨⟨"door", "unlock", []⟩, .unit⟩, ⟨⟨"door", "pass", []⟩, .unit⟩,
          ⟨⟨"door", "pass", []⟩, .unit⟩, ⟨⟨"door", "close", []⟩, .unit⟩]) := by
  let plans : List CallPlan :=
    [{ call := ⟨"door", "unlock", []⟩, hooks := [.note "unlocked"] },
      { call := ⟨"door", "pass", []⟩, times := some 2, hooks := [.note "passed"] },
      { call := ⟨"door", "close", []⟩ }]
  have hapart : Apart (plans.map (·.call)) := by decide
  have hfirst : plans[0]? =
      some { call := ⟨"door", "unlock", []⟩, hooks := [.note "unlocked"] } := rfl
  have hlast : plans[2]? = some { call := ⟨"door", "close", []⟩ } := rfl
  refine (sequence_precedes_iff (by decide) hapart (by decide) hfirst hlast).1 rfl
    (Or.inr (Or.inr ?_)) _
  intro k plan hk hk' hplan
  obtain rfl : k = 1 := by omega
  obtain rfl :
      { call := ⟨"door", "pass", []⟩, times := some 2, hooks := [.note "passed"] } = plan :=
    Option.some.inj hplan
  decide

/-- It need not be, if it is to be passed zero times. -/
theorem close_before_unlock_admitted :
    (expecting .recording {} 1 0 (.sequence
      [{ call := ⟨"door", "unlock", []⟩ }, { call := ⟨"door", "pass", []⟩, times := some 0 },
        { call := ⟨"door", "close", []⟩ }])).state.Admits 0
      [⟨⟨"door", "close", []⟩, .unit⟩, ⟨⟨"door", "unlock", []⟩, .unit⟩] ∧
    ¬Precedes ⟨"door", "unlock", []⟩ ⟨"door", "close", []⟩
      [⟨"door", "close", []⟩, ⟨"door", "unlock", []⟩] :=
  ⟨⟨_, _, _, rfl, rfl⟩, by decide⟩

end Bench

end CallOrder
