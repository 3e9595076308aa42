/-
What a handler admits that expects a pattern.

Evaluating the pattern has arranged the calls of its leaves, with the relations that
the walk registered.  The linear extensions of these relations are the sequences that
make every call as often as it is to be and satisfy the relations one by one
(`extension_iff`).  Where every call is to be made at least once, standing before is
transitive over such a sequence, so the relations come to the order of the pattern and
of its free parts; and the sequences that are ordered so are the words of its language
(`kept_iff_mem_language`).  So a handler admits exactly the words of the pattern that
it expects, however deep the combinators are nested.
-/
import CallOrder.Proofs.Building
import CallOrder.Proofs.Language

namespace CallOrder

open Signature

/-- Different calls precede one another if they stand so.  A call without its own key precedes and
is preceded by all. -/
theorem Signature.precedes_of_before {p s : Signature} {w : List Signature}
    (h : p.sameKey p = true → s.sameKey s = true → p ≠ s ∧ Before w p s) : Precedes p s w := by
  intro m n c d hm hsc hn hpd
  obtain rfl := eq_of_sameKey hsc
  obtain rfl := eq_of_sameKey hpd
  obtain ⟨hne, hbefore⟩ := h hpd hsc
  have hle := Before.iff_getElem?.mp hbefore m n hm hn
  have hmn : m ≠ n := by
    rintro rfl
    exact hne (by simpa using hn.symm.trans hm)
  omega

namespace CallPlan

/-- The call as often as it is expected. -/
def word (plan : CallPlan) : List Signature :=
  List.replicate plan.cardinality plan.call

theorem mem_word {plan : CallPlan} {c : Signature} :
    c ∈ plan.word ↔ 0 < plan.cardinality ∧ c = plan.call := by
  rw [word, List.mem_replicate, Nat.pos_iff_ne_zero]

variable {plans : List CallPlan}

/-- The number of a plan is known by its key. -/
theorem index_eq_of_key (hapart : Apart (plans.map (·.call))) {i j : Nat} {p q : CallPlan}
    (hi : plans[i]? = some p) (hj : plans[j]? = some q) (hkey : p.call.sameKey q.call = true) :
    i = j := by
  refine hapart.index_unique (c := p.call) (d := q.call) ?_ ?_ hkey
  · rw [List.getElem?_map, hi, Option.map_some]
  · rw [List.getElem?_map, hj, Option.map_some]

variable (hdistinct : Distinguishable (plans.map (·.call)))

include hdistinct

/-- The number of a plan is known by its call. -/
theorem index_eq {i j : Nat} {p q : CallPlan} (hi : plans[i]? = some p) (hj : plans[j]? = some q)
    (hpq : p.call = q.call) : i = j := by
  refine index_eq_of_key hdistinct.apart hi hj ?_
  rw [← hpq]
  exact hdistinct.own _ (List.mem_map_of_mem (List.mem_of_getElem? hi))

theorem tally_flatMap {plan : CallPlan} (hplan : plan ∈ plans) :
    plan.call.tally (plans.flatMap word) = plan.cardinality := by
  induction plans with
  | nil => exact absurd hplan List.not_mem_nil
  | cons p rest ih =>
      obtain ⟨hhead, hrest⟩ := List.pairwise_cons.mp hdistinct.apart
      have hown : ∀ q ∈ p :: rest, q.call.sameKey q.call = true := fun q hq =>
        hdistinct.own _ (List.mem_map_of_mem hq)
      have hdistinct' : Distinguishable (rest.map (·.call)) :=
        ⟨fun c hc => hdistinct.own c (List.mem_cons_of_mem _ hc), hrest⟩
      have hne : ∀ q ∈ rest, p.call ≠ q.call := by
        intro q hq hpq
        have hfalse : p.call.sameKey q.call = false := hhead q.call (List.mem_map_of_mem hq)
        rw [hpq, hown q (List.mem_cons_of_mem _ hq)] at hfalse
        exact Bool.noConfusion hfalse
      rw [List.flatMap_cons, tally_append]
      rcases List.mem_cons.mp hplan with rfl | hplan
      · have hnone : plan.call.tally (rest.flatMap word) = 0 := by
          by_contra hpos
          obtain ⟨c, hc, hkey⟩ := tally_pos_iff.mp (Nat.pos_of_ne_zero hpos)
          obtain ⟨q, hq, hcq⟩ := List.mem_flatMap.mp hc
          exact hne q hq ((eq_of_sameKey hkey).trans (mem_word.mp hcq).2)
        rw [hnone, Nat.add_zero, tally, word, List.countP_replicate, if_pos (hown plan (by simp))]
      · have hother : ¬plan.call.sameKey p.call = true := fun hkey =>
          hne plan hplan (eq_of_sameKey hkey).symm
        rw [ih hdistinct' hplan, tally, word, List.countP_replicate, if_neg hother, Nat.zero_add]

/-- A sequence is an arrangement of the words of the plans if it makes no other call, and each of
theirs as often as it is to be. -/
theorem perm_flatMap_iff {w : List Signature} :
    w.Perm (plans.flatMap word) ↔
      (∀ c ∈ w, ∃ plan ∈ plans, plan.call.sameKey c = true) ∧
        ∀ plan ∈ plans, plan.call.tally w = plan.cardinality := by
  have hown : ∀ plan ∈ plans, plan.call.sameKey plan.call = true := fun plan hplan =>
    hdistinct.own _ (List.mem_map_of_mem hplan)
  constructor
  · intro h
    refine ⟨?_, ?_⟩
    · intro c hc
      obtain ⟨plan, hplan, hcp⟩ := List.mem_flatMap.mp (h.subset hc)
      refine ⟨plan, hplan, ?_⟩
      rw [(mem_word.mp hcp).2]
      exact hown plan hplan
    · intro plan hplan
      rw [← tally_flatMap hdistinct hplan]
      exact h.countP_eq _
  · intro h
    obtain ⟨hexpected, hcounted⟩ := h
    classical
    rw [List.perm_iff_count]
    intro c
    by_cases hc : ∃ plan ∈ plans, plan.call = c
    · obtain ⟨plan, hplan, rfl⟩ := hc
      have hcount : ∀ v : List Signature, v.count plan.call = plan.call.tally v := by
        intro v
        refine List.countP_congr fun d _ => ?_
        rw [sameKey_iff (hown plan hplan), beq_iff_eq, eq_comm]
      rw [hcount, hcount, hcounted plan hplan, tally_flatMap hdistinct hplan]
    · have hw : c ∉ w := by
        intro hcw
        obtain ⟨plan, hplan, hkey⟩ := hexpected c hcw
        exact hc ⟨plan, hplan, eq_of_sameKey hkey⟩
      have hplans : c ∉ plans.flatMap word := by
        intro hcw
        obtain ⟨plan, hplan, hcp⟩ := List.mem_flatMap.mp hcw
        exact hc ⟨plan, hplan, (mem_word.mp hcp).2.symm⟩
      rw [List.count_eq_zero_of_not_mem hw, List.count_eq_zero_of_not_mem hplans]

/-- Plans stand for different letters. -/
theorem lettered : Pattern.Lettered word plans := by
  refine ⟨fun plan _ => ⟨plan.cardinality, plan.call, rfl⟩, ?_⟩
  refine (List.pairwise_map.mp hdistinct.nodup).imp ?_
  intro p q hpq c hp hq
  exact hpq ((mem_word.mp hp).2.symm.trans (mem_word.mp hq).2)

/-- In an arrangement of the words of the plans, the calls of one plan come before the first of
another if all letters of the one stand before those of the other. -/
theorem precedes_iff {w : List Signature} (hperm : w.Perm (plans.flatMap word)) {i j : Nat}
    {p s : CallPlan} (hp : plans[i]? = some p) (hs : plans[j]? = some s) (hij : i ≠ j) :
    Precedes p.call s.call w ↔ ∀ c ∈ p.word, ∀ d ∈ s.word, Before w c d := by
  have hown : ∀ {k : Nat} {q : CallPlan}, plans[k]? = some q → q.call.sameKey q.call = true :=
    fun hq => hdistinct.own _ (List.mem_map_of_mem (List.mem_of_getElem? hq))
  -- A call of a plan that is made is a letter of its word.
  have hword : ∀ {k : Nat} {q : CallPlan}, plans[k]? = some q → q.call ∈ w → q.call ∈ q.word := by
    intro k q hq hqw
    obtain ⟨q', hq', hqq'⟩ := List.mem_flatMap.mp (hperm.subset hqw)
    obtain ⟨k', hk'⟩ := List.mem_iff_getElem?.mp hq'
    obtain rfl := index_eq hdistinct hq hk' (mem_word.mp hqq').2
    obtain rfl : q = q' := by simpa using hq.symm.trans hk'
    exact hqq'
  constructor
  · intro h c hc d hd
    rw [(mem_word.mp hc).2, (mem_word.mp hd).2, Before.iff_getElem?]
    intro m n hm hn
    exact Nat.le_of_lt (h m n _ _ hm (hown hs) hn (hown hp))
  · intro h
    refine precedes_of_before fun _ _ => ⟨fun hcalls => hij (index_eq hdistinct hp hs hcalls), ?_⟩
    by_cases hpw : p.call ∈ w
    · by_cases hsw : s.call ∈ w
      · exact h _ (hword hp hpw) _ (hword hs hsw)
      · exact .of_not_mem_right hsw
    · exact .of_not_mem_left hpw

/-- The word of the plan of that number. -/
def wordAt (plans : List CallPlan) (id : CallId) : List Signature :=
  plans[id.index]?.elim [] word

omit hdistinct in
theorem wordAt_of_getElem? {id : CallId} {plan : CallPlan} (h : plans[id.index]? = some plan) :
    wordAt plans id = plan.word := by
  rw [wordAt, h]
  rfl

omit hdistinct in
theorem numbered_wordAt (plans : List CallPlan) : Pattern.Numbered word (wordAt plans) 0 plans := by
  intro k plan hk
  simp [wordAt, hk]

omit hdistinct in
/-- Over a plan that is called, standing before is transitive. -/
theorem precede_trans {w : List Signature} (hperm : w.Perm (plans.flatMap word)) {x y z : CallId}
    {plan : CallPlan} (hplan : plans[y.index]? = some plan) (hcalled : plan.cardinality ≠ 0)
    (hxy : Pattern.Precede (wordAt plans) w x y) (hyz : Pattern.Precede (wordAt plans) w y z) :
    Pattern.Precede (wordAt plans) w x z := by
  intro c hc d hd
  have hletter : plan.call ∈ plan.word := mem_word.mpr ⟨Nat.pos_of_ne_zero hcalled, rfl⟩
  have hmade : plan.call ∈ w := hperm.symm.subset
    (List.mem_flatMap.mpr ⟨plan, List.mem_of_getElem? hplan, hletter⟩)
  have hword : plan.call ∈ wordAt plans y := by
    rw [wordAt_of_getElem? hplan]
    exact hletter
  exact (hxy c hc _ hword).trans (hyz _ hword d hd) hmade

end CallPlan

namespace Ledger.Expects

variable {l : Ledger} {plans : List CallPlan} {constraints : List (Constraint CallId)}

theorem getElem?_map (h : l.Expects plans constraints) (i : Nat) :
    l.calls[i]?.map Expectation.asked = plans[i]?.map CallPlan.expectation := by
  rw [← List.getElem?_map, ← List.getElem?_map, h.asked]

theorem exists_plan (h : l.Expects plans constraints) {i : Nat} {e : Expectation}
    (he : l.calls[i]? = some e) :
    ∃ plan, plans[i]? = some plan ∧ e.call = plan.call ∧ e.times = plan.cardinality := by
  have hi := h.getElem?_map i
  rw [he, Option.map_some, eq_comm, Option.map_eq_some_iff] at hi
  obtain ⟨plan, hplan, hasked⟩ := hi
  exact ⟨plan, hplan, (congrArg Expectation.call hasked).symm,
    (congrArg Expectation.times hasked).symm⟩

theorem exists_expectation (h : l.Expects plans constraints) {i : Nat} {plan : CallPlan}
    (hplan : plans[i]? = some plan) :
    ∃ e, l.calls[i]? = some e ∧ e.call = plan.call ∧ e.times = plan.cardinality := by
  have hi := h.getElem?_map i
  rw [hplan, Option.map_some, Option.map_eq_some_iff] at hi
  obtain ⟨e, he, hasked⟩ := hi
  exact ⟨e, he, congrArg Expectation.call hasked, congrArg Expectation.times hasked⟩

/-- **The linear extensions of registered relations** are the arrangements of the words of the
plans in which the letters of a predecessor stand before those of its successor. -/
theorem extension_iff (h : l.Expects plans constraints)
    (hdistinct : Distinguishable (plans.map (·.call)))
    (hconstraints : ∀ c ∈ constraints, c.predecessor.index ≠ c.successor.index ∧
      c.predecessor.index < plans.length ∧ c.successor.index < plans.length)
    {w : List Signature} :
    l.Extension (constraints.map Constraint.numbers) w ↔
      w.Perm (plans.flatMap CallPlan.word) ∧
        Pattern.Satisfies (Pattern.Precede (CallPlan.wordAt plans) w) constraints := by
  have hcalls : l.calls.map (fun e => (e.call, e.times))
      = plans.map fun plan => (plan.call, plan.cardinality) := by
    have hasked := congrArg (List.map fun e : Expectation => (e.call, e.times)) h.asked
    simpa [Function.comp_def, Expectation.asked, CallPlan.expectation] using hasked
  have hexpected : ∀ c, (∃ e ∈ l.calls, e.call.sameKey c = true) ↔
      ∃ plan ∈ plans, plan.call.sameKey c = true := by
    intro c
    have hmap := congrArg (fun pairs => ∃ pair ∈ pairs, Signature.sameKey pair.1 c = true) hcalls
    simpa using hmap
  have hcounted : (∀ e ∈ l.calls, e.call.tally w = e.times) ↔
      ∀ plan ∈ plans, plan.call.tally w = plan.cardinality := by
    have hmap := congrArg (fun pairs => ∀ pair ∈ pairs, Signature.tally pair.1 w = pair.2) hcalls
    simpa using hmap
  constructor
  · intro hext
    have hperm : w.Perm (plans.flatMap CallPlan.word) := by
      rw [CallPlan.perm_flatMap_iff hdistinct]
      exact ⟨fun c hc => (hexpected c).mp (hext.expected c hc), hcounted.mp hext.counted⟩
    refine ⟨hperm, ?_⟩
    intro c hc
    obtain ⟨hne, hp, hs⟩ := hconstraints c hc
    obtain ⟨e, he, hcall, -⟩ := h.exists_expectation (List.getElem?_eq_getElem hp)
    obtain ⟨f, hf, hcallf, -⟩ := h.exists_expectation (List.getElem?_eq_getElem hs)
    have hordered := hext.ordered c.numbers (List.mem_map_of_mem hc) f e hf he
    rw [hcall, hcallf, CallPlan.precedes_iff hdistinct hperm (List.getElem?_eq_getElem hp)
      (List.getElem?_eq_getElem hs) hne] at hordered
    simpa [Pattern.Precede, CallPlan.wordAt, hp, hs] using hordered
  · intro h
    obtain ⟨hperm, hsat⟩ := h
    obtain ⟨hall, hcounts⟩ := (CallPlan.perm_flatMap_iff hdistinct).mp hperm
    refine ⟨fun c hc => (hexpected c).mpr (hall c hc), hcounted.mpr hcounts, ?_⟩
    intro r hr s p hs hp
    obtain ⟨c, hc, rfl⟩ := List.mem_map.mp hr
    obtain ⟨plan, hplan, hcall, -⟩ := h.exists_plan hp
    obtain ⟨plan', hplan', hcall', -⟩ := h.exists_plan hs
    rw [hcall, hcall', CallPlan.precedes_iff hdistinct hperm hplan hplan' (hconstraints c hc).1]
    have hprecede := hsat c hc
    rw [Pattern.Precede, CallPlan.wordAt_of_getElem? hplan, CallPlan.wordAt_of_getElem? hplan']
      at hprecede
    exact hprecede

end Ledger.Expects

/-! ### Handlers that expect a pattern -/

/-- A request for the call of the plan asks for the type that its stub has, if there is one. -/
def CallPlan.Suits (plan : CallPlan) (request : Request) : Prop :=
  plan.call.sameKey request.call = true → ∀ stub, plan.stub = some stub → stub.type = request.type

instance (plan : CallPlan) (request : Request) : Decidable (plan.Suits request) :=
  inferInstanceAs <| Decidable (plan.call.sameKey request.call = true →
    ∀ stub ∈ plan.stub, stub.type = request.type)

theorem Ledger.Expects.suits {l : Ledger} {plans : List CallPlan}
    {constraints : List (Constraint CallId)} (h : l.Expects plans constraints) {request : Request}
    (hsuits : ∀ plan ∈ plans, plan.Suits request) : l.Suits request := by
  intro e he hkey stub hstub
  have hmem : e.asked ∈ plans.map CallPlan.expectation := by
    rw [← h.asked]
    exact List.mem_map_of_mem he
  obtain ⟨plan, hplan, hasked⟩ := List.mem_map.mp hmem
  have hcall : plan.call = e.call := congrArg Expectation.call hasked
  have hplanstub : plan.stub = e.stub := congrArg Expectation.stub hasked
  exact hsuits plan hplan (hcall ▸ hkey) stub (hplanstub.trans hstub)

namespace Pattern

/-- The relations that are registered when the pattern is expected. -/
def relations (t : Pattern CallPlan) : List (Constraint CallId) :=
  ((independent [t]).label 0).registered

theorem leaves_independent_label (t : Pattern CallPlan) :
    ((independent [t]).label 0).leaves = ids 0 t.leaves.length := by
  rw [leaves_label]
  simp [leaves, leaves.leavesAll]

/-- What is registered is between two different leaves. -/
theorem relations_between (t : Pattern CallPlan) : ∀ c ∈ t.relations,
    c.predecessor.index ≠ c.successor.index ∧ c.predecessor.index < t.leaves.length ∧
      c.successor.index < t.leaves.length := by
  intro c hc
  have hne := ne_of_mem_registered _ c hc
  have hmem := mem_leaves_of_mem_registered (leaves_independent_label t ▸ nodup_ids ..) c hc
  rw [leaves_independent_label, mem_ids, mem_ids] at hmem
  obtain ⟨⟨hpc, -, hp⟩, hsc, -, hs⟩ := hmem
  refine ⟨?_, by simpa using hp, by simpa using hs⟩
  intro hindex
  refine hne ?_
  cases hcp : c.predecessor
  cases hcs : c.successor
  simp_all

/-- The sequence makes the calls of the leaves as often as they are to be made, and keeps the
relations of the pattern. -/
def Kept (t : Pattern CallPlan) (w : List Signature) : Prop :=
  w.Perm (t.leaves.flatMap CallPlan.word) ∧
    Satisfies (Precede (CallPlan.wordAt t.leaves) w) t.relations

/-- Where every leaf is called at least once, keeping the relations is being a word of the
pattern. -/
theorem kept_iff_mem_language {t : Pattern CallPlan}
    (hcardinality : ∀ plan ∈ t.leaves, 1 ≤ plan.cardinality)
    (hdistinct : Distinguishable (t.leaves.map (·.call))) {w : List Signature} :
    t.Kept w ↔ w ∈ t.language CallPlan.word := by
  have hnumbered := CallPlan.numbered_wordAt t.leaves
  have hlettered := CallPlan.lettered hdistinct
  have hleaves : (t.label 0).leaves = ids 0 t.leaves.length := leaves_label t 0
  rw [← language_label t 0 hnumbered,
    mem_language_iff (hleaves ▸ hnumbered.lettered hlettered), hleaves, hnumbered.flatMap_ids]
  refine and_congr_right fun hperm => ?_
  -- Every leaf is called at least once, so standing before is transitive over the leaves.
  have htrans : ∀ y ∈ ((independent [t]).label 0).leaves, ∀ x z,
      Precede (CallPlan.wordAt t.leaves) w x y → Precede (CallPlan.wordAt t.leaves) w y z →
        Precede (CallPlan.wordAt t.leaves) w x z := by
    intro y hy x z hxy hyz
    rw [leaves_independent_label, mem_ids, Nat.zero_add] at hy
    have hplan := List.getElem?_eq_getElem hy.2.2
    have hcalled := hcardinality _ (List.mem_of_getElem? hplan)
    exact CallPlan.precede_trans hperm hplan (Nat.one_le_iff_ne_zero.mp hcalled) hxy hyz
  have hnodup : ((independent [t]).label 0).leaves.Nodup := by
    rw [leaves_independent_label]
    exact nodup_ids ..
  rw [relations, satisfies_registered_iff hnodup htrans]
  simp [label, label.labelAll, freeParts, freeParts.freeEach]

end Pattern

namespace Bench

/-- What comes of expecting a pattern where nothing is expected. -/
def expecting (kind : ReporterKind) (config : Config) (controllers counters : Nat)
    (t : Pattern CallPlan) : Outcome Bench Unit :=
  Handler.expect Producer.produce t.setup (start kind config controllers counters)

section Expecting

variable {kind : ReporterKind} {config : Config} {controllers counters : Nat}
  {t : Pattern CallPlan} {requests : List Request}

/-- The handler comes to expect the leaves and their relations while no other controller expects
anything, or there are hooks and it fails. -/
theorem expecting_cases (hcontrollers : 0 < controllers) :
    ((expecting kind config controllers counters t).result = .ok () ∧
      ∃ l, (expecting kind config controllers counters t).state.Has l ∧
        l.Expects t.leaves t.relations) ∨
    (¬∀ plan ∈ t.leaves, plan.hooks = []) ∧
      ∃ f, (expecting kind config controllers counters t).result = .error f := by
  obtain ⟨n, rfl⟩ := Nat.exists_eq_succ_of_ne_zero (Nat.pos_iff_ne_zero.mp hcontrollers)
  have hstart : (start kind config (n + 1) counters).Has {} := ⟨n, rfl⟩
  rcases expect t _ hstart with ⟨⟨⟩, b, events, l, hrun, hb, hexpects⟩ | hfails
  · have hout : expecting kind config (n + 1) counters t = ⟨.ok (), b, events⟩ := hrun
    rw [hout]
    exact Or.inl ⟨rfl, l, hb, hexpects⟩
  · exact Or.inr hfails

theorem exists_expects (hcontrollers : 0 < controllers)
    (hok : (expecting kind config controllers counters t).result = .ok ()) :
    ∃ l, (expecting kind config controllers counters t).state.Has l ∧
      l.Expects t.leaves t.relations := by
  rcases expecting_cases hcontrollers with ⟨-, hexpects⟩ | ⟨-, f, hf⟩
  · exact hexpects
  · exact absurd (hf.symm.trans hok) nofun

/-- Without hooks, the handler comes to expect the pattern, and has no side effects. -/
theorem expecting_of_hookless (hcontrollers : 0 < controllers)
    (hhooks : ∀ plan ∈ t.leaves, plan.hooks = []) :
    (expecting kind config controllers counters t).result = .ok () ∧
      ((expecting kind config controllers counters t).state.collaborator.ledger 0).Expects
        t.leaves t.relations ∧
      ((expecting kind config controllers counters t).state.collaborator.ledger 0).Hookless := by
  rcases expecting_cases hcontrollers with ⟨hok, l, hl, hexpects⟩ | ⟨hsome, -⟩
  · rw [hl.ledger_eq]
    exact ⟨hok, hexpects, hexpects.hookless hhooks⟩
  · exact absurd hhooks hsome

theorem answered_iff_kept {l : Ledger} (h : l.Expects t.leaves t.relations)
    (hdistinct : Distinguishable (t.leaves.map (·.call))) {w : List Signature} :
    (∃ l', Ledger.answered w l = some l' ∧ l'.missing = []) ↔ t.Kept w := by
  have hcalls := congrArg (List.map Expectation.call) h.asked
  simp only [List.map_map, Function.comp_def, Expectation.asked, CallPlan.expectation] at hcalls
  have harranged := h.arranged
  rw [Ledger.answered_iff_extension (hcalls ▸ hdistinct) harranged.holds harranged.untouched]
  exact h.extension_iff hdistinct t.relations_between

/-- What a handler admits that expects a pattern keeps the relations of the pattern. -/
theorem kept_of_admits (hcontrollers : 0 < controllers)
    (hhooks : ∀ plan ∈ t.leaves, plan.hooks = [])
    (hdistinct : Distinguishable (t.leaves.map (·.call)))
    (h : (expecting kind config controllers counters t).state.Admits 0 requests) :
    t.Kept (requests.map (·.call)) := by
  obtain ⟨-, hexpects, hhookless⟩ := expecting_of_hookless hcontrollers hhooks
  exact (answered_iff_kept hexpects hdistinct).mp (answered_of_admits hhookless h)

/-- A handler that expects a pattern admits what keeps its relations, if the types of the stubs
are asked for. -/
theorem admits_of_kept (hcontrollers : 0 < controllers)
    (hhooks : ∀ plan ∈ t.leaves, plan.hooks = [])
    (hdistinct : Distinguishable (t.leaves.map (·.call)))
    (hsuits : ∀ r ∈ requests, ∀ plan ∈ t.leaves, plan.Suits r)
    (h : t.Kept (requests.map (·.call))) :
    (expecting kind config controllers counters t).state.Admits 0 requests := by
  obtain ⟨-, hexpects, hhookless⟩ := expecting_of_hookless hcontrollers hhooks
  obtain ⟨l', hrun, hmissing⟩ := (answered_iff_kept hexpects hdistinct).mpr h
  exact admits_of_answered hhookless (fun r hr => hexpects.suits (hsuits r hr)) hrun hmissing

/-- **A handler that expects a pattern admits exactly the words of the pattern.**

Whatever combinators are nested in one another: expecting it succeeds, and requests made
afterwards are all answered, with nothing to complain of at the end, exactly if their calls are
woven out of a word of the main language and a word of each free language. -/
theorem admits_expecting_iff_mem_language (hcontrollers : 0 < controllers)
    (hhooks : ∀ plan ∈ t.leaves, plan.hooks = [])
    (hcardinality : ∀ plan ∈ t.leaves, 1 ≤ plan.cardinality)
    (hdistinct : Distinguishable (t.leaves.map (·.call)))
    (hsuits : ∀ r ∈ requests, ∀ plan ∈ t.leaves, plan.Suits r) :
    (expecting kind config controllers counters t).result = .ok () ∧
      ((expecting kind config controllers counters t).state.Admits 0 requests ↔
        requests.map (·.call) ∈ t.language CallPlan.word) := by
  refine ⟨(expecting_of_hookless hcontrollers hhooks).1, ?_⟩
  have hkept : (expecting kind config controllers counters t).state.Admits 0 requests ↔
      t.Kept (requests.map (·.call)) :=
    ⟨kept_of_admits hcontrollers hhooks hdistinct,
      admits_of_kept hcontrollers hhooks hdistinct hsuits⟩
  rw [hkept]
  exact Pattern.kept_iff_mem_language hcardinality hdistinct

end Expecting

/-- Two knocks, then a door opened and a light switched on in either order; a dog barks whenever
it likes. -/
def visit : Pattern CallPlan :=
  .chain [.leaf { call := ⟨"door", "knock", []⟩, times := some 2 },
    .parallel (.leaf { call := ⟨"door", "open", []⟩ }) [.leaf { call := ⟨"light", "on", []⟩ }],
    .independent [.leaf { call := ⟨"dog", "bark", []⟩ }]]

/-- Since the requests of a visit are admitted, what they call is a word of its language. -/
theorem bark_between_knocks :
    [⟨"door", "knock", []⟩, ⟨"dog", "bark", []⟩, ⟨"door", "knock", []⟩, ⟨"light", "on", []⟩,
      ⟨"door", "open", []⟩] ∈ visit.language CallPlan.word := by
  let requests : List Request := [⟨⟨"door", "knock", []⟩, .unit⟩, ⟨⟨"dog", "bark", []⟩, .unit⟩,
    ⟨⟨"door", "knock", []⟩, .unit⟩, ⟨⟨"light", "on", []⟩, .unit⟩, ⟨⟨"door", "open", []⟩, .unit⟩]
  have hadmits : (expecting .recording {} 1 0 visit).state.Admits 0 requests :=
    ⟨_, _, _, rfl, rfl⟩
  have hhooks : ∀ plan ∈ visit.leaves, plan.hooks = [] := by
    simp [visit, Pattern.leaves, Pattern.leaves.leavesAll]
  exact (admits_expecting_iff_mem_language (by decide) hhooks (by decide) (by decide)
    (by decide)).2.mp hadmits

end Bench

end CallOrder
