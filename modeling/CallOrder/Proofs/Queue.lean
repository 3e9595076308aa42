/-
Expectations of one key are served in the order in which they were declared.

Several expectations of one controller may have the same key.  A call with that key is
answered by the first of them that can still be called, for which it is enough to know how
often each may be called yet: put together in the order of declaration, their stubs make a
line, and each call takes its head (`Ledger.Serves.next`).  Relations among them make no
difference if each comes only after earlier ones.  What is at the head of the line comes
after what is used up, so it waits for nothing, and what its call closes was used up.

Other calls leave the line alone (`Ledger.Serves.other`).  So what a call with the key
returns depends on nothing but how many were made before, in every run, whether the calls
were made by a test or from within hooks.
-/
import CallOrder.Proofs.Binding
import CallOrder.Proofs.Forward
import CallOrder.Proofs.Reply

namespace CallOrder

/-- Where lists put together have a first item, it is the first of one of them and those before
are empty, and without it the others are left. -/
theorem exists_of_flatten_eq_cons {α : Type} {a : α} {rest : List α} :
    ∀ {lists : List (List α)}, lists.flatten = a :: rest →
      ∃ i tail, lists[i]? = some (a :: tail) ∧ (∀ j < i, lists[j]? = some []) ∧
        (lists.modify i List.tail).flatten = rest
  | [], h => by cases h
  | [] :: lists, h => by
      have hlists : lists.flatten = a :: rest := h
      obtain ⟨i, tail, hi, hbefore, hrest⟩ := exists_of_flatten_eq_cons hlists
      refine ⟨i + 1, tail, hi, fun j hj => ?_, hrest⟩
      cases j with
      | zero => rfl
      | succ j => exact hbefore j (Nat.lt_of_succ_lt_succ hj)
  | (b :: tail) :: lists, h => by
      obtain ⟨rfl, rfl⟩ := List.cons.inj h
      exact ⟨0, tail, rfl, nofun, rfl⟩

/-! ### The line -/

/-- What a queue returns, call by call. -/
def lineOf (queue : List (Nat × Returned)) : List Returned :=
  queue.flatMap fun q => List.replicate q.1 q.2

/-- What an expectation still returns, if it is of the key. -/
def Expectation.left (key : Signature) (e : Expectation) : List Returned :=
  if e.call.sameKey key then e.stub.elim [] (List.replicate e.remaining) else []

namespace Ledger

/-- What the expectations of a key still return, in the order of declaration. -/
def line (l : Ledger) (key : Signature) : List Returned :=
  (l.calls.map (·.left key)).flatten

/-- The controller complains of calls that are missing. -/
def Misses (l : Ledger) (call : Signature) : Prop :=
  ∃ times invoked, .missingCalls call times invoked ∈ l.missing

/-- The expectations of the key have a stub of the type and no hooks, come after earlier ones of
the key only, and nothing else comes after them. -/
structure Serves (l : Ledger) (key : Signature) (type : ReturnType) : Prop where
  hookless : ∀ (i : Nat) (e : Expectation), l.calls[i]? = some e → e.call.sameKey key = true →
    e.hooks = []
  stubbed : ∀ (i : Nat) (e : Expectation), l.calls[i]? = some e → e.call.sameKey key = true →
    ∃ v, e.stub = some v ∧ v.type = type
  earlier : ∀ (i : Nat) (e : Expectation), l.calls[i]? = some e → e.call.sameKey key = true →
    ∀ p ∈ e.prerequisites, p < i ∧ ∃ f, l.calls[p]? = some f ∧ f.call.sameKey key = true
  apart : ∀ (i : Nat) (e : Expectation), l.calls[i]? = some e → e.call.sameKey key = false →
    ∀ p ∈ e.prerequisites, ∀ f, l.calls[p]? = some f → f.call.sameKey key = false
  /-- What is still to be called may be. -/
  available : ∀ (i : Nat) (e : Expectation), l.calls[i]? = some e → e.call.sameKey key = true →
    e.satisfied = false → e.closed = false

variable {l : Ledger} {key : Signature} {type : ReturnType} {i : Nat} {e : Expectation}

theorem getElem?_map_left (i : Nat) :
    (l.calls.map (·.left key))[i]? = l.calls[i]?.map (·.left key) :=
  List.getElem?_map

/-- Answering takes one from what the expectation still returns. -/
theorem map_left_invoke (hi : l.calls[i]? = some e) :
    (l.invoke i).calls.map (·.left key) = (l.calls.map (·.left key)).modify i List.tail := by
  refine List.ext_getElem? fun j => ?_
  rw [getElem?_map_left, getElem?_invoke hi, List.getElem?_modify, getElem?_map_left,
    Option.map_map]
  cases l.calls[j]? with
  | none => rfl
  | some f =>
      by_cases hij : i = j
      · simp only [hij, if_true, Option.map_some, Function.comp_apply, Expectation.left,
          Expectation.remaining]
        cases f.call.sameKey key <;> cases f.stub <;> simp [Nat.sub_sub]
      · simp only [hij, if_false, Option.map_some, Function.comp_apply, Expectation.left,
          Expectation.remaining, Nat.add_zero]
        rfl

theorem sameKey_of_dangling {p : Nat} (h : l.examine key e = .dangling p) :
    e.call.sameKey key = true := by
  rw [Signature.sameKey_iff_and]
  unfold examine at h
  by_cases hmethod : e.call.sameMethod key = true
  · by_cases hargs : e.call.sameArgs key = true
    · exact ⟨hmethod, hargs⟩
    · simp [hmethod, hargs] at h
  · simp [hmethod] at h

namespace Serves

/-- What is satisfied has nothing left to return. -/
theorem left_eq_nil_iff (h : l.Serves key type) (hi : l.calls[i]? = some e)
    (hkey : e.call.sameKey key = true) : e.left key = [] ↔ e.satisfied = true := by
  obtain ⟨v, hv, -⟩ := h.stubbed i e hi hkey
  rw [satisfied_iff_remaining, Expectation.left, if_pos hkey, hv, Option.elim_some,
    List.replicate_eq_nil_iff]

/-- Where an expectation answers whose prerequisites of the key were used up, the others stay as
they are said to be. -/
theorem invoke (h : l.Serves key type) (hi : l.calls[i]? = some e)
    (hdone : ∀ p ∈ e.prerequisites, ∀ f, l.calls[p]? = some f → f.call.sameKey key = true →
      f.satisfied = true) : (l.invoke i).Serves key type := by
  have hget (j : Nat) (f : Expectation) (hf : (l.invoke i).calls[j]? = some f) :
      ∃ g, l.calls[j]? = some g ∧ f =
        { g with
          closed := g.closed || decide (j ∈ e.prerequisites)
          invoked := g.invoked + if i = j then 1 else 0 } := by
    rw [getElem?_invoke hi, Option.map_eq_some_iff] at hf
    obtain ⟨g, hg, rfl⟩ := hf
    exact ⟨g, hg, rfl⟩
  refine ⟨?_, ?_, ?_, ?_, ?_⟩
  · intro j f hf hkey
    obtain ⟨g, hg, rfl⟩ := hget j f hf
    exact h.hookless j g hg hkey
  · intro j f hf hkey
    obtain ⟨g, hg, rfl⟩ := hget j f hf
    exact h.stubbed j g hg hkey
  · intro j f hf hkey p hp
    obtain ⟨g, hg, rfl⟩ := hget j f hf
    obtain ⟨hlt, q, hq, hqkey⟩ := h.earlier j g hg hkey p hp
    have hafter := getElem?_invoke hi p
    rw [hq, Option.map_some] at hafter
    exact ⟨hlt, _, hafter, hqkey⟩
  · intro j f hf hkey p hp q hq
    obtain ⟨g, hg, rfl⟩ := hget j f hf
    obtain ⟨r, hr, rfl⟩ := hget p q hq
    exact h.apart j g hg hkey p hp r hr
  · intro j f hf hkey hopen
    obtain ⟨g, hg, rfl⟩ := hget j f hf
    have hopen' : g.satisfied = false := by
      simp only [Expectation.satisfied, decide_eq_false_iff_not] at hopen ⊢
      omega
    have hnot : j ∉ e.prerequisites := by
      intro hmem
      rw [hdone j hmem g hg hkey] at hopen'
      cases hopen'
    simp [h.available j g hg hkey hopen', hnot]

/-- Nothing of the key is looked up in vain. -/
theorem examine_ne_dangling (h : l.Serves key type) (e : Expectation) (he : e ∈ l.calls)
    (p : Nat) : l.examine key e ≠ .dangling p := by
  intro hexamine
  obtain ⟨i, hi⟩ := List.mem_iff_getElem?.mp he
  obtain ⟨hp, hnone⟩ := dangling_of_examine hexamine
  obtain ⟨-, f, hf, -⟩ := h.earlier i e hi (sameKey_of_dangling hexamine) p hp
  cases hnone.symm.trans hf

/-- **A call of the key is answered by the head of the line**, and then the next one is there. -/
theorem next (h : l.Serves key type) {v : Returned} {line : List Returned}
    (hline : l.line key = v :: line) :
    ∃ i e, l.judge key = .accepted i e ∧ e.hooks = [] ∧ e.stub = some v ∧ v.type = type ∧
      (l.invoke i).Serves key type ∧ (l.invoke i).line key = line := by
  obtain ⟨i, tail, hhead, hbefore, hrest⟩ := exists_of_flatten_eq_cons hline
  rw [getElem?_map_left, Option.map_eq_some_iff] at hhead
  obtain ⟨e, hi, hleft⟩ := hhead
  have hkey : e.call.sameKey key = true := by
    by_contra hkey
    rw [Expectation.left, if_neg hkey] at hleft
    cases hleft
  obtain ⟨w, hstub, htype⟩ := h.stubbed i e hi hkey
  have hopen : e.satisfied = false := by
    rw [← Bool.not_eq_true, ← h.left_eq_nil_iff hi hkey, hleft]
    exact List.cons_ne_nil _ _
  have hdone : ∀ j < i, ∀ f, l.calls[j]? = some f → f.call.sameKey key = true →
      f.satisfied = true := by
    intro j hj f hf hfkey
    have hnone := hbefore j hj
    rw [getElem?_map_left, hf, Option.map_some] at hnone
    exact (h.left_eq_nil_iff hf hfkey).mp (Option.some.inj hnone)
  have hearlier := h.earlier i e hi hkey
  have hv : w = v := by
    rw [Expectation.left, if_pos hkey, hstub] at hleft
    exact List.eq_of_mem_replicate (hleft ▸ List.mem_cons_self) |>.symm
  subst hv
  refine ⟨i, e, ?_, h.hookless i e hi hkey, hstub, htype, ?_, ?_⟩
  · have hadmitted : l.examine key e = .admitted := by
      refine examine_eq_admitted_iff.mpr ⟨hkey, h.available i e hi hkey hopen, hopen, ?_⟩
      intro p hp
      obtain ⟨hlt, f, hf, hfkey⟩ := hearlier p hp
      exact ⟨f, hf, hdone p hlt f hf hfkey⟩
    have hjudge := judgeFrom_of_first 0 hi hadmitted (h.examine_ne_dangling) ?_
    · rwa [Nat.zero_add] at hjudge
    · intro j hj f hf hother
      have hopen' := not_satisfied_of_admitted hother
      rw [hdone j hj f hf (examine_eq_admitted_iff.mp hother).1] at hopen'
      cases hopen'
  · exact h.invoke hi fun p hp f hf hfkey => hdone p (hearlier p hp).1 f hf hfkey
  · rw [Ledger.line, map_left_invoke hi, hrest]

/-- When the line is used up, the call is refused. -/
theorem refuses (h : l.Serves key type) (hline : l.line key = []) :
    ∃ reasons, l.judge key = .refused reasons := by
  cases hjudge : l.judge key with
  | refused reasons => exact ⟨reasons, rfl⟩
  | dangling p => exact absurd hjudge (judge_ne_dangling_of fun f hf => h.examine_ne_dangling f hf p)
  | accepted i e =>
      obtain ⟨hi, hopen⟩ := judge_accepted hjudge
      obtain ⟨-, -, hadmitted⟩ := judgeFrom_accepted hjudge
      have hkey := (examine_eq_admitted_iff.mp hadmitted).1
      have hleft : e.left key = [] :=
        List.flatten_eq_nil_iff.mp hline _ (List.mem_map_of_mem (List.mem_of_getElem? hi))
      rw [(h.left_eq_nil_iff hi hkey).mp hleft] at hopen
      cases hopen

/-- A call of another key leaves the line alone. -/
theorem other (h : l.Serves key type) {call : Signature} (hcall : call ≠ key)
    (hjudge : l.judge call = .accepted i e) :
    (l.invoke i).Serves key type ∧ (l.invoke i).line key = l.line key := by
  obtain ⟨hi, -⟩ := judge_accepted hjudge
  obtain ⟨-, -, hadmitted⟩ := judgeFrom_accepted hjudge
  have hkey : e.call.sameKey key = false := by
    rw [← Bool.not_eq_true]
    intro hkey
    have hsame := Signature.eq_of_sameKey (examine_eq_admitted_iff.mp hadmitted).1
    exact hcall (hsame.symm.trans (Signature.eq_of_sameKey hkey))
  constructor
  · refine h.invoke hi fun p hp f hf hfkey => ?_
    rw [h.apart i e hi hkey p hp f hf] at hfkey
    cases hfkey
  · have hleft : (l.calls.map (·.left key))[i]? = some [] := by
      rw [getElem?_map_left, hi, Option.map_some, Expectation.left, hkey]
      rfl
    have hsame : (l.calls.map (·.left key)).modify i List.tail = l.calls.map (·.left key) := by
      refine List.ext_getElem? fun j => ?_
      rw [List.getElem?_modify]
      by_cases hij : i = j
      · simp [← hij, hleft]
      · simp [hij]
    rw [line, map_left_invoke hi, hsame, line]

/-- Nothing of the key is missing when the line is used up. -/
theorem not_misses (h : l.Serves key type) (hline : l.line key = [])
    (hown : key.sameKey key = true) : ¬l.Misses key := by
  intro hmisses
  obtain ⟨times, invoked, hmissing⟩ := hmisses
  obtain ⟨e, he, heq⟩ := List.mem_map.mp hmissing
  obtain ⟨rfl, -, -⟩ : e.call = key ∧ e.times = times ∧ e.invoked = invoked := by
    simpa using heq
  obtain ⟨hmem, hopen⟩ := List.mem_filter.mp he
  obtain ⟨i, hi⟩ := List.mem_iff_getElem?.mp hmem
  have hleft : e.left e.call = [] :=
    List.flatten_eq_nil_iff.mp hline _ (List.mem_map_of_mem hmem)
  rw [(h.left_eq_nil_iff hi hown).mp hleft] at hopen
  cases hopen

end Serves

/-! ### A queue that was declared -/

/-- Nothing was called yet, and the expectations of the key are, in the order of declaration, to be
called so often and to return so.  The relations among them go forward, and there are none between
them and others. -/
structure Queued (l : Ledger) (key : Signature) (type : ReturnType)
    (queue : List (Nat × Returned)) : Prop where
  /-- The arguments equal themselves. -/
  own : key.sameKey key = true
  listed : (l.calls.filter (·.call.sameKey key)).map (fun e => (e.times, e.stub))
    = queue.map fun q => (q.1, some q.2)
  typed : ∀ q ∈ queue, q.2.type = type
  fresh : ∀ e ∈ l.calls, e.call.sameKey key = true →
    e.invoked = 0 ∧ e.closed = false ∧ e.hooks = []
  earlier : ∀ (i : Nat) (e : Expectation), l.calls[i]? = some e → e.call.sameKey key = true →
    ∀ p ∈ e.prerequisites, p < i ∧ ∃ f, l.calls[p]? = some f ∧ f.call.sameKey key = true
  apart : ∀ (i : Nat) (e : Expectation), l.calls[i]? = some e → e.call.sameKey key = false →
    ∀ p ∈ e.prerequisites, ∀ f, l.calls[p]? = some f → f.call.sameKey key = false

namespace Queued

variable {queue : List (Nat × Returned)}

theorem serves (h : l.Queued key type queue) : l.Serves key type where
  hookless i e hi hkey := (h.fresh e (List.mem_of_getElem? hi) hkey).2.2
  stubbed i e hi hkey := by
    have hmem : (e.times, e.stub) ∈ queue.map fun q => (q.1, some q.2) := by
      rw [← h.listed]
      exact List.mem_map_of_mem (List.mem_filter.mpr ⟨List.mem_of_getElem? hi, hkey⟩)
    obtain ⟨q, hq, heq⟩ := List.mem_map.mp hmem
    exact ⟨q.2, (Prod.mk.inj heq).2.symm, h.typed q hq⟩
  earlier := h.earlier
  apart := h.apart
  available i e hi hkey _ := (h.fresh e (List.mem_of_getElem? hi) hkey).2.1

theorem line_eq (h : l.Queued key type queue) : l.line key = lineOf queue := by
  have hlist (calls : List Expectation)
      (hfresh : ∀ e ∈ calls, e.call.sameKey key = true → e.invoked = 0) :
      (calls.map (·.left key)).flatten
        = ((calls.filter (·.call.sameKey key)).map fun e => (e.times, e.stub)).flatMap
          fun q => q.2.elim [] (List.replicate q.1) := by
    induction calls with
    | nil => rfl
    | cons e rest ih =>
        have hrest := ih fun f hf => hfresh f (List.mem_cons_of_mem _ hf)
        rw [List.map_cons, List.flatten_cons, hrest, List.filter_cons, Expectation.left]
        by_cases hkey : e.call.sameKey key = true
        · rw [if_pos hkey, if_pos hkey, List.map_cons, List.flatMap_cons, Expectation.remaining,
            hfresh e List.mem_cons_self hkey, Nat.sub_zero]
        · rw [if_neg hkey, if_neg hkey, List.nil_append]
  rw [line, hlist l.calls fun e he hkey => (h.fresh e he hkey).1, h.listed, List.flatMap_map]
  rfl

/-- Before anything is ordered, expectations of one key with stubs of one type are a queue. -/
theorem of_unordered (hown : key.sameKey key = true)
    (hlisted : (l.calls.filter (·.call.sameKey key)).map (fun e => (e.times, e.stub))
      = queue.map fun q => (q.1, some q.2))
    (htyped : ∀ q ∈ queue, q.2.type = type)
    (hfresh : ∀ e ∈ l.calls, e.invoked = 0 ∧ e.closed = false ∧ e.hooks = [] ∧
      e.prerequisites = []) : l.Queued key type queue where
  own := hown
  listed := hlisted
  typed := htyped
  fresh e he _ := by
    obtain ⟨hinvoked, hclosed, hhooks, -⟩ := hfresh e he
    exact ⟨hinvoked, hclosed, hhooks⟩
  earlier i e hi _ p hp := by
    rw [(hfresh e (List.mem_of_getElem? hi)).2.2.2] at hp
    cases hp
  apart i e hi _ p hp := by
    rw [(hfresh e (List.mem_of_getElem? hi)).2.2.2] at hp
    cases hp

/-- A queue stays one, to whichever earlier expectation of the key one of them is related. -/
theorem after (h : l.Queued key type queue) {i p : Nat} (hp : p < i)
    (hi : ∀ e, l.calls[i]? = some e → e.call.sameKey key = true)
    (hpre : ∃ f, l.calls[p]? = some f ∧ f.call.sameKey key = true) :
    (l.after i p).Queued key type queue := by
  refine ⟨h.own, ?_, h.typed, forall_mem_after h.fresh fun _ _ h => h, ?_, ?_⟩
  · have hsame : (l.after i p).calls.map (fun e => (e.call, e.times, e.stub))
        = l.calls.map fun e => (e.call, e.times, e.stub) := by
      refine List.ext_getElem? fun j => ?_
      rw [List.getElem?_map, getElem?_after, Option.map_map, List.getElem?_map]
      rfl
    have hlisted (calls : List Expectation) :
        (calls.filter (·.call.sameKey key)).map (fun e => (e.times, e.stub))
          = ((calls.map fun e => (e.call, e.times, e.stub)).filter (·.1.sameKey key)).map
            (·.2) := by
      rw [List.filter_map, List.map_map]
      rfl
    rw [hlisted, hsame, ← hlisted, h.listed]
  · intro j e he hkey q hq
    obtain ⟨f, hf, heq, hold⟩ := exists_of_getElem?_after he
    rw [heq] at hkey
    have hearlier : q < j ∧ ∃ g, l.calls[q]? = some g ∧ g.call.sameKey key = true := by
      rcases (hold q).mp hq with hq | ⟨rfl, rfl⟩
      · exact h.earlier j f hf hkey q hq
      · exact ⟨hp, hpre⟩
    obtain ⟨hlt, g, hg, hgkey⟩ := hearlier
    have hafter := getElem?_after l i p q
    rw [hg, Option.map_some] at hafter
    exact ⟨hlt, _, hafter, hgkey⟩
  · intro j e he hkey q hq g hg
    obtain ⟨f, hf, heq, hold⟩ := exists_of_getElem?_after he
    obtain ⟨g', hg', hgeq, -⟩ := exists_of_getElem?_after hg
    rw [heq] at hkey
    rw [hgeq]
    rcases (hold q).mp hq with hq | ⟨rfl, rfl⟩
    · exact h.apart j f hf hkey q hq g' hg'
    · -- Only what is of the key is related here.
      rw [hi f hf] at hkey
      cases hkey

end Queued

/-! ### Calls that are answered -/

/-- A call takes the head of the line if it is of the key. -/
theorem Serves.answer (h : l.Serves key type) (hown : key.sameKey key = true)
    (call : Signature) :
    ((Change.answer call).apply l).Serves key type ∧
      ((Change.answer call).apply l).line key
        = (l.line key).drop (if key.sameKey call then 1 else 0) := by
  by_cases hcall : call = key
  · subst hcall
    rw [if_pos hown, Change.apply]
    cases hline : l.line call with
    | nil =>
        obtain ⟨reasons, hjudge⟩ := h.refuses hline
        rw [hjudge]
        exact ⟨h, hline⟩
    | cons v line =>
        obtain ⟨i, e, hjudge, -, -, -, hserves, hrest⟩ := h.next hline
        rw [hjudge]
        exact ⟨hserves, hrest⟩
  · have hother : ¬key.sameKey call = true := fun hsame =>
      hcall (Signature.eq_of_sameKey hsame).symm
    rw [if_neg hother, Change.apply, List.drop_zero]
    cases hjudge : l.judge call with
    | accepted i e => exact h.other hcall hjudge
    | refused reasons => exact ⟨h, rfl⟩
    | dangling p => exact ⟨h, rfl⟩

end Ledger

/-- Whether the move is a call of the key on that controller. -/
def Move.asks (controller : Nat) (key : Signature) (m : Move) : Bool :=
  m.controller = controller &&
    match m.change with
    | .answer call => key.sameKey call
    | _ => false

namespace Move

variable {controller : Nat} {key : Signature} {type : ReturnType} {ledgers : List Ledger}

/-- A call takes the head of the line if it is of the key and on that controller. -/
theorem serves_apply (hown : key.sameKey key = true) {m : Move} (hm : m.change.IsAnswer)
    (h : (ledgers.getD controller {}).Serves key type) :
    ((m.apply ledgers).getD controller {}).Serves key type ∧
      ((m.apply ledgers).getD controller {}).line key
        = ((ledgers.getD controller {}).line key).drop (if m.asks controller key then 1 else 0) := by
  obtain ⟨other, change⟩ := m
  cases change with
  | answer call =>
      rw [getD_apply, asks]
      by_cases hother : other = controller
      · by_cases hlt : controller < ledgers.length
        · simpa [hother, hlt] using h.answer hown call
        · -- A controller that is not there expects nothing.
          have hnone : ledgers.getD controller {} = {} := by
            simp [List.getD_eq_getElem?_getD, Nat.le_of_not_lt hlt]
          rw [hnone] at h ⊢
          simpa [hlt, Ledger.line] using h
      · simpa [hother] using h
  | _ => exact hm.elim

/-- Calls take the line as far as they are of the key. -/
theorem serves_play (hown : key.sameKey key = true) {moves : List Move}
    (hmoves : ∀ m ∈ moves, m.change.IsAnswer)
    (h : (ledgers.getD controller {}).Serves key type) :
    ((play moves ledgers).getD controller {}).Serves key type ∧
      ((play moves ledgers).getD controller {}).line key
        = ((ledgers.getD controller {}).line key).drop (moves.countP (asks controller key)) := by
  induction moves generalizing ledgers with
  | nil => exact ⟨h, rfl⟩
  | cons m rest ih =>
      obtain ⟨hm, hrest⟩ := List.forall_mem_cons.mp hmoves
      obtain ⟨hone, hline⟩ := serves_apply hown hm h
      obtain ⟨hserves, hlater⟩ := ih hrest hone
      refine ⟨hserves, ?_⟩
      rw [play, hlater, hline, List.drop_drop, List.countP_cons, Nat.add_comm]

end Move

/-! ### Runs of calls -/

namespace Bench

variable {b : Bench} {controller : Nat} {key : Signature} {type : ReturnType}
  {line : List Returned}

/-- What a call of the key comes to: the value if there is one, and the complaint that nothing
like it is expected if there is none. -/
def Replies (b : Bench) (controller : Nat) (key : Signature) (type : ReturnType) :
    Option Returned → Prop
  | some v => (call controller ⟨key, type⟩ b).result = .ok v
  | none => ∃ reasons, b.Stopped (.unexpectedCall key reasons) (call controller ⟨key, type⟩ b)

theorem replies_of_serves (h : (b.collaborator.ledger controller).Serves key type) :
    b.Replies controller key type ((b.collaborator.ledger controller).line key).head? := by
  cases hline : (b.collaborator.ledger controller).line key with
  | nil =>
      obtain ⟨reasons, hjudge⟩ := h.refuses hline
      refine ⟨reasons, ?_⟩
      rw [call_of_refused hjudge]
      exact stopped_fatal b _
  | cons v line =>
      obtain ⟨i, e, hjudge, hhooks, hstub, htype, -, -⟩ := h.next hline
      have hsuits : ∀ stub, e.stub = some stub → stub.type = type := by
        intro stub hsome
        rw [hstub] at hsome
        cases hsome
        exact htype
      rw [List.head?_cons, Replies, call_of_accepted hjudge hhooks hsuits, hstub]
      rfl

/-- What calls keep up that are allowed, hooks keep up, as long as all their calls are. -/
theorem keeps_fireAll {P : List Ledger → Prop} {allowed : Nat → Request → Prop} {n : Nat}
    (hcall : ∀ (b : Bench) controller request, b.remaining < n → allowed controller request →
      P b.ledgers → P (call controller request b).state.ledgers)
    (args : List Value) {hooks : List Hook}
    (hhooks : ∀ other again, .reenter other again ∈ hooks → allowed other again)
    (hb : b.remaining < n) (h : P b.ledgers) : P (Hook.fireAll args hooks b).state.ledgers := by
  induction hooks generalizing b with
  | nil => exact h
  | cons hook rest ih =>
      have hremaining := remaining_fire args hook b
      have hfirst : P (hook.fire args b).state.ledgers := by
        cases hook with
        | completion counter hook =>
            cases counter with
            | zero => exact h
            | succ k => exact h
        | note tag => exact h
        | giveUp reason => exact h
        | reenter other again => exact hcall b other again hb (hhooks _ _ List.mem_cons_self) h
      rw [Hook.fireAll, Attempt.bind_apply]
      rcases hfire : hook.fire args b with ⟨f | u, t, events⟩
      · rw [hfire] at hfirst
        exact hfirst
      · rw [hfire] at hfirst hremaining
        exact ih (fun other again hmem => hhooks other again (List.mem_cons_of_mem _ hmem))
          (Nat.lt_of_le_of_lt hremaining hb) hfirst

/-- **What answering any allowed call keeps up, a whole call does**, with all that its hooks
call. -/
theorem keeps_call {P : List Ledger → Prop} (allowed : Nat → Request → Prop)
    (hstep : ∀ (b : Bench) controller (request : Request) index e, allowed controller request →
      P b.ledgers → (b.collaborator.ledger controller).judge request.call = .accepted index e →
        P (ledgers (b.modify (·.modify controller (·.invoke index)))) ∧
          ∀ other again, .reenter other again ∈ e.hooks → allowed other again) :
    ∀ (n : Nat) (b : Bench) controller request, b.remaining < n → allowed controller request →
      P b.ledgers → P (call controller request b).state.ledgers := by
  intro n
  induction n with
  | zero => exact fun _ _ _ hb => absurd hb (Nat.not_lt_zero _)
  | succ n ih =>
      intro b controller request hb hallowed h
      by_cases hjudge : ∃ index e,
          (b.collaborator.ledger controller).judge request.call = .accepted index e
      · obtain ⟨index, e, hjudge⟩ := hjudge
        obtain ⟨hcounted, hhooks⟩ := hstep b controller request index e hallowed h hjudge
        have hone := remaining_counted hjudge
        have hfired := keeps_fireAll ih request.call.args hhooks (by omega) hcounted
        rw [call_of_judge hjudge, sequel, Attempt.bind_apply]
        rcases hall : Hook.fireAll request.call.args e.hooks
            (b.modify (·.modify controller (·.invoke index))) with ⟨f | u, t, events⟩
        · rw [hall] at hfired
          exact hfired
        · rw [hall] at hfired
          have hanswer := collaborator_answer request e.stub t
          show P (answer request e.stub t).state.ledgers
          rw [ledgers, hanswer]
          exact hfired
      · push Not at hjudge
        rw [ledgers, (state_call_of_not_accepted hjudge).1]
        exact h

/-- The line of the key on a controller is that, and no hook makes a call of it. -/
structure Waits (controller : Nat) (key : Signature) (type : ReturnType) (line : List Returned)
    (ledgers : List Ledger) : Prop where
  serves : (ledgers.getD controller {}).Serves key type
  line_eq : (ledgers.getD controller {}).line key = line
  unvoiced : ∀ other, ∀ e ∈ (ledgers.getD other {}).calls, ∀ again,
    .reenter controller again ∈ e.hooks → again.call ≠ key

namespace Waits

/-- Counting a call changes no hook. -/
theorem unvoiced_counted (h : Waits controller key type line b.ledgers) {other index : Nat}
    {e : Expectation} (he : (b.collaborator.ledger other).calls[index]? = some e) (k : Nat) :
    ∀ f ∈ ((b.collaborator.modify other (·.invoke index)).ledger k).calls, ∀ again,
      .reenter controller again ∈ f.hooks → again.call ≠ key := by
  intro f hf again hmem
  by_cases hk : k = other
  · subst hk
    rw [Switchboard.ledger_modify_self (Switchboard.lt_length_of_getElem? he)] at hf
    obtain ⟨g, hg, -, hhooks, -⟩ := Ledger.mem_invoke hf
    exact h.unvoiced k g hg again (hhooks ▸ hmem)
  · rw [Switchboard.ledger_modify_of_ne hk] at hf
    exact h.unvoiced k f hf again hmem

/-- A call of another key, or on another controller, leaves the line alone. -/
theorem counted_other (h : Waits controller key type line b.ledgers) {other index : Nat}
    {request : Request} {e : Expectation} (hother : other = controller → request.call ≠ key)
    (hjudge : (b.collaborator.ledger other).judge request.call = .accepted index e) :
    Waits controller key type line
      (ledgers (b.modify (·.modify other (·.invoke index)))) := by
  obtain ⟨he, -⟩ := Ledger.judge_accepted hjudge
  have hledger : ((b.collaborator.modify other (·.invoke index)).ledger controller).Serves key type ∧
      ((b.collaborator.modify other (·.invoke index)).ledger controller).line key = line := by
    by_cases hcontroller : controller = other
    · subst hcontroller
      rw [Switchboard.ledger_modify_self (Switchboard.lt_length_of_getElem? he)]
      obtain ⟨hserves, hline⟩ := Ledger.Serves.other h.serves (hother rfl) hjudge
      exact ⟨hserves, hline.trans h.line_eq⟩
    · rw [Switchboard.ledger_modify_of_ne hcontroller]
      exact ⟨h.serves, h.line_eq⟩
  exact ⟨hledger.1, hledger.2, fun k => h.unvoiced_counted he k⟩

/-- So does the whole call, as no hook makes a call of the key. -/
theorem call_other (h : Waits controller key type line b.ledgers) {other : Nat}
    {request : Request} (hother : other = controller → request.call ≠ key) :
    Waits controller key type line (call other request b).state.ledgers := by
  refine keeps_call (fun other request => other = controller → request.call ≠ key) ?_
    (b.remaining + 1) b other request (Nat.lt_succ_self _) hother h
  intro b other request index e hallowed h hjudge
  refine ⟨h.counted_other hallowed hjudge, fun k again hmem hk => ?_⟩
  subst hk
  exact h.unvoiced other e (Ledger.sameKey_of_judge hjudge).1 again hmem

/-- A call of the key takes the head of the line. -/
theorem call_own (h : Waits controller key type line b.ledgers) :
    Waits controller key type line.tail (call controller ⟨key, type⟩ b).state.ledgers := by
  have hserves : (b.collaborator.ledger controller).Serves key type := h.serves
  have hline : (b.collaborator.ledger controller).line key = line := h.line_eq
  cases line with
  | nil =>
      obtain ⟨reasons, hjudge⟩ := hserves.refuses hline
      have hrefused : ∀ i e, (b.collaborator.ledger controller).judge key ≠ .accepted i e := by
        simp [hjudge]
      rw [ledgers, (state_call_of_not_accepted hrefused).1]
      exact h
  | cons v rest =>
      obtain ⟨i, e, hjudge, hhooks, -, -, hnext, hrest⟩ := hserves.next hline
      obtain ⟨he, -⟩ := Ledger.judge_accepted hjudge
      have hledger := Switchboard.ledger_modify_self (Switchboard.lt_length_of_getElem? he)
        (·.invoke i)
      rw [ledgers, collaborator_call_of_accepted hjudge hhooks]
      refine ⟨?_, ?_, fun k => h.unvoiced_counted he k⟩
      · rw [← hledger] at hnext
        exact hnext
      · rw [← hledger] at hrest
        exact hrest

end Waits

/-- The replies to the calls of the key on that controller. -/
def repliesTo (controller : Nat) (key : Signature) (calls : List (Nat × Request))
    (replies : List (Except Failure Returned)) : List (Except Failure Returned) :=
  ((calls.zip replies).filter fun p => p.1.1 = controller && key.sameKey p.1.2.call).map (·.2)

theorem repliesTo_cons_own (hown : key.sameKey key = true) (rest : List (Nat × Request))
    (reply : Except Failure Returned) (replies : List (Except Failure Returned)) :
    repliesTo controller key ((controller, ⟨key, type⟩) :: rest) (reply :: replies)
      = reply :: repliesTo controller key rest replies := by
  simp [repliesTo, hown]

theorem repliesTo_cons_other {c : Nat × Request} (hc : ¬(c.1 = controller ∧ c.2.call = key))
    (rest : List (Nat × Request)) (reply : Except Failure Returned)
    (replies : List (Except Failure Returned)) :
    repliesTo controller key (c :: rest) (reply :: replies)
      = repliesTo controller key rest replies := by
  have hother : (decide (c.1 = controller) && key.sameKey c.2.call) = false := by
    rw [← Bool.not_eq_true, Bool.and_eq_true, decide_eq_true_eq]
    exact fun h => hc ⟨h.1, (Signature.eq_of_sameKey h.2).symm⟩
  simp [repliesTo, hother]

/-- The reply is that nothing like the call is expected, as the reporter puts it. -/
def Unexpected (key : Signature) (reply : Except Failure Returned) : Prop :=
  ∃ reasons, reply = .error (.fatal (.unexpectedCall key reasons)) ∨
    reply = .error (.panic (.complaint (.unexpectedCall key reasons)))

theorem unexpected_of_replies (h : b.Replies controller key type none) :
    Unexpected key (call controller ⟨key, type⟩ b).result := by
  obtain ⟨reasons, hstopped⟩ := h
  unfold Stopped at hstopped
  split at hstopped
  · exact ⟨reasons, Or.inl hstopped.1⟩
  · exact ⟨reasons, Or.inr hstopped.1⟩

/-- What calls are answered where that is the line, and what the line is then. -/
theorem Waits.run (hown : key.sameKey key = true) {calls : List (Nat × Request)}
    (htypes : ∀ c ∈ calls, c.1 = controller → c.2.call = key → c.2.type = type)
    (h : Waits controller key type line b.ledgers) :
    ∃ replies t events,
      Attempt.forEachCaught (fun c => call c.1 c.2) calls b = ⟨.ok replies, t, events⟩ ∧
      replies.length = calls.length ∧
      let own := repliesTo controller key calls replies
      Waits controller key type (line.drop own.length) t.ledgers ∧
        own.take line.length = (line.take own.length).map .ok ∧
        ∀ reply ∈ own.drop line.length, Unexpected key reply := by
  induction calls generalizing b line with
  | nil => exact ⟨[], b, [], rfl, rfl, h, by simp [repliesTo], by simp [repliesTo]⟩
  | cons c rest ih =>
      have hrest := fun d hd => htypes d (List.mem_cons_of_mem _ hd)
      have hfirst : (call c.1 c.2).caught b
          = ⟨.ok (call c.1 c.2 b).result, (call c.1 c.2 b).state, (call c.1 c.2 b).events⟩ := rfl
      by_cases hc : c.1 = controller ∧ c.2.call = key
      · obtain ⟨other, request⟩ := c
        obtain ⟨rfl, rfl⟩ := hc
        obtain rfl : request.type = type := htypes _ List.mem_cons_self rfl rfl
        have hreplies := replies_of_serves (b := b) h.serves
        rw [show (b.collaborator.ledger other).line request.call = line from h.line_eq] at hreplies
        obtain ⟨replies, t, events, hrun, hlength, hwaits, hline, hrefused⟩ :=
          ih hrest h.call_own
        refine ⟨_ :: replies, t, _, Attempt.forEach_cons_of_ok hfirst hrun,
          congrArg (· + 1) hlength, ?_⟩
        rw [repliesTo_cons_own hown]
        cases line with
        | nil =>
            have hunexpected := unexpected_of_replies hreplies
            refine ⟨?_, ?_, List.forall_mem_cons.mpr ⟨hunexpected, hrefused⟩⟩
            · simpa using hwaits
            · simp
        | cons v line =>
            have hresult : (call other request b).result = .ok v := hreplies
            refine ⟨hwaits, ?_, hrefused⟩
            simp only [List.length_cons, List.take_succ_cons, List.map_cons, hresult]
            exact congrArg _ hline
      · have hother : c.1 = controller → c.2.call ≠ key := fun h h' => hc ⟨h, h'⟩
        obtain ⟨replies, t, events, hrun, hlength, hline⟩ := ih hrest (h.call_other hother)
        refine ⟨_ :: replies, t, _, Attempt.forEach_cons_of_ok hfirst hrun,
          congrArg (· + 1) hlength, ?_⟩
        rw [repliesTo_cons_other hc]
        exact hline

/-- **Expectations of one key are a queue.**  Whatever calls were answered before, by a test or from
within hooks: a call of the key returns what is next in the line of their stubs, each as often as
it is to be called, and when as many were made as the line is long, the call is refused and none
of them is missing.  So in every run in which no hook makes a call of the key, the calls of the key
are answered down the line, and all that follow are refused. -/
theorem queue_served {queue : List (Nat × Returned)}
    (h : (b.collaborator.ledger controller).Queued key type queue) :
    (∀ moves t, (∀ m ∈ moves, m.change.IsAnswer) → ledgers t = Move.play moves b.ledgers →
      let made := moves.countP (Move.asks controller key)
      t.Replies controller key type (lineOf queue)[made]? ∧
        ((lineOf queue).length ≤ made → ¬(t.collaborator.ledger controller).Misses key)) ∧
    ∀ calls : List (Nat × Request),
      (∀ c ∈ calls, c.1 = controller → c.2.call = key → c.2.type = type) →
      (∀ other, ∀ e ∈ (b.collaborator.ledger other).calls, ∀ again,
        .reenter controller again ∈ e.hooks → again.call ≠ key) →
      ∃ replies t events,
        Attempt.forEachCaught (fun c => call c.1 c.2) calls b = ⟨.ok replies, t, events⟩ ∧
        replies.length = calls.length ∧
        let own := repliesTo controller key calls replies
        own.take (lineOf queue).length = ((lineOf queue).take own.length).map .ok ∧
        (∀ reply ∈ own.drop (lineOf queue).length, Unexpected key reply) ∧
        ((lineOf queue).length ≤ own.length →
          ¬(t.collaborator.ledger controller).Misses key) := by
  have hline : (b.ledgers.getD controller {}).line key = lineOf queue := h.line_eq
  have hserves : (b.ledgers.getD controller {}).Serves key type := h.serves
  refine ⟨fun moves t hmoves ht => ?_, fun calls htypes hunvoiced => ?_⟩
  · obtain ⟨hplayed, hleft⟩ := Move.serves_play h.own hmoves hserves
    rw [← ht, hline] at hleft
    rw [← ht] at hplayed
    have hreplies := replies_of_serves (b := t) hplayed
    rw [show (t.collaborator.ledger controller).line key = _ from hleft, List.head?_drop]
      at hreplies
    refine ⟨hreplies, fun hlong => hplayed.not_misses ?_ h.own⟩
    rw [hleft, List.drop_of_length_le hlong]
  · have hwaits : Waits controller key type (lineOf queue) b.ledgers :=
      ⟨hserves, hline, hunvoiced⟩
    obtain ⟨replies, t, events, hrun, hlength, hafter, hserved, hrefused⟩ :=
      hwaits.run h.own htypes
    refine ⟨replies, t, events, hrun, hlength, hserved, hrefused, fun hlong => ?_⟩
    exact hafter.serves.not_misses (hafter.line_eq.trans (List.drop_of_length_le hlong)) h.own

/-- A bench that expects two rings, a knock, no ring and one more ring, which comes after the rings
before it. -/
def ringing : Bench :=
  let ring (n : Nat) (answer : String) : Attempt Bench CallId := do
    let id ← declare 0 ⟨"bell", "ring", []⟩
    setTimes id n
    setStub id (.text answer)
    return id
  let chores : Attempt Bench Unit := do
    let first ← ring 2 "ding"
    let _ ← declare 0 ⟨"door", "knock", []⟩
    let second ← ring 0 "never"
    let third ← ring 1 "dong"
    after third first
    after third second
  (chores (start .recording {} 1 0)).state

theorem queued_ringing : (ringing.collaborator.ledger 0).Queued ⟨"bell", "ring", []⟩ .text
    [(2, .text "ding"), (0, .text "never"), (1, .text "dong")] := by
  let ring (n : Nat) (answer : String) : Expectation :=
    { call := ⟨"bell", "ring", []⟩, times := n, stub := some (.text answer) }
  let unordered : Ledger :=
    ⟨[ring 2 "ding", { call := ⟨"door", "knock", []⟩ }, ring 0 "never", ring 1 "dong"]⟩
  have hqueued : unordered.Queued ⟨"bell", "ring", []⟩ .text
      [(2, .text "ding"), (0, .text "never"), (1, .text "dong")] := by
    refine .of_unordered (by decide) rfl (by decide) fun e he => ?_
    simp only [unordered, List.mem_cons, List.not_mem_nil, or_false] at he
    rcases he with rfl | rfl | rfl | rfl <;> exact ⟨rfl, rfl, rfl, rfl⟩
  have hfirst := hqueued.after (i := 3) (p := 0) (by decide) (by rintro e ⟨⟩; rfl) ⟨_, rfl, rfl⟩
  exact hfirst.after (i := 3) (p := 2) (by decide) (by rintro e ⟨⟩; rfl) ⟨_, rfl, rfl⟩

theorem hookless_ringing : (ringing.collaborator.ledger 0).Hookless := by
  intro e he
  obtain ⟨i, hi⟩ := List.mem_iff_getElem?.mp he
  match i, hi with
  | 0, rfl => rfl
  | 1, rfl => rfl
  | 2, rfl => rfl
  | 3, rfl => rfl

/-- A knock comes between the first two rings, and the fourth ring is one too many. -/
theorem ding_ding_dong :
    let ring : Nat × Request := (0, ⟨⟨"bell", "ring", []⟩, .text⟩)
    let knock : Nat × Request := (0, ⟨⟨"door", "knock", []⟩, .unit⟩)
    let calls := [ring, knock, ring, ring, ring]
    ∃ replies t events,
      Attempt.forEachCaught (fun c => call c.1 c.2) calls ringing = ⟨.ok replies, t, events⟩ ∧
      ∃ last, repliesTo 0 ring.2.call calls replies
          = [.ok (.text "ding"), .ok (.text "ding"), .ok (.text "dong"), last] ∧
        Unexpected ring.2.call last ∧ ¬(t.collaborator.ledger 0).Misses ring.2.call := by
  intro ring knock calls
  obtain ⟨-, hruns⟩ := queue_served queued_ringing
  have htypes : ∀ c ∈ calls, c.1 = 0 → c.2.call = ring.2.call → c.2.type = .text := by
    intro c hc _ hcall
    simp only [calls, List.mem_cons, List.not_mem_nil, or_false] at hc
    rcases hc with rfl | rfl | rfl | rfl | rfl
    · rfl
    · exact absurd (congrArg Signature.receiver hcall) (by decide)
    · rfl
    · rfl
    · rfl
  have hunvoiced : ∀ other, ∀ e ∈ (ringing.collaborator.ledger other).calls, ∀ again,
      .reenter 0 again ∈ e.hooks → again.call ≠ ring.2.call := by
    intro other e he again hmem
    have hhooks : e.hooks = [] := by
      cases other with
      | zero => exact hookless_ringing e he
      | succ k => cases (show e ∈ ([] : List Expectation) from he)
    rw [hhooks] at hmem
    cases hmem
  obtain ⟨replies, t, events, hrun, hlength, hserved, hrefused, hmissing⟩ :=
    hruns calls htypes hunvoiced
  match replies, hlength with
  | [r₁, r₂, r₃, r₄, r₅], _ =>
    have hown : repliesTo 0 ring.2.call calls [r₁, r₂, r₃, r₄, r₅] = [r₁, r₃, r₄, r₅] := rfl
    rw [hown] at hserved hrefused hmissing
    obtain ⟨rfl, rfl, rfl⟩ : r₁ = .ok (.text "ding") ∧ r₃ = .ok (.text "ding") ∧
        r₄ = .ok (.text "dong") := by
      simpa [lineOf] using hserved
    exact ⟨_, t, events, hrun, r₅, hown, hrefused r₅ List.mem_cons_self, hmissing (Nat.le_succ 3)⟩

end Bench

end CallOrder
