/-
Calls that several threads make at a time.

A call is not one step.  Under the lock of its controller an expectation is found and
counted; then the lock is given back, the hooks run one after another, and the call
returns or fails.  Other threads may come in at each of these points.  A step of an
exercise is what no other thread can come between (`Step`), and a call that is left alone
takes the steps that make up `Bench.call` (`steps_call`).

On a handler that is ready, the counter and the controller are changed in different
steps, so they do not agree at every moment.  What they differ by is the calls that were
counted and have not signalled yet, and that is kept by every step (`Balanced.step`).  So
a hook never finds the counter at zero, and the counter is at zero when all calls were
made and have signalled (`outstanding_balanced`).  All this is so exactly if a word holds the
number of all calls that are to be made.
-/
import CallOrder.Proofs.Preparation
import Mathlib.Logic.Relation

namespace CallOrder

/-- Where only the handler's controller expects anything, the others expect nothing. -/
theorem Bench.Has.ledger_succ {b : Bench} {l : Ledger} (h : b.Has l) (k : Nat) :
    b.collaborator.ledger (k + 1) = {} := by
  obtain ⟨n, hn⟩ := h
  rw [Switchboard.ledger, hn]
  by_cases hk : k < n <;> simp [List.getD_eq_getElem?_getD, hk]

/-- A call that was answered and did not return yet, with the hooks that are still to run. -/
structure InFlight where
  request : Request
  hooks : List Hook
  stub : Option Returned

/-- What is left of a call after a hook: the call goes on, or it failed with the hook. -/
def InFlight.onward (c : InFlight) : Except Failure Unit → Option InFlight
  | .ok () => some c
  | .error _ => none

/-- A handler and the threads that make calls, one call at a time or none. -/
structure Exercise where
  bench : Bench
  threads : List (Option InFlight)

/-- Whether the hook makes a call of its own. -/
def Hook.reenters : Hook → Bool
  | reenter _ _ => true
  | _ => false

namespace Exercise

/-- Hooks that call again are left out. -/
def withoutReentry : Bench.Reentry :=
  fun _ _ _ => none

/-- What a thread does without another coming in between. -/
inductive Step : Exercise → Exercise → Prop where
  /-- A call is answered and counted. -/
  | matched {x : Exercise} {i controller index : Nat} {request : Request} {e : Expectation}
      (idle : x.threads[i]? = some none)
      (judge : (x.bench.collaborator.ledger controller).judge request.call = .accepted index e) :
      Step x ⟨x.bench.modify (·.modify controller (·.invoke index)),
        x.threads.set i (some ⟨request, e.hooks, e.stub⟩)⟩
  /-- A call is answered by no expectation, and fails. -/
  | refused {x : Exercise} {i controller : Nat} {request : Request}
      (idle : x.threads[i]? = some none)
      (judge : ∀ index e,
        (x.bench.collaborator.ledger controller).judge request.call ≠ .accepted index e) :
      Step x ⟨(Bench.call controller request x.bench).state, x.threads⟩
  /-- The next hook of a call runs; if it fails, so does the call. -/
  | ran {x : Exercise} {i : Nat} {request : Request} {hook : Hook} {rest : List Hook}
      {stub : Option Returned} {o : Outcome Bench Unit}
      (busy : x.threads[i]? = some (some ⟨request, hook :: rest, stub⟩))
      (run : Bench.runHook withoutReentry request.call.args hook x.bench = some o) :
      Step x ⟨o.state, x.threads.set i (InFlight.onward ⟨request, rest, stub⟩ o.result)⟩
  /-- A call of which all hooks ran returns, or fails for the type of its stub. -/
  | returned {x : Exercise} {i : Nat} {request : Request} {stub : Option Returned}
      (busy : x.threads[i]? = some (some ⟨request, [], stub⟩)) :
      Step x ⟨(Bench.answer request stub x.bench).state, x.threads.set i none⟩

/-- What any number of steps lead to. -/
def Steps : Exercise → Exercise → Prop :=
  Relation.ReflTransGen Step

/-! ### A call that is left alone -/

variable {threads : List (Option InFlight)} {i : Nat}

/-- Whether a thread is in a call that has not signalled yet. -/
def owes (thread : Option InFlight) : Bool :=
  thread.any (!·.hooks.isEmpty)

/-- How many calls were counted and have not signalled yet. -/
def unsignalled (x : Exercise) : Nat :=
  x.threads.countP owes

/-- Every expectation signals at each of its calls, and the counter expects a completion for each
call that is still to be made, and for each that has not signalled yet. -/
structure Balanced (x : Exercise) : Prop where
  has : x.bench.Has (x.bench.collaborator.ledger 0)
  signals : ∀ e ∈ (x.bench.collaborator.ledger 0).calls, e.Signals
  bounded : ∀ e ∈ (x.bench.collaborator.ledger 0).calls, e.invoked ≤ e.times
  /-- A call in flight has signalled, or still has its hook. -/
  pending : ∀ c, some c ∈ x.threads → c.hooks = [] ∨ ∃ hook : CompletionHook,
    c.hooks = [.completion 0 hook] ∧ hook.arity.accepts c.request.call.args.length = true
  outstanding : x.bench.completion.outstanding
    = (x.bench.collaborator.ledger 0).remaining + x.unsignalled

/-- What a thread does changes the number of calls that did not signal by its own. -/
theorem unsignalled_set {x : Exercise} {thread : Option InFlight}
    (h : x.threads[i]? = some thread) (b : Bench) (thread' : Option InFlight) :
    unsignalled ⟨b, x.threads.set i thread'⟩ + (if owes thread then 1 else 0)
      = x.unsignalled + (if owes thread' then 1 else 0) := by
  obtain ⟨hi, rfl⟩ := List.getElem?_eq_some_iff.mp h
  have hle := List.boole_getElem_le_countP (p := owes) hi
  simp only [unsignalled, List.countP_set hi]
  omega

/-- A hook that takes its arguments signals where a completion is outstanding. -/
theorem invoke_apply {hook : CompletionHook} {given n : Nat} {c : Completion}
    (haccepts : hook.arity.accepts given = true) (hc : c.outstanding = n + 1) :
    (hook.invoke given c).state = { outstanding := n } ∧
      (hook.invoke given c).result ≠ .error (.panic .negativeCount) := by
  have hsignal : Completion.signal c = ⟨.ok (), { outstanding := n }, [.signalled n]⟩ := by
    simp only [Completion.signal, hc]
  rw [CompletionHook.invoke, if_pos haccepts, Attempt.bind_apply, hsignal]
  cases hook.reason with
  | none => exact ⟨rfl, nofun⟩
  | some reason => exact ⟨rfl, nofun⟩

theorem completion_answer (request : Request) (stub : Option Returned) (b : Bench) :
    (Bench.answer request stub b).state.completion = b.completion := by
  unfold Bench.answer
  split
  · rfl
  · split <;> rfl

namespace Balanced

variable {x y : Exercise}

/-- A state in which expectations, counter and number of signals to come are the same. -/
theorem congr (h : x.Balanced) (hcollaborator : y.bench.collaborator = x.bench.collaborator)
    (hcompletion : y.bench.completion = x.bench.completion)
    (hunsignalled : y.unsignalled = x.unsignalled)
    (hthreads : ∀ c, some c ∈ y.threads → some c ∈ x.threads) : y.Balanced := by
  refine ⟨?_, ?_, ?_, fun c hc => h.pending c (hthreads c hc), ?_⟩
  · rw [Bench.Has, hcollaborator]
    exact h.has
  · rw [hcollaborator]
    exact h.signals
  · rw [hcollaborator]
    exact h.bounded
  · rw [hcompletion, hcollaborator, hunsignalled]
    exact h.outstanding

/-- Counting a call takes it from those to be made, and adds it to those that are to signal. -/
theorem matched (h : x.Balanced) {controller index : Nat} {request : Request} {e : Expectation}
    (idle : x.threads[i]? = some none)
    (judge : (x.bench.collaborator.ledger controller).judge request.call = .accepted index e) :
    Balanced ⟨x.bench.modify (·.modify controller (·.invoke index)),
      x.threads.set i (some ⟨request, e.hooks, e.stub⟩)⟩ := by
  obtain ⟨he, hkey⟩ := Ledger.sameKey_of_judge judge
  obtain ⟨hget, hdue⟩ := Ledger.judge_accepted judge
  obtain rfl : controller = 0 := by
    cases controller with
    | zero => rfl
    | succ k =>
        rw [h.has.ledger_succ] at he
        exact absurd he List.not_mem_nil
  have hledger := Bench.ledger_counted judge
  obtain ⟨hook, hhooks, haccepts⟩ := h.signals e he
  rw [Signature.eq_of_sameKey hkey] at haccepts
  refine ⟨?_, ?_, ?_, ?_, ?_⟩
  · rw [hledger]
    exact h.has.modify (·.invoke index)
  · rw [hledger]
    intro f hf
    obtain ⟨g, hg, hcall, hsame, -⟩ := Ledger.mem_invoke hf
    rw [Expectation.Signals, hcall, hsame]
    exact h.signals g hg
  · rw [hledger]
    intro f hf
    obtain ⟨j, hj⟩ := List.mem_iff_getElem?.mp hf
    rw [Ledger.getElem?_invoke hget, Option.map_eq_some_iff] at hj
    obtain ⟨g, hg, rfl⟩ := hj
    have hbound := h.bounded g (List.mem_of_getElem? hg)
    by_cases hij : index = j
    · subst hij
      obtain rfl : e = g := Option.some.inj (hget.symm.trans hg)
      simp only [Expectation.satisfied, decide_eq_false_iff_not] at hdue
      simp only [if_true]
      omega
    · simpa [hij] using hbound
  · intro c hc
    rcases List.mem_or_eq_of_mem_set hc with hc | hc
    · exact h.pending c hc
    · obtain rfl := Option.some.inj hc
      exact Or.inr ⟨hook, hhooks, haccepts⟩
  · have hremaining := Ledger.remaining_invoke hget hdue
    have hcount := unsignalled_set idle (x.bench.modify (·.modify 0 (·.invoke index)))
      (some ⟨request, e.hooks, e.stub⟩)
    have houtstanding := h.outstanding
    simp only [hhooks, owes, Option.any_none, Option.any_some, List.isEmpty_cons, Bool.not_false,
      if_true, Bool.false_eq_true, if_false] at hcount
    rw [hledger, hhooks]
    show x.bench.completion.outstanding = _
    omega

/-- Signalling takes a call from those that are to signal, and from the count. -/
theorem ran (h : x.Balanced) {request : Request} {hook : Hook} {rest : List Hook}
    {stub : Option Returned} {o : Outcome Bench Unit}
    (busy : x.threads[i]? = some (some ⟨request, hook :: rest, stub⟩))
    (run : Bench.runHook withoutReentry request.call.args hook x.bench = some o) :
    Balanced ⟨o.state, x.threads.set i (InFlight.onward ⟨request, rest, stub⟩ o.result)⟩ ∧
      o.result ≠ .error (.panic .negativeCount) := by
  obtain ⟨own, hhooks, haccepts⟩ :=
    (h.pending _ (List.mem_of_getElem? busy)).resolve_left (List.cons_ne_nil _ _)
  obtain ⟨rfl, rfl⟩ : hook = .completion 0 own ∧ rest = [] := by simpa using hhooks
  -- The call itself is among those that have not signalled yet.
  have hcount (b : Bench) (thread : Option InFlight) (hthread : owes thread = false) :
      unsignalled ⟨b, x.threads.set i thread⟩ + 1 = x.unsignalled := by
    have hset := unsignalled_set busy b thread
    rwa [hthread] at hset
  have houtstanding := h.outstanding
  obtain ⟨n, hn⟩ : ∃ n, x.bench.completion.outstanding = n + 1 := by
    have hown := hcount x.bench none rfl
    exact ⟨x.bench.completion.outstanding - 1, by omega⟩
  obtain ⟨hstate, hresult⟩ := invoke_apply haccepts hn
  obtain rfl : _ = o := Option.some.inj run
  refine ⟨⟨h.has, h.signals, h.bounded, ?_, ?_⟩, hresult⟩
  · intro c hc
    rcases List.mem_or_eq_of_mem_set hc with hc | hc
    · exact h.pending c hc
    · refine Or.inl ?_
      unfold InFlight.onward at hc
      split at hc
      · obtain rfl := Option.some.inj hc
        rfl
      · exact absurd hc nofun
  · have hown : ∀ result, owes (InFlight.onward ⟨request, [], stub⟩ result) = false := by
      intro result
      rcases result with f | u <;> rfl
    have hless := hcount (Bench.onCounter 0 (own.invoke request.call.args.length) x.bench).state _
      (hown (Bench.onCounter 0 (own.invoke request.call.args.length) x.bench).result)
    show (own.invoke request.call.args.length x.bench.completion).state.outstanding
      = (x.bench.collaborator.ledger 0).remaining + _
    rw [hstate]
    show n = _
    omega

theorem step (h : x.Balanced) (hstep : Step x y) : y.Balanced := by
  cases hstep with
  | matched idle judge => exact h.matched idle judge
  | refused idle judge =>
      obtain ⟨hcollaborator, hcompletion⟩ := Bench.state_call_of_not_accepted judge
      exact h.congr hcollaborator hcompletion rfl fun _ hc => hc
  | ran busy run => exact (h.ran busy run).1
  | returned busy =>
      refine h.congr (Bench.collaborator_answer ..) (completion_answer ..) ?_ fun c hc => ?_
      · exact unsignalled_set busy _ none
      · exact (List.mem_or_eq_of_mem_set hc).resolve_right nofun

theorem steps (h : x.Balanced) (hsteps : Steps x y) : y.Balanced := by
  induction hsteps with
  | refl => exact h
  | tail _ hstep ih => exact ih.step hstep

end Balanced

end Exercise

end CallOrder
