/-
The log of a company, event by event, with the account that each is on.

The events themselves do not say which controller or which counter they are about.  A
journal keeps beside each the account on which it was told: that of the controller that was
changed, of the counter that was counted on, or of the walk that registered a relation.

Events are told under the lock of what they tell of, so a step and its event are one, with
one exception.  A walk over a tree registers a relation under the lock of a controller, gives
the lock back, and tells of the relation only then.  So a walk is a thread of its own here,
that registers and tells by turns (`Tour`), and anything may come in between.

All that a step can do to expectations and counts, and what it tells of it, is said once
(`Posting`): a move of one controller, some completions expected, one signalled, or nothing.
-/
import CallOrder.Proofs.Audit
import CallOrder.Proofs.Fitting
import CallOrder.Proofs.Frontier
import CallOrder.Proofs.Solo

namespace CallOrder

/-- On whose account an event is told. -/
inductive Account where
  | controller (number : Nat)
  | counter (number : Nat)
  /-- A walk over a tree, by the number under which it was begun. -/
  | walk (number : Nat)
  | nobody
deriving DecidableEq

/-- An event of the log and the account that it is on. -/
structure Entry where
  account : Account
  event : Event

/-- The events that are told on an account, in order. -/
def Entry.on (account : Account) (entries : List Entry) : List Event :=
  (entries.filter fun entry => entry.account = account).map Entry.event

/-- Whether the event tells of an expectation, of a count or of a relation. -/
def Event.isRecord : Event → Bool
  | .declared .. => true
  | .matched .. => true
  | .ordered .. => true
  | .expecting .. => true
  | .signalled .. => true
  | _ => false

/-- The accounts on which records of each kind are kept. -/
def Account.keeps : Account → Event → Bool
  | controller _, .declared .. => true
  | controller _, .matched .. => true
  | counter _, .expecting .. => true
  | counter _, .signalled .. => true
  | walk _, .ordered .. => true
  | _, _ => false

/-- The account on which something done in one piece is told. -/
def Act.account : Act → Account
  | declare controller _ => .controller controller
  | setTimes id _ => .controller id.controller
  | setStub id _ => .controller id.controller
  | attach id _ => .controller id.controller
  | order c => .controller c.successor.controller
  | register c => .controller c.successor.controller
  | expect counter _ _ => .counter counter
  | signal counter => .counter counter
  | fire _ _ => .counter 0
  | get _ _ => .nobody
  | complain _ => .nobody
  | enter _ => .nobody
  | leave => .nobody

/-- Whether it registers a relation as a walk does, and tells of it in the same go. -/
def Act.registers : Act → Bool
  | register _ => true
  | _ => false

/-- The account on which the next step of a call is told. -/
def Descent.account (x : Descent) : Account :=
  match x.focus, x.inFlight with
  | .calling controller _, _ => .controller controller
  | .working, ⟨_, .completion counter _ :: _, _⟩ :: _ => .counter counter
  | _, _ => .nobody

/-- What a step of a company tells, and on which account; walks apart. -/
inductive Company.Tells : Company → Account → List Event → Company → Prop where
  | acted {x : Company} {i : Nat} (act : Act) (idle : x.threads[i]? = some .idle)
      (piece : act.registers = false) :
      Tells x act.account (act.effect x.bench).2 { x with
        bench := (act.effect x.bench).1
        log := x.log ++ (act.effect x.bench).2 }
  | called {x : Company} {i : Nat} (controller : Nat) (request : Request)
      (idle : x.threads[i]? = some .idle) :
      Tells x .nobody []
        { x with threads := x.threads.set i (.calling [] (.calling controller request)) }
  | went {x : Company} {i : Nat} {inFlight : List InFlight} {focus : Focus} {y : Descent}
      {events : List Event} (turn : x.threads[i]? = some (.calling inFlight focus))
      (next : Descent.Step ⟨x.bench, inFlight, focus, x.log⟩ y)
      (log : y.events = x.log ++ events) :
      Tells x (Descent.account ⟨x.bench, inFlight, focus, x.log⟩) events { x with
        bench := y.bench
        threads := x.threads.set i (.calling y.inFlight y.focus)
        log := y.events }
  | returned {x : Company} {i : Nat} {result : Except Failure Returned}
      (turn : x.threads[i]? = some (.calling [] (.came result))) :
      Tells x .nobody [] { x with threads := x.threads.set i .idle }
  | verified {x y : Company} {events : List Event} (verification : Verification x y)
      (log : y.log = x.log ++ events) :
      Tells x .nobody events y

/-- A walk over a tree from some anchors: of its relations, so many were registered so far, and so
many were told of. -/
structure Tour where
  anchors : List CallId
  node : Node CallId
  registered : Nat := 0
  told : Nat := 0

/-- The relations that the walk is to register, in order. -/
def Tour.relations (tour : Tour) : List (Constraint CallId) :=
  (tour.node.propagate tour.anchors).constraints

/-- The walk after it registered one more. -/
def Tour.register (tour : Tour) : Tour :=
  { tour with registered := tour.registered + 1 }

/-- The walk after it told of one more. -/
def Tour.report (tour : Tour) : Tour :=
  { tour with told := tour.told + 1 }

/-- What the log tells of a relation. -/
def Bench.relating (b : Bench) (c : Constraint CallId) : Event :=
  (Handler.stage Producer.produce).event b c

/-- A company, the walks that were begun, and the log with the account of each event. -/
structure Journal where
  company : Company
  tours : List Tour := []
  entries : List Entry := []

namespace Journal

/-- So many threads, no walk, and an empty log. -/
def start (kind : ReporterKind) (config : Config) (controllers counters n : Nat) : Journal where
  company := Company.start kind config controllers counters n

/-- What is done without another coming in between. -/
inductive Step : Journal → Journal → Prop where
  | told {x : Journal} {account : Account} {events : List Event} {y : Company}
      (tells : x.company.Tells account events y) :
      Step x { x with company := y, entries := x.entries ++ events.map (⟨account, ·⟩) }
  /-- A walk sets out over calls that were declared. -/
  | began {x : Journal} (anchors : List CallId) (node : Node CallId)
      (known : ∀ id ∈ anchors ++ node.leaves,
        (x.company.bench.collaborator.expectation? id).isSome = true) :
      Step x { x with tours := x.tours ++ [{ anchors, node }] }
  /-- A walk registers its next relation, under the lock of the successor's controller. -/
  | registered {x : Journal} {w : Nat} {tour : Tour} {c : Constraint CallId}
      (turn : x.tours[w]? = some tour) (even : tour.told = tour.registered)
      (next : tour.relations[tour.registered]? = some c) :
      Step x { x with
        company := { x.company with bench := x.company.bench.modify (Collaborator.order c) }
        tours := x.tours.set w tour.register }
  /-- It tells of the relation, after it gave the lock back. -/
  | reported {x : Journal} {w : Nat} {tour : Tour} {c : Constraint CallId}
      (turn : x.tours[w]? = some tour) (behind : tour.told < tour.registered)
      (next : tour.relations[tour.told]? = some c) :
      Step x {
        company := { x.company with log := x.company.log ++ [x.company.bench.relating c] }
        tours := x.tours.set w tour.report
        entries := x.entries ++ [⟨.walk w, x.company.bench.relating c⟩] }

/-- What any number of steps lead to. -/
def Steps : Journal → Journal → Prop :=
  Relation.ReflTransGen Step

end Journal

/-! ### Counts -/

namespace Bench

variable {b : Bench}

/-- The counts of all counters, the handler's first. -/
def counts (b : Bench) : List Completion :=
  b.completion :: b.collaborator.counters

theorem completionOf_eq (b : Bench) (number : Nat) :
    b.completionOf number = b.counts.getD number {} := by
  cases number with
  | zero => rfl
  | succ k => rw [counts, List.getD_cons_succ]; rfl

theorem set_completionOf (b : Bench) (number : Nat) :
    b.counts.set number (b.completionOf number) = b.counts := by
  rw [completionOf_eq, List.getD_eq_getElem?_getD]
  by_cases h : number < b.counts.length
  · rw [List.getElem?_eq_getElem h, Option.getD_some, List.set_getElem_self]
  · exact List.set_eq_of_length_le (Nat.le_of_not_lt h)

section Counter

variable {α : Type} (number : Nat) (x : Attempt Completion α) (b : Bench)

theorem counts_onCounter : (onCounter number x b).state.counts
    = b.counts.set number (x (b.completionOf number)).state := by
  cases number <;> rfl

theorem ledgers_onCounter : (onCounter number x b).state.ledgers = b.ledgers := by
  cases number <;> rfl

theorem events_onCounter :
    (onCounter number x b).events = (x (b.completionOf number)).events := by
  cases number <;> rfl

end Counter

end Bench

/-- Whatever it comes to, it signals one completion or does nothing. -/
def Completion.AtMostSignals {α : Type} (x : Attempt Completion α) : Prop :=
  ∀ c, x.effect c = (c, []) ∨ ∃ n, c.outstanding = n + 1 ∧ x.effect c = (⟨n⟩, [.signalled n])

/-- A signal at zero does nothing. -/
theorem Completion.effect_signal_of_drained {c : Completion} (h : c.outstanding = 0) :
    Completion.signal.effect c = (c, []) := by
  simp only [Attempt.effect, Completion.signal, h]

theorem Completion.atMostSignals_signal : AtMostSignals Completion.signal := by
  intro c
  cases hc : c.outstanding with
  | zero => exact .inl (effect_signal_of_drained hc)
  | succ n => exact .inr ⟨n, rfl, by simp only [Attempt.effect, Completion.signal, hc]⟩

namespace CompletionHook

variable {hook : CompletionHook} {given : Nat}

/-- A hook that does not take its arguments does nothing. -/
theorem effect_invoke_of_refuses (h : hook.arity.accepts given = false) (c : Completion) :
    (hook.invoke given).effect c = (c, []) := by
  simp only [Attempt.effect, invoke, h, Bool.false_eq_true, if_false]
  rfl

/-- One that does signals, whatever it comes to after that. -/
theorem effect_invoke_of_accepts (h : hook.arity.accepts given = true) (c : Completion) :
    (hook.invoke given).effect c = Completion.signal.effect c := by
  simp only [Attempt.effect, invoke, h, if_true, Attempt.bind_apply]
  rcases Completion.signal c with ⟨f | u, d, events⟩
  · rfl
  · cases hook.reason <;> simp [Outcome.after, Attempt.fail, Attempt.pure_apply]

theorem atMostSignals_invoke (hook : CompletionHook) (given : Nat) :
    Completion.AtMostSignals (hook.invoke given) := by
  intro c
  cases haccepts : hook.arity.accepts given with
  | false => exact .inl (effect_invoke_of_refuses haccepts c)
  | true =>
      rw [effect_invoke_of_accepts haccepts]
      exact Completion.atMostSignals_signal c

end CompletionHook

/-! ### What a step can do to expectations and counts -/

/-- The record of a change, if there is one: an expectation is taken on, or it answers a call. -/
def Change.record? : Change → Ledger → Option Event
  | declare call, l => some (.declared call.receiver call.method l.calls.length)
  | answer call, l =>
    match l.judge call with
    | .accepted index e => some (.matched call.receiver call.method index (e.invoked + 1))
    | _ => none
  | _, _ => none

/-- Nothing was told that is on record, and nothing changed that could be. -/
structure Bench.Unrecorded (b t : Bench) (events : List Event) : Prop where
  silent : ∀ event ∈ events, event.isRecord = false
  ledgers : t.ledgers = b.ledgers
  counts : t.counts = b.counts

/-- What a step does to a bench, and what is told of it on which account. -/
inductive Posting (b t : Bench) : Account → List Event → Prop where
  /-- A step that tells nothing may be on any account. -/
  | nothing {account : Account} (unrecorded : b.Unrecorded t []) : Posting b t account []
  | remarked {account : Account} {events : List Event} (unrecorded : b.Unrecorded t events)
      (apart : account = .nobody ∨ ∃ k, account = .controller k) : Posting b t account events
  | moved (m : Move) (ledgers : t.ledgers = m.apply b.ledgers) (counts : t.counts = b.counts) :
      Posting b t (.controller m.controller)
        (m.change.record? (b.ledgers.getD m.controller {})).toList
  | expected (counter n : Nat) (ledgers : t.ledgers = b.ledgers)
      (counts : t.counts = b.counts.set counter ((b.completionOf counter).plus n)) :
      Posting b t (.counter counter) [.expecting n ((b.completionOf counter).plus n).outstanding]
  | signalled (counter n : Nat) (due : (b.completionOf counter).outstanding = n + 1)
      (ledgers : t.ledgers = b.ledgers) (counts : t.counts = b.counts.set counter ⟨n⟩) :
      Posting b t (.counter counter) [.signalled n]

namespace Bench

variable {b : Bench}

theorem Unrecorded.refl (b : Bench) : b.Unrecorded b [] :=
  ⟨by simp, rfl, rfl⟩

/-- Telling the reporter of something is not on record. -/
theorem unrecorded_error (c : Complaint) (b : Bench) :
    let o : Outcome Bench Unit := Handler.onReporter (Reporter.error c) b
    b.Unrecorded o.state o.events := by
  intro o
  simp only [o, onReporter_error]
  cases b.reporter.kind with
  | recording => exact ⟨by simp [Event.isRecord], rfl, rfl⟩
  | panicking => exact Unrecorded.refl b

theorem unrecorded_fatal {α : Type} (c : Complaint) (b : Bench) :
    let o : Outcome Bench α := Handler.fatal c b
    b.Unrecorded o.state o.events := by
  intro o
  have heffect : (Handler.fatal c : Attempt Bench α).effect b
      = (Handler.onReporter (Reporter.error c) : Attempt Bench Unit).effect b := by
    simp only [Attempt.effect, Handler.fatal, Handler.onReporter, Attempt.on, Reporter.fatal,
      Attempt.bind_apply]
    rcases Reporter.error c b.reporter with ⟨f | u, r, events⟩
    · rfl
    · simp [Outcome.after, Attempt.fail]
  have hstate : o.state = _ := congrArg Prod.fst heffect
  have hevents : o.events = _ := congrArg Prod.snd heffect
  rw [hstate, hevents]
  exact unrecorded_error c b

theorem unrecorded_answer (request : Request) (stub : Option Returned) (b : Bench) :
    let o := answer request stub b
    b.Unrecorded o.state o.events := by
  intro o
  simp only [o, answer]
  split
  · exact Unrecorded.refl b
  · split
    · exact Unrecorded.refl b
    · exact unrecorded_fatal _ b

theorem unrecorded_get (mock : String) (make : Switchboard → String) (b : Bench) :
    let o : Outcome Bench String := Handler.get mock make b
    b.Unrecorded o.state o.events := by
  intro o
  simp only [o, Handler.get, Attempt.bind_apply, Attempt.current, Handler.onRegistry, Attempt.on,
    Registry.resolve, Attempt.pure_apply]
  cases (b.registry.reserve mock).instance? mock with
  | some value => exact ⟨by simp [Outcome.after], rfl, rfl⟩
  | none => exact ⟨by simp [Outcome.after, Event.isRecord], rfl, rfl⟩

/-- An attempt on a counter that does nothing to it is not on record. -/
theorem unrecorded_onCounter {α : Type} {x : Attempt Completion α} {counter : Nat}
    (h : x.effect (b.completionOf counter) = (b.completionOf counter, [])) :
    let o := onCounter counter x b
    b.Unrecorded o.state o.events := by
  intro o
  obtain ⟨hstate, hevents⟩ := Prod.mk.inj h
  refine ⟨?_, ledgers_onCounter counter x b, ?_⟩
  · simp only [o, events_onCounter, hevents, List.not_mem_nil, false_imp_iff, implies_true]
  · simp only [o, counts_onCounter, hstate, set_completionOf]

/-- One that at most signals posts one signal, or nothing. -/
theorem posting_of_atMostSignals {α : Type} {x : Attempt Completion α}
    (h : Completion.AtMostSignals x) (counter : Nat) (b : Bench) :
    let o := onCounter counter x b
    Posting b o.state (.counter counter) o.events := by
  intro o
  rcases h (b.completionOf counter) with heffect | ⟨n, hdue, heffect⟩
  · have hevents : o.events = [] :=
      (events_onCounter counter x b).trans (Prod.mk.inj heffect).2
    have hunrecorded := unrecorded_onCounter heffect
    rw [hevents]
    exact .nothing (hevents ▸ hunrecorded)
  · obtain ⟨hstate, hevents⟩ := Prod.mk.inj heffect
    have hcounts := counts_onCounter counter x b
    rw [hstate] at hcounts
    simp only [o, events_onCounter, hevents]
    exact .signalled counter n hdue (ledgers_onCounter counter x b) hcounts

/-- Where a build panics over a sum, nothing is on record. -/
theorem unrecorded_expect {counter n : Nat} (h : ¬ (b.completionOf counter).Fits n) :
    let o := onCounter counter (Completion.expect n .panics) b
    b.Unrecorded o.state o.events :=
  unrecorded_onCounter (by simp only [Attempt.effect, Completion.expect_of_not_fits h])

/-- Expecting more posts what is outstanding then, or nothing if the build panics. -/
theorem posting_expect (counter n : Nat) (overflow : Overflow) (b : Bench) :
    let o := onCounter counter (Completion.expect n overflow) b
    Posting b o.state (.counter counter) o.events := by
  intro o
  have hevents : o.events = (Completion.expect n overflow (b.completionOf counter)).events :=
    events_onCounter counter _ b
  rcases Completion.wraps_or_fits_or overflow (b.completionOf counter) n with
    hmade | ⟨rfl, hexceeds⟩
  · have hcounts := counts_onCounter counter (Completion.expect n overflow) b
    rw [Completion.expect_eq hmade] at hcounts hevents
    rw [hevents]
    exact .expected counter n (ledgers_onCounter counter _ b) hcounts
  · have hunrecorded : b.Unrecorded o.state o.events := unrecorded_expect hexceeds
    rw [Completion.expect_of_not_fits hexceeds] at hevents
    rw [hevents] at hunrecorded ⊢
    exact .nothing hunrecorded

/-! ### What is done in one piece -/

/-- A hook that is refused is not on record. -/
theorem posting_attach (id : CallId) (hook : Hook) (b : Bench) :
    let o := attach id hook b
    Posting b o.state (.controller id.controller) o.events := by
  intro o
  cases he : b.collaborator.expectation? id with
  | none =>
      simp only [o, attach_of_unknown he]
      exact .nothing (Unrecorded.refl b)
  | some e =>
      cases haccepts : hook.accepts e.call.args.length with
      | false =>
          simp only [o, attach_of_refuses he haccepts]
          exact .remarked (unrecorded_fatal _ b) (.inr ⟨_, rfl⟩)
      | true =>
          simp only [o, attach_of_accepts he haccepts]
          exact .moved ⟨id.controller, .attach id.index hook⟩ rfl rfl

/-- **All that is done in one piece, but what walks do, is a posting.** -/
theorem posting_effect {act : Act} (piece : act.registers = false) (b : Bench) :
    Posting b (act.effect b).1 act.account (act.effect b).2 := by
  cases act with
  | declare controller call => exact .moved ⟨controller, .declare call⟩ rfl rfl
  | setTimes id n => exact .moved ⟨id.controller, .setTimes id.index n⟩ rfl rfl
  | setStub id stub => exact .moved ⟨id.controller, .setStub id.index stub⟩ rfl rfl
  | attach id hook => exact posting_attach id hook b
  | order c => exact .moved (orderMove c) rfl rfl
  | register c => exact Bool.noConfusion piece
  | expect counter n overflow => exact posting_expect counter n overflow b
  | signal counter => exact posting_of_atMostSignals Completion.atMostSignals_signal counter b
  | fire hook given => exact posting_of_atMostSignals (hook.atMostSignals_invoke given) 0 b
  | get mock make => exact .remarked (unrecorded_get mock make b) (.inl rfl)
  | complain c => exact .remarked (unrecorded_error c b) (.inl rfl)
  | enter label =>
      have hsilent : ∀ event ∈ [Event.entered label], event.isRecord = false := by
        simp [Event.isRecord]
      exact .remarked ⟨hsilent, rfl, rfl⟩ (.inl rfl)
  | leave =>
      have hsilent : ∀ event ∈ [Event.exited], event.isRecord = false := by
        simp [Event.isRecord]
      exact .remarked ⟨hsilent, rfl, rfl⟩ (.inl rfl)

end Bench

/-! ### Calls -/

namespace Descent

variable {x y : Descent}

/-- What a step adds to the events is a posting. -/
def Posts (x y : Descent) : Prop :=
  ∃ events, y.events = x.events ++ events ∧ Posting x.bench y.bench x.account events

/-- A hook that makes no call signals one completion, or nothing is told of it. -/
theorem posts_fire {b : Bench} {callers : List InFlight} {events : List Event}
    {request : Request} {hook : Hook} {rest : List Hook} {stub : Option Returned}
    (alone : hook.reenters = false) :
    let x : Descent := ⟨b, ⟨request, hook :: rest, stub⟩ :: callers, .working, events⟩
    let o := hook.fire request.call.args b
    Posting b o.state x.account o.events := by
  intro x o
  cases hook with
  | completion counter hook =>
      exact Bench.posting_of_atMostSignals (hook.atMostSignals_invoke _) counter b
  | note tag => exact .nothing ⟨List.forall_mem_nil _, rfl, rfl⟩
  | giveUp reason => exact .nothing (.refl b)
  | reenter controller again => exact Bool.noConfusion alone

/-- Whatever a hook came to, what it did stays done and its events are told. -/
theorem onward_keeps (c : InFlight) (callers : List InFlight) (events : List Event)
    (o : Outcome Bench Unit) :
    (onward c callers events o).bench = o.state ∧
      (onward c callers events o).events = events ++ o.events := by
  unfold onward
  split <;> exact ⟨rfl, rfl⟩

/-- **Every step of a call posts what it does.** -/
theorem Step.posts (h : x.Step y) : x.Posts y := by
  cases h.way with
  | dangling judge => exact ⟨[], rfl, .nothing (.refl _)⟩
  | @refused b callers events controller request reasons judge =>
      let o : Outcome Bench Returned := Handler.fatal (.unexpectedCall request.call reasons) b
      have hfatal : b.Unrecorded o.state o.events := Bench.unrecorded_fatal _ b
      refine ⟨.unexpected request.call.receiver request.call.method :: o.events, ?_,
        .remarked ⟨?_, hfatal.ledgers, hfatal.counts⟩ (.inr ⟨controller, rfl⟩)⟩
      · exact List.append_assoc ..
      · exact List.forall_mem_cons.mpr ⟨rfl, hfatal.silent⟩
  | @accepted b callers events controller index request e judge =>
      let m : Move := ⟨controller, .answer request.call⟩
      have hledgers : Bench.ledgers (b.modify (·.modify controller (·.invoke index)))
          = m.apply b.ledgers := (Move.apply_of_accepted judge).symm
      have hrecord : m.change.record? (b.ledgers.getD controller {})
          = some (.matched request.call.receiver request.call.method index (e.invoked + 1)) := by
        have hjudge : (b.ledgers.getD controller {}).judge request.call = .accepted index e :=
          judge
        simp only [m, Change.record?, hjudge]
      have hmoved := Posting.moved m hledgers rfl
      rw [hrecord] at hmoved
      exact ⟨_, rfl, hmoved⟩
  | answered => exact ⟨_, rfl, .remarked (Bench.unrecorded_answer ..) (.inl rfl)⟩
  | fired alone =>
      obtain ⟨hbench, hevents⟩ := onward_keeps ..
      refine ⟨_, hevents, ?_⟩
      rw [hbench]
      exact posts_fire alone
  | reentered => exact ⟨[], (List.append_nil _).symm, .nothing (.refl _)⟩
  | noted =>
      exact ⟨[], (List.append_nil _).symm, .nothing ⟨List.forall_mem_nil _, rfl, rfl⟩⟩

end Descent

/-! ### Companies -/

namespace Company

variable {x y : Company} {account : Account} {events : List Event}

theorem unrecorded_swap (x : Company) (i : Nat) :
    (x.swap i).log = x.log ∧ x.bench.Unrecorded (x.swap i).bench [] := by
  unfold swap
  split
  · exact ⟨rfl, .refl _⟩
  · exact ⟨rfl, List.forall_mem_nil _, rfl, rfl⟩

/-- Verifying is not on record. -/
theorem Verification.unrecorded (h : Verification x y) :
    ∃ events, y.log = x.log ++ events ∧ x.bench.Unrecorded y.bench events := by
  cases h with
  | @asked i idle =>
      obtain ⟨hlog, hunrecorded⟩ := unrecorded_swap (x.mark i .idle .asked) i
      exact ⟨[], hlog.trans (List.append_nil _).symm, hunrecorded⟩
  | @dropped i unwinding idle lives =>
      refine ⟨[], ?_⟩
      rw [List.append_nil]
      dsimp only
      split
      · obtain ⟨hlog, -, hledgers, hcounts⟩ := unrecorded_swap
          ({ x with bench := { x.bench with dropped := true } }.mark i .idle (.dropped unwinding)) i
        exact ⟨hlog, List.forall_mem_nil _, hledgers, hcounts⟩
      · exact ⟨rfl, List.forall_mem_nil _, rfl, rfl⟩
  | collected turn => exact ⟨[], (List.append_nil _).symm, .refl _⟩
  | @told i c left o turn tell =>
      subst tell
      exact ⟨_, rfl, Bench.unrecorded_error c x.bench⟩
  | ended turn => exact ⟨[], (List.append_nil _).symm, .refl _⟩

/-- **Whatever a company tells of is a posting**, and the log is what it tells, in order. -/
theorem Tells.posting (h : x.Tells account events y) :
    y.log = x.log ++ events ∧ Posting x.bench y.bench account events := by
  cases h with
  | acted act idle piece => exact ⟨rfl, Bench.posting_effect piece x.bench⟩
  | called controller request idle => exact ⟨(List.append_nil _).symm, .nothing (.refl _)⟩
  | went turn next log =>
      obtain ⟨more, hmore, hposting⟩ := next.posts
      obtain rfl : events = more := List.append_cancel_left (log.symm.trans hmore)
      exact ⟨log, hposting⟩
  | returned turn => exact ⟨(List.append_nil _).symm, .nothing (.refl _)⟩
  | verified verification log =>
      obtain ⟨more, hmore, hunrecorded⟩ := verification.unrecorded
      obtain rfl : events = more := List.append_cancel_left (log.symm.trans hmore)
      exact ⟨log, .remarked hunrecorded (.inl rfl)⟩

/-- What tells is a step. -/
theorem Tells.step (h : x.Tells account events y) : Step x y := by
  cases h with
  | acted act idle piece => exact .acted act idle
  | called controller request idle => exact .called controller request idle
  | went turn next log => exact .went turn next
  | returned turn => exact .returned turn
  | verified verification log => exact .verified verification

/-- Every step tells, but for one that registers a relation and tells of it in the same go. -/
theorem Step.tells (h : Step x y) : (∃ account events, x.Tells account events y) ∨
    ∃ c, y = { x with
      bench := x.bench.modify (Collaborator.order c)
      log := x.log ++ [x.bench.relating c] } := by
  cases h with
  | acted act idle =>
      cases hpiece : act.registers with
      | false => exact .inl ⟨_, _, .acted act idle hpiece⟩
      | true =>
          cases act with
          | register c => exact .inr ⟨c, rfl⟩
          | _ => cases hpiece
  | called controller request idle => exact .inl ⟨_, _, .called controller request idle⟩
  | went turn next =>
      obtain ⟨events, hevents, -⟩ := next.posts
      exact .inl ⟨_, events, .went turn next hevents⟩
  | returned turn => exact .inl ⟨_, _, .returned turn⟩
  | verified verification =>
      obtain ⟨events, hevents, -⟩ := verification.unrecorded
      exact .inl ⟨_, events, .verified verification hevents⟩

end Company

/-! ### A walk that is left alone -/

namespace Journal

variable {x : Journal} {w : Nat} {tour : Tour}

end Journal

end CallOrder
