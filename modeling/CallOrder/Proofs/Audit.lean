/-
Verification happens once.

The flag is swapped before anything is looked up, so one thread at most ever gets past it
(`Phase.turn`), and it does not matter that looking up and complaining come later, that
others go on meanwhile, or that a reporter stops the thread at its first complaint.  How far
that one thread got is told by the history alone (`Audited.run`): verification was begun,
then it was looked up what is missing, then the reporter was told of it, one by one.

What else is done to the handler does not touch the flag, the configuration or the kind of
the reporter, and only adds to what the reporter recorded (`Bench.Aside`).  So what was told
in the end is what was missing when it was looked up, all of it where the reporter records and
the first of it where it panics (`verified_once`).  That the steps are the ones of the handler is
told beside it, from what one thread does alone (`steps_finish`, `steps_drop`).
-/
import CallOrder.Proofs.Reply
import CallOrder.Proofs.Verifying

namespace CallOrder

/-! ### What has nothing to do with verifying -/

/-- The flag is as it was, and so are the configuration and the kind of the reporter; what it
recorded is still there. -/
structure Bench.Aside (b t : Bench) : Prop where
  verified : t.verified = b.verified
  config : t.config = b.config
  kind : t.reporter.kind = b.reporter.kind
  failures : b.reporter.failures <+: t.reporter.failures

namespace Bench.Aside

theorem refl (b : Bench) : b.Aside b :=
  ⟨rfl, rfl, rfl, List.prefix_rfl⟩

/-- The expectations do not matter. -/
theorem modify (b : Bench) (change : Switchboard → Switchboard) : b.Aside (b.modify change) :=
  ⟨rfl, rfl, rfl, List.prefix_rfl⟩

theorem onCounter {α : Type} (number : Nat) (x : Attempt Completion α) (b : Bench) :
    b.Aside (Bench.onCounter number x b).state := by
  cases number <;> exact ⟨rfl, rfl, rfl, List.prefix_rfl⟩

/-- Telling the reporter of something at most adds to what it recorded. -/
theorem error (c : Complaint) (b : Bench) :
    b.Aside (Handler.onReporter (Reporter.error c) b : Outcome Bench Unit).state := by
  rw [onReporter_error]
  cases hkind : b.reporter.kind with
  | recording => exact ⟨rfl, rfl, hkind.symm, List.prefix_append ..⟩
  | panicking => exact refl b

theorem fatal {α : Type} (c : Complaint) (b : Bench) :
    b.Aside (Handler.fatal c b : Outcome Bench α).state := by
  have hstate : (Handler.fatal c b : Outcome Bench α).state
      = (Handler.onReporter (Reporter.error c) b : Outcome Bench Unit).state := by
    simp only [Handler.fatal, Handler.onReporter, Attempt.on, Reporter.fatal, Attempt.bind_apply]
    rcases Reporter.error c b.reporter with ⟨f | u, r, events⟩ <;> rfl
  exact hstate ▸ error c b

theorem get (mock : String) (make : Switchboard → String) (b : Bench) :
    b.Aside (Handler.get mock make b).state := by
  simp only [Handler.get, Attempt.bind_apply, Attempt.current, Handler.onRegistry, Attempt.on,
    Outcome.after]
  rcases Registry.resolve mock _ b.registry with ⟨f | pair, r, events⟩
  · exact ⟨rfl, rfl, rfl, List.prefix_rfl⟩
  · exact ⟨rfl, rfl, rfl, List.prefix_rfl⟩

theorem attach (id : CallId) (hook : Hook) (b : Bench) :
    b.Aside (Bench.attach id hook b).state := by
  cases he : b.collaborator.expectation? id with
  | none => exact attach_of_unknown he ▸ refl b
  | some e =>
      cases haccepts : hook.accepts e.call.args.length with
      | false => exact attach_of_refuses he haccepts ▸ fatal _ b
      | true => exact attach_of_accepts he haccepts ▸ modify b _

theorem effect (act : Act) (b : Bench) : b.Aside (act.effect b).1 := by
  cases act with
  | declare controller call => exact ⟨rfl, rfl, rfl, List.prefix_rfl⟩
  | setTimes id n => exact modify b _
  | setStub id stub => exact modify b _
  | attach id hook => exact attach id hook b
  | order c => exact modify b _
  | register c => exact modify b _
  | expect counter n overflow => exact onCounter counter _ b
  | signal counter => exact onCounter counter _ b
  | fire hook given => exact onCounter 0 _ b
  | get mock make => exact get mock make b
  | complain c => exact error c b
  | enter label => exact refl b
  | leave => exact refl b

theorem answer (request : Request) (stub : Option Returned) (b : Bench) :
    b.Aside (Bench.answer request stub b).state := by
  unfold Bench.answer
  split
  · exact refl b
  · split
    · exact refl b
    · exact fatal _ b

theorem fire {hook : Hook} (hhook : hook.reenters = false) (args : List Value) (b : Bench) :
    b.Aside (hook.fire args b).state := by
  cases hook with
  | completion counter hook => exact onCounter counter _ b
  | note tag => exact modify b _
  | giveUp reason => exact refl b
  | reenter controller request => cases hhook

/-- A step of a call, within others or not. -/
theorem step {x y : Descent} (h : x.Step y) : x.bench.Aside y.bench := by
  cases h.way with
  | dangling judge => exact refl _
  | refused judge => exact fatal _ _
  | accepted judge => exact modify _ _
  | answered => exact answer _ _ _
  | @fired b callers events request hook rest stub alone =>
      have hfire := fire alone request.call.args b
      rw [Descent.onward]
      split <;> exact hfire
  | reentered => exact refl _
  | noted => exact modify _ _

end Bench.Aside

/-! ### How far verification got -/

/-- What is missing are the expectations that were not called as often as they should have been, in
the order in which they were declared. -/
theorem Ledger.missing_eq (l : Ledger) : l.missing =
    (l.calls.filter fun e => e.invoked < e.times).map fun e =>
      .missingCalls e.call e.times e.invoked := by
  have hsatisfied (e : Expectation) : (!e.satisfied) = decide (e.invoked < e.times) := by
    simp only [Expectation.satisfied, ← decide_not, Nat.not_le]
  simp only [missing, hsatisfied]

/-- Whether a thread verifies. -/
def Task.audits : Task → Bool
  | verifying => true
  | complaining _ => true
  | _ => false

/-- Whether it happens only once verification was begun, rather than being a reason for it. -/
def Milestone.ofAudit : Milestone → Bool
  | begun => true
  | collected _ => true
  | told _ => true
  | _ => false

/-- Whether verification was begun with it. -/
def Milestone.isBegun : Milestone → Bool
  | begun => true
  | _ => false

/-- What the reporter was told. -/
def Milestone.told? : Milestone → Option Complaint
  | told c => some c
  | _ => none

/-- How far a verification got. -/
inductive Phase where
  | before
  /-- A thread is to look up what is missing. -/
  | begun (auditor : Nat)
  /-- It looked, told the reporter of some, and is to tell it of others. -/
  | collected (auditor : Nat) (l : Ledger) (told left : List Complaint)
  | finished (l : Ledger) (told : List Complaint)

namespace Phase

/-- Who verifies, and what it is about. -/
def turn : Phase → Option (Nat × Task)
  | before => none
  | begun auditor => some (auditor, .verifying)
  | collected auditor _ _ left => some (auditor, .complaining left)
  | finished _ _ => none

/-- What happened since it was begun. -/
def milestones : Phase → List Milestone
  | before => []
  | begun _ => [.begun]
  | collected _ l told _ => .begun :: .collected l :: told.map .told
  | finished l told => .begun :: .collected l :: told.map .told

/-- What the reporter was told. -/
def told : Phase → List Complaint
  | collected _ _ told _ => told
  | finished _ told => told
  | _ => []

/-- Whether it was begun. -/
def isBegun : Phase → Bool
  | before => false
  | _ => true

/-- What the reporter was told is what is missing, up to where it stops. -/
def Honest (kind : ReporterKind) : Phase → Prop
  | before => True
  | begun _ => True
  | collected _ l told left => told ++ left = l.missing ∧ (kind = .panicking → told = [])
  | finished l told => told = kind.due l.missing

end Phase

namespace Company

variable {x y : Company} {p : Phase} {kind : ReporterKind} {config : Config} {i : Nat}

/-- What the reporter was told when the handler verified. -/
def told (x : Company) : List Complaint :=
  x.history.filterMap Milestone.told?

/-- Verification got so far. -/
structure Audited (kind : ReporterKind) (p : Phase) (x : Company) : Prop where
  verified : x.bench.verified = p.isBegun
  reporter : x.bench.reporter.kind = kind
  /-- No thread verifies but the one whose turn it is. -/
  turn : ∀ j task, task.audits = true →
    (x.threads[j]? = some task ↔ p.turn = some (j, task))
  run : x.history.filter Milestone.ofAudit = p.milestones
  honest : p.Honest kind
  recorded : kind = .recording → x.told.Sublist x.bench.reporter.failures

/-- Whether verification was begun is settled by what asked for it. -/
structure Prompted (config : Config) (x : Company) : Prop where
  configured : x.bench.config = config
  verified : x.bench.verified = true ↔ .asked ∈ x.history ∨
    config.verifyOnDrop = true ∧ .dropped false ∈ x.history

/-! ### Whose turn it is -/

/-- A thread that does not verify goes on to something else, which is not verifying either. -/
theorem getElem?_set_iff_of_not_audits {threads : List Task} {old new : Task}
    (turn : threads[i]? = some old) (hold : old.audits = false) (hnew : new.audits = false)
    {j : Nat} {task : Task} (haudits : task.audits = true) :
    (threads.set i new)[j]? = some task ↔ threads[j]? = some task := by
  by_cases hij : i = j
  · subst hij
    rw [getElem?_set_of_getElem? turn, turn]
    refine iff_of_false ?_ ?_ <;> rintro ⟨⟩
    · exact Bool.noConfusion (hnew.symm.trans haudits)
    · exact Bool.noConfusion (hold.symm.trans haudits)
  · rw [List.getElem?_set_ne hij]

/-- Where nobody else verifies, the turn is with the thread that goes on. -/
theorem getElem?_set_iff_of_turn {threads : List Task} {old : Task}
    (turn : threads[i]? = some old)
    (hothers : ∀ j task, task.audits = true → threads[j]? = some task → j = i)
    (new : Task) {j : Nat} {task : Task} (haudits : task.audits = true) :
    (threads.set i new)[j]? = some task ↔ j = i ∧ new = task := by
  by_cases hij : i = j
  · subst hij
    rw [getElem?_set_of_getElem? turn]
    simp
  · rw [List.getElem?_set_ne hij]
    exact iff_of_false (fun hj => hij (hothers j task haudits hj).symm) fun h => hij h.1.symm

/-! ### A step takes it no further than the next phase -/

theorem told_mark (x : Company) (i : Nat) (task : Task) (milestone : Milestone) :
    (x.mark i task milestone).told = x.told ++ milestone.told?.toList := by
  simp only [told, mark, List.filterMap_append]
  cases milestone <;> rfl

theorem told_mark_of_none {milestone : Milestone} (h : milestone.told? = none) (task : Task) :
    (x.mark i task milestone).told = x.told := by
  rw [told_mark, h]
  exact List.append_nil _

/-- What was told is told by what happened since verification was begun. -/
theorem told_eq_filterMap_filter (x : Company) :
    x.told = (x.history.filter Milestone.ofAudit).filterMap Milestone.told? := by
  rw [told, List.filterMap_filter]
  refine List.filterMap_congr fun m _ => ?_
  cases m <;> rfl

namespace Audited

/-- What has nothing to do with verifying leaves it where it was. -/
theorem congr (h : x.Audited kind p) (haside : x.bench.Aside y.bench)
    (hturn : ∀ (j : Nat) (task : Task), task.audits = true →
      (y.threads[j]? = some task ↔ x.threads[j]? = some task))
    (hrun : y.history.filter Milestone.ofAudit = x.history.filter Milestone.ofAudit) :
    y.Audited kind p := by
  refine ⟨haside.verified.trans h.verified, haside.kind.trans h.reporter,
    fun j task haudits => (hturn j task haudits).trans (h.turn j task haudits),
    hrun.trans h.run, h.honest, fun hkind => ?_⟩
  rw [told_eq_filterMap_filter, hrun, ← told_eq_filterMap_filter]
  exact (h.recorded hkind).trans haside.failures.sublist

/-- Nobody verifies beside the thread that does. -/
theorem alone (h : x.Audited kind p) {old : Task} (turn : x.threads[i]? = some old)
    (hold : old.audits = true) :
    ∀ j task, task.audits = true → x.threads[j]? = some task → j = i := by
  intro j task haudits hj
  have hi := (h.turn i old hold).mp turn
  rw [(h.turn j task haudits).mp hj] at hi
  cases hi
  rfl

theorem swap (h : x.Audited kind p) (idle : x.threads[i]? = some .idle) :
    ∃ q, (x.swap i).Audited kind q := by
  unfold Company.swap
  split
  · exact ⟨p, h⟩
  · rename_i hverified
    have hbefore : p = .before := by
      rw [h.verified] at hverified
      cases p with
      | before => rfl
      | _ => exact absurd rfl hverified
    subst hbefore
    refine ⟨.begun i, rfl, h.reporter, fun j task haudits => ?_, ?_, trivial, fun hkind => ?_⟩
    · -- Nobody verified yet.
      have hnobody (j : Nat) (task : Task) (haudits : task.audits = true)
          (hj : x.threads[j]? = some task) : j = i :=
        nomatch (h.turn j task haudits).mp hj
      rw [mark, getElem?_set_iff_of_turn idle hnobody _ haudits]
      simp only [Phase.turn, Option.some.injEq, Prod.mk.injEq, eq_comm]
    · simp only [mark, List.filter_append, h.run]
      rfl
    · rw [told_mark_of_none rfl]
      exact h.recorded hkind

/-- The thread looks up what is missing. -/
theorem collected (h : x.Audited kind p) (turn : x.threads[i]? = some .verifying) :
    ∃ q, (x.mark i (.complaining (Collaborator.unmet x.bench.collaborator))
      (.collected (x.bench.collaborator.ledger 0))).Audited kind q := by
  have hi := (h.turn i _ rfl).mp turn
  cases p with
  | begun auditor =>
      cases hi
      refine ⟨.collected i (x.bench.collaborator.ledger 0) []
        (x.bench.collaborator.ledger 0).missing, h.verified, h.reporter, fun j task haudits => ?_,
        ?_, ⟨rfl, fun _ => rfl⟩, fun hkind => ?_⟩
      · rw [mark, getElem?_set_iff_of_turn turn (h.alone turn rfl) _ haudits]
        simp only [Phase.turn, Option.some.injEq, Prod.mk.injEq, eq_comm]
        rfl
      · simp only [mark, List.filter_append, h.run]
        rfl
      · rw [told_mark_of_none rfl]
        exact h.recorded hkind
  | _ => cases hi

/-- It tells the reporter of what is missing next. -/
theorem told {c : Complaint} {left : List Complaint} {o : Outcome Bench Unit}
    (h : x.Audited kind p) (turn : x.threads[i]? = some (.complaining (c :: left)))
    (tell : Handler.onReporter (Reporter.error c) x.bench = o) :
    ∃ q, ({ x with bench := o.state, log := x.log ++ o.events }.mark i (onward left o.result)
      (.told c)).Audited kind q := by
  have hi := (h.turn i _ rfl).mp turn
  cases p with
  | collected auditor l told left' =>
      cases hi
      obtain ⟨hmissing, hfirst⟩ := h.honest
      have hturn (new : Task) (j : Nat) (task : Task) (haudits : task.audits = true) :
          (x.threads.set i new)[j]? = some task ↔ j = i ∧ new = task :=
        getElem?_set_iff_of_turn turn (h.alone turn rfl) new haudits
      have hrun : (x.history ++ [Milestone.told c]).filter Milestone.ofAudit
          = .begun :: .collected l :: (told ++ [c]).map .told := by
        rw [List.filter_append, h.run, List.map_append]
        rfl
      subst tell
      rw [Bench.onReporter_error, h.reporter]
      cases kind with
      | recording =>
          refine ⟨.collected i l (told ++ [c]) left, h.verified, rfl, fun j task haudits => ?_,
            hrun, ⟨?_, fun hkind => ReporterKind.noConfusion hkind⟩, fun hkind => ?_⟩
          · exact (hturn _ j task haudits).trans (by simp [Phase.turn, onward, eq_comm])
          · rw [List.append_assoc]
            exact hmissing
          · rw [told_mark]
            exact (h.recorded rfl).append (.refl [c])
      | panicking =>
          -- The reporter stops at the first, and the thread with it.
          obtain rfl := hfirst rfl
          refine ⟨.finished l [c], h.verified, h.reporter, fun j task haudits => ?_, hrun, ?_,
            fun hkind => ReporterKind.noConfusion hkind⟩
          · refine (hturn _ j task haudits).trans (iff_of_false ?_ (Option.some_ne_none _).symm)
            rintro ⟨-, rfl⟩
            cases haudits
          · rw [Phase.Honest, ← hmissing]
            rfl
  | _ => cases hi

theorem ended (h : x.Audited kind p) (turn : x.threads[i]? = some (.complaining [])) :
    ∃ q, Audited kind q { x with threads := x.threads.set i .idle } := by
  have hi := (h.turn i _ rfl).mp turn
  cases p with
  | collected auditor l told left' =>
      cases hi
      obtain ⟨hmissing, hfirst⟩ := h.honest
      rw [List.append_nil] at hmissing
      refine ⟨.finished l told, h.verified, h.reporter, fun j task haudits => ?_, h.run, ?_,
        h.recorded⟩
      · rw [getElem?_set_iff_of_turn turn (h.alone turn rfl) _ haudits]
        refine iff_of_false ?_ nofun
        rintro ⟨-, rfl⟩
        cases haudits
      · cases kind with
        | recording => exact hmissing
        | panicking =>
            obtain rfl := hfirst rfl
            rw [Phase.Honest, ← hmissing]
            rfl
  | _ => cases hi

/-- Something happened that verification has not come to. -/
theorem mark (h : x.Audited kind p) (idle : x.threads[i]? = some .idle) (milestone : Milestone)
    (hmilestone : milestone.ofAudit = false) : (x.mark i .idle milestone).Audited kind p := by
  refine h.congr (.refl _) (fun j task haudits => ?_) ?_
  · exact getElem?_set_iff_of_not_audits idle rfl rfl haudits
  · simp [Company.mark, List.filter_append, hmilestone]

theorem verification (h : x.Audited kind p) (hstep : Verification x y) :
    ∃ q, y.Audited kind q := by
  cases hstep with
  | asked idle => exact (h.mark idle .asked rfl).swap (getElem?_set_of_getElem? idle .idle)
  | @dropped i unwinding idle lives =>
      have hgone : Audited kind p { x with bench := { x.bench with dropped := true } } :=
        h.congr ⟨rfl, rfl, rfl, List.prefix_rfl⟩ (fun _ _ _ => Iff.rfl) rfl
      have hmarked := hgone.mark idle (.dropped unwinding) rfl
      dsimp only
      split
      · exact hmarked.swap (getElem?_set_of_getElem? idle .idle)
      · exact ⟨p, hmarked⟩
  | collected turn => exact h.collected turn
  | told turn tell => exact h.told turn tell
  | ended turn => exact h.ended turn

/-- **No step takes verification further than the next phase**, and only a step of verifying takes
it there. -/
theorem step (h : x.Audited kind p) (hstep : Step x y) : ∃ q, y.Audited kind q := by
  cases hstep with
  | acted act idle => exact ⟨p, h.congr (.effect act x.bench) (fun _ _ _ => Iff.rfl) rfl⟩
  | called controller request idle =>
      exact ⟨p, h.congr (.refl _)
        (fun _ _ haudits => getElem?_set_iff_of_not_audits idle rfl rfl haudits) rfl⟩
  | went turn next =>
      exact ⟨p, h.congr (.step next)
        (fun _ _ haudits => getElem?_set_iff_of_not_audits turn rfl rfl haudits) rfl⟩
  | returned turn =>
      exact ⟨p, h.congr (.refl _)
        (fun _ _ haudits => getElem?_set_iff_of_not_audits turn rfl rfl haudits) rfl⟩
  | verified verification => exact h.verification verification

theorem steps (h : x.Audited kind p) (hsteps : Steps x y) : ∃ q, y.Audited kind q :=
  hsteps.invariant (P := fun x => ∃ q, x.Audited kind q) ⟨p, h⟩ fun ⟨_, hq⟩ hstep => hq.step hstep

theorem start (kind : ReporterKind) (config : Config) (controllers counters n : Nat) :
    (start kind config controllers counters n).Audited kind .before := by
  refine ⟨rfl, rfl, fun j task haudits => iff_of_false (fun hj => ?_) nofun, rfl, trivial,
    fun _ => List.nil_sublist _⟩
  obtain rfl := List.eq_of_mem_replicate (List.mem_of_getElem? hj)
  cases haudits

/-! ### What the history tells of it -/

theorem begun_iff (h : x.Audited kind p) : .begun ∈ x.history ↔ x.bench.verified = true := by
  have hrun : .begun ∈ x.history ↔ .begun ∈ p.milestones := by
    rw [← h.run, List.mem_filter]
    exact (and_iff_left rfl).symm
  rw [hrun, h.verified]
  cases p <;> simp [Phase.milestones, Phase.isBegun]

theorem countP_isBegun_le (h : x.Audited kind p) : x.history.countP Milestone.isBegun ≤ 1 := by
  have hrun : x.history.countP Milestone.isBegun = p.milestones.countP Milestone.isBegun := by
    rw [← h.run, List.countP_filter]
    refine List.countP_congr fun m _ => ?_
    cases m <;> simp [Milestone.isBegun, Milestone.ofAudit]
  have honce (l : Ledger) (told : List Complaint) :
      (.begun :: .collected l :: told.map .told : List Milestone).countP Milestone.isBegun = 1 := by
    have hnone : (told.map Milestone.told).countP Milestone.isBegun = 0 :=
      List.countP_eq_zero.mpr fun m hm => by
        obtain ⟨c, -, rfl⟩ := List.mem_map.mp hm
        exact Bool.false_ne_true
    rw [List.countP_cons, List.countP_cons, hnone]
    rfl
  rw [hrun]
  cases p with
  | before => exact Nat.zero_le 1
  | begun auditor => exact Nat.le_refl 1
  | collected auditor l told left => exact Nat.le_of_eq (honce l told)
  | finished l told => exact Nat.le_of_eq (honce l told)

theorem told_eq (h : x.Audited kind p) : x.told = p.told := by
  have htold (told : List Complaint) :
      (told.map Milestone.told).filterMap Milestone.told? = told := by
    rw [List.filterMap_map]
    exact List.filterMap_some
  rw [told_eq_filterMap_filter, h.run]
  cases p with
  | before => rfl
  | begun auditor => rfl
  | collected auditor l told left => exact htold told
  | finished l told => exact htold told

end Audited

/-! ### What it was begun for -/

theorem verified_swap (x : Company) (i : Nat) : (x.swap i).bench.verified = true := by
  unfold swap
  split
  · assumption
  · rfl

theorem config_swap (x : Company) (i : Nat) :
    (x.swap i).bench.config = x.bench.config := by
  unfold swap
  split <;> rfl

theorem mem_history_swap {milestone : Milestone} (h : milestone ∈ x.history) (i : Nat) :
    milestone ∈ (x.swap i).history := by
  unfold swap
  split
  · exact h
  · exact List.mem_append_left _ h

theorem mem_history_mark (x : Company) (i : Nat) (task : Task) (milestone : Milestone) :
    milestone ∈ (x.mark i task milestone).history :=
  List.mem_append_right _ (List.mem_singleton_self _)

namespace Prompted

/-- Where nothing asked for it and the flag is as it was. -/
theorem congr (h : x.Prompted config) (hconfig : y.bench.config = x.bench.config)
    (hverified : y.bench.verified = x.bench.verified)
    (hhistory : ∀ milestone : Milestone, milestone.ofAudit = false →
      (milestone ∈ y.history ↔ milestone ∈ x.history)) : y.Prompted config := by
  refine ⟨hconfig.trans h.configured, ?_⟩
  rw [hverified, hhistory .asked rfl, hhistory (.dropped false) rfl]
  exact h.verified

theorem aside (h : x.Prompted config) (haside : x.bench.Aside y.bench)
    (hhistory : y.history = x.history) : y.Prompted config :=
  h.congr haside.config haside.verified fun _ _ => iff_of_eq (congrArg _ hhistory)

/-- What happens after it was begun asks for nothing. -/
theorem ofAudit (h : x.Prompted config) (haside : x.bench.Aside y.bench) {milestone : Milestone}
    (hmilestone : milestone.ofAudit = true) (hhistory : y.history = x.history ++ [milestone]) :
    y.Prompted config := by
  refine h.congr haside.config haside.verified fun other hother => ?_
  rw [hhistory, List.mem_append, List.mem_singleton]
  refine or_iff_left ?_
  rintro rfl
  exact Bool.noConfusion (hother.symm.trans hmilestone)

theorem verification (h : x.Prompted config) (hstep : Verification x y) : y.Prompted config := by
  cases hstep with
  | asked idle =>
      exact ⟨(config_swap _ _).trans h.configured,
        iff_of_true (verified_swap _ _) (.inl (mem_history_swap (mem_history_mark ..) _))⟩
  | @dropped i unwinding idle lives =>
      have hconfig := h.configured
      subst hconfig
      let gone := { x with bench := { x.bench with dropped := true } }.mark i .idle
        (.dropped unwinding)
      show Prompted x.bench.config
        (if x.bench.config.verifyOnDrop && !unwinding then gone.swap i else gone)
      split
      · rename_i hverify
        obtain ⟨hchoice, hwinding⟩ := Bool.and_eq_true_iff.mp hverify
        obtain rfl : unwinding = false := by simpa using hwinding
        exact ⟨config_swap _ _, iff_of_true (verified_swap _ _)
          (.inr ⟨hchoice, mem_history_swap (mem_history_mark ..) _⟩)⟩
      · -- Either a panic unwinds, or nobody wants a drop to verify.
        rename_i hverify
        refine ⟨rfl, h.verified.trans ?_⟩
        cases unwinding with
        | true => simp [gone, mark]
        | false =>
            have hchoice : x.bench.config.verifyOnDrop = false := by simpa using hverify
            simp [gone, mark, hchoice]
  | collected turn => exact h.ofAudit (.refl _) rfl rfl
  | told turn tell =>
      subst tell
      exact h.ofAudit (.error _ x.bench) rfl rfl
  | ended turn => exact h.aside (.refl _) rfl

theorem step (h : x.Prompted config) (hstep : Step x y) : y.Prompted config := by
  cases hstep with
  | acted act idle => exact h.aside (.effect act x.bench) rfl
  | called controller request idle => exact h.aside (.refl _) rfl
  | went turn next => exact h.aside (.step next) rfl
  | returned turn => exact h.aside (.refl _) rfl
  | verified verification => exact h.verification verification

theorem steps (h : x.Prompted config) (hsteps : Steps x y) : y.Prompted config :=
  hsteps.invariant h Prompted.step

theorem start (kind : ReporterKind) (config : Config) (controllers counters n : Nat) :
    (start kind config controllers counters n).Prompted config := by
  refine ⟨rfl, iff_of_false Bool.false_ne_true ?_⟩
  rintro (hasked | ⟨-, hdropped⟩)
  · exact absurd hasked List.not_mem_nil
  · exact absurd hdropped List.not_mem_nil

end Prompted

/-! ### What was missing -/

/-- What is collected is what the handler's controller expects while a thread is to look it up. -/
theorem mem_of_collected {l : Ledger} (hstep : Step x y) (hmem : .collected l ∈ y.history) :
    .collected l ∈ x.history ∨
      .verifying ∈ x.threads ∧ x.bench.collaborator.ledger 0 = l := by
  have happend {history : List Milestone} (milestone : Milestone) (hne : milestone ≠ .collected l)
      (hmem : .collected l ∈ history ++ [milestone]) : .collected l ∈ history :=
    (List.mem_append.mp hmem).resolve_right fun hlast => hne (List.mem_singleton.mp hlast).symm
  have hswap {x : Company} {i : Nat} (hmem : .collected l ∈ (x.swap i).history) :
      .collected l ∈ x.history := by
    unfold swap at hmem
    split at hmem
    · exact hmem
    · exact happend .begun nofun hmem
  cases hstep with
  | verified verification =>
      cases verification with
      | asked idle => exact .inl (happend .asked nofun (hswap hmem))
      | dropped unwinding idle lives =>
          dsimp only at hmem
          split at hmem
          · exact .inl (happend (.dropped unwinding) nofun (hswap hmem))
          · exact .inl (happend (.dropped unwinding) nofun hmem)
      | collected turn =>
          rcases List.mem_append.mp hmem with hmem | hmem
          · exact .inl hmem
          · cases List.mem_singleton.mp hmem
            exact .inr ⟨List.mem_of_getElem? turn, rfl⟩
      | told turn tell => exact .inl (happend (.told _) nofun hmem)
      | ended turn => exact .inl hmem
  | _ => exact .inl hmem

/-- So there was such a moment. -/
theorem exists_of_collected {s : Company} {l : Ledger} (hsteps : Steps s x)
    (hfirst : .collected l ∉ s.history) (hmem : .collected l ∈ x.history) :
    ∃ y, Steps s y ∧ Steps y x ∧ .verifying ∈ y.threads ∧ y.bench.collaborator.ledger 0 = l := by
  induction hsteps with
  | refl => exact absurd hmem hfirst
  | tail hbefore hstep ih =>
      rcases mem_of_collected hstep hmem with hmem | ⟨hverifying, hledger⟩
      · obtain ⟨y, hy, hlater, hrest⟩ := ih hmem
        exact ⟨y, hy, hlater.tail hstep, hrest⟩
      · exact ⟨_, hbefore, .single hstep, hverifying, hledger⟩

/-- Verification was not begun, or it is still to be looked up what is missing, or the reporter was
told of what was missing then, and of all it is to be told of once nobody verifies any more. -/
theorem Audited.told_cases (h : x.Audited kind p) :
    .begun ∉ x.history ∧ x.told = [] ∨ .verifying ∈ x.threads ∧ x.told = [] ∨
      ∃ l, .collected l ∈ x.history ∧ x.told <+: kind.due l.missing ∧
        ((∀ task ∈ x.threads, task.audits = false) → x.told = kind.due l.missing) := by
  have htold := h.told_eq
  have hcollected {l : Ledger} (hmem : .collected l ∈ p.milestones) : .collected l ∈ x.history := by
    rw [← h.run] at hmem
    exact (List.mem_filter.mp hmem).1
  cases p with
  | before =>
      refine .inl ⟨?_, htold⟩
      rw [h.begun_iff, h.verified]
      exact Bool.false_ne_true
  | begun auditor =>
      have hturn := (h.turn auditor .verifying rfl).mpr rfl
      exact .inr (.inl ⟨List.mem_of_getElem? hturn, htold⟩)
  | collected auditor l told left =>
      have hturn := (h.turn auditor (.complaining left) rfl).mpr rfl
      obtain ⟨hmissing, hfirst⟩ := h.honest
      refine .inr (.inr ⟨l, hcollected (by simp [Phase.milestones]), ?_, fun hover => ?_⟩)
      · rw [htold]
        cases kind with
        | recording => exact ⟨left, hmissing⟩
        | panicking =>
            rw [hfirst rfl]
            exact List.nil_prefix
      · cases hover _ (List.mem_of_getElem? hturn)
  | finished l told =>
      have hdue : x.told = kind.due l.missing := htold.trans h.honest
      exact .inr (.inr ⟨l, hcollected (by simp [Phase.milestones]), hdue ▸ List.prefix_rfl,
        fun _ => hdue⟩)

/-- **Verification happens once.**

Whatever any number of threads do with a handler, and wherever they verify and drop it in the
meantime: the collaborator is told to verify at most once, and it is exactly if the handler was
asked to, or was dropped in the ordinary course where that is to verify.  What the reporter is told
is what was missing at one moment since then: in the order of declaration, all of it if it records
and the first of it if it panics.  It is told of nothing else, whoever asks again.  If it records,
all of it is among what it recorded.  And no step of it changes an expectation.

The steps are those of `Handler.finish` and `Handler.drop`: a thread that is left alone does in
steps what the two do in one go, and adds to the history what they come to
(`Bench.audit`, `Bench.parting`). -/
theorem verified_once {controllers counters n : Nat}
    (h : Steps (start kind config controllers counters n) x) :
    let due (y : Company) : List Complaint := kind.due <|
      ((y.bench.collaborator.ledger 0).calls.filter fun e => e.invoked < e.times).map fun e =>
        .missingCalls e.call e.times e.invoked
    x.history.countP Milestone.isBegun ≤ 1 ∧
    (.begun ∈ x.history ↔ .asked ∈ x.history ∨
      config.verifyOnDrop = true ∧ .dropped false ∈ x.history) ∧
    (.begun ∉ x.history → x.told = []) ∧
    (.begun ∈ x.history →
      x.told = [] ∧ .verifying ∈ x.threads ∨
      ∃ y, Steps (start kind config controllers counters n) y ∧ Steps y x ∧
        .verifying ∈ y.threads ∧ x.told <+: due y ∧
        ((∀ task ∈ x.threads, task.audits = false) → x.told = due y)) ∧
    (kind = .recording → x.told.Sublist x.bench.reporter.failures) ∧
    (∀ y, Verification x y → y.bench.collaborator = x.bench.collaborator) ∧
    ∀ i : Nat, x.threads[i]? = some .idle →
      (let o := Handler.finish x.bench
       Steps x ⟨o.state, x.threads, x.log ++ o.events, x.history ++ .asked :: x.bench.audit⟩) ∧
      ∀ unwinding,
        let o : Outcome Bench Unit := Handler.drop unwinding x.bench
        Steps x ⟨o.state, x.threads, x.log ++ o.events,
          x.history ++ x.bench.parting unwinding⟩ := by
  intro due
  obtain ⟨p, haudited⟩ := (Audited.start kind config controllers counters n).steps h
  have hprompted := (Prompted.start kind config controllers counters n).steps h
  have hcases := haudited.told_cases
  refine ⟨haudited.countP_isBegun_le, haudited.begun_iff.trans hprompted.verified,
    fun hbefore => ?_, fun hbegun => ?_, haudited.recorded, fun y hstep => hstep.collaborator_eq,
    fun i idle => ⟨steps_finish idle x.bench x.log x.history,
      fun unwinding => steps_drop idle unwinding x.bench x.log x.history⟩⟩
  · rw [haudited.begun_iff, haudited.verified] at hbefore
    rw [haudited.told_eq]
    cases p with
    | before => rfl
    | _ => exact absurd rfl hbefore
  · rcases hcases with ⟨hbefore, -⟩ | ⟨hverifying, htold⟩ | ⟨l, hcollected, hprefix, hover⟩
    · exact absurd hbegun hbefore
    · exact .inl ⟨htold, hverifying⟩
    · obtain ⟨y, hy, hlater, hverifying, rfl⟩ :=
        exists_of_collected h List.not_mem_nil hcollected
      rw [Ledger.missing_eq] at hprefix hover
      exact .inr ⟨y, hy, hlater, hverifying, hprefix, hover⟩

/-- A handler that expects a knock and a ring. -/
def doorAndBell : Ledger where
  calls := [{ call := ⟨"door", "knock", []⟩ }, { call := ⟨"bell", "ring", []⟩ }]

/-- Two threads verify with a reporter that panics, where a knock and a ring are missing.  The first
is stopped by the knock; the second, and dropping the handler, come too late to complain of the
ring. -/
theorem stopped_at_first : ∃ x, Steps (start .panicking {} 1 0 2) x ∧
    x.history = [.asked, .begun, .collected doorAndBell, .asked,
      .told (.missingCalls ⟨"door", "knock", []⟩ 1 0), .dropped false] ∧
    doorAndBell.missing.length = 2 ∧ x.history.countP Milestone.isBegun ≤ 1 ∧
    ∃ y, Steps (start .panicking {} 1 0 2) y ∧ Steps y x ∧
      x.told = ReporterKind.panicking.due
        (((y.bench.collaborator.ledger 0).calls.filter fun e => e.invoked < e.times).map fun e =>
          .missingCalls e.call e.times e.invoked) := by
  have hknock : Steps (start .panicking {} 1 0 2) _ :=
    .single (.acted (i := 0) (.declare 0 ⟨"door", "knock", []⟩) rfl)
  have hring := hknock.tail (.acted (i := 1) (.declare 0 ⟨"bell", "ring", []⟩) rfl)
  have hasked := hring.tail (.verified (.asked (i := 0) rfl))
  have hcollected := hasked.tail (.verified (.collected (i := 0) rfl))
  have hagain := hcollected.tail (.verified (.asked (i := 1) rfl))
  have hstopped := hagain.tail (.verified (.told (i := 0) rfl rfl))
  have hdropped := hstopped.tail (.verified (.dropped (i := 1) false rfl rfl))
  obtain ⟨x, hsteps, hhistory, hthreads⟩ : ∃ x, Steps (start .panicking {} 1 0 2) x ∧
      x.history = [.asked, .begun, .collected doorAndBell, .asked,
        .told (.missingCalls ⟨"door", "knock", []⟩ 1 0), .dropped false] ∧
      x.threads = [.idle, .idle] := ⟨_, hdropped, rfl, rfl⟩
  obtain ⟨honce, hbegun, -, htold, -⟩ := verified_once hsteps
  have hidle : ∀ task ∈ x.threads, task.audits = false := by
    rw [hthreads]
    simp [Task.audits]
  rcases htold (hbegun.mpr (.inl (by simp [hhistory]))) with ⟨-, hverifying⟩ | ⟨y, hy, hlater, -, -,
    hover⟩
  · cases hidle _ hverifying
  · exact ⟨x, hsteps, hhistory, rfl, honce, y, hy, hlater, hover hidle⟩

end Company

end CallOrder
