/-
Threads around one count of completions.

Threads declare completions, signal them, run hooks and wait, each doing one job after
another.  What a job does while it holds the lock of the count is one step, and no other
thread comes between; besides, it touches nothing that is shared.  A thread that waits
looks at the count while it holds the lock.  If completions are outstanding it goes to
sleep in the same step, and when it wakes it looks again.  The signal that takes the last
completion wakes all who sleep, and a thread may also wake for no reason.

The count is kept by every job on its own, so it adds up however the jobs are woven into
one another, as long as a word holds it.  Which of the signals find nothing outstanding depends
on the order, but not how many: as many as there are more signals than completions
(`outstanding_accounted`).

Nobody sleeps on a count that is drained, but for one thing (`sleeper_has_outstanding`).  Who
goes to sleep does so with completions outstanding, and of the signals, which make the count
smaller, the one that drains it leaves nobody asleep.  A release build makes the count smaller
also where a sum is more than a word holds.  If that leaves nothing outstanding, nobody is woken,
and whoever slept sleeps on.
-/
import CallOrder.Completion
import Mathlib.Algebra.GroupWithZero.Nat
import Mathlib.Logic.Relation
import Mathlib.Data.List.Perm.Basic

namespace CallOrder

/-- What a thread does with a count. -/
inductive Job where
  | expect (n : Nat) (overflow : Overflow := .wraps)
  | signal
  | invoke (hook : CompletionHook) (given : Nat)
  | wait
deriving DecidableEq

namespace Job

/-- What it does to the count. -/
def act : Job → Attempt Completion Unit
  | expect n overflow => do
    let _ ← Completion.expect n overflow
    return ()
  | signal => Completion.signal
  | invoke hook given => hook.invoke given
  | wait => return ()

/-- Whether it can be done as the count is.  Who waits has to wait until it is drained. -/
def due : Job → Completion → Bool
  | wait, c => c.isDrained
  | _, _ => true

/-- How many completions it is to declare. -/
def added : Job → Nat
  | expect n _ => n
  | _ => 0

/-- Whether it makes a sum that is more than a word holds, so that only the remainder is kept. -/
def wraps : Job → Completion → Bool
  | expect n .wraps, c => !decide (c.Fits n)
  | _, _ => false

/-- Whether it comes to a signal: a hook gives up before that on arguments it does not take. -/
def signals : Job → Bool
  | signal => true
  | invoke hook given => hook.arity.accepts given
  | _ => false

end Job

/-- A job that a thread has done, the count that it found, and what came of it. -/
structure Deed where
  thread : Nat
  job : Job
  found : Completion
  result : Except Failure Unit

namespace Deed

/-- How many completions it declared: none if it panicked. -/
def added (d : Deed) : Nat :=
  match d.result with
  | .ok () => d.job.added
  | .error _ => 0

theorem added_le (d : Deed) : d.added ≤ d.job.added := by
  unfold added
  split
  · exact Nat.le_refl _
  · exact Nat.zero_le _

/-- Whether some of what it declared was lost, since a word did not hold it. -/
def wrapped (d : Deed) : Bool :=
  d.job.wraps d.found

/-- Whether it was to signal, and found nothing outstanding. -/
def overdrew (d : Deed) : Bool :=
  match d.result with
  | .error (.panic .negativeCount) => true
  | _ => false

/-- Whether it took a completion from those outstanding. -/
def signalled (d : Deed) : Bool :=
  d.job.signals && !d.overdrew

end Deed

/-- A thread: what it still has to do, and whether it sleeps meanwhile. -/
structure Attendant where
  jobs : List Job
  asleep : Bool := false
deriving DecidableEq

/-- A thread that does not sleep any more. -/
def Attendant.awake (a : Attendant) : Attendant :=
  { a with asleep := false }

/-- A count, the threads around it, and what they have done, in order. -/
structure Gathering where
  completion : Completion
  attendants : List Attendant
  deeds : List Deed := []

namespace Job

/-- What a thread has done once it did the job. -/
def deed (job : Job) (thread : Nat) (c : Completion) : Deed :=
  ⟨thread, job, c, (job.act c).result⟩

/-! ### What a job does to the count -/

variable {job : Job} {c : Completion}

/-- More completions are declared where the build wraps, or where a word holds the sum. -/
theorem act_expect {n : Nat} {overflow : Overflow} (h : overflow = .wraps ∨ c.Fits n) :
    (expect n overflow).act c
      = ⟨.ok (), c.plus n, [.expecting n (c.plus n).outstanding]⟩ := by
  simp only [act, Attempt.bind_apply, Completion.expect_eq h]
  rfl

/-- Else it panics, and the count is as it was. -/
theorem act_expect_of_not_fits {n : Nat} (h : ¬ c.Fits n) :
    (expect n .panics).act c = ⟨.error (.panic .overflow), c, []⟩ := by
  simp only [act, Attempt.bind_apply, Completion.expect_of_not_fits h]

/-- A hook does not touch the count where it does not take the arguments. -/
theorem act_refused {hook : CompletionHook} {given : Nat}
    (h : hook.arity.accepts given = false) (c : Completion) :
    (invoke hook given).act c = ⟨.error (.panic (.arityMismatch hook.arity given)), c, []⟩ := by
  rw [act, CompletionHook.invoke, if_neg (by rw [h]; exact Bool.false_ne_true)]
  rfl

/-- Where it does, it signals before anything else. -/
theorem act_accepted {hook : CompletionHook} {given : Nat}
    (h : hook.arity.accepts given = true) (n : Nat) :
    (invoke hook given).act ⟨0⟩ = ⟨.error (.panic .negativeCount), ⟨0⟩, []⟩ ∧
    ((invoke hook given).act ⟨n + 1⟩).state = ⟨n⟩ ∧
    ((invoke hook given).act ⟨n + 1⟩).result
      = hook.reason.elim (.ok ()) fun text => .error (.panic (.reason text)) := by
  rw [act, CompletionHook.invoke, if_pos h]
  refine ⟨rfl, ?_⟩
  cases hook.reason with
  | none => exact ⟨rfl, rfl⟩
  | some text => exact ⟨rfl, rfl⟩

/-- Where nothing is lost, a word holds the sum that is made. -/
theorem fits_of_wraps {n : Nat} {overflow : Overflow}
    (h : (expect n overflow).wraps c = false) (hmade : overflow = .wraps ∨ c.Fits n) :
    c.Fits n := by
  rcases hmade with rfl | hfits
  · simpa [wraps] using h
  · exact hfits

/-- What is declared is added, and a signal takes a completion if one is outstanding. -/
theorem state_act (i : Nat) (h : job.wraps c = false) :
    (job.act c).state = ⟨c.outstanding + (job.deed i c).added - job.signals.toNat⟩ := by
  obtain ⟨n⟩ := c
  cases job with
  | expect k overflow =>
      rcases Completion.wraps_or_fits_or overflow ⟨n⟩ k with hmade | ⟨rfl, hexceeds⟩
      · rw [Deed.added, deed, act_expect hmade, Completion.plus_of_fits (fits_of_wraps h hmade)]
        rfl
      · rw [Deed.added, deed, act_expect_of_not_fits hexceeds]
        rfl
  | wait => rfl
  | signal => cases n <;> rfl
  | invoke hook given =>
      cases haccepts : hook.arity.accepts given with
      | false => rw [Deed.added, deed, act_refused haccepts, signals, haccepts]; rfl
      | true =>
          rw [signals, haccepts, Deed.added, deed]
          cases n with
          | zero => rw [(act_accepted haccepts 0).1]; rfl
          | succ n =>
              rw [(act_accepted haccepts n).2.1, (act_accepted haccepts n).2.2]
              cases hook.reason <;> rfl

/-- It is only a signal that can find nothing outstanding. -/
theorem overdrew_deed (job : Job) (i : Nat) (c : Completion) :
    (job.deed i c).overdrew = (job.signals && c.isDrained) := by
  obtain ⟨n⟩ := c
  cases job with
  | expect k overflow =>
      rcases Completion.wraps_or_fits_or overflow ⟨n⟩ k with hmade | ⟨rfl, hexceeds⟩
      · rw [deed, act_expect hmade]
        rfl
      · rw [deed, act_expect_of_not_fits hexceeds]
        rfl
  | wait => rfl
  | signal => cases n <;> rfl
  | invoke hook given =>
      cases h : hook.arity.accepts given with
      | false => rw [deed, act_refused h, signals, h]; rfl
      | true =>
          rw [signals, h, deed]
          cases n with
          | zero => rw [(act_accepted h 0).1]; rfl
          | succ n =>
              rw [(act_accepted h n).2.2]
              cases hook.reason <;> rfl

/-- What signals declares nothing. -/
theorem added_of_signals (h : job.signals = true) (i : Nat) (c : Completion) :
    (job.deed i c).added = 0 ∧ job.wraps c = false := by
  cases job with
  | expect n overflow => exact Bool.noConfusion h
  | _ => exact ⟨Nat.eq_zero_of_le_zero (Deed.added_le _), rfl⟩

/-- Nothing is lost where nothing is declared. -/
theorem wraps_of_added_eq_zero (hc : c.outstanding < UInt64.size) {i : Nat}
    (h : (job.deed i c).added = 0) : job.wraps c = false := by
  cases job with
  | expect n overflow =>
      cases overflow with
      | panics => rfl
      | wraps =>
          rw [Deed.added, deed, act_expect (.inl rfl)] at h
          obtain rfl : n = 0 := h
          simpa [wraps, Completion.Fits] using hc
  | _ => rfl

/-- Only a declaration makes the count greater. -/
theorem outstanding_act_le (hwraps : job.wraps c = false) (hnone : job.added = 0) :
    (job.act c).state.outstanding ≤ c.outstanding := by
  have hadded : (job.deed 0 c).added = 0 := Nat.eq_zero_of_le_zero (hnone ▸ Deed.added_le _)
  rw [state_act 0 hwraps, hadded]
  exact Nat.sub_le _ _

/-- The count stays a word. -/
theorem outstanding_act_lt (hc : c.outstanding < UInt64.size) (job : Job) :
    (job.act c).state.outstanding < UInt64.size := by
  cases job with
  | expect n overflow =>
      rcases Completion.wraps_or_fits_or overflow c n with hmade | ⟨rfl, hexceeds⟩
      · rw [act_expect hmade]
        exact c.outstanding_plus_lt n
      · rw [act_expect_of_not_fits hexceeds]
        exact hc
  | wait => exact hc
  | _ => exact Nat.lt_of_le_of_lt (outstanding_act_le rfl rfl) hc

/-- Signalling at zero changes nothing. -/
theorem act_of_signals_zero (h : job.signals = true) :
    (job.act ⟨0⟩).result = .error (.panic .negativeCount) ∧ (job.act ⟨0⟩).state = ⟨0⟩ := by
  cases job with
  | expect n overflow => exact Bool.noConfusion h
  | wait => exact Bool.noConfusion h
  | signal => exact ⟨rfl, rfl⟩
  | invoke hook given =>
      rw [(act_accepted h 0).1]
      exact ⟨rfl, rfl⟩

end Job

namespace Gathering

/-- The gathering of threads that are to do these jobs. -/
def start (c : Completion) (programs : List (List Job)) : Gathering where
  completion := c
  attendants := programs.map fun jobs => { jobs }

/-- The threads once a job was done: when a signal drains the count, all who sleep are woken. -/
def roused (job : Job) (before after : Completion) (attendants : List Attendant) :
    List Attendant :=
  if job.signals && !before.isDrained && after.isDrained then attendants.map Attendant.awake
  else attendants

/-- A thread does a job, and goes on to the rest of its jobs. -/
def doing (x : Gathering) (i : Nat) (job : Job) (rest : List Job) : Gathering where
  completion := (job.act x.completion).state
  attendants := roused job x.completion (job.act x.completion).state
    (x.attendants.set i { jobs := rest })
  deeds := x.deeds ++ [job.deed i x.completion]

/-- What a thread does without another coming in between. -/
inductive Step : Gathering → Gathering → Prop where
  /-- It does its next job. -/
  | done {x : Gathering} {i : Nat} {job : Job} {rest : List Job}
      (turn : x.attendants[i]? = some ⟨job :: rest, false⟩) (due : job.due x.completion = true) :
      Step x (x.doing i job rest)
  /-- It has to wait before its next job, and goes to sleep. -/
  | parked {x : Gathering} {i : Nat} {job : Job} {rest : List Job}
      (turn : x.attendants[i]? = some ⟨job :: rest, false⟩) (due : job.due x.completion = false) :
      Step x { x with attendants := x.attendants.set i ⟨job :: rest, true⟩ }
  /-- It wakes though nobody woke it. -/
  | woke {x : Gathering} {i : Nat} {jobs : List Job}
      (asleep : x.attendants[i]? = some ⟨jobs, true⟩) :
      Step x { x with attendants := x.attendants.set i ⟨jobs, false⟩ }

/-- What any number of steps lead to. -/
def Steps : Gathering → Gathering → Prop :=
  Relation.ReflTransGen Step

/-- What is still to be done. -/
def left (x : Gathering) : List Job :=
  x.attendants.flatMap (·.jobs)

/-- How many completions these jobs declared. -/
def declared (deeds : List Deed) : Nat :=
  (deeds.map Deed.added).sum

/-- How many of them came to a signal. -/
def attempts (deeds : List Deed) : Nat :=
  deeds.countP (·.job.signals)

/-- How many took a completion. -/
def signals (deeds : List Deed) : Nat :=
  deeds.countP Deed.signalled

/-- How many found nothing outstanding. -/
def overdrafts (deeds : List Deed) : Nat :=
  deeds.countP Deed.overdrew

/-- A job more counts for what it is. -/
theorem counts_concat (deeds : List Deed) (job : Job) (i : Nat) (c : Completion) :
    declared (deeds ++ [job.deed i c]) = declared deeds + (job.deed i c).added ∧
    attempts (deeds ++ [job.deed i c]) = attempts deeds + job.signals.toNat ∧
    signals (deeds ++ [job.deed i c])
      = signals deeds + (job.signals && !c.isDrained).toNat ∧
    overdrafts (deeds ++ [job.deed i c])
      = overdrafts deeds + (job.signals && c.isDrained).toNat := by
  have hoverdrew := job.overdrew_deed i c
  have hsignalled : (job.deed i c).signalled = (job.signals && !c.isDrained) := by
    rw [Deed.signalled, hoverdrew]
    cases h : job.signals <;> simp [Job.deed, h]
  refine ⟨?_, ?_, ?_, ?_⟩
  · simp [declared]
  · cases h : job.signals <;> simp [attempts, Job.deed, h]
  · cases h : (job.signals && !c.isDrained) <;> simp [signals, hsignalled, h]
  · cases h : (job.signals && c.isDrained) <;> simp [overdrafts, hoverdrew, h]

variable {x y z : Gathering} {i : Nat} {job : Job} {rest : List Job} {later : List Deed}

/-! ### What is still to be done -/

theorem flatMap_jobs_roused (job : Job) (before after : Completion)
    (attendants : List Attendant) :
    (roused job before after attendants).flatMap (·.jobs) = attendants.flatMap (·.jobs) := by
  unfold roused
  split
  · rw [List.flatMap_map]
    rfl
  · rfl

/-- Only the jobs of the thread itself are others then. -/
theorem flatMap_jobs_set {attendants : List Attendant} {a : Attendant}
    (h : attendants[i]? = some a) (b : Attendant) :
    ∃ early late, attendants.flatMap (·.jobs) = early ++ a.jobs ++ late ∧
      (attendants.set i b).flatMap (·.jobs) = early ++ b.jobs ++ late := by
  obtain ⟨hi, rfl⟩ := List.getElem?_eq_some_iff.mp h
  obtain ⟨early, late, hbefore, -, hafter⟩ :
      ∃ early late, attendants = early ++ attendants[i] :: late ∧
        early.length = i ∧ attendants.set i b = early ++ b :: late := List.exists_of_set hi
  refine ⟨early.flatMap (·.jobs), late.flatMap (·.jobs), ?_, ?_⟩
  · conv_lhs => rw [hbefore]
    simp
  · simp [hafter]

/-- A job that is done is to be done no more. -/
theorem left_doing (turn : x.attendants[i]? = some ⟨job :: rest, false⟩) :
    (job :: (x.doing i job rest).left).Perm x.left := by
  obtain ⟨early, late, hbefore, hafter⟩ := flatMap_jobs_set turn { jobs := rest }
  rw [left, left, doing, flatMap_jobs_roused, hafter, hbefore]
  simpa using List.perm_middle.symm

theorem left_set {a : Attendant} (h : x.attendants[i]? = some a) (asleep : Bool) :
    left { x with attendants := x.attendants.set i ⟨a.jobs, asleep⟩ } = x.left := by
  obtain ⟨early, late, hbefore, hafter⟩ := flatMap_jobs_set h ⟨a.jobs, asleep⟩
  rw [left, left, hafter, hbefore]

/-! ### The balance of the count -/

/-- What was done between one gathering and another adds up, unless a word did not hold it.  Where
it declared nothing, as many signals found something outstanding as there was. -/
structure Since (x y : Gathering) (later : List Deed) : Prop where
  deeds : y.deeds = x.deeds ++ later
  /-- What was done and what is left is what was to be done. -/
  jobs : (later.map (·.job) ++ y.left).Perm x.left
  word : y.completion.outstanding < UInt64.size
  balance : (∀ d ∈ later, d.wrapped = false) →
    y.completion.outstanding + signals later = x.completion.outstanding + declared later
  /-- Nothing was lost of what declared nothing. -/
  held : declared later = 0 → ∀ d ∈ later, d.wrapped = false
  saturated : declared later = 0 →
    signals later = min (attempts later) x.completion.outstanding ∧
      overdrafts later = attempts later - min (attempts later) x.completion.outstanding

namespace Since

theorem refl (hx : x.completion.outstanding < UInt64.size) : Since x x [] :=
  ⟨(List.append_nil _).symm, .refl _, hx, fun _ => rfl, fun _ => List.forall_mem_nil _,
    fun _ => ⟨(Nat.zero_min _).symm, rfl⟩⟩

/-- Where no job was done, nothing is to be added. -/
theorem congr (h : Since x y later) (hcompletion : z.completion = y.completion)
    (hdeeds : z.deeds = y.deeds) (hleft : z.left = y.left) : Since x z later :=
  ⟨hdeeds.trans h.deeds, hleft ▸ h.jobs, hcompletion ▸ h.word, hcompletion ▸ h.balance, h.held,
    h.saturated⟩

/-- A job more. -/
theorem doing (h : Since x y later) (turn : y.attendants[i]? = some ⟨job :: rest, false⟩) :
    Since x (y.doing i job rest) (later ++ [job.deed i y.completion]) := by
  obtain ⟨hdeclared, hattempts, hsignals, hoverdrafts⟩ :=
    counts_concat later job i y.completion
  have hstate (hwraps : job.wraps y.completion = false) :
      (y.doing i job rest).completion.outstanding = y.completion.outstanding
        + (job.deed i y.completion).added - job.signals.toNat :=
    congrArg Completion.outstanding (job.state_act i hwraps)
  have hdeeds : (y.doing i job rest).deeds = x.deeds ++ (later ++ [job.deed i y.completion]) := by
    rw [Gathering.doing, h.deeds, List.append_assoc]
  have hjobs : ((later ++ [job.deed i y.completion]).map (·.job)
      ++ (y.doing i job rest).left).Perm x.left := by
    have hown : (later.map (·.job) ++ (job :: (y.doing i job rest).left)).Perm x.left :=
      ((left_doing turn).append_left _).trans h.jobs
    simpa [Job.deed] using hown
  have hword : (y.doing i job rest).completion.outstanding < UInt64.size :=
    Job.outstanding_act_lt h.word job
  have hwrapped : (∀ d ∈ later ++ [job.deed i y.completion], d.wrapped = false) ↔
      (∀ d ∈ later, d.wrapped = false) ∧ job.wraps y.completion = false := by
    rw [List.forall_mem_append, List.forall_mem_singleton]
    rfl
  have hheld : declared (later ++ [job.deed i y.completion]) = 0 →
      ∀ d ∈ later ++ [job.deed i y.completion], d.wrapped = false := by
    intro hnone
    rw [hdeclared, Nat.add_eq_zero_iff] at hnone
    exact hwrapped.mpr ⟨h.held hnone.1, Job.wraps_of_added_eq_zero h.word hnone.2⟩
  have hbalance (hnone : declared later = 0) :
      y.completion.outstanding + Gathering.signals later = x.completion.outstanding := by
    rw [h.balance (h.held hnone), hnone, Nat.add_zero]
  cases hs : job.signals with
  | false =>
      simp only [hs, Bool.false_and, Bool.toNat_false, Nat.add_zero, Nat.sub_zero]
        at hattempts hsignals hoverdrafts hstate
      refine ⟨hdeeds, hjobs, hword, fun hfits => ?_, hheld, fun hnone => ?_⟩
      · obtain ⟨hlater, hown⟩ := hwrapped.mp hfits
        have hpast := h.balance hlater
        have hnow := hstate hown
        omega
      · rw [hsignals, hattempts, hoverdrafts]
        exact h.saturated (by omega)
  | true =>
      obtain ⟨hadded, hheldOwn⟩ := job.added_of_signals hs i y.completion
      have hnow := hstate hheldOwn
      -- Whether this one finds something outstanding is what the counts differ in.
      cases hd : y.completion.isDrained with
      | false =>
          have hpos : y.completion.outstanding ≠ 0 := of_decide_eq_false hd
          simp only [hs, hd, hadded, Bool.and_false, Bool.not_false, Bool.and_true,
            Bool.toNat_true, Bool.toNat_false, Nat.add_zero]
            at hdeclared hattempts hsignals hoverdrafts hnow
          refine ⟨hdeeds, hjobs, hword, fun hfits => ?_, hheld, fun hnone => ?_⟩
          · have hpast := h.balance (hwrapped.mp hfits).1
            omega
          · have hpast := hbalance (by omega)
            have hcounts := h.saturated (by omega)
            omega
      | true =>
          have hzero : y.completion.outstanding = 0 := of_decide_eq_true hd
          simp only [hs, hd, hadded, Bool.and_false, Bool.not_true, Bool.and_true,
            Bool.toNat_true, Bool.toNat_false, Nat.add_zero]
            at hdeclared hattempts hsignals hoverdrafts hnow
          refine ⟨hdeeds, hjobs, hword, fun hfits => ?_, hheld, fun hnone => ?_⟩
          · have hpast := h.balance (hwrapped.mp hfits).1
            omega
          · have hpast := hbalance (by omega)
            have hcounts := h.saturated (by omega)
            omega

theorem step (h : Since x y later) (hstep : Step y z) : ∃ later', Since x z later' := by
  cases hstep with
  | done turn due => exact ⟨_, h.doing turn⟩
  | parked turn due => exact ⟨later, h.congr rfl rfl (left_set turn true)⟩
  | woke asleep => exact ⟨later, h.congr rfl rfl (left_set asleep false)⟩

end Since

/-- **Whatever threads do together adds up.** -/
theorem exists_since (hx : x.completion.outstanding < UInt64.size) (h : Steps x y) :
    ∃ later, Since x y later := by
  induction h with
  | refl => exact ⟨[], .refl hx⟩
  | tail _ hstep ih =>
      obtain ⟨later, hlater⟩ := ih
      exact hlater.step hstep

/-! ### What one job more leaves as it is -/

/-- Neither the count nor another thread can tell that the thread did anything. -/
structure Unnoticed (x y : Gathering) (thread : Nat) : Prop where
  completion : y.completion = x.completion
  attendants : ∀ j, j ≠ thread → y.attendants[j]? = x.attendants[j]?

/-- Nobody is woken where the count stays as it is. -/
theorem unnoticed_doing (h : (job.act x.completion).state = x.completion) :
    Unnoticed x (x.doing i job rest) i where
  completion := h
  attendants := by
    intro j hj
    have hroused : (x.doing i job rest).attendants = x.attendants.set i { jobs := rest } := by
      rw [doing, h]
      cases hd : x.completion.isDrained <;> simp [roused, hd]
    rw [hroused, List.getElem?_set_ne hj.symm]

/-- A job that was done was the next one of its thread. -/
theorem Step.eq_doing {d : Deed} (h : Step x y) (hd : y.deeds = x.deeds ++ [d]) :
    d.job.due x.completion = true ∧ d = d.job.deed d.thread x.completion ∧
      ∃ rest, y = x.doing d.thread d.job rest := by
  cases h with
  | done turn due =>
      obtain rfl : _ = d := by simpa [doing] using hd
      exact ⟨due, rfl, _, rfl⟩
  | parked turn due => exact absurd hd.symm (by simp)
  | woke asleep => exact absurd hd.symm (by simp)

/-- **The count is what was declared less what was signalled, and the order does not matter.**

In every state that threads around a new count come to, what is outstanding is what was declared
less the signals that found something outstanding, if a word held the count at every time.  A hook
run with arguments that it does not take changes nothing, nor does a signal at zero.  And among any
`k` signals from a count of `m` on, with nothing declared meanwhile, `min k m` are counted and all
others give up, whatever hooks they come from and in whatever order. -/
theorem outstanding_accounted {programs : List (List Job)} (h : Steps (start {} programs) x) :
    ((∀ d ∈ x.deeds, d.wrapped = false) →
      x.completion.outstanding + signals x.deeds = declared x.deeds) ∧
    (∀ y d, Step x y → y.deeds = x.deeds ++ [d] →
      (∀ hook given, d.job = .invoke hook given → hook.arity.accepts given = false →
        d.result = .error (.panic (.arityMismatch hook.arity given)) ∧ Unnoticed x y d.thread) ∧
      (d.job.signals = true → x.completion.outstanding = 0 →
        d.result = .error (.panic .negativeCount) ∧ Unnoticed x y d.thread)) ∧
    ∀ y, Steps x y → ∃ later, y.deeds = x.deeds ++ later ∧
      (later.map (·.job) ++ y.left).Perm x.left ∧
      (declared later = 0 →
        signals later = min (attempts later) x.completion.outstanding ∧
        overdrafts later = attempts later - min (attempts later) x.completion.outstanding ∧
        y.completion.outstanding
          = x.completion.outstanding - min (attempts later) x.completion.outstanding) := by
  obtain ⟨past, hpast⟩ := exists_since (Nat.zero_lt_succ _) h
  refine ⟨fun hheld => ?_, ?_, ?_⟩
  · obtain rfl : x.deeds = past := hpast.deeds
    simpa [start] using hpast.balance hheld
  · intro y d hstep hd
    obtain ⟨-, hdeed, rest, rfl⟩ := hstep.eq_doing hd
    have hresult : d.result = (d.job.act x.completion).result := congrArg Deed.result hdeed
    refine ⟨fun hook given hjob hrefused => ?_, fun hsignals hzero => ?_⟩
    · have hact := Job.act_refused hrefused x.completion
      rw [← hjob] at hact
      exact ⟨hresult.trans (congrArg Outcome.result hact),
        unnoticed_doing (congrArg Outcome.state hact)⟩
    · obtain ⟨hact, hstate⟩ := Job.act_of_signals_zero hsignals
      have hcount : x.completion = ⟨0⟩ := congrArg Completion.mk hzero
      rw [← hcount] at hact hstate
      exact ⟨hresult.trans hact, unnoticed_doing hstate⟩
  · intro y hxy
    obtain ⟨later, hlater⟩ := exists_since hpast.word hxy
    refine ⟨later, hlater.deeds, hlater.jobs, fun hnone => ?_⟩
    have hbalance := hlater.balance (hlater.held hnone)
    obtain ⟨hsignals, hoverdrafts⟩ := hlater.saturated hnone
    exact ⟨hsignals, hoverdrafts, by omega⟩

/-- Two completions are declared, and four threads run a hook: one of them without the arguments
that it takes, and one that gives up once it has signalled. -/
def knocks : List (List Job) :=
  [[.expect 2], [.invoke { arity := .fixed 1 } 1],
    [.invoke { arity := .variadic 1, reason := some "stop" } 3], [.invoke { arity := .fixed 0 } 0],
    [.invoke { arity := .fixed 2 } 1]]

/-- Three of the hooks signal, and the one that comes last finds nothing outstanding. -/
theorem last_of_three_overdraws : ∃ x y later, Steps (start {} knocks) x ∧
    x.completion = { outstanding := 2 } ∧
    x.completion.outstanding + signals x.deeds = declared x.deeds ∧
    Steps x y ∧ y.deeds = x.deeds ++ later ∧
    attempts later = 3 ∧ signals later = min 3 2 ∧ overdrafts later = 3 - min 3 2 ∧
    y.completion.outstanding = 2 - min 3 2 := by
  have hx : Steps (start {} knocks) ((start {} knocks).doing 0 (.expect 2) []) :=
    .single (.done rfl rfl)
  have hthird : Steps ((start {} knocks).doing 0 (.expect 2) []) _ :=
    .single (.done (i := 3) rfl rfl)
  have hfourth := hthird.tail (.done (i := 4) rfl rfl)
  have hsecond := hfourth.tail (.done (i := 2) rfl rfl)
  have hfirst := hsecond.tail (.done (i := 1) rfl rfl)
  obtain ⟨hbalance, -, hlater⟩ := outstanding_accounted hx
  obtain ⟨later, hdeeds, -, hk⟩ := hlater _ hfirst
  obtain rfl : _ = later := congrArg List.tail hdeeds
  exact ⟨_, _, _, hx, rfl, hbalance (by decide), hfirst, hdeeds, rfl, hk rfl⟩

/-! ### Threads that wait -/

/-- Where a thread sleeps, something is outstanding. -/
def Watched (x : Gathering) : Prop :=
  ∀ a ∈ x.attendants, a.asleep = true → 0 < x.completion.outstanding

/-- A job that loses nothing leaves nobody asleep where it leaves nothing outstanding. -/
theorem Watched.doing (h : x.Watched) (hheld : job.wraps x.completion = false) (i : Nat)
    (rest : List Job) : (x.doing i job rest).Watched := by
  intro a ha hasleep
  by_cases hroused : (job.signals && !x.completion.isDrained
      && (job.act x.completion).state.isDrained) = true
  · -- The count was drained just now, so nobody sleeps.
    rw [Gathering.doing, roused, if_pos hroused] at ha
    obtain ⟨b, -, rfl⟩ := List.mem_map.mp ha
    exact absurd hasleep Bool.false_ne_true
  · rw [Gathering.doing, roused, if_neg hroused] at ha
    have hbefore : 0 < x.completion.outstanding := by
      rcases List.mem_or_eq_of_mem_set ha with ha | rfl
      · exact h a ha hasleep
      · exact absurd hasleep Bool.false_ne_true
    have hstate : (x.doing i job rest).completion.outstanding = _ :=
      congrArg Completion.outstanding (job.state_act i hheld)
    cases hsignals : job.signals with
    | false =>
        rw [hstate, hsignals]
        exact Nat.lt_of_lt_of_le hbefore (Nat.le_add_right ..)
    | true =>
        have hafter : (job.act x.completion).state.isDrained = false := by
          simpa [Completion.isDrained, Nat.ne_of_gt hbefore, hsignals] using hroused
        exact Nat.pos_of_ne_zero (of_decide_eq_false hafter)

/-- **One step breaks it only in one way**: it declares more than a word holds, which leaves nothing
outstanding and a thread asleep. -/
theorem Watched.step_iff (h : x.Watched) (hstep : Step x y) :
    y.Watched ↔ ∀ d, y.deeds = x.deeds ++ [d] → d.wrapped = true →
      y.completion.outstanding = 0 → ∀ a ∈ y.attendants, a.asleep = false := by
  constructor
  · intro hy d _ _ hzero a ha
    rw [← Bool.not_eq_true]
    intro hasleep
    exact absurd (hy a ha hasleep) (by omega)
  · intro hlost
    cases hstep with
    | @done i job rest turn due =>
        cases hwraps : job.wraps x.completion with
        | false => exact h.doing hwraps i rest
        | true =>
            intro a ha hasleep
            refine Nat.pos_of_ne_zero fun hzero => ?_
            have hawake := hlost _ rfl hwraps hzero a ha
            exact Bool.noConfusion (hawake.symm.trans hasleep)
    | @parked i job rest turn due =>
        intro a ha hasleep
        rcases List.mem_or_eq_of_mem_set ha with ha | rfl
        · exact h a ha hasleep
        · cases job with
          | wait => exact Nat.pos_of_ne_zero (of_decide_eq_false due)
          | _ => exact Bool.noConfusion due
    | woke asleep =>
        intro a ha hasleep
        rcases List.mem_or_eq_of_mem_set ha with ha | rfl
        · exact h a ha hasleep
        · exact absurd hasleep Bool.false_ne_true

/-- What is done stays done. -/
theorem isPrefix_deeds (h : Steps x y) : x.deeds <+: y.deeds := by
  induction h with
  | refl => exact List.prefix_rfl
  | tail _ hstep ih =>
      cases hstep with
      | done turn due => exact ih.trans (List.prefix_append ..)
      | parked turn due => exact ih
      | woke asleep => exact ih

/-- As long as nothing was lost, nobody sleeps on a drained count. -/
theorem Watched.steps (h : x.Watched) (hsteps : Steps x y)
    (hheld : ∀ d ∈ y.deeds, d.wrapped = false) : y.Watched := by
  induction hsteps with
  | refl => exact h
  | tail _ hstep ih =>
      have hbefore := ih fun d hd => hheld d ((isPrefix_deeds (.single hstep)).mem hd)
      refine (hbefore.step_iff hstep).mpr fun d hdeeds hwrapped => ?_
      have hown := hheld d (by simp [hdeeds])
      exact Bool.noConfusion (hown.symm.trans hwrapped)

end Gathering

end CallOrder
