/-
The log is true to the state.

Events are the only thing that a reader of a log sees, and the state is the only thing that a
test acts on.  Here both are held against each other at every time.  On the account of a
controller its expectations are declared in the order of their numbers, and each is matched
as often as it was called, once with every count up to that (`Ledger.Booked`).  On the account
of a counter every event leaves what was added so far less what was signalled, as far as a word
holds it (`Completion.Booked`).  On the account of a walk are the relations that it registered,
in order and as often as it did, but for the last if it did not get to tell of that one yet
(`Tour.Followed`).

What a step can do is known (`Posting`), so each of these is kept by what changes it: an
expectation that is changed, a counter that is, and for a walk anything at all, since what
others do meanwhile takes back none of its relations (`Bench.Grows`) and leaves every
expectation the name by which it is told.
-/
import CallOrder.Proofs.Journal

namespace CallOrder

/-! ### What events say -/

namespace Event

/-- Whether it tells that an expectation was taken on. -/
def isDeclared : Event → Bool
  | declared .. => true
  | _ => false

/-- Whether it tells that a call was matched to the expectation of that number. -/
def isMatchedTo (number : Nat) : Event → Bool
  | matched _ _ index _ => index = number
  | _ => false

/-- Whether it tells that a completion was signalled. -/
def isSignalled : Event → Bool
  | signalled _ => true
  | _ => false

/-- How many completions it tells were added. -/
def added : Event → Nat
  | expecting n _ => n
  | _ => 0

/-- How many completions it says are outstanding. -/
def outstanding? : Event → Option Nat
  | expecting _ n => some n
  | signalled n => some n
  | _ => none

/-- What these events leave outstanding: what they added less what they signalled, but for as many
times as that goes round the values of a word. -/
def Leaves (events : List Event) (left : Nat) : Prop :=
  left < UInt64.size ∧ ∃ laps, left + events.countP isSignalled + laps * UInt64.size
    = (events.map added).sum

/-- It is just what they added less what they signalled if a word holds that. -/
theorem Leaves.eq_iff {events : List Event} {left : Nat} (h : Leaves events left) :
    left + events.countP isSignalled = (events.map added).sum ↔
      (events.map added).sum < events.countP isSignalled + UInt64.size := by
  obtain ⟨hword, laps, hlaps⟩ := h
  simp only [UInt64.size] at hword hlaps ⊢
  omega

theorem isDeclared_of_not_isRecord {event : Event} (h : event.isRecord = false) :
    event.isDeclared = false := by
  cases event <;> first | rfl | cases h

theorem isMatchedTo_of_not_isRecord {event : Event} (h : event.isRecord = false) (number : Nat) :
    event.isMatchedTo number = false := by
  cases event <;> first | rfl | cases h

end Event

namespace Entry

theorem on_concat (account : Account) (entries : List Entry) (entry : Entry) :
    Entry.on account (entries ++ [entry]) = Entry.on account entries ++
      if entry.account = account then [entry.event] else [] := by
  simp only [Entry.on, List.filter_append, List.map_append]
  by_cases h : entry.account = account <;> simp [h]

theorem on_append (account : Account) (before later : List Entry) :
    Entry.on account (before ++ later) = Entry.on account before ++ Entry.on account later := by
  simp only [Entry.on, List.filter_append, List.map_append]

/-- What is told on one account is told on no other. -/
theorem on_map (account other : Account) (events : List Event) :
    Entry.on account (events.map (⟨other, ·⟩)) = if other = account then events else [] := by
  simp only [Entry.on, List.filter_map, List.map_map]
  by_cases h : other = account <;> simp [h, Function.comp_def]

end Entry

/-! ### Controllers -/

namespace Ledger

variable {l m : Ledger} {past events : List Event}

/-- What a log tells of the expectations that a controller took on: one after another, by number. -/
def declarations (l : Ledger) : List Event :=
  l.calls.mapIdx fun number e => .declared e.call.receiver e.call.method number

/-- What a log tells of the calls that were matched to an expectation: one after another, by
count. -/
def matchings (l : Ledger) (number : Nat) : List Event :=
  match l.calls[number]? with
  | none => []
  | some e => (List.range e.invoked).map fun before =>
      .matched e.call.receiver e.call.method number (before + 1)

/-- The events tell just what the controller came to. -/
structure Booked (l : Ledger) (events : List Event) : Prop where
  declared : events.filter Event.isDeclared = l.declarations
  matched : ∀ number, events.filter (Event.isMatchedTo number) = l.matchings number

/-- Every expectation is of the same call in both, and was called as often. -/
def Alike (l m : Ledger) : Prop :=
  ∀ i : Nat, (m.calls[i]?.map fun e => (e.call, e.invoked))
    = l.calls[i]?.map fun e => (e.call, e.invoked)

theorem Alike.declarations_eq (h : l.Alike m) : m.declarations = l.declarations := by
  refine List.ext_getElem? fun i => ?_
  have hi := h i
  simp only [declarations, List.getElem?_mapIdx]
  cases hl : l.calls[i]? <;> cases hm : m.calls[i]? <;> simp_all

theorem Alike.matchings_eq (h : l.Alike m) (number : Nat) :
    m.matchings number = l.matchings number := by
  have hi := h number
  unfold matchings
  cases hl : l.calls[number]? <;> cases hm : m.calls[number]? <;> simp_all

/-- Changing what is neither the call of an expectation nor its count leaves them alike. -/
theorem alike_modify (l : Ledger) (index : Nat) {change : Expectation → Expectation}
    (hcall : ∀ e, (change e).call = e.call) (hinvoked : ∀ e, (change e).invoked = e.invoked) :
    l.Alike (l.modify index change) := by
  intro i
  simp only [modify, List.getElem?_modify]
  by_cases hi : index = i
  · cases l.calls[i]? <;> simp [hi, hcall, hinvoked]
  · simp [hi]

/-- **What is not on record leaves them alike.** -/
theorem alike_apply {change : Change} (h : change.record? l = none) :
    l.Alike (change.apply l) := by
  cases change with
  | declare call => cases h
  | setTimes index n => exact alike_modify l index (fun _ => rfl) fun _ => rfl
  | setStub index stub => exact alike_modify l index (fun _ => rfl) fun _ => rfl
  | attach index hook => exact alike_modify l index (fun _ => rfl) fun _ => rfl
  | order index predecessor =>
      refine alike_modify l index (fun e => ?_) fun e => ?_ <;> split <;> rfl
  | answer call =>
      simp only [Change.record?, Change.apply] at h ⊢
      cases hjudge : l.judge call with
      | accepted index e => simp [hjudge] at h
      | _ => exact fun _ => rfl

theorem declarations_declare (l : Ledger) (call : Signature) :
    (l.declare call).declarations
      = l.declarations ++ [.declared call.receiver call.method l.calls.length] := by
  simp [declarations, declare, List.mapIdx_append]

/-- A new expectation was not called yet. -/
theorem matchings_declare (l : Ledger) (call : Signature) (number : Nat) :
    (l.declare call).matchings number = l.matchings number := by
  unfold matchings declare
  rcases Nat.lt_trichotomy number l.calls.length with hlt | heq | hgt
  · rw [List.getElem?_append_left hlt]
  · rw [heq, List.getElem?_concat_length, List.getElem?_eq_none (Nat.le_refl _)]
    rfl
  · rw [List.getElem?_eq_none (by simp; omega), List.getElem?_eq_none (by omega)]

theorem declarations_invoke (l : Ledger) (index : Nat) :
    (l.invoke index).declarations = l.declarations := by
  refine List.ext_getElem? fun i => ?_
  cases hindex : l.calls[index]? with
  | none => simp only [invoke, hindex]
  | some e =>
      simp only [declarations, List.getElem?_mapIdx, getElem?_invoke hindex, Option.map_map]
      rfl

/-- The expectation that answers was called once more. -/
theorem matchings_invoke {index : Nat} {e : Expectation} (h : l.calls[index]? = some e)
    (number : Nat) :
    (l.invoke index).matchings number = l.matchings number ++
      if number = index then [.matched e.call.receiver e.call.method index (e.invoked + 1)]
      else [] := by
  unfold matchings
  rw [getElem?_invoke h]
  by_cases hnumber : number = index
  · subst hnumber
    simp [h, List.range_succ]
  · cases l.calls[number]? <;> simp [hnumber, Ne.symm hnumber]

namespace Booked

theorem nil : Booked {} [] :=
  ⟨rfl, fun _ => rfl⟩

/-- Nothing else matters. -/
theorem silent (h : l.Booked past) (hsilent : ∀ event ∈ events, event.isRecord = false) :
    l.Booked (past ++ events) := by
  have hdeclared : events.filter Event.isDeclared = [] :=
    List.filter_eq_nil_iff.mpr fun event hmem => by
      simp [Event.isDeclared_of_not_isRecord (hsilent event hmem)]
  have hmatched (number : Nat) : events.filter (Event.isMatchedTo number) = [] :=
    List.filter_eq_nil_iff.mpr fun event hmem => by
      simp [Event.isMatchedTo_of_not_isRecord (hsilent event hmem)]
  refine ⟨?_, fun number => ?_⟩
  · rw [List.filter_append, hdeclared, List.append_nil, h.declared]
  · rw [List.filter_append, hmatched, List.append_nil, h.matched]

/-- A new expectation is booked under its number. -/
theorem declare (h : l.Booked past) (call : Signature) :
    (l.declare call).Booked
      (past ++ [.declared call.receiver call.method l.calls.length]) := by
  refine ⟨?_, ?_⟩
  · rw [List.filter_append, h.declared, declarations_declare]
    rfl
  · intro number
    rw [List.filter_append, h.matched, matchings_declare]
    exact List.append_nil _

/-- A call is booked for the expectation that answers it. -/
theorem answer (h : l.Booked past) {call : Signature} {index : Nat} {e : Expectation}
    (hjudge : l.judge call = .accepted index e) :
    (l.invoke index).Booked
      (past ++ [.matched call.receiver call.method index (e.invoked + 1)]) := by
  obtain ⟨he, -⟩ := judge_accepted hjudge
  -- The call that is told of is the expected one.
  obtain ⟨-, hkey⟩ := @sameKey_of_judge l { call } index e hjudge
  obtain rfl : e.call = call := Signature.eq_of_sameKey hkey
  refine ⟨?_, ?_⟩
  · rw [List.filter_append, h.declared, declarations_invoke]
    exact List.append_nil _
  · intro number
    rw [List.filter_append, h.matched, matchings_invoke he]
    by_cases hnumber : number = index
    · simp [Event.isMatchedTo, hnumber]
    · simp [Event.isMatchedTo, hnumber, Ne.symm hnumber]

/-- **Every change is booked as it is told.** -/
theorem apply (h : l.Booked past) (change : Change) :
    (change.apply l).Booked (past ++ (change.record? l).toList) := by
  cases hrecord : change.record? l with
  | none =>
      have halike := alike_apply hrecord
      rw [Option.toList_none, List.append_nil]
      exact ⟨halike.declarations_eq ▸ h.declared,
        fun number => halike.matchings_eq number ▸ h.matched number⟩
  | some event =>
      rw [Option.toList_some]
      cases change with
      | declare call =>
          cases hrecord
          exact h.declare call
      | answer call =>
          simp only [Change.record?, Change.apply] at hrecord ⊢
          cases hjudge : l.judge call with
          | accepted index e =>
              simp only [hjudge, Option.some.injEq] at hrecord
              subst hrecord
              exact h.answer hjudge
          | _ => simp [hjudge] at hrecord
      | _ => cases hrecord

end Booked

end Ledger

/-! ### Counters -/

namespace Completion

variable {c d : Completion} {past : List Event} {event : Event}

/-- Every event tells what those up to and with it leave, and that is what is outstanding in the
end. -/
structure Booked (c : Completion) (events : List Event) : Prop where
  balance : Event.Leaves events c.outstanding
  told : ∀ past event, past ++ [event] <+: events →
    ∃ left, event.outstanding? = some left ∧ Event.Leaves (past ++ [event]) left

namespace Booked

theorem nil : Booked {} [] :=
  ⟨⟨Nat.zero_lt_succ _, 0, rfl⟩,
    fun _ _ hprefix => absurd (List.prefix_nil.mp hprefix) (List.concat_ne_nil _ _)⟩

/-- It goes on so if the next event tells what is outstanding then. -/
theorem concat (h : c.Booked past) (htold : event.outstanding? = some d.outstanding)
    (hword : d.outstanding < UInt64.size) (more : Nat)
    (hbalance : d.outstanding + (if event.isSignalled then 1 else 0) + more * UInt64.size
      = c.outstanding + event.added) : d.Booked (past ++ [event]) := by
  have hsum : Event.Leaves (past ++ [event]) d.outstanding := by
    obtain ⟨-, laps, hpast⟩ := h.balance
    refine ⟨hword, laps + more, ?_⟩
    simp only [List.countP_append, List.countP_singleton, List.map_append, List.sum_append,
      List.map_singleton, List.sum_singleton, Nat.add_mul]
    omega
  refine ⟨hsum, fun earlier other hprefix => ?_⟩
  rcases List.prefix_concat_iff.mp hprefix with heq | hearlier
  · obtain ⟨rfl, hlast⟩ := List.append_inj' heq rfl
    obtain rfl : other = event := List.singleton_inj.mp hlast
    exact ⟨d.outstanding, htold, hsum⟩
  · exact h.told earlier other hearlier

/-- More completions are expected. -/
theorem expected (h : c.Booked past) (n : Nat) :
    (c.plus n).Booked (past ++ [.expecting n (c.plus n).outstanding]) :=
  h.concat rfl (c.outstanding_plus_lt n) _ (Nat.mod_add_div' ..)

/-- One is signalled. -/
theorem signalled {n : Nat} (h : c.Booked past) (due : c.outstanding = n + 1) :
    Booked ⟨n⟩ (past ++ [.signalled n]) := by
  have hword := h.balance.1
  rw [due] at hword
  refine h.concat rfl (Nat.lt_of_succ_lt hword) 0 ?_
  rw [Nat.zero_mul]
  exact due.symm

end Booked

end Completion

/-! ### What a walk relies on -/

/-- No change takes an expectation away, or makes it one of another call, or takes back what it
comes after. -/
theorem Change.exists_getElem?_apply (change : Change) {l : Ledger} {i : Nat} {e : Expectation}
    (he : l.calls[i]? = some e) : ∃ f, (change.apply l).calls[i]? = some f ∧
      f.call = e.call ∧ e.prerequisites ⊆ f.prerequisites := by
  have hmodify (index : Nat) (alter : Expectation → Expectation)
      (halter : (alter e).call = e.call ∧ e.prerequisites ⊆ (alter e).prerequisites) :
      ∃ f, (l.modify index alter).calls[i]? = some f ∧ f.call = e.call ∧
        e.prerequisites ⊆ f.prerequisites := by
    simp only [Ledger.modify, List.getElem?_modify, he]
    by_cases hi : index = i
    · exact ⟨alter e, by simp [hi], halter⟩
    · exact ⟨e, by simp [hi], rfl, List.Subset.refl _⟩
  cases change with
  | declare call =>
      have hlt : i < l.calls.length := (List.getElem?_eq_some_iff.mp he).1
      refine ⟨e, ?_, rfl, List.Subset.refl _⟩
      simp only [apply, Ledger.declare, List.getElem?_append_left hlt, he]
  | setTimes index n => exact hmodify index _ ⟨rfl, List.Subset.refl _⟩
  | setStub index stub => exact hmodify index _ ⟨rfl, List.Subset.refl _⟩
  | attach index hook => exact hmodify index _ ⟨rfl, List.Subset.refl _⟩
  | order index predecessor =>
      refine hmodify index _ ?_
      split
      · exact ⟨rfl, List.Subset.refl _⟩
      · exact ⟨rfl, List.subset_append_left ..⟩
  | answer call =>
      simp only [apply]
      split
      · obtain ⟨f, hf, hsince⟩ := Ledger.since_invoke l _ i e he
        rw [hsince.same] at hf
        exact ⟨_, hf, rfl, List.Subset.refl _⟩
      · exact ⟨e, he, rfl, List.Subset.refl _⟩

namespace Bench

variable {b t : Bench} {id : CallId} {c : Constraint CallId}

/-- Every expectation is still there, of the same call, and comes after all that it came after. -/
def Grows (b t : Bench) : Prop :=
  ∀ id e, b.collaborator.expectation? id = some e → ∃ f,
    t.collaborator.expectation? id = some f ∧ f.call = e.call ∧
      e.prerequisites ⊆ f.prerequisites

theorem Grows.of_ledgers_eq (h : t.ledgers = b.ledgers) : b.Grows t := by
  intro id e he
  have hsame : t.collaborator.expectation? id = b.collaborator.expectation? id :=
    congrArg (fun ledgers : List Ledger => (ledgers.getD id.controller {}).calls[id.index]?) h
  exact ⟨e, hsame.trans he, rfl, List.Subset.refl _⟩

theorem Grows.of_move {m : Move} (h : t.ledgers = m.apply b.ledgers) : b.Grows t := by
  intro id e he
  have hledger : t.collaborator.ledger id.controller
      = (m.apply b.ledgers).getD id.controller {} :=
    congrArg (fun ledgers : List Ledger => ledgers.getD id.controller {}) h
  simp only [Switchboard.expectation?, hledger, Move.getD_apply]
  split
  · exact m.change.exists_getElem?_apply he
  · exact ⟨e, he, rfl, List.Subset.refl _⟩

theorem Grows.isSome (h : b.Grows t) (hid : (b.collaborator.expectation? id).isSome = true) :
    (t.collaborator.expectation? id).isSome = true := by
  obtain ⟨e, he⟩ := Option.isSome_iff_exists.mp hid
  obtain ⟨f, hf, -⟩ := h id e he
  rw [hf, Option.isSome_some]

/-- So the log tells the same of two expectations that are known. -/
theorem Grows.relating_eq (h : b.Grows t)
    (hsuccessor : (b.collaborator.expectation? c.successor).isSome = true)
    (hpredecessor : (b.collaborator.expectation? c.predecessor).isSome = true) :
    t.relating c = b.relating c := by
  have hdescribe {id : CallId} (hid : (b.collaborator.expectation? id).isSome = true) :
      t.collaborator.describe id = b.collaborator.describe id := by
    obtain ⟨e, he⟩ := Option.isSome_iff_exists.mp hid
    obtain ⟨f, hf, hcall, -⟩ := h id e he
    simp only [Switchboard.describe, he, hf, Option.elim_some, hcall]
  have hsuccessor := hdescribe hsuccessor
  have hpredecessor := hdescribe hpredecessor
  simp only [relating, Handler.stage, Collaborator.describe, hsuccessor, hpredecessor]

theorem grows_order (c : Constraint CallId) (b : Bench) :
    b.Grows (b.modify (Collaborator.order c)) :=
  Grows.of_move (m := orderMove c) rfl

/-- A relation that is registered is in place, whether or not it was before. -/
theorem exists_expectation_order (h : (b.collaborator.expectation? c.successor).isSome = true) :
    ∃ e, (b.modify (Collaborator.order c)).collaborator.expectation? c.successor = some e ∧
      c.predecessor.index ∈ e.prerequisites := by
  obtain ⟨f, hf⟩ := Option.isSome_iff_exists.mp h
  have hledger : (b.modify (Collaborator.order c)).collaborator.ledger c.successor.controller
      = (b.collaborator.ledger c.successor.controller).after c.successor.index
        c.predecessor.index :=
    Switchboard.ledger_modify_self (Switchboard.lt_length_of_getElem? hf) _
  rw [Switchboard.expectation?] at hf ⊢
  rw [hledger, Ledger.getElem?_after, hf, Option.map_some]
  refine ⟨_, rfl, ?_⟩
  by_cases hold : c.predecessor.index ∈ f.prerequisites <;> simp [hold]

end Bench

theorem Posting.grows {b t : Bench} {account : Account} {events : List Event}
    (h : Posting b t account events) : b.Grows t := by
  cases h with
  | nothing unrecorded => exact .of_ledgers_eq unrecorded.ledgers
  | remarked unrecorded apart => exact .of_ledgers_eq unrecorded.ledgers
  | moved m ledgers counts => exact .of_move ledgers
  | expected counter n ledgers counts => exact .of_ledgers_eq ledgers
  | signalled counter n due ledgers counts => exact .of_ledgers_eq ledgers

namespace Tour

variable {tour : Tour} {b t : Bench} {past : List Event} {c : Constraint CallId}

/-- The walk is about calls that are known, it registered its relations up to some, which are all
in place, and it told of just these in order, but for the last if it did not get to it yet. -/
structure Followed (tour : Tour) (b : Bench) (events : List Event) : Prop where
  known : ∀ id ∈ tour.anchors ++ tour.node.leaves,
    (b.collaborator.expectation? id).isSome = true
  told : events = (tour.relations.take tour.told).map b.relating
  told_le : tour.told ≤ tour.registered
  le_told : tour.registered ≤ tour.told + 1
  registered_le : tour.registered ≤ tour.relations.length
  ordered : ∀ c ∈ tour.relations.take tour.registered, ∃ e,
    b.collaborator.expectation? c.successor = some e ∧ c.predecessor.index ∈ e.prerequisites

namespace Followed

/-- A walk relates only calls that are known. -/
theorem isSome (h : tour.Followed b past) (hc : c ∈ tour.relations) :
    (b.collaborator.expectation? c.successor).isSome = true ∧
      (b.collaborator.expectation? c.predecessor).isSome = true := by
  obtain ⟨hpredecessor, hsuccessor⟩ := Node.mem_of_mem_constraints hc
  exact ⟨h.known _ (List.mem_append_right _ hsuccessor),
    h.known _ (List.mem_append.mpr hpredecessor)⟩

/-- Whatever others do, the walk is where it was. -/
theorem grows (h : tour.Followed b past) (hgrows : b.Grows t) : tour.Followed t past := by
  have hrelating : (tour.relations.take tour.told).map t.relating
      = (tour.relations.take tour.told).map b.relating := by
    refine List.map_congr_left fun c hc => ?_
    obtain ⟨hsuccessor, hpredecessor⟩ := h.isSome (List.mem_of_mem_take hc)
    exact hgrows.relating_eq hsuccessor hpredecessor
  refine ⟨fun id hid => hgrows.isSome (h.known id hid), h.told.trans hrelating.symm, h.told_le,
    h.le_told, h.registered_le, fun c hc => ?_⟩
  obtain ⟨e, he, hmem⟩ := h.ordered c hc
  obtain ⟨f, hf, -, hsubset⟩ := hgrows c.successor e he
  exact ⟨f, hf, hsubset hmem⟩

/-- A walk that sets out did nothing yet. -/
theorem began {anchors : List CallId} {node : Node CallId}
    (known : ∀ id ∈ anchors ++ node.leaves, (b.collaborator.expectation? id).isSome = true) :
    Followed { anchors, node } b [] :=
  ⟨known, rfl, Nat.le_refl _, Nat.zero_le _, Nat.zero_le _, fun _ hc => nomatch hc⟩

/-- What it registers is in place. -/
theorem register (h : tour.Followed b past) (even : tour.told = tour.registered)
    (next : tour.relations[tour.registered]? = some c) :
    tour.register.Followed (b.modify (Collaborator.order c)) past := by
  have hstill := h.grows (Bench.grows_order c b)
  have hlt := (List.getElem?_eq_some_iff.mp next).1
  refine ⟨hstill.known, hstill.told, ?_, ?_, hlt, ?_⟩
  · exact Nat.le_succ_of_le h.told_le
  · exact Nat.succ_le_succ (Nat.le_of_eq even.symm)
  · have htake : tour.relations.take (tour.registered + 1)
        = tour.relations.take tour.registered ++ [c] := by
      rw [List.take_add_one, next, Option.toList_some]
    intro d hd
    rw [show tour.register.relations.take tour.register.registered = _ from htake] at hd
    rcases List.mem_append.mp hd with hearlier | hlast
    · exact hstill.ordered d hearlier
    · obtain rfl : d = c := List.mem_singleton.mp hlast
      exact Bench.exists_expectation_order (h.isSome (List.mem_of_getElem? next)).1

/-- It tells of what it registered last. -/
theorem report (h : tour.Followed b past) (behind : tour.told < tour.registered)
    (next : tour.relations[tour.told]? = some c) :
    tour.report.Followed b (past ++ [b.relating c]) := by
  refine ⟨h.known, ?_, behind, Nat.le_succ_of_le h.le_told, h.registered_le, h.ordered⟩
  have htake : tour.relations.take (tour.told + 1) = tour.relations.take tour.told ++ [c] := by
    rw [List.take_add_one, next, Option.toList_some]
  show past ++ [b.relating c] = (tour.relations.take (tour.told + 1)).map b.relating
  rw [htake, List.map_append, ← h.told, List.map_singleton]

end Followed

end Tour

/-! ### What a posting books -/

theorem eq_of_getElem?_set_self {α : Type} {items : List α} {i : Nat} {a b : α}
    (h : (items.set i a)[i]? = some b) : b = a := by
  have hlt : i < items.length := by
    have hset := (List.getElem?_eq_some_iff.mp h).1
    rwa [List.length_set] at hset
  rw [List.getElem?_set_self hlt] at h
  exact (Option.some.inj h).symm

/-- The record of a change belongs on the account of a controller. -/
theorem Change.keeps_record? {change : Change} {l : Ledger} {event : Event}
    (h : change.record? l = some event) (k : Nat) :
    (Account.controller k).keeps event = true := by
  cases change with
  | declare call =>
      cases h
      rfl
  | answer call =>
      simp only [record?] at h
      cases hjudge : l.judge call with
      | accepted index e =>
          simp only [hjudge, Option.some.injEq] at h
          subst h
          rfl
      | _ => simp [hjudge] at h
  | _ => cases h

/-- Where one counter changed, a counter is that one or is as it was. -/
theorem Bench.getElem?_counts_set {b t : Bench} {counter k : Nat} {c d : Completion}
    (h : t.counts = b.counts.set counter d) (hc : t.counts[k]? = some c) :
    counter = k ∧ c = d ∧ b.counts[k]? = some (b.completionOf k) ∨
      counter ≠ k ∧ b.counts[k]? = some c := by
  rw [h] at hc
  by_cases hk : counter = k
  · subst hk
    have hlt : counter < b.counts.length := by
      have hset := (List.getElem?_eq_some_iff.mp hc).1
      rwa [List.length_set] at hset
    rw [List.getElem?_set_self hlt] at hc
    refine .inl ⟨rfl, (Option.some.inj hc).symm, ?_⟩
    rw [completionOf_eq, List.getD_eq_getElem?_getD, List.getElem?_eq_getElem hlt,
      Option.getD_some]
  · rw [List.getElem?_set_ne hk] at hc
    exact .inr ⟨hk, hc⟩

namespace Posting

variable {b t : Bench} {account : Account} {events past : List Event}

/-- Records are told on an account that they belong on. -/
theorem keeps (h : Posting b t account events) :
    ∀ event ∈ events, event.isRecord = true → account.keeps event = true := by
  intro event hmem hrecord
  cases h with
  | nothing unrecorded => exact absurd hmem List.not_mem_nil
  | remarked unrecorded apart =>
      exact Bool.noConfusion ((unrecorded.silent event hmem).symm.trans hrecord)
  | moved m ledgers counts => exact Change.keeps_record? (Option.mem_toList.mp hmem) _
  | expected counter n ledgers counts =>
      obtain rfl := List.mem_singleton.mp hmem
      rfl
  | signalled counter n due ledgers counts =>
      obtain rfl := List.mem_singleton.mp hmem
      rfl

/-- Nothing of it is on the account of a walk. -/
theorem apart (h : Posting b t account events) (w : Nat) :
    (if account = .walk w then events else []) = [] := by
  cases h with
  | nothing unrecorded => exact ite_self []
  | remarked unrecorded apart =>
      rcases apart with rfl | ⟨k, rfl⟩ <;> exact if_neg nofun
  | _ => exact if_neg nofun

/-- What was booked of a controller still is, with what is told on its account. -/
theorem booked_ledger (h : Posting b t account events) {k : Nat} {l : Ledger}
    (hl : t.ledgers[k]? = some l) (hbooked : ∀ m, b.ledgers[k]? = some m → m.Booked past) :
    l.Booked (past ++ if account = .controller k then events else []) := by
  have hsame (hledgers : t.ledgers = b.ledgers) : l.Booked past := hbooked l (hledgers ▸ hl)
  cases h with
  | nothing unrecorded =>
      rw [ite_self, List.append_nil]
      exact hsame unrecorded.ledgers
  | remarked unrecorded apart =>
      refine (hsame unrecorded.ledgers).silent ?_
      split
      · exact unrecorded.silent
      · exact List.forall_mem_nil _
  | moved m ledgers counts =>
      rw [ledgers, Move.apply, List.getElem?_modify] at hl
      obtain ⟨before, hbefore, rfl⟩ := Option.map_eq_some_iff.mp hl
      by_cases hk : m.controller = k
      · subst hk
        rw [if_pos rfl, if_pos rfl, List.getD_eq_getElem?_getD, hbefore, Option.getD_some]
        exact (hbooked before hbefore).apply m.change
      · rw [if_neg hk, if_neg fun heq => hk (Account.controller.inj heq), List.append_nil]
        exact hbooked before hbefore
  | expected counter n ledgers counts =>
      rw [if_neg Account.noConfusion, List.append_nil]
      exact hsame ledgers
  | signalled counter n due ledgers counts =>
      rw [if_neg Account.noConfusion, List.append_nil]
      exact hsame ledgers

/-- So it is with a counter. -/
theorem booked_count (h : Posting b t account events) {k : Nat} {c : Completion}
    (hc : t.counts[k]? = some c) (hbooked : ∀ d, b.counts[k]? = some d → d.Booked past) :
    c.Booked (past ++ if account = .counter k then events else []) := by
  have hsame (hcounts : t.counts = b.counts) : c.Booked past := hbooked c (hcounts ▸ hc)
  cases h with
  | nothing unrecorded =>
      rw [ite_self, List.append_nil]
      exact hsame unrecorded.counts
  | remarked unrecorded apart =>
      have hno : account ≠ .counter k := by
        rcases apart with rfl | ⟨_, rfl⟩ <;> exact nofun
      rw [if_neg hno, List.append_nil]
      exact hsame unrecorded.counts
  | moved m ledgers counts =>
      rw [if_neg Account.noConfusion, List.append_nil]
      exact hsame counts
  | expected counter n ledgers counts =>
      rcases Bench.getElem?_counts_set counts hc with ⟨rfl, rfl, hd⟩ | ⟨hk, hd⟩
      · rw [if_pos rfl]
        exact (hbooked _ hd).expected n
      · rw [if_neg fun heq => hk (Account.counter.inj heq), List.append_nil]
        exact hbooked c hd
  | signalled counter n due ledgers counts =>
      rcases Bench.getElem?_counts_set counts hc with ⟨rfl, rfl, hd⟩ | ⟨hk, hd⟩
      · rw [if_pos rfl]
        exact (hbooked _ hd).signalled due
      · rw [if_neg fun heq => hk (Account.counter.inj heq), List.append_nil]
        exact hbooked c hd

end Posting

/-! ### The journal -/

namespace Journal

variable {x y : Journal}

/-- The entries tell, account by account, what the company came to. -/
structure Balanced (x : Journal) : Prop where
  log : x.company.log = x.entries.map Entry.event
  placed : ∀ entry ∈ x.entries, entry.event.isRecord = true →
    entry.account.keeps entry.event = true
  ledgers : ∀ (k : Nat) (l : Ledger), x.company.bench.ledgers[k]? = some l →
    l.Booked (Entry.on (.controller k) x.entries)
  counts : ∀ (k : Nat) (c : Completion), x.company.bench.counts[k]? = some c →
    c.Booked (Entry.on (.counter k) x.entries)
  tours : ∀ (w : Nat) (tour : Tour), x.tours[w]? = some tour →
    tour.Followed x.company.bench (Entry.on (.walk w) x.entries)
  /-- Nothing is on the account of a walk that was not begun. -/
  unbegun : ∀ w, x.tours.length ≤ w → Entry.on (.walk w) x.entries = []

namespace Balanced

theorem start (kind : ReporterKind) (config : Config) (controllers counters n : Nat) :
    (start kind config controllers counters n).Balanced := by
  refine ⟨rfl, List.forall_mem_nil _, ?_, ?_, fun _ _ turn => (nomatch turn), fun _ _ => rfl⟩
  · intro k l hl
    obtain rfl := List.eq_of_mem_replicate (List.mem_of_getElem? hl)
    exact .nil
  · intro k c hc
    rcases List.mem_cons.mp (List.mem_of_getElem? hc) with rfl | hmem
    · exact .nil
    · obtain rfl := List.eq_of_mem_replicate hmem
      exact .nil

/-- What is posted is entered, and the walks are where they were. -/
theorem post (h : x.Balanced) {y : Company} {account : Account} {events : List Event}
    (hlog : y.log = x.company.log ++ events)
    (hposting : Posting x.company.bench y.bench account events) :
    Balanced { x with company := y, entries := x.entries ++ events.map (⟨account, ·⟩) } := by
  refine ⟨?_, ?_, ?_, ?_, ?_, ?_⟩
  · simp only [List.map_append, List.map_map, ← h.log, hlog]
    exact congrArg _ (List.map_id _).symm
  · intro entry hmem hrecord
    rcases List.mem_append.mp hmem with hearlier | hnew
    · exact h.placed entry hearlier hrecord
    · obtain ⟨event, hevent, rfl⟩ := List.mem_map.mp hnew
      exact hposting.keeps event hevent hrecord
  · intro k l hl
    rw [Entry.on_append, Entry.on_map]
    exact hposting.booked_ledger hl (h.ledgers k)
  · intro k c hc
    rw [Entry.on_append, Entry.on_map]
    exact hposting.booked_count hc (h.counts k)
  · intro w tour turn
    rw [Entry.on_append, Entry.on_map, hposting.apart, List.append_nil]
    exact (h.tours w tour turn).grows hposting.grows
  · intro w hw
    rw [Entry.on_append, Entry.on_map, hposting.apart, List.append_nil]
    exact h.unbegun w hw

/-- One more walk sets out. -/
theorem began (h : x.Balanced) {anchors : List CallId} {node : Node CallId}
    (known : ∀ id ∈ anchors ++ node.leaves,
      (x.company.bench.collaborator.expectation? id).isSome = true) :
    Balanced { x with tours := x.tours ++ [{ anchors, node }] } := by
  refine ⟨h.log, h.placed, h.ledgers, h.counts, ?_, ?_⟩
  · intro w tour turn
    by_cases hlt : w < x.tours.length
    · rw [List.getElem?_append_left hlt] at turn
      exact h.tours w tour turn
    · have hge : x.tours.length ≤ w := Nat.not_lt.mp hlt
      rw [List.getElem?_append_right hge, List.getElem?_singleton] at turn
      split at turn <;> cases turn
      rw [h.unbegun w hge]
      exact .began known
  · intro w hw
    rw [List.length_append, List.length_singleton] at hw
    exact h.unbegun w (by omega)

/-- A walk goes on, and the others stay. -/
theorem advance (h : x.Balanced) {w : Nat} {tour : Tour}
    (hfollowed : tour.Followed x.company.bench (Entry.on (.walk w) x.entries)) :
    Balanced { x with tours := x.tours.set w tour } := by
  refine ⟨h.log, h.placed, h.ledgers, h.counts, ?_, ?_⟩
  · intro v other turn
    by_cases hvw : w = v
    · subst hvw
      obtain rfl := eq_of_getElem?_set_self turn
      exact hfollowed
    · rw [List.getElem?_set_ne hvw] at turn
      exact h.tours v other turn
  · intro v hv
    rw [List.length_set] at hv
    exact h.unbegun v hv

/-- A walk tells of a relation, on its own account. -/
theorem reported (h : x.Balanced) {w : Nat} {tour : Tour} {c : Constraint CallId}
    (turn : x.tours[w]? = some tour) (behind : tour.told < tour.registered)
    (next : tour.relations[tour.told]? = some c) :
    let event := x.company.bench.relating c
    Balanced {
      company := { x.company with log := x.company.log ++ [event] }
      tours := x.tours.set w tour.report
      entries := x.entries ++ [⟨.walk w, event⟩] } := by
  intro event
  have hlt : w < x.tours.length := (List.getElem?_eq_some_iff.mp turn).1
  have helse {account : Account} (hne : account ≠ .walk w) :
      Entry.on account (x.entries ++ [⟨.walk w, event⟩]) = Entry.on account x.entries := by
    rw [Entry.on_concat, if_neg hne.symm, List.append_nil]
  refine ⟨?_, ?_, ?_, ?_, ?_, ?_⟩
  · rw [List.map_append, ← h.log]
    rfl
  · intro entry hmem hrecord
    rcases List.mem_append.mp hmem with hearlier | hlast
    · exact h.placed entry hearlier hrecord
    · obtain rfl := List.mem_singleton.mp hlast
      rfl
  · intro k l hl
    rw [helse Account.noConfusion]
    exact h.ledgers k l hl
  · intro k c hc
    rw [helse Account.noConfusion]
    exact h.counts k c hc
  · intro v other hother
    by_cases hvw : w = v
    · subst hvw
      obtain rfl := eq_of_getElem?_set_self hother
      rw [Entry.on_concat, if_pos rfl]
      exact (h.tours w tour turn).report behind next
    · rw [List.getElem?_set_ne hvw] at hother
      rw [helse fun heq => hvw (Account.walk.inj heq).symm]
      exact h.tours v other hother
  · intro v hv
    rw [List.length_set] at hv
    rw [helse fun heq => Nat.not_le.mpr hlt (Account.walk.inj heq ▸ hv)]
    exact h.unbegun v hv

theorem step (h : x.Balanced) (hstep : Step x y) : y.Balanced := by
  cases hstep with
  | told tells =>
      obtain ⟨hlog, hposting⟩ := tells.posting
      exact h.post hlog hposting
  | began anchors node known => exact h.began known
  | @registered w tour c turn even next =>
      have hposting : Posting x.company.bench (x.company.bench.modify (Collaborator.order c))
        (.controller c.successor.controller) [] := .moved (Bench.orderMove c) rfl rfl
      have hposted := h.post
        (y := { x.company with bench := x.company.bench.modify (Collaborator.order c) })
        (List.append_nil _).symm hposting
      rw [List.map_nil, List.append_nil] at hposted
      exact hposted.advance ((h.tours w tour turn).register even next)
  | @reported w tour c turn behind next => exact h.reported turn behind next

theorem steps (h : x.Balanced) (hsteps : Steps x y) : y.Balanced := by
  induction hsteps with
  | refl => exact h
  | tail _ hnext ih => exact ih.step hnext

end Balanced

end Journal

/-! ### What is not on record -/

namespace Bench

variable {b : Bench} {controller : Nat} {request : Request}

end Bench

namespace Journal

/-- A knock at a door. -/
def knock : Request := ⟨⟨"door", "knock", []⟩, .unit⟩

/-- A ring at its bell. -/
def ring : Request := ⟨⟨"door", "ring", []⟩, .unit⟩

end Journal

end CallOrder
