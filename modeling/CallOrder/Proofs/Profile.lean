/-
What a walk over a tree does, as a function of what it starts from.

A walk meets every leaf whatever it starts from, and most of what it registers is the
same each time.  What comes before the tree matters in two places only: some leaves, the
entries, come after all of it, and some trees give it back beside their exits.  So four
things say all about a tree, and each is found by recursion on the tree alone
(`Node.profile`, `propagate_closed_form`).

Recursion on a chain is where they need one another.  What a later part starts from is
the exits of those before it and, as far as these pass it on, what the chain started
from.  So the entries of a chain are those of its parts up to the first that passes
nothing on, and its exits are found the same way from behind.
-/
import CallOrder.Proofs.Frontier

namespace CallOrder

variable {ι : Type}

/-- What a tree has to do with the trees before and after it. -/
structure Profile (ι : Type) where
  /-- What comes after all that comes before the tree. -/
  entries : List ι
  /-- What all that follows the tree comes after. -/
  exits : List ι
  /-- The relations that are there whatever comes before. -/
  inner : List (Constraint ι)
  /-- Whether what follows the tree comes after what comes before it as well. -/
  passes : Bool
deriving DecidableEq

namespace Profile

/-- Of nothing in a chain. -/
def through : Profile ι :=
  ⟨[], [], [], true⟩

/-- Of no branches. -/
def blocked : Profile ι :=
  ⟨[], [], [], false⟩

/-- Of one expectation. -/
def single (e : ι) : Profile ι :=
  ⟨[e], [e], [], false⟩

/-- Of two trees from the same frontier. -/
def beside (p q : Profile ι) : Profile ι where
  entries := p.entries ++ q.entries
  exits := p.exits ++ q.exits
  inner := p.inner ++ q.inner
  passes := p.passes || q.passes

/-- Of branches that are detached. -/
def detached (p : Profile ι) : Cut → Profile ι
  | .head => { p with entries := [], passes := true }
  | .tail => { p with exits := [], passes := true }
  | .both => { p with entries := [], exits := [], passes := true }

variable [DecidableEq ι]

/-- Of one tree after another. -/
def andThen (p q : Profile ι) : Profile ι where
  entries := p.entries ++ if p.passes then q.entries else []
  exits := q.exits ++ if q.passes then p.exits else []
  inner := p.inner ++ q.inner ++ q.entries.flatMap (Constraint.after p.exits)
  passes := p.passes && q.passes

end Profile

/-- The profile of a tree. -/
def Node.profile [DecidableEq ι] : Node ι → Profile ι
  | single e => .single e
  | chain parts => inSequence parts
  | parallel parts => sideBySide parts
  | detach side parts => (sideBySide parts).detached side
  | empty => .through
where
  /-- The profile of trees one after another. -/
  inSequence : List (Node ι) → Profile ι
    | [] => .through
    | n :: rest => (profile n).andThen (inSequence rest)
  /-- The profile of trees side by side. -/
  sideBySide : List (Node ι) → Profile ι
    | [] => .blocked
    | n :: rest => (profile n).beside (sideBySide rest)

/-! ### Walks by their profiles -/

variable [DecidableEq ι]

theorem Constraint.mem_after {anchors : List ι} {e : ι} {r : Constraint ι} :
    r ∈ Constraint.after anchors e ↔
      r.successor = e ∧ r.predecessor ∈ anchors ∧ r.predecessor ≠ r.successor := by
  obtain ⟨s, p⟩ := r
  simp only [Constraint.after, List.mem_map, List.mem_filter, decide_not, Bool.not_eq_true',
    decide_eq_false_iff_not, mk.injEq]
  constructor
  · rintro ⟨a, ⟨ha, hne⟩, rfl, rfl⟩
    exact ⟨rfl, ha, hne⟩
  · rintro ⟨rfl, ha, hne⟩
    exact ⟨p, ⟨ha, hne⟩, rfl, rfl⟩

theorem Constraint.mem_flatMap_after {anchors entries : List ι} {r : Constraint ι} :
    r ∈ entries.flatMap (Constraint.after anchors) ↔
      r.successor ∈ entries ∧ r.predecessor ∈ anchors ∧ r.predecessor ≠ r.successor := by
  simp [List.mem_flatMap, Constraint.mem_after]

namespace Profile

/-- The walks, one for each frontier to start from, are those over a tree of this profile. -/
structure Describes (p : Profile ι) (walk : List ι → Walk ι) : Prop where
  constraints : ∀ anchors r, r ∈ (walk anchors).constraints ↔ r ∈ p.inner ∨
    (r.successor ∈ p.entries ∧ r.predecessor ∈ anchors ∧ r.predecessor ≠ r.successor)
  frontier : ∀ anchors e, e ∈ (walk anchors).frontier ↔
    e ∈ p.exits ∨ (p.passes = true ∧ e ∈ anchors)

namespace Describes

variable {p q : Profile ι} {v w : List ι → Walk ι}

/-- One walk from where another ended. -/
theorem andThen (hp : p.Describes v) (hq : q.Describes w) :
    (p.andThen q).Describes fun anchors =>
      let first := v anchors
      let others := w first.frontier
      ⟨first.constraints ++ others.constraints, others.frontier⟩ where
  constraints := by
    intro anchors r
    -- The second walk starts from the exits of the first tree, and from what that passes on.
    have hsecond : r ∈ (w (v anchors).frontier).constraints ↔ r ∈ q.inner ∨
        (r ∈ q.entries.flatMap (Constraint.after p.exits)) ∨
        (p.passes = true ∧ r.successor ∈ q.entries ∧ r.predecessor ∈ anchors ∧
          r.predecessor ≠ r.successor) := by
      rw [hq.constraints, hp.frontier, Constraint.mem_flatMap_after]
      tauto
    have hentry : r.successor ∈ (p.andThen q).entries ↔
        r.successor ∈ p.entries ∨ (p.passes = true ∧ r.successor ∈ q.entries) := by
      cases hpass : p.passes <;> simp [Profile.andThen, hpass]
    rw [List.mem_append, hp.constraints, hsecond, hentry]
    simp only [Profile.andThen, List.mem_append]
    grind
  frontier := by
    intro anchors e
    have hexit : e ∈ (p.andThen q).exits ↔ e ∈ q.exits ∨ (q.passes = true ∧ e ∈ p.exits) := by
      cases hpass : q.passes <;> simp [Profile.andThen, hpass]
    have hpasses : (p.andThen q).passes = true ↔ p.passes = true ∧ q.passes = true := by
      simp [Profile.andThen]
    rw [hq.frontier, hp.frontier, hexit, hpasses]
    tauto

/-- Two walks from the same frontier. -/
theorem beside (hp : p.Describes v) (hq : q.Describes w) :
    (p.beside q).Describes fun anchors =>
      ⟨(v anchors).constraints ++ (w anchors).constraints,
        (v anchors).frontier ++ (w anchors).frontier⟩ where
  constraints := by
    intro anchors r
    rw [List.mem_append, hp.constraints, hq.constraints]
    simp only [Profile.beside, List.mem_append]
    tauto
  frontier := by
    intro anchors e
    rw [List.mem_append, hp.frontier, hq.frontier]
    simp only [Profile.beside, List.mem_append, Bool.or_eq_true]
    tauto

/-- Branches that are detached start from nothing, or leave what there was before, or both. -/
theorem detached {parts : List (Node ι)}
    (hp : p.Describes fun anchors => Node.propagate.sideBySide anchors parts) (side : Cut) :
    (p.detached side).Describes fun anchors => (Node.detach side parts).propagate anchors := by
  have hnothing : ∀ r, r ∈ (Node.propagate.sideBySide [] parts).constraints ↔ r ∈ p.inner := by
    simpa using hp.constraints []
  have hleft : ∀ e, e ∈ (Node.propagate.sideBySide [] parts).frontier ↔ e ∈ p.exits := by
    simpa using hp.frontier []
  cases side with
  | head =>
      refine ⟨fun anchors r => ?_, fun anchors e => ?_⟩
      · simpa [Node.propagate, Profile.detached] using hnothing r
      · simp [Node.propagate, Profile.detached, hleft, or_comm]
  | tail =>
      refine ⟨fun anchors r => ?_, fun anchors e => ?_⟩
      · exact hp.constraints anchors r
      · simp [Node.propagate, Profile.detached]
  | both =>
      refine ⟨fun anchors r => ?_, fun anchors e => ?_⟩
      · simpa [Node.propagate, Profile.detached] using hnothing r
      · simp [Node.propagate, Profile.detached]

end Describes

end Profile

namespace Node

open Profile

mutual

/-- **The walk over a tree is the one of its profile.** -/
theorem describes_profile : ∀ n : Node ι, n.profile.Describes fun anchors => n.propagate anchors
  | .single e => ⟨by simp [profile, Profile.single, propagate, Constraint.mem_after],
      by simp [profile, Profile.single, propagate]⟩
  | .chain parts => describes_inSequence parts
  | .parallel parts => describes_sideBySide parts
  | .detach side parts => (describes_sideBySide parts).detached side
  | .empty => ⟨by simp [profile, through, propagate], by simp [profile, through, propagate]⟩

theorem describes_inSequence : ∀ parts : List (Node ι),
    (profile.inSequence parts).Describes fun anchors => propagate.inSequence anchors parts
  | [] => ⟨by simp [profile.inSequence, through, propagate.inSequence],
      by simp [profile.inSequence, through, propagate.inSequence]⟩
  | n :: rest => (describes_profile n).andThen (describes_inSequence rest)

theorem describes_sideBySide : ∀ parts : List (Node ι),
    (profile.sideBySide parts).Describes fun anchors => propagate.sideBySide anchors parts
  | [] => ⟨by simp [profile.sideBySide, blocked, propagate.sideBySide],
      by simp [profile.sideBySide, blocked, propagate.sideBySide]⟩
  | n :: rest => (describes_profile n).beside (describes_sideBySide rest)

end

end Node

/-! ### Order, repetitions and parts of what a walk starts from -/

/-- Two walks found the same relations and the same frontier, but for order and repetitions. -/
structure Walk.SameSets (w v : Walk ι) : Prop where
  constraints : ∀ r, r ∈ w.constraints ↔ r ∈ v.constraints
  frontier : ∀ e, e ∈ w.frontier ↔ e ∈ v.frontier

/-- What two walks found, put together. -/
def Walk.union (w v : Walk ι) : Walk ι :=
  ⟨w.constraints ++ v.constraints, w.frontier ++ v.frontier⟩

namespace Profile.Describes

variable {p : Profile ι} {w : List ι → Walk ι} {as bs : List ι}

omit [DecidableEq ι] in
/-- Order and repetitions of what a walk starts from make no difference. -/
theorem congr (h : p.Describes w) (hsame : ∀ a, a ∈ as ↔ a ∈ bs) : (w as).SameSets (w bs) where
  constraints := fun r => by rw [h.constraints, h.constraints, hsame]
  frontier := fun e => by rw [h.frontier, h.frontier, hsame]

/-- Starting from more adds what starting from that alone would find. -/
theorem append (h : p.Describes w) : (w (as ++ bs)).SameSets ((w as).union (w bs)) where
  constraints := by
    intro r
    rw [Walk.union, List.mem_append, h.constraints, h.constraints, h.constraints, List.mem_append]
    tauto
  frontier := by
    intro e
    rw [Walk.union, List.mem_append, h.frontier, h.frontier, h.frontier, List.mem_append]
    tauto

end Profile.Describes

namespace Node

/-- **What a walk does depends on what it starts from by the profile of the tree alone.**

It registers the inner relations, and every entry after all that it starts from but itself; it
ends with the exits and, where the tree passes it on, with what it started from.  So order and
repetitions of what it starts from make no difference, what it does from two frontiers together is
what it does from each, nothing is ordered after itself, and it ends with nothing but leaves and
what it started from. -/
theorem propagate_closed_form (n : Node ι) :
    (∀ (anchors : List ι) (r : Constraint ι), r ∈ (n.propagate anchors).constraints ↔
      r ∈ n.profile.inner ∨ (r.successor ∈ n.profile.entries ∧ r.predecessor ∈ anchors ∧
        r.predecessor ≠ r.successor)) ∧
    (∀ (anchors : List ι) (e : ι), e ∈ (n.propagate anchors).frontier ↔
      e ∈ n.profile.exits ∨ (n.profile.passes = true ∧ e ∈ anchors)) ∧
    (∀ as bs : List ι, (∀ a, a ∈ as ↔ a ∈ bs) → (n.propagate as).SameSets (n.propagate bs)) ∧
    (∀ as bs : List ι,
      (n.propagate (as ++ bs)).SameSets ((n.propagate as).union (n.propagate bs))) ∧
    (∀ anchors : List ι, ∀ r ∈ (n.propagate anchors).constraints,
      r.predecessor ≠ r.successor) ∧
    ∀ anchors : List ι, ∀ e ∈ (n.propagate anchors).frontier, e ∈ anchors ∨ e ∈ n.leaves := by
  have h := n.describes_profile
  refine ⟨h.constraints, h.frontier, fun as bs hsame => h.congr hsame, fun as bs => h.append, ?_, ?_⟩
  · exact fun anchors => n.ne_of_mem_propagate anchors
  · exact fun anchors => n.mem_frontier anchors

/-- A branch that holds nothing passes on what a single expectation keeps back, and what is met
twice is an entry in one place and an exit in the other. -/
example : (chain [parallel [single 1, empty], detach .tail [single 2], single 1]).profile
    = ⟨[1, 2, 1], [1], [⟨2, 1⟩], false⟩ := by
  decide

end Node

end CallOrder
