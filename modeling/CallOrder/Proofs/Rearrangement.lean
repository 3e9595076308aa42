/-
Trees that are written differently and stand for the same order.

A chain in a chain, a group of one, an empty link, the order in which branches are
written, a part that is detached twice: none of this says anything about the order of
calls.  Each is a law, with the tree as it may be written on one side and on the other
(`Law`), and a tree is rearranged by using laws in it, in whatever place and either way
(`Rearranged`).  The walk over a rearranged tree registers the same relations and ends
with the same frontier, though perhaps in another order and not equally often
(`propagate_rearranged`).

That each law keeps both sets is read off the walks of its two sides.  What is around
the place is a frame (`Frame`), and all that a frame takes from the inside is the
frontier, of which it uses the members alone (`steady_frame`).
-/
import CallOrder.Proofs.Isolation
import CallOrder.Proofs.Profile

namespace CallOrder

namespace DetachMode

/-- Whether the part is not ordered after what comes before it. -/
def freesHead : DetachMode → Bool
  | cut .head | cut .both => true
  | _ => false

/-- Whether what comes after the part is not ordered after it. -/
def freesTail : DetachMode → Bool
  | cut .tail | cut .both => true
  | _ => false

/-- The mode that gives up just these sides. -/
def ofSides : Bool → Bool → DetachMode
  | false, false => none
  | true, false => cut .head
  | false, true => cut .tail
  | true, true => cut .both

/-- The mode that gives up what one of two modes gives up. -/
def union (mode other : DetachMode) : DetachMode :=
  ofSides (mode.freesHead || other.freesHead) (mode.freesTail || other.freesTail)

example : union (cut .head) (cut .tail) = cut .both ∧ union (cut .tail) (cut .head) = cut .both ∧
    ∀ mode ∈ all, union mode mode = mode ∧ union none mode = mode ∧ union mode none = mode := by
  decide

end DetachMode

variable {ι : Type} [DecidableEq ι]

/-! ### The same sets -/

namespace Walk.SameSets

variable {v w u : Walk ι}

omit [DecidableEq ι]

theorem refl (w : Walk ι) : w.SameSets w :=
  ⟨fun _ => Iff.rfl, fun _ => Iff.rfl⟩

theorem symm (h : w.SameSets v) : v.SameSets w :=
  ⟨fun r => (h.constraints r).symm, fun e => (h.frontier e).symm⟩

theorem trans (h : w.SameSets v) (h' : v.SameSets u) : w.SameSets u :=
  ⟨fun r => (h.constraints r).trans (h'.constraints r),
    fun e => (h.frontier e).trans (h'.frontier e)⟩

end Walk.SameSets

/-- The frame makes the same sets of the same members. -/
structure Frame.Steady (f : Frame ι) : Prop where
  late : ∀ as bs, (∀ a, a ∈ as ↔ a ∈ bs) → ∀ r, r ∈ f.late as ↔ r ∈ f.late bs
  leaving : ∀ as bs, (∀ a, a ∈ as ↔ a ∈ bs) → ∀ e, e ∈ f.leaving as ↔ e ∈ f.leaving bs

omit [DecidableEq ι] in
theorem Frame.Steady.around {f : Frame ι} (hf : f.Steady) {w v : Walk ι} (h : w.SameSets v) :
    (f.around w).SameSets (f.around v) where
  constraints r := by
    simp only [Frame.around, List.mem_append, h.constraints r, hf.late _ _ h.frontier r]
  frontier := hf.leaving _ _ h.frontier

namespace Node

namespace Context

theorem steady_frameBeside {f : Frame ι} (hf : f.Steady) (anchors : List ι)
    (before later : List (Node ι)) : (frameBeside anchors before f later).Steady where
  late as bs hsame r := by
    simp only [frameBeside, List.mem_append, hf.late as bs hsame r]
  leaving as bs hsame e := by
    simp only [frameBeside, List.mem_append, hf.leaving as bs hsame e]

/-- **What is around a place uses the members of the frontier alone.** -/
theorem steady_frame (c : Context ι) (anchors : List ι) : (c.frame anchors).Steady := by
  induction c generalizing anchors with
  | hole => exact ⟨fun _ _ _ _ => Iff.rfl, fun _ _ hsame => hsame⟩
  | within group before inner later ih =>
      have hbeside (entry : List ι) :=
        steady_frameBeside (ih entry) entry before later
      cases group with
      | chain =>
          have hf := ih (propagate.inSequence anchors before).frontier
          -- The parts after the hole start from what the frame inside leaves.
          have hlater (as bs : List ι) (hsame : ∀ a, a ∈ as ↔ a ∈ bs) :=
            (describes_inSequence later).congr (hf.leaving as bs hsame)
          refine ⟨fun as bs hsame r => ?_, fun as bs hsame => (hlater as bs hsame).frontier⟩
          simp only [frame, List.mem_append]
          rw [hf.late as bs hsame r, (hlater as bs hsame).constraints r]
      | parallel => exact hbeside anchors
      | detach side =>
          cases side with
          | head =>
              refine ⟨(hbeside []).late, fun as bs hsame e => ?_⟩
              have hleaving := (hbeside []).leaving as bs hsame e
              simp only [frame, List.mem_append, hleaving]
          | tail => exact ⟨(hbeside anchors).late, fun _ _ _ _ => Iff.rfl⟩
          | both => exact ⟨(hbeside []).late, fun _ _ _ _ => Iff.rfl⟩

end Context

/-- Trees that are walked alike are walked alike in any place. -/
theorem sameSets_fill {n m : Node ι}
    (h : ∀ anchors, (n.propagate anchors).SameSets (m.propagate anchors)) (c : Context ι)
    (anchors : List ι) :
    ((c.fill n).propagate anchors).SameSets ((c.fill m).propagate anchors) := by
  rw [c.propagate_fill, c.propagate_fill]
  exact (c.steady_frame anchors).around (h _)

/-! ### Laws -/

/-- Two trees that stand for the same order. -/
inductive Law : Node ι → Node ι → Prop where
  | chainInChain (before parts later : List (Node ι)) :
      Law (chain (before ++ chain parts :: later)) (chain (before ++ parts ++ later))
  | parallelInParallel (before parts later : List (Node ι)) :
      Law (parallel (before ++ parallel parts :: later)) (parallel (before ++ parts ++ later))
  | emptyInChain (before later : List (Node ι)) :
      Law (chain (before ++ empty :: later)) (chain (before ++ later))
  | chainOfOne (n : Node ι) : Law (chain [n]) n
  | parallelOfOne (n : Node ι) : Law (parallel [n]) n
  | branchesOfParallel {parts parts' : List (Node ι)} (order : parts.Perm parts') :
      Law (parallel parts) (parallel parts')
  | branchesOfDetached (side : Cut) {parts parts' : List (Node ι)} (order : parts.Perm parts') :
      Law (detach side parts) (detach side parts')
  | detachedTwice (outer inner : DetachMode) (n : Node ι) :
      Law ((n.detached inner).detached outer) (n.detached (outer.union inner))
  | groupDetachedTwice {outer inner side : Cut} (parts : List (Node ι))
      (sides : DetachMode.union (.cut outer) (.cut inner) = .cut side) :
      Law (detach outer [detach inner parts]) (detach side parts)

/-- A tree that comes of another by laws, each used in some place, from left to right or from right
to left. -/
inductive Rearranged : Node ι → Node ι → Prop where
  | law {n m : Node ι} (h : Law n m) (place : Context ι) : Rearranged (place.fill n) (place.fill m)
  | refl (n : Node ι) : Rearranged n n
  | symm {n m : Node ι} (h : Rearranged n m) : Rearranged m n
  | trans {n m k : Node ι} (h : Rearranged n m) (h' : Rearranged m k) : Rearranged n k

/-! ### The walks of the two sides -/

variable {r : Constraint ι} {e : ι} {anchors : List ι}

theorem mem_constraints_sideBySide {parts : List (Node ι)} :
    r ∈ (propagate.sideBySide anchors parts).constraints ↔
      ∃ n ∈ parts, r ∈ (n.propagate anchors).constraints := by
  induction parts with
  | nil => simp [propagate.sideBySide]
  | cons n rest ih => simp [propagate.sideBySide, ih]

theorem mem_frontier_sideBySide_iff {parts : List (Node ι)} :
    e ∈ (propagate.sideBySide anchors parts).frontier ↔
      ∃ n ∈ parts, e ∈ (n.propagate anchors).frontier := by
  induction parts with
  | nil => simp [propagate.sideBySide]
  | cons n rest ih => simp [propagate.sideBySide, ih]

/-- The order of branches makes no difference. -/
theorem sameSets_sideBySide {parts parts' : List (Node ι)} (h : parts.Perm parts')
    (anchors : List ι) :
    (propagate.sideBySide anchors parts).SameSets (propagate.sideBySide anchors parts') where
  constraints r := by simp only [mem_constraints_sideBySide, h.mem_iff]
  frontier e := by simp only [mem_frontier_sideBySide_iff, h.mem_iff]

/-- What detaching does to branches, it does to their sets. -/
theorem sameSets_detach {parts parts' : List (Node ι)}
    (h : ∀ anchors, (propagate.sideBySide anchors parts).SameSets
      (propagate.sideBySide anchors parts')) (side : Cut) (anchors : List ι) :
    ((detach side parts).propagate anchors).SameSets ((detach side parts').propagate anchors) := by
  cases side with
  | head =>
      refine ⟨(h []).constraints, fun e => ?_⟩
      simp only [propagate, List.mem_append, (h []).frontier e]
  | tail => exact ⟨(h anchors).constraints, fun _ => Iff.rfl⟩
  | both => exact ⟨(h []).constraints, fun _ => Iff.rfl⟩

/-- A group that is detached twice gives up the sides of both. -/
theorem propagate_detach_detach {outer inner side : Cut} (parts : List (Node ι))
    (sides : DetachMode.union (.cut outer) (.cut inner) = .cut side) (anchors : List ι) :
    (detach outer [detach inner parts]).propagate anchors
      = (detach side parts).propagate anchors := by
  cases outer <;> cases inner <;> cases sides <;> simp [propagate, propagate.sideBySide]

theorem propagate_detached_detached (outer inner : DetachMode) (n : Node ι) (anchors : List ι) :
    ((n.detached inner).detached outer).propagate anchors
      = (n.detached (outer.union inner)).propagate anchors := by
  cases outer with
  | none =>
      have hinner : DetachMode.union .none inner = inner := by
        rcases inner with _ | side
        · rfl
        · cases side <;> rfl
      rw [hinner]
      rfl
  | cut outer =>
      cases inner with
      | none =>
          have houter : DetachMode.union (.cut outer) .none = .cut outer := by cases outer <;> rfl
          rw [houter]
          rfl
      | cut inner =>
          obtain ⟨side, hside⟩ :
              ∃ side, DetachMode.union (.cut outer) (.cut inner) = .cut side := by
            cases outer <;> cases inner <;> exact ⟨_, rfl⟩
          rw [hside]
          exact propagate_detach_detach [n] hside anchors

/-- The two sides of a law are walked alike. -/
theorem Law.sameSets {n m : Node ι} (h : Law n m) (anchors : List ι) :
    (n.propagate anchors).SameSets (m.propagate anchors) := by
  have of_eq {n m : Node ι} (h : n.propagate anchors = m.propagate anchors) :
      (n.propagate anchors).SameSets (m.propagate anchors) := h ▸ .refl _
  cases h with
  | chainInChain before parts later =>
      refine of_eq ?_
      simp only [propagate, inSequence_append, propagate.inSequence, List.append_assoc]
  | parallelInParallel before parts later =>
      refine of_eq ?_
      simp only [propagate, sideBySide_append, propagate.sideBySide, List.append_assoc]
  | emptyInChain before later =>
      refine of_eq ?_
      simp only [propagate, inSequence_append, propagate.inSequence, List.nil_append]
  | chainOfOne n =>
      refine of_eq ?_
      simp only [propagate, propagate.inSequence, List.append_nil]
  | parallelOfOne n =>
      refine of_eq ?_
      simp only [propagate, propagate.sideBySide, List.append_nil]
  | branchesOfParallel order => exact sameSets_sideBySide order anchors
  | branchesOfDetached side order => exact sameSets_detach (sameSets_sideBySide order) side anchors
  | detachedTwice outer inner n => exact of_eq (propagate_detached_detached outer inner n anchors)
  | groupDetachedTwice parts sides => exact of_eq (propagate_detach_detach parts sides anchors)

/-- **A rearranged tree stands for the same order.**  From whatever frontier it is walked, the same
relations are registered and the same frontier is left. -/
theorem propagate_rearranged {n m : Node ι} (h : n.Rearranged m) (anchors : List ι) :
    (n.propagate anchors).SameSets (m.propagate anchors) := by
  induction h with
  | law hlaw place => exact sameSets_fill hlaw.sameSets place anchors
  | refl n => exact .refl _
  | symm _ ih => exact ih.symm
  | trans _ _ ih ih' => exact ih.trans ih'

/-- Between a knock and an opening, a bell and a light are detached from what comes before, and as a
whole from what comes after.  So each is free of both, whichever is written first. -/
theorem bell_and_light_rearranged :
    let before : Node Nat := chain [single 0, detach .tail
      [detach .head [parallel [single 1, parallel [single 2]]]], empty, single 3]
    let after : Node Nat := chain [single 0, detach .both [parallel [single 2, single 1]], single 3]
    before.Rearranged after ∧ (before.propagate [4]).SameSets (after.propagate [4]) := by
  intro before after
  have hrearranged : before.Rearranged after := by
    refine .trans (.law (.emptyInChain [_, _] [_]) .hole) ?_
    have hsides : DetachMode.union (.cut .tail) (.cut .head) = .cut .both := rfl
    refine .trans (.law (.groupDetachedTwice [_] hsides) (.within .chain [_] .hole [_])) ?_
    refine .trans (.law (.parallelInParallel [_] [_] []) (.within .chain [_]
      (.within (.detach .both) [] .hole []) [_])) ?_
    exact .law (.branchesOfParallel (.swap _ _ []))
      (.within .chain [_] (.within (.detach .both) [] .hole []) [_])
  exact ⟨hrearranged, propagate_rearranged hrearranged [4]⟩

end Node

end CallOrder
