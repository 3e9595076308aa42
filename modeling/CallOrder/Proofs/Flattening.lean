/-
A chain of chains is one chain.

A chain takes the chains among its parts apart and leaves out what is empty, one level at
a time, while it is built.  So where a chain stands in a chain, its parts might as well
stand there themselves: the two setups do the same from every state, in whatever they are
a part of (`build_chain_append_chain`, `build_fill_congr`).  It is as attempts that they
are equal, so nothing tells them apart, neither what they come to nor what they leave.

One level at a time is enough since nothing that a setup comes to has deeper chains left
in it (`flat_build`).  A chain holds no chain and nothing empty, and a detached group is a
detached tree.  Every way to put setups together keeps to that if it is so of the parts,
also a range, which may give back one part of what it is taken of.  So the positions of a
range count what stands in the sequence and nothing else (`chain_flattened`).
-/
import CallOrder.CallPlan
import CallOrder.Proofs.Isolation
import CallOrder.Proofs.Transcript

namespace CallOrder

/-! ### Chains in chains -/

namespace Setup

variable {π σ ι : Type} [DecidableEq ι] (stage : Stage π σ ι)

/-- The parts of a chain may stand in its place in a chain. -/
theorem build_chain_append_chain (before parts later : List (Setup π)) :
    (Setup.chain (before ++ .chain parts :: later)).build stage
      = (Setup.chain (before ++ parts ++ later)).build stage := by
  simp only [build, buildEach_append, build.buildEach, bind_assoc, pure_bind, List.flatMap_append,
    List.flatMap_cons, Node.links, List.append_assoc]

variable {stage} {x y : Setup π}

theorem buildEach_middle_congr (h : x.build stage = y.build stage) (before later : List (Setup π)) :
    build.buildEach stage (before ++ x :: later)
      = build.buildEach stage (before ++ y :: later) := by
  simp only [buildEach_append, build.buildEach, h]

theorem registerEach_middle_congr (h : x.build stage = y.build stage)
    (before later : List (Setup π)) :
    build.registerEach stage (before ++ x :: later)
      = build.registerEach stage (before ++ y :: later) := by
  simp only [registerEach_append, build.registerEach, h]

/-- Setups that do the same do the same in any place. -/
theorem build_fill_congr (h : x.build stage = y.build stage) (context : Context π) :
    (context.fill x).build stage = (context.fill y).build stage := by
  induction context with
  | hole => exact h
  | within group before inner later ih =>
      cases group with
      | independent =>
          simp only [Context.fill, Group.setup, build, registerEach_middle_congr ih before later]
      | chain =>
          simp only [Context.fill, Group.setup, build, buildEach_middle_congr ih before later]
      | parallel =>
          simp only [Context.fill, Group.setup, build, buildEach_middle_congr ih before later]
  | detach mode inner ih => simp only [Context.fill, build, ih]
  | range p q inner ih => simp only [Context.fill, build, ih]

end Setup

/-! ### Flat trees -/

namespace Node

variable {ι : Type}

/-- Whether a chain would keep the tree as it is. -/
def isLink : Node ι → Bool
  | chain _ => false
  | empty => false
  | _ => true

/-- Whether all chains in the tree hold nothing but what they would keep, and all detached groups
in it are of one tree. -/
def flat : Node ι → Bool
  | single _ => true
  | chain parts => parts.all isLink && flatAll parts
  | parallel parts => flatAll parts
  | detach _ parts => parts.length = 1 && flatAll parts
  | empty => true
where
  /-- Whether all of several trees are flat. -/
  flatAll : List (Node ι) → Bool
    | [] => true
    | n :: rest => flat n && flatAll rest

theorem isLink_iff {n : Node ι} : n.isLink = true ↔ n ≠ empty ∧ ∀ parts, n ≠ chain parts := by
  cases n <;> simp [isLink]

theorem flatAll_iff {parts : List (Node ι)} :
    flat.flatAll parts = true ↔ ∀ n ∈ parts, n.flat = true := by
  induction parts with
  | nil => simp [flat.flatAll]
  | cons n rest ih => simp [flat.flatAll, ih]

theorem flat_chain_iff {parts : List (Node ι)} :
    (chain parts).flat = true ↔ ∀ n ∈ parts, n.isLink = true ∧ n.flat = true := by
  simp [flat, flatAll_iff, forall_and]

theorem flat_parallel_iff {parts : List (Node ι)} :
    (parallel parts).flat = true ↔ ∀ n ∈ parts, n.flat = true :=
  flatAll_iff

/-- What a flat tree contributes to a chain is what the chain keeps. -/
theorem links_of_flat {n m : Node ι} (h : n.flat = true) (hm : m ∈ n.links) :
    m.isLink = true ∧ m.flat = true := by
  cases n with
  | chain parts => exact flat_chain_iff.mp h m hm
  | empty => exact absurd hm List.not_mem_nil
  | single e =>
      obtain rfl := List.mem_singleton.mp hm
      exact ⟨rfl, h⟩
  | parallel parts =>
      obtain rfl := List.mem_singleton.mp hm
      exact ⟨rfl, h⟩
  | detach side parts =>
      obtain rfl := List.mem_singleton.mp hm
      exact ⟨rfl, h⟩

theorem flat_detached {n : Node ι} (h : n.flat = true) (mode : DetachMode) :
    (n.detached mode).flat = true := by
  cases mode with
  | none => exact h
  | cut side => simp [detached, flat, flat.flatAll, h]

/-- What lies between two positions is one of the parts, some of them, or nothing. -/
theorem flat_ofSlice {group : List (Node ι) → Node ι} {parts : List (Node ι)}
    (hone : ∀ n ∈ parts, n.flat = true)
    (hsome : ∀ ns : List (Node ι), ns ⊆ parts → (group ns).flat = true) (p q : Int64) :
    (ofSlice group (Slice.between p q parts)).flat = true := by
  simp only [Slice.between]
  split
  · cases hi : parts[clampIndex p parts.length]? with
    | none => rfl
    | some n => exact hone n (List.mem_of_getElem? hi)
  · exact hsome _ fun n hn => List.mem_of_mem_take (List.mem_of_mem_drop hn)

/-- A range of a flat tree is flat. -/
theorem flat_between {n : Node ι} (h : n.flat = true) (p q : Int64) :
    (n.between p q).flat = true := by
  cases n with
  | chain parts =>
      have hparts := flat_chain_iff.mp h
      exact flat_ofSlice (fun n hn => (hparts n hn).2)
        (fun ns hns => flat_chain_iff.mpr fun n hn => hparts n (hns hn)) p q
  | parallel parts =>
      have hparts := flat_parallel_iff.mp h
      exact flat_ofSlice hparts
        (fun ns hns => flat_parallel_iff.mpr fun n hn => hparts n (hns hn)) p q
  | _ => exact h

/-- Whatever is in a flat tree is flat. -/
theorem flat_of_fill (c : Context ι) {n : Node ι} (h : (c.fill n).flat = true) : n.flat = true := by
  induction c with
  | hole => exact h
  | within group before inner later ih =>
      refine ih ?_
      have hall : flat.flatAll (before ++ inner.fill n :: later) = true := by
        cases group <;> simp_all [Context.fill, Group.node, flat]
      exact flatAll_iff.mp hall _ (by simp)

end Node

/-! ### What setups come to -/

section Evaluation

variable {π σ ι : Type} [DecidableEq ι] {stage : Stage π σ ι}

/-- Where the producer succeeds it comes to one expectation, or to none. -/
def Stage.Plain (stage : Stage π σ ι) (p : π) : Prop :=
  ∀ s n t, (stage.produce p).Gives s n t → n = .empty ∨ ∃ e, n = .single e

mutual

/-- **What a setup comes to is flat**, if its producers come to one expectation each, or to none. -/
theorem Setup.flat_build : ∀ (setup : Setup π), (∀ p ∈ setup.leaves, stage.Plain p) →
    ∀ {s n t}, (setup.build stage).Gives s n t → n.flat = true
  | .leaf producer, hleaves, s, n, t, h => by
      rcases hleaves producer (List.mem_singleton.mpr rfl) s n t h with rfl | ⟨e, rfl⟩ <;> rfl
  | .independent parts, _, _, _, _, h => by
      simp only [build, Attempt.gives_bind_iff, Attempt.gives_pure_iff] at h
      obtain ⟨_, _, _, rfl, _⟩ := h
      rfl
  | .chain parts, hleaves, _, _, _, h => by
      simp only [build, Attempt.gives_bind_iff, Attempt.gives_pure_iff] at h
      obtain ⟨ns, _, hns, rfl, _⟩ := h
      have hflat := flat_buildEach parts hleaves hns
      refine Node.flat_chain_iff.mpr fun m hm => ?_
      obtain ⟨n, hn, hm⟩ := List.mem_flatMap.mp hm
      exact Node.links_of_flat (hflat n hn) hm
  | .parallel parts, hleaves, _, _, _, h => by
      simp only [build, Attempt.gives_bind_iff, Attempt.gives_pure_iff] at h
      obtain ⟨ns, _, hns, rfl, _⟩ := h
      exact Node.flat_parallel_iff.mpr (flat_buildEach parts hleaves hns)
  | .detach mode part, hleaves, _, _, _, h => by
      simp only [build, Attempt.gives_bind_iff, Attempt.gives_pure_iff] at h
      obtain ⟨n, _, hn, rfl, _⟩ := h
      exact Node.flat_detached (flat_build part hleaves hn) mode
  | .range p q part, hleaves, _, _, _, h => by
      simp only [build, Attempt.gives_bind_iff] at h
      obtain ⟨n, _, hn, hrange⟩ := h
      cases hcut : n.cut? with
      | some side => simp [hcut] at hrange
      | none =>
          simp only [hcut, Attempt.gives_bind_iff, Attempt.gives_pure_iff] at hrange
          obtain ⟨_, _, _, rfl, _⟩ := hrange
          exact Node.flat_between (flat_build part hleaves hn) p q

theorem Setup.flat_buildEach : ∀ (parts : List (Setup π)),
    (∀ p ∈ Setup.leaves.leavesAll parts, stage.Plain p) →
      ∀ {s ns t}, (build.buildEach stage parts).Gives s ns t → ∀ n ∈ ns, n.flat = true
  | [], _, _, _, _, h => by
      simp only [build.buildEach, Attempt.gives_pure_iff] at h
      obtain ⟨rfl, _⟩ := h
      exact nofun
  | part :: rest, hleaves, _, _, _, h => by
      simp only [build.buildEach, Attempt.gives_bind_iff, Attempt.gives_pure_iff] at h
      obtain ⟨n, _, hn, ns, _, hns, rfl, _⟩ := h
      refine List.forall_mem_cons.mpr ⟨?_, ?_⟩
      · exact flat_build part (fun p hp => hleaves p (List.mem_append_left _ hp)) hn
      · exact flat_buildEach rest (fun p hp => hleaves p (List.mem_append_right _ hp)) hns

end

/-- **A chain in a chain is taken apart, and no chain is left in one.**

In whatever setup a chain stands in a chain, its parts might as well stand in its place: from every
state the same comes of it, with the same state left behind and the same events.  And if producers
come to one expectation each, or to none, then wherever there is a chain in the tree that a setup
comes to, there is neither a chain nor an empty tree among its parts, and wherever there is a
detached group, it is of one part. -/
theorem Setup.chain_flattened (stage : Stage π σ ι) :
    (∀ (context : Setup.Context π) (before parts later : List (Setup π)),
      (context.fill (.chain (before ++ .chain parts :: later))).build stage
        = (context.fill (.chain (before ++ parts ++ later))).build stage) ∧
    ∀ (setup : Setup π) (s : σ) (n : Node ι) (t : σ),
      (∀ p ∈ setup.leaves, stage.Plain p) → (setup.build stage).Gives s n t →
        (∀ (place : Node.Context ι) parts, n = place.fill (.chain parts) →
          ∀ part ∈ parts, part ≠ .empty ∧ ∀ inner, part ≠ .chain inner) ∧
        ∀ (place : Node.Context ι) side parts, n = place.fill (.detach side parts) →
          ∃ part, parts = [part] := by
  refine ⟨fun context before parts later => ?_, fun setup s n t hleaves hbuild => ?_⟩
  · exact build_fill_congr (build_chain_append_chain stage before parts later) context
  · have hflat := setup.flat_build hleaves hbuild
    refine ⟨fun place parts hn part hpart => ?_, fun place side parts hn => ?_⟩
    · have hchain := Node.flat_chain_iff.mp (Node.flat_of_fill place (hn ▸ hflat))
      exact Node.isLink_iff.mp (hchain part hpart).1
    · have hgroup := Node.flat_of_fill place (hn ▸ hflat)
      have hone : parts.length = 1 := by
        simp only [Node.flat, Bool.and_eq_true, decide_eq_true_eq] at hgroup
        exact hgroup.1
      exact List.length_eq_one_iff.mp hone

end Evaluation

namespace Bench

/-- Producers come to one call each or to none, unless calls that were declared before are named. -/
theorem plain_of_ne_existing {p : Producer} (h : ∀ calls, p ≠ .existing calls) :
    (Handler.stage Producer.produce).Plain p := by
  intro s n t hgives
  have hproduce : p.produce.Gives s n t := hgives
  cases p with
  | existing calls => exact absurd rfl (h calls)
  | declare plan =>
      simp only [Producer.produce, Attempt.gives_bind_iff, Attempt.gives_pure_iff] at hproduce
      obtain ⟨_, _, _, id, _, _, rfl, _⟩ := hproduce
      exact Or.inr ⟨id, rfl⟩
  | recorder => exact absurd hproduce Attempt.not_gives_fail
  | mistake e => exact absurd hproduce Attempt.not_gives_fail
  | nothing =>
      simp only [Producer.produce, Attempt.gives_pure_iff] at hproduce
      exact Or.inl hproduce.1.symm

/-- A step of a morning. -/
def morningStep (name : String) : Setup Producer :=
  .leaf (.declare { call := ⟨"morning", name, []⟩ })

/-- Getting ready, of which one thing is picked, and something that is not needed. -/
def ready : List (Setup Producer) :=
  let dressing := Setup.chain [morningStep "dress", morningStep "comb"]
  [morningStep "wash", .range 1 1 (.parallel [morningStep "shave", dressing]), .leaf .nothing]

/-- The picked chain is taken apart as well, so the third and the fourth step of the morning are to
dress and to comb, and nothing of the tree is a chain in a chain. -/
theorem third_and_fourth_step :
    let rise := morningStep "rise"
    let leave := morningStep "leave"
    let nested := Setup.range 2 3 (.chain ([rise] ++ .chain ready :: [leave]))
    let listed := Setup.range 2 3 (.chain ([rise] ++ ready ++ [leave]))
    let tree : Node CallId := .chain [.single ⟨0, 3⟩, .single ⟨0, 4⟩]
    nested.build (Handler.stage Producer.produce) = listed.build (Handler.stage Producer.produce) ∧
    ∃ t, (nested.build (Handler.stage Producer.produce)).Gives (start .recording {} 1 0) tree t ∧
      ∀ (place : Node.Context CallId) parts, tree = place.fill (.chain parts) →
        ∀ part ∈ parts, ∀ inner, part ≠ .chain inner := by
  intro rise leave nested listed tree
  obtain ⟨hsame, hflat⟩ := Setup.chain_flattened (Handler.stage Producer.produce)
  obtain ⟨t, hbuild⟩ : ∃ t, (nested.build (Handler.stage Producer.produce)).Gives
      (start .recording {} 1 0) tree t := ⟨_, _, rfl⟩
  have hleaves : ∀ p ∈ nested.leaves, (Handler.stage Producer.produce).Plain p := by
    intro p hp
    refine plain_of_ne_existing fun calls => ?_
    rintro rfl
    simp [nested, rise, leave, ready, morningStep, Setup.leaves, Setup.leaves.leavesAll] at hp
  obtain ⟨hchains, -⟩ := hflat nested (start .recording {} 1 0) tree t hleaves hbuild
  refine ⟨hsame (.range 2 3 .hole) _ _ _, t, hbuild, fun place parts hn part hpart => ?_⟩
  exact (hchains place parts hn part hpart).2

end Bench

end CallOrder
