/-
What the evaluation of a setup keeps up, whatever its producers do.

Evaluation runs producers, registers relations and puts trees together, and it stops
where a producer fails.  So what holds of the state throughout is settled by what each
producer and each relation does to it.  What a part has to do with the whole is a
statement about the expectations of its tree, from left to right (`Stage.Sound`): it is
kept by going on after the part, by leaving out some of them, and by a relation between
two of them that is registered in their order.  These are all the relations there are
(`ordered_propagate`), so the statement holds of the tree that a setup comes to, and what
holds throughout also holds where evaluation stopped (`ensures_build`).
-/
import CallOrder.Handler
import CallOrder.Proofs.Frontier

namespace CallOrder

namespace Attempt

variable {σ α β : Type} {x : Attempt σ α} {s : σ} {always : σ → Prop} {post : α → σ → Prop}

/-- Started in that state, the attempt leaves one as is said, and where it succeeds, a value as
is said with it. -/
def Ensures (x : Attempt σ α) (s : σ) (always : σ → Prop) (post : α → σ → Prop) : Prop :=
  always (x s).state ∧ ∀ a, (x s).result = .ok a → post a (x s).state

namespace Ensures

theorem pure {a : α} (h : always s) (hpost : post a s) :
    Ensures (Pure.pure a) s always post := by
  refine ⟨h, fun c hc => ?_⟩
  obtain rfl : a = c := by simpa [pure_apply] using hc
  exact hpost

theorem fail {f : Failure} (h : always s) : Ensures (Attempt.fail f) s always post :=
  ⟨h, fun _ hc => by simp [Attempt.fail] at hc⟩

theorem bind {next : α → Attempt σ β} {post' : β → σ → Prop} (hx : Ensures x s always post)
    (hnext : ∀ a t, always t → post a t → Ensures (next a) t always post') :
    Ensures (x >>= next) s always post' := by
  obtain ⟨hstate, hpost⟩ := hx
  rw [Ensures, bind_apply]
  rcases hxs : x s with ⟨f | a, t, events⟩
  · rw [hxs] at hstate
    exact ⟨hstate, fun _ hc => by simp at hc⟩
  · rw [hxs] at hstate hpost
    exact hnext a t hstate (hpost a rfl)

theorem mono {post' : α → σ → Prop} (hx : Ensures x s always post)
    (h : ∀ a t, post a t → post' a t) : Ensures x s always post' :=
  ⟨hx.1, fun a ha => h a _ (hx.2 a ha)⟩

theorem forEach {ι : Type} {act : ι → Attempt σ α} :
    ∀ {items : List ι} {s : σ}, always s →
      (∀ i ∈ items, ∀ s, always s → Ensures (act i) s always fun _ _ => True) →
        Ensures (Attempt.forEach act items) s always fun _ _ => True
  | [], _, hs, _ => pure hs trivial
  | i :: rest, s, hs, h =>
    (h i (by simp) s hs).bind fun _ t ht _ =>
      (forEach ht fun j hj => h j (List.mem_cons_of_mem _ hj)).bind fun _ _ hu _ =>
        pure hu trivial

end Ensures

end Attempt

/-- The producers of a setup, from left to right. -/
def Setup.leaves {π : Type} : Setup π → List π
  | leaf producer => [producer]
  | independent parts => leavesAll parts
  | chain parts => leavesAll parts
  | parallel parts => leavesAll parts
  | detach _ part => leaves part
  | range _ _ part => leaves part
where
  /-- The producers of several setups. -/
  leavesAll : List (Setup π) → List π
    | [] => []
    | part :: rest => leaves part ++ leavesAll rest

theorem Setup.leaves_independent_singleton {π : Type} (setup : Setup π) :
    (independent [setup]).leaves = setup.leaves :=
  List.append_nil _

namespace Node

variable {ι : Type}

/-! ### The expectations of trees that are put together -/

theorem leavesAll_links (n : Node ι) : leaves.leavesAll n.links = n.leaves := by
  cases n <;> simp [links, leaves, leaves.leavesAll]

theorem leavesAll_flatMap_links (ns : List (Node ι)) :
    leaves.leavesAll (ns.flatMap links) = leaves.leavesAll ns := by
  induction ns with
  | nil => rfl
  | cons n rest ih =>
      rw [List.flatMap_cons, leavesAll_append, leavesAll_links, ih]
      rfl

theorem leaves_detached (n : Node ι) (mode : DetachMode) : (n.detached mode).leaves = n.leaves := by
  cases mode <;> simp [detached, leaves, leaves.leavesAll]

theorem leavesAll_sublist {ns ms : List (Node ι)} (h : ns.Sublist ms) :
    (leaves.leavesAll ns).Sublist (leaves.leavesAll ms) := by
  induction h with
  | slnil => exact List.Sublist.slnil
  | cons n _ ih => exact ih.trans (List.sublist_append_right ..)
  | cons_cons n _ ih => exact List.Sublist.append (List.Sublist.refl _) ih

theorem leaves_ofSlice_sublist {group : List (Node ι) → Node ι}
    (hgroup : ∀ parts, (group parts).leaves = leaves.leavesAll parts) (p q : Int64)
    (parts : List (Node ι)) :
    (ofSlice group (Slice.between p q parts)).leaves.Sublist (leaves.leavesAll parts) := by
  simp only [Slice.between]
  split
  · cases hi : parts[clampIndex p parts.length]? with
    | none => exact List.nil_sublist _
    | some n =>
        have hn : [n].Sublist parts := List.singleton_sublist.mpr (List.mem_of_getElem? hi)
        simpa [ofSlice, leaves.leavesAll] using leavesAll_sublist hn
  · simp only [ofSlice, hgroup]
    exact leavesAll_sublist ((List.drop_sublist ..).trans (List.take_sublist ..))

/-- A part of a tree has expectations of the tree, in their order. -/
theorem leaves_between_sublist (n : Node ι) (p q : Int64) :
    (n.between p q).leaves.Sublist n.leaves := by
  cases n with
  | chain parts => exact leaves_ofSlice_sublist (fun _ => rfl) p q parts
  | parallel parts => exact leaves_ofSlice_sublist (fun _ => rfl) p q parts
  | _ => exact List.Sublist.refl _

/-- A tree on its own has its expectations ordered from left to right. -/
theorem ordered_propagate [DecidableEq ι] (n : Node ι) :
    ∀ c ∈ (n.propagate []).constraints, [c.predecessor, c.successor].Sublist n.leaves :=
  satisfies_propagate (r := fun p s => [p, s].Sublist n.leaves) n [] (by simp)
    (List.pairwise_iff_forall_sublist.mpr fun h => h)

end Node

/-! ### Evaluating -/

namespace Stage

variable {π σ ι : Type}

/-- What holds throughout, and what holds of the expectations that a part comes to, told by the
state that the part began in and the state that is reached. -/
structure Sound (stage : Stage π σ ι) (always : σ → Prop) (spans : σ → List ι → σ → Prop) :
    Prop where
  nothing : ∀ s, always s → spans s [] s
  further : ∀ s t u xs ys, spans s xs t → spans t ys u → spans s (xs ++ ys) u
  sublist : ∀ s t xs ys, spans s xs t → ys.Sublist xs → spans s ys t
  /-- A relation is registered between a part's expectations in their order. -/
  always_order : ∀ s t c, always t → spans s [c.predecessor, c.successor] t →
    always (stage.order c t)
  spans_order : ∀ s t xs c, spans s xs t → spans s xs (stage.order c t)

variable {stage : Stage π σ ι} {always : σ → Prop} {spans : σ → List ι → σ → Prop}

theorem Sound.register (h : stage.Sound always spans) {xs : List ι} {s : σ} :
    ∀ (constraints : List (Constraint ι)) (t : σ),
      (∀ c ∈ constraints, [c.predecessor, c.successor].Sublist xs) → always t → spans s xs t →
        (stage.register constraints).Ensures t always fun _ u => spans s xs u
  | [], _, _, halways, hspans => ⟨halways, fun _ _ => hspans⟩
  | c :: rest, t, hordered, halways, hspans => by
      have hc := h.sublist s t _ _ hspans (hordered c (by simp))
      obtain ⟨hstate, hpost⟩ := Sound.register h rest (stage.order c t)
        (fun d hd => hordered d (List.mem_cons_of_mem _ hd))
        (h.always_order s t c halways hc) (h.spans_order s t xs c hspans)
      exact ⟨hstate, fun u _ => hpost u rfl⟩

variable [DecidableEq ι]

/-- The producers keep up what is said. -/
def Upholds (stage : Stage π σ ι) (always : σ → Prop) (spans : σ → List ι → σ → Prop)
    (producers : List π) : Prop :=
  ∀ p ∈ producers, ∀ s, always s →
    (stage.produce p).Ensures s always fun n t => spans s n.leaves t

mutual

/-- **What every producer and every relation keeps up, evaluation does.** -/
theorem Sound.ensures_build (h : stage.Sound always spans) : ∀ (setup : Setup π),
    stage.Upholds always spans setup.leaves → ∀ s, always s →
      (setup.build stage).Ensures s always fun n t => spans s n.leaves t
  | .leaf producer, hleaves, s, hs => hleaves producer (by simp [Setup.leaves]) s hs
  | .independent parts, hleaves, s, hs => by
      refine (h.ensures_registerEach parts hleaves s hs).bind fun _ t ht hspans => ?_
      exact .pure ht (h.sublist s t _ _ hspans (List.nil_sublist _))
  | .chain parts, hleaves, s, hs => by
      refine (h.ensures_buildEach parts hleaves s hs).bind fun nodes t ht hspans => ?_
      refine .pure ht ?_
      rw [Node.leaves, Node.leavesAll_flatMap_links]
      exact hspans
  | .parallel parts, hleaves, s, hs =>
      (h.ensures_buildEach parts hleaves s hs).bind fun nodes t ht hspans => .pure ht hspans
  | .detach mode part, hleaves, s, hs => by
      refine (h.ensures_build part hleaves s hs).bind fun n t ht hspans => .pure ht ?_
      rw [Node.leaves_detached]
      exact hspans
  | .range p q part, hleaves, s, hs => by
      refine (h.ensures_build part hleaves s hs).bind fun n t ht hspans => ?_
      cases n.cut? with
      | some side => exact .fail ht
      | none =>
          refine (h.register _ t n.ordered_propagate ht hspans).bind fun _ u hu hspans' => ?_
          exact .pure hu (h.sublist s u _ _ hspans' (n.leaves_between_sublist p q))

theorem Sound.ensures_buildEach (h : stage.Sound always spans) : ∀ (parts : List (Setup π)),
    stage.Upholds always spans (Setup.leaves.leavesAll parts) → ∀ s, always s →
      (Setup.build.buildEach stage parts).Ensures s always fun ns t =>
        spans s (Node.leaves.leavesAll ns) t
  | [], _, s, hs => .pure hs (h.nothing s hs)
  | part :: rest, hleaves, s, hs => by
      have hpart := h.ensures_build part (fun p hp => hleaves p (List.mem_append_left _ hp)) s hs
      refine hpart.bind fun n t ht hspans => ?_
      have hrest :=
        h.ensures_buildEach rest (fun p hp => hleaves p (List.mem_append_right _ hp)) t ht
      exact hrest.bind fun ns u hu hspans' => .pure hu (h.further s t u _ _ hspans hspans')

theorem Sound.ensures_registerEach (h : stage.Sound always spans) : ∀ (parts : List (Setup π)),
    stage.Upholds always spans (Setup.leaves.leavesAll parts) → ∀ s, always s →
      (Setup.build.registerEach stage parts).Ensures s always fun _ t => spans s [] t
  | [], _, s, hs => .pure hs (h.nothing s hs)
  | part :: rest, hleaves, s, hs => by
      have hpart := h.ensures_build part (fun p hp => hleaves p (List.mem_append_left _ hp)) s hs
      refine hpart.bind fun n t ht hspans => ?_
      have hown := (n.detached (.cut .both)).ordered_propagate
      rw [n.leaves_detached] at hown
      refine (h.register _ t hown ht hspans).bind fun _ u hu hspans' => ?_
      have hrest :=
        h.ensures_registerEach rest (fun p hp => hleaves p (List.mem_append_right _ hp)) u hu
      refine hrest.mono fun _ v hv => ?_
      exact h.further s u v [] [] (h.sublist s u _ _ hspans' (List.nil_sublist _)) hv

end

end Stage

namespace Handler

variable {κ ι π : Type} [Collaborator κ ι] [DecidableEq ι]
  {produce : π → Attempt (Handler κ) (Node ι)} {setup : Setup π} {b : Handler κ}

/-- A setup is expected by evaluating it as the only part of an independent one. -/
theorem expect_apply (produce : π → Attempt (Handler κ) (Node ι)) (setup : Setup π)
    (b : Handler κ) :
    (expect produce setup b).state = ((Setup.independent [setup]).build (stage produce) b).state ∧
      (expect produce setup b).result
        = ((Setup.independent [setup]).build (stage produce) b).result.map fun _ => () := by
  simp only [expect, Attempt.bind_apply, Attempt.current, Attempt.emit, Attempt.caught,
    Outcome.after]
  rcases (Setup.independent [setup]).build (stage produce) b with ⟨f | n, t, events⟩
  · exact ⟨rfl, rfl⟩
  · exact ⟨rfl, rfl⟩

/-- Expecting a setup leaves what its evaluation leaves. -/
theorem always_expect {always : Handler κ → Prop} {spans : Handler κ → List ι → Handler κ → Prop}
    (h : (stage produce).Sound always spans)
    (hleaves : (stage produce).Upholds always spans setup.leaves) (hb : always b) :
    always (expect produce setup b).state := by
  rw [← setup.leaves_independent_singleton] at hleaves
  rw [(expect_apply produce setup b).1]
  exact (h.ensures_build (.independent [setup]) hleaves b hb).1

end Handler

end CallOrder
