/-
Where the evaluation of a setup stops, and what it leaves behind.

An evaluation nests as the setup does, yet what it does to the state is a flat sequence of
moments (`Setup.moments`): a producer runs, a part of an independent setup is complete, the
whole that a range is taken of is complete.  The first may fail, the last may find a detached
group, and at the last two relations are registered.  Nothing else happens to the state.

What a setup comes to is a function of the trees that its producers came to (`Setup.tree`), so
the moments can be passed one by one with nothing kept but these trees (`Stage.meet`).  The
evaluation does just that (`Stage.followed_build`): it fails at the first moment that cannot be
passed, with what is wrong there, and it succeeds if there is none.  That is one induction over
setups; which producers ran by then and which relations were registered are inductions over
the list of moments.
-/
import CallOrder.CallPlan
import CallOrder.Proofs.Transcript

namespace CallOrder

/-! ### The moments of an evaluation -/

/-- What happens at one time while a setup is evaluated. -/
inductive Moment (π : Type) where
  /-- A producer runs. -/
  | leaf (producer : π)
  /-- A part of an independent setup is complete. -/
  | part (setup : Setup π)
  /-- What a range is taken of is complete. -/
  | whole (setup : Setup π)

variable {π σ ι : Type}

/-- The producer that runs. -/
def Moment.producer? : Moment π → Option π
  | leaf producer => some producer
  | _ => none

namespace Setup

/-- The moments of an evaluation, in order. -/
def moments : Setup π → List (Moment π)
  | leaf producer => [.leaf producer]
  | independent parts => momentsApart parts
  | chain parts => momentsAll parts
  | parallel parts => momentsAll parts
  | detach _ part => moments part
  | range _ _ part => moments part ++ [.whole part]
where
  /-- The moments of several setups. -/
  momentsAll : List (Setup π) → List (Moment π)
    | [] => []
    | part :: rest => moments part ++ momentsAll rest
  /-- The moments of several setups, each complete in itself. -/
  momentsApart : List (Setup π) → List (Moment π)
    | [] => []
    | part :: rest => moments part ++ .part part :: momentsApart rest

/-- What a setup comes to if its producers come to these trees, from left to right. -/
def tree : Setup π → List (Node ι) → Node ι
  | leaf _, trees => trees.headD .empty
  | independent _, _ => .empty
  | chain parts, trees => .chain ((treeEach parts trees).flatMap Node.links)
  | parallel parts, trees => .parallel (treeEach parts trees)
  | detach mode part, trees => (tree part trees).detached mode
  | range p q part, trees => (tree part trees).between p q
where
  /-- What each of several setups comes to. -/
  treeEach : List (Setup π) → List (Node ι) → List (Node ι)
    | [], _ => []
    | part :: rest, trees =>
      tree part (trees.take part.leaves.length) :: treeEach rest (trees.drop part.leaves.length)

/-- What a setup comes to if its producers were the last to run. -/
def latest (setup : Setup π) (trees : List (Node ι)) : Node ι :=
  setup.tree (trees.drop (trees.length - setup.leaves.length))

theorem latest_append (setup : Setup π) (trees : List (Node ι)) {own : List (Node ι)}
    (h : own.length = setup.leaves.length) : setup.latest (trees ++ own) = setup.tree own := by
  rw [latest, List.length_append, h, Nat.add_sub_cancel, List.drop_left]

/-- The trees are those of the setup's producers, and make up the tree that is told. -/
structure Yields (setup : Setup π) (n : Node ι) (own : List (Node ι)) : Prop where
  length : own.length = setup.leaves.length
  tree : setup.tree own = n

/-- The trees are those of the setups' producers, and make up the trees that are told. -/
structure YieldEach (parts : List (Setup π)) (ns own : List (Node ι)) : Prop where
  length : own.length = (leaves.leavesAll parts).length
  trees : tree.treeEach parts own = ns

theorem YieldEach.cons {part : Setup π} {rest : List (Setup π)} {n : Node ι}
    {ns own more : List (Node ι)} (h : part.Yields n own) (hrest : YieldEach rest ns more) :
    YieldEach (part :: rest) (n :: ns) (own ++ more) where
  length := by
    rw [List.length_append, h.length, hrest.length, leaves.leavesAll, List.length_append]
  trees := by
    rw [tree.treeEach, List.take_left' h.length, List.drop_left' h.length, h.tree, hrest.trees]

/-- Whether nothing in it is complete in itself: neither an independent setup nor a range. -/
def isDeferring : Setup π → Bool
  | leaf _ => true
  | independent _ => false
  | chain parts => allDeferring parts
  | parallel parts => allDeferring parts
  | detach _ part => isDeferring part
  | range _ _ _ => false
where
  /-- Whether that holds of several setups. -/
  allDeferring : List (Setup π) → Bool
    | [] => true
    | part :: rest => isDeferring part && allDeferring rest

mutual

/-- Each producer runs once for each place it stands at, from left to right. -/
theorem producers_moments : ∀ setup : Setup π,
    setup.moments.filterMap Moment.producer? = setup.leaves
  | leaf _ => rfl
  | independent parts => producers_momentsApart parts
  | chain parts => producers_momentsAll parts
  | parallel parts => producers_momentsAll parts
  | detach _ part => producers_moments part
  | range _ _ part => by
      rw [moments, List.filterMap_append, producers_moments part]
      exact List.append_nil _

theorem producers_momentsAll : ∀ parts : List (Setup π),
    (moments.momentsAll parts).filterMap Moment.producer? = leaves.leavesAll parts
  | [] => rfl
  | part :: rest => by
      rw [moments.momentsAll, List.filterMap_append, producers_moments part,
        producers_momentsAll rest, leaves.leavesAll]

theorem producers_momentsApart : ∀ parts : List (Setup π),
    (moments.momentsApart parts).filterMap Moment.producer? = leaves.leavesAll parts
  | [] => rfl
  | part :: rest => by
      rw [moments.momentsApart, List.filterMap_append, producers_moments part,
        List.filterMap_cons_none rfl, producers_momentsApart rest, leaves.leavesAll]

end

mutual

/-- Where nothing is complete in itself, producers run and that is all. -/
theorem moments_of_isDeferring : ∀ setup : Setup π, setup.isDeferring = true →
    setup.moments = setup.leaves.map .leaf
  | leaf _, _ => rfl
  | chain parts, h => momentsAll_of_allDeferring parts h
  | parallel parts, h => momentsAll_of_allDeferring parts h
  | detach _ part, h => moments_of_isDeferring part h

theorem momentsAll_of_allDeferring : ∀ parts : List (Setup π),
    isDeferring.allDeferring parts = true →
      moments.momentsAll parts = (leaves.leavesAll parts).map .leaf
  | [], _ => rfl
  | part :: rest, h => by
      obtain ⟨hpart, hrest⟩ := Bool.and_eq_true_iff.mp h
      rw [moments.momentsAll, moments_of_isDeferring part hpart,
        momentsAll_of_allDeferring rest hrest, leaves.leavesAll, List.map_append]

end

end Setup

/-! ### Passing moments -/

/-- How far an evaluation has come: its state, the trees that producers came to and the relations
that were registered. -/
structure Progress (σ ι : Type) where
  state : σ
  trees : List (Node ι) := []
  relations : List (Constraint ι) := []

namespace Stage

/-- Registers what a tree says of its own expectations. -/
def settle [DecidableEq ι] (stage : Stage π σ ι) (n : Node ι) (p : Progress σ ι) :
    Progress σ ι :=
  { p with
    state := (n.propagate []).constraints.foldl (fun t c => stage.order c t) p.state
    relations := p.relations ++ (n.propagate []).constraints }

/-- Why a moment cannot be passed, and the state it leaves. -/
inductive Stops (stage : Stage π σ ι) (p : Progress σ ι) : Moment π → Failure → σ → Prop where
  /-- The producer fails. -/
  | leaf {producer : π} {f : Failure} (fails : (stage.produce producer p.state).result = .error f) :
      Stops stage p (.leaf producer) f (stage.produce producer p.state).state
  /-- A range is to be taken of a detached group. -/
  | whole {setup : Setup π} {side : Cut} (detached : (setup.latest p.trees).cut? = some side) :
      Stops stage p (.whole setup) (.setup (.detachedRange (.cut side))) p.state

variable [DecidableEq ι]

/-- Passes a moment, or tells why not and which state is left. -/
def meet (stage : Stage π σ ι) (p : Progress σ ι) :
    Moment π → Except (Failure × σ) (Progress σ ι)
  | .leaf producer =>
    let o := stage.produce producer p.state
    match o.result with
    | .ok n => .ok { p with state := o.state, trees := p.trees ++ [n] }
    | .error f => .error (f, o.state)
  | .part setup => .ok (stage.settle (setup.latest p.trees) p)
  | .whole setup =>
    match (setup.latest p.trees).cut? with
    | some side => .error (.setup (.detachedRange (.cut side)), p.state)
    | none => .ok (stage.settle (setup.latest p.trees) p)

/-- Passes moments one after another. -/
def pass (stage : Stage π σ ι) (moments : List (Moment π)) (p : Progress σ ι) :
    Except (Failure × σ) (Progress σ ι) :=
  moments.foldlM stage.meet p

variable {stage : Stage π σ ι} {p : Progress σ ι}

theorem meet_eq_error_iff {moment : Moment π} {f : Failure} {u : σ} :
    stage.meet p moment = .error (f, u) ↔ stage.Stops p moment f u := by
  constructor
  · intro h
    cases moment with
    | leaf producer =>
        cases hp : (stage.produce producer p.state).result with
        | ok n => simp [meet, hp] at h
        | error g =>
            simp only [meet, hp, Except.error.injEq, Prod.mk.injEq] at h
            obtain ⟨rfl, rfl⟩ := h
            exact .leaf hp
    | part setup => cases h
    | whole setup =>
        cases hcut : (setup.latest p.trees).cut? with
        | none => simp [meet, hcut] at h
        | some side =>
            simp only [meet, hcut, Except.error.injEq, Prod.mk.injEq] at h
            obtain ⟨rfl, rfl⟩ := h
            exact .whole hcut
  · intro h
    cases h with
    | leaf fails => simp only [meet, fails]
    | whole detached => simp only [meet, detached]

@[simp] theorem pass_nil : stage.pass [] p = .ok p := rfl

theorem pass_cons (moment : Moment π) (rest : List (Moment π)) :
    stage.pass (moment :: rest) p = stage.meet p moment >>= stage.pass rest :=
  List.foldlM_cons

theorem pass_append (moments later : List (Moment π)) :
    stage.pass (moments ++ later) p = stage.pass moments p >>= stage.pass later :=
  List.foldlM_append

/-- Passing moments fails at the first that cannot be passed. -/
theorem pass_eq_error_iff {moments : List (Moment π)} {f : Failure} {u : σ} :
    stage.pass moments p = .error (f, u) ↔
      ∃ before moment later q, moments = before ++ moment :: later ∧
        stage.pass before p = .ok q ∧ stage.Stops q moment f u := by
  constructor
  · intro h
    induction moments generalizing p with
    | nil => cases h
    | cons moment rest ih =>
        rw [pass_cons] at h
        cases hmoment : stage.meet p moment with
        | error stopped =>
            rw [hmoment] at h
            cases h
            exact ⟨[], moment, rest, p, rfl, rfl, meet_eq_error_iff.mp hmoment⟩
        | ok q =>
            rw [hmoment] at h
            obtain ⟨before, next, later, r, rfl, hbefore, hstops⟩ := ih h
            refine ⟨moment :: before, next, later, r, rfl, ?_, hstops⟩
            rw [pass_cons, hmoment]
            exact hbefore
  · intro h
    obtain ⟨before, moment, later, q, rfl, hbefore, hstops⟩ := h
    rw [pass_append, hbefore]
    show stage.pass (moment :: later) q = _
    rw [pass_cons, meet_eq_error_iff.mpr hstops]
    rfl

/-- A producer that runs registers nothing. -/
theorem relations_of_pass_leaf {producers : List π} {q : Progress σ ι}
    (h : stage.pass (producers.map .leaf) p = .ok q) : q.relations = p.relations := by
  induction producers generalizing p with
  | nil =>
      cases h
      rfl
  | cons producer rest ih =>
      rw [List.map_cons, pass_cons, meet] at h
      cases hproducer : (stage.produce producer p.state).result with
      | error f =>
          rw [hproducer] at h
          cases h
      | ok n =>
          rw [hproducer] at h
          have hrest : stage.pass (rest.map .leaf)
              { p with
                state := (stage.produce producer p.state).state
                trees := p.trees ++ [n] } = .ok q := h
          have hq := ih hrest
          exact hq

/-! ### Evaluating -/

/-- The attempt does what passing the moments does: it fails as that does, and if it succeeds,
then so does that, with trees as is said of the value. -/
structure Follows {α : Type} (stage : Stage π σ ι) (x : Attempt σ α) (moments : List (Moment π))
    (p : Progress σ ι) (post : α → List (Node ι) → Prop) : Prop where
  fails : ∀ f, (x p.state).result = .error f →
    stage.pass moments p = .error (f, (x p.state).state)
  gives : ∀ a, (x p.state).result = .ok a →
    ∃ q own, stage.pass moments p = .ok q ∧ q.state = (x p.state).state ∧
      q.trees = p.trees ++ own ∧ post a own

namespace Follows

variable {α β : Type} {x : Attempt σ α} {moments later : List (Moment π)}
  {post : α → List (Node ι) → Prop}

protected theorem pure {a : α} (h : post a []) : stage.Follows (pure a) [] p post where
  fails _ hx := by cases hx
  gives _ hx := by
    cases hx
    exact ⟨p, [], rfl, rfl, (List.append_nil _).symm, h⟩

theorem bind {next : α → Attempt σ β} {post' : β → List (Node ι) → Prop}
    (h : stage.Follows x moments p post)
    (hnext : ∀ a own q, post a own → q.trees = p.trees ++ own →
      stage.Follows (next a) later q fun b more => post' b (own ++ more)) :
    stage.Follows (x >>= next) (moments ++ later) p post' := by
  rcases hx : x p.state with ⟨g | a, t, events⟩
  · have hpass : stage.pass (moments ++ later) p = .error (g, t) := by
      rw [pass_append, h.fails g (by rw [hx]), hx]
      rfl
    refine ⟨fun f hf => ?_, fun b hb => ?_⟩
    · rw [Attempt.bind_apply, hx] at hf ⊢
      cases hf
      exact hpass
    · rw [Attempt.bind_apply, hx] at hb
      cases hb
  · obtain ⟨q, own, hq, hstate, htrees, hpost⟩ := h.gives a (by rw [hx])
    have hlater := hnext a own q hpost htrees
    have hpass : stage.pass (moments ++ later) p = stage.pass later q := by
      rw [pass_append, hq]
      rfl
    have hbind : (x >>= next) p.state = (next a q.state).after events := by
      rw [Attempt.bind_apply, hx, hstate, hx]
    refine ⟨fun f hf => ?_, fun b hb => ?_⟩
    · rw [hbind] at hf ⊢
      rw [hpass]
      exact hlater.fails f hf
    · rw [hbind] at hb ⊢
      obtain ⟨r, more, hr, hrstate, hrtrees, hrpost⟩ := hlater.gives b hb
      refine ⟨r, own ++ more, hpass.trans hr, hrstate, ?_, hrpost⟩
      rw [hrtrees, htrees, List.append_assoc]

theorem mono {post' : α → List (Node ι) → Prop} (h : stage.Follows x moments p post)
    (hpost : ∀ a own, post a own → post' a own) : stage.Follows x moments p post' where
  fails := h.fails
  gives a ha := by
    obtain ⟨q, own, hq, hstate, htrees, ha⟩ := h.gives a ha
    exact ⟨q, own, hq, hstate, htrees, hpost a own ha⟩

protected theorem fail {moment : Moment π} {f : Failure}
    (h : stage.Stops p moment f p.state) :
    stage.Follows (Attempt.fail f : Attempt σ α) [moment] p post where
  fails g hg := by
    cases hg
    rw [pass_cons, meet_eq_error_iff.mpr h]
    rfl
  gives _ hx := by cases hx

/-- What follows without a moment of its own only makes something of the value. -/
theorem map {f : α → β} {post' : β → List (Node ι) → Prop} (h : stage.Follows x moments p post)
    (hf : ∀ a own, post a own → post' (f a) own) :
    stage.Follows (x >>= fun a => pure (f a)) moments p post' := by
  rw [← List.append_nil moments]
  refine h.bind fun a own q hpost _ => .pure ?_
  rw [List.append_nil]
  exact hf a own hpost

/-- It fails exactly if a moment cannot be passed. -/
theorem fails_iff (h : stage.Follows x moments p post) {f : Failure} {u : σ} :
    (x p.state).result = .error f ∧ (x p.state).state = u ↔
      stage.pass moments p = .error (f, u) := by
  constructor
  · intro hx
    obtain ⟨hresult, rfl⟩ := hx
    exact h.fails f hresult
  · intro hpass
    cases hresult : (x p.state).result with
    | error g =>
        cases (h.fails g hresult).symm.trans hpass
        exact ⟨rfl, rfl⟩
    | ok a =>
        obtain ⟨q, own, hq, -⟩ := h.gives a hresult
        cases hq.symm.trans hpass

end Follows

theorem follows_produce (stage : Stage π σ ι) (producer : π) (p : Progress σ ι) :
    stage.Follows (stage.produce producer) [.leaf producer] p fun n own => own = [n] := by
  refine ⟨fun f hf => ?_, fun n hn => ?_⟩
  · rw [pass_cons, meet_eq_error_iff.mpr (.leaf hf)]
    rfl
  · let o := stage.produce producer p.state
    refine ⟨{ p with state := o.state, trees := p.trees ++ [n] }, [n], ?_, rfl, rfl, rfl⟩
    rw [pass_cons, meet, hn]
    rfl

/-- Producers that run one after another pass their moments. -/
theorem follows_forEach (stage : Stage π σ ι) : ∀ (producers : List π) (p : Progress σ ι),
    stage.Follows (Attempt.forEach stage.produce producers) (producers.map .leaf) p
      fun ns own => own = ns
  | [], _ => .pure rfl
  | producer :: rest, p =>
      (stage.follows_produce producer p).bind fun n own q hown _ =>
        (stage.follows_forEach rest q).map fun ns more hmore => by
          rw [hown, hmore, List.singleton_append]

/-- Registering what a tree says passes a moment at which the tree is complete. -/
theorem follows_register {stage : Stage π σ ι} {n : Node ι} {moment : Moment π}
    {p : Progress σ ι} (h : stage.meet p moment = .ok (stage.settle n p)) :
    stage.Follows (stage.register (n.propagate []).constraints) [moment] p
      fun _ own => own = [] where
  fails f hf := by cases hf
  gives _ _ := by
    refine ⟨stage.settle n p, [], ?_, rfl, (List.append_nil _).symm, rfl⟩
    rw [pass_cons, h]
    rfl

mutual

/-- **An evaluation does what passing its moments one by one does.** -/
theorem follows_build (stage : Stage π σ ι) : ∀ (setup : Setup π) (p : Progress σ ι),
    stage.Follows (setup.build stage) setup.moments p setup.Yields
  | .leaf producer, p =>
      (stage.follows_produce producer p).mono fun n own h => by subst h; exact ⟨rfl, rfl⟩
  | .independent parts, p =>
      (stage.follows_registerEach parts p).map fun _ _ h => ⟨h, rfl⟩
  | .chain parts, p =>
      (stage.follows_buildEach parts p).map fun ns own h =>
        ⟨h.length, by rw [Setup.tree, h.trees]⟩
  | .parallel parts, p =>
      (stage.follows_buildEach parts p).map fun ns own h =>
        ⟨h.length, by rw [Setup.tree, h.trees]⟩
  | .detach mode part, p =>
      (stage.follows_build part p).map fun n own h => ⟨h.length, by rw [Setup.tree, h.tree]⟩
  | .range i j part, p => by
      refine (stage.follows_build part p).bind fun n own q h htrees => ?_
      have hlatest : part.latest q.trees = n := by
        rw [htrees, part.latest_append p.trees h.length, h.tree]
      cases hcut : n.cut? with
      | some side => exact .fail (.whole (by rw [hlatest, hcut]))
      | none =>
          have hmeet : stage.meet q (.whole part) = .ok (stage.settle n q) := by
            rw [meet, hlatest, hcut]
          refine (follows_register hmeet).map fun _ more hmore => ?_
          subst hmore
          rw [List.append_nil]
          exact ⟨h.length, by rw [Setup.tree, h.tree]⟩

theorem follows_buildEach (stage : Stage π σ ι) : ∀ (parts : List (Setup π)) (p : Progress σ ι),
    stage.Follows (Setup.build.buildEach stage parts) (Setup.moments.momentsAll parts) p
      (Setup.YieldEach parts)
  | [], _ => .pure ⟨rfl, rfl⟩
  | part :: rest, p =>
      (stage.follows_build part p).bind fun _ _ q hpart _ =>
        (stage.follows_buildEach rest q).map fun _ _ hrest => .cons hpart hrest

theorem follows_registerEach (stage : Stage π σ ι) :
    ∀ (parts : List (Setup π)) (p : Progress σ ι),
      stage.Follows (Setup.build.registerEach stage parts) (Setup.moments.momentsApart parts) p
        fun _ own => own.length = (Setup.leaves.leavesAll parts).length
  | [], p => .pure rfl
  | part :: rest, p => by
      refine (stage.follows_build part p).bind fun n own q h htrees => ?_
      have hmeet : stage.meet q (.part part) = .ok (stage.settle n q) := by
        rw [meet, htrees, part.latest_append p.trees h.length, h.tree]
      rw [n.constraints_detached_both]
      refine (follows_register hmeet).bind fun _ more r hmore _ => ?_
      subst hmore
      refine (stage.follows_registerEach rest r).mono fun _ later hlater => ?_
      rw [List.nil_append, List.length_append, h.length, hlater, Setup.leaves.leavesAll,
        List.length_append]

end

end Stage

namespace Setup

variable [DecidableEq ι] {stage : Stage π σ ι} {setup : Setup π} {s : σ}

/-- A setup is evaluated to the end if every moment can be passed. -/
theorem gives_build_iff_pass {n : Node ι} {t : σ} :
    (setup.build stage).Gives s n t ↔
      ∃ p, stage.pass setup.moments { state := s } = .ok p ∧ setup.tree p.trees = n ∧
        p.state = t := by
  have h := stage.follows_build setup { state := s }
  rw [Attempt.gives_iff]
  constructor
  · intro hbuild
    obtain ⟨hresult, rfl⟩ := hbuild
    obtain ⟨p, own, hp, hstate, htrees, hown⟩ := h.gives n hresult
    refine ⟨p, hp, ?_, hstate⟩
    rw [htrees]
    exact hown.tree
  · intro hpass
    obtain ⟨p, hp, rfl, rfl⟩ := hpass
    cases hresult : (setup.build stage s).result with
    | error f => cases (h.fails f hresult).symm.trans hp
    | ok n =>
        obtain ⟨q, own, hq, hstate, htrees, hown⟩ := h.gives n hresult
        obtain rfl := Except.ok.inj (hq.symm.trans hp)
        refine ⟨?_, hstate.symm⟩
        rw [htrees]
        exact congrArg _ hown.tree.symm

/-- It fails as the first moment does that cannot be passed. -/
theorem fails_build_iff_pass {f : Failure} {u : σ} :
    (setup.build stage s).result = .error f ∧ (setup.build stage s).state = u ↔
      stage.pass setup.moments { state := s } = .error (f, u) :=
  (stage.follows_build setup { state := s }).fails_iff

end Setup

/-! ### What was done by then -/

/-- Which producers ran and which relations were registered, each in order. -/
structure Diary (π ι : Type) where
  producers : List π := []
  relations : List (Constraint ι) := []

namespace Stage

/-- The stage with a diary beside its state. -/
def watched (stage : Stage π σ ι) : Stage π (σ × Diary π ι) ι where
  produce producer s :=
    let o := stage.produce producer s.1
    ⟨o.result, (o.state, { s.2 with producers := s.2.producers ++ [producer] }), o.events⟩
  order c s := (stage.order c s.1, { s.2 with relations := s.2.relations ++ [c] })
  event s := stage.event s.1

theorem foldl_order_watched (stage : Stage π σ ι) (constraints : List (Constraint ι)) (s : σ)
    (d : Diary π ι) :
    constraints.foldl (fun t c => stage.watched.order c t) (s, d)
      = (constraints.foldl (fun t c => stage.order c t) s,
          { d with relations := d.relations ++ constraints }) := by
  induction constraints generalizing s d with
  | nil => rw [List.foldl_nil, List.foldl_nil, List.append_nil]
  | cons c rest ih =>
      refine (ih (stage.order c s) { d with relations := d.relations ++ [c] }).trans ?_
      rw [List.foldl_cons, List.append_assoc, List.singleton_append]

end Stage

/-- The same progress where a diary is kept. -/
def Progress.beside (p : Progress σ ι) (producers : List π) : Progress (σ × Diary π ι) ι :=
  { p with state := (p.state, { producers, relations := p.relations }) }

namespace Stage

variable [DecidableEq ι] {stage : Stage π σ ι} {p q : Progress σ ι} {moment : Moment π}
  {moments : List (Moment π)} {producers : List π}

theorem meet_watched (h : stage.meet p moment = .ok q) :
    stage.watched.meet (p.beside producers) moment
      = .ok (q.beside (producers ++ moment.producer?.toList)) := by
  cases moment with
  | leaf producer =>
      cases hp : (stage.produce producer p.state).result with
      | error f => simp [meet, hp] at h
      | ok n =>
          simp only [meet, hp, Except.ok.injEq] at h
          subst h
          simp only [meet, watched, Progress.beside, hp, Moment.producer?, Option.toList_some]
  | part setup =>
      cases h
      simp only [meet, settle, Progress.beside, foldl_order_watched, Moment.producer?,
        Option.toList_none, List.append_nil]
  | whole setup =>
      cases hcut : (setup.latest p.trees).cut? with
      | some side => simp [meet, hcut] at h
      | none =>
          simp only [meet, hcut, Except.ok.injEq] at h
          subst h
          simp only [meet, hcut, settle, Progress.beside, foldl_order_watched, Moment.producer?,
            Option.toList_none, List.append_nil]

theorem pass_watched (producers : List π) (h : stage.pass moments p = .ok q) :
    stage.watched.pass moments (p.beside producers)
      = .ok (q.beside (producers ++ moments.filterMap Moment.producer?)) := by
  induction moments generalizing p producers with
  | nil =>
      cases h
      rw [List.filterMap_nil, List.append_nil, pass_nil]
  | cons moment rest ih =>
      rw [pass_cons] at h ⊢
      cases hmoment : stage.meet p moment with
      | error stopped =>
          rw [hmoment] at h
          cases h
      | ok r =>
          rw [hmoment] at h
          rw [meet_watched hmoment]
          refine (ih _ h).trans ?_
          cases hproducer : moment.producer? <;> simp [hproducer]

omit [DecidableEq ι] in
theorem Stops.watched {f : Failure} {u : σ} (h : stage.Stops p moment f u) :
    stage.watched.Stops (p.beside producers) moment f
      (u, { producers := producers ++ moment.producer?.toList, relations := p.relations }) := by
  cases h with
  | leaf fails => exact .leaf fails
  | whole detached =>
      simp only [Moment.producer?, Option.toList_none, List.append_nil]
      exact .whole detached

theorem pass_watched_of_stops (producers : List π) {before : List (Moment π)}
    (later : List (Moment π)) {f : Failure} {u : σ} (hbefore : stage.pass before p = .ok q)
    (hstops : stage.Stops q moment f u) :
    stage.watched.pass (before ++ moment :: later) (p.beside producers) =
      .error (f, (u,
        { producers := producers ++ before.filterMap Moment.producer? ++ moment.producer?.toList
          relations := q.relations })) :=
  pass_eq_error_iff.mpr
    ⟨before, moment, later, _, rfl, pass_watched producers hbefore, hstops.watched⟩

end Stage

namespace Setup

variable [DecidableEq ι]

/-- What an evaluation does. -/
def diary (stage : Stage π σ ι) (setup : Setup π) (s : σ) : Diary π ι :=
  (setup.build stage.watched (s, {})).state.2

variable {stage : Stage π σ ι} {setup : Setup π} {s : σ} {p : Progress σ ι}

theorem diary_of_pass (h : stage.pass setup.moments { state := s } = .ok p) :
    setup.diary stage s = { producers := setup.leaves, relations := p.relations } := by
  have hpass := Stage.pass_watched [] h
  rw [List.nil_append, setup.producers_moments] at hpass
  obtain ⟨-, hstate⟩ := Attempt.gives_iff.mp (gives_build_iff_pass.mpr ⟨_, hpass, rfl, rfl⟩)
  exact congrArg Prod.snd hstate

theorem diary_of_stops {before later : List (Moment π)} {moment : Moment π} {f : Failure} {u : σ}
    (hmoments : setup.moments = before ++ moment :: later)
    (hbefore : stage.pass before { state := s } = .ok p) (hstops : stage.Stops p moment f u) :
    setup.diary stage s =
      { producers := (before ++ [moment]).filterMap Moment.producer?
        relations := p.relations } := by
  have hpass := Stage.pass_watched_of_stops [] later hbefore hstops
  rw [← hmoments, List.nil_append] at hpass
  obtain ⟨-, hstate⟩ := fails_build_iff_pass.mpr hpass
  rw [diary, hstate]
  cases hproducer : moment.producer? <;> simp [hproducer]

/-- Keeping a diary changes nothing in what is told there. -/
theorem build_watched (stage : Stage π σ ι) (setup : Setup π) (s : σ) :
    (setup.build stage.watched (s, {})).result = (setup.build stage s).result ∧
      (setup.build stage.watched (s, {})).state.1 = (setup.build stage s).state := by
  cases hpass : stage.pass setup.moments { state := s } with
  | ok p =>
      have hwatched := Stage.pass_watched [] hpass
      obtain ⟨hresult, hstate⟩ :=
        Attempt.gives_iff.mp (gives_build_iff_pass.mpr ⟨p, hpass, rfl, rfl⟩)
      obtain ⟨hresult', hstate'⟩ :=
        Attempt.gives_iff.mp (gives_build_iff_pass.mpr ⟨_, hwatched, rfl, rfl⟩)
      exact ⟨hresult'.trans hresult.symm, (congrArg Prod.fst hstate').trans hstate.symm⟩
  | error stopped =>
      obtain ⟨f, u⟩ := stopped
      obtain ⟨before, moment, later, p, hmoments, hbefore, hstops⟩ :=
        Stage.pass_eq_error_iff.mp hpass
      have hwatched := Stage.pass_watched_of_stops [] later hbefore hstops
      rw [← hmoments] at hwatched
      obtain ⟨hresult, hstate⟩ := fails_build_iff_pass.mpr hpass
      obtain ⟨hresult', hstate'⟩ := fails_build_iff_pass.mpr hwatched
      exact ⟨hresult'.trans hresult.symm, (congrArg Prod.fst hstate').trans hstate.symm⟩

end Setup

/-! ### Expecting a setup -/

namespace Handler

variable {κ : Type} [Collaborator κ ι] [DecidableEq ι]
  {produce : π → Attempt (Handler κ) (Node ι)} {setup : Setup π} {h : Handler κ}

/-- It fails to be expected as it fails to be evaluated. -/
theorem fails_expect_iff {f : Failure} {u : Handler κ} :
    (expect produce setup h).result = .error f ∧ (expect produce setup h).state = u ↔
      ((Setup.independent [setup]).build (stage produce) h).result = .error f ∧
        ((Setup.independent [setup]).build (stage produce) h).state = u := by
  obtain ⟨hstate, hresult⟩ := expect_apply produce setup h
  rw [hstate, hresult]
  cases ((Setup.independent [setup]).build (stage produce) h).result <;> simp [Except.map]

/-- If nothing in it is complete in itself, a setup fails to be expected as its producers fail
that run one after another, and nothing else was done. -/
theorem fails_expect_of_isDeferring {f : Failure} (hdeferring : setup.isDeferring = true)
    (hf : (expect produce setup h).result = .error f) :
    (Attempt.forEach produce setup.leaves h).result = .error f ∧
      (Attempt.forEach produce setup.leaves h).state = (expect produce setup h).state ∧
      ((Setup.independent [setup]).diary (stage produce) h).relations = [] := by
  have hmoments : (Setup.independent [setup]).moments = setup.leaves.map .leaf ++ [.part setup] := by
    rw [← setup.moments_of_isDeferring hdeferring]
    rfl
  have hstops := Setup.fails_build_iff_pass.mp (fails_expect_iff.mp ⟨hf, rfl⟩)
  rw [hmoments] at hstops
  cases hleaves : (stage produce).pass (setup.leaves.map .leaf) { state := h } with
  | ok q =>
      rw [Stage.pass_append, hleaves] at hstops
      cases hstops
  | error stopped =>
      have hfails := hstops
      rw [Stage.pass_append, hleaves] at hfails
      cases hfails
      obtain ⟨hresult, hstate⟩ := ((stage produce).follows_forEach _ _).fails_iff.mpr hleaves
      refine ⟨hresult, hstate, ?_⟩
      obtain ⟨before, moment, later, q, hleaf, hbefore, hmoment⟩ :=
        Stage.pass_eq_error_iff.mp hleaves
      obtain ⟨producers, rest, hproducers, rfl, hrest⟩ := List.map_eq_append_iff.mp hleaf
      have hall : (Setup.independent [setup]).moments
          = producers.map .leaf ++ moment :: (later ++ [.part setup]) := by
        rw [hmoments, hleaf, List.append_assoc, List.cons_append]
      rw [Setup.diary_of_stops hall hbefore hmoment]
      exact Stage.relations_of_pass_leaf hbefore

/-- **The first failure wins.**  The producers of a setup run from left to right, each once for
each place it stands at.  Evaluation succeeds if every moment is passed, and fails if there is a
first that is not: a producer fails there, or a range is to be taken of a detached group.  The
failure is the one found there; no later producer ran; and nothing is registered but what the
parts of independent setups and the ranges say that were complete before.  So if there are none
of these in a setup and it fails to be expected, then its producers ran and no relation is
registered.  The diary that tells of it is kept by the evaluation itself, which comes to the same
with it as without. -/
theorem first_failure_wins (produce : π → Attempt (Handler κ) (Node ι)) (setup : Setup π)
    (h : Handler κ) :
    setup.moments.filterMap Moment.producer? = setup.leaves ∧
    (∀ n t, (setup.build (stage produce)).Gives h n t ↔
      ∃ p, (stage produce).pass setup.moments { state := h } = .ok p ∧ setup.tree p.trees = n ∧
        p.state = t) ∧
    (∀ p, (stage produce).pass setup.moments { state := h } = .ok p →
      setup.diary (stage produce) h = { producers := setup.leaves, relations := p.relations }) ∧
    (∀ f u, ((setup.build (stage produce) h).result = .error f ∧
        (setup.build (stage produce) h).state = u) ↔
      ∃ before moment later p, setup.moments = before ++ moment :: later ∧
        (stage produce).pass before { state := h } = .ok p ∧
        (stage produce).Stops p moment f u) ∧
    (∀ before moment later p f u, setup.moments = before ++ moment :: later →
      (stage produce).pass before { state := h } = .ok p → (stage produce).Stops p moment f u →
        setup.diary (stage produce) h =
          { producers := (before ++ [moment]).filterMap Moment.producer?
            relations := p.relations }) ∧
    (∀ f, setup.isDeferring = true → (expect produce setup h).result = .error f →
      (Attempt.forEach produce setup.leaves h).result = .error f ∧
      (Attempt.forEach produce setup.leaves h).state = (expect produce setup h).state ∧
      ((Setup.independent [setup]).diary (stage produce) h).relations = []) ∧
    (setup.build (stage produce).watched (h, {})).result = (setup.build (stage produce) h).result ∧
    (setup.build (stage produce).watched (h, {})).state =
      ((setup.build (stage produce) h).state, setup.diary (stage produce) h) := by
  obtain ⟨hresult, hstate⟩ := Setup.build_watched (stage produce) setup h
  refine ⟨setup.producers_moments, fun n t => Setup.gives_build_iff_pass,
    fun p hp => Setup.diary_of_pass hp, fun f u => ?_,
    fun before moment later p f u hmoments hbefore hstops =>
      Setup.diary_of_stops hmoments hbefore hstops,
    fun f hdeferring hf => fails_expect_of_isDeferring hdeferring hf, hresult,
    Prod.ext hstate rfl⟩
  rw [Setup.fails_build_iff_pass, Stage.pass_eq_error_iff]

end Handler

/-- A knock before a ring is complete in itself, and then nothing can be taken of a door that is
detached: knock and ring stay ordered, and the last producer never runs.  Where the same calls are
only chained, nothing is ordered before the last producer fails. -/
theorem refused_after_knock_and_ring :
    let b := Bench.start .recording {} 1 0
    let knock : Producer := .declare { call := ⟨"door", "knock", []⟩ }
    let ring : Producer := .declare { call := ⟨"bell", "ring", []⟩ }
    let enter : Producer := .declare { call := ⟨"door", "open", []⟩ }
    let visit : Setup Producer := .chain
      [.independent [.chain [.leaf knock, .leaf ring]],
        .range 0 0 (.detach (.cut .head) (.leaf enter)), .leaf .recorder]
    let plain : Setup Producer := .chain [.leaf knock, .leaf ring, .leaf .recorder]
    let stage := Handler.stage Producer.produce
    (visit.build stage b).result = .error (.setup (.detachedRange (.cut .head))) ∧
    visit.diary stage b =
      { producers := [knock, ring, enter], relations := [⟨⟨0, 1⟩, ⟨0, 0⟩⟩] } ∧
    (Handler.expect Producer.produce plain b).result
      = .error (.setup (.notAnExpectation Producer.recorderType)) ∧
    ((Setup.independent [plain]).diary stage b).relations = [] := by
  intro b knock ring enter visit plain stage
  obtain ⟨-, -, -, hfails, hdiary, -⟩ := Handler.first_failure_wins Producer.produce visit b
  obtain ⟨-, -, -, -, -, hexpect, -⟩ := Handler.first_failure_wins Producer.produce plain b
  let detached : Setup Producer := .detach (.cut .head) (.leaf enter)
  let before : List (Moment Producer) :=
    [.leaf knock, .leaf ring, .part (.chain [.leaf knock, .leaf ring]), .leaf enter]
  have hmoments : visit.moments = before ++ .whole detached :: [.leaf .recorder] := rfl
  obtain ⟨p, hp, hrelations, hcut⟩ : ∃ p, stage.pass before { state := b } = .ok p ∧
      p.relations = [⟨⟨0, 1⟩, ⟨0, 0⟩⟩] ∧ (detached.latest p.trees).cut? = some .head := by
    have hfound : (stage.pass before { state := b }).toOption.map
        (fun p => (p.relations, (detached.latest p.trees).cut?))
          = some ([⟨⟨0, 1⟩, ⟨0, 0⟩⟩], some .head) := by
      decide +kernel
    cases hp : stage.pass before { state := b } with
    | error stopped =>
        rw [hp] at hfound
        cases hfound
    | ok p =>
        rw [hp] at hfound
        obtain ⟨hrelations, hcut⟩ := Prod.mk.inj (Option.some.inj hfound)
        exact ⟨p, rfl, hrelations, hcut⟩
  have hstops : stage.Stops p (.whole detached) _ _ := .whole hcut
  have hdone := hdiary _ _ _ p _ _ hmoments hp hstops
  rw [hrelations] at hdone
  have hplain : (Handler.expect Producer.produce plain b).result
      = .error (.setup (.notAnExpectation Producer.recorderType)) := rfl
  exact ⟨((hfails _ _).mpr ⟨_, _, _, p, hmoments, hp, hstops⟩).1, hdone, hplain,
    (hexpect _ rfl hplain).2.2⟩

end CallOrder
