import Mathlib.Data.List.Forall2
import Mathlib.Logic.Relation
import StoragePlan.Proofs.Gradient.Storage

set_option autoImplicit false

namespace StoragePlan

open Relation

namespace Backward

def Feeds (b : Backward) (producer reader : Nat) : Prop :=
  ∃ op op' blob, b.ops[producer]? = some op ∧ b.ops[reader]? = some op' ∧ blob ∈ op.outputs ∧
    blob ∈ op'.inputs ∧ (b.scope.isGradient blob = true ∨ blob ∈ b.losses) ∧ blob ∉ op'.outputs

theorem waitsFor_iff {b : Backward} {op : Op} {blob : String} : b.waitsFor op blob = true ↔
    (b.scope.isGradient blob = true ∨ blob ∈ b.losses) ∧ blob ∉ op.outputs := by
  simp [waitsFor]

theorem mem_branches {b : Backward} {index reader : Nat} :
    reader ∈ b.branches index ↔ b.Feeds index reader := by
  unfold branches
  split
  next missing => simp [Feeds, missing]
  next op found =>
    simp only [List.mem_flatMap, mem_readers, waitsFor_iff, Feeds, found, Option.some.injEq]
    constructor
    next =>
      intro read
      obtain ⟨blob, output, op', there, input, waits⟩ := read
      exact ⟨op, op', blob, rfl, there, output, input, waits⟩
    next =>
      intro feeds
      obtain ⟨_, op', blob, rfl, there, output, input, waits⟩ := feeds
      exact ⟨blob, output, op', there, input, waits⟩

end Backward

namespace Walk

def visit? (w : Walk) (number : Nat) : Option Visit := w.visits.reverse[number]?

/-- Which visit each one branched off from, and which are not done with, the latest first. -/
structure Lineage where
  parents : List (Option Nat)
  opened : List Nat

namespace Lineage

def Edge (t : Lineage) (parent child : Nat) : Prop := t.parents[child]? = some (some parent)

def enter (t : Lineage) : Lineage :=
  ⟨t.parents ++ [t.opened.head?], t.parents.length :: t.opened⟩

/-- A visit branches off from the latest one that is not done with. -/
def grow (t : Lineage) (w w' : Walk) : Lineage :=
  if w.visits.length < w'.visits.length then t.enter
  else if w'.branchings.length < w.branchings.length then { t with opened := t.opened.tail }
  else t

end Lineage

inductive Grown (b : Backward) : Walk → Lineage → Prop
  | start : Grown b (start b) ⟨[], []⟩
  | step {w w' : Walk} {t : Lineage} (grown : Grown b w t) (taken : w.step b = some w') :
      Grown b w' (t.grow w w')

theorem Grown.reached {b : Backward} {w : Walk} {t : Lineage} (grown : Grown b w t) : Reached b w := by
  induction grown with
  | start => exact .start
  | step _ taken ih => exact .step ih taken

theorem Reached.grown {b : Backward} {w : Walk} (reached : Reached b w) : ∃ t, Grown b w t := by
  induction reached with
  | start => exact ⟨_, .start⟩
  | step _ taken ih =>
    obtain ⟨t, grown⟩ := ih
    exact ⟨_, grown.step taken⟩

section Numbers

variable {w w' : Walk} {visit new : Visit} {number : Nat}

theorem visit?_lt (found : w.visit? number = some visit) : number < w.visits.length := by
  have bound := (List.getElem?_eq_some_iff.mp found).1
  rwa [List.length_reverse] at bound

theorem visit?_cons (visits : w'.visits = new :: w.visits) :
    w'.visit? number = some visit ↔
      w.visit? number = some visit ∨ number = w.visits.length ∧ visit = new := by
  rw [visit?, visits, List.reverse_cons, List.getElem?_append, List.length_reverse]
  split
  next inside =>
    have before : number ≠ w.visits.length := Nat.ne_of_lt inside
    simp [visit?, before]
  next outside =>
    have missing : w.visit? number = none :=
      List.getElem?_eq_none (by rw [List.length_reverse]; omega)
    rw [missing, List.getElem?_singleton]
    have exactly : number - w.visits.length = 0 ↔ number = w.visits.length := by omega
    simp [exactly, eq_comm]

theorem mem_visits_iff : visit ∈ w.visits ↔ ∃ number, w.visit? number = some visit := by
  rw [← List.mem_reverse, List.mem_iff_getElem?]
  rfl

theorem Lineage.edge_enter {t : Lineage} {parent child : Nat} : t.enter.Edge parent child ↔
    t.Edge parent child ∨ child = t.parents.length ∧ t.opened.head? = some parent := by
  rw [Edge, enter, List.getElem?_append]
  split
  next inside => simp [Edge, Nat.ne_of_lt inside]
  next outside =>
    have missing : t.parents[child]? = none := List.getElem?_eq_none (Nat.le_of_not_lt outside)
    rw [Edge, missing, List.getElem?_singleton]
    have exactly : child - t.parents.length = 0 ↔ child = t.parents.length := by omega
    simp [exactly]

end Numbers

structure Opens (b : Backward) (w : Walk) (branching : Branching) (number : Nat) : Prop where
  made : ∃ visit, w.visit? number = some visit ∧ visit.pool = branching.pool ∧
    ∀ reader ∈ branching.pending, b.Feeds visit.op reader
  latest : branching.first = true → number + 1 = w.visits.length

structure Branched (b : Backward) (w : Walk) (t : Lineage) : Prop where
  counted : t.parents.length = w.visits.length
  opened : List.Forall₂ (Opens b w) w.branchings t.opened
  descending : t.opened.Pairwise (· > ·)
  pools : ∀ visit ∈ w.visits, visit.pool < w.pools.length
  fed : ∀ parent child, t.Edge parent child → parent < child ∧ ∃ above below,
    w.visit? parent = some above ∧ w.visit? child = some below ∧ b.Feeds above.op below.op
  -- A pool is used along one path.
  path : ∀ earlier later above below, w.visit? earlier = some above → w.visit? later = some below →
    above.pool = below.pool → earlier < later → TransGen t.Edge earlier later

theorem branched_start (b : Backward) : (start b).Branched b ⟨[], []⟩ where
  counted := rfl
  opened := .nil
  descending := .nil
  pools := by simp [start]
  fed := by simp [Lineage.Edge]
  path := by simp [start, visit?]

section Growth

variable {b : Backward} {w w' : Walk} {t : Lineage} {index pool : Nat}

theorem visit?_congr (visits : w'.visits = w.visits) : w'.visit? = w.visit? := by
  funext number
  rw [visit?, visits, visit?]

theorem Branched.congr (branched : w.Branched b t) (w' : Walk) (visits : w'.visits = w.visits)
    (pools : w.pools.length ≤ w'.pools.length) {opened : List Nat}
    (open_ : List.Forall₂ (Opens b w) w'.branchings opened) (descending : opened.Pairwise (· > ·)) :
    w'.Branched b { t with opened } where
  counted := visits ▸ branched.counted
  opened := open_.imp fun _ _ opens =>
    ⟨by rw [visit?_congr visits]; exact opens.made, visits ▸ opens.latest⟩
  descending := descending
  pools visit member := Nat.lt_of_lt_of_le (branched.pools visit (visits ▸ member)) pools
  fed := by
    rw [visit?_congr visits]
    exact branched.fed
  path := by
    rw [visit?_congr visits]
    exact branched.path

theorem told_of_earlier {rest : List Branching} {below : List Nat}
    (opened : List.Forall₂ (Opens b w) rest below)
    (earlier : ∀ number ∈ below, number + 1 < w.visits.length) :
    ∀ branching ∈ rest, branching.first = false := by
  induction opened with
  | nil => simp
  | cons here _ ih =>
    have ⟨bound, bounds⟩ := List.forall_mem_cons.mp earlier
    refine List.forall_mem_cons.mpr ⟨Bool.eq_false_iff.mpr fun first => ?_, ih bounds⟩
    have latest := here.latest first
    omega

-- Only the top branching may still have its pool to hand on, since its visit is the latest.
theorem Branched.top (branched : w.Branched b t) {top : Branching} {rest : List Branching}
    (here : w.branchings = top :: rest) : ∃ number below, t.opened = number :: below ∧
      Opens b w top number ∧ List.Forall₂ (Opens b w) rest below ∧
      ∀ branching ∈ rest, branching.first = false := by
  have opened := branched.opened
  have descending := branched.descending
  rw [here] at opened
  cases same : t.opened with
  | nil => simp [same] at opened
  | cons number below =>
    rw [same] at opened descending
    have ⟨first, later⟩ := List.forall₂_cons.mp opened
    have ⟨above, ordered⟩ := List.pairwise_cons.mp descending
    refine ⟨number, below, rfl, first, later, told_of_earlier later fun other member => ?_⟩
    obtain ⟨visit, made, -⟩ := first.made
    have bound := visit?_lt made
    have less := above other member
    omega

theorem lt_of_opened {branchings : List Branching} {opened : List Nat}
    (matched : List.Forall₂ (Opens b w) branchings opened) :
    ∀ number ∈ opened, number < w.visits.length := by
  induction matched with
  | nil => simp
  | cons here _ ih =>
    obtain ⟨visit, made, -⟩ := here.made
    exact List.forall_mem_cons.mpr ⟨visit?_lt made, ih⟩

section Entry

variable (branched : w.Branched b t) (told : ∀ branching ∈ w.branchings, branching.first = false)
  (inside : pool < w.pools.length)
  -- The operation waits for what the latest open visit wrote.
  (fed : ∀ parent, t.opened.head? = some parent →
    ∃ above, w.visit? parent = some above ∧ b.Feeds above.op index)
  -- All visits that have used the pool lie on the way to that one.
  (above : ∀ number visit, w.visit? number = some visit → visit.pool = pool →
    ∃ parent, t.opened.head? = some parent ∧ ReflTransGen t.Edge number parent)

include branched told inside fed above

theorem Branched.entered {op : Op} {released handed : List (String × String)}
    (recorded : Recorded b w w' op index pool released handed)
    (pools : w'.pools.length = w.pools.length) : w'.Branched b t.enter := by
  have kept {number : Nat} {visit : Visit} (old : w.visit? number = some visit) :
      w'.visit? number = some visit := (visit?_cons recorded.visits).mpr (.inl old)
  have made : w'.visit? t.parents.length = some ⟨index, pool, released, handed⟩ :=
    (visit?_cons recorded.visits).mpr (.inr ⟨branched.counted, rfl⟩)
  have further (parent child : Nat) (edge : t.Edge parent child) : t.enter.Edge parent child :=
    Lineage.edge_enter.mpr (.inl edge)
  constructor
  case counted => simp [Lineage.enter, recorded.visits, branched.counted]
  case opened =>
    rw [recorded.branchings]
    refine .cons ⟨⟨_, made, rfl, fun reader => Backward.mem_branches.mp⟩, fun _ => ?_⟩ ?_
    next => simp [recorded.visits, branched.counted]
    next =>
      refine ((List.forall₂_and_left _ _).mpr ⟨told, branched.opened⟩).imp fun branching number both => ?_
      obtain ⟨visit, old, same⟩ := both.2.made
      exact ⟨⟨visit, kept old, same⟩, fun first => absurd (both.1 ▸ first) (by decide)⟩
  case descending =>
    refine List.pairwise_cons.mpr ⟨fun number member => ?_, branched.descending⟩
    rw [branched.counted]
    exact lt_of_opened branched.opened number member
  case pools =>
    rw [recorded.visits, pools]
    exact List.forall_mem_cons.mpr ⟨inside, branched.pools⟩
  case fed =>
    intro parent child edge
    cases Lineage.edge_enter.mp edge with
    | inl old =>
      obtain ⟨less, first, second, here, there, feeds⟩ := branched.fed parent child old
      exact ⟨less, first, second, kept here, kept there, feeds⟩
    | inr new =>
      obtain ⟨rfl, latest⟩ := new
      obtain ⟨first, here, feeds⟩ := fed parent latest
      exact ⟨branched.counted ▸ visit?_lt here, first, _, kept here, made, feeds⟩
  case path =>
    intro earlier later first second here there same less
    cases (visit?_cons recorded.visits).mp there with
    | inl old =>
      have bound := visit?_lt old
      have before := ((visit?_cons recorded.visits).mp here).resolve_right fun new => by omega
      exact TransGen.mono further _ _ (branched.path _ _ _ _ before old same less)
    | inr new =>
      obtain ⟨rfl, rfl⟩ := new
      have before := ((visit?_cons recorded.visits).mp here).resolve_right fun new => by omega
      obtain ⟨parent, latest, way⟩ := above _ _ before same
      have edge : t.enter.Edge parent w.visits.length :=
        Lineage.edge_enter.mpr (.inr ⟨branched.counted.symm, latest⟩)
      exact .tail' (ReflTransGen.mono further _ _ way) edge

theorem Branched.enter (before : Walk) (visits : w.visits = before.visits)
    (branchings : before.branchings.length ≤ w.branchings.length) :
    (Walk.enter b w index pool).Branched b (t.grow before (Walk.enter b w index pool)) := by
  rcases enter_cases b w index pool with same | ⟨op, released, handed, found, recorded⟩
  next =>
    have kept : t.grow before w = t := by simp [Lineage.grow, visits, Nat.not_lt.mpr branchings]
    rw [same, kept]
    exact branched
  next =>
    have grown : t.grow before (Walk.enter b w index pool) = t.enter := by
      simp [Lineage.grow, recorded.visits, visits]
    have pools : (Walk.enter b w index pool).pools.length = w.pools.length := by
      simp [Walk.enter, found]
    rw [grown]
    exact branched.entered told inside fed above recorded pools

end Entry

theorem Branched.openPool (branched : w.Branched b t) : w.openPool.Branched b t :=
  branched.congr w.openPool rfl (by simp [Walk.openPool]) branched.opened branched.descending

theorem Branched.unused (branched : w.Branched b t) {number : Nat} {visit : Visit}
    (made : w.visit? number = some visit) : visit.pool ≠ w.pools.length :=
  Nat.ne_of_lt (branched.pools visit (mem_visits_iff.mpr ⟨number, made⟩))

-- One reader fewer is to be told; the pool may have been handed on.
theorem Branched.tell (branched : w.Branched b t) (arrivals : List Nat) {rest : List Branching}
    {pending : List Nat} {reader : Nat} {first first' : Bool}
    (top : w.branchings = ⟨pool, reader :: pending, first⟩ :: rest)
    (less : first' = true → first = true) :
    ({ w with arrivals, branchings := ⟨pool, pending, first'⟩ :: rest } : Walk).Branched b t := by
  obtain ⟨number, below, opened, here, later, -⟩ := branched.top top
  have matched : List.Forall₂ (Opens b w) (⟨pool, pending, first'⟩ :: rest) t.opened := by
    obtain ⟨visit, made, same, feeds⟩ := here.made
    rw [opened]
    refine .cons ⟨⟨visit, made, same, ?_⟩, fun is => here.latest (less is)⟩ later
    exact fun other member => feeds other (List.mem_cons_of_mem _ member)
  let told : Walk := { w with arrivals, branchings := ⟨pool, pending, first'⟩ :: rest }
  exact branched.congr told rfl (Nat.le_refl _) matched branched.descending

theorem Branched.step (branched : w.Branched b t) (taken : w.step b = some w') :
    w'.Branched b (t.grow w w') := by
  cases step_cases taken with
  | @begin index starts idle next_ =>
    let left : Walk := { w with starts }
    have same : left.Branched b t :=
      branched.congr left rfl (Nat.le_refl _) branched.opened branched.descending
    have idle' : t.opened = [] := by
      have opened := branched.opened
      rw [idle] at opened
      exact List.forall₂_nil_left_iff.mp opened
    apply same.openPool.enter ?told ?inside ?fed ?above w rfl (Nat.le_refl _)
    case told => simp [left, Walk.openPool, idle]
    case inside => simp [left, Walk.openPool]
    case fed => simp [idle']
    case above => exact fun number visit made here => absurd here (branched.unused made)
  | @leave pool first rest top =>
    obtain ⟨number, below, opened, -, later, -⟩ := branched.top top
    let left : Walk := { w with branchings := rest }
    have grown : t.grow w left = { t with opened := below } := by
      simp [left, Lineage.grow, top, opened]
    have descending := branched.descending
    rw [opened] at descending
    rw [grown]
    exact branched.congr left rfl (Nat.le_refl _) later (List.pairwise_cons.mp descending).2
  | @tell pool reader pending first rest top waiting =>
    have grown : t.grow w { w with
        arrivals := reader :: w.arrivals
        branchings := ⟨pool, pending, first⟩ :: rest } = t := by
      simp [Lineage.grow, top]
    rw [grown]
    exact branched.tell _ top id
  | @onward pool reader pending rest top ready =>
    obtain ⟨number, below, opened, here, -, told⟩ := branched.top top
    obtain ⟨visit, made, same, feeds⟩ := here.made
    have latest := here.latest rfl
    have member : visit ∈ w.visits := mem_visits_iff.mpr ⟨number, made⟩
    have again := branched.tell (reader :: w.arrivals) top fun _ : false = true => rfl
    apply again.enter ?told ?inside ?fed ?above w rfl (by simp [top])
    case told => exact List.forall_mem_cons.mpr ⟨rfl, told⟩
    case inside => exact Nat.lt_of_le_of_lt (Nat.le_of_eq same.symm) (branched.pools visit member)
    case fed =>
      intro parent head
      obtain rfl : number = parent := by simpa [opened] using head
      exact ⟨visit, made, feeds reader List.mem_cons_self⟩
    case above =>
      -- All earlier visits to the pool lead to the latest visit, since it has the pool.
      intro other earlier made' same'
      refine ⟨number, by simp [opened], ?_⟩
      have bound : other < w.visits.length := visit?_lt made'
      rcases Nat.lt_or_eq_of_le (show other ≤ number by omega) with less | rfl
      next =>
        have way := branched.path other number earlier visit made' made (same'.trans same.symm) less
        exact way.to_reflTransGen
      next => exact .refl
  | @aside pool reader pending rest top ready =>
    obtain ⟨number, below, opened, here, -, told⟩ := branched.top top
    obtain ⟨visit, made, same, feeds⟩ := here.made
    have again := branched.tell (reader :: w.arrivals) top id
    apply again.openPool.enter ?told ?inside ?fed ?above w rfl (by simp [Walk.openPool, top])
    case told => exact List.forall_mem_cons.mpr ⟨rfl, told⟩
    case inside => simp [Walk.openPool]
    case fed =>
      intro parent head
      obtain rfl : number = parent := by simpa [opened] using head
      exact ⟨visit, made, feeds reader List.mem_cons_self⟩
    case above => exact fun number visit made here => absurd here (branched.unused made)

theorem Grown.branched (grown : Grown b w t) : w.Branched b t := by
  induction grown with
  | start => exact branched_start b
  | step _ taken ih => exact ih.step taken

theorem Branched.feeds_of_path (branched : w.Branched b t) {earlier later : Nat}
    (path : TransGen t.Edge earlier later) {above below : Visit} (here : w.visit? earlier = some above)
    (there : w.visit? later = some below) : TransGen b.Feeds above.op below.op := by
  induction path generalizing below with
  | single edge =>
    obtain ⟨-, first, second, here', there', feeds⟩ := branched.fed _ _ edge
    obtain rfl := Option.some.inj (here.symm.trans here')
    obtain rfl := Option.some.inj (there.symm.trans there')
    exact .single feeds
  | tail _ edge ih =>
    obtain ⟨-, middle, second, between, there', feeds⟩ := branched.fed _ _ edge
    obtain rfl := Option.some.inj (there.symm.trans there')
    exact .tail (ih between) feeds

theorem Branched.le_of_path (branched : w.Branched b t) {earlier later : Nat}
    (path : ReflTransGen t.Edge earlier later) : earlier ≤ later := by
  induction path with
  | refl => exact Nat.le_refl _
  | tail _ edge ih => exact Nat.le_trans ih (Nat.le_of_lt (branched.fed _ _ edge).1)

theorem Lineage.parent_unique {parent other child : Nat} (edge : t.Edge parent child)
    (edge' : t.Edge other child) : parent = other := by
  have same := edge.symm.trans edge'
  simpa using same

variable {parent first second : Nat}

theorem Branched.not_above (branched : w.Branched b t) (edge : t.Edge parent first)
    (edge' : t.Edge parent second) (different : first ≠ second) :
    ¬ ReflTransGen t.Edge first second := by
  intro path
  cases path.cases_tail with
  | inl same => exact different same.symm
  | inr last =>
    -- The path would run through the common parent, which is earlier.
    obtain ⟨other, way, edge''⟩ := last
    obtain rfl := Lineage.parent_unique edge' edge''
    have before := (branched.fed _ _ edge).1
    have after := branched.le_of_path way
    omega

theorem Branched.siblings_apart (branched : w.Branched b t) (edge : t.Edge parent first)
    (edge' : t.Edge parent second) (different : first ≠ second) {bottom : Nat}
    (path : ReflTransGen t.Edge first bottom) (path' : ReflTransGen t.Edge second bottom) : False := by
  have unique : Relator.RightUnique (Function.swap t.Edge) :=
    fun _ _ _ up up' => Lineage.parent_unique up up'
  rcases ReflTransGen.total_of_right_unique unique path.swap path'.swap with above | below
  next => exact branched.not_above edge' edge different.symm (reflTransGen_swap.mp above)
  next => exact branched.not_above edge edge' different (reflTransGen_swap.mp below)

theorem Branched.siblings_pools (branched : w.Branched b t) (edge : t.Edge parent first)
    (edge' : t.Edge parent second) (different : first ≠ second) {giver taker : Nat}
    (path : ReflTransGen t.Edge first giver) (path' : ReflTransGen t.Edge second taker)
    {above below : Visit} (here : w.visit? giver = some above) (there : w.visit? taker = some below) :
    above.pool ≠ below.pool := by
  intro same
  rcases Nat.lt_trichotomy giver taker with less | rfl | more
  next =>
    have further := (branched.path _ _ _ _ here there same less).to_reflTransGen
    exact branched.siblings_apart edge edge' different (path.trans further) path'
  next => exact branched.siblings_apart edge edge' different path path'
  next =>
    have further := (branched.path _ _ _ _ there here same.symm more).to_reflTransGen
    exact branched.siblings_apart edge edge' different path (path'.trans further)

end Growth

structure Supplied (w : Walk) : Prop where
  free : ∀ pool storage, w.Free pool storage → ∃ number visit, w.visit? number = some visit ∧
    visit.pool = pool ∧ ∃ owner, (owner, storage) ∈ visit.released
  handed : ∀ taker visit blob storage, w.visit? taker = some visit → (blob, storage) ∈ visit.handed →
    (∀ owner, (owner, storage) ∉ visit.released) ∧ ∃ giver above, w.visit? giver = some above ∧
      giver < taker ∧ above.pool = visit.pool ∧ ∃ owner, (owner, storage) ∈ above.released

theorem supplied_start (b : Backward) : (start b).Supplied where
  free := by simp [start, Free]
  handed := by simp [start, visit?]

section Supply

variable {b : Backward} {w w' : Walk}

theorem Supplied.congr (supplied : w.Supplied) (visits : w'.visits = w.visits)
    (free : ∀ pool storage, w'.Free pool storage → w.Free pool storage) : w'.Supplied where
  free pool storage kept := by
    rw [visit?_congr visits]
    exact supplied.free pool storage (free pool storage kept)
  handed := by
    rw [visit?_congr visits]
    exact supplied.handed

theorem Supplied.entered (supplied : w.Supplied) (exclusive : w.Exclusive b) {op : Op} {index pool : Nat}
    {released handed : List (String × String)}
    (recorded : Recorded b w w' op index pool released handed) : w'.Supplied := by
  have kept {number : Nat} {visit : Visit} (old : w.visit? number = some visit) :
      w'.visit? number = some visit := (visit?_cons recorded.visits).mpr (.inl old)
  have made : w'.visit? w.visits.length = some ⟨index, pool, released, handed⟩ :=
    (visit?_cons recorded.visits).mpr (.inr ⟨rfl, rfl⟩)
  have before {place : Nat} {storage : String} (free : w.Free place storage) :
      ∃ number visit, w'.visit? number = some visit ∧ visit.pool = place ∧
        ∃ owner, (owner, storage) ∈ visit.released := by
    obtain ⟨number, visit, old, rest⟩ := supplied.free place storage free
    exact ⟨number, visit, kept old, rest⟩
  constructor
  case free =>
    intro place storage free
    by_cases here : place = pool
    next =>
      subst here
      cases recorded.gained storage free with
      | inl left => exact before left.1
      | inr gained => exact ⟨_, _, made, rfl, gained⟩
    next => exact before (recorded.elsewhere place here storage free)
  case handed =>
    intro taker visit blob storage there given
    cases (visit?_cons recorded.visits).mp there with
    | inl old =>
      obtain ⟨fresh, giver, above, here, rest⟩ := supplied.handed taker visit blob storage old given
      exact ⟨fresh, giver, above, kept here, rest⟩
    | inr new =>
      obtain ⟨rfl, rfl⟩ := new
      -- The storage was in the pool already, and what is released now was not.
      have free := (recorded.served blob storage given).2.2
      obtain ⟨giver, above, here, rest⟩ := supplied.free pool storage free
      refine ⟨fun owner freed => ?_, giver, above, kept here, visit?_lt here, rest⟩
      obtain ⟨rfl, needed, -⟩ := recorded.spent owner storage freed
      exact exclusive.locked needed pool free

theorem Supplied.enter (supplied : w.Supplied) (exclusive : w.Exclusive b) (index pool : Nat) :
    (Walk.enter b w index pool).Supplied := by
  rcases enter_cases b w index pool with same | ⟨op, released, handed, -, recorded⟩
  next =>
    rw [same]
    exact supplied
  next => exact supplied.entered exclusive recorded

theorem Reached.supplied (reached : Reached b w) : w.Supplied := by
  have both : w.Exclusive b ∧ w.Supplied := by
    induction reached with
    | start => exact ⟨exclusive_start b, supplied_start b⟩
    | step _ taken ih =>
      refine step_keeps (fun w => w.Exclusive b ∧ w.Supplied) ?quiet ?opening ?entry ih taken
      case quiet =>
        intro w w' same before
        have free (pool : Nat) (storage : String) : w'.Free pool storage → w.Free pool storage :=
          same.free.mp
        exact ⟨before.1.congr same.reads same.donors same.visits free, before.2.congr same.visits free⟩
      case opening =>
        exact fun w before =>
          ⟨before.1.openPool, before.2.congr rfl fun _ _ free => (free_openPool free).1⟩
      case entry =>
        exact fun w index pool before => ⟨before.1.enter index pool, before.2.enter before.1 index pool⟩
  exact both.2

end Supply

end Walk

/-- The visit that storage is taken from, and the way that leads from there to the taker. -/
structure Walk.Giver (b : Backward) (w : Walk) (t : Lineage) (storage : String) (giver taker : Nat)
    (above visit : Visit) : Prop where
  visited : w.visit? giver = some above
  earlier : giver < taker
  pool : above.pool = visit.pool
  released : ∃ owner, (owner, storage) ∈ above.released
  branch : TransGen t.Edge giver taker
  feeds : TransGen b.Feeds above.op visit.op

structure Walk.FollowsBranches (b : Backward) (w : Walk) (t : Lineage) : Prop where
  edges : ∀ parent child, t.Edge parent child → ∃ above below, w.visit? parent = some above ∧
    w.visit? child = some below ∧ b.Feeds above.op below.op
  notItsOwn : ∀ taker visit blob storage, w.visit? taker = some visit → (blob, storage) ∈ visit.handed →
    ∀ owner, (owner, storage) ∉ visit.released
  taken : ∀ taker visit blob storage, w.visit? taker = some visit → (blob, storage) ∈ visit.handed →
    ∃ giver above, w.Giver b t storage giver taker above visit
  siblings : ∀ parent first second, t.Edge parent first → t.Edge parent second → first ≠ second →
    ∀ giver taker above below, ReflTransGen t.Edge first giver → ReflTransGen t.Edge second taker →
      w.visit? giver = some above → w.visit? taker = some below → above.pool ≠ below.pool

open Walk in
theorem storage_follows_branches (net : Net) (losses : List String) (parameters : Names) (scope : String) :
    let b := Backward.ofNet ⟨gradientScopeName scope, parameters⟩ losses net
    (∃ t, Grown b (walkGradients b) t) ∧ ∀ w t, Grown b w t → w.FollowsBranches b t := by
  intro b
  refine ⟨Reached.start.run.grown, fun w t grown => ?_⟩
  have branched := grown.branched
  have handed := grown.reached.supplied.handed
  refine ⟨fun parent child edge => (branched.fed parent child edge).2, ?notItsOwn, ?taken, ?siblings⟩
  case notItsOwn => exact fun taker visit blob storage there given =>
    (handed taker visit blob storage there given).1
  case taken =>
    intro taker visit blob storage there given
    obtain ⟨-, giver, above, here, less, same, owner⟩ := handed taker visit blob storage there given
    have path := branched.path giver taker above visit here there same less
    exact ⟨giver, above, here, less, same, owner, path, branched.feeds_of_path path here there⟩
  case siblings =>
    intro parent first second edge edge' different giver taker above below path path' here there
    exact branched.siblings_pools edge edge' different path path' here there

/-- Two branches below the first operation; only the second one gets the storage of its gradient. -/
def splitNet : Net :=
  (Net.named "split").withOps [⟨"A", ["loss"], ["g/a_grad"], []⟩, ⟨"B", ["g/a_grad"], ["g/b_grad"], []⟩,
    ⟨"C", ["g/b_grad"], ["g/c_grad"], []⟩, ⟨"D", ["g/a_grad"], ["g/d_grad"], []⟩,
    ⟨"E", ["g/d_grad"], ["g/e_grad"], []⟩]

open Walk in
theorem storage_follows_branches_split :
    let b := Backward.ofNet ⟨gradientScopeName "g", .empty⟩ ["loss"] splitNet
    let w := walkGradients b
    ∃ t, Grown b w t ∧ (∃ giver taker above below, w.visit? giver = some above ∧
      w.visit? taker = some below ∧ ("g/e_grad", "g/a_grad") ∈ below.handed ∧
      TransGen t.Edge giver taker ∧ TransGen b.Feeds above.op below.op) := by
  intro b w
  obtain ⟨⟨t, grown⟩, holds⟩ := storage_follows_branches splitNet ["loss"] .empty "g"
  have taken := (holds w t grown).taken
  have found : (w.visit? 4).map (·.handed) = some [("g/e_grad", "g/a_grad")] := by decide +kernel
  obtain ⟨visit, there, handed⟩ := Option.map_eq_some_iff.mp found
  have given : ("g/e_grad", "g/a_grad") ∈ visit.handed := by simp [handed]
  obtain ⟨giver, above, gives⟩ := taken 4 visit _ _ there given
  exact ⟨t, grown, giver, 4, above, visit, gives.visited, there, given, gives.branch, gives.feeds⟩

end StoragePlan
