import StoragePlan.Order.Strategy
import StoragePlan.Proofs.Graph.Dependency
import StoragePlan.Proofs.Order.Branches

set_option autoImplicit false

namespace StoragePlan

namespace Search

inductive Stacked (rank : Nat → Nat) : List Nat → List Nat → Prop
  | empty : Stacked rank [] []
  | waiting {fringe path : List Nat} {node : Nat} (stacked : Stacked rank fringe path)
      (above : ∀ other ∈ path, rank other < rank node) : Stacked rank (node :: fringe) path
  | opened {fringe path : List Nat} {node : Nat} (stacked : Stacked rank fringe path)
      (above : ∀ other ∈ path, rank other < rank node) : Stacked rank (node :: fringe) (node :: path)

theorem Stacked.front {rank : Nat → Nat} {below path : List Nat} {node : Nat}
    (stacked : Stacked rank (node :: below) path) : ∃ rest, Stacked rank below rest ∧
      (∀ other ∈ rest, rank other < rank node) ∧ (path = rest ∨ path = node :: rest) := by
  cases stacked with
  | waiting stacked above => exact ⟨path, stacked, above, .inl rfl⟩
  | opened stacked above => exact ⟨_, stacked, above, .inr rfl⟩

theorem Stacked.push {rank : Nat → Nat} {fringe path : List Nat} (stacked : Stacked rank fringe path)
    {more : List Nat} (above : ∀ node ∈ more, ∀ other ∈ path, rank other < rank node) :
    Stacked rank (more ++ fringe) path := by
  induction more with
  | nil => exact stacked
  | cons node rest ih =>
    exact .waiting (ih fun other inside => above other (List.mem_cons_of_mem _ inside))
      (above node List.mem_cons_self)

structure Sound (g : Graph) (rank : Nat → Nat) (s : Search) (path : List Nat) : Prop where
  stacked : Stacked rank s.fringe path
  -- The path holds what has been seen and is not finished.
  seen : ∀ node ∈ s.seen, node ∈ s.finished ∨ node ∈ path
  unsettled : ∀ node ∈ path, s.isSettled g node = false
  nodup : s.finished.Nodup
  inside : ∀ node ∈ s.finished, node < g.size
  closed : ∀ node ∈ s.finished, ∀ next, g.Leads node next → next ∈ s.finished
  forward : s.finished.Pairwise fun a b => ¬ g.Leads b a

structure Keeps (g : Graph) (s s' : Search) : Prop where
  finished : ∀ node ∈ s.finished, node ∈ s'.finished
  fringe : ∀ node ∈ s.fringe, node < g.size → node ∈ s'.fringe ∨ node ∈ s'.finished

theorem Keeps.trans {g : Graph} {s₁ s₂ s₃ : Search} (first : Keeps g s₁ s₂) (second : Keeps g s₂ s₃) :
    Keeps g s₁ s₃ where
  finished node done := second.finished node (first.finished node done)
  fringe node waits inside := by
    rcases first.fringe node waits inside with waits | done
    next => exact second.fringe node waits inside
    next => exact .inr (second.finished node done)

section Step

variable {g : Graph} {rank : Nat → Nat} {s : Search} {path below : List Nat} {node : Nat}

theorem mem_ahead {next : Nat} :
    next ∈ s.ahead g node ↔ g.Leads node next ∧ s.isSettled g next = false := by
  simp [ahead, Graph.Leads]

theorem Sound.pop (sound : s.Sound g rank path) (front : s.fringe = node :: below)
    (settled : s.isSettled g node = true) : ({ s with fringe := below } : Search).Sound g rank path := by
  obtain ⟨rest, stacked, -, same | same⟩ := (front ▸ sound.stacked).front
  next => exact { sound with stacked := same ▸ stacked }
  next =>
    have open_ := sound.unsettled node (same ▸ List.mem_cons_self)
    simp [settled] at open_

theorem Keeps.pop (front : s.fringe = node :: below) (settled : s.isSettled g node = true) :
    Keeps g s { s with fringe := below } where
  finished _ done := done
  fringe other waits inside := by
    rcases List.mem_cons.mp (front ▸ waits) with rfl | waits
    next =>
      right
      simpa [isSettled, Nat.not_le_of_lt inside] using settled
    next => exact .inl waits

variable (ranked : g.Ranked rank) (valid : ∀ a b, g.Leads a b → b < g.size)

include ranked

theorem Sound.unseen_ahead (sound : s.Sound g rank path) (front : s.fringe = node :: below) :
    (s.ahead g node).find? (node :: s.seen).contains = none := by
  -- What has been seen and is not finished is ranked lower than anything ahead.
  obtain ⟨rest, -, above, choice⟩ := (front ▸ sound.stacked).front
  rw [List.find?_eq_none]
  intro next inside known
  obtain ⟨edge, unsettled⟩ := mem_ahead.mp inside
  have less := ranked node next edge
  have lower : next ∈ rest → False := fun inside => Nat.lt_asymm less (above next inside)
  have different : next ≠ node := fun same => Nat.lt_irrefl _ (same ▸ less)
  have member : next ∈ s.seen := by simpa [different] using known
  rcases sound.seen next member with done | open_
  next => exact (not_isSettled.mp unsettled).1 done
  next =>
    rcases choice with rfl | rfl
    next => exact lower open_
    next => exact lower ((List.mem_cons.mp open_).resolve_left different)

include valid

omit ranked in
theorem Sound.finish (sound : s.Sound g rank path) (front : s.fringe = node :: below)
    (unsettled : s.isSettled g node = false) (nothing : s.ahead g node = []) :
    ∃ path', (⟨below, node :: s.seen, node :: s.finished⟩ : Search).Sound g rank path' := by
  obtain ⟨rest, stacked, above, choice⟩ := (front ▸ sound.stacked).front
  have ⟨unfinished, inside⟩ := not_isSettled.mp unsettled
  have part : ∀ other ∈ rest, other ∈ path := by
    rcases choice with rfl | rfl
    next => exact fun _ member => member
    next => exact fun _ member => List.mem_cons_of_mem _ member
  refine ⟨rest, stacked, ?seen, ?unsettled, ?nodup, ?inside, ?closed, ?forward⟩
  case seen =>
    intro other known
    rcases List.mem_cons.mp known with rfl | known
    next => exact .inl List.mem_cons_self
    next =>
      rcases sound.seen other known with done | open_
      next => exact .inl (List.mem_cons_of_mem _ done)
      next =>
        rcases choice with rfl | rfl
        next => exact .inr open_
        next =>
          rcases List.mem_cons.mp open_ with rfl | open_
          next => exact .inl List.mem_cons_self
          next => exact .inr open_
  case unsettled =>
    intro other member
    have ⟨open_, known⟩ := not_isSettled.mp (sound.unsettled other (part other member))
    have different : other ≠ node := by
      rintro rfl
      exact Nat.lt_irrefl _ (above _ member)
    exact not_isSettled.mpr ⟨by simp [different, open_], known⟩
  case nodup => exact List.nodup_cons.mpr ⟨unfinished, sound.nodup⟩
  case inside =>
    intro other member
    rcases List.mem_cons.mp member with rfl | member
    next => exact inside
    next => exact sound.inside other member
  case closed =>
    intro other member next edge
    rcases List.mem_cons.mp member with rfl | member
    next =>
      have settled : s.isSettled g next = true := by
        by_contra open_
        have ahead := mem_ahead.mpr ⟨edge, Bool.not_eq_true _ ▸ open_⟩
        simp [nothing] at ahead
      have done : next ∈ s.finished := by
        simpa [isSettled, Nat.not_le_of_lt (valid _ _ edge)] using settled
      exact List.mem_cons_of_mem _ done
    next => exact List.mem_cons_of_mem _ (sound.closed other member next edge)
  case forward =>
    exact List.pairwise_cons.mpr
      ⟨fun other done edge => unfinished (sound.closed other done node edge), sound.forward⟩

omit valid in
theorem Sound.push (sound : s.Sound g rank path) (front : s.fringe = node :: below)
    (unsettled : s.isSettled g node = false) (distance : Nat → Nat) :
    ∃ path', (⟨inVisitingOrder distance (s.ahead g node) ++ s.fringe, node :: s.seen, s.finished⟩ :
      Search).Sound g rank path' := by
  obtain ⟨rest, stacked, above, choice⟩ := (front ▸ sound.stacked).front
  refine ⟨node :: rest, ?stacked, ?seen, ?unsettled, sound.nodup, sound.inside, sound.closed,
    sound.forward⟩
  case stacked =>
    -- The node is on the path from now on, and what it leads to is ranked higher.
    rw [front]
    refine (Stacked.opened stacked above).push fun next inside other open_ => ?_
    have less := ranked node next (mem_ahead.mp ((mem_inVisitingOrder distance).mp inside)).1
    rcases List.mem_cons.mp open_ with rfl | open_
    next => exact less
    next => exact Nat.lt_trans (above other open_) less
  case seen =>
    intro other known
    rcases List.mem_cons.mp known with rfl | known
    next => exact .inr List.mem_cons_self
    next =>
      rcases choice with rfl | rfl
      next => exact (sound.seen other known).imp_right (List.mem_cons_of_mem _)
      next => exact sound.seen other known
  case unsettled =>
    intro other member
    rcases choice with rfl | rfl
    next =>
      rcases List.mem_cons.mp member with rfl | member
      next => exact unsettled
      next => exact sound.unsettled other member
    next => exact sound.unsettled other member

theorem Sound.step (sound : s.Sound g rank path) (distance : Nat → Nat) :
    s.fringe = [] ∧ s.step g distance = .ok none ∨
      ∃ s' path', s.step g distance = .ok (some s') ∧ s'.Sound g rank path' ∧ Keeps g s s' := by
  cases front : s.fringe with
  | nil => exact .inl ⟨rfl, by simp [Search.step, front]⟩
  | cons node below =>
    right
    cases settled : s.isSettled g node with
    | true =>
      exact ⟨_, path, by simp [Search.step, front, settled], sound.pop front settled,
        .pop front settled⟩
    | false =>
      -- Nothing ahead has been seen, so the exit for a cycle is not taken.
      have unseen := sound.unseen_ahead ranked front
      by_cases nothing : s.ahead g node = []
      next =>
        obtain ⟨path', finished⟩ := sound.finish valid front settled nothing
        refine ⟨_, path', ?_, finished, ?_, ?_⟩
        next => simp [Search.step, front, settled, nothing]
        next => exact fun _ done => List.mem_cons_of_mem _ done
        next =>
          intro other waits _
          rcases List.mem_cons.mp (front ▸ waits) with rfl | waits
          next => exact .inr List.mem_cons_self
          next => exact .inl waits
      next =>
        obtain ⟨path', pushed⟩ := sound.push ranked front settled distance
        refine ⟨_, path', ?_, pushed, fun _ done => done, ?_⟩
        next =>
          have something : (s.ahead g node).isEmpty = false := by simpa using nothing
          simp only [Search.step, front, settled, unseen, something]
          rfl
        next => exact fun _ waits _ => .inl (List.mem_append_right _ waits)

theorem Sound.run (sound : s.Sound g rank path) (distance : Nat → Nat) :
    ∃ s', s.run g distance = .ok s' ∧ s'.fringe = [] ∧ s'.Sound g rank [] ∧ Keeps g s s' := by
  fun_induction Search.run g distance s generalizing path with
  | case1 s error stopped =>
    obtain ⟨-, halted⟩ | ⟨s', path', went, -⟩ := sound.step ranked valid distance
    next => simp [stopped] at halted
    next => simp [stopped] at went
  | case2 s stopped =>
    obtain ⟨empty, -⟩ | ⟨s', path', went, -⟩ := sound.step ranked valid distance
    next =>
      have stacked := sound.stacked
      rw [empty] at stacked
      cases stacked
      exact ⟨s, rfl, empty, sound, fun _ done => done, fun _ waits _ => .inl waits⟩
    next => simp [stopped] at went
  | case3 s next_ taken ih =>
    obtain ⟨-, halted⟩ | ⟨s', path', went, later, keeps⟩ := sound.step ranked valid distance
    next => simp [taken] at halted
    next =>
      obtain rfl : next_ = s' := by simpa [taken] using went
      obtain ⟨last, ran, empty, final, kept⟩ := ih later
      exact ⟨last, ran, empty, final, keeps.trans kept⟩

end Step

theorem Sound.restart {g : Graph} {rank : Nat → Nat} {s : Search} (sound : s.Sound g rank [])
    (node : Nat) : ({ s with fringe := [node] } : Search).Sound g rank [] :=
  { sound with stacked := .waiting .empty (by simp) }

theorem Sound.runs {g : Graph} {rank : Nat → Nat} (ranked : g.Ranked rank)
    (valid : ∀ a b, g.Leads a b → b < g.size) (distance : Nat → Nat) {s : Search}
    (sound : s.Sound g rank []) (starts : List Nat) :
    ∃ s', starts.foldlM (fun s node => Search.run g distance { s with fringe := [node] }) s = .ok s' ∧
      s'.Sound g rank [] ∧ (∀ node ∈ s.finished, node ∈ s'.finished) ∧
      ∀ node ∈ starts, node < g.size → node ∈ s'.finished := by
  induction starts generalizing s with
  | nil => exact ⟨s, rfl, sound, fun _ done => done, by simp⟩
  | cons start rest ih =>
    -- The fringe is empty after each run, so the next one starts with a path of no nodes.
    obtain ⟨middle, ran, empty, later, keeps⟩ := (sound.restart start).run ranked valid distance
    obtain ⟨last, folded, final, kept, reached⟩ := ih later
    refine ⟨last, by simpa [ran, bind, Except.bind] using folded, final, ?_, ?_⟩
    next => exact fun node done => kept node (keeps.finished node done)
    next =>
      intro node member inside
      rcases List.mem_cons.mp member with rfl | member
      next =>
        have found := keeps.fringe node List.mem_cons_self inside
        simp only [empty, List.not_mem_nil, false_or] at found
        exact kept node found
      next => exact reached node member inside

theorem start_sound (g : Graph) (rank : Nat → Nat) : start.Sound g rank [] where
  stacked := .empty
  seen := by simp [start]
  unsettled := by simp
  nodup := .nil
  inside := by simp [start]
  closed := by simp [start]
  forward := .nil

end Search

namespace Graph

theorem mem_of_sources {g : Graph} {rank : Nat → Nat} (ranked : g.Ranked rank) {found : List Nat}
    (start : ∀ node ∈ g.sources, node ∈ found)
    (closed : ∀ node ∈ found, ∀ next, g.Leads node next → next ∈ found) {node : Nat}
    (inside : node < g.size) : node ∈ found := by
  -- Everything comes after some source, so a search from all of them misses nothing.
  induction same : rank node using Nat.strongRecOn generalizing node with
  | _ bound ih =>
    by_cases first : ∃ producer, g.Leads producer node
    next =>
      obtain ⟨producer, edge⟩ := first
      have earlier := ih (rank producer) (same ▸ ranked _ _ edge) edge.inside rfl
      exact closed producer earlier node edge
    next => exact start node (mem_sources.mpr ⟨inside, not_exists.mp first⟩)

theorem depthFirstOrder_linear {g : Graph} (built : g.Built) (distance : Nat → Nat)
    {starts : List Nat} (all : ∀ node, node ∈ starts ↔ node ∈ g.sources) :
    ∃ order, g.depthFirstOrder distance starts = .ok order ∧ g.Linear order := by
  obtain ⟨rank, ranked⟩ := built.ranked
  obtain ⟨s, ran, sound, -, reached⟩ := (Search.start_sound g rank).runs ranked
    (fun _ _ => built.valid) distance starts
  have found : ∀ node ∈ g.sources, node ∈ s.finished := fun node source =>
    reached node ((all node).mpr source) (mem_sources.mp source).1
  have linear : g.Linear s.finished :=
    linear_of_pairwise ranked (fun _ _ => built.valid) sound.nodup
      (fun node => ⟨sound.inside node, mem_of_sources ranked found sound.closed⟩) sound.forward
  exact ⟨s.finished, by simp [depthFirstOrder, ran, bind, Except.bind, pure, Except.pure], linear⟩

theorem nodup_eraseDups {α : Type} [BEq α] [LawfulBEq α] (list : List α) : list.eraseDups.Nodup := by
  induction size : list.length using Nat.strongRecOn generalizing list with
  | _ bound ih =>
    cases list with
    | nil => simp
    | cons node rest =>
      rw [List.eraseDups_cons, List.nodup_cons]
      have less : (rest.filter fun other => !other == node).length < bound := by
        have shorter := List.length_filter_le (fun other => !other == node) rest
        rw [List.length_cons] at size
        omega
      exact ⟨by simp, ih _ less _ rfl⟩

theorem checkLeaves_same {sources leaves : List Nat} (same : ∀ node, node ∈ leaves ↔ node ∈ sources) :
    checkLeaves sources leaves = .ok () := by
  have all : sources.eraseDups.filter leaves.eraseDups.contains = sources.eraseDups := by
    simp [List.filter_eq_self, same]
  have perm : sources.eraseDups.Perm leaves.eraseDups :=
    (List.perm_ext_iff_of_nodup (nodup_eraseDups _) (nodup_eraseDups _)).mpr (by simp [same])
  simp [checkLeaves, checkCount, all, perm.length_eq]

theorem longestPathOrder_searched {g : Graph} (built : g.Built) (nonempty : g.size ≠ 0) :
    ∃ tree order, g.pathTree = .ok tree ∧ (∀ leaf, leaf ∈ tree.sortedLeaves ↔ leaf ∈ g.sources) ∧
      g.depthFirstOrder (fun node => (tree.distance[node]?).getD 0) tree.sortedLeaves = .ok order ∧
      g.Linear order ∧ g.longestPathOrder = .ok order := by
  obtain ⟨tree, planned, leaves⟩ := pathTree_leaves built nonempty
  obtain ⟨order, searched, linear⟩ :=
    depthFirstOrder_linear built (fun node => (tree.distance[node]?).getD 0) leaves
  refine ⟨tree, order, planned, leaves, searched, linear, ?_⟩
  simp [longestPathOrder, nonempty, planned, checkLeaves_same leaves, searched, checkCount,
    linear.length, bind, Except.bind, pure, Except.pure]

theorem longestPathOrder_linear {g : Graph} (built : g.Built) :
    ∃ order, g.longestPathOrder = .ok order ∧ g.Linear order := by
  by_cases empty : g.size = 0
  next =>
    refine ⟨[], by simp [longestPathOrder, empty, pure, Except.pure], ?_, ?_⟩
    next => simp [nodes, empty]
    next =>
      intro producer consumer present
      have inside := (hasEdge_iff.mp present).inside
      simp [empty] at inside
  next =>
    obtain ⟨tree, order, -, -, -, linear, planned⟩ := longestPathOrder_searched built empty
    exact ⟨order, planned, linear⟩

theorem linearize_linear {g : Graph} (built : g.Built) (strategy : Strategy) :
    ∃ order, g.linearize strategy = .ok order ∧ g.Linear order := by
  cases strategy with
  | plain =>
    obtain ⟨order, sorted, linear⟩ := plainOrder_linear built
    refine ⟨order, ?_, linear⟩
    simp [linearize, sorted, checkCount, linear.length, bind, Except.bind, pure, Except.pure]
  | longestPath =>
    obtain ⟨order, sorted, linear⟩ := longestPathOrder_linear built
    refine ⟨order, ?_, linear⟩
    simp [linearize, sorted, checkCount, linear.length, bind, Except.bind, pure, Except.pure]

theorem linearize_longestPath {g : Graph} (reached : g.Built ∨ ∃ ops, ofOps ops = .ok g) :
    ∃ order, g.longestPathOrder = .ok order ∧ g.linearize .longestPath = .ok order ∧
      g.Linear order := by
  have built : g.Built := by
    rcases reached with built | ⟨ops, planned⟩
    next => exact built
    next => exact built_ofOps planned
  obtain ⟨order, planned, linear⟩ := longestPathOrder_linear built
  refine ⟨order, planned, ?_, linear⟩
  simp [linearize, planned, checkCount, linear.length, bind, Except.bind, pure, Except.pure]

theorem linearize_longestPath_fork :
    let fork := ((empty 3).setLabel 0 1 .empty).setLabel 0 2 .empty
    (fork.Built ∨ ∃ ops, ofOps ops = .ok fork) ∧ ∃ order, fork.longestPathOrder = .ok order ∧
      fork.linearize .longestPath = .ok order ∧ fork.Linear order := by
  intro fork
  have first : (empty 3).addEdge 0 1 .empty = .ok ((empty 3).setLabel 0 1 .empty) := by
    decide +kernel
  have second : ((empty 3).setLabel 0 1 .empty).addEdge 0 2 .empty = .ok fork := by decide +kernel
  have reached : fork.Built ∨ ∃ ops, ofOps ops = .ok fork :=
    .inl (.addEdge (.addEdge (.isolated 3) first) second)
  exact ⟨reached, linearize_longestPath reached⟩

end Graph

end StoragePlan
