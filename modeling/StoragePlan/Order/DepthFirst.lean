import StoragePlan.Order.PathTree

set_option autoImplicit false

namespace StoragePlan

structure Search where
  -- The nodes to look at, the next one in front. A node may be put there several times.
  fringe : List Nat
  seen : List Nat
  -- The nodes with everything behind them finished before, the latest in front.
  finished : List Nat

namespace Search

def start : Search := ⟨[], [], []⟩

/-- There is nothing left to do for a finished node, nor for a number that the graph has no node of. -/
def isSettled (g : Graph) (s : Search) (node : Nat) : Bool :=
  s.finished.contains node || g.size ≤ node

def ahead (g : Graph) (s : Search) (node : Nat) : List Nat :=
  (g.successors node).filter fun next => !s.isSettled g next

/-- Nearer successors come first, and of equally near ones the one of greatest number. -/
def inVisitingOrder (distance : Nat → Nat) (successors : List Nat) : List Nat :=
  (sortBy (fun a b => distance b ≤ distance a) successors).reverse

def step (g : Graph) (distance : Nat → Nat) (s : Search) : Except PlanError (Option Search) :=
  match s.fringe with
  | [] => .ok none
  | node :: below =>
    if s.isSettled g node then .ok (some { s with fringe := below })
    else
      let seen := node :: s.seen
      let ahead := s.ahead g node
      match ahead.find? seen.contains with
      | some next => .error (.closesCycle node next ((g.label? node next).getD .empty))
      | none =>
        if ahead.isEmpty then .ok (some ⟨below, seen, node :: s.finished⟩)
        else .ok (some ⟨inVisitingOrder distance ahead ++ s.fringe, seen, s.finished⟩)

theorem mem_inVisitingOrder (distance : Nat → Nat) {successors : List Nat} {node : Nat} :
    node ∈ inVisitingOrder distance successors ↔ node ∈ successors := by
  rw [inVisitingOrder, List.mem_reverse, mem_sortBy]

def openCount (g : Graph) (known : List Nat) : Nat :=
  weightOf (fun _ => 1) (fun node => !known.contains node) g.nodes

def openWork (g : Graph) (s : Search) : Nat := openCount g s.finished + openCount g s.seen

def isFresh (g : Graph) (s : Search) : Bool :=
  match s.fringe with
  | [] => false
  | node :: _ => !s.isSettled g node && !s.seen.contains node

/-- Once a fresh node is in front, the next step sees or finishes it. -/
def turns (g : Graph) (s : Search) : Nat := if s.isFresh g then 0 else s.fringe.length + 1

theorem not_isSettled {g : Graph} {s : Search} {node : Nat} :
    s.isSettled g node = false ↔ node ∉ s.finished ∧ node < g.size := by
  simp [isSettled]

theorem not_contains_cons {known : List Nat} {node other : Nat}
    (h : (!(node :: known).contains other) = true) : (!known.contains other) = true := by
  simp_all

theorem openCount_cons_le (g : Graph) (known : List Nat) (node : Nat) :
    openCount g (node :: known) ≤ openCount g known :=
  weightOf_le (fun _ => not_contains_cons) _

theorem openCount_cons_lt {g : Graph} {known : List Nat} {node : Nat} (inside : node < g.size)
    (fresh : node ∉ known) : openCount g (node :: known) < openCount g known := by
  have kept : (!known.contains node) = true := by simpa using fresh
  exact @weightOf_add_le Nat (fun _ => 1) _ _ _ _ (fun _ => not_contains_cons)
    (List.mem_range.mpr inside) kept (by simp)

theorem isFresh_push {g : Graph} (distance : Nat → Nat) {s : Search} {node : Nat}
    (unseen : (s.ahead g node).find? (node :: s.seen).contains = none)
    (something : s.ahead g node ≠ []) :
    isFresh g ⟨inVisitingOrder distance (s.ahead g node) ++ s.fringe, node :: s.seen, s.finished⟩ := by
  cases order : inVisitingOrder distance (s.ahead g node) with
  | nil =>
    have ⟨next, inside⟩ := List.exists_mem_of_ne_nil _ something
    rw [← mem_inVisitingOrder distance, order] at inside
    simp at inside
  | cons next rest =>
    have inside : next ∈ s.ahead g node := by
      rw [← mem_inVisitingOrder distance, order]
      exact List.mem_cons_self
    have unsettled : s.isSettled g next = false := by
      simpa [ahead] using (List.mem_filter.mp inside).2
    have fresh := List.find?_eq_none.mp unseen next inside
    simp only [isSettled] at unsettled
    simp only [isFresh, List.cons_append, isSettled, unsettled, fresh]
    rfl

theorem step_less {g : Graph} {distance : Nat → Nat} {s s' : Search}
    (h : s.step g distance = .ok (some s')) :
    Prod.Lex (· < ·) (· < ·) (s'.openWork g, s'.turns g) (s.openWork g, s.turns g) := by
  unfold step at h
  split at h
  next => simp at h
  next node below front =>
    split at h
    next settled =>
      obtain rfl := Option.some.inj (Except.ok.inj h)
      have stale : s.isFresh g = false := by simp [isFresh, front, settled]
      refine .right _ ?_
      simp only [turns, stale, front, List.length_cons]
      split <;> simp
    next unsettled =>
      obtain ⟨unfinished, inside⟩ := not_isSettled.mp (Bool.not_eq_true _ ▸ unsettled)
      dsimp only at h
      split at h
      next => simp at h
      next unseen =>
        split at h
        next =>
          obtain rfl := Option.some.inj (Except.ok.inj h)
          have finish := openCount_cons_lt inside unfinished
          have see := openCount_cons_le g s.seen node
          refine .left _ _ ?_
          simp only [openWork]
          omega
        next something =>
          obtain rfl := Option.some.inj (Except.ok.inj h)
          by_cases known : node ∈ s.seen
          next =>
            have stale : s.isFresh g = false := by simp [isFresh, front, known]
            have fresh := isFresh_push distance unseen (by simpa using something)
            rw [Prod.lex_def]
            simp only [openWork, turns, stale, fresh, if_true]
            have see := openCount_cons_le g s.seen node
            rcases Nat.lt_or_eq_of_le see with less | same
            next => exact .inl (by omega)
            next => exact .inr ⟨by omega, by simp⟩
          next =>
            have see := openCount_cons_lt inside known
            refine .left _ _ ?_
            simp only [openWork]
            omega

def run (g : Graph) (distance : Nat → Nat) (s : Search) : Except PlanError Search :=
  match _h : s.step g distance with
  | .error error => .error error
  | .ok none => .ok s
  | .ok (some next) => run g distance next
termination_by (s.openWork g, s.turns g)
decreasing_by exact step_less _h

end Search

namespace Graph

def depthFirstOrder (g : Graph) (distance : Nat → Nat) (starts : List Nat) :
    Except PlanError (List Nat) := do
  let s ← starts.foldlM (fun s node => Search.run g distance { s with fringe := [node] }) .start
  return s.finished

/-- The larger of the two counts is expected, so any difference shows. -/
def checkLeaves (sources leaves : List Nat) : Except PlanError Unit :=
  let sources := sources.eraseDups
  let leaves := leaves.eraseDups
  checkCount .leavesAmongSources (max sources.length leaves.length)
    (sources.filter leaves.contains).length

def longestPathOrder (g : Graph) : Except PlanError (List Nat) := do
  if g.size = 0 then return []
  let tree ← g.pathTree
  checkLeaves g.sources tree.sortedLeaves
  let order ← g.depthFirstOrder (fun node => (tree.distance[node]?).getD 0) tree.sortedLeaves
  checkCount .longestPathOrder g.size order.length
  return order

end Graph

end StoragePlan
