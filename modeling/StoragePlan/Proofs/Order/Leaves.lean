import Mathlib.Data.List.Pairwise
import StoragePlan.Proofs.Order.Finishing
import StoragePlan.Proofs.Order.Heights

set_option autoImplicit false

namespace StoragePlan

open Relation (ReflTransGen)

section Leaves

variable {children : Nat → List Nat}

def Below (children : Nat → List Nat) (node above : Nat) : Prop :=
  ReflTransGen (fun child parent => child ∈ children parent) node above

def Parted (children : Nat → List Nat) (r : Nat → Nat → Prop) (a b : Nat) : Prop :=
  ∃ parent, ∃ left ∈ children parent, ∃ right ∈ children parent,
    r left right ∧ Below children a left ∧ Below children b right

theorem below_of_mem_leavesBelow {leaf depth node : Nat}
    (member : leaf ∈ leavesBelow children depth node) : Below children leaf node := by
  induction depth generalizing node with
  | zero =>
    obtain rfl : leaf = node := by simpa [leavesBelow] using member
    exact .refl
  | succ depth ih =>
    rw [leavesBelow] at member
    split at member
    next =>
      obtain rfl : leaf = node := by simpa using member
      exact .refl
    next =>
      obtain ⟨child, below, inside⟩ := List.mem_flatMap.mp member
      exact (ih inside).tail below

theorem leavesBelow_pairwise {r : Nat → Nat → Prop} (sorted : ∀ parent, (children parent).Pairwise r)
    (depth node : Nat) : (leavesBelow children depth node).Pairwise (Parted children r) := by
  induction depth generalizing node with
  | zero => exact List.pairwise_singleton _ _
  | succ depth ih =>
    rw [leavesBelow]
    split
    next => exact List.pairwise_singleton _ _
    next =>
      refine List.pairwise_flatMap.mpr ⟨fun child _ => ih child, ?_⟩
      refine (sorted node).imp_of_mem fun {left right} first second related a inside b inside' => ?_
      exact ⟨node, left, first, right, second, related, below_of_mem_leavesBelow inside,
        below_of_mem_leavesBelow inside'⟩

theorem getLast?_leavesBelow {height distance : Nat → Nat}
    (closer : ∀ parent, ∀ child ∈ children parent, distance child = distance parent + 1)
    (highest : ∀ parent, height parent = 0 ∧ children parent = [] ∨
      ∃ front last, children parent = front ++ [last] ∧ height parent = height last + 1)
    {depth node : Nat} (enough : height node ≤ depth) :
    ∃ leaf, (leavesBelow children depth node).getLast? = some leaf ∧
      distance leaf = distance node + height node := by
  induction depth generalizing node with
  | zero => exact ⟨node, rfl, by omega⟩
  | succ depth ih =>
    rcases highest node with ⟨low, bare⟩ | ⟨front, last, split, higher⟩
    next => exact ⟨node, by simp [leavesBelow, bare], by omega⟩
    next =>
      obtain ⟨leaf, found, deep⟩ := @ih last (by omega)
      have further := closer node last (by simp [split])
      refine ⟨leaf, ?_, by omega⟩
      rw [leavesBelow]
      cases given : children node with
      | nil => simp [split] at given
      | cons head rest =>
        simp only
        rw [← given, split, List.flatMap_append, List.flatMap_singleton, List.getLast?_append, found]
        rfl

end Leaves

def LowerInTree (heights : Table Nat Nat) (a b : Nat) : Prop :=
  heights.height a < heights.height b ∨ heights.height a = heights.height b ∧ a < b

theorem LowerInTree.asymm {heights : Table Nat Nat} {a b : Nat} (lower : LowerInTree heights a b) :
    ¬ LowerInTree heights b a := by
  unfold LowerInTree at *
  omega

theorem lowerInTree_total {heights : Table Nat Nat} {a b : Nat} (different : a ≠ b) :
    LowerInTree heights a b ∨ LowerInTree heights b a := by
  unfold LowerInTree
  omega

theorem sorted_children (heights : Table Nat Nat) {children : List Nat} (nodup : children.Nodup) :
    (sortBy (beforeInTree heights) children).Pairwise (LowerInTree heights) := by
  refine (sortBy_stable beforeInTree_total beforeInTree_trans nodup).imp fun {a b} ⟨before, apart⟩ => ?_
  rw [beforeInTree_iff] at before apart
  have different : a ≠ b := fun same => apart (.inr ⟨same ▸ rfl, Nat.le_of_eq same.symm⟩) same
  unfold LowerInTree
  omega

def MeetAt (p q : List Nat) (node left right : Nat) : Prop :=
  ∃ front back front' back', p = front ++ left :: node :: back ∧ q = front' ++ right :: node :: back' ∧
    (∀ other ∈ front ++ [left], other ∉ q) ∧ ∀ other ∈ front' ++ [right], other ∉ p

structure Routes.Join (routes : Routes) (s t node left right : Nat) : Prop where
  first : ReflTransGen routes.Goes s left
  second : ReflTransGen routes.Goes t right
  step : routes.Goes left node
  step' : routes.Goes right node
  different : left ≠ right

namespace Routes

theorem Join.symm {routes : Routes} {s t node left right : Nat}
    (join : routes.Join s t node left right) : routes.Join t s node right left :=
  ⟨join.second, join.first, join.step', join.step, join.different.symm⟩

section Longest

variable {routes : Routes} {g : Graph} (longest : routes.Longest g) {s t node left right : Nat}

include longest

theorem Longest.sides_level (join : routes.Join s t node left right) :
    routes.distance left = routes.distance node + 1 ∧ routes.distance right = routes.distance node + 1 :=
  ⟨(longest.step _ _ join.step).2.1, (longest.step _ _ join.step').2.1⟩

theorem Longest.join_ne (join : routes.Join s t node left right) : s ≠ t := by
  rintro rfl
  have ⟨level, level'⟩ := longest.sides_level join
  exact join.different (longest.eq_of_distance join.first join.second (level.trans level'.symm))

theorem Longest.join_le {node' left' right' : Nat} (join : routes.Join s t node left right)
    (join' : routes.Join s t node' left' right') :
    routes.distance node ≤ routes.distance node' := by
  by_contra farther
  have ⟨level, level'⟩ := longest.sides_level join'
  have forth := longest.onward (join.first.tail join.step) join'.first (by omega)
  have forth' := longest.onward (join.second.tail join.step') join'.second (by omega)
  exact join'.different (longest.eq_of_distance forth forth' (level.trans level'.symm))

theorem Longest.join_unique {node' left' right' : Nat} (join : routes.Join s t node left right)
    (join' : routes.Join s t node' left' right') : left = left' ∧ right = right' := by
  have same := Nat.le_antisymm (longest.join_le join join') (longest.join_le join' join)
  have ⟨level, side⟩ := longest.sides_level join
  have ⟨level', side'⟩ := longest.sides_level join'
  exact ⟨longest.eq_of_distance join.first join'.first (by omega),
    longest.eq_of_distance join.second join'.second (by omega)⟩

theorem Longest.apart_of_join (join : routes.Join s t node left right) {other : Nat}
    (reached : ReflTransGen routes.Goes s other) (farther : routes.distance node < routes.distance other) :
    other ∉ routes.path t := by
  intro member
  have ⟨level, level'⟩ := longest.sides_level join
  have forth := longest.onward reached join.first (by omega)
  have forth' := longest.onward (longest.mem_path_iff.mp member) join.second (by omega)
  exact join.different (longest.eq_of_distance forth forth' (level.trans level'.symm))

theorem Longest.split_of_join (join : routes.Join s t node left right) :
    ∃ front, routes.path s = front ++ left :: node :: (routes.path node).tail ∧
      ∀ other ∈ front ++ [left], other ∉ routes.path t := by
  obtain ⟨front, split, farther⟩ := longest.path_split join.first
  obtain ⟨rest, same⟩ := routes.path_eq_cons node
  have level := (longest.sides_level join).1
  refine ⟨front, by rw [split, longest.path_step join.step, same, List.tail_cons], ?_⟩
  intro other inside
  have reached : ReflTransGen routes.Goes s other := by
    refine longest.mem_path_iff.mp ?_
    rw [split, longest.path_step join.step, List.append_cons]
    exact List.mem_append_left _ inside
  refine longest.apart_of_join join reached ?_
  rcases List.mem_append.mp inside with before | last
  next => exact Nat.lt_trans (by omega) (farther other before)
  next =>
    rw [List.mem_singleton.mp last]
    omega

theorem Longest.meetAt_iff : MeetAt (routes.path s) (routes.path t) node left right ↔
    routes.Join s t node left right := by
  constructor
  next =>
    intro ⟨front, back, front', back', split, split', apart, _⟩
    have first : left ∈ routes.path s := split ▸ by simp
    have second : right ∈ routes.path t := split' ▸ by simp
    exact ⟨longest.mem_path_iff.mp first, longest.mem_path_iff.mp second,
      longest.goes_of_split split, longest.goes_of_split split',
      fun same => apart left (by simp) (same ▸ second)⟩
  next =>
    intro join
    obtain ⟨front, split, apart⟩ := longest.split_of_join join
    obtain ⟨front', split', apart'⟩ := longest.split_of_join join.symm
    exact ⟨front, _, front', _, split, split', apart, apart'⟩

end Longest

end Routes

namespace Graph

section Tree

variable {g : Graph} {tree : PathTree} {order : List Nat} (planted : g.Tree tree order)
  (built : g.Built) (nonempty : g.size ≠ 0)

def sortedChildren (g : Graph) (order : List Nat) (heights : Table Nat Nat) (node : Nat) : List Nat :=
  sortBy (beforeInTree heights) ((g.toRoot order).childrenIn (g.members order) node)

theorem mem_sortedChildren {heights : Table Nat Nat} {child node : Nat} :
    child ∈ g.sortedChildren order heights node ↔
      child ∈ g.members order ∧ (g.toRoot order).Goes child node :=
  (mem_sortBy _).trans Routes.mem_childrenIn

theorem goes_of_below {heights : Table Nat Nat} {a b : Nat}
    (below : Below (g.sortedChildren order heights) a b) : ReflTransGen (g.toRoot order).Goes a b :=
  ReflTransGen.mono (fun _ _ child => (mem_sortedChildren.mp child).2) a b below

include planted

theorem Tree.pairwise_sortedChildren (node : Nat) :
    (g.sortedChildren order tree.heights node).Pairwise (LowerInTree tree.heights) :=
  sorted_children tree.heights (planted.linear.nodup_childrenIn node)

theorem Tree.pairwise_sortedLeaves : tree.sortedLeaves.Pairwise fun s t => ∃ node left right,
    (g.toRoot order).Join s t node left right ∧ LowerInTree tree.heights left right := by
  have parted := leavesBelow_pairwise planted.pairwise_sortedChildren (g.size + 1) g.treeRoot
  rw [planted.leaves]
  refine parted.imp fun {s t} ⟨node, left, first, right, second, lower, below, below'⟩ => ?_
  refine ⟨node, left, right, ⟨goes_of_below below, goes_of_below below',
    (mem_sortedChildren.mp first).2, (mem_sortedChildren.mp second).2, ?_⟩, lower⟩
  exact fun same => lower.asymm (same ▸ lower)

theorem Tree.nodup_sortedLeaves : tree.sortedLeaves.Nodup :=
  planted.pairwise_sortedLeaves.imp fun ⟨_, _, _, join, _⟩ => planted.linear.longest.join_ne join

theorem Tree.exists_join {s t : Nat} (first : s ∈ tree.sortedLeaves) (second : t ∈ tree.sortedLeaves)
    (different : s ≠ t) : ∃ node left right, (g.toRoot order).Join s t node left right := by
  have symm : Std.Symm fun s t => ∃ node left right, (g.toRoot order).Join s t node left right :=
    ⟨fun _ _ ⟨node, left, right, join⟩ => ⟨node, right, left, join.symm⟩⟩
  have joined : tree.sortedLeaves.Pairwise fun s t =>
      ∃ node left right, (g.toRoot order).Join s t node left right :=
    planted.pairwise_sortedLeaves.imp fun ⟨node, left, right, join, _⟩ => ⟨node, left, right, join⟩
  exact joined.forall first second different

section Join

variable {s t node left right : Nat} (first : s ∈ tree.sortedLeaves) (second : t ∈ tree.sortedLeaves)
  (join : (g.toRoot order).Join s t node left right)

include first second join

theorem Tree.before_of_lower (lower : LowerInTree tree.heights left right) :
    tree.sortedLeaves.idxOf s < tree.sortedLeaves.idxOf t := by
  have longest := planted.linear.longest
  refine idxOf_lt_of_pairwise planted.pairwise_sortedLeaves first second (longest.join_ne join) ?_
  intro ⟨_, _, _, join', lower'⟩
  have ⟨same, same'⟩ := longest.join_unique join.symm join'
  exact lower.asymm (same ▸ same' ▸ lower')

theorem Tree.before_iff : tree.sortedLeaves.idxOf s < tree.sortedLeaves.idxOf t ↔
    LowerInTree tree.heights left right := by
  refine ⟨fun before => ?_, planted.before_of_lower first second join⟩
  rcases lowerInTree_total join.different with lower | higher
  next => exact lower
  next => exact absurd before (Nat.lt_asymm (planted.before_of_lower second first join.symm higher))

end Join

include built nonempty

theorem Tree.highest (node : Nat) :
    tree.heights.height node = 0 ∧ g.sortedChildren order tree.heights node = [] ∨
      ∃ front last, g.sortedChildren order tree.heights node = front ++ [last] ∧
        tree.heights.height node = tree.heights.height last + 1 := by
  have measures := planted.measures built nonempty
  have above (child : Nat) (below : child ∈ g.sortedChildren order tree.heights node) :=
    measures.above node child ((mem_sortBy _).mp below)
  rcases List.eq_nil_or_concat (g.sortedChildren order tree.heights node) with bare | ⟨front, last, split⟩
  next =>
    refine .inl ⟨(measures.attained node).resolve_right fun ⟨child, below, _⟩ => ?_, bare⟩
    have inside : child ∈ g.sortedChildren order tree.heights node := (mem_sortBy _).mpr below
    simp [bare] at inside
  next =>
    rw [List.concat_eq_append] at split
    refine .inr ⟨front, last, split, ?_⟩
    have under := above last (by simp [split])
    rcases measures.attained node with low | ⟨child, below, high⟩
    next => omega
    next =>
      -- The children ascend in height, so none of them is higher than the last one.
      have inside : child ∈ front ++ [last] := split ▸ (mem_sortBy _).mpr below
      have sorted := split ▸ planted.pairwise_sortedChildren node
      rcases List.mem_append.mp inside with before | same
      next =>
        have lower := (List.pairwise_append.mp sorted).2.2 child before last List.mem_cons_self
        unfold LowerInTree at lower
        omega
      next => rw [high, List.mem_singleton.mp same]

theorem Tree.distance_root : (g.toRoot order).distance g.treeRoot = 0 := by
  have ended := ((eq_treeRoot_iff built nonempty).mp rfl).2
  cases step : ((g.toRoot order).route g.treeRoot).next with
  | none => exact (planted.linear.longest.stop _ step).1
  | some next => exact absurd (planted.linear.longest.step _ next step).1 (ended next)

theorem Tree.getLast?_sortedLeaves : ∃ leaf, tree.sortedLeaves.getLast? = some leaf ∧
    (g.toRoot order).distance leaf = tree.heights.height g.treeRoot := by
  have longest := planted.linear.longest
  obtain ⟨source, -, -, far⟩ :=
    planted.exists_source built nonempty (planted.linear.root_mem_members built nonempty)
  have bound := planted.linear.distance_le source
  have here := planted.distance_root built nonempty
  rw [planted.linear.length] at bound
  rw [planted.leaves]
  have closer (node child : Nat) (below : child ∈ g.sortedChildren order tree.heights node) :
      (g.toRoot order).distance child = (g.toRoot order).distance node + 1 :=
    (longest.step child node (mem_sortedChildren.mp below).2).2.1
  have shallow : tree.heights.height g.treeRoot ≤ g.size + 1 := by omega
  obtain ⟨leaf, found, deep⟩ := getLast?_leavesBelow closer (planted.highest built nonempty) shallow
  exact ⟨leaf, found, by omega⟩

omit nonempty in
theorem Tree.reaches_root {source : Nat} (start : source ∈ g.sources) :
    ReflTransGen (g.toRoot order).Goes source g.treeRoot := by
  rw [← planted.linear.longest.mem_path_iff, ← planted.linear.pathFrom_size]
  exact planted.linear.root_mem_path built start

omit nonempty in
theorem Tree.exists_farther {node : Nat} (inside : node < g.size) :
    ∃ source ∈ g.sources, (g.toRoot order).distance node ≤ (g.toRoot order).distance source := by
  obtain ⟨rank, ranked⟩ := built.ranked
  induction same : rank node using Nat.strongRecOn generalizing node with
  | _ bound ih =>
    by_cases first : ∃ producer, g.Leads producer node
    next =>
      obtain ⟨producer, edge⟩ := first
      obtain ⟨source, start, farther⟩ := ih (rank producer) (same ▸ ranked _ _ edge) edge.inside rfl
      have closer := planted.linear.longest.lt_of_onward (.inl edge)
      exact ⟨source, start, by omega⟩
    next => exact ⟨node, mem_sources.mpr ⟨inside, not_exists.mp first⟩, Nat.le_refl _⟩

theorem Tree.distance_le_height {node : Nat} (inside : node < g.extent) :
    (g.toRoot order).distance node ≤ tree.heights.height g.treeRoot := by
  have here := planted.distance_root built nonempty
  by_cases proper : node < g.size
  next =>
    obtain ⟨source, start, farther⟩ := planted.exists_farther built proper
    have member := (planted.linear.mem_members built nonempty).mpr ⟨source, start, .refl⟩
    have bound := planted.height_add_le built nonempty member (planted.reaches_root built start)
    omega
  next =>
    have root : node = g.treeRoot := by
      refine (eq_treeRoot_iff built nonempty).mpr ⟨inside, fun next edge => proper edge.inside⟩
    rw [root, here]
    exact Nat.zero_le _

end Tree

theorem Tree.head?_line {g : Graph} {tree : PathTree} {order line : List Nat}
    (planted : g.Tree tree order) (built : g.Built) (nonempty : g.size ≠ 0) (linear : g.Linear line)
    (reversed : line.filter g.sources.contains = tree.sortedLeaves.reverse) :
    ∃ first distance, line.head? = some first ∧ first ∈ g.sources ∧
      tree.distance[first]? = some distance ∧ ∀ other ∈ tree.distance, other ≤ distance := by
  obtain ⟨leaf, found, deep⟩ := planted.getLast?_sortedLeaves built nonempty
  cases line with
  | nil => exact absurd linear.length.symm nonempty
  | cons first rest =>
    have source := linear.head_source
    have known : g.sources.contains first = true := by simpa using source
    have last : some first = tree.sortedLeaves.getLast? := by
      rw [← List.head?_reverse, ← reversed, List.filter_cons_of_pos known, List.head?_cons]
    obtain rfl := Option.some.inj (last.trans found)
    have inside := lt_extent_of_lt (mem_sources.mp source).1
    refine ⟨first, _, rfl, source, planted.getElem?_distance.mpr ⟨inside, rfl⟩, fun other among => ?_⟩
    obtain ⟨node, here⟩ := List.mem_iff_getElem?.mp among
    obtain ⟨within, rfl⟩ := planted.getElem?_distance.mp here
    exact deep ▸ planted.distance_le_height built nonempty within

structure SortsLeaves (g : Graph) (tree : PathTree) (line : List Nat) : Prop where
  members : ∀ node, node ∈ tree.heights.keys ↔
    ∃ source path, tree.paths.get? source = some path ∧ node ∈ path
  heights : ∀ node height, tree.heights.get? node = some height →
    IsGreatest {position | ∃ source path, tree.paths.get? source = some path ∧
      path[position]? = some node} height
  nodup : tree.sortedLeaves.Nodup
  leaves : ∀ node, node ∈ tree.sortedLeaves ↔ node ∈ g.sources
  meet : ∀ s t p q, s ≠ t → tree.paths.get? s = some p → tree.paths.get? t = some q →
    ∃ node left right, MeetAt p q node left right
  inOrder : ∀ s t p q, s ≠ t → tree.paths.get? s = some p → tree.paths.get? t = some q →
    ∀ node left right, MeetAt p q node left right →
      ∃ hl hr, tree.heights.get? left = some hl ∧ tree.heights.get? right = some hr ∧
        (tree.sortedLeaves.idxOf s < tree.sortedLeaves.idxOf t ↔ hl < hr ∨ hl = hr ∧ left < right)
  reversed : line.filter g.sources.contains = tree.sortedLeaves.reverse
  first : ∃ first distance, line.head? = some first ∧ first ∈ g.sources ∧
    tree.distance[first]? = some distance ∧ ∀ other ∈ tree.distance, other ≤ distance

theorem pathTree_sorts_leaves {g : Graph} (built : g.Built) (nonempty : g.size ≠ 0) :
    ∃ tree line, g.pathTree = .ok tree ∧ g.longestPathOrder = .ok line ∧ g.SortsLeaves tree line := by
  obtain ⟨tree, line, found, leaves, searched, linear, planned⟩ :=
    longestPathOrder_searched built nonempty
  obtain ⟨tree', order, found', planted⟩ := pathTree_cases built nonempty
  obtain rfl : tree = tree' := Except.ok.inj (found.symm.trans found')
  have longest := planted.linear.longest
  have reversed := depthFirstOrder_sources built planted.nodup_sortedLeaves
    (fun leaf => (leaves leaf).mp) searched
  have paths (s t : Nat) (p q : List Nat) (different : s ≠ t) (given : tree.paths.get? s = some p)
      (given' : tree.paths.get? t = some q) : (∃ node left right, MeetAt p q node left right) ∧
      ∀ node left right, MeetAt p q node left right →
        ∃ hl hr, tree.heights.get? left = some hl ∧ tree.heights.get? right = some hr ∧
          (tree.sortedLeaves.idxOf s < tree.sortedLeaves.idxOf t ↔ hl < hr ∨ hl = hr ∧ left < right) := by
    obtain ⟨start, rfl⟩ := (planted.path s p).mp given
    obtain ⟨start', rfl⟩ := (planted.path t q).mp given'
    have first := (leaves s).mpr start
    have second := (leaves t).mpr start'
    simp only [longest.meetAt_iff]
    refine ⟨planted.exists_join first second different, fun node left right join => ?_⟩
    have member := (planted.linear.mem_members built nonempty).mpr ⟨s, start, join.first⟩
    have member' := (planted.linear.mem_members built nonempty).mpr ⟨t, start', join.second⟩
    exact ⟨_, _, planted.get?_heights.mpr ⟨member, rfl⟩, planted.get?_heights.mpr ⟨member', rfl⟩,
      planted.before_iff first second join⟩
  refine ⟨tree, line, found, planned, ?members, ?heights, planted.nodup_sortedLeaves, leaves, ?meet, ?inOrder,
    reversed, planted.head?_line built nonempty linear reversed⟩
  case members =>
    exact fun node => planted.mem_keys_heights.trans (planted.mem_members_iff_path built nonempty)
  case heights =>
    intro node height given
    obtain ⟨member, rfl⟩ := planted.get?_heights.mp given
    exact planted.isGreatest_height built nonempty member
  case meet => exact fun s t p q different given given' => (paths s t p q different given given').1
  case inOrder => exact fun s t p q different given given' => (paths s t p q different given given').2

theorem pathTree_sorts_leaves_join :
    let join := (((empty 4).setLabel 0 3 .empty).setLabel 1 2 .empty).setLabel 2 3 .empty
    join.Built ∧ join.size ≠ 0 ∧ MeetAt [0, 3] [1, 2, 3] 3 0 2 ∧ ∃ tree, join.pathTree = .ok tree ∧
      tree.paths.get? 0 = some [0, 3] ∧ tree.paths.get? 1 = some [1, 2, 3] ∧
      tree.heights.get? 0 = some 0 ∧ tree.heights.get? 2 = some 1 ∧
      tree.sortedLeaves.idxOf 0 < tree.sortedLeaves.idxOf 1 := by
  intro join
  let one := (empty 4).setLabel 0 3 .empty
  let two := one.setLabel 1 2 .empty
  have first : (empty 4).addEdge 0 3 .empty = .ok one := by decide +kernel
  have second : one.addEdge 1 2 .empty = .ok two := by decide +kernel
  have third : two.addEdge 2 3 .empty = .ok join := by decide +kernel
  have built : join.Built := .addEdge (.addEdge (.addEdge (.isolated 4) first) second) third
  have nonempty : join.size ≠ 0 := by decide +kernel
  have meet : MeetAt [0, 3] [1, 2, 3] 3 0 2 :=
    ⟨[], [], [1], [], rfl, rfl, by decide, by decide⟩
  obtain ⟨evaluated, known, view⟩ : ∃ tree, join.pathTree = .ok tree ∧
      (tree.paths.get? 0, tree.paths.get? 1, tree.heights.get? 0, tree.heights.get? 2) =
        (some [0, 3], some [1, 2, 3], some 0, some 1) :=
    exists_ok_of_view (by decide +kernel)
  simp only [Prod.mk.injEq] at view
  obtain ⟨path, path', height, height'⟩ := view
  obtain ⟨tree, line, found, -, sorts⟩ := pathTree_sorts_leaves built nonempty
  obtain rfl : evaluated = tree := Except.ok.inj (known.symm.trans found)
  obtain ⟨hl, hr, low, high, iff⟩ := sorts.inOrder 0 1 _ _ (by decide) path path' _ _ _ meet
  obtain rfl : 0 = hl := Option.some.inj (height.symm.trans low)
  obtain rfl : 1 = hr := Option.some.inj (height'.symm.trans high)
  exact ⟨built, nonempty, meet, evaluated, known, path, path', height, height',
    iff.mpr (.inl Nat.zero_lt_one)⟩

end Graph

end StoragePlan
