import Mathlib.Data.List.Induction
import StoragePlan.Proofs.Order.LongestPath

set_option autoImplicit false

namespace StoragePlan

open Relation (ReflTransGen)

theorem foldl_max_spec (heights : List Nat) :
    (∀ height ∈ heights, height ≤ heights.foldl max 0) ∧
      (heights.foldl max 0 = 0 ∨ heights.foldl max 0 ∈ heights) := by
  rw [List.foldl_max, Nat.zero_max]
  cases found : heights.max? with
  | none => simp_all
  | some greatest =>
    have ⟨member, bound⟩ := List.max?_eq_some_iff.mp found
    exact ⟨bound, .inr member⟩

section Heights

variable {children : Nat → List Nat} {members front back : List Nat} {node : Nat}

namespace Graph

theorem treeHeights_concat (children : Nat → List Nat) (front : List Nat) (node : Nat) :
    treeHeights children (front ++ [node]) = (treeHeights children front).put node
      (((children node).map fun child => (treeHeights children front).height child + 1).foldl max 0) := by
  simp only [treeHeights, List.foldl_append, List.foldl_cons, List.foldl_nil, Table.height]

theorem get?_treeHeights_append (later : node ∉ back) :
    (treeHeights children (front ++ back)).get? node = (treeHeights children front).get? node := by
  induction back generalizing front with
  | nil => rw [List.append_nil]
  | cons head back ih =>
    rw [List.mem_cons, not_or] at later
    rw [List.append_cons, ih later.2, treeHeights_concat, Table.get?_put, if_neg (Ne.symm later.1)]

theorem mem_keys_treeHeights : node ∈ (treeHeights children members).keys ↔ node ∈ members := by
  induction members using List.reverseRecOn with
  | nil => exact Iff.rfl
  | append_singleton front last ih =>
    rw [treeHeights_concat, Table.mem_keys_put, ih, List.mem_append, List.mem_singleton, or_comm]

end Graph

structure Table.Measures (heights : Table Nat Nat) (children : Nat → List Nat) : Prop where
  above : ∀ node, ∀ child ∈ children node, heights.height child < heights.height node
  attained : ∀ node, heights.height node = 0 ∨
    ∃ child ∈ children node, heights.height node = heights.height child + 1

variable (nodup : members.Nodup) (sorted : members.Pairwise fun a b => b ∉ children a)
  (inside : ∀ node, ∀ child ∈ children node, child ∈ members ∧ node ∈ members ∧ child ≠ node)

include nodup sorted inside

theorem get?_treeHeights (member : node ∈ members) :
    (Graph.treeHeights children members).get? node = some (((children node).map fun child =>
      (Graph.treeHeights children members).height child + 1).foldl max 0) := by
  obtain ⟨front, back, rfl⟩ := List.append_of_mem member
  have ⟨_, nodup', _⟩ := List.nodup_append.mp nodup
  have behind := (List.pairwise_cons.mp (List.pairwise_append.mp sorted).2.1).1
  have known : ∀ child ∈ children node, (Graph.treeHeights children (front ++ node :: back)).height child =
      (Graph.treeHeights children front).height child := by
    intro child below
    have ⟨_, _, different⟩ := inside node child below
    have later : child ∉ node :: back := by
      rw [List.mem_cons, not_or]
      exact ⟨different, fun placed => behind child placed below⟩
    rw [Table.height, Table.height, Graph.get?_treeHeights_append later]
  rw [List.append_cons, Graph.get?_treeHeights_append (List.nodup_cons.mp nodup').1,
    Graph.treeHeights_concat, Table.get?_put, if_pos rfl, ← List.append_cons]
  congr 2
  exact List.map_congr_left fun child below => by rw [known child below]

theorem measures_treeHeights : (Graph.treeHeights children members).Measures children := by
  have spec (node : Nat) := foldl_max_spec
    ((children node).map fun child => (Graph.treeHeights children members).height child + 1)
  have height (node : Nat) (member : node ∈ members) :=
    congrArg (Option.getD · 0) (get?_treeHeights nodup sorted inside member)
  constructor
  case above =>
    intro node child below
    have member := (inside node child below).2.1
    have bound := (spec node).1 _ (List.mem_map_of_mem below)
    exact Nat.lt_of_succ_le (Nat.le_trans bound (Nat.le_of_eq (height node member).symm))
  case attained =>
    intro node
    by_cases member : node ∈ members
    next =>
      refine (spec node).2.imp (height node member).trans fun among => ?_
      obtain ⟨child, below, same⟩ := List.mem_map.mp among
      exact ⟨child, below, (height node member).trans same.symm⟩
    next =>
      left
      have absent := @Graph.get?_treeHeights_append children [] members node member
      rw [List.nil_append] at absent
      rw [Table.height, absent]
      rfl

end Heights

namespace Graph

section Members

variable {g : Graph} {order : List Nat} (linear : g.Linear order) (built : g.Built)
  (nonempty : g.size ≠ 0)

include linear

include built nonempty

theorem Linear.mem_members {node : Nat} : node ∈ g.members order ↔
    ∃ source ∈ g.sources, ReflTransGen (g.toRoot order).Goes source node := by
  simp only [← linear.longest.mem_path_iff, ← linear.pathFrom_size]
  exact linear.mem_members_iff_on_path built nonempty

theorem Linear.measures : (treeHeights ((g.toRoot order).childrenIn (g.members order))
    (g.members order)).Measures ((g.toRoot order).childrenIn (g.members order)) := by
  have sorted : (g.members order).Pairwise fun a b => a ≠ b ∧ ¬ (g.toRoot order).Goes b a :=
    linear.candidates_sorted.filter _
  refine measures_treeHeights (sorted.imp And.left) (sorted.imp fun apart below => ?_) ?_
  next => exact apart.2 (Routes.mem_childrenIn.mp below).2
  next =>
    intro node child below
    have ⟨member, step⟩ := Routes.mem_childrenIn.mp below
    obtain ⟨source, start, reached⟩ := (linear.mem_members built nonempty).mp member
    refine ⟨member, (linear.mem_members built nonempty).mpr ⟨source, start, reached.tail step⟩, ?_⟩
    rintro rfl
    exact Nat.lt_irrefl _ (linear.next_later step)

end Members

section Tree

variable {g : Graph} {tree : PathTree} {order : List Nat} (planted : g.Tree tree order)
  (built : g.Built) (nonempty : g.size ≠ 0) {node : Nat}

include planted

theorem Tree.mem_keys_heights : node ∈ tree.heights.keys ↔ node ∈ g.members order :=
  planted.heights ▸ mem_keys_treeHeights

theorem Tree.get?_heights {height : Nat} : tree.heights.get? node = some height ↔
    node ∈ g.members order ∧ height = tree.heights.height node := by
  rw [← planted.mem_keys_heights, Table.mem_keys_iff, Table.height]
  cases tree.heights.get? node with
  | none => simp
  | some known => simp [eq_comm]

include built nonempty

theorem Tree.mem_members_iff_path : node ∈ g.members order ↔
    ∃ source path, tree.paths.get? source = some path ∧ node ∈ path := by
  simp only [planted.linear.mem_members built nonempty, planted.path,
    ← planted.linear.longest.mem_path_iff]
  constructor
  next =>
    intro given
    obtain ⟨source, start, on⟩ := given
    exact ⟨source, _, ⟨start, rfl⟩, on⟩
  next =>
    intro given
    obtain ⟨source, _, ⟨start, rfl⟩, on⟩ := given
    exact ⟨source, start, on⟩

theorem Tree.measures : tree.heights.Measures ((g.toRoot order).childrenIn (g.members order)) :=
  planted.heights ▸ planted.linear.measures built nonempty

theorem Tree.height_add_le {a b : Nat} (member : a ∈ g.members order)
    (reached : ReflTransGen (g.toRoot order).Goes a b) :
    tree.heights.height a + (g.toRoot order).distance a ≤
      tree.heights.height b + (g.toRoot order).distance b := by
  induction reached using ReflTransGen.head_induction_on with
  | refl => exact Nat.le_refl _
  | @head a c step reached ih =>
    have mem_members {node : Nat} := @Linear.mem_members g order planted.linear built nonempty node
    obtain ⟨source, start, above⟩ := mem_members.mp member
    have higher := (planted.measures built nonempty).above c a (Routes.mem_childrenIn.mpr ⟨member, step⟩)
    have further := (planted.linear.longest.step a c step).2.1
    have rest := ih (mem_members.mpr ⟨source, start, above.tail step⟩)
    omega

theorem Tree.exists_source (member : node ∈ g.members order) :
    ∃ source ∈ g.sources, ReflTransGen (g.toRoot order).Goes source node ∧
      (g.toRoot order).distance source = (g.toRoot order).distance node + tree.heights.height node := by
  have measures := planted.measures built nonempty
  induction found : tree.heights.height node generalizing node with
  | zero =>
    obtain ⟨source, start, reached⟩ := (planted.linear.mem_members built nonempty).mp member
    cases reached.cases_tail with
    | inl same => exact ⟨source, start, reached, by rw [same, Nat.add_zero]⟩
    | inr last =>
      -- Whatever comes before it on a path is a child, and then it would be higher.
      obtain ⟨child, reached', step⟩ := last
      have inside := (planted.linear.mem_members built nonempty).mpr ⟨source, start, reached'⟩
      have higher := measures.above node child (Routes.mem_childrenIn.mpr ⟨inside, step⟩)
      omega
  | succ steps ih =>
    rcases measures.attained node with low | ⟨child, below, same⟩
    next => omega
    next =>
      have ⟨inside, step⟩ := Routes.mem_childrenIn.mp below
      obtain ⟨source, start, reached, far⟩ := ih inside (by omega)
      have further := (planted.linear.longest.step child node step).2.1
      exact ⟨source, start, reached.tail step, by omega⟩

theorem Tree.isGreatest_height (member : node ∈ g.members order) :
    IsGreatest {position | ∃ source path, tree.paths.get? source = some path ∧
      path[position]? = some node} (tree.heights.height node) := by
  have longest := planted.linear.longest
  constructor
  next =>
    obtain ⟨source, start, reached, far⟩ := planted.exists_source built nonempty member
    obtain ⟨position, here⟩ := List.mem_iff_getElem?.mp (longest.mem_path_iff.mpr reached)
    have place := longest.getElem?_path here
    obtain rfl : position = tree.heights.height node := by omega
    exact ⟨source, _, (planted.path source _).mpr ⟨start, rfl⟩, here⟩
  next =>
    intro position ⟨source, path, given, here⟩
    obtain ⟨start, rfl⟩ := (planted.path source path).mp given
    have place := longest.getElem?_path here
    have inside := (planted.linear.mem_members built nonempty).mpr ⟨source, start, .refl⟩
    have bound := planted.height_add_le built nonempty inside
      (longest.mem_path_iff.mp (List.mem_of_getElem? here))
    omega

end Tree

end Graph

end StoragePlan
