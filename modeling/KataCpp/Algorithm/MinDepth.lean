import KataCpp.Core.Iteration
import KataCpp.Core.MachineInt

/-!
# The least depth of a leaf

`minDepthDfs` finds the least depth of a leaf by recursion, `minDepthBfs` level
by level with a queue.  At the beginning of each pass the queue holds exactly
the nodes of one level, from left to right, so the first leaf that is met lies
as high as any.

The number of nodes of a level is stored in an `int`.  A level of `2 ^ 31`
nodes looks empty, nothing is taken from the queue, and the loop never ends.
-/

namespace KataCpp.MinDepth

open BinaryTree Iteration MachineInt

variable {α : Type*}

def minDepthDfs : BinaryTree α → ℤ
  | .nil => 0
  | .node _ .nil right => wrap32 (minDepthDfs right + 1)
  | .node _ left .nil => wrap32 (minDepthDfs left + 1)
  | .node _ left right =>
      wrap32 (min (minDepthDfs left) (minDepthDfs right) + 1)

/-- `if (child) q.push(child);` -/
def pushed : BinaryTree α → List (BinaryTree α)
  | .nil => []
  | .node value left right => [.node value left right]

/-- The inner loop, with the number of its passes that are left. -/
def levelLoop (depth : ℤ) :
    ℕ → List (BinaryTree α) → Outcome (List (BinaryTree α)) ℤ
  | 0, q => .next q
  | _ + 1, [] => .fault
  | _ + 1, .nil :: _ => .fault
  | _ + 1, .node _ .nil .nil :: _ => .exit depth
  | count + 1, .node _ left right :: q =>
      levelLoop depth count (q ++ (pushed left ++ pushed right))

/-- A pass of the outer loop, on the queue and `depth`. -/
def bfsPass (state : List (BinaryTree α) × ℤ) :
    Outcome (List (BinaryTree α) × ℤ) ℤ :=
  if state.1.isEmpty then .exit state.2
  else
    match levelLoop state.2 (wrap32 state.1.length).toNat state.1 with
    | .next q => .next (q, wrap32 (state.2 + 1))
    | .exit depth => .exit depth
    | .fault => .fault

def minDepthBfs : BinaryTree α → ℕ → Option ℤ
  | .nil, _ => some 0
  | .node value left right, fuel =>
      loop bfsPass fuel ([.node value left right], 1)

/-! ## Leaves and levels -/

/-- There is a leaf with this many nodes on the path to it. -/
inductive LeafAt : BinaryTree α → ℕ → Prop
  | leaf (value : α) : LeafAt (.node value .nil .nil) 1
  | left {value : α} {left right : BinaryTree α} {depth : ℕ}
      (hleft : LeafAt left depth) :
      LeafAt (.node value left right) (depth + 1)
  | right {value : α} {left right : BinaryTree α} {depth : ℕ}
      (hright : LeafAt right depth) :
      LeafAt (.node value left right) (depth + 1)

def leafDepths (tree : BinaryTree α) : Set ℤ :=
  {depth | ∃ count, LeafAt tree count ∧ (count : ℤ) = depth}

def IsLeaf : BinaryTree α → Prop
  | .node _ .nil .nil => True
  | _ => False

def children : BinaryTree α → List (BinaryTree α)
  | .nil => []
  | .node _ left right => pushed left ++ pushed right

def nextLevel (nodes : List (BinaryTree α)) : List (BinaryTree α) :=
  nodes.flatMap children

/-- The nodes of a tree at a distance from its root, from left to right. -/
def level (tree : BinaryTree α) (distance : ℕ) : List (BinaryTree α) :=
  nextLevel^[distance] (pushed tree)

section Leaves

variable {tree : BinaryTree α} {depth : ℕ}

theorem not_leafAt_nil : ¬LeafAt (.nil : BinaryTree α) depth := by
  intro hleaf
  cases hleaf

theorem leafAt_one_iff : LeafAt tree 1 ↔ IsLeaf tree := by
  constructor
  · intro hleaf
    cases hleaf with
    | leaf value => trivial
    | left hleft => cases hleft
    | right hright => cases hright
  · intro hleaf
    match tree, hleaf with
    | .node value .nil .nil, _ => exact .leaf value

theorem leafAt_pos (hleaf : LeafAt tree depth) : 1 ≤ depth := by
  cases hleaf <;> omega

theorem mem_pushed_iff {child : BinaryTree α} :
    child ∈ pushed tree ↔ child = tree ∧ tree ≠ .nil := by
  cases tree <;> simp [pushed]

theorem leafAt_succ_succ_iff :
    LeafAt tree (depth + 2) ↔ ∃ child ∈ children tree,
      LeafAt child (depth + 1) := by
  constructor
  · intro hleaf
    cases hleaf with
    | left hleft =>
        refine ⟨_, ?_, hleft⟩
        simp only [children, List.mem_append, mem_pushed_iff, true_and]
        left
        rintro rfl
        exact not_leafAt_nil hleft
    | right hright =>
        refine ⟨_, ?_, hright⟩
        simp only [children, List.mem_append, mem_pushed_iff, true_and]
        right
        rintro rfl
        exact not_leafAt_nil hright
  · rintro ⟨child, hchild, hleaf⟩
    cases tree with
    | nil => exact absurd hchild List.not_mem_nil
    | node value left right =>
        rw [children, List.mem_append, mem_pushed_iff, mem_pushed_iff] at hchild
        rcases hchild with ⟨rfl, -⟩ | ⟨rfl, -⟩
        · exact .left hleaf
        · exact .right hleaf

/-- The leaves at a depth are the leaves of the level there. -/
theorem exists_isLeaf_iff (nodes : List (BinaryTree α)) (distance : ℕ) :
    (∃ node ∈ nextLevel^[distance] nodes, IsLeaf node) ↔
      ∃ node ∈ nodes, LeafAt node (distance + 1) := by
  induction distance generalizing nodes with
  | zero => simp only [Function.iterate_zero, id_eq, zero_add, leafAt_one_iff]
  | succ distance ih =>
      rw [Function.iterate_succ_apply, ih]
      simp only [leafAt_succ_succ_iff, nextLevel, List.mem_flatMap]
      constructor
      · rintro ⟨child, ⟨node, hnode, hchild⟩, hleaf⟩
        exact ⟨node, hnode, child, hchild, hleaf⟩
      · rintro ⟨node, hnode, child, hchild, hleaf⟩
        exact ⟨child, ⟨node, hnode, hchild⟩, hleaf⟩

theorem exists_isLeaf_level_iff (distance : ℕ) :
    (∃ node ∈ level tree distance, IsLeaf node) ↔
      LeafAt tree (distance + 1) := by
  rw [level, exists_isLeaf_iff]
  constructor
  · rintro ⟨node, hnode, hleaf⟩
    rw [mem_pushed_iff] at hnode
    exact hnode.1 ▸ hleaf
  · intro hleaf
    refine ⟨tree, ?_, hleaf⟩
    rw [mem_pushed_iff]
    refine ⟨rfl, ?_⟩
    rintro rfl
    exact not_leafAt_nil hleaf

end Leaves

/-! ## Depth first -/

/-- Every subtree has a leaf that an `int` can count the nodes to. -/
def Shallow : BinaryTree α → Prop
  | .nil => True
  | .node value left right =>
      (∃ depth < 2 ^ 31, LeafAt (.node value left right) depth) ∧
        Shallow left ∧ Shallow right

section DepthFirst

variable {left right : BinaryTree α} {value : α} {least : ℤ}

theorem leafDepths_nil : leafDepths (.nil : BinaryTree α) = ∅ := by
  ext depth
  simp [leafDepths, not_leafAt_nil]

theorem isLeast_leafDepths_leaf (value : α) :
    IsLeast (leafDepths (.node value .nil .nil)) 1 := by
  refine ⟨⟨1, .leaf value, rfl⟩, ?_⟩
  rintro depth ⟨count, hleaf, rfl⟩
  exact_mod_cast leafAt_pos hleaf

/-- Below a node that is not a leaf the paths go on. -/
theorem isLeast_leafDepths_node (hnode : ¬IsLeaf (.node value left right))
    (hleast : IsLeast (leafDepths left ∪ leafDepths right) least) :
    IsLeast (leafDepths (.node value left right)) (least + 1) := by
  constructor
  · rcases hleast.1 with ⟨count, hleaf, rfl⟩ | ⟨count, hleaf, rfl⟩
    · exact ⟨count + 1, .left hleaf, by simp⟩
    · exact ⟨count + 1, .right hleaf, by simp⟩
  · rintro depth ⟨count, hleaf, rfl⟩
    cases hleaf with
    | leaf value => exact absurd trivial hnode
    | left hleft =>
        have hle := hleast.2 (Or.inl ⟨_, hleft, rfl⟩)
        push_cast
        omega
    | right hright =>
        have hle := hleast.2 (Or.inr ⟨_, hright, rfl⟩)
        push_cast
        omega

/-- The same in `int` arithmetic. -/
theorem isLeast_wrap32_node (hshallow : Shallow (.node value left right))
    (hnode : ¬IsLeaf (.node value left right))
    (hleast : IsLeast (leafDepths left ∪ leafDepths right) least) :
    IsLeast (leafDepths (.node value left right)) (wrap32 (least + 1)) := by
  have hsucc := isLeast_leafDepths_node hnode hleast
  obtain ⟨⟨depth, hdepth, hleaf⟩, -⟩ := hshallow
  have hle := hsucc.2 ⟨depth, hleaf, rfl⟩
  obtain ⟨count, -, hcount⟩ := hsucc.1
  rwa [wrap32_eq_self (by omega) (by omega)]

/-- The smaller result of the subtrees that are not empty. -/
def leastBelow (left right : BinaryTree α) : ℤ :=
  match left, right with
  | .nil, right => minDepthDfs right
  | left, .nil => minDepthDfs left
  | left, right => min (minDepthDfs left) (minDepthDfs right)

theorem minDepthDfs_node (value : α) (left right : BinaryTree α) :
    minDepthDfs (.node value left right) =
      wrap32 (leastBelow left right + 1) := by
  match left, right with
  | .nil, _ => rfl
  | .node _ _ _, .nil => rfl
  | .node _ _ _, .node _ _ _ => rfl

theorem isLeast_leastBelow (hnode : ¬IsLeaf (.node value left right))
    (hleft : left ≠ .nil → IsLeast (leafDepths left) (minDepthDfs left))
    (hright : right ≠ .nil →
      IsLeast (leafDepths right) (minDepthDfs right)) :
    IsLeast (leafDepths left ∪ leafDepths right) (leastBelow left right) := by
  match left, right with
  | .nil, .nil => exact absurd trivial hnode
  | .nil, .node _ _ _ =>
      rw [leafDepths_nil, Set.empty_union]
      exact hright (by simp)
  | .node _ _ _, .nil =>
      rw [leafDepths_nil, Set.union_empty]
      exact hleft (by simp)
  | .node _ _ _, .node _ _ _ =>
      exact (hleft (by simp)).union (hright (by simp))

theorem isLeast_minDepthDfs {tree : BinaryTree α} (htree : tree ≠ .nil)
    (hshallow : Shallow tree) :
    IsLeast (leafDepths tree) (minDepthDfs tree) := by
  induction tree with
  | nil => exact absurd rfl htree
  | node value left right ihleft ihright =>
      by_cases hnode : IsLeaf (.node value left right)
      · match left, right, hnode with
        | .nil, .nil, _ => exact isLeast_leafDepths_leaf value
      · rw [minDepthDfs_node]
        apply isLeast_wrap32_node hshallow hnode
        exact isLeast_leastBelow hnode
          (fun hne => ihleft hne hshallow.2.1)
          (fun hne => ihright hne hshallow.2.2)

end DepthFirst

/-! ## Breadth first -/

/-- Every level down to the first one with a leaf has fewer than `2 ^ 31`
nodes. -/
def Narrow (tree : BinaryTree α) : Prop :=
  ∀ distance, (∀ higher < distance, ∀ node ∈ level tree higher,
    ¬IsLeaf node) → (level tree distance).length < 2 ^ 31

section BreadthFirst

variable {tree : BinaryTree α} {nodes rest : List (BinaryTree α)} {depth : ℤ}

theorem ne_nil_of_mem_nextLevel {node : BinaryTree α}
    (hnode : node ∈ nextLevel nodes) : node ≠ .nil := by
  obtain ⟨parent, -, hchild⟩ := List.mem_flatMap.mp hnode
  cases parent with
  | nil => exact absurd hchild List.not_mem_nil
  | node value left right =>
      rw [children, List.mem_append, mem_pushed_iff, mem_pushed_iff] at hchild
      rcases hchild with ⟨rfl, hne⟩ | ⟨rfl, hne⟩
      · exact hne
      · exact hne

theorem ne_nil_of_mem_level {node : BinaryTree α} {distance : ℕ}
    (hnode : node ∈ level tree distance) : node ≠ .nil := by
  cases distance with
  | zero =>
      obtain ⟨rfl, hne⟩ := mem_pushed_iff.mp hnode
      exact hne
  | succ distance =>
      rw [level, Function.iterate_succ_apply'] at hnode
      exact ne_nil_of_mem_nextLevel hnode

/-- A node that is not a leaf is replaced by its children behind the queue. -/
theorem levelLoop_succ {node : BinaryTree α} {count : ℕ}
    (hne : node ≠ .nil) (hleaf : ¬IsLeaf node)
    (q : List (BinaryTree α)) :
    levelLoop depth (count + 1) (node :: q) =
      levelLoop depth count (q ++ children node) := by
  match node with
  | .nil => exact absurd rfl hne
  | .node _ .nil .nil => exact absurd trivial hleaf
  | .node _ .nil (.node _ _ _) => rfl
  | .node _ (.node _ _ _) _ => rfl

/-- A level without a leaf is replaced by the next one. -/
theorem levelLoop_next (hne : ∀ node ∈ nodes, node ≠ .nil)
    (hleaf : ∀ node ∈ nodes, ¬IsLeaf node) :
    levelLoop depth nodes.length (nodes ++ rest) =
      .next (rest ++ nextLevel nodes) := by
  induction nodes generalizing rest with
  | nil => simp [levelLoop, nextLevel]
  | cons node nodes ih =>
      rw [List.length_cons, List.cons_append,
        levelLoop_succ (hne node List.mem_cons_self)
          (hleaf node List.mem_cons_self), List.append_assoc,
        ih (fun node hnode => hne node (List.mem_cons_of_mem _ hnode))
          fun node hnode => hleaf node (List.mem_cons_of_mem _ hnode)]
      rw [nextLevel, nextLevel, List.flatMap_cons, List.append_assoc]

/-- In a level with a leaf the depth is returned. -/
theorem levelLoop_exit (hne : ∀ node ∈ nodes, node ≠ .nil)
    (hleaf : ∃ node ∈ nodes, IsLeaf node) :
    levelLoop depth nodes.length (nodes ++ rest) = .exit depth := by
  induction nodes generalizing rest with
  | nil =>
      obtain ⟨node, hnode, -⟩ := hleaf
      exact absurd hnode List.not_mem_nil
  | cons node nodes ih =>
      by_cases hhere : IsLeaf node
      · match node, hhere with
        | .node _ .nil .nil, _ => rfl
      · rw [List.length_cons, List.cons_append,
          levelLoop_succ (hne node List.mem_cons_self) hhere,
          List.append_assoc]
        apply ih fun node hnode => hne node (List.mem_cons_of_mem _ hnode)
        obtain ⟨found, hfound, hisLeaf⟩ := hleaf
        rcases List.mem_cons.mp hfound with rfl | hfound
        · exact absurd hisLeaf hhere
        · exact ⟨found, hfound, hisLeaf⟩

theorem level_zero (htree : tree ≠ .nil) : level tree 0 = [tree] := by
  cases tree with
  | nil => exact absurd rfl htree
  | node value left right => rfl

theorem level_succ (distance : ℕ) :
    level tree (distance + 1) = nextLevel (level tree distance) := by
  rw [level, Function.iterate_succ_apply']
  rfl

theorem level_eq_nil_of_le {higher distance : ℕ} (hle : higher ≤ distance)
    (hempty : level tree higher = []) : level tree distance = [] := by
  induction hle with
  | refl => exact hempty
  | step _ ih =>
      rw [level_succ, ih]
      rfl

theorem level_ne_nil {distance count : ℕ} (hleaf : LeafAt tree count)
    (hdistance : distance < count) : level tree distance ≠ [] := by
  intro hempty
  obtain ⟨deepest, rfl⟩ : ∃ deepest, count = deepest + 1 :=
    ⟨count - 1, by omega⟩
  obtain ⟨node, hnode, -⟩ := (exists_isLeaf_level_iff deepest).mpr hleaf
  rw [level_eq_nil_of_le (Nat.le_of_lt_succ hdistance) hempty] at hnode
  exact absurd hnode List.not_mem_nil

/-- A pass over a whole level. -/
theorem bfsPass_level {distance : ℕ} (hnonempty : level tree distance ≠ [])
    (hlength : (level tree distance).length < 2 ^ 31) :
    bfsPass (level tree distance, depth) =
      match levelLoop depth (level tree distance).length
        (level tree distance ++ []) with
      | .next q => .next (q, wrap32 (depth + 1))
      | .exit depth => .exit depth
      | .fault => .fault := by
  have hempty : (level tree distance).isEmpty = false := by
    simpa using hnonempty
  rw [bfsPass, List.append_nil]
  simp only [hempty, Bool.false_eq_true, if_false]
  rw [wrap32_natCast hlength, Int.toNat_natCast]

theorem bfsPass_next {distance : ℕ} (hnonempty : level tree distance ≠ [])
    (hlength : (level tree distance).length < 2 ^ 31)
    (hleaf : ∀ node ∈ level tree distance, ¬IsLeaf node) (depth : ℤ) :
    bfsPass (level tree distance, depth) =
      .next (level tree (distance + 1), wrap32 (depth + 1)) := by
  rw [bfsPass_level hnonempty hlength, levelLoop_next
    (fun _ hnode => ne_nil_of_mem_level hnode) hleaf, level_succ]
  rfl

theorem bfsPass_exit {distance : ℕ} (hnonempty : level tree distance ≠ [])
    (hlength : (level tree distance).length < 2 ^ 31)
    (hleaf : ∃ node ∈ level tree distance, IsLeaf node) :
    bfsPass (level tree distance, depth) = .exit depth := by
  rw [bfsPass_level hnonempty hlength, levelLoop_exit
    (fun _ hnode => ne_nil_of_mem_level hnode) hleaf]

/-- The levels are gone through one by one down to the first leaf. -/
theorem bfsLoop_returns (hnarrow : Narrow tree) {count : ℕ}
    (hcount : count < 2 ^ 31)
    (hleast : IsLeast {depth | LeafAt tree depth} count) (further distance : ℕ)
    (hdistance : count = distance + further + 1) :
    Returns (loop bfsPass · (level tree distance, (distance : ℤ) + 1))
      (count : ℤ) := by
  have hnoLeaf {higher : ℕ} (hhigher : higher + 1 < count) :
      ∀ node ∈ level tree higher, ¬IsLeaf node := by
    intro node hnode hleaf
    have hat := (exists_isLeaf_level_iff higher).mp ⟨node, hnode, hleaf⟩
    have hle := hleast.2 hat
    omega
  induction further generalizing distance with
  | zero =>
      obtain rfl : count = distance + 1 := hdistance
      apply returns_of_exit
      exact bfsPass_exit (level_ne_nil hleast.1 (Nat.lt_succ_self _))
        (hnarrow distance fun higher hhigher => hnoLeaf (by omega))
        ((exists_isLeaf_level_iff distance).mpr hleast.1)
  | succ further ih =>
      have hpass := bfsPass_next
        (level_ne_nil hleast.1 (by omega : distance < count))
        (hnarrow distance fun higher hhigher => hnoLeaf (by omega))
        (hnoLeaf (by omega)) ((distance : ℤ) + 1)
      rw [wrap32_eq_self (by omega) (by omega)] at hpass
      have hrest := ih (distance + 1) (by omega)
      push_cast at hrest
      exact returns_of_next hpass hrest

theorem minDepthBfs_returns (hnarrow : Narrow tree) {count : ℕ}
    (hcount : count < 2 ^ 31)
    (hleast : IsLeast {depth | LeafAt tree depth} count) :
    Returns (minDepthBfs tree) count := by
  cases tree with
  | nil => exact absurd hleast.1 not_leafAt_nil
  | node value left right =>
      have hpos := leafAt_pos hleast.1
      have hloop := bfsLoop_returns hnarrow hcount hleast (count - 1) 0
        (by omega)
      rw [level_zero (by simp)] at hloop
      exact hloop

end BreadthFirst

def Correct (tree : BinaryTree α) : Prop :=
  ∃ result, minDepthDfs tree = result ∧ Returns (minDepthBfs tree) result ∧
    (tree = .nil → result = 0) ∧
    (tree ≠ .nil → IsLeast (leafDepths tree) result)

/-- An `int` counts the nodes of every path and of every level that matters. -/
theorem correct_of_narrow {tree : BinaryTree α}
    (hshallow : Shallow tree) (hnarrow : Narrow tree) : Correct tree := by
  by_cases htree : tree = .nil
  · subst htree
    exact ⟨0, rfl, returns_some 0, fun _ => rfl, fun hne => absurd rfl hne⟩
  · have hdfs := isLeast_minDepthDfs htree hshallow
    obtain ⟨count, hleaf, hcount⟩ := hdfs.1
    have hleast : IsLeast {depth | LeafAt tree depth} count := by
      refine ⟨hleaf, ?_⟩
      intro depth hdepth
      have hle := hdfs.2 ⟨depth, hdepth, rfl⟩
      omega
    have hsmall : count < 2 ^ 31 := by
      match tree, htree, hshallow with
      | .node _ _ _, _, ⟨⟨depth, hdepth, hat⟩, _⟩ =>
          exact (hleast.2 hat).trans_lt hdepth
    refine ⟨minDepthDfs tree, rfl, ?_, fun hnil => absurd hnil htree,
      fun _ => hdfs⟩
    rw [← hcount]
    exact minDepthBfs_returns hnarrow hsmall hleast

/-! ## Trees of fewer than `2 ^ 32` nodes -/

section Small

variable {tree : BinaryTree α}

theorem leafAt_le_numNodes {depth : ℕ} (hleaf : LeafAt tree depth) :
    depth ≤ tree.numNodes := by
  induction hleaf with
  | leaf value => exact le_rfl
  | left _ ih =>
      rw [numNodes]
      omega
  | right _ ih =>
      rw [numNodes]
      omega

theorem minDepthDfs_mem_range (tree : BinaryTree α) :
    -2 ^ 31 ≤ minDepthDfs tree ∧ minDepthDfs tree < 2 ^ 31 := by
  cases tree with
  | nil =>
      rw [minDepthDfs]
      decide
  | node value left right =>
      rw [minDepthDfs_node]
      exact ⟨le_wrap32 _, wrap32_lt _⟩

section Below

variable {left right : BinaryTree α}

theorem leastBelow_mem_range (left right : BinaryTree α) :
    -2 ^ 31 ≤ leastBelow left right ∧ leastBelow left right < 2 ^ 31 := by
  match left, right with
  | .nil, right => exact minDepthDfs_mem_range right
  | .node _ _ _, .nil => exact minDepthDfs_mem_range _
  | .node _ _ _, .node _ _ _ =>
      exact ⟨le_min (minDepthDfs_mem_range _).1 (minDepthDfs_mem_range _).1,
        min_lt_of_left_lt (minDepthDfs_mem_range _).2⟩

theorem leastBelow_le_left (right : BinaryTree α) (hleft : left ≠ .nil) :
    leastBelow left right ≤ minDepthDfs left := by
  match left, right with
  | .nil, _ => exact absurd rfl hleft
  | .node _ _ _, .nil => exact le_rfl
  | .node _ _ _, .node _ _ _ => exact min_le_left _ _

theorem leastBelow_le_right (left : BinaryTree α) (hright : right ≠ .nil) :
    leastBelow left right ≤ minDepthDfs right := by
  match left, right with
  | .nil, _ => exact le_rfl
  | .node _ _ _, .nil => exact absurd rfl hright
  | .node _ _ _, .node _ _ _ => exact min_le_right _ _

theorem ne_nil_of_not_shallow (hshallow : ¬Shallow tree) : tree ≠ .nil := by
  rintro rfl
  exact hshallow trivial

end Below

/-- A negative result stays negative one node further up. -/
theorem wrap32_of_negative {least : ℤ} {below nodes : ℕ}
    (hlower : -2 ^ 31 ≤ least) (hupper : least ≤ below - 2 ^ 32)
    (hbelow : below < nodes) (hnodes : nodes < 2 ^ 32) :
    wrap32 (least + 1) ≤ nodes - 2 ^ 32 := by
  rw [wrap32_eq_self (by omega) (by omega)]
  omega

/-- The first overflow, at a node whose nearest leaf has a path of `2 ^ 31`
nodes. -/
theorem wrap32_of_deep {value : α} {left right : BinaryTree α} {least : ℤ}
    (hnode : ¬IsLeaf (.node value left right))
    (hleast : IsLeast (leafDepths left ∪ leafDepths right) least)
    (hint : least < 2 ^ 31)
    (hdeep : ∀ depth < 2 ^ 31, ¬LeafAt (.node value left right) depth) :
    wrap32 (least + 1) ≤ (node value left right).numNodes - 2 ^ 32 := by
  obtain ⟨count, hleaf, hcount⟩ := (isLeast_leafDepths_node hnode hleast).1
  have hlarge : 2 ^ 31 ≤ count := by
    by_contra hsmall
    exact hdeep count (by omega) hleaf
  have hnumNodes := leafAt_le_numNodes hleaf
  obtain rfl : count = 2 ^ 31 := by omega
  rw [← hcount, wrap32_int_overflow]
  omega

/-- Where an overflow has happened, the result stays negative up to the root. -/
theorem minDepthDfs_of_not_shallow (hshallow : ¬Shallow tree)
    (hnodes : tree.numNodes < 2 ^ 32) :
    minDepthDfs tree ≤ tree.numNodes - 2 ^ 32 := by
  induction tree with
  | nil => exact absurd trivial hshallow
  | node value left right ihleft ihright =>
      have hleftNodes : left.numNodes <
          (BinaryTree.node value left right).numNodes := by
        rw [numNodes]
        omega
      have hrightNodes : right.numNodes <
          (BinaryTree.node value left right).numNodes := by
        rw [numNodes]
        omega
      obtain ⟨hlower, hupper⟩ := leastBelow_mem_range left right
      rw [minDepthDfs_node]
      by_cases hleft : Shallow left
      · by_cases hright : Shallow right
        · have hdeep : ∀ depth < 2 ^ 31,
              ¬LeafAt (.node value left right) depth := by
            intro depth hdepth hleaf
            exact hshallow ⟨⟨depth, hdepth, hleaf⟩, hleft, hright⟩
          have hnode : ¬IsLeaf (.node value left right) := fun hisLeaf =>
            hdeep 1 (by decide) (leafAt_one_iff.mpr hisLeaf)
          have hleast := isLeast_leastBelow hnode
            (fun hne => isLeast_minDepthDfs hne hleft)
            (fun hne => isLeast_minDepthDfs hne hright)
          exact wrap32_of_deep hnode hleast hupper hdeep
        · have hnegative := ihright hright (hrightNodes.trans hnodes)
          have hle := leastBelow_le_right left (ne_nil_of_not_shallow hright)
          exact wrap32_of_negative hlower (hle.trans hnegative) hrightNodes
            hnodes
      · have hnegative := ihleft hleft (hleftNodes.trans hnodes)
        have hle := leastBelow_le_left right (ne_nil_of_not_shallow hleft)
        exact wrap32_of_negative hlower (hle.trans hnegative) hleftNodes hnodes

theorem sum_numNodes_children_le (tree : BinaryTree α) :
    ((children tree).map numNodes).sum ≤ tree.numNodes := by
  have hpushed (child : BinaryTree α) :
      ((pushed child).map numNodes).sum = child.numNodes := by
    cases child <;> simp [pushed, numNodes]
  cases tree with
  | nil => exact le_rfl
  | node value left right =>
      rw [children, List.map_append, List.sum_append, hpushed, hpushed,
        numNodes]
      exact Nat.le_succ _

theorem sum_numNodes_nextLevel_le (nodes : List (BinaryTree α)) :
    ((nextLevel nodes).map numNodes).sum ≤ (nodes.map numNodes).sum := by
  induction nodes with
  | nil => exact le_rfl
  | cons node nodes ih =>
      rw [nextLevel, List.flatMap_cons, List.map_append, List.sum_append,
        List.map_cons, List.sum_cons]
      exact Nat.add_le_add (sum_numNodes_children_le node) ih

theorem sum_numNodes_level_le (tree : BinaryTree α) (distance : ℕ) :
    ((level tree distance).map numNodes).sum ≤ tree.numNodes := by
  induction distance with
  | zero => cases tree <;> simp [level, pushed]
  | succ distance ih =>
      rw [level_succ]
      exact (sum_numNodes_nextLevel_le _).trans ih

/-- A level has no more nodes than the tree. -/
theorem length_level_le (tree : BinaryTree α) (distance : ℕ) :
    (level tree distance).length ≤ tree.numNodes := by
  have hone : ∀ count ∈ (level tree distance).map numNodes, 1 ≤ count := by
    intro count hcount
    obtain ⟨node, hnode, rfl⟩ := List.mem_map.mp hcount
    cases node with
    | nil => exact absurd rfl (ne_nil_of_mem_level hnode)
    | node value left right =>
        rw [numNodes]
        omega
  calc (level tree distance).length
      = ((level tree distance).map numNodes).length := by rw [List.length_map]
    _ ≤ ((level tree distance).map numNodes).sum :=
        List.length_le_sum_of_one_le _ hone
    _ ≤ tree.numNodes := sum_numNodes_level_le tree distance

theorem shallow_of_correct (hnodes : tree.numNodes < 2 ^ 32)
    (hcorrect : Correct tree) : Shallow tree := by
  by_contra hshallow
  have hnegative := minDepthDfs_of_not_shallow hshallow hnodes
  obtain ⟨result, rfl, -, -, hleast⟩ := hcorrect
  obtain ⟨count, -, hcount⟩ := (hleast (ne_nil_of_not_shallow hshallow)).1
  omega

/-- A level whose size is negative as an `int` is never left. -/
theorem loop_of_wide {q : List (BinaryTree α)} (hlower : 2 ^ 31 ≤ q.length)
    (hupper : q.length < 2 ^ 32) (depth : ℤ) (fuel : ℕ) :
    loop bfsPass fuel (q, depth) = none := by
  have hempty : q.isEmpty = false := by
    rw [List.isEmpty_eq_false_iff]
    rintro rfl
    rw [List.length_nil] at hlower
    omega
  have hnegative : wrap32 q.length < 0 :=
    wrap32_neg (by exact_mod_cast hlower) (by exact_mod_cast hupper)
  have hnone : (wrap32 q.length).toNat = 0 := Int.toNat_of_nonpos hnegative.le
  induction fuel generalizing depth with
  | zero => rfl
  | succ fuel ih =>
      have hpass : bfsPass (q, depth) = .next (q, wrap32 (depth + 1)) := by
        simp only [bfsPass, hempty, Bool.false_eq_true, if_false, hnone,
          levelLoop]
      rw [loop, hpass]
      exact ih _

/-- The passes go on down to a level that is too wide and stay there. -/
theorem minDepthBfs_of_wide {distance : ℕ} (htree : tree ≠ .nil)
    (hnext : ∀ higher < distance, ∀ depth,
      bfsPass (level tree higher, depth) =
        .next (level tree (higher + 1), wrap32 (depth + 1)))
    (hlower : 2 ^ 31 ≤ (level tree distance).length)
    (hupper : (level tree distance).length < 2 ^ 32) (fuel : ℕ) :
    minDepthBfs tree fuel = none := by
  -- Upwards from the wide level: no level above it returns either.
  have hloop (further : ℕ) : ∀ higher, higher + further = distance →
      ∀ depth fuel,
        loop bfsPass fuel (level tree higher, depth) = none := by
    induction further with
    | zero =>
        rintro higher rfl depth fuel
        exact loop_of_wide hlower hupper depth fuel
    | succ further ih =>
        intro higher hhigher depth fuel
        exact loop_of_next (hnext higher (by omega) depth)
          (fun fuel => ih _ (by omega) _ fuel) fuel
  cases tree with
  | nil => exact absurd rfl htree
  | node value left right =>
      have hroot := hloop distance 0 (Nat.zero_add distance) 1 fuel
      rwa [level_zero htree] at hroot

theorem narrow_of_correct (hnodes : tree.numNodes < 2 ^ 32)
    (hcorrect : Correct tree) : Narrow tree := by
  intro distance
  induction distance using Nat.strong_induction_on with
  | _ distance ih =>
      intro hleaf
      by_contra hlength
      have hlower : 2 ^ 31 ≤ (level tree distance).length := by omega
      have hfilled (higher : ℕ) (hhigher : higher ≤ distance) :
          level tree higher ≠ [] := by
        intro hempty
        rw [level_eq_nil_of_le hhigher hempty, List.length_nil] at hlower
        omega
      have htree : tree ≠ .nil := by
        rintro rfl
        exact hfilled 0 (Nat.zero_le _) rfl
      have hnext (higher : ℕ) (hhigher : higher < distance) (depth : ℤ) :=
        bfsPass_next (hfilled higher hhigher.le)
          (ih higher hhigher fun above habove =>
            hleaf above (habove.trans hhigher))
          (hleaf higher hhigher) depth
      obtain ⟨result, -, hreturns, -⟩ := hcorrect
      exact not_returns (minDepthBfs_of_wide htree hnext hlower
        ((length_level_le tree distance).trans_lt hnodes)) result hreturns

end Small

/-- Both functions return the least depth of a leaf as long as the counters do
not overflow.  In a tree of fewer than `2 ^ 32` nodes no overflow is made good
by a later one. -/
theorem minDepths_correct (tree : BinaryTree α) :
    (Shallow tree ∧ Narrow tree → Correct tree) ∧
      (tree.numNodes < 2 ^ 32 → Correct tree →
        Shallow tree ∧ Narrow tree) := by
  constructor
  · rintro ⟨hshallow, hnarrow⟩
    exact correct_of_narrow hshallow hnarrow
  · intro hnodes hcorrect
    exact ⟨shallow_of_correct hnodes hcorrect,
      narrow_of_correct hnodes hcorrect⟩

def fiveNodes : BinaryTree ℤ :=
  .node 1 (.node 2 (.node 4 .nil .nil) (.node 5 .nil .nil)) (.node 3 .nil .nil)

theorem shallow_leaf (value : α) : Shallow (.node value .nil .nil) :=
  ⟨⟨1, by decide, .leaf value⟩, trivial, trivial⟩

theorem shallow_fiveNodes : Shallow fiveNodes :=
  ⟨⟨2, by decide, .right (.leaf 3)⟩,
    ⟨⟨2, by decide, .left (.leaf 4)⟩, shallow_leaf 4, shallow_leaf 5⟩,
    shallow_leaf 3⟩

theorem narrow_fiveNodes : Narrow fiveNodes := by
  intro distance hhigher
  match distance with
  | 0 => decide
  | 1 => decide
  | distance + 2 =>
      have hleaf : (.node 3 .nil .nil : BinaryTree ℤ) ∈ level fiveNodes 1 := by
        decide
      exact absurd trivial (hhigher 1 (by omega) _ hleaf)

theorem minDepths_correct_five : Correct fiveNodes :=
  (minDepths_correct fiveNodes).1
    ⟨shallow_fiveNodes, narrow_fiveNodes⟩

/-! ## A level that is too wide -/

/-- The tree in which all leaves have the same depth. -/
def perfect : ℕ → BinaryTree ℤ
  | 0 => .nil
  | height + 1 => .node 0 (perfect height) (perfect height)

theorem nextLevel_replicate (count height : ℕ) :
    nextLevel (List.replicate count (perfect (height + 2))) =
      List.replicate (count * 2) (perfect (height + 1)) := by
  have hchildren : children (perfect (height + 2)) =
      List.replicate 2 (perfect (height + 1)) := rfl
  rw [nextLevel, List.flatMap_replicate, hchildren,
    List.flatten_replicate_replicate]

theorem level_perfect (height distance : ℕ) :
    level (perfect (distance + height + 1)) distance =
      List.replicate (2 ^ distance) (perfect (height + 1)) := by
  induction distance generalizing height with
  | zero =>
      rw [Nat.zero_add, level_zero (by simp [perfect])]
      rfl
  | succ distance ih =>
      have hheight : distance + 1 + height + 1 =
          distance + (height + 1) + 1 := by
        omega
      rw [level_succ, hheight, ih, nextLevel_replicate, pow_succ]

theorem numNodes_perfect (height : ℕ) :
    (perfect height).numNodes + 1 = 2 ^ height := by
  induction height with
  | zero => rfl
  | succ height ih =>
      rw [perfect, numNodes, pow_succ, ← ih]
      ring

/-- Only the last level has leaves, so every level must fit. -/
theorem not_narrow_perfect (height : ℕ) (hheight : 31 ≤ height) :
    ¬Narrow (perfect (height + 1)) := by
  intro hnarrow
  have hlevel := level_perfect 0 height
  have hlength := hnarrow height fun higher hhigher node hnode => by
    obtain ⟨further, rfl⟩ : ∃ further, height = higher + (further + 1) :=
      ⟨height - higher - 1, by omega⟩
    rw [level_perfect] at hnode
    rw [List.eq_of_mem_replicate hnode]
    exact not_false
  rw [hlevel, List.length_replicate] at hlength
  exact absurd (Nat.pow_le_pow_right (by decide) hheight) hlength.not_ge

/-- A perfect tree of 32 levels: the last one has `2 ^ 31` nodes. -/
theorem minDepthBfs_perfect : ¬Correct (perfect 32) := by
  intro hcorrect
  have hnodes : (perfect 32).numNodes < 2 ^ 32 :=
    (numNodes_perfect 32).symm ▸ Nat.lt_succ_self _
  exact not_narrow_perfect 31 le_rfl (narrow_of_correct hnodes hcorrect)

end KataCpp.MinDepth
