import KataCpp.Core.DecimalText
import KataCpp.Core.HeapNumbering
import KataCpp.Core.IndexLoop

/-!
# Paths from the root to the leaves

`createTree` builds a binary tree from a vector in which the children of
position `i` stand at `2 * i + 1` and `2 * i + 2`, and -1 marks an absent node.
`getRootToLeafPaths` walks over a tree with one path, to which every call
appends a value that it takes away again; at a leaf the numbers on the path are
written one behind the other.

The loop that writes them counts in an `int`.  It comes to an end by itself at
`2 ^ 31` numbers, and what a deeper leaf has below them is missing from its
text.
-/

namespace KataCpp.TreePaths

open Bytes DecimalText HeapNumbering IndexLoop Iteration MachineInt Segment

/-- `!node` -/
def isNull : BinaryTree ℤ → Bool
  | .nil => true
  | .node _ _ _ => false

/-- The two vectors that `dfs` passes on. -/
structure Walk where
  path : List ℤ
  paths : List ByteString

/-- The loop of a leaf, over the path to it. -/
def leafText (path : List ℤ) : Option ByteString :=
  indexLoop path.length
    (fun leafPath i => (read path i).bind fun value =>
      some (leafPath ++ integerText value)) 0 []

def visitLeaf (walk : Walk) : Option Walk := do
  let leafPath ← leafText walk.path
  return { walk with paths := walk.paths ++ [leafPath] }

def dfs : BinaryTree ℤ → Walk → Option Walk
  | .nil, walk => some walk
  | .node value left right, walk => do
      let walk := { walk with path := walk.path ++ [value] }
      let walk ←
        if isNull left && isNull right then visitLeaf walk else some walk
      let walk ← dfs left walk
      let walk ← dfs right walk
      return { walk with path := walk.path.dropLast }

def Walk.start : Walk where
  path := []
  paths := []

def getRootToLeafPaths (root : BinaryTree ℤ) : Option (List ByteString) := do
  let walk ← dfs root .start
  return walk.paths

def createTree (values : List ℤ) : ℕ → ℤ → Option (BinaryTree ℤ)
  | 0, _ => none
  | fuel + 1, index =>
      if values.length ≤ asSize index then some .nil
      else do
        let value ← read values index
        if value = -1 then some .nil
        else do
          let left ← createTree values fuel (wrap32 (2 * index + 1))
          let right ← createTree values fuel (wrap32 (2 * index + 2))
          return .node value left right

/-- The values on the paths to the leaves, from left to right. -/
def leafPaths : BinaryTree ℤ → List (List ℤ)
  | .nil => []
  | .node value left right =>
      if isNull left && isNull right then [[value]]
      else (leafPaths left ++ leafPaths right).map (value :: ·)

/-- The decimal texts of the values, one behind the other. -/
def pathText (path : List ℤ) : ByteString := path.flatMap integerText

def writtenText (path : List ℤ) : ByteString :=
  pathText (path.take indexLimit)

variable {tree : BinaryTree ℤ} {walk : Walk}

theorem height_eq_zero_iff : tree.height = 0 ↔ tree = .nil := by
  cases tree with
  | nil => simp [BinaryTree.height]
  | node value left right => simp [BinaryTree.height]

theorem leaf_iff {left right : BinaryTree ℤ} :
    (isNull left && isNull right) = true ↔
      left.height = 0 ∧ right.height = 0 := by
  rw [height_eq_zero_iff, height_eq_zero_iff, Bool.and_eq_true]
  cases left <;> cases right <;> simp [isNull]

theorem foldlM_integerText (values : List ℤ) (before : ByteString) :
    values.foldlM
        (fun leafPath value => some (leafPath ++ integerText value)) before =
      some (before ++ pathText values) := by
  induction values generalizing before with
  | nil =>
      rw [pathText, List.flatMap_nil, List.append_nil]
      rfl
  | cons value values ih =>
      rw [List.foldlM_cons, Option.bind_eq_bind, Option.bind_some, ih,
        pathText, pathText, List.flatMap_cons, List.append_assoc]

theorem leafText_eq {path : List ℤ} (hlength : path.length < 2 ^ 63) :
    leafText path = some (writtenText path) := by
  rw [leafText, indexLoop_read hlength, foldlM_integerText, List.nil_append,
    writtenText]

/-- A call appends the texts of its leaves and restores the path. -/
theorem dfs_eq (tree : BinaryTree ℤ) (walk : Walk)
    (hlength : walk.path.length + tree.height < 2 ^ 63) :
    dfs tree walk = some {
      path := walk.path
      paths := walk.paths ++
        (leafPaths tree).map fun path => writtenText (walk.path ++ path) } := by
  induction tree generalizing walk with
  | nil => simp [dfs, leafPaths]
  | node value left right ihLeft ihRight =>
      rw [BinaryTree.height] at hlength
      have hfits : (walk.path ++ [value]).length < 2 ^ 63 := by
        rw [List.length_append, List.length_singleton]
        omega
      rw [dfs, leafPaths]
      by_cases hleaf : (isNull left && isNull right) = true
      · obtain ⟨rfl, rfl⟩ : left = .nil ∧ right = .nil := by
          rw [leaf_iff] at hleaf
          exact ⟨height_eq_zero_iff.mp hleaf.1, height_eq_zero_iff.mp hleaf.2⟩
        simp [isNull, visitLeaf, leafText_eq hfits, dfs]
      · simp only [if_neg hleaf, Option.bind_eq_bind, Option.bind_some]
        have hroom : ∀ child : BinaryTree ℤ,
            child.height ≤ max left.height right.height →
              (walk.path ++ [value]).length + child.height < 2 ^ 63 := by
          intro child hchild
          rw [List.length_append, List.length_singleton]
          omega
        rw [ihLeft ⟨walk.path ++ [value], _⟩ (hroom left (le_max_left _ _)),
          Option.bind_some,
          ihRight ⟨walk.path ++ [value], _⟩ (hroom right (le_max_right _ _))]
        simp [Function.comp_def]

theorem getRootToLeafPaths_eq (hheight : tree.height < 2 ^ 63) :
    getRootToLeafPaths tree = some ((leafPaths tree).map writtenText) := by
  have hwalk := dfs_eq tree .start (by simpa [Walk.start] using hheight)
  rw [getRootToLeafPaths, hwalk]
  simp [Walk.start]

/-! ## Deep leaves -/

theorem length_le_height {path : List ℤ} (hpath : path ∈ leafPaths tree) :
    path.length ≤ tree.height := by
  induction tree generalizing path with
  | nil => simp [leafPaths] at hpath
  | node value left right ihLeft ihRight =>
      rw [leafPaths] at hpath
      rw [BinaryTree.height]
      split_ifs at hpath with hleaf
      · simp_all
      · obtain ⟨below, hbelow, rfl⟩ := List.mem_map.mp hpath
        rw [List.length_cons]
        rcases List.mem_append.mp hbelow with hleft | hright
        · have hle := ihLeft hleft
          omega
        · have hle := ihRight hright
          omega

/-- Some leaf is as deep as the tree is high. -/
theorem exists_length_eq_height (htree : 0 < tree.height) :
    ∃ path ∈ leafPaths tree, path.length = tree.height := by
  induction tree with
  | nil => simp [BinaryTree.height] at htree
  | node value left right ihLeft ihRight =>
      rw [leafPaths]
      split_ifs with hleaf
      · obtain ⟨hleft, hright⟩ := leaf_iff.mp hleaf
        refine ⟨[value], List.mem_singleton_self _, ?_⟩
        rw [List.length_singleton, BinaryTree.height, hleft, hright, max_self]
      · have hbelow : ∃ path ∈ leafPaths left ++ leafPaths right,
            path.length = max left.height right.height := by
          rw [leaf_iff] at hleaf
          rcases le_total left.height right.height with hle | hle
          · obtain ⟨path, hpath, hlength⟩ := ihRight (by omega)
            rw [max_eq_right hle]
            exact ⟨path, List.mem_append_right _ hpath, hlength⟩
          · obtain ⟨path, hpath, hlength⟩ := ihLeft (by omega)
            rw [max_eq_left hle]
            exact ⟨path, List.mem_append_left _ hpath, hlength⟩
        obtain ⟨path, hpath, hlength⟩ := hbelow
        refine ⟨value :: path, List.mem_map.mpr ⟨path, hpath, rfl⟩, ?_⟩
        rw [List.length_cons, hlength, BinaryTree.height]

theorem integerText_ne_nil (value : ℤ) : integerText value ≠ [] := by
  rw [integerText, naturalText]
  split_ifs with hnegative hzero hzero
  · simp
  · simp
  · simp
  · rw [Ne, List.map_eq_nil_iff, List.reverse_eq_nil_iff,
      Nat.digits_eq_nil_iff_eq_zero]
    exact hzero

theorem writtenText_eq_iff (path : List ℤ) :
    writtenText path = pathText path ↔ path.length ≤ 2 ^ 31 := by
  have hsplit : pathText path =
      writtenText path ++ pathText (path.drop indexLimit) := by
    rw [writtenText, pathText, pathText, pathText, ← List.flatMap_append,
      List.take_append_drop]
  have hrest : pathText (path.drop indexLimit) = [] ↔ path.length ≤ 2 ^ 31 := by
    rw [pathText, List.flatMap_eq_nil_iff, ← indexLimit, ← List.drop_eq_nil_iff,
      List.eq_nil_iff_forall_not_mem]
    exact forall_congr' fun value =>
      imp_congr_right fun _ => iff_false_intro (integerText_ne_nil value)
  rw [← hrest]
  nth_rewrite 1 [hsplit]
  exact List.self_eq_append_right

/-- One text for every leaf, from left to right, with the values on the path to
it, and a path that is empty again. -/
structure ListsLeaves (root : BinaryTree ℤ) : Prop where
  paths : getRootToLeafPaths root = some ((leafPaths root).map pathText)
  path : (dfs root .start).map Walk.path = some []

theorem path_dfs (hheight : tree.height < 2 ^ 63) :
    (dfs tree .start).map Walk.path = some [] := by
  rw [dfs_eq tree .start (by simpa [Walk.start] using hheight)]
  rfl

theorem listsLeaves_of_height_le (hheight : tree.height ≤ 2 ^ 31) :
    ListsLeaves tree where
  paths := by
    rw [getRootToLeafPaths_eq (by omega), Option.some_inj]
    apply List.map_congr_left
    intro path hpath
    rw [writtenText_eq_iff]
    exact (length_le_height hpath).trans hheight
  path := path_dfs (by omega)

theorem not_listsLeaves_of_lt_height (hheight : tree.height < 2 ^ 63)
    (hhigh : 2 ^ 31 < tree.height) : ¬ListsLeaves tree := by
  intro hlists
  have hpaths := hlists.paths
  rw [getRootToLeafPaths_eq hheight, Option.some_inj,
    List.map_inj_left] at hpaths
  have hpositive : 0 < tree.height := by omega
  obtain ⟨path, hpath, hlength⟩ := exists_length_eq_height hpositive
  have hshort := (writtenText_eq_iff path).mp (hpaths path hpath)
  omega

/-- The texts are complete exactly when no leaf is deeper than an `int` can
count. -/
theorem listsLeaves_iff (root : BinaryTree ℤ) (hheight : root.height < 2 ^ 63) :
    ListsLeaves root ↔ root.height ≤ 2 ^ 31 := by
  constructor
  · intro hlists
    by_contra hhigh
    exact not_listsLeaves_of_lt_height hheight (by omega) hlists
  · exact listsLeaves_of_height_le

/-- The tree of the example in the source. -/
def sampleTree : BinaryTree ℤ :=
  .node 1 (.node 2 (.node 4 .nil .nil) (.node 5 .nil .nil)) (.node 3 .nil .nil)

theorem listsLeaves_iff_sampleTree :
    sampleTree.height = 3 ∧
    leafPaths sampleTree = [[1, 2, 4], [1, 2, 5], [1, 3]] ∧
    (ListsLeaves sampleTree ↔ sampleTree.height ≤ 2 ^ 31) :=
  ⟨by decide, by decide, listsLeaves_iff sampleTree (by decide)⟩

def chain : ℕ → BinaryTree ℤ
  | 0 => .nil
  | count + 1 => .node 1 (chain count) .nil

theorem height_chain (count : ℕ) : (chain count).height = count := by
  induction count with
  | zero => rfl
  | succ count ih =>
      rw [chain, BinaryTree.height, ih, BinaryTree.height, Nat.max_zero]

/-- The last of `2 ^ 31 + 1` numbers is missing. -/
theorem getRootToLeafPaths_cuts_chain : ¬ListsLeaves (chain (2 ^ 31 + 1)) := by
  apply not_listsLeaves_of_lt_height
  · rw [height_chain]
    norm_num
  · rw [height_chain]
    norm_num

/-! ## Building the tree -/

def cells (values : List ℤ) : List (Option ℤ) :=
  values.map fun value => if value = -1 then none else some value

variable {values : List ℤ} {i : ℕ}

theorem entryAt_cells_iff {value : ℤ} :
    entryAt (cells values) i = some value ↔
      values[i]? = some value ∧ value ≠ -1 := by
  rw [entryAt, cells, List.getElem?_map]
  cases hvalue : values[i]? with
  | none => simp
  | some found =>
      simp only [Option.map_some, Option.join_some]
      split_ifs with habsent
      · simp_all
      · rw [Option.some_inj]
        constructor
        · rintro rfl
          exact ⟨rfl, habsent⟩
        · exact And.left

theorem createTree_of_none (hi : i < 2 ^ 31)
    (hentry : entryAt (cells values) i = none) (fuel : ℕ) :
    createTree values (fuel + 1) i = some .nil := by
  rw [createTree, asSize_natCast (by omega), read_natCast]
  cases hvalue : values[i]? with
  | none => rw [if_pos (List.getElem?_eq_none_iff.mp hvalue)]
  | some value =>
      obtain rfl : value = -1 := by
        by_contra hpresent
        have hsome := entryAt_cells_iff.mpr ⟨hvalue, hpresent⟩
        rw [hentry] at hsome
        contradiction
      rw [Option.bind_eq_bind, Option.bind_some, if_pos rfl, ite_self]

theorem createTree_of_some {value : ℤ} (hi : 2 * i + 2 < 2 ^ 31)
    (hentry : entryAt (cells values) i = some value) (fuel : ℕ) :
    createTree values (fuel + 1) i =
      (createTree values fuel (2 * i + 1 : ℕ)).bind fun left =>
        (createTree values fuel (2 * i + 2 : ℕ)).bind fun right =>
          some (.node value left right) := by
  obtain ⟨hvalue, hpresent⟩ := entryAt_cells_iff.mp hentry
  have hlength := (List.getElem?_eq_some_iff.mp hvalue).1
  have hleft : wrap32 (2 * (i : ℤ) + 1) = (2 * i + 1 : ℕ) := by
    rw [wrap32_eq_self (by omega) (by omega)]
    push_cast
    rfl
  have hright : wrap32 (2 * (i : ℤ) + 2) = (2 * i + 2 : ℕ) := by
    rw [wrap32_eq_self (by omega) (by omega)]
    push_cast
    rfl
  rw [createTree, asSize_natCast (by omega), if_neg (Nat.not_le.mpr hlength),
    read_natCast, hvalue, Option.bind_eq_bind, Option.bind_some,
    if_neg hpresent, hleft, hright]
  rfl

theorem createTree_returns (hsize : 2 * values.length + 2 < 2 ^ 31)
    (hi : i ≤ 2 * values.length) :
    Returns (createTree values · i) (heapTree (cells values) i) := by
  induction i using heapTree.induct (cells values) with
  | case1 i hentry =>
      rw [heapTree_of_none hentry]
      apply returns_of_succ
      simp only [createTree_of_none (show i < 2 ^ 31 by omega) hentry]
      exact returns_some _
  | case2 i value hentry ihLeft ihRight =>
      obtain ⟨hvalue, -⟩ := entryAt_cells_iff.mp hentry
      have hlength := (List.getElem?_eq_some_iff.mp hvalue).1
      rw [heapTree_of_some hentry]
      apply returns_of_succ
      simp only [createTree_of_some (show 2 * i + 2 < 2 ^ 31 by omega) hentry]
      exact (ihLeft (by omega)).bind
        ((ihRight (by omega)).bind (returns_some _))

/-- Within the vector, the cells that are not empty do not hold -1. -/
theorem forall_entryAt_cells_iff (hi : i < values.length) :
    (∀ j ∈ parentChain i, entryAt (cells values) j ≠ none) ↔
      ∀ j ∈ parentChain i, values[j]? ≠ some (-1) := by
  refine forall₂_congr fun j hj => not_congr ?_
  have hlength : j < values.length := (le_of_mem_parentChain hj).trans_lt hi
  rw [entryAt, cells, List.getElem?_map, List.getElem?_eq_getElem hlength,
    Option.map_some, Option.join_some, Option.some_inj]
  split_ifs with habsent
  · simp [habsent]
  · simp [habsent]

/-- The tree has a node at a position exactly when the vector reaches there and
no position from there up to the root holds -1. -/
theorem createTree_builds (values : List ℤ)
    (hsize : 2 * values.length + 2 < 2 ^ 31) :
    ∃ tree, Returns (createTree values · 0) tree ∧
      ∀ i value, nodeAt tree i = some value ↔
        values[i]? = some value ∧
          ∀ j ∈ parentChain i, values[j]? ≠ some (-1) := by
  refine ⟨_, createTree_returns hsize (Nat.zero_le _), fun i value => ?_⟩
  rw [nodeAt_heapTree_iff, entryAt_cells_iff]
  constructor
  · rintro ⟨⟨hvalue, -⟩, hchain⟩
    have hlength := (List.getElem?_eq_some_iff.mp hvalue).1
    exact ⟨hvalue, (forall_entryAt_cells_iff hlength).mp hchain⟩
  · rintro ⟨hvalue, hchain⟩
    have hlength := (List.getElem?_eq_some_iff.mp hvalue).1
    refine ⟨⟨hvalue, ?_⟩, (forall_entryAt_cells_iff hlength).mpr hchain⟩
    rintro rfl
    exact hchain i (self_mem_parentChain i) hvalue

/-- The 7 at position 5 stands below the -1 at position 2. -/
theorem createTree_builds_under_absent_node :
    ∃ tree, Returns (createTree [1, 2, -1, 4, 5, 7] · 0) tree ∧
      nodeAt tree 4 = some 5 ∧ nodeAt tree 5 = none := by
  obtain ⟨tree, hreturns, hnodes⟩ :=
    createTree_builds [1, 2, -1, 4, 5, 7] (by decide)
  refine ⟨tree, hreturns, ?_, ?_⟩
  · rw [hnodes]
    simp [parentChain]
  · rw [Option.eq_none_iff_forall_ne_some]
    intro value hvalue
    rw [hnodes] at hvalue
    simp [parentChain] at hvalue

end KataCpp.TreePaths
