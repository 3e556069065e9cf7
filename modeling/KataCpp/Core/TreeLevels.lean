import KataCpp.Core.SearchTree

/-!
# The levels of a binary tree

`levelEntries` are the entries of a tree at a given distance from its root, from
left to right.  A list of trees is treated like the row of subtrees that hang at
one distance: the subtrees one level below have the entries of the next level.
-/

namespace KataCpp.TreeLevels

open BinaryTree SearchTree
open scoped List

variable {α : Type*}

def levelEntries : BinaryTree α → ℕ → List α
  | .nil, _ => []
  | .node entry _ _, 0 => [entry]
  | .node _ left right, distance + 1 =>
      levelEntries left distance ++ levelEntries right distance

def levelOrder (tree : BinaryTree α) : List α :=
  (List.range tree.height).flatMap (levelEntries tree)

def rowBelow (row : List (BinaryTree α)) : List (BinaryTree α) :=
  row.flatMap fun tree => [tree.left, tree.right]

def rowEntries (row : List (BinaryTree α)) (distance : ℕ) : List α :=
  row.flatMap (levelEntries · distance)

theorem rowEntries_cons (tree : BinaryTree α) (row : List (BinaryTree α))
    (distance : ℕ) :
    rowEntries (tree :: row) distance =
      levelEntries tree distance ++ rowEntries row distance :=
  List.flatMap_cons

theorem rowEntries_rowBelow (row : List (BinaryTree α)) (distance : ℕ) :
    rowEntries (rowBelow row) distance = rowEntries row (distance + 1) := by
  rw [rowEntries, rowBelow, List.flatMap_assoc, rowEntries]
  congr 1
  funext tree
  cases tree with
  | nil => rfl
  | node entry left right =>
      simp [BinaryTree.left, BinaryTree.right, levelEntries]

/-- The first level of a row, and then the levels of the row below. -/
theorem flatMap_rowEntries_succ (row : List (BinaryTree α)) (count : ℕ) :
    (List.range (count + 1)).flatMap (rowEntries row) =
      rowEntries row 0 ++
        (List.range count).flatMap (rowEntries (rowBelow row)) := by
  have hbelow : rowEntries (rowBelow row) =
      fun distance => rowEntries row (distance + 1) := by
    funext distance
    exact rowEntries_rowBelow row distance
  rw [List.range_succ_eq_map, List.flatMap_cons, List.flatMap_map, hbelow]

theorem mem_rowBelow_iff {tree : BinaryTree α} {row : List (BinaryTree α)} :
    tree ∈ rowBelow row ↔
      ∃ parent ∈ row, tree = parent.left ∨ tree = parent.right := by
  simp [rowBelow]

theorem height_le_of_mem_rowBelow {tree : BinaryTree α}
    {row : List (BinaryTree α)} {count : ℕ}
    (hrow : ∀ tree ∈ row, tree.height ≤ count + 1)
    (hmem : tree ∈ rowBelow row) : tree.height ≤ count := by
  obtain ⟨parent, hparent, htree⟩ := mem_rowBelow_iff.mp hmem
  have hheight := hrow parent hparent
  cases parent with
  | nil => rcases htree with rfl | rfl <;> exact Nat.zero_le _
  | node entry left right =>
      rw [height, Nat.add_le_add_iff_right, max_le_iff] at hheight
      rcases htree with rfl | rfl
      · exact hheight.1
      · exact hheight.2

/-- Nothing is left out and nothing comes twice. -/
theorem levelEntries_perm (tree : BinaryTree α) {count : ℕ}
    (hcount : tree.height ≤ count) :
    (List.range count).flatMap (levelEntries tree) ~ inorder tree := by
  induction tree generalizing count with
  | nil =>
      have hnone : (List.range count).flatMap
          (levelEntries (.nil : BinaryTree α)) = [] :=
        List.flatMap_eq_nil_iff.mpr fun _ _ => rfl
      rw [hnone, inorder]
  | node entry left right ihleft ihright =>
      rw [height] at hcount
      obtain ⟨below, rfl⟩ := Nat.exists_eq_add_of_le'
        (Nat.le_of_add_left_le hcount)
      rw [Nat.add_le_add_iff_right, max_le_iff] at hcount
      rw [List.range_succ_eq_map, List.flatMap_cons, List.flatMap_map]
      calc entry :: (List.range below).flatMap (fun distance =>
              levelEntries left distance ++ levelEntries right distance)
          ~ entry :: ((List.range below).flatMap (levelEntries left) ++
              (List.range below).flatMap (levelEntries right)) :=
            (List.flatMap_append_perm _ _ _).symm.cons entry
        _ ~ entry :: (inorder left ++ inorder right) :=
            ((ihleft hcount.1).append (ihright hcount.2)).cons entry
        _ ~ inorder left ++ entry :: inorder right := List.perm_middle.symm

theorem levelOrder_perm (tree : BinaryTree α) :
    levelOrder tree ~ inorder tree :=
  levelEntries_perm tree le_rfl

end KataCpp.TreeLevels
