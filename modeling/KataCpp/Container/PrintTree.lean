import KataCpp.Container.OrderedTree
import KataCpp.Core.TreeLevels

/-!
# Printing a binary tree

`print_tree` writes the values of a tree to a stream in one of four orders.
Three of them are recursive.  The fourth works with a queue and knows nothing of
levels; still its queue is at every time the rest of one row of subtrees and
behind it the subtrees below those that have been printed.

A null pointer is announced on `std::cout`, whatever the stream is.
-/

namespace KataCpp.PrintTree

open Bytes Iteration OrderedTree PointerTree SearchTree TreeLevels
open scoped List

variable {Addr : Type}

inductive TraversalOrder where
  | preOrder
  | inOrder
  | postOrder
  | levelOrder
  deriving DecidableEq

/-- The stream that is passed to `print_tree`, and the standard output. -/
inductive Stream where
  | out
  | cout
  deriving DecidableEq

abbrev Output := List (Stream × ByteString)

/-- A pass of the loop for `LEVEL_ORDER`, on the queue and what has been written
so far. -/
def levelPass (heap : Heap Addr ℤ) (state : List Addr × Output) :
    Outcome (List Addr × Output) Output :=
  match state.1 with
  | [] => .exit state.2
  | address :: q =>
      match heap address with
      | none => .fault
      | some node =>
          .next (q ++ node.left.toList ++ node.right.toList,
            state.2 ++ [(.out, printed node.val)])

def printTree (heap : Heap Addr ℤ) (order : TraversalOrder)
    (pointer : Option Addr) : ℕ → Option Output
  | 0 => none
  | fuel + 1 =>
      match pointer with
      | none => some [(.cout, ascii "null" ++ [10])]
      | some address => do
          let node ← heap address
          match order with
          | .preOrder =>
              let left ← printTree heap order node.left fuel
              let right ← printTree heap order node.right fuel
              return (.out, printed node.val) :: left ++ right
          | .inOrder =>
              let left ← printTree heap order node.left fuel
              let right ← printTree heap order node.right fuel
              return left ++ (.out, printed node.val) :: right
          | .postOrder =>
              let left ← printTree heap order node.left fuel
              let right ← printTree heap order node.right fuel
              return left ++ right ++ [(.out, printed node.val)]
          | .levelOrder => loop (levelPass heap) fuel ([address], [])

section Rows

variable {heap : Heap Addr ℤ} {row rest : List (BinaryTree (Addr × ℤ))}
  {tree : BinaryTree (Addr × ℤ)} {result : Output}

def written (entries : List (Addr × ℤ)) : Output :=
  entries.map fun entry => (.out, printed entry.2)

theorem written_append (left right : List (Addr × ℤ)) :
    written (left ++ right) = written left ++ written right :=
  List.map_append

/-- The pointers to the trees of a row that are not empty. -/
def queued (row : List (BinaryTree (Addr × ℤ))) : List Addr :=
  row.filterMap root

theorem queued_append (row rest : List (BinaryTree (Addr × ℤ))) :
    queued (row ++ rest) = queued row ++ queued rest :=
  List.filterMap_append

theorem queued_pair (left right : BinaryTree (Addr × ℤ)) :
    queued [left, right] = (root left).toList ++ (root right).toList := by
  cases left <;> cases right <;> rfl

theorem levelPass_node {entry : Addr × ℤ} {left right : BinaryTree (Addr × ℤ)}
    (hholds : Holds heap (.node entry left right)) (output : Output) :
    levelPass heap (queued (.node entry left right :: rest), output) =
      .next (queued (rest ++ [left, right]),
        output ++ written [entry]) := by
  have hqueue : queued (.node entry left right :: rest) =
      entry.1 :: queued rest := rfl
  rw [hqueue, queued_append, queued_pair]
  simp only [levelPass, hholds.1, List.append_assoc]
  rfl

/-- When a row has been printed, the row below it stands behind the rest of the
queue. -/
theorem returns_of_rowBelow (hrow : ∀ tree ∈ row, Holds heap tree)
    (output : Output)
    (hbelow : Returns (loop (levelPass heap) ·
      (queued (rest ++ rowBelow row), output ++ written (rowEntries row 0)))
      result) :
    Returns (loop (levelPass heap) · (queued (row ++ rest), output))
      result := by
  induction row generalizing rest output with
  | nil => simpa [rowBelow, rowEntries, written] using hbelow
  | cons tree row ih =>
      have hholds := hrow tree List.mem_cons_self
      have hothers : ∀ other ∈ row, Holds heap other := fun other hother =>
        hrow other (List.mem_cons_of_mem tree hother)
      rw [rowEntries_cons, rowBelow, List.flatMap_cons] at hbelow
      cases tree with
      | nil =>
          -- An empty tree is in no queue and has no entry.
          apply ih hothers
          rw [queued_append] at hbelow ⊢
          exact hbelow
      | node entry left right =>
          apply returns_of_next (levelPass_node hholds output)
          rw [List.append_eq, List.append_assoc]
          apply ih hothers
          rw [← List.append_assoc] at hbelow
          rw [List.append_assoc output]
          exact hbelow

/-- The rows of trees whose height is bounded are printed one by one. -/
theorem loop_levelPass {count : ℕ} (hrow : ∀ tree ∈ row, Holds heap tree)
    (hheight : ∀ tree ∈ row, tree.height ≤ count) (output : Output) :
    Returns (loop (levelPass heap) · (queued row, output))
      (output ++ written ((List.range count).flatMap (rowEntries row))) := by
  induction count generalizing row output with
  | zero =>
      have hempty : queued row = [] := by
        apply List.filterMap_eq_nil_iff.mpr
        intro tree htree
        have hzero := hheight tree htree
        cases tree with
        | nil => rfl
        | node entry left right => exact absurd hzero (Nat.not_succ_le_zero _)
      rw [hempty]
      apply returns_of_exit
      simp [levelPass, written]
  | succ count ih =>
      have hrowBelow : ∀ tree ∈ rowBelow row, Holds heap tree := by
        intro tree htree
        obtain ⟨parent, hparent, hchild⟩ := mem_rowBelow_iff.mp htree
        exact (hrow parent hparent).of_child hchild
      have hbelow := ih hrowBelow
        (fun tree htree => height_le_of_mem_rowBelow hheight htree)
        (output ++ written (rowEntries row 0))
      rw [← List.nil_append (rowBelow row)] at hbelow
      have hreturns := returns_of_rowBelow hrow output hbelow
      rw [List.append_nil] at hreturns
      rwa [flatMap_rowEntries_succ, written_append, ← List.append_assoc]

end Rows

/-- With `LEVEL_ORDER` the values are written one level after the other, those
of a level from left to right, and nothing else is written. -/
theorem printTree_levelOrder {heap : Heap Addr ℤ}
    {tree : BinaryTree (Addr × ℤ)} (htree : tree ≠ .nil)
    (hholds : Holds heap tree) :
    Returns (printTree heap .levelOrder (root tree))
        ((levelOrder tree).map fun entry => (.out, printed entry.2)) ∧
      levelOrder tree ~ inorder tree := by
  refine ⟨?_, levelOrder_perm tree⟩
  cases tree with
  | nil => exact absurd rfl htree
  | node entry left right =>
      have hcompute (fuel : ℕ) :
          printTree heap .levelOrder (some entry.1) (fuel + 1) =
            loop (levelPass heap) fuel
              (queued [.node entry left right], []) := by
        simp only [printTree, hholds.1]
        rfl
      have hloop := loop_levelPass (List.forall_mem_singleton.mpr hholds)
        (List.forall_mem_singleton.mpr le_rfl) []
      have hrow : rowEntries [BinaryTree.node entry left right] =
          levelEntries (.node entry left right) := by
        funext distance
        exact List.flatMap_singleton _ _
      rw [hrow, List.nil_append] at hloop
      apply returns_of_succ
      simp only [root, hcompute]
      exact hloop

/-- The root 1 with the children 2 and 3, of which 2 has the right child 4. -/
def fourNodes : BinaryTree (ℕ × ℤ) :=
  .node (0, 1) (.node (1, 2) .nil (.node (3, 4) .nil .nil))
    (.node (2, 3) .nil .nil)

def fourCells : Heap ℕ ℤ
  | 0 => some ⟨1, some 1, some 2⟩
  | 1 => some ⟨2, none, some 3⟩
  | 2 => some ⟨3, none, none⟩
  | 3 => some ⟨4, none, none⟩
  | _ => none

theorem holds_fourNodes : Holds fourCells fourNodes :=
  ⟨rfl, ⟨rfl, trivial, rfl, trivial, trivial⟩, rfl, trivial, trivial⟩

theorem printTree_levelOrder_four :
    Returns (printTree fourCells .levelOrder (some 0))
        [(.out, printed 1), (.out, printed 2), (.out, printed 3),
          (.out, printed 4)] ∧
      levelOrder fourNodes ~ inorder fourNodes := by
  have htree : fourNodes ≠ .nil := by simp [fourNodes]
  exact printTree_levelOrder htree holds_fourNodes

end KataCpp.PrintTree
