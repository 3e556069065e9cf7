import Mathlib.Data.Tree.Basic
import Mathlib.Tactic.Common

/-!
# Binary trees in an array

The nodes of a binary tree can be numbered level by level: the root has number
0, and the children of node `i` have the numbers `2 * i + 1` and `2 * i + 2`.
An array in which some cells are empty describes a tree in this way; a cell
below an empty one does not count, whatever it holds.
-/

namespace KataCpp.HeapNumbering

variable {α : Type*}

def subtreeAt (tree : BinaryTree α) : ℕ → BinaryTree α
  | 0 => tree
  | i + 1 =>
      if i % 2 = 0 then (subtreeAt tree (i / 2)).left
      else (subtreeAt tree (i / 2)).right

def root : BinaryTree α → Option α
  | .nil => none
  | .node value _ _ => some value

def nodeAt (tree : BinaryTree α) (i : ℕ) : Option α := root (subtreeAt tree i)

/-- The numbers of a node, of its parent, and so on up to the root. -/
def parentChain : ℕ → List ℕ
  | 0 => [0]
  | i + 1 => (i + 1) :: parentChain (i / 2)

def entryAt (cells : List (Option α)) (i : ℕ) : Option α := cells[i]?.join

theorem lt_length_of_entryAt {cells : List (Option α)} {i : ℕ} {value : α}
    (hentry : entryAt cells i = some value) : i < cells.length := by
  by_contra hlength
  rw [entryAt, List.getElem?_eq_none (by omega)] at hentry
  contradiction

/-- The tree that an array describes, from cell `i` down. -/
def heapTree (cells : List (Option α)) (i : ℕ) : BinaryTree α :=
  match hentry : entryAt cells i with
  | none => .nil
  | some value =>
      .node value (heapTree cells (2 * i + 1)) (heapTree cells (2 * i + 2))
termination_by cells.length - i
decreasing_by
  all_goals
    have hlength := lt_length_of_entryAt hentry
    omega

variable {cells : List (Option α)} {i : ℕ} {value : α}

theorem self_mem_parentChain (i : ℕ) : i ∈ parentChain i := by
  cases i with
  | zero => simp [parentChain]
  | succ i => simp [parentChain]

theorem le_of_mem_parentChain {j : ℕ} (hj : j ∈ parentChain i) : j ≤ i := by
  induction i using parentChain.induct with
  | case1 => simpa [parentChain] using hj
  | case2 i ih =>
      rw [parentChain, List.mem_cons] at hj
      rcases hj with rfl | hj
      · exact Nat.le_refl _
      · have hle := ih hj
        omega

theorem heapTree_of_none (hentry : entryAt cells i = none) :
    heapTree cells i = .nil := by
  rw [heapTree]
  split
  · rfl
  · simp_all

theorem heapTree_of_some (hentry : entryAt cells i = some value) :
    heapTree cells i = .node value (heapTree cells (2 * i + 1))
      (heapTree cells (2 * i + 2)) := by
  rw [heapTree]
  split
  · simp_all
  · simp_all

theorem root_heapTree (cells : List (Option α)) (i : ℕ) :
    root (heapTree cells i) = entryAt cells i := by
  cases hentry : entryAt cells i with
  | none =>
      rw [heapTree_of_none hentry]
      rfl
  | some value =>
      rw [heapTree_of_some hentry]
      rfl

/-- The child with the next number below a node of the tree. -/
theorem subtreeAt_succ_of_eq {tree : BinaryTree α}
    (hparent : subtreeAt tree (i / 2) = heapTree cells (i / 2))
    (hentry : entryAt cells (i / 2) ≠ none) :
    subtreeAt tree (i + 1) = heapTree cells (i + 1) := by
  obtain ⟨value, hvalue⟩ := Option.ne_none_iff_exists'.mp hentry
  rw [subtreeAt, hparent, heapTree_of_some hvalue]
  split_ifs with heven
  · rw [BinaryTree.left]
    congr 1
    omega
  · rw [BinaryTree.right]
    congr 1
    omega

theorem subtreeAt_heapTree
    (hchain : ∀ j ∈ parentChain i, entryAt cells j ≠ none) :
    subtreeAt (heapTree cells 0) i = heapTree cells i := by
  induction i using parentChain.induct with
  | case1 => rw [subtreeAt]
  | case2 i ih =>
      rw [parentChain, List.forall_mem_cons] at hchain
      exact subtreeAt_succ_of_eq (ih hchain.2)
        (hchain.2 _ (self_mem_parentChain _))

/-- Below an empty cell there is nothing. -/
theorem subtreeAt_heapTree_of_cut
    (hchain : ∃ j ∈ parentChain i, entryAt cells j = none) :
    subtreeAt (heapTree cells 0) i = .nil := by
  induction i using parentChain.induct with
  | case1 =>
      obtain ⟨j, hj, hcut⟩ := hchain
      obtain rfl := Nat.le_zero.mp (le_of_mem_parentChain hj)
      rw [subtreeAt, heapTree_of_none hcut]
  | case2 i ih =>
      by_cases habove : ∃ j ∈ parentChain (i / 2), entryAt cells j = none
      · have hparent := ih habove
        rw [subtreeAt, hparent]
        split_ifs <;> rfl
      · -- Only the cell itself can be empty.
        push Not at habove
        obtain ⟨j, hj, hcut⟩ := hchain
        rw [parentChain, List.mem_cons] at hj
        obtain rfl := hj.resolve_right fun hj => habove j hj hcut
        rw [subtreeAt_succ_of_eq (subtreeAt_heapTree habove)
          (habove _ (self_mem_parentChain _)), heapTree_of_none hcut]

/-- A node of the tree is an entry of the array with entries above it. -/
theorem nodeAt_heapTree_iff :
    nodeAt (heapTree cells 0) i = some value ↔
      entryAt cells i = some value ∧
        ∀ j ∈ parentChain i, entryAt cells j ≠ none := by
  rw [nodeAt]
  by_cases hchain : ∀ j ∈ parentChain i, entryAt cells j ≠ none
  · rw [subtreeAt_heapTree hchain, root_heapTree, and_iff_left hchain]
  · have hcut : ∃ j ∈ parentChain i, entryAt cells j = none := by
      simpa using hchain
    rw [subtreeAt_heapTree_of_cut hcut, root]
    simp [hchain]

end KataCpp.HeapNumbering
