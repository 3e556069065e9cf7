import Mathlib

/-!
# Search trees

A tree is ordered by a key: what stands to the left of a node has a smaller key
and what stands to the right does not.  Entries with equal keys are allowed, and
the later one is inserted to the right of the earlier.
-/

namespace KataCpp.SearchTree

open BinaryTree
open scoped List

variable {α Key : Type*} [LinearOrder Key] (key : α → Key)

def inorder : BinaryTree α → List α
  | .nil => []
  | .node entry left right => inorder left ++ entry :: inorder right

def Ordered : BinaryTree α → Prop
  | .nil => True
  | .node entry left right =>
      (∀ other ∈ inorder left, key other < key entry) ∧
        (∀ other ∈ inorder right, key entry ≤ key other) ∧
          Ordered left ∧ Ordered right

def insert (entry : α) : BinaryTree α → BinaryTree α
  | .nil => .node entry .nil .nil
  | .node top left right =>
      if key entry < key top then .node top (insert entry left) right
      else .node top left (insert entry right)

variable {key} {entry top : α} {tree left right : BinaryTree α}

theorem insert_of_lt (hlt : key entry < key top) :
    insert key entry (.node top left right) =
      .node top (insert key entry left) right := by
  rw [insert, if_pos hlt]

theorem insert_of_not_lt (hlt : ¬key entry < key top) :
    insert key entry (.node top left right) =
      .node top left (insert key entry right) := by
  rw [insert, if_neg hlt]

/-- Nothing is lost or duplicated. -/
theorem inorder_insert_perm (entry : α) (tree : BinaryTree α) :
    inorder (insert key entry tree) ~ entry :: inorder tree := by
  induction tree with
  | nil => exact .refl _
  | node top left right ihleft ihright =>
      by_cases hlt : key entry < key top
      · rw [insert_of_lt hlt, inorder, inorder]
        exact ihleft.append_right _
      · rw [insert_of_not_lt hlt, inorder, inorder]
        calc inorder left ++ top :: inorder (insert key entry right)
            ~ inorder left ++ top :: entry :: inorder right :=
              (ihright.cons top).append_left _
          _ ~ inorder left ++ entry :: top :: inorder right :=
              (List.Perm.swap entry top _).append_left _
          _ ~ entry :: (inorder left ++ top :: inorder right) :=
              List.perm_middle

theorem mem_inorder_insert {other : α}
    (hother : other ∈ inorder (insert key entry tree)) :
    other = entry ∨ other ∈ inorder tree :=
  List.mem_cons.mp ((inorder_insert_perm entry tree).mem_iff.mp hother)

theorem Ordered.insert (hordered : Ordered key tree) :
    Ordered key (insert key entry tree) := by
  induction tree with
  | nil =>
      refine ⟨?_, ?_, trivial, trivial⟩
      all_goals
        intro other hother
        exact absurd hother List.not_mem_nil
  | node top left right ihleft ihright =>
      obtain ⟨hsmaller, hnotSmaller, hleft, hright⟩ := hordered
      by_cases hlt : key entry < key top
      · rw [insert_of_lt hlt]
        refine ⟨?_, hnotSmaller, ihleft hleft, hright⟩
        intro other hother
        rcases mem_inorder_insert hother with rfl | hother
        · exact hlt
        · exact hsmaller other hother
      · rw [insert_of_not_lt hlt]
        refine ⟨hsmaller, ?_, hleft, ihright hright⟩
        intro other hother
        rcases mem_inorder_insert hother with rfl | hother
        · exact not_lt.mp hlt
        · exact hnotSmaller other hother

/-- From left to right the keys ascend. -/
theorem Ordered.pairwise (hordered : Ordered key tree) :
    ((inorder tree).map key).Pairwise (· ≤ ·) := by
  rw [List.pairwise_map]
  induction tree with
  | nil => exact .nil
  | node top left right ihleft ihright =>
      obtain ⟨hsmaller, hnotSmaller, hleft, hright⟩ := hordered
      rw [inorder, List.pairwise_append, List.pairwise_cons]
      refine ⟨ihleft hleft, ⟨hnotSmaller, ihright hright⟩, ?_⟩
      intro lower hlower higher hhigher
      rcases List.mem_cons.mp hhigher with rfl | hhigher
      · exact (hsmaller lower hlower).le
      · exact (hsmaller lower hlower).le.trans (hnotSmaller higher hhigher)

variable (key) in
def insertAll (entries : List α) (tree : BinaryTree α) : BinaryTree α :=
  entries.foldl (fun tree entry => insert key entry tree) tree

theorem inorder_insertAll_perm (entries : List α) (tree : BinaryTree α) :
    inorder (insertAll key entries tree) ~ entries ++ inorder tree := by
  induction entries generalizing tree with
  | nil => exact .refl _
  | cons entry entries ih =>
      calc inorder (insertAll key entries (insert key entry tree))
          ~ entries ++ inorder (insert key entry tree) := ih _
        _ ~ entries ++ entry :: inorder tree :=
            (inorder_insert_perm entry tree).append_left _
        _ ~ entry :: entries ++ inorder tree := List.perm_middle

theorem Ordered.insertAll (hordered : Ordered key tree) (entries : List α) :
    Ordered key (insertAll key entries tree) := by
  induction entries generalizing tree with
  | nil => exact hordered
  | cons entry entries ih => exact ih hordered.insert

end KataCpp.SearchTree
