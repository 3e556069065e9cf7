import KataCpp.Core.SearchTree

/-!
# Binary trees in a heap

A heap maps addresses to nodes, and a pointer is an address or null.  The tree
that hangs on a pointer is described by the address and the value of each of its
nodes.  `Holds` says that the heap contains these nodes; that they are different
nodes is said by their addresses.
-/

namespace KataCpp.PointerTree

open BinaryTree SearchTree

variable {Addr Val : Type*}

structure TreeNode (Addr Val : Type*) where
  val : Val
  left : Option Addr
  right : Option Addr
  deriving DecidableEq

abbrev Heap (Addr Val : Type*) := Addr → Option (TreeNode Addr Val)

/-- The pointer to a tree. -/
def root : BinaryTree (Addr × Val) → Option Addr
  | .nil => none
  | .node entry _ _ => some entry.1

def Holds (heap : Heap Addr Val) : BinaryTree (Addr × Val) → Prop
  | .nil => True
  | .node entry left right =>
      heap entry.1 = some ⟨entry.2, root left, root right⟩ ∧
        Holds heap left ∧ Holds heap right

def addresses (tree : BinaryTree (Addr × Val)) : List Addr :=
  (inorder tree).map Prod.fst

variable {heap other : Heap Addr Val}
  {tree left right : BinaryTree (Addr × Val)} {entry : Addr × Val}
  {address : Addr}

theorem root_isNone_iff : (root tree).isNone ↔ tree = .nil := by
  cases tree <;> simp [root]

theorem addresses_node :
    addresses (.node entry left right) =
      addresses left ++ entry.1 :: addresses right := by
  rw [addresses, inorder, List.map_append, List.map_cons]
  rfl

/-- The nodes of a tree are different: the top, those on the left and those on
the right. -/
theorem nodup_addresses_node
    (hdistinct : (addresses (.node entry left right)).Nodup) :
    entry.1 ∉ addresses left ∧ entry.1 ∉ addresses right ∧
      (addresses left).Disjoint (addresses right) ∧
        (addresses left).Nodup ∧ (addresses right).Nodup := by
  rw [addresses_node, List.nodup_middle, List.nodup_cons, List.mem_append,
    not_or, List.nodup_append'] at hdistinct
  obtain ⟨⟨hentryLeft, hentryRight⟩, hleft, hright, hdisjoint⟩ := hdistinct
  exact ⟨hentryLeft, hentryRight, hdisjoint, hleft, hright⟩

theorem Holds.congr (hholds : Holds heap tree)
    (hsame : ∀ address ∈ addresses tree, other address = heap address) :
    Holds other tree := by
  induction tree with
  | nil => trivial
  | node entry left right ihleft ihright =>
      obtain ⟨hentry, hleft, hright⟩ := hholds
      simp only [addresses_node, List.mem_append, List.mem_cons] at hsame
      refine ⟨?_, ihleft hleft ?_, ihright hright ?_⟩
      · rw [hsame entry.1 (.inr (.inl rfl)), hentry]
      · exact fun address hmem => hsame address (.inl hmem)
      · exact fun address hmem => hsame address (.inr (.inr hmem))

theorem Holds.of_child {child : BinaryTree (Addr × Val)}
    (hholds : Holds heap tree)
    (hchild : child = tree.left ∨ child = tree.right) : Holds heap child := by
  cases tree with
  | nil => rcases hchild with rfl | rfl <;> trivial
  | node entry left right =>
      rcases hchild with rfl | rfl
      · exact hholds.2.1
      · exact hholds.2.2

theorem Holds.isSome (hholds : Holds heap tree)
    (hmem : address ∈ addresses tree) : (heap address).isSome := by
  induction tree with
  | nil => exact absurd hmem List.not_mem_nil
  | node entry left right ihleft ihright =>
      obtain ⟨hentry, hleft, hright⟩ := hholds
      rw [addresses_node, List.mem_append, List.mem_cons] at hmem
      rcases hmem with hmem | rfl | hmem
      · exact ihleft hleft hmem
      · rw [hentry]
        rfl
      · exact ihright hright hmem

theorem Holds.notMem (hholds : Holds heap tree) (hfree : heap address = none) :
    address ∉ addresses tree := by
  intro hmem
  have hsome := hholds.isSome hmem
  rw [hfree] at hsome
  exact absurd hsome (by simp)

end KataCpp.PointerTree
