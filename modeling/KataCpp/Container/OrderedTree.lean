import KataCpp.Core.DecimalText
import KataCpp.Core.Iteration
import KataCpp.Core.OrderStatistic
import KataCpp.Core.PointerTree

/-!
# The class `BinaryTree`

`insert` goes down from the root, to the left where the new value is smaller and
to the right otherwise, and hangs the new node on the first null pointer.  Only
one pointer is written; the rest of the path is left alone, and still the whole
tree is the one that a recursive insertion into a search tree gives.
-/

namespace KataCpp.OrderedTree

open Bytes DecimalText Iteration OrderStatistic PointerTree SearchTree
open scoped List

variable {Addr : Type} [DecidableEq Addr]

/-- A pass of the loop in `insert`.  The loop is left with the heap in which the
new node hangs on `parent`. -/
def insertPass (newNode : Addr) (data : ℤ) (heap : Heap Addr ℤ)
    (current : Option Addr) : Outcome (Option Addr) (Heap Addr ℤ) :=
  match current with
  | none => .fault
  | some parent =>
      match heap parent with
      | none => .fault
      | some node =>
          if data < node.val then
            if node.left.isNone then
              .exit (Function.update heap parent
                (some { node with left := some newNode }))
            else .next node.left
          else
            if node.right.isNone then
              .exit (Function.update heap parent
                (some { node with right := some newNode }))
            else .next node.right

/-- On the heap and `root`; `newNode` is the address that `new` returns. -/
def insert (newNode : Addr) (data : ℤ) (tree : Heap Addr ℤ × Option Addr)
    (fuel : ℕ) : Option (Heap Addr ℤ × Option Addr) :=
  let heap := Function.update tree.1 newNode (some ⟨data, none, none⟩)
  if tree.2.isNone then some (heap, some newNode)
  else do
    let heap ← loop (insertPass newNode data heap) fuel tree.2
    return (heap, tree.2)

/-- Calls of `insert`, each with the address of its node and its value. -/
def insertCalls : List (Addr × ℤ) → Heap Addr ℤ × Option Addr → ℕ →
    Option (Heap Addr ℤ × Option Addr)
  | [], tree, _ => some tree
  | (newNode, data) :: calls, tree, fuel =>
      do
        let tree ← insert newNode data tree fuel
        insertCalls calls tree fuel

/-- `std::cout << node->val << " ";` -/
def printed (value : ℤ) : ByteString := integerText value ++ [32]

def inorderTraversal (heap : Heap Addr ℤ) (node : Option Addr) :
    ℕ → Option ByteString
  | 0 => none
  | fuel + 1 =>
      match node with
      | none => some []
      | some address => do
          let node ← heap address
          let left ← inorderTraversal heap node.left fuel
          let right ← inorderTraversal heap node.right fuel
          return left ++ printed node.val ++ right

section Insertion

variable {heap : Heap Addr ℤ} {newNode : Addr} {data : ℤ}
  {tree left right : BinaryTree (Addr × ℤ)} {entry : Addr × ℤ}

/-- What the loop does below a pointer: the subtree gets the new node, and
nothing outside it is changed. -/
def Inserted (heap final : Heap Addr ℤ) (newNode : Addr) (data : ℤ)
    (tree : BinaryTree (Addr × ℤ)) : Prop :=
  Holds final (SearchTree.insert Prod.snd (newNode, data) tree) ∧
    ∀ address ∉ addresses tree, final address = heap address

variable {final : Heap Addr ℤ}

omit [DecidableEq Addr] in
theorem root_insert (hne : tree ≠ .nil) :
    root (SearchTree.insert Prod.snd (newNode, data) tree) = root tree := by
  cases tree with
  | nil => exact absurd rfl hne
  | node entry left right =>
      rw [SearchTree.insert]
      split <;> rfl

omit [DecidableEq Addr] in
/-- A change on the left of a node leaves its right side alone. -/
theorem inserted_left (hlt : data < entry.2)
    (hholds : Holds heap (.node entry left right))
    (hdistinct : (addresses (.node entry left right)).Nodup)
    (hentry : final entry.1 = some ⟨entry.2,
      root (SearchTree.insert Prod.snd (newNode, data) left), root right⟩)
    (hleft : Holds final (SearchTree.insert Prod.snd (newNode, data) left))
    (hframe : ∀ address ∉ addresses left, address ≠ entry.1 →
      final address = heap address) :
    Inserted heap final newNode data (.node entry left right) := by
  obtain ⟨-, hentryRight, hdisjoint, -⟩ := nodup_addresses_node hdistinct
  constructor
  · rw [insert_of_lt hlt]
    refine ⟨hentry, hleft, hholds.2.2.congr ?_⟩
    intro address hmem
    apply hframe address (hdisjoint.symm hmem)
    rintro rfl
    exact hentryRight hmem
  · intro address hmem
    rw [addresses_node, List.mem_append, List.mem_cons, not_or, not_or] at hmem
    exact hframe address hmem.1 hmem.2.1

omit [DecidableEq Addr] in
/-- A change on the right of a node leaves its left side alone. -/
theorem inserted_right (hlt : ¬data < entry.2)
    (hholds : Holds heap (.node entry left right))
    (hdistinct : (addresses (.node entry left right)).Nodup)
    (hentry : final entry.1 = some ⟨entry.2, root left,
      root (SearchTree.insert Prod.snd (newNode, data) right)⟩)
    (hright : Holds final (SearchTree.insert Prod.snd (newNode, data) right))
    (hframe : ∀ address ∉ addresses right, address ≠ entry.1 →
      final address = heap address) :
    Inserted heap final newNode data (.node entry left right) := by
  obtain ⟨hentryLeft, -, hdisjoint, -⟩ := nodup_addresses_node hdistinct
  constructor
  · rw [insert_of_not_lt hlt]
    refine ⟨hentry, hholds.2.1.congr ?_, hright⟩
    intro address hmem
    apply hframe address (hdisjoint hmem)
    rintro rfl
    exact hentryLeft hmem
  · intro address hmem
    rw [addresses_node, List.mem_append, List.mem_cons, not_or, not_or] at hmem
    exact hframe address hmem.2.2 hmem.2.1

/-- A pass at a node whose place in the tree is known. -/
theorem insertPass_of_holds (newNode : Addr) (data : ℤ)
    (hholds : Holds heap (.node entry left right)) :
    insertPass newNode data heap (some entry.1) =
      if data < entry.2 then
        if (root left).isNone then
          .exit (Function.update heap entry.1
            (some ⟨entry.2, some newNode, root right⟩))
        else .next (root left)
      else
        if (root right).isNone then
          .exit (Function.update heap entry.1
            (some ⟨entry.2, root left, some newNode⟩))
        else .next (root right) := by
  simp only [insertPass, hholds.1]

theorem loop_insertPass (hnew : heap newNode = some ⟨data, none, none⟩)
    (hne : tree ≠ .nil) (hholds : Holds heap tree)
    (hdistinct : (addresses tree).Nodup) (hfresh : newNode ∉ addresses tree) :
    ∃ final, Returns (loop (insertPass newNode data heap) · (root tree))
      final ∧ Inserted heap final newNode data tree := by
  induction tree with
  | nil => exact absurd rfl hne
  | node entry left right ihleft ihright =>
      have hpass := insertPass_of_holds newNode data hholds
      obtain ⟨hentryLeft, hentryRight, -, hleftDistinct, hrightDistinct⟩ :=
        nodup_addresses_node hdistinct
      rw [addresses_node, List.mem_append, List.mem_cons, not_or,
        not_or] at hfresh
      obtain ⟨hfreshLeft, hfreshEntry, hfreshRight⟩ := hfresh
      -- Wherever the new node is hung up, it is as `new` made it.
      have hhung (node : TreeNode Addr ℤ) :
          Holds (Function.update heap entry.1 (some node))
            (.node (newNode, data) .nil .nil) := by
        refine ⟨?_, trivial, trivial⟩
        rw [Function.update_of_ne hfreshEntry, hnew]
        rfl
      by_cases hlt : data < entry.2
      · rw [if_pos hlt] at hpass
        by_cases hnil : left = .nil
        · rw [if_pos (root_isNone_iff.mpr hnil)] at hpass
          subst hnil
          refine ⟨_, returns_of_exit hpass, ?_⟩
          apply inserted_left hlt hholds hdistinct _ (hhung _)
          · exact fun address _ hother => Function.update_of_ne hother _ _
          · exact Function.update_self _ _ _
        · rw [if_neg (root_isNone_iff.not.mpr hnil)] at hpass
          obtain ⟨final, hfinal, hinserted⟩ :=
            ihleft hnil hholds.2.1 hleftDistinct hfreshLeft
          refine ⟨final, returns_of_next hpass hfinal, ?_⟩
          apply inserted_left hlt hholds hdistinct _ hinserted.1
          · exact fun address hmem _ => hinserted.2 address hmem
          · rw [hinserted.2 entry.1 hentryLeft, hholds.1, root_insert hnil]
      · rw [if_neg hlt] at hpass
        by_cases hnil : right = .nil
        · rw [if_pos (root_isNone_iff.mpr hnil)] at hpass
          subst hnil
          refine ⟨_, returns_of_exit hpass, ?_⟩
          apply inserted_right hlt hholds hdistinct _ (hhung _)
          · exact fun address _ hother => Function.update_of_ne hother _ _
          · exact Function.update_self _ _ _
        · rw [if_neg (root_isNone_iff.not.mpr hnil)] at hpass
          obtain ⟨final, hfinal, hinserted⟩ :=
            ihright hnil hholds.2.2 hrightDistinct hfreshRight
          refine ⟨final, returns_of_next hpass hfinal, ?_⟩
          apply inserted_right hlt hholds hdistinct _ hinserted.1
          · exact fun address hmem _ => hinserted.2 address hmem
          · rw [hinserted.2 entry.1 hentryRight, hholds.1, root_insert hnil]

/-- The pointer program does what the insertion into a search tree does, and it
uses no address besides the new one. -/
theorem insert_returns (data : ℤ) (hholds : Holds heap tree)
    (hdistinct : (addresses tree).Nodup) (hfresh : heap newNode = none) :
    ∃ final, Returns (insert newNode data (heap, root tree))
        (final, root (SearchTree.insert Prod.snd (newNode, data) tree)) ∧
      Holds final (SearchTree.insert Prod.snd (newNode, data) tree) ∧
      ∀ address, heap address = none → address ≠ newNode →
        final address = none := by
  have hnotMem := hholds.notMem hfresh
  set made := Function.update heap newNode (some ⟨data, none, none⟩) with hmade
  have hnew : made newNode = some ⟨data, none, none⟩ :=
    Function.update_self _ _ _
  by_cases hnil : tree = .nil
  · subst hnil
    refine ⟨made, returns_some _, ⟨hnew, trivial, trivial⟩, ?_⟩
    intro address hfree hother
    rw [hmade, Function.update_of_ne hother, hfree]
  · have hkept : Holds made tree := by
      apply hholds.congr
      intro address hmem
      apply Function.update_of_ne
      rintro rfl
      exact hnotMem hmem
    obtain ⟨final, hfinal, hinserted, hframe⟩ :=
      loop_insertPass hnew hnil hkept hdistinct hnotMem
    refine ⟨final, ?_, hinserted, ?_⟩
    · have hcompute : insert newNode data (heap, root tree) = fun fuel =>
          (loop (insertPass newNode data made) fuel (root tree)).bind
            fun final => some (final, root tree) := by
        funext fuel
        rw [insert, if_neg (root_isNone_iff.not.mpr hnil)]
        rfl
      rw [hcompute, root_insert hnil]
      exact hfinal.bind (returns_some _)
    · intro address hfree hother
      rw [hframe address (hholds.notMem hfree), hmade,
        Function.update_of_ne hother, hfree]

end Insertion

section Runs

variable {heap : Heap Addr ℤ} {tree : BinaryTree (Addr × ℤ)}

theorem insertCalls_returns (calls : List (Addr × ℤ)) (hholds : Holds heap tree)
    (hdistinct : (addresses tree).Nodup)
    (hcalls : (calls.map Prod.fst).Nodup)
    (hfresh : ∀ call ∈ calls, heap call.1 = none) :
    ∃ final, Returns (insertCalls calls (heap, root tree))
        (final, root (insertAll Prod.snd calls tree)) ∧
      Holds final (insertAll Prod.snd calls tree) := by
  induction calls generalizing heap tree with
  | nil => exact ⟨heap, returns_some _, hholds⟩
  | cons call calls ih =>
      rw [List.map_cons, List.nodup_cons] at hcalls
      have hfreshCall := hfresh call List.mem_cons_self
      obtain ⟨next, hnext, hnextHolds, hnextFree⟩ :=
        insert_returns call.2 hholds hdistinct hfreshCall
      have hnextDistinct :
          (addresses (SearchTree.insert Prod.snd call tree)).Nodup := by
        have hperm : addresses (SearchTree.insert Prod.snd call tree) ~
            call.1 :: addresses tree := (inorder_insert_perm call tree).map _
        rw [hperm.nodup_iff, List.nodup_cons]
        exact ⟨hholds.notMem hfreshCall, hdistinct⟩
      have hnextFresh : ∀ later ∈ calls, next later.1 = none := by
        intro later hlater
        apply hnextFree later.1 (hfresh later (List.mem_cons_of_mem _ hlater))
        intro hsame
        exact hcalls.1 (hsame ▸ List.mem_map_of_mem hlater)
      obtain ⟨final, hfinal, hfinalHolds⟩ :=
        ih hnextHolds hnextDistinct hcalls.2 hnextFresh
      exact ⟨final, hnext.bind hfinal, hfinalHolds⟩

omit [DecidableEq Addr] in
/-- What `inorderTraversal` writes. -/
theorem inorderTraversal_returns (hholds : Holds heap tree) :
    Returns (inorderTraversal heap (root tree))
      ((inorder tree).flatMap fun entry => printed entry.2) := by
  induction tree with
  | nil => exact returns_of_succ (returns_some _)
  | node entry left right ihleft ihright =>
      obtain ⟨hentry, hleft, hright⟩ := hholds
      have hcompute (fuel : ℕ) :
          inorderTraversal heap (some entry.1) (fuel + 1) =
            (inorderTraversal heap (root left) fuel).bind fun before =>
              (inorderTraversal heap (root right) fuel).bind fun after =>
                some (before ++ printed entry.2 ++ after) := by
        simp only [inorderTraversal, hentry]
        rfl
      apply returns_of_succ
      simp only [root, hcompute]
      rw [inorder, List.flatMap_append, List.flatMap_cons, ← List.append_assoc]
      exact (ihleft hleft).bind ((ihright hright).bind (returns_some _))

/-- Any sequence of insertions into an empty tree, with the addresses that
`new` returns for it. -/
theorem inorderTraversal_insertCalls (calls : List (Addr × ℤ))
    (hcalls : (calls.map Prod.fst).Nodup)
    (hfresh : ∀ call ∈ calls, heap call.1 = none) :
    ∃ final tree, Returns (insertCalls calls (heap, none)) (final, root tree) ∧
      Holds final tree ∧ (addresses tree).Nodup ∧
      inorder tree ~ calls ∧ Ordered Prod.snd tree ∧
      Returns (inorderTraversal final (root tree))
        ((ascending (calls.map Prod.snd)).flatMap printed) := by
  have hnone : Holds heap (.nil : BinaryTree (Addr × ℤ)) := trivial
  obtain ⟨final, hfinal, hholds⟩ :=
    insertCalls_returns calls hnone List.nodup_nil hcalls hfresh
  have hperm : inorder (insertAll Prod.snd calls .nil) ~ calls := by
    calc inorder (insertAll Prod.snd calls .nil)
        ~ calls ++ inorder .nil := inorder_insertAll_perm calls .nil
      _ ~ calls := by rw [inorder, List.append_nil]
  have hempty : Ordered Prod.snd (.nil : BinaryTree (Addr × ℤ)) := trivial
  have hordered := hempty.insertAll calls
  refine ⟨final, _, hfinal, hholds, ?_, hperm, hordered, ?_⟩
  · rwa [addresses, (hperm.map Prod.fst).nodup_iff]
  · rw [ascending_eq (hperm.map Prod.snd) hordered.pairwise,
      List.flatMap_map]
    exact inorderTraversal_returns hholds

/-- Five insertions with a value that comes twice, at five free addresses. -/
theorem inorderTraversal_insertCalls_five :
    ∃ final tree, Returns
        (insertCalls [(0, 5), (1, 3), (2, 8), (3, 5), (4, -1)]
          ((fun _ => none : Heap ℕ ℤ), none)) (final, root tree) ∧
      Holds final tree ∧ (addresses tree).Nodup ∧
      inorder tree ~ [(0, 5), (1, 3), (2, 8), (3, 5), (4, -1)] ∧
      Ordered Prod.snd tree ∧
      Returns (inorderTraversal final (root tree))
        ((ascending [5, 3, 8, 5, -1]).flatMap printed) :=
  inorderTraversal_insertCalls [(0, 5), (1, 3), (2, 8), (3, 5), (4, -1)]
    (by decide) fun _ _ => rfl

end Runs

end KataCpp.OrderedTree
