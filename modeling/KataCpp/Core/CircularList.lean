import KataCpp.Core.LinkedList

/-!
# Circular lists in a heap

The nodes of a ring follow each other, and the last one points to the first.
A program keeps a pointer to the last node, from which it reaches both ends.

A ring can be read from any of its nodes.  Inserting behind the last node and
removing the last node are therefore enough: every other node is the last one
of a rotated ring.
-/

namespace KataCpp.LinkedList

variable {Addr Val : Type*} {heap other : Heap Addr Val}
  {nodes left right front : List Addr} {address last added removed : Addr}

/-- The nodes form a ring, each of them once. -/
structure Ring (heap : Heap Addr Val) (nodes : List Addr) : Prop where
  nodup : nodes.Nodup
  path : Path heap nodes.head? nodes nodes.head?

theorem ring_nil (heap : Heap Addr Val) : Ring heap [] :=
  ⟨List.nodup_nil, rfl⟩

/-- Nodes with the same `next` pointers lead the same way. -/
theorem Path.congr_next {start behind : Option Addr}
    (hpath : Path heap start nodes behind)
    (hsame : ∀ address ∈ nodes, (other address).map ListNode.next =
      (heap address).map ListNode.next) : Path other start nodes behind := by
  induction nodes generalizing start with
  | nil => exact hpath
  | cons address rest ih =>
      obtain ⟨hstart, node, hnode, hrest⟩ := hpath
      have hhere := hsame address List.mem_cons_self
      rw [hnode, Option.map_some, Option.map_eq_some_iff] at hhere
      obtain ⟨replaced, hreplaced, hnext⟩ := hhere
      refine ⟨hstart, replaced, hreplaced, ?_⟩
      rw [hnext]
      exact ih hrest fun address hmem =>
        hsame address (List.mem_cons_of_mem _ hmem)

theorem Ring.congr_next (hring : Ring heap nodes)
    (hsame : ∀ address ∈ nodes, (other address).map ListNode.next =
      (heap address).map ListNode.next) : Ring other nodes :=
  ⟨hring.nodup, hring.path.congr_next hsame⟩

/-- A ring read from another of its nodes. -/
theorem Ring.rotate (hring : Ring heap (left ++ right)) :
    Ring heap (right ++ left) := by
  refine ⟨List.nodup_append_comm.mp hring.nodup, ?_⟩
  have hpath := hring.path
  cases left with
  | nil => simpa using hpath
  | cons first left =>
      cases right with
      | nil => simpa using hpath
      | cons second right =>
          obtain ⟨hleft, hright⟩ := path_append_iff.mp hpath
          exact path_append_iff.mpr ⟨hright, hleft⟩

/-- What a node of a ring points to. -/
theorem Ring.node (hring : Ring heap nodes)
    (hsplit : nodes = left ++ address :: right) :
    ∃ node, heap address = some node ∧
      node.next = first right nodes.head? :=
  hring.path.node hsplit

theorem Ring.isSome (hring : Ring heap nodes) (hmem : address ∈ nodes) :
    (heap address).isSome :=
  hring.path.isSome hmem

/-- The node behind the last one is the first. -/
theorem Ring.node_getElem (hring : Ring heap nodes) {index : ℕ}
    (hindex : index < nodes.length) :
    ∃ node, heap nodes[index] = some node ∧
      node.next = (nodes[index + 1]?).or nodes.head? := by
  have hsplit : nodes = nodes.take index ++
      nodes[index] :: nodes.drop (index + 1) := by
    rw [← List.drop_eq_getElem_cons hindex, List.take_append_drop]
  obtain ⟨node, hnode, hnext⟩ := hring.node hsplit
  refine ⟨node, hnode, ?_⟩
  rw [hnext, first, List.head?_drop]

/-- Walking along a ring, the pointer to the last node is met at the end. -/
theorem getElem?_eq_getLast?_iff (hnodup : nodes.Nodup) {index : ℕ}
    (hindex : index < nodes.length) :
    nodes[index]? = nodes.getLast? ↔ index + 1 = nodes.length := by
  rw [List.getLast?_eq_getElem?]
  constructor
  · intro hequal
    have hlast := (List.getElem?_inj hindex hnodup).mp hequal
    omega
  · intro hlast
    rw [← hlast, Nat.add_sub_cancel]

section Changes

variable [DecidableEq Addr]

/-- A node that points to itself. -/
theorem ring_singleton (heap : Heap Addr Val) (added : Addr) (value : Val) :
    Ring (Function.update heap added (some ⟨value, some added⟩)) [added] := by
  refine ⟨List.nodup_singleton added, rfl, _, Function.update_self _ _ _, ?_⟩
  rfl

/-- A new node behind the last one. -/
theorem Ring.insert (hring : Ring heap (front ++ [last]))
    (hnode : heap added = none) (value : Val) :
    Ring (setNext (Function.update heap added
        (some ⟨value, (front ++ [last]).head?⟩)) last (some added))
      (front ++ [last] ++ [added]) := by
  have hnew : added ∉ front ++ [last] := fun hmem =>
    ne_of_isSome (hring.isSome hmem) hnode rfl
  have hlast : last ≠ added := by
    rintro rfl
    exact hnew (List.mem_append_right _ (List.mem_singleton_self last))
  have hfront : last ∉ front :=
    fun hmem => List.disjoint_of_nodup_append hring.nodup hmem
      (List.mem_singleton_self last)
  have hhead : (front ++ [last] ++ [added]).head? =
      (front ++ [last]).head? := by
    cases front <;> rfl
  refine ⟨?_, ?_⟩
  · rw [← List.concat_eq_append]
    exact hring.nodup.concat hnew
  rw [hhead, List.append_assoc]
  obtain ⟨hpath, -⟩ := path_append_iff.mp hring.path
  obtain ⟨previous, hprevious, -⟩ := hring.node rfl
  refine path_append_iff.mpr ⟨?_, rfl, { previous with next := some added },
    ?_, rfl, ⟨value, (front ++ [last]).head?⟩, ?_, rfl⟩
  · apply hpath.congr
    intro address hmem
    rw [setNext_of_ne (ne_of_mem_of_not_mem hmem hfront)]
    apply Function.update_of_ne
    rintro rfl
    exact hnew (List.mem_append_left _ hmem)
  · rw [setNext_self, Function.update_of_ne hlast, hprevious]
    rfl
  · rw [setNext_of_ne hlast.symm, Function.update_self]

/-- The last node is taken out when the one before it points to the first. -/
theorem Ring.remove (hring : Ring heap (front ++ [last] ++ [removed])) :
    Ring (Function.update (setNext heap last (front ++ [last]).head?) removed
      none) (front ++ [last]) := by
  have hnodup := hring.nodup
  have hnode : removed ∉ front ++ [last] :=
    fun hmem => List.disjoint_of_nodup_append hnodup hmem
      (List.mem_singleton_self removed)
  have hlast : last ≠ removed := by
    rintro rfl
    exact hnode (List.mem_append_right _ (List.mem_singleton_self last))
  have hfront : last ∉ front :=
    fun hmem => List.disjoint_of_nodup_append hnodup.of_append_left hmem
      (List.mem_singleton_self last)
  have hhead : (front ++ [last] ++ [removed]).head? =
      (front ++ [last]).head? := by
    cases front <;> rfl
  refine ⟨hnodup.of_append_left, ?_⟩
  have hpath := hring.path
  rw [hhead, List.append_assoc] at hpath
  obtain ⟨hpath, -⟩ := path_append_iff.mp hpath
  obtain ⟨previous, hprevious, -⟩ :=
    hring.node (List.append_assoc front [last] [removed])
  refine path_append_iff.mpr ⟨?_, rfl,
    { previous with next := (front ++ [last]).head? }, ?_, rfl⟩
  · apply hpath.congr
    intro address hmem
    have hne : address ≠ removed := by
      rintro rfl
      exact hnode (List.mem_append_left _ hmem)
    rw [Function.update_of_ne hne,
      setNext_of_ne (ne_of_mem_of_not_mem hmem hfront)]
  · rw [Function.update_of_ne hlast, setNext_self, hprevious]
    rfl

/-- An assignment to what the node that `pointer` points to holds. -/
def modify (heap : Heap Addr Val) (pointer : Option Addr)
    (change : Val → Val) : Option (Heap Addr Val) :=
  pointer.bind fun address => (heap address).map fun node =>
    Function.update heap address (some { node with val := change node.val })

/-- The heap in which what the given nodes hold has been changed. -/
def changeAll (heap : Heap Addr Val) (nodes : List Addr)
    (change : Val → Val) : Heap Addr Val := fun address =>
  if address ∈ nodes then
    (heap address).map fun node => { node with val := change node.val }
  else heap address

theorem changeAll_nil (heap : Heap Addr Val) (change : Val → Val) :
    changeAll heap [] change = heap := by
  funext address
  rw [changeAll, if_neg List.not_mem_nil]

theorem changeAll_of_mem (hmem : address ∈ nodes) (change : Val → Val) :
    changeAll heap nodes change address =
      (heap address).map fun node => { node with val := change node.val } :=
  if_pos hmem

theorem changeAll_of_notMem (hmem : address ∉ nodes) (change : Val → Val) :
    changeAll heap nodes change address = heap address :=
  if_neg hmem

theorem next_changeAll (heap : Heap Addr Val) (nodes : List Addr)
    (change : Val → Val) (address : Addr) :
    (changeAll heap nodes change address).map ListNode.next =
      (heap address).map ListNode.next := by
  rw [changeAll]
  split
  · rw [Option.map_map]
    rfl
  · rfl

theorem Ring.changeAll (hring : Ring heap nodes) (changed : List Addr)
    (change : Val → Val) :
    Ring (changeAll heap changed change) nodes :=
  hring.congr_next fun address _ => next_changeAll heap changed change address

/-- One more node is changed. -/
theorem modify_changeAll (hsome : (heap address).isSome)
    (hmem : address ∉ nodes) (change : Val → Val) :
    modify (changeAll heap nodes change) (some address) change =
      some (changeAll heap (nodes ++ [address]) change) := by
  obtain ⟨node, hnode⟩ := Option.isSome_iff_exists.mp hsome
  rw [modify, Option.bind_some, changeAll_of_notMem hmem, hnode,
    Option.map_some, Option.some_inj]
  funext other
  by_cases hother : other = address
  · subst hother
    rw [Function.update_self, changeAll_of_mem (by simp), hnode]
    rfl
  · rw [Function.update_of_ne hother]
    simp [LinkedList.changeAll, hother]

theorem modify_eq_changeAll (hsome : (heap address).isSome)
    (change : Val → Val) :
    modify heap (some address) change =
      some (changeAll heap [address] change) := by
  have hmodify : modify (changeAll heap [] change) (some address) change =
      some (changeAll heap ([] ++ [address]) change) :=
    modify_changeAll hsome List.not_mem_nil change
  rwa [changeAll_nil, List.nil_append] at hmodify

end Changes

end KataCpp.LinkedList
