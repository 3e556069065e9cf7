import KataCpp.Network.ComplaintQueue

/-!
# Adding and removing complaints

A new complaint is linked in behind the tail.  `del_complaint` walks with two
pointers, one behind the other, so that the element in front of the one that
it finds can be redirected; the tail moves back when it was the tail itself.
-/

namespace KataCpp.ComplaintQueue

open Bytes Iteration LinkedList

/-! ## Removing a complaint -/

/-- The pointer that walks behind another one along a ring. -/
def previous {Addr : Type} (nodes : List Addr) : ℕ → Option Addr
  | 0 => nodes.getLast?
  | index + 1 => nodes[index]?

section Remove

variable {Addr : Type} [DecidableEq Addr] {store : Store Addr}
  {entries left right : List (Entry Addr)} {entry : Entry Addr}
  {source : ByteString} {index : ℕ}

theorem Holds.delPass_of_lt (hstore : Holds store entries)
    (hindex : index + 1 < entries.length)
    (hne : source ≠ (entries.get
      ⟨index, Nat.lt_of_succ_lt hindex⟩).complaint.apartmentId) :
    delPass store source
        (previous (nodes entries) index, (nodes entries)[index]?) =
      .next (previous (nodes entries) (index + 1),
        (nodes entries)[index + 1]?) := by
  have htail : (nodes entries)[index]? ≠ store.tail := by
    rw [Ne, hstore.eq_tail_iff (Nat.lt_of_succ_lt hindex)]
    omega
  rw [delPass, hstore.apartmentAt_eq (Nat.lt_of_succ_lt hindex)]
  rw [List.get_eq_getElem] at hne
  simp only [if_neg hne, if_neg htail]
  rw [nodes_getElem? hindex]
  rfl

/-- The loop of `del_complaint` finds the oldest complaint that matches. -/
theorem Holds.del_loop (hstore : Holds store (left ++ entry :: right))
    (hleft : ∀ other ∈ left, source ≠ other.complaint.apartmentId)
    (hentry : source = entry.complaint.apartmentId) :
    Returns (loop (delPass store source) · (store.tail,
        (nodes (left ++ entry :: right))[0]?))
      (some (previous (nodes (left ++ entry :: right)) left.length,
        some entry.address)) := by
  obtain ⟨next, hat⟩ := hstore.apartmentAt_append
  rw [hstore.tail_eq]
  refine returns_of_steps
    (fun step => (previous (nodes (left ++ entry :: right)) step,
      (nodes (left ++ entry :: right))[step]?)) left.length ?_ ?_
  · intro step hstep
    refine hstore.delPass_of_lt ?_ ?_
    · rw [List.length_append, List.length_cons]
      omega
    · rw [List.get_eq_getElem, List.getElem_append_left hstep]
      exact hleft _ (List.getElem_mem hstep)
  · rw [delPass, hat]
    simp only [if_pos hentry, nodes_getElem?_append]

theorem Holds.del_loop_none (hstore : Holds store entries)
    (hentries : entries ≠ [])
    (hall : ∀ other ∈ entries, source ≠ other.complaint.apartmentId) :
    Returns (loop (delPass store source) ·
      (store.tail, (nodes entries)[0]?)) none := by
  have hlength := List.length_pos_iff.mpr hentries
  have hlast : entries.length - 1 < entries.length := by omega
  have hat := hstore.apartmentAt_eq hlast
  have htail := (hstore.eq_tail_iff hlast).mpr (Nat.sub_add_cancel hlength)
  have hpass : delPass store source
      (previous (nodes entries) (entries.length - 1),
        (nodes entries)[entries.length - 1]?) = .exit none := by
    rw [delPass, hat]
    simp only [if_neg (hall _ (List.getElem_mem hlast)), if_pos htail]
  have hstart : store.tail = previous (nodes entries) 0 := hstore.tail_eq
  rw [hstart]
  refine returns_of_steps (fun step =>
    (previous (nodes entries) step, (nodes entries)[step]?))
    (entries.length - 1) ?_ hpass
  intro step hstep
  exact hstore.delPass_of_lt (by omega) (hall _ (List.get_mem _ _))

omit [DecidableEq Addr]

theorem blocks_perm (left right : List (Entry Addr)) (entry : Entry Addr) :
    (blocks (left ++ entry :: right)).Perm
      (entry.idBlock :: entry.remarksBlock :: blocks (left ++ right)) :=
  List.Perm.flatMap_right Entry.blocks List.perm_middle

theorem nodes_perm (left right : List (Entry Addr)) (entry : Entry Addr) :
    (nodes (left ++ entry :: right)).Perm
      (entry.address :: nodes (left ++ right)) :=
  List.perm_middle.map Entry.address

/-- The element in front of an element, when there is another one. -/
theorem previous_eq_getLast? (hother : right ++ left ≠ []) :
    previous (nodes (left ++ entry :: right)) left.length =
      (nodes (right ++ left)).getLast? := by
  rcases List.eq_nil_or_concat' left with rfl | ⟨front, last, rfl⟩
  · rw [List.append_nil] at hother ⊢
    obtain ⟨front, last, rfl⟩ := (List.eq_nil_or_concat' right).resolve_left
      hother
    simp only [previous, nodes, List.nil_append, List.length_nil,
      List.map_cons, List.map_append, List.map_nil]
    rw [← List.cons_append, List.getLast?_concat, List.getLast?_concat]
  · rw [List.length_append, List.length_singleton, previous,
      List.append_assoc]
    simp [nodes]

/-- What the element points to, when there is another one. -/
theorem Holds.next_eq (hstore : Holds store (left ++ entry :: right))
    (hother : right ++ left ≠ []) :
    load store.elements (some entry.address) =
      some ⟨entry.element, (nodes (right ++ left)).head?⟩ := by
  have hindex : left.length < (left ++ entry :: right).length := by simp
  have hload := hstore.load_eq hindex
  rw [nodes_getElem?_append] at hload
  rw [hload]
  simp only [List.getElem_append_right le_rfl, Nat.sub_self,
    List.getElem_cons_zero, Option.some_inj, ListNode.mk.injEq, true_and]
  cases right with
  | nil =>
      obtain ⟨head, rest, rfl⟩ := List.exists_cons_of_ne_nil hother
      simp [nodes]
  | cons head rest => simp [nodes]

end Remove

section Unlink

variable {Addr : Type} [DecidableEq Addr] {store : Store Addr}
  {entries left right : List (Entry Addr)} {entry : Entry Addr}

/-- The two strings of an element are freed. -/
theorem Holds.freeStrings (hstore : Holds store (left ++ entry :: right)) :
    ∃ first, freeString store.strings entry.idBlock = some first ∧
      freeString first entry.remarksBlock =
        some (Function.update first entry.remarksBlock none) ∧
      first = Function.update store.strings entry.idBlock none := by
  have hmem : entry ∈ left ++ entry :: right := by simp
  have hnodup := (blocks_perm left right entry).nodup_iff.mp
    hstore.nodup_blocks
  have hne : entry.remarksBlock ≠ entry.idBlock := by
    intro heq
    rw [heq] at hnodup
    exact (List.nodup_cons.mp hnodup).1 List.mem_cons_self
  refine ⟨_, ?_, ?_, rfl⟩
  · rw [freeString, hstore.id_eq entry hmem]
    rfl
  · rw [freeString, Function.update_of_ne hne, hstore.remarks_eq entry hmem]
    rfl

/-- The ring without an element, and the strings without its strings. -/
theorem Holds.remove (hstore : Holds store (left ++ entry :: right))
    {elements : Heap Addr (Element Addr)}
    (hring : Ring elements (nodes (left ++ right)))
    (hval : ∀ address ∈ nodes (left ++ right),
      (elements address).map ListNode.val =
        (store.elements address).map ListNode.val)
    (hnone : ∀ address ∉ nodes (left ++ right), elements address = none) :
    Holds ⟨elements, Function.update
        (Function.update store.strings entry.idBlock none)
        entry.remarksBlock none, (nodes (left ++ right)).getLast?⟩
      (left ++ right) := by
  have hperm := blocks_perm left right entry
  have hnodup := hperm.nodup_iff.mp hstore.nodup_blocks
  obtain ⟨hid, hnodup⟩ := List.nodup_cons.mp hnodup
  obtain ⟨hremarks, hnodup⟩ := List.nodup_cons.mp hnodup
  have hsubset : left ++ right ⊆ left ++ entry :: right := by
    intro other hmem
    rw [List.mem_append] at hmem ⊢
    exact hmem.imp_right (List.mem_cons_of_mem entry)
  -- The strings of the other elements are not among the freed ones.
  have hkept : ∀ address ∈ blocks (left ++ right),
      Function.update (Function.update store.strings entry.idBlock none)
        entry.remarksBlock none address = store.strings address := by
    intro address hmem
    have hne : address ≠ entry.remarksBlock :=
      ne_of_mem_of_not_mem hmem hremarks
    have hneId : address ≠ entry.idBlock := by
      rintro rfl
      exact hid (List.mem_cons_of_mem _ hmem)
    rw [Function.update_of_ne hne, Function.update_of_ne hneId]
  constructor
  · exact hring
  · rfl
  · intro other hmem
    rw [hval other.address (List.mem_map_of_mem hmem)]
    exact hstore.element_eq other (hsubset hmem)
  · intro other hmem
    dsimp only
    rw [hkept _ (List.mem_flatMap.mpr ⟨other, hmem, by simp [Entry.blocks]⟩)]
    exact hstore.id_eq other (hsubset hmem)
  · intro other hmem
    dsimp only
    rw [hkept _ (List.mem_flatMap.mpr ⟨other, hmem, by simp [Entry.blocks]⟩)]
    exact hstore.remarks_eq other (hsubset hmem)
  · exact hnodup
  · exact hnone
  · intro address hmem
    dsimp only
    by_cases hremarksBlock : address = entry.remarksBlock
    · rw [hremarksBlock, Function.update_self]
    · rw [Function.update_of_ne hremarksBlock]
      by_cases hidBlock : address = entry.idBlock
      · rw [hidBlock, Function.update_self]
      · rw [Function.update_of_ne hidBlock]
        apply hstore.strings_eq_none
        rw [hperm.mem_iff]
        simp [hmem, hidBlock, hremarksBlock]

/-- The element is the only one. -/
theorem Holds.unlink_singleton (hstore : Holds store [entry]) :
    ∃ next, unlinkComplaint store (some entry.address)
        (some entry.address) = some next ∧ Holds next [] := by
  obtain ⟨first, hfirst, hsecond, rfl⟩ :=
    Holds.freeStrings (List.nil_append [entry] ▸ hstore)
  have hload := hstore.load_eq (Nat.one_pos : 0 < [entry].length)
  have htail : store.tail = some entry.address := hstore.tail_eq
  change store.elements entry.address = _ at hload
  have hnone : ∀ address, Function.update store.elements entry.address none
      address = none := by
    intro address
    by_cases haddress : address = entry.address
    · rw [haddress, Function.update_self]
    · rw [Function.update_of_ne haddress]
      apply hstore.elements_eq_none
      simpa [nodes] using haddress
  have hremoved := Holds.remove (List.nil_append [entry] ▸ hstore)
    (ring_nil (Function.update store.elements entry.address none))
    (by simp [nodes]) fun address _ => hnone address
  refine ⟨_, ?_, hremoved⟩
  · simp only [unlinkComplaint, load_some, hload, Option.bind_eq_bind,
      Option.bind_some, List.getElem_cons_zero, Entry.element, hfirst, hsecond,
      htail, and_self, if_pos, freeElement, Option.map_some]
    rfl

/-- The tail after the removal of an element that is not the only one. -/
theorem Holds.tail_remove (hstore : Holds store (left ++ entry :: right))
    (hother : right ++ left ≠ []) :
    (if some entry.address = store.tail then
        (nodes (right ++ left)).getLast? else store.tail) =
      (nodes (left ++ right)).getLast? := by
  have htail := hstore.tail_eq
  rcases List.eq_nil_or_concat' right with rfl | ⟨front, last, rfl⟩
  · rw [nodes_append, nodes, nodes, List.map_cons, List.map_nil,
      List.getLast?_concat] at htail
    rw [if_pos htail.symm, List.nil_append, List.append_nil]
  · have hlast : store.tail = some last.address := by
      rw [htail, ← List.cons_append, ← List.append_assoc, nodes_append]
      exact List.getLast?_concat
    have hnodup := (nodes_perm left (front ++ [last]) entry).nodup_iff.mp
      hstore.ring.nodup
    have hne : some entry.address ≠ store.tail := by
      rw [hlast, Ne, Option.some_inj]
      intro haddress
      apply (List.nodup_cons.mp hnodup).1
      rw [haddress]
      exact List.mem_map_of_mem (by simp)
    rw [if_neg hne, hlast, ← List.append_assoc, nodes_append]
    exact List.getLast?_concat.symm

/-- There is another element, which then points to the next one. -/
theorem Holds.unlink_of_ne (hstore : Holds store (left ++ entry :: right))
    (hother : right ++ left ≠ []) :
    ∃ next, unlinkComplaint store
        (previous (nodes (left ++ entry :: right)) left.length)
        (some entry.address) = some next ∧ Holds next (left ++ right) := by
  obtain ⟨first, hfirst, hsecond, rfl⟩ := hstore.freeStrings
  have hload := hstore.next_eq hother
  have htail := hstore.tail_remove hother
  have hnodup := (nodes_perm left right entry).nodup_iff.mp
    hstore.ring.nodup
  have hring : Ring store.elements (nodes (right ++ left) ++
      [entry.address]) := by
    have hring : Ring store.elements
        ((nodes left ++ [entry.address]) ++ nodes right) := by
      have hring := hstore.ring
      simpa [nodes] using hring
    simpa [nodes] using hring.rotate
  have hmem : ∀ address, address ∈ nodes (right ++ left) ↔
      address ∈ nodes (left ++ right) := by
    intro address
    rw [nodes_append, nodes_append, List.mem_append, List.mem_append,
      or_comm]
  rw [previous_eq_getLast? hother]
  obtain ⟨front, last, hnodes⟩ := (List.eq_nil_or_concat'
    (nodes (right ++ left))).resolve_left (by simpa [nodes] using hother)
  have hlast : last ∈ nodes (left ++ right) := by
    rw [← hmem, hnodes]
    exact List.mem_append_right _ (List.mem_singleton_self last)
  have hne : entry.address ≠ last := by
    rintro rfl
    exact (List.nodup_cons.mp hnodup).1 hlast
  rw [hnodes] at hring
  have hremoved := hring.remove
  rw [← hnodes] at hremoved
  have hfree : ((setNext store.elements last
      (nodes (right ++ left)).head?) entry.address).isSome := by
    rw [isSome_setNext]
    exact hring.isSome (by simp)
  obtain ⟨node, hnode⟩ := Option.isSome_iff_exists.mp hfree
  rw [nodes_append right left] at hremoved
  have hrotated := hremoved.rotate
  rw [← nodes_append right left, ← nodes_append left right] at hrotated
  refine ⟨_, ?_, hstore.remove hrotated ?_ ?_⟩
  · rw [← htail]
    simp only [unlinkComplaint, hload, Option.bind_eq_bind, Option.bind_some,
      Entry.element, hfirst, hsecond, hnodes, List.getLast?_concat,
      Option.some_inj, hne, and_false, if_false]
    rw [hnodes] at hnode
    rw [store_some (hring.isSome (by simp)), Option.bind_some, freeElement,
      Option.bind_some, hnode, Option.map_some]
    rfl
  · intro address haddress
    have hneAddress : address ≠ entry.address := by
      rintro rfl
      exact (List.nodup_cons.mp hnodup).1 haddress
    rw [Function.update_of_ne hneAddress, val_setNext]
  · intro address haddress
    by_cases hequal : address = entry.address
    · rw [hequal, Function.update_self]
    · have hneLast : address ≠ last := by
        rintro rfl
        exact haddress hlast
      rw [Function.update_of_ne hequal, setNext_of_ne hneLast]
      apply hstore.elements_eq_none
      rw [(nodes_perm left right entry).mem_iff, List.mem_cons, not_or]
      exact ⟨hequal, haddress⟩

/-- `del_complaint` takes the element out that its loop found. -/
theorem Holds.unlink (hstore : Holds store (left ++ entry :: right)) :
    ∃ next, unlinkComplaint store
        (previous (nodes (left ++ entry :: right)) left.length)
        (some entry.address) = some next ∧ Holds next (left ++ right) := by
  by_cases hother : right ++ left = []
  · obtain ⟨rfl, rfl⟩ := List.append_eq_nil_iff.mp hother
    exact hstore.unlink_singleton
  · exact hstore.unlink_of_ne hother

end Unlink

/-! ## Adding a complaint -/

section Add

variable {Addr : Type} [DecidableEq Addr] {store : Store Addr}
  {entries : List (Entry Addr)} {fresh : Blocks Addr}
  {source remarks dest copied : ByteString}

/-- The blocks that `malloc` returns are not in use. -/
structure Blocks.Free (fresh : Blocks Addr) (store : Store Addr) : Prop where
  ptr : store.elements fresh.ptr = none
  cp1 : store.strings fresh.cp1 = none
  cp2 : store.strings fresh.cp2 = none
  ne : fresh.cp1 ≠ fresh.cp2

def Blocks.entry (fresh : Blocks Addr) (source remarks : ByteString) :
    Entry Addr :=
  ⟨fresh.ptr, fresh.cp1, fresh.cp2, ⟨source, remarks, false⟩⟩

/-- The ring with a new element, and the strings with its strings. -/
theorem Holds.add (hstore : Holds store entries) (hfree : fresh.Free store)
    (source remarks : ByteString) {elements : Heap Addr (Element Addr)}
    (hring : Ring elements (nodes entries ++ [fresh.ptr]))
    (hval : ∀ address ∈ nodes entries,
      (elements address).map ListNode.val =
        (store.elements address).map ListNode.val)
    (hnew : (elements fresh.ptr).map ListNode.val =
      some ⟨fresh.cp1, fresh.cp2, false⟩)
    (hnone : ∀ address ∉ nodes entries ++ [fresh.ptr],
      elements address = none) :
    Holds ⟨elements, Function.update
        (Function.update store.strings fresh.cp1 (some source))
        fresh.cp2 (some remarks), some fresh.ptr⟩
      (entries ++ [fresh.entry source remarks]) := by
  have hfirst := hstore.notMem_blocks hfree.cp1
  have hsecond := hstore.notMem_blocks hfree.cp2
  -- The strings of the elements that were there are not changed.
  have hkept : ∀ address ∈ blocks entries,
      Function.update
        (Function.update store.strings fresh.cp1 (some source))
        fresh.cp2 (some remarks) address = store.strings address := by
    intro address hmem
    rw [Function.update_of_ne (ne_of_mem_of_not_mem hmem hsecond),
      Function.update_of_ne (ne_of_mem_of_not_mem hmem hfirst)]
  constructor
  · rw [nodes_append]
    exact hring
  · rw [nodes_append]
    exact List.getLast?_concat.symm
  · intro entry hmem
    rcases List.mem_append.mp hmem with hold | hlast
    · rw [hval entry.address (List.mem_map_of_mem hold)]
      exact hstore.element_eq entry hold
    · rw [List.mem_singleton.mp hlast]
      exact hnew
  · intro entry hmem
    dsimp only
    rcases List.mem_append.mp hmem with hold | hlast
    · rw [hkept _ (List.mem_flatMap.mpr ⟨entry, hold, by simp [Entry.blocks]⟩)]
      exact hstore.id_eq entry hold
    · rw [List.mem_singleton.mp hlast, Blocks.entry,
        Function.update_of_ne hfree.ne, Function.update_self]
  · intro entry hmem
    dsimp only
    rcases List.mem_append.mp hmem with hold | hlast
    · rw [hkept _ (List.mem_flatMap.mpr ⟨entry, hold, by simp [Entry.blocks]⟩)]
      exact hstore.remarks_eq entry hold
    · rw [List.mem_singleton.mp hlast, Blocks.entry, Function.update_self]
  · rw [blocks_concat]
    apply hstore.nodup_blocks.append
    · simp [Blocks.entry, Entry.blocks, hfree.ne]
    · simp [Blocks.entry, Entry.blocks, hfirst, hsecond]
  · rw [nodes_append]
    exact hnone
  · intro address hmem
    rw [blocks_concat, List.mem_append, not_or] at hmem
    obtain ⟨hold, hlast⟩ := hmem
    simp only [Blocks.entry, Entry.blocks, List.mem_cons, List.not_mem_nil,
      or_false, not_or] at hlast
    dsimp only
    rw [Function.update_of_ne hlast.2, Function.update_of_ne hlast.1]
    exact hstore.strings_eq_none address hold

/-- A complaint is added behind the others. -/
theorem Holds.addToComplaintQ (hstore : Holds store entries)
    (hfree : fresh.Free store) (remarks : ByteString)
    (hcopied : strcpy dest source = some copied) :
    ∃ next, addToComplaintQ fresh source remarks dest store =
        some (copied, next) ∧
      Holds next (entries ++ [fresh.entry source remarks]) := by
  have hnew := hstore.notMem_nodes hfree.ptr
  rcases List.eq_nil_or_concat' entries with rfl | ⟨front, last, rfl⟩
  · have htail : store.tail = none := hstore.tail_eq
    have hring : Ring (Function.update store.elements fresh.ptr
        (some ⟨⟨fresh.cp1, fresh.cp2, false⟩, some fresh.ptr⟩))
        (nodes [] ++ [fresh.ptr]) := ring_singleton _ _ _
    refine ⟨_, ?_, hstore.add hfree source remarks hring ?_ ?_ ?_⟩
    · simp [ComplaintQueue.addToComplaintQ, hcopied, htail]
    · simp [nodes]
    · rw [Function.update_self]
      rfl
    · intro address haddress
      rw [Function.update_of_ne (by simpa [nodes] using haddress)]
      exact hstore.elements_eq_none address (by simp [nodes])
  · have htail : store.tail = some last.address := by
      rw [hstore.tail_eq, nodes_append]
      exact List.getLast?_concat
    obtain ⟨node, hload, hnext⟩ := hstore.load_tail (by simp)
    have hring := hstore.ring
    have hsplit : nodes (front ++ [last]) = nodes front ++ [last.address] :=
      nodes_append front [last]
    rw [hsplit] at hring
    have hlast : last.address ≠ fresh.ptr := by
      rintro heq
      apply hnew
      rw [hsplit, ← heq]
      exact List.mem_append_right _ (List.mem_singleton_self _)
    have hinserted := hring.insert hfree.ptr
      (⟨fresh.cp1, fresh.cp2, false⟩ : Element Addr)
    rw [← hsplit] at hinserted
    rw [htail, load_some] at hload
    have hsome : (Function.update store.elements fresh.ptr
        (some ⟨⟨fresh.cp1, fresh.cp2, false⟩,
          (nodes (front ++ [last])).head?⟩) last.address).isSome := by
      rw [Function.update_of_ne hlast, hload]
      rfl
    refine ⟨_, ?_, hstore.add hfree source remarks hinserted ?_ ?_ ?_⟩
    · rw [List.head?_eq_getElem?, ← hnext] at hsome ⊢
      simp [ComplaintQueue.addToComplaintQ, hcopied, htail, hload,
        store_some hsome]
    · intro address haddress
      rw [val_setNext, Function.update_of_ne
        (ne_of_mem_of_not_mem haddress hnew)]
    · rw [val_setNext, Function.update_self]
      rfl
    · intro address haddress
      rw [List.mem_append, not_or, List.mem_singleton] at haddress
      have hne : address ≠ last.address := by
        rintro rfl
        exact haddress.1 (List.mem_map_of_mem (by simp))
      rw [setNext_of_ne hne, Function.update_of_ne haddress.2]
      exact hstore.elements_eq_none address haddress.1

end Add

end KataCpp.ComplaintQueue
