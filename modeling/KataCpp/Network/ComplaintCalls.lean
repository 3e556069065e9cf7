import KataCpp.Network.ComplaintRing

/-!
# The complaint queue as a list

Every function of the queue ends, without a fault, with what it does to the
list of the complaints: the next complaint without a mark is given out and gets
one, the oldest complaint for an apartment is given out or deleted.
-/

namespace KataCpp.ComplaintQueue

open Bytes Iteration LinkedList

section Find

variable {Addr : Type} [DecidableEq Addr] {store : Store Addr}
  {entries left right : List (Entry Addr)} {entry : Entry Addr}
  {source dest remarks : ByteString} {index : ℕ}

/-- An element that does not match is passed. -/
theorem Holds.givePass_of_lt (hstore : Holds store entries)
    (hindex : index + 1 < entries.length)
    (hne : source ≠ (entries.get
      ⟨index, Nat.lt_of_succ_lt hindex⟩).complaint.apartmentId) :
    givePass store source (nodes entries)[index]? =
      .next (nodes entries)[index + 1]? := by
  have htail : (nodes entries)[index]? ≠ store.tail := by
    rw [Ne, hstore.eq_tail_iff (Nat.lt_of_succ_lt hindex)]
    omega
  rw [givePass, hstore.apartmentAt_eq (Nat.lt_of_succ_lt hindex)]
  rw [List.get_eq_getElem] at hne
  simp only [if_neg hne, if_neg htail]
  rw [nodes_getElem? hindex]
  rfl

/-- The loop of `give_complaint` finds the oldest complaint that matches. -/
theorem Holds.give_loop (hstore : Holds store (left ++ entry :: right))
    (hleft : ∀ other ∈ left, source ≠ other.complaint.apartmentId)
    (hentry : source = entry.complaint.apartmentId) :
    ∃ next, Returns (loop (givePass store source) ·
        (nodes (left ++ entry :: right))[0]?)
      (some ⟨entry.element, next⟩) := by
  obtain ⟨next, hat⟩ := hstore.apartmentAt_append
  refine ⟨next, returns_of_steps
    (fun step => (nodes (left ++ entry :: right))[step]?) left.length ?_ ?_⟩
  · intro step hstep
    refine hstore.givePass_of_lt ?_ ?_
    · rw [List.length_append, List.length_cons]
      omega
    · rw [List.get_eq_getElem, List.getElem_append_left hstep]
      exact hleft _ (List.getElem_mem hstep)
  · rw [givePass, hat]
    simp only [if_pos hentry]

/-- Without a match the loop ends at the tail. -/
theorem Holds.give_loop_none (hstore : Holds store entries)
    (hentries : entries ≠ [])
    (hall : ∀ other ∈ entries, source ≠ other.complaint.apartmentId) :
    Returns (loop (givePass store source) · (nodes entries)[0]?) none := by
  have hlength := List.length_pos_iff.mpr hentries
  have hlast : entries.length - 1 < entries.length := by omega
  refine returns_of_steps (fun step => (nodes entries)[step]?)
    (entries.length - 1) ?_ ?_
  · intro step hstep
    exact hstore.givePass_of_lt (by omega) (hall _ (List.get_mem _ _))
  · have htail := (hstore.eq_tail_iff hlast).mpr
      (Nat.sub_add_cancel hlength)
    rw [givePass, hstore.apartmentAt_eq hlast]
    simp only [if_neg (hall _ (List.getElem_mem hlast)), if_pos htail]

end Find

/-! ## Giving out complaints -/

section Marks

variable {Addr : Type} [DecidableEq Addr] {store : Store Addr}
  {entries left right : List (Entry Addr)} {entry : Entry Addr}
  {elements : Heap Addr (Element Addr)} {ring : List Addr} {index fuel : ℕ}

/-- The entries of which those at the given addresses get a mark, or lose
it. -/
def mark (changed : List Addr) (accessed : Bool)
    (entries : List (Entry Addr)) : List (Entry Addr) :=
  entries.map fun entry =>
    if entry.address ∈ changed then entry.setAccessed accessed else entry

theorem nodes_mark (changed : List Addr) (accessed : Bool)
    (entries : List (Entry Addr)) :
    nodes (mark changed accessed entries) = nodes entries := by
  rw [nodes, mark, List.map_map]
  apply List.map_congr_left
  intro entry _
  dsimp only [Function.comp]
  split <;> rfl

theorem blocks_mark (changed : List Addr) (accessed : Bool)
    (entries : List (Entry Addr)) :
    blocks (mark changed accessed entries) = blocks entries := by
  rw [blocks, mark, List.flatMap_map]
  apply List.flatMap_congr
  intro entry _
  split <;> rfl

/-- Marks are set in the elements at some addresses. -/
theorem Holds.mark (hstore : Holds store entries) (changed : List Addr)
    (accessed : Bool) :
    Holds
      { store with
        elements := changeAll store.elements changed
          (Element.setAccessed accessed) }
      (mark changed accessed entries) := by
  constructor
  · rw [nodes_mark]
    exact hstore.ring.changeAll changed _
  · rw [nodes_mark]
    exact hstore.tail_eq
  · intro marked hmem
    obtain ⟨entry, hentry, rfl⟩ := List.mem_map.mp hmem
    have helement := hstore.element_eq entry hentry
    obtain ⟨node, hnode, hval⟩ := Option.map_eq_some_iff.mp helement
    dsimp only
    split
    · next hchanged =>
        rw [Entry.setAccessed, changeAll_of_mem hchanged, hnode]
        simp [hval, Element.setAccessed, Entry.element,
          Complaint.setAccessed]
    · next hchanged =>
        rw [changeAll_of_notMem hchanged]
        exact helement
  · intro marked hmem
    obtain ⟨entry, hentry, rfl⟩ := List.mem_map.mp hmem
    have hid := hstore.id_eq entry hentry
    dsimp only
    split <;> exact hid
  · intro marked hmem
    obtain ⟨entry, hentry, rfl⟩ := List.mem_map.mp hmem
    have hremarks := hstore.remarks_eq entry hentry
    dsimp only
    split <;> exact hremarks
  · rw [blocks_mark]
    exact hstore.nodup_blocks
  · rw [nodes_mark]
    intro address hmem
    have hnone := hstore.elements_eq_none address hmem
    dsimp only [changeAll]
    split <;> simp [hnone]
  · rw [blocks_mark]
    exact hstore.strings_eq_none

theorem mark_nodes (entries : List (Entry Addr)) (accessed : Bool) :
    mark (nodes entries) accessed entries =
      entries.map (Entry.setAccessed accessed) := by
  apply List.map_congr_left
  intro entry hmem
  exact if_pos (List.mem_map_of_mem hmem)

theorem mark_singleton (hnodup : (nodes (left ++ entry :: right)).Nodup)
    (accessed : Bool) :
    mark [entry.address] accessed (left ++ entry :: right) =
      left ++ entry.setAccessed accessed :: right := by
  have hnotMem := (List.nodup_cons.mp
    ((nodes_perm left right entry).nodup_iff.mp hnodup)).1
  have hother : ∀ other ∈ left ++ right,
      (if other.address ∈ [entry.address] then other.setAccessed accessed
        else other) = other := by
    intro other hmem
    apply if_neg
    rw [List.mem_singleton]
    intro heq
    exact hnotMem (heq ▸ List.mem_map_of_mem hmem)
  have hleft := List.map_congr_left fun other hmem =>
    hother other (List.mem_append_left right hmem)
  have hright := List.map_congr_left fun other hmem =>
    hother other (List.mem_append_right left hmem)
  rw [List.map_id'] at hleft hright
  rw [mark, List.map_append, List.map_cons, hleft, hright,
    if_pos (List.mem_singleton_self _)]

/-- The state of the loop of `reset_accessed_all` behind some elements. -/
def resetState (elements : Heap Addr (Element Addr)) (ring : List Addr)
    (count : ℕ) : Heap Addr (Element Addr) × Option Addr :=
  (changeAll elements (ring.take count) (Element.setAccessed false),
    ring[count]?)

theorem resetPass_eq (hring : Ring elements ring)
    (hindex : index < ring.length) :
    resetPass ring.getLast? (resetState elements ring index) =
      if index + 1 = ring.length then
        .exit (changeAll elements ring (Element.setAccessed false))
      else .next (resetState elements ring (index + 1)) := by
  have hnode := List.getElem?_eq_getElem hindex
  have hnotMem : ring[index] ∉ ring.take index := by
    intro hmem
    obtain ⟨first, hfirst, heq⟩ := List.mem_take_iff_getElem.mp hmem
    have hsame := (hring.nodup.getElem_inj_iff).mp heq
    omega
  have hmodify := modify_changeAll (hring.isSome (List.getElem_mem hindex))
    hnotMem (Element.setAccessed false)
  rw [List.take_append_getElem hindex] at hmodify
  have hchanged := hring.changeAll (ring.take (index + 1))
    (Element.setAccessed false)
  obtain ⟨node, hload, hnext⟩ := hchanged.node_getElem hindex
  have htail := getElem?_eq_getLast?_iff hring.nodup hindex
  rw [resetPass, resetState, resetState]
  dsimp only
  rw [hnode] at htail ⊢
  rw [hmodify]
  dsimp only
  by_cases hlast : index + 1 = ring.length
  · rw [if_pos hlast, if_pos (htail.mpr hlast), hlast, List.take_length]
  · have hmore : index + 1 < ring.length := by omega
    rw [if_neg hlast, if_neg (mt htail.mp hlast), load_some, hload]
    dsimp only
    rw [hnext, List.getElem?_eq_getElem hmore, Option.some_or]

/-- `reset_accessed_all` takes all marks away. -/
theorem resetAccessedAll_eq (hring : Ring elements ring)
    (hfuel : ring.length < fuel) :
    resetAccessedAll fuel elements ring.getLast? =
      some (changeAll elements ring (Element.setAccessed false)) := by
  rcases List.eq_nil_or_concat' ring with rfl | ⟨front, last, rfl⟩
  · rw [changeAll_nil]
    rfl
  obtain ⟨node, hload, hnext⟩ := hring.node rfl
  have hlength : (front ++ [last]).length = front.length + 1 := by simp
  have hstart : (elements, node.next) =
      resetState elements (front ++ [last]) 0 := by
    rw [resetState, List.take_zero, changeAll_nil, hnext,
      ← List.head?_eq_getElem?]
    rfl
  have hloop : loop (resetPass (front ++ [last]).getLast?) fuel
      (resetState elements (front ++ [last]) 0) =
        some (changeAll elements (front ++ [last])
          (Element.setAccessed false)) := by
    refine loop_of_steps (resetState elements (front ++ [last])) front.length
      ?_ ?_ (by omega)
    · intro step hstep
      rw [resetPass_eq hring (by omega), if_neg (by omega)]
    · rw [resetPass_eq hring (by omega), if_pos hlength.symm]
  rw [← hstart, List.getLast?_concat] at hloop
  rw [resetAccessedAll, List.getLast?_concat, if_neg (by simp), load_some,
    hload]
  exact hloop

/-- The loop of `give_next_complaint` passes what has a mark. -/
theorem Holds.giveNextPass_of_lt (hstore : Holds store entries)
    (hindex : index + 1 < entries.length)
    (haccessed : (entries.get
      ⟨index, Nat.lt_of_succ_lt hindex⟩).complaint.accessed = true)
    (fuel : ℕ) :
    giveNextPass fuel store.tail
        (store.elements, (nodes entries)[index]?) =
      .next (store.elements, (nodes entries)[index + 1]?) := by
  have htail : (nodes entries)[index]? ≠ store.tail := by
    rw [Ne, hstore.eq_tail_iff (Nat.lt_of_succ_lt hindex)]
    omega
  rw [List.get_eq_getElem] at haccessed
  rw [giveNextPass, hstore.load_of_lt hindex]
  simp only [Entry.element, haccessed, if_neg htail, Bool.true_eq_false,
    if_false]

/-- It ends at an element without a mark. -/
theorem giveNextPass_of_not {ptr : Option Addr}
    {element : ListNode Addr (Element Addr)}
    (hload : load elements ptr = some element)
    (haccessed : element.val.accessed = false) (fuel : ℕ)
    (tail : Option Addr) :
    giveNextPass fuel tail (elements, ptr) = .exit (elements, ptr) := by
  rw [giveNextPass]
  dsimp only
  rw [hload]
  exact if_pos haccessed

theorem Holds.giveNext_loop (hstore : Holds store (left ++ entry :: right))
    (hleft : ∀ other ∈ left, other.complaint.accessed = true)
    (hentry : entry.complaint.accessed = false)
    (hfuel : left.length < fuel) (inner : ℕ) :
    loop (giveNextPass inner store.tail) fuel
        (store.elements, (nodes (left ++ entry :: right))[0]?) =
      some (store.elements, some entry.address) := by
  obtain ⟨next, hload⟩ := hstore.load_append
  refine loop_of_steps (fun step =>
    (store.elements, (nodes (left ++ entry :: right))[step]?)) left.length
    ?_ ?_ hfuel
  · intro step hstep
    refine hstore.giveNextPass_of_lt ?_ ?_ inner
    · rw [List.length_append, List.length_cons]
      omega
    · rw [List.get_eq_getElem, List.getElem_append_left hstep]
      exact hleft _ (List.getElem_mem hstep)
  · rw [nodes_getElem?_append]
    exact giveNextPass_of_not hload hentry inner store.tail

/-- When all elements have marks, the loop takes the marks away at the tail and
ends at the head. -/
theorem Holds.giveNext_loop_of_all (hstore : Holds store (entry :: right))
    (hall : ∀ other ∈ entry :: right, other.complaint.accessed = true)
    (hfuel : (entry :: right).length < fuel) :
    loop (giveNextPass fuel store.tail) fuel
        (store.elements, (nodes (entry :: right))[0]?) =
      some (changeAll store.elements (nodes (entry :: right))
        (Element.setAccessed false), some entry.address) := by
  have hmarked := hstore.mark (nodes (entry :: right)) false
  have hhead : (nodes (entry :: right))[0]? = some entry.address := rfl
  have hlength : right.length < (entry :: right).length := Nat.lt_succ_self _
  -- The last element has a mark, so all marks are taken away.
  have hlast : giveNextPass fuel store.tail (store.elements,
      (nodes (entry :: right))[right.length]?) =
        .next (changeAll store.elements (nodes (entry :: right))
          (Element.setAccessed false), (nodes (entry :: right))[0]?) := by
    rw [← length_nodes] at hfuel
    have hreset := resetAccessedAll_eq hstore.ring hfuel
    rw [← hstore.tail_eq] at hreset
    have htail := (hstore.eq_tail_iff hlength).mpr rfl
    rw [mark_nodes] at hmarked
    obtain ⟨last, hload, hnext⟩ := hmarked.load_tail (by simp)
    have haccessed := hall _ (List.getElem_mem hlength)
    rw [giveNextPass, hstore.load_eq hlength]
    dsimp only at hload hnext ⊢
    simp only [Entry.element, haccessed, Bool.true_eq_false, if_false,
      if_pos htail, hreset, hload, hnext]
    rfl
  have hloop := loop_add
    (fun step => (store.elements, (nodes (entry :: right))[step]?))
    right.length (fun step hstep => hstore.giveNextPass_of_lt
      (Nat.succ_lt_succ hstep) (hall _ (List.get_mem _ _)) fuel)
  -- The head is then without a mark.
  have hentry := hmarked.element_eq _ (by
    rw [mark_nodes]
    exact List.mem_cons_self)
  obtain ⟨node, hload, hval⟩ := Option.map_eq_some_iff.mp hentry
  change load _ (some entry.address) = _ at hload
  have hexit := giveNextPass_of_not hload (by rw [hval]; rfl) fuel store.tail
  have hsteps : fuel = fuel - right.length - 2 + 1 + 1 + right.length := by
    rw [List.length_cons] at hfuel
    omega
  generalize giveNextPass fuel store.tail = body at *
  rw [hsteps, hloop, loop, hlast, hhead]
  dsimp only
  rw [loop, hexit]

end Marks

section Calls

variable {Addr : Type} [DecidableEq Addr] {store : Store Addr}
  {entries left right : List (Entry Addr)} {entry : Entry Addr}
  {elements : Heap Addr (Element Addr)}
  {source dest remarks copiedId copiedRemarks : ByteString}
  {complaint : Complaint} {rest : List Complaint}

/-- The first of the elements that do not have a property. -/
theorem exists_first {α : Type} {property : α → Prop} {items : List α}
    (hnot : ¬∀ item ∈ items, property item) :
    ∃ front item behind, items = front ++ item :: behind ∧
      (∀ other ∈ front, property other) ∧ ¬property item := by
  induction items with
  | nil => exact absurd (by simp) hnot
  | cons head items ih =>
      by_cases hhead : property head
      · obtain ⟨front, item, behind, rfl, hfront, hitem⟩ := ih fun hall =>
          hnot (List.forall_mem_cons.mpr ⟨hhead, hall⟩)
        exact ⟨head :: front, item, behind, rfl,
          List.forall_mem_cons.mpr ⟨hhead, hfront⟩, hitem⟩
      · exact ⟨[], head, items, rfl, by simp, hhead⟩

/-- What `give_next_complaint` does behind its loop. -/
theorem Holds.giveNext_of_loop
    (hentries : entries ≠ []) (hstore : Holds store entries)
    (hloop : Returns (fun fuel => loop (giveNextPass fuel store.tail) fuel
      (store.elements, (nodes entries)[0]?)) (elements, some entry.address))
    (hfound : Holds { store with elements := elements }
      (left ++ entry :: right))
    (hid : strcpy dest entry.complaint.apartmentId = some copiedId)
    (hremarks : strcpy remarks entry.complaint.remarks =
      some copiedRemarks) :
    ∃ next, Returns (fun fuel => giveNextComplaint fuel dest remarks store)
        (0, copiedId, copiedRemarks, next) ∧
      Holds next (left ++ entry.setAccessed true :: right) := by
  have hmem : entry ∈ left ++ entry :: right := by simp
  obtain ⟨last, hlast, hnext⟩ := hstore.load_tail hentries
  obtain ⟨next, hload⟩ := hfound.load_append
  have hmarked := hfound.mark [entry.address] true
  rw [mark_singleton hfound.ring.nodup] at hmarked
  have hmodify := modify_eq_changeAll (Option.isSome_of_eq_some hload)
    (Element.setAccessed true)
  obtain ⟨bound, hbound⟩ := hloop
  have htail : ¬store.tail.isNone := by
    rw [hstore.tail_isNone_iff]
    exact hentries
  have hidBlock := hfound.id_eq entry hmem
  have hremarksBlock := hfound.remarks_eq entry hmem
  refine ⟨_, ⟨bound, fun fuel hfuel => ?_⟩, hmarked⟩
  have hreached := hbound fuel hfuel
  rw [← hnext] at hreached
  dsimp only at hload hmodify hidBlock hremarksBlock
  simp [giveNextComplaint, htail, hlast, hreached, hload, Entry.element,
    hidBlock, hremarksBlock, hid, hremarks, hmodify]

omit [DecidableEq Addr] in
theorem nextComplaint_of_first
    (hleft : ∀ other ∈ left, other.complaint.accessed = true)
    (hentry : entry.complaint.accessed = false) :
    nextComplaint (complaints (left ++ entry :: right)) =
      some (entry.complaint,
        complaints (left ++ entry.setAccessed true :: right)) := by
  rw [complaints, complaints, List.map_append, List.map_append,
    List.map_cons, List.map_cons]
  exact nextComplaint_append (List.forall_mem_map.mpr hleft) hentry

omit [DecidableEq Addr] in
theorem nextComplaint_of_all_entries
    (hall : ∀ other ∈ entry :: right, other.complaint.accessed = true) :
    nextComplaint (complaints (entry :: right)) =
      some (entry.complaint.setAccessed false,
        complaints ((entry.setAccessed false).setAccessed true ::
          right.map (Entry.setAccessed false))) := by
  have hmarked : ∀ other ∈ entry.complaint :: complaints right,
      other.accessed = true := by simpa [complaints] using hall
  have hnext := nextComplaint_of_all hmarked
  have hrest : (complaints right).map (Complaint.setAccessed false) =
      complaints (right.map (Entry.setAccessed false)) := by
    simp [complaints, Function.comp_def, Entry.setAccessed]
  rw [hrest] at hnext
  exact hnext

/-- The next complaint is given out and gets a mark. -/
theorem Holds.giveNextComplaint (hstore : Holds store entries)
    (hnext : nextComplaint (complaints entries) = some (complaint, rest))
    (hid : strcpy dest complaint.apartmentId = some copiedId)
    (hremarks : strcpy remarks complaint.remarks = some copiedRemarks) :
    ∃ next following,
      Returns (fun fuel => giveNextComplaint fuel dest remarks store)
          (0, copiedId, copiedRemarks, next) ∧
        Holds next following ∧ complaints following = rest := by
  by_cases hall : ∀ other ∈ entries, other.complaint.accessed = true
  · cases entries with
    | nil => contradiction
    | cons entry right =>
        obtain ⟨rfl, rfl⟩ := Prod.mk.inj (Option.some.inj
          (hnext.symm.trans (nextComplaint_of_all_entries hall)))
        have hmarked := hstore.mark (nodes (entry :: right)) false
        rw [mark_nodes, List.map_cons, ← List.nil_append
          (entry.setAccessed false :: _)] at hmarked
        have hloop : Returns (fun fuel =>
            loop (giveNextPass fuel store.tail) fuel
              (store.elements, (nodes (entry :: right))[0]?))
            (changeAll store.elements (nodes (entry :: right))
              (Element.setAccessed false),
              some (entry.setAccessed false).address) :=
          ⟨(entry :: right).length + 1, fun fuel hfuel =>
            hstore.giveNext_loop_of_all hall hfuel⟩
        obtain ⟨next, hreturns, hholds⟩ := hstore.giveNext_of_loop
          (List.cons_ne_nil entry right) hloop hmarked hid hremarks
        exact ⟨next, _, hreturns, hholds, rfl⟩
  · obtain ⟨left, entry, right, rfl, hleft, hentry⟩ := exists_first hall
    have hentry := Bool.eq_false_of_not_eq_true hentry
    obtain ⟨rfl, rfl⟩ := Prod.mk.inj (Option.some.inj
      (hnext.symm.trans (nextComplaint_of_first hleft hentry)))
    obtain ⟨next, hreturns, hholds⟩ := hstore.giveNext_of_loop (by simp)
      ⟨left.length + 1, fun fuel hfuel =>
        hstore.giveNext_loop hleft hentry hfuel fuel⟩ hstore hid hremarks
    exact ⟨next, _, hreturns, hholds, rfl⟩

/-- An empty queue has no next complaint. -/
theorem Holds.giveNextComplaint_nil (hstore : Holds store [])
    (dest remarks : ByteString) :
    Returns (fun fuel => ComplaintQueue.giveNextComplaint fuel dest remarks
      store) (-1, dest, remarks, store) := by
  have htail := hstore.tail_isNone_iff.mpr rfl
  refine ⟨0, fun fuel _ => ?_⟩
  simp [ComplaintQueue.giveNextComplaint, htail]

omit [DecidableEq Addr] in
/-- Whether there is a complaint for an apartment, and the first one. -/
theorem find_or_all (source : ByteString) (entries : List (Entry Addr)) :
    (∃ left entry right, entries = left ++ entry :: right ∧
      (∀ other ∈ left, source ≠ other.complaint.apartmentId) ∧
      source = entry.complaint.apartmentId) ∨
    ∀ other ∈ entries, source ≠ other.complaint.apartmentId := by
  by_cases hall : ∀ other ∈ entries, source ≠ other.complaint.apartmentId
  · exact Or.inr hall
  · obtain ⟨left, entry, right, hsplit, hleft, hentry⟩ := exists_first hall
    exact Or.inl ⟨left, entry, right, hsplit, hleft, not_not.mp hentry⟩

omit [DecidableEq Addr] in
theorem find?_append_of_first
    (hleft : ∀ other ∈ left, source ≠ other.complaint.apartmentId)
    (hentry : source = entry.complaint.apartmentId) :
    (complaints (left ++ entry :: right)).find? (IsFor source) =
      some entry.complaint := by
  rw [complaints, List.map_append, List.map_cons, List.find?_append,
    List.find?_eq_none.mpr, Option.none_or, List.find?_cons_of_pos]
  · simpa [IsFor] using hentry
  · rw [List.forall_mem_map]
    intro other hmem
    simpa [IsFor] using hleft other hmem

omit [DecidableEq Addr] in
theorem eraseP_append_of_first
    (hleft : ∀ other ∈ left, source ≠ other.complaint.apartmentId)
    (hentry : source = entry.complaint.apartmentId) :
    (complaints (left ++ entry :: right)).eraseP (IsFor source) =
      complaints (left ++ right) := by
  rw [complaints, List.map_append, List.map_cons, List.eraseP_append_right,
    List.eraseP_cons_of_pos, complaints, List.map_append]
  · simpa [IsFor] using hentry
  · rw [List.forall_mem_map]
    intro other hmem
    simpa [IsFor] using hleft other hmem

omit [DecidableEq Addr] in
theorem find?_eq_none_iff :
    (complaints entries).find? (IsFor source) = none ↔
      ∀ other ∈ entries, source ≠ other.complaint.apartmentId := by
  rw [List.find?_eq_none, complaints, List.forall_mem_map]
  simp [IsFor]

/-- The oldest complaint for an apartment is given out. -/
theorem Holds.giveComplaint (hstore : Holds store entries)
    (hid : strcpy dest source = some copiedId)
    (hfind : (complaints entries).find? (IsFor source) = some complaint)
    (hremarks : strcpy remarks complaint.remarks = some copiedRemarks) :
    Returns (fun fuel => giveComplaint fuel source dest remarks store)
      (0, copiedId, copiedRemarks) := by
  rcases find_or_all source entries with
    ⟨left, entry, right, rfl, hleft, hentry⟩ | hall
  · rw [find?_append_of_first hleft hentry] at hfind
    obtain rfl := Option.some.inj hfind
    obtain ⟨last, hlast, hnext⟩ := hstore.load_tail (by simp)
    obtain ⟨next, bound, hbound⟩ := hstore.give_loop hleft hentry
    have htail : ¬store.tail.isNone := by
      rw [hstore.tail_isNone_iff]
      simp
    have hblock := hstore.remarks_eq entry (by simp)
    refine ⟨bound, fun fuel hfuel => ?_⟩
    have hreached := hbound fuel hfuel
    rw [← hnext] at hreached
    simp [ComplaintQueue.giveComplaint, hid, htail, hlast, hreached,
      Entry.element, hblock, hremarks]
  · rw [find?_eq_none_iff.mpr hall] at hfind
    contradiction

theorem Holds.giveComplaint_none (hstore : Holds store entries)
    (hid : strcpy dest source = some copiedId)
    (hfind : (complaints entries).find? (IsFor source) = none)
    (remarks : ByteString) :
    Returns (fun fuel => ComplaintQueue.giveComplaint fuel source dest remarks
      store) (-1, copiedId, remarks) := by
  by_cases hentries : entries = []
  · have htail := hstore.tail_isNone_iff.mpr hentries
    refine ⟨0, fun fuel _ => ?_⟩
    simp [ComplaintQueue.giveComplaint, hid, htail]
  · obtain ⟨last, hlast, hnext⟩ := hstore.load_tail hentries
    obtain ⟨bound, hbound⟩ := hstore.give_loop_none hentries
      (find?_eq_none_iff.mp hfind)
    have htail : ¬store.tail.isNone := by
      rw [hstore.tail_isNone_iff]
      exact hentries
    refine ⟨bound, fun fuel hfuel => ?_⟩
    have hreached := hbound fuel hfuel
    rw [← hnext] at hreached
    simp [ComplaintQueue.giveComplaint, hid, htail, hlast, hreached]

/-- The oldest complaint for an apartment is deleted. -/
theorem Holds.delComplaint (hstore : Holds store entries)
    (hid : strcpy dest source = some copiedId)
    (hfind : ((complaints entries).find? (IsFor source)).isSome) :
    ∃ next following,
      Returns (fun fuel => delComplaint fuel source dest store)
          (0, copiedId, next) ∧
        Holds next following ∧
        complaints following = (complaints entries).eraseP (IsFor source) := by
  rcases find_or_all source entries with
    ⟨left, entry, right, rfl, hleft, hentry⟩ | hall
  · obtain ⟨last, hlast, hnext⟩ := hstore.load_tail (by simp)
    obtain ⟨bound, hbound⟩ := hstore.del_loop hleft hentry
    obtain ⟨next, hunlink, hholds⟩ := hstore.unlink
    have htail : ¬store.tail.isNone := by
      rw [hstore.tail_isNone_iff]
      simp
    refine ⟨next, left ++ right, ⟨bound, fun fuel hfuel => ?_⟩, hholds,
      (eraseP_append_of_first hleft hentry).symm⟩
    have hreached := hbound fuel hfuel
    rw [← hnext] at hreached
    simp [ComplaintQueue.delComplaint, hid, htail, hlast, hreached, hunlink]
  · rw [find?_eq_none_iff.mpr hall] at hfind
    contradiction

theorem Holds.delComplaint_none (hstore : Holds store entries)
    (hid : strcpy dest source = some copiedId)
    (hfind : (complaints entries).find? (IsFor source) = none) :
    Returns (fun fuel => ComplaintQueue.delComplaint fuel source dest store)
      (-1, copiedId, store) := by
  by_cases hentries : entries = []
  · have htail := hstore.tail_isNone_iff.mpr hentries
    refine ⟨0, fun fuel _ => ?_⟩
    simp [ComplaintQueue.delComplaint, hid, htail]
  · obtain ⟨last, hlast, hnext⟩ := hstore.load_tail hentries
    obtain ⟨bound, hbound⟩ := hstore.del_loop_none hentries
      (find?_eq_none_iff.mp hfind)
    have htail : ¬store.tail.isNone := by
      rw [hstore.tail_isNone_iff]
      exact hentries
    refine ⟨bound, fun fuel hfuel => ?_⟩
    have hreached := hbound fuel hfuel
    rw [← hnext] at hreached
    simp [ComplaintQueue.delComplaint, hid, htail, hlast, hreached]

end Calls

end KataCpp.ComplaintQueue
