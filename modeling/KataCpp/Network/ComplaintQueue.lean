import KataCpp.Core.Bytes
import KataCpp.Core.CircularList
import KataCpp.Core.Iteration

/-!
# The complaint server's queue

Complaints wait in a circular list that the server reaches through a pointer to
its last element.  Every element owns two allocated strings.  Giving out the
next complaint marks it as accessed, and when all are marked, the marks are
taken away again.

On a ring that is in order no function faults, all loops end, and what happens
to the ring is what happens to the list of the complaints.  Nothing that has
been freed is used, and nothing that has been allocated is lost.
-/

namespace KataCpp.ComplaintQueue

open Bytes Iteration LinkedList

/-- `struct element`, apart from `next`.  The strings are blocks of their
own. -/
structure Element (Addr : Type) where
  apartmentId : Addr
  remarks : Addr
  accessed : Bool
  deriving DecidableEq

/-- The heap, and the global variable `tail`. -/
structure Store (Addr : Type) where
  elements : Heap Addr (Element Addr)
  strings : Addr → Option ByteString
  tail : Option Addr

def Store.empty (Addr : Type) : Store Addr where
  elements _ := none
  strings _ := none
  tail := none

/-- The addresses that the three calls of `malloc` return. -/
structure Blocks (Addr : Type) where
  ptr : Addr
  cp1 : Addr
  cp2 : Addr

/-- `strcpy` of a C string into an array. -/
def strcpy (dest source : ByteString) : Option ByteString :=
  if source.length < dest.length then
    some (source ++ 0 :: dest.drop (source.length + 1))
  else none

section Code

variable {Addr : Type} [DecidableEq Addr]

def Element.setAccessed (accessed : Bool) (element : Element Addr) :
    Element Addr :=
  { element with accessed := accessed }

def freeString (strings : Addr → Option ByteString) (address : Addr) :
    Option (Addr → Option ByteString) :=
  (strings address).map fun _ => Function.update strings address none

def freeElement (elements : Heap Addr (Element Addr))
    (pointer : Option Addr) : Option (Heap Addr (Element Addr)) :=
  pointer.bind fun address => (elements address).map fun _ =>
    Function.update elements address none

def addToComplaintQ (blocks : Blocks Addr)
    (sourceApartmentId sourceRemarks destApartmentId : ByteString)
    (store : Store Addr) : Option (ByteString × Store Addr) := do
  let strings :=
    Function.update store.strings blocks.cp1 (some sourceApartmentId)
  let dest ← strcpy destApartmentId sourceApartmentId
  let strings := Function.update strings blocks.cp2 (some sourceRemarks)
  let element := ⟨blocks.cp1, blocks.cp2, false⟩
  if store.tail.isNone then
    let elements := Function.update store.elements blocks.ptr
      (some ⟨element, some blocks.ptr⟩)
    return (dest, ⟨elements, strings, some blocks.ptr⟩)
  else
    let last ← load store.elements store.tail
    let elements := Function.update store.elements blocks.ptr
      (some ⟨element, last.next⟩)
    let elements ← LinkedList.store elements store.tail (some blocks.ptr)
    return (dest, ⟨elements, strings, some blocks.ptr⟩)

/-- The element that a pointer points to, with its apartment. -/
def apartmentAt (store : Store Addr) (ptr : Option Addr) :
    Option (ListNode Addr (Element Addr) × ByteString) := do
  let element ← load store.elements ptr
  let apartmentId ← store.strings element.val.apartmentId
  return (element, apartmentId)

/-- The body of the loop of `del_complaint`, with the pointers `prev` and
`ptr`. -/
def delPass (store : Store Addr) (sourceApartmentId : ByteString)
    (pointers : Option Addr × Option Addr) :
    Outcome (Option Addr × Option Addr)
      (Option (Option Addr × Option Addr)) :=
  match apartmentAt store pointers.2 with
  | none => .fault
  | some (element, apartmentId) =>
      if sourceApartmentId = apartmentId then .exit (some pointers)
      else if pointers.2 = store.tail then .exit none
      else .next (pointers.2, element.next)

/-- `del_complaint`, behind its loop. -/
def unlinkComplaint (store : Store Addr) (prev ptr : Option Addr) :
    Option (Store Addr) := do
  let element ← load store.elements ptr
  let strings ← freeString store.strings element.val.apartmentId
  let strings ← freeString strings element.val.remarks
  if ptr = store.tail ∧ ptr = prev then
    let elements ← freeElement store.elements ptr
    return ⟨elements, strings, none⟩
  else
    let tail := if ptr = store.tail then prev else store.tail
    let elements ← LinkedList.store store.elements prev element.next
    let elements ← freeElement elements ptr
    return ⟨elements, strings, tail⟩

def delComplaint (fuel : ℕ) (sourceApartmentId destApartmentId : ByteString)
    (store : Store Addr) : Option (ℤ × ByteString × Store Addr) := do
  let dest ← strcpy destApartmentId sourceApartmentId
  if store.tail.isNone then return (-1, dest, store)
  let last ← load store.elements store.tail
  let found ← loop (delPass store sourceApartmentId) fuel
    (store.tail, last.next)
  match found with
  | none => return (-1, dest, store)
  | some (prev, ptr) =>
      let store ← unlinkComplaint store prev ptr
      return (0, dest, store)

def resetPass (tail : Option Addr)
    (state : Heap Addr (Element Addr) × Option Addr) :
    Outcome (Heap Addr (Element Addr) × Option Addr)
      (Heap Addr (Element Addr)) :=
  match modify state.1 state.2 (Element.setAccessed false) with
  | none => .fault
  | some elements =>
      if state.2 = tail then .exit elements
      else
        match load elements state.2 with
        | none => .fault
        | some element => .next (elements, element.next)

def resetAccessedAll (fuel : ℕ) (elements : Heap Addr (Element Addr))
    (tail : Option Addr) : Option (Heap Addr (Element Addr)) :=
  if tail.isNone then some elements
  else do
    let last ← load elements tail
    loop (resetPass tail) fuel (elements, last.next)

def giveNextPass (fuel : ℕ) (tail : Option Addr)
    (state : Heap Addr (Element Addr) × Option Addr) :
    Outcome (Heap Addr (Element Addr) × Option Addr)
      (Heap Addr (Element Addr) × Option Addr) :=
  match load state.1 state.2 with
  | none => .fault
  | some element =>
      if element.val.accessed = false then .exit state
      else if state.2 = tail then
        match resetAccessedAll fuel state.1 tail with
        | none => .fault
        | some elements =>
            match load elements tail with
            | none => .fault
            | some last => .next (elements, last.next)
      else .next (state.1, element.next)

/-- `give_next_complaint`: the result, the two arrays it copies to, and the
queue. -/
def giveNextComplaint (fuel : ℕ) (apartmentId remarks : ByteString)
    (store : Store Addr) :
    Option (ℤ × ByteString × ByteString × Store Addr) := do
  if store.tail.isNone then return (-1, apartmentId, remarks, store)
  let last ← load store.elements store.tail
  let (elements, ptr) ← loop (giveNextPass fuel store.tail) fuel
    (store.elements, last.next)
  let element ← load elements ptr
  let apartmentId ← strcpy apartmentId
    (← store.strings element.val.apartmentId)
  let remarks ← strcpy remarks (← store.strings element.val.remarks)
  let elements ← modify elements ptr (Element.setAccessed true)
  return (0, apartmentId, remarks, { store with elements := elements })

def givePass (store : Store Addr) (sourceApartmentId : ByteString)
    (ptr : Option Addr) :
    Outcome (Option Addr) (Option (ListNode Addr (Element Addr))) :=
  match apartmentAt store ptr with
  | none => .fault
  | some (element, apartmentId) =>
      if sourceApartmentId = apartmentId then .exit (some element)
      else if ptr = store.tail then .exit none
      else .next element.next

def giveComplaint (fuel : ℕ)
    (sourceApartmentId destApartmentId remarks : ByteString)
    (store : Store Addr) : Option (ℤ × ByteString × ByteString) := do
  let dest ← strcpy destApartmentId sourceApartmentId
  if store.tail.isNone then return (-1, dest, remarks)
  let last ← load store.elements store.tail
  let found ← loop (givePass store sourceApartmentId) fuel last.next
  match found with
  | none => return (-1, dest, remarks)
  | some element =>
      let remarks ← strcpy remarks (← store.strings element.val.remarks)
      return (0, dest, remarks)

end Code

structure Complaint where
  apartmentId : ByteString
  remarks : ByteString
  accessed : Bool
  deriving DecidableEq

def Complaint.setAccessed (accessed : Bool) (complaint : Complaint) :
    Complaint :=
  { complaint with accessed := accessed }

/-- The first complaint without a mark, and the list with its mark. -/
def takeUnaccessed : List Complaint → Option (Complaint × List Complaint)
  | [] => none
  | complaint :: rest =>
      if complaint.accessed = false then
        some (complaint, complaint.setAccessed true :: rest)
      else
        (takeUnaccessed rest).map fun taken =>
          (taken.1, complaint :: taken.2)

/-- The next complaint; when all have a mark, the marks are taken away. -/
def nextComplaint (complaints : List Complaint) :
    Option (Complaint × List Complaint) :=
  (takeUnaccessed complaints).or
    (takeUnaccessed (complaints.map (Complaint.setAccessed false)))

def IsFor (apartmentId : ByteString) (complaint : Complaint) : Bool :=
  apartmentId = complaint.apartmentId

section Complaints

variable {complaints left right : List Complaint} {complaint : Complaint}

theorem takeUnaccessed_append (hleft : ∀ other ∈ left, other.accessed = true)
    (hcomplaint : complaint.accessed = false) :
    takeUnaccessed (left ++ complaint :: right) =
      some (complaint, left ++ complaint.setAccessed true :: right) := by
  induction left with
  | nil => exact if_pos hcomplaint
  | cons other left ih =>
      have hother := hleft other List.mem_cons_self
      have hrest := ih fun other hmem =>
        hleft other (List.mem_cons_of_mem _ hmem)
      rw [List.cons_append, takeUnaccessed, if_neg (by simp [hother]), hrest]
      rfl

theorem takeUnaccessed_eq_none
    (hall : ∀ other ∈ complaints, other.accessed = true) :
    takeUnaccessed complaints = none := by
  induction complaints with
  | nil => rfl
  | cons other rest ih =>
      have hother := hall other List.mem_cons_self
      have hrest := ih fun other hmem =>
        hall other (List.mem_cons_of_mem _ hmem)
      rw [takeUnaccessed, if_neg (by simp [hother]), hrest]
      rfl

theorem nextComplaint_append (hleft : ∀ other ∈ left, other.accessed = true)
    (hcomplaint : complaint.accessed = false) :
    nextComplaint (left ++ complaint :: right) =
      some (complaint, left ++ complaint.setAccessed true :: right) := by
  rw [nextComplaint, takeUnaccessed_append hleft hcomplaint]
  rfl

theorem nextComplaint_of_all
    (hall : ∀ other ∈ complaint :: right, other.accessed = true) :
    nextComplaint (complaint :: right) =
      some (complaint.setAccessed false, complaint.setAccessed true ::
        right.map (Complaint.setAccessed false)) := by
  rw [nextComplaint, takeUnaccessed_eq_none hall, Option.none_or]
  exact if_pos rfl

end Complaints

/-! ## The ring of the complaints -/

/-- A complaint in the queue, with the blocks that belong to it. -/
structure Entry (Addr : Type) where
  address : Addr
  idBlock : Addr
  remarksBlock : Addr
  complaint : Complaint

section Entries

variable {Addr : Type}

def Entry.blocks (entry : Entry Addr) : List Addr :=
  [entry.idBlock, entry.remarksBlock]

def Entry.element (entry : Entry Addr) : Element Addr :=
  ⟨entry.idBlock, entry.remarksBlock, entry.complaint.accessed⟩

def Entry.setAccessed (accessed : Bool) (entry : Entry Addr) : Entry Addr :=
  { entry with complaint := entry.complaint.setAccessed accessed }

def nodes (entries : List (Entry Addr)) : List Addr :=
  entries.map Entry.address

def blocks (entries : List (Entry Addr)) : List Addr :=
  entries.flatMap Entry.blocks

def complaints (entries : List (Entry Addr)) : List Complaint :=
  entries.map Entry.complaint

/-- The ring of the entries is stored, and nothing else. -/
structure Holds (store : Store Addr) (entries : List (Entry Addr)) :
    Prop where
  ring : Ring store.elements (nodes entries)
  tail_eq : store.tail = (nodes entries).getLast?
  element_eq : ∀ entry ∈ entries,
    (store.elements entry.address).map ListNode.val = some entry.element
  id_eq : ∀ entry ∈ entries,
    store.strings entry.idBlock = some entry.complaint.apartmentId
  remarks_eq : ∀ entry ∈ entries,
    store.strings entry.remarksBlock = some entry.complaint.remarks
  nodup_blocks : (blocks entries).Nodup
  elements_eq_none : ∀ address ∉ nodes entries,
    store.elements address = none
  strings_eq_none : ∀ address ∉ blocks entries,
    store.strings address = none

variable {store : Store Addr} {entries left right : List (Entry Addr)}
  {entry : Entry Addr} {index : ℕ}

theorem holds_empty : Holds (Store.empty Addr) [] where
  ring := ring_nil _
  tail_eq := rfl
  element_eq := by simp
  id_eq := by simp
  remarks_eq := by simp
  nodup_blocks := List.nodup_nil
  elements_eq_none _ _ := rfl
  strings_eq_none _ _ := rfl

theorem length_nodes (entries : List (Entry Addr)) :
    (nodes entries).length = entries.length :=
  List.length_map _

theorem nodes_append (left right : List (Entry Addr)) :
    nodes (left ++ right) = nodes left ++ nodes right :=
  List.map_append

theorem nodes_getElem? (hindex : index < entries.length) :
    (nodes entries)[index]? = some entries[index].address := by
  rw [nodes, List.getElem?_map, List.getElem?_eq_getElem hindex]
  rfl

theorem nodes_getElem?_append (left right : List (Entry Addr))
    (entry : Entry Addr) :
    (nodes (left ++ entry :: right))[left.length]? = some entry.address := by
  rw [nodes_getElem? (by simp)]
  simp

/-- The element that the walk along the ring meets. -/
theorem Holds.load_eq (hstore : Holds store entries)
    (hindex : index < entries.length) :
    load store.elements (nodes entries)[index]? =
      some ⟨entries[index].element,
        ((nodes entries)[index + 1]?).or (nodes entries).head?⟩ := by
  have hlength : index < (nodes entries).length := by
    rwa [length_nodes]
  obtain ⟨node, hnode, hnext⟩ := hstore.ring.node_getElem hlength
  have haddress : (nodes entries)[index] = entries[index].address :=
    List.getElem_map _
  have helement := hstore.element_eq _ (List.getElem_mem hindex)
  rw [haddress] at hnode
  rw [hnode, Option.map_some, Option.some_inj] at helement
  rw [nodes_getElem? hindex, load_some, hnode, ← helement, ← hnext]

/-- Before the last element, the walk goes on to the next one. -/
theorem Holds.load_of_lt (hstore : Holds store entries)
    (hindex : index + 1 < entries.length) :
    load store.elements (nodes entries)[index]? =
      some ⟨entries[index].element, (nodes entries)[index + 1]?⟩ := by
  rw [hstore.load_eq (Nat.lt_of_succ_lt hindex), nodes_getElem? hindex]
  rfl

theorem Holds.eq_tail_iff (hstore : Holds store entries)
    (hindex : index < entries.length) :
    (nodes entries)[index]? = store.tail ↔ index + 1 = entries.length := by
  rw [hstore.tail_eq, ← length_nodes entries]
  apply getElem?_eq_getLast?_iff hstore.ring.nodup
  rwa [length_nodes]

theorem Holds.tail_isNone_iff (hstore : Holds store entries) :
    store.tail.isNone ↔ entries = [] := by
  rw [hstore.tail_eq, Option.isNone_iff_eq_none, List.getLast?_eq_none_iff,
    nodes, List.map_eq_nil_iff]

theorem Holds.tail_eq_getElem? (hstore : Holds store entries) :
    store.tail = (nodes entries)[entries.length - 1]? := by
  rw [hstore.tail_eq, List.getLast?_eq_getElem?, length_nodes]

/-- The head of the queue. -/
theorem Holds.load_tail (hstore : Holds store entries)
    (hentries : entries ≠ []) :
    ∃ last, load store.elements store.tail = some last ∧
      last.next = (nodes entries)[0]? := by
  have hlength := List.length_pos_iff.mpr hentries
  rw [hstore.tail_eq_getElem?, hstore.load_eq (by omega)]
  refine ⟨_, rfl, ?_⟩
  rw [Nat.sub_add_cancel hlength, List.getElem?_eq_none (by
    rw [length_nodes]), Option.none_or, List.head?_eq_getElem?]

theorem Holds.apartmentAt_eq (hstore : Holds store entries)
    (hindex : index < entries.length) :
    apartmentAt store (nodes entries)[index]? =
      some (⟨entries[index].element,
        ((nodes entries)[index + 1]?).or (nodes entries).head?⟩,
        entries[index].complaint.apartmentId) := by
  have hid := hstore.id_eq _ (List.getElem_mem hindex)
  simp [apartmentAt, hstore.load_eq hindex, Entry.element, hid]

theorem Holds.apartmentAt_append
    (hstore : Holds store (left ++ entry :: right)) :
    ∃ next, apartmentAt store
        (nodes (left ++ entry :: right))[left.length]? =
      some (⟨entry.element, next⟩, entry.complaint.apartmentId) := by
  have hindex : left.length < (left ++ entry :: right).length := by simp
  have hat := hstore.apartmentAt_eq hindex
  rw [List.getElem_append_right le_rfl] at hat
  simp only [Nat.sub_self, List.getElem_cons_zero] at hat
  exact ⟨_, hat⟩

theorem blocks_concat (entries : List (Entry Addr)) (entry : Entry Addr) :
    blocks (entries ++ [entry]) = blocks entries ++ entry.blocks := by
  simp [blocks]

/-- A free address is not that of an element. -/
theorem Holds.notMem_nodes (hstore : Holds store entries) {address : Addr}
    (hfree : store.elements address = none) : address ∉ nodes entries :=
  fun hmem => ne_of_isSome (hstore.ring.isSome hmem) hfree rfl

/-- A free address is not that of a string of an element. -/
theorem Holds.notMem_blocks (hstore : Holds store entries) {address : Addr}
    (hfree : store.strings address = none) : address ∉ blocks entries := by
  intro hmem
  obtain ⟨entry, hentry, haddress⟩ := List.mem_flatMap.mp hmem
  simp only [Entry.blocks, List.mem_cons, List.not_mem_nil, or_false]
    at haddress
  rcases haddress with rfl | rfl
  · rw [hstore.id_eq entry hentry] at hfree
    contradiction
  · rw [hstore.remarks_eq entry hentry] at hfree
    contradiction

theorem Holds.load_append (hstore : Holds store (left ++ entry :: right)) :
    ∃ next, load store.elements (some entry.address) =
      some ⟨entry.element, next⟩ := by
  have hindex : left.length < (left ++ entry :: right).length := by simp
  have hload := hstore.load_eq hindex
  rw [nodes_getElem?_append] at hload
  simp only [List.getElem_append_right le_rfl, Nat.sub_self,
    List.getElem_cons_zero] at hload
  exact ⟨_, hload⟩

end Entries

end KataCpp.ComplaintQueue
