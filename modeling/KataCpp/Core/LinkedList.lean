import Mathlib

/-!
# Linked lists in a heap

A heap maps addresses to nodes, and a pointer is an address or null.  Reading
or writing through null, or through an address without a node, faults.

`Path` describes the nodes that the `next` pointers visit on the way from one
pointer to another.  `link` is the heap in which given nodes follow each other
and everything else is as before; programs that rewire a list are described by
the order in which they leave its nodes linked.
-/

namespace KataCpp.LinkedList

variable {Addr Val : Type*}

structure ListNode (Addr Val : Type*) where
  val : Val
  next : Option Addr
  deriving DecidableEq

abbrev Heap (Addr Val : Type*) := Addr → Option (ListNode Addr Val)

def load (heap : Heap Addr Val) (pointer : Option Addr) :
    Option (ListNode Addr Val) :=
  pointer.bind heap

@[simp]
theorem load_some (heap : Heap Addr Val) (address : Addr) :
    load heap (some address) = heap address := rfl

/-- An address with a node is not one without. -/
theorem ne_of_isSome {heap : Heap Addr Val} {address free : Addr}
    (hsome : (heap address).isSome) (hfree : heap free = none) :
    address ≠ free := by
  rintro rfl
  rw [hfree] at hsome
  exact absurd hsome (by simp)

/-- The values of nodes, in the order of the nodes. -/
def values (heap : Heap Addr Val) (nodes : List Addr) : List Val :=
  nodes.filterMap fun address => (heap address).map ListNode.val

theorem values_cons {heap : Heap Addr Val} {address : Addr}
    {node : ListNode Addr Val} (hnode : heap address = some node)
    (rest : List Addr) :
    values heap (address :: rest) = node.val :: values heap rest := by
  simp [values, hnode]

theorem values_append (heap : Heap Addr Val) (left right : List Addr) :
    values heap (left ++ right) = values heap left ++ values heap right :=
  List.filterMap_append

theorem values_reverse (heap : Heap Addr Val) (nodes : List Addr) :
    values heap nodes.reverse = (values heap nodes).reverse :=
  List.filterMap_reverse

theorem values_congr {heap other : Heap Addr Val} {nodes : List Addr}
    (hsame : ∀ address ∈ nodes, other address = heap address) :
    values other nodes = values heap nodes := by
  apply List.filterMap_congr
  intro address hmem
  rw [hsame address hmem]

theorem length_values {heap : Heap Addr Val} {nodes : List Addr}
    (hsome : ∀ address ∈ nodes, (heap address).isSome) :
    (values heap nodes).length = nodes.length := by
  induction nodes with
  | nil => rfl
  | cons address rest ih =>
      obtain ⟨node, hnode⟩ := Option.isSome_iff_exists.mp
        (hsome address List.mem_cons_self)
      rw [values_cons hnode, List.length_cons, List.length_cons,
        ih fun address hmem => hsome address (List.mem_cons_of_mem _ hmem)]

/-- The first of a chain of nodes, or the pointer behind the chain. -/
def first (nodes : List Addr) (behind : Option Addr) : Option Addr :=
  nodes.head?.or behind

@[simp]
theorem first_nil (behind : Option Addr) : first [] behind = behind := rfl

@[simp]
theorem first_cons (address : Addr) (nodes : List Addr)
    (behind : Option Addr) :
    first (address :: nodes) behind = some address := rfl

theorem first_append (left right : List Addr) (behind : Option Addr) :
    first (left ++ right) behind = first left (first right behind) := by
  cases left <;> rfl

section Paths

/-- The pointers lead from `start` through the nodes to `behind`. -/
def Path (heap : Heap Addr Val) :
    Option Addr → List Addr → Option Addr → Prop
  | start, [], behind => start = behind
  | start, address :: rest, behind => start = some address ∧
      ∃ node, heap address = some node ∧ Path heap node.next rest behind

variable {heap other : Heap Addr Val} {start behind : Option Addr}
  {nodes left right : List Addr} {address : Addr}

theorem Path.eq_first (hpath : Path heap start nodes behind) :
    start = first nodes behind := by
  cases nodes with
  | nil => exact hpath
  | cons address rest => exact hpath.1

theorem path_append_iff :
    Path heap start (left ++ right) behind ↔
      Path heap start left (first right behind) ∧
        Path heap (first right behind) right behind := by
  induction left generalizing start with
  | nil =>
      constructor
      · intro hpath
        have hstart := hpath.eq_first
        exact ⟨hstart, hstart ▸ hpath⟩
      · rintro ⟨hstart, hpath⟩
        exact hstart ▸ hpath
  | cons address left ih =>
      constructor
      · rintro ⟨hstart, node, hnode, hpath⟩
        exact ⟨⟨hstart, node, hnode, (ih.mp hpath).1⟩, (ih.mp hpath).2⟩
      · rintro ⟨⟨hstart, node, hnode, hleft⟩, hright⟩
        exact ⟨hstart, node, hnode, ih.mpr ⟨hleft, hright⟩⟩

/-- What a node of a path holds. -/
theorem Path.node (hpath : Path heap start nodes behind)
    (hsplit : nodes = left ++ address :: right) :
    ∃ node, heap address = some node ∧ node.next = first right behind := by
  subst hsplit
  obtain ⟨-, -, node, hnode, hnext⟩ := path_append_iff.mp hpath
  exact ⟨node, hnode, hnext.eq_first⟩

theorem Path.isSome (hpath : Path heap start nodes behind)
    (hmem : address ∈ nodes) : (heap address).isSome := by
  obtain ⟨left, right, rfl⟩ := List.append_of_mem hmem
  obtain ⟨node, hnode, -⟩ := hpath.node rfl
  rw [hnode]
  rfl

theorem Path.tail (hpath : Path heap start nodes behind)
    (hnodes : nodes ≠ []) :
    Path heap (first nodes.tail behind) nodes.tail behind := by
  cases nodes with
  | nil => exact absurd rfl hnodes
  | cons address rest =>
      obtain ⟨-, node, -, hrest⟩ := hpath
      have hstart := hrest.eq_first
      exact hstart ▸ hrest

theorem Path.congr (hpath : Path heap start nodes behind)
    (hsame : ∀ address ∈ nodes, other address = heap address) :
    Path other start nodes behind := by
  induction nodes generalizing start with
  | nil => exact hpath
  | cons address rest ih =>
      obtain ⟨hstart, node, hnode, hrest⟩ := hpath
      refine ⟨hstart, node, ?_, ih hrest fun address hmem =>
        hsame address (List.mem_cons_of_mem _ hmem)⟩
      rw [hsame address List.mem_cons_self, hnode]

theorem Path.unique (hleft : Path heap start left none)
    (hright : Path heap start right none) : left = right := by
  induction left generalizing start right with
  | nil =>
      cases right with
      | nil => rfl
      | cons address right =>
          exact absurd (hleft.symm.trans hright.1) (by simp)
  | cons address left ih =>
      obtain ⟨hstart, node, hnode, hleft⟩ := hleft
      cases right with
      | nil => exact absurd (hstart.symm.trans hright) (by simp)
      | cons head right =>
          obtain ⟨hhead, second, hsecond, hright⟩ := hright
          obtain rfl : address = head :=
            Option.some.inj (hstart.symm.trans hhead)
          obtain rfl : node = second :=
            Option.some.inj (hnode.symm.trans hsecond)
          rw [ih hleft hright]

/-- A list that ends does not visit a node twice. -/
theorem Path.nodup (hpath : Path heap start nodes none) : nodes.Nodup := by
  induction nodes generalizing start with
  | nil => exact List.nodup_nil
  | cons address rest ih =>
      have hhere := hpath.1 ▸ hpath
      obtain ⟨-, node, -, hrest⟩ := hpath
      refine List.nodup_cons.mpr ⟨?_, ih hrest⟩
      intro hmem
      obtain ⟨left, right, rfl⟩ := List.append_of_mem hmem
      -- The way from the second visit to the end is also one from the first.
      have hagain := (path_append_iff.mp hrest).2
      have hlength := congrArg List.length (hhere.unique hagain)
      simp only [List.length_cons, List.length_append] at hlength
      omega

end Paths

/-! ## Linking nodes -/

section Links

variable [DecidableEq Addr]

def setNext (heap : Heap Addr Val) (address : Addr) (next : Option Addr) :
    Heap Addr Val :=
  Function.update heap address
    ((heap address).map fun node => { node with next := next })

/-- The assignment `pointer->next = next`. -/
def store (heap : Heap Addr Val) (pointer next : Option Addr) :
    Option (Heap Addr Val) :=
  pointer.bind fun address =>
    (heap address).map fun _ => setNext heap address next

/-- The heap in which the nodes follow each other and `behind` comes last. -/
def link (heap : Heap Addr Val) : List Addr → Option Addr → Heap Addr Val
  | [], _ => heap
  | address :: rest, behind =>
      setNext (link heap rest behind) address (first rest behind)

variable {heap : Heap Addr Val} {address other : Addr}
  {next behind start : Option Addr} {nodes left right : List Addr}

theorem setNext_self (heap : Heap Addr Val) (address : Addr)
    (next : Option Addr) :
    setNext heap address next address =
      (heap address).map fun node => { node with next := next } :=
  Function.update_self _ _ _

theorem setNext_of_ne (hne : other ≠ address) :
    setNext heap address next other = heap other :=
  Function.update_of_ne hne _ _

theorem isSome_setNext (heap : Heap Addr Val) (address other : Addr)
    (next : Option Addr) :
    (setNext heap address next other).isSome = (heap other).isSome := by
  by_cases hother : other = address
  · subst hother
    rw [setNext_self, Option.isSome_map]
  · rw [setNext_of_ne hother]

theorem store_some (hsome : (heap address).isSome) :
    store heap (some address) next = some (setNext heap address next) := by
  obtain ⟨node, hnode⟩ := Option.isSome_iff_exists.mp hsome
  simp [store, hnode]

theorem setNext_setNext (previous : Option Addr) :
    setNext (setNext heap address previous) address next =
      setNext heap address next := by
  simp [setNext, Function.comp_def]

theorem setNext_comm (hne : address ≠ other) (previous : Option Addr) :
    setNext (setNext heap address previous) other next =
      setNext (setNext heap other next) address previous := by
  simp only [setNext, Function.update_of_ne hne,
    Function.update_of_ne hne.symm]
  exact Function.update_comm hne _ _ _

theorem setNext_eq_self {node : ListNode Addr Val}
    (hnode : heap address = some node) (hnext : node.next = next) :
    setNext heap address next = heap := by
  subst hnext
  simp [setNext, hnode]

theorem val_setNext (heap : Heap Addr Val) (address other : Addr)
    (next : Option Addr) :
    (setNext heap address next other).map ListNode.val =
      (heap other).map ListNode.val := by
  by_cases hother : other = address
  · subst hother
    simp [setNext_self, Function.comp_def]
  · rw [setNext_of_ne hother]

theorem values_setNext (heap : Heap Addr Val) (address : Addr)
    (next : Option Addr) (nodes : List Addr) :
    values (setNext heap address next) nodes = values heap nodes := by
  simp only [values, val_setNext]

theorem link_of_notMem (hmem : address ∉ nodes) :
    link heap nodes behind address = heap address := by
  induction nodes with
  | nil => rfl
  | cons head rest ih =>
      rw [List.mem_cons, not_or] at hmem
      rw [link, setNext_of_ne hmem.1, ih hmem.2]

theorem isSome_link (heap : Heap Addr Val) (nodes : List Addr)
    (behind : Option Addr) (address : Addr) :
    (link heap nodes behind address).isSome = (heap address).isSome := by
  induction nodes with
  | nil => rfl
  | cons head rest ih => rw [link, isSome_setNext, ih]

theorem val_link (heap : Heap Addr Val) (nodes : List Addr)
    (behind : Option Addr) (address : Addr) :
    (link heap nodes behind address).map ListNode.val =
      (heap address).map ListNode.val := by
  induction nodes with
  | nil => rfl
  | cons head rest ih => rw [link, val_setNext, ih]

theorem values_link (heap : Heap Addr Val) (nodes : List Addr)
    (behind : Option Addr) (chain : List Addr) :
    values (link heap nodes behind) chain = values heap chain := by
  simp only [values, val_link]

theorem link_append (left right : List Addr) :
    link heap (left ++ right) behind =
      link (link heap right behind) left (first right behind) := by
  induction left with
  | nil => rfl
  | cons address left ih =>
      rw [List.cons_append, link, link, ih, first_append]

theorem setNext_link_of_notMem (hmem : address ∉ nodes) :
    setNext (link heap nodes behind) address next =
      link (setNext heap address next) nodes behind := by
  induction nodes with
  | nil => rfl
  | cons head rest ih =>
      rw [List.mem_cons, not_or] at hmem
      rw [link, link, setNext_comm (Ne.symm hmem.1), ih hmem.2]

/-- A node apart from the linked ones can be changed before or afterwards. -/
theorem link_update_of_notMem (hmem : address ∉ nodes)
    (node : Option (ListNode Addr Val)) :
    link (Function.update heap address node) nodes behind =
      Function.update (link heap nodes behind) address node := by
  induction nodes with
  | nil => rfl
  | cons head rest ih =>
      rw [List.mem_cons, not_or] at hmem
      rw [link, link, ih hmem.2, setNext, setNext,
        Function.update_of_ne (Ne.symm hmem.1)]
      exact Function.update_comm hmem.1 _ _ _

/-- Redirecting one of the linked nodes cuts the chain behind it. -/
theorem setNext_link (hmem : address ∉ left) :
    setNext (link heap (left ++ address :: right) behind) address next =
      link (link heap right behind) (left ++ [address]) next := by
  rw [link_append, link_append, setNext_link_of_notMem hmem, link,
    setNext_setNext]
  rfl

theorem link_setNext_of_mem (hmem : address ∈ nodes) :
    link (setNext heap address next) nodes behind =
      link heap nodes behind := by
  induction nodes with
  | nil => exact absurd hmem List.not_mem_nil
  | cons head rest ih =>
      rw [link, link]
      by_cases hrest : address ∈ rest
      · rw [ih hrest]
      · obtain rfl := (List.mem_cons.mp hmem).resolve_right hrest
        rw [← setNext_link_of_notMem hrest, setNext_setNext]

/-- Linking nodes once more forgets how they were linked before. -/
theorem link_link (hsubset : left ⊆ right) (between : Option Addr) :
    link (link heap left between) right behind = link heap right behind := by
  induction left with
  | nil => rfl
  | cons address left ih =>
      rw [link, link_setNext_of_mem (hsubset List.mem_cons_self)]
      exact ih (List.subset_of_cons_subset hsubset)

/-- Linking nodes as they are linked already changes nothing. -/
theorem Path.link_eq_self (hpath : Path heap start nodes behind) :
    link heap nodes behind = heap := by
  induction nodes generalizing start with
  | nil => rfl
  | cons address rest ih =>
      obtain ⟨-, node, hnode, hrest⟩ := hpath
      rw [link, ih hrest]
      exact setNext_eq_self hnode hrest.eq_first

/-- Linked nodes are a path. -/
theorem path_link (hnodup : nodes.Nodup)
    (hsome : ∀ address ∈ nodes, (heap address).isSome) :
    Path (link heap nodes behind) (first nodes behind) nodes behind := by
  induction nodes with
  | nil => rfl
  | cons address rest ih =>
      obtain ⟨hnotMem, hrest⟩ := List.nodup_cons.mp hnodup
      obtain ⟨node, hnode⟩ := Option.isSome_iff_exists.mp
        (hsome address List.mem_cons_self)
      have hpath := ih hrest fun address hmem =>
        hsome address (List.mem_cons_of_mem _ hmem)
      refine ⟨rfl, { node with next := first rest behind }, ?_, ?_⟩
      · rw [link, setNext_self, link_of_notMem hnotMem, hnode]
        rfl
      · apply hpath.congr
        intro other hother
        have hne : other ≠ address := by
          rintro rfl
          exact hnotMem hother
        rw [link, setNext_of_ne hne]

/-- A new node is appended to a list. -/
theorem Path.append_new {node : Addr} {value : Val}
    (hpath : Path heap start (left ++ [address]) none)
    (hnode : heap node = none) :
    Path (setNext (Function.update heap node (some ⟨value, none⟩)) address
      (some node)) start (left ++ [address] ++ [node]) none := by
  have hnotMem : node ∉ left ++ [address] := fun hmem =>
    ne_of_isSome (hpath.isSome hmem) hnode rfl
  have haddress : address ∉ left := by
    have hdisjoint := List.disjoint_of_nodup_append hpath.nodup
    exact fun hmem => hdisjoint hmem (List.mem_singleton_self address)
  have hold : Path (Function.update heap node (some ⟨value, none⟩)) start
      (left ++ [address]) none := by
    apply hpath.congr
    intro other hother
    apply Function.update_of_ne
    rintro rfl
    exact hnotMem hother
  have hnew : link (Function.update heap node (some ⟨value, none⟩)) [node]
      none = Function.update heap node (some ⟨value, none⟩) :=
    setNext_eq_self (Function.update_self _ _ _) rfl
  have hlink : setNext (Function.update heap node (some ⟨value, none⟩))
      address (some node) =
      link (Function.update heap node (some ⟨value, none⟩))
        (left ++ [address] ++ [node]) none := by
    rw [link_append, hnew, ← hold.link_eq_self, setNext_link haddress,
      hold.link_eq_self]
    rfl
  have hstart : start = first (left ++ [address] ++ [node]) none := by
    rw [hpath.eq_first, first_append, first_append, first_append]
    rfl
  rw [hlink, hstart]
  apply path_link
  · rw [← List.concat_eq_append]
    exact hpath.nodup.concat hnotMem
  · intro other hother
    rcases List.mem_append.mp hother with hother | hother
    · exact hold.isSome hother
    · rw [List.mem_singleton.mp hother, Function.update_self]
      rfl

end Links

end KataCpp.LinkedList
