import KataCpp.Core.Iteration
import KataCpp.Core.LinkedList
import KataCpp.Core.MachineInt

/-!
# Reversing a linked list

`reverseList` turns the pointers of a list round one after the other,
`reverseListRecursive` turns them round on the way back from the end.  Both
leave the heap in which the nodes are linked in the opposite order.

`reverseBetween` reverses a section: node by node is taken out behind the first
node of the section and put in front of it.  A dummy node before the list
stands for the predecessor when the section begins with the first node.
-/

namespace KataCpp.LinkedListReversal

open Iteration LinkedList MachineInt

variable {Addr : Type} [DecidableEq Addr]

structure Reversal (Addr : Type) where
  heap : Heap Addr ℤ
  prev : Option Addr
  curr : Option Addr

def reversePass (reversal : Reversal Addr) : Option (Reversal Addr) := do
  let node ← load reversal.heap reversal.curr
  let heap ← store reversal.heap reversal.curr reversal.prev
  return ⟨heap, reversal.curr, node.next⟩

def reverseList (heap : Heap Addr ℤ) (head : Option Addr) (fuel : ℕ) :
    Option (Heap Addr ℤ × Option Addr) := do
  let final ← whileLoop (fun reversal : Reversal Addr => reversal.curr.isSome)
    reversePass fuel ⟨heap, none, head⟩
  return (final.heap, final.prev)

def reverseListRecursive (heap : Heap Addr ℤ) (head : Option Addr) :
    ℕ → Option (Heap Addr ℤ × Option Addr)
  | 0 => none
  | fuel + 1 =>
      if head.isNone then
        some (heap, head)
      else do
        let node ← load heap head
        if node.next.isNone then
          return (heap, head)
        else
          let (heap, newHead) ← reverseListRecursive heap node.next fuel
          let node ← load heap head
          let heap ← store heap node.next head
          let heap ← store heap head none
          return (heap, newHead)

/-- A pass of the second loop of `reverseBetween`, on the heap and `then`. -/
def movePass (prev start : Option Addr) (state : Heap Addr ℤ × Option Addr) :
    Option (Heap Addr ℤ × Option Addr) := do
  let thenNode ← load state.1 state.2
  let heap ← store state.1 start thenNode.next
  let prevNode ← load heap prev
  let heap ← store heap state.2 prevNode.next
  let heap ← store heap prev state.2
  let startNode ← load heap start
  return (heap, startNode.next)

/-- The dummy node stands at an address of its own, and it is gone when the
function has returned. -/
def reverseBetween (dummy : Addr) (heap : Heap Addr ℤ) (head : Option Addr)
    (m n : ℤ) : Option (Heap Addr ℤ × Option Addr) :=
  if head.isNone ∨ m = n then
    some (heap, head)
  else do
    let heap := Function.update heap dummy (some ⟨0, head⟩)
    let prev ← forRange (m - 1).toNat
      (fun prev _ => (load heap prev).map ListNode.next) (some dummy)
    let prevNode ← load heap prev
    let start := prevNode.next
    let startNode ← load heap start
    let final ← forRange (wrap32 (n - m)).toNat
      (fun state _ => movePass prev start state) (heap, startNode.next)
    let dummyNode ← load final.1 (some dummy)
    return (Function.update final.1 dummy none, dummyNode.next)

/-! ## Reversing the whole list -/

section Whole

variable {heap : Heap Addr ℤ} {head : Option Addr} {nodes : List Addr}

/-- A pass turns the pointer of one node round. -/
theorem reversePass_link {done rest : List Addr} {address : Addr}
    (hpath : Path heap head (done ++ address :: rest) none) :
    reversePass ⟨link heap done.reverse none, first done.reverse none,
        some address⟩ =
      some ⟨link heap (done ++ [address]).reverse none,
        first (done ++ [address]).reverse none, first rest none⟩ := by
  obtain ⟨node, hnode, hnext⟩ := hpath.node rfl
  have hnotMem : address ∉ done.reverse := by
    have hdisjoint := List.disjoint_of_nodup_append hpath.nodup
    rw [List.mem_reverse]
    exact fun hmem => hdisjoint hmem List.mem_cons_self
  have hload : link heap done.reverse none address = some node := by
    rw [link_of_notMem hnotMem, hnode]
  have hstore : store (link heap done.reverse none) (some address)
      (first done.reverse none) = some (link heap (address :: done.reverse)
        none) :=
    store_some (Option.isSome_iff_exists.mpr ⟨node, hload⟩)
  simp only [reversePass, load_some, hload, hstore, Option.bind_eq_bind,
    Option.bind_some, hnext, List.reverse_append, List.reverse_singleton,
    List.singleton_append]
  rfl

theorem reverseList_returns (hpath : Path heap head nodes none) :
    Returns (reverseList heap head)
      (link heap nodes.reverse none, first nodes.reverse none) := by
  have hloop : ∃ final, Returns
      (whileLoop (fun reversal : Reversal Addr => reversal.curr.isSome)
        reversePass · ⟨heap, none, head⟩) final ∧
      final = ⟨link heap nodes.reverse none, first nodes.reverse none,
        none⟩ := by
    apply whileLoop_returns (fun (variant : ℕ) reversal => ∃ done rest,
      nodes = done ++ rest ∧ variant = rest.length ∧
        reversal = ⟨link heap done.reverse none, first done.reverse none,
          first rest none⟩)
    · exact ⟨[], nodes, rfl, rfl, by rw [← hpath.eq_first]; rfl⟩
    · rintro variant reversal ⟨done, rest, rfl, rfl, rfl⟩ hcurr
      cases rest with
      | nil => exact absurd hcurr (by simp)
      | cons address rest =>
          exact ⟨rest.length, _, reversePass_link hpath, by simp,
            done ++ [address], rest, by simp, rfl, rfl⟩
    · rintro variant reversal ⟨done, rest, rfl, rfl, rfl⟩ hcurr
      cases rest with
      | nil => rw [List.append_nil, first_nil]
      | cons address rest => exact absurd rfl hcurr
  obtain ⟨final, hreturns, rfl⟩ := hloop
  exact hreturns.bind (returns_some _)

/-- On the way back the second node is made to point to the first. -/
theorem store_second {address second : Addr} {rest : List Addr}
    (hpath : Path heap head (address :: second :: rest) none) :
    store (link heap (second :: rest).reverse none) (some second)
        (some address) =
      some (link heap (second :: rest).reverse (some address)) := by
  have hnodup := (List.nodup_cons.mp hpath.nodup).2
  have hsecond : second ∉ rest.reverse := by
    rw [List.mem_reverse]
    exact (List.nodup_cons.mp hnodup).1
  rw [store_some, List.reverse_cons, setNext_link hsecond]
  · rfl
  · rw [isSome_link]
    exact hpath.isSome (by simp)

/-- The first node is the last one of the reversed list. -/
theorem store_first {address : Addr} {rest : List Addr}
    (hpath : Path heap head (address :: rest) none) :
    store (link heap rest.reverse (some address)) (some address) none =
      some (link heap (address :: rest).reverse none) := by
  have hnotMem : address ∉ rest.reverse := by
    rw [List.mem_reverse]
    exact (List.nodup_cons.mp hpath.nodup).1
  rw [store_some, setNext_link_of_notMem hnotMem, List.reverse_cons,
    link_append]
  · rfl
  · rw [isSome_link]
    exact hpath.isSome List.mem_cons_self

omit [DecidableEq Addr] in
theorem first_reverse_cons_cons (address second : Addr) (rest : List Addr) :
    first (address :: second :: rest).reverse none =
      first (second :: rest).reverse none := by
  simp only [List.reverse_cons, first_append, first_cons]

theorem reverseListRecursive_eq_some (hpath : Path heap head nodes none)
    {fuel : ℕ} (hfuel : nodes.length < fuel) :
    reverseListRecursive heap head fuel =
      some (link heap nodes.reverse none, first nodes.reverse none) := by
  induction nodes generalizing head fuel with
  | nil =>
      obtain ⟨fuel, rfl⟩ := Nat.exists_eq_add_of_le' (Nat.one_le_of_lt hfuel)
      obtain rfl : head = none := hpath
      rfl
  | cons address rest ih =>
      obtain ⟨fuel, rfl⟩ := Nat.exists_eq_add_of_le' (Nat.one_le_of_lt hfuel)
      obtain ⟨rfl, node, hnode, hrest⟩ := id hpath
      rw [List.length_cons] at hfuel
      cases rest with
      | nil =>
          have hnext : node.next = none := hrest
          have hlink : link heap [address] none = heap := hpath.link_eq_self
          simp only [reverseListRecursive, load_some, hnode, hnext,
            Option.bind_eq_bind, Option.bind_some]
          rw [List.reverse_singleton, hlink]
          rfl
      | cons second rest =>
          have hcall := ih hrest (Nat.lt_of_succ_lt_succ hfuel)
          have hnext : node.next = some second := hrest.1
          have hload : link heap (second :: rest).reverse none address =
              some node := by
            rw [link_of_notMem, hnode]
            rw [List.mem_reverse]
            exact (List.nodup_cons.mp hpath.nodup).1
          rw [hnext] at hcall
          simp only [reverseListRecursive, load_some, hnode, hnext, hcall,
            hload, store_second hpath, store_first hpath,
            Option.bind_eq_bind, Option.bind_some, Option.isNone_some,
            first_reverse_cons_cons, Bool.false_eq_true, if_false]
          rfl

theorem reverseListRecursive_returns (hpath : Path heap head nodes none) :
    Returns (reverseListRecursive heap head)
      (link heap nodes.reverse none, first nodes.reverse none) :=
  ⟨nodes.length + 1, fun _ hfuel =>
    reverseListRecursive_eq_some hpath hfuel⟩

theorem path_link_perm (hpath : Path heap head nodes none) {order : List Addr}
    (hperm : order.Perm nodes) :
    Path (link heap order none) (first order none) order none := by
  apply path_link (hperm.nodup_iff.mpr hpath.nodup)
  intro address hmem
  exact hpath.isSome (hperm.mem_iff.mp hmem)

/-- Reversing the reversed list gives the first heap and head back. -/
theorem link_reverse_reverse (hpath : Path heap head nodes none) :
    (link (link heap nodes.reverse none) nodes.reverse.reverse none,
      first nodes.reverse.reverse none) = (heap, head) := by
  rw [link_link (by simp), List.reverse_reverse, hpath.link_eq_self,
    hpath.eq_first]

/-- Both functions return the same head and leave the same heap: the nodes in
the opposite order, and nothing else changed.  A second call of either restores
the list. -/
theorem reverseList_eq_reverseListRecursive
    (hpath : Path heap head nodes none) :
    ∃ reversed newHead,
      Returns (reverseList heap head) (reversed, newHead) ∧
      Returns (reverseListRecursive heap head) (reversed, newHead) ∧
      Path reversed newHead nodes.reverse none ∧
      (∀ address, (reversed address).map ListNode.val =
        (heap address).map ListNode.val) ∧
      (∀ address, address ∉ nodes → reversed address = heap address) ∧
      Returns (reverseList reversed newHead) (heap, head) ∧
      Returns (reverseListRecursive reversed newHead) (heap, head) := by
  have hreversed := path_link_perm hpath (List.reverse_perm nodes)
  refine ⟨link heap nodes.reverse none, first nodes.reverse none,
    reverseList_returns hpath, reverseListRecursive_returns hpath, hreversed,
    val_link heap nodes.reverse none, ?_, ?_, ?_⟩
  · intro address hmem
    exact link_of_notMem fun hreverse => hmem (List.mem_reverse.mp hreverse)
  · rw [← link_reverse_reverse hpath]
    exact reverseList_returns hreversed
  · rw [← link_reverse_reverse hpath]
    exact reverseListRecursive_returns hreversed

end Whole

/-- The nodes `1 -> 2 -> 3` of a list at the addresses 10, 20 and 30. -/
def threeNodes : Heap ℕ ℤ
  | 10 => some ⟨1, some 20⟩
  | 20 => some ⟨2, some 30⟩
  | 30 => some ⟨3, none⟩
  | _ => none

theorem path_threeNodes : Path threeNodes (some 10) [10, 20, 30] none :=
  ⟨rfl, _, rfl, rfl, _, rfl, rfl, _, rfl, rfl⟩

theorem reverseList_eq_reverseListRecursive_three :
    ∃ reversed newHead,
      Returns (reverseList threeNodes (some 10)) (reversed, newHead) ∧
      Returns (reverseListRecursive threeNodes (some 10))
        (reversed, newHead) ∧
      Path reversed newHead [10, 20, 30].reverse none ∧
      (∀ address, (reversed address).map ListNode.val =
        (threeNodes address).map ListNode.val) ∧
      (∀ address, address ∉ [10, 20, 30] →
        reversed address = threeNodes address) ∧
      Returns (reverseList reversed newHead) (threeNodes, some 10) ∧
      Returns (reverseListRecursive reversed newHead) (threeNodes, some 10) :=
  reverseList_eq_reverseListRecursive path_threeNodes

/-! ## Reversing a section -/

section Section

variable {heap : Heap Addr ℤ} {initial moved rest : List Addr}
  {prev start address : Addr}

/-- The three assignments of a pass put a node in front of the section. -/
theorem setNext_move (heap : Heap Addr ℤ)
    (hnodup : (initial ++ prev :: (moved ++ start :: address :: rest)).Nodup) :
    setNext (setNext (setNext
      (link heap (initial ++ prev :: (moved ++ start :: address :: rest)) none)
        start (first rest none)) address (first moved (some start)))
          prev (some address) =
      link heap (initial ++ prev :: (address :: moved ++ start :: rest))
        none := by
  have hstart : start ∉ initial ++ prev :: moved := by
    grind [List.nodup_append, List.nodup_cons]
  have haddress : address ∉ (initial ++ prev :: moved) ++ [start] := by
    grind [List.nodup_append, List.nodup_cons]
  have hprev : prev ∉ initial := by
    grind [List.nodup_append, List.nodup_cons]
  have hfront : address ∉ initial ++ [prev] := by
    grind [List.nodup_append, List.nodup_cons]
  -- The node is taken out: its predecessor skips it.
  have hout : setNext
      (link heap (initial ++ prev :: (moved ++ start :: address :: rest)) none)
        start (first rest none) =
      setNext (link heap (initial ++ prev :: (moved ++ start :: rest)) none)
        address (first rest none) := by
    have hsplit (tail : List Addr) :
        initial ++ prev :: (moved ++ start :: tail) =
          (initial ++ prev :: moved) ++ start :: tail := by
      simp
    rw [hsplit, setNext_link hstart, link, ← setNext_link_of_notMem haddress,
      ← link_append, hsplit, List.append_assoc _ [start]]
    rfl
  -- It is put in again behind `prev`.
  have hin : setNext
      (link heap (initial ++ prev :: (moved ++ start :: rest)) none)
        prev (some address) =
      link (link heap (moved ++ start :: rest) none) (initial ++ [prev])
        (some address) :=
    setNext_link hprev
  have hfirst : first moved (some start) =
      first (moved ++ start :: rest) none := by
    rw [first_append, first_cons]
  have hne : address ≠ prev := by
    rintro rfl
    exact hfront (by simp)
  calc
    _ = setNext (setNext
          (link heap (initial ++ prev :: (moved ++ start :: rest)) none)
          address (first moved (some start))) prev (some address) := by
        rw [hout, setNext_setNext]
    _ = setNext (link (link heap (moved ++ start :: rest) none)
          (initial ++ [prev]) (some address)) address
          (first moved (some start)) := by
        rw [setNext_comm hne, hin]
    _ = link (link heap (address :: (moved ++ start :: rest)) none)
          (initial ++ [prev]) (some address) := by
        rw [setNext_link_of_notMem hfront, hfirst]
        rfl
    _ = _ := by
        rw [← first_cons address (moved ++ start :: rest) none, ← link_append,
          List.append_assoc]
        rfl

/-- A pass is three assignments, if no pointer on the way is null. -/
theorem movePass_eq_some {thenNode prevNode startNode : ListNode Addr ℤ}
    {final : Heap Addr ℤ} (hthen : heap address = some thenNode)
    (hprev : heap prev = some prevNode) (hne : prev ≠ start)
    (hsome : (heap start).isSome)
    (hfinal : setNext (setNext (setNext heap start thenNode.next) address
      prevNode.next) prev (some address) = final)
    (hstart : final start = some startNode) :
    movePass (some prev) (some start) (heap, some address) =
      some (final, startNode.next) := by
  have hload : setNext heap start thenNode.next prev = some prevNode := by
    rw [setNext_of_ne hne, hprev]
  have hsecond : (setNext heap start thenNode.next address).isSome := by
    rw [isSome_setNext, hthen]
    rfl
  have hthird : (setNext (setNext heap start thenNode.next) address
      prevNode.next prev).isSome := by
    rw [isSome_setNext, hload]
    rfl
  simp only [movePass, load_some, hthen, store_some hsome, hload,
    store_some hsecond, store_some hthird, hfinal, hstart,
    Option.bind_eq_bind, Option.bind_some]
  rfl

theorem movePass_link
    (hnodup : (initial ++ prev :: (moved ++ start :: address :: rest)).Nodup)
    (hsome : ∀ other ∈ initial ++ prev :: (moved ++ start :: address :: rest),
      (heap other).isSome) :
    movePass (some prev) (some start)
        (link heap (initial ++ prev :: (moved ++ start :: address :: rest))
          none, some address) =
      some (link heap (initial ++ prev :: (address :: moved ++ start :: rest))
        none, first rest none) := by
  have hperm : (initial ++ prev :: (address :: moved ++ start :: rest)).Perm
      (initial ++ prev :: (moved ++ start :: address :: rest)) := by
    refine (List.Perm.cons prev ?_).append_left initial
    calc (address :: moved ++ start :: rest).Perm
          (moved ++ address :: start :: rest) := List.perm_middle.symm
      _ |>.Perm (moved ++ start :: address :: rest) :=
          (List.Perm.swap start address rest).append_left moved
  have hpath : Path (link heap (initial ++ prev :: (moved ++ start ::
      address :: rest)) none) _ _ none := path_link hnodup hsome
  have hmoved : Path (link heap (initial ++ prev :: (address :: moved ++
      start :: rest)) none) _ _ none :=
    path_link (hperm.nodup_iff.mpr hnodup)
      fun other hother => hsome other (hperm.mem_iff.mp hother)
  have hne : prev ≠ start := by
    grind [List.nodup_append, List.nodup_cons]
  have hsplit : initial ++ prev :: (moved ++ start :: address :: rest) =
      (initial ++ prev :: (moved ++ [start])) ++ address :: rest := by
    simp
  have hsplitMoved : initial ++ prev :: (address :: moved ++ start :: rest) =
      (initial ++ prev :: address :: moved) ++ start :: rest := by
    simp
  obtain ⟨prevNode, hprev, hprevNext⟩ := hpath.node rfl
  obtain ⟨thenNode, hthen, hthenNext⟩ := hpath.node hsplit
  obtain ⟨startNode, hstart, hstartNext⟩ := hmoved.node hsplitMoved
  rw [first_append, first_cons] at hprevNext
  have hmove := setNext_move heap hnodup
  rw [← hthenNext, ← hprevNext] at hmove
  have hstartSome : (link heap (initial ++ prev :: (moved ++ start ::
      address :: rest)) none start).isSome := by
    rw [isSome_link]
    exact hsome start (by simp)
  rw [movePass_eq_some hthen hprev hne hstartSome hmove hstart, hstartNext]

omit [DecidableEq Addr] in
/-- The same nodes, with those behind `start` turned round in front of it. -/
theorem reverse_append_perm (start : Addr) (moving after : List Addr) :
    (moving.reverse ++ start :: after).Perm (start :: (moving ++ after)) :=
  calc (moving.reverse ++ start :: after).Perm
        (start :: (moving.reverse ++ after)) := List.perm_middle
    _ |>.Perm (start :: (moving ++ after)) :=
        ((List.reverse_perm moving).append_right after).cons start

/-- The second loop puts the nodes behind `start` in front of it one by one,
so that they stand there in the opposite order. -/
theorem forRange_movePass {moving after : List Addr}
    (hnodup : (initial ++ prev :: start :: (moving ++ after)).Nodup)
    (hsome : ∀ other ∈ initial ++ prev :: start :: (moving ++ after),
      (heap other).isSome) :
    forRange moving.length
        (fun state _ => movePass (some prev) (some start) state)
        (link heap (initial ++ prev :: start :: (moving ++ after)) none,
          first (moving ++ after) none) =
      some (link heap (initial ++ prev :: (moving.reverse ++ start :: after))
        none, first after none) := by
  have hloop : ∃ final, forRange moving.length
      (fun state _ => movePass (some prev) (some start) state)
      (link heap (initial ++ prev :: start :: (moving ++ after)) none,
        first (moving ++ after) none) = some final ∧
      ∃ done todo, moving = done ++ todo ∧ done.length = moving.length ∧
        final = (link heap (initial ++ prev :: (done.reverse ++ start ::
          (todo ++ after))) none, first (todo ++ after) none) := by
    apply forRange_invariant (fun index state => ∃ done todo,
      moving = done ++ todo ∧ done.length = index ∧
        state = (link heap (initial ++ prev :: (done.reverse ++ start ::
          (todo ++ after))) none, first (todo ++ after) none))
    · exact ⟨[], moving, rfl, rfl, rfl⟩
    · rintro index state hindex ⟨done, todo, rfl, rfl, rfl⟩
      cases todo with
      | nil =>
          rw [List.append_nil] at hindex
          exact absurd hindex (lt_irrefl _)
      | cons address todo =>
          have hperm : (initial ++ prev :: (done.reverse ++ start :: address ::
              (todo ++ after))).Perm (initial ++ prev :: start ::
                (done ++ address :: todo ++ after)) := by
            rw [List.append_assoc, List.cons_append]
            exact ((reverse_append_perm start done _).cons prev).append_left
              initial
          have hpass := movePass_link (hperm.nodup_iff.mpr hnodup)
            fun other hother => hsome other (hperm.mem_iff.mp hother)
          refine ⟨_, hpass, done ++ [address], todo, ?_, ?_, ?_⟩
          · rw [List.append_assoc, List.singleton_append]
          · rw [List.length_append, List.length_singleton]
          · rw [List.reverse_append, List.reverse_singleton,
              List.singleton_append]
  obtain ⟨final, hreturns, done, todo, rfl, hlength, rfl⟩ := hloop
  obtain rfl : todo = [] := by
    rw [List.length_append] at hlength
    exact List.eq_nil_of_length_eq_zero (by omega)
  rw [hreturns, List.append_nil, List.nil_append]

omit [DecidableEq Addr] in
/-- The first loop walks along the list. -/
theorem forRange_next {pointer : Option Addr}
    (hpath : Path heap pointer (initial ++ prev :: rest) none) :
    forRange initial.length
      (fun pointer _ => (load heap pointer).map ListNode.next) pointer =
      some (some prev) := by
  have hloop : ∃ final, forRange initial.length
      (fun pointer _ => (load heap pointer).map ListNode.next) pointer =
        some final ∧
      ∃ done todo, initial ++ prev :: rest = done ++ todo ∧
        done.length = initial.length ∧ final = first todo none := by
    apply forRange_invariant (fun index pointer => ∃ done todo,
      initial ++ prev :: rest = done ++ todo ∧ done.length = index ∧
        pointer = first todo none)
    · exact ⟨[], _, rfl, rfl, hpath.eq_first⟩
    · rintro index pointer hindex ⟨done, todo, hsplit, rfl, rfl⟩
      cases todo with
      | nil =>
          have hlength := congrArg List.length hsplit
          simp only [List.length_append, List.length_cons,
            List.length_nil] at hlength
          omega
      | cons address todo =>
          obtain ⟨node, hnode, hnext⟩ := hpath.node hsplit
          refine ⟨first todo none, ?_, done ++ [address], todo, ?_, ?_, rfl⟩
          · rw [first_cons, load_some, hnode, Option.map_some, hnext]
          · rw [hsplit, List.append_assoc, List.singleton_append]
          · rw [List.length_append, List.length_singleton]
  obtain ⟨final, hreturns, done, todo, hsplit, hlength, rfl⟩ := hloop
  obtain ⟨rfl, rfl⟩ := List.append_inj hsplit.symm hlength
  exact hreturns

end Section

section Between

variable {heap : Heap Addr ℤ} {head : Option Addr} {dummy : Addr}
  (hdummy : heap dummy = none)

include hdummy

omit [DecidableEq Addr] in
theorem dummy_notMem {nodes : List Addr} (hpath : Path heap head nodes none) :
    dummy ∉ nodes := fun hmem =>
  ne_of_isSome (hpath.isSome hmem) hdummy rfl

theorem path_dummy {nodes : List Addr} (hpath : Path heap head nodes none) :
    Path (Function.update heap dummy (some ⟨0, head⟩)) (some dummy)
      (dummy :: nodes) none := by
  refine ⟨rfl, ⟨0, head⟩, Function.update_self _ _ _, ?_⟩
  apply hpath.congr
  intro address hmem
  apply Function.update_of_ne
  rintro rfl
  exact dummy_notMem hdummy hpath hmem

omit hdummy in
/-- The dummy node points to the first node of the order. -/
theorem link_dummy (heap : Heap Addr ℤ) (head : Option Addr)
    {order : List Addr} (hmem : dummy ∉ order) :
    link (Function.update heap dummy (some ⟨0, head⟩)) (dummy :: order) none
      dummy = some ⟨0, first order none⟩ := by
  rw [link, setNext_self, link_of_notMem hmem, Function.update_self,
    Option.map_some]

/-- Without the dummy node only the list is linked anew. -/
theorem update_link_dummy (head : Option Addr) {order : List Addr}
    (hmem : dummy ∉ order) :
    Function.update (link (Function.update heap dummy (some ⟨0, head⟩))
      (dummy :: order) none) dummy none = link heap order none := by
  rw [link, link_update_of_notMem hmem, setNext, Function.update_idem,
    Function.update_idem]
  apply Function.update_eq_self_iff.mpr
  rw [link_of_notMem hmem, hdummy]

/-- The section begins with `start`, and `moving` is the rest of it. -/
theorem reverseBetween_of_moving {before moving after : List Addr}
    {start : Addr} {m n : ℤ}
    (hpath : Path heap head (before ++ start :: (moving ++ after)) none)
    (hm : m = before.length + 1)
    (hn : n = before.length + 1 + moving.length) (hrange : n < 2 ^ 31)
    (hmoving : moving ≠ []) :
    reverseBetween dummy heap head m n =
      some (link heap (before ++ (moving.reverse ++ start :: after)) none,
        first (before ++ (moving.reverse ++ start :: after)) none) := by
  have hmn : ¬(head.isNone ∨ m = n) := by
    have hlength := List.length_pos_of_ne_nil hmoving
    rw [hpath.eq_first, first_append, first_cons]
    cases before <;> simp <;> omega
  have hnotMem := dummy_notMem hdummy hpath
  have hdummyPath := path_dummy hdummy hpath
  -- `prev` is the last node before the section, possibly the dummy node.
  obtain ⟨initial, prev, hsplit⟩ :
      ∃ initial prev, dummy :: before = initial ++ [prev] :=
    ⟨_, _, (List.dropLast_append_getLast (List.cons_ne_nil dummy before)).symm⟩
  have hchain (tail : List Addr) :
      dummy :: (before ++ tail) = initial ++ prev :: tail := by
    rw [← List.cons_append, hsplit, List.append_assoc, List.singleton_append]
  have hinitial : initial.length = before.length := by
    have hlength := congrArg List.length hsplit
    simpa using hlength.symm
  generalize hD : Function.update heap dummy (some ⟨0, head⟩) = D at hdummyPath
  rw [hchain] at hdummyPath
  obtain ⟨prevNode, hprev, hprevNext⟩ := hdummyPath.node rfl
  have hstartSplit : initial ++ prev :: start :: (moving ++ after) =
      (initial ++ [prev]) ++ start :: (moving ++ after) := by
    rw [List.append_assoc, List.singleton_append]
  obtain ⟨startNode, hstart, hstartNext⟩ := hdummyPath.node hstartSplit
  have hwalk := forRange_next hdummyPath
  have hmove := forRange_movePass hdummyPath.nodup
    fun _ hother => hdummyPath.isSome hother
  rw [hdummyPath.link_eq_self] at hmove
  have hfirst : (m - 1).toNat = initial.length := by omega
  have hsecond : (wrap32 (n - m)).toNat = moving.length := by
    rw [wrap32_eq_self (by omega) (by omega)]
    omega
  have hperm : (before ++ (moving.reverse ++ start :: after)).Perm
      (before ++ start :: (moving ++ after)) :=
    (reverse_append_perm start moving after).append_left before
  have hdummyNew : dummy ∉ before ++ (moving.reverse ++ start :: after) :=
    fun hmem => hnotMem (hperm.mem_iff.mp hmem)
  have hdummyNode := link_dummy heap head hdummyNew
  have hdrop := update_link_dummy hdummy head hdummyNew
  rw [hD] at hdummyNode hdrop
  rw [← hchain] at hmove
  rw [reverseBetween, if_neg hmn]
  simp only [hD, hfirst, hwalk, hsecond, hprev, hprevNext, first_cons,
    load_some, hstart, hstartNext, hmove, hdummyNode, hdrop,
    Option.bind_eq_bind, Option.bind_some]
  rfl

theorem reverseBetween_of_split {before moving after : List Addr}
    {start : Addr} {m n : ℤ}
    (hpath : Path heap head (before ++ start :: (moving ++ after)) none)
    (hm : m = before.length + 1)
    (hn : n = before.length + 1 + moving.length) (hrange : n < 2 ^ 31) :
    reverseBetween dummy heap head m n =
      some (link heap (before ++ (moving.reverse ++ start :: after)) none,
        first (before ++ (moving.reverse ++ start :: after)) none) := by
  cases moving with
  | nil =>
      have hmn : m = n := by
        rw [hm, hn]
        simp
      rw [reverseBetween, if_pos (Or.inr hmn)]
      exact congrArg some (Prod.ext hpath.link_eq_self.symm hpath.eq_first)
  | cons second moving =>
      exact reverseBetween_of_moving hdummy hpath hm hn hrange
        (List.cons_ne_nil _ _)

/-- For `1 <= m <= n <= L` no pointer on the way is null, and the nodes from
the `m`-th to the `n`-th stand in the opposite order afterwards; no value and
no other node is changed. -/
theorem reverseBetween_reverses {nodes : List Addr} {m n : ℕ}
    (hpath : Path heap head nodes none) (hm : 1 ≤ m) (hmn : m ≤ n)
    (hn : n ≤ nodes.length) (hrange : n < 2 ^ 31) :
    ∃ rewired newHead,
      reverseBetween dummy heap head m n = some (rewired, newHead) ∧
      Path rewired newHead (nodes.take (m - 1) ++
        ((nodes.drop (m - 1)).take (n - m + 1)).reverse ++ nodes.drop n)
        none ∧
      (∀ address, (rewired address).map ListNode.val =
        (heap address).map ListNode.val) ∧
      ∀ address, address ∉ nodes → rewired address = heap address := by
  obtain ⟨start, tail, htail⟩ : ∃ start tail,
      nodes.drop (m - 1) = start :: tail := by
    apply List.exists_cons_of_length_pos
    rw [List.length_drop]
    omega
  have hnodes : nodes = nodes.take (m - 1) ++ start ::
      (tail.take (n - m) ++ tail.drop (n - m)) := by
    rw [List.take_append_drop, ← htail, List.take_append_drop]
  have hafter : nodes.drop n = tail.drop (n - m) := by
    rw [show n = (m - 1) + (n - m + 1) by omega, ← List.drop_drop, htail,
      List.drop_succ_cons]
    congr 1
    omega
  have horder : nodes.take (m - 1) ++
      ((nodes.drop (m - 1)).take (n - m + 1)).reverse ++ nodes.drop n =
      nodes.take (m - 1) ++ ((tail.take (n - m)).reverse ++ start ::
        tail.drop (n - m)) := by
    rw [htail, List.take_succ_cons, List.reverse_cons, hafter]
    simp only [List.append_assoc, List.singleton_append]
  have hlength : (nodes.take (m - 1)).length = m - 1 := by
    rw [List.length_take]
    omega
  have hmoving : (tail.take (n - m)).length = n - m := by
    have htailLength := congrArg List.length htail
    rw [List.length_drop, List.length_cons] at htailLength
    rw [List.length_take]
    omega
  have hperm : (nodes.take (m - 1) ++ ((tail.take (n - m)).reverse ++
      start :: tail.drop (n - m))).Perm nodes := by
    conv_rhs => rw [hnodes]
    exact (reverse_append_perm start _ _).append_left _
  refine ⟨_, _, reverseBetween_of_split hdummy (hnodes ▸ hpath) ?_ ?_ ?_,
    ?_, val_link _ _ _, ?_⟩
  · rw [hlength]
    omega
  · rw [hlength, hmoving]
    omega
  · omega
  · rw [horder]
    exact path_link_perm hpath hperm
  · intro address hmem
    exact link_of_notMem fun horder => hmem (hperm.mem_iff.mp horder)

end Between

theorem reverseBetween_reverses_three :
    ∃ rewired newHead,
      reverseBetween 0 threeNodes (some 10) 1 3 = some (rewired, newHead) ∧
      Path rewired newHead [30, 20, 10] none ∧
      (∀ address, (rewired address).map ListNode.val =
        (threeNodes address).map ListNode.val) ∧
      ∀ address, address ∉ [10, 20, 30] →
        rewired address = threeNodes address :=
  reverseBetween_reverses (m := 1) (n := 3) rfl path_threeNodes (by decide)
    (by decide) (by decide) (by decide)

end KataCpp.LinkedListReversal
