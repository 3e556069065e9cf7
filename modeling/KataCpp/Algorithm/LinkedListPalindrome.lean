import KataCpp.Core.Iteration
import KataCpp.Core.LinkedList

/-!
# Palindromes in a linked list

`isPalindrome` walks through a list with a slow and a fast pointer.  While the
fast pointer takes two steps at a time, the pointers of the nodes that the slow
one leaves are turned round, so that the first half can be compared with the
second one from the middle outwards.

The first half is left turned round: from the head only the first node can be
reached afterwards.
-/

namespace KataCpp.LinkedListPalindrome

open Iteration LinkedList

variable {Addr : Type} [DecidableEq Addr]

structure Halves (Addr : Type) where
  heap : Heap Addr ℤ
  prev : Option Addr
  slow : Option Addr
  fast : Option Addr

/-- The body of the first loop; `fastNext` is `fast->next`. -/
def halve (halves : Halves Addr) (fastNext : Option Addr) :
    Option (Halves Addr) := do
  let second ← load halves.heap fastNext
  let slowNode ← load halves.heap halves.slow
  let heap ← store halves.heap halves.slow halves.prev
  return ⟨heap, halves.slow, slowNode.next, second.next⟩

/-- A pass of the first loop, `while (fast && fast->next)`. -/
def halvePass (halves : Halves Addr) : Outcome (Halves Addr) (Halves Addr) :=
  if halves.fast.isNone then .exit halves
  else
    match load halves.heap halves.fast with
    | none => .fault
    | some fastNode =>
        if fastNode.next.isNone then .exit halves
        else
          match halve halves fastNode.next with
          | none => .fault
          | some next => .next next

/-- A pass of the second loop, on `prev` and `slow`. -/
def comparePass (heap : Heap Addr ℤ) (state : Option Addr × Option Addr) :
    Outcome (Option Addr × Option Addr) Bool :=
  if state.2.isNone then .exit true
  else
    match load heap state.2, load heap state.1 with
    | some slowNode, some prevNode =>
        if slowNode.val ≠ prevNode.val then .exit false
        else .next (prevNode.next, slowNode.next)
    | _, _ => .fault

/-- The function behind its first loop. -/
def compareHalves (halves : Halves Addr) (fuel : ℕ) :
    Option (Heap Addr ℤ × Bool) := do
  let slow ← if halves.fast.isSome then
      (load halves.heap halves.slow).map ListNode.next
    else some halves.slow
  let result ← loop (comparePass halves.heap) fuel (halves.prev, slow)
  return (halves.heap, result)

/-- The heap after the call, and the result. -/
def isPalindrome (heap : Heap Addr ℤ) (head : Option Addr) (fuel : ℕ) :
    Option (Heap Addr ℤ × Bool) := do
  let halves ← loop halvePass fuel ⟨heap, none, head, head⟩
  compareHalves halves fuel

section Compare

variable {heap : Heap Addr ℤ}

omit [DecidableEq Addr] in
/-- The second loop compares two lists of the same length. -/
theorem compare_returns {left right : List Addr} {prev slow : Option Addr}
    (hleft : Path heap prev left none) (hright : Path heap slow right none)
    (hlength : left.length = right.length) :
    Returns (loop (comparePass heap) · (prev, slow))
      (decide (values heap right = values heap left)) := by
  induction right generalizing left prev slow with
  | nil =>
      obtain rfl := List.eq_nil_of_length_eq_zero hlength
      obtain rfl : slow = none := hright
      exact returns_of_exit rfl
  | cons address right ih =>
      cases left with
      | nil => exact absurd hlength (by simp)
      | cons other left =>
          obtain ⟨rfl, slowNode, hslow, hright⟩ := hright
          obtain ⟨rfl, prevNode, hprev, hleft⟩ := hleft
          have hrest := ih hleft hright (Nat.succ.inj hlength)
          rw [values_cons hslow, values_cons hprev]
          have hpass : comparePass heap (some other, some address) =
              if slowNode.val ≠ prevNode.val then .exit false
              else .next (prevNode.next, slowNode.next) := by
            simp [comparePass, hslow, hprev]
          by_cases hval : slowNode.val = prevNode.val
          · rw [if_neg (not_not_intro hval)] at hpass
            simp only [hval, List.cons.injEq, true_and]
            exact returns_of_next hpass hrest
          · rw [if_pos hval] at hpass
            simp only [hval, List.cons.injEq, false_and, decide_false]
            exact returns_of_exit hpass

end Compare

/-! ## Turning the first half round -/

/-- The variables when the nodes `done` have been turned round. -/
def halved (heap : Heap Addr ℤ) (done rest : List Addr) : Halves Addr :=
  ⟨link heap done.reverse none, first done.reverse none, first rest none,
    first (rest.drop done.length) none⟩

section Halve

variable {heap : Heap Addr ℤ} {head : Option Addr}
  {nodes done rest : List Addr}

/-- The nodes that have not been turned round hold what they held. -/
theorem link_reverse_node {left right : List Addr} {address : Addr}
    (hpath : Path heap head (done ++ rest) none)
    (hsplit : rest = left ++ address :: right) :
    ∃ node, link heap done.reverse none address = some node ∧
      node.next = first right none := by
  have hwhole : done ++ rest = (done ++ left) ++ address :: right := by
    rw [hsplit, List.append_assoc]
  obtain ⟨node, hnode, hnext⟩ := hpath.node hwhole
  refine ⟨node, ?_, hnext⟩
  rw [link_of_notMem, hnode]
  have hdisjoint := List.disjoint_of_nodup_append hpath.nodup
  intro hmem
  apply hdisjoint (List.mem_reverse.mp hmem)
  rw [hsplit]
  simp

theorem halvePass_next {address fast second : Addr} {tail : List Addr}
    (hpath : Path heap head (done ++ address :: rest) none)
    (hfast : (address :: rest).drop done.length = fast :: second :: tail) :
    halvePass (halved heap done (address :: rest)) =
      .next (halved heap (done ++ [address]) rest) := by
  have hsplit := List.take_append_drop done.length (address :: rest)
  rw [hfast] at hsplit
  have hsecondSplit : address :: rest =
      ((address :: rest).take done.length ++ [fast]) ++ second :: tail := by
    rw [List.append_assoc, List.singleton_append, hsplit]
  have hdrop : rest.drop (done.length + 1) = tail := by
    have htail := congrArg (List.drop 2) hfast
    rw [List.drop_drop] at htail
    simpa using htail
  obtain ⟨slowNode, hslow, hslowNext⟩ :=
    link_reverse_node hpath (List.nil_append _).symm
  obtain ⟨fastNode, hfastNode, hfastNext⟩ :=
    link_reverse_node hpath hsplit.symm
  obtain ⟨secondNode, hsecond, hsecondNext⟩ :=
    link_reverse_node hpath hsecondSplit
  have hstore : store (link heap done.reverse none) (some address)
      (first done.reverse none) =
        some (link heap (address :: done.reverse) none) :=
    store_some (Option.isSome_iff_exists.mpr ⟨slowNode, hslow⟩)
  simp only [halvePass, halve, halved, hfast, first_cons, load_some,
    hfastNode, hfastNext, hsecond, hslow, hstore, hslowNext, hsecondNext,
    Option.isNone_some, Bool.false_eq_true, if_false, Option.bind_eq_bind,
    Option.bind_some, List.reverse_append, List.reverse_singleton,
    List.singleton_append, List.length_append, List.length_singleton, hdrop]
  rfl

theorem halvePass_exit (hpath : Path heap head (done ++ rest) none)
    (hlength : (rest.drop done.length).length ≤ 1) :
    halvePass (halved heap done rest) = .exit (halved heap done rest) := by
  match hfast : rest.drop done.length with
  | [] =>
      simp only [halvePass, halved, hfast, first_nil, Option.isNone_none,
        if_true]
  | [fast] =>
      have hsplit := List.take_append_drop done.length rest
      rw [hfast] at hsplit
      obtain ⟨fastNode, hfastNode, hnext⟩ :=
        link_reverse_node hpath hsplit.symm
      simp only [halvePass, halved, hfast, first_cons, load_some, hfastNode,
        hnext, first_nil, Option.isNone_some, Bool.false_eq_true, if_false,
        Option.isNone_none, if_true]
  | _ :: _ :: _ =>
      rw [hfast] at hlength
      exact absurd hlength (by simp)

/-- The first loop stops in the middle of the list. -/
theorem halve_returns (hpath : Path heap head nodes none) :
    ∃ done rest, nodes = done ++ rest ∧ done.length ≤ rest.length ∧
      rest.length ≤ done.length + 1 ∧
      Returns (loop halvePass · ⟨heap, none, head, head⟩)
        (halved heap done rest) := by
  have hloop : ∃ result,
      Returns (loop halvePass · ⟨heap, none, head, head⟩) result ∧
      ∃ done rest, nodes = done ++ rest ∧ done.length ≤ rest.length ∧
        rest.length ≤ done.length + 1 ∧ result = halved heap done rest := by
    refine loop_returns (fun (variant : ℕ) halves => ∃ done rest,
      nodes = done ++ rest ∧ done.length ≤ rest.length ∧
        variant = rest.length ∧ halves = halved heap done rest) ?_
      ⟨[], nodes, rfl, Nat.zero_le _, rfl, ?_⟩
    · rintro variant halves ⟨done, rest, rfl, hle, rfl, rfl⟩
      rcases Nat.lt_or_ge (done.length + 1) rest.length with hlt | hge
      · left
        match hfast : rest.drop done.length with
        | [] | [_] =>
            have hlength := congrArg List.length hfast
            rw [List.length_drop] at hlength
            simp only [List.length_nil, List.length_singleton] at hlength
            omega
        | fast :: second :: tail =>
            cases rest with
            | nil => exact absurd hlt (Nat.not_lt_zero _)
            | cons address rest =>
                refine ⟨rest.length, _, halvePass_next hpath hfast, by simp,
                  done ++ [address], rest, by simp, ?_, rfl, rfl⟩
                rw [List.length_cons] at hlt
                rw [List.length_append, List.length_singleton]
                omega
      · right
        refine ⟨_, halvePass_exit hpath ?_, done, rest, rfl, hle, hge, rfl⟩
        rw [List.length_drop]
        omega
    · rw [halved, ← hpath.eq_first]
      simp only [List.length_nil, List.drop_zero, ← hpath.eq_first]
      rfl
  obtain ⟨result, hreturns, done, rest, hnodes, hle, hge, rfl⟩ := hloop
  exact ⟨done, rest, hnodes, hle, hge, hreturns⟩

end Halve

section Result

variable {heap : Heap Addr ℤ} {head : Option Addr} {nodes : List Addr}

theorem reverse_of_length_le_one {α : Type*} {list : List α}
    (hlength : list.length ≤ 1) : list.reverse = list := by
  match list, hlength with
  | [], _ => rfl
  | [x], _ => rfl

/-- A list with a middle of at most one element. -/
theorem reverse_eq_iff_halves {α : Type*} {left middle right : List α}
    (hlength : left.length = right.length) (hmiddle : middle.length ≤ 1) :
    (left ++ (middle ++ right)).reverse = left ++ (middle ++ right) ↔
      right = left.reverse := by
  rw [List.reverse_append, List.reverse_append,
    reverse_of_length_le_one hmiddle, List.append_assoc]
  constructor
  · intro hwhole
    have hleft := (List.append_inj hwhole (by simpa using hlength.symm)).1
    rw [← hleft, List.reverse_reverse]
  · rintro rfl
    rw [List.reverse_reverse]

/-- `if(fast) slow = slow->next` leaves out the middle node of a list of odd
length. -/
theorem exists_second {done rest : List Addr}
    (hpath : Path heap head (done ++ rest) none)
    (hle : done.length ≤ rest.length) (hge : rest.length ≤ done.length + 1) :
    ∃ middle second, rest = middle ++ second ∧ middle.length ≤ 1 ∧
      second.length = done.length ∧
      compareHalves (halved heap done rest) = fun fuel =>
        (loop (comparePass (link heap done.reverse none)) fuel
          (first done.reverse none, first second none)).bind fun result =>
            some (link heap done.reverse none, result) := by
  rcases hle.eq_or_lt with heven | hodd
  · refine ⟨[], rest, rfl, Nat.zero_le 1, heven.symm, ?_⟩
    have hdrop : rest.drop done.length = [] :=
      List.drop_of_length_le heven.ge
    funext fuel
    simp only [compareHalves, halved, hdrop, first_nil, Option.isSome_none,
      Bool.false_eq_true, if_false, Option.bind_eq_bind, Option.bind_some]
    rfl
  · cases rest with
    | nil => exact absurd hodd (Nat.not_lt_zero _)
    | cons middle second =>
        rw [List.length_cons] at hodd hge
        refine ⟨[middle], second, rfl, le_rfl, by omega, ?_⟩
        obtain ⟨last, hlast⟩ : ∃ last,
            (middle :: second).drop done.length = [last] := by
          apply List.length_eq_one_iff.mp
          rw [List.length_drop, List.length_cons]
          omega
        obtain ⟨node, hnode, hnext⟩ :=
          link_reverse_node hpath (List.nil_append _).symm
        funext fuel
        simp only [compareHalves, halved, hlast, first_cons,
          Option.isSome_some, if_true, load_some, hnode, Option.map_some,
          hnext, Option.bind_eq_bind, Option.bind_some]
        rfl

/-- What the second loop compares, in terms of the whole list. -/
theorem values_halves_iff {done middle second : List Addr}
    (hpath : Path heap head (done ++ (middle ++ second)) none)
    (hmiddle : middle.length ≤ 1) (hsecond : second.length = done.length) :
    values (link heap done.reverse none) second =
        values (link heap done.reverse none) done.reverse ↔
      (values heap (done ++ (middle ++ second))).reverse =
        values heap (done ++ (middle ++ second)) := by
  have hsome {part : List Addr} (hpart : part ⊆ done ++ (middle ++ second)) :
      ∀ address ∈ part, (heap address).isSome := fun _ hmem =>
    hpath.isSome (hpart hmem)
  have hdone := length_values (hsome (List.subset_append_left _ _))
  have hmiddleLength : (values heap middle).length = middle.length :=
    length_values (hsome (by simp))
  have hsecondLength : (values heap second).length = second.length :=
    length_values (hsome (by simp))
  rw [values_link, values_link, values_reverse, values_append, values_append,
    reverse_eq_iff_halves]
  · rw [hdone, hsecondLength, hsecond]
  · rwa [hmiddleLength]

/-- The result, and the heap that the call leaves behind. -/
theorem isPalindrome_returns (hpath : Path heap head nodes none) :
    Returns (isPalindrome heap head)
      (link heap (nodes.take (nodes.length / 2)).reverse none,
        decide ((values heap nodes).reverse = values heap nodes)) := by
  obtain ⟨done, rest, rfl, hle, hge, hhalves⟩ := halve_returns hpath
  obtain ⟨middle, second, rfl, hmiddle, hsecond, hcall⟩ :=
    exists_second hpath hle hge
  have htake : (done ++ (middle ++ second)).take
      ((done ++ (middle ++ second)).length / 2) = done := by
    apply List.take_left'
    simp only [List.length_append] at hle hge ⊢
    omega
  have hdisjoint := List.disjoint_of_nodup_append hpath.nodup
  -- Both halves are lists in the heap that the first loop leaves.
  have hleft : Path (link heap done.reverse none) (first done.reverse none)
      done.reverse none := by
    apply path_link (List.nodup_reverse.mpr hpath.nodup.of_append_left)
    intro address hmem
    exact hpath.isSome (List.mem_append_left _ (List.mem_reverse.mp hmem))
  have hright : Path (link heap done.reverse none) (first second none)
      second none := by
    apply (path_append_iff.mp (path_append_iff.mp hpath).2).2.congr
    intro address hmem
    apply link_of_notMem
    intro hreverse
    exact hdisjoint (List.mem_reverse.mp hreverse)
      (List.mem_append_right _ hmem)
  have hcompare := compare_returns hleft hright
    (by rw [List.length_reverse, hsecond])
  simp only [values_halves_iff hpath hmiddle hsecond] at hcompare
  rw [htake]
  apply hhalves.bind
  rw [hcall]
  exact hcompare.bind (returns_some _)

/-- The function returns, and its result says whether the values read the same
in both directions. -/
theorem isPalindrome_iff_reverse (hpath : Path heap head nodes none) :
    ∃ left result, Returns (isPalindrome heap head) (left, result) ∧
      (result = true ↔ (values heap nodes).reverse = values heap nodes) :=
  ⟨_, _, isPalindrome_returns hpath, decide_eq_true_iff⟩

/-- From the head only the first node can be reached after the call. -/
theorem path_head_link (hpath : Path heap head nodes none) :
    Path (link heap (nodes.take (nodes.length / 2)).reverse none) head
      (nodes.take 1) none := by
  match nodes, hpath with
  | [], hpath => exact hpath
  | [address], hpath =>
      have hhalf : [address].length / 2 = 0 := by simp
      rw [hhalf]
      exact hpath
  | address :: second :: rest, hpath =>
      obtain ⟨half, hhalf⟩ : ∃ half, (address :: second :: rest).take
          ((address :: second :: rest).length / 2) = address :: half := by
        have hcount : (address :: second :: rest).length / 2 =
            rest.length / 2 + 1 := Nat.add_div_right _ two_pos
        rw [hcount]
        exact ⟨_, List.take_succ_cons⟩
      have hnodup := hpath.nodup.sublist (List.take_sublist
        ((address :: second :: rest).length / 2) _)
      rw [hhalf] at hnodup ⊢
      have hnotMem : address ∉ half.reverse := by
        rw [List.mem_reverse]
        exact (List.nodup_cons.mp hnodup).1
      obtain ⟨node, hnode⟩ := Option.isSome_iff_exists.mp
        (hpath.isSome List.mem_cons_self)
      refine ⟨hpath.1, { node with next := none }, ?_, rfl⟩
      rw [List.reverse_cons, link_append, link_of_notMem hnotMem, link,
        setNext_self, link, hnode]
      rfl

/-- What the call leaves behind: the first half is linked in the opposite order
and nothing else is changed, so that the list has shrunk to its first node and
every further call returns true. -/
theorem isPalindrome_leaves (hpath : Path heap head nodes none) :
    ∃ left result, Returns (isPalindrome heap head) (left, result) ∧
      Path left (first (nodes.take (nodes.length / 2)).reverse none)
        (nodes.take (nodes.length / 2)).reverse none ∧
      (∀ address, address ∉ nodes.take (nodes.length / 2) →
        left address = heap address) ∧
      (∀ address, (left address).map ListNode.val =
        (heap address).map ListNode.val) ∧
      Path left head (nodes.take 1) none ∧
      (Path left head nodes none ↔ nodes.length ≤ 1) ∧
      Returns (isPalindrome left head) (left, true) := by
  have hfirst := path_head_link hpath
  refine ⟨_, _, isPalindrome_returns hpath, ?_, ?_, val_link _ _ _, hfirst,
    ?_, ?_⟩
  · apply path_link
    · exact List.nodup_reverse.mpr
        (hpath.nodup.sublist (List.take_sublist _ _))
    · intro address hmem
      exact hpath.isSome (List.mem_of_mem_take (List.mem_reverse.mp hmem))
  · intro address hmem
    exact link_of_notMem fun hreverse => hmem (List.mem_reverse.mp hreverse)
  · constructor
    · intro hwhole
      rw [hwhole.unique hfirst]
      exact List.length_take_le 1 nodes
    · intro hlength
      rwa [List.take_of_length_le hlength] at hfirst
  · have hagain := isPalindrome_returns hfirst
    have hlength : (nodes.take 1).length ≤ 1 := List.length_take_le 1 nodes
    have hvalues := length_values fun _ hmem => hfirst.isSome hmem
    have hreverse := reverse_of_length_le_one (hvalues.trans_le hlength)
    have hhalf : (nodes.take 1).length / 2 = 0 := by omega
    rw [decide_eq_true hreverse, hhalf] at hagain
    exact hagain

end Result

/-- The nodes `1 -> 2` of a list at the addresses 10 and 20. -/
def twoNodes : Heap ℕ ℤ
  | 10 => some ⟨1, some 20⟩
  | 20 => some ⟨2, none⟩
  | _ => none

theorem path_twoNodes : Path twoNodes (some 10) [10, 20] none :=
  ⟨rfl, _, rfl, rfl, _, rfl, rfl⟩

theorem isPalindrome_iff_reverse_two :
    ∃ left result, Returns (isPalindrome twoNodes (some 10)) (left, result) ∧
      (result = true ↔ (values twoNodes [10, 20]).reverse =
        values twoNodes [10, 20]) :=
  isPalindrome_iff_reverse path_twoNodes

theorem isPalindrome_leaves_two :
    ∃ left result, Returns (isPalindrome twoNodes (some 10)) (left, result) ∧
      Path left (some 10) [10] none ∧
      (∀ address, address ∉ [10] → left address = twoNodes address) ∧
      (∀ address, (left address).map ListNode.val =
        (twoNodes address).map ListNode.val) ∧
      Path left (some 10) [10] none ∧
      (Path left (some 10) [10, 20] none ↔ 2 ≤ 1) ∧
      Returns (isPalindrome left (some 10)) (left, true) :=
  isPalindrome_leaves path_twoNodes

/-- The list is not left as it was found, and the second answer differs. -/
theorem isPalindrome_two_changed :
    ¬∃ left result, Returns (isPalindrome twoNodes (some 10)) (left, result) ∧
      Path left (some 10) [10, 20] none ∧
      ∃ again, Returns (isPalindrome left (some 10)) (again, result) := by
  rintro ⟨left, result, hreturns, hpath, -⟩
  obtain ⟨rfl, -⟩ := Prod.mk.inj
    (hreturns.unique (isPalindrome_returns path_twoNodes))
  have hfirst := path_head_link path_twoNodes
  exact absurd (hpath.unique hfirst) (by decide)

end KataCpp.LinkedListPalindrome
