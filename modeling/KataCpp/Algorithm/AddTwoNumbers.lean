import KataCpp.Core.Iteration
import KataCpp.Core.LinkedList
import KataCpp.Core.MachineInt

/-!
# Adding numbers digit by digit

`addTwoNumbers` adds two numbers whose decimal digits are stored in linked
lists, the least significant digit first.  Every pass of its loop appends one
new node to the result; the loop goes on as long as one of the lists has a
digit left or there is a carry.

`addDigits` is the addition of two lists of digits.  The nodes that the program
appends hold the digits that it gives.
-/

namespace KataCpp.AddTwoNumbers

open Iteration LinkedList MachineInt

section Code

variable {Addr : Type} [DecidableEq Addr]

/-- The variables of the loop; `count` nodes have been allocated. -/
structure Addition (Addr : Type) where
  heap : Heap Addr ℤ
  count : ℕ
  l1 : Option Addr
  l2 : Option Addr
  cur : Option Addr
  carry : ℤ

/-- `l ? l->val : 0` -/
def digit (heap : Heap Addr ℤ) (l : Option Addr) : Option ℤ :=
  if l.isSome then (load heap l).map ListNode.val else some 0

/-- `if(l) l = l->next;` -/
def advance (heap : Heap Addr ℤ) (l : Option Addr) : Option (Option Addr) :=
  if l.isSome then (load heap l).map ListNode.next else some l

/-- The body of the loop.  The addresses that `new` gives are those of
`fresh`, one after the other. -/
def addPass (fresh : ℕ → Addr) (addition : Addition Addr) :
    Option (Addition Addr) := do
  let x ← digit addition.heap addition.l1
  let y ← digit addition.heap addition.l2
  let sum := wrap32 (wrap32 (x + y) + addition.carry)
  let node := fresh addition.count
  let heap := Function.update addition.heap node (some ⟨sum.tmod 10, none⟩)
  let heap ← store heap addition.cur (some node)
  let l1 ← advance heap addition.l1
  let l2 ← advance heap addition.l2
  return ⟨heap, addition.count + 1, l1, l2, some node, sum.tdiv 10⟩

/-- The node `head` stands on the stack and is gone after the call. -/
def addTwoNumbers (head : Addr) (fresh : ℕ → Addr) (heap : Heap Addr ℤ)
    (l1 l2 : Option Addr) (fuel : ℕ) :
    Option (Heap Addr ℤ × Option Addr) := do
  let final ← whileLoop (fun addition : Addition Addr =>
      addition.l1.isSome ∨ addition.l2.isSome ∨ addition.carry ≠ 0)
    (addPass fresh) fuel
    ⟨Function.update heap head (some ⟨0, none⟩), 0, l1, l2, some head, 0⟩
  let headNode ← load final.heap (some head)
  return (Function.update final.heap head none, headNode.next)

end Code

/-- The number that a list of digits stands for. -/
def number : List ℤ → ℤ
  | [] => 0
  | digit :: digits => digit + 10 * number digits

def IsDigit (value : ℤ) : Prop := 0 ≤ value ∧ value ≤ 9

instance : DecidablePred IsDigit := fun value =>
  inferInstanceAs (Decidable (0 ≤ value ∧ value ≤ 9))

/-- The single digit zero, or digits of which the last one is not zero. -/
def Canonical (digits : List ℤ) : Prop :=
  digits = [0] ∨ ∃ initial last, digits = initial ++ [last] ∧ last ≠ 0

/-- Addition with a carry; a list that has come to its end goes on with
zeros. -/
def addDigits (left right : List ℤ) (carry : ℤ) : List ℤ :=
  if left = [] ∧ right = [] then
    if carry = 0 then [] else [carry]
  else
    (left.headD 0 + right.headD 0 + carry) % 10 ::
      addDigits left.tail right.tail
        ((left.headD 0 + right.headD 0 + carry) / 10)
termination_by left.length + right.length
decreasing_by
  rename_i hnil
  cases left with
  | nil =>
      cases right with
      | nil => exact absurd ⟨rfl, rfl⟩ hnil
      | cons digit right => simp
  | cons digit left =>
      simp only [List.tail_cons, List.length_tail, List.length_cons]
      omega

section Digits

variable {left right digits : List ℤ} {carry : ℤ}

theorem addDigits_nil (carry : ℤ) :
    addDigits [] [] carry = if carry = 0 then [] else [carry] := by
  rw [addDigits, if_pos ⟨rfl, rfl⟩]

theorem addDigits_of_not (hnil : ¬(left = [] ∧ right = [])) :
    addDigits left right carry =
      (left.headD 0 + right.headD 0 + carry) % 10 ::
        addDigits left.tail right.tail
          ((left.headD 0 + right.headD 0 + carry) / 10) := by
  rw [addDigits, if_neg hnil]

theorem number_eq_headD (digits : List ℤ) :
    number digits = digits.headD 0 + 10 * number digits.tail := by
  cases digits <;> rfl

theorem number_addDigits (left right : List ℤ) (carry : ℤ) :
    number (addDigits left right carry) =
      number left + number right + carry := by
  induction left, right, carry using addDigits.induct with
  | case1 left right hnil =>
      obtain ⟨rfl, rfl⟩ := hnil
      rw [addDigits_nil, if_pos rfl]
      rfl
  | case2 left right carry hnil hcarry =>
      obtain ⟨rfl, rfl⟩ := hnil
      rw [addDigits_nil, if_neg hcarry]
      simp [number]
  | case3 left right carry hnil ih =>
      rw [addDigits_of_not hnil, number, ih, number_eq_headD left,
        number_eq_headD right]
      omega

theorem isDigit_headD (hdigits : ∀ digit ∈ digits, IsDigit digit) :
    IsDigit (digits.headD 0) := by
  cases digits with
  | nil => exact ⟨le_rfl, by decide⟩
  | cons digit digits => exact hdigits digit List.mem_cons_self

theorem isDigit_tail (hdigits : ∀ digit ∈ digits, IsDigit digit) :
    ∀ digit ∈ digits.tail, IsDigit digit := fun digit hdigit =>
  hdigits digit (List.mem_of_mem_tail hdigit)

/-- The carry is zero or one. -/
theorem carry_le {x y : ℤ} (hx : IsDigit x) (hy : IsDigit y)
    (hcarry : 0 ≤ carry ∧ carry ≤ 1) :
    0 ≤ (x + y + carry) / 10 ∧ (x + y + carry) / 10 ≤ 1 := by
  rw [IsDigit] at hx hy
  omega

theorem isDigit_addDigits (hleft : ∀ digit ∈ left, IsDigit digit)
    (hright : ∀ digit ∈ right, IsDigit digit)
    (hcarry : 0 ≤ carry ∧ carry ≤ 1) :
    ∀ digit ∈ addDigits left right carry, IsDigit digit := by
  induction left, right, carry using addDigits.induct with
  | case1 left right hnil =>
      obtain ⟨rfl, rfl⟩ := hnil
      rw [addDigits_nil, if_pos rfl]
      simp
  | case2 left right carry hnil hnonzero =>
      obtain ⟨rfl, rfl⟩ := hnil
      rw [addDigits_nil, if_neg hnonzero]
      intro digit hdigit
      rw [List.mem_singleton.mp hdigit]
      exact ⟨hcarry.1, by omega⟩
  | case3 left right carry hnil ih =>
      rw [addDigits_of_not hnil]
      intro digit hdigit
      rcases List.mem_cons.mp hdigit with rfl | hdigit
      · rw [IsDigit]
        omega
      · exact ih (isDigit_tail hleft) (isDigit_tail hright)
          (carry_le (isDigit_headD hleft) (isDigit_headD hright) hcarry) digit
          hdigit

/-- No digit at all, or a last digit other than zero. -/
def EndsNonzero (digits : List ℤ) : Prop :=
  ∀ last ∈ digits.getLast?, last ≠ 0

theorem EndsNonzero.tail (hends : EndsNonzero digits) :
    EndsNonzero digits.tail := by
  match digits with
  | [] => exact hends
  | [digit] => simp [EndsNonzero]
  | digit :: second :: digits =>
      intro last hlast
      apply hends last
      rwa [List.getLast?_cons_cons]

theorem EndsNonzero.cons {digit : ℤ} (hends : EndsNonzero digits)
    (hdigit : digits = [] → digit ≠ 0) : EndsNonzero (digit :: digits) := by
  cases digits with
  | nil =>
      intro last hlast
      rw [List.getLast?_singleton, Option.mem_some_iff] at hlast
      exact hlast ▸ hdigit rfl
  | cons second digits =>
      intro last hlast
      rw [List.getLast?_cons_cons] at hlast
      exact hends last hlast

theorem headD_ne_zero (hends : EndsNonzero digits) (htail : digits.tail = [])
    (hnil : digits ≠ []) : digits.headD 0 ≠ 0 := by
  match digits with
  | [] => exact absurd rfl hnil
  | [digit] => exact hends digit rfl
  | digit :: second :: digits => exact absurd htail (List.cons_ne_nil _ _)

theorem addDigits_eq_nil_iff :
    addDigits left right carry = [] ↔ left = [] ∧ right = [] ∧ carry = 0 := by
  by_cases hnil : left = [] ∧ right = []
  · obtain ⟨rfl, rfl⟩ := hnil
    simp [addDigits_nil]
  · rw [addDigits_of_not hnil]
    exact iff_of_false (List.cons_ne_nil _ _) fun h => hnil ⟨h.1, h.2.1⟩

/-- A pass of the loop, also behind the last digits. -/
theorem addDigits_eq_cons (hcarry : 0 ≤ carry ∧ carry ≤ 1)
    (hgoes : ¬(left = [] ∧ right = [] ∧ carry = 0)) :
    addDigits left right carry =
      (left.headD 0 + right.headD 0 + carry) % 10 ::
        addDigits left.tail right.tail
          ((left.headD 0 + right.headD 0 + carry) / 10) := by
  by_cases hnil : left = [] ∧ right = []
  · obtain ⟨rfl, rfl⟩ := hnil
    obtain rfl : carry = 1 := by
      have hnonzero : carry ≠ 0 := fun hzero => hgoes ⟨rfl, rfl, hzero⟩
      omega
    simp [addDigits_nil]
  · exact addDigits_of_not hnil

/-- The sum does not end in a zero that the summands do not have. -/
theorem endsNonzero_addDigits (hleft : ∀ digit ∈ left, IsDigit digit)
    (hright : ∀ digit ∈ right, IsDigit digit)
    (hcarry : 0 ≤ carry ∧ carry ≤ 1) (hleftEnds : EndsNonzero left)
    (hrightEnds : EndsNonzero right) :
    EndsNonzero (addDigits left right carry) := by
  induction left, right, carry using addDigits.induct with
  | case1 left right hnil =>
      obtain ⟨rfl, rfl⟩ := hnil
      rw [addDigits_nil, if_pos rfl]
      exact hleftEnds
  | case2 left right carry hnil hnonzero =>
      obtain ⟨rfl, rfl⟩ := hnil
      rw [addDigits_nil, if_neg hnonzero]
      exact hleftEnds.cons fun _ => hnonzero
  | case3 left right carry hnil ih =>
      rw [addDigits_of_not hnil]
      have hx := isDigit_headD hleft
      have hy := isDigit_headD hright
      apply (ih (isDigit_tail hleft) (isDigit_tail hright)
        (carry_le hx hy hcarry) hleftEnds.tail hrightEnds.tail).cons
      intro hend
      obtain ⟨hleftTail, hrightTail, hquotient⟩ :=
        addDigits_eq_nil_iff.mp hend
      -- Without a further carry the last digit is at least each summand's.
      have hpositive : left.headD 0 ≠ 0 ∨ right.headD 0 ≠ 0 := by
        by_cases hleftNil : left = []
        · exact Or.inr (headD_ne_zero hrightEnds hrightTail
            fun hrightNil => hnil ⟨hleftNil, hrightNil⟩)
        · exact Or.inl (headD_ne_zero hleftEnds hleftTail hleftNil)
      rw [IsDigit] at hx hy
      omega

theorem canonical_iff :
    Canonical digits ↔ digits = [0] ∨ digits ≠ [] ∧ EndsNonzero digits := by
  refine or_congr Iff.rfl ⟨?_, ?_⟩
  · rintro ⟨initial, last, rfl, hlast⟩
    refine ⟨by simp, ?_⟩
    simpa [EndsNonzero] using hlast
  · rintro ⟨hnil, hends⟩
    refine ⟨digits.dropLast, digits.getLast hnil,
      (List.dropLast_append_getLast hnil).symm, ?_⟩
    exact hends _ (List.getLast?_eq_some_getLast hnil)

/-- A zero adds nothing, not even a digit. -/
theorem addDigits_zero_left (hright : right ≠ []) :
    addDigits [0] right 0 = addDigits [] right 0 := by
  have hzero : addDigits [0] right 0 = _ := addDigits_of_not (by simp)
  have hnone : addDigits [] right 0 = _ :=
    addDigits_of_not fun hnil => hright hnil.2
  exact hzero.trans hnone.symm

theorem addDigits_zero_right (hleft : left ≠ []) :
    addDigits left [0] 0 = addDigits left [] 0 := by
  have hzero : addDigits left [0] 0 = _ := addDigits_of_not (by simp)
  have hnone : addDigits left [] 0 = _ :=
    addDigits_of_not fun hnil => hleft hnil.1
  exact hzero.trans hnone.symm

theorem canonical_of_endsNonzero (hleft : ∀ digit ∈ left, IsDigit digit)
    (hright : ∀ digit ∈ right, IsDigit digit) (hleftEnds : EndsNonzero left)
    (hrightEnds : EndsNonzero right) (hnil : ¬(left = [] ∧ right = [])) :
    Canonical (addDigits left right 0) := by
  refine canonical_iff.mpr (Or.inr ⟨?_, ?_⟩)
  · intro hempty
    obtain ⟨hleftNil, hrightNil, -⟩ := addDigits_eq_nil_iff.mp hempty
    exact hnil ⟨hleftNil, hrightNil⟩
  · exact endsNonzero_addDigits hleft hright ⟨le_rfl, zero_le_one⟩ hleftEnds
      hrightEnds

theorem canonical_addDigits (hleft : ∀ digit ∈ left, IsDigit digit)
    (hright : ∀ digit ∈ right, IsDigit digit) (hleftCanonical : Canonical left)
    (hrightCanonical : Canonical right) :
    Canonical (addDigits left right 0) := by
  have hempty : EndsNonzero [] := by simp [EndsNonzero]
  have hnone : ∀ digit ∈ ([] : List ℤ), IsDigit digit := by simp
  rcases canonical_iff.mp hleftCanonical with rfl | ⟨hleftNil, hleftEnds⟩
  · rcases canonical_iff.mp hrightCanonical with
      rfl | ⟨hrightNil, hrightEnds⟩
    · left
      rw [addDigits_of_not (by simp)]
      exact congrArg (List.cons 0) (addDigits_nil 0)
    · rw [addDigits_zero_left hrightNil]
      exact canonical_of_endsNonzero hnone hright hempty hrightEnds
        fun hnil => hrightNil hnil.2
  · rcases canonical_iff.mp hrightCanonical with rfl | ⟨-, hrightEnds⟩
    · rw [addDigits_zero_right hleftNil]
      exact canonical_of_endsNonzero hleft hnone hleftEnds hempty
        fun hnil => hleftNil hnil.1
    · exact canonical_of_endsNonzero hleft hright hleftEnds hrightEnds
        fun hnil => hleftNil hnil.1

end Digits

section Loop

variable {Addr : Type} [DecidableEq Addr]

/-- The state of the loop: `made` are the nodes of the result so far, `xs` and
`ys` the nodes that are left of the two lists.  The nodes of the heap `base`
from before the call are never written. -/
structure Adding (base : Heap Addr ℤ) (head : Addr) (fresh : ℕ → Addr)
    (made xs ys : List Addr) (addition : Addition Addr) : Prop where
  kept : ∀ address, (base address).isSome →
    addition.heap address = base address
  unused : ∀ index, addition.count ≤ index →
    addition.heap (fresh index) = none
  chain : Path addition.heap (some head) (head :: made) none
  cur : ∃ initial last, head :: made = initial ++ [last] ∧
    addition.cur = some last
  outside : ∀ address ∈ head :: made, base address = none
  l1 : Path base addition.l1 xs none
  l2 : Path base addition.l2 ys none
  carry : 0 ≤ addition.carry ∧ addition.carry ≤ 1

variable {base heap : Heap Addr ℤ} {head : Addr} {fresh : ℕ → Addr}
  {made xs ys nodes : List Addr} {l : Option Addr}

omit [DecidableEq Addr] in
theorem digit_eq_headD
    (hkept : ∀ address, (base address).isSome → heap address = base address)
    (hpath : Path base l nodes none) :
    digit heap l = some ((values base nodes).headD 0) := by
  cases nodes with
  | nil =>
      obtain rfl : l = none := hpath
      rfl
  | cons address rest =>
      have hsame := hkept address (hpath.isSome List.mem_cons_self)
      obtain ⟨rfl, node, hnode, -⟩ := hpath
      rw [hnode] at hsame
      rw [values_cons hnode, digit, if_pos Option.isSome_some, load_some,
        hsame]
      rfl

omit [DecidableEq Addr] in
theorem advance_eq_tail
    (hkept : ∀ address, (base address).isSome → heap address = base address)
    (hpath : Path base l nodes none) :
    advance heap l = some (first nodes.tail none) ∧
      Path base (first nodes.tail none) nodes.tail none := by
  cases nodes with
  | nil =>
      obtain rfl : l = none := hpath
      exact ⟨rfl, rfl⟩
  | cons address rest =>
      refine ⟨?_, hpath.tail (List.cons_ne_nil _ _)⟩
      have hsame := hkept address (hpath.isSome List.mem_cons_self)
      obtain ⟨rfl, node, hnode, hrest⟩ := hpath
      rw [hnode] at hsame
      rw [advance, if_pos Option.isSome_some, load_some, hsame,
        Option.map_some, hrest.eq_first, List.tail_cons]

omit [DecidableEq Addr] in
theorem values_tail (hpath : Path base l nodes none) :
    values base nodes.tail = (values base nodes).tail := by
  cases nodes with
  | nil => rfl
  | cons address rest =>
      obtain ⟨-, node, hnode, -⟩ := hpath
      rw [values_cons hnode]
      rfl

/-- The arithmetic of a pass on digits, without overflow. -/
theorem wrap32_sum {x y carry : ℤ} (hx : IsDigit x) (hy : IsDigit y)
    (hcarry : 0 ≤ carry ∧ carry ≤ 1) :
    (wrap32 (wrap32 (x + y) + carry)).tmod 10 = (x + y + carry) % 10 ∧
      (wrap32 (wrap32 (x + y) + carry)).tdiv 10 = (x + y + carry) / 10 := by
  rw [IsDigit] at hx hy
  rw [wrap32_eq_self (by omega : -2 ^ 31 ≤ x + y) (by omega),
    wrap32_eq_self (by omega) (by omega)]
  exact ⟨Int.tmod_eq_emod_of_nonneg (by omega),
    Int.tdiv_eq_ediv_of_nonneg (by omega)⟩

section Pass

variable {addition : Addition Addr}
  (hadding : Adding base head fresh made xs ys addition)

include hadding

/-- The heap after the new node has been appended. -/
theorem Adding.append (hfresh : ∀ index, base (fresh index) = none)
    (hinjective : Function.Injective fresh) (value : ℤ) :
    ∃ heap, store (Function.update addition.heap (fresh addition.count)
        (some ⟨value, none⟩)) addition.cur (some (fresh addition.count)) =
          some heap ∧
      Path heap (some head) (head :: (made ++ [fresh addition.count])) none ∧
      values heap (made ++ [fresh addition.count]) =
        values addition.heap made ++ [value] ∧
      (∀ address, (base address).isSome → heap address = base address) ∧
      ∀ index, addition.count + 1 ≤ index → heap (fresh index) = none := by
  obtain ⟨initial, last, hsplit, hcur⟩ := hadding.cur
  have hnode := hadding.unused addition.count le_rfl
  have hchain := hadding.chain
  have hlast : last ∈ head :: made := by
    rw [hsplit]
    simp
  have hlastSome := hchain.isSome hlast
  have hlastNode : last ≠ fresh addition.count :=
    ne_of_isSome hlastSome hnode
  have hmade : ∀ address ∈ made, address ≠ fresh addition.count :=
    fun address hmem => ne_of_isSome
      (hchain.isSome (List.mem_cons_of_mem head hmem)) hnode
  refine ⟨setNext (Function.update addition.heap (fresh addition.count)
    (some ⟨value, none⟩)) last (some (fresh addition.count)), ?_, ?_, ?_, ?_,
    ?_⟩
  · rw [hcur]
    apply store_some
    rwa [Function.update_of_ne hlastNode]
  · rw [← List.cons_append, hsplit]
    rw [hsplit] at hchain
    exact hchain.append_new hnode
  · have hvalues : values (Function.update addition.heap
        (fresh addition.count) (some ⟨value, none⟩)) made =
          values addition.heap made :=
      values_congr fun address hmem =>
        Function.update_of_ne (hmade address hmem) _ _
    rw [values_setNext, values_append, hvalues,
      values_cons (Function.update_self _ _ _)]
    rfl
  · intro address hsome
    have hother := ne_of_isSome hsome (hadding.outside last hlast)
    have hnew := ne_of_isSome hsome (hfresh addition.count)
    rw [setNext_of_ne hother, Function.update_of_ne hnew,
      hadding.kept address hsome]
  · intro index hindex
    have hunused := hadding.unused index (by omega)
    have hother := ne_of_isSome hlastSome hunused
    have hnew : fresh index ≠ fresh addition.count :=
      hinjective.ne (by omega)
    rw [setNext_of_ne hother.symm, Function.update_of_ne hnew, hunused]

/-- A pass appends the last digit of the sum of two digits and the carry. -/
theorem Adding.step (hfresh : ∀ index, base (fresh index) = none)
    (hinjective : Function.Injective fresh)
    (hxs : ∀ digit ∈ values base xs, IsDigit digit)
    (hys : ∀ digit ∈ values base ys, IsDigit digit) :
    ∃ next, addPass fresh addition = some next ∧
      Adding base head fresh (made ++ [fresh addition.count]) xs.tail ys.tail
        next ∧
      values next.heap (made ++ [fresh addition.count]) =
        values addition.heap made ++ [((values base xs).headD 0 +
          (values base ys).headD 0 + addition.carry) % 10] ∧
      next.carry = ((values base xs).headD 0 + (values base ys).headD 0 +
        addition.carry) / 10 := by
  have hx := isDigit_headD hxs
  have hy := isDigit_headD hys
  obtain ⟨hmod, hdiv⟩ := wrap32_sum hx hy hadding.carry
  have hdigit1 := digit_eq_headD hadding.kept hadding.l1
  have hdigit2 := digit_eq_headD hadding.kept hadding.l2
  obtain ⟨heap, hstore, hchain, hvalues, hkept, hunused⟩ :=
    hadding.append hfresh hinjective (((values base xs).headD 0 +
      (values base ys).headD 0 + addition.carry) % 10)
  obtain ⟨hadvance1, hpath1⟩ := advance_eq_tail hkept hadding.l1
  obtain ⟨hadvance2, hpath2⟩ := advance_eq_tail hkept hadding.l2
  refine ⟨⟨heap, addition.count + 1, first xs.tail none, first ys.tail none,
    some (fresh addition.count), ((values base xs).headD 0 +
      (values base ys).headD 0 + addition.carry) / 10⟩, ?_, ?_, hvalues, rfl⟩
  · simp only [addPass, hdigit1, hdigit2, hmod, hdiv, hstore, hadvance1,
      hadvance2, Option.bind_eq_bind, Option.bind_some]
    rfl
  · refine ⟨hkept, hunused, hchain, ⟨head :: made, fresh addition.count, rfl,
      rfl⟩, ?_, hpath1, hpath2, carry_le hx hy hadding.carry⟩
    intro address hmem
    rw [← List.cons_append] at hmem
    rcases List.mem_append.mp hmem with hmem | hmem
    · exact hadding.outside address hmem
    · rw [List.mem_singleton.mp hmem]
      exact hfresh addition.count

end Pass

section Run

variable {l1 l2 : Option Addr} {left right : List Addr}
  (hl1 : Path base l1 left none) (hl2 : Path base l2 right none)
  (hleft : ∀ digit ∈ values base left, IsDigit digit)
  (hright : ∀ digit ∈ values base right, IsDigit digit)
  (hhead : base head = none) (hfresh : ∀ index, base (fresh index) = none)
  (hinjective : Function.Injective fresh) (hne : ∀ index, fresh index ≠ head)

include hl1 hl2 hhead hfresh hne in
theorem adding_start :
    Adding base head fresh [] left right
      ⟨Function.update base head (some ⟨0, none⟩), 0, l1, l2, some head,
        0⟩ where
  kept := fun address hsome =>
    Function.update_of_ne (ne_of_isSome hsome hhead) _ _
  unused := fun index _ =>
    (Function.update_of_ne (hne index) _ _).trans (hfresh index)
  chain := ⟨rfl, ⟨0, none⟩, Function.update_self _ _ _, rfl⟩
  cur := ⟨[], head, rfl, rfl⟩
  outside := fun address hmem => by
    rw [List.mem_singleton.mp hmem, hhead]
  l1 := hl1
  l2 := hl2
  carry := ⟨le_rfl, zero_le_one⟩

omit [DecidableEq Addr] in
theorem values_eq_nil_iff (hpath : Path base l nodes none) :
    values base nodes = [] ↔ nodes = [] := by
  rw [← List.length_eq_zero_iff, ← List.length_eq_zero_iff,
    length_values fun _ hmem => hpath.isSome hmem]

omit [DecidableEq Addr] in
/-- The condition of the loop in terms of what is left of the lists. -/
theorem isSome_or_iff {addition : Addition Addr}
    (hl1 : Path base addition.l1 xs none)
    (hl2 : Path base addition.l2 ys none) :
    (addition.l1.isSome ∨ addition.l2.isSome ∨ addition.carry ≠ 0) ↔
      ¬(xs = [] ∧ ys = [] ∧ addition.carry = 0) := by
  rw [hl1.eq_first, hl2.eq_first]
  cases xs <;> cases ys <;> simp

omit [DecidableEq Addr] in
/-- A carry is worth less than a digit that is left. -/
theorem variant_lt {carry next : ℤ} (hcarry : 0 ≤ carry ∧ carry ≤ 1)
    (hnext : 0 ≤ next ∧ next ≤ 1)
    (hgoes : ¬(xs = [] ∧ ys = [] ∧ carry = 0))
    (hquotient : next = ((values base xs).headD 0 +
      (values base ys).headD 0 + carry) / 10) :
    2 * (xs.tail.length + ys.tail.length) + next.toNat <
      2 * (xs.length + ys.length) + carry.toNat := by
  rw [List.length_tail, List.length_tail]
  by_cases hnil : xs = [] ∧ ys = []
  · obtain ⟨rfl, rfl⟩ := hnil
    have hnonzero : carry ≠ 0 := fun hzero => hgoes ⟨rfl, rfl, hzero⟩
    have hdivided : next = (0 + 0 + carry) / 10 := hquotient
    simp only [List.length_nil]
    omega
  · have hlength : ¬(xs.length = 0 ∧ ys.length = 0) := by
      rwa [List.length_eq_zero_iff, List.length_eq_zero_iff]
    omega

include hl1 hl2 hleft hright hhead hfresh hinjective hne

/-- The loop ends with the digits of the sum in the nodes it has made. -/
theorem addLoop_returns :
    ∃ final, Returns (whileLoop (fun addition : Addition Addr =>
        addition.l1.isSome ∨ addition.l2.isSome ∨ addition.carry ≠ 0)
      (addPass fresh) · ⟨Function.update base head (some ⟨0, none⟩), 0, l1, l2,
        some head, 0⟩) final ∧
      ∃ made, Adding base head fresh made [] [] final ∧
        values final.heap made =
          addDigits (values base left) (values base right) 0 := by
  apply whileLoop_returns (fun (variant : ℕ) addition => ∃ made xs ys,
    Adding base head fresh made xs ys addition ∧
    (∀ digit ∈ values base xs, IsDigit digit) ∧
    (∀ digit ∈ values base ys, IsDigit digit) ∧
    values addition.heap made ++
      addDigits (values base xs) (values base ys) addition.carry =
        addDigits (values base left) (values base right) 0 ∧
    variant = 2 * (xs.length + ys.length) + addition.carry.toNat)
  · exact ⟨[], left, right, adding_start hl1 hl2 hhead hfresh hne, hleft,
      hright, rfl, rfl⟩
  · rintro variant addition ⟨made, xs, ys, hadding, hxs, hys, htotal, rfl⟩
      hcondition
    obtain ⟨next, hpass, hnext, hvalues, hcarry⟩ :=
      hadding.step hfresh hinjective hxs hys
    have hgoes := (isSome_or_iff hadding.l1 hadding.l2).mp hcondition
    have hleftOver : ¬(values base xs = [] ∧ values base ys = [] ∧
        addition.carry = 0) := by
      rwa [values_eq_nil_iff hadding.l1, values_eq_nil_iff hadding.l2]
    have hdigits := addDigits_eq_cons hadding.carry hleftOver
    have htail1 := values_tail hadding.l1
    have htail2 := values_tail hadding.l2
    refine ⟨_, next, hpass, ?_, _, _, _, hnext, ?_, ?_, ?_, rfl⟩
    · exact variant_lt hadding.carry hnext.carry hgoes hcarry
    · rw [htail1]
      exact isDigit_tail hxs
    · rw [htail2]
      exact isDigit_tail hys
    · rw [hvalues, List.append_assoc, List.singleton_append, hcarry, htail1,
        htail2, ← hdigits, htotal]
  · rintro variant addition ⟨made, xs, ys, hadding, hxs, hys, htotal, rfl⟩
      hcondition
    obtain ⟨rfl, rfl, hcarry⟩ := not_not.mp fun hgoes =>
      hcondition ((isSome_or_iff hadding.l1 hadding.l2).mpr hgoes)
    refine ⟨made, hadding, ?_⟩
    rw [hcarry] at htotal
    simpa [values, addDigits_nil] using htotal

/-- The function returns a new list of digits that stands for the sum, and it
is canonical if the two numbers are; nothing else in the heap is changed. -/
theorem addTwoNumbers_sums :
    ∃ after result nodes,
      Returns (addTwoNumbers head fresh base l1 l2) (after, result) ∧
      Path after result nodes none ∧
      (∀ digit ∈ values after nodes, IsDigit digit) ∧
      number (values after nodes) =
        number (values base left) + number (values base right) ∧
      (Canonical (values base left) → Canonical (values base right) →
        Canonical (values after nodes)) ∧
      ∀ address, (base address).isSome → after address = base address := by
  obtain ⟨final, hreturns, made, hadding, hvalues⟩ := addLoop_returns hl1 hl2
    hleft hright hhead hfresh hinjective hne
  have hnotMem := (List.nodup_cons.mp hadding.chain.nodup).1
  obtain ⟨-, headNode, hheadNode, hmade⟩ := hadding.chain
  have hsame : ∀ address ∈ made,
      Function.update final.heap head none address = final.heap address := by
    intro address hmem
    apply Function.update_of_ne
    rintro rfl
    exact hnotMem hmem
  have hdigits : values (Function.update final.heap head none) made =
      addDigits (values base left) (values base right) 0 := by
    rw [values_congr hsame, hvalues]
  refine ⟨Function.update final.heap head none, headNode.next, made, ?_,
    hmade.congr hsame, ?_, ?_, ?_, ?_⟩
  · apply hreturns.bind
    simp only [load_some, hheadNode, Option.bind_eq_bind, Option.bind_some]
    exact returns_some _
  · rw [hdigits]
    exact isDigit_addDigits hleft hright ⟨le_rfl, zero_le_one⟩
  · rw [hdigits, number_addDigits, add_zero]
  · rw [hdigits]
    exact canonical_addDigits hleft hright
  · intro address hsome
    rw [Function.update_of_ne (ne_of_isSome hsome hhead),
      hadding.kept address hsome]

end Run

end Loop

/-- The digits of 342 at the addresses 10, 11, 12 and of 465 at 20, 21, 22. -/
def twoNumbers : Heap ℕ ℤ
  | 10 => some ⟨2, some 11⟩
  | 11 => some ⟨4, some 12⟩
  | 12 => some ⟨3, none⟩
  | 20 => some ⟨5, some 21⟩
  | 21 => some ⟨6, some 22⟩
  | 22 => some ⟨4, none⟩
  | _ => none

theorem path_twoNumbers :
    Path twoNumbers (some 10) [10, 11, 12] none ∧
      Path twoNumbers (some 20) [20, 21, 22] none :=
  ⟨⟨rfl, _, rfl, rfl, _, rfl, rfl, _, rfl, rfl⟩,
    ⟨rfl, _, rfl, rfl, _, rfl, rfl, _, rfl, rfl⟩⟩

theorem twoNumbers_of_ge (index : ℕ) : twoNumbers (index + 100) = none := by
  unfold twoNumbers
  split <;> first | omega | rfl

theorem addTwoNumbers_sums_example :
    ∃ after result nodes,
      Returns (addTwoNumbers 0 (· + 100) twoNumbers (some 10) (some 20))
        (after, result) ∧
      Path after result nodes none ∧
      (∀ digit ∈ values after nodes, IsDigit digit) ∧
      number (values after nodes) = 342 + 465 ∧
      (Canonical [2, 4, 3] → Canonical [5, 6, 4] →
        Canonical (values after nodes)) ∧
      ∀ address, (twoNumbers address).isSome →
        after address = twoNumbers address :=
  addTwoNumbers_sums path_twoNumbers.1 path_twoNumbers.2 (by decide)
    (by decide) rfl twoNumbers_of_ge (add_left_injective 100)
    (fun _ => Nat.succ_ne_zero _)

end KataCpp.AddTwoNumbers
