import KataCpp.Core.Iteration
import KataCpp.Core.MachineInt
import KataCpp.Core.Segment

/-!
# Quick sort

`partition` goes through the elements before the pivot and keeps three blocks:
the elements that are not above the pivot, in their order, those above it, and
those not seen yet.  An element that goes to the first block changes places
with the first element of the second, so the second block is rotated.

The recursion leaves out the place of the pivot.  If the pivot lands on the
last place of the largest array an `int` can index, the lower bound of the
second call overflows, and that call reads outside of the array.
-/

namespace KataCpp.QuickSort

open Iteration MachineInt Segment
open scoped List

structure Partitioning where
  arr : List ℤ
  i : ℤ

/-- The pass with `j = low + index`. -/
def partitionNext (pivot low : ℤ) (state : Partitioning) (index : ℕ) :
    Option Partitioning := do
  let x ← read state.arr (low + index)
  if x ≤ pivot then
    let arr ← swap state.arr (wrap32 (state.i + 1)) (low + index)
    return ⟨arr, wrap32 (state.i + 1)⟩
  else
    return state

def partition (arr : List ℤ) (low high : ℤ) : Option (List ℤ × ℤ) := do
  let pivot ← read arr high
  let state ← forRange (high - low).toNat (partitionNext pivot low)
    ⟨arr, wrap32 (low - 1)⟩
  let arr ← swap state.arr (wrap32 (state.i + 1)) high
  return (arr, wrap32 (state.i + 1))

def quickSort : ℕ → List ℤ → ℤ → ℤ → Option (List ℤ)
  | 0, _, _, _ => none
  | fuel + 1, arr, low, high =>
      if low < high then do
        let (arr, pi) ← partition arr low high
        let arr ← quickSort fuel arr low (wrap32 (pi - 1))
        quickSort fuel arr (wrap32 (pi + 1)) high
      else some arr

/-- The elements that are not above the pivot keep their order. -/
def lowerPart (pivot : ℤ) (elements : List ℤ) : List ℤ :=
  elements.filter (· ≤ pivot)

/-- The block of the elements above the pivot after a number of passes. -/
def above (pivot : ℤ) (elements : List ℤ) : List ℤ :=
  elements.foldl (fun block x =>
    if x ≤ pivot then block.rotate 1 else block ++ [x]) []

/-- The elements above the pivot in the order in which the partition leaves
them: the last exchange puts the pivot before their block. -/
def upperPart (pivot : ℤ) (elements : List ℤ) : List ℤ :=
  (above pivot elements).rotate 1

theorem lowerPart_append (pivot : ℤ) (seen : List ℤ) (x : ℤ) :
    lowerPart pivot (seen ++ [x]) =
      lowerPart pivot seen ++ if x ≤ pivot then [x] else [] := by
  rw [lowerPart, lowerPart, List.filter_append]
  by_cases hx : x ≤ pivot <;> simp [hx]

theorem above_append (pivot : ℤ) (seen : List ℤ) (x : ℤ) :
    above pivot (seen ++ [x]) =
      if x ≤ pivot then (above pivot seen).rotate 1
      else above pivot seen ++ [x] := by
  rw [above, List.foldl_append]
  rfl

theorem lowerPart_above_perm (pivot : ℤ) (elements : List ℤ) :
    (lowerPart pivot elements ++ above pivot elements).Perm elements := by
  induction elements using List.reverseRecOn with
  | nil => exact List.Perm.refl _
  | append_singleton seen x ih =>
      rw [lowerPart_append, above_append]
      split_ifs with hx
      · rw [List.append_assoc, List.singleton_append]
        calc lowerPart pivot seen ++ x :: (above pivot seen).rotate 1
          _ ~ x :: (lowerPart pivot seen ++ (above pivot seen).rotate 1) :=
            List.perm_middle
          _ ~ x :: (lowerPart pivot seen ++ above pivot seen) :=
            (((above pivot seen).rotate_perm 1).append_left _).cons x
          _ ~ x :: seen := ih.cons x
          _ ~ seen ++ [x] := (List.perm_append_singleton x seen).symm
      · rw [List.append_nil, ← List.append_assoc]
        exact ih.append_right [x]

theorem upperPart_perm (pivot : ℤ) (elements : List ℤ) :
    upperPart pivot elements ~ above pivot elements :=
  List.rotate_perm _ 1

theorem lowerPart_upperPart_perm (pivot : ℤ) (elements : List ℤ) :
    lowerPart pivot elements ++ upperPart pivot elements ~ elements :=
  ((upperPart_perm pivot elements).append_left _).trans
    (lowerPart_above_perm pivot elements)

theorem length_parts (pivot : ℤ) (elements : List ℤ) :
    (lowerPart pivot elements).length + (upperPart pivot elements).length =
      elements.length := by
  rw [← List.length_append, (lowerPart_upperPart_perm pivot elements).length_eq]

theorem lt_of_mem_above {pivot x : ℤ} {elements : List ℤ}
    (hx : x ∈ above pivot elements) : pivot < x := by
  induction elements using List.reverseRecOn with
  | nil => exact absurd hx List.not_mem_nil
  | append_singleton seen y ih =>
      rw [above_append] at hx
      split_ifs at hx with hy
      · exact ih (((above pivot seen).rotate_perm 1).mem_iff.mp hx)
      · rcases List.mem_append.mp hx with hx | hx
        · exact ih hx
        · rw [List.mem_singleton.mp hx]
          exact not_le.mp hy

theorem lt_of_mem_upperPart {pivot x : ℤ} {elements : List ℤ}
    (hx : x ∈ upperPart pivot elements) : pivot < x :=
  lt_of_mem_above ((upperPart_perm pivot elements).mem_iff.mp hx)

theorem le_of_mem_lowerPart {pivot x : ℤ} {elements : List ℤ}
    (hx : x ∈ lowerPart pivot elements) : x ≤ pivot := by
  simpa using (List.mem_filter.mp hx).2

/-- The pivot between permutations of the two parts. -/
theorem append_pivot_perm {pivot : ℤ} {first second elements : List ℤ}
    (hfirst : first ~ lowerPart pivot elements)
    (hsecond : second ~ upperPart pivot elements) :
    first ++ pivot :: second ~ elements ++ [pivot] := by
  calc first ++ pivot :: second
    _ ~ pivot :: (first ++ second) := List.perm_middle
    _ ~ pivot :: (lowerPart pivot elements ++ upperPart pivot elements) :=
      (hfirst.append hsecond).cons pivot
    _ ~ pivot :: elements :=
      (lowerPart_upperPart_perm pivot elements).cons pivot
    _ ~ elements ++ [pivot] := (List.perm_append_singleton _ _).symm

/-- The two blocks after the passes for `seen`, and the elements to come. -/
structure Blocks (before after rest : List ℤ) (pivot low : ℤ)
    (seen : List ℤ) (state : Partitioning) : Prop where
  arr_eq : state.arr = before ++ (lowerPart pivot seen ++
    (above pivot seen ++ (rest ++ after)))
  i_eq : state.i = low + (lowerPart pivot seen).length - 1

section Partition

variable {before after seen rest middle : List ℤ} {pivot low high x : ℤ}
  {state : Partitioning}

theorem partitionNext_blocks (hlow : low = before.length)
    (hsize : low + seen.length < 2 ^ 31)
    (hblocks : Blocks before after (x :: rest) pivot low seen state) :
    ∃ next, partitionNext pivot low state seen.length = some next ∧
      Blocks before after rest pivot low (seen ++ [x]) next := by
  have hlengths : (lowerPart pivot seen).length +
      (above pivot seen).length = seen.length := by
    rw [← List.length_append, (lowerPart_above_perm pivot seen).length_eq]
  have harr : state.arr = (before ++ lowerPart pivot seen) ++
      (above pivot seen ++ x :: (rest ++ after)) := by
    rw [hblocks.arr_eq, List.append_assoc, List.cons_append]
  have hread : read state.arr (low + seen.length) = some x := by
    rw [harr, ← List.append_assoc]
    apply read_append_cons
    rw [List.length_append, List.length_append]
    omega
  rw [partitionNext, hread, Option.bind_eq_bind, Option.bind_some]
  by_cases hx : x ≤ pivot
  · have hi : wrap32 (state.i + 1) =
        (before ++ lowerPart pivot seen).length := by
      rw [hblocks.i_eq, wrap32_eq_self (by omega) (by omega),
        List.length_append, Nat.cast_add, sub_add_cancel, hlow]
    have hswap : swap state.arr (wrap32 (state.i + 1)) (low + seen.length) =
        some ((before ++ lowerPart pivot seen) ++
          x :: ((above pivot seen).rotate 1 ++ (rest ++ after))) := by
      rw [harr]
      apply swap_rotate hi
      rw [List.length_append]
      omega
    refine ⟨⟨(before ++ lowerPart pivot seen) ++
        x :: ((above pivot seen).rotate 1 ++ (rest ++ after)),
      wrap32 (state.i + 1)⟩, ?_, ?_, ?_⟩
    · rw [if_pos hx, hswap]
      rfl
    · rw [lowerPart_append, above_append, if_pos hx, if_pos hx]
      simp
    · dsimp only
      rw [hi, lowerPart_append, if_pos hx, hlow, List.length_append,
        List.length_append, List.length_singleton]
      omega
  · refine ⟨state, ?_, ?_, ?_⟩
    · rw [if_neg hx]
      rfl
    · rw [hblocks.arr_eq, lowerPart_append, above_append, if_neg hx,
        if_neg hx]
      simp
    · rw [hblocks.i_eq, lowerPart_append, if_neg hx, List.append_nil]

theorem forRange_partitionNext (pivot : ℤ) (after : List ℤ)
    (hlow : low = before.length)
    (hsize : low + middle.length < 2 ^ 31) :
    ∃ state, forRange middle.length (partitionNext pivot low)
        ⟨before ++ (middle ++ pivot :: after), wrap32 (low - 1)⟩ =
          some state ∧
      Blocks before (pivot :: after) [] pivot low middle state := by
  have hloop : ∃ state, forRange middle.length (partitionNext pivot low)
        ⟨before ++ (middle ++ pivot :: after), wrap32 (low - 1)⟩ =
          some state ∧
      ∃ seen rest, seen ++ rest = middle ∧ seen.length = middle.length ∧
        Blocks before (pivot :: after) rest pivot low seen state := by
    apply forRange_invariant fun index state =>
      ∃ seen rest, seen ++ rest = middle ∧ seen.length = index ∧
        Blocks before (pivot :: after) rest pivot low seen state
    · refine ⟨[], middle, rfl, rfl, rfl, ?_⟩
      rw [wrap32_eq_self (by omega) (by omega)]
      simp [lowerPart]
    · rintro _ state hindex ⟨seen, rest, hsplit, rfl, hblocks⟩
      obtain ⟨x, rest, rfl⟩ : ∃ x tail, rest = x :: tail := by
        apply List.exists_cons_of_ne_nil
        rintro rfl
        rw [List.append_nil] at hsplit
        rw [hsplit] at hindex
        exact lt_irrefl _ hindex
      obtain ⟨next, hnext, hkept⟩ :=
        partitionNext_blocks hlow (by omega) hblocks
      exact ⟨next, hnext, seen ++ [x], rest, by simpa using hsplit,
        by simp, hkept⟩
  obtain ⟨state, hstate, seen, rest, hsplit, hlength, hblocks⟩ := hloop
  obtain rfl : rest = [] := by
    have hsum := congrArg List.length hsplit
    rw [List.length_append] at hsum
    exact List.eq_nil_of_length_eq_zero (by omega)
  rw [List.append_nil] at hsplit
  exact ⟨state, hstate, hsplit ▸ hblocks⟩

/-- The pivot ends up behind the elements that are not above it. -/
theorem partition_eq (pivot : ℤ) (after : List ℤ)
    (hlow : low = before.length)
    (hhigh : high = low + middle.length) (hsize : high < 2 ^ 31) :
    partition (before ++ (middle ++ pivot :: after)) low high =
      some (before ++ (lowerPart pivot middle ++
          pivot :: (upperPart pivot middle ++ after)),
        low + (lowerPart pivot middle).length) := by
  have hread : read (before ++ (middle ++ pivot :: after)) high =
      some pivot := by
    rw [← List.append_assoc]
    apply read_append_cons
    rw [List.length_append]
    omega
  have hcount : (high - low).toNat = middle.length := by omega
  obtain ⟨state, hstate, harr, hi⟩ :=
    forRange_partitionNext pivot after hlow (hhigh ▸ hsize)
  have hlengths : (lowerPart pivot middle).length +
      (above pivot middle).length = middle.length := by
    rw [← List.length_append, (lowerPart_above_perm pivot middle).length_eq]
  have hplace : wrap32 (state.i + 1) =
      low + (lowerPart pivot middle).length := by
    rw [hi, wrap32_eq_self (by omega) (by omega), sub_add_cancel]
  have hswap : swap state.arr (low + (lowerPart pivot middle).length) high =
      some (before ++ (lowerPart pivot middle ++
        pivot :: (upperPart pivot middle ++ after))) := by
    rw [harr, List.nil_append, ← List.append_assoc, swap_rotate,
      List.append_assoc]
    · rfl
    · rw [List.length_append, Nat.cast_add, hlow]
    · rw [List.length_append]
      omega
  rw [partition, hread, Option.bind_eq_bind, Option.bind_some, hcount, hstate,
    Option.bind_eq_bind, Option.bind_some, hplace, hswap]
  rfl

end Partition

/-- One of the calls for the upper end of a segment has a pivot that stays at
the end, behind other elements none of which is above it. -/
inductive TopsOut : List ℤ → Prop
  | here {middle : List ℤ} {pivot : ℤ} (hmiddle : middle ≠ [])
      (htop : ∀ x ∈ middle, x ≤ pivot) : TopsOut (middle ++ [pivot])
  | later {middle : List ℤ} {pivot : ℤ}
      (hlater : TopsOut (upperPart pivot middle)) : TopsOut (middle ++ [pivot])

theorem TopsOut.ne_nil {elements : List ℤ} (htops : TopsOut elements) :
    elements ≠ [] := by
  cases htops <;> simp

theorem topsOut_of_upperPart_eq_nil {middle : List ℤ} {pivot : ℤ}
    (hmiddle : middle ≠ []) (hnone : upperPart pivot middle = []) :
    TopsOut (middle ++ [pivot]) := by
  have hperm := lowerPart_upperPart_perm pivot middle
  rw [hnone, List.append_nil] at hperm
  exact TopsOut.here hmiddle fun x hx =>
    le_of_mem_lowerPart (hperm.mem_iff.mpr hx)

/-- The pivot does not land on the greatest `int`, unless the segment tops
out there. -/
theorem wrap32_next_of_not_topsOut {middle : List ℤ} {pivot pi high : ℤ}
    (hpi : 0 ≤ pi) (hmiddle : 0 < middle.length)
    (hhigh : high = pi + (upperPart pivot middle).length ∧ high < 2 ^ 31)
    (htops : ¬(high = 2 ^ 31 - 1 ∧ TopsOut (middle ++ [pivot]))) :
    wrap32 (pi + 1) = pi + 1 := by
  apply wrap32_eq_self (by omega)
  by_contra hoverflow
  have hnone : upperPart pivot middle = [] :=
    List.eq_nil_of_length_eq_zero (by omega)
  exact htops ⟨by omega, topsOut_of_upperPart_eq_nil
    (List.length_pos_iff_ne_nil.mp hmiddle) hnone⟩

theorem quickSort_of_le {low high : ℤ} (hbounds : high ≤ low)
    (arr : List ℤ) : Returns (quickSort · arr low high) arr := by
  apply returns_of_succ
  simp only [quickSort, if_neg (not_lt.mpr hbounds)]
  exact returns_some arr

theorem quickSort_step {arr parted first result : List ℤ} {low high pi : ℤ}
    (hbounds : low < high)
    (hpartition : partition arr low high = some (parted, pi))
    (hfirst : Returns (quickSort · parted low (wrap32 (pi - 1))) first)
    (hsecond : Returns (quickSort · first (wrap32 (pi + 1)) high) result) :
    Returns (quickSort · arr low high) result := by
  apply returns_of_succ
  simp only [quickSort, if_pos hbounds, hpartition, Option.bind_eq_bind,
    Option.bind_some]
  exact hfirst.bind hsecond

theorem pairwise_around_pivot {first second : List ℤ} {pivot : ℤ}
    (hfirst : first.Pairwise (· ≤ ·)) (hsecond : second.Pairwise (· ≤ ·))
    (hlower : ∀ x ∈ first, x ≤ pivot) (hupper : ∀ x ∈ second, pivot < x) :
    (first ++ pivot :: second).Pairwise (· ≤ ·) := by
  rw [List.pairwise_append, List.pairwise_cons]
  refine ⟨hfirst, ⟨fun x hx => (hupper x hx).le, hsecond⟩, ?_⟩
  intro x hx y hy
  rcases List.mem_cons.mp hy with rfl | hy
  · exact hlower x hx
  · exact (hlower x hx).trans (hupper y hy).le

/-- The segment between two parts of the array is sorted in place, unless the
recursion runs over the greatest `int`. -/
theorem quickSort_returns {low high : ℤ} (before elements after : List ℤ)
    (hlow : low = before.length)
    (hhigh : high + 1 = before.length + elements.length)
    (hint : high < 2 ^ 31)
    (htops : ¬(high = 2 ^ 31 - 1 ∧ TopsOut elements)) :
    ∃ sorted : List ℤ, Returns
        (quickSort · (before ++ (elements ++ after)) low high)
        (before ++ (sorted ++ after)) ∧
      sorted.Pairwise (· ≤ ·) ∧ sorted ~ elements := by
  induction hlength : elements.length using Nat.strong_induction_on
    generalizing low high before elements after with
  | _ count ih =>
    by_cases hbounds : low < high
    · obtain ⟨middle, pivot, rfl⟩ : ∃ middle pivot,
          elements = middle ++ [pivot] := by
        rcases List.eq_nil_or_concat' elements with rfl | hconcat
        · rw [List.length_nil] at hhigh
          omega
        · exact hconcat
      rw [List.length_append, List.length_singleton] at hhigh hlength
      have hlengths := length_parts pivot middle
      have hpartition := partition_eq pivot after hlow
        (show high = low + middle.length by omega) hint
      generalize hpi : low + ((lowerPart pivot middle).length : ℤ) = pi
        at hpartition
      have hlowerEnd : wrap32 (pi - 1) + 1 =
          before.length + (lowerPart pivot middle).length := by
        rw [wrap32_eq_self (by omega) (by omega)]
        omega
      obtain ⟨first, hfirst, hfirstSorted, hfirstPerm⟩ :=
        ih (lowerPart pivot middle).length (by omega) before
          (lowerPart pivot middle) (pivot :: (upperPart pivot middle ++ after))
          hlow hlowerEnd (by omega) (by omega) rfl
      have hfirstLength := hfirstPerm.length_eq
      have hnext : wrap32 (pi + 1) = pi + 1 :=
        wrap32_next_of_not_topsOut (by omega) (by omega) (by omega) htops
      have hupperStart : wrap32 (pi + 1) =
          (before ++ (first ++ [pivot])).length := by
        rw [hnext, List.length_append, List.length_append,
          List.length_singleton]
        omega
      have hupperEnd : high + 1 = (before ++ (first ++ [pivot])).length +
          (upperPart pivot middle).length := by omega
      obtain ⟨second, hsecond, hsecondSorted, hsecondPerm⟩ :=
        ih (upperPart pivot middle).length (by omega)
          (before ++ (first ++ [pivot])) (upperPart pivot middle) after
          hupperStart hupperEnd hint
          (fun hlater => htops ⟨hlater.1, TopsOut.later hlater.2⟩) rfl
      refine ⟨first ++ pivot :: second, ?_, ?_, ?_⟩
      · simp only [List.append_assoc, List.cons_append,
          List.nil_append] at hsecond ⊢
        exact quickSort_step hbounds hpartition hfirst hsecond
      · apply pairwise_around_pivot hfirstSorted hsecondSorted
        · intro x hx
          exact le_of_mem_lowerPart (hfirstPerm.mem_iff.mp hx)
        · intro x hx
          exact lt_of_mem_upperPart (hsecondPerm.mem_iff.mp hx)
      · exact append_pivot_perm hfirstPerm hsecondPerm
    · exact ⟨elements, quickSort_of_le (by omega) _,
        pairwise_of_length_le_one (by omega), List.Perm.refl _⟩

/-! ## The overflow -/

theorem partition_of_low_neg {low high : ℤ} (arr : List ℤ) (hlow : low < 0)
    (hbounds : low < high) : partition arr low high = none := by
  rw [partition]
  cases read arr high with
  | none => rfl
  | some pivot =>
      have hfirst (state : Partitioning) :
          partitionNext pivot low state 0 = none := by
        rw [partitionNext, read_of_neg (by simpa using hlow)]
        rfl
      rw [Option.bind_eq_bind, Option.bind_some,
        forRange_eq_none (by omega) (hfirst _)]
      rfl

theorem quickSort_of_low_neg {low high : ℤ} (fuel : ℕ) (arr : List ℤ)
    (hlow : low < 0) (hbounds : low < high) :
    quickSort fuel arr low high = none := by
  cases fuel with
  | zero => rfl
  | succ fuel =>
      rw [quickSort, if_pos hbounds, partition_of_low_neg arr hlow hbounds]
      rfl

theorem quickSort_succ {fuel : ℕ} {arr result : List ℤ} {low high : ℤ}
    (hfuel : quickSort fuel arr low high = some result) :
    quickSort (fuel + 1) arr low high = some result := by
  induction fuel generalizing arr result low high with
  | zero => simp [quickSort] at hfuel
  | succ fuel ih =>
      rw [quickSort] at hfuel ⊢
      split_ifs at hfuel ⊢ with hbounds
      · simp only [Option.bind_eq_bind, Option.bind_eq_some_iff] at hfuel ⊢
        obtain ⟨⟨parted, pi⟩, hpartition, first, hfirst, hsecond⟩ := hfuel
        exact ⟨(parted, pi), hpartition, first, ih hfirst, ih hsecond⟩
      · exact hfuel

/-- A call fails if its second call does, for every order in which the first
one can leave the lower part. -/
theorem quickSort_eq_none {before middle after : List ℤ} {pivot low high : ℤ}
    (hlow : low = before.length) (hhigh : high = low + middle.length)
    (hint : high < 2 ^ 31) (hbounds : low < high)
    (hsecond : ∀ fuel first, first ~ lowerPart pivot middle →
      quickSort fuel (before ++ (first ++
          pivot :: (upperPart pivot middle ++ after)))
        (wrap32 (low + (lowerPart pivot middle).length + 1)) high = none)
    (fuel : ℕ) :
    quickSort fuel (before ++ (middle ++ pivot :: after)) low high =
      none := by
  cases fuel with
  | zero => rfl
  | succ fuel =>
      have hlengths := length_parts pivot middle
      have hpi : wrap32 (low + (lowerPart pivot middle).length - 1) + 1 =
          before.length + (lowerPart pivot middle).length := by
        rw [wrap32_eq_self (by omega) (by omega)]
        omega
      obtain ⟨sorted, hreturns, -, hperm⟩ := quickSort_returns before
        (lowerPart pivot middle) (pivot :: (upperPart pivot middle ++ after))
        hlow hpi (by omega) (by omega)
      rw [quickSort, if_pos hbounds,
        partition_eq pivot after hlow hhigh hint, Option.bind_eq_bind,
        Option.bind_some]
      dsimp only
      cases hfirst : quickSort fuel (before ++ (lowerPart pivot middle ++
          pivot :: (upperPart pivot middle ++ after))) low
          (wrap32 (low + (lowerPart pivot middle).length - 1)) with
      | none => rfl
      | some first =>
          have hunique := hreturns.unique
            (returns_of_eq_some (fun _ => quickSort_succ) hfirst)
          rw [Option.bind_eq_bind, Option.bind_some, ← hunique]
          exact hsecond fuel sorted hperm

/-- No fuel is enough for a call that runs over the greatest `int`. -/
theorem quickSort_of_topsOut {elements : List ℤ} (htops : TopsOut elements)
    {low : ℤ} (fuel : ℕ) (before after : List ℤ) (hlow : low = before.length)
    (hhigh : (2 : ℤ) ^ 31 = before.length + elements.length) :
    quickSort fuel (before ++ (elements ++ after)) low (2 ^ 31 - 1) =
      none := by
  induction htops generalizing low fuel before after with
  | @here middle pivot hmiddle htop =>
      rw [List.length_append, List.length_singleton] at hhigh
      have hpositive := List.length_pos_iff_ne_nil.mpr hmiddle
      have hall : lowerPart pivot middle = middle := by
        rw [lowerPart, List.filter_eq_self]
        simpa using htop
      rw [List.append_assoc, List.singleton_append]
      apply quickSort_eq_none hlow (by omega) (by omega) (by omega)
      intro fuel first _
      have hoverflow : wrap32 (low + (lowerPart pivot middle).length + 1) =
          -2 ^ 31 := by
        rw [hall, ← wrap32_int_overflow]
        congr 1
        omega
      rw [hoverflow]
      exact quickSort_of_low_neg fuel _ (by omega) (by omega)
  | @later middle pivot hlater ih =>
      rw [List.length_append, List.length_singleton] at hhigh
      have hlengths := length_parts pivot middle
      have hpositive := List.length_pos_iff_ne_nil.mpr hlater.ne_nil
      rw [List.append_assoc, List.singleton_append]
      apply quickSort_eq_none hlow (by omega) (by omega) (by omega)
      intro fuel first hperm
      have hfirst := hperm.length_eq
      have hnext : wrap32 (low + (lowerPart pivot middle).length + 1) =
          (before ++ (first ++ [pivot])).length := by
        rw [wrap32_eq_self (by omega) (by omega), List.length_append,
          List.length_append, List.length_singleton]
        omega
      have hsecond := ih fuel (before ++ (first ++ [pivot])) after hnext
        (by rw [List.length_append, List.length_append,
          List.length_singleton]; omega)
      simpa using hsecond

/-- `quickSort` terminates without a subscript out of range, with the elements
of `arr[low..high]` in order and the others in their places, unless the segment
ends at the greatest `int` and one of the pivots at its end stays there. -/
theorem quickSort_sortsRange_iff (arr : List ℤ) {low high : ℤ}
    (hlow : 0 ≤ low)
    (hrange : (low < arr.length ∧ 0 ≤ high ∧ high < arr.length) ∨
      (arr = [] ∧ low = 0 ∧ high = -1))
    (hint : high < 2 ^ 31) :
    (∃ result, Returns (quickSort · arr low high) result ∧
      SortsRange arr result low high) ↔
      ¬(high = 2 ^ 31 - 1 ∧ TopsOut (slice arr low high)) := by
  have hsize : high < arr.length := by
    rcases hrange with hrange | ⟨rfl, -, rfl⟩
    · exact hrange.2.2
    · decide
  by_cases hbounds : low ≤ high + 1
  · obtain ⟨before, after, harr, hstart, hend⟩ :=
      exists_split arr hlow hbounds hsize
    constructor
    · rintro ⟨result, hreturns, -⟩ ⟨hhigh, htops⟩
      have hnone (fuel : ℕ) : quickSort fuel arr low high = none := by
        have htopped := quickSort_of_topsOut htops fuel before after hstart
          (by omega)
        rwa [← harr, ← hhigh] at htopped
      exact not_returns hnone result hreturns
    · intro htops
      obtain ⟨sorted, hreturns, hsorted, hperm⟩ := quickSort_returns before
        (slice arr low high) after hstart hend hint htops
      rw [← harr] at hreturns
      refine ⟨_, hreturns, ?_⟩
      nth_rewrite 1 [harr]
      exact sortsRange_append hstart hend hsorted hperm
  · refine iff_of_true ⟨arr, quickSort_of_le (by omega) arr,
      sortsRange_refl arr (by omega)⟩ ?_
    rw [slice_of_lt arr (by omega)]
    exact fun htops => htops.2.ne_nil rfl

theorem quickSort_sortsRange_iff_of_five :
    (∃ result, Returns (quickSort · [9, 5, 2, 5, -7] 1 3) result ∧
      SortsRange [9, 5, 2, 5, -7] result 1 3) ↔
      ¬((3 : ℤ) = 2 ^ 31 - 1 ∧ TopsOut (slice [9, 5, 2, 5, -7] 1 3)) :=
  quickSort_sortsRange_iff _ (by decide) (by decide) (by decide)

/-- Equal elements that fill the places up to the greatest `int`. -/
theorem quickSort_overflows_on_equal :
    ¬∃ result, Returns
        (quickSort · (List.replicate (2 ^ 31) 0) 0 (2 ^ 31 - 1)) result ∧
      SortsRange (List.replicate (2 ^ 31) 0) result 0 (2 ^ 31 - 1) := by
  rintro ⟨result, hreturns, -⟩
  have htops : TopsOut (List.replicate (2 ^ 31 - 1) 0 ++ [0]) := by
    apply TopsOut.here
    · intro hempty
      have hlength := congrArg List.length hempty
      rw [List.length_replicate] at hlength
      exact absurd hlength (by decide)
    · intro x hx
      exact (List.eq_of_mem_replicate hx).le
  have hnone (fuel : ℕ) :
      quickSort fuel (List.replicate (2 ^ 31) 0) 0 (2 ^ 31 - 1) = none := by
    have htopped := quickSort_of_topsOut htops fuel [] [] rfl
      (by rw [List.length_append, List.length_replicate]; norm_num)
    rwa [← List.replicate_succ', List.nil_append, List.append_nil] at htopped
  exact not_returns hnone result hreturns

end KataCpp.QuickSort
