import KataCpp.Core.Iteration
import KataCpp.Core.MachineInt
import KataCpp.Core.OrderStatistic
import KataCpp.Core.Segment

/-!
# The median of two sorted arrays

`findMedianSortedArrays` cuts both arrays so that the parts before the cuts
have half of the elements, and searches for the cut of the shorter array at
which no element before a cut is above one behind the other cut.

The search keeps what it has learned about the cuts next to its interval: the
one before it leaves out an element that should come first, and the one behind
it takes in an element that should not.  Two adjacent cuts cannot be like that,
so the interval never becomes empty.
-/

namespace KataCpp.MedianOfSorted

open Iteration MachineInt OrderStatistic Segment
open scoped List

def intMin : ℤ := -2 ^ 31

def intMax : ℤ := 2 ^ 31 - 1

structure SearchRange where
  low : ℤ
  high : ℤ

section Code

variable (int : ℤ → ℤ)

def maxLeft (arr : List ℤ) (cut : ℤ) : Option ℤ :=
  if cut = 0 then some intMin else read arr (int (cut - 1))

def minRight (arr : List ℤ) (n cut : ℤ) : Option ℤ :=
  if cut = n then some intMax else read arr cut

/-- The end of a pass, with the elements next to the two cuts. -/
def judge (n1 n2 : ℤ) (range : SearchRange)
    (partition1 maxLeft1 minRight1 maxLeft2 minRight2 : ℤ) :
    Outcome SearchRange (Except String ℚ) :=
  if maxLeft1 ≤ minRight2 ∧ maxLeft2 ≤ minRight1 then
    if (int (n1 + n2)).tmod 2 = 0 then
      .exit (.ok
        ((int (max maxLeft1 maxLeft2 + min minRight1 minRight2) : ℚ) / 2))
    else
      .exit (.ok (max maxLeft1 maxLeft2 : ℤ))
  else if maxLeft1 > minRight2 then
    .next { range with high := int (partition1 - 1) }
  else
    .next { range with low := int (partition1 + 1) }

def searchPass (arr1 arr2 : List ℤ) (n1 n2 : ℤ) (range : SearchRange) :
    Outcome SearchRange (Except String ℚ) :=
  if range.low ≤ range.high then
    let partition1 := (int (range.low + range.high)).tdiv 2
    let partition2 :=
      int ((int (int (n1 + n2) + 1)).tdiv 2 - partition1)
    match maxLeft int arr1 partition1, minRight arr1 n1 partition1,
      maxLeft int arr2 partition2, minRight arr2 n2 partition2 with
    | some maxLeft1, some minRight1, some maxLeft2, some minRight2 =>
        judge int n1 n2 range partition1 maxLeft1 minRight1 maxLeft2 minRight2
    | _, _, _, _ => .fault
  else
    .exit (.error "Input arrays are not sorted")

def findMedianSortedArrays : ℕ → List ℤ → List ℤ →
    Option (Except String ℚ)
  | 0, _, _ => none
  | fuel + 1, arr1, arr2 =>
      if int arr1.length > int arr2.length then
        findMedianSortedArrays fuel arr2 arr1
      else
        loop (searchPass int arr1 arr2 (int arr1.length) (int arr2.length))
          fuel ⟨0, int arr1.length⟩

end Code

/-! ## The elements next to a cut -/

/-- An array as the search needs it: ascending, with values of an `int`. -/
structure SortedInts (arr : List ℤ) : Prop where
  sorted : arr.Pairwise (· ≤ ·)
  intMin_le : ∀ x ∈ arr, intMin ≤ x
  le_intMax : ∀ x ∈ arr, x ≤ intMax

section Cuts

variable {arr : List ℤ} {cut : ℕ} {value : ℤ}

theorem maxLeft_zero (arr : List ℤ) : maxLeft exactInt arr 0 = some intMin :=
  if_pos rfl

theorem maxLeft_of_pos (arr : List ℤ) {cut : ℤ} (hcut : 0 < cut) :
    maxLeft exactInt arr cut = read arr (cut - 1) :=
  if_neg (by omega)

theorem minRight_length (arr : List ℤ) :
    minRight arr arr.length arr.length = some intMax :=
  if_pos rfl

theorem minRight_of_lt (arr : List ℤ) {n cut : ℤ} (hcut : cut < n) :
    minRight arr n cut = read arr cut :=
  if_neg (by omega)

/-- The value read before the cut: an upper bound of the elements there, and
one of them unless there are none. -/
structure IsMaxLeft (arr : List ℤ) (cut : ℕ) (value : ℤ) : Prop where
  read_eq : maxLeft exactInt arr cut = some value
  bound : ∀ x ∈ arr.take cut, x ≤ value
  mem : value ∈ arr.take cut ∨ (arr.take cut = [] ∧ value = intMin)

structure IsMinRight (arr : List ℤ) (cut : ℕ) (value : ℤ) : Prop where
  read_eq : minRight arr arr.length cut = some value
  bound : ∀ x ∈ arr.drop cut, value ≤ x
  mem : value ∈ arr.drop cut ∨ (arr.drop cut = [] ∧ value = intMax)

theorem exists_maxLeft (harr : SortedInts arr) (hcut : cut ≤ arr.length) :
    ∃ value, IsMaxLeft arr cut value := by
  cases cut with
  | zero => exact ⟨intMin, maxLeft_zero arr, by simp, Or.inr ⟨rfl, rfl⟩⟩
  | succ cut =>
      have hlast : arr.take (cut + 1) = arr.take cut ++ [arr[cut]] :=
        List.take_succ_eq_append_getElem hcut
      have hsorted := harr.sorted.sublist (List.take_sublist (cut + 1) arr)
      rw [hlast, List.pairwise_append] at hsorted
      refine ⟨arr[cut], ?_, ?_, Or.inl ?_⟩
      · rw [maxLeft_of_pos arr (by omega), Nat.cast_add, Nat.cast_one,
          add_sub_cancel_right, read_natCast, List.getElem?_eq_getElem hcut]
      · intro x hx
        rw [hlast] at hx
        rcases List.mem_append.mp hx with hx | hx
        · exact hsorted.2.2 x hx _ (List.mem_singleton_self _)
        · exact (List.mem_singleton.mp hx).le
      · rw [hlast]
        exact List.mem_append_right _ (List.mem_singleton_self _)

theorem exists_minRight (harr : SortedInts arr) (hcut : cut ≤ arr.length) :
    ∃ value, IsMinRight arr cut value := by
  rcases hcut.eq_or_lt with rfl | hcut
  · exact ⟨intMax, minRight_length arr, by simp, Or.inr ⟨by simp, rfl⟩⟩
  · have hfirst : arr.drop cut = arr[cut] :: arr.drop (cut + 1) :=
      List.drop_eq_getElem_cons hcut
    have hsorted := harr.sorted.sublist (List.drop_sublist cut arr)
    rw [hfirst, List.pairwise_cons] at hsorted
    refine ⟨arr[cut], ?_, ?_, Or.inl ?_⟩
    · rw [minRight_of_lt arr (by omega), read_natCast,
        List.getElem?_eq_getElem hcut]
    · intro x hx
      rw [hfirst] at hx
      rcases List.mem_cons.mp hx with rfl | hx
      · exact le_rfl
      · exact hsorted.1 x hx
    · rw [hfirst]
      exact List.mem_cons_self

end Cuts

section Halves

variable {arr1 arr2 : List ℤ} {cut1 cut2 : ℕ} {left1 right1 left2 right2 : ℤ}

/-- The greater of the two elements before the cuts is the greatest of all
elements there: a sentinel is chosen only if it is an element itself. -/
theorem max_mem_take (harr1 : SortedInts arr1) (harr2 : SortedInts arr2)
    (hleft1 : IsMaxLeft arr1 cut1 left1) (hleft2 : IsMaxLeft arr2 cut2 left2)
    (hsome : arr1.take cut1 ++ arr2.take cut2 ≠ []) :
    max left1 left2 ∈ arr1.take cut1 ++ arr2.take cut2 := by
  rw [List.mem_append]
  rcases hleft1.mem with hmem1 | ⟨hnone1, rfl⟩ <;>
    rcases hleft2.mem with hmem2 | ⟨hnone2, rfl⟩
  · rcases max_choice left1 left2 with hmax | hmax
    · exact Or.inl (by rwa [hmax])
    · exact Or.inr (by rwa [hmax])
  · rw [max_eq_left (harr1.intMin_le _ (List.mem_of_mem_take hmem1))]
    exact Or.inl hmem1
  · rw [max_eq_right (harr2.intMin_le _ (List.mem_of_mem_take hmem2))]
    exact Or.inr hmem2
  · exact absurd (by rw [hnone1, hnone2, List.nil_append]) hsome

theorem min_mem_drop (harr1 : SortedInts arr1) (harr2 : SortedInts arr2)
    (hright1 : IsMinRight arr1 cut1 right1)
    (hright2 : IsMinRight arr2 cut2 right2)
    (hsome : arr1.drop cut1 ++ arr2.drop cut2 ≠ []) :
    min right1 right2 ∈ arr1.drop cut1 ++ arr2.drop cut2 := by
  rw [List.mem_append]
  rcases hright1.mem with hmem1 | ⟨hnone1, rfl⟩ <;>
    rcases hright2.mem with hmem2 | ⟨hnone2, rfl⟩
  · rcases min_choice right1 right2 with hmin | hmin
    · exact Or.inl (by rwa [hmin])
    · exact Or.inr (by rwa [hmin])
  · rw [min_eq_left (harr1.le_intMax _ (List.mem_of_mem_drop hmem1))]
    exact Or.inl hmem1
  · rw [min_eq_right (harr2.le_intMax _ (List.mem_of_mem_drop hmem2))]
    exact Or.inr hmem2
  · exact absurd (by rw [hnone1, hnone2, List.nil_append]) hsome

variable (harr1 : SortedInts arr1) (harr2 : SortedInts arr2)
  (hcut1 : cut1 ≤ arr1.length) (hcut2 : cut2 ≤ arr2.length)
  (hleft1 : IsMaxLeft arr1 cut1 left1) (hleft2 : IsMaxLeft arr2 cut2 left2)
  (hright1 : IsMinRight arr1 cut1 right1)
  (hright2 : IsMinRight arr2 cut2 right2)
  (hcross1 : left1 ≤ right2) (hcross2 : left2 ≤ right1)

theorem halves_perm (arr1 arr2 : List ℤ) (cut1 cut2 : ℕ) :
    (arr1.take cut1 ++ arr2.take cut2) ++ (arr1.drop cut1 ++ arr2.drop cut2) ~
      arr1 ++ arr2 := by
  calc (arr1.take cut1 ++ arr2.take cut2) ++
        (arr1.drop cut1 ++ arr2.drop cut2)
    _ ~ (arr1.take cut1 ++ arr1.drop cut1) ++
        (arr2.take cut2 ++ arr2.drop cut2) := by
      rw [List.append_assoc, List.append_assoc]
      apply List.Perm.append_left
      rw [← List.append_assoc, ← List.append_assoc]
      exact List.perm_append_comm.append_right _
    _ ~ arr1 ++ arr2 := by
      rw [List.take_append_drop, List.take_append_drop]

include harr1 harr2 hleft1 hleft2 hright1 hright2 hcross1 hcross2

/-- No element before a cut is above an element behind one. -/
theorem take_le_drop :
    ∀ x ∈ arr1.take cut1 ++ arr2.take cut2,
      ∀ y ∈ arr1.drop cut1 ++ arr2.drop cut2, x ≤ y := by
  have hsame {arr : List ℤ} (harr : SortedInts arr) (cut : ℕ) :
      ∀ x ∈ arr.take cut, ∀ y ∈ arr.drop cut, x ≤ y := by
    have hsorted := harr.sorted
    rw [← List.take_append_drop cut arr, List.pairwise_append] at hsorted
    exact hsorted.2.2
  intro x hx y hy
  rcases List.mem_append.mp hx with hx | hx <;>
    rcases List.mem_append.mp hy with hy | hy
  · exact hsame harr1 cut1 x hx y hy
  · exact (hleft1.bound x hx).trans (hcross1.trans (hright2.bound y hy))
  · exact (hleft2.bound x hx).trans (hcross2.trans (hright1.bound y hy))
  · exact hsame harr2 cut2 x hx y hy

theorem getElem?_max (hsome : arr1.take cut1 ++ arr2.take cut2 ≠ []) :
    (ascending (arr1 ++ arr2))[(arr1.take cut1 ++ arr2.take cut2).length - 1]? =
      some (max left1 left2) := by
  apply getElem?_ascending_of_greatest (halves_perm arr1 arr2 cut1 cut2)
  · exact take_le_drop harr1 harr2 hleft1 hleft2 hright1 hright2 hcross1
      hcross2
  · exact max_mem_take harr1 harr2 hleft1 hleft2 hsome
  · intro x hx
    rcases List.mem_append.mp hx with hx | hx
    · exact (hleft1.bound x hx).trans (le_max_left _ _)
    · exact (hleft2.bound x hx).trans (le_max_right _ _)

theorem getElem?_min (hsome : arr1.drop cut1 ++ arr2.drop cut2 ≠ []) :
    (ascending (arr1 ++ arr2))[(arr1.take cut1 ++ arr2.take cut2).length]? =
      some (min right1 right2) := by
  apply getElem?_ascending_of_least (halves_perm arr1 arr2 cut1 cut2)
  · exact take_le_drop harr1 harr2 hleft1 hleft2 hright1 hright2 hcross1
      hcross2
  · exact min_mem_drop harr1 harr2 hright1 hright2 hsome
  · intro x hx
    rcases List.mem_append.mp hx with hx | hx
    · exact (min_le_left _ _).trans (hright1.bound x hx)
    · exact (min_le_right _ _).trans (hright2.bound x hx)

include hcut1 hcut2

/-- The two halves are balanced, and the values next to the cuts are the middle
elements. -/
theorem judge_exit {range : SearchRange}
    (hhalf : cut1 + cut2 = (arr1.length + arr2.length + 1) / 2)
    (hsome : arr1 ++ arr2 ≠ []) :
    ∃ value, judge exactInt arr1.length arr2.length range cut1 left1 right1
        left2 right2 = .exit (.ok value) ∧
      2 * value = (twiceMedian (arr1 ++ arr2) : ℚ) := by
  have hlength : (arr1 ++ arr2).length = arr1.length + arr2.length :=
    List.length_append
  have hpositive := List.length_pos_iff_ne_nil.mpr hsome
  have hlower : (arr1.take cut1 ++ arr2.take cut2).length = cut1 + cut2 := by
    rw [List.length_append, List.length_take, List.length_take]
    omega
  have hupper : (arr1.drop cut1 ++ arr2.drop cut2).length =
      arr1.length + arr2.length - (cut1 + cut2) := by
    rw [List.length_append, List.length_drop, List.length_drop]
    omega
  have hmax := getElem?_max harr1 harr2 hleft1 hleft2 hright1 hright2 hcross1
    hcross2 (List.length_pos_iff_ne_nil.mp (by omega))
  rw [hlower] at hmax
  rw [judge, if_pos ⟨hcross1, hcross2⟩, exactInt_apply,
    Int.tmod_eq_emod_of_nonneg (by omega)]
  obtain ⟨middle, heven | hodd⟩ :=
    Nat.even_or_odd' (arr1.length + arr2.length)
  · have hmin := getElem?_min harr1 harr2 hleft1 hleft2 hright1 hright2
      hcross1 hcross2 (List.length_pos_iff_ne_nil.mp (by omega))
    rw [hlower] at hmin
    obtain ⟨middle, rfl⟩ : ∃ m, middle = m + 1 := ⟨middle - 1, by omega⟩
    have hentry : cut1 + cut2 = middle + 1 := by omega
    rw [hentry] at hmin hmax
    rw [if_pos (by omega)]
    refine ⟨_, rfl, ?_⟩
    rw [twiceMedian_of_even (by omega) hmax hmin, exactInt_apply]
    ring
  · have hentry : cut1 + cut2 - 1 = middle := by omega
    rw [hentry] at hmax
    rw [if_neg (by omega)]
    refine ⟨_, rfl, ?_⟩
    rw [twiceMedian_of_odd (by omega) hmax]
    push_cast
    ring

end Halves

section Search

variable (arr1 arr2 : List ℤ)

def half : ℕ := (arr1.length + arr2.length + 1) / 2

/-- An element behind the cut of the first array belongs before it. -/
def TooFew (cut : ℤ) : Prop :=
  ∃ left2 right1, maxLeft exactInt arr2 (half arr1 arr2 - cut) = some left2 ∧
    minRight arr1 arr1.length cut = some right1 ∧ right1 < left2

/-- An element before the cut of the first array belongs behind it. -/
def TooMany (cut : ℤ) : Prop :=
  ∃ left1 right2, maxLeft exactInt arr1 cut = some left1 ∧
    minRight arr2 arr2.length (half arr1 arr2 - cut) = some right2 ∧
    right2 < left1

structure Narrowed (range : SearchRange) : Prop where
  low_nonneg : 0 ≤ range.low
  low_le : range.low ≤ range.high + 1
  high_le : range.high ≤ arr1.length
  tooFew : range.low = 0 ∨ TooFew arr1 arr2 (range.low - 1)
  tooMany : range.high = arr1.length ∨ TooMany arr1 arr2 (range.high + 1)

variable {arr1 arr2}

theorem intMin_le_of_minRight {arr : List ℤ} (harr : SortedInts arr)
    {n cut value : ℤ} (hvalue : minRight arr n cut = some value) :
    intMin ≤ value := by
  rw [minRight] at hvalue
  split_ifs at hvalue
  · rw [← Option.some.inj hvalue]
    decide
  · exact harr.intMin_le value (mem_of_read hvalue)

theorem le_intMax_of_maxLeft {arr : List ℤ} (harr : SortedInts arr)
    {cut value : ℤ} (hvalue : maxLeft exactInt arr cut = some value) :
    value ≤ intMax := by
  rw [maxLeft] at hvalue
  split_ifs at hvalue
  · rw [← Option.some.inj hvalue]
    decide
  · exact harr.le_intMax value (mem_of_read hvalue)

variable (harr1 : SortedInts arr1) (harr2 : SortedInts arr2)
  (hshorter : arr1.length ≤ arr2.length)

include hshorter in
/-- One element cannot be missing before the next cut and have no business
there. -/
theorem not_tooMany_of_tooFew {cut : ℤ} (hcut : 0 ≤ cut)
    (hlength : cut < arr1.length) (hfew : TooFew arr1 arr2 cut) :
    ¬TooMany arr1 arr2 (cut + 1) := by
  rintro ⟨left1, right2, hleft1, hright2, hmany⟩
  obtain ⟨left2, right1, hleft2, hright1, hfew⟩ := hfew
  have hhalf : half arr1 arr2 = (arr1.length + arr2.length + 1) / 2 := rfl
  rw [maxLeft_of_pos arr1 (by omega), add_sub_cancel_right] at hleft1
  rw [minRight_of_lt arr1 hlength, hleft1] at hright1
  rw [maxLeft_of_pos arr2 (by omega), sub_sub] at hleft2
  rw [minRight_of_lt arr2 (by omega), hleft2] at hright2
  have hright1 := Option.some.inj hright1
  have hright2 := Option.some.inj hright2
  omega

include harr2 hshorter in
/-- The interval is never empty, so the search never gives up. -/
theorem Narrowed.low_le_high {range : SearchRange}
    (hnarrowed : Narrowed arr1 arr2 range) : range.low ≤ range.high := by
  by_contra hempty
  have hadjacent : range.high = range.low - 1 := by
    have hle := hnarrowed.low_le
    omega
  have hnonneg := hnarrowed.low_nonneg
  have hhigh := hnarrowed.high_le
  by_cases hlow : range.low = 0
  · obtain ⟨left1, right2, hleft1, hright2, hlt⟩ :=
      hnarrowed.tooMany.resolve_left (by omega)
    rw [hadjacent, hlow, zero_sub, neg_add_cancel, maxLeft_zero] at hleft1
    have hbound := intMin_le_of_minRight harr2 hright2
    have hsentinel := Option.some.inj hleft1
    omega
  have hfew := hnarrowed.tooFew.resolve_left hlow
  by_cases hend : range.high = arr1.length
  · obtain ⟨left2, right1, hleft2, hright1, hlt⟩ := hfew
    rw [← hadjacent, hend, minRight_length] at hright1
    have hbound := le_intMax_of_maxLeft harr2 hleft2
    have hsentinel := Option.some.inj hright1
    omega
  · have hmany := hnarrowed.tooMany.resolve_left hend
    rw [hadjacent] at hmany
    exact not_tooMany_of_tooFew hshorter (by omega) (by omega) hfew hmany

include harr1 harr2 hshorter in
/-- In a non-empty interval all four elements next to the cuts can be read. -/
theorem searchPass_eq_judge {range : SearchRange} (hlow : 0 ≤ range.low)
    (hbounds : range.low ≤ range.high) (hhigh : range.high ≤ arr1.length) :
    ∃ cut1 cut2 : ℕ, (cut1 : ℤ) = (range.low + range.high) / 2 ∧
      cut1 + cut2 = half arr1 arr2 ∧
      ∃ left1 right1 left2 right2,
        IsMaxLeft arr1 cut1 left1 ∧ IsMinRight arr1 cut1 right1 ∧
        IsMaxLeft arr2 cut2 left2 ∧ IsMinRight arr2 cut2 right2 ∧
        searchPass exactInt arr1 arr2 arr1.length arr2.length range =
          judge exactInt arr1.length arr2.length range cut1 left1 right1 left2
            right2 := by
  have hhalf : half arr1 arr2 = (arr1.length + arr2.length + 1) / 2 := rfl
  obtain ⟨cut1, hcut1⟩ : ∃ cut1 : ℕ,
      (cut1 : ℤ) = (range.low + range.high) / 2 :=
    ⟨((range.low + range.high) / 2).toNat, by omega⟩
  obtain ⟨cut2, hcut2⟩ : ∃ cut2 : ℕ, cut1 + cut2 = half arr1 arr2 :=
    ⟨half arr1 arr2 - cut1, by omega⟩
  have hpartition1 : (exactInt (range.low + range.high)).tdiv 2 = cut1 := by
    rw [exactInt_apply, Int.tdiv_eq_ediv_of_nonneg (by omega), hcut1]
  have hpartition2 : exactInt ((exactInt (exactInt
      ((arr1.length : ℤ) + arr2.length) + 1)).tdiv 2 - cut1) = cut2 := by
    rw [exactInt_apply, exactInt_apply, exactInt_apply,
      Int.tdiv_eq_ediv_of_nonneg (by omega)]
    omega
  obtain ⟨left1, hleft1⟩ :=
    exists_maxLeft harr1 (show cut1 ≤ arr1.length by omega)
  obtain ⟨right1, hright1⟩ :=
    exists_minRight harr1 (show cut1 ≤ arr1.length by omega)
  obtain ⟨left2, hleft2⟩ :=
    exists_maxLeft harr2 (show cut2 ≤ arr2.length by omega)
  obtain ⟨right2, hright2⟩ :=
    exists_minRight harr2 (show cut2 ≤ arr2.length by omega)
  refine ⟨cut1, cut2, hcut1, hcut2, left1, right1, left2, right2, hleft1,
    hright1, hleft2, hright2, ?_⟩
  simp only [searchPass, if_pos hbounds, hpartition1, hpartition2,
    hleft1.read_eq, hright1.read_eq, hleft2.read_eq, hright2.read_eq]

/-- A cut that is not the right one becomes the end of the interval that it
says something about. -/
theorem judge_narrowed {range : SearchRange} {cut1 cut2 : ℕ}
    {left1 right1 left2 right2 : ℤ}
    (hnarrowed : Narrowed arr1 arr2 range) (hlow : range.low ≤ cut1)
    (hhigh : cut1 ≤ range.high) (hhalf : cut1 + cut2 = half arr1 arr2)
    (hleft1 : IsMaxLeft arr1 cut1 left1)
    (hright1 : IsMinRight arr1 cut1 right1)
    (hleft2 : IsMaxLeft arr2 cut2 left2)
    (hright2 : IsMinRight arr2 cut2 right2)
    (hcross : ¬(left1 ≤ right2 ∧ left2 ≤ right1)) :
    ∃ next, judge exactInt arr1.length arr2.length range cut1 left1 right1
        left2 right2 = .next next ∧
      next.high - next.low < range.high - range.low ∧
      Narrowed arr1 arr2 next := by
  obtain ⟨hnonneg, -, hlength, hfew, hmany⟩ := hnarrowed
  have hcut2 : (half arr1 arr2 : ℤ) - cut1 = cut2 := by omega
  rw [judge, if_neg hcross]
  by_cases habove : left1 > right2
  · have htooMany : TooMany arr1 arr2 ((cut1 : ℤ) - 1 + 1) := by
      rw [sub_add_cancel]
      exact ⟨left1, right2, hleft1.read_eq, hcut2 ▸ hright2.read_eq, habove⟩
    rw [if_pos habove, exactInt_apply]
    exact ⟨_, rfl, show cut1 - 1 - range.low < _ by omega, hnonneg,
      show range.low ≤ cut1 - 1 + 1 by omega,
      show cut1 - 1 ≤ (arr1.length : ℤ) by omega, hfew, Or.inr htooMany⟩
  · have htooFew : TooFew arr1 arr2 ((cut1 : ℤ) + 1 - 1) := by
      rw [add_sub_cancel_right]
      exact ⟨left2, right1, hcut2 ▸ hleft2.read_eq, hright1.read_eq, by omega⟩
    rw [if_neg habove, exactInt_apply]
    exact ⟨_, rfl, show range.high - (cut1 + 1) < _ by omega,
      show 0 ≤ (cut1 : ℤ) + 1 by omega,
      show (cut1 : ℤ) + 1 ≤ range.high + 1 by omega, hlength, Or.inr htooFew,
      hmany⟩

include harr1 harr2 hshorter in
/-- A pass narrows the interval or finds the median. -/
theorem searchPass_narrowed (hsome : arr1 ++ arr2 ≠ []) {range : SearchRange}
    (hnarrowed : Narrowed arr1 arr2 range) :
    (∃ next, searchPass exactInt arr1 arr2 arr1.length arr2.length range =
        .next next ∧ next.high - next.low < range.high - range.low ∧
        Narrowed arr1 arr2 next) ∨
      ∃ value, searchPass exactInt arr1 arr2 arr1.length arr2.length range =
        .exit (.ok value) ∧
        2 * value = (twiceMedian (arr1 ++ arr2) : ℚ) := by
  have hbounds := hnarrowed.low_le_high harr2 hshorter
  obtain ⟨cut1, cut2, hcut1, hhalf, left1, right1, left2, right2, hleft1,
    hright1, hleft2, hright2, hpass⟩ := searchPass_eq_judge harr1 harr2
      hshorter hnarrowed.low_nonneg hbounds hnarrowed.high_le
  have hhigh := hnarrowed.high_le
  have hdef : half arr1 arr2 = (arr1.length + arr2.length + 1) / 2 := rfl
  rw [hpass]
  by_cases hcross : left1 ≤ right2 ∧ left2 ≤ right1
  · exact Or.inr (judge_exit harr1 harr2 (by omega) (by omega) hleft1 hleft2
      hright1 hright2 hcross.1 hcross.2 hhalf hsome)
  · exact Or.inl (judge_narrowed hnarrowed (by omega) (by omega) hhalf hleft1
      hright1 hleft2 hright2 hcross)

theorem Narrowed.start : Narrowed arr1 arr2 ⟨0, arr1.length⟩ :=
  ⟨le_rfl, show (0 : ℤ) ≤ arr1.length + 1 by omega, le_rfl, Or.inl rfl,
    Or.inl rfl⟩

include harr1 harr2 hshorter in
/-- The search finds the median. -/
theorem loop_searchPass (hsome : arr1 ++ arr2 ≠ []) :
    ∃ result, Returns (loop (searchPass exactInt arr1 arr2 arr1.length
        arr2.length) · ⟨0, arr1.length⟩) result ∧
      ∃ value, result = .ok value ∧
        2 * value = (twiceMedian (arr1 ++ arr2) : ℚ) := by
  apply loop_returns fun (variant : ℕ) range =>
    (range.high + 1 - range.low).toNat = variant ∧ Narrowed arr1 arr2 range
  · rintro _ range ⟨rfl, hnarrowed⟩
    have hbounds := hnarrowed.low_le_high harr2 hshorter
    rcases searchPass_narrowed harr1 harr2 hshorter hsome hnarrowed with
      ⟨next, hnext, hless, hkept⟩ | ⟨value, hexit, hvalue⟩
    · exact Or.inl ⟨_, next, hnext, by omega, rfl, hkept⟩
    · exact Or.inr ⟨_, hexit, value, rfl, hvalue⟩
  · exact ⟨rfl, Narrowed.start⟩

end Search

theorem findMedianSortedArrays_of_le {arr1 arr2 : List ℤ}
    (harr1 : SortedInts arr1) (harr2 : SortedInts arr2)
    (hshorter : arr1.length ≤ arr2.length) (hsome : arr1 ++ arr2 ≠ []) :
    ∃ value, Returns (findMedianSortedArrays exactInt · arr1 arr2)
        (.ok value) ∧
      2 * value = (twiceMedian (arr1 ++ arr2) : ℚ) := by
  obtain ⟨_, hreturns, value, rfl, hvalue⟩ :=
    loop_searchPass harr1 harr2 hshorter hsome
  refine ⟨value, returns_of_succ ?_, hvalue⟩
  have horder : ¬exactInt arr1.length > exactInt arr2.length := by
    rw [exactInt_apply, exactInt_apply]
    omega
  simp only [findMedianSortedArrays, if_neg horder]
  exact hreturns

/-- `findMedianSortedArrays` terminates with the median: it neither throws nor
uses a subscript out of range. -/
theorem findMedianSortedArrays_returns {arr1 arr2 : List ℤ}
    (harr1 : SortedInts arr1) (harr2 : SortedInts arr2)
    (hsome : arr1 ≠ [] ∨ arr2 ≠ []) :
    ∃ value, Returns (findMedianSortedArrays exactInt · arr1 arr2)
        (.ok value) ∧
      2 * value = (twiceMedian (arr1 ++ arr2) : ℚ) := by
  rcases le_or_gt arr1.length arr2.length with hshorter | hlonger
  · apply findMedianSortedArrays_of_le harr1 harr2 hshorter
    simpa [imp_iff_not_or] using hsome
  · obtain ⟨value, hreturns, hvalue⟩ := findMedianSortedArrays_of_le harr2
      harr1 hlonger.le (by simpa [imp_iff_not_or, or_comm] using hsome)
    refine ⟨value, returns_of_succ ?_, ?_⟩
    · have horder : exactInt arr1.length > exactInt arr2.length := by
        rw [exactInt_apply, exactInt_apply]
        omega
      simp only [findMedianSortedArrays, if_pos horder]
      exact hreturns
    · rw [hvalue, twiceMedian_perm List.perm_append_comm]

theorem findMedianSortedArrays_returns_of_sentinels :
    ∃ value, Returns (findMedianSortedArrays exactInt · [-2 ^ 31, 7, 7]
        [2 ^ 31 - 1]) (.ok value) ∧
      2 * value = (twiceMedian ([-2 ^ 31, 7, 7] ++ [2 ^ 31 - 1]) : ℚ) :=
  findMedianSortedArrays_returns
    ⟨by decide, by decide, by decide⟩ ⟨by decide, by decide, by decide⟩
    (Or.inl (by decide))

example : twiceMedian ([-2 ^ 31, 7, 7] ++ [2 ^ 31 - 1]) = 14 := by
  decide

end KataCpp.MedianOfSorted
