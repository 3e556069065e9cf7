import KataCpp.Algorithm.MedianOfSorted
import KataCpp.Algorithm.QuickSelectMedian

/-!
# The sum of the two middle elements

Both median functions add two elements of type `int` and convert the sum to
`double` afterwards.  The sum overflows for two large middle elements.  Which
elements are added follows from what the search and the selection do.

Sizes and subscripts are of type `int` as well.  Of an array that is longer than
an `int` can count a part is searched, and for some sizes no sum is formed: the
search has an empty interval or reads before the second array, the selection
never ends.
-/

namespace KataCpp.MedianOverflow

open Iteration MachineInt MedianOfSorted OrderStatistic QuickSelect Segment

/-- The value fits in a 32-bit `int`. -/
def IsInt (value : ℤ) : Prop := -2 ^ 31 ≤ value ∧ value < 2 ^ 31

instance (value : ℤ) : Decidable (IsInt value) :=
  inferInstanceAs (Decidable (_ ∧ _))

/-! ## Two sorted arrays -/

section Sorted

section Code

variable (int : ℤ → ℤ) (arr1 arr2 : List ℤ)

/-- The sum that a pass of the search forms, if it is the last one and the
number of elements is even. -/
def searchSum (n1 n2 : ℤ) (range : SearchRange) : Option ℤ :=
  if range.low ≤ range.high then do
    let partition1 := (int (range.low + range.high)).tdiv 2
    let partition2 := int ((int (int (n1 + n2) + 1)).tdiv 2 - partition1)
    let maxLeft1 ← maxLeft int arr1 partition1
    let minRight1 ← minRight arr1 n1 partition1
    let maxLeft2 ← maxLeft int arr2 partition2
    let minRight2 ← minRight arr2 n2 partition2
    if (maxLeft1 ≤ minRight2 ∧ maxLeft2 ≤ minRight1) ∧
        (int (n1 + n2)).tmod 2 = 0 then
      some (max maxLeft1 maxLeft2 + min minRight1 minRight2)
    else none
  else none

/-- The sums formed after the arrays have been brought into order. -/
def SearchForms (n1 n2 sum : ℤ) : Prop :=
  ∃ range, Visits (searchPass int arr1 arr2 n1 n2) ⟨0, n1⟩ range ∧
    searchSum int arr1 arr2 n1 n2 range = some sum

def SortedForms (sum : ℤ) : Prop :=
  let n1 := wrap32 arr1.length
  let n2 := wrap32 arr2.length
  if n1 > n2 then SearchForms wrap32 arr2 arr1 n2 n1 sum
  else SearchForms wrap32 arr1 arr2 n1 n2 sum

end Code

variable {int : ℤ → ℤ} {arr1 arr2 : List ℤ}

/-- It is the sum of which the pass returns half. -/
theorem searchPass_of_searchSum {n1 n2 sum : ℤ} {range : SearchRange}
    (hsum : searchSum int arr1 arr2 n1 n2 range = some sum) :
    (int (n1 + n2)).tmod 2 = 0 ∧
      searchPass int arr1 arr2 n1 n2 range =
        .exit (.ok ((int sum : ℚ) / 2)) := by
  rw [searchSum] at hsum
  split_ifs at hsum with hbounds
  simp only [Option.bind_eq_bind, Option.bind_eq_some_iff] at hsum
  obtain ⟨maxLeft1, hleft1, minRight1, hright1, maxLeft2, hleft2, minRight2,
    hright2, hsum⟩ := hsum
  split_ifs at hsum with hexit
  obtain ⟨hcross, heven⟩ := hexit
  obtain rfl := Option.some.inj hsum
  refine ⟨heven, ?_⟩
  simp only [searchPass, hbounds, if_true, hleft1, hright1, hleft2, hright2,
    judge, hcross, heven, and_self]

theorem exists_searchSum {n1 n2 : ℤ} {range : SearchRange} {value : ℚ}
    (heven : (int (n1 + n2)).tmod 2 = 0)
    (hpass : searchPass int arr1 arr2 n1 n2 range = .exit (.ok value)) :
    ∃ sum, searchSum int arr1 arr2 n1 n2 range = some sum := by
  simp only [searchPass] at hpass
  split_ifs at hpass with hbounds
  · split at hpass
    · next maxLeft1 minRight1 maxLeft2 minRight2 hleft1 hright1 hleft2
          hright2 =>
        have hcross : maxLeft1 ≤ minRight2 ∧ maxLeft2 ≤ minRight1 := by
          by_contra hcross
          rw [judge, if_neg hcross] at hpass
          split_ifs at hpass
        simp only [searchSum, hleft1, hright1, hleft2, hright2,
          Option.bind_eq_bind, Option.bind_some, hbounds, hcross, heven,
          and_self, if_true]
        exact ⟨_, rfl⟩
    · exact absurd hpass (by simp)
  · exact absurd hpass (by simp)

/-- A search that cannot go on after its first pass. -/
theorem SearchForms.start {n1 n2 sum : ℤ}
    (hforms : SearchForms int arr1 arr2 n1 n2 sum)
    (hstops : ∀ next, searchPass int arr1 arr2 n1 n2 ⟨0, n1⟩ ≠ .next next) :
    searchSum int arr1 arr2 n1 n2 ⟨0, n1⟩ = some sum := by
  obtain ⟨range, hvisits, hsum⟩ := hforms
  have hstart : range = ⟨0, n1⟩ := by
    apply hvisits.invariant (· = ⟨0, n1⟩) rfl
    rintro range next rfl hnext
    exact absurd hnext (hstops next)
  rwa [hstart] at hsum

section Search

variable (harr1 : SortedInts arr1) (harr2 : SortedInts arr2)
  (hshorter : arr1.length ≤ arr2.length) (hsome : arr1 ++ arr2 ≠ [])

include harr1 harr2 hshorter hsome

theorem narrowed_of_visits {range : SearchRange}
    (hvisits : Visits (searchPass exactInt arr1 arr2 arr1.length arr2.length)
      ⟨0, arr1.length⟩ range) : Narrowed arr1 arr2 range := by
  apply hvisits.invariant (Narrowed arr1 arr2) Narrowed.start
  intro range next hnarrowed hnext
  rcases searchPass_narrowed harr1 harr2 hshorter hsome hnarrowed with
    ⟨other, hother, -, hkept⟩ | ⟨value, hexit, -⟩
  · obtain rfl : other = next := by
      rw [hother, Outcome.next.injEq] at hnext
      exact hnext
    exact hkept
  · rw [hexit] at hnext
    exact absurd hnext (by simp)

theorem eq_twiceMedian_of_visits {range : SearchRange} {sum : ℤ}
    (hvisits : Visits (searchPass exactInt arr1 arr2 arr1.length arr2.length)
      ⟨0, arr1.length⟩ range)
    (hsum : searchSum exactInt arr1 arr2 arr1.length arr2.length range =
      some sum) :
    sum = twiceMedian (arr1 ++ arr2) := by
  have hpass := (searchPass_of_searchSum hsum).2
  have hnarrowed := narrowed_of_visits harr1 harr2 hshorter hsome hvisits
  rcases searchPass_narrowed harr1 harr2 hshorter hsome hnarrowed with
    ⟨next, hnext, -, -⟩ | ⟨value, hexit, hvalue⟩
  · rw [hpass] at hnext
    exact absurd hnext (by simp)
  · rw [hpass, Outcome.exit.injEq, Except.ok.injEq] at hexit
    rw [← hexit, mul_div_cancel₀ _ two_ne_zero, Int.cast_inj] at hvalue
    exact hvalue

/-- In exact arithmetic the only sum is that of the two middle elements. -/
theorem searchForms_exactInt_iff (sum : ℤ) :
    SearchForms exactInt arr1 arr2 arr1.length arr2.length sum ↔
      (arr1.length + arr2.length) % 2 = 0 ∧
        sum = twiceMedian (arr1 ++ arr2) := by
  have hparity : (exactInt ((arr1.length : ℤ) + arr2.length)).tmod 2 = 0 ↔
      (arr1.length + arr2.length) % 2 = 0 := by
    rw [exactInt_apply, Int.tmod_eq_emod_of_nonneg (by omega)]
    omega
  constructor
  · rintro ⟨range, hvisits, hsum⟩
    exact ⟨hparity.mp (searchPass_of_searchSum hsum).1,
      eq_twiceMedian_of_visits harr1 harr2 hshorter hsome hvisits hsum⟩
  · rintro ⟨heven, rfl⟩
    obtain ⟨_, ⟨fuel, hreturns⟩, value, rfl, -⟩ :=
      loop_searchPass harr1 harr2 hshorter hsome
    obtain ⟨range, hvisits, hexit⟩ :=
      exists_visits_of_loop (hreturns fuel le_rfl)
    obtain ⟨sum, hsum⟩ := exists_searchSum (hparity.mpr heven) hexit
    obtain rfl :=
      eq_twiceMedian_of_visits harr1 harr2 hshorter hsome hvisits hsum
    exact ⟨range, hvisits, hsum⟩

end Search

section Counted

variable {arr tail tail1 tail2 : List ℤ} {range : SearchRange}

theorem maxLeft_append {cut : ℤ} (hlower : 0 ≤ cut)
    (hupper : cut ≤ arr.length) (hlength : arr.length < 2 ^ 31) :
    maxLeft wrap32 (arr ++ tail) cut = maxLeft exactInt arr cut := by
  rw [maxLeft, maxLeft, wrap32_eq_self (by omega) (by omega), exactInt_apply]
  split_ifs with hcut
  · rfl
  · exact read_append_left tail (by omega)

theorem minRight_append {cut : ℤ} (hupper : cut ≤ arr.length) :
    minRight (arr ++ tail) arr.length cut = minRight arr arr.length cut := by
  rw [minRight, minRight]
  split_ifs with hcut
  · rfl
  · exact read_append_left tail (by omega)

structure Fits (arr1 arr2 : List ℤ) (range : SearchRange) : Prop where
  low_nonneg : 0 ≤ range.low
  high_le : range.high ≤ arr1.length
  shorter : arr1.length ≤ arr2.length
  length_lt : arr1.length + arr2.length + 1 < 2 ^ 31

/-- The two cuts of such a pass. -/
theorem Fits.cuts (hfits : Fits arr1 arr2 range)
    (hbounds : range.low ≤ range.high) :
    ∃ cut1 cut2 : ℤ, (0 ≤ cut1 ∧ cut1 ≤ arr1.length) ∧
      (0 ≤ cut2 ∧ cut2 ≤ arr2.length) ∧
      (∀ int : ℤ → ℤ, int = wrap32 ∨ int = exactInt →
        (int (range.low + range.high)).tdiv 2 = cut1 ∧
        int ((int ((arr1.length : ℤ) + arr2.length + 1)).tdiv 2 - cut1) = cut2 ∧
        int ((arr1.length : ℤ) + arr2.length) = arr1.length + arr2.length ∧
        int (cut1 - 1) = cut1 - 1 ∧ int (cut1 + 1) = cut1 + 1) := by
  obtain ⟨hlow, hhigh, hshorter, hlength⟩ := hfits
  refine ⟨(range.low + range.high) / 2,
    ((arr1.length : ℤ) + arr2.length + 1) / 2 - (range.low + range.high) / 2,
    by omega, by omega, ?_⟩
  rintro int (rfl | rfl)
  · have hcut : (range.low + range.high).tdiv 2 =
        (range.low + range.high) / 2 :=
      Int.tdiv_eq_ediv_of_nonneg (by omega)
    have hhalf : ((arr1.length : ℤ) + arr2.length + 1).tdiv 2 =
        ((arr1.length : ℤ) + arr2.length + 1) / 2 :=
      Int.tdiv_eq_ediv_of_nonneg (by omega)
    have hsum : wrap32 ((arr1.length : ℤ) + arr2.length) =
        arr1.length + arr2.length :=
      wrap32_eq_self (by omega) (by omega)
    have hnext : wrap32 ((arr1.length : ℤ) + arr2.length + 1) =
        arr1.length + arr2.length + 1 :=
      wrap32_eq_self (by omega) (by omega)
    refine ⟨?_, ?_, hsum, ?_, ?_⟩
    · rw [wrap32_eq_self (by omega) (by omega), hcut]
    · rw [hnext, hhalf]
      exact wrap32_eq_self (by omega) (by omega)
    · exact wrap32_eq_self (by omega) (by omega)
    · exact wrap32_eq_self (by omega) (by omega)
  · refine ⟨?_, ?_, rfl, rfl, rfl⟩
    · rw [exactInt_apply, Int.tdiv_eq_ediv_of_nonneg (by omega)]
    · rw [exactInt_apply, exactInt_apply,
        Int.tdiv_eq_ediv_of_nonneg (by omega)]

theorem searchSum_append (hfits : Fits arr1 arr2 range) :
    searchSum wrap32 (arr1 ++ tail1) (arr2 ++ tail2) arr1.length arr2.length
        range =
      searchSum exactInt arr1 arr2 arr1.length arr2.length range := by
  by_cases hbounds : range.low ≤ range.high
  · have hlength := hfits.length_lt
    obtain ⟨cut1, cut2, ⟨hlower1, hupper1⟩, ⟨hlower2, hupper2⟩, hcuts⟩ :=
      hfits.cuts hbounds
    obtain ⟨hcut1, hcut2, hsum, -⟩ := hcuts wrap32 (Or.inl rfl)
    obtain ⟨hexact1, hexact2, hexactSum, -⟩ := hcuts exactInt (Or.inr rfl)
    simp only [searchSum, if_pos hbounds, hcut1, hcut2, hsum, hexact1, hexact2,
      hexactSum, maxLeft_append hlower1 hupper1 (by omega),
      maxLeft_append hlower2 hupper2 (by omega), minRight_append hupper1,
      minRight_append hupper2]
  · rw [searchSum, searchSum, if_neg hbounds, if_neg hbounds]

theorem judge_eq_next_iff {n1 n2 partition1 left1 right1 left2 right2 : ℤ}
    {next : SearchRange} :
    judge int n1 n2 range partition1 left1 right1 left2 right2 = .next next ↔
      ¬(left1 ≤ right2 ∧ left2 ≤ right1) ∧
        next = if left1 > right2 then
            { range with high := int (partition1 - 1) }
          else { range with low := int (partition1 + 1) } := by
  rw [judge]
  by_cases hcross : left1 ≤ right2 ∧ left2 ≤ right1
  · rw [if_pos hcross]
    refine iff_of_false ?_ fun hnext => hnext.1 hcross
    split_ifs <;> simp
  · rw [if_neg hcross, and_iff_right hcross, eq_comm]
    split_ifs <;> rw [Outcome.next.injEq]

/-- The passes go on in the same way. -/
theorem searchPass_append_iff (hfits : Fits arr1 arr2 range)
    (next : SearchRange) :
    searchPass wrap32 (arr1 ++ tail1) (arr2 ++ tail2) arr1.length arr2.length
        range = .next next ↔
      searchPass exactInt arr1 arr2 arr1.length arr2.length range =
        .next next := by
  by_cases hbounds : range.low ≤ range.high
  · have hlength := hfits.length_lt
    obtain ⟨cut1, cut2, ⟨hlower1, hupper1⟩, ⟨hlower2, hupper2⟩, hcuts⟩ :=
      hfits.cuts hbounds
    obtain ⟨hcut1, hcut2, hsum, hless, hmore⟩ := hcuts wrap32 (Or.inl rfl)
    obtain ⟨hexact1, hexact2, hexactSum, -⟩ := hcuts exactInt (Or.inr rfl)
    simp only [searchPass, if_pos hbounds, hcut1, hcut2, hsum, hexact1, hexact2,
      hexactSum, maxLeft_append hlower1 hupper1 (by omega),
      maxLeft_append hlower2 hupper2 (by omega), minRight_append hupper1,
      minRight_append hupper2]
    split
    · rw [judge_eq_next_iff, judge_eq_next_iff, hless, hmore, exactInt_apply,
        exactInt_apply]
    · rfl
  · rw [searchPass, searchPass, if_neg hbounds, if_neg hbounds]

variable (harr1 : SortedInts arr1) (harr2 : SortedInts arr2)
  (hshorter : arr1.length ≤ arr2.length)
  (hlength : arr1.length + arr2.length + 1 < 2 ^ 31)

include harr1 harr2 hshorter hlength

/-- The searches go through the same intervals. -/
theorem visits_append_iff (hsome : arr1 ++ arr2 ≠ []) :
    Visits (searchPass wrap32 (arr1 ++ tail1) (arr2 ++ tail2) arr1.length
        arr2.length) ⟨0, arr1.length⟩ range ↔
      Visits (searchPass exactInt arr1 arr2 arr1.length arr2.length)
        ⟨0, arr1.length⟩ range := by
  have hfits {range : SearchRange} (hvisits :
      Visits (searchPass exactInt arr1 arr2 arr1.length arr2.length)
        ⟨0, arr1.length⟩ range) : Fits arr1 arr2 range :=
    have hnarrowed :=
      narrowed_of_visits harr1 harr2 hshorter hsome hvisits
    ⟨hnarrowed.low_nonneg, hnarrowed.high_le, hshorter, hlength⟩
  constructor
  · intro hvisits
    induction hvisits with
    | start => exact Visits.start
    | next _ hnext ih =>
        exact ih.next ((searchPass_append_iff (hfits ih) _).mp hnext)
  · intro hvisits
    induction hvisits with
    | start => exact Visits.start
    | next hstate hnext ih =>
        exact ih.next ((searchPass_append_iff (hfits hstate) _).mpr hnext)

/-- What stands behind the counted parts has no influence on the sum. -/
theorem searchForms_append_iff (hsome : arr1 ++ arr2 ≠ []) (sum : ℤ) :
    SearchForms wrap32 (arr1 ++ tail1) (arr2 ++ tail2) arr1.length arr2.length
        sum ↔
      (arr1.length + arr2.length) % 2 = 0 ∧
        sum = twiceMedian (arr1 ++ arr2) := by
  rw [← searchForms_exactInt_iff harr1 harr2 hshorter hsome]
  apply exists_congr
  intro range
  rw [visits_append_iff harr1 harr2 hshorter hlength hsome]
  apply and_congr_right
  intro hvisits
  have hnarrowed := narrowed_of_visits harr1 harr2 hshorter hsome hvisits
  rw [searchSum_append
    ⟨hnarrowed.low_nonneg, hnarrowed.high_le, hshorter, hlength⟩]

end Counted

/-- The elements that the size of an array counts as an `int`. -/
def counted (arr : List ℤ) : List ℤ := arr.take (wrap32 arr.length).toNat

/-- One of the sizes is negative, or they are too great to be added, or the
number of elements is odd, or the sum of the middle elements is of type `int`.
-/
def SortedFits (arr1 arr2 : List ℤ) : Prop :=
  let n1 := wrap32 arr1.length
  let n2 := wrap32 arr2.length
  (n1 < 0 ∨ n2 < 0) ∨ 2 ^ 31 ≤ n1 + n2 + 1 ∨ (n1 + n2) % 2 = 1 ∨
    IsInt (twiceMedian (counted arr1 ++ counted arr2))

instance (arr1 arr2 : List ℤ) : Decidable (SortedFits arr1 arr2) :=
  inferInstanceAs (Decidable (_ ∨ _ ∨ _ ∨ _))

theorem sortedFits_comm : SortedFits arr1 arr2 ↔ SortedFits arr2 arr1 := by
  rw [SortedFits, SortedFits, twiceMedian_perm List.perm_append_comm,
    add_comm (wrap32 arr1.length), or_comm (a := wrap32 arr1.length < 0)]

theorem length_counted (hnonneg : 0 ≤ wrap32 arr1.length) :
    ((counted arr1).length : ℤ) = wrap32 arr1.length := by
  have hle := wrap32_le (Int.natCast_nonneg arr1.length)
  rw [counted, List.length_take]
  omega

theorem sortedFits_iff_counted (hnonneg1 : 0 ≤ wrap32 arr1.length)
    (hnonneg2 : 0 ≤ wrap32 arr2.length)
    (hsmall : wrap32 arr1.length + wrap32 arr2.length + 1 < 2 ^ 31) :
    SortedFits arr1 arr2 ↔
      ((counted arr1).length + (counted arr2).length) % 2 = 1 ∨
        IsInt (twiceMedian (counted arr1 ++ counted arr2)) := by
  rw [SortedFits, or_iff_right (by omega), or_iff_right hsmall.not_ge,
    ← length_counted hnonneg1, ← length_counted hnonneg2]
  exact or_congr_left (by omega)

theorem sortedInts_counted (harr1 : SortedInts arr1) :
    SortedInts (counted arr1) where
  sorted := harr1.sorted.sublist (List.take_sublist _ _)
  intMin_le := fun x hx => harr1.intMin_le x (List.mem_of_mem_take hx)
  le_intMax := fun x hx => harr1.le_intMax x (List.mem_of_mem_take hx)

/-- An empty interval. -/
theorem not_searchForms_of_neg {n1 n2 : ℤ} (hnegative : n1 < 0) (sum : ℤ) :
    ¬SearchForms int arr1 arr2 n1 n2 sum := by
  intro hforms
  have hsum := hforms.start (by
    intro next
    simp [searchPass, hnegative.not_ge])
  rw [searchSum, if_neg hnegative.not_ge] at hsum
  exact absurd hsum.symm (Option.some_ne_none sum)

/-- Sizes that are too great to be added: the first pass reads before the second
array. -/
theorem not_searchForms_of_large {n1 n2 : ℤ} (hnonneg : 0 ≤ n1)
    (hshorter : n1 ≤ n2) (hupper : n2 < 2 ^ 31) (hlarge : 2 ^ 31 ≤ n1 + n2 + 1)
    (sum : ℤ) : ¬SearchForms wrap32 arr1 arr2 n1 n2 sum := by
  intro hforms
  have hcut1 : (wrap32 (0 + n1)).tdiv 2 = n1 / 2 := by
    rw [zero_add, wrap32_eq_self (by omega) (by omega),
      Int.tdiv_eq_ediv_of_nonneg hnonneg]
  have hhalf : wrap32 (wrap32 (n1 + n2) + 1) = n1 + n2 + 1 - 2 ^ 32 := by
    rw [wrap32_wrap32_add_one, wrap32, Int.bmod_def]
    split <;> omega
  have hquotient : (n1 + n2 + 1 - 2 ^ 32).tdiv 2 =
      -((2 ^ 32 - (n1 + n2 + 1)) / 2) := by
    rw [tdiv_of_nonpos (by omega), neg_sub]
  have hcut2 : wrap32 (-((2 ^ 32 - (n1 + n2 + 1)) / 2) - n1 / 2) =
      -((2 ^ 32 - (n1 + n2 + 1)) / 2) - n1 / 2 :=
    wrap32_eq_self (by omega) (by omega)
  have hread : maxLeft wrap32 arr2
      (-((2 ^ 32 - (n1 + n2 + 1)) / 2) - n1 / 2) = none := by
    rw [maxLeft, if_neg (by omega), wrap32_eq_self (by omega) (by omega),
      read_of_neg (by omega)]
  have hsum := hforms.start (by
    intro next
    simp only [searchPass, if_pos hnonneg, hcut1, hhalf, hquotient, hcut2,
      hread]
    split
    · next hnone _ => exact absurd hnone.symm (Option.some_ne_none _)
    · simp)
  simp only [searchSum, if_pos hnonneg, hcut1, hhalf, hquotient, hcut2, hread,
    Option.bind_eq_bind, Option.bind_eq_some_iff, Option.bind_none] at hsum
  obtain ⟨_, _, _, _, hnone⟩ := hsum
  exact absurd hnone.symm (Option.some_ne_none sum)

/-- Sizes that count nothing: the sentinels are added. -/
theorem searchForms_zero {sum : ℤ}
    (hforms : SearchForms wrap32 arr1 arr2 0 0 sum) : IsInt sum := by
  have hcut1 : (wrap32 (0 + 0)).tdiv 2 = 0 := by decide
  have hcut2 : wrap32 ((wrap32 (wrap32 (0 + 0) + 1)).tdiv 2 - 0) = 0 := by
    decide
  have hleft (arr : List ℤ) : maxLeft wrap32 arr 0 = some intMin := if_pos rfl
  have hright (arr : List ℤ) : minRight arr 0 0 = some intMax := if_pos rfl
  have hcross : intMin ≤ intMax := by decide
  have hsum := hforms.start (by
    intro next
    simp only [searchPass, if_pos le_rfl, hcut1, hcut2, hleft, hright, ne_eq]
    rw [judge_eq_next_iff]
    exact fun hnext => hnext.1 ⟨hcross, hcross⟩)
  simp only [searchSum, if_pos le_rfl, hcut1, hcut2, hleft, hright,
    Option.bind_eq_bind, Option.bind_some] at hsum
  split_ifs at hsum
  obtain rfl := Option.some.inj hsum
  decide

/-- The sums formed after the arrays have been brought into order. -/
theorem search_isInt_iff (harr1 : SortedInts arr1) (harr2 : SortedInts arr2)
    (hshorter : wrap32 arr1.length ≤ wrap32 arr2.length) :
    (∀ sum, SearchForms wrap32 arr1 arr2 (wrap32 arr1.length)
        (wrap32 arr2.length) sum → IsInt sum) ↔ SortedFits arr1 arr2 := by
  have hupper := wrap32_lt (arr2.length : ℤ)
  rcases lt_or_ge (wrap32 arr1.length) 0 with hnegative | hnonneg1
  · exact iff_of_true
      (fun sum hforms => absurd hforms (not_searchForms_of_neg hnegative sum))
      (.inl (.inl hnegative))
  have hnonneg2 := hnonneg1.trans hshorter
  rcases le_or_gt (2 ^ 31) (wrap32 arr1.length + wrap32 arr2.length + 1) with
    hlarge | hsmall
  · exact iff_of_true
      (fun sum hforms => absurd hforms
        (not_searchForms_of_large hnonneg1 hshorter hupper hlarge sum))
      (.inr (.inl hlarge))
  have hlength1 := length_counted hnonneg1
  have hlength2 := length_counted hnonneg2
  rw [sortedFits_iff_counted hnonneg1 hnonneg2 hsmall]
  by_cases hsome : counted arr1 ++ counted arr2 = []
  · have hempty := congrArg List.length hsome
    rw [List.length_append, List.length_nil] at hempty
    rw [hsome, ← hlength1, ← hlength2]
    rw [show (counted arr1).length = 0 by omega,
      show (counted arr2).length = 0 by omega]
    exact iff_of_true (fun sum => searchForms_zero) (.inr (by decide))
  have hforms (sum : ℤ) : SearchForms wrap32 arr1 arr2 (wrap32 arr1.length)
      (wrap32 arr2.length) sum ↔
        ((counted arr1).length + (counted arr2).length) % 2 = 0 ∧
          sum = twiceMedian (counted arr1 ++ counted arr2) := by
    rw [← searchForms_append_iff (sortedInts_counted harr1)
      (sortedInts_counted harr2) (by omega) (by omega) hsome, hlength1,
      hlength2, counted, counted, List.take_append_drop,
      List.take_append_drop]
  constructor
  · intro hfits
    rcases Nat.mod_two_eq_zero_or_one
      ((counted arr1).length + (counted arr2).length) with heven | hodd
    · exact Or.inr (hfits _ ((hforms _).mpr ⟨heven, rfl⟩))
    · exact Or.inl hodd
  · intro hcondition sum hsum
    obtain ⟨heven, hequal⟩ := (hforms sum).mp hsum
    rw [hequal]
    exact hcondition.resolve_left (by omega)

theorem sorted_isInt_iff (harr1 : SortedInts arr1) (harr2 : SortedInts arr2) :
    (∀ sum, SortedForms arr1 arr2 sum → IsInt sum) ↔
      SortedFits arr1 arr2 := by
  simp only [SortedForms]
  split_ifs with hlonger
  · rw [search_isInt_iff harr2 harr1 hlonger.le, sortedFits_comm]
  · exact search_isInt_iff harr1 harr2 (not_lt.mp hlonger)

end Sorted

/-! ## One array -/

section Selected

section Code

variable (nums : List ℤ)

def highest : ℤ := wrap32 (nums.length - 1)

def middle : ℤ := (wrap32 (0 + highest nums)).tdiv 2

/-- The sum that `median` forms for an even number of elements. -/
def medianSum (mid : ℤ) : Option ℤ := do
  let first ← read nums mid
  let second ← read nums (wrap32 (mid + 1))
  if nums.length % 2 = 0 then some (first + second) else none

/-- The sums formed by `findMedian`, which has to stop for it. -/
def SelectedForms (sum : ℤ) : Prop :=
  ∃ selected,
    Returns (select wrap32 (middle nums) · nums 0 (highest nums)) selected ∧
      medianSum selected (middle nums) = some sum

/-- The element behind the key: the one that the last partition leaves there,
and where it leaves none the next one in order. -/
def follower (key : ℤ) (others : List ℤ) : ℤ :=
  (behind key others).getD
    ((ascending nums).getD ((nums.length - 1) / 2 + 1) 0)

end Code

variable {nums tail : List ℤ}

/-- It is the sum of which `findMedian` returns half. -/
theorem findMedian_of_selectedForms {sum : ℤ}
    (hforms : SelectedForms nums sum) :
    Returns (findMedian wrap32 · nums) ((wrap32 sum : ℚ) / 2) := by
  obtain ⟨selected, hselected, hsum⟩ := hforms
  apply findMedian_returns rfl rfl hselected
  simp only [medianSum, Option.bind_eq_bind, Option.bind_eq_some_iff] at hsum
  obtain ⟨first, hfirst, second, hsecond, hsum⟩ := hsum
  split_ifs at hsum with heven
  obtain rfl := Option.some.inj hsum
  rw [median, if_pos heven, ← highest, ← middle, hfirst, Option.bind_eq_bind,
    Option.bind_some, hsecond]
  rfl

section Places

variable {front lower upper back others : List ℤ} {key : ℤ}
  (hplaced : Placed nums front lower upper back others key)
  (hmid : front.length + lower.length = (nums.length - 1) / 2)

include hplaced hmid

theorem head?_eq_follower (hbehind : upper ++ back ≠ []) :
    (upper ++ back).head? = some (follower nums key others) := by
  have hhead := hplaced.arranges.head?_upper_eq_behind
  cases upper with
  | cons next rest =>
      rw [List.head?_cons] at hhead
      rw [follower, ← hhead, Option.getD_some]
      rfl
  | nil =>
      rw [List.head?_nil] at hhead
      rw [List.nil_append] at hbehind ⊢
      obtain ⟨next, more, rfl⟩ := List.exists_cons_of_ne_nil hbehind
      have hmem : next ∈ [] ++ next :: more := List.mem_cons_self
      have hleast := hplaced.getElem?_least hmem
        (by simpa using hplaced.separated.head_le next rfl)
      rw [hmid] at hleast
      rw [follower, ← hhead, Option.getD_none, List.getD_eq_getElem?_getD,
        hleast]
      rfl

/-- The key and the element behind it are added. -/
theorem medianSum_placed (hlength : nums.length ≤ 2 ^ 31)
    (heven : nums.length % 2 = 0) (htail : tail.length % 2 = 0)
    (hnums : nums ≠ []) :
    medianSum (front ++ (lower ++ key :: (upper ++ (back ++ tail))))
        ((nums.length - 1) / 2 : ℕ) =
      some (key + follower nums key others) := by
  have hkept := hplaced.perm.length_eq
  have hpositive := List.length_pos_iff_ne_nil.mpr hnums
  have hbehind : upper ++ back ≠ [] := by
    rw [← List.length_pos_iff_ne_nil]
    rw [List.length_append, List.length_append, List.length_cons] at hkept
    omega
  have hhead := head?_eq_follower hplaced hmid hbehind
  obtain ⟨next, more, hmore⟩ := List.exists_cons_of_ne_nil hbehind
  rw [hmore, List.head?_cons, Option.some.injEq] at hhead
  have harr : front ++ (lower ++ key :: (upper ++ (back ++ tail))) =
      (front ++ (lower ++ [key])) ++ next :: (more ++ tail) := by
    rw [← List.append_assoc upper, hmore]
    simp
  have hsecond : read (front ++ (lower ++ key :: (upper ++ (back ++ tail))))
      (wrap32 (((nums.length - 1) / 2 : ℕ) + 1)) = some next := by
    rw [harr, wrap32_eq_self (by omega) (by omega)]
    apply read_append_cons
    rw [List.length_append, List.length_append, List.length_singleton]
    omega
  have hparity : (front ++ (lower ++ key :: (upper ++ (back ++ tail)))).length %
      2 = 0 := by
    have hsum : (front ++ (lower ++ key :: (upper ++ (back ++ tail)))).length =
        nums.length + tail.length := by
      rw [← hkept]
      simp only [List.length_append, List.length_cons]
      omega
    omega
  rw [medianSum, hsecond, ← hmid, read_key, Option.bind_eq_bind,
    Option.bind_some, Option.bind_some, if_pos hparity, hhead]

end Places

/-- An array with a part that the selection looks at, and a part behind it. -/
structure Selectable (nums tail : List ℤ) : Prop where
  nonempty : nums ≠ []
  highest_eq : highest (nums ++ tail) = nums.length - 1
  length_le : nums.length ≤ 2 ^ 31
  tail_even : tail.length % 2 = 0

section Selecting

variable (hselectable : Selectable nums tail)

include hselectable

theorem Selectable.middle_eq :
    middle (nums ++ tail) = ((nums.length - 1) / 2 : ℕ) := by
  have hpositive := List.length_pos_iff_ne_nil.mpr hselectable.nonempty
  have hlength := hselectable.length_le
  rw [middle, hselectable.highest_eq, mid_eq_half (by omega) (by omega)]
  omega

theorem Selectable.wrap32_eq (value : ℤ) (hlower : 0 ≤ value)
    (hupper : value ≤ (nums.length : ℤ) - 1) : wrap32 value = value := by
  have hlength := hselectable.length_le
  exact wrap32_eq_self (by omega) (by omega)

theorem Selectable.forms_iff (heven : nums.length % 2 = 0) {key : ℤ}
    {others : List ℤ}
    (hselects : SelectsIn nums ((nums.length - 1) / 2) key others) (sum : ℤ) :
    SelectedForms (nums ++ tail) sum ↔
      sum = key + follower nums key others := by
  obtain ⟨front, lower, upper, back, hplaced, hmid, hselect⟩ :=
    select_placed hselectable.nonempty tail hselectable.wrap32_eq hselects
  have hsum := medianSum_placed hplaced hmid hselectable.length_le heven
    hselectable.tail_even hselectable.nonempty
  rw [← hselectable.middle_eq, ← hselectable.highest_eq] at hselect
  rw [← hselectable.middle_eq] at hsum
  constructor
  · rintro ⟨selected, hselected, hother⟩
    obtain rfl := hselected.unique hselect
    rw [hsum, Option.some.injEq] at hother
    exact hother.symm
  · rintro rfl
    exact ⟨_, hselect, hsum⟩

theorem Selectable.exists_selectsIn {sum : ℤ}
    (hforms : SelectedForms (nums ++ tail) sum) :
    ∃ key others, SelectsIn nums ((nums.length - 1) / 2) key others := by
  have hpositive := List.length_pos_iff_ne_nil.mpr hselectable.nonempty
  obtain ⟨selected, ⟨fuel, hfuel⟩, -⟩ := hforms
  have hselect := hfuel fuel le_rfl
  dsimp only at hselect
  rw [hselectable.middle_eq, hselectable.highest_eq,
    ← List.nil_append (nums ++ tail)] at hselect
  apply selectsIn_of_select [] nums tail rfl _ _ (by omega)
    hselectable.wrap32_eq hselect
  · rw [List.length_nil]
    omega
  · rw [List.length_nil]
    omega

/-- The sum is formed for an even number of elements only. -/
theorem Selectable.even_of_forms {sum : ℤ}
    (hforms : SelectedForms (nums ++ tail) sum) : nums.length % 2 = 0 := by
  obtain ⟨key, others, hselects⟩ := hselectable.exists_selectsIn hforms
  obtain ⟨front, lower, upper, back, hplaced, hmid, hselect⟩ :=
    select_placed hselectable.nonempty tail hselectable.wrap32_eq hselects
  rw [← hselectable.middle_eq, ← hselectable.highest_eq] at hselect
  obtain ⟨selected, hselected, hsum⟩ := hforms
  obtain rfl := hselected.unique hselect
  have hkept := hplaced.perm.length_eq
  have htail := hselectable.tail_even
  simp only [medianSum, Option.bind_eq_bind, Option.bind_eq_some_iff] at hsum
  obtain ⟨first, hfirst, second, hsecond, hsum⟩ := hsum
  split_ifs at hsum with heven
  simp only [List.length_append, List.length_cons] at hkept heven
  omega

theorem Selectable.isInt_iff :
    (∀ sum, SelectedForms (nums ++ tail) sum → IsInt sum) ↔
      nums.length % 2 = 1 ∨ ∀ key others,
        SelectsIn nums ((nums.length - 1) / 2) key others →
          IsInt (key + follower nums key others) := by
  constructor
  · intro hfits
    rcases Nat.mod_two_eq_zero_or_one nums.length with heven | hodd
    · right
      intro key others hselects
      exact hfits _ ((hselectable.forms_iff heven hselects _).mpr rfl)
    · exact Or.inl hodd
  · intro hcondition sum hforms
    have heven := hselectable.even_of_forms hforms
    obtain ⟨key, others, hselects⟩ := hselectable.exists_selectsIn hforms
    rw [(hselectable.forms_iff heven hselects sum).mp hforms]
    exact hcondition.resolve_left (by omega) key others hselects

end Selecting

def selectable (nums : List ℤ) : List ℤ := nums.take (highest nums + 1).toNat

/-- The index `high` makes the selection go on for ever; or it makes it take the
first element, and the sum of the first two is of type `int`; or the number of
elements is odd; or the element of the middle rank has such a sum with the one
that the selection leaves behind it. -/
def SelectedFits (nums : List ℤ) : Prop :=
  highest nums < -1 ∨
    (highest nums = -1 ∧ ∀ first second rest, nums = first :: second :: rest →
      IsInt (first + second)) ∨
    (0 ≤ highest nums ∧ (nums.length % 2 = 1 ∨ ∀ key others,
      SelectsIn (selectable nums) (((selectable nums).length - 1) / 2) key
          others →
        IsInt (key + follower (selectable nums) key others)))

theorem selectable_append (hnonneg : 0 ≤ highest nums) :
    ((selectable nums).length : ℤ) = highest nums + 1 ∧
      Selectable (selectable nums) (nums.drop (highest nums + 1).toNat) := by
  have hupper : highest nums < 2 ^ 31 := wrap32_lt _
  have hle : highest nums ≤ nums.length - 1 := high_le_length rfl hnonneg
  have hlength : ((selectable nums).length : ℤ) = highest nums + 1 := by
    rw [selectable, List.length_take]
    omega
  have hdivides : ((nums.length : ℤ) - 1 - highest nums) % 2 = 0 := by
    rw [highest, wrap32, Int.bmod_def]
    split <;> omega
  refine ⟨hlength, ?_, ?_, by omega, ?_⟩
  · rw [← List.length_pos_iff_ne_nil]
    omega
  · rw [selectable, List.take_append_drop, ← selectable]
    omega
  · rw [List.length_drop]
    omega

/-- For an index `high` of `-1` the selection ends at once, with the first
element at its place. -/
theorem selectedForms_of_highest_eq (hnums : nums ≠ [])
    (hhighest : highest nums = -1) (sum : ℤ) :
    SelectedForms nums sum ↔ ∃ first second rest,
      nums = first :: second :: rest ∧ sum = first + second := by
  have hlength : 2 ≤ nums.length ∧ nums.length % 2 = 0 := by
    have hpositive := List.length_pos_iff_ne_nil.mpr hnums
    rw [highest, wrap32, Int.bmod_def] at hhighest
    split at hhighest <;> omega
  obtain ⟨first, second, rest, rfl⟩ : ∃ first second rest,
      nums = first :: second :: rest := by
    obtain ⟨first, more, rfl⟩ := List.exists_cons_of_ne_nil hnums
    have hmore : more ≠ [] := by
      rw [← List.length_pos_iff_ne_nil]
      rw [List.length_cons] at hlength
      omega
    obtain ⟨second, rest, rfl⟩ := List.exists_cons_of_ne_nil hmore
    exact ⟨first, second, rest, rfl⟩
  have hmiddle : middle (first :: second :: rest) = 0 := by
    rw [middle, hhighest]
    decide
  have hselect : Returns (select wrap32 (middle (first :: second :: rest)) ·
      (first :: second :: rest) 0 (highest (first :: second :: rest)))
      (first :: second :: rest) := by
    rw [hmiddle, hhighest]
    exact select_found (partition_of_le first (second :: rest) (by omega))
  have hsum : medianSum (first :: second :: rest) 0 =
      some (first + second) := by
    have hfirst : read (first :: second :: rest) 0 = some first := rfl
    have hsecond : read (first :: second :: rest) (wrap32 (0 + 1)) =
        some second := rfl
    rw [medianSum, hfirst, hsecond, Option.bind_eq_bind, Option.bind_some,
      Option.bind_some, if_pos hlength.2]
  rw [← hmiddle] at hsum
  constructor
  · rintro ⟨selected, hselected, hother⟩
    obtain rfl := hselected.unique hselect
    rw [hsum, Option.some.injEq] at hother
    exact ⟨first, second, rest, rfl, hother.symm⟩
  · rintro ⟨_, _, _, hsplit, rfl⟩
    simp only [List.cons.injEq] at hsplit
    obtain ⟨rfl, rfl, rfl⟩ := hsplit
    exact ⟨_, hselect, hsum⟩

theorem selected_isInt_iff (hnums : nums ≠ []) :
    (∀ sum, SelectedForms nums sum → IsInt sum) ↔ SelectedFits nums := by
  rcases lt_trichotomy (highest nums) (-1) with hless | hequal | hmore
  · have hnever (sum : ℤ) : ¬SelectedForms nums sum := by
      rintro ⟨selected, hselected, -⟩
      exact not_returns (fun _ => select_of_high_lt hnums rfl hless) selected
        hselected
    exact iff_of_true (fun sum hforms => absurd hforms (hnever sum))
      (Or.inl hless)
  · simp only [selectedForms_of_highest_eq hnums hequal]
    rw [SelectedFits, or_iff_right (by omega), or_iff_left (by omega),
      and_iff_right hequal]
    constructor
    · rintro hfits first second rest rfl
      exact hfits _ ⟨first, second, rest, rfl, rfl⟩
    · rintro hfits sum ⟨first, second, rest, hsplit, rfl⟩
      exact hfits first second rest hsplit
  · have hnonneg : 0 ≤ highest nums := by omega
    obtain ⟨hlength, hselectable⟩ := selectable_append hnonneg
    have hfits := hselectable.isInt_iff
    have htail := hselectable.tail_even
    have hsum : (selectable nums).length +
        (nums.drop (highest nums + 1).toNat).length = nums.length := by
      rw [selectable, ← List.length_append, List.take_append_drop]
    have hparity : (selectable nums).length % 2 = 1 ↔ nums.length % 2 = 1 := by
      omega
    rw [selectable, List.take_append_drop, ← selectable, hparity] at hfits
    rw [SelectedFits, or_iff_right (by omega),
      or_iff_right fun hboth => absurd hboth.1 hmore.ne', and_iff_right hnonneg]
    exact hfits

end Selected

/-- The sums are of type `int` exactly under the two conditions. -/
theorem median_sums_isInt_iff (arr1 arr2 nums : List ℤ)
    (harr1 : SortedInts arr1) (harr2 : SortedInts arr2) (hnums : nums ≠ []) :
    ((∀ sum, SortedForms arr1 arr2 sum → IsInt sum) ↔
        SortedFits arr1 arr2) ∧
      ((∀ sum, SelectedForms nums sum → IsInt sum) ↔ SelectedFits nums) :=
  ⟨sorted_isInt_iff harr1 harr2, selected_isInt_iff hnums⟩

theorem median_sums_isInt_iff_demo :
    (∀ sum, SortedForms [2, 7, 11, 13, 15, 18] [3, 5, 8, 11, 14, 16, 27] sum →
        IsInt sum) ∧
      ((∀ sum, SelectedForms [7, 5, 3, 1, 11, 9] sum → IsInt sum) ↔
        SelectedFits [7, 5, 3, 1, 11, 9]) := by
  have hboth := median_sums_isInt_iff [2, 7, 11, 13, 15, 18]
    [3, 5, 8, 11, 14, 16, 27] [7, 5, 3, 1, 11, 9]
    ⟨by decide, by decide, by decide⟩ ⟨by decide, by decide, by decide⟩
    (by decide)
  exact ⟨hboth.1.mpr (.inr (.inr (.inl (by decide)))), hboth.2⟩

/-- Two arrays with the greatest `int`, and an array of the two greatest. -/
theorem median_sums_overflow :
    ¬(∀ sum, SortedForms [2 ^ 31 - 1] [2 ^ 31 - 1] sum → IsInt sum) ∧
      ¬(∀ sum, SelectedForms [2 ^ 31 - 2, 2 ^ 31 - 1] sum → IsInt sum) := by
  constructor
  · have hmax : SortedInts [2 ^ 31 - 1] :=
      ⟨by decide, by decide, by decide⟩
    rw [sorted_isInt_iff hmax hmax]
    decide
  · rw [selected_isInt_iff (List.cons_ne_nil _ _)]
    have harranges : Arranges (2 ^ 31 - 2) .low ([] ++ [2 ^ 31 - 1]) []
        ([] ++ [2 ^ 31 - 1]) := .keepHigh (by decide) (.done .low)
    have hselects : SelectsIn [2 ^ 31 - 2, 2 ^ 31 - 1] 0 (2 ^ 31 - 2)
        [2 ^ 31 - 1] := SelectsIn.found (by decide) harranges
    rintro (hless | ⟨hequal, -⟩ | ⟨-, hodd | hfits⟩)
    · exact absurd hless (by decide)
    · exact absurd hequal (by decide)
    · exact absurd hodd (by decide)
    · exact absurd (hfits _ _ hselects) (by decide)

end KataCpp.MedianOverflow
