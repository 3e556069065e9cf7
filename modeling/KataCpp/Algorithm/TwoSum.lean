import KataCpp.Core.Iteration
import KataCpp.Core.MachineInt
import KataCpp.Core.Segment

/-!
# Two numbers with a given sum

`twoSum` remembers for every number read so far a position where it stands, and
looks for the number that is missing.  Of a repeated number the last position is
kept, which does not matter: the next number finds it or no other.

`twoSumInSortedArr` moves two positions towards each other.  No position that it
passes belongs to a solution, since the array is ascending.

The positions are of type `int`, and `twoSum` compares its own with the size of
the array as an unsigned number.  Behind `2 ^ 31` numbers it is negative, which
compares as greater than every size, and the search is given up.
-/

namespace KataCpp.TwoSum

open Iteration MachineInt Segment

section Code

variable (nums : List ℤ) (target : ℤ)

/-- A pass of the loop in `twoSum`, on `num_idx_map` and `i`. -/
def twoSumPass (state : (ℤ → Option ℤ) × ℤ) :
    Outcome ((ℤ → Option ℤ) × ℤ) (List ℤ) :=
  if asSize state.2 < nums.length then
    match read nums state.2 with
    | none => .fault
    | some number =>
        match state.1 (wrap32 (target - number)) with
        | some index => .exit [index, state.2]
        | none => .next (Function.update state.1 number (some state.2),
            wrap32 (state.2 + 1))
  else .exit [-1, -1]

def twoSum (fuel : ℕ) : Option (List ℤ) :=
  loop (twoSumPass nums target) fuel (fun _ => none, 0)

/-- A pass of the loop in `twoSumInSortedArr`, on `left` and `right`. -/
def sortedPass (ends : ℤ × ℤ) : Outcome (ℤ × ℤ) (List ℤ) :=
  if ends.1 < ends.2 then
    match read nums ends.1, read nums ends.2 with
    | some x, some y =>
        let sum := wrap32 (x + y)
        if sum = target then .exit [ends.1, ends.2]
        else if sum < target then .next (wrap32 (ends.1 + 1), ends.2)
        else if sum > target then .next (ends.1, wrap32 (ends.2 - 1))
        else .next ends
    | _, _ => .fault
  else .exit []

def twoSumInSortedArr (fuel : ℕ) : Option (List ℤ) :=
  loop (sortedPass nums target) fuel (0, wrap32 (nums.length - 1))

end Code

def IsPair (nums : List ℤ) (target : ℤ) (i j : ℕ) : Prop :=
  i < j ∧ ∃ x y, nums[i]? = some x ∧ nums[j]? = some y ∧ x + y = target

/-- A pair of positions is returned if there is one, and `none` stands for the
answer that there is none. -/
def Answers (nums : List ℤ) (target : ℤ) (none result : List ℤ) : Prop :=
  (∃ i j : ℕ, result = [(i : ℤ), (j : ℤ)] ∧ IsPair nums target i j) ∨
    (result = none ∧ ∀ i j, ¬IsPair nums target i j)

/-- The numbers are of type `int`, and so are the differences that `twoSum`
forms and the sums of two of them. -/
structure NoOverflow (nums : List ℤ) (target : ℤ) : Prop where
  number : ∀ x ∈ nums, wrap32 x = x
  goal : wrap32 target = target
  difference : ∀ x ∈ nums, wrap32 (target - x) = target - x
  sum : nums.Pairwise fun x y => wrap32 (x + y) = x + y

/-- `twoSum` finds a solution if there is one, and so does `twoSumInSortedArr`
if the numbers are ascending: then one answers that there is a solution exactly
when the other does. -/
def Correct (nums : List ℤ) (target : ℤ) : Prop :=
  ∃ result, Returns (twoSum nums target) result ∧
    Answers nums target [-1, -1] result ∧
    (nums.Pairwise (· ≤ ·) → ∃ sortedResult,
      Returns (twoSumInSortedArr nums target) sortedResult ∧
      Answers nums target [] sortedResult ∧
      (result ≠ [-1, -1] ↔ sortedResult ≠ []))

variable {nums : List ℤ} {target : ℤ}

/-! ## With a map -/

/-- What `num_idx_map` knows after `count` numbers without a solution. -/
structure Scanned (nums : List ℤ) (target : ℤ) (map : ℤ → Option ℤ)
    (count : ℕ) : Prop where
  le_length : count ≤ nums.length
  stands : ∀ number index, map number = some index →
    ∃ position : ℕ, index = position ∧ position < count ∧
      nums[position]? = some number
  known : ∀ position < count, ∀ number, nums[position]? = some number →
    (map number).isSome
  noPair : ∀ i j, j < count → ¬IsPair nums target i j

theorem Scanned.start : Scanned nums target (fun _ => none) 0 where
  le_length := Nat.zero_le _
  stands := fun _ _ hnone => absurd hnone (by simp)
  known := fun position hposition => absurd hposition (Nat.not_lt_zero _)
  noPair := fun _ j hj => absurd hj (Nat.not_lt_zero j)

/-- A number whose counterpart is not known belongs to no solution with the
numbers before it. -/
theorem Scanned.step {map : ℤ → Option ℤ} {count : ℕ}
    (hscanned : Scanned nums target map count) (hcount : count < nums.length)
    (hunknown : map (target - nums[count]) = none) :
    Scanned nums target
      (Function.update map nums[count] (some (count : ℤ))) (count + 1) where
  le_length := hcount
  stands := by
    intro number index hindex
    by_cases hnumber : number = nums[count]
    · rw [hnumber, Function.update_self, Option.some.injEq] at hindex
      refine ⟨count, hindex.symm, Nat.lt_succ_self count, ?_⟩
      rw [hnumber, List.getElem?_eq_getElem hcount]
    · rw [Function.update_of_ne hnumber] at hindex
      obtain ⟨position, hposition, hless, hnums⟩ :=
        hscanned.stands number index hindex
      exact ⟨position, hposition, Nat.lt_succ_of_lt hless, hnums⟩
  known := by
    intro position hposition number hnums
    by_cases hnumber : number = nums[count]
    · rw [hnumber, Function.update_self]
      rfl
    · rw [Function.update_of_ne hnumber]
      have hne : position ≠ count := by
        rintro rfl
        rw [List.getElem?_eq_getElem hcount, Option.some.injEq] at hnums
        exact hnumber hnums.symm
      exact hscanned.known position (by omega) number hnums
  noPair := by
    intro i j hj hpair
    by_cases hlast : j = count
    · obtain ⟨hless, x, y, hx, hy, hsum⟩ := hpair
      rw [hlast, List.getElem?_eq_getElem hcount, Option.some.injEq] at hy
      have hknown := hscanned.known i (by omega) x hx
      obtain rfl : x = target - nums[count] := by omega
      rw [hunknown] at hknown
      exact absurd hknown (by simp)
    · exact hscanned.noPair i j (by omega) hpair

section WithMap

/-- The position is compared with the size as an unsigned number. -/
theorem asSize_wrap32_lt_iff {count size : ℕ} (hcount : count ≤ 2 ^ 31)
    (hsize : size < 2 ^ 63) :
    asSize (wrap32 count) < size ↔ count < 2 ^ 31 ∧ count < size := by
  rcases hcount.lt_or_eq with hless | hlast
  · rw [wrap32_natCast hless, asSize_natCast (by omega)]
    omega
  · have hnegative : wrap32 (count : ℤ) < 0 := wrap32_neg (by omega) (by omega)
    have hlarge := le_asSize (le_wrap32 count) hnegative hsize
    omega

variable (hint : NoOverflow nums target) (hsize : nums.length < 2 ^ 63)

include hint hsize

theorem twoSumPass_scanned {seen : List ℤ} (hseen : seen <+: nums)
    (hlength : seen.length = min (2 ^ 31) nums.length)
    {map : ℤ → Option ℤ} {count : ℕ}
    (hscanned : Scanned seen target map count) :
    (∃ next, twoSumPass nums target (map, wrap32 count) =
        .next (next, wrap32 (count + 1 : ℕ)) ∧ count < seen.length ∧
        Scanned seen target next (count + 1)) ∨
      ∃ result, twoSumPass nums target (map, wrap32 count) = .exit result ∧
        Answers seen target [-1, -1] result := by
  have hle := hscanned.le_length
  have hcondition := @asSize_wrap32_lt_iff count _ (by omega) hsize
  by_cases hcount : count < seen.length
  · rw [iff_true_right (by omega)] at hcondition
    have hposition : wrap32 (count : ℤ) = count := wrap32_natCast (by omega)
    have hread : read nums count = some seen[count] := by
      rw [read_natCast]
      exact List.prefix_iff_getElem?.mp hseen count hcount
    have hexpect := hint.difference _
      (hseen.subset (List.getElem_mem hcount))
    rw [hposition] at hcondition ⊢
    cases hmap : map (target - seen[count]) with
    | some index =>
        right
        refine ⟨[index, count], ?_, ?_⟩
        · simp only [twoSumPass, hcondition, if_true, hread, hexpect, hmap]
        · obtain ⟨position, rfl, hless, hnums⟩ :=
            hscanned.stands _ _ hmap
          left
          exact ⟨position, count, rfl, hless, _, _, hnums,
            List.getElem?_eq_getElem hcount, by omega⟩
    | none =>
        left
        refine ⟨_, ?_, hcount, hscanned.step hcount hmap⟩
        rw [Nat.cast_succ]
        simp only [twoSumPass, hcondition, if_true, hread, hexpect, hmap]
  · rw [iff_false_right (by omega)] at hcondition
    right
    refine ⟨[-1, -1], ?_, Or.inr ⟨rfl, ?_⟩⟩
    · rw [twoSumPass, if_neg hcondition]
    · intro i j hpair
      obtain ⟨-, -, y, -, hy, -⟩ := id hpair
      have hj := (List.getElem?_eq_some_iff.mp hy).1
      exact hscanned.noPair i j (by omega) hpair

/-- The function looks at the first `2 ^ 31` numbers. -/
theorem twoSum_answers :
    ∃ result, Returns (twoSum nums target) result ∧
      Answers (nums.take (2 ^ 31)) target [-1, -1] result := by
  have hseen := List.take_prefix (2 ^ 31) nums
  have hlength := @List.length_take _ (2 ^ 31) nums
  generalize nums.take (2 ^ 31) = seen at hseen hlength ⊢
  apply loop_returns (fun (variant : ℕ) state => ∃ count : ℕ,
    wrap32 count = state.2 ∧ Scanned seen target state.1 count ∧
      variant = seen.length - count)
  · rintro variant ⟨map, i⟩ ⟨count, rfl, hscanned, rfl⟩
    rcases twoSumPass_scanned hint hsize hseen hlength hscanned with
      ⟨next, hpass, hcount, hnext⟩ | hexit
    · refine Or.inl ⟨seen.length - (count + 1), _, hpass, by omega, count + 1,
        ?_, hnext, rfl⟩
      simp only
    · exact Or.inr hexit
  · exact ⟨0, by decide, Scanned.start, rfl⟩

end WithMap

/-! ## In an ascending array -/

/-- All solutions lie between the two positions. -/
structure Between (nums : List ℤ) (target : ℤ) (ends : ℤ × ℤ) : Prop where
  left_nonneg : 0 ≤ ends.1
  right_lt : ends.2 < nums.length
  encloses : ∀ i j : ℕ, IsPair nums target i j → ends.1 ≤ i ∧ j ≤ ends.2

theorem Between.start : Between nums target (0, nums.length - 1) where
  left_nonneg := le_rfl
  right_lt := sub_one_lt _
  encloses := by
    rintro i j ⟨-, -, y, -, hy, -⟩
    have hj := (List.getElem?_eq_some_iff.mp hy).1
    simp only
    omega

section Sorted

variable (hsorted : nums.Pairwise (· ≤ ·))

include hsorted

theorem le_of_getElem? {i j : ℕ} {x y : ℤ} (hle : i ≤ j)
    (hx : nums[i]? = some x) (hy : nums[j]? = some y) : x ≤ y := by
  obtain ⟨hi, rfl⟩ := List.getElem?_eq_some_iff.mp hx
  obtain ⟨hj, rfl⟩ := List.getElem?_eq_some_iff.mp hy
  rcases hle.eq_or_lt with rfl | hless
  · exact le_rfl
  · exact List.pairwise_iff_getElem.mp hsorted i j hi hj hless

variable {left right : ℕ} {first last : ℤ}

/-- The left number is too small for every partner that is left. -/
theorem Between.moveLeft (hbetween : Between nums target (left, right))
    (hfirst : nums[left]? = some first) (hlast : nums[right]? = some last)
    (hsum : first + last < target) :
    Between nums target ((left : ℤ) + 1, right) where
  left_nonneg := Int.add_nonneg (Int.natCast_nonneg left) Int.one_nonneg
  right_lt := hbetween.right_lt
  encloses := by
    intro i j hpair
    obtain ⟨hlower, hupper⟩ := hbetween.encloses i j hpair
    refine ⟨?_, hupper⟩
    by_contra hless
    obtain ⟨-, x, y, hx, hy, htarget⟩ := hpair
    have hxle := le_of_getElem? hsorted (by simp only at hless; omega) hx hfirst
    have hyle := le_of_getElem? hsorted (by simp only at hupper; omega) hy hlast
    omega

/-- The right number is too large for every partner that is left. -/
theorem Between.moveRight (hbetween : Between nums target (left, right))
    (hfirst : nums[left]? = some first) (hlast : nums[right]? = some last)
    (hsum : target < first + last) :
    Between nums target (left, (right : ℤ) - 1) where
  left_nonneg := hbetween.left_nonneg
  right_lt := (sub_one_lt _).trans hbetween.right_lt
  encloses := by
    intro i j hpair
    obtain ⟨hlower, hupper⟩ := hbetween.encloses i j hpair
    refine ⟨hlower, ?_⟩
    by_contra hless
    obtain ⟨-, x, y, hx, hy, htarget⟩ := hpair
    have hxle := le_of_getElem? hsorted (Int.ofNat_le.mp hlower) hfirst hx
    have hyle := le_of_getElem? hsorted (by simp only at hless; omega) hlast hy
    omega

variable (hint : NoOverflow nums target) (hlength : nums.length ≤ 2 ^ 31)

include hint hlength

theorem sortedPass_between {ends : ℤ × ℤ}
    (hbetween : Between nums target ends) :
    (∃ next, sortedPass nums target ends = .next next ∧
        (next.2 - next.1).toNat < (ends.2 - ends.1).toNat ∧
        Between nums target next) ∨
      ∃ result, sortedPass nums target ends = .exit result ∧
        Answers nums target [] result := by
  obtain ⟨i, j⟩ := ends
  by_cases hless : i < j
  · have hlower := hbetween.left_nonneg
    have hupper := hbetween.right_lt
    obtain ⟨left, rfl⟩ := Int.eq_ofNat_of_zero_le hlower
    obtain ⟨right, rfl⟩ := Int.eq_ofNat_of_zero_le (hlower.trans hless.le)
    have hleft : left < nums.length := by simp only at hupper; omega
    have hright : right < nums.length := by simp only at hupper; omega
    have hfirst := List.getElem?_eq_getElem hleft
    have hlast := List.getElem?_eq_getElem hright
    have hsum := List.pairwise_iff_getElem.mp hint.sum left right hleft hright
      (by omega)
    have hnextLeft : wrap32 ((left : ℤ) + 1) = left + 1 :=
      wrap32_eq_self (by omega) (by omega)
    have hnextRight : wrap32 ((right : ℤ) - 1) = right - 1 :=
      wrap32_eq_self (by omega) (by omega)
    rcases lt_trichotomy (nums[left] + nums[right]) target with
      hsmall | hequal | hlarge
    · left
      refine ⟨((left : ℤ) + 1, right), ?_, by simp only; omega,
        hbetween.moveLeft hsorted hfirst hlast hsmall⟩
      simp only [sortedPass, hless, if_true, read_natCast, hfirst, hlast, hsum,
        hsmall.ne, if_false, hsmall, hnextLeft]
    · right
      refine ⟨[left, right], ?_, Or.inl ⟨left, right, rfl, by omega, _, _,
        hfirst, hlast, hequal⟩⟩
      rw [hequal] at hsum
      simp only [sortedPass, hless, if_true, read_natCast, hfirst, hlast,
        hequal, hsum]
    · left
      refine ⟨(left, (right : ℤ) - 1), ?_, by simp only; omega,
        hbetween.moveRight hsorted hfirst hlast hlarge⟩
      simp only [sortedPass, hless, if_true, read_natCast, hfirst, hlast, hsum,
        hlarge.ne', if_false, hlarge.not_gt, gt_iff_lt, hlarge, hnextRight]
  · right
    refine ⟨[], by simp only [sortedPass, hless, if_false], Or.inr ⟨rfl, ?_⟩⟩
    intro left right hpair
    have hends := hbetween.encloses left right hpair
    have horder := hpair.1
    simp only at hends
    omega

theorem twoSumInSortedArr_answers :
    ∃ result, Returns (twoSumInSortedArr nums target) result ∧
      Answers nums target [] result := by
  have hstart : wrap32 ((nums.length : ℤ) - 1) = nums.length - 1 :=
    wrap32_eq_self (by omega) (by omega)
  have hcompute : twoSumInSortedArr nums target =
      fun fuel => loop (sortedPass nums target) fuel
        (0, (nums.length : ℤ) - 1) := by
    funext fuel
    rw [twoSumInSortedArr, hstart]
  rw [hcompute]
  apply loop_returns (fun (variant : ℕ) ends =>
    Between nums target ends ∧ variant = (ends.2 - ends.1).toNat)
  · rintro variant ends ⟨hbetween, rfl⟩
    rcases sortedPass_between hsorted hint hlength hbetween with
      ⟨next, hpass, hless, hnext⟩ | hexit
    · exact Or.inl ⟨_, next, hpass, hless, hnext, rfl⟩
    · exact Or.inr hexit
  · exact ⟨Between.start, rfl⟩

end Sorted

/-- An answer that is no pair of positions says that there is no solution. -/
theorem Answers.ne_iff {none result : List ℤ}
    (hnone : ∀ i j : ℕ, none ≠ [(i : ℤ), (j : ℤ)])
    (hanswers : Answers nums target none result) :
    result ≠ none ↔ ∃ i j, IsPair nums target i j := by
  rcases hanswers with ⟨i, j, rfl, hpair⟩ | ⟨rfl, hnoPair⟩
  · exact iff_of_true (hnone i j).symm ⟨i, j, hpair⟩
  · refine iff_of_false (not_not_intro rfl) ?_
    rintro ⟨i, j, hpair⟩
    exact hnoPair i j hpair

/-- Zeros and a one behind them. -/
theorem noOverflow_replicate (count : ℕ) :
    NoOverflow (List.replicate count 0 ++ [1]) 1 where
  number := by
    intro x hx
    rcases List.mem_append.mp hx with hzero | hone
    · rw [List.eq_of_mem_replicate hzero]
      decide
    · rw [List.mem_singleton.mp hone]
      decide
  goal := by decide
  difference := by
    intro x hx
    rcases List.mem_append.mp hx with hzero | hone
    · rw [List.eq_of_mem_replicate hzero]
      decide
    · rw [List.mem_singleton.mp hone]
      decide
  sum := by
    rw [List.pairwise_append]
    refine ⟨?_, List.pairwise_singleton _ _, ?_⟩
    · rw [List.pairwise_replicate]
      exact Or.inr (by decide)
    · intro x hx y hy
      rw [List.eq_of_mem_replicate hx, List.mem_singleton.mp hy]
      decide

/-- The one is not seen if more zeros than can be counted stand before it. -/
theorem not_correct_replicate {count : ℕ} (hlong : 2 ^ 31 ≤ count)
    (hsize : count + 1 < 2 ^ 63) :
    ¬Correct (List.replicate count 0 ++ [1]) 1 := by
  rintro ⟨result, hreturns, hanswers, -⟩
  obtain ⟨other, hother, hseen⟩ :=
    twoSum_answers (noOverflow_replicate count) (by simpa using hsize)
  obtain rfl := hreturns.unique hother
  rw [List.take_append_of_le_length (by rwa [List.length_replicate])] at hseen
  have hpair : IsPair (List.replicate count 0 ++ [1]) 1 0 count := by
    refine ⟨by omega, 0, 1, ?_, ?_, rfl⟩
    · rw [List.getElem?_append_left (by rw [List.length_replicate]; omega),
        List.getElem?_replicate_of_lt (by omega)]
    · rw [List.getElem?_append_right (by rw [List.length_replicate]),
        List.length_replicate, Nat.sub_self]
      rfl
  have hfound := (hanswers.ne_iff (by intro i j; simp)).mpr ⟨0, count, hpair⟩
  obtain ⟨i, j, -, x, y, hx, hy, hsum⟩ :=
    (hseen.ne_iff (by intro i j; simp)).mp hfound
  have hxzero := List.eq_of_mem_replicate
    (List.mem_of_mem_take (List.mem_of_getElem? hx))
  have hyzero := List.eq_of_mem_replicate
    (List.mem_of_mem_take (List.mem_of_getElem? hy))
  omega

end KataCpp.TwoSum
