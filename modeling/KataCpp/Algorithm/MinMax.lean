import KataCpp.Core.Iteration
import KataCpp.Core.MachineInt
import KataCpp.Core.Segment

/-!
# The least and the greatest element

`find_min_max` divides a range of a vector in two halves and combines the
results for both.  Ranges of one and of two elements are not divided, so that
no half is empty.
-/

namespace KataCpp.MinMax

open Iteration MachineInt Segment

/-- `find_min_max`, with `min` and `max` as its results. -/
def findMinMax : ℕ → List ℤ → ℤ → ℤ → Option (ℤ × ℤ)
  | 0, _, _, _ => none
  | fuel + 1, nums, left, right =>
      if left = right then do
        let x ← read nums left
        return (x, x)
      else if wrap32 (left + 1) = right then do
        let x ← read nums left
        let y ← read nums right
        if x < y then return (x, y) else return (y, x)
      else do
        let mid := (wrap32 (left + right)).tdiv 2
        let (minLeft, maxLeft) ← findMinMax fuel nums left mid
        let (minRight, maxRight) ←
          findMinMax fuel nums (wrap32 (mid + 1)) right
        return (if minLeft < minRight then minLeft else minRight,
          if maxLeft > maxRight then maxLeft else maxRight)

/-- The elements `nums[left], …, nums[right]`. -/
def elements (nums : List ℤ) (left right : ℤ) : Set ℤ :=
  {x | ∃ i, left ≤ i ∧ i ≤ right ∧ read nums i = some x}

/-- The least and the greatest element of a set. -/
def Extremes (values : Set ℤ) (result : ℤ × ℤ) : Prop :=
  IsLeast values result.1 ∧ IsGreatest values result.2

section Combining

variable {nums : List ℤ} {left mid right : ℤ}

theorem elements_union (hleft : left ≤ mid) (hright : mid ≤ right) :
    elements nums left right =
      elements nums left mid ∪ elements nums (mid + 1) right := by
  ext x
  constructor
  · rintro ⟨i, hlower, hupper, hread⟩
    rcases le_or_gt i mid with hmid | hmid
    · exact .inl ⟨i, hlower, hmid, hread⟩
    · exact .inr ⟨i, hmid, hupper, hread⟩
  · rintro (⟨i, hlower, hupper, hread⟩ | ⟨i, hlower, hupper, hread⟩)
    · exact ⟨i, hlower, hupper.trans hright, hread⟩
    · exact ⟨i, by omega, hupper, hread⟩

theorem elements_self {x : ℤ} (hread : read nums left = some x) :
    elements nums left left = {x} := by
  ext y
  constructor
  · rintro ⟨i, hlower, hupper, hy⟩
    obtain rfl : i = left := le_antisymm hupper hlower
    rw [hread] at hy
    exact (Option.some.inj hy).symm
  · rintro rfl
    exact ⟨left, le_rfl, le_rfl, hread⟩

theorem extremes_singleton (x : ℤ) : Extremes {x} (x, x) :=
  ⟨isLeast_singleton, isGreatest_singleton⟩

/-- The results for two halves are combined. -/
theorem Extremes.union {first second : Set ℤ} {left right : ℤ × ℤ}
    (hleft : Extremes first left) (hright : Extremes second right) :
    Extremes (first ∪ second) (if left.1 < right.1 then left.1 else right.1,
      if left.2 > right.2 then left.2 else right.2) := by
  constructor
  · rw [← min_def_lt]
    exact hleft.1.union hright.1
  · simp only [gt_iff_lt]
    rw [← max_def_lt, max_comm]
    exact hleft.2.union hright.2

end Combining

section Ranges

variable {nums : List ℤ} {left right : ℤ}

theorem exists_read {i : ℤ} (hlower : 0 ≤ i) (hupper : i < nums.length) :
    ∃ x, read nums i = some x := by
  obtain ⟨index, rfl⟩ := Int.eq_ofNat_of_zero_le hlower
  refine ⟨nums[index], ?_⟩
  rw [read_natCast, List.getElem?_eq_getElem]

theorem findMinMax_one {x : ℤ} (hread : read nums left = some x) (fuel : ℕ) :
    findMinMax (fuel + 1) nums left left = some (x, x) := by
  rw [findMinMax, if_pos rfl, hread]
  rfl

/-- Two elements are put in order. -/
theorem findMinMax_two {x y : ℤ} (hfits : wrap32 (left + 1) = left + 1)
    (hx : read nums left = some x) (hy : read nums (left + 1) = some y)
    (fuel : ℕ) :
    findMinMax (fuel + 1) nums left (left + 1) =
      some (if x < y then x else y, if x > y then x else y) := by
  rw [findMinMax, if_neg (by omega), if_pos hfits, hx, hy]
  simp only [Option.bind_eq_bind, Option.bind_some]
  rcases lt_trichotomy x y with hless | rfl | hgreater
  · rw [if_pos hless, if_pos hless, if_neg hless.not_gt]
    rfl
  · rw [if_neg (lt_irrefl x), if_neg (lt_irrefl x)]
    rfl
  · rw [if_neg hgreater.not_gt, if_neg hgreater.not_gt, if_pos hgreater]
    rfl

/-- More than two elements are divided. -/
theorem findMinMax_divides (hone : left ≠ right)
    (htwo : wrap32 (left + 1) ≠ right) (fuel : ℕ) :
    findMinMax (fuel + 1) nums left right =
      (findMinMax fuel nums left ((wrap32 (left + right)).tdiv 2)).bind
        fun low =>
          (findMinMax fuel nums (wrap32 ((wrap32 (left + right)).tdiv 2 + 1))
            right).bind fun high =>
              some (if low.1 < high.1 then low.1 else high.1,
                if low.2 > high.2 then low.2 else high.2) := by
  rw [findMinMax, if_neg hone, if_neg htwo]
  rfl

/-- They are divided in the middle, if the sum of the bounds is an `int`. -/
theorem findMinMax_halves (hlower : 0 ≤ left) (hbounds : left + 1 < right)
    (hsum : left + right < 2 ^ 31) (fuel : ℕ) :
    findMinMax (fuel + 1) nums left right =
      (findMinMax fuel nums left ((left + right) / 2)).bind fun low =>
        (findMinMax fuel nums ((left + right) / 2 + 1) right).bind fun high =>
          some (if low.1 < high.1 then low.1 else high.1,
            if low.2 > high.2 then low.2 else high.2) := by
  have hmid : (wrap32 (left + right)).tdiv 2 = (left + right) / 2 := by
    rw [wrap32_eq_self (by omega) hsum, Int.tdiv_eq_ediv_of_nonneg (by omega)]
  have hnext : wrap32 ((left + right) / 2 + 1) = (left + right) / 2 + 1 :=
    wrap32_eq_self (by omega) (by omega)
  have hfits : wrap32 (left + 1) = left + 1 :=
    wrap32_eq_self (by omega) (by omega)
  rw [findMinMax_divides (by omega) (by omega), hmid, hnext]

/-- What is computed as the middle stays below the lower bound. -/
theorem middle_lt (hlower : 1 ≤ left) (hint : left < 2 ^ 31)
    (hcrossed : right < left) (hright : -2 ^ 30 ≤ right) :
    -2 ^ 30 ≤ (wrap32 (left + right)).tdiv 2 ∧
      (wrap32 (left + right)).tdiv 2 < left := by
  rcases lt_or_ge (left + right) (2 ^ 31) with hsum | hsum
  · rw [wrap32_eq_self (by omega) hsum]
    rcases le_total 0 (left + right) with hsign | hsign
    · rw [Int.tdiv_eq_ediv_of_nonneg hsign]
      omega
    · rw [tdiv_of_nonpos hsign]
      omega
  · -- the sum wraps around
    have hlow := le_wrap32 (left + right)
    have hnegative := wrap32_neg hsum (by omega)
    rw [tdiv_of_nonpos hnegative.le]
    omega

/-- The recursion never ends. -/
theorem findMinMax_crossed (hlower : 1 ≤ left) (hint : left < 2 ^ 31)
    (hcrossed : right < left) (hright : -2 ^ 30 ≤ right) (fuel : ℕ) :
    findMinMax fuel nums left right = none := by
  induction fuel generalizing right with
  | zero => rfl
  | succ fuel ih =>
      obtain ⟨hbelow, habove⟩ := middle_lt hlower hint hcrossed hright
      have htwo : wrap32 (left + 1) ≠ right := by
        rcases lt_or_ge (left + 1) (2 ^ 31) with hfits | hlast
        · rw [wrap32_eq_self (by omega) hfits]
          omega
        · obtain rfl : left = 2 ^ 31 - 1 := by omega
          rw [show wrap32 (2 ^ 31 - 1 + 1) = -2 ^ 31 by decide]
          omega
      rw [findMinMax_divides hcrossed.ne' htwo, ih habove hbelow]
      rfl

/-- A sum of the bounds that is no `int` leads to such bounds. -/
theorem findMinMax_overflow (hlower : 0 ≤ left) (hbounds : left + 1 < right)
    (hint : right < 2 ^ 31) (hsum : 2 ^ 31 ≤ left + right) (fuel : ℕ) :
    findMinMax fuel nums left right = none := by
  cases fuel with
  | zero => rfl
  | succ fuel =>
      have hfits : wrap32 (left + 1) = left + 1 :=
        wrap32_eq_self (by omega) (by omega)
      have hlow := le_wrap32 (left + right)
      have hnegative := wrap32_neg hsum (by omega)
      have hmid := tdiv_of_nonpos hnegative.le 2
      rw [findMinMax_divides (by omega) (by omega),
        findMinMax_crossed (by omega) (by omega) (by omega) (by omega)]
      rfl

/-! ## The ranges whose bounds can be added -/

/-- No sum of bounds is greater than an `int`.  The upper bound decides: the
last range that is divided at the upper end has three to five elements, and
three only if the number of all elements has the leading digits `11`. -/
def SumsFit (left right : ℤ) : Prop :=
  right ≤ left + 1 ∨ right ≤ 2 ^ 30 ∨
    right = 2 ^ 30 + 1 ∧
      ∃ k : ℕ, 2 ^ (k + 1) ≤ right + 1 - left ∧ right + 1 - left < 3 * 2 ^ k

/-- The half of a number has the same leading digits. -/
theorem exists_digits_half {size : ℤ} (hsize : 4 ≤ size) :
    (∃ k : ℕ, 2 ^ (k + 1) ≤ size ∧ size < 3 * 2 ^ k) ↔
      ∃ k : ℕ, 2 ^ (k + 1) ≤ size / 2 ∧ size / 2 < 3 * 2 ^ k := by
  constructor
  · rintro ⟨_ | k, hleast, hless⟩
    · omega
    · refine ⟨k, ?_, ?_⟩
      · rw [pow_succ] at hleast
        omega
      · rw [pow_succ] at hless
        omega
  · rintro ⟨k, hleast, hless⟩
    refine ⟨k + 1, ?_, ?_⟩
    · rw [pow_succ]
      omega
    · rw [pow_succ]
      omega

theorem sumsFit_halves (hlower : 0 ≤ left) (hbounds : left + 1 < right) :
    SumsFit left right ↔
      left + right < 2 ^ 31 ∧ SumsFit ((left + right) / 2 + 1) right := by
  have hhalf : right + 1 - ((left + right) / 2 + 1) =
      (right + 1 - left) / 2 := by
    omega
  rw [SumsFit, SumsFit, hhalf]
  rcases lt_trichotomy right (2 ^ 30 + 1) with hright | hright | hright
  · exact iff_of_true (.inr (.inl (by omega)))
      ⟨by omega, .inr (.inl (by omega))⟩
  · rcases lt_or_ge (right + 1 - left) 4 with hthree | hfour
    · -- three elements at the end
      refine iff_of_false ?_ (by omega)
      rintro (hone | hsmall | ⟨-, k, hleast, hless⟩)
      · omega
      · omega
      · rcases k with _ | k
        · omega
        · have hpower : (1 : ℤ) ≤ 2 ^ k := one_le_pow₀ (by norm_num)
          rw [pow_succ, pow_succ] at hleast
          omega
    · rw [exists_digits_half hfour]
      constructor
      · rintro (hone | hsmall | hdigits)
        · omega
        · omega
        · exact ⟨by omega, .inr (.inr hdigits)⟩
      · rintro ⟨-, htwo | hsmall | hdigits⟩
        · exact .inr (.inr ⟨hright, 0, by omega, by omega⟩)
        · omega
        · exact .inr (.inr hdigits)
  · refine iff_of_false ?_ ?_
    · rintro (hone | hsmall | ⟨hlast, -⟩)
      · omega
      · omega
      · omega
    · rintro ⟨hsum, htwo | hsmall | ⟨hlast, -⟩⟩
      · omega
      · omega
      · omega

/-- In a range whose sums fit, the results are the least and the greatest
element. -/
theorem findMinMax_returns (hlower : 0 ≤ left) (hbounds : left ≤ right)
    (hupper : right < nums.length) (hfits : SumsFit left right)
    (hint : right < 2 ^ 31) :
    ∃ result, Returns (findMinMax · nums left right) result ∧
      Extremes (elements nums left right) result := by
  induction hlength : (right - left).toNat using Nat.strong_induction_on
    generalizing left right with
  | _ length ih =>
      obtain ⟨x, hx⟩ := exists_read hlower (hbounds.trans_lt hupper)
      rcases hbounds.eq_or_lt with rfl | hless
      · rw [elements_self hx]
        refine ⟨(x, x), returns_of_succ ?_, extremes_singleton x⟩
        simp only [findMinMax_one hx]
        exact returns_some (x, x)
      rcases (Int.add_one_le_iff.mpr hless).eq_or_lt with rfl | hmore
      · obtain ⟨y, hy⟩ := exists_read (by omega) hupper
        have hnext : wrap32 (left + 1) = left + 1 :=
          wrap32_eq_self (by omega) hint
        rw [elements_union le_rfl hless.le, elements_self hx, elements_self hy]
        refine ⟨_, returns_of_succ ?_,
          (extremes_singleton x).union (extremes_singleton y)⟩
        simp only [findMinMax_two hnext hx hy]
        exact returns_some _
      · obtain ⟨hsum, hrest⟩ := (sumsFit_halves hlower hmore).mp hfits
        have hmid : left ≤ (left + right) / 2 ∧ (left + right) / 2 < right := by
          omega
        have hhalf : SumsFit left ((left + right) / 2) :=
          .inr (.inl (by omega))
        obtain ⟨low, hlow, hleast⟩ :=
          ih ((left + right) / 2 - left).toNat (by omega) hlower hmid.1
            (by omega) hhalf (by omega) rfl
        obtain ⟨high, hhigh, hgreatest⟩ :=
          ih (right - ((left + right) / 2 + 1)).toNat (by omega) (by omega)
            hmid.2 hupper hrest hint rfl
        rw [elements_union hmid.1 hmid.2.le]
        refine ⟨_, returns_of_succ ?_, hleast.union hgreatest⟩
        simp only [findMinMax_halves hlower hmore hsum]
        exact hlow.bind (hhigh.bind (returns_some _))

/-- Otherwise a sum wraps around, at the latest at the upper end. -/
theorem findMinMax_of_not_sumsFit (hlower : 0 ≤ left) (hbounds : left ≤ right)
    (hint : right < 2 ^ 31) (hfits : ¬ SumsFit left right) (fuel : ℕ) :
    findMinMax fuel nums left right = none := by
  induction fuel generalizing left with
  | zero => rfl
  | succ fuel ih =>
      have hmore : left + 1 < right := by
        by_contra hfew
        exact hfits (.inl (by omega))
      rcases lt_or_ge (left + right) (2 ^ 31) with hsum | hsum
      · have hrest : ¬ SumsFit ((left + right) / 2 + 1) right := fun hrest =>
          hfits ((sumsFit_halves hlower hmore).mpr ⟨hsum, hrest⟩)
        rw [findMinMax_halves hlower hmore hsum,
          ih (by omega) (by omega) hrest]
        cases findMinMax fuel nums left ((left + right) / 2) <;> rfl
      · exact findMinMax_overflow hlower hmore hint hsum _

/-- The results are right exactly when no sum of bounds wraps around. -/
theorem findMinMax_extremes_iff (hlower : 0 ≤ left) (hbounds : left ≤ right)
    (hupper : right < nums.length) (hint : right < 2 ^ 31) :
    (∃ result, Returns (findMinMax · nums left right) result ∧
      Extremes (elements nums left right) result) ↔ SumsFit left right := by
  constructor
  · rintro ⟨result, hreturns, -⟩
    by_contra hfits
    exact not_returns
      (findMinMax_of_not_sumsFit hlower hbounds hint hfits) result hreturns
  · intro hfits
    exact findMinMax_returns hlower hbounds hupper hfits hint

end Ranges

theorem findMinMax_extremes_iff_seven_elements :
    ∃ result,
      Returns (findMinMax · [13, 2, 7, 11, 27, 15, 18] 0 6) result ∧
      Extremes (elements [13, 2, 7, 11, 27, 15, 18] 0 6) result :=
  (findMinMax_extremes_iff le_rfl (by decide) (by decide) (by decide)).mpr
    (.inr (.inl (by decide)))

/-- In a range of `2 ^ 30 + 3` elements the bounds `2 ^ 30 - 1` and `2 ^ 30 + 2`
are added in the end. -/
theorem findMinMax_spins :
    (0 : ℤ) + (2 ^ 30 + 2) < 2 ^ 31 ∧
      ∀ fuel, findMinMax fuel (List.replicate (2 ^ 30 + 3) 0) 0 (2 ^ 30 + 2) =
        none := by
  have hfits : ¬ SumsFit 0 (2 ^ 30 + 2) := by
    rintro (hone | hsmall | ⟨hlast, -⟩)
    · norm_num at hone
    · norm_num at hsmall
    · norm_num at hlast
  exact ⟨by norm_num, findMinMax_of_not_sumsFit le_rfl (by norm_num)
    (by norm_num) hfits⟩

end KataCpp.MinMax
