import Mathlib

/-!
# Machine integers

Integer arithmetic of the modeled programs is either exact or reduced to a
32-bit two's complement `int` after every operation.  Definitions that are
studied under both readings take the reduction as a parameter
`int : ℤ → ℤ`, to be instantiated with `exactInt` or with `wrap32`.  Where it
matters that an overflow is undefined the parameter is `int : ℤ → Option ℤ`, to
be instantiated with `checked32` or, for a comparison, with `wrapping32`.
-/

namespace KataCpp.MachineInt

/-- Exact integer arithmetic: no reduction. -/
def exactInt (value : ℤ) : ℤ := value

@[simp]
theorem exactInt_apply (value : ℤ) : exactInt value = value := rfl

/-- Reduction to a 32-bit two's complement integer. -/
def wrap32 (value : ℤ) : ℤ := value.bmod (2 ^ 32)

/-- Values that fit in a 32-bit `int` are not changed by the reduction. -/
theorem wrap32_eq_self {value : ℤ} (hlower : -2 ^ 31 ≤ value)
    (hupper : value < 2 ^ 31) : wrap32 value = value := by
  apply Int.bmod_eq_of_le <;> norm_num <;> omega

theorem wrap32_natCast {value : ℕ} (hvalue : value < 2 ^ 31) :
    wrap32 value = value :=
  wrap32_eq_self (by omega) (by omega)

/-- A size is itself as an `int` exactly when it fits. -/
theorem wrap32_natCast_eq_iff {value : ℕ} :
    wrap32 value = value ↔ value < 2 ^ 31 := by
  rw [wrap32, Int.bmod_def]
  split <;> omega

/-- The successor of the greatest `int` is the least one. -/
theorem wrap32_int_overflow : wrap32 ((2 ^ 31 : ℕ) : ℤ) = -2 ^ 31 := by
  decide

/-- The reduction never raises a non-negative value. -/
theorem wrap32_le {value : ℤ} (hvalue : 0 ≤ value) : wrap32 value ≤ value := by
  rw [wrap32, Int.bmod_def]
  split <;> omega

/-- A positive value becomes zero only from `2 ^ 32` on. -/
theorem wrap32_ne_zero {value : ℤ} (hlower : 1 ≤ value)
    (hupper : value < 2 ^ 32) : wrap32 value ≠ 0 := by
  rw [wrap32, Int.bmod_def]
  split <;> omega

/-- The upper half of the unsigned range becomes negative. -/
theorem wrap32_neg {value : ℤ} (hlower : 2 ^ 31 ≤ value)
    (hupper : value < 2 ^ 32) : wrap32 value < 0 := by
  rw [wrap32, Int.bmod_def]
  split <;> omega

theorem wrap32_eq_self_of_nonneg {value : ℤ} (hlower : 0 ≤ value)
    (hupper : value < 2 ^ 32) (hnonneg : 0 ≤ wrap32 value) :
    wrap32 value = value := by
  apply wrap32_eq_self (by omega)
  by_contra hoverflow
  exact absurd hnonneg (wrap32_neg (by omega) hupper).not_ge

theorem le_wrap32 (value : ℤ) : -2 ^ 31 ≤ wrap32 value := by
  rw [wrap32, Int.bmod_def]
  split <;> omega

theorem wrap32_lt (value : ℤ) : wrap32 value < 2 ^ 31 := by
  rw [wrap32, Int.bmod_def]
  split <;> omega

/-- A sum one part of which has been reduced before. -/
theorem wrap32_wrap32_add (value increment : ℤ) :
    wrap32 (wrap32 value + increment) = wrap32 (value + increment) :=
  Int.bmod_add_bmod

/-- A counter that is reduced after every increment. -/
theorem wrap32_wrap32_add_one (value : ℤ) :
    wrap32 (wrap32 value + 1) = wrap32 (value + 1) :=
  wrap32_wrap32_add value 1

/-- Values less than `2 ^ 32` apart are told apart. -/
theorem wrap32_eq_wrap32_iff {left right : ℤ} (hlower : left < right + 2 ^ 32)
    (hupper : right < left + 2 ^ 32) :
    wrap32 left = wrap32 right ↔ left = right := by
  rw [wrap32, wrap32, Int.bmod_def, Int.bmod_def]
  split <;> split <;> omega

/-- Division cuts off towards zero. -/
theorem tdiv_of_nonpos {value : ℤ} (hvalue : value ≤ 0) (divisor : ℤ) :
    value.tdiv divisor = -((-value) / divisor) := by
  rw [← Int.tdiv_eq_ediv_of_nonneg (by omega), Int.neg_tdiv, neg_neg]

/-- Arithmetic of type `int` as the language defines it: an overflow has no
result. -/
def checked32 (value : ℤ) : Option ℤ :=
  if -2 ^ 31 ≤ value ∧ value < 2 ^ 31 then some value else none

theorem checked32_natCast {value : ℕ} (hvalue : value < 2 ^ 31) :
    checked32 value = some (value : ℤ) :=
  if_pos ⟨by omega, by omega⟩

theorem checked32_eq_none {value : ℤ} (hvalue : 2 ^ 31 ≤ value) :
    checked32 value = none :=
  if_neg fun hfits => absurd hfits.2 hvalue.not_gt

/-- Arithmetic of type `int` on a machine on which it wraps around. -/
def wrapping32 (value : ℤ) : Option ℤ := some (wrap32 value)

/-- Numbers of type `int` are not changed, and the number behind the greatest
one is not made a number that can be a size. -/
structure IntArithmetic (int : ℤ → Option ℤ) : Prop where
  exact : ∀ value, -2 ^ 31 ≤ value → value < 2 ^ 31 → int value = some value
  overflow : ∀ size, int (2 ^ 31) = some size → size < 0

theorem intArithmetic_checked32 : IntArithmetic checked32 where
  exact := fun _ hlower hupper => if_pos ⟨hlower, hupper⟩
  overflow := by
    intro size hsize
    rw [checked32_eq_none le_rfl] at hsize
    exact absurd hsize.symm (Option.some_ne_none size)

theorem intArithmetic_wrapping32 : IntArithmetic wrapping32 where
  exact := fun _ hlower hupper =>
    congrArg some (wrap32_eq_self hlower hupper)
  overflow := by
    intro size hsize
    obtain rfl := Option.some.inj hsize
    decide

/-- Conversion to an unsigned 64-bit integer. -/
def asSize (value : ℤ) : ℕ := (value % 2 ^ 64).toNat

theorem asSize_natCast {value : ℕ} (hvalue : value < 2 ^ 64) :
    asSize value = value := by
  rw [asSize]
  omega

/-- A negative `int` is greater than every size. -/
theorem le_asSize {value : ℤ} (hlower : -2 ^ 31 ≤ value) (hupper : value < 0)
    {size : ℕ} (hsize : size < 2 ^ 63) : size ≤ asSize value := by
  rw [asSize]
  omega

/-- Reduction to a 64-bit two's complement integer. -/
def wrap64 (value : ℤ) : ℤ := value.bmod (2 ^ 64)

/-- The reduction of a 64-bit unsigned value changes exactly the values that a
signed integer cannot hold. -/
theorem wrap64_eq_self_iff {value : ℤ} (hlower : 0 ≤ value)
    (hupper : value < 2 ^ 64) : wrap64 value = value ↔ value < 2 ^ 63 := by
  rw [wrap64, Int.bmod_def]
  split <;> omega

theorem wrap64_eq_self {value : ℤ} (hlower : 0 ≤ value)
    (hupper : value < 2 ^ 63) : wrap64 value = value :=
  (wrap64_eq_self_iff hlower (by omega)).mpr hupper

theorem wrap64_lt (value : ℤ) : wrap64 value < 2 ^ 63 := by
  rw [wrap64, Int.bmod_def]
  split <;> omega

/-- The sign of an unsigned 64-bit difference stored as a signed integer: it is
the sign of the true difference as long as that is less than `2 ^ 63`, and the
opposite one beyond. -/
theorem wrap64_sub_pos_iff {left right : ℕ} (hleft : left < 2 ^ 64)
    (hright : right < 2 ^ 64) :
    0 < wrap64 ((left : ℤ) - right) ↔
      (right < left ∧ left < right + 2 ^ 63) ∨ left + 2 ^ 63 < right := by
  rw [wrap64, Int.bmod_def]
  split <;> omega

theorem wrap64_sub_eq_zero_iff {left right : ℕ} (hleft : left < 2 ^ 64)
    (hright : right < 2 ^ 64) :
    wrap64 ((left : ℤ) - right) = 0 ↔ left = right := by
  rw [wrap64, Int.bmod_def]
  split <;> omega

end KataCpp.MachineInt
