import KataCpp.Core.MachineInt

/-!
# Whole tokens earned over an interval

Both rate limiters convert the time since their previous request into whole
tokens: the nanosecond clock difference is truncated to milliseconds, and the
product with the rate per second is truncated to whole tokens.  Truncating an
interval in pieces can only lose tokens, which is the inequality behind every
rate bound; how much is lost is computed exactly from the remainders.
-/

namespace KataCpp.ElapsedTokens

open KataCpp.MachineInt

/-- `duration_cast<milliseconds>(now - start).count()` of two readings of the
nanosecond `steady_clock`. -/
def elapsedMs (start now : ℤ) : ℤ := (now - start).tdiv 1000000

/-- `elapsed_ms * rate / 1000`, with every `int` operation reduced by `int`. -/
def wholeTokens (int : ℤ → ℤ) (rate start now : ℤ) : ℤ :=
  (int (int (elapsedMs start now) * rate)).tdiv 1000

theorem elapsedMs_eq_ediv {start now : ℤ} (hclock : start ≤ now) :
    elapsedMs start now = (now - start) / 1000000 := by
  rw [elapsedMs, Int.tdiv_eq_ediv_of_nonneg (by omega)]

theorem elapsedMs_nonneg {start now : ℤ} (hclock : start ≤ now) :
    0 ≤ elapsedMs start now := by
  rw [elapsedMs_eq_ediv hclock]
  omega

/-- Truncating to milliseconds in two pieces loses at most one millisecond. -/
theorem elapsedMs_split {start middle now : ℤ} (hfirst : start ≤ middle)
    (hsecond : middle ≤ now) :
    elapsedMs start middle + elapsedMs middle now ≤ elapsedMs start now ∧
      elapsedMs start now ≤
        elapsedMs start middle + elapsedMs middle now + 1 := by
  rw [elapsedMs_eq_ediv hfirst, elapsedMs_eq_ediv hsecond,
    elapsedMs_eq_ediv (hfirst.trans hsecond)]
  omega

section Exact

variable {rate start middle now : ℤ}

theorem wholeTokens_eq_ediv (hrate : 0 ≤ rate) (hclock : start ≤ now) :
    wholeTokens exactInt rate start now =
      elapsedMs start now * rate / 1000 := by
  have hproduct : 0 ≤ elapsedMs start now * rate :=
    mul_nonneg (elapsedMs_nonneg hclock) hrate
  simp only [wholeTokens, exactInt_apply]
  rw [Int.tdiv_eq_ediv_of_nonneg hproduct]

theorem wholeTokens_nonneg (hrate : 0 ≤ rate) (hclock : start ≤ now) :
    0 ≤ wholeTokens exactInt rate start now := by
  rw [wholeTokens_eq_ediv hrate hclock]
  exact Int.ediv_nonneg (mul_nonneg (elapsedMs_nonneg hclock) hrate)
    (by norm_num)

/-- The part of a thousandth-token count that two truncations throw away: the
remainders of both pieces, and the rate once more when the milliseconds carry.
-/
def lostFraction (rate start middle now : ℤ) : ℤ :=
  elapsedMs start middle * rate % 1000 + elapsedMs middle now * rate % 1000 +
    (elapsedMs start now - elapsedMs start middle - elapsedMs middle now) * rate

theorem lostFraction_nonneg (hrate : 0 ≤ rate) (hfirst : start ≤ middle)
    (hsecond : middle ≤ now) : 0 ≤ lostFraction rate start middle now := by
  have hcarry : 0 ≤
      (elapsedMs start now - elapsedMs start middle - elapsedMs middle now) *
        rate :=
    mul_nonneg (by have := (elapsedMs_split hfirst hsecond).1; omega) hrate
  simp only [lostFraction]
  omega

/-- The tokens of a whole interval are the tokens of its two pieces plus the
whole tokens contained in the lost fraction. -/
theorem wholeTokens_split (hrate : 0 ≤ rate) (hfirst : start ≤ middle)
    (hsecond : middle ≤ now) :
    wholeTokens exactInt rate start now =
      wholeTokens exactInt rate start middle +
        wholeTokens exactInt rate middle now +
        lostFraction rate start middle now / 1000 := by
  rw [wholeTokens_eq_ediv hrate (hfirst.trans hsecond),
    wholeTokens_eq_ediv hrate hfirst, wholeTokens_eq_ediv hrate hsecond]
  have hproduct : elapsedMs start now * rate =
      elapsedMs start middle * rate + elapsedMs middle now * rate +
        (elapsedMs start now - elapsedMs start middle - elapsedMs middle now) *
          rate := by
    ring
  simp only [lostFraction]
  omega

/-- Truncating in pieces never earns more than truncating once. -/
theorem wholeTokens_superadditive (hrate : 0 ≤ rate) (hfirst : start ≤ middle)
    (hsecond : middle ≤ now) :
    wholeTokens exactInt rate start middle +
        wholeTokens exactInt rate middle now ≤
      wholeTokens exactInt rate start now := by
  have hlost := lostFraction_nonneg hrate hfirst hsecond
  rw [wholeTokens_split hrate hfirst hsecond]
  omega

end Exact

section Wrapping

variable {rate start middle now : ℤ}

/-- An `int` of thousandths is a small number of whole tokens. -/
theorem wholeTokens_wrap32_bounds (rate start now : ℤ) :
    -2147484 < wholeTokens wrap32 rate start now ∧
      wholeTokens wrap32 rate start now < 2147484 := by
  have hlower := le_wrap32 (wrap32 (elapsedMs start now) * rate)
  have hupper := wrap32_lt (wrap32 (elapsedMs start now) * rate)
  rw [wholeTokens]
  generalize wrap32 (wrap32 (elapsedMs start now) * rate) = product
    at hlower hupper ⊢
  rcases le_total 0 product with hproduct | hproduct
  · rw [Int.tdiv_eq_ediv_of_nonneg hproduct]
    omega
  · rw [tdiv_of_nonpos hproduct]
    omega

/-- Milliseconds whose product with the rate is an `int` are exact. -/
theorem wholeTokens_wrap32_eq (hrate : 0 < rate) (hclock : start ≤ now)
    (hproduct : elapsedMs start now * rate < 2 ^ 31) :
    wholeTokens wrap32 rate start now =
      wholeTokens exactInt rate start now := by
  have hnonneg := elapsedMs_nonneg hclock
  have hless : elapsedMs start now ≤ elapsedMs start now * rate :=
    le_mul_of_one_le_right hnonneg hrate
  have hexact : 0 ≤ elapsedMs start now * rate := mul_nonneg hnonneg hrate.le
  have hmilliseconds : wrap32 (elapsedMs start now) = elapsedMs start now :=
    wrap32_eq_self (by omega) (by omega)
  rw [wholeTokens, hmilliseconds, wrap32_eq_self (by omega) hproduct]
  rfl

theorem elapsedMs_mul_le_left (hrate : 0 < rate) (hfirst : start ≤ middle)
    (hsecond : middle ≤ now) :
    elapsedMs start middle * rate ≤ elapsedMs start now * rate := by
  have hsplit := (elapsedMs_split hfirst hsecond).1
  have hrest := elapsedMs_nonneg hsecond
  gcongr
  omega

theorem elapsedMs_mul_le_right (hrate : 0 < rate) (hfirst : start ≤ middle)
    (hsecond : middle ≤ now) :
    elapsedMs middle now * rate ≤ elapsedMs start now * rate := by
  have hsplit := (elapsedMs_split hfirst hsecond).1
  have hrest := elapsedMs_nonneg hfirst
  gcongr
  omega

end Wrapping

end KataCpp.ElapsedTokens
