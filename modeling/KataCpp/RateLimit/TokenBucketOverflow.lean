import KataCpp.Core.TransitionSystem
import KataCpp.RateLimit.TokenBucket

/-!
# The token bucket with 32-bit numbers

The milliseconds since the last request are stored in an `int` and multiplied by
the rate before the balance is capped.  After a long time the product wraps
around and takes tokens away, and a balance next to the greatest `int` overflows
when tokens are added to it.  In both cases the balance becomes negative.
-/

namespace KataCpp.TokenBucket

open MachineInt ElapsedTokens TransitionSystem

/-- The balance is one that the bucket can hold. -/
def Balanced (bucket : TokenBucket) : Prop :=
  0 ≤ bucket.tokens ∧ bucket.tokens ≤ bucket.capacity

instance (bucket : TokenBucket) : Decidable (Balanced bucket) :=
  inferInstanceAs (Decidable (_ ∧ _))

/-- The product of the milliseconds and the rate, of which an `int` keeps 32
bits.  It counts thousandths of tokens. -/
def product (bucket : TokenBucket) (now : ℤ) : ℤ :=
  wrap32 (elapsedMs bucket.lastRefill now * bucket.refillRate)

/-- The product takes away no more than the balance and adds no more than an
`int` can hold. -/
def RefillFits (bucket : TokenBucket) (now : ℤ) : Prop :=
  -1000 * (bucket.tokens + 1) < product bucket now ∧
    product bucket now < 1000 * (2 ^ 31 - bucket.tokens)

instance (bucket : TokenBucket) (now : ℤ) : Decidable (RefillFits bucket now) :=
  inferInstanceAs (Decidable (_ ∧ _))

theorem wholeTokens_wrap32 (rate start now : ℤ) :
    wholeTokens wrap32 rate start now =
      (wrap32 (elapsedMs start now * rate)).tdiv 1000 := by
  rw [wholeTokens, wrap32, wrap32, Int.bmod_mul_bmod]
  rfl

/-- Whole tokens and thousandths: the quotient is cut off towards zero. -/
theorem tdiv_bounds_iff {balance value : ℤ} (hlower : 0 ≤ balance)
    (hupper : balance < 2 ^ 31) :
    0 ≤ balance + value.tdiv 1000 ∧ balance + value.tdiv 1000 < 2 ^ 31 ↔
      -1000 * (balance + 1) < value ∧ value < 1000 * (2 ^ 31 - balance) := by
  rcases le_total 0 value with hvalue | hvalue
  · rw [Int.tdiv_eq_ediv_of_nonneg hvalue]
    omega
  · rw [tdiv_of_nonpos hvalue]
    omega

/-- The sum of a balance and the tokens of a 32-bit product wraps around only
below zero. -/
theorem wrap32_sum_nonneg_iff {balance value : ℤ} (hlower : 0 ≤ balance)
    (hupper : balance < 2 ^ 31) (hvalueLower : -2 ^ 31 ≤ value)
    (hvalueUpper : value < 2 ^ 31) :
    0 ≤ wrap32 (balance + value.tdiv 1000) ↔
      0 ≤ balance + value.tdiv 1000 ∧ balance + value.tdiv 1000 < 2 ^ 31 := by
  have hbounds : -2 ^ 31 ≤ value.tdiv 1000 ∧ value.tdiv 1000 < 2 ^ 31 := by
    rcases le_total 0 value with hvalue | hvalue
    · rw [Int.tdiv_eq_ediv_of_nonneg hvalue]
      omega
    · rw [tdiv_of_nonpos hvalue]
      omega
  rcases lt_or_ge (balance + value.tdiv 1000) (2 ^ 31) with hsum | hsum
  · rw [wrap32_eq_self (by omega) hsum]
    omega
  · have hneg := wrap32_neg hsum (by omega)
    omega

section Step

variable {bucket : TokenBucket} (hbalanced : Balanced bucket)
  (hcapacity : bucket.capacity < 2 ^ 31)

include hbalanced hcapacity

theorem refill_tokens_nonneg_iff (now : ℤ) :
    0 ≤ (refill wrap32 bucket now).tokens ↔ RefillFits bucket now := by
  obtain ⟨hlower, hupper⟩ := hbalanced
  have hless : bucket.tokens < 2 ^ 31 := hupper.trans_lt hcapacity
  have hsum := wrap32_sum_nonneg_iff hlower hless (le_wrap32 _)
    (wrap32_lt (elapsedMs bucket.lastRefill now * bucket.refillRate))
  rw [tdiv_bounds_iff hlower hless, ← wholeTokens_wrap32] at hsum
  have htokens : (refill wrap32 bucket now).tokens =
      min bucket.capacity (wrap32 (bucket.tokens + wholeTokens wrap32
        bucket.refillRate bucket.lastRefill now)) := rfl
  rw [htokens, le_min_iff, and_iff_right (hlower.trans hupper)]
  exact hsum

/-- A request leaves a balance that the bucket can hold exactly if the refill
does. -/
theorem request_balanced_iff {call : Request} (hcall : 0 ≤ call.tokens) :
    Balanced (request wrap32 bucket call).2 ↔ RefillFits bucket call.now := by
  rw [← refill_tokens_nonneg_iff hbalanced hcapacity]
  have hcap : (refill wrap32 bucket call.now).tokens ≤ bucket.capacity :=
    min_le_left _ _
  rw [Balanced, request_capacity]
  by_cases hcovered : call.tokens ≤ (refill wrap32 bucket call.now).tokens
  · have hpaid : wrap32 ((refill wrap32 bucket call.now).tokens - call.tokens) =
        (refill wrap32 bucket call.now).tokens - call.tokens :=
      wrap32_eq_self (by omega) (by omega)
    simp only [request, hcovered, if_true, hpaid]
    omega
  · simp only [request, hcovered, if_false]
    omega

end Step

abbrev NonnegRequest := { call : Request // 0 ≤ call.tokens }

def step (bucket : TokenBucket) (call : NonnegRequest) : Option TokenBucket :=
  some (request wrap32 bucket call.1).2

/-- The balance stays within its bounds exactly as long as every refill fits. -/
theorem balanced_iff_refillFits (capacity refillRate start : ℤ)
    (hlower : 0 ≤ capacity) (hupper : capacity < 2 ^ 31)
    (calls : List NonnegRequest) :
    Always step Balanced (construct capacity refillRate start) calls ↔
      Meets step (fun bucket call => RefillFits bucket call.1.now)
        (construct capacity refillRate start) calls := by
  apply always_iff_meets (fun bucket => bucket.capacity < 2 ^ 31)
  · intro bucket call next hbucket hnext
    obtain rfl : (request wrap32 bucket call.1).2 = next :=
      Option.some.inj hnext
    rwa [request_capacity]
  · intro bucket call next hbucket hbalanced hnext
    obtain rfl : (request wrap32 bucket call.1).2 = next :=
      Option.some.inj hnext
    exact request_balanced_iff hbalanced hbucket call.2
  · exact hupper
  · exact ⟨le_rfl, hlower⟩

/-- The bucket of the demo is asked every half a second. -/
theorem balanced_iff_refillFits_two_requests :
    Always step Balanced (construct 10 1 0)
      [⟨⟨500000000, 1⟩, by decide⟩, ⟨⟨1000000000, 1⟩, by decide⟩] := by
  rw [balanced_iff_refillFits 10 1 0 (by decide) (by decide)]
  simp only [Meets, step]
  decide

/-- The bucket of the demo after `2 ^ 31` milliseconds, which are less than 25
days. -/
theorem balance_negative_after_idling :
    ¬Always step Balanced (construct 10 1 0)
      [⟨⟨2147483648 * 1000000, 1⟩, by decide⟩] := by
  intro halways
  have hnext : Balanced (request wrap32 (construct 10 1 0) _).2 :=
    (halways.2 _ rfl).head
  revert hnext
  decide

end KataCpp.TokenBucket
