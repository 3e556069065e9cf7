import KataCpp.Core.Iteration
import KataCpp.Core.MachineInt

/-!
# Prime numbers by trial division

`is_prime` divides by all numbers up to the square root.  `Untouched` says that
a number has no divisor below a bound and up to its square root; it is the
invariant of the loop, and of the sieve as well.

The products that `is_prime` compares with its argument are numbers of type
`int`, and the last one is greater than the argument.
-/

namespace KataCpp.Primes

open Iteration MachineInt

section Code

variable (int : ℤ → ℤ)

/-- A pass of the loop in `is_prime`, on `i`. -/
def isPrimePass (n i : ℤ) : Outcome ℤ Bool :=
  if int (i * i) ≤ n then
    if i = 0 then .fault
    else if n.tmod i = 0 then .exit false
    else .next (int (i + 1))
  else .exit true

def isPrime (n : ℤ) (fuel : ℕ) : Option Bool :=
  if n ≤ 1 then some false else loop (isPrimePass int n) fuel 2

end Code

/-- The number has no divisor below the bound and up to its square root. -/
def Untouched (bound number : ℕ) : Prop :=
  2 ≤ number ∧ ∀ divisor, 2 ≤ divisor → divisor < bound →
    divisor * divisor ≤ number → ¬divisor ∣ number

theorem untouched_two (number : ℕ) : Untouched 2 number ↔ 2 ≤ number := by
  refine and_iff_left_of_imp fun _ divisor hlower hupper => ?_
  exact absurd hupper (Nat.not_lt.mpr hlower)

theorem untouched_succ {bound number : ℕ} (hbound : 2 ≤ bound) :
    Untouched (bound + 1) number ↔
      Untouched bound number ∧ ¬(bound * bound ≤ number ∧ bound ∣ number) := by
  constructor
  · rintro ⟨hnumber, hnone⟩
    refine ⟨⟨hnumber, fun divisor hlower hupper => ?_⟩, ?_⟩
    · exact hnone divisor hlower (Nat.lt_succ_of_lt hupper)
    · rintro ⟨hsquare, hdvd⟩
      exact hnone bound hbound (Nat.lt_succ_self bound) hsquare hdvd
  · rintro ⟨⟨hnumber, hnone⟩, hlast⟩
    refine ⟨hnumber, fun divisor hlower hupper hsquare hdvd => ?_⟩
    rcases (Nat.le_of_lt_succ hupper).eq_or_lt with rfl | hless
    · exact hlast ⟨hsquare, hdvd⟩
    · exact hnone divisor hlower hless hsquare hdvd

/-- A number that is touched adds nothing to the divisors before it. -/
theorem untouched_succ_of_not {bound number : ℕ} (hbound : 2 ≤ bound)
    (htouched : ¬Untouched bound bound) :
    Untouched (bound + 1) number ↔ Untouched bound number := by
  rw [untouched_succ hbound, and_iff_left_iff_imp]
  rintro ⟨-, hnone⟩ ⟨hsquare, hdvd⟩
  apply htouched
  refine ⟨hbound, fun divisor hlower hupper hdivisor hbelow => ?_⟩
  have hle : bound ≤ number := (Nat.le_mul_self bound).trans hsquare
  exact hnone divisor hlower hupper (hdivisor.trans hle) (hbelow.trans hdvd)

/-- Beyond the square root only primes are untouched. -/
theorem untouched_iff_prime {bound number : ℕ}
    (hbound : number < bound * bound) :
    Untouched bound number ↔ number.Prime := by
  rw [Nat.prime_def_le_sqrt, Untouched]
  refine and_congr_right fun _ => forall_congr' fun divisor => ?_
  refine imp_congr_right fun _ => ?_
  rw [Nat.le_sqrt]
  constructor
  · intro hnone hsquare
    exact hnone (Nat.mul_self_lt_mul_self_iff.mp (hsquare.trans_lt hbound))
      hsquare
  · intro hnone _
    exact hnone

theorem untouched_of_prime {number : ℕ} (hprime : number.Prime) (bound : ℕ) :
    Untouched bound number := by
  refine ⟨hprime.two_le, fun divisor hlower _ hsquare hdvd => ?_⟩
  rcases (Nat.dvd_prime hprime).mp hdvd with rfl | rfl
  · exact absurd hlower (by decide)
  · have hself : 2 * divisor ≤ divisor * divisor :=
      Nat.mul_le_mul_right divisor hlower
    omega

/-- What is known when `is_prime` comes to `i` in exact arithmetic. -/
structure Tried (n i : ℕ) : Prop where
  two_le : 2 ≤ i
  untouched : Untouched i n
  square_le : (i - 1) * (i - 1) ≤ n

theorem tried_two {n : ℕ} (hn : 2 ≤ n) : Tried n 2 where
  two_le := le_rfl
  untouched := (untouched_two n).mpr hn
  square_le := (Nat.sub_le 2 1).trans hn

/-- No number that `is_prime` needs overflows. -/
def Fits (int : ℤ → ℤ) (n : ℕ) : Prop :=
  ∀ i : ℕ, Tried n i → int (i * i) = i * i ∧ int (i + 1) = i + 1

section TrialDivision

variable {int : ℤ → ℤ} {n i : ℕ}

theorem isPrimePass_of_lt (hsquare : int (i * i) = i * i) (hless : n < i * i) :
    isPrimePass int n i = .exit true := by
  rw [isPrimePass, hsquare, if_neg (by exact_mod_cast hless.not_ge)]

theorem isPrimePass_of_le (hlower : 2 ≤ i) (hle : int (i * i) ≤ n) :
    isPrimePass int n i =
      if i ∣ n then .exit false else .next (int (i + 1)) := by
  have hne : (i : ℤ) ≠ 0 := by omega
  rw [isPrimePass, if_pos hle, if_neg hne]
  congr 1
  rw [← Int.dvd_iff_tmod_eq_zero, Int.natCast_dvd_natCast]

variable (hfits : Fits int n)

include hfits

/-- One pass goes on to the next divisor or gives the answer. -/
theorem isPrimePass_tried (htried : Tried n i) :
    (isPrimePass int n i = .next (i + 1 : ℕ) ∧ i < n ∧ Tried n (i + 1)) ∨
      ∃ answer, isPrimePass int n i = .exit answer ∧
        (answer = true ↔ n.Prime) := by
  obtain ⟨hsquare, hnext⟩ := hfits i htried
  rcases lt_or_ge n (i * i) with hless | hge
  · right
    refine ⟨true, isPrimePass_of_lt hsquare hless, ?_⟩
    exact iff_of_true rfl ((untouched_iff_prime hless).mp htried.untouched)
  · have hle : int (i * i) ≤ n := by
      rw [hsquare]
      exact_mod_cast hge
    rw [isPrimePass_of_le htried.two_le hle]
    by_cases hdvd : i ∣ n
    · right
      refine ⟨false, if_pos hdvd, iff_of_false Bool.false_ne_true ?_⟩
      intro hprime
      exact (untouched_of_prime hprime (i + 1)).2 i htried.two_le
        (Nat.lt_succ_self i) hge hdvd
    · left
      have hsmall : i < i * i :=
        lt_mul_of_one_lt_left (by have := htried.two_le; omega) htried.two_le
      refine ⟨?_, hsmall.trans_le hge, ?_⟩
      · rw [if_neg hdvd, hnext]
        rfl
      · exact {
          two_le := htried.two_le.trans (Nat.le_succ i)
          untouched := (untouched_succ htried.two_le).mpr
            ⟨htried.untouched, fun hlast => hdvd hlast.2⟩
          square_le := hge }

theorem visits_tried (hn : 2 ≤ n) {state : ℤ}
    (hvisits : Visits (isPrimePass int n) 2 state) :
    ∃ i : ℕ, state = i ∧ Tried n i := by
  apply hvisits.invariant (fun state => ∃ i : ℕ, state = i ∧ Tried n i)
  · exact ⟨2, rfl, tried_two hn⟩
  · rintro _ next ⟨i, rfl, htried⟩ hnext
    rcases isPrimePass_tried hfits htried with ⟨hpass, -, hkept⟩ | hexit
    · rw [hpass, Outcome.next.injEq] at hnext
      exact ⟨i + 1, hnext.symm, hkept⟩
    · obtain ⟨answer, hpass, -⟩ := hexit
      rw [hpass] at hnext
      exact absurd hnext (by simp)

theorem loop_isPrimePass (hn : 2 ≤ n) :
    ∃ answer, Returns (loop (isPrimePass int n) · 2) answer ∧
      (answer = true ↔ n.Prime) := by
  apply loop_returns (fun (variant : ℕ) (state : ℤ) =>
    ∃ i : ℕ, state = i ∧ variant = n - i ∧ Tried n i)
  · rintro _ _ ⟨i, rfl, rfl, htried⟩
    rcases isPrimePass_tried hfits htried with ⟨hpass, hless, hkept⟩ | hexit
    · exact Or.inl ⟨n - (i + 1), _, hpass, by omega, i + 1, rfl, rfl, hkept⟩
    · exact Or.inr hexit
  · exact ⟨2, rfl, rfl, tried_two hn⟩

end TrialDivision

theorem isPrime_of_le_one {n : ℤ} (int : ℤ → ℤ) (hn : n ≤ 1) :
    isPrime int n = fun _ => some false := by
  funext fuel
  exact if_pos hn

theorem not_prime_of_le_one {n : ℤ} (hn : n ≤ 1) : ¬n.toNat.Prime := by
  intro hprime
  have hlower := hprime.two_le
  omega

/-- Where nothing overflows, `is_prime` recognizes the prime numbers. -/
theorem isPrime_returns {int : ℤ → ℤ} {n : ℤ} (hfits : Fits int n.toNat) :
    ∃ answer, Returns (isPrime int n) answer ∧
      (answer = true ↔ n.toNat.Prime) := by
  rcases le_or_gt n 1 with hn | hn
  · rw [isPrime_of_le_one int hn]
    exact ⟨false, returns_some false,
      iff_of_false Bool.false_ne_true (not_prime_of_le_one hn)⟩
  · have hcast : (n.toNat : ℤ) = n := Int.toNat_of_nonneg (by omega)
    have hloop := loop_isPrimePass hfits (by omega)
    have hcompute : isPrime int n =
        fun fuel => loop (isPrimePass int n.toNat) fuel 2 := by
      funext fuel
      rw [isPrime, if_neg (by omega), hcast]
    rw [hcompute]
    exact hloop

theorem fits_exactInt (n : ℕ) : Fits exactInt n :=
  fun _ _ => ⟨rfl, rfl⟩

/-! ## With 32-bit numbers -/

def rootLimit : ℕ := 46340

/-- The products `i * i` that `is_prime` evaluates. -/
def Evaluates (n product : ℤ) : Prop :=
  1 < n ∧ ∃ i, Visits (isPrimePass wrap32 n) 2 i ∧ product = i * i

/-- No product is greater than an `int` can be, and the answer is right. -/
def IsPrimeCorrect (n : ℤ) : Prop :=
  (∀ product, Evaluates n product → product ≤ 2 ^ 31 - 1) ∧
    ∃ answer, Returns (isPrime wrap32 n) answer ∧
      (answer = true ↔ n.toNat.Prime)

/-- A composite number has a divisor that ends the loop in time. -/
theorem Tried.le_rootLimit {n i : ℕ} (htried : Tried n i) (hn : n < 2 ^ 31)
    (hsmall : n < rootLimit * rootLimit ∨ ¬n.Prime) : i ≤ rootLimit := by
  rcases hsmall with hsmall | hcomposite
  · have hless := Nat.mul_self_lt_mul_self_iff.mp
      (htried.square_le.trans_lt hsmall)
    omega
  · have hnumber := htried.untouched.1
    have hsquare := Nat.minFac_sq_le_self (by omega) hcomposite
    rw [pow_two] at hsquare
    have hroot : n.minFac ≤ rootLimit := by
      apply Nat.le_of_lt_succ
      apply Nat.mul_self_lt_mul_self_iff.mp
      exact (hsquare.trans_lt hn).trans_le (by decide)
    have hle : i ≤ n.minFac := by
      by_contra hless
      exact htried.untouched.2 n.minFac (Nat.minFac_prime (by omega)).two_le
        (by omega) hsquare (Nat.minFac_dvd n)
    exact hle.trans hroot

theorem square_le_of_le_rootLimit {i : ℕ} (hi : i ≤ rootLimit) :
    (i * i : ℤ) ≤ 2 ^ 31 - 1 := by
  have hsquare : i * i ≤ 46340 * 46340 := Nat.mul_le_mul hi hi
  have hcast : (i * i : ℤ) ≤ 46340 * 46340 := by exact_mod_cast hsquare
  omega

theorem wrap32_square {i : ℕ} (hi : i ≤ rootLimit) :
    wrap32 (i * i) = i * i := by
  have hsquare := square_le_of_le_rootLimit hi
  have hnonneg : (0 : ℤ) ≤ i * i := by positivity
  exact wrap32_eq_self (by omega) (by omega)

theorem fits_wrap32 {n : ℕ} (hn : n < 2 ^ 31)
    (hsmall : n < rootLimit * rootLimit ∨ ¬n.Prime) : Fits wrap32 n := by
  intro i htried
  have hle := htried.le_rootLimit hn hsmall
  refine ⟨wrap32_square hle, ?_⟩
  rw [rootLimit] at hle
  exact wrap32_eq_self (by omega) (by omega)

theorem isPrimeCorrect_of_small {n : ℤ} (hupper : n < 2 ^ 31)
    (hsmall : n < 46340 ^ 2 ∨ ¬n.toNat.Prime) : IsPrimeCorrect n := by
  have hbound : n.toNat < rootLimit * rootLimit ∨ ¬n.toNat.Prime :=
    hsmall.imp_left fun hless => by rw [rootLimit]; omega
  have hn : n.toNat < 2 ^ 31 := by omega
  have hfits := fits_wrap32 hn hbound
  refine ⟨?_, isPrime_returns hfits⟩
  rintro _ ⟨hlower, state, hvisits, rfl⟩
  have hcast : (n.toNat : ℤ) = n := Int.toNat_of_nonneg (by omega)
  rw [← hcast] at hvisits
  obtain ⟨i, rfl, htried⟩ := visits_tried hfits (by omega) hvisits
  exact square_le_of_le_rootLimit (htried.le_rootLimit hn hbound)

/-- A large prime number is divided by all numbers with a square that fits, and
then one more square is formed. -/
theorem visits_of_prime {n : ℕ} (hprime : n.Prime)
    (hlarge : rootLimit * rootLimit ≤ n) {i : ℕ} (hlower : 2 ≤ i)
    (hupper : i ≤ rootLimit + 1) :
    Visits (isPrimePass wrap32 n) 2 (i : ℤ) := by
  induction i, hlower using Nat.le_induction with
  | base => exact Visits.start
  | succ i hlower ih =>
      have hroot : i ≤ rootLimit := Nat.le_of_succ_le_succ hupper
      have hsquare : wrap32 (i * i) = i * i := wrap32_square hroot
      have hle : i * i ≤ n := (Nat.mul_le_mul hroot hroot).trans hlarge
      have hnext : wrap32 (i + 1) = (i + 1 : ℕ) :=
        wrap32_natCast (hupper.trans_lt (by decide))
      have hnot : ¬i ∣ n :=
        (untouched_of_prime hprime (i + 1)).2 i hlower (Nat.lt_succ_self i) hle
      refine Visits.next (ih (by omega)) ?_
      rw [isPrimePass_of_le hlower (by rw [hsquare]; exact_mod_cast hle),
        if_neg hnot, hnext]

theorem not_isPrimeCorrect {n : ℤ} (hlarge : 46340 ^ 2 ≤ n)
    (hprime : n.toNat.Prime) : ¬IsPrimeCorrect n := by
  rintro ⟨hproducts, -⟩
  have hcast : (n.toNat : ℤ) = n := Int.toNat_of_nonneg (by omega)
  have hvisits := visits_of_prime hprime (by rw [rootLimit]; omega)
    (i := rootLimit + 1) (by decide) le_rfl
  rw [hcast] at hvisits
  have hbound := hproducts _ ⟨by omega, _, hvisits, rfl⟩
  revert hbound
  decide

/-- Exactly the prime numbers from `46340 ^ 2` on need a product that is no
`int`. -/
theorem isPrime_correct_iff (n : ℤ) (hupper : n < 2 ^ 31) :
    IsPrimeCorrect n ↔ n < 46340 ^ 2 ∨ ¬n.toNat.Prime := by
  constructor
  · intro hcorrect
    by_contra hlarge
    rw [not_or, not_lt, not_not] at hlarge
    exact not_isPrimeCorrect hlarge.1 hlarge.2 hcorrect
  · exact isPrimeCorrect_of_small hupper

theorem isPrime_correct_seven :
    IsPrimeCorrect 7 ↔ (7 : ℤ) < 46340 ^ 2 ∨ ¬(7 : ℤ).toNat.Prime :=
  isPrime_correct_iff 7 (by decide)

theorem prime_intMax : (2147483647 : ℤ).toNat.Prime := by
  have hmersenne : (mersenne 31).Prime :=
    lucas_lehmer_sufficiency 31 (by decide) (by norm_num)
  exact hmersenne

theorem isPrime_intMax : ¬IsPrimeCorrect 2147483647 :=
  not_isPrimeCorrect (by decide) prime_intMax

end KataCpp.Primes
