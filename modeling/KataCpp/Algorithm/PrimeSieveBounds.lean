import KataCpp.Algorithm.PrimeSieve

/-!
# The subscripts of the sieve

`sieveOfEratosthenes` uses a vector of `n + 1` flags.  The first writes need
two of them, so `n = 0` is already too small.  The loops stay below `n + 1` as
long as the arithmetic is exact: the numbers that are tested are at most the
square root of `n`, and their multiples are compared with `n`.

With wrap-around the square of 46341 is negative and does not end the loop
over `p`.  When 46340, the last number with an exact square, is still tested,
the loop comes at last to the prime 46349, whose multiples begin at a negative
subscript.
-/

namespace KataCpp.Primes

open Iteration MachineInt Segment

section Code

variable (int : ℤ → ℤ)

def startFlags (n : ℤ) : Option (List Bool) := do
  let flags ← allTrue int n
  let flags ← write flags 1 false
  write flags 0 false

def sieveLoopPass (n : ℤ) (fuel : ℕ) :
    List Bool × ℤ → Outcome (List Bool × ℤ) (List Bool × ℤ) :=
  whilePass (fun state => int (state.2 * state.2) ≤ n) (sievePass int n fuel)

def markLoopPass (n p : ℤ) :
    List Bool × ℤ → Outcome (List Bool × ℤ) (List Bool × ℤ) :=
  whilePass (fun state => state.2 ≤ n) (markPass int p)

def collectLoopPass (n : ℤ) (flags : List Bool) :
    List ℤ × ℤ → Outcome (List ℤ × ℤ) (List ℤ × ℤ) :=
  whilePass (fun state => state.2 ≤ n) (collectPass int flags)

inductive Subscript (m n : ℤ) (fuel : ℕ) : ℤ → Prop
  | one {all : List Bool} (hall : allTrue int n = some all) :
      Subscript m n fuel 1
  | zero {all first : List Bool} (hall : allTrue int n = some all)
      (hfirst : write all 1 false = some first) : Subscript m n fuel 0
  | tested {flags : List Bool} {state : List Bool × ℤ}
      (hstart : startFlags int n = some flags)
      (hvisits : Visits (sieveLoopPass int n fuel) (flags, 2) state)
      (hgoesOn : int (state.2 * state.2) ≤ n) : Subscript m n fuel state.2
  | marked {flags : List Bool} {state marking : List Bool × ℤ}
      (hstart : startFlags int n = some flags)
      (hvisits : Visits (sieveLoopPass int n fuel) (flags, 2) state)
      (hgoesOn : int (state.2 * state.2) ≤ n)
      (hprime : read state.1 state.2 = some true)
      (hmarking : Visits (markLoopPass int n state.2)
        (state.1, int (state.2 * state.2)) marking)
      (hle : marking.2 ≤ n) : Subscript m n fuel marking.2
  | collected {flags sieved : List Bool} {state : List ℤ × ℤ}
      (hstart : startFlags int n = some flags)
      (hsieve : sieve int n fuel flags = some sieved)
      (hvisits : Visits (collectLoopPass int n sieved) ([], max m 2) state)
      (hle : state.2 ≤ n) : Subscript m n fuel state.2

/-- However far a call gets, its subscripts are below the size `n + 1`. -/
def SubscriptsInRange (m n : ℤ) : Prop :=
  ∀ fuel i, Subscript int m n fuel i → 0 ≤ i ∧ i < n + 1

end Code

/-- The arithmetic is exact where the loops need it. -/
structure SieveFits (int : ℤ → ℤ) (n : ℤ) : Prop where
  square : ∀ p, 2 ≤ p → (p - 1) * (p - 1) ≤ n → int (p * p) = p * p
  multiple : ∀ p i, 2 ≤ p → p * p ≤ n → 0 ≤ i → i ≤ n → int (i + p) = i + p
  succ : ∀ i, 0 ≤ i → i ≤ n → int (i + 1) = i + 1

theorem le_of_mul_self_le {p n : ℤ} (hp : 2 ≤ p) (hsquare : p * p ≤ n) :
    p ≤ n := by
  nlinarith

theorem sievePass_of_false {int : ℤ → ℤ} {n p : ℤ} {fuel : ℕ}
    {flags : List Bool} (hread : read flags p = some false) :
    sievePass int n fuel (flags, p) = some (flags, int (p + 1)) := by
  rw [sievePass, hread]
  rfl

theorem sievePass_of_true {int : ℤ → ℤ} {n p : ℤ} {fuel : ℕ}
    {flags : List Bool} (hread : read flags p = some true) :
    sievePass int n fuel (flags, p) =
      (mark int n p fuel flags).map fun marked => (marked, int (p + 1)) := by
  rw [sievePass, hread]
  cases mark int n p fuel flags <;> simp

/-- A pass of the loop over `p` goes on to the next number. -/
theorem snd_of_sievePass {int : ℤ → ℤ} {n : ℤ} {fuel : ℕ}
    {state next : List Bool × ℤ}
    (hbody : sievePass int n fuel state = some next) :
    next.2 = int (state.2 + 1) := by
  obtain ⟨flags, p⟩ := state
  cases hread : read flags p with
  | none => simp [sievePass, hread] at hbody
  | some prime =>
      cases prime with
      | false =>
          rw [sievePass_of_false hread] at hbody
          rw [← Option.some.inj hbody]
      | true =>
          rw [sievePass_of_true hread] at hbody
          obtain ⟨marked, -, rfl⟩ := Option.map_eq_some_iff.mp hbody
          rfl

section InRange

variable {int : ℤ → ℤ} {m n : ℤ} (hfits : SieveFits int n)

include hfits

/-- The multiples of a number that is tested are not negative. -/
theorem zero_le_of_visits_mark {p : ℤ} (hp : 2 ≤ p) (hsquare : p * p ≤ n)
    {flags : List Bool} {state : List Bool × ℤ}
    (hvisits : Visits (markLoopPass int n p) (flags, p * p) state) :
    0 ≤ state.2 := by
  apply hvisits.invariant (fun state => 0 ≤ state.2)
  · exact mul_self_nonneg p
  · intro state next hstate hpass
    obtain ⟨hle, hbody⟩ := of_whilePass_eq_next hpass
    rw [markPass] at hbody
    obtain ⟨marked, -, hnext⟩ := Option.bind_eq_some_iff.mp hbody
    obtain rfl := Option.some.inj hnext
    simp only [hfits.multiple p state.2 hp hsquare hstate hle]
    omega

/-- The numbers that are tested are at most one above the square root. -/
theorem bounds_of_visits_sieve (hn : 1 ≤ n) {fuel : ℕ} {flags : List Bool}
    {state : List Bool × ℤ}
    (hvisits : Visits (sieveLoopPass int n fuel) (flags, 2) state) :
    2 ≤ state.2 ∧ (state.2 - 1) * (state.2 - 1) ≤ n := by
  apply hvisits.invariant
    (fun state => 2 ≤ state.2 ∧ (state.2 - 1) * (state.2 - 1) ≤ n)
  · exact ⟨le_rfl, by simpa using hn⟩
  · rintro state next ⟨hlower, hbefore⟩ hpass
    obtain ⟨hgoesOn, hbody⟩ := of_whilePass_eq_next hpass
    rw [hfits.square state.2 hlower hbefore] at hgoesOn
    have hle := le_of_mul_self_le hlower hgoesOn
    rw [snd_of_sievePass hbody, hfits.succ state.2 (by omega) hle]
    refine ⟨by omega, ?_⟩
    simpa using hgoesOn

theorem two_le_of_visits_collect {flags : List Bool} {state : List ℤ × ℤ}
    (hvisits : Visits (collectLoopPass int n flags) ([], max m 2) state) :
    2 ≤ state.2 := by
  apply hvisits.invariant (fun state => 2 ≤ state.2)
  · exact le_max_right m 2
  · intro state next hstate hpass
    obtain ⟨hle, hbody⟩ := of_whilePass_eq_next hpass
    rw [collectPass] at hbody
    obtain ⟨prime, -, hnext⟩ := Option.bind_eq_some_iff.mp hbody
    obtain rfl := Option.some.inj hnext
    simp only [hfits.succ state.2 (by omega) hle]
    omega

theorem subscriptsInRange_of_fits (hn : 1 ≤ n) : SubscriptsInRange int m n := by
  intro fuel i hsubscript
  cases hsubscript with
  | one hall => omega
  | zero hall hfirst => omega
  | tested hstart hvisits hgoesOn =>
      obtain ⟨hlower, hbefore⟩ := bounds_of_visits_sieve hfits hn hvisits
      rw [hfits.square _ hlower hbefore] at hgoesOn
      have hle := le_of_mul_self_le hlower hgoesOn
      omega
  | marked hstart hvisits hgoesOn hprime hmarking hle =>
      obtain ⟨hlower, hbefore⟩ := bounds_of_visits_sieve hfits hn hvisits
      rw [hfits.square _ hlower hbefore] at hgoesOn hmarking
      have hnonneg := zero_le_of_visits_mark hfits hlower hgoesOn hmarking
      omega
  | collected hstart hsieve hvisits hle =>
      have hlower := two_le_of_visits_collect hfits hvisits
      omega

end InRange

theorem sieveFits_exactInt (n : ℤ) : SieveFits exactInt n where
  square := fun _ _ _ => exactInt_apply _
  multiple := fun _ _ _ _ _ _ => exactInt_apply _
  succ := fun _ _ _ => exactInt_apply _

/-- Up to the square of 46340 nothing overflows. -/
theorem sieveFits_wrap32 {n : ℤ} (hn : n < 46340 * 46340) :
    SieveFits wrap32 n where
  square := by
    intro p hlower hsquare
    have hp : p ≤ 46340 := by nlinarith
    exact wrap32_eq_self (by nlinarith) (by nlinarith)
  multiple := by
    intro p i hlower hsquare hnonneg hle
    have hp : p ≤ 46340 := by nlinarith
    exact wrap32_eq_self (by omega) (by omega)
  succ := by
    intro i hnonneg hle
    exact wrap32_eq_self (by omega) (by omega)

/-- A vector with one flag has no second one. -/
theorem not_subscriptsInRange_zero {int : ℤ → ℤ} {m : ℤ} (hint : int 1 = 1) :
    ¬SubscriptsInRange int m 0 := by
  intro hrange
  have hall : allTrue int 0 = some [true] := by
    rw [allTrue, zero_add, hint]
    rfl
  have hone := hrange 0 1 (.one hall)
  omega

/-- Without a vector no subscript is used. -/
theorem subscriptsInRange_of_none {int : ℤ → ℤ} {m n : ℤ}
    (hnone : allTrue int n = none) : SubscriptsInRange int m n := by
  have hflags : startFlags int n = none := by
    rw [startFlags, hnone]
    rfl
  intro fuel i hsubscript
  cases hsubscript <;> simp_all

/-! ## Overflow -/

/-- A vector of `n + 1` flags in which the prime 46349 is not crossed out. -/
def KeepsPrime (n : ℤ) (flags : List Bool) : Prop :=
  (flags.length : ℤ) = n + 1 ∧ read flags 46349 = some true

theorem KeepsPrime.write {n i : ℤ} {flags : List Bool}
    (hkeeps : KeepsPrime n flags) (hlower : 0 ≤ i) (hupper : i ≤ n)
    (hne : i ≠ 46349) :
    ∃ next, Segment.write flags i false = some next ∧ KeepsPrime n next := by
  obtain ⟨hlength, hread⟩ := hkeeps
  refine ⟨_, write_eq_set hlower (by omega) false, ?_, ?_⟩
  · rw [List.length_set, hlength]
  · rw [read_set_of_ne flags hlower hne, hread]

/-- No multiple of a smaller number is the prime. -/
theorem ne_of_dvd {p i : ℤ} (hlower : 2 ≤ p) (hupper : p < 46349)
    (hdvd : p ∣ i) : i ≠ 46349 := by
  rintro rfl
  obtain ⟨divisor, rfl⟩ := Int.eq_ofNat_of_zero_le (by omega : 0 ≤ p)
  have hprime : Nat.Prime 46349 := by norm_num
  have hdivisor : divisor ∣ 46349 := by exact_mod_cast hdvd
  rcases (Nat.dvd_prime hprime).mp hdivisor with hone | hself
  · omega
  · omega

/-- The marking loop has come to a multiple of `p`. -/
def MarkingKeeps (n p : ℤ) (flags : List Bool) (variant : ℕ)
    (state : List Bool × ℤ) : Prop :=
  Visits (markLoopPass wrap32 n p) (flags, wrap32 (p * p)) state ∧
    variant = (n + 1 - state.2).toNat ∧ p ∣ state.2 ∧ KeepsPrime n state.1

section Overflow

variable {m n : ℤ} (hlower : 46340 * 46340 ≤ n) (hupper : n < 2 ^ 31 - 1)

include hlower

/-- The loop over `p` does not end before the prime. -/
theorem wrap32_square_le {p : ℤ} (hp : 2 ≤ p) (hprime : p ≤ 46349) :
    wrap32 (p * p) ≤ n := by
  rcases le_or_gt p 46340 with hexact | hoverflow
  · exact (wrap32_le (mul_self_nonneg p)).trans (by nlinarith)
  · have hnegative : wrap32 (p * p) < 0 :=
      wrap32_neg (by nlinarith) (by nlinarith)
    omega

include hupper

theorem startFlags_keepsPrime :
    ∃ flags, startFlags wrap32 n = some flags ∧ KeepsPrime n flags := by
  have hsize : wrap32 (n + 1) = n + 1 := wrap32_eq_self (by omega) (by omega)
  have hall : KeepsPrime n (List.replicate (n + 1).toNat true) := by
    refine ⟨by rw [List.length_replicate]; omega, ?_⟩
    rw [Segment.read, if_pos (by norm_num), List.getElem?_replicate,
      if_pos (by omega)]
  obtain ⟨first, hfirst, hkeeps⟩ := hall.write (i := 1) (by omega) (by omega)
    (by omega)
  obtain ⟨second, hsecond, hfinal⟩ := hkeeps.write (i := 0) (by omega)
    (by omega) (by omega)
  refine ⟨second, ?_, hfinal⟩
  rw [startFlags, allTrue, hsize, if_pos (by omega), Option.bind_eq_bind,
    Option.bind_some, hfirst, Option.bind_some, hsecond]

/-- While the multiples are not negative they are exact. -/
theorem mark_keepsPrime {flags : List Bool} {p : ℤ} {fuel : ℕ} (hp : 2 ≤ p)
    (hprime : p < 46349) (hfuel : n + 1 < fuel) (hkeeps : KeepsPrime n flags)
    (hnonneg : ∀ state, Visits (markLoopPass wrap32 n p)
      (flags, wrap32 (p * p)) state → 0 ≤ state.2) :
    ∃ marked, mark wrap32 n p fuel flags = some marked ∧
      KeepsPrime n marked := by
  have hfirst : 0 ≤ wrap32 (p * p) := hnonneg _ .start
  have hsquare : wrap32 (p * p) = p * p :=
    wrap32_eq_self_of_nonneg (mul_self_nonneg p) (by nlinarith) hfirst
  have hbegin : MarkingKeeps n p flags (n + 1 - wrap32 (p * p)).toNat
      (flags, wrap32 (p * p)) := by
    refine ⟨.start, rfl, ?_, hkeeps⟩
    rw [hsquare]
    exact Dvd.intro p rfl
  have hloop : ∃ final, whileLoop (fun state : List Bool × ℤ => state.2 ≤ n)
      (markPass wrap32 p) fuel (flags, wrap32 (p * p)) = some final ∧
        KeepsPrime n final.1 := by
    apply whileLoop_of_variant_lt (MarkingKeeps n p flags) (by omega) hbegin
    · rintro _ ⟨current, i⟩ ⟨hvisits, rfl, hdvd, hcurrent⟩ hle
      have hi : 0 ≤ i := hnonneg _ hvisits
      simp only at hle hdvd hcurrent
      obtain ⟨next, hwrite, hnext⟩ :=
        hcurrent.write hi hle (ne_of_dvd hp hprime hdvd)
      have hbody : markPass wrap32 p (current, i) =
          some (next, wrap32 (i + p)) := by
        simp only [markPass, hwrite]
        rfl
      have hlater := hvisits.next (whilePass_of_condition hle hbody)
      have hexact : wrap32 (i + p) = i + p :=
        wrap32_eq_self_of_nonneg (by omega) (by omega) (hnonneg _ hlater)
      refine ⟨_, _, hbody, ?_, hlater, rfl, ?_, hnext⟩
      · simp only [hexact]
        omega
      · simp only [hexact]
        exact dvd_add_self_right.mpr hdvd
    · rintro _ state ⟨-, -, -, hfinal⟩ -
      exact hfinal
  obtain ⟨final, hfinal, hmarked⟩ := hloop
  refine ⟨final.1, ?_, hmarked⟩
  rw [mark, hfinal]
  rfl

variable (hrange : SubscriptsInRange wrap32 m n) {fuel : ℕ}
  {start : List Bool} (hstart : startFlags wrap32 n = some start)

include hrange hstart

/-- The marking loop of a number that is tested uses no negative multiple. -/
theorem zero_le_of_inRange {flags : List Bool} {p : ℤ} (hp : 2 ≤ p)
    (hprime : p ≤ 46349)
    (hvisits : Visits (sieveLoopPass wrap32 n fuel) (start, 2) (flags, p))
    (hread : read flags p = some true) {state : List Bool × ℤ}
    (hstate : Visits (markLoopPass wrap32 n p) (flags, wrap32 (p * p)) state) :
    0 ≤ state.2 := by
  by_contra hnegative
  have hle : state.2 ≤ n := by omega
  have hused := hrange fuel _ (.marked hstart hvisits
    (wrap32_square_le hlower hp hprime) hread hstate hle)
  exact hnegative hused.1

theorem sievePass_keepsPrime {flags : List Bool} {p : ℤ} (hp : 2 ≤ p)
    (hprime : p < 46349) (hfuel : n + 1 < fuel)
    (hvisits : Visits (sieveLoopPass wrap32 n fuel) (start, 2) (flags, p))
    (hkeeps : KeepsPrime n flags) :
    ∃ next, Visits (sieveLoopPass wrap32 n fuel) (start, 2) (next, p + 1) ∧
      KeepsPrime n next := by
  have hgoesOn := wrap32_square_le hlower hp hprime.le
  have hnumber : wrap32 (p + 1) = p + 1 := wrap32_eq_self (by omega) (by omega)
  have hindex : p.toNat < flags.length := by
    have hlength := hkeeps.1
    omega
  have hread : read flags p = some flags[p.toNat] := by
    rw [Segment.read, if_pos (by omega), List.getElem?_eq_getElem hindex]
  cases hflag : flags[p.toNat] with
  | false =>
      rw [hflag] at hread
      have hpass := hvisits.next
        (whilePass_of_condition hgoesOn (sievePass_of_false hread))
      rw [hnumber] at hpass
      exact ⟨flags, hpass, hkeeps⟩
  | true =>
      rw [hflag] at hread
      obtain ⟨marked, hmark, hmarked⟩ := mark_keepsPrime hlower hupper hp hprime
        hfuel hkeeps fun state =>
          zero_le_of_inRange hlower hupper hrange hstart hp hprime.le hvisits
            hread
      have hbody : sievePass wrap32 n fuel (flags, p) =
          some (marked, wrap32 (p + 1)) := by
        rw [sievePass_of_true hread, hmark]
        rfl
      have hpass := hvisits.next (whilePass_of_condition hgoesOn hbody)
      rw [hnumber] at hpass
      exact ⟨marked, hpass, hmarked⟩

/-- The loop over `p` comes to the prime. -/
theorem visits_prime (hfuel : n + 1 < fuel) (hkeeps : KeepsPrime n start)
    {count : ℕ} (hcount : count ≤ 46347) :
    ∃ flags, Visits (sieveLoopPass wrap32 n fuel) (start, 2)
        (flags, 2 + count) ∧
      KeepsPrime n flags := by
  induction count with
  | zero => exact ⟨start, .start, hkeeps⟩
  | succ count ih =>
      obtain ⟨flags, hvisits, hflags⟩ := ih (by omega)
      obtain ⟨next, hnext, hlater⟩ := sievePass_keepsPrime hlower hupper hrange
        hstart (by omega) (by omega) hfuel hvisits hflags
      refine ⟨next, ?_, hlater⟩
      rwa [add_assoc] at hnext

end Overflow

theorem not_subscriptsInRange {m n : ℤ} (hlower : 46340 * 46340 ≤ n)
    (hupper : n < 2 ^ 31 - 1) : ¬SubscriptsInRange wrap32 m n := by
  intro hrange
  obtain ⟨start, hstart, hkeeps⟩ := startFlags_keepsPrime hlower hupper
  obtain ⟨flags, hvisits, hflags⟩ := visits_prime hlower hupper hrange hstart
    (show n + 1 < ((n + 2).toNat : ℤ) by omega) hkeeps le_rfl
  have hnonneg := zero_le_of_inRange hlower hupper hrange hstart (by norm_num)
    le_rfl hvisits hflags.2 .start
  have hnegative : wrap32 (46349 * 46349) < 0 := by decide
  exact absurd hnonneg hnegative.not_ge

/-- In exact arithmetic only `n = 0` is too small; with wrap-around the square
of 46340 is too large as well.  For the greatest `int` the vector cannot be
constructed and no subscript is used. -/
theorem subscriptsInRange_iff (m n : ℤ) (hn : 0 ≤ n) (hint : n < 2 ^ 31) :
    (SubscriptsInRange exactInt m n ↔ 1 ≤ n) ∧
    (SubscriptsInRange wrap32 m n ↔
      (1 ≤ n ∧ n < 46340 * 46340) ∨ n = 2 ^ 31 - 1) := by
  constructor
  · constructor
    · intro hrange
      by_contra hzero
      obtain rfl : n = 0 := by omega
      exact not_subscriptsInRange_zero (exactInt_apply 1) hrange
    · exact subscriptsInRange_of_fits (sieveFits_exactInt n)
  · constructor
    · intro hrange
      by_contra hoverflow
      rcases hn.eq_or_lt with rfl | hpositive
      · exact not_subscriptsInRange_zero (by decide) hrange
      · exact not_subscriptsInRange (by omega) (by omega) hrange
    · rintro (⟨hpositive, hsmall⟩ | rfl)
      · exact subscriptsInRange_of_fits (sieveFits_wrap32 hsmall) hpositive
      · exact subscriptsInRange_of_none (by decide)

theorem subscriptsInRange_iff_ten_to_fifty :
    (SubscriptsInRange exactInt 10 50 ↔ (1 : ℤ) ≤ 50) ∧
    (SubscriptsInRange wrap32 10 50 ↔
      ((1 : ℤ) ≤ 50 ∧ (50 : ℤ) < 46340 * 46340) ∨ (50 : ℤ) = 2 ^ 31 - 1) :=
  subscriptsInRange_iff 10 50 (by decide) (by decide)

/-- A call with `n = 0` writes to the second flag of a single one. -/
theorem sieveOfEratosthenes_writes_behind :
    ¬SubscriptsInRange wrap32 0 0 :=
  not_subscriptsInRange_zero (by decide)

end KataCpp.Primes
