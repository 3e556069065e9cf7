import KataCpp.Algorithm.Primes
import KataCpp.Core.Segment

/-!
# The sieve of Eratosthenes

`sieveOfEratosthenes` crosses out the multiples of every number up to the square
root that is not crossed out itself, from the square of the number on.  What is
left are the numbers without a divisor up to their square root, which is what
`is_prime` looks for.
-/

namespace KataCpp.Primes

open Iteration MachineInt Segment

section Code

variable (int : ℤ → ℤ)

/-- `std::vector<bool> is_prime(n + 1, true)`, which throws for a negative
size. -/
def allTrue (n : ℤ) : Option (List Bool) :=
  if 0 ≤ int (n + 1) then some (List.replicate (int (n + 1)).toNat true)
  else none

/-- A pass of the loop that marks the multiples of `p`, on `is_prime` and
`i`. -/
def markPass (p : ℤ) (state : List Bool × ℤ) : Option (List Bool × ℤ) := do
  let marked ← write state.1 state.2 false
  return (marked, int (state.2 + p))

def mark (n p : ℤ) (fuel : ℕ) (flags : List Bool) : Option (List Bool) := do
  let final ← whileLoop (fun state : List Bool × ℤ => state.2 ≤ n)
    (markPass int p) fuel (flags, int (p * p))
  return final.1

/-- A pass of the loop over `p`. -/
def sievePass (n : ℤ) (fuel : ℕ) (state : List Bool × ℤ) :
    Option (List Bool × ℤ) := do
  let prime ← read state.1 state.2
  let flags ← if prime then mark int n state.2 fuel state.1 else some state.1
  return (flags, int (state.2 + 1))

def sieve (n : ℤ) (fuel : ℕ) (flags : List Bool) : Option (List Bool) := do
  let final ← whileLoop
    (fun state : List Bool × ℤ => int (state.2 * state.2) ≤ n)
    (sievePass int n fuel) fuel (flags, 2)
  return final.1

/-- A pass of the loop that collects the numbers, on `primes` and `i`. -/
def collectPass (flags : List Bool) (state : List ℤ × ℤ) :
    Option (List ℤ × ℤ) := do
  let prime ← read flags state.2
  return (if prime then state.1 ++ [state.2] else state.1, int (state.2 + 1))

def sieveOfEratosthenes (m n : ℤ) (fuel : ℕ) : Option (List ℤ) := do
  let flags ← allTrue int n
  let flags ← write flags 1 false
  let flags ← write flags 0 false
  let flags ← sieve int n fuel flags
  let final ← whileLoop (fun state : List ℤ × ℤ => state.2 ≤ n)
    (collectPass int flags) fuel ([], max m 2)
  return final.1

end Code

/-- The flags up to `n` are set for the numbers with the property. -/
def Shows (flags : List Bool) (n : ℕ) (property : ℕ → Prop) : Prop :=
  flags.length = n + 1 ∧
    ∀ index ≤ n, flags[index]? = some true ↔ property index

section Flags

variable {flags : List Bool} {n : ℕ} {property other : ℕ → Prop}

theorem Shows.congr (hflags : Shows flags n property)
    (hproperty : ∀ index ≤ n, property index ↔ other index) :
    Shows flags n other :=
  ⟨hflags.1, fun index hindex =>
    (hflags.2 index hindex).trans (hproperty index hindex)⟩

theorem Shows.read (hflags : Shows flags n property) {index : ℕ}
    (hindex : index ≤ n) :
    ∃ flag, Segment.read flags index = some flag ∧
      (flag = true ↔ property index) := by
  have hlength : index < flags.length := by rw [hflags.1]; omega
  have hread := List.getElem?_eq_getElem hlength
  refine ⟨flags[index], by rw [read_natCast, hread], ?_⟩
  rw [← hflags.2 index hindex, hread, Option.some.injEq]

theorem Shows.clear (hflags : Shows flags n property) {cleared : ℕ}
    (hcleared : cleared ≤ n) :
    ∃ next, write flags cleared false = some next ∧
      Shows next n fun index => property index ∧ index ≠ cleared := by
  have hlength := hflags.1
  refine ⟨_, write_eq_set (by omega) (by omega) false, ?_, ?_⟩
  · rw [List.length_set, hlength]
  · intro index hindex
    simp only [Int.toNat_natCast, ← hflags.2 index hindex]
    by_cases hsame : index = cleared
    · rw [hsame, List.getElem?_set_self (by omega)]
      simp
    · rw [List.getElem?_set_ne (Ne.symm hsame)]
      exact (and_iff_left hsame).symm

end Flags

theorem eq_of_dvd_of_le {p i j : ℕ} (hi : p ∣ i) (hj : p ∣ j) (hlower : i ≤ j)
    (hupper : j < i + p) : j = i := by
  have hzero := Nat.eq_zero_of_dvd_of_lt (Nat.dvd_sub hj hi) (by omega)
  omega

section Sieve

variable {flags : List Bool} {n : ℕ}

/-- The multiple `i` of `p` is marked after those below it. -/
theorem markPass_shows {property : ℕ → Prop} {p i : ℕ} (hp : 0 < p)
    (hdvd : p ∣ i) (hlower : p * p ≤ i) (hi : i ≤ n)
    (hflags : Shows flags n fun index =>
      property index ∧ ¬(p * p ≤ index ∧ index < i ∧ p ∣ index)) :
    ∃ next, markPass exactInt p (flags, i) =
        some (next, ((i + p : ℕ) : ℤ)) ∧
      Shows next n fun index =>
        property index ∧ ¬(p * p ≤ index ∧ index < i + p ∧ p ∣ index) := by
  obtain ⟨next, hwrite, hnext⟩ := hflags.clear hi
  refine ⟨next, ?_, hnext.congr fun index hindex => ?_⟩
  · simp only [markPass, hwrite, exactInt_apply]
    rfl
  · rw [and_assoc]
    refine and_congr_right fun _ => ⟨?_, ?_⟩
    · rintro ⟨hbefore, hne⟩ ⟨hsquare, hupper, hmultiple⟩
      rcases lt_or_ge index i with hless | hge
      · exact hbefore ⟨hsquare, hless, hmultiple⟩
      · exact hne (eq_of_dvd_of_le hdvd hmultiple hge hupper)
    · intro hnone
      refine ⟨fun hbefore => ?_, ?_⟩
      · exact hnone ⟨hbefore.1, by omega, hbefore.2.2⟩
      · rintro rfl
        exact hnone ⟨hlower, by omega, hdvd⟩

/-- The multiples of `p` below `i` are marked. -/
def Marking (n : ℕ) (property : ℕ → Prop) (p variant : ℕ)
    (state : List Bool × ℤ) : Prop :=
  ∃ i : ℕ, (i : ℤ) = state.2 ∧ variant = n + 1 - i ∧ p ∣ i ∧ p * p ≤ i ∧
    Shows state.1 n fun index =>
      property index ∧ ¬(p * p ≤ index ∧ index < i ∧ p ∣ index)

theorem whileLoop_markPass {property : ℕ → Prop} {p fuel : ℕ} (hp : 0 < p)
    (hfuel : n + 1 < fuel) (hflags : Shows flags n property) :
    ∃ final, whileLoop (fun state : List Bool × ℤ => state.2 ≤ n)
        (markPass exactInt p) fuel (flags, ((p * p : ℕ) : ℤ)) = some final ∧
      Shows final.1 n fun index =>
        property index ∧ ¬(p * p ≤ index ∧ p ∣ index) := by
  have hstart : Marking n property p (n + 1 - p * p)
      (flags, ((p * p : ℕ) : ℤ)) := by
    refine ⟨p * p, rfl, rfl, Nat.dvd_mul_right p p, le_rfl,
      hflags.congr fun index _ => ?_⟩
    rw [iff_self_and]
    rintro - ⟨hlower, hupper, -⟩
    omega
  apply whileLoop_of_variant_lt (Marking n property p) (by omega) hstart
  · rintro _ ⟨current, _⟩ ⟨i, rfl, rfl, hdvd, hlower, hcurrent⟩ hi
    have hle : i ≤ n := Int.ofNat_le.mp hi
    obtain ⟨next, hpass, hnext⟩ := markPass_shows hp hdvd hlower hle hcurrent
    exact ⟨n + 1 - (i + p), _, hpass, by omega, i + p, rfl, rfl,
      (Nat.dvd_add_self_right).mpr hdvd, by omega, hnext⟩
  · rintro _ ⟨current, _⟩ ⟨i, rfl, rfl, hdvd, hlower, hcurrent⟩ hi
    refine hcurrent.congr fun index hindex => ?_
    have hless : index < i := by simp only at hi; omega
    simp only [hless, true_and]

theorem mark_shows {property : ℕ → Prop} {p fuel : ℕ} (hp : 0 < p)
    (hfuel : n + 1 < fuel) (hflags : Shows flags n property) :
    ∃ next, mark exactInt n p fuel flags = some next ∧
      Shows next n fun index =>
        property index ∧ ¬(p * p ≤ index ∧ p ∣ index) := by
  obtain ⟨final, hfinal, hshows⟩ := whileLoop_markPass hp hfuel hflags
  refine ⟨final.1, ?_, hshows⟩
  rw [mark, exactInt_apply, ← Nat.cast_mul, hfinal]
  rfl

/-- The multiples of a number that is crossed out are crossed out already. -/
theorem sievePass_shows {p fuel : ℕ} (hp : 2 ≤ p) (hpn : p ≤ n)
    (hfuel : n + 1 < fuel) (hflags : Shows flags n (Untouched p)) :
    ∃ next, sievePass exactInt n fuel (flags, p) =
        some (next, ((p + 1 : ℕ) : ℤ)) ∧
      Shows next n (Untouched (p + 1)) := by
  obtain ⟨flag, hread, hflag⟩ := hflags.read hpn
  cases flag with
  | true =>
      obtain ⟨next, hmark, hnext⟩ := mark_shows (by omega : 0 < p) hfuel hflags
      refine ⟨next, ?_, hnext.congr fun index _ => ?_⟩
      · simp only [sievePass, hread, Option.bind_eq_bind, Option.bind_some,
          if_true, hmark, exactInt_apply]
        rfl
      · exact (untouched_succ hp).symm
  | false =>
      have htouched : ¬Untouched p p := by
        rw [← hflag]
        exact Bool.false_ne_true
      refine ⟨flags, ?_, hflags.congr fun index _ => ?_⟩
      · simp only [sievePass, hread, exactInt_apply]
        rfl
      · exact (untouched_succ_of_not hp htouched).symm

/-- The numbers with a divisor below `p` are crossed out. -/
def Sieving (n variant : ℕ) (state : List Bool × ℤ) : Prop :=
  ∃ p : ℕ, (p : ℤ) = state.2 ∧ variant = n + 1 - p ∧ 2 ≤ p ∧
    Shows state.1 n (Untouched p)

theorem whileLoop_sievePass {fuel : ℕ} (hfuel : n + 1 < fuel)
    (hflags : Shows flags n (2 ≤ ·)) :
    ∃ final, whileLoop
        (fun state : List Bool × ℤ => exactInt (state.2 * state.2) ≤ n)
        (sievePass exactInt n fuel) fuel (flags, 2) = some final ∧
      Shows final.1 n Nat.Prime := by
  have hstart : Sieving n (n + 1 - 2) (flags, 2) :=
    ⟨2, rfl, rfl, le_rfl,
      hflags.congr fun index _ => (untouched_two index).symm⟩
  apply whileLoop_of_variant_lt (Sieving n) (by omega) hstart
  · rintro _ ⟨current, _⟩ ⟨p, rfl, rfl, hp, hcurrent⟩ hsquare
    have hle : p * p ≤ n := by
      simp only [exactInt_apply] at hsquare
      exact_mod_cast hsquare
    have hpn : p ≤ n := (Nat.le_mul_self p).trans hle
    obtain ⟨next, hpass, hnext⟩ := sievePass_shows hp hpn hfuel hcurrent
    exact ⟨n + 1 - (p + 1), _, hpass, by omega, p + 1, rfl, rfl, by omega,
      hnext⟩
  · rintro _ ⟨current, _⟩ ⟨p, rfl, rfl, hp, hcurrent⟩ hsquare
    have hless : n < p * p := by
      simp only [exactInt_apply, not_le] at hsquare
      exact_mod_cast hsquare
    exact hcurrent.congr fun index hindex =>
      untouched_iff_prime (hindex.trans_lt hless)

theorem sieve_shows {fuel : ℕ} (hfuel : n + 1 < fuel)
    (hflags : Shows flags n (2 ≤ ·)) :
    ∃ next, sieve exactInt n fuel flags = some next ∧
      Shows next n Nat.Prime := by
  obtain ⟨final, hfinal, hshows⟩ := whileLoop_sievePass hfuel hflags
  refine ⟨final.1, ?_, hshows⟩
  rw [sieve, hfinal]
  rfl

/-- All numbers from two on are candidates. -/
theorem candidates_shows (hn : 1 ≤ n) :
    ∃ all first second, allTrue exactInt n = some all ∧
      write all 1 false = some first ∧ write first 0 false = some second ∧
      Shows second n (2 ≤ ·) := by
  have hall : Shows (List.replicate (n + 1) true) n fun _ => True := by
    refine ⟨List.length_replicate, fun index hindex => iff_of_true ?_ trivial⟩
    rw [List.getElem?_replicate, if_pos (by omega)]
  obtain ⟨first, hfirst, hone⟩ := hall.clear hn
  obtain ⟨second, hsecond, hzero⟩ := hone.clear (Nat.zero_le n)
  refine ⟨_, first, second, ?_, hfirst, hsecond,
    hzero.congr fun index _ => ?_⟩
  · rw [allTrue, exactInt_apply, if_pos (by omega)]
    rfl
  · simp only [true_and]
    omega

end Sieve

/-! ## The numbers that are collected -/

theorem range_cons {first bound : ℤ} (hless : first < bound) :
    Int.range first bound = first :: Int.range (first + 1) bound := by
  have hcount : (bound - first).toNat = (bound - (first + 1)).toNat + 1 := by
    omega
  rw [Int.range, hcount, List.range_succ_eq_map, List.map_cons, List.map_map,
    Nat.cast_zero, add_zero, Int.range]
  congr 2
  funext index
  simp only [Function.comp_apply, Nat.cast_succ]
  omega

theorem range_eq_nil {first bound : ℤ} (hle : bound ≤ first) :
    Int.range first bound = [] := by
  have hcount : (bound - first).toNat = 0 := by omega
  rw [Int.range, hcount]
  rfl

theorem pairwise_range (first bound : ℤ) :
    (Int.range first bound).Pairwise (· < ·) := by
  rw [Int.range, List.pairwise_map]
  exact List.pairwise_lt_range.imp fun hless => by omega

def primesBetween (first bound : ℤ) : List ℤ :=
  (Int.range first bound).filter fun number => number.toNat.Prime

theorem primesBetween_of_lt {first bound : ℤ} (hless : first < bound) :
    primesBetween first bound =
      (if first.toNat.Prime then [first] else []) ++
        primesBetween (first + 1) bound := by
  rw [primesBetween, range_cons hless, List.filter_cons]
  by_cases hprime : first.toNat.Prime
  · simp only [hprime, decide_true, if_true]
    rfl
  · simp only [hprime, decide_false, if_false]
    rfl

/-- The primes from `state.2` on are still to be collected. -/
def Collecting (first bound : ℤ) (variant : ℕ) (state : List ℤ × ℤ) : Prop :=
  2 ≤ state.2 ∧ variant = (bound - state.2).toNat ∧
    state.1 ++ primesBetween state.2 bound = primesBetween first bound

section Collect

variable {flags : List Bool} {n : ℕ} (hflags : Shows flags n Nat.Prime)

include hflags

theorem collectPass_eq (primes : List ℤ) {number : ℤ} (hlower : 0 ≤ number)
    (hupper : number ≤ n) :
    collectPass exactInt flags (primes, number) =
      some (primes ++ (if number.toNat.Prime then [number] else []),
        number + 1) := by
  obtain ⟨index, rfl⟩ := Int.eq_ofNat_of_zero_le hlower
  obtain ⟨flag, hread, hflag⟩ := hflags.read (Int.ofNat_le.mp hupper)
  rw [Int.toNat_natCast]
  cases flag with
  | true =>
      rw [if_pos (hflag.mp rfl)]
      simp only [collectPass, hread, exactInt_apply]
      rfl
  | false =>
      rw [if_neg (fun hprime => Bool.false_ne_true (hflag.mpr hprime)),
        List.append_nil]
      simp only [collectPass, hread, exactInt_apply]
      rfl

theorem whileLoop_collectPass (m : ℤ) {fuel : ℕ} (hfuel : n + 1 < fuel) :
    ∃ final, whileLoop (fun state : List ℤ × ℤ => state.2 ≤ n)
        (collectPass exactInt flags) fuel ([], max m 2) = some final ∧
      final.1 = primesBetween (max m 2) (n + 1) := by
  have hstart : Collecting (max m 2) (n + 1) (n + 1 - max m 2).toNat
      ([], max m 2) :=
    ⟨le_max_right m 2, rfl, rfl⟩
  apply whileLoop_of_variant_lt (Collecting (max m 2) (n + 1)) (by omega)
    hstart
  · rintro _ ⟨primes, number⟩ ⟨hlower, rfl, hprimes⟩ hle
    simp only at hlower hprimes hle
    refine ⟨_, _, collectPass_eq hflags primes (by omega) hle,
      (by simp only; omega), (by simp only; omega), rfl, ?_⟩
    rw [List.append_assoc, ← primesBetween_of_lt (by omega), hprimes]
  · rintro _ ⟨primes, number⟩ ⟨-, -, hprimes⟩ hless
    simp only [not_le] at hprimes hless
    rw [← hprimes, primesBetween, range_eq_nil (by omega), List.filter_nil,
      List.append_nil]

end Collect

theorem sieveOfEratosthenes_returns (m : ℤ) {n : ℕ} (hn : 1 ≤ n) :
    Returns (sieveOfEratosthenes exactInt m n)
      (primesBetween (max m 2) (n + 1)) := by
  refine ⟨n + 2, fun fuel hfuel => ?_⟩
  obtain ⟨all, first, second, hall, hfirst, hsecond, hshows⟩ :=
    candidates_shows hn
  obtain ⟨flags, hsieve, hflags⟩ := sieve_shows hfuel hshows
  obtain ⟨final, hfinal, hprimes⟩ := whileLoop_collectPass hflags m hfuel
  simp only [sieveOfEratosthenes, hall, hfirst, hsecond, hsieve, hfinal,
    hprimes, Option.bind_eq_bind, Option.bind_some]
  rfl

theorem isPrime_returns_decide (n : ℤ) :
    Returns (isPrime exactInt n) (decide n.toNat.Prime) := by
  obtain ⟨answer, hreturns, hanswer⟩ := isPrime_returns (fits_exactInt n.toNat)
  have hequal : answer = decide n.toNat.Prime := by
    rw [Bool.eq_iff_iff, decide_eq_true_eq]
    exact hanswer
  rwa [hequal] at hreturns

/-- The sieve finds the primes between its bounds in ascending order, which are
the numbers from two on that `is_prime` recognizes. -/
theorem sieveOfEratosthenes_correct (m n : ℤ) (hn : 1 ≤ n) :
    ∃ primes, Returns (sieveOfEratosthenes exactInt m n) primes ∧
      primes.Pairwise (· < ·) ∧
      (∀ p, p ∈ primes ↔ m ≤ p ∧ p ≤ n ∧ p.toNat.Prime) ∧
      ∃ answer : ℤ → Bool, (∀ k, Returns (isPrime exactInt k) (answer k)) ∧
        primes = (Int.range (max m 2) (n + 1)).filter answer := by
  obtain ⟨count, rfl⟩ := Int.eq_ofNat_of_zero_le (zero_le_one.trans hn)
  refine ⟨_, sieveOfEratosthenes_returns m (by omega), ?_, ?_, _,
    isPrime_returns_decide, rfl⟩
  · exact (pairwise_range _ _).filter _
  · intro p
    rw [primesBetween, List.mem_filter, Int.mem_range_iff, decide_eq_true_eq,
      max_le_iff, Int.lt_add_one_iff, and_assoc, and_assoc]
    refine and_congr_right fun _ => and_iff_right_of_imp ?_
    rintro ⟨-, hprime⟩
    have htwo := hprime.two_le
    omega

theorem sieveOfEratosthenes_correct_ten_to_fifty :
    ∃ primes, Returns (sieveOfEratosthenes exactInt 10 50) primes ∧
      ∀ p, p ∈ primes ↔ 10 ≤ p ∧ p ≤ 50 ∧ p.toNat.Prime := by
  obtain ⟨primes, hreturns, -, hprimes, -⟩ :=
    sieveOfEratosthenes_correct 10 50 (by decide)
  exact ⟨primes, hreturns, hprimes⟩

end KataCpp.Primes
