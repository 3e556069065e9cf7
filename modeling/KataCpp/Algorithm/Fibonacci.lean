import KataCpp.Core.Iteration
import KataCpp.Core.MachineInt
import KataCpp.Core.Segment

/-!
# Fibonacci numbers

There are four implementations: plain recursion, recursion with a vector of the
values known so far, a table, and a loop with the last two values.  The vector
has zeros for the values that are not known; a value may be zero itself if
sums are reduced to an `int`, and is then computed once more.
-/

namespace KataCpp.Fibonacci

open Iteration MachineInt Segment

section Code

variable (int : ℤ → ℤ)

def fib1 : ℕ → ℤ → Option ℤ
  | 0, _ => none
  | fuel + 1, n =>
      if n = 0 then some 0
      else if n = 1 ∨ n = 2 then some 1
      else do
        let first ← fib1 fuel (int (n - 1))
        let second ← fib1 fuel (int (n - 2))
        return int (first + second)

/-- `helper`, with the vector after the call. -/
def helper : ℕ → List ℤ → ℤ → Option (ℤ × List ℤ)
  | 0, _, _ => none
  | fuel + 1, memo, n =>
      if n = 1 ∨ n = 2 then some (1, memo)
      else do
        let known ← read memo n
        if known ≠ 0 then return (known, memo)
        let (first, memo) ← helper fuel memo (int (n - 1))
        let (second, memo) ← helper fuel memo (int (n - 2))
        let memo ← write memo n (int (first + second))
        let value ← read memo n
        return (value, memo)

/-- `vector<int>(N + 1, 0)`, which throws for a negative size. -/
def zeros (N : ℤ) : Option (List ℤ) :=
  if 0 ≤ int (N + 1) then some (List.replicate (int (N + 1)).toNat 0)
  else none

def fib2 (N : ℤ) (fuel : ℕ) : Option ℤ :=
  if N = 0 then some 0
  else if N = 1 ∨ N = 2 then some 1
  else do
    let memo ← zeros int N
    let result ← helper int fuel memo N
    return result.1

/-- A pass of the loop of `fib3`, on `dp` and `i`. -/
def tablePass (state : List ℤ × ℤ) : Option (List ℤ × ℤ) := do
  let first ← read state.1 (int (state.2 - 1))
  let second ← read state.1 (int (state.2 - 2))
  let dp ← write state.1 state.2 (int (first + second))
  return (dp, int (state.2 + 1))

def fib3 (N : ℤ) (fuel : ℕ) : Option ℤ :=
  if N = 0 then some 0
  else if N = 1 ∨ N = 2 then some 1
  else do
    let dp ← zeros int N
    let dp ← write dp 2 1
    let dp ← write dp 1 1
    let final ← whileLoop (fun state : List ℤ × ℤ => state.2 ≤ N)
      (tablePass int) fuel (dp, 3)
    read final.1 N

structure Pair where
  prev : ℤ
  curr : ℤ
  i : ℤ

/-- A pass of the loop of `fib4`. -/
def pairPass (state : Pair) : Option Pair :=
  let sum := int (state.prev + state.curr)
  some ⟨state.curr, sum, int (state.i + 1)⟩

def fib4 (N : ℤ) (fuel : ℕ) : Option ℤ :=
  if N = 0 then some 0
  else if N = 1 ∨ N = 2 then some 1
  else do
    let final ← whileLoop (fun state : Pair => state.i ≤ N) (pairPass int) fuel
      ⟨1, 1, 3⟩
    return final.curr

/-- All implementations return the Fibonacci number in the arithmetic. -/
structure Agree (N : ℤ) : Prop where
  plain : Returns (fib1 int · N) (int (Nat.fib N.toNat))
  memo : Returns (fib2 int N) (int (Nat.fib N.toNat))
  table : Returns (fib3 int N) (int (Nat.fib N.toNat))
  pair : Returns (fib4 int N) (int (Nat.fib N.toNat))

end Code

/-- Sums may be reduced before they are added, and numbers up to `limit` are
not changed. -/
structure Reduces (int : ℤ → ℤ) (limit : ℕ) : Prop where
  int_add : ∀ a b, int (int a + int b) = int (a + b)
  int_self : ∀ value : ℤ, 0 ≤ value → value ≤ limit → int value = value

theorem reduces_exactInt (limit : ℕ) : Reduces exactInt limit where
  int_add := fun _ _ => rfl
  int_self := fun _ _ _ => rfl

theorem reduces_wrap32 {limit : ℕ} (hlimit : limit < 2 ^ 31) :
    Reduces wrap32 limit where
  int_add := by
    intro a b
    rw [wrap32, wrap32, wrap32, wrap32, Int.bmod_add_bmod, Int.add_bmod_bmod]
  int_self := fun _ hlower hupper => wrap32_eq_self (by omega) (by omega)

def fibIn (int : ℤ → ℤ) (n : ℕ) : ℤ := int (Nat.fib n)

section Implementations

variable {int : ℤ → ℤ} {limit : ℕ} (hint : Reduces int limit)

include hint

theorem fibIn_add_two (n : ℕ) :
    fibIn int (n + 2) = int (fibIn int (n + 1) + fibIn int n) := by
  rw [fibIn, fibIn, fibIn, hint.int_add, Nat.fib_add_two, Nat.add_comm,
    Nat.cast_add]

theorem fibIn_zero : fibIn int 0 = 0 :=
  hint.int_self 0 le_rfl (Nat.cast_nonneg limit)

theorem fibIn_one (hlimit : 1 ≤ limit) : fibIn int 1 = 1 :=
  hint.int_self 1 zero_le_one (by exact_mod_cast hlimit)

theorem fibIn_two (hlimit : 1 ≤ limit) : fibIn int 2 = 1 :=
  fibIn_one hint hlimit

/-- The two arguments before `n + 3`. -/
theorem int_sub_one {n : ℕ} (hn : n + 3 ≤ limit) :
    int ((n + 3 : ℕ) - 1) = (n + 2 : ℕ) := by
  rw [hint.int_self _ (by omega) (by omega)]
  omega

theorem int_sub_two {n : ℕ} (hn : n + 3 ≤ limit) :
    int ((n + 3 : ℕ) - 2) = (n + 1 : ℕ) := by
  rw [hint.int_self _ (by omega) (by omega)]
  omega

theorem int_succ {n : ℕ} (hn : n + 1 ≤ limit) :
    int ((n : ℤ) + 1) = (n + 1 : ℕ) := by
  rw [hint.int_self _ (by omega) (by omega)]
  rfl

theorem fib1_add_three {n : ℕ} (hn : n + 3 ≤ limit) (fuel : ℕ) :
    fib1 int (fuel + 1) (n + 3 : ℕ) =
      (fib1 int fuel (n + 2 : ℕ)).bind fun first =>
        (fib1 int fuel (n + 1 : ℕ)).bind fun second =>
          some (int (first + second)) := by
  rw [fib1, if_neg (by omega), if_neg (by omega), int_sub_one hint hn,
    int_sub_two hint hn]
  rfl

theorem fib1_returns (hlimit : 1 ≤ limit) {n : ℕ} (hn : n ≤ limit) :
    Returns (fib1 int · n) (fibIn int n) := by
  induction n using Nat.strong_induction_on with
  | _ n ih =>
      apply returns_of_succ
      rcases n with _ | _ | _ | n
      · rw [fibIn_zero hint]
        exact returns_some 0
      · rw [fibIn_one hint hlimit]
        exact returns_some 1
      · rw [fibIn_two hint hlimit]
        exact returns_some 1
      · simp only [fib1_add_three hint hn, fibIn_add_two hint (n + 1)]
        exact (ih (n + 2) (by omega) (by omega)).bind
          ((ih (n + 1) (by omega) (by omega)).bind (returns_some _))

/-- Every value of the vector is zero or the Fibonacci number. -/
structure Memo (int : ℤ → ℤ) (size : ℕ) (memo : List ℤ) : Prop where
  length_eq : memo.length = size
  known : ∀ index value, memo[index]? = some value →
    value = 0 ∨ value = fibIn int index

omit hint in
theorem memo_replicate (size : ℕ) : Memo int size (List.replicate size 0) where
  length_eq := List.length_replicate
  known := by
    intro index value hvalue
    rw [List.getElem?_replicate] at hvalue
    split_ifs at hvalue
    exact .inl (Option.some.inj hvalue).symm

omit hint in
theorem Memo.set {size : ℕ} {memo : List ℤ} (hmemo : Memo int size memo)
    (n : ℕ) : Memo int size (memo.set n (fibIn int n)) where
  length_eq := (List.length_set ..).trans hmemo.length_eq
  known := by
    intro index value hvalue
    rw [List.getElem?_set] at hvalue
    split_ifs at hvalue with hindex hlength
    · exact .inr (by rw [← Option.some.inj hvalue, hindex])
    · exact hmemo.known index value hvalue

/-- A value that is not known is computed from the two before it. -/
theorem helper_add_three {n fuel : ℕ} (hn : n + 3 ≤ limit)
    {memo memo' memo'' : List ℤ} {first second : ℤ}
    (hread : read memo (n + 3 : ℕ) = some 0)
    (hfirst : helper int fuel memo (n + 2 : ℕ) = some (first, memo'))
    (hsecond : helper int fuel memo' (n + 1 : ℕ) = some (second, memo''))
    (hlength : n + 3 < memo''.length) :
    helper int (fuel + 1) memo (n + 3 : ℕ) =
      some (int (first + second),
        memo''.set (n + 3) (int (first + second))) := by
  have hwrite : write memo'' (n + 3 : ℕ) (int (first + second)) =
      some (memo''.set (n + 3) (int (first + second))) := by
    rw [write_eq_set (by omega) (by omega), Int.toNat_natCast]
  rw [helper, if_neg (by omega), hread, int_sub_one hint hn,
    int_sub_two hint hn]
  simp only [Option.bind_eq_bind, Option.bind_some, ne_eq, not_true_eq_false,
    if_false, hfirst, hsecond, hwrite, read_natCast]
  rw [List.getElem?_set_self hlength]
  rfl

/-- The value is right, whether it was known or not. -/
theorem helper_spec (hlimit : 1 ≤ limit) {size n fuel : ℕ}
    (hsize : size ≤ limit + 1) (hpositive : 1 ≤ n) (hn : n < size)
    (hfuel : n ≤ fuel) {memo : List ℤ} (hmemo : Memo int size memo) :
    ∃ next, helper int fuel memo n = some (fibIn int n, next) ∧
      Memo int size next := by
  induction n using Nat.strong_induction_on generalizing fuel memo with
  | _ n ih =>
      obtain ⟨more, rfl⟩ := Nat.exists_eq_add_of_le' (hpositive.trans hfuel)
      rcases n with _ | _ | _ | n
      · exact absurd hpositive (by norm_num)
      · exact ⟨memo, by rw [fibIn_one hint hlimit]; rfl, hmemo⟩
      · exact ⟨memo, by rw [fibIn_two hint hlimit]; rfl, hmemo⟩
      · have hlength : n + 3 < memo.length := hmemo.length_eq ▸ hn
        have hread : read memo (n + 3 : ℕ) = some memo[n + 3] := by
          rw [read_natCast, List.getElem?_eq_getElem hlength]
        by_cases hzero : memo[n + 3] = 0
        · rw [hzero] at hread
          obtain ⟨memo', hfirst, hmemo'⟩ := ih (n + 2) (by omega) (by omega)
            (by omega) (by omega : n + 2 ≤ more) hmemo
          obtain ⟨memo'', hsecond, hmemo''⟩ := ih (n + 1) (by omega)
            (by omega) (by omega) (by omega : n + 1 ≤ more) hmemo'
          refine ⟨_, ?_, hmemo''.set (n + 3)⟩
          rw [helper_add_three hint (by omega) hread hfirst hsecond
            (hmemo''.length_eq ▸ hn), fibIn_add_two hint (n + 1)]
        · have hvalue := (hmemo.known (n + 3) memo[n + 3]
            (List.getElem?_eq_getElem hlength)).resolve_left hzero
          refine ⟨memo, ?_, hmemo⟩
          rw [helper, if_neg (by omega), hread]
          simp only [Option.bind_eq_bind, Option.bind_some, ne_eq, hzero,
            not_false_eq_true, if_true]
          rw [hvalue]
          rfl

/-- The first three numbers are returned at once. -/
theorem returns_of_guards (hlimit : 1 ≤ limit) {N : ℕ} {rest : ℕ → Option ℤ}
    (hrest : 3 ≤ N → Returns rest (fibIn int N)) :
    Returns (fun fuel => if (N : ℤ) = 0 then some 0
      else if (N : ℤ) = 1 ∨ (N : ℤ) = 2 then some 1 else rest fuel)
      (fibIn int N) := by
  rcases N with _ | _ | _ | n
  · rw [fibIn_zero hint]
    exact returns_some 0
  · rw [fibIn_one hint hlimit]
    exact returns_some 1
  · rw [fibIn_two hint hlimit]
    exact returns_some 1
  · have hlarge : 3 ≤ n + 3 := Nat.le_add_left 3 n
    simp only [if_neg (show ¬ ((n + 3 : ℕ) : ℤ) = 0 by omega),
      if_neg (show ¬ (((n + 3 : ℕ) : ℤ) = 1 ∨ ((n + 3 : ℕ) : ℤ) = 2) by omega)]
    exact hrest hlarge

theorem zeros_eq {N : ℕ} (hN : N + 1 ≤ limit) :
    zeros int N = some (List.replicate (N + 1) 0) := by
  rw [zeros, int_succ hint hN, if_pos (by omega), Int.toNat_natCast]

theorem fib2_returns {N : ℕ} (hN : N + 1 ≤ limit) :
    Returns (fib2 int N) (fibIn int N) := by
  refine returns_of_guards hint (by omega) fun hlarge =>
    ⟨N, fun fuel hfuel => ?_⟩
  obtain ⟨memo, hhelper, -⟩ := helper_spec hint (by omega) (by omega)
    (by omega) N.lt_succ_self hfuel (memo_replicate (N + 1))
  simp only [zeros_eq hint hN, Option.bind_eq_bind, Option.bind_some, hhelper]
  rfl

/-- The entries of the table below `i` are filled. -/
structure Filled (int : ℤ → ℤ) (N i : ℕ) (dp : List ℤ) : Prop where
  length_eq : dp.length = N + 1
  entry : ∀ index, 1 ≤ index → index < i → dp[index]? = some (fibIn int index)

theorem tablePass_eq {N n : ℕ} (hN : N + 1 ≤ limit) (hn : n + 3 ≤ N)
    {dp : List ℤ} (hfilled : Filled int N (n + 3) dp) :
    tablePass int (dp, (n + 3 : ℕ)) =
      some (dp.set (n + 3) (fibIn int (n + 3)), ((n + 4 : ℕ) : ℤ)) := by
  have hnext := int_succ hint (by omega : n + 3 + 1 ≤ limit)
  have hlength := hfilled.length_eq
  have hwrite : write dp (n + 3 : ℕ) (fibIn int (n + 3)) =
      some (dp.set (n + 3) (fibIn int (n + 3))) := by
    rw [write_eq_set (by omega) (by omega), Int.toNat_natCast]
  rw [fibIn_add_two hint (n + 1)] at hwrite ⊢
  simp only [tablePass, int_sub_one hint (by omega : n + 3 ≤ limit),
    int_sub_two hint (by omega : n + 3 ≤ limit), read_natCast,
    hfilled.entry (n + 2) (by omega) (by omega),
    hfilled.entry (n + 1) (by omega) (by omega), Option.bind_eq_bind,
    Option.bind_some, hwrite, hnext]
  rfl

omit hint in
theorem Filled.set {N n : ℕ} {dp : List ℤ} (hfilled : Filled int N n dp)
    (hn : n ≤ N) : Filled int N (n + 1) (dp.set n (fibIn int n)) where
  length_eq := (List.length_set ..).trans hfilled.length_eq
  entry := by
    intro index hpositive hindex
    rcases (Nat.le_of_lt_succ hindex).eq_or_lt with rfl | hless
    · rw [List.getElem?_set_self (by rw [hfilled.length_eq]; omega)]
    · rw [List.getElem?_set_ne hless.ne']
      exact hfilled.entry index hpositive hless

/-- The first two entries are set before the loop. -/
theorem filled_start {N : ℕ} (hlimit : 1 ≤ limit) (hN : 3 ≤ N) :
    ∃ first second, write (List.replicate (N + 1) 0) 2 1 = some first ∧
      write first 1 1 = some second ∧ Filled int N 3 second := by
  have hlength : (List.replicate (N + 1) (0 : ℤ)).length = N + 1 :=
    List.length_replicate
  have htwo : (2 : ℤ).toNat = 2 := rfl
  refine ⟨_, _, write_eq_set (by norm_num) (by omega) 1,
    write_eq_set (by norm_num) (by rw [List.length_set]; omega) 1, ?_, ?_⟩
  · rw [List.length_set, List.length_set, hlength]
  · intro index hpositive hindex
    interval_cases index
    · rw [fibIn_one hint hlimit, Int.toNat_one, List.getElem?_set_self
        (by rw [List.length_set]; omega)]
    · rw [fibIn_two hint hlimit, Int.toNat_one, List.getElem?_set_ne
        (by norm_num), htwo, List.getElem?_set_self (by omega)]

/-- The loop of `fib3` has come to an entry. -/
def Filling (int : ℤ → ℤ) (N variant : ℕ) (state : List ℤ × ℤ) : Prop :=
  ∃ n : ℕ, state.2 = (n + 3 : ℕ) ∧ variant = N - (n + 2) ∧ n + 2 ≤ N ∧
    Filled int N (n + 3) state.1

theorem fib3_returns {N : ℕ} (hN : N + 1 ≤ limit) :
    Returns (fib3 int N) (fibIn int N) := by
  refine returns_of_guards hint (by omega) fun hlarge =>
    ⟨N + 1, fun fuel hfuel => ?_⟩
  obtain ⟨first, second, hfirst, hsecond, hstart⟩ :=
    filled_start hint (by omega) hlarge
  have hloop : ∃ final, whileLoop (fun state : List ℤ × ℤ => state.2 ≤ N)
      (tablePass int) fuel (second, 3) = some final ∧
      Filled int N (N + 1) final.1 := by
    apply whileLoop_of_variant_lt (Filling int N) (by omega : N - 2 < fuel)
      ⟨0, rfl, rfl, by omega, hstart⟩
    · rintro _ ⟨dp, _⟩ ⟨n, rfl, rfl, hn, hfilled⟩ hcondition
      have hle : n + 3 ≤ N := Int.ofNat_le.mp hcondition
      exact ⟨N - (n + 3), _, tablePass_eq hint hN hle hfilled, by omega, n + 1,
        rfl, rfl, by omega, hfilled.set hle⟩
    · rintro _ ⟨dp, _⟩ ⟨n, rfl, rfl, hn, hfilled⟩ hcondition
      have hgreater : N < n + 3 := by
        by_contra hle
        exact hcondition (Int.ofNat_le.mpr (by omega))
      obtain rfl : N = n + 2 := by omega
      exact hfilled
  obtain ⟨final, hfinal, hfilled⟩ := hloop
  simp only [zeros_eq hint hN, hfirst, hsecond, hfinal, Option.bind_eq_bind,
    Option.bind_some, read_natCast]
  exact hfilled.entry N (by omega) N.lt_succ_self

theorem pairPass_eq {n : ℕ} (hn : n + 4 ≤ limit) :
    pairPass int ⟨fibIn int (n + 1), fibIn int (n + 2), (n + 3 : ℕ)⟩ =
      some ⟨fibIn int (n + 2), fibIn int (n + 3), (n + 4 : ℕ)⟩ := by
  have hnext := int_succ hint (by omega : n + 3 + 1 ≤ limit)
  rw [fibIn_add_two hint (n + 1), add_comm (fibIn int (n + 1 + 1))]
  simp only [pairPass, hnext]

/-- The loop of `fib4` has come to a pair of Fibonacci numbers. -/
def Pairing (int : ℤ → ℤ) (N variant : ℕ) (state : Pair) : Prop :=
  ∃ n : ℕ, state = ⟨fibIn int (n + 1), fibIn int (n + 2), (n + 3 : ℕ)⟩ ∧
    variant = N - (n + 2) ∧ n + 2 ≤ N

theorem fib4_returns {N : ℕ} (hN : N + 1 ≤ limit) :
    Returns (fib4 int N) (fibIn int N) := by
  refine returns_of_guards hint (by omega) fun hlarge =>
    ⟨N + 1, fun fuel hfuel => ?_⟩
  have hstart : Pairing int N (N - 2) ⟨1, 1, 3⟩ := by
    refine ⟨0, ?_, rfl, by omega⟩
    rw [fibIn_one hint (by omega), fibIn_two hint (by omega)]
    rfl
  have hloop : ∃ final, whileLoop (fun state : Pair => state.i ≤ N)
      (pairPass int) fuel ⟨1, 1, 3⟩ = some final ∧
      final.curr = fibIn int N := by
    apply whileLoop_of_variant_lt (Pairing int N) (by omega : N - 2 < fuel)
      hstart
    · rintro _ _ ⟨n, rfl, rfl, hn⟩ hcondition
      have hle : n + 3 ≤ N := Int.ofNat_le.mp hcondition
      exact ⟨N - (n + 3), _, pairPass_eq hint (by omega), by omega, n + 1, rfl,
        rfl, by omega⟩
    · rintro _ _ ⟨n, rfl, rfl, hn⟩ hcondition
      have hgreater : N < n + 3 := by
        by_contra hle
        exact hcondition (Int.ofNat_le.mpr (by omega))
      obtain rfl : N = n + 2 := by omega
      rfl
  obtain ⟨final, hfinal, hvalue⟩ := hloop
  simp only [hfinal, Option.bind_eq_bind, Option.bind_some, hvalue]
  rfl

theorem agree_of_reduces {N : ℕ} (hN : N + 1 ≤ limit) : Agree int N where
  plain := fib1_returns hint (by omega) (by omega)
  memo := fib2_returns hint hN
  table := fib3_returns hint hN
  pair := fib4_returns hint hN

end Implementations

/-- With the greatest `int` the size of the vector overflows. -/
theorem fib2_intMax (fuel : ℕ) : fib2 wrap32 (2 ^ 31 - 1) fuel = none := by
  have hsize : zeros wrap32 (2 ^ 31 - 1) = none := by decide
  rw [fib2, if_neg (by norm_num), if_neg (by norm_num), hsize]
  rfl

theorem not_agree_intMax : ¬ Agree wrap32 (2 ^ 31 - 1) := fun hagree =>
  not_returns fib2_intMax _ hagree.memo

/-- The implementations agree in exact arithmetic, and in that of type `int` for
every argument but the greatest `int`. -/
theorem fibs_agree_iff (N : ℤ) (hN : 0 ≤ N) :
    Agree exactInt N ∧
      (N < 2 ^ 31 → (Agree wrap32 N ↔ N ≠ 2 ^ 31 - 1)) := by
  obtain ⟨n, rfl⟩ := Int.eq_ofNat_of_zero_le hN
  refine ⟨agree_of_reduces (reduces_exactInt (n + 1)) le_rfl, fun hint => ?_⟩
  constructor
  · intro hagree hlast
    rw [hlast] at hagree
    exact not_agree_intMax hagree
  · intro hlast
    have hlimit : n + 1 < 2 ^ 31 := by omega
    exact agree_of_reduces (reduces_wrap32 hlimit) le_rfl

theorem fibs_agree_iff_forty : Agree exactInt 40 ∧ Agree wrap32 40 := by
  obtain ⟨hexact, hwrapped⟩ := fibs_agree_iff 40 (by norm_num)
  exact ⟨hexact, (hwrapped (by norm_num)).mpr (by norm_num)⟩

/-- For the greatest `int` no vector is made, and no value is returned. -/
theorem fib2_throws :
    (∀ fuel, fib2 wrap32 2147483647 fuel = none) ∧
      ¬ Agree wrap32 2147483647 :=
  ⟨fib2_intMax, not_agree_intMax⟩

end KataCpp.Fibonacci
