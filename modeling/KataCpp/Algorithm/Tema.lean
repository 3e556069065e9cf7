import KataCpp.Core.IndexLoop

/-!
# Triple exponential moving average

`EMA` weights the last `period` values of a series, `TEMA` combines three
averages of averages, and `trend_analysis` compares the result with the series.

The functions compute with `double`s, which are a parameter here; all that is
used of their arithmetic is that a sum of zeros is zero.  `EMA` adds up its
weights before it computes them, so every value is divided by zero.  `TEMA`
addresses its result with subscripts that start at minus one, and
`trend_analysis` addresses the result, which is shorter than the series, with
the subscripts of the series.
-/

namespace KataCpp.Tema

open IndexLoop Iteration MachineInt Segment

structure Arithmetic (Double : Type*) where
  zero : Double
  ofInt : ℤ → Double
  add : Double → Double → Double
  sub : Double → Double → Double
  mul : Double → Double → Double
  div : Double → Double → Double
  pow : Double → Double → Double
  lt : Double → Double → Bool
  add_zero_zero : add zero zero = zero

variable {Double : Type*} (arith : Arithmetic Double)

def accumulate (values : List Double) : Double :=
  values.foldl arith.add arith.zero

/-- `inner_product` of the elements of `data` from `first` up to, but not
including, `last`, and the elements of `weights` from its start on. -/
def innerProduct (data weights : List Double) (first last : ℤ) :
    Option Double :=
  forRange (last - first).toNat
    (fun sum offset => do
      let value ← read data (first + offset)
      let weight ← read weights offset
      return arith.add sum (arith.mul value weight))
    arith.zero

/-- The averages that `EMA` has computed, and what it has divided by. -/
structure Average (Double : Type*) where
  ema : List Double
  divisors : List Double

def emaWeights (period : ℤ) (weights : List Double) : Option (List Double) :=
  let alpha := arith.div (arith.ofInt 2)
    (arith.add (arith.ofInt period) (arith.ofInt 1))
  forRange period.toNat
    (fun weights i => write weights i
      (arith.pow (arith.sub (arith.ofInt 1) alpha) (arith.ofInt i)))
    weights

/-- A pass of the loop of `EMA` over the series. -/
def emaPass (data weights : List Double) (period : ℤ) (denominator : Double)
    (average : Average Double) (i : ℤ) : Option (Average Double) := do
  let product ← innerProduct arith data weights (i - period + 1) (i + 1)
  let ema ← write average.ema (wrap32 (wrap32 (i - period) + 1))
    (arith.div product denominator)
  return ⟨ema, average.divisors ++ [denominator]⟩

/-- `EMA`; `none` is a subscript out of range. -/
def ema (data : List Double) (period : ℤ) : Option (Average Double) := do
  let weights := List.replicate (asSize period) arith.zero
  let denominator := accumulate arith weights
  let weights ← emaWeights arith period weights
  let ema := List.replicate (asSize (data.length - period + 1)) arith.zero
  indexLoop data.length (emaPass arith data weights period denominator)
    (wrap32 (period - 1)) ⟨ema, []⟩

def temaPass (e1 e2 e3 : List Double) (period : ℤ) (tema : List Double)
    (i : ℤ) : Option (List Double) := do
  let value1 ← read e1 (wrap32 (wrap32 (i - wrap32 (2 * period)) + 1))
  let value2 ← read e2 (wrap32 (wrap32 (i - period) + 1))
  let value3 ← read e3 i
  write tema (wrap32 (wrap32 (i - wrap32 (3 * period)) + 2))
    (arith.add
      (arith.sub (arith.mul (arith.ofInt 3) value1)
        (arith.mul (arith.ofInt 3) value2))
      value3)

/-- `TEMA`, with what its three calls of `EMA` have divided by. -/
def tema (data : List Double) (period : ℤ) :
    Option (List Double × List Double) := do
  let e1 ← ema arith data period
  let e2 ← ema arith e1.ema period
  let e3 ← ema arith e2.ema period
  let start := List.replicate
    (asSize (data.length - wrap32 (3 * period) + 2)) arith.zero
  let values ← indexLoop data.length
    (temaPass arith e1.ema e2.ema e3.ema period)
    (wrap32 (wrap32 (3 * period) - 3)) start
  return (values, e1.divisors ++ e2.divisors ++ e3.divisors)

inductive Trend where
  | bullish
  | bearish
  | unclear
  deriving DecidableEq

/-- A line of output: the two values, their trend and the index. -/
structure TrendLine (Double : Type*) where
  temaValue : Double
  value : Double
  trend : Trend
  index : ℤ

def trendLine (temaValue value : Double) (index : ℤ) : TrendLine Double where
  temaValue := temaValue
  value := value
  trend :=
    if arith.lt value temaValue then .bullish
    else if arith.lt temaValue value then .bearish
    else .unclear
  index := index

/-- `trend_analysis`: the lines it prints. -/
def trendAnalysis (data temaValues : List Double) :
    Option (List (TrendLine Double)) :=
  indexLoop data.length
    (fun lines i => do
      let temaValue ← read temaValues i
      let value ← read data i
      return lines ++ [trendLine arith temaValue value i])
    0 []

theorem accumulate_zeros (count : ℕ) :
    accumulate arith (List.replicate count arith.zero) = arith.zero := by
  induction count with
  | zero => rfl
  | succ count ih =>
      rw [accumulate, List.replicate_succ, List.foldl_cons,
        arith.add_zero_zero]
      exact ih

theorem emaWeights_spec {period : ℕ} {weights : List Double}
    (hweights : weights.length = period) :
    ∃ computed, emaWeights arith period weights = some computed ∧
      computed.length = period := by
  rw [emaWeights, Int.toNat_natCast]
  apply forRange_invariant (fun _ (weights : List Double) =>
    weights.length = period) hweights
  intro i weights hi hlength
  refine ⟨_, write_eq_set (by omega) (by omega) _, ?_⟩
  rwa [List.length_set]

theorem read_of_lt {values : List Double} {index : ℤ} (hlower : 0 ≤ index)
    (hupper : index < values.length) :
    ∃ value, read values index = some value := by
  obtain ⟨position, rfl⟩ := Int.eq_ofNat_of_zero_le hlower
  exact ⟨_, (read_natCast values position).trans
    (List.getElem?_eq_getElem (by omega))⟩

theorem innerProduct_spec {data weights : List Double} {first last : ℤ}
    (hfirst : 0 ≤ first) (hlast : last ≤ data.length)
    (hweights : last - first ≤ weights.length) :
    ∃ product, innerProduct arith data weights first last =
      some product := by
  obtain ⟨product, hproduct, -⟩ : ∃ product,
      innerProduct arith data weights first last = some product ∧ True := by
    apply forRange_invariant (fun _ _ => True) trivial
    intro offset sum hoffset _
    obtain ⟨value, hvalue⟩ := @read_of_lt _ data (first + offset) (by omega)
      (by omega)
    obtain ⟨weight, hweight⟩ := @read_of_lt _ weights offset (by omega)
      (by omega)
    simp [hvalue, hweight]
  exact ⟨product, hproduct⟩

/-- A pass divides by the denominator. -/
theorem emaPass_spec {data weights : List Double} {period i : ℕ}
    {average : Average Double} (denominator : Double)
    (hperiod : 1 ≤ period) (hweights : weights.length = period)
    (hlower : period ≤ i + 1) (hupper : i < data.length)
    (hint : i < 2 ^ 31)
    (hema : average.ema.length = data.length - period + 1) :
    ∃ next, emaPass arith data weights period denominator average i =
        some next ∧
      next.ema.length = data.length - period + 1 ∧
      denominator ∈ next.divisors := by
  obtain ⟨product, hproduct⟩ := @innerProduct_spec _ arith data weights
    ((i : ℤ) - period + 1) (i + 1) (by omega) (by omega) (by omega)
  have hindex : wrap32 (wrap32 ((i : ℤ) - period) + 1) = i - period + 1 := by
    rw [wrap32_wrap32_add_one]
    exact wrap32_eq_self (by omega) (by omega)
  obtain ⟨written, hwrite, hlength⟩ : ∃ written,
      write average.ema ((i : ℤ) - period + 1)
        (arith.div product denominator) = some written ∧
      written.length = average.ema.length :=
    ⟨_, write_eq_set (by omega) (by omega) _, List.length_set⟩
  refine ⟨⟨written, average.divisors ++ [denominator]⟩, ?_,
    hlength.trans hema, List.mem_append_right _ List.mem_cons_self⟩
  simp only [emaPass, hproduct, hindex, hwrite, Option.bind_eq_bind,
    Option.bind_some]
  rfl

/-- The average of a series that is long enough: all subscripts are in range,
and there is a division by zero. -/
theorem ema_spec {data : List Double} {period : ℕ} (hperiod : 1 ≤ period)
    (hint : period < 2 ^ 31) (hdata : data.length < 2 ^ 63)
    (hsize : period ≤ data.length) :
    ∃ average, ema arith data period = some average ∧
      average.ema.length = data.length - period + 1 ∧
      arith.zero ∈ average.divisors := by
  have hlimit : indexLimit = 2 ^ 31 := by rw [indexLimit]
  have hweights : asSize period = period := asSize_natCast (by omega)
  have hstart : (period : ℤ) - 1 = (period - 1 : ℕ) := by omega
  have hlength : asSize ((data.length : ℤ) - period + 1) =
      data.length - period + 1 := by
    rw [asSize]
    omega
  obtain ⟨weights, hcomputed, hcount⟩ := emaWeights_spec arith
    (@List.length_replicate Double period arith.zero)
  have hloop := @indexLoop_invariant _ _
    (emaPass arith data weights period arith.zero) hdata (period - 1)
    (by omega)
    (fun index average =>
      average.ema.length = data.length - period + 1 ∧
        (period ≤ index → arith.zero ∈ average.divisors))
    ⟨List.replicate (data.length - period + 1) arith.zero, []⟩
    ⟨List.length_replicate, by omega⟩ (by
      rintro i average hlower hupper ⟨hema, -⟩
      obtain ⟨next, hnext, hkept, hdivisor⟩ := @emaPass_spec _ arith data
        weights period i average arith.zero hperiod hcount (by omega)
        (by omega) (by omega) hema
      exact ⟨next, hnext, hkept, fun _ => hdivisor⟩)
  obtain ⟨average, haverage, hema, hdivisors⟩ := hloop
  refine ⟨average, ?_, hema, hdivisors (by omega)⟩
  rw [ema, hweights, hcomputed, Option.bind_eq_bind, Option.bind_some,
    accumulate_zeros, hlength, hstart]
  exact haverage

/-- The first pass of `TEMA` writes to the subscript minus one. -/
theorem temaPass_first {period : ℕ} (hperiod : 1 ≤ period)
    (hint : 3 * period < 2 ^ 31) (e1 e2 e3 values : List Double) :
    temaPass arith e1 e2 e3 period values (3 * period - 3 : ℕ) = none := by
  have hthree : wrap32 (3 * (period : ℤ)) = 3 * period :=
    wrap32_eq_self (by omega) (by omega)
  have hdifference : wrap32 (((3 * period - 3 : ℕ) : ℤ) - 3 * period) = -3 := by
    rw [wrap32_eq_self (by omega) (by omega)]
    omega
  have hindex : wrap32 (-3 + 2) = -1 := by decide
  have hwrite : ∀ value, write values (-1) value = none := by
    intro value
    exact if_neg (by omega)
  simp only [temaPass, hthree, hdifference, hindex, hwrite,
    Option.bind_eq_bind]
  simp

theorem tema_eq_none {data : List Double} {period : ℕ} (hperiod : 1 ≤ period)
    (hint : 3 * period < 2 ^ 31) (hdata : data.length < 2 ^ 63)
    (hsize : 3 * period ≤ data.length + 2) :
    tema arith data period = none := by
  have hlimit : indexLimit = 2 ^ 31 := by rw [indexLimit]
  have hthree : wrap32 (3 * (period : ℤ)) = 3 * period :=
    wrap32_eq_self (by omega) (by omega)
  have hstart : 3 * (period : ℤ) - 3 = (3 * period - 3 : ℕ) := by omega
  have hloop : ∀ e1 e2 e3 start : List Double,
      indexLoop data.length (temaPass arith e1 e2 e3 period)
        (wrap32 (wrap32 (3 * period) - 3)) start = none := by
    intro e1 e2 e3 start
    rw [hthree, hstart]
    exact indexLoop_eq_none hdata le_rfl (by omega)
      (temaPass_first arith hperiod hint e1 e2 e3) start
  simp [tema, hloop]

/-- The analysis faults when there are fewer values than data. -/
theorem trendAnalysis_eq_none {data values : List Double}
    (hdata : data.length ≤ 2 ^ 31) (hshort : values.length < data.length) :
    trendAnalysis arith data values = none := by
  have hlimit : indexLimit = 2 ^ 31 := by rw [indexLimit]
  have hzero : (0 : ℤ) = wrap32 (0 : ℕ) := by decide
  rw [trendAnalysis, hzero]
  apply indexLoop_eq_none (by omega) (Nat.zero_le values.length) (by omega)
  intro lines
  rw [read_natCast, List.getElem?_eq_none le_rfl]
  rfl

/-- No subscript is out of range in `TEMA` and `trend_analysis`, and `EMA` does
not divide by zero. -/
def Safe (data : List Double) (period : ℤ) : Prop :=
  ∃ values divisors lines, tema arith data period = some (values, divisors) ∧
    trendAnalysis arith data values = some lines ∧ arith.zero ∉ divisors

/-- The averages are never safe: the first one divides by zero, and as long as
the subscripts of `TEMA` are computed without overflow, it writes in front of
its result, which is in any case too short for the analysis. -/
theorem not_safe {data : List Double} (hdata : data.length < 2 ^ 63)
    {period : ℤ} (hperiod : 1 ≤ period) (hint : period < 2 ^ 31)
    (hsize : 3 * period - 2 ≤ data.length) :
    ¬ Safe arith data period ∧
      (∃ average, ema arith data period = some average ∧
        arith.zero ∈ average.divisors) ∧
      (3 * period < 2 ^ 31 → tema arith data period = none) ∧
      (data.length ≤ 2 ^ 31 → ∀ values : List Double,
        (values.length : ℤ) = data.length - 3 * period + 2 →
          trendAnalysis arith data values = none) := by
  obtain ⟨count, rfl⟩ := Int.eq_ofNat_of_zero_le (by omega : 0 ≤ period)
  obtain ⟨average, haverage, -, hdivisor⟩ := @ema_spec _ arith data count
    (by omega) (by omega) hdata (by omega)
  refine ⟨?_, ⟨average, haverage, hdivisor⟩, ?_, ?_⟩
  · rintro ⟨values, divisors, lines, htema, -, hsafe⟩
    rw [tema, haverage, Option.bind_eq_bind, Option.bind_some] at htema
    obtain ⟨e2, -, htema⟩ := Option.bind_eq_some_iff.mp htema
    obtain ⟨e3, -, htema⟩ := Option.bind_eq_some_iff.mp htema
    obtain ⟨found, -, hresult⟩ := Option.bind_eq_some_iff.mp htema
    obtain ⟨-, rfl⟩ := Prod.mk.inj (Option.some.inj hresult)
    exact hsafe (by simp [hdivisor])
  · intro hfits
    exact tema_eq_none arith (by omega) (by omega) hdata (by omega)
  · intro hshort values hvalues
    exact trendAnalysis_eq_none arith hshort (by omega)

/-- Exact numbers, with one value for all that is not a number. -/
def exactNumbers : Arithmetic (Option ℚ) where
  zero := some 0
  ofInt := fun value => some value
  add := Option.map₂ (· + ·)
  sub := Option.map₂ (· - ·)
  mul := Option.map₂ (· * ·)
  div := fun dividend divisor =>
    if divisor = some 0 then none else Option.map₂ (· / ·) dividend divisor
  pow := Option.map₂ fun base exponent => base ^ exponent.num
  lt := fun left right => (Option.map₂ (fun x y => decide (x < y)) left
    right).getD false
  add_zero_zero := by simp

/-- The series that `main` analyses. -/
def mainData : List (Option ℚ) :=
  [10, 15, 13, 12, 11, 9, 13, 15, 17, 19, 20, 18, 16, 15, 14, 13, 12, 11, 10,
    9].map some

theorem not_safe_mainData :
    ¬ Safe exactNumbers mainData 5 ∧
      ∀ values : List (Option ℚ), values.length = 7 →
        trendAnalysis exactNumbers mainData values = none := by
  have hlength : mainData.length = 20 := rfl
  obtain ⟨hsafe, -, -, hanalysis⟩ := @not_safe _ exactNumbers mainData
    (by rw [hlength]; norm_num) 5 (by norm_num) (by norm_num)
    (by rw [hlength]; norm_num)
  refine ⟨hsafe, fun values hvalues => ?_⟩
  apply hanalysis (by rw [hlength]; norm_num) values
  rw [hlength, hvalues]
  norm_num

theorem tema_mainData :
    ¬ Safe exactNumbers mainData 5 ∧ tema exactNumbers mainData 5 = none ∧
      ∃ average, ema exactNumbers mainData 5 = some average ∧
        exactNumbers.zero ∈ average.divisors := by
  have hlength : mainData.length = 20 := rfl
  obtain ⟨average, haverage, -, hdivisor⟩ := @ema_spec _ exactNumbers mainData
    5 (by norm_num) (by norm_num) (by omega) (by omega)
  have htema := @tema_eq_none _ exactNumbers mainData 5 (by norm_num)
    (by norm_num) (by omega) (by omega)
  refine ⟨?_, htema, average, haverage, hdivisor⟩
  rintro ⟨values, divisors, lines, hvalues, -⟩
  rw [Nat.cast_ofNat] at htema
  rw [htema] at hvalues
  contradiction

end KataCpp.Tema
