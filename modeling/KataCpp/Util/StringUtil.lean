import KataCpp.Core.DecimalText
import KataCpp.Core.Iteration
import KataCpp.Core.MachineInt

/-!
# Neighbours of a value in an ascending list

`find_closed_smaller_value` looks upwards for the last element that is not
above the target, `find_closed_bigger_value` looks downwards for the first that
is not below it.  The elements are decimal strings.  Both compare through an
unsigned 64-bit difference that is stored in a signed variable, and keep the
position in a 32-bit `int`.

The difference has the sign of the comparison only while the values are less
than `2 ^ 63` apart.  A search that runs off its end does not tell that case
from a neighbour: the upward search returns the size of the list, the downward
search returns `-1`.
-/

namespace KataCpp.StringUtil

open Bytes DecimalText Iteration MachineInt

inductive Exception where
  | runtimeError (what : String)
  | stoull (error : StoullError)
  deriving DecidableEq

/-- `stoull(left) - stoull(right)`, converted to `int64_t`. -/
def difference (left right : ByteString) : Except Exception ℤ := do
  let minuend ← (stoull left).mapError .stoull
  let subtrahend ← (stoull right).mapError .stoull
  return wrap64 (minuend - subtrahend)

/-- The element at an `int` that is compared with a `size_t`: a negative one is
converted to a number above every size. -/
def elementAt (numbers : List ByteString) (i : ℤ) : Option ByteString :=
  if 0 ≤ i then numbers[i.toNat]? else none

/-- One pass of the upward loop at position `i`. -/
def smallerPass (numbers : List ByteString) (biggerValue : ByteString)
    (i : ℤ) : Outcome ℤ (Except Exception ℤ) :=
  match elementAt numbers i with
  | none => .exit (.ok i)
  | some number =>
      match difference biggerValue number with
      | .error exception => .exit (.error exception)
      | .ok diff =>
          if 0 < diff then .next (wrap32 (i + 1))
          else if diff = 0 then .exit (.ok i)
          else .exit (.ok (wrap32 (i - 1)))

def findClosedSmallerValue (numbers : List ByteString)
    (biggerValue : ByteString) (fuel : ℕ) : Option (Except Exception ℤ) :=
  match numbers with
  | [] => some (.error (.runtimeError "The list is empty."))
  | first :: _ =>
      match difference biggerValue first with
      | .error exception => some (.error exception)
      | .ok diff =>
          if diff < 0 then some (.ok (-1))
          else if diff = 0 then some (.ok 0)
          else loop (smallerPass numbers biggerValue) fuel 1

/-- One pass of the downward loop at position `i`. -/
def biggerPass (numbers : List ByteString) (smallerValue : ByteString)
    (i : ℤ) : Outcome ℤ (Except Exception ℤ) :=
  if 0 ≤ i then
    match numbers[i.toNat]? with
    | none => .fault
    | some number =>
        match difference number smallerValue with
        | .error exception => .exit (.error exception)
        | .ok diff =>
            if 0 < diff then .next (wrap32 (i - 1))
            else if diff = 0 then .exit (.ok i)
            else .exit (.ok (wrap32 (i + 1)))
  else .exit (.ok i)

def findClosedBiggerValue (numbers : List ByteString)
    (smallerValue : ByteString) (fuel : ℕ) : Option (Except Exception ℤ) :=
  match numbers.getLast? with
  | none => some (.error (.runtimeError "The list is empty."))
  | some last =>
      let size : ℤ := numbers.length
      match difference last smallerValue with
      | .error exception => some (.error exception)
      | .ok diff =>
          if diff < 0 then some (.ok (-1))
          else if diff = 0 then some (.ok (wrap32 (size - 1)))
          else
            loop (biggerPass numbers smallerValue) fuel (wrap32 (size - 2))

/-- Decimal strings in ascending order, and a decimal target. -/
structure Ascending (numbers : List ByteString) (target : ByteString) :
    Prop where
  ne_nil : numbers ≠ []
  decimal : ∀ text ∈ numbers, IsDecimal text
  target_decimal : IsDecimal target
  sorted : (numbers.map decimalValue).Pairwise (· ≤ ·)

instance (numbers : List ByteString) (target : ByteString) :
    Decidable (Ascending numbers target) :=
  decidable_of_iff
    (numbers ≠ [] ∧ (∀ text ∈ numbers, IsDecimal text) ∧ IsDecimal target ∧
      (numbers.map decimalValue).Pairwise (· ≤ ·))
    ⟨fun h => ⟨h.1, h.2.1, h.2.2.1, h.2.2.2⟩,
      fun h => ⟨h.ne_nil, h.decimal, h.target_decimal, h.sorted⟩⟩

/-- `result` is the position of an element equal to the greatest one that is
not above the target, or `-1` if all are above it. -/
def IsClosedSmaller (values : List ℕ) (target : ℕ) (result : ℤ) : Prop :=
  (result = -1 ∧ ∀ value ∈ values, target < value) ∨
    (0 ≤ result ∧ ∃ value, values[result.toNat]? = some value ∧
      value ≤ target ∧ ∀ other ∈ values, other ≤ target → other ≤ value)

variable {numbers : List ByteString} {target : ByteString}

/-- What is said of a returned value is said of the value that is returned. -/
theorem exists_returns_iff {compute : ℕ → Option (Except Exception ℤ)}
    {value : ℤ} (hreturns : Returns compute (.ok value))
    (property : ℤ → Prop) :
    (∃ result, Returns compute (.ok result) ∧ property result) ↔
      property value := by
  constructor
  · rintro ⟨result, hresult, hproperty⟩
    have hequal := Except.ok.inj (hresult.unique hreturns)
    exact hequal ▸ hproperty
  · intro hproperty
    exact ⟨value, hreturns, hproperty⟩

theorem difference_eq {left right : ByteString} (hleft : IsDecimal left)
    (hright : IsDecimal right) :
    difference left right =
      .ok (wrap64 ((decimalValue left : ℤ) - decimalValue right)) := by
  rw [difference, hleft.stoull_eq, hright.stoull_eq]
  rfl

def valueAt (numbers : List ByteString) (index : ℕ) : ℕ :=
  decimalValue (numbers.getD index [])

theorem getElem?_map_decimalValue {index : ℕ}
    (hindex : index < numbers.length) :
    (numbers.map decimalValue)[index]? = some (valueAt numbers index) := by
  rw [List.getElem?_map, List.getElem?_eq_getElem hindex, valueAt,
    List.getD_eq_getElem _ _ hindex]
  rfl

theorem mem_take_map_decimalValue {value count : ℕ} :
    value ∈ (numbers.map decimalValue).take count ↔
      ∃ index < min numbers.length count, valueAt numbers index = value := by
  rw [List.mem_iff_getElem?]
  constructor
  · rintro ⟨index, hvalue⟩
    have hindex := (List.getElem?_eq_some_iff.mp hvalue).1
    rw [List.length_take, List.length_map, lt_min_iff] at hindex
    rw [List.getElem?_take_of_lt hindex.1,
      getElem?_map_decimalValue hindex.2, Option.some.injEq] at hvalue
    exact ⟨index, lt_min hindex.2 hindex.1, hvalue⟩
  · rintro ⟨index, hindex, rfl⟩
    obtain ⟨hlength, hcount⟩ := lt_min_iff.mp hindex
    rw [← getElem?_map_decimalValue hlength]
    exact ⟨index, List.getElem?_take_of_lt hcount⟩

theorem exists_mem_take_iff (count : ℕ) (property : ℕ → Prop) :
    (∃ value ∈ (numbers.map decimalValue).take count, property value) ↔
      ∃ index < min numbers.length count,
        property (valueAt numbers index) := by
  simp only [mem_take_map_decimalValue]
  constructor
  · rintro ⟨_, ⟨index, hindex, rfl⟩, hproperty⟩
    exact ⟨index, hindex, hproperty⟩
  · rintro ⟨index, hindex, hproperty⟩
    exact ⟨_, ⟨index, hindex, rfl⟩, hproperty⟩

theorem forall_mem_take_iff (count : ℕ) (property : ℕ → Prop) :
    (∀ value ∈ (numbers.map decimalValue).take count, property value) ↔
      ∀ index < min numbers.length count,
        property (valueAt numbers index) := by
  simp only [mem_take_map_decimalValue]
  constructor
  · intro hvalues index hindex
    exact hvalues _ ⟨index, hindex, rfl⟩
  · rintro hvalues _ ⟨index, hindex, rfl⟩
    exact hvalues index hindex

theorem forall_mem_map_decimalValue (property : ℕ → Prop) :
    (∀ value ∈ numbers.map decimalValue, property value) ↔
      ∀ index < numbers.length, property (valueAt numbers index) := by
  have htake := @forall_mem_take_iff numbers numbers.length property
  rwa [List.take_of_length_le (List.length_map _).le, min_self] at htake

/-- A returned position of the list and the number there. -/
theorem exists_position_iff (result : ℤ) (property : ℕ → Prop) :
    (0 ≤ result ∧ ∃ value,
        (numbers.map decimalValue)[result.toNat]? = some value ∧
          property value) ↔
      ∃ position < numbers.length, result = position ∧
        property (valueAt numbers position) := by
  constructor
  · rintro ⟨hnonneg, value, hvalue, hproperty⟩
    have hposition : result.toNat < numbers.length := by
      simpa using (List.getElem?_eq_some_iff.mp hvalue).1
    rw [getElem?_map_decimalValue hposition, Option.some.injEq] at hvalue
    subst hvalue
    exact ⟨result.toNat, hposition, (Int.toNat_of_nonneg hnonneg).symm,
      hproperty⟩
  · rintro ⟨position, hposition, rfl, hproperty⟩
    refine ⟨Int.natCast_nonneg position, valueAt numbers position, ?_,
      hproperty⟩
    rw [Int.toNat_natCast, getElem?_map_decimalValue hposition]

theorem Ascending.valueAt_lt (h : Ascending numbers target) {index : ℕ}
    (hindex : index < numbers.length) : valueAt numbers index < 2 ^ 64 := by
  rw [valueAt, List.getD_eq_getElem _ _ hindex]
  exact (h.decimal _ (List.getElem_mem hindex)).value_lt

theorem Ascending.valueAt_le (h : Ascending numbers target) {first second : ℕ}
    (hle : first ≤ second) (hsecond : second < numbers.length) :
    valueAt numbers first ≤ valueAt numbers second := by
  rcases hle.eq_or_lt with rfl | hlt
  · exact le_rfl
  · have hsorted := List.pairwise_iff_getElem.mp h.sorted first second
      (by rw [List.length_map]; omega) (by rwa [List.length_map]) hlt
    rwa [List.getElem_map, List.getElem_map,
      ← List.getD_eq_getElem _ [] (by omega),
      ← List.getD_eq_getElem _ [] hsecond] at hsorted

/-- The comparison that the upward loop makes at a position. -/
def upwardDiff (numbers : List ByteString) (target : ByteString)
    (index : ℕ) : ℤ :=
  wrap64 ((decimalValue target : ℤ) - valueAt numbers index)

theorem smallerPass_at (h : Ascending numbers target) {index : ℕ}
    (hindex : index < numbers.length) :
    smallerPass numbers target index =
      if 0 < upwardDiff numbers target index then
        .next (wrap32 (index + 1))
      else if upwardDiff numbers target index = 0 then .exit (.ok index)
      else .exit (.ok (wrap32 (index - 1))) := by
  have hvalid := h.decimal _ (List.getElem_mem hindex)
  have helement : elementAt numbers index = some numbers[index] := by
    rw [elementAt, if_pos (Int.natCast_nonneg index), Int.toNat_natCast,
      List.getElem?_eq_getElem hindex]
  simp only [smallerPass, helement, difference_eq h.target_decimal hvalid,
    upwardDiff, valueAt, List.getD_eq_getElem _ _ hindex]

/-- The test of the first element is a pass of the loop at position zero. -/
theorem findClosedSmallerValue_eq_loop (h : Ascending numbers target)
    (fuel : ℕ) :
    findClosedSmallerValue numbers target fuel =
      loop (smallerPass numbers target) (fuel + 1) 0 := by
  obtain ⟨first, rest, rfl⟩ := List.exists_cons_of_ne_nil h.ne_nil
  have hpass := smallerPass_at h (Nat.zero_lt_succ rest.length)
  have hvalid := h.decimal first List.mem_cons_self
  have hdiff : difference target first =
      .ok (upwardDiff (first :: rest) target 0) :=
    difference_eq h.target_decimal hvalid
  have hone : wrap32 (0 + 1) = 1 := by decide
  have hminus : wrap32 (0 - 1) = -1 := by decide
  simp only [findClosedSmallerValue, hdiff, loop]
  rw [show (0 : ℤ) = ((0 : ℕ) : ℤ) from rfl, hpass]
  simp only [Nat.cast_zero, hone, hminus]
  split_ifs with hneg hzero hpos
  all_goals first | rfl | omega

theorem smaller_returns_of_loop (h : Ascending numbers target)
    {result : Except Exception ℤ}
    (hloop : Returns (loop (smallerPass numbers target) · 0) result) :
    Returns (findClosedSmallerValue numbers target ·) result := by
  simp only [findClosedSmallerValue_eq_loop h]
  exact hloop.succ

/-- Positions that are passed lead to the next one, as an `int`. -/
theorem smaller_skip (h : Ascending numbers target) {stop : ℕ}
    (hlength : stop ≤ numbers.length) (hint : stop ≤ 2 ^ 31)
    (hpassed : ∀ index < stop, 0 < upwardDiff numbers target index)
    {result : Except Exception ℤ}
    (hrest : Returns (loop (smallerPass numbers target) · (wrap32 stop))
      result) :
    Returns (loop (smallerPass numbers target) · 0) result := by
  induction stop with
  | zero => exact hrest
  | succ stop ih =>
      apply ih (by omega) (by omega) fun index hindex =>
        hpassed index (by omega)
      have hexact : wrap32 stop = stop := wrap32_eq_self (by omega) (by omega)
      have hstop : stop < numbers.length := by omega
      have hpass := smallerPass_at h hstop
      rw [if_pos (hpassed stop (by omega))] at hpass
      rw [hexact]
      apply returns_of_next hpass
      rw [Nat.cast_succ] at hrest
      exact hrest

/-- The upward search stops at the first position that is not passed. -/
theorem smaller_returns_of_stop (h : Ascending numbers target) {stop : ℕ}
    (hlength : stop < numbers.length) (hint : stop < 2 ^ 31)
    (hpassed : ∀ index < stop, 0 < upwardDiff numbers target index)
    (hstop : ¬ 0 < upwardDiff numbers target stop) :
    Returns (findClosedSmallerValue numbers target ·)
      (.ok (if upwardDiff numbers target stop = 0 then (stop : ℤ)
        else stop - 1)) := by
  apply smaller_returns_of_loop h
  apply smaller_skip h hlength.le hint.le hpassed
  rw [wrap32_eq_self (by omega) (by omega)]
  apply returns_of_exit
  rw [smallerPass_at h hlength, if_neg hstop,
    wrap32_eq_self (by omega) (by omega)]
  split_ifs <;> rfl

/-- The position at which a search that passes everything leaves the list, or
at which its `int` overflows. -/
theorem elementAt_end {stop : ℕ} (hint : stop ≤ 2 ^ 31)
    (hend : stop = numbers.length ∨ stop = 2 ^ 31) :
    elementAt numbers (wrap32 stop) = none := by
  rcases hint.lt_or_eq with hless | rfl
  · obtain rfl : stop = numbers.length := by omega
    rw [elementAt, wrap32_eq_self (by omega) (by omega), Int.toNat_natCast,
      List.getElem?_eq_none le_rfl, ite_self]
  · rw [elementAt, wrap32_int_overflow, if_neg (by norm_num)]

theorem smaller_returns_of_passed (h : Ascending numbers target) {stop : ℕ}
    (hlength : stop ≤ numbers.length) (hint : stop ≤ 2 ^ 31)
    (hend : stop = numbers.length ∨ stop = 2 ^ 31)
    (hpassed : ∀ index < stop, 0 < upwardDiff numbers target index) :
    Returns (findClosedSmallerValue numbers target ·)
      (.ok (wrap32 stop)) := by
  apply smaller_returns_of_loop h
  apply smaller_skip h hlength hint hpassed
  apply returns_of_exit
  rw [smallerPass, elementAt_end hint hend]

theorem upwardDiff_pos_iff (h : Ascending numbers target) {index : ℕ}
    (hindex : index < numbers.length) :
    0 < upwardDiff numbers target index ↔
      (valueAt numbers index < decimalValue target ∧
        decimalValue target < valueAt numbers index + 2 ^ 63) ∨
      decimalValue target + 2 ^ 63 < valueAt numbers index :=
  wrap64_sub_pos_iff h.target_decimal.value_lt (h.valueAt_lt hindex)

theorem upwardDiff_eq_zero_iff (h : Ascending numbers target) {index : ℕ}
    (hindex : index < numbers.length) :
    upwardDiff numbers target index = 0 ↔
      decimalValue target = valueAt numbers index :=
  wrap64_sub_eq_zero_iff h.target_decimal.value_lt (h.valueAt_lt hindex)

/-- The first element is less than `2 ^ 63` below the target, and within reach
of an `int` there is an element at or above the target by at most `2 ^ 63`. -/
def SmallerFits (values : List ℕ) (target : ℕ) : Prop :=
  (∀ first ∈ values.head?, target < first + 2 ^ 63) ∧
    ∃ value ∈ values.take (2 ^ 31), target ≤ value ∧ value ≤ target + 2 ^ 63

theorem smallerFits_iff (h : Ascending numbers target) :
    SmallerFits (numbers.map decimalValue) (decimalValue target) ↔
      decimalValue target < valueAt numbers 0 + 2 ^ 63 ∧
        ∃ index < numbers.length, index < 2 ^ 31 ∧
          decimalValue target ≤ valueAt numbers index ∧
            valueAt numbers index ≤ decimalValue target + 2 ^ 63 := by
  have hhead : (numbers.map decimalValue).head? =
      some (valueAt numbers 0) := by
    rw [List.head?_eq_getElem?]
    exact getElem?_map_decimalValue (List.length_pos_iff.mpr h.ne_nil)
  rw [SmallerFits, hhead, exists_mem_take_iff]
  simp only [Option.mem_some_iff, forall_eq', lt_min_iff, and_assoc]

theorem isClosedSmaller_iff (result : ℤ) :
    IsClosedSmaller (numbers.map decimalValue) (decimalValue target) result ↔
      (result = -1 ∧ ∀ index < numbers.length,
        decimalValue target < valueAt numbers index) ∨
      ∃ position < numbers.length, result = position ∧
        valueAt numbers position ≤ decimalValue target ∧
        ∀ index < numbers.length,
          valueAt numbers index ≤ decimalValue target →
            valueAt numbers index ≤ valueAt numbers position := by
  rw [IsClosedSmaller, exists_position_iff]
  simp only [forall_mem_map_decimalValue]

/-- A search that got beyond the first element found it close below the target
or far above it. -/
theorem first_of_passed (h : Ascending numbers target) {stop : ℕ}
    (hlength : stop < numbers.length) (hpos : 0 < stop)
    (hpassed : ∀ index < stop, 0 < upwardDiff numbers target index) :
    (valueAt numbers 0 < decimalValue target ∧
        decimalValue target < valueAt numbers 0 + 2 ^ 63) ∨
      decimalValue target + 2 ^ 63 < valueAt numbers stop := by
  have hfirst := h.valueAt_le (Nat.zero_le stop) hlength
  have hpass := (upwardDiff_pos_iff h (by omega)).mp (hpassed 0 hpos)
  omega

/-- An exact hit. -/
theorem isClosedSmaller_of_eq {stop : ℕ} (hlength : stop < numbers.length)
    (hequal : decimalValue target = valueAt numbers stop) :
    IsClosedSmaller (numbers.map decimalValue) (decimalValue target) stop := by
  rw [isClosedSmaller_iff]
  exact .inr ⟨stop, hlength, rfl, hequal.ge,
    fun index _ hle => hequal ▸ hle⟩

/-- The position before the first element above the target. -/
theorem isClosedSmaller_of_crossing (h : Ascending numbers target) {stop : ℕ}
    (hlength : stop < numbers.length)
    (habove : decimalValue target < valueAt numbers stop)
    (hbelow : ∀ index < stop, valueAt numbers index ≤ decimalValue target) :
    IsClosedSmaller (numbers.map decimalValue) (decimalValue target)
      ((stop : ℤ) - 1) := by
  rw [isClosedSmaller_iff]
  cases stop with
  | zero =>
      refine .inl ⟨rfl, fun index hindex => ?_⟩
      exact habove.trans_le (h.valueAt_le (Nat.zero_le index) hindex)
  | succ position =>
      refine .inr ⟨position, by omega, by simp,
        hbelow position (Nat.lt_succ_self position), ?_⟩
      intro index hindex hle
      have hbefore : index ≤ position := by
        by_contra hlater
        have hstop := h.valueAt_le (show position + 1 ≤ index by omega) hindex
        omega
      exact h.valueAt_le hbefore (by omega)

/-- Where the upward search stops it has found the neighbour, unless it
stopped at the first element although that is far below the target. -/
theorem isClosedSmaller_of_stop_iff (h : Ascending numbers target) {stop : ℕ}
    (hlength : stop < numbers.length)
    (hpassed : ∀ index < stop, 0 < upwardDiff numbers target index)
    (hstop : ¬ 0 < upwardDiff numbers target stop) :
    IsClosedSmaller (numbers.map decimalValue) (decimalValue target)
        (if upwardDiff numbers target stop = 0 then (stop : ℤ)
          else stop - 1) ↔
      decimalValue target < valueAt numbers 0 + 2 ^ 63 ∧
        decimalValue target ≤ valueAt numbers stop ∧
        valueAt numbers stop ≤ decimalValue target + 2 ^ 63 := by
  rw [upwardDiff_pos_iff h hlength] at hstop
  have hfirst : stop = 0 ∨ (valueAt numbers 0 < decimalValue target ∧
        decimalValue target < valueAt numbers 0 + 2 ^ 63) ∨
      decimalValue target + 2 ^ 63 < valueAt numbers stop := by
    rcases Nat.eq_zero_or_pos stop with hzero | hpos
    · exact .inl hzero
    · exact .inr (first_of_passed h hlength hpos hpassed)
  by_cases hequal : decimalValue target = valueAt numbers stop
  · rw [if_pos ((upwardDiff_eq_zero_iff h hlength).mpr hequal)]
    apply iff_of_true (isClosedSmaller_of_eq hlength hequal)
    rcases hfirst with rfl | hfirst <;> omega
  rw [if_neg (mt (upwardDiff_eq_zero_iff h hlength).mp hequal)]
  by_cases habove : decimalValue target < valueAt numbers stop
  · have hbelow : ∀ index < stop,
        valueAt numbers index ≤ decimalValue target := by
      intro index hindex
      have hpass :=
        (upwardDiff_pos_iff h (by omega)).mp (hpassed index hindex)
      have hle := h.valueAt_le hindex.le hlength
      omega
    apply iff_of_true (isClosedSmaller_of_crossing h hlength habove hbelow)
    rcases hfirst with rfl | hfirst <;> omega
  · -- Only the first element can be so far below the target.
    have hlow := h.valueAt_le (Nat.zero_le stop) hlength
    have hzero : stop = 0 := by omega
    subst hzero
    apply iff_of_false
    · rw [isClosedSmaller_iff]
      rintro (⟨-, hall⟩ | ⟨position, -, hposition, -⟩)
      · exact habove (hall 0 hlength)
      · simp at hposition
    · omega

/-- A search that passes everything returns no position of the list. -/
theorem not_isClosedSmaller_end {stop : ℕ} (hint : stop ≤ 2 ^ 31)
    (hend : stop = numbers.length ∨ stop = 2 ^ 31) :
    ¬ IsClosedSmaller (numbers.map decimalValue) (decimalValue target)
      (wrap32 stop) := by
  rw [isClosedSmaller_iff]
  rcases hint.lt_or_eq with hless | rfl
  · obtain rfl : stop = numbers.length := by omega
    rw [wrap32_eq_self (by omega) (by omega)]
    rintro (⟨hminus, -⟩ | ⟨position, hposition, hequal, -⟩) <;> omega
  · rw [wrap32_int_overflow]
    rintro (⟨hminus, -⟩ | ⟨position, hposition, hequal, -⟩) <;> omega

/-- The first position that the upward search does not pass. -/
theorem exists_first_stop {bound : ℕ}
    (hstops : ∃ stop, stop < bound ∧ ¬ 0 < upwardDiff numbers target stop) :
    ∃ stop < bound, ¬ 0 < upwardDiff numbers target stop ∧
      ∀ index < stop, 0 < upwardDiff numbers target index := by
  obtain ⟨hstop, hnot⟩ := Nat.find_spec hstops
  refine ⟨Nat.find hstops, hstop, hnot, ?_⟩
  intro index hindex
  by_contra hindexNot
  exact Nat.find_min hstops hindex ⟨hindex.trans hstop, hindexNot⟩

/-- `find_closed_smaller_value` returns the greatest element that is not above
the target exactly when the list fits. -/
theorem findClosedSmallerValue_correct_iff (h : Ascending numbers target) :
    (∃ result, Returns (findClosedSmallerValue numbers target ·) (.ok result) ∧
        IsClosedSmaller (numbers.map decimalValue) (decimalValue target)
          result) ↔
      SmallerFits (numbers.map decimalValue) (decimalValue target) := by
  rw [smallerFits_iff h]
  by_cases hstops : ∃ stop, stop < min numbers.length (2 ^ 31) ∧
      ¬ 0 < upwardDiff numbers target stop
  · obtain ⟨stop, hbound, hstop, hpassed⟩ := exists_first_stop hstops
    obtain ⟨hlength, hint⟩ := lt_min_iff.mp hbound
    rw [exists_returns_iff
        (smaller_returns_of_stop h hlength hint hpassed hstop),
      isClosedSmaller_of_stop_iff h hlength hpassed hstop]
    constructor
    · rintro ⟨hfirst, hclose⟩
      exact ⟨hfirst, stop, hlength, hint, hclose⟩
    · rintro ⟨hfirst, index, hindex, -, hge, hle⟩
      have hbefore : stop ≤ index := by
        by_contra hless
        have hpass := (upwardDiff_pos_iff h hindex).mp
          (hpassed index (not_le.mp hless))
        omega
      have hupper := h.valueAt_le hbefore hindex
      have hlower := h.valueAt_le (Nat.zero_le stop) hlength
      rw [upwardDiff_pos_iff h hlength] at hstop
      omega
  · have hall : ∀ index < numbers.length, index < 2 ^ 31 →
        0 < upwardDiff numbers target index := by
      intro index hindex hbound
      by_contra hnot
      exact hstops ⟨index, lt_min hindex hbound, hnot⟩
    obtain ⟨stop, hlength, hint, hend⟩ : ∃ stop, stop ≤ numbers.length ∧
        stop ≤ 2 ^ 31 ∧ (stop = numbers.length ∨ stop = 2 ^ 31) :=
      ⟨min numbers.length (2 ^ 31), by omega, by omega, by omega⟩
    have hreturns := smaller_returns_of_passed h hlength hint hend
      fun index hindex => hall index (by omega) (by omega)
    rw [exists_returns_iff hreturns]
    apply iff_of_false (not_isClosedSmaller_end hint hend)
    rintro ⟨-, index, hindex, hbound, hge, hle⟩
    have hpass := (upwardDiff_pos_iff h hindex).mp (hall index hindex hbound)
    omega

/-- A list that reaches up to the target. -/
theorem findClosedSmallerValue_correct_of_three :
    ∃ result, Returns (findClosedSmallerValue
          [ascii "1", ascii "4", ascii "9"] (ascii "7") ·) (.ok result) ∧
      IsClosedSmaller ([ascii "1", ascii "4", ascii "9"].map decimalValue)
        (decimalValue (ascii "7")) result := by
  have hascending :
      Ascending [ascii "1", ascii "4", ascii "9"] (ascii "7") := by
    decide
  apply (findClosedSmallerValue_correct_iff hascending).mpr
  rw [smallerFits_iff hascending]
  exact ⟨by decide, 2, by decide, by decide, by decide, by decide⟩

/-- A target above the only element: the search returns the size of the list. -/
theorem findClosedSmallerValue_leaves_list :
    Ascending [ascii "1"] (ascii "2") ∧
      ¬ ∃ result,
        Returns (findClosedSmallerValue [ascii "1"] (ascii "2") ·)
            (.ok result) ∧
          IsClosedSmaller ([ascii "1"].map decimalValue)
            (decimalValue (ascii "2")) result := by
  have hascending : Ascending [ascii "1"] (ascii "2") := by decide
  refine ⟨hascending, ?_⟩
  have hpassed : ∀ index < 1,
      0 < upwardDiff [ascii "1"] (ascii "2") index := by decide
  have hreturns := smaller_returns_of_passed hascending (by decide)
    (by decide) (.inl rfl) hpassed
  rw [exists_returns_iff hreturns]
  exact not_isClosedSmaller_end (by decide) (.inl rfl)

end KataCpp.StringUtil
