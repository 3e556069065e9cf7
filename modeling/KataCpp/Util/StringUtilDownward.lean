import KataCpp.Util.StringUtil

/-!
# The downward search

The exact condition under which `find_closed_bigger_value` finds the least
element that is not below its target.  On lists of up to `2 ^ 31` elements it
says that all elements are below the target, or that the greatest one is less
than `2 ^ 63` above it and some element is at or below it by at most `2 ^ 63`.
On longer lists the conversions of the size to `int` decide where the search
starts and whether its position can be returned.
-/

namespace KataCpp.StringUtil

open Bytes DecimalText Iteration MachineInt

variable {numbers : List ByteString} {target : ByteString}

/-- `result` is the position of an element equal to the least one that is not
below the target, or `-1` if all are below it. -/
def IsClosedBigger (values : List ℕ) (target : ℕ) (result : ℤ) : Prop :=
  (result = -1 ∧ ∀ value ∈ values, value < target) ∨
    (0 ≤ result ∧ ∃ value, values[result.toNat]? = some value ∧
      target ≤ value ∧ ∀ other ∈ values, target ≤ other → value ≤ other)

theorem isClosedBigger_iff (result : ℤ) :
    IsClosedBigger (numbers.map decimalValue) (decimalValue target) result ↔
      (result = -1 ∧ ∀ index < numbers.length,
        valueAt numbers index < decimalValue target) ∨
      ∃ position < numbers.length, result = position ∧
        decimalValue target ≤ valueAt numbers position ∧
        ∀ index < numbers.length,
          decimalValue target ≤ valueAt numbers index →
            valueAt numbers position ≤ valueAt numbers index := by
  rw [IsClosedBigger, exists_position_iff]
  simp only [forall_mem_map_decimalValue]

/-- The comparison that the downward loop makes at a position. -/
def downwardDiff (numbers : List ByteString) (target : ByteString)
    (index : ℕ) : ℤ :=
  wrap64 ((valueAt numbers index : ℤ) - decimalValue target)

theorem downwardDiff_pos_iff (h : Ascending numbers target) {index : ℕ}
    (hindex : index < numbers.length) :
    0 < downwardDiff numbers target index ↔
      (decimalValue target < valueAt numbers index ∧
        valueAt numbers index < decimalValue target + 2 ^ 63) ∨
      valueAt numbers index + 2 ^ 63 < decimalValue target :=
  wrap64_sub_pos_iff (h.valueAt_lt hindex) h.target_decimal.value_lt

theorem downwardDiff_eq_zero_iff (h : Ascending numbers target) {index : ℕ}
    (hindex : index < numbers.length) :
    downwardDiff numbers target index = 0 ↔
      valueAt numbers index = decimalValue target :=
  wrap64_sub_eq_zero_iff (h.valueAt_lt hindex) h.target_decimal.value_lt

theorem biggerPass_at (h : Ascending numbers target) {index : ℕ}
    (hindex : index < numbers.length) :
    biggerPass numbers target index =
      if 0 < downwardDiff numbers target index then
        .next (wrap32 (index - 1))
      else if downwardDiff numbers target index = 0 then .exit (.ok index)
      else .exit (.ok (wrap32 (index + 1))) := by
  have hvalid := h.decimal _ (List.getElem_mem hindex)
  rw [biggerPass, if_pos (Int.natCast_nonneg index), Int.toNat_natCast,
    List.getElem?_eq_getElem hindex]
  simp only [difference_eq hvalid h.target_decimal, downwardDiff, valueAt,
    List.getD_eq_getElem _ _ hindex]

theorem biggerPass_of_neg {i : ℤ} (hneg : i < 0) :
    biggerPass numbers target i = .exit (.ok i) := by
  rw [biggerPass, if_neg (not_le.mpr hneg)]

/-- Positions that are passed lead down from `top - 1` to `stop - 1`. -/
theorem bigger_skip (h : Ascending numbers target) {stop top : ℕ}
    (hle : stop ≤ top) (hlength : top ≤ numbers.length)
    (hint : top ≤ 2 ^ 31)
    (hpassed : ∀ index, stop ≤ index → index < top →
      0 < downwardDiff numbers target index)
    {result : Except Exception ℤ}
    (hrest : Returns (loop (biggerPass numbers target) · ((stop : ℤ) - 1))
      result) :
    Returns (loop (biggerPass numbers target) · ((top : ℤ) - 1)) result := by
  induction top, hle using Nat.le_induction with
  | base => exact hrest
  | succ top hstop ih =>
      have htop : top < numbers.length := by omega
      have hpass := biggerPass_at h htop
      rw [if_pos (hpassed top hstop (Nat.lt_succ_self top)),
        wrap32_eq_self (by omega) (by omega)] at hpass
      rw [Nat.cast_succ, add_sub_cancel_right]
      apply returns_of_next hpass
      exact ih (by omega) (by omega) fun index hlower hupper =>
        hpassed index hlower (by omega)

theorem bigger_loop_of_stop (h : Ascending numbers target) {stop top : ℕ}
    (hstop : stop < top) (hlength : top ≤ numbers.length)
    (hint : top ≤ 2 ^ 31)
    (hpassed : ∀ index, stop < index → index < top →
      0 < downwardDiff numbers target index)
    (hnot : ¬ 0 < downwardDiff numbers target stop) :
    Returns (loop (biggerPass numbers target) · ((top : ℤ) - 1))
      (.ok (if downwardDiff numbers target stop = 0 then (stop : ℤ)
        else wrap32 (stop + 1))) := by
  apply bigger_skip h hstop hlength hint
    fun index hlower => hpassed index hlower
  rw [Nat.cast_succ, add_sub_cancel_right]
  apply returns_of_exit
  rw [biggerPass_at h (by omega), if_neg hnot]
  split_ifs <;> rfl

theorem bigger_loop_of_passed (h : Ascending numbers target) {top : ℕ}
    (hlength : top ≤ numbers.length) (hint : top ≤ 2 ^ 31)
    (hpassed : ∀ index < top, 0 < downwardDiff numbers target index) :
    Returns (loop (biggerPass numbers target) · ((top : ℤ) - 1))
      (.ok (-1)) := by
  apply bigger_skip h (Nat.zero_le top) hlength hint
    fun index _ hupper => hpassed index hupper
  exact returns_of_exit (biggerPass_of_neg (by norm_num))

/-- The loop does not run when its start is a negative `int`. -/
theorem bigger_loop_of_neg {i : ℤ} (hneg : i < 0) :
    Returns (loop (biggerPass numbers target) · i) (.ok i) :=
  returns_of_exit (biggerPass_of_neg hneg)

/-- What the test of the last element leads to. -/
theorem findClosedBiggerValue_eq (h : Ascending numbers target) (fuel : ℕ) :
    findClosedBiggerValue numbers target fuel =
      let diff := downwardDiff numbers target (numbers.length - 1)
      if diff < 0 then some (.ok (-1))
      else if diff = 0 then some (.ok (wrap32 ((numbers.length : ℤ) - 1)))
      else loop (biggerPass numbers target) fuel
        (wrap32 ((numbers.length : ℤ) - 2)) := by
  have hpos : 0 < numbers.length := List.length_pos_iff.mpr h.ne_nil
  have hindex : numbers.length - 1 < numbers.length := by omega
  have hvalid := h.decimal _ (List.getElem_mem hindex)
  rw [findClosedBiggerValue, List.getLast?_eq_getElem?,
    List.getElem?_eq_getElem hindex]
  simp only [difference_eq hvalid h.target_decimal, downwardDiff, valueAt,
    List.getD_eq_getElem _ _ hindex]

/-! ## The exact condition -/

/-- An exact hit. -/
theorem isClosedBigger_of_eq {stop : ℕ} (hlength : stop < numbers.length)
    (hequal : valueAt numbers stop = decimalValue target) :
    IsClosedBigger (numbers.map decimalValue) (decimalValue target) stop := by
  rw [isClosedBigger_iff]
  exact .inr ⟨stop, hlength, rfl, hequal.ge,
    fun index _ hge => hequal ▸ hge⟩

/-- The position behind the last element below the target. -/
theorem isClosedBigger_succ_iff (h : Ascending numbers target) {stop : ℕ}
    (hlength : stop + 1 < numbers.length)
    (hbelow : valueAt numbers stop < decimalValue target) :
    IsClosedBigger (numbers.map decimalValue) (decimalValue target)
        (stop + 1 : ℕ) ↔
      decimalValue target ≤ valueAt numbers (stop + 1) := by
  rw [isClosedBigger_iff]
  constructor
  · rintro (⟨hminus, -⟩ | ⟨position, -, hposition, hge, -⟩)
    · omega
    · rw [Nat.cast_inj] at hposition
      rwa [hposition]
  · intro hge
    refine .inr ⟨stop + 1, hlength, rfl, hge, ?_⟩
    intro index hindex htarget
    have hbehind : stop + 1 ≤ index := by
      by_contra hbefore
      have hle := h.valueAt_le (show index ≤ stop by omega) (by omega)
      omega
    exact h.valueAt_le hbehind hindex

/-- A negative result other than `-1` is never right, and `-1` is wrong when
some element is not below the target. -/
theorem not_isClosedBigger_of_neg {result : ℤ} (hneg : result < 0)
    (hexists : result = -1 → ∃ index < numbers.length,
      decimalValue target ≤ valueAt numbers index) :
    ¬ IsClosedBigger (numbers.map decimalValue) (decimalValue target)
      result := by
  rw [isClosedBigger_iff]
  rintro (⟨hminus, hall⟩ | ⟨position, -, hposition, -⟩)
  · obtain ⟨index, hindex, hge⟩ := hexists hminus
    exact absurd (hall index hindex) (not_lt.mpr hge)
  · omega

/-- Where the loop starts, and how many elements it can visit. -/
def loopStart (length : ℕ) : ℤ := wrap32 ((length : ℤ) - 2)

def loopVisits (length : ℕ) : ℕ := (loopStart length + 1).toNat

theorem loopVisits_bounds {length : ℕ} (hpos : 0 < length) :
    loopVisits length < length ∧ loopVisits length ≤ 2 ^ 31 := by
  rw [loopVisits, loopStart, wrap32, Int.bmod_def]
  split <;> omega

theorem loopStart_eq {length : ℕ} (hstart : -1 ≤ loopStart length) :
    loopStart length = (loopVisits length : ℤ) - 1 := by
  rw [loopVisits]
  omega

/-- The condition for a greatest element above the target, by positions. -/
def FitsAbove (numbers : List ByteString) (target : ByteString)
    (visits : ℕ) : Prop :=
  (∃ index < visits, valueAt numbers index ≤ decimalValue target ∧
      decimalValue target ≤ valueAt numbers index + 2 ^ 63) ∧
    ((∀ index < visits, valueAt numbers index < decimalValue target) →
      visits < 2 ^ 31 ∧ decimalValue target ≤ valueAt numbers visits)

/-- What the loop returns from the first position, seen from above, that is
close below the target. -/
theorem isClosedBigger_of_stop_iff (h : Ascending numbers target)
    {stop visits : ℕ} (hstop : stop < visits)
    (hlength : visits < numbers.length) (hint : visits ≤ 2 ^ 31)
    (hle : valueAt numbers stop ≤ decimalValue target)
    (hnear : decimalValue target ≤ valueAt numbers stop + 2 ^ 63)
    (habove : ∀ index, stop < index → index < visits →
      decimalValue target < valueAt numbers index) :
    IsClosedBigger (numbers.map decimalValue) (decimalValue target)
        (if downwardDiff numbers target stop = 0 then (stop : ℤ)
          else wrap32 (stop + 1)) ↔
      FitsAbove numbers target visits := by
  have hzero_iff := downwardDiff_eq_zero_iff h (hstop.trans hlength)
  by_cases hequal : valueAt numbers stop = decimalValue target
  · rw [if_pos (hzero_iff.mpr hequal)]
    apply iff_of_true (isClosedBigger_of_eq (hstop.trans hlength) hequal)
    exact ⟨⟨stop, hstop, hle, hnear⟩, fun hall =>
      absurd (hall stop hstop) hequal.not_lt⟩
  rw [if_neg (mt hzero_iff.mp hequal)]
  have hbelow : valueAt numbers stop < decimalValue target :=
    lt_of_le_of_ne hle hequal
  by_cases hinner : stop + 1 < visits
  · have hnext := habove (stop + 1) (Nat.lt_succ_self stop) hinner
    have hexact : wrap32 ((stop : ℤ) + 1) = (stop + 1 : ℕ) := by
      rw [wrap32_eq_self] <;> omega
    rw [hexact, isClosedBigger_succ_iff h (by omega) hbelow]
    apply iff_of_true hnext.le
    exact ⟨⟨stop, hstop, hle, hnear⟩, fun hall =>
      absurd (hall (stop + 1) hinner) (not_lt.mpr hnext.le)⟩
  -- The search stopped where it started: the result is behind all it has seen.
  obtain rfl : visits = stop + 1 := by omega
  have hall : ∀ index < stop + 1,
      valueAt numbers index < decimalValue target := by
    intro index hindex
    have hlow := h.valueAt_le (show index ≤ stop by omega) (by omega)
    omega
  have hfits : FitsAbove numbers target (stop + 1) ↔ stop + 1 < 2 ^ 31 ∧
      decimalValue target ≤ valueAt numbers (stop + 1) := by
    rw [FitsAbove, forall_prop_of_true hall]
    exact and_iff_right ⟨stop, hstop, hle, hnear⟩
  rw [hfits]
  rcases hint.lt_or_eq with hless | hoverflow
  · have hexact : wrap32 ((stop : ℤ) + 1) = (stop + 1 : ℕ) := by
      rw [wrap32_eq_self] <;> omega
    rw [hexact, isClosedBigger_succ_iff h hlength hbelow, and_iff_right hless]
  · have hwrapped : wrap32 ((stop : ℤ) + 1) = -2 ^ 31 := by
      rw [← wrap32_int_overflow, ← hoverflow, Nat.cast_succ]
    rw [hwrapped]
    apply iff_of_false
    · exact not_isClosedBigger_of_neg (by norm_num) (by norm_num)
    · omega

/-- The first position, seen from above, that the loop does not pass. -/
theorem exists_last_stop {visits : ℕ}
    (hstops : ∃ stop < visits, ¬ 0 < downwardDiff numbers target stop) :
    ∃ stop < visits, ¬ 0 < downwardDiff numbers target stop ∧
      ∀ index, stop < index → index < visits →
        0 < downwardDiff numbers target index := by
  classical
  obtain ⟨first, hfirst, hfirstNot⟩ := hstops
  let stops : ℕ → Prop := fun index =>
    index < visits ∧ ¬ 0 < downwardDiff numbers target index
  obtain ⟨hstop, hnot⟩ : stops (Nat.findGreatest stops visits) :=
    Nat.findGreatest_spec hfirst.le ⟨hfirst, hfirstNot⟩
  refine ⟨Nat.findGreatest stops visits, hstop, hnot, ?_⟩
  intro index hlower hupper
  by_contra hindexNot
  exact Nat.findGreatest_is_greatest hlower hupper.le ⟨hupper, hindexNot⟩

/-- A loop over the first `visits` positions finds the least element that is
not below the target exactly when one of them is close below it, and the
element behind them is not below it if all of them are. -/
theorem bigger_loop_correct_iff (h : Ascending numbers target) {visits : ℕ}
    (hlength : visits < numbers.length) (hint : visits ≤ 2 ^ 31)
    (hlast : decimalValue target ≤ valueAt numbers (numbers.length - 1))
    (hclose : valueAt numbers (numbers.length - 1) <
      decimalValue target + 2 ^ 63) :
    (∃ result,
        Returns (loop (biggerPass numbers target) · ((visits : ℤ) - 1))
            (.ok result) ∧
          IsClosedBigger (numbers.map decimalValue) (decimalValue target)
            result) ↔
      FitsAbove numbers target visits := by
  have hnot_iff : ∀ {index}, index < numbers.length →
      (¬ 0 < downwardDiff numbers target index ↔
        valueAt numbers index ≤ decimalValue target ∧
          decimalValue target ≤ valueAt numbers index + 2 ^ 63) := by
    intro index hindex
    have hle := h.valueAt_le (show index ≤ numbers.length - 1 by omega)
      (by omega)
    rw [downwardDiff_pos_iff h hindex]
    omega
  by_cases hstops : ∃ stop < visits,
      ¬ 0 < downwardDiff numbers target stop
  · obtain ⟨stop, hstop, hnot, hgreatest⟩ := exists_last_stop hstops
    obtain ⟨hle, hnear⟩ := (hnot_iff (by omega)).mp hnot
    rw [exists_returns_iff
      (bigger_loop_of_stop h hstop hlength.le hint hgreatest hnot)]
    apply isClosedBigger_of_stop_iff h hstop hlength hint hle hnear
    intro index hlower hupper
    have hpass := (downwardDiff_pos_iff h (by omega)).mp
      (hgreatest index hlower hupper)
    have hlow := h.valueAt_le hlower.le (by omega)
    omega
  · have hpassed : ∀ index < visits,
        0 < downwardDiff numbers target index := by
      intro index hindex
      by_contra hnot
      exact hstops ⟨index, hindex, hnot⟩
    rw [exists_returns_iff (bigger_loop_of_passed h hlength.le hint hpassed)]
    apply iff_of_false
    · exact not_isClosedBigger_of_neg (by norm_num) fun _ =>
        ⟨numbers.length - 1, by omega, hlast⟩
    · rintro ⟨⟨index, hindex, hnear⟩, -⟩
      exact (hnot_iff (by omega)).mpr hnear (hpassed index hindex)

/-- When the downward search is right, by the greatest element.  If that is
below the target, the loop must not be asked to start at a negative `int` other
than `-1`.  If it is the target, its position must survive the conversion to
`int`.  If it is above the target, then by less than `2 ^ 63`, one of the
elements the loop visits is at most `2 ^ 63` below the target, and if all of
them are below it the position behind them is an `int` and holds no smaller
element than the target. -/
def BiggerFits (values : List ℕ) (target : ℕ) : Prop :=
  ∃ last ∈ values.getLast?,
    (last < target ∧
      (target ≤ last + 2 ^ 63 ∨ -1 ≤ loopStart values.length)) ∨
    (last = target ∧ 0 ≤ wrap32 ((values.length : ℤ) - 1) ∧
      ∃ value, values[(wrap32 ((values.length : ℤ) - 1)).toNat]? =
        some value ∧ value = target) ∨
    (target < last ∧ last < target + 2 ^ 63 ∧
      (∃ value ∈ values.take (loopVisits values.length),
        value ≤ target ∧ target ≤ value + 2 ^ 63) ∧
      ((∀ value ∈ values.take (loopVisits values.length), value < target) →
        loopVisits values.length < 2 ^ 31 ∧
          ∀ next ∈ values[loopVisits values.length]?, target ≤ next))

theorem biggerFits_iff (h : Ascending numbers target) :
    BiggerFits (numbers.map decimalValue) (decimalValue target) ↔
      (valueAt numbers (numbers.length - 1) < decimalValue target ∧
        (decimalValue target ≤
            valueAt numbers (numbers.length - 1) + 2 ^ 63 ∨
          -1 ≤ loopStart numbers.length)) ∨
      (valueAt numbers (numbers.length - 1) = decimalValue target ∧
        ∃ position < numbers.length,
          wrap32 ((numbers.length : ℤ) - 1) = position ∧
            valueAt numbers position = decimalValue target) ∨
      (decimalValue target < valueAt numbers (numbers.length - 1) ∧
        valueAt numbers (numbers.length - 1) < decimalValue target + 2 ^ 63 ∧
        FitsAbove numbers target (loopVisits numbers.length)) := by
  have hpos : 0 < numbers.length := List.length_pos_iff.mpr h.ne_nil
  have hvisits := (loopVisits_bounds hpos).1
  have hlast : (numbers.map decimalValue).getLast? =
      some (valueAt numbers (numbers.length - 1)) := by
    rw [List.getLast?_eq_getElem?, List.length_map]
    exact getElem?_map_decimalValue (by omega)
  rw [BiggerFits, hlast, List.length_map, exists_mem_take_iff,
    forall_mem_take_iff, min_eq_right hvisits.le,
    getElem?_map_decimalValue hvisits, exists_position_iff]
  simp only [Option.mem_some_iff, exists_eq_left', forall_eq']
  rfl

/-- The condition on lists whose positions are all `int`s. -/
theorem biggerFits_iff_of_length_le (h : Ascending numbers target)
    (hlength : numbers.length ≤ 2 ^ 31) :
    BiggerFits (numbers.map decimalValue) (decimalValue target) ↔
      valueAt numbers (numbers.length - 1) < decimalValue target ∨
      (valueAt numbers (numbers.length - 1) < decimalValue target + 2 ^ 63 ∧
        ∃ index < numbers.length,
          valueAt numbers index ≤ decimalValue target ∧
            decimalValue target ≤ valueAt numbers index + 2 ^ 63) := by
  have hpos : 0 < numbers.length := List.length_pos_iff.mpr h.ne_nil
  have hstart : loopStart numbers.length = (numbers.length : ℤ) - 2 :=
    wrap32_eq_self (by omega) (by omega)
  have hvisits : loopVisits numbers.length = numbers.length - 1 := by
    rw [loopVisits, hstart]
    omega
  have hend : wrap32 ((numbers.length : ℤ) - 1) =
      (numbers.length - 1 : ℕ) := by
    rw [wrap32_eq_self] <;> omega
  rw [biggerFits_iff h, hstart, hvisits, hend]
  constructor
  · rintro (⟨hbelow, -⟩ | ⟨hequal, -⟩ | ⟨-, hclose, ⟨index, hindex, hnear⟩, -⟩)
    · exact .inl hbelow
    · exact .inr ⟨by omega, numbers.length - 1, by omega, by omega, by omega⟩
    · exact .inr ⟨hclose, index, by omega, hnear⟩
  · rintro (hbelow | ⟨hclose, index, hindex, hnear⟩)
    · exact .inl ⟨hbelow, .inr (by omega)⟩
    · rcases lt_trichotomy (valueAt numbers (numbers.length - 1))
        (decimalValue target) with hlt | heq | hgt
      · exact .inl ⟨hlt, .inr (by omega)⟩
      · exact .inr (.inl ⟨heq, numbers.length - 1, by omega, rfl, heq⟩)
      · have hinner : index ≠ numbers.length - 1 := by
          rintro rfl
          omega
        exact .inr (.inr ⟨hgt, hclose, ⟨index, by omega, hnear⟩,
          fun _ => ⟨by omega, hgt.le⟩⟩)

/-- All elements are below the target. -/
theorem bigger_correct_iff_of_lt (h : Ascending numbers target)
    (hlast : valueAt numbers (numbers.length - 1) < decimalValue target) :
    (∃ result, Returns (findClosedBiggerValue numbers target ·) (.ok result) ∧
        IsClosedBigger (numbers.map decimalValue) (decimalValue target)
          result) ↔
      decimalValue target ≤ valueAt numbers (numbers.length - 1) + 2 ^ 63 ∨
        -1 ≤ loopStart numbers.length := by
  have hpos : 0 < numbers.length := List.length_pos_iff.mpr h.ne_nil
  have hall : ∀ index < numbers.length,
      valueAt numbers index ≤ valueAt numbers (numbers.length - 1) :=
    fun index hindex => h.valueAt_le (by omega) (by omega)
  have hcorrect : IsClosedBigger (numbers.map decimalValue)
      (decimalValue target) (-1) := by
    rw [isClosedBigger_iff]
    exact .inl ⟨rfl, fun index hindex => (hall index hindex).trans_lt hlast⟩
  have hpos_iff := downwardDiff_pos_iff h
    (show numbers.length - 1 < numbers.length by omega)
  have hzero_iff := downwardDiff_eq_zero_iff h
    (show numbers.length - 1 < numbers.length by omega)
  simp only [findClosedBiggerValue_eq h]
  by_cases hnear : decimalValue target ≤
      valueAt numbers (numbers.length - 1) + 2 ^ 63
  · have hneg : downwardDiff numbers target (numbers.length - 1) < 0 := by
      omega
    simp only [if_pos hneg]
    rw [exists_returns_iff (returns_some _)]
    exact iff_of_true hcorrect (.inl hnear)
  · have hdiff : 0 < downwardDiff numbers target (numbers.length - 1) := by
      omega
    simp only [if_neg hdiff.not_gt, if_neg hdiff.ne', hnear, false_or]
    change (∃ result, Returns (loop (biggerPass numbers target) ·
      (loopStart numbers.length)) (.ok result) ∧ _) ↔ _
    by_cases hstart : -1 ≤ loopStart numbers.length
    · have hvisits := loopVisits_bounds hpos
      have hpassed : ∀ index < loopVisits numbers.length,
          0 < downwardDiff numbers target index := by
        intro index hindex
        have hle := hall index (by omega)
        rw [downwardDiff_pos_iff h (by omega)]
        omega
      rw [loopStart_eq hstart, exists_returns_iff
        (bigger_loop_of_passed h hvisits.1.le hvisits.2 hpassed)]
      exact iff_of_true hcorrect (by omega)
    · rw [exists_returns_iff (bigger_loop_of_neg (by omega))]
      apply iff_of_false _ hstart
      exact not_isClosedBigger_of_neg (by omega) (by omega)

/-- The greatest element is the target. -/
theorem bigger_correct_iff_of_eq (h : Ascending numbers target)
    (hlast : valueAt numbers (numbers.length - 1) = decimalValue target) :
    (∃ result, Returns (findClosedBiggerValue numbers target ·) (.ok result) ∧
        IsClosedBigger (numbers.map decimalValue) (decimalValue target)
          result) ↔
      ∃ position < numbers.length,
        wrap32 ((numbers.length : ℤ) - 1) = position ∧
          valueAt numbers position = decimalValue target := by
  have hpos : 0 < numbers.length := List.length_pos_iff.mpr h.ne_nil
  have hzero := (downwardDiff_eq_zero_iff h
    (show numbers.length - 1 < numbers.length by omega)).mpr hlast
  simp only [findClosedBiggerValue_eq h, hzero, lt_irrefl, if_false, if_true]
  rw [exists_returns_iff (returns_some _), isClosedBigger_iff]
  constructor
  · rintro (⟨-, hall⟩ | ⟨position, hposition, hresult, hge, hleast⟩)
    · exact absurd (hall (numbers.length - 1) (by omega)) hlast.not_lt
    · have hle := hleast (numbers.length - 1) (by omega) hlast.ge
      exact ⟨position, hposition, hresult, le_antisymm (hle.trans hlast.le) hge⟩
  · rintro ⟨position, hposition, hresult, hequal⟩
    exact .inr ⟨position, hposition, hresult, hequal.ge,
      fun index _ hge => hequal.le.trans hge⟩

/-- The greatest element is above the target. -/
theorem bigger_correct_iff_of_gt (h : Ascending numbers target)
    (hlast : decimalValue target < valueAt numbers (numbers.length - 1)) :
    (∃ result, Returns (findClosedBiggerValue numbers target ·) (.ok result) ∧
        IsClosedBigger (numbers.map decimalValue) (decimalValue target)
          result) ↔
      valueAt numbers (numbers.length - 1) < decimalValue target + 2 ^ 63 ∧
        FitsAbove numbers target (loopVisits numbers.length) := by
  have hpos : 0 < numbers.length := List.length_pos_iff.mpr h.ne_nil
  have hpos_iff := downwardDiff_pos_iff h
    (show numbers.length - 1 < numbers.length by omega)
  have hzero_iff := downwardDiff_eq_zero_iff h
    (show numbers.length - 1 < numbers.length by omega)
  simp only [findClosedBiggerValue_eq h]
  by_cases hclose : valueAt numbers (numbers.length - 1) <
      decimalValue target + 2 ^ 63
  · have hdiff : 0 < downwardDiff numbers target (numbers.length - 1) := by
      omega
    have hvisits := loopVisits_bounds hpos
    simp only [if_neg hdiff.not_gt, if_neg hdiff.ne', hclose, true_and]
    change (∃ result, Returns (loop (biggerPass numbers target) ·
      (loopStart numbers.length)) (.ok result) ∧ _) ↔ _
    by_cases hstart : -1 ≤ loopStart numbers.length
    · rw [loopStart_eq hstart]
      exact bigger_loop_correct_iff h hvisits.1 hvisits.2 hlast.le hclose
    · have hnone : loopVisits numbers.length = 0 := by
        rw [loopVisits]
        omega
      rw [exists_returns_iff (bigger_loop_of_neg (by omega)), hnone]
      apply iff_of_false
      · exact not_isClosedBigger_of_neg (by omega) (by omega)
      · rintro ⟨⟨index, hindex, -⟩, -⟩
        omega
  · have hneg : downwardDiff numbers target (numbers.length - 1) < 0 := by
      omega
    simp only [if_pos hneg, hclose, false_and]
    rw [exists_returns_iff (returns_some _), iff_false]
    exact not_isClosedBigger_of_neg (by norm_num) fun _ =>
      ⟨numbers.length - 1, by omega, hlast.le⟩

/-- `find_closed_bigger_value` returns the least element that is not below the
target exactly when the list fits. -/
theorem findClosedBiggerValue_correct_iff (h : Ascending numbers target) :
    (∃ result, Returns (findClosedBiggerValue numbers target ·) (.ok result) ∧
        IsClosedBigger (numbers.map decimalValue) (decimalValue target)
          result) ↔
      BiggerFits (numbers.map decimalValue) (decimalValue target) := by
  rw [biggerFits_iff h]
  rcases lt_trichotomy (valueAt numbers (numbers.length - 1))
    (decimalValue target) with hlt | heq | hgt
  · rw [bigger_correct_iff_of_lt h hlt]
    simp only [hlt, hlt.ne, hlt.not_gt, true_and, false_and, or_false]
  · rw [bigger_correct_iff_of_eq h heq]
    simp only [heq, lt_irrefl, true_and, false_and, or_false, false_or]
  · rw [bigger_correct_iff_of_gt h hgt]
    simp only [hgt, hgt.ne', hgt.not_gt, true_and, false_and, false_or]

/-- A list that reaches down to the target. -/
theorem findClosedBiggerValue_correct_of_three :
    ∃ result, Returns (findClosedBiggerValue
          [ascii "1", ascii "4", ascii "9"] (ascii "3") ·) (.ok result) ∧
      IsClosedBigger ([ascii "1", ascii "4", ascii "9"].map decimalValue)
        (decimalValue (ascii "3")) result := by
  have hascending :
      Ascending [ascii "1", ascii "4", ascii "9"] (ascii "3") := by
    decide
  apply (findClosedBiggerValue_correct_iff hascending).mpr
  rw [biggerFits_iff_of_length_le hascending (by decide)]
  exact .inr ⟨by decide, 0, by decide, by decide, by decide⟩

/-- A target below the only element: the search returns `-1`. -/
theorem findClosedBiggerValue_misses_first :
    Ascending [ascii "5"] (ascii "3") ∧
      ¬ ∃ result,
        Returns (findClosedBiggerValue [ascii "5"] (ascii "3") ·)
            (.ok result) ∧
          IsClosedBigger ([ascii "5"].map decimalValue)
            (decimalValue (ascii "3")) result := by
  have hascending : Ascending [ascii "5"] (ascii "3") := by decide
  refine ⟨hascending, ?_⟩
  rw [bigger_correct_iff_of_gt hascending (by decide)]
  rintro ⟨-, ⟨index, hindex, -⟩, -⟩
  revert hindex
  simp [loopVisits, loopStart, wrap32]

end KataCpp.StringUtil
