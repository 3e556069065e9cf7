import KataCpp.Core.OrderStatistic
import KataCpp.Algorithm.QuickSelectRanges

/-!
# The median of quick select

For distinct elements the selection always ends, with the element of the middle
rank at `mid` and the greater ones behind it.  An even number of elements needs
the least of these as well, and the code takes the one at `mid + 1`.

The partition of the last range decides which one that is: the last element
above the key among those that were at the places up to `mid + 1`.
-/

namespace KataCpp.QuickSelect

open Iteration MachineInt OrderStatistic Segment
open scoped List

/-- The last element above the key among the first ones of the range, as many
as are below the key and one more. -/
def behind (key : ℤ) (others : List ℤ) : Option ℤ :=
  ((others.take (others.countP (· < key) + 1)).filter (key < ·)).getLast?

/-- It is the least of all elements of the range that are above the key. -/
def NextIsLeast (key : ℤ) (others : List ℤ) : Prop :=
  ∀ next ∈ behind key others, ∀ x ∈ others, key < x → next ≤ x

section Behind

variable {key x : ℤ} {hole : Hole} {elements lower upper : List ℤ}

/-- How many elements of the range come before the key, counted from the lower
end of the elements to be scanned. -/
def reach (hole : Hole) (lower : List ℤ) : ℕ :=
  match hole with
  | .low => lower.length + 1
  | .high => lower.length + 2

theorem Arranges.head?_upper
    (harranges : Arranges key hole elements lower upper) :
    upper.head? =
      ((elements.take (reach hole lower)).filter (key < ·)).getLast? := by
  induction harranges with
  | done hole => simp
  | @keepHigh elements lower upper x hx hrest ih =>
      have hlength := hrest.length_eq
      cases upper with
      | nil =>
          have hall : (elements ++ [x]).take (reach .low lower) =
              elements ++ [x] := by
            apply List.take_of_length_le
            rw [reach, List.length_append, List.length_singleton, ← hlength]
            rfl
          rw [hall, List.filter_append, List.filter_cons_of_pos (by simpa),
            List.filter_nil, List.getLast?_append]
          rfl
      | cons first rest =>
          have hinside : reach .low lower ≤ elements.length := by
            rw [reach, ← hlength, List.length_cons]
            omega
          rw [List.take_append_of_le_length hinside, ← ih]
          rfl
  | @moveLow elements lower upper x hx hrest ih =>
      have hnone : ([x].take (lower.length + 2 - elements.length)).filter
          (key < ·) = [] := by
        rw [List.filter_eq_nil_iff]
        intro y hy
        obtain rfl : y = x := by simpa using List.mem_of_mem_take hy
        simpa using hx.le
      rw [ih, reach, reach, List.length_cons, List.take_append,
        List.filter_append, hnone, List.append_nil]
  | @keepLow elements lower upper x hx hrest ih =>
      rw [ih, reach, reach, List.length_cons, List.take_succ_cons,
        List.filter_cons_of_neg (by simpa using hx.le)]
  | @moveHigh elements lower upper x hx hrest ih =>
      rw [List.head?_append, ih, reach, reach, List.take_succ_cons,
        List.filter_cons_of_pos (by simpa using hx), List.getLast?_cons]
      cases ((elements.take (lower.length + 1)).filter (key < ·)).getLast? <;>
        rfl

/-- The partition of the last range leaves this element behind the key. -/
theorem Arranges.head?_upper_eq_behind
    (harranges : Arranges key .low elements lower upper) :
    upper.head? = behind key elements := by
  have hcount : elements.countP (· < key) = lower.length := by
    have hlower : lower.countP (· < key) = lower.length :=
      List.countP_eq_length.mpr (by simpa using harranges.lower_lt)
    have hupper : upper.countP (· < key) = 0 :=
      List.countP_eq_zero.mpr (by
        simpa using fun x hx => (harranges.lt_upper x hx).le)
    rw [← harranges.perm.countP_eq, List.countP_append, hlower, hupper,
      add_zero]
  rw [harranges.head?_upper, behind, hcount]
  rfl

end Behind

/-! ## The selection from distinct elements -/

theorem exists_selectsIn {elements : List ℤ} (hdistinct : elements.Nodup)
    {rank : ℕ} (hrank : rank < elements.length) :
    ∃ key others, SelectsIn elements rank key others := by
  induction hlength : elements.length using Nat.strong_induction_on
    generalizing elements rank with
  | _ count ih =>
      cases elements with
      | nil => exact absurd hrank (Nat.not_lt_zero rank)
      | cons first rest =>
          obtain ⟨hfirst, hrest⟩ := List.nodup_cons.mp hdistinct
          obtain ⟨lower, upper, harranges⟩ :=
            exists_arranges .low rest hfirst
          have hparts := (harranges.perm.nodup_iff).mpr hrest
          have hsum := harranges.length_eq
          rw [List.length_cons] at hrank hlength
          rcases lt_trichotomy rank lower.length with hlt | rfl | hgt
          · obtain ⟨key, others, hselects⟩ := ih lower.length (by omega)
              (List.Nodup.of_append_left hparts) hlt rfl
            exact ⟨key, others, hselects.inLower hfirst harranges⟩
          · exact ⟨first, rest, SelectsIn.found hfirst harranges⟩
          · obtain ⟨inner, rfl⟩ : ∃ inner, rank = lower.length + 1 + inner :=
              ⟨rank - lower.length - 1, by omega⟩
            obtain ⟨key, others, hselects⟩ := ih upper.length (by omega)
              (List.Nodup.of_append_right hparts)
              (show inner < upper.length by omega) rfl
            exact ⟨key, others, hselects.inUpper hfirst harranges⟩

/-- An array in which the key has found its place. -/
structure Placed (nums front lower upper back others : List ℤ) (key : ℤ) :
    Prop where
  perm : front ++ (lower ++ key :: (upper ++ back)) ~ nums
  arranges : Arranges key .low others lower upper
  separated : Separated front (key :: others) back

section Placement

variable {nums front lower upper back others : List ℤ} {key next : ℤ}
  {more : List ℤ} (hplaced : Placed nums front lower upper back others key)
include hplaced

theorem Placed.le_key : ∀ x ∈ front ++ lower, x ≤ key := by
  intro x hx
  rcases List.mem_append.mp hx with hx | hx
  · exact (hplaced.separated.before_lt x hx key List.mem_cons_self).le
  · exact (hplaced.arranges.lower_lt x hx).le

theorem Placed.key_le : ∀ x ∈ upper ++ back, key ≤ x := by
  intro x hx
  rcases List.mem_append.mp hx with hx | hx
  · exact (hplaced.arranges.lt_upper x hx).le
  · exact (hplaced.separated.lt_after key List.mem_cons_self x hx).le

theorem Placed.getElem?_key :
    (ascending nums)[front.length + lower.length]? = some key := by
  rw [← List.length_append]
  apply getElem?_ascending _ hplaced.le_key hplaced.key_le
  rw [List.append_assoc]
  exact hplaced.perm

theorem Placed.getElem?_least (hnext : next ∈ upper ++ back)
    (hleast : ∀ x ∈ upper ++ back, next ≤ x) :
    (ascending nums)[front.length + lower.length + 1]? = some next := by
  have hlength : (front ++ (lower ++ [key])).length =
      front.length + lower.length + 1 := by
    rw [List.length_append, List.length_append, List.length_singleton,
      add_assoc]
  rw [← hlength]
  apply getElem?_ascending_of_least _ _ hnext hleast
  · simpa using hplaced.perm
  · intro x hx y hy
    rw [← List.append_assoc] at hx
    rcases List.mem_append.mp hx with hx | hx
    · exact (hplaced.le_key x hx).trans (hplaced.key_le y hy)
    · rw [List.mem_singleton.mp hx]
      exact hplaced.key_le y hy

/-- The element behind the key makes up the median of an even number of
elements exactly if none of the elements there is below it. -/
theorem Placed.twiceMedian_iff
    (hlength : nums.length = 2 * (front.length + lower.length + 1))
    (hnext : (upper ++ back).head? = some next) :
    key + next = twiceMedian nums ↔ ∀ x ∈ upper ++ back, next ≤ x := by
  have hmem : next ∈ upper ++ back := List.mem_of_head? hnext
  obtain ⟨least, hleast, hbound⟩ :=
    (upper ++ back).toFinset.exists_min_image id ⟨next, by simpa using hmem⟩
  simp only [List.mem_toFinset, id_eq] at hleast hbound
  have hmedian : twiceMedian nums = key + least :=
    twiceMedian_of_even hlength hplaced.getElem?_key
      (hplaced.getElem?_least hleast hbound)
  rw [hmedian, add_right_inj]
  constructor
  · rintro rfl
    exact hbound
  · intro hsmallest
    exact le_antisymm (hsmallest least hleast) (hbound next hmem)

theorem Placed.head_le_iff (hnext : (upper ++ back).head? = some next) :
    (∀ x ∈ upper ++ back, next ≤ x) ↔ NextIsLeast key others := by
  rw [NextIsLeast, ← hplaced.arranges.head?_upper_eq_behind]
  have hsplit (x : ℤ) : x ∈ others ∧ key < x ↔ x ∈ upper := by
    rw [← hplaced.arranges.perm.mem_iff, List.mem_append]
    constructor
    · rintro ⟨hx | hx, hkey⟩
      · exact absurd (hplaced.arranges.lower_lt x hx) hkey.not_gt
      · exact hx
    · exact fun hx => ⟨Or.inr hx, hplaced.arranges.lt_upper x hx⟩
  cases upper with
  | nil =>
      -- Only elements behind the range are left, and the first is the least.
      have hback := hplaced.separated.head_le next hnext
      simpa using hback
  | cons first rest =>
      obtain rfl : first = next := by simpa using hnext
      constructor
      · intro hleast y hy x hx hkey
        obtain rfl : first = y := by simpa using hy
        exact hleast x (List.mem_append_left _ ((hsplit x).mp ⟨hx, hkey⟩))
      · intro hleast x hx
        rcases List.mem_append.mp hx with hx | hx
        · obtain ⟨hothers, hkey⟩ := (hsplit x).mpr hx
          exact hleast first rfl x hothers hkey
        · have hfirst := (hsplit first).mpr List.mem_cons_self
          exact (hplaced.separated.lt_after first
            (List.mem_cons_of_mem key hfirst.1) x hx).le

end Placement

section Median

variable {nums : List ℤ}

/-- The selection for the middle rank puts its key into place, also if the array
goes on behind the elements. -/
theorem select_placed {int : ℤ → ℤ} (hnums : nums ≠ []) {key : ℤ}
    {others : List ℤ} (tail : List ℤ)
    (hint : ∀ value, 0 ≤ value → value ≤ (nums.length : ℤ) - 1 →
      int value = value)
    (hselects : SelectsIn nums ((nums.length - 1) / 2) key others) :
    ∃ front lower upper back,
      Placed nums front lower upper back others key ∧
      front.length + lower.length = (nums.length - 1) / 2 ∧
      Returns (select int ((nums.length - 1) / 2 : ℕ) · (nums ++ tail) 0
        (nums.length - 1))
        (front ++ (lower ++ key :: (upper ++ (back ++ tail)))) := by
  have hpositive := List.length_pos_iff_ne_nil.mpr hnums
  obtain ⟨front, lower, upper, back, harranges, hselect, hplace, hperm,
    hseparated⟩ := select_returns hselects [] [] tail rfl
      (show (nums.length : ℤ) - 1 + 1 = _ by simp) rfl hint
  rw [List.nil_append, List.nil_append] at hselect
  rw [List.nil_append, List.append_nil] at hperm
  rw [List.length_nil, Nat.cast_zero, zero_add] at hselect hplace
  exact ⟨front, lower, upper, back,
    ⟨hperm, harranges, hseparated ⟨by simp, by simp, by simp⟩⟩, by omega,
    hselect⟩

theorem middle_eq (hnums : nums ≠ []) :
    (exactInt (0 + ((nums.length : ℤ) - 1))).tdiv 2 =
      ((nums.length - 1) / 2 : ℕ) := by
  have hpositive := List.length_pos_iff_ne_nil.mpr hnums
  rw [exactInt_apply, zero_add, Int.tdiv_eq_ediv_of_nonneg (by omega)]
  omega

theorem exists_placed (hnums : nums ≠ []) {key : ℤ} {others : List ℤ}
    (hselects : SelectsIn nums ((nums.length - 1) / 2) key others) :
    ∃ front lower upper back,
      Placed nums front lower upper back others key ∧
      front.length + lower.length = (nums.length - 1) / 2 ∧
      ∀ value, median exactInt (front ++ (lower ++ key :: (upper ++ back)))
          ((nums.length - 1) / 2 : ℕ) = some value →
        Returns (findMedian exactInt · nums) value := by
  obtain ⟨front, lower, upper, back, hplaced, hmid, hselect⟩ :=
    select_placed hnums [] (fun value _ _ => exactInt_apply value) hselects
  rw [List.append_nil, List.append_nil] at hselect
  exact ⟨front, lower, upper, back, hplaced, hmid, fun value hvalue =>
    findMedian_returns rfl (middle_eq hnums) hselect hvalue⟩

theorem read_key (front lower : List ℤ) (key : ℤ) (behindKey : List ℤ) :
    read (front ++ (lower ++ key :: behindKey))
      (front.length + lower.length : ℕ) = some key := by
  rw [← List.append_assoc]
  apply read_append_cons
  rw [List.length_append]

theorem Placed.median_odd {front lower upper back others : List ℤ} {key : ℤ}
    (hplaced : Placed nums front lower upper back others key)
    (hodd : nums.length % 2 = 1) :
    median exactInt (front ++ (lower ++ key :: (upper ++ back)))
      (front.length + lower.length : ℕ) = some (key : ℚ) := by
  rw [median, if_neg (by rw [hplaced.perm.length_eq]; omega), read_key]
  rfl

theorem Placed.median_even {front lower upper back others : List ℤ}
    {key next : ℤ} {more : List ℤ}
    (hplaced : Placed nums front lower upper back others key)
    (heven : nums.length % 2 = 0) (hnext : upper ++ back = next :: more) :
    median exactInt (front ++ (lower ++ key :: (upper ++ back)))
      (front.length + lower.length : ℕ) =
        some (((key + next : ℤ) : ℚ) / 2) := by
  have hsecond : read (front ++ (lower ++ key :: (upper ++ back)))
      (exactInt ((front.length + lower.length : ℕ) + 1)) = some next := by
    have harr : front ++ (lower ++ key :: (upper ++ back)) =
        (front ++ (lower ++ [key])) ++ next :: more := by
      simp [hnext]
    rw [harr]
    apply read_append_cons
    rw [exactInt_apply, List.length_append, List.length_append,
      List.length_singleton]
    omega
  rw [median, if_pos (by rw [hplaced.perm.length_eq]; omega), read_key,
    Option.bind_eq_bind, Option.bind_some, hsecond]
  rfl

/-- The value for an odd number of distinct elements. -/
theorem findMedian_odd (hselects : ∃ key others, SelectsIn nums
      ((nums.length - 1) / 2) key others) (hodd : nums.length % 2 = 1) :
    ∃ value, Returns (findMedian exactInt · nums) value ∧
      2 * value = (twiceMedian nums : ℚ) := by
  obtain ⟨key, others, hselects⟩ := hselects
  have hnums : nums ≠ [] := by
    rintro rfl
    exact absurd hodd (by decide)
  obtain ⟨front, lower, upper, back, hplaced, hmid, hreturns⟩ :=
    exists_placed hnums hselects
  have hmedian := hplaced.median_odd hodd
  have hkey := hplaced.getElem?_key
  rw [hmid] at hmedian hkey
  refine ⟨key, hreturns key hmedian, ?_⟩
  rw [twiceMedian_of_odd (by omega) hkey]
  push_cast
  rfl

/-- The value for an even number of distinct elements. -/
theorem findMedian_even (hnums : nums ≠ []) {key : ℤ} {others : List ℤ}
    (hselects : SelectsIn nums ((nums.length - 1) / 2) key others)
    (heven : nums.length % 2 = 0) :
    ∃ value, Returns (findMedian exactInt · nums) value ∧
      (2 * value = (twiceMedian nums : ℚ) ↔ NextIsLeast key others) := by
  have hpositive := List.length_pos_iff_ne_nil.mpr hnums
  obtain ⟨front, lower, upper, back, hplaced, hmid, hreturns⟩ :=
    exists_placed hnums hselects
  obtain ⟨next, more, hnext⟩ : ∃ next more, upper ++ back = next :: more := by
    apply List.exists_cons_of_ne_nil
    rw [← List.length_pos_iff_ne_nil]
    have hlength := hplaced.perm.length_eq
    rw [List.length_append, List.length_append, List.length_cons] at hlength
    omega
  have hhead : (upper ++ back).head? = some next := by
    rw [hnext]
    rfl
  have hmedian := hplaced.median_even heven hnext
  rw [hmid] at hmedian
  refine ⟨((key + next : ℤ) : ℚ) / 2, hreturns _ hmedian, ?_⟩
  rw [← hplaced.head_le_iff hhead, ← hplaced.twiceMedian_iff (by omega) hhead,
    mul_div_cancel₀ _ two_ne_zero, Int.cast_inj]

/-- `findMedian` returns the median of distinct elements exactly if their
number is odd, or the last range has the right element at its place. -/
theorem findMedian_median_iff (hnums : nums ≠ []) (hdistinct : nums.Nodup) :
    (∃ value, Returns (findMedian exactInt · nums) value ∧
      2 * value = (twiceMedian nums : ℚ)) ↔
      nums.length % 2 = 1 ∨ ∃ key others,
        SelectsIn nums ((nums.length - 1) / 2) key others ∧
        NextIsLeast key others := by
  have hpositive := List.length_pos_iff_ne_nil.mpr hnums
  obtain ⟨key, others, hselects⟩ : ∃ key others,
      SelectsIn nums ((nums.length - 1) / 2) key others :=
    exists_selectsIn hdistinct (by omega)
  rcases Nat.mod_two_eq_zero_or_one nums.length with heven | hodd
  · constructor
    · rintro ⟨value, hreturns, hvalue⟩
      obtain ⟨other, hother, hiff⟩ := findMedian_even hnums hselects heven
      obtain rfl := hreturns.unique hother
      exact Or.inr ⟨key, others, hselects, hiff.mp hvalue⟩
    · rintro (hodd | ⟨key, others, hselects, hleast⟩)
      · omega
      · obtain ⟨value, hreturns, hiff⟩ :=
          findMedian_even hnums hselects heven
        exact ⟨value, hreturns, hiff.mpr hleast⟩
  · exact iff_of_true (findMedian_odd ⟨key, others, hselects⟩ hodd)
      (Or.inl hodd)

theorem findMedian_median_iff_of_six :
    (∃ value, Returns (findMedian exactInt · [7, 5, 3, 1, 11, 9]) value ∧
      2 * value = (twiceMedian [7, 5, 3, 1, 11, 9] : ℚ)) ↔
      [7, 5, 3, 1, 11, 9].length % 2 = 1 ∨ ∃ key others,
        SelectsIn [7, 5, 3, 1, 11, 9] (([7, 5, 3, 1, 11, 9].length - 1) / 2)
          key others ∧
        NextIsLeast key others :=
  findMedian_median_iff (by decide) (by decide)

/-- The partition of `2, 1, 4, 3` leaves `4` behind the key, and the result is
`3` in the place of `2.5`. -/
theorem findMedian_misses_least :
    ¬∃ value, Returns (findMedian exactInt · [2, 1, 4, 3]) value ∧
      2 * value = (twiceMedian [2, 1, 4, 3] : ℚ) := by
  rintro ⟨value, hreturns, hvalue⟩
  have hone : Arranges 2 .low ([] ++ [1]) [1] [] :=
    .moveLow (by decide) (.done .high)
  have hfour : Arranges 2 .low ([1] ++ [4]) [1] ([] ++ [4]) :=
    .keepHigh (by decide) hone
  have hthree : Arranges 2 .low ([1, 4] ++ [3]) [1] ([4] ++ [3]) :=
    .keepHigh (by decide) hfour
  have hselects : SelectsIn [2, 1, 4, 3] 1 2 [1, 4, 3] :=
    SelectsIn.found (by decide) hthree
  obtain ⟨other, hother, hiff⟩ :=
    findMedian_even (List.cons_ne_nil _ _) hselects rfl
  obtain rfl := hreturns.unique hother
  have hleast : NextIsLeast 2 [1, 4, 3] := hiff.mp hvalue
  have hbound : (4 : ℤ) ≤ 3 := hleast 4 (by decide) 3 (by decide) (by decide)
  exact absurd hbound (by decide)

example : findMedian exactInt 5 [2, 1, 4, 3] = some 3 := by
  decide +kernel

end Median

end KataCpp.QuickSelect
