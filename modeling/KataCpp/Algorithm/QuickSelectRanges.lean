import KataCpp.Algorithm.QuickSelect

/-!
# The ranges of a selection

The selection goes from a range to the elements on one side of its key, in the
order in which the partition has left them.  It ends if and only if no key on
this way occurs twice in its range: `SelectsIn` describes the way, and what the
array looks like at its end.

The upper bound of the first range is the number of elements less one,
converted to an `int`.  In arrays too large for an `int` it can be negative,
and then `mid` lies before every place at which the key could land.
-/

namespace KataCpp.QuickSelect

open Iteration MachineInt Segment
open scoped List

/-- The selection of the element of a rank goes from one range to the part that
has the rank, as long as the first element of the range occurs only once in it,
and ends in the range `key :: others`. -/
inductive SelectsIn : List ℤ → ℕ → ℤ → List ℤ → Prop
  | found {key : ℤ} {rest lower upper : List ℤ} (hkey : key ∉ rest)
      (harranges : Arranges key .low rest lower upper) :
      SelectsIn (key :: rest) lower.length key rest
  | inLower {first key : ℤ} {rest lower upper others : List ℤ} {rank : ℕ}
      (hfirst : first ∉ rest)
      (harranges : Arranges first .low rest lower upper)
      (hrest : SelectsIn lower rank key others) :
      SelectsIn (first :: rest) rank key others
  | inUpper {first key : ℤ} {rest lower upper others : List ℤ} {rank : ℕ}
      (hfirst : first ∉ rest)
      (harranges : Arranges first .low rest lower upper)
      (hrest : SelectsIn upper rank key others) :
      SelectsIn (first :: rest) (lower.length + 1 + rank) key others

theorem Arranges.length_eq {key : ℤ} {hole : Hole}
    {elements lower upper : List ℤ}
    (harranges : Arranges key hole elements lower upper) :
    lower.length + upper.length = elements.length := by
  rw [← List.length_append, harranges.perm.length_eq]

theorem SelectsIn.rank_lt {elements others : List ℤ} {rank : ℕ} {key : ℤ}
    (hselects : SelectsIn elements rank key others) :
    rank < elements.length := by
  induction hselects with
  | found hkey harranges =>
      have hlength := harranges.length_eq
      rw [List.length_cons]
      omega
  | inLower hfirst harranges hrest ih =>
      have hlength := harranges.length_eq
      rw [List.length_cons]
      omega
  | inUpper hfirst harranges hrest ih =>
      have hlength := harranges.length_eq
      rw [List.length_cons]
      omega

section Steps

variable {int : ℤ → ℤ} {mid low high pos : ℤ} {arr parted result : List ℤ}

theorem select_found
    (hpartition : Returns (partition · arr low high) (parted, mid)) :
    Returns (select int mid · arr low high) parted := by
  apply returns_of_succ
  refine hpartition.bind ?_
  simp only [if_pos]
  exact returns_some parted

theorem select_below
    (hpartition : Returns (partition · arr low high) (parted, pos))
    (hpos : mid < pos)
    (hrest : Returns (select int mid · parted low (int (pos - 1))) result) :
    Returns (select int mid · arr low high) result := by
  apply returns_of_succ
  refine hpartition.bind ?_
  simp only [if_neg hpos.ne', gt_iff_lt, if_pos hpos]
  exact hrest

theorem select_above
    (hpartition : Returns (partition · arr low high) (parted, pos))
    (hpos : pos < mid)
    (hrest : Returns (select int mid · parted (int (pos + 1)) high) result) :
    Returns (select int mid · arr low high) result := by
  apply returns_of_succ
  refine hpartition.bind ?_
  simp only [if_neg hpos.ne, gt_iff_lt, if_neg hpos.le.not_gt]
  exact hrest

end Steps

/-- The elements of a range lie between those before and those behind it, and
the first element behind it is the least of these. -/
structure Separated (before elements after : List ℤ) : Prop where
  before_lt : ∀ x ∈ before, ∀ y ∈ elements, x < y
  lt_after : ∀ y ∈ elements, ∀ z ∈ after, y < z
  head_le : ∀ z ∈ after.head?, ∀ w ∈ after, z ≤ w

section Separation

variable {before rest lower upper after : List ℤ} {first : ℤ}
  (harranges : Arranges first .low rest lower upper)
  (hseparated : Separated before (first :: rest) after)
include harranges hseparated

theorem Separated.inLower :
    Separated before lower (first :: (upper ++ after)) := by
  have hlower (x : ℤ) (hx : x ∈ lower) : x ∈ first :: rest :=
    List.mem_cons_of_mem _
      (harranges.perm.mem_iff.mp (List.mem_append_left _ hx))
  refine ⟨fun x hx y hy => hseparated.before_lt x hx y (hlower y hy), ?_, ?_⟩
  · intro y hy
    refine List.forall_mem_cons.mpr ⟨harranges.lower_lt y hy, ?_⟩
    refine List.forall_mem_append.mpr ⟨fun z hz => ?_,
      hseparated.lt_after y (hlower y hy)⟩
    exact (harranges.lower_lt y hy).trans (harranges.lt_upper z hz)
  · rintro z hz w hw
    obtain rfl : first = z := by simpa using hz
    rcases List.mem_cons.mp hw with rfl | hw
    · exact le_rfl
    rcases List.mem_append.mp hw with hw | hw
    · exact (harranges.lt_upper w hw).le
    · exact (hseparated.lt_after first List.mem_cons_self w hw).le

theorem Separated.inUpper :
    Separated (before ++ (lower ++ [first])) upper after := by
  have hupper (x : ℤ) (hx : x ∈ upper) : x ∈ first :: rest :=
    List.mem_cons_of_mem _
      (harranges.perm.mem_iff.mp (List.mem_append_right _ hx))
  refine ⟨?_, fun y hy => hseparated.lt_after y (hupper y hy),
    hseparated.head_le⟩
  intro x hx y hy
  have hfirst := harranges.lt_upper y hy
  rcases List.mem_append.mp hx with hx | hx
  · exact hseparated.before_lt x hx y (hupper y hy)
  rcases List.mem_append.mp hx with hx | hx
  · exact (harranges.lower_lt x hx).trans hfirst
  · rwa [List.mem_singleton.mp hx]

end Separation

theorem Arranges.key_perm {key : ℤ} {rest lower upper : List ℤ}
    (harranges : Arranges key .low rest lower upper) (after : List ℤ) :
    lower ++ key :: (upper ++ after) ~ key :: rest ++ after := by
  calc lower ++ key :: (upper ++ after)
    _ ~ key :: (lower ++ (upper ++ after)) := List.perm_middle
    _ ~ key :: (lower ++ upper ++ after) := by rw [List.append_assoc]
    _ ~ key :: rest ++ after := (harranges.perm.append_right after).cons key

/-- What has been passed when the selection goes to the upper part. -/
theorem length_passed {before : List ℤ} {low : ℤ} (lower : List ℤ)
    (first : ℤ) (hlow : low = before.length) :
    low + lower.length + 1 = (before ++ (lower ++ [first])).length := by
  rw [List.length_append, List.length_append, List.length_singleton]
  omega

theorem passed_append (before lower upper after : List ℤ) (first : ℤ) :
    before ++ (lower ++ [first]) ++ (upper ++ after) =
      before ++ (lower ++ first :: (upper ++ after)) := by
  simp

/-- The selection ends with the key at `mid`, in the range that it has come
to.  It leaves alone what stands behind the array. -/
theorem select_returns {elements others : List ℤ} {rank : ℕ} {key : ℤ}
    (hselects : SelectsIn elements rank key others) {int : ℤ → ℤ}
    {mid low high : ℤ} (before after tail : List ℤ)
    (hlow : low = before.length)
    (hhigh : high + 1 = before.length + elements.length)
    (hmid : mid = before.length + rank)
    (hint : ∀ value, 0 ≤ value → value ≤ high → int value = value) :
    ∃ front lower upper back, Arranges key .low others lower upper ∧
      Returns
        (select int mid · (before ++ (elements ++ (after ++ tail))) low high)
        (front ++ (lower ++ key :: (upper ++ (back ++ tail)))) ∧
      mid = front.length + lower.length ∧
      front ++ (lower ++ key :: (upper ++ back)) ~
        before ++ (elements ++ after) ∧
      (Separated before elements after →
        Separated front (key :: others) back) := by
  induction hselects generalizing low high before after with
  | @found key rest lower upper hkey harranges =>
      rw [List.length_cons] at hhigh
      have hpartition := partition_returns harranges before (after ++ tail)
        hlow (show high = low + rest.length by omega)
      rw [hlow, ← hmid] at hpartition
      rw [hlow]
      exact ⟨before, lower, upper, after, harranges,
        select_found hpartition, hmid,
        (harranges.key_perm after).append_left before, id⟩
  | @inLower first key rest lower upper others rank hfirst harranges hrest ih =>
      rw [List.length_cons] at hhigh
      have hrank := hrest.rank_lt
      have hlength := harranges.length_eq
      have hpartition := partition_returns harranges before (after ++ tail)
        hlow (show high = low + rest.length by omega)
      have hend : int (low + lower.length - 1) = low + lower.length - 1 :=
        hint _ (by omega) (by omega)
      obtain ⟨front, lower', upper', back, hlast, hselect, hplace, hperm,
        hseparated⟩ := ih before (first :: (upper ++ after)) hlow
          (show low + lower.length - 1 + 1 = before.length + lower.length by
            omega) hmid (fun value hpositive hvalue =>
              hint value hpositive (by omega))
      rw [← hend, List.cons_append, List.append_assoc] at hselect
      exact ⟨front, lower', upper', back, hlast,
        select_below hpartition (by omega) hselect, hplace,
        hperm.trans ((harranges.key_perm after).append_left before),
        fun hsplit => hseparated (hsplit.inLower harranges)⟩
  | @inUpper first key rest lower upper others rank hfirst harranges hrest ih =>
      rw [List.length_cons] at hhigh
      have hrank := hrest.rank_lt
      have hlength := harranges.length_eq
      have hpartition := partition_returns harranges before (after ++ tail)
        hlow (show high = low + rest.length by omega)
      have hnext : int (low + lower.length + 1) = low + lower.length + 1 :=
        hint _ (by omega) (by omega)
      have hbefore := length_passed lower first hlow
      obtain ⟨front, lower', upper', back, hlast, hselect, hplace, hperm,
        hseparated⟩ := ih (before ++ (lower ++ [first])) after hbefore
          (show high + 1 = _ by omega) (by omega) hint
      rw [passed_append] at hselect hperm
      rw [← hnext] at hselect
      exact ⟨front, lower', upper', back, hlast,
        select_above hpartition (by omega) hselect, hplace,
        hperm.trans ((harranges.key_perm after).append_left before),
        fun hsplit => hseparated (hsplit.inUpper harranges)⟩

/-- A partition that ends has a key that occurs once. -/
theorem arranges_of_partition {fuel : ℕ} {first low high pos : ℤ}
    {parted rest : List ℤ} (before after : List ℤ)
    (hlow : low = before.length) (hhigh : high = low + rest.length)
    (hparted : partition fuel (before ++ (first :: rest ++ after)) low high =
      some (parted, pos)) :
    first ∉ rest ∧ ∃ lower upper, Arranges first .low rest lower upper ∧
      parted = before ++ (lower ++ first :: (upper ++ after)) ∧
      pos = low + lower.length := by
  by_cases hfirst : first ∈ rest
  · rw [partition_of_mem hfirst fuel before after hlow hhigh] at hparted
    exact absurd hparted.symm (Option.some_ne_none _)
  · obtain ⟨lower, upper, harranges⟩ := exists_arranges .low rest hfirst
    have hreturns : Returns
        (partition · (before ++ (first :: rest ++ after)) low high)
        (parted, pos) :=
      returns_of_eq_some (fun _ => partition_succ) hparted
    have hunique := hreturns.unique
      (partition_returns harranges before after hlow hhigh)
    exact ⟨hfirst, lower, upper, harranges, Prod.mk.inj hunique⟩

/-- A selection that ends has gone through such ranges. -/
theorem selectsIn_of_select {int : ℤ → ℤ} {mid low high : ℤ} {fuel : ℕ}
    {result : List ℤ} (before elements after : List ℤ) {rank : ℕ}
    (hlow : low = before.length)
    (hhigh : high + 1 = before.length + elements.length)
    (hmid : mid = before.length + rank) (hrank : rank < elements.length)
    (hint : ∀ value, 0 ≤ value → value ≤ high → int value = value)
    (hselect : select int mid fuel (before ++ (elements ++ after)) low high =
      some result) :
    ∃ key others, SelectsIn elements rank key others := by
  induction fuel generalizing low high before elements after rank with
  | zero => exact absurd hselect.symm (Option.some_ne_none result)
  | succ fuel ih =>
      cases elements with
      | nil => exact absurd hrank (Nat.not_lt_zero rank)
      | cons first rest =>
          rw [List.length_cons] at hhigh hrank
          have hend : high = low + rest.length := by omega
          rw [select, Option.bind_eq_bind, Option.bind_eq_some_iff] at hselect
          obtain ⟨⟨parted, pos⟩, hparted, hselect⟩ := hselect
          obtain ⟨hfirst, lower, upper, harranges, rfl, rfl⟩ :=
            arranges_of_partition before after hlow hend hparted
          have hlength := harranges.length_eq
          dsimp only at hselect
          split_ifs at hselect with hfound hbelow
          · have hplace : rank = lower.length := by omega
            exact ⟨first, rest, hplace ▸ SelectsIn.found hfirst harranges⟩
          · rw [hint _ (by omega) (by omega)] at hselect
            obtain ⟨key, others, hrest⟩ := ih before lower
              (first :: (upper ++ after)) hlow
              (show low + lower.length - 1 + 1 = _ by omega) hmid (by omega)
              (fun value hpositive hvalue => hint value hpositive (by omega))
              hselect
            exact ⟨key, others, hrest.inLower hfirst harranges⟩
          · rw [hint _ (by omega) (by omega)] at hselect
            obtain ⟨rank, rfl⟩ : ∃ inner, rank = lower.length + 1 + inner :=
              ⟨rank - lower.length - 1, by omega⟩
            have hbefore := length_passed lower first hlow
            have hplace : mid =
                (before ++ (lower ++ [first])).length + (rank : ℤ) := by
              omega
            rw [← passed_append] at hselect
            obtain ⟨key, others, hrest⟩ := ih (before ++ (lower ++ [first]))
              upper after hbefore (by omega) hplace (by omega) hint
              hselect
            exact ⟨key, others, hrest.inUpper hfirst harranges⟩

section Termination

variable {nums : List ℤ} {high : ℤ}

theorem findMedian_eq_none {int : ℤ → ℤ} {mid : ℤ} {fuel : ℕ}
    (hhigh : int (nums.length - 1) = high)
    (hmid : (int (0 + high)).tdiv 2 = mid)
    (hselect : select int mid fuel nums 0 high = none) :
    findMedian int fuel nums = none := by
  simp only [findMedian, hhigh, hmid, hselect]
  rfl

theorem findMedian_returns {int : ℤ → ℤ} {mid : ℤ} {result : List ℤ}
    {value : ℚ} (hhigh : int (nums.length - 1) = high)
    (hmid : (int (0 + high)).tdiv 2 = mid)
    (hselect : Returns (select int mid · nums 0 high) result)
    (hvalue : median int result mid = some value) :
    Returns (findMedian int · nums) value := by
  simp only [findMedian, hhigh, hmid]
  refine hselect.bind ?_
  simp only [hvalue]
  exact returns_some value

/-- An array with an element at `mid` and at the place behind it, which is read
if the number of elements is even. -/
theorem exists_median {int : ℤ → ℤ} {arr : List ℤ} {mid : ℤ} (hmid : 0 ≤ mid)
    (hnext : int (mid + 1) = mid + 1) (hlength : mid < arr.length)
    (heven : arr.length % 2 = 0 → mid + 1 < arr.length) :
    ∃ value, median int arr mid = some value := by
  obtain ⟨place, rfl⟩ := Int.eq_ofNat_of_zero_le hmid
  have hplace : place < arr.length := by omega
  rw [median]
  split_ifs with hparity
  · have hsecond : place + 1 < arr.length := by omega
    rw [hnext, read_natCast, List.getElem?_eq_getElem hplace,
      ← Nat.cast_succ, read_natCast, List.getElem?_eq_getElem hsecond]
    exact ⟨_, rfl⟩
  · rw [read_natCast, List.getElem?_eq_getElem hplace]
    exact ⟨_, rfl⟩

theorem partition_of_le (first : ℤ) (rest : List ℤ) (hhigh : high ≤ 0) :
    Returns (partition · (first :: rest) 0 high) (first :: rest, 0) := by
  have hread : read (first :: rest) 0 = some first := by
    rw [← List.nil_append (first :: rest)]
    exact read_append_cons rfl
  have hwrite : write (first :: rest) 0 first = some (first :: rest) := by
    rw [← List.nil_append (first :: rest)]
    exact write_append_cons rfl first
  have hloop : Returns (scanLoop first · ⟨first :: rest, 0, high⟩)
      ⟨first :: rest, 0, high⟩ :=
    returns_of_exit (whilePass_of_not (by dsimp only; omega))
  simp only [partition, hread, Option.bind_eq_bind, Option.bind_some]
  refine hloop.bind ?_
  simp only [hwrite, Option.bind_some]
  exact returns_some _

/-- The first element never lands at a `mid` below it, and there is no range to
go on with. -/
theorem select_of_mid_neg {mid : ℤ} (hmid : mid < 0) (fuel : ℕ) (first : ℤ)
    (rest : List ℤ) (hhigh : high ≤ 0) :
    select wrap32 mid fuel (first :: rest) 0 high = none := by
  induction fuel generalizing high with
  | zero => rfl
  | succ fuel ih =>
      rw [select]
      cases hparted : partition fuel (first :: rest) 0 high with
      | none => rfl
      | some parted =>
          obtain rfl := (partition_of_le first rest hhigh).unique
            (returns_of_eq_some (fun _ => partition_succ) hparted)
          rw [Option.bind_eq_bind, Option.bind_some]
          simp only [if_neg hmid.ne', gt_iff_lt, if_pos hmid]
          apply ih
          decide

theorem select_of_high_lt {fuel : ℕ} (hnums : nums ≠ [])
    (hhigh : wrap32 (nums.length - 1) = high) (hlt : high < -1) :
    select wrap32 ((wrap32 (0 + high)).tdiv 2) fuel nums 0 high = none := by
  obtain ⟨first, rest, rfl⟩ := List.exists_cons_of_ne_nil hnums
  have hlower := le_wrap32 (((first :: rest).length : ℤ) - 1)
  apply select_of_mid_neg _ fuel first rest (by omega)
  have hopposite : high.tdiv 2 = -(-high).tdiv 2 := by
    rw [Int.neg_tdiv, neg_neg]
  rw [zero_add, wrap32_eq_self (by omega) (by omega), hopposite,
    Int.tdiv_eq_ediv_of_nonneg (by omega)]
  omega

theorem findMedian_of_high_lt {fuel : ℕ} (hnums : nums ≠ [])
    (hhigh : wrap32 (nums.length - 1) = high) (hlt : high < -1) :
    findMedian wrap32 fuel nums = none :=
  findMedian_eq_none hhigh rfl (select_of_high_lt hnums hhigh hlt)

theorem findMedian_of_high_eq (hnums : nums ≠ [])
    (hhigh : wrap32 (nums.length - 1) = -1) :
    ∃ value, Returns (findMedian wrap32 · nums) value := by
  obtain ⟨first, rest, rfl⟩ := List.exists_cons_of_ne_nil hnums
  have hlength : 1 < (first :: rest).length := by
    by_contra hshort
    have hone : ((first :: rest).length : ℤ) - 1 = 0 := by
      rw [List.length_cons] at hshort ⊢
      omega
    rw [hone] at hhigh
    exact absurd hhigh (by decide)
  have hselect : Returns (select wrap32 0 · (first :: rest) 0 (-1))
      (first :: rest) :=
    select_found (partition_of_le first rest (by omega))
  obtain ⟨value, hvalue⟩ : ∃ value, median wrap32 (first :: rest) 0 =
      some value :=
    exists_median le_rfl (by decide) (by omega) (by omega)
  exact ⟨value, findMedian_returns hhigh (by decide) hselect hvalue⟩

theorem high_le_length (hhigh : wrap32 (nums.length - 1) = high)
    (hnonneg : 0 ≤ high) : high ≤ nums.length - 1 := by
  rw [← hhigh]
  apply wrap32_le
  by_contra hempty
  have hnone : (nums.length : ℤ) - 1 = -1 := by omega
  rw [hnone] at hhigh
  have hminus : wrap32 (-1) = -1 := by decide
  omega

theorem mid_eq_half (hnonneg : 0 ≤ high) (hupper : high < 2 ^ 31) :
    (wrap32 (0 + high)).tdiv 2 = ((high.toNat / 2 : ℕ) : ℤ) := by
  rw [zero_add, wrap32_eq_self (by omega) hupper,
    Int.tdiv_eq_ediv_of_nonneg hnonneg]
  omega

/-- The first range starts at the first element. -/
theorem findMedian_iff_selectsIn (hhigh : wrap32 (nums.length - 1) = high)
    (hnonneg : 0 ≤ high) :
    (∃ value, Returns (findMedian wrap32 · nums) value) ↔
      ∃ key others, SelectsIn (slice nums 0 high) (high.toNat / 2) key
        others := by
  have hsize := high_le_length hhigh hnonneg
  have hupper : high < 2 ^ 31 := hhigh ▸ wrap32_lt _
  have hmid := mid_eq_half hnonneg hupper
  have hinside : ((high.toNat / 2 : ℕ) : ℤ) < nums.length := by
    omega
  have heven : nums.length % 2 = 0 →
      ((high.toNat / 2 : ℕ) : ℤ) + 1 < nums.length := by
    omega
  have harr : nums = [] ++ (slice nums 0 high ++
      nums.drop (high + 1).toNat) := by
    simpa using eq_append_slice nums le_rfl (show 0 ≤ high + 1 by omega)
  have hlength : ((slice nums 0 high).length : ℤ) = high + 1 := by
    rw [length_slice nums le_rfl (by omega) (by omega), sub_zero]
  have hint (value : ℤ) (hpositive : 0 ≤ value) (hvalue : value ≤ high) :
      wrap32 value = value :=
    wrap32_eq_self (by omega) (by omega)
  constructor
  · rintro ⟨value, bound, hbound⟩
    have hfuel := hbound bound le_rfl
    cases hselect : select wrap32 ((high.toNat / 2 : ℕ) : ℤ) bound nums 0
        high with
    | none =>
        dsimp only at hfuel
        rw [findMedian_eq_none hhigh hmid hselect] at hfuel
        exact absurd hfuel.symm (Option.some_ne_none value)
    | some result =>
        rw [harr] at hselect
        apply selectsIn_of_select [] _ _ rfl _ _ _ hint hselect
        · rw [List.length_nil, hlength]
          omega
        · simp
        · omega
  · rintro ⟨key, others, hselects⟩
    obtain ⟨front, lower, upper, back, -, hselect, hplace, hperm, -⟩ :=
      select_returns hselects [] (nums.drop (high + 1).toNat) [] rfl
        (by rw [List.length_nil, hlength]; omega) rfl hint
    rw [List.append_nil, List.append_nil] at hselect
    rw [← harr] at hselect hperm
    rw [List.length_nil, Nat.cast_zero, zero_add] at hselect
    have hkept := hperm.length_eq
    have hnext : wrap32 (((high.toNat / 2 : ℕ) : ℤ) + 1) =
        ((high.toNat / 2 : ℕ) : ℤ) + 1 :=
      wrap32_eq_self (by omega) (by omega)
    obtain ⟨value, hvalue⟩ := exists_median (Int.natCast_nonneg _) hnext
      (hkept ▸ hinside) (hkept ▸ heven)
    exact ⟨value, findMedian_returns hhigh hmid hselect hvalue⟩

/-- The selection loop and the partitions end exactly if the bound of the whole
range is a proper one and every range has a first element that occurs in it
only once. -/
theorem findMedian_terminates_iff {nums : List ℤ} (hnums : nums ≠ []) :
    (∃ value, Returns (findMedian wrap32 · nums) value) ↔
      wrap32 (nums.length - 1) = -1 ∨ (0 ≤ wrap32 (nums.length - 1) ∧
        ∃ key others, SelectsIn
          (slice nums 0 (wrap32 (nums.length - 1)))
          ((wrap32 (nums.length - 1)).toNat / 2) key others) := by
  generalize hhigh : wrap32 (nums.length - 1) = high
  rcases lt_trichotomy high (-1) with hlt | rfl | hgt
  · have hnever : ¬∃ value, Returns (findMedian wrap32 · nums) value := by
      rintro ⟨value, hreturns⟩
      exact not_returns (fun _ => findMedian_of_high_lt hnums hhigh hlt) value
        hreturns
    refine iff_of_false hnever ?_
    rintro (heq | ⟨hnonneg, -⟩) <;> omega
  · exact iff_of_true (findMedian_of_high_eq hnums hhigh) (Or.inl rfl)
  · have hnonneg : 0 ≤ high := by omega
    rw [findMedian_iff_selectsIn hhigh hnonneg]
    constructor
    · exact fun hselects => Or.inr ⟨hnonneg, hselects⟩
    · rintro (heq | ⟨-, hselects⟩)
      · omega
      · exact hselects

theorem findMedian_terminates_iff_of_two :
    (∃ value, Returns (findMedian wrap32 · [2, 1]) value) ↔
      wrap32 (([2, 1] : List ℤ).length - 1) = -1 ∨
        (0 ≤ wrap32 (([2, 1] : List ℤ).length - 1) ∧
          ∃ key others, SelectsIn
            (slice [2, 1] 0 (wrap32 (([2, 1] : List ℤ).length - 1)))
            ((wrap32 (([2, 1] : List ℤ).length - 1)).toNat / 2) key others) :=
  findMedian_terminates_iff (List.cons_ne_nil 2 [1])

/-- A vector of two equal elements. -/
theorem findMedian_loops_on_equal :
    ¬∃ value, Returns (findMedian wrap32 · [5, 5]) value := by
  rintro ⟨value, hreturns⟩
  have hselect (fuel : ℕ) : select wrap32 0 fuel [5, 5] 0 1 = none := by
    cases fuel with
    | zero => rfl
    | succ fuel =>
        have hnone : partition fuel [5, 5] 0 1 = none :=
          partition_of_mem (List.mem_singleton_self 5) fuel [] [] rfl rfl
        rw [select, hnone]
        rfl
  have hnone (fuel : ℕ) : findMedian wrap32 fuel [5, 5] = none :=
    findMedian_eq_none (by decide) (by decide) (hselect fuel)
  exact not_returns hnone value hreturns

end Termination

end KataCpp.QuickSelect
