import KataCpp.Core.Iteration
import KataCpp.Core.MachineInt
import KataCpp.Core.Segment

/-!
# Binary search

`binary_search` halves the part of an ascending vector in which the target can
be.  The bounds of the part are inclusive and of type `int`: in a vector whose
last subscript is the greatest `int` there is no bound behind the last element,
and in a larger one the search sees the elements only that an `int` can count.
-/

namespace KataCpp.BinarySearch

open Iteration MachineInt Segment

/-- A pass of the loop, on `left` and `right`. -/
def searchPass (arr : List ℤ) (target : ℤ) (bounds : ℤ × ℤ) :
    Outcome (ℤ × ℤ) ℤ :=
  if bounds.1 ≤ bounds.2 then
    let mid := wrap32 (bounds.1 + (wrap32 (bounds.2 - bounds.1)).tdiv 2)
    match read arr mid with
    | none => .fault
    | some x =>
        if x = target then .exit mid
        else if x < target then .next (wrap32 (mid + 1), bounds.2)
        else .next (bounds.1, wrap32 (mid - 1))
  else .exit (-1)

def binarySearch (arr : List ℤ) (target : ℤ) (fuel : ℕ) : Option ℤ :=
  loop (searchPass arr target) fuel (0, wrap32 (arr.length - 1))

/-- The result is the subscript of the target if it occurs, and `-1` exactly if
it does not. -/
def Finds (arr : List ℤ) (target result : ℤ) : Prop :=
  (target ∈ arr → read arr result = some target) ∧
    (result = -1 ↔ target ∉ arr)

/-- The elements that the search can come to. -/
def visible (arr : List ℤ) : List ℤ :=
  arr.take (wrap32 (arr.length - 1) + 1).toNat

/-- The search sees the target if it occurs, and in the greatest part that it
can see something is not below the target. -/
def Reachable (arr : List ℤ) (target : ℤ) : Prop :=
  (target ∈ arr → target ∈ visible arr) ∧
    ((visible arr).length = 2 ^ 31 → ∃ x ∈ visible arr, target ≤ x)

theorem reachable_of_length_lt {arr : List ℤ} (hlength : arr.length < 2 ^ 31)
    (target : ℤ) : Reachable arr target := by
  have hvisible : visible arr = arr := by
    rw [visible, wrap32_eq_self (by omega) (by omega)]
    exact List.take_of_length_le (by omega)
  rw [Reachable, hvisible]
  exact ⟨id, fun hlast => absurd hlast hlength.ne⟩

/-- The target can be only at the subscripts from `left` up to, but not
including, `stop`. -/
structure Narrowed (seen : List ℤ) (target : ℤ) (left stop : ℕ) : Prop where
  le : left ≤ stop
  stop_le : stop ≤ seen.length
  below : ∀ index (hindex : index < seen.length), index < left →
    seen[index] < target
  above : ∀ index (hindex : index < seen.length), stop ≤ index →
    target < seen[index]

section Halving

variable {seen rest : List ℤ} {target : ℤ} {left stop : ℕ}

/-- The middle element is in the part and decides what happens. -/
theorem searchPass_of_lt (hlength : seen.length ≤ 2 ^ 31) (hleft : left < stop)
    (hstop : stop ≤ seen.length) :
    ∃ mid, ∃ hmid : mid < seen.length, left ≤ mid ∧ mid < stop ∧
      searchPass (seen ++ rest) target (left, (stop : ℤ) - 1) =
        if seen[mid] = target then .exit mid
        else if seen[mid] < target then
          .next (wrap32 (mid + 1), (stop : ℤ) - 1)
        else .next (left, (mid : ℤ) - 1) := by
  let mid := left + (stop - 1 - left) / 2
  have hmid : mid < seen.length := by omega
  have hvalue : wrap32 ((left : ℤ) +
      (wrap32 ((stop : ℤ) - 1 - left)).tdiv 2) = mid := by
    have hspan : wrap32 ((stop : ℤ) - 1 - left) = stop - 1 - left :=
      wrap32_eq_self (by omega) (by omega)
    rw [hspan, Int.tdiv_eq_ediv_of_nonneg (by omega)]
    rw [wrap32_eq_self (by omega) (by omega)]
    omega
  have hread : read (seen ++ rest) mid = some seen[mid] := by
    rw [read_natCast, List.getElem?_append_left hmid,
      List.getElem?_eq_getElem hmid]
  have hlower : wrap32 ((mid : ℤ) - 1) = mid - 1 :=
    wrap32_eq_self (by omega) (by omega)
  refine ⟨mid, hmid, by omega, by omega, ?_⟩
  rw [searchPass, if_pos (by dsimp only; omega)]
  simp only [hvalue, hread, hlower]

theorem searchPass_of_le (hstop : stop ≤ left) (arr : List ℤ) :
    searchPass arr target (left, (stop : ℤ) - 1) = .exit (-1) :=
  if_neg (by dsimp only; omega)

/-- The middle of all `int` values is computed as the least one. -/
theorem searchPass_overflow (arr : List ℤ) (target : ℤ) :
    searchPass arr target (-2 ^ 31, 2 ^ 31 - 1) = .fault := by
  have hmid : wrap32 (-2 ^ 31 + (wrap32 (2 ^ 31 - 1 - -2 ^ 31)).tdiv 2) =
      -2 ^ 31 := by
    decide
  rw [searchPass, if_pos (by norm_num)]
  simp only [hmid]
  rw [read_of_neg (by norm_num)]

theorem getElem_le_getElem (hsorted : seen.Pairwise (· ≤ ·)) {first second : ℕ}
    (hle : first ≤ second) (hsecond : second < seen.length) :
    seen[first] ≤ seen[second] := by
  rcases hle.eq_or_lt with rfl | hless
  · exact le_rfl
  · exact List.pairwise_iff_getElem.mp hsorted first second _ hsecond hless

/-- The lower half is left out. -/
theorem Narrowed.raise (hnarrowed : Narrowed seen target left stop)
    (hsorted : seen.Pairwise (· ≤ ·)) {mid : ℕ} (hmid : mid < seen.length)
    (hupper : mid < stop) (hless : seen[mid] < target) :
    Narrowed seen target (mid + 1) stop where
  le := hupper
  stop_le := hnarrowed.stop_le
  below := fun _ _ hbelow => (getElem_le_getElem hsorted
    (Nat.le_of_lt_succ hbelow) hmid).trans_lt hless
  above := hnarrowed.above

/-- The upper half is left out. -/
theorem Narrowed.lower (hnarrowed : Narrowed seen target left stop)
    (hsorted : seen.Pairwise (· ≤ ·)) {mid : ℕ} (hmid : mid < seen.length)
    (hlower : left ≤ mid) (hgreater : target < seen[mid]) :
    Narrowed seen target left mid where
  le := hlower
  stop_le := hmid.le
  below := hnarrowed.below
  above := fun _ hindex habove => hgreater.trans_le
    (getElem_le_getElem hsorted habove hindex)

/-- Nothing is left when the bounds have crossed. -/
theorem Narrowed.notMem (hnarrowed : Narrowed seen target left stop)
    (hstop : stop ≤ left) : target ∉ seen := by
  intro hmem
  obtain ⟨index, hindex, hvalue⟩ := List.mem_iff_getElem.mp hmem
  rcases lt_or_ge index left with hbelow | habove
  · exact (hnarrowed.below index hindex hbelow).ne hvalue
  · exact (hnarrowed.above index hindex (hstop.trans habove)).ne' hvalue

/-- The subscript of the target in what is seen, or `-1` if it is not there. -/
def FoundIn (seen : List ℤ) (target result : ℤ) : Prop :=
  (∃ index : ℕ, result = index ∧ seen[index]? = some target) ∨
    result = -1 ∧ target ∉ seen

/-- The bounds of a search that has been narrowed, with their distance. -/
def Searching (seen : List ℤ) (target : ℤ) (variant : ℕ) (bounds : ℤ × ℤ) :
    Prop :=
  ∃ left stop : ℕ, variant = stop - left ∧
    bounds = ((left : ℤ), (stop : ℤ) - 1) ∧ Narrowed seen target left stop

/-- The upper bound of the search is moved only to where an `int` can go. -/
theorem search_returns (hsorted : seen.Pairwise (· ≤ ·))
    (hlength : seen.length ≤ 2 ^ 31)
    (hlast : seen.length = 2 ^ 31 → ∃ x ∈ seen, target ≤ x)
    (hnarrowed : Narrowed seen target left stop) :
    ∃ result, Returns (loop (searchPass (seen ++ rest) target) ·
        (left, (stop : ℤ) - 1)) result ∧
      FoundIn seen target result := by
  refine loop_returns (Searching seen target) ?_
    ⟨left, stop, rfl, rfl, hnarrowed⟩
  rintro _ _ ⟨left, stop, rfl, rfl, hnarrowed⟩
  rcases lt_or_ge left stop with hless | hcrossed
  · obtain ⟨mid, hmid, hlower, hupper, hpass⟩ :=
      @searchPass_of_lt seen rest target left stop hlength hless
        hnarrowed.stop_le
    rcases lt_trichotomy seen[mid] target with hbelow | hequal | habove
    · -- no overflow: in the greatest part the last element is not below
      have hnext : mid + 1 < 2 ^ 31 := by
        by_contra hlimit
        obtain ⟨x, hx, hle⟩ := hlast (by omega)
        obtain ⟨index, hindex, rfl⟩ := List.mem_iff_getElem.mp hx
        have horder := getElem_le_getElem hsorted (by omega : index ≤ mid) hmid
        omega
      have hvalue : wrap32 ((mid : ℤ) + 1) = (mid + 1 : ℕ) :=
        wrap32_natCast hnext
      rw [if_neg hbelow.ne, if_pos hbelow, hvalue] at hpass
      exact .inl ⟨stop - (mid + 1), _, hpass, by omega, mid + 1, stop, rfl, rfl,
        hnarrowed.raise hsorted hmid hupper hbelow⟩
    · rw [if_pos hequal] at hpass
      refine .inr ⟨mid, hpass, .inl ⟨mid, rfl, ?_⟩⟩
      rw [List.getElem?_eq_getElem hmid, hequal]
    · rw [if_neg habove.ne', if_neg habove.not_gt] at hpass
      exact .inl ⟨mid - left, _, hpass, by omega, left, mid, rfl, rfl,
        hnarrowed.lower hsorted hmid hlower habove⟩
  · exact .inr ⟨-1, searchPass_of_le hcrossed _,
      .inr ⟨rfl, hnarrowed.notMem hcrossed⟩⟩

/-- Behind the greatest subscript the lower bound becomes negative. -/
theorem search_faults (hlength : seen.length = 2 ^ 31)
    (hbelow : ∀ x ∈ seen, x < target) (hleft : left < seen.length)
    (fuel : ℕ) :
    loop (searchPass (seen ++ rest) target) fuel
      (left, (seen.length : ℤ) - 1) = none := by
  induction hvariant : seen.length - left using Nat.strong_induction_on
    generalizing left fuel with
  | _ variant ih =>
      obtain ⟨mid, hmid, hlower, -, hpass⟩ :=
        @searchPass_of_lt seen rest target left seen.length hlength.le hleft
          le_rfl
      have hless := hbelow seen[mid] (List.getElem_mem hmid)
      rw [if_neg hless.ne, if_pos hless] at hpass
      apply loop_of_next hpass
      rcases lt_or_ge (mid + 1) seen.length with hnext | hnext
      · have hvalue : wrap32 ((mid : ℤ) + 1) = (mid + 1 : ℕ) :=
          wrap32_natCast (hlength ▸ hnext)
        intro more
        rw [hvalue]
        exact ih (seen.length - (mid + 1)) (by omega) hnext more rfl
      · have hvalue : (mid : ℤ) + 1 = (2 ^ 31 : ℕ) := by omega
        have hright : (seen.length : ℤ) - 1 = 2 ^ 31 - 1 := by omega
        rw [hvalue, wrap32_int_overflow, hright]
        exact loop_of_fault (searchPass_overflow _ target)

end Halving

theorem length_visible_le (arr : List ℤ) : (visible arr).length ≤ 2 ^ 31 := by
  have hupper := wrap32_lt (arr.length - 1)
  rw [visible, List.length_take]
  omega

/-- The search starts with the bounds of what it sees, or with none. -/
theorem start_eq (arr : List ℤ) (hvisible : 0 ≤ wrap32 (arr.length - 1)) :
    wrap32 (arr.length - 1) = (visible arr).length - 1 := by
  have hle : wrap32 ((arr.length : ℤ) - 1) ≤ arr.length - 1 := by
    rcases Nat.eq_zero_or_pos arr.length with hzero | hpositive
    · rw [hzero] at hvisible ⊢
      revert hvisible
      decide
    · exact wrap32_le (by omega)
  rw [visible, List.length_take]
  omega

theorem narrowed_start (seen : List ℤ) (target : ℤ) :
    Narrowed seen target 0 seen.length where
  le := Nat.zero_le _
  stop_le := le_rfl
  below := fun _ _ hbelow => absurd hbelow (Nat.not_lt_zero _)
  above := fun _ hindex habove => absurd hindex habove.not_gt

section Search

variable {arr : List ℤ} {target : ℤ}

/-- What the search does in the part that it sees. -/
theorem binarySearch_returns (hsorted : arr.Pairwise (· ≤ ·))
    (hlast : (visible arr).length = 2 ^ 31 → ∃ x ∈ visible arr, target ≤ x) :
    ∃ result, Returns (binarySearch arr target) result ∧
      FoundIn (visible arr) target result := by
  rcases lt_or_ge (wrap32 (arr.length - 1)) 0 with hnegative | hvisible
  · have hnone : visible arr = [] := by
      rw [visible, Int.toNat_of_nonpos (by omega), List.take_zero]
    refine ⟨-1, returns_of_exit (if_neg hnegative.not_ge), .inr ⟨rfl, ?_⟩⟩
    simp [hnone]
  · have hsplit : visible arr ++
        arr.drop (wrap32 (arr.length - 1) + 1).toNat = arr :=
      List.take_append_drop _ arr
    have hseen : (visible arr).Pairwise (· ≤ ·) :=
      hsorted.sublist (List.take_sublist _ arr)
    have hsearch := @search_returns _
      (arr.drop (wrap32 (arr.length - 1) + 1).toNat) target _ _ hseen
      (length_visible_le arr) hlast (narrowed_start _ target)
    rw [hsplit, ← start_eq arr hvisible] at hsearch
    exact hsearch

/-- A target above the greatest part that can be seen makes the search read
outside of the vector. -/
theorem binarySearch_faults (hlength : (visible arr).length = 2 ^ 31)
    (hbelow : ∀ x ∈ visible arr, x < target) (fuel : ℕ) :
    binarySearch arr target fuel = none := by
  have hvisible : 0 ≤ wrap32 (arr.length - 1) := by
    by_contra hnegative
    rw [visible, Int.toNat_of_nonpos (by omega), List.take_zero] at hlength
    exact absurd hlength (by norm_num)
  have hsplit : visible arr ++
      arr.drop (wrap32 (arr.length - 1) + 1).toNat = arr :=
    List.take_append_drop _ arr
  have hfaults := @search_faults _
    (arr.drop (wrap32 (arr.length - 1) + 1).toNat) target 0 hlength hbelow
    (by omega) fuel
  rw [hsplit, ← start_eq arr hvisible] at hfaults
  exact hfaults

theorem FoundIn.finds {result : ℤ}
    (hfound : FoundIn (visible arr) target result)
    (hseen : target ∈ arr → target ∈ visible arr) :
    Finds arr target result := by
  rcases hfound with ⟨index, rfl, hindex⟩ | ⟨rfl, habsent⟩
  · have harr : arr[index]? = some target := by
      obtain ⟨hlength, hvalue⟩ := List.getElem?_eq_some_iff.mp hindex
      rw [← hvalue]
      simp only [visible, List.getElem_take]
      rw [List.getElem?_eq_getElem]
    refine ⟨fun _ => by rw [read_natCast, harr], ?_⟩
    have hmem := List.mem_of_getElem? harr
    exact iff_of_false (by omega) (not_not.mpr hmem)
  · have habsent' := mt hseen habsent
    exact ⟨fun hmem => absurd hmem habsent', iff_of_true rfl habsent'⟩

/-- The search is right exactly when the vector has less than `2 ^ 31` elements,
or the part that it sees has the target and, if its last subscript is the
greatest `int`, an element that is not below the target. -/
theorem binarySearch_finds_iff (hsorted : arr.Pairwise (· ≤ ·)) :
    (∃ result, Returns (binarySearch arr target) result ∧
      Finds arr target result) ↔
      arr.length < 2 ^ 31 ∨ Reachable arr target := by
  rw [or_iff_right_of_imp fun hlength => reachable_of_length_lt hlength target]
  constructor
  · rintro ⟨result, hreturns, hfinds⟩
    have hlast : (visible arr).length = 2 ^ 31 →
        ∃ x ∈ visible arr, target ≤ x := by
      intro hlength
      by_contra hnone
      push Not at hnone
      exact not_returns (binarySearch_faults hlength hnone) result hreturns
    obtain ⟨other, hother, hfound⟩ := binarySearch_returns hsorted hlast
    obtain rfl := hreturns.unique hother
    refine ⟨fun hmem => ?_, hlast⟩
    rcases hfound with ⟨index, -, hindex⟩ | ⟨hresult, -⟩
    · exact List.mem_of_getElem? hindex
    · exact absurd hmem (hfinds.2.mp hresult)
  · rintro ⟨hseen, hlast⟩
    obtain ⟨result, hreturns, hfound⟩ := binarySearch_returns hsorted hlast
    exact ⟨result, hreturns, hfound.finds hseen⟩

end Search

theorem binarySearch_finds_iff_five_elements :
    ∃ result, Returns (binarySearch [2, 3, 4, 10, 40] 10) result ∧
      Finds [2, 3, 4, 10, 40] 10 result :=
  (binarySearch_finds_iff (by decide)).mpr (.inl (by decide))

/-- A vector whose last subscript is negative as an `int` is not searched. -/
theorem binarySearch_of_negative {arr : List ℤ} (target : ℤ)
    (hlower : 2 ^ 31 < arr.length) (hupper : arr.length ≤ 2 ^ 32) :
    Returns (binarySearch arr target) (-1) := by
  have hnegative : wrap32 ((arr.length : ℤ) - 1) < 0 :=
    wrap32_neg (by omega) (by omega)
  exact returns_of_exit (if_neg hnegative.not_ge)

theorem binarySearch_misses_zero :
    (List.replicate (2 ^ 31 + 1) (0 : ℤ)).Pairwise (· ≤ ·) ∧
      Returns (binarySearch (List.replicate (2 ^ 31 + 1) 0) 0) (-1) ∧
      ¬ Finds (List.replicate (2 ^ 31 + 1) 0) 0 (-1) := by
  have hlength : (List.replicate (2 ^ 31 + 1) (0 : ℤ)).length = 2 ^ 31 + 1 :=
    List.length_replicate
  refine ⟨List.pairwise_replicate.mpr (.inr le_rfl),
    binarySearch_of_negative 0 (by omega) (by omega), ?_⟩
  rintro ⟨-, habsent⟩
  refine habsent.mp rfl (List.mem_replicate.mpr ⟨?_, rfl⟩)
  omega

end KataCpp.BinarySearch
