import KataCpp.Core.Iteration
import KataCpp.Core.MachineInt
import KataCpp.Core.Segment

/-!
# Insertion sort

`insert_sort` takes the elements one after the other and moves the greater ones
among those before up by one place, until there is room for the element.  While
it does so the element itself is not in the array, and the last element that was
moved is in it twice: there is a hole in the array, whose value does not matter.

The number of elements is an `int`, so that an array may have more elements
than the function counts.
-/

namespace KataCpp.InsertSort

open Iteration MachineInt Segment
open scoped List

/-- A pass of the loop that moves the elements greater than `key`, on `arr` and
`j`. -/
def shiftPass (key : ℤ) (state : List ℤ × ℤ) :
    Outcome (List ℤ × ℤ) (List ℤ × ℤ) :=
  if state.2 ≥ 0 then
    match read state.1 state.2 with
    | none => .fault
    | some x =>
        if x > key then
          match write state.1 (wrap32 (state.2 + 1)) x with
          | none => .fault
          | some arr => .next (arr, wrap32 (state.2 - 1))
        else .exit state
  else .exit state

def insertPass (fuel : ℕ) (arr : List ℤ) (i : ℤ) : Option (List ℤ) := do
  let key ← read arr i
  let final ← loop (shiftPass key) fuel (arr, wrap32 (i - 1))
  write final.1 (wrap32 (final.2 + 1)) key

/-- The loop runs over `1, …, n - 1`. -/
def insertSort (fuel : ℕ) (arr : List ℤ) : Option (List ℤ) :=
  let n := wrap32 arr.length
  forRange (n - 1).toNat (fun arr index => insertPass fuel arr (index + 1)) arr

section Shift

variable {key hole x j : ℤ} {lower rest : List ℤ}

theorem shiftPass_of_neg (hj : j < 0) (arr : List ℤ) :
    shiftPass key (arr, j) = .exit (arr, j) :=
  if_neg hj.not_ge

theorem shiftPass_of_le (hx : x ≤ key) (hj : j = lower.length) :
    shiftPass key (lower ++ x :: rest, j) = .exit (lower ++ x :: rest, j) := by
  rw [shiftPass, if_pos (by dsimp only; omega), read_append_cons hj]
  exact if_neg hx.not_gt

/-- The element goes to the hole behind it, and leaves one in its place. -/
theorem shiftPass_of_lt (hx : key < x) (hj : j = lower.length)
    (hlength : lower.length + 1 < 2 ^ 31) :
    shiftPass key (lower ++ x :: hole :: rest, j) =
      .next (lower ++ x :: x :: rest, j - 1) := by
  have hsplit (y : ℤ) :
      lower ++ x :: y :: rest = (lower ++ [x]) ++ y :: rest := by
    simp
  have hwrite : write (lower ++ x :: hole :: rest) (wrap32 (j + 1)) x =
      some (lower ++ x :: x :: rest) := by
    rw [wrap32_eq_self (by omega) (by omega), hsplit, hsplit]
    exact write_append_cons (by simp [hj]) x
  rw [shiftPass, if_pos (by dsimp only; omega), read_append_cons hj]
  simp only [gt_iff_lt, if_pos hx, hwrite]
  rw [wrap32_eq_self (by omega) (by omega)]

end Shift

/-- The greater elements are moved, and the hole is where the element
belongs. -/
theorem shift_spec {key : ℤ} {lower : List ℤ}
    (hsorted : lower.Pairwise (· ≤ ·)) (hlength : lower.length < 2 ^ 31)
    {fuel : ℕ} (hfuel : lower.length < fuel) (hole : ℤ) (rest : List ℤ) :
    ∃ kept shifted last,
      loop (shiftPass key) fuel (lower ++ hole :: rest, lower.length - 1) =
        some (kept ++ last :: (shifted ++ rest), (kept.length : ℤ) - 1) ∧
      kept ++ shifted = lower ∧ (∀ x ∈ kept, x ≤ key) ∧
      ∀ x ∈ shifted, key < x := by
  induction lower using List.reverseRecOn generalizing fuel hole rest with
  | nil =>
      obtain ⟨more, rfl⟩ := Nat.exists_eq_add_of_le' (Nat.one_le_of_lt hfuel)
      refine ⟨[], [], hole, ?_, rfl, by simp, by simp⟩
      rw [loop, shiftPass_of_neg (by simp)]
      rfl
  | append_singleton lower x ih =>
      rw [List.length_append, List.length_singleton] at hlength hfuel
      obtain ⟨more, rfl⟩ := Nat.exists_eq_add_of_le' (Nat.one_le_of_lt hfuel)
      have hj : ((lower ++ [x]).length : ℤ) - 1 = lower.length := by simp
      rw [List.pairwise_append] at hsorted
      obtain ⟨hlower, -, hlast⟩ := hsorted
      rcases le_or_gt x key with hx | hx
      · refine ⟨lower ++ [x], [], hole, ?_, List.append_nil _, ?_, by simp⟩
        · rw [hj, List.append_assoc, List.singleton_append, loop,
            shiftPass_of_le hx rfl, List.append_assoc]
          rfl
        · intro y hy
          rcases List.mem_append.mp hy with hy | hy
          · exact (hlast y hy x (List.mem_singleton_self x)).trans hx
          · rwa [List.mem_singleton.mp hy]
      · obtain ⟨kept, shifted, last, hloop, rfl, hkept, hshifted⟩ :=
          ih hlower (by omega) (by omega : _ < more) x (x :: rest)
        refine ⟨kept, shifted ++ [x], last, ?_, ?_, hkept, ?_⟩
        · rw [hj, List.append_assoc, List.singleton_append, loop,
            shiftPass_of_lt hx rfl hlength]
          simpa using hloop
        · rw [List.append_assoc]
        · exact List.forall_mem_append.mpr
            ⟨hshifted, List.forall_mem_singleton.mpr hx⟩

/-- An element is inserted in the sorted part before it. -/
theorem insertPass_sorts {sorted : List ℤ} (hsorted : sorted.Pairwise (· ≤ ·))
    (hlength : sorted.length < 2 ^ 31) {fuel : ℕ}
    (hfuel : sorted.length < fuel) (key : ℤ) (rest : List ℤ) :
    ∃ next, insertPass fuel (sorted ++ key :: rest) sorted.length =
        some (next ++ rest) ∧
      next ~ sorted ++ [key] ∧ next.Pairwise (· ≤ ·) := by
  obtain ⟨kept, shifted, last, hloop, rfl, hkept, hshifted⟩ :=
    shift_spec hsorted hlength hfuel key rest
  obtain ⟨hsortedKept, hsortedShifted, hcross⟩ :=
    List.pairwise_append.mp hsorted
  refine ⟨kept ++ key :: shifted, ?_, ?_, ?_⟩
  · have hstart : wrap32 (((kept ++ shifted).length : ℤ) - 1) =
        (kept ++ shifted).length - 1 :=
      wrap32_eq_self (by omega) (by omega)
    have hplace : wrap32 ((kept.length : ℤ) - 1 + 1) = kept.length := by
      rw [sub_add_cancel]
      rw [List.length_append] at hlength
      exact wrap32_natCast (by omega)
    rw [insertPass, read_append_cons rfl, Option.bind_eq_bind,
      Option.bind_some, hstart, hloop, Option.bind_eq_bind, Option.bind_some,
      hplace, write_append_cons rfl, List.append_assoc, List.cons_append]
  · calc kept ++ key :: shifted
      _ ~ key :: (kept ++ shifted) := List.perm_middle
      _ ~ kept ++ shifted ++ [key] := (List.perm_append_singleton key _).symm
  · rw [List.pairwise_append, List.pairwise_cons]
    refine ⟨hsortedKept, ⟨fun x hx => (hshifted x hx).le, hsortedShifted⟩, ?_⟩
    intro x hx
    exact List.forall_mem_cons.mpr ⟨hkept x hx, hcross x hx⟩

/-- The number of elements that are sorted: the size as an `int`, and at least
one. -/
def sortedCount (arr : List ℤ) : ℕ := (wrap32 arr.length - 1).toNat + 1

/-- The elements that are not sorted follow those that are. -/
def RestFollows (arr : List ℤ) : Prop :=
  (arr.drop (sortedCount arr)).Pairwise (· ≤ ·) ∧
    ∀ x ∈ arr.take (sortedCount arr), ∀ y ∈ arr.drop (sortedCount arr), x ≤ y

theorem restFollows_of_length_lt {arr : List ℤ}
    (hlength : arr.length < 2 ^ 31) : RestFollows arr := by
  have hrest : arr.drop (sortedCount arr) = [] := by
    rw [sortedCount, wrap32_natCast hlength]
    exact List.drop_eq_nil_of_le (by omega)
  simp [RestFollows, hrest]

/-- The elements up to a subscript are sorted in place. -/
def SortedUpTo (arr : List ℤ) (index : ℕ) (current : List ℤ) : Prop :=
  ∃ sorted, current = sorted ++ arr.drop (index + 1) ∧
    sorted ~ arr.take (index + 1) ∧ sorted.Pairwise (· ≤ ·)

/-- The elements that the function counts are sorted in place. -/
theorem insertSort_returns (arr : List ℤ) :
    ∃ sorted, Returns (insertSort · arr)
        (sorted ++ arr.drop (sortedCount arr)) ∧
      sorted ~ arr.take (sortedCount arr) ∧ sorted.Pairwise (· ≤ ·) := by
  have hupper := wrap32_lt arr.length
  have hle : wrap32 arr.length ≤ arr.length := wrap32_le (by omega)
  have hstart : SortedUpTo arr 0 arr := by
    refine ⟨arr.take 1, (List.take_append_drop 1 arr).symm, List.Perm.refl _,
      pairwise_of_length_le_one ?_⟩
    exact List.length_take_le 1 arr
  have hrun (fuel : ℕ) (hfuel : arr.length ≤ fuel) :
      ∃ final, insertSort fuel arr = some final ∧
        SortedUpTo arr (wrap32 arr.length - 1).toNat final := by
    refine forRange_invariant (SortedUpTo arr) hstart ?_
    rintro index _ hindex ⟨sorted, rfl, hperm, hsorted⟩
    have hnext : index + 1 < arr.length := by omega
    have hcount : sorted.length = index + 1 := by
      rw [hperm.length_eq, List.length_take]
      omega
    obtain ⟨next, hpass, hkept, hordered⟩ := insertPass_sorts hsorted
      (by omega) (by omega : _ < fuel) arr[index + 1] (arr.drop (index + 2))
    rw [hcount] at hpass
    refine ⟨_, ?_, next, rfl, ?_, hordered⟩
    · rw [List.drop_eq_getElem_cons hnext]
      exact_mod_cast hpass
    · rw [List.take_succ_eq_append_getElem hnext]
      exact hkept.trans (hperm.append_right _)
  obtain ⟨final, hfinal, sorted, rfl, hperm, hsorted⟩ := hrun _ le_rfl
  refine ⟨sorted, ⟨arr.length, fun fuel hfuel => ?_⟩, hperm, hsorted⟩
  -- the fuel does not matter: there is only one sorted permutation
  obtain ⟨_, hother, sorted', rfl, hperm', hsorted'⟩ := hrun fuel hfuel
  have hequal : sorted' = sorted :=
    (hperm'.trans hperm.symm).eq_of_pairwise' hsorted' hsorted
  rw [hequal] at hother
  exact hother

/-- What is in order after the sorting depends on the rest only. -/
theorem pairwise_append_drop_iff {arr sorted : List ℤ}
    (hperm : sorted ~ arr.take (sortedCount arr))
    (hsorted : sorted.Pairwise (· ≤ ·)) :
    (sorted ++ arr.drop (sortedCount arr)).Pairwise (· ≤ ·) ↔
      RestFollows arr := by
  rw [List.pairwise_append, and_iff_right hsorted, RestFollows]
  refine and_congr_right fun _ => forall_congr' fun x => ?_
  exact imp_congr_left hperm.mem_iff

/-- The vector is sorted exactly when its size fits an `int`, or what the
function does not count follows in order. -/
theorem insertSort_sorts_iff (arr : List ℤ) :
    ∃ result, Returns (insertSort · arr) result ∧
      (result.Pairwise (· ≤ ·) ∧ result ~ arr ↔
        arr.length < 2 ^ 31 ∨ RestFollows arr) := by
  obtain ⟨sorted, hreturns, hperm, hsorted⟩ := insertSort_returns arr
  refine ⟨_, hreturns, ?_⟩
  have hkept : sorted ++ arr.drop (sortedCount arr) ~ arr := by
    calc sorted ++ arr.drop (sortedCount arr)
      _ ~ arr.take (sortedCount arr) ++ arr.drop (sortedCount arr) :=
        hperm.append_right _
      _ = arr := List.take_append_drop _ arr
  rw [or_iff_right_of_imp restFollows_of_length_lt, and_iff_left hkept,
    pairwise_append_drop_iff hperm hsorted]

/-- A vector whose size is negative as an `int` is left as it is. -/
theorem sortedCount_eq_one {arr : List ℤ} (hlower : 2 ^ 31 ≤ arr.length)
    (hupper : arr.length < 2 ^ 32) : sortedCount arr = 1 := by
  have hnegative : wrap32 arr.length < 0 :=
    wrap32_neg (by exact_mod_cast hlower) (by exact_mod_cast hupper)
  rw [sortedCount, Int.toNat_of_nonpos (by omega)]

theorem not_restFollows_replicate {count : ℕ} (hlower : 2 ^ 31 ≤ count)
    (hupper : count + 1 < 2 ^ 32) :
    ¬ RestFollows (1 :: List.replicate count 0) := by
  rintro ⟨-, hfollows⟩
  have hlength : (1 :: List.replicate count (0 : ℤ)).length = count + 1 := by
    simp
  rw [sortedCount_eq_one (by omega) (by omega)] at hfollows
  have hzero : (0 : ℤ) ∈ List.replicate count 0 :=
    List.mem_replicate.mpr ⟨by omega, rfl⟩
  exact absurd (hfollows 1 (by simp) 0 hzero) (by decide)

/-- A one in front of so many zeros that the size is negative as an `int`. -/
theorem insertSort_leaves_unsorted :
    ∃ result, Returns (insertSort · (1 :: List.replicate (2 ^ 31) 0)) result ∧
      ¬ (result.Pairwise (· ≤ ·) ∧
        result ~ 1 :: List.replicate (2 ^ 31) 0) := by
  obtain ⟨sorted, hreturns, hperm, hsorted⟩ :=
    insertSort_returns (1 :: List.replicate (2 ^ 31) 0)
  refine ⟨_, hreturns, ?_⟩
  rintro ⟨hordered, -⟩
  rw [pairwise_append_drop_iff hperm hsorted] at hordered
  exact not_restFollows_replicate le_rfl (by norm_num) hordered

end KataCpp.InsertSort
