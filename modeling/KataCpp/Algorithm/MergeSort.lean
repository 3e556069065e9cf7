import KataCpp.Core.Iteration
import KataCpp.Core.MachineInt
import KataCpp.Core.Segment

/-!
# Merge sort

`merge` copies two adjacent runs to temporary arrays and merges them back with
three loops.  The loops share one invariant: what has been written, followed by
the merge of what is left of the two temporaries, is the merge of both.

In the largest array an `int` can index, the subscript `k` overflows when it
is advanced past the last element; it is not used after that.
-/

namespace KataCpp.MergeSort

open Iteration MachineInt Segment

def copyNext (arr : List ℤ) (start : ℤ) (copy : List ℤ) (index : ℕ) :
    Option (List ℤ) := do
  let x ← read arr (wrap32 (start + index))
  write copy index x

/-- A temporary array of `count` elements, filled from `arr[start]` on. -/
def copyFrom (arr : List ℤ) (start count : ℤ) : Option (List ℤ) :=
  if count < 0 then none
  else
    forRange count.toNat (copyNext arr start)
      (List.replicate count.toNat 0)

structure Merging where
  arr : List ℤ
  i : ℤ
  j : ℤ
  k : ℤ

def takeLeft (leftArr : List ℤ) (state : Merging) : Option Merging := do
  let x ← read leftArr state.i
  let arr ← write state.arr state.k x
  return ⟨arr, wrap32 (state.i + 1), state.j, wrap32 (state.k + 1)⟩

def takeRight (rightArr : List ℤ) (state : Merging) : Option Merging := do
  let y ← read rightArr state.j
  let arr ← write state.arr state.k y
  return ⟨arr, state.i, wrap32 (state.j + 1), wrap32 (state.k + 1)⟩

def takeSmaller (leftArr rightArr : List ℤ) (state : Merging) :
    Option Merging := do
  let x ← read leftArr state.i
  let y ← read rightArr state.j
  if x ≤ y then takeLeft leftArr state else takeRight rightArr state

/-- Merges `arr[left..mid]` and `arr[mid+1..right]`. -/
def merge (fuel : ℕ) (arr : List ℤ) (left mid right : ℤ) :
    Option (List ℤ) := do
  let n1 := wrap32 (wrap32 (mid - left) + 1)
  let n2 := wrap32 (right - mid)
  let leftArr ← copyFrom arr left n1
  let rightArr ← copyFrom arr (wrap32 (mid + 1)) n2
  let state ← whileLoop (fun state : Merging => state.i < n1 ∧ state.j < n2)
    (takeSmaller leftArr rightArr) fuel ⟨arr, 0, 0, left⟩
  let state ← whileLoop (fun state : Merging => state.i < n1)
    (takeLeft leftArr) fuel state
  let state ← whileLoop (fun state : Merging => state.j < n2)
    (takeRight rightArr) fuel state
  return state.arr

def mergeSort : ℕ → List ℤ → ℤ → ℤ → Option (List ℤ)
  | 0, _, _, _ => none
  | fuel + 1, arr, left, right =>
      if left < right then do
        let mid := wrap32 (left + (wrap32 (right - left)).tdiv 2)
        let arr ← mergeSort fuel arr left mid
        let arr ← mergeSort fuel arr (wrap32 (mid + 1)) right
        merge fuel arr left mid right
      else some arr

/-- The first `index` elements have been copied. -/
def Copied (middle : List ℤ) (index : ℕ) (copy : List ℤ) : Prop :=
  ∃ filled rest, middle = filled ++ rest ∧ filled.length = index ∧
    copy = filled ++ List.replicate rest.length 0

theorem copied_length {middle copy : List ℤ}
    (hcopied : Copied middle middle.length copy) : copy = middle := by
  obtain ⟨filled, rest, hmiddle, hlength, rfl⟩ := hcopied
  have hrest : rest = [] := by
    have hsum := congrArg List.length hmiddle
    rw [List.length_append] at hsum
    exact List.eq_nil_of_length_eq_zero (by omega)
  rw [hmiddle, hrest]
  rfl

section Copies

variable {before middle after : List ℤ} {start count : ℤ}
  (hstart : start = before.length)
  (hsize : before.length + middle.length ≤ 2 ^ 31)
include hstart hsize

theorem copyNext_copied {copy : List ℤ} {index : ℕ}
    (hindex : index < middle.length) (hcopied : Copied middle index copy) :
    ∃ next, copyNext (before ++ (middle ++ after)) start copy index =
      some next ∧ Copied middle (index + 1) next := by
  obtain ⟨filled, rest, hmiddle, hlength, rfl⟩ := hcopied
  cases rest with
  | nil =>
      rw [hmiddle, List.append_nil] at hindex
      omega
  | cons x rest =>
      have hread : read (before ++ (middle ++ after))
          (wrap32 (start + index)) = some x := by
        rw [wrap32_eq_self (by omega) (by omega), hmiddle,
          List.append_assoc, List.cons_append, ← List.append_assoc]
        apply read_append_cons
        rw [List.length_append]
        omega
      refine ⟨filled ++ x :: List.replicate rest.length 0, ?_,
        filled ++ [x], rest, ?_, ?_, ?_⟩
      · rw [copyNext, hread, Option.bind_eq_bind, Option.bind_some,
          List.length_cons, List.replicate_succ,
          write_append_cons (by omega)]
      · rw [hmiddle, List.append_assoc, List.singleton_append]
      · rw [List.length_append, hlength, List.length_singleton]
      · rw [List.append_assoc, List.singleton_append]

theorem copyFrom_append (hcount : count = middle.length) :
    copyFrom (before ++ (middle ++ after)) start count = some middle := by
  have hloop : ∃ final, forRange middle.length
      (copyNext (before ++ (middle ++ after)) start)
      (List.replicate middle.length 0) = some final ∧
      Copied middle middle.length final := by
    apply forRange_invariant
    · exact ⟨[], middle, rfl, rfl, rfl⟩
    · intro index copy hindex hcopied
      exact copyNext_copied hstart hsize hindex hcopied
  obtain ⟨final, hfinal, hcopied⟩ := hloop
  rw [copyFrom, if_neg (by omega), hcount, Int.toNat_natCast, hfinal,
    copied_length hcopied]

end Copies

/-! ## The merging loops -/

/-- Both temporaries are used up to the rests, and what has been merged so far
stands behind `before`, with as many places left as elements. -/
structure MergesTo (before after leftArr rightArr leftRest rightRest : List ℤ)
    (state : Merging) : Prop where
  left : ∃ taken, leftArr = taken ++ leftRest ∧ state.i = taken.length
  right : ∃ taken, rightArr = taken ++ rightRest ∧ state.j = taken.length
  arr : ∃ merged rest, state.arr = before ++ (merged ++ (rest ++ after)) ∧
    state.k = wrap32 (before.length + merged.length) ∧
    rest.length = leftRest.length + rightRest.length ∧
    merged ++ List.merge leftRest rightRest = List.merge leftArr rightArr

section Merging

variable {before after leftArr rightArr leftRest rightRest : List ℤ}
  {state : Merging}

theorem MergesTo.i_lt_iff
    (hmerges : MergesTo before after leftArr rightArr leftRest rightRest
      state) : state.i < leftArr.length ↔ leftRest ≠ [] := by
  obtain ⟨taken, hleft, hi⟩ := hmerges.left
  rw [hi, hleft, List.length_append, ← List.length_pos_iff_ne_nil]
  omega

theorem MergesTo.j_lt_iff
    (hmerges : MergesTo before after leftArr rightArr leftRest rightRest
      state) : state.j < rightArr.length ↔ rightRest ≠ [] := by
  obtain ⟨taken, hright, hj⟩ := hmerges.right
  rw [hj, hright, List.length_append, ← List.length_pos_iff_ne_nil]
  omega

/-- The element that comes first in the merge of the rests is written to the
next place. -/
theorem MergesTo.write_head {x : ℤ}
    {nextLeft nextRight : List ℤ} (hsize : before.length + leftArr.length +
      rightArr.length ≤ 2 ^ 31)
    (hmerges : MergesTo before after leftArr rightArr leftRest rightRest
      state)
    (hhead : List.merge leftRest rightRest =
      x :: List.merge nextLeft nextRight) :
    ∃ arr, write state.arr state.k x = some arr ∧
      ∃ merged rest, arr = before ++ (merged ++ (rest ++ after)) ∧
        wrap32 (state.k + 1) = wrap32 (before.length + merged.length) ∧
        rest.length = nextLeft.length + nextRight.length ∧
        merged ++ List.merge nextLeft nextRight =
          List.merge leftArr rightArr := by
  obtain ⟨merged, rest, harr, hk, hrest, hmerged⟩ := hmerges.arr
  have htotal := congrArg List.length hmerged
  have hstep := congrArg List.length hhead
  rw [List.length_append, List.length_merge, List.length_merge] at htotal
  rw [List.length_merge, List.length_cons, List.length_merge] at hstep
  cases rest with
  | nil =>
      rw [List.length_nil] at hrest
      omega
  | cons old rest =>
      rw [List.length_cons] at hrest
      refine ⟨before ++ ((merged ++ [x]) ++ (rest ++ after)), ?_,
        merged ++ [x], rest, rfl, ?_, by omega, ?_⟩
      · have hk' : state.k = (before ++ merged).length := by
          rw [hk, wrap32_eq_self (by omega) (by omega), List.length_append,
            Nat.cast_add]
        rw [harr, List.cons_append, ← List.append_assoc,
          write_append_cons hk']
        simp
      · rw [hk, wrap32_wrap32_add_one, List.length_append,
          List.length_singleton, Nat.cast_add, Nat.cast_one, add_assoc]
      · rw [List.append_assoc, List.singleton_append, ← hhead, hmerged]

variable (hsize : before.length + leftArr.length + rightArr.length ≤ 2 ^ 31)
include hsize

theorem takeLeft_mergesTo {x : ℤ} (hleft : leftArr.length < 2 ^ 31)
    (hmerges : MergesTo before after leftArr rightArr (x :: leftRest)
      rightRest state)
    (hhead : List.merge (x :: leftRest) rightRest =
      x :: List.merge leftRest rightRest) :
    ∃ next, takeLeft leftArr state = some next ∧
      MergesTo before after leftArr rightArr leftRest rightRest next := by
  obtain ⟨taken, hsplit, hi⟩ := hmerges.left
  have htaken := congrArg List.length hsplit
  rw [List.length_append, List.length_cons] at htaken
  obtain ⟨arr, hwrite, hwritten⟩ := hmerges.write_head hsize hhead
  refine ⟨⟨arr, wrap32 (state.i + 1), state.j, wrap32 (state.k + 1)⟩, ?_,
    ⟨taken ++ [x], ?_, ?_⟩, hmerges.right, hwritten⟩
  · rw [takeLeft, hsplit, read_append_cons hi, Option.bind_eq_bind,
      Option.bind_some, hwrite]
    rfl
  · rw [List.append_assoc, List.singleton_append, hsplit]
  · rw [hi, wrap32_eq_self (by omega) (by omega), List.length_append,
      List.length_singleton, Nat.cast_add, Nat.cast_one]

theorem takeRight_mergesTo {y : ℤ} (hright : rightArr.length < 2 ^ 31)
    (hmerges : MergesTo before after leftArr rightArr leftRest
      (y :: rightRest) state)
    (hhead : List.merge leftRest (y :: rightRest) =
      y :: List.merge leftRest rightRest) :
    ∃ next, takeRight rightArr state = some next ∧
      MergesTo before after leftArr rightArr leftRest rightRest next := by
  obtain ⟨taken, hsplit, hj⟩ := hmerges.right
  have htaken := congrArg List.length hsplit
  rw [List.length_append, List.length_cons] at htaken
  obtain ⟨arr, hwrite, hwritten⟩ := hmerges.write_head hsize hhead
  refine ⟨⟨arr, state.i, wrap32 (state.j + 1), wrap32 (state.k + 1)⟩, ?_,
    hmerges.left, ⟨taken ++ [y], ?_, ?_⟩, hwritten⟩
  · rw [takeRight, hsplit, read_append_cons hj, Option.bind_eq_bind,
      Option.bind_some, hwrite]
    rfl
  · rw [List.append_assoc, List.singleton_append, hsplit]
  · rw [hj, wrap32_eq_self (by omega) (by omega), List.length_append,
      List.length_singleton, Nat.cast_add, Nat.cast_one]

/-- The first loop takes the smaller head, the left one if they are equal. -/
theorem takeSmaller_mergesTo {x y : ℤ} (hleft : leftArr.length < 2 ^ 31)
    (hright : rightArr.length < 2 ^ 31)
    (hmerges : MergesTo before after leftArr rightArr (x :: leftRest)
      (y :: rightRest) state) :
    ∃ nextLeft nextRight next,
      takeSmaller leftArr rightArr state = some next ∧
      nextLeft.length + nextRight.length <
        (x :: leftRest).length + (y :: rightRest).length ∧
      MergesTo before after leftArr rightArr nextLeft nextRight next := by
  have hx : read leftArr state.i = some x := by
    obtain ⟨taken, hsplit, hi⟩ := hmerges.left
    rw [hsplit, read_append_cons hi]
  have hy : read rightArr state.j = some y := by
    obtain ⟨taken, hsplit, hj⟩ := hmerges.right
    rw [hsplit, read_append_cons hj]
  rw [takeSmaller, hx, Option.bind_eq_bind, Option.bind_some, hy,
    Option.bind_some]
  by_cases hle : x ≤ y
  · obtain ⟨next, hnext, hkept⟩ := takeLeft_mergesTo hsize hleft hmerges
      (List.cons_merge_cons_pos _ _ _ (by simpa using hle))
    refine ⟨leftRest, y :: rightRest, next, ?_, by simp, hkept⟩
    rw [if_pos hle, hnext]
  · obtain ⟨next, hnext, hkept⟩ := takeRight_mergesTo hsize hright hmerges
      (List.cons_merge_cons_neg _ _ _ (by simpa using hle))
    refine ⟨x :: leftRest, rightRest, next, ?_, by simp, hkept⟩
    rw [if_neg hle, hnext]

variable (hleft : leftArr.length < 2 ^ 31)
  (hright : rightArr.length < 2 ^ 31)
include hleft hright

theorem takeSmaller_loop
    (hmerges : MergesTo before after leftArr rightArr leftArr rightArr
      state) :
    ∃ final, Returns (whileLoop (fun state : Merging =>
        state.i < leftArr.length ∧ state.j < rightArr.length)
        (takeSmaller leftArr rightArr) · state) final ∧
      ∃ leftRest rightRest, (leftRest = [] ∨ rightRest = []) ∧
        MergesTo before after leftArr rightArr leftRest rightRest final := by
  apply whileLoop_returns fun variant state =>
    ∃ leftRest rightRest : List ℤ,
      leftRest.length + rightRest.length = variant ∧
      MergesTo before after leftArr rightArr leftRest rightRest state
  · exact ⟨leftArr, rightArr, rfl, hmerges⟩
  · rintro _ state ⟨leftRest, rightRest, rfl, hmerges⟩ ⟨hi, hj⟩
    obtain ⟨x, leftRest, rfl⟩ :=
      List.exists_cons_of_ne_nil (hmerges.i_lt_iff.mp hi)
    obtain ⟨y, rightRest, rfl⟩ :=
      List.exists_cons_of_ne_nil (hmerges.j_lt_iff.mp hj)
    obtain ⟨nextLeft, nextRight, next, hnext, hless, hkept⟩ :=
      takeSmaller_mergesTo hsize hleft hright hmerges
    exact ⟨_, next, hnext, hless, nextLeft, nextRight, rfl, hkept⟩
  · rintro _ state ⟨leftRest, rightRest, -, hmerges⟩ hexit
    refine ⟨leftRest, rightRest, ?_, hmerges⟩
    rw [hmerges.i_lt_iff, hmerges.j_lt_iff] at hexit
    tauto

omit hright in
theorem takeLeft_loop (hempty : leftRest = [] ∨ rightRest = [])
    (hmerges : MergesTo before after leftArr rightArr leftRest rightRest
      state) :
    ∃ final, Returns (whileLoop (fun state : Merging =>
        state.i < leftArr.length) (takeLeft leftArr) · state) final ∧
      ∃ rightRest, MergesTo before after leftArr rightArr [] rightRest
        final := by
  apply whileLoop_returns fun variant state =>
    ∃ leftRest rightRest : List ℤ, leftRest.length = variant ∧
      (leftRest = [] ∨ rightRest = []) ∧
      MergesTo before after leftArr rightArr leftRest rightRest state
  · exact ⟨leftRest, rightRest, rfl, hempty, hmerges⟩
  · rintro _ state ⟨leftRest, rightRest, rfl, hempty, hmerges⟩ hi
    obtain ⟨x, leftRest, rfl⟩ :=
      List.exists_cons_of_ne_nil (hmerges.i_lt_iff.mp hi)
    obtain rfl : rightRest = [] := by simpa using hempty
    obtain ⟨next, hnext, hkept⟩ :=
      takeLeft_mergesTo hsize hleft hmerges (by simp)
    exact ⟨_, next, hnext, by simp, leftRest, [], rfl, Or.inr rfl, hkept⟩
  · rintro _ state ⟨leftRest, rightRest, -, -, hmerges⟩ hexit
    rw [hmerges.i_lt_iff, not_not] at hexit
    exact ⟨rightRest, hexit ▸ hmerges⟩

omit hleft in
theorem takeRight_loop
    (hmerges : MergesTo before after leftArr rightArr [] rightRest state) :
    ∃ final, Returns (whileLoop (fun state : Merging =>
        state.j < rightArr.length) (takeRight rightArr) · state) final ∧
      MergesTo before after leftArr rightArr [] [] final := by
  apply whileLoop_returns fun variant state =>
    ∃ rightRest : List ℤ, rightRest.length = variant ∧
      MergesTo before after leftArr rightArr [] rightRest state
  · exact ⟨rightRest, rfl, hmerges⟩
  · rintro _ state ⟨rightRest, rfl, hmerges⟩ hj
    obtain ⟨y, rightRest, rfl⟩ :=
      List.exists_cons_of_ne_nil (hmerges.j_lt_iff.mp hj)
    obtain ⟨next, hnext, hkept⟩ :=
      takeRight_mergesTo hsize hright hmerges (by simp)
    exact ⟨_, next, hnext, by simp, rightRest, rfl, hkept⟩
  · rintro _ state ⟨rightRest, -, hmerges⟩ hexit
    rw [hmerges.j_lt_iff, not_not] at hexit
    exact hexit ▸ hmerges

/-- `merge` replaces two adjacent runs by their merge. -/
theorem merge_returns {left mid right : ℤ} (hpositive : 0 < rightArr.length)
    (hbefore : left = before.length)
    (hmid : mid + 1 = before.length + leftArr.length)
    (hend : right + 1 = mid + 1 + rightArr.length) :
    Returns (merge · (before ++ (leftArr ++ (rightArr ++ after))) left mid
      right) (before ++ (List.merge leftArr rightArr ++ after)) := by
  have hn1 : wrap32 (wrap32 (mid - left) + 1) = leftArr.length := by
    have hdifference : wrap32 (mid - left) = mid - left :=
      wrap32_eq_self (by omega) (by omega)
    rw [hdifference, wrap32_eq_self (by omega) (by omega)]
    omega
  have hn2 : wrap32 (right - mid) = rightArr.length := by
    rw [wrap32_eq_self (by omega) (by omega)]
    omega
  have hcopyLeft : copyFrom (before ++ (leftArr ++ (rightArr ++ after))) left
      leftArr.length = some leftArr :=
    copyFrom_append hbefore (by omega) rfl
  have hcopyRight : copyFrom (before ++ (leftArr ++ (rightArr ++ after)))
      (wrap32 (mid + 1)) rightArr.length = some rightArr := by
    rw [← List.append_assoc]
    apply copyFrom_append _ _ rfl
    · rw [wrap32_eq_self (by omega) (by omega), hmid, List.length_append,
        Nat.cast_add]
    · rw [List.length_append]
      omega
  have hstart : MergesTo before after leftArr rightArr leftArr rightArr
      ⟨before ++ (leftArr ++ (rightArr ++ after)), 0, 0, left⟩ := by
    refine ⟨⟨[], rfl, rfl⟩, ⟨[], rfl, rfl⟩, [], leftArr ++ rightArr, ?_, ?_,
      List.length_append, rfl⟩
    · rw [List.nil_append, List.append_assoc]
    · rw [List.length_nil, Nat.cast_zero, add_zero,
        wrap32_natCast (by omega), hbefore]
  obtain ⟨first, hfirst, leftRest, rightRest, hempty, hmerges⟩ :=
    takeSmaller_loop hsize hleft hright hstart
  obtain ⟨second, hsecond, rightRest, hmerges⟩ :=
    takeLeft_loop hsize hleft hempty hmerges
  obtain ⟨third, hthird, hmerges⟩ := takeRight_loop hsize hright hmerges
  obtain ⟨merged, rest, harr, -, hrest, hmerged⟩ := hmerges.arr
  obtain rfl : rest = [] := List.eq_nil_of_length_eq_zero hrest
  have hresult : third.arr =
      before ++ (List.merge leftArr rightArr ++ after) := by
    rw [harr, ← hmerged, List.nil_append, List.nil_merge, List.append_nil]
  simp only [merge, hn1, hn2, hcopyLeft, hcopyRight, Option.bind_eq_bind,
    Option.bind_some]
  rw [← hresult]
  exact hfirst.bind (hsecond.bind (hthird.bind (returns_some third.arr)))

end Merging

theorem mergeSort_of_le {left right : ℤ} (hbounds : right ≤ left)
    (arr : List ℤ) : Returns (mergeSort · arr left right) arr := by
  apply returns_of_succ
  simp only [mergeSort, if_neg (not_lt.mpr hbounds)]
  exact returns_some arr

theorem mergeSort_step {arr first second result : List ℤ}
    {left mid right : ℤ} (hbounds : left < right)
    (hmid : wrap32 (left + (wrap32 (right - left)).tdiv 2) = mid)
    (hfirst : Returns (mergeSort · arr left mid) first)
    (hsecond : Returns (mergeSort · first (wrap32 (mid + 1)) right) second)
    (hmerge : Returns (merge · second left mid right) result) :
    Returns (mergeSort · arr left right) result := by
  apply returns_of_succ
  simp only [mergeSort, if_pos hbounds, hmid]
  exact hfirst.bind (hsecond.bind hmerge)

/-- The first half ends at `mid`, and neither half is empty. -/
theorem exists_halves {middle : List ℤ} (hlength : 2 ≤ middle.length) :
    ∃ first second, middle = first ++ second ∧
      first.length = (middle.length - 1) / 2 + 1 ∧ 0 < second.length := by
  refine ⟨middle.take ((middle.length - 1) / 2 + 1),
    middle.drop ((middle.length - 1) / 2 + 1),
    (List.take_append_drop _ middle).symm, ?_, ?_⟩
  · rw [List.length_take]
    omega
  · rw [List.length_drop]
    omega

theorem mid_eq {left right : ℤ} (hleft : 0 ≤ left) (hbounds : left < right)
    (hright : right < 2 ^ 31) :
    wrap32 (left + (wrap32 (right - left)).tdiv 2) =
      left + (right - left) / 2 := by
  have hdifference : wrap32 (right - left) = right - left :=
    wrap32_eq_self (by omega) (by omega)
  rw [hdifference, Int.tdiv_eq_ediv_of_nonneg (by omega),
    wrap32_eq_self (by omega) (by omega)]

/-- The segment between two parts of the array is sorted in place. -/
theorem mergeSort_returns {left right : ℤ} (before middle after : List ℤ)
    (hleft : left = before.length)
    (hright : right + 1 = before.length + middle.length)
    (hsize : before.length + middle.length ≤ 2 ^ 31) :
    ∃ sorted : List ℤ, Returns
        (mergeSort · (before ++ (middle ++ after)) left right)
        (before ++ (sorted ++ after)) ∧
      sorted.Pairwise (· ≤ ·) ∧ sorted.Perm middle := by
  induction hlength : middle.length using Nat.strong_induction_on
    generalizing left right before middle after with
  | _ count ih =>
    by_cases hbounds : left < right
    · obtain ⟨first, second, hparts, hhalf, hrest⟩ :=
        exists_halves (show 2 ≤ middle.length by omega)
      have htotal : first.length + second.length = count := by
        rw [← hlength, hparts, List.length_append]
      have hmid : wrap32 (left + (wrap32 (right - left)).tdiv 2) =
          left + first.length - 1 := by
        rw [mid_eq (by omega) hbounds (by omega)]
        omega
      have hnext : wrap32 (left + first.length - 1 + 1) =
          left + first.length := by
        rw [wrap32_eq_self (by omega) (by omega), sub_add_cancel]
      have hfirstEnd : left + first.length - 1 + 1 =
          before.length + first.length := by omega
      obtain ⟨sortedFirst, hfirst, hfirstSorted, hfirstPerm⟩ :=
        ih first.length (by omega) before first (second ++ after) hleft
          hfirstEnd (by omega) rfl
      have hfirstLength := hfirstPerm.length_eq
      have hsecondStart : left + first.length =
          (before ++ sortedFirst).length := by
        rw [List.length_append]
        omega
      have hsecondEnd : right + 1 =
          (before ++ sortedFirst).length + second.length := by omega
      obtain ⟨sortedSecond, hsecond, hsecondSorted, hsecondPerm⟩ :=
        ih second.length (by omega) (before ++ sortedFirst) second after
          hsecondStart hsecondEnd (by omega) rfl
      have hsecondLength := hsecondPerm.length_eq
      have hmerge : Returns (merge ·
          (before ++ (sortedFirst ++ (sortedSecond ++ after))) left
          (left + first.length - 1) right)
          (before ++ (List.merge sortedFirst sortedSecond ++ after)) :=
        merge_returns (by omega) (by omega) (by omega) (by omega) hleft
          (by omega) (by omega)
      refine ⟨List.merge sortedFirst sortedSecond, ?_,
        hfirstSorted.merge hsecondSorted, ?_⟩
      · rw [List.append_assoc, List.append_assoc, ← hnext] at hsecond
        rw [hparts, List.append_assoc]
        exact mergeSort_step hbounds hmid hfirst hsecond hmerge
      · rw [hparts]
        exact (List.merge_perm_append _).trans
          (hfirstPerm.append hsecondPerm)
    · refine ⟨middle, mergeSort_of_le (by omega) _, ?_, List.Perm.refl _⟩
      exact pairwise_of_length_le_one (by omega)

/-- `mergeSort` terminates without a subscript out of range, with the elements
of `arr[left..right]` in order and the others in their places. -/
theorem mergeSort_sortsRange (arr : List ℤ) {left right : ℤ}
    (hleft : 0 ≤ left) (hright : right < arr.length)
    (hint : right < 2 ^ 31) :
    ∃ result, Returns (mergeSort · arr left right) result ∧
      SortsRange arr result left right := by
  by_cases hbounds : left ≤ right
  · obtain ⟨before, after, harr, hstart, hend⟩ :=
      exists_split arr hleft (by omega) hright
    obtain ⟨sorted, hreturns, hsorted, hperm⟩ := mergeSort_returns before
      (slice arr left right) after hstart hend (by omega)
    rw [← harr] at hreturns
    refine ⟨_, hreturns, ?_⟩
    nth_rewrite 1 [harr]
    exact sortsRange_append hstart hend hsorted hperm
  · exact ⟨arr, mergeSort_of_le (by omega) arr,
      sortsRange_refl arr (by omega)⟩

theorem mergeSort_sortsRange_of_five :
    ∃ result, Returns (mergeSort · [9, 5, 2, 5, -7] 1 3) result ∧
      SortsRange [9, 5, 2, 5, -7] result 1 3 :=
  mergeSort_sortsRange _ (by decide) (by decide) (by decide)

end KataCpp.MergeSort
