import Mathlib

/-!
# Arrays and their segments

An array is read and written at integer subscripts; a subscript out of range
faults.  The operations are stated for an array that is split at the subscript,
which is the form in which the proofs about in-place algorithms keep it.

`SortsRange` is the specification of a procedure that sorts the segment of an
array between two inclusive bounds.
-/

namespace KataCpp.Segment

variable {α : Type*}

/-- The element `arr[i]`. -/
def read (arr : List α) (i : ℤ) : Option α :=
  if 0 ≤ i then arr[i.toNat]? else none

/-- The assignment `arr[i] = x`. -/
def write (arr : List α) (i : ℤ) (x : α) : Option (List α) :=
  if 0 ≤ i ∧ i < arr.length then some (arr.set i.toNat x) else none

/-- The exchange of `arr[i]` and `arr[j]`. -/
def swap (arr : List α) (i j : ℤ) : Option (List α) := do
  let x ← read arr i
  let y ← read arr j
  let arr ← write arr i y
  write arr j x

section Access

variable {before between after : List α} {x y : α} {i j : ℤ}

theorem read_of_neg {arr : List α} (hi : i < 0) : read arr i = none := by
  rw [read, if_neg (by omega)]

theorem read_natCast (arr : List α) (index : ℕ) :
    read arr index = arr[index]? := by
  rw [read, if_pos (by omega), Int.toNat_natCast]

/-- What stands behind an array is not read by subscripts of the array. -/
theorem read_append_left {arr : List α} (tail : List α) (hi : i < arr.length) :
    read (arr ++ tail) i = read arr i := by
  rw [read, read]
  split_ifs with hlower
  · rw [List.getElem?_append_left (by omega)]
  · rfl

theorem mem_of_read {arr : List α} (hread : read arr i = some x) :
    x ∈ arr := by
  rw [read] at hread
  split_ifs at hread
  exact List.mem_of_getElem? hread

theorem read_set_self {arr : List α} (hlower : 0 ≤ i)
    (hupper : i < arr.length) (x : α) :
    read (arr.set i.toNat x) i = some x := by
  rw [read, if_pos hlower, List.getElem?_set_self (by omega)]

theorem read_set_of_ne (arr : List α) (hlower : 0 ≤ i) (hne : i ≠ j) (x : α) :
    read (arr.set i.toNat x) j = read arr j := by
  rw [read, read]
  split_ifs with hj
  · rw [List.getElem?_set_ne (by omega)]
  · rfl

theorem set_of_read {arr : List α} (hread : read arr i = some x) :
    arr.set i.toNat x = arr := by
  rw [read] at hread
  split_ifs at hread
  obtain ⟨hlength, rfl⟩ := List.getElem?_eq_some_iff.mp hread
  exact List.set_getElem_self hlength

theorem write_eq_set {arr : List α} (hlower : 0 ≤ i)
    (hupper : i < arr.length) (x : α) :
    write arr i x = some (arr.set i.toNat x) :=
  if_pos ⟨hlower, hupper⟩

theorem read_append_cons (hi : i = before.length) :
    read (before ++ x :: after) i = some x := by
  rw [hi, read_natCast, List.getElem?_append_right le_rfl, Nat.sub_self]
  rfl

theorem write_append_cons (hi : i = before.length) (y : α) :
    write (before ++ x :: after) i y = some (before ++ y :: after) := by
  have hlength : i < (before ++ x :: after).length := by
    rw [List.length_append, List.length_cons]
    omega
  rw [write, if_pos ⟨by omega, hlength⟩, hi, Int.toNat_natCast,
    List.set_append_right _ _ le_rfl, Nat.sub_self, List.set_cons_zero]

theorem swap_append_cons (hi : i = before.length)
    (hj : j = before.length + between.length + 1) :
    swap (before ++ x :: (between ++ y :: after)) i j =
      some (before ++ y :: (between ++ x :: after)) := by
  have hsplit (head : α) (rest : List α) :
      before ++ head :: (between ++ rest) =
        (before ++ head :: between) ++ rest := by
    simp
  have hsecond (head : α) : j = (before ++ head :: between).length := by
    rw [List.length_append, List.length_cons]
    omega
  rw [swap, read_append_cons hi, Option.bind_eq_bind, Option.bind_some,
    hsplit, read_append_cons (hsecond x), Option.bind_eq_bind,
    Option.bind_some, ← hsplit, write_append_cons hi, Option.bind_some,
    hsplit, write_append_cons (hsecond y), ← hsplit]

theorem swap_self (hi : i = before.length) :
    swap (before ++ x :: after) i i = some (before ++ x :: after) := by
  rw [swap, read_append_cons hi, Option.bind_eq_bind, Option.bind_some,
    Option.bind_eq_bind, Option.bind_some, write_append_cons hi,
    Option.bind_some, write_append_cons hi]

/-- The first element of a block changes places with the element behind the
block: the block moves on by one place and is rotated. -/
theorem swap_rotate {block : List α} (hi : i = before.length)
    (hj : j = before.length + block.length) :
    swap (before ++ (block ++ x :: after)) i j =
      some (before ++ x :: (block.rotate 1 ++ after)) := by
  cases block with
  | nil =>
      obtain rfl : i = j := by simpa [hi] using hj.symm
      exact swap_self hi
  | cons first rest =>
      rw [List.cons_append, swap_append_cons hi (by simpa [add_assoc] using hj),
        List.rotate_cons_succ, List.rotate_zero, List.append_assoc,
        List.singleton_append]

end Access

section Sorting

theorem pairwise_of_length_le_one {relation : α → α → Prop} {list : List α}
    (hlength : list.length ≤ 1) : list.Pairwise relation := by
  match list, hlength with
  | [], _ => exact List.Pairwise.nil
  | [x], _ => exact List.pairwise_singleton _ x

/-- The elements `arr[left], …, arr[right]`. -/
def slice (arr : List α) (left right : ℤ) : List α :=
  (arr.drop left.toNat).take (right + 1 - left).toNat

/-- An array is taken apart at the bounds of a segment. -/
theorem eq_append_slice (arr : List α) {left right : ℤ} (hleft : 0 ≤ left)
    (hbounds : left ≤ right + 1) :
    arr = arr.take left.toNat ++
      (slice arr left right ++ arr.drop (right + 1).toNat) := by
  have hsum : left.toNat + (right + 1 - left).toNat = (right + 1).toNat := by
    omega
  rw [slice, ← hsum, ← List.drop_drop, List.take_append_drop,
    List.take_append_drop]

theorem length_slice (arr : List α) {left right : ℤ} (hleft : 0 ≤ left)
    (hbounds : left ≤ right + 1) (hright : right < arr.length) :
    ((slice arr left right).length : ℤ) = right + 1 - left := by
  rw [slice, List.length_take, List.length_drop]
  omega

/-- The parts before and behind a segment, and how the bounds count them. -/
theorem exists_split (arr : List α) {left right : ℤ} (hleft : 0 ≤ left)
    (hbounds : left ≤ right + 1) (hright : right < arr.length) :
    ∃ before after, arr = before ++ (slice arr left right ++ after) ∧
      left = before.length ∧
      right + 1 = before.length + (slice arr left right).length := by
  have hlength := length_slice arr hleft hbounds hright
  have hstart : left = (arr.take left.toNat).length := by
    rw [List.length_take]
    omega
  exact ⟨_, _, eq_append_slice arr hleft hbounds, hstart, by omega⟩

theorem slice_of_lt (arr : List α) {left right : ℤ}
    (hbounds : right < left) : slice arr left right = [] := by
  have hcount : (right + 1 - left).toNat = 0 := by omega
  rw [slice, hcount, List.take_zero]

theorem slice_append {before middle after : List α} {left right : ℤ}
    (hleft : left = before.length)
    (hright : right + 1 = before.length + middle.length) :
    slice (before ++ (middle ++ after)) left right = middle := by
  have hcount : (right + 1 - left).toNat = middle.length := by omega
  rw [slice, hcount, hleft, Int.toNat_natCast, List.drop_left,
    List.take_left]

/-- The segment has kept its elements, and nothing outside it has changed. -/
structure KeepsRange (arr result : List α) (left right : ℤ) : Prop where
  length_eq : result.length = arr.length
  perm : (slice result left right).Perm (slice arr left right)
  before_eq : result.take left.toNat = arr.take left.toNat
  after_eq : result.drop (right + 1).toNat = arr.drop (right + 1).toNat

theorem keepsRange_append {before middle moved after : List α}
    {left right : ℤ} (hleft : left = before.length)
    (hright : right + 1 = before.length + middle.length)
    (hperm : moved.Perm middle) :
    KeepsRange (before ++ (middle ++ after)) (before ++ (moved ++ after))
      left right := by
  have hlength := hperm.length_eq
  have hend : (right + 1).toNat = before.length + middle.length := by omega
  refine ⟨by simp [hlength], ?_, ?_, ?_⟩
  · rwa [slice_append hleft (by omega), slice_append hleft hright]
  · rw [hleft, Int.toNat_natCast, List.take_left, List.take_left]
  · rw [hend, ← List.drop_drop, ← List.drop_drop, List.drop_left,
      List.drop_left, List.drop_left, ← hlength, List.drop_left]

variable [LE α]

/-- The segment is sorted in place: it is in order, has kept its elements, and
nothing outside it has changed. -/
structure SortsRange (arr result : List α) (left right : ℤ) : Prop where
  length_eq : result.length = arr.length
  sorted : (slice result left right).Pairwise (· ≤ ·)
  perm : (slice result left right).Perm (slice arr left right)
  before_eq : result.take left.toNat = arr.take left.toNat
  after_eq : result.drop (right + 1).toNat = arr.drop (right + 1).toNat

/-- At most one element needs no sorting. -/
theorem sortsRange_refl (arr : List α) {left right : ℤ}
    (hbounds : right ≤ left) : SortsRange arr arr left right := by
  refine ⟨rfl, ?_, List.Perm.refl _, rfl, rfl⟩
  have hlength : (slice arr left right).length ≤ 1 := by
    rw [slice, List.length_take]
    omega
  exact pairwise_of_length_le_one hlength

theorem sortsRange_append {before middle sorted after : List α}
    {left right : ℤ} (hleft : left = before.length)
    (hright : right + 1 = before.length + middle.length)
    (hsorted : sorted.Pairwise (· ≤ ·)) (hperm : sorted.Perm middle) :
    SortsRange (before ++ (middle ++ after)) (before ++ (sorted ++ after))
      left right := by
  have hlength := hperm.length_eq
  have hkeeps := @keepsRange_append _ _ _ _ after _ _ hleft hright hperm
  refine ⟨hkeeps.length_eq, ?_, hkeeps.perm, hkeeps.before_eq,
    hkeeps.after_eq⟩
  rwa [slice_append hleft (by omega)]

end Sorting

end KataCpp.Segment
