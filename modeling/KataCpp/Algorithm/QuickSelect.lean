import KataCpp.Core.Iteration
import KataCpp.Core.MachineInt
import KataCpp.Core.Segment

/-!
# Quick select

`findMedian` partitions smaller and smaller ranges around the middle of the
array until a key lands there.  This module has the code and what a partition
does.

`partition` keeps a hole in the range.  The hole starts at the lower end, where
the key has been taken out, and changes sides: an element below the key is
moved from the upper end to the hole at the lower one, an element above the key
from the lower end to the hole at the upper one.  Both scans stop at an element
that equals the key, and neither end moves on from there, so a second element
equal to the key is moved back and forth for ever.
-/

namespace KataCpp.QuickSelect

open Iteration MachineInt Segment
open scoped List

/-- A pass of the loop that moves `high` down. -/
def highPass (arr : List ℤ) (key low high : ℤ) : Outcome ℤ ℤ :=
  if low < high then
    match read arr high with
    | some x => if x > key then .next (high - 1) else .exit high
    | none => .fault
  else .exit high

/-- A pass of the loop that moves `low` up. -/
def lowPass (arr : List ℤ) (key high low : ℤ) : Outcome ℤ ℤ :=
  if low < high then
    match read arr low with
    | some x => if x < key then .next (low + 1) else .exit low
    | none => .fault
  else .exit low

/-- The inner loops make at most `high - low` passes and one more test. -/
def scanHigh (arr : List ℤ) (key low high : ℤ) : Option ℤ :=
  loop (highPass arr key low) ((high - low).toNat + 1) high

def scanLow (arr : List ℤ) (key low high : ℤ) : Option ℤ :=
  loop (lowPass arr key high) ((high - low).toNat + 1) low

structure Scan where
  arr : List ℤ
  low : ℤ
  high : ℤ

/-- The first half of a pass: `arr[low] = arr[high]`. -/
def fillLow (key : ℤ) (scan : Scan) : Option Scan := do
  let high ← scanHigh scan.arr key scan.low scan.high
  let x ← read scan.arr high
  let arr ← write scan.arr scan.low x
  return ⟨arr, scan.low, high⟩

/-- The second half of a pass: `arr[high] = arr[low]`. -/
def fillHigh (key : ℤ) (scan : Scan) : Option Scan := do
  let low ← scanLow scan.arr key scan.low scan.high
  let x ← read scan.arr low
  let arr ← write scan.arr scan.high x
  return ⟨arr, low, scan.high⟩

def partitionPass (key : ℤ) (scan : Scan) : Option Scan :=
  (fillLow key scan).bind (fillHigh key)

def scanLoop (key : ℤ) (fuel : ℕ) (scan : Scan) : Option Scan :=
  whileLoop (fun scan : Scan => scan.low < scan.high) (partitionPass key) fuel
    scan

def partition (fuel : ℕ) (arr : List ℤ) (low high : ℤ) :
    Option (List ℤ × ℤ) := do
  let key ← read arr low
  let scan ← scanLoop key fuel ⟨arr, low, high⟩
  let arr ← write scan.arr scan.low key
  return (arr, scan.low)

section Select

variable (int : ℤ → ℤ)

/-- The selection loop, which leaves the array with the key at `mid`. -/
def select (mid : ℤ) : ℕ → List ℤ → ℤ → ℤ → Option (List ℤ)
  | 0, _, _, _ => none
  | fuel + 1, arr, low, high => do
      let (arr, pos) ← partition fuel arr low high
      if pos = mid then return arr
      else if pos > mid then select mid fuel arr low (int (pos - 1))
      else select mid fuel arr (int (pos + 1)) high

def median (nums : List ℤ) (mid : ℤ) : Option ℚ := do
  if nums.length % 2 = 0 then
    let first ← read nums mid
    let second ← read nums (int (mid + 1))
    return (int (first + second) : ℚ) / 2
  else
    let first ← read nums mid
    return (first : ℚ)

def findMedian (fuel : ℕ) (nums : List ℤ) : Option ℚ := do
  let high := int (nums.length - 1)
  let mid := (int (0 + high)).tdiv 2
  let nums ← select int mid fuel nums 0 high
  median int nums mid

end Select

/-- On which side of the elements to be scanned the hole is. -/
inductive Hole
  | low
  | high
  deriving DecidableEq

/-- How the scans distribute elements that differ from the key: those below it
from the lower end on, and those above it up to the upper end. -/
inductive Arranges (key : ℤ) : Hole → List ℤ → List ℤ → List ℤ → Prop
  | done (hole : Hole) : Arranges key hole [] [] []
  | keepHigh {elements lower upper : List ℤ} {x : ℤ} (hx : key < x)
      (hrest : Arranges key .low elements lower upper) :
      Arranges key .low (elements ++ [x]) lower (upper ++ [x])
  | moveLow {elements lower upper : List ℤ} {x : ℤ} (hx : x < key)
      (hrest : Arranges key .high elements lower upper) :
      Arranges key .low (elements ++ [x]) (x :: lower) upper
  | keepLow {elements lower upper : List ℤ} {x : ℤ} (hx : x < key)
      (hrest : Arranges key .high elements lower upper) :
      Arranges key .high (x :: elements) (x :: lower) upper
  | moveHigh {elements lower upper : List ℤ} {x : ℤ} (hx : key < x)
      (hrest : Arranges key .low elements lower upper) :
      Arranges key .high (x :: elements) lower (upper ++ [x])

section Arranged

variable {key : ℤ} {hole : Hole} {elements lower upper : List ℤ}

theorem Arranges.perm (harranges : Arranges key hole elements lower upper) :
    lower ++ upper ~ elements := by
  induction harranges with
  | done => exact List.Perm.refl _
  | keepHigh hx hrest ih =>
      rw [← List.append_assoc]
      exact ih.append_right _
  | @moveLow elements lower upper x hx hrest ih =>
      calc x :: lower ++ upper
        _ ~ x :: elements := ih.cons x
        _ ~ elements ++ [x] := (List.perm_append_singleton x elements).symm
  | keepLow hx hrest ih => exact ih.cons _
  | @moveHigh elements lower upper x hx hrest ih =>
      calc lower ++ (upper ++ [x])
        _ ~ (lower ++ upper) ++ [x] := by rw [List.append_assoc]
        _ ~ x :: (lower ++ upper) := List.perm_append_singleton x _
        _ ~ x :: elements := ih.cons x

theorem Arranges.lower_lt (harranges : Arranges key hole elements lower upper) :
    ∀ x ∈ lower, x < key := by
  induction harranges with
  | done => simp
  | keepHigh hx hrest ih => exact ih
  | moveLow hx hrest ih => exact List.forall_mem_cons.mpr ⟨hx, ih⟩
  | keepLow hx hrest ih => exact List.forall_mem_cons.mpr ⟨hx, ih⟩
  | moveHigh hx hrest ih => exact ih

theorem Arranges.lt_upper (harranges : Arranges key hole elements lower upper) :
    ∀ x ∈ upper, key < x := by
  induction harranges with
  | done => simp
  | keepHigh hx hrest ih =>
      exact List.forall_mem_append.mpr ⟨ih, List.forall_mem_singleton.mpr hx⟩
  | moveLow hx hrest ih => exact ih
  | keepLow hx hrest ih => exact ih
  | moveHigh hx hrest ih =>
      exact List.forall_mem_append.mpr ⟨ih, List.forall_mem_singleton.mpr hx⟩

theorem exists_arranges (hole : Hole) (elements : List ℤ)
    (hkey : key ∉ elements) :
    ∃ lower upper, Arranges key hole elements lower upper := by
  induction hlength : elements.length generalizing hole elements with
  | zero =>
      obtain rfl := List.eq_nil_of_length_eq_zero hlength
      exact ⟨[], [], Arranges.done hole⟩
  | succ count ih =>
      cases hole with
      | low =>
          rcases List.eq_nil_or_concat' elements with rfl | ⟨rest, x, rfl⟩
          · exact absurd hlength (by simp)
          rw [List.mem_append, List.mem_singleton, not_or] at hkey
          rw [List.length_append, List.length_singleton,
            Nat.add_right_cancel_iff] at hlength
          rcases lt_or_gt_of_ne hkey.2 with hx | hx
          · obtain ⟨lower, upper, hrest⟩ := ih .low rest hkey.1 hlength
            exact ⟨lower, upper ++ [x], hrest.keepHigh hx⟩
          · obtain ⟨lower, upper, hrest⟩ := ih .high rest hkey.1 hlength
            exact ⟨x :: lower, upper, hrest.moveLow hx⟩
      | high =>
          cases elements with
          | nil => exact absurd hlength (by simp)
          | cons x rest =>
              rw [List.mem_cons, not_or] at hkey
              rw [List.length_cons, Nat.add_right_cancel_iff] at hlength
              rcases lt_or_gt_of_ne hkey.1 with hx | hx
              · obtain ⟨lower, upper, hrest⟩ := ih .low rest hkey.2 hlength
                exact ⟨lower, upper ++ [x], hrest.moveHigh hx⟩
              · obtain ⟨lower, upper, hrest⟩ := ih .high rest hkey.2 hlength
                exact ⟨x :: lower, upper, hrest.keepLow hx⟩

end Arranged

section Scans

variable {arr : List ℤ} {key low high x : ℤ}

theorem scanHigh_self (arr : List ℤ) (key low : ℤ) :
    scanHigh arr key low low = some low := by
  rw [scanHigh, loop, highPass, if_neg (lt_irrefl low)]

theorem scanHigh_stop (hbounds : low < high) (hread : read arr high = some x)
    (hx : ¬key < x) : scanHigh arr key low high = some high := by
  rw [scanHigh, loop, highPass, if_pos hbounds, hread]
  simp only [gt_iff_lt, if_neg hx]

theorem scanHigh_next (hbounds : low < high) (hread : read arr high = some x)
    (hx : key < x) :
    scanHigh arr key low high = scanHigh arr key low (high - 1) := by
  have hfuel : (high - low).toNat = (high - 1 - low).toNat + 1 := by omega
  rw [scanHigh, loop, highPass, if_pos hbounds, hread]
  simp only [gt_iff_lt, if_pos hx]
  rw [hfuel, scanHigh]

theorem scanLow_self (arr : List ℤ) (key low : ℤ) :
    scanLow arr key low low = some low := by
  rw [scanLow, loop, lowPass, if_neg (lt_irrefl low)]

theorem scanLow_stop (hbounds : low < high) (hread : read arr low = some x)
    (hx : ¬x < key) : scanLow arr key low high = some low := by
  rw [scanLow, loop, lowPass, if_pos hbounds, hread]
  simp only [if_neg hx]

theorem scanLow_next (hbounds : low < high) (hread : read arr low = some x)
    (hx : x < key) :
    scanLow arr key low high = scanLow arr key (low + 1) high := by
  have hfuel : (high - low).toNat = (high - (low + 1)).toNat + 1 := by omega
  rw [scanLow, loop, lowPass, if_pos hbounds, hread]
  simp only [if_pos hx]
  rw [hfuel, scanLow]

end Scans

section Halves

variable {before elements after : List ℤ} {key low high h x : ℤ}

/-- The loop has nothing to do when the ends meet. -/
theorem fillLow_self (hlow : low = before.length) :
    fillLow key ⟨before ++ h :: after, low, low⟩ =
      some ⟨before ++ h :: after, low, low⟩ := by
  rw [fillLow, scanHigh_self, Option.bind_eq_bind, Option.bind_some,
    read_append_cons hlow, Option.bind_some, write_append_cons hlow]
  rfl

theorem fillHigh_self (hlow : low = before.length) :
    fillHigh key ⟨before ++ h :: after, low, low⟩ =
      some ⟨before ++ h :: after, low, low⟩ := by
  rw [fillHigh, scanLow_self, Option.bind_eq_bind, Option.bind_some,
    read_append_cons hlow, Option.bind_some, write_append_cons hlow]
  rfl

variable (hlow : low = before.length)
  (hhigh : high = low + elements.length + 1)
include hlow hhigh

theorem read_high :
    read (before ++ h :: (elements ++ x :: after)) high = some x := by
  rw [← List.cons_append, ← List.append_assoc]
  apply read_append_cons
  rw [List.length_append, List.length_cons]
  omega

theorem write_high (y : ℤ) :
    write (before ++ h :: (elements ++ x :: after)) high y =
      some (before ++ h :: (elements ++ y :: after)) := by
  rw [← List.cons_append, ← List.append_assoc, write_append_cons,
    List.append_assoc, List.cons_append]
  rw [List.length_append, List.length_cons]
  omega

/-- An element above the key stays at the upper end. -/
theorem fillLow_next (hx : key < x) :
    fillLow key ⟨before ++ h :: (elements ++ x :: after), low, high⟩ =
      fillLow key ⟨before ++ h :: (elements ++ x :: after), low,
        high - 1⟩ := by
  have hbounds : low < high := by omega
  rw [fillLow, fillLow, scanHigh_next hbounds (read_high hlow hhigh) hx]

/-- An element that is not above the key goes to the hole. -/
theorem fillLow_stop (hx : ¬key < x) :
    fillLow key ⟨before ++ h :: (elements ++ x :: after), low, high⟩ =
      some ⟨before ++ x :: (elements ++ x :: after), low, high⟩ := by
  have hbounds : low < high := by omega
  have hread : read (before ++ h :: (elements ++ x :: after)) high = some x :=
    read_high hlow hhigh
  rw [fillLow, scanHigh_stop hbounds hread hx, Option.bind_eq_bind,
    Option.bind_some, hread, Option.bind_some, write_append_cons hlow]
  rfl

/-- An element below the key stays at the lower end. -/
theorem fillHigh_next (hx : x < key) :
    fillHigh key ⟨before ++ x :: (elements ++ h :: after), low, high⟩ =
      fillHigh key ⟨before ++ x :: (elements ++ h :: after), low + 1,
        high⟩ := by
  have hbounds : low < high := by omega
  rw [fillHigh, fillHigh, scanLow_next hbounds (read_append_cons hlow) hx]

/-- An element that is not below the key goes to the hole. -/
theorem fillHigh_stop (hx : ¬x < key) :
    fillHigh key ⟨before ++ x :: (elements ++ h :: after), low, high⟩ =
      some ⟨before ++ x :: (elements ++ x :: after), low, high⟩ := by
  have hbounds : low < high := by omega
  rw [fillHigh, scanLow_stop hbounds (read_append_cons hlow) hx,
    Option.bind_eq_bind, Option.bind_some, read_append_cons hlow,
    Option.bind_some, write_high hlow hhigh]
  rfl

end Halves

section Loop

variable {before elements after : List ℤ} {key low high h x : ℤ}

/-- Elements above the key at the upper end do not change the loop. -/
theorem scanLoop_next (hlow : low = before.length)
    (hhigh : high = low + elements.length + 1) (hx : key < x)
    (hsome : elements ≠ []) (fuel : ℕ) :
    scanLoop key fuel
        ⟨before ++ h :: (elements ++ x :: after), low, high⟩ =
      scanLoop key fuel
        ⟨before ++ h :: (elements ++ x :: after), low, high - 1⟩ := by
  have hpositive := List.length_pos_iff_ne_nil.mpr hsome
  have hbounds : low < high := by omega
  have hbounds' : low < high - 1 := by omega
  cases fuel with
  | zero => rfl
  | succ fuel =>
      rw [scanLoop, scanLoop, whileLoop, whileLoop, loop, loop, whilePass,
        whilePass, if_pos hbounds, if_pos hbounds', partitionPass,
        partitionPass, fillLow_next hlow hhigh hx]

/-- A pass moves an element below the key, and goes on behind it. -/
theorem partitionPass_moveLow (hlow : low = before.length)
    (hhigh : high = low + elements.length + 1) (hx : x < key) :
    partitionPass key ⟨before ++ h :: (elements ++ x :: after), low, high⟩ =
      fillHigh key
        ⟨before ++ x :: (elements ++ x :: after), low + 1, high⟩ := by
  rw [partitionPass, fillLow_stop hlow hhigh (not_lt.mpr hx.le),
    Option.bind_some, fillHigh_next hlow hhigh hx]

/-- A pass that meets the key at the upper end puts it at both ends. -/
theorem partitionPass_key (hlow : low = before.length)
    (hhigh : high = low + elements.length + 1) :
    partitionPass key ⟨before ++ h :: (elements ++ key :: after), low, high⟩ =
      some ⟨before ++ key :: (elements ++ key :: after), low, high⟩ := by
  rw [partitionPass, fillLow_stop hlow hhigh (lt_irrefl key),
    Option.bind_some, fillHigh_stop hlow hhigh (lt_irrefl key)]

end Loop

/-- Where the hole is in an array that is being partitioned. -/
def holed (hole : Hole) (before elements after : List ℤ) (h : ℤ) : List ℤ :=
  match hole with
  | .low => before ++ h :: (elements ++ after)
  | .high => before ++ (elements ++ h :: after)

/-- What holds of the rest of the loop, from the half of a pass for the hole
on. -/
def Continues (run : (ℕ → Option Scan) → Prop) (key : ℤ) (hole : Hole)
    (scan : Scan) : Prop :=
  match hole with
  | .low => run (scanLoop key · scan)
  | .high => ∃ next, fillHigh key scan = some next ∧ run (scanLoop key · next)

section Continuing

variable {run : (ℕ → Option Scan) → Prop} {before elements after : List ℤ}
  {key low high h x : ℤ}
  (hpass : ∀ scan next, scan.low < scan.high →
    partitionPass key scan = some next → run (scanLoop key · next) →
    run (scanLoop key · scan))
  (hlow : low = before.length) (hhigh : high = low + elements.length + 1)
include hpass hlow hhigh

/-- The loop goes on below an element that stays at the upper end. -/
theorem run_keepHigh (hx : key < x)
    (hrest : run (scanLoop key ·
      ⟨before ++ h :: (elements ++ x :: after), low, high - 1⟩)) :
    run (scanLoop key ·
      ⟨before ++ h :: (elements ++ x :: after), low, high⟩) := by
  by_cases hsome : elements = []
  · -- The ends meet without another element, and one pass notices it.
    subst hsome
    have hmeet : high - 1 = low := by
      rw [hhigh, List.length_nil]
      omega
    apply hpass _ _ (show low < high by omega) _ hrest
    rw [partitionPass, fillLow_next hlow hhigh hx, hmeet, fillLow_self hlow,
      Option.bind_some, fillHigh_self hlow]
  · simpa only [scanLoop_next hlow hhigh hx hsome] using hrest

theorem Continues.keepHigh (hx : key < x)
    (hrest : Continues run key .low
      ⟨holed .low before elements (x :: after) h, low, high - 1⟩) :
    Continues run key .low
      ⟨holed .low before (elements ++ [x]) after h, low, high⟩ := by
  simp only [Continues, holed, List.append_assoc,
    List.singleton_append] at hrest ⊢
  exact run_keepHigh hpass hlow hhigh hx hrest

theorem Continues.moveLow (hx : x < key)
    (hrest : Continues run key .high
      ⟨holed .high (before ++ [x]) elements after x, low + 1, high⟩) :
    Continues run key .low
      ⟨holed .low before (elements ++ [x]) after h, low, high⟩ := by
  obtain ⟨next, hnext, hrun⟩ := hrest
  simp only [Continues, holed, List.append_assoc, List.cons_append,
    List.nil_append] at hnext ⊢
  apply hpass _ next (show low < high by omega) _ hrun
  rw [partitionPass_moveLow hlow hhigh hx, hnext]

omit hpass in
theorem Continues.keepLow (hx : x < key)
    (hrest : Continues run key .high
      ⟨holed .high (before ++ [x]) elements after h, low + 1, high⟩) :
    Continues run key .high
      ⟨holed .high before (x :: elements) after h, low, high⟩ := by
  obtain ⟨next, hnext, hrun⟩ := hrest
  refine ⟨next, ?_, hrun⟩
  simp only [holed, List.append_assoc, List.cons_append,
    List.nil_append] at hnext ⊢
  rw [fillHigh_next hlow hhigh hx, hnext]

theorem Continues.moveHigh (hx : key < x)
    (hrest : Continues run key .low
      ⟨holed .low before elements (x :: after) x, low, high - 1⟩) :
    Continues run key .high
      ⟨holed .high before (x :: elements) after h, low, high⟩ :=
  ⟨_, fillHigh_stop hlow hhigh (not_lt.mpr hx.le),
    run_keepHigh hpass hlow hhigh hx hrest⟩

end Continuing

/-- The loop leaves the elements arranged around the hole. -/
theorem continues_of_arranges {key : ℤ} {hole : Hole}
    {elements lower upper : List ℤ}
    (harranges : Arranges key hole elements lower upper)
    {low high : ℤ} (before after : List ℤ) (h : ℤ)
    (hlow : low = before.length) (hhigh : high = low + elements.length) :
    ∃ rest, Continues (Returns · ⟨before ++ (lower ++ rest ::
        (upper ++ after)), low + lower.length, low + lower.length⟩) key hole
      ⟨holed hole before elements after h, low, high⟩ := by
  have hpass (final scan next : Scan) (hbounds : scan.low < scan.high)
      (hnext : partitionPass key scan = some next)
      (hrest : Returns (scanLoop key · next) final) :
      Returns (scanLoop key · scan) final :=
    returns_of_next (whilePass_of_condition hbounds hnext) hrest
  induction harranges generalizing low high before after h with
  | done hole =>
      obtain rfl : high = low := by simpa using hhigh
      have hexit : Returns (scanLoop key · ⟨before ++ h :: after, high, high⟩)
          ⟨before ++ h :: after, high, high⟩ :=
        returns_of_exit (whilePass_of_not (lt_irrefl high))
      refine ⟨h, ?_⟩
      cases hole with
      | low => simpa [Continues, holed] using hexit
      | high => exact ⟨_, fillHigh_self hlow, by simpa using hexit⟩
  | @keepHigh elements lower upper x hx hrest ih =>
      rw [List.length_append, List.length_singleton] at hhigh
      obtain ⟨rest, hrun⟩ := ih before (x :: after) h hlow
        (show high - 1 = low + elements.length by omega)
      refine ⟨rest, ?_⟩
      rw [List.append_assoc, List.singleton_append]
      exact hrun.keepHigh (hpass _) hlow (by omega) hx
  | @moveLow elements lower upper x hx hrest ih =>
      rw [List.length_append, List.length_singleton] at hhigh
      obtain ⟨rest, hrun⟩ := ih (before ++ [x]) after x
        (show low + 1 = (before ++ [x]).length by simp [hlow])
        (show high = low + 1 + elements.length by omega)
      refine ⟨rest, ?_⟩
      rw [List.append_assoc, List.singleton_append, add_assoc,
        add_comm (1 : ℤ)] at hrun
      exact hrun.moveLow (hpass _) hlow (by omega) hx
  | @keepLow elements lower upper x hx hrest ih =>
      rw [List.length_cons] at hhigh
      obtain ⟨rest, hrun⟩ := ih (before ++ [x]) after h
        (show low + 1 = (before ++ [x]).length by simp [hlow])
        (show high = low + 1 + elements.length by omega)
      refine ⟨rest, ?_⟩
      rw [List.append_assoc, List.singleton_append, add_assoc,
        add_comm (1 : ℤ)] at hrun
      exact hrun.keepLow hlow (by omega) hx
  | @moveHigh elements lower upper x hx hrest ih =>
      rw [List.length_cons] at hhigh
      obtain ⟨rest, hrun⟩ := ih before (x :: after) x hlow
        (show high - 1 = low + elements.length by omega)
      refine ⟨rest, ?_⟩
      rw [List.append_assoc, List.singleton_append]
      exact hrun.moveHigh (hpass _) hlow (by omega) hx

/-- The result of a partition whose key occurs once. -/
theorem partition_returns {key : ℤ} {rest lower upper : List ℤ}
    (harranges : Arranges key .low rest lower upper) {low high : ℤ}
    (before after : List ℤ) (hlow : low = before.length)
    (hhigh : high = low + rest.length) :
    Returns (partition · (before ++ (key :: rest ++ after)) low high)
      (before ++ (lower ++ key :: (upper ++ after)), low + lower.length) := by
  obtain ⟨last, hloop⟩ :=
    continues_of_arranges harranges before after key hlow hhigh
  have hwrite : write (before ++ (lower ++ last :: (upper ++ after)))
      (low + lower.length) key =
      some (before ++ (lower ++ key :: (upper ++ after))) := by
    rw [← List.append_assoc, write_append_cons, List.append_assoc]
    rw [List.length_append, Nat.cast_add, hlow]
  simp only [partition, List.cons_append, read_append_cons hlow,
    Option.bind_eq_bind, Option.bind_some]
  refine hloop.bind ?_
  simp only [hwrite, Option.bind_some]
  exact returns_some _

/-! ## Distinct elements -/

/-- The range is rearranged around the key, which is at `pos`. -/
structure PartitionsRange (arr result : List ℤ) (low high pos key : ℤ) :
    Prop extends KeepsRange arr result low high where
  low_le : low ≤ pos
  le_high : pos ≤ high
  original : read arr low = some key
  placed : read result pos = some key
  below : ∀ x ∈ slice result low (pos - 1), x < key
  above : ∀ x ∈ slice result (pos + 1) high, key < x

/-- What a partition leaves, read off from the parts of the array. -/
theorem Arranges.partitionsRange {key : ℤ} {rest lower upper : List ℤ}
    (harranges : Arranges key .low rest lower upper) {low high : ℤ}
    (before after : List ℤ) (hlow : low = before.length)
    (hhigh : high = low + rest.length) :
    PartitionsRange (before ++ (key :: rest ++ after))
      (before ++ (lower ++ key :: (upper ++ after))) low high
      (low + lower.length) key := by
  have hperm : lower ++ key :: upper ~ key :: rest :=
    List.perm_middle.trans (harranges.perm.cons key)
  have hlength : lower.length + upper.length = rest.length := by
    rw [← List.length_append]
    exact harranges.perm.length_eq
  have hkeeps : KeepsRange (before ++ (key :: rest ++ after))
      (before ++ ((lower ++ key :: upper) ++ after)) low high :=
    keepsRange_append hlow (by rw [List.length_cons]; omega) hperm
  rw [List.append_assoc, List.cons_append] at hkeeps
  have hplace : low + lower.length = (before ++ lower).length := by
    rw [List.length_append]
    omega
  refine ⟨hkeeps, by omega, by omega, read_append_cons hlow, ?_, ?_, ?_⟩
  · rw [← List.append_assoc, read_append_cons hplace]
  · rw [slice_append hlow (by omega)]
    exact harranges.lower_lt
  · have hsplit : before ++ (lower ++ key :: (upper ++ after)) =
        (before ++ lower ++ [key]) ++ (upper ++ after) := by
      simp
    have hbehind : (before ++ lower ++ [key]).length =
        before.length + lower.length + 1 := by
      rw [List.length_append, List.length_append, List.length_singleton]
    rw [hsplit, slice_append (by omega) (by omega)]
    exact harranges.lt_upper

/-- Distinct elements are partitioned around the first one. -/
theorem partition_distinct (arr : List ℤ) {low high : ℤ} (hlow : 0 ≤ low)
    (hbounds : low ≤ high) (hhigh : high < arr.length)
    (hdistinct : (slice arr low high).Nodup) :
    ∃ result pos key,
      Returns (partition · arr low high) (result, pos) ∧
        PartitionsRange arr result low high pos key := by
  obtain ⟨before, after, hsplit, hbefore, hend⟩ :=
    exists_split arr hlow (by omega) hhigh
  cases hrange : slice arr low high with
  | nil =>
      rw [hrange, List.length_nil] at hend
      omega
  | cons key rest =>
      rw [hrange] at hsplit hend hdistinct
      rw [List.length_cons] at hend
      obtain ⟨lower, upper, harranges⟩ :=
        exists_arranges .low rest (List.nodup_cons.mp hdistinct).1
      rw [hsplit]
      exact ⟨_, _, key,
        partition_returns harranges before after hbefore (by omega),
        harranges.partitionsRange before after hbefore (by omega)⟩

theorem partition_distinct_six_elements :
    ∃ result pos key,
      Returns (partition · [7, 5, 3, 1, 11, 9] 0 5) (result, pos) ∧
        PartitionsRange [7, 5, 3, 1, 11, 9] result 0 5 pos key :=
  partition_distinct _ le_rfl (by decide) (by decide) (by decide)

/-! ## A key that occurs twice -/

/-- The two ends of the range both hold the key. -/
theorem scanLoop_of_key {before elements after : List ℤ} {key low high : ℤ}
    (hlow : low = before.length) (hhigh : high = low + elements.length + 1)
    (fuel : ℕ) :
    scanLoop key fuel
      ⟨before ++ key :: (elements ++ key :: after), low, high⟩ = none := by
  apply loop_of_next_self
  exact whilePass_of_condition (by dsimp only; omega)
    (partitionPass_key hlow hhigh)

/-- The loop does not end if one of the elements equals the key. -/
theorem continues_of_mem {key : ℤ} (hole : Hole) (elements : List ℤ)
    (hkey : key ∈ elements) {low high : ℤ} (before after : List ℤ) (h : ℤ)
    (hlow : low = before.length) (hhigh : high = low + elements.length) :
    Continues (fun run => ∀ fuel, run fuel = none) key hole
      ⟨holed hole before elements after h, low, high⟩ := by
  have hpass (scan next : Scan) (hbounds : scan.low < scan.high)
      (hnext : partitionPass key scan = some next)
      (hrest : ∀ fuel, scanLoop key fuel next = none) (fuel : ℕ) :
      scanLoop key fuel scan = none := by
    apply loop_of_next _ hrest
    exact whilePass_of_condition hbounds hnext
  induction hlength : elements.length
    generalizing hole elements low high before after h with
  | zero =>
      obtain rfl := List.eq_nil_of_length_eq_zero hlength
      exact absurd hkey List.not_mem_nil
  | succ count ih =>
      cases hole with
      | low =>
          rcases List.eq_nil_or_concat' elements with rfl | ⟨rest, x, rfl⟩
          · exact absurd hkey List.not_mem_nil
          rw [List.length_append, List.length_singleton] at hhigh hlength
          rcases lt_trichotomy key x with hx | rfl | hx
          · have hrest : key ∈ rest := by simpa [hx.ne] using hkey
            exact (ih .low rest hrest before (x :: after) h hlow (by omega)
              (by omega)).keepHigh hpass hlow (by omega) hx
          · simp only [Continues, holed, List.append_assoc,
              List.singleton_append]
            exact hpass _ _ (show low < high by omega)
              (partitionPass_key hlow (by omega))
              (scanLoop_of_key hlow (by omega))
          · have hrest : key ∈ rest := by simpa [hx.ne'] using hkey
            exact (ih .high rest hrest (before ++ [x]) after x
              (by simp [hlow]) (by omega) (by omega)).moveLow hpass hlow
                (by omega) hx
      | high =>
          cases elements with
          | nil => exact absurd hkey List.not_mem_nil
          | cons x rest =>
              rw [List.length_cons] at hhigh hlength
              rcases lt_trichotomy key x with hx | rfl | hx
              · have hrest : key ∈ rest := by simpa [hx.ne] using hkey
                exact (ih .low rest hrest before (x :: after) x hlow
                  (by omega) (by omega)).moveHigh hpass hlow (by omega) hx
              · exact ⟨_, fillHigh_stop hlow (by omega) (lt_irrefl key),
                  scanLoop_of_key hlow (by omega)⟩
              · have hrest : key ∈ rest := by simpa [hx.ne'] using hkey
                exact (ih .high rest hrest (before ++ [x]) after h
                  (by simp [hlow]) (by omega) (by omega)).keepLow hlow
                    (by omega) hx

/-- A partition does not end if its key occurs again. -/
theorem partition_of_mem {key : ℤ} {rest : List ℤ} (hkey : key ∈ rest)
    {low high : ℤ} (fuel : ℕ) (before after : List ℤ)
    (hlow : low = before.length) (hhigh : high = low + rest.length) :
    partition fuel (before ++ (key :: rest ++ after)) low high = none := by
  have hloop := continues_of_mem .low rest hkey before after key hlow hhigh
  rw [partition, List.cons_append, read_append_cons hlow,
    Option.bind_eq_bind, Option.bind_some]
  simp only [Continues, holed] at hloop
  rw [hloop fuel]
  rfl

theorem partition_succ {fuel : ℕ} {arr : List ℤ} {low high : ℤ}
    {result : List ℤ × ℤ} (hfuel : partition fuel arr low high = some result) :
    partition (fuel + 1) arr low high = some result := by
  simp only [partition, Option.bind_eq_bind, Option.bind_eq_some_iff]
    at hfuel ⊢
  obtain ⟨key, hkey, scan, hscan, hresult⟩ := hfuel
  exact ⟨key, hkey, scan, loop_succ hscan, hresult⟩

end KataCpp.QuickSelect
