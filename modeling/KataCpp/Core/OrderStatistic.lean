import Mathlib

/-!
# Order statistics

An element with as many elements not above it on one side and the others not
below it on the other side is the entry of the sorted list at that position.
Whoever knows such a split need not sort to find the entry.
-/

namespace KataCpp.OrderStatistic

open scoped List

section Entries

variable {α : Type*} [LinearOrder α]
  {elements before after lower upper : List α} {x : α}

def ascending (elements : List α) : List α := elements.insertionSort (· ≤ ·)

theorem ascending_perm (elements : List α) : ascending elements ~ elements :=
  List.perm_insertionSort (· ≤ ·) elements

theorem pairwise_ascending (elements : List α) :
    (ascending elements).Pairwise (· ≤ ·) :=
  List.pairwise_insertionSort (· ≤ ·) elements

theorem length_ascending (elements : List α) :
    (ascending elements).length = elements.length :=
  (ascending_perm elements).length_eq

/-- The only ascending order of the elements. -/
theorem ascending_eq {sorted : List α} (hperm : sorted ~ elements)
    (hsorted : sorted.Pairwise (· ≤ ·)) : ascending elements = sorted :=
  ((ascending_perm elements).trans hperm.symm).eq_of_pairwise'
    (pairwise_ascending elements) hsorted

/-- The position of an element is the number of elements on its lower side. -/
theorem getElem?_ascending (hperm : before ++ x :: after ~ elements)
    (hbefore : ∀ y ∈ before, y ≤ x) (hafter : ∀ y ∈ after, x ≤ y) :
    (ascending elements)[before.length]? = some x := by
  have hbefore' : ∀ y ∈ ascending before, y ≤ x := fun y hy =>
    hbefore y ((ascending_perm before).mem_iff.mp hy)
  have hafter' : ∀ y ∈ ascending after, x ≤ y := fun y hy =>
    hafter y ((ascending_perm after).mem_iff.mp hy)
  have hsorted : (ascending before ++ x :: ascending after).Pairwise
      (· ≤ ·) := by
    rw [List.pairwise_append, List.pairwise_cons]
    refine ⟨pairwise_ascending before, ⟨hafter', pairwise_ascending after⟩, ?_⟩
    intro y hy z hz
    rcases List.mem_cons.mp hz with rfl | hz
    · exact hbefore' y hy
    · exact (hbefore' y hy).trans (hafter' z hz)
  have hparts : ascending before ++ x :: ascending after ~
      before ++ x :: after :=
    (ascending_perm before).append ((ascending_perm after).cons x)
  rw [ascending_eq (hparts.trans hperm) hsorted, ← length_ascending before,
    List.getElem?_append_right le_rfl, Nat.sub_self]
  rfl

variable (hperm : lower ++ upper ~ elements)
  (hsplit : ∀ y ∈ lower, ∀ z ∈ upper, y ≤ z)
include hperm hsplit

theorem getElem?_ascending_of_greatest (hx : x ∈ lower)
    (hgreatest : ∀ y ∈ lower, y ≤ x) :
    (ascending elements)[lower.length - 1]? = some x := by
  have hparts : lower.erase x ++ x :: upper ~ lower ++ upper := by
    calc lower.erase x ++ x :: upper
      _ ~ x :: lower.erase x ++ upper := List.perm_middle
      _ ~ lower ++ upper := (List.perm_cons_erase hx).symm.append_right upper
  rw [← List.length_erase_of_mem hx]
  apply getElem?_ascending (hparts.trans hperm)
  · exact fun y hy => hgreatest y (List.mem_of_mem_erase hy)
  · exact hsplit x hx

theorem getElem?_ascending_of_least (hx : x ∈ upper)
    (hleast : ∀ y ∈ upper, x ≤ y) :
    (ascending elements)[lower.length]? = some x := by
  have hparts : lower ++ x :: upper.erase x ~ lower ++ upper :=
    (List.perm_cons_erase hx).symm.append_left lower
  apply getElem?_ascending (hparts.trans hperm)
  · exact fun y hy => hsplit y hy x hx
  · exact fun y hy => hleast y (List.mem_of_mem_erase hy)

end Entries

section Median

/-- Twice the median: twice the middle element of an odd number of elements,
and the sum of the two middle elements of an even number. -/
def twiceMedian (elements : List ℤ) : ℤ :=
  if elements.length % 2 = 0 then
    (ascending elements).getD (elements.length / 2 - 1) 0 +
      (ascending elements).getD (elements.length / 2) 0
  else
    2 * (ascending elements).getD (elements.length / 2) 0

variable {elements : List ℤ} {x y : ℤ} {middle : ℕ}

theorem twiceMedian_perm {others : List ℤ} (hperm : others ~ elements) :
    twiceMedian others = twiceMedian elements := by
  have hsame : ascending others = ascending elements :=
    ascending_eq ((ascending_perm elements).trans hperm.symm)
      (pairwise_ascending elements)
  rw [twiceMedian, twiceMedian, hsame, hperm.length_eq]

theorem twiceMedian_of_odd (hlength : elements.length = 2 * middle + 1)
    (hx : (ascending elements)[middle]? = some x) :
    twiceMedian elements = 2 * x := by
  have hhalf : elements.length / 2 = middle := by omega
  rw [twiceMedian, if_neg (by omega), hhalf, List.getD_eq_getElem?_getD, hx,
    Option.getD_some]

theorem twiceMedian_of_even (hlength : elements.length = 2 * (middle + 1))
    (hx : (ascending elements)[middle]? = some x)
    (hy : (ascending elements)[middle + 1]? = some y) :
    twiceMedian elements = x + y := by
  have hhalf : elements.length / 2 = middle + 1 := by omega
  rw [twiceMedian, if_pos (by omega), hhalf, Nat.add_sub_cancel,
    List.getD_eq_getElem?_getD, List.getD_eq_getElem?_getD, hx, hy,
    Option.getD_some, Option.getD_some]

end Median

end KataCpp.OrderStatistic
