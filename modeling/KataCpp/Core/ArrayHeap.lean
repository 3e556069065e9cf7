import Mathlib

/-!
# Arrays on a heap

Arrays are allocated and released through pointers, and elements are copied
between them.  A null pointer counts as a pointer to an empty array, which is
what copying no elements and releasing need of it.  Accesses beyond the end of
an array, through a pointer to no array, and the release of what is no array
fault.

An allocation yields an address that was never in use before.  What the
operations do is stated through `contents`, the array behind a pointer: only
the pointers that are released or written change it.
-/

namespace KataCpp.ArrayHeap

variable {Item : Type*}

/-- The arrays by their addresses; all addresses from `next` on are free. -/
structure Heap (Item : Type*) where
  arrays : ℕ → Option (List Item)
  next : ℕ
  free : ∀ address, next ≤ address → arrays address = none

def Heap.empty : Heap Item where
  arrays := fun _ => none
  next := 0
  free := fun _ _ => rfl

namespace Heap

def contents (heap : Heap Item) : Option ℕ → Option (List Item)
  | none => some []
  | some address => heap.arrays address

/-- `delete[]`. -/
def release (heap : Heap Item) : Option ℕ → Option (Heap Item)
  | none => some heap
  | some address =>
      (heap.arrays address).map fun _ =>
        { arrays := Function.update heap.arrays address none
          next := heap.next
          free := by
            intro other hother
            by_cases hsame : other = address
            · rw [hsame, Function.update_self]
            · rw [Function.update_of_ne hsame]
              exact heap.free other hother }

/-- `new`: the array's address, and the heap with it.  What a new array holds is
arbitrary. -/
def allocate (heap : Heap Item) (items : List Item) : ℕ × Heap Item :=
  (heap.next,
    { arrays := Function.update heap.arrays heap.next (some items)
      next := heap.next + 1
      free := by
        intro address haddress
        rw [Function.update_of_ne (by omega)]
        exact heap.free address (by omega) })

def read (heap : Heap Item) (pointer : Option ℕ) (count : ℕ) :
    Option (List Item) :=
  (heap.contents pointer).bind fun items =>
    if count ≤ items.length then some (items.take count) else none

/-- The heap after `items` were stored from the start of an array on. -/
def store (heap : Heap Item) (pointer : Option ℕ) (items : List Item) :
    Option (Heap Item) :=
  match pointer with
  | none => if items.length = 0 then some heap else none
  | some address =>
      match heap.arrays address with
      | none => none
      | some old =>
          if items.length ≤ old.length then
            some
              { arrays := Function.update heap.arrays address
                  (some (items ++ old.drop items.length))
                next := max heap.next (address + 1)
                free := by
                  intro other hother
                  rw [Function.update_of_ne (by omega)]
                  exact heap.free other (by omega) }
          else none

section Rules

variable {heap : Heap Item}

@[simp]
theorem contents_none : heap.contents none = some [] := rfl

theorem contents_next : heap.contents (some heap.next) = none :=
  heap.free heap.next le_rfl

/-- A pointer to an array differs from one to no array. -/
theorem ne_of_contents {pointer other : Option ℕ} {items : List Item}
    (hpointer : heap.contents pointer = some items)
    (hother : heap.contents other = none) : pointer ≠ other := by
  rintro rfl
  rw [hpointer] at hother
  exact absurd hother (by simp)

theorem read_length {pointer : Option ℕ} {items : List Item}
    (hpointer : heap.contents pointer = some items) :
    heap.read pointer items.length = some items := by
  simp [read, hpointer]

theorem read_zero {pointer : Option ℕ} {items : List Item}
    (hpointer : heap.contents pointer = some items) :
    heap.read pointer 0 = some [] := by
  simp [read, hpointer]

/-- A release leaves the arrays behind all other pointers. -/
theorem release_spec {pointer : Option ℕ} {items : List Item}
    (hpointer : heap.contents pointer = some items) :
    ∃ released, heap.release pointer = some released ∧
      ∀ other, other = none ∨ other ≠ pointer →
        released.contents other = heap.contents other := by
  cases pointer with
  | none => exact ⟨heap, rfl, fun _ _ => rfl⟩
  | some address =>
      have harray : heap.arrays address = some items := hpointer
      simp only [release, harray, Option.map_some, Option.some.injEq,
        exists_eq_left']
      intro other hother
      cases other with
      | none => rfl
      | some other =>
          have hne : other ≠ address := by simpa using hother
          exact Function.update_of_ne hne _ _

theorem allocate_contents (items : List Item) :
    (heap.allocate items).2.contents (some (heap.allocate items).1) =
      some items :=
  Function.update_self ..

theorem allocate_frame (items : List Item) {other : Option ℕ}
    {old : List Item} (hother : heap.contents other = some old) :
    (heap.allocate items).2.contents other = some old := by
  cases other with
  | none => exact hother
  | some other =>
      have hne : other ≠ heap.next := by
        have hpointers := ne_of_contents hother contents_next
        simpa using hpointers
      rw [← hother]
      exact Function.update_of_ne hne _ _

theorem store_spec {address : ℕ} {old items : List Item}
    (haddress : heap.contents (some address) = some old)
    (hlength : items.length = old.length) :
    ∃ stored, heap.store (some address) items = some stored ∧
      stored.contents (some address) = some items ∧
      ∀ other, other ≠ some address →
        stored.contents other = heap.contents other := by
  have harray : heap.arrays address = some old := haddress
  simp only [store, harray, hlength, le_refl, if_true, List.drop_length,
    List.append_nil, Option.some.injEq, exists_eq_left']
  refine ⟨Function.update_self .., ?_⟩
  intro other hother
  cases other with
  | none => rfl
  | some other =>
      have hne : other ≠ address := by simpa using hother
      exact Function.update_of_ne hne _ _

/-- `renewed` has a new array behind `address` in place of the one behind
`pointer`, and the other arrays of `heap`. -/
structure Renewed (heap : Heap Item) (pointer : Option ℕ) (address : ℕ)
    (items : List Item) (renewed : Heap Item) : Prop where
  unused : heap.contents (some address) = none
  holds : renewed.contents (some address) = some items
  frame : ∀ other kept, other = none ∨ other ≠ pointer →
    heap.contents other = some kept → renewed.contents other = some kept

/-- Releasing an array, allocating another one and filling it.  Before it is
filled, the other arrays are there to be copied from. -/
theorem renew_spec {pointer : Option ℕ} {old : List Item}
    (hpointer : heap.contents pointer = some old) (blank : List Item) :
    ∃ released address allocated, heap.release pointer = some released ∧
      released.allocate blank = (address, allocated) ∧
      (∀ other kept, other = none ∨ other ≠ pointer →
        heap.contents other = some kept →
          allocated.contents other = some kept) ∧
      ∀ items : List Item, items.length = blank.length →
        ∃ stored, allocated.store (some address) items = some stored ∧
          Renewed heap pointer address items stored := by
  obtain ⟨released, hreleased, hframe⟩ := release_spec hpointer
  have hunused : heap.contents (some released.next) = none := by
    have hnext : released.next = heap.next := by
      cases pointer with
      | none =>
          obtain rfl := Option.some.inj hreleased
          rfl
      | some address =>
          obtain ⟨-, -, rfl⟩ := Option.map_eq_some_iff.mp hreleased
          rfl
    rw [hnext]
    exact contents_next
  have hallocated : ∀ other kept, other = none ∨ other ≠ pointer →
      heap.contents other = some kept →
        (released.allocate blank).2.contents other = some kept := by
    intro other kept hother hkept
    exact allocate_frame blank ((hframe other hother).trans hkept)
  refine ⟨released, _, _, hreleased, rfl, hallocated, ?_⟩
  intro items hitems
  obtain ⟨stored, hstored, hholds, hothers⟩ :=
    store_spec (allocate_contents blank) hitems
  refine ⟨stored, hstored, hunused, hholds, ?_⟩
  intro other kept hother hkept
  rw [hothers other (ne_of_contents hkept hunused)]
  exact hallocated other kept hother hkept

end Rules

end Heap

end KataCpp.ArrayHeap
