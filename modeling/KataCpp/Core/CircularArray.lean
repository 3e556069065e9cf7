import Mathlib

/-!
# Circular arrays

A queue in a fixed array is a window of consecutive slots, taken modulo the
capacity, that starts at a head index.  `contents` reads the window off as a
list; the lemmas say what writing the slot after the window, and moving the
head, do to that list.  Slots outside the window are unconstrained.
-/

namespace KataCpp.CircularArray

variable {α : Type*} [Inhabited α]

/-- The `count` cells from `head` on, in circular order. -/
def contents (cells : List α) (capacity head count : ℕ) : List α :=
  (List.range count).map fun offset =>
    cells.getD ((head + offset) % capacity) default

@[simp]
theorem contents_zero (cells : List α) (capacity head : ℕ) :
    contents cells capacity head 0 = [] := rfl

@[simp]
theorem length_contents (cells : List α) (capacity head count : ℕ) :
    (contents cells capacity head count).length = count := by
  simp [contents]

/-- The first cell of a non-empty window, and the window that remains when the
head moves on by one slot. -/
theorem contents_succ (cells : List α) {capacity head : ℕ} (count : ℕ)
    (hhead : head < capacity) :
    contents cells capacity head (count + 1) =
      cells.getD head default ::
        contents cells capacity ((head + 1) % capacity) count := by
  rw [contents, List.range_succ_eq_map, List.map_cons, List.map_map, contents]
  congr 1
  · rw [add_zero, Nat.mod_eq_of_lt hhead]
  · apply List.map_congr_left
    intro offset _
    simp only [Function.comp_apply, Nat.mod_add_mod]
    rw [show head + (offset + 1) = head + 1 + offset by omega]

/-- The last cell of a non-empty window. -/
theorem contents_succ_last (cells : List α) (capacity head count : ℕ) :
    contents cells capacity head (count + 1) =
      contents cells capacity head count ++
        [cells.getD ((head + count) % capacity) default] := by
  rw [contents, List.range_succ, List.map_append, contents, List.map_singleton]

/-- Distinct offsets below the capacity address distinct slots. -/
theorem slot_ne {capacity head offset count : ℕ} (hoffset : offset < count)
    (hcount : count < capacity) :
    (head + count) % capacity ≠ (head + offset) % capacity := by
  intro heq
  have hmod : count % capacity = offset % capacity :=
    Nat.ModEq.add_left_cancel' head heq
  rw [Nat.mod_eq_of_lt hcount, Nat.mod_eq_of_lt (hoffset.trans hcount)] at hmod
  omega

/-- Writing the slot right after the window appends to the window. -/
theorem contents_set_append {cells : List α} {capacity count : ℕ}
    (head : ℕ) (value : α) (hlength : cells.length = capacity)
    (hcount : count < capacity) :
    contents (cells.set ((head + count) % capacity) value) capacity head
        (count + 1) =
      contents cells capacity head count ++ [value] := by
  have hslot : (head + count) % capacity < cells.length := by
    rw [hlength]
    exact Nat.mod_lt _ (by omega)
  rw [contents, List.range_succ, List.map_append, contents]
  congr 1
  · apply List.map_congr_left
    intro offset hoffset
    rw [List.getD_eq_getElem?_getD, List.getD_eq_getElem?_getD,
      List.getElem?_set_ne (slot_ne (List.mem_range.mp hoffset) hcount)]
  · simp [List.getD_eq_getElem?_getD, List.getElem?_set_self hslot]

/-- Writing the slot after a window that fills the whole array overwrites its
first cell; with the head moved on, the window has dropped its head and gained
the value at its end. -/
theorem contents_set_overwrite {cells : List α} {capacity head : ℕ}
    (value : α) (hlength : cells.length = capacity) (hhead : head < capacity) :
    contents (cells.set ((head + capacity) % capacity) value) capacity
        ((head + 1) % capacity) capacity =
      (contents cells capacity head capacity).tail ++ [value] := by
  obtain ⟨count, rfl⟩ : ∃ count, capacity = count + 1 :=
    ⟨capacity - 1, by omega⟩
  have hslot : (head + (count + 1)) % (count + 1) =
      ((head + 1) % (count + 1) + count) % (count + 1) := by
    rw [Nat.mod_add_mod]
    congr 1
    omega
  rw [hslot, contents_set_append _ value hlength (Nat.lt_succ_self count),
    contents_succ cells count hhead, List.tail_cons]

/-- Visit `count` slots from `index` on and append the cells that pass the
test to `result`. -/
def scan (keep : α → Bool) (cells : List α) (capacity : ℕ) :
    ℕ → ℕ → List α → List α
  | _, 0, result => result
  | index, count + 1, result =>
      let cell := cells.getD index default
      scan keep cells capacity ((index + 1) % capacity) count
        (if keep cell then result ++ [cell] else result)

theorem scan_eq_filter (keep : α → Bool) (cells : List α)
    {capacity index : ℕ} (count : ℕ) (result : List α)
    (hindex : index < capacity) :
    scan keep cells capacity index count result =
      result ++ (contents cells capacity index count).filter keep := by
  induction count generalizing index result with
  | zero => simp [scan]
  | succ count ih =>
      have hnext : (index + 1) % capacity < capacity :=
        Nat.mod_lt _ (by omega)
      rw [scan, ih _ hnext, contents_succ cells count hindex]
      by_cases hkeep : keep (cells.getD index default) = true
      · simp only [hkeep, if_true, List.filter_cons_of_pos, List.append_assoc,
          List.singleton_append]
      · simp only [hkeep, Bool.false_eq_true, if_false, not_false_eq_true,
          List.filter_cons_of_neg]

end KataCpp.CircularArray
