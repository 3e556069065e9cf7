import KataCpp.Core.Iteration
import KataCpp.Core.MachineInt
import KataCpp.Core.Segment

/-!
# Loops over the positions of a container

In `for (int i = first; i < v.size(); ++i)` the index is an `int` and the size a
`size_t`, to which the index is converted for the comparison.  The index goes up
to the last one that an `int` can hold; the next one is negative, compares as
greater than every size, and the loop ends.
-/

namespace KataCpp.IndexLoop

open Iteration MachineInt Segment

variable {State : Type*}

/-- The indices that such a loop can reach. -/
def indexLimit : ℕ := 2 ^ 31

/-- `i < v.size()` -/
def GoesOn (size : ℕ) (state : State × ℤ) : Prop := asSize state.2 < size

instance (size : ℕ) (state : State × ℤ) : Decidable (GoesOn size state) :=
  inferInstanceAs (Decidable (asSize state.2 < size))

section Code

variable (size : ℕ) (body : State → ℤ → Option State)

def indexPass (state : State × ℤ) : Option (State × ℤ) := do
  let next ← body state.1 state.2
  return (next, wrap32 (state.2 + 1))

/-- The loop has no more passes than the container has elements. -/
def indexLoop (first : ℤ) (start : State) : Option State := do
  let final ← whileLoop (GoesOn size) (indexPass body) (size + 1)
    (start, first)
  return final.1

end Code

variable {size : ℕ} {body : State → ℤ → Option State}

theorem goesOn_of_lt {index : ℕ} (hindex : index < min size indexLimit)
    (state : State) : GoesOn size (state, wrap32 index) := by
  obtain ⟨hsize, hlimit⟩ := lt_min_iff.mp hindex
  rw [indexLimit] at hlimit
  rw [GoesOn, wrap32_natCast hlimit, asSize_natCast (by omega)]
  exact hsize

/-- The size of the container, or an index that has become negative. -/
theorem not_goesOn (hsize : size < 2 ^ 63) (state : State) :
    ¬GoesOn size (state, wrap32 (min size indexLimit : ℕ)) := by
  rw [GoesOn, not_lt]
  rcases lt_or_ge size indexLimit with hlimit | hlimit
  · rw [min_eq_left hlimit.le, wrap32_natCast hlimit, asSize_natCast (by omega)]
  · rw [min_eq_right hlimit, indexLimit, wrap32_int_overflow]
    exact le_asSize (by norm_num) (by norm_num) hsize

theorem whileLoop_indexPass (hsize : size < 2 ^ 63) {count first fuel : ℕ}
    (hcount : first + count = min size indexLimit) (hfuel : count < fuel)
    (start : State) :
    whileLoop (GoesOn size) (indexPass body) fuel (start, wrap32 first) =
      ((List.range' first count).foldlM
        (fun state (index : ℕ) => body state index) start).map fun final =>
          (final, wrap32 (min size indexLimit : ℕ)) := by
  induction count generalizing first fuel start with
  | zero =>
      obtain rfl : first = min size indexLimit := hcount
      obtain ⟨more, rfl⟩ := Nat.exists_eq_add_of_le' hfuel
      rw [whileLoop_succ_of_not (not_goesOn hsize start)]
      rfl
  | succ count ih =>
      obtain ⟨more, rfl⟩ := Nat.exists_eq_add_of_le' (Nat.one_le_of_lt hfuel)
      have hindex : first < min size indexLimit := by omega
      have hless := goesOn_of_lt hindex start
      have hvalue : wrap32 first = first :=
        wrap32_natCast (hindex.trans_le (min_le_right _ _))
      rw [List.range'_succ, List.foldlM_cons]
      cases hbody : body start first with
      | none =>
          rw [whileLoop, loop, whilePass, if_pos hless, indexPass]
          simp only [hvalue, hbody]
          rfl
      | some next =>
          have hpass : indexPass body (start, wrap32 first) =
              some (next, wrap32 (first + 1 : ℕ)) := by
            rw [indexPass, wrap32_wrap32_add_one]
            simp only [hvalue, hbody]
            rfl
          rw [whileLoop_succ_of_condition hless hpass,
            ih (by omega) (by omega)]
          rfl

/-- The loop runs over the indices that are below the size and fit in an
`int`. -/
theorem indexLoop_eq_foldlM (hsize : size < 2 ^ 63) {first : ℕ}
    (hfirst : first ≤ min size indexLimit) (start : State) :
    indexLoop size body (wrap32 first) start =
      (List.range' first (min size indexLimit - first)).foldlM
        (fun state (index : ℕ) => body state index) start := by
  rw [indexLoop, whileLoop_indexPass hsize (Nat.add_sub_cancel' hfirst)
    (by omega)]
  cases (List.range' first (min size indexLimit - first)).foldlM
    (fun state (index : ℕ) => body state index) start <;> rfl

/-- A loop that comes to an index at which its body faults. -/
theorem indexLoop_eq_none (hsize : size < 2 ^ 63) {first index : ℕ}
    (hfirst : first ≤ index) (hindex : index < min size indexLimit)
    (hbody : ∀ state, body state index = none) (start : State) :
    indexLoop size body (wrap32 first) start = none := by
  obtain ⟨before, rfl⟩ := Nat.exists_eq_add_of_le hfirst
  obtain ⟨rest, hrest⟩ := Nat.exists_eq_add_of_lt hindex
  have hcount : min size indexLimit - first = before + (rest + 1) := by omega
  rw [indexLoop_eq_foldlM hsize (by omega), hcount, ← List.range'_append_1,
    List.foldlM_append, Option.bind_eq_bind, Option.bind_eq_none_iff]
  intro state _
  rw [List.range'_succ, List.foldlM_cons, hbody]
  rfl

/-- An invariant that every pass takes to the next index holds at the end. -/
theorem indexLoop_invariant (hsize : size < 2 ^ 63) {first : ℕ}
    (hfirst : first ≤ min size indexLimit) (invariant : ℕ → State → Prop)
    {start : State} (hstart : invariant first start)
    (hbody : ∀ index state, first ≤ index → index < min size indexLimit →
      invariant index state →
      ∃ next, body state index = some next ∧ invariant (index + 1) next) :
    ∃ final, indexLoop size body (wrap32 first) start = some final ∧
      invariant (min size indexLimit) final := by
  rw [indexLoop_eq_foldlM hsize hfirst]
  generalize hstop : min size indexLimit = stop at *
  obtain ⟨count, rfl⟩ := Nat.exists_eq_add_of_le hfirst
  rw [Nat.add_sub_cancel_left]
  clear hstop hfirst
  induction count generalizing first start with
  | zero => exact ⟨start, rfl, hstart⟩
  | succ count ih =>
      obtain ⟨next, hnext, hinvariant⟩ :=
        hbody first start le_rfl (by omega) hstart
      rw [List.range'_succ, List.foldlM_cons, hnext, Nat.add_comm count,
        ← Nat.add_assoc]
      refine ih hinvariant fun index state hlower hupper => ?_
      exact hbody index state (by omega) (by omega)

theorem foldlM_range_getElem? {α : Type*} {elements : List α}
    (visit : State → α → Option State) {count : ℕ}
    (hcount : count ≤ elements.length) (start : State) :
    (List.range count).foldlM
        (fun state index => elements[index]?.bind (visit state)) start =
      (elements.take count).foldlM visit start := by
  induction count with
  | zero => rfl
  | succ count ih =>
      rw [List.range_succ, List.foldlM_append, ih (by omega),
        List.take_succ_eq_append_getElem hcount, List.foldlM_append]
      congr 1
      funext state
      rw [List.foldlM_cons, List.getElem?_eq_getElem hcount,
        List.foldlM_cons]
      rfl

/-- A loop that reads the element at every index comes to the elements that an
`int` can count. -/
theorem indexLoop_read {α : Type*} {elements : List α}
    (hsize : elements.length < 2 ^ 63) (visit : State → α → Option State)
    (start : State) :
    indexLoop elements.length
        (fun state index => (read elements index).bind (visit state)) 0 start =
      (elements.take indexLimit).foldlM visit start := by
  have hzero : (0 : ℤ) = wrap32 (0 : ℕ) := by decide
  rw [hzero, indexLoop_eq_foldlM hsize (Nat.zero_le _), Nat.sub_zero,
    ← List.range_eq_range']
  simp only [read_natCast]
  rw [foldlM_range_getElem? visit (min_le_left _ _), min_comm,
    ← List.take_eq_take_min]

end KataCpp.IndexLoop
