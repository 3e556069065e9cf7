import Mathlib

/-!
# Going through a set of descriptors

A loop over all numbers up to a bound that acts on those in a set meets the
elements of the set once each, in ascending order.
-/

namespace KataCpp.DescriptorSet

/-- `FD_SETSIZE`, the number of descriptors that an `fd_set` has room for. -/
def fdSetSize : ℕ := 1024

/-- The descriptors in a set, in ascending order, up to a bound. -/
def ascending (fds : Finset ℕ) (bound : ℕ) : List ℕ :=
  (List.range bound).filter (· ∈ fds)

variable {fds : Finset ℕ} {fd bound : ℕ}

@[simp]
theorem ascending_zero (fds : Finset ℕ) : ascending fds 0 = [] := rfl

@[simp]
theorem ascending_empty (bound : ℕ) : ascending ∅ bound = [] := by
  simp [ascending]

theorem ascending_succ_of_mem (hmem : fd ∈ fds) :
    ascending fds (fd + 1) = ascending fds fd ++ [fd] := by
  simp [ascending, List.range_succ, List.filter_append, hmem]

theorem ascending_succ_of_notMem (hmem : fd ∉ fds) :
    ascending fds (fd + 1) = ascending fds fd := by
  simp [ascending, List.range_succ, List.filter_append, hmem]

theorem pairwise_ascending (fds : Finset ℕ) (bound : ℕ) :
    (ascending fds bound).Pairwise (· < ·) :=
  List.pairwise_lt_range.filter _

theorem mem_ascending : fd ∈ ascending fds bound ↔ fd < bound ∧ fd ∈ fds := by
  simp [ascending]

end KataCpp.DescriptorSet
