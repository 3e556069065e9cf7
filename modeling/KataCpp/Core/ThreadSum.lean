import Mathlib

/-!
# Sums over threads

What the threads of a system hold or have done is added up over all threads.  A
step of one thread changes its own summand.
-/

namespace KataCpp.ThreadSum

variable {Thread Place M : Type*} [Fintype Thread] [DecidableEq Thread]
  [AddCommMonoid M]

/-- A thread that moves exchanges its own summand. -/
theorem sum_update (amount : Place → M) (places : Thread → Place)
    (thread : Thread) (place : Place) :
    (∑ other, amount (Function.update places thread place other)) +
        amount (places thread) =
      (∑ other, amount (places other)) + amount place := by
  have hupdate : (fun other =>
      amount (Function.update places thread place other)) =
      Function.update (fun other => amount (places other)) thread
        (amount place) := by
    funext other
    by_cases heq : other = thread
    · rw [heq, Function.update_self, Function.update_self]
    · rw [Function.update_of_ne heq, Function.update_of_ne heq]
  have hsum := Finset.add_sum_erase Finset.univ
    (fun other => amount (places other)) (Finset.mem_univ thread)
  rw [hupdate, Finset.sum_update_of_mem (Finset.mem_univ thread),
    ← Finset.erase_eq, ← hsum, add_assoc, add_comm]
  congr 1
  exact add_comm _ _

end KataCpp.ThreadSum
