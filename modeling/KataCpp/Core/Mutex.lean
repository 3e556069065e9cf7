import Mathlib

/-!
# Ownership of a mutex

Each thread of a program is at a place of its code where it holds the mutex or
at one where it does not.  `OwnerHolds` says that the recorded owner is the one
thread at a place of the first kind.  A step moves one thread to another place;
the three rules below cover a move that acquires the mutex, one that releases
it, and one that does neither.
-/

namespace KataCpp.Mutex

variable {Thread : Type*} {holds : Thread → Bool} {owner : Option Thread}

/-- The owner of the mutex is the one thread whose place holds it. -/
def OwnerHolds (holds : Thread → Bool) (owner : Option Thread) : Prop :=
  ∀ thread, holds thread = true ↔ owner = some thread

/-- No two threads hold the mutex at the same time. -/
theorem OwnerHolds.exclusive (hinv : OwnerHolds holds owner)
    {first second : Thread} (hfirst : holds first = true)
    (hsecond : holds second = true) : first = second := by
  have howner := (hinv first).mp hfirst
  rw [(hinv second).mp hsecond, Option.some.injEq] at howner
  exact howner.symm

section Moves

variable [DecidableEq Thread]

theorem OwnerHolds.moves (hinv : OwnerHolds holds owner) (thread : Thread)
    {place : Bool} (hplace : place = holds thread) :
    OwnerHolds (Function.update holds thread place) owner := by
  rw [hplace, Function.update_eq_self]
  exact hinv

theorem OwnerHolds.acquires (hinv : OwnerHolds holds owner)
    (hfree : owner = none) (thread : Thread) :
    OwnerHolds (Function.update holds thread true) (some thread) := by
  intro other
  by_cases hsame : other = thread
  · simp [hsame]
  · have hother := hinv other
    rw [hfree] at hother
    rw [Function.update_of_ne hsame, hother]
    simp [Ne.symm hsame]

theorem OwnerHolds.releases (hinv : OwnerHolds holds owner) {thread : Thread}
    (hheld : holds thread = true) :
    OwnerHolds (Function.update holds thread false) none := by
  intro other
  by_cases hsame : other = thread
  · simp [hsame]
  · have hother := hinv other
    rw [(hinv thread).mp hheld] at hother
    rw [Function.update_of_ne hsame, hother]
    simp [Ne.symm hsame]

end Moves

end KataCpp.Mutex
