import KataCpp.Algorithm.TwoPointers

/-!
# The middle of a linked list and its end, by two pointers

In a list that ends, the middle is found by a pointer that takes two links while
another one takes one, and the last nodes by a pointer that starts a number of
links ahead of the other one.
-/

namespace KataCpp.TwoPointers

open Iteration Function

variable {α : Type*} (next : α → Option α)

/-- The loop of `find_middle_point`, on `(fast, slow)`. -/
def middlePass : Option α × Option α →
    Outcome (Option α × Option α) (Option α)
  | (fast, slow) =>
      match fast.bind next with
      | none => .exit slow
      | some second =>
          match slow with
          | none => .fault
          | some node => .next (next second, next node)

def findMiddlePoint (fuel : ℕ) (head : Option α) : Option (Option α) :=
  loop (middlePass next) fuel (head, head)

/-- The first loop of `find_last_n_point`, on `fast` and `n`. -/
def aheadPass : Option α × ℤ → Outcome (Option α × ℤ) (Option α)
  | (none, _) => .exit none
  | (some node, n) =>
      if n > 0 then .next (next node, n - 1) else .exit (some node)

/-- The second loop of `find_last_n_point`, on `(fast, slow)`. -/
def behindPass : Option α × Option α →
    Outcome (Option α × Option α) (Option α)
  | (none, slow) => .exit slow
  | (some _, none) => .fault
  | (some fastNode, some slowNode) => .next (next fastNode, next slowNode)

def findLastNPoint (fuel : ℕ) (head : Option α) (n : ℤ) :
    Option (Option α) :=
  (loop (aheadPass next) fuel (head, n)).bind fun fast =>
    loop (behindPass next) fuel (fast, head)

def HasLength (head : Option α) (length : ℕ) : Prop :=
  ∀ count, (follow next)^[count] head = none ↔ length ≤ count

variable {next} {head : Option α} {length : ℕ}

/-- Before its end a list has nodes. -/
theorem HasLength.exists_node (hlength : HasLength next head length)
    {count : ℕ} (hcount : count < length) :
    ∃ node, (follow next)^[count] head = some node ∧
      (follow next)^[count + 1] head = next node := by
  have hnode := mt (hlength count).mp hcount.not_ge
  obtain ⟨node, hnode⟩ := Option.ne_none_iff_exists'.mp hnode
  refine ⟨node, hnode, ?_⟩
  rw [← bind_next_iterate, hnode, Option.bind_some]

section Loops

variable (hlength : HasLength next head length)

include hlength

theorem middlePass_next {count : ℕ} (hcount : 2 * count + 1 < length) :
    middlePass next
        ((follow next)^[2 * count] head, (follow next)^[count] head) =
      .next ((follow next)^[2 * (count + 1)] head,
        (follow next)^[count + 1] head) := by
  obtain ⟨second, hsecond, hfast⟩ := hlength.exists_node hcount
  obtain ⟨node, hnode, hslow⟩ :=
    hlength.exists_node (by omega : count < length)
  have hdouble : 2 * (count + 1) = 2 * count + 1 + 1 := by omega
  rw [middlePass, bind_next_iterate, hsecond, hnode, hdouble, hfast, hslow]

theorem middlePass_exit {count : ℕ} (hcount : length ≤ 2 * count + 1) :
    middlePass next
        ((follow next)^[2 * count] head, (follow next)^[count] head) =
      .exit ((follow next)^[count] head) := by
  rw [middlePass, bind_next_iterate, (hlength _).mpr hcount]

theorem findMiddlePoint_returns :
    Returns (findMiddlePoint next · head)
      ((follow next)^[length / 2] head) := by
  apply returns_of_steps (fun count =>
    ((follow next)^[2 * count] head, (follow next)^[count] head)) (length / 2)
  · exact fun count hcount => middlePass_next hlength (by omega)
  · exact middlePass_exit hlength (by omega)

/-- The first pointer is ahead by `n` links, or at the end. -/
theorem ahead_returns (n : ℤ) :
    Returns (loop (aheadPass next) · (head, n))
      ((follow next)^[min n.toNat length] head) := by
  have hstart : (head, n) = ((follow next)^[0] head, n - (0 : ℕ)) := by simp
  rw [hstart]
  apply returns_of_steps (fun count : ℕ =>
    ((follow next)^[count] head, n - count)) (min n.toNat length)
  · intro count hcount
    obtain ⟨node, hnode, hnext⟩ :=
      hlength.exists_node (by omega : count < length)
    rw [hnode, hnext, aheadPass, if_pos (by omega), Nat.cast_add,
      Nat.cast_one, sub_sub]
  · rcases le_or_gt length n.toNat with hend | hmore
    · rw [min_eq_right hend, (hlength length).mpr le_rfl]
      rfl
    · obtain ⟨node, hnode, -⟩ := hlength.exists_node hmore
      rw [min_eq_left hmore.le, hnode, aheadPass, if_neg (by omega)]

/-- The second pointer is behind by `lead` links when the first one is at the
end. -/
theorem behind_returns {lead : ℕ} (hlead : lead ≤ length) :
    Returns (loop (behindPass next) · ((follow next)^[lead] head, head))
      ((follow next)^[length - lead] head) := by
  apply returns_of_steps (fun count =>
    ((follow next)^[lead + count] head, (follow next)^[count] head))
    (length - lead)
  · intro count hcount
    obtain ⟨fastNode, hfast, hfastNext⟩ :=
      hlength.exists_node (by omega : lead + count < length)
    obtain ⟨slowNode, hslow, hslowNext⟩ :=
      hlength.exists_node (by omega : count < length)
    rw [← Nat.add_assoc, hfast, hslow, hfastNext, hslowNext, behindPass]
  · rw [Nat.add_sub_cancel' hlead, (hlength length).mpr le_rfl, behindPass]

/-- The middle of a list, and the node that is followed by `n - 1` others, at
most the whole list. -/
theorem middle_and_last_points (n : ℤ) :
    Returns (findMiddlePoint next · head) ((follow next)^[length / 2] head) ∧
      Returns (findLastNPoint next · head n)
        ((follow next)^[length - min n.toNat length] head) := by
  refine ⟨findMiddlePoint_returns hlength, ?_⟩
  exact (ahead_returns hlength n).bind
    (behind_returns hlength (min_le_right _ _))

end Loops

/-- A list of six nodes, with its fourth node and its last two. -/
theorem middle_and_last_points_of_six_nodes :
    let next : Fin 6 → Option (Fin 6) :=
      ![some 1, some 2, some 3, some 4, some 5, none]
    Returns (findMiddlePoint next · (some 0)) (some 3) ∧
      Returns (findLastNPoint next · (some 0) 2) (some 4) := by
  intro next
  have hend : (follow next)^[6] (some 0) = none := by decide
  have hlength : HasLength next (some 0) 6 := by
    intro count
    constructor
    · intro hnone
      by_contra hless
      interval_cases count <;> exact absurd hnone (by decide)
    · intro hcount
      exact iterate_eq_none_of_le hcount hend
  exact middle_and_last_points hlength 2

end KataCpp.TwoPointers
