import KataCpp.Core.Iteration

/-!
# Cycles of a linked list by two pointers

The nodes of a linked list form a type, `next` gives the pointer stored in a
node, and the null pointer is `none`.  Reading `next` through the null pointer
is a fault of the loop that does it.

`hasCycle` and `detectCycle` start with the same loop: `fast` takes two links
and `slow` one until they meet or the list ends.  The second loop of
`detectCycle` restarts `fast` at the head and moves both by single links.
-/

namespace KataCpp.TwoPointers

open Iteration Function

variable {α : Type*} (next : α → Option α)

/-- Follow one link; nothing leads out of the null pointer. -/
def follow (pointer : Option α) : Option α := pointer.bind next

section Code

variable [DecidableEq α]

/-- The loop both functions start with.  Its state is `(fast, slow)`; `met` and
`ended` say what the function makes of its two ends. -/
def chase {Result : Type*} (met ended : Option α × Option α → Result) :
    Option α × Option α → Outcome (Option α × Option α) Result
  | (fast, slow) =>
      match fast.bind next with
      | none => .exit (ended (fast, slow))
      | some second =>
          match slow with
          | none => .fault
          | some node =>
              let fast := next second
              let slow := next node
              if fast = slow then .exit (met (fast, slow))
              else .next (fast, slow)

def hasCycle (fuel : ℕ) (head : Option α) : Option Bool :=
  loop (chase next (fun _ => true) (fun _ => false)) fuel (head, head)

/-- The second loop of `detect_cycle`. -/
def meet : Option α × Option α →
    Outcome (Option α × Option α) (Option α)
  | (fast, slow) =>
      if fast = slow then .exit fast
      else
        match fast, slow with
        | some fastNode, some slowNode => .next (next fastNode, next slowNode)
        | _, _ => .fault

def detectCycle (fuel : ℕ) (head : Option α) : Option (Option α) :=
  (loop (chase next id id) fuel (head, head)).bind fun (fast, slow) =>
    if fast = none ∨ fast.bind next = none then some none
    else loop (meet next) fuel (head, slow)

end Code

variable {next} {head : Option α}

theorem follow_iterate_none (count : ℕ) : (follow next)^[count] none = none :=
  iterate_fixed rfl count

theorem bind_next_iterate (count : ℕ) :
    ((follow next)^[count] head).bind next =
      (follow next)^[count + 1] head :=
  (iterate_succ_apply' (follow next) count head).symm

/-- A path that has ended stays ended. -/
theorem iterate_eq_none_of_le {first second : ℕ} (hle : first ≤ second)
    (hnone : (follow next)^[first] head = none) :
    (follow next)^[second] head = none := by
  obtain ⟨rest, rfl⟩ := Nat.exists_eq_add_of_le' hle
  rw [iterate_add_apply, hnone, follow_iterate_none]

/-- The pointers met after `count` passes, on a node. -/
structure Meeting (next : α → Option α) (head : Option α) (count : ℕ) :
    Prop where
  pos : 0 < count
  double_eq : (follow next)^[2 * count] head = (follow next)^[count] head
  ne_none : (follow next)^[count] head ≠ none

/-- After a meeting the path never ends. -/
theorem Meeting.never_none {count : ℕ} (h : Meeting next head count)
    (index : ℕ) : (follow next)^[index] head ≠ none := by
  intro hnone
  have hperiodic :
      IsPeriodicPt (follow next) count ((follow next)^[count] head) := by
    rw [IsPeriodicPt, IsFixedPt, ← iterate_add_apply, ← two_mul, h.double_eq]
  have hlater := (hperiodic.mul_const index).eq
  rw [← iterate_add_apply] at hlater
  apply h.ne_none
  rw [← hlater]
  apply iterate_eq_none_of_le _ hnone
  exact (Nat.le_mul_of_pos_left index h.pos).trans (Nat.le_add_right _ _)

section Loops

variable [DecidableEq α]

/-- One pass of the first loop, with the pointers after `count` passes. -/
theorem chase_pass {Result : Type*}
    (met ended : Option α × Option α → Result) (count : ℕ) :
    chase next met ended
        ((follow next)^[2 * count] head, (follow next)^[count] head) =
      if (follow next)^[2 * count + 1] head = none then
        .exit (ended
          ((follow next)^[2 * count] head, (follow next)^[count] head))
      else if (follow next)^[2 * (count + 1)] head =
          (follow next)^[count + 1] head then
        .exit (met ((follow next)^[2 * (count + 1)] head,
          (follow next)^[count + 1] head))
      else
        .next ((follow next)^[2 * (count + 1)] head,
          (follow next)^[count + 1] head) := by
  rw [chase, bind_next_iterate]
  cases hsecond : (follow next)^[2 * count + 1] head with
  | none => rfl
  | some second =>
      -- `slow` is not ahead of `fast`, so it still points to a node.
      cases hslow : (follow next)^[count] head with
      | none =>
          have hended := iterate_eq_none_of_le
            (show count ≤ 2 * count + 1 by omega) hslow
          rw [hsecond] at hended
          exact absurd hended (by simp)
      | some node =>
          have hfast : (follow next)^[2 * (count + 1)] head = next second := by
            rw [show 2 * (count + 1) = 2 * count + 1 + 1 by omega,
              ← bind_next_iterate, hsecond, Option.bind_some]
          have hnext : (follow next)^[count + 1] head = next node := by
            rw [← bind_next_iterate, hslow, Option.bind_some]
          simp only [hfast, hnext, reduceCtorEq, if_false]

theorem meet_of_eq {fast slow : Option α} (hequal : fast = slow) :
    meet next (fast, slow) = .exit fast := by
  unfold meet
  exact if_pos hequal

theorem meet_of_ne {fast slow : Option α} {fastNode slowNode : α}
    (hne : fast ≠ slow) (hfast : fast = some fastNode)
    (hslow : slow = some slowNode) :
    meet next (fast, slow) = .next (next fastNode, next slowNode) := by
  simp only [meet, if_neg hne]
  rw [hfast, hslow]

/-- The second loop ends at the first node of the path that lies on a
cycle. -/
theorem meet_returns {count : ℕ} (h : Meeting next head count) :
    ∃ result,
      Returns (loop (meet next) · (head, (follow next)^[count] head)) result ∧
        ∃ index, result = (follow next)^[index] head ∧
          (follow next)^[index] head ∈ periodicPts (follow next) ∧
          ∀ earlier < index,
            (follow next)^[earlier] head ∉ periodicPts (follow next) := by
  let invariant : ℕ → Option α × Option α → Prop := fun remaining pointers =>
    ∃ index, index + remaining = count ∧
      pointers = ((follow next)^[index] head,
        (follow next)^[count + index] head) ∧
      ∀ earlier < index,
        (follow next)^[earlier] head ∉ periodicPts (follow next)
  apply loop_returns invariant
  · rintro remaining _ ⟨index, hindex, rfl, hearlier⟩
    have hiff := mem_periodicPts_iterate_iff h.pos h.double_eq
      (show index ≤ count by omega)
    by_cases hequal : (follow next)^[index] head =
        (follow next)^[count + index] head
    · exact .inr ⟨_, meet_of_eq hequal, index, rfl, hiff.mpr hequal, hearlier⟩
    · obtain ⟨fastNode, hfast⟩ :=
        Option.ne_none_iff_exists'.mp (h.never_none index)
      obtain ⟨slowNode, hslow⟩ :=
        Option.ne_none_iff_exists'.mp (h.never_none (count + index))
      have hmoved : ((follow next)^[index + 1] head,
          (follow next)^[count + (index + 1)] head) =
            (next fastNode, next slowNode) := by
        rw [← bind_next_iterate, ← add_assoc, ← bind_next_iterate, hfast,
          hslow, Option.bind_some, Option.bind_some]
      have hlast : index ≠ count := by
        rintro rfl
        rw [← two_mul, h.double_eq] at hequal
        exact hequal rfl
      refine .inl ⟨remaining - 1, _, meet_of_ne hequal hfast hslow,
        by omega, index + 1, by omega, hmoved.symm, ?_⟩
      intro earlier hless
      rcases Nat.lt_succ_iff_lt_or_eq.mp hless with hlt | rfl
      · exact hearlier earlier hlt
      · exact fun hmem => hequal (hiff.mp hmem)
  · exact ⟨0, Nat.zero_add count, rfl, by simp⟩

/-- `node` lies on a cycle of the structure. -/
def OnCycle (next : α → Option α) (node : α) : Prop :=
  some node ∈ periodicPts (follow next)

/-- `node` is the first node on the path from `head` that lies on a cycle. -/
def FirstOnCycle (next : α → Option α) (head : Option α) (node : α) : Prop :=
  ∃ index, (follow next)^[index] head = some node ∧ OnCycle next node ∧
    ∀ earlier < index, ∀ other,
      (follow next)^[earlier] head = some other → ¬ OnCycle next other

/-- When the path ends, both functions report that there is no cycle. -/
theorem detectCycle_of_listEnd {count : ℕ}
    (hnone : (follow next)^[2 * count + 1] head = none)
    (hchase : Returns (loop (chase next id id) · (head, head))
      ((follow next)^[2 * count] head, (follow next)^[count] head)) :
    Returns (detectCycle next · head) none := by
  apply hchase.bind
  rw [← bind_next_iterate] at hnone
  simpa only [hnone, or_true, if_true] using returns_some none

theorem detectCycle_of_meeting {count : ℕ} (h : Meeting next head count)
    (hchase : Returns (loop (chase next id id) · (head, head))
      ((follow next)^[2 * count] head, (follow next)^[count] head)) :
    ∃ node, Returns (detectCycle next · head) (some node) ∧
      FirstOnCycle next head node := by
  obtain ⟨result, hmeet, index, rfl, hperiodic, hearlier⟩ := meet_returns h
  obtain ⟨node, hnode⟩ := Option.ne_none_iff_exists'.mp (h.never_none index)
  rw [hnode] at hmeet hperiodic
  refine ⟨node, hchase.bind ?_, index, hnode, hperiodic, ?_⟩
  · have hfast := h.never_none (2 * count)
    have hsecond := h.never_none (2 * count + 1)
    rw [← bind_next_iterate] at hsecond
    simpa only [hfast, hsecond, or_self, if_false] using hmeet
  · intro earlier hless other hother hcycle
    apply hearlier earlier hless
    rw [hother]
    exact hcycle

variable [Finite α]

/-- The two ways in which the first loop ends. -/
inductive ChaseEnd (next : α → Option α) (head : Option α) {Result : Type*}
    (met ended : Option α × Option α → Result) (result : Result) : Prop where
  | meeting (count : ℕ) (hmeeting : Meeting next head count)
      (hresult : result =
        met ((follow next)^[2 * count] head, (follow next)^[count] head))
  | listEnd (count : ℕ)
      (hnone : (follow next)^[2 * count + 1] head = none)
      (hresult : result =
        ended ((follow next)^[2 * count] head, (follow next)^[count] head))

/-- The first loop ends, without a fault. -/
theorem chase_returns {Result : Type*}
    (met ended : Option α × Option α → Result) (head : Option α) :
    ∃ result,
      Returns (loop (chase next met ended) · (head, head)) result ∧
        ChaseEnd next head met ended result := by
  obtain ⟨bound, hpos, hbound⟩ := exists_iterate_double_eq (follow next) head
  -- The pointers cannot pass `bound`, where they would be equal.
  let invariant : ℕ → Option α × Option α → Prop := fun remaining pointers =>
    ∃ count, count + remaining + 1 = bound ∧
      pointers = ((follow next)^[2 * count] head, (follow next)^[count] head)
  have hbody : ∀ remaining pointers, invariant remaining pointers →
      (∃ smaller moved, chase next met ended pointers = .next moved ∧
        smaller < remaining ∧ invariant smaller moved) ∨
      ∃ result, chase next met ended pointers = .exit result ∧
        ChaseEnd next head met ended result := by
    rintro remaining _ ⟨count, hcount, rfl⟩
    rw [chase_pass]
    by_cases hnone : (follow next)^[2 * count + 1] head = none
    · exact .inr ⟨_, if_pos hnone, .listEnd count hnone rfl⟩
    rw [if_neg hnone]
    by_cases hmet : (follow next)^[2 * (count + 1)] head =
        (follow next)^[count + 1] head
    · have hne : (follow next)^[count + 1] head ≠ none := fun h =>
        hnone (iterate_eq_none_of_le (by omega) h)
      exact .inr ⟨_, if_pos hmet,
        .meeting (count + 1) ⟨Nat.succ_pos count, hmet, hne⟩ rfl⟩
    · have hlast : count + 1 ≠ bound := by
        rintro rfl
        exact hmet hbound
      exact .inl ⟨remaining - 1, _, if_neg hmet, by omega,
        count + 1, by omega, rfl⟩
  have hremaining : 0 + (bound - 1) + 1 = bound := by omega
  exact loop_returns invariant hbody ⟨0, hremaining, rfl⟩

/-- Both functions return.  `has_cycle` says whether the path from the head is
endless, and `detect_cycle` finds the first node of the path on the cycle
whenever there is one. -/
theorem hasCycle_detectCycle_correct (next : α → Option α) (head : Option α) :
    ∃ found node,
      Returns (hasCycle next · head) found ∧
      Returns (detectCycle next · head) node ∧
      (found = true ↔ ∀ count, (follow next)^[count] head ≠ none) ∧
      (node = none ↔ found = false) ∧
      ∀ entry, node = some entry → FirstOnCycle next head entry := by
  obtain ⟨found, hfound, hfoundEnd⟩ :=
    @chase_returns α next _ _ Bool (fun _ => true) (fun _ => false) head
  obtain ⟨pointers, hpointers, hpointersEnd⟩ :=
    @chase_returns α next _ _ _ id id head
  cases hpointersEnd with
  | meeting count hmeeting hresult =>
      subst hresult
      obtain ⟨node, hnode, hfirst⟩ := detectCycle_of_meeting hmeeting hpointers
      have htrue : found = true := by
        cases hfoundEnd with
        | meeting _ _ hfoundResult => exact hfoundResult
        | listEnd _ hnone _ => exact absurd hnone (hmeeting.never_none _)
      refine ⟨found, some node, hfound, hnode, ?_, ?_, ?_⟩
      · exact iff_of_true htrue hmeeting.never_none
      · simp [htrue]
      · rintro entry ⟨⟩
        exact hfirst
  | listEnd count hnone hresult =>
      subst hresult
      have hfalse : found = false := by
        cases hfoundEnd with
        | meeting _ hmeeting _ => exact absurd hnone (hmeeting.never_none _)
        | listEnd _ _ hfoundResult => exact hfoundResult
      refine ⟨found, none, hfound, detectCycle_of_listEnd hnone hpointers,
        ?_, ?_, ?_⟩
      · rw [hfalse]
        exact iff_of_false Bool.false_ne_true fun h => h _ hnone
      · simp [hfalse]
      · simp

/-- A list of four nodes whose last node points back to the second. -/
theorem hasCycle_detectCycle_correct_of_four_nodes :
    let next : Fin 4 → Option (Fin 4) := ![some 1, some 2, some 3, some 1]
    ∃ found node,
      Returns (hasCycle next · (some 0)) found ∧
      Returns (detectCycle next · (some 0)) node ∧
      (found = true ↔ ∀ count, (follow next)^[count] (some 0) ≠ none) ∧
      (node = none ↔ found = false) ∧
      ∀ entry, node = some entry → FirstOnCycle next (some 0) entry :=
  hasCycle_detectCycle_correct _ _

example : detectCycle ![some 1, some 2, some 3, some (1 : Fin 4)] 5 (some 0) =
    some (some 1) := by decide

end Loops

end KataCpp.TwoPointers
