import Mathlib

/-!
# Enumerations by backtracking

`arrangements` are the sequences of a given length that are formed by choosing
elements one after the other, never one that has been taken before.  Of all the
elements of a list without repetition they are its permutations.

`selections` are the non-empty subsequences of a list, in the order in which a
search that extends a subsequence to the right comes to them.
-/

namespace KataCpp.Enumeration

open scoped List

variable {α : Type*}

section Arrangements

variable [DecidableEq α]

/-- The sequences of `count` further elements behind those taken already. -/
def arrangements (choices : List α) : ℕ → List α → List (List α)
  | 0, _ => [[]]
  | count + 1, taken =>
      (choices.filter (· ∉ taken)).flatMap fun choice =>
        (arrangements choices count (taken ++ [choice])).map (choice :: ·)

variable {choices taken sequence : List α} {count : ℕ}

theorem mem_arrangements_iff :
    sequence ∈ arrangements choices count taken ↔
      sequence.length = count ∧ sequence.Nodup ∧
        ∀ x ∈ sequence, x ∈ choices ∧ x ∉ taken := by
  induction count generalizing taken sequence with
  | zero => cases sequence <;> simp [arrangements]
  | succ count ih =>
      cases sequence with
      | nil => simp [arrangements]
      | cons first sequence =>
          simp only [arrangements, List.mem_flatMap, List.mem_filter,
            decide_eq_true_eq, List.mem_map, List.cons.injEq, ih]
          constructor
          · rintro ⟨choice, ⟨hchoice, htaken⟩, rest, ⟨hlength, hnodup, hrest⟩,
              rfl, rfl⟩
            have hfresh : choice ∉ rest := by
              intro hmem
              exact (hrest choice hmem).2 (by simp)
            refine ⟨by rw [List.length_cons, hlength],
              List.nodup_cons.mpr ⟨hfresh, hnodup⟩, ?_⟩
            intro x hx
            rcases List.mem_cons.mp hx with rfl | hx
            · exact ⟨hchoice, htaken⟩
            · have hboth := hrest x hx
              rw [List.mem_append, not_or] at hboth
              exact ⟨hboth.1, hboth.2.1⟩
          · rintro ⟨hlength, hnodup, hall⟩
            rw [List.nodup_cons] at hnodup
            refine ⟨first, hall first List.mem_cons_self, sequence,
              ⟨Nat.succ_injective hlength, hnodup.2, ?_⟩, rfl, rfl⟩
            intro x hx
            obtain ⟨hchoice, htaken⟩ := hall x (List.mem_cons_of_mem first hx)
            rw [List.mem_append, List.mem_singleton, not_or]
            refine ⟨hchoice, htaken, ?_⟩
            rintro rfl
            exact hnodup.1 hx

theorem nodup_arrangements (hchoices : choices.Nodup) :
    (arrangements choices count taken).Nodup := by
  induction count generalizing taken with
  | zero => exact List.nodup_singleton _
  | succ count ih =>
      rw [arrangements, List.nodup_flatMap]
      constructor
      · intro choice _
        exact ih.map List.cons_injective
      · -- Arrangements with different first elements are different.
        apply (hchoices.filter _).imp
        intro left right hne sequence hleft hright
        obtain ⟨first, -, rfl⟩ := List.mem_map.mp hleft
        obtain ⟨second, -, hsame⟩ := List.mem_map.mp hright
        exact hne (List.cons.inj hsame).1.symm

/-- As many elements as there are choices: each of them is taken. -/
theorem perm_of_mem_arrangements (hlength : choices.length ≤ count)
    (hmem : sequence ∈ arrangements choices count taken) :
    sequence ~ choices := by
  obtain ⟨rfl, hnodup, hall⟩ := mem_arrangements_iff.mp hmem
  have hsubperm : sequence <+~ choices :=
    List.subperm_of_subset hnodup fun x hx => (hall x hx).1
  exact hsubperm.perm_of_length_le hlength

/-- The arrangements of all elements of a list without repetition. -/
theorem mem_arrangements_length_iff (hchoices : choices.Nodup) :
    sequence ∈ arrangements choices choices.length [] ↔
      sequence ~ choices := by
  constructor
  · exact perm_of_mem_arrangements le_rfl
  · intro hperm
    rw [mem_arrangements_iff]
    exact ⟨hperm.length_eq, hperm.nodup_iff.mpr hchoices,
      fun x hx => ⟨hperm.mem_iff.mp hx, List.not_mem_nil⟩⟩

theorem length_arrangements (hchoices : choices.Nodup) :
    (arrangements choices choices.length []).length =
      choices.length.factorial := by
  have hperm : arrangements choices choices.length [] ~
      choices.permutations := by
    rw [List.perm_ext_iff_of_nodup (nodup_arrangements hchoices)
      (List.nodup_permutations choices hchoices)]
    intro sequence
    rw [mem_arrangements_length_iff hchoices, List.mem_permutations]
  rw [hperm.length_eq, List.length_permutations]

end Arrangements

section Selections

def selections : List α → List (List α)
  | [] => []
  | x :: xs => ([] :: selections xs).map (x :: ·) ++ selections xs

theorem nil_cons_selections_perm (xs : List α) :
    [] :: selections xs ~ xs.sublists' := by
  induction xs with
  | nil => exact .refl _
  | cons x xs ih =>
      rw [List.sublists'_cons, selections]
      calc [] :: (([] :: selections xs).map (x :: ·) ++ selections xs)
          ~ ([] :: selections xs).map (x :: ·) ++ [] :: selections xs :=
            List.perm_middle.symm
        _ ~ ([] :: selections xs) ++ ([] :: selections xs).map (x :: ·) :=
            List.perm_append_comm
        _ ~ xs.sublists' ++ xs.sublists'.map (x :: ·) :=
            ih.append (ih.map _)

end Selections

end KataCpp.Enumeration
