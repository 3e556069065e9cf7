import Mathlib

/-!
# Searching for a substring

`find` is the search of the standard string class: the first index from a
given position on at which the pattern stands, if there is one.
-/

namespace KataCpp.SubstringSearch

variable {α : Type*} [DecidableEq α]

/-- The first index at or after `pos` at which `pattern` stands in `text`. -/
def find (text pattern : List α) (pos : ℕ) : Option ℕ :=
  (List.range' pos (text.length + 1 - pos)).find? fun index =>
    decide (pattern <+: text.drop index)

variable {text pattern : List α} {pos later index : ℕ}

theorem find_eq_some_iff :
    find text pattern pos = some index ↔
      pos ≤ index ∧ index ≤ text.length ∧ pattern <+: text.drop index ∧
        ∀ earlier, pos ≤ earlier → earlier < index →
          ¬ pattern <+: text.drop earlier := by
  rw [find, List.find?_range'_eq_some]
  simp only [decide_eq_true_eq, List.mem_range'_1, Bool.not_eq_true',
    decide_eq_false_iff_not]
  constructor
  · rintro ⟨hoccurs, ⟨hpos, hlength⟩, hearlier⟩
    exact ⟨hpos, by omega, hoccurs, hearlier⟩
  · rintro ⟨hpos, hlength, hoccurs, hearlier⟩
    exact ⟨hoccurs, ⟨hpos, by omega⟩, hearlier⟩

theorem find_eq_none_iff :
    find text pattern pos = none ↔
      ∀ index, pos ≤ index → index ≤ text.length →
        ¬ pattern <+: text.drop index := by
  rw [find, List.find?_eq_none]
  simp only [decide_eq_true_eq, List.mem_range'_1]
  constructor
  · intro hnone index hpos hlength
    exact hnone index ⟨hpos, by omega⟩
  · rintro hnone index ⟨hpos, hlength⟩
    exact hnone index hpos (by omega)

/-- A search can start later if the pattern does not stand in between. -/
theorem find_eq_find_of_le (hle : pos ≤ later)
    (hskipped : ∀ index, pos ≤ index → index < later →
      ¬ pattern <+: text.drop index) :
    find text pattern pos = find text pattern later := by
  ext index
  rw [find_eq_some_iff, find_eq_some_iff]
  constructor
  · rintro ⟨hpos, hlength, hoccurs, hearlier⟩
    have hlater : later ≤ index := by
      by_contra hless
      exact hskipped index hpos (not_le.mp hless) hoccurs
    exact ⟨hlater, hlength, hoccurs,
      fun earlier hstart => hearlier earlier (hle.trans hstart)⟩
  · rintro ⟨hlater, hlength, hoccurs, hearlier⟩
    refine ⟨hle.trans hlater, hlength, hoccurs, ?_⟩
    intro earlier hstart hless
    rcases lt_or_ge earlier later with hbefore | hafter
    · exact hskipped earlier hstart hbefore
    · exact hearlier earlier hafter hless

end KataCpp.SubstringSearch
