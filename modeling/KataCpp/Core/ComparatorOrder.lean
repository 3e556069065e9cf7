import Mathlib

/-!
# Ordered maps with a comparator

An ordered map that is given a comparator takes two keys for equal when neither
of them is less than the other.  For a strict weak order this is a lawful
comparison, and for a strict total order only a key itself is equal to it, so
the map is one from keys.
-/

namespace KataCpp.ComparatorOrder

variable {Key : Type*} {less : Key → Key → Prop} [DecidableRel less]

section Weak

variable [IsStrictWeakOrder Key less] {left middle right : Key}

omit [DecidableRel less] in
theorem not_less_of_less (hless : less left right) : ¬ less right left :=
  fun hback => Std.Irrefl.irrefl left (IsTrans.trans _ _ _ hless hback)

omit [DecidableRel less] in
/-- What is not below a key is not below one that is not above it. -/
theorem not_less_trans (hfirst : ¬ less middle left)
    (hsecond : ¬ less right middle) : ¬ less right left := by
  intro hless
  by_cases hleft : less left middle
  · exact hsecond (IsTrans.trans _ _ _ hless hleft)
  · by_cases hright : less middle right
    · exact hfirst (IsTrans.trans _ _ _ hright hless)
    · exact (@IsStrictWeakOrder.incomp_trans Key less _ left middle right
        ⟨hleft, hfirst⟩ ⟨hright, hsecond⟩).2 hless

theorem isLE_cmpUsing_iff :
    (cmpUsing less left right).isLE ↔ ¬ less right left := by
  rw [cmpUsing]
  split
  · next hless => exact iff_of_true rfl (not_less_of_less hless)
  · split
    · next hgreater => exact iff_of_false (by simp) (not_not.mpr hgreater)
    · next hother => exact iff_of_true rfl hother

instance transCmp_cmpUsing : Std.TransCmp (cmpUsing less) where
  eq_swap := by
    intro left right
    by_cases hless : less left right
    · simp [cmpUsing, hless, not_less_of_less hless]
    · by_cases hgreater : less right left
      · simp [cmpUsing, hless, hgreater]
      · simp [cmpUsing, hless, hgreater]
  isLE_trans := by
    intro left middle right hfirst hsecond
    rw [isLE_cmpUsing_iff] at hfirst hsecond ⊢
    exact not_less_trans hfirst hsecond

end Weak

section Total

variable [IsStrictTotalOrder Key less]

omit [DecidableRel less] in
instance (priority := low) isStrictWeakOrder_of_total :
    IsStrictWeakOrder Key less :=
  isStrictWeakOrder_of_isOrderConnected

instance lawfulEqCmp_cmpUsing : Std.LawfulEqCmp (cmpUsing less) where
  compare_self := by
    intro key
    have hself : ¬ less key key := Std.Irrefl.irrefl key
    simp [cmpUsing, hself]
  eq_of_compare := by
    intro left right hequal
    obtain ⟨hless, hgreater⟩ := (cmpUsing_eq_eq left right).mp hequal
    exact Std.Trichotomous.trichotomous left right hless hgreater

end Total

end KataCpp.ComparatorOrder
