import Mathlib

/-!
# Repetitions in a list

`repeats` tells of every two neighbours whether they are equal, `lastRun` counts
the equal elements at the end, and Mathlib's `destutter` leaves one element of
every run.  A list is read from the left here, so every notion comes with what
one more element at the end does to it.
-/

namespace KataCpp.Repetition

variable {α : Type*} [DecidableEq α]

def repeats : List α → List Bool
  | [] => []
  | [_] => []
  | a :: b :: rest => decide (a = b) :: repeats (b :: rest)

theorem repeats_concat {list : List α} {last : α}
    (hlast : list.getLast? = some last) (c : α) :
    repeats (list ++ [c]) = repeats list ++ [decide (last = c)] := by
  fun_induction repeats list with
  | case1 => exact absurd hlast.symm (Option.some_ne_none last)
  | case2 a =>
      obtain rfl : a = last := by simpa using hlast
      rfl
  | case3 a b rest ih =>
      rw [List.getLast?_cons_cons] at hlast
      rw [List.cons_append, List.cons_append, repeats, List.cons_append,
        ← ih hlast, List.cons_append]

theorem length_repeats (list : List α) :
    (repeats list).length = list.length - 1 := by
  fun_induction repeats list with
  | case1 => rfl
  | case2 a => rfl
  | case3 a b rest ih =>
      simp only [List.length_cons, ih]
      omega

theorem repeats_replicate_succ (count : ℕ) (a : α) :
    repeats (List.replicate (count + 1) a) = List.replicate count true := by
  induction count with
  | zero => rfl
  | succ count ih =>
      rw [List.replicate_succ, List.replicate_succ, repeats,
        ← List.replicate_succ, ih, decide_eq_true rfl, List.replicate_succ]

theorem repeats_suffix_cons (a : α) (list : List α) :
    (repeats list).IsSuffix (repeats (a :: list)) := by
  cases list with
  | nil => exact List.suffix_refl _
  | cons b rest => exact List.suffix_cons _ _

theorem repeats_suffix {part list : List α} (hpart : part.IsSuffix list) :
    (repeats part).IsSuffix (repeats list) := by
  obtain ⟨front, rfl⟩ := hpart
  induction front with
  | nil => exact List.suffix_refl _
  | cons a front ih => exact ih.trans (repeats_suffix_cons a _)

/-- What `repeats` ends in comes from the end of the list. -/
theorem exists_suffix_of_repeats {list : List α} {flags : List Bool}
    (hflags : flags.IsSuffix (repeats list)) :
    ∃ part, part.IsSuffix list ∧ repeats part = flags := by
  fun_induction repeats list with
  | case1 => exact ⟨[], List.suffix_refl _, (List.suffix_nil.mp hflags).symm⟩
  | case2 a =>
      exact ⟨[a], List.suffix_refl _, (List.suffix_nil.mp hflags).symm⟩
  | case3 a b rest ih =>
      rcases List.suffix_cons_iff.mp hflags with rfl | hrest
      · exact ⟨a :: b :: rest, List.suffix_refl _, rfl⟩
      · obtain ⟨part, hsuffix, hrepeats⟩ := ih hrest
        exact ⟨part, hsuffix.trans (List.suffix_cons _ _), hrepeats⟩

omit [DecidableEq α] in
theorem eq_of_suffix_of_getLast? {list : List α} (part : List α) {x last : α}
    (hsuffix : (part ++ [x]).IsSuffix list)
    (hlast : list.getLast? = some last) : x = last := by
  obtain ⟨front, rfl⟩ := hsuffix
  rw [← List.append_assoc, List.getLast?_concat, Option.some.injEq] at hlast
  exact hlast

section Endings

variable {list : List α} {last : α} (hlast : list.getLast? = some last) (c : α)

include hlast

/-- A list ends in a pair if its last two elements are equal. -/
theorem pair_suffix_iff :
    [c, c].IsSuffix list ↔ last = c ∧ [true].IsSuffix (repeats list) := by
  constructor
  · intro hsuffix
    refine ⟨(eq_of_suffix_of_getLast? [c] hsuffix hlast).symm, ?_⟩
    have hrepeats := repeats_suffix hsuffix
    rwa [repeats, repeats, decide_eq_true rfl] at hrepeats
  · rintro ⟨rfl, hflags⟩
    obtain ⟨part, hsuffix, hrepeats⟩ := exists_suffix_of_repeats hflags
    obtain ⟨x, y, rfl⟩ : ∃ x y, part = [x, y] := by
      have hlength := congrArg List.length hrepeats
      rw [length_repeats, List.length_singleton] at hlength
      exact List.length_eq_two.mp (by omega)
    have hxy : x = y := by simpa [repeats] using hrepeats
    have hy := eq_of_suffix_of_getLast? [x] hsuffix hlast
    rwa [hxy, hy] at hsuffix

/-- A list ends in a pair and another element if the last element is new and the
one before it is not. -/
theorem pair_element_suffix_iff :
    (∃ a ∈ list, a ≠ c ∧ [a, a, c].IsSuffix list) ↔
      last = c ∧ [true, false].IsSuffix (repeats list) := by
  constructor
  · rintro ⟨a, -, hne, hsuffix⟩
    refine ⟨(eq_of_suffix_of_getLast? [a, a] hsuffix hlast).symm, ?_⟩
    have hrepeats := repeats_suffix hsuffix
    rwa [repeats, repeats, repeats, decide_eq_true rfl, decide_eq_false hne]
      at hrepeats
  · rintro ⟨rfl, hflags⟩
    obtain ⟨part, hsuffix, hrepeats⟩ := exists_suffix_of_repeats hflags
    obtain ⟨x, y, z, rfl⟩ : ∃ x y z, part = [x, y, z] := by
      have hlength := congrArg List.length hrepeats
      rw [length_repeats, List.length_cons, List.length_singleton] at hlength
      exact List.length_eq_three.mp (by omega)
    obtain ⟨hxy, hyz⟩ : x = y ∧ y ≠ z := by simpa [repeats] using hrepeats
    have hz := eq_of_suffix_of_getLast? [x, y] hsuffix hlast
    rw [hxy, hz] at hsuffix
    rw [hz] at hyz
    exact ⟨y, hsuffix.subset (by simp), hyz, hsuffix⟩

end Endings

theorem repeats_sublist_append (list rest : List α) :
    (repeats list).Sublist (repeats (list ++ rest)) := by
  fun_induction repeats list with
  | case1 => exact List.nil_sublist _
  | case2 a => exact List.nil_sublist _
  | case3 a b tail ih => exact ih.cons_cons (decide (a = b))

theorem repeats_sublist_cons (a : α) (list : List α) :
    (repeats list).Sublist (repeats (a :: list)) := by
  cases list with
  | nil => exact List.Sublist.refl _
  | cons b rest => exact List.sublist_cons_self _ _

theorem repeats_sublist_of_isInfix {part list : List α}
    (hpart : part.IsInfix list) :
    (repeats part).Sublist (repeats list) := by
  obtain ⟨before, after, rfl⟩ := hpart
  rw [List.append_assoc]
  apply (repeats_sublist_append part after).trans
  induction before with
  | nil => exact List.Sublist.refl _
  | cons a before ih => exact ih.trans (repeats_sublist_cons a _)

omit [DecidableEq α] in
/-- A pattern in a list that has got one more element. -/
theorem concat_sublist_concat (pattern list : List α) (x c : α) :
    (pattern ++ [x]).Sublist (list ++ [c]) ↔
      (pattern ++ [x]).Sublist list ∨ (x = c ∧ pattern.Sublist list) := by
  rw [← List.reverse_sublist, List.reverse_concat, List.reverse_concat,
    List.cons_sublist_cons', List.reverse_sublist, ← List.reverse_concat,
    List.reverse_sublist]

/-- The number of elements at the end that equal the last one. -/
def lastRun (list : List α) : ℕ :=
  match list.reverse with
  | [] => 0
  | c :: rest => (rest.takeWhile (· = c)).length + 1

theorem lastRun_append_singleton (front : List α) (c : α) :
    lastRun (front ++ [c]) =
      (front.reverse.takeWhile (· = c)).length + 1 := by
  rw [lastRun, List.reverse_concat]

theorem lastRun_concat {list : List α} {last : α}
    (hlast : list.getLast? = some last) (c : α) :
    lastRun (list ++ [c]) = if last = c then lastRun list + 1 else 1 := by
  obtain ⟨front, rfl⟩ := List.getLast?_eq_some_iff.mp hlast
  rw [lastRun_append_singleton, lastRun_append_singleton, List.reverse_concat,
    List.takeWhile_cons]
  by_cases hc : last = c
  · simp [hc]
  · simp [hc]

/-- Equal elements at the end belong to the last run. -/
theorem le_lastRun {list : List α} {count : ℕ} {a : α}
    (hsuffix : (List.replicate count a).IsSuffix list) :
    count ≤ lastRun list := by
  obtain ⟨front, rfl⟩ := hsuffix
  cases count with
  | zero => exact Nat.zero_le _
  | succ count =>
      rw [List.replicate_succ', ← List.append_assoc, lastRun_append_singleton,
        List.reverse_append, List.reverse_replicate,
        List.takeWhile_append_of_pos (by simp), List.length_append,
        List.length_replicate]
      omega

theorem replicate_lastRun_suffix {list : List α} {last : α}
    (hlast : list.getLast? = some last) :
    (List.replicate (lastRun list) last).IsSuffix list := by
  obtain ⟨front, rfl⟩ := List.getLast?_eq_some_iff.mp hlast
  have hrun : front.reverse.takeWhile (· = last) =
      List.replicate (front.reverse.takeWhile (· = last)).length last := by
    rw [List.eq_replicate_iff]
    refine ⟨rfl, fun b hb => ?_⟩
    simpa using List.mem_takeWhile_imp hb
  rw [← List.reverse_prefix, List.reverse_replicate, lastRun_append_singleton,
    List.reverse_concat, List.replicate_succ, List.cons_prefix_cons, ← hrun]
  exact ⟨rfl, List.takeWhile_prefix _⟩

/-- A list has a run of `count` elements if one of its beginnings ends in such a
run. -/
theorem exists_replicate_infix_iff {list : List α} {count : ℕ}
    (hcount : 0 < count) :
    (∃ a, (List.replicate count a).IsInfix list) ↔
      ∃ front, front.IsPrefix list ∧ count ≤ lastRun front := by
  constructor
  · rintro ⟨a, before, after, hlist⟩
    exact ⟨before ++ List.replicate count a, ⟨after, hlist⟩,
      le_lastRun (List.suffix_append _ _)⟩
  · rintro ⟨front, hprefix, hle⟩
    cases hlast : front.getLast? with
    | none =>
        rw [List.getLast?_eq_none_iff] at hlast
        subst hlast
        exact absurd hle (Nat.not_le.mpr hcount)
    | some last =>
        have hshort : (List.replicate count last).IsSuffix
            (List.replicate (lastRun front) last) := by
          rw [← Nat.sub_add_cancel hle, List.replicate_add]
          exact List.suffix_append _ _
        have hsuffix := hshort.trans (replicate_lastRun_suffix hlast)
        exact ⟨last, hsuffix.isInfix.trans hprefix.isInfix⟩

/-! ## One element of every run -/

theorem destutter'_concat {a last : α} {rest : List α}
    (hlast : (a :: rest).getLast? = some last) (c : α) :
    (rest ++ [c]).destutter' (· ≠ ·) a =
      rest.destutter' (· ≠ ·) a ++ if last = c then [] else [c] := by
  induction rest generalizing a with
  | nil =>
      obtain rfl : a = last := by simpa using hlast
      by_cases hc : a = c
      · simp [hc]
      · simp [hc]
  | cons b rest ih =>
      rw [List.getLast?_cons_cons] at hlast
      by_cases hb : a = b
      · subst hb
        have hnot : ¬a ≠ a := not_not_intro rfl
        rw [List.cons_append, List.destutter'_cons_neg _ hnot,
          List.destutter'_cons_neg _ hnot, ih hlast]
      · rw [List.cons_append, List.destutter'_cons_pos _ hb,
          List.destutter'_cons_pos _ hb, ih hlast, List.cons_append]

theorem destutter_concat {list : List α} {last : α}
    (hlast : list.getLast? = some last) (c : α) :
    (list ++ [c]).destutter (· ≠ ·) =
      list.destutter (· ≠ ·) ++ if last = c then [] else [c] := by
  cases list with
  | nil => exact absurd hlast.symm (Option.some_ne_none last)
  | cons a rest => exact destutter'_concat hlast c

end KataCpp.Repetition
