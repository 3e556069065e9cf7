import KataCpp.Core.Enumeration
import KataCpp.Core.IndexLoop
import KataCpp.Core.Segment

/-!
# All permutations by backtracking

`backtrace` extends a track by every number that is not in it, calls itself, and
takes the number off again.  A track that is as long as the vector is a result.

The index of the loop is an `int`, so only the first `2 ^ 31` numbers are ever
tried.  A longer vector of distinct numbers has no track that gets long enough.
-/

namespace KataCpp.Permute

open Enumeration IndexLoop Iteration MachineInt Segment
open scoped List

structure Search where
  track : List ℤ
  res : List (List ℤ)

/-- The body of the loop: the option is taken, followed and given up. -/
def choose (call : Search → Option Search) (search : Search) (number : ℤ) :
    Option Search :=
  if number ∈ search.track then some search
  else do
    let search ← call { search with track := search.track ++ [number] }
    return { search with track := search.track.dropLast }

def backtrace (numbers : List ℤ) : ℕ → Search → Option Search
  | 0, _ => none
  | fuel + 1, search =>
      if search.track.length = numbers.length then
        some { search with res := search.res ++ [search.track] }
      else
        indexLoop numbers.length
          (fun search i =>
            (read numbers i).bind (choose (backtrace numbers fuel) search))
          0 search

/-- With `track` as it is when the function returns. -/
def permute (numbers : List ℤ) (res : List (List ℤ)) (fuel : ℕ) :
    Option Search :=
  if numbers.isEmpty then some ⟨[], res⟩
  else backtrace numbers fuel ⟨[], res⟩

section Search

variable {numbers : List ℤ}

def reachable (numbers : List ℤ) : List ℤ := numbers.take indexLimit

/-- A number that is not in the track is taken and given up again. -/
theorem choose_returns {call : ℕ → Search → Option Search} {track : List ℤ}
    {number : ℤ} {res found : List (List ℤ)} (hnumber : number ∉ track)
    (hcall : Returns (call · ⟨track ++ [number], res⟩)
      ⟨track ++ [number], res ++ found⟩) :
    Returns (fun fuel => choose (call fuel) ⟨track, res⟩ number)
      ⟨track, res ++ found⟩ := by
  simp only [choose, if_neg hnumber]
  apply hcall.bind
  rw [List.dropLast_concat]
  exact returns_some _

/-- The numbers are tried one after the other, each with the same track. -/
theorem foldlM_choose {call : ℕ → Search → Option Search} {track : List ℤ}
    {found : ℤ → List (List ℤ)} (choices : List ℤ)
    (hcall : ∀ number res, Returns (call · ⟨track ++ [number], res⟩)
      ⟨track ++ [number], res ++ found number⟩) (res : List (List ℤ)) :
    Returns (fun fuel => choices.foldlM (choose (call fuel)) ⟨track, res⟩)
      ⟨track, res ++ (choices.filter (· ∉ track)).flatMap found⟩ := by
  induction choices generalizing res with
  | nil =>
      rw [List.filter_nil, List.flatMap_nil, List.append_nil]
      exact returns_some _
  | cons number choices ih =>
      simp only [List.foldlM_cons]
      by_cases hnumber : number ∈ track
      · rw [List.filter_cons_of_neg (by simpa using hnumber)]
        simp only [choose, if_pos hnumber]
        exact ih res
      · rw [List.filter_cons_of_pos (by simpa using hnumber),
          List.flatMap_cons, ← List.append_assoc]
        exact (choose_returns hnumber (hcall number res)).bind (ih _)

/-- Every way to complete the track is found, and the track is as before. -/
theorem backtrace_returns (hsize : numbers.length < 2 ^ 63) {count : ℕ}
    {track : List ℤ} (hcount : track.length + count = numbers.length)
    (res : List (List ℤ)) :
    Returns (backtrace numbers · ⟨track, res⟩)
      ⟨track, res ++
        (arrangements (reachable numbers) count track).map (track ++ ·)⟩ := by
  induction count generalizing track res with
  | zero =>
      apply returns_of_succ
      simp only [backtrace, if_pos (show track.length = _ from hcount)]
      simp only [arrangements, List.map_singleton, List.append_nil]
      exact returns_some _
  | succ count ih =>
      have hshort : track.length ≠ numbers.length := by omega
      have hcalls (number : ℤ) :
          (track ++ [number]).length + count = numbers.length := by
        rw [List.length_append, List.length_singleton]
        omega
      have hloop := foldlM_choose (reachable numbers)
        (fun number res => ih (hcalls number) res) res
      have hfound : (arrangements (reachable numbers) (count + 1) track).map
          (track ++ ·) = ((reachable numbers).filter (· ∉ track)).flatMap
            fun number => (arrangements (reachable numbers) count
              (track ++ [number])).map (track ++ [number] ++ ·) := by
        rw [arrangements, List.map_flatMap]
        simp only [List.map_map, Function.comp_def, List.append_assoc,
          List.singleton_append]
      apply returns_of_succ
      simp only [backtrace, if_neg hshort, indexLoop_read hsize, hfound]
      exact hloop

theorem permute_returns (hnumbers : numbers ≠ [])
    (hsize : numbers.length < 2 ^ 63) (res : List (List ℤ)) :
    Returns (permute numbers res)
      ⟨[], res ++ arrangements (reachable numbers) numbers.length []⟩ := by
  have hsome : numbers.isEmpty = false := by simpa using hnumbers
  have hsearch : Returns (backtrace numbers · ⟨[], res⟩) ⟨[], res ++
      (arrangements (reachable numbers) numbers.length []).map ([] ++ ·)⟩ :=
    backtrace_returns hsize (Nat.zero_add _) res
  simp only [List.nil_append, List.map_id'] at hsearch
  have hcompute : permute numbers res =
      fun fuel => backtrace numbers fuel ⟨[], res⟩ := by
    funext fuel
    rw [permute, hsome]
    rfl
  rw [hcompute]
  exact hsearch

end Search

def Correct (numbers : List ℤ) (res : List (List ℤ)) (final : Search) : Prop :=
  ∃ found, final = ⟨[], res ++ found⟩ ∧
    (numbers.Nodup → found.Nodup ∧
      (∀ sequence, sequence ∈ found ↔ sequence ~ numbers) ∧
      found.length = numbers.length.factorial) ∧
    (¬numbers.Nodup → found = [])

section Found

variable {numbers : List ℤ}

theorem reachable_eq_self (hlength : numbers.length ≤ 2 ^ 31) :
    reachable numbers = numbers :=
  List.take_of_length_le hlength

theorem length_reachable (numbers : List ℤ) :
    (reachable numbers).length = min (2 ^ 31) numbers.length :=
  List.length_take

/-- Not every number is tried, or some number comes twice. -/
theorem arrangements_reachable_eq_nil
    (hnumbers : 2 ^ 31 < numbers.length ∨ ¬numbers.Nodup) :
    arrangements (reachable numbers) numbers.length [] = [] := by
  rw [List.eq_nil_iff_forall_not_mem]
  intro sequence hsequence
  have hlimit := length_reachable numbers
  have hperm := perm_of_mem_arrangements (by omega) hsequence
  obtain ⟨hlength, hnodup, -⟩ := mem_arrangements_iff.mp hsequence
  rw [hperm.length_eq] at hlength
  have hall : numbers.length ≤ 2 ^ 31 := by omega
  rw [reachable_eq_self hall] at hperm
  rcases hnumbers with hlong | hrepeated
  · omega
  · exact hrepeated (hperm.nodup_iff.mp hnodup)

theorem not_correct_of_long (hlong : 2 ^ 31 < numbers.length)
    (hsize : numbers.length < 2 ^ 63) (hnodup : numbers.Nodup)
    (res : List (List ℤ)) :
    ¬∃ final, Returns (permute numbers res) final ∧
      Correct numbers res final := by
  rintro ⟨final, hfinal, found, rfl, hpermutations, -⟩
  have hnumbers : numbers ≠ [] := by
    rintro rfl
    exact absurd hlong (Nat.not_lt_zero _)
  have hsame := (permute_returns hnumbers hsize res).unique hfinal
  rw [arrangements_reachable_eq_nil (Or.inl hlong)] at hsame
  have hnone : found = [] := by simpa using hsame
  have hself := ((hpermutations hnodup).2.1 numbers).mpr (.refl _)
  rw [hnone] at hself
  exact absurd hself List.not_mem_nil

/-- All permutations are found exactly when the vector has at most `2 ^ 31`
numbers, or one of them comes twice. -/
theorem permute_correct_iff (hnumbers : numbers ≠ [])
    (hsize : numbers.length < 2 ^ 63) (res : List (List ℤ)) :
    (∃ final, Returns (permute numbers res) final ∧
      Correct numbers res final) ↔
      numbers.length ≤ 2 ^ 31 ∨ ¬numbers.Nodup := by
  constructor
  · intro hcorrect
    by_contra hlong
    rw [not_or, not_le, not_not] at hlong
    exact not_correct_of_long hlong.1 hsize hlong.2 res hcorrect
  · intro hcondition
    refine ⟨_, permute_returns hnumbers hsize res, _, rfl, ?_, ?_⟩
    · intro hnodup
      have hlength : numbers.length ≤ 2 ^ 31 :=
        hcondition.resolve_right (not_not.mpr hnodup)
      rw [reachable_eq_self hlength]
      exact ⟨nodup_arrangements hnodup,
        fun sequence => mem_arrangements_length_iff hnodup,
        length_arrangements hnodup⟩
    · intro hrepeated
      exact arrangements_reachable_eq_nil (Or.inr hrepeated)

theorem permute_correct_four :
    ∃ final, Returns (permute [1, 2, 3, 4] []) final ∧
      Correct [1, 2, 3, 4] [] final :=
  (permute_correct_iff (by decide) (by decide) []).mpr (Or.inl (by decide))

end Found

def integersFrom (count : ℕ) : List ℤ :=
  (List.range count).map fun index : ℕ => (index : ℤ) - 2 ^ 31

theorem length_integersFrom (count : ℕ) :
    (integersFrom count).length = count := by
  rw [integersFrom, List.length_map, List.length_range]

theorem nodup_integersFrom (count : ℕ) : (integersFrom count).Nodup := by
  apply List.nodup_range.map
  intro left right hsame
  exact Int.ofNat_injective (sub_left_injective hsame)

/-- The `2 ^ 31 + 1` numbers from `INT_MIN` to zero. -/
theorem permute_many :
    ¬∃ final, Returns (permute (integersFrom (2 ^ 31 + 1)) []) final ∧
      Correct (integersFrom (2 ^ 31 + 1)) [] final := by
  have hlength := length_integersFrom (2 ^ 31 + 1)
  exact not_correct_of_long (by omega) (by omega) (nodup_integersFrom _) []

end KataCpp.Permute
