import KataCpp.Core.Enumeration
import KataCpp.Core.IndexLoop
import KataCpp.Core.Segment

/-!
# All subsets by backtracking

`backtrace` emits the track it is called with, and then extends it by every
number from `start` on and calls itself for the numbers behind.  Seen from the
positions, it goes through the subsequences of the positions in order.

The index is an `int`: positions from `2 ^ 31` on are never chosen.
-/

namespace KataCpp.Subsets

open Enumeration IndexLoop Iteration MachineInt Segment
open scoped List

structure Search where
  track : List ℤ
  res : List (List ℤ)

/-- The body of the loop: the option is taken, followed and given up. -/
def choose (call : ℤ → Search → Option Search) (numbers : List ℤ)
    (search : Search) (i : ℤ) : Option Search := do
  let number ← read numbers i
  let search ← call (wrap32 (i + 1))
    { search with track := search.track ++ [number] }
  return { search with track := search.track.dropLast }

def backtrace (numbers : List ℤ) : ℕ → ℤ → Search → Option Search
  | 0, _, _ => none
  | fuel + 1, start, search =>
      indexLoop numbers.length (choose (backtrace numbers fuel) numbers) start
        { search with res := search.res ++ [search.track] }

/-- With `track` as it is when the function returns. -/
def subsets (numbers : List ℤ) (res : List (List ℤ)) (fuel : ℕ) :
    Option Search :=
  if numbers.isEmpty then some ⟨[], res⟩
  else backtrace numbers fuel 0 ⟨[], res⟩

def numbersAt (numbers : List ℤ) (positions : List ℕ) : List ℤ :=
  positions.filterMap (numbers[·]?)

section Search

variable {numbers : List ℤ}

theorem numbersAt_cons {position : ℕ} (hposition : position < numbers.length)
    (positions : List ℕ) :
    numbersAt numbers (position :: positions) =
      numbers[position] :: numbersAt numbers positions := by
  rw [numbersAt, List.filterMap_cons, List.getElem?_eq_getElem hposition]
  rfl

/-- The tracks that extend a given one by the numbers at chosen positions. -/
def extensions (numbers track : List ℤ) (chosen : List (List ℕ)) :
    List (List ℤ) :=
  chosen.map fun positions => track ++ numbersAt numbers positions

theorem extensions_append (track : List ℤ) (left right : List (List ℕ)) :
    extensions numbers track (left ++ right) =
      extensions numbers track left ++ extensions numbers track right :=
  List.map_append

theorem extensions_nil_cons (track : List ℤ) (chosen : List (List ℕ)) :
    extensions numbers track ([] :: chosen) =
      track :: extensions numbers track chosen := by
  rw [extensions, List.map_cons, numbersAt, List.filterMap_nil,
    List.append_nil]
  rfl

/-- A position chosen first belongs to the track of all further choices. -/
theorem extensions_map_cons {position : ℕ}
    (hposition : position < numbers.length) (track : List ℤ)
    (chosen : List (List ℕ)) :
    extensions numbers track (chosen.map (position :: ·)) =
      extensions numbers (track ++ [numbers[position]]) chosen := by
  rw [extensions, extensions, List.map_map]
  congr 1
  funext positions
  rw [Function.comp_apply, numbersAt_cons hposition, List.append_assoc,
    List.singleton_append]

/-- The loop of a call, from a position on. -/
def searchFrom (numbers : List ℤ) (first count : ℕ) (search : Search)
    (fuel : ℕ) : Option Search :=
  (List.range' first count).foldlM (fun search (index : ℕ) =>
    choose (backtrace numbers fuel) numbers search index) search

theorem backtrace_returns (hsize : numbers.length < 2 ^ 63) {count first : ℕ}
    (hcount : first + count = min numbers.length indexLimit) {track : List ℤ}
    {res : List (List ℤ)} {result : Search}
    (hloop : Returns
      (searchFrom numbers first count ⟨track, res ++ [track]⟩) result) :
    Returns (backtrace numbers · (wrap32 first) ⟨track, res⟩) result := by
  have hrest : min numbers.length indexLimit - first = count := by omega
  apply returns_of_succ
  simp only [backtrace, indexLoop_eq_foldlM hsize (Nat.le.intro hcount), hrest]
  exact hloop

theorem searchFrom_returns (hsize : numbers.length < 2 ^ 63)
    {count first : ℕ} (hcount : first + count = min numbers.length indexLimit)
    (track : List ℤ) (res : List (List ℤ)) :
    Returns (searchFrom numbers first count ⟨track, res⟩)
      ⟨track, res ++
        extensions numbers track (selections (List.range' first count))⟩ := by
  induction count generalizing first track res with
  | zero =>
      rw [List.range'_zero, selections, extensions, List.map_nil,
        List.append_nil]
      exact returns_some _
  | succ count ih =>
      have hposition : first < numbers.length := by omega
      have hnext : first + 1 + count = min numbers.length indexLimit := by
        omega
      have hread : read numbers first = some numbers[first] := by
        rw [read_natCast, List.getElem?_eq_getElem hposition]
      have hcall := backtrace_returns hsize hnext
        (ih hnext (track ++ [numbers[first]])
          (res ++ [track ++ [numbers[first]]]))
      have hchoose : Returns (fun fuel => choose (backtrace numbers fuel)
          numbers ⟨track, res⟩ first)
          ⟨track, res ++ extensions numbers track (([] :: selections
            (List.range' (first + 1) count)).map (first :: ·))⟩ := by
        rw [extensions_map_cons hposition, extensions_nil_cons]
        rw [List.append_assoc, List.singleton_append] at hcall
        simp only [choose, hread]
        apply hcall.bind
        rw [List.dropLast_concat]
        exact returns_some _
      have hsplit : searchFrom numbers first (count + 1) ⟨track, res⟩ =
          fun fuel => (choose (backtrace numbers fuel) numbers ⟨track, res⟩
            first).bind fun search =>
              searchFrom numbers (first + 1) count search fuel := by
        funext fuel
        rw [searchFrom, List.range'_succ, List.foldlM_cons]
        rfl
      rw [hsplit, List.range'_succ, selections, extensions_append,
        ← List.append_assoc]
      exact hchoose.bind (ih hnext track _)

/-- The choices of positions, in the order in which they are found. -/
def choices (count : ℕ) : List (List ℕ) := [] :: selections (List.range count)

theorem subsets_returns (hnumbers : numbers ≠ [])
    (hsize : numbers.length < 2 ^ 63) (res : List (List ℤ)) :
    Returns (subsets numbers res) ⟨[], res ++
      (choices (min numbers.length indexLimit)).map (numbersAt numbers)⟩ := by
  have hsome : numbers.isEmpty = false := by simpa using hnumbers
  have hcompute : subsets numbers res =
      fun fuel => backtrace numbers fuel (wrap32 (0 : ℕ)) ⟨[], res⟩ := by
    funext fuel
    rw [subsets, hsome]
    rfl
  have hsearch := backtrace_returns hsize (Nat.zero_add _)
    (searchFrom_returns hsize (Nat.zero_add _) [] (res ++ [[]]))
  rw [List.append_assoc, List.singleton_append, ← extensions_nil_cons,
    ← List.range_eq_range'] at hsearch
  rw [hcompute]
  exact hsearch

end Search

def subsequence (numbers : List ℤ) (positions : Finset ℕ) : List ℤ :=
  numbersAt numbers (positions.sort (· ≤ ·))

def Correct (numbers : List ℤ) (res : List (List ℤ)) (final : Search) : Prop :=
  ∃ sets : List (Finset ℕ), sets.Nodup ∧ sets.length = 2 ^ numbers.length ∧
    (∀ positions, positions ∈ sets ↔
      positions ⊆ Finset.range numbers.length) ∧
    final = ⟨[], res ++ sets.map (subsequence numbers)⟩

section Found

variable {numbers : List ℤ} {count : ℕ} {positions : List ℕ}

theorem choices_perm (count : ℕ) :
    choices count ~ (List.range count).sublists' :=
  nil_cons_selections_perm _

theorem mem_choices_iff :
    positions ∈ choices count ↔ positions <+ List.range count := by
  rw [(choices_perm count).mem_iff, List.mem_sublists']

theorem nodup_choices (count : ℕ) : (choices count).Nodup := by
  rw [(choices_perm count).nodup_iff, List.nodup_sublists']
  exact List.nodup_range

theorem length_choices (count : ℕ) : (choices count).length = 2 ^ count := by
  rw [(choices_perm count).length_eq, List.length_sublists', List.length_range]

/-- A choice is known from its set of positions. -/
theorem sort_toFinset_of_mem (hpositions : positions ∈ choices count) :
    positions.toFinset.sort (· ≤ ·) = positions := by
  rw [mem_choices_iff] at hpositions
  rw [List.toFinset_sort _ (List.nodup_range.sublist hpositions)]
  exact (List.pairwise_le_range).sublist hpositions

theorem mem_map_toFinset_iff {set : Finset ℕ} :
    set ∈ (choices count).map List.toFinset ↔ set ⊆ Finset.range count := by
  rw [List.mem_map]
  constructor
  · rintro ⟨positions, hpositions, rfl⟩ position hposition
    rw [mem_choices_iff] at hpositions
    rw [Finset.mem_range, ← List.mem_range]
    exact hpositions.subset (List.mem_toFinset.mp hposition)
  · intro hset
    refine ⟨(List.range count).filter (· ∈ set), ?_, ?_⟩
    · exact mem_choices_iff.mpr List.filter_sublist
    · ext position
      simp only [List.mem_toFinset, List.mem_filter, List.mem_range,
        decide_eq_true_eq, and_iff_right_iff_imp]
      exact fun hposition => Finset.mem_range.mp (hset hposition)

/-- The sets of positions, in the order in which they are found. -/
theorem correct_of_choices (hlength : numbers.length = count)
    (res : List (List ℤ)) :
    Correct numbers res
      ⟨[], res ++ (choices count).map (numbersAt numbers)⟩ := by
  refine ⟨(choices count).map List.toFinset, ?_, ?_, ?_, ?_⟩
  · apply (nodup_choices count).map_on
    intro left hleft right hright hsame
    rw [← sort_toFinset_of_mem hleft, hsame, sort_toFinset_of_mem hright]
  · rw [List.length_map, length_choices, hlength]
  · intro set
    rw [hlength]
    exact mem_map_toFinset_iff
  · have hnumbers : (choices count).map (numbersAt numbers) =
        ((choices count).map List.toFinset).map (subsequence numbers) := by
      rw [List.map_map]
      apply List.map_congr_left
      intro positions hpositions
      rw [Function.comp_apply, subsequence, sort_toFinset_of_mem hpositions]
    rw [hnumbers]

theorem not_correct_of_long (hlong : 2 ^ 31 < numbers.length)
    (hsize : numbers.length < 2 ^ 63) (res : List (List ℤ)) :
    ¬∃ final, Returns (subsets numbers res) final ∧
      Correct numbers res final := by
  rintro ⟨final, hfinal, sets, -, hlength, -, rfl⟩
  have hnumbers : numbers ≠ [] := by
    rintro rfl
    exact absurd hlong (Nat.not_lt_zero _)
  have hsame := (subsets_returns hnumbers hsize res).unique hfinal
  have hfound := List.append_cancel_left (congrArg Search.res hsame)
  have hcounts := congrArg List.length hfound
  rw [List.length_map, List.length_map, length_choices, hlength] at hcounts
  have hall := Nat.pow_right_injective le_rfl hcounts
  rw [indexLimit] at hall
  omega

/-- All subsets are found exactly when the vector has at most `2 ^ 31`
numbers. -/
theorem subsets_correct_iff (hnumbers : numbers ≠ [])
    (hsize : numbers.length < 2 ^ 63) (res : List (List ℤ)) :
    (∃ final, Returns (subsets numbers res) final ∧
      Correct numbers res final) ↔ numbers.length ≤ 2 ^ 31 := by
  constructor
  · intro hcorrect
    by_contra hlong
    exact not_correct_of_long (not_le.mp hlong) hsize res hcorrect
  · intro hlength
    refine ⟨_, subsets_returns hnumbers hsize res, correct_of_choices ?_ res⟩
    exact (min_eq_left hlength).symm

theorem subsets_correct_four :
    ∃ final, Returns (subsets [1, 2, 3, 4] []) final ∧
      Correct [1, 2, 3, 4] [] final :=
  (subsets_correct_iff (by decide) (by decide) []).mpr (by decide)

/-- One position more than an `int` can count. -/
theorem subsets_many :
    ¬∃ final, Returns (subsets (List.replicate (2 ^ 31 + 1) 0) []) final ∧
      Correct (List.replicate (2 ^ 31 + 1) 0) [] final := by
  have hlength := List.length_replicate (n := 2 ^ 31 + 1) (a := (0 : ℤ))
  exact not_correct_of_long (by omega) (by omega) []

end Found

end KataCpp.Subsets
