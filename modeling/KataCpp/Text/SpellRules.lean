import KataCpp.Text.SpellFix

/-!
# The rules for misspelled words

The rules apply from left to right: a letter is left out where the letters kept
so far end in two of it, or in a pair of another letter and one of it.  A pair
is therefore allowed again as soon as another letter has been kept behind the
last pair, while `fix_spell_error` remembers a pair for ever.
-/

namespace KataCpp.SpellFix

open Bytes MachineInt Repetition

/-- The letter would complete `AAA` or `AABB`. -/
def Blocked (output : ByteString) (char : UInt8) : Prop :=
  [char, char].IsSuffix output ∨
    ∃ a ∈ output, a ≠ char ∧ [a, a, char].IsSuffix output

instance (output : ByteString) (char : UInt8) :
    Decidable (Blocked output char) :=
  inferInstanceAs (Decidable (_ ∨ _))

def applyRule (output : ByteString) (char : UInt8) : ByteString :=
  if Blocked output char then output else output ++ [char]

def applyRules (line : ByteString) : ByteString :=
  line.foldl applyRule []

section Rule

variable {output : ByteString} {last char : UInt8}
  (hlast : output.getLast? = some last)

include hlast

theorem blocked_iff :
    Blocked output char ↔ last = char ∧ ([true].IsSuffix (repeats output) ∨
      [true, false].IsSuffix (repeats output)) := by
  rw [Blocked, pair_suffix_iff hlast, pair_element_suffix_iff hlast,
    and_or_left]

/-- A new run is always begun. -/
theorem applyRule_of_ne (hchar : last ≠ char) :
    applyRule output char = output ++ [char] := by
  rw [applyRule, if_neg]
  intro hblocked
  exact hchar ((blocked_iff hlast).mp hblocked).1

theorem applyRule_self :
    applyRule output last =
      if [true].IsSuffix (repeats output) ∨
        [true, false].IsSuffix (repeats output) then output
      else output ++ [last] := by
  rw [applyRule]
  congr 1
  rw [blocked_iff hlast, eq_self_iff_true, true_and]

end Rule

/-- Where no three equal letters and no two pairs stand together, the rules
change nothing. -/
theorem applyRules_of_noPattern {line : ByteString}
    (htriple : ∀ a, ¬[a, a, a].IsInfix line)
    (hpairs : ∀ a b, a ≠ b → ¬[a, a, b, b].IsInfix line) :
    applyRules line = line := by
  suffices hfold : ∀ output rest, output ++ rest = line →
      rest.foldl applyRule output = line from hfold [] line rfl
  intro output rest hline
  induction rest generalizing output with
  | nil => simpa using hline
  | cons char rest ih =>
      have hfree : ¬Blocked output char := by
        rintro (⟨front, rfl⟩ | ⟨a, -, hne, front, rfl⟩)
        · exact htriple char ⟨front, rest, by simp [← hline]⟩
        · exact hpairs a char hne ⟨front, rest, by simp [← hline]⟩
      rw [List.foldl_cons, applyRule, if_neg hfree]
      exact ih _ (by simp [hline])

/-- Of three pairs the second one is fixed. -/
theorem applyRules_aabbcc {a b c : UInt8} (hab : a ≠ b) (hbc : b ≠ c) :
    applyRules [a, a, b, b, c, c] = [a, a, b, c, c] := by
  have hfirst : applyRule [a] a = [a, a] := applyRule_self rfl
  have hsecond : applyRule [a, a] b = [a, a, b] := applyRule_of_ne rfl hab
  have hthird : applyRule [a, a, b] b = [a, a, b] := by
    rw [applyRule_self rfl, if_pos]
    right
    simp [repeats, hab]
  have hfourth : applyRule [a, a, b] c = [a, a, b, c] :=
    applyRule_of_ne rfl hbc
  have hlast : applyRule [a, a, b, c] c = [a, a, b, c, c] := by
    rw [applyRule_self rfl, if_neg]
    · rfl
    · simp only [repeats, hab, hbc]
      decide
  have hstart : applyRule [] a = [a] := rfl
  rw [applyRules]
  simp only [List.foldl_cons, List.foldl_nil, hstart, hfirst, hsecond, hthird,
    hfourth, hlast]

/-! ## Where the code follows them -/

/-- Two pairs of equal neighbours, with two changes of the letter between
them. -/
def DistantPairs (line : ByteString) : Prop :=
  [true, false, false, true].Sublist (repeats line)

instance (line : ByteString) : Decidable (DistantPairs line) :=
  inferInstanceAs (Decidable (List.Sublist _ _))

/-- The phase tells which beginnings of the pattern have been read. -/
theorem phase_spec (flags : List Bool) :
    (phase flags ≠ .fresh ↔ [true].Sublist flags) ∧
      (phase flags = .next ∨ phase flags = .later ↔
        [true, false].Sublist flags) ∧
      (phase flags = .later ↔ [true, false, false].Sublist flags) := by
  induction flags using List.reverseRecOn with
  | nil => simp [phase]
  | append_singleton flags flag ih =>
      obtain ⟨hone, htwo, hthree⟩ := ih
      have hfirst := concat_sublist_concat [] flags true flag
      have hsecond := concat_sublist_concat [true] flags false flag
      have hthird := concat_sublist_concat [true, false] flags false flag
      simp only [List.nil_append, List.cons_append, List.nil_sublist,
        and_true] at hfirst hsecond hthird
      rw [phase_concat, hfirst, hsecond, hthird, ← hone, ← htwo, ← hthree]
      cases phase flags <;> cases flag <;> simp [Phase.advance]

theorem phase_later_iff (flags : List Bool) :
    phase flags = .later ↔ [true, false, false].Sublist flags :=
  (phase_spec flags).2.2

theorem Phase.Leaves.ends_iff {phase : Phase} {flags : List Bool}
    (hleaves : phase.Leaves flags) :
    [true].IsSuffix flags ∨ [true, false].IsSuffix flags ↔
      phase = .first ∨ phase = .next := by
  cases phase with
  | fresh =>
      obtain ⟨count, rfl⟩ := hleaves
      refine iff_of_false ?_ (by simp)
      rintro (hsuffix | hsuffix)
      · exact absurd (hsuffix.subset List.mem_cons_self) (by simp)
      · exact absurd (hsuffix.subset List.mem_cons_self) (by simp)
  | first =>
      obtain ⟨count, rfl⟩ := hleaves
      exact iff_of_true (Or.inl (List.suffix_append _ _)) (Or.inl rfl)
  | next =>
      obtain ⟨count, rfl⟩ := hleaves
      exact iff_of_true (Or.inr (List.suffix_append _ _)) (Or.inr rfl)
  | later =>
      obtain ⟨front, count, rfl⟩ := hleaves
      refine iff_of_false ?_ (by simp)
      have hsplit : List.replicate front false ++
          true :: List.replicate (count + 2) false =
          (List.replicate front false ++ true :: List.replicate count false) ++
            [false, false] := by
        rw [List.replicate_add, List.append_assoc, List.cons_append]
        rfl
      rw [hsplit, ← List.reverse_prefix, ← List.reverse_prefix,
        List.reverse_append]
      simp

section Compare

variable {word : ByteString} {state next : State} {char : UInt8}

/-- The letter that makes pairs distant repeats one of a later run. -/
theorem distantPairs_concat (hreads : Reads word state) :
    DistantPairs (word ++ [char]) ↔ DistantPairs word ∨
      (state.lastChar = char ∧ phase (repeats word) = .later) := by
  have hconcat := concat_sublist_concat [true, false, false] (repeats word) true
    (decide (state.lastChar = char))
  rw [← phase_later_iff, true_eq_decide_iff] at hconcat
  rw [DistantPairs, repeats_concat hreads.last]
  exact hconcat

theorem phase_of_distantPairs (hpairs : DistantPairs word) :
    phase (repeats word) = .later := by
  rw [phase_later_iff]
  exact (List.sublist_append_left [true, false, false] [true]).trans hpairs

/-- The letters kept by the rules and by the code. -/
structure Compares (word : ByteString) (state : State) : Prop where
  last : (applyRules word).getLast? = some state.lastChar
  same : ¬DistantPairs word → applyRules word = state.fixedString
  more : DistantPairs word →
    state.fixedString.length < (applyRules word).length

theorem applyRules_concat (word : ByteString) (char : UInt8) :
    applyRules (word ++ [char]) = applyRule (applyRules word) char := by
  rw [applyRules, List.foldl_append]
  rfl

theorem Advances.lastChar_eq (hadvances : Advances word state char next) :
    next.lastChar = char := by
  have hlast := hadvances.reads.last
  rw [List.getLast?_concat, Option.some.injEq] at hlast
  exact hlast.symm

/-- At a new run both keep a letter. -/
theorem Compares.of_ne (hcompares : Compares word state)
    (hreads : Reads word state) (hadvances : Advances word state char next)
    (hchar : state.lastChar ≠ char) : Compares (word ++ [char]) next := by
  have hpairs : DistantPairs (word ++ [char]) ↔ DistantPairs word := by
    rw [distantPairs_concat hreads, or_iff_left fun hlater => hchar hlater.1]
  have hfixed : next.fixedString = state.fixedString ++ [char] := by
    rw [hadvances.fixed_eq, if_neg fun hdrop => hchar hdrop.1]
  have hrules : applyRules (word ++ [char]) = applyRules word ++ [char] := by
    rw [applyRules_concat, applyRule_of_ne hcompares.last hchar]
  refine ⟨?_, ?_, ?_⟩
  · rw [hrules, List.getLast?_concat, hadvances.lastChar_eq]
  · intro hnone
    rw [hrules, hfixed, hcompares.same (hpairs.not.mp hnone)]
  · intro hdistant
    have hmore := hcompares.more (hpairs.mp hdistant)
    rw [hrules, hfixed, List.length_append, List.length_append]
    omega

theorem Compares.applyRules_eq (hcompares : Compares word state) :
    applyRules (word ++ [state.lastChar]) =
      if [true].IsSuffix (repeats (applyRules word)) ∨
        [true, false].IsSuffix (repeats (applyRules word)) then applyRules word
      else applyRules word ++ [state.lastChar] := by
  rw [applyRules_concat, applyRule_self hcompares.last]

/-- Inside a run both keep the same letters until a distant pair is met. -/
theorem Compares.same_of_eq (hcompares : Compares word state)
    (hreads : Reads word state)
    (hadvances : Advances word state state.lastChar next)
    (hword : ¬DistantPairs word) (hphase : phase (repeats word) ≠ .later) :
    applyRules (word ++ [state.lastChar]) = next.fixedString := by
  have hends := hreads.leaves.ends_iff
  rw [hcompares.applyRules_eq, hcompares.same hword, hadvances.fixed_eq]
  cases hword : phase (repeats word) with
  | fresh =>
      rw [hword] at hends
      rw [if_neg (hends.not.mpr (by simp)), if_neg (by simp)]
  | first | next =>
      rw [hword] at hends
      rw [if_pos (hends.mpr (by simp)), if_pos (by simp)]
  | later => exact absurd hword hphase

/-- A distant pair is kept by the rules, and what they keep more is never made
up for. -/
theorem Compares.more_of_eq (hcompares : Compares word state)
    (hreads : Reads word state)
    (hadvances : Advances word state state.lastChar next)
    (hphase : phase (repeats word) = .later) :
    next.fixedString.length <
      (applyRules (word ++ [state.lastChar])).length := by
  have hends := hreads.leaves.ends_iff
  rw [hphase] at hends
  have hfixed : next.fixedString = state.fixedString := by
    rw [hadvances.fixed_eq, if_pos ⟨rfl, by simp [hphase]⟩]
  rw [hcompares.applyRules_eq, hfixed]
  by_cases hword : DistantPairs word
  · have hmore := hcompares.more hword
    split_ifs
    · exact hmore
    · rw [List.length_append]
      omega
  · rw [hcompares.same hword, if_neg (hends.not.mpr (by simp)),
      List.length_append, List.length_singleton]
    exact Nat.lt_succ_self _

theorem Compares.of_eq (hcompares : Compares word state)
    (hreads : Reads word state)
    (hadvances : Advances word state state.lastChar next) :
    Compares (word ++ [state.lastChar]) next := by
  have hpairs : DistantPairs (word ++ [state.lastChar]) ↔ _ :=
    distantPairs_concat hreads
  refine ⟨?_, ?_, ?_⟩
  · rw [hcompares.applyRules_eq, hadvances.lastChar_eq]
    split_ifs
    · exact hcompares.last
    · exact List.getLast?_concat
  · intro hnone
    rw [hpairs, not_or] at hnone
    exact hcompares.same_of_eq hreads hadvances hnone.1
      fun hlater => hnone.2 ⟨rfl, hlater⟩
  · intro hdistant
    rcases hpairs.mp hdistant with hword | hlater
    · exact hcompares.more_of_eq hreads hadvances (phase_of_distantPairs hword)
    · exact hcompares.more_of_eq hreads hadvances hlater.2

theorem compares_firstChar (char : UInt8) :
    Compares [char] (firstChar char) where
  last := rfl
  same := fun _ => rfl
  more := fun hpairs => absurd (phase_of_distantPairs hpairs)
    (by simp [repeats, phase])

theorem Compares.step (hcompares : Compares word state)
    (hreads : Reads word state) (hadvances : Advances word state char next) :
    Compares (word ++ [char]) next := by
  by_cases hchar : state.lastChar = char
  · subst hchar
    exact hcompares.of_eq hreads hadvances
  · exact hcompares.of_ne hreads hadvances hchar

end Compare

theorem fixSpellError_compares {line : ByteString} (hshort : ShortRuns line)
    (hline : line ≠ []) :
    ∃ final, fixSpellError checked32 line = some final.fixedString ∧
      Compares line final := by
  obtain ⟨final, hfinal, -, hcompares⟩ :=
    fixSpellError_invariant Compares compares_firstChar
      (fun _ _ _ _ hreads hadvances hcompares =>
        hcompares.step hreads hadvances)
      (countable_checked32 hshort) hline
  exact ⟨final, hfinal, hcompares⟩

/-- The code follows the rules exactly if all runs can be counted and no pair
has a distant one behind it: runs of several letters are at most two, and
neighbours. -/
theorem fixSpellError_eq_applyRules_iff (line : ByteString) :
    fixSpellError checked32 line = some (applyRules line) ↔
      ShortRuns line ∧ ¬DistantPairs line := by
  by_cases hline : line = []
  · subst hline
    refine iff_of_true rfl ⟨?_, by decide⟩
    exact shortRuns_of_length (by rw [runLimit]; norm_num)
  constructor
  · intro hequal
    have hshort := shortRuns_of_eq_some hequal
    obtain ⟨final, hfinal, hcompares⟩ := fixSpellError_compares hshort hline
    rw [hequal, Option.some.injEq] at hfinal
    refine ⟨hshort, fun hpairs => ?_⟩
    have hmore := hcompares.more hpairs
    rw [hfinal] at hmore
    exact lt_irrefl _ hmore
  · rintro ⟨hshort, hpairs⟩
    obtain ⟨final, hfinal, hcompares⟩ := fixSpellError_compares hshort hline
    rw [hfinal, hcompares.same hpairs]

/-- The third pair of `aabbcc` loses a letter as well. -/
theorem fixSpellError_aabbcc :
    fixSpellError checked32 (ascii "aabbcc") = some (ascii "aabc") ∧
      applyRules (ascii "aabbcc") = ascii "aabcc" ∧
      fixSpellError checked32 (ascii "aabbcc") ≠
        some (applyRules (ascii "aabbcc")) := by
  decide

end KataCpp.SpellFix
