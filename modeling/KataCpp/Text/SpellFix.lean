import KataCpp.Core.Bytes
import KataCpp.Core.MachineInt
import KataCpp.Core.Repetition

/-!
# Misspelled words

`fix_spell_error` drops the third of three equal letters and the second letter
of the second of two pairs.  It counts the letters of a run and remembers that
it has seen a pair, but never forgets it: only the first run of two or more
letters keeps two of them.  What the counters know about the letters read so
far is their `Phase`.

A run that is longer than an `int` can count is not handled.
-/

namespace KataCpp.SpellFix

open Bytes MachineInt Repetition

inductive SpellPattern where
  | none
  | aaa
  | aabb
  deriving DecidableEq

structure State where
  spellPattern : SpellPattern
  sameCharCount : ℤ
  secondSameCharCount : ℤ
  lastChar : UInt8
  fixedString : ByteString

section Code

variable (int : ℤ → Option ℤ)

/-- The counters and the pattern for a letter behind the first one. -/
def count (state : State) (char : UInt8) : Option State :=
  if state.lastChar = char then do
    let same ← int (state.sameCharCount + 1)
    if same ≥ 3 then
      return { state with sameCharCount := same, spellPattern := .aaa }
    else if state.secondSameCharCount ≥ 1 then do
      let second ← int (state.secondSameCharCount + 1)
      return { state with
        sameCharCount := same
        spellPattern := .aabb
        secondSameCharCount := second }
    else return { state with sameCharCount := same }
  else
    return { state with
      secondSameCharCount :=
        if state.sameCharCount ≥ 2 then 1 else state.secondSameCharCount
      sameCharCount := 1 }

/-- The letter is appended unless a pattern has been found. -/
def append (state : State) (char : UInt8) : State :=
  if state.spellPattern = .none then
    { state with lastChar := char, fixedString := state.fixedString ++ [char] }
  else { state with lastChar := char, spellPattern := .none }

def readChar (state : State) (char : UInt8) : Option State := do
  let counted ← count int state char
  return append counted char

def firstChar (char : UInt8) : State where
  spellPattern := .none
  sameCharCount := 1
  secondSameCharCount := 0
  lastChar := char
  fixedString := [char]

def fixSpellError : ByteString → Option ByteString
  | [] => some []
  | char :: rest => do
      let final ← rest.foldlM (readChar int) (firstChar char)
      return final.fixedString

end Code

/-! ## Phases -/

/-- Before the first pair, in the run of the first pair, in the run behind that,
and later. -/
inductive Phase where
  | fresh
  | first
  | next
  | later
  deriving DecidableEq

/-- The phase when the next letter repeats the last one or does not. -/
def Phase.advance : Phase → Bool → Phase
  | .fresh, false => .fresh
  | .fresh, true => .first
  | .first, true => .first
  | .first, false => .next
  | .next, true => .next
  | .next, false => .later
  | .later, _ => .later

def phase (repetitions : List Bool) : Phase :=
  repetitions.foldl Phase.advance .fresh

theorem phase_concat (repetitions : List Bool) (repeated : Bool) :
    phase (repetitions ++ [repeated]) =
      (phase repetitions).advance repeated := by
  rw [phase, List.foldl_append]
  rfl

def Phase.Counts : Phase → ℤ → ℤ → Prop
  | .fresh, same, second => same = 1 ∧ second = 0
  | .first, same, second => 2 ≤ same ∧ second = 0
  | _, same, second =>
      1 ≤ same ∧ 1 ≤ second ∧ second ≤ 2 ∧ (same = 1 → second = 1)

/-- The repetitions in the fixed word: none, then one at its end, then one in
front of one letter and of several letters. -/
def Phase.Leaves : Phase → List Bool → Prop
  | .fresh, repetitions => ∃ count, repetitions = List.replicate count false
  | .first, repetitions =>
      ∃ count, repetitions = List.replicate count false ++ [true]
  | .next, repetitions =>
      ∃ count, repetitions = List.replicate count false ++ [true, false]
  | .later, repetitions => ∃ front count, repetitions =
      List.replicate front false ++ true :: List.replicate (count + 2) false

/-- What is known after a word has been read. -/
structure Reads (word : ByteString) (state : State) : Prop where
  pattern : state.spellPattern = .none
  last : word.getLast? = some state.lastChar
  fixedLast : state.fixedString.getLast? = some state.lastChar
  run : state.sameCharCount = lastRun word
  counts : (phase (repeats word)).Counts state.sameCharCount
    state.secondSameCharCount
  leaves : (phase (repeats word)).Leaves (repeats state.fixedString)
  runs : state.fixedString.destutter (· ≠ ·) = word.destutter (· ≠ ·)

theorem reads_firstChar (char : UInt8) : Reads [char] (firstChar char) where
  pattern := rfl
  last := rfl
  fixedLast := rfl
  run := rfl
  counts := ⟨rfl, rfl⟩
  leaves := ⟨0, rfl⟩
  runs := rfl

theorem Phase.Counts.advance_false {phase : Phase} {same second : ℤ}
    (hcounts : phase.Counts same second) :
    (phase.advance false).Counts 1 (if same ≥ 2 then 1 else second) := by
  cases phase with
  | fresh =>
      obtain ⟨rfl, rfl⟩ := hcounts
      exact ⟨rfl, rfl⟩
  | first =>
      rw [if_pos hcounts.1]
      exact ⟨le_rfl, le_rfl, one_le_two, fun _ => rfl⟩
  | next | later =>
      obtain ⟨hsame, hsecond, -, hone⟩ := hcounts
      have hvalue : (if same ≥ 2 then 1 else second) = 1 := by
        split_ifs with hrun
        · rfl
        · exact hone (by omega)
      rw [hvalue]
      exact ⟨le_rfl, le_rfl, one_le_two, fun _ => rfl⟩

theorem Phase.Leaves.advance_false {phase : Phase} {repetitions : List Bool}
    (hleaves : phase.Leaves repetitions) :
    (phase.advance false).Leaves (repetitions ++ [false]) := by
  cases phase with
  | fresh =>
      obtain ⟨count, rfl⟩ := hleaves
      exact ⟨count + 1, List.replicate_succ'.symm⟩
  | first =>
      obtain ⟨count, rfl⟩ := hleaves
      exact ⟨count, List.append_assoc _ _ _⟩
  | next =>
      obtain ⟨count, rfl⟩ := hleaves
      exact ⟨count, 0, List.append_assoc _ _ _⟩
  | later =>
      obtain ⟨front, count, rfl⟩ := hleaves
      refine ⟨front, count + 1, ?_⟩
      rw [List.append_assoc, List.cons_append, ← List.replicate_succ']

/-- A run of which one letter has been kept gets no second one. -/
theorem Phase.advance_true {phase : Phase} (hphase : phase ≠ .fresh) :
    phase.advance true = phase := by
  cases phase with
  | fresh => exact absurd rfl hphase
  | first | next | later => rfl

section Step

variable {int : ℤ → Option ℤ} {word : ByteString} {state next : State}
  {char : UInt8}

/-- One more letter has been read.  Of a run behind the first letter nothing is
kept, but for the first pair. -/
structure Advances (word : ByteString) (state : State) (char : UInt8)
    (next : State) : Prop where
  reads : Reads (word ++ [char]) next
  fixed_eq : next.fixedString =
    if state.lastChar = char ∧ phase (repeats word) ≠ .fresh then
      state.fixedString
    else state.fixedString ++ [char]

theorem Reads.keep (hreads : Reads word state)
    (hkeep : ¬(state.lastChar = char ∧ phase (repeats word) ≠ .fresh))
    (hpattern : next.spellPattern = .none) (hlast : next.lastChar = char)
    (hfixed : next.fixedString = state.fixedString ++ [char])
    (hrun : next.sameCharCount = lastRun (word ++ [char]))
    (hcounts : ((phase (repeats word)).advance
      (decide (state.lastChar = char))).Counts next.sameCharCount
        next.secondSameCharCount)
    (hleaves : ((phase (repeats word)).advance
      (decide (state.lastChar = char))).Leaves
        (repeats state.fixedString ++ [decide (state.lastChar = char)])) :
    Advances word state char next := by
  rw [← phase_concat, ← repeats_concat hreads.last] at hcounts hleaves
  rw [← repeats_concat hreads.fixedLast, ← hfixed] at hleaves
  refine ⟨⟨hpattern, ?_, ?_, hrun, hcounts, hleaves, ?_⟩, ?_⟩
  · rw [List.getLast?_concat, hlast]
  · rw [hfixed, List.getLast?_concat, hlast]
  · rw [hfixed, destutter_concat hreads.fixedLast, hreads.runs,
      destutter_concat hreads.last]
  · rw [if_neg hkeep, hfixed]

theorem Reads.drop (hreads : Reads word state)
    (hphase : phase (repeats word) ≠ .fresh) (hchar : state.lastChar = char)
    (hpattern : next.spellPattern = .none) (hlast : next.lastChar = char)
    (hfixed : next.fixedString = state.fixedString)
    (hrun : next.sameCharCount = lastRun (word ++ [char]))
    (hcounts : (phase (repeats word)).Counts next.sameCharCount
      next.secondSameCharCount) :
    Advances word state char next := by
  have hrepeats : phase (repeats (word ++ [char])) = phase (repeats word) := by
    rw [repeats_concat hreads.last, phase_concat, decide_eq_true hchar,
      Phase.advance_true hphase]
  refine ⟨⟨hpattern, ?_, ?_, hrun, ?_, ?_, ?_⟩, ?_⟩
  · rw [List.getLast?_concat, hlast]
  · rw [hfixed, hreads.fixedLast, hchar, hlast]
  · rwa [hrepeats]
  · rw [hrepeats, hfixed]
    exact hreads.leaves
  · rw [hfixed, hreads.runs, destutter_concat hreads.last, if_pos hchar,
      List.append_nil]
  · rw [if_pos ⟨hchar, hphase⟩, hfixed]

/-- A new run. -/
theorem readChar_of_ne (hreads : Reads word state)
    (hchar : state.lastChar ≠ char) :
    ∃ next, readChar int state char = some next ∧
      Advances word state char next := by
  have hcount : count int state char = some { state with
      secondSameCharCount :=
        if state.sameCharCount ≥ 2 then 1 else state.secondSameCharCount
      sameCharCount := 1 } :=
    if_neg hchar
  refine ⟨_, by rw [readChar, hcount]; rfl, ?_⟩
  rw [append, if_pos hreads.pattern]
  have hrepeat : decide (state.lastChar = char) = false := decide_eq_false hchar
  refine hreads.keep (fun hdrop => hchar hdrop.1) hreads.pattern rfl rfl
    ?_ ?_ ?_
  · rw [lastRun_concat hreads.last, if_neg hchar]
    rfl
  · rw [hrepeat]
    exact hreads.counts.advance_false
  · rw [hrepeat]
    exact hreads.leaves.advance_false

structure Counted (int : ℤ → Option ℤ) (state : State) (char : UInt8) :
    Prop where
  repeated : state.lastChar = char
  same : int (state.sameCharCount + 1) = some (state.sameCharCount + 1)
  two : int 2 = some 2

theorem count_of_pair (hcounted : Counted int state char)
    (hsame : state.sameCharCount = 1)
    (hsecond : state.secondSameCharCount = 0) :
    count int state char = some { state with sameCharCount := 2 } := by
  rw [count, if_pos hcounted.repeated, hcounted.same, hsame, hsecond]
  rfl

theorem count_of_aabb (hcounted : Counted int state char)
    (hsame : state.sameCharCount = 1)
    (hsecond : state.secondSameCharCount = 1) :
    count int state char = some { state with
      sameCharCount := 2
      spellPattern := .aabb
      secondSameCharCount := 2 } := by
  have htwo : int (1 + 1) = some 2 := hcounted.two
  rw [count, if_pos hcounted.repeated, hcounted.same, hsame, hsecond, htwo]
  rfl

theorem count_of_aaa (hcounted : Counted int state char)
    (hsame : 2 ≤ state.sameCharCount) :
    count int state char = some { state with
      sameCharCount := state.sameCharCount + 1
      spellPattern := .aaa } := by
  have hthree : state.sameCharCount + 1 ≥ 3 := by omega
  rw [count, if_pos hcounted.repeated, hcounted.same, Option.bind_eq_bind,
    Option.bind_some, if_pos hthree]
  rfl

theorem Reads.run_concat (hreads : Reads word state)
    (hchar : state.lastChar = char) :
    ((lastRun (word ++ [char]) : ℕ) : ℤ) = state.sameCharCount + 1 := by
  rw [lastRun_concat hreads.last, if_pos hchar, hreads.run]
  rfl

theorem readChar_of_pair (hreads : Reads word state)
    (hcounted : Counted int state char)
    (hphase : phase (repeats word) = .fresh) :
    ∃ next, readChar int state char = some next ∧
      Advances word state char next := by
  have hcounts := hreads.counts
  have hleaves := hreads.leaves
  rw [hphase] at hcounts hleaves
  obtain ⟨hsame, hsecond⟩ := hcounts
  obtain ⟨length, hlength⟩ := hleaves
  have hrun := hreads.run_concat hcounted.repeated
  have hrepeat : decide (state.lastChar = char) = true :=
    decide_eq_true hcounted.repeated
  refine ⟨_, by rw [readChar, count_of_pair hcounted hsame hsecond]; rfl, ?_⟩
  rw [append, if_pos hreads.pattern]
  refine hreads.keep (fun hdrop => hdrop.2 hphase) hreads.pattern rfl rfl
    ?_ ?_ ?_
  · rw [hrun, hsame]
    rfl
  · rw [hphase, hrepeat]
    exact ⟨le_rfl, hsecond⟩
  · rw [hphase, hrepeat, hlength]
    exact ⟨length, rfl⟩

theorem readChar_of_aaa (hreads : Reads word state)
    (hcounted : Counted int state char)
    (hphase : phase (repeats word) ≠ .fresh) (hsame : 2 ≤ state.sameCharCount)
    (hcounts : (phase (repeats word)).Counts (state.sameCharCount + 1)
      state.secondSameCharCount) :
    ∃ next, readChar int state char = some next ∧
      Advances word state char next := by
  have hrun := hreads.run_concat hcounted.repeated
  refine ⟨_, by rw [readChar, count_of_aaa hcounted hsame]; rfl, ?_⟩
  exact hreads.drop hphase hcounted.repeated rfl rfl rfl hrun.symm hcounts

theorem readChar_of_aabb (hreads : Reads word state)
    (hcounted : Counted int state char)
    (hphase : phase (repeats word) ≠ .fresh)
    (hsame : state.sameCharCount = 1)
    (hsecond : state.secondSameCharCount = 1)
    (hcounts : (phase (repeats word)).Counts 2 2) :
    ∃ next, readChar int state char = some next ∧
      Advances word state char next := by
  have hrun := hreads.run_concat hcounted.repeated
  rw [hsame] at hrun
  refine ⟨_, by rw [readChar, count_of_aabb hcounted hsame hsecond]; rfl, ?_⟩
  exact hreads.drop hphase hcounted.repeated rfl rfl rfl hrun.symm hcounts

theorem readChar_of_eq (hreads : Reads word state)
    (hcounted : Counted int state char) :
    ∃ next, readChar int state char = some next ∧
      Advances word state char next := by
  have hcounts := hreads.counts
  cases hphase : phase (repeats word) with
  | fresh => exact readChar_of_pair hreads hcounted hphase
  | first =>
      rw [hphase] at hcounts
      apply readChar_of_aaa hreads hcounted (by simp [hphase]) hcounts.1
      rw [hphase]
      exact ⟨by have := hcounts.1; omega, hcounts.2⟩
  | next | later =>
      rw [hphase] at hcounts
      obtain ⟨hpos, hlower, hupper, hone⟩ := hcounts
      by_cases hsame : state.sameCharCount = 1
      · apply readChar_of_aabb hreads hcounted (by simp [hphase]) hsame
          (hone hsame)
        rw [hphase]
        exact ⟨one_le_two, one_le_two, le_rfl, by omega⟩
      · apply readChar_of_aaa hreads hcounted (by simp [hphase]) (by omega)
        rw [hphase]
        exact ⟨by omega, hlower, hupper, by omega⟩

/-- A letter is read if the run that it belongs to can be counted. -/
theorem readChar_reads (hreads : Reads word state) (htwo : int 2 = some 2)
    (hrun : int (lastRun (word ++ [char])) =
      some (lastRun (word ++ [char]) : ℤ)) :
    ∃ next, readChar int state char = some next ∧
      Advances word state char next := by
  by_cases hchar : state.lastChar = char
  · rw [hreads.run_concat hchar] at hrun
    exact readChar_of_eq hreads ⟨hchar, hrun, htwo⟩
  · exact readChar_of_ne hreads hchar

end Step

def Countable (int : ℤ → Option ℤ) (word : ByteString) : Prop :=
  int 2 = some 2 ∧ ∀ front : ByteString, front.IsPrefix word →
    int (lastRun front) = some (lastRun front : ℤ)

/-- What every letter keeps holds for the whole word. -/
theorem foldlM_invariant {int : ℤ → Option ℤ}
    (invariant : ByteString → State → Prop)
    (hstep : ∀ word state char next, Reads word state →
      Advances word state char next → invariant word state →
      invariant (word ++ [char]) next)
    {word rest : ByteString} {state : State}
    (hint : Countable int (word ++ rest)) (hreads : Reads word state)
    (hinvariant : invariant word state) :
    ∃ final, rest.foldlM (readChar int) state = some final ∧
      Reads (word ++ rest) final ∧ invariant (word ++ rest) final := by
  induction rest generalizing word state with
  | nil =>
      refine ⟨state, rfl, ?_⟩
      rw [List.append_nil]
      exact ⟨hreads, hinvariant⟩
  | cons char rest ih =>
      rw [List.append_cons] at hint ⊢
      obtain ⟨next, hnext, hadvances⟩ := readChar_reads hreads hint.1
        (hint.2 _ (List.prefix_append _ rest))
      rw [List.foldlM_cons, hnext]
      exact ih hint hadvances.reads
        (hstep word state char next hreads hadvances hinvariant)

theorem foldlM_reads {int : ℤ → Option ℤ} {word rest : ByteString}
    {state : State} (hint : Countable int (word ++ rest))
    (hreads : Reads word state) :
    ∃ final, rest.foldlM (readChar int) state = some final ∧
      Reads (word ++ rest) final := by
  obtain ⟨final, hfinal, hkept, -⟩ := foldlM_invariant (fun _ _ => True)
    (fun _ _ _ _ _ _ _ => trivial) hint hreads trivial
  exact ⟨final, hfinal, hkept⟩

/-- No three equal letters and no two pairs stand together, and every run of the
word has left a run of the same letter. -/
structure Fixes (line fixed : ByteString) : Prop where
  noTriple : ∀ a, ¬[a, a, a].IsInfix fixed
  noDoublePair : ∀ a b, ¬[a, a, b, b].IsInfix fixed
  sameRuns : fixed.destutter (· ≠ ·) = line.destutter (· ≠ ·)

theorem Phase.Leaves.count_le_one {phase : Phase} {repetitions : List Bool}
    (hleaves : phase.Leaves repetitions) : repetitions.count true ≤ 1 := by
  cases phase with
  | fresh | first | next =>
      obtain ⟨count, rfl⟩ := hleaves
      simp [List.count_replicate]
  | later =>
      obtain ⟨front, count, rfl⟩ := hleaves
      simp [List.count_replicate]

theorem not_infix_of_count {fixed part : ByteString}
    (hfixed : (repeats fixed).count true ≤ 1)
    (hpart : 2 ≤ (repeats part).count true) : ¬part.IsInfix fixed := by
  intro hinfix
  have hle := (repeats_sublist_of_isInfix hinfix).count_le true
  omega

theorem Reads.fixes {word : ByteString} {state : State}
    (hreads : Reads word state) : Fixes word state.fixedString where
  noTriple := fun a => not_infix_of_count hreads.leaves.count_le_one
    (by simp [repeats])
  noDoublePair := fun a b => not_infix_of_count hreads.leaves.count_le_one
    (by by_cases hab : a = b <;> simp [repeats, hab])
  sameRuns := hreads.runs

theorem fixSpellError_invariant {int : ℤ → Option ℤ}
    (invariant : ByteString → State → Prop)
    (hfirst : ∀ char, invariant [char] (firstChar char))
    (hstep : ∀ word state char next, Reads word state →
      Advances word state char next → invariant word state →
      invariant (word ++ [char]) next)
    {line : ByteString} (hint : Countable int line) (hline : line ≠ []) :
    ∃ final, fixSpellError int line = some final.fixedString ∧
      Reads line final ∧ invariant line final := by
  cases line with
  | nil => exact absurd rfl hline
  | cons char rest =>
      obtain ⟨final, hfinal, hkept⟩ := foldlM_invariant invariant hstep hint
        (reads_firstChar char) (hfirst char)
      refine ⟨final, ?_, hkept⟩
      rw [fixSpellError, hfinal]
      rfl

def Correct (int : ℤ → Option ℤ) (line : ByteString) : Prop :=
  ∃ fixed, fixSpellError int line = some fixed ∧ Fixes line fixed

theorem correct_of_countable {int : ℤ → Option ℤ} {line : ByteString}
    (hint : Countable int line) : Correct int line := by
  by_cases hline : line = []
  · subst hline
    exact ⟨[], rfl, by simp, by simp, rfl⟩
  · obtain ⟨final, hfinal, hreads, -⟩ :=
      fixSpellError_invariant (fun _ _ => True) (fun _ => trivial)
        (fun _ _ _ _ _ _ _ => trivial) hint hline
    exact ⟨final.fixedString, hfinal, hreads.fixes⟩

/-! ## Counters of type `int` -/

/-- The first number of equal letters that an `int` cannot hold. -/
def runLimit : ℕ := 2 ^ 31

def ShortRuns (line : ByteString) : Prop :=
  ¬∃ a, (List.replicate runLimit a).IsInfix line

theorem shortRuns_iff {line : ByteString} :
    ShortRuns line ↔
      ∀ front : ByteString, front.IsPrefix line → lastRun front < runLimit := by
  rw [ShortRuns, exists_replicate_infix_iff (by rw [runLimit]; norm_num)]
  push Not
  rfl

theorem checked32_of_lt {count : ℕ} (hcount : count < runLimit) :
    checked32 count = some (count : ℤ) :=
  checked32_natCast hcount

theorem countable_checked32 {line : ByteString} (hshort : ShortRuns line) :
    Countable checked32 line :=
  ⟨rfl, fun front hfront =>
    checked32_of_lt (shortRuns_iff.mp hshort front hfront)⟩

/-- The counter overflows at the end of a run that is too long. -/
theorem readChar_eq_none {word : ByteString} {state : State} {char : UInt8}
    (hreads : Reads word state)
    (hlong : runLimit ≤ lastRun (word ++ [char])) :
    readChar checked32 state char = none := by
  have hchar : state.lastChar = char := by
    by_contra hne
    rw [lastRun_concat hreads.last, if_neg hne, runLimit] at hlong
    omega
  have hrun := hreads.run_concat hchar
  have hlarge : 2 ^ 31 ≤ state.sameCharCount + 1 := by
    rw [← hrun]
    exact_mod_cast hlong
  rw [readChar, count, if_pos hchar, checked32_eq_none hlarge]
  rfl

theorem lastRun_lt_of_foldlM {word rest : ByteString} {state final : State}
    (hreads : Reads word state) (hword : lastRun word < runLimit)
    (hfinal : rest.foldlM (readChar checked32) state = some final)
    {front : ByteString} (hfront : front.IsPrefix rest) :
    lastRun (word ++ front) < runLimit := by
  induction rest generalizing word state front with
  | nil =>
      rw [List.prefix_nil] at hfront
      rwa [hfront, List.append_nil]
  | cons char rest ih =>
      have hshort : lastRun (word ++ [char]) < runLimit := by
        by_contra hlong
        rw [List.foldlM_cons, readChar_eq_none hreads (Nat.not_lt.mp hlong)]
          at hfinal
        exact absurd hfinal.symm (Option.some_ne_none final)
      have htwo : checked32 2 = some 2 := rfl
      obtain ⟨next, hnext, hadvances⟩ :=
        readChar_reads hreads htwo (checked32_of_lt hshort)
      rw [List.foldlM_cons, hnext] at hfinal
      rcases List.prefix_cons_iff.mp hfront with rfl | ⟨more, rfl, hmore⟩
      · rwa [List.append_nil]
      · rw [List.append_cons]
        exact ih hadvances.reads hshort hfinal hmore

theorem shortRuns_of_eq_some {line fixed : ByteString}
    (hfixed : fixSpellError checked32 line = some fixed) : ShortRuns line := by
  have hone : 1 < runLimit := by
    rw [runLimit]
    norm_num
  rw [shortRuns_iff]
  intro front hfront
  cases line with
  | nil =>
      rw [List.prefix_nil.mp hfront]
      exact Nat.zero_lt_of_lt hone
  | cons char rest =>
      rw [fixSpellError, Option.bind_eq_bind, Option.bind_eq_some_iff] at hfixed
      obtain ⟨final, hfinal, -⟩ := hfixed
      rcases List.prefix_cons_iff.mp hfront with rfl | ⟨more, rfl, hmore⟩
      · exact Nat.zero_lt_of_lt hone
      · exact lastRun_lt_of_foldlM (reads_firstChar char) hone hfinal hmore

/-- The word is fixed exactly if all of its runs can be counted. -/
theorem fixSpellError_correct_iff (line : ByteString) :
    Correct checked32 line ↔ ShortRuns line := by
  constructor
  · rintro ⟨fixed, hfixed, -⟩
    exact shortRuns_of_eq_some hfixed
  · intro hshort
    exact correct_of_countable (countable_checked32 hshort)

/-! ### A counter that wraps around -/

def wrapping (value : ℤ) : Option ℤ := some (wrap32 value)

theorem shortRuns_of_length {line : ByteString}
    (hline : line.length < runLimit) : ShortRuns line := by
  rintro ⟨a, hinfix⟩
  have hle := hinfix.length_le
  rw [List.length_replicate] at hle
  omega

theorem countable_wrapping {line : ByteString} (hshort : ShortRuns line) :
    Countable wrapping line :=
  ⟨rfl, fun front hfront =>
    congrArg some (wrap32_natCast (shortRuns_iff.mp hshort front hfront))⟩

theorem phase_replicate_succ (count : ℕ) :
    phase (List.replicate (count + 1) true) = .first := by
  induction count with
  | zero => rfl
  | succ count ih =>
      rw [List.replicate_succ', phase_concat, ih]
      rfl

/-- A counter that has become negative lets a third letter pass. -/
theorem readChar_wrapping {word : ByteString} {state : State}
    (hreads : Reads word state) (hphase : phase (repeats word) = .first)
    (hrun : lastRun word + 1 = runLimit) :
    ∃ next, readChar wrapping state state.lastChar = some next ∧
      [state.lastChar, state.lastChar, state.lastChar].IsInfix
        next.fixedString := by
  have hcounts := hreads.counts
  have hleaves := hreads.leaves
  rw [hphase] at hcounts hleaves
  obtain ⟨length, hlength⟩ := hleaves
  have hsum : state.sameCharCount + 1 = (runLimit : ℕ) := by
    rw [hreads.run]
    exact_mod_cast hrun
  have hcount : count wrapping state state.lastChar =
      some { state with sameCharCount := -2 ^ 31 } := by
    rw [count, if_pos rfl, wrapping, hsum, runLimit, wrap32_int_overflow,
      hcounts.2]
    rfl
  refine ⟨_, by rw [readChar, hcount]; rfl, ?_⟩
  rw [append, if_pos hreads.pattern]
  have hpair := (pair_suffix_iff hreads.fixedLast state.lastChar).mpr
    ⟨rfl, by rw [hlength]; exact List.suffix_append _ _⟩
  obtain ⟨front, hfront⟩ := hpair
  refine ⟨front, [], ?_⟩
  simp only [← hfront, List.append_nil, List.append_assoc, List.cons_append,
    List.nil_append]

theorem fixSpellError_wrapping (a : UInt8) :
    ∃ fixed, fixSpellError wrapping (List.replicate runLimit a) = some fixed ∧
      [a, a, a].IsInfix fixed := by
  obtain ⟨count, hcount⟩ : ∃ count, runLimit = count + 3 :=
    ⟨2 ^ 31 - 3, by rw [runLimit]; norm_num⟩
  have hword : [a] ++ List.replicate (count + 1) a =
      List.replicate (count + 2) a :=
    List.replicate_succ.symm
  have hshort : ShortRuns (List.replicate (count + 2) a) :=
    shortRuns_of_length (by rw [List.length_replicate]; omega)
  obtain ⟨final, hfinal, hreads⟩ := foldlM_reads
    (by rw [hword]; exact countable_wrapping hshort) (reads_firstChar a)
  rw [hword] at hreads
  have hlast : final.lastChar = a := by
    have hword := hreads.last
    rw [List.replicate_succ', List.getLast?_concat, Option.some.injEq] at hword
    exact hword.symm
  have hrun : lastRun (List.replicate (count + 2) a) + 1 = runLimit := by
    have hlower := le_lastRun (List.suffix_refl (List.replicate (count + 2) a))
    have hupper := shortRuns_iff.mp hshort _ (List.prefix_refl _)
    omega
  have hphase : phase (repeats (List.replicate (count + 2) a)) = .first := by
    rw [repeats_replicate_succ, phase_replicate_succ]
  obtain ⟨next, hnext, hinfix⟩ := readChar_wrapping hreads hphase hrun
  rw [hlast] at hnext hinfix
  refine ⟨next.fixedString, ?_, hinfix⟩
  have hfold : (List.replicate (count + 1) a ++ [a]).foldlM (readChar wrapping)
      (firstChar a) = some next := by
    rw [List.foldlM_append, hfinal, Option.bind_eq_bind, Option.bind_some,
      List.foldlM_cons, hnext]
    rfl
  rw [hcount, List.replicate_succ, List.replicate_succ', fixSpellError, hfold]
  rfl

/-- Too many equal letters: the counter overflows, and if it wraps around three
of the letters are left. -/
theorem fixSpellError_long_run :
    ¬Correct checked32 (List.replicate runLimit 97) ∧
      ¬Correct wrapping (List.replicate runLimit 97) := by
  constructor
  · rintro ⟨fixed, hfixed, -⟩
    exact shortRuns_of_eq_some hfixed ⟨97, List.infix_refl _⟩
  · rintro ⟨fixed, hfixed, hfixes⟩
    obtain ⟨other, hother, hinfix⟩ := fixSpellError_wrapping 97
    rw [hfixed, Option.some.injEq] at hother
    subst hother
    exact hfixes.noTriple 97 hinfix

end KataCpp.SpellFix
