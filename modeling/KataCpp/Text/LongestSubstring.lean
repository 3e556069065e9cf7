import KataCpp.Core.Bytes
import KataCpp.Core.Iteration
import KataCpp.Core.MachineInt
import KataCpp.Util.TrimPrefixSuffix

/-!
# The longest substring without repeated characters

`lengthOfLongestSubstring` moves a window over the text.  The window is always
the longest end of the text read so far that repeats no character; a new
character is taken in, and characters leave at the other end until the new one
stands there only once.

The position `j` is an `int` and is compared with the size of the text as a
`size_t`.  After `2 ^ 31` characters it becomes negative, compares as greater
than every size, and the loop ends.
-/

namespace KataCpp.LongestSubstring

open Bytes Iteration MachineInt
open StringUtil (sizeT)

/-- The variables of the function: the counts of the characters in the window,
its first and its last position, and the result so far. -/
structure Window where
  m : UInt8 → ℤ
  i : ℤ
  j : ℤ
  maxlen : ℤ

/-- `m[s[i++]]--` -/
def dropFirst (s : ByteString) (window : Window) : Option Window := do
  let char ← charAt s window.i
  return { window with
    m := Function.update window.m char (wrap32 (window.m char - 1))
    i := wrap32 (window.i + 1) }

/-- `while(m[s[j]] > 1) m[s[i++]]--;` -/
def shrink (s : ByteString) (char : UInt8) (fuel : ℕ) (window : Window) :
    Option Window :=
  whileLoop (fun window : Window => window.m char > 1) (dropFirst s) fuel
    window

/-- `m[s[j]]++` -/
def takeIn (char : UInt8) (window : Window) : Window :=
  { window with
    m := Function.update window.m char (wrap32 (window.m char + 1)) }

/-- The end of a pass: `maxlen` is raised and `j` goes on. -/
def advance (window : Window) : Window :=
  { window with
    maxlen := max window.maxlen (wrap32 (wrap32 (window.j - window.i) + 1))
    j := wrap32 (window.j + 1) }

/-- A pass of the outer loop.  The inner loop is given the fuel for one pass
over the whole text. -/
def pass (s : ByteString) (window : Window) : Outcome Window ℤ :=
  if sizeT window.j < s.length then
    match charAt s window.j with
    | none => .fault
    | some char =>
        match shrink s char (s.length + 1) (takeIn char window) with
        | none => .fault
        | some window => .next (advance window)
  else .exit window.maxlen

def start : Window := ⟨fun _ => 0, 0, 0, 0⟩

def lengthOfLongestSubstring (s : ByteString) (fuel : ℕ) : Option ℤ :=
  loop (pass s) fuel start

inductive Reached (s : ByteString) : Window → Prop
  | start : Reached s start
  | next {window next : Window} (hwindow : Reached s window)
      (hpass : pass s window = .next next) : Reached s next

/-- In every pass the inner loop stops with `i <= j`. -/
def InnerStops (s : ByteString) : Prop :=
  ∀ window, Reached s window → sizeT window.j < s.length →
    ∃ char, charAt s window.j = some char ∧
      ∃ stopped, Returns (shrink s char · (takeIn char window)) stopped ∧
        stopped.i ≤ stopped.j

section Distinct

variable {α : Type*}

def distinctLengths (text : List α) : Set ℤ :=
  {length | ∃ part : List α, part <:+: text ∧ part.Nodup ∧
    (part.length : ℤ) = length}

/-- The longest end of a text that repeats no character. -/
structure LongestEnd (text window : List α) : Prop where
  suffix : window <:+ text
  nodup : window.Nodup
  longest : ∀ part, part <:+ text → part.Nodup → part.length ≤ window.length

theorem longestEnd_nil : LongestEnd ([] : List α) [] where
  suffix := List.suffix_rfl
  nodup := List.nodup_nil
  longest := by
    intro part hpart _
    rw [List.eq_nil_of_suffix_nil hpart]

theorem distinctLengths_nil :
    IsGreatest (distinctLengths ([] : List α)) 0 := by
  constructor
  · exact ⟨[], List.infix_rfl, List.nodup_nil, rfl⟩
  · rintro length ⟨part, hpart, -, rfl⟩
    rw [List.eq_nil_of_infix_nil hpart]
    rfl

variable {text window rest : List α} {char : α}

/-- What is left of the window while characters leave it: no end of the text
that could be continued with the new character is longer. -/
structure Shrunk (text : List α) (char : α) (rest : List α) : Prop where
  suffix : rest <:+ text
  nodup : rest.Nodup
  longest : ∀ part, part <:+ text → part.Nodup → char ∉ part →
    part.length ≤ rest.length

theorem LongestEnd.shrunk (hwindow : LongestEnd text window) (char : α) :
    Shrunk text char window :=
  ⟨hwindow.suffix, hwindow.nodup, fun part hpart hnodup _ =>
    hwindow.longest part hpart hnodup⟩

/-- As long as the new character stands in the window, its first character has
to leave. -/
theorem Shrunk.tail {first : α} (hshrunk : Shrunk text char (first :: rest))
    (hchar : char ∈ first :: rest) : Shrunk text char rest where
  suffix := (List.suffix_cons first rest).trans hshrunk.suffix
  nodup := hshrunk.nodup.of_cons
  longest := by
    intro part hpart hnodup hnotMem
    have hle := hshrunk.longest part hpart hnodup hnotMem
    have hsuffix := List.suffix_of_suffix_length_le hpart hshrunk.suffix hle
    rcases List.suffix_cons_iff.mp hsuffix with rfl | hrest
    · exact absurd hchar hnotMem
    · exact hrest.length_le

/-- When the new character has left, the window can be continued with it. -/
theorem Shrunk.longestEnd (hshrunk : Shrunk text char rest)
    (hchar : char ∉ rest) : LongestEnd (text ++ [char]) (rest ++ [char]) where
  suffix := by
    obtain ⟨before, rfl⟩ := hshrunk.suffix
    exact ⟨before, by simp⟩
  nodup := by
    rw [← List.concat_eq_append]
    exact hshrunk.nodup.concat hchar
  longest := by
    intro part hpart hnodup
    rcases List.suffix_concat_iff.mp hpart with rfl | ⟨init, rfl, hinit⟩
    · simp
    · rw [List.nodup_append] at hnodup
      have hnotMem : char ∉ init := fun hmem =>
        hnodup.2.2 char hmem char (List.mem_singleton_self char) rfl
      have hle := hshrunk.longest init hinit hnodup.1 hnotMem
      simpa using hle

/-- The greatest length grows with the longest end. -/
theorem LongestEnd.isGreatest {greatest : ℤ}
    (hwindow : LongestEnd (text ++ [char]) window)
    (hgreatest : IsGreatest (distinctLengths text) greatest) :
    IsGreatest (distinctLengths (text ++ [char]))
      (max greatest window.length) := by
  constructor
  · rcases max_choice greatest (window.length : ℤ) with hmax | hmax
    · rw [hmax]
      obtain ⟨part, hpart, hnodup, hlength⟩ := hgreatest.1
      exact ⟨part, List.infix_concat_iff.mpr (Or.inr hpart), hnodup, hlength⟩
    · rw [hmax]
      exact ⟨window, hwindow.suffix.isInfix, hwindow.nodup, rfl⟩
  · rintro length ⟨part, hpart, hnodup, rfl⟩
    rcases List.infix_concat_iff.mp hpart with hsuffix | hinfix
    · apply le_max_of_le_right
      exact_mod_cast hwindow.longest part hsuffix hnodup
    · apply le_max_of_le_left
      exact hgreatest.2 ⟨part, hinfix, hnodup, rfl⟩

end Distinct

/-- The variables at the beginning of a pass: `text` has been read, and `part`
is the window. -/
def scanning (text part : ByteString) (maxlen : ℤ) : Window :=
  ⟨fun char => part.count char, text.length - part.length,
    wrap32 text.length, maxlen⟩

/-- The variables in the inner loop: `char` has been taken in, and `rest` is
left of the window. -/
def shrinking (text : ByteString) (char : UInt8) (rest : ByteString)
    (maxlen : ℤ) : Window :=
  ⟨fun other => (rest ++ [char]).count other, text.length - rest.length,
    text.length, maxlen⟩

theorem sizeT_natCast {value : ℕ} (hvalue : value < 2 ^ 64) :
    sizeT value = value := by
  rw [sizeT]
  omega

theorem length_le_of_nodup {part : ByteString} (hnodup : part.Nodup) :
    part.length ≤ 256 := by
  have hinjective : Function.Injective (fun char : UInt8 => char.toFin) :=
    fun _ _ => UInt8.toFin_inj.mp
  have hcard := (hnodup.map hinjective).length_le_card
  rw [List.length_map] at hcard
  exact hcard.trans_eq (Fintype.card_fin 256)

section Shrink

variable {s text part rest after : ByteString} {char : UInt8} {maxlen : ℤ}

theorem takeIn_scanning (hlength : text.length < 2 ^ 31)
    (hnodup : part.Nodup) :
    takeIn char (scanning text part maxlen) =
      shrinking text char part maxlen := by
  have hcount : part.count char ≤ 1 :=
    List.nodup_iff_count_le_one.mp hnodup char
  have hwrap : wrap32 (part.count char + 1) = part.count char + 1 :=
    wrap32_eq_self (by omega) (by omega)
  have hupdate : Function.update (fun other => (part.count other : ℤ)) char
      (part.count char + 1) =
        fun other => ((part ++ [char]).count other : ℤ) := by
    funext other
    by_cases hother : other = char
    · subst hother
      simp
    · have hne : char ≠ other := fun h => hother h.symm
      simp [Function.update_of_ne hother, hne]
  rw [takeIn, scanning, shrinking, hwrap, hupdate, wrap32_natCast hlength]

theorem dropFirst_shrinking {first : UInt8}
    (hs : s = text ++ char :: after) (hlength : text.length < 2 ^ 31)
    (hsuffix : first :: rest <:+ text) :
    dropFirst s (shrinking text char (first :: rest) maxlen) =
      some (shrinking text char rest maxlen) := by
  obtain ⟨before, rfl⟩ := hsuffix
  rw [List.length_append, List.length_cons] at hlength
  have hposition : ((before ++ first :: rest).length : ℤ) -
      (first :: rest).length = before.length := by
    rw [List.length_append]
    omega
  have hnext : ((before ++ first :: rest).length : ℤ) - rest.length =
      before.length + 1 := by
    rw [List.length_append, List.length_cons]
    omega
  have hsplit : s = before ++ first :: (rest ++ char :: after) := by
    rw [hs, List.append_assoc, List.cons_append]
  have hchar : charAt s before.length = some first :=
    charAt_append_cons hsplit rfl (by omega)
  have hcount := List.count_le_length (a := first) (l := rest ++ [char])
  rw [List.length_append, List.length_singleton] at hcount
  have hwrap : wrap32 ((first :: rest ++ [char]).count first - 1) =
      (rest ++ [char]).count first := by
    rw [List.cons_append, List.count_cons_self]
    push_cast
    rw [add_sub_cancel_right]
    exact wrap32_natCast (by omega)
  have hupdate : Function.update
      (fun other => ((first :: rest ++ [char]).count other : ℤ)) first
      ((rest ++ [char]).count first) =
        fun other => ((rest ++ [char]).count other : ℤ) := by
    funext other
    by_cases hother : other = first
    · subst hother
      simp
    · have hne : first ≠ other := fun h => hother h.symm
      simp [Function.update_of_ne hother, hne]
  simp only [dropFirst, shrinking, hposition, hnext, hchar, hwrap, hupdate,
    Option.bind_eq_bind, Option.bind_some]
  rw [wrap32_eq_self (by omega) (by omega)]
  rfl

theorem shrinking_condition :
    (shrinking text char rest maxlen).m char > 1 ↔ char ∈ rest := by
  simp [shrinking, List.count_pos_iff]

theorem shrink_of_notMem (hchar : char ∉ rest) (fuel : ℕ) :
    shrink s char (fuel + 1) (shrinking text char rest maxlen) =
      some (shrinking text char rest maxlen) := by
  rw [shrink, whileLoop_succ_of_not]
  rwa [shrinking_condition]

theorem shrink_of_mem {first : UInt8} (hchar : char ∈ first :: rest)
    (hs : s = text ++ char :: after) (hlength : text.length < 2 ^ 31)
    (hsuffix : first :: rest <:+ text) (fuel : ℕ) :
    shrink s char (fuel + 1) (shrinking text char (first :: rest) maxlen) =
      shrink s char fuel (shrinking text char rest maxlen) := by
  rw [shrink, whileLoop_succ_of_condition _
    (dropFirst_shrinking hs hlength hsuffix)]
  · rfl
  · rwa [shrinking_condition]

/-- The inner loop drops the first characters of the window until the new one
does not stand in it any more. -/
theorem shrink_shrinking (hs : s = text ++ char :: after)
    (hlength : text.length < 2 ^ 31) (hshrunk : Shrunk text char part)
    (maxlen : ℤ) :
    ∃ rest, Shrunk text char rest ∧ char ∉ rest ∧
      ∀ fuel, part.length < fuel →
        shrink s char fuel (shrinking text char part maxlen) =
          some (shrinking text char rest maxlen) := by
  induction part with
  | nil =>
      refine ⟨[], hshrunk, List.not_mem_nil, ?_⟩
      intro fuel hfuel
      obtain ⟨fuel, rfl⟩ := Nat.exists_eq_add_of_le' (Nat.one_le_of_lt hfuel)
      exact shrink_of_notMem List.not_mem_nil fuel
  | cons first part ih =>
      by_cases hchar : char ∈ first :: part
      · obtain ⟨rest, hrest, hnotMem, hloop⟩ := ih (hshrunk.tail hchar)
        refine ⟨rest, hrest, hnotMem, ?_⟩
        intro fuel hfuel
        rw [List.length_cons] at hfuel
        obtain ⟨fuel, rfl⟩ := Nat.exists_eq_add_of_le' (Nat.one_le_of_lt hfuel)
        rw [shrink_of_mem hchar hs hlength hshrunk.suffix]
        exact hloop fuel (by omega)
      · refine ⟨first :: part, hshrunk, hchar, ?_⟩
        intro fuel hfuel
        obtain ⟨fuel, rfl⟩ := Nat.exists_eq_add_of_le' (Nat.one_le_of_lt hfuel)
        exact shrink_of_notMem hchar fuel

theorem advance_shrinking (hnodup : rest.Nodup) :
    advance (shrinking text char rest maxlen) =
      scanning (text ++ [char]) (rest ++ [char])
        (max maxlen (rest ++ [char]).length) := by
  have hrest := length_le_of_nodup hnodup
  have hwindow : wrap32 (wrap32 (text.length - (text.length - rest.length)) +
      1) = ((rest ++ [char]).length : ℕ) := by
    rw [sub_sub_cancel, wrap32_natCast (by omega), List.length_append,
      List.length_singleton]
    exact wrap32_eq_self (by omega) (by omega)
  have hfirst : (text.length : ℤ) - rest.length =
      ((text ++ [char]).length : ℕ) - ((rest ++ [char]).length : ℕ) := by
    rw [List.length_append, List.length_append, List.length_singleton]
    omega
  have hlast : (text.length : ℤ) + 1 = ((text ++ [char]).length : ℕ) := by
    rw [List.length_append, List.length_singleton]
    rfl
  simp only [advance, shrinking, scanning, hwindow, hlast]
  rw [hfirst]

end Shrink

/-! ## The outer loop -/

/-- What is known at the beginning of a pass. -/
structure Scanned (s text part : ByteString) (maxlen : ℤ) : Prop where
  initial : text <+: s
  length_le : text.length ≤ 2 ^ 31
  longestEnd : LongestEnd text part
  greatest : IsGreatest (distinctLengths text) maxlen

theorem scanning_j (text part : ByteString) (maxlen : ℤ) :
    (scanning text part maxlen).j = wrap32 text.length := by
  rw [scanning]

theorem scanning_nil : scanning [] [] 0 = start := by
  simp [scanning, start, wrap32]

theorem scanned_start (s : ByteString) : Scanned s [] [] 0 where
  initial := List.nil_prefix
  length_le := Nat.zero_le _
  longestEnd := longestEnd_nil
  greatest := distinctLengths_nil

section Scan

variable {s text part : ByteString} {maxlen : ℤ} (hs : s.length < 2 ^ 63)

include hs

/-- The loop goes on as long as there is a character, up to `2 ^ 31` of them. -/
theorem sizeT_scanning_lt_iff (hscanned : Scanned s text part maxlen) :
    sizeT (scanning text part maxlen).j < s.length ↔
      text.length < s.length ∧ text.length < 2 ^ 31 := by
  rcases hscanned.length_le.lt_or_eq with hlt | heq
  · rw [scanning_j, wrap32_natCast hlt, sizeT_natCast (by omega)]
    exact ⟨fun h => ⟨h, hlt⟩, And.left⟩
  · rw [scanning_j, heq, wrap32_int_overflow, sizeT]
    omega

theorem exists_char (hscanned : Scanned s text part maxlen)
    (hj : sizeT (scanning text part maxlen).j < s.length) :
    ∃ char after, s = text ++ char :: after ∧ text.length < 2 ^ 31 ∧
      charAt s (scanning text part maxlen).j = some char := by
  obtain ⟨hshort, hlength⟩ := (sizeT_scanning_lt_iff hs hscanned).mp hj
  obtain ⟨after, rfl⟩ := hscanned.initial
  cases after with
  | nil => simp at hshort
  | cons char after =>
      refine ⟨char, after, rfl, hlength, ?_⟩
      rw [scanning_j, wrap32_natCast hlength]
      exact charAt_append_cons rfl rfl (by omega)

/-- A pass extends the text that has been read by one character. -/
theorem pass_scanning (hscanned : Scanned s text part maxlen)
    (hj : sizeT (scanning text part maxlen).j < s.length) :
    ∃ longer window greatest,
      pass s (scanning text part maxlen) =
        .next (scanning longer window greatest) ∧
      longer.length = text.length + 1 ∧ Scanned s longer window greatest := by
  obtain ⟨char, after, hsplit, hlength, hchar⟩ := exists_char hs hscanned hj
  obtain ⟨rest, hrest, hnotMem, hloop⟩ := shrink_shrinking
    hsplit hlength (hscanned.longestEnd.shrunk char) maxlen
  have hend := hrest.longestEnd hnotMem
  have hpart : part.length < s.length + 1 := by
    have hsuffix := hscanned.longestEnd.suffix.length_le
    have hinitial := hscanned.initial.length_le
    omega
  refine ⟨text ++ [char], rest ++ [char], max maxlen (rest ++ [char]).length,
    ?_, by simp, ?_, ?_, hend, hend.isGreatest hscanned.greatest⟩
  · rw [pass, if_pos hj]
    simp only [hchar, takeIn_scanning hlength hscanned.longestEnd.nodup,
      hloop _ hpart, advance_shrinking hrest.nodup]
  · exact ⟨after, by rw [hsplit, List.append_assoc, List.singleton_append]⟩
  · rw [List.length_append, List.length_singleton]
    omega

theorem reached_scanning {window : Window} (hreached : Reached s window) :
    ∃ text part maxlen, window = scanning text part maxlen ∧
      Scanned s text part maxlen := by
  induction hreached with
  | start => exact ⟨[], [], 0, scanning_nil.symm, scanned_start s⟩
  | next _ hpass ih =>
      obtain ⟨text, part, maxlen, rfl, hscanned⟩ := ih
      by_cases hj : sizeT (scanning text part maxlen).j < s.length
      · obtain ⟨longer, window, greatest, hnext, -, hlonger⟩ :=
          pass_scanning hs hscanned hj
        rw [hnext] at hpass
        exact ⟨longer, window, greatest, (Outcome.next.inj hpass).symm,
          hlonger⟩
      · rw [pass, if_neg hj] at hpass
        exact absurd hpass (by simp)

theorem innerStops : InnerStops s := by
  intro window hreached hj
  obtain ⟨text, part, maxlen, rfl, hscanned⟩ := reached_scanning hs hreached
  obtain ⟨char, after, hsplit, hlength, hchar⟩ := exists_char hs hscanned hj
  obtain ⟨rest, hrest, hnotMem, hloop⟩ := shrink_shrinking
    hsplit hlength (hscanned.longestEnd.shrunk char) maxlen
  refine ⟨char, hchar, shrinking text char rest maxlen, ?_, ?_⟩
  · rw [takeIn_scanning hlength hscanned.longestEnd.nodup]
    exact ⟨part.length + 1, fun fuel hfuel => hloop fuel hfuel⟩
  · exact sub_le_self _ (Int.natCast_nonneg _)

/-- The function looks at the first `2 ^ 31` characters. -/
theorem lengthOfLongestSubstring_returns :
    ∃ result, Returns (lengthOfLongestSubstring s) result ∧
      IsGreatest (distinctLengths (s.take (2 ^ 31))) result := by
  refine loop_returns (fun variant window => ∃ text part maxlen,
    window = scanning text part maxlen ∧ Scanned s text part maxlen ∧
      variant = s.length - text.length) ?_
    ⟨[], [], 0, scanning_nil.symm, scanned_start s, rfl⟩
  rintro variant window ⟨text, part, maxlen, rfl, hscanned, rfl⟩
  have hgoes := sizeT_scanning_lt_iff hs hscanned
  by_cases hj : sizeT (scanning text part maxlen).j < s.length
  · left
    obtain ⟨longer, window, greatest, hnext, hlength, hlonger⟩ :=
      pass_scanning hs hscanned hj
    have hshort := (hgoes.mp hj).1
    exact ⟨s.length - longer.length, _, hnext, by omega, longer, window,
      greatest, rfl, hlonger, rfl⟩
  · right
    refine ⟨maxlen, ?_, ?_⟩
    · rw [pass, if_neg hj]
      rfl
    · have htake : s.take (2 ^ 31) = text := by
        have hshort := hscanned.initial.length_le
        have hlength := hscanned.length_le
        rw [hgoes] at hj
        rcases lt_or_ge text.length (2 ^ 31) with hlt | hge
        · rw [List.IsPrefix.eq_of_length_le hscanned.initial (by omega),
            List.take_of_length_le (by omega)]
        · obtain ⟨after, rfl⟩ := hscanned.initial
          exact List.take_left' (by omega)
      rw [htake]
      exact hscanned.greatest

/-- The result is right exactly when no substring without repetition is longer
than all those of the first `2 ^ 31` characters, and so for every text of at
most that many.  The inner loop stops with every text. -/
theorem lengthOfLongestSubstring_correct_iff :
    (((∃ result, Returns (lengthOfLongestSubstring s) result ∧
        IsGreatest (distinctLengths s) result) ∧ InnerStops s) ↔
      ∀ part, part <:+: s → part.Nodup →
        ∃ early, early <:+: s.take (2 ^ 31) ∧ early.Nodup ∧
          part.length ≤ early.length) ∧
    InnerStops s ∧
    (s.length ≤ 2 ^ 31 → ∃ result, Returns (lengthOfLongestSubstring s) result ∧
      IsGreatest (distinctLengths s) result) := by
  obtain ⟨result, hreturns, hgreatest⟩ := lengthOfLongestSubstring_returns hs
  obtain ⟨early, hearly, hnodup, hlength⟩ := hgreatest.1
  refine ⟨⟨?_, ?_⟩, innerStops hs, ?_⟩
  · rintro ⟨⟨other, hother, hcorrect⟩, -⟩ part hpart hdistinct
    obtain rfl := hreturns.unique hother
    have hle := hcorrect.2 ⟨part, hpart, hdistinct, rfl⟩
    exact ⟨early, hearly, hnodup, by omega⟩
  · intro hcondition
    refine ⟨⟨result, hreturns, ?_, ?_⟩, innerStops hs⟩
    · exact ⟨early, hearly.trans (List.take_prefix _ s).isInfix, hnodup,
        hlength⟩
    · rintro length ⟨part, hpart, hdistinct, rfl⟩
      obtain ⟨other, hother, hnodup, hle⟩ := hcondition part hpart hdistinct
      have hresult := hgreatest.2 ⟨other, hother, hnodup, rfl⟩
      omega
  · intro hshort
    rw [List.take_of_length_le hshort] at hgreatest
    exact ⟨result, hreturns, hgreatest⟩

end Scan

theorem lengthOfLongestSubstring_correct_pwwkew :
    ((∃ result,
        Returns (lengthOfLongestSubstring (ascii "pwwkew")) result ∧
        IsGreatest (distinctLengths (ascii "pwwkew")) result) ∧
      InnerStops (ascii "pwwkew")) := by
  obtain ⟨-, hstops, hcorrect⟩ := @lengthOfLongestSubstring_correct_iff
    (ascii "pwwkew") (by decide)
  exact ⟨hcorrect (by decide), hstops⟩

theorem length_le_one_of_infix_replicate {α : Type*} {count : ℕ} {char : α}
    {part : List α} (hpart : part <:+: List.replicate count char)
    (hnodup : part.Nodup) : part.length ≤ 1 := by
  have hreplicate : part = List.replicate part.length char :=
    List.eq_replicate_of_mem fun other hother =>
      List.eq_of_mem_replicate (hpart.subset hother)
  rw [hreplicate] at hnodup
  exact List.nodup_replicate.mp hnodup

/-- The last character is never read. -/
theorem lengthOfLongestSubstring_long :
    ¬((∃ result, Returns (lengthOfLongestSubstring
          (List.replicate (2 ^ 31) 97 ++ [98])) result ∧
        IsGreatest (distinctLengths (List.replicate (2 ^ 31) (97 : UInt8) ++
          [98])) result) ∧
      InnerStops (List.replicate (2 ^ 31) 97 ++ [98])) := by
  generalize hcount : (2 ^ 31 : ℕ) = count
  rintro ⟨⟨result, hreturns, hcorrect⟩, -⟩
  have hlength :
      (List.replicate count (97 : UInt8) ++ [98]).length < 2 ^ 63 := by
    rw [List.length_append, List.length_replicate, List.length_singleton]
    omega
  obtain ⟨other, hother, hgreatest⟩ := lengthOfLongestSubstring_returns hlength
  obtain rfl := hreturns.unique hother
  rw [hcount, List.take_left' List.length_replicate] at hgreatest
  obtain ⟨part, hpart, hnodup, hresult⟩ := hgreatest.1
  have hshort := length_le_one_of_infix_replicate hpart hnodup
  have hpair : [97, 98] <:+: List.replicate count (97 : UInt8) ++ [98] := by
    obtain ⟨rest, rfl⟩ : ∃ rest, count = rest + 1 := ⟨2 ^ 31 - 1, by omega⟩
    rw [List.replicate_succ', List.append_assoc]
    exact (List.suffix_append _ _).isInfix
  have htwo := hcorrect.2 ⟨[97, 98], hpair, by decide, rfl⟩
  rw [List.length_cons, List.length_singleton] at htwo
  omega

end KataCpp.LongestSubstring
