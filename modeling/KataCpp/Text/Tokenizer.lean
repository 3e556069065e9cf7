import KataCpp.Core.MachineInt
import KataCpp.Util.TrimPrefixSuffix

/-!
# The two tokenizers

`wfan::tokenize` and the `tokenize` of kata 14 read a string character by
character into a running buffer.  At a space or a comma outside quotes the
buffer is trimmed and appended to the tokens, and what is left at the end is
appended as well.  They differ in the quotes they know and in the use they make
of `is_delimiter`: the first sets the flag and never reads it, the second does
not cut at a delimiter that follows another one.

Nothing is lost on the way: a token is a buffer without some of its spaces and
commas.  The number of tokens is counted in an `int`.
-/

namespace KataCpp.Tokenizer

open Bytes MachineInt StringUtil

def findFirstNotOf (str whitespace : ByteString) : Option ℕ :=
  str.findIdx? (· ∉ whitespace)

def findLastNotOf (str whitespace : ByteString) : Option ℕ :=
  (str.reverse.findIdx? (· ∉ whitespace)).map (str.length - 1 - ·)

def trim (str whitespace : ByteString) : ByteString :=
  match findFirstNotOf str whitespace, findLastNotOf str whitespace with
  | some strBegin, some strEnd => substr str strBegin (strEnd - strBegin + 1)
  | _, _ => []

structure Scan where
  isInQuotation : Bool
  isDelimiter : Bool
  oss : ByteString
  count : ℤ
  tokens : List ByteString

def Scan.start (tokens : List ByteString) : Scan where
  isInQuotation := false
  isDelimiter := false
  oss := []
  count := 0
  tokens := tokens

/-- Append the trimmed buffer to the tokens, and start a new buffer. -/
def Scan.flush (scan : Scan) : Scan :=
  { scan with
    oss := []
    count := wrap32 (scan.count + 1)
    tokens := scan.tokens ++ [trim scan.oss (ascii " ,")] }

def Scan.finish (scan : Scan) : ℤ × List ByteString :=
  if scan.oss.isEmpty then (scan.count, scan.tokens)
  else (scan.flush.count, scan.flush.tokens)

def delimiter (c : UInt8) : Bool := c == 32 || c == 44

def doubleQuote : UInt8 := 34

def singleQuote : UInt8 := 39

namespace Wfan

/-- One pass of the loop in `string_util.cpp`. -/
def next (scan : Scan) (c : UInt8) : Scan :=
  let scan := { scan with oss := scan.oss ++ [c] }
  if c == doubleQuote || c == singleQuote then
    { scan with isInQuotation := !scan.isInQuotation }
  else if delimiter c then
    let scan := { scan with isDelimiter := true }
    if scan.isInQuotation then scan else scan.flush
  else { scan with isDelimiter := false }

def tokenize (input : ByteString) (tokens : List ByteString) :
    ℤ × List ByteString :=
  if input.length = 0 then (0, tokens)
  else (input.foldl next (.start tokens)).finish

end Wfan

namespace Kata14

/-- One pass of the loop in `kata14_tokenize.cpp`. -/
def next (scan : Scan) (c : UInt8) : Scan :=
  let scan := { scan with oss := scan.oss ++ [c] }
  let scan :=
    if c == doubleQuote then
      { scan with isInQuotation := !scan.isInQuotation }
    else scan
  if delimiter c then
    let scan :=
      if !scan.isDelimiter && !scan.isInQuotation then scan.flush else scan
    { scan with isDelimiter := true }
  else { scan with isDelimiter := false }

def tokenize (input : ByteString) (tokens : List ByteString) :
    ℤ × List ByteString :=
  (input.foldl next (.start tokens)).finish

end Kata14

section Trim

variable {α : Type*} (p : α → Bool) (text : List α)

theorem rdropWhile_eq_take :
    text.rdropWhile p =
      text.take (text.length - text.reverse.findIdx fun c => !p c) := by
  rw [List.rdropWhile, List.dropWhile_eq_drop_findIdx_not, List.drop_reverse,
    List.reverse_reverse]

theorem filter_dropWhile :
    (text.dropWhile p).filter (fun c => !p c) =
      text.filter fun c => !p c := by
  have hpassed : (text.takeWhile p).filter (fun c => !p c) = [] := by
    rw [List.filter_eq_nil_iff]
    intro c hc
    simp [List.mem_takeWhile_imp hc]
  conv_rhs => rw [← List.takeWhile_append_dropWhile (p := p) (l := text)]
  rw [List.filter_append, hpassed, List.nil_append]

theorem filter_rdropWhile :
    (text.rdropWhile p).filter (fun c => !p c) =
      text.filter fun c => !p c := by
  rw [List.rdropWhile, List.filter_reverse, filter_dropWhile,
    ← List.filter_reverse, List.reverse_reverse]

end Trim

/-- `trim` cuts off the characters of `whitespace` at both ends. -/
theorem trim_eq (str whitespace : ByteString) :
    trim str whitespace =
      (str.dropWhile (· ∈ whitespace)).rdropWhile (· ∈ whitespace) := by
  have hnot : ∀ text : ByteString,
      text.findIdx? (· ∉ whitespace) =
        text.findIdx? fun c => !decide (c ∈ whitespace) := by
    intro text
    simp only [decide_not]
  rw [trim, findFirstNotOf, findLastNotOf, hnot, hnot]
  by_cases hall : ∀ c ∈ str, c ∈ whitespace
  · have hnone : (str.findIdx? fun c => !decide (c ∈ whitespace)) = none := by
      rw [List.findIdx?_eq_none_iff]
      intro c hc
      simp [hall c hc]
    have hnil : str.dropWhile (· ∈ whitespace) = [] := by
      simpa [List.dropWhile_eq_nil_iff] using hall
    rw [hnone, hnil, List.rdropWhile_nil]
  · have hexists : ∃ c ∈ str, (!decide (c ∈ whitespace)) = true := by
      simpa using hall
    have hbegin := List.findIdx_lt_length_of_exists hexists
    have hlater : ∃ c ∈ (str.drop (str.findIdx fun c =>
        !decide (c ∈ whitespace))).reverse,
          (!decide (c ∈ whitespace)) = true := by
      refine ⟨str[str.findIdx _], ?_, List.findIdx_getElem (w := hbegin)⟩
      rw [List.mem_reverse, List.drop_eq_getElem_cons hbegin]
      exact List.mem_cons_self
    -- The last of the kept characters is found from the end of either string.
    have hend := List.findIdx_lt_length_of_exists hlater
    have hsame := (List.reverse_prefix.mpr
      (List.drop_suffix _ str)).findIdx_eq_of_findIdx_lt_length hend
    rw [List.findIdx?_eq_some_of_exists hexists,
      List.findIdx?_eq_some_of_exists (by simpa using hexists), hsame]
    simp only [Option.map_some]
    rw [rdropWhile_eq_take, List.dropWhile_eq_drop_findIdx_not, substr]
    rw [List.length_reverse, List.length_drop] at hend
    rw [List.length_drop]
    congr 1
    omega

def stripped (text : ByteString) : ByteString :=
  text.filter fun c => !delimiter c

theorem stripped_append (left right : ByteString) :
    stripped (left ++ right) = stripped left ++ stripped right :=
  List.filter_append left right

theorem trim_delimiters_eq (str : ByteString) :
    trim str (ascii " ,") =
      (str.dropWhile delimiter).rdropWhile delimiter := by
  have hmem : (fun c => decide (c ∈ ascii " ,")) = delimiter := by
    funext c
    rw [Bool.eq_iff_iff]
    simp [ascii, delimiter]
  rw [trim_eq, hmem]

theorem stripped_trim (str : ByteString) :
    stripped (trim str (ascii " ,")) = stripped str := by
  rw [trim_delimiters_eq, stripped, filter_rdropWhile, filter_dropWhile,
    stripped]

/-- The number of positions of `input` at which a tokenizer cuts, given by
what it has read before and the character there. -/
def cutCount (cutsAt : ByteString → UInt8 → Bool) (input : ByteString) : ℕ :=
  (List.range input.length).countP fun index =>
    cutsAt (input.take index) (input.getD index 0)

def endsCut (cutsAt : ByteString → UInt8 → Bool) (input : ByteString) : Bool :=
  match input.getLast? with
  | none => true
  | some c => cutsAt input.dropLast c

/-- The number of pieces into which the cuts divide `input`. -/
def pieceCount (cutsAt : ByteString → UInt8 → Bool) (input : ByteString) : ℕ :=
  cutCount cutsAt input + if endsCut cutsAt input then 0 else 1

section Progress

variable {cutsAt : ByteString → UInt8 → Bool}

theorem cutCount_concat (read : ByteString) (c : UInt8) :
    cutCount cutsAt (read ++ [c]) =
      cutCount cutsAt read + if cutsAt read c then 1 else 0 := by
  have hbefore : ∀ index ∈ List.range read.length,
      cutsAt ((read ++ [c]).take index) ((read ++ [c]).getD index 0) =
        cutsAt (read.take index) (read.getD index 0) := by
    intro index hindex
    have hless := List.mem_range.mp hindex
    rw [List.take_append_of_le_length hless.le,
      List.getD_append _ _ _ _ hless]
  rw [cutCount, List.length_append, List.length_singleton, List.range_succ,
    List.countP_append, List.countP_congr fun index hindex => by
      rw [hbefore index hindex], List.countP_singleton]
  simp [cutCount]

theorem endsCut_concat (read : ByteString) (c : UInt8) :
    endsCut cutsAt (read ++ [c]) = cutsAt read c := by
  simp [endsCut]

/-! ## Nothing is lost -/

/-- What both loops have done after reading `read`, with `tokens` to begin
with. -/
structure Progress (cutsAt : ByteString → UInt8 → Bool)
    (tokens : List ByteString) (read : ByteString) (scan : Scan) : Prop where
  appended : ∃ appended, scan.tokens = tokens ++ appended ∧
    appended.length = cutCount cutsAt read ∧
    stripped (appended.flatten ++ scan.oss) = stripped read
  count_eq : scan.count = wrap32 (cutCount cutsAt read)
  oss_isEmpty : scan.oss.isEmpty = endsCut cutsAt read

variable {tokens : List ByteString} {read : ByteString} {scan next : Scan}
  {c : UInt8}

theorem progress_start (tokens : List ByteString) :
    Progress cutsAt tokens [] (.start tokens) where
  appended := ⟨[], by simp [Scan.start], rfl, rfl⟩
  count_eq := by simp [Scan.start, cutCount, wrap32]
  oss_isEmpty := rfl

/-- A character that is only put into the buffer. -/
theorem Progress.keep (h : Progress cutsAt tokens read scan)
    (hcut : cutsAt read c = false) (hoss : next.oss = scan.oss ++ [c])
    (hcount : next.count = scan.count) (htokens : next.tokens = scan.tokens) :
    Progress cutsAt tokens (read ++ [c]) next where
  appended := by
    obtain ⟨appended, htoken, hlength, hstripped⟩ := h.appended
    refine ⟨appended, htokens.trans htoken, ?_, ?_⟩
    · rw [hlength, cutCount_concat, hcut, if_neg Bool.false_ne_true, add_zero]
    · rw [hoss, ← List.append_assoc, stripped_append, hstripped,
        stripped_append]
  count_eq := by
    rw [hcount, h.count_eq, cutCount_concat, hcut,
      if_neg Bool.false_ne_true, add_zero]
  oss_isEmpty := by
    rw [endsCut_concat, hcut, hoss, List.isEmpty_eq_false_iff]
    exact List.concat_ne_nil _ _

/-- A character at which the buffer is flushed. -/
theorem Progress.cut (h : Progress cutsAt tokens read scan)
    (hcut : cutsAt read c = true) (hoss : next.oss = [])
    (hcount : next.count = wrap32 (scan.count + 1))
    (htokens : next.tokens =
      scan.tokens ++ [trim (scan.oss ++ [c]) (ascii " ,")]) :
    Progress cutsAt tokens (read ++ [c]) next where
  appended := by
    obtain ⟨appended, htoken, hlength, hstripped⟩ := h.appended
    refine ⟨appended ++ [trim (scan.oss ++ [c]) (ascii " ,")], ?_, ?_, ?_⟩
    · rw [htokens, htoken, List.append_assoc]
    · rw [List.length_append, hlength, cutCount_concat, hcut, if_pos rfl,
        List.length_singleton]
    · rw [hoss, List.append_nil, List.flatten_concat, stripped_append,
        stripped_trim, ← stripped_append, ← List.append_assoc,
        stripped_append, hstripped, stripped_append]
  count_eq := by
    rw [hcount, h.count_eq, wrap32_wrap32_add_one, cutCount_concat, hcut,
      if_pos rfl, Nat.cast_add, Nat.cast_one]
  oss_isEmpty := by
    rw [endsCut_concat, hcut, hoss]
    rfl

/-- Both tokenizers append one token for each piece, of the same content, and
return their number as an `int`. -/
theorem Progress.finish (h : Progress cutsAt tokens read scan) :
    ∃ appended, scan.finish.2 = tokens ++ appended ∧
      appended.length = pieceCount cutsAt read ∧
      scan.finish.1 = wrap32 (pieceCount cutsAt read) ∧
      stripped appended.flatten = stripped read := by
  obtain ⟨appended, htoken, hlength, hstripped⟩ := h.appended
  by_cases hempty : scan.oss.isEmpty = true
  · have hends : endsCut cutsAt read = true := h.oss_isEmpty ▸ hempty
    rw [Scan.finish, if_pos hempty, pieceCount, hends, if_pos rfl, add_zero]
    rw [List.isEmpty_iff.mp hempty, List.append_nil] at hstripped
    exact ⟨appended, htoken, hlength, h.count_eq, hstripped⟩
  · have hends : endsCut cutsAt read = false := by
      rw [← h.oss_isEmpty]
      exact Bool.eq_false_of_not_eq_true hempty
    rw [Scan.finish, if_neg hempty, pieceCount, hends,
      if_neg Bool.false_ne_true]
    refine ⟨appended ++ [trim scan.oss (ascii " ,")], ?_, ?_, ?_, ?_⟩
    · rw [Scan.flush, htoken, List.append_assoc]
    · rw [List.length_append, hlength, List.length_singleton]
    · rw [Scan.flush, h.count_eq, wrap32_wrap32_add_one, Nat.cast_add,
        Nat.cast_one]
    · rw [List.flatten_concat, stripped_append, stripped_trim,
        ← stripped_append, hstripped]

end Progress

def quoted (isQuote : UInt8 → Bool) (read : ByteString) : Bool :=
  read.countP isQuote % 2 == 1

theorem quoted_concat (isQuote : UInt8 → Bool) (read : ByteString)
    (c : UInt8) :
    quoted isQuote (read ++ [c]) =
      (quoted isQuote read != isQuote c) := by
  rw [quoted, quoted, List.countP_append, List.countP_singleton,
    Bool.eq_iff_iff]
  cases isQuote c <;> simp
  omega

namespace Wfan

def isQuote (c : UInt8) : Bool := c == doubleQuote || c == singleQuote

/-- The first tokenizer cuts at every delimiter outside quotes. -/
def cutsAt (read : ByteString) (c : UInt8) : Bool :=
  delimiter c && !quoted isQuote read

/-- A delimiter is no quote. -/
theorem isQuote_of_delimiter {c : UInt8} (hc : delimiter c = true) :
    isQuote c = false := by
  rcases (Bool.or_eq_true _ _).mp hc with hspace | hcomma
  · rw [beq_iff_eq.mp hspace]
    rfl
  · rw [beq_iff_eq.mp hcomma]
    rfl

theorem next_of_cut {scan : Scan} {c : UInt8} (hc : delimiter c = true)
    (hflag : scan.isInQuotation = false) :
    next scan c =
      { scan with oss := scan.oss ++ [c], isDelimiter := true }.flush := by
  have hquote := isQuote_of_delimiter hc
  rw [isQuote] at hquote
  simp only [next, hquote, hc, hflag, Bool.false_eq_true, if_false, if_true]

/-- Everywhere else the character is only put into the buffer. -/
theorem next_of_not_cut {scan : Scan} {c : UInt8}
    (hcut : (delimiter c && !scan.isInQuotation) = false) :
    (next scan c).oss = scan.oss ++ [c] ∧
      (next scan c).count = scan.count ∧
      (next scan c).tokens = scan.tokens := by
  simp only [next]
  split_ifs with hquote hc hflag
  · exact ⟨rfl, rfl, rfl⟩
  · exact ⟨rfl, rfl, rfl⟩
  · rw [hc, Bool.eq_false_of_not_eq_true hflag] at hcut
    exact absurd hcut (by decide)
  · exact ⟨rfl, rfl, rfl⟩

theorem next_isInQuotation (scan : Scan) (c : UInt8) :
    (next scan c).isInQuotation = (scan.isInQuotation != isQuote c) := by
  simp only [next, isQuote, Scan.flush]
  split_ifs with hquote hc hflag
  · simp [hquote]
  · simp [hquote]
  · simp [hquote]
  · simp [hquote]

theorem progress_foldl (tokens : List ByteString) (read : ByteString) :
    Progress cutsAt tokens read (read.foldl next (.start tokens)) ∧
      (read.foldl next (.start tokens)).isInQuotation =
        quoted isQuote read := by
  induction read using List.reverseRecOn with
  | nil => exact ⟨progress_start tokens, rfl⟩
  | append_singleton read c ih =>
      obtain ⟨h, hflag⟩ := ih
      rw [List.foldl_concat, quoted_concat, next_isInQuotation, hflag]
      refine ⟨?_, rfl⟩
      cases hcut : cutsAt read c with
      | true =>
          have hboth := (Bool.and_eq_true _ _).mp hcut
          rw [Bool.not_eq_true', ← hflag] at hboth
          rw [next_of_cut hboth.1 hboth.2]
          exact h.cut hcut rfl rfl rfl
      | false =>
          rw [cutsAt, ← hflag] at hcut
          obtain ⟨hoss, hcount, htokens⟩ := next_of_not_cut hcut
          rw [hflag] at hcut
          exact h.keep hcut hoss hcount htokens

end Wfan

namespace Kata14

def isQuote (c : UInt8) : Bool := c == doubleQuote

def endsInDelimiter (read : ByteString) : Bool := read.getLast?.any delimiter

/-- The second tokenizer cuts at a delimiter outside quotes that does not
follow another delimiter. -/
def cutsAt (read : ByteString) (c : UInt8) : Bool :=
  delimiter c && (!endsInDelimiter read && !quoted isQuote read)

theorem isQuote_of_delimiter {c : UInt8} (hc : delimiter c = true) :
    isQuote c = false := by
  have hneither := Wfan.isQuote_of_delimiter hc
  exact (Bool.or_eq_false_iff.mp hneither).1

theorem next_of_cut {scan : Scan} {c : UInt8} (hc : delimiter c = true)
    (hflags : (!scan.isDelimiter && !scan.isInQuotation) = true) :
    next scan c =
      { { scan with oss := scan.oss ++ [c] }.flush with
        isDelimiter := true } := by
  have hquote := isQuote_of_delimiter hc
  rw [isQuote] at hquote
  simp only [next, hquote, hc, hflags, Bool.false_eq_true, if_false, if_true]

theorem next_of_not_cut {scan : Scan} {c : UInt8}
    (hcut : (delimiter c && (!scan.isDelimiter && !scan.isInQuotation)) =
      false) :
    (next scan c).oss = scan.oss ++ [c] ∧
      (next scan c).count = scan.count ∧
      (next scan c).tokens = scan.tokens := by
  cases hc : delimiter c with
  | true =>
      have hquote := isQuote_of_delimiter hc
      rw [isQuote] at hquote
      rw [hc, Bool.true_and] at hcut
      simp [next, hquote, hc, hcut]
  | false =>
      simp only [next, hc, Bool.false_eq_true, if_false]
      split_ifs <;> exact ⟨rfl, rfl, rfl⟩

theorem next_flags (scan : Scan) (c : UInt8) :
    (next scan c).isInQuotation = (scan.isInQuotation != isQuote c) ∧
      (next scan c).isDelimiter = delimiter c := by
  simp only [next, isQuote]
  cases hquote : c == doubleQuote with
  | true =>
      simp only [if_true]
      split_ifs with hc <;> simp_all [Scan.flush]
  | false =>
      simp only [Bool.false_eq_true, if_false]
      split_ifs with hc <;> simp_all [Scan.flush]

theorem endsInDelimiter_concat (read : ByteString) (c : UInt8) :
    endsInDelimiter (read ++ [c]) = delimiter c := by
  simp [endsInDelimiter]

theorem progress_foldl (tokens : List ByteString) (read : ByteString) :
    Progress cutsAt tokens read (read.foldl next (.start tokens)) ∧
      (read.foldl next (.start tokens)).isInQuotation =
        quoted isQuote read ∧
      (read.foldl next (.start tokens)).isDelimiter =
        endsInDelimiter read := by
  induction read using List.reverseRecOn with
  | nil => exact ⟨progress_start tokens, rfl, rfl⟩
  | append_singleton read c ih =>
      obtain ⟨h, hquotation, hdelimiter⟩ := ih
      have hflags := next_flags (read.foldl next (.start tokens)) c
      rw [List.foldl_concat, quoted_concat, endsInDelimiter_concat, hflags.1,
        hflags.2, hquotation]
      refine ⟨?_, rfl, rfl⟩
      cases hcut : cutsAt read c with
      | true =>
          have hboth := (Bool.and_eq_true _ _).mp hcut
          rw [← hquotation, ← hdelimiter] at hboth
          rw [next_of_cut hboth.1 hboth.2]
          exact h.cut hcut rfl rfl rfl
      | false =>
          have hflag := hcut
          rw [cutsAt, ← hquotation, ← hdelimiter] at hflag
          obtain ⟨hoss, hcount, htokens⟩ := next_of_not_cut hflag
          exact h.keep hcut hoss hcount htokens

end Kata14

/-! ## The returned number -/

/-- Only appending, the number of tokens returned, and the content kept. -/
def Conserves (tokenize : ByteString → List ByteString → ℤ × List ByteString)
    (input : ByteString) (tokens : List ByteString) : Prop :=
  ∃ appended, (tokenize input tokens).2 = tokens ++ appended ∧
    (tokenize input tokens).1 = appended.length ∧
    stripped appended.flatten = stripped input

theorem wrap32_natCast_eq_iff (count : ℕ) :
    wrap32 count = count ↔ count < 2 ^ 31 := by
  rw [wrap32, Int.bmod_def]
  split <;> omega

/-- A tokenizer that makes progress is right up to the size of an `int`. -/
theorem conserves_iff
    {tokenize : ByteString → List ByteString → ℤ × List ByteString}
    {cutsAt : ByteString → UInt8 → Bool} {input : ByteString}
    {tokens : List ByteString} {scan : Scan}
    (h : Progress cutsAt tokens input scan)
    (htokenize : tokenize input tokens = scan.finish) :
    Conserves tokenize input tokens ↔ pieceCount cutsAt input < 2 ^ 31 := by
  obtain ⟨appended, htokens, hlength, hcount, hstripped⟩ := h.finish
  rw [← wrap32_natCast_eq_iff, Conserves, htokenize, hcount]
  constructor
  · rintro ⟨others, hothers, hnumber, -⟩
    rw [htokens] at hothers
    obtain rfl := List.append_cancel_left hothers
    rw [hnumber, hlength]
  · intro hnumber
    refine ⟨appended, htokens, ?_, hstripped⟩
    rw [hlength, hnumber]

theorem Wfan.conserves_iff (input : ByteString) (tokens : List ByteString) :
    Conserves Wfan.tokenize input tokens ↔
      pieceCount Wfan.cutsAt input < 2 ^ 31 := by
  apply Tokenizer.conserves_iff (Wfan.progress_foldl tokens input).1
  rw [Wfan.tokenize]
  split_ifs with hempty
  · rw [List.length_eq_zero_iff.mp hempty]
    rfl
  · rfl

/-- Both tokenizers keep everything, only append and return the number of
tokens exactly when an `int` can hold that number. -/
theorem conserves_iff_pieceCount (input : ByteString)
    (tokens : List ByteString) :
    (Conserves Wfan.tokenize input tokens ↔
        pieceCount Wfan.cutsAt input < 2 ^ 31) ∧
      (Conserves Kata14.tokenize input tokens ↔
        pieceCount Kata14.cutsAt input < 2 ^ 31) :=
  ⟨Wfan.conserves_iff input tokens,
    conserves_iff (Kata14.progress_foldl tokens input).1 rfl⟩

example :
    Kata14.tokenize (ascii "a=\"1, 2\", b ") [ascii "x"] =
      (2, [ascii "x", ascii "a=\"1, 2\"", ascii "b"]) := by
  decide +kernel

/-- A text of spaces is cut at each of them. -/
theorem pieceCount_spaces (count : ℕ) :
    pieceCount Wfan.cutsAt (List.replicate count 32) = count := by
  have hcuts : ∀ taken, Wfan.cutsAt (List.replicate taken 32) 32 = true := by
    intro taken
    have hquotes :
        (List.replicate taken (32 : UInt8)).countP Wfan.isQuote = 0 := by
      rw [List.countP_replicate, if_neg (by decide)]
    rw [Wfan.cutsAt, quoted, hquotes]
    rfl
  have hcount : cutCount Wfan.cutsAt (List.replicate count 32) = count := by
    induction count with
    | zero => rfl
    | succ taken ih =>
        rw [List.replicate_succ', cutCount_concat, ih, hcuts, if_pos rfl]
  have hends : endsCut Wfan.cutsAt (List.replicate count 32) = true := by
    cases count with
    | zero => rfl
    | succ taken => rw [List.replicate_succ', endsCut_concat, hcuts]
  rw [pieceCount, hcount, hends, if_pos rfl, add_zero]

/-- A text of `2 ^ 31` spaces: the counter overflows. -/
theorem tokenize_count_overflows :
    ¬ ∀ (input : ByteString) (tokens : List ByteString),
      Conserves Wfan.tokenize input tokens ∧
        Conserves Kata14.tokenize input tokens := by
  intro hall
  have hspaces := (hall (List.replicate (2 ^ 31) 32) []).1
  rw [Wfan.conserves_iff, pieceCount_spaces] at hspaces
  exact lt_irrefl _ hspaces

end KataCpp.Tokenizer
