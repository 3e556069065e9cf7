import KataCpp.Text.Tokenizer

/-!
# Tokens and runs

The tokens of a text are meant to be the runs of characters between the
separators, which are the spaces and commas outside double quotes.  Both
tokenizers find all of them, but add empty tokens: the first between adjacent
separators, both in front of a leading one.  Their tokens are the runs exactly
when every separator directly follows a character of a token.
-/

namespace KataCpp.Tokenizer

open Bytes StringUtil

/-- The characters of a text, each with whether it separates tokens. -/
def marked : Bool → ByteString → List (UInt8 × Bool)
  | _, [] => []
  | inQuotation, c :: rest =>
      (c, delimiter c && !inQuotation) ::
        marked (inQuotation != (c == doubleQuote)) rest

def segments (inQuotation : Bool) (input : ByteString) : List ByteString :=
  ((marked inQuotation input).splitOnP Prod.snd).map (List.map Prod.fst)

/-- The maximal runs of characters that contain no separator. -/
def runs (input : ByteString) : List ByteString :=
  (segments false input).filter (· ≠ [])

/-- No separator stands at the start or behind another one.  The start counts
as a separator here. -/
def Spaced (input : ByteString) : Prop :=
  (true :: (marked false input).map Prod.snd).IsChain
    fun before here => ¬ (before = true ∧ here = true)

instance (input : ByteString) : Decidable (Spaced input) :=
  inferInstanceAs (Decidable (List.IsChain _ _))

theorem segments_nil (inQuotation : Bool) :
    segments inQuotation [] = [[]] := rfl

variable {inQuotation : Bool} {c : UInt8} {rest input : ByteString}

theorem segments_of_separator
    (hc : (delimiter c && !inQuotation) = true) :
    segments inQuotation (c :: rest) =
      [] :: segments (inQuotation != (c == doubleQuote)) rest := by
  rw [segments, marked, List.splitOnP_cons_eq_if_modifyHead, if_pos hc]
  rfl

theorem segments_of_not_separator
    (hc : (delimiter c && !inQuotation) = false) :
    segments inQuotation (c :: rest) =
      (segments (inQuotation != (c == doubleQuote)) rest).modifyHead
        (c :: ·) := by
  rw [segments, marked, List.splitOnP_cons_eq_if_modifyHead,
    if_neg (by simp [hc]), segments]
  cases (marked (inQuotation != (c == doubleQuote)) rest).splitOnP
      Prod.snd with
  | nil => rfl
  | cons first others => rfl

theorem segments_ne_nil (inQuotation : Bool) (input : ByteString) :
    segments inQuotation input ≠ [] := by
  rw [segments, ne_eq, List.map_eq_nil_iff]
  exact List.splitOnP_ne_nil _ _

/-- A delimiter is no quote, so it leaves the quotation as it is. -/
theorem bne_doubleQuote_of_delimiter (hc : delimiter c = true) :
    (inQuotation != (c == doubleQuote)) = inQuotation := by
  have hquote := Kata14.isQuote_of_delimiter hc
  rw [Kata14.isQuote] at hquote
  rw [hquote, Bool.bne_false]

def Clean (piece : ByteString) : Prop :=
  (∀ c ∈ piece.head?, delimiter c = false) ∧
    ∀ c ∈ piece.getLast?, delimiter c = false

theorem Clean.trim_eq {piece : ByteString} (h : Clean piece) :
    trim piece (ascii " ,") = piece := by
  have hfront : piece.dropWhile delimiter = piece := by
    rw [List.dropWhile_eq_self_iff]
    intro hpos
    simp [h.1 piece[0] (List.head?_eq_getElem?.trans
      (List.getElem?_eq_getElem hpos))]
  have hback : piece.rdropWhile delimiter = piece := by
    rw [List.rdropWhile_eq_self_iff]
    intro hpiece
    simp [h.2 _ (List.getLast?_eq_getLast_of_ne_nil hpiece)]
  rw [trim_delimiters_eq, hfront, hback]

theorem quoted_cons (isQuote : UInt8 → Bool) :
    quoted isQuote (c :: rest) = (quoted isQuote rest != isQuote c) := by
  rw [quoted, quoted, List.countP_cons, Bool.eq_iff_iff]
  cases isQuote c <;> simp
  omega

/-- The pieces of a text whose quotes are closed at its end.  The first piece
goes on with what was quoted before. -/
theorem segments_clean (hclosed : quoted Kata14.isQuote input = inQuotation) :
    ∃ first others, segments inQuotation input = first :: others ∧
      (∀ piece ∈ others, Clean piece) ∧
      (∀ c ∈ first.getLast?, delimiter c = false) ∧
      (inQuotation = false → ∀ c ∈ first.head?, delimiter c = false) ∧
      (inQuotation = true → first ≠ []) := by
  induction input generalizing inQuotation with
  | nil =>
      subst hclosed
      exact ⟨[], [], rfl, by simp, by simp, by simp, by simp [quoted]⟩
  | cons c rest ih =>
      have hrest : quoted Kata14.isQuote rest =
          (inQuotation != (c == doubleQuote)) := by
        rw [← hclosed, quoted_cons, Kata14.isQuote]
        cases c == doubleQuote <;> simp
      obtain ⟨first, others, hsegments, hothers, hlast, hhead, hquoted⟩ :=
        ih hrest
      cases hc : delimiter c && !inQuotation with
      | true =>
          obtain ⟨hdelimiter, hopen⟩ := (Bool.and_eq_true _ _).mp hc
          rw [bne_doubleQuote_of_delimiter hdelimiter] at hsegments hhead
          refine ⟨[], first :: others, ?_, ?_, by simp, by simp, ?_⟩
          · rw [segments_of_separator hc,
              bne_doubleQuote_of_delimiter hdelimiter, hsegments]
          · intro piece hpiece
            rcases List.mem_cons.mp hpiece with rfl | hlater
            · exact ⟨hhead (by simpa using hopen), hlast⟩
            · exact hothers piece hlater
          · intro hinside
            simp [hinside] at hopen
      | false =>
          refine ⟨c :: first, others, ?_, hothers, ?_, ?_, by simp⟩
          · rw [segments_of_not_separator hc, hsegments]
            rfl
          · -- A delimiter inside quotes is followed by the closing quote.
            intro last hlastMem
            cases hfirst : first with
            | nil =>
                obtain rfl : c = last := by simpa [hfirst] using hlastMem
                by_contra hdelimiter
                rw [Bool.not_eq_false] at hdelimiter
                rw [bne_doubleQuote_of_delimiter hdelimiter] at hquoted
                exact hquoted (by simpa [hdelimiter] using hc) hfirst
            | cons second more =>
                apply hlast
                rw [hfirst] at hlastMem ⊢
                simpa using hlastMem
          · intro hopen head hheadMem
            obtain rfl : c = head := by simpa using hheadMem
            simpa [hopen] using hc

theorem trim_concat (oss : ByteString) (hc : delimiter c = true) :
    trim (oss ++ [c]) (ascii " ,") = trim oss (ascii " ,") := by
  rw [trim_delimiters_eq, trim_delimiters_eq, List.dropWhile_append]
  split_ifs with hempty
  · rw [List.isEmpty_iff.mp hempty, List.dropWhile_cons_of_pos hc]
    rfl
  · exact List.rdropWhile_concat_pos delimiter _ c hc

/-- The pieces without an empty last one, which is not flushed. -/
def dropTrailing : List ByteString → List ByteString
  | [] => []
  | [last] => if last.isEmpty then [] else [last]
  | piece :: next :: rest => piece :: dropTrailing (next :: rest)

theorem dropTrailing_cons (piece : ByteString) {pieces : List ByteString}
    (hpieces : pieces ≠ []) :
    dropTrailing (piece :: pieces) = piece :: dropTrailing pieces := by
  obtain ⟨next, rest, rfl⟩ := List.exists_cons_of_ne_nil hpieces
  rfl

theorem dropTrailing_subset (pieces : List ByteString) :
    dropTrailing pieces ⊆ pieces := by
  fun_induction dropTrailing with
  | case1 => exact List.Subset.refl _
  | case2 => exact List.nil_subset _
  | case3 => exact List.Subset.refl _
  | case4 piece next rest ih => exact List.cons_subset_cons piece ih

theorem filter_dropTrailing (pieces : List ByteString) :
    (dropTrailing pieces).filter (· ≠ []) = pieces.filter (· ≠ []) := by
  fun_induction dropTrailing with
  | case1 => rfl
  | case2 last hlast => simp [List.isEmpty_iff.mp hlast]
  | case3 => rfl
  | case4 piece next rest ih => rw [List.filter_cons, List.filter_cons, ih]

theorem modifyHead_nil_append (pieces : List ByteString) :
    pieces.modifyHead ([] ++ ·) = pieces := by
  cases pieces <;> rfl

theorem modifyHead_append (oss : ByteString) (pieces : List ByteString) :
    (pieces.modifyHead (c :: ·)).modifyHead (oss ++ ·) =
      pieces.modifyHead ((oss ++ [c]) ++ ·) := by
  cases pieces with
  | nil => rfl
  | cons first others => simp

/-- From any state, the first tokenizer appends the trimmed pieces; the first
of them goes on with what is in the buffer. -/
theorem Wfan.finish_foldl (scan : Scan) (hsingle : singleQuote ∉ input) :
    (input.foldl next scan).finish.2 = scan.tokens ++
      (dropTrailing ((segments scan.isInQuotation input).modifyHead
        (scan.oss ++ ·))).map (trim · (ascii " ,")) := by
  induction input generalizing scan with
  | nil =>
      rw [List.foldl_nil, segments_nil, List.modifyHead_cons, List.append_nil,
        dropTrailing, Scan.finish]
      split_ifs with hempty
      · simp
      · rfl
  | cons c rest ih =>
      rw [List.mem_cons, not_or] at hsingle
      have hquote : isQuote c = (c == doubleQuote) := by
        rw [isQuote, beq_false_of_ne (Ne.symm hsingle.1), Bool.or_false]
      rw [List.foldl_cons, ih _ hsingle.2, next_isInQuotation, hquote]
      cases hc : delimiter c && !scan.isInQuotation with
      | true =>
          obtain ⟨hdelimiter, hopen⟩ := (Bool.and_eq_true _ _).mp hc
          rw [next_of_cut hdelimiter (by simpa using hopen),
            segments_of_separator hc, List.modifyHead_cons, List.append_nil,
            dropTrailing_cons _ (segments_ne_nil _ _), List.map_cons]
          simp only [Scan.flush, trim_concat _ hdelimiter,
            modifyHead_nil_append, List.append_assoc, List.singleton_append]
      | false =>
          obtain ⟨hoss, -, htokens⟩ := next_of_not_cut hc
          rw [hoss, htokens, segments_of_not_separator hc, modifyHead_append]

theorem Wfan.tokenize_tokens (hsingle : singleQuote ∉ input)
    (tokens : List ByteString) :
    (tokenize input tokens).2 = tokens ++
      (dropTrailing (segments false input)).map (trim · (ascii " ,")) := by
  rw [tokenize]
  split_ifs with hempty
  · rw [List.length_eq_zero_iff.mp hempty, segments_nil]
    simp [dropTrailing]
  · rw [Wfan.finish_foldl _ hsingle]
    simp only [Scan.start, modifyHead_nil_append]

/-- The first tokenizer appends an empty piece exactly where a separator
follows another one or the start. -/
theorem notMem_dropTrailing_iff (oss : ByteString) :
    [] ∉ dropTrailing ((segments inQuotation input).modifyHead (oss ++ ·)) ↔
      (oss.isEmpty :: (marked inQuotation input).map Prod.snd).IsChain
        fun before here => ¬ (before = true ∧ here = true) := by
  induction input generalizing inQuotation oss with
  | nil =>
      rw [segments_nil, List.modifyHead_cons, List.append_nil, dropTrailing]
      cases oss <;> simp [marked]
  | cons c rest ih =>
      rw [marked, List.map_cons, List.isChain_cons_cons]
      cases hc : delimiter c && !inQuotation with
      | true =>
          have hrest := @ih (inQuotation != (c == doubleQuote)) []
          rw [modifyHead_nil_append] at hrest
          rw [segments_of_separator hc, List.modifyHead_cons, List.append_nil,
            dropTrailing_cons _ (segments_ne_nil _ _), List.mem_cons, not_or,
            hrest]
          cases oss <;> simp
      | false =>
          have hbuffer : (oss ++ [c]).isEmpty = false :=
            List.isEmpty_eq_false_iff.mpr (List.concat_ne_nil c oss)
          rw [segments_of_not_separator hc, modifyHead_append, ih, hbuffer]
          simp

/-- The two loops agree on what the tokens are made from. -/
structure SameTokens (left right : Scan) : Prop where
  isInQuotation : left.isInQuotation = right.isInQuotation
  oss : left.oss = right.oss
  tokens : left.tokens = right.tokens

theorem SameTokens.finish {left right : Scan} (h : SameTokens left right) :
    left.finish.2 = right.finish.2 := by
  simp only [Scan.finish, Scan.flush, h.oss, h.tokens]
  split_ifs <;> rfl

/-- On a spaced text the second tokenizer does what the first does: outside
quotes it never finds `is_delimiter` set at a delimiter. -/
theorem SameTokens.foldl {left right : Scan} {before : Bool}
    (h : SameTokens left right) (hsingle : singleQuote ∉ input)
    (hflag : right.isDelimiter = true →
      right.isInQuotation = true ∨ before = true)
    (hspaced : (before :: (marked left.isInQuotation input).map
      Prod.snd).IsChain fun before here => ¬ (before = true ∧ here = true)) :
    SameTokens (input.foldl Wfan.next left)
      (input.foldl Kata14.next right) := by
  induction input generalizing left right before with
  | nil => exact h
  | cons c rest ih =>
      rw [List.mem_cons, not_or] at hsingle
      rw [marked, List.map_cons, List.isChain_cons_cons] at hspaced
      have hquote : Wfan.isQuote c = Kata14.isQuote c := by
        rw [Wfan.isQuote, beq_false_of_ne (Ne.symm hsingle.1), Bool.or_false,
          Kata14.isQuote]
      have hleft := Wfan.next_isInQuotation left c
      have hright := Kata14.next_flags right c
      have hstate : (Wfan.next left c).isInQuotation =
          (Kata14.next right c).isInQuotation := by
        rw [hleft, hright.1, h.isInQuotation, hquote]
      rw [← Kata14.isQuote, ← hquote, ← hleft] at hspaced
      have hnext : SameTokens (Wfan.next left c) (Kata14.next right c) := by
        cases hc : delimiter c && !left.isInQuotation with
        | true =>
            obtain ⟨hdelimiter, hopen⟩ := (Bool.and_eq_true _ _).mp hc
            rw [Bool.not_eq_true'] at hopen
            have hclear : right.isDelimiter = false := by
              by_contra hset
              rcases hflag (by simpa using hset) with hinside | hseparator
              · rw [← h.isInQuotation, hopen] at hinside
                exact Bool.false_ne_true hinside
              · exact hspaced.1 ⟨hseparator, hc⟩
            have hflags :
                (!right.isDelimiter && !right.isInQuotation) = true := by
              rw [hclear, ← h.isInQuotation, hopen]
              rfl
            refine ⟨hstate, ?_, ?_⟩
            · rw [Wfan.next_of_cut hdelimiter hopen,
                Kata14.next_of_cut hdelimiter hflags]
              rfl
            · rw [Wfan.next_of_cut hdelimiter hopen,
                Kata14.next_of_cut hdelimiter hflags]
              simp only [Scan.flush, h.oss, h.tokens]
        | false =>
            have hkept : (delimiter c &&
                (!right.isDelimiter && !right.isInQuotation)) = false := by
              rw [h.isInQuotation] at hc
              rw [Bool.and_left_comm, hc, Bool.and_false]
            obtain ⟨hoss, -, htokens⟩ := Wfan.next_of_not_cut hc
            obtain ⟨hoss', -, htokens'⟩ := Kata14.next_of_not_cut hkept
            exact ⟨hstate, by rw [hoss, hoss', h.oss],
              by rw [htokens, htokens', h.tokens]⟩
      refine ih hnext hsingle.2 ?_ hspaced.2
      intro hdelimiter
      rw [hright.2] at hdelimiter
      rw [hright.1, Kata14.isQuote_of_delimiter hdelimiter, Bool.bne_false,
        hdelimiter, Bool.true_and, h.isInQuotation]
      cases right.isInQuotation <;> simp

theorem Kata14.tokenize_eq_of_spaced (hsingle : singleQuote ∉ input)
    (hspaced : Spaced input) (tokens : List ByteString) :
    (Kata14.tokenize input tokens).2 = (Wfan.tokenize input tokens).2 := by
  have hstart : SameTokens (.start tokens) (.start tokens) := ⟨rfl, rfl, rfl⟩
  have hsame := hstart.foldl hsingle (fun _ => .inr rfl) hspaced
  rw [Kata14.tokenize, Wfan.tokenize, ← hsame.finish]
  split_ifs with hempty
  · rw [List.length_eq_zero_iff.mp hempty]
    rfl
  · rfl

/-! ## Tokens that are runs -/

/-- With closed quotes the pieces need no trimming. -/
theorem Wfan.tokenize_eq_pieces (hsingle : singleQuote ∉ input)
    (heven : Even (input.count doubleQuote)) (tokens : List ByteString) :
    (tokenize input tokens).2 =
      tokens ++ dropTrailing (segments false input) := by
  have hclosed : quoted Kata14.isQuote input = false := by
    have hcount : input.countP Kata14.isQuote % 2 = 0 :=
      Nat.even_iff.mp heven
    rw [quoted, hcount]
    rfl
  obtain ⟨first, others, hsegments, hothers, hlast, hhead, -⟩ :=
    segments_clean hclosed
  have hclean : ∀ piece ∈ segments false input, Clean piece := by
    intro piece hpiece
    rw [hsegments] at hpiece
    rcases List.mem_cons.mp hpiece with rfl | hlater
    · exact ⟨hhead rfl, hlast⟩
    · exact hothers piece hlater
  have hkept : ∀ piece ∈ dropTrailing (segments false input),
      trim piece (ascii " ,") = id piece := fun piece hpiece =>
    (hclean piece (dropTrailing_subset _ hpiece)).trim_eq
  rw [tokenize_tokens hsingle, List.map_congr_left hkept, List.map_id]

theorem notMem_dropTrailing_iff_spaced :
    [] ∉ dropTrailing (segments false input) ↔ Spaced input := by
  have hspaced := @notMem_dropTrailing_iff false input []
  rwa [modifyHead_nil_append] at hspaced

/-- On texts without single quotes and with closed double quotes the tokens of
both tokenizers are the runs exactly when the text is spaced. -/
theorem tokenize_eq_runs_iff (hsingle : singleQuote ∉ input)
    (heven : Even (input.count doubleQuote)) :
    (∀ tokens, (Wfan.tokenize input tokens).2 = tokens ++ runs input ∧
        (Kata14.tokenize input tokens).2 = tokens ++ runs input) ↔
      Spaced input := by
  have hruns : runs input =
      (dropTrailing (segments false input)).filter (· ≠ []) :=
    (filter_dropTrailing _).symm
  constructor
  · intro hall
    have hsame := (hall []).1
    rw [Wfan.tokenize_eq_pieces hsingle heven, List.nil_append,
      List.nil_append] at hsame
    rw [← notMem_dropTrailing_iff_spaced, hsame, hruns]
    intro hempty
    exact absurd (List.mem_filter.mp hempty).2 (by decide)
  · intro hspaced tokens
    have hpieces : dropTrailing (segments false input) = runs input := by
      rw [hruns, eq_comm, List.filter_eq_self]
      intro piece hpiece
      apply decide_eq_true
      rintro rfl
      exact notMem_dropTrailing_iff_spaced.mpr hspaced hpiece
    rw [Kata14.tokenize_eq_of_spaced hsingle hspaced,
      Wfan.tokenize_eq_pieces hsingle heven, hpieces]
    exact ⟨rfl, rfl⟩

/-- The capabilities of the program's own demonstration: the commas are quoted
and one space separates two tokens. -/
theorem tokenize_eq_runs_of_caps :
    let caps := ascii "capsfilter caps=\"video/x-raw,width=640\""
    (Wfan.tokenize caps []).2 = runs caps ∧
      (Kata14.tokenize caps []).2 = runs caps := by
  intro caps
  have hsingle : singleQuote ∉ caps := by decide +kernel
  have heven : Even (caps.count doubleQuote) := by decide +kernel
  have hspaced : Spaced caps := by decide +kernel
  exact (tokenize_eq_runs_iff hsingle heven).mpr hspaced []

/-- A comma and a space: the first tokenizer puts an empty token between the
two, the second does not. -/
theorem tokenize_adds_empty_token :
    ¬ ∀ input : ByteString, singleQuote ∉ input →
      Even (input.count doubleQuote) →
      ∀ tokens, (Wfan.tokenize input tokens).2 = tokens ++ runs input ∧
        (Kata14.tokenize input tokens).2 = tokens ++ runs input := by
  intro hall
  have hcomma := (hall (ascii "a, b") (by decide) (by decide) []).1
  revert hcomma
  decide +kernel

end KataCpp.Tokenizer
