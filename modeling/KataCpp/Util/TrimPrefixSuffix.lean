import KataCpp.Core.Bytes

/-!
# Trimming a prefix and a suffix

`trim_prefix_suffix` tests the two ends of a file name independently and cuts
them off by length.  The length of what remains is an unsigned difference, so
when the two ends overlap it wraps around to a number above every length, and
everything behind the prefix is returned.
-/

namespace KataCpp.StringUtil

open Bytes

/-- `text.substr(pos, count)`, for a position inside the text. -/
def substr (text : ByteString) (pos count : ℕ) : ByteString :=
  (text.drop pos).take count

def endswith (filename suffixText : ByteString) : Bool :=
  if suffixText.length ≤ filename.length then
    substr filename (filename.length - suffixText.length)
      suffixText.length == suffixText
  else false

def startswith (filename prefixText : ByteString) : Bool :=
  if prefixText.length ≤ filename.length then
    substr filename 0 prefixText.length == prefixText
  else false

/-- A difference of lengths, as a `size_t`. -/
def sizeT (value : ℤ) : ℕ := (value % 2 ^ 64).toNat

def trimPrefixSuffix (filename prefixText suffixText : ByteString) :
    ByteString :=
  if startswith filename prefixText && endswith filename suffixText then
    substr filename prefixText.length
      (sizeT (filename.length - prefixText.length - suffixText.length))
  else filename

variable {filename prefixText suffixText : ByteString}

theorem startswith_iff :
    startswith filename prefixText = true ↔ prefixText <+: filename := by
  rw [startswith, List.prefix_iff_eq_take]
  split_ifs with hlength
  · rw [substr, List.drop_zero, beq_iff_eq]
    exact eq_comm
  · refine iff_of_false not_false fun htake => ?_
    have hle := congrArg List.length htake
    rw [List.length_take] at hle
    omega

theorem endswith_iff :
    endswith filename suffixText = true ↔ suffixText <:+ filename := by
  rw [endswith, List.suffix_iff_eq_drop]
  split_ifs with hlength
  · rw [substr, List.take_of_length_le (by rw [List.length_drop]; omega),
      beq_iff_eq]
    exact eq_comm
  · refine iff_of_false not_false fun hdrop => ?_
    have hle := congrArg List.length hdrop
    rw [List.length_drop] at hle
    omega

/-- Both ends match, on parts of the file name that overlap. -/
def Overlap (filename prefixText suffixText : ByteString) : Prop :=
  prefixText <+: filename ∧ suffixText <:+ filename ∧
    filename.length < prefixText.length + suffixText.length

/-- Between ends that do not overlap the difference of lengths is exact. -/
theorem trimPrefixSuffix_append (p m s : ByteString)
    (hsize : (p ++ m ++ s).length < 2 ^ 64) :
    trimPrefixSuffix (p ++ m ++ s) p s = m := by
  have hstarts : startswith (p ++ m ++ s) p = true := by
    rw [startswith_iff, List.append_assoc]
    exact List.prefix_append p (m ++ s)
  have hends : endswith (p ++ m ++ s) s = true := by
    rw [endswith_iff]
    exact List.suffix_append (p ++ m) s
  have hcount : sizeT ((p ++ m ++ s).length - p.length - s.length) =
      m.length := by
    rw [sizeT]
    simp only [List.length_append] at hsize ⊢
    omega
  rw [trimPrefixSuffix, hstarts, hends, Bool.and_self, if_pos rfl, hcount,
    substr, List.append_assoc, List.drop_left, List.take_left]

/-- A prefix and a suffix that do not overlap have something between them. -/
theorem exists_middle (hfront : prefixText <+: filename)
    (hback : suffixText <:+ filename)
    (hlength : prefixText.length + suffixText.length ≤ filename.length) :
    ∃ middle, filename = prefixText ++ middle ++ suffixText := by
  obtain ⟨rest, rfl⟩ := hfront
  rw [List.length_append] at hlength
  obtain ⟨middle, rfl⟩ : suffixText <:+ rest :=
    List.suffix_of_suffix_length_le hback (List.suffix_append _ _)
      (by omega)
  exact ⟨middle, (List.append_assoc _ _ _).symm⟩

/-- Ends that overlap: everything behind the prefix is returned. -/
theorem trimPrefixSuffix_of_overlap (hsize : filename.length < 2 ^ 64)
    (hoverlap : Overlap filename prefixText suffixText) :
    trimPrefixSuffix filename prefixText suffixText =
      filename.drop prefixText.length := by
  obtain ⟨hfront, hback, hlength⟩ := hoverlap
  have hle := hfront.length_le
  have hle' := hback.length_le
  have hcount : filename.length - prefixText.length ≤
      sizeT (filename.length - prefixText.length - suffixText.length) := by
    rw [sizeT]
    omega
  rw [trimPrefixSuffix, startswith_iff.mpr hfront, endswith_iff.mpr hback,
    Bool.and_self, if_pos rfl, substr, List.take_of_length_le]
  rwa [List.length_drop]

theorem trim_law_iff (hsize : filename.length < 2 ^ 64) :
    (prefixText ++ trimPrefixSuffix filename prefixText suffixText ++
          suffixText = filename ∨
        trimPrefixSuffix filename prefixText suffixText = filename) ↔
      ¬ Overlap filename prefixText suffixText := by
  by_cases hoverlap : Overlap filename prefixText suffixText
  · rw [trimPrefixSuffix_of_overlap hsize hoverlap, iff_false_right
      (not_not.mpr hoverlap)]
    obtain ⟨hfront, hback, hlength⟩ := hoverlap
    have hle := hfront.length_le
    have hle' := hback.length_le
    -- In both equations the lengths do not fit.
    rintro (hwhole | hsame)
    · have hlengths := congrArg List.length hwhole
      simp only [List.length_append, List.length_drop] at hlengths
      omega
    · have hlengths := congrArg List.length hsame
      rw [List.length_drop] at hlengths
      omega
  · rw [iff_true_right hoverlap]
    by_cases hends : prefixText <+: filename ∧ suffixText <:+ filename
    · obtain ⟨middle, rfl⟩ := exists_middle hends.1 hends.2 (by
        by_contra hlength
        exact hoverlap ⟨hends.1, hends.2, not_le.mp hlength⟩)
      rw [trimPrefixSuffix_append _ _ _ hsize]
      exact .inl rfl
    · right
      rw [trimPrefixSuffix, if_neg]
      rwa [Bool.and_eq_true, startswith_iff, endswith_iff]

/-- The trimmed name can be put together again, or is the name itself, exactly
when the two ends do not overlap; what stands between two ends is always cut
out. -/
theorem trimPrefixSuffix_laws (filename prefixText suffixText : ByteString)
    (hsize : filename.length < 2 ^ 64) :
    ((prefixText ++ trimPrefixSuffix filename prefixText suffixText ++
          suffixText = filename ∨
        trimPrefixSuffix filename prefixText suffixText = filename) ↔
      ¬ Overlap filename prefixText suffixText) ∧
    ∀ middle, filename = prefixText ++ middle ++ suffixText →
      trimPrefixSuffix filename prefixText suffixText = middle := by
  refine ⟨trim_law_iff hsize, ?_⟩
  rintro middle rfl
  exact trimPrefixSuffix_append prefixText middle suffixText hsize

/-- A log file with its directory and its extension. -/
theorem trimPrefixSuffix_laws_log :
    trimPrefixSuffix (ascii "log/app.txt") (ascii "log/") (ascii ".txt") =
        ascii "app" ∧
      (ascii "log/" ++
            trimPrefixSuffix (ascii "log/app.txt") (ascii "log/")
              (ascii ".txt") ++ ascii ".txt" = ascii "log/app.txt" ∨
        trimPrefixSuffix (ascii "log/app.txt") (ascii "log/")
          (ascii ".txt") = ascii "log/app.txt") :=
  ⟨(trimPrefixSuffix_laws _ _ _ (by decide)).2 (ascii "app") (by decide),
    (trimPrefixSuffix_laws _ _ _ (by decide)).1.mpr (by
      rintro ⟨-, -, hlength⟩
      exact absurd hlength (by decide))⟩

/-- The prefix `ab` and the suffix `ba` of `aba`: the code returns `a`. -/
theorem trimPrefixSuffix_overlap_aba :
    ¬ ∀ filename prefixText suffixText : ByteString,
      prefixText ++ trimPrefixSuffix filename prefixText suffixText ++
          suffixText = filename ∨
        trimPrefixSuffix filename prefixText suffixText = filename := by
  intro hall
  have hlaw := hall (ascii "aba") (ascii "ab") (ascii "ba")
  revert hlaw
  decide

end KataCpp.StringUtil
