import KataCpp.Core.Bytes
import KataCpp.Core.SubstringSearch

/-!
# Masking the value behind a key

`ReplaceValueAsKey` replaces what stands between a key and the next separator
by a mask.  It looks for the separator from the start of the key on, not from
its end, so a separator that begins inside the key is taken for the end of the
value.

Secrecy is a property of two runs: strings that differ only in the value must
give the same output.  It is settled here for every key and separator.
-/

namespace KataCpp.ReplaceValue

open Bytes SubstringSearch

/-- The return value and the string after the call. -/
def replaceValueAsKey (str : ByteString) (key mask sep : CString) :
    Bool × ByteString :=
  match find str key.bytes 0 with
  | none => (false, str)
  | some nBegin =>
      match find str sep.bytes nBegin with
      | none => (true, str.take nBegin ++ key.bytes ++ mask.bytes)
      | some nEnd =>
          (true, str.take nBegin ++ key.bytes ++ mask.bytes ++ str.drop nEnd)

/-- The strings agree up to the end of the first key, and from the first
separator behind it on; what stands in between may differ. -/
structure SameExceptValue (key sep : CString) (left right : ByteString)
    (nBegin : ℕ) : Prop where
  find_left : find left key.bytes 0 = some nBegin
  find_right : find right key.bytes 0 = some nBegin
  take_eq : left.take (nBegin + key.bytes.length) =
    right.take (nBegin + key.bytes.length)
  rest_eq : (find left sep.bytes (nBegin + key.bytes.length)).map left.drop =
    (find right sep.bytes (nBegin + key.bytes.length)).map right.drop

/-- No separator can begin inside the key, whatever follows the key. -/
def SepApart (key sep : ByteString) : Prop :=
  ∀ index < key.length,
    ¬ sep <+: key.drop index ∧ ¬ key.drop index <+: sep

instance (key sep : ByteString) : Decidable (SepApart key sep) :=
  inferInstanceAs (Decidable (∀ index < _, _))

variable {key mask sep : CString}

/-- Behind an occurrence of the key a separator begins inside it only if the
two overlap. -/
theorem overlap_of_occurs {str rest : ByteString} {index : ℕ}
    (hstr : str = key.bytes.drop index ++ rest) (hsep : sep.bytes <+: str) :
    sep.bytes <+: key.bytes.drop index ∨ key.bytes.drop index <+: sep.bytes :=
  List.prefix_or_prefix_of_prefix hsep (hstr ▸ List.prefix_append _ _)

/-- With the separator apart from the key it does not matter that the search
starts at the key. -/
theorem find_sep_eq (hapart : SepApart key.bytes sep.bytes) {str : ByteString}
    {nBegin : ℕ} (hkey : key.bytes <+: str.drop nBegin) :
    find str sep.bytes nBegin =
      find str sep.bytes (nBegin + key.bytes.length) := by
  obtain ⟨rest, hrest⟩ := hkey
  apply find_eq_find_of_le (Nat.le_add_right _ _)
  intro index hstart hend hsep
  have hinside : index - nBegin < key.bytes.length := by omega
  have hdrop : str.drop index =
      key.bytes.drop (index - nBegin) ++ rest := by
    rw [← List.drop_append_of_le_length hinside.le, hrest, List.drop_drop]
    congr 1
    omega
  have hdisjoint := hapart _ hinside
  rcases overlap_of_occurs hdrop hsep with hin | hover
  · exact hdisjoint.1 hin
  · exact hdisjoint.2 hover

/-- The output as a function of what the two runs share. -/
theorem replaceValueAsKey_eq (hapart : SepApart key.bytes sep.bytes)
    {str : ByteString} {nBegin : ℕ}
    (hkey : find str key.bytes 0 = some nBegin) :
    replaceValueAsKey str key mask sep =
      (true, str.take nBegin ++ key.bytes ++ mask.bytes ++
        ((find str sep.bytes (nBegin + key.bytes.length)).map
          str.drop).getD []) := by
  have hoccurs := (find_eq_some_iff.mp hkey).2.2.1
  rw [replaceValueAsKey, hkey]
  simp only
  rw [find_sep_eq hapart hoccurs]
  cases find str sep.bytes (nBegin + key.bytes.length) with
  | none => simp
  | some nEnd => rfl

def SameOutput (key mask sep : CString) (left right : ByteString) : Prop :=
  (replaceValueAsKey left key mask sep).1 = true ∧
    (replaceValueAsKey right key mask sep).1 = true ∧
    (replaceValueAsKey left key mask sep).2 =
      (replaceValueAsKey right key mask sep).2

theorem sameOutput_of_sepApart (hapart : SepApart key.bytes sep.bytes)
    {left right : ByteString} {nBegin : ℕ}
    (h : SameExceptValue key sep left right nBegin) :
    SameOutput key mask sep left right := by
  have hbefore : left.take nBegin = right.take nBegin := by
    have htake := congrArg (List.take nBegin) h.take_eq
    rwa [List.take_take, List.take_take, Nat.min_eq_left
      (Nat.le_add_right _ _)] at htake
  rw [SameOutput, replaceValueAsKey_eq hapart h.find_left,
    replaceValueAsKey_eq hapart h.find_right, h.rest_eq, hbefore]
  exact ⟨rfl, rfl, rfl⟩

/-- The key and as much of the separator as does not fit into the key from
`index` on. -/
def leakingPrefix (key sep : ByteString) (index : ℕ) : ByteString :=
  key ++ sep.drop (key.length - index)

theorem sep_prefix_drop_leakingPrefix {key sep : ByteString} {index : ℕ}
    (hindex : index < key.length)
    (hoverlap : sep <+: key.drop index ∨ key.drop index <+: sep) :
    sep <+: (leakingPrefix key sep index).drop index := by
  rw [leakingPrefix, List.drop_append_of_le_length hindex.le]
  rcases hoverlap with hin | ⟨rest, hover⟩
  · exact hin.trans (List.prefix_append _ _)
  · have hrest : sep.drop (key.length - index) = rest := by
      rw [← hover, ← List.length_drop, List.drop_left]
    rw [hrest, hover]

/-- Behind the key of the leaking strings there is no separator: too few bytes
follow, and a NUL is not part of a C string. -/
theorem find_sep_leakingPrefix (hsep : sep.bytes ≠ []) {index : ℕ}
    (hindex : index < key.bytes.length) {extra : ByteString}
    (hextra : extra = [] ∨ extra = [0]) :
    find (leakingPrefix key.bytes sep.bytes index ++ extra) sep.bytes
      key.bytes.length = none := by
  rw [find_eq_none_iff]
  intro later hlater hlength hoccurs
  have hpos : 0 < sep.bytes.length := List.length_pos_iff.mpr hsep
  obtain ⟨skipped, rfl⟩ := Nat.exists_eq_add_of_le hlater
  rw [leakingPrefix, List.append_assoc, List.drop_append,
    List.drop_eq_nil_of_le (Nat.le_add_right _ _), List.nil_append,
    Nat.add_sub_cancel_left] at hoccurs
  have hle := hoccurs.length_le
  rw [List.length_drop, List.length_append, List.length_drop] at hle
  rcases hextra with rfl | rfl
  · simp only [List.length_nil] at hle
    omega
  · -- The separator would have to be everything behind the key.
    simp only [List.length_singleton] at hle
    obtain rfl : skipped = 0 := by omega
    have hwhole := hoccurs.eq_of_length (by
      simp only [List.drop_zero, List.length_append, List.length_drop,
        List.length_singleton]
      omega)
    apply sep.zero_notMem
    rw [hwhole]
    simp

theorem find_key_append (key : CString) (rest : ByteString) :
    find (key.bytes ++ rest) key.bytes 0 = some 0 := by
  rw [find_eq_some_iff]
  simp

/-- The first overlap is taken for the end of the value. -/
theorem replaceValueAsKey_leakingPrefix {index : ℕ}
    (hindex : index < key.bytes.length)
    (hoverlap : sep.bytes <+: key.bytes.drop index ∨
      key.bytes.drop index <+: sep.bytes)
    (hfirst : ∀ earlier < index,
      ¬ (sep.bytes <+: key.bytes.drop earlier ∨
        key.bytes.drop earlier <+: sep.bytes))
    (extra : ByteString) :
    (replaceValueAsKey (leakingPrefix key.bytes sep.bytes index ++ extra)
        key mask sep).2 =
      key.bytes ++ mask.bytes ++
        (leakingPrefix key.bytes sep.bytes index ++ extra).drop index := by
  have hkey : find (leakingPrefix key.bytes sep.bytes index ++ extra)
      key.bytes 0 = some 0 := by
    rw [leakingPrefix, List.append_assoc]
    exact find_key_append key _
  have hlength : index ≤ (leakingPrefix key.bytes sep.bytes index).length := by
    rw [leakingPrefix, List.length_append]
    omega
  have hfind : find (leakingPrefix key.bytes sep.bytes index ++ extra)
      sep.bytes 0 = some index := by
    rw [find_eq_some_iff]
    refine ⟨Nat.zero_le _, ?_, ?_, ?_⟩
    · rw [List.length_append]
      omega
    · rw [List.drop_append_of_le_length hlength]
      exact (sep_prefix_drop_leakingPrefix hindex hoverlap).trans
        (List.prefix_append _ _)
    · intro earlier _ hless hoccurs
      have hdrop :
          (leakingPrefix key.bytes sep.bytes index ++ extra).drop earlier =
            key.bytes.drop earlier ++
              (sep.bytes.drop (key.bytes.length - index) ++ extra) := by
        rw [leakingPrefix, List.append_assoc,
          List.drop_append_of_le_length (by omega)]
      exact hfirst earlier hless (overlap_of_occurs hdrop hoccurs)
  rw [replaceValueAsKey, hkey]
  simp only [hfind, List.take_zero, List.nil_append]

/-- Two strings that differ behind the key only, and give different outputs. -/
theorem exists_leak (hsep : sep.bytes ≠ [])
    (hoverlap : ¬ SepApart key.bytes sep.bytes) :
    ∃ left right, SameExceptValue key sep left right 0 ∧
      ¬ SameOutput key mask sep left right := by
  have hexists : ∃ index, index < key.bytes.length ∧
      (sep.bytes <+: key.bytes.drop index ∨
        key.bytes.drop index <+: sep.bytes) := by
    simp only [SepApart, not_forall, not_and_or, not_not] at hoverlap
    obtain ⟨index, hindex, h⟩ := hoverlap
    exact ⟨index, hindex, h⟩
  obtain ⟨hindex, hhere⟩ := Nat.find_spec hexists
  have hfirst : ∀ earlier < Nat.find hexists,
      ¬ (sep.bytes <+: key.bytes.drop earlier ∨
        key.bytes.drop earlier <+: sep.bytes) :=
    fun earlier hless h => Nat.find_min hexists hless ⟨by omega, h⟩
  generalize Nat.find hexists = index at hindex hhere hfirst
  refine ⟨leakingPrefix key.bytes sep.bytes index ++ [],
    leakingPrefix key.bytes sep.bytes index ++ [0], ?_, ?_⟩
  · constructor
    case find_left =>
      rw [leakingPrefix, List.append_assoc]
      exact find_key_append key _
    case find_right =>
      rw [leakingPrefix, List.append_assoc]
      exact find_key_append key _
    case take_eq =>
      simp [leakingPrefix]
    case rest_eq =>
      rw [Nat.zero_add, find_sep_leakingPrefix hsep hindex (.inl rfl),
        find_sep_leakingPrefix hsep hindex (.inr rfl)]
      rfl
  · rintro ⟨-, -, hsame⟩
    rw [replaceValueAsKey_leakingPrefix hindex hhere hfirst,
      replaceValueAsKey_leakingPrefix hindex hhere hfirst] at hsame
    have hlengths := congrArg List.length (List.append_cancel_left hsame)
    simp only [List.length_drop, List.length_append, List.length_nil,
      List.length_singleton, leakingPrefix] at hlengths
    omega

/-- The value is hidden, for a key and a separator, exactly when no separator
can begin inside the key. -/
theorem replaceValueAsKey_hides_iff (key mask sep : CString)
    (hsep : sep.bytes ≠ []) :
    (∀ left right nBegin, SameExceptValue key sep left right nBegin →
        SameOutput key mask sep left right) ↔
      SepApart key.bytes sep.bytes := by
  constructor
  · intro hhides
    by_contra hoverlap
    obtain ⟨left, right, hsame, hdifferent⟩ := exists_leak hsep hoverlap
    exact hdifferent (hhides left right 0 hsame)
  · intro hapart left right nBegin hsame
    exact sameOutput_of_sepApart hapart hsame

/-- The key and the separator of the test, with two passwords. -/
theorem replaceValueAsKey_hides_password :
    SameOutput ⟨ascii "password=", by decide⟩ ⟨ascii "******", by decide⟩
      ⟨ascii "&", by decide⟩ (ascii "u=W&password=abc&e=")
      (ascii "u=W&password=secret&e=") :=
  (replaceValueAsKey_hides_iff _ _ _ (by decide)).mpr (by decide) _ _ 4
    ⟨by decide, by decide, by decide, by decide⟩

/-- With the key `"a&b="` the separator inside the key ends the value, and the
output still shows it. -/
theorem replaceValueAsKey_shows_value :
    ¬ ∀ (key mask sep : CString), key.bytes ≠ [] → sep.bytes ≠ [] →
      ∀ left right nBegin, SameExceptValue key sep left right nBegin →
        SameOutput key mask sep left right := by
  intro hall
  have hsame := hall ⟨ascii "a&b=", by decide⟩ ⟨ascii "**", by decide⟩
    ⟨ascii "&", by decide⟩ (by decide) (by decide)
    (ascii "a&b=x") (ascii "a&b=y") 0
    ⟨by decide, by decide, by decide, by decide⟩
  exact absurd hsame.2.2 (by decide)

end KataCpp.ReplaceValue
