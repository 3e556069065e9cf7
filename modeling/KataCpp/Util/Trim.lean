import KataCpp.Core.Trimming
import KataCpp.Text.Tokenizer

/-!
# Trimming at one end or both

`trim`, which `TinyUtil.cpp` and `string_util.cpp` both spell out, takes the
part between the first and the last character that is not whitespace; `ltrim`
and `rtrim` look at one end only, and the length that `ltrim` asks for is one
too long.  `trim_space` erases in place: when there is nothing but whitespace,
the position behind the last other character is `npos + 1`, which is 0, and the
whole string goes.  They all cut off the same characters.
-/

namespace KataCpp.Trim

open Bytes StringUtil Tokenizer Trimming

variable {str whitespace : ByteString}

def ltrim (str whitespace : ByteString) : ByteString :=
  match findFirstNotOf str whitespace with
  | none => []
  | some strBegin =>
    let strRange := (str.length - strBegin + 1) % 2 ^ 64
    substr str strBegin strRange

def rtrim (str whitespace : ByteString) : ByteString :=
  match findLastNotOf str whitespace with
  | none => []
  | some strEnd =>
    let strRange := (strEnd + 1) % 2 ^ 64
    substr str 0 strRange

/-- `std::string::npos`, which is above the length of every string. -/
def npos : ℕ := 2 ^ 64 - 1

/-- `str.erase(pos, len)`, which throws when `pos` is behind the end. -/
def erase (str : ByteString) (pos len : ℕ) : Option ByteString :=
  if str.length < pos then none
  else some (str.take pos ++ str.drop (pos + len))

def spaces : ByteString := ascii " \n\r\t"

/-- What `trim_space` leaves in its argument. -/
def trimSpace (str : ByteString) : Option ByteString := do
  let str ← erase str (((findLastNotOf str spaces).getD npos + 1) % 2 ^ 64) npos
  erase str 0 ((findFirstNotOf str spaces).getD npos)

def trimCopy (s : ByteString) : Option ByteString :=
  trimSpace s

theorem findFirstNotOf_cases (str whitespace : ByteString) :
    (findFirstNotOf str whitespace = none ∧
      str.dropWhile (· ∈ whitespace) = []) ∨
    ∃ strBegin < str.length,
      findFirstNotOf str whitespace = some strBegin ∧
      str.dropWhile (· ∈ whitespace) = str.drop strBegin := by
  have hdrop : str.dropWhile (· ∈ whitespace) =
      str.drop (str.findIdx (· ∉ whitespace)) := by
    rw [List.dropWhile_eq_drop_findIdx_not]
    simp only [decide_not]
  by_cases hexists : ∃ c ∈ str, decide (c ∉ whitespace) = true
  · right
    exact ⟨_, List.findIdx_lt_length_of_exists hexists,
      List.findIdx?_eq_some_of_exists hexists, hdrop⟩
  · left
    push Not at hexists
    constructor
    · rw [findFirstNotOf, List.findIdx?_eq_none_iff]
      intro c hc
      simpa using hexists c hc
    · rw [List.dropWhile_eq_nil_iff]
      intro c hc
      simpa using hexists c hc

theorem findLastNotOf_cases (str whitespace : ByteString) :
    (findLastNotOf str whitespace = none ∧
      str.rdropWhile (· ∈ whitespace) = []) ∨
    ∃ strEnd < str.length,
      findLastNotOf str whitespace = some strEnd ∧
      str.rdropWhile (· ∈ whitespace) = str.take (strEnd + 1) := by
  -- The last position is the first one of the string read backwards.
  have hlast : findLastNotOf str whitespace =
      (findFirstNotOf str.reverse whitespace).map (str.length - 1 - ·) := rfl
  rw [hlast, List.rdropWhile]
  obtain ⟨hnone, hdrop⟩ | ⟨first, hfirst, hsome, hdrop⟩ :=
    findFirstNotOf_cases str.reverse whitespace
  · left
    rw [hnone, hdrop]
    exact ⟨rfl, rfl⟩
  · right
    rw [List.length_reverse] at hfirst
    refine ⟨str.length - 1 - first, by omega, by rw [hsome]; rfl, ?_⟩
    rw [hdrop, List.drop_reverse, List.reverse_reverse]
    congr 1
    omega

theorem ltrim_eq (hsize : str.length < npos) :
    ltrim str whitespace = str.dropWhile (· ∈ whitespace) := by
  rw [npos] at hsize
  obtain ⟨hnone, hdrop⟩ | ⟨strBegin, hbegin, hsome, hdrop⟩ :=
    findFirstNotOf_cases str whitespace
  · rw [ltrim, hnone, hdrop]
  · rw [ltrim, hsome, hdrop]
    simp only [substr]
    apply List.take_of_length_le
    rw [List.length_drop, Nat.mod_eq_of_lt (by omega)]
    omega

theorem rtrim_eq (hsize : str.length < npos) :
    rtrim str whitespace = str.rdropWhile (· ∈ whitespace) := by
  rw [npos] at hsize
  obtain ⟨hnone, htake⟩ | ⟨strEnd, hend, hsome, htake⟩ :=
    findLastNotOf_cases str whitespace
  · rw [rtrim, hnone, htake]
  · rw [rtrim, hsome, htake]
    simp only [substr]
    rw [List.drop_zero, Nat.mod_eq_of_lt (by omega)]

theorem erase_back (hsize : str.length < npos) :
    erase str (((findLastNotOf str whitespace).getD npos + 1) % 2 ^ 64) npos =
      some (str.rdropWhile (· ∈ whitespace)) := by
  have hall : ∀ pos, str.drop (pos + npos) = [] := by
    intro pos
    apply List.drop_of_length_le
    omega
  rw [npos] at hsize
  obtain ⟨hnone, htake⟩ | ⟨strEnd, hend, hsome, htake⟩ :=
    findLastNotOf_cases str whitespace
  · have hwrapped : (npos + 1) % 2 ^ 64 = 0 := by decide
    rw [hnone, Option.getD_none, hwrapped, htake, erase, hall,
      if_neg (by omega), List.take_zero, List.append_nil]
  · rw [hsome, Option.getD_some, Nat.mod_eq_of_lt (by omega), htake, erase,
      hall, if_neg (by omega), List.append_nil]

theorem erase_front (hsize : str.length < npos) :
    erase str 0 ((findFirstNotOf str whitespace).getD npos) =
      some (str.dropWhile (· ∈ whitespace)) := by
  rw [erase, if_neg (by omega), List.take_zero, List.nil_append, Nat.zero_add]
  obtain ⟨hnone, hdrop⟩ | ⟨strBegin, hbegin, hsome, hdrop⟩ :=
    findFirstNotOf_cases str whitespace
  · rw [hnone, hdrop, Option.getD_none, List.drop_of_length_le hsize.le]
  · rw [hsome, hdrop, Option.getD_some]

theorem trimSpace_eq (hsize : str.length < npos) :
    trimSpace str =
      some ((str.rdropWhile (· ∈ spaces)).dropWhile (· ∈ spaces)) := by
  have hkept := (List.rdropWhile_prefix (· ∈ spaces) str).length_le
  rw [trimSpace, erase_back hsize, Option.bind_eq_bind, Option.bind_some,
    erase_front (by omega)]

theorem isTrimmed_trim (str whitespace : ByteString) :
    IsTrimmed (· ∈ whitespace) str (trim str whitespace) := by
  rw [trim_eq]
  exact isTrimmed_front_back _ str

/-- The trimming functions agree: what they leave is the string without the
whitespace at its two ends. -/
theorem trim_functions_agree (str whitespace : ByteString)
    (hsize : str.length < npos) :
    trim str whitespace = ltrim (rtrim str whitespace) whitespace ∧
    trim str whitespace = rtrim (ltrim str whitespace) whitespace ∧
    IsTrimmed (· ∈ whitespace) str (trim str whitespace) ∧
    trim (trim str whitespace) whitespace = trim str whitespace ∧
    trimSpace str = some (trim str spaces) ∧
    trimCopy str = some (trim str spaces) := by
  have htrimmed := isTrimmed_trim str whitespace
  have hright := (List.rdropWhile_prefix (· ∈ whitespace) str).length_le
  have hleft := (List.dropWhile_suffix (l := str) (· ∈ whitespace)).length_le
  have hspaces : trimSpace str = some (trim str spaces) := by
    rw [trimSpace_eq hsize, trim_eq, (isTrimmed_back_front _ str).eq]
  refine ⟨?_, ?_, htrimmed, ?_, hspaces, hspaces⟩
  · rw [rtrim_eq hsize, ltrim_eq (by omega), trim_eq]
    exact (isTrimmed_back_front _ str).eq.symm
  · rw [ltrim_eq hsize, rtrim_eq (by omega), trim_eq]
  · rw [trim_eq (trim str whitespace)]
    exact htrimmed.self.eq.symm

theorem trim_functions_agree_tab_key :
    trim (ascii "\t key = 1 \n") spaces = ascii "key = 1" ∧
    trim (ascii "\t key = 1 \n") spaces =
      ltrim (rtrim (ascii "\t key = 1 \n") spaces) spaces ∧
    trimSpace (ascii "\t key = 1 \n") =
      some (trim (ascii "\t key = 1 \n") spaces) := by
  have hagree := trim_functions_agree (ascii "\t key = 1 \n") spaces
    (by decide)
  exact ⟨by decide, hagree.1, hagree.2.2.2.2.1⟩

/-- Nothing but whitespace. -/
example : trimSpace (ascii " \t\n") = some [] := by decide

end KataCpp.Trim
