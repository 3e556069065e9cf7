import KataCpp.Core.Ranking
import KataCpp.Text.WordBank

/-!
# Ranks of words

`getWordRank` counts the words of the bank that are more frequent than the
given one, and `sortWords` lists the words by descending frequency, words of
the same frequency in any order.  The two agree: in the sorted list exactly the
more frequent words stand before the position that the rank names, and a word
of the same frequency stands at it.

Ranks and frequencies are `int`s.  With `2 ^ 31` distinct words the number of
words comes out negative, and after `2 ^ 32` increments the count of a word is
zero again, so that the word is taken to be absent.  Short of that the ranks are
right.
-/

namespace KataCpp.WordBank

open Bytes MachineInt Ranking TextInput

/-- What `std::sort` by `comparePair` promises. -/
def SortsByComparePair
    (sort : List (ByteString × ℤ) → List (ByteString × ℤ)) : Prop :=
  ∀ entries, (sort entries).Perm entries ∧
    (sort entries).Pairwise fun first later =>
      comparePair later first = false

/-- Reading the word sets or increases the count under the key.  A word is
looked up under its letters before a NUL byte, and entered under all of
them. -/
def counts (bank : WordBank) (word key : ByteString) : Bool :=
  if bank.hasWord word then convertString (cString word) = key
  else convertString word = key ∧ key ≠ [] ∧ bank.mapWords[key]? = none

/-- How often the count under a key is set or increased while words are
read. -/
def increments (key : ByteString) : WordBank → List ByteString → ℕ
  | _, [] => 0
  | bank, word :: words =>
      (bank.counts word key).toNat + increments key (bank.readWord word) words

theorem readWord_count (bank : WordBank) (word key : ByteString) :
    (bank.readWord word).mapWords[key]? =
      if bank.counts word key then
        some (wrap32 (bank.mapWords[key]?.getD 0 + 1))
      else bank.mapWords[key]? := by
  rw [readWord_getElem?, counts]
  split
  · next hhas =>
      rw [hasWord, Std.ExtTreeMap.contains_eq_isSome_getElem?] at hhas
      by_cases hkey : convertString (cString word) = key
      · obtain ⟨count, hcount⟩ := Option.isSome_iff_exists.mp (hkey ▸ hhas)
        simp [hkey, hcount]
      · simp [hkey]
  · by_cases hnew : convertString word = key ∧ key ≠ []
    · cases hcount : bank.mapWords[key]? with
      | none => simp [hnew, show wrap32 1 = 1 by decide]
      | some count => simp [hnew]
    · rw [if_neg hnew, if_neg]
      simp only [decide_eq_true_eq, not_and]
      exact fun hword hkey => absurd ⟨hword, hkey⟩ hnew

/-- The count of a word is the number of increments, reduced to 32 bits. -/
theorem foldl_count {key : ByteString} (seen : List ByteString)
    {bank : WordBank} {times : ℕ}
    (hbank : bank.mapWords[key]? =
      if times = 0 then none else some (wrap32 times)) :
    (seen.foldl readWord bank).mapWords[key]? =
      if times + increments key bank seen = 0 then none
      else some (wrap32 (times + increments key bank seen : ℕ)) := by
  induction seen generalizing bank times with
  | nil => exact hbank
  | cons word seen ih =>
      rw [List.foldl_cons, increments, ← Nat.add_assoc]
      apply ih
      rw [readWord_count, hbank]
      cases bank.counts word key with
      | false => exact if_neg Bool.false_ne_true
      | true =>
          rw [if_pos rfl, Bool.toNat_true, if_neg (Nat.succ_ne_zero times),
            Nat.cast_succ]
          split
          · next hzero => rw [hzero, Option.getD_none, Nat.cast_zero]
          · rw [Option.getD_some, wrap32_wrap32_add_one]

/-- Short of `2 ^ 32` increments the count of a word is not zero. -/
theorem count_ne_zero_of_foldl {seen : List ByteString} {key : ByteString}
    {count : ℤ} (hcount : (seen.foldl readWord initial).mapWords[key]? =
      some count)
    (hfits : increments key initial seen < 2 ^ 32) : count ≠ 0 := by
  have htimes := @foldl_count key seen initial 0 (by simp [initial])
  rw [Nat.zero_add, hcount] at htimes
  split at htimes
  · contradiction
  · rw [Option.some.inj htimes]
    exact wrap32_ne_zero (by omega) (by omega)

theorem readWord_vecWords (bank : WordBank) (word : ByteString) :
    (bank.readWord word).vecWords = bank.vecWords := by
  simp only [readWord, increaseWordCount, addWord]
  split <;> split <;> rfl

theorem foldl_vecWords (seen : List ByteString) (bank : WordBank) :
    (seen.foldl readWord bank).vecWords = bank.vecWords := by
  induction seen generalizing bank with
  | nil => rfl
  | cons word seen ih => rw [List.foldl_cons, ih, readWord_vecWords]

theorem SortsByComparePair.descending
    {sort : List (ByteString × ℤ) → List (ByteString × ℤ)}
    (hsort : SortsByComparePair sort) (entries : List (ByteString × ℤ)) :
    Descending Prod.snd (sort entries) := by
  apply (hsort entries).2.imp
  intro first later hordered
  simpa [comparePair] using hordered

/-- The loop of `getWordRank` counts the entries above `count`. -/
theorem foldl_rank (entries : List (ByteString × ℤ)) (count : ℤ)
    (rank : ℕ) (hfits : rank + above Prod.snd entries count < 2 ^ 31) :
    entries.foldl
      (fun rank entry =>
        if entry.2 > count then wrap32 (rank + 1) else rank) (rank : ℤ) =
      (rank + above Prod.snd entries count : ℕ) := by
  induction entries generalizing rank with
  | nil => simp [above]
  | cons entry entries ih =>
      rw [List.foldl_cons]
      -- the bound is on the final rank, so no increment on the way overflows
      by_cases habove : entry.2 > count
      · have hmore : above Prod.snd (entry :: entries) count =
            above Prod.snd entries count + 1 :=
          List.countP_cons_of_pos (by simpa using habove)
        rw [hmore] at hfits ⊢
        have hnext : wrap32 (rank + 1) = ((rank + 1 : ℕ) : ℤ) := by
          rw [wrap32_eq_self (by omega) (by omega), Nat.cast_succ]
        rw [if_pos habove, hnext, ih (rank + 1) (by omega), Nat.add_assoc,
          Nat.add_comm 1]
      · have hsame : above Prod.snd (entry :: entries) count =
            above Prod.snd entries count :=
          List.countP_cons_of_neg (by simpa using habove)
        rw [hsame] at hfits ⊢
        rw [if_neg habove, ih rank hfits]

theorem above_lt_size {map : Std.ExtTreeMap ByteString ℤ} {key : ByteString}
    {count : ℤ} (hcount : map[key]? = some count) :
    above Prod.snd map.toList count < map.size := by
  have hentry := Std.ExtTreeMap.mem_toList_iff_getElem?_eq_some.mpr hcount
  rw [← Std.ExtTreeMap.length_toList]
  exact @above_lt_length _ _ _ Prod.snd _ _ hentry

/-- The rank of a word is one more than the number of more frequent words. -/
theorem getWordRank_eq {bank : WordBank} {word : ByteString} {count : ℤ}
    (hsize : bank.mapWords.size < 2 ^ 31)
    (hcount : bank.mapWords[convertString (cString word)]? = some count)
    (hnonzero : count ≠ 0) :
    bank.getWordRank word =
      (1 + above Prod.snd bank.mapWords.toList count : ℕ) := by
  have hfound : bank.getWordCount word = count := by
    rw [getWordCount, hcount]
  have hbefore := above_lt_size hcount
  have hrank := foldl_rank bank.mapWords.toList count 1 (by omega)
  rw [Nat.cast_one] at hrank
  rw [getWordRank, hfound, if_neg hnonzero, hrank]

/-- After one `sortWords`, the rank of a word of the bank is the first position
in the sorted list that a word of its frequency can have. -/
theorem getWordRank_sortWords
    {sort : List (ByteString × ℤ) → List (ByteString × ℤ)}
    (hsort : SortsByComparePair sort) {content : ByteString}
    {bank : WordBank} (hbank : construct (some content) = .ok bank)
    (hsize : bank.mapWords.size < 2 ^ 31) {word : ByteString}
    (hword : convertString (cString word) ∈ bank.mapWords)
    (hfits : increments (convertString (cString word)) initial
      (words content) < 2 ^ 32) :
    let sorted := bank.sortWords sort
    ∃ rank : ℕ, sorted.getWordRank word = rank ∧ 1 ≤ rank ∧
      rank ≤ sorted.getUniqueWordCount ∧
      (sorted.vecWords.take (rank - 1)).Perm
        (sorted.mapWords.toList.filter fun entry =>
          sorted.getWordCount word < entry.2) ∧
      ∃ entry, sorted.vecWords[rank - 1]? = some entry ∧
        entry.2 = sorted.getWordCount word := by
  intro sorted
  obtain rfl : (words content).foldl readWord initial = bank := by
    simpa [construct] using hbank
  replace hsize : sorted.mapWords.size < 2 ^ 31 := hsize
  obtain ⟨count, hcount⟩ : ∃ count,
      sorted.mapWords[convertString (cString word)]? = some count := by
    rwa [Std.ExtTreeMap.mem_iff_isSome_getElem?, Option.isSome_iff_exists]
      at hword
  have hnonzero := count_ne_zero_of_foldl hcount hfits
  have hfound : sorted.getWordCount word = count := by
    rw [getWordCount, hcount]
  have hentry := Std.ExtTreeMap.mem_toList_iff_getElem?_eq_some.mpr hcount
  have hvec : sorted.vecWords = sort sorted.mapWords.toList := by
    change sort (_ ++ _) = _
    rw [foldl_vecWords]
    rfl
  obtain ⟨hperm, -⟩ := hsort sorted.mapWords.toList
  have hdescending := hsort.descending sorted.mapWords.toList
  have habove : above Prod.snd sorted.mapWords.toList count =
      above Prod.snd (sort sorted.mapWords.toList) count :=
    hperm.symm.countP_eq _
  have hbefore := above_lt_size hcount
  refine ⟨_, getWordRank_eq hsize hcount hnonzero, by omega, ?_, ?_, ?_⟩
  · rw [getUniqueWordCount, wrap32_eq_self (by omega) (by omega)]
    omega
  · rw [Nat.add_sub_cancel_left, hvec, habove, take_above hdescending, hfound]
    exact hperm.filter _
  · rw [Nat.add_sub_cancel_left, hvec, habove, hfound]
    exact getElem?_above hdescending (hperm.mem_iff.mpr hentry)

def sortPairs (entries : List (ByteString × ℤ)) : List (ByteString × ℤ) :=
  entries.mergeSort fun first later => !comparePair later first

theorem sortPairs_sortsByComparePair : SortsByComparePair sortPairs := by
  intro entries
  refine ⟨List.mergeSort_perm _ _, ?_⟩
  have hsorted := @List.pairwise_mergeSort _
    (fun first later => !comparePair later first) ?_ ?_ entries
  · apply hsorted.imp
    intro first later hordered
    simpa using hordered
  · intro first second third
    simp only [comparePair, Bool.not_eq_true', decide_eq_false_iff_not]
    omega
  · intro first second
    simp only [comparePair, Bool.or_eq_true, Bool.not_eq_true',
      decide_eq_false_iff_not]
    omega

/-- In the text `a b b` the word `a` has a rank within the two words. -/
theorem getWordRank_sortWords_two_words :
    ∃ bank, construct (some (ascii "a b b")) = .ok bank ∧
      ∃ rank : ℕ, (bank.sortWords sortPairs).getWordRank (ascii "a") = rank ∧
        1 ≤ rank ∧ rank ≤ (bank.sortWords sortPairs).getUniqueWordCount := by
  have hzero : 0 ∉ ascii "a b b" := by decide
  have hbank := tallies_foldl (notMem_of_mem_words hzero)
  have hconstruct : construct (some (ascii "a b b")) =
      .ok ((words (ascii "a b b")).foldl readWord initial) := rfl
  have hsize : ((words (ascii "a b b")).foldl readWord
      initial).mapWords.size < 2 ^ 31 := by
    rw [hbank.size]
    decide
  have hfits : increments (convertString (cString (ascii "a"))) initial
      (words (ascii "a b b")) < 2 ^ 32 := by
    decide +kernel
  have hword : convertString (cString (ascii "a")) ∈
      ((words (ascii "a b b")).foldl readWord initial).mapWords := by
    rw [hbank.mem_iff]
    decide
  obtain ⟨rank, hrank, hlower, hupper, -⟩ := getWordRank_sortWords
    sortPairs_sortsByComparePair hconstruct hsize hword hfits
  exact ⟨_, hconstruct, rank, hrank, hlower, hupper⟩

/-! ## Too many words for a 32-bit size -/

/-- The number after `index` in base 26, with letters for digits. -/
def letters (index : ℕ) : ByteString :=
  (Nat.digits 26 (index + 1)).map fun digit => (97 + digit).toUInt8

/-- A file with the first `count` of these words. -/
def distinctWords (count : ℕ) : ByteString :=
  (List.range count).flatMap fun index => letters index ++ [32]

theorem letters_ne_nil (index : ℕ) : letters index ≠ [] := by
  simp [letters]

/-- The words consist of lower-case letters, which normalising keeps. -/
theorem letters_lower {index : ℕ} {byte : UInt8}
    (hbyte : byte ∈ letters index) :
    isSpace byte = false ∧ byte ≠ 0 ∧
      (0 < byte && byte < 255 && isAlpha byte) = true ∧
      toLower byte = byte := by
  have hletter : ∀ digit < 26, isSpace (97 + digit).toUInt8 = false ∧
      (97 + digit).toUInt8 ≠ 0 ∧
      (0 < (97 + digit).toUInt8 && (97 + digit).toUInt8 < 255 &&
        isAlpha (97 + digit).toUInt8) = true ∧
      toLower (97 + digit).toUInt8 = (97 + digit).toUInt8 := by
    decide
  obtain ⟨digit, hdigit, rfl⟩ := List.mem_map.mp hbyte
  exact hletter digit (Nat.digits_lt_base (by norm_num) hdigit)

theorem letters_injective : Function.Injective letters := by
  have hdigit : ∀ digit < 26, (97 + digit).toUInt8.toNat - 97 = digit := by
    decide
  have hdecode : ∀ index, (letters index).map (fun byte => byte.toNat - 97) =
      Nat.digits 26 (index + 1) := by
    intro index
    rw [letters, List.map_map]
    apply (List.map_congr_left _).trans (List.map_id _)
    intro digit hmember
    exact hdigit digit (Nat.digits_lt_base (by norm_num) hmember)
  intro first second hequal
  have hdigits := hdecode first
  rw [hequal, hdecode second] at hdigits
  have hnumbers := Nat.digits.injective 26 hdigits
  omega

theorem convertString_letters (index : ℕ) :
    convertString (letters index) = letters index := by
  have hkept : (letters index).filter
      (fun ch => 0 < ch && ch < 255 && isAlpha ch) = letters index :=
    List.filter_eq_self.mpr fun byte hbyte => (letters_lower hbyte).2.2.1
  have hlower : (letters index).map toLower = (letters index).map id :=
    List.map_congr_left fun byte hbyte => (letters_lower hbyte).2.2.2
  rw [convertString, hkept, hlower, List.map_id]

theorem words_distinctWords (count : ℕ) :
    words (distinctWords count) = (List.range count).map letters := by
  rw [distinctWords]
  induction List.range count with
  | nil => rfl
  | cons index indices ih =>
      have hspace : isSpace 32 = true := by decide
      rw [List.flatMap_cons, List.append_assoc, List.singleton_append,
        words_append (letters_ne_nil index)
          (fun byte hbyte => (letters_lower hbyte).1) hspace, ih,
        List.map_cons]

theorem notMem_distinctWords (count : ℕ) :
    ∀ word ∈ words (distinctWords count), 0 ∉ word := by
  intro word hword hzero
  rw [words_distinctWords] at hword
  obtain ⟨index, -, rfl⟩ := List.mem_map.mp hword
  exact (letters_lower hzero).2.1 rfl

/-- A bank of such a file holds all its words. -/
theorem size_distinctWords (count : ℕ) :
    ((words (distinctWords count)).foldl readWord
      initial).mapWords.size = count := by
  have hkeys : (words (distinctWords count)).map convertString =
      (List.range count).map letters := by
    rw [words_distinctWords, List.map_map]
    exact List.map_congr_left fun index _ => convertString_letters index
  have hnodup : ((List.range count).map letters).Nodup :=
    List.nodup_range.map letters_injective
  have hempty : [] ∉ ((List.range count).map letters).toFinset := by
    simp [letters_ne_nil]
  rw [(tallies_foldl (notMem_distinctWords count)).size, hkeys,
    Finset.erase_eq_of_notMem hempty, List.toFinset_card_of_nodup hnodup,
    List.length_map, List.length_range]

theorem letters_mem_distinctWords {count : ℕ} (hcount : 0 < count) :
    convertString (cString (letters 0)) ∈
      ((words (distinctWords count)).foldl readWord initial).mapWords := by
  have hbank := tallies_foldl (notMem_distinctWords count)
  apply hbank.mem_of_mem
  · exact fun hzero => (letters_lower hzero).2.1 rfl
  · rw [words_distinctWords]
    exact List.mem_map_of_mem (List.mem_range.mpr hcount)
  · rw [convertString_letters]
    exact letters_ne_nil 0

/-- When the number of unique words comes out negative, no rank is within
it. -/
theorem rank_out_of_range {bank : WordBank} {count : ℕ}
    (hsize : bank.mapWords.size = count) (hcount : wrap32 count < 0)
    (sort : List (ByteString × ℤ) → List (ByteString × ℤ))
    (word : ByteString) :
    ¬(1 ≤ (bank.sortWords sort).getWordRank word ∧
      (bank.sortWords sort).getWordRank word ≤
        (bank.sortWords sort).getUniqueWordCount) := by
  have hunique : (bank.sortWords sort).getUniqueWordCount = wrap32 count := by
    rw [getUniqueWordCount, sortWords, hsize]
  rintro ⟨hlower, hupper⟩
  rw [hunique] at hupper
  omega

/-! ## Too many copies of a word -/

section Copies

variable {count : ℕ}

theorem words_copies_a (count : ℕ) :
    words (copies (ascii "a") count) = List.replicate count (ascii "a") := by
  apply words_copies (by decide)
  simp [ascii, isSpace]

theorem tallies_copies_a (count : ℕ) :
    Tallies ((words (copies (ascii "a") count)).foldl readWord initial)
      (words (copies (ascii "a") count)) := by
  have hletter : 0 ∉ ascii "a" := by decide
  exact tallies_foldl (notMem_of_mem_words (notMem_copies hletter count))

theorem mem_copies (hcount : 0 < count) :
    convertString (cString (ascii "a")) ∈
      ((words (copies (ascii "a") count)).foldl readWord
        initial).mapWords := by
  apply (tallies_copies_a count).mem_of_mem (by decide) _ (by decide)
  rw [words_copies_a]
  exact List.mem_replicate.mpr ⟨hcount.ne', rfl⟩

/-- When the count of a word comes out as zero, the word has no rank. -/
theorem getWordRank_copies (hcount : wrap32 count = 0)
    (sort : List (ByteString × ℤ) → List (ByteString × ℤ)) :
    (sortWords sort ((words (copies (ascii "a") count)).foldl readWord
      initial)).getWordRank (ascii "a") = 0 := by
  have htally : tally (words (copies (ascii "a") count))
      (convertString (ascii "a")) = count := by
    rw [words_copies_a, tally, List.countP_replicate]
    simp
  have hfound := (tallies_copies_a count).getWordCount
    (show 0 ∉ ascii "a" by decide) (by decide)
  rw [htally, hcount] at hfound
  rw [getWordRank]
  exact if_pos hfound

end Copies

/-- A bank with `2 ^ 31` distinct words has a negative number of unique words,
and a word that occurs `2 ^ 32` times has the rank of an absent one. -/
theorem rank_out_of_range_overflow :
    (∃ bank, construct (some (distinctWords (2 ^ 31))) = .ok bank ∧
      convertString (cString (letters 0)) ∈ bank.mapWords ∧
      ∀ sort, SortsByComparePair sort →
        ¬(1 ≤ (bank.sortWords sort).getWordRank (letters 0) ∧
          (bank.sortWords sort).getWordRank (letters 0) ≤
            (bank.sortWords sort).getUniqueWordCount)) ∧
      ∃ bank, construct (some (copies (ascii "a") (2 ^ 32))) = .ok bank ∧
        convertString (cString (ascii "a")) ∈ bank.mapWords ∧
        ∀ sort, SortsByComparePair sort →
          ¬ 1 ≤ (bank.sortWords sort).getWordRank (ascii "a") := by
  have hnegative : wrap32 (2 ^ 31 : ℕ) < 0 := by decide
  have hwrapped : wrap32 (2 ^ 32 : ℕ) = 0 := by decide
  constructor
  · refine ⟨_, rfl, letters_mem_distinctWords (by norm_num), ?_⟩
    intro sort _
    exact rank_out_of_range (size_distinctWords _) hnegative sort _
  · refine ⟨_, rfl, mem_copies (by norm_num), ?_⟩
    intro sort _
    rw [getWordRank_copies hwrapped]
    decide

end KataCpp.WordBank
