import KataCpp.Core.MachineInt
import KataCpp.Core.TextInput

/-!
# The word bank

`WordBank` reads a text file word by word and counts its words in a map, under
the word's letters in lower case.  The constructor looks a word up with
`hasWord`, enters it with `addWord` and counts it with `increaseWordCount`;
each of the three normalises the word again.  `hasWord` and
`increaseWordCount` do so through `word.data()`, which ends at a NUL byte,
and `addWord` through the whole word.

Counts are `int`s and the total is a `uint32_t` returned as an `int`, so what
the queries return are the numbers of words reduced to 32 bits.
-/

namespace KataCpp

open Bytes MachineInt TextInput

/-- `isalpha` in the "C" locale. -/
def isAlpha (byte : UInt8) : Bool :=
  (65 ≤ byte && byte ≤ 90) || (97 ≤ byte && byte ≤ 122)

/-- `tolower` in the "C" locale. -/
def toLower (byte : UInt8) : UInt8 :=
  if 65 ≤ byte && byte ≤ 90 then byte + 32 else byte

def convertString (word : ByteString) : ByteString :=
  (word.filter fun ch => 0 < ch && ch < 255 && isAlpha ch).map toLower

/-- The string made from `word.data()`, which ends at the first NUL byte. -/
def cString (word : ByteString) : ByteString := word.takeWhile (· != 0)

structure WordBank where
  mapWords : Std.ExtTreeMap ByteString ℤ
  vecWords : List (ByteString × ℤ)
  wordCount : ℕ

/-- `comparePair`: more frequent words come first. -/
def comparePair (first second : ByteString × ℤ) : Bool :=
  first.2 > second.2

namespace WordBank

def getWordCount (bank : WordBank) (word : ByteString) : ℤ :=
  match bank.mapWords[convertString (cString word)]? with
  | some count => count
  | none => 0

def getWordRank (bank : WordBank) (word : ByteString) : ℤ :=
  let count := bank.getWordCount word
  if count = 0 then 0
  else
    bank.mapWords.toList.foldl
      (fun rank entry => if entry.2 > count then wrap32 (rank + 1) else rank) 1

/-- The `uint32_t` counter converted to `int`. -/
def getTotalWordCount (bank : WordBank) : ℤ := wrap32 bank.wordCount

/-- The `size_t` size of the map converted to `int`. -/
def getUniqueWordCount (bank : WordBank) : ℤ := wrap32 bank.mapWords.size

def hasWord (bank : WordBank) (word : ByteString) : Bool :=
  bank.mapWords.contains (convertString (cString word))

def increaseWordCount (bank : WordBank) (word : ByteString) : WordBank :=
  let str := convertString (cString word)
  match bank.mapWords[str]? with
  | some count =>
      { bank with mapWords := bank.mapWords.insert str (wrap32 (count + 1)) }
  | none => bank

def addWord (bank : WordBank) (word : ByteString) : WordBank :=
  let str := convertString word
  if str = [] then bank
  else { bank with mapWords := bank.mapWords.insertIfNew str 1 }

def initial : WordBank := { mapWords := ∅, vecWords := [], wordCount := 0 }

def readWord (bank : WordBank) (word : ByteString) : WordBank :=
  let counted := { bank with wordCount := (bank.wordCount + 1) % 2 ^ 32 }
  if counted.hasWord word then counted.increaseWordCount word
  else counted.addWord word

/-- `WordBank::WordBank` on a file with this content; `none` is a file that
cannot be opened. -/
def construct : Option ByteString → Except String WordBank
  | none => .error "unable open file"
  | some content => .ok ((words content).foldl readWord initial)

/-- `WordBank::sortWords`, with `std::sort` by `comparePair` as a parameter. -/
def sortWords (sort : List (ByteString × ℤ) → List (ByteString × ℤ))
    (bank : WordBank) : WordBank :=
  { bank with vecWords := sort (bank.vecWords ++ bank.mapWords.toList) }

theorem cString_of_notMem {word : ByteString} (hword : 0 ∉ word) :
    cString word = word :=
  List.takeWhile_eq_self_iff.mpr (forall_bne_of_notMem hword)

section Step

variable (bank : WordBank) (word key : ByteString)

theorem increaseWordCount_getElem? :
    (bank.increaseWordCount word).mapWords[key]? =
      if convertString (cString word) = key then
        bank.mapWords[key]?.map fun count => wrap32 (count + 1)
      else bank.mapWords[key]? := by
  by_cases hkey : convertString (cString word) = key
  · subst hkey
    cases hfound : bank.mapWords[convertString (cString word)]? <;>
      simp [increaseWordCount, hfound]
  · rw [if_neg hkey, increaseWordCount]
    cases hfound : bank.mapWords[convertString (cString word)]? with
    | none => rfl
    | some count => simp [Std.ExtTreeMap.getElem?_insert, hkey]

theorem addWord_getElem? :
    (bank.addWord word).mapWords[key]? =
      if convertString word = key ∧ key ≠ [] then
        some (bank.mapWords[key]?.getD 1)
      else bank.mapWords[key]? := by
  by_cases hempty : convertString word = []
  · have hkey : ¬(convertString word = key ∧ key ≠ []) := by
      rintro ⟨rfl, hkey⟩
      exact hkey hempty
    rw [if_neg hkey, addWord, if_pos hempty]
  · rw [addWord, if_neg hempty, Std.ExtTreeMap.getElem?_insertIfNew]
    by_cases hkey : convertString word = key
    · subst hkey
      cases hfound : bank.mapWords[convertString word]? <;>
        simp [Std.ExtTreeMap.mem_iff_isSome_getElem?, hfound, hempty]
    · simp [hkey]

/-- What reading one word does to the count under a key. -/
theorem readWord_getElem? :
    (bank.readWord word).mapWords[key]? =
      if bank.hasWord word then
        if convertString (cString word) = key then
          bank.mapWords[key]?.map fun count => wrap32 (count + 1)
        else bank.mapWords[key]?
      else if convertString word = key ∧ key ≠ [] then
        some (bank.mapWords[key]?.getD 1)
      else bank.mapWords[key]? := by
  by_cases hhas : bank.hasWord word
  · have hstep : bank.readWord word = increaseWordCount
        { bank with wordCount := (bank.wordCount + 1) % 2 ^ 32 } word :=
      if_pos hhas
    rw [if_pos hhas, hstep, increaseWordCount_getElem?]
  · have hstep : bank.readWord word = addWord
        { bank with wordCount := (bank.wordCount + 1) % 2 ^ 32 } word :=
      if_neg hhas
    rw [if_neg hhas, hstep, addWord_getElem?]

theorem readWord_wordCount :
    (bank.readWord word).wordCount = (bank.wordCount + 1) % 2 ^ 32 := by
  simp only [readWord, increaseWordCount, addWord]
  split <;> split <;> rfl

end Step

section Counts

variable {bank : WordBank} {seen : List ByteString} {word : ByteString}

/-- The number of words that normalise to the key. -/
def tally (seen : List ByteString) (key : ByteString) : ℕ :=
  seen.countP fun word => convertString word = key

theorem tally_append (seen : List ByteString) (word key : ByteString) :
    tally (seen ++ [word]) key =
      tally seen key + if convertString word = key then 1 else 0 := by
  simp [tally, List.countP_append, List.countP_singleton]

/-- The bank holds the words that have been read, each under its key and with
its number, and has counted them all. -/
structure Tallies (bank : WordBank) (seen : List ByteString) : Prop where
  mapWords : ∀ key : ByteString, bank.mapWords[key]? =
    if key = [] ∨ tally seen key = 0 then none
    else some (wrap32 (tally seen key))
  wordCount : bank.wordCount = seen.length % 2 ^ 32

theorem Tallies.hasWord_iff (hbank : Tallies bank seen) (hword : 0 ∉ word) :
    bank.hasWord word = true ↔
      convertString word ≠ [] ∧ tally seen (convertString word) ≠ 0 := by
  rw [hasWord, cString_of_notMem hword,
    Std.ExtTreeMap.contains_eq_isSome_getElem?, hbank.mapWords, ← not_or]
  split
  · next habsent => simp [habsent]
  · next hpresent => simp [hpresent]

theorem Tallies.readWord (hbank : Tallies bank seen) (hword : 0 ∉ word) :
    Tallies (bank.readWord word) (seen ++ [word]) := by
  constructor
  · intro key
    rw [readWord_getElem?, cString_of_notMem hword, hbank.mapWords,
      tally_append]
    have hhas := hbank.hasWord_iff hword
    by_cases hkey : convertString word = key
    · subst hkey
      by_cases hempty : convertString word = []
      · have hnot : ¬ bank.hasWord word := by
          rw [hhas]
          exact fun hboth => hboth.1 hempty
        simp [hnot, hempty]
      · by_cases hnew : tally seen (convertString word) = 0
        · have hnot : ¬ bank.hasWord word := by
            rw [hhas]
            exact fun hboth => hboth.2 hnew
          simp [hnot, hempty, hnew, wrap32_eq_self]
        · have hyes : bank.hasWord word := hhas.mpr ⟨hempty, hnew⟩
          simp [hyes, hempty, hnew, wrap32_wrap32_add_one]
    · simp [hkey]
  · rw [readWord_wordCount, hbank.wordCount]
    simp

/-- The whole file is counted, word by word. -/
theorem tallies_foldl (hseen : ∀ word ∈ seen, 0 ∉ word) :
    Tallies (seen.foldl readWord initial) seen := by
  induction seen using List.reverseRecOn with
  | nil =>
      constructor
      · intro key
        simp [initial, tally]
      · rfl
  | append_singleton seen word ih =>
      rw [List.foldl_append, List.foldl_cons, List.foldl_nil]
      apply Tallies.readWord
      · exact ih fun earlier hearlier => hseen earlier (by simp [hearlier])
      · exact hseen word (by simp)

theorem Tallies.getWordCount (hbank : Tallies bank seen) (hword : 0 ∉ word)
    (hempty : convertString word ≠ []) :
    bank.getWordCount word = wrap32 (tally seen (convertString word)) := by
  rw [WordBank.getWordCount, cString_of_notMem hword, hbank.mapWords]
  by_cases habsent : tally seen (convertString word) = 0
  · simp [habsent, wrap32_eq_self]
  · simp [hempty, habsent]

theorem Tallies.mem_iff (hbank : Tallies bank seen) (key : ByteString) :
    key ∈ bank.mapWords ↔
      key ∈ (seen.map convertString).toFinset.erase [] := by
  have htally : tally seen key = 0 ↔
      ¬ ∃ word ∈ seen, convertString word = key := by
    simp [tally, List.countP_eq_zero]
  rw [Std.ExtTreeMap.mem_iff_isSome_getElem?, hbank.mapWords,
    Finset.mem_erase, List.mem_toFinset, List.mem_map]
  by_cases hempty : key = []
  · simp [hempty]
  · by_cases hread : ∃ word ∈ seen, convertString word = key
    · simp [hempty, htally, hread]
    · simp [hempty, htally, hread]

/-- A word that has been read is found, unless it has no letters. -/
theorem Tallies.mem_of_mem (hbank : Tallies bank seen) (hword : 0 ∉ word)
    (hread : word ∈ seen) (hempty : convertString word ≠ []) :
    convertString (cString word) ∈ bank.mapWords := by
  rw [cString_of_notMem hword, hbank.mem_iff, Finset.mem_erase,
    List.mem_toFinset]
  exact ⟨hempty, List.mem_map_of_mem hread⟩

theorem Tallies.size (hbank : Tallies bank seen) :
    bank.mapWords.size =
      ((seen.map convertString).toFinset.erase []).card := by
  have hkeys : bank.mapWords.keys.toFinset =
      (seen.map convertString).toFinset.erase [] := by
    ext key
    rw [List.mem_toFinset, Std.ExtTreeMap.mem_keys, hbank.mem_iff]
  rw [← hkeys, List.toFinset_card_of_nodup Std.ExtTreeMap.nodup_keys,
    Std.ExtTreeMap.length_keys]

theorem Tallies.getTotalWordCount (hbank : Tallies bank seen) :
    bank.getTotalWordCount = wrap32 seen.length := by
  rw [WordBank.getTotalWordCount, hbank.wordCount, wrap32, wrap32]
  push_cast
  exact Int.emod_bmod _ _

end Counts

theorem notMem_of_mem_words {content : ByteString} (hcontent : 0 ∉ content) :
    ∀ word ∈ words content, 0 ∉ word :=
  fun _ hword hzero => hcontent (mem_of_mem_words hword hzero)

/-- The queries return the numbers of words, distinct words and occurrences of
a word in the file, reduced to 32 bits. -/
theorem construct_counts (content : ByteString) (hcontent : 0 ∉ content) :
    ∃ bank, construct (some content) = .ok bank ∧
      (∀ word, 0 ∉ word → convertString word ≠ [] →
        bank.getWordCount word =
          wrap32 ((words content).countP fun other =>
            convertString other = convertString word)) ∧
      bank.getUniqueWordCount =
        wrap32 (((words content).map convertString).toFinset.erase []).card ∧
      bank.getTotalWordCount = wrap32 (words content).length := by
  have hbank := tallies_foldl (notMem_of_mem_words hcontent)
  refine ⟨_, rfl, ?_, ?_, hbank.getTotalWordCount⟩
  · intro word hword hempty
    exact hbank.getWordCount hword hempty
  · rw [getUniqueWordCount, hbank.size]

theorem construct_counts_six_words :
    ∃ bank, construct (some (ascii "To be, or not to be!")) = .ok bank ∧
      bank.getWordCount (ascii "BE") = 2 ∧
      bank.getUniqueWordCount = 4 ∧ bank.getTotalWordCount = 6 := by
  obtain ⟨bank, hbank, hcount, hunique, htotal⟩ :=
    construct_counts (ascii "To be, or not to be!") (by decide)
  refine ⟨bank, hbank, ?_, ?_, ?_⟩
  · rw [hcount _ (by decide) (by decide)]
    decide
  · rw [hunique]
    decide
  · rw [htotal]
    decide

/-! ## Files too long for a 32-bit count -/

def copies (word : ByteString) (count : ℕ) : ByteString :=
  (List.replicate count (word ++ [32])).flatten

section Copies

variable {word : ByteString}

theorem words_copies (hempty : word ≠ [])
    (hword : ∀ byte ∈ word, isSpace byte = false) (count : ℕ) :
    words (copies word count) = List.replicate count word := by
  induction count with
  | zero => rfl
  | succ count ih =>
      have hfirst : copies word (count + 1) =
          word ++ 32 :: copies word count := by
        rw [copies, List.replicate_succ, List.flatten_cons,
          List.append_assoc, List.singleton_append, copies]
      have hspace : isSpace 32 = true := by decide
      rw [hfirst, words_append hempty hword hspace, ih, List.replicate_succ]

theorem notMem_copies (hword : 0 ∉ word) (count : ℕ) :
    0 ∉ copies word count := by
  intro hzero
  obtain ⟨line, hline, hzero⟩ := List.mem_flatten.mp hzero
  rw [List.eq_of_mem_replicate hline] at hzero
  simp [hword] at hzero

end Copies

/-- The total of a file of `2 ^ 31` words comes out negative. -/
theorem getTotalWordCount_copies :
    0 ∉ copies (ascii "1") (2 ^ 31) ∧
      ∃ bank, construct (some (copies (ascii "1") (2 ^ 31))) = .ok bank ∧
        bank.getTotalWordCount = -2 ^ 31 ∧
        bank.getTotalWordCount ≠
          (words (copies (ascii "1") (2 ^ 31))).length := by
  have hone : ∀ byte ∈ ascii "1", isSpace byte = false := by
    simp [ascii, isSpace]
  have hzero := notMem_copies (show 0 ∉ ascii "1" by decide) (2 ^ 31)
  have hbank := tallies_foldl (notMem_of_mem_words hzero)
  have hlength : (words (copies (ascii "1") (2 ^ 31))).length = 2 ^ 31 := by
    rw [words_copies (by decide) hone, List.length_replicate]
  have htotal := hbank.getTotalWordCount
  rw [hlength] at htotal
  have hnegative : wrap32 (2 ^ 31 : ℕ) = -2 ^ 31 := by decide
  refine ⟨hzero, _, rfl, htotal.trans hnegative, ?_⟩
  rw [htotal, hnegative, hlength]
  norm_num

end WordBank

end KataCpp
