import KataCpp.Core.Bytes

/-!
# Reading text from a stream

The two ways in which the modeled programs take text apart: `getline` up to a
delimiter, and `>>` into a string, which skips white space and reads up to the
next one.  Both are given as functions of the unread rest of the stream.  They
fail when there is nothing to extract, and then return `none`.
-/

namespace KataCpp.TextInput

open KataCpp.Bytes

/-- The line break that ends a line of text. -/
def newline : UInt8 := 10

/-- `std::getline`: the characters before the delimiter, which is extracted as
well, and the rest of the stream. -/
def getline (delimiter : UInt8) (input : ByteString) :
    Option (ByteString × ByteString) :=
  if input = [] then none
  else some (input.takeWhile (· != delimiter),
    (input.dropWhile (· != delimiter)).tail)

theorem forall_bne_of_notMem {delimiter : UInt8} {line : ByteString}
    (hline : delimiter ∉ line) :
    ∀ byte ∈ line, (byte != delimiter) = true := by
  intro byte hbyte
  rw [bne_iff_ne]
  rintro rfl
  exact hline hbyte

/-- A line that ends in the delimiter. -/
theorem getline_append {delimiter : UInt8} {line : ByteString}
    (hline : delimiter ∉ line) (rest : ByteString) :
    getline delimiter (line ++ delimiter :: rest) = some (line, rest) := by
  have hkept := forall_bne_of_notMem hline
  rw [getline, if_neg (by simp), List.takeWhile_append_of_pos hkept,
    List.dropWhile_append_of_pos hkept]
  simp

/-- A last line that no delimiter follows. -/
theorem getline_of_notMem {delimiter : UInt8} {line : ByteString}
    (hline : delimiter ∉ line) (hempty : line ≠ []) :
    getline delimiter line = some (line, []) := by
  have hkept := forall_bne_of_notMem hline
  rw [getline, if_neg hempty, List.takeWhile_eq_self_iff.mpr hkept,
    List.dropWhile_eq_nil_iff.mpr hkept]
  rfl

theorem getline_length_lt {delimiter : UInt8} {input line rest : ByteString}
    (hline : getline delimiter input = some (line, rest)) :
    rest.length < input.length := by
  rw [getline] at hline
  split at hline
  · contradiction
  · next hinput =>
      simp only [Option.some.injEq, Prod.mk.injEq] at hline
      obtain ⟨-, rfl⟩ := hline
      have hpositive := List.length_pos_iff.2 hinput
      have hdrop := List.length_dropWhile_le (· != delimiter) input
      rw [List.length_tail]
      omega

/-- White space in the "C" locale. -/
def isSpace (byte : UInt8) : Bool := byte == 32 || (9 ≤ byte && byte ≤ 13)

/-- The words that `while (stream >> word)` reads from the rest of a stream,
when `word` has been read so far of the first one. -/
def wordsFrom (word : ByteString) : ByteString → List ByteString
  | [] => if word = [] then [] else [word]
  | byte :: rest =>
      if isSpace byte then
        if word = [] then wordsFrom [] rest else word :: wordsFrom [] rest
      else
        wordsFrom (word ++ [byte]) rest

/-- The white-space-separated words of a stream. -/
def words (input : ByteString) : List ByteString := wordsFrom [] input

theorem mem_of_mem_wordsFrom {start input word : ByteString} {byte : UInt8}
    (hword : word ∈ wordsFrom start input) (hbyte : byte ∈ word) :
    byte ∈ start ++ input := by
  induction input generalizing start with
  | nil =>
      rw [wordsFrom] at hword
      split at hword
      · simp at hword
      · simp_all
  | cons first rest ih =>
      rw [wordsFrom] at hword
      split at hword
      · split at hword
        · have hrest := ih hword
          simp_all
        · rcases List.mem_cons.mp hword with rfl | hlater
          · exact List.mem_append_left _ hbyte
          · have hrest := ih hlater
            simp_all
      · have hrest := ih hword
        simpa using hrest

/-- Words are made of bytes of the stream. -/
theorem mem_of_mem_words {input word : ByteString} {byte : UInt8}
    (hword : word ∈ words input) (hbyte : byte ∈ word) : byte ∈ input := by
  simpa using mem_of_mem_wordsFrom hword hbyte

theorem wordsFrom_append {start word : ByteString}
    (hword : ∀ byte ∈ word, isSpace byte = false) (rest : ByteString) :
    wordsFrom start (word ++ rest) = wordsFrom (start ++ word) rest := by
  induction word generalizing start with
  | nil => simp
  | cons byte word ih =>
      rw [List.cons_append, wordsFrom, if_neg (by simp [hword byte]),
        ih fun later hlater => hword later (List.mem_cons_of_mem _ hlater),
        List.append_assoc, List.singleton_append]

/-- A word and the white space after it. -/
theorem words_append {word : ByteString} {space : UInt8} (hempty : word ≠ [])
    (hword : ∀ byte ∈ word, isSpace byte = false)
    (hspace : isSpace space = true) (rest : ByteString) :
    words (word ++ space :: rest) = word :: words rest := by
  rw [words, wordsFrom_append hword, List.nil_append, wordsFrom, if_pos hspace,
    if_neg hempty, words]

end KataCpp.TextInput
