import KataCpp.Util.Base64RoundTrip

/-!
# Canonical base64 texts

A canonical text consists of whole groups, ends in at most two padding
characters, and leaves the unused low bits of its last character zero.  These
are exactly the texts of byte sequences, so what the decoder makes of one is
encoded back to it.
-/

namespace KataCpp.Base64

open KataCpp.Bytes
open KataCpp.MachineInt

def alphabetIndex (char : UInt8) : ℕ := base64str.idxOf char

/-- A text of whole groups over the alphabet, with at most two trailing `=`.
Each `=` stands for six missing bits of a last byte, so it leaves two low bits
of the character before it unused, and these are zero. -/
def Canonical (text : ByteString) : Prop :=
  0 < text.length ∧ 4 ∣ text.length ∧
    ∃ body pads, text = body ++ List.replicate pads padding ∧ pads ≤ 2 ∧
      (∀ char ∈ body, char ∈ base64str) ∧
      ∀ last ∈ body.getLast?, alphabetIndex last % 4 ^ pads = 0

/-- Every character of the alphabet is the one at its position. -/
theorem base64char_alphabetIndex : ∀ char ∈ base64str,
    alphabetIndex char < 64 ∧ base64char (alphabetIndex char) = char := by
  intro char hchar
  have hindex : base64str.idxOf char < base64str.length :=
    List.idxOf_lt_length_of_mem hchar
  have hlength : base64str.length = 64 := rfl
  rw [alphabetIndex, base64char]
  refine ⟨hlength ▸ hindex, ?_⟩
  rw [List.getD_eq_getElem _ _ hindex, List.getElem_idxOf]

theorem index0_ofNat {value : ℕ} (hvalue : value < 256) :
    index0 (UInt8.ofNat value) = value / 4 := by
  rw [index0, UInt8.toNat_ofNat', Nat.mod_eq_of_lt hvalue,
    Nat.shiftRight_eq_div_pow]

theorem index1_ofNat {value0 value1 : ℕ} (hvalue0 : value0 < 256)
    (hvalue1 : value1 < 256) :
    index1 (UInt8.ofNat value0) (UInt8.ofNat value1) =
      value0 % 4 * 16 + value1 / 16 := by
  rw [index1_eq, UInt8.toNat_ofNat', UInt8.toNat_ofNat',
    Nat.mod_eq_of_lt hvalue0, Nat.mod_eq_of_lt hvalue1]

theorem index2_ofNat {value1 value2 : ℕ} (hvalue1 : value1 < 256)
    (hvalue2 : value2 < 256) :
    index2 (UInt8.ofNat value1) (UInt8.ofNat value2) =
      value1 % 16 * 4 + value2 / 64 := by
  rw [index2_eq, UInt8.toNat_ofNat', UInt8.toNat_ofNat',
    Nat.mod_eq_of_lt hvalue1, Nat.mod_eq_of_lt hvalue2]

theorem index3_ofNat {value : ℕ} (hvalue : value < 256) :
    index3 (UInt8.ofNat value) = value % 64 := by
  rw [index3_eq, UInt8.toNat_ofNat', Nat.mod_eq_of_lt hvalue]

/-- Two digits with four unused bits are those of one byte. -/
theorem exists_one_byte {digit0 digit1 : ℕ} (h0 : digit0 < 64)
    (h1 : digit1 < 64) (hunused : digit1 % 16 = 0) :
    ∃ byte0, index0 byte0 = digit0 ∧ index1 byte0 0 = digit1 := by
  refine ⟨UInt8.ofNat (digit0 * 4 + digit1 / 16), ?_, ?_⟩
  · rw [index0_ofNat (by omega)]
    omega
  · have hindex := @index1_ofNat (digit0 * 4 + digit1 / 16) 0 (by omega)
      (by omega)
    apply hindex.trans
    omega

/-- Three digits with two unused bits are those of two bytes. -/
theorem exists_two_bytes {digit0 digit1 digit2 : ℕ} (h0 : digit0 < 64)
    (h1 : digit1 < 64) (h2 : digit2 < 64) (hunused : digit2 % 4 = 0) :
    ∃ byte0 byte1, index0 byte0 = digit0 ∧ index1 byte0 byte1 = digit1 ∧
      index2 byte1 0 = digit2 := by
  refine ⟨UInt8.ofNat (digit0 * 4 + digit1 / 16),
    UInt8.ofNat (digit1 % 16 * 16 + digit2 / 4), ?_, ?_, ?_⟩
  · rw [index0_ofNat (by omega)]
    omega
  · rw [index1_ofNat (by omega) (by omega)]
    omega
  · have hindex := @index2_ofNat (digit1 % 16 * 16 + digit2 / 4) 0 (by omega)
      (by omega)
    apply hindex.trans
    omega

/-- Four digits are those of three bytes. -/
theorem exists_three_bytes {digit0 digit1 digit2 digit3 : ℕ}
    (h0 : digit0 < 64) (h1 : digit1 < 64) (h2 : digit2 < 64)
    (h3 : digit3 < 64) :
    ∃ byte0 byte1 byte2, index0 byte0 = digit0 ∧ index1 byte0 byte1 = digit1 ∧
      index2 byte1 byte2 = digit2 ∧ index3 byte2 = digit3 := by
  refine ⟨UInt8.ofNat (digit0 * 4 + digit1 / 16),
    UInt8.ofNat (digit1 % 16 * 16 + digit2 / 4),
    UInt8.ofNat (digit2 % 4 * 64 + digit3), ?_, ?_, ?_, ?_⟩
  · rw [index0_ofNat (by omega)]
    omega
  · rw [index1_ofNat (by omega) (by omega)]
    omega
  · rw [index2_ofNat (by omega) (by omega)]
    omega
  · rw [index3_ofNat (by omega)]
    omega

/-- Digits and padding that make whole groups are the text of some bytes. -/
theorem exists_encodeText_digits : ∀ (digits : List ℕ) (pads : ℕ), pads ≤ 2 →
    4 ∣ digits.length + pads → (∀ digit ∈ digits, digit < 64) →
    (∀ last ∈ digits.getLast?, last % 4 ^ pads = 0) →
    ∃ bytes, encodeText bytes =
      digits.map base64char ++ List.replicate pads padding
  | [], pads, hpads, hgroups, _, _ => by
      obtain rfl : pads = 0 := by
        simp only [List.length_nil] at hgroups
        omega
      exact ⟨[], rfl⟩
  | [_], pads, hpads, hgroups, _, _ => by
      simp only [List.length_singleton] at hgroups
      omega
  | [digit0, digit1], pads, hpads, hgroups, hdigits, hlast => by
      obtain rfl : pads = 2 := by
        simp only [List.length_cons, List.length_nil] at hgroups
        omega
      obtain ⟨byte0, h0, h1⟩ := exists_one_byte (hdigits digit0 (by simp))
        (hdigits digit1 (by simp)) (hlast digit1 (by simp))
      refine ⟨[byte0], ?_⟩
      rw [encodeText, h0, h1]
      rfl
  | [digit0, digit1, digit2], pads, hpads, hgroups, hdigits, hlast => by
      obtain rfl : pads = 1 := by
        simp only [List.length_cons, List.length_nil] at hgroups
        omega
      obtain ⟨byte0, byte1, h0, h1, h2⟩ := exists_two_bytes
        (hdigits digit0 (by simp)) (hdigits digit1 (by simp))
        (hdigits digit2 (by simp)) (hlast digit2 (by simp))
      refine ⟨[byte0, byte1], ?_⟩
      rw [encodeText, h0, h1, h2]
      rfl
  | digit0 :: digit1 :: digit2 :: digit3 :: rest, pads, hpads, hgroups,
      hdigits, hlast => by
      obtain ⟨byte0, byte1, byte2, h0, h1, h2, h3⟩ := exists_three_bytes
        (hdigits digit0 (by simp)) (hdigits digit1 (by simp))
        (hdigits digit2 (by simp)) (hdigits digit3 (by simp))
      have hrestGroups : 4 ∣ rest.length + pads := by
        simp only [List.length_cons] at hgroups
        omega
      have hrestLast : ∀ last ∈ rest.getLast?, last % 4 ^ pads = 0 := by
        intro last hmem
        apply hlast
        cases rest with
        | nil => simp at hmem
        | cons digit rest => simpa using hmem
      obtain ⟨bytes, hbytes⟩ := exists_encodeText_digits rest pads hpads
        hrestGroups (fun digit hdigit => hdigits digit (by simp [hdigit]))
        hrestLast
      refine ⟨byte0 :: byte1 :: byte2 :: bytes, ?_⟩
      rw [encodeText, groupText, h0, h1, h2, h3, hbytes]
      rfl

/-- Every canonical text is the text of some bytes. -/
theorem Canonical.exists_encodeText {text : ByteString}
    (hcanonical : Canonical text) :
    ∃ bytes, bytes ≠ [] ∧ encodeText bytes = text := by
  obtain ⟨hpositive, hgroups, body, pads, rfl, hpads, hbody, hlast⟩ :=
    hcanonical
  have hchars : (body.map alphabetIndex).map base64char = body := by
    rw [List.map_map]
    exact (List.map_congr_left fun char hchar =>
      (base64char_alphabetIndex char (hbody char hchar)).2).trans
        (List.map_id body)
  obtain ⟨bytes, hbytes⟩ := exists_encodeText_digits
    (body.map alphabetIndex) pads hpads
    (by simpa using hgroups)
    (by
      intro digit hdigit
      obtain ⟨char, hchar, rfl⟩ := List.mem_map.mp hdigit
      exact (base64char_alphabetIndex char (hbody char hchar)).1)
    (by
      intro last hmem
      rw [List.getLast?_map] at hmem
      obtain ⟨char, hchar, rfl⟩ := Option.map_eq_some_iff.mp hmem
      exact hlast char hchar)
  rw [hchars] at hbytes
  refine ⟨bytes, ?_, hbytes⟩
  rintro rfl
  rw [← hbytes] at hpositive
  simp [encodeText] at hpositive

/-- Decoding a canonical text and encoding the decoded bytes reproduces the
text: the encoder returns its length and leaves it in the buffer. -/
theorem base64Encode_base64Decode {text : CString}
    {byteBuffer textBuffer : OutBuffer} {nOutLen nTextLen : ℤ}
    (hcanonical : Canonical text.bytes)
    (hfits : text.bytes.length < 2 ^ 31)
    (hbyteRoom : 3 * (text.bytes.length / 4) ≤ nOutLen)
    (htextRoom : text.bytes.length ≤ nTextLen) :
    let decoded := base64Decode byteBuffer nOutLen text text.bytes.length
    let encoded := base64Encode textBuffer nTextLen decoded.2.bytes decoded.1
    encoded.1 = text.bytes.length ∧ text.StoredIn encoded.2.bytes := by
  obtain ⟨bytes, hbytes, htext⟩ := hcanonical.exists_encodeText
  obtain rfl : text = encodedString bytes := by
    cases text
    simp only [encodedString, CString.mk.injEq]
    exact htext.symm
  have hlength := length_encodeText bytes
  simp only [encodedString] at hfits hbyteRoom htextRoom ⊢
  obtain ⟨hcount, hheld⟩ :=
    @base64Decode_encodedString bytes byteBuffer nOutLen hbytes hfits
      (by omega)
  simp only [encodedString] at hcount hheld
  rw [hcount, base64Encode_eq hheld hbytes hfits htextRoom]
  constructor
  · rfl
  · exact encodedString_storedIn textBuffer bytes

/-- The eight characters of four bytes, with two padding characters. -/
theorem base64Encode_base64Decode_padded :
    let text : CString := ⟨ascii "AP+APQ==", by decide⟩
    let buffer : OutBuffer := ⟨fun _ => 9, []⟩
    let decoded := base64Decode buffer 6 text text.bytes.length
    let encoded := base64Encode buffer 9 decoded.2.bytes decoded.1
    encoded.1 = text.bytes.length ∧ text.StoredIn encoded.2.bytes := by
  intro text buffer
  have hcanonical : Canonical text.bytes :=
    ⟨by decide, by decide, ascii "AP+APQ", 2, by decide, by decide,
      by decide +kernel, by decide +kernel⟩
  exact base64Encode_base64Decode hcanonical (by decide) (by decide)
    (by decide)

end KataCpp.Base64
