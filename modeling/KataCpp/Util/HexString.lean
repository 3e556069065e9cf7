import KataCpp.Core.MachineInt
import KataCpp.Text.WordBank

/-!
# Hexadecimal texts

`octet_string_hex_string` prints octets to the static buffer `bit_string`, two
characters for each, and `hex_string_to_octet_string` reads such a text back.
The length is a number of octets for the one and of characters for the other.

The printer cuts a text that does not fit.  The limit it sets then is odd while
the loop advances by two, and a text of just the size of the buffer is not cut
at all; in both cases the terminating NUL is written behind the buffer.
-/

namespace KataCpp.HexString

open Bytes MachineInt

/-- `MAX_PRINT_STRING_LEN`, the size of `bit_string`. -/
def maxPrintStringLen : ℤ := 1024

def nibbleToHexChar (nibble : UInt8) : UInt8 :=
  (ascii "0123456789abcdef").getD (nibble &&& 0xF).toNat 0

/-- The loop of `octet_string_hex_string`: the index `i` and `bit_string` at
its end. -/
def printLoop (s : Memory) (length : ℤ) (i str : ℕ) (bitString : OutBuffer) :
    ℕ × OutBuffer :=
  if i < length then
    printLoop s length (i + 2) (str + 1)
      ((bitString.write i (nibbleToHexChar (s str >>> 4))).write (i + 1)
        (nibbleToHexChar (s str &&& 0xF)))
  else (i, bitString)
termination_by (length - i).toNat

/-- The buffer `bit_string` after the call. -/
def octetStringHexString (bitString : OutBuffer) (s : Memory) (length : ℤ) :
    OutBuffer :=
  let length := wrap32 (length * 2)
  let length :=
    if length > maxPrintStringLen then maxPrintStringLen - 1 else length
  let (i, bitString) := printLoop s length 0 0 bitString
  bitString.write i 0

def hexCharToNibble (c : UInt8) : ℤ :=
  match c.toNat with
  | 48 => 0x0
  | 49 => 0x1
  | 50 => 0x2
  | 51 => 0x3
  | 52 => 0x4
  | 53 => 0x5
  | 54 => 0x6
  | 55 => 0x7
  | 56 => 0x8
  | 57 => 0x9
  | 97 => 0xa
  | 65 => 0xa
  | 98 => 0xb
  | 66 => 0xb
  | 99 => 0xc
  | 67 => 0xc
  | 100 => 0xd
  | 68 => 0xd
  | 101 => 0xe
  | 69 => 0xe
  | 102 => 0xf
  | 70 => 0xf
  | _ => -1

/-- The loop of `is_hex_string`. -/
def allHex : ByteString → ℤ
  | [] => 1
  | c :: rest => if hexCharToNibble c = -1 then 0 else allHex rest

def isHexString (s : CString) : ℤ := allHex s.bytes

/-- The octet of two nibbles: `x = (uint8_t)(tmp << 4)` and then
`x |= (uint8_t)(tmp & 0xff)`. -/
def octet (high low : ℤ) : UInt8 :=
  (high.toNat <<< 4).toUInt8 ||| (low.toNat &&& 0xff).toUInt8

/-- The loop of `hex_string_to_octet_string`, with the two pointers as
offsets. -/
def readLoop (hex : Memory) (len : ℤ) (hexLen hexPtr rawPtr : ℕ)
    (raw : OutBuffer) : ℤ × OutBuffer :=
  if hexLen < len then
    let high := hexCharToNibble (hex hexPtr)
    if high = -1 then (hexLen, raw)
    else
      let low := hexCharToNibble (hex (hexPtr + 1))
      if low = -1 then (hexLen + 1, raw)
      else
        readLoop hex len (hexLen + 2) (hexPtr + 2) (rawPtr + 1)
          (raw.write rawPtr (octet high low))
  else (hexLen, raw)
termination_by (len - hexLen).toNat

/-- The return value and the buffer `raw` after the call. -/
def hexStringToOctetString (raw : OutBuffer) (hex : Memory) (len : ℤ) :
    ℤ × OutBuffer :=
  readLoop hex len 0 0 0 raw

def hexPair (byte : UInt8) : ByteString :=
  [nibbleToHexChar (byte >>> 4), nibbleToHexChar (byte &&& 0xF)]

/-- The text that stands for a sequence of octets. -/
def hexText (octets : ByteString) : ByteString := octets.flatMap hexPair

/-- The octets that stand behind a text, two characters each. -/
def octetsOf : ByteString → ByteString
  | high :: low :: rest =>
      octet (hexCharToNibble high) (hexCharToNibble low) :: octetsOf rest
  | _ => []

/-- The hexadecimal digits, in upper or lower case. -/
def isHexDigit (byte : UInt8) : Bool :=
  (48 ≤ byte && byte ≤ 57) || (65 ≤ byte && byte ≤ 70) ||
    (97 ≤ byte && byte ≤ 102)

theorem hexCharToNibble_eq_iff (c : UInt8) :
    hexCharToNibble c = -1 ↔ isHexDigit c = false := by
  revert c
  exact forall_byte (by decide +kernel)

/-- The digit of a character's nibble is the character in lower case. -/
theorem nibble_of_isHexDigit (c : UInt8) :
    isHexDigit c = true → ∃ nibble < 16, hexCharToNibble c = (nibble : ℕ) ∧
      nibbleToHexChar nibble.toUInt8 = toLower c := by
  revert c
  exact forall_byte (by decide +kernel)

theorem isHexDigit_nibbleToHexChar (nibble : UInt8) :
    isHexDigit (nibbleToHexChar nibble) = true := by
  revert nibble
  exact forall_byte (by decide +kernel)

/-- The octet of its two digits. -/
theorem octet_hexPair (byte : UInt8) :
    octet (hexCharToNibble (nibbleToHexChar (byte >>> 4)))
      (hexCharToNibble (nibbleToHexChar (byte &&& 0xF))) = byte := by
  revert byte
  exact forall_byte (by decide +kernel)

/-- The two digits of an octet. -/
theorem hexPair_octet : ∀ high < 16, ∀ low < 16,
    hexPair (octet (high : ℕ) (low : ℕ)) =
      [nibbleToHexChar high.toUInt8, nibbleToHexChar low.toUInt8] := by
  decide +kernel

theorem ne_zero_of_isHexDigit {byte : UInt8} (hbyte : isHexDigit byte = true) :
    byte ≠ 0 := by
  rintro rfl
  exact absurd hbyte (by decide)

@[simp]
theorem length_hexText (octets : ByteString) :
    (hexText octets).length = 2 * octets.length := by
  induction octets with
  | nil => rfl
  | cons byte octets ih =>
      have hnext : hexText (byte :: octets) =
          hexPair byte ++ hexText octets := rfl
      rw [hnext, List.length_append, ih, List.length_cons, hexPair]
      simp
      omega

theorem isHexDigit_hexText (octets : ByteString) :
    ∀ c ∈ hexText octets, isHexDigit c = true := by
  intro c hc
  obtain ⟨byte, -, hpair⟩ := List.mem_flatMap.mp hc
  simp only [hexPair, List.mem_cons, List.not_mem_nil, or_false] at hpair
  rcases hpair with rfl | rfl
  · exact isHexDigit_nibbleToHexChar _
  · exact isHexDigit_nibbleToHexChar _

/-- Reading the digits of octets gives the octets. -/
theorem octetsOf_hexText (octets : ByteString) :
    octetsOf (hexText octets) = octets := by
  induction octets with
  | nil => rfl
  | cons byte octets ih =>
      have hnext : hexText (byte :: octets) =
          nibbleToHexChar (byte >>> 4) :: nibbleToHexChar (byte &&& 0xF) ::
            hexText octets := rfl
      rw [hnext, octetsOf, ih, octet_hexPair]

/-- Printing the octets of a text gives the text in lower case. -/
theorem hexText_octetsOf (count : ℕ) (text : ByteString)
    (hlength : text.length = 2 * count)
    (htext : ∀ c ∈ text, isHexDigit c = true) :
    hexText (octetsOf text) = text.map toLower := by
  induction count generalizing text with
  | zero =>
      obtain rfl : text = [] := List.length_eq_zero_iff.mp hlength
      rfl
  | succ count ih =>
      obtain ⟨high, tail, rfl⟩ := List.exists_cons_of_length_eq_add_one
        (hlength.trans (Nat.mul_succ 2 count))
      rw [List.length_cons] at hlength
      obtain ⟨low, rest, rfl⟩ := List.exists_cons_of_length_eq_add_one
        (by omega : tail.length = 2 * count + 1)
      simp only [List.mem_cons, forall_eq_or_imp] at htext
      obtain ⟨hhigh, hlow, hrest⟩ := htext
      obtain ⟨first, hfirst, hnibble, hfirstChar⟩ :=
        nibble_of_isHexDigit high hhigh
      obtain ⟨second, hsecond, hnibble', hsecondChar⟩ :=
        nibble_of_isHexDigit low hlow
      have hpair := hexPair_octet first hfirst second hsecond
      have hcount : rest.length = 2 * count := by
        simp only [List.length_cons] at hlength
        omega
      have hsplit : hexText (octetsOf (high :: low :: rest)) =
          hexPair (octet (hexCharToNibble high) (hexCharToNibble low)) ++
            hexText (octetsOf rest) := rfl
      rw [hsplit, hnibble, hnibble', hpair, hfirstChar, hsecondChar,
        ih rest hcount hrest]
      rfl

theorem slice_cons (memory : Memory) (start count : ℕ) :
    slice memory start (start + (count + 1)) =
      memory start :: slice memory (start + 1) (start + 1 + count) := by
  have hcount : start + (count + 1) - start = count + 1 := by omega
  have hrest : start + 1 + count - (start + 1) = count := by omega
  rw [slice, slice, hcount, hrest, List.range'_succ, List.map_cons]

/-- The loop prints an octet in each pass and stops at or behind the limit. -/
theorem printLoop_eq (s : Memory) {length : ℤ} (count i str : ℕ)
    (bitString : OutBuffer) (hlower : i + 2 * count < length + 2)
    (hupper : length ≤ i + 2 * count) :
    printLoop s length i str bitString =
      (i + 2 * count,
        bitString.writes i (hexText (slice s str (str + count)))) := by
  induction count generalizing i str bitString with
  | zero =>
      have hstop : ¬ ((i : ℕ) : ℤ) < length := by omega
      rw [printLoop, if_neg hstop, Nat.add_zero str, slice_self]
      rfl
  | succ count ih =>
      have hmore : ((i : ℕ) : ℤ) < length := by omega
      rw [printLoop, if_pos hmore,
        ih (i + 2) (str + 1) _ (by push_cast; omega) (by push_cast; omega),
        slice_cons]
      refine Prod.ext ?_ rfl
      dsimp only
      omega

/-- At most 512 octets are printed. -/
theorem octetStringHexString_eq (bitString : OutBuffer) (s : Memory) {n : ℕ}
    (hn : 2 * n < 2 ^ 31) :
    octetStringHexString bitString s n =
      (bitString.writes 0 (hexText (slice s 0 (min n 512)))).write
        (2 * min n 512) 0 := by
  have hdouble : wrap32 (n * 2) = n * 2 :=
    wrap32_eq_self (by omega) (by omega)
  have hlimit : ∀ length : ℤ, 2 * (min n 512 : ℕ) < length + 2 →
      length ≤ 2 * (min n 512 : ℕ) →
      printLoop s length 0 0 bitString = (2 * min n 512,
        bitString.writes 0 (hexText (slice s 0 (min n 512)))) := by
    intro length hlower hupper
    rw [printLoop_eq s (min n 512) 0 0 bitString (by omega) (by omega),
      Nat.zero_add, Nat.zero_add]
  rw [octetStringHexString, hdouble, maxPrintStringLen]
  by_cases hlong : (n : ℤ) * 2 > 1024
  · simp only [if_pos hlong, hlimit (1024 - 1) (by omega) (by omega)]
  · simp only [if_neg hlong, hlimit (n * 2) (by omega) (by omega)]

theorem allHex_eq_one {text : ByteString}
    (htext : ∀ c ∈ text, isHexDigit c = true) : allHex text = 1 := by
  induction text with
  | nil => rfl
  | cons c rest ih =>
      simp only [List.mem_cons, forall_eq_or_imp] at htext
      rw [allHex, if_neg (by simp [hexCharToNibble_eq_iff, htext.1])]
      exact ih htext.2

theorem readLoop_eq {hex : Memory} {len : ℤ} (count : ℕ) {text : ByteString}
    (hexLen hexPtr rawPtr : ℕ) (raw : OutBuffer)
    (hholds : Holds hex hexPtr text) (hlength : text.length = 2 * count)
    (htext : ∀ c ∈ text, isHexDigit c = true)
    (hlen : len = hexLen + 2 * count) :
    readLoop hex len hexLen hexPtr rawPtr raw =
      (len, raw.writes rawPtr (octetsOf text)) := by
  induction count generalizing text hexLen hexPtr rawPtr raw with
  | zero =>
      obtain rfl : text = [] := List.length_eq_zero_iff.mp hlength
      have hstop : ¬ ((hexLen : ℕ) : ℤ) < len := by omega
      rw [readLoop, if_neg hstop, hlen]
      simp [octetsOf, OutBuffer.writes]
  | succ count ih =>
      obtain ⟨high, tail, rfl⟩ := List.exists_cons_of_length_eq_add_one
        (hlength.trans (Nat.mul_succ 2 count))
      rw [List.length_cons] at hlength
      obtain ⟨low, rest, rfl⟩ := List.exists_cons_of_length_eq_add_one
        (by omega : tail.length = 2 * count + 1)
      simp only [List.mem_cons, forall_eq_or_imp] at htext
      obtain ⟨hhigh, hlow, hrest⟩ := htext
      simp only [holds_cons_iff] at hholds
      obtain ⟨hfirst, hsecond, hholds⟩ := hholds
      have hcount : rest.length = 2 * count := by
        simp only [List.length_cons] at hlength
        omega
      have hmore : ((hexLen : ℕ) : ℤ) < len := by omega
      have hhigh' : hexCharToNibble high ≠ -1 := by
        simp [hexCharToNibble_eq_iff, hhigh]
      have hlow' : hexCharToNibble low ≠ -1 := by
        simp [hexCharToNibble_eq_iff, hlow]
      rw [readLoop, if_pos hmore]
      simp only [hfirst, hsecond, if_neg hhigh', if_neg hlow']
      rw [ih (hexLen + 2) (hexPtr + 2) (rawPtr + 1) _ hholds hcount hrest
        (by push_cast; omega)]
      rfl

/-! ## Round trips -/

def hexCString (octets : ByteString) : CString where
  bytes := hexText octets
  zero_notMem := fun hzero =>
    ne_zero_of_isHexDigit (isHexDigit_hexText octets 0 hzero) rfl

/-- A buffer that is long enough holds the text of all octets. -/
theorem hexCString_storedIn (bitString : OutBuffer) {s : Memory}
    {octets : ByteString} (hs : Holds s 0 octets)
    (hfits : 2 * (octets.length : ℤ) < maxPrintStringLen) :
    (hexCString octets).StoredIn
      (octetStringHexString bitString s octets.length).bytes := by
  rw [maxPrintStringLen] at hfits
  have hslice : slice s 0 octets.length = octets := by
    apply List.ext_getElem (by simp)
    intro index _ hindex
    simpa [slice] using hs index hindex
  have hstored := (hexCString octets).storedIn_writes bitString
  rw [octetStringHexString_eq bitString s (by omega),
    min_eq_left (by omega), hslice, ← length_hexText]
  exact hstored

section RoundTrip

variable (bitString raw : OutBuffer)

theorem read_printed {octets : ByteString} {s : Memory}
    (hs : Holds s 0 octets)
    (hfits : 2 * (octets.length : ℤ) < maxPrintStringLen) :
    hexStringToOctetString raw
        (octetStringHexString bitString s octets.length).bytes
        (2 * octets.length) =
      ((2 * octets.length : ℤ), raw.writes 0 octets) := by
  have hstored := hexCString_storedIn bitString hs hfits
  have hlen : 2 * (octets.length : ℤ) = (0 : ℕ) + 2 * octets.length := by simp
  have hread := readLoop_eq octets.length 0 0 0 raw hstored.1
    (length_hexText octets) (isHexDigit_hexText octets) hlen
  rw [hexCString, octetsOf_hexText] at hread
  exact hread

theorem printed_read {text : CString} {hex : Memory}
    (htext : text.StoredIn hex)
    (hdigits : ∀ c ∈ text.bytes, isHexDigit c = true)
    (heven : Even text.bytes.length)
    (hfits : (text.bytes.length : ℤ) < maxPrintStringLen) :
    ∃ lower : CString,
      lower.StoredIn (octetStringHexString bitString
        (hexStringToOctetString raw hex text.bytes.length).2.bytes
        (text.bytes.length / 2)).bytes ∧
      lower.bytes = text.bytes.map toLower := by
  obtain ⟨count, hcount⟩ := heven.two_dvd
  have hread : hexStringToOctetString raw hex text.bytes.length =
      ((text.bytes.length : ℤ), raw.writes 0 (octetsOf text.bytes)) :=
    readLoop_eq count 0 0 0 raw htext.1 hcount hdigits (by simp [hcount])
  have hlower := hexText_octetsOf count text.bytes hcount hdigits
  have hlength : (octetsOf text.bytes).length = count := by
    have hprinted := congrArg List.length hlower
    rw [length_hexText, List.length_map] at hprinted
    omega
  have hhalf : (text.bytes.length : ℤ) / 2 =
      ((octetsOf text.bytes).length : ℕ) := by omega
  have hshort : 2 * ((octetsOf text.bytes).length : ℤ) <
      maxPrintStringLen := by
    rw [hlength]
    rw [hcount] at hfits
    exact_mod_cast hfits
  rw [hread, hhalf]
  exact ⟨_, hexCString_storedIn bitString
    (raw.holds_writes 0 (octetsOf text.bytes)) hshort, hlower⟩

/-- Printing octets and reading the text back gives the octets; reading a text
and printing its octets gives the text in lower case. -/
theorem hexString_roundTrip :
    (∀ (octets : ByteString) (s : Memory), Holds s 0 octets →
      2 * (octets.length : ℤ) < maxPrintStringLen →
      let printed := octetStringHexString bitString s octets.length
      let read :=
        hexStringToOctetString raw printed.bytes (2 * octets.length)
      (∃ text : CString, text.StoredIn printed.bytes ∧
        isHexString text = 1 ∧ text.bytes.length = 2 * octets.length) ∧
        read.1 = 2 * octets.length ∧ Holds read.2.bytes 0 octets) ∧
    ∀ (text : CString) (hex : Memory), text.StoredIn hex →
      (∀ c ∈ text.bytes, isHexDigit c = true) →
      Even text.bytes.length →
      (text.bytes.length : ℤ) < maxPrintStringLen →
      let read := hexStringToOctetString raw hex text.bytes.length
      ∃ lower : CString,
        lower.StoredIn (octetStringHexString bitString read.2.bytes
          (text.bytes.length / 2)).bytes ∧
        lower.bytes = text.bytes.map toLower := by
  constructor
  · intro octets s hs hfits
    have hstored := hexCString_storedIn bitString hs hfits
    have hdigits := allHex_eq_one (isHexDigit_hexText octets)
    dsimp only
    rw [read_printed bitString raw hs hfits]
    exact ⟨⟨_, hstored, hdigits, length_hexText octets⟩, rfl,
      raw.holds_writes 0 octets⟩
  · intro text hex htext hdigits heven hfits
    exact printed_read bitString raw htext hdigits heven hfits

end RoundTrip

theorem hexString_roundTrip_two_octets :
    ∃ text : CString,
      text.StoredIn (octetStringHexString ⟨fun _ => 0, []⟩
        (fun index => [0x0f, 0xa0].getD index 0) 2).bytes ∧
      isHexString text = 1 ∧ text.bytes.length = 4 := by
  have hs : Holds (fun index => [0x0f, 0xa0].getD index 0) 0
      [0x0f, 0xa0] := by
    intro index hindex
    rw [Nat.zero_add]
    exact List.getD_eq_getElem _ _ hindex
  obtain ⟨hprinted, -⟩ := hexString_roundTrip ⟨fun _ => 0, []⟩
    ⟨fun _ => 0, []⟩
  exact (hprinted [0x0f, 0xa0] _ hs (by decide)).1

/-! ## The end of the buffer -/

/-- All accesses are within `bit_string`, and its text stands for the first
octets. -/
def PrintsWithin (s : Memory) (n : ℕ) (printed : OutBuffer) : Prop :=
  (∀ index ∈ printed.touched, (index : ℤ) < maxPrintStringLen) ∧
    ∃ text : CString, text.StoredIn printed.bytes ∧
      ∃ octets, octets <+: slice s 0 n ∧ text.bytes = hexText octets

/-- The last access is the terminating NUL. -/
theorem terminator_touched (bitString : OutBuffer) (s : Memory) {n : ℕ}
    (hn : 2 * n < 2 ^ 31) :
    2 * min n 512 ∈ (octetStringHexString bitString s n).touched := by
  rw [octetStringHexString_eq _ _ hn]
  exact List.mem_cons_self

/-- The printer stays within its buffer exactly for texts that are shorter than
the buffer. -/
theorem octetStringHexString_within_iff (bytes : Memory) (s : Memory) (n : ℕ)
    (hn : 2 * n < 2 ^ 31) :
    PrintsWithin s n (octetStringHexString ⟨bytes, []⟩ s n) ↔
      2 * (n : ℤ) < maxPrintStringLen := by
  rw [maxPrintStringLen]
  constructor
  · rintro ⟨hwithin, -⟩
    have hbound := hwithin _ (terminator_touched ⟨bytes, []⟩ s hn)
    rw [maxPrintStringLen] at hbound
    omega
  · intro hfits
    constructor
    · intro index hindex
      rw [octetStringHexString_eq _ _ hn] at hindex
      simp only [OutBuffer.write, List.mem_cons, OutBuffer.mem_touched_writes,
        List.not_mem_nil, false_or, length_hexText, length_slice] at hindex
      rw [maxPrintStringLen]
      omega
    · have hstored := hexCString_storedIn ⟨bytes, []⟩
        (holds_slice : Holds s 0 (slice s 0 n))
      rw [length_slice, Nat.sub_zero] at hstored
      exact ⟨_, hstored hfits, _, List.prefix_rfl, rfl⟩

theorem octetStringHexString_within_iff_zeros :
    PrintsWithin (fun _ => 0) 511
      (octetStringHexString ⟨fun _ => 0, []⟩ (fun _ => 0) 511) :=
  (octetStringHexString_within_iff _ _ 511 (by norm_num)).mpr (by decide)

/-- The NUL behind 512 octets, and also behind the cut text of 513, is written
behind the buffer. -/
theorem octetStringHexString_outside :
    ¬ PrintsWithin (fun _ => 0) 512
        (octetStringHexString ⟨fun _ => 0, []⟩ (fun _ => 0) 512) ∧
      ¬ PrintsWithin (fun _ => 0) 513
        (octetStringHexString ⟨fun _ => 0, []⟩ (fun _ => 0) 513) := by
  have hlast : ∀ n : ℕ, 512 ≤ n → 2 * n < 2 ^ 31 →
      ¬ PrintsWithin (fun _ => 0) n
        (octetStringHexString ⟨fun _ => 0, []⟩ (fun _ => 0) n) := by
    intro n hlower hn hwithin
    have hbound := hwithin.1 _ (terminator_touched _ _ hn)
    rw [min_eq_right hlower] at hbound
    exact absurd hbound (by decide)
  exact ⟨hlast 512 (by norm_num) (by norm_num),
    hlast 513 (by norm_num) (by norm_num)⟩

end KataCpp.HexString
