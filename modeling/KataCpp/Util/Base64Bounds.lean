import KataCpp.Util.Base64Canonical

/-!
# Output bounds of the base64 functions

Both functions compare `nOutLen` with a length computed up front and then
advance through the output buffer on their own.  Here the offsets they touch
are determined exactly.  The encoder touches all offsets of the text and one
more for the terminating NUL, the decoder touches as many offsets as the
characters of the alphabet in its source decode to, and one more.  Neither
check counts the terminator, and the checks are computed in 32-bit arithmetic.
-/

namespace KataCpp.Base64

open KataCpp.Bytes
open KataCpp.MachineInt

/-- The encoder past its length check, for any length. -/
theorem base64Encode_accepted (lpszOutBuffer : OutBuffer) {nOutLen : ℤ}
    (lpszIn : Memory) {length : ℕ} (hpos : 0 < length)
    (haccepted : nNeededLen length ≤ nOutLen) :
    base64Encode lpszOutBuffer nOutLen lpszIn length =
      (wrap32 (4 * ((length + 2) / 3) : ℕ),
        (lpszOutBuffer.writes 0 (encodeText (slice lpszIn 0 length))).write
          (4 * ((length + 2) / 3)) 0) := by
  have hlength : (slice lpszIn 0 length).length = length := by simp
  have hrun := @Encoder.run_writes lpszIn (slice lpszIn 0 length)
    ⟨lpszOutBuffer, 0, 0⟩ holds_slice
  rw [length_encodeText, hlength] at hrun
  obtain ⟨hout, hpszOut⟩ := hrun
  rw [base64Encode, if_neg (by omega), if_neg (by omega)]
  simp only [Int.toNat_natCast, hout, hpszOut, Nat.zero_add]

/-- A return value that is a whole number of groups is not the error code. -/
theorem wrap32_four_mul_ne (groups : ℕ) : wrap32 (4 * groups : ℕ) ≠ -1 := by
  rw [wrap32, Int.bmod_def]
  split <;> omega

/-- Where the 32-bit computation of the needed length is exact, the buffer must
not be just as long as the text.  Beyond that the check compares with a wrapped
length, and only calls that it refuses stay inside. -/
def EncodeFits (nInputLen nOutLen : ℤ) : Prop :=
  if nInputLen = 0 then 0 < nOutLen
  else if 4 * ((nInputLen + 2) / 3) < 2 ^ 31 then
    nOutLen ≠ 4 * ((nInputLen + 2) / 3)
  else if nInputLen + 2 < 2 ^ 31 then
    nOutLen < 4 * ((nInputLen + 2) / 3) - 2 ^ 32
  else nOutLen < 1431655768

theorem encodeFits_iff {length : ℕ} {nOutLen : ℤ} (hpos : 0 < length)
    (hlength : length < 2 ^ 31) (hnOutLen : nOutLen < 2 ^ 31) :
    EncodeFits length nOutLen ↔
      nOutLen < nNeededLen length ∨
        (4 * ((length + 2) / 3) : ℕ) < nOutLen := by
  rw [EncodeFits, if_neg (by omega)]
  by_cases hfits : 4 * ((length + 2) / 3) < 2 ^ 31
  · rw [if_pos (by omega), nNeededLen_eq hfits]
    omega
  rw [if_neg (by omega), nNeededLen]
  by_cases hsum : length + 2 < 2 ^ 31
  · have hexact : wrap32 ((length : ℤ) + 2) = (length + 2 : ℕ) := by
      rw [wrap32_eq_self] <;> omega
    have hdiv : ((length + 2 : ℕ) : ℤ).tdiv 3 = ((length + 2) / 3 : ℕ) := rfl
    have hwrapped : wrap32 (((length + 2) / 3 : ℕ) * 4) =
        4 * (((length : ℤ) + 2) / 3) - 2 ^ 32 := by
      rw [wrap32, Int.bmod_def]
      split <;> omega
    rw [if_pos (by omega), hexact, hdiv, hwrapped]
    omega
  · obtain rfl | rfl : length = 2 ^ 31 - 2 ∨ length = 2 ^ 31 - 1 := by omega
    · have hneeded : wrap32 ((wrap32 (((2 ^ 31 - 2 : ℕ) : ℤ) + 2)).tdiv 3 * 4) =
          1431655768 := by decide
      rw [hneeded, if_neg (by omega)]
      omega
    · have hneeded : wrap32 ((wrap32 (((2 ^ 31 - 1 : ℕ) : ℤ) + 2)).tdiv 3 * 4) =
          1431655768 := by decide
      rw [hneeded, if_neg (by omega)]
      omega

/-- The encoder stays inside its buffer exactly when the lengths fit. -/
theorem base64Encode_inBounds_iff (memory lpszIn : Memory)
    {nOutLen nInputLen : ℤ} (hnInputLen : 0 ≤ nInputLen)
    (hint : nInputLen < 2 ^ 31) (hnOutLen : nOutLen < 2 ^ 31) :
    let result := base64Encode ⟨memory, []⟩ nOutLen lpszIn nInputLen
    (result.1 ≠ -1 → ∀ index ∈ result.2.touched, (index : ℤ) < nOutLen) ↔
      EncodeFits nInputLen nOutLen := by
  obtain ⟨length, rfl⟩ := Int.eq_ofNat_of_zero_le hnInputLen
  intro result
  rcases Nat.eq_zero_or_pos length with rfl | hpos
  · simp [result, base64Encode, OutBuffer.write, EncodeFits]
  rw [encodeFits_iff hpos (by omega) hnOutLen]
  by_cases hrefused : nOutLen < nNeededLen length
  · have hresult : result = (-1, ⟨memory, []⟩) := by
      simp only [result, base64Encode]
      rw [if_neg (by omega), if_pos hrefused]
    simp [hresult, hrefused]
  · have hresult := base64Encode_accepted ⟨memory, []⟩ lpszIn hpos
      (not_lt.mp hrefused)
    have hreturn : result.1 ≠ -1 := by
      simp only [result, hresult]
      exact wrap32_four_mul_ne _
    have htouched : ∀ index, index ∈ result.2.touched ↔
        index ≤ 4 * ((length + 2) / 3) := by
      intro index
      simp only [result, hresult, OutBuffer.write, List.mem_cons,
        OutBuffer.mem_touched_writes, length_encodeText, length_slice,
        List.not_mem_nil, false_or]
      omega
    simp only [hreturn, hrefused, htouched, ne_eq, not_false_eq_true,
      true_implies, false_or]
    constructor
    · intro hall
      exact hall _ le_rfl
    · intro hroom index hindex
      omega

/-- Three bytes fit into a buffer of five characters. -/
theorem base64Encode_inBounds_of_five_characters :
    let result := base64Encode ⟨fun _ => 0, []⟩ 5 (fun _ => 65) 3
    result.1 ≠ -1 ∧ ∀ index ∈ result.2.touched, (index : ℤ) < 5 := by
  intro result
  have hreturn : result.1 ≠ -1 := by decide
  exact ⟨hreturn, (base64Encode_inBounds_iff _ _ (by decide) (by decide)
    (by decide)).mpr (by simp [EncodeFits]) hreturn⟩

/-- Three bytes in a buffer of just the needed length: the terminating NUL goes
to offset four. -/
theorem base64Encode_writes_behind_buffer :
    ¬ ∀ (memory lpszIn : Memory) (nOutLen nInputLen : ℤ), 0 ≤ nInputLen →
      let result := base64Encode ⟨memory, []⟩ nOutLen lpszIn nInputLen
      result.1 ≠ -1 → ∀ index ∈ result.2.touched, (index : ℤ) < nOutLen := by
  intro hall
  have hbehind := hall (fun _ => 0) (fun _ => 65) 4 3 (by decide) (by decide)
    4 (by decide)
  exact absurd hbehind (by decide)

/-! ## The decoder -/

/-- The decode table has no entries outside the alphabet. -/
theorem mem_base64str_of_entry : ∀ value < 128,
    255 ≠ base64DecodeTable.getD value 255 → value.toUInt8 ∈ base64str := by
  decide +kernel

theorem Decoder.next_of_mem (decoder : Decoder) {char : UInt8}
    (hchar : char ∈ base64str) :
    decoder.next char = decoder.push (alphabetIndex char).toUInt16 := by
  obtain ⟨hindex, hself⟩ := base64char_alphabetIndex char hchar
  calc
    decoder.next char
        = decoder.next (base64char (alphabetIndex char)) := by rw [hself]
    _ = decoder.push (alphabetIndex char).toUInt16 :=
        decoder.next_base64char hindex

theorem Decoder.next_of_notMem (decoder : Decoder) {char : UInt8}
    (hchar : char ∉ base64str) : decoder.next char = decoder := by
  rw [Decoder.next]
  split_ifs with hhigh
  · rfl
  · have hlow : char.toNat ≤ (0x7f : UInt8).toNat :=
      UInt8.le_iff_toNat_le.mp (UInt8.not_lt.mp hhigh)
    have hascii : char.toNat < 128 := Nat.lt_succ_of_le hlow
    have hentry : 255 = base64DecodeTable.getD char.toNat 255 := by
      by_contra hentry
      apply hchar
      have hmem := mem_base64str_of_entry char.toNat hascii hentry
      rwa [show char.toNat.toUInt8 = char from UInt8.ofNat_toNat] at hmem
    exact if_pos hentry

/-- The decoder after `count` characters of the alphabet: it has written all
offsets before `pszOut` and nothing else. -/
structure Decoder.Progress (count : ℕ) (decoder : Decoder) : Prop where
  pszOut_eq : decoder.pszOut = 3 * (count / 4)
  space_eq : decoder.lByteBufferSpace = 4 - count % 4
  touched_iff : ∀ index, index ∈ decoder.out.touched ↔ index < decoder.pszOut

theorem Decoder.Progress.push {count : ℕ} {decoder : Decoder}
    (h : decoder.Progress count) (tc : UInt16) :
    (decoder.push tc).Progress (count + 1) := by
  have hpszOut := h.pszOut_eq
  have hspace := h.space_eq
  by_cases hfull : decoder.lByteBufferSpace - 1 = 0
  · constructor
    · simp only [Decoder.push, hfull, ne_eq, not_true_eq_false, if_false]
      omega
    · simp only [Decoder.push, hfull, ne_eq, not_true_eq_false, if_false]
      omega
    · intro index
      simp only [Decoder.push, hfull, ne_eq, not_true_eq_false, if_false,
        OutBuffer.write, List.mem_cons, h.touched_iff]
      omega
  · constructor
    · simp only [Decoder.push, hfull, ne_eq, not_false_eq_true, if_true]
      omega
    · simp only [Decoder.push, hfull, ne_eq, not_false_eq_true, if_true]
      omega
    · simpa only [Decoder.push, hfull, ne_eq, not_false_eq_true, if_true]
        using h.touched_iff

/-- The number of characters of a text that are in the alphabet. -/
def alphabetCount (text : ByteString) : ℕ := text.countP (· ∈ base64str)

theorem alphabetCount_cons (char : UInt8) (text : ByteString) :
    alphabetCount (char :: text) =
      alphabetCount text + if char ∈ base64str then 1 else 0 := by
  simp [alphabetCount, List.countP_cons]

theorem Decoder.Progress.foldl {count : ℕ} {decoder : Decoder}
    (h : decoder.Progress count) (text : ByteString) :
    (text.foldl Decoder.next decoder).Progress
      (count + alphabetCount text) := by
  induction text generalizing count decoder with
  | nil => exact h
  | cons char text ih =>
      rw [List.foldl_cons, alphabetCount_cons]
      by_cases hchar : char ∈ base64str
      · have hstep := ih (h.push (alphabetIndex char).toUInt16)
        rw [decoder.next_of_mem hchar, if_pos hchar]
        rwa [add_right_comm, add_assoc] at hstep
      · rw [decoder.next_of_notMem hchar, if_neg hchar]
        exact ih h

/-- The tail brings the output to three bytes for every four characters. -/
theorem Decoder.Progress.tail {count : ℕ} {decoder : Decoder}
    (h : decoder.Progress count) :
    decoder.tail.pszOut = 3 * count / 4 ∧
      ∀ index, index ∈ decoder.tail.out.touched ↔ index < 3 * count / 4 := by
  have hpszOut := h.pszOut_eq
  have hspace := h.space_eq
  have hcases : count % 4 = 0 ∨ count % 4 = 1 ∨ count % 4 = 2 ∨
      count % 4 = 3 := by omega
  rcases hcases with hrest | hrest | hrest | hrest <;>
    rw [hrest] at hspace <;>
    simp only [Decoder.tail, hspace, OutBuffer.write, List.mem_cons,
      h.touched_iff] <;>
    refine ⟨by omega, fun index => ?_⟩ <;>
    omega

/-- The terminator is one more offset. -/
theorem Decoder.mem_touched_terminate (decoder : Decoder) (index : ℕ) :
    index ∈ decoder.terminate.touched ↔
      index = decoder.pszOut ∨ index ∈ decoder.out.touched := by
  rw [Decoder.terminate]
  split_ifs
  · simp [OutBuffer.write, OutBuffer.read]
  · simp [OutBuffer.read]

/-- The least output length that the check lets through for a text of the given
length.  A length that leaves one character over a whole number of groups is
let through from one on, and the tripled length wraps from `2 ^ 31` on. -/
def acceptedFrom (length : ℤ) : ℤ :=
  let tripled :=
    if 3 * length < 2 ^ 31 then 3 * length else 3 * length - 2 ^ 32
  if length % 4 = 1 then 1
  else if length % 4 = 2 then tripled.tdiv 4 + 1
  else if length % 4 = 3 then tripled.tdiv 4 + 2
  else tripled.tdiv 4

/-- Adding a few bytes to a quarter of an `int` does not overflow. -/
theorem wrap32_quarter_add {value extra : ℤ} (hlower : -2 ^ 31 ≤ value)
    (hupper : value < 2 ^ 31) (hextra : 0 ≤ extra) (hsmall : extra ≤ 2) :
    wrap32 (value.tdiv 4 + extra) = value.tdiv 4 + extra := by
  have hquarter := Int.tdiv_eq_ediv (a := value) (b := 4)
  have hsign : (4 : ℤ).sign = 1 := rfl
  rw [hsign] at hquarter
  apply wrap32_eq_self <;> split_ifs at hquarter <;> omega

theorem nTotal_eq {length : ℕ} (hlength : length < 2 ^ 31) :
    nTotal length = acceptedFrom length := by
  have htripled : wrap32 ((length : ℤ) * 3) =
      if 3 * (length : ℤ) < 2 ^ 31 then 3 * (length : ℤ)
      else 3 * (length : ℤ) - 2 ^ 32 := by
    rw [wrap32, Int.bmod_def]
    split_ifs <;> omega
  have hrange : -2 ^ 31 ≤ wrap32 ((length : ℤ) * 3) ∧
      wrap32 ((length : ℤ) * 3) < 2 ^ 31 := by
    rw [htripled]
    split_ifs <;> omega
  have hmod : (length : ℤ).tmod 4 = (length : ℤ) % 4 :=
    Int.tmod_eq_emod_of_nonneg (by omega)
  have hcases : (length : ℤ) % 4 = 0 ∨ (length : ℤ) % 4 = 1 ∨
      (length : ℤ) % 4 = 2 ∨ (length : ℤ) % 4 = 3 := by omega
  rw [nTotal, acceptedFrom, hmod, ← htripled]
  generalize wrap32 ((length : ℤ) * 3) = tripled at hrange
  rcases hcases with hrest | hrest | hrest | hrest
  · simp [hrest]
  · simp [hrest]
  · simp [hrest, wrap32_quarter_add hrange.1 hrange.2]
  · simp [hrest, wrap32_quarter_add hrange.1 hrange.2]

/-- The text is empty, the check refuses it, or there is room for all bytes
that its characters decode to and for the terminator. -/
def DecodeFits (text : ByteString) (nOutLen : ℤ) : Prop :=
  text = [] ∨ nOutLen < acceptedFrom text.length ∨
    (3 * alphabetCount text / 4 : ℕ) < nOutLen

/-- The variables with which the loop starts, on an untouched buffer. -/
def Decoder.start (memory : Memory) : Decoder :=
  ⟨⟨memory, []⟩, 0, 0, 4, 0⟩

/-- The decoder past its length check touches the offsets of the decoded bytes
and one more. -/
theorem mem_touched_decode (memory : Memory) (text : ByteString) (index : ℕ) :
    index ∈ (text.foldl Decoder.next (.start memory)).tail.terminate.touched ↔
      index ≤ 3 * alphabetCount text / 4 := by
  have hstart : (Decoder.start memory).Progress 0 :=
    ⟨rfl, rfl, by simp [Decoder.start]⟩
  have hprogress := hstart.foldl text
  rw [Nat.zero_add] at hprogress
  rw [Decoder.mem_touched_terminate, hprogress.tail.1, hprogress.tail.2]
  omega

/-- The decoder refuses or stays inside its buffer exactly when text and buffer
fit. -/
theorem base64Decode_inBounds_iff (memory : Memory) (nOutLen : ℤ)
    (pszSrc : CString) (hint : pszSrc.bytes.length < 2 ^ 31) :
    let result := base64Decode ⟨memory, []⟩ nOutLen pszSrc pszSrc.bytes.length
    ((result.1 = -1 ∧ result.2.touched = []) ∨
        ∀ index ∈ result.2.touched, (index : ℤ) < nOutLen) ↔
      DecodeFits pszSrc.bytes nOutLen := by
  intro result
  rw [DecodeFits, ← nTotal_eq hint]
  by_cases hempty : pszSrc.bytes = []
  · have hresult : result = (0, ⟨memory, []⟩) := by
      simp [result, base64Decode, hempty]
    simp [hresult, hempty]
  have hpos : 0 < pszSrc.bytes.length := List.length_pos_iff.mpr hempty
  by_cases hrefused : nOutLen < nTotal pszSrc.bytes.length
  · have hresult : result = (-1, ⟨memory, []⟩) := by
      simp only [result, base64Decode]
      rw [if_pos ⟨by omega, hrefused⟩]
    simp [hresult, hrefused]
  · have htouched : ∀ index, index ∈ result.2.touched ↔
        index ≤ 3 * alphabetCount pszSrc.bytes / 4 := by
      intro index
      rw [← mem_touched_decode memory]
      simp only [result, base64Decode]
      rw [if_neg (fun h => hrefused h.2), if_neg hempty, Decoder.start]
    have hsome : result.2.touched ≠ [] :=
      List.ne_nil_of_mem ((htouched 0).mpr (Nat.zero_le _))
    simp only [hempty, hrefused, hsome, htouched, and_false, false_or]
    constructor
    · intro hall
      exact hall _ le_rfl
    · intro hroom index hindex
      omega

/-- Four characters fit into a buffer of four bytes. -/
theorem base64Decode_inBounds_of_four_bytes :
    let result := base64Decode ⟨fun _ => 0, []⟩ 4 ⟨ascii "AAAA", by decide⟩ 4
    (result.1 = -1 ∧ result.2.touched = []) ∨
      ∀ index ∈ result.2.touched, (index : ℤ) < 4 :=
  (base64Decode_inBounds_iff _ 4 ⟨ascii "AAAA", by decide⟩ (by decide)).mpr
    (.inr (.inr (by decide)))

/-- Four characters and a buffer of three bytes: the terminator is at offset
three. -/
theorem base64Decode_reads_behind_buffer :
    ¬ ∀ (memory : Memory) (nOutLen : ℤ) (pszSrc : CString), 0 ≤ nOutLen →
      let result :=
        base64Decode ⟨memory, []⟩ nOutLen pszSrc pszSrc.bytes.length
      (result.1 = -1 ∧ result.2.touched = []) ∨
        ∀ index ∈ result.2.touched, (index : ℤ) < nOutLen := by
  intro hall
  have hbehind := hall (fun _ => 0) 3 ⟨ascii "AAAA", by decide⟩ (by decide)
  revert hbehind
  decide

end KataCpp.Base64
