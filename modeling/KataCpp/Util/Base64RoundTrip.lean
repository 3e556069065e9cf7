import KataCpp.Util.Base64

/-!
# Base64 round trip

The encoder turns three bytes, read as one 24-bit number, into its four digits
in base 64; the decoder collects the four digits and reads the three bytes
back.  The two meet in `encodeText`, the text of a byte sequence: the encoder
writes exactly this text, and the decoder maps it back to the bytes, whatever
the length of the last group.
-/

namespace KataCpp.Base64

open KataCpp.Bytes
open KataCpp.MachineInt

/-- The number that three bytes spell, most significant byte first. -/
def groupValue (byte0 byte1 byte2 : UInt8) : ℕ :=
  (byte0.toNat * 256 + byte1.toNat) * 256 + byte2.toNat

/-- The table indices of the encoder are base-64 digits. -/
theorem index0_lt (byte0 : UInt8) : index0 byte0 < 64 := by
  have hbyte0 := byte0.toNat_lt
  rw [index0, Nat.shiftRight_eq_div_pow]
  omega

/-- The low bits of `high`, moved up by the width of `low`, and `low`. -/
theorem mask_shift_or_eq {high low bits width : ℕ} (hlow : low < 2 ^ width) :
    ((high &&& (2 ^ bits - 1)) <<< width) ||| low =
      high % 2 ^ bits * 2 ^ width + low := by
  rw [← Nat.shiftLeft_add_eq_or_of_lt hlow, Nat.and_two_pow_sub_one_eq_mod,
    Nat.shiftLeft_eq]

theorem index1_eq (byte0 byte1 : UInt8) :
    index1 byte0 byte1 = byte0.toNat % 4 * 16 + byte1.toNat / 16 := by
  have hbyte1 := byte1.toNat_lt
  rw [index1, Nat.shiftRight_eq_div_pow]
  exact @mask_shift_or_eq byte0.toNat _ 2 4 (by omega)

theorem index2_eq (byte1 byte2 : UInt8) :
    index2 byte1 byte2 = byte1.toNat % 16 * 4 + byte2.toNat / 64 := by
  have hbyte2 := byte2.toNat_lt
  rw [index2, Nat.shiftRight_eq_div_pow]
  exact @mask_shift_or_eq byte1.toNat _ 4 2 (by omega)

theorem index3_eq (byte2 : UInt8) : index3 byte2 = byte2.toNat % 64 :=
  Nat.and_two_pow_sub_one_eq_mod byte2.toNat 6

theorem index1_lt (byte0 byte1 : UInt8) : index1 byte0 byte1 < 64 := by
  have hbyte1 := byte1.toNat_lt
  rw [index1_eq]
  omega

theorem index2_lt (byte1 byte2 : UInt8) : index2 byte1 byte2 < 64 := by
  have hbyte2 := byte2.toNat_lt
  rw [index2_eq]
  omega

theorem index3_lt (byte2 : UInt8) : index3 byte2 < 64 := by
  rw [index3_eq]
  exact Nat.mod_lt _ (by norm_num)

/-- The first two digits of a group, and the first byte. -/
theorem indices_two (byte0 byte1 : UInt8) :
    index0 byte0 * 64 + index1 byte0 byte1 =
      byte0.toNat * 16 + byte1.toNat / 16 := by
  rw [index1_eq, index0, Nat.shiftRight_eq_div_pow]
  omega

/-- The first three digits of a group, and the first two bytes. -/
theorem indices_three (byte0 byte1 byte2 : UInt8) :
    (index0 byte0 * 64 + index1 byte0 byte1) * 64 + index2 byte1 byte2 =
      (byte0.toNat * 256 + byte1.toNat) * 4 + byte2.toNat / 64 := by
  rw [indices_two, index2_eq]
  omega

/-- The four table indices are the digits of the group in base 64. -/
theorem indices_four (byte0 byte1 byte2 : UInt8) :
    ((index0 byte0 * 64 + index1 byte0 byte1) * 64 +
        index2 byte1 byte2) * 64 + index3 byte2 =
      groupValue byte0 byte1 byte2 := by
  rw [indices_three, index3_eq, groupValue]
  omega

def groupText (byte0 byte1 byte2 : UInt8) : ByteString :=
  [base64char (index0 byte0), base64char (index1 byte0 byte1),
    base64char (index2 byte1 byte2), base64char (index3 byte2)]

/-- The base64 text of a byte sequence.  Missing bytes of the last group count
as zero, and the characters that hold none of its bits are `=`. -/
def encodeText : ByteString → ByteString
  | [] => []
  | [byte0] =>
      [base64char (index0 byte0), base64char (index1 byte0 0),
        padding, padding]
  | [byte0, byte1] =>
      [base64char (index0 byte0), base64char (index1 byte0 byte1),
        base64char (index2 byte1 0), padding]
  | byte0 :: byte1 :: byte2 :: rest =>
      groupText byte0 byte1 byte2 ++ encodeText rest

theorem length_encodeText (bytes : ByteString) :
    (encodeText bytes).length = 4 * ((bytes.length + 2) / 3) := by
  induction bytes using encodeText.induct with
  | case1 => rfl
  | case2 byte0 => simp [encodeText]
  | case3 byte0 byte1 => simp [encodeText]
  | case4 byte0 byte1 byte2 rest ih =>
      rw [encodeText, List.length_append, ih]
      simp only [groupText, List.length_cons, List.length_nil]
      omega

theorem base64char_ne_zero : ∀ index < 64, base64char index ≠ 0 := by
  decide +kernel

theorem zero_notMem_encodeText (bytes : ByteString) :
    0 ∉ encodeText bytes := by
  have hindex0 := fun byte => (base64char_ne_zero _ (index0_lt byte)).symm
  have hindex1 := fun byte0 byte1 =>
    (base64char_ne_zero _ (index1_lt byte0 byte1)).symm
  have hindex2 := fun byte1 byte2 =>
    (base64char_ne_zero _ (index2_lt byte1 byte2)).symm
  have hindex3 := fun byte => (base64char_ne_zero _ (index3_lt byte)).symm
  induction bytes using encodeText.induct with
  | case1 => exact List.not_mem_nil
  | case2 byte0 => simp [encodeText, padding, hindex0, hindex1]
  | case3 byte0 byte1 =>
      simp [encodeText, padding, hindex0, hindex1, hindex2]
  | case4 byte0 byte1 byte2 rest ih =>
      simp [encodeText, groupText, hindex0, hindex1, hindex2, hindex3, ih]

/-- The text of a byte sequence as a NUL-terminated string. -/
def encodedString (bytes : ByteString) : CString :=
  ⟨encodeText bytes, zero_notMem_encodeText bytes⟩

/-! ## The encoder writes the text -/

/-- The loop and the tail of the encoder write the text of the input. -/
theorem Encoder.run_writes {lpszIn : Memory} {bytes : ByteString}
    {encoder : Encoder} (hinput : Holds lpszIn encoder.pInCur bytes) :
    (Encoder.run lpszIn bytes.length encoder).out =
        encoder.out.writes encoder.pszOut (encodeText bytes) ∧
      (Encoder.run lpszIn bytes.length encoder).pszOut =
        encoder.pszOut + (encodeText bytes).length := by
  induction bytes using encodeText.induct generalizing encoder with
  | case1 => exact ⟨rfl, rfl⟩
  | case2 byte0 =>
      simp only [holds_cons_iff] at hinput
      obtain ⟨hbyte0, -⟩ := hinput
      subst hbyte0
      constructor
      · simp [Encoder.run, Encoder.tail1, encodeText, OutBuffer.writes, index1]
      · rfl
  | case3 byte0 byte1 =>
      simp only [holds_cons_iff] at hinput
      obtain ⟨hbyte0, hbyte1, -⟩ := hinput
      subst hbyte0 hbyte1
      constructor
      · simp [Encoder.run, Encoder.tail2, encodeText, OutBuffer.writes, index2]
      · rfl
  | case4 byte0 byte1 byte2 rest ih =>
      simp only [holds_cons_iff] at hinput
      obtain ⟨hbyte0, hbyte1, hbyte2, hrest⟩ := hinput
      subst hbyte0 hbyte1 hbyte2
      have hgroup := @ih (encoder.group lpszIn) hrest
      constructor
      · rw [encodeText, OutBuffer.writes_append]
        exact hgroup.1
      · rw [encodeText, List.length_append, ← Nat.add_assoc]
        exact hgroup.2

theorem nNeededLen_eq {length : ℕ} (hfits : 4 * ((length + 2) / 3) < 2 ^ 31) :
    nNeededLen length = (4 * ((length + 2) / 3) : ℕ) := by
  have hsum : wrap32 ((length : ℤ) + 2) = (length + 2 : ℕ) := by
    rw [wrap32_eq_self] <;> omega
  have hdiv : ((length + 2 : ℕ) : ℤ).tdiv 3 = ((length + 2) / 3 : ℕ) := rfl
  rw [nNeededLen, hsum, hdiv, wrap32_eq_self] <;> omega

/-- With enough room the encoder writes the text of its input and a NUL, and
returns the length of the text. -/
theorem base64Encode_eq {lpszIn : Memory} {bytes : ByteString}
    {lpszOutBuffer : OutBuffer} {nOutLen : ℤ}
    (hinput : Holds lpszIn 0 bytes) (hbytes : bytes ≠ [])
    (hfits : (encodeText bytes).length < 2 ^ 31)
    (hroom : (encodeText bytes).length ≤ nOutLen) :
    base64Encode lpszOutBuffer nOutLen lpszIn bytes.length =
      (((encodeText bytes).length : ℤ),
        (lpszOutBuffer.writes 0 (encodeText bytes)).write
          (encodeText bytes).length 0) := by
  have hpositive : 0 < bytes.length := List.length_pos_iff.2 hbytes
  have hneeded : nNeededLen bytes.length = (encodeText bytes).length := by
    rw [length_encodeText] at hfits ⊢
    exact nNeededLen_eq hfits
  obtain ⟨hout, hpszOut⟩ :=
    @Encoder.run_writes lpszIn bytes ⟨lpszOutBuffer, 0, 0⟩ hinput
  rw [base64Encode, if_neg (by omega), if_neg (by omega)]
  simp only [Int.toNat_natCast, hout, hpszOut, Nat.zero_add]
  rw [wrap32_eq_self (by omega) (by omega)]

/-- What the encoder leaves in its buffer is the text as a C string. -/
theorem encodedString_storedIn (lpszOutBuffer : OutBuffer)
    (bytes : ByteString) :
    (encodedString bytes).StoredIn
      ((lpszOutBuffer.writes 0 (encodeText bytes)).write
        (encodeText bytes).length 0).bytes :=
  (encodedString bytes).storedIn_writes lpszOutBuffer

/-! ## The decoder reads the bytes back -/

/-- The table maps every character of the alphabet to its index. -/
theorem base64DecodeTable_base64char : ∀ index < 64,
    ¬ base64char index > 0x7f ∧
      base64DecodeTable.getD (base64char index).toNat 255 =
        index.toUInt16 := by
  decide +kernel

theorem ne_toUInt16_of_lt : ∀ index < 64, 255 ≠ index.toUInt16 := by
  decide +kernel

theorem Decoder.next_base64char (decoder : Decoder) {index : ℕ}
    (hindex : index < 64) :
    decoder.next (base64char index) = decoder.push index.toUInt16 := by
  obtain ⟨hascii, hentry⟩ := base64DecodeTable_base64char index hindex
  rw [Decoder.next, if_neg hascii]
  simp only [hentry]
  rw [if_neg (ne_toUInt16_of_lt index hindex)]

/-- Padding is skipped, as every character outside the alphabet. -/
theorem Decoder.next_padding (decoder : Decoder) :
    decoder.next padding = decoder := rfl

/-- Six more bits at the low end of `lByteBuffer`. -/
theorem shiftLeft_or_eq {value index : ℕ} (hvalue : value < 2 ^ 58)
    (hindex : index < 64) :
    (UInt64.ofNat value <<< 6) ||| index.toUInt16.toUInt64 =
      UInt64.ofNat (value * 64 + index) := by
  have hshift : (UInt64.ofNat value <<< 6).toNat = value <<< 6 := by
    rw [UInt64.toNat_shiftLeft, UInt64.toNat_ofNat',
      Nat.mod_eq_of_lt (by omega : value < 2 ^ 64), Nat.shiftLeft_eq,
      Nat.shiftLeft_eq]
    exact Nat.mod_eq_of_lt (by simp; omega)
  have hlow : index.toUInt16.toUInt64.toNat = index := by
    simp
    omega
  apply UInt64.toNat_inj.1
  calc
    ((UInt64.ofNat value <<< 6) ||| index.toUInt16.toUInt64).toNat
        = value <<< 6 ||| index := by rw [UInt64.toNat_or, hshift, hlow]
    _ = value * 64 + index := by
        rw [← Nat.shiftLeft_add_eq_or_of_lt hindex, Nat.shiftLeft_eq]
    _ = (UInt64.ofNat (value * 64 + index)).toNat := by
        rw [UInt64.toNat_ofNat', Nat.mod_eq_of_lt (by omega)]

/-- The bytes of `lByteBuffer` are its digits in base 256. -/
theorem pSave_eq {value index : ℕ} {byte : UInt8} (hvalue : value < 2 ^ 64)
    (hindex : index < 3) (hbyte : value / 256 ^ index % 256 = byte.toNat) :
    pSave (UInt64.ofNat value) (UInt64.ofNat index) = byte := by
  have hshift : (8 * UInt64.ofNat index).toNat % 64 = 8 * index := by
    interval_cases index <;> rfl
  apply UInt8.toNat_inj.1
  calc
    (pSave (UInt64.ofNat value) (UInt64.ofNat index)).toNat
        = value >>> (8 * index) % 256 := by
          rw [pSave, UInt64.toNat_toUInt8, UInt64.toNat_shiftRight, hshift,
            UInt64.toNat_ofNat', Nat.mod_eq_of_lt hvalue]
    _ = value / 256 ^ index % 256 := by
        rw [Nat.shiftRight_eq_div_pow, pow_mul]
        norm_num
    _ = byte.toNat := hbyte

theorem shiftRight_eq {value bits : ℕ} (hvalue : value < 2 ^ 64)
    (hbits : bits < 64) :
    UInt64.ofNat value >>> UInt64.ofNat bits =
      UInt64.ofNat (value / 2 ^ bits) := by
  have hquotient : value / 2 ^ bits < 2 ^ 64 :=
    lt_of_le_of_lt (Nat.div_le_self value (2 ^ bits)) hvalue
  apply UInt64.toNat_inj.1
  calc
    (UInt64.ofNat value >>> UInt64.ofNat bits).toNat = value >>> bits := by
        rw [UInt64.toNat_shiftRight, UInt64.toNat_ofNat', UInt64.toNat_ofNat',
          Nat.mod_eq_of_lt hvalue, Nat.mod_eq_of_lt (by omega : bits < 2 ^ 64),
          Nat.mod_eq_of_lt hbits]
    _ = (UInt64.ofNat (value / 2 ^ bits)).toNat := by
        rw [Nat.shiftRight_eq_div_pow, UInt64.toNat_ofNat',
          Nat.mod_eq_of_lt hquotient]

/-- The first three characters of a group are collected. -/
theorem Decoder.push_collects (out : OutBuffer) (pszOut nRet : ℕ)
    {value index : ℕ} (space : ℕ) (hvalue : value < 2 ^ 58)
    (hindex : index < 64) :
    Decoder.push ⟨out, pszOut, UInt64.ofNat value, space + 2, nRet⟩
        index.toUInt16 =
      ⟨out, pszOut, UInt64.ofNat (value * 64 + index), space + 1, nRet⟩ := by
  simp only [Decoder.push, shiftLeft_or_eq hvalue hindex]
  rfl

/-- The fourth character of a group writes its three bytes. -/
theorem Decoder.push_flushes (out : OutBuffer) (pszOut nRet : ℕ)
    {value index : ℕ} (hvalue : value < 2 ^ 58) (hindex : index < 64)
    {byte0 byte1 byte2 : UInt8}
    (hgroup : value * 64 + index = groupValue byte0 byte1 byte2) :
    Decoder.push ⟨out, pszOut, UInt64.ofNat value, 1, nRet⟩ index.toUInt16 =
      ⟨out.writes pszOut [byte0, byte1, byte2], pszOut + 3, 0, 4,
        nRet + 1⟩ := by
  have hbyte0 := byte0.toNat_lt
  have hbyte1 := byte1.toNat_lt
  have hbyte2 := byte2.toNat_lt
  rw [groupValue] at hgroup
  have hfits : value * 64 + index < 2 ^ 64 := by omega
  have hsave2 : pSave (UInt64.ofNat (value * 64 + index)) 2 = byte0 :=
    @pSave_eq _ 2 _ hfits (by norm_num) (by omega)
  have hsave1 : pSave (UInt64.ofNat (value * 64 + index)) 1 = byte1 :=
    @pSave_eq _ 1 _ hfits (by norm_num) (by omega)
  have hsave0 : pSave (UInt64.ofNat (value * 64 + index)) 0 = byte2 :=
    @pSave_eq _ 0 _ hfits (by norm_num) (by omega)
  simp only [Decoder.push, shiftLeft_or_eq hvalue hindex, hsave0, hsave1,
    hsave2]
  rfl

/-- Two characters are left in the buffer after a last group of one byte. -/
theorem Decoder.tail_one_byte (out : OutBuffer) (pszOut nRet : ℕ)
    {value : ℕ} {byte0 : UInt8} (hvalue : value = byte0.toNat * 16) :
    Decoder.tail ⟨out, pszOut, UInt64.ofNat value, 2, nRet⟩ =
      ⟨out.writes pszOut [byte0], pszOut + 1, UInt64.ofNat (value / 2 ^ 4), 2,
        nRet * 3 + 1⟩ := by
  have hbyte0 := byte0.toNat_lt
  have hshift : UInt64.ofNat value >>> 4 = UInt64.ofNat (value / 2 ^ 4) :=
    @shiftRight_eq value 4 (by omega) (by norm_num)
  have hsave0 : pSave (UInt64.ofNat (value / 2 ^ 4)) 0 = byte0 :=
    @pSave_eq _ 0 _ (by omega) (by norm_num) (by omega)
  simp only [Decoder.tail, hshift, hsave0]
  rfl

/-- Three characters are left in the buffer after a last group of two
bytes. -/
theorem Decoder.tail_two_bytes (out : OutBuffer) (pszOut nRet : ℕ)
    {value : ℕ} {byte0 byte1 : UInt8}
    (hvalue : value = (byte0.toNat * 256 + byte1.toNat) * 4) :
    Decoder.tail ⟨out, pszOut, UInt64.ofNat value, 1, nRet⟩ =
      ⟨out.writes pszOut [byte0, byte1], pszOut + 2,
        UInt64.ofNat (value / 2 ^ 2), 1, nRet * 3 + 2⟩ := by
  have hbyte0 := byte0.toNat_lt
  have hbyte1 := byte1.toNat_lt
  have hshift : UInt64.ofNat value >>> 2 = UInt64.ofNat (value / 2 ^ 2) :=
    @shiftRight_eq value 2 (by omega) (by norm_num)
  have hsave1 : pSave (UInt64.ofNat (value / 2 ^ 2)) 1 = byte0 :=
    @pSave_eq _ 1 _ (by omega) (by norm_num) (by omega)
  have hsave0 : pSave (UInt64.ofNat (value / 2 ^ 2)) 0 = byte1 :=
    @pSave_eq _ 0 _ (by omega) (by norm_num) (by omega)
  simp only [Decoder.tail, hshift, hsave0, hsave1]
  rfl

/-- Two characters of a group, read by a decoder with an empty buffer. -/
theorem Decoder.next_two (out : OutBuffer) (pszOut nRet : ℕ)
    (byte0 byte1 : UInt8) :
    ((Decoder.mk out pszOut 0 4 nRet).next (base64char (index0 byte0))).next
        (base64char (index1 byte0 byte1)) =
      ⟨out, pszOut, UInt64.ofNat (byte0.toNat * 16 + byte1.toNat / 16), 2,
        nRet⟩ := by
  have hindex0 := index0_lt byte0
  have hindex1 := index1_lt byte0 byte1
  have hfirst := push_collects out pszOut nRet 2
    (by norm_num : 0 < 2 ^ 58) hindex0
  rw [next_base64char _ hindex0, next_base64char _ hindex1]
  apply (congrArg (push · (index1 byte0 byte1).toUInt16) hfirst).trans
  rw [push_collects out pszOut nRet 1 (by omega) hindex1, Nat.zero_mul,
    Nat.zero_add, indices_two]

/-- Three characters of a group, read by a decoder with an empty buffer. -/
theorem Decoder.next_three (out : OutBuffer) (pszOut nRet : ℕ)
    (byte0 byte1 byte2 : UInt8) :
    (((Decoder.mk out pszOut 0 4 nRet).next (base64char (index0 byte0))).next
        (base64char (index1 byte0 byte1))).next
        (base64char (index2 byte1 byte2)) =
      ⟨out, pszOut, UInt64.ofNat
        ((byte0.toNat * 256 + byte1.toNat) * 4 + byte2.toNat / 64), 1,
        nRet⟩ := by
  have hbyte0 := byte0.toNat_lt
  have hbyte1 := byte1.toNat_lt
  have hindex2 := index2_lt byte1 byte2
  rw [next_two, next_base64char _ hindex2,
    push_collects out pszOut nRet 0 (by omega) hindex2, ← indices_two,
    indices_three]

/-- A whole group writes its bytes and empties the buffer. -/
theorem Decoder.foldl_next_groupText (out : OutBuffer) (pszOut nRet : ℕ)
    (byte0 byte1 byte2 : UInt8) :
    (groupText byte0 byte1 byte2).foldl Decoder.next ⟨out, pszOut, 0, 4, nRet⟩ =
      ⟨out.writes pszOut [byte0, byte1, byte2], pszOut + 3, 0, 4,
        nRet + 1⟩ := by
  have hbyte0 := byte0.toNat_lt
  have hbyte1 := byte1.toNat_lt
  have hbyte2 := byte2.toNat_lt
  have hindex3 := index3_lt byte2
  simp only [groupText, List.foldl_cons, List.foldl_nil]
  rw [next_three, next_base64char _ hindex3]
  apply push_flushes out pszOut nRet (by omega) hindex3
  rw [← indices_three, indices_four]

/-- The decoder writes the bytes of the text and counts them. -/
theorem Decoder.decode_encodeText (out : OutBuffer) (pszOut nRet : ℕ)
    (bytes : ByteString) :
    ∃ lByteBuffer lByteBufferSpace,
      ((encodeText bytes).foldl Decoder.next
          ⟨out, pszOut, 0, 4, nRet⟩).tail =
        ⟨out.writes pszOut bytes, pszOut + bytes.length, lByteBuffer,
          lByteBufferSpace, nRet * 3 + bytes.length⟩ := by
  induction bytes using encodeText.induct generalizing out pszOut nRet with
  | case1 => exact ⟨0, 4, rfl⟩
  | case2 byte0 =>
      simp only [encodeText, List.foldl_cons, List.foldl_nil, next_padding,
        next_two]
      exact ⟨_, _, tail_one_byte out pszOut nRet (by simp)⟩
  | case3 byte0 byte1 =>
      simp only [encodeText, List.foldl_cons, List.foldl_nil, next_padding,
        next_three]
      exact ⟨_, _, tail_two_bytes out pszOut nRet (by simp)⟩
  | case4 byte0 byte1 byte2 rest ih =>
      obtain ⟨lByteBuffer, lByteBufferSpace, hrest⟩ :=
        ih (out.writes pszOut [byte0, byte1, byte2]) (pszOut + 3) (nRet + 1)
      refine ⟨lByteBuffer, lByteBufferSpace, ?_⟩
      rw [encodeText, List.foldl_append, foldl_next_groupText, hrest]
      congr 1
      · simp only [List.length_cons]
        omega
      · simp only [List.length_cons]
        omega

/-- For a text of whole groups the decoder demands at most three bytes a
group, also where its computation of the size overflows. -/
theorem nTotal_le {groups : ℕ} :
    nTotal (4 * groups : ℕ) ≤ (3 * groups : ℕ) := by
  have hmod : ((4 * groups : ℕ) : ℤ).tmod 4 = 0 := by
    rw [Int.tmod_eq_emod_of_nonneg (by omega)]
    omega
  rw [nTotal, hmod]
  simp only
  calc
    (wrap32 (((4 * groups : ℕ) : ℤ) * 3)).tdiv 4
        ≤ (((4 * groups : ℕ) : ℤ) * 3).tdiv 4 := by
          apply Int.tdiv_le_tdiv (by norm_num)
          exact wrap32_le (by omega)
    _ = (3 * groups : ℕ) := by
        rw [Int.tdiv_eq_ediv_of_nonneg (by omega)]
        omega

/-- The terminator is beyond the decoded bytes. -/
theorem Decoder.holds_terminate {decoder : Decoder} {bytes : ByteString}
    (hbytes : Holds decoder.out.bytes 0 bytes)
    (hpszOut : decoder.pszOut = bytes.length) :
    Holds decoder.terminate.bytes 0 bytes := by
  apply hbytes.congr
  intro index hindex
  rw [Nat.zero_add, ← hpszOut] at hindex
  simp only [Decoder.terminate]
  split
  · exact OutBuffer.bytes_write_of_ne _ 0 (Nat.ne_of_lt hindex)
  · rfl

/-- Decoding the text of a byte sequence returns the sequence. -/
theorem base64Decode_encodedString {bytes : ByteString}
    {lpszOutBuffer : OutBuffer} {nOutLen : ℤ} (hbytes : bytes ≠ [])
    (hfits : (encodeText bytes).length < 2 ^ 31)
    (hroom : 3 * ((bytes.length + 2) / 3) ≤ nOutLen) :
    let decoded := base64Decode lpszOutBuffer nOutLen (encodedString bytes)
      (encodeText bytes).length
    decoded.1 = bytes.length ∧ Holds decoded.2.bytes 0 bytes := by
  have hpositive : 0 < bytes.length := List.length_pos_iff.2 hbytes
  rw [length_encodeText] at hfits
  have htotal : ¬ (0 < ((encodeText bytes).length : ℤ) ∧
      nTotal (encodeText bytes).length > nOutLen) := by
    rintro ⟨-, htotal⟩
    rw [length_encodeText] at htotal
    have hdemand := @nTotal_le ((bytes.length + 2) / 3)
    omega
  have htext : (encodedString bytes).bytes ≠ [] := by
    apply List.length_pos_iff.1
    rw [encodedString, length_encodeText]
    omega
  obtain ⟨lByteBuffer, lByteBufferSpace, hdecode⟩ :=
    Decoder.decode_encodeText lpszOutBuffer 0 0 bytes
  rw [base64Decode, if_neg htotal, if_neg htext]
  simp only [encodedString, hdecode, Nat.zero_mul, Nat.zero_add]
  constructor
  · exact wrap32_eq_self (by omega) (by omega)
  · exact Decoder.holds_terminate (lpszOutBuffer.holds_writes 0 bytes) rfl

/-- Every non-empty byte sequence survives the round trip through the encoder
and the decoder: the encoder leaves one NUL-terminated text in its buffer and
returns its length, and decoding this text returns the number of bytes and
writes the bytes. -/
theorem base64Decode_base64Encode {bytes : ByteString} {lpszIn : Memory}
    {textBuffer byteBuffer : OutBuffer} {nTextLen nOutLen : ℤ}
    (hbytes : bytes ≠ [])
    (hfits : 3 * (4 * ((bytes.length + 2) / 3)) < 2 ^ 31)
    (hinput : Holds lpszIn 0 bytes)
    (htextRoom : 4 * ((bytes.length + 2) / 3) ≤ nTextLen)
    (hbyteRoom : 3 * ((bytes.length + 2) / 3) ≤ nOutLen) :
    let encoded := base64Encode textBuffer nTextLen lpszIn bytes.length
    (∃ text : CString, text.StoredIn encoded.2.bytes) ∧
      ∀ text : CString, text.StoredIn encoded.2.bytes →
        encoded.1 = text.bytes.length ∧
        (base64Decode byteBuffer nOutLen text encoded.1).1 = bytes.length ∧
        Holds (base64Decode byteBuffer nOutLen text encoded.1).2.bytes 0
          bytes := by
  rw [← length_encodeText] at hfits
  have hlength := length_encodeText bytes
  have hencoded : base64Encode textBuffer nTextLen lpszIn bytes.length = _ :=
    base64Encode_eq hinput hbytes (by omega) (by omega)
  have hstored := encodedString_storedIn textBuffer bytes
  rw [hencoded]
  constructor
  · exact ⟨encodedString bytes, hstored⟩
  · intro text htext
    rw [htext.unique hstored]
    constructor
    · rfl
    · exact base64Decode_encodedString hbytes (by omega) hbyteRoom

/-- A group of three bytes and a last group of one. -/
theorem base64Decode_base64Encode_four_bytes :
    let bytes : ByteString := [0, 255, 128, 61]
    let lpszIn : Memory := fun index => bytes.getD index 7
    let buffer : OutBuffer := ⟨fun _ => 9, []⟩
    let encoded := base64Encode buffer 9 lpszIn bytes.length
    (∃ text : CString, text.StoredIn encoded.2.bytes) ∧
      ∀ text : CString, text.StoredIn encoded.2.bytes →
        encoded.1 = text.bytes.length ∧
        (base64Decode buffer 6 text encoded.1).1 = bytes.length ∧
        Holds (base64Decode buffer 6 text encoded.1).2.bytes 0 bytes := by
  intro bytes lpszIn buffer
  have hinput : Holds lpszIn 0 bytes := by
    intro index hindex
    rw [Nat.zero_add]
    exact List.getD_eq_getElem bytes 7 hindex
  exact base64Decode_base64Encode (List.cons_ne_nil _ _) (by decide) hinput
    (by decide) (by decide)

end KataCpp.Base64
