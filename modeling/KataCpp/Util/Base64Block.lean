import KataCpp.Util.Base64Canonical

/-!
# Base64 decoding block by block

`base64_string_to_octet_string` looks the characters up with `strchr`, decodes
four of them to three octets, and stops behind the first block in which a
character was not found.  The number of these characters is what it reports as
padding, and it decides how many octets of the block are written.

On the text of a byte sequence it writes the bytes, as `base64_decode` does.  On
any other text its result is given by the characters that were not found.
-/

namespace KataCpp.Base64

open KataCpp.Bytes
open KataCpp.MachineInt

/-- `strchr(b64chars, char) - b64chars`; the terminator is found as well. -/
def sextet (char : UInt8) : Option ℕ :=
  let p := (base64str ++ [0]).idxOf char
  if p ≤ base64str.length then some p else none

/-- The characters of a block that `strchr` does not find. -/
def strangers (input : Memory) (start : ℕ) : ℕ :=
  (List.range 4).countP fun i => (sextet (input (start + i))).isNone

/-- The return value and the output buffer; `k` and `i` are the offsets of the
block in the two buffers. -/
def base64BlockToOctetTriple (out : OutBuffer) (k : ℕ) (input : Memory)
    (i : ℕ) : ℕ × OutBuffer :=
  let sextets (index : ℕ) : UInt8 :=
    ((sextet (input (i + index))).getD 0).toUInt8
  let j := strangers input i
  let out := out.write k (sextets 0 <<< 2 ||| sextets 1 >>> 4)
  let out :=
    if j < 2 then out.write (k + 1) (sextets 1 <<< 4 ||| sextets 2 >>> 2)
    else out
  let out :=
    if j < 1 then out.write (k + 2) (sextets 2 <<< 6 ||| sextets 3) else out
  (j, out)

structure BlockDecoder where
  k : ℕ
  i : ℕ
  j : ℕ
  out : OutBuffer

/-- `while (i < len && j == 0)`, for the number of blocks that are left. -/
def BlockDecoder.run (input : Memory) : ℕ → BlockDecoder → BlockDecoder
  | 0, decoder => decoder
  | blocks + 1, decoder =>
      if decoder.j = 0 then
        let (j, out) := base64BlockToOctetTriple decoder.out decoder.k input
          decoder.i
        BlockDecoder.run input blocks ⟨decoder.k + 3, decoder.i + 4, j, out⟩
      else decoder

/-- The return value, what is stored in `pad`, and the output buffer. -/
def base64StringToOctetString (out : OutBuffer) (input : Memory) (len : ℤ) :
    ℕ × Option ℕ × OutBuffer :=
  if len.tmod 4 ≠ 0 then (0, none, out)
  else
    let finished := BlockDecoder.run input (len.toNat / 4) ⟨0, 0, 0, out⟩
    (finished.i, some finished.j, finished.out)

theorem sextet_base64char : ∀ index < 64,
    sextet (base64char index) = some index := by
  decide +kernel

theorem sextet_padding : sextet padding = none := rfl

/-- The high bits of an octet, and the low ones. -/
theorem toNat_shiftLeft_or {left right bits : UInt8} (hbits : bits.toNat < 8)
    (hright : right.toNat < 2 ^ bits.toNat) :
    (left <<< bits ||| right).toNat =
      left.toNat * 2 ^ bits.toNat % 256 + right.toNat := by
  have hpow : (256 : ℕ) = 2 ^ (8 - bits.toNat) * 2 ^ bits.toNat := by
    rw [← Nat.pow_add, Nat.sub_add_cancel hbits.le]
  rw [UInt8.toNat_or, UInt8.toNat_shiftLeft, Nat.mod_eq_of_lt hbits,
    Nat.shiftLeft_eq, show (2 : ℕ) ^ 8 = 256 from rfl, hpow,
    Nat.mul_mod_mul_right, ← Nat.shiftLeft_eq,
    Nat.shiftLeft_add_eq_or_of_lt hright]

theorem toNat_digit {index : ℕ} (hindex : index < 64) :
    index.toUInt8.toNat = index := by
  rw [Nat.toUInt8_eq, UInt8.toNat_ofNat']
  exact Nat.mod_eq_of_lt (by omega)

theorem octet0_eq (byte0 byte1 : UInt8) :
    (index0 byte0).toUInt8 <<< 2 |||
      (index1 byte0 byte1).toUInt8 >>> 4 = byte0 := by
  have hbyte0 := byte0.toNat_lt
  have hbyte1 := byte1.toNat_lt
  have hright : ((index1 byte0 byte1).toUInt8 >>> 4).toNat =
      byte0.toNat % 4 := by
    rw [UInt8.toNat_shiftRight, toNat_digit (index1_lt _ _), index1_eq]
    simp only [UInt8.reduceToNat, Nat.reduceMod, Nat.shiftRight_eq_div_pow]
    omega
  apply UInt8.toNat_inj.mp
  rw [toNat_shiftLeft_or (by decide) (by rw [hright]; exact Nat.mod_lt _ (by
    decide)), hright, toNat_digit (index0_lt _), index0,
    Nat.shiftRight_eq_div_pow]
  simp only [UInt8.reduceToNat]
  omega

theorem octet1_eq (byte0 byte1 byte2 : UInt8) :
    (index1 byte0 byte1).toUInt8 <<< 4 |||
      (index2 byte1 byte2).toUInt8 >>> 2 = byte1 := by
  have hbyte1 := byte1.toNat_lt
  have hbyte2 := byte2.toNat_lt
  have hright : ((index2 byte1 byte2).toUInt8 >>> 2).toNat =
      byte1.toNat % 16 := by
    rw [UInt8.toNat_shiftRight, toNat_digit (index2_lt _ _), index2_eq]
    simp only [UInt8.reduceToNat, Nat.reduceMod, Nat.shiftRight_eq_div_pow]
    omega
  apply UInt8.toNat_inj.mp
  rw [toNat_shiftLeft_or (by decide) (by rw [hright]; exact Nat.mod_lt _ (by
    decide)), hright, toNat_digit (index1_lt _ _), index1_eq]
  simp only [UInt8.reduceToNat]
  omega

theorem octet2_eq (byte1 byte2 : UInt8) :
    (index2 byte1 byte2).toUInt8 <<< 6 ||| (index3 byte2).toUInt8 = byte2 := by
  have hbyte2 := byte2.toNat_lt
  have hright := toNat_digit (index3_lt byte2)
  apply UInt8.toNat_inj.mp
  rw [toNat_shiftLeft_or (by decide) (by rw [hright]; exact index3_lt _),
    hright, toNat_digit (index2_lt _ _), index2_eq, index3_eq]
  simp only [UInt8.reduceToNat]
  omega

theorem holds_append_iff {memory : Memory} {start : ℕ}
    {left right : ByteString} :
    Holds memory start (left ++ right) ↔
      Holds memory start left ∧ Holds memory (start + left.length) right := by
  induction left generalizing start with
  | nil => simp [holds_nil]
  | cons byte left ih =>
      rw [List.cons_append, holds_cons_iff, holds_cons_iff, ih, and_assoc,
        List.length_cons, Nat.add_right_comm, Nat.add_assoc]

/-- The four characters of a block. -/
theorem holds_block {input : Memory} {i : ℕ}
    {char0 char1 char2 char3 : UInt8}
    (hinput : Holds input i [char0, char1, char2, char3]) :
    input (i + 0) = char0 ∧ input (i + 1) = char1 ∧
      input (i + 2) = char2 ∧ input (i + 3) = char3 := by
  simp only [holds_cons_iff, Nat.add_assoc, Nat.reduceAdd] at hinput
  obtain ⟨h0, h1, h2, h3, -⟩ := hinput
  exact ⟨h0, h1, h2, h3⟩

theorem strangers_eq (input : Memory) (i : ℕ) :
    strangers input i =
      [sextet (input (i + 0)), sextet (input (i + 1)),
        sextet (input (i + 2)), sextet (input (i + 3))].countP
          Option.isNone := rfl

/-- A block of four characters of the alphabet. -/
theorem base64Block_groupText (out : OutBuffer) (k : ℕ) {input : Memory}
    {i : ℕ} {byte0 byte1 byte2 : UInt8}
    (hinput : Holds input i (groupText byte0 byte1 byte2)) :
    base64BlockToOctetTriple out k input i =
      (0, out.writes k [byte0, byte1, byte2]) := by
  obtain ⟨h0, h1, h2, h3⟩ := holds_block hinput
  have hstrangers : strangers input i = 0 := by
    rw [strangers_eq, h0, h1, h2, h3, sextet_base64char _ (index0_lt _),
      sextet_base64char _ (index1_lt _ _), sextet_base64char _ (index2_lt _ _),
      sextet_base64char _ (index3_lt _)]
    rfl
  simp only [base64BlockToOctetTriple, hstrangers, h0, h1, h2, h3,
    sextet_base64char _ (index0_lt _), sextet_base64char _ (index1_lt _ _),
    sextet_base64char _ (index2_lt _ _), sextet_base64char _ (index3_lt _),
    Option.getD_some, octet0_eq, octet1_eq, octet2_eq]
  rfl

/-- A last block of one byte. -/
theorem base64Block_one (out : OutBuffer) (k : ℕ) {input : Memory} {i : ℕ}
    {byte0 : UInt8} (hinput : Holds input i (encodeText [byte0])) :
    base64BlockToOctetTriple out k input i = (2, out.writes k [byte0]) := by
  obtain ⟨h0, h1, h2, h3⟩ := holds_block hinput
  have hstrangers : strangers input i = 2 := by
    rw [strangers_eq, h0, h1, h2, h3, sextet_base64char _ (index0_lt _),
      sextet_base64char _ (index1_lt _ _), sextet_padding]
    rfl
  simp only [base64BlockToOctetTriple, hstrangers, h0, h1,
    sextet_base64char _ (index0_lt _), sextet_base64char _ (index1_lt _ _),
    Option.getD_some, octet0_eq]
  rfl

/-- A last block of two bytes. -/
theorem base64Block_two (out : OutBuffer) (k : ℕ) {input : Memory} {i : ℕ}
    {byte0 byte1 : UInt8}
    (hinput : Holds input i (encodeText [byte0, byte1])) :
    base64BlockToOctetTriple out k input i =
      (1, out.writes k [byte0, byte1]) := by
  obtain ⟨h0, h1, h2, h3⟩ := holds_block hinput
  have hstrangers : strangers input i = 1 := by
    rw [strangers_eq, h0, h1, h2, h3, sextet_base64char _ (index0_lt _),
      sextet_base64char _ (index1_lt _ _), sextet_base64char _ (index2_lt _ _),
      sextet_padding]
    rfl
  simp only [base64BlockToOctetTriple, hstrangers, h0, h1, h2,
    sextet_base64char _ (index0_lt _), sextet_base64char _ (index1_lt _ _),
    sextet_base64char _ (index2_lt _ _), Option.getD_some, octet0_eq,
    octet1_eq]
  rfl

/-- The blocks of a text, from some offsets on. -/
theorem BlockDecoder.run_encodeText {input : Memory} {bytes : ByteString}
    (k i : ℕ) (out : OutBuffer) (hinput : Holds input i (encodeText bytes)) :
    ∃ k', BlockDecoder.run input ((encodeText bytes).length / 4)
        ⟨k, i, 0, out⟩ =
      ⟨k', i + (encodeText bytes).length, 2 - (bytes.length + 2) % 3,
        out.writes k bytes⟩ := by
  induction bytes using encodeText.induct generalizing k i out with
  | case1 => exact ⟨k, rfl⟩
  | case2 byte0 =>
      refine ⟨k + 3, ?_⟩
      have hblock := base64Block_one out k hinput
      simp [BlockDecoder.run, encodeText, hblock]
  | case3 byte0 byte1 =>
      refine ⟨k + 3, ?_⟩
      have hblock := base64Block_two out k hinput
      simp [BlockDecoder.run, encodeText, hblock]
  | case4 byte0 byte1 byte2 rest ih =>
      rw [encodeText, holds_append_iff] at hinput
      obtain ⟨hgroup, hrest⟩ := hinput
      obtain ⟨k', hrun⟩ := ih (k + 3) (i + 4)
        (out.writes k [byte0, byte1, byte2]) hrest
      refine ⟨k', ?_⟩
      have hblock := base64Block_groupText out k hgroup
      have hlength : (encodeText (byte0 :: byte1 :: byte2 :: rest)).length =
          4 + (encodeText rest).length := by
        rw [encodeText, List.length_append]
        rfl
      have hblocks : (4 + (encodeText rest).length) / 4 =
          (encodeText rest).length / 4 + 1 := by omega
      rw [hlength, hblocks, BlockDecoder.run, if_pos rfl, hblock]
      dsimp only
      rw [hrun, BlockDecoder.mk.injEq]
      refine ⟨rfl, by omega, ?_, ?_⟩
      · simp only [List.length_cons]
        omega
      · exact (out.writes_append k [byte0, byte1, byte2] rest).symm

/-- On the text of a byte sequence, `base64_string_to_octet_string` reads all
characters, reports how many of them are padding, and writes the bytes. -/
theorem base64StringToOctetString_encodeText {input : Memory}
    {bytes : ByteString} (out : OutBuffer)
    (hinput : Holds input 0 (encodeText bytes)) :
    base64StringToOctetString out input (encodeText bytes).length =
      ((encodeText bytes).length, some (2 - (bytes.length + 2) % 3),
        out.writes 0 bytes) := by
  obtain ⟨k, hrun⟩ := BlockDecoder.run_encodeText 0 0 out hinput
  have hlength := length_encodeText bytes
  have hwhole : ((encodeText bytes).length : ℤ).tmod 4 = 0 := by
    rw [Int.tmod_eq_emod_of_nonneg (by omega)]
    omega
  rw [base64StringToOctetString, if_neg (not_not.mpr hwhole), Int.toNat_natCast,
    hrun, Nat.zero_add]

/-- The two decoders write the same bytes for a canonical text, and the blocks
leave the buffer behind them alone. -/
theorem decoders_agree {text : CString} {memory : Memory}
    {byteBuffer : OutBuffer} {nOutLen : ℤ} (hcanonical : Canonical text.bytes)
    (hfits : text.bytes.length < 2 ^ 31)
    (hroom : 3 * (text.bytes.length / 4) ≤ nOutLen)
    (htext : text.StoredIn memory) (out : OutBuffer) :
    ∃ bytes : ByteString, ∃ pad,
      let decoded := base64Decode byteBuffer nOutLen text text.bytes.length
      (decoded.1 = bytes.length ∧ Holds decoded.2.bytes 0 bytes) ∧
        base64StringToOctetString out memory text.bytes.length =
          (text.bytes.length, some pad, out.writes 0 bytes) ∧
        bytes.length + pad = 3 * (text.bytes.length / 4) := by
  obtain ⟨bytes, hbytes, hencoded⟩ := hcanonical.exists_encodeText
  obtain rfl : text = encodedString bytes := by
    cases text
    simp only [encodedString, CString.mk.injEq]
    exact hencoded.symm
  have hlength := length_encodeText bytes
  simp only [encodedString] at hfits hroom ⊢
  refine ⟨bytes, _, ?_, base64StringToOctetString_encodeText out htext.1, ?_⟩
  · exact @base64Decode_encodedString bytes byteBuffer nOutLen hbytes hfits
      (by omega)
  · omega

/-- Four bytes, with two padding characters. -/
theorem decoders_agree_padded :
    let text : CString := ⟨ascii "AP+APQ==", by decide⟩
    let memory : Memory := fun index => text.bytes.getD index 0
    let buffer : OutBuffer := ⟨fun _ => 9, []⟩
    ∃ bytes : ByteString, ∃ pad,
      let decoded := base64Decode buffer 6 text text.bytes.length
      (decoded.1 = bytes.length ∧ Holds decoded.2.bytes 0 bytes) ∧
        base64StringToOctetString buffer memory text.bytes.length =
          (text.bytes.length, some pad, buffer.writes 0 bytes) ∧
        bytes.length + pad = 3 * (text.bytes.length / 4) := by
  intro text memory buffer
  have hstored : text.StoredIn memory := by
    refine ⟨fun index hindex => ?_, rfl⟩
    rw [Nat.zero_add]
    exact List.getD_eq_getElem _ _ hindex
  have hcanonical : Canonical text.bytes :=
    ⟨by decide, by decide, ascii "AP+APQ", 2, by decide, by decide,
      by decide +kernel, by decide +kernel⟩
  have hroom : 3 * ((text.bytes.length : ℤ) / 4) ≤ 6 := by decide
  exact decoders_agree hcanonical (by decide) hroom hstored buffer

/-! ## Other texts -/

/-- The octets of a block that are written. -/
theorem mem_touched_block (out : OutBuffer) (k : ℕ) (input : Memory)
    (i index : ℕ) :
    index ∈ (base64BlockToOctetTriple out k input i).2.touched ↔
      index ∈ out.touched ∨
        (k ≤ index ∧ index < k + 3 - min (strangers input i) 2) := by
  simp only [base64BlockToOctetTriple]
  by_cases hold : index ∈ out.touched <;> split_ifs with htwo hone <;>
    simp only [OutBuffer.write, List.mem_cons, hold, or_true, or_false,
      true_or, false_or] <;> omega

theorem BlockDecoder.run_of_stranger {input : Memory} {decoder : BlockDecoder}
    (hstranger : decoder.j ≠ 0) (blocks : ℕ) :
    BlockDecoder.run input blocks decoder = decoder := by
  cases blocks with
  | zero => rfl
  | succ blocks => rw [BlockDecoder.run, if_neg hstranger]

/-- What the loop has done after some blocks, of which only the last may have
characters that were not found. -/
structure BlockDecoder.Stopped (input : Memory) (start finished : BlockDecoder)
    (done : ℕ) : Prop where
  i_eq : finished.i = start.i + 4 * done
  found : ∀ block, block + 1 < done → strangers input (start.i + 4 * block) = 0
  j_eq : finished.j =
    if done = 0 then 0 else strangers input (start.i + 4 * (done - 1))
  touched : ∀ index, index ∈ finished.out.touched ↔
    index ∈ start.out.touched ∨
      (start.k ≤ index ∧ index < start.k + 3 * done - min finished.j 2)

theorem BlockDecoder.run_stopped (input : Memory) (blocks k i : ℕ)
    (out : OutBuffer) :
    ∃ done ≤ blocks,
      BlockDecoder.Stopped input ⟨k, i, 0, out⟩
        (BlockDecoder.run input blocks ⟨k, i, 0, out⟩) done ∧
      ((BlockDecoder.run input blocks ⟨k, i, 0, out⟩).j = 0 →
        done = blocks) := by
  induction blocks generalizing k i out with
  | zero =>
      refine ⟨0, le_rfl, ⟨rfl, fun block hblock => ?_, rfl, fun index => ?_⟩,
        fun _ => rfl⟩
      · exact absurd hblock (Nat.not_lt_zero _)
      · simp only [BlockDecoder.run, Nat.mul_zero, Nat.zero_min]
        exact ⟨Or.inl, fun hmem => hmem.resolve_right (by omega)⟩
  | succ blocks ih =>
      obtain ⟨next, hblock⟩ : ∃ next, base64BlockToOctetTriple out k input i =
          (strangers input i, next) := ⟨_, rfl⟩
      have htouched := mem_touched_block out k input i
      rw [hblock] at htouched
      rw [BlockDecoder.run, if_pos rfl, hblock]
      dsimp only at htouched ⊢
      by_cases hfound : strangers input i = 0
      · rw [hfound] at htouched ⊢
        obtain ⟨done, hle, hstopped, hall⟩ := ih (k + 3) (i + 4) next
        refine ⟨done + 1, by omega, ⟨?_, ?_, ?_, ?_⟩, fun hzero => ?_⟩
        · rw [hstopped.i_eq]
          dsimp only
          omega
        · intro block hlater
          cases block with
          | zero => exact hfound
          | succ block =>
              have hnext := hstopped.found block (by omega)
              dsimp only at hnext ⊢
              rw [Nat.mul_succ, Nat.add_comm (4 * block), ← Nat.add_assoc]
              exact hnext
        · rw [hstopped.j_eq, if_neg (Nat.succ_ne_zero done)]
          dsimp only
          split_ifs with hdone
          · rw [hdone]
            exact hfound.symm
          · congr 1
            omega
        · intro index
          have hj := hstopped.j_eq
          rw [hstopped.touched, htouched, or_assoc]
          refine or_congr_right ?_
          dsimp only at hj ⊢
          split_ifs at hj <;> omega
        · rw [hall hzero]
      · rw [BlockDecoder.run_of_stranger hfound]
        refine ⟨1, by omega, ⟨rfl, ?_, rfl, ?_⟩, fun hzero => ?_⟩
        · intro block hlater
          exact absurd hlater (by omega)
        · exact htouched
        · exact absurd hzero hfound

/-- For any text of whole blocks, the decoder stops behind the first block with
characters that `strchr` does not find, and otherwise at the end.  It reports
their number, and it writes the first octets of the buffer: three for each
block, less the reported number, but at least one of the last block. -/
theorem base64StringToOctetString_stops (input memory : Memory)
    (blocks : ℕ) :
    let outcome := base64StringToOctetString ⟨memory, []⟩ input
      (4 * blocks : ℕ)
    ∃ done pad, done ≤ blocks ∧ outcome.1 = 4 * done ∧
      outcome.2.1 = some pad ∧ (pad = 0 → done = blocks) ∧
      (∀ block, block + 1 < done → strangers input (4 * block) = 0) ∧
      (pad = if done = 0 then 0 else strangers input (4 * (done - 1))) ∧
      ∀ index, index ∈ outcome.2.2.touched ↔ index < 3 * done - min pad 2 := by
  have hwhole : ((4 * blocks : ℕ) : ℤ).tmod 4 = 0 := by
    rw [Int.tmod_eq_emod_of_nonneg (by omega)]
    omega
  have hblocks : 4 * blocks / 4 = blocks := by omega
  obtain ⟨done, hle, hstopped, hall⟩ :=
    BlockDecoder.run_stopped input blocks 0 0 ⟨memory, []⟩
  have hi := hstopped.i_eq
  have hfound := hstopped.found
  have hj := hstopped.j_eq
  have htouched := hstopped.touched
  simp only [Nat.zero_add, List.not_mem_nil, false_or, Nat.zero_le,
    true_and] at hi hfound hj htouched
  rw [base64StringToOctetString, if_neg (not_not.mpr hwhole),
    Int.toNat_natCast, hblocks]
  exact ⟨done, _, hle, hi, rfl, hall, hfound, hj, htouched⟩

end KataCpp.Base64
