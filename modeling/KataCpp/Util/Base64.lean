import KataCpp.Core.Bytes
import KataCpp.Core.MachineInt

/-!
# Base64 encoding and decoding

`base64_encode` reads its input through a pointer and writes the text and a
terminating NUL to the caller's buffer; `base64_decode` reads a NUL-terminated
text and writes the decoded bytes.  Both take the buffer's length as a 32-bit
`int` and return `-1` without writing when their own length check fails.

Offsets into the output buffer and counts that only grow with it are natural
numbers.  The decoder collects six bits at a time in an `unsigned long` of 64
bits and reads its bytes back through a `char` pointer, on a little-endian
machine.
-/

namespace KataCpp.Base64

open KataCpp.Bytes
open KataCpp.MachineInt

def base64str : ByteString :=
  ascii "ABCDEFGHIJKLMNOPQRSTUVWXYZabcdefghijklmnopqrstuvwxyz0123456789+/"

/-- `base64str[index]`. -/
def base64char (index : ℕ) : UInt8 := base64str.getD index 0

/-- The `=` character that fills up the last group. -/
def padding : UInt8 := 61

/-- The four table indices of a group.  Input bytes are promoted to `int`
before they are shifted and masked. -/
def index0 (byte0 : UInt8) : ℕ := byte0.toNat >>> 2

def index1 (byte0 byte1 : UInt8) : ℕ :=
  ((byte0.toNat &&& 0x3) <<< 4) ||| (byte1.toNat >>> 4)

def index2 (byte1 byte2 : UInt8) : ℕ :=
  ((byte1.toNat &&& 0xf) <<< 2) ||| (byte2.toNat >>> 6)

def index3 (byte2 : UInt8) : ℕ := byte2.toNat &&& 0x3f

/-- The variables of the encoder: the output buffer and the two pointers, as
offsets. -/
structure Encoder where
  out : OutBuffer
  pszOut : ℕ
  pInCur : ℕ

/-- One pass through the body of the `while` loop. -/
def Encoder.group (lpszIn : Memory) (encoder : Encoder) : Encoder :=
  let byte0 := lpszIn encoder.pInCur
  let byte1 := lpszIn (encoder.pInCur + 1)
  let byte2 := lpszIn (encoder.pInCur + 2)
  let pszOut := encoder.pszOut
  { out :=
      (((encoder.out.write pszOut (base64char (index0 byte0))).write
        (pszOut + 1) (base64char (index1 byte0 byte1))).write
        (pszOut + 2) (base64char (index2 byte1 byte2))).write
        (pszOut + 3) (base64char (index3 byte2))
    pszOut := pszOut + 4
    pInCur := encoder.pInCur + 3 }

/-- `case 1` of the `switch` after the loop. -/
def Encoder.tail1 (lpszIn : Memory) (encoder : Encoder) : Encoder :=
  let byte0 := lpszIn encoder.pInCur
  let pszOut := encoder.pszOut
  { encoder with
    out :=
      (((encoder.out.write pszOut (base64char (index0 byte0))).write
        (pszOut + 1) (base64char ((byte0.toNat &&& 0x3) <<< 4))).write
        (pszOut + 2) padding).write
        (pszOut + 3) padding
    pszOut := pszOut + 4 }

/-- `case 2` of the `switch` after the loop. -/
def Encoder.tail2 (lpszIn : Memory) (encoder : Encoder) : Encoder :=
  let byte0 := lpszIn encoder.pInCur
  let byte1 := lpszIn (encoder.pInCur + 1)
  let pszOut := encoder.pszOut
  { encoder with
    out :=
      (((encoder.out.write pszOut (base64char (index0 byte0))).write
        (pszOut + 1) (base64char (index1 byte0 byte1))).write
        (pszOut + 2) (base64char ((byte1.toNat &&& 0xf) <<< 2))).write
        (pszOut + 3) padding
    pszOut := pszOut + 4 }

/-- `while (nInputLen >= 3)`, then `switch (nInputLen)` on what is left. -/
def Encoder.run (lpszIn : Memory) : ℕ → Encoder → Encoder
  | 0, encoder => encoder
  | 1, encoder => encoder.tail1 lpszIn
  | 2, encoder => encoder.tail2 lpszIn
  | nInputLen + 3, encoder =>
      Encoder.run lpszIn nInputLen (encoder.group lpszIn)

/-- `(nInputLen + 2) / 3 * 4` in 32-bit arithmetic. -/
def nNeededLen (nInputLen : ℤ) : ℤ :=
  wrap32 ((wrap32 (nInputLen + 2)).tdiv 3 * 4)

/-- The return value and the output buffer after the call. -/
def base64Encode (lpszOutBuffer : OutBuffer) (nOutLen : ℤ)
    (lpszIn : Memory) (nInputLen : ℤ) : ℤ × OutBuffer :=
  if nInputLen ≤ 0 then
    (0, lpszOutBuffer.write 0 0)
  else if nOutLen < nNeededLen nInputLen then
    (-1, lpszOutBuffer)
  else
    let start : Encoder := ⟨lpszOutBuffer, 0, 0⟩
    let finished := Encoder.run lpszIn nInputLen.toNat start
    (wrap32 finished.pszOut, finished.out.write finished.pszOut 0)

def base64DecodeTable : List UInt16 := [
  255, 255, 255, 255, 255, 255, 255, 255,
  255, 255, 255, 255, 255, 255, 255, 255,
  255, 255, 255, 255, 255, 255, 255, 255,
  255, 255, 255, 255, 255, 255, 255, 255,
  255, 255, 255, 255, 255, 255, 255, 255,
  255, 255, 255,  62, 255, 255, 255,  63,
   52,  53,  54,  55,  56,  57,  58,  59,
   60,  61, 255, 255, 255, 255, 255, 255,
  255,   0,   1,   2,   3,   4,   5,   6,
    7,   8,   9,  10,  11,  12,  13,  14,
   15,  16,  17,  18,  19,  20,  21,  22,
   23,  24,  25, 255, 255, 255, 255, 255,
  255,  26,  27,  28,  29,  30,  31,  32,
   33,  34,  35,  36,  37,  38,  39,  40,
   41,  42,  43,  44,  45,  46,  47,  48,
   49,  50,  51, 255, 255, 255, 255, 255]

structure Decoder where
  out : OutBuffer
  pszOut : ℕ
  lByteBuffer : UInt64
  lByteBufferSpace : ℕ
  nRet : ℕ

/-- `pSave[index]`: a byte of `lByteBuffer` in little-endian order. -/
def pSave (lByteBuffer : UInt64) (index : UInt64) : UInt8 :=
  (lByteBuffer >>> (8 * index)).toUInt8

/-- What the loop does with a table entry `tc` other than `255`. -/
def Decoder.push (decoder : Decoder) (tc : UInt16) : Decoder :=
  let lByteBuffer := (decoder.lByteBuffer <<< 6) ||| tc.toUInt64
  let lByteBufferSpace := decoder.lByteBufferSpace - 1
  if lByteBufferSpace ≠ 0 then
    { decoder with lByteBuffer, lByteBufferSpace }
  else
    { out :=
        ((decoder.out.write decoder.pszOut (pSave lByteBuffer 2)).write
          (decoder.pszOut + 1) (pSave lByteBuffer 1)).write
          (decoder.pszOut + 2) (pSave lByteBuffer 0)
      pszOut := decoder.pszOut + 3
      lByteBuffer := 0
      lByteBufferSpace := 4
      nRet := decoder.nRet + 1 }

/-- One pass through the body of the `while` loop, for the character at
`pszCur`. -/
def Decoder.next (decoder : Decoder) (char : UInt8) : Decoder :=
  if char > 0x7f then
    decoder
  else
    let tc := base64DecodeTable.getD char.toNat 255
    if 255 = tc then decoder else decoder.push tc

/-- `nRet *= 3` and `switch (lByteBufferSpace)` after the loop: the bytes of
an incomplete last group. -/
def Decoder.tail (decoder : Decoder) : Decoder :=
  let pszOut := decoder.pszOut
  let nRet := decoder.nRet * 3
  match decoder.lByteBufferSpace with
  | 1 =>
      let lByteBuffer := decoder.lByteBuffer >>> 2
      { decoder with
        out :=
          (decoder.out.write pszOut (pSave lByteBuffer 1)).write
            (pszOut + 1) (pSave lByteBuffer 0)
        pszOut := pszOut + 2
        lByteBuffer
        nRet := nRet + 2 }
  | 2 =>
      let lByteBuffer := decoder.lByteBuffer >>> 4
      { decoder with
        out := decoder.out.write pszOut (pSave lByteBuffer 0)
        pszOut := pszOut + 1
        lByteBuffer
        nRet := nRet + 1 }
  | _ => { decoder with nRet }

/-- `if( pszOut[0] != '\0' ) pszOut[0] = '\0'`. -/
def Decoder.terminate (decoder : Decoder) : OutBuffer :=
  let out := decoder.out.read decoder.pszOut
  if out.bytes decoder.pszOut ≠ 0 then out.write decoder.pszOut 0 else out

/-- The output size that `base64_decode` demands for a positive `nInLen`. -/
def nTotal (nInLen : ℤ) : ℤ :=
  match nInLen.tmod 4 with
  | 2 => wrap32 ((wrap32 (nInLen * 3)).tdiv 4 + 1)
  | 3 => wrap32 ((wrap32 (nInLen * 3)).tdiv 4 + 2)
  | 0 => (wrap32 (nInLen * 3)).tdiv 4
  | rest => rest

/-- The return value and the output buffer after the call. -/
def base64Decode (lpszOutBuffer : OutBuffer) (nOutLen : ℤ)
    (pszSrc : CString) (nInLen : ℤ) : ℤ × OutBuffer :=
  if 0 < nInLen ∧ nTotal nInLen > nOutLen then
    (-1, lpszOutBuffer)
  else if pszSrc.bytes = [] then
    (0, lpszOutBuffer)
  else
    let start : Decoder := ⟨lpszOutBuffer, 0, 0, 4, 0⟩
    let finished := (pszSrc.bytes.foldl Decoder.next start).tail
    (wrap32 finished.nRet, finished.terminate)

end KataCpp.Base64
