import Mathlib

/-!
# Byte strings, C strings and output buffers

Strings of the modeled programs are sequences of bytes.  A C string is a byte
sequence without NUL bytes, followed in memory by a terminating NUL.  Output
buffers are memories indexed from the start of the buffer that also record
which offsets were touched, so that accesses beyond the end can be stated.
-/

namespace KataCpp.Bytes

abbrev ByteString := List UInt8

def ascii (text : String) : ByteString :=
  text.toList.map fun char => char.toNat.toUInt8

/-- A property of bytes that holds for the 256 values. -/
theorem forall_byte {property : UInt8 → Prop}
    (hvalues : ∀ value < 256, property value.toUInt8) (byte : UInt8) :
    property byte := by
  have hbyte := hvalues byte.toNat byte.toNat_lt
  rwa [Nat.toUInt8_eq, UInt8.ofNat_toNat] at hbyte

/-- The character `text[index]` of a string.  The subscript is converted to an
unsigned 64-bit integer, and a NUL stands behind the last character. -/
def charAt (text : ByteString) (index : ℤ) : Option UInt8 :=
  (text ++ [0])[(index % 2 ^ 64).toNat]?

theorem charAt_append_cons {text before after : ByteString} {char : UInt8}
    {index : ℤ} (htext : text = before ++ char :: after)
    (hindex : index = before.length) (hlength : before.length < 2 ^ 64) :
    charAt text index = some char := by
  have hconvert : ((before.length : ℤ) % 2 ^ 64).toNat = before.length := by
    omega
  rw [charAt, hindex, hconvert, htext, List.append_assoc,
    List.getElem?_append_right le_rfl, Nat.sub_self]
  rfl

/-- Memory read through a pointer, indexed from where the pointer points. -/
abbrev Memory := ℕ → UInt8

/-- A memory holds `bytes` from `start` on. -/
def Holds (memory : Memory) (start : ℕ) (bytes : ByteString) : Prop :=
  ∀ index (hindex : index < bytes.length),
    memory (start + index) = bytes[index]

theorem holds_nil (memory : Memory) (start : ℕ) : Holds memory start [] := by
  intro index hindex
  simp at hindex

theorem holds_cons_iff (memory : Memory) (start : ℕ) (byte : UInt8)
    (bytes : ByteString) :
    Holds memory start (byte :: bytes) ↔
      memory start = byte ∧ Holds memory (start + 1) bytes := by
  constructor
  · intro hholds
    constructor
    · exact hholds 0 (Nat.succ_pos _)
    · intro index hindex
      have hnext := hholds (index + 1) (by simpa using hindex)
      rw [← Nat.add_assoc, Nat.add_right_comm] at hnext
      simpa using hnext
  · rintro ⟨hbyte, hbytes⟩ index hindex
    cases index with
    | zero => simpa using hbyte
    | succ index =>
        have hnext := hbytes index (by simpa using hindex)
        rw [Nat.add_right_comm, Nat.add_assoc] at hnext
        simpa using hnext

/-- A NUL-terminated string: its bytes are those before the terminator. -/
structure CString where
  bytes : ByteString
  zero_notMem : 0 ∉ bytes
  deriving DecidableEq

/-- A memory stores a C string when it holds its bytes and then a NUL. -/
def CString.StoredIn (text : CString) (memory : Memory) : Prop :=
  Holds memory 0 text.bytes ∧ memory text.bytes.length = 0

/-- A memory stores at most one C string. -/
theorem CString.StoredIn.unique {memory : Memory} {left right : CString}
    (hleft : left.StoredIn memory) (hright : right.StoredIn memory) :
    left = right := by
  have hshort : ∀ {short long : CString}, short.StoredIn memory →
      long.StoredIn memory →
      ¬ short.bytes.length < long.bytes.length := by
    intro short long hshort hlong hlength
    apply long.zero_notMem
    have hbyte := hlong.1 short.bytes.length hlength
    rw [Nat.zero_add, hshort.2] at hbyte
    rw [hbyte]
    exact List.getElem_mem hlength
  have hlength : left.bytes.length = right.bytes.length := by
    have hle := hshort hright hleft
    have hge := hshort hleft hright
    omega
  have hbytes : left.bytes = right.bytes := by
    apply List.ext_getElem hlength
    intro index hindexLeft hindexRight
    rw [← hleft.1 index hindexLeft, ← hright.1 index hindexRight]
  cases left
  cases right
  simpa using hbytes

/-- A caller's output buffer: its memory and the offsets accessed so far. -/
structure OutBuffer where
  bytes : Memory
  touched : List ℕ

/-- `buffer[offset] = byte`. -/
def OutBuffer.write (out : OutBuffer) (offset : ℕ) (byte : UInt8) :
    OutBuffer where
  bytes := Function.update out.bytes offset byte
  touched := offset :: out.touched

/-- The buffer after `buffer[offset]` was read. -/
def OutBuffer.read (out : OutBuffer) (offset : ℕ) : OutBuffer :=
  { out with touched := offset :: out.touched }

def OutBuffer.writes (out : OutBuffer) (offset : ℕ) : ByteString → OutBuffer
  | [] => out
  | byte :: bytes => (out.write offset byte).writes (offset + 1) bytes

/-- `strncpy` of a string that is followed by a NUL: at most `count` bytes are
copied, and NUL bytes are stored behind a string that is shorter. -/
def OutBuffer.strncpy (out : OutBuffer) (text : ByteString) (count : ℕ) :
    OutBuffer :=
  let copied := (text.takeWhile (· != 0)).take count
  out.writes 0 (copied ++ List.replicate (count - copied.length) 0)

theorem OutBuffer.bytes_write_of_ne (out : OutBuffer) {offset index : ℕ}
    (byte : UInt8) (hindex : index ≠ offset) :
    (out.write offset byte).bytes index = out.bytes index := by
  simp only [write]
  exact Function.update_of_ne hindex byte out.bytes

@[simp]
theorem OutBuffer.bytes_write_self (out : OutBuffer) (offset : ℕ)
    (byte : UInt8) : (out.write offset byte).bytes offset = byte := by
  simp only [write]
  exact Function.update_self offset byte out.bytes

theorem OutBuffer.writes_append (out : OutBuffer) (offset : ℕ)
    (left right : ByteString) :
    out.writes offset (left ++ right) =
      (out.writes offset left).writes (offset + left.length) right := by
  induction left generalizing out offset with
  | nil => rfl
  | cons byte left ih =>
      rw [List.cons_append, writes, writes, ih, List.length_cons]
      congr 1
      omega

/-- Consecutive writes leave the bytes before them alone. -/
theorem OutBuffer.bytes_writes_of_lt (out : OutBuffer) {offset index : ℕ}
    (bytes : ByteString) (hindex : index < offset) :
    (out.writes offset bytes).bytes index = out.bytes index := by
  induction bytes generalizing out offset with
  | nil => rfl
  | cons byte bytes ih =>
      rw [writes, ih _ (Nat.lt_succ_of_lt hindex)]
      exact out.bytes_write_of_ne byte (Nat.ne_of_lt hindex)

/-- After consecutive writes the memory holds what was written. -/
theorem OutBuffer.holds_writes (out : OutBuffer) (offset : ℕ)
    (bytes : ByteString) :
    Holds (out.writes offset bytes).bytes offset bytes := by
  induction bytes generalizing out offset with
  | nil => exact holds_nil _ _
  | cons byte bytes ih =>
      rw [holds_cons_iff]
      constructor
      · rw [writes, bytes_writes_of_lt _ bytes (Nat.lt_succ_self offset)]
        exact out.bytes_write_self offset byte
      · exact ih _ _

/-- Consecutive writes touch the offsets of what is written. -/
theorem OutBuffer.mem_touched_writes (out : OutBuffer) (offset : ℕ)
    (bytes : ByteString) (index : ℕ) :
    index ∈ (out.writes offset bytes).touched ↔
      index ∈ out.touched ∨
        (offset ≤ index ∧ index < offset + bytes.length) := by
  induction bytes generalizing out offset with
  | nil =>
      have hempty : ¬ (offset ≤ index ∧ index < offset + 0) := by omega
      simp only [OutBuffer.writes, List.length_nil, hempty, or_false]
  | cons byte bytes ih =>
      have hrange : (offset ≤ index ∧ index < offset + (bytes.length + 1)) ↔
          index = offset ∨
            (offset + 1 ≤ index ∧ index < offset + 1 + bytes.length) := by
        omega
      rw [OutBuffer.writes, ih, List.length_cons, hrange]
      simp only [OutBuffer.write, List.mem_cons]
      rw [or_comm (a := index = offset), or_assoc]

/-- Consecutive writes leave the bytes behind them alone. -/
theorem OutBuffer.bytes_writes_of_le (out : OutBuffer) {offset index : ℕ}
    {bytes : ByteString} (hindex : offset + bytes.length ≤ index) :
    (out.writes offset bytes).bytes index = out.bytes index := by
  induction bytes generalizing out offset with
  | nil => rfl
  | cons byte bytes ih =>
      rw [List.length_cons] at hindex
      rw [writes, ih _ (by omega)]
      exact out.bytes_write_of_ne byte (by omega)

/-- Accesses from `start + bytes.length` on keep what is held before. -/
theorem Holds.congr {memory memory' : Memory} {start : ℕ} {bytes : ByteString}
    (hholds : Holds memory start bytes)
    (hsame : ∀ index < start + bytes.length, memory' index = memory index) :
    Holds memory' start bytes := by
  intro index hindex
  rw [hsame (start + index) (Nat.add_lt_add_left hindex start)]
  exact hholds index hindex

/-- A text that is written to the start of a buffer, and a NUL behind it. -/
theorem CString.storedIn_writes (text : CString) (out : OutBuffer) :
    text.StoredIn
      ((out.writes 0 text.bytes).write text.bytes.length 0).bytes := by
  constructor
  · apply (out.holds_writes 0 text.bytes).congr
    intro index hindex
    apply OutBuffer.bytes_write_of_ne
    rw [Nat.zero_add] at hindex
    exact Nat.ne_of_lt hindex
  · exact OutBuffer.bytes_write_self _ _ 0

/-- A string that is copied to its last byte is copied without its NUL. -/
theorem OutBuffer.strncpy_length (out : OutBuffer) {text : ByteString}
    (htext : 0 ∉ text) : out.strncpy text text.length = out.writes 0 text := by
  have hbytes : text.takeWhile (· != 0) = text := by
    rw [List.takeWhile_eq_self_iff]
    intro byte hbyte
    rw [bne_iff_ne]
    rintro rfl
    exact htext hbyte
  rw [strncpy, hbytes, List.take_length, Nat.sub_self, List.replicate_zero,
    List.append_nil]

/-- A memory that holds the bytes of a text stores the text exactly when a NUL
follows. -/
theorem CString.storedIn_iff {text : CString} {memory : Memory}
    (hholds : Holds memory 0 text.bytes) :
    text.StoredIn memory ↔ memory text.bytes.length = 0 :=
  and_iff_right hholds

/-! ## Ranges of a memory -/

/-- The bytes at the offsets from `start` up to, but not including, `stop`. -/
def slice (memory : Memory) (start stop : ℕ) : ByteString :=
  (List.range' start (stop - start)).map memory

section Slice

variable {memory : Memory} {start middle stop : ℕ}

@[simp]
theorem length_slice : (slice memory start stop).length = stop - start := by
  simp [slice]

@[simp]
theorem slice_self : slice memory start start = [] := by
  simp [slice]

theorem holds_slice : Holds memory start (slice memory start stop) := by
  intro index hindex
  simp [slice]

theorem slice_append (hstart : start ≤ middle) (hstop : middle ≤ stop) :
    slice memory start middle ++ slice memory middle stop =
      slice memory start stop := by
  have hrange := @List.range'_append_1 start (middle - start) (stop - middle)
  rw [slice, slice, slice, ← List.map_append]
  rw [show start + (middle - start) = middle by omega,
    show middle - start + (stop - middle) = stop - start by omega] at hrange
  rw [hrange]

theorem slice_succ (hstart : start ≤ stop) :
    slice memory start (stop + 1) =
      slice memory start stop ++ [memory stop] := by
  have hlast : slice memory stop (stop + 1) = [memory stop] := by
    simp [slice]
  rw [← hlast, slice_append hstart (Nat.le_succ stop)]

/-- A write behind a range does not change it. -/
theorem slice_update_of_le {index : ℕ} (byte : UInt8) (hindex : stop ≤ index) :
    slice (Function.update memory index byte) start stop =
      slice memory start stop := by
  rw [slice, slice]
  apply List.map_congr_left
  intro offset hoffset
  have hbounds := List.mem_range'_1.mp hoffset
  have hother : offset ≠ index := by omega
  exact Function.update_of_ne hother byte memory

/-- A write right behind a range extends it. -/
theorem slice_update_succ (byte : UInt8) (hstart : start ≤ stop) :
    slice (Function.update memory stop byte) start (stop + 1) =
      slice memory start stop ++ [byte] := by
  rw [slice_succ hstart, slice_update_of_le byte le_rfl,
    Function.update_self]

theorem slice_isInfix (hstart : start ≤ middle) (hstop : middle ≤ stop) :
    slice memory start middle <:+: slice memory 0 stop := by
  refine ⟨slice memory 0 start, slice memory middle stop, ?_⟩
  rw [slice_append (Nat.zero_le start) hstart,
    slice_append (Nat.zero_le middle) hstop]

theorem take_slice {count : ℕ} (hcount : start + count ≤ stop) :
    (slice memory start stop).take count =
      slice memory start (start + count) := by
  rw [← slice_append (Nat.le_add_right start count) hcount]
  apply List.take_left'
  rw [length_slice, Nat.add_sub_cancel_left]

end Slice

end KataCpp.Bytes
