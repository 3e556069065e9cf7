import KataCpp.Core.TextInput

/-!
# Decimal numbers in text

`stoull` is the conversion of the standard library: it reads the C string of
its argument, skips white space, takes an optional sign and then the longest
run of digits.  A text without digits and a value beyond 64 bits are errors; a
minus sign negates the value modulo `2 ^ 64`.
-/

namespace KataCpp.DecimalText

open Bytes TextInput

def isDigit (byte : UInt8) : Bool := 48 ≤ byte && byte ≤ 57

/-- The value of a sequence of digits, most significant first. -/
def decimalValue (digits : ByteString) : ℕ :=
  digits.foldl (fun value digit => 10 * value + (digit.toNat - 48)) 0

def naturalText (value : ℕ) : ByteString :=
  if value = 0 then [48]
  else (Nat.digits 10 value).reverse.map fun digit => (48 + digit).toUInt8

/-- What `<<` writes for an integer. -/
def integerText (value : ℤ) : ByteString :=
  if value < 0 then 45 :: naturalText value.natAbs
  else naturalText value.natAbs

inductive StoullError where
  | invalidArgument
  | outOfRange
  deriving DecidableEq

/-- An optional sign: whether it is a minus, and the text behind it. -/
def splitSign : ByteString → Bool × ByteString
  | [] => (false, [])
  | byte :: rest =>
      if byte = 45 then (true, rest)
      else if byte = 43 then (false, rest)
      else (false, byte :: rest)

def stoull (str : ByteString) : Except StoullError ℕ :=
  let text := (str.takeWhile (· != 0)).dropWhile isSpace
  let (negative, text) := splitSign text
  let digits := text.takeWhile isDigit
  if digits = [] then .error .invalidArgument
  else if 2 ^ 64 ≤ decimalValue digits then .error .outOfRange
  else if negative then .ok ((2 ^ 64 - decimalValue digits) % 2 ^ 64)
  else .ok (decimalValue digits)

/-- A decimal string that denotes an unsigned 64-bit number. -/
structure IsDecimal (text : ByteString) : Prop where
  ne_nil : text ≠ []
  digits : ∀ byte ∈ text, isDigit byte = true
  value_lt : decimalValue text < 2 ^ 64

instance (text : ByteString) : Decidable (IsDecimal text) :=
  decidable_of_iff
    (text ≠ [] ∧ text.all isDigit = true ∧ decimalValue text < 2 ^ 64)
    ⟨fun h => ⟨h.1, List.all_eq_true.mp h.2.1, h.2.2⟩,
      fun h => ⟨h.ne_nil, List.all_eq_true.mpr h.digits, h.value_lt⟩⟩

theorem digit_range {byte : UInt8} (hbyte : isDigit byte = true) :
    48 ≤ byte.toNat ∧ byte.toNat ≤ 57 := by
  simp only [isDigit, Bool.and_eq_true, decide_eq_true_eq,
    UInt8.le_iff_toNat_le] at hbyte
  exact hbyte

theorem bne_zero_of_isDigit {byte : UInt8} (hbyte : isDigit byte = true) :
    (byte != 0) = true := by
  have hrange := digit_range hbyte
  rw [bne_iff_ne]
  rintro rfl
  simp at hrange

theorem isSpace_of_isDigit {byte : UInt8} (hbyte : isDigit byte = true) :
    isSpace byte = false := by
  have hrange := digit_range hbyte
  simp only [isSpace, Bool.or_eq_false_iff, beq_eq_false_iff_ne,
    Bool.and_eq_false_iff, decide_eq_false_iff_not, UInt8.le_iff_toNat_le]
  constructor
  · rintro rfl
    simp at hrange
  · right
    simp
    omega

theorem splitSign_of_isDigit {byte : UInt8} (hbyte : isDigit byte = true)
    (rest : ByteString) : splitSign (byte :: rest) = (false, byte :: rest) := by
  have hrange := digit_range hbyte
  rw [splitSign, if_neg, if_neg]
  · rintro rfl
    simp at hrange
  · rintro rfl
    simp at hrange

/-- A decimal string is converted to its value. -/
theorem IsDecimal.stoull_eq {text : ByteString} (h : IsDecimal text) :
    stoull text = .ok (decimalValue text) := by
  obtain ⟨byte, rest, rfl⟩ := List.exists_cons_of_ne_nil h.ne_nil
  have hbyte := h.digits byte List.mem_cons_self
  have hcString : (byte :: rest).takeWhile (· != 0) = byte :: rest :=
    List.takeWhile_eq_self_iff.mpr fun later hlater =>
      bne_zero_of_isDigit (h.digits later hlater)
  have hspace : (byte :: rest).dropWhile isSpace = byte :: rest := by
    rw [List.dropWhile_cons_of_neg (by simp [isSpace_of_isDigit hbyte])]
  have hdigits : (byte :: rest).takeWhile isDigit = byte :: rest :=
    List.takeWhile_eq_self_iff.mpr h.digits
  rw [stoull, hcString, hspace, splitSign_of_isDigit hbyte]
  simp only [hdigits, h.ne_nil, not_le.mpr h.value_lt, if_false,
    Bool.false_eq_true]

end KataCpp.DecimalText
