import KataCpp.Network.RioDelivery

/-!
# The length of a line

Callers take the result of `rio_readlineb` for the length of the line in their
buffer.  The counter starts at one and is advanced after every byte but a
newline.  A line that ends in a newline is therefore counted right, while a
line that is cut off, at `maxlen - 1` bytes or by the end of the stream, is
counted with one byte too many.
-/

namespace KataCpp.TinyRio

open Bytes MachineInt TextInput TransitionSystem

/-- A line is complete exactly when there is a newline before its limit. -/
theorem getLast?_lineCut_iff (limit : ℕ) (bytes : ByteString) :
    (lineCut limit bytes).getLast? = some newline ↔
      newline ∈ bytes.take limit := by
  fun_induction lineCut with
  | case1 bytes => simp
  | case2 limit => simp
  | case3 limit bytes => simp
  | case4 limit byte bytes hbyte ih =>
      rw [List.take_succ_cons, List.mem_cons, ← ih]
      cases hrest : lineCut limit bytes with
      | nil => simp [hbyte, Ne.symm hbyte]
      | cons next rest =>
          rw [List.getLast?_cons_cons]
          simp [Ne.symm hbyte]

theorem length_lineCut {limit : ℕ} {bytes : ByteString}
    (hnewline : newline ∈ bytes.take limit) :
    (lineCut limit bytes).length = bytes.idxOf newline + 1 := by
  fun_induction lineCut with
  | case1 bytes => simp at hnewline
  | case2 limit => simp at hnewline
  | case3 limit bytes => simp
  | case4 limit byte bytes hbyte ih =>
      rw [List.take_succ_cons, List.mem_cons] at hnewline
      rw [List.length_cons, ih (hnewline.resolve_left (Ne.symm hbyte)),
        List.idxOf_cons_ne _ hbyte]

theorem mem_take_min_iff {byte : UInt8} {bytes : ByteString}
    (first second : ℕ) :
    byte ∈ bytes.take (min first second) ↔
      byte ∈ bytes.take first ∧ byte ∈ bytes.take second := by
  by_cases hbyte : byte ∈ bytes
  · simp only [List.mem_take_iff_idxOf_lt hbyte]
    omega
  · have hnone : ∀ count, byte ∉ bytes.take count := by
      intro count htake
      exact hbyte (List.mem_of_mem_take htake)
    simp only [hnone, and_self]

/-- However the counter ends the line, it does so at `maxlen` or after
`2 ^ 31 - 1` bytes. -/
theorem min_lineLimit {maxlen : ℕ} (hmaxlen : maxlen < 2 ^ 64) :
    min (lineLimit maxlen) (2 ^ 31 - 1) = min (maxlen - 1) (2 ^ 31 - 1) := by
  rw [lineLimit]
  split_ifs <;> omega

/-- The counter at the end of a line is the length of the line exactly when the
line is complete and an `int` can count it. -/
theorem lineResult_eq_length_iff (limit : ℕ) (bytes : ByteString) :
    lineResult (lineCut limit bytes) = (lineCut limit bytes).length ↔
      newline ∈ bytes.take (min limit (2 ^ 31 - 1)) := by
  have hlast := getLast?_lineCut_iff limit bytes
  rw [lineResult, mem_take_min_iff]
  by_cases hcomplete : newline ∈ bytes.take limit
  · have hmem := List.mem_of_mem_take hcomplete
    have hcount : wrap32 ((bytes.idxOf newline + 1 : ℕ) : ℤ) =
        (bytes.idxOf newline + 1 : ℕ) ↔ bytes.idxOf newline < 2 ^ 31 - 1 := by
      rw [wrap32_natCast_eq_iff]
      omega
    rw [if_pos (hlast.mpr hcomplete), length_lineCut hcomplete, hcount]
    simp only [hcomplete, true_and, List.mem_take_iff_idxOf_lt hmem]
  · rw [if_neg (mt hlast.mp hcomplete)]
    simp only [hcomplete, false_and, iff_false]
    rw [wrap32, Int.bmod_def]
    split <;> omega

theorem deliver_result_iff (remaining : ByteString) (maxlen : UInt64) :
    (deliver remaining (.readlineb maxlen)).1.result =
        (deliver remaining (.readlineb maxlen)).1.data.length ↔
      newline ∈ remaining.take (min (maxlen.toNat - 1) (2 ^ 31 - 1)) ∨
        remaining = [] ∧ 2 ≤ maxlen.toNat := by
  have hroom : 0 < lineLimit maxlen.toNat ↔ 2 ≤ maxlen.toNat := by
    refine ⟨?_, lineLimit_pos⟩
    intro hpositive
    by_contra hsmall
    rw [lineLimit_eq (by omega)] at hpositive
    omega
  simp only [deliver, lineAnswer, true_and, List.nil_append, hroom]
  split
  · next hend => simp [hend]
  · next hsome =>
      rw [← min_lineLimit maxlen.toNat_lt, ← lineResult_eq_length_iff]
      simp only [hsome, or_false]

/-- A line read that does not fail returns the number of bytes it has stored
exactly when it stops at a newline, or at once at the end of the stream. -/
theorem rioReadlineb_result_iff (rio : Rio) (maxlen : UInt64)
    (hworks : ¬ (rioReadlineb rio maxlen).1.Failed) :
    (rioReadlineb rio maxlen).1.result =
        (rioReadlineb rio maxlen).1.data.length ↔
      newline ∈ rio.pending.take (min (maxlen.toNat - 1) (2 ^ 31 - 1)) ∨
        rio.pending = [] ∧ 2 ≤ maxlen.toNat := by
  obtain ⟨hanswer, -⟩ :=
    (rioReadlineb_delivers rio maxlen).resolve_left hworks
  rw [hanswer]
  exact deliver_result_iff rio.pending maxlen

/-- A fresh `rio_t` in front of a text that arrives byte by byte. -/
def slowText (text : String) : Rio :=
  rioReadinitb (byteByByte (ascii text)) fun _ => 0

theorem rioReadlineb_slowText (text : String) (maxlen : UInt64) :
    (rioReadlineb (slowText text) maxlen).1 =
      (deliver (ascii text) (.readlineb maxlen)).1 := by
  have hrepresents := represents_rioReadinitb
    (byteByByte_reliable (ascii text)) fun _ => 0
  exact (perform_refines _ _ (.readlineb maxlen) hrepresents).1

theorem rioReadlineb_result_iff_newline :
    (rioReadlineb (slowText "ab\ncd") 10).1.result =
      (rioReadlineb (slowText "ab\ncd") 10).1.data.length := by
  have hworks : ¬ (rioReadlineb (slowText "ab\ncd") 10).1.Failed := by
    rw [rioReadlineb_slowText, Answer.Failed]
    decide
  rw [rioReadlineb_result_iff _ _ hworks]
  decide

/-- The last line `ab` of a stream has the result three, and so has the line
`ab` that is cut off by a `maxlen` of three. -/
theorem rioReadlineb_result_cut :
    (rioReadlineb (slowText "ab") 10).1 = ⟨3, ascii "ab", true⟩ ∧
      (rioReadlineb (slowText "abc\n") 3).1 = ⟨3, ascii "ab", true⟩ ∧
      (ascii "ab").length = 2 := by
  rw [rioReadlineb_slowText, rioReadlineb_slowText]
  decide

end KataCpp.TinyRio
