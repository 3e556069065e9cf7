import KataCpp.Core.LoopingCalls
import KataCpp.Network.RioDelivery

/-!
# Unbuffered reading and writing

`rio_readn` and `rio_writen` call `read` and `write` until all bytes are
transferred, going on after interruptions and short counts.  What one side
writes block by block the other side reads back block by block, with
`rio_readn` or through the buffer, however the kernel cuts the stream on both
sides.
-/

namespace KataCpp.TinyRio

open Bytes MachineInt TransitionSystem

def readnLoop (fd : Kernel) (n nleft : ℕ) (stored : ByteString) :
    Answer × Kernel :=
  if nleft = 0 then (⟨wrap64 (n - nleft), stored, false⟩, fd)
  else
    match _hread : fd.read nleft with
    | (.interrupted, fd) => readnLoop fd n nleft stored
    | (.failed, fd) => (⟨-1, stored, false⟩, fd)
    | (.delivered bytes, fd) =>
        if _hbytes : bytes = [] then (⟨wrap64 (n - nleft), stored, false⟩, fd)
        else readnLoop fd n (nleft - bytes.length) (stored ++ bytes)
termination_by (nleft, fd.next.interruptions)
decreasing_by
  · exact Prod.Lex.right _ (Kernel.read_interrupted _hread).1
  · have hpositive := List.length_pos_iff.mpr _hbytes
    exact Prod.Lex.left _ _ (by omega)

def rioReadn (fd : Kernel) (n : UInt64) : Answer × Kernel :=
  readnLoop fd n.toNat n.toNat []

/-- The bytes that a descriptor has taken, and what the kernel is going to do
with the next calls of `write`. -/
structure Sink where
  taken : ByteString
  next : Delivery
  later : ℕ → Delivery

inductive WriteResult where
  | interrupted
  | failed
  | wrote (count : ℕ)
  deriving DecidableEq

/-- `write`, which takes at least one byte unless it fails. -/
def Sink.write (sink : Sink) (bytes : ByteString) : WriteResult × Sink :=
  match sink.next with
  | ⟨interruptions + 1, outcome⟩ =>
      (.interrupted, { sink with next := ⟨interruptions, outcome⟩ })
  | ⟨0, .failed⟩ =>
      (.failed,
        { sink with
          next := sink.later 0, later := fun index =>
            sink.later (index + 1) })
  | ⟨0, .chunk size⟩ =>
      let count := min (max 1 size) bytes.length
      (.wrote count,
        { taken := sink.taken ++ bytes.take count
          next := sink.later 0, later := fun index =>
            sink.later (index + 1) })

section Write

variable {sink next : Sink} {bytes : ByteString}

theorem Sink.write_interrupted
    (hwrite : sink.write bytes = (.interrupted, next)) :
    next.next.interruptions < sink.next.interruptions ∧
      next.taken = sink.taken := by
  rw [Sink.write] at hwrite
  split at hwrite
  · next hnext =>
      obtain ⟨-, rfl⟩ := Prod.mk.inj hwrite
      rw [hnext]
      exact ⟨Nat.lt_succ_self _, rfl⟩
  · simp at hwrite
  · simp at hwrite

theorem Sink.write_failed (hwrite : sink.write bytes = (.failed, next)) :
    next.taken = sink.taken := by
  rw [Sink.write] at hwrite
  split at hwrite
  · simp at hwrite
  · obtain ⟨-, rfl⟩ := Prod.mk.inj hwrite
    rfl
  · simp at hwrite

theorem Sink.write_wrote {count : ℕ}
    (hwrite : sink.write bytes = (.wrote count, next)) :
    next.taken = sink.taken ++ bytes.take count ∧
      (bytes ≠ [] → 0 < count ∧ count ≤ bytes.length) := by
  rw [Sink.write] at hwrite
  split at hwrite
  · simp at hwrite
  · simp at hwrite
  · obtain ⟨hcount, rfl⟩ := Prod.mk.inj hwrite
    obtain rfl := WriteResult.wrote.inj hcount
    refine ⟨rfl, fun hbytes => ?_⟩
    have hpositive := List.length_pos_iff.mpr hbytes
    omega

end Write

/-- The loop of `rio_writen`; `rest` is what is left of the `n` bytes. -/
def writenLoop (fd : Sink) (n : ℕ) (rest : ByteString) : ℤ × Sink :=
  if _hrest : rest = [] then (wrap64 n, fd)
  else
    match _hwrite : fd.write rest with
    | (.interrupted, fd) => writenLoop fd n rest
    | (.failed, fd) => (-1, fd)
    | (.wrote count, fd) => writenLoop fd n (rest.drop count)
termination_by (rest.length, fd.next.interruptions)
decreasing_by
  · exact Prod.Lex.right _ (Sink.write_interrupted _hwrite).1
  · obtain ⟨hpositive, hle⟩ := (Sink.write_wrote _hwrite).2 _hrest
    apply Prod.Lex.left
    rw [List.length_drop]
    omega

def rioWriten (fd : Sink) (usrbuf : ByteString) : ℤ × Sink :=
  writenLoop fd usrbuf.length usrbuf

/-- Unless it fails, `rio_readn` stores the next `n` bytes, or all that are left
before the end of the stream. -/
theorem readnLoop_spec (fd : Kernel) (n nleft : ℕ) (stored : ByteString)
    (hfd : fd.Reliable) (hleft : nleft ≤ n) :
    (readnLoop fd n nleft stored).1 =
        ⟨wrap64 ((n - nleft + min nleft fd.unread.length : ℕ) : ℤ),
          stored ++ fd.unread.take nleft, false⟩ ∧
      (readnLoop fd n nleft stored).2.unread = fd.unread.drop nleft ∧
      (readnLoop fd n nleft stored).2.Reliable := by
  fun_induction readnLoop with
  | case1 fd stored => simpa using hfd
  | case2 fd nleft stored hnleft next hread ih =>
      rw [← (Kernel.read_interrupted hread).2]
      exact ih (hfd.read hread).2 hleft
  | case3 fd nleft stored hnleft next hread =>
      exact absurd rfl (hfd.read hread).1
  | case4 fd nleft stored hnleft next hread =>
      obtain ⟨hbytes, -, hend⟩ := Kernel.read_delivered hread
      have hempty := hend (Nat.pos_of_ne_zero hnleft) rfl
      rw [hempty, List.nil_append] at hbytes
      simp [hempty, hbytes, (hfd.read hread).2, Nat.cast_sub hleft]
  | case5 fd nleft stored hnleft bytes next hread hbytes ih =>
      obtain ⟨hdata, hle, -⟩ := Kernel.read_delivered hread
      obtain ⟨hanswer, hrest, hsound⟩ := ih (hfd.read hread).2 (by omega)
      have htotal : n - (nleft - bytes.length) +
          min (nleft - bytes.length) next.unread.length =
            n - nleft + min nleft (bytes.length + next.unread.length) := by
        omega
      rw [hanswer, hrest, ← hdata, List.take_append, List.drop_append,
        List.take_of_length_le hle, List.drop_of_length_le hle,
        List.length_append, List.nil_append, List.append_assoc, htotal]
      exact ⟨rfl, rfl, hsound⟩

/-- On a descriptor of its own `rio_readn` answers as `rio_readnb` does. -/
theorem rioReadn_spec {fd : Kernel} (hfd : fd.Reliable) (n : UInt64) :
    (rioReadn fd n).1 = (deliver fd.unread (.readnb n)).1 ∧
      (rioReadn fd n).2.unread = (deliver fd.unread (.readnb n)).2 ∧
      (rioReadn fd n).2.Reliable := by
  have hloop := readnLoop_spec fd n.toNat n.toNat [] hfd le_rfl
  rw [Nat.sub_self, Nat.zero_add, List.nil_append] at hloop
  exact hloop

/-- `rio_writen` writes all bytes, unless it fails behind some of them. -/
theorem writenLoop_spec (fd : Sink) (n : ℕ) (rest : ByteString) :
    ((writenLoop fd n rest).1 = wrap64 n ∧
        (writenLoop fd n rest).2.taken = fd.taken ++ rest) ∨
      ((writenLoop fd n rest).1 = -1 ∧
        ∃ written, written <+: rest ∧
          (writenLoop fd n rest).2.taken = fd.taken ++ written) := by
  fun_induction writenLoop with
  | case1 fd => simp
  | case2 fd rest hrest next hwrite ih =>
      rwa [(Sink.write_interrupted hwrite).2] at ih
  | case3 fd rest hrest next hwrite =>
      refine .inr ⟨rfl, [], List.nil_prefix, ?_⟩
      rw [List.append_nil]
      exact Sink.write_failed hwrite
  | case4 fd rest hrest count next hwrite ih =>
      rw [(Sink.write_wrote hwrite).1] at ih
      rcases ih with ⟨hresult, htaken⟩ | ⟨hresult, written, hprefix, htaken⟩
      · refine .inl ⟨hresult, ?_⟩
        rw [htaken, List.append_assoc, List.take_append_drop]
      · refine .inr ⟨hresult, rest.take count ++ written, ?_, ?_⟩
        · obtain ⟨after, hafter⟩ := hprefix
          refine ⟨after, ?_⟩
          rw [List.append_assoc, hafter, List.take_append_drop]
        · rw [htaken, List.append_assoc]

theorem rioWriten_cases (fd : Sink) (usrbuf : ByteString) :
    ((rioWriten fd usrbuf).1 = wrap64 usrbuf.length ∧
        (rioWriten fd usrbuf).2.taken = fd.taken ++ usrbuf) ∨
      ((rioWriten fd usrbuf).1 = -1 ∧
        ∃ written, written <+: usrbuf ∧
          (rioWriten fd usrbuf).2.taken = fd.taken ++ written) :=
  writenLoop_spec fd usrbuf.length usrbuf

/-! ## Both sides -/

/-- Writing blocks, none of which fails. -/
theorem trace_rioWriten (fd : Sink) (blocks : List ByteString)
    (hwritten : -1 ∉ (trace rioWriten fd blocks).1) :
    (trace rioWriten fd blocks).1 =
        blocks.map (fun block => wrap64 block.length) ∧
      (trace rioWriten fd blocks).2.taken = fd.taken ++ blocks.flatten := by
  induction blocks generalizing fd with
  | nil => exact ⟨rfl, (List.append_nil _).symm⟩
  | cons block blocks ih =>
      rw [trace, List.mem_cons, not_or] at hwritten
      obtain ⟨hblock, hblocks⟩ := hwritten
      obtain ⟨hresult, htaken⟩ | ⟨hfailed, -⟩ := rioWriten_cases fd block
      · obtain ⟨hresults, hall⟩ := ih _ hblocks
        constructor
        · rw [trace, List.map_cons, hresults, hresult]
        · rw [trace, hall, htaken, List.flatten_cons, List.append_assoc]
      · exact absurd hfailed.symm hblock

/-- The blocks of a stream, read one by one. -/
theorem trace_deliver_blocks (blocks : List ByteString) (rest : ByteString)
    (hlength : ∀ block ∈ blocks, block.length < 2 ^ 63) :
    (trace (fun remaining n => deliver remaining (.readnb n))
        (blocks.flatten ++ rest)
        (blocks.map fun block => block.length.toUInt64)).1 =
      blocks.map fun block => ⟨block.length, block, false⟩ := by
  induction blocks with
  | nil => rfl
  | cons block blocks ih =>
      have hblock := hlength block List.mem_cons_self
      have hsize : block.length.toUInt64.toNat = block.length := by
        rw [Nat.toUInt64_eq, UInt64.toNat_ofNat']
        exact Nat.mod_eq_of_lt (by omega)
      have hrest := ih fun other hmem =>
        hlength other (List.mem_cons_of_mem _ hmem)
      have hfits : block.length ≤
          (block ++ (blocks.flatten ++ rest)).length := by
        rw [List.length_append]
        exact Nat.le_add_right _ _
      have hanswer : deliver ((block :: blocks).flatten ++ rest)
          (.readnb block.length.toUInt64) =
          (⟨block.length, block, false⟩, blocks.flatten ++ rest) := by
        rw [List.flatten_cons, List.append_assoc, deliver, hsize,
          Nat.min_eq_left hfits, List.take_left, List.drop_left,
          wrap64_eq_self (by omega) (by omega)]
      rw [List.map_cons, trace, hanswer, hrest, List.map_cons]

/-- What is written block by block, without a failure, is read back block by
block, with `rio_readn` or through the buffer of a `rio_t`, however `write` and
`read` cut the stream. -/
theorem blocks_read_back {sink : Sink} {kernel : Kernel}
    {blocks : List ByteString} (hempty : sink.taken = [])
    (hwritten : -1 ∉ (trace rioWriten sink blocks).1)
    (hlength : ∀ block ∈ blocks, block.length < 2 ^ 63)
    (hkernel : kernel.Reliable)
    (hstream : kernel.unread = (trace rioWriten sink blocks).2.taken)
    (buf : Memory) :
    let requests := blocks.map fun block => block.length.toUInt64
    let answers : List Answer :=
      blocks.map fun block => ⟨block.length, block, false⟩
    (trace rioWriten sink blocks).1 =
        blocks.map (fun block => (block.length : ℤ)) ∧
      (trace rioReadn kernel requests).1 = answers ∧
      (trace rioReadnb (rioReadinitb kernel buf) requests).1 = answers := by
  intro requests answers
  obtain ⟨hresults, htaken⟩ := trace_rioWriten sink blocks hwritten
  rw [htaken, hempty, List.nil_append] at hstream
  have hdeliver := trace_deliver_blocks blocks [] hlength
  rw [List.append_nil, ← hstream] at hdeliver
  refine ⟨?_, ?_, ?_⟩
  · rw [hresults]
    refine List.map_congr_left fun block hmem => ?_
    exact wrap64_eq_self (by omega) (by exact_mod_cast hlength block hmem)
  · obtain ⟨hanswers, -⟩ := trace_refines rioReadn
      (fun remaining n => deliver remaining (.readnb n))
      (fun fd remaining n (hfd : fd.Reliable ∧ fd.unread = remaining) => by
        obtain ⟨hreliable, rfl⟩ := hfd
        obtain ⟨hanswer, hrest, hnext⟩ := rioReadn_spec hreliable n
        exact ⟨hanswer, hnext, hrest⟩) ⟨hkernel, rfl⟩ requests
    exact hanswers.trans hdeliver
  · obtain ⟨hanswers, -⟩ := trace_refines rioReadnb
      (fun remaining n => deliver remaining (.readnb n))
      (fun rio remaining n hrio =>
        perform_refines rio remaining (.readnb n) hrio)
      (represents_rioReadinitb hkernel buf) requests
    exact hanswers.trans hdeliver

/-- A descriptor that takes one byte at a time, the first of them after an
interruption. -/
def oneByOne : Sink where
  taken := []
  next := ⟨1, .chunk 1⟩
  later := fun _ => ⟨0, .chunk 1⟩

/-- Two blocks, byte by byte. -/
theorem blocks_read_back_byteByByte :
    let blocks := [ascii "ab", ascii "cde"]
    let kernel := byteByByte (trace rioWriten oneByOne blocks).2.taken
    (trace rioWriten oneByOne blocks).1 = [2, 3] ∧
      (trace rioReadn kernel [2, 3]).1 =
        [⟨2, ascii "ab", false⟩, ⟨3, ascii "cde", false⟩] := by
  intro blocks kernel
  have hwritten : -1 ∉ (trace rioWriten oneByOne blocks).1 := by
    simp [blocks, trace, rioWriten, writenLoop, oneByOne, Sink.write, ascii,
      wrap64]
  obtain ⟨hresults, hread, -⟩ := blocks_read_back rfl hwritten
    (by simp [blocks, ascii]) (byteByByte_reliable _) rfl fun _ => 0
  exact ⟨hresults, hread⟩

end KataCpp.TinyRio
