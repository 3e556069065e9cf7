import KataCpp.Core.MachineInt
import KataCpp.Core.TextInput
import KataCpp.Core.TransitionSystem

/-!
# Buffered reading

A `rio_t` reads a descriptor through an internal buffer.  `rio_read` refills
the buffer with `read` when it is empty, going on after interruptions, and
copies bytes out of it; `rio_readnb` and `rio_readlineb` call it until a block
or a line is complete.

The kernel decides what each `read` returns: how often it is interrupted first,
and how many of the requested bytes it then delivers, or that it fails.  The
whole of these decisions is fixed in advance here, so a statement about every
kernel is one about every way of delivering a stream.
-/

namespace KataCpp.TinyRio

open Bytes MachineInt TextInput TransitionSystem

/-! ## The kernel's side -/

inductive Outcome where
  | chunk (size : ℕ)
  | failed
  deriving DecidableEq

/-- What becomes of a `read`: it is interrupted a number of times before it
gets to its outcome. -/
structure Delivery where
  interruptions : ℕ
  outcome : Outcome
  deriving DecidableEq

/-- The bytes of a descriptor that are still to be read, and how the kernel is
going to deliver them. -/
structure Kernel where
  unread : ByteString
  next : Delivery
  later : ℕ → Delivery

inductive ReadResult where
  | interrupted
  | failed
  | delivered (bytes : ByteString)
  deriving DecidableEq

/-- The number of bytes of a chunk: at least one, unless the stream has ended,
and no more than requested. -/
def Kernel.chunkLength (kernel : Kernel) (size request : ℕ) : ℕ :=
  min (max 1 size) (min request kernel.unread.length)

/-- `read` of at most `request` bytes. -/
def Kernel.read (kernel : Kernel) (request : ℕ) : ReadResult × Kernel :=
  match kernel.next with
  | ⟨interruptions + 1, outcome⟩ =>
      (.interrupted, { kernel with next := ⟨interruptions, outcome⟩ })
  | ⟨0, .failed⟩ =>
      (.failed,
        { kernel with
          next := kernel.later 0, later := fun index =>
            kernel.later (index + 1) })
  | ⟨0, .chunk size⟩ =>
      let count := kernel.chunkLength size request
      (.delivered (kernel.unread.take count),
        { unread := kernel.unread.drop count
          next := kernel.later 0, later := fun index =>
            kernel.later (index + 1) })

/-- No `read` fails for another reason than an interruption. -/
def Kernel.Reliable (kernel : Kernel) : Prop :=
  kernel.next.outcome ≠ .failed ∧
    ∀ index, (kernel.later index).outcome ≠ .failed

section Read

variable {kernel next : Kernel} {request : ℕ}

theorem Kernel.read_interrupted
    (hread : kernel.read request = (.interrupted, next)) :
    next.next.interruptions < kernel.next.interruptions ∧
      next.unread = kernel.unread := by
  rw [Kernel.read] at hread
  split at hread
  · next hnext =>
      obtain ⟨-, rfl⟩ := Prod.mk.inj hread
      rw [hnext]
      exact ⟨Nat.lt_succ_self _, rfl⟩
  · simp at hread
  · simp at hread

theorem Kernel.read_failed (hread : kernel.read request = (.failed, next)) :
    next.unread = kernel.unread := by
  rw [Kernel.read] at hread
  split at hread
  · simp at hread
  · obtain ⟨-, rfl⟩ := Prod.mk.inj hread
    rfl
  · simp at hread

/-- Delivered bytes are the next ones of the stream, and there is no empty
delivery before its end. -/
theorem Kernel.read_delivered {bytes : ByteString}
    (hread : kernel.read request = (.delivered bytes, next)) :
    bytes ++ next.unread = kernel.unread ∧ bytes.length ≤ request ∧
      (0 < request → bytes = [] → kernel.unread = []) := by
  rw [Kernel.read] at hread
  split at hread
  · simp at hread
  · simp at hread
  · next size _ =>
      obtain ⟨hbytes, rfl⟩ := Prod.mk.inj hread
      obtain rfl := ReadResult.delivered.inj hbytes
      refine ⟨List.take_append_drop _ _, ?_, ?_⟩
      · rw [List.length_take, Kernel.chunkLength]
        omega
      · intro hrequest hempty
        have hlength := congrArg List.length hempty
        rw [List.length_take, List.length_nil, Kernel.chunkLength] at hlength
        rw [← List.length_eq_zero_iff]
        omega

theorem Kernel.Reliable.read (hkernel : kernel.Reliable)
    {result : ReadResult} (hread : kernel.read request = (result, next)) :
    result ≠ .failed ∧ next.Reliable := by
  obtain ⟨hnext, hlater⟩ := hkernel
  rw [Kernel.read] at hread
  split at hread
  · next hkernel =>
      obtain ⟨rfl, rfl⟩ := Prod.mk.inj hread
      rw [hkernel] at hnext
      exact ⟨by simp, hnext, hlater⟩
  · next hkernel =>
      rw [hkernel] at hnext
      contradiction
  · obtain ⟨rfl, rfl⟩ := Prod.mk.inj hread
    exact ⟨by simp, hlater 0, fun index => hlater (index + 1)⟩

end Read

def rioBufsize : ℕ := 8192

/-- A `rio_t`, with the kernel behind its descriptor. -/
structure Rio where
  rioFd : Kernel
  rioCnt : ℤ
  rioBufptr : ℕ
  rioBuf : Memory

/-- `rio_readinitb`; the contents of the buffer are arbitrary. -/
def rioReadinitb (rioFd : Kernel) (rioBuf : Memory) : Rio where
  rioFd := rioFd
  rioCnt := 0
  rioBufptr := 0
  rioBuf := rioBuf

/-- The memory after `bytes` were stored from its start on. -/
def overwrite (memory : Memory) (bytes : ByteString) : Memory :=
  fun index => bytes.getD index (memory index)

inductive Refill where
  | ready
  | eof
  | failed
  deriving DecidableEq

/-- `while (rp->rio_cnt <= 0)`. -/
def refill (rio : Rio) : Refill × Rio :=
  if 0 < rio.rioCnt then (.ready, rio)
  else
    match _hread : rio.rioFd.read rioBufsize with
    | (.interrupted, kernel) =>
        refill { rio with rioFd := kernel, rioCnt := -1 }
    | (.failed, kernel) =>
        (.failed, { rio with rioFd := kernel, rioCnt := -1 })
    | (.delivered [], kernel) =>
        (.eof, { rio with rioFd := kernel, rioCnt := 0 })
    | (.delivered bytes, kernel) =>
        (.ready,
          { rioFd := kernel
            rioCnt := bytes.length
            rioBufptr := 0
            rioBuf := overwrite rio.rioBuf bytes })
termination_by rio.rioFd.next.interruptions
decreasing_by exact (Kernel.read_interrupted _hread).1

/-- A return of `rio_read`: its result, the bytes it copied, and the `rio_t`. -/
structure Transfer where
  result : ℤ
  data : ByteString
  rio : Rio

/-- Copy `min(n, rp->rio_cnt)` bytes out of the buffer. -/
def Rio.copy (rio : Rio) (n : ℕ) : Transfer :=
  let cnt := if rio.rioCnt < n then rio.rioCnt else wrap32 n
  { result := cnt
    data := slice rio.rioBuf rio.rioBufptr (rio.rioBufptr + cnt.toNat)
    rio :=
      { rio with
        rioBufptr := rio.rioBufptr + cnt.toNat
        rioCnt := rio.rioCnt - cnt } }

def rioRead (rio : Rio) (n : ℕ) : Transfer :=
  match refill rio with
  | (.failed, rio) => ⟨-1, [], rio⟩
  | (.eof, rio) => ⟨0, [], rio⟩
  | (.ready, rio) => rio.copy n

/-! ## What is still to come -/

/-- The bytes that have not been handed out yet: those in the buffer and those
behind the descriptor. -/
def Rio.pending (rio : Rio) : ByteString :=
  slice rio.rioBuf rio.rioBufptr (rio.rioBufptr + rio.rioCnt.toNat) ++
    rio.rioFd.unread

theorem slice_overwrite (memory : Memory) (bytes : ByteString) :
    slice (overwrite memory bytes) 0 bytes.length = bytes := by
  apply List.ext_getElem
  · simp
  · intro index _ hindex
    simp [slice, overwrite, hindex]

theorem pending_of_nonpos {rio : Rio} (hcnt : rio.rioCnt ≤ 0) :
    rio.pending = rio.rioFd.unread := by
  rw [Rio.pending, Int.toNat_of_nonpos hcnt, Nat.add_zero, slice_self,
    List.nil_append]

/-- Refilling hands out nothing. -/
theorem refill_pending (rio : Rio) :
    (refill rio).2.pending = rio.pending := by
  fun_induction refill with
  | case1 rio hcnt => rfl
  | case2 rio hcnt kernel hread ih =>
      rw [ih, pending_of_nonpos (by simp), pending_of_nonpos (not_lt.mp hcnt)]
      exact (Kernel.read_interrupted hread).2
  | case3 rio hcnt kernel hread =>
      rw [pending_of_nonpos (by simp), pending_of_nonpos (not_lt.mp hcnt)]
      exact Kernel.read_failed hread
  | case4 rio hcnt kernel hread =>
      rw [pending_of_nonpos (by simp), pending_of_nonpos (not_lt.mp hcnt)]
      simpa using (Kernel.read_delivered hread).1
  | case5 rio hcnt kernel bytes hbytes hread =>
      rw [pending_of_nonpos (not_lt.mp hcnt), Rio.pending]
      simp only [Int.toNat_natCast, Nat.zero_add, slice_overwrite]
      exact (Kernel.read_delivered hread).1

theorem refill_ready (rio : Rio) (hready : (refill rio).1 = .ready) :
    0 < (refill rio).2.rioCnt := by
  fun_induction refill with
  | case1 rio hcnt => exact hcnt
  | case2 rio hcnt kernel hread ih => exact ih hready
  | case3 rio hcnt kernel hread => simp at hready
  | case4 rio hcnt kernel hread => simp at hready
  | case5 rio hcnt kernel bytes hbytes hread =>
      have hlength := List.length_pos_iff.mpr hbytes
      simpa using hlength

theorem refill_eof (rio : Rio) (hend : (refill rio).1 = .eof) :
    rio.pending = [] := by
  fun_induction refill with
  | case1 rio hready => simp at hend
  | case2 rio hempty kernel hread ih =>
      have hnext := ih hend
      rw [pending_of_nonpos (by simp)] at hnext
      rw [pending_of_nonpos (not_lt.mp hempty)]
      rwa [← (Kernel.read_interrupted hread).2]
  | case3 rio hempty kernel hread => simp at hend
  | case4 rio hempty kernel hread =>
      obtain ⟨-, -, hunread⟩ := Kernel.read_delivered hread
      rw [pending_of_nonpos (not_lt.mp hempty)]
      exact hunread (by decide) rfl
  | case5 rio hempty kernel bytes hbytes hread => simp at hend

theorem refill_rioCnt_le {rio : Rio} (hcnt : rio.rioCnt ≤ rioBufsize) :
    (refill rio).2.rioCnt ≤ rioBufsize := by
  fun_induction refill with
  | case1 rio hready => exact hcnt
  | case2 rio hempty kernel hread ih => exact ih (by simp [rioBufsize])
  | case3 rio hempty kernel hread => simp
  | case4 rio hempty kernel hread => simp
  | case5 rio hempty kernel bytes hbytes hread =>
      obtain ⟨-, hlength, -⟩ := Kernel.read_delivered hread
      simpa using hlength

/-- With a reliable kernel a refill does not fail. -/
theorem refill_reliable {rio : Rio} (hkernel : rio.rioFd.Reliable) :
    (refill rio).1 ≠ .failed ∧ (refill rio).2.rioFd.Reliable := by
  fun_induction refill with
  | case1 rio hready => exact ⟨by simp, hkernel⟩
  | case2 rio hempty kernel hread ih => exact ih (hkernel.read hread).2
  | case3 rio hempty kernel hread => exact absurd rfl (hkernel.read hread).1
  | case4 rio hempty kernel hread => exact ⟨by simp, (hkernel.read hread).2⟩
  | case5 rio hempty kernel bytes hbytes hread =>
      exact ⟨by simp, (hkernel.read hread).2⟩

/-- The buffer is within its size, and the kernel keeps delivering. -/
structure Rio.Sound (rio : Rio) : Prop where
  rioCnt_le : rio.rioCnt ≤ rioBufsize
  reliable : rio.rioFd.Reliable

/-- A copy hands out the first bytes of a filled buffer. -/
theorem copy_spec {rio : Rio} {n : ℕ} (hcnt : 0 < rio.rioCnt) (hn : 0 < n)
    (hfits : n < 2 ^ 31 ∨ rio.rioCnt ≤ rioBufsize) :
    (rio.copy n).data ++ (rio.copy n).rio.pending = rio.pending ∧
      (rio.copy n).result = (rio.copy n).data.length ∧
      0 < (rio.copy n).data.length ∧ (rio.copy n).data.length ≤ n ∧
      (rio.copy n).rio.rioCnt ≤ rio.rioCnt ∧
      (rio.copy n).rio.rioFd = rio.rioFd := by
  obtain ⟨cnt, hcopied, hlower, hupper, hle⟩ : ∃ cnt : ℕ,
      (if rio.rioCnt < n then rio.rioCnt else wrap32 n) = cnt ∧
        0 < cnt ∧ cnt ≤ rio.rioCnt ∧ cnt ≤ n := by
    split
    · exact ⟨rio.rioCnt.toNat, by omega, by omega, by omega, by omega⟩
    · have hsmall : n < 2 ^ 31 := by
        rw [rioBufsize] at hfits
        omega
      exact ⟨n, wrap32_eq_self (by omega) (by omega), hn, by omega, le_rfl⟩
  simp only [Rio.copy, hcopied, Int.toNat_natCast, length_slice]
  refine ⟨?_, by omega, by omega, by omega, by omega, trivial⟩
  have hrest : rio.rioBufptr + cnt + (rio.rioCnt - cnt).toNat =
      rio.rioBufptr + rio.rioCnt.toNat := by omega
  rw [Rio.pending, Rio.pending, hrest, ← List.append_assoc,
    slice_append (by omega) (by omega)]

/-- Unless it fails, `rio_read` hands out the next bytes, at most `n` of them,
and none only at the end of the stream. -/
theorem rioRead_cases {rio next : Rio} {n : ℕ} {nread : ℤ} {data : ByteString}
    (hn : 0 < n) (hfits : n < 2 ^ 31 ∨ rio.rioCnt ≤ rioBufsize)
    (hread : rioRead rio n = ⟨nread, data, next⟩) :
    (refill rio).1 = .failed ∧ nread = -1 ∨
      data ++ next.pending = rio.pending ∧ nread = data.length ∧
        data.length ≤ n ∧ (data = [] → rio.pending = []) := by
  have hpending := refill_pending rio
  have hready := refill_ready rio
  have hend := refill_eof rio
  have hcnt := hfits.imp_right refill_rioCnt_le
  rw [rioRead] at hread
  generalize refill rio = refilled at *
  obtain ⟨ending, filled⟩ := refilled
  cases ending with
  | ready =>
      obtain ⟨hcopied, hresult, hpositive, hle, -⟩ :=
        copy_spec (hready rfl) hn hcnt
      have hcopy : filled.copy n = ⟨nread, data, next⟩ := hread
      rw [hcopy] at hcopied hresult hpositive hle
      refine .inr ⟨hcopied.trans hpending, hresult, hle, ?_⟩
      rintro rfl
      exact absurd hpositive (Nat.lt_irrefl 0)
  | eof =>
      obtain ⟨rfl, rfl, rfl⟩ := Transfer.mk.inj hread
      exact .inr ⟨hpending, rfl, Nat.zero_le n, fun _ => hend rfl⟩
  | failed =>
      obtain ⟨rfl, rfl, rfl⟩ := Transfer.mk.inj hread
      exact .inl ⟨rfl, rfl⟩

/-- A byte that `rio_read` hands out is no longer to come. -/
theorem rioRead_one {rio next : Rio} {data : ByteString}
    (hread : rioRead rio 1 = ⟨1, data, next⟩) :
    next.pending.length < rio.pending.length := by
  rcases rioRead_cases one_pos (.inl (by norm_num)) hread with
    ⟨-, hresult⟩ | ⟨hdata, hcount, -⟩
  · simp at hresult
  · rw [← hdata, List.length_append]
    omega

theorem rioRead_sound {rio : Rio} (hrio : rio.Sound) {n : ℕ} (hn : 0 < n) :
    (rioRead rio n).rio.Sound := by
  have hcnt := refill_rioCnt_le hrio.rioCnt_le
  have hkernel := (refill_reliable hrio.reliable).2
  have hready := refill_ready rio
  rw [rioRead]
  generalize refill rio = refilled at *
  obtain ⟨ending, filled⟩ := refilled
  cases ending with
  | ready =>
      obtain ⟨-, -, -, -, hrest, hfd⟩ :=
        copy_spec (hready rfl) hn (.inr hcnt)
      exact ⟨hrest.trans hcnt, hfd ▸ hkernel⟩
  | eof => exact ⟨hcnt, hkernel⟩
  | failed => exact ⟨hcnt, hkernel⟩

theorem rioRead_spec {rio next : Rio} {n : ℕ} {nread : ℤ} {data : ByteString}
    (hrio : rio.Sound) (hn : 0 < n)
    (hread : rioRead rio n = ⟨nread, data, next⟩) :
    data ++ next.pending = rio.pending ∧ nread = data.length ∧
      data.length ≤ n ∧ (data = [] → rio.pending = []) ∧ next.Sound := by
  have hnext := rioRead_sound hrio hn
  rw [hread] at hnext
  rcases rioRead_cases hn (.inr hrio.rioCnt_le) hread with
    ⟨hfailed, -⟩ | ⟨hdata, hcount, hle, hend⟩
  · exact absurd hfailed (refill_reliable hrio.reliable).1
  · exact ⟨hdata, hcount, hle, hend, hnext⟩

/-- The answer of a call: its result, the bytes of the stream it stored, and
whether it stored a NUL byte behind them. -/
structure Answer where
  result : ℤ
  data : ByteString
  terminated : Bool
  deriving DecidableEq

/-- The answer of a line read when `rio_read` has failed.  A counter that has
come round to `-1` is returned with the NUL byte stored. -/
def Answer.Failed (answer : Answer) : Prop :=
  answer.result = -1 ∧ answer.terminated = false

/-- The loop of `rio_readnb`.  A negative result of `rio_read` is never due to
an interruption, as `rio_read` goes on after these. -/
def readnbLoop (rio : Rio) (n nleft : ℕ) (stored : ByteString) :
    Answer × Rio :=
  if nleft = 0 then (⟨wrap64 (n - nleft), stored, false⟩, rio)
  else
    match rioRead rio nleft with
    | ⟨nread, data, rio⟩ =>
        if nread < 0 then (⟨-1, stored, false⟩, rio)
        else if nread = 0 then (⟨wrap64 (n - nleft), stored, false⟩, rio)
        else readnbLoop rio n (nleft - nread.toNat) (stored ++ data)
termination_by nleft
decreasing_by omega

def rioReadnb (rio : Rio) (n : UInt64) : Answer × Rio :=
  readnbLoop rio n.toNat n.toNat []

/-- The loop of `rio_readlineb`: the `int` counter is compared with `maxlen`
as a `size_t`. -/
def readlinebLoop (rio : Rio) (maxlen : ℕ) (n : ℤ) (stored : ByteString) :
    Answer × Rio :=
  if n % 2 ^ 64 < maxlen then
    match _hread : rioRead rio 1 with
    | ⟨1, data, next⟩ =>
        let c := data.headD 0
        if c = newline then (⟨n, stored ++ [c], true⟩, next)
        else readlinebLoop next maxlen (wrap32 (n + 1)) (stored ++ [c])
    | ⟨0, _, next⟩ =>
        if n = 1 then (⟨0, stored, false⟩, next)
        else (⟨n, stored, true⟩, next)
    | ⟨_, _, next⟩ => (⟨-1, stored, false⟩, next)
  else (⟨n, stored, true⟩, rio)
termination_by rio.pending.length
decreasing_by exact rioRead_one _hread

def rioReadlineb (rio : Rio) (maxlen : UInt64) : Answer × Rio :=
  readlinebLoop rio maxlen.toNat 1 []

inductive Call where
  | readnb (n : UInt64)
  | readlineb (maxlen : UInt64)
  deriving DecidableEq

def perform (rio : Rio) : Call → Answer × Rio
  | .readnb n => rioReadnb rio n
  | .readlineb maxlen => rioReadlineb rio maxlen

end KataCpp.TinyRio
