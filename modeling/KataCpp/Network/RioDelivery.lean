import KataCpp.Network.TinyRio

/-!
# Delivery of a stream

Seen from the caller, a `rio_t` is the rest of a byte stream: each call takes
bytes off its front, however the kernel has cut the stream into chunks and
whatever is in the internal buffer.  `deliver` is that view of the two read
functions, and the model of the code refines it.

`rio_readlineb` counts in an `int`, while `maxlen` is a `size_t`.  A line is
therefore also cut where the counter runs out, after `2 ^ 31 - 1` bytes, and
the calls do what they are meant to do exactly when this cuts nothing off.
-/

namespace KataCpp.TinyRio

open Bytes MachineInt TextInput TransitionSystem

/-- The bytes up to and including the first newline, at most `limit`. -/
def lineCut : ℕ → ByteString → ByteString
  | 0, _ => []
  | _ + 1, [] => []
  | limit + 1, byte :: bytes =>
      if byte = newline then [byte] else byte :: lineCut limit bytes

/-- The number of bytes after which the loop of `rio_readlineb` stops: the
counter has reached `maxlen`, or it has become negative, which as a `size_t` is
at least `2 ^ 64 - 2 ^ 31`. -/
def lineLimit (maxlen : ℕ) : ℕ :=
  if maxlen ≤ 2 ^ 31 then maxlen - 1
  else if maxlen ≤ 2 ^ 64 - 2 ^ 31 then 2 ^ 31 - 1
  else maxlen + 2 ^ 32 - 2 ^ 64 - 1

/-- The counter at the end of a line: it is not advanced behind a newline. -/
def lineResult (data : ByteString) : ℤ :=
  if data.getLast? = some newline then wrap32 data.length
  else wrap32 (data.length + 1)

/-- What the loop of `rio_readlineb` answers when it may still store `room`
bytes of a line of which it has stored some. -/
def lineAnswer (stored : ByteString) (room : ℕ) (remaining : ByteString) :
    Answer :=
  if stored = [] ∧ remaining = [] ∧ 0 < room then ⟨0, [], false⟩
  else
    let line := stored ++ lineCut room remaining
    ⟨lineResult line, line, true⟩

/-- The two read functions on the rest of a stream. -/
def deliver (remaining : ByteString) : Call → Answer × ByteString
  | .readnb n =>
      (⟨wrap64 (min n.toNat remaining.length : ℕ), remaining.take n.toNat,
        false⟩, remaining.drop n.toNat)
  | .readlineb maxlen =>
      let limit := lineLimit maxlen.toNat
      (lineAnswer [] limit remaining,
        remaining.drop (lineCut limit remaining).length)

theorem readnbLoop_spec {rio : Rio} (n nleft : ℕ) (stored : ByteString)
    (hrio : rio.Sound) (hleft : nleft ≤ n) :
    (readnbLoop rio n nleft stored).1 =
        ⟨wrap64 ((n - nleft + min nleft rio.pending.length : ℕ) : ℤ),
          stored ++ rio.pending.take nleft, false⟩ ∧
      (readnbLoop rio n nleft stored).2.pending = rio.pending.drop nleft ∧
      (readnbLoop rio n nleft stored).2.Sound := by
  fun_induction readnbLoop with
  | case1 rio stored => simpa using hrio
  | case2 rio nleft stored hnleft nread data next hread hnegative =>
      obtain ⟨-, hcount, -⟩ := rioRead_spec hrio (by omega) hread
      omega
  | case3 rio nleft stored hnleft data next hread =>
      obtain ⟨hdata, hcount, -, hend, hnext⟩ :=
        rioRead_spec hrio (by omega) hread
      have hnone : data = [] := List.length_eq_zero_iff.mp (by omega)
      have hempty := hend hnone
      rw [hnone, hempty, List.nil_append] at hdata
      simp [hempty, hdata, hnext, Nat.cast_sub hleft]
  | case4 rio nleft stored hnleft nread data next hread hnegative hzero ih =>
      obtain ⟨hdata, hcount, hle, -, hnext⟩ :=
        rioRead_spec hrio (by omega) hread
      obtain rfl : nread = data.length := hcount
      rw [Int.toNat_natCast] at ih ⊢
      obtain ⟨hanswer, hrest, hsound⟩ := ih hnext (by omega)
      have htotal : n - (nleft - data.length) +
          min (nleft - data.length) next.pending.length =
            n - nleft + min nleft (data.length + next.pending.length) := by
        omega
      rw [hanswer, hrest, ← hdata, List.take_append, List.drop_append,
        List.take_of_length_le hle, List.drop_of_length_le hle,
        List.length_append, List.nil_append, List.append_assoc, htotal]
      exact ⟨rfl, rfl, hsound⟩

theorem rioReadnb_refines {rio : Rio} (hrio : rio.Sound) (n : UInt64) :
    (rioReadnb rio n).1 = (deliver rio.pending (.readnb n)).1 ∧
      (rioReadnb rio n).2.pending = (deliver rio.pending (.readnb n)).2 ∧
      (rioReadnb rio n).2.Sound := by
  have hloop := readnbLoop_spec n.toNat n.toNat [] hrio le_rfl
  rw [Nat.sub_self, Nat.zero_add, List.nil_append] at hloop
  exact hloop

theorem lineCut_isPrefix (limit : ℕ) (bytes : ByteString) :
    lineCut limit bytes ++ bytes.drop (lineCut limit bytes).length =
      bytes := by
  fun_induction lineCut with
  | case1 bytes => rfl
  | case2 limit => rfl
  | case3 limit bytes => rfl
  | case4 limit byte bytes hbyte ih => simpa using ih

theorem lineCut_nil (limit : ℕ) : lineCut limit [] = [] := by
  cases limit <;> rfl

theorem lineLimit_lt {maxlen : ℕ} (hmaxlen : maxlen < 2 ^ 64) :
    lineLimit maxlen + 1 < 2 ^ 32 := by
  rw [lineLimit]
  split_ifs <;> omega

/-- The `int` counter as a `size_t`. -/
theorem counter_emod {stored : ℕ} (hstored : stored + 1 < 2 ^ 32) :
    wrap32 (stored + 1) % 2 ^ 64 =
      if stored + 1 < 2 ^ 31 then (stored + 1 : ℤ)
      else stored + 1 + 2 ^ 64 - 2 ^ 32 := by
  rw [wrap32, Int.bmod_def]
  split <;> split <;> omega

theorem counter_eq_one {stored : ℕ} (hstored : stored + 1 < 2 ^ 32)
    (hone : wrap32 (stored + 1) = 1) : stored = 0 := by
  rw [wrap32, Int.bmod_def] at hone
  split at hone <;> omega

/-- The loop goes on exactly while fewer bytes than the limit are stored. -/
theorem continues_iff {maxlen stored : ℕ} (hmaxlen : maxlen < 2 ^ 64)
    (hstored : stored ≤ lineLimit maxlen) :
    wrap32 (stored + 1) % 2 ^ 64 < maxlen ↔ stored < lineLimit maxlen := by
  have hlimit := lineLimit_lt hmaxlen
  rw [counter_emod (by omega)]
  rw [lineLimit] at hstored ⊢
  split_ifs at hstored ⊢ <;> omega

section SingleByte

variable {rio next : Rio} {data : ByteString}

theorem rioRead_byte (hread : rioRead rio 1 = ⟨1, data, next⟩) :
    rio.pending = data.headD 0 :: next.pending := by
  rcases rioRead_cases one_pos (.inl (by norm_num)) hread with
    ⟨-, hresult⟩ | ⟨hdata, hcount, -⟩
  · simp at hresult
  · obtain ⟨byte, rfl⟩ : ∃ byte, data = [byte] :=
      List.length_eq_one_iff.mp (by exact_mod_cast hcount.symm)
    exact hdata.symm

theorem rioRead_end (hread : rioRead rio 1 = ⟨0, data, next⟩) :
    rio.pending = [] ∧ next.pending = [] := by
  rcases rioRead_cases one_pos (.inl (by norm_num)) hread with
    ⟨-, hresult⟩ | ⟨hdata, hcount, -, hend⟩
  · simp at hresult
  · obtain rfl : data = [] :=
      List.length_eq_zero_iff.mp (by exact_mod_cast hcount.symm)
    have hempty := hend rfl
    exact ⟨hempty, hdata.trans hempty⟩

theorem rioRead_one_cases (hrio : rio.Sound) {result : ℤ}
    (hread : rioRead rio 1 = ⟨result, data, next⟩) :
    result = 1 ∨ result = 0 := by
  obtain ⟨-, hcount, hle, -⟩ := rioRead_spec hrio one_pos hread
  omega

end SingleByte

theorem lineResult_of_notMem {line : ByteString} (hline : newline ∉ line) :
    lineResult line = wrap32 (line.length + 1) := by
  rw [lineResult, if_neg]
  exact fun hlast => hline (List.mem_of_getLast? hlast)

theorem lineResult_newline (line : ByteString) :
    lineResult (line ++ [newline]) = wrap32 (line.length + 1) := by
  rw [lineResult, if_pos (by simp), List.length_append]
  rfl

/-- A byte other than a newline is stored, and the line goes on. -/
theorem lineAnswer_cons {byte : UInt8} (hbyte : byte ≠ newline)
    (stored : ByteString) (room : ℕ) (remaining : ByteString) :
    lineAnswer stored (room + 1) (byte :: remaining) =
      lineAnswer (stored ++ [byte]) room remaining := by
  simp [lineAnswer, lineCut, hbyte]

/-- A newline is stored and ends the line. -/
theorem lineAnswer_newline (stored : ByteString) (room : ℕ)
    (remaining : ByteString) :
    lineAnswer stored (room + 1) (newline :: remaining) =
      ⟨wrap32 (stored.length + 1), stored ++ [newline], true⟩ := by
  have hcut : lineCut (room + 1) (newline :: remaining) = [newline] :=
    if_pos rfl
  have hsome : ¬(stored = [] ∧ newline :: remaining = [] ∧ 0 < room + 1) := by
    simp
  simp only [lineAnswer, if_neg hsome, hcut, lineResult_newline]

/-- Unless a `read` fails, the loop answers with the line that is cut at its
limit, whatever the kernel does later. -/
theorem readlinebLoop_spec {rio : Rio} {maxlen : ℕ} {n : ℤ}
    {stored : ByteString} (hmaxlen : maxlen < 2 ^ 64)
    (hn : n = wrap32 (stored.length + 1))
    (hstored : stored.length ≤ lineLimit maxlen) (hline : newline ∉ stored) :
    let room := lineLimit maxlen - stored.length
    (readlinebLoop rio maxlen n stored).1.Failed ∨
      (readlinebLoop rio maxlen n stored).1 =
          lineAnswer stored room rio.pending ∧
        (readlinebLoop rio maxlen n stored).2.pending =
          rio.pending.drop (lineCut room rio.pending).length := by
  fun_induction readlinebLoop with
  | case1 rio n stored hless data next hread c hnewline =>
      -- a newline is stored, and the counter is not advanced any more
      rw [hn, continues_iff hmaxlen hstored] at hless
      obtain ⟨room, hroom⟩ := Nat.exists_eq_add_of_lt hless
      have hleft : lineLimit maxlen - stored.length = room + 1 := by omega
      have hbyte : rio.pending = newline :: next.pending :=
        hnewline ▸ rioRead_byte hread
      simp only [hleft, hbyte, lineAnswer_newline, hnewline, hn, lineCut,
        if_true]
      exact .inr ⟨trivial, rfl⟩
  | case2 rio n stored hless data next hread c hother ih =>
      rw [hn, continues_iff hmaxlen hstored] at hless
      obtain ⟨room, hroom⟩ := Nat.exists_eq_add_of_lt hless
      have hcounter : wrap32 (n + 1) =
          wrap32 ((stored ++ [c]).length + 1) := by
        rw [hn, wrap32_wrap32_add_one, List.length_append]
        rfl
      have hnewline : newline ∉ stored ++ [c] := by
        simpa [hline] using Ne.symm hother
      have hlength : (stored ++ [c]).length = stored.length + 1 := by simp
      have hleft : lineLimit maxlen - stored.length = room + 1 := by omega
      have hleft' : lineLimit maxlen - (stored ++ [c]).length = room := by
        omega
      have hpending : rio.pending = c :: next.pending := rioRead_byte hread
      have hrest := ih hcounter (by omega) hnewline
      simp only [hleft'] at hrest
      simp only [hleft, hpending, lineAnswer_cons hother, lineCut,
        if_neg hother]
      exact hrest
  | case3 rio stored data next hread hless =>
      -- a counter of one means that nothing has been stored yet: it cannot
      -- have come round, as the loop stops before that
      obtain ⟨hpending, hend⟩ := rioRead_end hread
      have hlimit := lineLimit_lt hmaxlen
      have hfirst := counter_eq_one (by omega) hn.symm
      rw [hn, continues_iff hmaxlen hstored] at hless
      obtain rfl : stored = [] := List.length_eq_zero_iff.mp hfirst
      have hroom := Nat.sub_pos_of_lt hless
      simp only [hpending, lineAnswer, hroom, and_self, if_true, hend,
        lineCut_nil]
      exact .inr ⟨trivial, rfl⟩
  | case4 rio n stored hless data next hread hlater =>
      obtain ⟨hpending, hend⟩ := rioRead_end hread
      have hsome : stored ≠ [] := by
        rintro rfl
        exact hlater hn
      simp only [hpending, lineAnswer, hsome, false_and, if_false, hend,
        lineCut_nil, List.append_nil, lineResult_of_notMem hline, hn]
      exact .inr ⟨trivial, rfl⟩
  | case5 rio n stored hless result data next hone hzero hread =>
      exact .inl ⟨rfl, rfl⟩
  | case6 rio n stored hstop =>
      rw [hn, continues_iff hmaxlen hstored] at hstop
      have hleft : lineLimit maxlen - stored.length = 0 := by omega
      simp only [hleft, lineAnswer, lineCut, lt_irrefl, and_false, if_false,
        List.append_nil, lineResult_of_notMem hline, hn]
      exact .inr ⟨trivial, rfl⟩

/-- A reliable kernel never makes a line read fail. -/
theorem readlinebLoop_sound {rio : Rio} {maxlen : ℕ} {n : ℤ}
    {stored : ByteString} (hrio : rio.Sound) :
    ¬ (readlinebLoop rio maxlen n stored).1.Failed ∧
      (readlinebLoop rio maxlen n stored).2.Sound := by
  have hsound := fun rio : Rio => @rioRead_sound rio
  fun_induction readlinebLoop with
  | case1 rio n stored hless data next hread c hnewline =>
      have hnext := hsound rio hrio one_pos
      rw [hread] at hnext
      exact ⟨by simp [Answer.Failed], hnext⟩
  | case2 rio n stored hless data next hread c hother ih =>
      have hnext := hsound rio hrio one_pos
      rw [hread] at hnext
      exact ih hnext
  | case3 rio stored data next hread hless =>
      have hnext := hsound rio hrio one_pos
      rw [hread] at hnext
      exact ⟨by simp [Answer.Failed], hnext⟩
  | case4 rio n stored hless data next hread hlater =>
      have hnext := hsound rio hrio one_pos
      rw [hread] at hnext
      exact ⟨by simp [Answer.Failed], hnext⟩
  | case5 rio n stored hless result data next hone hzero hread =>
      rcases rioRead_one_cases hrio hread with rfl | rfl
      · exact absurd rfl hone
      · exact absurd rfl hzero
  | case6 rio n stored hstop => exact ⟨by simp [Answer.Failed], hrio⟩

/-- A line read that does not fail delivers, whatever the kernel's deliveries
and the state of the buffer. -/
theorem rioReadlineb_delivers (rio : Rio) (maxlen : UInt64) :
    (rioReadlineb rio maxlen).1.Failed ∨
      (rioReadlineb rio maxlen).1 =
          (deliver rio.pending (.readlineb maxlen)).1 ∧
        (rioReadlineb rio maxlen).2.pending =
          (deliver rio.pending (.readlineb maxlen)).2 := by
  have hfirst : (1 : ℤ) = wrap32 (([] : ByteString).length + 1) := by decide
  exact readlinebLoop_spec maxlen.toNat_lt hfirst (Nat.zero_le _) (by simp)

theorem rioReadlineb_refines {rio : Rio} (hrio : rio.Sound)
    (maxlen : UInt64) :
    (rioReadlineb rio maxlen).1 = (deliver rio.pending (.readlineb maxlen)).1 ∧
      (rioReadlineb rio maxlen).2.pending =
        (deliver rio.pending (.readlineb maxlen)).2 ∧
      (rioReadlineb rio maxlen).2.Sound := by
  obtain ⟨hworks, hsound⟩ := readlinebLoop_sound hrio
  obtain ⟨hanswer, hrest⟩ :=
    (rioReadlineb_delivers rio maxlen).resolve_left hworks
  exact ⟨hanswer, hrest, hsound⟩

/-- A sound `rio_t` stands for what is still to come. -/
def Represents (rio : Rio) (remaining : ByteString) : Prop :=
  rio.Sound ∧ rio.pending = remaining

theorem perform_refines (rio : Rio) (remaining : ByteString) (call : Call)
    (hrio : Represents rio remaining) :
    (perform rio call).1 = (deliver remaining call).1 ∧
      Represents (perform rio call).2 (deliver remaining call).2 := by
  obtain ⟨hsound, rfl⟩ := hrio
  cases call with
  | readnb n =>
      obtain ⟨hanswer, hrest, hnext⟩ := rioReadnb_refines hsound n
      exact ⟨hanswer, hnext, hrest⟩
  | readlineb maxlen =>
      obtain ⟨hanswer, hrest, hnext⟩ := rioReadlineb_refines hsound maxlen
      exact ⟨hanswer, hnext, hrest⟩

theorem represents_rioReadinitb {kernel : Kernel} (hkernel : kernel.Reliable)
    (buf : Memory) :
    Represents (rioReadinitb kernel buf) kernel.unread := by
  refine ⟨⟨?_, hkernel⟩, pending_of_nonpos le_rfl⟩
  simp [rioReadinitb]

/-- A call takes what it stores off the stream. -/
theorem deliver_append (remaining : ByteString) (call : Call) :
    (deliver remaining call).1.data ++ (deliver remaining call).2 =
      remaining := by
  cases call with
  | readnb n => exact List.take_append_drop _ _
  | readlineb maxlen =>
      simp only [deliver, lineAnswer, true_and, List.nil_append]
      split
      · next hend => simp [hend.1]
      · exact lineCut_isPrefix _ _

theorem trace_deliver_append (stream : ByteString) (calls : List Call) :
    (trace deliver stream calls).1.flatMap Answer.data ++
      (trace deliver stream calls).2 = stream := by
  induction calls generalizing stream with
  | nil => rfl
  | cons call calls ih =>
      simp only [trace, List.flatMap_cons]
      rw [List.append_assoc, ih, deliver_append]

/-! ## What the calls are meant to do -/

/-- A block read stores and returns as many bytes as requested, or all that
remain.  A line read stores the rest of the line, cut at `maxlen - 1` bytes,
and a NUL byte, or nothing if nothing remains. -/
def Delivers (remaining : ByteString) : Call → Answer → Prop
  | .readnb n, answer =>
      answer.data = remaining.take n.toNat ∧ answer.terminated = false ∧
        answer.result = (min n.toNat remaining.length : ℕ)
  | .readlineb maxlen, answer =>
      if remaining = [] ∧ 2 ≤ maxlen.toNat then
        answer.data = [] ∧ answer.terminated = false ∧ answer.result = 0
      else
        answer.data = lineCut (maxlen.toNat - 1) remaining ∧
          answer.terminated = true

/-- The rest of the current line, with its newline. -/
def currentLine (remaining : ByteString) : ByteString :=
  lineCut remaining.length remaining

/-- The result fits in a `ssize_t`, and the counter of the line read does not
run out before the line and before `maxlen`. -/
def Fits (remaining : ByteString) : Call → Prop
  | .readnb n => n.toNat < 2 ^ 63 ∨ remaining.length < 2 ^ 63
  | .readlineb maxlen =>
      maxlen.toNat ≤ 2 ^ 31 ∨
        (currentLine remaining).length ≤ lineLimit maxlen.toNat

theorem lineCut_eq_take (limit : ℕ) (bytes : ByteString) :
    lineCut limit bytes = (currentLine bytes).take limit := by
  induction bytes generalizing limit with
  | nil => rw [currentLine, lineCut_nil, lineCut_nil, List.take_nil]
  | cons byte bytes ih =>
      cases limit with
      | zero => rfl
      | succ limit =>
          rw [currentLine, List.length_cons, lineCut, lineCut]
          split
          · rw [List.take_succ_cons, List.take_nil]
          · rw [List.take_succ_cons, ih, currentLine]

/-- Different limits cut the same line only behind its end. -/
theorem lineCut_eq_iff {first second : ℕ} (hlt : first < second)
    (bytes : ByteString) :
    lineCut first bytes = lineCut second bytes ↔
      (currentLine bytes).length ≤ first := by
  rw [lineCut_eq_take first, lineCut_eq_take second, List.take_eq_take_iff]
  omega

theorem lineLimit_eq {maxlen : ℕ} (hsmall : maxlen ≤ 2 ^ 31) :
    lineLimit maxlen = maxlen - 1 := by
  rw [lineLimit, if_pos hsmall]

theorem lineLimit_lt_maxlen {maxlen : ℕ} (hlarge : ¬ maxlen ≤ 2 ^ 31) :
    lineLimit maxlen < maxlen - 1 := by
  rw [lineLimit]
  split_ifs <;> omega

theorem lineLimit_pos {maxlen : ℕ} (htwo : 2 ≤ maxlen) :
    0 < lineLimit maxlen := by
  rw [lineLimit]
  split_ifs <;> omega

theorem deliver_readnb_iff (remaining : ByteString) (n : UInt64) :
    Delivers remaining (.readnb n) (deliver remaining (.readnb n)).1 ↔
      Fits remaining (.readnb n) := by
  have hn := n.toNat_lt
  have hwrap := @wrap64_eq_self_iff (min n.toNat remaining.length : ℕ)
    (by omega) (by omega)
  simp only [Delivers, deliver, true_and, hwrap, Fits]
  omega

theorem deliver_readlineb_iff (remaining : ByteString) (maxlen : UInt64) :
    Delivers remaining (.readlineb maxlen)
        (deliver remaining (.readlineb maxlen)).1 ↔
      Fits remaining (.readlineb maxlen) := by
  by_cases hempty : remaining = []
  · subst hempty
    have hfits : Fits [] (.readlineb maxlen) := by
      refine .inr ?_
      rw [currentLine, lineCut_nil]
      exact Nat.zero_le _
    simp only [hfits, iff_true, Delivers, deliver, lineAnswer, true_and,
      lineCut_nil]
    by_cases htwo : 2 ≤ maxlen.toNat
    · rw [if_pos htwo, if_pos (lineLimit_pos htwo)]
      exact ⟨rfl, rfl, rfl⟩
    · have hzero : lineLimit maxlen.toNat = 0 := by
        rw [lineLimit_eq (by omega)]
        omega
      rw [if_neg htwo, hzero, if_neg (Nat.lt_irrefl 0)]
      exact ⟨rfl, rfl⟩
  · simp only [Delivers, deliver, lineAnswer, hempty, true_and, false_and,
      if_false, List.nil_append, and_true, Fits]
    by_cases hsmall : maxlen.toNat ≤ 2 ^ 31
    · simp only [lineLimit_eq hsmall, hsmall, true_or]
    · rw [lineCut_eq_iff (lineLimit_lt_maxlen hsmall)]
      simp only [hsmall, false_or]

theorem deliver_delivers_iff (remaining : ByteString) (call : Call) :
    Delivers remaining call (deliver remaining call).1 ↔
      Fits remaining call := by
  cases call with
  | readnb n => exact deliver_readnb_iff remaining n
  | readlineb maxlen => exact deliver_readlineb_iff remaining maxlen

/-- Any sequence of calls hands out the stream from its front, whatever the
kernel's deliveries, and a further call does what it is meant to do exactly
when it fits. -/
theorem perform_delivers_iff (kernel : Kernel) (hkernel : kernel.Reliable)
    (buf : Memory) (calls : List Call) :
    let run := trace perform (rioReadinitb kernel buf) calls
    (∀ (other : Kernel) (buf' : Memory), other.Reliable →
      other.unread = kernel.unread →
        (trace perform (rioReadinitb other buf') calls).1 = run.1) ∧
      ∃ remaining, run.1.flatMap Answer.data ++ remaining = kernel.unread ∧
        ∀ call, Delivers remaining call (perform run.2 call).1 ↔
          Fits remaining call := by
  intro run
  obtain ⟨hanswers, hfinal⟩ := trace_refines perform deliver perform_refines
    (represents_rioReadinitb hkernel buf) calls
  refine ⟨?_, (trace deliver kernel.unread calls).2, ?_, ?_⟩
  · intro other buf' hother hsame
    have hrefines := trace_refines perform deliver perform_refines
      (represents_rioReadinitb hother buf') calls
    rw [hsame] at hrefines
    exact hrefines.1.trans hanswers.symm
  · rw [hanswers]
    exact trace_deliver_append kernel.unread calls
  · intro call
    rw [(perform_refines _ _ call hfinal).1]
    exact deliver_delivers_iff _ call

/-- A kernel that delivers one byte at a time, the first of them after two
interruptions. -/
def byteByByte (unread : ByteString) : Kernel where
  unread := unread
  next := ⟨2, .chunk 1⟩
  later := fun _ => ⟨0, .chunk 1⟩

theorem byteByByte_reliable (unread : ByteString) :
    (byteByByte unread).Reliable :=
  ⟨Outcome.noConfusion, fun _ => Outcome.noConfusion⟩

theorem perform_delivers_iff_byteByByte :
    ∃ remaining,
      (trace perform (rioReadinitb (byteByByte (ascii "ab\ncd")) fun _ => 0)
        [.readlineb 10, .readnb 1]).1.flatMap Answer.data ++ remaining =
          ascii "ab\ncd" := by
  obtain ⟨-, remaining, hstream, -⟩ := perform_delivers_iff
    (byteByByte (ascii "ab\ncd")) (byteByByte_reliable _) (fun _ => 0)
    [.readlineb 10, .readnb 1]
  exact ⟨remaining, hstream⟩

/-! ## A line that is too long for the counter -/

theorem currentLine_of_notMem {bytes : ByteString} (hbytes : newline ∉ bytes) :
    currentLine bytes = bytes := by
  induction bytes with
  | nil => rfl
  | cons byte bytes ih =>
      rw [List.mem_cons, not_or] at hbytes
      rw [currentLine, List.length_cons, lineCut, if_neg (Ne.symm hbytes.1)]
      exact congrArg (byte :: ·) (ih hbytes.2)

theorem not_fits_long_line {count : ℕ} (hcount : 2 ^ 31 ≤ count) :
    ¬ Fits (List.replicate count 97) (.readlineb 2147483649) := by
  have hletters : newline ∉ List.replicate count 97 := by
    intro hmember
    exact absurd (List.eq_of_mem_replicate hmember) (by decide)
  have hmaxlen : (2147483649 : UInt64).toNat = 2 ^ 31 + 1 := rfl
  have hlimit : lineLimit (2 ^ 31 + 1) = 2 ^ 31 - 1 := rfl
  rw [Fits, currentLine_of_notMem hletters, List.length_replicate, hmaxlen,
    hlimit]
  omega

/-- A line of `2 ^ 31` bytes is not stored as a whole although `maxlen` has room
for it. -/
theorem long_line_not_delivered :
    ¬ Delivers (List.replicate (2 ^ 31) 97) (.readlineb 2147483649)
      (perform (rioReadinitb (byteByByte (List.replicate (2 ^ 31) 97))
        fun _ => 0) (.readlineb 2147483649)).1 := by
  have hrepresents := represents_rioReadinitb
    (byteByByte_reliable (List.replicate (2 ^ 31) 97)) fun _ => 0
  rw [(perform_refines _ _ _ hrepresents).1]
  intro hdelivers
  exact not_fits_long_line le_rfl ((deliver_delivers_iff _ _).mp hdelivers)

end KataCpp.TinyRio
