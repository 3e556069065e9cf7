import KataCpp.Core.TextInput
import KataCpp.Core.TransitionSystem

/-!
# The echo server's connections

Every connection of the server has an `fd_state`: a fixed buffer that `do_read`
fills with rotated bytes, and three cursors into it.  Bytes up to `buffer_used`
are stored, those up to `write_upto` belong to complete lines, and those up to
`n_written` have been sent.  `do_write` sends complete lines and rewinds the
buffer when everything in it has been sent.

A connection is run here through any sequence of the two calls, with any
received bytes and any results of `send`.  The cursors stay in order and only
stored bytes are ever sent.  Bytes that arrive while the buffer is full are
skipped; all others are sent or still in the buffer, in order.
-/

namespace KataCpp.EchoServer

open Bytes TextInput TransitionSystem

def maxLine : ℕ := 16384

/-- The size of the buffer that `do_read` hands to `recv`. -/
def chunkSize : ℕ := 1024

def rot13Char (c : UInt8) : UInt8 :=
  if (97 ≤ c && c ≤ 109) || (65 ≤ c && c ≤ 77) then c + 13
  else if (110 ≤ c && c ≤ 122) || (78 ≤ c && c ≤ 90) then c - 13
  else c

structure FdState where
  buffer : Memory
  bufferUsed : ℕ
  writing : Bool
  nWritten : ℕ
  writeUpto : ℕ

/-- `alloc_fd_state`; the contents of the allocated buffer are arbitrary. -/
def allocFdState (buffer : Memory) : FdState where
  buffer := buffer
  bufferUsed := 0
  writing := false
  nWritten := 0
  writeUpto := 0

/-- Store a byte unless the buffer is full. -/
def FdState.store (state : FdState) (byte : UInt8) : FdState :=
  if state.bufferUsed < maxLine then
    { state with
      buffer :=
        Function.update state.buffer state.bufferUsed (rot13Char byte)
      bufferUsed := state.bufferUsed + 1 }
  else state

/-- Everything in the buffer belongs to a complete line. -/
def FdState.endLine (state : FdState) : FdState :=
  { state with writing := true, writeUpto := state.bufferUsed }

/-- The body of the loop over a received chunk. -/
def readByte (state : FdState) (byte : UInt8) : FdState :=
  if byte = newline then (state.store byte).endLine else state.store byte

/-- How the loop around `recv` ends: the peer has closed the connection, there
is nothing more to read now, or `recv` fails otherwise. -/
inductive ReadEnd where
  | closed
  | again
  | failed
  deriving DecidableEq

def ReadEnd.result : ReadEnd → ℤ
  | closed => 1
  | again => 0
  | failed => -1

/-- `do_read`, where `recv` delivers the chunks one after another. -/
def doRead (state : FdState) (chunks : List ByteString) (ending : ReadEnd) :
    ℤ × FdState :=
  (ending.result,
    chunks.foldl (fun current chunk => chunk.foldl readByte current) state)

/-- The bytes that find room in the buffer when they are read. -/
def keptBytes : FdState → ByteString → ByteString
  | _, [] => []
  | state, byte :: bytes =>
      let kept := keptBytes (readByte state byte) bytes
      if state.bufferUsed < maxLine then byte :: kept else kept

inductive SendResult where
  | sent (count : ℕ)
  | again
  | failed
  deriving DecidableEq

/-- A return of `do_write`: its result and the state, what it passed to the
calls of `send`, what these took, and whether it rewound the buffer. -/
structure WriteOutcome where
  result : ℤ
  state : FdState
  passed : List ByteString
  sent : ByteString
  rewound : Bool

/-- The end of `do_write`, behind its loop. -/
def finishWrite (state : FdState) : WriteOutcome :=
  if state.nWritten = state.bufferUsed then
    { result := 0
      state := { state with
        nWritten := 0, writeUpto := 0, bufferUsed := 0, writing := false }
      passed := [], sent := [], rewound := true }
  else
    { result := 0, state := { state with writing := false }
      passed := [], sent := [], rewound := false }

/-- `do_write`, with the results of the calls of `send` in order.  A send takes
at least one byte and at most the bytes it is given; `none` stands for results
that violate this, or run out. -/
def doWrite : FdState → List SendResult → Option WriteOutcome
  | state, results =>
      if state.nWritten < state.writeUpto then
        let data := slice state.buffer state.nWritten state.writeUpto
        match results with
        | [] => none
        | .again :: _ =>
            some ⟨0, state, [data], [], false⟩
        | .failed :: _ =>
            some ⟨-1, state, [data], [], false⟩
        | .sent count :: results =>
            if 0 < count ∧ count ≤ data.length then
              (doWrite { state with nWritten := state.nWritten + count }
                results).map fun outcome =>
                  { outcome with
                    passed := data :: outcome.passed
                    sent := data.take count ++ outcome.sent }
            else none
      else some (finishWrite state)

/-! ## Connections -/

/-- A connection with its history: the bytes received and those of them that
found room, the contents of the buffer since it was last rewound, and the bytes
sent. -/
structure Connection where
  state : FdState
  received : ByteString
  kept : ByteString
  stored : ByteString
  sent : ByteString

def Connection.start (buffer : Memory) : Connection where
  state := allocFdState buffer
  received := []
  kept := []
  stored := []
  sent := []

inductive Action where
  | read (chunks : List ByteString) (ending : ReadEnd)
  | write (results : List SendResult)
  deriving DecidableEq

/-- One call.  A `recv` that delivers bytes delivers at most the size of the
chunk buffer. -/
def step (connection : Connection) : Action → Option Connection
  | .read chunks ending =>
      if ∀ chunk ∈ chunks, 0 < chunk.length ∧ chunk.length ≤ chunkSize then
        let kept := keptBytes connection.state chunks.flatten
        some
          { connection with
            state := (doRead connection.state chunks ending).2
            received := connection.received ++ chunks.flatten
            kept := connection.kept ++ kept
            stored := connection.stored ++ kept.map rot13Char }
      else none
  | .write results =>
      (doWrite connection.state results).map fun outcome =>
        { connection with
          state := outcome.state
          stored := if outcome.rewound then [] else connection.stored
          sent := connection.sent ++ outcome.sent }

/-! ## The invariant -/

/-- The cursors are in order, a cleared flag means that all complete lines are
sent, the buffer holds what was stored, and what was kept is sent or still to
be sent. -/
structure Consistent (state : FdState) (stored kept sent : ByteString) :
    Prop where
  nWritten_le : state.nWritten ≤ state.writeUpto
  writeUpto_le : state.writeUpto ≤ state.bufferUsed
  bufferUsed_le : state.bufferUsed ≤ maxLine
  drained : state.writing = false → state.nWritten = state.writeUpto
  stored_eq : slice state.buffer 0 state.bufferUsed = stored
  kept_eq : sent ++ slice state.buffer state.nWritten state.bufferUsed =
    kept.map rot13Char

variable {state : FdState} {stored kept sent : ByteString}

theorem consistent_allocFdState (buffer : Memory) :
    Consistent (allocFdState buffer) [] [] [] := by
  constructor <;> simp [allocFdState]

theorem Consistent.endLine (hstate : Consistent state stored kept sent) :
    Consistent state.endLine stored kept sent where
  nWritten_le := hstate.nWritten_le.trans hstate.writeUpto_le
  writeUpto_le := le_rfl
  bufferUsed_le := hstate.bufferUsed_le
  drained hflag := by simp [FdState.endLine] at hflag
  stored_eq := hstate.stored_eq
  kept_eq := hstate.kept_eq

theorem Consistent.store_of_lt (hstate : Consistent state stored kept sent)
    (hroom : state.bufferUsed < maxLine) (byte : UInt8) :
    Consistent (state.store byte) (stored ++ [rot13Char byte])
      (kept ++ [byte]) sent := by
  have hwritten := hstate.nWritten_le.trans hstate.writeUpto_le
  have hupto := hstate.writeUpto_le
  rw [FdState.store, if_pos hroom]
  constructor
  · exact hstate.nWritten_le
  · exact Nat.le_succ_of_le hupto
  · exact hroom
  · exact hstate.drained
  · simp only [slice_update_succ _ (Nat.zero_le _), hstate.stored_eq]
  · simp only [slice_update_succ _ hwritten, ← List.append_assoc,
      hstate.kept_eq, List.map_append, List.map_singleton]

theorem store_of_ge (hfull : ¬ state.bufferUsed < maxLine) (byte : UInt8) :
    state.store byte = state := by
  rw [FdState.store, if_neg hfull]

/-- One byte: it is stored and kept, or there is no room for it. -/
theorem Consistent.readByte (hstate : Consistent state stored kept sent)
    (byte : UInt8) :
    Consistent (readByte state byte)
      (stored ++ (keptBytes state [byte]).map rot13Char)
      (kept ++ keptBytes state [byte]) sent := by
  have hstored : Consistent (state.store byte)
      (stored ++ (keptBytes state [byte]).map rot13Char)
      (kept ++ keptBytes state [byte]) sent := by
    by_cases hroom : state.bufferUsed < maxLine
    · simpa [keptBytes, hroom] using hstate.store_of_lt hroom byte
    · simpa [keptBytes, hroom, store_of_ge hroom] using hstate
  rw [EchoServer.readByte]
  split
  · exact hstored.endLine
  · exact hstored

theorem keptBytes_cons (state : FdState) (byte : UInt8) (bytes : ByteString) :
    keptBytes state (byte :: bytes) =
      keptBytes state [byte] ++ keptBytes (readByte state byte) bytes := by
  by_cases hroom : state.bufferUsed < maxLine <;> simp [keptBytes, hroom]

/-- The chunk boundaries do not matter. -/
theorem doRead_state (state : FdState) (chunks : List ByteString)
    (ending : ReadEnd) :
    (doRead state chunks ending).2 = chunks.flatten.foldl readByte state :=
  List.foldl_flatten.symm

/-- Any number of bytes. -/
theorem Consistent.readBytes (hstate : Consistent state stored kept sent)
    (bytes : ByteString) :
    Consistent (bytes.foldl EchoServer.readByte state)
      (stored ++ (keptBytes state bytes).map rot13Char)
      (kept ++ keptBytes state bytes) sent := by
  induction bytes generalizing state stored kept with
  | nil => simpa [keptBytes] using hstate
  | cons byte bytes ih =>
      rw [List.foldl_cons, keptBytes_cons, List.map_append,
        ← List.append_assoc, ← List.append_assoc]
      exact ih (hstate.readByte byte)

/-- A send that takes `count` bytes. -/
theorem Consistent.send (hstate : Consistent state stored kept sent)
    {count : ℕ} (hcount : 0 < count)
    (hlength : state.nWritten + count ≤ state.writeUpto) :
    Consistent { state with nWritten := state.nWritten + count } stored kept
      (sent ++ (slice state.buffer state.nWritten state.writeUpto).take
        count) := by
  have hupto := hstate.writeUpto_le
  constructor
  · exact hlength
  · exact hupto
  · exact hstate.bufferUsed_le
  · intro hflag
    have hdrained := hstate.drained hflag
    omega
  · exact hstate.stored_eq
  · rw [take_slice hlength, List.append_assoc,
      slice_append (Nat.le_add_right _ _) (hlength.trans hupto),
      hstate.kept_eq]

/-- The end of `do_write`, when all complete lines have been sent. -/
theorem Consistent.finishWrite (hstate : Consistent state stored kept sent)
    (hsent : ¬ state.nWritten < state.writeUpto) :
    Consistent (finishWrite state).state
      (if (finishWrite state).rewound then [] else stored) kept
      (sent ++ (finishWrite state).sent) := by
  have hwritten := hstate.nWritten_le
  have hkept := hstate.kept_eq
  rw [EchoServer.finishWrite]
  split
  · next hempty =>
      rw [hempty, slice_self, List.append_nil] at hkept
      constructor
      · exact le_rfl
      · exact le_rfl
      · exact Nat.zero_le maxLine
      · exact fun _ => rfl
      · exact slice_self
      · rw [slice_self, List.append_nil, List.append_nil]
        exact hkept
  · constructor
    · exact hwritten
    · exact hstate.writeUpto_le
    · exact hstate.bufferUsed_le
    · intro _
      dsimp only
      omega
    · exact hstate.stored_eq
    · simpa using hkept

theorem Consistent.data_isInfix (hstate : Consistent state stored kept sent) :
    slice state.buffer state.nWritten state.writeUpto <:+: stored := by
  rw [← hstate.stored_eq]
  exact slice_isInfix hstate.nWritten_le hstate.writeUpto_le

/-- The return of `do_write` behind its loop, which sends nothing more. -/
theorem Consistent.finish (hstate : Consistent state stored kept sent)
    (hsent : ¬ state.nWritten < state.writeUpto) :
    let outcome := EchoServer.finishWrite state
    Consistent outcome.state (if outcome.rewound then [] else stored) kept
        (sent ++ outcome.sent) ∧
      ∀ data ∈ outcome.passed, data <:+: stored := by
  refine ⟨hstate.finishWrite hsent, ?_⟩
  rw [EchoServer.finishWrite]
  split <;> simp

/-- A call of `do_write`: the invariant is kept, and what is passed to `send`
is part of what has been stored. -/
theorem Consistent.doWrite {results : List SendResult}
    {outcome : WriteOutcome} (hstate : Consistent state stored kept sent)
    (hwrite : doWrite state results = some outcome) :
    Consistent outcome.state (if outcome.rewound then [] else stored) kept
        (sent ++ outcome.sent) ∧
      ∀ data ∈ outcome.passed, data <:+: stored := by
  induction results generalizing state sent outcome with
  | nil =>
      rw [EchoServer.doWrite] at hwrite
      split at hwrite
      · contradiction
      · next hsent =>
          obtain rfl := Option.some.inj hwrite
          exact hstate.finish hsent
  | cons result results ih =>
      rw [EchoServer.doWrite] at hwrite
      split at hwrite
      · cases result with
        | again =>
            obtain rfl := Option.some.inj hwrite
            simpa using ⟨hstate, hstate.data_isInfix⟩
        | failed =>
            obtain rfl := Option.some.inj hwrite
            simpa using ⟨hstate, hstate.data_isInfix⟩
        | sent count =>
            dsimp only at hwrite
            split at hwrite
            · next hcount =>
                obtain ⟨rest, hrest, rfl⟩ := Option.map_eq_some_iff.mp hwrite
                rw [length_slice] at hcount
                have hnext := ih
                  (hstate.send hcount.1 (by omega)) hrest
                rw [List.append_assoc] at hnext
                refine ⟨hnext.1, ?_⟩
                rintro data (- | ⟨_, hdata⟩)
                · exact hstate.data_isInfix
                · exact hnext.2 data hdata
            · contradiction
      · next hsent =>
          obtain rfl := Option.some.inj hwrite
          exact hstate.finish hsent

theorem keptBytes_sublist (state : FdState) (bytes : ByteString) :
    (keptBytes state bytes).Sublist bytes := by
  induction bytes generalizing state with
  | nil => exact List.Sublist.refl _
  | cons byte bytes ih =>
      rw [keptBytes]
      split
      · exact (ih _).cons_cons byte
      · exact (ih _).cons byte

def Connection.Consistent (connection : Connection) : Prop :=
  EchoServer.Consistent connection.state connection.stored connection.kept
      connection.sent ∧
    connection.kept.Sublist connection.received

theorem consistent_step (connection : Connection) (action : Action)
    (next : Connection) (hconnection : connection.Consistent)
    (hstep : step connection action = some next) : next.Consistent := by
  obtain ⟨hstate, hsublist⟩ := hconnection
  cases action with
  | read chunks ending =>
      rw [step] at hstep
      split at hstep
      · obtain rfl := Option.some.inj hstep
        have hread := hstate.readBytes chunks.flatten
        rw [← doRead_state connection.state chunks ending] at hread
        exact ⟨hread, hsublist.append (keptBytes_sublist _ _)⟩
      · contradiction
  | write results =>
      obtain ⟨outcome, hwrite, rfl⟩ := Option.map_eq_some_iff.mp hstep
      exact ⟨(hstate.doWrite hwrite).1, hsublist⟩

theorem consistent_run {buffer : Memory} {schedule : List Action}
    {connection : Connection}
    (hrun : run step (Connection.start buffer) schedule = some connection) :
    connection.Consistent :=
  run_invariant Connection.Consistent consistent_step
    ⟨consistent_allocFdState buffer, List.Sublist.refl _⟩ hrun

/-- In every reachable state the cursors are in order, whatever `do_write` may
pass to `send` there has been stored since the buffer was last rewound, and a
cleared flag means that no complete line is left to send. -/
theorem cursors_ordered {buffer : Memory} {schedule : List Action}
    {connection : Connection}
    (hrun : run step (Connection.start buffer) schedule = some connection) :
    let state := connection.state
    state.nWritten ≤ state.writeUpto ∧ state.writeUpto ≤ state.bufferUsed ∧
      state.bufferUsed ≤ maxLine ∧
      (∀ results outcome, doWrite state results = some outcome →
        ∀ data ∈ outcome.passed, data <:+: connection.stored) ∧
      (state.writing = false → state.nWritten = state.writeUpto) := by
  obtain ⟨hstate, -⟩ := consistent_run hrun
  refine ⟨hstate.nWritten_le, hstate.writeUpto_le, hstate.bufferUsed_le, ?_,
    hstate.drained⟩
  intro results outcome hwrite
  exact (hstate.doWrite hwrite).2

/-- A line and the beginning of another are read, and one byte is sent. -/
theorem cursors_ordered_partial_send :
    ∃ connection, run step (Connection.start fun _ => 0)
        [.read [ascii "ab\nc"] .again, .write [.sent 1, .again]] =
          some connection ∧
      connection.state.nWritten ≤ connection.state.writeUpto := by
  obtain ⟨connection, hrun⟩ : ∃ connection,
      run step (Connection.start fun _ => 0)
        [.read [ascii "ab\nc"] .again, .write [.sent 1, .again]] =
          some connection :=
    Option.isSome_iff_exists.mp (by decide)
  exact ⟨connection, hrun, (cursors_ordered hrun).1⟩

/-- What has been sent and what is still in the buffer make up the bytes that
were received while there was room for them, which are all the bytes received
unless one of them found the buffer full. -/
theorem sent_append_pending {buffer : Memory} {schedule : List Action}
    {connection : Connection}
    (hrun : run step (Connection.start buffer) schedule = some connection) :
    let pending := slice connection.state.buffer connection.state.nWritten
      connection.state.bufferUsed
    connection.sent ++ pending = connection.kept.map rot13Char ∧
      connection.kept.Sublist connection.received ∧
      (connection.sent ++ pending = connection.received.map rot13Char ↔
        connection.kept = connection.received) := by
  intro pending
  obtain ⟨hstate, hsublist⟩ := consistent_run hrun
  have hkept : connection.sent ++ pending = connection.kept.map rot13Char :=
    hstate.kept_eq
  refine ⟨hkept, hsublist, ?_⟩
  constructor
  · intro hall
    have hlength := congrArg List.length (hkept.symm.trans hall)
    rw [List.length_map, List.length_map] at hlength
    exact hsublist.eq_of_length hlength
  · intro hall
    rw [hkept, hall]

/-- A line that fits into the buffer is kept. -/
theorem sent_append_pending_short_line :
    ∃ connection, run step (Connection.start fun _ => 0)
        [.read [ascii "ab\nc"] .again, .write [.sent 1, .again]] =
          some connection ∧
      connection.sent ++ slice connection.state.buffer
        connection.state.nWritten connection.state.bufferUsed =
          ascii "no\np" := by
  obtain ⟨connection, hrun, hkept⟩ : ∃ connection,
      run step (Connection.start fun _ => 0)
        [.read [ascii "ab\nc"] .again, .write [.sent 1, .again]] =
          some connection ∧ connection.kept = ascii "ab\nc" := by
    refine ⟨_, rfl, ?_⟩
    decide
  refine ⟨connection, hrun, ?_⟩
  rw [(sent_append_pending hrun).1, hkept]
  decide

/-- Whatever does not fit into the buffer of a new connection is lost. -/
theorem sent_append_pending_ne (buffer : Memory) {chunks : List ByteString}
    (hchunks : ∀ chunk ∈ chunks, 0 < chunk.length ∧ chunk.length ≤ chunkSize)
    (hlong : maxLine < chunks.flatten.length) (ending : ReadEnd) :
    ∃ connection, run step (Connection.start buffer)
        [.read chunks ending] = some connection ∧
      connection.sent ++ slice connection.state.buffer
        connection.state.nWritten connection.state.bufferUsed ≠
          connection.received.map rot13Char := by
  obtain ⟨connection, hstep, hreceived, hsent⟩ : ∃ connection,
      step (Connection.start buffer) (.read chunks ending) =
          some connection ∧
      connection.received = chunks.flatten ∧ connection.sent = [] := by
    rw [step, if_pos hchunks]
    exact ⟨_, rfl, rfl, rfl⟩
  have hrun : run step (Connection.start buffer) [.read chunks ending] =
      some connection :=
    run_cons_eq_some.mpr ⟨connection, hstep, rfl⟩
  have hbound := (consistent_run hrun).1.bufferUsed_le
  refine ⟨connection, hrun, ?_⟩
  intro hequal
  have hlength := congrArg List.length hequal
  rw [hsent, hreceived, List.nil_append, length_slice, List.length_map]
    at hlength
  omega

/-- Seventeen full chunks without a line break do not fit into the buffer. -/
theorem bytes_lost_on_full_buffer :
    ∃ connection, run step (Connection.start fun _ => 0)
        [.read (List.replicate 17 (List.replicate chunkSize 97)) .again] =
          some connection ∧
      connection.sent ++ slice connection.state.buffer
        connection.state.nWritten connection.state.bufferUsed ≠
          connection.received.map rot13Char := by
  apply sent_append_pending_ne
  · intro chunk hchunk
    rw [List.eq_of_mem_replicate hchunk, List.length_replicate]
    exact ⟨by decide, le_rfl⟩
  · rw [List.length_flatten, List.map_replicate, List.sum_replicate,
      List.length_replicate]
    decide

end KataCpp.EchoServer
