import KataCpp.Core.DescriptorSet
import KataCpp.Core.LoopingCalls
import KataCpp.Network.EchoServer

/-!
# The echo server's main loop

The server keeps one state for each descriptor.  Before each `select` it
collects the descriptors that have a state; then it accepts a connection when
its listening socket is ready, and goes through the other descriptors, reading
from those that are ready for reading and writing to those that are ready for
writing.  When a connection ends or fails, its state is freed and its
descriptor closed, and the kernel may give the number to a later connection.

A run consists of what the system calls return.  Using a descriptor without a
state, a descriptor that is not open, or a place behind the table of the states
is a fault.
-/

namespace KataCpp.EchoServer

open Bytes DescriptorSet TextInput TransitionSystem

/-- Where the loop is: in front of `select`, behind it, or at a number of the
loop over the descriptors. -/
inductive Position where
  | select
  | accept
  | visit (i : ℕ)
  deriving DecidableEq

/-- The variables of `run`, and the connections that are open. -/
structure Server where
  listener : ℕ
  state : ℕ → Option FdState
  readset : Finset ℕ
  writeset : Finset ℕ
  maxfd : ℕ
  position : Position
  connections : Finset ℕ

/-- The server behind the call of `listen`. -/
def Server.start (listener : ℕ) : Server where
  listener := listener
  state _ := none
  readset := ∅
  writeset := ∅
  maxfd := listener
  position := .select
  connections := ∅

/-- The largest descriptor that the loop in front of `select` meets. -/
def Server.largest (server : Server) : ℕ :=
  (List.range fdSetSize).foldl (fun maxfd i =>
    if (server.state i).isSome ∧ maxfd < i then i else maxfd) server.listener

def Server.reading (server : Server) : Finset ℕ :=
  insert server.listener
    ((Finset.range fdSetSize).filter fun i => (server.state i).isSome)

def Server.writing (server : Server) : Finset ℕ :=
  (Finset.range fdSetSize).filter fun i =>
    ((server.state i).map FdState.writing).getD false

/-- What the kernel returns: the ready descriptors, the result of `accept`, or
the results of the calls of `recv` and `send` for a descriptor; `pass` stands
for the places where no call is made. -/
inductive Event where
  | select (readable writable : Finset ℕ)
  | accept (fd : Option ℕ) (buffer : Memory)
  | pass
  | serve (fd : ℕ) (chunks : List ByteString) (ending : ReadEnd)
      (results : List SendResult)

/-- A visit of a descriptor: the result `r`, the state and the bytes sent. -/
def serveFd (state : FdState) (readable writable : Prop)
    [Decidable readable] [Decidable writable] (chunks : List ByteString)
    (ending : ReadEnd) (results : List SendResult) :
    Option (ℤ × FdState × ByteString) :=
  let (r, state) :=
    if readable then doRead state chunks ending else (0, state)
  if r = 0 ∧ writable then
    (doWrite state results).map fun outcome =>
      (outcome.result, outcome.state, outcome.sent)
  else some (r, state, [])

/-- The loop, with the bytes that are sent to a descriptor. -/
def stepLoop (server : Server) :
    Event → Option (Option (ℕ × ByteString) × Server)
  | .select readable writable =>
      if server.position = .select ∧
          server.reading ⊆ insert server.listener server.connections then
        some (none, { server with
          readset := readable, writeset := writable
          maxfd := server.largest, position := .accept })
      else none
  | .accept result buffer =>
      if server.position = .accept ∧ server.listener ∈ server.readset then
        match result with
        | none => some (none, { server with position := .visit 0 })
        | some fd =>
            if fdSetSize < fd then
              some (none, { server with position := .visit 0 })
            else if fd < fdSetSize then
              some (none, { server with
                state := Function.update server.state fd
                  (some (allocFdState buffer))
                connections := insert fd server.connections
                position := .visit 0 })
            else none
      else none
  | .pass =>
      match server.position with
      | .select => none
      | .accept =>
          if server.listener ∈ server.readset then none
          else some (none, { server with position := .visit 0 })
      | .visit i =>
          if i < server.maxfd + 1 then
            if i = server.listener ∨
                (i ∉ server.readset ∧ i ∉ server.writeset) then
              some (none, { server with position := .visit (i + 1) })
            else none
          else some (none, { server with position := .select })
  | .serve fd chunks ending results =>
      if server.position = .visit fd ∧ fd < server.maxfd + 1 ∧
          fd ≠ server.listener ∧
          (fd ∈ server.readset ∨ fd ∈ server.writeset) ∧
          fd < fdSetSize ∧ fd ∈ server.connections then do
        let state ← server.state fd
        let (r, state, sent) ← serveFd state (fd ∈ server.readset)
          (fd ∈ server.writeset) chunks ending results
        if r ≠ 0 then
          return (some (fd, sent), { server with
            state := Function.update server.state fd none
            connections := server.connections.erase fd
            position := .visit (fd + 1) })
        else
          return (some (fd, sent), { server with
            state := Function.update server.state fd (some state)
            position := .visit (fd + 1) })
      else none

/-- What can happen: it is what the loop is about to do, only watched
descriptors are ready, a new descriptor is not in use, chunks fit into the
buffer of `recv`, and `send` takes no more than it is given.  That `accept`
returns `FD_SETSIZE` is left out, for which the table has no place. -/
def Event.Possible (server : Server) : Event → Prop
  | .select readable writable => server.position = .select ∧
      readable ⊆ server.reading ∧ writable ⊆ server.writing
  | .accept result _ => server.position = .accept ∧
      server.listener ∈ server.readset ∧ ∀ fd, result = some fd →
        fd ≠ server.listener ∧ fd ∉ server.connections ∧ fd ≠ fdSetSize
  | .pass =>
      match server.position with
      | .select => False
      | .accept => server.listener ∉ server.readset
      | .visit i => i ≤ server.maxfd → i = server.listener ∨
          (i ∉ server.readset ∧ i ∉ server.writeset)
  | .serve fd chunks ending results => server.position = .visit fd ∧
      fd ≤ server.maxfd ∧ fd ≠ server.listener ∧
      (fd ∈ server.readset ∨ fd ∈ server.writeset) ∧
      (∀ chunk ∈ chunks, 0 < chunk.length ∧ chunk.length ≤ chunkSize) ∧
      ∀ state, server.state fd = some state →
        (serveFd state (fd ∈ server.readset) (fd ∈ server.writeset) chunks
          ending results).isSome

/-- The check of the accepted descriptor lets the number through that is one
too large for the table. -/
theorem stepLoop_accept_fdSetSize (server : Server) (buffer : Memory) :
    stepLoop server (.accept (some fdSetSize) buffer) = none := by
  simp [stepLoop]

/-! ## Clients -/

/-- A visit of a connection with its history: it receives, and then sends
unless it has come to its end. -/
def Connection.receive (connection : Connection) (readable : Prop)
    [Decidable readable] (chunks : List ByteString) (ending : ReadEnd) :
    Option (ℤ × Connection) :=
  if readable then
    (step connection (.read chunks ending)).map (ending.result, ·)
  else some (0, connection)

def Connection.serve (connection : Connection) (readable writable : Prop)
    [Decidable readable] [Decidable writable] (chunks : List ByteString)
    (ending : ReadEnd) (results : List SendResult) :
    Option (ℤ × ByteString × Connection) :=
  (connection.receive readable chunks ending).bind fun received =>
    if received.1 = 0 ∧ writable then
      (doWrite received.2.state results).bind fun outcome =>
        (step received.2 (.write results)).map fun next =>
          (outcome.result, outcome.sent, next)
    else some (received.1, [], received.2)

/-- The connections with their histories; the descriptors that were ready when
`select` was last called, and those visited since. -/
structure Desk where
  clients : ℕ → Option Connection
  readable : Finset ℕ
  writable : Finset ℕ
  visited : List ℕ

def Desk.start : Desk where
  clients _ := none
  readable := ∅
  writable := ∅
  visited := []

/-- What an event does to the connections: a new one begins with an empty
history, and a visit only concerns the connection that is visited. -/
def attend (desk : Desk) : Event → Option (ℕ × ByteString) × Desk
  | .select readable writable => (none, { desk with
      readable := readable, writable := writable, visited := [] })
  | .accept result buffer =>
      match result with
      | none => (none, desk)
      | some fd =>
          if fdSetSize < fd then (none, desk)
          else (none, { desk with
            clients := Function.update desk.clients fd
              (some (Connection.start buffer)) })
  | .pass => (none, desk)
  | .serve fd chunks ending results =>
      match (desk.clients fd).bind fun connection => connection.serve
        (fd ∈ desk.readable) (fd ∈ desk.writable) chunks ending results with
      | none => (none, desk)
      | some (r, sent, next) => (some (fd, sent), { desk with
          clients := Function.update desk.clients fd
            (if r = 0 then some next else none)
          visited := desk.visited ++ [fd] })

section Visits

variable {connection next : Connection} {readable writable : Prop}
  [Decidable readable] [Decidable writable] {chunks : List ByteString}
  {ending : ReadEnd} {results : List SendResult} {r : ℤ}
  {state : FdState} {sent : ByteString}

theorem exists_receive (readable : Prop) [Decidable readable]
    (connection : Connection) (ending : ReadEnd)
    (hchunks : ∀ chunk ∈ chunks,
      0 < chunk.length ∧ chunk.length ≤ chunkSize) :
    ∃ current, connection.receive readable chunks ending =
        some ((if readable then doRead connection.state chunks ending
          else (0, connection.state)).1, current) ∧
      current.state = (if readable then doRead connection.state chunks ending
        else (0, connection.state)).2 := by
  by_cases hreadable : readable
  · simp only [Connection.receive, if_pos hreadable, step, if_pos hchunks,
      Option.map_some]
    exact ⟨_, rfl, rfl⟩
  · simp only [Connection.receive, if_neg hreadable]
    exact ⟨connection, rfl, rfl⟩

/-- A visit does to the state what it does to the connection. -/
theorem exists_serve_of_serveFd
    (hchunks : ∀ chunk ∈ chunks,
      0 < chunk.length ∧ chunk.length ≤ chunkSize)
    (hserve : serveFd connection.state readable writable chunks ending
      results = some (r, state, sent)) :
    ∃ next, connection.serve readable writable chunks ending results =
        some (r, sent, next) ∧ next.state = state := by
  obtain ⟨current, hread, hstate⟩ :=
    exists_receive readable connection ending hchunks
  rw [serveFd] at hserve
  rw [Connection.serve, hread, Option.bind_some]
  generalize (if readable then doRead connection.state chunks ending
    else (0, connection.state)) = pair at *
  obtain ⟨first, reached⟩ := pair
  dsimp only at hserve hstate ⊢
  subst hstate
  split at hserve
  · next hwrite =>
      obtain ⟨outcome, houtcome, hequal⟩ := Option.map_eq_some_iff.mp hserve
      obtain ⟨rfl, rfl, rfl⟩ := hequal
      rw [if_pos hwrite, houtcome, step, houtcome]
      exact ⟨_, rfl, rfl⟩
  · next hwrite =>
      rw [if_neg hwrite]
      obtain ⟨rfl, rfl, rfl⟩ := Option.some.inj hserve
      exact ⟨current, rfl, rfl⟩

theorem Connection.Consistent.receive (hconnection : connection.Consistent)
    (hreceive : connection.receive readable chunks ending = some (r, next)) :
    next.Consistent ∧ next.sent = connection.sent := by
  rw [Connection.receive] at hreceive
  split at hreceive
  · obtain ⟨reached, hstep, hequal⟩ := Option.map_eq_some_iff.mp hreceive
    obtain ⟨-, rfl⟩ := Prod.mk.inj hequal
    refine ⟨consistent_step _ _ _ hconnection hstep, ?_⟩
    rw [step] at hstep
    split at hstep
    · obtain rfl := Option.some.inj hstep
      rfl
    · contradiction
  · obtain ⟨-, rfl⟩ := Prod.mk.inj (Option.some.inj hreceive)
    exact ⟨hconnection, rfl⟩

/-- A visit keeps the invariant of the connection, and appends what is sent to
the bytes that have been sent. -/
theorem Connection.Consistent.serve (hconnection : connection.Consistent)
    (hserve : connection.serve readable writable chunks ending results =
      some (r, sent, next)) :
    next.Consistent ∧ next.sent = connection.sent ++ sent := by
  obtain ⟨⟨first, current⟩, hreceive, hrest⟩ :=
    Option.bind_eq_some_iff.mp hserve
  obtain ⟨hcurrent, hsent⟩ := hconnection.receive hreceive
  dsimp only at hrest
  split at hrest
  · obtain ⟨outcome, houtcome, hrest⟩ := Option.bind_eq_some_iff.mp hrest
    obtain ⟨reached, hstep, hequal⟩ := Option.map_eq_some_iff.mp hrest
    obtain ⟨-, hpair⟩ := Prod.mk.inj hequal
    obtain ⟨rfl, rfl⟩ := Prod.mk.inj hpair
    refine ⟨consistent_step _ _ _ hcurrent hstep, ?_⟩
    rw [step, houtcome] at hstep
    obtain rfl := Option.some.inj hstep
    rw [← hsent]
  · obtain ⟨-, hpair⟩ := Prod.mk.inj (Option.some.inj hrest)
    obtain ⟨rfl, rfl⟩ := Prod.mk.inj hpair
    exact ⟨hcurrent, by rw [hsent, List.append_nil]⟩

end Visits

/-! ## Refinement -/

section Refinement

variable {listener : ℕ} {server : Server} {desk : Desk}

/-- How far the loop over the descriptors has come. -/
def Server.reached (server : Server) : ℕ :=
  match server.position with
  | .select => server.maxfd + 1
  | .accept => 0
  | .visit i => i

def Desk.ready (desk : Desk) (listener : ℕ) : Finset ℕ :=
  (desk.readable ∪ desk.writable).erase listener

structure Attends (listener : ℕ) (server : Server) (desk : Desk) : Prop where
  listener_eq : server.listener = listener
  state_eq : ∀ fd, server.state fd = (desk.clients fd).map Connection.state
  consistent : ∀ fd connection, desk.clients fd = some connection →
    connection.Consistent
  mem_connections : ∀ fd, fd ∈ server.connections ↔
    (desk.clients fd).isSome
  lt_size : ∀ fd ∈ server.connections, fd < fdSetSize
  listener_notMem : listener ∉ server.connections
  readset_eq : server.readset = desk.readable
  writeset_eq : server.writeset = desk.writable
  ready_le : ∀ fd ∈ desk.ready listener, fd ≤ server.maxfd
  pending : ∀ fd ∈ desk.ready listener, server.reached ≤ fd →
    fd ∈ server.connections
  visited_eq : desk.visited =
    ascending (desk.ready listener) server.reached
  reached_le : server.reached ≤ server.maxfd + 1

theorem attends_start :
    Attends listener (Server.start listener) Desk.start := by
  constructor <;> simp [Server.start, Desk.start, Desk.ready, Server.reached]

/-- The loop that looks for the largest descriptor. -/
theorem le_foldl_largest {watched : ℕ → Prop} [DecidablePred watched]
    (fds : List ℕ) (start : ℕ) :
    start ≤ fds.foldl (fun maxfd i =>
        if watched i ∧ maxfd < i then i else maxfd) start ∧
      ∀ fd ∈ fds, watched fd → fd ≤ fds.foldl (fun maxfd i =>
        if watched i ∧ maxfd < i then i else maxfd) start := by
  induction fds generalizing start with
  | nil => simp
  | cons head fds ih =>
      obtain ⟨hstart, hopen⟩ :=
        ih (if watched head ∧ start < head then head else start)
      rw [List.foldl_cons]
      constructor
      · refine le_trans ?_ hstart
        split <;> omega
      · intro fd hmem hfd
        rcases List.mem_cons.mp hmem with rfl | hmem
        · refine le_trans ?_ hstart
          by_cases hlt : start < fd
          · rw [if_pos ⟨hfd, hlt⟩]
          · rw [if_neg fun h => hlt h.2]
            omega
        · exact hopen fd hmem hfd

theorem Attends.le_largest (hattends : Attends listener server desk) {fd : ℕ}
    (hmem : fd ∈ server.connections) : fd ≤ server.largest := by
  have hopen : (server.state fd).isSome := by
    rw [hattends.state_eq, Option.isSome_map]
    exact (hattends.mem_connections fd).mp hmem
  exact (le_foldl_largest (List.range fdSetSize) server.listener).2 fd
    (List.mem_range.mpr (hattends.lt_size fd hmem)) hopen

/-- The descriptors with a state are those of the open connections. -/
theorem Attends.mem_reading_iff (hattends : Attends listener server desk)
    {fd : ℕ} :
    fd ∈ server.reading ↔ fd = listener ∨ fd ∈ server.connections := by
  have hiff : (server.state fd).isSome ↔ fd ∈ server.connections := by
    rw [hattends.state_eq, Option.isSome_map, hattends.mem_connections]
  rw [Server.reading, Finset.mem_insert, Finset.mem_filter, Finset.mem_range,
    hattends.listener_eq, hiff]
  constructor
  · exact fun hmem => hmem.imp_right And.right
  · exact fun hmem => hmem.imp_right fun hopen =>
      ⟨hattends.lt_size fd hopen, hopen⟩

theorem Attends.mem_connections_of_mem_writing
    (hattends : Attends listener server desk) {fd : ℕ}
    (hmem : fd ∈ server.writing) : fd ∈ server.connections := by
  obtain ⟨-, hwriting⟩ := Finset.mem_filter.mp hmem
  rw [hattends.mem_connections]
  rw [hattends.state_eq] at hwriting
  cases hclient : desk.clients fd with
  | none => simp [hclient] at hwriting
  | some connection => rfl

/-- `select` returns. -/
theorem Attends.select (hattends : Attends listener server desk)
    {readable writable : Finset ℕ} (hreadable : readable ⊆ server.reading)
    (hwritable : writable ⊆ server.writing) :
    Attends listener
      { server with
        readset := readable, writeset := writable
        maxfd := server.largest, position := .accept }
      { desk with
        readable := readable, writable := writable, visited := [] } := by
  have hopen : ∀ fd ∈ (readable ∪ writable).erase listener,
      fd ∈ server.connections := by
    intro fd hmem
    obtain ⟨hne, hmem⟩ := Finset.mem_erase.mp hmem
    rcases Finset.mem_union.mp hmem with hread | hwrite
    · exact (hattends.mem_reading_iff.mp (hreadable hread)).resolve_left hne
    · exact hattends.mem_connections_of_mem_writing (hwritable hwrite)
  constructor
  · exact hattends.listener_eq
  · exact hattends.state_eq
  · exact hattends.consistent
  · exact hattends.mem_connections
  · exact hattends.lt_size
  · exact hattends.listener_notMem
  · rfl
  · rfl
  · intro fd hmem
    dsimp only
    exact hattends.le_largest (hopen fd hmem)
  · exact fun fd hmem _ => hopen fd hmem
  · rfl
  · exact Nat.zero_le _

/-- The loop goes on, and nothing else happens. -/
theorem Attends.move (hattends : Attends listener server desk)
    {position : Position}
    (hreached : ascending (desk.ready listener) server.reached =
      ascending (desk.ready listener)
        (Server.reached { server with position := position }))
    (hle : server.reached ≤
      Server.reached { server with position := position })
    (hmax : Server.reached { server with position := position } ≤
      server.maxfd + 1) :
    Attends listener { server with position := position } desk where
  listener_eq := hattends.listener_eq
  state_eq := hattends.state_eq
  consistent := hattends.consistent
  mem_connections := hattends.mem_connections
  lt_size := hattends.lt_size
  listener_notMem := hattends.listener_notMem
  readset_eq := hattends.readset_eq
  writeset_eq := hattends.writeset_eq
  ready_le := hattends.ready_le
  pending fd hmem hfd := hattends.pending fd hmem (hle.trans hfd)
  visited_eq := hattends.visited_eq.trans hreached
  reached_le := hmax

/-- Between two calls of `accept` and `select`. -/
theorem Attends.enter (hattends : Attends listener server desk)
    (hposition : server.position = .accept) :
    Attends listener { server with position := .visit 0 } desk := by
  have hreached : server.reached = 0 := by rw [Server.reached, hposition]
  refine hattends.move ?_ ?_ (Nat.zero_le _)
  · rw [hreached]
    rfl
  · rw [hreached]
    exact Nat.zero_le _

/-- A descriptor without anything to do. -/
theorem Attends.skip (hattends : Attends listener server desk) {i : ℕ}
    (hposition : server.position = .visit i) (hle : i ≤ server.maxfd)
    (hidle : i = server.listener ∨
      (i ∉ server.readset ∧ i ∉ server.writeset)) :
    Attends listener { server with position := .visit (i + 1) } desk := by
  have hreached : server.reached = i := by rw [Server.reached, hposition]
  have hready : i ∉ desk.ready listener := by
    rw [hattends.listener_eq, hattends.readset_eq, hattends.writeset_eq]
      at hidle
    rw [Desk.ready, Finset.mem_erase, Finset.mem_union]
    tauto
  refine hattends.move ?_ ?_ (Nat.succ_le_succ hle)
  · rw [hreached]
    exact (ascending_succ_of_notMem hready).symm
  · rw [hreached]
    exact Nat.le_succ i

/-- The loop over the descriptors ends. -/
theorem Attends.finish (hattends : Attends listener server desk) {i : ℕ}
    (hposition : server.position = .visit i) (hlt : server.maxfd < i) :
    Attends listener { server with position := .select } desk := by
  have hreached : server.reached = i := by rw [Server.reached, hposition]
  have hi : i = server.maxfd + 1 := by
    have hle := hattends.reached_le
    omega
  refine hattends.move ?_ ?_ le_rfl
  · rw [hreached, hi]
    rfl
  · rw [hreached, hi]
    rfl

/-- A connection is accepted. -/
theorem Attends.accept (hattends : Attends listener server desk)
    (hposition : server.position = .accept) {fd : ℕ} (buffer : Memory)
    (hlistener : fd ≠ listener) (hfd : fd < fdSetSize) :
    Attends listener
      { server with
        state := Function.update server.state fd
          (some (allocFdState buffer))
        connections := insert fd server.connections
        position := .visit 0 }
      { desk with
        clients := Function.update desk.clients fd
          (some (Connection.start buffer)) } := by
  have henter := hattends.enter hposition
  constructor
  · exact henter.listener_eq
  · intro other
    by_cases hother : other = fd
    · subst hother
      simp [Connection.start]
    · simp only [Function.update_of_ne hother]
      exact hattends.state_eq other
  · intro other connection hclient
    by_cases hother : other = fd
    · subst hother
      simp only [Function.update_self, Option.some_inj] at hclient
      subst hclient
      exact ⟨consistent_allocFdState buffer, List.Sublist.refl _⟩
    · simp only [Function.update_of_ne hother] at hclient
      exact hattends.consistent other connection hclient
  · intro other
    by_cases hother : other = fd
    · subst hother
      simp
    · simp only [Function.update_of_ne hother, Finset.mem_insert, hother,
        false_or]
      exact hattends.mem_connections other
  · intro other hmem
    rcases Finset.mem_insert.mp hmem with rfl | hmem
    · exact hfd
    · exact hattends.lt_size other hmem
  · simp only [Finset.mem_insert, not_or]
    exact ⟨hlistener.symm, hattends.listener_notMem⟩
  · exact henter.readset_eq
  · exact henter.writeset_eq
  · exact henter.ready_le
  · intro other hmem hle
    exact Finset.mem_insert_of_mem (henter.pending other hmem hle)
  · exact henter.visited_eq
  · exact henter.reached_le

/-- A connection is visited; it goes on or ends. -/
theorem Attends.visit (hattends : Attends listener server desk) {fd : ℕ}
    (hposition : server.position = .visit fd) (hle : fd ≤ server.maxfd)
    (hready : fd ∈ desk.ready listener) (visited : Option Connection)
    (hconsistent : ∀ connection, visited = some connection →
      connection.Consistent) {connections : Finset ℕ}
    (hsame : ∀ other ≠ fd,
      other ∈ connections ↔ other ∈ server.connections)
    (hopen : fd ∈ connections ↔ visited.isSome) :
    Attends listener
      { server with
        state := Function.update server.state fd
          (visited.map Connection.state)
        connections := connections
        position := .visit (fd + 1) }
      { desk with
        clients := Function.update desk.clients fd visited
        visited := desk.visited ++ [fd] } := by
  have hreached : server.reached = fd := by rw [Server.reached, hposition]
  have hhere := hattends.pending fd hready hreached.le
  have hlistener : listener ≠ fd := (Finset.ne_of_mem_erase hready).symm
  constructor
  · exact hattends.listener_eq
  · intro other
    by_cases hother : other = fd
    · subst hother
      simp
    · simp only [Function.update_of_ne hother]
      exact hattends.state_eq other
  · intro other connection hclient
    by_cases hother : other = fd
    · subst hother
      simp only [Function.update_self] at hclient
      exact hconsistent connection hclient
    · simp only [Function.update_of_ne hother] at hclient
      exact hattends.consistent other connection hclient
  · intro other
    by_cases hother : other = fd
    · subst hother
      simpa using hopen
    · simp only [Function.update_of_ne hother, hsame other hother]
      exact hattends.mem_connections other
  · intro other hmem
    by_cases hother : other = fd
    · subst hother
      exact hattends.lt_size other hhere
    · exact hattends.lt_size other ((hsame other hother).mp hmem)
  · simp only [hsame listener hlistener]
    exact hattends.listener_notMem
  · exact hattends.readset_eq
  · exact hattends.writeset_eq
  · exact hattends.ready_le
  · intro other hmem hother
    have hne : other ≠ fd := Nat.ne_of_gt hother
    rw [hsame other hne]
    apply hattends.pending other hmem
    rw [hreached]
    exact Nat.le_of_succ_le hother
  · change desk.visited ++ [fd] = ascending (desk.ready listener) (fd + 1)
    rw [hattends.visited_eq, hreached, ascending_succ_of_mem hready]
  · exact Nat.succ_le_succ hle

/-- A visit does what `attend` says. -/
theorem Attends.serve (hattends : Attends listener server desk) {fd : ℕ}
    {chunks : List ByteString} {ending : ReadEnd} {results : List SendResult}
    (hpossible : (Event.serve fd chunks ending results).Possible server) :
    ∃ next, stepLoop server (.serve fd chunks ending results) =
        some ((attend desk (.serve fd chunks ending results)).1, next) ∧
      Attends listener next
        (attend desk (.serve fd chunks ending results)).2 := by
  obtain ⟨hposition, hle, hlistener, hmem, hchunks, hsound⟩ := hpossible
  have hready : fd ∈ desk.ready listener := by
    rw [hattends.listener_eq] at hlistener
    rw [hattends.readset_eq, hattends.writeset_eq] at hmem
    exact Finset.mem_erase.mpr ⟨hlistener, Finset.mem_union.mpr hmem⟩
  have hreached : server.reached = fd := by rw [Server.reached, hposition]
  have hopen := hattends.pending fd hready hreached.le
  have hsize := hattends.lt_size fd hopen
  obtain ⟨connection, hclient⟩ :=
    Option.isSome_iff_exists.mp ((hattends.mem_connections fd).mp hopen)
  have hstate := hattends.state_eq fd
  rw [hclient, Option.map_some] at hstate
  obtain ⟨⟨r, state, sent⟩, hserveFd⟩ :=
    Option.isSome_iff_exists.mp (hsound _ hstate)
  obtain ⟨visited, hserve, rfl⟩ := exists_serve_of_serveFd hchunks hserveFd
  have hconsistent :=
    ((hattends.consistent fd connection hclient).serve hserve).1
  rw [hattends.readset_eq, hattends.writeset_eq] at hserve
  have hattend : attend desk (.serve fd chunks ending results) =
      (some (fd, sent), { desk with
        clients := Function.update desk.clients fd
          (if r = 0 then some visited else none)
        visited := desk.visited ++ [fd] }) := by
    simp only [attend, hclient, Option.bind_some, hserve]
  have hguard : server.position = .visit fd ∧ fd < server.maxfd + 1 ∧
      fd ≠ server.listener ∧ (fd ∈ server.readset ∨ fd ∈ server.writeset) ∧
      fd < fdSetSize ∧ fd ∈ server.connections :=
    ⟨hposition, Nat.lt_succ_of_le hle, hlistener, hmem, hsize, hopen⟩
  rw [hattend, stepLoop, if_pos hguard]
  simp only [hstate, hserveFd, Option.bind_eq_bind, Option.bind_some]
  by_cases hr : r = 0
  · simp only [hr, ne_eq, not_true_eq_false, if_false, if_true]
    exact ⟨_, rfl, hattends.visit hposition hle hready (some visited)
      (fun other hother => Option.some.inj hother ▸ hconsistent)
      (fun _ _ => Iff.rfl) (by simpa using hopen)⟩
  · simp only [hr, ne_eq, not_false_eq_true, if_true, if_false]
    exact ⟨_, rfl, hattends.visit hposition hle hready none (by simp)
      (fun other hother => by simp [hother]) (by simp)⟩

/-- Every possible event is dealt with as `attend` says. -/
theorem Attends.step (hattends : Attends listener server desk) {event : Event}
    (hpossible : event.Possible server) :
    ∃ next, stepLoop server event = some ((attend desk event).1, next) ∧
      Attends listener next (attend desk event).2 := by
  cases event with
  | select readable writable =>
      obtain ⟨hposition, hreadable, hwritable⟩ := hpossible
      have hwatched : server.reading ⊆
          insert server.listener server.connections := by
        intro fd hmem
        rw [hattends.listener_eq]
        exact Finset.mem_insert.mpr (hattends.mem_reading_iff.mp hmem)
      refine ⟨_, ?_, hattends.select hreadable hwritable⟩
      rw [stepLoop, if_pos ⟨hposition, hwatched⟩]
      rfl
  | accept result buffer =>
      obtain ⟨hposition, hlistener, hnew⟩ := hpossible
      have hguard : server.position = .accept ∧
          server.listener ∈ server.readset := ⟨hposition, hlistener⟩
      cases result with
      | none =>
          simp only [stepLoop, if_pos hguard, attend]
          exact ⟨_, rfl, hattends.enter hposition⟩
      | some fd =>
          obtain ⟨hne, -, hsize⟩ := hnew fd rfl
          rw [hattends.listener_eq] at hne
          simp only [stepLoop, if_pos hguard, attend]
          by_cases hbig : fdSetSize < fd
          · rw [if_pos hbig, if_pos hbig]
            exact ⟨_, rfl, hattends.enter hposition⟩
          · have hfd : fd < fdSetSize := by omega
            rw [if_neg hbig, if_pos hfd, if_neg hbig]
            exact ⟨_, rfl, hattends.accept hposition buffer hne hfd⟩
  | pass =>
      rw [Event.Possible] at hpossible
      cases hposition : server.position with
      | select => simp [hposition] at hpossible
      | accept =>
          simp only [hposition] at hpossible
          simp only [stepLoop, hposition, attend, if_neg hpossible]
          exact ⟨_, rfl, hattends.enter hposition⟩
      | visit i =>
          simp only [hposition] at hpossible
          simp only [stepLoop, hposition, attend]
          by_cases hlt : i < server.maxfd + 1
          · have hidle := hpossible (Nat.le_of_lt_succ hlt)
            rw [if_pos hlt, if_pos hidle]
            exact ⟨_, rfl,
              hattends.skip hposition (Nat.le_of_lt_succ hlt) hidle⟩
          · rw [if_neg hlt]
            exact ⟨_, rfl, hattends.finish hposition (by omega)⟩
  | serve fd chunks ending results => exact hattends.serve hpossible

end Refinement

section Runs

variable {listener : ℕ} {events : List Event}

/-- In every run of the main loop the descriptors with a state are the open
connections, no system call is made with another one, and what is sent to a
connection depends on that connection alone: the bytes sent to it and those in
its buffer are the rotated bytes received from it that found room, since it
was accepted. -/
theorem echo_loop_attends
    (hevents : Permitted (fun _ => stepLoop)
      (fun server event => event.Possible server) (Server.start listener)
      events) :
    ∃ final, checkedTrace stepLoop (Server.start listener) events =
        some ((trace attend Desk.start events).1, final) ∧
      (∀ fd, fd ∈ final.connections ↔ (final.state fd).isSome) ∧
      ∀ fd, (final.state fd = none ∧
          (trace attend Desk.start events).2.clients fd = none) ∨
        ∃ connection, (trace attend Desk.start events).2.clients fd =
            some connection ∧
          final.state fd = some connection.state ∧
          connection.sent ++ slice connection.state.buffer
              connection.state.nWritten connection.state.bufferUsed =
            connection.kept.map rot13Char ∧
          connection.kept.Sublist connection.received := by
  rw [← List.append_nil events] at hevents
  obtain ⟨final, hreturns, hattends, -⟩ := checkedTrace_of_permitted attend
    (fun _ _ _ hattends hpossible => hattends.step hpossible) attends_start
    hevents
  refine ⟨final, hreturns, fun fd => ?_, fun fd => ?_⟩
  · rw [hattends.mem_connections, hattends.state_eq, Option.isSome_map]
  · rw [hattends.state_eq]
    cases hclient : (trace attend Desk.start events).2.clients fd with
    | none => exact Or.inl ⟨rfl, rfl⟩
    | some connection =>
        obtain ⟨hstate, hsublist⟩ :=
          hattends.consistent fd connection hclient
        exact Or.inr ⟨connection, rfl, rfl, hstate.kept_eq, hsublist⟩

/-- When the loop comes back to `select`, every connection that was ready has
been visited exactly once since, in ascending order, and no other one. -/
theorem echo_round_complete {readable writable : Finset ℕ}
    (hevents : Permitted (fun _ => stepLoop)
      (fun server event => event.Possible server) (Server.start listener)
      (events ++ [.select readable writable])) :
    let desk := (trace attend Desk.start events).2
    desk.visited.Pairwise (· < ·) ∧
      ∀ fd, fd ∈ desk.visited ↔
        fd ≠ listener ∧ (fd ∈ desk.readable ∨ fd ∈ desk.writable) := by
  intro desk
  obtain ⟨final, -, hattends, ⟨hposition, -⟩, -⟩ :=
    checkedTrace_of_permitted attend
      (fun _ _ _ hattends hpossible => hattends.step hpossible) attends_start
      hevents
  have hreached : final.reached = final.maxfd + 1 := by
    rw [Server.reached, hposition]
  rw [hattends.visited_eq, hreached]
  refine ⟨pairwise_ascending _ _, fun fd => ?_⟩
  have hle := hattends.ready_le fd
  rw [mem_ascending, Nat.lt_succ_iff, and_iff_right_of_imp hle, Desk.ready,
    Finset.mem_erase, Finset.mem_union]

/-- The calls of a round in which a client connects. -/
def connectRound : List Event :=
  [.select {3} ∅, .accept (some 4) fun _ => 0, .pass, .pass, .pass, .pass,
    .pass]

def connected : Server where
  listener := 3
  state := Function.update (fun _ => none) 4 (some (allocFdState fun _ => 0))
  readset := {3}
  writeset := ∅
  maxfd := 3
  position := .select
  connections := {4}

theorem permitted_connectRound {rest : List Event}
    (hrest : Permitted (fun _ => stepLoop)
      (fun server event => event.Possible server) connected rest) :
    Permitted (fun _ => stepLoop)
      (fun server event => event.Possible server) (Server.start 3)
      (connectRound ++ rest) := by
  have hlargest : (Server.start 3).largest = 3 := by decide +kernel
  have hselect : stepLoop (Server.start 3) (.select {3} ∅) =
      some (none, { Server.start 3 with
        readset := {3}, maxfd := 3, position := .accept }) := by
    rw [stepLoop, if_pos ⟨rfl, by simp [Server.reading, Server.start]⟩,
      hlargest]
    rfl
  refine permitted_cons ⟨rfl, by simp [Server.reading, Server.start],
    by simp⟩ ⟨0, fun _ _ => hselect⟩ ?_
  refine permitted_cons ⟨rfl, by simp [Server.start],
    by simp [Server.start, fdSetSize]⟩ ⟨0, fun _ _ => rfl⟩ ?_
  refine permitted_cons (fun _ => Or.inr (by decide)) ⟨0, fun _ _ => rfl⟩ ?_
  refine permitted_cons (fun _ => Or.inr (by decide)) ⟨0, fun _ _ => rfl⟩ ?_
  refine permitted_cons (fun _ => Or.inr (by decide)) ⟨0, fun _ _ => rfl⟩ ?_
  refine permitted_cons (fun _ => Or.inl rfl) ⟨0, fun _ _ => rfl⟩ ?_
  exact permitted_cons (fun hle => absurd hle (by decide))
    ⟨0, fun _ _ => rfl⟩ hrest

theorem mem_reading_connected (fd : ℕ) :
    fd ∈ connected.reading ↔ fd = 3 ∨ fd = 4 := by
  rw [Server.reading, Finset.mem_insert, Finset.mem_filter, Finset.mem_range]
  by_cases hfd : fd = 4
  · simp [hfd, connected, fdSetSize]
  · simp [hfd, connected]

/-- A client connects and sends a line. -/
theorem echo_loop_attends_line :
    ∃ (events : List Event) (final : Server),
      checkedTrace stepLoop (Server.start 3) events =
        some ((trace attend Desk.start events).1, final) ∧
      (4 ∈ final.connections ↔ (final.state 4).isSome) := by
  have hlargest : connected.largest = 4 := by decide +kernel
  have hreading : connected.reading ⊆ insert 3 {4} := by
    intro fd hmem
    simpa using (mem_reading_connected fd).mp hmem
  have hselect : stepLoop connected (.select {4} ∅) =
      some (none, { connected with
        readset := {4}, maxfd := 4, position := .accept }) := by
    rw [stepLoop, if_pos ⟨rfl, hreading⟩, hlargest]
    rfl
  have hevents : Permitted (fun _ => stepLoop)
      (fun server event => event.Possible server) (Server.start 3)
      (connectRound ++ [.select {4} ∅, .pass, .pass, .pass, .pass, .pass,
        .serve 4 [ascii "hi\n"] .again []]) := by
    apply permitted_connectRound
    refine permitted_cons ⟨rfl, by simp [mem_reading_connected], by simp⟩
      ⟨0, fun _ _ => hselect⟩ ?_
    refine permitted_cons (show 3 ∉ ({4} : Finset ℕ) by decide)
      ⟨0, fun _ _ => rfl⟩ ?_
    refine permitted_cons (fun _ => Or.inr (by decide)) ⟨0, fun _ _ => rfl⟩ ?_
    refine permitted_cons (fun _ => Or.inr (by decide)) ⟨0, fun _ _ => rfl⟩ ?_
    refine permitted_cons (fun _ => Or.inr (by decide)) ⟨0, fun _ _ => rfl⟩ ?_
    refine permitted_cons (fun _ => Or.inl rfl) ⟨0, fun _ _ => rfl⟩ ?_
    refine ⟨⟨rfl, by decide, by decide, by decide, by decide, ?_⟩,
      fun _ _ _ => trivial⟩
    exact fun state _ => rfl
  obtain ⟨final, hrun, hopen, -⟩ := echo_loop_attends hevents
  exact ⟨_, final, hrun, hopen 4⟩

/-- A round in which another client connects while the first one sends. -/
def greetingRound : List Event :=
  [.select {3, 4} ∅, .accept (some 5) fun _ => 0, .pass, .pass, .pass, .pass,
    .serve 4 [ascii "hi\n"] .again [], .pass]

/-- A round in which the first client is answered and the second one sends. -/
def answerRound : List Event :=
  [.select {5} {4}, .pass, .pass, .pass, .pass, .pass,
    .serve 4 [] .again [.sent 3], .serve 5 [ascii "yo\n"] .again [], .pass]

/-- The server behind the line of the first client. -/
def greeted : Server where
  listener := 3
  state := Function.update (Function.update connected.state
      5 (some (allocFdState fun _ => 0)))
    4 (some (doRead (allocFdState fun _ => 0) [ascii "hi\n"] .again).2)
  readset := {3, 4}
  writeset := ∅
  maxfd := 4
  position := .select
  connections := insert 5 {4}

theorem permitted_greetingRound {rest : List Event}
    (hrest : Permitted (fun _ => stepLoop)
      (fun server event => event.Possible server) greeted rest) :
    Permitted (fun _ => stepLoop)
      (fun server event => event.Possible server) connected
      (greetingRound ++ rest) := by
  have hlargest : connected.largest = 4 := by decide +kernel
  have hreading : connected.reading = {3, 4} := by decide +kernel
  have hselect : stepLoop connected (.select {3, 4} ∅) =
      some (none, { connected with
        readset := {3, 4}, maxfd := 4, position := .accept }) := by
    rw [stepLoop, if_pos ⟨rfl, hreading.subset⟩, hlargest]
    rfl
  refine permitted_cons ⟨rfl, hreading.superset, Finset.empty_subset _⟩
    ⟨0, fun _ _ => hselect⟩ ?_
  refine permitted_cons ⟨rfl, by decide, by simp [connected, fdSetSize]⟩
    ⟨0, fun _ _ => rfl⟩ ?_
  refine permitted_cons (fun _ => Or.inr (by decide)) ⟨0, fun _ _ => rfl⟩ ?_
  refine permitted_cons (fun _ => Or.inr (by decide)) ⟨0, fun _ _ => rfl⟩ ?_
  refine permitted_cons (fun _ => Or.inr (by decide)) ⟨0, fun _ _ => rfl⟩ ?_
  refine permitted_cons (fun _ => Or.inl rfl) ⟨0, fun _ _ => rfl⟩ ?_
  refine permitted_cons
    ⟨rfl, by decide, by decide, by decide, by decide, fun _ _ => rfl⟩
    ⟨0, fun _ _ => rfl⟩ ?_
  exact permitted_cons (fun hle => absurd hle (by decide))
    ⟨0, fun _ _ => rfl⟩ hrest

/-- The round visits the descriptors 4 and 5. -/
theorem echo_round_complete_answer :
    let desk := (trace attend Desk.start
      (connectRound ++ greetingRound ++ answerRound)).2
    desk.visited = [4, 5] ∧ desk.visited.Pairwise (· < ·) ∧
      ∀ fd, fd ∈ desk.visited ↔
        fd ≠ 3 ∧ (fd ∈ desk.readable ∨ fd ∈ desk.writable) := by
  refine ⟨rfl, ?_⟩
  apply @echo_round_complete 3 _ ∅ ∅
  rw [List.append_assoc, List.append_assoc]
  apply permitted_connectRound
  apply permitted_greetingRound
  have hlargest : greeted.largest = 5 := by decide +kernel
  have hreading : greeted.reading = {3, 4, 5} := by decide +kernel
  have hwriting : greeted.writing = {4} := by decide +kernel
  have hselect : stepLoop greeted (.select {5} {4}) =
      some (none, { greeted with
        readset := {5}, writeset := {4}
        maxfd := 5, position := .accept }) := by
    rw [stepLoop, if_pos ⟨rfl, hreading.subset.trans (by decide)⟩, hlargest]
  refine permitted_cons ⟨rfl, by simp [hreading], hwriting.superset⟩
    ⟨0, fun _ _ => hselect⟩ ?_
  refine permitted_cons (show 3 ∉ ({5} : Finset ℕ) by decide)
    ⟨0, fun _ _ => rfl⟩ ?_
  refine permitted_cons (fun _ => Or.inr (by decide)) ⟨0, fun _ _ => rfl⟩ ?_
  refine permitted_cons (fun _ => Or.inr (by decide)) ⟨0, fun _ _ => rfl⟩ ?_
  refine permitted_cons (fun _ => Or.inr (by decide)) ⟨0, fun _ _ => rfl⟩ ?_
  refine permitted_cons (fun _ => Or.inl rfl) ⟨0, fun _ _ => rfl⟩ ?_
  refine permitted_cons ⟨rfl, by decide, by decide, by decide, by simp, ?_⟩
    ⟨0, fun _ _ => rfl⟩ ?_
  · intro state hstate
    obtain rfl := Option.some.inj hstate
    rfl
  refine permitted_cons
    ⟨rfl, by decide, by decide, by decide, by decide, fun _ _ => rfl⟩
    ⟨0, fun _ _ => rfl⟩ ?_
  refine permitted_cons (fun hle => absurd hle (by decide))
    ⟨0, fun _ _ => rfl⟩ ?_
  exact ⟨⟨rfl, Finset.empty_subset _, Finset.empty_subset _⟩,
    fun _ _ _ => trivial⟩

end Runs

end KataCpp.EchoServer
