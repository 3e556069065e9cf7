import KataCpp.Core.DescriptorSet
import KataCpp.Network.ComplaintServer

/-!
# The complaint server's main loop

The server waits with `select` for descriptors that are ready, and then goes
through the numbers up to the largest descriptor: on its listening socket it
accepts a connection, from a connection it reads one message, and it closes a
connection when its client asks for that or is gone.

A run consists of what the system calls return.  The kernel is represented by
the set of the open connections; a call with a descriptor that is not open
would fail, and end the server.  This never happens: the server's descriptor
set is that of the open connections and the listening socket.
-/

namespace KataCpp.ComplaintQueue

open Bytes DescriptorSet Iteration LinkedList TransitionSystem

/-- The server's variables, and the connections that are open. -/
structure Server (Addr : Type) where
  store : Store Addr
  listener : ℕ
  fds : Finset ℕ
  fdmax : ℕ
  readfds : Finset ℕ
  fd : ℕ
  connections : Finset ℕ

/-- The server behind the call of `listen`. -/
def Server.start (Addr : Type) (listener : ℕ) : Server Addr where
  store := Store.empty Addr
  listener := listener
  fds := {listener}
  fdmax := listener
  readfds := ∅
  fd := listener + 1
  connections := ∅

/-- What happens next: `select` returns the ready descriptors, a number that
is not ready is passed, a new connection is accepted, or a `read` returns with
a message or at the end of a connection. -/
inductive Event (Addr : Type) where
  | select (ready : Finset ℕ)
  | skip
  | accept (fdNew : ℕ)
  | read (fd : ℕ) (receipt : Receipt Addr)
  | hangUp (fd : ℕ)

inductive Due where
  | select
  | skip
  | accept
  | read (fd : ℕ)
  deriving DecidableEq

section Code

variable {Addr : Type} [DecidableEq Addr]

def Server.due (server : Server Addr) : Due :=
  if server.fd < server.fdmax + 1 then
    if server.fd ∈ server.readfds then
      if server.fd = server.listener then .accept else .read server.fd
    else .skip
  else .select

/-- `FD_SET`, which writes beyond the set when it has no room. -/
def fdSet (fd : ℕ) (fds : Finset ℕ) : Option (Finset ℕ) :=
  if fd < fdSetSize then some (insert fd fds) else none

/-- `fd++` -/
def Server.advance (server : Server Addr) : Server Addr :=
  { server with fd := server.fd + 1 }

/-- `close`, and `FD_CLR`. -/
def Server.close (server : Server Addr) : Option (Server Addr) :=
  if server.fd ∈ server.connections then
    some { server with
      fds := server.fds.erase server.fd
      connections := server.connections.erase server.fd }
  else none

/-- What the server does about the message that it has read. -/
def Server.act (server : Server Addr) :
    Effect Message → Option (Server Addr)
  | .write _ => if server.fd ∈ server.connections then some server else none
  | .close => server.close
  | .ignore => some server

/-- The loop, with the descriptors that it reads and what it does about what
it reads.  An error of a system call ends the server. -/
def step (fuel : ℕ) (server : Server Addr) (event : Event Addr) :
    Option (Option (ℕ × Effect Message) × Server Addr) :=
  match server.due, event with
  | .select, .select ready =>
      if server.fds ⊆ insert server.listener server.connections then
        some (none, { server with readfds := ready, fd := 0 })
      else none
  | .skip, .skip => some (none, server.advance)
  | .accept, .accept fdNew => do
      let fds ← fdSet fdNew server.fds
      let server := { server with
        fds := fds
        fdmax := if server.fdmax < fdNew then fdNew else server.fdmax
        connections := insert fdNew server.connections }
      return (none, server.advance)
  | .read fd, .read _ receipt =>
      if fd ∈ server.connections then do
        let (effect, store) ←
          serve fuel server.store receipt.blocks receipt.message
        let server ← { server with store := store }.act effect
        return (some (fd, effect), server.advance)
      else none
  | .read fd, .hangUp _ =>
      if fd ∈ server.connections then
        server.close.map fun server => (none, server.advance)
      else none
  | _, _ => none

/-- What can happen: it is what the loop is about to do, only descriptors that
are watched are ready, a new descriptor is not in use and fits into the
descriptor set, and messages are sound. -/
def Event.Possible (server : Server Addr) : Event Addr → Prop
  | .select ready => server.due = .select ∧ ready ⊆ server.fds
  | .skip => server.due = .skip
  | .accept fdNew => server.due = .accept ∧ fdNew ≠ server.listener ∧
      fdNew ∉ server.connections ∧ fdNew < fdSetSize
  | .read fd receipt => server.due = .read fd ∧ receipt.Sound server.store
  | .hangUp fd => server.due = .read fd

end Code

/-! ## Clients and rounds -/

/-- The complaints and the clients that are connected; the descriptors that
were ready when `select` was last called, and those handled since. -/
structure Office where
  complaints : List Complaint
  clients : Finset ℕ
  ready : Finset ℕ
  handled : List ℕ

def Office.start : Office where
  complaints := []
  clients := ∅
  ready := ∅
  handled := []

def Office.handle (office : Office) (fd : ℕ) : Office :=
  { office with handled := office.handled ++ [fd] }

/-- What an event does to the office: a message of a client is answered to that
client, and clients come and go. -/
def attend {Addr : Type} (listener : ℕ) (office : Office) :
    Event Addr → Option (ℕ × Effect Message) × Office
  | .select ready => (none, { office with ready := ready, handled := [] })
  | .skip => (none, office)
  | .accept fdNew => (none, { office with
      clients := insert fdNew office.clients }.handle listener)
  | .read fd receipt =>
      let answered := answer office.complaints receipt.message
      let clients := if answered.1 = .close then office.clients.erase fd
        else office.clients
      (some (fd, answered.1), { office with
        complaints := answered.2, clients := clients }.handle fd)
  | .hangUp fd => (none, { office with
      clients := office.clients.erase fd }.handle fd)

section Refinement

variable {Addr : Type} {listener : ℕ} {server : Server Addr}
  {office : Office} {next : Store Addr} {list : List Complaint}

/-- The server's state and that of the office. -/
structure Serves (listener : ℕ) (server : Server Addr) (office : Office) :
    Prop where
  represents : Represents server.store office.complaints
  listener_eq : server.listener = listener
  connections_eq : server.connections = office.clients
  fds_eq : server.fds = insert listener office.clients
  listener_notMem : listener ∉ office.clients
  le_fdmax : ∀ fd ∈ server.fds, fd ≤ server.fdmax
  readfds_eq : server.readfds = office.ready
  readfds_le : ∀ fd ∈ server.readfds, fd ≤ server.fdmax
  pending : ∀ fd ∈ server.readfds, server.fd ≤ fd → fd ∈ server.fds
  handled_eq : office.handled = ascending server.readfds server.fd

theorem serves_start :
    Serves listener (Server.start Addr listener) Office.start where
  represents := represents_empty
  listener_eq := rfl
  connections_eq := rfl
  fds_eq := rfl
  listener_notMem := by simp [Office.start]
  le_fdmax := by simp [Server.start]
  readfds_eq := rfl
  readfds_le := by simp [Server.start]
  pending := by simp [Server.start]
  handled_eq := by simp [Office.start, Server.start, ascending]

theorem due_eq_select_iff :
    server.due = .select ↔ server.fdmax < server.fd := by
  rw [Server.due]
  split_ifs <;> simp <;> omega

theorem due_eq_skip_iff :
    server.due = .skip ↔
      server.fd ≤ server.fdmax ∧ server.fd ∉ server.readfds := by
  rw [Server.due]
  split_ifs with hfd hmem hlistener
  · simp [hmem]
  · simp [hmem]
  · simp [hmem, Nat.lt_succ_iff.mp hfd]
  · simp
    omega

theorem due_eq_accept_iff :
    server.due = .accept ↔ server.fd ≤ server.fdmax ∧
      server.fd ∈ server.readfds ∧ server.fd = server.listener := by
  rw [Server.due]
  split_ifs with hfd hmem hlistener
  · simp [Nat.lt_succ_iff.mp hfd, hmem, ← hlistener]
  · simp [hlistener]
  · simp [hmem]
  · simp
    omega

theorem due_eq_read_iff {fd : ℕ} :
    server.due = .read fd ↔ server.fd ≤ server.fdmax ∧
      server.fd ∈ server.readfds ∧ server.fd ≠ server.listener ∧
      server.fd = fd := by
  rw [Server.due]
  split_ifs with hfd hmem hlistener
  · simp [hlistener]
  · simp [hmem, hlistener, Nat.lt_succ_iff.mp hfd]
  · simp [hmem]
  · simp
    omega

/-- A connection that is read is open. -/
theorem Serves.mem_connections (hserves : Serves listener server office)
    {fd : ℕ} (hdue : server.due = .read fd) :
    fd ∈ server.connections ∧ server.fd = fd ∧ fd ∈ server.readfds ∧
      fd ≠ listener := by
  obtain ⟨-, hmem, hne, rfl⟩ := due_eq_read_iff.mp hdue
  have hfds := hserves.pending server.fd hmem le_rfl
  rw [hserves.listener_eq] at hne
  rw [hserves.fds_eq] at hfds
  rw [hserves.connections_eq]
  exact ⟨(Finset.mem_insert.mp hfds).resolve_left hne, rfl, hmem, hne⟩

/-- `select` returns. -/
theorem Serves.select (hserves : Serves listener server office)
    {ready : Finset ℕ} (hready : ready ⊆ server.fds) :
    Serves listener { server with readfds := ready, fd := 0 }
      { office with ready := ready, handled := [] } where
  represents := hserves.represents
  listener_eq := hserves.listener_eq
  connections_eq := hserves.connections_eq
  fds_eq := hserves.fds_eq
  listener_notMem := hserves.listener_notMem
  le_fdmax := hserves.le_fdmax
  readfds_eq := rfl
  readfds_le fd hmem := hserves.le_fdmax fd (hready hmem)
  pending _ hmem _ := hready hmem
  handled_eq := rfl

/-- A number that is not ready is passed. -/
theorem Serves.skip (hserves : Serves listener server office)
    (hmem : server.fd ∉ server.readfds) :
    Serves listener server.advance office where
  represents := hserves.represents
  listener_eq := hserves.listener_eq
  connections_eq := hserves.connections_eq
  fds_eq := hserves.fds_eq
  listener_notMem := hserves.listener_notMem
  le_fdmax := hserves.le_fdmax
  readfds_eq := hserves.readfds_eq
  readfds_le := hserves.readfds_le
  pending fd hfd hle := hserves.pending fd hfd (Nat.le_of_succ_le hle)
  handled_eq := by
    rw [hserves.handled_eq]
    exact (ascending_succ_of_notMem hmem).symm

/-- A connection is accepted. -/
theorem Serves.accept (hserves : Serves listener server office)
    (hdue : server.due = .accept) {fdNew : ℕ} (hlistener : fdNew ≠ listener) :
    Serves listener
      { server with
        fds := insert fdNew server.fds
        fdmax := if server.fdmax < fdNew then fdNew else server.fdmax
        connections := insert fdNew server.connections
        fd := server.fd + 1 }
      ({ office with clients := insert fdNew office.clients }.handle
        listener) := by
  obtain ⟨-, hmem, hfd⟩ := due_eq_accept_iff.mp hdue
  rw [hserves.listener_eq] at hfd
  have hmax : server.fdmax ≤
      if server.fdmax < fdNew then fdNew else server.fdmax := by
    split <;> omega
  constructor
  · exact hserves.represents
  · exact hserves.listener_eq
  · simp [Office.handle, hserves.connections_eq]
  · simp [Office.handle, hserves.fds_eq, Finset.insert_comm]
  · simp [Office.handle, hlistener.symm, hserves.listener_notMem]
  · intro fd hfd
    rcases Finset.mem_insert.mp hfd with rfl | hold
    · dsimp only
      split <;> omega
    · exact (hserves.le_fdmax fd hold).trans hmax
  · exact hserves.readfds_eq
  · exact fun fd hfd => (hserves.readfds_le fd hfd).trans hmax
  · intro fd hfd hle
    exact Finset.mem_insert_of_mem
      (hserves.pending fd hfd (Nat.le_of_succ_le hle))
  · rw [Office.handle, hserves.handled_eq]
    dsimp only
    rw [ascending_succ_of_mem hmem, hfd]

/-- A message is answered, or ignored. -/
theorem Serves.stay (hserves : Serves listener server office)
    (hmem : server.fd ∈ server.readfds) (hnext : Represents next list) :
    Serves listener (Server.advance { server with store := next })
      ({ office with complaints := list }.handle server.fd) where
  represents := hnext
  listener_eq := hserves.listener_eq
  connections_eq := hserves.connections_eq
  fds_eq := hserves.fds_eq
  listener_notMem := hserves.listener_notMem
  le_fdmax := hserves.le_fdmax
  readfds_eq := hserves.readfds_eq
  readfds_le := hserves.readfds_le
  pending fd hfd hle := hserves.pending fd hfd (Nat.le_of_succ_le hle)
  handled_eq := by
    rw [Office.handle, hserves.handled_eq]
    exact (ascending_succ_of_mem hmem).symm

/-- A connection is closed. -/
theorem Serves.leave (hserves : Serves listener server office)
    (hmem : server.fd ∈ server.readfds) (hlistener : server.fd ≠ listener)
    (hnext : Represents next list) :
    Serves listener
      (Server.advance { server with
        store := next
        fds := server.fds.erase server.fd
        connections := server.connections.erase server.fd })
      ({ office with
        complaints := list
        clients := office.clients.erase server.fd }.handle server.fd) where
  represents := hnext
  listener_eq := hserves.listener_eq
  connections_eq := by
    rw [Office.handle, ← hserves.connections_eq]
    rfl
  fds_eq := by
    simp only [Server.advance, Office.handle, hserves.fds_eq]
    exact Finset.erase_insert_of_ne hlistener.symm
  listener_notMem hlisten :=
    hserves.listener_notMem (Finset.mem_of_mem_erase hlisten)
  le_fdmax fd hfd := hserves.le_fdmax fd (Finset.mem_of_mem_erase hfd)
  readfds_eq := hserves.readfds_eq
  readfds_le := hserves.readfds_le
  pending fd hfd hle := by
    have hne : fd ≠ server.fd := Nat.ne_of_gt hle
    exact Finset.mem_erase.mpr
      ⟨hne, hserves.pending fd hfd (Nat.le_of_succ_le hle)⟩
  handled_eq := by
    rw [Office.handle, hserves.handled_eq]
    exact (ascending_succ_of_mem hmem).symm

variable [DecidableEq Addr]

/-- The effect of a message is what the loop does next. -/
theorem returns_step_read {fd : ℕ} {receipt : Receipt Addr}
    {effect : Effect Message} {acted : Server Addr}
    (hdue : server.due = .read fd) (hopen : fd ∈ server.connections)
    (hserve : Returns (serve · server.store receipt.blocks receipt.message)
      (effect, next))
    (hact : Server.act { server with store := next } effect = some acted) :
    Returns (step · server (.read fd receipt))
      (some (fd, effect), acted.advance) := by
  obtain ⟨bound, hbound⟩ := hserve
  refine ⟨bound, fun fuel hfuel => ?_⟩
  simp [step, hdue, hopen, hbound fuel hfuel, hact]

omit [DecidableEq Addr] in
theorem attend_read_of_close {fd : ℕ} {receipt : Receipt Addr}
    (heffect : (answer office.complaints receipt.message).1 = .close) :
    attend listener office (.read fd receipt) =
      (some (fd, .close), { office with
        complaints := (answer office.complaints receipt.message).2
        clients := office.clients.erase fd }.handle fd) := by
  rw [attend, heffect]
  rfl

omit [DecidableEq Addr] in
theorem attend_read_of_ne_close {fd : ℕ} {receipt : Receipt Addr}
    (heffect : (answer office.complaints receipt.message).1 ≠ .close) :
    attend listener office (.read fd receipt) =
      (some (fd, (answer office.complaints receipt.message).1), { office with
        complaints := (answer office.complaints receipt.message).2 }.handle
          fd) := by
  simp only [attend, if_neg heffect]

/-- A message is read and dealt with. -/
theorem Serves.read (hserves : Serves listener server office) {fd : ℕ}
    {receipt : Receipt Addr} (hdue : server.due = .read fd)
    (hsound : receipt.Sound server.store) :
    ∃ following, Returns (step · server (.read fd receipt))
        ((attend listener office (.read fd receipt)).1, following) ∧
      Serves listener following
        (attend listener office (.read fd receipt)).2 := by
  obtain ⟨hopen, rfl, hmem, hlistener⟩ := hserves.mem_connections hdue
  obtain ⟨next, hserve, hnext⟩ :=
    serve_represents hserves.represents hsound
  by_cases hclose : (answer office.complaints receipt.message).1 = .close
  · rw [hclose] at hserve
    have hact : Server.act { server with store := next } .close =
        some { server with
          store := next
          fds := server.fds.erase server.fd
          connections := server.connections.erase server.fd } :=
      if_pos hopen
    rw [attend_read_of_close hclose]
    exact ⟨_, returns_step_read hdue hopen hserve hact,
      hserves.leave hmem hlistener hnext⟩
  · have hact : Server.act { server with store := next }
        (answer office.complaints receipt.message).1 =
          some { server with store := next } := by
      cases heffect : (answer office.complaints receipt.message).1 with
      | write reply => exact if_pos hopen
      | close => exact absurd heffect hclose
      | ignore => rfl
    rw [attend_read_of_ne_close hclose]
    exact ⟨_, returns_step_read hdue hopen hserve hact,
      hserves.stay hmem hnext⟩

/-- A client has gone. -/
theorem Serves.hangUp (hserves : Serves listener server office) {fd : ℕ}
    (hdue : server.due = .read fd) :
    ∃ following, Returns (step · server (.hangUp fd)) (none, following) ∧
      Serves listener following (attend listener office
        (.hangUp fd : Event Addr)).2 := by
  obtain ⟨hopen, rfl, hmem, hlistener⟩ := hserves.mem_connections hdue
  refine ⟨_, ⟨0, fun fuel _ => ?_⟩,
    hserves.leave hmem hlistener hserves.represents⟩
  simp [step, hdue, hopen, Server.close]

/-- Every possible event is dealt with as the office does. -/
theorem Serves.step (hserves : Serves listener server office)
    {event : Event Addr} (hpossible : event.Possible server) :
    ∃ following, Returns (step · server event)
        ((attend listener office event).1, following) ∧
      Serves listener following (attend listener office event).2 := by
  cases event with
  | select ready =>
      obtain ⟨hdue, hready⟩ := hpossible
      have hsubset : server.fds ⊆
          insert server.listener server.connections := by
        rw [hserves.listener_eq, hserves.connections_eq, hserves.fds_eq]
      refine ⟨_, ⟨0, fun fuel _ => ?_⟩, hserves.select hready⟩
      simp [ComplaintQueue.step, hdue, hsubset, attend]
  | skip =>
      have hmem := (due_eq_skip_iff.mp hpossible).2
      refine ⟨_, ⟨0, fun fuel _ => ?_⟩, hserves.skip hmem⟩
      have hdue : server.due = .skip := hpossible
      simp [ComplaintQueue.step, hdue, attend]
  | accept fdNew =>
      obtain ⟨hdue, hlistener, -, hroom⟩ := hpossible
      rw [hserves.listener_eq] at hlistener
      refine ⟨_, ⟨0, fun fuel _ => ?_⟩, hserves.accept hdue hlistener⟩
      simp [ComplaintQueue.step, hdue, fdSet, hroom, attend, Server.advance]
  | read fd receipt => exact hserves.read hpossible.1 hpossible.2
  | hangUp fd => exact hserves.hangUp hpossible

end Refinement

section Runs

variable {Addr : Type} [DecidableEq Addr] {listener : ℕ}

/-- In every run of the main loop each message of a client is answered to that
client as the list of complaints says, and no system call fails.  The server
watches the connections that are open and its listening socket, and nothing
else. -/
theorem main_loop_serves {events : List (Event Addr)}
    (hevents : Permitted step (fun server event => event.Possible server)
      (Server.start Addr listener) events) :
    ∃ final,
      Returns (fun fuel =>
          checkedTrace (step fuel) (Server.start Addr listener) events)
        ((trace (attend listener) Office.start events).1, final) ∧
      Represents final.store
        (trace (attend listener) Office.start events).2.complaints ∧
      final.connections =
        (trace (attend listener) Office.start events).2.clients ∧
      final.fds = insert listener
        (trace (attend listener) Office.start events).2.clients := by
  obtain ⟨final, hreturns, hserves⟩ := returns_checkedTrace (attend listener)
    (fun _ _ _ hserves hpossible => hserves.step hpossible) serves_start
    hevents
  exact ⟨final, hreturns, hserves.represents, hserves.connections_eq,
    hserves.fds_eq⟩

/-- A client connects and logs a complaint. -/
theorem main_loop_serves_log :
    ∃ (events : List (Event ℕ)) (final : Server ℕ),
      Returns (fun fuel =>
          checkedTrace (step fuel) (Server.start ℕ 3) events)
        ([none, none, none, none, none, none, none, none, none, none, none,
          some (4, .write (Answer.added (ascii "1A")).message)], final) ∧
      final.fds = {3, 4} := by
  have hevents : Permitted step (fun server event => event.Possible server)
      (Server.start ℕ 3)
      [.select {3}, .skip, .skip, .skip, .accept 4, .skip, .select {4}, .skip,
        .skip, .skip, .skip, .read 4 ⟨⟨0, 0, 1⟩, Message.bytes ⟨logComplaint,
          field apartmentSize (ascii "1A"),
          field remarksSize (ascii "leak")⟩⟩] := by
    refine permitted_cons ⟨rfl, by decide⟩ ⟨0, fun _ _ => rfl⟩ ?_
    refine permitted_cons rfl ⟨0, fun _ _ => rfl⟩ ?_
    refine permitted_cons rfl ⟨0, fun _ _ => rfl⟩ ?_
    refine permitted_cons rfl ⟨0, fun _ _ => rfl⟩ ?_
    refine permitted_cons ⟨rfl, by decide, by decide, by decide⟩
      ⟨0, fun _ _ => rfl⟩ ?_
    refine permitted_cons rfl ⟨0, fun _ _ => rfl⟩ ?_
    refine permitted_cons ⟨rfl, by decide⟩ ⟨0, fun _ _ => rfl⟩ ?_
    refine permitted_cons rfl ⟨0, fun _ _ => rfl⟩ ?_
    refine permitted_cons rfl ⟨0, fun _ _ => rfl⟩ ?_
    refine permitted_cons rfl ⟨0, fun _ _ => rfl⟩ ?_
    refine permitted_cons rfl ⟨0, fun _ _ => rfl⟩ ?_
    refine ⟨⟨rfl, by decide, fun _ => ⟨rfl, rfl, rfl, by decide⟩⟩, ?_⟩
    exact fun _ _ _ => trivial
  obtain ⟨final, hreturns, -, -, hfds⟩ := main_loop_serves hevents
  exact ⟨_, final, hreturns, hfds⟩

/-- When the loop comes back to `select`, every descriptor that was ready has
been handled exactly once since, in ascending order, and no other one. -/
theorem round_complete {events : List (Event Addr)} {ready : Finset ℕ}
    (hevents : Permitted step (fun server event => event.Possible server)
      (Server.start Addr listener) (events ++ [.select ready])) :
    let office := (trace (attend listener) Office.start events).2
    office.handled.Pairwise (· < ·) ∧
      ∀ fd, fd ∈ office.handled ↔ fd ∈ office.ready := by
  intro office
  obtain ⟨final, -, hserves, ⟨hdue, -⟩, -⟩ :=
    returns_checkedTrace_append (attend listener)
      (fun _ _ _ hserves hpossible => hserves.step hpossible) serves_start
      hevents
  have hfd := due_eq_select_iff.mp hdue
  rw [hserves.handled_eq, ← hserves.readfds_eq]
  refine ⟨pairwise_ascending _ _, fun fd => ?_⟩
  rw [mem_ascending, and_iff_right_iff_imp]
  intro hmem
  exact (hserves.readfds_le fd hmem).trans_lt hfd

/-- Another client connects, one logs a complaint and one hangs up, in one
round. -/
theorem round_complete_three :
    ∃ events : List (Event ℕ),
      let office := (trace (attend 3) Office.start events).2
      office.handled = [3, 4, 5] ∧ office.handled.Pairwise (· < ·) ∧
        ∀ fd, fd ∈ office.handled ↔ fd ∈ ({3, 4, 5} : Finset ℕ) := by
  have hevents : Permitted step (fun server event => event.Possible server)
      (Server.start ℕ 3) ([.select {3}, .skip, .skip, .skip, .accept 4, .skip,
        .select {3}, .skip, .skip, .skip, .accept 5, .skip, .skip,
        .select {3, 4, 5}, .skip, .skip, .skip, .accept 6,
        .read 4 ⟨⟨0, 0, 1⟩, Message.bytes ⟨logComplaint,
          field apartmentSize (ascii "1A"),
          field remarksSize (ascii "leak")⟩⟩,
        .hangUp 5, .skip] ++ [.select {4}]) := by
    refine permitted_cons ⟨rfl, by decide⟩ ⟨0, fun _ _ => rfl⟩ ?_
    refine permitted_cons rfl ⟨0, fun _ _ => rfl⟩ ?_
    refine permitted_cons rfl ⟨0, fun _ _ => rfl⟩ ?_
    refine permitted_cons rfl ⟨0, fun _ _ => rfl⟩ ?_
    refine permitted_cons ⟨rfl, by decide, by decide, by decide⟩
      ⟨0, fun _ _ => rfl⟩ ?_
    refine permitted_cons rfl ⟨0, fun _ _ => rfl⟩ ?_
    refine permitted_cons ⟨rfl, by decide⟩ ⟨0, fun _ _ => rfl⟩ ?_
    refine permitted_cons rfl ⟨0, fun _ _ => rfl⟩ ?_
    refine permitted_cons rfl ⟨0, fun _ _ => rfl⟩ ?_
    refine permitted_cons rfl ⟨0, fun _ _ => rfl⟩ ?_
    refine permitted_cons ⟨rfl, by decide, by decide, by decide⟩
      ⟨0, fun _ _ => rfl⟩ ?_
    refine permitted_cons rfl ⟨0, fun _ _ => rfl⟩ ?_
    refine permitted_cons rfl ⟨0, fun _ _ => rfl⟩ ?_
    refine permitted_cons ⟨rfl, by decide⟩ ⟨0, fun _ _ => rfl⟩ ?_
    refine permitted_cons rfl ⟨0, fun _ _ => rfl⟩ ?_
    refine permitted_cons rfl ⟨0, fun _ _ => rfl⟩ ?_
    refine permitted_cons rfl ⟨0, fun _ _ => rfl⟩ ?_
    refine permitted_cons ⟨rfl, by decide, by decide, by decide⟩
      ⟨0, fun _ _ => rfl⟩ ?_
    refine permitted_cons
      ⟨rfl, by decide, fun _ => ⟨rfl, rfl, rfl, by decide⟩⟩
      ⟨0, fun _ _ => rfl⟩ ?_
    refine permitted_cons rfl ⟨0, fun _ _ => rfl⟩ ?_
    refine permitted_cons rfl ⟨0, fun _ _ => rfl⟩ ?_
    exact ⟨⟨rfl, by decide⟩, fun _ _ _ => trivial⟩
  exact ⟨_, rfl, round_complete hevents⟩

end Runs

end KataCpp.ComplaintQueue
