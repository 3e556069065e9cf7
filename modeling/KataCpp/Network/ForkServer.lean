import KataCpp.Core.Bytes
import KataCpp.Core.TransitionSystem

/-!
# A server that forks

The server forks for every connection.  The child closes the listening socket,
sends the time, closes the connection and exits; the parent closes its copy of
the connection and accepts again.  A child that has exited stays in the table
of the processes until the handler of `SIGCHLD` has waited for it.  Several
signals can be merged into one, and the handler waits until there is no child
left.

The processes run side by side; what the system calls return is part of the
events.  A process that uses a descriptor that it has not open cannot go on.
-/

namespace KataCpp.ForkServer

open Bytes TransitionSystem

/-- Where the parent is: in front of `accept`, of `fork`, or of the `close`
behind it. -/
inductive Place where
  | accepting
  | forking (connection newFd : ℕ)
  | closing (connection newFd : ℕ)
  deriving DecidableEq

/-- Where a child is: in front of `close(sockfd)`, of `send`, of
`close(new_fd)`, or of `exit`; at last nobody has waited for it yet. -/
inductive ChildPlace where
  | closingListener
  | sending
  | closing
  | exiting
  | exited
  deriving DecidableEq

structure Child where
  connection : ℕ
  newFd : ℕ
  descriptors : Finset ℕ
  place : ChildPlace

/-- The parent with its children.  The connections are numbered; it is recorded
for which of them `fork` failed, and what was sent. -/
structure Server where
  sockfd : ℕ
  buf : ByteString
  place : Place
  descriptors : Finset ℕ
  children : List Child
  pending : Bool
  handling : Bool
  accepted : ℕ
  failed : List ℕ
  sent : List (ℕ × Option ByteString)

/-- The server in front of its loop.  Nothing has been written to `buf`. -/
def Server.start (sockfd : ℕ) (buf : ByteString) : Server where
  sockfd := sockfd
  buf := buf
  place := .accepting
  descriptors := {sockfd}
  children := []
  pending := false
  handling := false
  accepted := 0
  failed := []
  sent := []

/-- `buf` behind `snprintf(buf, sizeof(buf), "%.24s\r\n", ctime(&ticks))`; all
of it is sent. -/
def greeting (buf ctime : ByteString) : ByteString :=
  let text := ctime.take 24 ++ [13, 10, 0]
  text ++ buf.drop text.length

/-- What happens: a call of the parent returns, a child takes a step, or the
handler of `SIGCHLD` starts, finds a child that has exited, or returns. -/
inductive Event where
  | accept (result : Option ℕ)
  | fork (succeeds : Bool)
  | close
  | child (index : ℕ) (ctime : ByteString) (succeeds : Bool)
  | signal
  | wait (index : ℕ)
  | handled
  deriving DecidableEq

def Child.next (child : Child) (sockfd : ℕ) : Option Child :=
  match child.place with
  | .closingListener =>
      if sockfd ∈ child.descriptors then
        some { child with
          descriptors := child.descriptors.erase sockfd, place := .sending }
      else none
  | .sending =>
      if child.newFd ∈ child.descriptors then
        some { child with place := .closing }
      else none
  | .closing =>
      if child.newFd ∈ child.descriptors then
        some { child with
          descriptors := child.descriptors.erase child.newFd
          place := .exiting }
      else none
  | .exiting => some { child with descriptors := ∅, place := .exited }
  | .exited => none

def Server.childStep (server : Server) (index : ℕ) (ctime : ByteString)
    (succeeds : Bool) : Option Server := do
  let child ← server.children[index]?
  let next ← child.next server.sockfd
  return { server with
    children := server.children.set index next
    pending := server.pending || next.place == .exited
    sent :=
      if child.place = .sending then
        server.sent ++ [(child.connection,
          if succeeds then some (greeting server.buf ctime) else none)]
      else server.sent }

/-- The parent, whose handler interrupts it.  A descriptor that `accept`
returns is not in use. -/
def step (server : Server) : Event → Option Server
  | .accept result =>
      if server.place = .accepting ∧ server.handling = false ∧
          server.sockfd ∈ server.descriptors then
        match result with
        | none => some server
        | some newFd =>
            if newFd ∈ server.descriptors then none
            else some { server with
              place := .forking server.accepted newFd
              descriptors := insert newFd server.descriptors
              accepted := server.accepted + 1 }
      else none
  | .fork succeeds =>
      match server.place with
      | .forking connection newFd =>
          if server.handling then none
          else if succeeds then some { server with
            place := .closing connection newFd
            children := server.children ++
              [⟨connection, newFd, server.descriptors, .closingListener⟩] }
          else some { server with
            place := .closing connection newFd
            failed := server.failed ++ [connection] }
      | _ => none
  | .close =>
      match server.place with
      | .closing _ newFd =>
          if server.handling = false ∧ newFd ∈ server.descriptors then
            some { server with
              place := .accepting
              descriptors := server.descriptors.erase newFd }
          else none
      | _ => none
  | .child index ctime succeeds => server.childStep index ctime succeeds
  | .signal =>
      if server.pending ∧ server.handling = false then
        some { server with pending := false, handling := true }
      else none
  | .wait index =>
      if server.handling ∧
          (server.children[index]?).map Child.place = some .exited then
        some { server with children := server.children.eraseIdx index }
      else none
  | .handled =>
      if server.handling ∧ server.children = [] then
        some { server with handling := false }
      else none

/-- What can happen, whatever descriptors are open. -/
def Event.Possible (server : Server) : Event → Prop
  | .accept result => server.place = .accepting ∧ server.handling = false ∧
      ∀ newFd, result = some newFd → newFd ∉ server.descriptors
  | .fork _ => server.handling = false ∧
      ∃ connection newFd, server.place = .forking connection newFd
  | .close => server.handling = false ∧
      ∃ connection newFd, server.place = .closing connection newFd
  | .child index _ _ => ∃ child, server.children[index]? = some child ∧
      child.place ≠ .exited
  | .signal => server.pending ∧ server.handling = false
  | .wait index => server.handling ∧
      (server.children[index]?).map Child.place = some .exited
  | .handled => server.handling ∧ server.children = []

def Place.descriptors (sockfd : ℕ) : Place → Finset ℕ
  | .accepting => {sockfd}
  | .forking _ newFd => {newFd, sockfd}
  | .closing _ newFd => {newFd, sockfd}

/-- The connection that has not been handed to a child. -/
def Place.connections : Place → List ℕ
  | .forking connection _ => [connection]
  | _ => []

def ChildPlace.descriptors (sockfd newFd : ℕ) : ChildPlace → Finset ℕ
  | .closingListener => {newFd, sockfd}
  | .sending => {newFd}
  | .closing => {newFd}
  | .exiting => ∅
  | .exited => ∅

/-- The connection that a child has still to answer. -/
def Child.connections (child : Child) : List ℕ :=
  match child.place with
  | .closingListener => [child.connection]
  | .sending => [child.connection]
  | _ => []

structure Child.Sound (sockfd : ℕ) (child : Child) : Prop where
  newFd_ne : child.newFd ≠ sockfd
  descriptors : child.descriptors =
    child.place.descriptors sockfd child.newFd

/-- The processes have the descriptors open that they will use; each connection
is with the parent, or with a child, or has been dealt with; and nobody forgets
a child that has exited. -/
structure Server.Sound (server : Server) : Prop where
  descriptors : server.descriptors = server.place.descriptors server.sockfd
  newFd_ne : ∀ connection newFd, server.place = .forking connection newFd ∨
    server.place = .closing connection newFd → newFd ≠ server.sockfd
  children : ∀ child ∈ server.children, child.Sound server.sockfd
  connections : (server.place.connections ++
      server.children.flatMap Child.connections ++ server.failed ++
      server.sent.map Prod.fst).Perm (List.range server.accepted)
  reaped : ∀ child ∈ server.children, child.place = .exited →
    server.pending ∨ server.handling
  greetings : ∀ connection bytes, (connection, some bytes) ∈ server.sent →
    ∃ ctime, bytes = greeting server.buf ctime

theorem Server.sound_start (sockfd : ℕ) (buf : ByteString) :
    (Server.start sockfd buf).Sound := by
  constructor <;> simp [Server.start, Place.descriptors, Place.connections]

def ChildPlace.next : ChildPlace → ChildPlace
  | .closingListener => .sending
  | .sending => .closing
  | .closing => .exiting
  | .exiting => .exited
  | .exited => .exited

/-- What a child does with its descriptors succeeds. -/
theorem Child.Sound.next {sockfd : ℕ} {child : Child}
    (hsound : child.Sound sockfd) (hplace : child.place ≠ .exited) :
    child.next sockfd = some { child with
        descriptors := child.place.next.descriptors sockfd child.newFd
        place := child.place.next } ∧
      Child.Sound sockfd { child with
        descriptors := child.place.next.descriptors sockfd child.newFd
        place := child.place.next } := by
  obtain ⟨connection, newFd, descriptors, place⟩ := child
  obtain ⟨hne, hdescriptors⟩ := hsound
  refine ⟨?_, hne, rfl⟩
  dsimp only at hne hdescriptors hplace ⊢
  rw [hdescriptors]
  cases place with
  | closingListener =>
    have herase : ({newFd, sockfd} : Finset ℕ).erase sockfd = {newFd} := by
      rw [Finset.pair_comm, Finset.erase_insert
        (Finset.notMem_singleton.mpr hne.symm)]
    simp [Child.next, ChildPlace.next, ChildPlace.descriptors, herase]
  | sending => simp [Child.next, ChildPlace.next, ChildPlace.descriptors]
  | closing => simp [Child.next, ChildPlace.next, ChildPlace.descriptors]
  | exiting => rfl
  | exited => exact absurd rfl hplace

theorem split_of_getElem? {α : Type*} {list : List α} {index : ℕ} {element : α}
    (hindex : list[index]? = some element) :
    ∃ left right, list = left ++ element :: right ∧
      (∀ next, list.set index next = left ++ next :: right) ∧
      list.eraseIdx index = left ++ right := by
  obtain ⟨hlt, helement⟩ := List.getElem?_eq_some_iff.mp hindex
  refine ⟨list.take index, list.drop (index + 1), ?_, fun next => ?_,
    List.eraseIdx_eq_take_drop_succ list index⟩
  · rw [← helement, ← List.drop_eq_getElem_cons hlt, List.take_append_drop]
  · rw [List.set_eq_take_append_cons_drop, if_pos hlt]

section Steps

variable {server next : Server} {sockfd : ℕ} {buf : ByteString}

theorem Server.Sound.acceptResult (hsound : server.Sound) {newFd : ℕ}
    (hplace : server.place = .accepting)
    (hfresh : newFd ∉ server.descriptors) :
    Server.Sound { server with
      place := .forking server.accepted newFd
      descriptors := insert newFd server.descriptors
      accepted := server.accepted + 1 } := by
  have hdescriptors := hsound.descriptors
  have hconnections := hsound.connections
  rw [hplace] at hdescriptors hconnections
  refine ⟨?_, ?_, hsound.children, ?_, hsound.reaped, hsound.greetings⟩
  · dsimp only
    rw [hdescriptors]
    rfl
  · rintro connection fd (hfd | hfd)
    · cases hfd
      rw [hdescriptors] at hfresh
      exact Finset.notMem_singleton.mp hfresh
    · cases hfd
  · dsimp only
    rw [List.range_succ]
    exact (hconnections.cons server.accepted).trans
      (List.perm_append_singleton _ _).symm

theorem Server.Sound.forkSucceeds (hsound : server.Sound)
    {connection newFd : ℕ}
    (hplace : server.place = .forking connection newFd) :
    Server.Sound { server with
      place := .closing connection newFd
      children := server.children ++
        [⟨connection, newFd, server.descriptors, .closingListener⟩] } := by
  have hdescriptors := hsound.descriptors
  have hconnections := hsound.connections
  have hne := hsound.newFd_ne connection newFd (Or.inl hplace)
  rw [hplace] at hdescriptors hconnections
  refine ⟨hdescriptors, ?_, ?_, ?_, ?_, hsound.greetings⟩
  · rintro other fd (hfd | hfd)
    · cases hfd
    · cases hfd
      exact hne
  · intro child hchild
    rcases List.mem_append.mp hchild with hold | hnew
    · exact hsound.children child hold
    · rw [List.mem_singleton.mp hnew]
      exact ⟨hne, hdescriptors⟩
  · dsimp only
    rw [List.flatMap_append]
    refine List.Perm.trans ?_ hconnections
    simp only [Place.connections, List.nil_append, List.append_assoc]
    exact List.perm_append_comm_assoc _ _ _
  · intro child hchild hexited
    rcases List.mem_append.mp hchild with hold | hnew
    · exact hsound.reaped child hold hexited
    · rw [List.mem_singleton.mp hnew] at hexited
      cases hexited

theorem Server.Sound.forkFails (hsound : server.Sound)
    {connection newFd : ℕ}
    (hplace : server.place = .forking connection newFd) :
    Server.Sound { server with
      place := .closing connection newFd
      failed := server.failed ++ [connection] } := by
  have hdescriptors := hsound.descriptors
  have hconnections := hsound.connections
  rw [hplace] at hdescriptors hconnections
  refine ⟨hdescriptors, ?_, hsound.children, ?_, hsound.reaped,
    hsound.greetings⟩
  · rintro other fd (hfd | hfd)
    · cases hfd
    · cases hfd
      exact hsound.newFd_ne connection newFd (Or.inl hplace)
  · dsimp only
    refine List.Perm.trans ?_ hconnections
    simp only [Place.connections, List.nil_append, List.append_assoc]
    exact List.perm_iff_count.mpr fun number => by
      simp only [List.count_append]
      omega

theorem Server.Sound.close (hsound : server.Sound) {connection newFd : ℕ}
    (hplace : server.place = .closing connection newFd) :
    Server.Sound { server with
      place := .accepting
      descriptors := server.descriptors.erase newFd } := by
  have hdescriptors := hsound.descriptors
  have hconnections := hsound.connections
  have hne := hsound.newFd_ne connection newFd (Or.inr hplace)
  rw [hplace] at hdescriptors hconnections
  refine ⟨?_, ?_, hsound.children, hconnections, hsound.reaped,
    hsound.greetings⟩
  · dsimp only
    rw [hdescriptors]
    exact Finset.erase_insert (Finset.notMem_singleton.mpr hne)
  · rintro other fd (hfd | hfd) <;> cases hfd

/-- What a step of a child does to the server. -/
def Server.afterChild (server : Server) (child : Child) (ctime : ByteString)
    (succeeds : Bool) (children : List Child) : Server :=
  { server with
    children := children
    pending := server.pending || child.place.next == .exited
    sent :=
      if child.place = .sending then
        server.sent ++ [(child.connection,
          if succeeds then some (greeting server.buf ctime) else none)]
      else server.sent }

theorem Server.Sound.childStep_eq (hsound : server.Sound) {index : ℕ}
    {child : Child} (hchild : server.children[index]? = some child)
    (hplace : child.place ≠ .exited) (ctime : ByteString) (succeeds : Bool) :
    server.childStep index ctime succeeds =
      some (server.afterChild child ctime succeeds
        (server.children.set index { child with
          descriptors := child.place.next.descriptors server.sockfd child.newFd
          place := child.place.next })) := by
  have hchildSound := hsound.children child (List.mem_of_getElem? hchild)
  obtain ⟨hnext, -⟩ := hchildSound.next hplace
  simp only [childStep, hchild, hnext, Option.bind_eq_bind, Option.bind_some]
  rfl

theorem Server.Sound.afterChild (hsound : server.Sound) {index : ℕ}
    {child : Child} (hchild : server.children[index]? = some child)
    (hplace : child.place ≠ .exited) (ctime : ByteString) (succeeds : Bool) :
    (server.afterChild child ctime succeeds
      (server.children.set index { child with
        descriptors := child.place.next.descriptors server.sockfd child.newFd
        place := child.place.next })).Sound := by
  obtain ⟨left, right, hsplit, hset, -⟩ := split_of_getElem? hchild
  have hchildSound := hsound.children child (List.mem_of_getElem? hchild)
  obtain ⟨-, hnextSound⟩ := hchildSound.next hplace
  have hconnections := hsound.connections
  rw [hset]
  refine ⟨hsound.descriptors, hsound.newFd_ne, ?_, ?_, ?_, ?_⟩
  · intro other hother
    rcases List.mem_append.mp hother with hleft | hrest
    · exact hsound.children other (by simp [hsplit, hleft])
    · rcases List.mem_cons.mp hrest with rfl | hright
      · exact hnextSound
      · exact hsound.children other (by simp [hsplit, hright])
  · refine List.Perm.trans ?_ hconnections
    rw [hsplit]
    obtain ⟨connection, newFd, descriptors, place⟩ := child
    refine List.perm_iff_count.mpr fun number => ?_
    cases place with
    | sending =>
      simp only [Server.afterChild, Child.connections, ChildPlace.next,
        List.count_append, List.flatMap_append, List.flatMap_cons,
        List.map_append, List.map_cons, List.map_nil, List.nil_append, if_true]
      omega
    | exited => exact absurd rfl hplace
    | closingListener => simp [Server.afterChild, Child.connections,
        ChildPlace.next]
    | closing => simp [Server.afterChild, Child.connections, ChildPlace.next]
    | exiting => simp [Server.afterChild, Child.connections, ChildPlace.next]
  · intro other hother hexited
    have hpending : server.pending ∨ server.handling →
        (server.pending || child.place.next == .exited) ∨ server.handling := by
      rintro (hpending | hhandling)
      · exact Or.inl (by rw [hpending, Bool.true_or])
      · exact Or.inr hhandling
    rcases List.mem_append.mp hother with hleft | hrest
    · exact hpending (hsound.reaped other (by simp [hsplit, hleft]) hexited)
    · rcases List.mem_cons.mp hrest with rfl | hright
      · left
        dsimp only at hexited
        simp [Server.afterChild, hexited]
      · exact hpending (hsound.reaped other (by simp [hsplit, hright]) hexited)
  · intro connection bytes hmem
    simp only [Server.afterChild] at hmem ⊢
    split_ifs at hmem with hsending hsucceeds
    · rcases List.mem_append.mp hmem with hold | hnew
      · exact hsound.greetings connection bytes hold
      · cases List.mem_singleton.mp hnew
        exact ⟨ctime, rfl⟩
    · rcases List.mem_append.mp hmem with hold | hnew
      · exact hsound.greetings connection bytes hold
      · cases List.mem_singleton.mp hnew
    · exact hsound.greetings connection bytes hmem

theorem Server.Sound.wait (hsound : server.Sound) {index : ℕ}
    (hhandling : server.handling)
    (hexited : (server.children[index]?).map Child.place = some .exited) :
    Server.Sound { server with
      children := server.children.eraseIdx index } := by
  obtain ⟨child, hchild, hplace⟩ := Option.map_eq_some_iff.mp hexited
  obtain ⟨left, right, hsplit, -, herase⟩ := split_of_getElem? hchild
  have hconnections := hsound.connections
  have hnone : child.connections = [] := by
    rw [Child.connections, hplace]
  rw [hsplit, List.flatMap_append, List.flatMap_cons, hnone, List.nil_append,
    ← List.flatMap_append, ← herase] at hconnections
  refine ⟨hsound.descriptors, hsound.newFd_ne, fun other hother => ?_,
    hconnections, fun _ _ _ => Or.inr hhandling, hsound.greetings⟩
  exact hsound.children other (List.mem_of_mem_eraseIdx hother)

theorem Server.Sound.step {event : Event} (hsound : server.Sound)
    (hstep : step server event = some next) : next.Sound := by
  cases event with
  | accept result =>
    simp only [ForkServer.step] at hstep
    split_ifs at hstep with hguard
    cases result with
    | none =>
      obtain rfl := Option.some.inj hstep
      exact hsound
    | some newFd =>
      dsimp only at hstep
      split_ifs at hstep with hfd
      obtain rfl := Option.some.inj hstep
      exact hsound.acceptResult hguard.1 hfd
  | fork succeeds =>
    simp only [ForkServer.step] at hstep
    split at hstep
    case h_1 connection newFd hplace =>
      split_ifs at hstep
      · obtain rfl := Option.some.inj hstep
        exact hsound.forkSucceeds hplace
      · obtain rfl := Option.some.inj hstep
        exact hsound.forkFails hplace
    case h_2 => cases hstep
  | close =>
    simp only [ForkServer.step] at hstep
    split at hstep
    case h_1 connection newFd hplace =>
      split_ifs at hstep
      obtain rfl := Option.some.inj hstep
      exact hsound.close hplace
    case h_2 => cases hstep
  | child index ctime succeeds =>
    obtain ⟨child, hchild, hrest⟩ := Option.bind_eq_some_iff.mp hstep
    have hplace : child.place ≠ .exited := by
      intro hexited
      simp [Child.next, hexited] at hrest
    rw [ForkServer.step, hsound.childStep_eq hchild hplace] at hstep
    obtain rfl := Option.some.inj hstep
    exact hsound.afterChild hchild hplace ctime succeeds
  | signal =>
    simp only [ForkServer.step] at hstep
    split_ifs at hstep
    obtain rfl := Option.some.inj hstep
    exact ⟨hsound.descriptors, hsound.newFd_ne, hsound.children,
      hsound.connections, fun _ _ _ => Or.inr rfl, hsound.greetings⟩
  | wait index =>
    simp only [ForkServer.step] at hstep
    split_ifs at hstep with hguard
    obtain rfl := Option.some.inj hstep
    exact hsound.wait hguard.1 hguard.2
  | handled =>
    simp only [ForkServer.step] at hstep
    split_ifs at hstep with hguard
    obtain rfl := Option.some.inj hstep
    refine ⟨hsound.descriptors, hsound.newFd_ne, hsound.children,
      hsound.connections, fun child hchild => ?_, hsound.greetings⟩
    dsimp only at hchild
    rw [hguard.2] at hchild
    exact absurd hchild List.not_mem_nil

/-- What no step changes. -/
theorem step_frame {event : Event}
    (hstep : ForkServer.step server event = some next) :
    next.sockfd = server.sockfd ∧ next.buf = server.buf := by
  cases event with
  | accept result =>
    simp only [ForkServer.step] at hstep
    split_ifs at hstep
    cases result with
    | none =>
      obtain rfl := Option.some.inj hstep
      exact ⟨rfl, rfl⟩
    | some newFd =>
      dsimp only at hstep
      split_ifs at hstep
      obtain rfl := Option.some.inj hstep
      exact ⟨rfl, rfl⟩
  | fork succeeds =>
    simp only [ForkServer.step] at hstep
    split at hstep
    · split_ifs at hstep <;>
        (obtain rfl := Option.some.inj hstep; exact ⟨rfl, rfl⟩)
    · cases hstep
  | close =>
    simp only [ForkServer.step] at hstep
    split at hstep
    · split_ifs at hstep
      obtain rfl := Option.some.inj hstep
      exact ⟨rfl, rfl⟩
    · cases hstep
  | child index ctime succeeds =>
    obtain ⟨child, -, hchild⟩ := Option.bind_eq_some_iff.mp hstep
    obtain ⟨changed, -, hchanged⟩ := Option.bind_eq_some_iff.mp hchild
    obtain rfl := Option.some.inj hchanged
    exact ⟨rfl, rfl⟩
  | _ =>
    simp only [ForkServer.step] at hstep
    split_ifs at hstep
    obtain rfl := Option.some.inj hstep
    exact ⟨rfl, rfl⟩

theorem frame_of_run {events : List Event}
    (hrun : run ForkServer.step (Server.start sockfd buf) events =
      some server) :
    server.sockfd = sockfd ∧ server.buf = buf := by
  refine run_invariant
    (fun server => server.sockfd = sockfd ∧ server.buf = buf)
    (fun server event next hframe hstep => ?_) ⟨rfl, rfl⟩ hrun
  obtain ⟨hsockfd, hbuf⟩ := step_frame hstep
  exact ⟨hsockfd.trans hframe.1, hbuf.trans hframe.2⟩

theorem Server.sound_of_run {events : List Event}
    (hrun : run ForkServer.step (Server.start sockfd buf) events =
      some server) :
    server.Sound :=
  run_invariant Server.Sound (fun _ _ _ hsound hstep => hsound.step hstep)
    (Server.sound_start sockfd buf) hrun

/-- No call fails for a descriptor that is not open. -/
theorem Server.Sound.isSome_step (hsound : server.Sound) {event : Event}
    (hpossible : event.Possible server) :
    (ForkServer.step server event).isSome := by
  have hdescriptors := hsound.descriptors
  cases event with
  | accept result =>
    obtain ⟨hplace, hhandling, hfresh⟩ := hpossible
    rw [hplace] at hdescriptors
    have hlistener : server.sockfd ∈ server.descriptors := by
      rw [hdescriptors]
      exact Finset.mem_singleton_self _
    cases result with
    | none => simp [ForkServer.step, hplace, hhandling, hlistener]
    | some newFd =>
      have hnew := hfresh newFd rfl
      simp [ForkServer.step, hplace, hhandling, hlistener, hnew]
  | fork succeeds =>
    obtain ⟨hhandling, connection, newFd, hplace⟩ := hpossible
    cases succeeds <;> simp [ForkServer.step, hplace, hhandling]
  | close =>
    obtain ⟨hhandling, connection, newFd, hplace⟩ := hpossible
    rw [hplace] at hdescriptors
    simp [ForkServer.step, hplace, hhandling, hdescriptors, Place.descriptors]
  | child index ctime succeeds =>
    obtain ⟨child, hchild, hplace⟩ := hpossible
    rw [ForkServer.step, hsound.childStep_eq hchild hplace]
    rfl
  | signal =>
    obtain ⟨hpending, hhandling⟩ := hpossible
    simp [ForkServer.step, hpending, hhandling]
  | wait index =>
    obtain ⟨hhandling, hexited⟩ := hpossible
    simp only [ForkServer.step, if_pos (And.intro hhandling hexited)]
    rfl
  | handled =>
    obtain ⟨hhandling, hchildren⟩ := hpossible
    simp [ForkServer.step, hhandling, hchildren]

end Steps

/-! ## Coming to rest -/

def ChildPlace.remaining : ChildPlace → ℕ
  | .closingListener => 4
  | .sending => 3
  | .closing => 2
  | .exiting => 1
  | .exited => 0

def Place.remaining : Place → ℕ
  | .accepting => 0
  | .forking _ _ => 2
  | .closing _ _ => 1

/-- What there is to do without a further connection.  A child that exits makes
the signal pending, and the handler that starts is still to return. -/
def Server.remaining (server : Server) : ℕ :=
  (server.children.map fun child => 3 * (child.place.remaining + 1)).sum +
    server.place.remaining + 2 * server.pending.toNat + server.handling.toNat

/-- The parent waits in `accept`, and there is no child. -/
def Server.Idle (server : Server) : Prop :=
  server.place = .accepting ∧ server.children = [] ∧
    server.pending = false ∧ server.handling = false

section Rest

variable {server : Server} {sockfd : ℕ} {buf : ByteString}

theorem ChildPlace.remaining_next {place : ChildPlace}
    (hplace : place ≠ .exited) :
    place.next.remaining + 1 = place.remaining := by
  cases place with
  | exited => exact absurd rfl hplace
  | _ => rfl

/-- A child that has not exited can take its next step. -/
theorem Server.Sound.child_remaining (hsound : server.Sound) {index : ℕ}
    {child : Child} (hchild : server.children[index]? = some child)
    (hplace : child.place ≠ .exited) :
    ∃ next, ForkServer.step server (.child index [] true) = some next ∧
      next.remaining < server.remaining ∧
      next.accepted = server.accepted := by
  refine ⟨_, hsound.childStep_eq hchild hplace [] true, ?_, rfl⟩
  obtain ⟨left, right, hsplit, hset, -⟩ := split_of_getElem? hchild
  have hremaining := ChildPlace.remaining_next hplace
  have hpending := Bool.toNat_le
    (server.pending || child.place.next == .exited)
  rw [Server.remaining, Server.remaining, hset]
  simp only [Server.afterChild, hsplit, List.map_append, List.map_cons,
    List.sum_append, List.sum_cons]
  omega

/-- When no child can take a step, the parent or the handler can. -/
theorem Server.Sound.parent_remaining (hsound : server.Sound)
    (hexited : ∀ child ∈ server.children, child.place = .exited)
    (hbusy : ¬ server.Idle) :
    ∃ event next, ForkServer.step server event = some next ∧
      next.remaining < server.remaining ∧
      next.accepted = server.accepted := by
  by_cases hhandling : server.handling
  · cases hchildren : server.children with
    | nil =>
      refine ⟨.handled, { server with handling := false },
        if_pos ⟨hhandling, hchildren⟩, ?_, rfl⟩
      simp [Server.remaining, hhandling]
    | cons child children =>
      have hplace := hexited child (by simp [hchildren])
      refine ⟨.wait 0, { server with
        children := server.children.eraseIdx 0 },
        if_pos ⟨hhandling, by simp [hchildren, hplace]⟩, ?_, rfl⟩
      simp [Server.remaining, hchildren]
  · rw [Bool.not_eq_true] at hhandling
    by_cases hpending : server.pending
    · refine ⟨.signal, { server with pending := false, handling := true },
        if_pos ⟨hpending, hhandling⟩, ?_, rfl⟩
      simp [Server.remaining, hpending, hhandling]
    · have hchildren : server.children = [] := by
        rw [List.eq_nil_iff_forall_not_mem]
        intro child hchild
        rcases hsound.reaped child hchild (hexited child hchild) with h | h
        · exact hpending h
        · rw [hhandling] at h
          cases h
      rw [Bool.not_eq_true] at hpending
      cases hplace : server.place with
      | accepting => exact absurd ⟨hplace, hchildren, hpending, hhandling⟩ hbusy
      | forking connection newFd =>
        refine ⟨.fork false, { server with
          place := .closing connection newFd
          failed := server.failed ++ [connection] }, ?_, ?_, rfl⟩
        · simp [ForkServer.step, hplace, hhandling]
        · simp [Server.remaining, hplace, Place.remaining]
      | closing connection newFd =>
        have hdescriptors := hsound.descriptors
        rw [hplace] at hdescriptors
        refine ⟨.close, { server with
          place := .accepting
          descriptors := server.descriptors.erase newFd }, ?_, ?_, rfl⟩
        · simp [ForkServer.step, hplace, hhandling, hdescriptors,
            Place.descriptors]
        · simp [Server.remaining, hplace, Place.remaining]

/-- The server can come to rest without a further connection. -/
theorem Server.Sound.idle_run (hsound : server.Sound) :
    ∃ events final, run ForkServer.step server events = some final ∧
      (final.Sound ∧ final.accepted = server.accepted) ∧ final.Idle := by
  apply exists_run_of_variant
    (fun state => state.Sound ∧ state.accepted = server.accepted) Server.Idle
    Server.remaining ?_ ⟨hsound, rfl⟩
  rintro state ⟨hstate, haccepted⟩ hbusy
  obtain ⟨event, next, hstep, hlt, hnext⟩ : ∃ event next,
      ForkServer.step state event = some next ∧
        next.remaining < state.remaining ∧ next.accepted = state.accepted := by
    by_cases hexited : ∀ child ∈ state.children, child.place = .exited
    · exact hstate.parent_remaining hexited hbusy
    · push Not at hexited
      obtain ⟨child, hchild, hplace⟩ := hexited
      obtain ⟨index, hindex⟩ := List.mem_iff_getElem?.mp hchild
      obtain ⟨next, hnext⟩ := hstate.child_remaining hindex hplace
      exact ⟨_, next, hnext⟩
  exact ⟨event, next, hstep, ⟨hstate.step hstep, hnext.trans haccepted⟩, hlt⟩

theorem Server.Sound.dealt_with (hsound : server.Sound)
    (hplace : server.place = .accepting) (hchildren : server.children = []) :
    (server.failed ++ server.sent.map Prod.fst).Perm
      (List.range server.accepted) := by
  have hconnections := hsound.connections
  rw [hplace, hchildren] at hconnections
  exact hconnections

theorem greeting_spec (hbuf : buf.length = 300) (ctime : ByteString) :
    (greeting buf ctime).length = 300 ∧
      ctime.take 24 ++ [13, 10, 0] <+: greeting buf ctime := by
  refine ⟨?_, List.prefix_append _ _⟩
  simp only [greeting, List.length_append, List.length_drop, List.length_take,
    List.length_cons, List.length_nil, hbuf]
  omega

/-- No call is made with a descriptor that is not open, and the parent keeps
none but its listening socket.  At most once something is sent for a connection,
namely 300 bytes that begin with a time; and, when there is no child left, this
has been done or tried for each connection that `fork` did not fail for. -/
theorem connections_answered {events : List Event} (hbuf : buf.length = 300)
    (hrun : run step (Server.start sockfd buf) events = some server) :
    (∀ event, event.Possible server → (step server event).isSome) ∧
      (server.place = .accepting → server.descriptors = {sockfd}) ∧
      (∀ connection bytes, (connection, some bytes) ∈ server.sent →
        bytes.length = 300 ∧ ∃ ctime : ByteString,
          ctime.take 24 ++ [13, 10, 0] <+: bytes) ∧
      (server.failed ++ server.sent.map Prod.fst).Nodup ∧
      (server.place = .accepting → server.children = [] →
        (server.failed ++ server.sent.map Prod.fst).Perm
          (List.range server.accepted)) := by
  have hsound := Server.sound_of_run hrun
  have hconnections := hsound.connections
  obtain ⟨hsockfd, hserverBuf⟩ := frame_of_run hrun
  refine ⟨fun _ hpossible => hsound.isSome_step hpossible, fun hplace => ?_,
    fun connection bytes hmem => ?_, ?_, hsound.dealt_with⟩
  · rw [hsound.descriptors, hplace, hsockfd]
    rfl
  · obtain ⟨ctime, rfl⟩ := hsound.greetings connection bytes hmem
    rw [hserverBuf]
    obtain ⟨hlength, hstart⟩ := greeting_spec hbuf ctime
    exact ⟨hlength, ctime, hstart⟩
  · have hnodup := hconnections.nodup_iff.mpr List.nodup_range
    rw [List.append_assoc] at hnodup
    exact (List.nodup_append.mp hnodup).2.1

/-- Two connections.  The first child exits while the second one is forked, and
the handler waits for both. -/
def twoConnections : List Event :=
  [.accept (some 4), .fork true, .child 0 [] true, .close, .child 0 [49] true,
    .child 0 [] true, .accept (some 4), .fork true, .child 0 [] true, .signal,
    .wait 0, .child 0 [] true, .child 0 [50] false, .child 0 [] true,
    .child 0 [] true, .wait 0, .handled, .close]

theorem connections_answered_two : ∃ server,
    run step (Server.start 3 (List.replicate 300 0)) twoConnections =
        some server ∧
      (server.failed ++ server.sent.map Prod.fst).Perm [0, 1] := by
  obtain ⟨server, hrun, hserver⟩ :=
    (Option.any_eq_true
      (fun server : Server =>
        decide (server.place = .accepting ∧ server.accepted = 2) &&
          server.children.isEmpty)
      (run step (Server.start 3 (List.replicate 300 0)) twoConnections)).mp
      (by decide +kernel)
  obtain ⟨hplace, hchildren⟩ := Bool.and_eq_true_iff.mp hserver
  obtain ⟨hplace, haccepted⟩ := of_decide_eq_true hplace
  obtain ⟨-, -, -, -, hanswered⟩ :=
    connections_answered (List.length_replicate) hrun
  have hall := hanswered hplace (List.isEmpty_iff.mp hchildren)
  rw [haccepted] at hall
  exact ⟨server, hrun, hall⟩

/-- A child that has exited is not forgotten: the signal is pending, or the
handler is running.  The handler never keeps the server from coming to rest,
and then there is no child. -/
theorem children_reaped {events : List Event}
    (hrun : run step (Server.start sockfd buf) events = some server) :
    (∀ child ∈ server.children, child.place = .exited →
        server.pending ∨ server.handling) ∧
      ∃ rest final, run step server rest = some final ∧ final.Idle ∧
        (final.failed ++ final.sent.map Prod.fst).Perm
          (List.range server.accepted) := by
  have hsound := Server.sound_of_run hrun
  obtain ⟨rest, final, hrest, ⟨hfinal, haccepted⟩, hidle⟩ := hsound.idle_run
  refine ⟨hsound.reaped, rest, final, hrest, hidle, ?_⟩
  rw [← haccepted]
  exact hfinal.dealt_with hidle.1 hidle.2.1

theorem children_reaped_two : ∃ server rest final,
    run step (Server.start 3 []) [.accept (some 4), .fork true] =
        some server ∧
      run step server rest = some final ∧ final.children = [] ∧
      (final.failed ++ final.sent.map Prod.fst).Perm
        (List.range server.accepted) := by
  obtain ⟨server, hrun⟩ : ∃ server,
      run step (Server.start 3 []) [.accept (some 4), .fork true] =
        some server :=
    Option.isSome_iff_exists.mp (by decide +kernel)
  obtain ⟨-, rest, final, hrest, hidle, hall⟩ := children_reaped hrun
  exact ⟨server, rest, final, hrun, hrest, hidle.2.1, hall⟩

end Rest

end KataCpp.ForkServer
