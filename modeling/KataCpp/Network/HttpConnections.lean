import KataCpp.Network.HttpWorker

/-!
# The connections of the log server

Each connection is accepted once, then read from, answered according to the
bytes that came from it, and closed.  A monitor for a single connection says
what may happen to it and when.  In every run of the workers, whatever the
order in which their operations complete, all connections pass the monitor, and
those that are open are held by one worker each.
-/

namespace KataCpp.HttpWorker

open Bytes PathResolution SubstringSearch TransitionSystem

/-! ## The monitor -/

inductive Phase where
  | unknown
  | opened (since : ℕ)
  | asked (since : ℕ) (bytes : ByteString)
  | answered (since : ℕ)
  | closed
  deriving DecidableEq

def Phase.Live : Phase → Prop
  | .unknown | .closed => False
  | _ => True

def plain (status : Status) (text : String) : Response where
  status := status
  keepAlive := false
  server := ascii "Beast"
  contentType := ascii "text/plain"
  body := .inl (ascii text)

/-- The responses that a request may get.  A file is sent for an absolute path
without two dots in a row. -/
def expected (docRoot : ByteString) (request : Request) : List Response :=
  match request.method with
  | .post => [plain .ok "\x7b\"code\": 0, \"desc\":\"ok\"\x7d\r\n"]
  | .other =>
      [plain .badRequest "\x7b\"code\": 1, \"desc\":\"invalid method\"\x7d\r\n"]
  | .get => plain .notFound "File not found\r\n" ::
      if [47] <+: request.target ∧ ¬ [46, 46] <:+: request.target then
        [{ status := .ok
           keepAlive := false
           server := ascii "Beast"
           contentType := mimeType request.target
           body := .inr (cString (docRoot ++ request.target)) }]
      else []

section Monitor

variable (parse : ByteString → Option (Request × ByteString))
  (docRoot : ByteString)

def advance : Phase → Action → Option Phase
  | .unknown, .accepted since => some (.opened since)
  | .opened since, .received bytes => some (.asked since bytes)
  | .asked since bytes, .answered response =>
      if (parse bytes).any fun parsed =>
          response ∈ expected docRoot parsed.1 then
        some (.answered since)
      else none
  | .opened _, .closed => some .closed
  | .answered _, .closed => some .closed
  | .opened since, .expired now =>
      if since + 60 ≤ now then some .closed else none
  | .answered since, .expired now =>
      if since + 60 ≤ now then some .closed else none
  | _, _ => none

end Monitor

/-- The phase of the worker's connection while an operation is outstanding. -/
def Operation.phase (since : ℕ) : Operation → Option Phase
  | .read => some (.opened since)
  | .writeString => some (.answered since)
  | .writeFile => some (.answered since)
  | _ => none

/-- The state of the worker while an operation is outstanding.  The deadline is
a minute behind the beginning of the connection, and a response is there as
long as it is being written. -/
structure Worker.Doing (worker : Worker) (phase : ℕ → Phase)
    (operation : Operation) : Prop where
  holds : ∀ connection, worker.socket = some connection →
    ∃ since, operation.phase since = some (phase connection) ∧
      worker.deadline = some (since + 60)
  buffer : operation = .accept ∨ operation = .read → worker.buffer = []
  string : worker.stringResponse.isSome ↔ operation = .writeString
  file : worker.fileResponse.isSome ↔ operation = .writeFile
  ne_wait : operation ≠ .wait

/-- One operation is outstanding beside the timer. -/
def Worker.Sound (worker : Worker) (phase : ℕ → Phase) : Prop :=
  ∃ operation, worker.outstanding.Perm [operation, .wait] ∧
    worker.Doing phase operation

section Workers

variable {parse : ByteString → Option (Request × ByteString)}
  {docRoot : ByteString} {worker next : Worker} {phase phase' : ℕ → Phase}
  {operation : Operation} {entries : List Entry} {connection : ℕ}

theorem Worker.Doing.live (hdoing : worker.Doing phase operation)
    (hsocket : worker.socket = some connection) :
    (phase connection).Live := by
  obtain ⟨since, hphase, -⟩ := hdoing.holds connection hsocket
  cases operation with
  | accept => exact absurd hphase.symm (Option.some_ne_none _)
  | wait => exact absurd hphase.symm (Option.some_ne_none _)
  | read =>
      rw [← Option.some.inj hphase]
      trivial
  | writeString =>
      rw [← Option.some.inj hphase]
      trivial
  | writeFile =>
      rw [← Option.some.inj hphase]
      trivial

/-- A worker depends on the phase of its own connection only. -/
theorem Worker.Sound.congr (hsound : worker.Sound phase)
    (hphase : ∀ connection, worker.socket = some connection →
      phase' connection = phase connection) :
    worker.Sound phase' := by
  obtain ⟨operation, hperm, hdoing⟩ := hsound
  refine ⟨operation, hperm, ?_, hdoing.buffer, hdoing.string, hdoing.file,
    hdoing.ne_wait⟩
  intro connection hsocket
  rw [hphase connection hsocket]
  exact hdoing.holds connection hsocket

/-- A worker without a connection. -/
theorem Worker.Doing.of_disconnected (hdoing : worker.Doing phase operation)
    (hsocket : next.socket = none)
    (hbuffer : operation = .accept ∨ operation = .read → next.buffer = [])
    (hstring : next.stringResponse = worker.stringResponse)
    (hfile : next.fileResponse = worker.fileResponse) :
    next.Doing phase' operation where
  holds := by
    intro connection hsome
    rw [hsocket] at hsome
    exact absurd hsome.symm (Option.some_ne_none _)
  buffer := hbuffer
  string := by rw [hstring, hdoing.string]
  file := by rw [hfile, hdoing.file]
  ne_wait := hdoing.ne_wait

theorem actions_append (connection : ℕ) (log entries : List Entry) :
    actions connection (log ++ entries) =
      actions connection log ++ actions connection entries :=
  List.filterMap_append

@[simp]
theorem actions_entry (connection : ℕ) (worker : Worker) (action : Action) :
    actions connection (worker.entry action) =
      if worker.socket = some connection then [action] else [] := by
  cases hsocket : worker.socket with
  | none => simp [actions, Worker.entry, hsocket]
  | some other =>
      by_cases heq : other = connection <;>
        simp [actions, Worker.entry, hsocket, heq]

/-- What a handler does: the connection of the worker goes on according to the
monitor, and the other connections are left alone. -/
structure Leads (parse : ByteString → Option (Request × ByteString))
    (docRoot : ByteString) (socket : Option ℕ) (next : Worker)
    (entries : List Entry) (phase phase' : ℕ → Phase) : Prop where
  follows : ∀ connection,
    run (advance parse docRoot) (phase connection)
      (actions connection entries) = some (phase' connection)
  sound : next.Sound phase'
  opened : ∀ connection, next.socket = some connection →
    socket = some connection ∨ phase connection = .unknown
  live : ∀ connection, socket = some connection →
    (phase' connection).Live → next.socket = some connection
  frame : ∀ connection, socket ≠ some connection →
    next.socket ≠ some connection → phase' connection = phase connection

/-- The phases after the connection of a socket has gone on. -/
def after (socket : Option ℕ) (phase : ℕ → Phase) (go : Phase → Phase) :
    ℕ → Phase :=
  fun connection =>
    if socket = some connection then go (phase connection)
    else phase connection

theorem leads_after {socket : Option ℕ} {go : Phase → Phase}
    (done : List Action)
    (hactions : ∀ connection, actions connection entries =
      if socket = some connection then done else [])
    (hrun : ∀ connection, socket = some connection →
      run (advance parse docRoot) (phase connection) done =
        some (go (phase connection)))
    (hsocket : next.socket = socket ∨
      next.socket = none ∧ ∀ connection, socket = some connection →
        ¬ (go (phase connection)).Live)
    (hsound : next.Sound (after socket phase go)) :
    Leads parse docRoot socket next entries phase (after socket phase go) where
  follows := by
    intro connection
    rw [hactions, after]
    split_ifs with hheld
    · exact hrun connection hheld
    · rfl
  sound := hsound
  opened := by
    intro connection hnext
    rcases hsocket with hsame | ⟨hnone, -⟩
    · exact Or.inl (hsame.symm.trans hnext)
    · rw [hnone] at hnext
      exact absurd hnext (Option.some_ne_none _).symm
  live := by
    intro connection hheld hlive
    rcases hsocket with hsame | ⟨-, hdead⟩
    · exact hsame.trans hheld
    · rw [after, if_pos hheld] at hlive
      exact absurd hlive (hdead connection hheld)
  frame := fun connection hother _ => if_neg hother

theorem perm_start {outstanding : List Operation}
    (hperm : outstanding.Perm [.wait]) (operation : Operation) :
    (outstanding ++ [operation]).Perm [operation, .wait] :=
  (hperm.append_right [operation]).trans (List.Perm.swap _ _ [])

/-- Closing the connection and accepting again. -/
theorem Worker.accept_leads (hperm : worker.outstanding.Perm [.wait])
    (hstring : worker.stringResponse = none)
    (hfile : worker.fileResponse = none)
    (hclose : ∀ connection, worker.socket = some connection →
      advance parse docRoot (phase connection) .closed = some .closed) :
    Leads parse docRoot worker.socket worker.accept.2 worker.accept.1 phase
      (after worker.socket phase fun _ => .closed) := by
  apply leads_after [.closed]
  · exact fun connection => actions_entry connection worker .closed
  · intro connection hsocket
    rw [run, hclose connection hsocket]
    rfl
  · exact Or.inr ⟨rfl, fun _ _ hlive => hlive⟩
  · refine ⟨.accept, perm_start hperm .accept, ?_⟩
    constructor <;> simp [Worker.accept, Worker.start, hstring, hfile]

/-- The check of `send_file`. -/
theorem safe_iff (target : ByteString) :
    ¬ (target = [] ∨ target.head? ≠ some 47 ∨
        find target (ascii "..") 0 ≠ none) ↔
      [47] <+: target ∧ ¬ [46, 46] <:+: target := by
  have hdots : ascii ".." = [46, 46] := rfl
  have hfind : find target [46, 46] 0 = none ↔ ¬ [46, 46] <:+: target := by
    rw [find_eq_none_iff]
    constructor
    · rintro hnone ⟨before, after, rfl⟩
      refine hnone before.length (Nat.zero_le _) (by simp) ⟨after, ?_⟩
      simp
    · intro hinfix index _ _ hstart
      exact hinfix (hstart.isInfix.trans (List.drop_suffix _ _).isInfix)
  rw [hdots, not_or, not_or, not_not, not_not, hfind]
  cases target with
  | nil => simp
  | cons head rest => simp [eq_comm]

/-- A request is answered by one of the responses that it may get. -/
theorem Worker.processRequest_spec (docRoot : ByteString) (worker : Worker)
    (request : Request) (opens : Bool) :
    ∃ response ∈ expected docRoot request,
      (∀ connection, actions connection
          (worker.processRequest docRoot request opens).1 =
        if worker.socket = some connection then [.answered response]
        else []) ∧
      ((worker.processRequest docRoot request opens).2 =
          { worker with
            stringResponse := some response }.start .writeString ∨
        (worker.processRequest docRoot request opens).2 =
          { worker with
            fileResponse := some response }.start .writeFile) := by
  obtain ⟨method, target, body⟩ := request
  cases method with
  | post =>
      refine ⟨_, List.mem_singleton_self _, fun connection => ?_, Or.inl rfl⟩
      exact actions_entry connection worker _
  | other =>
      refine ⟨_, List.mem_singleton_self _, fun connection => ?_, Or.inl rfl⟩
      exact actions_entry connection worker _
  | get =>
      simp only [Worker.processRequest, Worker.sendFile]
      split_ifs with hunsafe hopens
      · refine ⟨_, List.mem_cons_self, fun connection => ?_, Or.inl rfl⟩
        exact actions_entry connection worker _
      · refine ⟨_, List.mem_cons_of_mem _ ?_, fun connection => ?_,
          Or.inr rfl⟩
        · rw [if_pos ((safe_iff target).mp hunsafe)]
          exact List.mem_singleton_self _
        · exact actions_entry connection worker _
      · refine ⟨_, List.mem_cons_self, fun connection => ?_, Or.inl rfl⟩
        exact actions_entry connection worker _

/-- The next phase when a request has been answered. -/
def Phase.answer : Phase → Phase
  | .opened since => .answered since
  | phase => phase

theorem Worker.Doing.reading (hdoing : worker.Doing phase .read)
    (hsocket : worker.socket = some connection) :
    ∃ since, phase connection = .opened since ∧
      worker.deadline = some (since + 60) := by
  obtain ⟨since, hphase, hdeadline⟩ := hdoing.holds connection hsocket
  exact ⟨since, (Option.some.inj hphase).symm, hdeadline⟩

theorem Worker.Doing.stringResponse_eq_none
    (hdoing : worker.Doing phase operation)
    (hwrite : operation ≠ .writeString) : worker.stringResponse = none :=
  Option.not_isSome_iff_eq_none.mp fun hsome =>
    hwrite (hdoing.string.mp hsome)

theorem Worker.Doing.fileResponse_eq_none
    (hdoing : worker.Doing phase operation)
    (hwrite : operation ≠ .writeFile) : worker.fileResponse = none :=
  Option.not_isSome_iff_eq_none.mp fun hsome => hwrite (hdoing.file.mp hsome)

/-- Reading a request, or failing to read one. -/
theorem Worker.read_leads (now : ℕ) (received : ByteString)
    (error opens : Bool) (hperm : worker.outstanding.Perm [.wait])
    (hdoing : worker.Doing phase .read) :
    ∃ phase', Leads parse docRoot worker.socket
      (worker.handle parse docRoot now (.read received error opens)).2
      (worker.handle parse docRoot now (.read received error opens)).1
      phase phase' := by
  have hbuffer := hdoing.buffer (Or.inr rfl)
  have hstring := hdoing.stringResponse_eq_none Operation.noConfusion
  have hfile := hdoing.fileResponse_eq_none Operation.noConfusion
  cases hparsed : if error then none
      else parse (worker.buffer ++ received) with
  | none =>
      refine ⟨after worker.socket phase fun _ => .closed, ?_⟩
      simp only [Worker.handle, hparsed]
      have hclose : ∀ connection, worker.socket = some connection →
          advance parse docRoot (phase connection) .closed =
            some .closed := by
        intro connection hsocket
        obtain ⟨since, hphase, -⟩ := hdoing.reading hsocket
        rw [hphase]
        rfl
      exact @Worker.accept_leads parse docRoot
        { worker with buffer := worker.buffer ++ received } phase hperm
        hstring hfile hclose
  | some parsed =>
      obtain ⟨request, rest⟩ := parsed
      have hrequest : parse received = some (request, rest) := by
        rw [hbuffer, List.nil_append] at hparsed
        cases error with
        | false => exact hparsed
        | true => exact absurd hparsed (Option.some_ne_none _).symm
      obtain ⟨response, hresponse, hactions, hnext⟩ :=
        Worker.processRequest_spec docRoot { worker with buffer := rest }
          request opens
      have hholds : ∀ connection, worker.socket = some connection →
          ∃ since, some (.answered since) =
              some (after worker.socket phase Phase.answer connection) ∧
            worker.deadline = some (since + 60) := by
        intro connection hsocket
        obtain ⟨since, hphase, hdeadline⟩ := hdoing.reading hsocket
        refine ⟨since, ?_, hdeadline⟩
        rw [after, if_pos hsocket, hphase]
        rfl
      refine ⟨after worker.socket phase Phase.answer, ?_⟩
      simp only [Worker.handle, hparsed]
      apply leads_after [.received received, .answered response]
      · intro connection
        rw [actions_append, hactions, actions_entry]
        dsimp only
        split_ifs <;> rfl
      · intro connection hsocket
        obtain ⟨since, hphase, -⟩ := hdoing.reading hsocket
        simp [hphase, run, advance, hrequest, hresponse, Phase.answer]
      · left
        rcases hnext with hnext | hnext <;> (rw [hnext]; rfl)
      · rcases hnext with hnext | hnext
        · rw [hnext]
          refine ⟨.writeString, perm_start hperm _, hholds, ?_, ?_, ?_, ?_⟩ <;>
            simp [Worker.start, hfile]
        · rw [hnext]
          refine ⟨.writeFile, perm_start hperm _, hholds, ?_, ?_, ?_, ?_⟩ <;>
            simp [Worker.start, hstring]

/-- A connection can be closed from its deadline on. -/
theorem Worker.Doing.advance_expired (hdoing : worker.Doing phase operation)
    (hsocket : worker.socket = some connection) {now : ℕ}
    (hdeadline : worker.deadline.any (· ≤ now)) :
    advance parse docRoot (phase connection) (.expired now) =
      some .closed := by
  obtain ⟨since, hphase, htime⟩ := hdoing.holds connection hsocket
  rw [htime, Option.any_some, decide_eq_true_eq] at hdeadline
  cases operation with
  | accept => exact absurd hphase.symm (Option.some_ne_none _)
  | wait => exact absurd hphase.symm (Option.some_ne_none _)
  | read => rw [← Option.some.inj hphase, advance, if_pos hdeadline]
  | writeString => rw [← Option.some.inj hphase, advance, if_pos hdeadline]
  | writeFile => rw [← Option.some.inj hphase, advance, if_pos hdeadline]

/-- The timer, beside the operation that is outstanding. -/
theorem Worker.wait_leads (now : ℕ)
    (hperm : worker.outstanding.Perm [operation])
    (hdoing : worker.Doing phase operation) :
    ∃ phase', Leads parse docRoot worker.socket (worker.checkDeadline now).2
      (worker.checkDeadline now).1 phase phase' := by
  have hwait : (worker.outstanding ++ [Operation.wait]).Perm
      [operation, .wait] := hperm.append_right [.wait]
  rw [Worker.checkDeadline]
  split_ifs with hdeadline
  · refine ⟨after worker.socket phase fun _ => .closed, ?_⟩
    apply leads_after [.expired now]
    · exact fun connection => actions_entry connection worker _
    · intro connection hsocket
      rw [run, hdoing.advance_expired hsocket hdeadline]
      rfl
    · exact Or.inr ⟨rfl, fun _ _ hlive => hlive⟩
    · exact ⟨operation, hwait,
        hdoing.of_disconnected rfl hdoing.buffer rfl rfl⟩
  · refine ⟨after worker.socket phase id, ?_⟩
    apply leads_after []
    · exact fun connection => (ite_self _).symm
    · exact fun _ _ => rfl
    · exact Or.inl rfl
    · have hsound : (worker.start .wait).Sound phase :=
        ⟨operation, hwait, hdoing.holds, hdoing.buffer, hdoing.string,
          hdoing.file, hdoing.ne_wait⟩
      exact hsound.congr fun connection _ => ite_self _

/-- The end of a write, with an error or without one. -/
theorem Worker.write_leads (hperm : worker.outstanding.Perm [.wait])
    (hdoing : worker.Doing phase operation)
    (hwrite : operation = .writeString ∨ operation = .writeFile)
    (hsocket : next.socket = worker.socket)
    (houtstanding : next.outstanding = worker.outstanding)
    (hstring : next.stringResponse = none)
    (hfile : next.fileResponse = none) :
    ∃ phase', Leads parse docRoot worker.socket next.accept.2 next.accept.1
      phase phase' := by
  rw [← hsocket]
  rw [← houtstanding] at hperm
  refine ⟨_, Worker.accept_leads hperm hstring hfile
    fun connection hheld => ?_⟩
  obtain ⟨since, hphase, -⟩ :=
    hdoing.holds connection (hsocket.symm.trans hheld)
  rcases hwrite with rfl | rfl <;>
    (rw [← Option.some.inj hphase]; rfl)

theorem Worker.Doing.socket_eq_none (hdoing : worker.Doing phase .accept) :
    worker.socket = none := by
  rw [Option.eq_none_iff_forall_ne_some]
  intro connection hsocket
  obtain ⟨since, hphase, -⟩ := hdoing.holds connection hsocket
  exact Option.some_ne_none _ hphase.symm

/-- A connection that is accepted was not known before. -/
theorem Worker.connect_leads (now : ℕ)
    (hperm : worker.outstanding.Perm [.wait])
    (hdoing : worker.Doing phase .accept)
    (hfresh : phase connection = .unknown) :
    ∃ phase', Leads parse docRoot worker.socket
      (worker.handle parse docRoot now (.accept (some connection))).2
      (worker.handle parse docRoot now (.accept (some connection))).1
      phase phase' := by
  have hsocket := hdoing.socket_eq_none
  have hstring := hdoing.stringResponse_eq_none Operation.noConfusion
  have hfile := hdoing.fileResponse_eq_none Operation.noConfusion
  refine ⟨Function.update phase connection (.opened now), ?_, ?_, ?_, ?_, ?_⟩
  · intro other
    by_cases heq : other = connection
    · subst heq
      simp [Worker.handle, actions, run, advance, hfresh]
    · simp [Worker.handle, actions, Ne.symm heq, heq]
  · refine ⟨.read, perm_start hperm .read, ?_, ?_, ?_, ?_, ?_⟩
    · intro other hother
      obtain rfl := Option.some.inj hother
      exact ⟨now, by rw [Function.update_self]; rfl, rfl⟩
    · exact fun _ => hdoing.buffer (Or.inl rfl)
    · simp [Worker.handle, Worker.readRequest, Worker.start, hstring]
    · simp [Worker.handle, Worker.readRequest, Worker.start, hfile]
    · simp
  · intro other hother
    obtain rfl := Option.some.inj hother
    exact Or.inr hfresh
  · intro other hother
    rw [hsocket] at hother
    exact absurd hother.symm (Option.some_ne_none _)
  · intro other _ hother
    exact Function.update_of_ne (fun heq => hother (congrArg some heq.symm)) _ _

/-- Every completion handler leads on. -/
theorem Worker.Doing.handle_leads (hdoing : worker.Doing phase operation)
    (now : ℕ) (completion : Completion)
    (hmem : completion.operation ∈ [operation, .wait])
    (hperm : worker.outstanding.Perm
      ([operation, .wait].erase completion.operation))
    (hfresh : ∀ connection ∈ completion.connection,
      phase connection = .unknown) :
    ∃ phase', Leads parse docRoot worker.socket
      (worker.handle parse docRoot now completion).2
      (worker.handle parse docRoot now completion).1 phase phase' := by
  -- unless the timer fires, the operation in progress completes
  by_cases hwait : completion.operation = .wait
  · rw [hwait, List.erase_cons_tail (by simpa using hdoing.ne_wait)] at hperm
    cases completion with
    | wait => exact Worker.wait_leads now hperm hdoing
    | accept connection => exact Operation.noConfusion hwait
    | read received error opens => exact Operation.noConfusion hwait
    | writeString => exact Operation.noConfusion hwait
    | writeFile => exact Operation.noConfusion hwait
  · have heq : completion.operation = operation := by
      simpa [hwait] using hmem
    subst heq
    rw [List.erase_cons_head] at hperm
    cases completion with
    | wait => exact absurd rfl hwait
    | read received error opens =>
        exact Worker.read_leads now received error opens hperm hdoing
    | writeString =>
        exact Worker.write_leads hperm hdoing (Or.inl rfl) rfl rfl rfl
          (hdoing.fileResponse_eq_none Operation.noConfusion)
    | writeFile =>
        exact Worker.write_leads hperm hdoing (Or.inr rfl) rfl rfl
          (hdoing.stringResponse_eq_none Operation.noConfusion) rfl
    | accept connection =>
        cases connection with
        | some connection =>
            exact Worker.connect_leads now hperm hdoing
              (hfresh connection rfl)
        | none =>
            refine ⟨_, Worker.accept_leads hperm
              (hdoing.stringResponse_eq_none Operation.noConfusion)
              (hdoing.fileResponse_eq_none Operation.noConfusion)
              fun connection hsocket => ?_⟩
            rw [hdoing.socket_eq_none] at hsocket
            exact absurd hsocket.symm (Option.some_ne_none _)

end Workers

section Servers

variable {n : ℕ} {parse : ByteString → Option (Request × ByteString)}
  {docRoot : ByteString} {server next : Server n} {phase : ℕ → Phase}

/-- The log has passed the monitor, and the workers hold the connections that
are open, each by one of them. -/
structure Server.Sound (parse : ByteString → Option (Request × ByteString))
    (docRoot : ByteString) (server : Server n) (phase : ℕ → Phase) : Prop where
  follows : ∀ connection,
    run (advance parse docRoot) .unknown (actions connection server.log) =
      some (phase connection)
  workers : ∀ i, (server.workers i).Sound phase
  held : ∀ connection, (phase connection).Live →
    ∃ i, (server.workers i).socket = some connection
  distinct : ∀ i j connection,
    (server.workers i).socket = some connection →
    (server.workers j).socket = some connection → i = j

theorem Server.sound_start :
    (Server.start n).Sound parse docRoot fun _ => .unknown where
  follows _ := rfl
  workers _ := ⟨.accept, List.Perm.refl _, by
    constructor <;>
      simp [Server.start, Worker.started, Worker.accept, Worker.checkDeadline,
        Worker.start]⟩
  held _ hlive := hlive.elim
  distinct _ _ _ hsocket := absurd hsocket (Option.some_ne_none _).symm

theorem Server.Sound.live (hsound : server.Sound parse docRoot phase)
    {i : Fin n} {connection : ℕ}
    (hsocket : (server.workers i).socket = some connection) :
    (phase connection).Live := by
  obtain ⟨operation, -, hdoing⟩ := hsound.workers i
  exact hdoing.live hsocket

/-- A worker leads on, and the others stay as they are. -/
theorem Server.Sound.update (hsound : server.Sound parse docRoot phase)
    {i : Fin n} {worker : Worker} {entries : List Entry}
    {phase' : ℕ → Phase}
    (hleads : Leads parse docRoot (server.workers i).socket worker entries
      phase phase') :
    Server.Sound parse docRoot
      { server with
        workers := Function.update server.workers i worker
        log := server.log ++ entries } phase' := by
  -- no other worker holds a connection that this one held or accepts
  have hother {j : Fin n} {connection : ℕ} (hne : j ≠ i)
      (hsocket : (server.workers j).socket = some connection) :
      (server.workers i).socket ≠ some connection ∧
        worker.socket ≠ some connection := by
    have hdistinct : (server.workers i).socket ≠ some connection :=
      fun hheld => hne (hsound.distinct j i connection hsocket hheld)
    refine ⟨hdistinct, fun hworker => ?_⟩
    rcases hleads.opened connection hworker with hheld | hunknown
    · exact hdistinct hheld
    · have hlive := hsound.live hsocket
      rw [hunknown] at hlive
      exact hlive
  refine ⟨fun connection => ?_, fun j => ?_, fun connection hlive => ?_,
    fun j k connection hj hk => ?_⟩
  · rw [actions_append, run_append, hsound.follows]
    exact hleads.follows connection
  · dsimp only
    by_cases hne : j = i
    · subst hne
      rw [Function.update_self]
      exact hleads.sound
    · rw [Function.update_of_ne hne]
      refine (hsound.workers j).congr fun connection hsocket => ?_
      obtain ⟨hheld, hworker⟩ := hother hne hsocket
      exact hleads.frame connection hheld hworker
  · dsimp only
    by_cases hheld : (server.workers i).socket = some connection
    · refine ⟨i, ?_⟩
      rw [Function.update_self]
      exact hleads.live connection hheld hlive
    · by_cases hworker : worker.socket = some connection
      · exact ⟨i, by rw [Function.update_self]; exact hworker⟩
      · rw [hleads.frame connection hheld hworker] at hlive
        obtain ⟨j, hj⟩ := hsound.held connection hlive
        have hne : j ≠ i := by
          rintro rfl
          exact hheld hj
        exact ⟨j, by rw [Function.update_of_ne hne]; exact hj⟩
  · dsimp only at hj hk
    by_cases hji : j = i <;> by_cases hki : k = i
    · rw [hji, hki]
    · subst hji
      rw [Function.update_self] at hj
      rw [Function.update_of_ne hki] at hk
      exact absurd hj (hother hki hk).2
    · subst hki
      rw [Function.update_self] at hk
      rw [Function.update_of_ne hji] at hj
      exact absurd hk (hother hji hj).2
    · rw [Function.update_of_ne hji] at hj
      rw [Function.update_of_ne hki] at hk
      exact hsound.distinct j k connection hj hk

theorem Server.Sound.step {event : Event n}
    (hsound : server.Sound parse docRoot phase)
    (hstep : HttpWorker.step parse docRoot server event = some next) :
    ∃ phase', next.Sound parse docRoot phase' := by
  cases event with
  | tick =>
      obtain rfl := Option.some.inj hstep
      exact ⟨phase, hsound.follows, hsound.workers, hsound.held,
        hsound.distinct⟩
  | complete i completion =>
      rw [HttpWorker.step] at hstep
      split_ifs at hstep with henabled
      obtain rfl := Option.some.inj hstep
      obtain ⟨houtstanding, hnew⟩ := henabled
      have hfresh : ∀ connection ∈ completion.connection,
          phase connection = .unknown := by
        intro connection hmem
        have hfollows := hsound.follows connection
        rw [hnew connection hmem] at hfollows
        exact (Option.some.inj hfollows).symm
      obtain ⟨operation, hperm, hdoing⟩ := hsound.workers i
      have hleft : Worker.Doing { server.workers i with
          outstanding := (server.workers i).outstanding.erase
            completion.operation } phase operation :=
        ⟨hdoing.holds, hdoing.buffer, hdoing.string, hdoing.file,
          hdoing.ne_wait⟩
      obtain ⟨phase', hleads⟩ := hleft.handle_leads server.now completion
        (hperm.mem_iff.mp houtstanding) (hperm.erase _) hfresh
      exact ⟨phase', hsound.update hleads⟩

theorem Server.sound_of_run {events : List (Event n)}
    (hrun : run (step parse docRoot) (Server.start n) events = some server) :
    ∃ phase, server.Sound parse docRoot phase := by
  refine run_invariant (fun server => ∃ phase, server.Sound parse docRoot phase)
    (fun _ _ _ hsound hstep => ?_) ⟨_, Server.sound_start⟩ hrun
  obtain ⟨phase, hsound⟩ := hsound
  exact hsound.step hstep

def onePage (bytes : ByteString) : Option (Request × ByteString) :=
  if bytes = ascii "GET /a.txt HTTP/1.1\r\n\r\n" then
    some (⟨.get, ascii "/a.txt", []⟩, [])
  else none

/-- Two clients connect.  One gets a page, and another client takes its place;
the other one sends nothing for a minute.  Then the third client asks for the
page. -/
def visits : List (Event 2) :=
  let first : Fin 2 := ⟨0, Nat.zero_lt_two⟩
  let second : Fin 2 := ⟨1, Nat.one_lt_two⟩
  [.complete first (.accept (some 7)), .complete second (.accept (some 8)),
    .complete first
      (.read (ascii "GET /a.txt HTTP/1.1\r\n\r\n") false true),
    .complete first .writeFile, .complete first (.accept (some 9))] ++
  List.replicate 60 .tick ++
  [.complete second .wait, .complete first
    (.read (ascii "GET /a.txt HTTP/1.1\r\n\r\n") false true)]

theorem exists_visits : ∃ server,
    run (step onePage (ascii "/srv")) (Server.start 2) visits = some server :=
  Option.isSome_iff_exists.mp (by decide +kernel)

/-- In every run of the workers, each connection passes the monitor: it is
accepted once, answered at most once and according to the bytes that came from
it, closed once, and not for its deadline before a minute has passed.  A
connection that is open is held by exactly one worker. -/
theorem connections_pass {events : List (Event n)}
    (hrun : run (step parse docRoot) (Server.start n) events = some server) :
    ∃ phase : ℕ → Phase, ∀ connection,
      run (advance parse docRoot) .unknown (actions connection server.log) =
          some (phase connection) ∧
        ((phase connection).Live ↔
          ∃! i, (server.workers i).socket = some connection) := by
  obtain ⟨phase, hsound⟩ := Server.sound_of_run hrun
  refine ⟨phase, fun connection => ⟨hsound.follows connection, ?_⟩⟩
  constructor
  · intro hlive
    obtain ⟨i, hi⟩ := hsound.held connection hlive
    exact ⟨i, hi, fun j hj => hsound.distinct j i connection hj hi⟩
  · rintro ⟨i, hi, -⟩
    exact hsound.live hi

/-- Two connections have been closed, and the third one is held by a worker. -/
theorem connections_pass_visits :
    ∃ (server : Server 2) (phase : ℕ → Phase),
      run (step onePage (ascii "/srv")) (Server.start 2) visits =
          some server ∧
        phase 7 = .closed ∧ phase 8 = .closed ∧ (phase 9).Live ∧
        ∀ connection,
          run (advance onePage (ascii "/srv")) .unknown
              (actions connection server.log) = some (phase connection) ∧
            ((phase connection).Live ↔
              ∃! i, (server.workers i).socket = some connection) := by
  obtain ⟨server, hrun⟩ := exists_visits
  obtain ⟨phase, hpass⟩ := connections_pass hrun
  have hphase {connection : ℕ} {reached : Phase}
      (hreached : ((run (step onePage (ascii "/srv")) (Server.start 2)
        visits).bind fun server => run (advance onePage (ascii "/srv"))
          .unknown (actions connection server.log)) = some reached) :
      phase connection = reached := by
    rw [hrun, Option.bind_some, (hpass connection).1] at hreached
    exact Option.some.inj hreached
  have hfirst : phase 7 = .closed := hphase (by decide +kernel)
  have hsecond : phase 8 = .closed := hphase (by decide +kernel)
  have hthird : phase 9 = .answered 0 := hphase (by decide +kernel)
  refine ⟨server, phase, hrun, hfirst, hsecond, ?_, hpass⟩
  rw [hthird]
  trivial

/-- Every worker has one operation outstanding beside its timer.  While a
response is being written it is there, and it is gone afterwards; while the
worker waits for a connection it holds none, and nothing is left in the
buffer. -/
theorem one_operation_outstanding {events : List (Event n)}
    (hrun : run (step parse docRoot) (Server.start n) events = some server)
    (i : Fin n) :
    ∃ operation ≠ Operation.wait,
      (server.workers i).outstanding.Perm [operation, .wait] ∧
        ((server.workers i).stringResponse.isSome ↔
          operation = .writeString) ∧
        ((server.workers i).fileResponse.isSome ↔ operation = .writeFile) ∧
        (operation = .accept →
          (server.workers i).socket = none ∧
            (server.workers i).buffer = []) := by
  obtain ⟨phase, hsound⟩ := Server.sound_of_run hrun
  obtain ⟨operation, hperm, hdoing⟩ := hsound.workers i
  refine ⟨operation, hdoing.ne_wait, hperm, hdoing.string, hdoing.file, ?_⟩
  rintro rfl
  exact ⟨hdoing.socket_eq_none, hdoing.buffer (Or.inl rfl)⟩

/-- The first worker is writing the page, the second one is reading from a
connection that has been closed. -/
theorem one_operation_outstanding_visits : ∃ server : Server 2,
    run (step onePage (ascii "/srv")) (Server.start 2) visits = some server ∧
      ∀ i, ∃ operation ≠ Operation.wait,
        (server.workers i).outstanding.Perm [operation, .wait] ∧
          ((server.workers i).stringResponse.isSome ↔
            operation = .writeString) ∧
          ((server.workers i).fileResponse.isSome ↔
            operation = .writeFile) ∧
          (operation = .accept →
            (server.workers i).socket = none ∧
              (server.workers i).buffer = []) := by
  obtain ⟨server, hrun⟩ := exists_visits
  exact ⟨server, hrun, one_operation_outstanding hrun⟩

/-! ## Files -/

/-- A path that `send_file` opens. -/
def Opened (docRoot path : ByteString) : Prop :=
  ∃ target, [47] <+: target ∧ ¬ [46, 46] <:+: target ∧
    path = cString (docRoot ++ target)

theorem Worker.open_notMem_entry (worker : Worker) (action : Action)
    (path : ByteString) : .open path ∉ worker.entry action := by
  cases hsocket : worker.socket <;> simp [Worker.entry, hsocket]

theorem Worker.opened_of_sendFile {worker : Worker} {target path : ByteString}
    {opens : Bool}
    (hmem : .open path ∈ (worker.sendFile docRoot target opens).1) :
    Opened docRoot path := by
  rw [Worker.sendFile] at hmem
  split_ifs at hmem with hunsafe hopens
  · exact absurd hmem (Worker.open_notMem_entry _ _ _)
  · obtain ⟨hhead, hdots⟩ := (safe_iff target).mp hunsafe
    rcases List.mem_cons.mp hmem with heq | hrest
    · exact ⟨target, hhead, hdots, by injection heq⟩
    · exact absurd hrest (Worker.open_notMem_entry _ _ _)
  · obtain ⟨hhead, hdots⟩ := (safe_iff target).mp hunsafe
    rcases List.mem_cons.mp hmem with heq | hrest
    · exact ⟨target, hhead, hdots, by injection heq⟩
    · exact absurd hrest (Worker.open_notMem_entry _ _ _)

theorem Worker.opened_of_processRequest {worker : Worker} {request : Request}
    {path : ByteString} {opens : Bool}
    (hmem : .open path ∈ (worker.processRequest docRoot request opens).1) :
    Opened docRoot path := by
  obtain ⟨method, target, body⟩ := request
  cases method with
  | get => exact Worker.opened_of_sendFile hmem
  | post =>
      rcases List.mem_cons.mp hmem with heq | hrest
      · exact Entry.noConfusion heq
      · exact absurd hrest (Worker.open_notMem_entry _ _ _)
  | other => exact absurd hmem (Worker.open_notMem_entry _ _ _)

theorem Worker.opened_of_handle {worker : Worker} {now : ℕ}
    {completion : Completion} {path : ByteString}
    (hmem : .open path ∈ (worker.handle parse docRoot now completion).1) :
    Opened docRoot path := by
  cases completion with
  | accept connection =>
      cases connection with
      | none => exact absurd hmem (Worker.open_notMem_entry _ _ _)
      | some connection =>
          exact Entry.noConfusion (List.mem_singleton.mp hmem)
  | read received error opens =>
      simp only [Worker.handle] at hmem
      split at hmem
      · exact absurd hmem (Worker.open_notMem_entry _ _ _)
      · rcases List.mem_append.mp hmem with hreceived | hprocess
        · exact absurd hreceived (Worker.open_notMem_entry _ _ _)
        · exact Worker.opened_of_processRequest hprocess
  | writeString => exact absurd hmem (Worker.open_notMem_entry _ _ _)
  | writeFile => exact absurd hmem (Worker.open_notMem_entry _ _ _)
  | wait =>
      simp only [Worker.handle, Worker.checkDeadline] at hmem
      split_ifs at hmem
      · exact absurd hmem (Worker.open_notMem_entry _ _ _)
      · exact absurd hmem List.not_mem_nil

theorem opened_of_run {events : List (Event n)}
    (hrun : run (step parse docRoot) (Server.start n) events = some server)
    {path : ByteString} (hmem : .open path ∈ server.log) :
    Opened docRoot path := by
  refine run_invariant
    (fun server => ∀ path, Entry.open path ∈ server.log → Opened docRoot path)
    (fun server event next hlog hstep => ?_) (fun _ hnil => ?_) hrun path hmem
  · cases event with
    | tick =>
        obtain rfl := Option.some.inj hstep
        exact hlog
    | complete i completion =>
        rw [step] at hstep
        split_ifs at hstep
        obtain rfl := Option.some.inj hstep
        intro path hpath
        rcases List.mem_append.mp hpath with hbefore | hnew
        · exact hlog path hbefore
        · exact Worker.opened_of_handle hnew
  · exact absurd hnil List.not_mem_nil

/-- Whatever the clients ask for, the files that are opened lie below the
document root, as long as no links are followed. -/
theorem files_below_root {events : List (Event n)}
    (hrun : run (step parse docRoot) (Server.start n) events = some server)
    (hroot : 0 ∉ docRoot) (current : List ByteString) {path : ByteString}
    (hmem : .open path ∈ server.log) :
    resolve 47 46 current (docRoot ++ [47]) <+: resolve 47 46 current path := by
  obtain ⟨target, ⟨rest, rfl⟩, hdots, rfl⟩ := opened_of_run hrun hmem
  have hkept : docRoot.takeWhile (· != 0) = docRoot := by
    rw [List.takeWhile_eq_self_iff]
    intro byte hbyte
    simp only [bne_iff_ne, ne_eq]
    rintro rfl
    exact hroot hbyte
  have hpath : cString (docRoot ++ ([47] ++ rest)) =
      docRoot ++ 47 :: rest.takeWhile (· != 0) := by
    rw [cString, List.takeWhile_append, hkept]
    simp
  rw [hpath]
  refine resolve_prefix current docRoot fun hinfix => hdots ?_
  have hrest : rest.takeWhile (· != 0) <:+: [47] ++ rest :=
    (List.takeWhile_prefix _).isInfix.trans (List.suffix_append _ _).isInfix
  exact hinfix.trans hrest

/-- The page is a file below the root. -/
theorem files_below_root_page : ∃ server : Server 2,
    run (step onePage (ascii "/srv")) (Server.start 2) visits = some server ∧
      ∀ path, Entry.open path ∈ server.log →
        resolve 47 46 [] (ascii "/srv" ++ [47]) <+: resolve 47 46 [] path := by
  obtain ⟨server, hrun⟩ := exists_visits
  exact ⟨server, hrun, fun path hmem =>
    files_below_root hrun (by decide) [] hmem⟩

end Servers

end KataCpp.HttpWorker
