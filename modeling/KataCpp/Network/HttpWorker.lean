import KataCpp.Core.PathResolution
import KataCpp.Core.SubstringSearch
import KataCpp.Core.TransitionSystem
import KataCpp.Text.WordBank

/-!
# The workers of the log server

A worker accepts a connection, reads one request, writes one response and
closes the connection.  Each of these steps is an asynchronous operation whose
completion handler starts the next one.  Beside it a timer is waiting, which
closes the socket when the deadline of the connection has passed.  The workers
share one acceptor and one thread, and the operations may complete in any
order.

`parse` stands for the parser of the HTTP library: it takes a request off the
front of what has been read, or fails.  The pool of 8192 bytes from which a
worker's parser and responses take their header fields is left out, and with it
the `bad_alloc` that it throws when they do not fit.
-/

namespace KataCpp.HttpWorker

open Bytes PathResolution SubstringSearch TransitionSystem

/-- `rfind`: the greatest index at which the character stands. -/
def rfind (text : ByteString) (char : UInt8) : Option ℕ :=
  (List.range text.length).reverse.find? fun index =>
    text[index]? = some char

def iequals (left right : ByteString) : Bool :=
  left.map toLower == right.map toLower

/-- The extensions that `mime_type` compares with, in this order. -/
def mimeTypes : List (String × String) :=
  [(".htm", "text/html"), (".html", "text/html"), (".php", "text/html"),
    (".css", "text/css"), (".txt", "text/plain"),
    (".js", "application/javascript"), (".json", "application/json"),
    (".xml", "application/xml"), (".swf", "application/x-shockwave-flash"),
    (".flv", "video/x-flv"), (".png", "image/png"), (".jpe", "image/jpeg"),
    (".jpeg", "image/jpeg"), (".jpg", "image/jpeg"), (".gif", "image/gif"),
    (".bmp", "image/bmp"), (".ico", "image/vnd.microsoft.icon"),
    (".tiff", "image/tiff"), (".tif", "image/tiff"),
    (".svg", "image/svg+xml"), (".svgz", "image/svg+xml")]

def mimeType (path : ByteString) : ByteString :=
  let ext := match rfind path 46 with
    | none => []
    | some pos => path.drop pos
  match mimeTypes.find? fun entry => iequals ext (ascii entry.1) with
  | some entry => ascii entry.2
  | none => ascii "application/text"

inductive Method where
  | get
  | post
  | other
  deriving DecidableEq

structure Request where
  method : Method
  target : ByteString
  body : ByteString
  deriving DecidableEq

inductive Status where
  | ok
  | badRequest
  | notFound
  deriving DecidableEq

/-- A response with a body of text, or with an open file, given by its path. -/
structure Response where
  status : Status
  keepAlive : Bool
  server : ByteString
  contentType : ByteString
  body : ByteString ⊕ ByteString
  deriving DecidableEq

/-- The operations whose completion handlers the worker has passed on. -/
inductive Operation where
  | accept
  | read
  | writeString
  | writeFile
  | wait
  deriving DecidableEq

/-- A worker; `deadline` is `none` for the largest point in time. -/
structure Worker where
  socket : Option ℕ
  buffer : ByteString
  deadline : Option ℕ
  stringResponse : Option Response
  fileResponse : Option Response
  outstanding : List Operation

inductive Action where
  | accepted (since : ℕ)
  | received (bytes : ByteString)
  | answered (response : Response)
  | closed
  | expired (now : ℕ)
  deriving DecidableEq

/-- What a worker does: with a connection, opening a file, or writing a line to
the log. -/
inductive Entry where
  | on (connection : ℕ) (action : Action)
  | open (path : ByteString)
  | info (body : ByteString)
  deriving DecidableEq

/-- An action on the socket, if it is open. -/
def Worker.entry (worker : Worker) (action : Action) : List Entry :=
  (worker.socket.map fun connection => Entry.on connection action).toList

def Worker.start (worker : Worker) (operation : Operation) : Worker :=
  { worker with outstanding := worker.outstanding ++ [operation] }

/-- `accept`, which closes the previous connection. -/
def Worker.accept (worker : Worker) : List Entry × Worker :=
  (worker.entry .closed,
    { worker with socket := none, buffer := [] }.start .accept)

def Worker.readRequest (worker : Worker) : Worker := worker.start .read

def Worker.sendHttpResponse (worker : Worker) (status : Status)
    (error : ByteString) : List Entry × Worker :=
  let response : Response := {
    status := status
    keepAlive := false
    server := ascii "Beast"
    contentType := ascii "text/plain"
    body := .inl error }
  (worker.entry (.answered response),
    { worker with stringResponse := some response }.start .writeString)

/-- `send_file`; `opens` says whether the file can be opened. -/
def Worker.sendFile (docRoot : ByteString) (worker : Worker)
    (target : ByteString) (opens : Bool) : List Entry × Worker :=
  if target = [] ∨ target.head? ≠ some 47 ∨
      find target (ascii "..") 0 ≠ none then
    worker.sendHttpResponse .notFound (ascii "File not found\r\n")
  else
    let fullPath := cString (docRoot ++ target)
    if opens then
      let response : Response := {
        status := .ok
        keepAlive := false
        server := ascii "Beast"
        contentType := mimeType target
        body := .inr fullPath }
      (.open fullPath :: worker.entry (.answered response),
        { worker with fileResponse := some response }.start .writeFile)
    else
      let (entries, worker) :=
        worker.sendHttpResponse .notFound (ascii "File not found\r\n")
      (.open fullPath :: entries, worker)

def Worker.processRequest (docRoot : ByteString) (worker : Worker)
    (request : Request) (opens : Bool) : List Entry × Worker :=
  match request.method with
  | .get => worker.sendFile docRoot request.target opens
  | .post =>
      let (entries, worker) := worker.sendHttpResponse .ok
        (ascii "\x7b\"code\": 0, \"desc\":\"ok\"\x7d\r\n")
      (.info request.body :: entries, worker)
  | .other => worker.sendHttpResponse .badRequest
      (ascii "\x7b\"code\": 1, \"desc\":\"invalid method\"\x7d\r\n")

/-- `check_deadline`; the timer may have been set again in the meantime. -/
def Worker.checkDeadline (worker : Worker) (now : ℕ) : List Entry × Worker :=
  if worker.deadline.any (· ≤ now) then
    (worker.entry (.expired now),
      { worker with socket := none, deadline := none }.start .wait)
  else ([], worker.start .wait)

/-- The completion of an operation: the connection that was accepted, the bytes
that were read, or an error.  A read that fails may have left bytes in the
buffer. -/
inductive Completion where
  | accept (connection : Option ℕ)
  | read (received : ByteString) (error opens : Bool)
  | writeString
  | writeFile
  | wait
  deriving DecidableEq

def Completion.operation : Completion → Operation
  | .accept _ => .accept
  | .read _ _ _ => .read
  | .writeString => .writeString
  | .writeFile => .writeFile
  | .wait => .wait

def Completion.connection : Completion → Option ℕ
  | .accept connection => connection
  | _ => none

def Worker.handle (parse : ByteString → Option (Request × ByteString))
    (docRoot : ByteString) (now : ℕ) (worker : Worker) :
    Completion → List Entry × Worker
  | .accept none => worker.accept
  | .accept (some connection) =>
      ([.on connection (.accepted now)],
        { worker with
          socket := some connection
          deadline := some (now + 60) }.readRequest)
  | .read received error opens =>
      let worker := { worker with buffer := worker.buffer ++ received }
      match if error then none else parse worker.buffer with
      | none => worker.accept
      | some (request, rest) =>
          let (entries, next) := { worker with buffer := rest }.processRequest
            docRoot request opens
          (worker.entry (.received received) ++ entries, next)
  | .writeString => { worker with stringResponse := none }.accept
  | .writeFile => { worker with fileResponse := none }.accept
  | .wait => worker.checkDeadline now

/-- The call of `start` on a new worker. -/
def Worker.started : Worker :=
  let worker : Worker := {
    socket := none
    buffer := []
    deadline := none
    stringResponse := none
    fileResponse := none
    outstanding := [] }
  (worker.accept.2.checkDeadline 0).2

/-- The workers, the time in seconds, and what they have done so far. -/
structure Server (n : ℕ) where
  workers : Fin n → Worker
  now : ℕ
  log : List Entry

def Server.start (n : ℕ) : Server n where
  workers _ := Worker.started
  now := 0
  log := []

inductive Event (n : ℕ) where
  | tick
  | complete (worker : Fin n) (completion : Completion)

def actions (connection : ℕ) (log : List Entry) : List Action :=
  log.filterMap fun
    | .on other action => if other = connection then some action else none
    | _ => none

/-- An event; an operation completes that is outstanding, and a connection that
is accepted is a new one. -/
def step {n : ℕ} (parse : ByteString → Option (Request × ByteString))
    (docRoot : ByteString) (server : Server n) : Event n → Option (Server n)
  | .tick => some { server with now := server.now + 1 }
  | .complete i completion =>
      let worker := server.workers i
      if completion.operation ∈ worker.outstanding ∧
          ∀ connection ∈ completion.connection,
            actions connection server.log = [] then
        let outcome := { worker with
          outstanding := worker.outstanding.erase completion.operation }.handle
            parse docRoot server.now completion
        some { server with
          workers := Function.update server.workers i outcome.2
          log := server.log ++ outcome.1 }
      else none

end KataCpp.HttpWorker
