import KataCpp.Concurrency.Logger
import KataCpp.Core.Mutex

/-!
# Mutual exclusion in the logger

Every thread of the logger is at a place of its code where it holds `m_mutex`
or at one where it does not.  In every reachable state the owner of the mutex
is the one thread that is at a place of the first kind, so no two threads are
ever inside their critical sections together.
-/

namespace KataCpp.Logger

open TransitionSystem Mutex

variable {Client Message : Type*} [DecidableEq Client]
variable {logger next : Logger Client Message} {action : Action Client Message}

def WorkerState.holdsLock : WorkerState Message → Bool
  | .testing | .flushing | .leaving | .entering | .swapping
  | .unlocking _ => true
  | _ => false

def ClientState.holdsLock : ClientState Message → Bool
  | .pushing _ | .notifying | .unlocking => true
  | _ => false

def DestructorState.holdsLock : DestructorState → Bool
  | .notifying | .joining | .joined => true
  | _ => false

/-- Whether a thread is at a place where its code holds the mutex. -/
def holdsLock (logger : Logger Client Message) : Thread Client → Bool
  | .worker => logger.worker.holdsLock
  | .destructor => logger.destructor.holdsLock
  | .client id => (logger.clients id).holdsLock

/-- The owner of `m_mutex` is the one thread whose code holds it. -/
def MutexInvariant (logger : Logger Client Message) : Prop :=
  OwnerHolds logger.holdsLock logger.mutex

omit [DecidableEq Client] in
theorem mutexInvariant_construct :
    (construct : Logger Client Message).MutexInvariant := by
  intro thread
  cases thread <;>
    simp [construct, holdsLock, WorkerState.holdsLock, ClientState.holdsLock,
      DestructorState.holdsLock]

omit [DecidableEq Client] in
@[simp]
theorem notifyAll_holdsLock (state : WorkerState Message) :
    state.notifyAll.holdsLock = state.holdsLock := by
  cases state <;> rfl

/-- A step of the worker. -/
theorem MutexInvariant.of_worker (logger : Logger Client Message)
    (hdestructor : next.destructor = logger.destructor)
    (hclients : next.clients = logger.clients)
    (hholds : OwnerHolds
      (Function.update logger.holdsLock .worker next.worker.holdsLock)
      next.mutex) : next.MutexInvariant := by
  have hupdate : next.holdsLock =
      Function.update logger.holdsLock .worker next.worker.holdsLock := by
    funext thread
    cases thread with
    | worker => rfl
    | destructor => simp [holdsLock, hdestructor]
    | client id => simp [holdsLock, hclients]
  rw [MutexInvariant, hupdate]
  exact hholds

/-- A step of the worker within a critical section or outside of all. -/
theorem MutexInvariant.workerMoves (hinv : logger.MutexInvariant)
    {state : WorkerState Message} (hworker : logger.worker = state)
    (hplace : next.worker.holdsLock = state.holdsLock)
    (hmutex : next.mutex = logger.mutex)
    (hdestructor : next.destructor = logger.destructor)
    (hclients : next.clients = logger.clients) : next.MutexInvariant := by
  apply MutexInvariant.of_worker logger hdestructor hclients
  rw [hmutex]
  apply hinv.moves
  rw [hplace, ← hworker]
  rfl

/-- A step of the destructor, which may notify the worker. -/
theorem MutexInvariant.of_destructor (logger : Logger Client Message)
    (hworker : next.worker.holdsLock = logger.worker.holdsLock)
    (hclients : next.clients = logger.clients)
    (hholds : OwnerHolds
      (Function.update logger.holdsLock .destructor next.destructor.holdsLock)
      next.mutex) : next.MutexInvariant := by
  have hupdate : next.holdsLock = Function.update logger.holdsLock .destructor
      next.destructor.holdsLock := by
    funext thread
    cases thread with
    | worker => simpa [holdsLock] using hworker
    | destructor => rfl
    | client id => simp [holdsLock, hclients]
  rw [MutexInvariant, hupdate]
  exact hholds

/-- A step of a client, which may notify the worker. -/
theorem MutexInvariant.of_client (logger : Logger Client Message)
    {id : Client} {state : ClientState Message}
    (hworker : next.worker.holdsLock = logger.worker.holdsLock)
    (hdestructor : next.destructor = logger.destructor)
    (hclients : next.clients = Function.update logger.clients id state)
    (hholds : OwnerHolds
      (Function.update logger.holdsLock (.client id) state.holdsLock)
      next.mutex) : next.MutexInvariant := by
  have hupdate : next.holdsLock =
      Function.update logger.holdsLock (.client id) state.holdsLock := by
    funext thread
    cases thread with
    | worker => simpa [holdsLock] using hworker
    | destructor => simp [holdsLock, hdestructor]
    | client other =>
        by_cases hsame : other = id
        · simp [holdsLock, hclients, hsame]
        · simp [holdsLock, hclients, hsame]
  rw [MutexInvariant, hupdate]
  exact hholds

theorem Effect.mutexInvariant (heffect : logger.Effect action next)
    (hinv : logger.MutexInvariant) : next.MutexInvariant := by
  -- What a thread's place says about the mutex, before its step.
  have hworkerPlace : ∀ state, logger.worker = state →
      logger.holdsLock .worker = state.holdsLock := by
    rintro state rfl
    rfl
  have hclientPlace : ∀ id state, logger.clients id = state →
      logger.holdsLock (.client id) = state.holdsLock := by
    rintro id state rfl
    rfl
  have hdestructorPlace : ∀ state, logger.destructor = state →
      logger.holdsLock .destructor = state.holdsLock := by
    rintro state rfl
    rfl
  cases heffect with
  | opens hworker =>
      exact hinv.workerMoves hworker rfl rfl rfl rfl
  | openFails hworker =>
      exact hinv.workerMoves hworker rfl rfl rfl rfl
  | workerLocks hworker hmutex =>
      exact .of_worker logger rfl rfl (hinv.acquires hmutex _)
  | seesStopped hworker =>
      exact hinv.workerMoves hworker rfl rfl rfl rfl
  | seesRunning hworker =>
      exact hinv.workerMoves hworker rfl rfl rfl rfl
  | flushes message rest hworker hqueue =>
      exact hinv.workerMoves rfl rfl rfl rfl rfl
  | leaves hworker hqueue =>
      exact hinv.workerMoves hworker rfl rfl rfl rfl
  | returns hworker =>
      exact .of_worker logger rfl rfl (hinv.releases (hworkerPlace _ hworker))
  | suspends hworker =>
      exact .of_worker logger rfl rfl (hinv.releases (hworkerPlace _ hworker))
  | wakes hworker =>
      exact hinv.workerMoves hworker rfl rfl rfl rfl
  | reacquires hworker hmutex =>
      exact .of_worker logger rfl rfl (hinv.acquires hmutex _)
  | swaps hworker =>
      exact hinv.workerMoves hworker rfl rfl rfl rfl
  | unlocks localQueue hworker =>
      exact .of_worker logger rfl rfl (hinv.releases (hworkerPlace _ hworker))
  | drains message rest hworker =>
      exact hinv.workerMoves hworker rfl rfl rfl rfl
  | drained hworker =>
      exact hinv.workerMoves hworker rfl rfl rfl rfl
  | calls id message hclient =>
      exact .of_client logger rfl rfl rfl
        (hinv.moves _ (hclientPlace id _ hclient).symm)
  | clientLocks id message hclient hmutex =>
      exact .of_client logger rfl rfl rfl (hinv.acquires hmutex _)
  | pushes id message hclient =>
      exact .of_client logger rfl rfl rfl
        (hinv.moves _ (hclientPlace id _ hclient).symm)
  | clientNotifies id hclient =>
      exact .of_client logger (notifyAll_holdsLock _) rfl rfl
        (hinv.moves _ (hclientPlace id _ hclient).symm)
  | clientUnlocks id hclient =>
      exact .of_client logger rfl rfl rfl
        (hinv.releases (hclientPlace id _ hclient))
  | stops => exact hinv
  | destructorStops hdestructor =>
      exact .of_destructor logger rfl rfl
        (hinv.moves _ (hdestructorPlace _ hdestructor).symm)
  | destructorLocks hdestructor hmutex =>
      exact .of_destructor logger rfl rfl (hinv.acquires hmutex _)
  | destructorNotifies hdestructor =>
      exact .of_destructor logger (notifyAll_holdsLock _) rfl
        (hinv.moves _ (hdestructorPlace _ hdestructor).symm)
  | destructorJoins hdestructor hworker =>
      exact .of_destructor logger rfl rfl
        (hinv.moves _ (hdestructorPlace _ hdestructor).symm)

theorem reachable_mutexInvariant {schedule : List (Action Client Message)}
    (hrun : run step construct schedule = some logger) :
    logger.MutexInvariant :=
  run_invariant MutexInvariant
    (fun _ _ _ hinv hstep => (step_effect hstep).mutexInvariant hinv)
    mutexInvariant_construct hrun

end KataCpp.Logger
