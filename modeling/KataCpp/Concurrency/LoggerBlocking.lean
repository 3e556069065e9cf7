import KataCpp.Concurrency.LoggerMutex

/-!
# Where the logger blocks forever

The destructor joins the worker while it holds `m_mutex`.  A worker that has
not returned by the time the destructor acquires the mutex still has to lock it
once more, so the two end up waiting for each other.

The worker calls `wait` without a predicate.  Messages pushed while it was not
suspended, say while it drained its local queue, have already been notified
when it suspends; nothing wakes it for them.
-/

namespace KataCpp.Logger

open TransitionSystem

variable {Client Message : Type*} [DecidableEq Client]
variable {logger next : Logger Client Message} {action : Action Client Message}

/-! ## Joining under the lock -/

/-- The destructor is blocked in `join`, and the worker is blocked acquiring
the mutex. -/
def Deadlock (logger : Logger Client Message) : Prop :=
  logger.destructor = .joining ∧ logger.destructorStep = none ∧
    (logger.worker = .locking ∨ logger.worker = .waking) ∧
    logger.workerStep = none

/-- The destructor acquires the mutex only when the worker has returned. -/
def LocksAfterReturn (logger : Logger Client Message)
    (action : Action Client Message) : Prop :=
  action = .destructor → logger.destructor = .locking →
    logger.worker = .returned

/-- While the destructor holds the mutex the worker has returned. -/
def JoinsReturnedWorker (logger : Logger Client Message) : Prop :=
  logger.destructor.holdsLock = true → logger.worker = .returned

theorem Effect.joinsReturnedWorker (heffect : logger.Effect action next)
    (hguard : logger.LocksAfterReturn action)
    (hinv : logger.JoinsReturnedWorker) : next.JoinsReturnedWorker := by
  cases heffect <;> simp_all [JoinsReturnedWorker, LocksAfterReturn, setClient,
    DestructorState.holdsLock, WorkerState.notifyAll]

/-- A draining worker gets back to the top of its loop on its own. -/
theorem run_draining {localQueue : List Message}
    (hworker : logger.worker = .draining localQueue) :
    ∃ final, run step logger
        (List.replicate (localQueue.length + 1) .worker) = some final ∧
      final.worker = .locking ∧ final.destructor = logger.destructor ∧
      final.mutex = logger.mutex := by
  induction localQueue generalizing logger with
  | nil =>
      refine ⟨{ logger with worker := .locking }, ?_, rfl, rfl, rfl⟩
      simp [run, step, workerStep, hworker, processLogsHelper]
  | cons message rest ih =>
      obtain ⟨final, hrun, hfinal⟩ := @ih
        { logger with
          written := logger.written ++ [message]
          worker := .draining rest } rfl
      refine ⟨final, ?_, hfinal⟩
      rw [List.length_cons, List.replicate_succ, run_cons_eq_some]
      refine ⟨_, ?_, hrun⟩
      simp [step, workerStep, hworker, processLogsHelper]

omit [DecidableEq Client] in
theorem deadlock_of_blocked (hdestructor : logger.destructor = .joining)
    (hmutex : logger.mutex = some .destructor)
    (hworker : logger.worker = .locking ∨ logger.worker = .waking) :
    logger.Deadlock := by
  refine ⟨hdestructor, ?_, hworker, ?_⟩
  · rcases hworker with h | h <;> simp [destructorStep, hdestructor, h]
  · rcases hworker with h | h <;> simp [workerStep, hmutex, h]

/-- Once the destructor joins, a worker that has not returned runs into the
mutex that the destructor holds. -/
theorem exists_deadlock_of_joining (hdestructor : logger.destructor = .joining)
    (hmutex : logger.mutex = some .destructor)
    (hworker : logger.worker.holdsLock = false)
    (hreturned : logger.worker ≠ .returned)
    (hsuspended : logger.worker ≠ .suspended) :
    ∃ more final, run step logger more = some final ∧ final.Deadlock := by
  cases hplace : logger.worker with
  | opening =>
      refine ⟨[.worker], { logger with worker := .locking }, ?_, ?_⟩
      · simp [run, step, workerStep, hplace]
      · exact deadlock_of_blocked hdestructor hmutex (.inl rfl)
  | locking =>
      exact ⟨[], logger, rfl,
        deadlock_of_blocked hdestructor hmutex (.inl hplace)⟩
  | waking =>
      exact ⟨[], logger, rfl,
        deadlock_of_blocked hdestructor hmutex (.inr hplace)⟩
  | draining localQueue =>
      obtain ⟨final, hrun, hlocking, hsame, howner⟩ := run_draining hplace
      exact ⟨_, final, hrun, deadlock_of_blocked (hsame.trans hdestructor)
        (howner.trans hmutex) (.inl hlocking)⟩
  | suspended => exact absurd hplace hsuspended
  | returned => exact absurd hplace hreturned
  | testing => simp [hplace, WorkerState.holdsLock] at hworker
  | flushing => simp [hplace, WorkerState.holdsLock] at hworker
  | leaving => simp [hplace, WorkerState.holdsLock] at hworker
  | entering => simp [hplace, WorkerState.holdsLock] at hworker
  | swapping => simp [hplace, WorkerState.holdsLock] at hworker
  | unlocking localQueue => simp [hplace, WorkerState.holdsLock] at hworker

/-- A destructor that finds the mutex free before the worker has returned can
take it and end in a deadlock. -/
theorem exists_deadlock_of_locks_early (hmutex : logger.MutexInvariant)
    (hdestructor : logger.destructor = .locking) (hfree : logger.mutex = none)
    (hworker : logger.worker ≠ .returned) :
    ∃ more final, run step logger (.destructor :: more) = some final ∧
      final.Deadlock := by
  let joining : Logger Client Message :=
    { logger with
      mutex := some .destructor
      worker := logger.worker.notifyAll
      destructor := .joining }
  have hjoining :
      run step logger [.destructor, .destructor] = some joining := by
    simp [run, step, destructorStep, hdestructor, hfree, joining]
  have houtside : logger.worker.holdsLock = false := by
    have hnotOwner := (hmutex .worker).not.mpr (by simp [hfree])
    simpa [holdsLock] using hnotOwner
  obtain ⟨more, final, hrun, hdeadlock⟩ :=
    @exists_deadlock_of_joining _ _ _ joining rfl rfl
      (by simpa [joining] using houtside)
      (by cases hplace : logger.worker <;>
        simp_all [joining, WorkerState.notifyAll])
      (by cases hplace : logger.worker <;>
        simp_all [joining, WorkerState.notifyAll])
  refine ⟨.destructor :: more, final, ?_, hdeadlock⟩
  have happend := @run_append _ _ step logger
    [.destructor, .destructor] more
  rw [hjoining, Option.bind_some, hrun] at happend
  exact happend

/-- No state of a run is a deadlock if the destructor acquires the mutex only
after the worker has returned; and whenever it can acquire the mutex earlier,
doing so can end in a deadlock. -/
theorem deadlock_free_of_locks_after_return :
    (∀ schedule : List (Action Client Message),
      Meets step LocksAfterReturn construct schedule →
        Always step (fun logger => ¬ logger.Deadlock) construct schedule) ∧
      ∀ (schedule : List (Action Client Message))
        (logger : Logger Client Message),
        run step construct schedule = some logger →
        logger.destructor = .locking → logger.mutex = none →
        logger.worker ≠ .returned →
        ∃ more final, run step logger (.destructor :: more) = some final ∧
          final.Deadlock := by
  constructor
  · intro schedule hmeets
    refine always_of_meets JoinsReturnedWorker
      (fun _ _ _ hinv hguard hstep =>
        (step_effect hstep).joinsReturnedWorker hguard hinv)
      (fun state hinv hdeadlock => ?_)
      (by simp [JoinsReturnedWorker, construct, DestructorState.holdsLock])
      hmeets
    have hreturned := hinv (by simp [hdeadlock.1, DestructorState.holdsLock])
    rcases hdeadlock.2.2.1 with h | h <;> simp [hreturned] at h
  · intro schedule logger hrun hdestructor hfree hworker
    exact exists_deadlock_of_locks_early (reachable_mutexInvariant hrun)
      hdestructor hfree hworker

/-- A run in which the worker flushes and returns after a stop, before the
destructor is called, meets the condition and ends without a deadlock. -/
theorem deadlock_free_of_locks_after_return_early_stop :
    Always step (fun logger : Logger Unit ℕ => ¬ logger.Deadlock) construct
      [.stop, .worker, .worker, .worker, .worker, .worker, .destructor,
        .destructor, .destructor, .destructor] := by
  refine (@deadlock_free_of_locks_after_return Unit ℕ _).1 _ ?_
  simp [Meets, LocksAfterReturn, step, workerStep, destructorStep, construct,
    processLogsHelper]

/-- The worker is suspended when the destructor runs: the notification wakes
it, and it blocks on the mutex that the destructor holds while it joins. -/
theorem destructor_deadlocks :
    ∃ logger : Logger Unit ℕ,
      run step construct
          [.worker, .worker, .worker, .worker, .destructor, .destructor,
            .destructor] = some logger ∧
        logger.Deadlock :=
  ⟨_, rfl, rfl, rfl, .inr rfl, rfl⟩

/-! ## Suspending without a predicate -/

/-- The worker is suspended, nobody is about to notify it, and messages are
queued. -/
def LostWakeup (logger : Logger Client Message) : Prop :=
  logger.worker = .suspended ∧ (∀ id, logger.clients id ≠ .notifying) ∧
    logger.destructor ≠ .notifying ∧ logger.queue ≠ []

/-- The worker calls `wait` only when the queue is empty. -/
def SuspendsOnEmptyQueue (logger : Logger Client Message)
    (action : Action Client Message) : Prop :=
  action = .worker → logger.worker = .entering → logger.queue = []

omit [DecidableEq Client] in
@[simp]
theorem notifyAll_ne_suspended (state : WorkerState Message) :
    state.notifyAll ≠ .suspended := by
  cases state <;> simp [WorkerState.notifyAll]

/-- A client step that neither pushes nor notifies adds no lost wake-up. -/
theorem LostWakeup.of_setClient {id : Client} {state : ClientState Message}
    (hlost : (logger.setClient id state).LostWakeup)
    (hclient : logger.clients id ≠ .notifying) : logger.LostWakeup := by
  obtain ⟨hworker, hclients, hdestructor, hqueue⟩ := hlost
  refine ⟨hworker, fun other hother => ?_, hdestructor, hqueue⟩
  have hdifferent : other ≠ id := by
    rintro rfl
    exact hclient hother
  apply hclients other
  simpa [setClient, hdifferent] using hother

/-- A wake-up is lost only in a step in which the worker suspends although
messages are queued. -/
theorem Effect.lostWakeup (heffect : logger.Effect action next)
    (hlost : next.LostWakeup) :
    logger.LostWakeup ∨
      (action = .worker ∧ logger.worker = .entering ∧ logger.queue ≠ []) := by
  cases heffect with
  | suspends hworker => exact .inr ⟨rfl, hworker, hlost.2.2.2⟩
  | calls id message hclient =>
      exact .inl (hlost.of_setClient (by simp [hclient]))
  | clientLocks id message hclient hmutex =>
      exact .inl (hlost.of_setClient (by simp [hclient]))
  | clientUnlocks id hclient =>
      exact .inl (hlost.of_setClient (by simp [hclient]))
  | pushes id message hclient =>
      exact absurd (by simp [setClient]) (hlost.2.1 id)
  | clientNotifies id hclient => simp [LostWakeup, setClient] at hlost
  | stops => exact .inl hlost
  | destructorStops hdestructor =>
      exact .inl ⟨hlost.1, hlost.2.1, by simp [hdestructor], hlost.2.2.2⟩
  | destructorLocks => simp [LostWakeup] at hlost
  | destructorNotifies => simp [LostWakeup] at hlost
  | destructorJoins hdestructor hworker => simp [LostWakeup, hworker] at hlost
  | flushes message rest hworker => simp [LostWakeup, hworker] at hlost
  | opens => simp [LostWakeup] at hlost
  | openFails => simp [LostWakeup] at hlost
  | workerLocks => simp [LostWakeup] at hlost
  | seesStopped => simp [LostWakeup] at hlost
  | seesRunning => simp [LostWakeup] at hlost
  | leaves => simp [LostWakeup] at hlost
  | returns => simp [LostWakeup] at hlost
  | wakes => simp [LostWakeup] at hlost
  | reacquires => simp [LostWakeup] at hlost
  | swaps => simp [LostWakeup] at hlost
  | unlocks => simp [LostWakeup] at hlost
  | drains => simp [LostWakeup] at hlost
  | drained => simp [LostWakeup] at hlost

/-- Suspending on a queue that is not empty loses the wake-up: the worker held
the mutex, so nobody was between pushing and notifying. -/
theorem lostWakeup_of_suspends (hmutex : logger.MutexInvariant)
    (hworker : logger.worker = .entering) (hqueue : logger.queue ≠ [])
    (hstep : logger.step .worker = some next) : next.LostWakeup := by
  have hholds : logger.holdsLock .worker = true := by
    simp [holdsLock, hworker, WorkerState.holdsLock]
  have hothers : ∀ thread, thread ≠ .worker →
      logger.holdsLock thread ≠ true := fun thread hthread hother =>
    hthread (hmutex.exclusive hother hholds)
  simp only [step, workerStep, hworker, Option.some.injEq] at hstep
  subst next
  refine ⟨rfl, fun id hid => ?_, fun hdestructor => ?_, hqueue⟩
  · apply hothers (.client id) (by simp)
    change (logger.clients id).holdsLock = true
    rw [show logger.clients id = .notifying from hid]
    rfl
  · apply hothers .destructor (by simp)
    change logger.destructor.holdsLock = true
    rw [show logger.destructor = .notifying from hdestructor]
    rfl

/-- Along every run no state has a lost wake-up precisely when the worker
suspends only on an empty queue. -/
theorem no_lostWakeup_iff_suspendsOnEmptyQueue
    (schedule : List (Action Client Message)) :
    Always step (fun logger => ¬ logger.LostWakeup) construct schedule ↔
      Meets step SuspendsOnEmptyQueue construct schedule := by
  refine always_iff_meets MutexInvariant
    (fun _ _ _ hinv hstep => (step_effect hstep).mutexInvariant hinv)
    (fun logger action next hmutex hgood hstep => ?_)
    mutexInvariant_construct (by simp [LostWakeup, construct]) schedule
  constructor
  · rintro hnext rfl hworker
    by_contra hqueue
    exact hnext (lostWakeup_of_suspends hmutex hworker hqueue hstep)
  · intro hguard hlost
    rcases (step_effect hstep).lostWakeup hlost with hold | hsuspends
    · exact hgood hold
    · exact hsuspends.2.2 (hguard hsuspends.1 hsuspends.2.1)

/-- A message logged before the worker first locks the mutex: the notification
finds nobody, and the worker suspends on the queued message. -/
theorem wakeup_lost_before_first_wait :
    ∃ logger : Logger Unit ℕ,
      run step construct
          [.call () 1, .client (), .client (), .client (), .client (),
            .worker, .worker, .worker, .worker] = some logger ∧
        logger.LostWakeup :=
  ⟨_, rfl, rfl, fun _ => nofun, nofun, List.cons_ne_nil 1 []⟩

end KataCpp.Logger
