import KataCpp.Concurrency.LoggerMutex

/-!
# Delivery of the logged messages

Messages move from the shared queue to the worker's local queue by a swap under
the lock, from there to the file without the lock, and after a stop from the
shared queue to the file under the lock.  None of these hand-overs loses,
duplicates or reorders a message.
-/

namespace KataCpp.Logger

open TransitionSystem

variable {Client Message : Type*} [DecidableEq Client]
variable {logger next : Logger Client Message} {action : Action Client Message}

def WorkerState.localQueue : WorkerState Message → List Message
  | .unlocking localQueue | .draining localQueue => localQueue
  | _ => []

@[simp]
theorem notifyAll_localQueue (state : WorkerState Message) :
    state.notifyAll.localQueue = state.localQueue := by
  cases state <;> rfl

/-- What was written, what the worker still has to write and what is queued
are together exactly what was logged; the worker flushes the shared queue only
after a stop, and leaves the loop with the queue empty. -/
structure DeliveryInvariant (logger : Logger Client Message) : Prop where
  conserved : logger.written ++ logger.worker.localQueue ++ logger.queue =
    logger.logged
  flushing : logger.worker = .flushing → logger.stopped = true
  leaving : logger.worker = .leaving →
    logger.stopped = true ∧ logger.queue = []

omit [DecidableEq Client] in
theorem deliveryInvariant_construct :
    (construct : Logger Client Message).DeliveryInvariant where
  conserved := rfl
  flushing := by simp [construct]
  leaving := by simp [construct]

omit [DecidableEq Client] in
/-- The worker handles messages at a place outside the final flush. -/
theorem DeliveryInvariant.of_conserved
    (hconserved : next.written ++ next.worker.localQueue ++ next.queue =
      next.logged)
    (hflushing : next.worker ≠ .flushing) (hleaving : next.worker ≠ .leaving) :
    next.DeliveryInvariant where
  conserved := hconserved
  flushing := fun h => absurd h hflushing
  leaving := fun h => absurd h hleaving

omit [DecidableEq Client] in
/-- The worker moves between two places with the same local queue, to one
outside the final flush. -/
theorem DeliveryInvariant.workerMoves (hinv : logger.DeliveryInvariant)
    {place state : WorkerState Message} {mutex : Option (Thread Client)}
    (hworker : logger.worker = place)
    (hlocal : state.localQueue = place.localQueue)
    (hflushing : state ≠ .flushing) (hleaving : state ≠ .leaving) :
    { logger with mutex, worker := state }.DeliveryInvariant := by
  apply DeliveryInvariant.of_conserved _ hflushing hleaving
  change logger.written ++ state.localQueue ++ logger.queue = logger.logged
  rw [hlocal, ← hworker]
  exact hinv.conserved

omit [DecidableEq Client] in
/-- Another thread moves, touching neither the messages nor the worker except
for a notification. -/
theorem DeliveryInvariant.keeps (hinv : logger.DeliveryInvariant)
    (hwritten : next.written = logger.written)
    (hqueue : next.queue = logger.queue) (hlogged : next.logged = logger.logged)
    (hstopped : logger.stopped = true → next.stopped = true)
    (hworker : next.worker = logger.worker ∨
      next.worker = logger.worker.notifyAll) : next.DeliveryInvariant := by
  have hlocal : next.worker.localQueue = logger.worker.localQueue := by
    rcases hworker with h | h <;> simp [h]
  have hplace : ∀ state : WorkerState Message, state ≠ .waking →
      next.worker = state → logger.worker = state := by
    rintro state hstate rfl
    rcases hworker with h | h
    · exact h.symm
    · cases hold : logger.worker <;>
        simp_all [WorkerState.notifyAll]
  refine ⟨?_, ?_, ?_⟩
  · rw [hwritten, hlocal, hqueue, hlogged]
    exact hinv.conserved
  · intro hflushing
    exact hstopped (hinv.flushing (hplace _ (by simp) hflushing))
  · intro hleaving
    have hold := hinv.leaving (hplace _ (by simp) hleaving)
    exact ⟨hstopped hold.1, hqueue.trans hold.2⟩

theorem Effect.deliveryInvariant (heffect : logger.Effect action next)
    (hmutex : logger.MutexInvariant) (hinv : logger.DeliveryInvariant) :
    next.DeliveryInvariant := by
  have hconserved := hinv.conserved
  cases heffect with
  | opens hworker =>
      exact hinv.workerMoves hworker rfl (by simp) (by simp)
  | openFails hworker =>
      exact hinv.workerMoves hworker rfl (by simp) (by simp)
  | workerLocks hworker =>
      exact hinv.workerMoves hworker rfl (by simp) (by simp)
  | seesStopped hworker hstopped =>
      rw [hworker] at hconserved
      exact ⟨hconserved, fun _ => hstopped, by simp⟩
  | seesRunning hworker =>
      exact hinv.workerMoves hworker rfl (by simp) (by simp)
  | flushes message rest hworker hqueue =>
      refine ⟨?_, fun _ => hinv.flushing hworker, by simp [hworker]⟩
      rw [hworker, hqueue] at hconserved
      simpa [hworker, WorkerState.localQueue] using hconserved
  | leaves hworker hqueue =>
      rw [hworker] at hconserved
      exact ⟨hconserved, by simp, fun _ => ⟨hinv.flushing hworker, hqueue⟩⟩
  | returns hworker =>
      exact hinv.workerMoves hworker rfl (by simp) (by simp)
  | suspends hworker =>
      exact hinv.workerMoves hworker rfl (by simp) (by simp)
  | wakes hworker =>
      exact hinv.workerMoves hworker rfl (by simp) (by simp)
  | reacquires hworker =>
      exact hinv.workerMoves hworker rfl (by simp) (by simp)
  | swaps hworker =>
      rw [hworker] at hconserved
      refine .of_conserved ?_ (by simp) (by simp)
      simpa [WorkerState.localQueue] using hconserved
  | unlocks localQueue hworker =>
      exact hinv.workerMoves hworker rfl (by simp) (by simp)
  | drains message rest hworker =>
      rw [hworker] at hconserved
      refine .of_conserved ?_ (by simp) (by simp)
      simpa [WorkerState.localQueue] using hconserved
  | drained hworker =>
      exact hinv.workerMoves hworker rfl (by simp) (by simp)
  | pushes id message hclient =>
      have hclientHolds : logger.holdsLock (.client id) = true := by
        simp [holdsLock, hclient, ClientState.holdsLock]
      refine ⟨?_, hinv.flushing, fun hleaving => ?_⟩
      · change logger.written ++ logger.worker.localQueue ++
          (logger.queue ++ [message]) = logger.logged ++ [message]
        rw [← List.append_assoc, hconserved]
      · -- The worker would hold the lock at the same time as the client.
        have hworker : logger.worker = .leaving := hleaving
        have hworkerHolds : logger.holdsLock .worker = true := by
          simp [holdsLock, hworker, WorkerState.holdsLock]
        exact absurd (hmutex.exclusive hworkerHolds hclientHolds) (by simp)
  | calls id message hclient =>
      exact hinv.keeps rfl rfl rfl (fun h => h) (.inl rfl)
  | clientLocks id message hclient hfree =>
      exact hinv.keeps rfl rfl rfl (fun h => h) (.inl rfl)
  | clientNotifies id hclient =>
      exact hinv.keeps rfl rfl rfl (fun h => h) (.inr rfl)
  | clientUnlocks id hclient =>
      exact hinv.keeps rfl rfl rfl (fun h => h) (.inl rfl)
  | stops => exact hinv.keeps rfl rfl rfl (fun _ => rfl) (.inl rfl)
  | destructorStops hdestructor =>
      exact hinv.keeps rfl rfl rfl (fun _ => rfl) (.inl rfl)
  | destructorLocks hdestructor hfree =>
      exact hinv.keeps rfl rfl rfl (fun h => h) (.inl rfl)
  | destructorNotifies hdestructor =>
      exact hinv.keeps rfl rfl rfl (fun h => h) (.inr rfl)
  | destructorJoins hdestructor hworker =>
      exact hinv.keeps rfl rfl rfl (fun h => h) (.inl rfl)

/-- In every state of every run the messages written, the rest of the worker's
local queue and the shared queue are together all logged messages, in the
order of their critical sections; and when the worker leaves its loop, which it
does because of a stop, the shared queue is empty and everything logged so far
has been written. -/
theorem messages_delivered_in_order (schedule : List (Action Client Message))
    (hrun : run step construct schedule = some logger) :
    logger.written ++ logger.worker.localQueue ++ logger.queue =
        logger.logged ∧
      (logger.worker = .leaving →
        logger.stopped = true ∧ logger.queue = [] ∧
          logger.written = logger.logged) := by
  have hinv : logger.MutexInvariant ∧ logger.DeliveryInvariant :=
    run_invariant (fun state =>
        state.MutexInvariant ∧ state.DeliveryInvariant)
      (fun _ _ _ hstate hstep =>
        ⟨(step_effect hstep).mutexInvariant hstate.1,
          (step_effect hstep).deliveryInvariant hstate.1 hstate.2⟩)
      ⟨mutexInvariant_construct, deliveryInvariant_construct⟩ hrun
  refine ⟨hinv.2.conserved, fun hleaving => ?_⟩
  obtain ⟨hstopped, hempty⟩ := hinv.2.leaving hleaving
  have hconserved := hinv.2.conserved
  rw [hleaving, hempty] at hconserved
  exact ⟨hstopped, hempty, by simpa [WorkerState.localQueue] using hconserved⟩

/-- Two clients log one message each; the worker picks up the first through
its local queue and, after a stop, flushes the second before it leaves. -/
theorem messages_delivered_in_order_two_clients :
    ∃ logger : Logger Bool ℕ,
      run step construct
          [.worker, .worker, .worker, .worker,
            .call false 1, .client false, .client false, .client false,
            .client false, .worker, .worker, .worker, .worker,
            .call true 2, .client true, .client true, .client true,
            .client true, .stop, .worker, .worker, .worker, .worker, .worker]
          = some logger ∧
        logger.written = logger.logged := by
  refine ⟨_, rfl, ?_⟩
  exact ((@messages_delivered_in_order Bool ℕ _ _
    [.worker, .worker, .worker, .worker,
      .call false 1, .client false, .client false, .client false,
      .client false, .worker, .worker, .worker, .worker,
      .call true 2, .client true, .client true, .client true,
      .client true, .stop, .worker, .worker, .worker, .worker, .worker]
    rfl).2 rfl).2.2

end KataCpp.Logger
