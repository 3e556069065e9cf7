import KataCpp.Core.TransitionSystem

/-!
# The thread pool

The workers, the clients and the destructor of `ThreadPool` meet only in the
critical sections guarded by `m_tasksque_mutex`.  `Shared` is the data those
sections protect, and its functions are the sections themselves; the system
around it interleaves them freely.  A worker suspended in `m_condition.wait`
may be woken at any time, by a notification or spuriously, and then evaluates
the predicate again under the mutex.

The ghost fields record the run: which tasks were accepted, and which worker
took which task, each in the order of the critical sections.
-/

namespace KataCpp.ThreadPool

open TransitionSystem

/-- One task object.  Every call of `addWorkFunc` makes a new one, so objects
with equal work are still told apart by their ticket. -/
structure Task (Work : Type*) where
  ticket : ℕ
  work : Work

/-- The data guarded by `m_tasksque_mutex`. -/
structure Shared (Work : Type*) where
  tasksque : List (Task Work)
  stopflag : Bool

/-- What a worker does when its critical section is over. -/
inductive Outcome (Work : Type*) where
  | waits
  | returns
  | runs (task : Task Work)

namespace Shared

variable {Work : Type*}

/-- The critical section of `addWorkFunc`. -/
def addWorkFunc (shared : Shared Work) (task : Task Work) :
    Except String (Shared Work) :=
  if shared.stopflag then .error "enqueue on stopped ThreadPool"
  else .ok { shared with tasksque := shared.tasksque ++ [task] }

/-- The critical section of a worker, from the evaluation of the predicate of
`m_condition.wait` on. -/
def workerSection (shared : Shared Work) : Outcome Work × Shared Work :=
  if shared.stopflag || !shared.tasksque.isEmpty then
    if shared.stopflag && shared.tasksque.isEmpty then (.returns, shared)
    else
      match shared.tasksque with
      | task :: rest => (.runs task, { shared with tasksque := rest })
      -- Not reached: the predicate holds and the queue is not empty.
      | [] => (.waits, shared)
  else (.waits, shared)

/-- The critical section of the destructor. -/
def setStopflag (shared : Shared Work) : Shared Work :=
  { shared with stopflag := true }

end Shared

inductive WorkerState (Work : Type*) where
  | locking
  | waiting
  | running (task : Task Work)
  | returned

/-- The destructor sets the flag, notifies all workers and joins them in the
order of their creation. -/
inductive DestructorState where
  | notCalled
  | notifying
  | joining (worker : ℕ)
  | finished

structure Pool (Work : Type*) (threads : ℕ) where
  shared : Shared Work
  workers : Fin threads → WorkerState Work
  destructor : DestructorState
  created : ℕ
  accepted : List (Task Work)
  taken : List (Fin threads × Task Work)

/-- The next step of a client, of a worker, or of the destructor. -/
inductive Action (Work : Type*) (threads : ℕ) where
  | addWorkFunc (work : Work)
  | worker (index : Fin threads)
  | destructor

variable {Work : Type*} {threads : ℕ}

/-- The constructor starts all workers. -/
def construct (threads : ℕ) : Pool Work threads where
  shared := { tasksque := [], stopflag := false }
  workers := fun _ => .locking
  destructor := .notCalled
  created := 0
  accepted := []
  taken := []

namespace Pool

def setWorker (pool : Pool Work threads) (index : Fin threads)
    (state : WorkerState Work) : Pool Work threads :=
  { pool with workers := Function.update pool.workers index state }

/-- A client makes a task object and enters its critical section. -/
def clientStep (pool : Pool Work threads) (work : Work) : Pool Work threads :=
  let task : Task Work := ⟨pool.created, work⟩
  match pool.shared.addWorkFunc task with
  | .ok shared =>
      { pool with
        shared
        created := pool.created + 1
        accepted := pool.accepted ++ [task] }
  | .error _ => { pool with created := pool.created + 1 }

def enterSection (pool : Pool Work threads) (index : Fin threads) :
    Pool Work threads :=
  match pool.shared.workerSection with
  | (.waits, shared) => { pool with shared }.setWorker index .waiting
  | (.returns, shared) => { pool with shared }.setWorker index .returned
  | (.runs task, shared) =>
      { pool with shared, taken := pool.taken ++ [(index, task)] }.setWorker
        index (.running task)

/-- A worker at the top of its loop, or woken up, enters its critical section;
a worker that has run its task goes back to the top. -/
def workerStep (pool : Pool Work threads) (index : Fin threads) :
    Option (Pool Work threads) :=
  match pool.workers index with
  | .locking => some (pool.enterSection index)
  | .waiting => some (pool.enterSection index)
  | .running _ => some (pool.setWorker index .locking)
  | .returned => none

def destructorStep (pool : Pool Work threads) : Option (Pool Work threads) :=
  match pool.destructor with
  | .notCalled =>
      some { pool with
        shared := pool.shared.setStopflag
        destructor := .notifying }
  | .notifying => some { pool with destructor := .joining 0 }
  | .joining worker =>
      if hworker : worker < threads then
        match pool.workers ⟨worker, hworker⟩ with
        | .returned => some { pool with destructor := .joining (worker + 1) }
        | _ => none
      else some { pool with destructor := .finished }
  | .finished => none

def step (pool : Pool Work threads) :
    Action Work threads → Option (Pool Work threads)
  | .addWorkFunc work => some (pool.clientStep work)
  | .worker index => pool.workerStep index
  | .destructor => pool.destructorStep

inductive Effect (pool : Pool Work threads) : Pool Work threads → Prop
  | refuses (hstop : pool.shared.stopflag = true) :
      Effect pool { pool with created := pool.created + 1 }
  | accepts (work : Work) (hstop : pool.shared.stopflag = false) :
      Effect pool
        { pool with
          shared :=
            { pool.shared with
              tasksque := pool.shared.tasksque ++ [⟨pool.created, work⟩] }
          created := pool.created + 1
          accepted := pool.accepted ++ [⟨pool.created, work⟩] }
  | waits (index : Fin threads) : Effect pool (pool.setWorker index .waiting)
  | returns (index : Fin threads) (hstop : pool.shared.stopflag = true)
      (hempty : pool.shared.tasksque = []) :
      Effect pool (pool.setWorker index .returned)
  | takes (index : Fin threads) (task : Task Work) (rest : List (Task Work))
      (hqueue : pool.shared.tasksque = task :: rest) :
      Effect pool
        ({ pool with
            shared := { pool.shared with tasksque := rest }
            taken := pool.taken ++ [(index, task)] }.setWorker
          index (.running task))
  | finishes (index : Fin threads) : Effect pool (pool.setWorker index .locking)
  | stops :
      Effect pool
        { pool with
          shared := pool.shared.setStopflag
          destructor := .notifying }
  | joins (state : DestructorState) :
      Effect pool { pool with destructor := state }

variable {pool next : Pool Work threads} {action : Action Work threads}

theorem clientStep_effect (pool : Pool Work threads) (work : Work) :
    pool.Effect (pool.clientStep work) := by
  simp only [clientStep, Shared.addWorkFunc]
  by_cases hstop : pool.shared.stopflag = true
  · rw [if_pos hstop]
    exact .refuses hstop
  · rw [if_neg hstop]
    exact .accepts work (by simpa using hstop)

/-- The three ways out of a worker's critical section. -/
theorem workerSection_cases (shared : Shared Work) :
    shared.workerSection = (.waits, shared) ∨
      (shared.stopflag = true ∧ shared.tasksque = [] ∧
        shared.workerSection = (.returns, shared)) ∨
      ∃ task rest, shared.tasksque = task :: rest ∧
        shared.workerSection =
          (.runs task, { shared with tasksque := rest }) := by
  cases hqueue : shared.tasksque with
  | nil =>
      cases hstop : shared.stopflag with
      | true =>
          exact Or.inr (Or.inl ⟨rfl, rfl, by
            simp [Shared.workerSection, hqueue, hstop]⟩)
      | false =>
          exact Or.inl (by simp [Shared.workerSection, hqueue, hstop])
  | cons task rest =>
      exact Or.inr (Or.inr ⟨task, rest, rfl, by
        simp [Shared.workerSection, hqueue]⟩)

theorem enterSection_effect (pool : Pool Work threads) (index : Fin threads) :
    pool.Effect (pool.enterSection index) := by
  obtain hwaits | ⟨hstop, hempty, hreturns⟩ | ⟨task, rest, hqueue, hruns⟩ :=
    workerSection_cases pool.shared
  · rw [enterSection, hwaits]
    exact .waits index
  · rw [enterSection, hreturns]
    exact .returns index hstop hempty
  · rw [enterSection, hruns]
    exact .takes index task rest hqueue

theorem workerStep_effect {index : Fin threads}
    (hstep : pool.workerStep index = some next) : pool.Effect next := by
  cases hworker : pool.workers index with
  | locking =>
      simp only [workerStep, hworker, Option.some.injEq] at hstep
      exact hstep ▸ enterSection_effect pool index
  | waiting =>
      simp only [workerStep, hworker, Option.some.injEq] at hstep
      exact hstep ▸ enterSection_effect pool index
  | running task =>
      simp only [workerStep, hworker, Option.some.injEq] at hstep
      exact hstep ▸ .finishes index
  | returned => simp [workerStep, hworker] at hstep

theorem destructorStep_effect (hstep : pool.destructorStep = some next) :
    pool.Effect next := by
  cases hstate : pool.destructor with
  | notCalled =>
      simp only [destructorStep, hstate, Option.some.injEq] at hstep
      exact hstep ▸ .stops
  | notifying =>
      simp only [destructorStep, hstate, Option.some.injEq] at hstep
      exact hstep ▸ .joins _
  | joining worker =>
      simp only [destructorStep, hstate] at hstep
      split at hstep
      · split at hstep
        · rw [Option.some.injEq] at hstep
          exact hstep ▸ .joins _
        · contradiction
      · rw [Option.some.injEq] at hstep
        exact hstep ▸ .joins _
  | finished => simp [destructorStep, hstate] at hstep

theorem step_effect (hstep : pool.step action = some next) :
    pool.Effect next := by
  cases action with
  | addWorkFunc work =>
      simp only [step, Option.some.injEq] at hstep
      exact hstep ▸ clientStep_effect pool work
  | worker index => exact workerStep_effect hstep
  | destructor => exact destructorStep_effect hstep

/-- What holds in every reachable state: the tasks taken, followed by the
queue, are the accepted tasks in order; accepted tasks are distinct objects;
a worker runs only tasks it took; and a worker has returned only after the
flag was set, with the queue empty. -/
structure Invariant (pool : Pool Work threads) : Prop where
  handover :
    pool.taken.map Prod.snd ++ pool.shared.tasksque = pool.accepted
  fresh : ∀ task ∈ pool.accepted, task.ticket < pool.created
  distinct : (pool.accepted.map Task.ticket).Nodup
  running : ∀ index task, pool.workers index = .running task →
    (index, task) ∈ pool.taken
  returned : ∀ index, pool.workers index = .returned →
    pool.shared.stopflag = true ∧ pool.shared.tasksque = []

theorem invariant_construct :
    (construct threads : Pool Work threads).Invariant where
  handover := rfl
  fresh := by simp [construct]
  distinct := by simp [construct]
  running := by simp [construct]
  returned := by simp [construct]

/-- A worker that changes neither queue nor history keeps the invariant if its
new state claims nothing, or claims what holds. -/
theorem Invariant.setWorker (hinv : pool.Invariant) (index : Fin threads)
    {state : WorkerState Work}
    (hrunning : ∀ task, state = .running task → (index, task) ∈ pool.taken)
    (hreturned : state = .returned →
      pool.shared.stopflag = true ∧ pool.shared.tasksque = []) :
    (pool.setWorker index state).Invariant where
  handover := hinv.handover
  fresh := hinv.fresh
  distinct := hinv.distinct
  running := by
    intro other task hother
    by_cases hsame : other = index
    · subst other
      simp only [Pool.setWorker, Function.update_self] at hother
      exact hrunning task hother
    · simp only [Pool.setWorker, Function.update_of_ne hsame] at hother
      exact hinv.running other task hother
  returned := by
    intro other hother
    by_cases hsame : other = index
    · subst other
      simp only [Pool.setWorker, Function.update_self] at hother
      exact hreturned hother
    · simp only [Pool.setWorker, Function.update_of_ne hsame] at hother
      exact hinv.returned other hother

/-- Accepting a task before the flag is set. -/
theorem Invariant.accepts (hinv : pool.Invariant) (work : Work)
    (hstop : pool.shared.stopflag = false) :
    ({ pool with
        shared :=
          { pool.shared with
            tasksque := pool.shared.tasksque ++ [⟨pool.created, work⟩] }
        created := pool.created + 1
        accepted := pool.accepted ++ [⟨pool.created, work⟩] } :
      Pool Work threads).Invariant where
  handover := by
    change pool.taken.map Prod.snd ++ (pool.shared.tasksque ++ _) = _
    rw [← List.append_assoc, hinv.handover]
  fresh := by
    intro task htask
    rcases List.mem_append.mp htask with hold | hnew
    · exact (hinv.fresh task hold).trans (Nat.lt_succ_self _)
    · simp only [List.mem_singleton] at hnew
      simp [hnew]
  distinct := by
    simp only [List.map_append, List.map_cons, List.map_nil]
    refine List.Nodup.append hinv.distinct (List.nodup_singleton _) ?_
    simp only [List.disjoint_singleton, List.mem_map]
    rintro ⟨task, htask, hticket⟩
    exact absurd (hinv.fresh task htask) (by omega)
  running := hinv.running
  returned := by
    intro index hreturned
    exact absurd (hinv.returned index hreturned).1 (by simp [hstop])

/-- Handing the front of the queue to a worker. -/
theorem Invariant.takes (hinv : pool.Invariant) (index : Fin threads)
    {task : Task Work} {rest : List (Task Work)}
    (hqueue : pool.shared.tasksque = task :: rest) :
    ({ pool with
        shared := { pool.shared with tasksque := rest }
        taken := pool.taken ++ [(index, task)] } :
      Pool Work threads).Invariant where
  handover := by
    have hhandover := hinv.handover
    rw [hqueue] at hhandover
    simpa using hhandover
  fresh := hinv.fresh
  distinct := hinv.distinct
  running := fun other held hother =>
    List.mem_append_left _ (hinv.running other held hother)
  returned := by
    intro other hother
    have hempty := (hinv.returned other hother).2
    simp [hqueue] at hempty

theorem Effect.invariant (heffect : pool.Effect next)
    (hinv : pool.Invariant) : next.Invariant := by
  cases heffect with
  | refuses hstop =>
      exact { hinv with
        fresh := fun task htask =>
          (hinv.fresh task htask).trans (Nat.lt_succ_self _) }
  | accepts work hstop => exact hinv.accepts work hstop
  | waits index => exact hinv.setWorker index (by simp) (by simp)
  | returns index hstop hempty =>
      exact hinv.setWorker index (by simp) fun _ => ⟨hstop, hempty⟩
  | takes index task rest hqueue =>
      refine (hinv.takes index hqueue).setWorker index ?_ (by simp)
      rintro held ⟨⟩
      simp
  | finishes index => exact hinv.setWorker index (by simp) (by simp)
  | stops =>
      exact { hinv with
        returned := fun index hreturned =>
          ⟨rfl, (hinv.returned index hreturned).2⟩ }
  | joins state => exact { hinv with }

theorem Invariant.nodup_handover (hinv : pool.Invariant) :
    (pool.taken.map Prod.snd ++ pool.shared.tasksque).Nodup := by
  rw [hinv.handover]
  exact List.Nodup.of_map _ hinv.distinct

/-- An accepted task is either still queued and in nobody's hands, or was
taken by exactly one worker and is queued no more. -/
theorem Invariant.queued_or_taken_once (hinv : pool.Invariant)
    {task : Task Work} (htask : task ∈ pool.accepted) :
    (task ∈ pool.shared.tasksque ∧ ∀ index, (index, task) ∉ pool.taken) ∨
      (task ∉ pool.shared.tasksque ∧
        ∃! index, (index, task) ∈ pool.taken) := by
  obtain ⟨htakenOnce, -, hdisjoint⟩ :=
    List.nodup_append.mp hinv.nodup_handover
  rw [← hinv.handover, List.mem_append] at htask
  rcases htask with htaken | hqueued
  · right
    refine ⟨fun hqueued => hdisjoint task htaken task hqueued rfl, ?_⟩
    obtain ⟨⟨index, held⟩, hmem, rfl⟩ := List.mem_map.mp htaken
    refine ⟨index, hmem, fun other hother => ?_⟩
    have heq := List.inj_on_of_nodup_map htakenOnce hother hmem rfl
    exact congrArg Prod.fst heq
  · left
    refine ⟨hqueued, fun index hmem => ?_⟩
    exact hdisjoint task (List.mem_map_of_mem hmem) task hqueued rfl

/-- Once the flag is set it stays set and nothing more is accepted. -/
theorem Effect.closed (heffect : pool.Effect next)
    (hstop : pool.shared.stopflag = true) :
    next.shared.stopflag = true ∧ next.accepted = pool.accepted := by
  cases heffect with
  | accepts work hopen => simp [hstop] at hopen
  | stops => exact ⟨rfl, rfl⟩
  | refuses => exact ⟨hstop, rfl⟩
  | waits => exact ⟨hstop, rfl⟩
  | returns => exact ⟨hstop, rfl⟩
  | takes => exact ⟨hstop, rfl⟩
  | finishes => exact ⟨hstop, rfl⟩
  | joins => exact ⟨hstop, rfl⟩

theorem run_closed {later : Pool Work threads}
    {schedule : List (Action Work threads)}
    (hstop : pool.shared.stopflag = true)
    (hrun : run step pool schedule = some later) :
    later.shared.stopflag = true ∧ later.accepted = pool.accepted := by
  refine run_invariant (fun state =>
    state.shared.stopflag = true ∧ state.accepted = pool.accepted)
    ?_ ⟨hstop, rfl⟩ hrun
  rintro state action next ⟨hstate, haccepted⟩ hstep
  obtain ⟨hnext, hsame⟩ := (step_effect hstep).closed hstate
  exact ⟨hnext, hsame.trans haccepted⟩

theorem reachable_invariant {schedule : List (Action Work threads)}
    (hrun : run step (construct threads) schedule = some pool) :
    pool.Invariant :=
  run_invariant Invariant
    (fun _ _ _ hinv hstep => (step_effect hstep).invariant hinv)
    invariant_construct hrun

/-- In every state of every run: tasks have been handed to workers in the
order in which they were accepted; each accepted task is still queued or was
taken once, by one worker; once the flag is set `addWorkFunc` throws, leaves
the queue alone, and no later state has accepted more; and when every worker
has returned the queue is empty and every accepted task has been taken. -/
theorem tasks_taken_in_order (hthreads : 1 ≤ threads)
    (schedule : List (Action Work threads))
    (hrun : run step (construct threads) schedule = some pool) :
    pool.taken.map Prod.snd ++ pool.shared.tasksque = pool.accepted ∧
      pool.taken.Nodup ∧
      (∀ task ∈ pool.accepted,
        (task ∈ pool.shared.tasksque ∧
            ∀ index, (index, task) ∉ pool.taken) ∨
          (task ∉ pool.shared.tasksque ∧
            ∃! index, (index, task) ∈ pool.taken)) ∧
      (pool.shared.stopflag = true →
        (∀ task, pool.shared.addWorkFunc task =
            .error "enqueue on stopped ThreadPool") ∧
          (∀ work, (pool.clientStep work).shared = pool.shared ∧
            (pool.clientStep work).accepted = pool.accepted) ∧
          ∀ more later, run step pool more = some later →
            later.accepted = pool.accepted) ∧
      ((∀ index, pool.workers index = .returned) →
        pool.shared.tasksque = [] ∧
          pool.taken.map Prod.snd = pool.accepted ∧
          ∀ task ∈ pool.accepted, ∃! index, (index, task) ∈ pool.taken) := by
  have hinv := reachable_invariant hrun
  have hexactlyOne := fun task =>
    @Invariant.queued_or_taken_once _ _ pool hinv task
  refine ⟨hinv.handover, ?_, hexactlyOne, fun hstop => ⟨?_, ?_, ?_⟩, ?_⟩
  · exact List.Nodup.of_map _ (List.nodup_append.mp hinv.nodup_handover).1
  · intro task
    simp [Shared.addWorkFunc, hstop]
  · intro work
    simp [clientStep, Shared.addWorkFunc, hstop]
  · intro more later hmore
    exact (run_closed hstop hmore).2
  · intro hreturned
    -- Some worker exists, and it returned on an empty queue.
    have hempty := (hinv.returned ⟨0, hthreads⟩ (hreturned _)).2
    have hhandover := hinv.handover
    rw [hempty, List.append_nil] at hhandover
    refine ⟨hempty, hhandover, fun task htask => ?_⟩
    rcases hexactlyOne task htask with ⟨hqueued, -⟩ | ⟨-, htaken⟩
    · simp [hempty] at hqueued
    · exact htaken

/-- One worker, one accepted and one refused task: the worker takes the task,
the destructor sets the flag, and the worker returns. -/
theorem tasks_taken_in_order_one_worker :
    ∃ pool : Pool ℕ 1,
      run step (construct 1)
          [.addWorkFunc 7, .worker 0, .destructor, .addWorkFunc 8, .worker 0,
            .worker 0] = some pool ∧
        pool.shared.tasksque = [] ∧
        pool.taken.map Prod.snd = pool.accepted := by
  refine ⟨_, rfl, ?_⟩
  have hdrained := (@tasks_taken_in_order ℕ 1 _ (le_refl 1)
    [.addWorkFunc 7, .worker 0, .destructor, .addWorkFunc 8, .worker 0,
      .worker 0] rfl).2.2.2.2 (by
        intro index
        rw [Subsingleton.elim index 0]
        rfl)
  exact ⟨hdrained.1, hdrained.2.1⟩

end Pool

end KataCpp.ThreadPool
