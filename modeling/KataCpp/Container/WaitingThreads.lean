import KataCpp.Container.BlockingQueue
import KataCpp.Core.TimedWaiting

/-!
# Threads that share a container

Any number of threads call `enqueue` and `dequeue` of a blocking queue or of a
ring buffer.  A call waits until there is room, or an item, or its time is up;
the two condition variables wake one thread for each call that has gone on.

Whatever the interleaving, the calls take effect one after the other, and no
wakeup is lost: a thread is left waiting only if it could not go on, or if
another thread is about to look after it.
-/

namespace KataCpp

open BoundedList TimedWaiting TransitionSystem

def BoundedList.waitsFor {α : Type*} : Call α → Condition
  | .enqueue _ => .notFull
  | .dequeue _ => .notEmpty

/-! ## The blocking queue -/

namespace BlockingQueue

variable {α Thread : Type*} [Fintype Thread] [DecidableEq Thread]

def available (blocking : BlockingQueue α) : Condition → ℕ
  | .notFull => blocking.capacity - blocking.queue.length
  | .notEmpty => blocking.queue.length

/-- The calls that go on notify; a call whose time is up returns `-1`. -/
def monitor : Monitor (BlockingQueue α) (Call α) (ℤ × Option α) where
  perform := perform
  waitsFor := waitsFor
  available := available
  notifies blocking call := 0 < blocking.available (waitsFor call)

theorem perform_enqueue (blocking : BlockingQueue α) (item : α) :
    blocking.perform (.enqueue item) =
      if blocking.queue.length < blocking.capacity then
        ((0, none), { blocking with queue := blocking.queue ++ [item] })
      else ((-1, none), blocking) := by
  simp only [perform, enqueue]
  split_ifs <;> rfl

theorem monitor_lawful : (monitor : Monitor (BlockingQueue α) _ _).Lawful where
  takes blocking call := by
    cases call with
    | enqueue item =>
        simp only [monitor, waitsFor, available, perform_enqueue]
        split_ifs with hroom
        · simp only [List.length_append, List.length_singleton]
          omega
        · dsimp only
          omega
    | dequeue result =>
        cases hqueue : blocking.queue <;>
          simp [monitor, waitsFor, available, perform, dequeue, hqueue]
  adds blocking call := by
    cases call with
    | enqueue item =>
        simp only [monitor, waitsFor, available, perform_enqueue,
          Condition.other, decide_eq_true_eq, Nat.sub_pos_iff_lt]
        split_ifs with hroom
        · simp
        · exact Nat.le_add_right _ _
    | dequeue result =>
        cases hqueue : blocking.queue with
        | nil => simp [monitor, waitsFor, available, perform, dequeue, hqueue]
        | cons item rest =>
            simp only [monitor, waitsFor, available, perform, dequeue, hqueue,
              Condition.other, List.length_cons, Nat.succ_pos, decide_true,
              if_true]
            omega

/-- The items of the calls of `enqueue` that returned `0`. -/
def accepted (history : List (Call α × ℤ × Option α)) : List α :=
  history.filterMap fun
    | (.enqueue item, code, _) => if code = 0 then some item else none
    | _ => none

def delivered (history : List (Call α × ℤ × Option α)) : List α :=
  history.filterMap fun
    | (.dequeue _, code, content) => if code = 0 then content else none
    | _ => none

/-- Calls one after the other deliver what was accepted, in this order. -/
theorem accepted_eq {start final : BlockingQueue α}
    {history : List (Call α × ℤ × Option α)}
    (htrace : trace perform start (history.map Prod.fst) =
      (history.map Prod.snd, final))
    (hstart : start.queue.length ≤ start.capacity) :
    start.queue ++ accepted history = delivered history ++ final.queue ∧
      final.queue.length ≤ final.capacity ∧
      final.capacity = start.capacity := by
  induction history generalizing start with
  | nil =>
      obtain rfl : start = final := congrArg Prod.snd htrace
      exact ⟨List.append_nil _, hstart, rfl⟩
  | cons entry history ih =>
      obtain ⟨call, output⟩ := entry
      simp only [List.map_cons, trace, Prod.mk.injEq, List.cons.injEq] at htrace
      obtain ⟨⟨houtput, hrest⟩, hfinal⟩ := htrace
      have htail : trace perform (start.perform call).2
          (history.map Prod.fst) = (history.map Prod.snd, final) :=
        Prod.ext hrest hfinal
      rw [← houtput]
      cases call with
      | enqueue item =>
          rw [perform_enqueue] at htail ⊢
          split_ifs at htail ⊢ with hroom
          · obtain ⟨hitems, hlength, hcapacity⟩ :=
              ih htail (by simpa using hroom)
            refine ⟨?_, hlength, hcapacity⟩
            rw [List.append_assoc] at hitems
            exact hitems
          · exact ih htail hstart
      | dequeue result =>
          cases hqueue : start.queue with
          | nil =>
              simp only [perform, dequeue, hqueue] at htail ⊢
              have hrest := ih htail hstart
              rw [hqueue] at hrest
              exact hrest
          | cons item rest =>
              simp only [perform, dequeue, hqueue] at htail ⊢
              rw [hqueue, List.length_cons] at hstart
              obtain ⟨hitems, hlength, hcapacity⟩ :=
                ih htail (Nat.le_of_succ_le hstart)
              exact ⟨congrArg (item :: ·) hitems, hlength, hcapacity⟩

/-- Whatever any number of threads do, the calls take effect one after the
other.  The queue keeps within its capacity and delivers, in their order, the
items for which `enqueue` returned `0`.  And no wakeup is lost: where a thread
waits, there is at least one thread attending to its condition for each call
that could go on. -/
theorem concurrent_calls_deliver {capacity : ℕ}
    {events : List (Event (Call α) Thread)}
    {system : System (BlockingQueue α) (Call α) (ℤ × Option α) Thread}
    (hrun : run (step monitor) (System.start (construct capacity)) events =
      some system) :
    trace perform (construct capacity) (system.history.map Prod.fst) =
        (system.history.map Prod.snd, system.state) ∧
      accepted system.history =
        delivered system.history ++ system.state.queue ∧
      system.state.queue.length ≤ capacity ∧
      ∀ condition, system.Waits monitor condition →
        system.state.available condition ≤
          system.attending monitor condition := by
  have horder := inOrder_of_run hrun
  obtain ⟨hitems, hlength, hcapacity⟩ :=
    accepted_eq horder (Nat.zero_le capacity)
  exact ⟨horder, hitems, hlength.trans hcapacity.le,
    attended_of_run monitor_lawful _ hrun⟩

/-- One thread waits for an item, another one brings it. -/
theorem concurrent_calls_deliver_two : ∃ system,
    run (step (monitor : Monitor (BlockingQueue ℕ) _ _))
        (System.start (construct 1))
        [.enter (0 : Fin 2) (.dequeue 9), .enter 1 (.enqueue 5),
          .notify 1 (some 0)] = some system ∧
      accepted system.history =
        delivered system.history ++ system.state.queue := by
  obtain ⟨system, hrun⟩ : ∃ system,
      run (step (monitor : Monitor (BlockingQueue ℕ) _ _))
        (System.start (construct 1))
        [.enter (0 : Fin 2) (.dequeue 9), .enter 1 (.enqueue 5),
          .notify 1 (some 0)] = some system :=
    Option.isSome_iff_exists.mp (by decide +kernel)
  exact ⟨system, hrun, (concurrent_calls_deliver hrun).2.1⟩

end BlockingQueue

/-! ## The ring buffer -/

namespace RingBuffer

variable {α Thread : Type*} [Inhabited α] [Fintype Thread]
  [DecidableEq Thread]

omit [Inhabited α] in
def available (ring : RingBuffer α) : Condition → ℕ
  | .notFull => ring.capacity - ring.size
  | .notEmpty => ring.size

/-- An `enqueue` goes on when its time is up, and overwrites an item. -/
def monitor : Monitor (RingBuffer α) (Call α) (Answer α) where
  perform := perform
  waitsFor := waitsFor
  available := available
  notifies ring
    | .enqueue _ => true
    | .dequeue _ => !ring.isEmpty

omit [Inhabited α] in
theorem size_enqueue (ring : RingBuffer α) (item : α) :
    (ring.enqueue item).size =
      if ring.size = ring.capacity then ring.size else ring.size + 1 := by
  by_cases hfull : ring.size = ring.capacity <;>
    simp [enqueue, isFull, hfull]

omit [Inhabited α] in
theorem capacity_enqueue (ring : RingBuffer α) (item : α) :
    (ring.enqueue item).capacity = ring.capacity := by
  by_cases hfull : ring.size = ring.capacity <;>
    simp [enqueue, isFull, hfull]

theorem size_dequeue (ring : RingBuffer α) (result : α) :
    (ring.dequeue result).2.size = ring.size - 1 := by
  by_cases hempty : ring.size = 0 <;> simp [dequeue, isEmpty, hempty]

theorem capacity_dequeue (ring : RingBuffer α) (result : α) :
    (ring.dequeue result).2.capacity = ring.capacity := by
  by_cases hempty : ring.size = 0 <;> simp [dequeue, isEmpty, hempty]

theorem monitor_lawful : (monitor : Monitor (RingBuffer α) _ _).Lawful where
  takes ring call := by
    cases call with
    | enqueue item =>
        simp only [monitor, waitsFor, available, perform, size_enqueue,
          capacity_enqueue]
        split_ifs <;> omega
    | dequeue result =>
        simp only [monitor, waitsFor, available, perform, Prod.map,
          size_dequeue, id, le_refl]
  adds ring call := by
    cases call with
    | enqueue item =>
        simp only [monitor, waitsFor, available, perform, size_enqueue,
          Condition.other, if_true]
        split_ifs <;> omega
    | dequeue result =>
        simp only [monitor, waitsFor, available, perform, Prod.map,
          size_dequeue, capacity_dequeue, id, Condition.other, isEmpty,
          Bool.not_eq_true', beq_eq_false_iff_ne]
        split_ifs <;> omega

/-- Whatever any number of threads do, the calls take effect one after the
other and answer as those of the bounded list, whose items the buffer holds.
And no wakeup is lost. -/
theorem concurrent_calls_answer {capacity : ℕ} (hcapacity : 1 ≤ capacity)
    {events : List (Event (Call α) Thread)}
    {system : System (RingBuffer α) (Call α) (Answer α) Thread}
    (hrun : run (step monitor) (System.start (construct capacity)) events =
      some system) :
    ∃ items, trace (performOverwriting capacity) []
          (system.history.map Prod.fst) =
        (system.history.map Prod.snd, items) ∧
      system.state.getBuffer = items ∧ items.length ≤ capacity ∧
      ∀ condition, system.Waits monitor condition →
        system.state.available condition ≤
          system.attending monitor condition := by
  have horder : trace perform (construct capacity)
      (system.history.map Prod.fst) =
        (system.history.map Prod.snd, system.state) := inOrder_of_run hrun
  obtain ⟨hanswers, hfinal⟩ :=
    trace_refines perform (performOverwriting capacity)
      (fun _ _ call h => perform_refines h call)
      (represents_construct hcapacity) (system.history.map Prod.fst)
  rw [horder] at hanswers hfinal
  refine ⟨_, Prod.ext hanswers.symm rfl, ?_, ?_,
    attended_of_run monitor_lawful _ hrun⟩
  · exact (hfinal.scan_eq _).trans (List.filter_true _)
  · rw [hfinal.length]
    exact hfinal.size_le

/-- A second item is put in when the time is up, and overwrites the first. -/
theorem concurrent_calls_answer_two : ∃ system items,
    run (step (monitor : Monitor (RingBuffer ℕ) _ _))
        (System.start (construct 1))
        [.enter (0 : Fin 2) (.enqueue 5), .enter 1 (.enqueue 6),
          .notify 0 none, .wake 1 true, .retry 1] = some system ∧
      trace (performOverwriting 1) [] (system.history.map Prod.fst) =
        (system.history.map Prod.snd, items) ∧
      system.state.getBuffer = items := by
  obtain ⟨system, hrun⟩ : ∃ system,
      run (step (monitor : Monitor (RingBuffer ℕ) _ _))
        (System.start (construct 1))
        [.enter (0 : Fin 2) (.enqueue 5), .enter 1 (.enqueue 6),
          .notify 0 none, .wake 1 true, .retry 1] = some system :=
    Option.isSome_iff_exists.mp (by decide +kernel)
  obtain ⟨items, htrace, hbuffer, -⟩ := concurrent_calls_answer le_rfl hrun
  exact ⟨system, items, hrun, htrace, hbuffer⟩

end RingBuffer

end KataCpp
