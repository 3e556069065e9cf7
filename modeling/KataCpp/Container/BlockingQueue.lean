import KataCpp.Container.RingBuffer

/-!
# The blocking queue

`BlockingQueue` bounds a `std::queue`: an `enqueue` whose wait for space timed
out gives up and returns `-1`, where the ring buffer overwrites its oldest item.
As long as nothing is enqueued on a full container the two cannot be told
apart: they stay in a simulation through the list of their items.
-/

namespace KataCpp

open BoundedList TransitionSystem

structure BlockingQueue (α : Type*) where
  queue : List α
  capacity : ℕ

namespace BlockingQueue

variable {α : Type*}

def construct (capacity : ℕ) : BlockingQueue α := { queue := [], capacity }

/-- The critical section of `enqueue` once the wait is over: on a full queue
the wait has timed out. -/
def enqueue (blocking : BlockingQueue α) (item : α) : ℤ × BlockingQueue α :=
  if blocking.queue.length < blocking.capacity then
    (0, { blocking with queue := blocking.queue ++ [item] })
  else
    (-1, blocking)

/-- The critical section of `dequeue` once the wait is over, with the return
code and the content of the caller's `result`. -/
def dequeue (blocking : BlockingQueue α) (result : α) :
    (ℤ × α) × BlockingQueue α :=
  match blocking.queue with
  | [] => ((-1, result), blocking)
  | item :: rest => ((0, item), { blocking with queue := rest })

/-- One critical section: its return code, and for `dequeue` the content of
the caller's `result`. -/
def perform (blocking : BlockingQueue α) :
    Call α → (ℤ × Option α) × BlockingQueue α
  | .enqueue item =>
      let (code, next) := blocking.enqueue item
      ((code, none), next)
  | .dequeue result =>
      let ((code, content), next) := blocking.dequeue result
      ((code, some content), next)

/-- What the queue returns where the ring buffer gives the answer: `0` for an
`enqueue`, and for a `dequeue` the same code and item. -/
def correspondingAnswer : Answer α → ℤ × Option α
  | none => (0, none)
  | some (code, content) => (code, some content)

/-- The call is no `enqueue` on a full ring buffer. -/
def HasRoom (ring : RingBuffer α) (call : Call α) : Prop :=
  ∀ item, call = .enqueue item → ring.isFull = false

variable [Inhabited α]

/-- The ring buffer and the queue have the same capacity and the same items. -/
def Agrees (capacity : ℕ) (ring : RingBuffer α)
    (blocking : BlockingQueue α) : Prop :=
  RingBuffer.Represents capacity ring blocking.queue ∧
    blocking.capacity = capacity

/-- One call with room gives corresponding answers and keeps the agreement. -/
theorem perform_agrees {capacity : ℕ} {ring : RingBuffer α}
    {blocking : BlockingQueue α} {call : Call α}
    (hagrees : Agrees capacity ring blocking) (hroom : HasRoom ring call) :
    (blocking.perform call).1 = correspondingAnswer (ring.perform call).1 ∧
      Agrees capacity (ring.perform call).2 (blocking.perform call).2 := by
  obtain ⟨hrepresents, hcapacity⟩ := hagrees
  obtain ⟨hanswer, hnext⟩ := RingBuffer.perform_refines hrepresents call
  cases call with
  | enqueue item =>
      have hfull := hroom item rfl
      rw [RingBuffer.isFull, hrepresents.capacity_eq, ← hrepresents.length,
        beq_eq_false_iff_ne] at hfull
      have hlength : blocking.queue.length < capacity := by
        apply lt_of_le_of_ne _ hfull
        rw [hrepresents.length]
        exact hrepresents.size_le
      simp only [performOverwriting, enqueueOverwriting, hlength, if_true]
        at hnext
      simp only [perform, enqueue, hcapacity, hlength, if_true]
      exact ⟨rfl, hnext, rfl⟩
  | dequeue result =>
      cases hqueue : blocking.queue with
      | nil =>
          rw [hqueue] at hanswer hnext
          rw [hanswer]
          simp only [perform, dequeue, hqueue]
          refine ⟨rfl, ?_, hcapacity⟩
          rw [hqueue]
          exact hnext
      | cons item rest =>
          rw [hqueue] at hanswer hnext
          rw [hanswer]
          simp only [perform, dequeue, hqueue]
          exact ⟨rfl, hnext, hcapacity⟩

/-- Along every sequence of calls that enqueues nothing on a full container,
after every step, the queue has returned `0` for each `enqueue` and the ring
buffer's code and item for each `dequeue`, and the contents are equal. -/
theorem perform_agrees_ringBuffer (capacity : ℕ) (hcapacity : 1 ≤ capacity)
    (calls : List (Call α))
    (hroom : CallsMeet RingBuffer.perform HasRoom
      (RingBuffer.construct capacity) calls)
    (done rest : List (Call α)) (hcalls : calls = done ++ rest) :
    let ring := trace RingBuffer.perform (RingBuffer.construct capacity) done
    let blocking := trace perform (construct capacity) done
    blocking.1 = ring.1.map correspondingAnswer ∧
      ring.2.getBuffer = blocking.2.queue := by
  intro ring blocking
  subst hcalls
  have hstart : Agrees capacity (RingBuffer.construct capacity)
      (construct capacity : BlockingQueue α) :=
    ⟨RingBuffer.represents_construct hcapacity, rfl⟩
  obtain ⟨hanswers, hfinal⟩ :=
    trace_simulates RingBuffer.perform perform (Agrees capacity)
      correspondingAnswer
      (fun _ _ _ hagrees hcall => perform_agrees hagrees hcall)
      hstart done hroom.of_append
  constructor
  · exact hanswers
  · exact (hfinal.1.scan_eq _).trans (List.filter_true _)

/-- Capacity one: the container is emptied before it is filled again. -/
theorem perform_agrees_ringBuffer_capacity_one :
    let calls : List (Call ℕ) :=
      [.enqueue 1, .dequeue 0, .dequeue 7, .enqueue 2]
    (trace perform (construct 1) calls).1 =
        (trace RingBuffer.perform (RingBuffer.construct 1) calls).1.map
          correspondingAnswer ∧
      (trace RingBuffer.perform (RingBuffer.construct 1) calls).2.getBuffer =
        (trace perform (construct 1) calls).2.queue := by
  intro calls
  apply perform_agrees_ringBuffer 1 (by decide) calls _ calls []
  · simp [calls]
  · simp [calls, CallsMeet, HasRoom, RingBuffer.perform, RingBuffer.enqueue,
      RingBuffer.dequeue, RingBuffer.construct, RingBuffer.isFull,
      RingBuffer.isEmpty]

end BlockingQueue

end KataCpp
