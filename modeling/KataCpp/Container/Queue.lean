import KataCpp.Core.CircularArray
import KataCpp.Core.TransitionSystem

/-!
# The circular queue of the exercises

`Queue` keeps `front`, `back` and `size` separately and starts with `back` at
the last slot, so that the first `enqueue` wraps to slot zero.  Every access
of `arr` is checked: a call is `none` when its subscript is outside the array.

The abstract queue is a list of at most `capacity` items.  `Represents` links
the two; its field `back_eq` ties the three indices together.
-/

namespace KataCpp

open CircularArray TransitionSystem

namespace BoundedFifo

inductive Call where
  | enqueue (x : ℤ)
  | dequeue
  | peekFront
  | peekBack
  | isEmpty
  | isFull
  deriving DecidableEq

inductive Answer where
  | flag (value : Bool)
  | item (value : ℤ)
  deriving DecidableEq

/-- A first-in first-out list that refuses items beyond its capacity. -/
def perform (capacity : ℕ) (items : List ℤ) : Call → Answer × List ℤ
  | .enqueue x =>
      if items.length < capacity then (.flag true, items ++ [x])
      else (.flag false, items)
  | .dequeue => (.item (items.headD 0), items.tail)
  | .peekFront => (.item (items.headD 0), items)
  | .peekBack => (.item (items.getLastD 0), items)
  | .isEmpty => (.flag (decide (items.length = 0)), items)
  | .isFull => (.flag (decide (items.length = capacity)), items)

end BoundedFifo

open BoundedFifo (Call Answer)

structure Queue where
  arr : List ℤ
  front : ℕ
  back : ℕ
  size : ℕ
  capacity : ℕ
  deriving DecidableEq

namespace Queue

/-- The array comes from `new int[cap]`: its cells hold anything. -/
def construct {cap : ℕ} (cells : Fin cap → ℤ) : Queue :=
  { arr := List.ofFn cells
    front := 0, back := cap - 1, size := 0, capacity := cap }

def isEmpty (queue : Queue) : Bool := queue.size == 0

def isFull (queue : Queue) : Bool := queue.size == queue.capacity

/-- `arr[index] = x`. -/
def store (queue : Queue) (index : ℕ) (x : ℤ) : Option (List ℤ) :=
  if index < queue.arr.length then some (queue.arr.set index x) else none

def enqueue (queue : Queue) (x : ℤ) : Option (Bool × Queue) :=
  if queue.isFull then some (false, queue)
  else do
    let back := (queue.back + 1) % queue.capacity
    let arr ← queue.store back x
    return (true, { queue with arr, back, size := queue.size + 1 })

def dequeue (queue : Queue) : Option (ℤ × Queue) :=
  if queue.isEmpty then some (0, queue)
  else do
    let item ← queue.arr[queue.front]?
    return (item,
      { queue with
        front := (queue.front + 1) % queue.capacity
        size := queue.size - 1 })

def peekFront (queue : Queue) : Option ℤ :=
  if queue.isEmpty then some 0 else queue.arr[queue.front]?

def peekBack (queue : Queue) : Option ℤ :=
  if queue.isEmpty then some 0 else queue.arr[queue.back]?

def perform (queue : Queue) : Call → Option (Answer × Queue)
  | .enqueue x => (queue.enqueue x).map fun (flag, next) => (.flag flag, next)
  | .dequeue => queue.dequeue.map fun (item, next) => (.item item, next)
  | .peekFront => queue.peekFront.map fun item => (.item item, queue)
  | .peekBack => queue.peekBack.map fun item => (.item item, queue)
  | .isEmpty => some (.flag queue.isEmpty, queue)
  | .isFull => some (.flag queue.isFull, queue)

/-- The queue is well formed and holds exactly `items`, oldest first. -/
structure Represents (capacity : ℕ) (queue : Queue) (items : List ℤ) :
    Prop where
  capacity_eq : queue.capacity = capacity
  length_arr : queue.arr.length = capacity
  front_lt : queue.front < capacity
  size_le : queue.size ≤ capacity
  back_eq : queue.back = (queue.front + queue.size + (capacity - 1)) % capacity
  contents_eq : contents queue.arr capacity queue.front queue.size = items

variable {capacity : ℕ} {queue : Queue} {items : List ℤ}

theorem Represents.length (h : Represents capacity queue items) :
    items.length = queue.size := by
  rw [← h.contents_eq, length_contents]

theorem represents_construct (hcapacity : 1 ≤ capacity)
    (cells : Fin capacity → ℤ) :
    Represents capacity (construct cells) [] where
  capacity_eq := rfl
  length_arr := by simp [construct]
  front_lt := hcapacity
  size_le := Nat.zero_le _
  back_eq := by
    have hlast : capacity - 1 < capacity := by omega
    simp [construct, Nat.mod_eq_of_lt hlast]
  contents_eq := rfl

theorem Represents.isEmpty_eq (h : Represents capacity queue items) :
    queue.isEmpty = decide (items.length = 0) := by
  rw [h.length]
  rfl

theorem Represents.isFull_eq (h : Represents capacity queue items) :
    queue.isFull = decide (items.length = capacity) := by
  rw [h.length, ← h.capacity_eq]
  rfl

/-- The slot after `back` is the first slot after the window. -/
theorem Represents.next_back (h : Represents capacity queue items) :
    (queue.back + 1) % queue.capacity =
      (queue.front + queue.size) % capacity := by
  have hpos : 0 < capacity := Nat.zero_lt_of_lt h.front_lt
  rw [h.back_eq, h.capacity_eq, Nat.mod_add_mod]
  have hsum : queue.front + queue.size + (capacity - 1) + 1 =
      queue.front + queue.size + capacity := by omega
  rw [hsum, Nat.add_mod_right]

/-- The slot at `back` is the last slot of a non-empty window. -/
theorem Represents.back_of_size (h : Represents capacity queue items)
    {count : ℕ} (hsize : queue.size = count + 1) :
    queue.back = (queue.front + count) % capacity := by
  have hpos : 0 < capacity := Nat.zero_lt_of_lt h.front_lt
  have hsum : queue.front + queue.size + (capacity - 1) =
      queue.front + count + capacity := by omega
  rw [h.back_eq, hsum, Nat.add_mod_right]

theorem Represents.read (h : Represents capacity queue items) {index : ℕ}
    {value : ℤ} (hindex : index < capacity)
    (hvalue : queue.arr.getD index default = value) :
    queue.arr[index]? = some value := by
  have hlength : index < queue.arr.length := h.length_arr.symm ▸ hindex
  rw [List.getD_eq_getElem _ _ hlength] at hvalue
  rw [List.getElem?_eq_getElem hlength, hvalue]

theorem enqueue_of_full (h : Represents capacity queue items)
    (hfull : items.length = capacity) (x : ℤ) :
    queue.enqueue x = some (false, queue) := by
  simp [enqueue, h.isFull_eq, hfull]

theorem enqueue_of_space (h : Represents capacity queue items)
    (hspace : items.length < capacity) (x : ℤ) :
    ∃ next, queue.enqueue x = some (true, next) ∧
      Represents capacity next (items ++ [x]) := by
  have hslot : (queue.front + queue.size) % capacity < capacity :=
    Nat.mod_lt _ (by omega)
  have hsize : queue.size < capacity := h.length ▸ hspace
  refine ⟨{ queue with
    arr := queue.arr.set ((queue.front + queue.size) % capacity) x
    back := (queue.front + queue.size) % capacity
    size := queue.size + 1 }, ?_, ?_⟩
  · simp [enqueue, h.isFull_eq, hspace.ne, h.next_back, store, h.length_arr,
      hslot]
  · constructor
    case capacity_eq => exact h.capacity_eq
    case length_arr => simpa using h.length_arr
    case front_lt => exact h.front_lt
    case size_le => exact hsize
    case back_eq =>
      have hsum : queue.front + (queue.size + 1) + (capacity - 1) =
          queue.front + queue.size + capacity := by omega
      rw [hsum, Nat.add_mod_right]
    case contents_eq =>
      rw [contents_set_append queue.front x h.length_arr hsize, h.contents_eq]

theorem dequeue_of_empty (h : Represents capacity queue []) :
    queue.dequeue = some (0, queue) := by
  simp [dequeue, h.isEmpty_eq]

theorem dequeue_of_cons {item : ℤ} {rest : List ℤ}
    (h : Represents capacity queue (item :: rest)) :
    ∃ next, queue.dequeue = some (item, next) ∧
      Represents capacity next rest := by
  have hpos : 0 < capacity := Nat.zero_lt_of_lt h.front_lt
  have hsize : queue.size = rest.length + 1 := h.length.symm
  have hcontents := h.contents_eq
  rw [hsize, contents_succ _ _ h.front_lt, List.cons.injEq] at hcontents
  obtain ⟨hitem, hrest⟩ := hcontents
  refine ⟨{ queue with
    front := (queue.front + 1) % queue.capacity
    size := queue.size - 1 }, ?_, ?_⟩
  · simp [dequeue, h.isEmpty_eq, h.read h.front_lt hitem]
  · constructor
    case capacity_eq => exact h.capacity_eq
    case length_arr => exact h.length_arr
    case front_lt =>
      rw [h.capacity_eq]
      exact Nat.mod_lt _ hpos
    case size_le =>
      have := h.size_le
      simp only
      omega
    case back_eq =>
      have hsum : queue.front + queue.size + (capacity - 1) =
          queue.front + 1 + ((queue.size - 1) + (capacity - 1)) := by omega
      simp only [h.capacity_eq, add_assoc, Nat.mod_add_mod]
      rw [h.back_eq, hsum, add_assoc]
    case contents_eq => simpa [h.capacity_eq, hsize] using hrest

theorem peekFront_eq (h : Represents capacity queue items) :
    queue.peekFront = some (items.headD 0) := by
  cases items with
  | nil => simp [peekFront, h.isEmpty_eq]
  | cons item rest =>
      have hcontents := h.contents_eq
      rw [← h.length, List.length_cons, contents_succ _ _ h.front_lt,
        List.cons.injEq] at hcontents
      simp [peekFront, h.isEmpty_eq, h.read h.front_lt hcontents.1]

theorem peekBack_eq (h : Represents capacity queue items) :
    queue.peekBack = some (items.getLastD 0) := by
  induction items using List.reverseRecOn with
  | nil => simp [peekBack, h.isEmpty_eq]
  | append_singleton rest item _ =>
      have hsize : queue.size = rest.length + 1 := by
        rw [← h.length, List.length_append, List.length_singleton]
      have hslot : (queue.front + rest.length) % capacity < capacity :=
        Nat.mod_lt _ (Nat.zero_lt_of_lt h.front_lt)
      have hcontents := h.contents_eq
      rw [hsize, contents_succ_last] at hcontents
      have hlast := List.append_inj_right' hcontents rfl
      rw [List.singleton_inj] at hlast
      simp [peekBack, h.isEmpty_eq, h.back_of_size hsize, h.read hslot hlast]

/-- One call never faults, answers as the bounded list does and leaves the
queue representing the list after the call. -/
theorem perform_refines (h : Represents capacity queue items) (call : Call) :
    ∃ next,
      queue.perform call =
          some ((BoundedFifo.perform capacity items call).1, next) ∧
        Represents capacity next
          (BoundedFifo.perform capacity items call).2 := by
  have hle : items.length ≤ capacity := h.length ▸ h.size_le
  cases call with
  | enqueue x =>
      by_cases hspace : items.length < capacity
      · obtain ⟨next, hnext, hrepresents⟩ := enqueue_of_space h hspace x
        refine ⟨next, ?_, ?_⟩
        · simp [perform, hnext, BoundedFifo.perform, hspace]
        · simpa [BoundedFifo.perform, hspace] using hrepresents
      · have hfull := enqueue_of_full h (by omega) x
        refine ⟨queue, ?_, ?_⟩
        · simp [perform, hfull, BoundedFifo.perform, hspace]
        · simpa [BoundedFifo.perform, hspace] using h
  | dequeue =>
      cases items with
      | nil =>
          refine ⟨queue, ?_, h⟩
          simp [perform, dequeue_of_empty h, BoundedFifo.perform]
      | cons item rest =>
          obtain ⟨next, hnext, hrepresents⟩ := dequeue_of_cons h
          refine ⟨next, ?_, hrepresents⟩
          simp [perform, hnext, BoundedFifo.perform]
  | peekFront =>
      exact ⟨queue, by simp [perform, peekFront_eq h, BoundedFifo.perform], h⟩
  | peekBack =>
      exact ⟨queue, by simp [perform, peekBack_eq h, BoundedFifo.perform], h⟩
  | isEmpty =>
      exact ⟨queue, by simp [perform, h.isEmpty_eq, BoundedFifo.perform], h⟩
  | isFull =>
      exact ⟨queue, by simp [perform, h.isFull_eq, BoundedFifo.perform], h⟩

/-- Every sequence of calls on a fresh queue stays inside the array and
answers as the bounded list does; refused calls leave the queue as it is. -/
theorem queue_refines_bounded_fifo {capacity : ℕ} (hcapacity : 1 ≤ capacity)
    (cells : Fin capacity → ℤ) (calls : List Call) :
    let abstract := trace (BoundedFifo.perform capacity) [] calls
    ∃ queue,
      checkedTrace perform (construct cells) calls =
          some (abstract.1, queue) ∧
        Represents capacity queue abstract.2 ∧
        (abstract.2.length = capacity →
          ∀ x, queue.enqueue x = some (false, queue)) ∧
        (abstract.2 = [] → queue.dequeue = some (0, queue)) := by
  intro abstract
  obtain ⟨queue, hrun, hrepresents⟩ :=
    checkedTrace_refines perform (BoundedFifo.perform capacity)
      (fun _ _ call h => perform_refines h call)
      (represents_construct hcapacity cells) calls
  refine ⟨queue, hrun, hrepresents, ?_, ?_⟩
  · intro hfull x
    exact enqueue_of_full hrepresents hfull x
  · intro hempty
    exact dequeue_of_empty (hempty ▸ hrepresents)

/-- A queue of two slots that wraps, refuses an item and empties again. -/
theorem queue_refines_bounded_fifo_wrapping :
    ∃ queue,
      checkedTrace perform (construct ![7, 7])
          [.enqueue 1, .enqueue 2, .enqueue 3, .dequeue, .enqueue 4,
            .peekFront, .peekBack, .dequeue, .dequeue, .dequeue] =
        some ([.flag true, .flag true, .flag false, .item 1, .flag true,
          .item 2, .item 4, .item 2, .item 4, .item 0], queue) :=
  (queue_refines_bounded_fifo (by decide) _ _).imp fun _ h => h.1

end Queue

end KataCpp
