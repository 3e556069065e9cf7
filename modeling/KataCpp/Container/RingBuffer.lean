import KataCpp.Core.CircularArray
import KataCpp.Core.TransitionSystem
import KataCpp.Container.BoundedList

/-!
# The ring buffer

`RingBuffer` keeps head, tail and size separately, and an `enqueue` whose wait
for space timed out overwrites the oldest item by moving the head.  Both calls
do their work in one critical section under `m_mutex`, entered when the wait
is over, so every interleaving of threads is some sequence of the transitions
`enqueue` and `dequeue` below.

`Represents` is the refinement relation to the bounded list that drops its
oldest item; it carries the representation invariant of the code.
-/

namespace KataCpp

open CircularArray BoundedList TransitionSystem

structure RingBuffer (α : Type*) where
  buffer : List α
  capacity : ℕ
  size : ℕ
  head : ℕ
  tail : ℕ

namespace RingBuffer

variable {α : Type*}

def isEmpty (ring : RingBuffer α) : Bool := ring.size == 0

def isFull (ring : RingBuffer α) : Bool := ring.size == ring.capacity

/-- The critical section of `enqueue` once the wait is over: on a full buffer
the wait has timed out and the oldest element is overwritten. -/
def enqueue (ring : RingBuffer α) (item : α) : RingBuffer α :=
  let moved :=
    if ring.isFull then { ring with head := (ring.head + 1) % ring.capacity }
    else { ring with size := ring.size + 1 }
  { moved with
    buffer := moved.buffer.set moved.tail item
    tail := (moved.tail + 1) % moved.capacity }

variable [Inhabited α]

/-- The constructor resizes the vector to `capacity` default elements. -/
def construct (capacity : ℕ) : RingBuffer α :=
  { buffer := List.replicate capacity default
    capacity, size := 0, head := 0, tail := 0 }

/-- The critical section of `dequeue` once the wait is over, with the return
code and the content of the caller's `result`. -/
def dequeue (ring : RingBuffer α) (result : α) : (ℤ × α) × RingBuffer α :=
  if ring.isEmpty then ((-1, result), ring)
  else
    ((0, ring.buffer.getD ring.head default),
      { ring with
        head := (ring.head + 1) % ring.capacity
        size := ring.size - 1 })

/-- The two overloads of `find` and `get_buffer` walk the occupied slots from
the head. -/
def findRange [LE α] [DecidableLE α] (ring : RingBuffer α) (min max : α) :
    List α :=
  scan (fun cell => cell ≥ min && cell ≤ max) ring.buffer ring.capacity
    ring.head ring.size []

def find [BEq α] (ring : RingBuffer α) (val : α) : List α :=
  scan (fun cell => cell == val) ring.buffer ring.capacity
    ring.head ring.size []

def getBuffer (ring : RingBuffer α) : List α :=
  scan (fun _ => true) ring.buffer ring.capacity ring.head ring.size []

/-- One critical section and what the calling thread gets from it. -/
def perform (ring : RingBuffer α) : Call α → Answer α × RingBuffer α
  | .enqueue item => (none, ring.enqueue item)
  | .dequeue result => (ring.dequeue result).map some id

/-- The buffer is well formed and holds exactly `items`, oldest first. -/
structure Represents (capacity : ℕ) (ring : RingBuffer α)
    (items : List α) : Prop where
  capacity_eq : ring.capacity = capacity
  length_buffer : ring.buffer.length = capacity
  head_lt : ring.head < capacity
  size_le : ring.size ≤ capacity
  tail_eq : ring.tail = (ring.head + ring.size) % capacity
  contents_eq : contents ring.buffer capacity ring.head ring.size = items

variable {capacity : ℕ} {ring : RingBuffer α} {items : List α}

theorem Represents.length (h : Represents capacity ring items) :
    items.length = ring.size := by
  rw [← h.contents_eq, length_contents]

theorem represents_construct (hcapacity : 1 ≤ capacity) :
    Represents capacity (construct capacity : RingBuffer α) [] where
  capacity_eq := rfl
  length_buffer := by simp [construct]
  head_lt := hcapacity
  size_le := Nat.zero_le _
  tail_eq := by simp [construct]
  contents_eq := rfl

theorem represents_enqueue (h : Represents capacity ring items) (item : α) :
    Represents capacity (ring.enqueue item)
      (enqueueOverwriting capacity items item) := by
  have hpos : 0 < capacity := Nat.zero_lt_of_lt h.head_lt
  rw [enqueueOverwriting, h.length]
  by_cases hfull : ring.size = capacity
  · -- The full window drops its head and the tail slot is the old head slot.
    have hlt : ¬ ring.size < capacity := by omega
    have hcontents := contents_set_overwrite item h.length_buffer h.head_lt
    have htail : ring.tail = (ring.head + capacity) % capacity := by
      rw [h.tail_eq, hfull]
    rw [if_neg hlt]
    refine ⟨?_, ?_, ?_, ?_, ?_, ?_⟩ <;>
      simp only [enqueue, isFull, h.capacity_eq, hfull, beq_self_eq_true,
        if_true]
    · simpa using h.length_buffer
    · exact Nat.mod_lt _ hpos
    · exact le_refl _
    · rw [htail, Nat.mod_add_mod, Nat.mod_add_mod]
      congr 1
      omega
    · rw [htail, hcontents, ← h.contents_eq, hfull]
  · have hlt : ring.size < capacity := lt_of_le_of_ne h.size_le hfull
    have hcontents := contents_set_append ring.head item
      h.length_buffer hlt
    rw [if_pos hlt]
    refine ⟨?_, ?_, ?_, ?_, ?_, ?_⟩ <;>
      simp only [enqueue, isFull, h.capacity_eq, beq_iff_eq, hfull, if_false]
    · simpa using h.length_buffer
    · exact h.head_lt
    · exact hlt
    · rw [h.tail_eq, Nat.mod_add_mod]
      rfl
    · rw [h.tail_eq, hcontents, h.contents_eq]

theorem dequeue_refines (h : Represents capacity ring items) (result : α) :
    (ring.dequeue result).1 = (BoundedList.dequeue items result).1 ∧
      Represents capacity (ring.dequeue result).2
        (BoundedList.dequeue items result).2 := by
  have hpos : 0 < capacity := Nat.zero_lt_of_lt h.head_lt
  have hlength := h.length
  cases items with
  | nil =>
      have hempty : ring.isEmpty = true := by simpa [isEmpty] using hlength.symm
      simp only [dequeue, hempty, if_true, BoundedList.dequeue]
      exact ⟨trivial, h⟩
  | cons item rest =>
      simp only [List.length_cons] at hlength
      have hnonempty : ring.isEmpty = false := by
        simp [isEmpty]
        omega
      have hwindow := h.contents_eq
      rw [← hlength, contents_succ _ _ h.head_lt] at hwindow
      injection hwindow with hitem hrest
      simp only [dequeue, hnonempty, BoundedList.dequeue, hitem,
        Bool.false_eq_true, if_false]
      refine ⟨trivial, ?_, ?_, ?_, ?_, ?_, ?_⟩
      · exact h.capacity_eq
      · exact h.length_buffer
      · simp only [h.capacity_eq]
        exact Nat.mod_lt _ hpos
      · have := h.size_le
        simp only
        omega
      · simp only [h.capacity_eq, Nat.mod_add_mod]
        rw [h.tail_eq]
        congr 1
        omega
      · simp only [h.capacity_eq, ← hlength, Nat.add_sub_cancel]
        exact hrest

/-- One critical section answers as the bounded list does and keeps the
representation. -/
theorem perform_refines (h : Represents capacity ring items) (call : Call α) :
    (ring.perform call).1 = (performOverwriting capacity items call).1 ∧
      Represents capacity (ring.perform call).2
        (performOverwriting capacity items call).2 := by
  cases call with
  | enqueue item => exact ⟨rfl, represents_enqueue h item⟩
  | dequeue result =>
      obtain ⟨hanswer, hnext⟩ := dequeue_refines h result
      exact ⟨congrArg some hanswer, hnext⟩

/-- The walk over the occupied slots filters the represented list. -/
theorem Represents.scan_eq (h : Represents capacity ring items)
    (keep : α → Bool) :
    scan keep ring.buffer ring.capacity ring.head ring.size [] =
      items.filter keep := by
  rw [h.capacity_eq, scan_eq_filter keep ring.buffer ring.size [] h.head_lt,
    h.contents_eq, List.nil_append]

/-- Every sequence of critical sections, from the empty buffer of any positive
capacity, answers as the bounded list does; and in the state reached the
observers report that list and the index invariant of the code holds. -/
theorem perform_refines_boundedList [BEq α] [LE α] [DecidableLE α]
    (capacity : ℕ) (hcapacity : 1 ≤ capacity) (calls : List (Call α)) :
    let concrete := trace perform (construct capacity) calls
    let abstract := trace (performOverwriting capacity) [] calls
    concrete.1 = abstract.1 ∧
      concrete.2.size = abstract.2.length ∧
      concrete.2.getBuffer = abstract.2 ∧
      (∀ val, concrete.2.find val = abstract.2.filter (· == val)) ∧
      (∀ min max, concrete.2.findRange min max =
        abstract.2.filter fun item => min ≤ item ∧ item ≤ max) ∧
      concrete.2.tail =
        (concrete.2.head + concrete.2.size) % concrete.2.capacity ∧
      concrete.2.size ≤ concrete.2.capacity ∧
      concrete.2.capacity = capacity := by
  intro concrete abstract
  obtain ⟨hanswers, hfinal⟩ :=
    trace_refines perform (performOverwriting capacity)
      (fun _ _ call h => perform_refines h call)
      (represents_construct hcapacity) calls
  refine ⟨hanswers, hfinal.length.symm, ?_, ?_, ?_, ?_, ?_, hfinal.capacity_eq⟩
  · exact (hfinal.scan_eq _).trans (List.filter_true _)
  · exact fun val => hfinal.scan_eq _
  · intro min max
    refine (hfinal.scan_eq _).trans (List.filter_congr fun item _ => ?_)
    simp
  · rw [hfinal.capacity_eq]
    exact hfinal.tail_eq
  · rw [hfinal.capacity_eq]
    exact hfinal.size_le

/-- Capacity two, after an overwrite and with the window wrapped around. -/
theorem perform_refines_boundedList_wrapped :
    (trace perform (construct 2)
        [.enqueue 1, .enqueue 2, .enqueue 3, .dequeue 0, .enqueue 4]
          : List (Answer ℕ) × RingBuffer ℕ).2.getBuffer = [3, 4] :=
  (perform_refines_boundedList 2 (by decide)
    [.enqueue 1, .enqueue 2, .enqueue 3, .dequeue 0, .enqueue 4]).2.2.1

end RingBuffer

end KataCpp
