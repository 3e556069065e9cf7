import KataCpp.Core.MachineInt
import KataCpp.Core.ThreadSum
import KataCpp.Core.TransitionSystem

/-!
# Producers and consumers of a lock-free queue

The producers number their objects with an atomic counter and push them, trying
again as long as `push` fails.  The consumers pop until they see `done`, which
is set when all producers have been joined, and then once more until the queue
is empty.  Nothing is locked; the accesses to the counters, to `done` and to the
queue are atomic, and the threads interleave freely between them.

In the end each object has been consumed exactly once, and both counters show
the number of objects; these are of type `int`, and so are the counters, which
wrap around.  This rests on the second loop of the consumers: behind a `pop`
that finds nothing there, the queue stays empty.

The queue is a parameter, with what its documentation says of a `push` that
succeeds and of a `pop`; the order of the objects in it is left open.
-/

namespace KataCpp.LockfreeQueue

open MachineInt ThreadSum TransitionSystem

/-- What `boost::lockfree::queue` does, by the objects that are in it. -/
structure Queue (Q : Type*) where
  empty : Q
  push : Q → ℤ → Q
  pop : Q → Option (ℤ × Q)
  contents : Q → Multiset ℤ
  contents_empty : contents empty = 0
  contents_push : ∀ objects value,
    contents (push objects value) = contents objects + {value}
  contents_of_pop : ∀ {objects value rest},
    pop objects = some (value, rest) →
      contents objects = {value} + contents rest
  contents_of_pop_none : ∀ {objects},
    pop objects = none → contents objects = 0

def listQueue : Queue (List ℤ) where
  empty := []
  push objects value := objects ++ [value]
  pop
    | [] => none
    | value :: rest => some (value, rest)
  contents objects := objects
  contents_empty := rfl
  contents_push objects value := by
    rw [← Multiset.coe_add, Multiset.coe_singleton]
  contents_of_pop {objects value rest} hpop := by
    cases objects with
    | nil => cases hpop
    | cons first others =>
      cases hpop
      rw [Multiset.singleton_add, Multiset.cons_coe]
  contents_of_pop_none {objects} hpop := by
    cases objects with
    | nil => rfl
    | cons first others => cases hpop

/-- Where a producer is: in front of `++producer_count` in an iteration, or in
the loop that pushes a value. -/
inductive Producer where
  | counting (i : ℕ)
  | pushing (i : ℕ) (value : ℤ)
  deriving DecidableEq

/-- Where a consumer is: in front of the test of `done`, of a `pop`, or of
`++consumer_count`, in the first loop or in the last one. -/
inductive Consumer where
  | testing
  | popping (last : Bool)
  | counting (last : Bool)
  | returned
  deriving DecidableEq

inductive Main where
  | joiningProducers
  | settingDone
  | joiningConsumers
  | printing
  deriving DecidableEq

/-- The threads and what they share.  The values that were popped are recorded
in their order. -/
structure Demo (P C Q : Type*) where
  producerCount : ℤ
  consumerCount : ℤ
  lockfreeQueue : Q
  done : Bool
  producers : P → Producer
  consumers : C → Consumer
  main : Main
  popped : List ℤ

/-- A thread takes its next step; a `push` can fail. -/
inductive Action (P C : Type*) where
  | producer (p : P) (pushes : Bool)
  | consumer (c : C)
  | main
  deriving DecidableEq

section Steps

variable {P C Q : Type*} [DecidableEq P] [DecidableEq C]

def Demo.start (queue : Queue Q) : Demo P C Q where
  producerCount := 0
  consumerCount := 0
  lockfreeQueue := queue.empty
  done := false
  producers _ := .counting 0
  consumers _ := .testing
  main := .joiningProducers
  popped := []

/-- `producer`, which has returned when `i` is `iterations`. -/
def Demo.producer (demo : Demo P C Q) (queue : Queue Q) (iterations : ℕ)
    (p : P) (pushes : Bool) : Option (Demo P C Q) :=
  match demo.producers p with
  | .counting i =>
      if i = iterations then none
      else
        let value := wrap32 (demo.producerCount + 1)
        some { demo with
          producerCount := value
          producers := Function.update demo.producers p (.pushing i value) }
  | .pushing i value =>
      if pushes then
        some { demo with
          lockfreeQueue := queue.push demo.lockfreeQueue value
          producers := Function.update demo.producers p (.counting (i + 1)) }
      else some demo

def Demo.consumer (demo : Demo P C Q) (queue : Queue Q) (c : C) :
    Option (Demo P C Q) :=
  match demo.consumers c with
  | .testing => some { demo with
      consumers := Function.update demo.consumers c (.popping demo.done) }
  | .popping last =>
      match queue.pop demo.lockfreeQueue with
      | none => some { demo with
          consumers := Function.update demo.consumers c
            (if last then .returned else .testing) }
      | some (value, rest) => some { demo with
          lockfreeQueue := rest
          consumers := Function.update demo.consumers c (.counting last)
          popped := demo.popped ++ [value] }
  | .counting last => some { demo with
      consumerCount := wrap32 (demo.consumerCount + 1)
      consumers := Function.update demo.consumers c (.popping last) }
  | .returned => none

/-- The main thread, behind the creation of the threads. -/
def Demo.mainStep [Fintype P] [Fintype C] (demo : Demo P C Q)
    (iterations : ℕ) : Option (Demo P C Q) :=
  match demo.main with
  | .joiningProducers =>
      if ∀ p, demo.producers p = .counting iterations then
        some { demo with main := .settingDone }
      else none
  | .settingDone => some { demo with done := true, main := .joiningConsumers }
  | .joiningConsumers =>
      if ∀ c, demo.consumers c = .returned then
        some { demo with main := .printing }
      else none
  | .printing => none

def step [Fintype P] [Fintype C] (queue : Queue Q) (iterations : ℕ)
    (demo : Demo P C Q) : Action P C → Option (Demo P C Q)
  | .producer p pushes => demo.producer queue iterations p pushes
  | .consumer c => demo.consumer queue c
  | .main => demo.mainStep iterations

end Steps

/-- The object that is made when `made` objects have been made before. -/
def object (made : ℕ) : ℤ := wrap32 (made + 1)

/-- The object that a producer has made and not yet pushed. -/
def Producer.held : Producer → Multiset ℤ
  | .counting _ => 0
  | .pushing _ value => {value}

@[simp] theorem Producer.held_counting (i : ℕ) : (counting i).held = 0 := rfl

@[simp] theorem Producer.held_pushing (i : ℕ) (value : ℤ) :
    (pushing i value).held = {value} :=
  rfl

def Producer.made : Producer → ℕ
  | .counting i => i
  | .pushing i _ => i + 1

@[simp] theorem Producer.made_counting (i : ℕ) : (counting i).made = i := rfl

@[simp] theorem Producer.made_pushing (i : ℕ) (value : ℤ) :
    (pushing i value).made = i + 1 :=
  rfl

/-- How many objects a consumer has popped and not yet counted. -/
def Consumer.uncounted : Consumer → ℕ
  | .counting _ => 1
  | _ => 0

@[simp] theorem Consumer.uncounted_popping (last : Bool) :
    (popping last).uncounted = 0 :=
  rfl

@[simp] theorem Consumer.uncounted_counting (last : Bool) :
    (counting last).uncounted = 1 :=
  rfl

@[simp] theorem Consumer.uncounted_returned : returned.uncounted = 0 := rfl

def Consumer.last : Consumer → Bool
  | .testing => false
  | .popping last => last
  | .counting last => last
  | .returned => true

section Invariant

variable {P C Q : Type*} [DecidableEq P] [DecidableEq C] [Fintype P]
  [Fintype C] {queue : Queue Q} {demo next : Demo P C Q} {iterations : ℕ}

/-- Every object that has been made is held by a producer, in the queue, or
popped; the counters agree with what the threads have done; and a consumer
returns when the producers have returned and the queue is empty. -/
structure Demo.Sound (queue : Queue Q) (iterations : ℕ) (demo : Demo P C Q) :
    Prop where
  objects : (∑ p, (demo.producers p).held) +
      queue.contents demo.lockfreeQueue + (demo.popped : Multiset ℤ) =
    (Multiset.range (∑ p, (demo.producers p).made)).map object
  made : demo.producerCount = wrap32 (∑ p, (demo.producers p).made : ℕ)
  made_le : ∀ p, (demo.producers p).made ≤ iterations
  counted : ∃ count : ℕ, demo.consumerCount = wrap32 count ∧
    count + ∑ c, (demo.consumers c).uncounted = demo.popped.length
  joined : demo.main ≠ .joiningProducers →
    ∀ p, demo.producers p = .counting iterations
  main_of_done : demo.done → demo.main ≠ .joiningProducers
  done_of_main : demo.main = .joiningConsumers → demo.done
  done_of_last : ∀ c, (demo.consumers c).last → demo.done
  empty : ∀ c, demo.consumers c = .returned →
    queue.contents demo.lockfreeQueue = 0
  finished : demo.main = .printing → ∀ c, demo.consumers c = .returned

omit [DecidableEq P] [DecidableEq C] in
theorem Demo.sound_start :
    (Demo.start queue : Demo P C Q).Sound queue iterations := by
  have hzero : wrap32 0 = 0 := by decide
  constructor <;>
    simp [Demo.start, Producer.held, Producer.made, Consumer.uncounted,
      Consumer.last, queue.contents_empty, hzero]

omit [DecidableEq P] [DecidableEq C] in
/-- A producer that has something to do has not been joined. -/
theorem Demo.Sound.joining (hsound : demo.Sound queue iterations) {p : P}
    (hproducer : demo.producers p ≠ .counting iterations) :
    demo.main = .joiningProducers := by
  by_contra hmain
  exact hproducer (hsound.joined hmain p)

omit [DecidableEq P] [DecidableEq C] in
theorem Demo.Sound.not_done (hsound : demo.Sound queue iterations) {p : P}
    (hproducer : demo.producers p ≠ .counting iterations) :
    ¬ demo.done := by
  intro hdone
  exact hsound.main_of_done hdone (hsound.joining hproducer)

omit [DecidableEq C] in
/-- A producer goes to another place, and keeps its bound. -/
theorem Demo.Sound.made_le_update (hsound : demo.Sound queue iterations)
    {p : P} {place : Producer} (hplace : place.made ≤ iterations) (other : P) :
    (Function.update demo.producers p place other).made ≤ iterations := by
  by_cases heq : other = p
  · rw [heq, Function.update_self]
    exact hplace
  · rw [Function.update_of_ne heq]
    exact hsound.made_le other

omit [DecidableEq C] in
/-- A producer makes an object. -/
theorem Demo.Sound.count (hsound : demo.Sound queue iterations) {p : P} {i : ℕ}
    (hproducer : demo.producers p = .counting i) (hi : i ≠ iterations) :
    Demo.Sound queue iterations { demo with
      producerCount := wrap32 (demo.producerCount + 1)
      producers := Function.update demo.producers p
        (.pushing i (wrap32 (demo.producerCount + 1))) } := by
  have hbusy : demo.producers p ≠ .counting iterations := by
    simp [hproducer, hi]
  have hobject : wrap32 (demo.producerCount + 1) =
      object (∑ p, (demo.producers p).made) := by
    rw [hsound.made, wrap32_wrap32_add_one, object]
  have hheld := sum_update Producer.held demo.producers p
    (.pushing i (object (∑ p, (demo.producers p).made)))
  have hmade := sum_update Producer.made demo.producers p
    (.pushing i (object (∑ p, (demo.producers p).made)))
  have hle := hsound.made_le p
  rw [hproducer, Producer.held_counting, Producer.held_pushing, add_zero]
    at hheld
  rw [hproducer, Producer.made_counting, Producer.made_pushing] at hmade
  replace hmade : ∑ q, (Function.update demo.producers p
      (.pushing i (object (∑ p, (demo.producers p).made))) q).made =
        (∑ p, (demo.producers p).made) + 1 := by
    omega
  rw [hproducer, Producer.made_counting] at hle
  refine ⟨?_, ?_, hsound.made_le_update (by
      rw [Producer.made_pushing]
      omega), hsound.counted, fun hmain => ?_, hsound.main_of_done,
    hsound.done_of_main, hsound.done_of_last, hsound.empty, hsound.finished⟩
  · dsimp only
    rw [hobject, hheld, hmade, Multiset.range_succ, Multiset.map_cons,
      ← hsound.objects, ← Multiset.singleton_add]
    abel
  · dsimp only
    rw [hobject, hmade, object, Nat.cast_succ]
  · exact absurd (hsound.joining hbusy) hmain

omit [DecidableEq C] in
/-- A producer pushes an object. -/
theorem Demo.Sound.push (hsound : demo.Sound queue iterations) {p : P}
    {i : ℕ} {value : ℤ} (hproducer : demo.producers p = .pushing i value) :
    Demo.Sound queue iterations { demo with
      lockfreeQueue := queue.push demo.lockfreeQueue value
      producers := Function.update demo.producers p (.counting (i + 1)) } := by
  have hbusy : demo.producers p ≠ .counting iterations := by
    simp [hproducer]
  have hheld := sum_update Producer.held demo.producers p (.counting (i + 1))
  have hmade := sum_update Producer.made demo.producers p (.counting (i + 1))
  have hle := hsound.made_le p
  rw [hproducer, Producer.held_counting, Producer.held_pushing, add_zero]
    at hheld
  rw [hproducer, Producer.made_counting, Producer.made_pushing,
    add_left_inj] at hmade
  rw [hproducer, Producer.made_pushing] at hle
  refine ⟨?_, ?_, hsound.made_le_update hle, hsound.counted, fun hmain => ?_,
    hsound.main_of_done, hsound.done_of_main, hsound.done_of_last,
    fun c hc => ?_, hsound.finished⟩
  · dsimp only
    rw [queue.contents_push, hmade, ← hsound.objects, ← hheld]
    abel
  · dsimp only
    rw [hmade, hsound.made]
  · exact absurd (hsound.joining hbusy) hmain
  · have hlast : (demo.consumers c).last := by
      rw [show demo.consumers c = .returned from hc]
      rfl
    exact absurd (hsound.done_of_last c hlast) (hsound.not_done hbusy)

omit [DecidableEq C] in
theorem Demo.Sound.producer (hsound : demo.Sound queue iterations) {p : P}
    {pushes : Bool}
    (hstep : demo.producer queue iterations p pushes = some next) :
    next.Sound queue iterations := by
  rw [Demo.producer] at hstep
  split at hstep
  case h_1 i hproducer =>
    split_ifs at hstep with hi
    obtain rfl := Option.some.inj hstep
    exact hsound.count hproducer hi
  case h_2 i value hproducer =>
    split_ifs at hstep
    · obtain rfl := Option.some.inj hstep
      exact hsound.push hproducer
    · obtain rfl := Option.some.inj hstep
      exact hsound

omit [DecidableEq P] in
/-- Where the consumers are behind a step of one of them that has seen `done`
only if it is set. -/
theorem Demo.Sound.done_of_last_update (hsound : demo.Sound queue iterations)
    {c : C} {place : Consumer} (hplace : place.last → demo.done) (other : C)
    (hlast : (Function.update demo.consumers c place other).last) :
    demo.done := by
  by_cases heq : other = c
  · rw [heq, Function.update_self] at hlast
    exact hplace hlast
  · rw [Function.update_of_ne heq] at hlast
    exact hsound.done_of_last other hlast

omit [DecidableEq P] in
/-- A consumer goes to another place, and leaves the queue as it is. -/
theorem Demo.Sound.move (hsound : demo.Sound queue iterations) {c : C}
    {place : Consumer}
    (huncounted : place.uncounted = (demo.consumers c).uncounted)
    (hlast : place.last → demo.done)
    (hempty : place = .returned → queue.contents demo.lockfreeQueue = 0)
    (hbusy : demo.consumers c ≠ .returned) :
    Demo.Sound queue iterations { demo with
      consumers := Function.update demo.consumers c place } := by
  have hsum := sum_update Consumer.uncounted demo.consumers c place
  obtain ⟨count, hcount, hcounted⟩ := hsound.counted
  refine ⟨hsound.objects, hsound.made, hsound.made_le,
    ⟨count, hcount, ?_⟩, hsound.joined, hsound.main_of_done,
    hsound.done_of_main, hsound.done_of_last_update hlast, fun d hd => ?_,
    fun hmain => ?_⟩
  · dsimp only
    omega
  · dsimp only at hd
    by_cases heq : d = c
    · rw [heq, Function.update_self] at hd
      exact hempty hd
    · rw [Function.update_of_ne heq] at hd
      exact hsound.empty d hd
  · exact absurd (hsound.finished hmain c) hbusy

omit [DecidableEq P] in
/-- A consumer pops an object. -/
theorem Demo.Sound.pop (hsound : demo.Sound queue iterations) {c : C}
    {last : Bool} {value : ℤ} {rest : Q}
    (hconsumer : demo.consumers c = .popping last)
    (hpop : queue.pop demo.lockfreeQueue = some (value, rest)) :
    Demo.Sound queue iterations { demo with
      lockfreeQueue := rest
      consumers := Function.update demo.consumers c (.counting last)
      popped := demo.popped ++ [value] } := by
  have hcontents := queue.contents_of_pop hpop
  have hsum := sum_update Consumer.uncounted demo.consumers c (.counting last)
  rw [hconsumer, Consumer.uncounted_popping, Consumer.uncounted_counting,
    add_zero] at hsum
  obtain ⟨count, hcount, hcounted⟩ := hsound.counted
  have hobjects := hsound.objects
  have hlast : (Consumer.counting last).last → demo.done := by
    intro hseen
    refine hsound.done_of_last c ?_
    rw [hconsumer]
    exact hseen
  refine ⟨?_, hsound.made, hsound.made_le, ⟨count, hcount, ?_⟩,
    hsound.joined, hsound.main_of_done, hsound.done_of_main,
    hsound.done_of_last_update hlast, fun d hd => ?_, fun hmain => ?_⟩
  · dsimp only
    rw [← Multiset.coe_add, Multiset.coe_singleton, ← hobjects, hcontents]
    abel
  · dsimp only
    rw [hsum, List.length_append, List.length_singleton]
    omega
  · -- a consumer that has returned saw the queue empty, and it still is
    dsimp only at hd
    by_cases heq : d = c
    · rw [heq, Function.update_self] at hd
      cases hd
    · rw [Function.update_of_ne heq] at hd
      rw [hsound.empty d hd] at hcontents
      exact (add_eq_zero.mp hcontents.symm).2
  · have hreturned := hsound.finished hmain c
    rw [hconsumer] at hreturned
    cases hreturned

omit [DecidableEq P] in
/-- A consumer counts the object that it has popped. -/
theorem Demo.Sound.countPopped (hsound : demo.Sound queue iterations) {c : C}
    {last : Bool} (hconsumer : demo.consumers c = .counting last) :
    Demo.Sound queue iterations { demo with
      consumerCount := wrap32 (demo.consumerCount + 1)
      consumers := Function.update demo.consumers c (.popping last) } := by
  have hsum := sum_update Consumer.uncounted demo.consumers c (.popping last)
  rw [hconsumer, Consumer.uncounted_popping, Consumer.uncounted_counting,
    add_zero] at hsum
  obtain ⟨count, hcount, hcounted⟩ := hsound.counted
  have hlast : (Consumer.popping last).last → demo.done := by
    intro hseen
    refine hsound.done_of_last c ?_
    rw [hconsumer]
    exact hseen
  refine ⟨hsound.objects, hsound.made, hsound.made_le,
    ⟨count + 1, ?_, ?_⟩, hsound.joined, hsound.main_of_done,
    hsound.done_of_main, hsound.done_of_last_update hlast, fun d hd => ?_,
    fun hmain => ?_⟩
  · dsimp only
    rw [hcount, wrap32_wrap32_add_one, Nat.cast_succ]
  · dsimp only
    omega
  · dsimp only at hd
    by_cases heq : d = c
    · rw [heq, Function.update_self] at hd
      cases hd
    · rw [Function.update_of_ne heq] at hd
      exact hsound.empty d hd
  · have hreturned := hsound.finished hmain c
    rw [hconsumer] at hreturned
    cases hreturned

omit [DecidableEq P] in
theorem Demo.Sound.consumer (hsound : demo.Sound queue iterations) {c : C}
    (hstep : demo.consumer queue c = some next) :
    next.Sound queue iterations := by
  simp only [Demo.consumer] at hstep
  split at hstep
  case h_1 hconsumer =>
    obtain rfl := Option.some.inj hstep
    refine hsound.move ?_ id Consumer.noConfusion ?_
    · rw [hconsumer]
      rfl
    · simp [hconsumer]
  case h_2 last hconsumer =>
    split at hstep
    case h_1 hpop =>
      obtain rfl := Option.some.inj hstep
      have hseen : last → demo.done := by
        intro hlast
        refine hsound.done_of_last c ?_
        rw [hconsumer]
        exact hlast
      refine hsound.move ?_ ?_ (fun _ => queue.contents_of_pop_none hpop) ?_
      · rw [hconsumer]
        cases last <;> rfl
      · cases last with
        | false => exact Bool.noConfusion
        | true => exact fun _ => hseen rfl
      · simp [hconsumer]
    case h_2 value rest hpop =>
      obtain rfl := Option.some.inj hstep
      exact hsound.pop hconsumer hpop
  case h_3 last hconsumer =>
    obtain rfl := Option.some.inj hstep
    exact hsound.countPopped hconsumer
  case h_4 => cases hstep

omit [DecidableEq P] [DecidableEq C] in
theorem Demo.Sound.mainStep (hsound : demo.Sound queue iterations)
    (hstep : demo.mainStep iterations = some next) :
    next.Sound queue iterations := by
  rw [Demo.mainStep] at hstep
  split at hstep
  case h_1 hmain =>
    split_ifs at hstep with hjoined
    obtain rfl := Option.some.inj hstep
    exact ⟨hsound.objects, hsound.made, hsound.made_le, hsound.counted,
      fun _ => hjoined, fun _ => Main.noConfusion, Main.noConfusion,
      hsound.done_of_last, hsound.empty, Main.noConfusion⟩
  case h_2 hmain =>
    obtain rfl := Option.some.inj hstep
    have hjoined := hsound.joined (by simp [hmain])
    exact ⟨hsound.objects, hsound.made, hsound.made_le, hsound.counted,
      fun _ => hjoined, fun _ => Main.noConfusion, fun _ => rfl,
      fun _ _ => rfl, hsound.empty, Main.noConfusion⟩
  case h_3 hmain =>
    split_ifs at hstep with hreturned
    obtain rfl := Option.some.inj hstep
    have hjoined := hsound.joined (by simp [hmain])
    exact ⟨hsound.objects, hsound.made, hsound.made_le, hsound.counted,
      fun _ => hjoined, fun _ => Main.noConfusion, Main.noConfusion,
      hsound.done_of_last, hsound.empty, fun _ => hreturned⟩
  case h_4 => cases hstep

theorem Demo.Sound.step {action : Action P C}
    (hsound : demo.Sound queue iterations)
    (hstep : LockfreeQueue.step queue iterations demo action = some next) :
    next.Sound queue iterations := by
  cases action with
  | producer p pushes => exact hsound.producer hstep
  | consumer c => exact hsound.consumer hstep
  | main => exact hsound.mainStep hstep

theorem Demo.sound_of_run {schedule : List (Action P C)}
    (hrun : run (step queue iterations) (Demo.start queue) schedule =
      some demo) :
    demo.Sound queue iterations :=
  run_invariant (Demo.Sound queue iterations)
    (fun _ _ _ hsound hstep => hsound.step hstep) Demo.sound_start hrun

omit [DecidableEq P] [DecidableEq C] in
/-- In a state that is sound the end of the main thread shows all objects. -/
theorem Demo.Sound.printed [Nonempty C] (hsound : demo.Sound queue iterations)
    (hmain : demo.main = .printing) :
    demo.producerCount = wrap32 (Fintype.card P * iterations : ℕ) ∧
      demo.consumerCount = wrap32 (Fintype.card P * iterations : ℕ) ∧
      queue.contents demo.lockfreeQueue = 0 ∧
      demo.popped.Perm
        ((List.range (Fintype.card P * iterations)).map object) := by
  have hreturned := hsound.finished hmain
  have hjoined := hsound.joined (by simp [hmain])
  have hempty : queue.contents demo.lockfreeQueue = 0 :=
    hsound.empty (Classical.arbitrary C) (hreturned _)
  have hmade : ∑ p, (demo.producers p).made =
      Fintype.card P * iterations := by
    simp only [hjoined, Producer.made_counting, Finset.sum_const,
      Finset.card_univ, smul_eq_mul]
  have hobjects := hsound.objects
  rw [hmade, hempty] at hobjects
  simp only [hjoined, Producer.held_counting, Finset.sum_const_zero, zero_add]
    at hobjects
  have hpopped : demo.popped.Perm
      ((List.range (Fintype.card P * iterations)).map object) :=
    Multiset.coe_eq_coe.mp hobjects
  obtain ⟨count, hcount, hcounted⟩ := hsound.counted
  simp only [hreturned, Consumer.uncounted_returned, Finset.sum_const_zero,
    add_zero, hpopped.length_eq, List.length_map, List.length_range]
    at hcounted
  rw [hcounted] at hcount
  exact ⟨by rw [hsound.made, hmade], hcount, hempty, hpopped⟩

/-- When the main thread prints the counters, both show the number of objects,
reduced to an `int`, and each object has been consumed exactly once. -/
theorem objects_consumed [Nonempty C] {schedule : List (Action P C)}
    (hrun : run (step queue iterations) (Demo.start queue) schedule =
      some demo)
    (hmain : demo.main = .printing) :
    demo.producerCount = wrap32 (Fintype.card P * iterations : ℕ) ∧
      demo.consumerCount = wrap32 (Fintype.card P * iterations : ℕ) ∧
      queue.contents demo.lockfreeQueue = 0 ∧
      demo.popped.Perm
        ((List.range (Fintype.card P * iterations)).map object) :=
  (Demo.sound_of_run hrun).printed hmain

/-- Two producers with one object each.  The second consumer sees `done` before
it has popped anything, and takes the object that was pushed last. -/
def twoObjects : List (Action (Fin 2) (Fin 2)) :=
  [.consumer 0, .producer 0 true, .producer 1 true, .producer 1 false,
    .producer 1 true, .consumer 0, .producer 0 true, .main, .main,
    .consumer 1, .consumer 1, .consumer 0, .consumer 1, .consumer 1,
    .consumer 0, .consumer 0, .consumer 0, .main]

theorem objects_consumed_two :
    ∃ demo, run (step listQueue 1) (Demo.start listQueue) twoObjects =
        some demo ∧
      demo.popped.Perm [1, 2] ∧ demo.consumerCount = 2 := by
  obtain ⟨demo, hrun, hmain⟩ :=
    (Option.any_eq_true
      (fun demo : Demo (Fin 2) (Fin 2) (List ℤ) => demo.main == .printing)
      (run (step listQueue 1) (Demo.start listQueue) twoObjects)).mp
      (by decide +kernel)
  obtain ⟨-, hconsumed, -, hpopped⟩ :=
    objects_consumed hrun (beq_iff_eq.mp hmain)
  have hobjects : (List.range (Fintype.card (Fin 2) * 1)).map object =
      [1, 2] := by
    decide
  rw [hobjects] at hpopped
  exact ⟨demo, hrun, hpopped, hconsumed.trans (by decide)⟩

/-! ## The end of the demo -/

/-- What a producer has still to do; an object in the queue is work for a
consumer. -/
def Producer.remaining (iterations : ℕ) : Producer → ℕ
  | .counting i => 4 * (iterations - i)
  | .pushing i _ => 4 * (iterations - i) - 1

def Consumer.remaining : Consumer → ℕ
  | .testing => 2
  | .popping last => if last then 1 else 3
  | .counting last => if last then 2 else 4
  | .returned => 0

def Main.remaining : Main → ℕ
  | .joiningProducers => 3
  | .settingDone => 2
  | .joiningConsumers => 1
  | .printing => 0

def Demo.remaining (queue : Queue Q) (iterations : ℕ) (demo : Demo P C Q) : ℕ :=
  (∑ p, (demo.producers p).remaining iterations) +
    2 * (queue.contents demo.lockfreeQueue).card +
    (∑ c, (demo.consumers c).remaining) + demo.main.remaining

theorem Producer.remaining_counting (i : ℕ) :
    (counting i).remaining iterations = 4 * (iterations - i) :=
  rfl

theorem Producer.remaining_pushing (i : ℕ) (value : ℤ) :
    (pushing i value).remaining iterations = 4 * (iterations - i) - 1 :=
  rfl

omit [DecidableEq C] in
theorem Demo.Sound.producer_remaining (hsound : demo.Sound queue iterations)
    {p : P} (hproducer : demo.producers p ≠ .counting iterations) :
    ∃ next, demo.producer queue iterations p true = some next ∧
      next.remaining queue iterations < demo.remaining queue iterations := by
  have hle := hsound.made_le p
  cases hplace : demo.producers p with
  | counting i =>
    have hi : i ≠ iterations := by
      rintro rfl
      exact hproducer hplace
    have hsum := sum_update (Producer.remaining iterations) demo.producers p
      (.pushing i (wrap32 (demo.producerCount + 1)))
    rw [hplace, Producer.remaining_counting, Producer.remaining_pushing]
      at hsum
    rw [hplace, Producer.made_counting] at hle
    refine ⟨_, by
      simp only [Demo.producer, hplace, if_neg hi]
      rfl, ?_⟩
    simp only [Demo.remaining]
    omega
  | pushing i value =>
    have hsum := sum_update (Producer.remaining iterations) demo.producers p
      (.counting (i + 1))
    rw [hplace, Producer.remaining_counting, Producer.remaining_pushing]
      at hsum
    rw [hplace, Producer.made_pushing] at hle
    refine ⟨_, by
      simp only [Demo.producer, hplace, if_true]
      rfl, ?_⟩
    simp only [Demo.remaining, queue.contents_push, Multiset.card_add,
      Multiset.card_singleton]
    omega

omit [DecidableEq P] in
/-- Behind `done`, each step of a consumer brings it nearer to its end. -/
theorem Demo.consumer_remaining (hdone : demo.done) {c : C}
    (hconsumer : demo.consumers c ≠ .returned) :
    ∃ next, demo.consumer queue c = some next ∧
      next.remaining queue iterations < demo.remaining queue iterations := by
  cases hplace : demo.consumers c with
  | testing =>
    have hsum := sum_update Consumer.remaining demo.consumers c
      (.popping demo.done)
    rw [hplace, hdone] at hsum
    refine ⟨_, by
      simp only [Demo.consumer, hplace]
      rfl, ?_⟩
    simp only [Demo.remaining, hdone]
    change _ + 2 = _ + 1 at hsum
    omega
  | popping last =>
    cases hpop : queue.pop demo.lockfreeQueue with
    | none =>
      have hsum := sum_update Consumer.remaining demo.consumers c
        (if last then .returned else .testing)
      have hlt : (if last then Consumer.returned else .testing).remaining <
          (Consumer.popping last).remaining := by
        cases last <;> decide
      rw [hplace] at hsum
      refine ⟨_, by
        simp only [Demo.consumer, hplace, hpop]
        rfl, ?_⟩
      simp only [Demo.remaining]
      omega
    | some taken =>
      have hcontents : queue.contents demo.lockfreeQueue =
          {taken.1} + queue.contents taken.2 :=
        queue.contents_of_pop hpop
      have hsum := sum_update Consumer.remaining demo.consumers c
        (.counting last)
      have hle : (Consumer.counting last).remaining ≤
          (Consumer.popping last).remaining + 1 := by
        cases last <;> decide
      rw [hplace] at hsum
      refine ⟨_, by
        simp only [Demo.consumer, hplace, hpop]
        rfl, ?_⟩
      simp only [Demo.remaining, hcontents, Multiset.card_add,
        Multiset.card_singleton]
      omega
  | counting last =>
    have hsum := sum_update Consumer.remaining demo.consumers c
      (.popping last)
    have hlt : (Consumer.popping last).remaining <
        (Consumer.counting last).remaining := by
      cases last <;> decide
    rw [hplace] at hsum
    refine ⟨_, by
      simp only [Demo.consumer, hplace]
      rfl, ?_⟩
    simp only [Demo.remaining]
    omega
  | returned => exact absurd hplace hconsumer

/-- As long as the counters have not been printed, some thread can come nearer
to it. -/
theorem Demo.Sound.step_remaining (hsound : demo.Sound queue iterations)
    (hmain : demo.main ≠ .printing) :
    ∃ action next, LockfreeQueue.step queue iterations demo action =
        some next ∧
      next.remaining queue iterations < demo.remaining queue iterations := by
  cases hplace : demo.main with
  | joiningProducers =>
    by_cases hjoined : ∀ p, demo.producers p = .counting iterations
    · refine ⟨.main, { demo with main := .settingDone }, ?_, ?_⟩
      · simp only [LockfreeQueue.step, Demo.mainStep, hplace, if_pos hjoined]
      · simp [Demo.remaining, hplace, Main.remaining]
    · obtain ⟨p, hproducer⟩ := not_forall.mp hjoined
      exact ⟨.producer p true, hsound.producer_remaining hproducer⟩
  | settingDone =>
    refine ⟨.main, { demo with done := true, main := .joiningConsumers },
      ?_, ?_⟩
    · simp only [LockfreeQueue.step, Demo.mainStep, hplace]
    · simp [Demo.remaining, hplace, Main.remaining]
  | joiningConsumers =>
    by_cases hreturned : ∀ c, demo.consumers c = .returned
    · refine ⟨.main, { demo with main := .printing }, ?_, ?_⟩
      · simp only [LockfreeQueue.step, Demo.mainStep, hplace, if_pos hreturned]
      · simp [Demo.remaining, hplace, Main.remaining]
    · obtain ⟨c, hconsumer⟩ := not_forall.mp hreturned
      exact ⟨.consumer c,
        Demo.consumer_remaining (hsound.done_of_main hplace) hconsumer⟩
  | printing => exact absurd hplace hmain

/-- No state that is reached keeps the threads from coming to the end, where
all objects have been consumed. -/
theorem printing_reachable [Nonempty C] {schedule : List (Action P C)}
    (hrun : run (step queue iterations) (Demo.start queue) schedule =
      some demo) :
    ∃ rest final, run (step queue iterations) demo rest = some final ∧
      final.main = .printing ∧
      final.consumerCount = wrap32 (Fintype.card P * iterations : ℕ) := by
  obtain ⟨rest, final, hrest, hfinal, hmain⟩ := exists_run_of_variant
    (Demo.Sound queue iterations) (fun demo => demo.main = .printing)
    (Demo.remaining queue iterations)
    (fun state hsound hmain => by
      obtain ⟨action, next, hstep, hlt⟩ := hsound.step_remaining hmain
      exact ⟨action, next, hstep, hsound.step hstep, hlt⟩)
    (Demo.sound_of_run hrun)
  exact ⟨rest, final, hrest, hmain, (hfinal.printed hmain).2.1⟩

theorem printing_reachable_two : ∃ demo rest final,
    run (step listQueue 1) (Demo.start listQueue) (twoObjects.take 5) =
        some demo ∧
      run (step listQueue 1) demo rest = some final ∧
      final.consumerCount = 2 := by
  obtain ⟨demo, hrun⟩ : ∃ demo, run (step listQueue 1)
      (Demo.start listQueue) (twoObjects.take 5) = some demo :=
    Option.isSome_iff_exists.mp (by decide +kernel)
  obtain ⟨rest, final, hrest, -, hconsumed⟩ := printing_reachable hrun
  exact ⟨demo, rest, final, hrun, hrest, hconsumed.trans (by decide)⟩

end Invariant

end KataCpp.LockfreeQueue
