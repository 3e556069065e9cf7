import KataCpp.Core.LoopingCalls
import KataCpp.Core.ThreadSum

/-!
# Waiting with a timeout for one of two conditions

The calls of a bounded container wait, for a limited time, until there is room
or until there is an item, do their work under a mutex, and notify one of the
threads that wait for the opposite condition when they have left the mutex.

A notification reaches a thread that waits at that moment, or nobody.  So
whether a thread can be left waiting although it could go on depends on all
interleavings.  The rule here reduces this to two facts about a single call:
what it takes from its own condition, and what it adds to the opposite one.
-/

namespace KataCpp.TimedWaiting

open ThreadSum TransitionSystem

inductive Condition where
  | notFull
  | notEmpty
  deriving DecidableEq

def Condition.other : Condition → Condition
  | .notFull => .notEmpty
  | .notEmpty => .notFull

/-- A container: what its calls do under the mutex, the condition they wait for,
how many of them could go on, and whether they notify afterwards. -/
structure Monitor (State Call Output : Type*) where
  perform : State → Call → Output × State
  waitsFor : Call → Condition
  available : State → Condition → ℕ
  notifies : State → Call → Bool

/-- Where a thread is: outside of the calls, suspended by `wait_for`, awake
again but not yet in possession of the mutex, or in front of `notify_one`. -/
inductive Place (Call : Type*) where
  | idle
  | waiting (call : Call)
  | woken (call : Call) (timedOut : Bool)
  | notifying (call : Call)
  deriving DecidableEq

/-- The container, the threads, and the calls that have done their work, in the
order in which they did it. -/
structure System (State Call Output Thread : Type*) where
  state : State
  place : Thread → Place Call
  history : List (Call × Output)

/-- What can happen: a thread makes a call, `wait_for` returns to the mutex, for
whatever reason, the awake thread gets the mutex, or a thread notifies one that
waits, or nobody. -/
inductive Event (Call Thread : Type*) where
  | enter (thread : Thread) (call : Call)
  | wake (thread : Thread) (timedOut : Bool)
  | retry (thread : Thread)
  | notify (thread : Thread) (target : Option Thread)

section Definitions

variable {State Call Output Thread : Type*} [DecidableEq Thread]

def Place.waitingFor (monitor : Monitor State Call Output)
    (condition : Condition) : Place Call → Bool
  | .waiting call => monitor.waitsFor call = condition
  | _ => false

def System.move (system : System State Call Output Thread) (thread : Thread)
    (place : Place Call) : System State Call Output Thread :=
  { system with place := Function.update system.place thread place }

/-- Where a thread is behind the critical section of a call. -/
def Monitor.behind (monitor : Monitor State Call Output) (state : State)
    (call : Call) : Place Call :=
  if monitor.notifies state call then .notifying call else .idle

def System.work (monitor : Monitor State Call Output)
    (system : System State Call Output Thread) (thread : Thread)
    (call : Call) : System State Call Output Thread where
  state := (monitor.perform system.state call).2
  place := Function.update system.place thread
    (monitor.behind system.state call)
  history := system.history ++ [(call, (monitor.perform system.state call).1)]

/-- The critical section: the call does its work if its condition holds or its
time is up, and waits otherwise. -/
def System.attempt (monitor : Monitor State Call Output)
    (system : System State Call Output Thread) (thread : Thread)
    (call : Call) (timedOut : Bool) : System State Call Output Thread :=
  if 0 < monitor.available system.state (monitor.waitsFor call) ∨ timedOut then
    system.work monitor thread call
  else system.move thread (.waiting call)

def step [Fintype Thread] (monitor : Monitor State Call Output)
    (system : System State Call Output Thread) :
    Event Call Thread → Option (System State Call Output Thread)
  | .enter thread call =>
      match system.place thread with
      | .idle => some (system.attempt monitor thread call false)
      | _ => none
  | .wake thread timedOut =>
      match system.place thread with
      | .waiting call => some (system.move thread (.woken call timedOut))
      | _ => none
  | .retry thread =>
      match system.place thread with
      | .woken call timedOut =>
          some (system.attempt monitor thread call timedOut)
      | _ => none
  | .notify thread target =>
      match system.place thread with
      | .notifying call =>
          let condition := (monitor.waitsFor call).other
          match target with
          | none =>
              if ∀ other,
                  !(system.place other).waitingFor monitor condition then
                some (system.move thread .idle)
              else none
          | some other =>
              match system.place other with
              | .waiting waiter =>
                  if monitor.waitsFor waiter = condition then
                    some ((system.move thread .idle).move other
                      (.woken waiter false))
                  else none
              | _ => none
      | _ => none

def System.start (state : State) : System State Call Output Thread where
  state := state
  place _ := .idle
  history := []

end Definitions

section Rules

variable {State Call Output Thread : Type*} [DecidableEq Thread]
  [Fintype Thread] {monitor : Monitor State Call Output}
  {system next : System State Call Output Thread} {condition : Condition}

def System.Waits (monitor : Monitor State Call Output)
    (system : System State Call Output Thread) (condition : Condition) :
    Prop :=
  ∃ thread, (system.place thread).waitingFor monitor condition

inductive Effect (monitor : Monitor State Call Output)
    (system : System State Call Output Thread) :
    Event Call Thread → System State Call Output Thread → Prop
  | enter {thread : Thread} {call : Call}
      (hplace : system.place thread = .idle) :
      Effect monitor system (.enter thread call)
        (system.attempt monitor thread call false)
  | wake {thread : Thread} {call : Call} {timedOut : Bool}
      (hplace : system.place thread = .waiting call) :
      Effect monitor system (.wake thread timedOut)
        (system.move thread (.woken call timedOut))
  | retry {thread : Thread} {call : Call} {timedOut : Bool}
      (hplace : system.place thread = .woken call timedOut) :
      Effect monitor system (.retry thread)
        (system.attempt monitor thread call timedOut)
  | notifyNone {thread : Thread} {call : Call}
      (hplace : system.place thread = .notifying call)
      (hnobody : ¬ system.Waits monitor (monitor.waitsFor call).other) :
      Effect monitor system (.notify thread none) (system.move thread .idle)
  | notifySome {thread other : Thread} {call waiter : Call}
      (hplace : system.place thread = .notifying call)
      (hwaiter : system.place other = .waiting waiter)
      (hcondition : monitor.waitsFor waiter = (monitor.waitsFor call).other) :
      Effect monitor system (.notify thread (some other))
        ((system.move thread .idle).move other (.woken waiter false))

theorem effect_of_step {event : Event Call Thread}
    (hstep : step monitor system event = some next) :
    Effect monitor system event next := by
  cases event with
  | enter thread call =>
      simp only [step] at hstep
      split at hstep
      case h_1 hplace =>
        obtain rfl := Option.some.inj hstep
        exact .enter hplace
      case h_2 => exact absurd hstep.symm (Option.some_ne_none _)
  | wake thread timedOut =>
      simp only [step] at hstep
      split at hstep
      case h_1 call hplace =>
        obtain rfl := Option.some.inj hstep
        exact .wake hplace
      case h_2 => exact absurd hstep.symm (Option.some_ne_none _)
  | retry thread =>
      simp only [step] at hstep
      split at hstep
      case h_1 call timedOut hplace =>
        obtain rfl := Option.some.inj hstep
        exact .retry hplace
      case h_2 => exact absurd hstep.symm (Option.some_ne_none _)
  | notify thread target =>
      simp only [step] at hstep
      split at hstep
      case h_2 => exact absurd hstep.symm (Option.some_ne_none _)
      case h_1 call hplace =>
        cases target with
        | none =>
            dsimp only at hstep
            split_ifs at hstep with hsilent
            obtain rfl := Option.some.inj hstep
            refine .notifyNone hplace fun ⟨other, hother⟩ => ?_
            have hfalse := hsilent other
            rw [hother] at hfalse
            exact Bool.noConfusion hfalse
        | some other =>
            dsimp only at hstep
            split at hstep
            case h_1 waiter hwaiter =>
              split_ifs at hstep with hcondition
              obtain rfl := Option.some.inj hstep
              exact .notifySome hplace hwaiter hcondition
            case h_2 => exact absurd hstep.symm (Option.some_ne_none _)

/-- A call takes one from its own condition, and adds at most one to the
opposite condition, of which it then notifies. -/
structure Monitor.Lawful (monitor : Monitor State Call Output) : Prop where
  takes : ∀ state call,
    monitor.available (monitor.perform state call).2 (monitor.waitsFor call) ≤
      monitor.available state (monitor.waitsFor call) - 1
  adds : ∀ state call,
    monitor.available (monitor.perform state call).2
        (monitor.waitsFor call).other ≤
      monitor.available state (monitor.waitsFor call).other +
        if monitor.notifies state call then 1 else 0

/-- A thread that is going to look whether a condition holds, or to make one
look that waits for it. -/
def Place.attends (monitor : Monitor State Call Output)
    (condition : Condition) : Place Call → ℕ
  | .woken call _ => if monitor.waitsFor call = condition then 1 else 0
  | .notifying call =>
      if (monitor.waitsFor call).other = condition then 1 else 0
  | _ => 0

def System.attending (monitor : Monitor State Call Output)
    (system : System State Call Output Thread) (condition : Condition) : ℕ :=
  ∑ thread, (system.place thread).attends monitor condition

/-- Where a thread waits, those that attend to its condition are as many as the
calls that could go on. -/
def System.Attended (monitor : Monitor State Call Output)
    (system : System State Call Output Thread) : Prop :=
  ∀ condition, system.Waits monitor condition →
    monitor.available system.state condition ≤
      system.attending monitor condition

theorem Condition.eq_or_eq_other (condition : Condition) (other : Condition) :
    other = condition ∨ other = condition.other := by
  cases condition <;> cases other <;> simp [Condition.other]

theorem Condition.other_ne (condition : Condition) :
    condition.other ≠ condition := by
  cases condition <;> simp [Condition.other]

omit [Fintype Thread] in
@[simp]
theorem System.place_move_self (system : System State Call Output Thread)
    (thread : Thread) (place : Place Call) :
    (system.move thread place).place thread = place := by
  simp only [move]
  exact Function.update_self thread place system.place

omit [Fintype Thread] in
theorem System.place_move_of_ne (system : System State Call Output Thread)
    {thread other : Thread} (place : Place Call) (hother : other ≠ thread) :
    (system.move thread place).place other = system.place other := by
  simp only [move]
  exact Function.update_of_ne hother place system.place

variable (monitor) in
/-- A thread that moves changes its own part of the sum. -/
theorem System.attending_move (system : System State Call Output Thread)
    (thread : Thread) (place : Place Call) (condition : Condition) :
    (system.move thread place).attending monitor condition +
        (system.place thread).attends monitor condition =
      system.attending monitor condition +
        place.attends monitor condition :=
  sum_update (Place.attends monitor condition) system.place thread place

omit [Fintype Thread] in
/-- A thread that moves to a place where it does not wait. -/
theorem System.Waits.of_move {thread : Thread} {place : Place Call}
    (hplace : place.waitingFor monitor condition = false)
    (hwaits : (system.move thread place).Waits monitor condition) :
    system.Waits monitor condition := by
  obtain ⟨other, hother⟩ := hwaits
  by_cases heq : other = thread
  · rw [heq, place_move_self, hplace] at hother
    exact absurd hother Bool.false_ne_true
  · rw [system.place_move_of_ne place heq] at hother
    exact ⟨other, hother⟩

theorem Monitor.waitingFor_behind (monitor : Monitor State Call Output)
    (state : State) (call : Call) (condition : Condition) :
    (monitor.behind state call).waitingFor monitor condition = false := by
  rw [behind]
  split_ifs <;> rfl

theorem Monitor.attends_behind (monitor : Monitor State Call Output)
    (state : State) (call : Call) :
    (monitor.behind state call).attends monitor (monitor.waitsFor call).other =
      if monitor.notifies state call then 1 else 0 := by
  rw [behind]
  split_ifs <;> simp [Place.attends]

/-- The critical section of a call, of a thread that has come to it with an
attention for its own condition, or from outside. -/
theorem System.Attended.attempt (hattended : system.Attended monitor)
    (hlawful : monitor.Lawful) {thread : Thread} {call : Call}
    {timedOut : Bool}
    (hown : (system.place thread).attends monitor
      (monitor.waitsFor call) ≤ 1)
    (hother : (system.place thread).attends monitor
      (monitor.waitsFor call).other = 0) :
    (system.attempt monitor thread call timedOut).Attended monitor := by
  intro condition hwaits
  have hne := (monitor.waitsFor call).other_ne
  rw [System.attempt] at hwaits ⊢
  split_ifs at hwaits ⊢ with hgo
  · have hbefore : system.Waits monitor condition :=
      System.Waits.of_move (monitor.waitingFor_behind _ _ _) hwaits
    have hle := hattended condition hbefore
    have hsum := system.attending_move monitor thread
      (monitor.behind system.state call) condition
    have htakes := hlawful.takes system.state call
    have hadds := hlawful.adds system.state call
    change monitor.available (monitor.perform system.state call).2 condition ≤
      (system.move thread (monitor.behind system.state call)).attending
        monitor condition
    rcases (monitor.waitsFor call).eq_or_eq_other condition with rfl | rfl
    · omega
    · rw [monitor.attends_behind] at hsum
      omega
  · change monitor.available system.state condition ≤
      (system.move thread (.waiting call)).attending monitor condition
    rcases (monitor.waitsFor call).eq_or_eq_other condition with rfl | rfl
    · omega
    · have hbefore : system.Waits monitor (monitor.waitsFor call).other :=
        hwaits.of_move (by simp [Place.waitingFor, hne.symm])
      have hle := hattended _ hbefore
      have hsum := system.attending_move monitor thread (.waiting call)
        (monitor.waitsFor call).other
      have hnew : (Place.waiting call).attends monitor
          (monitor.waitsFor call).other = 0 := rfl
      omega

/-- A thread that returns from `wait_for`. -/
theorem System.Attended.wake (hattended : system.Attended monitor)
    {thread : Thread} {call : Call}
    (hplace : system.place thread = .waiting call) (timedOut : Bool) :
    (system.move thread (.woken call timedOut)).Attended monitor := by
  intro condition hwaits
  have hle := hattended condition (hwaits.of_move rfl)
  have hsum := system.attending_move monitor thread (.woken call timedOut)
    condition
  have hold : (system.place thread).attends monitor condition = 0 := by
    rw [hplace]
    rfl
  change monitor.available system.state condition ≤ _
  omega

/-- A notification that reaches nobody. -/
theorem System.Attended.notify_none (hattended : system.Attended monitor)
    {thread : Thread} {call : Call}
    (hplace : system.place thread = .notifying call)
    (hnobody : ¬ system.Waits monitor (monitor.waitsFor call).other) :
    (system.move thread .idle).Attended monitor := by
  intro condition hwaits
  have hbefore : system.Waits monitor condition := hwaits.of_move rfl
  have hle := hattended condition hbefore
  have hsum := system.attending_move monitor thread .idle condition
  have hold : (system.place thread).attends monitor condition = 0 := by
    rw [hplace]
    refine if_neg fun heq => hnobody ?_
    rwa [heq]
  change monitor.available system.state condition ≤ _
  omega

/-- A notification hands its attention over. -/
theorem System.Attended.notify_some (hattended : system.Attended monitor)
    {thread other : Thread} {call waiter : Call}
    (hplace : system.place thread = .notifying call)
    (hwaiter : system.place other = .waiting waiter)
    (hcondition : monitor.waitsFor waiter = (monitor.waitsFor call).other) :
    ((system.move thread .idle).move other (.woken waiter false)).Attended
      monitor := by
  intro condition hwaits
  have hne : other ≠ thread := by
    rintro rfl
    rw [hplace] at hwaiter
    cases hwaiter
  have hbefore : (system.move thread .idle).Waits monitor condition :=
    hwaits.of_move rfl
  have hle := hattended condition (hbefore.of_move rfl)
  have hfirst := system.attending_move monitor thread .idle condition
  have hsecond := (system.move thread .idle).attending_move monitor other
    (.woken waiter false) condition
  rw [system.place_move_of_ne _ hne, hwaiter] at hsecond
  rw [hplace] at hfirst
  simp only [Place.attends, hcondition] at hfirst hsecond
  change monitor.available system.state condition ≤ _
  omega

theorem Effect.attended {event : Event Call Thread}
    (heffect : Effect monitor system event next) (hlawful : monitor.Lawful)
    (hattended : system.Attended monitor) : next.Attended monitor := by
  cases heffect with
  | enter hplace =>
      apply hattended.attempt hlawful <;> simp [hplace, Place.attends]
  | wake hplace => exact hattended.wake hplace _
  | retry hplace =>
      apply hattended.attempt hlawful
      · simp [hplace, Place.attends]
      · simp [hplace, Place.attends, (Condition.other_ne _).symm]
  | notifyNone hplace hnobody => exact hattended.notify_none hplace hnobody
  | notifySome hplace hwaiter hcondition =>
      exact hattended.notify_some hplace hwaiter hcondition

/-- No wakeup is lost: in every run, where a thread waits for a condition, the
threads that attend to the condition are as many as the calls that could go
on. -/
theorem attended_of_run (hlawful : monitor.Lawful) (state : State)
    {events : List (Event Call Thread)}
    (hrun : run (step monitor) (System.start state) events = some system) :
    system.Attended monitor := by
  refine run_invariant (System.Attended monitor)
    (fun _ _ _ hattended hstep =>
      (effect_of_step hstep).attended hlawful hattended) ?_ hrun
  rintro condition ⟨thread, hwaits⟩
  exact absurd hwaits Bool.false_ne_true

/-! ## The order of the calls -/

/-- The calls so far, one after the other, give what the threads got. -/
def System.InOrder (monitor : Monitor State Call Output) (start : State)
    (system : System State Call Output Thread) : Prop :=
  trace monitor.perform start (system.history.map Prod.fst) =
    (system.history.map Prod.snd, system.state)

omit [Fintype Thread] in
theorem System.InOrder.attempt {start : State}
    (horder : system.InOrder monitor start) (thread : Thread) (call : Call)
    (timedOut : Bool) :
    (system.attempt monitor thread call timedOut).InOrder monitor start := by
  rw [System.attempt]
  split_ifs
  · rw [InOrder] at horder ⊢
    simp only [work, List.map_append, List.map_cons, List.map_nil,
      trace_append, horder, trace]
  · exact horder

/-- In every run the calls take effect one after the other. -/
theorem inOrder_of_run {start : State} {events : List (Event Call Thread)}
    (hrun : run (step monitor) (System.start start) events = some system) :
    system.InOrder monitor start := by
  refine run_invariant (System.InOrder monitor start)
    (fun system event next horder hstep => ?_) ?_ hrun
  · cases effect_of_step hstep with
    | enter hplace => exact horder.attempt _ _ _
    | wake hplace => exact horder
    | retry hplace => exact horder.attempt _ _ _
    | notifyNone hplace hnobody => exact horder
    | notifySome hplace hwaiter hcondition => exact horder
  · rfl

end Rules

end KataCpp.TimedWaiting
