import KataCpp.Core.MachineInt
import KataCpp.Core.TransitionSystem

/-!
# The timer

`CTinyTimer` takes the time between `Begin` and `End`, both of which can be
given a time; the default argument zero stands for the present time.  The test
for it is the wrong way round: without an argument the time zero is stored, and
with an argument the present time is stored in its place.  An end time of zero
also means that the timer still runs.

So after `Begin()` and `End()` the duration is the time since the epoch, and
after calls with given times it is the time that went by between the calls.
-/

namespace KataCpp

open MachineInt TransitionSystem

inductive TimeUnit where
  | microSecond
  | milliSecond
  | second
  | minute
  | hour
  | day
  | week
  | month
  | year
  deriving DecidableEq

/-- What `gettimeofday` stores. -/
structure Timeval where
  tvSec : ℤ
  tvUsec : ℤ
  deriving DecidableEq

structure TinyTimer where
  initTime : ℤ
  startTime : ℤ
  endTime : ℤ
  deadline : ℤ
  deriving DecidableEq

namespace TinyTimer

/-- A number of milliseconds in seconds, minutes or hours; other units are left
alone. -/
def inUnit (milliseconds : ℤ) : TimeUnit → ℤ
  | .second => milliseconds.tdiv 1000
  | .minute => milliseconds.tdiv 60000
  | .hour => milliseconds.tdiv 3600000
  | _ => milliseconds

/-- `GetTimeNow` when the clock shows `t`. -/
def getTimeNow (t : Timeval) (timeUnit : TimeUnit) : ℤ :=
  inUnit (wrap64 (wrap64 (t.tvSec * 1000) + t.tvUsec.tdiv 1000)) timeUnit

/-- `GetTimeNow()`. -/
def now (t : Timeval) : ℤ := getTimeNow t .milliSecond

/-- The constructor and `Reset`. -/
def reset (t : Timeval) : TinyTimer where
  initTime := now t
  startTime := 0
  endTime := 0
  deadline := 0

/-- `Begin`. -/
def timerBegin (timer : TinyTimer) (t : Timeval) (aTime : ℤ) : TinyTimer :=
  { timer with
    startTime := if aTime = 0 then aTime else now t
    endTime := 0 }

/-- `End`. -/
def timerEnd (timer : TinyTimer) (t : Timeval) (aTime : ℤ) : TinyTimer :=
  { timer with endTime := if aTime = 0 then aTime else now t }

def setDeadline (timer : TinyTimer) (aTime : ℤ) : TinyTimer :=
  { timer with deadline := aTime }

def getDuration (timer : TinyTimer) (t : Timeval) (timeUnit : TimeUnit) : ℤ :=
  let duration :=
    if timer.endTime > 0 then wrap64 (timer.endTime - timer.startTime)
    else wrap64 (now t - timer.startTime)
  inUnit duration timeUnit

/-- `GetTimeLeft` answers in milliseconds whatever the unit. -/
def getTimeLeft (timer : TinyTimer) (t : Timeval) (_timeUnit : TimeUnit) : ℤ :=
  if timer.endTime > 0 then 0
  else if timer.deadline > 0 then wrap64 (timer.deadline - now t)
  else 0

def getTimeCost (timer : TinyTimer) (t : Timeval) (_timeUnit : TimeUnit) : ℤ :=
  wrap64 (now t - timer.initTime)

inductive Call where
  | reset
  | timerBegin (aTime : ℤ)
  | timerEnd (aTime : ℤ)
  | setDeadline (aTime : ℤ)
  | getDuration (timeUnit : TimeUnit)
  | getTimeNow (timeUnit : TimeUnit)
  | getTimeLeft (timeUnit : TimeUnit)
  | getTimeCost (timeUnit : TimeUnit)
  deriving DecidableEq

/-- The answer of a call made when the clock shows `event.1`, and the timer
after it. -/
def perform (timer : TinyTimer) (event : Timeval × Call) :
    Option ℤ × TinyTimer :=
  match event with
  | (t, .reset) => (none, TinyTimer.reset t)
  | (t, .timerBegin aTime) => (none, timer.timerBegin t aTime)
  | (t, .timerEnd aTime) => (none, timer.timerEnd t aTime)
  | (_, .setDeadline aTime) => (none, timer.setDeadline aTime)
  | (t, .getDuration unit) => (some (timer.getDuration t unit), timer)
  | (t, .getTimeNow unit) => (some (TinyTimer.getTimeNow t unit), timer)
  | (t, .getTimeLeft unit) => (some (timer.getTimeLeft t unit), timer)
  | (t, .getTimeCost unit) => (some (timer.getTimeCost t unit), timer)

/-- The calls that neither start nor stop the timer. -/
def Call.KeepsTimes : Call → Prop
  | .reset | .timerBegin _ | .timerEnd _ => False
  | _ => True

/-- The answer of `GetDuration()` at the end of a run of a new timer: first any
calls, then `Begin` and `End` with these arguments, then calls that neither
start nor stop the timer. -/
def durationAfter (created : Timeval) (before : List (Timeval × Call))
    (begun : Timeval × ℤ) (ended : Timeval × ℤ)
    (later : List (Timeval × Call)) (asked : Timeval) : ℤ :=
  let timer := (trace perform (reset created) before).2
  let timer := (timer.timerBegin begun.1 begun.2).timerEnd ended.1 ended.2
  (trace perform timer later).2.getDuration asked .milliSecond

theorem trace_keepsTimes (timer : TinyTimer) {calls : List (Timeval × Call)}
    (hcalls : ∀ event ∈ calls, event.2.KeepsTimes) :
    (trace perform timer calls).2.startTime = timer.startTime ∧
      (trace perform timer calls).2.endTime = timer.endTime := by
  induction calls generalizing timer with
  | nil => exact ⟨rfl, rfl⟩
  | cons event calls ih =>
      obtain ⟨t, call⟩ := event
      rw [List.forall_mem_cons] at hcalls
      have hrest := ih (perform timer (t, call)).2 hcalls.2
      -- only a call that starts or stops the timer sets one of the two
      cases call with
      | reset => exact absurd hcalls.1 id
      | timerBegin aTime => exact absurd hcalls.1 id
      | timerEnd aTime => exact absurd hcalls.1 id
      | setDeadline aTime => exact hrest
      | getDuration unit => exact hrest
      | getTimeNow unit => exact hrest
      | getTimeLeft unit => exact hrest
      | getTimeCost unit => exact hrest

theorem now_lt (t : Timeval) : now t < 2 ^ 63 := wrap64_lt _

theorem getDuration_running {timer : TinyTimer} (hend : timer.endTime = 0)
    (t : Timeval) :
    timer.getDuration t .milliSecond = wrap64 (now t - timer.startTime) := by
  rw [getDuration, hend]
  rfl

theorem getDuration_stopped {timer : TinyTimer} (hend : 0 < timer.endTime)
    (t : Timeval) :
    timer.getDuration t .milliSecond =
      wrap64 (timer.endTime - timer.startTime) := by
  rw [getDuration, if_pos hend]
  rfl

section Durations

variable (created : Timeval) (before : List (Timeval × Call))
variable {begun ended asked : Timeval} {later : List (Timeval × Call)}

/-- Without arguments the times stored are zero, and the duration is the time
now. -/
theorem durationAfter_default (hlater : ∀ event ∈ later, event.2.KeepsTimes)
    (hasked : 0 < now asked) :
    durationAfter created before (begun, 0) (ended, 0) later asked =
      now asked := by
  obtain ⟨hstart, hend⟩ := trace_keepsTimes
    (((trace perform (reset created) before).2.timerBegin begun 0).timerEnd
      ended 0) hlater
  have hzero : (((trace perform (reset created) before).2.timerBegin
      begun 0).timerEnd ended 0).startTime = 0 := rfl
  rw [durationAfter, getDuration_running hend, hstart, hzero, sub_zero]
  exact wrap64_eq_self hasked.le (now_lt asked)

/-- With arguments the times stored are those of the calls. -/
theorem durationAfter_given (hlater : ∀ event ∈ later, event.2.KeepsTimes)
    (hbegun : 0 < now begun) (hended : now begun ≤ now ended) {b e : ℤ}
    (hb : b ≠ 0) (he : e ≠ 0) :
    durationAfter created before (begun, b) (ended, e) later asked =
      now ended - now begun := by
  obtain ⟨hstart, hend⟩ := trace_keepsTimes
    (((trace perform (reset created) before).2.timerBegin begun b).timerEnd
      ended e) hlater
  replace hstart := hstart.trans (if_neg hb)
  replace hend := hend.trans (if_neg he)
  have hpositive := hend.symm ▸ hbegun.trans_le hended
  have hupper := now_lt ended
  rw [durationAfter, getDuration_stopped hpositive, hstart, hend]
  exact wrap64_eq_self (by omega) (by omega)

end Durations

/-- The duration between `Begin()` and `End()` is never the time that went by,
and that between `Begin(b)` and `End(e)` is `e - b` exactly when just that time
went by between the calls. -/
theorem durationAfter_iff (created : Timeval)
    (before : List (Timeval × Call)) {begun ended asked : Timeval}
    {later : List (Timeval × Call)}
    (hlater : ∀ event ∈ later, event.2.KeepsTimes)
    (hbegun : 0 < now begun) (hended : now begun ≤ now ended)
    (hasked : now ended ≤ now asked) :
    durationAfter created before (begun, 0) (ended, 0) later asked ≠
        now ended - now begun ∧
      ∀ b e : ℤ, 0 < b → b ≤ e →
        (durationAfter created before (begun, b) (ended, e) later asked =
            e - b ↔
          now ended - now begun = e - b) := by
  constructor
  · rw [durationAfter_default created before hlater (by omega)]
    omega
  · intro b e hb he
    rw [durationAfter_given created before hlater hbegun hended (by omega)
      (by omega)]

/-- A timer that is started a second after the epoch, stopped three seconds
later and asked at once. -/
theorem durationAfter_iff_four_seconds :
    durationAfter ⟨1, 0⟩ [] (⟨1, 0⟩, 0) (⟨4, 0⟩, 0) [] ⟨4, 0⟩ ≠ 3000 := by
  have hbegun : 0 < now ⟨1, 0⟩ := by decide
  have hended : now ⟨1, 0⟩ ≤ now ⟨4, 0⟩ := by decide
  exact (durationAfter_iff ⟨1, 0⟩ [] (List.forall_mem_nil _) hbegun hended
    le_rfl).1

/-- The timer above gives four seconds in place of three, and with the times of
five and seven seconds given to it three in place of two. -/
theorem durationAfter_wrong :
    durationAfter ⟨1, 0⟩ [] (⟨1, 0⟩, 0) (⟨4, 0⟩, 0) [] ⟨4, 0⟩ = 4000 ∧
      now ⟨4, 0⟩ - now ⟨1, 0⟩ = 3000 ∧
      durationAfter ⟨1, 0⟩ [] (⟨1, 0⟩, 5000) (⟨4, 0⟩, 7000) [] ⟨4, 0⟩ =
        3000 := by
  decide

end TinyTimer

end KataCpp
