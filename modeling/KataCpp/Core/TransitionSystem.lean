import Mathlib

/-!
# Schedules of a transition system

A concurrent or stateful component is given here by a partial step function:
`step state action` is `none` when the action is not enabled in the state.  All
nondeterminism lives in the schedule, the list of actions that is executed, so
a statement about every schedule is a statement about every interleaving.

The file collects the rules the component proofs use: an inductive invariant
survives every schedule, a forward simulation maps schedules to schedules, and
a property that each single step keeps exactly under a guard holds along a
schedule exactly when every step of the schedule meets the guard.
-/

namespace KataCpp.TransitionSystem

variable {State Action : Type*}

/-- Execute a schedule.  The run is `none` as soon as one of the actions is
not enabled. -/
def run (step : State → Action → Option State) :
    State → List Action → Option State
  | state, [] => some state
  | state, action :: schedule =>
      (step state action).bind fun next => run step next schedule

/-- `property` holds in every state the schedule visits, the first one
included. -/
def Always (step : State → Action → Option State) (property : State → Prop) :
    State → List Action → Prop
  | state, [] => property state
  | state, action :: schedule =>
      property state ∧
        ∀ next, step state action = some next →
          Always step property next schedule

/-- Every step that the schedule takes meets `guard`, a condition on the state
before the step and the action taken there. -/
def Meets (step : State → Action → Option State)
    (guard : State → Action → Prop) : State → List Action → Prop
  | _, [] => True
  | state, action :: schedule =>
      ∀ next, step state action = some next →
        guard state action ∧ Meets step guard next schedule

section Rules

variable {step : State → Action → Option State}

@[simp]
theorem run_nil (state : State) : run step state [] = some state := rfl

theorem run_cons_eq_some {state final : State} {action : Action}
    {schedule : List Action} :
    run step state (action :: schedule) = some final ↔
      ∃ next, step state action = some next ∧
        run step next schedule = some final := by
  simp [run, Option.bind_eq_some_iff]

/-- Running a concatenation is running its parts one after the other. -/
theorem run_append (state : State) (first second : List Action) :
    run step state (first ++ second) =
      (run step state first).bind fun middle => run step middle second := by
  induction first generalizing state with
  | nil => rfl
  | cons action schedule ih =>
      simp only [List.cons_append, run, Option.bind_assoc]
      congr 1
      funext next
      exact ih next

theorem Always.head {property : State → Prop} {state : State}
    {schedule : List Action} (halways : Always step property state schedule) :
    property state := by
  cases schedule with
  | nil => exact halways
  | cons action rest => exact halways.1

/-- What holds in every visited state holds in the last one. -/
theorem Always.final {property : State → Prop} {state final : State}
    {schedule : List Action} (halways : Always step property state schedule)
    (hrun : run step state schedule = some final) : property final := by
  induction schedule generalizing state with
  | nil =>
      simp only [run_nil, Option.some.injEq] at hrun
      exact hrun ▸ halways
  | cons action schedule ih =>
      obtain ⟨next, hnext, hrest⟩ := run_cons_eq_some.mp hrun
      exact ih (halways.2 next hnext) hrest

/-- A property kept by every enabled step is kept by every schedule. -/
theorem run_invariant (invariant : State → Prop)
    (hstep : ∀ state action next, invariant state →
      step state action = some next → invariant next)
    {state final : State} {schedule : List Action}
    (hstate : invariant state)
    (hrun : run step state schedule = some final) : invariant final := by
  induction schedule generalizing state with
  | nil =>
      simp only [run_nil, Option.some.injEq] at hrun
      exact hrun ▸ hstate
  | cons action schedule ih =>
      obtain ⟨next, hnext, hrest⟩ := run_cons_eq_some.mp hrun
      exact ih (hstep state action next hstate hnext) hrest

/-- A goal is reached by some schedule, when as long as it has not been met
there is a step to a smaller value. -/
theorem exists_run_of_variant (invariant goal : State → Prop)
    (variant : State → ℕ)
    (hstep : ∀ state, invariant state → ¬ goal state →
      ∃ action next, step state action = some next ∧ invariant next ∧
        variant next < variant state)
    {state : State} (hstate : invariant state) :
    ∃ schedule final, run step state schedule = some final ∧
      invariant final ∧ goal final := by
  by_cases hgoal : goal state
  · exact ⟨[], state, rfl, hstate, hgoal⟩
  · obtain ⟨action, next, hnext, hinvariant, hlt⟩ := hstep state hstate hgoal
    obtain ⟨schedule, final, hrun, hfinal⟩ :=
      exists_run_of_variant invariant goal variant hstep hinvariant
    exact ⟨action :: schedule, final,
      run_cons_eq_some.mpr ⟨next, hnext, hrun⟩, hfinal⟩
termination_by variant state

/-- Along a schedule whose steps all meet `guard` it is enough that guarded
steps keep an invariant that implies the property. -/
theorem always_of_meets (invariant : State → Prop) {property : State → Prop}
    {guard : State → Action → Prop}
    (hstep : ∀ state action next, invariant state → guard state action →
      step state action = some next → invariant next)
    (himplies : ∀ state, invariant state → property state)
    {state : State} {schedule : List Action} (hstate : invariant state)
    (hmeets : Meets step guard state schedule) :
    Always step property state schedule := by
  induction schedule generalizing state with
  | nil => exact himplies state hstate
  | cons action schedule ih =>
      refine ⟨himplies state hstate, fun next hnext => ?_⟩
      obtain ⟨hguard, hrest⟩ := hmeets next hnext
      exact ih (hstep state action next hstate hguard hnext) hrest

/-- A step-by-step exact guard is exact along every schedule: if, from a state
satisfying the invariant, a step leads to the property precisely when the
guard holds before it, and the property then restores the invariant, the
property holds in all visited states precisely when all steps taken meet the
guard. -/
theorem always_iff_meets_of_restored (invariant : State → Prop)
    {property : State → Prop} {guard : State → Action → Prop}
    (himplies : ∀ state, invariant state → property state)
    (hexact : ∀ state action next, invariant state →
      step state action = some next → (property next ↔ guard state action))
    (hrestored : ∀ state action next, invariant state →
      step state action = some next → property next → invariant next)
    {state : State} (hstate : invariant state) (schedule : List Action) :
    Always step property state schedule ↔ Meets step guard state schedule := by
  induction schedule generalizing state with
  | nil => simp [Always, Meets, himplies state hstate]
  | cons action schedule ih =>
      simp only [Always, Meets, himplies state hstate, true_and]
      refine forall_congr' fun next => forall_congr' fun hnext => ?_
      have hproperty := hexact state action next hstate hnext
      have hinvariant := hrestored state action next hstate hnext
      constructor
      · intro halways
        have hhere := halways.head
        exact ⟨hproperty.mp hhere, (ih (hinvariant hhere)).mp halways⟩
      · rintro ⟨hguard, hmeets⟩
        have hhere := hproperty.mpr hguard
        exact (ih (hinvariant hhere)).mpr hmeets

/-- The exact guard rule for an invariant that every step keeps. -/
theorem always_iff_meets (invariant : State → Prop) {property : State → Prop}
    {guard : State → Action → Prop}
    (hinvariant : ∀ state action next, invariant state →
      step state action = some next → invariant next)
    (hexact : ∀ state action next, invariant state → property state →
      step state action = some next → (property next ↔ guard state action))
    {state : State} (hstate : invariant state) (hproperty : property state)
    (schedule : List Action) :
    Always step property state schedule ↔ Meets step guard state schedule := by
  refine always_iff_meets_of_restored
    (fun state => invariant state ∧ property state) (fun _ h => h.2)
    (fun state action next h hnext => ?_)
    (fun state action next h hnext hproperty => ?_)
    ⟨hstate, hproperty⟩ schedule
  · exact hexact state action next h.1 h.2 hnext
  · exact ⟨hinvariant state action next h.1 hnext, hproperty⟩

end Rules

section Traces

variable {Abstract Output Answer : Type*}

/-- The answers to a sequence of calls, and the state after them. -/
def trace (step : State → Action → Output × State) :
    State → List Action → List Output × State
  | state, [] => ([], state)
  | state, action :: schedule =>
      let rest := trace step (step state action).2 schedule
      ((step state action).1 :: rest.1, rest.2)

/-- A relation under which single calls answer alike and stay related makes
all call sequences answer alike and stay related. -/
theorem trace_refines (step : State → Action → Output × State)
    (spec : Abstract → Action → Output × Abstract)
    {Represents : State → Abstract → Prop}
    (hstep : ∀ state abstract action, Represents state abstract →
      (step state action).1 = (spec abstract action).1 ∧
        Represents (step state action).2 (spec abstract action).2)
    {state : State} {abstract : Abstract}
    (hstate : Represents state abstract) (schedule : List Action) :
    (trace step state schedule).1 = (trace spec abstract schedule).1 ∧
      Represents (trace step state schedule).2
        (trace spec abstract schedule).2 := by
  induction schedule generalizing state abstract with
  | nil => exact ⟨rfl, hstate⟩
  | cons action schedule ih =>
      obtain ⟨hanswer, hnext⟩ := hstep state abstract action hstate
      obtain ⟨hanswers, hfinal⟩ := ih hnext
      exact ⟨by simp only [trace, hanswer, hanswers], hfinal⟩

/-- Every call of the sequence meets `guard` in the state in which it is
made. -/
def CallsMeet (step : State → Action → Output × State)
    (guard : State → Action → Prop) : State → List Action → Prop
  | _, [] => True
  | state, action :: schedule =>
      guard state action ∧
        CallsMeet step guard (step state action).2 schedule

theorem CallsMeet.of_append {step : State → Action → Output × State}
    {guard : State → Action → Prop} {state : State} {done rest : List Action}
    (hmeet : CallsMeet step guard state (done ++ rest)) :
    CallsMeet step guard state done := by
  induction done generalizing state with
  | nil => trivial
  | cons action done ih => exact ⟨hmeet.1, ih hmeet.2⟩

/-- A relation that guarded calls keep, with answers that correspond, makes the
answers of all guarded call sequences correspond. -/
theorem trace_simulates (step : State → Action → Output × State)
    (spec : Abstract → Action → Answer × Abstract)
    (Represents : State → Abstract → Prop) (answer : Output → Answer)
    {guard : State → Action → Prop}
    (hstep : ∀ state abstract action, Represents state abstract →
      guard state action →
      (spec abstract action).1 = answer (step state action).1 ∧
        Represents (step state action).2 (spec abstract action).2)
    {state : State} {abstract : Abstract}
    (hstate : Represents state abstract) (schedule : List Action)
    (hmeet : CallsMeet step guard state schedule) :
    (trace spec abstract schedule).1 =
        (trace step state schedule).1.map answer ∧
      Represents (trace step state schedule).2
        (trace spec abstract schedule).2 := by
  induction schedule generalizing state abstract with
  | nil => exact ⟨rfl, hstate⟩
  | cons action schedule ih =>
      obtain ⟨hanswer, hnext⟩ := hstep state abstract action hstate hmeet.1
      obtain ⟨hanswers, hfinal⟩ := ih hnext hmeet.2
      constructor
      · simp only [trace, List.map_cons, hanswer, hanswers]
      · exact hfinal

/-! ## Components whose calls can fault -/

/-- The answers to a sequence of calls, and the state after them; `none` as
soon as one of the calls faults. -/
def checkedTrace (step : State → Action → Option (Output × State)) :
    State → List Action → Option (List Output × State)
  | state, [] => some ([], state)
  | state, action :: schedule => do
      let (output, next) ← step state action
      let (outputs, final) ← checkedTrace step next schedule
      return (output :: outputs, final)

/-- A relation under which no call faults and single calls answer alike and
stay related makes all call sequences answer alike, without a fault. -/
theorem checkedTrace_refines
    (step : State → Action → Option (Output × State))
    (spec : Abstract → Action → Output × Abstract)
    {Represents : State → Abstract → Prop}
    (hstep : ∀ state abstract action, Represents state abstract →
      ∃ next, step state action = some ((spec abstract action).1, next) ∧
        Represents next (spec abstract action).2)
    {state : State} {abstract : Abstract}
    (hstate : Represents state abstract) (schedule : List Action) :
    ∃ final,
      checkedTrace step state schedule =
          some ((trace spec abstract schedule).1, final) ∧
        Represents final (trace spec abstract schedule).2 := by
  induction schedule generalizing state abstract with
  | nil => exact ⟨state, rfl, hstate⟩
  | cons action schedule ih =>
      obtain ⟨next, hnext, hrelated⟩ := hstep state abstract action hstate
      obtain ⟨final, hrest, hfinal⟩ := ih hrelated
      refine ⟨final, ?_, hfinal⟩
      simp [checkedTrace, trace, hnext, hrest]

/-- The same for calls that meet a guard in the specification. -/
theorem checkedTrace_of_callsMeet
    (step : State → Action → Option (Output × State))
    (spec : Abstract → Action → Output × Abstract)
    {Represents : State → Abstract → Prop}
    {guard : Abstract → Action → Prop}
    (hstep : ∀ state abstract action, Represents state abstract →
      guard abstract action →
      ∃ next, step state action = some ((spec abstract action).1, next) ∧
        Represents next (spec abstract action).2)
    {state : State} {abstract : Abstract}
    (hstate : Represents state abstract) {schedule : List Action}
    (hmeet : CallsMeet spec guard abstract schedule) :
    ∃ final,
      checkedTrace step state schedule =
          some ((trace spec abstract schedule).1, final) ∧
        Represents final (trace spec abstract schedule).2 := by
  induction schedule generalizing state abstract with
  | nil => exact ⟨state, rfl, hstate⟩
  | cons action schedule ih =>
      obtain ⟨next, hnext, hrelated⟩ :=
        hstep state abstract action hstate hmeet.1
      obtain ⟨final, hrest, hfinal⟩ := ih hrelated hmeet.2
      refine ⟨final, ?_, hfinal⟩
      simp [checkedTrace, trace, hnext, hrest]

end Traces

end KataCpp.TransitionSystem
