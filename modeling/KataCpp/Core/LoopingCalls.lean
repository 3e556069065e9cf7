import KataCpp.Core.Iteration
import KataCpp.Core.TransitionSystem

/-!
# Components whose calls run loops

A call of such a component is computed with fuel, and it may fault.  What is
around the component may only make the calls that are permitted in the state in
which it makes them.  If every permitted call returns with what a specification
says, every permitted sequence of calls does.
-/

namespace KataCpp.TransitionSystem

open Iteration

variable {State Abstract Action Output : Type*}

/-- Calls that are given in another form. -/
theorem trace_map {Call : Type*} (spec : Abstract → Action → Output × Abstract)
    (translate : Call → Action) (abstract : Abstract) (schedule : List Call) :
    trace spec abstract (schedule.map translate) =
      trace (fun state call => spec state (translate call)) abstract
        schedule := by
  induction schedule generalizing abstract with
  | nil => rfl
  | cons call schedule ih => simp only [List.map_cons, trace, ih]

theorem trace_append (spec : Abstract → Action → Output × Abstract)
    (abstract : Abstract) (done rest : List Action) :
    trace spec abstract (done ++ rest) =
      ((trace spec abstract done).1 ++
          (trace spec (trace spec abstract done).2 rest).1,
        (trace spec (trace spec abstract done).2 rest).2) := by
  induction done generalizing abstract with
  | nil => rfl
  | cons action done ih => simp only [List.cons_append, trace, ih]

theorem length_trace (spec : Abstract → Action → Output × Abstract)
    (abstract : Abstract) (schedule : List Action) :
    (trace spec abstract schedule).1.length = schedule.length := by
  induction schedule generalizing abstract with
  | nil => rfl
  | cons action schedule ih => simp only [trace, List.length_cons, ih]

/-- Every call of the sequence is allowed in the state in which it is made. -/
def Permitted (step : ℕ → State → Action → Option (Output × State))
    (allowed : State → Action → Prop) : State → List Action → Prop
  | _, [] => True
  | state, action :: schedule =>
      allowed state action ∧
        ∀ output next, Returns (step · state action) (output, next) →
          Permitted step allowed next schedule

variable {step : ℕ → State → Action → Option (Output × State)}
  {allowed : State → Action → Prop}

/-- A call that is allowed, and what is permitted behind it. -/
theorem permitted_cons {state next : State} {action : Action}
    {schedule : List Action} {output : Output}
    (hallowed : allowed state action)
    (hstep : Returns (step · state action) (output, next))
    (hrest : Permitted step allowed next schedule) :
    Permitted step allowed state (action :: schedule) := by
  refine ⟨hallowed, fun other following hother => ?_⟩
  obtain ⟨-, rfl⟩ := Prod.mk.inj (hstep.unique hother)
  exact hrest

/-- A call that returns, and then a sequence of calls that returns. -/
theorem returns_checkedTrace_cons {state next final : State}
    {action : Action} {schedule : List Action} {output : Output}
    {outputs : List Output}
    (hstep : Returns (step · state action) (output, next))
    (hrest : Returns (fun fuel => checkedTrace (step fuel) next schedule)
      (outputs, final)) :
    Returns (fun fuel => checkedTrace (step fuel) state (action :: schedule))
      (output :: outputs, final) := by
  obtain ⟨first, hfirst⟩ := hstep
  obtain ⟨second, hsecond⟩ := hrest
  refine ⟨max first second, fun fuel hfuel => ?_⟩
  have hcall := hfirst fuel (le_of_max_le_left hfuel)
  have hcalls := hsecond fuel (le_of_max_le_right hfuel)
  simp [checkedTrace, hcall, hcalls]

/-- A relation under which allowed calls return as specified makes all
permitted sequences of calls return as specified.  What is permitted behind
them is permitted in the state that they lead to. -/
theorem returns_checkedTrace_append
    (spec : Abstract → Action → Output × Abstract)
    {Represents : State → Abstract → Prop}
    (hstep : ∀ state abstract action, Represents state abstract →
      allowed state action →
      ∃ next, Returns (step · state action)
          ((spec abstract action).1, next) ∧
        Represents next (spec abstract action).2)
    {state : State} {abstract : Abstract}
    (hstate : Represents state abstract) {schedule rest : List Action}
    (hpermitted : Permitted step allowed state (schedule ++ rest)) :
    ∃ final,
      Returns (fun fuel => checkedTrace (step fuel) state schedule)
          ((trace spec abstract schedule).1, final) ∧
        Represents final (trace spec abstract schedule).2 ∧
        Permitted step allowed final rest := by
  induction schedule generalizing state abstract with
  | nil => exact ⟨state, returns_some _, hstate, hpermitted⟩
  | cons action schedule ih =>
      obtain ⟨hallowed, hrest⟩ := hpermitted
      obtain ⟨next, hnext, hrelated⟩ :=
        hstep state abstract action hstate hallowed
      obtain ⟨final, hreturns, hfinal⟩ := ih hrelated (hrest _ _ hnext)
      exact ⟨final, returns_checkedTrace_cons hnext hreturns, hfinal⟩

theorem returns_checkedTrace
    (spec : Abstract → Action → Output × Abstract)
    {Represents : State → Abstract → Prop}
    (hstep : ∀ state abstract action, Represents state abstract →
      allowed state action →
      ∃ next, Returns (step · state action)
          ((spec abstract action).1, next) ∧
        Represents next (spec abstract action).2)
    {state : State} {abstract : Abstract}
    (hstate : Represents state abstract) {schedule : List Action}
    (hpermitted : Permitted step allowed state schedule) :
    ∃ final,
      Returns (fun fuel => checkedTrace (step fuel) state schedule)
          ((trace spec abstract schedule).1, final) ∧
        Represents final (trace spec abstract schedule).2 := by
  rw [← List.append_nil schedule] at hpermitted
  obtain ⟨final, hreturns, hfinal, -⟩ :=
    returns_checkedTrace_append spec hstep hstate hpermitted
  exact ⟨final, hreturns, hfinal⟩

/-- The rule for calls that run no loops. -/
theorem checkedTrace_of_permitted
    {call : State → Action → Option (Output × State)}
    (spec : Abstract → Action → Output × Abstract)
    {Represents : State → Abstract → Prop}
    (hstep : ∀ state abstract action, Represents state abstract →
      allowed state action →
      ∃ next, call state action = some ((spec abstract action).1, next) ∧
        Represents next (spec abstract action).2)
    {state : State} {abstract : Abstract}
    (hstate : Represents state abstract) {schedule rest : List Action}
    (hpermitted : Permitted (fun _ => call) allowed state
      (schedule ++ rest)) :
    ∃ final,
      checkedTrace call state schedule =
          some ((trace spec abstract schedule).1, final) ∧
        Represents final (trace spec abstract schedule).2 ∧
        Permitted (fun _ => call) allowed final rest := by
  obtain ⟨final, ⟨bound, hbound⟩, hfinal⟩ :=
    returns_checkedTrace_append spec (fun state abstract action hstate
      hallowed => by
        obtain ⟨next, hnext, hrelated⟩ :=
          hstep state abstract action hstate hallowed
        exact ⟨next, ⟨0, fun _ _ => hnext⟩, hrelated⟩) hstate hpermitted
  exact ⟨final, hbound bound le_rfl, hfinal⟩

end KataCpp.TransitionSystem
