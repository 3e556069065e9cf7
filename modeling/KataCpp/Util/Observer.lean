import KataCpp.Core.TransitionSystem

/-!
# Observers of a subject

`CSubject` keeps its observers in the order in which they were attached.
`Detach` walks over them to find the one to erase, but its loop erases the
observer at which it starts, without comparing it, and ends: whatever observer
is to be detached, the one attached first is removed.
-/

namespace KataCpp

open TransitionSystem

variable {Observer : Type*}

/-- A `CSubject` with pointers of type `Observer`. -/
structure Subject (Observer : Type*) where
  observers : List Observer
  deriving DecidableEq

namespace Subject

def construct : Subject Observer := ⟨[]⟩

def attach (subject : Subject Observer) (pObserver : Observer) :
    Subject Observer where
  observers := subject.observers ++ [pObserver]

/-- The loop of `Detach` from the iterator at index `it` on.  Its body ends in
`break`, so there is no second pass. -/
def detachLoop (observers : List Observer) (it : ℕ) : List Observer :=
  if it ≠ observers.length then observers.eraseIdx it else observers

def detach (subject : Subject Observer) (_pObserver : Observer) :
    Subject Observer where
  observers := detachLoop subject.observers 0

inductive Call (Observer : Type*) where
  | attach (pObserver : Observer)
  | detach (pObserver : Observer)
  deriving DecidableEq

def perform (subject : Subject Observer) : Call Observer → Subject Observer
  | .attach pObserver => subject.attach pObserver
  | .detach pObserver => subject.detach pObserver

theorem detachLoop_eq_tail (observers : List Observer) :
    detachLoop observers 0 = observers.tail := by
  cases observers with
  | nil => rfl
  | cons first rest => rfl

variable [DecidableEq Observer]

/-- Attaching adds an observer at the end, and detaching removes its first
occurrence, if there is one. -/
def intended (observers : List Observer) : Call Observer → List Observer
  | .attach pObserver => observers ++ [pObserver]
  | .detach pObserver => observers.erase pObserver

/-- The observers that are attached after a history of calls. -/
def attached (history : List (Call Observer)) : List Observer :=
  history.foldl intended []

/-- A call, with the history of the calls so far. -/
def step (state : List (Call Observer) × Subject Observer)
    (call : Call Observer) :
    Option (List (Call Observer) × Subject Observer) :=
  some (state.1 ++ [call], state.2.perform call)

def InStep (state : List (Call Observer) × Subject Observer) : Prop :=
  state.2.observers = attached state.1

/-- The observer to be detached is the first in the list, or the list is
empty. -/
def DetachesFirst (state : List (Call Observer) × Subject Observer) :
    Call Observer → Prop
  | .attach _ => True
  | .detach pObserver =>
      state.2.observers = [] ∨ state.2.observers.head? = some pObserver

/-- A list without its first element is a list without a given element only if
that is the first one. -/
theorem tail_eq_erase_iff (observers : List Observer) (pObserver : Observer) :
    observers.tail = observers.erase pObserver ↔
      observers = [] ∨ observers.head? = some pObserver := by
  induction observers with
  | nil => simp
  | cons first rest ih =>
      by_cases hfirst : first = pObserver
      · subst hfirst
        simp
      · -- the equation would go on along the rest of the list
        have hrest : rest ≠ first :: rest.erase pObserver := by
          intro hequal
          have htail : rest.tail = rest.erase pObserver := by
            rw [hequal, List.tail_cons, ← hequal]
          rcases ih.mp htail with hempty | hhead
          · rw [hempty] at hequal
            simp at hequal
          · rw [hequal, List.head?_cons, Option.some.injEq] at hhead
            exact hfirst hhead
        simp [hfirst, hrest]

theorem attached_concat (history : List (Call Observer))
    (call : Call Observer) :
    attached (history ++ [call]) = intended (attached history) call := by
  rw [attached, List.foldl_append]
  rfl

/-- A call does what it is meant to do exactly when it detaches the first
observer, if it is to detach one. -/
theorem inStep_perform_iff {state : List (Call Observer) × Subject Observer}
    (hstate : InStep state) (call : Call Observer) :
    InStep (state.1 ++ [call], state.2.perform call) ↔
      DetachesFirst state call := by
  rw [InStep] at hstate
  rw [InStep, attached_concat, ← hstate]
  cases call with
  | attach pObserver => exact iff_of_true rfl trivial
  | detach pObserver =>
      rw [perform, detach, intended, detachLoop_eq_tail]
      exact tail_eq_erase_iff _ _

/-- Along a sequence of calls on a new subject the list is always that of the
attached observers, exactly when every call that is to detach an observer finds
it at the front or finds the list empty. -/
theorem always_inStep_iff (calls : List (Call Observer)) :
    Always step InStep ([], construct) calls ↔
      Meets step DetachesFirst ([], construct) calls := by
  apply always_iff_meets_of_restored InStep
  · exact fun state hstate => hstate
  · intro state call next hstate hnext
    obtain rfl := Option.some.inj hnext
    exact inStep_perform_iff hstate call
  · exact fun state call next hstate hnext hinStep => hinStep
  · rfl

/-- The second of two observers is detached, and the first one removed. -/
theorem detach_second :
    run step (([] : List (Call ℕ)), construct)
        [.attach 1, .attach 2, .detach 2] =
      some ([.attach 1, .attach 2, .detach 2], ⟨[2]⟩) ∧
      attached [.attach 1, .attach 2, .detach 2] = [1] ∧
      ¬ Always step InStep (([] : List (Call ℕ)), construct)
        [.attach 1, .attach 2, .detach 2] := by
  have hrun : run step (([] : List (Call ℕ)), construct)
      [.attach 1, .attach 2, .detach 2] =
      some ([.attach 1, .attach 2, .detach 2], ⟨[2]⟩) := by
    decide
  refine ⟨hrun, by decide, ?_⟩
  intro halways
  have hlast : [2] = attached [.attach 1, .attach 2, .detach 2] :=
    halways.final hrun
  exact absurd hlast (by decide)

end Subject

end KataCpp
