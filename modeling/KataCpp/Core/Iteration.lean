import Mathlib

/-!
# Loops and iterates

A loop of the program is given by its body, which continues with a new state,
leaves the loop with a result, or faults.  It is run with fuel, and `Returns`
says that every sufficient amount of fuel gives the result, so a loop that
spins or faults returns nothing.  `loop_returns` is the total-correctness rule:
an invariant together with a variant that decreases in a well-founded order.

`whileLoop` is the loop of a condition and a body that may fault.  A `for` loop
over a range needs no fuel; `forRange_invariant` is its rule.

The last part collects what the two-pointer technique needs about the iterates
of a function on a finite type.
-/

namespace KataCpp.Iteration

variable {State Result Final : Type*}

/-- What one pass through a loop body does. -/
inductive Outcome (State Result : Type*) where
  | next (state : State)
  | exit (result : Result)
  | fault

def loop (body : State → Outcome State Result) : ℕ → State → Option Result
  | 0, _ => none
  | fuel + 1, state =>
      match body state with
      | .next next => loop body fuel next
      | .exit result => some result
      | .fault => none

/-- A fuelled computation returns `result` with all sufficient fuel. -/
def Returns (compute : ℕ → Option Result) (result : Result) : Prop :=
  ∃ bound, ∀ fuel, bound ≤ fuel → compute fuel = some result

section Rules

theorem returns_some (result : Result) :
    Returns (fun _ => some result) result :=
  ⟨0, fun _ _ => rfl⟩

/-- A computation returns at most one result. -/
theorem Returns.unique {compute : ℕ → Option Result} {left right : Result}
    (hleft : Returns compute left) (hright : Returns compute right) :
    left = right := by
  obtain ⟨first, hfirst⟩ := hleft
  obtain ⟨second, hsecond⟩ := hright
  have hequal := (hfirst _ (le_max_left first second)).symm.trans
    (hsecond _ (le_max_right first second))
  exact Option.some.inj hequal

/-- A computation that has no result with any fuel does not return. -/
theorem not_returns {compute : ℕ → Option Result}
    (hnone : ∀ fuel, compute fuel = none) (result : Result) :
    ¬Returns compute result := by
  rintro ⟨bound, hbound⟩
  have hresult := hbound bound le_rfl
  rw [hnone bound] at hresult
  contradiction

theorem Returns.succ {compute : ℕ → Option Result} {result : Result}
    (hcompute : Returns compute result) :
    Returns (fun fuel => compute (fuel + 1)) result := by
  obtain ⟨bound, hbound⟩ := hcompute
  exact ⟨bound, fun fuel hfuel => hbound (fuel + 1) (by omega)⟩

/-- One more unit of fuel than a computation that returns. -/
theorem returns_of_succ {compute : ℕ → Option Result} {result : Result}
    (hcompute : Returns (fun fuel => compute (fuel + 1)) result) :
    Returns compute result := by
  obtain ⟨bound, hbound⟩ := hcompute
  refine ⟨bound + 1, fun fuel hfuel => ?_⟩
  obtain ⟨rest, rfl⟩ := Nat.exists_eq_add_of_le' (Nat.le_of_add_left_le hfuel)
  exact hbound rest (by omega)

/-- A result that more fuel does not change is returned. -/
theorem returns_of_eq_some {compute : ℕ → Option Result} {result : Result}
    (hmono : ∀ fuel, compute fuel = some result →
      compute (fuel + 1) = some result)
    {fuel : ℕ} (hfuel : compute fuel = some result) :
    Returns compute result := by
  refine ⟨fuel, fun larger hlarger => ?_⟩
  induction larger, hlarger using Nat.le_induction with
  | base => exact hfuel
  | succ larger _ ih => exact hmono larger ih

theorem Returns.bind {compute : ℕ → Option Result}
    {continuation : Result → ℕ → Option Final} {result : Result}
    {final : Final} (hcompute : Returns compute result)
    (hcontinuation : Returns (continuation result) final) :
    Returns
      (fun fuel => (compute fuel).bind fun r => continuation r fuel) final := by
  obtain ⟨first, hfirst⟩ := hcompute
  obtain ⟨second, hsecond⟩ := hcontinuation
  refine ⟨max first second, fun fuel hfuel => ?_⟩
  simp only [hfirst fuel (le_of_max_le_left hfuel), Option.bind_some]
  exact hsecond fuel (le_of_max_le_right hfuel)

variable {body : State → Outcome State Result}

theorem returns_of_exit {state : State} {result : Result}
    (hbody : body state = .exit result) :
    Returns (loop body · state) result := by
  refine ⟨1, fun fuel hfuel => ?_⟩
  obtain ⟨rest, rfl⟩ := Nat.exists_eq_add_of_le' hfuel
  simp only [loop, hbody]

theorem returns_of_next {state next : State} {result : Result}
    (hbody : body state = .next next)
    (hrest : Returns (loop body · next) result) :
    Returns (loop body · state) result := by
  obtain ⟨bound, hbound⟩ := hrest
  refine ⟨bound + 1, fun fuel hfuel => ?_⟩
  obtain ⟨rest, rfl⟩ := Nat.exists_eq_add_of_le' (Nat.le_of_add_left_le hfuel)
  simp only [loop, hbody]
  exact hbound rest (by omega)

/-- A loop that goes through given states. -/
theorem loop_add (state : ℕ → State) (steps : ℕ)
    (hnext : ∀ step < steps, body (state step) = .next (state (step + 1)))
    (fuel : ℕ) :
    loop body (fuel + steps) (state 0) = loop body fuel (state steps) := by
  induction steps generalizing state with
  | zero => rfl
  | succ steps ih =>
      rw [← Nat.add_assoc, loop, hnext 0 steps.succ_pos]
      apply ih fun step => state (step + 1)
      exact fun step hstep => hnext (step + 1) (Nat.succ_lt_succ hstep)

/-- A loop that goes through given states and leaves at the last one. -/
theorem loop_of_steps (state : ℕ → State) (steps : ℕ) {result : Result}
    (hnext : ∀ step < steps, body (state step) = .next (state (step + 1)))
    (hexit : body (state steps) = .exit result) {fuel : ℕ}
    (hfuel : steps < fuel) : loop body fuel (state 0) = some result := by
  obtain ⟨rest, rfl⟩ := Nat.exists_eq_add_of_le' (Nat.succ_le_of_lt hfuel)
  rw [← Nat.succ_add_eq_add_succ, loop_add state steps hnext, loop, hexit]

theorem returns_of_steps (state : ℕ → State) (steps : ℕ) {result : Result}
    (hnext : ∀ step < steps, body (state step) = .next (state (step + 1)))
    (hexit : body (state steps) = .exit result) :
    Returns (loop body · (state 0)) result :=
  ⟨steps + 1, fun _ hfuel => loop_of_steps state steps hnext hexit hfuel⟩

theorem loop_succ {state : State} {result : Result} {fuel : ℕ}
    (hfuel : loop body fuel state = some result) :
    loop body (fuel + 1) state = some result := by
  induction fuel generalizing state with
  | zero => exact absurd hfuel.symm (Option.some_ne_none result)
  | succ fuel ih =>
      rw [loop] at hfuel ⊢
      cases hbody : body state with
      | next next =>
          rw [hbody] at hfuel
          exact ih hfuel
      | exit exited =>
          rw [hbody] at hfuel
          exact hfuel
      | fault =>
          rw [hbody] at hfuel
          exact absurd hfuel.symm (Option.some_ne_none result)

/-- A pass that changes nothing is repeated for ever. -/
theorem loop_of_next_self {state : State} (hbody : body state = .next state)
    (fuel : ℕ) : loop body fuel state = none := by
  induction fuel with
  | zero => rfl
  | succ fuel ih =>
      rw [loop, hbody]
      exact ih

theorem loop_of_next {state next : State} (hbody : body state = .next next)
    (hrest : ∀ fuel, loop body fuel next = none) (fuel : ℕ) :
    loop body fuel state = none := by
  cases fuel with
  | zero => rfl
  | succ fuel =>
      rw [loop, hbody]
      exact hrest fuel

theorem loop_of_fault {state : State} (hbody : body state = .fault)
    (fuel : ℕ) : loop body fuel state = none := by
  cases fuel with
  | zero => rfl
  | succ fuel => rw [loop, hbody]

/-- Total correctness of a loop.  The invariant carries a variant from a
well-founded order: every pass either keeps the invariant with a smaller
variant, or leaves the loop with a result that satisfies the postcondition. -/
theorem loop_returns {Variant : Type*} [LT Variant] [WellFoundedLT Variant]
    (invariant : Variant → State → Prop) {post : Result → Prop}
    (hbody : ∀ variant state, invariant variant state →
      (∃ smaller next, body state = .next next ∧ smaller < variant ∧
        invariant smaller next) ∨
      ∃ result, body state = .exit result ∧ post result)
    {variant : Variant} {start : State} (hstart : invariant variant start) :
    ∃ result, Returns (loop body · start) result ∧ post result := by
  induction variant using WellFoundedLT.induction generalizing start with
  | ind variant ih =>
      rcases hbody variant start hstart with
        ⟨smaller, next, hnext, hless, hinvariant⟩ | ⟨result, hexit, hpost⟩
      · obtain ⟨result, hreturns, hpost⟩ := ih smaller hless hinvariant
        exact ⟨result, returns_of_next hnext hreturns, hpost⟩
      · exact ⟨result, returns_of_exit hexit, hpost⟩

/-- The states with which a loop begins a pass. -/
inductive Visits (body : State → Outcome State Result) (start : State) :
    State → Prop
  | start : Visits body start start
  | next {state next : State} (hstate : Visits body start state)
      (hbody : body state = .next next) : Visits body start next

theorem Visits.invariant {start state : State}
    (hvisits : Visits body start state) (invariant : State → Prop)
    (hstart : invariant start)
    (hbody : ∀ state next, invariant state → body state = .next next →
      invariant next) : invariant state := by
  induction hvisits with
  | start => exact hstart
  | next _ hnext ih => exact hbody _ _ ih hnext

theorem Visits.of_next {start next state : State}
    (hbody : body start = .next next) (hvisits : Visits body next state) :
    Visits body start state := by
  induction hvisits with
  | start => exact Visits.start.next hbody
  | next _ hnext ih => exact ih.next hnext

/-- A result comes from one of the states with which the loop begins a pass. -/
theorem exists_visits_of_loop {start : State} {result : Result} {fuel : ℕ}
    (hresult : loop body fuel start = some result) :
    ∃ state, Visits body start state ∧ body state = .exit result := by
  induction fuel generalizing start with
  | zero => exact absurd hresult.symm (Option.some_ne_none result)
  | succ fuel ih =>
      rw [loop] at hresult
      cases hbody : body start with
      | next next =>
          rw [hbody] at hresult
          obtain ⟨state, hvisits, hexit⟩ := ih hresult
          exact ⟨state, hvisits.of_next hbody, hexit⟩
      | exit exited =>
          rw [hbody] at hresult
          obtain rfl := Option.some.inj hresult
          exact ⟨start, Visits.start, hbody⟩
      | fault =>
          rw [hbody] at hresult
          exact absurd hresult.symm (Option.some_ne_none result)

inductive Outcome.Matches {Abstract Answer : Type*}
    (Related : State → Abstract → Prop) (answer : Result → Answer) :
    Outcome State Result → Outcome Abstract Answer → Prop
  | next {state : State} {abstract : Abstract}
      (hrelated : Related state abstract) :
      Matches Related answer (.next state) (.next abstract)
  | exit (result : Result) :
      Matches Related answer (.exit result) (.exit (answer result))

/-- Loops whose passes match from related states give matching results. -/
theorem loop_simulates {Abstract Answer : Type*}
    {spec : Abstract → Outcome Abstract Answer}
    {Related : State → Abstract → Prop} {answer : Result → Answer}
    (hbody : ∀ state abstract, Related state abstract →
      (body state).Matches Related answer (spec abstract))
    (fuel : ℕ) {state : State} {abstract : Abstract}
    (hrelated : Related state abstract) :
    (loop body fuel state).map answer = loop spec fuel abstract := by
  induction fuel generalizing state abstract with
  | zero => rfl
  | succ fuel ih =>
      have hpass := hbody state abstract hrelated
      simp only [loop]
      generalize body state = left at hpass ⊢
      generalize spec abstract = right at hpass ⊢
      cases hpass with
      | next hnext => exact ih hnext
      | exit result => rfl

end Rules

section WhileLoops

variable (condition : State → Prop) [DecidablePred condition]
  (body : State → Option State)

def whilePass (state : State) : Outcome State State :=
  if condition state then
    match body state with
    | some next => .next next
    | none => .fault
  else .exit state

/-- A `while` loop with a body that may fault. -/
def whileLoop (fuel : ℕ) (start : State) : Option State :=
  loop (whilePass condition body) fuel start

variable {condition body}

theorem whilePass_of_condition {state next : State}
    (hcondition : condition state) (hbody : body state = some next) :
    whilePass condition body state = .next next := by
  rw [whilePass, if_pos hcondition, hbody]

theorem whilePass_of_not {state : State} (hcondition : ¬condition state) :
    whilePass condition body state = .exit state :=
  if_neg hcondition

/-- A pass that goes on has tested the condition and run the body. -/
theorem of_whilePass_eq_next {state next : State}
    (hpass : whilePass condition body state = .next next) :
    condition state ∧ body state = some next := by
  rw [whilePass] at hpass
  split_ifs at hpass with hcondition
  refine ⟨hcondition, ?_⟩
  cases hbody : body state with
  | none => simp [hbody] at hpass
  | some reached => simpa [hbody] using hpass

theorem whileLoop_succ_of_condition {state next : State}
    (hcondition : condition state) (hbody : body state = some next)
    (fuel : ℕ) :
    whileLoop condition body (fuel + 1) state =
      whileLoop condition body fuel next := by
  rw [whileLoop, loop, whilePass_of_condition hcondition hbody]
  rfl

theorem whileLoop_succ_of_not {state : State} (hcondition : ¬condition state)
    (fuel : ℕ) : whileLoop condition body (fuel + 1) state = some state := by
  rw [whileLoop, loop, whilePass_of_not hcondition]

/-- Total correctness of a `while` loop: an invariant with a variant, and a
postcondition that follows from it when the condition fails. -/
theorem whileLoop_returns {Variant : Type*} [LT Variant]
    [WellFoundedLT Variant] (invariant : Variant → State → Prop)
    {post : State → Prop} {variant : Variant} {start : State}
    (hstart : invariant variant start)
    (hbody : ∀ variant state, invariant variant state → condition state →
      ∃ smaller next, body state = some next ∧ smaller < variant ∧
        invariant smaller next)
    (hexit : ∀ variant state, invariant variant state → ¬condition state →
      post state) :
    ∃ final, Returns (whileLoop condition body · start) final ∧
      post final := by
  apply loop_returns invariant _ hstart
  intro variant state hinvariant
  by_cases hcondition : condition state
  · obtain ⟨smaller, next, hnext, hless, hkept⟩ :=
      hbody variant state hinvariant hcondition
    exact Or.inl ⟨smaller, next, whilePass_of_condition hcondition hnext,
      hless, hkept⟩
  · exact Or.inr ⟨state, whilePass_of_not hcondition,
      hexit variant state hinvariant hcondition⟩

/-- The same for a given amount of fuel, which has to be greater than the
variant.  The body may depend on the fuel, as that of a nested loop does. -/
theorem whileLoop_of_variant_lt (invariant : ℕ → State → Prop)
    {post : State → Prop} {variant fuel : ℕ} {start : State}
    (hfuel : variant < fuel) (hstart : invariant variant start)
    (hbody : ∀ variant state, invariant variant state → condition state →
      ∃ smaller next, body state = some next ∧ smaller < variant ∧
        invariant smaller next)
    (hexit : ∀ variant state, invariant variant state → ¬condition state →
      post state) :
    ∃ final, whileLoop condition body fuel start = some final ∧
      post final := by
  induction fuel generalizing variant start with
  | zero => exact absurd hfuel (Nat.not_lt_zero variant)
  | succ fuel ih =>
      by_cases hcondition : condition start
      · obtain ⟨smaller, next, hnext, hless, hkept⟩ :=
          hbody variant start hstart hcondition
        rw [whileLoop_succ_of_condition hcondition hnext]
        exact ih (by omega) hkept
      · rw [whileLoop_succ_of_not hcondition]
        exact ⟨start, rfl, hexit variant start hstart hcondition⟩

end WhileLoops

section ForLoops

/-- A `for` loop over `0, …, count - 1` with a body that may fault. -/
def forRange (count : ℕ) (body : State → ℕ → Option State) (start : State) :
    Option State :=
  (List.range count).foldlM body start

/-- A loop whose first pass faults. -/
theorem forRange_eq_none {count : ℕ} {body : State → ℕ → Option State}
    {start : State} (hcount : 0 < count) (hbody : body start 0 = none) :
    forRange count body start = none := by
  obtain ⟨rest, rfl⟩ := Nat.exists_eq_add_of_le' hcount
  rw [forRange, List.range_succ_eq_map, List.foldlM_cons, hbody]
  rfl

/-- An invariant that every pass takes to the next index holds at the end. -/
theorem forRange_invariant (invariant : ℕ → State → Prop) {count : ℕ}
    {body : State → ℕ → Option State} {start : State}
    (hstart : invariant 0 start)
    (hbody : ∀ index state, index < count → invariant index state →
      ∃ next, body state index = some next ∧ invariant (index + 1) next) :
    ∃ final, forRange count body start = some final ∧
      invariant count final := by
  induction count with
  | zero => exact ⟨start, rfl, hstart⟩
  | succ count ih =>
      obtain ⟨state, hstate, hinvariant⟩ := ih fun index state hindex =>
        hbody index state (by omega)
      obtain ⟨next, hnext, hfinal⟩ :=
        hbody count state (Nat.lt_succ_self count) hinvariant
      refine ⟨next, ?_, hfinal⟩
      rw [forRange] at hstate ⊢
      rw [List.range_succ, List.foldlM_append, hstate, Option.bind_eq_bind,
        Option.bind_some, List.foldlM_cons, hnext]
      rfl

/-- What every pass that succeeds keeps holds at the end of a loop that
succeeds. -/
theorem of_forRange_eq_some (invariant : ℕ → State → Prop) {count : ℕ}
    {body : State → ℕ → Option State} {start final : State}
    (hstart : invariant 0 start)
    (hbody : ∀ index state next, index < count → invariant index state →
      body state index = some next → invariant (index + 1) next)
    (hfinal : forRange count body start = some final) :
    invariant count final := by
  induction count generalizing final with
  | zero =>
      obtain rfl := Option.some.inj hfinal
      exact hstart
  | succ count ih =>
      rw [forRange, List.range_succ, List.foldlM_append] at hfinal
      obtain ⟨state, hstate, hlast⟩ := Option.bind_eq_some_iff.mp hfinal
      rw [List.foldlM_cons] at hlast
      obtain ⟨next, hnext, hend⟩ := Option.bind_eq_some_iff.mp hlast
      obtain rfl := Option.some.inj hend
      have hbefore := ih (fun index state next hindex =>
        hbody index state next (by omega)) hstate
      exact hbody count state next (Nat.lt_succ_self count) hbefore hnext

end ForLoops

section Iterates

open Function

variable {β : Type*} {f : β → β} {x : β}

/-- On a finite type some iterate is met again after as many steps as it took
to reach it. -/
theorem exists_iterate_double_eq [Finite β] (f : β → β) (x : β) :
    ∃ count, 0 < count ∧ f^[2 * count] x = f^[count] x := by
  obtain ⟨first, second, hlt, heq⟩ :
      ∃ first second, first < second ∧ f^[first] x = f^[second] x := by
    obtain ⟨first, second, hne, heq⟩ :=
      Finite.exists_ne_map_eq_of_infinite fun count : ℕ => f^[count] x
    rcases hne.lt_or_gt with hlt | hgt
    · exact ⟨first, second, hlt, heq⟩
    · exact ⟨second, first, hgt, heq.symm⟩
  have hperiod : IsPeriodicPt f (second - first) (f^[first] x) := by
    rw [IsPeriodicPt, IsFixedPt, ← iterate_add_apply, heq]
    congr 2
    omega
  -- A multiple of the period that lies beyond the tail.
  have hmultiple : first ≤ (second - first) * (first + 1) := by
    calc first ≤ 1 * (first + 1) := by omega
      _ ≤ (second - first) * (first + 1) := by gcongr; omega
  refine ⟨(second - first) * (first + 1), by
    exact Nat.mul_pos (by omega) (by omega), ?_⟩
  have hlater := (hperiod.mul_const (first + 1)).apply_iterate
    ((second - first) * (first + 1) - first)
  rw [← iterate_add_apply, Nat.sub_add_cancel hmultiple] at hlater
  rw [two_mul, iterate_add_apply]
  exact hlater

/-- What repeats after `count` steps is on a cycle, and every point of the
orbit lies on a cycle exactly when it repeats after `count` steps. -/
theorem mem_periodicPts_iterate_iff {count index : ℕ} (hcount : 0 < count)
    (hmeet : f^[2 * count] x = f^[count] x) (hindex : index ≤ count) :
    f^[index] x ∈ periodicPts f ↔ f^[index] x = f^[count + index] x := by
  constructor
  · intro hperiodic
    have hlater : IsPeriodicPt f count (f^[count - index] (f^[index] x)) := by
      rw [← iterate_add_apply, Nat.sub_add_cancel hindex, IsPeriodicPt,
        IsFixedPt, ← iterate_add_apply, ← two_mul, hmeet]
    have hhere := isPeriodicPt_of_mem_periodicPts_of_isPeriodicPt_iterate
      hperiodic hlater
    rw [iterate_add_apply]
    exact hhere.symm
  · intro heq
    refine mk_mem_periodicPts hcount ?_
    rw [IsPeriodicPt, IsFixedPt, ← iterate_add_apply, ← heq]

end Iterates

end KataCpp.Iteration
