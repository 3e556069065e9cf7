import Mathlib

/-!
# Bounded lists

The abstract purpose of the bounded containers: a list of at most `capacity`
items, oldest first.  Taking an item from the empty list fails with `-1` and
leaves the caller's variable as it was, as the containers' `dequeue` does.
-/

namespace KataCpp.BoundedList

variable {α : Type*}

/-- A call of one of the containers.  `dequeue` carries the content of the
caller's variable that it takes by reference. -/
inductive Call (α : Type*) where
  | enqueue (item : α)
  | dequeue (result : α)
  deriving DecidableEq

/-- What a call gives back: nothing, or a return code and the content of the
caller's variable after the call. -/
abbrev Answer (α : Type*) := Option (ℤ × α)

/-- Appending to a full list drops the oldest item. -/
def enqueueOverwriting (capacity : ℕ) (items : List α) (item : α) : List α :=
  if items.length < capacity then items ++ [item] else items.tail ++ [item]

def dequeue (items : List α) (result : α) : (ℤ × α) × List α :=
  match items with
  | [] => ((-1, result), [])
  | item :: rest => ((0, item), rest)

/-- The bounded list that overwrites its oldest item. -/
def performOverwriting (capacity : ℕ) (items : List α) :
    Call α → Answer α × List α
  | .enqueue item => (none, enqueueOverwriting capacity items item)
  | .dequeue result => ((dequeue items result).map some id)

end KataCpp.BoundedList
