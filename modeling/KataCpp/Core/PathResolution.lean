import Mathlib

/-!
# Resolving paths

A path is resolved by walking through its components from the root, or from the
current directory.  An empty component and a dot stay where they are, two dots
lead to the parent, and any other component leads into a directory.

A walk that never goes to a parent stays below the place where it starts.
-/

namespace KataCpp.PathResolution

variable {α : Type*} [DecidableEq α]

def walk (dot : α) (place : List (List α)) (component : List α) :
    List (List α) :=
  if component = [] ∨ component = [dot] then place
  else if component = [dot, dot] then place.dropLast
  else place ++ [component]

def resolve (slash dot : α) (current : List (List α)) (path : List α) :
    List (List α) :=
  (path.splitOn slash).foldl (walk dot)
    (if path.head? = some slash then [] else current)

variable {slash dot : α}

theorem prefix_walk {component : List α} (hcomponent : component ≠ [dot, dot])
    (place : List (List α)) : place <+: walk dot place component := by
  rw [walk, if_neg hcomponent]
  split
  · exact List.prefix_refl place
  · exact List.prefix_append place [component]

theorem prefix_foldl_walk {components : List (List α)}
    (hcomponents : [dot, dot] ∉ components) (place : List (List α)) :
    place <+: components.foldl (walk dot) place := by
  induction components generalizing place with
  | nil => exact List.prefix_refl place
  | cons component components ih =>
      rw [List.mem_cons, not_or] at hcomponents
      exact (prefix_walk (Ne.symm hcomponents.1) place).trans
        (ih hcomponents.2 _)

omit [DecidableEq α] in
theorem infix_intercalate {separator component : List α}
    {components : List (List α)} (hmem : component ∈ components) :
    component <:+: separator.intercalate components := by
  induction components with
  | nil => exact absurd hmem List.not_mem_nil
  | cons head components ih =>
      rcases List.mem_cons.mp hmem with rfl | hrest
      · cases components with
        | nil => simp
        | cons next components =>
            rw [List.intercalate_cons_cons, List.append_assoc]
            exact (List.prefix_append _ _).isInfix
      · cases components with
        | nil => exact absurd hrest List.not_mem_nil
        | cons next components =>
            rw [List.intercalate_cons_cons]
            exact (ih hrest).trans (List.suffix_append _ _).isInfix

theorem infix_of_mem_splitOn {component path : List α}
    (hmem : component ∈ path.splitOn slash) : component <:+: path := by
  have hinfix : component <:+: [slash].intercalate (path.splitOn slash) :=
    infix_intercalate hmem
  rwa [List.intercalate_splitOn] at hinfix

/-- A path that starts with a directory is walked from this directory. -/
theorem resolve_append (current : List (List α)) (directory rest : List α) :
    resolve slash dot current (directory ++ slash :: rest) =
      (rest.splitOn slash).foldl (walk dot)
        (resolve slash dot current (directory ++ [slash])) := by
  have hhead : (directory ++ slash :: rest).head? =
      (directory ++ [slash]).head? := by
    cases directory <;> rfl
  rw [resolve, resolve, hhead, List.splitOn_append_cons_self,
    List.splitOn_append_cons_self, List.foldl_append, List.foldl_append]
  simp [walk]

/-- Behind a directory, a path without two dots in a row stays inside. -/
theorem resolve_prefix (current : List (List α)) (directory : List α)
    {rest : List α} (hrest : ¬ [dot, dot] <:+: rest) :
    resolve slash dot current (directory ++ [slash]) <+:
      resolve slash dot current (directory ++ slash :: rest) := by
  rw [resolve_append current directory rest]
  exact prefix_foldl_walk
    (fun hmem => hrest (infix_of_mem_splitOn hmem)) _

end KataCpp.PathResolution
