import Mathlib

/-!
# Reachability, distance and preorder

A directed graph is given by the list of neighbours of each vertex, in which
vertices may repeat.  The file collects the notions by which searches are
specified: reachability, the distance as the least number of edges of a walk,
breadth-first orders, and the preorder in which a recursive depth-first search
visits the vertices.
-/

namespace KataCpp.GraphSearch

variable {α : Type*} (neighbours : α → List α)

def Reaches (start target : α) : Prop :=
  Relation.ReflTransGen (fun vertex other => other ∈ neighbours vertex)
    start target

inductive Walk (start : α) : ℕ → α → Prop
  | nil : Walk start 0 start
  | step {count : ℕ} {vertex target : α} (hwalk : Walk start count vertex)
      (hedge : target ∈ neighbours vertex) : Walk start (count + 1) target

/-- The least number of edges of a walk; zero where there is no walk. -/
noncomputable def distance (start target : α) : ℕ :=
  sInf {count | Walk neighbours start count target}

variable {neighbours} {start vertex target : α}

theorem Walk.reaches {count : ℕ} (hwalk : Walk neighbours start count target) :
    Reaches neighbours start target := by
  induction hwalk with
  | nil => exact .refl
  | step _ hedge ih => exact .tail ih hedge

theorem Reaches.exists_walk (hreaches : Reaches neighbours start target) :
    ∃ count, Walk neighbours start count target := by
  induction hreaches with
  | refl => exact ⟨0, .nil⟩
  | tail _ hedge ih =>
      obtain ⟨count, hwalk⟩ := ih
      exact ⟨count + 1, hwalk.step hedge⟩

theorem Reaches.walk_distance (hreaches : Reaches neighbours start target) :
    Walk neighbours start (distance neighbours start target) target :=
  Nat.sInf_mem hreaches.exists_walk

theorem distance_le {count : ℕ}
    (hwalk : Walk neighbours start count target) :
    distance neighbours start target ≤ count :=
  Nat.sInf_le hwalk

theorem distance_le_succ (hreaches : Reaches neighbours start vertex)
    (hedge : target ∈ neighbours vertex) :
    distance neighbours start target ≤
      distance neighbours start vertex + 1 :=
  distance_le (hreaches.walk_distance.step hedge)

/-- The last edge of a shortest walk. -/
theorem exists_predecessor (hreaches : Reaches neighbours start target)
    (hne : target ≠ start) :
    ∃ vertex, Reaches neighbours start vertex ∧
      target ∈ neighbours vertex ∧
      distance neighbours start vertex <
        distance neighbours start target := by
  have hwalk := hreaches.walk_distance
  generalize hcount : distance neighbours start target = count at hwalk
  cases hwalk with
  | nil => exact absurd rfl hne
  | step hfirst hedge =>
      exact ⟨_, hfirst.reaches, hedge, Nat.lt_succ_of_le (distance_le hfirst)⟩

/-- A set that contains the start and all neighbours of its vertices contains
everything reachable. -/
theorem Reaches.mem_of_closed {closed : α → Prop} (hstart : closed start)
    (hclosed : ∀ vertex, closed vertex →
      ∀ target ∈ neighbours vertex, closed target)
    (hreaches : Reaches neighbours start target) : closed target := by
  induction hreaches with
  | refl => exact hstart
  | tail _ hedge ih => exact hclosed _ ih _ hedge

/-- The list holds every reachable vertex once and nothing else, and the
distance from the start never decreases along it. -/
structure BreadthFirstOrder (neighbours : α → List α) (start : α)
    (order : List α) : Prop where
  nodup : order.Nodup
  mem_iff : ∀ vertex, vertex ∈ order ↔ Reaches neighbours start vertex
  sorted : order.Pairwise fun first second =>
    distance neighbours start first ≤ distance neighbours start second

section Preorder

variable [DecidableEq α]

theorem card_compl_lt [Fintype α] {visited larger : Finset α}
    (hvertex : vertex ∉ visited)
    (hlarger : insert vertex visited ⊆ larger) :
    largerᶜ.card < visitedᶜ.card := by
  apply Finset.card_lt_card
  rw [Finset.ssubset_iff_of_subset]
  · exact ⟨vertex, by simpa using hvertex,
      by simpa using hlarger (Finset.mem_insert_self _ _)⟩
  · exact Finset.compl_subset_compl.mpr
      ((Finset.subset_insert _ _).trans hlarger)

/-- The order in which a recursive depth-first search visits the vertices: it
takes the vertices of `todo` in turn, skips those already visited, and visits
an unvisited vertex before everything found from its neighbours. -/
def preorder [Fintype α] (neighbours : α → List α) (todo : List α)
    (visited : Finset α) : List α :=
  match todo with
  | [] => []
  | vertex :: rest =>
      if vertex ∈ visited then preorder neighbours rest visited
      else
        let below :=
          preorder neighbours (neighbours vertex) (insert vertex visited)
        vertex :: below ++
          preorder neighbours rest (insert vertex visited ∪ below.toFinset)
termination_by (visitedᶜ.card, todo.length)
decreasing_by
  · exact Prod.Lex.right _ (by simp)
  · exact Prod.Lex.left _ _ (card_compl_lt ‹_› subset_rfl)
  · exact Prod.Lex.left _ _ (card_compl_lt ‹_› Finset.subset_union_left)

variable [Fintype α] {visited : Finset α} {rest : List α}

@[simp]
theorem preorder_nil : preorder neighbours [] visited = [] := by
  rw [preorder]

theorem preorder_cons_of_mem (hvertex : vertex ∈ visited) :
    preorder neighbours (vertex :: rest) visited =
      preorder neighbours rest visited := by
  rw [preorder, if_pos hvertex]

theorem preorder_cons_of_notMem (hvertex : vertex ∉ visited) :
    preorder neighbours (vertex :: rest) visited =
      let below :=
        preorder neighbours (neighbours vertex) (insert vertex visited)
      vertex :: below ++
        preorder neighbours rest (insert vertex visited ∪ below.toFinset) := by
  rw [preorder, if_neg hvertex]

/-- A search of two lists is a search of the first and then of the second. -/
theorem preorder_append (first second : List α) (visited : Finset α) :
    preorder neighbours (first ++ second) visited =
      preorder neighbours first visited ++
        preorder neighbours second
          (visited ∪ (preorder neighbours first visited).toFinset) := by
  induction first generalizing visited with
  | nil => simp
  | cons vertex first ih =>
      rw [List.cons_append]
      by_cases hvertex : vertex ∈ visited
      · rw [preorder_cons_of_mem hvertex, preorder_cons_of_mem hvertex, ih]
      · rw [preorder_cons_of_notMem hvertex, preorder_cons_of_notMem hvertex]
        simp only [ih, List.cons_append, List.append_assoc]
        congr 4
        ext other
        simp

/-- Visiting a vertex and then the rest is visiting it and then searching its
neighbours followed by the rest, as a search with an explicit stack does. -/
theorem preorder_cons_eq_stack (hvertex : vertex ∉ visited) :
    preorder neighbours (vertex :: rest) visited =
      vertex :: preorder neighbours (neighbours vertex ++ rest)
        (insert vertex visited) := by
  rw [preorder_cons_of_notMem hvertex, preorder_append]
  rfl

/-- Vertices that are already visited can be dropped in advance. -/
theorem preorder_filter_append (first second : List α)
    {seen visited : Finset α} (hseen : seen ⊆ visited) :
    preorder neighbours (first.filter (· ∉ seen) ++ second) visited =
      preorder neighbours (first ++ second) visited := by
  induction first generalizing visited with
  | nil => rfl
  | cons vertex first ih =>
      by_cases hold : vertex ∈ seen
      · rw [List.filter_cons_of_neg (by simpa using hold), List.cons_append,
          preorder_cons_of_mem (hseen hold), ih hseen]
      · rw [List.filter_cons_of_pos (by simpa using hold), List.cons_append,
          List.cons_append]
        by_cases hvertex : vertex ∈ visited
        · rw [preorder_cons_of_mem hvertex, preorder_cons_of_mem hvertex,
            ih hseen]
        · rw [preorder_cons_of_notMem hvertex,
            preorder_cons_of_notMem hvertex]
          simp only
          rw [ih]
          exact hseen.trans
            ((Finset.subset_insert _ _).trans Finset.subset_union_left)

end Preorder

end KataCpp.GraphSearch
