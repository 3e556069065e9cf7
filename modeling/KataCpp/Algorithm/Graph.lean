import KataCpp.Core.GraphSearch
import KataCpp.Core.Iteration

/-!
# Undirected graphs and depth-first search

`Graph` keeps a list of neighbours for each vertex; `addEdge` enters an edge at
both of its ends.  `DFS` runs with an explicit stack that may hold a vertex
several times, and scans the neighbours of every popped vertex, whether or not
it was visited before.

The invariant of the loop has two parts.  What has been printed, followed by
the recursive search of the stack, is the recursive search from the start.  And
the unvisited neighbours of a visited stack entry all lie above that entry, so
that popping a visited vertex pushes nothing.
-/

namespace KataCpp

open GraphSearch Iteration

/-- A graph with vertices `0 … V - 1`. -/
structure Graph (V : ℕ) where
  adj : Fin V → List (Fin V)

namespace Graph

variable {V : ℕ}

def construct (V : ℕ) : Graph V where
  adj _ := []

/-- `adj[v].push_back(w)`. -/
def pushBack (graph : Graph V) (v w : Fin V) : Graph V where
  adj := Function.update graph.adj v (graph.adj v ++ [w])

def addEdge (graph : Graph V) (v w : Fin V) : Graph V :=
  (graph.pushBack v w).pushBack w v

def build (V : ℕ) (edges : List (Fin V × Fin V)) : Graph V :=
  edges.foldl (fun graph edge => graph.addEdge edge.1 edge.2) (construct V)

/-- The local variables of `DFS`: the stack with its top first, the vertices
whose flag in `visited` is set, and what has been printed. -/
structure DfsState (V : ℕ) where
  stack : List (Fin V)
  visited : Finset (Fin V)
  printed : List (Fin V)

def pushUnvisited (visited : Finset (Fin V)) (stack : List (Fin V)) :
    List (Fin V) → List (Fin V)
  | [] => stack
  | i :: rest =>
      pushUnvisited visited (if i ∈ visited then stack else i :: stack) rest

def dfsPass (graph : Graph V) (state : DfsState V) :
    Outcome (DfsState V) (List (Fin V)) :=
  match state.stack with
  | [] => .exit state.printed
  | v :: stack =>
      let state :=
        if v ∈ state.visited then { state with stack }
        else
          { stack
            visited := insert v state.visited
            printed := state.printed ++ [v] }
      .next { state with
        stack := pushUnvisited state.visited state.stack (graph.adj v) }

/-- The vertices that `DFS(v)` prints. -/
def DFS (graph : Graph V) (fuel : ℕ) (v : Fin V) : Option (List (Fin V)) :=
  loop graph.dfsPass fuel { stack := [v], visited := ∅, printed := [] }

/-- Neighbours in the order in which they are popped. -/
def popOrder (graph : Graph V) (v : Fin V) : List (Fin V) :=
  (graph.adj v).reverse

theorem pushUnvisited_eq (visited : Finset (Fin V))
    (stack vertices : List (Fin V)) :
    pushUnvisited visited stack vertices =
      vertices.reverse.filter (· ∉ visited) ++ stack := by
  induction vertices generalizing stack with
  | nil => rfl
  | cons i rest ih =>
      rw [pushUnvisited, ih, List.reverse_cons, List.filter_append,
        List.append_assoc]
      by_cases hi : i ∈ visited
      · simp [hi]
      · simp [hi]

variable (graph : Graph V) (start : Fin V)

structure DfsInvariant (state : DfsState V) : Prop where
  order : state.printed ++
      preorder graph.popOrder state.stack state.visited =
    preorder graph.popOrder [start] ∅
  mem_printed : ∀ u, u ∈ state.printed ↔ u ∈ state.visited
  nodup : state.printed.Nodup
  reaches : ∀ u, u ∈ state.visited ∨ u ∈ state.stack →
    Reaches graph.adj start u
  start_known : start ∈ state.visited ∨ start ∈ state.stack
  pending : ∀ u ∈ state.visited, ∀ w ∈ graph.adj u, w ∉ state.visited →
    w ∈ state.stack
  above : ∀ upper u lower, state.stack = upper ++ u :: lower →
    u ∈ state.visited → ∀ w ∈ graph.adj u, w ∉ state.visited → w ∈ upper

variable {graph start} {state : DfsState V} {v : Fin V}
  {stack : List (Fin V)}

theorem dfsInvariant_initial :
    DfsInvariant graph start
      { stack := [start], visited := ∅, printed := [] } where
  order := rfl
  mem_printed := by simp
  nodup := List.nodup_nil
  reaches := by
    intro u hu
    obtain rfl : u = start := by simpa using hu
    exact .refl
  start_known := by simp
  pending := by simp
  above := by simp

/-- A vertex that is still to be visited is not the one just popped. -/
theorem mem_below {w : Fin V} {visited : Finset (Fin V)}
    (hw : w ∈ v :: stack) (hv : v ∈ visited) (hnew : w ∉ visited) :
    w ∈ stack :=
  List.mem_of_ne_of_mem (ne_of_mem_of_not_mem hv hnew).symm hw

/-- Popping a visited vertex pushes nothing. -/
theorem dfsPass_of_visited (h : DfsInvariant graph start state)
    (hstack : state.stack = v :: stack) (hv : v ∈ state.visited) :
    graph.dfsPass state = .next { state with stack } := by
  have hnone : (graph.adj v).reverse.filter (· ∉ state.visited) = [] := by
    rw [List.filter_eq_nil_iff]
    intro w hw hnew
    have habove := h.above [] v stack hstack hv w (List.mem_reverse.mp hw)
      (by simpa using hnew)
    exact List.not_mem_nil habove
  simp only [dfsPass, hstack, hv, if_true, pushUnvisited_eq, hnone,
    List.nil_append]

theorem dfsInvariant_of_visited (h : DfsInvariant graph start state)
    (hstack : state.stack = v :: stack) (hv : v ∈ state.visited) :
    DfsInvariant graph start { state with stack } where
  order := by
    rw [← h.order, hstack, preorder_cons_of_mem hv]
  mem_printed := h.mem_printed
  nodup := h.nodup
  reaches := by
    intro u hu
    apply h.reaches
    rw [hstack]
    exact hu.imp_right (List.mem_cons_of_mem v)
  start_known := by
    rcases h.start_known with hvisited | hin
    · exact .inl hvisited
    · rw [hstack] at hin
      rcases List.mem_cons.mp hin with rfl | hbelow
      · exact .inl hv
      · exact .inr hbelow
  pending := by
    intro u hu w hw hnew
    have hin := h.pending u hu w hw hnew
    rw [hstack] at hin
    exact mem_below hin hv hnew
  above := by
    rintro upper u lower hsplit hu w hw hnew
    have hin := h.above (v :: upper) u lower
      (by rw [hstack, List.cons_append, ← hsplit]) hu w hw hnew
    exact mem_below hin hv hnew

def DfsState.visit (graph : Graph V) (state : DfsState V) (v : Fin V)
    (stack : List (Fin V)) : DfsState V where
  stack := (graph.adj v).reverse.filter (· ∉ insert v state.visited) ++ stack
  visited := insert v state.visited
  printed := state.printed ++ [v]

theorem dfsPass_of_unvisited (hstack : state.stack = v :: stack)
    (hv : v ∉ state.visited) :
    graph.dfsPass state = .next (state.visit graph v stack) := by
  simp only [dfsPass, hstack, hv, if_false, pushUnvisited_eq, DfsState.visit]

theorem mem_stack_visit (w : Fin V) :
    w ∈ (state.visit graph v stack).stack ↔
      (w ∈ graph.adj v ∧ w ∉ insert v state.visited) ∨ w ∈ stack := by
  simp [DfsState.visit]

/-- The entries just pushed are unvisited, so a visited entry lies in the old
stack, below all of them. -/
theorem split_of_visited {upper lower : List (Fin V)} {u : Fin V}
    (hsplit : (state.visit graph v stack).stack = upper ++ u :: lower)
    (hu : u ∈ insert v state.visited) :
    ∃ middle,
      upper = (graph.adj v).reverse.filter (· ∉ insert v state.visited) ++
          middle ∧
        stack = middle ++ u :: lower := by
  rcases List.append_eq_append_iff.mp hsplit with
    hbelow | ⟨middle, hpushed, hrest⟩
  · exact hbelow
  · cases middle with
    | nil => exact ⟨[], by simpa using hpushed.symm, hrest.symm⟩
    | cons first middle =>
        obtain rfl : u = first := (List.cons.inj hrest).1
        have hmem : u ∈ (graph.adj v).reverse.filter
            (· ∉ insert v state.visited) := by
          rw [hpushed]
          exact List.mem_append_right _ List.mem_cons_self
        have hnew : u ∉ insert v state.visited := by
          simpa using (List.mem_filter.mp hmem).2
        exact absurd hu hnew

theorem dfsInvariant_of_unvisited (h : DfsInvariant graph start state)
    (hstack : state.stack = v :: stack) (hv : v ∉ state.visited) :
    DfsInvariant graph start (state.visit graph v stack) := by
  have hpopped : Reaches graph.adj start v :=
    h.reaches v (.inr (hstack ▸ List.mem_cons_self))
  have hself : v ∈ insert v state.visited := Finset.mem_insert_self _ _
  constructor
  case order =>
    rw [← h.order, hstack, preorder_cons_eq_stack hv]
    simp only [DfsState.visit, popOrder]
    rw [preorder_filter_append _ _ subset_rfl, List.append_assoc,
      List.singleton_append]
  case mem_printed =>
    intro u
    simp [DfsState.visit, h.mem_printed, or_comm]
  case nodup =>
    have hnew : v ∉ state.printed := mt (h.mem_printed v).mp hv
    exact h.nodup.append (List.nodup_singleton v)
      (List.disjoint_singleton.mpr hnew)
  case reaches =>
    intro u hu
    rw [mem_stack_visit] at hu
    simp only [DfsState.visit, Finset.mem_insert] at hu
    rcases hu with (rfl | hvisited) | ⟨hedge, -⟩ | hrest
    · exact hpopped
    · exact h.reaches u (.inl hvisited)
    · exact hpopped.tail hedge
    · exact h.reaches u (.inr (hstack ▸ List.mem_cons_of_mem v hrest))
  case start_known =>
    rw [mem_stack_visit]
    by_cases hstart : start ∈ insert v state.visited
    · exact .inl hstart
    · have hin := h.start_known.resolve_left
        (mt Finset.mem_insert_of_mem hstart)
      exact .inr (.inr (mem_below (hstack ▸ hin) hself hstart))
  case pending =>
    intro u hu w hw hnew
    rw [mem_stack_visit]
    rcases Finset.mem_insert.mp hu with rfl | hold
    · exact .inl ⟨hw, hnew⟩
    · have hin := h.pending u hold w hw (mt Finset.mem_insert_of_mem hnew)
      exact .inr (mem_below (hstack ▸ hin) hself hnew)
  case above =>
    intro upper u lower hsplit hu w hw hnew
    obtain ⟨middle, rfl, hold⟩ := split_of_visited hsplit hu
    rw [List.mem_append]
    rcases Finset.mem_insert.mp hu with rfl | hvisited
    · exact .inl (List.mem_filter.mpr
        ⟨List.mem_reverse.mpr hw, decide_eq_true hnew⟩)
    · have hin := h.above (v :: middle) u lower
        (by rw [hstack, List.cons_append, ← hold]) hvisited w hw
        (mt Finset.mem_insert_of_mem hnew)
      exact .inr (mem_below hin hself hnew)

/-- A pass visits a vertex or shortens the stack. -/
def dfsVariant (state : DfsState V) : ℕ ×ₗ ℕ :=
  toLex (state.visitedᶜ.card, state.stack.length)

/-- The loop ends with the recursive preorder printed. -/
theorem dfs_returns (graph : Graph V) (start : Fin V) :
    ∃ printed, Returns (graph.DFS · start) printed ∧
      printed = preorder graph.popOrder [start] ∅ ∧
      printed.Nodup ∧
      ∀ u, u ∈ printed ↔ Reaches graph.adj start u := by
  apply loop_returns
    (fun variant state => variant = dfsVariant state ∧
      DfsInvariant graph start state)
    ?_ ⟨rfl, dfsInvariant_initial⟩
  rintro _ state ⟨rfl, h⟩
  cases hstack : state.stack with
  | nil =>
      have hclosed : ∀ u ∈ state.visited, ∀ w ∈ graph.adj u,
          w ∈ state.visited := by
        intro u hu w hw
        by_contra hnew
        have hpending := h.pending u hu w hw hnew
        rw [hstack] at hpending
        exact List.not_mem_nil hpending
      refine .inr ⟨state.printed, by simp only [dfsPass, hstack], ?_,
        h.nodup, fun u => ?_⟩
      · rw [← h.order, hstack, preorder_nil, List.append_nil]
      · have hstart : start ∈ state.visited := by
          simpa [hstack] using h.start_known
        rw [h.mem_printed]
        constructor
        · exact fun hu => h.reaches u (.inl hu)
        · exact fun hu => hu.mem_of_closed hstart hclosed
  | cons v stack =>
      left
      by_cases hv : v ∈ state.visited
      · refine ⟨_, _, dfsPass_of_visited h hstack hv, ?_, rfl,
          dfsInvariant_of_visited h hstack hv⟩
        rw [dfsVariant, dfsVariant, Prod.Lex.toLex_lt_toLex]
        exact .inr ⟨rfl, by simp [hstack]⟩
      · refine ⟨_, _, dfsPass_of_unvisited hstack hv, ?_, rfl,
          dfsInvariant_of_unvisited h hstack hv⟩
        rw [dfsVariant, dfsVariant, Prod.Lex.toLex_lt_toLex]
        exact .inl (card_compl_lt hv subset_rfl)

/-- `DFS` on every graph built by `addEdge` ends and prints the preorder of the
recursive depth-first search that takes neighbours in reverse adjacency-list
order; every reachable vertex occurs in it once, and nothing else does. -/
theorem dfs_prints_preorder (edges : List (Fin V × Fin V)) (v : Fin V) :
    ∃ printed, Returns ((build V edges).DFS · v) printed ∧
      printed =
        preorder (fun u => ((build V edges).adj u).reverse) [v] ∅ ∧
      printed.Nodup ∧
      ∀ u, u ∈ printed ↔ Reaches (build V edges).adj v u :=
  dfs_returns (build V edges) v

example :
    (build 4 [(0, 1), (0, 2), (1, 3), (2, 3), (3, 3)]).DFS 12 0 =
      some [0, 2, 3, 1] := by
  decide

end Graph

end KataCpp
