import KataCpp.Algorithm.Graph

/-!
# Breadth-first search

`Graph::BFS` and the `bfs` over an adjacency map run the same loop: a vertex is
marked when it enters the queue and is put out when it leaves it.  The map
version reads the neighbours with `graph[node]`, which enters an empty list for
a missing key, so its map grows along the way.

The invariant is that of the two levels: the vertices put out and the queue
behind them are sorted by distance, and the distances in the queue differ by at
most one.
-/

namespace KataCpp

open GraphSearch Iteration

section Loop

variable {α : Type*} [DecidableEq α]

structure BfsState (α : Type*) where
  queue : List α
  visited : Finset α
  output : List α

def BfsState.initial (start : α) : BfsState α where
  queue := [start]
  visited := {start}
  output := []

/-- Mark and enqueue the unvisited vertices of a list. -/
def enqueueUnvisited (queue : List α) (visited : Finset α) :
    List α → List α × Finset α
  | [] => (queue, visited)
  | neighbor :: rest =>
      if neighbor ∈ visited then enqueueUnvisited queue visited rest
      else
        enqueueUnvisited (queue ++ [neighbor]) (insert neighbor visited) rest

/-- One pass, with the neighbours that the caller reads for the vertex. -/
def bfsPass (neighbours : α → List α) (state : BfsState α) :
    Outcome (BfsState α) (List α) :=
  match state.queue with
  | [] => .exit state.output
  | node :: queue =>
      let scanned := enqueueUnvisited queue state.visited (neighbours node)
      .next
        { queue := scanned.1
          visited := scanned.2
          output := state.output ++ [node] }

end Loop

/-- The vertices that `BFS(v)` prints. -/
def Graph.BFS {V : ℕ} (graph : Graph V) (fuel : ℕ) (v : Fin V) :
    Option (List (Fin V)) :=
  loop (bfsPass graph.adj) fuel (.initial v)

abbrev AdjacencyMap := Std.ExtTreeMap UInt8 (List UInt8)

namespace AdjacencyMap

/-- Missing keys have no neighbours. -/
def neighbours (graph : AdjacencyMap) (node : UInt8) : List UInt8 :=
  graph[node]?.getD []

/-- One pass of the map version.  `graph[node]` enters a missing key. -/
def pass : BfsState UInt8 × AdjacencyMap →
    Outcome (BfsState UInt8 × AdjacencyMap) (List UInt8 × AdjacencyMap)
  | (state, graph) =>
      match state.queue with
      | [] => .exit (state.output, graph)
      | node :: queue =>
          let graph := graph.insertIfNew node []
          let scanned :=
            enqueueUnvisited queue state.visited (graph[node]?.getD [])
          .next
            ({ queue := scanned.1
               visited := scanned.2
               output := state.output ++ [node] }, graph)

/-- The result of `bfs` and the map it leaves to its caller. -/
def bfs (graph : AdjacencyMap) (fuel : ℕ) (startNode : UInt8) :
    Option (List UInt8 × AdjacencyMap) :=
  loop pass fuel (.initial startNode, graph)

end AdjacencyMap

section Invariant

variable {α : Type*} [DecidableEq α]

/-- What a scan of neighbours adds to the queue. -/
theorem enqueueUnvisited_spec (queue : List α) (visited : Finset α)
    (vertices : List α) :
    ∃ fresh : List α,
      enqueueUnvisited queue visited vertices =
          (queue ++ fresh, visited ∪ fresh.toFinset) ∧
        fresh.Nodup ∧
        (∀ w ∈ fresh, w ∈ vertices ∧ w ∉ visited) ∧
        ∀ w ∈ vertices, w ∈ visited ∨ w ∈ fresh := by
  induction vertices generalizing queue visited with
  | nil => exact ⟨[], by simp [enqueueUnvisited]⟩
  | cons neighbor rest ih =>
      by_cases hold : neighbor ∈ visited
      · obtain ⟨fresh, hscan, hnodup, hfresh, hall⟩ := ih queue visited
        refine ⟨fresh, ?_, hnodup, ?_, ?_⟩
        · rw [enqueueUnvisited, if_pos hold, hscan]
        · intro w hw
          exact (hfresh w hw).imp_left (List.mem_cons_of_mem neighbor)
        · intro w hw
          rcases List.mem_cons.mp hw with rfl | hrest
          · exact .inl hold
          · exact hall w hrest
      · obtain ⟨fresh, hscan, hnodup, hfresh, hall⟩ :=
          ih (queue ++ [neighbor]) (insert neighbor visited)
        have hnew : ∀ w ∈ fresh, w ≠ neighbor ∧ w ∉ visited := by
          intro w hw
          simpa using (hfresh w hw).2
        refine ⟨neighbor :: fresh, ?_, ?_, ?_, ?_⟩
        · rw [enqueueUnvisited, if_neg hold, hscan]
          ext <;> simp
        · exact List.nodup_cons.mpr
            ⟨fun hw => (hnew neighbor hw).1 rfl, hnodup⟩
        · intro w hw
          rcases List.mem_cons.mp hw with rfl | hrest
          · exact ⟨List.mem_cons_self, hold⟩
          · exact ⟨List.mem_cons_of_mem neighbor (hfresh w hrest).1,
              (hnew w hrest).2⟩
        · intro w hw
          rcases List.mem_cons.mp hw with rfl | hrest
          · exact .inr List.mem_cons_self
          · rcases hall w hrest with hin | hin
            · rcases Finset.mem_insert.mp hin with rfl | hvisited
              · exact .inr List.mem_cons_self
              · exact .inl hvisited
            · exact .inr (List.mem_cons_of_mem neighbor hin)

variable (neighbours : α → List α) (start : α)

structure BfsInvariant (state : BfsState α) : Prop where
  nodup : (state.output ++ state.queue).Nodup
  mem_visited : ∀ u, u ∈ state.visited ↔ u ∈ state.output ++ state.queue
  start_visited : start ∈ state.visited
  reaches : ∀ u ∈ state.visited, Reaches neighbours start u
  closed : ∀ u ∈ state.output, ∀ w ∈ neighbours u, w ∈ state.visited
  sorted : (state.output ++ state.queue).Pairwise fun u w =>
    distance neighbours start u ≤ distance neighbours start w
  two_levels : ∀ u ∈ state.queue, ∀ w ∈ state.queue,
    distance neighbours start w ≤ distance neighbours start u + 1

variable {neighbours start} {state : BfsState α} {v : α} {queue : List α}

omit [DecidableEq α] in
theorem bfsInvariant_initial :
    BfsInvariant neighbours start (.initial start) where
  nodup := by simp [BfsState.initial]
  mem_visited := by simp [BfsState.initial]
  start_visited := by simp [BfsState.initial]
  reaches := by
    intro u hu
    obtain rfl : u = start := by simpa [BfsState.initial] using hu
    exact .refl
  closed := by simp [BfsState.initial]
  sorted := by simp [BfsState.initial]
  two_levels := by simp [BfsState.initial]

omit [DecidableEq α] in
/-- Nothing in the queue is closer than its head. -/
theorem BfsInvariant.distance_head_le (h : BfsInvariant neighbours start state)
    (hqueue : state.queue = v :: queue) {u : α} (hu : u ∈ state.queue) :
    distance neighbours start v ≤ distance neighbours start u := by
  have hsorted := (List.pairwise_append.mp h.sorted).2.1
  rw [hqueue] at hsorted hu
  rcases List.mem_cons.mp hu with rfl | hrest
  · exact le_rfl
  · exact (List.pairwise_cons.mp hsorted).1 u hrest

omit [DecidableEq α] in
theorem BfsInvariant.reaches_head (h : BfsInvariant neighbours start state)
    (hqueue : state.queue = v :: queue) : Reaches neighbours start v := by
  apply h.reaches
  rw [h.mem_visited, hqueue]
  exact List.mem_append_right _ List.mem_cons_self

/-- Everything at most as far away as the head of the queue has been found. -/
theorem BfsInvariant.mem_of_distance_le
    (h : BfsInvariant neighbours start state)
    (hqueue : state.queue = v :: queue) {u : α}
    (hreaches : Reaches neighbours start u)
    (hle : distance neighbours start u ≤ distance neighbours start v) :
    u ∈ state.visited := by
  induction hvalue : distance neighbours start u using Nat.strong_induction_on
    generalizing u with
  | _ value ih =>
      subst hvalue
      by_cases hstart : u = start
      · exact hstart ▸ h.start_visited
      -- The predecessor is closer than everything queued, so it has been put
      -- out and its neighbours have been marked.
      obtain ⟨before, hbefore, hedge, hless⟩ :=
        exists_predecessor hreaches hstart
      have hfound := ih _ hless hbefore (hless.le.trans hle) rfl
      rw [h.mem_visited, List.mem_append] at hfound
      have hout : before ∈ state.output := by
        apply hfound.resolve_right
        intro hin
        have hhead := h.distance_head_le hqueue hin
        omega
      exact h.closed before hout u hedge

/-- The state after the head of the queue was put out and the vertices `fresh`
were marked and enqueued. -/
def BfsState.advance (state : BfsState α) (v : α) (queue fresh : List α) :
    BfsState α where
  queue := queue ++ fresh
  visited := state.visited ∪ fresh.toFinset
  output := state.output ++ [v]

/-- The vertices that a pass finds are one edge further away than the vertex
that it puts out. -/
theorem BfsInvariant.distance_fresh (h : BfsInvariant neighbours start state)
    (hqueue : state.queue = v :: queue) {w : α} (hedge : w ∈ neighbours v)
    (hnew : w ∉ state.visited) :
    distance neighbours start w = distance neighbours start v + 1 := by
  have hv := h.reaches_head hqueue
  have hupper := distance_le_succ hv hedge
  have hlower : ¬ distance neighbours start w ≤ distance neighbours start v :=
    fun hle => hnew (h.mem_of_distance_le hqueue (hv.tail hedge) hle)
  omega

section Advance

variable {fresh : List α}
  (hfresh : ∀ w ∈ fresh, w ∈ neighbours v ∧ w ∉ state.visited)

include hfresh

/-- The next queue spans the level of the vertex put out and the one behind. -/
theorem BfsInvariant.levels (h : BfsInvariant neighbours start state)
    (hqueue : state.queue = v :: queue) {u : α} (hu : u ∈ queue ++ fresh) :
    distance neighbours start v ≤ distance neighbours start u ∧
      distance neighbours start u ≤ distance neighbours start v + 1 := by
  rcases List.mem_append.mp hu with hold | hnew
  · have hqueued : u ∈ state.queue := hqueue ▸ List.mem_cons_of_mem v hold
    have hhead : v ∈ state.queue := hqueue ▸ List.mem_cons_self
    exact ⟨h.distance_head_le hqueue hqueued, h.two_levels v hhead u hqueued⟩
  · obtain ⟨hedge, hunvisited⟩ := hfresh u hnew
    rw [h.distance_fresh hqueue hedge hunvisited]
    exact ⟨Nat.le_succ _, le_rfl⟩

/-- The fresh vertices are at least as far away as everything before them. -/
theorem BfsInvariant.sorted_append_fresh
    (h : BfsInvariant neighbours start state)
    (hqueue : state.queue = v :: queue) :
    (state.output ++ state.queue ++ fresh).Pairwise fun u w =>
      distance neighbours start u ≤ distance neighbours start w := by
  have hdistance : ∀ w ∈ fresh, distance neighbours start w =
      distance neighbours start v + 1 :=
    fun w hw => h.distance_fresh hqueue (hfresh w hw).1 (hfresh w hw).2
  have hhead : v ∈ state.queue := hqueue ▸ List.mem_cons_self
  apply List.pairwise_append.mpr
  refine ⟨h.sorted, ?_, ?_⟩
  · apply List.pairwise_of_forall_mem_list
    intro u hu w hw
    rw [hdistance u hu, hdistance w hw]
  · intro u hu w hw
    rw [hdistance w hw]
    rcases List.mem_append.mp hu with hout | hin
    · have hcross := (List.pairwise_append.mp h.sorted).2.2
      exact Nat.le_succ_of_le (hcross u hout v hhead)
    · exact h.two_levels v hhead u hin

theorem bfsInvariant_advance (h : BfsInvariant neighbours start state)
    (hqueue : state.queue = v :: queue) (hnodup : fresh.Nodup)
    (hall : ∀ w ∈ neighbours v, w ∈ state.visited ∨ w ∈ fresh) :
    BfsInvariant neighbours start (state.advance v queue fresh) := by
  have hlist : (state.advance v queue fresh).output ++
      (state.advance v queue fresh).queue =
        (state.output ++ state.queue) ++ fresh := by
    simp [BfsState.advance, hqueue]
  constructor
  case nodup =>
    rw [hlist]
    refine h.nodup.append hnodup fun w hold hnew => ?_
    exact (hfresh w hnew).2 ((h.mem_visited w).mpr hold)
  case mem_visited =>
    intro u
    rw [hlist, List.mem_append, ← h.mem_visited]
    simp [BfsState.advance]
  case start_visited =>
    exact Finset.mem_union_left _ h.start_visited
  case reaches =>
    intro u hu
    rcases Finset.mem_union.mp hu with hold | hnew
    · exact h.reaches u hold
    · have hedge := (hfresh u (List.mem_toFinset.mp hnew)).1
      exact (h.reaches_head hqueue).tail hedge
  case closed =>
    intro u hu w hw
    simp only [BfsState.advance, Finset.mem_union, List.mem_toFinset]
    rcases List.mem_append.mp hu with hold | hlast
    · exact .inl (h.closed u hold w hw)
    · obtain rfl := List.mem_singleton.mp hlast
      exact hall w hw
  case sorted =>
    rw [hlist]
    exact h.sorted_append_fresh hfresh hqueue
  case two_levels =>
    intro u hu w hw
    have hlower := (h.levels hfresh hqueue hu).1
    have hupper := (h.levels hfresh hqueue hw).2
    omega

end Advance

/-- The loop ends with a breadth-first order. -/
theorem bfs_returns [Finite α] (neighbours : α → List α) (start : α) :
    ∃ output,
      Returns (loop (bfsPass neighbours) · (.initial start)) output ∧
        BreadthFirstOrder neighbours start output := by
  apply loop_returns (fun remaining state =>
    state.output.length + remaining = Nat.card α ∧
      BfsInvariant neighbours start state) ?_
    ⟨Nat.zero_add (Nat.card α), bfsInvariant_initial⟩
  rintro remaining state ⟨hcount, h⟩
  cases hqueue : state.queue with
  | nil =>
      have hmem : ∀ u, u ∈ state.visited ↔ u ∈ state.output := by
        simpa [hqueue] using h.mem_visited
      refine .inr ⟨state.output, by simp only [bfsPass, hqueue], ?_, ?_, ?_⟩
      · simpa [hqueue] using h.nodup
      · intro u
        constructor
        · exact fun hu => h.reaches u ((hmem u).mpr hu)
        · intro hu
          apply hu.mem_of_closed ((hmem start).mp h.start_visited)
          intro vertex hvertex target hedge
          exact (hmem target).mp (h.closed vertex hvertex target hedge)
      · simpa [hqueue] using h.sorted
  | cons v queue =>
      obtain ⟨fresh, hscan, hnodup, hfresh, hall⟩ :=
        enqueueUnvisited_spec queue state.visited (neighbours v)
      have hnext := bfsInvariant_advance hfresh h hqueue hnodup hall
      have hlength : (state.output ++ [v]).length ≤ Nat.card α :=
        hnext.nodup.of_append_left.length_le_natCard
      rw [List.length_append, List.length_singleton] at hlength
      refine .inl ⟨remaining - 1, state.advance v queue fresh, ?_, by omega,
        ?_, hnext⟩
      · simp only [bfsPass, hqueue, hscan, BfsState.advance]
      · simp only [BfsState.advance, List.length_append,
          List.length_singleton]
        omega

end Invariant

namespace AdjacencyMap

/-- Reading a key leaves all neighbours as they were. -/
theorem neighbours_insertIfNew (graph : AdjacencyMap) (node : UInt8) :
    neighbours (graph.insertIfNew node []) = neighbours graph := by
  funext other
  simp only [neighbours, Std.ExtTreeMap.getElem?_insertIfNew]
  split_ifs with hmissing
  · obtain ⟨hequal, habsent⟩ := hmissing
    rw [Std.LawfulEqCmp.compare_eq_iff_eq] at hequal
    subst hequal
    rw [Std.ExtTreeMap.getElem?_eq_none habsent]
    rfl
  · rfl

/-- The state of the search beside a map with the caller's neighbours. -/
def SameNeighbours (graph : AdjacencyMap)
    (concrete : BfsState UInt8 × AdjacencyMap) (state : BfsState UInt8) :
    Prop :=
  concrete.1 = state ∧ neighbours concrete.2 = neighbours graph

/-- The map version runs as the search over the neighbours that the caller's
map gives. -/
theorem bfs_eq_loop (graph : AdjacencyMap) (fuel : ℕ) (startNode : UInt8) :
    (bfs graph fuel startNode).map Prod.fst =
      loop (bfsPass (neighbours graph)) fuel (.initial startNode) := by
  have hrelated : SameNeighbours graph (.initial startNode, graph)
      (.initial startNode) :=
    ⟨rfl, rfl⟩
  apply loop_simulates _ fuel hrelated
  rintro ⟨state, current⟩ _ ⟨rfl, hcurrent⟩
  cases hqueue : state.queue with
  | nil =>
      simp only [pass, bfsPass, hqueue]
      exact .exit (state.output, current)
  | cons node queue =>
      have hread : (current.insertIfNew node [])[node]?.getD [] =
          neighbours graph node := by
        rw [← hcurrent, ← neighbours_insertIfNew current node]
        rfl
      simp only [pass, bfsPass, hqueue, hread]
      exact .next ⟨rfl, (neighbours_insertIfNew current node).trans hcurrent⟩

end AdjacencyMap

/-- Both searches end, on every graph and from every start, and put out the
reachable vertices once each in order of their distance. -/
theorem bfs_breadthFirstOrder :
    (∀ (V : ℕ) (edges : List (Fin V × Fin V)) (v : Fin V),
      ∃ printed, Returns ((Graph.build V edges).BFS · v) printed ∧
        BreadthFirstOrder (Graph.build V edges).adj v printed) ∧
    ∀ (graph : AdjacencyMap) (startNode : UInt8),
      ∃ result,
        Returns (fun fuel => (graph.bfs fuel startNode).map Prod.fst)
          result ∧
        BreadthFirstOrder graph.neighbours startNode result := by
  constructor
  · intro V edges v
    exact bfs_returns (Graph.build V edges).adj v
  · intro graph startNode
    simp only [AdjacencyMap.bfs_eq_loop]
    exact bfs_returns graph.neighbours startNode

end KataCpp
