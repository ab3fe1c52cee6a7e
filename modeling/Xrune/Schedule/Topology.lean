import Xrune.Core.Wiring
import Xrune.Support.Kahn
import Xrune.Support.Runs
import Xrune.Schedule.Compile

/-!
# Schedule — the topological order

The queue of `compile` behind the order it has put out is Kahn's list behind its head, and the
adjacency list of a node is the part of the edge list that starts at it.  The loop therefore
ends with an empty queue and an order in which every node stands after its predecessors; it
holds every node exactly when the graph is acyclic.
-/

namespace Xrune

variable {α : Type}

/-! ### The adjacency lists -/

theorem addEdge_adj (E : List (Nat × Nat)) (a : Adjacency) (u : Nat) :
    (E.foldl Adjacency.addEdge a).adj u
      = a.adj u ++ (E.filter fun e => e.1 == u).map Prod.snd := by
  induction E generalizing a with
  | nil => simp
  | cons e E ih =>
      rw [List.foldl_cons, ih, Adjacency.addEdge]
      by_cases hu : e.1 = u
      · subst hu; simp
      · simp [hu, Function.update_of_ne (Ne.symm hu)]

theorem addEdge_inDegree (E : List (Nat × Nat)) (a : Adjacency) :
    (E.foldl Adjacency.addEdge a).inDegree
      = E.foldl (fun d e => Function.update d e.2 (d e.2 + 1)) a.inDegree := by
  induction E generalizing a with
  | nil => rfl
  | cons e E ih => rw [List.foldl_cons, ih, List.foldl_cons]; rfl

theorem adjacency_adj (bp : GraphBlueprint α) (u : Nat) :
    (adjacency bp).adj u = (bp.edges.filter fun e => e.1 == u).map Prod.snd := by
  rw [adjacency, addEdge_adj]
  rfl

theorem adjacency_inDegree (bp : GraphBlueprint α) (v : Nat) :
    (adjacency bp).inDegree v = (bp.edges.countP fun e => e.2 = v : Nat) := by
  rw [adjacency, addEdge_inDegree, foldl_count]
  exact zero_add _

/-! ### The queue as a list behind a head -/

/-- The order and the queue as one list, with the counters. -/
def TopoState.board (s : TopoState) : Kahn.State Nat := (s.topoOrder ++ s.queue, s.inDegree)

theorem TopoState.release_board (s : TopoState) {u : Nat} {e : Nat × Nat} (he : e.1 = u) :
    (s.release e.2).board = Kahn.edge u s.board e ∧ (s.release e.2).topoOrder = s.topoOrder := by
  refine ⟨?_, rfl⟩
  rw [Kahn.edge, if_neg (not_not.mpr he)]
  by_cases h : s.inDegree e.2 - 1 = 0 <;> simp [release, board, h]

/-- Releasing the adjacency list of a node passes it through the whole edge list. -/
theorem TopoState.foldl_release (E : List (Nat × Nat)) (u : Nat) (s : TopoState) :
    (((E.filter fun e => e.1 == u).map Prod.snd).foldl release s).board
        = E.foldl (Kahn.edge u) s.board ∧
      (((E.filter fun e => e.1 == u).map Prod.snd).foldl release s).topoOrder = s.topoOrder := by
  induction E generalizing s with
  | nil => exact ⟨rfl, rfl⟩
  | cons e E ih =>
      by_cases he : e.1 = u
      · obtain ⟨hb, ho⟩ := s.release_board he
        have keep : (e :: E).filter (fun e => e.1 == u) = e :: E.filter fun e => e.1 == u := by
          simp [he]
        rw [keep, List.map_cons, List.foldl_cons, List.foldl_cons, ← hb]
        exact ⟨(ih _).1, (ih _).2.trans ho⟩
      · have drop : (e :: E).filter (fun e => e.1 == u) = E.filter fun e => e.1 == u := by
          simp [he]
        have skip : Kahn.edge u s.board e = s.board := if_pos he
        rw [drop, List.foldl_cons, skip]
        exact ih s

/-- **The loop is Kahn's**, its head the length of the order put out. -/
theorem topoLoop_board (E : List (Nat × Nat)) {adj : Nat → List Nat}
    (hadj : ∀ u, adj u = (E.filter fun e => e.1 == u).map Prod.snd) (fuel : Nat) (s : TopoState) :
    (topoLoop adj fuel s).board = Kahn.loop E fuel s.topoOrder.length s.board := by
  induction fuel generalizing s with
  | zero => rfl
  | succ fuel ih =>
      rw [topoLoop, Kahn.loop]
      cases hq : s.queue with
      | nil =>
          have none : s.board.1[s.topoOrder.length]? = none := by simp [TopoState.board, hq]
          simp only [none]
      | cons u q =>
          have head : s.board.1[s.topoOrder.length]? = some u := by simp [TopoState.board, hq]
          have popped : (⟨q, s.topoOrder ++ [u], s.inDegree⟩ : TopoState).board = s.board := by
            simp [TopoState.board, hq]
          simp only [head]
          rw [ih, hadj u]
          obtain ⟨hb, ho⟩ := TopoState.foldl_release E u ⟨q, s.topoOrder ++ [u], s.inDegree⟩
          rw [hb, ho, popped, List.length_append, List.length_singleton]

/-- The loop stops at an empty queue, or has put out a node a turn. -/
theorem topoLoop_ends (adj : Nat → List Nat) (fuel : Nat) (s : TopoState) :
    (topoLoop adj fuel s).queue = [] ∨
      (topoLoop adj fuel s).topoOrder.length = s.topoOrder.length + fuel := by
  have same : ∀ (l : List Nat) (s : TopoState), (l.foldl TopoState.release s).topoOrder
      = s.topoOrder := fun l s =>
      foldl_keeps TopoState.topoOrder (fun s v => (rfl : (s.release v).topoOrder = _)) l s
  induction fuel generalizing s with
  | zero => exact .inr rfl
  | succ fuel ih =>
      rw [topoLoop]
      cases hq : s.queue with
      | nil => exact .inl hq
      | cons u q =>
          refine (ih _).imp id fun h => ?_
          rw [h, same, List.length_append, List.length_singleton]
          omega

/-! ### The order -/

/-- What the loop ends with. -/
structure TopoDone (bp : GraphBlueprint α) (s : TopoState) : Prop where
  queue : s.queue = []
  nodup : s.topoOrder.Nodup
  mem : ∀ v ∈ s.topoOrder, v < bp.size
  preds : ∀ l₁ v l₂, s.topoOrder = l₁ ++ v :: l₂ → ∀ u, (u, v) ∈ bp.edges → u ∈ l₁
  all : Acyclic bp.edges → ∀ v < bp.size, v ∈ s.topoOrder

namespace GraphBlueprint

variable {bp : GraphBlueprint α}

theorem mem_edges {e : Nat × Nat} : e ∈ bp.edges ↔
    (∃ c ∈ bp.connections, (c.srcNode, c.dstNode) = e) ∨
      ∃ c ∈ bp.paramConnections, (c.srcNode, c.dstNode) = e := by
  simp [edges]

theorem Wired.edges_lt (W : bp.Wired) : ∀ e ∈ bp.edges, e.1 < bp.size ∧ e.2 < bp.size := by
  intro e he
  rcases mem_edges.mp he with ⟨c, hc, rfl⟩ | ⟨c, hc, rfl⟩
  · exact ⟨(W.audio c hc).1, (W.audio c hc).2.1⟩
  · exact ⟨(W.modulation c hc).1, (W.modulation c hc).2.1⟩

end GraphBlueprint

/-- **The loop ends** with the queue empty and every node it put out after its predecessors. -/
theorem topoRun_done {bp : GraphBlueprint α} (W : bp.Wired) : TopoDone bp (topoRun bp) := by
  have hE : ∀ e ∈ bp.edges, e.1 ∈ List.range bp.size ∧ e.2 ∈ List.range bp.size := by
    intro e he
    simpa using W.edges_lt e he
  set s₀ : TopoState := ⟨(List.range bp.size).filter fun i => (adjacency bp).inDegree i == 0, [],
    (adjacency bp).inDegree⟩ with hs₀
  have start : Kahn.Inv (List.range bp.size) bp.edges (Kahn.Inv.leftAt bp.edges s₀.board 0)
      s₀.board := by
    have h := Kahn.Inv.start List.nodup_range (fun e he => (hE e he).1)
      fun v _ => adjacency_inDegree bp v
    have all : (fun _ => bp.edges) = Kahn.Inv.leftAt bp.edges s₀.board 0 := by
      funext u
      simp [Kahn.Inv.leftAt]
    exact all ▸ h
  have done := Kahn.Inv.loop hE bp.size 0 start (by simp) (Nat.zero_le _)
  have board := topoLoop_board bp.edges (adjacency_adj bp) bp.size s₀
  have run : topoRun bp = topoLoop (adjacency bp).adj bp.size s₀ := rfl
  rw [show s₀.topoOrder.length = 0 from rfl, ← run] at board
  rw [← board] at done
  have queue : (topoRun bp).queue = [] := by
    rcases topoLoop_ends (adjacency bp).adj bp.size s₀ with h | h
    · exact h
    · have hlen : (topoRun bp).board.1.length ≤ bp.size := by
        have h := (done.nodup.subperm fun v hv => ((done.mem v).mp hv).1).length_le
        rwa [List.length_range] at h
      have hput : (topoRun bp).topoOrder.length = bp.size := by
        rw [run, h]
        exact zero_add _
      rw [TopoState.board, List.length_append] at hlen
      exact List.length_eq_zero_iff.mp (by omega)
  have order : (topoRun bp).board.1 = (topoRun bp).topoOrder := by
    rw [TopoState.board, queue, List.append_nil]
  exact
    { queue := queue
      nodup := order ▸ done.nodup
      mem := fun v hv => List.mem_range.mp ((done.mem v).mp (order.symm ▸ hv)).1
      preds := order ▸ done.preds
      all := fun acyclic v hv =>
        order ▸ done.mem_of_acyclic hE acyclic (List.mem_range.mpr hv) }

namespace TopoDone

variable {bp : GraphBlueprint α} {s : TopoState}

/-- An order of all the nodes is a permutation of them. -/
theorem perm (D : TopoDone bp s) (h : s.topoOrder.length = bp.size) :
    s.topoOrder.Perm (List.range bp.size) := by
  have sub := D.nodup.subperm fun v hv => List.mem_range.mpr (D.mem v hv)
  exact sub.perm_of_length_le (by rw [List.length_range, h])

/-- **All nodes are put out exactly when the graph is acyclic.** -/
theorem length_eq_iff (D : TopoDone bp s) (W : bp.Wired) :
    s.topoOrder.length = bp.size ↔ Acyclic bp.edges := by
  constructor
  · intro h
    have perm := D.perm h
    exact .of_order D.nodup (fun e he => perm.mem_iff.mpr
      (List.mem_range.mpr (W.edges_lt e he).2)) D.preds
  · intro acyclic
    have sub := List.nodup_range.subperm fun v (hv : v ∈ List.range bp.size) =>
      D.all acyclic v (List.mem_range.mp hv)
    have sub' := D.nodup.subperm fun v hv => List.mem_range.mpr (D.mem v hv)
    have := sub.length_le
    have := sub'.length_le
    rw [List.length_range] at *
    omega

end TopoDone

end Xrune
