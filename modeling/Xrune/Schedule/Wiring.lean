import Xrune.Core.Instance
import Xrune.Schedule.Sound

/-!
# Schedule — the wiring and the views

In a wired blueprint the source table of a compiled schedule holds, at the input a connection
drives, the producer of that connection.  The views `build` hands to a consumer are therefore
slices of its producers' buffers (`edgeSlice`).
-/

namespace Xrune

variable {α : Type}

/-! ### The source tables -/

/-- The entry of a source table for a port of a node. -/
def sourceAt (t : List (List SrcRef)) (node port : Nat) : SrcRef := (t.getD node []).getD port none

/-- The table has a row for the node, with a place for the port. -/
def Places (t : List (List SrcRef)) (node port : Nat) : Prop :=
  ∃ row, t[node]? = some row ∧ port < row.length

theorem Places.setSource {t : List (List SrcRef)} {node port : Nat} (h : Places t node port)
    (n p : Nat) (ref : SrcRef) : Places (setSource t n p ref) node port := by
  obtain ⟨row, hrow, hp⟩ := h
  by_cases hn : n = node
  · subst hn
    exact ⟨row.set p ref, by simp [Xrune.setSource, hrow], by simpa using hp⟩
  · exact ⟨row, by simp [Xrune.setSource, hn, hrow], hp⟩

theorem sourceAt_setSource {t : List (List SrcRef)} {node port : Nat} (h : Places t node port)
    (ref : SrcRef) : sourceAt (setSource t node port ref) node port = ref := by
  obtain ⟨row, hrow, hp⟩ := h
  simp [sourceAt, setSource, hrow, hp]

theorem sourceAt_setSource_ne {t : List (List SrcRef)} {node port n p : Nat}
    (h : ¬(n = node ∧ p = port)) (ref : SrcRef) :
    sourceAt (setSource t n p ref) node port = sourceAt t node port := by
  by_cases hn : n = node
  · subst hn
    have hp : p ≠ port := fun hp => h ⟨rfl, hp⟩
    cases hrow : t[n]? with
    | none => simp [sourceAt, setSource, hrow]
    | some row => simp [sourceAt, setSource, hrow, hp]
  · simp [sourceAt, setSource, hn]

/-- A port no entry of the list drives keeps its source. -/
theorem sourceAt_foldl_ne {node port : Nat} (l : List (Nat × Nat × SrcRef))
    (t : List (List SrcRef)) (h : ∀ e ∈ l, ¬(e.1 = node ∧ e.2.1 = port)) :
    sourceAt (l.foldl (fun t e => setSource t e.1 e.2.1 e.2.2) t) node port
      = sourceAt t node port := by
  induction l generalizing t with
  | nil => rfl
  | cons e l ih =>
      rw [List.foldl_cons, ih _ fun e' h' => h e' (List.mem_cons_of_mem e h')]
      exact sourceAt_setSource_ne (h e List.mem_cons_self) _

/-- Where no two entries drive the same port, each finds its place. -/
theorem sourceAt_foldl (l : List (Nat × Nat × SrcRef)) (t : List (List SrcRef))
    (distinct : l.Pairwise fun e e' => ¬(e.1 = e'.1 ∧ e.2.1 = e'.2.1))
    (places : ∀ e ∈ l, Places t e.1 e.2.1) :
    ∀ e ∈ l, sourceAt (l.foldl (fun t e => setSource t e.1 e.2.1 e.2.2) t) e.1 e.2.1 = e.2.2 := by
  induction l generalizing t with
  | nil => exact fun e he => nomatch he
  | cons d l ih =>
      intro e he
      obtain ⟨first, rest⟩ := List.pairwise_cons.mp distinct
      rw [List.foldl_cons]
      rcases List.mem_cons.mp he with rfl | he
      · rw [sourceAt_foldl_ne l _ fun e' h' h => first e' h' ⟨h.1.symm, h.2.symm⟩]
        exact sourceAt_setSource (places e List.mem_cons_self) _
      · exact ih _ rest (fun e' h' => (places e' (List.mem_cons_of_mem d h')).setSource _ _ _) e he

/-- The entry a connection makes in `input_source`. -/
def BlueprintConnection.entry (c : BlueprintConnection) : Nat × Nat × SrcRef :=
  (c.dstNode, c.dstInput, some (c.srcNode, c.srcOutput))

/-- The entry a connection makes in `param_source`. -/
def ParamConnection.entry (c : ParamConnection) : Nat × Nat × SrcRef :=
  (c.dstNode, c.dstParam, some (c.srcNode, c.srcOutput))

theorem inputWiring_eq (bp : GraphBlueprint α) :
    inputWiring bp = (bp.connections.map BlueprintConnection.entry).foldl
      (fun t e => setSource t e.1 e.2.1 e.2.2)
      (bp.nodes.map fun nd => List.replicate nd.inputsCount none) := by
  rw [List.foldl_map]
  rfl

theorem paramWiring_eq (bp : GraphBlueprint α) :
    paramWiring bp = (bp.paramConnections.map ParamConnection.entry).foldl
      (fun t e => setSource t e.1 e.2.1 e.2.2)
      (bp.nodes.map fun nd => List.replicate nd.paramsCount none) := by
  rw [List.foldl_map]
  rfl

namespace GraphBlueprint.Wired

variable {bp : GraphBlueprint α}

theorem inputWiring (W : bp.Wired) {c : BlueprintConnection} (hc : c ∈ bp.connections) :
    sourceAt (inputWiring bp) c.dstNode c.dstInput = some (c.srcNode, c.srcOutput) := by
  have places : ∀ e ∈ bp.connections.map BlueprintConnection.entry,
      Places (bp.nodes.map fun nd => List.replicate nd.inputsCount none) e.1 e.2.1 := by
    intro e he
    obtain ⟨c, hc, rfl⟩ := List.mem_map.mp he
    obtain ⟨-, hdst, -, hinp⟩ := W.audio c hc
    have hnd : bp.nodes[c.dstNode]? = some bp.nodes[c.dstNode] := List.getElem?_eq_getElem hdst
    refine ⟨List.replicate bp.nodes[c.dstNode].inputsCount none,
      by simp [BlueprintConnection.entry, hnd], ?_⟩
    simpa [inputsOf, hnd, BlueprintConnection.entry] using hinp
  rw [inputWiring_eq]
  exact sourceAt_foldl _ _ (List.pairwise_map.mpr W.oneDriver) places c.entry
    (List.mem_map_of_mem hc)

theorem paramWiring (W : bp.Wired) {c : ParamConnection} (hc : c ∈ bp.paramConnections) :
    sourceAt (paramWiring bp) c.dstNode c.dstParam = some (c.srcNode, c.srcOutput) := by
  have places : ∀ e ∈ bp.paramConnections.map ParamConnection.entry,
      Places (bp.nodes.map fun nd => List.replicate nd.paramsCount none) e.1 e.2.1 := by
    intro e he
    obtain ⟨c, hc, rfl⟩ := List.mem_map.mp he
    obtain ⟨-, hdst, -, hinp⟩ := W.modulation c hc
    have hnd : bp.nodes[c.dstNode]? = some bp.nodes[c.dstNode] := List.getElem?_eq_getElem hdst
    refine ⟨List.replicate bp.nodes[c.dstNode].paramsCount none,
      by simp [ParamConnection.entry, hnd], ?_⟩
    simpa [paramsOf, hnd, ParamConnection.entry] using hinp
  rw [paramWiring_eq]
  exact sourceAt_foldl _ _ (List.pairwise_map.mpr W.oneModulator) places c.entry
    (List.mem_map_of_mem hc)

end GraphBlueprint.Wired

/-! ### The views of an instance -/

theorem instantiate_eq_some [Sample α] {s : CompiledSchedule α} {sr : Nat}
    {g : GraphInstance α} (built : instantiate s sr = some g) :
    s.ok = true ∧ g.sched = s := by
  rw [instantiate] at built
  split_ifs at built with h
  exact ⟨by simpa using h, (Option.some.inj built) ▸ rfl⟩

namespace GraphInstance

/-- Call `k`'s slice of the buffer of output `ch` of node `u`, as the consumer `v` reads it. -/
def edgeSlice (g : GraphInstance α) (u ch v k : Nat) : BufferView :=
  let perCall := g.sched.outStride.getD u 0 / g.sched.calls.getD v 1
  .pool (g.outOffset u ch + k * perCall) perCall

variable {g : GraphInstance α} {bp : GraphBlueprint α} {B : Nat} {rates : Rates}
  {order : List Nat}

/-- The view of an input is the slice of the connection that drives it. -/
theorem inView_eq_edgeSlice (W : bp.Wired) (h : g.sched = layout bp B order rates)
    {c : BlueprintConnection} (hc : c ∈ bp.connections) (k : Nat) :
    g.inView c.dstNode k c.dstInput = g.edgeSlice c.srcNode c.srcOutput c.dstNode k := by
  have source : (g.sched.inputSource.getD c.dstNode []).getD c.dstInput none
      = some (c.srcNode, c.srcOutput) := h ▸ W.inputWiring hc
  simp only [inView, source, edgeSlice]

/-- The buffer of a modulated port starts at the slice of its modulation. -/
theorem portView_buffer [Sample α] (W : bp.Wired) (h : g.sched = layout bp B order rates)
    {c : ParamConnection} (hc : c ∈ bp.paramConnections) (k : Nat) :
    ∃ start size, g.edgeSlice c.srcNode c.srcOutput c.dstNode k = .pool start size ∧
      (g.portView c.dstNode k c.dstParam).buffer = some (g.bufferPool.drop start) := by
  have source : (g.sched.paramSource.getD c.dstNode []).getD c.dstParam none
      = some (c.srcNode, c.srcOutput) := h ▸ W.paramWiring hc
  refine ⟨_, _, rfl, ?_⟩
  simp only [portView, source]

end GraphInstance

end Xrune
