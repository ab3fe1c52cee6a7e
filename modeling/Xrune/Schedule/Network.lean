import Xrune.Schedule.Machines

/-!
# Schedule — the network of a blueprint

What a blueprint means, apart from blocks and buffers: every output of every node shows a stream,
and the streams of a node are those its machine plays on the streams that arrive at its inputs and
its ports (`Network.Solves`).  An acyclic blueprint's network has at most one solution
(`Network.Solves.agree`).
-/

namespace Xrune

variable {α : Type}

/-! ### What drives a port -/

namespace GraphBlueprint

variable {bp : GraphBlueprint α} {v c p u ch : Nat}

/-- The output connected to input `c` of node `v`. -/
def inputDriver (bp : GraphBlueprint α) (v c : Nat) : Option (Nat × Nat) :=
  (bp.connections.find? fun e => e.dstNode == v && e.dstInput == c).map fun e =>
    (e.srcNode, e.srcOutput)

/-- The output that modulates port `p` of node `v`. -/
def portDriver (bp : GraphBlueprint α) (v p : Nat) : Option (Nat × Nat) :=
  (bp.paramConnections.find? fun e => e.dstNode == v && e.dstParam == p).map fun e =>
    (e.srcNode, e.srcOutput)

theorem inputDriver_eq_some (h : bp.inputDriver v c = some (u, ch)) :
    ⟨u, ch, v, c⟩ ∈ bp.connections := by
  obtain ⟨e, he, eq⟩ := Option.map_eq_some_iff.mp h
  have found := List.find?_some he
  simp only [Bool.and_eq_true, beq_iff_eq] at found
  obtain ⟨rfl, rfl⟩ := found
  obtain ⟨rfl, rfl⟩ := Prod.mk.inj eq
  exact List.mem_of_find?_eq_some he

theorem portDriver_eq_some (h : bp.portDriver v p = some (u, ch)) :
    ⟨u, ch, v, p⟩ ∈ bp.paramConnections := by
  obtain ⟨e, he, eq⟩ := Option.map_eq_some_iff.mp h
  have found := List.find?_some he
  simp only [Bool.and_eq_true, beq_iff_eq] at found
  obtain ⟨rfl, rfl⟩ := found
  obtain ⟨rfl, rfl⟩ := Prod.mk.inj eq
  exact List.mem_of_find?_eq_some he

/-- An input has no driver when no connection ends at it. -/
theorem inputDriver_eq_none :
    bp.inputDriver v c = none ↔ ∀ e ∈ bp.connections, ¬(e.dstNode = v ∧ e.dstInput = c) := by
  simp [inputDriver]

theorem portDriver_eq_none :
    bp.portDriver v p = none ↔ ∀ e ∈ bp.paramConnections, ¬(e.dstNode = v ∧ e.dstParam = p) := by
  simp [portDriver]

namespace Wired

/-- In a wired blueprint the driver of an input is the source of its one connection. -/
theorem inputDriver (W : bp.Wired) (h : ⟨u, ch, v, c⟩ ∈ bp.connections) :
    bp.inputDriver v c = some (u, ch) := by
  have here := W.inputWiring h
  cases driver : bp.inputDriver v c with
  | none => exact absurd ⟨rfl, rfl⟩ (inputDriver_eq_none.mp driver _ h)
  | some d =>
      have there := W.inputWiring (inputDriver_eq_some driver)
      exact there.symm.trans here

theorem portDriver (W : bp.Wired) (h : ⟨u, ch, v, p⟩ ∈ bp.paramConnections) :
    bp.portDriver v p = some (u, ch) := by
  have here := W.paramWiring h
  cases driver : bp.portDriver v p with
  | none => exact absurd ⟨rfl, rfl⟩ (portDriver_eq_none.mp driver _ h)
  | some d =>
      have there := W.paramWiring (portDriver_eq_some driver)
      exact there.symm.trans here

/-- The source tables of a schedule hold the drivers. -/
theorem inputDriver_eq (W : bp.Wired) (v c : Nat) :
    bp.inputDriver v c = sourceAt (Xrune.inputWiring bp) v c := by
  cases driver : bp.inputDriver v c with
  | some d => exact (W.inputWiring (inputDriver_eq_some driver)).symm
  | none =>
      have free := inputDriver_eq_none.mp driver
      rw [inputWiring_eq, sourceAt_foldl_ne, GraphInstance.sourceAt_bare]
      intro e he
      obtain ⟨d, hd, rfl⟩ := List.mem_map.mp he
      exact free d hd

theorem portDriver_eq (W : bp.Wired) (v p : Nat) :
    bp.portDriver v p = sourceAt (Xrune.paramWiring bp) v p := by
  cases driver : bp.portDriver v p with
  | some d => exact (W.paramWiring (portDriver_eq_some driver)).symm
  | none =>
      have free := portDriver_eq_none.mp driver
      rw [paramWiring_eq, sourceAt_foldl_ne, GraphInstance.sourceAt_bare]
      intro e he
      obtain ⟨d, hd, rfl⟩ := List.mem_map.mp he
      exact free d hd

end Wired

end GraphBlueprint

/-! ### Networks -/

/-- A node, an output channel and a time. -/
abbrev Streams (α : Type) := Nat → Nat → Nat → α

/-- The machines of the nodes, the states they start from, the rates they are told, and the
settings of the ports nothing modulates. -/
structure Network (α : Type) where
  machine : Nat → SampleMachine α
  state : ∀ v, (machine v).State
  rate : Nat → Nat
  setting : Nat → Nat → α

namespace Network

variable (N : Network α) (bp : GraphBlueprint α)

section

variable [Zero α]

/-- The stream at input `c` of node `v`; an input that nothing drives is silent. -/
def arriving (bp : GraphBlueprint α) (out : Streams α) (v c t : Nat) : α :=
  match bp.inputDriver v c with
  | some (u, ch) => out u ch t
  | none         => 0

/-- The stream at port `p` of node `v`. -/
def steering (out : Streams α) (v p t : Nat) : α :=
  match bp.portDriver v p with
  | some (u, ch) => out u ch t
  | none         => N.setting v p

/-- What node `v` plays when the outputs show `out`. -/
def playing (out : Streams α) (v c t : Nat) : α :=
  (N.machine v).play (N.rate v) (N.state v) (arriving bp out v) (N.steering bp out v) c t

/-- Every output shows what its node plays. -/
def Solves (out : Streams α) : Prop :=
  ∀ v < bp.size, ∀ c < bp.outputsOf v, ∀ t, out v c t = N.playing bp out v c t

variable {N bp} {out out' : Streams α}

/-- What a node plays depends on the outputs that feed it. -/
theorem playing_congr (W : bp.Wired) {v : Nat}
    (same : ∀ u, (u, v) ∈ bp.edges → ∀ ch < bp.outputsOf u, out u ch = out' u ch) :
    N.playing bp out v = N.playing bp out' v := by
  have inputs : arriving bp out v = arriving bp out' v := by
    funext c t
    rw [arriving, arriving]
    cases driver : bp.inputDriver v c with
    | none => rfl
    | some d =>
        have mem := GraphBlueprint.inputDriver_eq_some driver
        have edge := GraphBlueprint.mem_edges.mpr (.inl ⟨_, mem, rfl⟩)
        exact congrFun (same _ edge _ (W.audio _ mem).2.2.1) t
  have ports : N.steering bp out v = N.steering bp out' v := by
    funext p t
    rw [steering, steering]
    cases driver : bp.portDriver v p with
    | none => rfl
    | some d =>
        have mem := GraphBlueprint.portDriver_eq_some driver
        have edge := GraphBlueprint.mem_edges.mpr (.inr ⟨_, mem, rfl⟩)
        exact congrFun (same _ edge _ (W.modulation _ mem).2.2.1) t
  funext c t
  rw [playing, playing, inputs, ports]

/-- **The network of an acyclic blueprint has at most one solution.** -/
theorem Solves.agree (W : bp.Wired) (acyclic : Acyclic bp.edges) (h : N.Solves bp out)
    (h' : N.Solves bp out') : ∀ v < bp.size, ∀ c < bp.outputsOf v, out v c = out' v c := by
  have D := topoRun_done W
  -- the outputs a node has, the others silenced
  let shown (out : Streams α) (v c : Nat) : Nat → α := if c < bp.outputsOf v then out v c else 0
  let F (v : Nat) (s : Streams α) (c : Nat) : Nat → α :=
    if c < bp.outputsOf v then N.playing bp s v c else 0
  have solved : ∀ {out}, N.Solves bp out → ∀ v ∈ (topoRun bp).topoOrder,
      shown out v = F v (shown out) := by
    intro out h v hv
    have same : N.playing bp (shown out) v = N.playing bp out v :=
      playing_congr W fun u _ ch hch => if_pos hch
    funext c
    simp only [shown, F, same]
    split_ifs with hc
    · exact funext (h v (D.mem v hv) c hc)
    · rfl
  have agree := Acyclic.solutions_agree (E := bp.edges) D.preds (F := F)
    (fun v _ same => by
      simp only [F, playing_congr (N := N) W fun u edge ch _ => congrFun (same u edge) ch])
    (solved h) (solved h')
  intro v hv c hc
  have here := congrFun (agree v (D.all acyclic v hv)) c
  simpa only [shown, if_pos hc] using here

end

end Network

end Xrune
