import Xrune.Core.Blueprint

/-!
# Core — wired blueprints

`connect` and `connect_param` refuse a connection between nodes or ports that do not exist and
a second driver of an input or a port.  A blueprint whose edges they made is `Wired`, and the
edges of a wired blueprint can be made by them.
-/

namespace Xrune.GraphBlueprint

variable {α : Type} {bp bp' : GraphBlueprint α}

/-- The connections run between existing ports, and no two drive the same one. -/
structure Wired (bp : GraphBlueprint α) : Prop where
  audio : ∀ c ∈ bp.connections, c.srcNode < bp.size ∧ c.dstNode < bp.size ∧
    c.srcOutput < bp.outputsOf c.srcNode ∧ c.dstInput < bp.inputsOf c.dstNode
  oneDriver : bp.connections.Pairwise fun c d =>
    ¬(c.dstNode = d.dstNode ∧ c.dstInput = d.dstInput)
  modulation : ∀ c ∈ bp.paramConnections, c.srcNode < bp.size ∧ c.dstNode < bp.size ∧
    c.srcOutput < bp.outputsOf c.srcNode ∧ c.dstParam < bp.paramsOf c.dstNode
  oneModulator : bp.paramConnections.Pairwise fun c d =>
    ¬(c.dstNode = d.dstNode ∧ c.dstParam = d.dstParam)

/-- The terminals read and fill channels that exist. -/
structure TerminalsExist (bp : GraphBlueprint α) (ts : List Terminal) : Prop where
  node : ∀ t ∈ ts, t.node < bp.size
  channel : ∀ t ∈ ts, ∀ c ∈ t.channels, c.silent = false →
    c.node < bp.size ∧ c.ch < bp.outputsOf c.node

/-- `-1`, or the index of a node. -/
def NodeOrNone (bp : GraphBlueprint α) (i : Int) : Prop := i = -1 ∨ 0 ≤ i ∧ i.toNat < bp.size

/-- What the engine relies on when it reads a blueprint. -/
structure WellFormed (bp : GraphBlueprint α) : Prop where
  wired : bp.Wired
  inputs : bp.TerminalsExist bp.inputTerminals
  outputs : bp.TerminalsExist bp.outputTerminals
  inputNode : bp.NodeOrNone bp.inputNode
  outputNode : bp.NodeOrNone bp.outputNode

/-- The edges of the blueprint were made by `connect` and `connect_param`, its nodes, names and
terminals in any way. -/
inductive EdgesMade : GraphBlueprint α → Prop where
  | bare {bp : GraphBlueprint α} (audio : bp.connections = [])
      (modulation : bp.paramConnections = []) : EdgesMade bp
  | grown {bp bp' : GraphBlueprint α} (made : EdgesMade bp) (nodes : bp.nodes <+: bp'.nodes)
      (audio : bp'.connections = bp.connections)
      (modulation : bp'.paramConnections = bp.paramConnections) : EdgesMade bp'
  | connect {bp bp' : GraphBlueprint α} {src out dst inp : Nat} (made : EdgesMade bp)
      (one : bp.connect src out dst inp = some bp') : EdgesMade bp'
  | connectParam {bp bp' : GraphBlueprint α} {src out dst param : Nat} (made : EdgesMade bp)
      (one : bp.connectParam src out dst param = some bp') : EdgesMade bp'

/-- What an accepted `connect` was given, and what it leaves. -/
theorem connect_eq_some {src out dst inp : Nat} :
    bp.connect src out dst inp = some bp' ↔
      (src < bp.size ∧ dst < bp.size ∧ out < bp.outputsOf src ∧ inp < bp.inputsOf dst ∧
        ∀ c ∈ bp.connections, ¬(c.dstNode = dst ∧ c.dstInput = inp)) ∧
      bp' = { bp with connections := bp.connections ++ [⟨src, out, dst, inp⟩] } := by
  rw [connect]
  split_ifs with hn ho hi hd
  · exact ⟨(nomatch ·), fun h => by omega⟩
  · exact ⟨(nomatch ·), fun h => by omega⟩
  · exact ⟨(nomatch ·), fun h => by omega⟩
  · obtain ⟨c, hc, h⟩ := List.any_eq_true.mp hd
    exact ⟨(nomatch ·), fun g => absurd (by simpa using h) (g.1.2.2.2.2 c hc)⟩
  · have free : ∀ c ∈ bp.connections, ¬(c.dstNode = dst ∧ c.dstInput = inp) := by
      intro c hc h
      exact hd (List.any_eq_true.mpr ⟨c, hc, by simpa using h⟩)
    constructor
    · intro h
      exact ⟨⟨by omega, by omega, by omega, by omega, free⟩, (Option.some.inj h).symm⟩
    · rintro ⟨-, rfl⟩
      rfl

/-- What an accepted `connect_param` was given, and what it leaves. -/
theorem connectParam_eq_some {src out dst param : Nat} :
    bp.connectParam src out dst param = some bp' ↔
      (src < bp.size ∧ dst < bp.size ∧ out < bp.outputsOf src ∧ param < bp.paramsOf dst ∧
        ∀ c ∈ bp.paramConnections, ¬(c.dstNode = dst ∧ c.dstParam = param)) ∧
      bp' = { bp with paramConnections := bp.paramConnections ++ [⟨src, out, dst, param⟩] } := by
  rw [connectParam]
  split_ifs with hn ho hi hd
  · exact ⟨(nomatch ·), fun h => by omega⟩
  · exact ⟨(nomatch ·), fun h => by omega⟩
  · exact ⟨(nomatch ·), fun h => by omega⟩
  · obtain ⟨c, hc, h⟩ := List.any_eq_true.mp hd
    exact ⟨(nomatch ·), fun g => absurd (by simpa using h) (g.1.2.2.2.2 c hc)⟩
  · have free : ∀ c ∈ bp.paramConnections, ¬(c.dstNode = dst ∧ c.dstParam = param) := by
      intro c hc h
      exact hd (List.any_eq_true.mpr ⟨c, hc, by simpa using h⟩)
    constructor
    · intro h
      exact ⟨⟨by omega, by omega, by omega, by omega, free⟩, (Option.some.inj h).symm⟩
    · rintro ⟨-, rfl⟩
      rfl

/-- A node keeps its index when nodes are added. -/
theorem getElem?_of_prefix (h : bp.nodes <+: bp'.nodes) {i : Nat} (hi : i < bp.size) :
    bp'.nodes[i]? = bp.nodes[i]? := by
  obtain ⟨l, hl⟩ := h
  rw [← hl, List.getElem?_append_left hi]

namespace Wired

theorem bare (audio : bp.connections = []) (modulation : bp.paramConnections = []) :
    bp.Wired where
  audio := by simp [audio]
  oneDriver := by simp [audio]
  modulation := by simp [modulation]
  oneModulator := by simp [modulation]

theorem grown (W : bp.Wired) (nodes : bp.nodes <+: bp'.nodes)
    (audio : bp'.connections = bp.connections)
    (modulation : bp'.paramConnections = bp.paramConnections) : bp'.Wired where
  audio := by
    intro c hc
    obtain ⟨h₁, h₂, h₃, h₄⟩ := W.audio c (audio ▸ hc)
    have hle : bp.size ≤ bp'.size := nodes.length_le
    rw [outputsOf, inputsOf, getElem?_of_prefix nodes h₁, getElem?_of_prefix nodes h₂]
    exact ⟨by omega, by omega, h₃, h₄⟩
  oneDriver := audio ▸ W.oneDriver
  modulation := by
    intro c hc
    obtain ⟨h₁, h₂, h₃, h₄⟩ := W.modulation c (modulation ▸ hc)
    have hle : bp.size ≤ bp'.size := nodes.length_le
    rw [outputsOf, paramsOf, getElem?_of_prefix nodes h₁, getElem?_of_prefix nodes h₂]
    exact ⟨by omega, by omega, h₃, h₄⟩
  oneModulator := modulation ▸ W.oneModulator

theorem connect (W : bp.Wired) {src out dst inp : Nat}
    (one : bp.connect src out dst inp = some bp') : bp'.Wired := by
  obtain ⟨⟨h₁, h₂, h₃, h₄, free⟩, rfl⟩ := connect_eq_some.mp one
  exact
    { audio := by
        intro c hc
        rcases List.mem_append.mp hc with hc | hc
        · exact W.audio c hc
        · obtain rfl := List.mem_singleton.mp hc
          exact ⟨h₁, h₂, h₃, h₄⟩
      oneDriver := by
        refine List.pairwise_append.mpr ⟨W.oneDriver, List.pairwise_singleton _ _, ?_⟩
        intro c hc d hd
        obtain rfl := List.mem_singleton.mp hd
        exact free c hc
      modulation := W.modulation
      oneModulator := W.oneModulator }

theorem connectParam (W : bp.Wired) {src out dst param : Nat}
    (one : bp.connectParam src out dst param = some bp') : bp'.Wired := by
  obtain ⟨⟨h₁, h₂, h₃, h₄, free⟩, rfl⟩ := connectParam_eq_some.mp one
  exact
    { audio := W.audio
      oneDriver := W.oneDriver
      modulation := by
        intro c hc
        rcases List.mem_append.mp hc with hc | hc
        · exact W.modulation c hc
        · obtain rfl := List.mem_singleton.mp hc
          exact ⟨h₁, h₂, h₃, h₄⟩
      oneModulator := by
        refine List.pairwise_append.mpr ⟨W.oneModulator, List.pairwise_singleton _ _, ?_⟩
        intro c hc d hd
        obtain rfl := List.mem_singleton.mp hd
        exact free c hc }

end Wired

/-- Every blueprint built through the checked calls is wired. -/
theorem EdgesMade.wired (made : bp.EdgesMade) : bp.Wired := by
  induction made with
  | bare audio modulation => exact .bare audio modulation
  | grown _ nodes audio modulation ih => exact ih.grown nodes audio modulation
  | connect _ one ih => exact ih.connect one
  | connectParam _ one ih => exact ih.connectParam one

end Xrune.GraphBlueprint
