import Xrune.Core.Wiring
import Xrune.Nodes.Standard

/-!
# Serialize — the Graphviz export

`to_dot` as the statements it writes and their text.  An output terminal is one statement for
the terminal and one edge, from its `node`; the engine reads the terminal's channels
(`output_terminal_view`).

* `dotEdges_eq` — the edges among the statements.
* `shows_iff` — the export shows the graph exactly when every output terminal with channels
  has its sounding ones on its `node`.

`%g` is a parameter.
-/

namespace Xrune

variable {α : Type}

/-- What a statement names: a node, an input or an output terminal. -/
inductive DotVertex where
  | node (i : Nat)
  | input (t : Nat)
  | output (t : Nat)
  deriving DecidableEq, Repr

inductive DotStyle where
  | solid
  | dashed
  | bold
  deriving DecidableEq, Repr

structure DotEdge where
  src : DotVertex
  dst : DotVertex
  style : DotStyle
  label : Option String := none
  deriving DecidableEq, Repr

/-- Where an edge runs. -/
def DotEdge.ends (e : DotEdge) : DotVertex × DotVertex := (e.src, e.dst)

inductive DotStatement where
  | blank
  | vertex (v : DotVertex) (attributes : String)
  | edge (e : DotEdge)

/-! ### The text -/

/-- `dot_escape`. -/
def dotEscape (s : String) : String :=
  String.join (s.toList.map fun c =>
    if c = '"' ∨ c = '\\' then "\\" ++ String.singleton c else String.singleton c)

def DotVertex.text : DotVertex → String
  | .node i => "n" ++ toString i
  | .input t => "in" ++ toString t
  | .output t => "out" ++ toString t

/-- What an edge carries in brackets. -/
def DotEdge.attributes (e : DotEdge) : String :=
  match e.style, e.label with
  | .solid, none => ""
  | .solid, some l => " [label=\"" ++ l ++ "\"]"
  | .dashed, l => " [style=dashed, color=\"#3b7d4f\", fontcolor=\"#3b7d4f\", label=\"" ++
      l.getD "" ++ "\"]"
  | .bold, _ => " [style=bold]"

def DotStatement.text : DotStatement → String
  | .blank => "\n"
  | .vertex v attributes => "  " ++ v.text ++ " [" ++ attributes ++ "];\n"
  | .edge e => "  " ++ e.src.text ++ " -> " ++ e.dst.text ++ e.attributes ++ ";\n"

/-- The edge a statement draws. -/
def DotStatement.edge? : DotStatement → Option DotEdge
  | .edge e => some e
  | _ => none

namespace GraphBlueprint

section Statements

variable (fmt : α → String)

/-- A node's label: name, type, then the ports with their defaults. -/
def dotLabel (bp : GraphBlueprint α) (i : Nat) (nd : Node α) : String :=
  let name := bp.names.getD i ""
  let label := if name = "" then "#" ++ toString i else name
  dotEscape label ++ "\\n<" ++ nd.typeName ++ ">" ++
    String.join (nd.params.mapIdx fun p pd => "\\n" ++ pd.name ++ " = " ++ fmt (nd.paramDefault p))

/-- A node; one that changes the rate stands out. -/
def dotNode (bp : GraphBlueprint α) (i : Nat) (nd : Node α) : DotStatement :=
  let text := bp.dotLabel fmt i nd
  if nd.rateNum ≠ nd.rateDen ∨ nd.blockNum ≠ nd.blockDen then
    .vertex (.node i) ("label=\"" ++ text ++
      "\\nrate " ++ toString nd.rateNum ++ "/" ++ toString nd.rateDen ++
      ", block " ++ toString nd.blockNum ++ "/" ++ toString nd.blockDen ++
      "\", fillcolor=\"#fdf0e3\", color=\"#c07b30\"")
  else .vertex (.node i) ("label=\"" ++ text ++ "\"")

/-- An audio connection; the ports are written unless they are both 0. -/
def dotConnection (c : BlueprintConnection) : DotEdge where
  src := .node c.srcNode
  dst := .node c.dstNode
  style := .solid
  label :=
    if c.srcOutput ≠ 0 ∨ c.dstInput ≠ 0 then
      some (toString c.srcOutput ++ ":" ++ toString c.dstInput)
    else none

/-- A modulation, with the port's name. -/
def dotModulation (bp : GraphBlueprint α) (m : ParamConnection) : DotEdge where
  src := .node m.srcNode
  dst := .node m.dstNode
  style := .dashed
  label :=
    some (dotEscape (((bp.nodes[m.dstNode]?.bind fun nd => nd.params[m.dstParam]?).map
      PortDescriptor.name).getD (toString m.dstParam)))

def dotInput (t : Nat) (term : Terminal) : DotEdge where
  src := .input t
  dst := .node term.node
  style := .bold

def dotOutput (t : Nat) (term : Terminal) : DotEdge where
  src := .node term.node
  dst := .output t
  style := .bold

/-- The statements between the header and the closing brace. -/
def dotStatements (bp : GraphBlueprint α) : List DotStatement :=
  bp.nodes.mapIdx (bp.dotNode fmt) ++ [.blank] ++
    bp.connections.map (fun c => .edge (dotConnection c)) ++
    bp.paramConnections.map (fun m => .edge (bp.dotModulation m)) ++
    (if bp.inputTerminals.isEmpty && bp.outputTerminals.isEmpty then [] else [.blank]) ++
    (bp.inputTerminals.mapIdx fun t term =>
      [.vertex (.input t) ("label=\"" ++ dotEscape term.name ++
        "\", shape=invhouse, fillcolor=\"#e8f5e9\", color=\"#3b7d4f\""),
       .edge (dotInput t term)]).flatten ++
    (bp.outputTerminals.mapIdx fun t term =>
      [.vertex (.output t) ("label=\"" ++ dotEscape term.name ++
        "\", shape=house, fillcolor=\"#e8f5e9\", color=\"#3b7d4f\""),
       .edge (dotOutput t term)]).flatten

/-- `to_dot`. -/
def toDot (bp : GraphBlueprint α) (name : String) : String :=
  "digraph \"" ++ dotEscape name ++ "\" \x7b\n" ++
    "  rankdir=LR;\n" ++
    "  graph [fontname=\"Helvetica\", labelloc=\"t\", label=\"" ++ dotEscape name ++ "\"];\n" ++
    "  node  [fontname=\"Helvetica\", shape=box, style=\"rounded,filled\", " ++
    "fillcolor=\"#eef3fa\", color=\"#4a6fa5\"];\n" ++
    "  edge  [fontname=\"Helvetica\", fontsize=9, color=\"#4a6fa5\"];\n\n" ++
    String.join ((bp.dotStatements fmt).map DotStatement.text) ++ "\x7d\n"

end Statements

/-! ### The edges -/

/-- The edges `to_dot` draws. -/
def dotEdges (fmt : α → String) (bp : GraphBlueprint α) : List DotEdge :=
  (bp.dotStatements fmt).filterMap DotStatement.edge?

section Edges

variable (fmt : α → String)

theorem edges_nodes (bp : GraphBlueprint α) :
    (bp.nodes.mapIdx (bp.dotNode fmt)).filterMap DotStatement.edge? = [] := by
  rw [List.filterMap_eq_nil_iff]
  intro s hs
  obtain ⟨i, hi, rfl⟩ := List.mem_mapIdx.mp hs
  unfold dotNode
  dsimp only
  split_ifs <;> rfl

/-- A terminal's two statements draw its one edge. -/
theorem edges_terminals (ts : List Terminal) (vertex : Nat → Terminal → DotStatement)
    (edge : Nat → Terminal → DotEdge) (hv : ∀ t term, (vertex t term).edge? = none) :
    ((ts.mapIdx fun t term => [vertex t term, .edge (edge t term)]).flatten).filterMap
      DotStatement.edge? = ts.mapIdx edge := by
  induction ts generalizing vertex edge with
  | nil => rfl
  | cons term ts ih =>
    rw [List.mapIdx_cons, List.mapIdx_cons, List.flatten_cons, List.filterMap_append]
    have hrest := ih (fun t => vertex (t + 1)) (fun t => edge (t + 1)) fun t => hv (t + 1)
    rw [hrest, List.filterMap_cons_none (hv 0 term)]
    rfl

theorem dotEdges_eq (bp : GraphBlueprint α) : bp.dotEdges fmt =
    bp.connections.map dotConnection ++ bp.paramConnections.map bp.dotModulation ++
      bp.inputTerminals.mapIdx dotInput ++ bp.outputTerminals.mapIdx dotOutput := by
  have hblank : ∀ b : Bool, (if b then [] else [DotStatement.blank]).filterMap
      DotStatement.edge? = [] := by
    intro b
    cases b <;> rfl
  unfold dotEdges dotStatements
  simp only [List.filterMap_append]
  rw [edges_nodes, hblank, edges_terminals _ _ _ fun _ _ => rfl,
    edges_terminals _ _ _ fun _ _ => rfl]
  simp [DotStatement.edge?, List.filterMap_map, Function.comp_def]

end Edges

/-- Node `n` sounds on the terminal: through one of its channels that is not silent, or as the
whole terminal where it has no channels. -/
def Feeds (term : Terminal) (n : Nat) : Prop :=
  (term.channels = [] ∧ term.node = n) ∨ ∃ c ∈ term.channels, c.silent = false ∧ c.node = n

/-- The edges `es` are the blueprint's: one solid for each connection, one dashed for each
modulation, one into the node of each input terminal, and into each output terminal one from
the nodes that sound on it; there are no others. -/
structure Shows (bp : GraphBlueprint α) (es : List DotEdge) : Prop where
  audio : (es.filter (·.style = .solid)).map DotEdge.ends =
    bp.connections.map fun c => (.node c.srcNode, .node c.dstNode)
  modulation : (es.filter (·.style = .dashed)).map DotEdge.ends =
    bp.paramConnections.map fun m => (.node m.srcNode, .node m.dstNode)
  input : ∀ t v, (∃ e ∈ es, e.ends = (.input t, v)) ↔
    ∃ term, bp.inputTerminals[t]? = some term ∧ v = .node term.node
  output : ∀ t v, (∃ e ∈ es, e.ends = (v, .output t)) ↔
    ∃ term n, bp.outputTerminals[t]? = some term ∧ Feeds term n ∧ v = .node n
  bold : ∀ e ∈ es, e.style = .bold →
    (∃ t n, e.ends = (.input t, .node n)) ∨ ∃ n t, e.ends = (.node n, .output t)

section Shows

variable (fmt : α → String) (bp : GraphBlueprint α)

theorem mem_dotEdges {e : DotEdge} : e ∈ bp.dotEdges fmt ↔
    (∃ c ∈ bp.connections, dotConnection c = e) ∨
    (∃ m ∈ bp.paramConnections, bp.dotModulation m = e) ∨
    (∃ t term, bp.inputTerminals[t]? = some term ∧ dotInput t term = e) ∨
    ∃ t term, bp.outputTerminals[t]? = some term ∧ dotOutput t term = e := by
  have hmem : ∀ (ts : List Terminal) (f : Nat → Terminal → DotEdge), e ∈ ts.mapIdx f ↔
      ∃ t term, ts[t]? = some term ∧ f t term = e := by
    intro ts f
    rw [List.mem_mapIdx]
    constructor
    · rintro ⟨t, ht, rfl⟩
      exact ⟨t, ts[t], List.getElem?_eq_getElem ht, rfl⟩
    · rintro ⟨t, term, hget, rfl⟩
      obtain ⟨ht, rfl⟩ := List.getElem?_eq_some_iff.mp hget
      exact ⟨t, ht, rfl⟩
  rw [dotEdges_eq]
  simp only [List.mem_append, List.mem_map, hmem, or_assoc]

/-- The edges of the four loops, sorted by style. -/
theorem style_connection : ∀ e ∈ bp.connections.map dotConnection, e.style = .solid := by
  intro e he
  obtain ⟨c, -, rfl⟩ := List.mem_map.mp he
  rfl

theorem style_modulation : ∀ e ∈ bp.paramConnections.map bp.dotModulation, e.style = .dashed := by
  intro e he
  obtain ⟨m, -, rfl⟩ := List.mem_map.mp he
  rfl

theorem style_terminal (ts : List Terminal) {f : Nat → Terminal → DotEdge}
    (hf : ∀ t term, (f t term).style = .bold) : ∀ e ∈ ts.mapIdx f, e.style = .bold := by
  intro e he
  obtain ⟨t, ht, rfl⟩ := List.mem_mapIdx.mp he
  exact hf t _

theorem filter_solid : (bp.dotEdges fmt).filter (·.style = .solid) =
    bp.connections.map dotConnection := by
  rw [dotEdges_eq, List.filter_append, List.filter_append, List.filter_append]
  rw [List.filter_eq_self.mpr fun e he => by simp [bp.style_connection e he],
    List.filter_eq_nil_iff.mpr fun e he => by simp [bp.style_modulation e he],
    List.filter_eq_nil_iff.mpr fun e he => by
      simp [style_terminal bp.inputTerminals (f := dotInput) (fun _ _ => rfl) e he],
    List.filter_eq_nil_iff.mpr fun e he => by
      simp [style_terminal bp.outputTerminals (f := dotOutput) (fun _ _ => rfl) e he]]
  simp

theorem filter_dashed : (bp.dotEdges fmt).filter (·.style = .dashed) =
    bp.paramConnections.map bp.dotModulation := by
  rw [dotEdges_eq, List.filter_append, List.filter_append, List.filter_append]
  rw [List.filter_eq_nil_iff.mpr fun e he => by simp [bp.style_connection e he],
    List.filter_eq_self.mpr fun e he => by simp [bp.style_modulation e he],
    List.filter_eq_nil_iff.mpr fun e he => by
      simp [style_terminal bp.inputTerminals (f := dotInput) (fun _ _ => rfl) e he],
    List.filter_eq_nil_iff.mpr fun e he => by
      simp [style_terminal bp.outputTerminals (f := dotOutput) (fun _ _ => rfl) e he]]
  simp

/-- An edge into output terminal `t` comes from its `node`. -/
theorem ends_output {t : Nat} {v : DotVertex} :
    (∃ e ∈ bp.dotEdges fmt, e.ends = (v, .output t)) ↔
      ∃ term, bp.outputTerminals[t]? = some term ∧ v = .node term.node := by
  constructor
  · rintro ⟨e, he, hends⟩
    rcases (bp.mem_dotEdges fmt).mp he with ⟨c, -, rfl⟩ | ⟨m, -, rfl⟩ | ⟨u, term, -, rfl⟩ |
      ⟨u, term, hget, rfl⟩
    · cases hends
    · cases hends
    · cases hends
    · cases hends
      exact ⟨term, hget, rfl⟩
  · rintro ⟨term, hget, rfl⟩
    exact ⟨dotOutput t term, (bp.mem_dotEdges fmt).mpr (.inr (.inr (.inr ⟨t, term, hget, rfl⟩))),
      rfl⟩

theorem ends_input {t : Nat} {v : DotVertex} :
    (∃ e ∈ bp.dotEdges fmt, e.ends = (.input t, v)) ↔
      ∃ term, bp.inputTerminals[t]? = some term ∧ v = .node term.node := by
  constructor
  · rintro ⟨e, he, hends⟩
    rcases (bp.mem_dotEdges fmt).mp he with ⟨c, -, rfl⟩ | ⟨m, -, rfl⟩ | ⟨u, term, hget, rfl⟩ |
      ⟨u, term, -, rfl⟩
    · cases hends
    · cases hends
    · cases hends
      exact ⟨term, hget, rfl⟩
    · cases hends
  · rintro ⟨term, hget, rfl⟩
    exact ⟨dotInput t term, (bp.mem_dotEdges fmt).mpr (.inr (.inr (.inl ⟨t, term, hget, rfl⟩))),
      rfl⟩

theorem ends_bold {e : DotEdge} (he : e ∈ bp.dotEdges fmt) (hbold : e.style = .bold) :
    (∃ t n, e.ends = (.input t, .node n)) ∨ ∃ n t, e.ends = (.node n, .output t) := by
  rcases (bp.mem_dotEdges fmt).mp he with ⟨c, -, rfl⟩ | ⟨m, -, rfl⟩ | ⟨t, term, -, rfl⟩ |
    ⟨t, term, -, rfl⟩
  · cases hbold
  · cases hbold
  · exact .inl ⟨t, term.node, rfl⟩
  · exact .inr ⟨term.node, t, rfl⟩

end Shows

/-- What sounds on the terminal is its `node`, alone. -/
def OnNode (term : Terminal) : Prop :=
  term.channels = [] ∨
    (∃ c ∈ term.channels, c.silent = false) ∧
      ∀ c ∈ term.channels, c.silent = false → c.node = term.node

theorem onNode_iff (term : Terminal) : OnNode term ↔ ∀ n, Feeds term n ↔ n = term.node := by
  constructor
  · rintro (hnone | ⟨⟨c, hc, hloud⟩, hall⟩) n
    · constructor
      · rintro (⟨-, rfl⟩ | ⟨d, hd, -⟩)
        · rfl
        · rw [hnone] at hd
          cases hd
      · rintro rfl
        exact .inl ⟨hnone, rfl⟩
    · constructor
      · rintro (⟨hnone, rfl⟩ | ⟨d, hd, hdloud, rfl⟩)
        · rfl
        · exact hall d hd hdloud
      · rintro rfl
        exact .inr ⟨c, hc, hloud, hall c hc hloud⟩
  · intro hfeeds
    rcases (hfeeds term.node).mpr rfl with ⟨hnone, -⟩ | ⟨c, hc, hloud, -⟩
    · exact .inl hnone
    · exact .inr ⟨⟨c, hc, hloud⟩, fun d hd hdloud =>
        (hfeeds d.node).mp (.inr ⟨d, hd, hdloud, rfl⟩)⟩

/-- The export shows the blueprint exactly when every output terminal sounds from the node it
is drawn at. -/
theorem shows_iff (fmt : α → String) (bp : GraphBlueprint α) :
    bp.Shows (bp.dotEdges fmt) ↔ ∀ term ∈ bp.outputTerminals, OnNode term := by
  constructor
  · intro S term hterm
    obtain ⟨t, hget⟩ := List.getElem?_of_mem hterm
    rw [onNode_iff]
    intro n
    have hdrawn := (bp.ends_output fmt (t := t) (v := .node n)).symm.trans (S.output t (.node n))
    constructor
    · intro hfeeds
      obtain ⟨term', hget', hnode⟩ := hdrawn.mpr ⟨term, n, hget, hfeeds, rfl⟩
      rw [hget, Option.some.injEq] at hget'
      subst hget'
      injection hnode
    · rintro rfl
      obtain ⟨term', n, hget', hfeeds, hnode⟩ := hdrawn.mp ⟨term, hget, rfl⟩
      rw [hget, Option.some.injEq] at hget'
      subst hget'
      injection hnode with hnode
      rwa [hnode]
  · intro hall
    exact
      { audio := by
          rw [filter_solid, List.map_map]
          rfl
        modulation := by
          rw [filter_dashed, List.map_map]
          rfl
        input := fun t v => bp.ends_input fmt
        output := by
          intro t v
          rw [bp.ends_output fmt]
          constructor
          · rintro ⟨term, hget, rfl⟩
            have hon := (onNode_iff term).mp (hall term (List.mem_of_getElem? hget))
            exact ⟨term, term.node, hget, (hon term.node).mpr rfl, rfl⟩
          · rintro ⟨term, n, hget, hfeeds, rfl⟩
            have hon := (onNode_iff term).mp (hall term (List.mem_of_getElem? hget))
            exact ⟨term, hget, by rw [(hon n).mp hfeeds]⟩
        bold := fun e he hbold => bp.ends_bold fmt he hbold }

/-- `out[0] a` and `out[1] b`. -/
def twoSources : GraphBlueprint ℚ where
  nodes := [Nodes.constant 1, Nodes.constant 2]
  names := ["a", "b"]
  outputTerminals := [⟨"out", 0, [⟨0, 0, false⟩, ⟨1, 0, false⟩]⟩]
  outputNode := 0

/-- The second channel's node has no edge to the terminal. -/
theorem twoSources_not_shown :
    twoSources.WellFormed ∧ ¬twoSources.Shows (twoSources.dotEdges fun _ => "0") := by
  constructor
  · exact
      { wired := .bare rfl rfl
        inputs := ⟨by simp [twoSources], by simp [twoSources]⟩
        outputs := ⟨by simp [twoSources, size], by
          simp [twoSources, size, outputsOf, Nodes.constant]⟩
        inputNode := .inl rfl
        outputNode := .inr ⟨le_refl _, by simp [twoSources, size]⟩ }
  · intro S
    have hdrawn := (S.output 0 (.node 1)).mpr
      ⟨_, 1, rfl, .inr ⟨⟨1, 0, false⟩, by simp, rfl, rfl⟩, rfl⟩
    obtain ⟨term, hget, hnode⟩ := (twoSources.ends_output _).mp hdrawn
    cases hget
    cases hnode

end GraphBlueprint

end Xrune
