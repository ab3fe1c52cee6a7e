import Xrune.Core.Wiring
import Xrune.Json.Decimal
import Xrune.Serialize.Read
import Xrune.Support.Errors

/-!
# Serialize — loaded blueprints

The connections of a loaded blueprint went through `connect` and `connect_param`, and every node
index of a terminal was checked, so the blueprint is wired and its terminals name nodes that
exist (`loadDocument_ok`).  The channel numbers of the terminals and the input and output node
are copied as they stand.  So a loaded blueprint is well formed exactly when these are in range
in the document (`loaded_wellFormed_iff`).
-/

namespace Xrune

open Json Lang

variable {α : Type} [Sample α] {reg : NodeRegistry α} {root : Value α} {bp : GraphBlueprint α}
  {name : String}

/-! ### What the document says -/

/-- The entries of `nodes`. -/
def nodeEntries (root : Value α) : List (Value α) := entriesAt root "nodes"

/-- The node the factory of an entry makes. -/
def nodeOfEntry (reg : NodeRegistry α) (root : Value α) (i : Nat) : Option (Node α) :=
  (nodeEntries root)[i]?.bind fun jn => reg.make (jn.text "type") (argsOfEntry jn)

/-- A channel entry that is not silent names a channel its node has. -/
def ChannelInRange (reg : NodeRegistry α) (root c : Value α) : Prop :=
  isSilent c = false → ∀ i, validIndex (nodeEntries root).length (c.integer "node" (-1)) = some i →
    ∀ nd, nodeOfEntry reg root i = some nd → sizeOfLong (c.integer "ch" 0) < nd.outputsCount

/-- The entry is absent or no number, `-1`, or the index of an entry of `nodes`. -/
def NodeFieldInRange (root : Value α) (key : String) : Prop :=
  root.integer key (-1) = -1 ∨
    0 ≤ root.integer key (-1) ∧ (root.integer key (-1)).toNat < (nodeEntries root).length

/-- What the loader copies from the document is in range. -/
structure SafeDocument (reg : NodeRegistry α) (root : Value α) : Prop where
  inputs : ∀ t ∈ entriesAt root "input_terminals", ∀ c ∈ entriesAt t "channels",
    ChannelInRange reg root c
  outputs : ∀ t ∈ entriesAt root "output_terminals", ∀ c ∈ entriesAt t "channels",
    ChannelInRange reg root c
  inputNode : NodeFieldInRange root "input_node"
  outputNode : NodeFieldInRange root "output_node"

/-! ### What the loader checks -/

theorem validIndex_eq_some {count i : Nat} {k : Int} :
    validIndex count k = some i ↔ 0 ≤ k ∧ k.toNat = i ∧ i < count := by
  rw [validIndex]
  split_ifs with h
  · exact ⟨fun e => by obtain rfl := Option.some.inj e; exact ⟨h.1, rfl, h.2⟩,
      fun e => congrArg some e.2.1⟩
  · exact ⟨(nomatch ·), fun e => absurd ⟨e.1, e.2.1 ▸ e.2.2⟩ h⟩

omit [Sample α] in
theorem loadNode_ok {jn : Value α} {nd : Node α} (h : loadNode reg jn = .ok (nd, name)) :
    reg.make (jn.text "type") (argsOfEntry jn) = some nd ∧ name = jn.text "name" := by
  rw [loadNode] at h
  split_ifs at h
  dsimp only at h
  split_ifs at h
  cases hm : reg.make (jn.text "type") (argsOfEntry jn) with
  | none => rw [hm] at h; cases h
  | some nd' =>
      rw [hm] at h
      cases h
      exact ⟨rfl, rfl⟩

omit [Sample α] in
theorem getElem?_of_made {entries : List (Value α)} {nodes : List (Node α × String)}
    (made : List.Forall₂ (fun jn p => loadNode reg jn = .ok p) entries nodes) (i : Nat) :
    (nodes.map Prod.fst)[i]? =
      entries[i]?.bind fun jn => reg.make (jn.text "type") (argsOfEntry jn) := by
  induction made generalizing i with
  | nil => rfl
  | cons one _ ih =>
      cases i with
      | zero => exact (loadNode_ok one).1.symm
      | succ i => simpa using ih i

omit [Sample α] in
theorem names_of_made {entries : List (Value α)} {nodes : List (Node α × String)}
    (made : List.Forall₂ (fun jn p => loadNode reg jn = .ok p) entries nodes) :
    nodes.map Prod.snd = entries.map fun jn => jn.text "name" := by
  induction made with
  | nil => rfl
  | cons one _ ih => rw [List.map_cons, List.map_cons, ih, (loadNode_ok one).2]

theorem loadConnection_ok {bp' : GraphBlueprint α} {c : Value α}
    (h : loadConnection bp c = .ok bp') :
    ∃ s d, validIndex bp.size (c.integer "src" (-1)) = some s ∧
      validIndex bp.size (c.integer "dst" (-1)) = some d ∧
      bp.connect s (sizeOfLong (c.integer "out" 0)) d (sizeOfLong (c.integer "in" 0))
        = some bp' := by
  rw [loadConnection] at h
  split at h
  · split at h
    · cases h
      exact ⟨_, _, ‹_›, ‹_›, ‹_›⟩
    · cases h
  · cases h

theorem loadModulation_ok {bp' : GraphBlueprint α} {m : Value α}
    (h : loadModulation bp m = .ok bp') :
    ∃ s d, validIndex bp.size (m.integer "src" (-1)) = some s ∧
      validIndex bp.size (m.integer "dst" (-1)) = some d ∧
      bp.connectParam s (sizeOfLong (m.integer "out" 0)) d (sizeOfLong (m.integer "param" 0))
        = some bp' := by
  rw [loadModulation] at h
  split at h
  · split at h
    · cases h
      exact ⟨_, _, ‹_›, ‹_›, ‹_›⟩
    · cases h
  · cases h

/-- A channel as it was loaded: silent, or at a node that exists. -/
theorem loadChannel_ok {count : Nat} {key : String} {c : Value α} {s : TerminalSource}
    (h : loadChannel count key c = .ok s) :
    (isSilent c = true ∧ s = ⟨0, 0, true⟩) ∨
      (isSilent c = false ∧ s.silent = false ∧
        validIndex count (c.integer "node" (-1)) = some s.node ∧
        s.ch = sizeOfLong (c.integer "ch" 0)) := by
  rw [loadChannel] at h
  split_ifs at h with hs
  · cases h
    exact .inl ⟨hs, rfl⟩
  · split at h
    · cases h
    · cases h
      exact .inr ⟨by simpa using hs, rfl, ‹_›, rfl⟩

theorem loadTerminal_ok {count : Nat} {key : String} {t : Value α} {term : Terminal}
    (h : loadTerminal count key t = .ok term) :
    validIndex count (t.integer "node" (-1)) = some term.node ∧ term.name = t.text "name" ∧
      List.Forall₂ (fun c s => loadChannel count key c = .ok s) (entriesAt t "channels")
        term.channels := by
  rw [loadTerminal] at h
  split at h
  · cases h
  · obtain ⟨channels, hc, h⟩ := except_bind_ok h
    cases h
    exact ⟨‹_›, rfl, mapM_ok_iff.mp hc⟩

/-! ### The loaded blueprint -/

/-- The connection of an entry. -/
def connectionOf (c : Value α) : BlueprintConnection :=
  ⟨(c.integer "src" (-1)).toNat, sizeOfLong (c.integer "out" 0), (c.integer "dst" (-1)).toNat,
    sizeOfLong (c.integer "in" 0)⟩

/-- The modulation of an entry. -/
def modulationOf (m : Value α) : ParamConnection :=
  ⟨(m.integer "src" (-1)).toNat, sizeOfLong (m.integer "out" 0), (m.integer "dst" (-1)).toNat,
    sizeOfLong (m.integer "param" 0)⟩

/-- What a blueprint loaded from a document has of it. -/
structure LoadedFrom (reg : NodeRegistry α) (root : Value α) (bp : GraphBlueprint α) : Prop where
  size : bp.size = (nodeEntries root).length
  node : ∀ i, bp.nodes[i]? = nodeOfEntry reg root i
  names : bp.names = (nodeEntries root).map fun jn => jn.text "name"
  wired : bp.Wired
  connections : bp.connections = (entriesAt root "connections").map connectionOf
  modulations : bp.paramConnections = (entriesAt root "modulations").map modulationOf
  params : bp.params = []
  inputs : List.Forall₂ (fun t term => loadTerminal bp.size "input_terminals" t = .ok term)
    (entriesAt root "input_terminals") bp.inputTerminals
  outputs : List.Forall₂ (fun t term => loadTerminal bp.size "output_terminals" t = .ok term)
    (entriesAt root "output_terminals") bp.outputTerminals
  inputNode : bp.inputNode = root.integer "input_node" (-1)
  outputNode : bp.outputNode = root.integer "output_node" (-1)

theorem loadConnections_ok : ∀ {l : List (Value α)} {bp bp' : GraphBlueprint α},
    l.foldlM loadConnection bp = .ok bp' → bp.Wired →
      bp' = { bp with connections := bp.connections ++ l.map connectionOf } ∧ bp'.Wired
  | [], bp, bp', h, wired => by
      obtain rfl := Except.ok.inj h
      exact ⟨by rw [List.map_nil, List.append_nil], wired⟩
  | c :: l, bp, bp', h, wired => by
      obtain ⟨bp₁, one, more⟩ := except_bind_ok h
      obtain ⟨s, d, hs, hd, one⟩ := loadConnection_ok one
      have wired₁ := wired.connect one
      obtain ⟨-, rfl⟩ := GraphBlueprint.connect_eq_some.mp one
      obtain ⟨rfl, wired'⟩ := loadConnections_ok more wired₁
      refine ⟨?_, wired'⟩
      have own : connectionOf c = ⟨s, sizeOfLong (c.integer "out" 0), d,
          sizeOfLong (c.integer "in" 0)⟩ := by
        rw [connectionOf, (validIndex_eq_some.mp hs).2.1, (validIndex_eq_some.mp hd).2.1]
      rw [List.map_cons, own, List.append_assoc]
      rfl

theorem loadModulations_ok : ∀ {l : List (Value α)} {bp bp' : GraphBlueprint α},
    l.foldlM loadModulation bp = .ok bp' → bp.Wired →
      bp' = { bp with paramConnections := bp.paramConnections ++ l.map modulationOf } ∧ bp'.Wired
  | [], bp, bp', h, wired => by
      obtain rfl := Except.ok.inj h
      exact ⟨by rw [List.map_nil, List.append_nil], wired⟩
  | m :: l, bp, bp', h, wired => by
      obtain ⟨bp₁, one, more⟩ := except_bind_ok h
      obtain ⟨s, d, hs, hd, one⟩ := loadModulation_ok one
      have wired₁ := wired.connectParam one
      obtain ⟨-, rfl⟩ := GraphBlueprint.connectParam_eq_some.mp one
      obtain ⟨rfl, wired'⟩ := loadModulations_ok more wired₁
      refine ⟨?_, wired'⟩
      have own : modulationOf m = ⟨s, sizeOfLong (m.integer "out" 0), d,
          sizeOfLong (m.integer "param" 0)⟩ := by
        rw [modulationOf, (validIndex_eq_some.mp hs).2.1, (validIndex_eq_some.mp hd).2.1]
      rw [List.map_cons, own, List.append_assoc]
      rfl

theorem loadDocument_ok (h : loadDocument reg root = .ok (bp, name)) :
    LoadedFrom reg root bp ∧ name = root.text "name" := by
  rw [loadDocument] at h
  split_ifs at h
  dsimp only at h
  split_ifs at h
  cases hn : (root.find "nodes").bind Value.elements? with
  | none => rw [hn] at h; cases h
  | some entries =>
      rw [hn] at h
      obtain ⟨nodes, hnodes, h⟩ := except_bind_ok h
      obtain ⟨bp₁, hconn, h⟩ := except_bind_ok h
      obtain ⟨bp₂, hmod, h⟩ := except_bind_ok h
      obtain ⟨inputs, hin, h⟩ := except_bind_ok h
      obtain ⟨outputs, hout, h⟩ := except_bind_ok h
      cases h
      have made := mapM_ok_iff.mp hnodes
      have hentries : nodeEntries root = entries := by rw [nodeEntries, entriesAt, hn]; rfl
      obtain ⟨rfl, wired₁⟩ := loadConnections_ok hconn (.bare rfl rfl)
      obtain ⟨rfl, wired⟩ := loadModulations_ok hmod wired₁
      refine ⟨?_, rfl⟩
      exact
        { size := by
            rw [hentries, made.length_eq]
            exact List.length_map ..
          node := fun i => by
            rw [nodeOfEntry, hentries]
            exact getElem?_of_made made i
          names := by
            rw [hentries]
            exact names_of_made made
          wired := ⟨wired.audio, wired.oneDriver, wired.modulation, wired.oneModulator⟩
          connections := List.nil_append _
          modulations := List.nil_append _
          params := rfl
          inputs := mapM_ok_iff.mp hin
          outputs := mapM_ok_iff.mp hout
          inputNode := rfl
          outputNode := rfl }

/-! ### Well-formed blueprints -/

theorem channel_in_range_iff (from_ : LoadedFrom reg root bp) {key : String} {c : Value α}
    {s : TerminalSource} (h : loadChannel bp.size key c = .ok s) :
    ChannelInRange reg root c ↔
      (s.silent = false → s.node < bp.size ∧ s.ch < bp.outputsOf s.node) := by
  rcases loadChannel_ok h with ⟨silent, rfl⟩ | ⟨audible, hs, node, ch⟩
  · exact ⟨fun _ h => (nomatch h), fun _ h => absurd (silent.symm.trans h) (by decide)⟩
  · obtain ⟨-, -, hlt⟩ := validIndex_eq_some.mp node
    have made := from_.node s.node
    obtain ⟨nd, hnd⟩ : ∃ nd, bp.nodes[s.node]? = some nd := ⟨_, List.getElem?_eq_getElem hlt⟩
    have outs : bp.outputsOf s.node = nd.outputsCount := by rw [GraphBlueprint.outputsOf, hnd]; rfl
    constructor
    · intro inRange _
      exact ⟨hlt, outs ▸ ch ▸ inRange audible s.node (from_.size ▸ node) nd (made ▸ hnd)⟩
    · intro ok _ i hi nd' hnd'
      obtain rfl : s.node = i := Option.some.inj (node.symm.trans (from_.size ▸ hi))
      obtain rfl : nd = nd' := Option.some.inj (hnd.symm.trans (made.trans hnd'))
      exact ch ▸ outs ▸ (ok hs).2

theorem terminals_exist_iff (from_ : LoadedFrom reg root bp) {key : String} {ts : List Terminal}
    (h : List.Forall₂ (fun t term => loadTerminal bp.size key t = .ok term) (entriesAt root key)
      ts) :
    bp.TerminalsExist ts ↔
      ∀ t ∈ entriesAt root key, ∀ c ∈ entriesAt t "channels", ChannelInRange reg root c := by
  have channels := forall_mem_iff_of_forall₂ (Q := fun term : Terminal => ∀ s ∈ term.channels,
    s.silent = false → s.node < bp.size ∧ s.ch < bp.outputsOf s.node) (fun t term one =>
      forall_mem_iff_of_forall₂ (fun c s hc => channel_in_range_iff from_ hc)
        (loadTerminal_ok one).2.2) h
  have exist := (forall_mem_iff_of_forall₂ (P := fun _ => True)
    (Q := fun term : Terminal => term.node < bp.size) (fun t term one =>
      iff_of_true trivial (validIndex_eq_some.mp (loadTerminal_ok one).1).2.2) h).mp
    fun _ _ => trivial
  exact ⟨fun ok => channels.mpr ok.channel, fun ok => ⟨exist, channels.mp ok⟩⟩

theorem LoadedFrom.wellFormed_iff (from_ : LoadedFrom reg root bp) :
    bp.WellFormed ↔ SafeDocument reg root := by
  have inputs := terminals_exist_iff from_ from_.inputs
  have outputs := terminals_exist_iff from_ from_.outputs
  have inputNode : bp.NodeOrNone bp.inputNode ↔ NodeFieldInRange root "input_node" := by
    rw [GraphBlueprint.NodeOrNone, NodeFieldInRange, from_.inputNode, from_.size]
  have outputNode : bp.NodeOrNone bp.outputNode ↔ NodeFieldInRange root "output_node" := by
    rw [GraphBlueprint.NodeOrNone, NodeFieldInRange, from_.outputNode, from_.size]
  constructor
  · intro ok
    exact ⟨inputs.mp ok.inputs, outputs.mp ok.outputs, inputNode.mp ok.inputNode,
      outputNode.mp ok.outputNode⟩
  · intro safe
    exact ⟨from_.wired, inputs.mpr safe.inputs, outputs.mpr safe.outputs,
      inputNode.mpr safe.inputNode, outputNode.mpr safe.outputNode⟩

/-- **A loaded blueprint is well formed exactly when its document is safe**: every channel that
is not silent names an output of its node, and the input and output node are `-1` or exist. -/
theorem loaded_wellFormed_iff [CNumber α] [Trig α] {text : List Char}
    (h : fromJson standardRegistry text = .ok (bp, name)) :
    ∃ root : Value α, parse text = .ok root ∧ (bp.WellFormed ↔ SafeDocument standardRegistry root) := by
  obtain ⟨root, parsed, h⟩ := except_bind_ok h
  exact ⟨root, parsed, (loadDocument_ok h).1.wellFormed_iff⟩

/-- One oscillator, heard on the channel `ch` it may not have. -/
def heardOn (ch : Nat) : Value ℝ :=
  .object [("xrune", .number 1), ("nodes", .array [.object [("type", .string "sine")]]),
    ("output_terminals", .array [.object [("name", .string "out"), ("node", .number 0),
      ("channels", .array [.object [("node", .number 0), ("ch", .number (ch : ℝ))]])]])]

/-- What the loader makes of it. -/
noncomputable def heardOnBlueprint (ch : Nat) : GraphBlueprint ℝ where
  nodes := [Nodes.oscillator (Sample.cast 440)]
  names := [""]
  outputTerminals := [⟨"out", 0, [⟨0, ch, false⟩]⟩]

theorem toLong_int {k : Int} (lo : -2 ^ 63 ≤ k) (hi : k < 2 ^ 63) :
    Value.toLong (k : ℝ) = k := by
  rw [Value.toLong, llround_int, Int.bmod_eq_of_le (by omega) (by omega)]

theorem parse_heardOn (ch : Nat) : parse (dump (heardOn ch) 0) = .ok (heardOn ch) := by
  have one : ReadsBack (1 : ℝ) := by exact_mod_cast readsBack_int 1
  have zero : ReadsBack (0 : ℝ) := by exact_mod_cast readsBack_int 0
  have own : ReadsBack (ch : ℝ) := by exact_mod_cast readsBack_int ch
  exact parse_dump (by simp [heardOn, Value.Readable, one, zero, own]) 0

theorem load_heardOn {ch : Nat} (hch : ch < 2 ^ 63) :
    loadDocument standardRegistry (heardOn ch) = .ok (heardOnBlueprint ch, "") := by
  have one : Value.toLong (1 : ℝ) = 1 := by exact_mod_cast toLong_int (k := 1) (by decide) (by decide)
  have zero : Value.toLong (0 : ℝ) = 0 := by exact_mod_cast toLong_int (k := 0) (by decide) (by decide)
  have own : Value.toLong (ch : ℝ) = ch := by
    exact_mod_cast toLong_int (k := ch) (by omega) (by omega)
  rw [loadDocument]
  have channel : sizeOfLong (ch : Int) = ch := by rw [sizeOfLong]; omega
  have node : loadNode standardRegistry (.object [("type", .string "sine")] : Value ℝ)
      = .ok (Nodes.oscillator (Sample.cast 440), "") := rfl
  have silent : isSilent (.object [("node", .number 0), ("ch", .number (ch : ℝ))]) = false := rfl
  simp [heardOn, heardOnBlueprint, Value.members?, Value.integer, Value.find,
    Value.elements?, Value.text, one, node, entriesAt, loadTerminals, loadTerminal, loadChannel, zero,
    own, channel, GraphBlueprint.size, silent]
  rfl

theorem fromJson_heardOn {ch : Nat} (hch : ch < 2 ^ 63) :
    fromJson standardRegistry (dump (heardOn ch) 0) = .ok (heardOnBlueprint ch, "") := by
  rw [fromJson, parse_heardOn]
  exact load_heardOn hch

/-- A document with one oscillator, heard on its channel. -/
theorem heardOn_wellFormed : ∃ root : Value ℝ, parse (dump (heardOn 0) 0) = .ok root ∧
    ((heardOnBlueprint 0).WellFormed ↔ SafeDocument standardRegistry root) :=
  loaded_wellFormed_iff (fromJson_heardOn (by decide))

/-- An oscillator has one channel; the tenth is loaded all the same. -/
theorem loads_stray_channel : ¬∀ (text : List Char) (bp : GraphBlueprint ℝ) (name : String),
    fromJson standardRegistry text = .ok (bp, name) → bp.WellFormed := by
  intro claimed
  have ok := claimed _ _ _ (@fromJson_heardOn 9 (by decide))
  have heard := ok.outputs.channel ⟨"out", 0, [⟨0, 9, false⟩]⟩ List.mem_cons_self ⟨0, 9, false⟩
    List.mem_cons_self rfl
  exact absurd heard.2 (by decide)

end Xrune
