import Xrune.Lang.Sound
import Xrune.Serialize.Loaded
import Xrune.Serialize.Write

/-!
# Serialize — saved blueprints

A blueprint that was written is read back the same as far as a sample holds its numbers: the
indices and counts go through `double` (`reloads_iff`).  Whatever a channel that is silent names
is not written, and the rune parameters are not either.
-/

namespace Xrune

open Json Lang

variable {α : Type} [Sample α]

/-! ### Nodes -/

/-- The arguments of a node as they are read back. -/
def Node.savedArgs (nd : Node α) : NodeArgs α := ⟨nd.args.filterMap argOfValue, []⟩

theorem argsOfEntry_nodeValue (i : Nat) (nd : Node α) (name : String) :
    argsOfEntry (nodeValue i nd name) = nd.savedArgs := by
  have find : ((nodeValue i nd name).find "args").bind Value.members? =
      if nd.args.isEmpty then none else some nd.args := by
    unfold nodeValue
    split_ifs <;> rfl
  rw [argsOfEntry, find, Node.savedArgs]
  split_ifs with none
  · rw [List.isEmpty_iff.mp none]
    rfl
  · rfl

variable (α) in
/-- What a count is read back as. -/
def countBack (k : Nat) : Nat := Sample.toSize (Sample.cast k + Sample.ratio 1 2 : α)

/-- A count of the configuration, of a node without ports. -/
theorem count_saved (nonneg : ∀ k, Sample.lt (Sample.cast k : α) 0 = false) {nd : Node α}
    {key : String} {k : Nat} (ports : nd.params = [])
    (found : ((nd.configArgs.take 8).find? fun c => c.1 == key).map Prod.snd = some k) (pos default : Nat) :
    nd.savedArgs.count key pos default = countBack α k := by
  have args : nd.args.filterMap argOfValue =
      (nd.configArgs.take 8).map fun c => (c.1, .number (Sample.cast c.2)) := by
    rw [Node.args, ports, List.mapIdx_nil, List.append_nil, List.filterMap_map]
    exact congrFun (List.filterMap_eq_map
      (f := fun c : String × Nat => ((c.1, .number (Sample.cast c.2)) : String × ArgValue α))) _
  have named : nd.savedArgs.findNamed key = some (.number (Sample.cast k)) := by
    rw [NodeArgs.findNamed, Node.savedArgs, args, List.find?_map, Option.map_map]
    obtain ⟨c, hc, rfl⟩ := Option.map_eq_some_iff.mp found
    exact congrArg (Option.map _) hc
  have value : nd.savedArgs.num key pos (Sample.cast default) = Sample.cast k := by
    rw [NodeArgs.num, named]
    rfl
  rw [NodeArgs.count, value]
  exact if_neg (by rw [nonneg]; decide)

/-- The node a factory makes of what was written of one it made. -/
theorem make_saved [Trig α] (nonneg : ∀ k, Sample.lt (Sample.cast k : α) 0 = false) {nd : Node α}
    (made : standardRegistry.Makes nd) :
    ∃ nd', standardRegistry.make nd.typeName nd.savedArgs = some nd' ∧
      nd'.configArgs = nd.configArgs.map (fun c => (c.1, countBack α c.2)) ∧
      ((∀ c ∈ nd.configArgs, countBack α c.2 = c.2) → nd' = nd) := by
  obtain ⟨name, args, h⟩ := made
  obtain ⟨e, he, -, hm⟩ := NodeRegistry.make_eq_some h
  simp only [standardRegistry, List.mem_cons, List.not_mem_nil, or_false] at he
  rcases he with rfl | rfl | rfl | rfl | rfl | rfl | rfl | rfl | rfl | rfl | rfl | rfl | rfl | rfl |
    rfl | rfl | rfl | rfl | rfl | rfl | rfl | rfl | rfl | rfl | rfl | rfl <;>
    obtain rfl := Option.some.inj hm
  all_goals first
    | exact ⟨_, rfl, rfl, fun _ => rfl⟩
    | skip
  · -- mix
    generalize args.count "inputs" 0 2 = k
    have inputs : (Nodes.mixer k).savedArgs.count "inputs" 0 2 = countBack α k :=
      count_saved nonneg rfl rfl 0 2
    refine ⟨_, congrArg (some <| Nodes.mixer ·) inputs, rfl, fun exact => ?_⟩
    rw [exact _ List.mem_cons_self]
  · -- smix
    generalize args.count "inputs" 0 2 = k
    have inputs : (Nodes.stereoMixer k).savedArgs.count "inputs" 0 2 = countBack α k :=
      count_saved nonneg rfl rfl 0 2
    refine ⟨_, congrArg (some <| Nodes.stereoMixer ·) inputs, rfl, fun exact => ?_⟩
    rw [exact _ List.mem_cons_self]
  · -- adapt
    generalize args.count "inputs" 0 1 = k, args.count "outputs" 1 1 = l
    have inputs : (Nodes.channelAdapter k l).savedArgs.count "inputs" 0 1 = countBack α k :=
      count_saved nonneg rfl rfl 0 1
    have outputs : (Nodes.channelAdapter k l).savedArgs.count "outputs" 1 1 = countBack α l :=
      count_saved nonneg rfl rfl 1 1
    refine ⟨_, congrArg₂ (some <| Nodes.channelAdapter · ·) inputs outputs, rfl, fun exact => ?_⟩
    rw [exact _ List.mem_cons_self, exact _ (.tail _ List.mem_cons_self)]
  · -- bus
    generalize args.count "channels" 0 2 = k
    have channels : (Nodes.busInput k).savedArgs.count "channels" 0 2 = countBack α k :=
      count_saved nonneg rfl rfl 0 2
    refine ⟨_, congrArg (some <| Nodes.busInput ·) channels, rfl, fun exact => ?_⟩
    rw [exact _ List.mem_cons_self]
  · -- stft
    generalize args.count "size" 0 1024 = k
    have size : (Nodes.olaStft k).savedArgs.count "size" 0 1024 = countBack α k :=
      count_saved nonneg rfl rfl 0 1024
    refine ⟨_, congrArg (some <| Nodes.olaStft ·) size, rfl, fun exact => ?_⟩
    rw [exact _ List.mem_cons_self]
  · -- stft_fwd
    generalize args.count "size" 0 1024 = k, args.count "channels" 1 1 = l
    have size : (Nodes.stftForward k l).savedArgs.count "size" 0 1024 = countBack α k :=
      count_saved nonneg rfl rfl 0 1024
    have channels : (Nodes.stftForward k l).savedArgs.count "channels" 1 1 = countBack α l :=
      count_saved nonneg rfl rfl 1 1
    refine ⟨_, congrArg₂ (some <| Nodes.stftForward · ·) size channels, rfl, fun exact => ?_⟩
    rw [exact _ List.mem_cons_self, exact _ (.tail _ List.mem_cons_self)]
  · -- stft_bwd
    generalize args.count "size" 0 1024 = k, args.count "channels" 1 1 = l
    have size : (Nodes.stftBackward k l).savedArgs.count "size" 0 1024 = countBack α k :=
      count_saved nonneg rfl rfl 0 1024
    have channels : (Nodes.stftBackward k l).savedArgs.count "channels" 1 1 = countBack α l :=
      count_saved nonneg rfl rfl 1 1
    refine ⟨_, congrArg₂ (some <| Nodes.stftBackward · ·) size channels, rfl, fun exact => ?_⟩
    rw [exact _ List.mem_cons_self, exact _ (.tail _ List.mem_cons_self)]

/-! ### What is the same -/

/-- The nodes have the same type, configuration, channels, ports and defaults. -/
structure Node.Same (nd nd' : Node α) : Prop where
  type : nd'.typeName = nd.typeName
  config : nd'.configArgs = nd.configArgs
  inputs : nd'.inputsCount = nd.inputsCount
  outputs : nd'.outputsCount = nd.outputsCount
  ports : nd'.params = nd.params
  defaults : nd'.paramDefault = nd.paramDefault

/-- The terminals are the same, up to what their silent channels name. -/
structure Terminal.Same (t t' : Terminal) : Prop where
  name : t'.name = t.name
  node : t'.node = t.node
  channels : List.Forall₂ (fun c c' : TerminalSource =>
    c'.silent = c.silent ∧ (c.silent = false → c' = c)) t.channels t'.channels

/-- The blueprints are the same, but for the parameters of the rune. -/
structure GraphBlueprint.Same (bp bp' : GraphBlueprint α) : Prop where
  nodes : List.Forall₂ Node.Same bp.nodes bp'.nodes
  names : bp'.names = bp.names
  connections : bp'.connections = bp.connections
  modulations : bp'.paramConnections = bp.paramConnections
  inputs : List.Forall₂ Terminal.Same bp.inputTerminals bp'.inputTerminals
  outputs : List.Forall₂ Terminal.Same bp.outputTerminals bp'.outputTerminals
  inputNode : bp'.inputNode = bp.inputNode
  outputNode : bp'.outputNode = bp.outputNode

theorem nodeValue_same {nd nd' : Node α} (h : nd.Same nd') (i : Nat) (name : String) :
    nodeValue i nd' name = nodeValue i nd name := by
  have args : nd'.args = nd.args := by
    rw [Node.args, Node.args, h.config, h.ports, h.defaults]
  rw [nodeValue, nodeValue, h.type, args]

omit [Sample α] in
theorem map_eq_of_forall₂ {β γ δ : Type} {R : β → γ → Prop} {f : β → δ} {g : γ → δ}
    (agree : ∀ x y, R x y → g y = f x) {l : List β} {l' : List γ} (h : List.Forall₂ R l l') :
    l'.map g = l.map f := by
  induction h with
  | nil => rfl
  | cons one _ ih => rw [List.map_cons, List.map_cons, agree _ _ one, ih]

theorem channelValue_same {c c' : TerminalSource}
    (h : c'.silent = c.silent ∧ (c.silent = false → c' = c)) :
    channelValue (α := α) c' = channelValue c := by
  by_cases silent : c.silent = true
  · rw [channelValue, channelValue, if_pos silent, if_pos (h.1.trans silent)]
  · rw [h.2 (Bool.eq_false_iff.mpr silent)]

theorem terminalValue_same {t t' : Terminal} (h : t.Same t') :
    terminalValue (α := α) t' = terminalValue t := by
  have channels : t'.channels.map channelValue = t.channels.map (channelValue (α := α)) :=
    map_eq_of_forall₂ (f := channelValue) (g := channelValue) (fun _ _ => channelValue_same)
      h.channels
  have empty : t'.channels.isEmpty = t.channels.isEmpty := by
    rw [Bool.eq_iff_iff, List.isEmpty_iff_length_eq_zero, List.isEmpty_iff_length_eq_zero,
      h.channels.length_eq]
  rw [terminalValue, terminalValue, h.name, h.node, channels, empty]

/-- What is written is the same. -/
theorem toJsonValue_same {bp bp' : GraphBlueprint α} (h : bp.Same bp') (name : String) :
    toJsonValue bp' name = toJsonValue bp name := by
  have nodes : (bp'.nodes.mapIdx fun i nd => nodeValue i nd (bp'.names.getD i "")) =
      bp.nodes.mapIdx fun i nd => nodeValue i nd (bp.names.getD i "") := by
    rw [h.names]
    refine List.ext_getElem ?_ fun i hi hi' => ?_
    · rw [List.length_mapIdx, List.length_mapIdx, h.nodes.length_eq]
    · rw [List.getElem_mapIdx, List.getElem_mapIdx]
      exact nodeValue_same (h.nodes.get _ _) i _
  have terminals {ts ts' : List Terminal} (same : List.Forall₂ Terminal.Same ts ts') :
      ts'.map (terminalValue (α := α)) = ts.map terminalValue :=
    map_eq_of_forall₂ (f := terminalValue) (g := terminalValue) (fun _ _ => terminalValue_same) same
  rw [toJsonValue, toJsonValue, nodes, h.connections, h.modulations, terminals h.inputs,
    terminals h.outputs, h.inputNode, h.outputNode]

/-! ### What is read -/

variable (α) in
/-- An index that is read back as it was written. -/
def IndexExact (k : Nat) : Prop := Value.toLong (Sample.cast k : α) = k

variable (α) in
/-- A channel or a port that is read back as it was written. -/
def PortExact (k : Nat) : Prop := sizeOfLong (Value.toLong (Sample.cast k : α)) = k

variable (α) in
structure TerminalExact (t : Terminal) : Prop where
  node : IndexExact α t.node
  channels : ∀ c ∈ t.channels, c.silent = false → IndexExact α c.node ∧ PortExact α c.ch

/-- A sample holds every count, every index and every port of the blueprint. -/
structure GraphBlueprint.Exact (bp : GraphBlueprint α) : Prop where
  counts : ∀ nd ∈ bp.nodes, ∀ c ∈ nd.configArgs, countBack α c.2 = c.2
  connections : ∀ c ∈ bp.connections, (IndexExact α c.srcNode ∧ PortExact α c.srcOutput) ∧
    IndexExact α c.dstNode ∧ PortExact α c.dstInput
  modulations : ∀ c ∈ bp.paramConnections, (IndexExact α c.srcNode ∧ PortExact α c.srcOutput) ∧
    IndexExact α c.dstNode ∧ PortExact α c.dstParam
  inputs : ∀ t ∈ bp.inputTerminals, TerminalExact α t
  outputs : ∀ t ∈ bp.outputTerminals, TerminalExact α t
  inputNode : Value.toLong (ofLong bp.inputNode : α) = bp.inputNode
  outputNode : Value.toLong (ofLong bp.outputNode : α) = bp.outputNode

/-- What every sample has of a double. -/
structure Doubles (α : Type) [Sample α] [CNumber α] : Prop where
  reads : ∀ n : α, CNumber.isFinite n = true → ReadsBack n
  finite : ∀ k, CNumber.isFinite (Sample.cast k : α) = true
  finiteNeg : ∀ k, CNumber.isFinite (-Sample.cast k : α) = true
  nonneg : ∀ k, Sample.lt (Sample.cast k : α) 0 = false
  small : ∀ k ≤ 1, Value.toLong (Sample.cast k : α) = k

/-- The terminals name nodes that exist, and so does every channel that is not silent. -/
def GraphBlueprint.TerminalsKnown (bp : GraphBlueprint α) (ts : List Terminal) : Prop :=
  ∀ t ∈ ts, t.node < bp.size ∧ ∀ c ∈ t.channels, c.silent = false → c.node < bp.size

omit [Sample α] in
theorem known_of_exist {bp : GraphBlueprint α} {ts : List Terminal} (exist : bp.TerminalsExist ts) :
    bp.TerminalsKnown ts := fun t ht =>
  ⟨exist.node t ht, fun c hc heard => (exist.channel t ht c hc heard).1⟩

/-- A blueprint of the registry's nodes, with connections that `connect` accepts and terminals
that name its nodes. -/
structure GraphBlueprint.Savable [CNumber α] [Trig α] (bp : GraphBlueprint α) : Prop where
  made : ∀ nd ∈ bp.nodes, standardRegistry.Makes nd
  finite : ∀ nd ∈ bp.nodes, ∀ p < nd.params.length, CNumber.isFinite (nd.paramDefault p) = true
  names : bp.names.length = bp.nodes.length
  wired : bp.Wired
  inputs : bp.TerminalsKnown bp.inputTerminals
  outputs : bp.TerminalsKnown bp.outputTerminals

/-- The members of the document a blueprint is written to. -/
structure Document (bp : GraphBlueprint α) (name : String) (root : Json.Value α) : Prop where
  object : root.members?.isNone = false
  version : root.integer "xrune" 0 = Value.toLong (Sample.cast 1 : α)
  name : root.text "name" = name
  nodes : (root.find "nodes").bind Value.elements? =
    some (bp.nodes.mapIdx fun i nd => nodeValue i nd (bp.names.getD i ""))
  connections : entriesAt root "connections" = bp.connections.map connectionValue
  modulations : entriesAt root "modulations" = bp.paramConnections.map modulationValue
  inputs : entriesAt root "input_terminals" = bp.inputTerminals.map terminalValue
  outputs : entriesAt root "output_terminals" = bp.outputTerminals.map terminalValue
  inputNode : root.integer "input_node" (-1) = Value.toLong (ofLong bp.inputNode : α)
  outputNode : root.integer "output_node" (-1) = Value.toLong (ofLong bp.outputNode : α)

theorem document_toJsonValue (bp : GraphBlueprint α) (name : String) :
    Document bp name (toJsonValue bp name) := by
  rw [toJsonValue]
  by_cases unnamed : name = ""
  · subst unnamed
    exact ⟨rfl, rfl, rfl, rfl, rfl, rfl, rfl, rfl, rfl, rfl⟩
  · rw [if_neg unnamed]
    exact ⟨rfl, rfl, rfl, rfl, rfl, rfl, rfl, rfl, rfl, rfl⟩

section Reading

variable [CNumber α]

/-- Every number that is written is finite. -/
theorem finite_toJsonValue (D : Doubles α) {bp : GraphBlueprint α}
    (finite : ∀ nd ∈ bp.nodes, ∀ p < nd.params.length,
      CNumber.isFinite (nd.paramDefault p) = true) (name : String) :
    (toJsonValue bp name).All fun n => CNumber.isFinite n = true := by
  have size (k : Nat) : (sizeValue k : Json.Value α).All fun n => CNumber.isFinite n = true :=
    .number (D.finite k)
  have long (i : Int) : CNumber.isFinite (ofLong i : α) = true := by
    rw [ofLong]
    split_ifs
    · exact D.finite _
    · exact D.finiteNeg _
  have node : ∀ nd ∈ bp.nodes, ∀ i nm, (nodeValue i nd nm).All fun n => CNumber.isFinite n = true := by
    intro nd hnd i nm
    have args : ∀ key v, (key, v) ∈ nd.args → v.All fun n => CNumber.isFinite n = true := by
      intro key v hv
      rcases List.mem_append.mp hv with hv | hv
      · obtain ⟨c, -, pair⟩ := List.mem_map.mp hv
        exact (Prod.mk.inj pair).2 ▸ size c.2
      · obtain ⟨p, hp, pair⟩ := List.mem_mapIdx.mp hv
        exact (Prod.mk.inj pair).2 ▸ .number (finite nd hnd p hp)
    rw [nodeValue]
    split_ifs <;> simp [size] <;> exact args
  have channel (c : TerminalSource) :
      (channelValue c : Json.Value α).All fun n => CNumber.isFinite n = true := by
    rw [channelValue]
    split_ifs <;> simp [size]
  have terminal (t : Terminal) :
      (terminalValue t : Json.Value α).All fun n => CNumber.isFinite n = true := by
    rw [terminalValue]
    split_ifs <;> simp [size, channel]
  rw [toJsonValue]
  split_ifs <;> simp [size, long, terminal, connectionValue, modulationValue] <;>
  · rintro v i hi rfl
    exact node _ (List.getElem_mem hi) i _

theorem parse_toJson (D : Doubles α) {bp : GraphBlueprint α}
    (finite : ∀ nd ∈ bp.nodes, ∀ p < nd.params.length,
      CNumber.isFinite (nd.paramDefault p) = true) (name : String) (indent : Int) :
    Json.parse (toJson bp name indent) = .ok (toJsonValue bp name) :=
  finite_round_trip D.reads (finite_toJsonValue D finite name) indent

end Reading

/-! ### What is loaded -/

theorem loadNode_nodeValue {reg : NodeRegistry α} (named : reg.find "" = none) {nd nd' : Node α}
    (made : reg.make nd.typeName nd.savedArgs = some nd') (i : Nat) (name : String) :
    loadNode reg (nodeValue i nd name) = .ok (nd', name) := by
  have object : (nodeValue i nd name).members?.isNone = false := rfl
  have type : (nodeValue i nd name).text "type" = nd.typeName := rfl
  have text : (nodeValue i nd name).text "name" = name := by
    rw [nodeValue]
    by_cases unnamed : name = ""
    · subst unnamed
      split_ifs <;> rfl
    · rw [if_neg unnamed]
      rfl
  obtain ⟨e, found, -⟩ := Option.bind_eq_some_iff.mp made
  have typed : nd.typeName ≠ "" := by
    intro empty
    rw [empty, named] at found
    cases found
  have has : reg.has nd.typeName = true := by
    rw [NodeRegistry.has, found]
    rfl
  rw [loadNode, object, type, text, argsOfEntry_nodeValue]
  dsimp only
  rw [if_neg Bool.false_ne_true, if_neg typed, has, made]
  rfl

theorem validIndex_exact {count k : Nat} (exact : IndexExact α k) (lt : k < count) :
    validIndex count (Value.toLong (Sample.cast k : α)) = some k := by
  rw [IndexExact] at exact
  rw [exact]
  exact validIndex_eq_some.mpr ⟨Int.natCast_nonneg k, Int.toNat_natCast k, lt⟩

theorem loadConnection_connectionValue (bp : GraphBlueprint α) {c : BlueprintConnection}
    (exact : (IndexExact α c.srcNode ∧ PortExact α c.srcOutput) ∧
      IndexExact α c.dstNode ∧ PortExact α c.dstInput)
    (inRange : c.srcNode < bp.size ∧ c.dstNode < bp.size ∧
      c.srcOutput < bp.outputsOf c.srcNode ∧ c.dstInput < bp.inputsOf c.dstNode)
    (free : ∀ d ∈ bp.connections, ¬(d.dstNode = c.dstNode ∧ d.dstInput = c.dstInput)) :
    loadConnection bp (connectionValue c) =
      .ok { bp with connections := bp.connections ++ [c] } := by
  obtain ⟨⟨src, out⟩, dst, inp⟩ := exact
  obtain ⟨hsrc, hdst, hout, hinp⟩ := inRange
  have made := GraphBlueprint.connect_eq_some.mpr ⟨⟨hsrc, hdst, hout, hinp, free⟩, rfl⟩
  have hs : validIndex bp.size ((connectionValue c : Json.Value α).integer "src" (-1)) =
    some c.srcNode := validIndex_exact src hsrc
  have hd : validIndex bp.size ((connectionValue c : Json.Value α).integer "dst" (-1)) =
    some c.dstNode := validIndex_exact dst hdst
  have ho : sizeOfLong ((connectionValue c : Json.Value α).integer "out" 0) = c.srcOutput := out
  have hi : sizeOfLong ((connectionValue c : Json.Value α).integer "in" 0) = c.dstInput := inp
  rw [loadConnection, hs, hd]
  dsimp only
  rw [ho, hi, made]
  rfl

theorem loadModulation_modulationValue (bp : GraphBlueprint α) {c : ParamConnection}
    (exact : (IndexExact α c.srcNode ∧ PortExact α c.srcOutput) ∧
      IndexExact α c.dstNode ∧ PortExact α c.dstParam)
    (inRange : c.srcNode < bp.size ∧ c.dstNode < bp.size ∧
      c.srcOutput < bp.outputsOf c.srcNode ∧ c.dstParam < bp.paramsOf c.dstNode)
    (free : ∀ d ∈ bp.paramConnections, ¬(d.dstNode = c.dstNode ∧ d.dstParam = c.dstParam)) :
    loadModulation bp (modulationValue c) =
      .ok { bp with paramConnections := bp.paramConnections ++ [c] } := by
  obtain ⟨⟨src, out⟩, dst, port⟩ := exact
  obtain ⟨hsrc, hdst, hout, hport⟩ := inRange
  have made := GraphBlueprint.connectParam_eq_some.mpr ⟨⟨hsrc, hdst, hout, hport, free⟩, rfl⟩
  have hs : validIndex bp.size ((modulationValue c : Json.Value α).integer "src" (-1)) =
    some c.srcNode := validIndex_exact src hsrc
  have hd : validIndex bp.size ((modulationValue c : Json.Value α).integer "dst" (-1)) =
    some c.dstNode := validIndex_exact dst hdst
  have ho : sizeOfLong ((modulationValue c : Json.Value α).integer "out" 0) = c.srcOutput := out
  have hp : sizeOfLong ((modulationValue c : Json.Value α).integer "param" 0) = c.dstParam := port
  rw [loadModulation, hs, hd]
  dsimp only
  rw [ho, hp, made]
  rfl

/-- The connections are made again one by one. -/
theorem loadConnections_exact (bp : GraphBlueprint α) : ∀ (l₁ : List BlueprintConnection) {l},
    (∀ c ∈ l, (IndexExact α c.srcNode ∧ PortExact α c.srcOutput) ∧
      IndexExact α c.dstNode ∧ PortExact α c.dstInput) →
    (∀ c ∈ l, c.srcNode < bp.size ∧ c.dstNode < bp.size ∧
      c.srcOutput < bp.outputsOf c.srcNode ∧ c.dstInput < bp.inputsOf c.dstNode) →
    (l₁ ++ l).Pairwise (fun c d => ¬(c.dstNode = d.dstNode ∧ c.dstInput = d.dstInput)) →
    (l.map connectionValue).foldlM loadConnection { bp with connections := l₁ } =
      .ok { bp with connections := l₁ ++ l }
  | l₁, [], _, _, _ => by
      rw [List.append_nil]
      rfl
  | l₁, c :: l, exact, inRange, one => by
      have free : ∀ d ∈ l₁, ¬(d.dstNode = c.dstNode ∧ d.dstInput = c.dstInput) := fun d hd =>
        (List.pairwise_append.mp one).2.2 d hd c List.mem_cons_self
      have first := loadConnection_connectionValue { bp with connections := l₁ }
        (exact c List.mem_cons_self) (inRange c List.mem_cons_self) free
      rw [List.map_cons, List.foldlM_cons, first]
      have rest := loadConnections_exact bp (l₁ ++ [c])
        (fun d hd => exact d (.tail _ hd)) (fun d hd => inRange d (.tail _ hd))
        (by rwa [List.append_assoc])
      rw [List.append_assoc] at rest
      exact rest

/-- The modulations are made again one by one. -/
theorem loadModulations_exact (bp : GraphBlueprint α) : ∀ (l₁ : List ParamConnection) {l},
    (∀ c ∈ l, (IndexExact α c.srcNode ∧ PortExact α c.srcOutput) ∧
      IndexExact α c.dstNode ∧ PortExact α c.dstParam) →
    (∀ c ∈ l, c.srcNode < bp.size ∧ c.dstNode < bp.size ∧
      c.srcOutput < bp.outputsOf c.srcNode ∧ c.dstParam < bp.paramsOf c.dstNode) →
    (l₁ ++ l).Pairwise (fun c d => ¬(c.dstNode = d.dstNode ∧ c.dstParam = d.dstParam)) →
    (l.map modulationValue).foldlM loadModulation { bp with paramConnections := l₁ } =
      .ok { bp with paramConnections := l₁ ++ l }
  | l₁, [], _, _, _ => by
      rw [List.append_nil]
      rfl
  | l₁, c :: l, exact, inRange, one => by
      have free : ∀ d ∈ l₁, ¬(d.dstNode = c.dstNode ∧ d.dstParam = c.dstParam) := fun d hd =>
        (List.pairwise_append.mp one).2.2 d hd c List.mem_cons_self
      have first := loadModulation_modulationValue { bp with paramConnections := l₁ }
        (exact c List.mem_cons_self) (inRange c List.mem_cons_self) free
      rw [List.map_cons, List.foldlM_cons, first]
      have rest := loadModulations_exact bp (l₁ ++ [c])
        (fun d hd => exact d (.tail _ hd)) (fun d hd => inRange d (.tail _ hd))
        (by rwa [List.append_assoc])
      rw [List.append_assoc] at rest
      exact rest

/-- A terminal as it is read back: its silent channels name nothing. -/
def Terminal.saved (t : Terminal) : Terminal :=
  { t with channels := t.channels.map fun c => if c.silent then ⟨0, 0, true⟩ else c }

theorem loadChannel_channelValue {count : Nat} {c : TerminalSource}
    (exact : c.silent = false → IndexExact α c.node ∧ PortExact α c.ch)
    (lt : c.silent = false → c.node < count) (key : String) :
    loadChannel count key (channelValue c : Json.Value α) =
      .ok (if c.silent then ⟨0, 0, true⟩ else c) := by
  rw [loadChannel, channelValue]
  by_cases silent : c.silent = true
  · rw [if_pos silent, if_pos silent]
    rfl
  · rw [if_neg silent, if_neg silent]
    have heard := Bool.eq_false_iff.mpr silent
    obtain ⟨node, ch⟩ := exact heard
    have hn : validIndex count ((Json.Value.object [("node", sizeValue c.node),
      ("ch", sizeValue c.ch)] : Json.Value α).integer "node" (-1)) = some c.node :=
        validIndex_exact node (lt heard)
    have hc : sizeOfLong ((Json.Value.object [("node", sizeValue c.node),
      ("ch", sizeValue c.ch)] : Json.Value α).integer "ch" 0) = c.ch := ch
    have own : (⟨c.node, c.ch, false⟩ : TerminalSource) = c := by rw [← heard]
    rw [hn, hc]
    exact congrArg Except.ok own

theorem entriesAt_terminalValue (t : Terminal) :
    entriesAt (terminalValue t : Json.Value α) "channels" = t.channels.map channelValue := by
  rw [entriesAt, terminalValue]
  split_ifs with none
  · rw [List.isEmpty_iff.mp none]
    rfl
  · rfl

theorem loadTerminal_terminalValue {count : Nat} {t : Terminal} (exact : TerminalExact α t)
    (node : t.node < count) (channels : ∀ c ∈ t.channels, c.silent = false → c.node < count)
    (key : String) : loadTerminal count key (terminalValue t : Json.Value α) = .ok t.saved := by
  have hn : validIndex count ((terminalValue t : Json.Value α).integer "node" (-1)) = some t.node :=
    validIndex_exact exact.node node
  have loaded : (t.channels.map channelValue).mapM (loadChannel (α := α) count key) =
      .ok t.saved.channels := by
    refine mapM_ok_iff.mpr ?_
    rw [List.forall₂_map_left_iff]
    refine List.forall₂_map_right_iff.mpr (List.forall₂_same.mpr fun c hc => ?_)
    exact loadChannel_channelValue (exact.channels c hc) (channels c hc) key
  rw [loadTerminal, hn, entriesAt_terminalValue]
  dsimp only
  rw [loaded]
  rfl

theorem loadTerminals_exact {bp : GraphBlueprint α} {ts : List Terminal} {root : Json.Value α}
    {key : String} (entries : entriesAt root key = ts.map terminalValue)
    (exact : ∀ t ∈ ts, TerminalExact α t) (known : bp.TerminalsKnown ts) :
    loadTerminals bp.size root key = .ok (ts.map Terminal.saved) := by
  rw [loadTerminals, entries]
  refine mapM_ok_iff.mpr ?_
  rw [List.forall₂_map_left_iff]
  refine List.forall₂_map_right_iff.mpr (List.forall₂_same.mpr fun t ht => ?_)
  exact loadTerminal_terminalValue (exact t ht) (known t ht).1 (known t ht).2 key

section Saved

variable [CNumber α] [Trig α]

/-- A blueprint as it is read back. -/
def GraphBlueprint.saved (bp : GraphBlueprint α) : GraphBlueprint α :=
  { bp with
    inputTerminals := bp.inputTerminals.map Terminal.saved
    outputTerminals := bp.outputTerminals.map Terminal.saved
    params := [] }

omit [Sample α] [CNumber α] [Trig α] in
theorem saved_same (bp : GraphBlueprint α) : bp.Same bp.saved := by
  have terminals (ts : List Terminal) : List.Forall₂ Terminal.Same ts (ts.map Terminal.saved) := by
    refine List.forall₂_map_right_iff.mpr (List.forall₂_same.mpr fun t _ => ⟨rfl, rfl, ?_⟩)
    refine List.forall₂_map_right_iff.mpr (List.forall₂_same.mpr fun c _ => ?_)
    split_ifs with silent
    · exact ⟨silent.symm, fun heard => absurd (silent.symm.trans heard) (by decide)⟩
    · exact ⟨rfl, fun _ => rfl⟩
  exact
    { nodes := List.forall₂_same.mpr fun _ _ => ⟨rfl, rfl, rfl, rfl, rfl, rfl⟩
      names := rfl
      connections := rfl
      modulations := rfl
      inputs := terminals _
      outputs := terminals _
      inputNode := rfl
      outputNode := rfl }

omit [CNumber α] in
theorem loadNodes_exact (nonneg : ∀ k, Sample.lt (Sample.cast k : α) 0 = false)
    {nodes : List (Node α)} {names : List String} (parallel : names.length = nodes.length)
    (made : ∀ nd ∈ nodes, standardRegistry.Makes nd)
    (exact : ∀ nd ∈ nodes, ∀ c ∈ nd.configArgs, countBack α c.2 = c.2) :
    (nodes.mapIdx fun i nd => nodeValue i nd (names.getD i "")).mapM (loadNode standardRegistry) =
      .ok (nodes.zip names) := by
  refine mapM_ok_iff.mpr (List.forall₂_iff_get.mpr ⟨?_, fun i hi hi' => ?_⟩)
  · rw [List.length_mapIdx, List.length_zip, parallel, Nat.min_self]
  · rw [List.length_mapIdx] at hi
    have mem : nodes[i] ∈ nodes := List.getElem_mem hi
    obtain ⟨nd', hmake, -, same⟩ := make_saved nonneg (made _ mem)
    obtain rfl := same (exact _ mem)
    have name : names.getD i "" = names.get ⟨i, parallel ▸ hi⟩ := List.getD_eq_getElem _ _ _
    simp only [List.get_eq_getElem, List.getElem_mapIdx, List.getElem_zip, name]
    exact loadNode_nodeValue rfl hmake i _

/-- **What was written is read back**, where every number of it is exact. -/
theorem loadDocument_saved (D : Doubles α) {bp : GraphBlueprint α} (S : bp.Savable)
    (exact : bp.Exact) (name : String) :
    loadDocument standardRegistry (toJsonValue bp name) = .ok (bp.saved, name) := by
  have doc := document_toJsonValue bp name
  have nodes := loadNodes_exact D.nonneg S.names S.made exact.counts
  have version : Value.toLong (Sample.cast 1 : α) = 1 := D.small 1 le_rfl
  have fst : (bp.nodes.zip bp.names).map Prod.fst = bp.nodes :=
    List.map_fst_zip (by rw [S.names])
  have snd : (bp.nodes.zip bp.names).map Prod.snd = bp.names :=
    List.map_snd_zip (by rw [S.names])
  let bare : GraphBlueprint α := { nodes := bp.nodes, names := bp.names }
  have connections : (bp.connections.map connectionValue).foldlM loadConnection bare =
      .ok { bare with connections := bp.connections } :=
    loadConnections_exact bare [] exact.connections S.wired.audio S.wired.oneDriver
  have modulations : (bp.paramConnections.map modulationValue).foldlM loadModulation
      { bare with connections := bp.connections } =
      .ok { bare with connections := bp.connections, paramConnections := bp.paramConnections } :=
    loadModulations_exact { bare with connections := bp.connections } []
      exact.modulations S.wired.modulation S.wired.oneModulator
  have size : GraphBlueprint.size { bare with
      connections := bp.connections, paramConnections := bp.paramConnections } = bp.size := rfl
  have inputs : loadTerminals bp.size (toJsonValue bp name) "input_terminals" = _ :=
    loadTerminals_exact doc.inputs exact.inputs S.inputs
  have outputs : loadTerminals bp.size (toJsonValue bp name) "output_terminals" = _ :=
    loadTerminals_exact doc.outputs exact.outputs S.outputs
  rw [loadDocument, doc.object, doc.version, version, doc.nodes, doc.connections,
    doc.modulations, doc.inputNode, doc.outputNode, exact.inputNode, exact.outputNode, doc.name]
  dsimp only
  rw [if_neg Bool.false_ne_true, if_neg (not_not_intro rfl), nodes]
  rw [except_ok_bind, fst, snd, connections, except_ok_bind, modulations, except_ok_bind]
  rw [size, inputs, except_ok_bind, outputs]
  rfl

/-- The blueprint is read back the same, whatever the name and the indent, and written again it
is the same text. -/
def GraphBlueprint.Reloads (bp : GraphBlueprint α) : Prop :=
  ∀ name indent, ∃ bp', fromJson standardRegistry (toJson bp name indent) = .ok (bp', name) ∧
    bp.Same bp' ∧ toJson bp' name indent = toJson bp name indent

theorem Exact.reloads (D : Doubles α) {bp : GraphBlueprint α} (S : bp.Savable)
    (exact : bp.Exact) : bp.Reloads := by
  intro name indent
  refine ⟨bp.saved, ?_, saved_same bp, ?_⟩
  · rw [fromJson, parse_toJson D S.finite]
    exact loadDocument_saved D S exact name
  · rw [toJson, toJson, toJsonValue_same (saved_same bp)]

omit [Trig α] in
theorem indexExact_of_toNat (D : Doubles α) {k : Nat}
    (h : (Value.toLong (Sample.cast k : α)).toNat = k) : IndexExact α k := by
  cases k with
  | zero => exact D.small 0 (Nat.zero_le 1)
  | succ k =>
      rw [IndexExact]
      omega

omit [CNumber α] [Trig α] in
theorem indexExact_of_validIndex {count k : Nat}
    (h : validIndex count (Value.toLong (Sample.cast k : α)) = some k) : IndexExact α k := by
  obtain ⟨nonneg, same, -⟩ := validIndex_eq_some.mp h
  rw [IndexExact]
  omega

/-- A terminal that was read back the same was exact. -/
theorem terminalExact_of_same {count : Nat} {key : String} {t t' : Terminal}
    (h : loadTerminal count key (terminalValue t : Json.Value α) = .ok t') (same : t.Same t') :
    TerminalExact α t := by
  obtain ⟨node, -, channels⟩ := loadTerminal_ok h
  refine ⟨indexExact_of_validIndex (same.node ▸ node), fun c hc heard => ?_⟩
  have entries : entriesAt (terminalValue t : Json.Value α) "channels" =
      t.channels.map channelValue := entriesAt_terminalValue t
  rw [entries, List.forall₂_map_left_iff] at channels
  obtain ⟨i, hi, rfl⟩ := List.mem_iff_getElem.mp hc
  have hi' := same.channels.length_eq ▸ hi
  have loaded := channels.get hi hi'
  have alike := (same.channels.get hi hi').2 heard
  rw [List.get_eq_getElem, List.get_eq_getElem] at loaded alike
  rw [alike, channelValue, if_neg (Bool.eq_false_iff.mp heard)] at loaded
  rcases loadChannel_ok loaded with ⟨silent, -⟩ | ⟨-, -, node, ch⟩
  · cases silent
  · exact ⟨indexExact_of_validIndex node, ch.symm⟩

omit [CNumber α] in
/-- The entry of a node is given to the factory of its type. -/
theorem nodeOfEntry_toJsonValue (bp : GraphBlueprint α) (name : String) {i : Nat}
    (hi : i < bp.nodes.length) : nodeOfEntry standardRegistry (toJsonValue bp name) i =
      standardRegistry.make bp.nodes[i].typeName bp.nodes[i].savedArgs := by
  have entry : (nodeEntries (toJsonValue bp name))[i]? =
      some (nodeValue i bp.nodes[i] (bp.names.getD i "")) := by
    rw [nodeEntries, entriesAt, (document_toJsonValue bp name).nodes, Option.getD_some,
      List.getElem?_mapIdx, List.getElem?_eq_getElem hi]
    rfl
  rw [nodeOfEntry, entry, Option.bind_some, argsOfEntry_nodeValue]
  rfl

theorem Exact.of_loadDocument (D : Doubles α) {bp bp' : GraphBlueprint α} (S : bp.Savable)
    {name : String}
    (h : loadDocument standardRegistry (toJsonValue bp name) = .ok (bp', name))
    (same : bp.Same bp') : bp.Exact := by
  obtain ⟨from_, -⟩ := loadDocument_ok h
  have doc := document_toJsonValue bp name
  have terminals {ts ts' : List Terminal} {key : String}
      (entries : entriesAt (toJsonValue bp name) key = ts.map terminalValue)
      (loaded : List.Forall₂ (fun t term => loadTerminal bp'.size key t = .ok term)
        (entriesAt (toJsonValue bp name) key) ts')
      (alike : List.Forall₂ Terminal.Same ts ts') : ∀ t ∈ ts, TerminalExact α t := by
    rw [entries, List.forall₂_map_left_iff] at loaded
    intro t ht
    obtain ⟨i, hi, rfl⟩ := List.mem_iff_getElem.mp ht
    have hi' := alike.length_eq ▸ hi
    exact terminalExact_of_same (loaded.get hi hi') (alike.get hi hi')
  have connections := from_.connections
  rw [same.connections, doc.connections, List.map_map] at connections
  have modulations := from_.modulations
  rw [same.modulations, doc.modulations, List.map_map] at modulations
  exact
    { counts := by
        intro nd hnd c hc
        obtain ⟨i, hi, rfl⟩ := List.mem_iff_getElem.mp hnd
        obtain ⟨nd', hmake, config, -⟩ := make_saved D.nonneg (S.made _ hnd)
        have hi' := same.nodes.length_eq ▸ hi
        have alike := (same.nodes.get hi hi').config
        have made := from_.node i
        rw [nodeOfEntry_toJsonValue bp name hi] at made
        obtain rfl : bp'.nodes.get ⟨i, hi'⟩ = nd' := by
          refine Option.some.inj ((List.getElem?_eq_getElem hi').symm.trans (made.trans ?_))
          exact hmake
        have kept := List.map_inj_left.mp ((List.map_id _).trans (alike.symm.trans config)) c hc
        exact (congrArg Prod.snd kept).symm
      connections := by
        intro c hc
        have own := List.map_inj_left.mp ((List.map_id _).trans connections) c hc
        exact ⟨⟨indexExact_of_toNat D (congrArg BlueprintConnection.srcNode own).symm,
          (congrArg BlueprintConnection.srcOutput own).symm⟩,
          indexExact_of_toNat D (congrArg BlueprintConnection.dstNode own).symm,
          (congrArg BlueprintConnection.dstInput own).symm⟩
      modulations := by
        intro c hc
        have own := List.map_inj_left.mp ((List.map_id _).trans modulations) c hc
        exact ⟨⟨indexExact_of_toNat D (congrArg ParamConnection.srcNode own).symm,
          (congrArg ParamConnection.srcOutput own).symm⟩,
          indexExact_of_toNat D (congrArg ParamConnection.dstNode own).symm,
          (congrArg ParamConnection.dstParam own).symm⟩
      inputs := terminals doc.inputs from_.inputs same.inputs
      outputs := terminals doc.outputs from_.outputs same.outputs
      inputNode := by rw [← doc.inputNode, ← from_.inputNode, same.inputNode]
      outputNode := by rw [← doc.outputNode, ← from_.outputNode, same.outputNode] }

/-- A blueprint the engine is given: lowered from a program, or built from the registry's nodes
by calls that check, with terminals that name its nodes. -/
inductive Composed : GraphBlueprint α → Prop where
  | lowered {fuel : Nat} {prog : Program α} {res : LowerResult α} {b : LoweredBlueprint α}
      (h : lower fuel prog standardRegistry = some res) (mem : b ∈ res.blueprints) : Composed b.bp
  | built {bp : GraphBlueprint α} (edges : bp.EdgesMade)
      (made : ∀ nd ∈ bp.nodes, standardRegistry.Makes nd)
      (names : bp.names.length = bp.nodes.length) (inputs : bp.TerminalsKnown bp.inputTerminals)
      (outputs : bp.TerminalsKnown bp.outputTerminals) : Composed bp

/-- The defaults of the ports are finite. -/
def GraphBlueprint.FiniteDefaults (bp : GraphBlueprint α) : Prop :=
  ∀ nd ∈ bp.nodes, ∀ p < nd.params.length, CNumber.isFinite (nd.paramDefault p) = true

theorem Composed.savable {bp : GraphBlueprint α} (composed : Composed bp)
    (finite : bp.FiniteDefaults) : bp.Savable := by
  cases composed with
  | lowered h mem =>
      have lowered := lower_lowered standardRegistry_builtins h _ mem
      have ok := lowered.wellFormed
      exact ⟨lowered.made, finite, lowered.names, ok.wired, known_of_exist ok.inputs,
        known_of_exist ok.outputs⟩
  | built edges made names inputs outputs =>
      exact ⟨made, finite, names, edges.wired, inputs, outputs⟩

theorem exact_of_reloads (D : Doubles α) {bp : GraphBlueprint α} (S : bp.Savable)
    (reloads : bp.Reloads) : bp.Exact := by
  obtain ⟨bp', loaded, same, -⟩ := reloads "" 0
  rw [fromJson, parse_toJson D S.finite] at loaded
  exact Exact.of_loadDocument D S loaded same

/-- **A blueprint is reloaded the same exactly when its numbers are exact**: every index, every
channel and every count of it comes back from a `double`. -/
theorem reloads_iff (D : Doubles α) {bp : GraphBlueprint α} (composed : Composed bp)
    (finite : bp.FiniteDefaults) : bp.Reloads ↔ bp.Exact :=
  have S := composed.savable finite
  ⟨exact_of_reloads D S, Exact.reloads D S⟩

end Saved

/-! ### An index a double does not hold -/

/-- An integer rounded to 53 bits, ties to even. -/
def roundBits (n : Nat) : Nat :=
  if n < 2 ^ 53 then n
  else
    let e := Nat.log2 n - 52
    let q := n / 2 ^ e
    let r := n % 2 ^ e
    if r < 2 ^ (e - 1) ∨ r = 2 ^ (e - 1) ∧ q % 2 = 0 then q * 2 ^ e else (q + 1) * 2 ^ e

/-- Real numbers, where an integer is rounded to 53 bits. -/
def Rounded : Type := ℝ

noncomputable instance : Sample Rounded :=
  { (Sample.exact : Sample ℝ) with cast := fun n => ((roundBits n : Nat) : ℝ) }

noncomputable instance : CNumber Rounded := inferInstanceAs (CNumber ℝ)

noncomputable instance : Trig Rounded := inferInstanceAs (Trig ℝ)

theorem cast_rounded {k : Nat} (lt : k < 2 ^ 53) : (Sample.cast k : Rounded) = (k : ℝ) := by
  show ((roundBits k : Nat) : ℝ) = k
  rw [roundBits, if_pos lt]

theorem numberTo_rounded (n : Rounded) : numberTo n = numberTo (show ℝ from n) := by
  have bound : (Sample.cast (10 ^ 15) : Rounded) = (Sample.cast (10 ^ 15) : ℝ) :=
    cast_rounded (by decide)
  rw [numberTo, bound]
  rfl

theorem rounded_doubles : Doubles Rounded where
  reads n finite := by
    have own : ReadsBack (show ℝ from n) := readsBack_finite finite
    have printed := numberTo_rounded n
    exact ⟨printed ▸ own.starts, fun rest ends => printed ▸ own.reads rest ends⟩
  finite k := by
    have int : ((⌊((roundBits k : Nat) : ℝ)⌋ : Int) : ℝ) = (roundBits k : Nat) := by simp
    exact decide_eq_true int
  finiteNeg k := by
    have int : ((⌊((-(roundBits k : Int) : Int) : ℝ)⌋ : Int) : ℝ) = ((-(roundBits k : Int) : Int) : ℝ) := by
      rw [Int.floor_intCast]
    have neg : ((-(roundBits k : Int) : Int) : ℝ) = -((roundBits k : Nat) : ℝ) := by
      rw [Int.cast_neg, Int.cast_natCast]
    exact decide_eq_true (neg ▸ int)
  nonneg k := decide_eq_false (not_lt.mpr (Nat.cast_nonneg (roundBits k)))
  small k hk := by
    have lt : k < 2 ^ 53 := by omega
    rw [cast_rounded lt]
    exact_mod_cast toLong_int (k := k) (by omega) (by omega)

/-- A constant on the last input of a mixer of `2 ^ 53 + 2`. -/
noncomputable def farInput : GraphBlueprint Rounded where
  nodes := [Nodes.constant 1, Nodes.mixer (2 ^ 53 + 2)]
  names := ["c", "m"]
  connections := [⟨0, 0, 1, 2 ^ 53 + 1⟩]

theorem toSize_rounded (k : Nat) :
    Sample.toSize ((show Rounded from (k : ℝ)) + Sample.ratio 1 2) = k := by
  have half : (Sample.ratio 1 2 : Rounded) = (1 / 2 : ℝ) := by
    show (Sample.cast 1 : Rounded) / (Sample.cast 2 : Rounded) = (1 / 2 : ℝ)
    rw [cast_rounded (by decide), cast_rounded (by decide), Nat.cast_one, Nat.cast_ofNat]
    rfl
  rw [half]
  show ⌊(k : ℝ) + 1 / 2⌋.toNat = k
  have floor : ⌊(k : ℝ) + 1 / 2⌋ = (k : Int) := by
    rw [Int.floor_eq_iff, Int.cast_natCast]
    constructor <;> linarith
  rw [floor, Int.toNat_natCast]

theorem farInput_composed : Composed farInput := by
  have bare : GraphBlueprint.EdgesMade (α := Rounded) { farInput with connections := [] } :=
    .bare rfl rfl
  have one : GraphBlueprint.connect { farInput with connections := [] } 0 0 1 (2 ^ 53 + 1) =
      some farInput :=
    GraphBlueprint.connect_eq_some.mpr ⟨⟨by decide, by decide, by decide,
      Nat.lt_succ_self (2 ^ 53 + 1), nofun⟩, rfl⟩
  refine .built (.connect bare one) ?_ rfl nofun nofun
  intro nd hnd
  simp only [farInput, List.mem_cons, List.not_mem_nil, or_false] at hnd
  rcases hnd with rfl | rfl
  · exact ⟨"constant", {}, rfl⟩
  · let d : Rounded := ((2 ^ 53 + 2 : Nat) : ℝ)
    refine ⟨"mix", ⟨[("inputs", .number d)], []⟩, ?_⟩
    have nonneg : Sample.lt d 0 = false := decide_eq_false (not_lt.mpr (Nat.cast_nonneg _))
    have inputs : NodeArgs.count ⟨[("inputs", .number d)], []⟩ "inputs" 0 2 = 2 ^ 53 + 2 := by
      have value : NodeArgs.num ⟨[("inputs", .number d)], []⟩ "inputs" 0 (Sample.cast 2) = d := rfl
      rw [NodeArgs.count, value, nonneg]
      exact toSize_rounded (2 ^ 53 + 2)
    exact congrArg (some <| Nodes.mixer ·) inputs

theorem farInput_finite : farInput.FiniteDefaults := by
  intro nd hnd p hp
  simp only [farInput, List.mem_cons, List.not_mem_nil, or_false] at hnd
  rcases hnd with rfl | rfl
  · obtain rfl : p = 0 := Nat.lt_one_iff.mp hp
    have int : ((⌊(1 : ℝ)⌋ : Int) : ℝ) = 1 := by simp
    have own : CNumber.isFinite (1 : ℝ) = true := decide_eq_true int
    exact own
  · cases hp

theorem farInput_inexact : ¬farInput.Exact := by
  intro exact
  have port : PortExact Rounded (2 ^ 53 + 1) := (exact.connections _ List.mem_cons_self).2.2
  have rounded : (Sample.cast (2 ^ 53 + 1) : Rounded) = ((2 ^ 53 : Int) : ℝ) := by
    have bits : roundBits (2 ^ 53 + 1) = 2 ^ 53 := by decide
    show ((roundBits (2 ^ 53 + 1) : Nat) : ℝ) = _
    rw [bits]
    push_cast
    rfl
  have long : Value.toLong (Sample.cast (2 ^ 53 + 1) : Rounded) = 2 ^ 53 := by
    rw [rounded]
    exact toLong_int (by decide) (by decide)
  rw [PortExact, long] at port
  exact absurd port (by decide)

/-- The reading of the far input. -/
theorem reloads_iff_farInput : farInput.Reloads ↔ farInput.Exact :=
  reloads_iff rounded_doubles farInput_composed farInput_finite

/-- The far input is reloaded as another one. -/
theorem farInput_lost :
    ¬∀ bp : GraphBlueprint Rounded, Composed bp → bp.FiniteDefaults → bp.Reloads := fun claimed =>
  farInput_inexact (exact_of_reloads rounded_doubles (farInput_composed.savable farInput_finite)
    (claimed farInput farInput_composed farInput_finite))

end Xrune
