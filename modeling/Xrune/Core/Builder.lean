import Xrune.Core.Wiring

/-!
# Core — the fluent blueprint builder

`blueprint_builder` addresses everything by node name and collects its errors.  `call` is one
call of the chain; `run` is a whole chain from `build(name)`.

* `Built` — names, wiring and terminals of the blueprint a chain has built so far.
* `Adds` — what a call asks for: when it can be added and what is added.
* `call_cases` — a call adds what it asks for, or one error and nothing else.
* `builder_sound` — both, after any chain.
-/

namespace Xrune

variable {α : Type}

namespace GraphBlueprint

/-- `add_named`. -/
def addNamed (bp : GraphBlueprint α) (name : String) (nd : Node α) : GraphBlueprint α :=
  { bp with nodes := bp.nodes ++ [nd], names := bp.names ++ [name] }

/-- All the outputs of `node`, as `add_output_terminal(name, node)` lists them. -/
def nodeChannels (bp : GraphBlueprint α) (node : Nat) : List TerminalSource :=
  (List.range (bp.outputsOf node)).map fun c => ⟨node, c, false⟩

/-- `add_output_terminal(name, node)`. -/
def addNodeTerminal (bp : GraphBlueprint α) (name : String) (node : Nat) : GraphBlueprint α :=
  { bp with outputTerminals := bp.outputTerminals ++ [⟨name, node, bp.nodeChannels node⟩] }

/-- `set_output`. -/
def setOutput (bp : GraphBlueprint α) (n : Nat) : GraphBlueprint α :=
  let bp' := { bp with outputNode := n }
  if bp'.outputTerminals.isEmpty then bp'.addNodeTerminal "out" n else bp'

end GraphBlueprint

structure BlueprintBuilder (α : Type) where
  name : String
  bp : GraphBlueprint α := {}
  errors : List String := []

/-- One call of the chain.  `add` is given the node `T(args...)`. -/
inductive BuilderCall (α : Type) where
  | add (name : String) (nd : Node α)
  | connect (src : String) (out : Nat) (dst : String) (inp : Nat)
  | modulate (src : String) (out : Nat) (dst port : String)
  | output (node : String)
  | inputTerminal (terminal node : String)
  | outputTerminal (terminal node : String)

namespace BlueprintBuilder

open GraphBlueprint

/-- `errors.push_back`. -/
def error (b : BlueprintBuilder α) (msg : String) : BlueprintBuilder α :=
  { b with errors := b.errors ++ [msg] }

def add (b : BlueprintBuilder α) (name : String) (nd : Node α) : BlueprintBuilder α :=
  if name = "" then b.error "node name must not be empty"
  else if (b.bp.findNode name).isSome then b.error ("duplicate node name: " ++ name)
  else { b with bp := b.bp.addNamed name nd }

def connect (b : BlueprintBuilder α) (src : String) (out : Nat) (dst : String) (inp : Nat) :
    BlueprintBuilder α :=
  match b.bp.findNode src, b.bp.findNode dst with
  | none, _ => b.error ("connect: unknown node: " ++ src)
  | some _, none => b.error ("connect: unknown node: " ++ dst)
  | some s, some d =>
    match b.bp.connect s out d inp with
    | some bp => { b with bp := bp }
    | none => b.error ("connect: invalid (" ++ src ++ " -> " ++ dst ++
        "): port out of range or input already driven")

def modulate (b : BlueprintBuilder α) (src : String) (out : Nat) (dst port : String) :
    BlueprintBuilder α :=
  match b.bp.findNode src, b.bp.findNode dst with
  | none, _ => b.error ("modulate: unknown node: " ++ src)
  | some _, none => b.error ("modulate: unknown node: " ++ dst)
  | some s, some d =>
    match b.bp.findParam d port with
    | none => b.error ("modulate: unknown port: " ++ dst ++ "." ++ port)
    | some p =>
      match b.bp.connectParam s out d p with
      | some bp => { b with bp := bp }
      | none => b.error ("modulate: invalid (" ++ src ++ " -> " ++ dst ++ "." ++ port ++
          "): out of range or port already driven")

def output (b : BlueprintBuilder α) (node : String) : BlueprintBuilder α :=
  match b.bp.findNode node with
  | none => b.error ("output: unknown node: " ++ node)
  | some n => { b with bp := b.bp.setOutput n }

def inputTerminal (b : BlueprintBuilder α) (terminal node : String) : BlueprintBuilder α :=
  match b.bp.findNode node with
  | none => b.error ("input_terminal: unknown node: " ++ node)
  | some n =>
    if (b.bp.findInputTerminal terminal).isSome then
      b.error ("duplicate input terminal: " ++ terminal)
    else { b with bp := b.bp.addInputTerminal terminal n }

def outputTerminal (b : BlueprintBuilder α) (terminal node : String) : BlueprintBuilder α :=
  match b.bp.findNode node with
  | none => b.error ("output_terminal: unknown node: " ++ node)
  | some n =>
    if (b.bp.findOutputTerminal terminal).isSome then
      b.error ("duplicate output terminal: " ++ terminal)
    else { b with bp := b.bp.addNodeTerminal terminal n }

def call (b : BlueprintBuilder α) : BuilderCall α → BlueprintBuilder α
  | .add name nd => b.add name nd
  | .connect src out dst inp => b.connect src out dst inp
  | .modulate src out dst port => b.modulate src out dst port
  | .output node => b.output node
  | .inputTerminal terminal node => b.inputTerminal terminal node
  | .outputTerminal terminal node => b.outputTerminal terminal node

/-- The chain from `b`. -/
def run (b : BlueprintBuilder α) (calls : List (BuilderCall α)) : BlueprintBuilder α :=
  calls.foldl call b

/-- `ok()`. -/
def ok (b : BlueprintBuilder α) : Bool := b.errors.isEmpty

@[simp] theorem run_nil (b : BlueprintBuilder α) : b.run [] = b := rfl

@[simp] theorem run_cons (b : BlueprintBuilder α) (c : BuilderCall α)
    (calls : List (BuilderCall α)) : b.run (c :: calls) = (b.call c).run calls := rfl

end BlueprintBuilder

/-- `build(name)`. -/
def build (name : String) : BlueprintBuilder α := { name }

/-! ### The blueprint a chain leaves -/

namespace GraphBlueprint

variable {bp : GraphBlueprint α}

theorem findNode_eq_some {name : String} {i : Nat} (h : bp.findNode name = some i) :
    bp.names[i]? = some name := by
  obtain ⟨hi, heq, -⟩ := List.findIdx?_eq_some_iff_getElem.mp h
  rw [List.getElem?_eq_getElem hi, eq_of_beq heq]

theorem findNode_eq_none {name : String} (h : bp.findNode name = none) : name ∉ bp.names := by
  intro hmem
  have := List.findIdx?_eq_none_iff.mp h name hmem
  simp at this

theorem findParam_eq_some {node p : Nat} {port : String} (h : bp.findParam node port = some p) :
    ∃ nd pd, bp.nodes[node]? = some nd ∧ nd.params[p]? = some pd ∧ pd.name = port := by
  rw [findParam] at h
  cases hn : bp.nodes[node]? with
  | none => rw [hn] at h; cases h
  | some nd =>
    rw [hn] at h
    obtain ⟨hp, heq, -⟩ := List.findIdx?_eq_some_iff_getElem.mp h
    exact ⟨nd, nd.params[p], rfl, List.getElem?_eq_getElem hp, eq_of_beq heq⟩

theorem findInputTerminal_eq_none {name : String} (h : bp.findInputTerminal name = none) :
    name ∉ bp.inputTerminals.map Terminal.name := by
  intro hmem
  obtain ⟨t, ht, rfl⟩ := List.mem_map.mp hmem
  have := List.findIdx?_eq_none_iff.mp h t ht
  simp at this

theorem findOutputTerminal_eq_none {name : String} (h : bp.findOutputTerminal name = none) :
    name ∉ bp.outputTerminals.map Terminal.name := by
  intro hmem
  obtain ⟨t, ht, rfl⟩ := List.mem_map.mp hmem
  have := List.findIdx?_eq_none_iff.mp h t ht
  simp at this

/-- The terminals on existing nodes, one of each name. -/
structure TerminalsNamed (bp : GraphBlueprint α) (ts : List Terminal) : Prop where
  exist : bp.TerminalsExist ts
  nodup : (ts.map Terminal.name).Nodup

/-- A blueprint as the checked calls leave it. -/
structure Built (bp : GraphBlueprint α) : Prop where
  parallel : bp.names.length = bp.size
  named : ∀ n ∈ bp.names, n ≠ ""
  nodup : bp.names.Nodup
  wired : bp.Wired
  inputs : bp.TerminalsNamed bp.inputTerminals
  outputs : bp.TerminalsNamed bp.outputTerminals
  inputNode : bp.inputNode = -1
  outputNode : bp.NodeOrNone bp.outputNode

/-- What a call asks for: `Adds bp c bp'` when `c` can be added to `bp` and `bp'` is `bp` with
just that. -/
inductive Adds (bp : GraphBlueprint α) : BuilderCall α → GraphBlueprint α → Prop where
  | add {name : String} {nd : Node α} (named : name ≠ "") (fresh : name ∉ bp.names) :
      Adds bp (.add name nd) { bp with nodes := bp.nodes ++ [nd], names := bp.names ++ [name] }
  | connect {src dst : String} {out inp s d : Nat} (source : bp.names[s]? = some src)
      (target : bp.names[d]? = some dst) (output : out < bp.outputsOf s)
      (input : inp < bp.inputsOf d)
      (free : ∀ c ∈ bp.connections, ¬(c.dstNode = d ∧ c.dstInput = inp)) :
      Adds bp (.connect src out dst inp)
        { bp with connections := bp.connections ++ [⟨s, out, d, inp⟩] }
  | modulate {src dst port : String} {out s d p : Nat} {nd : Node α} {pd : PortDescriptor α}
      (source : bp.names[s]? = some src) (target : bp.names[d]? = some dst)
      (output : out < bp.outputsOf s) (node : bp.nodes[d]? = some nd)
      (param : nd.params[p]? = some pd) (name : pd.name = port)
      (free : ∀ c ∈ bp.paramConnections, ¬(c.dstNode = d ∧ c.dstParam = p)) :
      Adds bp (.modulate src out dst port)
        { bp with paramConnections := bp.paramConnections ++ [⟨s, out, d, p⟩] }
  | output {node : String} {n : Nat} (found : bp.names[n]? = some node) :
      Adds bp (.output node)
        { bp with
          outputNode := n
          outputTerminals := if bp.outputTerminals = [] then [⟨"out", n, bp.nodeChannels n⟩]
            else bp.outputTerminals }
  | inputTerminal {terminal node : String} {n : Nat} (found : bp.names[n]? = some node)
      (fresh : terminal ∉ bp.inputTerminals.map Terminal.name) :
      Adds bp (.inputTerminal terminal node)
        { bp with inputTerminals := bp.inputTerminals ++ [⟨terminal, n, []⟩] }
  | outputTerminal {terminal node : String} {n : Nat} (found : bp.names[n]? = some node)
      (fresh : terminal ∉ bp.outputTerminals.map Terminal.name) :
      Adds bp (.outputTerminal terminal node)
        { bp with outputTerminals := bp.outputTerminals ++ [⟨terminal, n, bp.nodeChannels n⟩] }

theorem setOutput_eq (bp : GraphBlueprint α) (n : Nat) : bp.setOutput n =
    { bp with
      outputNode := n
      outputTerminals := if bp.outputTerminals = [] then [⟨"out", n, bp.nodeChannels n⟩]
        else bp.outputTerminals } := by
  obtain ⟨_, _, _, _, _, outputTerminals, _, _, _⟩ := bp
  cases outputTerminals <;> rfl

/-! ### What a call keeps -/

theorem outputsOf_grown {bp bp' : GraphBlueprint α} (nodes : bp.nodes <+: bp'.nodes) {i : Nat}
    (hi : i < bp.size) : bp'.outputsOf i = bp.outputsOf i := by
  rw [outputsOf, outputsOf, getElem?_of_prefix nodes hi]

theorem TerminalsExist.grown {bp bp' : GraphBlueprint α} {ts : List Terminal}
    (T : bp.TerminalsExist ts) (nodes : bp.nodes <+: bp'.nodes) : bp'.TerminalsExist ts := by
  have hle : bp.size ≤ bp'.size := nodes.length_le
  refine ⟨fun t ht => Nat.lt_of_lt_of_le (T.node t ht) hle, fun t ht c hc loud => ?_⟩
  obtain ⟨hn, hch⟩ := T.channel t ht c hc loud
  exact ⟨Nat.lt_of_lt_of_le hn hle, by rwa [outputsOf_grown nodes hn]⟩

theorem TerminalsNamed.grown {bp bp' : GraphBlueprint α} {ts : List Terminal}
    (T : bp.TerminalsNamed ts) (nodes : bp.nodes <+: bp'.nodes) : bp'.TerminalsNamed ts :=
  ⟨T.exist.grown nodes, T.nodup⟩

/-- One more terminal, of a new name. -/
theorem TerminalsNamed.snoc {ts : List Terminal} (T : bp.TerminalsNamed ts) {t : Terminal}
    (node : t.node < bp.size)
    (channel : ∀ c ∈ t.channels, c.silent = false → c.node < bp.size ∧ c.ch < bp.outputsOf c.node)
    (fresh : t.name ∉ ts.map Terminal.name) : bp.TerminalsNamed (ts ++ [t]) where
  exist :=
    { node := by
        intro u hu
        rcases List.mem_append.mp hu with hu | hu
        · exact T.exist.node u hu
        · obtain rfl := List.mem_singleton.mp hu
          exact node
      channel := by
        intro u hu c hc loud
        rcases List.mem_append.mp hu with hu | hu
        · exact T.exist.channel u hu c hc loud
        · obtain rfl := List.mem_singleton.mp hu
          exact channel c hc loud }
  nodup := by
    rw [List.map_append, List.map_singleton]
    exact List.nodup_append.mpr ⟨T.nodup, List.nodup_singleton _, fun n hn m hm h =>
      fresh (by rw [← List.mem_singleton.mp hm, ← h]; exact hn)⟩

theorem nodeChannels_exist {node : Nat} (h : node < bp.size) (c : TerminalSource)
    (hc : c ∈ bp.nodeChannels node) : c.node < bp.size ∧ c.ch < bp.outputsOf c.node := by
  obtain ⟨i, hi, rfl⟩ := List.mem_map.mp hc
  exact ⟨h, List.mem_range.mp hi⟩

theorem nodup_concat {l : List String} {x : String} (h : l.Nodup) (fresh : x ∉ l) :
    (l ++ [x]).Nodup :=
  List.nodup_append.mpr ⟨h, List.nodup_singleton x, fun n hn m hm e =>
    fresh (by rw [← List.mem_singleton.mp hm, ← e]; exact hn)⟩

namespace Built

theorem bare : ({} : GraphBlueprint α).Built where
  parallel := rfl
  named := by simp
  nodup := List.nodup_nil
  wired := .bare rfl rfl
  inputs := ⟨⟨by simp, by simp⟩, List.nodup_nil⟩
  outputs := ⟨⟨by simp, by simp⟩, List.nodup_nil⟩
  inputNode := rfl
  outputNode := .inl rfl

/-- A name stands for a node. -/
theorem lt_of_name (B : bp.Built) {i : Nat} {n : String} (h : bp.names[i]? = some n) :
    i < bp.size := by
  rw [← B.parallel]
  exact (List.getElem?_eq_some_iff.mp h).1

/-- What a call adds leaves the blueprint well built. -/
theorem adds (B : bp.Built) {c : BuilderCall α} {bp' : GraphBlueprint α} (h : Adds bp c bp') :
    bp'.Built := by
  cases h with
  | @add name nd named fresh =>
    have nodes : bp.nodes <+: bp.nodes ++ [nd] := List.prefix_append _ _
    exact
      { parallel := by simpa [size] using B.parallel
        named := by
          intro n hn
          rcases List.mem_append.mp hn with hn | hn
          · exact B.named n hn
          · rw [List.mem_singleton.mp hn]
            exact named
        nodup := nodup_concat B.nodup fresh
        wired := B.wired.grown nodes rfl rfl
        inputs := B.inputs.grown nodes
        outputs := B.outputs.grown nodes
        inputNode := B.inputNode
        outputNode := by
          rcases B.outputNode with h | ⟨hge, hlt⟩
          · exact .inl h
          · exact .inr ⟨hge, Nat.lt_of_lt_of_le hlt nodes.length_le⟩ }
  | connect source target output input free =>
    have hs := B.lt_of_name source
    have hd := B.lt_of_name target
    exact { B with
      wired := B.wired.connect (connect_eq_some.mpr ⟨⟨hs, hd, output, input, free⟩, rfl⟩)
      inputs := B.inputs.grown (List.prefix_refl _)
      outputs := B.outputs.grown (List.prefix_refl _) }
  | @modulate _ _ _ _ _ d p nd pd source target output node param _ free =>
    have hs := B.lt_of_name source
    have hd := B.lt_of_name target
    have hp : p < bp.paramsOf d := by
      simpa [paramsOf, node, Node.paramsCount] using (List.getElem?_eq_some_iff.mp param).1
    exact { B with
      wired := B.wired.connectParam (connectParam_eq_some.mpr ⟨⟨hs, hd, output, hp, free⟩, rfl⟩)
      inputs := B.inputs.grown (List.prefix_refl _)
      outputs := B.outputs.grown (List.prefix_refl _) }
  | @output _ n found =>
    have hn := B.lt_of_name found
    exact { B with
      wired := B.wired.grown (List.prefix_refl _) rfl rfl
      inputs := B.inputs.grown (List.prefix_refl _)
      outputs := by
        have hnamed : bp.TerminalsNamed (if bp.outputTerminals = [] then
            [⟨"out", n, bp.nodeChannels n⟩] else bp.outputTerminals) := by
          split_ifs with hnone
          · exact ⟨⟨by simpa using hn, fun t ht c hc _ => nodeChannels_exist hn c
              (by rw [List.mem_singleton.mp ht] at hc; exact hc)⟩, List.nodup_singleton _⟩
          · exact B.outputs
        exact hnamed.grown (List.prefix_refl _)
      outputNode := .inr ⟨Int.natCast_nonneg n, hn⟩ }
  | inputTerminal found fresh =>
    have hn := B.lt_of_name found
    exact { B with
      wired := B.wired.grown (List.prefix_refl _) rfl rfl
      inputs := (B.inputs.snoc hn (by simp) fresh).grown (List.prefix_refl _)
      outputs := B.outputs.grown (List.prefix_refl _) }
  | outputTerminal found fresh =>
    have hn := B.lt_of_name found
    exact { B with
      wired := B.wired.grown (List.prefix_refl _) rfl rfl
      inputs := B.inputs.grown (List.prefix_refl _)
      outputs := (B.outputs.snoc hn (fun c hc _ => nodeChannels_exist hn c hc) fresh).grown
        (List.prefix_refl _) }

end Built

end GraphBlueprint

namespace BlueprintBuilder

open GraphBlueprint

/-- A call leaves one error and nothing else, or adds what it asks for. -/
theorem call_cases (b : BlueprintBuilder α) (c : BuilderCall α) :
    (∃ msg, b.call c = b.error msg) ∨
      ∃ bp', Adds b.bp c bp' ∧ b.call c = { b with bp := bp' } := by
  cases c with
  | add name nd =>
    simp only [call]
    unfold add
    split_ifs with hempty hdup
    · exact .inl ⟨_, rfl⟩
    · exact .inl ⟨_, rfl⟩
    · have hnone : b.bp.findNode name = none := by simpa using hdup
      exact .inr ⟨_, .add hempty (findNode_eq_none hnone), rfl⟩
  | connect src out dst inp =>
    simp only [call]
    unfold connect
    split
    · exact .inl ⟨_, rfl⟩
    · exact .inl ⟨_, rfl⟩
    · rename_i s d hs hd
      split
      · rename_i bp hone
        obtain ⟨⟨-, -, ho, hi, hfree⟩, rfl⟩ := connect_eq_some.mp hone
        exact .inr ⟨_, .connect (findNode_eq_some hs) (findNode_eq_some hd) ho hi hfree, rfl⟩
      · exact .inl ⟨_, rfl⟩
  | modulate src out dst port =>
    simp only [call]
    unfold modulate
    split
    · exact .inl ⟨_, rfl⟩
    · exact .inl ⟨_, rfl⟩
    · rename_i s d hs hd
      split
      · exact .inl ⟨_, rfl⟩
      · rename_i p hp
        obtain ⟨nd, pd, hnd, hpd, hname⟩ := findParam_eq_some hp
        split
        · rename_i bp hone
          obtain ⟨⟨-, -, ho, -, hfree⟩, rfl⟩ := connectParam_eq_some.mp hone
          exact .inr ⟨_, .modulate (findNode_eq_some hs) (findNode_eq_some hd) ho hnd hpd hname
            hfree, rfl⟩
        · exact .inl ⟨_, rfl⟩
  | output node =>
    simp only [call]
    unfold output
    split
    · exact .inl ⟨_, rfl⟩
    · rename_i n hn
      exact .inr ⟨_, .output (findNode_eq_some hn), by rw [setOutput_eq]⟩
  | inputTerminal terminal node =>
    simp only [call]
    unfold inputTerminal
    split
    · exact .inl ⟨_, rfl⟩
    · rename_i n hn
      split_ifs with hdup
      · exact .inl ⟨_, rfl⟩
      · have hnone : b.bp.findInputTerminal terminal = none := by simpa using hdup
        exact .inr ⟨_, .inputTerminal (findNode_eq_some hn) (findInputTerminal_eq_none hnone), rfl⟩
  | outputTerminal terminal node =>
    simp only [call]
    unfold outputTerminal
    split
    · exact .inl ⟨_, rfl⟩
    · rename_i n hn
      split_ifs with hdup
      · exact .inl ⟨_, rfl⟩
      · have hnone : b.bp.findOutputTerminal terminal = none := by simpa using hdup
        exact .inr ⟨_, .outputTerminal (findNode_eq_some hn) (findOutputTerminal_eq_none hnone),
          rfl⟩

/-- A chain keeps the blueprint well built. -/
theorem run_built (b : BlueprintBuilder α) (calls : List (BuilderCall α)) (B : b.bp.Built) :
    (b.run calls).bp.Built := by
  induction calls generalizing b with
  | nil => exact B
  | cons c calls ih =>
    rw [run_cons]
    refine ih (b.call c) ?_
    rcases b.call_cases c with ⟨msg, h⟩ | ⟨bp', hadds, h⟩
    · rw [h]
      exact B
    · rw [h]
      exact B.adds hadds

end BlueprintBuilder

/-- Whatever chain was called, the blueprint is well built, and any further call leaves one
error and the blueprint as it was, or no error and the blueprint with what it asks for. -/
theorem builder_sound (name : String) (calls : List (BuilderCall α)) :
    ((build name).run calls).bp.Built ∧
      ∀ c, let b := (build name).run calls
        ((∃ msg, (b.call c).errors = b.errors ++ [msg]) ∧ (b.call c).bp = b.bp) ∨
        ((b.call c).errors = b.errors ∧ GraphBlueprint.Adds b.bp c (b.call c).bp) := by
  refine ⟨BlueprintBuilder.run_built _ _ .bare, fun c => ?_⟩
  intro b
  rcases b.call_cases c with ⟨msg, h⟩ | ⟨bp', hadds, h⟩
  · rw [h]
    exact .inl ⟨⟨msg, rfl⟩, rfl⟩
  · rw [h]
    exact .inr ⟨rfl, hadds⟩

end Xrune
