import Xrune.Core.Node

/-!
# Core — blueprints

The topology description: node types, audio and modulation connections, named terminals and
the rune parameters promoted to blueprint parameters.  Nodes are referenced by index.
-/

namespace Xrune

structure BlueprintConnection where
  srcNode : Nat
  srcOutput : Nat
  dstNode : Nat
  dstInput : Nat
  deriving DecidableEq, Repr

structure ParamConnection where
  srcNode : Nat
  srcOutput : Nat
  dstNode : Nat
  dstParam : Nat
  deriving DecidableEq, Repr

/-- One source channel of an output terminal; a `silent` one emits zeros. -/
structure TerminalSource where
  node : Nat := 0
  ch : Nat := 0
  silent : Bool := false
  deriving DecidableEq, Repr

/-- A named bus.  With no `channels` the terminal reads all outputs of `node`. -/
structure Terminal where
  name : String
  node : Nat
  channels : List TerminalSource := []
  deriving DecidableEq, Repr

/-- One port a rune parameter drives. -/
structure ParamTarget where
  node : Nat
  port : Nat
  deriving DecidableEq, Repr

/-- A rune parameter promoted to a blueprint parameter; `isPartial` is `partial`. -/
structure BlueprintParam (α : Type) where
  name : String
  defaultValue : α
  targets : List ParamTarget := []
  isPartial : Bool := false

structure GraphBlueprint (α : Type) where
  nodes : List (Node α) := []
  names : List String := []
  connections : List BlueprintConnection := []
  paramConnections : List ParamConnection := []
  inputTerminals : List Terminal := []
  outputTerminals : List Terminal := []
  params : List (BlueprintParam α) := []
  inputNode : Int := -1
  outputNode : Int := -1

namespace GraphBlueprint

variable {α : Type}

/-- `bp.size()`. -/
def size (bp : GraphBlueprint α) : Nat := bp.nodes.length

/-- `nodes[i]->outputs_count()`. -/
def outputsOf (bp : GraphBlueprint α) (i : Nat) : Nat :=
  (bp.nodes[i]?.map Node.outputsCount).getD 0

/-- `nodes[i]->inputs_count()`. -/
def inputsOf (bp : GraphBlueprint α) (i : Nat) : Nat :=
  (bp.nodes[i]?.map Node.inputsCount).getD 0

/-- `nodes[i]->params_count()`. -/
def paramsOf (bp : GraphBlueprint α) (i : Nat) : Nat :=
  (bp.nodes[i]?.map Node.paramsCount).getD 0

/-- Index of a blueprint parameter by name. -/
def findRuneParam (bp : GraphBlueprint α) (name : String) : Option Nat :=
  bp.params.findIdx? fun p => p.name == name

/-- The node index for a name. -/
def findNode (bp : GraphBlueprint α) (name : String) : Option Nat :=
  bp.names.findIdx? fun n => n == name

/-- A node's control port by name. -/
def findParam (bp : GraphBlueprint α) (node : Nat) (name : String) : Option Nat :=
  match bp.nodes[node]? with
  | none    => none
  | some nd => nd.params.findIdx? fun p => p.name == name

/-- Connect `src.out` to `dst.inp`; refused when a port is out of range or the input is
already driven. -/
def connect (bp : GraphBlueprint α) (src out dst inp : Nat) : Option (GraphBlueprint α) :=
  if bp.size ≤ src ∨ bp.size ≤ dst then none
  else if bp.outputsOf src ≤ out then none
  else if bp.inputsOf dst ≤ inp then none
  else if bp.connections.any fun c => c.dstNode == dst && c.dstInput == inp then none
  else some { bp with connections := bp.connections ++ [⟨src, out, dst, inp⟩] }

/-- Drive `dst`'s port `param` with `src.out`; refused as `connect` is. -/
def connectParam (bp : GraphBlueprint α) (src out dst param : Nat) :
    Option (GraphBlueprint α) :=
  if bp.size ≤ src ∨ bp.size ≤ dst then none
  else if bp.outputsOf src ≤ out then none
  else if bp.paramsOf dst ≤ param then none
  else if bp.paramConnections.any fun c => c.dstNode == dst && c.dstParam == param then none
  else some { bp with paramConnections := bp.paramConnections ++ [⟨src, out, dst, param⟩] }

/-- `add_output_terminal(name, chans)`: channel `c` comes from `chans[c]`. -/
def addOutputTerminal (bp : GraphBlueprint α) (name : String) (chans : List TerminalSource) :
    GraphBlueprint α :=
  { bp with outputTerminals := bp.outputTerminals ++
      [⟨name, (chans.head?.map TerminalSource.node).getD 0, chans⟩] }

def addInputTerminal (bp : GraphBlueprint α) (name : String) (node : Nat) : GraphBlueprint α :=
  { bp with inputTerminals := bp.inputTerminals ++ [⟨name, node, []⟩] }

def findOutputTerminal (bp : GraphBlueprint α) (name : String) : Option Nat :=
  bp.outputTerminals.findIdx? fun t => t.name == name

def findInputTerminal (bp : GraphBlueprint α) (name : String) : Option Nat :=
  bp.inputTerminals.findIdx? fun t => t.name == name

end GraphBlueprint

end Xrune
