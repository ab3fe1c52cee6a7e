import Xrune.Core.Blueprint
import Xrune.Lang.Registry
import Xrune.Json.Parser

/-!
# Serialize — reading a blueprint

`from_json`: the nodes are made by the registry, the connections go through `connect` and
`connect_param`, and the terminals and the input and output node are copied.  What a failure
leaves of the blueprint is read by nobody.
-/

namespace Xrune

open Json Lang

variable {α : Type} [Sample α]

/-- `size_t(i)` of a `long`. -/
def sizeOfLong (i : Int) : Nat := (i % 2 ^ 64).toNat

/-- `valid(idx)`, and the index. -/
def validIndex (count : Nat) (i : Int) : Option Nat :=
  if 0 ≤ i ∧ i.toNat < count then some i.toNat else none

/-- An entry of `args`; null and nested values are no argument. -/
def argOfValue : String × Value α → Option (String × ArgValue α)
  | (name, .number n)  => some (name, .number n)
  | (name, .string s)  => some (name, .string s)
  | (name, .boolean b) => some (name, .boolean b)
  | _                  => none

/-- `args.named` of a node entry. -/
def argsOfEntry (jn : Value α) : NodeArgs α where
  named := (((jn.find "args").bind Value.members?).getD []).filterMap argOfValue

/-- A node entry: the node and its name. -/
def loadNode (reg : NodeRegistry α) (jn : Value α) : Except String (Node α × String) :=
  if jn.members?.isNone then throw "node entry must be an object"
  else
    let type := jn.text "type"
    if type = "" then throw "node is missing 'type'"
    else if !reg.has type then throw ("unknown node type: '" ++ type ++ "'")
    else
      match reg.make type (argsOfEntry jn) with
      | none    => throw ("factory for '" ++ type ++ "' returned null")
      | some nd => return (nd, jn.text "name")

def loadConnection (bp : GraphBlueprint α) (c : Value α) : Except String (GraphBlueprint α) :=
  let src := c.integer "src" (-1)
  let dst := c.integer "dst" (-1)
  let o := c.integer "out" 0
  let i := c.integer "in" 0
  match validIndex bp.size src, validIndex bp.size dst with
  | some s, some d =>
      match bp.connect s (sizeOfLong o) d (sizeOfLong i) with
      | some bp => return bp
      | none    => throw ("invalid connection " ++ toString src ++ ":" ++ toString o ++ " -> "
          ++ toString dst ++ ":" ++ toString i)
  | _, _ => throw "connection references an unknown node"

def loadModulation (bp : GraphBlueprint α) (m : Value α) : Except String (GraphBlueprint α) :=
  let src := m.integer "src" (-1)
  let dst := m.integer "dst" (-1)
  let o := m.integer "out" 0
  let p := m.integer "param" 0
  match validIndex bp.size src, validIndex bp.size dst with
  | some s, some d =>
      match bp.connectParam s (sizeOfLong o) d (sizeOfLong p) with
      | some bp => return bp
      | none    => throw ("invalid modulation " ++ toString src ++ ":" ++ toString o ++ " -> "
          ++ toString dst ++ " param " ++ toString p)
  | _, _ => throw "modulation references an unknown node"

/-- `silent: true`. -/
def isSilent (c : Value α) : Bool :=
  match c.find "silent" with
  | some (.boolean b) => b
  | _                 => false

def loadChannel (count : Nat) (key : String) (c : Value α) : Except String TerminalSource :=
  if isSilent c then return ⟨0, 0, true⟩
  else
    match validIndex count (c.integer "node" (-1)) with
    | none    => throw (key ++ " channel references an unknown node")
    | some cn => return ⟨cn, sizeOfLong (c.integer "ch" 0), false⟩

/-- The elements of the array at a key; a value of another kind counts as none. -/
def entriesAt (v : Value α) (key : String) : List (Value α) :=
  ((v.find key).bind Value.elements?).getD []

def loadTerminal (count : Nat) (key : String) (t : Value α) : Except String Terminal :=
  match validIndex count (t.integer "node" (-1)) with
  | none    => throw (key ++ " references an unknown node")
  | some nd => do
      let channels ← (entriesAt t "channels").mapM (loadChannel count key)
      return ⟨t.text "name", nd, channels⟩

def loadTerminals (count : Nat) (root : Value α) (key : String) :
    Except String (List Terminal) :=
  (entriesAt root key).mapM (loadTerminal count key)

/-- The blueprint of a document, and its name. -/
def loadDocument (reg : NodeRegistry α) (root : Value α) :
    Except String (GraphBlueprint α × String) := do
  if root.members?.isNone then throw "top level must be an object"
  else
    let ver := root.integer "xrune" 0
    if ver ≠ 1 then
      throw ("unsupported format version " ++ toString ver ++ " (expected 1)")
    else
      match (root.find "nodes").bind Value.elements? with
      | none       => throw "missing 'nodes' array"
      | some nodes => do
          let nodes ← nodes.mapM (loadNode reg)
          let bp : GraphBlueprint α := { nodes := nodes.map Prod.fst, names := nodes.map Prod.snd }
          let bp ← (entriesAt root "connections").foldlM loadConnection bp
          let bp ← (entriesAt root "modulations").foldlM loadModulation bp
          let inputs ← loadTerminals bp.size root "input_terminals"
          let outputs ← loadTerminals bp.size root "output_terminals"
          return ({ bp with
            inputTerminals := inputs
            outputTerminals := outputs
            inputNode := root.integer "input_node" (-1)
            outputNode := root.integer "output_node" (-1) }, root.text "name")

/-- `from_json`, and `name_out`. -/
def fromJson [CNumber α] (reg : NodeRegistry α) (text : List Char) :
    Except String (GraphBlueprint α × String) := do
  let root ← parse text
  loadDocument reg root

end Xrune
