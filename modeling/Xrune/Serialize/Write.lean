import Xrune.Core.Blueprint
import Xrune.Json.Value

/-!
# Serialize — writing a blueprint

`to_json_value` and `to_json`: the nodes with the arguments their factories read, the
connections, and the terminals.  The rune parameters are not written.
-/

namespace Xrune

open Json

variable {α : Type} [Sample α]

/-- `serialize_format_version`. -/
def serializeFormatVersion : Nat := 1

/-- `double(i)` of a signed number. -/
def ofLong (i : Int) : α := if 0 ≤ i then Sample.cast i.toNat else -Sample.cast (-i).toNat

/-- `json::value(double(n))`. -/
def sizeValue (n : Nat) : Value α := .number (Sample.cast n)

/-- `args`: the constructor configuration, then every port's default. -/
def Node.args (nd : Node α) : List (String × Value α) :=
  (nd.configArgs.take 8).map (fun c => (c.1, sizeValue c.2)) ++
    nd.params.mapIdx fun p port => (port.name, .number (nd.paramDefault p))

def nodeValue (i : Nat) (nd : Node α) (name : String) : Value α :=
  .object <| [("id", sizeValue i), ("type", .string nd.typeName)]
    ++ (if name = "" then [] else [("name", .string name)])
    ++ (if nd.args.isEmpty then [] else [("args", .object nd.args)])

def connectionValue (c : BlueprintConnection) : Value α :=
  .object [("src", sizeValue c.srcNode), ("out", sizeValue c.srcOutput),
    ("dst", sizeValue c.dstNode), ("in", sizeValue c.dstInput)]

def modulationValue (m : ParamConnection) : Value α :=
  .object [("src", sizeValue m.srcNode), ("out", sizeValue m.srcOutput),
    ("dst", sizeValue m.dstNode), ("param", sizeValue m.dstParam)]

def channelValue (c : TerminalSource) : Value α :=
  .object <|
    if c.silent then [("silent", .boolean true)]
    else [("node", sizeValue c.node), ("ch", sizeValue c.ch)]

def terminalValue (t : Terminal) : Value α :=
  .object <| [("name", .string t.name), ("node", sizeValue t.node)]
    ++ if t.channels.isEmpty then [] else [("channels", .array (t.channels.map channelValue))]

def toJsonValue (bp : GraphBlueprint α) (name : String) : Value α :=
  .object <| [("xrune", sizeValue serializeFormatVersion)]
    ++ (if name = "" then [] else [("name", .string name)])
    ++ [("nodes", .array (bp.nodes.mapIdx fun i nd => nodeValue i nd (bp.names.getD i ""))),
      ("connections", .array (bp.connections.map connectionValue)),
      ("modulations", .array (bp.paramConnections.map modulationValue)),
      ("input_terminals", .array (bp.inputTerminals.map terminalValue)),
      ("output_terminals", .array (bp.outputTerminals.map terminalValue)),
      ("input_node", .number (ofLong bp.inputNode)),
      ("output_node", .number (ofLong bp.outputNode))]

def toJson [CNumber α] (bp : GraphBlueprint α) (name : String) (indent : Int) : List Char :=
  dump (toJsonValue bp name) indent

end Xrune
