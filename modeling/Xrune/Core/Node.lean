import Xrune.Core.Sample

/-!
# Core — nodes

A node type is stateless code: it describes its audio I/O and its control ports, and its
`process` reads and writes a state block and the buffers its instance supplies.  The virtual
methods of `node` are the fields of `Node`.
-/

namespace Xrune

/-- Description of a control port. -/
structure PortDescriptor (α : Type) where
  name : String
  defaultValue : α
  minValue : α
  maxValue : α

/-- A per-instance state block: its sample cells and its integer cells. -/
structure StateBlock (α : Type) where
  cells : List α := []
  words : List Nat := []

/-- Hybrid-rate view of a control port: `buffer` is the connected source's samples, or `none`
for a control-rate ramp `base + inc * i`. -/
structure ParamView (α : Type) where
  buffer : Option (List α)
  base : α
  inc : α

namespace ParamView

variable {α : Type} [Sample α]

/-- `param_view::at`. -/
def get (p : ParamView α) (i : Nat) : α :=
  match p.buffer with
  | some b => b.getD i 0
  | none   => p.base + p.inc * Sample.cast i

def first (p : ParamView α) : α :=
  match p.buffer with
  | some b => b.getD 0 0
  | none   => p.base

end ParamView

/-- What a call of `process` is handed.  `outputs` holds what the output views hold before the
call: a node that writes none of them (`bus_input`) leaves them as they are. -/
structure ProcessingContext (α : Type) where
  inputs : List (List α)
  outputs : List (List α)
  params : List (ParamView α)
  sampleRate : Nat
  blockSize : Nat

namespace ProcessingContext

variable {α : Type} [Sample α]

/-- `ctx.inputs[c][i]`. -/
def input (ctx : ProcessingContext α) (c i : Nat) : α := (ctx.inputs.getD c []).getD i 0

/-- `ctx.params[p].at(i)`. -/
def param (ctx : ProcessingContext α) (p i : Nat) : α :=
  (ctx.params.getD p ⟨none, 0, 0⟩).get i

/-- `ctx.params[p].first()`. -/
def paramFirst (ctx : ProcessingContext α) (p : Nat) : α :=
  (ctx.params.getD p ⟨none, 0, 0⟩).first

end ProcessingContext

/-- `node`.  `configArgs` are the construction-time arguments that are not ports; `process`
returns the state block and the contents of the output views after the call. -/
structure Node (α : Type) where
  typeName : String
  inputsCount : Nat
  outputsCount : Nat
  params : List (PortDescriptor α) := []
  paramDefault : Nat → α
  configArgs : List (String × Nat) := []
  rateNum : Nat := 1
  rateDen : Nat := 1
  blockNum : Nat := 1
  blockDen : Nat := 1
  stateSize : Nat := 0
  stateAlign : Nat := 8
  initState : StateBlock α := {}
  process : StateBlock α → ProcessingContext α → StateBlock α × List (List α)

/-- A product or a sum of `size_t`s, which wraps. -/
def sizeT (n : Nat) : Nat := n % 2 ^ 64

theorem sizeT_of_lt {n : Nat} (h : n < 2 ^ 64) : sizeT n = n := Nat.mod_eq_of_lt h

/-- `node::params_count`. -/
def Node.paramsCount {α : Type} (n : Node α) : Nat := n.params.length

/-- `for (i = 0; i < n; ++i)` over a state, one output sample a turn. -/
def blockLoop {σ β : Type} (n : Nat) (body : Nat → σ → σ × β) (s : σ) : σ × List β :=
  (List.range n).foldl
    (fun acc i => let r := body i acc.1; (r.1, acc.2 ++ [r.2])) (s, [])

/-- A stateless node's `process`: output channel `c` at sample `i` is `f c i`. -/
def sampleWise {α : Type} (outs : Nat) (f : ProcessingContext α → Nat → Nat → α)
    (s : StateBlock α) (ctx : ProcessingContext α) : StateBlock α × List (List α) :=
  (s, (List.range outs).map fun c => (List.range ctx.blockSize).map (f ctx c))

end Xrune
