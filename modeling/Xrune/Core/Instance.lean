import Xrune.Core.Schedule

/-!
# Core — instances

A live realization of a blueprint: its node-state blocks, output buffers and control state.
The arena the source carves these from is not modelled here; each region is a list, and the
precomputed per-(node, call) views are the functions that compute them.
-/

namespace Xrune

/-- Per-instance, per-control-port smoothing state. -/
structure PortControl (α : Type) where
  current : α
  target : α
  deriving DecidableEq, Repr

structure GraphInstance (α : Type) where
  sched : CompiledSchedule α
  stateRegion : List (StateBlock α)
  bufferPool : List α
  silentLen : Nat
  controls : List (PortControl α)
  sampleRate : Nat
  finishedFlag : Bool

/-- `audio_buffer_view`: `size` samples of the buffer pool from `start`, or of the read-only
zeros. -/
inductive BufferView where
  | pool (start size : Nat)
  | silent (size : Nat)
  deriving DecidableEq, Repr

namespace GraphInstance

variable {α : Type}

def blockSize (g : GraphInstance α) : Nat := g.sched.blockSize

/-- `out_offset(node, ch)`. -/
def outOffset (g : GraphInstance α) (node ch : Nat) : Nat :=
  g.sched.outBaseSample.getD node 0 + ch * g.sched.outStride.getD node 0

/-- The full per-channel output buffer of a node. -/
def nodeOutputView (g : GraphInstance α) (node ch : Nat) : BufferView :=
  .pool (g.outOffset node ch) (g.sched.outStride.getD node 0)

def outputTerminalCount (g : GraphInstance α) : Nat := g.sched.bp.outputTerminals.length
def inputTerminalCount (g : GraphInstance α) : Nat := g.sched.bp.inputTerminals.length

def outputTerminalChannels (g : GraphInstance α) (t : Nat) : Nat :=
  match g.sched.bp.outputTerminals[t]? with
  | none      => 0
  | some term =>
      if term.channels.isEmpty then g.sched.bp.outputsOf term.node else term.channels.length

def inputTerminalChannels (g : GraphInstance α) (t : Nat) : Nat :=
  match g.sched.bp.inputTerminals[t]? with
  | none      => 0
  | some term => g.sched.bp.outputsOf term.node

def outputTerminalView (g : GraphInstance α) (t ch : Nat) : BufferView :=
  match g.sched.bp.outputTerminals[t]? with
  | none      => .silent 0
  | some term =>
      if term.channels.isEmpty then g.nodeOutputView term.node ch
      else
        let src := term.channels.getD ch {}
        if src.silent then .silent g.silentLen else g.nodeOutputView src.node src.ch

def inputTerminalView (g : GraphInstance α) (t ch : Nat) : BufferView :=
  match g.sched.bp.inputTerminals[t]? with
  | none      => .silent 0
  | some term => g.nodeOutputView term.node ch

section Buffers

variable [Sample α]

/-- `view[i]`, read. -/
def read (g : GraphInstance α) (v : BufferView) (i : Nat) : α :=
  match v with
  | .pool start _ => g.bufferPool.getD (start + i) 0
  | .silent _     => 0

/-- `view[i] = x`. -/
def write (g : GraphInstance α) (v : BufferView) (i : Nat) (x : α) : GraphInstance α :=
  match v with
  | .pool start _ => { g with bufferPool := g.bufferPool.set (start + i) x }
  | .silent _     => g

/-- A view's samples. -/
def readView (g : GraphInstance α) (v : BufferView) : List α :=
  match v with
  | .pool start size => (List.range size).map fun i => g.bufferPool.getD (start + i) 0
  | .silent size     => List.replicate size 0

/-- The view's samples set to `xs`. -/
def writeView (g : GraphInstance α) (v : BufferView) (xs : List α) : GraphInstance α :=
  match v with
  | .pool _ size => (List.range (min size xs.length)).foldl (fun g i => g.write v i (xs.getD i 0)) g
  | .silent _    => g

/-- Call `k`'s view of output `c` of node `i`. -/
def outView (g : GraphInstance α) (i k c : Nat) : BufferView :=
  let nb := g.sched.nodeBlock.getD i 0
  .pool (g.outOffset i c + k * nb) nb

/-- Call `k`'s view of input `c` of node `i`, as `build` precomputes it. -/
def inView (g : GraphInstance α) (i k c : Nat) : BufferView :=
  let nb := g.sched.nodeBlock.getD i 0
  match (g.sched.inputSource.getD i []).getD c none with
  | none =>
      match g.sched.bp.nodes[i]? with
      | some nd => .silent (if nd.rateNum ≠ 0 then nb * nd.rateDen / nd.rateNum else nb)
      | none    => .silent nb
  | some (n, ch) =>
      let perCall := g.sched.outStride.getD n 0 / g.sched.calls.getD i 1
      .pool (g.outOffset n ch + k * perCall) perCall

/-- Call `k`'s view of port `p` of node `i`: the connected source's samples, or the ramp
`update_control_ramps` sets. -/
def portView (g : GraphInstance α) (i k p : Nat) : ParamView α :=
  match (g.sched.paramSource.getD i []).getD p none with
  | some (n, ch) =>
      let perCall := g.sched.outStride.getD n 0 / g.sched.calls.getD i 1
      ⟨some (g.bufferPool.drop (g.outOffset n ch + k * perCall)), 0, 0⟩
  | none =>
      let c := g.controls.getD (g.sched.paramBase.getD i 0 + p) ⟨0, 0⟩
      let nb := g.sched.nodeBlock.getD i 0
      let invBs : α := if nb ≠ 0 then 1 / Sample.cast nb else 0
      ⟨none, c.current, (c.target - c.current) * invBs⟩

/-- The `current = target` half of `update_control_ramps`: the control-rate ports of node `i`
arrive at their targets. -/
def settleControls (g : GraphInstance α) (i params : Nat) : GraphInstance α :=
  let settle (cs : List (PortControl α)) (p : Nat) :=
    match (g.sched.paramSource.getD i []).getD p none with
    | some _ => cs
    | none   => cs.modify (g.sched.paramBase.getD i 0 + p) fun c => ⟨c.target, c.target⟩
  { g with controls := (List.range params).foldl settle g.controls }

/-- Call `k` of node `i`: the ramps are updated and the node's `process` runs on the call's
views. -/
def runCall (g : GraphInstance α) (i k : Nat) : GraphInstance α :=
  match g.sched.bp.nodes[i]? with
  | none    => g
  | some nd =>
      let ctx : ProcessingContext α :=
        { inputs := (List.range nd.inputsCount).map fun c => g.readView (g.inView i k c)
          outputs := (List.range nd.outputsCount).map fun c => g.readView (g.outView i k c)
          params := (List.range nd.paramsCount).map fun p => g.portView i k p
          sampleRate := g.sampleRate * g.sched.regionRate.getD i 1
          blockSize := g.sched.nodeBlock.getD i 0 }
      let r := nd.process (g.stateRegion.getD i {}) ctx
      let settled := g.settleControls i nd.paramsCount
      (List.range nd.outputsCount).foldl
        (fun g c => g.writeView (g.outView i k c) (r.2.getD c []))
        { settled with stateRegion := g.stateRegion.set i r.1 }

/-- Execute one cycle: each node in topological order, `calls` times. -/
def process (g : GraphInstance α) : GraphInstance α :=
  g.sched.topoOrder.foldl
    (fun g i => (List.range (g.sched.calls.getD i 0)).foldl (fun g k => g.runCall i k) g) g

/-- The value a port is written with: clamped to the port's range. -/
def clampTo (nd : Node α) (param : Nat) (value : α) : α :=
  match nd.params[param]? with
  | some pd => Sample.clamp value pd.minValue pd.maxValue
  | none    => value

/-- The control slot `(node, param)` addresses, when the node has that port. -/
def controlSlot (g : GraphInstance α) (node param : Nat) : Option (Node α × Nat) :=
  match g.sched.bp.nodes[node]? with
  | none    => none
  | some nd =>
      if nd.paramsCount ≤ param then none
      else some (nd, g.sched.paramBase.getD node 0 + param)

/-- `init_parameter`: writes current and target, so the port starts at the value. -/
def initParameter (g : GraphInstance α) (node param : Nat) (value : α) : GraphInstance α :=
  match g.controlSlot node param with
  | none         => g
  | some (nd, i) =>
      let v := clampTo nd param value
      { g with controls := g.controls.modify i fun _ => ⟨v, v⟩ }

/-- `set_parameter`: writes the target only, so the port glides to the value. -/
def setParameter (g : GraphInstance α) (node param : Nat) (value : α) : GraphInstance α :=
  match g.controlSlot node param with
  | none         => g
  | some (nd, i) =>
      { g with controls := g.controls.modify i fun c => ⟨c.current, clampTo nd param value⟩ }

/-- The control state `build` starts from: every port at its compiled default. -/
def defaultControls (s : CompiledSchedule α) : List (PortControl α) :=
  let ports (cs : List (PortControl α)) (nd : Node α × Nat) :=
    (List.range nd.1.paramsCount).foldl (fun cs p =>
      cs.set (s.paramBase.getD nd.2 0 + p) ⟨nd.1.paramDefault p, nd.1.paramDefault p⟩) cs
  s.bp.nodes.zipIdx.foldl ports (List.replicate s.totalParams ⟨0, 0⟩)

end Buffers

end GraphInstance

/-- `instantiate`: `build` on a fresh instance, refused when the schedule is not `ok`. -/
def instantiate {α : Type} [Sample α] (s : CompiledSchedule α) (sampleRate : Nat) :
    Option (GraphInstance α) :=
  if !s.ok then none
  else some
    { sched := s
      stateRegion := s.bp.nodes.map Node.initState
      bufferPool := List.replicate s.totalOutputSamples 0
      silentLen := max s.maxStride (2 * s.blockSize)
      controls := GraphInstance.defaultControls s
      sampleRate := sampleRate
      finishedFlag := false }

end Xrune
