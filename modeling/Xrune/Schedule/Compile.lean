import Xrune.Core.Schedule

/-!
# Schedule — compiling a blueprint

`compile` orders the nodes topologically (Kahn), propagates the region rate and the block
exponent along that order, and lays out the buffers and the wiring of an instance.  Sizes stay
below `2 ^ 64`, so `size_t` arithmetic is exact.
-/

namespace Xrune

variable {α : Type}

/-- The edges of a blueprint, the audio connections first. -/
def GraphBlueprint.edges (bp : GraphBlueprint α) : List (Nat × Nat) :=
  bp.connections.map (fun c => (c.srcNode, c.dstNode)) ++
    bp.paramConnections.map fun c => (c.srcNode, c.dstNode)

/-! ### The topological order -/

/-- The adjacency lists `adj` and the in-degrees. -/
structure Adjacency where
  adj : Nat → List Nat
  inDegree : Nat → Int

def Adjacency.addEdge (a : Adjacency) (e : Nat × Nat) : Adjacency where
  adj := Function.update a.adj e.1 (a.adj e.1 ++ [e.2])
  inDegree := Function.update a.inDegree e.2 (a.inDegree e.2 + 1)

def adjacency (bp : GraphBlueprint α) : Adjacency :=
  bp.edges.foldl Adjacency.addEdge ⟨fun _ => [], fun _ => 0⟩

/-- The queue `q`, the order so far, and the in-degrees that remain. -/
structure TopoState where
  queue : List Nat
  topoOrder : List Nat
  inDegree : Nat → Int

/-- `if (--in_degree[v] == 0) q.push(v)`. -/
def TopoState.release (s : TopoState) (v : Nat) : TopoState :=
  let d := s.inDegree v - 1
  { s with
    queue := if d = 0 then s.queue ++ [v] else s.queue
    inDegree := Function.update s.inDegree v d }

/-- `while (!q.empty())`. -/
def topoLoop (adj : Nat → List Nat) : Nat → TopoState → TopoState
  | 0, s => s
  | fuel + 1, s =>
      match s.queue with
      | []     => s
      | u :: q =>
          let popped := { s with queue := q, topoOrder := s.topoOrder ++ [u] }
          topoLoop adj fuel ((adj u).foldl TopoState.release popped)

/-- The loop from the nodes with no incoming edge on.  A node is queued once, so `size` turns
empty the queue. -/
def topoRun (bp : GraphBlueprint α) : TopoState :=
  let a := adjacency bp
  topoLoop a.adj bp.size
    ⟨(List.range bp.size).filter fun i => a.inDegree i == 0, [], a.inDegree⟩

/-! ### Rates and blocks -/

/-- What compilation assigns to a node: its region rate, its samples per call, its calls per
cycle, and its block exponent. -/
structure NodeRate where
  regionRate : Nat
  nodeBlock : Nat
  calls : Nat
  blkExp : Int
  deriving DecidableEq, Repr

/-- The nodes that drive `v`, its modulators last. -/
def GraphBlueprint.drivers (bp : GraphBlueprint α) (v : Nat) : List Nat :=
  (bp.edges.filter fun e => e.2 == v).map Prod.fst

/-- `in_rate` and `in_blk` (`none` before the first driver), and whether the drivers so far
agree on them. -/
structure DriverRate where
  seen : Option (Nat × Int) := none
  consistent : Bool := true

def DriverRate.consider (d : DriverRate) (r : NodeRate) : DriverRate :=
  match d.seen with
  | none   => { d with seen := some (r.regionRate, r.blkExp) }
  | some p => if r.regionRate ≠ p.1 ∨ r.blkExp ≠ p.2 then { d with consistent := false } else d

/-- The change of block exponent of a node: a factor of two only. -/
def Node.blockDelta (nd : Node α) : Option Int :=
  if nd.blockNum = 1 ∧ nd.blockDen = 1 then some 0
  else if nd.blockNum = 2 ∧ nd.blockDen = 1 then some 1
  else if nd.blockNum = 1 ∧ nd.blockDen = 2 then some (-1)
  else none

/-- The samples of one call, `B * 2 ^ be`. -/
def perCallBlock (B : Nat) (be : Int) : Option Nat :=
  if 0 ≤ be then some (B * 2 ^ be.toNat)
  else
    let d := 2 ^ (-be).toNat
    if B % d ≠ 0 then none else some (B / d)

/-- The rate of a node whose drivers have the rate and the block exponent given, when it has
one. -/
def nodeRate (nd : Node α) (B baseRate : Nat) (baseBlk : Int) : Option NodeRate :=
  if nd.rateDen = 0 ∨ (baseRate * nd.rateNum) % nd.rateDen ≠ 0 then none
  else
    let R := (baseRate * nd.rateNum) / nd.rateDen
    if !isPowerOfTwo R then none
    else
      nd.blockDelta.bind fun delta =>
        let be := baseBlk + delta
        (perCallBlock B be).bind fun nb =>
          if nb = 0 then none
          else if (R * B) % nb ≠ 0 then none
          else
            let C := (R * B) / nb
            if C = 0 then none else some ⟨R, nb, C, be⟩

abbrev Rates := Nat → NodeRate

/-- What `v` reads of its drivers. -/
def driverRate (bp : GraphBlueprint α) (rates : Rates) (v : Nat) : DriverRate :=
  (bp.drivers v).foldl (fun d u => d.consider (rates u)) {}

/-- The rate of `v` over those of its drivers, when they agree and it has one. -/
def assignedRate (bp : GraphBlueprint α) (B v : Nat) (rates : Rates) : Option NodeRate :=
  let d := driverRate bp rates v
  if !d.consistent then none
  else
    let base := d.seen.getD (1, 0)
    bp.nodes[v]?.bind fun nd => nodeRate nd B base.1 base.2

/-- The propagation along the order. -/
def propagate (bp : GraphBlueprint α) (B : Nat) (order : List Nat) : Option Rates :=
  order.foldlM
    (fun rates v => (assignedRate bp B v rates).map fun r => Function.update rates v r)
    fun _ => ⟨1, B, 1, 0⟩

/-! ### Layout and wiring -/

/-- The sums of `size` over the indices before each one. -/
def offsets (size : Nat → Nat) (n : Nat) : List Nat :=
  (List.range n).map fun i => ((List.range i).map size).sum

/-- `table[node][port] = ref`. -/
def setSource (table : List (List SrcRef)) (node port : Nat) (ref : SrcRef) : List (List SrcRef) :=
  table.modify node fun row => row.set port ref

/-- `input_source`: the last connection to an input wins. -/
def inputWiring (bp : GraphBlueprint α) : List (List SrcRef) :=
  bp.connections.foldl
    (fun t c => setSource t c.dstNode c.dstInput (some (c.srcNode, c.srcOutput)))
    (bp.nodes.map fun nd => List.replicate nd.inputsCount none)

/-- `param_source`. -/
def paramWiring (bp : GraphBlueprint α) : List (List SrcRef) :=
  bp.paramConnections.foldl
    (fun t c => setSource t c.dstNode c.dstParam (some (c.srcNode, c.srcOutput)))
    (bp.nodes.map fun nd => List.replicate nd.paramsCount none)

/-- The schedule of a blueprint whose rates are known. -/
def layout (bp : GraphBlueprint α) (B : Nat) (order : List Nat) (rates : Rates) :
    CompiledSchedule α :=
  let n := bp.size
  let stride (i : Nat) := (rates i).regionRate * B
  let widest := ((List.range n).map stride).foldl max 0
  { bp := bp
    blockSize := B
    ok := true
    topoOrder := order
    regionRate := (List.range n).map fun i => (rates i).regionRate
    nodeBlock := (List.range n).map fun i => (rates i).nodeBlock
    calls := (List.range n).map fun i => (rates i).calls
    outBaseSample := offsets (fun i => bp.outputsOf i * stride i) n
    outStride := (List.range n).map stride
    totalOutputSamples := ((List.range n).map fun i => bp.outputsOf i * stride i).sum
    maxStride := if widest = 0 then B else widest
    inputSource := inputWiring bp
    paramSource := paramWiring bp
    paramBase := offsets bp.paramsOf n
    totalParams := ((List.range n).map bp.paramsOf).sum }

/-- A schedule that is not `ok`; what its tables were filled with before the failure is read by
nobody. -/
def CompiledSchedule.failed (bp : GraphBlueprint α) (B : Nat) (order : List Nat) :
    CompiledSchedule α where
  bp := bp
  blockSize := B
  ok := false
  topoOrder := order
  regionRate := []
  nodeBlock := []
  calls := []
  outBaseSample := []
  outStride := []
  totalOutputSamples := 0
  maxStride := 0
  inputSource := []
  paramSource := []
  paramBase := []
  totalParams := 0

def compile (bp : GraphBlueprint α) (B : Nat) : CompiledSchedule α :=
  let order := (topoRun bp).topoOrder
  if order.length ≠ bp.size then .failed bp B order
  else
    match propagate bp B order with
    | none       => .failed bp B order
    | some rates => layout bp B order rates

end Xrune
