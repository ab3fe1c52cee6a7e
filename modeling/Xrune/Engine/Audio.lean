import Xrune.Engine.Control

/-!
# Engine — the audio thread

Command handling, the routing table, the two executors' pieces, mixing to the master and the
reap pass.
-/

namespace Xrune

/-! ### Buffers across instances -/

namespace InstanceManager

variable {α : Type} [Sample α]

/-- `zero_input_terminals`. -/
def zeroInputTerminals (m : InstanceManager α) (slot nf : Nat) : InstanceManager α :=
  m.modifyInst slot fun g =>
    (List.range g.inputTerminalCount).foldl (fun g t =>
      (List.range (g.inputTerminalChannels t)).foldl (fun g c =>
        (List.range nf).foldl (fun g i => g.write (g.inputTerminalView t c) i 0) g) g) g

/-- `view[i]` in the instance at `slot`. -/
def readAt (m : InstanceManager α) (slot : Nat) (v : BufferView) (i : Nat) : α :=
  match m.instanceAt slot with
  | some g => g.read v i
  | none   => 0

/-- `dv[i] += sv[i]`, the two views in two instances or in one. -/
def addSample (m : InstanceManager α) (src : Nat) (sv : BufferView) (dst : Nat)
    (dv : BufferView) (i : Nat) : InstanceManager α :=
  let x := m.readAt dst dv i + m.readAt src sv i
  m.modifyInst dst fun g => g.write dv i x

/-- `sum_terminal_to_instance`. -/
def sumTerminalToInstance (m : InstanceManager α) (src srcT dst dstT nf : Nat) :
    InstanceManager α :=
  match m.instanceAt src, m.instanceAt dst with
  | some gs, some gd =>
      let ch := min (gs.outputTerminalChannels srcT) (gd.inputTerminalChannels dstT)
      (List.range ch).foldl (fun m c =>
        let sv := gs.outputTerminalView srcT c
        let dv := gd.inputTerminalView dstT c
        (List.range nf).foldl (fun m i => m.addSample src sv dst dv i) m) m
  | _, _ => m

end InstanceManager

namespace Engine

variable {α : Type}

/-! ### Commands -/

/-- `route_live`. -/
def routeLive (e : Engine α) (r : ActiveRoute) : Bool :=
  if e.mgr.capacity ≤ r.srcSlot ∨ e.activeGen r.srcSlot ≠ r.srcGen then false
  else if r.toMaster then true
  else decide (r.dstSlot < e.mgr.capacity) && e.activeGen r.dstSlot == r.dstGen

/-- `add_route`. -/
def addRoute (e : Engine α) (cmd : CommandEvent α) : Engine α :=
  let src := cmd.handle
  if e.mgr.capacity ≤ src.slot ∨ e.activeGen src.slot ≠ src.generation then e
  else if e.routesCapacity ≤ e.routes.length then e
  else if cmd.dest.toMaster then
    { e with routes := e.routes ++ [⟨src.slot, src.generation, cmd.srcTerminal, true, 0, 0, 0⟩] }
  else
    let d := cmd.dest.inst
    if e.mgr.capacity ≤ d.slot ∨ e.activeGen d.slot ≠ d.generation then e
    else { e with routes := e.routes ++
      [⟨src.slot, src.generation, cmd.srcTerminal, false, d.slot, d.generation,
        cmd.dest.terminal⟩] }

/-- The routes `remove_route` erases. -/
def routeMatches (cmd : CommandEvent α) (r : ActiveRoute) : Bool :=
  if r.srcSlot ≠ cmd.handle.slot ∨ r.srcGen ≠ cmd.handle.generation then false
  else if r.srcTerminal ≠ cmd.srcTerminal ∨ r.toMaster ≠ cmd.dest.toMaster then false
  else if !r.toMaster then
    r.dstSlot == cmd.dest.inst.slot && r.dstGen == cmd.dest.inst.generation &&
      r.dstTerminal == cmd.dest.terminal
  else true

/-- `remove_route`. -/
def removeRoute (e : Engine α) (cmd : CommandEvent α) : Engine α :=
  { e with routes := e.routes.filter fun r => !routeMatches cmd r }

/-- `telemetry_queue.try_enqueue`: never grows the queue. -/
def tryEnqueueTelemetry (e : Engine α) (ev : TelemetryEvent) : Engine α :=
  if e.telemetryQueue.length < e.telemetryCapacity then
    { e with telemetryQueue := e.telemetryQueue ++ [ev] }
  else e

/-- `release_slot`. -/
def releaseSlot (e : Engine α) (slot : Nat) (why : EndReason) : Engine α :=
  tryEnqueueTelemetry
    { e with
      activeGen := Function.update e.activeGen slot 0
      activeList := e.activeList.erase slot
      routes := e.routes.filter fun r =>
        !(r.srcSlot == slot || (!r.toMaster && r.dstSlot == slot)) }
    ⟨slot, e.activeGen slot, why⟩

/-- One turn of `drain_commands`' loop, on the command it dequeued. -/
def drainCommand [Sample α] (e : Engine α) (cmd : CommandEvent α) : Engine α :=
  let slot := cmd.handle.slot
  match cmd.type with
  | .activate =>
      if slot < e.mgr.capacity ∧ e.activeGen slot = 0 then
        { e with
          activeGen := Function.update e.activeGen slot cmd.handle.generation
          activeList := e.activeList ++ [slot] }
      else e
  | .kill =>
      if slot < e.mgr.capacity ∧ e.activeGen slot = cmd.handle.generation then
        e.releaseSlot slot .killed
      else e
  | .setParameter =>
      if slot < e.mgr.capacity ∧ e.activeGen slot = cmd.handle.generation then
        { e with mgr := e.mgr.modifyInst slot fun g =>
            g.setParameter cmd.nodeIndex cmd.parameterIndex cmd.parameterValue }
      else e
  | .connect    => e.addRoute cmd
  | .disconnect => e.removeRoute cmd

/-! ### Executors -/

section Executors

variable [Sample α]

/-- `gather_inputs`' loop body: the route summed if it is live and ends at `slot`. -/
def gatherRoute (e : Engine α) (slot : Nat) (r : ActiveRoute) : Engine α :=
  if r.toMaster ∨ r.dstSlot ≠ slot ∨ !e.routeLive r then e
  else { e with mgr :=
    e.mgr.sumTerminalToInstance r.srcSlot r.srcTerminal slot r.dstTerminal e.parallelNf }

/-- `zero_input_terminals` on the slot being executed. -/
def zeroInputs (e : Engine α) (slot : Nat) : Engine α :=
  { e with mgr := e.mgr.zeroInputTerminals slot e.parallelNf }

/-- `gather_inputs`. -/
def gatherInputs (e : Engine α) (slot : Nat) : Engine α :=
  e.routes.foldl (fun e r => e.gatherRoute slot r) (e.zeroInputs slot)

/-- `g->process()`. -/
def processSlot (e : Engine α) (slot : Nat) : Engine α :=
  { e with mgr := e.mgr.modifyInst slot GraphInstance.process }

/-- The routes between instances the executors follow. -/
def feeds (e : Engine α) (r : ActiveRoute) : Bool := !r.toMaster && e.routeLive r

/-- The in-degrees of the live routing table, counted into `indeg_scratch` or `dep`: the
entries of the active slots start from 0, the others from what the table holds. -/
def inDegrees (e : Engine α) (d : Nat → Int) : Nat → Int :=
  e.routes.foldl (fun d r =>
    if e.feeds r then Function.update d r.dstSlot (d r.dstSlot + 1) else d)
    (e.activeList.foldl (fun d slot => Function.update d slot 0) d)

/-- `compute_order`'s inner loop body, at the slot `u` under its head. -/
def orderRoute (e : Engine α) (u : Nat) (acc : List Nat × (Nat → Int)) (r : ActiveRoute) :
    List Nat × (Nat → Int) :=
  if r.toMaster ∨ !e.routeLive r ∨ r.srcSlot ≠ u then acc
  else
    let d := acc.2 r.dstSlot - 1
    (if d = 0 then acc.1 ++ [r.dstSlot] else acc.1, Function.update acc.2 r.dstSlot d)

/-- `compute_order`'s outer loop, from `head` on. -/
def orderLoop (e : Engine α) :
    Nat → Nat → List Nat × (Nat → Int) → List Nat × (Nat → Int)
  | 0, _, acc => acc
  | fuel + 1, head, acc =>
      match acc.1[head]? with
      | none   => acc
      | some u => e.orderLoop fuel (head + 1) (e.routes.foldl (e.orderRoute u) acc)

/-- `compute_order`: the order it leaves in `order_scratch`, and `indeg_scratch`.  A slot is
appended when its counter reaches zero, so the loop's turns are bounded by the slots and the
routes. -/
def computeOrder (e : Engine α) : List Nat × (Nat → Int) :=
  let indeg := e.inDegrees e.indegScratch
  let seeds := e.activeList.filter fun slot => indeg slot == 0
  let acc := e.orderLoop (e.activeList.length + e.routes.length) 0 (seeds, indeg)
  if acc.1.length < e.activeList.length then
    (acc.1 ++ e.activeList.filter fun slot => decide (0 < acc.2 slot), acc.2)
  else acc

/-- One turn of `compute_sequential`'s loop. -/
def executeSlot (e : Engine α) (slot : Nat) : Engine α :=
  (e.gatherInputs slot).processSlot slot

/-- `compute_sequential`. -/
def computeSequential (e : Engine α) : Engine α :=
  let order := e.computeOrder
  order.1.foldl executeSlot { e with indegScratch := order.2 }

/-- `compute_parallel` up to its seeding loop. -/
def beginParallel (e : Engine α) : Engine α :=
  { e with
    pool := { e.pool with
      dep := e.inDegrees e.pool.dep
      tasksRemaining := e.activeList.length
      blockActive := true
      processed := [] }
    phase := .seeding e.activeList }

/-! ### Mixing and reaping -/

/-- The master channels filled with zeros. -/
def clearMaster (e : Engine α) : Engine α :=
  { e with masterBuffers := e.masterBuffers.map fun _ => List.replicate e.blockSize 0 }

/-- `master_buffers[c][i] += sv[i]`. -/
def addToMaster (e : Engine α) (src : Nat) (sv : BufferView) (c i : Nat) : Engine α :=
  { e with masterBuffers := e.masterBuffers.modify c fun b =>
      b.modify i fun x => x + e.mgr.readAt src sv i }

/-- `sum_terminal_to_master`. -/
def sumTerminalToMaster (e : Engine α) (src srcT : Nat) : Engine α :=
  match e.mgr.instanceAt src with
  | none   => e
  | some g =>
      (List.range (min (g.outputTerminalChannels srcT) e.outputChannels)).foldl (fun e c =>
        (List.range e.parallelNf).foldl
          (fun e i => e.addToMaster src (g.outputTerminalView srcT c) c i) e) e

/-- The single-threaded sum of the live master routes. -/
def sumToMaster (e : Engine α) : Engine α :=
  e.routes.foldl (fun e r =>
    if !r.toMaster ∨ !e.routeLive r then e else e.sumTerminalToMaster r.srcSlot r.srcTerminal) e

/-- `terminal_peak`. -/
def terminalPeak (g : GraphInstance α) (nf : Nat) : α :=
  if g.outputTerminalCount = 0 then 0
  else
    (List.range (g.outputTerminalChannels 0)).foldl (fun p c =>
      (List.range nf).foldl (fun p i =>
        Sample.max p (Sample.fabs (g.read (g.outputTerminalView 0 c) i))) p) 0

/-- `should_reap`: the reason, if any, and the slot's counters after the check. -/
def shouldReap (s : InstanceSlot α) (g : GraphInstance α) (blockPeak : α) :
    Option EndReason × InstanceSlot α :=
  if g.finishedFlag then (some .finished, s)
  else
    let s := { s with ageBlocks := s.ageBlocks + 1 }
    match s.life.kind with
    | .permanent     => (none, s)
    | .timed         => (if s.life.ttlBlocks ≤ s.ageBlocks then some .timedOut else none, s)
    | .untilFinished => (none, s)
    | .untilSilent   =>
        let quiet := Sample.lt blockPeak s.life.silenceThreshold
        let s := { s with silentRun := if quiet then s.silentRun + 1 else 0 }
        (if s.life.silenceBlocks ≤ s.silentRun then some .silent else none, s)

/-- `reap_pass`' first loop body: the slot's counters advance, and it is listed if its life is
over. -/
def reapCheck (e : Engine α) (acc : Slots α × List (Nat × EndReason)) (slot : Nat) :
    Slots α × List (Nat × EndReason) :=
  let s := acc.1 slot
  match s.inst with
  | none   => acc
  | some g =>
      let r := shouldReap s g (terminalPeak g e.parallelNf)
      (Function.update acc.1 slot r.2,
        match r.1 with
        | some why => acc.2 ++ [(slot, why)]
        | none     => acc.2)

/-- The deterministic finish of `process()`: the sum to the master and `reap_pass` up to its
second loop. -/
def finishBlock (e : Engine α) : Engine α :=
  let e := e.sumToMaster
  let scan := e.activeList.foldl e.reapCheck (e.mgr.slots, [])
  { e with mgr := { e.mgr with slots := scan.1 }, phase := .reaping scan.2 }

/-- The interleaved frames `process()` writes out. -/
def interleave (e : Engine α) : List α :=
  (List.range e.nFrames).flatMap fun i =>
    (List.range e.outputChannels).map fun ch =>
      if i < e.parallelNf then (e.masterBuffers.getD ch []).getD i 0 else 0

end Executors

end Engine

end Xrune
