import Xrune.Core.Instance

/-!
# Engine — state

The slot pool, the two queues between the control thread and the audio thread, the tables the
audio thread keeps of what is active and how it is routed, and the worker pool.

Tables of fixed size `max_instances` (`slots`, `active_gen`, `dep`) are functions of the slot
index, with `capacity` the size; the stack `free_slots` is a list whose head is its back.  Slot
indices are `uint32_t`: a pool has at most `2^32` slots (`EngineConfig.slotsFit`).  Generations
wrap at `2^32`, past the reserved `0`.

A thread's program counter is part of the state, so that a step of the machine is one shared
access of the source: one queue operation, one counter operation, or one pass over memory that
no other thread touches.
-/

namespace Xrune

/-- Stable reference to a spawned instance; generation 0 is the null handle's. -/
structure InstanceHandle where
  slot : Nat
  generation : Nat
  deriving DecidableEq, Repr

def nullHandle : InstanceHandle := ⟨0, 0⟩

def InstanceHandle.valid (h : InstanceHandle) : Bool := h.generation != 0

inductive LifetimeKind where
  | permanent | timed | untilFinished | untilSilent
  deriving DecidableEq, Repr

structure LifetimePolicy (α : Type) where
  kind : LifetimeKind
  ttlBlocks : Nat
  silenceThreshold : α
  silenceBlocks : Nat

structure InstanceSlot (α : Type) where
  inst : Option (GraphInstance α)
  generation : Nat
  life : LifetimePolicy α
  ageBlocks : Nat
  silentRun : Nat

/-- The slot table. -/
abbrev Slots (α : Type) := Nat → InstanceSlot α

/-! ### The slot pool -/

structure InstanceManager (α : Type) where
  capacity : Nat
  slots : Slots α
  freeSlots : List Nat
  nextGeneration : Nat

/-- `next_generation++`, past the reserved 0. -/
def bumpGeneration (g : Nat) : Nat :=
  if (g + 1) % 2 ^ 32 = 0 then 1 else (g + 1) % 2 ^ 32

namespace InstanceManager

variable {α : Type}

/-- `create`: build an instance into the slot at the back of the free list. -/
def create [Sample α] (m : InstanceManager α) (sched : CompiledSchedule α) (sampleRate : Nat)
    (life : LifetimePolicy α) : Option (InstanceHandle × InstanceManager α) :=
  match m.freeSlots with
  | [] => none
  | idx :: rest =>
      match instantiate sched sampleRate with
      | none => none
      | some inst => some
          (⟨idx, m.nextGeneration⟩,
           { m with
             slots := Function.update m.slots idx ⟨some inst, m.nextGeneration, life, 0, 0⟩
             freeSlots := rest
             nextGeneration := bumpGeneration m.nextGeneration })

/-- `recycle`: destroy the instance and return the slot to the pool. -/
def recycle (m : InstanceManager α) (idx : Nat) : InstanceManager α :=
  if m.capacity ≤ idx then m
  else { m with
         slots := Function.update m.slots idx { m.slots idx with inst := none }
         freeSlots := idx :: m.freeSlots }

/-- `is_valid`, the control side's query. -/
def isValid (m : InstanceManager α) (h : InstanceHandle) : Bool :=
  h.valid && decide (h.slot < m.capacity) && (m.slots h.slot).generation == h.generation &&
    (m.slots h.slot).inst.isSome

/-- `instance_at`. -/
def instanceAt (m : InstanceManager α) (slot : Nat) : Option (GraphInstance α) :=
  if slot < m.capacity then (m.slots slot).inst else none

/-- What the pointer of `instance_at(slot)` is used for: `f` on the slot's instance, if any. -/
def modifyInst (m : InstanceManager α) (slot : Nat) (f : GraphInstance α → GraphInstance α) :
    InstanceManager α :=
  { m with slots :=
      Function.update m.slots slot { m.slots slot with inst := (m.slots slot).inst.map f } }

end InstanceManager

/-! ### Commands and events -/

structure RouteTarget where
  toMaster : Bool
  inst : InstanceHandle
  terminal : Nat
  deriving DecidableEq, Repr

def RouteTarget.master : RouteTarget := ⟨true, nullHandle, 0⟩
def RouteTarget.to (h : InstanceHandle) (terminal : Nat) : RouteTarget := ⟨false, h, terminal⟩

inductive CommandType where
  | activate | kill | setParameter | connect | disconnect
  deriving DecidableEq, Repr

structure CommandEvent (α : Type) where
  type : CommandType
  handle : InstanceHandle
  nodeIndex : Nat
  parameterIndex : Nat
  parameterValue : α
  srcTerminal : Nat
  dest : RouteTarget

inductive EndReason where
  | killed | finished | timedOut | silent
  deriving DecidableEq, Repr

structure TelemetryEvent where
  slot : Nat
  generation : Nat
  reason : EndReason
  deriving DecidableEq, Repr

/-- A voice that ended, as reported by `reclaim`. -/
structure VoiceEnd where
  handle : InstanceHandle
  reason : EndReason
  deriving DecidableEq, Repr

structure ActiveRoute where
  srcSlot : Nat
  srcGen : Nat
  srcTerminal : Nat
  toMaster : Bool
  dstSlot : Nat
  dstGen : Nat
  dstTerminal : Nat
  deriving DecidableEq, Repr

/-- A port value to write at spawn time. -/
structure InitialParam (α : Type) where
  node : Nat
  param : Nat
  value : α

/-! ### The worker pool -/

/-- Where a thread is inside `execute_instance_task(slot)`: about to zero the input terminals;
gathering, with these routes still to look at; about to `process()`; releasing, with these
routes still to look at; about to push a slot whose counter it brought to zero; about to
decrement `tasks_remaining`. -/
inductive TaskPc where
  | zero
  | gather (rest : List ActiveRoute)
  | process
  | release (rest : List ActiveRoute)
  | push (dst : Nat) (rest : List ActiveRoute)
  | finish
  deriving DecidableEq, Repr

/-- A thread of the pool: outside its loop's body, past the loop's test and about to `pop`, or
executing a task. -/
inductive ThreadState where
  | idle
  | polling
  | running (slot : Nat) (pc : TaskPc)
  deriving DecidableEq, Repr

/-- The worker pool and the block's counters.  Thread 0 is the audio thread, which takes part
in a block as a worker; threads `1 .. workers` are the pool's.  `processed` is history, not
state of the source: the slots whose `process()` ran in this block, in order. -/
structure WorkerPool where
  workers : Nat
  queueCapacity : Nat
  queue : List Nat
  blockActive : Bool
  tasksRemaining : Int
  dep : Nat → Int
  threads : Nat → ThreadState
  processed : List Nat

/-- `next_pow2`: the smallest power of two at least `n`. -/
def nextPow2 (n : Nat) : Nat := 2 ^ Nat.clog 2 n

/-- `queue.push`, which drops the slot when the ring is full. -/
def WorkerPool.pushReady (p : WorkerPool) (slot : Nat) : WorkerPool :=
  if p.queue.length < p.queueCapacity then { p with queue := p.queue ++ [slot] } else p

/-! ### The engine -/

/-- Where the audio thread is inside `process()`: outside; draining commands; in
`compute_parallel`, seeding with these slots still to look at; in its drain loop; with the
instances computed; reaping these slots. -/
inductive AudioPhase where
  | outside
  | draining
  | seeding (rest : List Nat)
  | helping
  | computed
  | reaping (rest : List (Nat × EndReason))
  deriving DecidableEq, Repr

structure EngineConfig where
  sampleRate : Nat
  blockSize : Nat
  outputChannels : Nat
  maxInstances : Nat
  workers : Nat
  slotsFit : maxInstances ≤ 2 ^ 32

structure Engine (α : Type) where
  sampleRate : Nat
  blockSize : Nat
  outputChannels : Nat
  mgr : InstanceManager α
  activeGen : Nat → Nat
  activeList : List Nat
  routes : List ActiveRoute
  routesCapacity : Nat
  masterBuffers : List (List α)
  commandQueue : List (CommandEvent α)
  telemetryQueue : List TelemetryEvent
  telemetryCapacity : Nat
  pool : WorkerPool
  indegScratch : Nat → Int
  parallelNf : Nat
  nFrames : Nat
  phase : AudioPhase
  outBuf : List α

/-- `engine::init` followed by `engine::start`, with a backend that opens. -/
def Engine.init {α : Type} [Sample α] (cfg : EngineConfig) : Option (Engine α) :=
  if !isPowerOfTwo cfg.blockSize then none
  else some
    { sampleRate := cfg.sampleRate
      blockSize := cfg.blockSize
      outputChannels := cfg.outputChannels
      mgr :=
        { capacity := cfg.maxInstances
          slots := fun _ => ⟨none, 0, ⟨.permanent, 0, 1 / Sample.cast (10 ^ 5), 0⟩, 0, 0⟩
          freeSlots := List.range cfg.maxInstances
          nextGeneration := 1 }
      activeGen := fun _ => 0
      activeList := []
      routes := []
      routesCapacity := cfg.maxInstances * 4
      masterBuffers :=
        List.replicate cfg.outputChannels (List.replicate cfg.blockSize 0)
      commandQueue := []
      telemetryQueue := []
      telemetryCapacity := cfg.maxInstances * 4 + 16
      pool :=
        { workers := cfg.workers
          queueCapacity := nextPow2 (max cfg.maxInstances 2)
          queue := []
          blockActive := false
          tasksRemaining := 0
          dep := fun _ => 0
          threads := fun _ => .idle
          processed := [] }
      indegScratch := fun _ => 0
      parallelNf := 0
      nFrames := 0
      phase := .outside
      outBuf := [] }

end Xrune
