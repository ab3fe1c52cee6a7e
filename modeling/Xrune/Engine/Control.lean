import Xrune.Engine.State

/-!
# Engine — the control thread

`spawn`, `kill`, `set_parameter`, `connect`, `disconnect` and `reclaim`.  Each call but `spawn`
and `reclaim` is one `enqueue`.  `reclaim` is a loop of `try_dequeue`s, and `spawn` is a
`reclaim` followed by `create`, an `enqueue` of the activation and one of the connection; the
machine interleaves them step by step, so they are given here in pieces.
-/

namespace Xrune

namespace CommandEvent

variable {α : Type} [Sample α]

def activate (h : InstanceHandle) : CommandEvent α :=
  ⟨.activate, h, 0, 0, 0, 0, .master⟩

/-- `engine::kill`'s command. -/
def kill (h : InstanceHandle) : CommandEvent α :=
  ⟨.kill, h, 0, 0, 0, 0, .master⟩

/-- `engine::set_parameter`'s command. -/
def setParameter (h : InstanceHandle) (node param : Nat) (value : α) : CommandEvent α :=
  ⟨.setParameter, h, node, param, value, 0, .master⟩

/-- `engine::connect`'s command. -/
def connect (src : InstanceHandle) (srcTerminal : Nat) (dest : RouteTarget) : CommandEvent α :=
  ⟨.connect, src, 0, 0, 0, srcTerminal, dest⟩

/-- `engine::disconnect`'s command. -/
def disconnect (src : InstanceHandle) (srcTerminal : Nat) (dest : RouteTarget) :
    CommandEvent α :=
  ⟨.disconnect, src, 0, 0, 0, srcTerminal, dest⟩

end CommandEvent

namespace Engine

variable {α : Type}

/-- `command_queue.enqueue`. -/
def enqueue (e : Engine α) (cmd : CommandEvent α) : Engine α :=
  { e with commandQueue := e.commandQueue ++ [cmd] }

/-- One turn of `reclaim`'s loop: the end record it dequeues, and the slot recycled. -/
def reclaimOne (e : Engine α) : Option (VoiceEnd × Engine α) :=
  match e.telemetryQueue with
  | [] => none
  | ev :: rest =>
      some (⟨⟨ev.slot, ev.generation⟩, ev.reason⟩,
        { e with telemetryQueue := rest, mgr := e.mgr.recycle ev.slot })

/-- `spawn` between its `reclaim()` and its last `enqueue`: the instance is created, its ports
initialised, and its activation enqueued. -/
def create [Sample α] (e : Engine α) (sched : CompiledSchedule α) (life : LifetimePolicy α)
    (init : List (InitialParam α)) : Option (InstanceHandle × Engine α) :=
  match e.mgr.create sched e.sampleRate life with
  | none => none
  | some (h, mgr) =>
      let mgr := mgr.modifyInst h.slot fun g =>
        init.foldl (fun g ip => g.initParameter ip.node ip.param ip.value) g
      some (h, { e with mgr := mgr }.enqueue (.activate h))

/-- The connection `spawn` enqueues last, when the blueprint has the source terminal. -/
def spawnConnect [Sample α] (sched : CompiledSchedule α) (h : InstanceHandle)
    (srcTerminal : Nat) (dest : RouteTarget) : List (CommandEvent α) :=
  if srcTerminal < sched.bp.outputTerminals.length then [.connect h srcTerminal dest] else []

/-- `engine::is_valid`. -/
def isValid (e : Engine α) (h : InstanceHandle) : Bool := e.mgr.isValid h

end Engine

end Xrune
