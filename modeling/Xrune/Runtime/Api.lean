import Xrune.Engine.Machine

/-!
# Runtime — the public API

The control thread's calls on a registry of compiled blueprints and an engine.  Each call first
resolves names and refuses what it cannot resolve; what is left of it is a sequence of
operations on the two queues, which other threads' steps fall between.  `Call` is what the
control thread has still to do of the call it is in.

`pump` fires the callback once for each record it took out of the telemetry queue, after it has
taken them all.  The callback may call the API again, `pump` excepted, so the records still to
deliver are part of the state, and so is whether the callback is running.
-/

namespace Xrune

/-! ### Voices -/

def invalidBlueprint : Nat := 0xFFFFFFFF

/-- A spawned instance, with the blueprint it was spawned from. -/
structure Voice where
  handle : InstanceHandle
  blueprint : Nat
  deriving DecidableEq, Repr

def Voice.valid (v : Voice) : Bool := v.handle.valid && v.blueprint != invalidBlueprint

def noVoice : Voice := ⟨nullHandle, invalidBlueprint⟩

/-- A voice that has ended, as the callback receives it. -/
structure VoiceEvent where
  v : Voice
  reason : EndReason
  deriving DecidableEq, Repr

structure SpawnOptions (α : Type) where
  life : LifetimePolicy α
  into : Voice := noVoice
  intoTerminal : String := "in"
  fromTerminal : String := "out"
  params : List (String × α) := []

/-- A registered blueprint; its topology is `sched.bp`. -/
structure Registered (α : Type) where
  name : String
  sched : CompiledSchedule α

/-- A pre-resolved parameter address. -/
structure ParamRef where
  node : Nat
  port : Nat
  deriving DecidableEq, Repr

/-- What `runtime::spawn` hands to `engine::spawn`, resolved. -/
structure SpawnPlan (α : Type) where
  id : Nat
  sched : CompiledSchedule α
  life : LifetimePolicy α
  dest : RouteTarget
  srcTerminal : Nat
  init : List (InitialParam α)

/-- What the control thread has still to do of the call it is in: nothing; `engine::spawn` from
its `reclaim()` on; these `enqueue`s; the `reclaim` of `pump`. -/
inductive Call (α : Type) where
  | idle
  | spawning (plan : SpawnPlan α)
  | sending (cmds : List (CommandEvent α))
  | pumping

/-- `voiceEndCb` says that a callback is installed, `inCallback` that it is running. -/
structure Runtime (α : Type) where
  registry : List (Registered α)
  eng : Engine α
  err : String
  slotBlueprint : List Nat
  voiceEndCb : Bool
  endedScratch : List VoiceEnd
  call : Call α
  inCallback : Bool

namespace Runtime

variable {α : Type}

/-- `init` and `start`, with the callback installed or not. -/
def init [Sample α] (cfg : EngineConfig) (voiceEndCb : Bool) : Option (Runtime α) :=
  (Engine.init cfg).map fun eng => ⟨[], eng, "", [], voiceEndCb, [], .idle, false⟩

/-! ### Resolution -/

/-- `get`. -/
def get (rt : Runtime α) (id : Nat) : Except String (Registered α) :=
  match rt.registry[id]? with
  | some r => .ok r
  | none   => .error "unknown blueprint id"

/-- `resolve`, the error being what it leaves in `err`. -/
def resolve (rt : Runtime α) (id : Nat) (node port : String) : Except String ParamRef := do
  let r ← rt.get id
  match r.sched.bp.findNode node with
  | none   => .error ("resolve: unknown node: " ++ node)
  | some n =>
      match r.sched.bp.findParam n port with
      | none   => .error ("resolve: unknown port: " ++ node ++ "." ++ port)
      | some p => .ok ⟨n, p⟩

/-- `resolve_out_term`. -/
def resolveOutTerm (rt : Runtime α) (src : Voice) (name : String) : Except String Nat :=
  match rt.get src.blueprint with
  | .error _ => .error "route: invalid source voice"
  | .ok r =>
      if !src.valid then .error "route: invalid source voice"
      else
        match r.sched.bp.findOutputTerminal name with
        | none   => .error ("route: unknown output terminal: " ++ name)
        | some t => .ok t

/-- `resolve_route`: the source terminal and the destination. -/
def resolveRoute (rt : Runtime α) (src dst : Voice) (dstTerminal srcTerminal : String) :
    Except String (Nat × RouteTarget) := do
  let st ← rt.resolveOutTerm src srcTerminal
  match rt.get dst.blueprint with
  | .error _ => .error "route: invalid destination voice"
  | .ok rd =>
      if !dst.valid then .error "route: invalid destination voice"
      else
        match rd.sched.bp.findInputTerminal dstTerminal with
        | none    => .error ("route: unknown input terminal: " ++ dstTerminal)
        | some dt => .ok (st, .to dst.handle dt)

/-- The port writes of one rune-parameter override of `spawn`. -/
def spawnParam (bp : GraphBlueprint α) (kv : String × α) : Except String (List (InitialParam α)) :=
  match bp.findRuneParam kv.1 with
  | none    => .error ("spawn: unknown rune parameter '" ++ kv.1 ++ "'")
  | some pi =>
      let targets := (bp.params[pi]?.map BlueprintParam.targets).getD []
      if targets.isEmpty then
        .error ("spawn: rune parameter '" ++ kv.1 ++ "' drives no port " ++
          "(it is only used inside an expression, so it was folded at compile time)")
      else .ok (targets.map fun tg => ⟨tg.node, tg.port, kv.2⟩)

/-- The output terminal `spawn` connects. -/
def spawnSource (bp : GraphBlueprint α) (opt : SpawnOptions α) : Except String Nat :=
  if bp.outputTerminals.isEmpty then .ok 0
  else
    match bp.findOutputTerminal opt.fromTerminal with
    | none   => .error ("spawn: unknown output terminal: " ++ opt.fromTerminal)
    | some t => .ok t

/-- Where `spawn` connects it to. -/
def spawnDest (rt : Runtime α) (opt : SpawnOptions α) : Except String RouteTarget :=
  if opt.into.valid then do
    let rd ← rt.get opt.into.blueprint
    match rd.sched.bp.findInputTerminal opt.intoTerminal with
    | none    => .error ("spawn: unknown input terminal: " ++ opt.intoTerminal)
    | some dt =>
        if rt.eng.isValid opt.into.handle then .ok (.to opt.into.handle dt)
        else .error "spawn: destination voice is not alive"
  else .ok .master

/-- `spawn` up to its call of `engine::spawn`. -/
def planSpawn (rt : Runtime α) (id : Nat) (opt : SpawnOptions α) :
    Except String (SpawnPlan α) := do
  let r ← rt.get id
  let srcTerminal ← spawnSource r.sched.bp opt
  let dest ← rt.spawnDest opt
  let writes ← opt.params.mapM (spawnParam r.sched.bp)
  .ok ⟨id, r.sched, opt.life, dest, srcTerminal, writes.flatten⟩

section Calls

variable [Sample α]

/-- The commands of `set_param`. -/
def setParamCommands (rt : Runtime α) (v : Voice) (name : String) (value : α) :
    Except String (List (CommandEvent α)) :=
  if !v.valid then .error "set_param: invalid voice"
  else do
    let r ← rt.get v.blueprint
    match r.sched.bp.findRuneParam name with
    | none    => .error ("set_param: unknown rune parameter '" ++ name ++ "'")
    | some pi =>
        let targets := (r.sched.bp.params[pi]?.map BlueprintParam.targets).getD []
        if targets.isEmpty then
          .error ("set_param: rune parameter '" ++ name ++ "' drives no port")
        else .ok (targets.map fun tg => .setParameter v.handle tg.node tg.port value)

/-- The commands of `set`. -/
def setCommands (rt : Runtime α) (v : Voice) (node port : String) (value : α) :
    Except String (List (CommandEvent α)) := do
  let p ← rt.resolve v.blueprint node port
  if !v.valid then .error "set: invalid voice or param"
  else .ok [.setParameter v.handle p.node p.port value]

/-- The calls that end in `enqueue`s. -/
inductive Request (α : Type) where
  | kill (v : Voice)
  | set (v : Voice) (node port : String) (value : α)
  | setParam (v : Voice) (name : String) (value : α)
  | route (src dst : Voice) (dstTerminal srcTerminal : String)
  | unroute (src dst : Voice) (dstTerminal srcTerminal : String)
  | routeToMaster (src : Voice) (srcTerminal : String)
  | unrouteFromMaster (src : Voice) (srcTerminal : String)

/-- The voices a call is given. -/
def Request.voices : Request α → List Voice
  | .kill v | .set v _ _ _ | .setParam v _ _ => [v]
  | .route src dst _ _ | .unroute src dst _ _ => [src, dst]
  | .routeToMaster src _ | .unrouteFromMaster src _ => [src]

/-- The commands a call enqueues, or the error it leaves. -/
def commands (rt : Runtime α) : Request α → Except String (List (CommandEvent α))
  | .kill v => .ok (if v.valid then [.kill v.handle] else [])
  | .set v node port value => rt.setCommands v node port value
  | .setParam v name value => rt.setParamCommands v name value
  | .route src dst dstT srcT => do
      let (st, t) ← rt.resolveRoute src dst dstT srcT
      .ok [.connect src.handle st t]
  | .unroute src dst dstT srcT => do
      let (st, t) ← rt.resolveRoute src dst dstT srcT
      .ok [.disconnect src.handle st t]
  | .routeToMaster src srcT => do
      let st ← rt.resolveOutTerm src srcT
      .ok [.connect src.handle st .master]
  | .unrouteFromMaster src srcT => do
      let st ← rt.resolveOutTerm src srcT
      .ok [.disconnect src.handle st .master]

end Calls

/-! ### Steps -/

/-- `slot_blueprint`'s entry, `invalid_blueprint` past its end. -/
def blueprintOf (rt : Runtime α) (slot : Nat) : Nat := rt.slotBlueprint.getD slot invalidBlueprint

/-- `slot_blueprint` resized to hold the slot, and set. -/
def setBlueprint (table : List Nat) (slot id : Nat) : List Nat :=
  (table ++ List.replicate (slot + 1 - table.length) invalidBlueprint).set slot id

/-- The event `pump` builds for a record, when it comes to it. -/
def eventOf (rt : Runtime α) (e : VoiceEnd) : VoiceEvent :=
  ⟨⟨e.handle, rt.blueprintOf e.handle.slot⟩, e.reason⟩

/-- The API may be called: from the main flow, or from the callback. -/
def mayCall (rt : Runtime α) : Bool :=
  match rt.call with
  | .idle => rt.inCallback || rt.endedScratch.isEmpty
  | _     => false

/-- What a step lets the host see: the voice `spawn` returned, a record `pump` took out of the
queue, the event the callback was called with. -/
inductive Output where
  | silent
  | spawned (v : Voice)
  | collected (e : VoiceEnd)
  | event (ev : VoiceEvent)
  deriving DecidableEq, Repr

end Runtime

/-- `advance` is the next operation of the call the control thread is in; `deliver` the next
turn of `pump`'s loop, when the callback has returned from the last; `finishPump` its end. -/
inductive RuntimeAction (α : Type) where
  | register (name : String) (sched : CompiledSchedule α)
  | spawn (id : Nat) (opt : SpawnOptions α)
  | request (r : Runtime.Request α)
  | pump
  | advance
  | deliver
  | finishPump
  | audio (a : EngineAction α)

/-- The steps that are not the control thread's. -/
def EngineAction.isAudio {α : Type} : EngineAction α → Bool
  | .reclaim | .create _ _ _ | .enqueue _ | .raiseFinished _ => false
  | _ => true

namespace Runtime

variable {α : Type} [Sample α]

/-- The next operation of the call the control thread is in. -/
def advance (rt : Runtime α) : Option (Runtime α × Output) :=
  match rt.call with
  | .idle => none
  | .spawning plan =>
      match rt.eng.reclaimOne with
      | some (_, eng) => some ({ rt with eng := eng }, .silent)
      | none =>
          match rt.eng.create plan.sched plan.life plan.init with
          | none => some
              ({ rt with err := "spawn: instance pool exhausted", call := .idle },
                .spawned noVoice)
          | some (h, eng) => some
              ({ rt with
                 eng := eng
                 slotBlueprint := setBlueprint rt.slotBlueprint h.slot plan.id
                 call := .sending
                  (Engine.spawnConnect plan.sched h plan.srcTerminal plan.dest) },
                .spawned ⟨h, plan.id⟩)
  | .sending [] => some ({ rt with call := .idle }, .silent)
  | .sending (cmd :: cmds) =>
      some ({ rt with eng := rt.eng.enqueue cmd, call := .sending cmds }, .silent)
  | .pumping =>
      match rt.eng.reclaimOne with
      | some (e, eng) =>
          if rt.voiceEndCb then
            some ({ rt with eng := eng, endedScratch := rt.endedScratch ++ [e] }, .collected e)
          else some ({ rt with eng := eng }, .silent)
      | none => some ({ rt with call := .idle }, .silent)

def step (rt : Runtime α) : RuntimeAction α → Option (Runtime α × Output)
  | .register name sched =>
      if rt.mayCall && sched.ok then
        some ({ rt with registry := rt.registry ++ [⟨name, sched⟩] }, .silent)
      else none
  | .spawn id opt =>
      if rt.mayCall then
        match rt.planSpawn id opt with
        | .error msg => some ({ rt with err := msg }, .spawned noVoice)
        | .ok plan   => some ({ rt with call := .spawning plan }, .silent)
      else none
  | .request r =>
      if rt.mayCall then
        match rt.commands r with
        | .error msg => some ({ rt with err := msg }, .silent)
        | .ok cmds   => some ({ rt with call := .sending cmds }, .silent)
      else none
  | .pump =>
      if rt.mayCall && !rt.inCallback then
        some ({ rt with endedScratch := [], call := .pumping }, .silent)
      else none
  | .advance => rt.advance
  | .deliver =>
      match rt.call, rt.endedScratch with
      | .idle, e :: rest =>
          some ({ rt with endedScratch := rest, inCallback := true }, .event (rt.eventOf e))
      | _, _ => none
  | .finishPump =>
      match rt.call, rt.endedScratch with
      | .idle, [] => if rt.inCallback then some ({ rt with inCallback := false }, .silent) else none
      | _, _ => none
  | .audio a =>
      if a.isAudio then (rt.eng.step a).map fun eng => ({ rt with eng := eng }, .silent) else none

/-! ### What a step of the runtime can do -/

/-- What a step can do, one constructor for each way through the step function. -/
inductive Stepped (rt : Runtime α) : RuntimeAction α → Runtime α → Output → Prop where
  | register {name : String} {sched : CompiledSchedule α} (may : rt.mayCall = true)
      (ok : sched.ok = true) :
      Stepped rt (.register name sched)
        { rt with registry := rt.registry ++ [⟨name, sched⟩] } .silent
  | spawnRefused {id : Nat} {opt : SpawnOptions α} {msg : String} (may : rt.mayCall = true)
      (plan : rt.planSpawn id opt = .error msg) :
      Stepped rt (.spawn id opt) { rt with err := msg } (.spawned noVoice)
  | spawn {id : Nat} {opt : SpawnOptions α} {plan : SpawnPlan α} (may : rt.mayCall = true)
      (ok : rt.planSpawn id opt = .ok plan) :
      Stepped rt (.spawn id opt) { rt with call := .spawning plan } .silent
  | requestRefused {r : Request α} {msg : String} (may : rt.mayCall = true)
      (cmds : rt.commands r = .error msg) :
      Stepped rt (.request r) { rt with err := msg } .silent
  | request {r : Request α} {cmds : List (CommandEvent α)} (may : rt.mayCall = true)
      (ok : rt.commands r = .ok cmds) :
      Stepped rt (.request r) { rt with call := .sending cmds } .silent
  | pump (may : rt.mayCall = true) (main : rt.inCallback = false) :
      Stepped rt .pump { rt with endedScratch := [], call := .pumping } .silent
  | spawnReclaims {plan : SpawnPlan α} {v : VoiceEnd} {eng : Engine α}
      (call : rt.call = .spawning plan) (ok : rt.eng.reclaimOne = some (v, eng)) :
      Stepped rt .advance { rt with eng := eng } .silent
  | spawnFull {plan : SpawnPlan α} (call : rt.call = .spawning plan)
      (drained : rt.eng.reclaimOne = none)
      (full : rt.eng.create plan.sched plan.life plan.init = none) :
      Stepped rt .advance
        { rt with err := "spawn: instance pool exhausted", call := .idle } (.spawned noVoice)
  | spawnCreates {plan : SpawnPlan α} {h : InstanceHandle} {eng : Engine α}
      (call : rt.call = .spawning plan) (drained : rt.eng.reclaimOne = none)
      (ok : rt.eng.create plan.sched plan.life plan.init = some (h, eng)) :
      Stepped rt .advance
        { rt with
          eng := eng
          slotBlueprint := setBlueprint rt.slotBlueprint h.slot plan.id
          call := .sending (Engine.spawnConnect plan.sched h plan.srcTerminal plan.dest) }
        (.spawned ⟨h, plan.id⟩)
  | sent (call : rt.call = .sending []) : Stepped rt .advance { rt with call := .idle } .silent
  | send {cmd : CommandEvent α} {cmds : List (CommandEvent α)}
      (call : rt.call = .sending (cmd :: cmds)) :
      Stepped rt .advance { rt with eng := rt.eng.enqueue cmd, call := .sending cmds } .silent
  | collects {e : VoiceEnd} {eng : Engine α} (call : rt.call = .pumping)
      (ok : rt.eng.reclaimOne = some (e, eng)) (cb : rt.voiceEndCb = true) :
      Stepped rt .advance
        { rt with eng := eng, endedScratch := rt.endedScratch ++ [e] } (.collected e)
  | discards {e : VoiceEnd} {eng : Engine α} (call : rt.call = .pumping)
      (ok : rt.eng.reclaimOne = some (e, eng)) (cb : rt.voiceEndCb = false) :
      Stepped rt .advance { rt with eng := eng } .silent
  | collected (call : rt.call = .pumping) (drained : rt.eng.reclaimOne = none) :
      Stepped rt .advance { rt with call := .idle } .silent
  | deliver {e : VoiceEnd} {rest : List VoiceEnd} (call : rt.call = .idle)
      (scratch : rt.endedScratch = e :: rest) :
      Stepped rt .deliver { rt with endedScratch := rest, inCallback := true }
        (.event (rt.eventOf e))
  | finishPump (call : rt.call = .idle) (scratch : rt.endedScratch = [])
      (running : rt.inCallback = true) :
      Stepped rt .finishPump { rt with inCallback := false } .silent
  | audio {a : EngineAction α} {eng : Engine α} (thread : a.isAudio = true)
      (ok : rt.eng.step a = some eng) :
      Stepped rt (.audio a) { rt with eng := eng } .silent

theorem advance_cases {rt : Runtime α} {r : Runtime α × Output} (h : rt.advance = some r) :
    Stepped rt .advance r.1 r.2 := by
  unfold advance at h
  split at h
  · cases h
  · split at h
    · obtain rfl := Option.some.inj h
      exact .spawnReclaims ‹_› ‹_›
    · split at h
      · obtain rfl := Option.some.inj h
        exact .spawnFull ‹_› ‹_› ‹_›
      · obtain rfl := Option.some.inj h
        exact .spawnCreates ‹_› ‹_› ‹_›
  · obtain rfl := Option.some.inj h
    exact .sent ‹_›
  · obtain rfl := Option.some.inj h
    exact .send ‹_›
  · split at h
    · split at h
      · obtain rfl := Option.some.inj h
        exact .collects ‹_› ‹_› ‹_›
      next hcb =>
        obtain rfl := Option.some.inj h
        exact .discards ‹_› ‹_› (by simpa using hcb)
    · obtain rfl := Option.some.inj h
      exact .collected ‹_› ‹_›

theorem step_cases {rt : Runtime α} {a : RuntimeAction α} {r : Runtime α × Output}
    (h : rt.step a = some r) : Stepped rt a r.1 r.2 := by
  cases a with
  | register name sched =>
      simp only [step, Option.ite_none_right_eq_some, Bool.and_eq_true] at h
      obtain ⟨⟨may, ok⟩, h⟩ := h
      obtain rfl := Option.some.inj h
      exact .register may ok
  | spawn id opt =>
      simp only [step, Option.ite_none_right_eq_some] at h
      obtain ⟨may, h⟩ := h
      split at h
      · obtain rfl := Option.some.inj h
        exact .spawnRefused may ‹_›
      · obtain rfl := Option.some.inj h
        exact .spawn may ‹_›
  | request r =>
      simp only [step, Option.ite_none_right_eq_some] at h
      obtain ⟨may, h⟩ := h
      split at h
      · obtain rfl := Option.some.inj h
        exact .requestRefused may ‹_›
      · obtain rfl := Option.some.inj h
        exact .request may ‹_›
  | pump =>
      simp only [step, Option.ite_none_right_eq_some, Bool.and_eq_true,
        Bool.not_eq_true'] at h
      obtain ⟨⟨may, main⟩, h⟩ := h
      obtain rfl := Option.some.inj h
      exact .pump may main
  | advance => exact advance_cases h
  | deliver =>
      simp only [step] at h
      split at h
      · obtain rfl := Option.some.inj h
        exact .deliver ‹_› ‹_›
      · cases h
  | finishPump =>
      simp only [step] at h
      split at h
      · simp only [Option.ite_none_right_eq_some] at h
        obtain ⟨running, h⟩ := h
        obtain rfl := Option.some.inj h
        exact .finishPump ‹_› ‹_› running
      · cases h
  | audio a =>
      simp only [step, Option.ite_none_right_eq_some] at h
      obtain ⟨thread, h⟩ := h
      obtain ⟨eng, ok, rfl⟩ := Option.map_eq_some_iff.mp h
      exact .audio thread ok

end Runtime

end Xrune
