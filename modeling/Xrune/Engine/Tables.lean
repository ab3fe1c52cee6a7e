import Xrune.Engine.Machine

/-!
# Engine — tables

What decides which slot is whose: the pool's free list and generations, which slots hold an
instance, the active set, the routing table and the two queues.  `Tables` is the engine with
the rest left out, and `Tables.Step` what happens to it: a record is reclaimed, an instance
created, a command enqueued or drained, a slot released.  Executing a block, mixing it and
checking lifetimes change instances and counters, and no table: every step of the engine is a
step of the tables or leaves them as they are (`Engine.step_tables`).
-/

namespace Xrune

variable {α : Type}

/-- The pool without the contents of its instances. -/
structure PoolShape where
  capacity : Nat
  freeSlots : List Nat
  nextGeneration : Nat
  generation : Nat → Nat
  built : Nat → Bool

structure Tables (α : Type) where
  pool : PoolShape
  activeGen : Nat → Nat
  activeList : List Nat
  routes : List ActiveRoute
  routesCapacity : Nat
  commands : List (CommandEvent α)
  ended : List TelemetryEvent
  endedCapacity : Nat

/-! ### What happens to the tables -/

namespace PoolShape

/-- The slot returned to the pool. -/
def recycle (p : PoolShape) (idx : Nat) : PoolShape :=
  if p.capacity ≤ idx then p
  else { p with freeSlots := idx :: p.freeSlots, built := Function.update p.built idx false }

/-- The slot `idx` taken from the free list, `rest` left. -/
def take (p : PoolShape) (idx : Nat) (rest : List Nat) : PoolShape :=
  { p with
    freeSlots := rest
    nextGeneration := bumpGeneration p.nextGeneration
    generation := Function.update p.generation idx p.nextGeneration
    built := Function.update p.built idx true }

end PoolShape

namespace Tables

/-- `h` is the handle the slot's entry of `active_gen` carries; the entry of an idle slot
carries generation 0. -/
def Matches (T : Tables α) (h : InstanceHandle) : Prop :=
  h.slot < T.pool.capacity ∧ T.activeGen h.slot = h.generation

instance (T : Tables α) (h : InstanceHandle) : Decidable (T.Matches h) :=
  inferInstanceAs (Decidable (_ ∧ _))

/-- The route touches the slot. -/
def touches (slot : Nat) (r : ActiveRoute) : Bool :=
  r.srcSlot == slot || (!r.toMaster && r.dstSlot == slot)

/-- The slot leaves the active set, its routes go, and its end is recorded. -/
def release (T : Tables α) (slot : Nat) (why : EndReason) : Tables α :=
  { T with
    activeGen := Function.update T.activeGen slot 0
    activeList := T.activeList.erase slot
    routes := T.routes.filter fun r => !touches slot r
    ended :=
      if T.ended.length < T.endedCapacity then T.ended ++ [⟨slot, T.activeGen slot, why⟩]
      else T.ended }

/-- The route a `connect` asks for. -/
def routeOf (cmd : CommandEvent α) : ActiveRoute :=
  if cmd.dest.toMaster then
    ⟨cmd.handle.slot, cmd.handle.generation, cmd.srcTerminal, true, 0, 0, 0⟩
  else
    ⟨cmd.handle.slot, cmd.handle.generation, cmd.srcTerminal, false, cmd.dest.inst.slot,
      cmd.dest.inst.generation, cmd.dest.terminal⟩

def drain (T : Tables α) (cmd : CommandEvent α) : Tables α :=
  match cmd.type with
  | .activate =>
      if cmd.handle.slot < T.pool.capacity ∧ T.activeGen cmd.handle.slot = 0 then
        { T with
          activeGen := Function.update T.activeGen cmd.handle.slot cmd.handle.generation
          activeList := T.activeList ++ [cmd.handle.slot] }
      else T
  | .kill => if T.Matches cmd.handle then T.release cmd.handle.slot .killed else T
  | .setParameter => T
  | .connect =>
      if T.Matches cmd.handle ∧ T.routes.length < T.routesCapacity ∧
          (cmd.dest.toMaster = true ∨ T.Matches cmd.dest.inst) then
        { T with routes := T.routes ++ [routeOf cmd] }
      else T
  | .disconnect => { T with routes := T.routes.filter fun r => !Engine.routeMatches cmd r }

/-- Draining a command leaves the pool, the queue and the capacities. -/
theorem drain_keeps (T : Tables α) (cmd : CommandEvent α) :
    (T.drain cmd).pool = T.pool ∧ (T.drain cmd).commands = T.commands ∧
      (T.drain cmd).routesCapacity = T.routesCapacity ∧
      (T.drain cmd).endedCapacity = T.endedCapacity := by
  unfold drain
  cases cmd.type with
  | activate => dsimp only; split <;> exact ⟨rfl, rfl, rfl, rfl⟩
  | kill => dsimp only; split <;> exact ⟨rfl, rfl, rfl, rfl⟩
  | setParameter => exact ⟨rfl, rfl, rfl, rfl⟩
  | connect => dsimp only; split <;> exact ⟨rfl, rfl, rfl, rfl⟩
  | disconnect => exact ⟨rfl, rfl, rfl, rfl⟩

/-- Draining a command records an end when it is a kill that matches. -/
theorem drain_ended (T : Tables α) (cmd : CommandEvent α) :
    (T.drain cmd).ended = if cmd.type = .kill ∧ T.Matches cmd.handle
      then (T.release cmd.handle.slot .killed).ended else T.ended := by
  unfold drain
  cases cmd.type with
  | kill => by_cases h : T.Matches cmd.handle <;> simp [h]
  | activate => simp only [reduceCtorEq, false_and, if_false]; split <;> rfl
  | connect => simp only [reduceCtorEq, false_and, if_false]; split <;> rfl
  | setParameter | disconnect => simp only [reduceCtorEq, false_and, if_false]

inductive Step [Sample α] : Tables α → Tables α → Prop where
  | reclaim {T : Tables α} {ev : TelemetryEvent} {rest : List TelemetryEvent}
      (ended : T.ended = ev :: rest) :
      Step T { T with ended := rest, pool := T.pool.recycle ev.slot }
  | create {T : Tables α} {idx : Nat} {rest : List Nat} (free : T.pool.freeSlots = idx :: rest) :
      Step T
        { T with
          pool := T.pool.take idx rest
          commands := T.commands ++ [.activate ⟨idx, T.pool.nextGeneration⟩] }
  | enqueue {T : Tables α} {cmd : CommandEvent α} (type : cmd.type ≠ .activate) :
      Step T { T with commands := T.commands ++ [cmd] }
  | drain {T : Tables α} {cmd : CommandEvent α} {rest : List (CommandEvent α)}
      (commands : T.commands = cmd :: rest) :
      Step T ({ T with commands := rest }.drain cmd)
  | release {T : Tables α} (slot : Nat) (why : EndReason) : Step T (T.release slot why)

end Tables

/-! ### The steps that leave the tables -/

namespace InstanceManager

def shape (m : InstanceManager α) : PoolShape :=
  ⟨m.capacity, m.freeSlots, m.nextGeneration, fun s => (m.slots s).generation,
    fun s => (m.slots s).inst.isSome⟩

@[simp] theorem shape_modifyInst (m : InstanceManager α) (slot : Nat)
    (f : GraphInstance α → GraphInstance α) : (m.modifyInst slot f).shape = m.shape := by
  have hgen : ∀ s, ((m.modifyInst slot f).slots s).generation = (m.slots s).generation := by
    intro s
    by_cases hs : s = slot
    · subst hs; simp [modifyInst]
    · simp [modifyInst, Function.update_of_ne hs]
  have hinst : ∀ s, ((m.modifyInst slot f).slots s).inst.isSome = (m.slots s).inst.isSome := by
    intro s
    by_cases hs : s = slot
    · subst hs; simp [modifyInst]
    · simp [modifyInst, Function.update_of_ne hs]
  simp only [shape, hgen, hinst]
  rfl

section Sums

variable [Sample α]

@[simp] theorem shape_zeroInputTerminals (m : InstanceManager α) (slot nf : Nat) :
    (m.zeroInputTerminals slot nf).shape = m.shape :=
  shape_modifyInst m slot _

@[simp] theorem shape_sumTerminalToInstance (m : InstanceManager α) (src srcT dst dstT nf : Nat) :
    (m.sumTerminalToInstance src srcT dst dstT nf).shape = m.shape := by
  unfold sumTerminalToInstance
  split
  · exact foldl_keeps shape (fun m c => foldl_keeps shape (fun m i => by
      simp [addSample]) _ m) _ m
  · rfl

end Sums

end InstanceManager

namespace Engine

def tables (e : Engine α) : Tables α :=
  ⟨e.mgr.shape, e.activeGen, e.activeList, e.routes, e.routesCapacity, e.commandQueue,
    e.telemetryQueue, e.telemetryCapacity⟩

section Steps

variable [Sample α]

omit [Sample α] in
@[simp] theorem tables_moveTo (e : Engine α) (t : Nat) (s : ThreadState) :
    (e.moveTo t s).tables = e.tables := rfl

@[simp] theorem tables_zeroInputs (e : Engine α) (slot : Nat) :
    (e.zeroInputs slot).tables = e.tables := by
  simp [zeroInputs, tables]

@[simp] theorem tables_gatherRoute (e : Engine α) (slot : Nat) (r : ActiveRoute) :
    (e.gatherRoute slot r).tables = e.tables := by
  unfold gatherRoute
  split
  · rfl
  · simp [tables]

@[simp] theorem tables_gatherInputs (e : Engine α) (slot : Nat) :
    (e.gatherInputs slot).tables = e.tables :=
  (foldl_keeps tables (fun e r => tables_gatherRoute e slot r) _ _).trans
    (tables_zeroInputs e slot)

@[simp] theorem tables_processSlot (e : Engine α) (slot : Nat) :
    (e.processSlot slot).tables = e.tables := by
  simp [processSlot, tables]

@[simp] theorem tables_executeSlot (e : Engine α) (slot : Nat) :
    (e.executeSlot slot).tables = e.tables := by
  simp [executeSlot]

@[simp] theorem tables_computeSequential (e : Engine α) :
    e.computeSequential.tables = e.tables :=
  foldl_keeps tables (fun e slot => tables_executeSlot e slot) _ _

@[simp] theorem tables_clearMaster (e : Engine α) : e.clearMaster.tables = e.tables := rfl

@[simp] theorem tables_computeBlock (e : Engine α) : e.computeBlock.tables = e.tables := by
  unfold computeBlock
  dsimp only
  split
  · rfl
  · exact tables_computeSequential e.clearMaster

omit [Sample α] in
@[simp] theorem tables_seedSlot (e : Engine α) (slot : Nat) (rest : List Nat) :
    (e.seedSlot slot rest).tables = e.tables := rfl

@[simp] theorem tables_work (e : Engine α) (t slot : Nat) (pc : TaskPc) :
    (e.work t slot pc).tables = e.tables := by
  cases pc with
  | zero => simp [work]
  | gather rest => cases rest <;> simp [work]
  | process =>
      exact (rfl : (e.work t slot .process).tables = (e.processSlot slot).tables).trans
        (tables_processSlot e slot)
  | release rest =>
      cases rest with
      | nil => rfl
      | cons r rest =>
          simp only [work, releaseRoute]
          split <;> rfl
  | push dst rest => rfl
  | finish => rfl

@[simp] theorem tables_sumTerminalToMaster (e : Engine α) (src srcT : Nat) :
    (e.sumTerminalToMaster src srcT).tables = e.tables := by
  unfold sumTerminalToMaster
  split
  · rfl
  · exact foldl_keeps tables
      (fun e c => foldl_keeps tables (fun e i => (rfl : (e.addToMaster _ _ _ _).tables = _)) _ e)
      _ e

@[simp] theorem tables_sumToMaster (e : Engine α) : e.sumToMaster.tables = e.tables :=
  foldl_keeps tables (fun e r => by split <;> simp) _ e

theorem shouldReap_keeps (s : InstanceSlot α) (g : GraphInstance α) (peak : α) :
    (shouldReap s g peak).2.generation = s.generation ∧ (shouldReap s g peak).2.inst = s.inst := by
  unfold shouldReap
  split
  · exact ⟨rfl, rfl⟩
  · dsimp only
    split <;> exact ⟨rfl, rfl⟩

theorem reapCheck_keeps (e : Engine α) (acc : Slots α × List (Nat × EndReason)) (slot s : Nat) :
    ((e.reapCheck acc slot).1 s).generation = (acc.1 s).generation ∧
      ((e.reapCheck acc slot).1 s).inst = (acc.1 s).inst := by
  unfold reapCheck
  dsimp only
  split
  · exact ⟨rfl, rfl⟩
  · by_cases hs : s = slot
    · subst hs
      simpa using shouldReap_keeps _ _ _
    · simp [Function.update_of_ne hs]

/-- The lifetime checks leave every slot's generation and instance. -/
theorem reapScan_keeps (e : Engine α) (l : List Nat) (acc : Slots α × List (Nat × EndReason)) :
    (fun s => ((l.foldl e.reapCheck acc).1 s).generation) = (fun s => (acc.1 s).generation) ∧
      (fun s => ((l.foldl e.reapCheck acc).1 s).inst) = fun s => (acc.1 s).inst :=
  ⟨foldl_keeps (fun acc s => (acc.1 s).generation)
      (fun acc slot => funext fun s => (reapCheck_keeps e acc slot s).1) l acc,
    foldl_keeps (fun acc s => (acc.1 s).inst)
      (fun acc slot => funext fun s => (reapCheck_keeps e acc slot s).2) l acc⟩

@[simp] theorem tables_finishBlock (e : Engine α) : e.finishBlock.tables = e.tables := by
  have hsum := tables_sumToMaster e
  obtain ⟨hgen, hinst⟩ :=
    reapScan_keeps e.sumToMaster e.sumToMaster.activeList (e.sumToMaster.mgr.slots, [])
  have hsome := congrArg (fun f s => Option.isSome (f s)) hinst
  have hshape : e.finishBlock.mgr.shape = e.sumToMaster.mgr.shape := by
    unfold InstanceManager.shape
    exact congrArg₂ (PoolShape.mk _ _ _) hgen hsome
  calc e.finishBlock.tables
      = { e.sumToMaster.tables with pool := e.finishBlock.mgr.shape } := rfl
    _ = e.sumToMaster.tables := by rw [hshape]; rfl
    _ = e.tables := hsum

end Steps

/-! ### The steps that change the tables -/

@[simp] theorem tables_releaseSlot (e : Engine α) (slot : Nat) (why : EndReason) :
    (e.releaseSlot slot why).tables = e.tables.release slot why := by
  unfold releaseSlot tryEnqueueTelemetry
  by_cases hroom : e.telemetryQueue.length < e.telemetryCapacity
  · simp [hroom, tables, Tables.release, Tables.touches]
  · simp [hroom, tables, Tables.release, Tables.touches]

@[simp] theorem tables_addRoute (e : Engine α) (cmd : CommandEvent α) :
    (e.addRoute cmd).tables =
      if e.tables.Matches cmd.handle ∧ e.tables.routes.length < e.tables.routesCapacity ∧
          (cmd.dest.toMaster = true ∨ e.tables.Matches cmd.dest.inst) then
        { e.tables with routes := e.tables.routes ++ [Tables.routeOf cmd] }
      else e.tables := by
  have hmatch : ∀ h, e.tables.Matches h ↔
      ¬ (e.mgr.capacity ≤ h.slot ∨ e.activeGen h.slot ≠ h.generation) := by
    intro h
    simp [Tables.Matches, tables, InstanceManager.shape]
  have hroom : e.tables.routes.length < e.tables.routesCapacity ↔
      ¬ e.routesCapacity ≤ e.routes.length := not_le.symm
  simp only [hmatch, hroom]
  unfold addRoute
  by_cases h₁ : e.mgr.capacity ≤ cmd.handle.slot ∨
      e.activeGen cmd.handle.slot ≠ cmd.handle.generation
  · simp [h₁]
  · by_cases h₂ : e.routesCapacity ≤ e.routes.length
    · simp [h₁, h₂]
    · by_cases h₃ : cmd.dest.toMaster = true
      · simp [h₁, h₂, h₃, tables, Tables.routeOf]
      · by_cases h₄ : e.mgr.capacity ≤ cmd.dest.inst.slot ∨
            e.activeGen cmd.dest.inst.slot ≠ cmd.dest.inst.generation
        · simp [h₁, h₂, h₃, h₄]
        · simp [h₁, h₂, h₃, h₄, tables, Tables.routeOf]

section Drain

variable [Sample α]

/-- A command does to the tables what `Tables.drain` says. -/
@[simp] theorem tables_drainCommand (e : Engine α) (cmd : CommandEvent α) :
    (e.drainCommand cmd).tables = e.tables.drain cmd := by
  unfold drainCommand Tables.drain
  cases cmd.type with
  | activate =>
      dsimp only
      split_ifs <;> first | rfl | contradiction
  | kill =>
      dsimp only
      split_ifs <;> first | exact tables_releaseSlot _ _ _ | rfl | contradiction
  | setParameter =>
      dsimp only
      split_ifs
      · simp [tables]
      · rfl
  | connect => exact tables_addRoute e cmd
  | disconnect => rfl

omit [Sample α] in
theorem shape_recycle (m : InstanceManager α) (idx : Nat) :
    (m.recycle idx).shape = m.shape.recycle idx := by
  have hcap : m.shape.capacity = m.capacity := rfl
  unfold InstanceManager.recycle PoolShape.recycle
  rw [hcap]
  split
  · rfl
  · have hgen : ∀ s, (Function.update m.slots idx { m.slots idx with inst := none } s).generation
        = (m.slots s).generation := by
      intro s
      by_cases hs : s = idx
      · subst hs; simp
      · simp [Function.update_of_ne hs]
    have hinst : ∀ s,
        (Function.update m.slots idx { m.slots idx with inst := none } s).inst.isSome
          = Function.update (fun s => (m.slots s).inst.isSome) idx false s := by
      intro s
      by_cases hs : s = idx
      · subst hs; simp
      · simp [Function.update_of_ne hs]
    simp only [InstanceManager.shape, hgen, hinst]

/-- What `create` does to the pool when it succeeds. -/
theorem shape_create {m m' : InstanceManager α} {sched : CompiledSchedule α} {rate : Nat}
    {life : LifetimePolicy α} {h : InstanceHandle}
    (hc : m.create sched rate life = some (h, m')) :
    ∃ idx rest, m.freeSlots = idx :: rest ∧ h = ⟨idx, m.nextGeneration⟩ ∧
      m'.shape = m.shape.take idx rest := by
  unfold InstanceManager.create at hc
  split at hc
  · cases hc
  next idx rest hfree =>
    split at hc
    · cases hc
    next inst _ =>
      obtain ⟨rfl, rfl⟩ := Prod.mk.inj (Option.some.inj hc)
      refine ⟨idx, rest, hfree, rfl, ?_⟩
      have hgen : ∀ s, (Function.update m.slots idx
            ⟨some inst, m.nextGeneration, life, 0, 0⟩ s).generation
          = Function.update (fun s => (m.slots s).generation) idx m.nextGeneration s := by
        intro s
        by_cases hs : s = idx
        · subst hs; simp
        · simp [Function.update_of_ne hs]
      have hinst : ∀ s, (Function.update m.slots idx
            ⟨some inst, m.nextGeneration, life, 0, 0⟩ s).inst.isSome
          = Function.update (fun s => (m.slots s).inst.isSome) idx true s := by
        intro s
        by_cases hs : s = idx
        · subst hs; simp
        · simp [Function.update_of_ne hs]
      simp only [InstanceManager.shape, PoolShape.take, hgen, hinst]

/-- What the creation of an instance does to the tables. -/
theorem tables_create {e e' : Engine α} {sched : CompiledSchedule α} {life : LifetimePolicy α}
    {init : List (InitialParam α)} {h : InstanceHandle}
    (hc : e.create sched life init = some (h, e')) :
    ∃ idx rest, e.tables.pool.freeSlots = idx :: rest ∧
      h = ⟨idx, e.tables.pool.nextGeneration⟩ ∧
      e'.tables =
        { e.tables with
          pool := e.tables.pool.take idx rest
          commands := e.tables.commands ++ [.activate h] } := by
  unfold create at hc
  split at hc
  · cases hc
  next h' mgr hm =>
    obtain ⟨rfl, rfl⟩ := Prod.mk.inj (Option.some.inj hc)
    obtain ⟨idx, rest, hfree, hh, hshape⟩ := shape_create hm
    refine ⟨idx, rest, hfree, hh, ?_⟩
    simp [tables, enqueue, hshape]

omit [Sample α] in
theorem tables_reclaimOne {e e' : Engine α} {v : VoiceEnd} (h : e.reclaimOne = some (v, e')) :
    ∃ ev rest, e.tables.ended = ev :: rest ∧ v = ⟨⟨ev.slot, ev.generation⟩, ev.reason⟩ ∧
      e'.tables = { e.tables with ended := rest, pool := e.tables.pool.recycle ev.slot } := by
  unfold reclaimOne at h
  split at h
  · cases h
  next ev rest hq =>
    obtain ⟨rfl, rfl⟩ := Prod.mk.inj (Option.some.inj h)
    exact ⟨ev, rest, hq, rfl, by simp [tables, shape_recycle]⟩

/-- **Every step of the engine is a step of its tables, or leaves them.** -/
theorem step_tables {e e' : Engine α} {a : EngineAction α} (h : e.step a = some e') :
    e'.tables = e.tables ∨ Tables.Step e.tables e'.tables := by
  cases step_cases h with
  | reclaim ok =>
      obtain ⟨ev, rest, hq, -, ht⟩ := tables_reclaimOne ok
      exact .inr (ht ▸ .reclaim hq)
  | create ok =>
      obtain ⟨idx, rest, hf, rfl, ht⟩ := tables_create ok
      exact .inr (ht ▸ .create hf)
  | enqueue type => exact .inr (.enqueue type)
  | raiseFinished valid => exact .inl (by simp [tables])
  | drain phase queue =>
      rw [tables_drainCommand]
      exact .inr (Tables.Step.drain (T := e.tables) queue)
  | compute phase queue => exact .inl (tables_computeBlock e)
  | finish phase => exact .inl (tables_finishBlock e)
  | reap phase =>
      rw [tables_releaseSlot]
      exact .inr (Tables.Step.release (T := e.tables) _ _)
  | work thread => exact .inl (tables_work e _ _ _)
  | begin | seed | seeded | leave | writeOut | poll | popEmpty | pop => exact .inl rfl

/-- The capacities are fixed. -/
theorem capacity_step {e e' : Engine α} {a : EngineAction α} (h : e.step a = some e') :
    e'.mgr.capacity = e.mgr.capacity := by
  have table : ∀ {T T' : Tables α}, Tables.Step T T' → T'.pool.capacity = T.pool.capacity := by
    intro T T' h
    cases h with
    | reclaim ended =>
        simp only [PoolShape.recycle]
        split <;> rfl
    | create free => rfl
    | enqueue type => rfl
    | @drain cmd rest commands =>
        exact congrArg PoolShape.capacity (Tables.drain_keeps { T with commands := rest } cmd).1
    | release slot why => rfl
  rcases step_tables h with same | hstep
  · exact congrArg (fun T => T.pool.capacity) same
  · exact table hstep

end Drain

end Engine

end Xrune
