import Xrune.Engine.Slots

/-!
# Engine — undesignated commands

A command whose handle does not designate a currently active instance is dropped by a
comparison of its generation with the slot's entry of `active_gen`.  The entry of an idle slot
is 0, and 0 is also the generation of the null handle, so a command that carries generation 0
passes the comparison on an idle slot.  `SentinelTakesEffect` says when something comes of it:
exactly then does the command change anything (`untouched_iff`), and a run in which it never
happens hands no slot out twice.
-/

namespace Xrune

variable {α : Type}

/-! ### What every run keeps -/

/-- The part of the slots' invariant that no command can break. -/
structure ActiveInv (T : Tables α) : Prop where
  nodup : T.activeList.Nodup
  active : ∀ s, T.activeGen s ≠ 0 ↔ s ∈ T.activeList
  pending : ∀ h ∈ activations T.commands, h.generation ≠ 0
  fresh : T.pool.nextGeneration ≠ 0
  routes : ∀ r ∈ T.routes, (r.srcGen ≠ 0 → T.activeGen r.srcSlot = r.srcGen) ∧
    (r.toMaster = false → r.dstGen ≠ 0 → T.activeGen r.dstSlot = r.dstGen)

namespace ActiveInv

variable {T : Tables α} {slot : Nat}

theorem of_slots (I : SlotInv T) : ActiveInv T where
  nodup := I.active_nodup
  active := I.active
  pending h hh := (I.pending h hh).1
  fresh := I.fresh
  routes r hr := ⟨fun _ => (I.routes r hr).1.2, fun hm _ => ((I.routes r hr).2 hm).2⟩

theorem activeGen_eq_zero (I : ActiveInv T) (h : slot ∉ T.activeList) : T.activeGen slot = 0 := by
  by_contra hg
  exact h ((I.active slot).mp hg)

theorem release (I : ActiveInv T) (slot : Nat) (why : EndReason) :
    ActiveInv (T.release slot why) where
  nodup := I.nodup.erase slot
  active s := by
    simp only [Tables.release, I.nodup.mem_erase_iff]
    by_cases hs : s = slot
    · subst hs; simp
    · simpa [Function.update_of_ne hs, hs] using I.active s
  pending := I.pending
  fresh := I.fresh
  routes r hr := by
    obtain ⟨hr, hnot⟩ := List.mem_filter.mp hr
    obtain ⟨h₁, h₂⟩ := I.routes r hr
    have hsrc : r.srcSlot ≠ slot := by
      intro h; simp [Tables.touches, h] at hnot
    refine ⟨by simpa [Tables.release, Function.update_of_ne hsrc] using h₁, fun hm => ?_⟩
    have hdst : r.dstSlot ≠ slot := by
      intro h; simp [Tables.touches, h, hm] at hnot
    simpa [Tables.release, Function.update_of_ne hdst] using h₂ hm

/-- An activation that finds its slot idle. -/
theorem activate (I : ActiveInv T) {h : InstanceHandle} (hgen : h.generation ≠ 0)
    (h0 : T.activeGen h.slot = 0) :
    ActiveInv
      { T with
        activeGen := Function.update T.activeGen h.slot h.generation
        activeList := T.activeList ++ [h.slot] } where
  nodup := by
    refine List.nodup_append.mpr ⟨I.nodup, List.nodup_singleton _, ?_⟩
    rintro a ha c hc rfl
    exact (I.active a).mpr ha (List.mem_singleton.mp hc ▸ h0)
  active s := by
    by_cases hs : s = h.slot
    · subst hs; simp [hgen]
    · simpa [Function.update_of_ne hs, hs] using I.active s
  pending := I.pending
  fresh := I.fresh
  routes r hr := by
    obtain ⟨h₁, h₂⟩ := I.routes r hr
    refine ⟨fun hg => ?_, fun hm hg => ?_⟩
    · have hne : r.srcSlot ≠ h.slot := fun heq => hg (by rw [← h₁ hg, heq, h0])
      simpa [Function.update_of_ne hne] using h₁ hg
    · have hne : r.dstSlot ≠ h.slot := fun heq => hg (by rw [← h₂ hm hg, heq, h0])
      simpa [Function.update_of_ne hne] using h₂ hm hg

theorem drain (I : ActiveInv T) (cmd : CommandEvent α)
    (hgen : cmd.type = .activate → cmd.handle.generation ≠ 0) : ActiveInv (T.drain cmd) := by
  unfold Tables.drain
  cases htype : cmd.type with
  | activate =>
      dsimp only
      split
      next h => exact I.activate (hgen htype) h.2
      · exact I
  | kill =>
      dsimp only
      split
      · exact I.release _ _
      · exact I
  | setParameter => exact I
  | connect =>
      dsimp only
      split
      next h =>
        obtain ⟨hsrc, -, hdst⟩ := h
        refine { I with routes := fun r hr => ?_ }
        rcases List.mem_append.mp hr with hr | hr
        · exact I.routes r hr
        · obtain rfl := List.mem_singleton.mp hr
          unfold Tables.routeOf
          split
          · exact ⟨fun _ => hsrc.2, by simp⟩
          next hm => exact ⟨fun _ => hsrc.2, fun _ _ => (hdst.resolve_left hm).2⟩
      · exact I
  | disconnect => exact { I with routes := fun r hr => I.routes r (List.mem_of_mem_filter hr) }

theorem step [Sample α] {T T' : Tables α} (I : ActiveInv T) (h : Tables.Step T T') :
    ActiveInv T' := by
  cases h with
  | reclaim ended =>
      refine { I with fresh := ?_ }
      unfold PoolShape.recycle
      split <;> exact I.fresh
  | create free =>
      refine { I with pending := fun h hh => ?_, fresh := SlotInv.bumpGeneration_ne_zero _ }
      rw [SlotInv.activations_append] at hh
      rcases List.mem_append.mp hh with hh | hh
      · exact I.pending h hh
      · obtain rfl : h = ⟨_, T.pool.nextGeneration⟩ := by
          simpa [CommandEvent.activate] using hh
        exact I.fresh
  | enqueue type =>
      refine { I with pending := fun h hh => I.pending h ?_ }
      simpa [SlotInv.activations_append, type] using hh
  | @drain cmd rest commands =>
      have hacts : activations T.commands
          = (if cmd.type = .activate then [cmd.handle] else []) ++ activations rest := by
        rw [commands, SlotInv.activations_cons]
      have I' : ActiveInv { T with commands := rest } :=
        { I with pending := fun h hh =>
            I.pending h (hacts ▸ List.mem_append_right _ hh) }
      exact I'.drain cmd fun htype => I.pending _ (by simp [hacts, htype])
  | release slot why => exact I.release slot why

/-- The invariant of every run of the engine. -/
theorem of_reaches [Sample α] {cfg : EngineConfig} {e : Engine α}
    {ok : Engine α → EngineAction α → Prop} (h : EngineReaches cfg ok e) :
    ActiveInv e.tables := by
  obtain ⟨e₀, h₀, run⟩ := h
  induction run with
  | refl => exact of_slots (.init h₀)
  | tail _ _ one I =>
      rcases Engine.step_tables one with same | hstep
      · rw [same]; exact I
      · exact I.step hstep

/-- The entry of a slot can match an undesignating handle by the sentinel only. -/
theorem sentinel_of_matches (I : ActiveInv T) {h : InstanceHandle} (hm : T.Matches h)
    (hd : ¬ T.Designates h) : h.generation = 0 ∧ h.slot ∉ T.activeList := by
  have hout : h.slot ∉ T.activeList := fun ha => hd ⟨ha, hm.2⟩
  exact ⟨hm.2 ▸ I.activeGen_eq_zero hout, hout⟩

end ActiveInv

/-! ### Commands that designate no active instance -/

namespace Tables

/-- The handle carries the sentinel of an idle slot. -/
def NamesIdle (T : Tables α) (h : InstanceHandle) : Prop :=
  h.slot < T.pool.capacity ∧ h.generation = 0 ∧ T.activeGen h.slot = 0

/-- The active set, the routes and the pending end records are the same. -/
def SameState (T T' : Tables α) : Prop :=
  T'.activeGen = T.activeGen ∧ T'.activeList = T.activeList ∧ T'.routes = T.routes ∧
    T'.ended = T.ended

theorem SameState.refl (T : Tables α) : T.SameState T := ⟨rfl, rfl, rfl, rfl⟩

theorem append_if_eq_self {β : Type} (l : List β) (x : β) (p : Prop) [Decidable p] :
    (if p then l ++ [x] else l) = l ↔ ¬ p := by
  by_cases hp : p <;> simp [hp]

theorem filter_eq_self_iff {β : Type} (l : List β) (p : β → Bool) :
    l.filter (fun b => !p b) = l ↔ ¬ ∃ b ∈ l, p b = true := by
  rw [List.filter_eq_self]
  simp

/-- A command that leaves the active set, the routes and the records leaves the tables. -/
theorem drain_eq_of_sameState {T : Tables α} {cmd : CommandEvent α}
    (h : T.SameState (T.drain cmd)) : T.drain cmd = T := by
  obtain ⟨h₁, h₂, h₃, h₄⟩ := h
  obtain ⟨h₅, h₆, h₇, h₈⟩ := T.drain_keeps cmd
  cases hT : T.drain cmd
  simp_all

end Tables

namespace ActiveInv

variable {T : Tables α} {cmd : CommandEvent α}

theorem matches_iff_namesIdle (I : ActiveInv T) {h : InstanceHandle} (hd : ¬ T.Designates h) :
    T.Matches h ↔ T.NamesIdle h := by
  constructor
  · intro hm
    obtain ⟨h0, -⟩ := I.sentinel_of_matches hm hd
    exact ⟨hm.1, h0, hm.2.trans h0⟩
  · rintro ⟨hlt, h0, hg⟩
    exact ⟨hlt, hg.trans h0.symm⟩

/-- A slot that is idle is released to no effect but on the routes and the records. -/
theorem release_idle_iff (I : ActiveInv T) {slot : Nat} (hidle : T.activeGen slot = 0)
    (why : EndReason) :
    T.SameState (T.release slot why) ↔
      ¬ (T.ended.length < T.endedCapacity ∨ ∃ r ∈ T.routes, Tables.touches slot r = true) := by
  have hout : slot ∉ T.activeList := fun h => (I.active slot).mpr h hidle
  have hgen : Function.update T.activeGen slot 0 = T.activeGen :=
    hidle ▸ Function.update_eq_self slot T.activeGen
  have hroutes := Tables.filter_eq_self_iff T.routes (Tables.touches slot)
  have hended := Tables.append_if_eq_self T.ended ⟨slot, T.activeGen slot, why⟩
    (T.ended.length < T.endedCapacity)
  unfold Tables.SameState Tables.release
  dsimp only
  rw [hroutes, hended, hgen, List.erase_of_not_mem hout]
  constructor
  · rintro ⟨-, -, h₁, h₂⟩ (h | h)
    · exact h₂ h
    · exact h₁ h
  · intro h
    exact ⟨rfl, rfl, fun h₁ => h (.inr h₁), fun h₂ => h (.inl h₂)⟩

theorem kill_iff (I : ActiveInv T) (htype : cmd.type = .kill) (hd : ¬ T.Designates cmd.handle) :
    T.SameState (T.drain cmd) ↔ ¬ (T.NamesIdle cmd.handle ∧
      (T.ended.length < T.endedCapacity ∨
        ∃ r ∈ T.routes, Tables.touches cmd.handle.slot r = true)) := by
  have hm := I.matches_iff_namesIdle hd
  simp only [Tables.drain, htype]
  by_cases hidle : T.NamesIdle cmd.handle
  · rw [if_pos (hm.mpr hidle), I.release_idle_iff hidle.2.2]
    exact ⟨fun h hs => h hs.2, fun h hs => h ⟨hidle, hs⟩⟩
  · rw [if_neg (fun h => hidle (hm.mp h))]
    exact ⟨fun _ h => hidle h.1, fun _ => .refl T⟩

end ActiveInv

theorem Tables.connect_iff {T : Tables α} {cmd : CommandEvent α} (htype : cmd.type = .connect) :
    T.SameState (T.drain cmd) ↔ ¬ (T.Matches cmd.handle ∧ T.routes.length < T.routesCapacity ∧
      (cmd.dest.toMaster = true ∨ T.Matches cmd.dest.inst)) := by
  simp only [Tables.drain, htype]
  split
  next h =>
    refine ⟨fun hs => ?_, fun hn => absurd h hn⟩
    exact absurd hs.2.2.1 (by simp)
  next h => exact ⟨fun _ => h, fun _ => .refl T⟩

theorem Tables.disconnect_iff {T : Tables α} {cmd : CommandEvent α}
    (htype : cmd.type = .disconnect) :
    T.SameState (T.drain cmd) ↔ ¬ ∃ r ∈ T.routes, Engine.routeMatches cmd r = true := by
  have hfilter := Tables.filter_eq_self_iff T.routes (Engine.routeMatches cmd)
  simp only [Tables.drain, htype]
  exact ⟨fun h => hfilter.mp h.2.2.1, fun h => ⟨rfl, rfl, hfilter.mpr h, rfl⟩⟩

namespace Engine

/-- The controls of the instance in a slot. -/
def controlsAt (e : Engine α) (s : Nat) : Option (List (PortControl α)) :=
  (e.mgr.slots s).inst.map GraphInstance.controls

theorem controlsAt_modifyInst (e : Engine α) (slot : Nat)
    (f : GraphInstance α → GraphInstance α) :
    { e with mgr := e.mgr.modifyInst slot f }.controlsAt = e.controlsAt ↔
      ∀ g, (e.mgr.slots slot).inst = some g → (f g).controls = g.controls := by
  constructor
  · intro h g hg
    have := congrFun h slot
    simpa [controlsAt, InstanceManager.modifyInst, hg] using this
  · intro h
    funext s
    by_cases hs : s = slot
    · subst hs
      cases hg : (e.mgr.slots s).inst with
      | none => simp [controlsAt, InstanceManager.modifyInst, hg]
      | some g => simpa [controlsAt, InstanceManager.modifyInst, hg] using h g hg
    · simp [controlsAt, InstanceManager.modifyInst, Function.update_of_ne hs]

theorem modify_eq_self_iff {β : Type} (l : List β) (i : Nat) (f : β → β) :
    l.modify i f = l ↔ ∀ c, l[i]? = some c → f c = c := by
  constructor
  · intro h c hc
    have := congrArg (fun l => l[i]?) h
    simp only [List.getElem?_modify_eq, hc] at this
    exact Option.some.inj this
  · intro h
    refine List.ext_getElem? fun j => ?_
    rw [List.getElem?_modify]
    split
    next hj =>
      subst hj
      cases hc : l[i]? with
      | none => rfl
      | some c => exact congrArg some (h c hc)
    · simp

section Sentinel

variable [Sample α]

/-- Draining the command leaves the active set, the routes, the telemetry queue and every
instance's controls. -/
def Untouched (e : Engine α) (cmd : CommandEvent α) : Prop :=
  (e.drainCommand cmd).activeGen = e.activeGen ∧
    (e.drainCommand cmd).activeList = e.activeList ∧
    (e.drainCommand cmd).routes = e.routes ∧
    (e.drainCommand cmd).telemetryQueue = e.telemetryQueue ∧
    (e.drainCommand cmd).controlsAt = e.controlsAt

/-- The command's value would move a control of the instance at its slot. -/
def MovesControl (e : Engine α) (cmd : CommandEvent α) : Prop :=
  ∃ g nd i c, (e.mgr.slots cmd.handle.slot).inst = some g ∧
    g.controlSlot cmd.nodeIndex cmd.parameterIndex = some (nd, i) ∧ g.controls[i]? = some c ∧
    c.target ≠ GraphInstance.clampTo nd cmd.parameterIndex cmd.parameterValue

/-- A command that passes `drain_commands`' comparison by the sentinel, and what it meets there:
room in the telemetry queue, or a route of the slot, for a kill; a control it moves for a
parameter; room in the routing table, and a destination that passes as well, for a connection;
a route it erases for a disconnection. -/
def SentinelTakesEffect (e : Engine α) (cmd : CommandEvent α) : Prop :=
  match cmd.type with
  | .activate => False
  | .kill => e.tables.NamesIdle cmd.handle ∧
      (e.telemetryQueue.length < e.telemetryCapacity ∨
        ∃ r ∈ e.routes, Tables.touches cmd.handle.slot r = true)
  | .setParameter => e.tables.NamesIdle cmd.handle ∧ e.MovesControl cmd
  | .connect => e.tables.Matches cmd.handle ∧ e.routes.length < e.routesCapacity ∧
      (cmd.dest.toMaster = true ∨ e.tables.Matches cmd.dest.inst)
  | .disconnect => ∃ r ∈ e.routes, routeMatches cmd r = true

/-- A parameter command leaves the controls of the instance it reaches exactly when it moves
none of them. -/
theorem setParameter_controls (g : GraphInstance α) (node param : Nat) (value : α) :
    (g.setParameter node param value).controls = g.controls ↔
      ∀ nd i c, g.controlSlot node param = some (nd, i) → g.controls[i]? = some c →
        c.target = GraphInstance.clampTo nd param value := by
  unfold GraphInstance.setParameter
  cases hs : g.controlSlot node param with
  | none => simp
  | some p =>
      obtain ⟨nd, i⟩ := p
      simp only [modify_eq_self_iff]
      constructor
      · rintro h nd' i' c heq hc
        obtain ⟨rfl, rfl⟩ := Prod.mk.inj (Option.some.inj heq)
        exact (congrArg PortControl.target (h c hc)).symm
      · intro h c hc
        rw [← h nd i c rfl hc]

/-- A command other than a parameter command leaves all controls. -/
theorem controlsAt_drainCommand (e : Engine α) {cmd : CommandEvent α}
    (h : cmd.type ≠ .setParameter) : (e.drainCommand cmd).controlsAt = e.controlsAt := by
  have hrel : ∀ slot why, (e.releaseSlot slot why).controlsAt = e.controlsAt := by
    intro slot why
    unfold releaseSlot tryEnqueueTelemetry
    split <;> rfl
  unfold drainCommand
  cases htype : cmd.type with
  | activate => dsimp only; split <;> rfl
  | kill => dsimp only; split <;> first | exact hrel _ _ | rfl
  | setParameter => exact absurd htype h
  | connect => unfold addRoute; dsimp only; split_ifs <;> rfl
  | disconnect => rfl

theorem setParameter_iff {e : Engine α} (I : ActiveInv e.tables) {cmd : CommandEvent α}
    (htype : cmd.type = .setParameter) (hd : ¬ e.tables.Designates cmd.handle) :
    (e.drainCommand cmd).controlsAt = e.controlsAt ↔
      ¬ (e.tables.NamesIdle cmd.handle ∧ e.MovesControl cmd) := by
  have hguard : (cmd.handle.slot < e.mgr.capacity ∧
      e.activeGen cmd.handle.slot = cmd.handle.generation) ↔ e.tables.NamesIdle cmd.handle :=
    I.matches_iff_namesIdle hd
  have hdrain : e.drainCommand cmd =
      if cmd.handle.slot < e.mgr.capacity ∧
          e.activeGen cmd.handle.slot = cmd.handle.generation then
        { e with mgr := e.mgr.modifyInst cmd.handle.slot fun g =>
            g.setParameter cmd.nodeIndex cmd.parameterIndex cmd.parameterValue }
      else e := by
    simp only [drainCommand, htype]
  rw [hdrain]
  by_cases hm : e.tables.NamesIdle cmd.handle
  · rw [if_pos (hguard.mpr hm), controlsAt_modifyInst]
    simp only [setParameter_controls]
    constructor
    · rintro h ⟨-, g, nd, i, c, hg, hs, hc, hne⟩
      exact hne (h g hg nd i c hs hc)
    · intro h g hg nd i c hs hc
      by_contra hne
      exact h ⟨hm, g, nd, i, c, hg, hs, hc, hne⟩
  · rw [if_neg (fun h => hm (hguard.mp h))]
    exact ⟨fun _ h => hm h.1, fun _ => rfl⟩

theorem untouched_iff_sameState (e : Engine α) (cmd : CommandEvent α) :
    e.Untouched cmd ↔ e.tables.SameState (e.tables.drain cmd) ∧
      (e.drainCommand cmd).controlsAt = e.controlsAt := by
  rw [← tables_drainCommand]
  unfold Untouched Tables.SameState
  simp only [and_assoc]
  exact Iff.rfl

/-- **An undesignated command changes something exactly when the sentinel takes effect.** -/
theorem untouched_iff {e : Engine α} (I : ActiveInv e.tables) {cmd : CommandEvent α}
    (hnon : e.tables.NonDesignating cmd) :
    e.Untouched cmd ↔ ¬ e.SentinelTakesEffect cmd := by
  have hd : cmd.type ≠ .connect → ¬ e.tables.Designates cmd.handle := by
    intro hne
    rcases hnon.2 with h | ⟨h, -⟩
    · exact h
    · exact absurd h hne
  rw [untouched_iff_sameState]
  unfold SentinelTakesEffect
  cases htype : cmd.type with
  | activate => exact absurd htype hnon.1
  | kill =>
      rw [I.kill_iff htype (hd (by simp [htype])), controlsAt_drainCommand e (by simp [htype])]
      simp only [and_true]
      exact Iff.rfl
  | setParameter =>
      rw [setParameter_iff I htype (hd (by simp [htype]))]
      simp only [Tables.drain, htype]
      exact ⟨fun h => h.2, fun h => ⟨.refl _, h⟩⟩
  | connect =>
      rw [Tables.connect_iff htype, controlsAt_drainCommand e (by simp [htype])]
      simp only [and_true]
      exact Iff.rfl
  | disconnect =>
      rw [Tables.disconnect_iff htype, controlsAt_drainCommand e (by simp [htype])]
      simp only [and_true]
      exact Iff.rfl

/-- The next command is not one by which the sentinel takes effect. -/
def NoSentinel (e : Engine α) (a : EngineAction α) : Prop :=
  a = .drain → ∀ cmd rest, e.commandQueue = cmd :: rest →
    e.tables.NonDesignating cmd → ¬ { e with commandQueue := rest }.SentinelTakesEffect cmd

theorem drainKeeps_of_noSentinel {e : Engine α} {a : EngineAction α} (I : EngineInv e)
    (h : e.NoSentinel a) : DrainKeeps e a := by
  intro ha cmd rest hq hnon
  have I' : ActiveInv { e with commandQueue := rest }.tables :=
    { ActiveInv.of_slots I.slots with
      pending := fun x hx => by
        refine (I.slots.pending x ?_).1
        have : activations e.tables.commands
            = (if cmd.type = .activate then [cmd.handle] else []) ++ activations rest := by
          rw [show e.tables.commands = cmd :: rest from hq, SlotInv.activations_cons]
        rw [this]
        exact List.mem_append_right _ hx }
  have huntouched := (untouched_iff I' hnon).mpr (h ha cmd rest hq hnon)
  exact Tables.drain_eq_of_sameState ((untouched_iff_sameState _ cmd).mp huntouched).1

end Sentinel

end Engine

/-! ### Runs -/

/-- **Undesignated commands.**  In every state of every run, an undesignated command leaves the
active set, the routes, the telemetry queue and the controls exactly when the sentinel does not
take effect; and a run in which it never takes effect keeps the free list free of duplicates. -/
theorem undesignated_command_dropped_iff [Sample α] (cfg : EngineConfig) (e : Engine α)
    {ok : Engine α → EngineAction α → Prop} (run : EngineReaches cfg ok e) :
    (∀ cmd, e.tables.NonDesignating cmd → (e.Untouched cmd ↔ ¬ e.SentinelTakesEffect cmd)) ∧
      ((∀ e a, ok e a → e.NoSentinel a) → e.mgr.freeSlots.Nodup) := by
  refine ⟨fun cmd hnon => Engine.untouched_iff (.of_reaches run) hnon, fun hok => ?_⟩
  have I := EngineInv.of_reaches
    (fun e a I meets => Engine.drainKeeps_of_noSentinel I (hok e a meets)) run
  exact I.slots.free_nodup

/-- One channel, one-sample blocks and `n` slots. -/
def EngineConfig.small (n workers : Nat) (h : n ≤ 2 ^ 32) : EngineConfig :=
  ⟨48000, 1, 1, n, workers, h⟩

theorem EngineConfig.fits_one : 1 ≤ 2 ^ 32 := by decide

theorem EngineConfig.fits_three : 3 ≤ 2 ^ 32 := by decide

/-- The engine at rest, a kill of a handle nothing was ever given. -/
theorem undesignated_command_dropped_at_rest :
    ∃ e : Engine ℚ, Engine.init (.small 1 0 (by decide)) = some e ∧
      e.Untouched (.kill ⟨0, 5⟩) := by
  have reached : EngineReaches (.small 1 0 (by decide)) (fun _ _ => True)
      ((Engine.init (α := ℚ) (.small 1 0 (by decide))).get rfl) := ⟨_, rfl, .refl⟩
  refine ⟨_, rfl, ((undesignated_command_dropped_iff _ _ reached).1 (.kill ⟨0, 5⟩)
    ⟨by decide, .inl ?_⟩).mpr ?_⟩
  · exact fun h => absurd h.1 (by decide)
  · exact fun h => absurd h.1.2.1 (by decide)

/-- **The null handle kills an idle slot.**  At rest no instance is active; the kill of the null
handle records an end, and the reclaim that follows puts slot 0 into the free list a second
time. -/
theorem null_kill_frees_twice :
    ∃ e₀ e : Engine ℚ, Engine.init (.small 1 0 (by decide)) = some e₀ ∧
      e₀.tables.NonDesignating (.kill nullHandle) ∧ ¬ e₀.Untouched (.kill nullHandle) ∧
      runs Engine.step e₀ [.enqueue (.kill nullHandle), .begin 1, .drain, .reclaim] = some e ∧
      e.mgr.freeSlots = [0, 0] := by
  refine ⟨_, _, rfl, ⟨by decide, .inl fun h => absurd h.1 (by decide)⟩, fun h => ?_, rfl, rfl⟩
  exact absurd h.2.2.2.1 (by decide)

end Xrune
