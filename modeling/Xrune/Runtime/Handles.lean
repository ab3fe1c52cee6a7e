import Xrune.Runtime.Voices

/-!
# Runtime — handle safety

A command names its voice by slot and generation, and waits in the queue while slots end, are
recycled and spawned into again.  Below `2 ^ 32 - 1` spawns the entry of `active_gen` at a
voice's slot carries the voice's generation exactly while the voice is active
(`matches_iff_active`), so a command reaches its own voice or nothing.

* `Issued`: every command in the queue is an activation or was issued for a spawned voice.
* `ActsFor`: what a command may change, by its type.
* `command_reaches_own_voice`: draining a voice's command changes nothing when the voice is not
  active, and otherwise only what `ActsFor` allows.
-/

namespace Xrune

variable {α : Type}

/-! ### What a command may change -/

/-- `g'` is `g` but for the targets of its controls. -/
structure OnlyTargets (g g' : GraphInstance α) : Prop where
  rest : g' = { g with controls := g'.controls }
  current : g'.controls.map PortControl.current = g.controls.map PortControl.current

/-- The route has the instance `h` as an endpoint. -/
def Touches (h : InstanceHandle) (r : ActiveRoute) : Prop :=
  (r.srcSlot = h.slot ∧ r.srcGen = h.generation) ∨
    r.toMaster = false ∧ r.dstSlot = h.slot ∧ r.dstGen = h.generation

/-- The route goes from `h` to `dest`. -/
def Joins (h : InstanceHandle) (dest : RouteTarget) (r : ActiveRoute) : Prop :=
  (r.srcSlot = h.slot ∧ r.srcGen = h.generation) ∧ r.toMaster = dest.toMaster ∧
    (r.toMaster = false → r.dstSlot = dest.inst.slot ∧ r.dstGen = dest.inst.generation)

/-- From `e` to `e'` the controls of the instance in `slot` get new targets. -/
structure SetsTargets (e e' : Engine α) (slot : Nat) : Prop where
  engine : e' = { e with mgr := { e.mgr with slots := e'.mgr.slots } }
  others : ∀ s, s ≠ slot → e'.mgr.slots s = e.mgr.slots s
  life : e'.mgr.slots slot = { e.mgr.slots slot with inst := (e'.mgr.slots slot).inst }
  inst : Option.Rel OnlyTargets (e.mgr.slots slot).inst (e'.mgr.slots slot).inst

/-- From `e` to `e'` the instance `h` leaves the active set with the routes it is an endpoint
of, and its end is recorded. -/
structure Releases (e e' : Engine α) (h : InstanceHandle) : Prop where
  engine : e' =
    { e with
      activeGen := Function.update e.activeGen h.slot 0
      activeList := e.activeList.erase h.slot
      routes := e'.routes
      telemetryQueue := e.telemetryQueue ++ [⟨h.slot, h.generation, .killed⟩] }
  kept : e'.routes.Sublist e.routes
  routes : ∀ r ∈ e.routes, r ∈ e'.routes ↔ ¬ Touches h r

/-- From `e` to `e'` at most one route is added, from `h` to `dest`, an instance that `dest`
names being active. -/
structure AddsRoute (e e' : Engine α) (h : InstanceHandle) (dest : RouteTarget) : Prop where
  engine : e' = { e with routes := e'.routes }
  added : e'.routes = e.routes ∨
    (∃ r, e'.routes = e.routes ++ [r] ∧ Joins h dest r) ∧
      (dest.toMaster = false → e.tables.Designates dest.inst)

/-- From `e` to `e'` routes are removed, all from `h` to `dest`, an instance that `dest` names
being active. -/
structure RemovesRoutes (e e' : Engine α) (h : InstanceHandle) (dest : RouteTarget) : Prop where
  engine : e' = { e with routes := e'.routes }
  kept : e'.routes.Sublist e.routes
  removed : ∀ r ∈ e.routes, r ∉ e'.routes →
    Joins h dest r ∧ (dest.toMaster = false → e.tables.Designates dest.inst)

/-- What a command may change on the way from `e` to `e'`. -/
def ActsFor (e e' : Engine α) (cmd : CommandEvent α) : Prop :=
  match cmd.type with
  | .activate => True
  | .kill => Releases e e' cmd.handle
  | .setParameter => SetsTargets e e' cmd.handle.slot
  | .connect => AddsRoute e e' cmd.handle cmd.dest
  | .disconnect => RemovesRoutes e e' cmd.handle cmd.dest

/-! ### What a command changes -/

namespace GraphInstance

/-- `set_parameter` writes a target, and nothing else. -/
theorem setParameter_onlyTargets [Sample α] (g : GraphInstance α) (node param : Nat) (value : α) :
    OnlyTargets g (g.setParameter node param value) := by
  unfold setParameter
  split
  · exact ⟨rfl, rfl⟩
  · refine ⟨rfl, List.ext_getElem? fun i => ?_⟩
    simp only [List.getElem?_map, List.getElem?_modify]
    split
    · cases g.controls[i]? <;> rfl
    · simp

end GraphInstance

namespace Engine

variable {e : Engine α} {cmd : CommandEvent α}

theorem setsTargets_modifyInst {slot : Nat} {f : GraphInstance α → GraphInstance α}
    (hf : ∀ g, OnlyTargets g (f g)) :
    SetsTargets e { e with mgr := e.mgr.modifyInst slot f } slot where
  engine := rfl
  others s hs := by simp [InstanceManager.modifyInst, Function.update_of_ne hs]
  life := by simp [InstanceManager.modifyInst]
  inst := by
    simp only [InstanceManager.modifyInst, Function.update_self]
    cases (e.mgr.slots slot).inst with
    | none => exact .none
    | some g => exact .some (hf g)

/-- The routes a kill removes are those its instance is an endpoint of: a route's generations
are those of the instances it joins. -/
theorem releases_releaseSlot (I : SlotInv e.tables) {h : InstanceHandle}
    (hd : e.tables.Designates h) : Releases e (e.releaseSlot h.slot .killed) h := by
  have hroom : e.telemetryQueue.length < e.telemetryCapacity :=
    (I.ended_length_lt hd.1).trans I.room
  have hgen : e.activeGen h.slot = h.generation := hd.2
  have heq : e.releaseSlot h.slot .killed =
      { e with
        activeGen := Function.update e.activeGen h.slot 0
        activeList := e.activeList.erase h.slot
        routes := e.routes.filter fun r => !Tables.touches h.slot r
        telemetryQueue := e.telemetryQueue ++ [⟨h.slot, h.generation, .killed⟩] } := by
    simp [releaseSlot, tryEnqueueTelemetry, hroom, hgen, Tables.touches]
  rw [heq]
  refine ⟨rfl, List.filter_sublist, fun r hr => ?_⟩
  obtain ⟨⟨-, hsrc⟩, hdst⟩ := I.routes r hr
  have hsrc : e.activeGen r.srcSlot = r.srcGen := hsrc
  have hdst : r.toMaster = false → e.activeGen r.dstSlot = r.dstGen := fun hm => (hdst hm).2
  have htouches : Tables.touches h.slot r = true ↔ Touches h r := by
    simp only [Tables.touches, Touches, Bool.or_eq_true, Bool.and_eq_true, beq_iff_eq,
      Bool.not_eq_true']
    constructor
    · rintro (hs | ⟨hm, hs⟩)
      · exact .inl ⟨hs, by rw [← hsrc, hs, hgen]⟩
      · exact .inr ⟨hm, hs, by rw [← hdst hm, hs, hgen]⟩
    · rintro (⟨hs, -⟩ | ⟨hm, hs, -⟩)
      · exact .inl hs
      · exact .inr ⟨hm, hs⟩
  rw [List.mem_filter, ← htouches]
  simp [hr]

theorem designates_of_matches (I : SlotInv e.tables) {h : InstanceHandle}
    (hg : h.generation ≠ 0) (hm : e.tables.Matches h) : e.tables.Designates h :=
  ⟨(I.active _).mp (hm.2 ▸ hg), hm.2⟩

theorem addsRoute_addRoute (I : SlotInv e.tables) (hv : cmd.Valid) :
    AddsRoute e (e.addRoute cmd) cmd.handle cmd.dest := by
  unfold addRoute
  dsimp only
  split_ifs with hsrc hroom hmaster hdst
  · exact ⟨rfl, .inl rfl⟩
  · exact ⟨rfl, .inl rfl⟩
  · exact ⟨rfl, .inr ⟨⟨_, rfl, ⟨rfl, rfl⟩, hmaster.symm, fun h => by cases h⟩,
      fun h => by rw [hmaster] at h; cases h⟩⟩
  · exact ⟨rfl, .inl rfl⟩
  · have hmaster : cmd.dest.toMaster = false := by simpa using hmaster
    refine ⟨rfl, .inr ⟨⟨_, rfl, ⟨rfl, rfl⟩, hmaster.symm, fun _ => ⟨rfl, rfl⟩⟩, fun _ => ?_⟩⟩
    obtain ⟨hlt, hgen⟩ := not_or.mp hdst
    exact designates_of_matches I (hv.2 hmaster) ⟨not_le.mp hlt, not_not.mp hgen⟩

theorem joins_of_routeMatches {r : ActiveRoute} (h : routeMatches cmd r = true) :
    Joins cmd.handle cmd.dest r := by
  unfold routeMatches at h
  split_ifs at h with hsrc hterm hmaster
  · obtain ⟨h₁, h₂⟩ := not_or.mp hsrc
    obtain ⟨-, h₃⟩ := not_or.mp hterm
    simp only [Bool.and_eq_true, beq_iff_eq] at h
    exact ⟨⟨not_not.mp h₁, not_not.mp h₂⟩, not_not.mp h₃, fun _ => h.1⟩
  · obtain ⟨h₁, h₂⟩ := not_or.mp hsrc
    obtain ⟨-, h₃⟩ := not_or.mp hterm
    exact ⟨⟨not_not.mp h₁, not_not.mp h₂⟩, not_not.mp h₃, fun h => by simp [h] at hmaster⟩

theorem removesRoutes_removeRoute (I : SlotInv e.tables) :
    RemovesRoutes e (e.removeRoute cmd) cmd.handle cmd.dest where
  engine := rfl
  kept := List.filter_sublist
  removed r hr hout := by
    have hmatch : routeMatches cmd r = true := by
      by_contra hno
      exact hout (List.mem_filter.mpr ⟨hr, by simpa using hno⟩)
    have hjoin := joins_of_routeMatches hmatch
    refine ⟨hjoin, fun hmaster => ?_⟩
    obtain ⟨-, hm, hdst⟩ := hjoin
    have hm := hm.trans hmaster
    obtain ⟨hslot, hgen⟩ := hdst hm
    have hlive := (I.routes r hr).2 hm
    rw [hslot, hgen] at hlive
    exact hlive

/-- **What a command changes**, the handle designating an active instance or not. -/
theorem drainCommand_acts [Sample α] (I : SlotInv e.tables) (hv : cmd.Valid)
    (htype : cmd.type ≠ .activate) :
    (¬ e.tables.Matches cmd.handle → e.drainCommand cmd = e) ∧
      (e.tables.Matches cmd.handle → ActsFor e (e.drainCommand cmd) cmd) := by
  have hmatch : e.tables.Matches cmd.handle ↔ cmd.handle.slot < e.mgr.capacity ∧
      e.activeGen cmd.handle.slot = cmd.handle.generation := Iff.rfl
  unfold ActsFor
  cases ht : cmd.type with
  | activate => exact absurd ht htype
  | kill =>
      refine ⟨fun h => ?_, fun h => ?_⟩
      · simp only [drainCommand, ht]
        exact if_neg h
      · simp only [drainCommand, ht]
        rw [if_pos (hmatch.mp h)]
        exact releases_releaseSlot I (designates_of_matches I hv.1 h)
  | setParameter =>
      refine ⟨fun h => ?_, fun h => ?_⟩
      · simp only [drainCommand, ht]
        exact if_neg h
      · simp only [drainCommand, ht]
        rw [if_pos (hmatch.mp h)]
        exact setsTargets_modifyInst fun g => g.setParameter_onlyTargets _ _ _
  | connect =>
      refine ⟨fun h => ?_, fun h => ?_⟩
      · simp only [drainCommand, ht, addRoute]
        rw [if_pos]
        by_contra hno
        obtain ⟨hlt, hgen⟩ := not_or.mp hno
        exact h ⟨not_le.mp hlt, not_not.mp hgen⟩
      · simp only [drainCommand, ht]
        exact addsRoute_addRoute I hv
  | disconnect =>
      refine ⟨fun h => ?_, fun h => ?_⟩
      · simp only [drainCommand, ht, removeRoute]
        have hkeep : e.routes.filter (fun r => !routeMatches cmd r) = e.routes := by
          refine List.filter_eq_self.mpr fun r hr => ?_
          by_contra hno
          obtain ⟨⟨hslot, hgen⟩, -⟩ := joins_of_routeMatches (by simpa using hno)
          obtain ⟨⟨hact, hsrc⟩, -⟩ := I.routes r hr
          rw [hslot] at hact hsrc
          exact h ⟨I.lt_of_active hact, hsrc.trans hgen⟩
        rw [hkeep]
      · simp only [drainCommand, ht]
        exact removesRoutes_removeRoute I

end Engine

/-! ### The voices of queued commands -/

/-- The commands sent, and those about to be, are for spawned voices. -/
structure IssuedInv (s : Session α) : Prop where
  queued : ∀ cmd ∈ s.rt.eng.commandQueue, cmd.IssuedFor (· ∈ s.spawned)
  sending : ∀ cmds, s.rt.call = .sending cmds → ∀ cmd ∈ cmds, cmd.IssuedFor (· ∈ s.spawned)
  planned : ∀ plan, s.rt.call = .spawning plan → plan.dest.toMaster = false →
    ∃ w ∈ s.spawned, plan.dest.inst = w.handle

namespace IssuedInv

variable [Sample α] {s s' : Session α}

omit [Sample α] in
/-- A valid voice the host uses is one `spawn` returned. -/
theorem mem_of_knows {v : Voice} (h : s.Knows v) (hv : v.valid = true) : v ∈ s.spawned := by
  rcases h with h | rfl
  · exact h
  · cases hv

theorem init {cfg : EngineConfig} {cb : Bool} (h : Session.init cfg cb = some s) :
    IssuedInv s := by
  obtain ⟨rt, hrt, rfl⟩ := Option.map_eq_some_iff.mp h
  obtain ⟨e, he, rfl⟩ := Option.map_eq_some_iff.mp hrt
  unfold Engine.init at he
  split at he
  · cases he
  · obtain rfl := Option.some.inj he
    exact ⟨fun cmd hc => (by cases hc), fun cmds h => (by cases h), fun plan h => (by cases h)⟩

theorem step (V : IssuedInv s) (I : RuntimeInv s.rt) {a : RuntimeAction α}
    (h : s.step a = some s') : IssuedInv s' := by
  have sub := Session.mem_spawned_of_step h
  obtain ⟨legal, out, hs, hs'⟩ := Session.step_cases h
  have hsp : s'.spawned = ((s.observeEnd a).observe out).spawned := by rw [hs']
  generalize hrt : s'.rt = rt' at hs
  have queued : ∀ cmd ∈ s.rt.eng.commandQueue, cmd.IssuedFor (· ∈ s'.spawned) :=
    fun cmd hc => (V.queued cmd hc).mono sub
  -- the call goes on as it was, or ends
  have goesOn : (∀ cmd ∈ rt'.eng.commandQueue, cmd.IssuedFor (· ∈ s'.spawned)) →
      rt'.call = s.rt.call → IssuedInv s' := by
    intro hq hc
    rw [← hrt] at hq hc
    refine ⟨hq, fun cmds h cmd hcmd => (V.sending cmds (hc ▸ h) cmd hcmd).mono sub,
      fun plan h hm => ?_⟩
    obtain ⟨w, hw, he⟩ := V.planned plan (hc ▸ h) hm
    exact ⟨w, sub w hw, he⟩
  have ends : (∀ cmd ∈ rt'.eng.commandQueue, cmd.IssuedFor (· ∈ s'.spawned)) →
      (∀ cmds, rt'.call ≠ .sending cmds) → (∀ plan, rt'.call ≠ .spawning plan) →
        IssuedInv s' := by
    intro hq hc hp
    rw [← hrt] at hq hc hp
    exact ⟨hq, fun cmds h => absurd h (hc cmds), fun plan h => absurd h (hp plan)⟩
  have reclaims : ∀ {v : VoiceEnd} {eng : Engine α}, s.rt.eng.reclaimOne = some (v, eng) →
      ∀ cmd ∈ eng.commandQueue, cmd.IssuedFor (· ∈ s'.spawned) := by
    intro v eng ok cmd hc
    obtain ⟨ev, rest, -, -, ht⟩ := Engine.tables_reclaimOne ok
    have hq : eng.commandQueue = s.rt.eng.commandQueue := congrArg Tables.commands ht
    exact queued cmd (hq ▸ hc)
  cases hs with
  | register | spawnRefused | requestRefused | deliver | finishPump => exact goesOn queued rfl
  | @spawn id opt plan may ok =>
      refine ⟨by rw [hrt]; exact queued, fun cmds h => ?_, fun p hp hm => ?_⟩
      · rw [hrt] at h; cases h
      · rw [hrt] at hp
        obtain rfl := Call.spawning.inj hp
        rcases Runtime.planSpawn_dest ok with hd | ⟨hv, dt, hd⟩
        · rw [hd] at hm; cases hm
        · exact ⟨opt.into, sub _ (mem_of_knows legal hv), by rw [hd]; rfl⟩
  | @request r cmds may ok =>
      refine ⟨by rw [hrt]; exact queued, fun cs h cmd hcmd => ?_, fun p hp => ?_⟩
      · rw [hrt] at h
        obtain rfl := Call.sending.inj h
        exact (Runtime.commands_issued ok cmd hcmd).2.mono fun v hv =>
          sub v (mem_of_knows (legal v hv.1) hv.2)
      · rw [hrt] at hp; cases hp
  | pump may main => exact ends queued (by simp) (by simp)
  | spawnFull call drained full => exact ends queued (by simp) (by simp)
  | sent call => exact ends queued (by simp) (by simp)
  | collected call drained => exact ends queued (by simp) (by simp)
  | spawnReclaims call ok => exact goesOn (reclaims ok) rfl
  | collects call ok cb => exact goesOn (reclaims ok) rfl
  | discards call ok cb => exact goesOn (reclaims ok) rfl
  | @spawnCreates plan hd eng call drained ok =>
      obtain ⟨hgen, hq, -⟩ := I.created call ok
      have hmem : (⟨hd, plan.id⟩ : Voice) ∈ s'.spawned := by
        rw [hsp.trans (s.observe_spawned_valid (v := ⟨hd, plan.id⟩) hgen).1]
        exact List.mem_append_right _ List.mem_cons_self
      refine ⟨fun cmd hc => ?_, fun cs h cmd hcmd => ?_, fun p hp => ?_⟩
      · have hc : cmd ∈ eng.commandQueue := by rw [hrt] at hc; exact hc
        rw [hq] at hc
        rcases List.mem_append.mp hc with hc | hc
        · exact queued cmd hc
        · obtain rfl := List.mem_singleton.mp hc
          exact ⟨⟨_, hmem, rfl⟩, fun hm => by cases hm⟩
      · rw [hrt] at h
        obtain rfl := Call.sending.inj h
        unfold Engine.spawnConnect at hcmd
        split at hcmd
        · obtain rfl := List.mem_singleton.mp hcmd
          refine ⟨⟨_, hmem, rfl⟩, fun hm => ?_⟩
          obtain ⟨w, hw, he⟩ := V.planned plan call hm
          exact ⟨w, sub w hw, he⟩
        · cases hcmd
      · rw [hrt] at hp; cases hp
  | @send cmd cmds call =>
      refine ⟨fun c hc => ?_, fun cs h c hc => ?_, fun p hp => ?_⟩
      · have hc : c ∈ s.rt.eng.commandQueue ++ [cmd] := by rw [hrt] at hc; exact hc
        rcases List.mem_append.mp hc with hc | hc
        · exact queued c hc
        · obtain rfl := List.mem_singleton.mp hc
          exact (V.sending _ call c List.mem_cons_self).mono sub
      · rw [hrt] at h
        obtain rfl := Call.sending.inj h
        exact (V.sending _ call c (List.mem_cons_of_mem cmd hc)).mono sub
      · rw [hrt] at hp; cases hp
  | @audio b eng thread ok =>
      exact goesOn (fun cmd hc => queued cmd (Engine.commands_of_audio thread ok cmd hc)) rfl

theorem of_reaches {cfg : EngineConfig} {cb : Bool} {ok : Session α → RuntimeAction α → Prop}
    (h : SessionReaches cfg cb ok s) : IssuedInv s :=
  h.invariant (fun _ => init) fun _ _ _ run V _ one =>
    V.step (Session.runtimeInv_of_reaches run) one

end IssuedInv

/-! ### Voices and their handles -/

/-- Voice number `k`, spawned as `v`, is active: its slot is, and is still its own. -/
def Session.IsActive (s : Session α) (k : Nat) (v : Voice) : Prop :=
  v.handle.slot ∈ s.rt.eng.activeList ∧ s.occupant v.handle.slot = k

/-- **A voice's handle passes the audio thread's test exactly while the voice is active.** -/
theorem Session.matches_iff_active {s : Session α} (I : SlotInv s.rt.eng.tables) (V : VoiceInv s)
    (few : s.spawned.length < 2 ^ 32 - 1) {k : Nat} {v : Voice} (hv : s.spawned[k]? = some v) :
    s.rt.eng.tables.Matches v.handle ↔ s.IsActive k v := by
  obtain ⟨-, numbered⟩ := V.numbered few
  have hgen := numbered k v hv
  -- the voice the slot belongs to while it is active
  have occupied : v.handle.slot ∈ s.rt.eng.activeList →
      s.rt.eng.activeGen v.handle.slot = s.occupant v.handle.slot + 1 := by
    intro hact
    have hfree : v.handle.slot ∉ s.rt.eng.mgr.freeSlots := fun hf =>
      I.not_active_of_free hf hact
    obtain ⟨w, hw, hh, -⟩ := V.occupied _ (I.lt_of_active hact) hfree
    have hwgen := numbered _ w hw
    rw [hh] at hwgen
    exact (I.activeGen _ hact).trans hwgen
  constructor
  · rintro ⟨-, hm⟩
    have hm : s.rt.eng.activeGen v.handle.slot = k + 1 := hm.trans hgen
    have hact := (I.active v.handle.slot).mp (show s.rt.eng.activeGen v.handle.slot ≠ 0 by omega)
    have := occupied hact
    exact ⟨hact, by omega⟩
  · rintro ⟨hact, hocc⟩
    exact ⟨I.lt_of_active hact, by rw [hgen, ← hocc]; exact occupied hact⟩

/-- **Handle safety.**  In every session of fewer than `2 ^ 32 - 1` spawns: the queued commands
are for spawned voices; a handle designates an active instance exactly while its own voice is
active; and a command for voice `k`, when it is drained, changes nothing unless voice `k` is
active, and then only what a command of its type may change of that voice. -/
theorem command_reaches_own_voice [Sample α] {cfg : EngineConfig} {cb : Bool}
    {ok : Session α → RuntimeAction α → Prop} {s : Session α} (run : SessionReaches cfg cb ok s)
    (few : s.spawned.length < 2 ^ 32 - 1) :
    (∀ cmd ∈ s.rt.eng.commandQueue, cmd.IssuedFor (· ∈ s.spawned)) ∧
      (∀ k v, s.spawned[k]? = some v →
        (s.rt.eng.tables.Designates v.handle ↔ s.IsActive k v)) ∧
      ∀ k v cmd rest, s.rt.eng.commandQueue = cmd :: rest → cmd.type ≠ .activate →
        s.spawned[k]? = some v → cmd.handle = v.handle →
          (¬ s.IsActive k v → { s.rt.eng with commandQueue := rest }.drainCommand cmd
            = { s.rt.eng with commandQueue := rest }) ∧
          (s.IsActive k v → ActsFor { s.rt.eng with commandQueue := rest }
            ({ s.rt.eng with commandQueue := rest }.drainCommand cmd) cmd) := by
  have R := Session.runtimeInv_of_reaches run
  have V := VoiceInv.of_reaches run
  have issued := (IssuedInv.of_reaches run).queued
  have I := R.engine.slots
  refine ⟨issued, fun k v hv => ?_, fun k v cmd rest hq htype hv hh => ?_⟩
  · rw [← Session.matches_iff_active I V few hv]
    exact ⟨fun hd => ⟨I.lt_of_active hd.1, hd.2⟩, fun hm => Engine.designates_of_matches I
      (by rw [(V.numbered few).2 k v hv]; omega) hm⟩
  · have hvalid := R.queued cmd (hq ▸ List.mem_cons_self) htype
    have I' : SlotInv { s.rt.eng with commandQueue := rest }.tables := I.dequeued hq htype
    have hm : { s.rt.eng with commandQueue := rest }.tables.Matches cmd.handle ↔ s.IsActive k v :=
      hh ▸ Session.matches_iff_active I V few hv
    rw [← hm]
    exact Engine.drainCommand_acts I' hvalid htype

/-- A bus is spawned and activated, and its kill sent twice. -/
def busKilledTwice : List (RuntimeAction ℚ) :=
  busSpawned ++ [.request (.kill ⟨⟨0, 1⟩, 0⟩), .advance, .advance,
    .request (.kill ⟨⟨0, 1⟩, 0⟩), .advance, .advance]

/-- The first kill releases the bus, the second changes nothing. -/
theorem command_reaches_own_voice_bus :
    (∃ s : Session ℚ, s.IsActive 0 ⟨⟨0, 1⟩, 0⟩ ∧
      Releases { s.rt.eng with commandQueue := [.kill ⟨0, 1⟩] }
        ({ s.rt.eng with commandQueue := [.kill ⟨0, 1⟩] }.drainCommand (.kill ⟨0, 1⟩)) ⟨0, 1⟩) ∧
    ∃ s : Session ℚ, s.rt.eng.commandQueue = [.kill ⟨0, 1⟩] ∧
      { s.rt.eng with commandQueue := [] }.drainCommand (.kill ⟨0, 1⟩)
        = { s.rt.eng with commandQueue := [] } := by
  obtain ⟨s, hs, hsp, hq, hact⟩ : ∃ s : Session ℚ,
      runs Session.step ((Session.init (.small 1 0 (by decide)) true).get rfl) busKilledTwice
        = some s ∧ s.spawned = [⟨⟨0, 1⟩, 0⟩] ∧
          s.rt.eng.commandQueue = [.kill ⟨0, 1⟩, .kill ⟨0, 1⟩] ∧ s.IsActive 0 ⟨⟨0, 1⟩, 0⟩ :=
    ⟨_, rfl, rfl, rfl, List.mem_singleton.mpr rfl, rfl⟩
  obtain ⟨t, ht, htsp, htq, hout⟩ : ∃ s : Session ℚ,
      runs Session.step ((Session.init (.small 1 0 (by decide)) true).get rfl)
        (busKilledTwice ++ [.audio .drain]) = some s ∧ s.spawned = [⟨⟨0, 1⟩, 0⟩] ∧
          s.rt.eng.commandQueue = [.kill ⟨0, 1⟩] ∧ s.rt.eng.activeList = [] :=
    ⟨_, rfl, rfl, rfl, rfl⟩
  have reached : ∀ {acts : List (RuntimeAction ℚ)} {s : Session ℚ},
      runs Session.step ((Session.init (.small 1 0 (by decide)) true).get rfl) acts = some s →
        SessionReaches (.small 1 0 (by decide)) true (fun _ _ => True) s :=
    fun h => ⟨_, rfl, Reaches.of_runs h⟩
  have first := (command_reaches_own_voice (reached hs) (by rw [hsp]; decide)).2.2 0
    ⟨⟨0, 1⟩, 0⟩ (.kill ⟨0, 1⟩) _ hq (by decide) (by rw [hsp]; rfl) rfl
  have second := (command_reaches_own_voice (reached ht) (by rw [htsp]; decide)).2.2 0
    ⟨⟨0, 1⟩, 0⟩ (.kill ⟨0, 1⟩) _ htq (by decide) (by rw [htsp]; rfl) rfl
  exact ⟨⟨s, hact, first.2 hact⟩,
    ⟨t, htq, second.1 fun h => by rw [Session.IsActive, hout] at h; cases h.1⟩⟩

end Xrune
