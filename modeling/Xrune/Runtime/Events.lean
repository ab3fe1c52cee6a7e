import Xrune.Runtime.Voices

/-!
# Runtime — end events

An end is recorded when the audio thread releases a slot.  The record waits in the telemetry
queue; `pump` takes it out and holds it until it calls the callback with the event it builds
from it.  Two other calls come in between:

* `spawn` begins with a `reclaim` of its own, which takes records out and reports them to
  nobody.  While no `spawn` finds a record there, every ended voice is reported exactly once.
* `spawn` from a callback may take a slot whose record is still held, and overwrites the
  slot's entry of `slot_blueprint`, which the event is built from.  While no `spawn` does so
  with another blueprint, every event carries the voice `spawn` returned.
-/

namespace Xrune

variable {α : Type}

namespace Session

variable [Sample α] {s s' : Session α} {a : RuntimeAction α}

/-! ### The records a pump holds -/

/-- What a step does to the records held: nothing, one collected, or the first delivered. -/
inductive HeldStep (s s' : Session α) : Prop where
  | same (held : s'.held = s.held) (scratch : s'.rt.endedScratch = s.rt.endedScratch)
      (reported : s'.reported = s.reported)
  | collected {e : VoiceEnd} {eng : Engine α} (ok : s.rt.eng.reclaimOne = some (e, eng))
      (held : s'.held = s.held ++ [s.occupant e.handle.slot])
      (scratch : s'.rt.endedScratch = s.rt.endedScratch ++ [e])
      (reported : s'.reported = s.reported)
  | delivered {e : VoiceEnd} {rest : List VoiceEnd} (first : s.rt.endedScratch = e :: rest)
      (held : s'.held = s.held.tail) (scratch : s'.rt.endedScratch = rest)
      (reported : s'.reported = s.reported ++ [(s.held.headD 0, s.rt.eventOf e)])

theorem heldStep (h : s.step a = some s') : HeldStep s s' := by
  obtain ⟨-, out, hs, hs'⟩ := step_cases h
  have hheld : s'.held = ((s.observeEnd a).observe out).held := by rw [hs']
  have hrep : s'.reported = ((s.observeEnd a).observe out).reported := by rw [hs']
  have hvoice : ∀ v, (s.observe (.spawned v)).held = s.held ∧
      (s.observe (.spawned v)).reported = s.reported := by
    intro v
    simp only [observe]
    split <;> exact ⟨rfl, rfl⟩
  generalize hrt : s'.rt = rt' at hs
  have hscratch : s'.rt.endedScratch = rt'.endedScratch := by rw [hrt]
  cases hs with
  | pump may main =>
      have hnil : s.rt.endedScratch = [] := by
        unfold Runtime.mayCall at may
        split at may
        · simpa [main] using may
        · cases may
      exact .same hheld (hscratch.trans hnil.symm) hrep
  | spawnFull call drained full => exact .same hheld hscratch hrep
  | spawnCreates call drained ok =>
      exact .same (hheld.trans (hvoice _).1) hscratch (hrep.trans (hvoice _).2)
  | collects call ok cb => exact .collected ok hheld hscratch hrep
  | deliver call scratch => exact .delivered scratch hheld hscratch hrep
  | @audio b eng thread ok =>
      exact .same (hheld.trans (observeEnd_held s (.audio b))) hscratch
        (hrep.trans (observeEnd_reported s (.audio b)))
  | register | spawnRefused | spawn | requestRefused | request | spawnReclaims | sent | send
  | discards | collected | finishPump => exact .same hheld hscratch hrep

end Session

/-- The voices held are those of the records held, and the voices reported those of the events,
as far as `R` and `Q` compare them. -/
structure HeldInv (R : Voice → VoiceEnd → Prop) (Q : Voice → VoiceEvent → Prop)
    (s : Session α) : Prop where
  held : List.Forall₂ (fun k e => ∃ v, s.spawned[k]? = some v ∧ R v e) s.held s.rt.endedScratch
  reported : ∀ p ∈ s.reported, ∃ v, s.spawned[p.1]? = some v ∧ Q v p.2

namespace HeldInv

variable [Sample α] {s s' : Session α} {a : RuntimeAction α}
  {R R' : Voice → VoiceEnd → Prop} {Q : Voice → VoiceEvent → Prop}

theorem step (H : HeldInv R Q s) (h : s.step a = some s')
    (keeps : ∀ e ∈ s.rt.endedScratch, ∀ v, R v e → R' v e)
    (collects : ∀ e eng, s.rt.eng.reclaimOne = some (e, eng) →
      ∃ v, s.spawned[s.occupant e.handle.slot]? = some v ∧ R' v e)
    (delivers : ∀ e ∈ s.rt.endedScratch, ∀ v, R v e → Q v (s.rt.eventOf e)) :
    HeldInv R' Q s' := by
  have known := fun {k : Nat} {v : Voice} (hv : s.spawned[k]? = some v) =>
    Session.spawned_getElem?_of_step h hv
  have held : List.Forall₂ (fun k e => ∃ v, s'.spawned[k]? = some v ∧ R' v e)
      s.held s.rt.endedScratch := by
    refine (List.forall₂_iff_get.mpr ?_)
    obtain ⟨hlen, hget⟩ := List.forall₂_iff_get.mp H.held
    refine ⟨hlen, fun i h₁ h₂ => ?_⟩
    obtain ⟨v, hv, hR⟩ := hget i h₁ h₂
    exact ⟨v, known hv, keeps _ (List.get_mem _ _) v hR⟩
  have reported : ∀ p ∈ s.reported, ∃ v, s'.spawned[p.1]? = some v ∧ Q v p.2 := by
    intro p hp
    obtain ⟨v, hv, hQ⟩ := H.reported p hp
    exact ⟨v, known hv, hQ⟩
  cases Session.heldStep h with
  | same hheld hscratch hrep => exact ⟨hheld ▸ hscratch ▸ held, hrep ▸ reported⟩
  | collected ok hheld hscratch hrep =>
      obtain ⟨v, hv, hR⟩ := collects _ _ ok
      refine ⟨?_, hrep ▸ reported⟩
      rw [hheld, hscratch]
      exact List.rel_append held (.cons ⟨v, known hv, hR⟩ .nil)
  | @delivered e rest first hheld hscratch hrep =>
      have hfirst := H.held
      rw [first] at hfirst held
      obtain ⟨k, ks, ⟨v, hv, hR⟩, -, hks⟩ := List.forall₂_cons_right_iff.mp hfirst
      rw [hks] at held hheld hrep
      refine ⟨?_, fun p hp => ?_⟩
      · rw [hheld, hscratch]
        exact (List.forall₂_cons.mp held).2
      · rw [hrep] at hp
        rcases List.mem_append.mp hp with hp | hp
        · exact reported p hp
        · obtain rfl := List.mem_singleton.mp hp
          exact ⟨v, known hv, delivers e (first ▸ List.mem_cons_self) v hR⟩

omit [Sample α] in
theorem mono (H : HeldInv R Q s) {Q' : Voice → VoiceEvent → Prop} (h : ∀ v ev, Q v ev → Q' v ev) :
    HeldInv R Q' s :=
  ⟨H.held, fun p hp => let ⟨v, hv, hQ⟩ := H.reported p hp; ⟨v, hv, h v p.2 hQ⟩⟩

theorem init {cfg : EngineConfig} {cb : Bool} (h : Session.init cfg cb = some s) :
    HeldInv R Q s := by
  obtain ⟨rt, hrt, rfl⟩ := Option.map_eq_some_iff.mp h
  obtain ⟨e, he, rfl⟩ := Option.map_eq_some_iff.mp hrt
  exact ⟨.nil, fun p hp => by cases hp⟩

end HeldInv

/-! ### The voice an event carries -/

section Identity

variable [Sample α] {s s' : Session α} {a : RuntimeAction α}

omit [Sample α] in
/-- The record taken out of the queue is its slot's voice's. -/
theorem Session.voice_of_record (I : SlotInv s.rt.eng.tables) (V : VoiceInv s) {e : VoiceEnd}
    {eng : Engine α} (ok : s.rt.eng.reclaimOne = some (e, eng)) :
    ∃ v, s.spawned[s.occupant e.handle.slot]? = some v ∧ v.handle = e.handle ∧
      s.rt.blueprintOf e.handle.slot = v.blueprint := by
  obtain ⟨ev, rest, hq, rfl, -⟩ := Engine.tables_reclaimOne ok
  have hmem : ev ∈ s.rt.eng.tables.ended := by rw [hq]; exact List.mem_cons_self
  obtain ⟨-, hfree, hlt⟩ := I.not_active_of_ended hmem
  obtain ⟨v, hv, hh, hb⟩ := V.occupied ev.slot hlt hfree
  refine ⟨v, hv, hh.trans ?_, hb⟩
  rw [show (s.rt.eng.mgr.slots ev.slot).generation = ev.generation from (I.ended ev hmem).2.symm]

/-- No `spawn` overwrites `slot_blueprint` under a record still held: the slot it is about to
take is no held record's, or its blueprint stays. -/
def Session.KeepsBlueprints (s : Session α) (a : RuntimeAction α) : Prop :=
  a = .advance → ∀ plan, s.rt.call = .spawning plan → s.rt.eng.telemetryQueue = [] →
    ∀ slot rest, s.rt.eng.mgr.freeSlots = slot :: rest →
      ∀ e ∈ s.rt.endedScratch, e.handle.slot = slot → s.rt.blueprintOf slot = plan.id

/-- A step leaves `slot_blueprint`, or is the creation of an instance. -/
theorem Session.slotBlueprint_of_step (h : s.step a = some s') :
    s'.rt.slotBlueprint = s.rt.slotBlueprint ∨
      ∃ plan slot rest, a = .advance ∧ s.rt.call = .spawning plan ∧
        s.rt.eng.telemetryQueue = [] ∧ s.rt.eng.mgr.freeSlots = slot :: rest ∧
        s'.rt.slotBlueprint = Runtime.setBlueprint s.rt.slotBlueprint slot plan.id := by
  obtain ⟨-, out, hs, -⟩ := step_cases h
  generalize s'.rt = rt' at hs
  cases hs with
  | @spawnCreates plan hd eng call drained ok =>
      obtain ⟨slot, rest, hfree, rfl, -⟩ := Engine.tables_create ok
      have hqueue : s.rt.eng.telemetryQueue = [] := by
        unfold Engine.reclaimOne at drained
        split at drained
        · assumption
        · cases drained
      exact .inr ⟨plan, slot, rest, rfl, call, hqueue, hfree, rfl⟩
  | _ => exact .inl rfl

theorem Session.blueprintOf_of_step (keeps : s.KeepsBlueprints a) (h : s.step a = some s') :
    ∀ e ∈ s.rt.endedScratch,
      s'.rt.blueprintOf e.handle.slot = s.rt.blueprintOf e.handle.slot := by
  intro e he
  rcases slotBlueprint_of_step h with same | ⟨plan, slot, rest, ha, call, hqueue, hfree, hset⟩
  · rw [Runtime.blueprintOf, same]; rfl
  · rw [Runtime.blueprintOf, hset, Runtime.blueprintOf_setBlueprint]
    split
    next hslot => rw [hslot, keeps ha plan call hqueue slot rest hfree e he hslot]
    · rfl

/-- **Event identity.**  In every session whose spawns overwrite no blueprint under a record
still held, every event the callback is called with carries the voice, handle and blueprint,
that `spawn` returned for the instance that ended. -/
theorem event_carries_spawned_voice {cfg : EngineConfig} {cb : Bool}
    {ok : Session α → RuntimeAction α → Prop} (keeps : ∀ s a, ok s a → s.KeepsBlueprints a)
    (run : SessionReaches cfg cb ok s) :
    ∀ p ∈ s.reported, s.spawned[p.1]? = some p.2.v := by
  have inv : HeldInv (fun v e => v = (s.rt.eventOf e).v) (fun v ev => v = ev.v) s := by
    refine run.invariant
      (P := fun s => HeldInv (fun v e => v = (s.rt.eventOf e).v) (fun v ev => v = ev.v) s)
      (fun _ => HeldInv.init) fun t a t' run H meets one => ?_
    have R := Session.runtimeInv_of_reaches run
    have V := VoiceInv.of_reaches run
    have same := Session.blueprintOf_of_step (keeps t a meets) one
    refine H.step one (fun e he v hv => ?_) (fun e eng ok => ?_) fun e _ v hv => hv
    · rw [hv, Runtime.eventOf, Runtime.eventOf, same e he]
    · obtain ⟨v, hv, hh, hb⟩ := Session.voice_of_record R.engine.slots V ok
      have hbp : t'.rt.slotBlueprint = t.rt.slotBlueprint := by
        rcases Session.slotBlueprint_of_step one with same | ⟨-, -, -, -, -, hqueue, -⟩
        · exact same
        · rw [Engine.reclaimOne, hqueue] at ok
          cases ok
      refine ⟨v, hv, ?_⟩
      rw [Runtime.eventOf, Runtime.blueprintOf, hbp, ← hh]
      rw [← hh] at hb
      exact congrArg (Voice.mk v.handle) hb.symm
  intro p hp
  obtain ⟨v, hv, rfl⟩ := inv.reported p hp
  exact hv

/-- A spawn finds nothing to reclaim and no record held. -/
def Session.quietSpawn (s : Session α) (_ : RuntimeAction α) : Bool :=
  match s.rt.call with
  | .spawning _ => s.rt.eng.telemetryQueue.isEmpty && s.rt.endedScratch.isEmpty
  | _ => true

omit [Sample α] in
theorem Session.keepsBlueprints_of_quiet (h : s.quietSpawn a = true) : s.KeepsBlueprints a := by
  intro _ plan call _ slot rest _ e he _
  simp only [quietSpawn, call, Bool.and_eq_true, List.isEmpty_iff] at h
  rw [h.2] at he
  cases he

/-- One bus, spawned, killed and reported. -/
def busReported : List (RuntimeAction ℚ) :=
  busSpawned ++ [.request (.kill ⟨⟨0, 1⟩, 0⟩), .advance, .advance, .audio .drain,
    .pump, .advance, .advance, .deliver, .finishPump]

/-- The bus's end is reported as the voice `spawn` returned. -/
theorem event_carries_spawned_voice_bus :
    ∃ s : Session ℚ, s.reported = [(0, ⟨⟨⟨0, 1⟩, 0⟩, .killed⟩)] ∧
      s.spawned[0]? = some ⟨⟨0, 1⟩, 0⟩ := by
  obtain ⟨s, hs, hrep, hmeet⟩ : ∃ s : Session ℚ,
      runs Session.step ((Session.init (.small 1 0 (by decide)) true).get rfl) busReported
        = some s ∧ s.reported = [(0, ⟨⟨⟨0, 1⟩, 0⟩, .killed⟩)] ∧
          allMeet Session.step Session.quietSpawn
            ((Session.init (.small 1 0 (by decide)) true).get rfl) busReported = true :=
    ⟨_, rfl, rfl, rfl⟩
  have reached : SessionReaches (.small 1 0 (by decide)) true
      (fun s a => s.quietSpawn a = true) s := ⟨_, rfl, Reaches.of_runs_meet hs hmeet⟩
  have carried := event_carries_spawned_voice (fun s a => Session.keepsBlueprints_of_quiet)
    reached (0, ⟨⟨⟨0, 1⟩, 0⟩, .killed⟩) (by rw [hrep]; simp)
  exact ⟨s, hrep, carried⟩

/-- Two buses of blueprint 0 end before one pump; the callback for the first spawns a bus of
blueprint 1, into the slot of the second. -/
def respawnedInCallback : List (RuntimeAction ℚ) :=
  [.register "a" busSchedule, .register "b" busSchedule,
    .spawn 0 { life := permanent }, .advance, .advance, .advance,
    .spawn 0 { life := permanent }, .advance, .advance, .advance,
    .request (.kill ⟨⟨0, 1⟩, 0⟩), .advance, .advance,
    .request (.kill ⟨⟨1, 2⟩, 0⟩), .advance, .advance,
    .audio (.begin 1), .audio .drain, .audio .drain, .audio .drain, .audio .drain, .audio .drain,
    .audio .drain, .pump, .advance, .advance, .advance, .deliver,
    .spawn 1 { life := permanent }, .advance, .advance, .advance, .deliver]

/-- **An event names the wrong blueprint.**  The second voice, spawned as `⟨⟨1, 2⟩, 0⟩`, is
reported with blueprint 1. -/
theorem event_with_overwritten_blueprint :
    ∃ s : Session ℚ,
      runs Session.step ((Session.init (.small 2 0 (by decide)) true).get rfl) respawnedInCallback
        = some s ∧ s.spawned[1]? = some ⟨⟨1, 2⟩, 0⟩ ∧
          (1, ⟨⟨⟨1, 2⟩, 1⟩, .killed⟩) ∈ s.reported :=
  ⟨_, rfl, rfl, by decide⟩

end Identity

/-! ### Every end is reported once -/

namespace Engine

variable [Sample α] {e e' : Engine α} {a : EngineAction α}

/-- The audio thread and the workers record an end exactly when they release a slot, which then
was active. -/
theorem ended_of_audio (I : EngineInv e) (valid : ∀ cmd ∈ e.commandQueue,
    cmd.type ≠ .activate → cmd.Valid) (ha : a.isAudio = true) (h : e.step a = some e') :
    (∀ slot, e.releasing a = some slot → slot ∈ e.activeList ∧
      ∃ gen why, e'.telemetryQueue = e.telemetryQueue ++ [⟨slot, gen, why⟩]) ∧
    (e.releasing a = none → e'.telemetryQueue = e.telemetryQueue) := by
  have still : e'.tables.ended = e.tables.ended → e.releasing a = none →
      (∀ slot, e.releasing a = some slot → slot ∈ e.activeList ∧
        ∃ gen why, e'.telemetryQueue = e.telemetryQueue ++ [⟨slot, gen, why⟩]) ∧
      (e.releasing a = none → e'.telemetryQueue = e.telemetryQueue) :=
    fun hq hr => ⟨fun slot hs => absurd (hr.symm.trans hs) (by simp), fun _ => hq⟩
  have room : ∀ {slot : Nat}, slot ∈ e.activeList →
      e.tables.ended.length < e.tables.endedCapacity :=
    fun hact => (I.slots.ended_length_lt hact).trans I.slots.room
  cases step_cases h with
  | reclaim ok => cases ha
  | create ok => cases ha
  | enqueue type => cases ha
  | raiseFinished valid => cases ha
  | @drain cmd rest phase queue =>
      have hrel : e.releasing .drain = if cmd.type = .kill ∧ e.tables.Matches cmd.handle then
          some cmd.handle.slot else none := by simp [releasing, phase, queue]
      by_cases hk : cmd.type = .kill ∧ e.tables.Matches cmd.handle
      · rw [if_pos hk] at hrel
        have hv := valid cmd (queue ▸ List.mem_cons_self) (by rw [hk.1]; simp)
        have hact : cmd.handle.slot ∈ e.activeList :=
          (I.slots.active _).mp (by rw [hk.2.2]; exact hv.1)
        refine ⟨fun slot hs => ?_, fun hs => absurd (hrel.symm.trans hs) (by simp)⟩
        obtain rfl := Option.some.inj (hrel.symm.trans hs)
        refine ⟨hact, e.activeGen cmd.handle.slot, .killed, ?_⟩
        have ht := (congrArg Tables.ended
          (tables_drainCommand { e with commandQueue := rest } cmd)).trans
            (Tables.drain_ended _ cmd)
        exact (ht.trans (if_pos hk)).trans (if_pos (room hact))
      · rw [if_neg hk] at hrel
        refine still ?_ hrel
        rw [tables_drainCommand, Tables.drain_ended]
        exact if_neg (c := cmd.type = .kill ∧ e.tables.Matches cmd.handle) hk
  | compute phase queue => exact still (congrArg Tables.ended (tables_computeBlock e)) rfl
  | finish phase => exact still (congrArg Tables.ended (tables_finishBlock e)) rfl
  | @reap slot why rest phase =>
      have hact : slot ∈ e.activeList :=
        (I.reaping _ phase).2 (slot, why) List.mem_cons_self
      have hrel : e.releasing .reap = some slot := by simp [releasing, phase]
      refine ⟨fun s hs => ?_, fun hs => absurd (hrel.symm.trans hs) (by simp)⟩
      obtain rfl := Option.some.inj (hrel.symm.trans hs)
      exact ⟨hact, _, why, (congrArg Tables.ended
        (tables_releaseSlot { e with phase := .reaping rest } slot why)).trans
          (if_pos (room hact))⟩
  | @work t slot pc thread => exact still (congrArg Tables.ended (tables_work e t slot pc)) rfl
  | begin | seed | seeded | leave | writeOut | poll | popEmpty | pop => exact still rfl rfl

end Engine

/-- No `spawn` finds an end record in the telemetry queue. -/
def Session.KeepsRecords (s : Session α) (a : RuntimeAction α) : Prop :=
  a = .advance → ∀ plan, s.rt.call = .spawning plan → s.rt.eng.telemetryQueue = []

/-- The voices that ended are those reported, those held and those whose record is queued, in
this order and each once; and no other voice that holds a slot is among them. -/
structure EndInv (s : Session α) : Prop where
  installed : s.rt.voiceEndCb = true
  records : s.ended = s.reported.map Prod.fst ++ s.held ++
    s.rt.eng.telemetryQueue.map fun ev => s.occupant ev.slot
  nodup : s.ended.Nodup
  known : ∀ k ∈ s.ended, k < s.spawned.length
  live : ∀ slot < s.rt.eng.mgr.capacity, slot ∉ s.rt.eng.mgr.freeSlots →
    slot ∉ s.rt.eng.telemetryQueue.map TelemetryEvent.slot → s.occupant slot ∉ s.ended

namespace EndInv

variable [Sample α] {s s' : Session α} {a : RuntimeAction α}

theorem init {cfg : EngineConfig} (h : Session.init cfg true = some s) : EndInv s := by
  obtain ⟨rt, hrt, rfl⟩ := Option.map_eq_some_iff.mp h
  obtain ⟨e, he, rfl⟩ := Option.map_eq_some_iff.mp hrt
  unfold Engine.init at he
  split at he
  · cases he
  · obtain rfl := Option.some.inj he
    exact
      { installed := rfl
        records := rfl
        nodup := List.nodup_nil
        known := fun k hk => by cases hk
        live := fun slot _ _ _ => List.not_mem_nil }

omit [Sample α] in
/-- The history and the queue stay, and no slot leaves the free list. -/
theorem kept (E : EndInv s) (hcb : s'.rt.voiceEndCb = s.rt.voiceEndCb)
    (hspawned : s'.spawned = s.spawned) (hocc : s'.occupant = s.occupant)
    (hended : s'.ended = s.ended) (hrep : s'.reported.map Prod.fst ++ s'.held
      = s.reported.map Prod.fst ++ s.held)
    (htables : s'.rt.eng.tables.ended = s.rt.eng.tables.ended)
    (hcap : s'.rt.eng.mgr.capacity = s.rt.eng.mgr.capacity)
    (hfree : s'.rt.eng.mgr.freeSlots = s.rt.eng.mgr.freeSlots) : EndInv s' := by
  have hqueue : s'.rt.eng.telemetryQueue = s.rt.eng.telemetryQueue := htables
  exact
    { installed := hcb.trans E.installed
      records := by rw [hended, hrep, hqueue, hocc]; exact E.records
      nodup := hended ▸ E.nodup
      known := by rw [hended, hspawned]; exact E.known
      live := by rw [hended, hocc, hqueue, hcap, hfree]; exact E.live }

omit [Sample α] in
/-- A record is taken out of the queue and held. -/
theorem collected (E : EndInv s) (I : SlotInv s.rt.eng.tables) {e : VoiceEnd} {eng : Engine α}
    (ok : s.rt.eng.reclaimOne = some (e, eng)) (heng : s'.rt.eng = eng)
    (hcb : s'.rt.voiceEndCb = s.rt.voiceEndCb)
    (hspawned : s'.spawned = s.spawned) (hocc : s'.occupant = s.occupant)
    (hended : s'.ended = s.ended) (hrep : s'.reported = s.reported)
    (hheld : s'.held = s.held ++ [s.occupant e.handle.slot]) : EndInv s' := by
  obtain ⟨ev, rest, hq, rfl, ht⟩ := Engine.tables_reclaimOne ok
  obtain ⟨-, -, hlt⟩ := I.not_active_of_ended (show ev ∈ s.rt.eng.tables.ended by simp [hq])
  have hq : s.rt.eng.telemetryQueue = ev :: rest := hq
  have hqueue : s'.rt.eng.telemetryQueue = rest := heng ▸ congrArg Tables.ended ht
  have hshape : s'.rt.eng.mgr.shape = s.rt.eng.mgr.shape.recycle ev.slot :=
    heng ▸ congrArg Tables.pool ht
  rw [PoolShape.recycle, if_neg (by exact not_le.mpr hlt)] at hshape
  have hcap : s'.rt.eng.mgr.capacity = s.rt.eng.mgr.capacity :=
    congrArg PoolShape.capacity hshape
  have hfree : s'.rt.eng.mgr.freeSlots = ev.slot :: s.rt.eng.mgr.freeSlots :=
    congrArg PoolShape.freeSlots hshape
  exact
    { installed := hcb.trans E.installed
      records := by rw [hended, hrep, hheld, hqueue, hocc, E.records, hq]; simp
      nodup := hended ▸ E.nodup
      known := by rw [hended, hspawned]; exact E.known
      live := by
        intro slot hslot hout hnot
        rw [hended, hocc]
        rw [hfree, List.mem_cons, not_or] at hout
        refine E.live slot (hcap ▸ hslot) hout.2 ?_
        rw [hq, List.map_cons, List.mem_cons, not_or]
        exact ⟨hout.1, hqueue ▸ hnot⟩ }

omit [Sample α] in
/-- A slot is released, and its voice's end recorded. -/
theorem released (E : EndInv s) (I : SlotInv s.rt.eng.tables) (V : VoiceInv s) {slot : Nat}
    (hact : slot ∈ s.rt.eng.activeList) {gen : Nat} {why : EndReason}
    (hqueue : s'.rt.eng.telemetryQueue = s.rt.eng.telemetryQueue ++ [⟨slot, gen, why⟩])
    (hshape : s'.rt.eng.mgr.shape = s.rt.eng.mgr.shape)
    (hcb : s'.rt.voiceEndCb = s.rt.voiceEndCb)
    (hspawned : s'.spawned = s.spawned) (hocc : s'.occupant = s.occupant)
    (hended : s'.ended = s.ended ++ [s.occupant slot]) (hrep : s'.reported = s.reported)
    (hheld : s'.held = s.held) : EndInv s' := by
  have hlt : slot < s.rt.eng.mgr.capacity := I.lt_of_active hact
  have hfree : slot ∉ s.rt.eng.mgr.freeSlots := fun hf => I.not_active_of_free hf hact
  have hqueued : slot ∉ s.rt.eng.telemetryQueue.map TelemetryEvent.slot := by
    intro hm
    obtain ⟨ev, hev, rfl⟩ := List.mem_map.mp hm
    exact (I.not_active_of_ended (show ev ∈ s.rt.eng.tables.ended from hev)).1 hact
  obtain ⟨v, hv, hh, -⟩ := V.occupied slot hlt hfree
  exact
    { installed := hcb.trans E.installed
      records := by rw [hended, hrep, hheld, hqueue, hocc, E.records]; simp
      nodup := by
        rw [hended]
        exact E.nodup.append (List.nodup_singleton _) (List.disjoint_singleton.mpr
          (E.live slot hlt hfree hqueued))
      known := by
        intro k hk
        rw [hended] at hk
        rw [hspawned]
        rcases List.mem_append.mp hk with hk | hk
        · exact E.known k hk
        · obtain rfl := List.mem_singleton.mp hk
          exact (List.getElem?_eq_some_iff.mp hv).1
      live := by
        intro other hother hout hnot
        have hout : other ∉ s.rt.eng.mgr.freeSlots :=
          (show s'.rt.eng.mgr.freeSlots = s.rt.eng.mgr.freeSlots from
            congrArg PoolShape.freeSlots hshape) ▸ hout
        have hother : other < s.rt.eng.mgr.capacity :=
          (show s'.rt.eng.mgr.capacity = s.rt.eng.mgr.capacity from
            congrArg PoolShape.capacity hshape) ▸ hother
        rw [hqueue, List.map_append, List.mem_append, not_or] at hnot
        rw [hended, hocc, List.mem_append, not_or]
        refine ⟨E.live other hother hout hnot.1, fun hm => ?_⟩
        -- two slots in use hold two voices
        obtain ⟨w, hw, hwh, -⟩ := V.occupied other hother hout
        rw [List.mem_singleton.mp hm] at hw
        obtain rfl := Option.some.inj (hv.symm.trans hw)
        have hslots := congrArg InstanceHandle.slot (hh.symm.trans hwh)
        exact hnot.2 (by simpa using hslots.symm) }

/-- A voice is created in a free slot. -/
theorem created (E : EndInv s) (I : SlotInv s.rt.eng.tables)
    {sched : CompiledSchedule α} {life : LifetimePolicy α} {init : List (InitialParam α)}
    {h : InstanceHandle} {eng : Engine α} {id : Nat}
    (ok : s.rt.eng.create sched life init = some (h, eng)) (heng : s'.rt.eng = eng)
    (hcb : s'.rt.voiceEndCb = s.rt.voiceEndCb) (hspawned : s'.spawned = s.spawned ++ [⟨h, id⟩])
    (hocc : s'.occupant = Function.update s.occupant h.slot s.spawned.length)
    (hended : s'.ended = s.ended) (hrep : s'.reported = s.reported) (hheld : s'.held = s.held) :
    EndInv s' := by
  obtain ⟨idx, rest, hfree, rfl, ht⟩ := Engine.tables_create ok
  have hmem : idx ∈ s.rt.eng.tables.pool.freeSlots := hfree ▸ List.mem_cons_self
  have hqueue : s'.rt.eng.telemetryQueue = s.rt.eng.telemetryQueue :=
    heng ▸ congrArg Tables.ended ht
  have hcap : s'.rt.eng.mgr.capacity = s.rt.eng.mgr.capacity :=
    heng ▸ congrArg (fun T => T.pool.capacity) ht
  have hfree' : s'.rt.eng.mgr.freeSlots = rest :=
    heng ▸ congrArg (fun T => T.pool.freeSlots) ht
  have hsame : s.rt.eng.telemetryQueue.map (fun ev => s'.occupant ev.slot)
      = s.rt.eng.telemetryQueue.map fun ev => s.occupant ev.slot :=
    List.map_congr_left fun ev hev => by
      rw [hocc, Function.update_of_ne (I.not_ended_of_free hmem ev hev)]
  exact
    { installed := hcb.trans E.installed
      records := by rw [hended, hrep, hheld, hqueue, hsame]; exact E.records
      nodup := hended ▸ E.nodup
      known := by
        intro k hk
        have := E.known k (hended ▸ hk)
        rw [hspawned, List.length_append]
        omega
      live := by
        intro slot hslot hout hnot
        rw [hended, hocc]
        by_cases hs : slot = idx
        · subst hs
          rw [Function.update_self]
          exact fun hm => absurd (E.known _ hm) (lt_irrefl _)
        · rw [Function.update_of_ne hs]
          refine E.live slot (hcap ▸ hslot) (fun hm => hout ?_) (hqueue ▸ hnot)
          have hm : slot ∈ idx :: rest := hfree ▸ hm
          rw [hfree']
          exact (List.mem_cons.mp hm).resolve_left hs }

theorem step (E : EndInv s) (I : RuntimeInv s.rt) (V : VoiceInv s)
    (hlen : s.held.length = s.rt.endedScratch.length) (keeps : s.KeepsRecords a)
    (h : s.step a = some s') : EndInv s' := by
  obtain ⟨-, out, hs, hs'⟩ := Session.step_cases h
  have hsp : s'.spawned = ((s.observeEnd a).observe out).spawned := by rw [hs']
  have hoc : s'.occupant = ((s.observeEnd a).observe out).occupant := by rw [hs']
  have hen : s'.ended = ((s.observeEnd a).observe out).ended := by rw [hs']
  have hre : s'.reported = ((s.observeEnd a).observe out).reported := by rw [hs']
  have hhe : s'.held = ((s.observeEnd a).observe out).held := by rw [hs']
  generalize hrt : s'.rt = rt' at hs
  cases hs with
  | @spawnReclaims plan v eng call ok =>
      rw [Engine.reclaimOne, keeps rfl plan call] at ok
      cases ok
  | @spawnCreates plan hd eng call drained ok =>
      obtain ⟨hgen, -, -⟩ := I.created call ok
      have hv : (⟨hd, plan.id⟩ : Voice).handle.valid = true := by
        simpa [InstanceHandle.valid] using hgen
      simp only [Session.observeEnd, Session.observe, if_pos hv] at hsp hoc hen hre hhe
      exact E.created I.engine.slots ok (by rw [hrt]) (by rw [hrt]) hsp hoc hen hre hhe
  | collects call ok cb =>
      exact E.collected I.engine.slots ok (by rw [hrt]) (by rw [hrt]) hsp hoc hen hre hhe
  | discards call ok cb => exact absurd (E.installed.symm.trans cb) (by simp)
  | @deliver e rest call scratch =>
      obtain ⟨k, ks, hk⟩ : ∃ k ks, s.held = k :: ks :=
        List.exists_cons_of_length_pos (by rw [hlen, scratch]; simp)
      refine E.kept (by rw [hrt]) hsp hoc hen ?_ (by rw [hrt]) (by rw [hrt]) (by rw [hrt])
      rw [hre, hhe]
      simp [Session.observe, Session.observeEnd, hk]
  | @audio b eng thread ok =>
      obtain ⟨hrel, hstill⟩ := Engine.ended_of_audio I.engine I.queued thread ok
      have hshape := Engine.shape_of_audio thread ok
      cases hr : s.rt.eng.releasing b with
      | some slot =>
          obtain ⟨hact, gen, why, hq⟩ := hrel slot hr
          simp only [Session.observeEnd, Session.observe, hr] at hsp hoc hen hre hhe
          exact E.released I.engine.slots V hact (by rw [hrt]; exact hq) (by rw [hrt]; exact hshape)
            (by rw [hrt]) hsp hoc hen hre hhe
      | none =>
          simp only [Session.observeEnd, Session.observe, hr] at hsp hoc hen hre hhe
          refine E.kept (by rw [hrt]) hsp hoc hen (by rw [hre, hhe])
            (by rw [hrt]; exact hstill hr) ?_ ?_
          · rw [hrt]; exact congrArg PoolShape.capacity hshape
          · rw [hrt]; exact congrArg PoolShape.freeSlots hshape
  | register | spawnRefused | spawn | requestRefused | request | pump | spawnFull | sent
  | collected | finishPump =>
      exact E.kept (by rw [hrt]) hsp hoc hen (by rw [hre, hhe]; rfl) (by rw [hrt]) (by rw [hrt])
        (by rw [hrt])
  | send call =>
      exact E.kept (by rw [hrt]) hsp hoc hen (by rw [hre, hhe]; rfl) (by rw [hrt]; rfl)
        (by rw [hrt]; rfl) (by rw [hrt]; rfl)

end EndInv

/-- **Ends are reported once.**  In every session with a callback whose spawns find no end record
in the telemetry queue, no voice is reported twice, and none that has not ended; an event carries
its voice's handle; and when the queue is empty and no record is held, every voice that ended has
been reported. -/
theorem ends_reported_once [Sample α] {cfg : EngineConfig}
    {ok : Session α → RuntimeAction α → Prop} {s : Session α}
    (keeps : ∀ s a, ok s a → s.KeepsRecords a) (run : SessionReaches cfg true ok s) :
    (s.reported.map Prod.fst).Nodup ∧
      (∀ p ∈ s.reported, p.1 ∈ s.ended ∧
        ∃ v, s.spawned[p.1]? = some v ∧ v.handle = p.2.v.handle) ∧
      (s.rt.eng.telemetryQueue = [] → s.rt.endedScratch = [] →
        s.reported.map Prod.fst = s.ended ∧ s.ended.Nodup) := by
  have both : EndInv s ∧ HeldInv (fun v e => v.handle = e.handle)
      (fun v ev => v.handle = ev.v.handle) s := by
    refine run.invariant (P := fun s => EndInv s ∧ HeldInv (fun v e => v.handle = e.handle)
      (fun v ev => v.handle = ev.v.handle) s) (fun _ h₀ => ⟨.init h₀, .init h₀⟩) ?_
    rintro t a t' run ⟨E, H⟩ meets one
    have R := Session.runtimeInv_of_reaches run
    have V := VoiceInv.of_reaches run
    refine ⟨E.step R V H.held.length_eq (keeps t a meets) one, H.step one (fun _ _ _ h => h)
      (fun e eng ok => ?_) fun _ _ _ h => h⟩
    obtain ⟨v, hv, hh, -⟩ := Session.voice_of_record R.engine.slots V ok
    exact ⟨v, hv, hh⟩
  obtain ⟨E, H⟩ := both
  have hsub : (s.reported.map Prod.fst).Sublist s.ended := by
    rw [E.records]
    exact (List.sublist_append_left _ _).trans (List.sublist_append_left _ _)
  refine ⟨hsub.nodup E.nodup, fun p hp => ⟨hsub.subset (List.mem_map_of_mem hp), ?_⟩,
    fun hqueue hscratch => ⟨?_, E.nodup⟩⟩
  · exact H.reported p hp
  · have hheld : s.held = [] := List.length_eq_zero_iff.mp
      (by rw [H.held.length_eq, hscratch]; rfl)
    rw [E.records, hqueue, hheld]
    simp

theorem Session.keepsRecords_of_quiet {s : Session α} {a : RuntimeAction α}
    (h : s.quietSpawn a = true) : s.KeepsRecords a := by
  intro _ plan call
  simp only [quietSpawn, call, Bool.and_eq_true, List.isEmpty_iff] at h
  exact h.1

/-- One bus ends, and is reported. -/
theorem ends_reported_once_bus :
    ∃ s : Session ℚ, s.ended = [0] ∧ s.reported.map Prod.fst = s.ended := by
  obtain ⟨s, hs, hend, hqueue, hscratch, hmeet⟩ : ∃ s : Session ℚ,
      runs Session.step ((Session.init (.small 1 0 (by decide)) true).get rfl) busReported
        = some s ∧ s.ended = [0] ∧ s.rt.eng.telemetryQueue = [] ∧ s.rt.endedScratch = [] ∧
          allMeet Session.step Session.quietSpawn
            ((Session.init (.small 1 0 (by decide)) true).get rfl) busReported = true :=
    ⟨_, rfl, rfl, rfl, rfl, rfl⟩
  have reached : SessionReaches (.small 1 0 (by decide)) true
      (fun s a => s.quietSpawn a = true) s := ⟨_, rfl, Reaches.of_runs_meet hs hmeet⟩
  have once := ends_reported_once (fun s a => Session.keepsRecords_of_quiet) reached
  exact ⟨s, hend, (once.2.2 hqueue hscratch).1⟩

/-- A bus is spawned and killed, and another spawned before the pump. -/
def spawnedBeforePump : List (RuntimeAction ℚ) :=
  busSpawned ++ [.request (.kill ⟨⟨0, 1⟩, 0⟩), .advance, .advance, .audio .drain,
    .spawn 0 { life := permanent }, .advance, .advance, .advance, .advance, .pump, .advance]

/-- **An end is never reported.**  The second spawn's own `reclaim` takes the record out; after
the pump the queue is empty, no record is held, and the voice that ended is not reported. -/
theorem end_lost_to_spawn :
    ∃ s : Session ℚ,
      runs Session.step ((Session.init (.small 1 0 (by decide)) true).get rfl) spawnedBeforePump
        = some s ∧ s.ended = [0] ∧ s.reported = [] ∧ s.rt.eng.telemetryQueue = [] ∧
          s.rt.endedScratch = [] ∧ s.rt.mayCall = true ∧ s.rt.inCallback = false :=
  ⟨_, rfl, rfl, rfl, rfl, rfl, rfl, rfl⟩

end Xrune
