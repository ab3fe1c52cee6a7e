import Xrune.Runtime.Session

/-!
# Runtime — voices and slots

Which voice a slot belongs to.  A slot that is not free holds the voice last spawned into it,
under the handle `spawn` returned, and `slot_blueprint` names that voice's blueprint.  Below
`2 ^ 32 - 1` spawns the generation counter has not wrapped, so the generation of a voice is its
number plus one and no two voices share a handle.
-/

namespace Xrune

variable {α : Type}

namespace Session

@[simp] theorem observeEnd_spawned (s : Session α) (a : RuntimeAction α) :
    (s.observeEnd a).spawned = s.spawned := by
  cases a with
  | audio a => simp only [observeEnd]; split <;> rfl
  | _ => rfl

@[simp] theorem observeEnd_occupant (s : Session α) (a : RuntimeAction α) :
    (s.observeEnd a).occupant = s.occupant := by
  cases a with
  | audio a => simp only [observeEnd]; split <;> rfl
  | _ => rfl

@[simp] theorem observeEnd_held (s : Session α) (a : RuntimeAction α) :
    (s.observeEnd a).held = s.held := by
  cases a with
  | audio a => simp only [observeEnd]; split <;> rfl
  | _ => rfl

@[simp] theorem observeEnd_reported (s : Session α) (a : RuntimeAction α) :
    (s.observeEnd a).reported = s.reported := by
  cases a with
  | audio a => simp only [observeEnd]; split <;> rfl
  | _ => rfl

theorem observe_spawned_valid (s : Session α) {v : Voice} (h : v.handle.generation ≠ 0) :
    (s.observe (.spawned v)).spawned = s.spawned ++ [v] ∧
      (s.observe (.spawned v)).occupant
        = Function.update s.occupant v.handle.slot s.spawned.length := by
  have hv : v.handle.valid = true := by simpa [InstanceHandle.valid] using h
  simp [observe, hv]

/-- The host forgets no voice. -/
theorem spawned_of_step [Sample α] {s s' : Session α} {a : RuntimeAction α}
    (h : s.step a = some s') : ∃ l, s'.spawned = s.spawned ++ l := by
  obtain ⟨-, out, -, hs'⟩ := step_cases h
  have grows : ∃ l, ((s.observeEnd a).observe out).spawned = (s.observeEnd a).spawned ++ l := by
    cases out with
    | spawned w =>
        simp only [observe]
        split
        · exact ⟨[w], rfl⟩
        · exact ⟨[], (List.append_nil _).symm⟩
    | _ => exact ⟨[], (List.append_nil _).symm⟩
  rw [hs']
  rwa [observeEnd_spawned] at grows

theorem mem_spawned_of_step [Sample α] {s s' : Session α} {a : RuntimeAction α}
    (h : s.step a = some s') : ∀ v ∈ s.spawned, v ∈ s'.spawned := by
  obtain ⟨l, hl⟩ := spawned_of_step h
  exact fun v hv => hl ▸ List.mem_append_left l hv

/-- A voice keeps its number. -/
theorem spawned_getElem?_of_step [Sample α] {s s' : Session α} {a : RuntimeAction α}
    (h : s.step a = some s') {k : Nat} {v : Voice} (hv : s.spawned[k]? = some v) :
    s'.spawned[k]? = some v := by
  obtain ⟨l, hl⟩ := spawned_of_step h
  rw [hl, List.getElem?_append_left (List.getElem?_eq_some_iff.mp hv).1, hv]

theorem observe_spawned_none (s : Session α) : s.observe (.spawned noVoice) = s := rfl

end Session

namespace Runtime

theorem blueprintOf_setBlueprint (table : List Nat) (slot id s : Nat) :
    (setBlueprint table slot id).getD s invalidBlueprint
      = if s = slot then id else table.getD s invalidBlueprint := by
  unfold setBlueprint
  by_cases hs : s = slot
  · subst hs
    have hlt : s < (table ++ List.replicate (s + 1 - table.length) invalidBlueprint).length := by
      rw [List.length_append, List.length_replicate]; omega
    simp only [if_true, List.getD_eq_getElem?_getD, List.getElem?_set_self hlt, Option.getD_some]
  · rw [if_neg hs]
    simp only [List.getD_eq_getElem?_getD, List.getElem?_set_ne (Ne.symm hs)]
    by_cases hlt : s < table.length
    · rw [List.getElem?_append_left hlt]
    · rw [List.getElem?_append_right (by omega), List.getElem?_eq_none (l := table) (by omega),
        List.getElem?_replicate]
      split <;> rfl

end Runtime

namespace Engine

variable [Sample α] {e e' : Engine α} {a : EngineAction α}

/-- The audio thread and the workers leave the pool's shape. -/
theorem shape_of_audio (ha : a.isAudio = true) (h : e.step a = some e') :
    e'.mgr.shape = e.mgr.shape := by
  cases step_cases h with
  | reclaim ok => cases ha
  | create ok => cases ha
  | enqueue type => cases ha
  | raiseFinished valid => cases ha
  | @drain cmd rest phase queue =>
      have ht := tables_drainCommand { e with commandQueue := rest } cmd
      exact (congrArg Tables.pool ht).trans ({ e.tables with commands := rest }.drain_keeps cmd).1
  | compute phase queue => exact congrArg Tables.pool (tables_computeBlock e)
  | finish phase => exact congrArg Tables.pool (tables_finishBlock e)
  | @reap slot why rest phase =>
      exact (congrArg Tables.pool
        (tables_releaseSlot { e with phase := .reaping rest } slot why)).trans rfl
  | @work t slot pc thread => exact congrArg Tables.pool (tables_work e t slot pc)
  | begin | seed | seeded | leave | writeOut | poll | popEmpty | pop => rfl

end Engine

/-- The voices and the slots they were spawned into. -/
structure VoiceInv (s : Session α) : Prop where
  occupied : ∀ slot < s.rt.eng.mgr.capacity, slot ∉ s.rt.eng.mgr.freeSlots →
    ∃ v, s.spawned[s.occupant slot]? = some v ∧
      v.handle = ⟨slot, (s.rt.eng.mgr.slots slot).generation⟩ ∧
      s.rt.blueprintOf slot = v.blueprint
  numbered : s.spawned.length < 2 ^ 32 - 1 →
    s.rt.eng.mgr.nextGeneration = s.spawned.length + 1 ∧
      ∀ k v, s.spawned[k]? = some v → v.handle.generation = k + 1

namespace VoiceInv

variable [Sample α] {s s' : Session α}

theorem init {cfg : EngineConfig} {cb : Bool} (h : Session.init cfg cb = some s) :
    VoiceInv s := by
  obtain ⟨rt, hrt, rfl⟩ := Option.map_eq_some_iff.mp h
  obtain ⟨e, he, rfl⟩ := Option.map_eq_some_iff.mp hrt
  unfold Engine.init at he
  split at he
  · cases he
  · obtain rfl := Option.some.inj he
    exact
      { occupied := fun slot hlt hout => absurd (List.mem_range.mpr hlt) hout
        numbered := fun _ => ⟨rfl, fun k v hv => by simp at hv⟩ }

omit [Sample α] in
/-- Nothing changes but that slots are freed. -/
theorem freed (V : VoiceInv s) (hspawned : s'.spawned = s.spawned)
    (hocc : s'.occupant = s.occupant) (hbp : s'.rt.slotBlueprint = s.rt.slotBlueprint)
    (hcap : s'.rt.eng.mgr.capacity = s.rt.eng.mgr.capacity)
    (hnext : s'.rt.eng.mgr.nextGeneration = s.rt.eng.mgr.nextGeneration)
    (hgen : ∀ slot, (s'.rt.eng.mgr.slots slot).generation
      = (s.rt.eng.mgr.slots slot).generation)
    (hfree : ∀ slot ∈ s.rt.eng.mgr.freeSlots, slot ∈ s'.rt.eng.mgr.freeSlots) : VoiceInv s' where
  occupied slot hlt hout := by
    rw [hspawned, hocc, hgen, Runtime.blueprintOf, hbp]
    exact V.occupied slot (hcap ▸ hlt) fun h => hout (hfree slot h)
  numbered h := by
    rw [hspawned] at h ⊢
    rw [hnext]
    exact V.numbered h

omit [Sample α] in
/-- The pool is as it was. -/
theorem same_shape (V : VoiceInv s) (hspawned : s'.spawned = s.spawned)
    (hocc : s'.occupant = s.occupant) (hbp : s'.rt.slotBlueprint = s.rt.slotBlueprint)
    (hshape : s'.rt.eng.mgr.shape = s.rt.eng.mgr.shape) : VoiceInv s' :=
  V.freed hspawned hocc hbp (congrArg PoolShape.capacity hshape)
    (congrArg PoolShape.nextGeneration hshape)
    (fun slot => congrFun (congrArg PoolShape.generation hshape) slot)
    (fun _ h => (show s'.rt.eng.mgr.freeSlots = s.rt.eng.mgr.freeSlots from
      congrArg PoolShape.freeSlots hshape) ▸ h)

omit [Sample α] in
/-- A record is taken out of the telemetry queue and its slot freed. -/
theorem reclaimed (V : VoiceInv s) {v : VoiceEnd} {eng : Engine α}
    (ok : s.rt.eng.reclaimOne = some (v, eng)) (hspawned : s'.spawned = s.spawned)
    (hocc : s'.occupant = s.occupant) (hbp : s'.rt.slotBlueprint = s.rt.slotBlueprint)
    (heng : s'.rt.eng = eng) : VoiceInv s' := by
  obtain ⟨ev, rest, -, -, ht⟩ := Engine.tables_reclaimOne ok
  have hshape : s'.rt.eng.mgr.shape = s.rt.eng.mgr.shape.recycle ev.slot :=
    heng ▸ congrArg Tables.pool ht
  unfold PoolShape.recycle at hshape
  split at hshape
  · exact V.same_shape hspawned hocc hbp hshape
  · refine V.freed hspawned hocc hbp (congrArg PoolShape.capacity hshape)
      (congrArg PoolShape.nextGeneration hshape)
      (fun slot => congrFun (congrArg PoolShape.generation hshape) slot) fun slot h => ?_
    rw [show s'.rt.eng.mgr.freeSlots = ev.slot :: s.rt.eng.mgr.freeSlots from
      congrArg PoolShape.freeSlots hshape]
    exact List.mem_cons_of_mem _ h

/-- A voice is spawned. -/
theorem created (V : VoiceInv s) {sched : CompiledSchedule α}
    {life : LifetimePolicy α} {init : List (InitialParam α)} {h : InstanceHandle}
    {eng : Engine α} {id : Nat} (ok : s.rt.eng.create sched life init = some (h, eng))
    (hspawned : s'.spawned = s.spawned ++ [⟨h, id⟩])
    (hocc : s'.occupant = Function.update s.occupant h.slot s.spawned.length)
    (hbp : s'.rt.slotBlueprint = Runtime.setBlueprint s.rt.slotBlueprint h.slot id)
    (heng : s'.rt.eng = eng) : VoiceInv s' := by
  obtain ⟨idx, rest, hfree, rfl, ht⟩ := Engine.tables_create ok
  have hshape : s'.rt.eng.mgr.shape = s.rt.eng.mgr.shape.take idx rest :=
    heng ▸ congrArg Tables.pool ht
  have hgen := congrArg PoolShape.generation hshape
  have hbpOf : ∀ slot, s'.rt.blueprintOf slot
      = if slot = idx then id else s.rt.blueprintOf slot := by
    intro slot
    rw [Runtime.blueprintOf, hbp, Runtime.blueprintOf_setBlueprint]
    rfl
  refine ⟨fun slot hlt hout => ?_, fun hlen => ?_⟩
  · have hgs : (s'.rt.eng.mgr.slots slot).generation = _ := congrFun hgen slot
    rw [hspawned, hocc, hgs, hbpOf]
    by_cases hs : slot = idx
    · subst hs
      exact ⟨⟨⟨slot, s.rt.eng.mgr.nextGeneration⟩, id⟩, by simp [Engine.tables,
        InstanceManager.shape], by simp [PoolShape.take, InstanceManager.shape], by simp⟩
    · have hout' : slot ∉ s.rt.eng.mgr.freeSlots := by
        intro hm
        refine hout ?_
        rw [show s'.rt.eng.mgr.freeSlots = rest from congrArg PoolShape.freeSlots hshape]
        have hm : slot ∈ idx :: rest := hfree ▸ hm
        exact (List.mem_cons.mp hm).resolve_left hs
      have hlt' : slot < s.rt.eng.mgr.capacity :=
        (show s'.rt.eng.mgr.capacity = s.rt.eng.mgr.capacity from
          congrArg PoolShape.capacity hshape) ▸ hlt
      obtain ⟨v, hv, hhandle, hblue⟩ := V.occupied slot hlt' hout'
      refine ⟨v, ?_, ?_, ?_⟩
      · rw [Function.update_of_ne hs]
        have := (List.getElem?_eq_some_iff.mp hv).1
        rw [List.getElem?_append_left this]
        exact hv
      · rw [hhandle]
        simp [PoolShape.take, InstanceManager.shape, Function.update_of_ne hs]
      · rw [if_neg hs]; exact hblue
  · rw [hspawned, List.length_append, List.length_singleton] at hlen
    obtain ⟨hnext, hnum⟩ := V.numbered (by omega)
    have hnext' : s'.rt.eng.mgr.nextGeneration
        = bumpGeneration s.rt.eng.mgr.nextGeneration :=
      congrArg PoolShape.nextGeneration hshape
    refine ⟨?_, fun k v hv => ?_⟩
    · rw [hnext', hnext, hspawned, List.length_append, List.length_singleton, bumpGeneration,
        Nat.mod_eq_of_lt (by omega), if_neg (by omega)]
    · rw [hspawned] at hv
      by_cases hk : k < s.spawned.length
      · rw [List.getElem?_append_left hk] at hv
        exact hnum k v hv
      · rw [List.getElem?_append_right (by omega)] at hv
        have hk0 : k - s.spawned.length = 0 := by
          by_contra hne
          rw [List.getElem?_eq_none (by simp; omega)] at hv
          cases hv
        rw [hk0] at hv
        obtain rfl := Option.some.inj hv
        change s.rt.eng.mgr.nextGeneration = k + 1
        rw [hnext]
        omega

theorem step (V : VoiceInv s) (I : RuntimeInv s.rt) {a : RuntimeAction α}
    (h : s.step a = some s') : VoiceInv s' := by
  obtain ⟨-, out, hs, hs'⟩ := Session.step_cases h
  have hsp : s'.spawned = ((s.observeEnd a).observe out).spawned := by rw [hs']
  have hoc : s'.occupant = ((s.observeEnd a).observe out).occupant := by rw [hs']
  generalize hrt : s'.rt = rt' at hs
  cases hs with
  | spawnReclaims call ok =>
      exact V.reclaimed ok hsp hoc (by rw [hrt]) (by rw [hrt])
  | @spawnCreates plan hd eng call drained ok =>
      obtain ⟨hgen, -, -⟩ := I.created call ok
      obtain ⟨h₁, h₂⟩ := s.observe_spawned_valid (v := ⟨hd, plan.id⟩) hgen
      exact V.created ok (hsp.trans h₁) (hoc.trans h₂) (by rw [hrt]) (by rw [hrt])
  | collects call ok cb => exact V.reclaimed ok hsp hoc (by rw [hrt]) (by rw [hrt])
  | discards call ok cb => exact V.reclaimed ok hsp hoc (by rw [hrt]) (by rw [hrt])
  | @audio b eng thread ok =>
      refine V.same_shape (hsp.trans ?_) (hoc.trans ?_) (by rw [hrt])
        (by rw [hrt]; exact Engine.shape_of_audio thread ok)
      · exact Session.observeEnd_spawned s (.audio b)
      · exact Session.observeEnd_occupant s (.audio b)
  | send call => exact V.same_shape hsp hoc (by rw [hrt]) (congrArg (·.eng.mgr.shape) hrt)
  | register | spawnRefused | spawn | requestRefused | request | pump | spawnFull | sent
  | collected | deliver | finishPump =>
      exact V.same_shape hsp hoc (by rw [hrt]) (by rw [hrt])

theorem of_reaches {cfg : EngineConfig} {cb : Bool} {ok : Session α → RuntimeAction α → Prop}
    (h : SessionReaches cfg cb ok s) : VoiceInv s :=
  h.invariant (fun _ => init) fun _ _ _ run V _ one =>
    V.step (Session.runtimeInv_of_reaches run) one

end VoiceInv

end Xrune
