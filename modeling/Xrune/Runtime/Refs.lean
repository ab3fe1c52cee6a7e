import Xrune.Runtime.Host

/-!
# Runtime — parameter addresses

An address `resolve` returned is good for the blueprint it was resolved for.  `set` takes it with
any voice, and the audio thread uses its node index on the instance in the voice's slot, after
checking the port index against that node alone.  So a command of `set` stays in range exactly
when the instance in the slot has a node of that index (`set_ref_in_range_iff`): always when the
address is within the blueprint of its own voice, and not when it was resolved for a larger one.
-/

namespace Xrune

variable {α : Type}

/-- What `set_parameter` accesses exists: the node, and the slot of the port when the node has
that port. -/
def GraphInstance.ControlExists (g : GraphInstance α) (node param : Nat) : Prop :=
  node < g.sched.bp.size ∧
    (param < g.sched.bp.paramsOf node → g.sched.slot node param < g.controls.length)

/-- Draining the command accesses existing nodes and control slots only. -/
def Engine.DrainsInRange (e : Engine α) (cmd : CommandEvent α) : Prop :=
  e.tables.Matches cmd.handle → ∀ g, e.mgr.instanceAt cmd.handle.slot = some g →
    g.ControlExists cmd.nodeIndex cmd.parameterIndex

namespace Runtime

/-- Blueprint `id` is registered and has a node `n`. -/
def HasNode (rt : Runtime α) (id n : Nat) : Prop :=
  ∃ r, rt.registry[id]? = some r ∧ n < r.sched.bp.size

/-- The instance in a slot that is not free is one of the blueprint `slot_blueprint` names, and
the registered schedules give each port a slot. -/
structure Housed (rt : Runtime α) : Prop where
  slots : ∀ slot < rt.eng.mgr.capacity, slot ∉ rt.eng.mgr.freeSlots →
    ∃ r, rt.registry[rt.blueprintOf slot]? = some r ∧
      (rt.eng.leases slot).frame = some (r.sched, r.sched.totalParams)
  planned : ∀ plan, rt.call = .spawning plan →
    ∃ r, rt.registry[plan.id]? = some r ∧ r.sched = plan.sched
  registered : ∀ r ∈ rt.registry, r.sched.HasSlots

theorem planSpawn_sched {rt : Runtime α} {id : Nat} {opt : SpawnOptions α} {plan : SpawnPlan α}
    (h : rt.planSpawn id opt = .ok plan) :
    ∃ r, rt.registry[plan.id]? = some r ∧ r.sched = plan.sched := by
  obtain ⟨r, hr, h⟩ := Except.bind_ok h
  obtain ⟨st, -, h⟩ := Except.bind_ok h
  obtain ⟨dest, -, h⟩ := Except.bind_ok h
  obtain ⟨writes, -, h⟩ := Except.bind_ok h
  cases h
  refine ⟨r, ?_, rfl⟩
  unfold get at hr
  split at hr
  next here => exact (Except.ok.inj hr) ▸ here
  · cases hr

end Runtime

/-! ### The instance in a slot -/

theorem hasSlots_compile {bp : GraphBlueprint α} {B : Nat} (W : bp.Wired)
    (ok : (compile bp B).ok = true) : (compile bp B).HasSlots := by
  obtain ⟨rates, hs, -⟩ := compile_of_ok W ok
  exact hs ▸ hasSlots_layout

namespace Runtime.Housed

variable [Sample α] {rt rt' : Runtime α} {a : RuntimeAction α} {out : Output}

omit [Sample α] in
/-- Nothing changes but that slots are freed. -/
theorem kept (H : Housed rt) (hreg : rt'.registry = rt.registry)
    (hbp : rt'.slotBlueprint = rt.slotBlueprint)
    (hcap : rt'.eng.mgr.capacity = rt.eng.mgr.capacity)
    (hfree : ∀ slot ∈ rt.eng.mgr.freeSlots, slot ∈ rt'.eng.mgr.freeSlots)
    (hframe : ∀ slot, slot ∉ rt'.eng.mgr.freeSlots →
      (rt'.eng.leases slot).frame = (rt.eng.leases slot).frame)
    (hplan : ∀ plan, rt'.call = .spawning plan →
      ∃ r, rt.registry[plan.id]? = some r ∧ r.sched = plan.sched) : Housed rt' where
  slots slot hlt hout := by
    obtain ⟨r, hr, hf⟩ := H.slots slot (hcap ▸ hlt) fun h => hout (hfree slot h)
    rw [blueprintOf, hbp, hreg, hframe slot hout]
    exact ⟨r, hr, hf⟩
  planned plan h := by
    rw [hreg]
    exact hplan plan h
  registered := hreg ▸ H.registered

omit [Sample α] in
/-- Records are taken out of the telemetry queue, and their slots freed. -/
theorem reclaimed (H : Housed rt) (I : SlotInv rt.eng.tables) {v : VoiceEnd} {eng : Engine α}
    (ok : rt.eng.reclaimOne = some (v, eng)) (hreg : rt'.registry = rt.registry)
    (hbp : rt'.slotBlueprint = rt.slotBlueprint) (heng : rt'.eng = eng)
    (hplan : ∀ plan, rt'.call = .spawning plan →
      ∃ r, rt.registry[plan.id]? = some r ∧ r.sched = plan.sched) : Housed rt' := by
  obtain ⟨ev, rest, hq, rfl, ht⟩ := Engine.tables_reclaimOne ok
  obtain ⟨-, -, hlt⟩ := I.not_active_of_ended (show ev ∈ rt.eng.tables.ended by simp [hq])
  have hshape : rt'.eng.mgr.shape = rt.eng.mgr.shape.recycle ev.slot :=
    heng ▸ congrArg Tables.pool ht
  rw [PoolShape.recycle, if_neg (by exact not_le.mpr hlt)] at hshape
  have hfree : rt'.eng.mgr.freeSlots = ev.slot :: rt.eng.mgr.freeSlots :=
    congrArg PoolShape.freeSlots hshape
  refine H.kept hreg hbp (congrArg PoolShape.capacity hshape)
    (fun slot h => hfree ▸ List.mem_cons_of_mem _ h) (fun slot hout => ?_) hplan
  rw [hfree, List.mem_cons, not_or] at hout
  rw [heng, Engine.leases_reclaimOne ok hout.1]

/-- A voice is spawned. -/
theorem created (H : Housed rt) {plan : SpawnPlan α} {h : InstanceHandle} {eng : Engine α}
    (call : rt.call = .spawning plan)
    (ok : rt.eng.create plan.sched plan.life plan.init = some (h, eng))
    (hreg : rt'.registry = rt.registry)
    (hbp : rt'.slotBlueprint = setBlueprint rt.slotBlueprint h.slot plan.id)
    (heng : rt'.eng = eng) (hplan : ∀ plan, rt'.call ≠ .spawning plan) : Housed rt' := by
  have hleases := Engine.leases_create ok
  obtain ⟨idx, rest, hfree, rfl, ht⟩ := Engine.tables_create ok
  have hfree' : rt'.eng.mgr.freeSlots = rest := heng ▸ congrArg (fun T => T.pool.freeSlots) ht
  have hcap : rt'.eng.mgr.capacity = rt.eng.mgr.capacity :=
    heng ▸ congrArg (fun T => T.pool.capacity) ht
  have hbpOf : ∀ slot, rt'.blueprintOf slot
      = if slot = idx then plan.id else rt.blueprintOf slot := by
    intro slot
    rw [blueprintOf, hbp, blueprintOf_setBlueprint]
    rfl
  refine ⟨fun slot hlt hout => ?_, fun plan h => absurd h (hplan plan), hreg ▸ H.registered⟩
  rw [hbpOf, hreg, heng, hleases]
  by_cases hs : slot = idx
  · subst hs
    obtain ⟨r, hr, hsched⟩ := H.planned plan call
    simp only [if_true, Function.update_self]
    exact ⟨r, hr, by rw [hsched]⟩
  · rw [if_neg hs, Function.update_of_ne hs]
    refine H.slots slot (hcap ▸ hlt) fun hm => hout ?_
    have hm : slot ∈ idx :: rest := hfree ▸ hm
    rw [hfree']
    exact (List.mem_cons.mp hm).resolve_left hs

theorem step (H : Housed rt) (I : RuntimeInv rt) (h : Stepped rt a rt' out)
    (compiled : ∀ name sched, a = .register name sched → sched.HasSlots) : Housed rt' := by
  have plans : ∀ plan, rt.call = .spawning plan →
      ∃ r, rt.registry[plan.id]? = some r ∧ r.sched = plan.sched := H.planned
  -- the slots are left alone, and the call is none of `spawn`
  have still : ∀ {rt' : Runtime α}, rt'.registry = rt.registry →
      rt'.slotBlueprint = rt.slotBlueprint → rt'.eng.mgr = rt.eng.mgr →
        (∀ plan, rt'.call = .spawning plan →
          ∃ r, rt.registry[plan.id]? = some r ∧ r.sched = plan.sched) → Housed rt' := by
    intro rt' hreg hbp hmgr hplan
    refine H.kept hreg hbp (by rw [hmgr]) (fun slot h => by rwa [hmgr]) (fun slot _ => ?_) hplan
    rw [Engine.leases, Engine.leases, hmgr]
  cases h with
  | @register name sched may ok =>
      have grows : ∀ {id : Nat} {r : Registered α}, rt.registry[id]? = some r →
          (rt.registry ++ [⟨name, sched⟩])[id]? = some r := fun h => by
        rw [List.getElem?_append_left (List.getElem?_eq_some_iff.mp h).1, h]
      refine ⟨fun slot hlt hout => ?_, fun plan h => ?_, fun r hr => ?_⟩
      · obtain ⟨r, hr, hf⟩ := H.slots slot hlt hout
        exact ⟨r, grows hr, hf⟩
      · obtain ⟨r, hr, hs⟩ := H.planned plan h
        exact ⟨r, grows hr, hs⟩
      · rcases List.mem_append.mp hr with hr | hr
        · exact H.registered r hr
        · obtain rfl := List.mem_singleton.mp hr
          exact compiled name sched rfl
  | spawnRefused | requestRefused | deliver | finishPump => exact still rfl rfl rfl plans
  | @spawn id opt plan may ok =>
      refine still rfl rfl rfl fun p hp => ?_
      obtain rfl := Call.spawning.inj hp
      exact planSpawn_sched ok
  | request | pump | spawnFull | sent | collected | send =>
      exact still rfl rfl rfl fun p hp => by cases hp
  | spawnReclaims call ok => exact H.reclaimed I.engine.slots ok rfl rfl rfl plans
  | collects call ok cb => exact H.reclaimed I.engine.slots ok rfl rfl rfl plans
  | discards call ok cb => exact H.reclaimed I.engine.slots ok rfl rfl rfl plans
  | spawnCreates call drained ok =>
      exact H.created call ok rfl rfl rfl fun p hp => by cases hp
  | @audio b eng thread ok =>
      have hshape := Engine.shape_of_audio thread ok
      exact H.kept rfl rfl (congrArg PoolShape.capacity hshape)
        (fun slot h => (show eng.mgr.freeSlots = rt.eng.mgr.freeSlots from
          congrArg PoolShape.freeSlots hshape) ▸ h)
        (fun slot _ => Engine.frame_of_audio thread ok slot) plans

end Runtime.Housed

/-! ### Sets through addresses -/

namespace Host

/-- What is registered was compiled from a blueprint built through the checked calls. -/
def Compiles (_ : Host α) (a : HostAction α) : Prop :=
  ∀ name sched, a = .api (.register name sched) → ∃ bp B, bp.Wired ∧ sched = compile bp B

/-- `set` is called with addresses within the blueprint of its voice. -/
def SetsOwnNode (h : Host α) (a : HostAction α) : Prop :=
  ∀ v p value, a = .set v p value → h.rt.HasNode v.blueprint p.node

variable [Sample α] {cfg : EngineConfig} {cb : Bool} {ok : Host α → HostAction α → Prop}
  {h h' : Host α} {a : HostAction α}

/-- A registered blueprint stays registered under its id. -/
theorem registry_of_step (one : h.step a = some h') {id : Nat} {r : Registered α}
    (hr : h.rt.registry[id]? = some r) : h'.rt.registry[id]? = some r := by
  cases step_cases one with
  | @api a s call =>
      obtain ⟨-, out, hs, -⟩ := Session.step_cases call
      change s.rt.registry[id]? = some r
      have hr : h.session.rt.registry[id]? = some r := hr
      generalize s.rt = rt' at hs
      cases hs with
      | register may ok =>
          rw [List.getElem?_append_left (List.getElem?_eq_some_iff.mp hr).1, hr]
      | _ => exact hr
  | _ => exact hr

theorem housed_of_reaches (compiles : ∀ h a, ok h a → h.Compiles a)
    (run : HostReaches cfg cb ok h) : h.rt.Housed := by
  refine run.invariant (P := fun h => h.rt.Housed) (fun s h₀ => ?_)
    fun h a h' reached H meets one => ?_
  · obtain ⟨rt, hrt, rfl⟩ := Option.map_eq_some_iff.mp h₀
    obtain ⟨e, he, rfl⟩ := Option.map_eq_some_iff.mp hrt
    unfold Engine.init at he
    split at he
    · cases he
    · obtain rfl := Option.some.inj he
      exact ⟨fun slot hlt hout => absurd (List.mem_range.mpr hlt) hout,
        fun plan h => (by cases h), fun r hr => by cases hr⟩
  · have I := (hostInv_of_reaches reached).runtime
    have still : ∀ {rt : Runtime α}, rt.registry = h.rt.registry →
        rt.slotBlueprint = h.rt.slotBlueprint → rt.eng.tables = h.rt.eng.tables →
          rt.eng.leases = h.rt.eng.leases → (∀ plan, rt.call = .spawning plan →
            h.rt.call = .spawning plan) → rt.Housed := by
      intro rt hreg hbp ht hl hp
      have hfree : rt.eng.mgr.freeSlots = h.rt.eng.mgr.freeSlots :=
        congrArg (fun T => T.pool.freeSlots) ht
      exact H.kept hreg hbp (congrArg (fun T => T.pool.capacity) ht) (fun slot hs => hfree ▸ hs)
        (fun slot _ => by rw [hl]) fun plan hc => H.planned plan (hp plan hc)
    cases step_cases one with
    | @api a s call =>
        obtain ⟨-, out, hs, -⟩ := Session.step_cases call
        refine H.step I hs fun name sched ha => ?_
        obtain ⟨bp, B, W, rfl⟩ := compiles _ _ meets name sched (ha ▸ rfl)
        subst ha
        generalize s.rt = rt' at hs
        cases hs with
        | register may ok => exact hasSlots_compile W ok
    | resolved => exact H
    | unresolved | refused => exact still rfl rfl rfl rfl fun _ h => h
    | sets => exact still rfl rfl rfl rfl fun plan h => by cases h
    | raises ok =>
        obtain ⟨ht, -, -, hl⟩ := HostInv.raises ok
        exact still rfl rfl ht hl fun _ h => h

/-- The voices `set` was called with have a node at the address. -/
theorem hasNode_of_sets (own : ∀ h a, ok h a → h.SetsOwnNode a) (run : HostReaches cfg cb ok h) :
    ∀ c ∈ h.sets, h.rt.HasNode c.1.blueprint c.2.node := by
  refine run.invariant (P := fun h => ∀ c ∈ h.sets, h.rt.HasNode c.1.blueprint c.2.node)
    (fun s h₀ c hc => by cases hc) fun h a h' reached H meets one c hc => ?_
  have stays : h.rt.HasNode c.1.blueprint c.2.node → h'.rt.HasNode c.1.blueprint c.2.node :=
    fun ⟨r, hr, hn⟩ => ⟨r, registry_of_step one hr, hn⟩
  cases step_cases one with
  | @sets v p value knows ref may valid =>
      rcases List.mem_append.mp hc with hc | hc
      · exact stays (H c hc)
      · obtain rfl := List.mem_singleton.mp hc
        exact stays (own _ _ meets v p value rfl)
  | _ => exact stays (H c hc)

omit [Sample α] in
/-- The voice in the slot a handle designates. -/
theorem occupant_of_matches (I : HostInv h) {hd : InstanceHandle} (valid : hd.generation ≠ 0)
    (hm : h.rt.eng.tables.Matches hd) : hd.slot ∉ h.rt.eng.mgr.freeSlots ∧
      ∃ w, h.session.spawned[h.session.occupant hd.slot]? = some w ∧ w.handle = hd ∧
        h.rt.blueprintOf hd.slot = w.blueprint := by
  have S := I.runtime.engine.slots
  have act : hd.slot ∈ h.rt.eng.activeList :=
    (S.active hd.slot).mp (by rw [hm.2]; exact valid)
  have hfree : hd.slot ∉ h.rt.eng.mgr.freeSlots := fun hf => S.not_active_of_free hf act
  obtain ⟨w, hw, hh, hb⟩ := I.voices.occupied hd.slot (S.lt_of_active act) hfree
  refine ⟨hfree, w, hw, ?_, hb⟩
  have hgen : hd.generation = (h.rt.eng.mgr.slots hd.slot).generation :=
    hm.2.symm.trans (S.activeGen hd.slot act)
  rw [hh, ← hgen]

end Host

/-- **When a command of `set` stays in range.**  A call of `set` on an address is refused or
enqueues one command.  Draining it accesses existing nodes and control slots only exactly when,
if the slot still carries the voice's generation, the blueprint of the slot's instance has a node
of the address's index.  Below `2 ^ 32 - 1` spawns that is the voice's own blueprint; so while
`set` is called with addresses within the blueprint of its voice, its commands stay in range. -/
theorem set_ref_in_range_iff [Sample α] {cfg : EngineConfig} {cb : Bool}
    {ok : Host α → HostAction α → Prop} {h : Host α} (compiles : ∀ h a, ok h a → h.Compiles a)
    (run : HostReaches cfg cb ok h) {v : Voice} {p : ParamRef} {value : α}
    {rest : List (CommandEvent α)} (sent : (v, p) ∈ h.sets)
    (head : h.rt.eng.commandQueue = .setParameter v.handle p.node p.port value :: rest) :
    (h.rt.eng.DrainsInRange (.setParameter v.handle p.node p.port value) ↔
      (h.rt.eng.tables.Matches v.handle →
        h.rt.HasNode (h.rt.blueprintOf v.handle.slot) p.node)) ∧
    (h.session.spawned.length < 2 ^ 32 - 1 →
      (h.rt.eng.tables.Matches v.handle → h.rt.blueprintOf v.handle.slot = v.blueprint) ∧
      ((∀ h a, ok h a → h.SetsOwnNode a) →
        h.rt.eng.DrainsInRange (.setParameter v.handle p.node p.port value))) := by
  have I := hostInv_of_reaches run
  have H := h.housed_of_reaches compiles run
  have valid : v.handle.generation ≠ 0 :=
    (I.runtime.queued _ (head ▸ List.mem_cons_self) (by simp [CommandEvent.setParameter])).1
  have inRange : h.rt.eng.DrainsInRange (.setParameter v.handle p.node p.port value) ↔
      (h.rt.eng.tables.Matches v.handle →
        h.rt.HasNode (h.rt.blueprintOf v.handle.slot) p.node) := by
    refine forall_congr' fun hm => ?_
    obtain ⟨hfree, -⟩ := h.occupant_of_matches I valid hm
    obtain ⟨r, hr, hframe⟩ := H.slots v.handle.slot hm.1 hfree
    obtain ⟨g, hg, hgf⟩ := Engine.inst_of_frame hframe
    obtain ⟨hsched, hlen⟩ := Prod.mk.inj hgf
    have here : h.rt.eng.mgr.instanceAt v.handle.slot = some g := by
      rw [InstanceManager.instanceAt, if_pos (show v.handle.slot < h.rt.eng.mgr.capacity from hm.1)]
      exact hg
    constructor
    · intro all
      obtain ⟨node, -⟩ := all g here
      exact ⟨r, hr, hsched ▸ node⟩
    · rintro ⟨r', hr', node⟩ g' hg'
      obtain rfl : g = g' := Option.some.inj (here.symm.trans hg')
      obtain rfl : r = r' := Option.some.inj (hr.symm.trans hr')
      refine ⟨hsched.symm ▸ node, fun port => ?_⟩
      rw [hlen]
      rw [hsched] at port ⊢
      exact (H.registered r (List.mem_of_getElem? hr)).lt _ _ port
  refine ⟨inRange, fun few => ?_⟩
  have own : h.rt.eng.tables.Matches v.handle → h.rt.blueprintOf v.handle.slot = v.blueprint := by
    intro hm
    obtain ⟨-, w, hw, hh, hb⟩ := h.occupant_of_matches I valid hm
    obtain ⟨k, hv⟩ := List.mem_iff_getElem?.mp (I.sets _ sent)
    have numbered := (I.voices.numbered few).2
    have hk := numbered k v hv
    have hw' := numbered _ w hw
    rw [hh] at hw'
    obtain rfl : k = h.session.occupant v.handle.slot := by omega
    obtain rfl : v = w := Option.some.inj (hv.symm.trans hw)
    exact hb
  exact ⟨own, fun owns => inRange.mpr fun hm => own hm ▸ h.hasNode_of_sets owns run (v, p) sent⟩

/-! ### A bus and a gain -/

/-- A constant into a gain, with names and an output. -/
def namedPair : GraphBlueprint ℚ :=
  { constantIntoGain with names := ["c", "g"], outputTerminals := [⟨"out", 1, []⟩] }

/-- A pool of one slot. -/
def oneSlotHost : Host ℚ := ⟨aloneSession, [], []⟩

/-- A bus and the pair are registered, the pair's gain is resolved, and blueprint `id` is
spawned. -/
def resolvedAndSpawned (id : Nat) : List (HostAction ℚ) :=
  [.api (.register "bus" (compile busBlueprint 1)), .api (.register "pair" (compile namedPair 1)),
    .resolve 1 "g" "gain", .api (.spawn id { life := permanent }), .api .advance, .api .advance,
    .api .advance]

/-- The gain's address is set on the voice, and the commands before the `set`'s are drained. -/
def setThroughAddress (id : Nat) : List (HostAction ℚ) :=
  resolvedAndSpawned id ++ [.set ⟨⟨0, 1⟩, id⟩ ⟨1, 0⟩ 2, .api .advance, .api .advance,
    .api (.audio (.begin 1)), .api (.audio .drain), .api (.audio .drain)]

theorem namedPair_wired : namedPair.Wired :=
  have W := constantIntoGain_made.wired
  ⟨W.audio, W.oneDriver, W.modulation, W.oneModulator⟩

theorem setThroughAddress_compiles (id : Nat) : ∀ a ∈ setThroughAddress id,
    ∀ h : Host ℚ, h.Compiles a := by
  intro a ha h name sched he
  subst he
  simp only [setThroughAddress, resolvedAndSpawned, List.cons_append, List.nil_append,
    List.mem_cons, HostAction.api.injEq, RuntimeAction.register.injEq, reduceCtorEq,
    List.not_mem_nil, or_false] at ha
  rcases ha with ⟨-, rfl⟩ | ⟨-, rfl⟩
  · exact ⟨busBlueprint, 1, .bare rfl rfl, rfl⟩
  · exact ⟨namedPair, 1, namedPair_wired, rfl⟩

/-- On a voice of the pair, the address resolved for the pair is in range. -/
theorem set_ref_in_range_pair : ∃ h : Host ℚ,
    HostReaches (.small 1 0 (by decide)) true Host.Compiles h ∧
      h.rt.eng.tables.Matches ⟨0, 1⟩ ∧ h.rt.eng.DrainsInRange (.setParameter ⟨0, 1⟩ 1 0 2) := by
  obtain ⟨h, hs, sent, head, hcap, hgen, hbp, r, hr, size⟩ : ∃ h : Host ℚ,
      runs Host.step oneSlotHost (setThroughAddress 1) = some h ∧
        h.sets = [(⟨⟨0, 1⟩, 1⟩, ⟨1, 0⟩)] ∧
          h.rt.eng.commandQueue = [.setParameter ⟨0, 1⟩ 1 0 2] ∧ h.rt.eng.mgr.capacity = 1 ∧
            h.rt.eng.activeGen 0 = 1 ∧ h.rt.blueprintOf 0 = 1 ∧
              ∃ r, h.rt.registry[1]? = some r ∧ r.sched.bp.size = 2 :=
    ⟨_, rfl, rfl, rfl, rfl, rfl, rfl, _, rfl, rfl⟩
  have run : HostReaches (.small 1 0 (by decide)) true Host.Compiles h :=
    ⟨_, rfl, .of_runs_all hs (setThroughAddress_compiles 1)⟩
  have sent : (⟨⟨0, 1⟩, 1⟩, ⟨1, 0⟩) ∈ h.sets := sent ▸ List.mem_cons_self
  have inRange := (set_ref_in_range_iff (fun _ _ meets => meets) run sent head).1
  have hm : h.rt.eng.tables.Matches ⟨0, 1⟩ := ⟨hcap ▸ Nat.one_pos, hgen⟩
  exact ⟨h, run, hm, inRange.mpr fun _ => ⟨r, hbp ▸ hr, size ▸ Nat.one_lt_two⟩⟩

/-- On a bus, it addresses a node the bus does not have. -/
theorem set_ref_past_nodes : ∃ h : Host ℚ,
    HostReaches (.small 1 0 (by decide)) true Host.Compiles h ∧
      h.rt.resolve 1 "g" "gain" = .ok ⟨1, 0⟩ ∧ (⟨⟨0, 1⟩, 0⟩, ⟨1, 0⟩) ∈ h.sets ∧
        h.rt.eng.commandQueue = [.setParameter ⟨0, 1⟩ 1 0 2] ∧
          ¬ h.rt.eng.DrainsInRange (.setParameter ⟨0, 1⟩ 1 0 2) := by
  obtain ⟨h, hs, ref, sent, head, hcap, hgen, g, hg, size⟩ : ∃ h : Host ℚ,
      runs Host.step oneSlotHost (setThroughAddress 0) = some h ∧
        h.rt.resolve 1 "g" "gain" = .ok ⟨1, 0⟩ ∧ h.sets = [(⟨⟨0, 1⟩, 0⟩, ⟨1, 0⟩)] ∧
          h.rt.eng.commandQueue = [.setParameter ⟨0, 1⟩ 1 0 2] ∧ h.rt.eng.mgr.capacity = 1 ∧
            h.rt.eng.activeGen 0 = 1 ∧
              ∃ g, h.rt.eng.mgr.instanceAt 0 = some g ∧ g.sched.bp.size = 1 :=
    ⟨_, rfl, rfl, rfl, rfl, rfl, rfl, _, rfl, rfl⟩
  refine ⟨h, ⟨_, rfl, .of_runs_all hs (setThroughAddress_compiles 0)⟩, ref,
    sent ▸ List.mem_cons_self, head, fun inRange => ?_⟩
  have node := (inRange ⟨hcap ▸ Nat.one_pos, hgen⟩ g hg).1
  rw [size] at node
  exact absurd node (lt_irrefl 1)

end Xrune
