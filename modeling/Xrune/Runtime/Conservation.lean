import Xrune.Runtime.Session

/-!
# Runtime — slot conservation

Every slot of the pool is free, or created with its activation still queued, or active, or
ended with its record pending, and occurs once in the place its phase names and in no other.
The invariant is `SlotInv`; what is left here is to read it off for sessions.
-/

namespace Xrune

variable {α : Type}

inductive SlotPhase where
  | free | created | active | ended
  deriving DecidableEq, Repr

/-- How often the slot occurs in the place a phase names: the free list, the activations of the
command queue, the active list, the telemetry queue. -/
def Engine.occurrences (e : Engine α) (slot : Nat) : SlotPhase → Nat
  | .free    => e.mgr.freeSlots.count slot
  | .created => ((activations e.commandQueue).map InstanceHandle.slot).count slot
  | .active  => e.activeList.count slot
  | .ended   => (e.telemetryQueue.map TelemetryEvent.slot).count slot

/-- The slot is in phase `p`, and in that one only. -/
def Engine.InPhase (e : Engine α) (slot : Nat) (p : SlotPhase) : Prop :=
  e.occurrences slot p = 1 ∧ (∀ q, q ≠ p → e.occurrences slot q = 0) ∧
    (p = .active → e.activeGen slot = (e.mgr.slots slot).generation ∧
      (e.mgr.slots slot).inst.isSome = true)

theorem SlotInv.exists_phase {e : Engine α} (I : SlotInv e.tables) {slot : Nat}
    (h : slot < e.mgr.capacity) : ∃ p, e.InPhase slot p := by
  have hone : e.occurrences slot .free + e.occurrences slot .created +
      e.occurrences slot .active + e.occurrences slot .ended = 1 := by
    have hp := I.places slot
    rwa [if_pos (show slot < e.tables.pool.capacity from h)] at hp
  have hactive : e.occurrences slot .active = 1 →
      e.activeGen slot = (e.mgr.slots slot).generation ∧
        (e.mgr.slots slot).inst.isSome = true := by
    intro h1
    have hmem : slot ∈ e.activeList := List.count_pos_iff.mp (by
      rw [show e.activeList.count slot = 1 from h1]; omega)
    refine ⟨I.activeGen slot hmem, (I.built slot).mpr ⟨h, fun hf => ?_⟩⟩
    exact I.not_active_of_free hf hmem
  have others : ∀ p, e.occurrences slot p = 1 → ∀ q, q ≠ p → e.occurrences slot q = 0 := by
    intro p hp q hq
    cases p <;> cases q <;> first | exact absurd rfl hq | omega
  obtain ⟨p, hp⟩ : ∃ p, e.occurrences slot p = 1 := by
    by_contra hno
    have hne := fun p => (not_exists.mp hno p : ¬ e.occurrences slot p = 1)
    have h₁ := hne .free
    have h₂ := hne .created
    have h₃ := hne .active
    have h₄ := hne .ended
    omega
  exact ⟨p, hp, others p hp, fun h => hactive (h ▸ hp)⟩

theorem Session.capacity_of_reaches [Sample α] {cfg : EngineConfig} {cb : Bool}
    {ok : Session α → RuntimeAction α → Prop} {s : Session α} (h : SessionReaches cfg cb ok s) :
    s.rt.eng.mgr.capacity = cfg.maxInstances := by
  refine h.invariant (P := fun s => s.rt.eng.mgr.capacity = cfg.maxInstances) (fun s h₀ => ?_)
    fun s a s' run same _ one => ?_
  · obtain ⟨rt, hrt, rfl⟩ := Option.map_eq_some_iff.mp h₀
    obtain ⟨e, he, rfl⟩ := Option.map_eq_some_iff.mp hrt
    unfold Engine.init at he
    split at he
    · cases he
    · obtain rfl := Option.some.inj he
      rfl
  · obtain ⟨-, out, hs, -⟩ := Session.step_cases one
    rcases (Session.runtimeInv_of_reaches run).engine_step hs with still | ⟨b, hb, -⟩
    · rw [still]; exact same
    · exact (Engine.capacity_step hb).trans same

/-- **Slot conservation.**  In every state of every session each slot is in exactly one phase,
the free list and the active list hold no slot twice, a route joins active instances with the
generations it stores, and the pending end records, one a slot at most, fit the telemetry
queue. -/
theorem slots_conserved [Sample α] {cfg : EngineConfig} {cb : Bool}
    {ok : Session α → RuntimeAction α → Prop} {s : Session α} (run : SessionReaches cfg cb ok s) :
    (∀ slot < cfg.maxInstances, ∃! p, s.rt.eng.InPhase slot p) ∧
      s.rt.eng.mgr.freeSlots.Nodup ∧ s.rt.eng.activeList.Nodup ∧
      (∀ r ∈ s.rt.eng.routes,
        (r.srcSlot ∈ s.rt.eng.activeList ∧ s.rt.eng.activeGen r.srcSlot = r.srcGen) ∧
          (r.toMaster = false →
            r.dstSlot ∈ s.rt.eng.activeList ∧ s.rt.eng.activeGen r.dstSlot = r.dstGen)) ∧
      s.rt.eng.telemetryQueue.length ≤ cfg.maxInstances ∧
      cfg.maxInstances < s.rt.eng.telemetryCapacity := by
  have I := (Session.runtimeInv_of_reaches run).engine.slots
  have hcap := Session.capacity_of_reaches run
  refine ⟨fun slot hslot => ?_, I.free_nodup, I.active_nodup, I.routes, ?_, ?_⟩
  · obtain ⟨p, hp⟩ := I.exists_phase (hcap ▸ hslot)
    refine ⟨p, hp, fun q hq => ?_⟩
    by_contra hne
    have := hp.2.1 q hne
    have := hq.1
    omega
  · exact hcap ▸ I.ended_length_le
  · exact hcap ▸ I.room

/-- A pool of one slot, once a bus is spawned into it and activated. -/
theorem slots_conserved_bus :
    ∃ s : Session ℚ, s.rt.eng.activeList = [0] ∧ (∃! p, s.rt.eng.InPhase 0 p) ∧
      s.rt.eng.telemetryQueue.length ≤ 1 := by
  obtain ⟨s, hs, hact⟩ : ∃ s : Session ℚ,
      runs Session.step ((Session.init (.small 1 0 (by decide)) true).get rfl) busSpawned
        = some s ∧ s.rt.eng.activeList = [0] := ⟨_, rfl, rfl⟩
  have reached : SessionReaches (.small 1 0 (by decide)) true (fun _ _ => True) s :=
    ⟨_, rfl, Reaches.of_runs hs⟩
  have kept := slots_conserved reached
  exact ⟨s, hact, kept.1 0 (by decide), kept.2.2.2.2.1⟩

end Xrune
