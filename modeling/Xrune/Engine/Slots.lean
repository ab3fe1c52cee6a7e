import Xrune.Engine.Tables

/-!
# Engine — slot conservation

Every slot of the pool is in exactly one place: the free list, an activation waiting in the
command queue, the active list, or an end record waiting in the telemetry queue.  `SlotInv`
counts a slot's occurrences in the four; with it go the agreement of the generations kept on
the two sides, and that a route joins active instances only.

A command preserves it when its handle designates an active instance, or when it changes no
table.
-/

namespace Xrune

variable {α : Type}

/-- The handles of the activations waiting in a command queue. -/
def activations (q : List (CommandEvent α)) : List InstanceHandle :=
  (q.filter fun cmd => cmd.type == .activate).map CommandEvent.handle

namespace Tables

/-- How often a slot occurs in the four places. -/
def places (T : Tables α) (s : Nat) : Nat :=
  T.pool.freeSlots.count s + ((activations T.commands).map InstanceHandle.slot).count s +
    T.activeList.count s + (T.ended.map TelemetryEvent.slot).count s

/-- `r` joins instances that are active with the generations it stores. -/
def RouteLive (T : Tables α) (r : ActiveRoute) : Prop :=
  (r.srcSlot ∈ T.activeList ∧ T.activeGen r.srcSlot = r.srcGen) ∧
    (r.toMaster = false → r.dstSlot ∈ T.activeList ∧ T.activeGen r.dstSlot = r.dstGen)

end Tables

structure SlotInv (T : Tables α) : Prop where
  places : ∀ s, T.places s = if s < T.pool.capacity then 1 else 0
  active : ∀ s, T.activeGen s ≠ 0 ↔ s ∈ T.activeList
  activeGen : ∀ s ∈ T.activeList, T.activeGen s = T.pool.generation s
  pending : ∀ h ∈ activations T.commands,
    h.generation ≠ 0 ∧ h.generation = T.pool.generation h.slot
  ended : ∀ ev ∈ T.ended, ev.generation ≠ 0 ∧ ev.generation = T.pool.generation ev.slot
  built : ∀ s, T.pool.built s = true ↔ s < T.pool.capacity ∧ s ∉ T.pool.freeSlots
  fresh : T.pool.nextGeneration ≠ 0
  routes : ∀ r ∈ T.routes, T.RouteLive r
  room : T.pool.capacity < T.endedCapacity

namespace SlotInv

variable {T : Tables α} {s : Nat}

theorem places_le (I : SlotInv T) (s : Nat) : T.places s ≤ 1 := by
  rw [I.places]
  split <;> omega

theorem lt_of_places (I : SlotInv T) (h : 0 < T.places s) : s < T.pool.capacity := by
  by_contra hs
  rw [I.places, if_neg hs] at h
  omega

theorem lt_of_active (I : SlotInv T) (h : s ∈ T.activeList) : s < T.pool.capacity := by
  have := List.count_pos_iff.mpr h
  exact I.lt_of_places (by unfold Tables.places; omega)

theorem active_nodup (I : SlotInv T) : T.activeList.Nodup :=
  List.nodup_iff_count_le_one.mpr fun s => by
    have := I.places_le s
    unfold Tables.places at this
    omega

theorem free_nodup (I : SlotInv T) : T.pool.freeSlots.Nodup :=
  List.nodup_iff_count_le_one.mpr fun s => by
    have := I.places_le s
    unfold Tables.places at this
    omega

theorem ended_nodup (I : SlotInv T) : (T.ended.map TelemetryEvent.slot).Nodup :=
  List.nodup_iff_count_le_one.mpr fun s => by
    have := I.places_le s
    unfold Tables.places at this
    omega

theorem activeGen_eq_zero (I : SlotInv T) (h : s ∉ T.activeList) : T.activeGen s = 0 := by
  by_contra hg
  exact h ((I.active s).mp hg)

/-- At most one record a slot is pending, ... -/
theorem ended_length_le (I : SlotInv T) : T.ended.length ≤ T.pool.capacity := by
  have hsub : (T.ended.map TelemetryEvent.slot).Subperm (List.range T.pool.capacity) :=
    I.ended_nodup.subperm fun s hs => by
      have := List.count_pos_iff.mpr hs
      exact List.mem_range.mpr (I.lt_of_places (by unfold Tables.places; omega))
  simpa using hsub.length_le

/-- ... so there is room for the record of a slot that is active. -/
theorem ended_length_lt (I : SlotInv T) (h : s ∈ T.activeList) :
    T.ended.length < T.pool.capacity := by
  have hc := List.count_pos_iff.mpr h
  have hout : s ∉ T.ended.map TelemetryEvent.slot := by
    intro he
    have he := List.count_pos_iff.mpr he
    have := I.places_le s
    unfold Tables.places at this
    omega
  have hsub : (s :: T.ended.map TelemetryEvent.slot).Subperm (List.range T.pool.capacity) :=
    (List.nodup_cons.mpr ⟨hout, I.ended_nodup⟩).subperm fun x hx => by
      rcases List.mem_cons.mp hx with rfl | hx
      · exact List.mem_range.mpr (I.lt_of_active h)
      · have := List.count_pos_iff.mpr hx
        exact List.mem_range.mpr (I.lt_of_places (by unfold Tables.places; omega))
  simpa using hsub.length_le

end SlotInv

/-! ### The initial tables -/

theorem SlotInv.init [Sample α] {cfg : EngineConfig} {e : Engine α}
    (h : Engine.init cfg = some e) : SlotInv e.tables := by
  unfold Engine.init at h
  split at h
  · cases h
  · obtain rfl := Option.some.inj h
    exact
      { places := by
          intro s
          simp only [Tables.places, Engine.tables, InstanceManager.shape, activations]
          by_cases hs : s < cfg.maxInstances
          · simp [hs, List.count_eq_one_of_mem List.nodup_range (List.mem_range.mpr hs)]
          · simp [hs]
        active := by simp [Engine.tables]
        activeGen := by simp [Engine.tables]
        pending := by simp [Engine.tables, activations]
        ended := by simp [Engine.tables]
        built := by simp [Engine.tables, InstanceManager.shape]
        fresh := by simp [Engine.tables, InstanceManager.shape]
        routes := by simp [Engine.tables]
        room := by simp [Engine.tables, InstanceManager.shape]; omega }

/-! ### The steps keep the invariant -/

namespace SlotInv

variable {T : Tables α} {s slot : Nat}

theorem bumpGeneration_ne_zero (g : Nat) : bumpGeneration g ≠ 0 := by
  unfold bumpGeneration
  split
  · decide
  · assumption

theorem activations_append (q : List (CommandEvent α)) (cmd : CommandEvent α) :
    activations (q ++ [cmd])
      = activations q ++ if cmd.type = .activate then [cmd.handle] else [] := by
  by_cases h : cmd.type = .activate <;> simp [activations, h]

theorem activations_cons (q : List (CommandEvent α)) (cmd : CommandEvent α) :
    activations (cmd :: q)
      = (if cmd.type = .activate then [cmd.handle] else []) ++ activations q := by
  by_cases h : cmd.type = .activate <;> simp [activations, h]

/-- A slot stands in one place only. -/
theorem not_active_of_free (I : SlotInv T) (h : s ∈ T.pool.freeSlots) : s ∉ T.activeList := by
  intro ha
  have hf := List.count_pos_iff.mpr h
  have ha := List.count_pos_iff.mpr ha
  have := I.places_le s
  unfold Tables.places at this
  omega

theorem not_pending_of_free (I : SlotInv T) (h : s ∈ T.pool.freeSlots) :
    ∀ x ∈ activations T.commands, x.slot ≠ s := by
  rintro x hx rfl
  have hf := List.count_pos_iff.mpr h
  have hp := List.count_pos_iff.mpr (List.mem_map_of_mem (f := InstanceHandle.slot) hx)
  have := I.places_le x.slot
  unfold Tables.places at this
  omega

theorem not_ended_of_free (I : SlotInv T) (h : s ∈ T.pool.freeSlots) :
    ∀ ev ∈ T.ended, ev.slot ≠ s := by
  rintro ev hev rfl
  have hf := List.count_pos_iff.mpr h
  have he := List.count_pos_iff.mpr (List.mem_map_of_mem (f := TelemetryEvent.slot) hev)
  have := I.places_le ev.slot
  unfold Tables.places at this
  omega

theorem not_active_of_pending (I : SlotInv T) {h : InstanceHandle}
    (hp : h ∈ activations T.commands) : h.slot ∉ T.activeList ∧ h.slot < T.pool.capacity := by
  have hp := List.count_pos_iff.mpr (List.mem_map_of_mem (f := InstanceHandle.slot) hp)
  refine ⟨fun ha => ?_, I.lt_of_places (by unfold Tables.places; omega)⟩
  have ha := List.count_pos_iff.mpr ha
  have := I.places_le h.slot
  unfold Tables.places at this
  omega

theorem not_active_of_ended (I : SlotInv T) {ev : TelemetryEvent} (he : ev ∈ T.ended) :
    ev.slot ∉ T.activeList ∧ ev.slot ∉ T.pool.freeSlots ∧ ev.slot < T.pool.capacity := by
  have he := List.count_pos_iff.mpr (List.mem_map_of_mem (f := TelemetryEvent.slot) he)
  have hle := I.places_le ev.slot
  refine ⟨fun ha => ?_, fun hf => ?_, I.lt_of_places (by unfold Tables.places; omega)⟩
  · have ha := List.count_pos_iff.mpr ha
    unfold Tables.places at hle
    omega
  · have hf := List.count_pos_iff.mpr hf
    unfold Tables.places at hle
    omega

theorem not_pending_of_ended (I : SlotInv T) {ev : TelemetryEvent} (he : ev ∈ T.ended) :
    ∀ x ∈ activations T.commands, x.slot ≠ ev.slot := by
  intro x hx same
  have he := List.count_pos_iff.mpr (List.mem_map_of_mem (f := TelemetryEvent.slot) he)
  have hp := List.count_pos_iff.mpr (List.mem_map_of_mem (f := InstanceHandle.slot) hx)
  rw [same] at hp
  have := I.places_le ev.slot
  unfold Tables.places at this
  omega

theorem reclaim (I : SlotInv T) {ev : TelemetryEvent} {rest : List TelemetryEvent}
    (hq : T.ended = ev :: rest) :
    SlotInv { T with ended := rest, pool := T.pool.recycle ev.slot } := by
  obtain ⟨-, hfree, hlt⟩ := I.not_active_of_ended (show ev ∈ T.ended by simp [hq])
  have hrec : T.pool.recycle ev.slot =
      { T.pool with
        freeSlots := ev.slot :: T.pool.freeSlots
        built := Function.update T.pool.built ev.slot false } := by
    rw [PoolShape.recycle, if_neg (by omega)]
  rw [hrec]
  exact
    { places := fun s => by
        refine Eq.trans ?_ (I.places s)
        simp only [Tables.places, hq, List.map_cons, List.count_cons]
        omega
      active := I.active
      activeGen := I.activeGen
      pending := I.pending
      ended := fun x hx => I.ended x (hq ▸ List.mem_cons_of_mem ev hx)
      built := by
        intro s
        by_cases hs : s = ev.slot
        · subst hs; simp
        · simpa [Function.update_of_ne hs, hs] using I.built s
      fresh := I.fresh
      routes := I.routes
      room := I.room }

theorem create [Sample α] (I : SlotInv T) {idx : Nat} {rest : List Nat}
    (hf : T.pool.freeSlots = idx :: rest) :
    SlotInv
      { T with
        pool := T.pool.take idx rest
        commands := T.commands ++ [.activate ⟨idx, T.pool.nextGeneration⟩] } := by
  have hmem : idx ∈ T.pool.freeSlots := hf ▸ List.mem_cons_self
  have hact := I.not_active_of_free hmem
  have hnodup : idx ∉ rest := (List.nodup_cons.mp (hf ▸ I.free_nodup)).1
  have hlt : idx < T.pool.capacity := by
    have := List.count_pos_iff.mpr hmem
    exact I.lt_of_places (by unfold Tables.places; omega)
  have hkeep : ∀ s, s ≠ idx →
      Function.update T.pool.generation idx T.pool.nextGeneration s = T.pool.generation s :=
    fun s hs => Function.update_of_ne hs _ _
  exact
    { places := fun s => by
        refine Eq.trans ?_ (I.places s)
        simp only [Tables.places, PoolShape.take, hf, activations_append, CommandEvent.activate,
          List.count_cons, if_true, List.map_append, List.map_cons, List.map_nil,
          List.count_append, List.count_nil]
        omega
      active := I.active
      activeGen := fun s hs => by
        have hne : s ≠ idx := by rintro rfl; exact hact hs
        exact (I.activeGen s hs).trans (hkeep s hne).symm
      pending := fun h hh => by
        rw [activations_append] at hh
        rcases List.mem_append.mp hh with hh | hh
        · have hne := I.not_pending_of_free hmem h hh
          exact ⟨(I.pending h hh).1, (I.pending h hh).2.trans (hkeep _ hne).symm⟩
        · obtain rfl : h = ⟨idx, T.pool.nextGeneration⟩ := by
            simpa [CommandEvent.activate] using hh
          exact ⟨I.fresh, by simp [PoolShape.take]⟩
      ended := fun ev hev => by
        have hne := I.not_ended_of_free hmem ev hev
        exact ⟨(I.ended ev hev).1, (I.ended ev hev).2.trans (hkeep _ hne).symm⟩
      built := by
        intro s
        by_cases hs : s = idx
        · subst hs; simp [PoolShape.take, hlt, hnodup]
        · simpa [PoolShape.take, Function.update_of_ne hs, hf, hs] using I.built s
      fresh := bumpGeneration_ne_zero _
      routes := I.routes
      room := I.room }

theorem enqueue (I : SlotInv T) {cmd : CommandEvent α} (h : cmd.type ≠ .activate) :
    SlotInv { T with commands := T.commands ++ [cmd] } := by
  have hact : activations (T.commands ++ [cmd]) = activations T.commands := by
    simp [activations_append, h]
  exact
    { places := fun s => by simpa [Tables.places, hact] using I.places s
      active := I.active
      activeGen := I.activeGen
      pending := fun x hx => I.pending x (hact ▸ hx)
      ended := I.ended
      built := I.built
      fresh := I.fresh
      routes := I.routes
      room := I.room }

/-- A released slot moves from the active list to the telemetry queue. -/
theorem release (I : SlotInv T) (hs : slot ∈ T.activeList) (why : EndReason) :
    SlotInv (T.release slot why) := by
  have hroom : T.ended.length < T.endedCapacity :=
    (I.ended_length_lt hs).trans I.room
  have hended : (T.release slot why).ended = T.ended ++ [⟨slot, T.activeGen slot, why⟩] := by
    simp [Tables.release, hroom]
  have hmem : ∀ s, s ∈ T.activeList.erase slot ↔ s ≠ slot ∧ s ∈ T.activeList :=
    fun s => I.active_nodup.mem_erase_iff
  exact
    { places := fun s => by
        refine Eq.trans ?_ (I.places s)
        have hc := List.count_pos_iff.mpr hs
        simp only [Tables.places, hended, List.map_append, List.map_cons, List.map_nil,
          List.count_append, List.count_cons, List.count_nil]
        simp only [Tables.release, List.count_erase]
        by_cases hss : s = slot
        · subst hss; simp only [beq_self_eq_true, if_true]; omega
        · simp [Ne.symm hss]
      active := by
        intro s
        simp only [Tables.release, hmem]
        by_cases hss : s = slot
        · subst hss; simp
        · simpa [Function.update_of_ne hss, hss] using I.active s
      activeGen := by
        intro s h
        obtain ⟨hne, h⟩ := (hmem s).mp h
        simpa [Tables.release, Function.update_of_ne hne] using I.activeGen s h
      pending := I.pending
      ended := by
        intro ev hev
        rw [hended] at hev
        rcases List.mem_append.mp hev with hev | hev
        · exact I.ended ev hev
        · obtain rfl := List.mem_singleton.mp hev
          exact ⟨(I.active slot).mpr hs, I.activeGen slot hs⟩
      built := I.built
      fresh := I.fresh
      routes := by
        intro r hr
        obtain ⟨hr, hnot⟩ := List.mem_filter.mp hr
        obtain ⟨⟨h₁, h₂⟩, h₃⟩ := I.routes r hr
        have hsrc : r.srcSlot ≠ slot := by
          intro h; simp [Tables.touches, h] at hnot
        refine ⟨⟨(hmem _).mpr ⟨hsrc, h₁⟩, ?_⟩, fun hm => ?_⟩
        · simpa [Tables.release, Function.update_of_ne hsrc] using h₂
        · have hdst : r.dstSlot ≠ slot := by
            intro h; simp [Tables.touches, h, hm] at hnot
          obtain ⟨h₄, h₅⟩ := h₃ hm
          exact ⟨(hmem _).mpr ⟨hdst, h₄⟩, by
            simpa [Tables.release, Function.update_of_ne hdst] using h₅⟩
      room := I.room }

end SlotInv

/-! ### Drained commands -/

namespace Tables

/-- `h` designates a currently active instance. -/
def Designates (T : Tables α) (h : InstanceHandle) : Prop :=
  h.slot ∈ T.activeList ∧ T.activeGen h.slot = h.generation

/-- The command's handle, or its destination when it asks for a route to an instance, does not
designate a currently active instance. -/
def NonDesignating (T : Tables α) (cmd : CommandEvent α) : Prop :=
  cmd.type ≠ .activate ∧
    (¬ T.Designates cmd.handle ∨
      cmd.type = .connect ∧ cmd.dest.toMaster = false ∧ ¬ T.Designates cmd.dest.inst)

end Tables

namespace SlotInv

variable {T : Tables α} {s slot : Nat}

/-- The activation at the head of the queue finds its slot idle. -/
theorem activate (I : SlotInv T) {cmd : CommandEvent α} {rest : List (CommandEvent α)}
    (hq : T.commands = cmd :: rest) (htype : cmd.type = .activate) :
    SlotInv
      { T with
        commands := rest
        activeGen := Function.update T.activeGen cmd.handle.slot cmd.handle.generation
        activeList := T.activeList ++ [cmd.handle.slot] } := by
  have hacts : activations T.commands = cmd.handle :: activations rest := by
    simp [hq, activations_cons, htype]
  have hmem : cmd.handle ∈ activations T.commands := hacts ▸ List.mem_cons_self
  obtain ⟨hout, -⟩ := I.not_active_of_pending hmem
  obtain ⟨hgen0, hgen⟩ := I.pending _ hmem
  have hne : ∀ x ∈ T.activeList, x ≠ cmd.handle.slot := fun x hx h => hout (h ▸ hx)
  exact
    { places := fun s => by
        refine Eq.trans ?_ (I.places s)
        simp only [Tables.places, hacts, List.map_cons, List.count_cons, List.count_append,
          List.count_nil]
        omega
      active := by
        intro s
        by_cases hs : s = cmd.handle.slot
        · subst hs; simp [hgen0]
        · simpa [Function.update_of_ne hs, hs] using I.active s
      activeGen := by
        intro s hs
        rcases List.mem_append.mp hs with hs | hs
        · simpa [Function.update_of_ne (hne s hs)] using I.activeGen s hs
        · obtain rfl := List.mem_singleton.mp hs
          simpa using hgen
      pending := fun h hh => I.pending h (hacts ▸ List.mem_cons_of_mem _ hh)
      ended := I.ended
      built := I.built
      fresh := I.fresh
      routes := by
        intro r hr
        obtain ⟨⟨h₁, h₂⟩, h₃⟩ := I.routes r hr
        refine ⟨⟨List.mem_append_left _ h₁, ?_⟩, fun hm => ?_⟩
        · simpa [Function.update_of_ne (hne _ h₁)] using h₂
        · obtain ⟨h₄, h₅⟩ := h₃ hm
          exact ⟨List.mem_append_left _ h₄, by
            simpa [Function.update_of_ne (hne _ h₄)] using h₅⟩
      room := I.room }

/-- Taking a command that is no activation off the queue moves no slot. -/
theorem dequeued (I : SlotInv T) {cmd : CommandEvent α} {rest : List (CommandEvent α)}
    (hq : T.commands = cmd :: rest) (htype : cmd.type ≠ .activate) :
    SlotInv { T with commands := rest } := by
  have hacts : activations rest = activations T.commands := by
    simp [hq, activations_cons, htype]
  exact
    { places := fun s => by simpa [Tables.places, hacts] using I.places s
      active := I.active
      activeGen := I.activeGen
      pending := fun x hx => I.pending x (hacts ▸ hx)
      ended := I.ended
      built := I.built
      fresh := I.fresh
      routes := I.routes
      room := I.room }

/-- A command taken off the queue: an activation, a command whose handles designate active
instances, or one that changes no table. -/
theorem drain (I : SlotInv T) {cmd : CommandEvent α} {rest : List (CommandEvent α)}
    (hq : T.commands = cmd :: rest)
    (safe : { T with commands := rest }.NonDesignating cmd →
      { T with commands := rest }.drain cmd = { T with commands := rest }) :
    SlotInv ({ T with commands := rest }.drain cmd) := by
  by_cases htype : cmd.type = .activate
  · have hmem : cmd.handle ∈ activations T.commands := by
      simp [hq, activations_cons, htype]
    obtain ⟨hout, hlt⟩ := I.not_active_of_pending hmem
    have h0 := I.activeGen_eq_zero hout
    simp only [Tables.drain, htype, hlt, h0, and_self, if_true]
    exact I.activate hq htype
  · have I' := I.dequeued hq htype
    by_cases hnon : { T with commands := rest }.NonDesignating cmd
    · rw [safe hnon]; exact I'
    · have hdes : T.Designates cmd.handle := by
        by_contra h
        exact hnon ⟨htype, .inl h⟩
      cases ht : cmd.type with
      | activate => exact absurd ht htype
      | kill =>
          simp only [Tables.drain, ht]
          split
          · exact I'.release hdes.1 .killed
          · exact I'
      | setParameter => simpa [Tables.drain, ht] using I'
      | connect =>
          simp only [Tables.drain, ht]
          split
          · refine { I' with routes := fun r hr => ?_ }
            rcases List.mem_append.mp hr with hr | hr
            · exact I.routes r hr
            · obtain rfl := List.mem_singleton.mp hr
              unfold Tables.routeOf
              split
              · exact ⟨hdes, by simp⟩
              · refine ⟨hdes, fun _ => ?_⟩
                by_contra h
                refine hnon ⟨htype, .inr ⟨ht, ?_, h⟩⟩
                simpa using ‹¬ cmd.dest.toMaster = true›
          · exact I'
      | disconnect =>
          simp only [Tables.drain, ht]
          exact { I' with routes := fun r hr => I.routes r (List.mem_of_mem_filter hr) }

end SlotInv

/-! ### Every step of the engine -/

/-- The slots, and the slots a reap pass has still to release. -/
structure EngineInv (e : Engine α) : Prop where
  slots : SlotInv e.tables
  reaping : ∀ rest, e.phase = .reaping rest →
    (rest.map Prod.fst).Nodup ∧ ∀ p ∈ rest, p.1 ∈ e.activeList

/-- The next command, if it does not designate an active instance, changes no table. -/
def DrainKeeps (e : Engine α) (a : EngineAction α) : Prop :=
  a = .drain → ∀ cmd rest, e.commandQueue = cmd :: rest →
    { e.tables with commands := rest }.NonDesignating cmd →
      { e.tables with commands := rest }.drain cmd = { e.tables with commands := rest }

namespace EngineInv

variable [Sample α] {e e' : Engine α}

theorem init {cfg : EngineConfig} (h : Engine.init cfg = some e) : EngineInv e where
  slots := .init h
  reaping rest hp := by
    unfold Engine.init at h
    split at h
    · cases h
    · obtain rfl := Option.some.inj h
      cases hp

/-- The slots a reap pass lists are active ones, each once, in the order of the list. -/
theorem reapScan_sublist (e : Engine α) :
    ∀ (l : List Nat) (acc : Slots α × List (Nat × EndReason)),
      ∃ l', l'.Sublist l ∧ (l.foldl e.reapCheck acc).2.map Prod.fst = acc.2.map Prod.fst ++ l'
  | [], acc => ⟨[], .slnil, by simp⟩
  | slot :: l, acc => by
      obtain ⟨l', hsub, heq⟩ := reapScan_sublist e l (e.reapCheck acc slot)
      rw [List.foldl_cons, heq]
      have hone : (e.reapCheck acc slot).2.map Prod.fst = acc.2.map Prod.fst ∨
          (e.reapCheck acc slot).2.map Prod.fst = acc.2.map Prod.fst ++ [slot] := by
        unfold Engine.reapCheck
        dsimp only
        split
        · exact .inl rfl
        · dsimp only
          split
          · exact .inr (by simp)
          · exact .inl rfl
      rcases hone with h | h
      · exact ⟨l', hsub.cons slot, by rw [h]⟩
      · exact ⟨slot :: l', hsub.cons_cons slot, by rw [h]; simp⟩

theorem finishBlock (I : EngineInv e) : EngineInv e.finishBlock where
  slots := by rw [Engine.tables_finishBlock]; exact I.slots
  reaping rest hp := by
    have hlist : e.sumToMaster.activeList = e.activeList :=
      congrArg Tables.activeList (Engine.tables_sumToMaster e)
    obtain ⟨l', hsub, heq⟩ := reapScan_sublist e.sumToMaster e.sumToMaster.activeList
      (e.sumToMaster.mgr.slots, [])
    obtain rfl : (e.sumToMaster.activeList.foldl e.sumToMaster.reapCheck
        (e.sumToMaster.mgr.slots, [])).2 = rest := AudioPhase.reaping.inj hp
    rw [hlist] at hsub heq
    rw [List.map_nil, List.nil_append] at heq
    rw [hlist, heq]
    refine ⟨hsub.nodup I.slots.active_nodup, fun p hp => ?_⟩
    have hp : p.1 ∈ l' := heq ▸ List.mem_map_of_mem hp
    have hact : e.finishBlock.activeList = e.activeList :=
      congrArg Tables.activeList (Engine.tables_finishBlock e)
    rw [hact]
    exact hsub.subset hp

omit [Sample α] in
theorem phase_releaseSlot (e : Engine α) (slot : Nat) (why : EndReason) :
    (e.releaseSlot slot why).phase = e.phase := by
  unfold Engine.releaseSlot Engine.tryEnqueueTelemetry
  split <;> rfl

theorem phase_drainCommand (e : Engine α) (cmd : CommandEvent α) :
    (e.drainCommand cmd).phase = e.phase := by
  unfold Engine.drainCommand
  cases cmd.type with
  | activate => dsimp only; split <;> rfl
  | kill => dsimp only; split <;> first | exact phase_releaseSlot _ _ _ | rfl
  | setParameter => dsimp only; split <;> rfl
  | connect => unfold Engine.addRoute; dsimp only; split_ifs <;> rfl
  | disconnect => rfl

theorem phase_work (e : Engine α) (t slot : Nat) (pc : TaskPc) :
    (e.work t slot pc).phase = e.phase := by
  cases pc with
  | gather rest =>
      cases rest with
      | nil => rfl
      | cons r rest => simp only [Engine.work, Engine.gatherRoute]; split <;> rfl
  | release rest =>
      cases rest with
      | nil => rfl
      | cons r rest => simp only [Engine.work, Engine.releaseRoute]; split <;> rfl
  | _ => rfl

/-- **Every step keeps the slots**, when no undesignated command changes a table. -/
theorem step (I : EngineInv e) {a : EngineAction α} (hok : DrainKeeps e a)
    (h : e.step a = some e') : EngineInv e' := by
  -- outside the reap pass and its start, the tables are all there is to show
  have outside : ∀ {e'' : Engine α}, SlotInv e''.tables →
      (∀ rest, e''.phase ≠ .reaping rest) → EngineInv e'' :=
    fun hs hp => ⟨hs, fun rest h => absurd h (hp rest)⟩
  have inside : ∀ {e'' : Engine α}, SlotInv e''.tables → e''.phase = e.phase →
      e''.activeList = e.activeList → EngineInv e'' :=
    fun hs hp hl => ⟨hs, fun rest h => by
      rw [hl]
      exact I.reaping rest (hp ▸ h)⟩
  cases Engine.step_cases h with
  | reclaim ok =>
      obtain ⟨ev, rest, hq, -, ht⟩ := Engine.tables_reclaimOne ok
      have hphase : e'.phase = e.phase := by
        unfold Engine.reclaimOne at ok
        split at ok
        · cases ok
        · obtain ⟨-, rfl⟩ := Prod.mk.inj (Option.some.inj ok)
          rfl
      exact inside (ht ▸ I.slots.reclaim hq) hphase (congrArg Tables.activeList ht)
  | create ok =>
      obtain ⟨idx, rest, hf, rfl, ht⟩ := Engine.tables_create ok
      have hphase : e'.phase = e.phase := by
        unfold Engine.create at ok
        split at ok
        · cases ok
        · obtain ⟨-, rfl⟩ := Prod.mk.inj (Option.some.inj ok)
          rfl
      exact inside (ht ▸ I.slots.create hf) hphase (congrArg Tables.activeList ht)
  | enqueue type => exact inside (I.slots.enqueue type) rfl rfl
  | raiseFinished valid =>
      exact inside (by simpa [Engine.tables] using I.slots) rfl rfl
  | begin phase => exact outside I.slots (by simp)
  | drain phase queue =>
      refine outside ?_ fun rest hp => ?_
      · rw [Engine.tables_drainCommand]
        exact I.slots.drain queue (hok rfl _ _ queue)
      · rw [phase_drainCommand] at hp
        exact absurd (phase.symm.trans hp) (by simp)
  | compute phase queue =>
      refine outside (by rw [Engine.tables_computeBlock]; exact I.slots) fun rest hp => ?_
      unfold Engine.computeBlock at hp
      dsimp only at hp
      split at hp <;> cases hp
  | seed phase => exact outside I.slots (by simp [Engine.seedSlot])
  | seeded phase => exact outside I.slots (by simp)
  | leave phase thread drained => exact outside I.slots (by simp)
  | finish phase => exact I.finishBlock
  | @reap slot why rest phase =>
      obtain ⟨hnodup, hmem⟩ := I.reaping _ phase
      obtain ⟨hout, hnodup⟩ := List.nodup_cons.mp hnodup
      have hact : slot ∈ e.activeList := hmem (slot, why) List.mem_cons_self
      have htables : ({ e with phase := .reaping rest }.releaseSlot slot why).tables
          = e.tables.release slot why := Engine.tables_releaseSlot _ slot why
      have hlist : ({ e with phase := .reaping rest }.releaseSlot slot why).activeList
          = e.activeList.erase slot := congrArg Tables.activeList htables
      refine ⟨htables ▸ I.slots.release hact why, fun rest' hp => ?_⟩
      obtain rfl : rest = rest' := by
        rw [phase_releaseSlot] at hp
        exact AudioPhase.reaping.inj hp
      refine ⟨hnodup, fun p hpr => ?_⟩
      have hne : p.1 ≠ slot := fun heq =>
        hout (List.mem_map.mpr ⟨p, hpr, heq⟩)
      rw [hlist]
      exact (I.slots.active_nodup.mem_erase_iff).mpr
        ⟨hne, hmem p (List.mem_cons_of_mem _ hpr)⟩
  | writeOut phase => exact outside I.slots (by simp)
  | poll thread test => exact inside I.slots rfl rfl
  | popEmpty thread queue => exact inside I.slots rfl rfl
  | pop thread queue => exact inside I.slots rfl rfl
  | @work t slot pc thread =>
      have ht := Engine.tables_work e t slot pc
      exact inside (ht ▸ I.slots) (phase_work e t slot pc) (congrArg Tables.activeList ht)

/-- The invariant of every run whose undesignated commands change no table. -/
theorem of_reaches {cfg : EngineConfig} {ok : Engine α → EngineAction α → Prop}
    (hok : ∀ e a, EngineInv e → ok e a → DrainKeeps e a) (h : EngineReaches cfg ok e) :
    EngineInv e := by
  obtain ⟨e₀, h₀, run⟩ := h
  exact run.invariant (init h₀) fun t a u I meets one => I.step (hok t a I meets) one

end EngineInv

end Xrune
