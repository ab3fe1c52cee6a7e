import Xrune.Runtime.Lifetimes

/-!
# Runtime — the voices of a host live their lives

The calls of the API move no active voice: a spawn adds one, whose activation it enqueues, and
reclaiming frees the slot of one that ended.  With the steps of the audio thread, every step of a
watched host keeps `WatchInv` (`WatchInv.step`), and every host reached has it
(`watchInv_of_reaches`).
-/

namespace Xrune

open Tenure (Step)

variable {α : Type}

/-- At the lifetime checks `hears` relates each policy and verdict to what is heard. -/
def Host.Hears [Sample α] (hears : LifetimePolicy α → Bool → GraphInstance α → Prop) (h : Host α)
    (a : HostAction α) : Prop :=
  a = .api (.audio .finish) → ∀ slot ∈ h.rt.eng.activeList, ∀ g,
    (h.rt.eng.mgr.slots slot).inst = some g →
      hears (h.rt.eng.leases slot).life
        (Sample.lt (Engine.terminalPeak g h.rt.eng.parallelNf)
          (h.rt.eng.leases slot).life.silenceThreshold) g

namespace WatchInv

variable [Sample α] {orderly : Prop} {hears : LifetimePolicy α → Bool → GraphInstance α → Prop}
  {w w' : Watch α}

omit [Sample α] in
/-- The engine is left. -/
theorem calls (I : WatchInv orderly hears w) (H : HostInv w.host) (hist : w'.Follows w)
    (same : w.SameVoices w'.host) (heng : w'.eng = w.eng) : WatchInv orderly hears w' :=
  I.still H.runtime.engine.slots H.voices hist same (by rw [heng]) (by rw [heng]) (by rw [heng])
    fun _ _ => by rw [heng]

omit [Sample α] in
/-- A voice that ended is reclaimed. -/
theorem reclaims (I : WatchInv orderly hears w) (H : HostInv w.host) (hist : w'.Follows w)
    (same : w.SameVoices w'.host) {v : VoiceEnd} (ok : w.eng.reclaimOne = some (v, w'.eng)) :
    WatchInv orderly hears w' := by
  have S := H.runtime.engine.slots
  obtain ⟨ev, rest, queue, rfl, ht⟩ := Engine.tables_reclaimOne ok
  obtain ⟨-, phase, pool⟩ := Engine.reclaimOne_keeps ok
  have mem : ev ∈ w.eng.tables.ended := queue ▸ List.mem_cons_self
  refine I.still S H.voices hist same (congrArg Tables.activeList ht)
    (congrArg (fun T => activations T.commands) ht)
    (Engine.turn_congr phase (congrArg WorkerPool.processed pool)) fun slot held =>
      Engine.leases_reclaimOne ok fun (e : slot = ev.slot) => ?_
  rcases held with act | ⟨h, hh, rfl⟩
  · exact (S.not_active_of_ended mem).1 (e ▸ act)
  · exact S.not_pending_of_ended mem h hh e

omit [Sample α] in
/-- A command that activates nothing is sent. -/
theorem sends (I : WatchInv orderly hears w) (H : HostInv w.host) (hist : w'.Follows w)
    (same : w.SameVoices w'.host) {cmd : CommandEvent α} (type : cmd.type ≠ .activate)
    (heng : w'.eng = w.eng.enqueue cmd) : WatchInv orderly hears w' := by
  refine I.still H.runtime.engine.slots H.voices hist same (by rw [heng]; rfl) ?_
    (by rw [heng]; rfl) fun _ _ => by rw [heng]; rfl
  have queue : w'.eng.commandQueue = w.eng.commandQueue ++ [cmd] := by rw [heng]; rfl
  rw [queue, SlotInv.activations_append, if_neg type, List.append_nil]

/-- A voice is created. -/
theorem creates (I : WatchInv orderly hears w) (H : HostInv w.host) {plan : SpawnPlan α}
    {h : InstanceHandle} (ok : w.eng.create plan.sched plan.life plan.init = some (h, w'.eng))
    (hspawned : w'.host.session.spawned = w.host.session.spawned ++ [⟨h, plan.id⟩])
    (hvoice : w'.voice = Function.update w.voice h.slot w.host.session.spawned.length)
    (hist : w'.Follows { w with lives := w.lives ++ [plan.life] }) :
    WatchInv orderly hears w' := by
  obtain ⟨idx, rest, free, rfl, ht⟩ := Engine.tables_create ok
  obtain ⟨-, phase, pool⟩ := Engine.create_keeps ok
  refine I.spawns H.runtime.engine.slots ?_ ?_ hspawned hvoice hist
    (congrArg Tables.activeList ht) ?_
    (Engine.turn_congr phase (congrArg WorkerPool.processed pool)) (Engine.leases_create ok)
  · have mem : idx ∈ w.eng.tables.pool.freeSlots := free ▸ List.mem_cons_self
    exact mem
  · exact ⟨rfl, rfl⟩
  · exact (congrArg (fun T => activations T.commands) ht).trans
      (SlotInv.activations_append w.eng.commandQueue (.activate ⟨idx, _⟩))

/-- A step of `spawn` adds to the policies those of the voices it spawned. -/
theorem saw_spawning {h : Host α} {plan : SpawnPlan α} (call : w.host.rt.call = .spawning plan)
    {new : List Voice} (hspawned : h.session.spawned = w.host.session.spawned ++ new) :
    w.saw (.api .advance) h
      = { w with lives := w.lives ++ List.replicate new.length plan.life } := by
  simp only [Watch.saw, call, hspawned, List.length_append, Nat.add_sub_cancel_left]

/-- A step of another call adds nothing. -/
theorem saw_calling {h : Host α} (call : ∀ plan, w.host.rt.call ≠ .spawning plan) :
    w.saw (.api .advance) h = w := by
  unfold Watch.saw
  dsimp only
  split
  next plan spawning => exact absurd spawning (call plan)
  · rfl

/-- A call of the API, or a step of the audio thread or a worker. -/
theorem api (I : WatchInv orderly hears w) (H : HostInv w.host) (B : orderly → BlockInv w.eng)
    {b : RuntimeAction α} (one : w.host.session.step b = some w'.host.session)
    (hist : w'.Follows (w.saw (.api b) w'.host))
    (sound : w.host.Hears hears (.api b)) : WatchInv orderly hears w' := by
  obtain ⟨-, out, stepped, hs⟩ := Session.step_cases one
  have hspawned : w'.host.session.spawned
      = ((w.host.session.observeEnd b).observe out).spawned := by rw [hs]
  have hvoice : w'.voice = ((w.host.session.observeEnd b).observe out).occupant :=
    (congrArg Session.occupant hs).trans rfl
  have old : ∀ {plan}, w.host.rt.call = .spawning plan →
      w'.Follows (w.saw (.api .advance) w'.host) →
        w'.host.session.spawned = w.host.session.spawned → w'.Follows w := by
    intro plan call hist same
    rw [saw_spawning call (same.trans (List.append_nil _).symm)] at hist
    simpa using hist
  have calling : (∀ plan, w.host.rt.call ≠ .spawning plan) →
      w'.Follows (w.saw (.api .advance) w'.host) → w'.Follows w := fun call hist => by
    rwa [saw_calling call] at hist
  generalize hrt : w'.host.session.rt = rt' at stepped
  have heng : w'.eng = rt'.eng := congrArg Runtime.eng hrt
  cases stepped with
  | register | spawnRefused | spawn | requestRefused | request | pump | deliver | finishPump =>
      exact I.calls H hist ⟨hspawned, hvoice⟩ heng
  | spawnReclaims call ok =>
      exact I.reclaims H (old call hist hspawned) ⟨hspawned, hvoice⟩ (by rw [heng]; exact ok)
  | spawnFull call drained full =>
      exact I.calls H (old call hist hspawned) ⟨hspawned, hvoice⟩ heng
  | @spawnCreates plan h eng call drained ok =>
      obtain ⟨fresh, -, -⟩ := H.runtime.created call ok
      obtain ⟨grown, placed⟩ :=
        w.host.session.observe_spawned_valid (v := ⟨h, plan.id⟩) fresh
      rw [saw_spawning call (hspawned.trans grown)] at hist
      exact I.creates H (by rw [heng]; exact ok) (hspawned.trans grown) (hvoice.trans placed) hist
  | sent call => exact I.calls H (calling (by simp [call]) hist) ⟨hspawned, hvoice⟩ heng
  | @send cmd cmds call =>
      have type := (H.runtime.sending _ call cmd List.mem_cons_self).2
      exact I.sends H (calling (by simp [call]) hist) ⟨hspawned, hvoice⟩ type heng
  | collects call ok cb | discards call ok cb =>
      exact I.reclaims H (calling (by simp [call]) hist) ⟨hspawned, hvoice⟩ (by rw [heng]; exact ok)
  | collected call drained =>
      exact I.calls H (calling (by simp [call]) hist) ⟨hspawned, hvoice⟩ heng
  | @audio a eng thread ok =>
      refine I.audio H B hist ⟨?_, ?_⟩ thread (by rw [heng]; exact ok) fun finish => sound (finish ▸ rfl)
      · exact hspawned.trans (Session.observeEnd_spawned w.host.session (.audio a))
      · exact hvoice.trans (Session.observeEnd_occupant w.host.session (.audio a))

/-- **A step of the host is a step of its voices' lives.** -/
theorem step (I : WatchInv orderly hears w) (H : HostInv w.host) (B : orderly → BlockInv w.eng)
    {a : HostAction α} (one : w.step a = some w')
    (sound : w.host.Hears hears a) : WatchInv orderly hears w' := by
  obtain ⟨h', hh, rfl⟩ := Option.map_eq_some_iff.mp one
  cases Host.step_cases hh with
  | resolved ok | unresolved error | sets knows ref may valid | refused invalid =>
      exact I.calls H ⟨rfl, rfl, rfl, rfl, rfl, rfl⟩ ⟨rfl, rfl⟩ rfl
  | @raises v eng ok =>
      obtain ⟨ht, phase, pool, leases⟩ := HostInv.raises ok
      exact I.still H.runtime.engine.slots H.voices ⟨rfl, rfl, rfl, rfl, rfl, rfl⟩ ⟨rfl, rfl⟩
        (congrArg Tables.activeList ht) (congrArg (fun T => activations T.commands) ht)
        (Engine.turn_congr phase (congrArg WorkerPool.processed pool))
        fun slot _ => congrFun leases slot
  | api call =>
      exact I.api H B call ⟨rfl, rfl, rfl, rfl, rfl, rfl⟩ sound

theorem init {cfg : EngineConfig} {cb : Bool} {s : Session α} (h : Session.init cfg cb = some s) :
    WatchInv orderly hears (.init s) := by
  obtain ⟨rt, hrt, rfl⟩ := Option.map_eq_some_iff.mp h
  obtain ⟨e, he, rfl⟩ := Option.map_eq_some_iff.mp hrt
  unfold Engine.init at he
  split at he
  · cases he
  · obtain rfl := Option.some.inj he
    exact
      { lives := rfl
        policy := fun slot held => by
          rcases held with act | ⟨h, hh, -⟩
          · cases act
          · cases hh
        unborn := fun k _ => ⟨fun _ => rfl, rfl, List.not_mem_nil⟩
        pending := fun h hh => by cases hh
        active := fun slot act => by cases act
        ended := fun k why hk => by cases hk
        once := List.nodup_nil
        accounted := fun k hk => by cases hk }

end WatchInv

section Reached

variable [Sample α] {cfg : EngineConfig} {cb : Bool} {ok : Host α → HostAction α → Prop}
  {w : Watch α} {orderly : Prop} {hears : LifetimePolicy α → Bool → GraphInstance α → Prop}

/-- **The voices of a watched host** live lives of `Tenure`. -/
theorem watchInv_of_reaches (block : orderly → ∀ h a, ok h a → h.BlockOk a)
    (hear : ∀ h a, ok h a → h.Hears hears a) (run : WatchReaches cfg cb ok w) :
    WatchInv orderly hears w := by
  obtain ⟨s₀, h₀, run⟩ := run
  induction run with
  | refl => exact .init h₀
  | tail run meets one ih =>
      have host : HostReaches cfg cb ok _ := WatchReaches.host ⟨s₀, h₀, run⟩
      exact ih.step (hostInv_of_reaches host)
        (fun holds => blockInv_of_hostReaches (block holds) host) one (hear _ _ meets)

end Reached

end Xrune
