import Xrune.Runtime.Watch

/-!
# Runtime — lifetimes

Each step of a host is, for every active voice, a step of its life or none; a voice is released
by a kill or at a lifetime check (`watchInv_of_reaches`).  So what `Tenure` says of a life holds
of the voices of a host:

* a voice is reaped for silence after its policy's number of blocks in each of which the check
  found it quiet, and the check looks only at the first frames of the first output terminal;
* a timed voice is processed in `max 1 ttl` blocks from its activation on, if the blocks execute
  each active instance once.
-/

namespace Xrune

open Tenure (Step)

variable {α : Type}

namespace Engine

theorem turn_congr {e e' : Engine α} (phase : e'.phase = e.phase)
    (processed : e'.pool.processed = e.pool.processed) : e'.turn = e.turn := by
  funext slot
  rw [turn, turn, phase, processed]

theorem turn_of_inBlock {e : Engine α} (hin : e.inBlock = true) (slot : Nat) :
    e.turn slot = .inside (decide (slot ∈ e.pool.processed)) := by
  unfold turn
  cases phase : e.phase with
  | seeding rest | helping => rfl
  | outside | draining | computed | reaping rest => simp [inBlock, phase] at hin

theorem turn_of_outside {e e' : Engine α} (phase : e'.phase = e.phase) (out : e.inBlock = false) :
    e'.turn = e.turn := by
  funext slot
  unfold turn
  rw [phase]
  cases here : e.phase with
  | seeding rest | helping => simp [inBlock, here] at out
  | outside | draining | computed | reaping rest => rfl

section Steps

variable [Sample α]

theorem processed_work (e : Engine α) (t slot : Nat) (pc : TaskPc) :
    (e.work t slot pc).pool.processed
      = if pc = .process then e.pool.processed ++ [slot] else e.pool.processed := by
  cases pc with
  | gather rest =>
      cases rest with
      | nil => rfl
      | cons r rest =>
          have pool : (e.work t slot (.gather (r :: rest))).pool.processed
              = (e.gatherRoute slot r).pool.processed := rfl
          rw [pool, pool_gatherRoute]
          rfl
  | release rest =>
      cases rest with
      | nil => rfl
      | cons r rest => simp only [work, releaseRoute]; split <;> rfl
  | push dst rest =>
      simp only [work, moveTo, WorkerPool.pushReady]
      split <;> rfl
  | zero | process | finish => rfl

/-- The verdict of a lifetime check. -/
theorem shouldReap_eq (s : InstanceSlot α) (g : GraphInstance α) (peak : α) :
    let v := s.life.verdict s.ageBlocks s.silentRun g.finishedFlag
      (Sample.lt peak s.life.silenceThreshold)
    shouldReap s g peak = (v.1, { s with ageBlocks := v.2.1, silentRun := v.2.2 }) := by
  unfold shouldReap LifetimePolicy.verdict
  cases g.finishedFlag with
  | true => rfl
  | false => cases kind : s.life.kind <;> simp [kind]

end Steps

theorem lookup_filterMap {β : Type} (f : Nat → Option β) {slot : Nat} :
    ∀ {l : List Nat}, slot ∈ l → (l.filterMap fun s => (f s).map (s, ·)).lookup slot = f slot
  | s :: l, hs => by
      by_cases rest : slot ∈ l
      · have ih := lookup_filterMap f rest
        cases hf : f s with
        | none => simpa [hf] using ih
        | some v =>
            by_cases e : slot = s
            · subst e
              simp [hf]
            · have ne : (slot == s) = false := by simpa using e
              simpa [hf, List.lookup_cons, ne] using ih
      · obtain rfl := (List.mem_cons.mp hs).resolve_right rest
        cases hf : f slot with
        | some v => simp [hf]
        | none =>
            simp only [List.filterMap_cons, hf, Option.map_none]
            rw [List.lookup_eq_none_iff]
            rintro ⟨s, v⟩ hv
            obtain ⟨s', hs', e⟩ := List.mem_filterMap.mp hv
            obtain ⟨v', -, e⟩ := Option.map_eq_some_iff.mp e
            obtain ⟨rfl, rfl⟩ := Prod.mk.inj e
            simpa using fun e : slot = s' => rest (e ▸ hs')

end Engine

namespace Watch

variable {w : Watch α}

theorem records_same {e : Engine α} (same : e.telemetryQueue = w.eng.telemetryQueue) :
    w.records e = w := by
  simp [records, same]

theorem records_one {e : Engine α} {ev : TelemetryEvent}
    (one : e.telemetryQueue = w.eng.telemetryQueue ++ [ev]) :
    w.records e = { w with ends := w.ends ++ [(w.voice ev.slot, ev.reason)] } := by
  simp [records, one]

end Watch

namespace WatchInv

variable [Sample α] {orderly : Prop} {hears : LifetimePolicy α → Bool → GraphInstance α → Prop}
  {w w' : Watch α}

/-- A command is taken up. -/
theorem drains (I : WatchInv orderly hears w) (H : HostInv w.host)
    (hist : w'.Follows (w.observe .drain w'.eng)) (same : w.SameVoices w'.host)
    {cmd : CommandEvent α} {rest : List (CommandEvent α)} (phase : w.eng.phase = .draining)
    (queue : w.eng.commandQueue = cmd :: rest)
    (heng : w'.eng = { w.eng with commandQueue := rest }.drainCommand cmd) :
    WatchInv orderly hears w' := by
  have S := H.runtime.engine.slots
  have ht : w'.eng.tables = { w.eng.tables with commands := rest }.drain cmd :=
    heng ▸ Engine.tables_drainCommand { w.eng with commandQueue := rest } cmd
  have leases : w'.eng.leases = w.eng.leases := heng ▸ Engine.leases_drainCommand _ cmd
  have turn : w'.eng.turn = w.eng.turn := by
    rw [heng]
    exact Engine.turn_congr (EngineInv.phase_drainCommand _ cmd)
      (congrArg WorkerPool.processed (Engine.pool_drainCommand _ cmd))
  have hqueue : w'.eng.commandQueue = rest :=
    (congrArg Tables.commands ht).trans ({ w.eng.tables with commands := rest }.drain_keeps cmd).2.1
  have hact := SlotInv.activations_cons rest cmd
  by_cases activates : cmd.type = .activate
  · rw [if_pos activates, ← queue] at hact
    have mem : cmd.handle ∈ activations w.eng.commandQueue := hact ▸ List.mem_cons_self
    obtain ⟨idle, hlt⟩ := S.not_active_of_pending mem
    have here : cmd.handle.slot < w.eng.mgr.capacity ∧ w.eng.activeGen cmd.handle.slot = 0 :=
      ⟨hlt, S.activeGen_eq_zero idle⟩
    have hobs : w.observe .drain w'.eng
        = { w with began := Function.update w.began (w.voice cmd.handle.slot) w.block } := by
      simp [Watch.observe, Engine.activating, phase, queue, activates, here]
    have list : w'.eng.activeList = w.eng.activeList ++ [cmd.handle.slot] := by
      rw [heng]
      simp [Engine.drainCommand, activates, here]
    exact I.activates S H.voices hact (by simp [Engine.turn, phase]) (hobs ▸ hist) same list
      (congrArg activations hqueue) turn leases
  · rw [if_neg activates, ← queue] at hact
    have hobs : w.observe .drain w'.eng = w.records w'.eng := by
      simp [Watch.observe, Engine.activating, phase, queue, activates]
    rw [hobs] at hist
    have ended := (congrArg Tables.ended ht).trans (Tables.drain_ended _ cmd)
    by_cases kills : cmd.type = .kill ∧ w.eng.tables.Matches cmd.handle
    · have valid := H.runtime.queued cmd (queue ▸ List.mem_cons_self) activates
      have act : cmd.handle.slot ∈ w.eng.activeList :=
        (S.active _).mp (by rw [kills.2.2]; exact valid.1)
      have room := (S.ended_length_lt act).trans S.room
      have record : w'.eng.telemetryQueue = w.eng.telemetryQueue
          ++ [⟨cmd.handle.slot, w.eng.activeGen cmd.handle.slot, .killed⟩] :=
        (ended.trans (if_pos kills)).trans (if_pos room)
      rw [Watch.records_one record] at hist
      refine I.releases S H.voices act (.inr ⟨by simp [Watch.tenure, Engine.turn, phase], rfl⟩)
        hist same ?_ ((congrArg activations hqueue).trans hact.symm) (fun s _ => congrFun turn s)
        leases
      refine (congrArg Tables.activeList ht).trans ?_
      unfold Tables.drain
      rw [kills.1]
      exact congrArg Tables.activeList (if_pos kills.2)
    · rw [Watch.records_same (ended.trans (if_neg kills))] at hist
      refine I.still S H.voices hist same ?_ ((congrArg activations hqueue).trans hact.symm) turn
        fun slot _ => congrFun leases slot
      refine (congrArg Tables.activeList ht).trans ?_
      unfold Tables.drain
      cases type : cmd.type with
      | activate => exact absurd type activates
      | kill => exact congrArg Tables.activeList (if_neg fun m => kills ⟨type, m⟩)
      | setParameter | disconnect => rfl
      | connect => dsimp only; split <;> rfl

omit [Sample α] in
/-- Among active slots, a voice is in one. -/
theorem filter_voice (S : SlotInv w.eng.tables) (V : VoiceInv w.host.session) {l : List Nat}
    (hn : l.Nodup) (sub : ∀ s ∈ l, s ∈ w.eng.activeList) {slot : Nat}
    (act : slot ∈ w.eng.activeList) :
    (l.filter fun s => w.voice s = w.voice slot) = if slot ∈ l then [slot] else [] := by
  have alone : ∀ s ∈ l, decide (w.voice s = w.voice slot) = (s == slot) := fun s hs => by
    rw [Bool.eq_iff_iff, decide_eq_true_eq, beq_iff_eq]
    exact ⟨voice_inj S V (.inl (sub s hs)) (.inl act), fun e => e ▸ rfl⟩
  rw [List.filter_congr alone, List.filter_beq, hn.count]
  split <;> rfl

omit [Sample α] in
theorem filter_voice_nil {l : List Nat} (sub : ∀ s ∈ l, s ∈ w.eng.activeList) {k : Nat}
    (off : ∀ slot ∈ w.eng.activeList, w.voice slot ≠ k) :
    (l.filter fun s => w.voice s = k) = [] :=
  List.filter_eq_nil_iff.mpr fun s hs => by simpa using off s (sub s hs)

/-- The block is computed, or begun in parallel. -/
theorem computes (I : WatchInv orderly hears w) (H : HostInv w.host)
    (hist : w'.Follows (w.observe .compute w'.eng)) (same : w.SameVoices w'.host)
    (phase : w.eng.phase = .draining) (heng : w'.eng = w.eng.computeBlock) :
    WatchInv orderly hears w' := by
  have S := H.runtime.engine.slots
  have ht : w'.eng.tables = w.eng.tables := heng ▸ Engine.tables_computeBlock w.eng
  have leases : w'.eng.leases = w.eng.leases := heng ▸ Engine.leases_computeBlock w.eng
  have list : w'.eng.activeList = w.eng.activeList := congrArg Tables.activeList ht
  have queue := congrArg (fun T => activations T.commands) ht
  have turn : ∀ slot, w.eng.turn slot = .before := fun slot => by simp [Engine.turn, phase]
  by_cases parallel : w.eng.pool.workers ≠ 0 ∧ 2 ≤ w.eng.activeList.length
  · have heng : w'.eng = w.eng.clearMaster.beginParallel := heng.trans (if_pos parallel)
    have hobs : w.observe .compute w'.eng = w := if_pos parallel
    rw [hobs] at hist
    refine I.turns S H.voices same.spawned same.occupant hist.lives hist.ends list queue
      (fun slot _ => congrArg Lease.life (congrFun leases slot)) (fun hd _ => congrFun leases _)
      (fun slot act => .inr ?_) fun k _ => by
        rw [hist.began, hist.heard, hist.played]
        exact ⟨rfl, rfl, fun _ => rfl⟩
    have turn' : w'.eng.turn slot = .inside false := by
      rw [heng]
      simp [Engine.turn, Engine.beginParallel]
    rw [tenure_eq turn' (congrFun leases slot) (congrFun same.occupant slot) hist.block
      (by rw [hist.began]) (by rw [hist.played]) (by rw [hist.heard])]
    exact .enter (turn slot)
  · have heng : w'.eng = { w.eng.clearMaster.computeSequential with phase := .computed } :=
      heng.trans (if_neg parallel)
    have hobs : w.observe .compute w'.eng = w.plays w.eng.clearMaster.computeOrder.1 :=
      if_neg parallel
    rw [hobs] at hist
    have perm : w.eng.clearMaster.computeOrder.1.Perm w.eng.activeList :=
      w.eng.clearMaster.computeOrder_perm (w.eng.clearMaster.wellFormed S)
    have sub : ∀ s ∈ w.eng.clearMaster.computeOrder.1, s ∈ w.eng.activeList :=
      fun s hs => perm.mem_iff.mp hs
    refine I.turns S H.voices same.spawned same.occupant hist.lives hist.ends list queue
      (fun slot _ => congrArg Lease.life (congrFun leases slot)) (fun hd _ => congrFun leases _)
      (fun slot act => .inr ?_) fun k off => ?_
    · have turn' : w'.eng.turn slot = .computed := by rw [heng]; rfl
      have once : w'.played (w.voice slot) = w.played (w.voice slot) ++ [w.block] := by
        have here := filter_voice S H.voices (perm.nodup_iff.mpr S.active_nodup) sub act
        rw [if_pos (perm.mem_iff.mpr act)] at here
        rw [hist.played]
        simp only [Watch.plays, here, List.map_cons, List.map_nil]
      rw [tenure_eq turn' (congrFun leases slot) (congrFun same.occupant slot) hist.block
        (by rw [hist.began]; rfl) once (by rw [hist.heard]; rfl)]
      exact .compute (turn slot)
    · rw [hist.began, hist.heard, hist.played]
      exact ⟨rfl, rfl, fun _ => by simp [Watch.plays, filter_voice_nil sub off]⟩

omit [Sample α] in
/-- The parallel block comes to its end. -/
theorem leaves (I : WatchInv orderly hears w) (H : HostInv w.host)
    (B : orderly → BlockInv w.eng) (hist : w'.Follows w) (same : w.SameVoices w'.host)
    (phase : w.eng.phase = .helping) (drained : w.eng.pool.tasksRemaining ≤ 0)
    (heng : w'.eng = { w.eng with
      pool := { w.eng.pool with blockActive := false }, phase := .computed }) :
    WatchInv orderly hears w' := by
  have leases : w'.eng.leases = w.eng.leases := by rw [heng]; rfl
  have hin : w.eng.inBlock = true := by simp only [Engine.inBlock, phase]
  refine I.turns H.runtime.engine.slots H.voices same.spawned same.occupant hist.lives hist.ends
    (by rw [heng]) (by rw [heng]) (fun slot _ => congrArg Lease.life (congrFun leases slot))
    (fun hd _ => congrFun leases _) (fun slot act => .inr ?_) fun k _ => by
      rw [hist.began, hist.heard, hist.played]
      exact ⟨rfl, rfl, fun _ => rfl⟩
  have turn' : w'.eng.turn slot = .computed := by rw [heng]; rfl
  rw [tenure_eq turn' (congrFun leases slot) (congrFun same.occupant slot) hist.block
    (by rw [hist.began]) (by rw [hist.played]) (by rw [hist.heard])]
  refine .leave (Engine.turn_of_inBlock hin slot) fun holds => decide_eq_true ?_
  obtain ⟨-, -, nonneg, all⟩ := (B holds).executed hin
  exact all (le_antisymm drained nonneg) slot act

/-- The block is finished: the lifetimes are checked. -/
theorem finishes (I : WatchInv orderly hears w) (H : HostInv w.host) (hist : w'.Follows w.hears)
    (same : w.SameVoices w'.host) (phase : w.eng.phase = .computed)
    (heng : w'.eng = w.eng.finishBlock)
    (sound : ∀ slot ∈ w.eng.activeList, ∀ g, (w.eng.mgr.slots slot).inst = some g →
      hears (w.eng.leases slot).life
        (Sample.lt (Engine.terminalPeak g w.eng.parallelNf)
          (w.eng.leases slot).life.silenceThreshold) g) : WatchInv orderly hears w' := by
  have S := H.runtime.engine.slots
  have ht : w'.eng.tables = w.eng.tables := heng ▸ Engine.tables_finishBlock w.eng
  have list : w'.eng.activeList = w.eng.activeList := congrArg Tables.activeList ht
  obtain ⟨hslots, hphase⟩ := Engine.finishBlock_slots (e := w.eng) S.active_nodup
  rw [← heng] at hslots hphase
  have lease : ∀ slot, w'.eng.leases slot = if slot ∈ w.eng.activeList
      then (w.eng.lifeCheck slot).2.lease else w.eng.leases slot := fun slot => by
    rw [Engine.leases, InstanceManager.leases, hslots]
    dsimp only
    split <;> rfl
  -- the check of one slot
  have check : ∀ slot ∈ w.eng.activeList, ∃ g, (w.eng.mgr.slots slot).inst = some g ∧
      w'.tenure slot = (w.tenure slot).check g.finishedFlag
        (Sample.lt (Engine.terminalPeak g w.eng.parallelNf)
          (w.eng.leases slot).life.silenceThreshold) g := by
    intro slot act
    have built := (S.built slot).mpr ⟨S.lt_of_active act, fun hf => S.not_active_of_free hf act⟩
    obtain ⟨g, hg⟩ := Option.isSome_iff_exists.mp built
    have hg : (w.eng.mgr.slots slot).inst = some g := hg
    have verdict : w.eng.lifeCheck slot
        = Engine.shouldReap (w.eng.mgr.slots slot) g (Engine.terminalPeak g w.eng.parallelNf) := by
      rw [Engine.lifeCheck, hg]
    have turn : w'.eng.turn slot = .checked (w.eng.lifeCheck slot).1 := by
      rw [Engine.turn, hphase]
      exact congrArg Turn.checked
        (Engine.lookup_filterMap (fun s => (w.eng.lifeCheck s).1) act)
    have here : (w.eng.activeList.filter fun s => w.voice s = w.voice slot) = [slot] :=
      (filter_voice S H.voices S.active_nodup (fun _ => id) act).trans (if_pos act)
    refine ⟨g, hg, ?_⟩
    unfold Watch.tenure
    dsimp only
    have voice : w'.voice slot = w.voice slot := congrFun same.occupant slot
    rw [turn, lease slot, if_pos act, verdict, Engine.shouldReap_eq, voice, hist.block, hist.began,
      hist.played, hist.heard]
    dsimp only [Watch.hears]
    rw [here]
    simp only [List.filterMap_cons, hg, Option.map_some, List.filterMap_nil]
    rfl
  refine I.turns S H.voices same.spawned same.occupant hist.lives hist.ends list
    (congrArg (fun T => activations T.commands) ht) (fun slot held => ?_) (fun hd hh => ?_)
    (fun slot act => .inr ?_) fun k off => ?_
  · by_cases act : slot ∈ w.eng.activeList
    · obtain ⟨g, -, tenure⟩ := check slot act
      exact congrArg Tenure.life tenure
    · rw [lease, if_neg act]
  · rw [lease]
    exact if_neg (S.not_active_of_pending hh).1
  · obtain ⟨g, hg, tenure⟩ := check slot act
    rw [tenure]
    exact .check (by simp [Watch.tenure, Engine.turn, phase]) _ (sound slot act g hg)
  · rw [hist.began, hist.heard, hist.played]
    exact ⟨rfl, by simp [Watch.hears, filter_voice_nil (fun _ => id) off], fun _ => rfl⟩

omit [Sample α] in
/-- A voice whose time is up is released. -/
theorem reaps (I : WatchInv orderly hears w) (H : HostInv w.host)
    (hist : w'.Follows (w.records w'.eng)) (same : w.SameVoices w'.host)
    {slot : Nat} {why : EndReason} {rest : List (Nat × EndReason)}
    (phase : w.eng.phase = .reaping ((slot, why) :: rest))
    (heng : w'.eng = { w.eng with phase := .reaping rest }.releaseSlot slot why) :
    WatchInv orderly hears w' := by
  have S := H.runtime.engine.slots
  have act : slot ∈ w.eng.activeList :=
    (H.runtime.engine.reaping _ phase).2 (slot, why) List.mem_cons_self
  have ht : w'.eng.tables = w.eng.tables.release slot why :=
    heng ▸ Engine.tables_releaseSlot { w.eng with phase := .reaping rest } slot why
  have record : w'.eng.telemetryQueue
      = w.eng.telemetryQueue ++ [⟨slot, w.eng.activeGen slot, why⟩] :=
    (congrArg Tables.ended ht).trans (if_pos ((S.ended_length_lt act).trans S.room))
  have phase' : w'.eng.phase = .reaping rest := heng ▸ EngineInv.phase_releaseSlot _ slot why
  rw [Watch.records_one record] at hist
  refine I.releases S H.voices act (.inl ?_) hist same (congrArg Tables.activeList ht)
    (congrArg (fun T => activations T.commands) ht) (fun s hs => ?_)
    (heng ▸ Engine.leases_releaseSlot _ slot why)
  · simp [Watch.tenure, Engine.turn, phase]
  · have ne : (s == slot) = false := by simpa using hs
    simp [Engine.turn, phase, phase', List.lookup_cons, ne]

/-- The block is written out. -/
theorem writes (I : WatchInv orderly hears w) (H : HostInv w.host)
    (hist : w'.Follows { w with block := w.block + 1 }) (same : w.SameVoices w'.host)
    (phase : w.eng.phase = .reaping [])
    (heng : w'.eng = { w.eng with phase := .outside, outBuf := w.eng.interleave }) :
    WatchInv orderly hears w' := by
  have leases : w'.eng.leases = w.eng.leases := by rw [heng]; rfl
  refine I.turns H.runtime.engine.slots H.voices same.spawned same.occupant hist.lives hist.ends
    (by rw [heng]) (by rw [heng]) (fun slot _ => congrArg Lease.life (congrFun leases slot))
    (fun hd _ => congrFun leases _) (fun slot act => .inr ?_) fun k _ => by
      rw [hist.began, hist.heard, hist.played]
      exact ⟨rfl, rfl, fun _ => rfl⟩
  have next : w'.tenure slot = { w.tenure slot with turn := .before, block := w.block + 1 } := by
    have turn' : w'.eng.turn slot = .before := by rw [heng]; rfl
    have voice : w'.voice slot = w.voice slot := congrFun same.occupant slot
    unfold Watch.tenure
    dsimp only
    rw [turn', leases, voice, hist.block, hist.began, hist.played, hist.heard]
  rw [next]
  exact .next (by simp [Watch.tenure, Engine.turn, phase])

omit [Sample α] in
/-- A thread processes the instance of its task. -/
theorem processes (I : WatchInv orderly hears w) (H : HostInv w.host)
    (B : orderly → BlockInv w.eng) {t slot : Nat} (hist : w'.Follows (w.plays [slot]))
    (same : w.SameVoices w'.host) (thread : w.eng.pool.threads t = .running slot .process)
    (ht : w'.eng.tables = w.eng.tables) (leases : w'.eng.leases = w.eng.leases)
    (phase : w'.eng.phase = w.eng.phase)
    (processed : w'.eng.pool.processed = w.eng.pool.processed ++ [slot]) :
    WatchInv orderly hears w' := by
  have S := H.runtime.engine.slots
  have played : ∀ k, w'.played k = w.played k ++ if w.voice slot = k then [w.block] else [] := by
    intro k
    rw [hist.played]
    by_cases here : w.voice slot = k <;> simp [Watch.plays, here]
  -- in an orderly block the task is an active slot's that has not been processed
  have first : orderly → w.eng.inBlock = true ∧ slot ∈ w.eng.activeList ∧
      slot ∉ w.eng.pool.processed := fun holds => by
    have hin : w.eng.inBlock = true := by
      by_contra out
      exact ((B holds).quiet (by simpa using out)).2 t slot _ thread
    obtain ⟨act, run⟩ := (B holds).running hin thread
    exact ⟨hin, act, fun hp => run.mp hp⟩
  refine I.turns S H.voices same.spawned same.occupant hist.lives hist.ends
    (congrArg Tables.activeList ht) (congrArg (fun T => activations T.commands) ht)
    (fun s _ => congrArg Lease.life (congrFun leases s)) (fun hd _ => congrFun leases _)
    (fun s act => ?_) fun k off => ⟨by rw [hist.began]; rfl, by rw [hist.heard]; rfl,
      fun holds => by rw [played, if_neg (off slot (first holds).2.1), List.append_nil]⟩
  have goes : ∀ {turn}, w'.eng.turn s = turn → w'.tenure s
      = { w.tenure s with
          turn := turn
          played := w.played (w.voice s) ++ if w.voice slot = w.voice s then [w.block] else [] } :=
    fun turn => tenure_eq turn (congrFun leases s) (congrFun same.occupant s) hist.block
      (by rw [hist.began]; rfl) (played _) (by rw [hist.heard]; rfl)
  by_cases inside : s = slot ∧ w.eng.inBlock = true
  · obtain ⟨rfl, hin⟩ := inside
    have hin' : w'.eng.inBlock = true := by rw [Engine.inBlock, phase]; exact hin
    have turn' : w'.eng.turn s = .inside true := by
      rw [Engine.turn_of_inBlock hin', processed]
      simp
    rw [goes turn', if_pos rfl]
    exact .inr (.play (Engine.turn_of_inBlock hin s)
      fun holds => decide_eq_false (first holds).2.2)
  · have turn' : w'.eng.turn s = w.eng.turn s := by
      cases hin : w.eng.inBlock with
      | false => exact congrFun (Engine.turn_of_outside phase hin) s
      | true =>
          have hne : s ≠ slot := fun e => inside ⟨e, hin⟩
          have hin' : w'.eng.inBlock = true := by rw [Engine.inBlock, phase]; exact hin
          rw [Engine.turn_of_inBlock hin, Engine.turn_of_inBlock hin', processed]
          simp [hne]
    rw [goes turn']
    by_cases here : w.voice slot = w.voice s
    · refine .inr ?_
      rw [if_pos here]
      refine .stray fun holds => inside ?_
      obtain ⟨hin, act', -⟩ := first holds
      exact ⟨voice_inj S H.voices (.inl act) (.inl act') here.symm, hin⟩
    · rw [if_neg here, List.append_nil]
      exact .inl rfl

/-- A thread goes on with its task. -/
theorem works (I : WatchInv orderly hears w) (H : HostInv w.host)
    (B : orderly → BlockInv w.eng) {t slot : Nat} {pc : TaskPc}
    (hist : w'.Follows (w.observe (.work t) w'.eng)) (same : w.SameVoices w'.host)
    (thread : w.eng.pool.threads t = .running slot pc) (heng : w'.eng = w.eng.work t slot pc) :
    WatchInv orderly hears w' := by
  have ht : w'.eng.tables = w.eng.tables := heng ▸ Engine.tables_work w.eng t slot pc
  have leases : w'.eng.leases = w.eng.leases := heng ▸ Engine.leases_work w.eng t slot pc
  have phase : w'.eng.phase = w.eng.phase := heng ▸ EngineInv.phase_work w.eng t slot pc
  have processed := w.eng.processed_work t slot pc
  rw [← heng] at processed
  have hobs : w.observe (.work t) w'.eng = if pc = .process then w.plays [slot] else w := by
    simp only [Watch.observe, thread]
    cases pc <;> simp
  by_cases plays : pc = .process
  · rw [if_pos plays] at hobs processed
    subst plays
    exact I.processes H B (hobs ▸ hist) same thread ht leases phase processed
  · rw [if_neg plays] at hobs processed
    exact I.still H.runtime.engine.slots H.voices (hobs ▸ hist) same
      (congrArg Tables.activeList ht) (congrArg (fun T => activations T.commands) ht)
      (Engine.turn_congr phase processed) fun s _ => congrFun leases s

/-- A step of the audio thread or a worker. -/
theorem audio (I : WatchInv orderly hears w) (H : HostInv w.host)
    (B : orderly → BlockInv w.eng) {b : EngineAction α} (hist : w'.Follows (w.observe b w'.eng))
    (same : w.SameVoices w'.host) (ha : b.isAudio = true) (he : w.eng.step b = some w'.eng)
    (sound : b = .finish → ∀ slot ∈ w.eng.activeList, ∀ g, (w.eng.mgr.slots slot).inst = some g →
      hears (w.eng.leases slot).life
        (Sample.lt (Engine.terminalPeak g w.eng.parallelNf)
          (w.eng.leases slot).life.silenceThreshold) g) : WatchInv orderly hears w' := by
  have S := H.runtime.engine.slots
  -- the loops of the threads, and the steps of the audio thread between its passes
  have loops : w'.Follows w → w'.eng.tables = w.eng.tables → w'.eng.turn = w.eng.turn →
      w'.eng.leases = w.eng.leases → WatchInv orderly hears w' := fun hist ht turn leases =>
    I.still S H.voices hist same (congrArg Tables.activeList ht)
      (congrArg (fun T => activations T.commands) ht) turn fun slot _ => congrFun leases slot
  have cases := Engine.step_cases he
  generalize heng : w'.eng = e' at cases
  cases cases with
  | reclaim ok => cases ha
  | create ok => cases ha
  | enqueue type => cases ha
  | raiseFinished valid => cases ha
  | begin phase =>
      refine loops hist (by rw [heng]; rfl) ?_ (by rw [heng]; rfl)
      rw [heng]
      funext slot
      simp [Engine.turn, phase]
  | drain phase queue => exact I.drains H hist same phase queue heng
  | compute phase queue => exact I.computes H hist same phase heng
  | @seed slot rest phase =>
      have processed : (w.eng.seedSlot slot rest).pool.processed = w.eng.pool.processed := by
        simp only [Engine.seedSlot]
        split
        · exact (w.eng.pool.pushReady_keeps slot).2.2
        · rfl
      refine loops hist (by rw [heng]; rfl) ?_ (by rw [heng]; rfl)
      rw [heng]
      funext s
      simp only [Engine.turn, phase, processed]
      rfl
  | seeded phase =>
      refine loops hist (by rw [heng]; rfl) ?_ (by rw [heng]; rfl)
      rw [heng]
      funext slot
      simp [Engine.turn, phase]
  | leave phase thread drained => exact I.leaves H B hist same phase drained heng
  | finish phase => exact I.finishes H hist same phase heng (sound rfl)
  | reap phase => exact I.reaps H hist same phase heng
  | writeOut phase => exact I.writes H hist same phase heng
  | poll thread test | popEmpty thread queue | pop thread queue =>
      exact loops hist (by rw [heng]; rfl) (by rw [heng]; rfl) (by rw [heng]; rfl)
  | work thread => exact I.works H B hist same thread heng

end WatchInv

end Xrune
