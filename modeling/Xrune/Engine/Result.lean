import Xrune.Engine.Block
import Xrune.Engine.Local

/-!
# Engine — the result of a block

Whatever the interleaving of the tasks, a block of `compute_parallel` leaves in each active slot
what `compute_sequential` would have left there.  Throughout the block an active slot holds what
it held at the start, if no thread has taken it up; what the finished parts of its task make of
that, the slots that feed it being as the sequential execution leaves them, if a thread is at
it; and what the sequential execution leaves in it, if its task has run (`SlotResult`).  The sum
to the master reads the active slots only, so it is the same too.
-/

namespace Xrune

variable {α : Type} [Sample α]

/-- What a thread at this place in the task of `v` has behind it. -/
inductive Engine.TaskDone (e : Engine α) (v : Nat) : TaskPc → (Slots α → Slots α) → Prop
  | zero : TaskDone e v .zero fun s => s
  | gather {done rest : List ActiveRoute} (routes : e.routes = done ++ rest) :
      TaskDone e v (.gather rest) (e.gathered v done)
  | process : TaskDone e v .process (e.gathered v e.routes)

theorem Engine.TaskDone.local {e : Engine α} {v : Nat} {pc : TaskPc} {f : Slots α → Slots α}
    (h : e.TaskDone v pc f) : Local v (e.feeders v) f := by
  cases h with
  | zero => exact .id
  | gather routes => exact e.local_gathered v fun r hr => routes ▸ List.mem_append_left _ hr
  | process => exact e.local_gathered v fun r hr => hr

/-- How far the slot `v` of the block that began at `e₀` has come; the sequential execution
leaves `M`. -/
structure SlotResult (e₀ : Engine α) (M : Slots α) (e : Engine α) (v : Nat) : Prop where
  waiting : v ∉ e.pool.processed → (∀ t pc, e.pool.threads t ≠ .running v pc) →
    e.mgr.slots v = e₀.mgr.slots v
  running : ∀ t pc, e.pool.threads t = .running v pc → v ∉ e.pool.processed →
    ∃ f, e₀.TaskDone v pc f ∧
      e.mgr.slots v = f (Function.update M v (e₀.mgr.slots v)) v
  processed : v ∈ e.pool.processed → e.mgr.slots v = M v

theorem SlotResult.congr {e₀ e e' : Engine α} {M : Slots α} {v : Nat} (R : SlotResult e₀ M e v)
    (threads : ∀ t pc, e'.pool.threads t = .running v pc ↔ e.pool.threads t = .running v pc)
    (processed : v ∈ e'.pool.processed ↔ v ∈ e.pool.processed)
    (slots : e'.mgr.slots v = e.mgr.slots v) : SlotResult e₀ M e' v where
  waiting hp ht := by
    rw [slots]
    exact R.waiting (fun h => hp (processed.mpr h)) fun t pc h => ht t pc ((threads t pc).mpr h)
  running t pc ht hp := by
    rw [slots]
    exact R.running t pc ((threads t pc).mp ht) fun h => hp (processed.mpr h)
  processed hp := by
    rw [slots]
    exact R.processed (processed.mp hp)

/-- A thread that changes its state without executing `v` before or after is no matter to `v`. -/
theorem running_update_iff {threads : Nat → ThreadState} {t v : Nat} {s : ThreadState}
    (old : ∀ pc, threads t ≠ .running v pc) (new : ∀ pc, s ≠ .running v pc) (t' : Nat)
    (pc : TaskPc) :
    Function.update threads t s t' = .running v pc ↔ threads t' = .running v pc := by
  by_cases ht : t' = t
  · subst ht
    rw [Function.update_self]
    exact iff_of_false (new pc) (old pc)
  · rw [Function.update_of_ne ht]

/-- The block that began at `e₀` is at `e`. -/
structure BlockResult (e₀ : Engine α) (M : Slots α) (e : Engine α) : Prop where
  block : e₀.SameBlock e
  slots : ∀ v ∈ e₀.activeList, SlotResult e₀ M e v
  left : e.inBlock = false → ∀ v ∈ e₀.activeList, v ∈ e.pool.processed

namespace Engine

variable {e e' : Engine α}

/-- What a step leaves of a block: the graph, the number of frames and the master. -/
theorem sameBlock_work (e : Engine α) (t slot : Nat) (pc : TaskPc) :
    e.SameBlock (e.work t slot pc) := by
  have G : e.SameGraph (e.work t slot pc) := .of_tables (tables_work e t slot pc)
  cases pc with
  | zero | process | push | finish => exact ⟨G, rfl, rfl, rfl⟩
  | gather rest =>
      cases rest with
      | nil => exact ⟨G, rfl, rfl, rfl⟩
      | cons r rest =>
          have H : e.SameBlock (e.gatherRoute slot r) := by
            rw [e.gatherRoute_eq slot r]
            exact .withSlots e _
          exact ⟨G, H.parallelNf, H.outputChannels, H.masterBuffers⟩
  | release rest =>
      cases rest with
      | nil => exact ⟨G, rfl, rfl, rfl⟩
      | cons r rest =>
          refine ⟨G, ?_, ?_, ?_⟩ <;>
          · simp only [work, releaseRoute]
            split <;> rfl

/-- The steps of a task write the slot it is the task of. -/
theorem slots_work_ne (e : Engine α) (t : Nat) {slot u : Nat} (pc : TaskPc) (hu : u ≠ slot) :
    (e.work t slot pc).mgr.slots u = e.mgr.slots u := by
  cases pc with
  | zero => exact (e.local_zeroInputs slot).frame e.mgr.slots u hu
  | process => exact (e.local_processSlot slot).frame e.mgr.slots u hu
  | push | finish => rfl
  | gather rest =>
      cases rest with
      | nil => rfl
      | cons r rest => exact e.slots_gatherRoute_ne slot r hu
  | release rest =>
      cases rest with
      | nil => rfl
      | cons r rest =>
          simp only [work, releaseRoute]
          split <;> rfl

/-- A step of a task moves its thread within the task or out of it. -/
theorem threads_work (e : Engine α) (t slot : Nat) (pc : TaskPc) :
    ∃ s, (e.work t slot pc).pool.threads = Function.update e.pool.threads t s ∧
      ∀ u pc', s = .running u pc' → u = slot := by
  have run : ∀ {pc₁ : TaskPc} (u : Nat) (pc' : TaskPc),
      ThreadState.running slot pc₁ = .running u pc' → u = slot := by
    intro pc₁ u pc' h
    exact (ThreadState.running.inj h).1.symm
  cases pc with
  | zero => exact ⟨.running slot (.gather e.routes), rfl, run⟩
  | process => exact ⟨.running slot (.release e.routes), rfl, run⟩
  | finish => exact ⟨.idle, rfl, fun u pc' h => by cases h⟩
  | gather rest =>
      cases rest with
      | nil => exact ⟨.running slot .process, rfl, run⟩
      | cons r rest =>
          refine ⟨.running slot (.gather rest), ?_, run⟩
          simp only [work, moveTo, pool_gatherRoute]
  | push dst rest =>
      refine ⟨.running slot (.release rest), ?_, run⟩
      simp only [work, moveTo, WorkerPool.pushReady]
      split <;> rfl
  | release rest =>
      cases rest with
      | nil => exact ⟨.running slot .finish, rfl, run⟩
      | cons r rest =>
          simp only [work, releaseRoute]
          split
          · exact ⟨.running slot (.release rest), rfl, run⟩
          · refine ⟨_, rfl, fun u pc' h => ?_⟩
            exact (ThreadState.running.inj h).1.symm

theorem workers_work (e : Engine α) (t slot : Nat) (pc : TaskPc) :
    (e.work t slot pc).pool.workers = e.pool.workers := by
  cases pc with
  | zero | process | finish => rfl
  | push dst rest =>
      simp only [work, moveTo, WorkerPool.pushReady]
      split <;> rfl
  | gather rest =>
      cases rest with
      | nil => rfl
      | cons r rest => simp only [work, moveTo, pool_gatherRoute]
  | release rest =>
      cases rest with
      | nil => rfl
      | cons r rest =>
          simp only [work, releaseRoute]
          split <;> rfl

theorem mem_processed_work (e : Engine α) (t : Nat) {slot u : Nat} (pc : TaskPc) (hu : u ≠ slot) :
    u ∈ (e.work t slot pc).pool.processed ↔ u ∈ e.pool.processed := by
  cases pc with
  | zero | finish => rfl
  | process => simp [work, moveTo, hu]
  | push dst rest =>
      simp only [work, moveTo, WorkerPool.pushReady]
      split <;> rfl
  | gather rest =>
      cases rest with
      | nil => rfl
      | cons r rest => simp only [work, moveTo, pool_gatherRoute]
  | release rest =>
      cases rest with
      | nil => rfl
      | cons r rest =>
          simp only [work, releaseRoute]
          split <;> rfl

omit [Sample α] in
/-- `reclaim` writes a slot that is not active. -/
theorem slots_reclaimOne (S : SlotInv e.tables) {v : VoiceEnd} (h : e.reclaimOne = some (v, e'))
    {u : Nat} (hu : u ∈ e.activeList) : e'.mgr.slots u = e.mgr.slots u := by
  obtain ⟨ev, rest, hended, -, -⟩ := tables_reclaimOne h
  have hev : ev.slot ∉ e.activeList := (S.not_active_of_ended (hended ▸ List.mem_cons_self)).1
  have hne : u ≠ ev.slot := fun h => hev (h ▸ hu)
  have hq : e.telemetryQueue = ev :: rest := hended
  simp only [reclaimOne, hq, Option.some.injEq, Prod.mk.injEq] at h
  obtain ⟨-, rfl⟩ := h
  simp only [InstanceManager.recycle]
  split
  · rfl
  · exact Function.update_of_ne hne _ _

/-- `create` writes a slot that is not active. -/
theorem slots_create (S : SlotInv e.tables) {sched : CompiledSchedule α}
    {life : LifetimePolicy α} {init : List (InitialParam α)} {h : InstanceHandle}
    (hc : e.create sched life init = some (h, e')) {u : Nat} (hu : u ∈ e.activeList) :
    e'.mgr.slots u = e.mgr.slots u := by
  obtain ⟨idx, rest, hfree, rfl, -⟩ := tables_create hc
  have hidx : idx ∉ e.activeList := S.not_active_of_free (hfree ▸ List.mem_cons_self)
  have hne : u ≠ idx := fun h => hidx (h ▸ hu)
  have hfree : e.mgr.freeSlots = idx :: rest := hfree
  unfold create InstanceManager.create at hc
  rw [hfree] at hc
  cases hi : instantiate sched e.sampleRate with
  | none =>
      rw [hi] at hc
      cases hc
  | some inst =>
      rw [hi] at hc
      obtain ⟨-, rfl⟩ := Prod.mk.inj (Option.some.inj hc)
      exact (Function.update_of_ne hne _ _).trans (Function.update_of_ne hne _ _)

end Engine

/-! ### The steps of a block -/

namespace BlockResult

variable {e₀ e e' : Engine α} {M : Slots α}

/-- Where the block began. -/
theorem start (e : Engine α) (M : Slots α)
    (quiet : ∀ t slot pc, e.pool.threads t ≠ .running slot pc) :
    BlockResult e M e.beginParallel where
  block := ⟨⟨rfl, rfl, rfl, rfl⟩, rfl, rfl, rfl⟩
  slots v _ :=
    { waiting := fun _ _ => rfl
      running := fun t pc h => absurd h (quiet t v pc)
      processed := fun h => absurd h List.not_mem_nil }
  left h := by cases h

/-- The slots, what threads execute and what they have executed are the same. -/
theorem congr (R : BlockResult e₀ M e) (H : e.SameBlock e')
    (threads : ∀ t slot pc,
      e'.pool.threads t = .running slot pc ↔ e.pool.threads t = .running slot pc)
    (processed : e'.pool.processed = e.pool.processed)
    (slots : ∀ v ∈ e₀.activeList, e'.mgr.slots v = e.mgr.slots v)
    (left : e'.inBlock = false → ∀ v ∈ e₀.activeList, v ∈ e.pool.processed) :
    BlockResult e₀ M e' where
  block := R.block.trans H
  slots v hv := (R.slots v hv).congr (fun t pc => threads t v pc) (by rw [processed]) (slots v hv)
  left h := by
    rw [processed]
    exact left h

/-- A thread that executes no task before or after changes its state. -/
theorem loops (R : BlockResult e₀ M e) (hin : e.inBlock = true) {t : Nat} {s : ThreadState}
    (old : ∀ slot pc, e.pool.threads t ≠ .running slot pc) (new : ∀ slot pc, s ≠ .running slot pc) :
    BlockResult e₀ M (e.moveTo t s) :=
  R.congr ⟨⟨rfl, rfl, rfl, rfl⟩, rfl, rfl, rfl⟩
    (fun t' slot pc => running_update_iff (old slot) (new slot) t' pc) rfl (fun _ _ => rfl)
    fun h => by
      rw [Engine.inBlock] at hin h
      exact absurd (hin.symm.trans h) (by simp)

/-- A thread takes up a slot from the queue: as it began. -/
theorem pops (R : BlockResult e₀ M e) (B : BlockInv e) (hin : e.inBlock = true) {t slot : Nat}
    {q : List Nat} (thread : e.pool.threads t = .polling) (queue : e.pool.queue = slot :: q) :
    BlockResult e₀ M
      ({ e with pool := { e.pool with queue := q } }.moveTo t (.running slot .zero)) where
  block := R.block.trans ⟨⟨rfl, rfl, rfl, rfl⟩, rfl, rfl, rfl⟩
  left h := by
    rw [Engine.inBlock] at hin h
    exact absurd (hin.symm.trans h) (by simp)
  slots v hv := by
    by_cases hslot : v = slot
    · subst hslot
      obtain ⟨-, hnot, hnone⟩ := B.queued hin (queue ▸ List.mem_cons_self)
      exact
        { waiting := fun _ hn => absurd (Function.update_self t _ _) (hn t .zero)
          running := fun t' pc ht _ => by
            have hpc : pc = .zero := by
              by_cases htt : t' = t
              · subst htt
                exact (ThreadState.running.inj ((Function.update_self t' _ _).symm.trans ht)).2.symm
              · exact absurd ((Function.update_of_ne htt _ _).symm.trans ht) (hnone t' pc)
            subst hpc
            refine ⟨_, .zero, ?_⟩
            rw [Function.update_self]
            exact (R.slots v hv).waiting hnot hnone
          processed := fun h => absurd h hnot }
    · exact (R.slots v hv).congr (running_update_iff (by simp [thread])
        (fun pc h => hslot (ThreadState.running.inj h).1.symm)) Iff.rfl rfl

/-- The next part of a task finds the slots it reads as the sequential execution leaves them. -/
theorem part (R : BlockResult e₀ M e) (B : BlockInv e) (S : SlotInv e.tables)
    (hin : e.inBlock = true) {t slot : Nat} {pc : TaskPc}
    (thread : e.pool.threads t = .running slot pc) (hnot : slot ∉ e.pool.processed)
    {g : Slots α → Slots α} (hg : Local slot (e₀.feeders slot) g) :
    ∃ f, e₀.TaskDone slot pc f ∧
      g e.mgr.slots slot = g (f (Function.update M slot (e₀.mgr.slots slot))) slot := by
  have hslot : slot ∈ e₀.activeList := R.block.activeList ▸ (B.running hin thread).1
  obtain ⟨f, hf, sofar⟩ := (R.slots slot hslot).running t pc thread hnot
  refine ⟨f, hf, hg.advance hf.local sofar fun u hu _ => ?_⟩
  have hedge : (u, slot) ∈ e.edges := by
    rw [R.block.toSameGraph.edges]
    exact hu
  have hup := B.preds_processed S hin thread hedge
  exact (R.slots u (R.block.activeList ▸ (B.executed hin).2.1 u hup)).processed hup

/-- The thread executing `slot` goes on to `pc'` with the part `g` of its task done. -/
theorem advances (R : BlockResult e₀ M e) (B : BlockInv e) (S : SlotInv e.tables)
    (hin : e.inBlock = true) {t slot : Nat} {pc pc' : TaskPc}
    (thread : e.pool.threads t = .running slot pc) (hnot : slot ∉ e.pool.processed)
    (thread' : e'.pool.threads = Function.update e.pool.threads t (.running slot pc'))
    (processed : e'.pool.processed = e.pool.processed) {g : Slots α → Slots α}
    (hg : Local slot (e₀.feeders slot) g) (slots : e'.mgr.slots = g e.mgr.slots)
    (next : ∀ f, e₀.TaskDone slot pc f → e₀.TaskDone slot pc' fun s => g (f s)) :
    SlotResult e₀ M e' slot where
  waiting _ hn := by
    refine absurd ?_ (hn t pc')
    rw [thread', Function.update_self]
  running t' pc₁ ht' _ := by
    have htt : t' = t := by
      by_contra hne
      rw [thread', Function.update_of_ne hne] at ht'
      exact hne (B.running_inj hin ht' thread)
    rw [thread', htt, Function.update_self] at ht'
    obtain ⟨-, rfl⟩ := ThreadState.running.inj ht'
    obtain ⟨f, hf, hpart⟩ := R.part B S hin thread hnot hg
    exact ⟨_, next f hf, slots ▸ hpart⟩
  processed h := by
    rw [processed] at h
    exact absurd h hnot

/-- Where its task's body has run a slot is as the sequential execution leaves it. -/
theorem hasRun {v : Nat} (processed : v ∈ e'.pool.processed) (slots : e'.mgr.slots v = M v) :
    SlotResult e₀ M e' v where
  waiting h := absurd processed h
  running _ _ _ h := absurd processed h
  processed _ := slots

/-- **A step of a task.** -/
theorem works (R : BlockResult e₀ M e) (B : BlockInv e) (S : SlotInv e.tables)
    (hin : e.inBlock = true)
    (settled : ∀ v ∈ e₀.activeList, M v = e₀.onSlots (Engine.executeSlot · v)
      (Function.update M v (e₀.mgr.slots v)) v)
    {t slot : Nat} {pc : TaskPc} (thread : e.pool.threads t = .running slot pc) :
    BlockResult e₀ M (e.work t slot pc) where
  block := R.block.trans (e.sameBlock_work t slot pc)
  left h := by
    rw [Engine.inBlock, EngineInv.phase_work] at h
    rw [Engine.inBlock] at hin
    exact absurd (hin.symm.trans h) (by simp)
  slots v hv := by
    obtain ⟨hactive, hrun⟩ := B.running hin thread
    by_cases hslot : v = slot
    · subst hslot
      cases pc with
      | zero =>
          refine R.advances B S hin thread (fun h => hrun.mp h) rfl rfl (e₀.local_zeroInputs v)
            (R.block.zeroInputs v) fun f hf => ?_
          cases hf
          rw [R.block.routes]
          have h : e₀.TaskDone v (.gather e₀.routes) (e₀.gathered v []) := .gather rfl
          exact h
      | gather rest =>
          cases rest with
          | nil =>
              refine R.advances B S hin thread (fun h => hrun.mp h) rfl rfl .id rfl fun f hf => ?_
              cases hf with
              | @gather done _ routes =>
                  rw [List.append_nil] at routes
                  exact routes ▸ .process
          | cons r rest =>
              have hthreads : (e.work t v (.gather (r :: rest))).pool
                  = (e.moveTo t (.running v (.gather rest))).pool := by
                simp only [Engine.work, Engine.moveTo, Engine.pool_gatherRoute]
              obtain ⟨f, hf, -⟩ := R.part B S hin thread (fun h => hrun.mp h) .id
              obtain ⟨done, hroutes⟩ : ∃ done, e₀.routes = done ++ r :: rest := by
                cases hf with
                | gather routes => exact ⟨_, routes⟩
              have hr : r ∈ e₀.routes := hroutes ▸ by simp
              refine R.advances B S hin thread (fun h => hrun.mp h)
                (congrArg WorkerPool.threads hthreads) ((congrArg WorkerPool.processed hthreads).trans rfl)
                (e₀.local_gatherRoute v hr) (R.block.gatherRoute v r) fun f hf => ?_
              cases hf with
              | @gather done _ routes =>
                  have hgathered : (fun s => e₀.onSlots (Engine.gatherRoute · v r)
                      (e₀.gathered v done s)) = e₀.gathered v (done ++ [r]) := by
                    funext s
                    simp only [Engine.gathered, List.foldl_append, List.foldl_cons, List.foldl_nil]
                  rw [hgathered]
                  exact .gather (by simpa using routes)
      | process =>
          refine hasRun (List.mem_append_right _ (List.mem_singleton.mpr rfl)) ?_
          obtain ⟨f, hf, hpart⟩ := R.part B S hin thread (fun h => hrun.mp h)
            (e₀.local_processSlot v)
          cases hf
          rw [settled v hv, Engine.onSlots_executeSlot]
          exact (congrFun (R.block.processSlot v) v).trans hpart
      | release rest =>
          have hp := hrun.mpr trivial
          refine hasRun ?_ (Eq.trans ?_ ((R.slots v hv).processed hp))
          all_goals
            cases rest with
            | nil => first | exact hp | rfl
            | cons r rest =>
                simp only [Engine.work, Engine.releaseRoute]
                split <;> first | exact hp | rfl
      | push dst rest =>
          have hp := hrun.mpr trivial
          refine hasRun ?_ ((R.slots v hv).processed hp)
          simp only [Engine.work, Engine.moveTo, WorkerPool.pushReady]
          split <;> exact hp
      | finish =>
          have hp := hrun.mpr trivial
          exact hasRun hp ((R.slots v hv).processed hp)
    · -- another slot's thread, mark and contents are untouched
      obtain ⟨s, hs, hnew⟩ := e.threads_work t slot pc
      refine (R.slots v hv).congr (fun t' pc' => ?_) (e.mem_processed_work t pc hslot)
        (e.slots_work_ne t pc hslot)
      rw [hs]
      exact running_update_iff (fun pc' h => hslot (ThreadState.running.inj (h.symm.trans thread)).1)
        (fun pc' h => hslot (hnew v pc' h)) t' pc'

/-- **A step of a block, of any thread**, leaves the block where it has come to. -/
theorem step (R : BlockResult e₀ M e) (B : BlockInv e) (S : SlotInv e.tables)
    (hin : e.inBlock = true)
    (settled : ∀ v ∈ e₀.activeList, M v = e₀.onSlots (Engine.executeSlot · v)
      (Function.update M v (e₀.mgr.slots v)) v)
    {a : EngineAction α} (ha : ∀ h, a ≠ .raiseFinished h) (one : e.step a = some e') :
    BlockResult e₀ M e' := by
  have active : ∀ v ∈ e₀.activeList, v ∈ e.activeList := fun v hv => R.block.activeList ▸ hv
  have same : e'.phase = e.phase → e'.inBlock = false → ∀ v ∈ e₀.activeList,
      v ∈ e.pool.processed := by
    intro hphase h
    rw [Engine.inBlock, hphase] at h
    exact absurd (hin.symm.trans h) (by simp)
  have out : ∀ {p : AudioPhase}, e.phase = p → (∀ rest, p ≠ .seeding rest) → p ≠ .helping →
      BlockResult e₀ M e' := by
    intro p hp h₁ h₂
    exact absurd (hin.symm.trans (e.inBlock_eq_false hp h₁ h₂)) (by simp)
  cases Engine.step_cases one with
  | reclaim ok =>
      obtain ⟨G, hphase, hpool⟩ := Engine.reclaimOne_keeps ok
      have H : e.SameBlock e' := by
        obtain ⟨ev, rest, hq, -, -⟩ := Engine.tables_reclaimOne ok
        have hq : e.telemetryQueue = ev :: rest := hq
        simp only [Engine.reclaimOne, hq, Option.some.injEq, Prod.mk.injEq] at ok
        obtain ⟨-, rfl⟩ := ok
        exact ⟨G, rfl, rfl, rfl⟩
      exact R.congr H (by simp [hpool]) (by rw [hpool])
        (fun v hv => Engine.slots_reclaimOne S ok (active v hv)) (same hphase)
  | create ok =>
      obtain ⟨G, hphase, hpool⟩ := Engine.create_keeps ok
      have H : e.SameBlock e' := by
        unfold Engine.create at ok
        split at ok
        · cases ok
        · obtain ⟨-, rfl⟩ := Prod.mk.inj (Option.some.inj ok)
          exact ⟨G, rfl, rfl, rfl⟩
      exact R.congr H (by simp [hpool]) (by rw [hpool])
        (fun v hv => Engine.slots_create S ok (active v hv)) (same hphase)
  | enqueue type =>
      exact R.congr ⟨⟨rfl, rfl, rfl, rfl⟩, rfl, rfl, rfl⟩ (fun _ _ _ => Iff.rfl) rfl
        (fun _ _ => rfl) (same rfl)
  | @raiseFinished h valid => exact absurd rfl (ha h)
  | begin phase => exact out phase (by simp) (by simp)
  | drain phase queue => exact out phase (by simp) (by simp)
  | compute phase queue => exact out phase (by simp) (by simp)
  | finish phase => exact out phase (by simp) (by simp)
  | reap phase => exact out phase (by simp) (by simp)
  | writeOut phase => exact out phase (by simp) (by simp)
  | @seed slot rest phase =>
      refine R.congr ⟨⟨rfl, rfl, rfl, rfl⟩, rfl, rfl, rfl⟩ (fun t v pc => ?_) ?_ (fun _ _ => rfl)
        fun h => (by cases h)
      · simp only [Engine.seedSlot, WorkerPool.pushReady]
        split
        · split <;> rfl
        · rfl
      · simp only [Engine.seedSlot, WorkerPool.pushReady]
        split
        · split <;> rfl
        · rfl
  | seeded phase =>
      exact R.congr ⟨⟨rfl, rfl, rfl, rfl⟩, rfl, rfl, rfl⟩ (fun _ _ _ => Iff.rfl) rfl
        (fun _ _ => rfl) fun h => (by cases h)
  | leave phase thread drained =>
      refine R.congr ⟨⟨rfl, rfl, rfl, rfl⟩, rfl, rfl, rfl⟩ (fun _ _ _ => Iff.rfl) rfl
        (fun _ _ => rfl) fun _ v hv => ?_
      obtain ⟨-, -, hnonneg, hall⟩ := B.executed hin
      exact hall (le_antisymm drained hnonneg) v (active v hv)
  | @poll t thread test => exact R.loops hin (by simp [thread]) (by simp)
  | @popEmpty t thread queue => exact R.loops hin (by simp [thread]) (by simp)
  | pop thread queue => exact R.pops B hin thread queue
  | work thread => exact R.works B S hin settled thread

end BlockResult

/-! ### The sum to the master -/

namespace Engine

variable {e e' : Engine α}

/-- The slots that the sum to the master reads are the same. -/
structure SameMix (e e' : Engine α) : Prop extends SameBlock e e' where
  slots : ∀ u ∈ e.activeList, e'.mgr.slots u = e.mgr.slots u

theorem SameMix.readAt (H : e.SameMix e') {u : Nat} (hu : u ∈ e.activeList) (v : BufferView)
    (i : Nat) : e'.mgr.readAt u v i = e.mgr.readAt u v i :=
  InstanceManager.Alike.readAt ⟨H.capacity, H.slots⟩ hu v i

theorem SameMix.addToMaster (H : e.SameMix e') {src : Nat} (hsrc : src ∈ e.activeList)
    (sv : BufferView) (c i : Nat) :
    (e.addToMaster src sv c i).SameMix (e'.addToMaster src sv c i) where
  capacity := H.capacity
  activeGen := H.activeGen
  activeList := H.activeList
  routes := H.routes
  parallelNf := H.parallelNf
  outputChannels := H.outputChannels
  masterBuffers := by simp only [Engine.addToMaster, H.masterBuffers, H.readAt hsrc]
  slots := H.slots

/-- Of the graph a sum to the master changes nothing. -/
theorem sameGraph_sumTerminalToMaster (e : Engine α) (src srcT : Nat) :
    e.SameGraph (e.sumTerminalToMaster src srcT) :=
  .of_tables (tables_sumTerminalToMaster e src srcT)

theorem SameMix.sumTerminalToMaster (H : e.SameMix e') {src : Nat} (hsrc : src ∈ e.activeList)
    (srcT : Nat) : (e.sumTerminalToMaster src srcT).SameMix (e'.sumTerminalToMaster src srcT) := by
  have hg : e'.mgr.instanceAt src = e.mgr.instanceAt src :=
    InstanceManager.Alike.instanceAt ⟨H.capacity, H.slots⟩ hsrc
  unfold Engine.sumTerminalToMaster
  rw [hg, H.outputChannels]
  split
  · exact H
  · refine (List.foldl_rel (r := fun a b : Engine α => a.SameMix b ∧ src ∈ a.activeList)
      ⟨H, hsrc⟩ fun c _ a b hab => ?_).1
    rw [hab.1.parallelNf]
    exact List.foldl_rel (r := fun a b : Engine α => a.SameMix b ∧ src ∈ a.activeList) hab
      fun i _ a b hab => ⟨hab.1.addToMaster hab.2 _ c i, hab.2⟩

/-- The sum to the master reads the active slots only. -/
theorem SameMix.sumToMaster (H : e.SameMix e') (S : SlotInv e.tables) :
    e.sumToMaster.SameMix e'.sumToMaster := by
  have hroutes : e'.routes = e.routes := H.routes
  unfold Engine.sumToMaster
  rw [hroutes]
  refine (List.foldl_rel (r := fun a b : Engine α => a.SameMix b ∧ e.SameGraph a)
    ⟨H, ⟨rfl, rfl, rfl, rfl⟩⟩ fun r hr a b hab => ?_).1
  rw [hab.1.routeLive]
  split
  · exact hab
  · have hsrc : r.srcSlot ∈ a.activeList := by
      rw [hab.2.activeList]
      exact (S.routes r hr).1.1
    refine ⟨hab.1.sumTerminalToMaster hsrc _, ?_⟩
    have G := a.sameGraph_sumTerminalToMaster r.srcSlot r.srcTerminal
    exact ⟨G.capacity.trans hab.2.capacity, G.activeGen.trans hab.2.activeGen,
      G.activeList.trans hab.2.activeList, G.routes.trans hab.2.routes⟩

end Engine

/-! ### The block and the sequential execution -/

/-- **At the end of a block** every active slot, and the sum to the master, are as
`compute_sequential` would have left them. -/
theorem BlockResult.result {e₀ e : Engine α} (S : SlotInv e₀.tables)
    (R : BlockResult e₀ e₀.computeSequential.mgr.slots e) (hout : e.inBlock = false) :
    (∀ v ∈ e₀.activeList, e.mgr.slots v = e₀.computeSequential.mgr.slots v) ∧
      e.sumToMaster.masterBuffers = e₀.computeSequential.sumToMaster.masterBuffers := by
  have slots : ∀ v ∈ e₀.activeList, e.mgr.slots v = e₀.computeSequential.mgr.slots v :=
    fun v hv => (R.slots v hv).processed (R.left hout v hv)
  have HS : e₀.SameBlock e₀.computeSequential := by
    rw [e₀.computeSequential_eq]
    exact ⟨⟨rfl, rfl, rfl, rfl⟩, rfl, rfl, rfl⟩
  have SS : SlotInv e₀.computeSequential.tables := by
    rw [Engine.tables_computeSequential]
    exact S
  have H : e₀.computeSequential.SameMix e :=
    { capacity := R.block.capacity.trans HS.capacity.symm
      activeGen := R.block.activeGen.trans HS.activeGen.symm
      activeList := R.block.activeList.trans HS.activeList.symm
      routes := R.block.routes.trans HS.routes.symm
      parallelNf := R.block.parallelNf.trans HS.parallelNf.symm
      outputChannels := R.block.outputChannels.trans HS.outputChannels.symm
      masterBuffers := R.block.masterBuffers.trans HS.masterBuffers.symm
      slots := fun u hu => slots u (HS.activeList ▸ hu) }
  exact ⟨slots, (H.sumToMaster SS).masterBuffers⟩

end Xrune
