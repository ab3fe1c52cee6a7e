import Xrune.Runtime.Voices
import Xrune.Engine.Vectors
import Xrune.Schedule.Controls

/-!
# Runtime — leases

What the audio thread leaves of a slot between the lifetime checks: the policy its voice was
spawned with, the counters of `should_reap`, and of the instance its schedule and the length of
its control table.  `create` sets them, the lifetime checks advance the counters of the active
slots (`finishBlock_slots`), `reclaim` takes the instance of a slot that ended, and no other step
changes them (`leases_of_audio`).
-/

namespace Xrune

variable {α : Type}

namespace GraphInstance

/-- What the operations on an instance leave: its schedule, and the length of its controls. -/
def frame (g : GraphInstance α) : CompiledSchedule α × Nat := (g.sched, g.controls.length)

section Frame

variable [Sample α]

omit [Sample α] in
theorem frame_writeControl (g : GraphInstance α) (node param : Nat)
    (f : Node α → PortControl α → PortControl α) : (g.writeControl node param f).frame = g.frame :=
  Prod.ext (writeControl_keeps g node param f).1 (writeControl_keeps g node param f).2

@[simp] theorem frame_initParameter (g : GraphInstance α) (node param : Nat) (x : α) :
    (g.initParameter node param x).frame = g.frame :=
  frame_writeControl g node param _

@[simp] theorem frame_setParameter (g : GraphInstance α) (node param : Nat) (x : α) :
    (g.setParameter node param x).frame = g.frame :=
  frame_writeControl g node param _

@[simp] theorem frame_process (g : GraphInstance α) : g.process.frame = g.frame :=
  Prod.ext (process_sched g) (process_length g)

omit [Sample α] in
@[simp] theorem frame_write (g : GraphInstance α) (v : BufferView) (i : Nat) (x : α) :
    (g.write v i x).frame = g.frame := by
  cases v <;> rfl

end Frame

end GraphInstance

/-- What a voice holds of its slot. -/
structure Lease (α : Type) where
  life : LifetimePolicy α
  ageBlocks : Nat
  silentRun : Nat
  frame : Option (CompiledSchedule α × Nat)

def InstanceSlot.lease (s : InstanceSlot α) : Lease α :=
  ⟨s.life, s.ageBlocks, s.silentRun, s.inst.map GraphInstance.frame⟩

namespace InstanceManager

def leases (m : InstanceManager α) (slot : Nat) : Lease α := (m.slots slot).lease

theorem leases_modifyInst (m : InstanceManager α) (slot : Nat)
    {f : GraphInstance α → GraphInstance α} (keeps : ∀ g, (f g).frame = g.frame) :
    (m.modifyInst slot f).leases = m.leases := by
  have frames : ∀ o : Option (GraphInstance α),
      (o.map f).map GraphInstance.frame = o.map GraphInstance.frame := by
    intro o
    cases o with
    | none => rfl
    | some g => exact congrArg some (keeps g)
  funext s
  by_cases hs : s = slot
  · subst hs
    simp only [leases, modifyInst, Function.update_self, InstanceSlot.lease]
    rw [frames]
  · simp only [leases, modifyInst, Function.update_of_ne hs]

variable [Sample α]

theorem leases_zeroInputTerminals (m : InstanceManager α) (slot nf : Nat) :
    (m.zeroInputTerminals slot nf).leases = m.leases :=
  leases_modifyInst m slot fun g =>
    foldl_keeps GraphInstance.frame (fun g _ => foldl_keeps GraphInstance.frame (fun g _ =>
      foldl_keeps GraphInstance.frame (fun g _ => g.frame_write _ _ _) _ g) _ g) _ g

theorem leases_sumTerminalToInstance (m : InstanceManager α) (src srcT dst dstT nf : Nat) :
    (m.sumTerminalToInstance src srcT dst dstT nf).leases = m.leases := by
  unfold sumTerminalToInstance
  split
  · exact foldl_keeps leases (fun m _ => foldl_keeps leases (fun m _ =>
      leases_modifyInst m dst fun g => g.frame_write _ _ _) _ m) _ m
  · rfl

end InstanceManager

namespace Engine

def leases (e : Engine α) : Nat → Lease α := e.mgr.leases

section Steps

variable [Sample α] {e e' : Engine α} {a : EngineAction α}

theorem leases_gatherRoute (e : Engine α) (slot : Nat) (r : ActiveRoute) :
    (e.gatherRoute slot r).leases = e.leases := by
  unfold gatherRoute
  split
  · rfl
  · exact InstanceManager.leases_sumTerminalToInstance ..

theorem leases_zeroInputs (e : Engine α) (slot : Nat) : (e.zeroInputs slot).leases = e.leases :=
  InstanceManager.leases_zeroInputTerminals ..

theorem leases_processSlot (e : Engine α) (slot : Nat) : (e.processSlot slot).leases = e.leases :=
  InstanceManager.leases_modifyInst _ slot GraphInstance.frame_process

theorem leases_executeSlot (e : Engine α) (slot : Nat) :
    (e.executeSlot slot).leases = e.leases :=
  calc (e.executeSlot slot).leases
      = (e.gatherInputs slot).leases := leases_processSlot ..
    _ = (e.zeroInputs slot).leases :=
        foldl_keeps leases (fun e r => leases_gatherRoute e slot r) _ _
    _ = e.leases := leases_zeroInputs e slot

theorem leases_computeBlock (e : Engine α) : e.computeBlock.leases = e.leases := by
  unfold computeBlock
  dsimp only
  split
  · rfl
  · exact foldl_keeps leases leases_executeSlot _ _

theorem leases_work (e : Engine α) (t slot : Nat) (pc : TaskPc) :
    (e.work t slot pc).leases = e.leases := by
  cases pc with
  | zero => exact leases_zeroInputs e slot
  | gather rest =>
      cases rest with
      | nil => rfl
      | cons r rest => exact leases_gatherRoute e slot r
  | process => exact leases_processSlot e slot
  | release rest =>
      cases rest with
      | nil => rfl
      | cons r rest =>
          simp only [work, releaseRoute]
          split <;> rfl
  | push dst rest => rfl
  | finish => rfl

omit [Sample α] in
theorem leases_releaseSlot (e : Engine α) (slot : Nat) (why : EndReason) :
    (e.releaseSlot slot why).leases = e.leases := by
  unfold releaseSlot tryEnqueueTelemetry
  split <;> rfl

theorem leases_drainCommand (e : Engine α) (cmd : CommandEvent α) :
    (e.drainCommand cmd).leases = e.leases := by
  unfold drainCommand
  cases cmd.type with
  | activate => dsimp only; split <;> rfl
  | kill => dsimp only; split <;> first | exact leases_releaseSlot _ _ _ | rfl
  | setParameter =>
      dsimp only
      split
      · exact InstanceManager.leases_modifyInst _ _ fun g => g.frame_setParameter _ _ _
      · rfl
  | connect => unfold addRoute; dsimp only; split_ifs <;> rfl
  | disconnect => rfl

/-- **The audio thread and the workers leave the leases**, but for the lifetime checks. -/
theorem leases_of_audio (ha : a.isAudio = true) (hne : a ≠ .finish) (h : e.step a = some e') :
    e'.leases = e.leases := by
  cases step_cases h with
  | reclaim ok => cases ha
  | create ok => cases ha
  | enqueue type => cases ha
  | raiseFinished valid => cases ha
  | @drain cmd rest phase queue => exact leases_drainCommand { e with commandQueue := rest } cmd
  | compute phase queue => exact leases_computeBlock e
  | finish phase => exact absurd rfl hne
  | @reap slot why rest phase => exact leases_releaseSlot { e with phase := .reaping rest } slot why
  | @work t slot pc thread => exact leases_work e t slot pc
  | begin | seed | seeded | leave | writeOut | poll | popEmpty | pop => rfl

omit [Sample α] in
theorem leases_raiseFinished (e : Engine α) (slot : Nat) :
    ({ e with mgr := e.mgr.modifyInst slot fun g => { g with finishedFlag := true } } :
      Engine α).leases = e.leases :=
  InstanceManager.leases_modifyInst _ slot fun _ => rfl

omit [Sample α] in
/-- `reclaim` leaves the leases of the other slots. -/
theorem leases_reclaimOne {v : VoiceEnd} (ok : e.reclaimOne = some (v, e')) {slot : Nat}
    (hne : slot ≠ v.handle.slot) : e'.leases slot = e.leases slot := by
  unfold reclaimOne at ok
  split at ok
  · cases ok
  next ev rest _ =>
    obtain ⟨rfl, rfl⟩ := Prod.mk.inj (Option.some.inj ok)
    have hne : slot ≠ ev.slot := hne
    simp only [leases, InstanceManager.leases, InstanceManager.recycle]
    split
    · rfl
    · simp only [Function.update_of_ne hne]

/-- `create` gives one slot a lease. -/
theorem leases_create {sched : CompiledSchedule α} {life : LifetimePolicy α}
    {init : List (InitialParam α)} {h : InstanceHandle}
    (ok : e.create sched life init = some (h, e')) :
    e'.leases = Function.update e.leases h.slot
      ⟨life, 0, 0, some (sched, sched.totalParams)⟩ := by
  unfold create at ok
  split at ok
  · cases ok
  next hd mgr created =>
    obtain ⟨rfl, rfl⟩ := Prod.mk.inj (Option.some.inj ok)
    have inits := InstanceManager.leases_modifyInst mgr hd.slot
      (f := fun g => init.foldl (fun g ip => g.initParameter ip.node ip.param ip.value) g)
      fun g => foldl_keeps GraphInstance.frame (fun g ip => g.frame_initParameter ..) init g
    refine Eq.trans inits ?_
    unfold InstanceManager.create at created
    split at created
    · cases created
    next idx rest _ =>
      split at created
      · cases created
      next inst made =>
        obtain ⟨rfl, rfl⟩ := Prod.mk.inj (Option.some.inj created)
        have frame : inst.frame = (sched, sched.totalParams) := by
          rw [instantiate, Option.ite_none_left_eq_some] at made
          obtain ⟨-, made⟩ := made
          obtain rfl := Option.some.inj made
          exact Prod.ext rfl (GraphInstance.defaultControls_length sched)
        funext slot
        by_cases hs : slot = idx
        · subst hs
          simp [InstanceManager.leases, InstanceSlot.lease, frame]
        · simp [InstanceManager.leases, leases, Function.update_of_ne hs]

/-! ### The lifetime checks -/

omit [Sample α] in
/-- The slot's instance, which the executors run and the lifetime checks look at. -/
theorem inst_of_frame {slot : Nat} {p : CompiledSchedule α × Nat}
    (h : (e.leases slot).frame = some p) :
    ∃ g, (e.mgr.slots slot).inst = some g ∧ g.frame = p :=
  Option.map_eq_some_iff.mp h

/-- The check of one slot: the reason it is reaped for, if any, and its entry after it. -/
def lifeCheck (e : Engine α) (slot : Nat) : Option EndReason × InstanceSlot α :=
  match (e.mgr.slots slot).inst with
  | none   => (none, e.mgr.slots slot)
  | some g => shouldReap (e.mgr.slots slot) g (terminalPeak g e.parallelNf)

/-- `reap_pass`' first loop looks at each slot once. -/
theorem reapScan_eq (e : Engine α) : ∀ (l : List Nat) (acc : Slots α × List (Nat × EndReason)),
    l.Nodup → (∀ slot ∈ l, acc.1 slot = e.mgr.slots slot) →
      l.foldl e.reapCheck acc
        = (fun s => if s ∈ l then (e.lifeCheck s).2 else acc.1 s,
            acc.2 ++ l.filterMap fun s => (e.lifeCheck s).1.map (s, ·))
  | [], acc, _, _ => by simp
  | slot :: l, acc, hn, hs => by
      obtain ⟨hout, hn⟩ := List.nodup_cons.mp hn
      have one : e.reapCheck acc slot = (Function.update acc.1 slot (e.lifeCheck slot).2,
          acc.2 ++ ((e.lifeCheck slot).1.map (slot, ·)).toList) := by
        have here := hs slot List.mem_cons_self
        unfold reapCheck lifeCheck
        cases hi : (e.mgr.slots slot).inst with
        | none =>
            dsimp only
            rw [here, hi]
            refine Prod.ext ?_ (List.append_nil _).symm
            exact (Function.update_eq_self_iff.mpr here.symm).symm
        | some g =>
            dsimp only
            rw [here, hi]
            dsimp only
            cases (shouldReap (e.mgr.slots slot) g (terminalPeak g e.parallelNf)).1 with
            | none => exact Prod.ext rfl (List.append_nil _).symm
            | some why => rfl
      rw [List.foldl_cons, one, reapScan_eq e l _ hn fun s hsl => ?_]
      · refine Prod.ext (funext fun s => ?_) ?_
        · by_cases hsl : s ∈ l
          · simp [hsl]
          · by_cases heq : s = slot
            · subst heq
              simp [hsl]
            · simp [hsl, heq]
        · cases hr : (e.lifeCheck slot).1 <;> simp [hr]
      · have hne : s ≠ slot := fun h => hout (h ▸ hsl)
        exact (Function.update_of_ne hne _ _).trans (hs s (List.mem_cons_of_mem slot hsl))

/-- **The lifetime checks**: the active slots' entries are those after the check, and those the
check gives a reason for are listed. -/
theorem finishBlock_slots (hn : e.activeList.Nodup) :
    e.finishBlock.mgr.slots = (fun s => if s ∈ e.activeList then (e.lifeCheck s).2
      else e.mgr.slots s) ∧
    e.finishBlock.phase
      = .reaping (e.activeList.filterMap fun s => (e.lifeCheck s).1.map (s, ·)) := by
  have hlist : e.sumToMaster.activeList = e.activeList :=
    congrArg Tables.activeList (tables_sumToMaster e)
  obtain ⟨hslots, hnf⟩ := e.sumToMaster_keeps
  have check : e.sumToMaster.lifeCheck = e.lifeCheck := by
    funext s
    rw [lifeCheck, lifeCheck, hslots, hnf]
  have scan := reapScan_eq e.sumToMaster e.sumToMaster.activeList (e.sumToMaster.mgr.slots, [])
    (hlist ▸ hn) fun _ _ => rfl
  rw [hlist, check] at scan
  unfold finishBlock
  dsimp only
  rw [hlist, scan, hslots]
  exact ⟨rfl, rfl⟩

/-- The audio thread and the workers leave what the instances were built by. -/
theorem frame_of_audio (ha : a.isAudio = true) (h : e.step a = some e') (slot : Nat) :
    (e'.leases slot).frame = (e.leases slot).frame := by
  by_cases hf : a = .finish
  · subst hf
    cases step_cases h with
    | finish phase =>
        have hinst := congrFun (reapScan_keeps e.sumToMaster e.sumToMaster.activeList
          (e.sumToMaster.mgr.slots, [])).2 slot
        exact congrArg (Option.map GraphInstance.frame)
          (hinst.trans (congrArg (fun f => (f slot).inst) e.sumToMaster_keeps.1))
  · rw [leases_of_audio ha hf h]

end Steps

end Engine

end Xrune
