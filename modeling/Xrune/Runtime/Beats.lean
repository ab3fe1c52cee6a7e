import Xrune.Engine.Local
import Xrune.Runtime.Leases

/-!
# Runtime — what befalls an instance

An instance whose blueprint has no input terminals is written by nothing but its own `process()`
and its own commands: `gather_inputs` finds no channel of it to clear or to add to.  So what a
step of the engine makes of it is told by the step's beats for its slot (`inst_of_audio`),
whatever the other slots hold and however the threads interleave.
-/

namespace Xrune

variable {α : Type}

/-- What befalls an instance: a run of `process()`, a `set_parameter`, the raising of its
finished flag. -/
inductive Beat (α : Type) where
  | played
  | set (node param : Nat) (value : α)
  | raised

namespace GraphInstance

/-- The host's `finished_flag = true`. -/
def raise (g : GraphInstance α) : GraphInstance α := { g with finishedFlag := true }

/-- The instance has no input terminal. -/
def Closed (g : GraphInstance α) : Prop := g.sched.bp.inputTerminals = []

theorem Closed.inputTerminalChannels {g : GraphInstance α} (h : g.Closed) (t : Nat) :
    g.inputTerminalChannels t = 0 := by
  simp [GraphInstance.inputTerminalChannels, Closed.eq_1 g ▸ h]

variable [Sample α]

def beat (g : GraphInstance α) : Beat α → GraphInstance α
  | .played               => g.process
  | .set node param value => g.setParameter node param value
  | .raised               => g.raise

/-- The instance after these, in this order. -/
def after (g : GraphInstance α) (story : List (Beat α)) : GraphInstance α := story.foldl beat g

theorem after_append (g : GraphInstance α) (story more : List (Beat α)) :
    g.after (story ++ more) = (g.after story).after more := List.foldl_append ..

theorem frame_beat (g : GraphInstance α) (b : Beat α) : (g.beat b).frame = g.frame := by
  cases b with
  | played => exact g.frame_process
  | set node param value => exact g.frame_setParameter node param value
  | raised => rfl

theorem Closed.after {g : GraphInstance α} (h : g.Closed) (story : List (Beat α)) :
    (g.after story).Closed := by
  have frame : (g.after story).frame = g.frame := foldl_keeps frame frame_beat story g
  have sched : (g.after story).sched = g.sched := congrArg Prod.fst frame
  rw [Closed, sched]
  exact h

end GraphInstance

namespace Engine

/-- The instance in a slot, if any, has no input terminal. -/
def Closed (e : Engine α) (slot : Nat) : Prop :=
  ∀ g, (e.mgr.slots slot).inst = some g → g.Closed

section Steps

variable [Sample α] {e e' : Engine α} {slot : Nat}

/-- The beats of the audio thread's and the workers' steps, and of the raising of a flag. -/
def beats (e : Engine α) (slot : Nat) : EngineAction α → List (Beat α)
  | .drain =>
      match e.phase, e.commandQueue with
      | .draining, cmd :: _ =>
          if cmd.type = .setParameter ∧ e.tables.Matches cmd.handle
              ∧ cmd.handle.slot = slot then
            [.set cmd.nodeIndex cmd.parameterIndex cmd.parameterValue]
          else []
      | _, _ => []
  | .compute =>
      if e.pool.workers ≠ 0 ∧ 2 ≤ e.activeList.length then []
      else (e.clearMaster.computeOrder.1.filter (· = slot)).map fun _ => .played
  | .work t =>
      match e.pool.threads t with
      | .running s .process => if s = slot then [.played] else []
      | _ => []
  | .raiseFinished h => if h.slot = slot then [.raised] else []
  | _ => []

/-- What became of the instance in a slot between `e` and `e'`. -/
def Tells (e : Engine α) (slot : Nat) (story : List (Beat α)) (e' : Engine α) : Prop :=
  (e'.mgr.slots slot).inst = (e.mgr.slots slot).inst.map (·.after story)

theorem Tells.refl (same : (e'.mgr.slots slot).inst = (e.mgr.slots slot).inst) :
    e.Tells slot [] e' := by
  rw [Tells, same]
  exact Option.map_id'.symm

theorem Tells.trans {e'' : Engine α} {story more : List (Beat α)} (h : e.Tells slot story e')
    (h' : e'.Tells slot more e'') : e.Tells slot (story ++ more) e'' := by
  rw [Tells, h', h, Option.map_map]
  exact congrArg (Option.map · _) (funext fun g => (g.after_append story more).symm)

theorem Closed.of_tells {story : List (Beat α)} (h : e.Closed slot)
    (tells : e.Tells slot story e') : e'.Closed slot := by
  intro g hg
  rw [tells, Option.map_eq_some_iff] at hg
  obtain ⟨g₀, hg₀, rfl⟩ := hg
  exact (h g₀ hg₀).after story

/-- One operation on the instance in `v`. -/
theorem tells_modifyInst {v : Nat} {f : GraphInstance α → GraphInstance α} {b : Beat α}
    (hf : ∀ g, f g = g.beat b) (hm : e'.mgr = e.mgr.modifyInst v f) :
    e.Tells slot (if v = slot then [b] else []) e' := by
  split
  next h =>
    subst h
    rw [Tells, hm]
    simp only [InstanceManager.modifyInst, Function.update_self]
    exact congrArg (Option.map · _) (funext hf)
  next h =>
    refine .refl ?_
    rw [hm, InstanceManager.slots_modifyInst_ne _ (Ne.symm h)]

theorem tells_processSlot (e : Engine α) (v : Nat) :
    e.Tells slot (if v = slot then [.played] else []) (e.processSlot v) :=
  tells_modifyInst (fun _ => rfl) rfl

theorem inst_zeroInputs (closed : e.Closed slot) (v : Nat) :
    ((e.zeroInputs v).mgr.slots slot).inst = (e.mgr.slots slot).inst := by
  by_cases h : v = slot
  · subst h
    simp only [zeroInputs, InstanceManager.zeroInputTerminals, InstanceManager.modifyInst,
      Function.update_self]
    cases hg : (e.mgr.slots v).inst with
    | none => rfl
    | some g =>
        have none : g.inputTerminalCount = 0 := List.length_eq_zero_iff.mpr (closed g hg)
        simp only [Option.map_some, none, List.range_zero, List.foldl_nil]
  · exact congrArg InstanceSlot.inst (e.mgr.slots_modifyInst_ne (Ne.symm h) _)

theorem inst_gatherRoute (closed : e.Closed slot) (v : Nat) (r : ActiveRoute) :
    ((e.gatherRoute v r).mgr.slots slot).inst = (e.mgr.slots slot).inst := by
  by_cases h : v = slot
  · subst h
    unfold gatherRoute InstanceManager.sumTerminalToInstance
    split
    · rfl
    · dsimp only
      split
      next gs gd hs hd =>
        have here : (e.mgr.slots v).inst = some gd := by
          rw [InstanceManager.instanceAt] at hd
          split at hd
          · exact hd
          · cases hd
        simp only [(closed gd here).inputTerminalChannels, Nat.min_zero, List.range_zero,
          List.foldl_nil]
      · rfl
  · exact congrArg InstanceSlot.inst (e.slots_gatherRoute_ne v r (Ne.symm h))

/-- The task of `v`. -/
theorem tells_executeSlot (closed : e.Closed slot) (v : Nat) :
    e.Tells slot (if v = slot then [.played] else []) (e.executeSlot v) := by
  have gathers : ∀ (l : List ActiveRoute) (e : Engine α), e.Closed slot →
      ((l.foldl (fun e r => e.gatherRoute v r) e).mgr.slots slot).inst
        = (e.mgr.slots slot).inst := by
    intro l
    induction l with
    | nil => exact fun _ _ => rfl
    | cons r l ih =>
        intro e closed
        have one := inst_gatherRoute closed v r
        exact (ih _ (closed.of_tells (.refl one))).trans one
  have zeroed : e.Tells slot [] (e.zeroInputs v) := .refl (inst_zeroInputs closed v)
  have gathered : (e.zeroInputs v).Tells slot [] (e.gatherInputs v) :=
    .refl (gathers e.routes _ (closed.of_tells zeroed))
  exact (zeroed.trans gathered).trans (tells_processSlot (e.gatherInputs v) v)

/-- The tasks of `l`. -/
theorem tells_executeSlots (l : List Nat) (closed : e.Closed slot) :
    e.Tells slot ((l.filter (· = slot)).map fun _ => .played) (l.foldl executeSlot e) := by
  induction l generalizing e with
  | nil => exact .refl rfl
  | cons v l ih =>
      have one := tells_executeSlot closed v
      have rest := one.trans (ih (closed.of_tells one))
      rw [List.filter_cons]
      by_cases h : v = slot
      · simpa [h] using rest
      · simpa [h] using rest

theorem tells_work (closed : e.Closed slot) {t v : Nat} {pc : TaskPc}
    (thread : e.pool.threads t = .running v pc) :
    e.Tells slot (e.beats slot (.work t)) (e.work t v pc) := by
  simp only [beats, thread]
  cases pc with
  | zero => exact .refl (inst_zeroInputs closed v)
  | gather rest =>
      cases rest with
      | nil => exact .refl rfl
      | cons r rest => exact .refl (inst_gatherRoute closed v r)
  | process => exact tells_processSlot e v
  | release rest =>
      cases rest with
      | nil => exact .refl rfl
      | cons r rest =>
          refine .refl ?_
          simp only [work, releaseRoute]
          split <;> rfl
  | push dst rest => exact .refl rfl
  | finish => exact .refl rfl

omit [Sample α] in
theorem mgr_releaseSlot (e : Engine α) (v : Nat) (why : EndReason) :
    (e.releaseSlot v why).mgr = e.mgr := by
  unfold releaseSlot tryEnqueueTelemetry
  split <;> rfl

theorem tells_drain {cmd : CommandEvent α} {rest : List (CommandEvent α)}
    (phase : e.phase = .draining) (queue : e.commandQueue = cmd :: rest) :
    e.Tells slot (e.beats slot .drain) ({ e with commandQueue := rest }.drainCommand cmd) := by
  have off : cmd.type ≠ .setParameter → e.beats slot .drain = [] := fun h => by
    simp [beats, phase, queue, h]
  unfold drainCommand
  cases type : cmd.type with
  | activate =>
      rw [off (by simp [type])]
      refine .refl ?_
      dsimp only
      split <;> rfl
  | kill =>
      rw [off (by simp [type])]
      refine .refl ?_
      dsimp only
      split
      · rw [mgr_releaseSlot]
      · rfl
  | connect =>
      rw [off (by simp [type])]
      refine .refl ?_
      unfold addRoute
      dsimp only
      split_ifs <;> rfl
  | disconnect =>
      rw [off (by simp [type])]
      exact .refl rfl
  | setParameter =>
      simp only [beats, phase, queue, type, true_and]
      by_cases m : e.tables.Matches cmd.handle
      · have here : cmd.handle.slot < e.mgr.capacity ∧
            e.activeGen cmd.handle.slot = cmd.handle.generation := m
        simp only [m, true_and, here, and_self, if_true]
        exact tells_modifyInst (fun _ => rfl) rfl
      · have here : ¬ (cmd.handle.slot < e.mgr.capacity ∧
            e.activeGen cmd.handle.slot = cmd.handle.generation) := m
        simp only [m, false_and, if_false, here]
        exact .refl rfl

/-- **What the threads make of an instance without input terminals** is told by the beats. -/
theorem tells_of_audio {a : EngineAction α} (closed : e.Closed slot) (ha : a.isAudio = true)
    (h : e.step a = some e') : e.Tells slot (e.beats slot a) e' := by
  cases step_cases h with
  | reclaim ok => cases ha
  | create ok => cases ha
  | enqueue type => cases ha
  | raiseFinished valid => cases ha
  | drain phase queue => exact tells_drain phase queue
  | compute phase queue =>
      simp only [beats]
      split
      next parallel =>
        have begun : e.computeBlock = e.clearMaster.beginParallel := if_pos parallel
        exact .refl (by rw [begun]; rfl)
      next alone =>
        have computed : e.computeBlock
            = { e.clearMaster.computeSequential with phase := .computed } := if_neg alone
        rw [computed]
        exact tells_executeSlots (e := { e.clearMaster with
          indegScratch := e.clearMaster.computeOrder.2 }) _ closed
  | finish phase =>
      refine .refl ?_
      have hinst := congrFun (reapScan_keeps e.sumToMaster e.sumToMaster.activeList
        (e.sumToMaster.mgr.slots, [])).2 slot
      exact hinst.trans (congrArg (fun f => (f slot).inst) e.sumToMaster_keeps.1)
  | @reap v why rest phase => exact .refl (by rw [mgr_releaseSlot])
  | work thread => exact tells_work closed thread
  | begin | seed | seeded | leave | writeOut | poll | popEmpty | pop => exact .refl rfl

theorem tells_raiseFinished {hd : InstanceHandle} (h : e.step (.raiseFinished hd) = some e') :
    e.Tells slot (e.beats slot (.raiseFinished hd)) e' := by
  cases step_cases h with
  | raiseFinished valid => exact tells_modifyInst (fun _ => rfl) rfl

/-! ### Reclaiming and creating -/

omit [Sample α] in
theorem inst_reclaimOne {v : VoiceEnd} (ok : e.reclaimOne = some (v, e'))
    (hne : slot ≠ v.handle.slot) : (e'.mgr.slots slot).inst = (e.mgr.slots slot).inst := by
  unfold reclaimOne at ok
  split at ok
  · cases ok
  next ev rest _ =>
    obtain ⟨rfl, rfl⟩ := Prod.mk.inj (Option.some.inj ok)
    have hne : slot ≠ ev.slot := hne
    simp only [InstanceManager.recycle]
    split
    · rfl
    · simp only [Function.update_of_ne hne]

/-- The instance `create` builds, and the slot it is in. -/
theorem inst_create {sched : CompiledSchedule α} {life : LifetimePolicy α}
    {init : List (InitialParam α)} {h : InstanceHandle}
    (ok : e.create sched life init = some (h, e')) :
    (∃ g, instantiate sched e.sampleRate = some g ∧ (e'.mgr.slots h.slot).inst
      = some (init.foldl (fun g ip => g.initParameter ip.node ip.param ip.value) g)) ∧
      ∀ slot, slot ≠ h.slot → (e'.mgr.slots slot).inst = (e.mgr.slots slot).inst := by
  unfold create at ok
  split at ok
  · cases ok
  next hd mgr created =>
    obtain ⟨rfl, rfl⟩ := Prod.mk.inj (Option.some.inj ok)
    unfold InstanceManager.create at created
    split at created
    · cases created
    next idx rest _ =>
      split at created
      · cases created
      next g made =>
        obtain ⟨rfl, rfl⟩ := Prod.mk.inj (Option.some.inj created)
        refine ⟨⟨g, made, ?_⟩, fun slot hne => ?_⟩
        · simp [enqueue, InstanceManager.modifyInst]
        · simp [enqueue, InstanceManager.modifyInst, Function.update_of_ne hne]

end Steps

end Engine

end Xrune
