import Xrune.Engine.Local
import Xrune.Engine.Slots

/-!
# Engine — the mix

`process()` clears the master, computes the instances, adds the terminals of the live master
routes to the master channel by channel, and writes the channels out interleaved.

* `desk_of_step`: the frames of a block and the master change at three steps only, the
  beginning of the block, the clearing, and the sum.
* `master_sumToMaster`: the sum adds to a frame of a channel what the routes give there, in the
  order of the routing table.
-/

namespace Xrune

/-- A loop over keys whose turns each change what is looked up at their own key. -/
theorem foldl_each {σ κ β : Type*} [DecidableEq κ] (look : σ → κ → β) {f : σ → κ → σ}
    {g : κ → β → β} {I : σ → Prop} (keeps : ∀ s k, I s → I (f s k))
    (one : ∀ s k j, I s → look (f s k) j = if k = j then g k (look s j) else look s j) {l : List κ}
    (once : l.Nodup) : ∀ {s : σ}, I s → ∀ j,
      look (l.foldl f s) j = if j ∈ l then g j (look s j) else look s j := by
  induction l with
  | nil => simp
  | cons k l ih =>
      obtain ⟨new, once⟩ := List.nodup_cons.mp once
      intro s hs j
      rw [List.foldl_cons, ih once (keeps s k hs), one s k j hs]
      by_cases here : k = j
      · subst here
        simp [new]
      · simp [here, Ne.symm here]

theorem foldl_product {σ κ κ' : Type*} (f : σ → κ × κ' → σ) (l : List κ) (l' : List κ') (s : σ) :
    (l ×ˢ l').foldl f s = l.foldl (fun s a => l'.foldl (fun s b => f s (a, b)) s) s := by
  simp only [SProd.sprod, List.product, List.foldl_flatMap, List.foldl_map]

variable {α : Type}

namespace Engine

/-- What a block is set up with, its frames, and the master. -/
structure Desk (α : Type) where
  sampleRate : Nat
  blockSize : Nat
  outputChannels : Nat
  nFrames : Nat
  parallelNf : Nat
  masterBuffers : List (List α)

def desk (e : Engine α) : Desk α :=
  ⟨e.sampleRate, e.blockSize, e.outputChannels, e.nFrames, e.parallelNf, e.masterBuffers⟩

section Steps

variable [Sample α] {e e' : Engine α} {a : EngineAction α}

def deskAfter (e : Engine α) : EngineAction α → Desk α
  | .begin nFrames =>
      { e.desk with nFrames := nFrames, parallelNf := min nFrames e.blockSize }
  | .compute => e.clearMaster.desk
  | .finish  => e.sumToMaster.desk
  | _        => e.desk

theorem desk_executeSlot (e : Engine α) (slot : Nat) : (e.executeSlot slot).desk = e.desk := by
  rw [e.executeSlot_eq slot]
  rfl

omit [Sample α] in
theorem desk_of_reclaimOne {v : VoiceEnd} (ok : e.reclaimOne = some (v, e')) :
    e'.desk = e.desk ∧ e'.phase = e.phase := by
  unfold reclaimOne at ok
  split at ok
  · cases ok
  · obtain ⟨-, rfl⟩ := Prod.mk.inj (Option.some.inj ok)
    exact ⟨rfl, rfl⟩

theorem desk_of_create {s : CompiledSchedule α} {life : LifetimePolicy α}
    {writes : List (InitialParam α)} {h : InstanceHandle}
    (ok : e.create s life writes = some (h, e')) : e'.desk = e.desk ∧ e'.phase = e.phase := by
  unfold create at ok
  split at ok
  · cases ok
  · obtain ⟨-, rfl⟩ := Prod.mk.inj (Option.some.inj ok)
    exact ⟨rfl, rfl⟩

/-- **The steps that touch the master.** -/
theorem desk_of_step (h : e.step a = some e') : e'.desk = e.deskAfter a := by
  cases step_cases h with
  | reclaim ok => exact (desk_of_reclaimOne ok).1
  | create ok => exact (desk_of_create ok).1
  | drain phase queue =>
      unfold drainCommand releaseSlot tryEnqueueTelemetry addRoute removeRoute
      dsimp only
      split
      all_goals first | rfl | (split_ifs <;> rfl)
  | compute phase queue =>
      unfold computeBlock
      dsimp only
      split
      · rfl
      · exact foldl_keeps desk desk_executeSlot _ _
  | reap phase =>
      unfold releaseSlot tryEnqueueTelemetry
      split <;> rfl
  | @work t slot pc thread =>
      cases pc with
      | gather rest =>
          cases rest with
          | nil => rfl
          | cons r rest =>
              have one := congrArg desk (e.gatherRoute_eq slot r)
              exact one
      | release rest =>
          cases rest with
          | nil => rfl
          | cons r rest =>
              simp only [work, releaseRoute]
              split <;> rfl
      | zero | process | push | finish => rfl
  | enqueue | raiseFinished | begin | seed | seeded | leave | finish | writeOut | poll | popEmpty
  | pop => rfl

end Steps

/-! ### The sum -/

/-- A frame of a channel of the master. -/
def master (e : Engine α) (p : Nat × Nat) : Option α := e.masterBuffers[p.1]?.bind (·[p.2]?)

section Sum

variable [Sample α] {e : Engine α}

/-- What a route gives to a frame of a channel, if its terminal has the channel. -/
def gives (e : Engine α) (p : Nat × Nat) (r : ActiveRoute) : Option α :=
  (e.mgr.instanceAt r.srcSlot).bind fun g =>
    if p.1 < g.outputTerminalChannels r.srcTerminal then
      some (g.read (g.outputTerminalView r.srcTerminal p.1) p.2)
    else none

/-- The route is live and goes to the master. -/
def sums (e : Engine α) (r : ActiveRoute) : Bool := r.toMaster && e.routeLive r

/-- What the routes give to a frame of a channel, in the order of the routing table. -/
def mix (e : Engine α) (p : Nat × Nat) : List α := (e.routes.filter e.sums).filterMap (e.gives p)

theorem master_addToMaster (e : Engine α) (src : Nat) (sv : BufferView) (q p : Nat × Nat) :
    (e.addToMaster src sv q.1 q.2).master p =
      if q = p then (e.master p).map (· + e.mgr.readAt src sv q.2) else e.master p := by
  obtain ⟨c, i⟩ := q
  obtain ⟨c', i'⟩ := p
  simp only [master, addToMaster, List.getElem?_modify, Prod.mk.injEq]
  by_cases hc : c = c'
  · subst hc
    cases e.masterBuffers[c]? with
    | none => simp
    | some b =>
        by_cases hi : i = i'
        · subst hi
          simp
        · simp [hi]
  · simp [hc]

/-- The loops of `sum_terminal_to_master`, over the channels and frames together. -/
theorem sumTerminalToMaster_eq (e : Engine α) {src : Nat} (srcT : Nat) {g : GraphInstance α}
    (here : e.mgr.instanceAt src = some g) :
    e.sumTerminalToMaster src srcT =
      (List.range (min (g.outputTerminalChannels srcT) e.outputChannels) ×ˢ
        List.range e.parallelNf).foldl
          (fun e q => e.addToMaster src (g.outputTerminalView srcT q.1) q.1 q.2) e := by
  rw [foldl_product, sumTerminalToMaster, here]
  refine foldl_eq_of_keeps (I := fun e' : Engine α => e'.parallelNf = e.parallelNf)
    (fun e' c same => ?_) (fun e' c same => ?_) _ _ rfl
  · exact (foldl_keeps (f := fun e i => e.addToMaster src (g.outputTerminalView srcT c) c i)
      parallelNf (fun _ _ => rfl) _ e').trans same
  · rw [same]

theorem master_sumTerminalToMaster (e : Engine α) (r : ActiveRoute) {p : Nat × Nat}
    (hc : p.1 < e.outputChannels) (hi : p.2 < e.parallelNf) :
    (e.sumTerminalToMaster r.srcSlot r.srcTerminal).master p =
      (e.master p).map fun x => (e.gives p r).elim x (x + ·) := by
  obtain ⟨c, i⟩ := p
  cases here : e.mgr.instanceAt r.srcSlot with
  | none => simp [sumTerminalToMaster, gives, here]
  | some g =>
      have read (v : BufferView) (i : Nat) : e.mgr.readAt r.srcSlot v i = g.read v i := by
        rw [InstanceManager.readAt, here]
      have each := foldl_each master (I := fun e' => e'.mgr = e.mgr)
        (f := fun e q => e.addToMaster r.srcSlot (g.outputTerminalView r.srcTerminal q.1) q.1 q.2)
        (g := fun q => Option.map (· + g.read (g.outputTerminalView r.srcTerminal q.1) q.2))
        (fun _ _ same => same) (fun e' q p same => by rw [master_addToMaster, same, read])
        ((List.nodup_range (n := min (g.outputTerminalChannels r.srcTerminal) e.outputChannels)
          ).product (List.nodup_range (n := e.parallelNf))) rfl (c, i)
      rw [e.sumTerminalToMaster_eq r.srcTerminal here, each]
      simp only [gives, here, Option.bind_some, List.mem_product, List.mem_range, lt_min_iff, hc,
        hi, and_true]
      split <;> simp

/-- The engine but for the master. -/
def besides (e : Engine α) : Engine α := { e with masterBuffers := [] }

theorem besides_sumTerminalToMaster (e : Engine α) (src srcT : Nat) :
    (e.sumTerminalToMaster src srcT).besides = e.besides := by
  unfold sumTerminalToMaster
  split
  · rfl
  · exact foldl_keeps besides (fun e c => foldl_keeps besides
      (fun e i => (rfl : (e.addToMaster _ _ _ _).besides = e.besides)) _ e) _ e

theorem besides_sumToMaster (e : Engine α) : e.sumToMaster.besides = e.besides := by
  refine foldl_keeps besides (fun e r => ?_) e.routes e
  split
  · rfl
  · exact e.besides_sumTerminalToMaster r.srcSlot r.srcTerminal

theorem desk_sumToMaster (e : Engine α) : e.sumToMaster.desk =
    { e.desk with masterBuffers := e.sumToMaster.masterBuffers } := by
  have same := congrArg (fun e' : Engine α =>
    { e'.desk with masterBuffers := e.sumToMaster.masterBuffers }) e.besides_sumToMaster
  exact same

/-- What `init` sets up. -/
def setup (e : Engine α) : Nat × Nat × Nat := (e.sampleRate, e.blockSize, e.outputChannels)

theorem setup_of_step {e' : Engine α} {a : EngineAction α} (h : e.step a = some e') :
    e'.setup = e.setup := by
  let setup (b : Desk α) : Nat × Nat × Nat := (b.sampleRate, b.blockSize, b.outputChannels)
  have desk : e'.setup = setup (e.deskAfter a) := congrArg setup (desk_of_step h)
  rw [desk]
  cases a with
  | finish => exact congrArg setup e.desk_sumToMaster
  | _ => rfl

/-- **What the sum adds to a frame of a channel.** -/
theorem master_sumToMaster (e : Engine α) {p : Nat × Nat} (hc : p.1 < e.outputChannels)
    (hi : p.2 < e.parallelNf) :
    e.sumToMaster.master p = (e.master p).map ((e.mix p).foldl (· + ·)) := by
  let turn (e : Engine α) (r : ActiveRoute) : Engine α :=
    if !r.toMaster ∨ !e.routeLive r then e else e.sumTerminalToMaster r.srcSlot r.srcTerminal
  -- the loop over a table, from an engine that differs in the master at most
  have along : ∀ (table : List ActiveRoute) (e' : Engine α), e'.besides = e.besides →
      (table.foldl turn e').master p = (e'.master p).map
        (((table.filter e.sums).filterMap (e.gives p)).foldl (· + ·)) := by
    intro table
    induction table with
    | nil => simp
    | cons r table ih =>
        intro e' same
        have live : e'.routeLive r = e.routeLive r := congrArg (·.routeLive r) same
        have given : e'.gives p r = e.gives p r := congrArg (·.gives p r) same
        rw [List.foldl_cons]
        by_cases sums : e.sums r = true
        · have here : turn e' r = e'.sumTerminalToMaster r.srcSlot r.srcTerminal := by
            simp only [Engine.sums, Bool.and_eq_true] at sums
            simp [turn, live, sums]
          rw [here, ih _ ((e'.besides_sumTerminalToMaster _ _).trans same),
            List.filter_cons_of_pos sums, e'.master_sumTerminalToMaster r
              (congrArg outputChannels same ▸ hc) (congrArg parallelNf same ▸ hi),
            Option.map_map, given]
          refine congrArg (Option.map · _) (funext fun x => ?_)
          cases one : e.gives p r <;> simp [one]
        · have here : turn e' r = e' := by
            simp only [Engine.sums, Bool.and_eq_true, not_and, Bool.not_eq_true] at sums
            cases master : r.toMaster <;> simp [turn, live, master, sums]
          rw [here, ih e' same, List.filter_cons_of_neg sums]
  exact along e.routes e rfl

end Sum

/-! ### A block -/

/-- The master is cleared and no route summed yet. -/
def cleared (e : Engine α) : Bool :=
  match e.phase with
  | .seeding _ | .helping | .computed => true
  | _ => false

/-- The master has its channels, a block the frames it is asked for as far as the master has them,
and until the sum the master is silent. -/
structure MasterInv [Sample α] (e : Engine α) : Prop where
  channels : e.desk.masterBuffers.length = e.desk.outputChannels
  frames : e.desk.parallelNf = min e.desk.nFrames e.desk.blockSize
  silent : e.cleared = true → e.desk.masterBuffers
    = List.replicate e.desk.outputChannels (List.replicate e.desk.blockSize 0)

section Blocks

variable [Sample α] {e e' : Engine α} {a : EngineAction α}

/-- A cleared master comes of the computing step, or was cleared and is left as it is. -/
theorem cleared_of_step (h : e.step a = some e') (cleared : e'.cleared = true) :
    a = .compute ∨ e.cleared = true ∧ e.deskAfter a = e.desk := by
  have same (phase : e'.phase = e.phase) : e.cleared = true := by
    rwa [Engine.cleared, ← phase]
  cases step_cases h with
  | compute => exact .inl rfl
  | begin | finish | writeOut => cases cleared
  | reap phase =>
      rw [Engine.cleared, EngineInv.phase_releaseSlot] at cleared
      cases cleared
  | drain phase queue =>
      rw [Engine.cleared, EngineInv.phase_drainCommand, phase] at cleared
      cases cleared
  | seed phase | seeded phase | leave phase => exact .inr ⟨by rw [Engine.cleared, phase], rfl⟩
  | reclaim ok => exact .inr ⟨same (desk_of_reclaimOne ok).2, rfl⟩
  | create ok => exact .inr ⟨same (desk_of_create ok).2, rfl⟩
  | work thread => exact .inr ⟨same (EngineInv.phase_work ..), rfl⟩
  | enqueue | raiseFinished | poll | popEmpty | pop => exact .inr ⟨same rfl, rfl⟩

theorem MasterInv.step (I : e.MasterInv) (h : e.step a = some e') : e'.MasterInv := by
  have desk := desk_of_step h
  have width : e.sumToMaster.desk.masterBuffers.length = e.desk.masterBuffers.length := by
    refine foldl_keeps (fun e : Engine α => e.desk.masterBuffers.length) (fun e r => ?_) _ e
    split
    · rfl
    · unfold sumTerminalToMaster
      split
      · rfl
      · refine foldl_keeps (fun e : Engine α => e.desk.masterBuffers.length) (fun e c => ?_) _ e
        refine foldl_keeps (fun e : Engine α => e.desk.masterBuffers.length) (fun e i => ?_) _ e
        exact List.length_modify ..
  constructor
  · rw [desk]
    cases a with
    | finish =>
        show e.sumToMaster.desk.masterBuffers.length = e.sumToMaster.desk.outputChannels
        rw [width, I.channels, desk_sumToMaster]
    | compute => exact (List.length_map ..).trans I.channels
    | _ => exact I.channels
  · rw [desk]
    cases a with
    | begin n => rfl
    | finish =>
        show e.sumToMaster.desk.parallelNf =
          min e.sumToMaster.desk.nFrames e.sumToMaster.desk.blockSize
        rw [desk_sumToMaster]
        exact I.frames
    | _ => exact I.frames
  · intro cleared
    rw [desk]
    rcases cleared_of_step h cleared with rfl | ⟨before, same⟩
    · show List.map _ _ = _
      rw [List.map_const', show e.masterBuffers.length = _ from I.channels]
      rfl
    · rw [same]
      exact I.silent before

theorem masterInv_init {cfg : EngineConfig} (h : Engine.init cfg = some e) : e.MasterInv := by
  unfold Engine.init at h
  split at h
  · cases h
  · obtain rfl := Option.some.inj h
    exact ⟨List.length_replicate, (Nat.zero_min _).symm, fun _ => rfl⟩

/-- **The frames written out**, before the slots of ended voices are given up. -/
theorem MasterInv.interleave_sumToMaster (I : e.MasterInv) (cleared : e.cleared = true) :
    e.sumToMaster.interleave = (List.range e.nFrames).flatMap fun i =>
      (List.range e.outputChannels).map fun ch =>
        if i < e.blockSize then (e.mix (ch, i)).foldl (· + ·) 0 else 0 := by
  have frames : e.sumToMaster.nFrames = e.nFrames :=
    congrArg Desk.nFrames e.desk_sumToMaster
  have channels : e.sumToMaster.outputChannels = e.outputChannels :=
    congrArg Desk.outputChannels e.desk_sumToMaster
  have nf : e.sumToMaster.parallelNf = e.parallelNf :=
    congrArg Desk.parallelNf e.desk_sumToMaster
  have least : e.parallelNf = min e.nFrames e.blockSize := I.frames
  rw [interleave, frames, channels, nf, List.flatMap, List.flatMap]
  refine congrArg List.flatten (List.map_congr_left fun i hi => ?_)
  refine List.map_congr_left fun ch hch => ?_
  have hch := List.mem_range.mp hch
  have within : i < e.parallelNf ↔ i < e.blockSize := by
    rw [least, lt_min_iff, and_iff_right (List.mem_range.mp hi)]
  simp only [within]
  split
  next lt =>
    have silent : e.master (ch, i) = some 0 := by
      have buffers : e.masterBuffers
          = List.replicate e.outputChannels (List.replicate e.blockSize 0) := I.silent cleared
      rw [master, buffers, List.getElem?_replicate_of_lt hch, Option.bind_some,
        List.getElem?_replicate_of_lt lt]
    have sum := e.master_sumToMaster (p := (ch, i)) hch (within.mpr lt)
    rw [silent, Option.map_some, master, Option.bind_eq_some_iff] at sum
    obtain ⟨buffer, here, sample⟩ := sum
    rw [List.getD_eq_getElem?_getD, List.getD_eq_getElem?_getD, here, Option.getD_some, sample,
      Option.getD_some]
  next => rfl

/-- While slots are given up the desk is left alone. -/
theorem desk_of_reaping (h : e.step a = some e') {l : List (Nat × EndReason)}
    (phase : e.phase = .reaping l) (more : a ≠ .writeOut) :
    e'.desk = e.desk ∧ ∃ l', e'.phase = .reaping l' := by
  have same (h' : e.deskAfter a = e.desk) : e'.desk = e.desk := (desk_of_step h).trans h'
  have kept (h' : e'.phase = e.phase) : ∃ l', e'.phase = .reaping l' := ⟨l, h'.trans phase⟩
  cases step_cases h with
  | begin other | drain other | compute other | seed other | seeded other | leave other
  | finish other => cases phase.symm.trans other
  | writeOut => exact absurd rfl more
  | @reap _ _ rest other => exact ⟨same rfl, rest, EngineInv.phase_releaseSlot ..⟩
  | reclaim ok => exact ⟨same rfl, kept (desk_of_reclaimOne ok).2⟩
  | create ok => exact ⟨same rfl, kept (desk_of_create ok).2⟩
  | work thread => exact ⟨same rfl, kept (EngineInv.phase_work ..)⟩
  | enqueue | raiseFinished | poll | popEmpty | pop => exact ⟨same rfl, kept rfl⟩

end Blocks

end Engine

end Xrune
