import Xrune.Engine.Result
import Xrune.Engine.Rank
import Xrune.Runtime.Session

/-!
# Runtime — parallel blocks

The blocks of a session, with the control thread's calls among the steps of the threads.  While
every block begins on an acyclic routing graph that is seeded race-free, a block is never stuck,
executes each active instance once, and leaves what the sequential execution would have left.
Neither condition is one the API keeps: a pair of `route` calls closes a cycle, and instances
seeded in the order of their activation may be pushed twice.
-/

namespace Xrune

variable {α : Type}

namespace Engine

/-- Tasks are left only while there is a slot to look at, to take from the queue, or being
executed. -/
def NotStuck (e : Engine α) : Prop :=
  0 < e.pool.tasksRemaining → (∃ rest, e.phase = .seeding rest) ∨ e.pool.queue ≠ [] ∨
    ∃ t slot pc, e.pool.threads t = .running slot pc

/-- No slot is executed twice, none that is not active, and every active one by the end. -/
def ExecutedOnce (e : Engine α) : Prop :=
  e.pool.processed.Nodup ∧ (∀ slot ∈ e.pool.processed, slot ∈ e.activeList) ∧
    0 ≤ e.pool.tasksRemaining ∧
    (e.pool.tasksRemaining = 0 → ∀ slot ∈ e.activeList, slot ∈ e.pool.processed)

/-- A thread is at a task only when the tasks that feed it have run. -/
def FedInOrder (e : Engine α) : Prop :=
  ∀ t slot pc u, e.pool.threads t = .running slot pc → (u, slot) ∈ e.edges →
    u ∈ e.pool.processed

end Engine

namespace Engine

variable [Sample α] {e e' : Engine α} {a : EngineAction α}

/-- A step changes the state of one thread at most: one of the pool's, or one that is at work. -/
theorem threads_of_step (h : e.step a = some e') :
    e'.pool.workers = e.pool.workers ∧ (e'.pool.threads = e.pool.threads ∨
      ∃ t s, (t ≤ e.pool.workers ∨ e.pool.threads t ≠ .idle) ∧
        e'.pool.threads = Function.update e.pool.threads t s) := by
  have same : e'.pool = e.pool → e'.pool.workers = e.pool.workers ∧
      (e'.pool.threads = e.pool.threads ∨ ∃ t s, (t ≤ e.pool.workers ∨ e.pool.threads t ≠ .idle) ∧
        e'.pool.threads = Function.update e.pool.threads t s) := by
    intro hpool
    rw [hpool]
    exact ⟨rfl, .inl rfl⟩
  cases step_cases h with
  | reclaim ok => exact same (reclaimOne_keeps ok).2.2
  | create ok => exact same (create_keeps ok).2.2
  | enqueue | raiseFinished | begin | writeOut => exact same rfl
  | @drain cmd rest phase queue => exact same (pool_drainCommand _ cmd)
  | compute phase queue =>
      by_cases hpar : e.pool.workers ≠ 0 ∧ 2 ≤ e.activeList.length
      · have heq : e.computeBlock = e.clearMaster.beginParallel := if_pos hpar
        rw [heq]
        exact ⟨rfl, .inl rfl⟩
      · have heq : e.computeBlock = { e.clearMaster.computeSequential with phase := .computed } :=
          if_neg hpar
        refine same ?_
        rw [heq]
        exact pool_computeSequential e.clearMaster
  | @seed slot rest phase =>
      have hkeeps := e.pool.pushReady_keeps slot
      simp only [seedSlot]
      split
      · exact ⟨hkeeps.1, .inl hkeeps.2.1⟩
      · exact ⟨rfl, .inl rfl⟩
  | seeded phase => exact ⟨rfl, .inl rfl⟩
  | leave phase thread drained => exact ⟨rfl, .inl rfl⟩
  | finish phase => exact same (pool_sumToMaster e)
  | @reap slot why rest phase => exact same (pool_releaseSlot _ slot why)
  | @poll t thread test => exact ⟨rfl, .inr ⟨t, _, .inl (le_workers_of_mayPoll test), rfl⟩⟩
  | @popEmpty t thread queue => exact ⟨rfl, .inr ⟨t, _, .inr (by simp [thread]), rfl⟩⟩
  | @pop t slot q thread queue => exact ⟨rfl, .inr ⟨t, _, .inr (by simp [thread]), rfl⟩⟩
  | @work t slot pc thread =>
      obtain ⟨s, hs, -⟩ := e.threads_work t slot pc
      exact ⟨e.workers_work t slot pc, .inr ⟨t, s, .inr (by simp [thread]), hs⟩⟩

end Engine

namespace Session

/-- A block about to begin is on an acyclic routing graph, and seeded race-free. -/
def BlockOk (s : Session α) (a : RuntimeAction α) : Prop :=
  ∀ b, a = .audio b → s.rt.eng.BlockOk b

/-- The step is one of the block's work. -/
def Progresses (s : Session α) (a : RuntimeAction α) : Prop :=
  ∃ b, a = .audio b ∧ s.rt.eng.Progresses b

variable [Sample α] {s s' : Session α} {a : RuntimeAction α} {cfg : EngineConfig} {cb : Bool}
  {ok : Session α → RuntimeAction α → Prop}

/-- What a step of a session is to its engine. -/
theorem engine_step (run : SessionReaches cfg cb ok s) (one : s.step a = some s') :
    s'.rt.eng = s.rt.eng ∨ ∃ b, s.rt.eng.step b = some s'.rt.eng ∧
      (a = .audio b ∨ b.isAudio = false) ∧ ∀ h, b ≠ .raiseFinished h := by
  obtain ⟨-, out, hs, -⟩ := step_cases one
  exact (runtimeInv_of_reaches run).engine_step hs

theorem audio_step {b : EngineAction α} (one : s.step (.audio b) = some s') :
    s.rt.eng.step b = some s'.rt.eng := by
  obtain ⟨-, out, hs, -⟩ := step_cases one
  generalize s'.rt = rt' at hs
  cases hs with
  | audio thread ok => exact ok

/-- No thread past the pool's is ever at work. -/
theorem idle_past_workers (run : SessionReaches cfg cb ok s) :
    ∀ t, s.rt.eng.pool.workers < t → s.rt.eng.pool.threads t = .idle := by
  refine run.invariant (P := fun s => ∀ t, s.rt.eng.pool.workers < t →
    s.rt.eng.pool.threads t = .idle) (fun s h₀ => ?_) fun s a s' reached idle meets one => ?_
  · obtain ⟨rt, hrt, rfl⟩ := Option.map_eq_some_iff.mp h₀
    obtain ⟨e, he, rfl⟩ := Option.map_eq_some_iff.mp hrt
    exact (BlockInv.init he).workers
  · rcases engine_step reached one with same | ⟨b, hb, -⟩
    · rw [same]
      exact idle
    · obtain ⟨hworkers, hthreads⟩ := Engine.threads_of_step hb
      intro t ht
      rw [hworkers] at ht
      rcases hthreads with hsame | ⟨t', x, ht', hupdate⟩
      · rw [hsame]
        exact idle t ht
      · have hne : t ≠ t' := by
          rintro rfl
          rcases ht' with hle | hbusy
          · exact absurd ht (not_lt.mpr hle)
          · exact hbusy (idle t ht)
        rw [hupdate, Function.update_of_ne hne]
        exact idle t ht

/-- The pool's invariant holds of every session whose blocks begin as they should. -/
theorem blockInv_of_reaches (hok : ∀ s a, ok s a → s.BlockOk a) (run : SessionReaches cfg cb ok s) :
    BlockInv s.rt.eng := by
  refine run.invariant (P := fun s => BlockInv s.rt.eng) (fun s h₀ => ?_)
    fun s a s' reached B meets one => ?_
  · obtain ⟨rt, hrt, rfl⟩ := Option.map_eq_some_iff.mp h₀
    obtain ⟨e, he, rfl⟩ := Option.map_eq_some_iff.mp hrt
    exact .init he
  · have S := (runtimeInv_of_reaches reached).engine.slots
    rcases engine_step reached one with same | ⟨b, hb, ha, -⟩
    · rw [same]
      exact B
    · refine B.step S ?_ hb
      rcases ha with rfl | hcontrol
      · exact hok s _ meets b rfl
      · rintro rfl
        cases hcontrol

end Session

section Blocks

variable [Sample α] {s s₁ s₂ : Session α} {cfg : EngineConfig} {cb : Bool}
  {ok : Session α → RuntimeAction α → Prop}

/-- **Every block of a session comes to its end**, while each begins on an acyclic graph seeded
race-free: it is not stuck, executes each active instance once, and has only finitely much work,
every piece of which lowers its rank. -/
theorem block_completes (hok : ∀ s a, ok s a → s.BlockOk a) (run : SessionReaches cfg cb ok s)
    (hin : s.rt.eng.inBlock = true) :
    s.rt.eng.NotStuck ∧ s.rt.eng.ExecutedOnce ∧
      ∀ a s', s.step a = some s' → s'.rt.eng.inBlock = true →
        (s.Progresses a → s'.rt.eng.rank < s.rt.eng.rank) ∧
          (¬ s.Progresses a → s'.rt.eng.rank = s.rt.eng.rank) := by
  have B := Session.blockInv_of_reaches hok run
  have S := (Session.runtimeInv_of_reaches run).engine.slots
  refine ⟨fun left => ?_, B.executed hin, fun a s' one stays => ?_⟩
  · cases hphase : s.rt.eng.phase with
    | seeding rest => exact .inl ⟨rest, rfl⟩
    | helping => exact .inr (B.not_stuck S hphase left)
    | outside | draining | computed | reaping rest =>
        simp only [Engine.inBlock, hphase] at hin
        cases hin
  · constructor
    · rintro ⟨b, rfl, hprog⟩
      exact (Engine.rank_step B hin (Session.audio_step one) stays).1 hprog
    · intro hno
      rcases Session.engine_step run one with same | ⟨b, hb, ha, -⟩
      · rw [same]
      · refine (Engine.rank_step B hin hb stays).2 fun hprog => ?_
        rcases ha with rfl | hcontrol
        · exact hno ⟨b, rfl, hprog⟩
        · cases b <;> first | exact hprog | cases hcontrol

/-- The block that a step of the session begins. -/
theorem Session.begins (phase : s.rt.eng.phase = .draining) (queue : s.rt.eng.commandQueue = [])
    (workers : s.rt.eng.pool.workers ≠ 0) (two : 2 ≤ s.rt.eng.activeList.length)
    (one : s.step (.audio .compute) = some s₁) :
    s₁.rt.eng = s.rt.eng.clearMaster.beginParallel := by
  have h := Session.audio_step one
  simp only [Engine.step, phase, queue, Option.some.injEq] at h
  rw [← h]
  exact if_pos ⟨workers, two⟩

/-- What a block keeps, from its first state on. -/
theorem Session.block_keeps (run : SessionReaches cfg cb (fun s a => s.BlockOk a) s)
    (phase : s.rt.eng.phase = .draining) (queue : s.rt.eng.commandQueue = [])
    (workers : s.rt.eng.pool.workers ≠ 0) (two : 2 ≤ s.rt.eng.activeList.length)
    (acyclic : Acyclic s.rt.eng.edges)
    (raceFree : Countdown.RaceFree s.rt.eng.activeList s.rt.eng.edges)
    (one : s.step (.audio .compute) = some s₁)
    (block : Reaches Session.step (fun t _ => t.rt.eng.inBlock = true) s₁ s₂) :
    SessionReaches cfg cb (fun s a => s.BlockOk a) s₂ ∧
      BlockResult s.rt.eng.clearMaster s.rt.eng.clearMaster.computeSequential.mgr.slots
        s₂.rt.eng := by
  have S := (Session.runtimeInv_of_reaches run).engine.slots
  have B := Session.blockInv_of_reaches (fun _ _ h => h) run
  have hok : s.BlockOk (.audio .compute) := fun _ _ _ _ _ => ⟨acyclic, raceFree⟩
  have settled := (s.rt.eng.clearMaster.computeSequential_settled S acyclic).2
  induction block with
  | refl =>
      obtain ⟨s₀, h₀, run⟩ := run
      refine ⟨⟨s₀, h₀, .tail run hok one⟩, ?_⟩
      have hout : s.rt.eng.inBlock = false := s.rt.eng.inBlock_eq_false phase (by simp) (by simp)
      rw [Session.begins phase queue workers two one]
      exact .start _ _ (B.quiet hout).2
  | @tail t u a _ hin one ih =>
      obtain ⟨⟨s₀, h₀, reached⟩, R⟩ := ih
      have hrun : SessionReaches cfg cb (fun s a => s.BlockOk a) t := ⟨s₀, h₀, reached⟩
      have St := (Session.runtimeInv_of_reaches hrun).engine.slots
      have Bt := Session.blockInv_of_reaches (fun _ _ h => h) hrun
      have hokt : t.BlockOk a := by
        rintro b rfl rfl
        -- a block does not begin inside a block
        have h := Session.audio_step one
        simp only [Engine.step] at h
        split at h
        next hp _ =>
          rw [t.rt.eng.inBlock_eq_false hp (by simp) (by simp)] at hin
          cases hin
        · cases h
      refine ⟨⟨s₀, h₀, .tail reached hokt one⟩, ?_⟩
      rcases Session.engine_step hrun one with same | ⟨b, hb, -, flag⟩
      · rw [same]
        exact R
      · exact R.step Bt St hin settled flag hb

/-- **A parallel block is the sequential execution**, whatever the interleaving, when it begins
on an acyclic graph seeded race-free, as the blocks before it: no task runs before those that
feed it, and at its end the active slots and the sum to the master are as `compute_sequential`
would have left them. -/
theorem parallel_eq_sequential (hok : ∀ s a, ok s a → s.BlockOk a)
    (run : SessionReaches cfg cb ok s) (phase : s.rt.eng.phase = .draining)
    (queue : s.rt.eng.commandQueue = []) (workers : s.rt.eng.pool.workers ≠ 0)
    (two : 2 ≤ s.rt.eng.activeList.length) (acyclic : Acyclic s.rt.eng.edges)
    (raceFree : Countdown.RaceFree s.rt.eng.activeList s.rt.eng.edges)
    (one : s.step (.audio .compute) = some s₁)
    (block : Reaches Session.step (fun t _ => t.rt.eng.inBlock = true) s₁ s₂) :
    (s₂.rt.eng.inBlock = true → s₂.rt.eng.FedInOrder) ∧
      (s₂.rt.eng.inBlock = false →
        (∀ v ∈ s.rt.eng.activeList,
          s₂.rt.eng.mgr.slots v = s.rt.eng.clearMaster.computeSequential.mgr.slots v) ∧
        s₂.rt.eng.sumToMaster.masterBuffers
          = s.rt.eng.clearMaster.computeSequential.sumToMaster.masterBuffers) := by
  have run' : SessionReaches cfg cb (fun s a => s.BlockOk a) s := by
    obtain ⟨s₀, h₀, reached⟩ := run
    exact ⟨s₀, h₀, reached.mono hok⟩
  obtain ⟨run₂, R⟩ := Session.block_keeps run' phase queue workers two acyclic raceFree one block
  have B := Session.blockInv_of_reaches (fun _ _ h => h) run₂
  have S := (Session.runtimeInv_of_reaches run₂).engine.slots
  refine ⟨fun hin t slot pc u thread hu => B.preds_processed S hin thread hu, fun hout => ?_⟩
  have S₀ : SlotInv s.rt.eng.clearMaster.tables := (Session.runtimeInv_of_reaches run).engine.slots
  exact BlockResult.result S₀ R hout

end Blocks

/-! ### Two instances -/

def busVoice (slot blueprint : Nat) : Voice := ⟨⟨slot, slot + 1⟩, blueprint⟩

/-- A pool of one slot and no worker. -/
def aloneSession : Session ℚ := (Session.init (.small 1 0 EngineConfig.fits_one) true).get rfl

/-- A pool of two slots and one worker. -/
def twoSlots : Session ℚ := (Session.init (.small 2 1 (by decide)) true).get rfl

/-- Two instances, of blueprint 0 and of `second`, are spawned in slots 0 and 1. -/
def spawnTwo (second : Nat) : List (RuntimeAction ℚ) :=
  [.spawn 0 { life := permanent }, .advance, .advance, .advance,
    .spawn second { life := permanent }, .advance, .advance, .advance]

/-- One voice is routed to another. -/
def routed (src dst : Voice) : List (RuntimeAction ℚ) :=
  [.request (.route src dst "in" "out"), .advance, .advance]

/-- The audio thread takes up `n` commands. -/
def drained (n : Nat) : List (RuntimeAction ℚ) :=
  .audio (.begin 1) :: List.replicate n (.audio .drain)

/-- The steps of a thread's task. -/
def works (t n : Nat) : List (RuntimeAction ℚ) := List.replicate n (.audio (.work t))

/-- Thread `t` takes a slot from the queue. -/
def takes (t : Nat) : List (RuntimeAction ℚ) := [.audio (.poll t), .audio (.pop t)]

def twoBuses : List (RuntimeAction ℚ) := .register "bus" busSchedule :: spawnTwo 0

/-- Slot 1 feeds slot 0. -/
def fedByLater : List (RuntimeAction ℚ) :=
  twoBuses ++ routed (busVoice 1 0) (busVoice 0 0) ++ drained 5

/-- The audio thread executes the block itself. -/
def executedAlone : List (RuntimeAction ℚ) :=
  [.audio .seed, .audio .seed, .audio .seed] ++ takes 0 ++ works 0 12 ++ takes 0 ++ works 0 11 ++
    [.audio .leave]

/-- A block begins on slot 1 feeding slot 0 only. -/
def Session.blockFedByLater (s : Session ℚ) : RuntimeAction ℚ → Bool
  | .audio .compute => s.rt.eng.activeList == [0, 1] && s.rt.eng.edges == [(1, 0)]
  | _ => true

theorem fedByLater_ok : Acyclic [(1, 0)] ∧ Countdown.RaceFree [0, 1] [(1, 0)] := by
  refine ⟨.of_lt (fun v => 1 - v) (by simp), fun l₁ v l₂ h hv => ?_⟩
  obtain ⟨u, hu⟩ := hv
  obtain ⟨rfl, rfl⟩ : u = 1 ∧ v = 0 := by simpa using hu
  -- 0 stands first, and 1, which feeds it, after it
  cases l₁ with
  | nil =>
      obtain ⟨-, rfl⟩ := List.cons.inj h
      exact ⟨1, List.mem_singleton.mpr rfl, by simp [Source], .single hu⟩
  | cons x l₁ =>
      obtain ⟨-, h⟩ := List.cons.inj h
      cases l₁ with
      | nil => cases h
      | cons y l₁ => simp at h

theorem Session.blockOk_of_fedByLater {s : Session ℚ} {a : RuntimeAction ℚ}
    (h : s.blockFedByLater a = true) : s.BlockOk a := by
  rintro b rfl rfl - -
  simp only [blockFedByLater, Bool.and_eq_true, beq_iff_eq] at h
  rw [h.1, h.2]
  exact fedByLater_ok

/-- A block of two buses, one feeding the other. -/
theorem block_completes_buses :
    ∃ s : Session ℚ, s.rt.eng.inBlock = true ∧ s.rt.eng.activeList = [0, 1] ∧
      s.rt.eng.NotStuck ∧ s.rt.eng.ExecutedOnce := by
  have meet : allMeet Session.step Session.blockFedByLater twoSlots (fedByLater ++ [.audio .compute])
      = true := by decide +kernel
  obtain ⟨s, hs, h⟩ := exists_of_runs Session.step twoSlots (fedByLater ++ [.audio .compute])
    (fun s => s.rt.eng.inBlock && s.rt.eng.activeList == [0, 1]) (by decide +kernel)
  obtain ⟨hin, hlist⟩ : s.rt.eng.inBlock = true ∧ s.rt.eng.activeList = [0, 1] := by simpa using h
  have reached : SessionReaches (.small 2 1 (by decide)) true
      (fun s a => s.blockFedByLater a = true) s := ⟨_, rfl, Reaches.of_runs_meet hs meet⟩
  obtain ⟨notStuck, once, -⟩ :=
    block_completes (fun _ _ => Session.blockOk_of_fedByLater) reached hin
  exact ⟨s, hin, hlist, notStuck, once⟩

/-- Each bus feeds the other, and the block is seeded. -/
def fedInCycle : List (RuntimeAction ℚ) :=
  twoBuses ++ routed (busVoice 0 0) (busVoice 1 0) ++ routed (busVoice 1 0) (busVoice 0 0) ++
    drained 6 ++ [.audio .compute, .audio .seed, .audio .seed, .audio .seed]

/-- **A block on a cycle is stuck**: nothing was seeded, and two tasks are left. -/
theorem block_stuck_on_cycle :
    ∃ s : Session ℚ, SessionReaches (.small 2 1 (by decide)) true (fun _ _ => True) s ∧
      s.rt.eng.inBlock = true ∧ ¬ s.rt.eng.NotStuck := by
  obtain ⟨s, hs, h⟩ := exists_of_runs Session.step twoSlots fedInCycle
    (fun s => s.rt.eng.phase == .helping && s.rt.eng.pool.tasksRemaining == 2 &&
      s.rt.eng.pool.queue == [] && s.rt.eng.pool.workers == 1 &&
      s.rt.eng.pool.threads 0 == .idle && s.rt.eng.pool.threads 1 == .idle) (by decide +kernel)
  simp only [Bool.and_eq_true, beq_iff_eq] at h
  obtain ⟨⟨⟨⟨⟨phase, left⟩, queue⟩, workers⟩, idle₀⟩, idle₁⟩ := h
  have reached : SessionReaches (.small 2 1 (by decide)) true (fun _ _ => True) s :=
    ⟨_, rfl, Reaches.of_runs hs⟩
  have idle : ∀ t, s.rt.eng.pool.threads t = .idle := by
    intro t
    rcases Nat.lt_or_ge 1 t with ht | ht
    · exact Session.idle_past_workers reached t (by rw [workers]; exact ht)
    · interval_cases t
      · exact idle₀
      · exact idle₁
  refine ⟨s, reached, by simp only [Engine.inBlock, phase], fun notStuck => ?_⟩
  rcases notStuck (by rw [left]; decide) with ⟨rest, h⟩ | h | ⟨t, slot, pc, h⟩
  · rw [phase] at h
    cases h
  · exact h queue
  · rw [idle t] at h
    cases h

/-- A block of two buses, executed by the audio thread, leaves what the sequential execution
would have left. -/
theorem parallel_eq_sequential_buses :
    ∃ s s₂ : Session ℚ, s.rt.eng.activeList = [0, 1] ∧
      Reaches Session.step (fun _ _ => True) s s₂ ∧
      ∀ v ∈ s.rt.eng.activeList,
        s₂.rt.eng.mgr.slots v = s.rt.eng.clearMaster.computeSequential.mgr.slots v := by
  have meet : allMeet Session.step Session.blockFedByLater twoSlots fedByLater = true := by
    decide +kernel
  -- the session, the state the block begins in, and the one it ends in
  obtain ⟨s₂, hs₂, hout⟩ := exists_of_runs Session.step twoSlots
    (fedByLater ++ .audio .compute :: executedAlone) (fun s => !s.rt.eng.inBlock)
    (by decide +kernel)
  obtain ⟨s, hs, h⟩ := exists_of_runs Session.step twoSlots fedByLater
    (fun s => s.rt.eng.phase == .draining && s.rt.eng.commandQueue.isEmpty &&
      s.rt.eng.pool.workers == 1 && s.rt.eng.activeList == [0, 1] && s.rt.eng.edges == [(1, 0)] &&
      (s.step (.audio .compute)).any fun s₁ =>
        allMeet Session.step (fun t _ => t.rt.eng.inBlock) s₁ executedAlone) (by decide +kernel)
  simp only [Bool.and_eq_true, beq_iff_eq, List.isEmpty_iff] at h
  obtain ⟨⟨⟨⟨⟨phase, queue⟩, workers⟩, list⟩, edges⟩, h⟩ := h
  obtain ⟨s₁, one, inside⟩ := (Option.any_eq_true _ _).mp h
  have hblock : runs Session.step s₁ executedAlone = some s₂ := (runs_after hs one).symm.trans hs₂
  have block : Reaches Session.step (fun t _ => t.rt.eng.inBlock = true) s₁ s₂ :=
    Reaches.of_runs_meet hblock inside
  have reached : SessionReaches (.small 2 1 (by decide)) true
      (fun s a => s.blockFedByLater a = true) s := ⟨_, rfl, Reaches.of_runs_meet hs meet⟩
  have result := parallel_eq_sequential (fun _ _ => Session.blockOk_of_fedByLater) reached phase
    queue (by rw [workers]; decide) (by rw [list]; decide) (by rw [edges]; exact fedByLater_ok.1)
    (by rw [edges, list]; exact fedByLater_ok.2) one block
  have whole : Reaches Session.step (fun _ _ => True) s s₂ :=
    (Reaches.single trivial one).trans (block.mono fun _ _ _ => trivial)
  exact ⟨s, s₂, list, whole, (result.2 (by simpa using hout)).1⟩

/-! A counter, fed by a bus that is seeded before it. -/

def counterBlueprint : GraphBlueprint ℚ where
  nodes := [Nodes.callCounter]
  names := ["c"]
  inputTerminals := [⟨"in", 0, []⟩]
  outputTerminals := [⟨"out", 0, []⟩]

/-- The bus of slot 0 feeds the counter of slot 1. -/
def fedByEarlier : List (RuntimeAction ℚ) :=
  .register "bus" busSchedule :: .register "counter" (.single counterBlueprint 1) ::
    spawnTwo 1 ++ routed (busVoice 0 0) (busVoice 1 1) ++ drained 5

/-- The worker executes the bus and pushes the counter before the audio thread looks at the
counter and, finding its count at zero, pushes it too. -/
def pushedTwice : List (RuntimeAction ℚ) :=
  [.audio .seed] ++ takes 1 ++ works 1 12 ++ [.audio .seed, .audio .seed] ++ takes 1 ++ takes 0 ++
    works 0 11 ++ works 1 11 ++ [.audio .leave]

/-- What the nodes of the instance at `slot` have counted. -/
def Engine.counted (e : Engine ℚ) (slot : Nat) : Option (List (List Nat)) :=
  (e.mgr.slots slot).inst.map fun g => g.stateRegion.map StateBlock.words

/-- **An acyclic block that executes an instance twice**: the counter ends at 2, and the
sequential execution would have left it at 1. -/
theorem counter_executed_twice :
    ∃ s s₁ s₂ : Session ℚ,
      SessionReaches (.small 2 1 (by decide)) true (fun _ _ => True) s ∧
      s.rt.eng.activeList = [0, 1] ∧ Acyclic s.rt.eng.edges ∧
      s.step (.audio .compute) = some s₁ ∧
      Reaches Session.step (fun t _ => t.rt.eng.inBlock = true) s₁ s₂ ∧
      s₂.rt.eng.inBlock = false ∧
      s₂.rt.eng.mgr.slots 1 ≠ s.rt.eng.clearMaster.computeSequential.mgr.slots 1 := by
  obtain ⟨s₂, hs₂, h₂⟩ := exists_of_runs Session.step twoSlots
    (fedByEarlier ++ .audio .compute :: pushedTwice)
    (fun s => !s.rt.eng.inBlock && s.rt.eng.counted 1 == some [[2]]) (by decide +kernel)
  obtain ⟨s, hs, h⟩ := exists_of_runs Session.step twoSlots fedByEarlier
    (fun s => s.rt.eng.activeList == [0, 1] && s.rt.eng.edges == [(0, 1)] &&
      s.rt.eng.clearMaster.computeSequential.counted 1 == some [[1]] &&
      (s.step (.audio .compute)).any fun s₁ =>
        allMeet Session.step (fun t _ => t.rt.eng.inBlock) s₁ pushedTwice) (by decide +kernel)
  simp only [Bool.and_eq_true, beq_iff_eq, Bool.not_eq_true'] at h h₂
  obtain ⟨⟨⟨list, edges⟩, once⟩, h⟩ := h
  obtain ⟨s₁, one, inside⟩ := (Option.any_eq_true _ _).mp h
  have hblock : runs Session.step s₁ pushedTwice = some s₂ := (runs_after hs one).symm.trans hs₂
  refine ⟨s, s₁, s₂, ⟨_, rfl, Reaches.of_runs hs⟩, list, ?_, one,
    Reaches.of_runs_meet hblock inside, h₂.1, fun same => ?_⟩
  · rw [edges]
    exact .of_lt (fun v => v) (by simp)
  · have twice := h₂.2
    rw [Engine.counted, same, ← Engine.counted, once] at twice
    cases twice

end Xrune
