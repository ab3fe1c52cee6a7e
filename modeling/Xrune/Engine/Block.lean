import Xrune.Engine.Order

/-!
# Engine — the block of `compute_parallel`

From the start of `compute_parallel` to its end the threads execute the active instances as
tasks.  Seen through the routing graph, the block is a countdown board: the counters are `dep`,
the queue is the pool's, and the stage of a slot is where the thread that runs it stands
(`Tracks`).  A step of a thread is a step of the board or leaves it, so the board's invariant
holds throughout a block that starts on an acyclic graph with a race-free seeding order; and
outside a block the pool is quiet (`BlockInv`).
-/

namespace Xrune

open Countdown (Board Stage)

variable {α : Type}

/-! ### The board of a block -/

/-- The stage of a slot a thread is executing; `seg` gives the edges among the routes the
thread has still to look at. -/
def TaskPc.stage (seg : List ActiveRoute → List (Nat × Nat)) : TaskPc → Stage Nat
  | .zero | .gather _ | .process => .body
  | .release rest  => .releasing (seg rest)
  | .push dst rest => .pushing dst (seg rest)
  | .finish        => .releasing []

theorem TaskPc.stage_ne (seg : List ActiveRoute → List (Nat × Nat)) (pc : TaskPc) :
    pc.stage seg ≠ .idle ∧ pc.stage seg ≠ .done := by
  cases pc <;> simp [stage]

/-- The stages are those of the slots the pool's threads execute and have executed. -/
structure Tracks (seg : List ActiveRoute → List (Nat × Nat)) (p : WorkerPool)
    (stage : Nat → Stage Nat) : Prop where
  running : ∀ t slot pc, p.threads t = .running slot pc → stage slot = pc.stage seg
  one : ∀ t t' slot pc pc', p.threads t = .running slot pc → p.threads t' = .running slot pc' →
    t = t'
  owned : ∀ slot, stage slot ≠ .idle → stage slot ≠ .done →
    ∃ t pc, p.threads t = .running slot pc
  nodup : p.processed.Nodup
  processed : ∀ slot, slot ∈ p.processed ↔ (stage slot).HasRun

namespace Tracks

variable {seg : List ActiveRoute → List (Nat × Nat)} {p : WorkerPool}
  {stage : Nat → Stage Nat} {t slot : Nat} {pc : TaskPc}

/-- A thread that executes no task changes no stage, whatever loop it is in. -/
theorem loops (T : Tracks seg p stage) {s : ThreadState}
    (old : ∀ slot pc, p.threads t ≠ .running slot pc) (new : ∀ slot pc, s ≠ .running slot pc) :
    Tracks seg { p with threads := Function.update p.threads t s } stage := by
  have same : ∀ {t' slot pc}, Function.update p.threads t s t' = .running slot pc →
      p.threads t' = .running slot pc := by
    intro t' slot pc h
    by_cases ht : t' = t
    · subst ht
      rw [Function.update_self] at h
      exact absurd h (new slot pc)
    · rwa [Function.update_of_ne ht] at h
  exact
    { T with
      running := fun t' slot pc h => T.running t' slot pc (same h)
      one := fun t₁ t₂ slot pc pc' h h' => T.one t₁ t₂ slot pc pc' (same h) (same h')
      owned := fun slot h h' => by
        obtain ⟨t', pc, ht'⟩ := T.owned slot h h'
        have hne : t' ≠ t := fun h => old slot pc (h ▸ ht')
        exact ⟨t', pc, (Function.update_of_ne hne _ _).trans ht'⟩ }

/-- A thread goes on with its task, or is done with it: the stage of its slot changes. -/
theorem goes (T : Tracks seg p stage) (thread : p.threads t = .running slot pc)
    {s : ThreadState} {st : Stage Nat} {dep : Nat → Int} {queue processed : List Nat} {n : Int}
    (new : (∃ pc', s = .running slot pc' ∧ st = pc'.stage seg) ∨
      (∀ slot pc, s ≠ .running slot pc) ∧ st = .done)
    (nodup : processed.Nodup)
    (mem : ∀ x, x ∈ processed ↔ (Function.update stage slot st x).HasRun) :
    Tracks seg
      { p with
        dep := dep, queue := queue, processed := processed, tasksRemaining := n
        threads := Function.update p.threads t s }
      (Function.update stage slot st) := by
  -- another thread executes another slot
  have other : ∀ {t' x pc'}, t' ≠ t → p.threads t' = .running x pc' → x ≠ slot := by
    rintro t' x pc' ht h rfl
    exact ht (T.one t' t x pc' pc h thread)
  have cases : ∀ {t' x pc'}, Function.update p.threads t s t' = .running x pc' →
      (t' = t ∧ x = slot ∧ st = pc'.stage seg) ∨ (t' ≠ t ∧ p.threads t' = .running x pc') := by
    intro t' x pc' h
    by_cases ht : t' = t
    · subst ht
      rw [Function.update_self] at h
      rcases new with ⟨pc'', hs, hst⟩ | ⟨hs, -⟩
      · obtain ⟨rfl, rfl⟩ := ThreadState.running.inj (hs.symm.trans h)
        exact .inl ⟨rfl, rfl, hst⟩
      · exact absurd h (hs x pc')
    · rw [Function.update_of_ne ht] at h
      exact .inr ⟨ht, h⟩
  exact
    { running := by
        intro t' x pc' h
        rcases cases h with ⟨-, rfl, hst⟩ | ⟨ht, h⟩
        · simpa using hst
        · simpa [Function.update_of_ne (other ht h)] using T.running t' x pc' h
      one := by
        intro t₁ t₂ x pc₁ pc₂ h₁ h₂
        rcases cases h₁ with ⟨e₁, hx, -⟩ | ⟨ht₁, g₁⟩
        · rcases cases h₂ with ⟨e₂, -⟩ | ⟨ht₂, g₂⟩
          · rw [e₁, e₂]
          · exact absurd hx (other ht₂ g₂)
        · rcases cases h₂ with ⟨-, hx, -⟩ | ⟨ht₂, g₂⟩
          · exact absurd hx (other ht₁ g₁)
          · exact T.one t₁ t₂ x pc₁ pc₂ g₁ g₂
      owned := by
        intro x h h'
        by_cases hx : x = slot
        · subst hx
          rcases new with ⟨pc', rfl, -⟩ | ⟨-, rfl⟩
          · exact ⟨t, pc', by simp⟩
          · exact absurd (by simp) h'
        · obtain ⟨t', pc', ht'⟩ := T.owned x (by simpa [Function.update_of_ne hx] using h)
            (by simpa [Function.update_of_ne hx] using h')
          have hne : t' ≠ t := by
            rintro rfl
            exact hx (ThreadState.running.inj (ht'.symm.trans thread)).1
          exact ⟨t', pc', (Function.update_of_ne hne _ _).trans ht'⟩
      nodup := nodup
      processed := mem }

/-- A thread goes on within a stage. -/
theorem stays (T : Tracks seg p stage) (thread : p.threads t = .running slot pc) {pc' : TaskPc}
    (same : pc'.stage seg = pc.stage seg) :
    Tracks seg { p with threads := Function.update p.threads t (.running slot pc') } stage := by
  have hupdate : Function.update stage slot (pc'.stage seg) = stage := by
    rw [same, ← T.running t slot pc thread]
    exact Function.update_eq_self slot stage
  have h : Tracks seg { p with threads := Function.update p.threads t (.running slot pc') }
      (Function.update stage slot (pc'.stage seg)) :=
    T.goes thread (.inl ⟨pc', rfl, rfl⟩) T.nodup (by rw [hupdate]; exact T.processed)
  rwa [hupdate] at h

/-- The processed slots are those whose stage has passed the body, also when the stage of one of
them changes behind it. -/
theorem processed_update (T : Tracks seg p stage) {st : Stage Nat}
    (same : (stage slot).HasRun ↔ st.HasRun) (x : Nat) :
    x ∈ p.processed ↔ (Function.update stage slot st x).HasRun := by
  by_cases hx : x = slot
  · subst hx
    rw [Function.update_self, ← same]
    exact T.processed x
  · rw [Function.update_of_ne hx]
    exact T.processed x

/-- A thread takes up the slot it popped. -/
theorem pops (T : Tracks seg p stage) (thread : p.threads t = .polling) {q : List Nat}
    (idle : stage slot = .idle) :
    Tracks seg
      { p with
        queue := q
        threads := Function.update p.threads t (.running slot .zero) }
      (Function.update stage slot .body) := by
  have other : ∀ {t' x pc'}, p.threads t' = .running x pc' → t' ≠ t ∧ x ≠ slot := by
    intro t' x pc' h
    refine ⟨?_, ?_⟩
    · rintro rfl
      rw [thread] at h
      cases h
    · rintro rfl
      exact (pc'.stage_ne seg).1 ((T.running t' x pc' h).symm.trans idle)
  have cases : ∀ {t' x pc'}, Function.update p.threads t (.running slot .zero) t'
      = .running x pc' → (t' = t ∧ x = slot ∧ pc' = .zero) ∨ p.threads t' = .running x pc' := by
    intro t' x pc' h
    by_cases ht : t' = t
    · subst ht
      rw [Function.update_self] at h
      obtain ⟨rfl, rfl⟩ := ThreadState.running.inj h
      exact .inl ⟨rfl, rfl, rfl⟩
    · rw [Function.update_of_ne ht] at h
      exact .inr h
  exact
    { running := by
        intro t' x pc' h
        rcases cases h with ⟨-, rfl, rfl⟩ | h
        · simp [TaskPc.stage]
        · simpa [Function.update_of_ne (other h).2] using T.running t' x pc' h
      one := by
        intro t₁ t₂ x pc₁ pc₂ h₁ h₂
        rcases cases h₁ with ⟨e₁, hx, -⟩ | g₁
        · rcases cases h₂ with ⟨e₂, -⟩ | g₂
          · rw [e₁, e₂]
          · exact absurd hx (other g₂).2
        · rcases cases h₂ with ⟨-, hx, -⟩ | g₂
          · exact absurd hx (other g₁).2
          · exact T.one t₁ t₂ x pc₁ pc₂ g₁ g₂
      owned := by
        intro x h h'
        by_cases hx : x = slot
        · subst hx
          exact ⟨t, .zero, by simp⟩
        · obtain ⟨t', pc', ht'⟩ := T.owned x (by simpa [Function.update_of_ne hx] using h)
            (by simpa [Function.update_of_ne hx] using h')
          exact ⟨t', pc', (Function.update_of_ne (other ht').1 _ _).trans ht'⟩
      nodup := T.nodup
      processed := T.processed_update (by simp [idle, Stage.HasRun]) }

end Tracks

/-! ### The pool in and out of a block -/

namespace Engine

/-- `compute_parallel` is past its start and before its end. -/
def inBlock (e : Engine α) : Bool :=
  match e.phase with
  | .seeding _ | .helping => true
  | _ => false

theorem inBlock_eq_false (e : Engine α) {p : AudioPhase} (hp : e.phase = p)
    (h₁ : ∀ rest, p ≠ .seeding rest) (h₂ : p ≠ .helping) : e.inBlock = false := by
  rw [inBlock, hp]
  cases p <;> first | rfl | exact absurd rfl (h₁ _) | exact absurd rfl h₂

/-- The slots the seeding loop has still to look at. -/
def toSeed (e : Engine α) : List Nat :=
  match e.phase with
  | .seeding rest => rest
  | _ => []

/-- The board the pool is on, the slots being at `stage`. -/
def board (e : Engine α) (stage : Nat → Stage Nat) : Board Nat :=
  ⟨e.toSeed, e.pool.dep, e.pool.queue, stage, e.pool.tasksRemaining⟩

end Engine

/-- Outside a block no thread executes a task and the queue is empty; inside one the pool is a
board on the routing graph, acyclic and seeded race-free, that keeps its invariant. -/
structure BlockInv (e : Engine α) : Prop where
  fits : e.mgr.capacity ≤ e.pool.queueCapacity
  workers : ∀ t, e.pool.workers < t → e.pool.threads t = .idle
  quiet : e.inBlock = false → e.pool.queue = [] ∧
    ∀ t slot pc, e.pool.threads t ≠ .running slot pc
  acyclic : e.inBlock = true → Acyclic e.edges
  raceFree : e.inBlock = true → Countdown.RaceFree e.activeList e.edges
  board : e.inBlock = true → ∃ stage, Tracks e.edgesOf e.pool stage ∧
    Countdown.Inv e.activeList e.edges (e.board stage)

namespace BlockInv

variable {e e' : Engine α}

theorem init [Sample α] {cfg : EngineConfig} (h : Engine.init cfg = some e) : BlockInv e := by
  unfold Engine.init at h
  split at h
  · cases h
  · obtain rfl := Option.some.inj h
    refine ⟨?_, fun t _ => rfl, fun _ => ⟨rfl, fun t slot pc h => (by cases h)⟩,
      fun h => (by cases h), fun h => (by cases h), fun h => (by cases h)⟩
    exact (Nat.le_max_left _ _).trans (Nat.le_pow_clog (by decide) _)

/-- The graph, the phase and the pool are the same. -/
theorem congr (B : BlockInv e) (G : e.SameGraph e') (hphase : e'.phase = e.phase)
    (hpool : e'.pool = e.pool) : BlockInv e' := by
  have hin : e'.inBlock = e.inBlock := by simp only [Engine.inBlock, hphase]
  have hboard : e'.board = e.board := by
    funext stage
    simp only [Engine.board, Engine.toSeed, hphase, hpool]
  exact
    { fits := by rw [G.capacity, hpool]; exact B.fits
      workers := by rw [hpool]; exact B.workers
      quiet := by rw [hin, hpool]; exact B.quiet
      acyclic := by rw [hin, G.edges]; exact B.acyclic
      raceFree := by rw [hin, G.edges, G.activeList]; exact B.raceFree
      board := by rw [hin, hboard, hpool, G.edgesOf, G.edges, G.activeList]; exact B.board }

/-- Outside a block, the pool left as it is. -/
theorem outside (B : BlockInv e) (hin : e.inBlock = false) (hin' : e'.inBlock = false)
    (hcap : e'.mgr.capacity = e.mgr.capacity) (hpool : e'.pool = e.pool) : BlockInv e' where
  fits := by rw [hcap, hpool]; exact B.fits
  workers := by rw [hpool]; exact B.workers
  quiet _ := by rw [hpool]; exact B.quiet hin
  acyclic h := by rw [hin'] at h; cases h
  raceFree h := by rw [hin'] at h; cases h
  board h := by rw [hin'] at h; cases h

/-- Inside a block, a step of the board or none. -/
theorem inside (B : BlockInv e) (wf : Countdown.WellFormed e.activeList e.edges)
    (hin : e.inBlock = true) (hin' : e'.inBlock = true) (G : e.SameGraph e')
    {stage : Nat → Stage Nat} (I : Countdown.Inv e.activeList e.edges (e.board stage))
    (stage' : Nat → Stage Nat) (T : Tracks e.edgesOf e'.pool stage')
    (hstep : e'.board stage' = e.board stage ∨
      Countdown.Step e.edges (e.board stage) (e'.board stage'))
    (hcap : e'.pool.queueCapacity = e.pool.queueCapacity)
    (hworkers : ∀ t, e'.pool.workers < t → e'.pool.threads t = .idle) : BlockInv e' where
  fits := by rw [G.capacity, hcap]; exact B.fits
  workers := hworkers
  quiet h := by rw [hin'] at h; cases h
  acyclic _ := G.edges ▸ B.acyclic hin
  raceFree _ := by rw [G.edges, G.activeList]; exact B.raceFree hin
  board _ := by
    rw [G.edgesOf, G.edges, G.activeList]
    refine ⟨stage', T, ?_⟩
    rcases hstep with h | h
    · rw [h]; exact I
    · exact I.step wf (B.raceFree hin) h

/-- A thread that is not idle is one of the pool's. -/
theorem le_workers (B : BlockInv e) {t : Nat} (thread : e.pool.threads t ≠ .idle) :
    t ≤ e.pool.workers := by
  by_contra h
  exact thread (B.workers t (not_le.mp h))

/-- One of the pool's threads changes its state. -/
theorem workers_update (B : BlockInv e) {t : Nat} {s : ThreadState} (ht : t ≤ e.pool.workers) :
    ∀ t', e.pool.workers < t' → Function.update e.pool.threads t s t' = .idle := by
  intro t' ht'
  have hne : t' ≠ t := by omega
  rw [Function.update_of_ne hne]
  exact B.workers t' ht'

/-- There is room in the queue for a slot that is not in it. -/
theorem pushReady_eq (B : BlockInv e) (S : SlotInv e.tables) {stage : Nat → Stage Nat}
    (I : Countdown.Inv e.activeList e.edges (e.board stage)) {slot : Nat}
    (hslot : slot ∈ e.activeList) (hout : slot ∉ e.pool.queue) :
    e.pool.pushReady slot = { e.pool with queue := e.pool.queue ++ [slot] } := by
  have hsub : e.activeList.Subperm (List.range e.mgr.capacity) :=
    S.active_nodup.subperm fun s hs => List.mem_range.mpr (S.lt_of_active hs)
  have hlen : e.activeList.length ≤ e.mgr.capacity := by simpa using hsub.length_le
  have hlt : e.pool.queue.length < e.activeList.length := I.ready_length_lt hslot hout
  exact if_pos (by have := B.fits; omega)

end BlockInv

/-! ### The steps that leave the pool -/

namespace Engine

theorem le_workers_of_mayPoll {e : Engine α} {t : Nat} (test : e.mayPoll t = true) :
    t ≤ e.pool.workers := by
  unfold mayPoll at test
  split at test
  next h => omega
  · simp only [Bool.and_eq_true, decide_eq_true_eq] at test
    exact test.1

section Pool

variable [Sample α] {e e' : Engine α}

@[simp] theorem pool_gatherRoute (e : Engine α) (slot : Nat) (r : ActiveRoute) :
    (e.gatherRoute slot r).pool = e.pool := by
  unfold gatherRoute
  split <;> rfl

@[simp] theorem pool_executeSlot (e : Engine α) (slot : Nat) : (e.executeSlot slot).pool = e.pool :=
  foldl_keeps pool (fun e r => pool_gatherRoute e slot r) _ _

@[simp] theorem pool_computeSequential (e : Engine α) : e.computeSequential.pool = e.pool :=
  foldl_keeps pool (fun e slot => pool_executeSlot e slot) _ _

@[simp] theorem pool_sumToMaster (e : Engine α) : e.sumToMaster.pool = e.pool := by
  refine foldl_keeps pool (fun e r => ?_) _ e
  split
  · rfl
  · unfold sumTerminalToMaster
    split
    · rfl
    · exact foldl_keeps pool
        (fun e c => foldl_keeps pool (fun e i => (rfl : (e.addToMaster _ _ _ _).pool = _)) _ e) _ e

omit [Sample α] in
@[simp] theorem pool_releaseSlot (e : Engine α) (slot : Nat) (why : EndReason) :
    (e.releaseSlot slot why).pool = e.pool := by
  unfold releaseSlot tryEnqueueTelemetry
  split <;> rfl

@[simp] theorem pool_drainCommand (e : Engine α) (cmd : CommandEvent α) :
    (e.drainCommand cmd).pool = e.pool := by
  unfold drainCommand
  cases cmd.type with
  | activate => dsimp only; split <;> rfl
  | kill => dsimp only; split <;> first | exact pool_releaseSlot _ _ _ | rfl
  | setParameter => dsimp only; split <;> rfl
  | connect => unfold addRoute; dsimp only; split_ifs <;> rfl
  | disconnect => rfl

omit [Sample α] in
/-- `reclaim` and `create` keep what a block is made of. -/
theorem reclaimOne_keeps {v : VoiceEnd} (h : e.reclaimOne = some (v, e')) :
    e.SameGraph e' ∧ e'.phase = e.phase ∧ e'.pool = e.pool := by
  unfold reclaimOne at h
  split at h
  · cases h
  next ev rest _ =>
    obtain ⟨-, rfl⟩ := Prod.mk.inj (Option.some.inj h)
    refine ⟨⟨?_, rfl, rfl, rfl⟩, rfl, rfl⟩
    simp only [InstanceManager.recycle]
    split <;> rfl

theorem create_keeps {sched : CompiledSchedule α} {life : LifetimePolicy α}
    {init : List (InitialParam α)} {h : InstanceHandle}
    (hc : e.create sched life init = some (h, e')) :
    e.SameGraph e' ∧ e'.phase = e.phase ∧ e'.pool = e.pool := by
  obtain ⟨idx, rest, -, -, ht⟩ := tables_create hc
  have hpool : e'.phase = e.phase ∧ e'.pool = e.pool := by
    unfold create at hc
    split at hc
    · cases hc
    · obtain ⟨-, rfl⟩ := Prod.mk.inj (Option.some.inj hc)
      exact ⟨rfl, rfl⟩
  exact ⟨⟨congrArg (fun T => T.pool.capacity) ht, congrArg Tables.activeGen ht,
    congrArg Tables.activeList ht, congrArg Tables.routes ht⟩, hpool⟩

end Pool

end Engine

/-! ### The steps of a block -/

namespace BlockInv

variable [Sample α] {e e' : Engine α}

/-- The block begins on the board that counts every edge. -/
theorem begins (B : BlockInv e) (S : SlotInv e.tables) (hin : e.inBlock = false)
    (acyclic : Acyclic e.edges) (raceFree : Countdown.RaceFree e.activeList e.edges) :
    BlockInv e.clearMaster.beginParallel := by
  have G : e.SameGraph e.clearMaster.beginParallel := ⟨rfl, rfl, rfl, rfl⟩
  have GC : e.SameGraph e.clearMaster := ⟨rfl, rfl, rfl, rfl⟩
  have none := (B.quiet hin).2
  have hdep : ∀ v ∈ e.activeList, e.clearMaster.inDegrees e.pool.dep v
      = (e.edges.countP fun x => x.2 = v : Nat) := by
    intro v hv
    rw [← GC.edges]
    exact e.clearMaster.inDegrees_eq _ hv
  exact
    { fits := B.fits
      workers := B.workers
      quiet := fun h => by cases h
      acyclic := fun _ => G.edges ▸ acyclic
      raceFree := fun _ => by rw [G.edges]; exact raceFree
      board := fun _ => by
        rw [G.edges]
        have hboard : e.clearMaster.beginParallel.board (fun _ => .idle)
            = .start e.activeList (e.clearMaster.inDegrees e.pool.dep) :=
          congrArg (fun q => (⟨e.activeList, _, q, fun _ => .idle, e.activeList.length⟩ : Board Nat))
            (B.quiet hin).1
        refine ⟨fun _ => .idle, ?_, hboard ▸ Countdown.Inv.start (e.wellFormed S) hdep⟩
        exact
          { running := fun t slot pc h => absurd h (none t slot pc)
            one := fun t t' slot pc pc' h => absurd h (none t slot pc)
            owned := fun slot h => absurd rfl h
            nodup := List.nodup_nil
            processed := fun slot => by
              constructor
              · exact fun h => absurd h List.not_mem_nil
              · exact fun h => h.elim } }

omit [Sample α] in
/-- A turn of the seeding loop. -/
theorem seeds (B : BlockInv e) (S : SlotInv e.tables) {slot : Nat} {rest : List Nat}
    (phase : e.phase = .seeding (slot :: rest)) : BlockInv (e.seedSlot slot rest) := by
  have hin : e.inBlock = true := by simp only [Engine.inBlock, phase]
  have hseed : e.toSeed = slot :: rest := by simp only [Engine.toSeed, phase]
  have wf := e.wellFormed S
  obtain ⟨stage, T, I⟩ := B.board hin
  have hbs : (e.board stage).seeds = slot :: rest := hseed
  have hslot : slot ∈ e.activeList := I.seeds.subset (hbs ▸ List.mem_cons_self)
  by_cases h0 : e.pool.dep slot = 0
  · have hsource := I.source_of_seed wf (B.raceFree hin) hbs h0
    have hout : slot ∉ e.pool.queue := fun h =>
      (I.ready slot h).2.2.2 (hbs ▸ List.mem_cons_self) hsource
    have heq : e.seedSlot slot rest =
        { e with
          pool := { e.pool with queue := e.pool.queue ++ [slot] }
          phase := .seeding rest } := by
      simp only [Engine.seedSlot, h0, if_true, B.pushReady_eq S I hslot hout]
    rw [heq]
    exact B.inside wf hin rfl ⟨rfl, rfl, rfl, rfl⟩ I _ { T with }
      (.inr (.seedReady hbs h0)) rfl B.workers
  · have heq : e.seedSlot slot rest = { e with phase := .seeding rest } := by
      simp only [Engine.seedSlot, h0, if_false]
    rw [heq]
    exact B.inside wf hin rfl ⟨rfl, rfl, rfl, rfl⟩ I _ T (.inr (.seedBlocked hbs h0)) rfl B.workers

omit [Sample α] in
/-- A thread takes a slot from the queue. -/
theorem pops (B : BlockInv e) (S : SlotInv e.tables) {t slot : Nat} {q : List Nat}
    (thread : e.pool.threads t = .polling) (queue : e.pool.queue = slot :: q) :
    BlockInv ({ e with pool := { e.pool with queue := q } }.moveTo t (.running slot .zero)) := by
  have hin : e.inBlock = true := by
    by_contra h
    have := (B.quiet (by simpa using h)).1
    rw [queue] at this
    cases this
  obtain ⟨stage, T, I⟩ := B.board hin
  have hready : (e.board stage).ready = slot :: q := queue
  have hidle := (I.ready slot (hready ▸ List.mem_cons_self)).2.1
  exact B.inside (e.wellFormed S) hin hin ⟨rfl, rfl, rfl, rfl⟩ I _ (T.pops thread hidle)
    (.inr (.pop hready)) rfl (B.workers_update (B.le_workers (by simp [thread])))

/-- A thread goes on with its task. -/
theorem works (B : BlockInv e) (S : SlotInv e.tables) {t slot : Nat} {pc : TaskPc}
    (thread : e.pool.threads t = .running slot pc) : BlockInv (e.work t slot pc) := by
  have hin : e.inBlock = true := by
    by_contra h
    exact (B.quiet (by simpa using h)).2 t slot pc thread
  obtain ⟨stage, T, I⟩ := B.board hin
  have wf := e.wellFormed S
  have hstage := T.running t slot pc thread
  have hworkers : ∀ {s : ThreadState}, ∀ t', e.pool.workers < t' →
      Function.update e.pool.threads t s t' = .idle :=
    B.workers_update (B.le_workers (by simp [thread]))
  have hphase := EngineInv.phase_work e t slot pc
  have hin' : (e.work t slot pc).inBlock = true := by rw [Engine.inBlock, hphase]; exact hin
  have hseed : (e.work t slot pc).toSeed = e.toSeed := by
    simp only [Engine.toSeed, hphase]
  have G : e.SameGraph (e.work t slot pc) := .of_tables (Engine.tables_work e t slot pc)
  -- within a stage the board stands still
  have still : ∀ (pc' : TaskPc), pc'.stage e.edgesOf = pc.stage e.edgesOf →
      (e.work t slot pc).pool
        = { e.pool with threads := Function.update e.pool.threads t (.running slot pc') } →
      BlockInv (e.work t slot pc) := by
    intro pc' hsame hpool
    refine B.inside wf hin hin' G I stage ?_ (.inl ?_) (by rw [hpool])
      (by rw [hpool]; exact hworkers)
    · rw [hpool]
      exact T.stays thread hsame
    · simp only [Engine.board, hseed, hpool]
  cases pc with
  | zero => exact still (.gather e.routes) rfl rfl
  | gather rest =>
      cases rest with
      | nil => exact still .process rfl rfl
      | cons r rest =>
          refine still (.gather rest) rfl ?_
          simp only [Engine.work, Engine.moveTo, Engine.pool_gatherRoute]
  | process =>
      have hnot : slot ∉ e.pool.processed := by
        rw [T.processed, hstage]
        exact id
      refine B.inside wf hin hin' G I (Function.update stage slot (.releasing e.edges))
        ?_ (.inr (.run hstage)) rfl hworkers
      refine T.goes thread (.inl ⟨_, rfl, rfl⟩)
        (T.nodup.append (List.nodup_singleton _) (List.disjoint_singleton.mpr hnot)) fun x => ?_
      by_cases hx : x = slot
      · subst hx
        simp [Stage.HasRun]
      · simp [hx, T.processed]
  | release rest =>
      cases rest with
      | nil => exact still .finish rfl rfl
      | cons r rest =>
          have hrun : (stage slot).HasRun := by rw [hstage]; trivial
          by_cases hfeeds : e.feeds r = true
          · have hseg : stage slot = .releasing ((r.srcSlot, r.dstSlot) :: e.edgesOf rest) := by
              rw [hstage, TaskPc.stage, Engine.edgesOf_cons, if_pos hfeeds]
            have hlive : ¬ (r.toMaster = true ∨ (!e.routeLive r) = true) := by
              simp only [Engine.feeds, Bool.and_eq_true, Bool.not_eq_true'] at hfeeds
              simp [hfeeds.1, hfeeds.2]
            by_cases hsrc : r.srcSlot = slot
            · have hwork : e.work t slot (.release (r :: rest)) =
                  { e with pool := { e.pool with
                      dep := Function.update e.pool.dep r.dstSlot (e.pool.dep r.dstSlot - 1)
                      threads := Function.update e.pool.threads t (.running slot
                        (if e.pool.dep r.dstSlot = 1 then .push r.dstSlot rest
                          else .release rest)) } } :=
                if_neg (by tauto)
              rw [hwork] at G hin' ⊢
              rw [hsrc] at hseg
              refine B.inside wf hin hin' G I (Function.update stage slot
                (if e.pool.dep r.dstSlot = 1 then .pushing r.dstSlot (e.edgesOf rest)
                  else .releasing (e.edgesOf rest))) ?_ (.inr (.release hseg)) rfl hworkers
              refine T.goes thread (.inl ⟨_, rfl, ?_⟩) T.nodup (T.processed_update ?_)
              · split <;> rfl
              · split <;> exact iff_of_true hrun trivial
            · have hwork : e.work t slot (.release (r :: rest))
                  = e.moveTo t (.running slot (.release rest)) := if_pos (by tauto)
              rw [hwork] at G hin' ⊢
              exact B.inside wf hin hin' G I _
                (T.goes thread (.inl ⟨.release rest, rfl, rfl⟩) T.nodup
                  (T.processed_update (iff_of_true hrun trivial)))
                (.inr (.skip hseg hsrc)) rfl hworkers
          · have hskip : r.toMaster = true ∨ r.srcSlot ≠ slot ∨ (!e.routeLive r) = true := by
              simp only [Engine.feeds, Bool.and_eq_true, Bool.not_eq_true', not_and] at hfeeds
              by_cases hm : r.toMaster = true
              · exact .inl hm
              · exact .inr (.inr (by simpa using hfeeds (by simpa using hm)))
            refine still (.release rest) ?_ ?_
            · rw [TaskPc.stage, TaskPc.stage, Engine.edgesOf_cons, if_neg hfeeds]
            · simp only [Engine.work, Engine.releaseRoute, if_pos hskip, Engine.moveTo]
  | push dst rest =>
      obtain ⟨hdst, -, -, hout, -⟩ := I.pushing slot dst (e.edgesOf rest) hstage
      have hwork : e.work t slot (.push dst rest) =
          { e with pool := { e.pool with
              queue := e.pool.queue ++ [dst]
              threads := Function.update e.pool.threads t (.running slot (.release rest)) } } := by
        simp only [Engine.work, Engine.moveTo, B.pushReady_eq S I hdst hout]
      rw [hwork] at G hin' ⊢
      have hrun : (stage slot).HasRun := by rw [hstage]; trivial
      exact B.inside wf hin hin' G I _
        (T.goes thread (.inl ⟨.release rest, rfl, rfl⟩) T.nodup
          (T.processed_update (iff_of_true hrun trivial)))
        (.inr (.push hstage)) rfl hworkers
  | finish =>
      have hrun : (stage slot).HasRun := by rw [hstage]; trivial
      exact B.inside wf hin hin' G I _
        (T.goes thread (.inr ⟨fun _ _ h => (by cases h), rfl⟩) T.nodup
          (T.processed_update (iff_of_true hrun trivial)))
        (.inr (.finish hstage)) rfl hworkers

omit [Sample α] in
/-- A thread that executes no task goes round its loop. -/
theorem loops (B : BlockInv e) (S : SlotInv e.tables) {t : Nat} {s : ThreadState}
    (old : ∀ slot pc, e.pool.threads t ≠ .running slot pc)
    (new : ∀ slot pc, s ≠ .running slot pc) (ht : t ≤ e.pool.workers) :
    BlockInv (e.moveTo t s) := by
  have hworkers := B.workers_update (s := s) ht
  by_cases hin : e.inBlock = true
  · obtain ⟨stage, T, I⟩ := B.board hin
    exact B.inside (e.wellFormed S) hin hin ⟨rfl, rfl, rfl, rfl⟩ I _ (T.loops old new) (.inl rfl) rfl
      hworkers
  · have hout : e.inBlock = false := by simpa using hin
    obtain ⟨hqueue, hquiet⟩ := B.quiet hout
    refine ⟨B.fits, hworkers, fun _ => ⟨hqueue, fun t' slot pc h => ?_⟩,
      fun h => absurd h hin, fun h => absurd h hin, fun h => absurd h hin⟩
    have h : Function.update e.pool.threads t s t' = .running slot pc := h
    by_cases htt : t' = t
    · subst htt
      rw [Function.update_self] at h
      exact new slot pc h
    · rw [Function.update_of_ne htt] at h
      exact hquiet t' slot pc h

omit [Sample α] in
/-- The block ends with nothing in the queue and nobody at work. -/
theorem leaves (B : BlockInv e) (phase : e.phase = .helping)
    (drained : e.pool.tasksRemaining ≤ 0) :
    BlockInv { e with pool := { e.pool with blockActive := false }, phase := .computed } := by
  have hin : e.inBlock = true := by simp only [Engine.inBlock, phase]
  obtain ⟨stage, T, I⟩ := B.board hin
  obtain ⟨hready, hquiet⟩ := I.quiet_of_remaining drained
  refine ⟨B.fits, B.workers, fun _ => ⟨hready, fun t slot pc ht => ?_⟩, fun h => (by cases h),
    fun h => (by cases h), fun h => (by cases h)⟩
  have hne := pc.stage_ne e.edgesOf
  rw [← T.running t slot pc ht] at hne
  rcases hquiet slot with h | h
  · exact hne.1 h
  · exact hne.2 h

end BlockInv

/-- A block about to begin is on an acyclic routing graph, and seeded race-free. -/
def Engine.BlockOk (e : Engine α) (a : EngineAction α) : Prop :=
  a = .compute → e.pool.workers ≠ 0 → 2 ≤ e.activeList.length →
    Acyclic e.edges ∧ Countdown.RaceFree e.activeList e.edges

namespace BlockInv

variable [Sample α] {e e' : Engine α}

/-- **Every step keeps the block's invariant**, when each block begins on an acyclic graph that
is seeded race-free. -/
theorem step (B : BlockInv e) (S : SlotInv e.tables) {a : EngineAction α} (ok : e.BlockOk a)
    (h : e.step a = some e') : BlockInv e' := by
  have out := fun {p : AudioPhase} => e.inBlock_eq_false (p := p)
  cases Engine.step_cases h with
  | reclaim ok =>
      obtain ⟨G, hphase, hpool⟩ := Engine.reclaimOne_keeps ok
      exact B.congr G hphase hpool
  | create ok =>
      obtain ⟨G, hphase, hpool⟩ := Engine.create_keeps ok
      exact B.congr G hphase hpool
  | enqueue type => exact B.congr ⟨rfl, rfl, rfl, rfl⟩ rfl rfl
  | raiseFinished valid => exact B.congr ⟨rfl, rfl, rfl, rfl⟩ rfl rfl
  | begin phase => exact B.outside (out phase (by simp) (by simp)) rfl rfl rfl
  | @drain cmd rest phase queue =>
      refine B.outside (out phase (by simp) (by simp)) ?_ ?_ (Engine.pool_drainCommand _ cmd)
      · rw [Engine.inBlock, EngineInv.phase_drainCommand]
        exact out phase (by simp) (by simp)
      · exact Engine.capacity_step h
  | compute phase queue =>
      have hin := out phase (by simp) (by simp)
      by_cases hpar : e.pool.workers ≠ 0 ∧ 2 ≤ e.activeList.length
      · have heq : e.computeBlock = e.clearMaster.beginParallel := if_pos hpar
        obtain ⟨acyclic, raceFree⟩ := ok rfl hpar.1 hpar.2
        rw [heq]
        exact B.begins S hin acyclic raceFree
      · have heq : e.computeBlock = { e.clearMaster.computeSequential with phase := .computed } :=
          if_neg hpar
        rw [heq]
        exact B.outside hin rfl (congrArg (fun T => T.pool.capacity)
          (Engine.tables_computeSequential e.clearMaster))
          (Engine.pool_computeSequential e.clearMaster)
  | seed phase => exact B.seeds S phase
  | seeded phase =>
      have hin : e.inBlock = true := by simp only [Engine.inBlock, phase]
      obtain ⟨stage, T, I⟩ := B.board hin
      refine B.inside (e.wellFormed S) hin rfl ⟨rfl, rfl, rfl, rfl⟩ I _ T (.inl ?_) rfl B.workers
      simp only [Engine.board, Engine.toSeed, phase]
  | leave phase thread drained => exact B.leaves phase drained
  | finish phase =>
      exact B.outside (out phase (by simp) (by simp)) rfl
        (congrArg (fun T => T.pool.capacity) (Engine.tables_finishBlock e))
        (Engine.pool_sumToMaster e)
  | @reap slot why rest phase =>
      refine B.outside (out phase (by simp) (by simp)) ?_ ?_ (Engine.pool_releaseSlot _ slot why)
      · rw [Engine.inBlock, EngineInv.phase_releaseSlot]
      · exact Engine.capacity_step h
  | writeOut phase => exact B.outside (out phase (by simp) (by simp)) rfl rfl rfl
  | @poll t thread test =>
      exact B.loops S (by simp [thread]) (by simp) (Engine.le_workers_of_mayPoll test)
  | @popEmpty t thread queue =>
      exact B.loops S (by simp [thread]) (by simp) (B.le_workers (by simp [thread]))
  | pop thread queue => exact B.pops S thread queue
  | work thread => exact B.works S thread

/-! ### What the invariant gives -/

variable {t slot : Nat} {pc : TaskPc}

omit [Sample α] in
/-- **A block with tasks left is not stuck**: a slot is in the queue, or a thread executes one. -/
theorem not_stuck (B : BlockInv e) (S : SlotInv e.tables) (phase : e.phase = .helping)
    (left : 0 < e.pool.tasksRemaining) :
    e.pool.queue ≠ [] ∨ ∃ t slot pc, e.pool.threads t = .running slot pc := by
  have hin : e.inBlock = true := by simp only [Engine.inBlock, phase]
  obtain ⟨stage, T, I⟩ := B.board hin
  rcases I.not_stuck (e.wellFormed S) (B.acyclic hin) left with ⟨v, hi, hd⟩ | hready | hseeds
  · obtain ⟨t, pc, ht⟩ := T.owned v hi hd
    exact .inr ⟨t, v, pc, ht⟩
  · exact .inl hready
  · exact absurd (by simp only [Engine.board, Engine.toSeed, phase]) hseeds

omit [Sample α] in
/-- **Each slot is executed once**: none twice, none that is not active, and all when no task
is left. -/
theorem executed (B : BlockInv e) (hin : e.inBlock = true) :
    e.pool.processed.Nodup ∧ (∀ slot ∈ e.pool.processed, slot ∈ e.activeList) ∧
      0 ≤ e.pool.tasksRemaining ∧
      (e.pool.tasksRemaining = 0 → ∀ slot ∈ e.activeList, slot ∈ e.pool.processed) := by
  obtain ⟨stage, T, I⟩ := B.board hin
  refine ⟨T.nodup, fun slot h => ?_, I.remaining_nonneg, fun h slot hslot => ?_⟩
  · have hrun := (T.processed slot).mp h
    refine (I.moved slot fun hi => ?_).1
    have hi : stage slot = .idle := hi
    rw [hi] at hrun
    exact hrun
  · have hdone : stage slot = .done := I.done_of_remaining (le_of_eq h) hslot
    rw [T.processed, hdone]
    trivial

omit [Sample α] in
/-- A thread executes an active slot, and one whose body has not run while it is in the body. -/
theorem running (B : BlockInv e) (hin : e.inBlock = true)
    (thread : e.pool.threads t = .running slot pc) :
    slot ∈ e.activeList ∧ (slot ∈ e.pool.processed ↔ (pc.stage e.edgesOf).HasRun) := by
  obtain ⟨stage, T, I⟩ := B.board hin
  have hstage := T.running t slot pc thread
  refine ⟨(I.moved slot fun hi => ?_).1, by rw [T.processed, hstage]⟩
  have hi : stage slot = .idle := hi
  rw [hstage] at hi
  exact (pc.stage_ne e.edgesOf).1 hi

omit [Sample α] in
/-- A slot in the queue is active, and no thread executes it or has executed it. -/
theorem queued (B : BlockInv e) (hin : e.inBlock = true) (hq : slot ∈ e.pool.queue) :
    slot ∈ e.activeList ∧ slot ∉ e.pool.processed ∧
      ∀ t pc, e.pool.threads t ≠ .running slot pc := by
  obtain ⟨stage, T, I⟩ := B.board hin
  obtain ⟨hslot, hidle, -⟩ := I.ready slot hq
  have hidle : stage slot = .idle := hidle
  refine ⟨hslot, ?_, fun t pc ht => ?_⟩
  · rw [T.processed, hidle]
    exact id
  · exact (pc.stage_ne e.edgesOf).1 ((T.running t slot pc ht).symm.trans hidle)

omit [Sample α] in
/-- One thread executes a slot. -/
theorem running_inj (B : BlockInv e) (hin : e.inBlock = true) {t' : Nat} {pc' : TaskPc}
    (thread : e.pool.threads t = .running slot pc)
    (thread' : e.pool.threads t' = .running slot pc') : t = t' := by
  obtain ⟨stage, T, -⟩ := B.board hin
  exact T.one t t' slot pc pc' thread thread'

omit [Sample α] in
/-- **A slot is executed after the slots that feed it.** -/
theorem preds_processed (B : BlockInv e) (S : SlotInv e.tables) (hin : e.inBlock = true)
    (thread : e.pool.threads t = .running slot pc) {u : Nat} (hu : (u, slot) ∈ e.edges) :
    u ∈ e.pool.processed := by
  obtain ⟨stage, T, I⟩ := B.board hin
  have hstage := T.running t slot pc thread
  obtain ⟨hslot, hdep⟩ := I.moved slot fun hi => by
    have hi : stage slot = .idle := hi
    rw [hstage] at hi
    exact (pc.stage_ne e.edgesOf).1 hi
  exact (T.processed u).mpr (I.preds_have_run (e.wellFormed S) hslot hdep hu)

end BlockInv

end Xrune
