import Xrune.Engine.Block

/-!
# Engine — a block comes to its end

The threads may go round their loops for ever, so a block ends only if the work of a block is
finite.  `rank` is what is left of it: every turn of the seeding loop, every slot taken from the
queue and every step of a task lowers it, and no other step changes it (`rank_step`).  With
`BlockInv.not_stuck` a block whose threads keep taking such steps comes down to no task left.
-/

namespace Xrune

variable {α : Type}

/-- How far a thread is from the end of its task's next part, `n` being the number of routes. -/
def ThreadState.rank (n : Nat) : ThreadState → Nat
  | .idle | .polling => n + 3
  | .running _ .zero => n + 2
  | .running _ (.gather rest) => rest.length + 1
  | .running _ .process => 0
  | .running _ (.release rest) => n + 6 + 2 * rest.length
  | .running _ (.push _ rest) => n + 7 + 2 * rest.length
  | .running _ .finish => n + 4

theorem WorkerPool.pushReady_keeps (p : WorkerPool) (slot : Nat) :
    (p.pushReady slot).workers = p.workers ∧ (p.pushReady slot).threads = p.threads ∧
      (p.pushReady slot).processed = p.processed := by
  unfold pushReady
  split <;> exact ⟨rfl, rfl, rfl⟩

namespace Engine

/-- The turns the seeding loop has still to make, the last one, out of it, included. -/
def seedRank (e : Engine α) : Nat :=
  match e.phase with
  | .seeding rest => rest.length + 1
  | _ => 0

/-- The work left in a block. -/
def rank (e : Engine α) : Nat :=
  e.seedRank + (e.activeList.length - e.pool.processed.length) * (3 * e.routes.length + 7) +
    ∑ t ∈ Finset.range (e.pool.workers + 1), (e.pool.threads t).rank e.routes.length

/-- The step is one of the block's work. -/
def Progresses (e : Engine α) : EngineAction α → Prop
  | .seed | .work _ => True
  | .pop _ => e.pool.queue ≠ []
  | _ => False

/-- One thread's state changes. -/
theorem sum_update (threads : Nat → ThreadState) (s : ThreadState) {t w : Nat} (n : Nat)
    (ht : t ≤ w) :
    ∑ x ∈ Finset.range (w + 1), (Function.update threads t s x).rank n + (threads t).rank n
      = ∑ x ∈ Finset.range (w + 1), (threads x).rank n + s.rank n := by
  have hmem : t ∈ Finset.range (w + 1) := Finset.mem_range.mpr (by omega)
  have others : ∑ x ∈ (Finset.range (w + 1)).erase t, (Function.update threads t s x).rank n
      = ∑ x ∈ (Finset.range (w + 1)).erase t, (threads x).rank n :=
    Finset.sum_congr rfl fun x hx => by
      rw [Function.update_of_ne (Finset.ne_of_mem_erase hx)]
  rw [← Finset.add_sum_erase _ _ hmem, ← Finset.add_sum_erase _ (fun x => (threads x).rank n) hmem,
    others, Function.update_self]
  omega

/-- The rank of a state in which one thread has moved. -/
theorem rank_moved {e e' : Engine α} {t : Nat} {s : ThreadState} (ht : t ≤ e.pool.workers)
    (hphase : e'.phase = e.phase) (htables : e'.tables = e.tables)
    (hworkers : e'.pool.workers = e.pool.workers)
    (hthreads : e'.pool.threads = Function.update e.pool.threads t s) :
    e'.rank + (e.activeList.length - e.pool.processed.length) * (3 * e.routes.length + 7)
        + (e.pool.threads t).rank e.routes.length
      = e.rank + (e.activeList.length - e'.pool.processed.length) * (3 * e.routes.length + 7)
        + s.rank e.routes.length := by
  have hlist : e'.activeList = e.activeList := congrArg Tables.activeList htables
  have hroutes : e'.routes = e.routes := congrArg Tables.routes htables
  have hsum := sum_update e.pool.threads s e.routes.length ht
  have hseed : e'.seedRank = e.seedRank := by simp only [seedRank, hphase]
  simp only [rank, hseed, hlist, hroutes, hworkers, hthreads]
  omega

/-- A thread moves nearer to the end of its part. -/
theorem rank_lt_of_moved {e e' : Engine α} {t : Nat} {s : ThreadState} (ht : t ≤ e.pool.workers)
    (hphase : e'.phase = e.phase) (htables : e'.tables = e.tables)
    (hworkers : e'.pool.workers = e.pool.workers)
    (hthreads : e'.pool.threads = Function.update e.pool.threads t s)
    (hprocessed : e'.pool.processed = e.pool.processed)
    (hlt : s.rank e.routes.length < (e.pool.threads t).rank e.routes.length) :
    e'.rank < e.rank := by
  have h := rank_moved ht hphase htables hworkers hthreads
  rw [hprocessed] at h
  omega

variable [Sample α] {e e' : Engine α}

/-- A step of a task lowers the rank. -/
theorem rank_work (B : BlockInv e) (hin : e.inBlock = true) {t slot : Nat}
    {pc : TaskPc} (thread : e.pool.threads t = .running slot pc) :
    (e.work t slot pc).rank < e.rank := by
  have ht := B.le_workers (by rw [thread]; simp)
  have moved := fun {s : ThreadState} => rank_lt_of_moved (s := s) ht
    (EngineInv.phase_work e t slot pc) (tables_work e t slot pc)
  rw [thread] at moved
  cases pc with
  | zero => exact moved rfl rfl rfl (by simp [ThreadState.rank])
  | gather rest =>
      cases rest with
      | nil => exact moved rfl rfl rfl (by simp [ThreadState.rank])
      | cons r rest =>
          have hpool : (e.work t slot (.gather (r :: rest))).pool
              = { e.pool with
                  threads := Function.update e.pool.threads t (.running slot (.gather rest)) } := by
            simp only [work, moveTo, pool_gatherRoute]
          exact moved (by rw [hpool]) (by rw [hpool]) (by rw [hpool]) (by simp [ThreadState.rank])
  | process =>
      -- the slot is one more of those whose body has run
      have hlen : e.pool.processed.length < e.activeList.length := by
        obtain ⟨hnodup, hsub, -, -⟩ := B.executed hin
        obtain ⟨hslot, hproc⟩ := B.running hin thread
        have hout : slot ∉ e.pool.processed := fun h => hproc.mp h
        have hperm : (slot :: e.pool.processed).Subperm e.activeList :=
          (List.nodup_cons.mpr ⟨hout, hnodup⟩).subperm fun x hx => by
            rcases List.mem_cons.mp hx with rfl | hx
            · exact hslot
            · exact hsub x hx
        exact hperm.length_le
      have h := rank_moved (s := .running slot (.release e.routes)) ht
        (EngineInv.phase_work e t slot .process) (tables_work e t slot .process) rfl rfl
      have hprocessed : (e.work t slot .process).pool.processed.length
          = e.pool.processed.length + 1 := by simp [work, moveTo]
      obtain ⟨k, hk⟩ : ∃ k, e.activeList.length - e.pool.processed.length = k + 1 :=
        ⟨e.activeList.length - e.pool.processed.length - 1, by omega⟩
      rw [hprocessed, thread, show e.activeList.length - (e.pool.processed.length + 1) = k by omega,
        hk] at h
      simp only [ThreadState.rank] at h
      nlinarith
  | release rest =>
      cases rest with
      | nil => exact moved rfl rfl rfl (by simp [ThreadState.rank])
      | cons r rest =>
          by_cases hskip : r.toMaster = true ∨ r.srcSlot ≠ slot ∨ (!e.routeLive r) = true
          · have hwork : e.work t slot (.release (r :: rest))
                = e.moveTo t (.running slot (.release rest)) := if_pos hskip
            rw [hwork] at moved ⊢
            exact moved rfl rfl rfl (by simp [ThreadState.rank])
          · have hwork : e.work t slot (.release (r :: rest)) =
                { e with pool := { e.pool with
                    dep := Function.update e.pool.dep r.dstSlot (e.pool.dep r.dstSlot - 1)
                    threads := Function.update e.pool.threads t (.running slot
                      (if e.pool.dep r.dstSlot = 1 then .push r.dstSlot rest
                        else .release rest)) } } := if_neg hskip
            rw [hwork] at moved ⊢
            refine moved rfl rfl rfl ?_
            split <;> simp only [ThreadState.rank, List.length_cons] <;> omega
  | push dst rest =>
      have hpush := e.pool.pushReady_keeps dst
      exact moved hpush.1 (congrArg (fun f => Function.update f t _) hpush.2.1) hpush.2.2
        (s := .running slot (.release rest)) (by simp [ThreadState.rank])
  | finish => exact moved rfl rfl rfl (by simp [ThreadState.rank])

/-- **The work of a block is finite**: a step of it lowers the rank, and any other step, short of
leaving the block, keeps it. -/
theorem rank_step (B : BlockInv e) (hin : e.inBlock = true)
    {a : EngineAction α} (h : e.step a = some e') (stays : e'.inBlock = true) :
    (e.Progresses a → e'.rank < e.rank) ∧ (¬ e.Progresses a → e'.rank = e.rank) := by
  have same : ¬ e.Progresses a → e'.phase = e.phase → e'.activeList = e.activeList →
      e'.routes = e.routes → e'.pool = e.pool →
      (e.Progresses a → e'.rank < e.rank) ∧ (¬ e.Progresses a → e'.rank = e.rank) := by
    intro hno hphase hlist hroutes hpool
    refine ⟨fun hp => absurd hp hno, fun _ => ?_⟩
    simp only [rank, seedRank, hphase, hlist, hroutes, hpool]
  have out : ∀ {p : AudioPhase}, e.phase = p → (∀ rest, p ≠ .seeding rest) → p ≠ .helping →
      False := fun hp h₁ h₂ => by
    rw [e.inBlock_eq_false hp h₁ h₂] at hin
    cases hin
  -- a thread goes round its loop
  have loops : ∀ {t : Nat} {s : ThreadState}, t ≤ e.pool.workers →
      s.rank e.routes.length = (e.pool.threads t).rank e.routes.length →
        (e.moveTo t s).rank = e.rank := by
    intro t s ht hrank
    have h : (e.moveTo t s).rank + _ + _ = e.rank + _ + _ := rank_moved ht rfl rfl rfl rfl
    have hprocessed : (e.moveTo t s).pool.processed = e.pool.processed := rfl
    rw [hprocessed] at h
    omega
  cases step_cases h with
  | reclaim ok =>
      obtain ⟨G, hphase, hpool⟩ := reclaimOne_keeps ok
      exact same id hphase G.activeList G.routes hpool
  | create ok =>
      obtain ⟨G, hphase, hpool⟩ := create_keeps ok
      exact same id hphase G.activeList G.routes hpool
  | enqueue type => exact same id rfl rfl rfl rfl
  | raiseFinished valid => exact same id rfl rfl rfl rfl
  | @seed slot rest phase =>
      refine ⟨fun _ => ?_, fun hno => absurd trivial hno⟩
      obtain ⟨h₁, h₂, h₃⟩ : (e.seedSlot slot rest).pool.workers = e.pool.workers ∧
          (e.seedSlot slot rest).pool.threads = e.pool.threads ∧
          (e.seedSlot slot rest).pool.processed = e.pool.processed := by
        simp only [seedSlot]
        split
        · exact e.pool.pushReady_keeps slot
        · exact ⟨rfl, rfl, rfl⟩
      have hseed : (e.seedSlot slot rest).seedRank + 1 = e.seedRank := by
        simp only [seedRank, seedSlot, phase, List.length_cons]
      have hroutes : (e.seedSlot slot rest).routes = e.routes := rfl
      have hlist : (e.seedSlot slot rest).activeList = e.activeList := rfl
      simp only [rank, h₁, h₂, h₃, hroutes, hlist]
      omega
  | seeded phase =>
      refine ⟨fun _ => ?_, fun hno => absurd trivial hno⟩
      simp only [rank, seedRank, phase, List.length_nil]
      omega
  | leave phase thread drained => cases stays
  | @poll t thread test =>
      exact ⟨fun hp => hp.elim, fun _ => loops (le_workers_of_mayPoll test) (by rw [thread]; rfl)⟩
  | @popEmpty t thread queue =>
      exact ⟨fun hp => absurd queue hp,
        fun _ => loops (B.le_workers (by simp [thread])) (by rw [thread]; rfl)⟩
  | @pop t slot q thread queue =>
      refine ⟨fun _ => ?_, fun hno => absurd (fun h => by rw [queue] at h; cases h) hno⟩
      exact rank_lt_of_moved (B.le_workers (by simp [thread])) rfl rfl rfl rfl rfl
        (by rw [thread]; simp [ThreadState.rank])
  | work thread => exact ⟨fun _ => rank_work B hin thread, fun hno => absurd trivial hno⟩
  | begin phase => exact (out phase (by simp) (by simp)).elim
  | drain phase queue => exact (out phase (by simp) (by simp)).elim
  | compute phase queue => exact (out phase (by simp) (by simp)).elim
  | finish phase => exact (out phase (by simp) (by simp)).elim
  | reap phase => exact (out phase (by simp) (by simp)).elim
  | writeOut phase => exact (out phase (by simp) (by simp)).elim

end Engine

end Xrune
