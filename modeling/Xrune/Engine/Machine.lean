import Xrune.Support.Runs
import Xrune.Engine.Audio

/-!
# Engine — the machine

The engine as a step function.  The control thread's steps are the turns of `reclaim`, the
creation of an instance, and the `enqueue`s; the audio thread's are the parts of `process()`;
a worker's are the test of its loop, the `pop`, and the steps of `execute_instance_task`.  A
run is any interleaving of these.

The queues are the FIFO queues they are meant to be: an operation on one is one step.
-/

namespace Xrune

/-- `raiseFinished` is the host's `mgr.get(h)->finished_flag = true`. -/
inductive EngineAction (α : Type) where
  -- the control thread
  | reclaim
  | create (sched : CompiledSchedule α) (life : LifetimePolicy α) (init : List (InitialParam α))
  | enqueue (cmd : CommandEvent α)
  | raiseFinished (h : InstanceHandle)
  -- the audio thread
  | begin (nFrames : Nat)
  | drain
  | compute
  | seed
  | leave
  | finish
  | reap
  | writeOut
  -- thread `t`: the audio thread when it is 0
  | poll (t : Nat)
  | pop (t : Nat)
  | work (t : Nat)

namespace Engine

variable {α : Type}

/-- Thread `t` goes to `s`. -/
def moveTo (e : Engine α) (t : Nat) (s : ThreadState) : Engine α :=
  { e with pool := { e.pool with threads := Function.update e.pool.threads t s } }

/-- The loop test thread `t` is at succeeds: a worker's `block_active`, the audio thread's
`tasks_remaining > 0`. -/
def mayPoll (e : Engine α) (t : Nat) : Bool :=
  if t = 0 then decide (e.phase = .helping) && decide (0 < e.pool.tasksRemaining)
  else decide (t ≤ e.pool.workers) && e.pool.blockActive

section Steps

variable [Sample α]

/-- Release one route's far end: `dep[dst].fetch_sub(1) == 1`. -/
def releaseRoute (e : Engine α) (t slot : Nat) (r : ActiveRoute) (rest : List ActiveRoute) :
    Engine α :=
  if r.toMaster ∨ r.srcSlot ≠ slot ∨ !e.routeLive r then
    e.moveTo t (.running slot (.release rest))
  else
    let d := e.pool.dep r.dstSlot
    { e with pool := { e.pool with dep := Function.update e.pool.dep r.dstSlot (d - 1) } }.moveTo
      t (.running slot (if d = 1 then .push r.dstSlot rest else .release rest))

/-- One step of `execute_instance_task(slot)` in thread `t`. -/
def work (e : Engine α) (t slot : Nat) : TaskPc → Engine α
  | .zero             => (e.zeroInputs slot).moveTo t (.running slot (.gather e.routes))
  | .gather []        => e.moveTo t (.running slot .process)
  | .gather (r :: rest) => (e.gatherRoute slot r).moveTo t (.running slot (.gather rest))
  | .process          =>
      { e.processSlot slot with
        pool := { e.pool with processed := e.pool.processed ++ [slot] } }.moveTo
        t (.running slot (.release e.routes))
  | .release []       => e.moveTo t (.running slot .finish)
  | .release (r :: rest) => e.releaseRoute t slot r rest
  | .push dst rest    =>
      { e with pool := e.pool.pushReady dst }.moveTo t (.running slot (.release rest))
  | .finish           =>
      { e with pool := { e.pool with tasksRemaining := e.pool.tasksRemaining - 1 } }.moveTo
        t .idle

/-- One turn of the seeding loop.  The load and the push are one step: the counter of a slot
found at zero stays there. -/
def seedSlot (e : Engine α) (slot : Nat) (rest : List Nat) : Engine α :=
  { e with
    pool := if e.pool.dep slot = 0 then e.pool.pushReady slot else e.pool
    phase := .seeding rest }

/-- `process()` once the commands are drained: the master is cleared, and the instances are
computed on this thread or a block of tasks is begun. -/
def computeBlock (e : Engine α) : Engine α :=
  let e := e.clearMaster
  if e.pool.workers ≠ 0 ∧ 2 ≤ e.activeList.length then e.beginParallel
  else { e.computeSequential with phase := .computed }

def step (e : Engine α) : EngineAction α → Option (Engine α)
  | .reclaim => e.reclaimOne.map Prod.snd
  | .create sched life init => (e.create sched life init).map Prod.snd
  | .enqueue cmd => if cmd.type = .activate then none else some (e.enqueue cmd)
  | .raiseFinished h =>
      if e.isValid h then
        some { e with mgr := e.mgr.modifyInst h.slot fun g => { g with finishedFlag := true } }
      else none
  | .begin nFrames =>
      match e.phase with
      | .outside => some
          { e with
            nFrames := nFrames
            parallelNf := min nFrames e.blockSize
            phase := .draining }
      | _ => none
  | .drain =>
      match e.phase, e.commandQueue with
      | .draining, cmd :: rest => some ({ e with commandQueue := rest }.drainCommand cmd)
      | _, _ => none
  | .compute =>
      match e.phase, e.commandQueue with
      | .draining, [] => some e.computeBlock
      | _, _ => none
  | .seed =>
      match e.phase with
      | .seeding (slot :: rest) => some (e.seedSlot slot rest)
      | .seeding []             => some { e with phase := .helping }
      | _ => none
  | .leave =>
      match e.phase, e.pool.threads 0 with
      | .helping, .idle =>
          if 0 < e.pool.tasksRemaining then none
          else some { e with pool := { e.pool with blockActive := false }, phase := .computed }
      | _, _ => none
  | .finish =>
      match e.phase with
      | .computed => some e.finishBlock
      | _ => none
  | .reap =>
      match e.phase with
      | .reaping ((slot, why) :: rest) =>
          some ({ e with phase := .reaping rest }.releaseSlot slot why)
      | _ => none
  | .writeOut =>
      match e.phase with
      | .reaping [] => some { e with phase := .outside, outBuf := e.interleave }
      | _ => none
  | .poll t =>
      match e.pool.threads t with
      | .idle => if e.mayPoll t then some (e.moveTo t .polling) else none
      | _ => none
  | .pop t =>
      match e.pool.threads t with
      | .polling =>
          match e.pool.queue with
          | []        => some (e.moveTo t .idle)
          | slot :: q => some
              ({ e with pool := { e.pool with queue := q } }.moveTo t (.running slot .zero))
      | _ => none
  | .work t =>
      match e.pool.threads t with
      | .running slot pc => some (e.work t slot pc)
      | _ => none

/-- What a step can do: one constructor for each way through the step function, with the
guards on that way. -/
inductive Stepped (e : Engine α) : EngineAction α → Engine α → Prop where
  | reclaim {v : VoiceEnd} {e' : Engine α} (ok : e.reclaimOne = some (v, e')) :
      Stepped e .reclaim e'
  | create {sched : CompiledSchedule α} {life : LifetimePolicy α} {init : List (InitialParam α)}
      {h : InstanceHandle} {e' : Engine α} (ok : e.create sched life init = some (h, e')) :
      Stepped e (.create sched life init) e'
  | enqueue {cmd : CommandEvent α} (type : cmd.type ≠ .activate) :
      Stepped e (.enqueue cmd) (e.enqueue cmd)
  | raiseFinished {h : InstanceHandle} (valid : e.isValid h = true) :
      Stepped e (.raiseFinished h)
        { e with mgr := e.mgr.modifyInst h.slot fun g => { g with finishedFlag := true } }
  | begin {nFrames : Nat} (phase : e.phase = .outside) :
      Stepped e (.begin nFrames)
        { e with
          nFrames := nFrames
          parallelNf := min nFrames e.blockSize
          phase := .draining }
  | drain {cmd : CommandEvent α} {rest : List (CommandEvent α)} (phase : e.phase = .draining)
      (queue : e.commandQueue = cmd :: rest) :
      Stepped e .drain ({ e with commandQueue := rest }.drainCommand cmd)
  | compute (phase : e.phase = .draining) (queue : e.commandQueue = []) :
      Stepped e .compute e.computeBlock
  | seed {slot : Nat} {rest : List Nat} (phase : e.phase = .seeding (slot :: rest)) :
      Stepped e .seed (e.seedSlot slot rest)
  | seeded (phase : e.phase = .seeding []) : Stepped e .seed { e with phase := .helping }
  | leave (phase : e.phase = .helping) (thread : e.pool.threads 0 = .idle)
      (drained : e.pool.tasksRemaining ≤ 0) :
      Stepped e .leave { e with pool := { e.pool with blockActive := false }, phase := .computed }
  | finish (phase : e.phase = .computed) : Stepped e .finish e.finishBlock
  | reap {slot : Nat} {why : EndReason} {rest : List (Nat × EndReason)}
      (phase : e.phase = .reaping ((slot, why) :: rest)) :
      Stepped e .reap ({ e with phase := .reaping rest }.releaseSlot slot why)
  | writeOut (phase : e.phase = .reaping []) :
      Stepped e .writeOut { e with phase := .outside, outBuf := e.interleave }
  | poll {t : Nat} (thread : e.pool.threads t = .idle) (test : e.mayPoll t = true) :
      Stepped e (.poll t) (e.moveTo t .polling)
  | popEmpty {t : Nat} (thread : e.pool.threads t = .polling) (queue : e.pool.queue = []) :
      Stepped e (.pop t) (e.moveTo t .idle)
  | pop {t slot : Nat} {q : List Nat} (thread : e.pool.threads t = .polling)
      (queue : e.pool.queue = slot :: q) :
      Stepped e (.pop t)
        ({ e with pool := { e.pool with queue := q } }.moveTo t (.running slot .zero))
  | work {t slot : Nat} {pc : TaskPc} (thread : e.pool.threads t = .running slot pc) :
      Stepped e (.work t) (e.work t slot pc)

theorem step_cases {e e' : Engine α} {a : EngineAction α} (h : e.step a = some e') :
    Stepped e a e' := by
  cases a with
  | reclaim =>
      obtain ⟨⟨v, _⟩, ok, rfl⟩ := Option.map_eq_some_iff.mp h
      exact .reclaim ok
  | create sched life init =>
      obtain ⟨⟨v, _⟩, ok, rfl⟩ := Option.map_eq_some_iff.mp h
      exact .create ok
  | enqueue cmd =>
      simp only [step, Option.ite_none_left_eq_some] at h
      obtain ⟨type, h⟩ := h
      obtain rfl := Option.some.inj h
      exact .enqueue type
  | raiseFinished hd =>
      simp only [step, Option.ite_none_right_eq_some] at h
      obtain ⟨valid, h⟩ := h
      obtain rfl := Option.some.inj h
      exact .raiseFinished valid
  | begin nFrames =>
      simp only [step] at h
      split at h
      · obtain rfl := Option.some.inj h
        exact .begin ‹_›
      · cases h
  | drain =>
      simp only [step] at h
      split at h
      · obtain rfl := Option.some.inj h
        exact .drain ‹_› ‹_›
      · cases h
  | compute =>
      simp only [step] at h
      split at h
      · obtain rfl := Option.some.inj h
        exact .compute ‹_› ‹_›
      · cases h
  | seed =>
      simp only [step] at h
      split at h
      · obtain rfl := Option.some.inj h
        exact .seed ‹_›
      · obtain rfl := Option.some.inj h
        exact .seeded ‹_›
      · cases h
  | leave =>
      simp only [step] at h
      split at h
      · simp only [Option.ite_none_left_eq_some, not_lt] at h
        obtain ⟨drained, h⟩ := h
        obtain rfl := Option.some.inj h
        exact .leave ‹_› ‹_› drained
      · cases h
  | finish =>
      simp only [step] at h
      split at h
      · obtain rfl := Option.some.inj h
        exact .finish ‹_›
      · cases h
  | reap =>
      simp only [step] at h
      split at h
      · obtain rfl := Option.some.inj h
        exact .reap ‹_›
      · cases h
  | writeOut =>
      simp only [step] at h
      split at h
      · obtain rfl := Option.some.inj h
        exact .writeOut ‹_›
      · cases h
  | poll t =>
      simp only [step] at h
      split at h
      · simp only [Option.ite_none_right_eq_some] at h
        obtain ⟨test, h⟩ := h
        obtain rfl := Option.some.inj h
        exact .poll ‹_› test
      · cases h
  | pop t =>
      simp only [step] at h
      split at h
      · split at h
        · obtain rfl := Option.some.inj h
          exact .popEmpty ‹_› ‹_›
        · obtain rfl := Option.some.inj h
          exact .pop ‹_› ‹_›
      · cases h
  | work t =>
      simp only [step] at h
      split at h
      · obtain rfl := Option.some.inj h
        exact .work ‹_›
      · cases h

end Steps

end Engine

/-- The engine states reached from `init` by steps that each meet `ok`. -/
def EngineReaches {α : Type} [Sample α] (cfg : EngineConfig)
    (ok : Engine α → EngineAction α → Prop) (e : Engine α) : Prop :=
  ∃ e₀, Engine.init cfg = some e₀ ∧ Reaches Engine.step ok e₀ e

end Xrune
