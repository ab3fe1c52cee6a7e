import Xrune.Engine.Sentinel
import Xrune.Runtime.Api
import Xrune.Nodes.Standard

/-!
# Runtime — sessions

A session is a runtime together with the history of what the host saw and of what became of
the voices it spawned.  A voice is known by its number in the order of spawning, which, unlike
a handle, is never used again.  The host uses the voices `spawn` returned, and `no_voice`.

The engine of a session takes only steps of the engine, and the commands it is sent carry
generations other than the sentinel's (`SessionReaches.engine`), so that the invariant of the
slots holds of every session.
-/

namespace Xrune

variable {α : Type}

/-- The history: the voices `spawn` returned; the number of the voice last created in a slot;
the voices whose end was recorded, in that order; the voices the records of `ended_scratch`
are about; and the voices and events the callback was called with. -/
structure Session (α : Type) where
  rt : Runtime α
  spawned : List Voice
  occupant : Nat → Nat
  ended : List Nat
  held : List Nat
  reported : List (Nat × VoiceEvent)

namespace Engine

/-- The slot a step of the audio thread releases. -/
def releasing (e : Engine α) : EngineAction α → Option Nat
  | .drain =>
      match e.phase, e.commandQueue with
      | .draining, cmd :: _ =>
          if cmd.type = .kill ∧ e.tables.Matches cmd.handle then some cmd.handle.slot else none
      | _, _ => none
  | .reap =>
      match e.phase with
      | .reaping ((slot, _) :: _) => some slot
      | _ => none
  | _ => none

end Engine

namespace Session

def init [Sample α] (cfg : EngineConfig) (voiceEndCb : Bool) : Option (Session α) :=
  (Runtime.init cfg voiceEndCb).map fun rt => ⟨rt, [], fun _ => 0, [], [], []⟩

/-- The host holds `v`. -/
def Knows (s : Session α) (v : Voice) : Prop := v ∈ s.spawned ∨ v = noVoice

instance (s : Session α) (v : Voice) : Decidable (s.Knows v) :=
  inferInstanceAs (Decidable (_ ∨ _))

/-- The voices the call uses are the host's. -/
def Legal (s : Session α) : RuntimeAction α → Prop
  | .spawn _ opt => s.Knows opt.into
  | .request r => ∀ v ∈ r.voices, s.Knows v
  | _ => True

instance (s : Session α) : (a : RuntimeAction α) → Decidable (s.Legal a)
  | .spawn _ opt => inferInstanceAs (Decidable (s.Knows opt.into))
  | .request r => inferInstanceAs (Decidable (∀ v ∈ r.voices, s.Knows v))
  | .register _ _ | .pump | .advance | .deliver | .finishPump | .audio _ =>
      inferInstanceAs (Decidable True)

/-- The history after the host saw `out`. -/
def observe (s : Session α) : Runtime.Output → Session α
  | .silent => s
  | .spawned v =>
      if v.handle.valid then
        { s with
          spawned := s.spawned ++ [v]
          occupant := Function.update s.occupant v.handle.slot s.spawned.length }
      else s
  | .collected e => { s with held := s.held ++ [s.occupant e.handle.slot] }
  | .event ev =>
      { s with
        held := s.held.tail
        reported := s.reported ++ [(s.held.headD 0, ev)] }

/-- The history after the audio thread's step `a`. -/
def observeEnd (s : Session α) : RuntimeAction α → Session α
  | .audio a =>
      match s.rt.eng.releasing a with
      | some slot => { s with ended := s.ended ++ [s.occupant slot] }
      | none      => s
  | _ => s

def step [Sample α] (s : Session α) (a : RuntimeAction α) : Option (Session α) :=
  if s.Legal a then
    (s.rt.step a).map fun r => { (s.observeEnd a).observe r.2 with rt := r.1 }
  else none

end Session

/-- The sessions reached by steps that each meet `ok`. -/
def SessionReaches [Sample α] (cfg : EngineConfig) (voiceEndCb : Bool)
    (ok : Session α → RuntimeAction α → Prop) (s : Session α) : Prop :=
  ∃ s₀, Session.init cfg voiceEndCb = some s₀ ∧ Reaches Session.step ok s₀ s

/-- What holds of the initial session, and is preserved by a step from a session reached, holds
of every session reached. -/
theorem SessionReaches.invariant [Sample α] {cfg : EngineConfig} {cb : Bool}
    {ok : Session α → RuntimeAction α → Prop} {s : Session α} {P : Session α → Prop}
    (run : SessionReaches cfg cb ok s) (init : ∀ s, Session.init cfg cb = some s → P s)
    (preserved : ∀ s a s', SessionReaches cfg cb ok s → P s → ok s a → s.step a = some s' → P s') :
    P s := by
  obtain ⟨s₀, h₀, run⟩ := run
  induction run with
  | refl => exact init s₀ h₀
  | tail run meets one ih => exact preserved _ _ _ ⟨s₀, h₀, run⟩ ih meets one

/-! ### The engine of a session -/

/-- The command's handles carry generations other than the sentinel's. -/
def CommandEvent.Valid (cmd : CommandEvent α) : Prop :=
  cmd.handle.generation ≠ 0 ∧ (cmd.dest.toMaster = false → cmd.dest.inst.generation ≠ 0)

/-- The command's handles are those of voices with `P`. -/
def CommandEvent.IssuedFor (cmd : CommandEvent α) (P : Voice → Prop) : Prop :=
  (∃ v, P v ∧ cmd.handle = v.handle) ∧
    (cmd.dest.toMaster = false → ∃ w, P w ∧ cmd.dest.inst = w.handle)

theorem CommandEvent.IssuedFor.mono {cmd : CommandEvent α} {P Q : Voice → Prop}
    (h : cmd.IssuedFor P) (sub : ∀ v, P v → Q v) : cmd.IssuedFor Q := by
  obtain ⟨⟨v, hv, he⟩, hdest⟩ := h
  refine ⟨⟨v, sub v hv, he⟩, fun hm => ?_⟩
  obtain ⟨w, hw, he⟩ := hdest hm
  exact ⟨w, sub w hw, he⟩

theorem Voice.generation_ne_zero {v : Voice} (h : v.valid = true) : v.handle.generation ≠ 0 := by
  simp only [Voice.valid, InstanceHandle.valid, Bool.and_eq_true, bne_iff_ne] at h
  exact h.1

/-- By a valid command the sentinel takes no effect. -/
theorem ActiveInv.not_sentinel [Sample α] {e : Engine α} {cmd : CommandEvent α}
    (I : ActiveInv e.tables) (hv : cmd.Valid) (hnon : e.tables.NonDesignating cmd) :
    ¬ e.SentinelTakesEffect cmd := by
  have designates : ∀ {h : InstanceHandle}, h.generation ≠ 0 → e.tables.Matches h →
      e.tables.Designates h := by
    intro h hg hm
    by_contra hd
    exact hg (I.sentinel_of_matches hm hd).1
  unfold Engine.SentinelTakesEffect
  cases htype : cmd.type with
  | activate => exact id
  | kill => exact fun h => hv.1 h.1.2.1
  | setParameter => exact fun h => hv.1 h.1.2.1
  | connect =>
      rintro ⟨hm, -, hdest⟩
      rcases hnon.2 with hd | ⟨-, hmaster, hd⟩
      · exact hd (designates hv.1 hm)
      · rcases hdest with h | h
        · rw [hmaster] at h; cases h
        · exact hd (designates (hv.2 hmaster) h)
  | disconnect =>
      rintro ⟨r, hr, hmatch⟩
      have hd : ¬ e.tables.Designates cmd.handle := by
        rcases hnon.2 with h | ⟨h, -⟩
        · exact h
        · rw [htype] at h; cases h
      have hsrc : r.srcSlot = cmd.handle.slot ∧ r.srcGen = cmd.handle.generation := by
        unfold Engine.routeMatches at hmatch
        split at hmatch
        · cases hmatch
        next h => simpa [not_or] using h
      have hgen := (I.routes r hr).1 (by rw [hsrc.2]; exact hv.1)
      rw [hsrc.1, hsrc.2] at hgen
      exact hd ⟨(I.active _).mp (by rw [hgen]; exact hv.1), hgen⟩

namespace Runtime

theorem resolveOutTerm_valid {rt : Runtime α} {src : Voice} {name : String} {t : Nat}
    (h : rt.resolveOutTerm src name = .ok t) : src.valid = true := by
  unfold resolveOutTerm at h
  split at h
  · cases h
  · split at h
    · cases h
    next hv => simpa using hv

theorem resolveRoute_valid {rt : Runtime α} {src dst : Voice} {dstT srcT : String} {st : Nat}
    {t : RouteTarget} (h : rt.resolveRoute src dst dstT srcT = .ok (st, t)) :
    src.valid = true ∧ dst.valid = true ∧ ∃ dt, t = .to dst.handle dt := by
  obtain ⟨st', hst, h⟩ := Except.bind_ok h
  refine ⟨resolveOutTerm_valid hst, ?_⟩
  split at h
  · cases h
  · split at h
    · cases h
    next hv =>
      split at h
      · cases h
      · cases h
        exact ⟨by simpa using hv, _, rfl⟩

/-- A spawn's destination is the master or the handle of the voice it was given. -/
theorem planSpawn_dest {rt : Runtime α} {id : Nat} {opt : SpawnOptions α} {plan : SpawnPlan α}
    (h : rt.planSpawn id opt = .ok plan) :
    plan.dest = .master ∨ opt.into.valid = true ∧ ∃ dt, plan.dest = .to opt.into.handle dt := by
  obtain ⟨r, -, h⟩ := Except.bind_ok h
  obtain ⟨st, -, h⟩ := Except.bind_ok h
  obtain ⟨dest, hdest, h⟩ := Except.bind_ok h
  obtain ⟨writes, -, h⟩ := Except.bind_ok h
  cases h
  unfold spawnDest at hdest
  split at hdest
  next hv =>
    obtain ⟨rd, -, hdest⟩ := Except.bind_ok hdest
    split at hdest
    · cases hdest
    · split at hdest
      · cases hdest; exact .inr ⟨hv, _, rfl⟩
      · cases hdest
  · cases hdest; exact .inl rfl

section Valid

variable [Sample α]

/-- The commands a call enqueues are for valid voices among those it is given: each way to them
tests its voices. -/
theorem commands_issued {rt : Runtime α} {r : Request α} {cmds : List (CommandEvent α)}
    (h : rt.commands r = .ok cmds) :
    ∀ cmd ∈ cmds, cmd.type ≠ .activate ∧ cmd.IssuedFor fun v => v ∈ r.voices ∧ v.valid = true := by
  have master : ∀ {v : Voice}, v ∈ r.voices → v.valid = true → ∀ {cmd : CommandEvent α},
      cmd.handle = v.handle → cmd.dest = .master →
        cmd.IssuedFor fun v => v ∈ r.voices ∧ v.valid = true := by
    intro v hk hv cmd hh hd
    exact ⟨⟨v, ⟨hk, hv⟩, hh⟩, by simp [hd, RouteTarget.master]⟩
  intro cmd hcmd
  cases r with
  | kill v =>
      cases h
      split at hcmd
      next hv =>
        obtain rfl := List.mem_singleton.mp hcmd
        exact ⟨by simp [CommandEvent.kill], master List.mem_cons_self hv rfl rfl⟩
      · cases hcmd
  | set v node port value =>
      obtain ⟨p, -, h⟩ := Except.bind_ok h
      split at h
      · cases h
      next hv =>
        cases h
        obtain rfl := List.mem_singleton.mp hcmd
        exact ⟨by simp [CommandEvent.setParameter],
          master List.mem_cons_self (by simpa using hv) rfl rfl⟩
  | setParam v name value =>
      simp only [commands, setParamCommands] at h
      split at h
      · cases h
      next hv =>
        obtain ⟨r, -, h⟩ := Except.bind_ok h
        split at h
        · cases h
        · split at h
          · cases h
          · cases h
            obtain ⟨tg, -, rfl⟩ := List.mem_map.mp hcmd
            exact ⟨by simp [CommandEvent.setParameter],
              master List.mem_cons_self (by simpa using hv) rfl rfl⟩
  | route src dst dstT srcT =>
      obtain ⟨⟨st, t⟩, hr, h⟩ := Except.bind_ok h
      obtain ⟨hs, hd, dt, rfl⟩ := resolveRoute_valid hr
      cases h
      obtain rfl := List.mem_singleton.mp hcmd
      exact ⟨by simp [CommandEvent.connect], ⟨src, ⟨List.mem_cons_self, hs⟩, rfl⟩,
        fun _ => ⟨dst, ⟨by simp [Request.voices], hd⟩, rfl⟩⟩
  | unroute src dst dstT srcT =>
      obtain ⟨⟨st, t⟩, hr, h⟩ := Except.bind_ok h
      obtain ⟨hs, hd, dt, rfl⟩ := resolveRoute_valid hr
      cases h
      obtain rfl := List.mem_singleton.mp hcmd
      exact ⟨by simp [CommandEvent.disconnect], ⟨src, ⟨List.mem_cons_self, hs⟩, rfl⟩,
        fun _ => ⟨dst, ⟨by simp [Request.voices], hd⟩, rfl⟩⟩
  | routeToMaster src srcT =>
      obtain ⟨st, hr, h⟩ := Except.bind_ok h
      cases h
      obtain rfl := List.mem_singleton.mp hcmd
      exact ⟨by simp [CommandEvent.connect],
        master List.mem_cons_self (resolveOutTerm_valid hr) rfl rfl⟩
  | unrouteFromMaster src srcT =>
      obtain ⟨st, hr, h⟩ := Except.bind_ok h
      cases h
      obtain rfl := List.mem_singleton.mp hcmd
      exact ⟨by simp [CommandEvent.disconnect],
        master List.mem_cons_self (resolveOutTerm_valid hr) rfl rfl⟩

/-- The commands a call enqueues are valid. -/
theorem commands_valid {rt : Runtime α} {r : Request α} {cmds : List (CommandEvent α)}
    (h : rt.commands r = .ok cmds) : ∀ cmd ∈ cmds, cmd.Valid ∧ cmd.type ≠ .activate := by
  intro cmd hcmd
  obtain ⟨htype, ⟨v, ⟨-, hv⟩, hh⟩, hdest⟩ := commands_issued h cmd hcmd
  refine ⟨⟨hh ▸ v.generation_ne_zero hv, fun hm => ?_⟩, htype⟩
  obtain ⟨w, ⟨-, hw⟩, he⟩ := hdest hm
  exact he ▸ w.generation_ne_zero hw

end Valid

end Runtime

/-! ### What every session keeps -/

namespace Engine

variable [Sample α] {e e' : Engine α} {a : EngineAction α}

/-- The audio thread and the workers add nothing to the command queue. -/
theorem commands_of_audio (ha : a.isAudio = true) (h : e.step a = some e') :
    ∀ cmd ∈ e'.commandQueue, cmd ∈ e.commandQueue := by
  have same : e'.tables.commands = e.tables.commands → ∀ cmd ∈ e'.commandQueue,
      cmd ∈ e.commandQueue := fun h cmd hc =>
    (show e.commandQueue = e'.commandQueue from h.symm) ▸ hc
  cases step_cases h with
  | reclaim ok => cases ha
  | create ok => cases ha
  | enqueue type => cases ha
  | raiseFinished valid => cases ha
  | @drain cmd rest phase queue =>
      have hq : ({ e with commandQueue := rest }.drainCommand cmd).commandQueue = rest := by
        have ht := tables_drainCommand { e with commandQueue := rest } cmd
        exact (congrArg Tables.commands ht).trans
          ({ e.tables with commands := rest }.drain_keeps cmd).2.1
      intro c hc
      rw [hq] at hc
      rw [queue]
      exact List.mem_cons_of_mem cmd hc
  | compute phase queue => exact same (congrArg Tables.commands (tables_computeBlock e))
  | finish phase => exact same (congrArg Tables.commands (tables_finishBlock e))
  | @reap slot why rest phase =>
      exact same ((congrArg Tables.commands
        (tables_releaseSlot { e with phase := .reaping rest } slot why)).trans rfl)
  | @work t slot pc thread => exact same (congrArg Tables.commands (tables_work e t slot pc))
  | begin | seed | seeded | leave | writeOut | poll | popEmpty | pop => exact same rfl

end Engine

/-- The engine's invariant, and that the commands sent or about to be sent are valid. -/
structure RuntimeInv (rt : Runtime α) : Prop where
  engine : EngineInv rt.eng
  queued : ∀ cmd ∈ rt.eng.commandQueue, cmd.type ≠ .activate → cmd.Valid
  sending : ∀ cmds, rt.call = .sending cmds → ∀ cmd ∈ cmds, cmd.Valid ∧ cmd.type ≠ .activate
  planned : ∀ plan, rt.call = .spawning plan → plan.dest.toMaster = false →
    plan.dest.inst.generation ≠ 0

namespace RuntimeInv

variable [Sample α] {rt rt' : Runtime α} {a : RuntimeAction α} {out : Runtime.Output}

theorem init {cfg : EngineConfig} {cb : Bool} (h : Runtime.init cfg cb = some rt) :
    RuntimeInv rt := by
  obtain ⟨e, he, rfl⟩ := Option.map_eq_some_iff.mp h
  have hq : e.commandQueue = [] := by
    unfold Engine.init at he
    split at he
    · cases he
    · obtain rfl := Option.some.inj he
      rfl
  exact
    { engine := .init he
      queued := fun cmd hc => by rw [hq] at hc; cases hc
      sending := fun cmds h => by cases h
      planned := fun plan h => by cases h }

/-- By the commands of a session the sentinel takes no effect. -/
theorem noSentinel (I : RuntimeInv rt) (b : EngineAction α) : rt.eng.NoSentinel b := by
  intro _ cmd rest hq hnon
  have I' : ActiveInv { rt.eng with commandQueue := rest }.tables :=
    { ActiveInv.of_slots I.engine.slots with
      pending := fun x hx => by
        refine (I.engine.slots.pending x ?_).1
        rw [show rt.eng.tables.commands = cmd :: rest from hq, SlotInv.activations_cons]
        exact List.mem_append_right _ hx }
  exact I'.not_sentinel (I.queued cmd (hq ▸ List.mem_cons_self) hnon.1) hnon

/-- The engine of a runtime takes a step of its own or none; it is the runtime's own when the
step is the audio thread's.  The API raises no instance's flag. -/
theorem engine_step (I : RuntimeInv rt) (h : Runtime.Stepped rt a rt' out) :
    rt'.eng = rt.eng ∨ ∃ b, rt.eng.step b = some rt'.eng ∧
      (a = .audio b ∨ b.isAudio = false) ∧ ∀ h, b ≠ .raiseFinished h := by
  have flag : ∀ {b : EngineAction α}, b.isAudio = true → ∀ h, b ≠ .raiseFinished h := by
    rintro b hb h rfl
    cases hb
  cases h with
  | spawnReclaims call ok =>
      exact .inr ⟨.reclaim, by simp [Engine.step, ok], .inr rfl, by simp⟩
  | @spawnCreates plan h eng call drained ok =>
      exact .inr ⟨.create plan.sched plan.life plan.init, by simp [Engine.step, ok], .inr rfl,
        by simp⟩
  | @send cmd cmds call =>
      have ht := (I.sending _ call cmd List.mem_cons_self).2
      exact .inr ⟨.enqueue cmd, by simp [Engine.step, ht], .inr rfl, by simp⟩
  | collects call ok cb => exact .inr ⟨.reclaim, by simp [Engine.step, ok], .inr rfl, by simp⟩
  | discards call ok cb => exact .inr ⟨.reclaim, by simp [Engine.step, ok], .inr rfl, by simp⟩
  | @audio b eng thread ok => exact .inr ⟨b, ok, .inl rfl, flag thread⟩
  | _ => exact .inl rfl

/-- The handle of an instance just created is valid, and its commands are. -/
theorem created (I : RuntimeInv rt) {plan : SpawnPlan α} {h : InstanceHandle} {eng : Engine α}
    (call : rt.call = .spawning plan)
    (ok : rt.eng.create plan.sched plan.life plan.init = some (h, eng)) :
    h.generation ≠ 0 ∧ eng.commandQueue = rt.eng.commandQueue ++ [.activate h] ∧
      ∀ cmd ∈ Engine.spawnConnect plan.sched h plan.srcTerminal plan.dest,
        cmd.Valid ∧ cmd.type ≠ .activate := by
  obtain ⟨idx, rest, -, rfl, ht⟩ := Engine.tables_create ok
  refine ⟨I.engine.slots.fresh, congrArg Tables.commands ht, fun cmd hcmd => ?_⟩
  unfold Engine.spawnConnect at hcmd
  split at hcmd
  · obtain rfl := List.mem_singleton.mp hcmd
    exact ⟨⟨I.engine.slots.fresh, I.planned plan call⟩, by simp [CommandEvent.connect]⟩
  · cases hcmd

theorem step (I : RuntimeInv rt) (h : Runtime.Stepped rt a rt' out) : RuntimeInv rt' := by
  have engine : EngineInv rt'.eng := by
    rcases I.engine_step h with same | ⟨b, hb, -⟩
    · rw [same]; exact I.engine
    · exact I.engine.step (Engine.drainKeeps_of_noSentinel I.engine (I.noSentinel b)) hb
  have reclaims : ∀ {v : VoiceEnd} {eng : Engine α}, rt.eng.reclaimOne = some (v, eng) →
      eng.commandQueue = rt.eng.commandQueue := by
    intro v eng ok
    obtain ⟨ev, rest, -, -, ht⟩ := Engine.tables_reclaimOne ok
    exact congrArg Tables.commands ht
  cases h with
  | register may ok => exact ⟨I.engine, I.queued, I.sending, I.planned⟩
  | spawnRefused may plan => exact ⟨I.engine, I.queued, I.sending, I.planned⟩
  | @spawn id opt plan may ok =>
      refine ⟨I.engine, I.queued, fun cmds h => (by cases h), fun p hp hm => ?_⟩
      obtain rfl := Call.spawning.inj hp
      rcases Runtime.planSpawn_dest ok with hd | ⟨hv, dt, hd⟩
      · rw [hd] at hm; cases hm
      · rw [hd]; exact opt.into.generation_ne_zero hv
  | requestRefused may cmds => exact ⟨I.engine, I.queued, I.sending, I.planned⟩
  | request may ok =>
      refine ⟨I.engine, I.queued, fun cmds h => ?_, fun p hp => (by cases hp)⟩
      obtain rfl := Call.sending.inj h
      exact Runtime.commands_valid ok
  | pump may main =>
      exact ⟨I.engine, I.queued, fun cmds h => (by cases h), fun p hp => (by cases hp)⟩
  | spawnReclaims call ok =>
      exact ⟨engine, fun cmd hc => I.queued cmd (reclaims ok ▸ hc), I.sending, I.planned⟩
  | spawnFull call drained full =>
      exact ⟨I.engine, I.queued, fun cmds h => (by cases h), fun p hp => (by cases hp)⟩
  | spawnCreates call drained ok =>
      obtain ⟨-, hq, hvalid⟩ := I.created call ok
      refine ⟨engine, fun cmd hc ht => ?_, fun cmds h => ?_, fun p hp => (by cases hp)⟩
      · rw [hq] at hc
        rcases List.mem_append.mp hc with hc | hc
        · exact I.queued cmd hc ht
        · obtain rfl := List.mem_singleton.mp hc
          exact absurd rfl ht
      · obtain rfl := Call.sending.inj h
        exact hvalid
  | sent call =>
      exact ⟨I.engine, I.queued, fun cmds h => (by cases h), fun p hp => (by cases hp)⟩
  | @send cmd cmds call =>
      refine ⟨engine, fun c hc ht => ?_, fun cs h => ?_, fun p hp => (by cases hp)⟩
      · rcases List.mem_append.mp hc with hc | hc
        · exact I.queued c hc ht
        · obtain rfl := List.mem_singleton.mp hc
          exact (I.sending _ call c List.mem_cons_self).1
      · obtain rfl := Call.sending.inj h
        exact fun c hc => I.sending _ call c (List.mem_cons_of_mem cmd hc)
  | collects call ok cb =>
      exact ⟨engine, fun cmd hc => I.queued cmd (reclaims ok ▸ hc), I.sending, I.planned⟩
  | discards call ok cb =>
      exact ⟨engine, fun cmd hc => I.queued cmd (reclaims ok ▸ hc), I.sending, I.planned⟩
  | collected call drained =>
      exact ⟨I.engine, I.queued, fun cmds h => (by cases h), fun p hp => (by cases hp)⟩
  | deliver call scratch => exact ⟨I.engine, I.queued, I.sending, I.planned⟩
  | finishPump call scratch running => exact ⟨I.engine, I.queued, I.sending, I.planned⟩
  | audio thread ok =>
      exact ⟨engine, fun cmd hc => I.queued cmd (Engine.commands_of_audio thread ok cmd hc),
        I.sending, I.planned⟩

end RuntimeInv

namespace Session

variable [Sample α] {s s' : Session α} {a : RuntimeAction α}

/-- A step of a session is a legal step of its runtime, and what the host sees of it. -/
theorem step_cases (h : s.step a = some s') :
    s.Legal a ∧ ∃ out, Runtime.Stepped s.rt a s'.rt out ∧
      s' = { (s.observeEnd a).observe out with rt := s'.rt } := by
  unfold step at h
  split at h
  next legal =>
    obtain ⟨⟨rt', out⟩, hr, rfl⟩ := Option.map_eq_some_iff.mp h
    exact ⟨legal, out, Runtime.step_cases hr, rfl⟩
  · cases h

theorem runtimeInv_of_reaches {cfg : EngineConfig} {cb : Bool}
    {ok : Session α → RuntimeAction α → Prop} (h : SessionReaches cfg cb ok s) :
    RuntimeInv s.rt := by
  refine h.invariant (P := fun s => RuntimeInv s.rt) (fun s h₀ => ?_)
    fun s a s' _ I _ one => ?_
  · obtain ⟨rt, hrt, rfl⟩ := Option.map_eq_some_iff.mp h₀
    exact .init hrt
  · obtain ⟨-, out, hs, -⟩ := step_cases one
    exact I.step hs

end Session

/-! ### A blueprint of one bus

`build("bus").add<bus_input>("b", 1).input_terminal("in", "b").output_terminal("out", "b")`, and
its schedule at one-sample blocks. -/

def busBlueprint : GraphBlueprint ℚ where
  nodes := [Nodes.busInput 1]
  names := ["b"]
  inputTerminals := [⟨"in", 0, []⟩]
  outputTerminals := [⟨"out", 0, []⟩]

def busSchedule : CompiledSchedule ℚ := .single busBlueprint 1

def permanent : LifetimePolicy ℚ := ⟨.permanent, 0, 0, 0⟩

/-- The calls and steps by which a bus is registered, spawned and activated. -/
def busSpawned : List (RuntimeAction ℚ) :=
  [.register "bus" busSchedule, .spawn 0 { life := permanent }, .advance, .advance, .advance,
    .audio (.begin 1), .audio .drain, .audio .drain]

end Xrune
