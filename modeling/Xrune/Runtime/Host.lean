import Xrune.Runtime.Blocks
import Xrune.Runtime.Handles
import Xrune.Runtime.Leases

/-!
# Runtime — hosts

A host does more with a runtime than a session's calls: it resolves parameter addresses once and
sets ports through them, on whatever voices it holds, and it raises an instance's finished flag,
the engine being a public member of the runtime.  What holds of every session holds of every
host (`hostInv_of_reaches`, `blockInv_of_hostReaches`).
-/

namespace Xrune

variable {α : Type}

/-- What a host does: a call of the API or a step of the other threads, `resolve`, `set` on an
address that resolved, and raising the finished flag of a voice's instance. -/
inductive HostAction (α : Type) where
  | api (a : RuntimeAction α)
  | resolve (id : Nat) (node port : String)
  | set (v : Voice) (p : ParamRef) (value : α)
  | raiseFinished (v : Voice)

/-- The addresses `resolve` returned, and what `set` was called with and did not refuse. -/
structure Host (α : Type) where
  session : Session α
  refs : List ParamRef
  sets : List (Voice × ParamRef)

/-- The commands of `set` on an address that resolved. -/
def Runtime.setRefCommands [Sample α] (v : Voice) (p : ParamRef) (value : α) :
    Except String (List (CommandEvent α)) :=
  if !v.valid then .error "set: invalid voice or param"
  else .ok [.setParameter v.handle p.node p.port value]

/-- `set` on names is `resolve` and `set` on the address. -/
theorem Runtime.setCommands_eq [Sample α] (rt : Runtime α) (v : Voice) (node port : String)
    (value : α) : rt.setCommands v node port value
      = rt.resolve v.blueprint node port >>= fun p => setRefCommands v p value := rfl

namespace Host

abbrev rt (h : Host α) : Runtime α := h.session.rt

def withRuntime (h : Host α) (rt : Runtime α) : Host α :=
  { h with session := { h.session with rt := rt } }

/-- A call leaves an error. -/
def fails (h : Host α) (msg : String) : Host α := h.withRuntime { h.rt with err := msg }

variable [Sample α]

def step (h : Host α) : HostAction α → Option (Host α)
  | .api a => (h.session.step a).map fun s => { h with session := s }
  | .resolve id node port =>
      if h.rt.mayCall then
        match h.rt.resolve id node port with
        | .error msg => some (h.fails msg)
        | .ok p      => some { h with refs := h.refs ++ [p] }
      else none
  | .set v p value =>
      if h.session.Knows v ∧ p ∈ h.refs ∧ h.rt.mayCall = true then
        match Runtime.setRefCommands v p value with
        | .error msg => some (h.fails msg)
        | .ok cmds   => some
            { h.withRuntime { h.rt with call := .sending cmds } with sets := h.sets ++ [(v, p)] }
      else none
  | .raiseFinished v =>
      if h.session.Knows v then
        (h.rt.eng.step (.raiseFinished v.handle)).map fun eng =>
          h.withRuntime { h.rt with eng := eng }
      else none

/-- What a step of a host can do. -/
inductive Stepped (h : Host α) : HostAction α → Host α → Prop where
  | api {a : RuntimeAction α} {s : Session α} (call : h.session.step a = some s) :
      Stepped h (.api a) { h with session := s }
  | resolved {id : Nat} {node port : String} {p : ParamRef}
      (ok : h.rt.resolve id node port = .ok p) :
      Stepped h (.resolve id node port) { h with refs := h.refs ++ [p] }
  | unresolved {id : Nat} {node port msg : String}
      (error : h.rt.resolve id node port = .error msg) :
      Stepped h (.resolve id node port) (h.fails msg)
  | sets {v : Voice} {p : ParamRef} {value : α} (knows : h.session.Knows v) (ref : p ∈ h.refs)
      (may : h.rt.mayCall = true) (valid : v.valid = true) :
      Stepped h (.set v p value)
        { h.withRuntime
            { h.rt with call := .sending [.setParameter v.handle p.node p.port value] } with
          sets := h.sets ++ [(v, p)] }
  | refused {v : Voice} {p : ParamRef} {value : α} (invalid : v.valid = false) :
      Stepped h (.set v p value) (h.fails "set: invalid voice or param")
  | raises {v : Voice} {eng : Engine α} (ok : h.rt.eng.step (.raiseFinished v.handle) = some eng) :
      Stepped h (.raiseFinished v) (h.withRuntime { h.rt with eng := eng })

theorem step_cases {h h' : Host α} {a : HostAction α} (one : h.step a = some h') :
    Stepped h a h' := by
  cases a with
  | api a =>
      obtain ⟨s, hs, rfl⟩ := Option.map_eq_some_iff.mp one
      exact .api hs
  | resolve id node port =>
      simp only [step, Option.ite_none_right_eq_some] at one
      obtain ⟨-, one⟩ := one
      split at one
      next msg error =>
        obtain rfl := Option.some.inj one
        exact .unresolved error
      next p ok =>
        obtain rfl := Option.some.inj one
        exact .resolved ok
  | set v p value =>
      simp only [step, Runtime.setRefCommands, Option.ite_none_right_eq_some] at one
      obtain ⟨⟨knows, ref, may⟩, one⟩ := one
      cases hv : v.valid with
      | false =>
          simp only [hv, Bool.not_false, if_true] at one
          obtain rfl := Option.some.inj one
          exact .refused hv
      | true =>
          simp only [hv, Bool.not_true, Bool.false_eq_true, if_false] at one
          obtain rfl := Option.some.inj one
          exact .sets knows ref may hv
  | raiseFinished v =>
      simp only [step, Option.ite_none_right_eq_some] at one
      obtain ⟨-, one⟩ := one
      obtain ⟨eng, ok, rfl⟩ := Option.map_eq_some_iff.mp one
      exact .raises ok

end Host

/-- The hosts reached by steps that each meet `ok`. -/
def HostReaches [Sample α] (cfg : EngineConfig) (voiceEndCb : Bool)
    (ok : Host α → HostAction α → Prop) (h : Host α) : Prop :=
  ∃ s₀, Session.init cfg voiceEndCb = some s₀ ∧ Reaches Host.step ok ⟨s₀, [], []⟩ h

/-- What holds of the initial host, and is preserved by a step from a host reached, holds of
every host reached. -/
theorem HostReaches.invariant [Sample α] {cfg : EngineConfig} {cb : Bool}
    {ok : Host α → HostAction α → Prop} {h : Host α} {P : Host α → Prop}
    (run : HostReaches cfg cb ok h) (init : ∀ s, Session.init cfg cb = some s → P ⟨s, [], []⟩)
    (preserved : ∀ h a h', HostReaches cfg cb ok h → P h → ok h a → h.step a = some h' → P h') :
    P h := by
  obtain ⟨s₀, h₀, run⟩ := run
  induction run with
  | refl => exact init s₀ h₀
  | tail run meets one ih => exact preserved _ _ _ ⟨s₀, h₀, run⟩ ih meets one

/-! ### What holds of every host -/

structure HostInv (h : Host α) : Prop where
  runtime : RuntimeInv h.rt
  voices : VoiceInv h.session
  sets : ∀ c ∈ h.sets, c.1 ∈ h.session.spawned

namespace HostInv

variable [Sample α] {h h' : Host α} {a : HostAction α}

/-- The engine of a host takes a step of its own or none, and none that only the host's flag
takes unless it raises one. -/
theorem engine_step (I : HostInv h) (one : h.step a = some h') :
    h'.rt.eng = h.rt.eng ∨ ∃ b, h.rt.eng.step b = some h'.rt.eng ∧
      (a = .api (.audio b) ∨ b.isAudio = false) := by
  cases Host.step_cases one with
  | @api a s call =>
      obtain ⟨-, out, hs, -⟩ := Session.step_cases call
      rcases I.runtime.engine_step hs with same | ⟨b, hb, ha, -⟩
      · exact .inl same
      · refine .inr ⟨b, hb, ?_⟩
        rcases ha with rfl | ha
        · exact .inl rfl
        · exact .inr ha
  | resolved | unresolved | sets | refused => exact .inl rfl
  | raises ok => exact .inr ⟨_, ok, .inr rfl⟩

/-- Raising a flag changes neither a table nor a queue. -/
theorem raises {e e' : Engine α} {hd : InstanceHandle}
    (ok : e.step (.raiseFinished hd) = some e') :
    e'.tables = e.tables ∧ e'.phase = e.phase ∧ e'.pool = e.pool ∧ e'.leases = e.leases := by
  cases Engine.step_cases ok with
  | raiseFinished valid =>
      exact ⟨by simp [Engine.tables], rfl, rfl, Engine.leases_raiseFinished e hd.slot⟩

theorem step (I : HostInv h) (one : h.step a = some h') : HostInv h' := by
  -- another runtime with the same slots
  have keeps : ∀ {rt : Runtime α}, RuntimeInv rt → rt.slotBlueprint = h.rt.slotBlueprint →
      rt.eng.mgr.shape = h.rt.eng.mgr.shape → HostInv (h.withRuntime rt) :=
    fun R hb hs => ⟨R, I.voices.same_shape rfl rfl hb hs, I.sets⟩
  have R := I.runtime
  cases Host.step_cases one with
  | @api a s call =>
      obtain ⟨-, out, hs, -⟩ := Session.step_cases call
      exact ⟨R.step hs, I.voices.step R call,
        fun c hc => Session.mem_spawned_of_step call _ (I.sets c hc)⟩
  | resolved => exact ⟨R, I.voices, I.sets⟩
  | unresolved | refused => exact keeps ⟨R.engine, R.queued, R.sending, R.planned⟩ rfl rfl
  | @sets v p value knows ref may valid =>
      have sending : RuntimeInv
          { h.rt with call := .sending [.setParameter v.handle p.node p.port value] } := by
        refine ⟨R.engine, R.queued, fun cmds hc => ?_, fun plan hp => (by cases hp)⟩
        obtain rfl := Call.sending.inj hc
        intro cmd hcmd
        obtain rfl := List.mem_singleton.mp hcmd
        exact ⟨⟨v.generation_ne_zero valid, fun hm => by cases hm⟩,
          by simp [CommandEvent.setParameter]⟩
      obtain ⟨R', V', -⟩ := keeps sending rfl rfl
      refine ⟨R', V'.same_shape rfl rfl rfl rfl, fun c hc => ?_⟩
      rcases List.mem_append.mp hc with hc | hc
      · exact I.sets c hc
      · obtain rfl := List.mem_singleton.mp hc
        exact IssuedInv.mem_of_knows knows valid
  | @raises v eng ok =>
      obtain ⟨ht, -⟩ := raises ok
      have hq : eng.commandQueue = h.rt.eng.commandQueue := congrArg Tables.commands ht
      refine keeps ⟨?_, hq ▸ R.queued, R.sending, R.planned⟩ rfl (congrArg Tables.pool ht)
      exact R.engine.step (fun hd => by cases hd) ok

end HostInv

section Reached

variable [Sample α] {cfg : EngineConfig} {cb : Bool} {ok : Host α → HostAction α → Prop}
  {h : Host α}

theorem hostInv_of_reaches (run : HostReaches cfg cb ok h) : HostInv h := by
  refine run.invariant (fun s h₀ => ?_) fun h a h' _ I _ one => I.step one
  have start : SessionReaches cfg cb (fun _ _ => True) s := ⟨s, h₀, .refl⟩
  exact ⟨Session.runtimeInv_of_reaches start, .of_reaches start, fun c hc => by cases hc⟩

/-- A block about to begin is on an acyclic routing graph, and seeded race-free. -/
def Host.BlockOk (h : Host α) (a : HostAction α) : Prop :=
  ∀ b, a = .api (.audio b) → h.rt.eng.BlockOk b

theorem blockInv_of_hostReaches (hok : ∀ h a, ok h a → h.BlockOk a)
    (run : HostReaches cfg cb ok h) : BlockInv h.rt.eng := by
  refine run.invariant (P := fun h => BlockInv h.rt.eng) (fun s h₀ => ?_)
    fun h a h' reached B meets one => ?_
  · obtain ⟨rt, hrt, rfl⟩ := Option.map_eq_some_iff.mp h₀
    obtain ⟨e, he, rfl⟩ := Option.map_eq_some_iff.mp hrt
    exact .init he
  · have I := hostInv_of_reaches reached
    rcases I.engine_step one with same | ⟨b, hb, ha⟩
    · rw [same]
      exact B
    · refine B.step I.runtime.engine.slots ?_ hb
      rcases ha with rfl | control
      · exact hok h _ meets b rfl
      · rintro rfl
        cases control

end Reached

end Xrune
