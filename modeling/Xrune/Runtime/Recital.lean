import Xrune.Lang.Score
import Xrune.Runtime.Replay

/-!
# Runtime — recitals

From the text of a rune to the frames the device is handed.

* `Lang.Score.after`: an instance of a score plays it, as long as its parameters are left alone.
* `Chronicle.written`: what is written out of a block is the mix of what the live routes to the
  master give, whatever the control thread does meanwhile.
* `device_hears_meaning`: where the voices that lead to the master perform scores, each frame is
  the sum of what their runes mean.
-/

namespace Xrune

open Lang

section Flag

variable {α : Type}

namespace GraphInstance

theorem write_raise (g : GraphInstance α) (v : BufferView) (i : Nat) (x : α) :
    g.raise.write v i x = (g.write v i x).raise := by
  cases v <;> rfl

variable [Sample α]

theorem writeView_raise (g : GraphInstance α) (v : BufferView) (xs : List α) :
    g.raise.writeView v xs = (g.writeView v xs).raise := by
  cases v with
  | silent size => rfl
  | pool start size =>
      exact List.foldl_hom raise fun g i => g.write_raise (.pool start size) i (xs.getD i 0)

omit [Sample α] in
theorem raise_sched (g : GraphInstance α) : g.raise.sched = g.sched := rfl

theorem runCall_raise (g : GraphInstance α) (i k : Nat) :
    g.raise.runCall i k = (g.runCall i k).raise := by
  unfold runCall
  rw [raise_sched]
  cases g.sched.bp.nodes[i]? with
  | none => rfl
  | some nd =>
      symm
      refine (List.foldl_hom raise fun h c => ?_).symm
      exact h.writeView_raise _ _

/-- The flag is nothing to `process()`. -/
theorem process_raise (g : GraphInstance α) : g.raise.process = g.process.raise := by
  refine List.foldl_hom raise fun g i => ?_
  exact List.foldl_hom raise fun g k => g.runCall_raise i k

theorem read_raise (g : GraphInstance α) (v : BufferView) (i : Nat) :
    g.raise.read v i = g.read v i := by
  cases v <;> rfl

/-- No parameter is written. -/
def Unset (story : List (Beat α)) : Prop := ∀ node param value, Beat.set node param value ∉ story

/-- An instance whose parameters are left alone has run its cycles, its flag raised or not. -/
theorem after_unset (g : GraphInstance α) {story : List (Beat α)} (calm : Unset story) :
    g.after story = GraphInstance.process^[plays story] g ∨
      g.after story = (GraphInstance.process^[plays story] g).raise := by
  induction story using List.reverseRecOn with
  | nil => exact .inl rfl
  | append_singleton story b ih =>
      have before := ih fun node param value mem =>
        calm node param value (List.mem_append_left _ mem)
      rw [after_append, plays_append]
      cases b with
      | played =>
          rw [show plays [(Beat.played : Beat α)] = 1 from rfl, Function.iterate_succ_apply']
          refine before.imp (fun h => ?_) fun h => ?_
          · rw [h]
            rfl
          · rw [h]
            exact process_raise _
      | raised =>
          right
          rcases before with h | h <;> rw [h] <;> rfl
      | set node param value =>
          exact absurd (List.mem_append_right _ (List.mem_singleton.mpr rfl))
            (calm node param value)

end GraphInstance

end Flag

/-- **An instance of the score plays it**, its flag raised or not. -/
theorem Lang.Score.after {K : Type} [Field K] [LinearOrder K] [FloorRing K] [Trig K]
    [IsStrictOrderedRing K] {sr B : Nat} (p : Score K sr B) {g : GraphInstance K}
    (built : instantiate (compile p.bp B) sr = some g) {story : List (Beat K)}
    (calm : GraphInstance.Unset story) {n : Nat} (count : plays story = n + 1) (i ch : Nat)
    {j : Nat} (hj : j < B) :
    let h := g.after story
    (if ch < h.outputTerminalChannels i then h.read (h.outputTerminalView i ch) j else 0)
      = (p.wave i ch).sample (n * ((p.wave i ch).rate * B) + j) := by
  have cycles := p.cycles built n i ch hj
  rcases g.after_unset calm with h | h
  · rw [h, count]
    exact cycles
  · rw [h, count]
    refine Eq.trans ?_ cycles
    exact congrArg (ite _ · 0) (GraphInstance.read_raise ..)

/-! ### A block of a run -/

section Device

variable {α : Type} [Sample α] {cfg : EngineConfig} {cb : Bool}
  {ok : Host α → HostAction α → Prop} {c c' c₁ c₂ c₃ : Chronicle α}

namespace Chronicle

theorem audio_step {b : EngineAction α} (one : c.step (.api (.audio b)) = some c') :
    c.watch.eng.step b = some c'.watch.eng := by
  have host := host_of_step one
  show _ = some c'.host.rt.eng
  generalize c'.host = h at host ⊢
  cases Host.step_cases host with
  | api call => exact Session.audio_step call

/-- A step of a host is one of its engine, if any. -/
theorem engine_step (run : ChronicleReaches cfg cb ok c) {a : HostAction α}
    (one : c.step a = some c') : c'.watch.eng = c.watch.eng ∨
      ∃ b, c.watch.eng.step b = some c'.watch.eng ∧
        (a ≠ .api (.audio .writeOut) → b ≠ .writeOut) := by
  rcases (hostInv_of_reaches run.watch.host).engine_step (host_of_step one) with
    same | ⟨b, hb, thread⟩
  · exact .inl same
  · refine .inr ⟨b, hb, fun other out => ?_⟩
    subst out
    rcases thread with rfl | control
    · exact other rfl
    · cases control

theorem masterInv_of_reaches (run : ChronicleReaches cfg cb ok c) : c.watch.eng.MasterInv := by
  refine run.watch.host.invariant (P := fun h => h.rt.eng.MasterInv) (fun s h₀ => ?_)
    fun h a h' reached I _ one => ?_
  · obtain ⟨rt, hrt, rfl⟩ := Option.map_eq_some_iff.mp h₀
    obtain ⟨e, he, rfl⟩ := Option.map_eq_some_iff.mp hrt
    exact Engine.masterInv_init he
  · rcases (hostInv_of_reaches reached).engine_step one with same | ⟨b, hb, -⟩
    · rw [same]
      exact I
    · exact I.step hb

/-- From the lifetime checks to the end of the block the desk is left alone. -/
theorem desk_of_rest (run : ChronicleReaches cfg cb ok c₁) {l : List (Nat × EndReason)}
    (phase : c₁.watch.eng.phase = .reaping l)
    (rest : Reaches Chronicle.step (fun c a => ok c.host a ∧ a ≠ .api (.audio .writeOut)) c₁ c₂) :
    ChronicleReaches cfg cb ok c₂ ∧ c₂.watch.eng.desk = c₁.watch.eng.desk ∧
      ∃ l, c₂.watch.eng.phase = .reaping l := by
  induction rest with
  | refl => exact ⟨run, rfl, l, phase⟩
  | tail _ meets one ih =>
      obtain ⟨reached, desk, l, phase⟩ := ih
      obtain ⟨s₀, h₀, there⟩ := reached
      refine ⟨⟨s₀, h₀, .tail there meets.1 one⟩, ?_⟩
      rcases engine_step ⟨s₀, h₀, there⟩ one with same | ⟨b, hb, other⟩
      · rw [same]
        exact ⟨desk, l, phase⟩
      · obtain ⟨same, l', phase'⟩ := Engine.desk_of_reaping hb phase (other meets.2)
        exact ⟨same.trans desk, l', phase'⟩

/-- **What is written out** of a block is the mix of what its live master routes give. -/
theorem written (run : ChronicleReaches cfg cb ok c) (meets : ok c.host (.api (.audio .finish)))
    (finish : c.step (.api (.audio .finish)) = some c₁)
    (rest : Reaches Chronicle.step (fun c a => ok c.host a ∧ a ≠ .api (.audio .writeOut)) c₁ c₂)
    (out : c₂.step (.api (.audio .writeOut)) = some c₃) :
    c₃.watch.eng.outBuf = (List.range c.watch.eng.nFrames).flatMap fun i =>
      (List.range cfg.outputChannels).map fun ch =>
        if i < cfg.blockSize then (c.watch.eng.mix (ch, i)).foldl (· + ·) 0 else 0 := by
  have finished := audio_step finish
  obtain ⟨cleared, l, phase⟩ : c.watch.eng.cleared = true ∧
      ∃ l, c₁.watch.eng.phase = .reaping l := by
    generalize c₁.watch.eng = e at finished ⊢
    cases Engine.step_cases finished with
    | finish phase => exact ⟨by rw [Engine.cleared, phase], _, rfl⟩
  have run₁ : ChronicleReaches cfg cb ok c₁ := by
    obtain ⟨s₀, h₀, there⟩ := run
    exact ⟨s₀, h₀, .tail there meets finish⟩
  obtain ⟨-, desk, -⟩ := desk_of_rest run₁ phase rest
  have mixed : c₂.watch.eng.desk = c.watch.eng.sumToMaster.desk :=
    desk.trans (Engine.desk_of_step finished)
  have handed : c₃.watch.eng.outBuf = c₂.watch.eng.interleave := by
    have wrote := audio_step out
    generalize c₃.watch.eng = e at wrote
    cases Engine.step_cases wrote with
    | writeOut => rfl
  have same : c₂.watch.eng.interleave = c.watch.eng.sumToMaster.interleave := by
    let interleave (d : Engine.Desk α) : List α := (List.range d.nFrames).flatMap fun i =>
      (List.range d.outputChannels).map fun ch =>
        if i < d.parallelNf then (d.masterBuffers.getD ch []).getD i 0 else 0
    exact congrArg interleave mixed
  obtain ⟨-, size, channels⟩ : c.watch.eng.sampleRate = cfg.sampleRate ∧
      c.watch.eng.blockSize = cfg.blockSize ∧ c.watch.eng.outputChannels = cfg.outputChannels := by
    simpa [Engine.setup] using setup_of_reaches run
  rw [handed, same, (masterInv_of_reaches run).interleave_sumToMaster cleared, size, channels]

end Chronicle

end Device

/-! ### Performances -/

section Performances

variable {K : Type} [Field K] [LinearOrder K] [FloorRing K] [Trig K] {cfg : EngineConfig}
  {cb : Bool} {ok : Host K → HostAction K → Prop} {c c₁ c₂ c₃ : Chronicle K} {k : Nat}

/-- The voice was spawned of the score, and its parameters are left alone. -/
structure Chronicle.Performs (c : Chronicle K) (k : Nat) {sr B : Nat} (p : Lang.Score K sr B) :
    Prop where
  spawned : ∃ v r, c.spawned[k]? = some v ∧ c.host.rt.registry[v.blueprint]? = some r ∧
    r.sched = compile p.bp B
  opening : c.opening[k]? = some []
  calm : GraphInstance.Unset (c.story k)

/-- It goes on, past the lifetime checks. -/
theorem Chronicle.Performs.checked {sr B : Nat} {p : Lang.Score K sr B} (h : c.Performs k p)
    (finish : c.step (.api (.audio .finish)) = some c₁) : c₁.Performs k p := by
  obtain ⟨-, hopening, hstory, -⟩ := step_cases finish
  obtain ⟨v, r, hv, hr, sched⟩ := h.spawned
  obtain ⟨l, more⟩ := Host.spawned_of_step (host_of_step finish)
  refine ⟨⟨v, r, ?_, Host.registry_of_step (host_of_step finish) hr, sched⟩, ?_, ?_⟩
  · show c₁.host.session.spawned[k]? = some v
    rw [more]
    exact List.getElem?_append_left (List.getElem?_eq_some_iff.mp hv).1 |>.trans hv
  · rw [hopening]
    exact List.getElem?_append_left (List.getElem?_eq_some_iff.mp h.opening).1 |>.trans h.opening
  · have none : c.watch.beats k (.api (.audio .finish)) = [] := by
      unfold Watch.beats
      split
      · split <;> rfl
      · rfl
    rw [hstory, none, List.append_nil]
    exact h.calm

variable [IsStrictOrderedRing K]

/-- A live route to the master gives what the voice it leads from performs. -/
theorem Chronicle.gives_performed (block : ∀ h a, ok h a → h.BlockOk a)
    (run : ChronicleReaches cfg cb ok c) (meets : ok c.host (.api (.audio .finish)))
    (finish : c.step (.api (.audio .finish)) = some c₁) {r : ActiveRoute}
    (mem : r ∈ c.watch.eng.routes) {p : Lang.Score K cfg.sampleRate cfg.blockSize}
    (performs : c.Performs (c.watch.voice r.srcSlot) p) (ch : Nat) {i : Nat}
    (hi : i < cfg.blockSize) :
    (c.watch.eng.gives (ch, i) r).getD 0 = (p.wave r.srcTerminal ch).sample
      ((c.watch.block - c.watch.began (c.watch.voice r.srcSlot)) *
        ((p.wave r.srcTerminal ch).rate * cfg.blockSize) + i) := by
  have H := hostInv_of_reaches run.watch.host
  have S := H.runtime.engine.slots
  have act : r.srcSlot ∈ c.watch.eng.activeList := (S.routes r mem).1.1
  obtain ⟨g, inst, heard⟩ := Watch.hears_active S H.voices act
  have here : c.watch.eng.mgr.instanceAt r.srcSlot = some g := by
    have lt : r.srcSlot < c.watch.eng.mgr.capacity := S.lt_of_active act
    rw [InstanceManager.instanceAt, if_pos lt, inst]
  -- the check of this block
  obtain ⟨watch, -⟩ := step_cases finish
  have heard₁ : (c₁.watch.heard (c.watch.voice r.srcSlot))[
      (c.watch.heard (c.watch.voice r.srcSlot)).length]? = some (c.watch.block, g) := by
    rw [Watch.heard_of_finish watch, heard]
    exact List.getElem?_concat_length ..
  have began : c₁.watch.began = c.watch.began := by
    obtain ⟨h, -, same⟩ := Option.map_eq_some_iff.mp watch
    rw [← same]
    rfl
  have run₁ : ChronicleReaches cfg cb ok c₁ := by
    obtain ⟨s₀, h₀, there⟩ := run
    exact ⟨s₀, h₀, .tail there meets finish⟩
  have performs := performs.checked finish
  obtain ⟨v, reg, spawned, registered, sched⟩ := performs.spawned
  obtain ⟨g₀, built⟩ := built_of_reaches run₁ spawned registered
  have built' : instantiate (compile p.bp cfg.blockSize) cfg.sampleRate = some g₀ := sched ▸ built
  obtain ⟨time, scene, so_far, count, -, rfl⟩ := heard_replayed block run₁ spawned registered
    performs.opening built (sched ▸ p.unfed built') heard₁
  have calm : GraphInstance.Unset scene :=
    fun node param value mem => performs.calm node param value (so_far.subset mem)
  rw [began] at time
  rw [Nat.sub_eq_of_eq_add' time, ← p.after built' calm count r.srcTerminal ch hi,
    Engine.gives, here, Option.bind_some]
  show Option.getD (if ch < (g₀.after scene).outputTerminalChannels r.srcTerminal then _ else _) 0
    = _
  split
  · rfl
  · rfl

omit [Trig K] [IsStrictOrderedRing K] in
/-- In exact arithmetic the mix is a sum. -/
theorem Engine.foldl_mix (e : Engine K) (p : Nat × Nat) : (e.mix p).foldl (· + ·) 0
    = ((e.routes.filter e.sums).map fun r => (e.gives p r).getD 0).sum := by
  have sum : ∀ (l : List ActiveRoute) (x : K), (l.filterMap (e.gives p)).foldl (· + ·) x
      = x + (l.map fun r => (e.gives p r).getD 0).sum := by
    intro l
    induction l with
    | nil => simp
    | cons r l ih =>
        intro x
        cases given : e.gives p r with
        | none => simp [given, ih]
        | some y => simp [given, ih, add_assoc]
  exact (sum _ 0).trans (zero_add _)

end Performances

/-! A voice of a rune, alone on an engine of one channel and blocks of one frame. -/

noncomputable def aloneExact : Session ℝ :=
  (Session.init (.small 1 0 EngineConfig.fits_one) true).get rfl

noncomputable def quietPlayed : List (HostAction ℝ) :=
  List.map .api [.register "r" (compile quietLowered.bp 1),
    .spawn 0 { life := ⟨.permanent, 0, 0, 0⟩ }, .advance, .advance, .advance, .audio (.begin 1),
    .audio .drain, .audio .drain, .audio .compute]

/-- The voice of blueprint 0 has a block computed, and one route leads from it to the master. -/
noncomputable def Chronicle.playsAlone (c : Chronicle ℝ) : Bool :=
  match c.spawned[0]?, c.opening[0]?, c.story 0, c.watch.eng.routes with
  | some v, some [], [.played], [r] =>
      v.blueprint == 0 && c.watch.voice r.srcSlot == 0 && c.watch.eng.sums r &&
        c.watch.eng.pool.workers == 0 && (c.step (.api (.audio .finish))).any fun c₁ =>
          (c₁.step (.api (.audio .writeOut))).isSome
  | _, _, _, _ => false

end Xrune
