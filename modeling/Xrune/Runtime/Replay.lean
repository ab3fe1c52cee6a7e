import Xrune.Runtime.Chronicle
import Xrune.Runtime.Reaping

/-!
# Runtime — voices by themselves

In a run whose parallel blocks begin on acyclic routing graphs seeded race-free, the story of a
voice keeps the blocks' time: at the lifetime check of its `n`-th block its instance has been
processed `n + 1` times (`Chronicle.Paced`).  Together with `Chronicle.Told`, a voice without
input terminals is heard as its own story tells it (`heard_replayed`).
-/

namespace Xrune

variable {α : Type}

def Beat.isPlayed : Beat α → Bool
  | .played => true
  | _ => false

/-- The runs of `process()` in a story. -/
def plays (story : List (Beat α)) : Nat := story.countP Beat.isPlayed

@[simp] theorem plays_append (story more : List (Beat α)) :
    plays (story ++ more) = plays story + plays more := List.countP_append ..

theorem plays_map_played {β : Type} (l : List β) :
    plays (l.map fun _ => (Beat.played : Beat α)) = l.length := by
  simp [plays, Beat.isPlayed, List.countP_replicate]

namespace Watch

variable {w w' : Watch α}

/-- Of slots that are not free, those of one voice are the one it is in. -/
theorem filter_voice (V : VoiceInv w.host.session) {l : List Nat}
    (kept : ∀ s ∈ l, s < w.eng.mgr.capacity ∧ s ∉ w.eng.mgr.freeSlots) (k : Nat) :
    (l.filter fun s => w.voice s = k) = w.host.session.spawned[k]?.elim [] fun v =>
      if w.voice v.handle.slot = k then l.filter (· = v.handle.slot) else [] := by
  cases hv : w.host.session.spawned[k]? with
  | none =>
      refine List.filter_eq_nil_iff.mpr fun s hs => ?_
      obtain ⟨v, hv', -⟩ := occupied V (kept s hs).1 (kept s hs).2
      rw [decide_eq_true_eq]
      rintro rfl
      rw [hv] at hv'
      cases hv'
  | some v =>
      have same : ∀ s ∈ l, decide (w.voice s = k)
          = decide (s = v.handle.slot ∧ w.voice v.handle.slot = k) := fun s hs =>
        decide_eq_decide.mpr (voice_eq_iff V (kept s hs).1 (kept s hs).2 hv)
      rw [List.filter_congr same, Option.elim_some]
      split
      next here => simp [here]
      next gone => simp [gone]

variable [Sample α] {a : HostAction α}

/-- The slots whose instances are processed in a step. -/
def processes (w : Watch α) : HostAction α → List Nat
  | .api (.audio .compute) =>
      if w.eng.pool.workers ≠ 0 ∧ 2 ≤ w.eng.activeList.length then []
      else w.eng.clearMaster.computeOrder.1
  | .api (.audio (.work t)) =>
      match w.eng.pool.threads t with
      | .running slot .process => [slot]
      | _ => []
  | _ => []

theorem played_of_step (one : w.step a = some w') :
    w'.played = (w.plays (w.processes a)).played := by
  obtain ⟨h, -, rfl⟩ := Option.map_eq_some_iff.mp one
  change (w.saw a h).played = _
  have none : w.played = (w.plays []).played := by
    funext k
    simp [Watch.plays]
  cases a with
  | resolve | set | raiseFinished => exact none
  | api b =>
      cases b with
      | register | spawn | request | pump | deliver | finishPump => exact none
      | advance =>
          simp only [saw]
          split <;> exact none
      | audio b =>
          cases b with
          | drain =>
              simp only [saw, observe]
              split <;> exact none
          | compute =>
              simp only [saw, observe, processes]
              split
              · exact none
              · rfl
          | work t =>
              simp only [saw, observe, processes]
              rcases w.eng.pool.threads t with _ | _ | ⟨slot, pc⟩
              · exact none
              · exact none
              · cases pc with
                | process => rfl
                | _ => exact none
          | _ => exact none

theorem plays_slotBeats (w : Watch α) (slot : Nat) (a : HostAction α) :
    Xrune.plays (w.slotBeats slot a) = ((w.processes a).filter (· = slot)).length := by
  cases a with
  | resolve | set => rfl
  | raiseFinished v =>
      simp only [slotBeats, Engine.beats, processes]
      split <;> rfl
  | api b =>
      cases b with
      | audio b =>
          cases b with
          | drain =>
              simp only [slotBeats, Engine.beats, processes]
              split
              · split <;> rfl
              · rfl
          | compute =>
              simp only [slotBeats, Engine.beats, processes]
              split
              · rfl
              · exact plays_map_played _
          | work t =>
              simp only [slotBeats, Engine.beats, processes]
              rcases w.eng.pool.threads t with _ | _ | ⟨s, pc⟩
              · rfl
              · rfl
              · cases pc with
                | process => by_cases here : s = slot <;> simp [Xrune.plays, Beat.isPlayed, here]
                | _ => rfl
          | raiseFinished h =>
              simp only [slotBeats, Engine.beats, processes]
              split <;> rfl
          | _ => rfl
      | _ => rfl

/-- The instances processed are in active slots. -/
theorem processes_active (S : SlotInv w.eng.tables) (B : BlockInv w.eng) :
    ∀ slot ∈ w.processes a, slot ∈ w.eng.activeList := by
  intro slot hs
  unfold processes at hs
  split at hs
  · split at hs
    · cases hs
    · exact (w.eng.clearMaster.computeOrder_perm (w.eng.clearMaster.wellFormed S)).mem_iff.mp hs
  next t =>
    split at hs
    next s thread =>
      obtain rfl := List.mem_singleton.mp hs
      have hin : w.eng.inBlock = true := by
        by_contra out
        exact (B.quiet (by simpa using out)).2 t slot _ thread
      exact (B.running hin thread).1
    · cases hs
  · cases hs

/-- A step's beats for a voice play it as often as the watch sees it played. -/
theorem plays_beats (S : SlotInv w.eng.tables) (V : VoiceInv w.host.session) (B : BlockInv w.eng)
    (one : w.step a = some w') (k : Nat) :
    (w'.played k).length = (w.played k).length + Xrune.plays (w.beats k a) := by
  have kept : ∀ s ∈ w.processes a, s < w.eng.mgr.capacity ∧ s ∉ w.eng.mgr.freeSlots :=
    fun s hs =>
      have act := processes_active S B s hs
      ⟨S.lt_of_active act, fun hf => S.not_active_of_free hf act⟩
  rw [played_of_step one]
  simp only [Watch.plays, List.length_append, List.length_map, filter_voice V kept k]
  unfold beats
  cases w.host.session.spawned[k]? with
  | none => rfl
  | some v =>
      rw [Option.elim_some]
      dsimp only
      split
      · rw [plays_slotBeats]
      · rfl

end Watch

/-- The lifetime checks follow the execution. -/
theorem Watch.phase_of_finish [Sample α] {w w' : Watch α}
    (one : w.step (.api (.audio .finish)) = some w') : w.eng.phase = .computed := by
  obtain ⟨h, hh, -⟩ := Option.map_eq_some_iff.mp one
  cases Host.step_cases hh with
  | @api b s call =>
      obtain ⟨-, out, stepped, -⟩ := Session.step_cases call
      generalize s.rt = rt' at stepped
      cases stepped with
      | audio thread ok =>
          cases Engine.step_cases ok with
          | finish phase => exact phase

/-- A voice is checked in one block after another. -/
theorem WatchInv.blocks {orderly : Prop}
    {hears : LifetimePolicy α → Bool → GraphInstance α → Prop} {w : Watch α}
    (I : WatchInv orderly hears w) (k : Nat) :
    (w.heard k).map Prod.fst = List.range' (w.began k) (w.heard k).length := by
  by_cases born : k < w.lives.length
  · rcases I.accounted k born with ⟨slot, act | ⟨h, hh, rfl⟩, rfl⟩ | gone
    · exact (I.active slot act).1.blocks.1
    · rw [(I.pending h hh).1.heard]
      rfl
    · obtain ⟨⟨k', why⟩, ended, rfl⟩ := List.mem_map.mp gone
      obtain ⟨T, lived, -, -, began, -, heard⟩ := I.ended _ why ended
      rw [← heard, ← began]
      exact lived.blocks.1
  · rw [(I.unborn k (not_lt.mp born)).heard]
    rfl

namespace Chronicle

/-- The story of each voice keeps time. -/
structure Paced (c : Chronicle α) : Prop where
  played : ∀ k, plays (c.story k) = (c.watch.played k).length
  so_far : ∀ k, ∀ scene ∈ c.scenes k, scene <+: c.story k
  scenes : ∀ k n scene, (c.scenes k)[n]? = some scene → plays scene = n + 1

variable [Sample α] {c c' : Chronicle α} {a : HostAction α}

theorem Paced.step (P : c.Paced) (T : c.Told) (H : HostInv c.host) (B : BlockInv c.watch.eng)
    (W : WatchInv True (fun _ _ _ => True) c.watch) (one : c.step a = some c') : c'.Paced := by
  obtain ⟨watch, -, hstory, hscenes⟩ := step_cases one
  have S := H.runtime.engine.slots
  -- a scene added at this step, if any
  have scene : ∀ k, c'.scenes k = c.scenes k ∨
      c'.scenes k = c.scenes k ++ [c.story k] ∧ plays (c.story k) = (c.scenes k).length + 1 := by
    intro k
    by_cases checks : a = .api (.audio .finish)
    · subst checks
      have heard := congrFun (Watch.heard_of_finish watch) k
      rcases Watch.hears_voice S H.voices k with same | ⟨slot, act, rfl, g, -, more⟩
      · left
        rw [hscenes, heard, same, Nat.sub_self, List.replicate_zero, List.append_nil]
      · right
        have phase := Watch.phase_of_finish watch
        have counted := (W.active slot act).1.counted trivial
        have turn : (c.watch.tenure slot).turn = .computed := by
          simp [Watch.tenure, Engine.turn, phase]
        rw [Tenure.Counted, turn] at counted
        have long := congrArg List.length counted.1
        rw [List.length_range'] at long
        refine ⟨?_, ?_⟩
        · rw [hscenes, heard, more, List.length_append, Nat.add_sub_cancel_left]
          rfl
        · rw [P.played, (T.scenes _).1]
          exact long
    · left
      rw [hscenes, congrFun (Watch.heard_of_step watch checks) k, Nat.sub_self,
        List.replicate_zero, List.append_nil]
  refine ⟨fun k => ?_, fun k s hs => ?_, fun k n s hs => ?_⟩
  · rw [hstory, plays_append, P.played, Watch.plays_beats S H.voices B watch]
  · rw [hstory]
    refine List.IsPrefix.trans ?_ (List.prefix_append ..)
    rcases scene k with same | ⟨more, -⟩
    · exact P.so_far k s (same ▸ hs)
    · rw [more] at hs
      rcases List.mem_append.mp hs with old | new
      · exact P.so_far k s old
      · rw [List.mem_singleton.mp new]
  · rcases scene k with same | ⟨more, count⟩
    · exact P.scenes k n s (same ▸ hs)
    · rw [more] at hs
      by_cases old : n < (c.scenes k).length
      · rw [List.getElem?_append_left old] at hs
        exact P.scenes k n s hs
      · have lt := (List.getElem?_eq_some_iff.mp hs).1
        rw [List.length_append, List.length_singleton] at lt
        obtain rfl : n = (c.scenes k).length := by omega
        rw [List.getElem?_concat_length] at hs
        rw [← Option.some.inj hs, count]

variable {cfg : EngineConfig} {cb : Bool} {ok : Host α → HostAction α → Prop}

theorem paced_of_reaches (block : ∀ h a, ok h a → h.BlockOk a)
    (run : ChronicleReaches cfg cb ok c) : c.Paced := by
  obtain ⟨s₀, h₀, run⟩ := run
  induction run with
  | refl => exact ⟨fun _ => rfl, fun _ _ h => (by cases h), fun _ _ _ h => (by cases h)⟩
  | tail run meets one ih =>
      have here : ChronicleReaches cfg cb ok _ := ⟨s₀, h₀, run⟩
      exact ih.step (told_of_reaches here) (hostInv_of_reaches here.watch.host)
        (blockInv_of_hostReaches block here.watch.host)
        (watchInv_of_reaches (fun _ => block) (fun _ _ _ _ _ _ _ _ => trivial) here.watch) one

theorem setup_of_reaches (run : ChronicleReaches cfg cb ok c) :
    c.watch.eng.setup = (cfg.sampleRate, cfg.blockSize, cfg.outputChannels) := by
  refine run.watch.host.invariant (P := fun h => h.rt.eng.setup = _) (fun s h₀ => ?_)
    fun h a h' reached same _ one =>
      (Host.setup_of_step (hostInv_of_reaches reached) one).trans same
  obtain ⟨rt, hrt, rfl⟩ := Option.map_eq_some_iff.mp h₀
  obtain ⟨e, he, rfl⟩ := Option.map_eq_some_iff.mp hrt
  unfold Engine.init at he
  split at he
  · cases he
  · obtain rfl := Option.some.inj he
    rfl

/-- A voice was built from what it was spawned from. -/
theorem built_of_reaches (run : ChronicleReaches cfg cb ok c) {k : Nat} {v : Voice}
    {r : Registered α} (spawned : c.spawned[k]? = some v)
    (registered : c.host.rt.registry[v.blueprint]? = some r) :
    ∃ g, instantiate r.sched cfg.sampleRate = some g := by
  have lt := (List.getElem?_eq_some_iff.mp spawned).1
  obtain ⟨g, born⟩ := (told_of_reaches run).born k lt
  have rate : c.watch.eng.sampleRate = cfg.sampleRate := congrArg Prod.fst (setup_of_reaches run)
  simp only [debut, spawned, registered, Option.bind_eq_bind, Option.bind_some,
    Option.bind_eq_some_iff] at born
  obtain ⟨writes, -, g₀, built, -⟩ := born
  exact ⟨g₀, rate ▸ built⟩

/-- The instance a voice began as, when it is known what it was spawned from. -/
theorem debut_eq (run : ChronicleReaches cfg cb ok c) {k : Nat} {v : Voice} {r : Registered α}
    {writes : List (InitialParam α)} {g : GraphInstance α} (spawned : c.spawned[k]? = some v)
    (registered : c.host.rt.registry[v.blueprint]? = some r)
    (opening : c.opening[k]? = some writes)
    (built : instantiate r.sched cfg.sampleRate = some g) :
    c.debut k = some (g.opened writes) := by
  have rate : c.watch.eng.sampleRate = cfg.sampleRate := congrArg Prod.fst (setup_of_reaches run)
  rw [← rate] at built
  simp only [debut, spawned, registered, opening, built, Option.bind_eq_bind, Option.bind_some]

theorem registry_of_runs {as : List (HostAction α)}
    {id : Nat} {r : Registered α} (registered : c.host.rt.registry[id]? = some r)
    (run : runs Chronicle.step c as = some c') : c'.host.rt.registry[id]? = some r := by
  induction as generalizing c with
  | nil =>
      cases run
      exact registered
  | cons a as ih =>
      obtain ⟨c₁, one, rest⟩ := Option.bind_eq_some_iff.mp run
      exact ih (Host.registry_of_step (host_of_step one) registered) rest

/-- What was registered at first is registered at last. -/
theorem registry_of_first {id : Nat} {r : Registered α} (as bs : List (HostAction α))
    (first : (runs Chronicle.step c as).bind (fun c => c.host.rt.registry[id]?) = some r)
    (run : runs Chronicle.step c (as ++ bs) = some c') : c'.host.rt.registry[id]? = some r := by
  rw [runs_append] at run
  obtain ⟨c₁, one, rest⟩ := Option.bind_eq_some_iff.mp run
  rw [one] at first
  exact registry_of_runs first rest

end Chronicle

namespace GraphInstance

variable [Sample α] {g : GraphInstance α}

theorem sched_opened (g : GraphInstance α) (writes : List (InitialParam α)) :
    (g.opened writes).sched = g.sched :=
  congrArg Prod.fst (foldl_keeps frame (fun g _ => g.frame_initParameter ..) writes g)

end GraphInstance

section Heard

variable [Sample α] {cfg : EngineConfig} {cb : Bool} {ok : Host α → HostAction α → Prop}
  {c : Chronicle α}

/-- **A voice without input terminals is heard by itself**: at the check of its `n`-th block its
instance is the one `spawn` built, after the story so far, and in that story it was processed
`n + 1` times. -/
theorem heard_replayed (block : ∀ h a, ok h a → h.BlockOk a)
    (run : ChronicleReaches cfg cb ok c) {k : Nat} {v : Voice} {r : Registered α}
    {writes : List (InitialParam α)} {g₀ : GraphInstance α} (spawned : c.spawned[k]? = some v)
    (registered : c.host.rt.registry[v.blueprint]? = some r)
    (opening : c.opening[k]? = some writes)
    (built : instantiate r.sched cfg.sampleRate = some g₀)
    (closed : r.sched.bp.inputTerminals = []) {n b : Nat} {g : GraphInstance α}
    (heard : (c.watch.heard k)[n]? = some (b, g)) :
    b = c.watch.began k + n ∧ ∃ scene, scene <+: c.story k ∧ plays scene = n + 1 ∧
      (c.scenes k)[n]? = some scene ∧ g = (g₀.opened writes).after scene := by
  have T := Chronicle.told_of_reaches run
  have P := Chronicle.paced_of_reaches block run
  have W : WatchInv False (fun _ _ _ => True) c.watch :=
    watchInv_of_reaches (fun o => o.elim) (fun _ _ _ _ _ _ _ _ => trivial) run.watch
  have debut := Chronicle.debut_eq run spawned registered opening built
  have closed : (g₀.opened writes).Closed := by
    rw [GraphInstance.Closed, GraphInstance.sched_opened, (instantiate_eq_some built).2]
    exact closed
  have instances := congrArg (·[n]?) ((T.scenes k).2 _ debut closed)
  have blocks := congrArg (·[n]?) (W.blocks k)
  have lt := (List.getElem?_eq_some_iff.mp heard).1
  simp only [List.getElem?_map, heard, Option.map_some] at instances blocks
  rw [List.getElem?_range' lt, one_mul] at blocks
  obtain ⟨scene, here, rfl⟩ := Option.map_eq_some_iff.mp instances.symm
  exact ⟨Option.some.inj blocks, scene, P.so_far k scene (List.mem_of_getElem? here),
    P.scenes k n scene here, here, rfl⟩

/-- **Voices do not hear one another**: two voices of one schedule without input terminals, in
whatever runs of whatever engines of one sample rate, are at their checks the same instance, if
they were opened alike and their stories so far are the same. -/
theorem heard_alike {cfg' : EngineConfig} {cb' : Bool} {ok' : Host α → HostAction α → Prop}
    {c' : Chronicle α} (block : ∀ h a, ok h a → h.BlockOk a)
    (block' : ∀ h a, ok' h a → h.BlockOk a) (run : ChronicleReaches cfg cb ok c)
    (run' : ChronicleReaches cfg' cb' ok' c') (rate : cfg.sampleRate = cfg'.sampleRate)
    {k k' : Nat} {v v' : Voice} {r r' : Registered α} {writes : List (InitialParam α)}
    (spawned : c.spawned[k]? = some v) (spawned' : c'.spawned[k']? = some v')
    (registered : c.host.rt.registry[v.blueprint]? = some r)
    (registered' : c'.host.rt.registry[v'.blueprint]? = some r') (same : r.sched = r'.sched)
    (closed : r.sched.bp.inputTerminals = []) (opening : c.opening[k]? = some writes)
    (opening' : c'.opening[k']? = some writes) {n n' b b' : Nat} {g g' : GraphInstance α}
    (heard : (c.watch.heard k)[n]? = some (b, g))
    (heard' : (c'.watch.heard k')[n']? = some (b', g')) {scene : List (Beat α)}
    (story : (c.scenes k)[n]? = some scene) (story' : (c'.scenes k')[n']? = some scene) :
    n = n' ∧ g = g' := by
  obtain ⟨g₀, built⟩ := Chronicle.built_of_reaches run spawned registered
  obtain ⟨-, s, -, count, here, rfl⟩ :=
    heard_replayed block run spawned registered opening built closed heard
  obtain ⟨-, s', -, count', here', rfl⟩ := heard_replayed block' run' spawned' registered' opening'
    (same ▸ rate ▸ built) (same ▸ closed) heard'
  obtain rfl : scene = s := Option.some.inj (story.symm.trans here)
  obtain rfl : scene = s' := Option.some.inj (story'.symm.trans here')
  exact ⟨Nat.succ.inj (count.symm.trans count'), rfl⟩

end Heard

/-! A voice alone, and one that feeds a bus beside it, on an engine with a worker. -/

/-- Noise, heard through one terminal. -/
def hissBlueprint : GraphBlueprint ℚ where
  nodes := [Nodes.whiteNoise 1]
  names := ["hiss"]
  outputTerminals := [⟨"out", 0, []⟩]

def hissAlone : List (HostAction ℚ) :=
  List.map .api [.register "hiss" (.single hissBlueprint 1), .spawn 0 { life := permanent },
    .advance, .advance, .advance, .audio (.begin 1), .audio .drain, .audio .drain,
    .audio .compute, .audio .finish, .audio .writeOut]

/-- The noise of slot 1 feeds the bus of slot 0. -/
def hissBeside : List (HostAction ℚ) :=
  List.map .api <|
    .register "bus" busSchedule :: .register "hiss" (.single hissBlueprint 1) ::
      spawnTwo 1 ++ routed (busVoice 1 1) (busVoice 0 0) ++ drained 5 ++ [.audio .compute] ++
      executedAlone ++ [.audio .finish, .audio .writeOut]

def Chronicle.blockFedByLater (c : Chronicle ℚ) : HostAction ℚ → Bool
  | .api a => c.host.session.blockFedByLater a
  | _ => true

/-- Voice `k` is of the blueprint `id` and was heard once, at the end of its first block. -/
def Chronicle.heardOnce (c : Chronicle ℚ) (k id : Nat) : Bool :=
  match c.spawned[k]?, c.opening[k]?, c.watch.heard k, c.scenes k with
  | some v, some [], [_], [[.played]] => v.blueprint == id
  | _, _, _, _ => false

theorem Chronicle.heardOnce_iff {c : Chronicle ℚ} {k id : Nat} (once : c.heardOnce k id = true) :
    ∃ v b, c.spawned[k]? = some v ∧ v.blueprint = id ∧ c.opening[k]? = some [] ∧
      (c.watch.heard k)[0]? = some b ∧ (c.scenes k)[0]? = some [.played] := by
  unfold heardOnce at once
  split at once
  next v b spawned opening heard scenes =>
    exact ⟨v, b, spawned, beq_iff_eq.mp once, opening, by rw [heard]; rfl, by rw [scenes]; rfl⟩
  · cases once

/-- The noise is the same, alone and beside the bus it feeds. -/
theorem heard_alike_hiss : ∃ (c c' : Chronicle ℚ) (b b' : Nat × GraphInstance ℚ),
    runs Chronicle.step (.init aloneSession) hissAlone = some c ∧
      runs Chronicle.step (.init twoSlots) hissBeside = some c' ∧
        (c.watch.heard 0)[0]? = some b ∧ (c'.watch.heard 1)[0]? = some b' ∧ b.2 = b'.2 := by
  obtain ⟨c, hc, once⟩ := exists_of_runs Chronicle.step (.init aloneSession) hissAlone
    (fun c => c.heardOnce 0 0) (by decide +kernel)
  obtain ⟨c', hc', once'⟩ := exists_of_runs Chronicle.step (.init twoSlots) hissBeside
    (fun c => c.heardOnce 1 1) (by decide +kernel)
  have alone : allMeet Chronicle.step (fun c _ => c.watch.eng.pool.workers == 0)
      (.init aloneSession) hissAlone = true := by decide +kernel
  have beside : allMeet Chronicle.step Chronicle.blockFedByLater (.init twoSlots) hissBeside
      = true := by decide +kernel
  have run : ChronicleReaches (.small 1 0 (by decide)) true (fun h a => h.BlockOk a) c :=
    ⟨_, rfl, (Reaches.of_runs_meet hc alone).mono fun _ a ok =>
      Host.blockOk_of_alone (beq_iff_eq.mp ok) a⟩
  have run' : ChronicleReaches (.small 2 1 (by decide)) true (fun h a => h.BlockOk a) c' := by
    refine ⟨_, rfl, (Reaches.of_runs_meet hc' beside).mono fun c a ok => ?_⟩
    rintro b rfl
    exact Session.blockOk_of_fedByLater ok b rfl
  obtain ⟨v, b, spawned, id, opening, heard, story⟩ := Chronicle.heardOnce_iff once
  obtain ⟨v', b', spawned', id', opening', heard', story'⟩ := Chronicle.heardOnce_iff once'
  have registered : c.host.rt.registry[v.blueprint]?
      = some ⟨"hiss", .single hissBlueprint 1⟩ := by
    rw [id]
    exact Chronicle.registry_of_first (hissAlone.take 1) (hissAlone.drop 1) rfl hc
  have registered' : c'.host.rt.registry[v'.blueprint]?
      = some ⟨"hiss", .single hissBlueprint 1⟩ := by
    rw [id']
    exact Chronicle.registry_of_first (hissBeside.take 2) (hissBeside.drop 2) rfl hc'
  exact ⟨c, c', b, b', hc, hc', heard, heard', (heard_alike (fun _ _ ok => ok) (fun _ _ ok => ok)
    run run' rfl spawned spawned' registered registered' rfl rfl opening opening' heard heard'
    story story').2⟩

end Xrune
