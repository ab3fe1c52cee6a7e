import Xrune.Runtime.Lives
import Xrune.Schedule.Compile

/-!
# Runtime — voices that are reaped

`should_reap` has two reasons of its own to release a voice: a timed voice's time is up, and a
voice was quiet for long enough.

* `reaped_for_silence`: a voice reaped for silence was below its threshold, in every sample of
  every channel of every output terminal, in the last `silence_blocks` blocks it was processed
  in, if the first frames of the first output terminal, which are all the check looks at, tell
  so in every block.
* `timed_voice`: a timed voice is processed in `max 1 ttl` consecutive blocks from the one that
  activates it on, if every parallel block begins on an acyclic routing graph seeded race-free.
-/

namespace Xrune

/-! ### Silence -/

section Silence

variable {K : Type} [Field K] [LinearOrder K] [FloorRing K]

namespace GraphInstance

/-- The first `nf` frames of the first output terminal are below `t`. -/
def FirstQuiet (g : GraphInstance K) (nf : Nat) (t : K) : Prop :=
  ∀ c < g.outputTerminalChannels 0, ∀ i < nf, |g.read (g.outputTerminalView 0 c) i| < t

/-- Every sample of every channel of every output terminal is below `t`. -/
def Silent (g : GraphInstance K) (t : K) : Prop :=
  ∀ n < g.outputTerminalCount, ∀ c < g.outputTerminalChannels n,
    ∀ x ∈ g.readView (g.outputTerminalView n c), |x| < t

end GraphInstance

variable [IsStrictOrderedRing K]

/-- The first terminal tells of the instance if it is the only one and its frames fill it. -/
theorem GraphInstance.FirstQuiet.silent {g : GraphInstance K} {nf : Nat} {t : K} (pos : 0 < t)
    (one : g.outputTerminalCount ≤ 1)
    (whole : ∀ c < g.outputTerminalChannels 0,
      (g.readView (g.outputTerminalView 0 c)).length ≤ nf)
    (quiet : g.FirstQuiet nf t) : g.Silent t := by
  intro n hn c hc x hx
  obtain rfl : n = 0 := Nat.lt_one_iff.mp (hn.trans_le one)
  have long := whole c hc
  have here := quiet c hc
  generalize g.outputTerminalView 0 c = v at hx long here
  cases v with
  | silent size =>
      obtain rfl := List.eq_of_mem_replicate hx
      simpa using pos
  | pool start size =>
      obtain ⟨i, hi, rfl⟩ := List.mem_map.mp hx
      simp only [GraphInstance.readView, List.length_map, List.length_range] at long
      exact here i ((List.mem_range.mp hi).trans_le long)

theorem Sample.fabs_exact (x : K) : Sample.fabs x = |x| := by
  unfold Sample.fabs
  by_cases neg : x < 0
  · rw [abs_of_neg neg]
    exact if_pos (decide_eq_true neg)
  · rw [abs_of_nonneg (not_lt.mp neg)]
    exact if_neg (by simpa [Sample.lt] using neg)

omit [IsStrictOrderedRing K] in
theorem Sample.max_lt_iff {x y t : K} : Sample.max x y < t ↔ x < t ∧ y < t := by
  have exact : Sample.max x y = if x < y then y else x := by simp [Sample.max, Sample.lt]
  rw [exact]
  split
  next less => exact ⟨fun h => ⟨less.trans h, h⟩, And.right⟩
  next more => exact ⟨fun h => ⟨h, (not_lt.mp more).trans_lt h⟩, And.left⟩

omit [Field K] [FloorRing K] [IsStrictOrderedRing K] in
/-- A running maximum. -/
theorem foldl_lt_iff {ι : Type} {f : K → ι → K} {P : ι → Prop} {t : K}
    (one : ∀ p i, f p i < t ↔ p < t ∧ P i) (l : List ι) :
    ∀ p, l.foldl f p < t ↔ p < t ∧ ∀ i ∈ l, P i := by
  induction l with
  | nil => simp
  | cons i l ih =>
      intro p
      rw [List.foldl_cons, ih, one, List.forall_mem_cons, and_assoc]

/-- **What the check looks at.** -/
theorem Engine.terminalPeak_lt_iff {g : GraphInstance K} {nf : Nat} {t : K} :
    Engine.terminalPeak g nf < t ↔ 0 < t ∧ g.FirstQuiet nf t := by
  unfold Engine.terminalPeak GraphInstance.FirstQuiet
  by_cases none : g.outputTerminalCount = 0
  · have nil : g.sched.bp.outputTerminals = [] := List.length_eq_zero_iff.mp none
    have silent : g.outputTerminalChannels 0 = 0 := by
      rw [GraphInstance.outputTerminalChannels, nil]
      rfl
    simp [none, silent]
  · have channel (p : K) (c : Nat) : (List.range nf).foldl (fun p i =>
          Sample.max p (Sample.fabs (g.read (g.outputTerminalView 0 c) i))) p < t
        ↔ p < t ∧ ∀ i ∈ List.range nf, |g.read (g.outputTerminalView 0 c) i| < t :=
      foldl_lt_iff (fun p i => by rw [Sample.max_lt_iff, Sample.fabs_exact]) _ p
    rw [if_neg none, foldl_lt_iff channel]
    simp only [List.mem_range]

/-- Where the lifetime checks find a voice quiet that is to end with silence, it is silent. -/
def Host.SilenceTold (h : Host K) (a : HostAction K) : Prop :=
  a = .api (.audio .finish) → ∀ slot ∈ h.rt.eng.activeList, ∀ g,
    (h.rt.eng.mgr.slots slot).inst = some g → (h.rt.eng.leases slot).life.kind = .untilSilent →
      let t := (h.rt.eng.leases slot).life.silenceThreshold
      0 < t → g.FirstQuiet h.rt.eng.parallelNf t → g.Silent t

end Silence

/-! A constant with one terminal, and one with another beside it. -/

/-- `constant(0)`, heard through one terminal. -/
def quietBlueprint : GraphBlueprint ℚ where
  nodes := [Nodes.constant 0]
  names := ["quiet"]
  outputTerminals := [⟨"out", 0, []⟩]

/-- ... and `constant(1)`, heard through another. -/
def loudBlueprint : GraphBlueprint ℚ where
  nodes := [Nodes.constant 0, Nodes.constant 1]
  names := ["quiet", "loud"]
  outputTerminals := [⟨"out", 0, []⟩, ⟨"send", 1, []⟩]

/-- A voice of the blueprint, to end with one block below `1 / 2`, is spawned and played. -/
def playedOut (bp : GraphBlueprint ℚ) : List (HostAction ℚ) :=
  List.map .api [.register "voice" (compile bp 1), .spawn 0 { life := ⟨.untilSilent, 0, 1 / 2, 1⟩ },
    .advance, .advance, .advance, .audio (.begin 1), .audio .drain, .audio .drain,
    .audio .compute, .audio .finish, .audio .reap, .audio .writeOut]

/-- A pool of one slot, and no worker. -/
def oneSlotWatch : Watch ℚ := .init aloneSession

/-- What the check looks at is all of each active instance. -/
def Host.tellsAll (h : Host ℚ) : HostAction ℚ → Bool
  | .api (.audio .compute) => h.rt.eng.pool.workers == 0
  | .api (.audio .finish) => h.rt.eng.activeList.all fun slot =>
      (h.rt.eng.mgr.slots slot).inst.all fun g => decide (g.outputTerminalCount ≤ 1) &&
        (List.range (g.outputTerminalChannels 0)).all fun c =>
          decide ((g.readView (g.outputTerminalView 0 c)).length ≤ h.rt.eng.parallelNf)
  | _ => true

theorem Host.blockOk_of_alone {α : Type} {h : Host α} (alone : h.rt.eng.pool.workers = 0)
    (a : HostAction α) : h.BlockOk a :=
  fun _ _ _ workers => absurd alone workers

theorem Host.tellsAll_ok {h : Host ℚ} {a : HostAction ℚ} (tells : h.tellsAll a = true) :
    h.BlockOk a ∧ h.SilenceTold a := by
  refine ⟨?_, ?_⟩
  · rintro b rfl rfl
    exact blockOk_of_alone (by simpa [tellsAll] using tells) _ _ rfl rfl
  · rintro rfl slot act g hg - t pos quiet
    have all := List.all_eq_true.mp tells slot act
    rw [hg, Option.all_some, Bool.and_eq_true] at all
    refine quiet.silent pos (of_decide_eq_true all.1) fun c hc => ?_
    exact of_decide_eq_true (List.all_eq_true.mp all.2 c (List.mem_range.mpr hc))

/-- The only voice was reaped for silence, and heard once, loud at its second terminal. -/
def Watch.reapedLoud (w : Watch ℚ) : Bool :=
  match w.ends, w.lives, w.heard 0 with
  | [(0, .silent)], [life], [(0, g)] =>
      decide (1 ≤ life.silenceBlocks) && decide (1 < g.outputTerminalCount) &&
        decide (0 < g.outputTerminalChannels 1) &&
        (g.readView (g.outputTerminalView 1 0)).any fun x => decide (life.silenceThreshold ≤ |x|)
  | _, _, _ => false

section Time

variable {α : Type} {w : Watch α}

/-- A route leads from a voice or to it. -/
def Watch.Routes (w : Watch α) (k : Nat) (r : ActiveRoute) : Prop :=
  w.voice r.srcSlot = k ∨ r.toMaster = false ∧ w.voice r.dstSlot = k

/-- A timed voice waits to be activated; or it is active, processed in every block from the one
that activated it on, and has blocks left when one ends; or it ended, once, with its time, after
`max 1 ttl` blocks, and no route leads from it or to it. -/
inductive Watch.LivesFor (w : Watch α) (k ttl : Nat) : Prop where
  | waiting {h : InstanceHandle} (queued : h ∈ activations w.eng.commandQueue)
      (voice : w.voice h.slot = k) (unplayed : w.played k = [])
  | active {slot n : Nat} (act : slot ∈ w.eng.activeList) (voice : w.voice slot = k)
      (played : w.played k = List.range' (w.began k) n) (left : n ≤ max 1 ttl)
      (between : w.eng.phase = .outside → n < max 1 ttl ∧ w.began k + n = w.block)
  | ended (once : w.ends.filter (fun e => e.1 = k) = [(k, .timedOut)])
      (played : w.played k = List.range' (w.began k) (max 1 ttl))
      (routes : ∀ r ∈ w.eng.routes, ¬ w.Routes k r)

namespace Tenure

variable {γ : Type} {orderly : Prop} {hears : LifetimePolicy α → Bool → γ → Prop} {T : Tenure α γ}

/-- A timed voice that goes on. -/
theorem Reached.timed (run : Reached orderly hears T) (holds : orderly)
    (timed : T.life.kind = .timed) :
    ∃ n ≤ max 1 T.life.ttlBlocks, T.played = List.range' T.began n ∧
      (T.turn = .before → n < max 1 T.life.ttlBlocks ∧ T.began + n = T.block) := by
  have C := run.counted holds
  obtain ⟨-, next⟩ := run.blocks
  unfold Counted at C
  cases turn : T.turn with
  | before =>
      rw [turn] at C next
      obtain ⟨played, -, left⟩ := C
      exact ⟨T.heard.length, (left timed).le, played, fun _ => ⟨left timed, next⟩⟩
  | inside once =>
      rw [turn] at C
      obtain ⟨played, -, left⟩ := C
      refine ⟨_, ?_, played, nofun⟩
      cases once with
      | false => exact (left timed).le
      | true => exact left timed
  | computed =>
      rw [turn] at C
      obtain ⟨played, -, left⟩ := C
      exact ⟨_, left timed, played, nofun⟩
  | checked why =>
      rw [turn] at C
      cases why with
      | none =>
          obtain ⟨played, -, left⟩ := C
          exact ⟨_, (left timed).le, played, nofun⟩
      | some why =>
          obtain ⟨played, due, -⟩ := C
          exact ⟨_, (due timed).1, played, nofun⟩

end Tenure

/-- Of the end records, a voice has the one it has. -/
theorem filter_eq_of_nodup_fst {β γ : Type} [DecidableEq β] {l : List (β × γ)} {k : β} {c : γ}
    (nodup : (l.map Prod.fst).Nodup) (mem : (k, c) ∈ l) :
    l.filter (fun e => e.1 = k) = [(k, c)] := by
  induction l with
  | nil => cases mem
  | cons e l ih =>
      rw [List.map_cons, List.nodup_cons] at nodup
      obtain ⟨out, nodup⟩ := nodup
      rcases List.mem_cons.mp mem with rfl | mem
      · have none : l.filter (fun e => e.1 = k) = [] :=
          List.filter_eq_nil_iff.mpr fun e he same =>
            out (List.mem_map.mpr ⟨e, he, of_decide_eq_true same⟩)
        rw [List.filter_cons_of_pos (by simp), none]
      · have other : e.1 ≠ k := fun same => out (same ▸ List.mem_map_of_mem mem)
        rw [List.filter_cons_of_neg (by simpa using other), ih nodup mem]

variable [Sample α]

/-- **Timed voices live exactly their ttl**, if neither killed nor finished before. -/
theorem timed_voice {cfg : EngineConfig} {cb : Bool}
    (run : WatchReaches cfg cb (fun h a => h.BlockOk a) w) {k : Nat} {life : LifetimePolicy α}
    (known : w.lives[k]? = some life) (timed : life.kind = .timed)
    (kept : (k, .killed) ∉ w.ends ∧ (k, .finished) ∉ w.ends) : w.LivesFor k life.ttlBlocks := by
  have I : WatchInv True (fun _ _ _ => True) w :=
    watchInv_of_reaches (fun _ _ _ meets => meets) (fun _ _ _ _ _ _ _ _ => trivial) run
  have S := (hostInv_of_reaches run.host).runtime.engine.slots
  rcases I.accounted k (List.getElem?_eq_some_iff.mp known).1 with ⟨slot, held, rfl⟩ | gone
  · obtain rfl : (w.eng.leases slot).life = life :=
      Option.some.inj ((I.policy slot held).symm.trans known)
    rcases held with act | ⟨h, hh, rfl⟩
    · obtain ⟨n, left, played, between⟩ := (I.active slot act).1.timed trivial timed
      refine .active act rfl played left fun outside => between ?_
      have before : w.eng.turn slot = .before := by rw [Engine.turn, outside]
      exact before
    · exact .waiting hh rfl ((I.pending h hh).1.played trivial)
  · obtain ⟨⟨k', why⟩, mem, rfl⟩ := List.mem_map.mp gone
    obtain ⟨T, lived, releases, policy, began, played, -⟩ := I.ended k' why mem
    obtain rfl : T.life = life := Option.some.inj (policy.symm.trans known)
    obtain ⟨consecutive, due, time, -⟩ := lived.released trivial releases
    have timedOut : why = .timedOut := by
      cases why with
      | killed => exact absurd mem kept.1
      | finished => exact absurd mem kept.2
      | timedOut => rfl
      | silent => exact absurd rfl (due timed).2
    subst timedOut
    refine .ended (filter_eq_of_nodup_fst I.once mem) ?_ fun r hr leads => ?_
    · rw [← played trivial, consecutive, began, (time rfl).2]
    · obtain ⟨⟨src, -⟩, dst⟩ := S.routes r hr
      rcases leads with same | ⟨slots, same⟩
      · exact (I.active _ src).2 (same ▸ gone)
      · exact (I.active _ (dst slots).1).2 (same ▸ gone)

end Time

/-- A voice spawned for `n + 1` blocks is played in them, each executed by the audio thread, and
reaped. -/
def playedFor (n : Nat) : List (HostAction ℚ) :=
  List.map .api <|
    [.register "bus" busSchedule, .spawn 0 { life := ⟨.timed, n + 1, 0, 0⟩ },
      .advance, .advance, .advance, .audio (.begin 1), .audio .drain, .audio .drain] ++
    (List.replicate n
      [.audio .compute, .audio .finish, .audio .writeOut, .audio (.begin 1)]).flatten ++
    [.audio .compute, .audio .finish, .audio .reap, .audio .writeOut]

theorem timed_voice_two : ∃ w : Watch ℚ, w.ends = [(0, .timedOut)] ∧ w.LivesFor 0 2 := by
  obtain ⟨w, hw, ended⟩ := exists_of_runs Watch.step oneSlotWatch (playedFor 1)
    (fun w => w.ends == [(0, .timedOut)] &&
      w.lives.map (fun life => (life.kind, life.ttlBlocks)) == [(.timed, 2)]) (by decide +kernel)
  have meet : allMeet Watch.step (fun w _ => w.host.rt.eng.pool.workers == 0) oneSlotWatch
      (playedFor 1) = true := by decide +kernel
  have reached : WatchReaches (.small 1 0 (by decide)) true (fun h a => h.BlockOk a) w :=
    ⟨_, rfl, (Reaches.of_runs_meet hw meet).mono fun _ a alone =>
      Host.blockOk_of_alone (beq_iff_eq.mp alone) a⟩
  simp only [Bool.and_eq_true, beq_iff_eq] at ended
  obtain ⟨ends, lives⟩ := ended
  obtain ⟨life, hlife, known⟩ := List.map_eq_singleton_iff.mp lives
  obtain ⟨timed, ttl⟩ := Prod.mk.inj known
  have lived := timed_voice reached (k := 0) (by rw [hlife]; rfl) timed
    (by rw [ends]; decide)
  exact ⟨w, ends, ttl ▸ lived⟩

/-! Two buses of which one feeds the other, and a timed voice beside them. -/

/-- A pool of three slots and one worker. -/
def threeSlotsWatch : Watch ℚ := .init ((Session.init (.small 3 1 EngineConfig.fits_three) true).get rfl)

/-- The worker executes the first bus and pushes the second before the audio thread looks at the
second and, finding its count at zero, pushes it too; both tasks are counted, and the block ends
before the timed voice's has been taken. -/
def besidePushedTwice : List (HostAction ℚ) :=
  List.map .api <|
    twoBuses ++ [.spawn 0 { life := ⟨.timed, 1, 0, 0⟩ }, .advance, .advance, .advance] ++
      routed (busVoice 0 0) (busVoice 1 0) ++ drained 7 ++ [.audio .compute] ++
      [.audio .seed] ++ takes 1 ++ works 1 14 ++ [.audio .seed, .audio .seed, .audio .seed] ++
      takes 1 ++ takes 0 ++ works 0 13 ++ works 1 13 ++
      [.audio .leave, .audio .finish, .audio .reap, .audio .writeOut]

/-- **A timed voice may time out unplayed.** -/
theorem timed_voice_unplayed :
    ∃ (w : Watch ℚ) (life : LifetimePolicy ℚ),
      WatchReaches (.small 3 1 (by decide)) true (fun _ _ => True) w ∧
      w.lives[2]? = some life ∧ life.kind = .timed ∧ w.ends = [(2, .timedOut)] ∧
      ¬ w.LivesFor 2 life.ttlBlocks := by
  obtain ⟨w, hw, h⟩ := exists_of_runs Watch.step threeSlotsWatch besidePushedTwice
    (fun w => w.ends == [(2, .timedOut)] && (w.lives[2]?.any fun life => life.kind == .timed) &&
      (activations w.eng.commandQueue).isEmpty &&
      w.eng.activeList.all (fun slot => w.voice slot != 2) && (w.played 2).isEmpty)
    (by decide +kernel)
  simp only [Bool.and_eq_true, beq_iff_eq, List.isEmpty_iff] at h
  obtain ⟨⟨⟨⟨ends, timed⟩, queue⟩, others⟩, played⟩ := h
  obtain ⟨life, known, timed⟩ := (Option.any_eq_true _ _).mp timed
  refine ⟨w, life, ⟨_, rfl, Reaches.of_runs hw⟩, known, beq_iff_eq.mp timed, ends, fun lives => ?_⟩
  cases lives with
  | waiting queued =>
      rw [queue] at queued
      cases queued
  | active act voice => exact absurd voice (by simpa using List.all_eq_true.mp others _ act)
  | ended once blocks =>
      have none := congrArg List.length (played.symm.trans blocks)
      rw [List.length_range'] at none
      exact absurd none (by simp; omega)

end Xrune
