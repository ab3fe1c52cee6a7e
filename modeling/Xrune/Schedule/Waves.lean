import Xrune.Support.Diagram
import Xrune.Schedule.Regroup

/-!
# Schedule — waves

A wave is a stream with its rate, as a multiple of the base sample rate.  What a node sounds like
is told by its own code, run over the whole streams in one call from its first state
(`Node.solo`); the rate of what it shows is that of what reaches it, times its ratio
(`Node.sound`).

The waves of a new instance are told by its blueprint alone: each node shows what it sounds like
on what reaches it (`waves_heard`).
-/

namespace Xrune

variable {α : Type}

/-- `rate` is a multiple of the base sample rate. -/
structure Wave (α : Type) where
  rate : Nat
  sample : Nat → α

namespace Wave

/-- The sample of a wave; `d` where there is no wave. -/
def level (d : α) (w : Option (Wave α)) (t : Nat) : α := w.elim d fun w => w.sample t

@[simp] theorem level_some (d : α) (w : Wave α) (t : Nat) : level d (some w) t = w.sample t := rfl

@[simp] theorem level_none (d : α) (t : Nat) : level d none t = d := rfl

def constant (k : α) : Wave α := ⟨1, fun _ => k⟩

def map (f : α → α) (w : Wave α) : Wave α := ⟨w.rate, fun t => f (w.sample t)⟩

/-- Sample by sample, at the rate of the first. -/
def zip (f : α → α → α) (v w : Wave α) : Wave α := ⟨v.rate, fun t => f (v.sample t) (w.sample t)⟩

/-- The sum of waves of one rate. -/
def sum [Zero α] [Add α] (ws : List (Wave α)) : Wave α :=
  ⟨(ws.head?.map rate).getD 1, fun t => (ws.map fun w => w.sample t).sum⟩

/-- The samples of cycle `T`, if a cycle is `B` base samples. -/
def cycle (w : Wave α) (B T : Nat) : List α :=
  (List.range (w.rate * B)).map fun k => w.sample (T * (w.rate * B) + k)

/-- What shows where nothing arrives. -/
def silence [Zero α] : Wave α := constant 0

end Wave

namespace Node

variable [Sample α]

/-- The views of a call of `m` steps, on the streams `x` at the inputs and `p` at the ports. -/
def soloContext (nd : Node α) (rate m : Nat) (x p : Nat → Nat → α) : ProcessingContext α where
  inputs := (List.range nd.inputsCount).map fun c => (List.range (m * nd.rateDen)).map (x c)
  outputs := List.replicate nd.outputsCount (List.replicate (m * nd.rateNum) 0)
  params := (List.range nd.paramsCount).map fun q =>
    ⟨some ((List.range (m * nd.rateDen)).map (p q)), 0, 0⟩
  sampleRate := rate
  blockSize := m * nd.rateNum

/-- Sample `t` of output `c`, in one call from the node's first state that is long enough. -/
def solo (nd : Node α) (rate : Nat) (x p : Nat → Nat → α) (c t : Nat) : α :=
  ((nd.process nd.initState (nd.soloContext rate (t + 1) x p)).2.getD c []).getD t 0

variable {nd : Node α} {M : SampleMachine α} {rate m c : Nat} {x p x' p' : Nat → Nat → α}

theorem handed_soloContext (nd : Node α) (rate m : Nat) (x p : Nat → Nat → α) :
    nd.Handed m (nd.soloContext rate m x p) where
  block := rfl
  inputs := by simp [soloContext, Function.comp_def]
  outputs := by simp [soloContext]

theorem input_soloContext {i : Nat} (hi : i < m * nd.rateDen) :
    (nd.soloContext rate m x p).input c i = if c < nd.inputsCount then x c i else 0 := by
  rw [ProcessingContext.input, soloContext]
  by_cases hc : c < nd.inputsCount
  · rw [if_pos hc, getD_map_range _ hc, getD_map_range _ hi]
  · rw [if_neg hc, List.getD_eq_default _ [] (by simpa using hc)]
    rfl

theorem param_soloContext [Sample.Steady α] {i : Nat} (hi : i < m * nd.rateDen) :
    (nd.soloContext rate m x p).param c i = if c < nd.paramsCount then p c i else 0 := by
  rw [ProcessingContext.param, soloContext]
  by_cases hc : c < nd.paramsCount
  · rw [if_pos hc, getD_map_range _ hc]
    exact getD_map_range _ hi 0
  · rw [if_neg hc, List.getD_eq_default _ _ (by simpa using hc)]
    exact Sample.Steady.silent i

/-- **A machine that realises the node plays what the node does**, on streams that say nothing of
inputs and ports the node does not have. -/
theorem Realises.solo [Sample.Steady α] (R : nd.Realises M) (pos : 0 < nd.rateNum)
    (hc : c < nd.outputsCount) (inputs : ∀ c t, x' c t = if c < nd.inputsCount then x c t else 0)
    (ports : ∀ q t, p' q t = if q < nd.paramsCount then p q t else 0) (t : Nat) :
    M.play rate M.start x' p' c t = nd.solo rate x p c t := by
  obtain ⟨-, played⟩ := R.call R.init (nd.handed_soloContext rate (t + 1) x p)
  have long : t < (t + 1) * nd.rateNum := Nat.lt_of_succ_le (Nat.le_mul_of_pos_right _ pos)
  rw [Node.solo, played c hc, getD_map_range _ long]
  refine SampleMachine.play_congr (m := t + 1) (fun c i hi => ?_) (fun q i hi => ?_)
    (R.num ▸ long)
  · rw [input_soloContext (R.den.symm ▸ hi), inputs]
  · rw [param_soloContext (R.den.symm ▸ hi), ports]

/-- The rate of what reaches a node, the base rate if nothing does. -/
def reachingRate (nd : Node α) (x p : Nat → Option (Wave α)) : Nat :=
  ((((List.range nd.inputsCount).map x ++ (List.range nd.paramsCount).map p).reduceOption).head?.map
    Wave.rate).getD 1

/-- What the node sounds like on the waves `x` at its inputs and `p` at its ports. -/
def sound (nd : Node α) (sampleRate : Nat) (x p : Nat → Option (Wave α)) (c : Nat) : Wave α :=
  let rate := nd.reachingRate x p * nd.rateNum / nd.rateDen
  ⟨rate, nd.solo (sampleRate * rate) (fun c => Wave.level 0 (x c))
    (fun q => Wave.level (nd.paramDefault q) (p q)) c⟩

end Node

namespace GraphBlueprint

variable (bp : GraphBlueprint α) (shown : Nat → Nat → Wave α)

/-- The wave at input `c` of node `v`, if one reaches it. -/
def waveInto (v c : Nat) : Option (Wave α) := (bp.inputDriver v c).map fun d => shown d.1 d.2

/-- The wave at port `q` of node `v`, if one reaches it. -/
def waveOnto (v q : Nat) : Option (Wave α) := (bp.portDriver v q).map fun d => shown d.1 d.2

/-- Nothing reaches an input the node does not have. -/
theorem Wired.waveInto_eq_none {bp : GraphBlueprint α} (W : bp.Wired)
    {shown : Nat → Nat → Wave α} {v c : Nat} {nd : Node α} (here : bp.nodes[v]? = some nd)
    (hc : nd.inputsCount ≤ c) : bp.waveInto shown v c = none := by
  rw [waveInto]
  cases driver : bp.inputDriver v c with
  | none => rfl
  | some d =>
      have port := (W.audio _ (inputDriver_eq_some driver)).2.2.2
      rw [inputsOf, here] at port
      exact absurd port (Nat.not_lt_of_le hc)

/-- Every node shows what it sounds like. -/
def Resounds [Sample α] (sampleRate : Nat) : Prop :=
  ∀ v (nd : Node α), bp.nodes[v]? = some nd → ∀ c < nd.outputsCount,
    shown v c = nd.sound sampleRate (bp.waveInto shown v) (bp.waveOnto shown v) c

end GraphBlueprint

namespace GraphInstance

variable [Sample α] [Sample.Steady α] {bp : GraphBlueprint α} {B sr : Nat} {g : GraphInstance α}

/-- The waves of an instance. -/
def waves (g : GraphInstance α) (v c : Nat) : Wave α :=
  ⟨g.sched.regionRate.getD v 1, g.played v c⟩

omit [Sample.Steady α] in
theorem iterate_process_sched (g : GraphInstance α) :
    ∀ n, (GraphInstance.process^[n] g).sched = g.sched
  | 0 => rfl
  | n + 1 => by rw [Function.iterate_succ_apply', process_sched, iterate_process_sched g n]

omit [Sample.Steady α] in
/-- The buffer of a node's output holds, after a cycle, the cycle's samples of its wave. -/
theorem readView_waves (W : bp.Wired) (built : instantiate (compile bp B) sr = some g) {v : Nat}
    (hv : v < bp.size) (c T : Nat) :
    (GraphInstance.process^[T + 1] g).readView
      ((GraphInstance.process^[T + 1] g).nodeOutputView v c) = (g.waves v c).cycle B T := by
  obtain ⟨ok, hs⟩ := instantiate_eq_some built
  obtain ⟨rates, hlayout, -, -⟩ := compile_of_ok W ok
  rw [hlayout] at hs
  have stride : g.sched.outStride.getD v 0 = (g.waves v c).rate * B := by
    show g.sched.outStride.getD v 0 = g.sched.regionRate.getD v 1 * B
    rw [hs]
    have rate : (layout bp B (topoRun bp).topoOrder rates).regionRate.getD v 1
        = (rates v).regionRate := getD_map_range _ hv 1
    rw [rate]
    exact getD_map_range _ hv 0
  have offset : (GraphInstance.process^[T + 1] g).outOffset v c = g.outOffset v c := by
    rw [outOffset, outOffset, iterate_process_sched]
  rw [nodeOutputView, readView, iterate_process_sched, offset, Wave.cycle, ← stride]
  refine List.map_congr_left fun k hk => ?_
  exact (played_cycle g v c T (List.mem_range.mp hk)).symm

omit [Sample α] [Sample.Steady α] in
/-- What reaches a node has the rate its drivers agree on. -/
theorem reachingRate_eq (W : bp.Wired) {rates : Rates} {v base : Nat} {blk : Int} {nd : Node α}
    (here : bp.nodes[v]? = some nd) (agree : DriversAgree bp rates v base blk)
    {shown : Nat → Nat → Wave α}
    (rated : ∀ u < bp.size, ∀ c, (shown u c).rate = (rates u).regionRate) :
    nd.reachingRate (bp.waveInto shown v) (bp.waveOnto shown v) = base := by
  rw [Node.reachingRate]
  set l := (List.range nd.inputsCount).map (bp.waveInto shown v)
    ++ (List.range nd.paramsCount).map (bp.waveOnto shown v) with hl
  cases first : l.reduceOption.head? with
  | some w =>
      -- some driver's wave
      have mem : some w ∈ l := List.reduceOption_mem_iff.mp (List.mem_of_mem_head? first)
      have driven : ∃ u c, u < bp.size ∧ (u, v) ∈ bp.edges ∧ shown u c = w := by
        rcases List.mem_append.mp mem with mem | mem
        · obtain ⟨c, -, hc⟩ := List.mem_map.mp mem
          obtain ⟨d, hd, hw⟩ := Option.map_eq_some_iff.mp hc
          have made := GraphBlueprint.inputDriver_eq_some hd
          exact ⟨d.1, d.2, (W.audio _ made).1,
            GraphBlueprint.mem_edges.mpr (.inl ⟨_, made, rfl⟩), hw⟩
        · obtain ⟨q, -, hq⟩ := List.mem_map.mp mem
          obtain ⟨d, hd, hw⟩ := Option.map_eq_some_iff.mp hq
          have made := GraphBlueprint.portDriver_eq_some hd
          exact ⟨d.1, d.2, (W.modulation _ made).1,
            GraphBlueprint.mem_edges.mpr (.inr ⟨_, made, rfl⟩), hw⟩
      obtain ⟨u, c, hu, edge, rfl⟩ := driven
      rw [Option.map_some, Option.getD_some, rated u hu]
      exact (agree.driven u edge).1
  | none =>
      have empty : l.reduceOption = [] := List.head?_eq_none_iff.mp first
      have none_of : ∀ {w}, some w ∉ l := fun {w} mem =>
        List.not_mem_nil (empty ▸ List.reduceOption_mem_iff.mpr mem)
      have alone : ∀ u, (u, v) ∉ bp.edges := by
        intro u edge
        rcases GraphBlueprint.mem_edges.mp edge with ⟨e, he, eq⟩ | ⟨e, he, eq⟩ <;>
          obtain ⟨rfl, rfl⟩ := Prod.mk.inj eq
        · have port := (W.audio e he).2.2.2
          rw [GraphBlueprint.inputsOf, here] at port
          have wave : bp.waveInto shown e.dstNode e.dstInput
              = some (shown e.srcNode e.srcOutput) := by
            rw [GraphBlueprint.waveInto, W.inputDriver he]
            rfl
          exact none_of (List.mem_append_left _
            (List.mem_map.mpr ⟨e.dstInput, List.mem_range.mpr port, wave⟩))
        · have port := (W.modulation e he).2.2.2
          rw [GraphBlueprint.paramsOf_eq here] at port
          have wave : bp.waveOnto shown e.dstNode e.dstParam
              = some (shown e.srcNode e.srcOutput) := by
            rw [GraphBlueprint.waveOnto, W.portDriver he]
            rfl
          exact none_of (List.mem_append_right _
            (List.mem_map.mpr ⟨e.dstParam, List.mem_range.mpr port, wave⟩))
      exact (agree.free alone).1.symm

/-- **The waves of a new instance are told by its blueprint**: every node shows what it sounds
like on what reaches it. -/
theorem waves_heard (W : bp.Wired) (built : instantiate (compile bp B) sr = some g)
    (real : ∀ (v : Nat) (nd : Node α), bp.nodes[v]? = some nd → ∃ M, nd.Realises M)
    (grain : ∀ v (nd : Node α), bp.nodes[v]? = some nd →
      nd.rateNum ∣ g.sched.nodeBlock.getD v 0) : bp.Resounds g.waves sr := by
  -- a machine for each node
  have each : ∀ v : Nat, ∃ M, ∀ nd : Node α, bp.nodes[v]? = some nd → nd.Realises M := by
    intro v
    cases here : bp.nodes[v]? with
    | none => exact ⟨.pointwise fun x _ _ => x 0, fun nd h => by cases h⟩
    | some nd =>
        obtain ⟨M, hM⟩ := real v nd here
        exact ⟨M, fun nd' h => Option.some.inj h ▸ hM⟩
  choose machine realised using each
  obtain ⟨ok, -⟩ := instantiate_eq_some built
  obtain ⟨hs, hbp, -, -, -, rate, -⟩ := instantiate_layout W built
  have solves := played_solves W ok hs
    (realises_of_new W built (fun v nd h => realised v nd h) grain [])
  obtain ⟨rates, hlayout, settled, -⟩ := compile_of_ok W ok
  obtain ⟨-, -, rests⟩ := ready_of_compile W built
  have region : ∀ u < bp.size, g.sched.regionRate.getD u 1 = (rates u).regionRate := by
    intro u hu
    rw [hs, hlayout]
    exact getD_map_range _ hu 1
  intro v nd here c hc
  have hv : v < bp.size := (List.getElem?_eq_some_iff.mp here).1
  obtain ⟨base, blk, agree, of⟩ := settled.of here
  have rated : ∀ u < bp.size, ∀ c, (g.waves u c).rate = (rates u).regionRate :=
    fun u hu _ => region u hu
  have reach := reachingRate_eq W here agree rated
  have same : (rates v).regionRate = base * nd.rateNum / nd.rateDen := by
    rw [← of.rate, Nat.mul_div_cancel _ (Nat.pos_of_ne_zero of.den)]
  rw [Node.sound, reach, ← same, waves, region v hv, Wave.mk.injEq]
  refine ⟨rfl, funext fun t => ?_⟩
  have outs : c < bp.outputsOf v := by
    rw [GraphBlueprint.outputsOf, here]
    exact hc
  have num : 0 < nd.rateNum := by
    have power := of.power
    rw [same] at power
    refine Nat.pos_of_ne_zero fun zero => ?_
    rw [zero, Nat.mul_zero, Nat.zero_div] at power
    cases power
  have told : g.toldRate v = sr * (rates v).regionRate := by
    rw [toldRate, rate, region v hv]
  refine (solves v hv c outs t).trans ?_
  rw [← told]
  refine (realised v nd here).solo num hc (fun c t => ?_) (fun q t => ?_) t
  · rw [Network.arriving, GraphBlueprint.waveInto]
    cases driver : bp.inputDriver v c with
    | none => exact (ite_self 0).symm
    | some d =>
        have port := (W.audio _ (GraphBlueprint.inputDriver_eq_some driver)).2.2.2
        rw [GraphBlueprint.inputsOf, here] at port
        exact (if_pos port).symm
  · rw [Network.steering, GraphBlueprint.waveOnto]
    cases driver : bp.portDriver v q with
    | none =>
        show (if q < g.sched.bp.paramsOf v then (g.glide v q).current else 0) = _
        rw [hbp, GraphBlueprint.paramsOf_eq here]
        refine ite_congr rfl (fun port => ?_) fun _ => rfl
        rw [rests v nd q here port]
        rfl
    | some d =>
        have port := (W.modulation _ (GraphBlueprint.portDriver_eq_some driver)).2.2.2
        rw [GraphBlueprint.paramsOf_eq here] at port
        exact (if_pos port).symm

end GraphInstance

end Xrune
