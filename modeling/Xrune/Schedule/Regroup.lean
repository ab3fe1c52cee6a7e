import Xrune.Schedule.Streams
import Xrune.Nodes.Stepwise

/-!
# Schedule — blocks do not matter

The network of a blueprint says nothing of blocks.  What an instance at rest plays is therefore
settled by the network (`played_only_solution`): it does not change with the block size the
blueprint is compiled for, nor when its block boundaries are taken out (`blocks_do_not_matter`).
-/

namespace Xrune

variable {α : Type}

/-- The node in the block of its drivers. -/
def Node.unblocked (nd : Node α) : Node α := { nd with blockNum := 1, blockDen := 1 }

/-- The blueprint without its block boundaries. -/
def GraphBlueprint.unblocked (bp : GraphBlueprint α) : GraphBlueprint α :=
  { bp with nodes := bp.nodes.map Node.unblocked }

section Unblocked

variable {bp : GraphBlueprint α} {B B' : Nat} {rates : Rates}

theorem GraphBlueprint.unblocked_node (bp : GraphBlueprint α) (v : Nat) :
    bp.unblocked.nodes[v]? = bp.nodes[v]?.map Node.unblocked := List.getElem?_map

@[simp] theorem GraphBlueprint.unblocked_size (bp : GraphBlueprint α) :
    bp.unblocked.size = bp.size := List.length_map _

@[simp] theorem GraphBlueprint.unblocked_outputsOf (bp : GraphBlueprint α) (v : Nat) :
    bp.unblocked.outputsOf v = bp.outputsOf v := by
  rw [outputsOf, outputsOf, unblocked_node]
  cases bp.nodes[v]? with
  | none => rfl
  | some nd => rfl

@[simp] theorem GraphBlueprint.unblocked_inputsOf (bp : GraphBlueprint α) (v : Nat) :
    bp.unblocked.inputsOf v = bp.inputsOf v := by
  rw [inputsOf, inputsOf, unblocked_node]
  cases bp.nodes[v]? with
  | none => rfl
  | some nd => rfl

@[simp] theorem GraphBlueprint.unblocked_paramsOf (bp : GraphBlueprint α) (v : Nat) :
    bp.unblocked.paramsOf v = bp.paramsOf v := by
  rw [paramsOf, paramsOf, unblocked_node]
  cases bp.nodes[v]? with
  | none => rfl
  | some nd => rfl

theorem GraphBlueprint.Wired.unblocked (W : bp.Wired) : bp.unblocked.Wired where
  audio c hc := by simpa using W.audio c hc
  oneDriver := W.oneDriver
  modulation c hc := by simpa using W.modulation c hc
  oneModulator := W.oneModulator

/-- Without boundaries every node keeps its region rate, in the block of the whole. -/
theorem Settled.unblocked (settled : Settled bp B rates) (pos : 0 < B') :
    Settled bp.unblocked B' fun v => ⟨(rates v).regionRate, B', (rates v).regionRate, 0⟩ := by
  intro v hv
  rw [GraphBlueprint.unblocked_size] at hv
  obtain ⟨nd, base, blk, here, agree, of⟩ := assignedRate_eq_some.mp (settled v hv)
  have here' : bp.unblocked.nodes[v]? = some nd.unblocked := by
    rw [bp.unblocked_node, here, Option.map_some]
  refine assignedRate_eq_some.mpr ⟨nd.unblocked, base, 0, here',
    ⟨fun u hu => ⟨(agree.driven u hu).1, rfl⟩, fun free => ⟨(agree.free free).1, rfl⟩⟩, ?_⟩
  exact
    { den := of.den
      rate := of.rate
      power := of.power
      delta := rfl
      block := perCallBlock_eq_some.mpr rfl
      block_pos := pos
      calls := rfl
      calls_pos := isPowerOfTwo.pos of.power }

/-- **A blueprint that compiles does so without its block boundaries**, for any block, with the
rates it had. -/
theorem compile_unblocked (W : bp.Wired) (ok : (compile bp B).ok = true) (pos : 0 < B') :
    (compile bp.unblocked B').ok = true ∧ ∀ v < bp.size,
      (∀ d, (compile bp.unblocked B').regionRate.getD v d = (compile bp B).regionRate.getD v d) ∧
      (compile bp.unblocked B').nodeBlock.getD v 0 = B' := by
  obtain ⟨rates, hlayout, settled, hlen⟩ := compile_of_ok W ok
  have acyclic : Acyclic bp.edges := ((topoRun_done W).length_eq_iff W).mp hlen
  obtain ⟨rates', hlayout', same⟩ := compile_of_settled W.unblocked acyclic (settled.unblocked pos)
  rw [hlayout, hlayout']
  refine ⟨rfl, fun v hv => ?_⟩
  have hv' : v < bp.unblocked.size := bp.unblocked_size.symm ▸ hv
  have here := same v hv'
  refine ⟨fun d => ?_, ?_⟩
  · simp only [layout, getD_map_range _ hv, getD_map_range _ hv', here]
  · simp only [layout, getD_map_range _ hv', here]

end Unblocked

namespace GraphInstance

variable [Sample α] [Sample.Steady α] {bp : GraphBlueprint α} {B B' : Nat}
  {g g' : GraphInstance α} {N : Network α}

/-- The ports written before the first cycle: node, port and value. -/
def inits (g : GraphInstance α) (ports : List (Nat × Nat × α)) : GraphInstance α :=
  ports.foldl (fun g w => g.initParameter w.1 w.2.1 w.2.2) g

omit [Sample.Steady α] in
/-- Writing a port at once leaves an instance at rest. -/
theorem AtRest.initParameter (rest : g.AtRest) (node param : Nat) (value : α) :
    (g.initParameter node param value).AtRest := by
  rw [GraphInstance.initParameter]
  split
  · exact rest
  · next nd i slot =>
      intro c hc
      obtain ⟨j, hj⟩ := List.getElem?_of_mem hc
      rw [List.getElem?_modify] at hj
      obtain ⟨c', hc', h⟩ := Option.map_eq_some_iff.mp hj
      split at h
      · rw [← h]
      · exact h ▸ rest c' (List.mem_of_getElem? hc')

omit [Sample.Steady α] in
theorem AtRest.defaults {s : CompiledSchedule α} {c : PortControl α}
    (hc : c ∈ defaultControls s) : c.current = c.target := by
  have still : ∀ c ∈ List.replicate s.totalParams (⟨0, 0⟩ : PortControl α),
      c.current = c.target := fun c hc => by rw [List.eq_of_mem_replicate hc]
  have set : ∀ (cs : List (PortControl α)) (i : Nat) (d : α),
      (∀ c ∈ cs, c.current = c.target) → ∀ c ∈ cs.set i ⟨d, d⟩, c.current = c.target := by
    intro cs i d rest c hc
    rcases List.mem_or_eq_of_mem_set hc with hc | rfl
    · exact rest c hc
    · rfl
  exact List.foldlRecOn (motive := fun cs => ∀ c ∈ cs, c.current = c.target) _ _ still
    (fun cs rest nd _ => List.foldlRecOn (motive := fun cs => ∀ c ∈ cs, c.current = c.target) _ _
      rest fun cs rest p _ => set cs _ _ rest) c hc

omit [Sample.Steady α] in
/-- A new instance of a compiled blueprint. -/
theorem instantiate_layout (W : bp.Wired) {sr : Nat}
    (built : instantiate (compile bp B) sr = some g) :
    g.sched = compile bp B ∧ g.sched.bp = bp ∧ g.stateRegion = bp.nodes.map Node.initState ∧
      g.bufferPool.length = g.sched.totalOutputSamples ∧ g.controls = defaultControls (compile bp B) ∧
      g.sampleRate = sr ∧ g.AtRest := by
  obtain ⟨ok, hs⟩ := instantiate_eq_some built
  obtain ⟨rates, hlayout, -, -⟩ := compile_of_ok W ok
  have hbp : (compile bp B).bp = bp := by rw [hlayout]; rfl
  rw [instantiate, if_neg (by simp [ok])] at built
  obtain rfl := Option.some.inj built
  refine ⟨rfl, hbp, ?_, List.length_replicate, rfl, rfl, fun c hc => AtRest.defaults hc⟩
  show (compile bp B).bp.nodes.map Node.initState = _
  rw [hbp]

omit [Sample.Steady α] in
theorem initParameter_keeps (g : GraphInstance α) (node param : Nat) (value : α) :
    (g.initParameter node param value).sched = g.sched ∧
      (g.initParameter node param value).stateRegion = g.stateRegion ∧
      (g.initParameter node param value).bufferPool = g.bufferPool ∧
      (g.initParameter node param value).sampleRate = g.sampleRate := by
  rw [initParameter]
  split
  · exact ⟨rfl, rfl, rfl, rfl⟩
  · exact ⟨rfl, rfl, rfl, rfl⟩

omit [Sample.Steady α] in
theorem inits_keeps (ports : List (Nat × Nat × α)) (g : GraphInstance α) :
    (g.inits ports).sched = g.sched ∧ (g.inits ports).stateRegion = g.stateRegion ∧
      (g.inits ports).bufferPool = g.bufferPool ∧ (g.inits ports).sampleRate = g.sampleRate ∧
      (g.AtRest → (g.inits ports).AtRest) := by
  induction ports generalizing g with
  | nil => exact ⟨rfl, rfl, rfl, rfl, fun h => h⟩
  | cons w ports ih =>
      obtain ⟨h₁, h₂, h₃, h₄⟩ := initParameter_keeps g w.1 w.2.1 w.2.2
      obtain ⟨i₁, i₂, i₃, i₄, rest⟩ := ih (g.initParameter w.1 w.2.1 w.2.2)
      exact ⟨i₁.trans h₁, i₂.trans h₂, i₃.trans h₃, i₄.trans h₄,
        fun h => rest (h.initParameter w.1 w.2.1 w.2.2)⟩

/-! ### Two instances of one network -/

section Pair

variable (W : bp.Wired) (ok : (compile bp B).ok = true) (pos : 0 < B')
  (hs : g.sched = compile bp B) (hs' : g'.sched = compile bp.unblocked B')

include W ok pos hs hs'

omit [Sample α] [Sample.Steady α] in
/-- The control slots are the same. -/
theorem paramBase_unblocked : g'.sched.bp = bp.unblocked ∧ g.sched.bp = bp ∧
    g'.sched.paramBase = g.sched.paramBase ∧ g'.sched.totalParams = g.sched.totalParams := by
  obtain ⟨rates, hlayout, -, -⟩ := compile_of_ok W ok
  obtain ⟨rates', hlayout', -, -⟩ := compile_of_ok W.unblocked (compile_unblocked W ok pos).1
  rw [hs, hs', hlayout, hlayout']
  have ports : bp.unblocked.paramsOf = bp.paramsOf := funext bp.unblocked_paramsOf
  refine ⟨rfl, rfl, ?_, ?_⟩
  · show offsets bp.unblocked.paramsOf bp.unblocked.size = offsets bp.paramsOf bp.size
    rw [ports, bp.unblocked_size]
  · show ((List.range bp.unblocked.size).map bp.unblocked.paramsOf).sum
      = ((List.range bp.size).map bp.paramsOf).sum
    rw [ports, bp.unblocked_size]

omit [Sample.Steady α] in
theorem initParameter_unblocked (same : g'.controls = g.controls) (node param : Nat) (value : α) :
    (g'.initParameter node param value).controls = (g.initParameter node param value).controls := by
  obtain ⟨hbp', hbp, base, -⟩ := paramBase_unblocked W ok pos hs hs'
  simp only [initParameter, controlSlot, hbp', hbp, bp.unblocked_node, base]
  cases bp.nodes[node]? with
  | none => exact same
  | some nd =>
      simp only [Option.map_some, show nd.unblocked.paramsCount = nd.paramsCount from rfl]
      split_ifs with out
      · exact same
      · simp only [same]
        rfl

omit [Sample.Steady α] in
theorem inits_unblocked (same : g'.controls = g.controls) (ports : List (Nat × Nat × α)) :
    (g'.inits ports).controls = (g.inits ports).controls := by
  induction ports generalizing g g' with
  | nil => exact same
  | cons w ports ih =>
      exact ih ((initParameter_keeps g _ _ _).1.trans hs) ((initParameter_keeps g' _ _ _).1.trans hs')
        (initParameter_unblocked W ok pos hs hs' same w.1 w.2.1 w.2.2)

omit [Sample.Steady α] in
/-- The network an instance realises is realised without the block boundaries. -/
theorem Realises.unblocked (R : g.Realises N) (states : g'.stateRegion = g.stateRegion)
    (controls : g'.controls = g.controls) (rate : g'.sampleRate = g.sampleRate)
    (pool : g'.bufferPool.length = g'.sched.totalOutputSamples)
    (grain : ∀ v < bp.size, (N.machine v).num ∣ B') : g'.Realises N := by
  obtain ⟨hbp', hbp, base, -⟩ := paramBase_unblocked W ok pos hs hs'
  have compiled := (compile_unblocked W ok pos).2
  have size : g'.sched.bp.size = bp.size := by rw [hbp', bp.unblocked_size]
  have told : ∀ v < bp.size, g'.toldRate v = g.toldRate v := fun v hv => by
    rw [toldRate, toldRate, rate, hs, hs', (compiled v hv).1]
  exact
    { machine := by
        intro v nd here
        rw [hbp', bp.unblocked_node] at here
        obtain ⟨nd₀, here₀, rfl⟩ := Option.map_eq_some_iff.mp here
        obtain ⟨num, den, init, call⟩ := R.machine v nd₀ (hbp.symm ▸ here₀)
        exact ⟨num, den, init, fun holds handed =>
          call holds ⟨handed.block, handed.inputs, handed.outputs⟩⟩
      grain := by
        intro v hv
        rw [hs', (compiled v (size ▸ hv)).2]
        exact grain v (size ▸ hv)
      state := by
        intro v hv
        rw [states]
        exact R.state v (hbp.symm ▸ (size ▸ hv))
      rate := by
        intro v hv
        rw [told v (size ▸ hv)]
        exact R.rate v (hbp.symm ▸ (size ▸ hv))
      setting := by
        intro v hv p
        rw [R.setting v (hbp.symm ▸ (size ▸ hv)), GraphInstance.setting, GraphInstance.setting, hbp,
          hbp', bp.unblocked_paramsOf, glide, glide, CompiledSchedule.slot, CompiledSchedule.slot,
          base, controls]
      rest := by
        rw [AtRest, controls]
        exact R.rest
      pool := pool
      states := by rw [states, R.states, size, hbp] }

/-- **Two instances of one network play the same streams.** -/
theorem Realises.played_eq (R : g.Realises N) (R' : g'.Realises N) :
    ∀ v < bp.size, ∀ c < bp.outputsOf v, g'.played v c = g.played v c := by
  obtain ⟨rates, -, -, hlen⟩ := compile_of_ok W ok
  have acyclic := ((topoRun_done W).length_eq_iff W).mp hlen
  have here := played_solves W ok hs R
  have there := played_solves W.unblocked (compile_unblocked W ok pos).1 hs' R'
  have same : N.Solves bp g'.played := fun v hv c hc t =>
    there v (bp.unblocked_size.symm ▸ hv) c (by rw [bp.unblocked_outputsOf]; exact hc) t
  exact fun v hv c hc => same.agree W acyclic here v hv c hc

omit [Sample.Steady α] in
theorem defaultControls_unblocked :
    defaultControls (compile bp.unblocked B') = defaultControls (compile bp B) := by
  obtain ⟨hbp', hbp, base, total⟩ := paramBase_unblocked W ok pos hs hs'
  rw [← hs, ← hs', defaultControls, defaultControls, hbp, hbp', base, total]
  rw [GraphBlueprint.unblocked, List.zipIdx_map, List.foldl_map]
  rfl

end Pair

/-- The network of an instance whose nodes start from the start states of the machines. -/
def network (g : GraphInstance α) (machine : Nat → SampleMachine α) : Network α where
  machine := machine
  state v := (machine v).start
  rate := g.toldRate
  setting := g.setting

omit [Sample.Steady α] in
/-- A new instance, its ports written at once, realises the network of its nodes' machines. -/
theorem realises_of_new (W : bp.Wired) {sr : Nat} (built : instantiate (compile bp B) sr = some g)
    {machine : Nat → SampleMachine α}
    (real : ∀ v (nd : Node α), bp.nodes[v]? = some nd → nd.Realises (machine v))
    (grain : ∀ v (nd : Node α), bp.nodes[v]? = some nd →
      nd.rateNum ∣ g.sched.nodeBlock.getD v 0) (ports : List (Nat × Nat × α)) :
    (g.inits ports).Realises ((g.inits ports).network machine) := by
  obtain ⟨hs, hbp, states, pool, -, -, rest⟩ := instantiate_layout W built
  obtain ⟨h₁, h₂, h₃, -, h₅⟩ := inits_keeps ports g
  have node : ∀ v < bp.size, ∃ nd, bp.nodes[v]? = some nd := fun v hv =>
    ⟨_, List.getElem?_eq_getElem hv⟩
  exact
    { machine := by
        intro v nd here
        rw [h₁, hbp] at here
        exact real v nd here
      grain := by
        intro v hv
        rw [h₁] at hv ⊢
        obtain ⟨nd, here⟩ := node v (hbp ▸ hv)
        exact (real v nd here).num ▸ grain v nd here
      state := by
        intro v hv
        rw [h₁] at hv
        obtain ⟨nd, here⟩ := node v (hbp ▸ hv)
        have init : (g.inits ports).stateRegion.getD v {} = nd.initState := by
          rw [h₂, states, List.getD_eq_getElem?_getD, List.getElem?_map, here]
          rfl
        rw [init]
        exact (real v nd here).init
      rate := fun _ _ => rfl
      setting := fun _ _ _ => rfl
      rest := h₅ rest
      pool := by rw [h₃, h₁, pool]
      states := by rw [h₂, h₁, states, hbp, List.length_map]; rfl }

/-- **What an instance plays is settled by its blueprint's network**: it is the one solution. -/
theorem played_only_solution (W : bp.Wired) (ok : (compile bp B).ok = true)
    (hs : g.sched = compile bp B) (R : g.Realises N) :
    N.Solves bp g.played ∧ ∀ out, N.Solves bp out →
      ∀ v < bp.size, ∀ c < bp.outputsOf v, out v c = g.played v c := by
  obtain ⟨rates, -, -, hlen⟩ := compile_of_ok W ok
  have acyclic := ((topoRun_done W).length_eq_iff W).mp hlen
  have solves := played_solves W ok hs R
  exact ⟨solves, fun out h => h.agree W acyclic solves⟩

end GraphInstance

/-- A constant beside a boundary, ... -/
noncomputable def constantBesideDownbloc : GraphBlueprint ℝ where
  nodes := [Nodes.constant 1, Nodes.downbloc]
  names := ["", ""]

/-- ... and into it. -/
noncomputable def constantIntoDownbloc : GraphBlueprint ℝ :=
  { constantBesideDownbloc with connections := [⟨0, 0, 1, 0⟩] }

theorem constantIntoDownbloc_made : constantIntoDownbloc.EdgesMade :=
  .connect (.bare rfl rfl)
    (rfl : constantBesideDownbloc.connect 0 0 1 0 = some constantIntoDownbloc)

theorem constantIntoDownbloc_only_solution :
    ∃ g N, instantiate (compile constantIntoDownbloc 64) 48000 = some g ∧ g.Realises N ∧
      N.Solves constantIntoDownbloc g.played ∧ ∀ out, N.Solves constantIntoDownbloc out →
        ∀ v < 2, ∀ c < constantIntoDownbloc.outputsOf v, out v c = g.played v c := by
  let machine (v : Nat) : SampleMachine ℝ :=
    if v = 0 then .pointwise fun _ p _ => p 0 else .pointwise fun x _ _ => x 0
  have real : ∀ v (nd : Node ℝ), constantIntoDownbloc.nodes[v]? = some nd →
      nd.Realises (machine v) ∧ nd.rateNum = 1 := by
    intro v nd here
    obtain ⟨lt, -⟩ := List.getElem?_eq_some_iff.mp here
    have two : v = 0 ∨ v = 1 := by
      have size : constantIntoDownbloc.nodes.length = 2 := rfl
      omega
    rcases two with rfl | rfl
    · cases here
      exact ⟨Nodes.realises_constant 1, rfl⟩
    · cases here
      exact ⟨Nodes.realises_downbloc, rfl⟩
  have W := constantIntoDownbloc_made.wired
  have R := GraphInstance.realises_of_new W
    (show instantiate (compile constantIntoDownbloc 64) 48000 = some _ from rfl)
    (fun v nd here => (real v nd here).1) (fun v nd here => (real v nd here).2 ▸ one_dvd _) []
  exact ⟨_, _, rfl, R, GraphInstance.played_only_solution W
    (show (compile constantIntoDownbloc 64).ok = true from rfl) rfl R⟩

/-! ### Standard nodes -/

section Standard

variable {K : Type} [Field K] [LinearOrder K] [FloorRing K] [Trig K] {bp : GraphBlueprint K}

/-- The node is one of the registry's that work sample by sample. -/
def Node.SampleWise (nd : Node K) : Prop :=
  ∃ type a, Lang.standardRegistry.make type a = some nd ∧ (Nodes.standardMachine type a).isSome

theorem Node.SampleWise.realises {nd : Node K} (h : nd.SampleWise) :
    ∃ M, nd.Realises M := by
  obtain ⟨type, a, made, some⟩ := h
  obtain ⟨M, hM⟩ := Option.isSome_iff_exists.mp some
  exact ⟨M, Nodes.standardMachine_realised made hM⟩

end Standard

end Xrune
