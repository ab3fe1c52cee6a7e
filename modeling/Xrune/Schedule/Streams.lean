import Xrune.Schedule.Network

/-!
# Schedule — an instance plays its blueprint's network

Cycle after cycle, the buffers of an instance hold the next parts of streams that solve the
network of its blueprint (`plays`).  So they are settled by the network alone: two instances whose
blueprints have the same network play the same streams, whatever the block sizes they were
compiled for and the block regions their nodes are in (`plays_same`).

The network is that of an instance whose control ports are at rest, in an arithmetic where a ramp
between equal values does not move (`Sample.Steady`).
-/

namespace Xrune

variable {α : Type}

/-- A ramp that goes nowhere stays where it is, as it does in exact arithmetic. -/
class Sample.Steady (α : Type) [Sample α] : Prop where
  ramp : ∀ (c inv : α) (i : Nat), c + (c - c) * inv * Sample.cast i = c
  silent : ∀ i : Nat, (0 : α) + 0 * Sample.cast i = 0

instance Sample.Steady.exact {K : Type} [Field K] [LinearOrder K] [FloorRing K] :
    Sample.Steady K where
  ramp c inv i := by
    show c + (c - c) * inv * (i : K) = c
    ring
  silent i := by
    show (0 : K) + 0 * (i : K) = 0
    ring

namespace GraphInstance

variable [Sample α]

/-! ### What is written to the pool -/

theorem writeView_pool (g : GraphInstance α) (start : Nat) (xs : List α) :
    (g.writeView (.pool start xs.length) xs).bufferPool.length = g.bufferPool.length ∧
      ∀ j < g.bufferPool.length, (g.writeView (.pool start xs.length) xs).bufferPool.getD j 0
        = if start ≤ j ∧ j < start + xs.length then xs.getD (j - start) 0
          else g.bufferPool.getD j 0 := by
  -- after the first `n` samples
  have along : ∀ n ≤ xs.length,
      let h := (List.range n).foldl (fun h i => h.write (.pool start xs.length) i (xs.getD i 0)) g
      h.bufferPool.length = g.bufferPool.length ∧ ∀ j < g.bufferPool.length,
        h.bufferPool.getD j 0 = if start ≤ j ∧ j < start + n then xs.getD (j - start) 0
          else g.bufferPool.getD j 0 := by
    intro n
    induction n with
    | zero =>
        refine fun _ => ⟨rfl, fun j _ => ?_⟩
        rw [if_neg (by omega)]
        rfl
    | succ n ih =>
        intro hn
        obtain ⟨len, sofar⟩ := ih (by omega)
        rw [List.range_succ, List.foldl_append, List.foldl_cons, List.foldl_nil]
        set h := (List.range n).foldl (fun h i => h.write (.pool start xs.length) i (xs.getD i 0)) g
        refine ⟨List.length_set.trans len, fun j hj => ?_⟩
        show (h.bufferPool.set (start + n) (xs.getD n 0)).getD j 0 = _
        rw [List.getD_eq_getElem?_getD, List.getElem?_set]
        by_cases here : start + n = j
        · subst here
          rw [if_pos rfl, if_pos (len.symm ▸ hj), if_pos (by omega), Nat.add_sub_cancel_left]
          rfl
        · rw [if_neg here, ← List.getD_eq_getElem?_getD, sofar j hj]
          by_cases before : start ≤ j ∧ j < start + n
          · rw [if_pos before, if_pos (by omega)]
          · rw [if_neg before, if_neg (by omega)]
  have all := along xs.length le_rfl
  rw [writeView, Nat.min_self]
  exact all

/-- Views that lie one after another, written in turn. -/
theorem writeViews_pool {off : Nat → Nat} {ys : Nat → List α} {nb : Nat}
    (apart : ∀ c d, c < d → off c + nb ≤ off d) {n : Nat} (len : ∀ c < n, (ys c).length = nb)
    (g : GraphInstance α) :
    let h := (List.range n).foldl (fun h c => h.writeView (.pool (off c) nb) (ys c)) g
    h.bufferPool.length = g.bufferPool.length ∧
      (∀ c < n, ∀ i < nb, off c + i < g.bufferPool.length →
        h.bufferPool.getD (off c + i) 0 = (ys c).getD i 0) ∧
      ∀ j < g.bufferPool.length, (∀ c < n, ¬(off c ≤ j ∧ j < off c + nb)) →
        h.bufferPool.getD j 0 = g.bufferPool.getD j 0 := by
  induction n with
  | zero => exact ⟨rfl, fun c hc => absurd hc (Nat.not_lt_zero c), fun _ _ _ => rfl⟩
  | succ n ih =>
      obtain ⟨hlen, own, others⟩ := ih fun c hc => len c (Nat.lt_succ_of_lt hc)
      simp only [List.range_succ, List.foldl_append, List.foldl_cons, List.foldl_nil]
      set h := (List.range n).foldl (fun h c => h.writeView (.pool (off c) nb) (ys c)) g
      obtain ⟨hlen', last⟩ := writeView_pool h (off n) (ys n)
      rw [len n (Nat.lt_succ_self n)] at hlen' last
      refine ⟨hlen'.trans hlen, fun c hc i hi fits => ?_, fun j hj outside => ?_⟩
      · rw [last _ (hlen.symm ▸ fits)]
        rcases Nat.lt_succ_iff_lt_or_eq.mp hc with hc | rfl
        · have := apart c n hc
          rw [if_neg (by omega), own c hc i hi fits]
        · rw [if_pos (by omega), Nat.add_sub_cancel_left]
      · have here := outside n (Nat.lt_succ_self n)
        rw [last j (hlen.symm ▸ hj), if_neg here,
          others j hj fun c hc => outside c (Nat.lt_succ_of_lt hc)]

/-! ### Rest -/

/-- No port is on its way. -/
def AtRest (g : GraphInstance α) : Prop := ∀ c ∈ g.controls, c.current = c.target

omit [Sample α] in
theorem AtRest.settle {g : GraphInstance α} (rest : g.AtRest) (v n : Nat) :
    g.settleControls v n = g := by
  have still : ∀ i, g.controls.modify i (fun c => ⟨c.target, c.target⟩) = g.controls := by
    intro i
    refine List.ext_getElem? fun j => ?_
    rw [List.getElem?_modify]
    cases entry : g.controls[j]? with
    | none => rfl
    | some c =>
        have same : (⟨c.target, c.target⟩ : PortControl α) = c := by
          obtain ⟨current, target⟩ := c
          obtain rfl : current = target := rest _ (List.mem_of_getElem? entry)
          rfl
        by_cases hj : i = j
        · simp [hj, same]
        · simp [hj]
  rw [settleControls, List.foldl_fixed' fun p => ?_]
  split
  · rfl
  · exact still _

/-! ### What a call reads -/

/-- Where port `p` of node `v` rests; there is nothing to read past the ports. -/
def setting (g : GraphInstance α) (v p : Nat) : α :=
  if p < g.sched.bp.paramsOf v then (g.glide v p).current else 0

/-- Sample `i` of a cycle's part of the stream at input `c` of node `v`. -/
def arrives (g : GraphInstance α) (v c i : Nat) : α :=
  match g.sched.bp.inputDriver v c with
  | some (u, ch) => g.bufferPool.getD (g.outOffset u ch + i) 0
  | none         => 0

/-- Sample `i` of a cycle's part of the stream at port `p` of node `v`. -/
def steers (g : GraphInstance α) (v p i : Nat) : α :=
  match g.sched.bp.portDriver v p with
  | some (u, ch) => g.bufferPool.getD (g.outOffset u ch + i) 0
  | none         => g.setting v p

theorem getD_readView (g : GraphInstance α) {start size i : Nat} (hi : i < size) :
    (g.readView (.pool start size)).getD i 0 = g.bufferPool.getD (start + i) 0 :=
  getD_map_range (fun i => g.bufferPool.getD (start + i) 0) hi 0

theorem getD_silent (g : GraphInstance α) (size i : Nat) :
    (g.readView (.silent size)).getD i 0 = 0 := by
  rw [readView, List.getD_eq_getElem?_getD, List.getElem?_replicate]
  split
  · rfl
  · rfl

section Call

variable {bp : GraphBlueprint α} {B : Nat} {order : List Nat} {rates : Rates}
  {g : GraphInstance α} {nd : Node α} {v k m : Nat}

omit [Sample α] in
/-- The samples that reach a node in a cycle: `m` steps' worth in each of its calls. -/
theorem reaches_eq {base : Nat} {blk : Int} {r : NodeRate} (of : NodeRate.Of nd B base blk r)
    (grain : r.nodeBlock = m * nd.rateNum) : base * B = r.calls * (m * nd.rateDen) := by
  have num : 0 < nd.rateNum := Nat.pos_of_ne_zero fun h => by
    have pos := of.block_pos
    rw [grain, h, mul_zero] at pos
    exact absurd pos (lt_irrefl 0)
  refine Nat.eq_of_mul_eq_mul_left num ?_
  calc nd.rateNum * (base * B) = base * nd.rateNum * B := by ring
    _ = r.regionRate * B * nd.rateDen := by rw [← of.rate]; ring
    _ = r.calls * r.nodeBlock * nd.rateDen := by rw [of.calls]
    _ = nd.rateNum * (r.calls * (m * nd.rateDen)) := by rw [grain]; ring

omit [Sample α] in
/-- The slice of a driver's buffer that a call is handed. -/
theorem slice_eq (W : bp.Wired) (settled : Settled bp B rates)
    (hs : g.sched = layout bp B order rates) (here : bp.nodes[v]? = some nd)
    (grain : (rates v).nodeBlock = m * nd.rateNum) {u : Nat} (edge : (u, v) ∈ bp.edges) :
    g.sched.outStride.getD u 0 = (rates v).calls * (m * nd.rateDen) ∧
      g.sched.outStride.getD u 0 / g.sched.calls.getD v 1 = m * nd.rateDen := by
  obtain ⟨base, blk, drivers, of⟩ := settled.of here
  have stride : g.sched.outStride.getD u 0 = (rates u).regionRate * B :=
    hs ▸ getD_map_range _ (W.edges_lt _ edge).1 0
  have calls : g.sched.calls.getD v 1 = (rates v).calls :=
    hs ▸ getD_map_range _ (W.edges_lt _ edge).2 1
  rw [stride, calls, (drivers.driven u edge).1, reaches_eq of grain]
  exact ⟨rfl, Nat.mul_div_cancel_left _ of.calls_pos⟩

theorem handed_callContext (W : bp.Wired) (settled : Settled bp B rates)
    (hs : g.sched = layout bp B order rates) (here : bp.nodes[v]? = some nd)
    (grain : (rates v).nodeBlock = m * nd.rateNum) : nd.Handed m (g.callContext nd v k) := by
  have hv : v < bp.size := (List.getElem?_eq_some_iff.mp here).1
  obtain ⟨base, blk, drivers, of⟩ := settled.of here
  have num : nd.rateNum ≠ 0 := fun h => by
    have pos := of.block_pos
    rw [grain, h, mul_zero] at pos
    exact absurd pos (lt_irrefl 0)
  have block : g.sched.nodeBlock.getD v 0 = m * nd.rateNum :=
    (hs ▸ getD_map_range _ hv 0 : g.sched.nodeBlock.getD v 0 = (rates v).nodeBlock).trans grain
  have hbp : g.sched.bp = bp := by rw [hs]; rfl
  have viewed : ∀ start size, (g.readView (.pool start size)).length = size := fun start size => by
    rw [readView, List.length_map, List.length_range]
  refine ⟨block, ?_, ?_⟩
  · refine List.eq_replicate_iff.mpr ⟨by simp [callContext], fun len hlen => ?_⟩
    simp only [callContext, List.map_map, List.mem_map, List.mem_range, Function.comp] at hlen
    obtain ⟨c, hc, rfl⟩ := hlen
    rw [inView]
    dsimp only
    split
    · rw [hbp, here]
      dsimp only
      rw [if_pos num, block, readView, List.length_replicate, Nat.mul_right_comm,
        Nat.mul_div_cancel _ (Nat.pos_of_ne_zero num)]
    · next n ch source =>
        obtain ⟨edge, -⟩ := edge_of_inputSource W
          (show sourceAt (inputWiring bp) v c = some (n, ch) by rw [hs] at source; exact source)
        rw [viewed, (slice_eq W settled hs here grain edge).2]
  · refine List.eq_replicate_iff.mpr ⟨by simp [callContext], fun len hlen => ?_⟩
    simp only [callContext, List.map_map, List.mem_map, List.mem_range, Function.comp] at hlen
    obtain ⟨c, hc, rfl⟩ := hlen
    rw [outView, viewed, block]

/-- A call reads its part of what arrives. -/
theorem input_callContext (W : bp.Wired) (settled : Settled bp B rates)
    (hs : g.sched = layout bp B order rates) (here : bp.nodes[v]? = some nd)
    (grain : (rates v).nodeBlock = m * nd.rateNum) (c : Nat) {i : Nat}
    (hi : i < m * nd.rateDen) :
    (g.callContext nd v k).input c i = g.arrives v c (k * (m * nd.rateDen) + i) := by
  have hbp : g.sched.bp = bp := by rw [hs]; rfl
  have table : g.sched.inputSource = inputWiring bp := by rw [hs]; rfl
  have source : (g.sched.inputSource.getD v []).getD c none = bp.inputDriver v c := by
    rw [table, W.inputDriver_eq]
    rfl
  rw [ProcessingContext.input, arrives, hbp]
  by_cases hc : c < nd.inputsCount
  · rw [show (g.callContext nd v k).inputs.getD c [] = g.readView (g.inView v k c) from
      getD_map_range _ hc []]
    cases driver : bp.inputDriver v c with
    | none =>
        simp only [inView, source, driver, hbp, here]
        exact getD_silent g _ i
    | some d =>
        obtain ⟨u, ch⟩ := d
        have edge := GraphBlueprint.mem_edges.mpr
          (.inl ⟨_, GraphBlueprint.inputDriver_eq_some driver, rfl⟩)
        simp only [inView, source, driver, (slice_eq W settled hs here grain edge).2]
        rw [getD_readView g hi, Nat.add_assoc]
  · have free : bp.inputDriver v c = none := by
      cases driver : bp.inputDriver v c with
      | none => rfl
      | some d =>
          have wired := (W.audio _ (GraphBlueprint.inputDriver_eq_some driver)).2.2.2
          simp only [GraphBlueprint.inputsOf, here, Option.map_some, Option.getD_some] at wired
          exact absurd wired hc
    rw [free, List.getD_eq_default _ [] (by simpa [callContext] using hc)]
    rfl

/-- A call of an instance at rest reads its part of what steers its ports. -/
theorem param_callContext [Sample.Steady α] (W : bp.Wired) (settled : Settled bp B rates)
    (hs : g.sched = layout bp B order rates) (here : bp.nodes[v]? = some nd)
    (grain : (rates v).nodeBlock = m * nd.rateNum) (rest : g.AtRest) (p i : Nat) :
    (g.callContext nd v k).param p i = g.steers v p (k * (m * nd.rateDen) + i) := by
  have hbp : g.sched.bp = bp := by rw [hs]; rfl
  have table : g.sched.paramSource = paramWiring bp := by rw [hs]; rfl
  have source : (g.sched.paramSource.getD v []).getD p none = bp.portDriver v p := by
    rw [table, W.portDriver_eq]
    rfl
  have ports : bp.paramsOf v = nd.paramsCount := by simp [GraphBlueprint.paramsOf, here]
  rw [ProcessingContext.param, steers, hbp]
  by_cases hp : p < nd.paramsCount
  · rw [show (g.callContext nd v k).params.getD p ⟨none, 0, 0⟩ = g.portView v k p from
      getD_map_range _ hp _]
    cases driver : bp.portDriver v p with
    | none =>
        have still : (g.glide v p).aim = (g.glide v p).current := by
          rw [glide, List.getD_eq_getElem?_getD]
          cases entry : g.controls[g.sched.slot v p]? with
          | none => rfl
          | some c => exact (rest c (List.mem_of_getElem? entry)).symm
        rw [portView_eq_ramp ⟨by rw [hbp, ports]; exact hp, source.trans driver⟩, Glide.ramp,
          ParamView.get, still, setting, hbp, ports, if_pos hp]
        exact Sample.Steady.ramp _ _ _
    | some d =>
        obtain ⟨u, ch⟩ := d
        have edge := GraphBlueprint.mem_edges.mpr
          (.inr ⟨_, GraphBlueprint.portDriver_eq_some driver, rfl⟩)
        simp only [portView, source, driver, (slice_eq W settled hs here grain edge).2,
          ParamView.get]
        rw [List.getD_eq_getElem?_getD, List.getElem?_drop, ← List.getD_eq_getElem?_getD,
          Nat.add_assoc]
  · have free : bp.portDriver v p = none := by
      cases driver : bp.portDriver v p with
      | none => rfl
      | some d =>
          have wired := (W.modulation _ (GraphBlueprint.portDriver_eq_some driver)).2.2.2
          exact absurd (ports ▸ wired) hp
    rw [free, List.getD_eq_default _ _ (by simpa [callContext] using hp), ParamView.get, setting,
      hbp, ports, if_neg hp]
    exact Sample.Steady.silent _

end Call

/-! ### What a call leaves -/

/-- The instance is `g₀` but for its state blocks and its samples. -/
structure Kin (g₀ g : GraphInstance α) : Prop where
  like : g₀.Like g
  controls : g.controls = g₀.controls
  pool : g.bufferPool.length = g₀.bufferPool.length
  states : g.stateRegion.length = g₀.stateRegion.length

namespace Kin

variable {g₀ g g' : GraphInstance α}

omit [Sample α] in
theorem refl (g : GraphInstance α) : g.Kin g := ⟨⟨rfl, rfl, rfl, rfl⟩, rfl, rfl, rfl⟩

omit [Sample α] in
theorem trans (h : g₀.Kin g) (h' : g.Kin g') : g₀.Kin g' where
  like := ⟨h'.like.1.trans h.like.1, h'.like.2.1.trans h.like.2.1,
    h'.like.2.2.1.trans h.like.2.2.1, h'.like.2.2.2.trans h.like.2.2.2⟩
  controls := h'.controls.trans h.controls
  pool := h'.pool.trans h.pool
  states := h'.states.trans h.states

theorem writeView (h : g₀.Kin g) (view : BufferView) (xs : List α) :
    g₀.Kin (g.writeView view xs) := by
  cases view with
  | silent size => exact h
  | pool start size =>
      exact List.foldlRecOn _ _ h fun g h i _ =>
        ⟨h.like, h.controls, List.length_set.trans h.pool, h.states⟩

omit [Sample α] in
theorem setState (h : g₀.Kin g) (v : Nat) (st : StateBlock α) :
    g₀.Kin { g with stateRegion := g.stateRegion.set v st } :=
  ⟨h.like, h.controls, h.pool, List.length_set.trans h.states⟩

omit [Sample α] in
theorem rest (h : g₀.Kin g) (rest : g₀.AtRest) : g.AtRest := by
  rw [AtRest, h.controls]
  exact rest

end Kin

section Run

variable {bp : GraphBlueprint α} {B : Nat} {order : List Nat} {rates : Rates}
  {g : GraphInstance α} {nd : Node α} {v k m : Nat}

theorem putResult_of_rest (rest : g.AtRest) (nd : Node α) (v k : Nat)
    (r : StateBlock α × List (List α)) :
    g.putResult nd v k r = (List.range nd.outputsCount).foldl
      (fun h c => h.writeView (g.outView v k c) (r.2.getD c []))
      { g with stateRegion := g.stateRegion.set v r.1 } := by
  rw [putResult, rest.settle]
  refine foldl_eq_of_keeps (I := g.Kin) (fun h c kin => kin.writeView _ _) (fun h c kin => ?_) _ _
    ((Kin.refl g).setState v r.1)
  rw [outView, outView, outOffset, outOffset, kin.like.1]

theorem Kin.putResult (rest : g.AtRest) (nd : Node α) (v k : Nat)
    (r : StateBlock α × List (List α)) : g.Kin (g.putResult nd v k r) := by
  rw [putResult_of_rest rest]
  exact List.foldlRecOn _ _ ((Kin.refl g).setState v r.1) fun h kin c _ => kin.writeView _ _

omit [Sample α] in
/-- A node's buffers lie in the pool. -/
theorem lt_total_of_buffers (hs : g.sched = layout bp B order rates) (hv : v < bp.size) {i : Nat}
    (hi : i ∈ g.sched.buffers v) : i < g.sched.totalOutputSamples := by
  rw [hs, buffers_layout hv] at hi
  have start : (layout bp B order rates).outBaseSample.getD v 0
      = ((List.range v).map fun i => bp.outputsOf i * ((rates i).regionRate * B)).sum :=
    getD_map_range _ hv 0
  have within := sum_range_le (fun i => bp.outputsOf i * ((rates i).regionRate * B)) hv
  rw [start] at hi
  rw [hs]
  exact hi.2.trans_le within

omit [Sample α] in
theorem mem_buffers {u ch i : Nat} (hch : ch < g.sched.bp.outputsOf u)
    (hi : i < g.sched.outStride.getD u 0) : g.outOffset u ch + i ∈ g.sched.buffers u := by
  have channel : ch * g.sched.outStride.getD u 0 + g.sched.outStride.getD u 0
      ≤ g.sched.bp.outputsOf u * g.sched.outStride.getD u 0 := by
    rw [← Nat.succ_mul]
    exact Nat.mul_le_mul_right _ hch
  rw [outOffset]
  exact ⟨by omega, by omega⟩

/-- What a call leaves in its node's buffers: its results in its own views, and what the calls
before it left. -/
theorem putResult_pool (settled : Settled bp B rates) (hs : g.sched = layout bp B order rates)
    (here : bp.nodes[v]? = some nd) (rest : g.AtRest)
    (pool : g.bufferPool.length = g.sched.totalOutputSamples) (hk : k < (rates v).calls)
    {r : StateBlock α × List (List α)}
    (len : ∀ c < nd.outputsCount, (r.2.getD c []).length = (rates v).nodeBlock) :
    ∀ c < nd.outputsCount,
      (∀ i < (rates v).nodeBlock, (g.putResult nd v k r).bufferPool.getD
        (g.outOffset v c + (k * (rates v).nodeBlock + i)) 0 = (r.2.getD c []).getD i 0) ∧
      ∀ j < k * (rates v).nodeBlock, (g.putResult nd v k r).bufferPool.getD
        (g.outOffset v c + j) 0 = g.bufferPool.getD (g.outOffset v c + j) 0 := by
  have hv : v < bp.size := (List.getElem?_eq_some_iff.mp here).1
  have outs : bp.outputsOf v = nd.outputsCount := by simp [GraphBlueprint.outputsOf, here]
  obtain ⟨base, blk, -, of⟩ := settled.of here
  have block : g.sched.nodeBlock.getD v 0 = (rates v).nodeBlock := hs ▸ getD_map_range _ hv 0
  have stride : g.sched.outStride.getD v 0 = (rates v).regionRate * B :=
    hs ▸ getD_map_range _ hv 0
  have inside : k * (rates v).nodeBlock + (rates v).nodeBlock ≤ (rates v).regionRate * B := by
    rw [← of.calls, ← Nat.succ_mul]
    exact Nat.mul_le_mul_right _ hk
  have next : ∀ c d, c < d → c * g.sched.outStride.getD v 0 + g.sched.outStride.getD v 0
      ≤ d * g.sched.outStride.getD v 0 := fun c d h => by
    rw [← Nat.succ_mul]
    exact Nat.mul_le_mul_right _ h
  have apart : ∀ c d, c < d → g.outOffset v c + k * (rates v).nodeBlock + (rates v).nodeBlock
      ≤ g.outOffset v d + k * (rates v).nodeBlock := by
    intro c d h
    have := next c d h
    rw [outOffset, outOffset]
    omega
  have fits : ∀ c < nd.outputsCount, ∀ i < g.sched.outStride.getD v 0,
      g.outOffset v c + i < g.bufferPool.length := by
    intro c hc i hi
    rw [pool]
    refine lt_total_of_buffers hs hv (mem_buffers ?_ hi)
    rw [hs]
    exact outs.symm ▸ hc
  obtain ⟨-, own, others⟩ := @writeViews_pool _ _
    (fun c => g.outOffset v c + k * (rates v).nodeBlock) (fun c => r.2.getD c []) _ apart _ len { g with stateRegion := g.stateRegion.set v r.1 }
  rw [putResult_of_rest rest]
  simp only [outView, block]
  refine fun c hc => ⟨fun i hi => ?_, fun j hj => ?_⟩
  · have here := own c hc i hi (by rw [Nat.add_assoc]; exact fits c hc _ (by omega))
    rwa [Nat.add_assoc] at here
  · refine others _ (fits c hc j (by omega)) fun d hd h => ?_
    rcases Nat.lt_trichotomy c d with hcd | rfl | hcd
    · have := next c d hcd
      rw [outOffset, outOffset] at h
      omega
    · omega
    · have := next d c hcd
      rw [outOffset, outOffset] at h
      omega

theorem writeView_states (g : GraphInstance α) (view : BufferView) (xs : List α) :
    (g.writeView view xs).stateRegion = g.stateRegion := by
  cases view with
  | silent size => rfl
  | pool start size =>
      let turn (g : GraphInstance α) (i : Nat) := g.write (.pool start size) i (xs.getD i 0)
      exact foldl_keeps (f := turn) stateRegion (fun _ _ => rfl) _ g

theorem putResult_states (rest : g.AtRest) (nd : Node α) (v k : Nat)
    (r : StateBlock α × List (List α)) :
    (g.putResult nd v k r).stateRegion = g.stateRegion.set v r.1 := by
  rw [putResult_of_rest rest]
  exact foldl_keeps stateRegion (fun h c => writeView_states h _ _) _ _

end Run

/-! ### The calls of a node -/

section Calls

variable [Sample.Steady α] {bp : GraphBlueprint α} {B : Nat} {order : List Nat} {rates : Rates}
  {g : GraphInstance α} {nd : Node α} {M : SampleMachine α} {v k m : Nat}

/-- Node `v` of an instance at rest is realised by `M`, in calls of `m` steps. -/
structure Seat (bp : GraphBlueprint α) (B : Nat) (order : List Nat) (rates : Rates)
    (g : GraphInstance α) (v : Nat) (nd : Node α) (M : SampleMachine α) (m : Nat) : Prop where
  wired : bp.Wired
  acyclic : Acyclic bp.edges
  settled : Settled bp B rates
  sched : g.sched = layout bp B order rates
  here : bp.nodes[v]? = some nd
  real : nd.Realises M
  grain : (rates v).nodeBlock = m * nd.rateNum
  rest : g.AtRest
  pool : g.bufferPool.length = g.sched.totalOutputSamples
  states : g.stateRegion.length = bp.size

/-- The rate node `v` is told. -/
def toldRate (g : GraphInstance α) (v : Nat) : Nat := g.sampleRate * g.sched.regionRate.getD v 1

/-- **A call of a node is `m` steps of its machine** on what arrives for the call. -/
theorem Seat.call (S : Seat bp B order rates g v nd M m) (hk : k < (rates v).calls) {s : M.State}
    (holds : M.Holds s (g.stateRegion.getD v {})) :
    let x c i := g.arrives v c (k * (m * nd.rateDen) + i)
    let p q i := g.steers v q (k * (m * nd.rateDen) + i)
    M.Holds (M.stateAt (g.toldRate v) s x p m) ((g.runCall v k).stateRegion.getD v {}) ∧
      ∀ c < nd.outputsCount,
        (∀ i < m * nd.rateNum, (g.runCall v k).bufferPool.getD
          (g.outOffset v c + (k * (m * nd.rateNum) + i)) 0
            = M.play (g.toldRate v) s x p c i) ∧
        ∀ j < k * (m * nd.rateNum), (g.runCall v k).bufferPool.getD (g.outOffset v c + j) 0
          = g.bufferPool.getD (g.outOffset v c + j) 0 := by
  intro x p
  have hv : v < bp.size := (List.getElem?_eq_some_iff.mp S.here).1
  have node : g.sched.bp.nodes[v]? = some nd := by
    rw [S.sched]
    exact S.here
  have inputs : ∀ c, ∀ i < m * M.den, (g.callContext nd v k).input c i = x c i := fun c i hi =>
    input_callContext S.wired S.settled S.sched S.here S.grain c (S.real.den.symm ▸ hi)
  have ports : ∀ q, ∀ i < m * M.den, (g.callContext nd v k).param q i = p q i := fun q i _ =>
    param_callContext S.wired S.settled S.sched S.here S.grain S.rest q i
  obtain ⟨state, outs⟩ := S.real.call holds
    (handed_callContext (k := k) S.wired S.settled S.sched S.here S.grain)
  rw [SampleMachine.stateAt_congr inputs ports] at state
  have block := S.grain
  rw [runCall_eq g node, putResult_states S.rest]
  refine ⟨?_, fun c hc => ?_⟩
  · rw [List.getD_eq_getElem?_getD, List.getElem?_set_self (by rw [S.states]; exact hv)]
    exact state
  · obtain ⟨own, others⟩ := putResult_pool S.settled S.sched S.here S.rest S.pool hk
      (fun c hc => by rw [outs c hc, List.length_map, List.length_range, block]) c hc
    rw [block] at own others
    refine ⟨fun i hi => ?_, others⟩
    rw [own i hi, outs c hc, getD_map_range _ hi]
    exact SampleMachine.play_congr inputs ports (S.real.num ▸ hi)

omit [Sample.Steady α] in
/-- An instance akin to one whose node has its seat. -/
theorem Seat.kin (S : Seat bp B order rates g v nd M m) {h : GraphInstance α} (kin : g.Kin h) :
    Seat bp B order rates h v nd M m where
  wired := S.wired
  acyclic := S.acyclic
  settled := S.settled
  sched := kin.like.1.trans S.sched
  here := S.here
  real := S.real
  grain := S.grain
  rest := kin.rest S.rest
  pool := by rw [kin.pool, kin.like.1, S.pool]
  states := kin.states.trans S.states

omit [Sample.Steady α] in
/-- A call changes its node's cells alone. -/
theorem Seat.frame (S : Seat bp B order rates g v nd M m) (hk : k < (rates v).calls) :
    g.Kin (g.runCall v k) ∧ ∀ c ∉ g.sched.owns v, (g.runCall v k).look c = g.look c := by
  have node : g.sched.bp.nodes[v]? = some nd := by
    rw [S.sched]
    exact S.here
  rw [runCall_eq g node]
  have like : g.Like g := ⟨rfl, rfl, rfl, rfl⟩
  exact ⟨Kin.putResult S.rest nd v k _,
    (footprint_putResult S.settled S.sched S.here hk _).frame g like⟩

omit [Sample.Steady α] in
/-- What arrives is in the buffers of the nodes that feed `v`. -/
theorem Seat.arrives_congr (S : Seat bp B order rates g v nd M m) {h : GraphInstance α}
    (kin : g.Kin h) (same : ∀ u, (u, v) ∈ bp.edges → ∀ j ∈ g.sched.buffers u,
      h.bufferPool[j]? = g.bufferPool[j]?) {i : Nat} (hi : i < (rates v).calls * (m * nd.rateDen)) :
    (∀ c, h.arrives v c i = g.arrives v c i) ∧ ∀ p, h.steers v p i = g.steers v p i := by
  have hbp : g.sched.bp = bp := by rw [S.sched]; rfl
  have sample : ∀ u ch, (u, v) ∈ bp.edges → ch < bp.outputsOf u →
      h.bufferPool.getD (h.outOffset u ch + i) 0 = g.bufferPool.getD (g.outOffset u ch + i) 0 := by
    intro u ch edge hch
    rw [outOffset, kin.like.1, ← outOffset]
    refine getD_congr (same u edge _ (mem_buffers (hbp.symm ▸ hch) ?_)) 0
    rw [(slice_eq S.wired S.settled S.sched S.here S.grain edge).1]
    exact hi
  refine ⟨fun c => ?_, fun p => ?_⟩
  · rw [arrives, arrives, kin.like.1, hbp]
    cases driver : bp.inputDriver v c with
    | none => rfl
    | some d =>
        have mem := GraphBlueprint.inputDriver_eq_some driver
        exact sample _ _ (GraphBlueprint.mem_edges.mpr (.inl ⟨_, mem, rfl⟩))
          (S.wired.audio _ mem).2.2.1
  · rw [steers, steers, kin.like.1, hbp]
    cases driver : bp.portDriver v p with
    | none =>
        show h.setting v p = g.setting v p
        rw [setting, setting, glide, glide, kin.like.1, kin.controls]
    | some d =>
        have mem := GraphBlueprint.portDriver_eq_some driver
        exact sample _ _ (GraphBlueprint.mem_edges.mpr (.inr ⟨_, mem, rfl⟩))
          (S.wired.modulation _ mem).2.2.1

/-- The first `n` calls of a cycle are `n * m` steps of the machine. -/
theorem Seat.calls (S : Seat bp B order rates g v nd M m) {s : M.State}
    (holds : M.Holds s (g.stateRegion.getD v {})) : ∀ n ≤ (rates v).calls,
      let h := (List.range n).foldl (fun h k => h.runCall v k) g
      g.Kin h ∧ (∀ c ∉ g.sched.owns v, h.look c = g.look c) ∧
        M.Holds (M.stateAt (g.toldRate v) s (g.arrives v) (g.steers v) (n * m))
          (h.stateRegion.getD v {}) ∧
        ∀ c < nd.outputsCount, ∀ i < n * (m * nd.rateNum),
          h.bufferPool.getD (g.outOffset v c + i) 0
            = M.play (g.toldRate v) s (g.arrives v) (g.steers v) c i := by
  intro n
  induction n with
  | zero =>
      refine fun _ => ⟨.refl g, fun _ _ => rfl, ?_, fun c _ i hi => ?_⟩
      · rw [Nat.zero_mul]
        exact holds
      · exact absurd hi (by rw [Nat.zero_mul]; exact Nat.not_lt_zero i)
  | succ n ih =>
      intro hn
      obtain ⟨kin, frame, state, sofar⟩ := ih (by omega)
      rw [List.range_succ, List.foldl_append, List.foldl_cons, List.foldl_nil]
      set h := (List.range n).foldl (fun h k => h.runCall v k) g
      have T := S.kin kin
      obtain ⟨kin', frame'⟩ := T.frame (k := n) (by omega)
      obtain ⟨state', last⟩ := T.call (k := n) (by omega) state
      have hbp : g.sched.bp = bp := by rw [S.sched]; rfl
      have hv : v < bp.size := (List.getElem?_eq_some_iff.mp S.here).1
      have told : h.toldRate v = g.toldRate v := by
        rw [toldRate, toldRate, kin.like.1, kin.like.2.2.1]
      -- what arrives is not in the node's own cells
      have fed : ∀ u, (u, v) ∈ bp.edges → ∀ j ∈ g.sched.buffers u,
          h.bufferPool[j]? = g.bufferPool[j]? := by
        intro u edge j hj
        have apart : Disjoint (g.sched.buffers u) (g.sched.buffers v) := by
          rw [S.sched]
          exact disjoint_buffers (S.wired.edges_lt _ edge).1 hv (S.acyclic.ne edge)
        exact frame (.sample j) (Set.disjoint_left.mp apart hj)
      have part : ∀ i < m * M.den, n * (m * nd.rateDen) + i < (rates v).calls * (m * nd.rateDen) :=
        fun i hi =>
          calc n * (m * nd.rateDen) + i < n * (m * nd.rateDen) + m * nd.rateDen :=
                Nat.add_lt_add_left (S.real.den.symm ▸ hi) _
            _ = (n + 1) * (m * nd.rateDen) := (Nat.succ_mul _ _).symm
            _ ≤ (rates v).calls * (m * nd.rateDen) := Nat.mul_le_mul_right _ hn
      have inputs : ∀ c, ∀ i < m * M.den, h.arrives v c (n * (m * nd.rateDen) + i)
          = g.arrives v c (n * m * M.den + i) := fun c i hi => by
        rw [(S.arrives_congr kin fed (part i hi)).1 c, S.real.den, Nat.mul_assoc]
      have ports : ∀ q, ∀ i < m * M.den, h.steers v q (n * (m * nd.rateDen) + i)
          = g.steers v q (n * m * M.den + i) := fun q i hi => by
        rw [(S.arrives_congr kin fed (part i hi)).2 q, S.real.den, Nat.mul_assoc]
      have num : 0 < M.num := by
        obtain ⟨base, blk, -, of⟩ := S.settled.of S.here
        have pos := of.block_pos
        rw [S.grain, S.real.num] at pos
        exact Nat.pos_of_mul_pos_left pos
      refine ⟨kin.trans kin', fun c hc => ?_, ?_, fun c hc i hi => ?_⟩
      · rw [frame' c (kin.like.1.symm ▸ hc), frame c hc]
      · rw [told, SampleMachine.stateAt_congr inputs ports, SampleMachine.stateAt_from] at state'
        rw [Nat.succ_mul]
        exact state'
      · obtain ⟨own, others⟩ := last c hc
        have offset : h.outOffset v c = g.outOffset v c := by
          rw [outOffset, outOffset, kin.like.1]
        rw [offset] at own others
        by_cases before : i < n * (m * nd.rateNum)
        · rw [others i before, sofar c hc i before]
        · obtain ⟨j, rfl⟩ := Nat.exists_eq_add_of_le (not_lt.mp before)
          rw [Nat.succ_mul] at hi
          have hj : j < m * nd.rateNum := by omega
          rw [own j hj, told, SampleMachine.play_congr inputs ports (S.real.num ▸ hj),
            SampleMachine.play_from num, S.real.num, Nat.mul_assoc]

/-- **A node's turn in a cycle**, where all its calls are made. -/
theorem Seat.turn (S : Seat bp B order rates g v nd M m) {s : M.State}
    (holds : M.Holds s (g.stateRegion.getD v {})) :
    M.Holds (M.stateAt (g.toldRate v) s (g.arrives v) (g.steers v) ((rates v).calls * m))
        ((g.runNode v).stateRegion.getD v {}) ∧
      ∀ c < nd.outputsCount, ∀ i < (rates v).calls * (m * nd.rateNum),
        (g.runNode v).bufferPool.getD (g.outOffset v c + i) 0
          = M.play (g.toldRate v) s (g.arrives v) (g.steers v) c i := by
  have hv : v < bp.size := (List.getElem?_eq_some_iff.mp S.here).1
  have calls : g.sched.calls.getD v 0 = (rates v).calls := S.sched ▸ getD_map_range _ hv 0
  rw [runNode, calls]
  exact (S.calls holds _ le_rfl).2.2

omit [Sample.Steady α] in
/-- A node's turn changes its cells alone. -/
theorem Seat.turn_frame (S : Seat bp B order rates g v nd M m) :
    g.Kin (g.runNode v) ∧ ∀ c ∉ g.sched.owns v, (g.runNode v).look c = g.look c := by
  have hv : v < bp.size := (List.getElem?_eq_some_iff.mp S.here).1
  have calls : g.sched.calls.getD v 0 = (rates v).calls := S.sched ▸ getD_map_range _ hv 0
  rw [runNode, calls]
  have all : ∀ n ≤ (rates v).calls, let h := (List.range n).foldl (fun h k => h.runCall v k) g
      g.Kin h ∧ ∀ c ∉ g.sched.owns v, h.look c = g.look c := by
    intro n
    induction n with
    | zero => exact fun _ => ⟨.refl g, fun _ _ => rfl⟩
    | succ n ih =>
        intro hn
        obtain ⟨kin, frame⟩ := ih (by omega)
        obtain ⟨kin', frame'⟩ := (S.kin kin).frame (k := n) (by omega)
        rw [List.range_succ, List.foldl_append, List.foldl_cons, List.foldl_nil]
        exact ⟨kin.trans kin', fun c hc => by rw [frame' c (kin.like.1.symm ▸ hc), frame c hc]⟩
  exact all _ le_rfl

end Calls

/-! ### Cycles -/

/-- The instance is at rest and realises the network: its state blocks stand for the states the
network starts from, and its blocks hold whole steps. -/
structure Realises (g : GraphInstance α) (N : Network α) : Prop where
  machine : ∀ v (nd : Node α), g.sched.bp.nodes[v]? = some nd → nd.Realises (N.machine v)
  grain : ∀ v < g.sched.bp.size, (N.machine v).num ∣ g.sched.nodeBlock.getD v 0
  state : ∀ v < g.sched.bp.size, (N.machine v).Holds (N.state v) (g.stateRegion.getD v {})
  rate : ∀ v < g.sched.bp.size, N.rate v = g.toldRate v
  setting : ∀ v < g.sched.bp.size, ∀ p, N.setting v p = g.setting v p
  rest : g.AtRest
  pool : g.bufferPool.length = g.sched.totalOutputSamples
  states : g.stateRegion.length = g.sched.bp.size

/-- What the outputs of an instance show, cycle after cycle: sample `t` of channel `c` of node
`v`. -/
def played (g : GraphInstance α) : Streams α := fun v c t =>
  let stride := g.sched.outStride.getD v 0
  (GraphInstance.process^[t / stride + 1] g).bufferPool.getD (g.outOffset v c + t % stride) 0

section Cycle

variable {bp : GraphBlueprint α} {B : Nat} {order : List Nat} {rates : Rates}
  {g : GraphInstance α} {N : Network α} {v : Nat}

/-- Sample `i` of cycle `T`. -/
theorem played_cycle (g : GraphInstance α) (v c T : Nat) {i : Nat}
    (hi : i < g.sched.outStride.getD v 0) :
    g.played v c (T * g.sched.outStride.getD v 0 + i)
      = (GraphInstance.process^[T + 1] g).bufferPool.getD (g.outOffset v c + i) 0 := by
  have quotient : (T * g.sched.outStride.getD v 0 + i) / g.sched.outStride.getD v 0 = T := by
    rw [Nat.add_comm, Nat.add_mul_div_right _ _ (Nat.zero_lt_of_lt hi), Nat.div_eq_of_lt hi,
      Nat.zero_add]
  have remainder : (T * g.sched.outStride.getD v 0 + i) % g.sched.outStride.getD v 0 = i := by
    rw [Nat.add_comm, Nat.add_mul_mod_self_right, Nat.mod_eq_of_lt hi]
  simp only [played, quotient, remainder]

/-- Every node has its seat in an instance that realises a network. -/
theorem Realises.seat (R : g.Realises N) (W : bp.Wired) (acyclic : Acyclic bp.edges)
    (settled : Settled bp B rates) (hs : g.sched = layout bp B order rates) {nd : Node α}
    (here : bp.nodes[v]? = some nd) : ∃ m, Seat bp B order rates g v nd (N.machine v) m := by
  have hv : v < bp.size := (List.getElem?_eq_some_iff.mp here).1
  have hbp : g.sched.bp = bp := by rw [hs]; rfl
  have real := R.machine v nd (hbp.symm ▸ here)
  have block : g.sched.nodeBlock.getD v 0 = (rates v).nodeBlock := hs ▸ getD_map_range _ hv 0
  obtain ⟨m, hm⟩ := block ▸ R.grain v (hbp.symm ▸ hv)
  exact ⟨m,
    { wired := W
      acyclic := acyclic
      settled := settled
      sched := hs
      here := here
      real := real
      grain := by rw [hm, real.num, Nat.mul_comm]
      rest := R.rest
      pool := R.pool
      states := hbp ▸ R.states }⟩

/-- Nodes executed one after another change their own cells alone. -/
theorem Realises.frame (R : g.Realises N) (W : bp.Wired) (acyclic : Acyclic bp.edges)
    (settled : Settled bp B rates) (hs : g.sched = layout bp B order rates) :
    ∀ (l : List Nat) {h : GraphInstance α}, (∀ u ∈ l, u < bp.size) → g.Kin h →
      g.Kin (h.processIn l) ∧
        ∀ c, (∀ u ∈ l, c ∉ g.sched.owns u) → (h.processIn l).look c = h.look c
  | [], h, _, kin     => ⟨kin, fun _ _ => rfl⟩
  | u :: l, h, node, kin => by
      have hu : u < bp.size := node u List.mem_cons_self
      have here : bp.nodes[u]? = some bp.nodes[u] := List.getElem?_eq_getElem hu
      obtain ⟨m, S⟩ := R.seat W acyclic settled hs here
      obtain ⟨kin', first⟩ := (S.kin kin).turn_frame
      obtain ⟨kin'', rest⟩ := Realises.frame R W acyclic settled hs l
        (fun w hw => node w (List.mem_cons_of_mem u hw)) (kin.trans kin')
      refine ⟨kin'', fun c outside => ?_⟩
      show ((h.runNode u).processIn l).look c = _
      rw [rest c fun w hw => outside w (List.mem_cons_of_mem u hw),
        first c (kin.like.1.symm ▸ outside u List.mem_cons_self)]

variable [Sample.Steady α]

/-- **A cycle.**  Each node makes the steps of its calls on what its drivers leave in the cycle. -/
theorem Realises.cycle (R : g.Realises N) (W : bp.Wired) (settled : Settled bp B rates)
    (hs : g.sched = layout bp B (topoRun bp).topoOrder rates) {nd : Node α} {M : SampleMachine α} {m : Nat}
    (S : Seat bp B (topoRun bp).topoOrder rates g v nd M m) {h : GraphInstance α} (kin : g.Kin h)
    {s : M.State} (holds : M.Holds s (h.stateRegion.getD v {})) :
    g.Kin h.process ∧
      M.Holds (M.stateAt (g.toldRate v) s (h.process.arrives v) (h.process.steers v)
        ((rates v).calls * m)) (h.process.stateRegion.getD v {}) ∧
      ∀ c < nd.outputsCount, ∀ i < (rates v).calls * (m * nd.rateNum),
        h.process.bufferPool.getD (g.outOffset v c + i) 0
          = M.play (g.toldRate v) s (h.process.arrives v) (h.process.steers v) c i := by
  have D := topoRun_done W
  have acyclic := S.acyclic
  have hbp : g.sched.bp = bp := by rw [hs]; rfl
  have hv : v < bp.size := (List.getElem?_eq_some_iff.mp S.here).1
  obtain ⟨l₁, l₂, split⟩ := List.append_of_mem (D.all acyclic v hv)
  have node : ∀ u ∈ (topoRun bp).topoOrder, u < bp.size := D.mem
  have nodup := D.nodup
  rw [split] at node nodup
  have order : h.sched.topoOrder = l₁ ++ v :: l₂ := by
    rw [kin.like.1, hs]
    exact split
  set h₁ := h.processIn l₁ with hh₁
  have process : h.process = (h₁.runNode v).processIn l₂ := by
    rw [← processIn_topoOrder, order, processIn, List.foldl_append, List.foldl_cons]
    rfl
  have frames := fun l {h : GraphInstance α} => R.frame W acyclic settled hs l (h := h)
  obtain ⟨kin₁, first⟩ := frames l₁ (fun u hu => node u (by simp [hu])) kin
  have S₁ := S.kin kin₁
  obtain ⟨kin₂, mine⟩ := S₁.turn_frame
  obtain ⟨kin₃, last⟩ := frames l₂ (fun u hu => node u (by simp [hu])) (kin₁.trans kin₂)
  rw [← process] at kin₃ last
  have apart : ∀ u w, u < bp.size → w < bp.size → u ≠ w →
      Disjoint (g.sched.owns u) (g.sched.owns w) := fun u w hu hw ne => by
    rw [hs]
    exact disjoint_owns hu hw ne
  -- the nodes before `v` have not touched its cells, nor those after it
  have before : ∀ c ∈ g.sched.owns v, h₁.look c = h.look c := fun c hc =>
    first c fun u hu => Set.disjoint_right.mp (apart u v (node u (by simp [hu])) hv fun e => by
      subst e
      exact (List.nodup_middle.mp nodup |> List.nodup_cons.mp).1 (List.mem_append_left _ hu)) hc
  have after : ∀ c ∈ g.sched.owns v, h.process.look c = (h₁.runNode v).look c := fun c hc =>
    last c fun u hu => Set.disjoint_right.mp (apart u v (node u (by simp [hu])) hv fun e => by
      subst e
      exact (List.nodup_middle.mp nodup |> List.nodup_cons.mp).1 (List.mem_append_right _ hu)) hc
  -- the drivers of `v` are done when its turn comes
  have fed : ∀ u, (u, v) ∈ bp.edges → ∀ j ∈ g.sched.buffers u,
      h.process.bufferPool[j]? = h₁.bufferPool[j]? := by
    intro u edge j hj
    have early : u ∈ l₁ := D.preds l₁ v l₂ split u edge
    have hu := node u (List.mem_append_left _ early)
    have others : ∀ w ∈ v :: l₂, .sample j ∉ g.sched.owns w := fun w hw =>
      Set.disjoint_left.mp (apart u w hu (node w (List.mem_append_right _ hw)) fun e => by
        subst e
        exact List.disjoint_of_nodup_append nodup early hw) hj
    have h₂ := last (.sample j) fun w hw => others w (List.mem_cons_of_mem v hw)
    have h₃ := mine (.sample j) (kin₁.like.1.symm ▸ others v List.mem_cons_self)
    exact h₂.trans h₃
  have holds₁ : M.Holds s (h₁.stateRegion.getD v {}) := by
    rw [getD_congr (before (.state v) rfl)]
    exact holds
  obtain ⟨state, outs⟩ := S₁.turn holds₁
  have told : h₁.toldRate v = g.toldRate v := by
    rw [toldRate, toldRate, kin₁.like.1, kin₁.like.2.2.1]
  have kin₄ : h₁.Kin h.process :=
    { like := ⟨kin₃.like.1.trans kin₁.like.1.symm, kin₃.like.2.1.trans kin₁.like.2.1.symm,
        kin₃.like.2.2.1.trans kin₁.like.2.2.1.symm, kin₃.like.2.2.2.trans kin₁.like.2.2.2.symm⟩
      controls := kin₃.controls.trans kin₁.controls.symm
      pool := kin₃.pool.trans kin₁.pool.symm
      states := kin₃.states.trans kin₁.states.symm }
  have reads : ∀ {i}, i < (rates v).calls * m * M.den →
      (∀ c, h₁.arrives v c i = h.process.arrives v c i) ∧
        ∀ p, h₁.steers v p i = h.process.steers v p i := by
    intro i hi
    rw [Nat.mul_assoc, ← S.real.den] at hi
    obtain ⟨a, b⟩ := S₁.arrives_congr kin₄
      (fun u edge j hj => fed u edge j (kin₁.like.1 ▸ hj)) hi
    exact ⟨fun c => (a c).symm, fun p => (b p).symm⟩
  rw [told, SampleMachine.stateAt_congr (fun c i hi => (reads hi).1 c)
    fun p i hi => (reads hi).2 p] at state
  refine ⟨kin₃, ?_, fun c hc i hi => ?_⟩
  · rw [getD_congr (after (.state v) rfl)]
    exact state
  · have own : InstanceCell.sample (g.outOffset v c + i) ∈ g.sched.owns v := by
      refine mem_buffers ?_ ?_
      · rw [hbp, GraphBlueprint.outputsOf, S.here]
        exact hc
      · obtain ⟨base, blk, -, of⟩ := settled.of S.here
        rw [← S.grain, of.calls] at hi
        rw [show g.sched.outStride.getD v 0 = (rates v).regionRate * B from
          hs ▸ getD_map_range _ hv 0]
        exact hi
    have here := outs c hc i hi
    rw [show h₁.outOffset v c = g.outOffset v c by rw [outOffset, outOffset, kin₁.like.1], told]
      at here
    rw [getD_congr (after _ own), here]
    exact SampleMachine.play_congr (fun c i hi => (reads hi).1 c) (fun p i hi => (reads hi).2 p)
      (by rw [Nat.mul_assoc, ← S.real.num]; exact hi)

omit [Sample.Steady α] in
/-- What arrives in a cycle is that cycle's part of what the outputs show. -/
theorem Realises.arrives_cycle (R : g.Realises N) {nd : Node α} {M : SampleMachine α} {m : Nat}
    (S : Seat bp B order rates g v nd M m) {T : Nat}
    (kin : g.Kin (GraphInstance.process^[T + 1] g)) {i : Nat}
    (hi : i < (rates v).calls * m * M.den) :
    (∀ c, (GraphInstance.process^[T + 1] g).arrives v c i
        = Network.arriving bp g.played v c (T * ((rates v).calls * m) * M.den + i)) ∧
      ∀ p, (GraphInstance.process^[T + 1] g).steers v p i
        = N.steering bp g.played v p (T * ((rates v).calls * m) * M.den + i) := by
  have hbp : g.sched.bp = bp := by rw [S.sched]; rfl
  have hv : v < bp.size := (List.getElem?_eq_some_iff.mp S.here).1
  rw [Nat.mul_assoc] at hi
  have part : T * ((rates v).calls * m) * M.den = T * ((rates v).calls * (m * M.den)) := by
    rw [Nat.mul_assoc, Nat.mul_assoc]
  have sample : ∀ u ch, (u, v) ∈ bp.edges →
      (GraphInstance.process^[T + 1] g).bufferPool.getD
        ((GraphInstance.process^[T + 1] g).outOffset u ch + i) 0
        = g.played u ch (T * ((rates v).calls * m) * M.den + i) := by
    intro u ch edge
    have stride := (slice_eq S.wired S.settled S.sched S.here S.grain edge).1
    rw [S.real.den] at stride
    rw [part, ← stride, played_cycle g u ch T (stride.symm ▸ hi), outOffset, kin.like.1, ← outOffset]
  refine ⟨fun c => ?_, fun p => ?_⟩
  · rw [arrives, kin.like.1, hbp, Network.arriving]
    cases driver : bp.inputDriver v c with
    | none => rfl
    | some d =>
        exact sample _ _ (GraphBlueprint.mem_edges.mpr
          (.inl ⟨_, GraphBlueprint.inputDriver_eq_some driver, rfl⟩))
  · rw [steers, kin.like.1, hbp, Network.steering]
    cases driver : bp.portDriver v p with
    | none =>
        show (GraphInstance.process^[T + 1] g).setting v p = N.setting v p
        rw [R.setting v (hbp.symm ▸ hv), GraphInstance.setting, GraphInstance.setting, glide, glide,
          kin.like.1, kin.controls]
    | some d =>
        exact sample _ _ (GraphBlueprint.mem_edges.mpr
          (.inr ⟨_, GraphBlueprint.portDriver_eq_some driver, rfl⟩))

/-- After `T` cycles a node has made the steps of all their calls. -/
theorem Realises.cycles (R : g.Realises N) (W : bp.Wired) (settled : Settled bp B rates)
    (hs : g.sched = layout bp B (topoRun bp).topoOrder rates) {nd : Node α} {m : Nat}
    (S : Seat bp B (topoRun bp).topoOrder rates g v nd (N.machine v) m) (T : Nat) :
    g.Kin (GraphInstance.process^[T] g) ∧
      (N.machine v).Holds ((N.machine v).stateAt (N.rate v) (N.state v)
        (Network.arriving bp g.played v) (N.steering bp g.played v) (T * ((rates v).calls * m)))
        ((GraphInstance.process^[T] g).stateRegion.getD v {}) := by
  have hbp : g.sched.bp = bp := by rw [hs]; rfl
  have hv : v < bp.size := (List.getElem?_eq_some_iff.mp S.here).1
  induction T with
  | zero =>
      refine ⟨.refl g, ?_⟩
      rw [Nat.zero_mul]
      exact R.state v (hbp.symm ▸ hv)
  | succ T ih =>
      obtain ⟨kin, holds⟩ := ih
      obtain ⟨kin', state, -⟩ := R.cycle W settled hs S kin holds
      rw [← Function.iterate_succ_apply' GraphInstance.process] at kin' state
      have reads := fun {i} (hi : i < (rates v).calls * m * (N.machine v).den) =>
        R.arrives_cycle S kin' hi
      rw [← R.rate v (hbp.symm ▸ hv), SampleMachine.stateAt_congr (fun c i hi => (reads hi).1 c)
        fun p i hi => (reads hi).2 p, SampleMachine.stateAt_from] at state
      refine ⟨kin', ?_⟩
      rw [Nat.succ_mul]
      exact state

end Cycle

end GraphInstance

variable [Sample α] [Sample.Steady α] {bp bp' : GraphBlueprint α} {B B' : Nat}
  {g g' : GraphInstance α} {N : Network α}

/-- **An instance plays a solution of its blueprint's network.** -/
theorem played_solves (W : bp.Wired) (ok : (compile bp B).ok = true)
    (hs : g.sched = compile bp B) (R : g.Realises N) : N.Solves bp g.played := by
  intro v hv c hc t
  obtain ⟨rates, hlayout, settled, hlen⟩ := compile_of_ok W ok
  have hs := hs.trans hlayout
  have acyclic := ((topoRun_done W).length_eq_iff W).mp hlen
  have hbp : g.sched.bp = bp := by rw [hs]; rfl
  have here : bp.nodes[v]? = some bp.nodes[v] := List.getElem?_eq_getElem hv
  obtain ⟨m, S⟩ := R.seat W acyclic settled hs here
  have stride : g.sched.outStride.getD v 0 = (rates v).calls * (m * bp.nodes[v].rateNum) := by
    obtain ⟨base, blk, -, of⟩ := settled.of here
    rw [← S.grain, of.calls]
    exact hs ▸ getD_map_range _ hv 0
  have outs : c < bp.nodes[v].outputsCount := by
    simpa only [GraphBlueprint.outputsOf, here, Option.map_some, Option.getD_some] using hc
  have pos : 0 < (rates v).calls * (m * bp.nodes[v].rateNum) := by
    obtain ⟨base, blk, -, of⟩ := settled.of here
    rw [← S.grain]
    exact Nat.mul_pos of.calls_pos of.block_pos
  have num : 0 < (N.machine v).num := by
    rw [S.real.num] at pos
    exact Nat.pos_of_mul_pos_left (Nat.pos_of_mul_pos_left pos)
  -- the cycle of sample `t`, and its place in it
  set T := t / g.sched.outStride.getD v 0
  set i := t % g.sched.outStride.getD v 0
  have hi : i < g.sched.outStride.getD v 0 := Nat.mod_lt _ (stride ▸ pos)
  have place : T * g.sched.outStride.getD v 0 + i = t := Nat.div_add_mod' t _
  obtain ⟨kin, holds⟩ := R.cycles W settled hs S T
  obtain ⟨kin', -, played⟩ := R.cycle W settled hs S kin holds
  rw [← Function.iterate_succ_apply' GraphInstance.process] at kin' played
  have reads := fun {i} (hi : i < (rates v).calls * m * (N.machine v).den) =>
    R.arrives_cycle S kin' hi
  rw [← place, GraphInstance.played_cycle g v c T hi, played c outs i (stride ▸ hi),
    ← R.rate v (hbp.symm ▸ hv), SampleMachine.play_congr (fun c i hi => (reads hi).1 c)
      (fun p i hi => (reads hi).2 p) (by rw [Nat.mul_assoc, ← S.real.num, ← stride]; exact hi),
    SampleMachine.play_from num, Network.playing, stride, S.real.num]
  simp only [Nat.mul_assoc]

end Xrune
