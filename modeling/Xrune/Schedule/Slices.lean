import Xrune.Lang.Registry
import Xrune.Schedule.Wiring

/-!
# Schedule — slices

Call `k` of a node writes the `k`-th slice of its own output buffers and reads the `k`-th slice
of the buffers that feed it.  The slices of an output always tile its buffer.  Those of an input
tile the producer's buffer when the consumer's calls divide it: an upsampler whose calls are down
to one sample is handed empty slices (`slices_whole_iff`).
-/

namespace Xrune

variable {α : Type}

/-! ### Tilings -/

def BufferView.start : BufferView → Nat
  | .pool start _ => start
  | .silent _     => 0

def BufferView.size : BufferView → Nat
  | .pool _ size => size
  | .silent size => size

/-- The samples of the pool a view shows. -/
def BufferView.samples : BufferView → Finset Nat
  | .pool start size => Finset.Ico start (start + size)
  | .silent _        => ∅

/-- The first `n` slices are not empty, follow one another, do not overlap, and are together the
`len` samples from `start` on. -/
structure Tiles (slice : Nat → BufferView) (n start len : Nat) : Prop where
  nonempty : ∀ k < n, 0 < (slice k).size
  consecutive : ∀ k, k + 1 < n → (slice (k + 1)).start = (slice k).start + (slice k).size
  disjoint : ∀ j < n, ∀ k < n, j ≠ k → Disjoint (slice j).samples (slice k).samples
  covers : (Finset.range n).biUnion (fun k => (slice k).samples) = Finset.Ico start (start + len)

theorem biUnion_slices (a l n : Nat) (hl : 0 < l) :
    (Finset.range n).biUnion (fun k => Finset.Ico (a + k * l) (a + k * l + l))
      = Finset.Ico a (a + n * l) := by
  ext x
  simp only [Finset.mem_biUnion, Finset.mem_range, Finset.mem_Ico]
  constructor
  · rintro ⟨k, hk, h₁, h₂⟩
    have : (k + 1) * l ≤ n * l := Nat.mul_le_mul_right l hk
    rw [Nat.add_mul, one_mul] at this
    omega
  · rintro ⟨h₁, h₂⟩
    have hdiv := Nat.div_add_mod (x - a) l
    have hmod := Nat.mod_lt (x - a) hl
    rw [mul_comm] at hdiv
    exact ⟨(x - a) / l, (Nat.div_lt_iff_lt_mul hl).mpr (by omega), by omega, by omega⟩

/-- Slices of one length tile a buffer when they are not empty and add up to it. -/
theorem tiles_pool_iff {a l n len : Nat} (hn : 0 < n) :
    Tiles (fun k => .pool (a + k * l) l) n a len ↔ 0 < l ∧ n * l = len := by
  constructor
  · intro T
    have hl : 0 < l := T.nonempty 0 hn
    have h := T.covers
    simp only [BufferView.samples, biUnion_slices a l n hl] at h
    have card := congrArg Finset.card h
    simp only [Nat.card_Ico] at card
    exact ⟨hl, by omega⟩
  · rintro ⟨hl, rfl⟩
    have apart : ∀ j k, j < k → a + j * l + l ≤ a + k * l := by
      intro j k h
      have : (j + 1) * l ≤ k * l := Nat.mul_le_mul_right l h
      rw [Nat.add_mul, one_mul] at this
      omega
    exact
      { nonempty := fun _ _ => hl
        consecutive := fun k _ => by simp only [BufferView.start, BufferView.size]; ring
        disjoint := by
          intro j _ k _ hjk
          refine Finset.disjoint_left.mpr fun x hj hk => ?_
          rw [BufferView.samples, Finset.mem_Ico] at hj hk
          rcases Nat.lt_or_gt_of_ne hjk with h | h
          · have := apart j k h; omega
          · have := apart k j h; omega
        covers := biUnion_slices a l n hl }

/-! ### Block depth -/

/-- Whether a node halves the block. -/
def Node.halves (nd : Node α) : Nat := if nd.blockDen = 2 then 1 else 0

/-- On some path from a node without drivers to `v`, the nodes that halve the block, `v`
included, are `d`. -/
inductive GraphBlueprint.BlockDepth (bp : GraphBlueprint α) : Nat → Nat → Prop where
  | source {v : Nat} {nd : Node α} (here : bp.nodes[v]? = some nd)
      (free : ∀ u, (u, v) ∉ bp.edges) : BlockDepth bp v nd.halves
  | step {u v d : Nat} {nd : Node α} (before : BlockDepth bp u d) (edge : (u, v) ∈ bp.edges)
      (here : bp.nodes[v]? = some nd) : BlockDepth bp v (d + nd.halves)

open Lang in
theorem Lang.Ratio.blockDelta {nd : Node α} (h : Ratio nd) :
    nd.blockDelta = some (-(nd.halves : Int)) := by
  cases h with
  | unit _ hb | up _ hb | down _ hb => simp [Node.blockDelta, Node.halves, hb.1, hb.2]
  | finer _ hb => simp [Node.blockDelta, Node.halves, hb.1, hb.2]

section Depth

variable {bp : GraphBlueprint α} {B : Nat} {rates : Rates}

/-- The block exponent of a node counts the halvings on any path to it. -/
theorem Settled.blkExp_of_depth (settled : Settled bp B rates)
    (ratio : ∀ nd ∈ bp.nodes, Lang.Ratio nd) {v d : Nat} (h : bp.BlockDepth v d) :
    (rates v).blkExp = -(d : Int) := by
  induction h with
  | @source v nd here free =>
      obtain ⟨base, blk, agree, of⟩ := settled.of here
      obtain ⟨-, rfl⟩ := agree.free free
      have := of.delta.symm.trans (ratio nd (List.mem_of_getElem? here)).blockDelta
      have := Option.some.inj this
      omega
  | @step u v d nd _ edge here ih =>
      obtain ⟨base, blk, agree, of⟩ := settled.of here
      have hblk := (agree.driven u edge).2
      have := of.delta.symm.trans (ratio nd (List.mem_of_getElem? here)).blockDelta
      have := Option.some.inj this
      push_cast
      omega

/-- Every node of an acyclic blueprint has a block depth. -/
theorem GraphBlueprint.exists_blockDepth (W : bp.Wired) (acyclic : Acyclic bp.edges) {v : Nat}
    (hv : v < bp.size) : ∃ d, bp.BlockDepth v d := by
  have D := topoRun_done W
  refine order_induction (p := fun v => ∃ d, bp.BlockDepth v d) D.preds (fun v hv ih => ?_) v
    (D.all acyclic v hv)
  obtain ⟨nd, here⟩ : ∃ nd, bp.nodes[v]? = some nd :=
    ⟨_, List.getElem?_eq_getElem (D.mem v hv)⟩
  by_cases free : ∀ u, (u, v) ∉ bp.edges
  · exact ⟨_, .source here free⟩
  · obtain ⟨u, hu⟩ := not_forall_not.mp free
    obtain ⟨d, hd⟩ := ih u hu
    exact ⟨_, .step hd hu here⟩

end Depth

/-! ### The slices of a compiled blueprint -/

/-- The slices an instance hands to its nodes tile the buffers they are slices of. -/
structure GraphInstance.SlicesWhole [Sample α] (g : GraphInstance α) : Prop where
  audio : ∀ c ∈ g.sched.bp.connections,
    Tiles (fun k => g.inView c.dstNode k c.dstInput) (g.sched.calls.getD c.dstNode 0)
      (g.outOffset c.srcNode c.srcOutput) (g.sched.regionRate.getD c.srcNode 0 * g.blockSize)
  modulation : ∀ c ∈ g.sched.bp.paramConnections,
    Tiles (fun k => g.edgeSlice c.srcNode c.srcOutput c.dstNode k)
      (g.sched.calls.getD c.dstNode 0) (g.outOffset c.srcNode c.srcOutput)
      (g.sched.regionRate.getD c.srcNode 0 * g.blockSize)
  port : ∀ c ∈ g.sched.bp.paramConnections, ∀ k < g.sched.calls.getD c.dstNode 0,
    (g.portView c.dstNode k c.dstParam).buffer
      = some (g.bufferPool.drop (g.edgeSlice c.srcNode c.srcOutput c.dstNode k).start)
  output : ∀ v < g.sched.bp.size, ∀ c < g.sched.bp.outputsOf v,
    Tiles (fun k => g.outView v k c) (g.sched.calls.getD v 0) (g.outOffset v c)
      (g.sched.regionRate.getD v 0 * g.blockSize)

/-- The slices of `S` samples for `C` calls tile them when the calls divide them. -/
theorem slices_tile_iff {a C S : Nat} (hC : 0 < C) (hS : 0 < S) :
    Tiles (fun k => .pool (a + k * (S / C)) (S / C)) C a S ↔ C ∣ S := by
  rw [tiles_pool_iff hC]
  constructor
  · rintro ⟨-, h⟩
    exact ⟨S / C, h.symm⟩
  · intro h
    exact ⟨Nat.div_pos (Nat.le_of_dvd hS h) hC, Nat.mul_div_cancel' h⟩

/-- The calls of a consumer divide its producer's buffer unless it doubles the rate one sample
at a time. -/
theorem calls_dvd_iff {nd : Node α} {B base : Nat} {blk : Int} {r : NodeRate}
    (ratio : Lang.Ratio nd) (of : NodeRate.Of nd B base blk r) (hB : isPowerOfTwo B = true)
    (exponent : r.blkExp ≤ 0) :
    r.calls ∣ base * B ↔ (nd.rateNum = 2 → r.nodeBlock ≠ 1) := by
  have hcalls := of.calls
  have hrate := of.rate
  have hpos : 0 < base * B := by
    have hR := isPowerOfTwo.pos of.power
    have hbase : base ≠ 0 := by
      rintro rfl
      rw [zero_mul] at hrate
      rcases Nat.mul_eq_zero.mp hrate with h | h
      · omega
      · exact of.den h
    exact Nat.mul_pos (Nat.pos_of_ne_zero hbase) (isPowerOfTwo.pos hB)
  have whole : nd.rateNum = 1 → r.calls ∣ base * B := by
    intro h
    rw [h, mul_one] at hrate
    exact ⟨r.nodeBlock * nd.rateDen, by rw [← hrate, ← mul_assoc, hcalls]; ring⟩
  have doubled : nd.rateNum = 2 ∧ nd.rateDen = 1 → (r.calls ∣ base * B ↔ r.nodeBlock ≠ 1) := by
    rintro ⟨h, h'⟩
    rw [h, h', mul_one] at hrate
    have twice : r.calls * r.nodeBlock = 2 * (base * B) := by rw [hcalls, hrate]; ring
    constructor
    · intro hdvd hone
      rw [hone, mul_one] at twice
      have := Nat.le_of_dvd hpos hdvd
      omega
    · intro hne
      -- the block is a power of two, so it is even
      obtain ⟨k, rfl⟩ := isPowerOfTwo_iff.mp hB
      have hblock := perCallBlock_eq_some.mp of.block
      rw [show r.blkExp.toNat = 0 by omega, pow_zero, mul_one] at hblock
      obtain ⟨j, -, hj⟩ := (Nat.dvd_prime_pow Nat.prime_two).mp ⟨_, hblock.symm⟩
      cases j with
      | zero => exact absurd hj hne
      | succ j =>
          refine ⟨2 ^ j, Nat.eq_of_mul_eq_mul_left Nat.two_pos ?_⟩
          rw [← twice, hj, pow_succ]
          ring
  cases ratio with
  | unit h _ | finer h _ => simp [whole h.1, h.1]
  | down h _ => simp [whole h.1, h.1]
  | up h _ => simpa [h.1] using doubled h

/-- An edge's slices tile its producer's buffer unless the consumer is an upsampler at the end
of a path that brings the block down to one sample. -/
theorem edge_tiles_iff {bp : GraphBlueprint α} {B : Nat} {g : GraphInstance α}
    {order : List Nat} {rates : Rates} (W : bp.Wired)
    (acyclic : Acyclic bp.edges) (ratio : ∀ nd ∈ bp.nodes, Lang.Ratio nd)
    (hB : isPowerOfTwo B = true) (settled : Settled bp B rates)
    (hs : g.sched = layout bp B order rates) {u v : Nat} (edge : (u, v) ∈ bp.edges) (ch : Nat) :
    Tiles (fun k => g.edgeSlice u ch v k) (g.sched.calls.getD v 0) (g.outOffset u ch)
        (g.sched.regionRate.getD u 0 * g.blockSize) ↔
      ∀ nd, bp.nodes[v]? = some nd → nd.rateNum = 2 → ∀ d, bp.BlockDepth v d → 2 ^ d < B := by
  obtain ⟨hu, hv⟩ := W.edges_lt _ edge
  have here : bp.nodes[v]? = some bp.nodes[v] := List.getElem?_eq_getElem hv
  obtain ⟨base, blk, agree, of⟩ := settled.of here
  obtain ⟨depth, hdepth⟩ := bp.exists_blockDepth W acyclic hv
  have exponent := fun d h => settled.blkExp_of_depth ratio (v := v) (d := d) h
  have hbase := (agree.driven u edge).1
  have calls : ∀ d, g.sched.calls.getD v d = (rates v).calls := by
    intro d
    rw [hs]
    exact getD_map_range _ hv d
  have stride : g.sched.outStride.getD u 0 = base * B := by
    rw [hs, ← hbase]
    exact getD_map_range _ hu 0
  have rate : g.sched.regionRate.getD u 0 * g.blockSize = base * B := by
    rw [GraphInstance.blockSize, hs, ← hbase]
    exact congrArg (· * B) (getD_map_range _ hu 0)
  have pos : 0 < base * B := by
    obtain ⟨nd, base', blk', hnd, -, of'⟩ := assignedRate_eq_some.mp (settled u hu)
    rw [← hbase]
    exact Nat.mul_pos (isPowerOfTwo.pos of'.power) (isPowerOfTwo.pos hB)
  have slice : (fun k => g.edgeSlice u ch v k)
      = fun k => .pool (g.outOffset u ch + k * (base * B / (rates v).calls))
        (base * B / (rates v).calls) := by
    funext k
    rw [GraphInstance.edgeSlice, stride, calls]
  rw [slice, calls, rate, slices_tile_iff of.calls_pos pos,
    calls_dvd_iff (ratio _ (List.getElem_mem hv)) of hB (by rw [exponent _ hdepth]; omega)]
  have block : ∀ d, bp.BlockDepth v d → (rates v).nodeBlock * 2 ^ d = B := by
    intro d hd
    have h := perCallBlock_eq_some.mp of.block
    rw [exponent d hd, neg_neg, Int.toNat_natCast, show (-(d : Int)).toNat = 0 by omega,
      pow_zero, mul_one] at h
    exact h
  constructor
  · intro h nd hnd hnum d hd
    obtain rfl : bp.nodes[v] = nd := Option.some.inj (here.symm.trans hnd)
    have hpos := of.block_pos
    have hne := h hnum
    calc 2 ^ d < 2 * 2 ^ d := by have := Nat.two_pow_pos d; omega
      _ ≤ (rates v).nodeBlock * 2 ^ d := Nat.mul_le_mul_right _ (by omega)
      _ = B := block d hd
  · intro h hnum hone
    have := h _ here hnum depth hdepth
    have := block depth hdepth
    rw [hone, one_mul] at this
    omega

section Whole

variable [Sample α] [Trig α] {bp : GraphBlueprint α} {B sr : Nat} {g : GraphInstance α}

/-- **When no sample is lost between nodes.**  The slices an instance of a compiled blueprint
hands to its nodes tile the buffers they are slices of exactly when no path brings the block of
a driven upsampler down to one sample. -/
theorem slices_whole_iff (made : bp.EdgesMade)
    (standard : ∀ nd ∈ bp.nodes, Lang.standardRegistry.Makes nd) (hB : isPowerOfTwo B = true)
    (built : instantiate (compile bp B) sr = some g) :
    g.SlicesWhole ↔ ∀ u v nd, (u, v) ∈ bp.edges → bp.nodes[v]? = some nd → nd.rateNum = 2 →
      ∀ d, bp.BlockDepth v d → 2 ^ d < B := by
  have W := made.wired
  have ratio : ∀ nd ∈ bp.nodes, Lang.Ratio nd :=
    fun nd hnd => Lang.standardRegistry_ratio (standard nd hnd)
  obtain ⟨ok, hsched⟩ := instantiate_eq_some built
  have acyclic := ((compile_ok_iff W).mp ok).1
  obtain ⟨rates, hlayout, settled, -⟩ := compile_of_ok W ok
  have hs := hsched.trans hlayout
  have hbp : g.sched.bp = bp := by rw [hs]; rfl
  have edge := fun {u v : Nat} (h : (u, v) ∈ bp.edges) (ch : Nat) =>
    edge_tiles_iff W acyclic ratio hB settled hs h ch
  have audioEdge : ∀ c ∈ bp.connections, (c.srcNode, c.dstNode) ∈ bp.edges := fun c hc =>
    GraphBlueprint.mem_edges.mpr (.inl ⟨c, hc, rfl⟩)
  have modEdge : ∀ c ∈ bp.paramConnections, (c.srcNode, c.dstNode) ∈ bp.edges := fun c hc =>
    GraphBlueprint.mem_edges.mpr (.inr ⟨c, hc, rfl⟩)
  have view : ∀ c ∈ bp.connections, (fun k => g.inView c.dstNode k c.dstInput)
      = fun k => g.edgeSlice c.srcNode c.srcOutput c.dstNode k :=
    fun c hc => funext fun k => GraphInstance.inView_eq_edgeSlice W hs hc k
  constructor
  · intro h u v nd he hnd hnum
    rcases GraphBlueprint.mem_edges.mp he with ⟨c, hc, hcv⟩ | ⟨c, hc, hcv⟩
    · obtain ⟨rfl, rfl⟩ := Prod.mk.inj hcv
      have tiles := h.audio c (hbp ▸ hc)
      rw [view c hc] at tiles
      exact (edge he c.srcOutput).mp tiles nd hnd hnum
    · obtain ⟨rfl, rfl⟩ := Prod.mk.inj hcv
      exact (edge he c.srcOutput).mp (h.modulation c (hbp ▸ hc)) nd hnd hnum
  · intro h
    exact
      { audio := by
          intro c hc
          rw [hbp] at hc
          rw [view c hc]
          exact (edge (audioEdge c hc) c.srcOutput).mpr fun nd hnd hnum =>
            h _ _ nd (audioEdge c hc) hnd hnum
        modulation := by
          intro c hc
          rw [hbp] at hc
          exact (edge (modEdge c hc) c.srcOutput).mpr fun nd hnd hnum =>
            h _ _ nd (modEdge c hc) hnd hnum
        port := by
          intro c hc k _
          obtain ⟨start, size, hslice, hbuffer⟩ :=
            GraphInstance.portView_buffer W hs (hbp ▸ hc) k
          rw [hbuffer, hslice]
          rfl
        output := by
          intro v hv ch _
          rw [hbp] at hv
          obtain ⟨nd, base, blk, -, -, of⟩ := assignedRate_eq_some.mp (settled v hv)
          have block : g.sched.nodeBlock.getD v 0 = (rates v).nodeBlock := by
            rw [hs]
            exact getD_map_range _ hv 0
          have calls : g.sched.calls.getD v 0 = (rates v).calls := by
            rw [hs]
            exact getD_map_range _ hv 0
          have rate : g.sched.regionRate.getD v 0 * g.blockSize = (rates v).regionRate * B := by
            rw [GraphInstance.blockSize, hs]
            exact congrArg (· * B) (getD_map_range _ hv 0)
          simp only [GraphInstance.outView, block]
          rw [calls, rate]
          exact (tiles_pool_iff of.calls_pos).mpr ⟨of.block_pos, of.calls⟩ }

end Whole

/-- A constant beside an upsampler, ... -/
noncomputable def constantBesideUp2 : GraphBlueprint ℝ where
  nodes := [Nodes.constant 1, Nodes.upsampler2]
  names := ["", ""]

/-- ... and into it. -/
noncomputable def constantIntoUp2 : GraphBlueprint ℝ :=
  { constantBesideUp2 with connections := [⟨0, 0, 1, 0⟩] }

theorem constantIntoUp2_made : constantIntoUp2.EdgesMade :=
  .connect (.bare rfl rfl) (rfl : constantBesideUp2.connect 0 0 1 0 = some constantIntoUp2)

theorem constantIntoUp2_standard : ∀ nd ∈ constantIntoUp2.nodes, Lang.standardRegistry.Makes nd := by
  intro nd hnd
  rcases List.mem_pair.mp hnd with rfl | rfl
  · exact ⟨"constant", {}, rfl⟩
  · exact ⟨"up2", {}, rfl⟩

theorem constantIntoUp2_whole : ∃ g, instantiate (compile constantIntoUp2 64) 48000 = some g ∧
    g.SlicesWhole := by
  refine ⟨_, rfl, (slices_whole_iff constantIntoUp2_made constantIntoUp2_standard (B := 64)
    (by decide) rfl).mpr ?_⟩
  have edges : ∀ {u v}, (u, v) ∈ constantIntoUp2.edges → u = 0 ∧ v = 1 := fun h =>
    Prod.mk.inj (List.mem_singleton.mp h)
  have first : ∀ d, constantIntoUp2.BlockDepth 0 d → d = 0 := by
    intro d h
    cases h with
    | source here free => exact Option.some.inj here ▸ rfl
    | step before edge here => exact absurd (edges edge).2 (by decide)
  intro u v nd edge here _ d h
  obtain ⟨rfl, rfl⟩ := edges edge
  cases h with
  | source here free => exact absurd edge (free 0)
  | @step u _ d nd before edge here =>
      obtain rfl := (edges edge).1
      obtain rfl := Option.some.inj here
      rw [first d before]
      decide

/-- A block of one sample: the upsampler is called twice on empty slices. -/
theorem constantIntoUp2_lost : isPowerOfTwo 1 = true ∧ constantIntoUp2.EdgesMade ∧
    (∀ nd ∈ constantIntoUp2.nodes, Lang.standardRegistry.Makes nd) ∧
      ∃ g, instantiate (compile constantIntoUp2 1) 48000 = some g ∧ ¬g.SlicesWhole := by
  refine ⟨by decide, constantIntoUp2_made, constantIntoUp2_standard, _, rfl, fun h => ?_⟩
  have nonempty := (h.audio ⟨0, 0, 1, 0⟩ List.mem_cons_self).nonempty 0 (by decide)
  exact absurd nonempty (by decide)

end Xrune
