import Xrune.Schedule.Rates
import Xrune.Nodes.Standard

/-!
# Schedule — what a compiled schedule promises

A schedule that is `ok` executes every node once, after its drivers; a node's region rate is
that of its drivers, times its own ratio, and its calls of `node_block` samples make up a cycle
(`CompiledSchedule.Sound`).  Where no node changes the rate or the block, a blueprint compiles
exactly when its graph is acyclic.
-/

namespace Xrune

variable {α : Type} {bp : GraphBlueprint α} {B : Nat}

/-- `blkExp` gives the nodes' block exponents, which the schedule holds as blocks of
`B * 2 ^ blkExp` samples. -/
structure CompiledSchedule.Sound (s : CompiledSchedule α) (bp : GraphBlueprint α) (B : Nat)
    (blkExp : Nat → Int) : Prop where
  perm : s.topoOrder.Perm (List.range bp.size)
  before : ∀ l₁ v l₂, s.topoOrder = l₁ ++ v :: l₂ → ∀ u, (u, v) ∈ bp.edges → u ∈ l₁
  power : ∀ v < bp.size, ∃ k, s.regionRate.getD v 0 = 2 ^ k
  agree : ∀ u u' v, (u, v) ∈ bp.edges → (u', v) ∈ bp.edges →
    s.regionRate.getD u 0 = s.regionRate.getD u' 0 ∧ blkExp u = blkExp u'
  driven : ∀ u v nd, (u, v) ∈ bp.edges → bp.nodes[v]? = some nd →
    s.regionRate.getD v 0 * nd.rateDen = s.regionRate.getD u 0 * nd.rateNum
  free : ∀ v nd, bp.nodes[v]? = some nd → (∀ u, (u, v) ∉ bp.edges) →
    s.regionRate.getD v 0 * nd.rateDen = 1 * nd.rateNum
  calls : ∀ v < bp.size, s.calls.getD v 0 * s.nodeBlock.getD v 0 = s.regionRate.getD v 0 * B ∧
    1 ≤ s.calls.getD v 0
  exponent : ∀ v < bp.size,
    s.nodeBlock.getD v 0 * 2 ^ (-blkExp v).toNat = B * 2 ^ (blkExp v).toNat

/-- A node that changes neither the rate nor the block. -/
structure Node.Unit (nd : Node α) : Prop where
  rateNum : nd.rateNum = 1
  rateDen : nd.rateDen = 1
  blockNum : nd.blockNum = 1
  blockDen : nd.blockDen = 1

theorem perCallBlock_eq_some {be : Int} {nb : Nat} :
    perCallBlock B be = some nb ↔ nb * 2 ^ (-be).toNat = B * 2 ^ be.toNat := by
  rw [perCallBlock]
  dsimp only
  split_ifs with hbe hmod
  · rw [show (-be).toNat = 0 by omega, pow_zero, mul_one]
    exact ⟨fun h => (Option.some.inj h).symm, fun h => congrArg some h.symm⟩
  · rw [show be.toNat = 0 by omega, pow_zero, mul_one]
    exact ⟨(nomatch ·), fun h => absurd (h ▸ Nat.mul_mod_left _ _) hmod⟩
  · rw [show be.toNat = 0 by omega, pow_zero, mul_one]
    constructor
    · intro h
      rw [← Option.some.inj h]
      exact Nat.div_mul_cancel (Nat.dvd_of_mod_eq_zero (not_not.mp hmod))
    · intro h
      rw [← h, Nat.mul_div_cancel _ (Nat.two_pow_pos _)]

theorem getD_map_range {β : Type} (f : Nat → β) {n v : Nat} (hv : v < n) (d : β) :
    ((List.range n).map f).getD v d = f v := by
  simp [hv]

theorem sum_range_le (size : Nat → Nat) {i j : Nat} (h : i < j) :
    ((List.range i).map size).sum + size i ≤ ((List.range j).map size).sum := by
  induction j with
  | zero => exact absurd h (Nat.not_lt_zero i)
  | succ j ih =>
      rw [List.range_succ, List.map_append, List.sum_append, List.map_singleton,
        List.sum_singleton]
      rcases Nat.lt_succ_iff_lt_or_eq.mp h with h | rfl
      · exact (ih h).trans (Nat.le_add_right _ _)
      · exact le_rfl

/-- A settled assignment has an equation for every node. -/
theorem Settled.of {rates : Rates} (settled : Settled bp B rates) {v : Nat} {nd : Node α}
    (hnd : bp.nodes[v]? = some nd) :
    ∃ base blk, DriversAgree bp rates v base blk ∧ NodeRate.Of nd B base blk (rates v) := by
  obtain ⟨hlt, -⟩ := List.getElem?_eq_some_iff.mp hnd
  obtain ⟨nd', base, blk, hnd', agree, of⟩ := assignedRate_eq_some.mp (settled v hlt)
  obtain rfl : nd = nd' := Option.some.inj (hnd.symm.trans hnd')
  exact ⟨base, blk, agree, of⟩

theorem Settled.sound {rates : Rates} (W : bp.Wired) (settled : Settled bp B rates)
    (hlen : (topoRun bp).topoOrder.length = bp.size) :
    (layout bp B (topoRun bp).topoOrder rates).Sound bp B fun v => (rates v).blkExp := by
  have D := topoRun_done W
  have rate : ∀ v < bp.size, ∀ d, ((List.range bp.size).map fun i => (rates i).regionRate).getD v d
      = (rates v).regionRate := fun v hv d => getD_map_range _ hv d
  have equation : ∀ v < bp.size, ∃ nd base blk, bp.nodes[v]? = some nd ∧
      DriversAgree bp rates v base blk ∧ NodeRate.Of nd B base blk (rates v) :=
    fun v hv => assignedRate_eq_some.mp (settled v hv)
  exact
    { perm := D.perm hlen
      before := D.preds
      power := by
        intro v hv
        obtain ⟨nd, base, blk, -, -, of⟩ := equation v hv
        simp only [layout, rate v hv]
        exact isPowerOfTwo_iff.mp of.power
      agree := by
        intro u u' v hu hu'
        obtain ⟨nd, base, blk, -, agree, -⟩ := equation v (W.edges_lt _ hu).2
        simp only [layout, rate u (W.edges_lt _ hu).1, rate u' (W.edges_lt _ hu').1]
        exact ⟨(agree.driven u hu).1.trans (agree.driven u' hu').1.symm,
          (agree.driven u hu).2.trans (agree.driven u' hu').2.symm⟩
      driven := by
        intro u v nd hu hnd
        obtain ⟨base, blk, agree, of⟩ := settled.of hnd
        simp only [layout, rate u (W.edges_lt _ hu).1, rate v (W.edges_lt _ hu).2]
        rw [of.rate, (agree.driven u hu).1]
      free := by
        intro v nd hnd none
        obtain ⟨base, blk, agree, of⟩ := settled.of hnd
        simp only [layout, rate v (List.getElem?_eq_some_iff.mp hnd).1]
        rw [of.rate, (agree.free none).1]
      calls := by
        intro v hv
        obtain ⟨nd, base, blk, -, -, of⟩ := equation v hv
        simp only [layout, getD_map_range _ hv]
        exact ⟨of.calls, of.calls_pos⟩
      exponent := by
        intro v hv
        obtain ⟨nd, base, blk, -, -, of⟩ := equation v hv
        simp only [layout, getD_map_range _ hv]
        exact perCallBlock_eq_some.mp of.block }

/-- The assignment of a blueprint that changes no rate and no block. -/
theorem settled_unit (hB : isPowerOfTwo B = true)
    (unit : ∀ nd ∈ bp.nodes, nd.Unit) : Settled bp B fun _ => ⟨1, B, 1, 0⟩ := by
  intro v hv
  have hnd : bp.nodes[v]? = some bp.nodes[v] := List.getElem?_eq_getElem hv
  obtain ⟨h₁, h₂, h₃, h₄⟩ := unit _ (List.getElem_mem hv)
  refine assignedRate_eq_some.mpr ⟨bp.nodes[v], 1, 0, hnd,
    ⟨fun u hu => ⟨rfl, rfl⟩, fun none => ⟨rfl, rfl⟩⟩, ?_⟩
  exact
    { den := by simp [h₂]
      rate := by simp [h₁, h₂]
      power := isPowerOfTwo_iff.mpr ⟨0, rfl⟩
      delta := by simp [Node.blockDelta, h₃, h₄]
      block := perCallBlock_eq_some.mpr rfl
      block_pos := isPowerOfTwo.pos hB
      calls := rfl
      calls_pos := le_rfl }

/-- A constant beside a gain, ... -/
def constantBesideGain : GraphBlueprint ℚ where
  nodes := [Nodes.constant 1, Nodes.gain 1]
  names := ["", ""]

/-- ... and into it. -/
def constantIntoGain : GraphBlueprint ℚ :=
  { constantBesideGain with connections := [⟨0, 0, 1, 0⟩] }

theorem constantIntoGain_made : constantIntoGain.EdgesMade :=
  .connect (.bare rfl rfl) (rfl : constantBesideGain.connect 0 0 1 0 = some constantIntoGain)

end Xrune
