import Xrune.Support.Dataflow
import Xrune.Schedule.Topology

/-!
# Schedule — rates

Along a topological order the propagation computes the one assignment of rates in which every
node's rate is the one `compile` derives from the rates of its drivers (`Settled`).  A blueprint
therefore compiles exactly when its graph is acyclic and such an assignment exists
(`compile_ok_iff`), and what a compiled schedule says of rates, blocks and calls is read off the
node's own equation (`NodeRate.Of`).
-/

namespace Xrune

variable {α : Type} {bp : GraphBlueprint α} {B : Nat} {nd : Node α}

/-! ### One node -/

/-- The rate `r` is what `compile` derives for a node over drivers of rate `base` and block
exponent `blk`. -/
structure NodeRate.Of (nd : Node α) (B base : Nat) (blk : Int) (r : NodeRate) : Prop where
  den : nd.rateDen ≠ 0
  rate : r.regionRate * nd.rateDen = base * nd.rateNum
  power : isPowerOfTwo r.regionRate = true
  delta : nd.blockDelta = some (r.blkExp - blk)
  block : perCallBlock B r.blkExp = some r.nodeBlock
  block_pos : 0 < r.nodeBlock
  calls : r.calls * r.nodeBlock = r.regionRate * B
  calls_pos : 1 ≤ r.calls

theorem nodeRate_eq_some {base : Nat} {blk : Int} {r : NodeRate} :
    nodeRate nd B base blk = some r ↔ NodeRate.Of nd B base blk r := by
  constructor
  · intro h
    rw [nodeRate] at h
    dsimp only at h
    split_ifs at h with hden hpow
    obtain ⟨delta, hdelta, h⟩ := Option.bind_eq_some_iff.mp h
    obtain ⟨nb, hnb, h⟩ := Option.bind_eq_some_iff.mp h
    split_ifs at h with h0 hmod hC
    obtain rfl := Option.some.inj h
    have hden := not_or.mp hden
    exact
      { den := hden.1
        rate := Nat.div_mul_cancel (Nat.dvd_of_mod_eq_zero (not_not.mp hden.2))
        power := by simpa using hpow
        delta := by rw [hdelta, add_sub_cancel_left]
        block := hnb
        block_pos := Nat.pos_of_ne_zero h0
        calls := Nat.div_mul_cancel (Nat.dvd_of_mod_eq_zero (not_not.mp hmod))
        calls_pos := Nat.one_le_iff_ne_zero.mpr hC }
  · intro h
    have hpos : 0 < nd.rateDen := Nat.pos_of_ne_zero h.den
    have hmod : (base * nd.rateNum) % nd.rateDen = 0 := h.rate ▸ Nat.mul_mod_left _ _
    have hR : (base * nd.rateNum) / nd.rateDen = r.regionRate := by
      rw [← h.rate, Nat.mul_div_cancel _ hpos]
    have hT : (r.regionRate * B) % r.nodeBlock = 0 := h.calls ▸ Nat.mul_mod_left _ _
    have hC : (r.regionRate * B) / r.nodeBlock = r.calls := by
      rw [← h.calls, Nat.mul_div_cancel _ h.block_pos]
    have hbe : blk + (r.blkExp - blk) = r.blkExp := by omega
    have hb := h.block_pos
    have hc := h.calls_pos
    rw [nodeRate, if_neg (by simp [h.den, hmod])]
    simp only [hR, h.power, h.delta, Option.bind_some, hbe, h.block, hT, hC]
    rw [if_neg (by simp), if_neg (by omega), if_neg (by simp), if_neg (by omega)]

/-! ### The drivers of a node -/

theorem DriverRate.foldl_consider {p : Nat × Int} (l : List NodeRate) (d : DriverRate)
    (hd : d.seen = some p) :
    (l.foldl consider d).seen = some p ∧
      ((l.foldl consider d).consistent = true ↔
        d.consistent = true ∧ ∀ r ∈ l, r.regionRate = p.1 ∧ r.blkExp = p.2) := by
  induction l generalizing d with
  | nil => simp [hd]
  | cons r l ih =>
      obtain ⟨seen, c⟩ := d
      obtain rfl : seen = some p := hd
      rw [List.foldl_cons, consider]
      by_cases hr : r.regionRate ≠ p.1 ∨ r.blkExp ≠ p.2
      · obtain ⟨h₁, h₂⟩ := ih ⟨some p, false⟩ rfl
        simp only [if_pos hr]
        refine ⟨h₁, h₂.trans ?_⟩
        have differs : ¬(r.regionRate = p.1 ∧ r.blkExp = p.2) := by tauto
        simp [differs]
      · obtain ⟨h₁, h₂⟩ := ih ⟨some p, c⟩ rfl
        simp only [if_neg hr]
        refine ⟨h₁, h₂.trans ?_⟩
        have same : r.regionRate = p.1 ∧ r.blkExp = p.2 := by tauto
        simp [same]

theorem GraphBlueprint.mem_drivers {u v : Nat} : u ∈ bp.drivers v ↔ (u, v) ∈ bp.edges := by
  simp [drivers]

/-- The drivers of `v` all have the rate `base` and the exponent `blk`, which without any
driver are 1 and 0. -/
structure DriversAgree (bp : GraphBlueprint α) (rates : Rates) (v base : Nat) (blk : Int) :
    Prop where
  driven : ∀ u, (u, v) ∈ bp.edges → (rates u).regionRate = base ∧ (rates u).blkExp = blk
  free : (∀ u, (u, v) ∉ bp.edges) → base = 1 ∧ blk = 0

theorem driverRate_eq_iff {rates : Rates} {v base : Nat} {blk : Int} :
    ((driverRate bp rates v).consistent = true ∧
        (driverRate bp rates v).seen.getD (1, 0) = (base, blk)) ↔
      DriversAgree bp rates v base blk := by
  have mem : ∀ u, u ∈ bp.drivers v ↔ (u, v) ∈ bp.edges := fun _ => GraphBlueprint.mem_drivers
  have fold : driverRate bp rates v = ((bp.drivers v).map rates).foldl DriverRate.consider {} := by
    rw [driverRate, List.foldl_map]
  rw [fold]
  cases hl : bp.drivers v with
  | nil =>
      rw [hl] at mem
      have none : ∀ u, (u, v) ∉ bp.edges := fun u h => nomatch (mem u).mpr h
      constructor
      · rintro ⟨-, h⟩
        obtain ⟨rfl, rfl⟩ := Prod.mk.inj h
        exact ⟨fun u hu => absurd hu (none u), fun _ => ⟨rfl, rfl⟩⟩
      · intro h
        obtain ⟨rfl, rfl⟩ := h.free none
        exact ⟨rfl, rfl⟩
  | cons w l =>
      rw [hl] at mem
      rw [List.map_cons, List.foldl_cons]
      obtain ⟨h₁, h₂⟩ := DriverRate.foldl_consider (l.map rates)
        (DriverRate.consider {} (rates w)) (p := ((rates w).regionRate, (rates w).blkExp)) rfl
      rw [h₁, h₂, Option.getD_some]
      constructor
      · rintro ⟨⟨-, same⟩, h⟩
        obtain ⟨rfl, rfl⟩ := Prod.mk.inj h
        refine ⟨fun u hu => ?_, fun none => absurd ((mem w).mp List.mem_cons_self) (none w)⟩
        rcases List.mem_cons.mp ((mem u).mpr hu) with rfl | hu
        · exact ⟨rfl, rfl⟩
        · exact same _ (List.mem_map_of_mem hu)
      · intro h
        obtain ⟨hw, hw'⟩ := h.driven w ((mem w).mp List.mem_cons_self)
        refine ⟨⟨rfl, fun r hr => ?_⟩, by rw [hw, hw']⟩
        obtain ⟨u, hu, rfl⟩ := List.mem_map.mp hr
        rw [hw, hw']
        exact h.driven u ((mem u).mp (List.mem_cons_of_mem w hu))

theorem assignedRate_eq_some {rates : Rates} {v : Nat} {r : NodeRate} :
    assignedRate bp B v rates = some r ↔
      ∃ nd base blk, bp.nodes[v]? = some nd ∧ DriversAgree bp rates v base blk ∧
        NodeRate.Of nd B base blk r := by
  constructor
  · intro h
    rw [assignedRate] at h
    split_ifs at h with hc
    obtain ⟨nd, hnd, h⟩ := Option.bind_eq_some_iff.mp h
    exact ⟨nd, _, _, hnd, driverRate_eq_iff.mp ⟨by simpa using hc, rfl⟩, nodeRate_eq_some.mp h⟩
  · rintro ⟨nd, base, blk, hnd, agree, h⟩
    obtain ⟨hc, hs⟩ := driverRate_eq_iff.mpr agree
    rw [assignedRate, if_neg (by simp [hc]), hs, hnd]
    exact nodeRate_eq_some.mpr h

/-- The rate of a node depends on the rates of its drivers. -/
theorem assignedRate_congr {rates rates' : Rates} {v : Nat}
    (h : ∀ u ∈ {u | (u, v) ∈ bp.edges}, rates u = rates' u) :
    assignedRate bp B v rates = assignedRate bp B v rates' := by
  have same : driverRate bp rates v = driverRate bp rates' v :=
    List.foldl_ext _ _ _ fun d u hu => by rw [h u (GraphBlueprint.mem_drivers.mp hu)]
  rw [assignedRate, assignedRate, same]

/-! ### The whole blueprint -/

/-- Every node's rate is the one derived from the rates of its drivers. -/
def Settled (bp : GraphBlueprint α) (B : Nat) (rates : Rates) : Prop :=
  ∀ v < bp.size, assignedRate bp B v rates = some (rates v)

/-- **What a compiled schedule is**: the layout of a settled assignment, in a topological
order. -/
theorem compile_of_ok (W : bp.Wired) (ok : (compile bp B).ok = true) :
    ∃ rates, compile bp B = layout bp B (topoRun bp).topoOrder rates ∧ Settled bp B rates ∧
      (topoRun bp).topoOrder.length = bp.size := by
  rw [compile] at ok ⊢
  split_ifs at ok ⊢ with hlen
  · exact absurd ok Bool.false_ne_true
  · have D := topoRun_done W
    have perm := D.perm (not_not.mp hlen)
    cases hp : propagate bp B (topoRun bp).topoOrder with
    | none =>
        rw [hp] at ok
        exact absurd ok Bool.false_ne_true
    | some rates =>
        have settled := foldlM_settled (F := assignedRate bp B)
          (R := fun v => {u | (u, v) ∈ bp.edges}) (fun v s s' h => assignedRate_congr h) D.nodup
          D.preds hp
        exact ⟨rates, rfl, fun v hv => settled v (perm.mem_iff.mpr (List.mem_range.mpr hv)),
          not_not.mp hlen⟩

/-- An acyclic blueprint with a settled assignment compiles to its layout. -/
theorem compile_of_settled (W : bp.Wired) (acyclic : Acyclic bp.edges) {rates : Rates}
    (settled : Settled bp B rates) :
    ∃ rates', compile bp B = layout bp B (topoRun bp).topoOrder rates' ∧
      ∀ v < bp.size, rates' v = rates v := by
  have D := topoRun_done W
  have hlen := (D.length_eq_iff W).mpr acyclic
  obtain ⟨rates', run, h⟩ := foldlM_of_settled (F := assignedRate bp B)
    (R := fun v => {u | (u, v) ∈ bp.edges}) (fun v s s' h => assignedRate_congr h) D.preds
    (fun v hv => settled v (D.mem v hv)) fun _ => ⟨1, B, 1, 0⟩
  have hp : propagate bp B (topoRun bp).topoOrder = some rates' := run
  refine ⟨rates', ?_, fun v hv => h v (D.all acyclic v hv)⟩
  rw [compile, if_neg (not_not.mpr hlen), hp]

/-- **A blueprint compiles exactly when it is acyclic and its rates can be settled.** -/
theorem compile_ok_iff (W : bp.Wired) :
    (compile bp B).ok = true ↔ Acyclic bp.edges ∧ ∃ rates, Settled bp B rates := by
  constructor
  · intro ok
    obtain ⟨rates, -, settled, hlen⟩ := compile_of_ok W ok
    exact ⟨((topoRun_done W).length_eq_iff W).mp hlen, rates, settled⟩
  · rintro ⟨acyclic, rates, settled⟩
    obtain ⟨rates', h, -⟩ := compile_of_settled W acyclic settled
    rw [h]
    rfl

end Xrune
