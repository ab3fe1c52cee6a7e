import Xrune.Support.Glide
import Xrune.Schedule.AnyOrder
import Xrune.Schedule.Sound

/-!
# Schedule — control ports

What a control-rate port reads.  Each port has a control slot of its own (`HasSlots`), so the
slot follows the writes to its port and the calls of its node, and nothing else.  Seen so, an
instance's port is a glide whose legs are the calls' ramps (`glide_perform`, `reads_eq_legs`),
and what is proved of glides holds of it (`ramps_click_free`).
-/

namespace Xrune

variable {α : Type}

/-! ### Slots -/

namespace CompiledSchedule

/-- The control slot of node `i`'s port `p`. -/
def slot (s : CompiledSchedule α) (i p : Nat) : Nat := s.paramBase.getD i 0 + p

/-- The port exists and nothing is connected to it. -/
structure ControlRate (s : CompiledSchedule α) (i p : Nat) : Prop where
  port : p < s.bp.paramsOf i
  free : (s.paramSource.getD i []).getD p none = none

/-- Each port has a slot, and a slot of its own. -/
structure HasSlots (s : CompiledSchedule α) : Prop where
  lt : ∀ i p, p < s.bp.paramsOf i → s.slot i p < s.totalParams
  inj : ∀ i p j q, p < s.bp.paramsOf i → q < s.bp.paramsOf j → s.slot i p = s.slot j q →
    i = j ∧ p = q

/-- A cycle runs every node, at least once and on a block that is not empty. -/
structure RunsAll (s : CompiledSchedule α) : Prop where
  order : s.topoOrder.Perm (List.range s.bp.size)
  calls : ∀ i < s.bp.size, 0 < s.calls.getD i 0
  block : ∀ i < s.bp.size, 0 < s.nodeBlock.getD i 0

end CompiledSchedule

theorem GraphBlueprint.lt_size_of_port {bp : GraphBlueprint α} {i p : Nat}
    (h : p < bp.paramsOf i) : i < bp.size := by
  by_contra hi
  rw [paramsOf, List.getElem?_eq_none (Nat.le_of_not_lt hi)] at h
  exact absurd h (Nat.not_lt_zero p)

theorem GraphBlueprint.paramsOf_eq {bp : GraphBlueprint α} {i : Nat} {nd : Node α}
    (h : bp.nodes[i]? = some nd) : bp.paramsOf i = nd.paramsCount := by
  rw [paramsOf, h]
  rfl

theorem hasSlots_layout {bp : GraphBlueprint α} {B : Nat} {order : List Nat} {rates : Rates} :
    (layout bp B order rates).HasSlots where
  lt := by
    intro i p hp
    have hi : i < bp.size := GraphBlueprint.lt_size_of_port hp
    have base : (offsets bp.paramsOf bp.size).getD i 0 = ((List.range i).map bp.paramsOf).sum :=
      getD_map_range _ hi 0
    have room := sum_range_le bp.paramsOf hi
    show (offsets bp.paramsOf bp.size).getD i 0 + p < ((List.range bp.size).map bp.paramsOf).sum
    have hp : p < bp.paramsOf i := hp
    omega
  inj := by
    intro i p j q hp hq same
    by_cases ne : i = j
    · subst ne
      exact ⟨rfl, Nat.add_left_cancel same⟩
    · have hi : i < bp.size := GraphBlueprint.lt_size_of_port hp
      have hj : j < bp.size := GraphBlueprint.lt_size_of_port hq
      have apart := Set.disjoint_left.mp (disjoint_offsets bp.paramsOf hi hj ne)
        ⟨Nat.le_add_right .., Nat.add_lt_add_left hp _⟩
      have same : (offsets bp.paramsOf bp.size).getD i 0 + p
          = (offsets bp.paramsOf bp.size).getD j 0 + q := same
      have hq : q < bp.paramsOf j := hq
      exact absurd ⟨by omega, by omega⟩ apart

theorem Settled.runsAll {bp : GraphBlueprint α} {B : Nat} {rates : Rates} (W : bp.Wired)
    (settled : Settled bp B rates) (hlen : (topoRun bp).topoOrder.length = bp.size) :
    (layout bp B (topoRun bp).topoOrder rates).RunsAll where
  order := (topoRun_done W).perm hlen
  calls := by
    intro i hi
    have hi : i < bp.size := hi
    obtain ⟨base, blk, -, of⟩ := settled.of (List.getElem?_eq_getElem hi)
    show 0 < ((List.range bp.size).map fun i => (rates i).calls).getD i 0
    rw [getD_map_range _ hi]
    exact of.calls_pos
  block := by
    intro i hi
    have hi : i < bp.size := hi
    obtain ⟨base, blk, -, of⟩ := settled.of (List.getElem?_eq_getElem hi)
    show 0 < ((List.range bp.size).map fun i => (rates i).nodeBlock).getD i 0
    rw [getD_map_range _ hi]
    exact of.block_pos

/-! ### A port as a glide -/

/-- The ramp `update_control_ramps` hands to a call of `nb` samples. -/
def Glide.ramp [Sample α] (c : Glide α) (nb : Nat) : ParamView α :=
  ⟨none, c.current, (c.aim - c.current) * (if nb ≠ 0 then 1 / Sample.cast nb else 0)⟩

theorem Glide.ramp_get {K : Type} [Field K] [LinearOrder K] [FloorRing K] (c : Glide K)
    (nb j : Nat) : (c.ramp nb).get j = line c.current c.aim nb j := by
  show c.current + (c.aim - c.current) * (if nb ≠ 0 then 1 / (nb : K) else 0) * (j : K) = _
  rw [line]
  split_ifs with h
  · rfl
  · rw [not_not.mp h, Nat.cast_zero, div_zero]

namespace GraphInstance

variable [Sample α] {g : GraphInstance α} {i p v k : Nat}

/-- The state of node `i`'s port `p`. -/
def glide (g : GraphInstance α) (i p : Nat) : Glide α :=
  let c := g.controls.getD (g.sched.slot i p) ⟨0, 0⟩
  ⟨c.current, c.target⟩

theorem portView_eq_ramp (h : g.sched.ControlRate i p) (k : Nat) :
    g.portView i k p = (g.glide i p).ramp (g.sched.nodeBlock.getD i 0) := by
  simp only [portView, h.free]
  rfl

/-- What calls of node `i` are handed for its port `p`. -/
def nodeReads (i p : Nat) : GraphInstance α → List Nat → List (ParamView α)
  | _, []      => []
  | g, k :: ks => g.portView i k p :: nodeReads i p (g.runCall i k) ks

/-- What node `i` is handed for its port `p` when these nodes are executed. -/
def readsIn (i p : Nat) : GraphInstance α → List Nat → List (ParamView α)
  | _, []         => []
  | g, v :: order =>
      (if v = i then nodeReads i p g (List.range (g.sched.calls.getD i 0)) else [])
        ++ readsIn i p (g.runNode v) order

/-- What node `i`'s calls are handed for its port `p` in a cycle. -/
def reads (g : GraphInstance α) (i p : Nat) : List (ParamView α) :=
  readsIn i p g g.sched.topoOrder

/-! ### What a call does to the controls -/

theorem writeView_keeps (g : GraphInstance α) (view : BufferView) (xs : List α) :
    (g.writeView view xs).sched = g.sched ∧ (g.writeView view xs).controls = g.controls := by
  cases view with
  | silent size => exact ⟨rfl, rfl⟩
  | pool start size =>
      let turn (g : GraphInstance α) (i : Nat) := g.write (.pool start size) i (xs.getD i 0)
      exact ⟨foldl_keeps (f := turn) sched (fun _ _ => rfl) _ g,
        foldl_keeps (f := turn) controls (fun _ _ => rfl) _ g⟩

/-- A call settles the controls of its node, and touches no others. -/
theorem runCall_controls (g : GraphInstance α) {nd : Node α} (here : g.sched.bp.nodes[v]? = some nd)
    (k : Nat) : (g.runCall v k).sched = g.sched ∧
      (g.runCall v k).controls = (g.settleControls v nd.paramsCount).controls := by
  rw [runCall_eq g here, putResult]
  exact ⟨foldl_keeps sched (fun g c => (writeView_keeps g _ _).1) _ _,
    foldl_keeps controls (fun g c => (writeView_keeps g _ _).2) _ _⟩

@[simp] theorem runCall_sched (g : GraphInstance α) (v k : Nat) :
    (g.runCall v k).sched = g.sched := by
  cases here : g.sched.bp.nodes[v]? with
  | none => rw [runCall, here]
  | some nd => exact (runCall_controls g here k).1

@[simp] theorem runNode_sched (g : GraphInstance α) (v : Nat) : (g.runNode v).sched = g.sched :=
  foldl_keeps sched (fun g k => runCall_sched g v k) _ g

@[simp] theorem process_sched (g : GraphInstance α) : g.process.sched = g.sched :=
  foldl_keeps sched runNode_sched _ g

omit [Sample α] in
/-- The controls after some of the ports at `base` have arrived. -/
theorem getElem?_settled (source : Nat → SrcRef) (base : Nat) (l : List Nat)
    (cs : List (PortControl α)) (j : Nat) :
    (l.foldl (fun cs p => match source p with
        | some _ => cs
        | none   => cs.modify (base + p) fun c => ⟨c.target, c.target⟩) cs)[j]?
      = if ∃ p ∈ l, source p = none ∧ base + p = j then
          cs[j]?.map fun c => ⟨c.target, c.target⟩
        else cs[j]? := by
  induction l generalizing cs with
  | nil => simp
  | cons p l ih =>
      rw [List.foldl_cons, ih]
      cases hp : source p with
      | some src => simp [hp]
      | none =>
          by_cases e : base + p = j
          · subst e
            have here : ∃ q ∈ p :: l, source q = none ∧ base + q = base + p :=
              ⟨p, List.mem_cons_self, hp, rfl⟩
            rw [if_pos here, List.getElem?_modify_eq]
            -- a port that has arrived stays where it is
            split_ifs
            · cases cs[base + p]? <;> rfl
            · rfl
          · simp only [List.getElem?_modify_ne _ _ e, List.mem_cons, exists_eq_or_imp, e,
              and_false, false_or]

theorem runCall_glide (slots : g.sched.HasSlots) (rate : g.sched.ControlRate i p) (v k : Nat) :
    (g.runCall v k).glide i p = if v = i then (g.glide i p).after .leg else g.glide i p := by
  cases here : g.sched.bp.nodes[v]? with
  | none =>
      have ne : v ≠ i := by
        rintro rfl
        have := GraphBlueprint.lt_size_of_port rate.port
        rw [List.getElem?_eq_getElem this] at here
        cases here
      rw [runCall, here, if_neg ne]
  | some nd =>
      obtain ⟨hs, hc⟩ := runCall_controls g here k
      have settled := getElem?_settled (fun p => (g.sched.paramSource.getD v []).getD p none)
        (g.sched.paramBase.getD v 0) (List.range nd.paramsCount) g.controls (g.sched.slot i p)
      have look : (g.runCall v k).controls[g.sched.slot i p]?
          = if v = i then g.controls[g.sched.slot i p]?.map fun c => ⟨c.target, c.target⟩
            else g.controls[g.sched.slot i p]? := by
        rw [hc]
        refine settled.trans (if_congr ?_ rfl rfl)
        constructor
        · rintro ⟨q, hq, -, same⟩
          refine (slots.inj v q i p ?_ rate.port same).1
          rw [GraphBlueprint.paramsOf_eq here]
          exact List.mem_range.mp hq
        · rintro rfl
          refine ⟨p, List.mem_range.mpr ?_, rate.free, rfl⟩
          rw [← GraphBlueprint.paramsOf_eq here]
          exact rate.port
      rw [glide, hs, List.getD_eq_getElem?_getD, look]
      split_ifs with e
      · rw [glide, List.getD_eq_getElem?_getD]
        cases g.controls[g.sched.slot i p]? <;> rfl
      · rw [glide, List.getD_eq_getElem?_getD]

/-! ### What a cycle does to a port -/

/-- A port through some calls of its node. -/
theorem calls_glide (slots : g.sched.HasSlots) (rate : g.sched.ControlRate i p) (ks : List Nat) :
    nodeReads i p g ks = ((g.glide i p).legs (List.replicate ks.length .leg)).map
        (Glide.ramp · (g.sched.nodeBlock.getD i 0)) ∧
      (ks.foldl (fun g k => g.runCall i k) g).glide i p
        = (List.replicate ks.length .leg).foldl Glide.after (g.glide i p) := by
  induction ks generalizing g with
  | nil => exact ⟨rfl, rfl⟩
  | cons k ks ih =>
      have hs := runCall_sched g i k
      have next := runCall_glide slots rate i k
      rw [if_pos rfl] at next
      obtain ⟨reads, state⟩ := ih (hs.symm ▸ slots) (hs.symm ▸ rate)
      rw [next, hs] at reads
      rw [next] at state
      refine ⟨?_, state⟩
      rw [nodeReads, reads, portView_eq_ramp rate k]
      rfl

/-- Another node's calls leave the port. -/
theorem runNode_glide_of_ne (slots : g.sched.HasSlots) (rate : g.sched.ControlRate i p)
    (ne : v ≠ i) : (g.runNode v).glide i p = g.glide i p := by
  rw [runNode]
  generalize List.range (g.sched.calls.getD v 0) = ks
  induction ks generalizing g with
  | nil => rfl
  | cons k ks ih =>
      have hs := runCall_sched g v k
      have next := runCall_glide slots rate v k
      rw [if_neg ne] at next
      exact (ih (hs.symm ▸ slots) (hs.symm ▸ rate)).trans next

/-- A port through the execution of some nodes, its own among them or not. -/
theorem processIn_glide (slots : g.sched.HasSlots) (rate : g.sched.ControlRate i p)
    {order : List Nat} (nodup : order.Nodup) :
    let legs := if i ∈ order then List.replicate (g.sched.calls.getD i 0) .leg else []
    readsIn i p g order
        = ((g.glide i p).legs legs).map (Glide.ramp · (g.sched.nodeBlock.getD i 0)) ∧
      (g.processIn order).glide i p = legs.foldl Glide.after (g.glide i p) := by
  induction order generalizing g with
  | nil => exact ⟨rfl, rfl⟩
  | cons v order ih =>
      obtain ⟨fresh, nodup⟩ := List.nodup_cons.mp nodup
      have hs := runNode_sched g v
      obtain ⟨reads, state⟩ := ih (hs.symm ▸ slots) (hs.symm ▸ rate) nodup
      rw [hs] at reads state
      by_cases e : v = i
      · subst e
        obtain ⟨own, after⟩ := calls_glide slots rate (List.range (g.sched.calls.getD v 0))
        rw [List.length_range] at own after
        simp only [if_neg fresh] at reads state
        simp only [List.mem_cons, true_or, if_true]
        refine ⟨?_, state.trans after⟩
        rw [readsIn, if_pos rfl, own, reads]
        exact List.append_nil _
      · rw [runNode_glide_of_ne slots rate e] at reads state
        have mem : i ∈ v :: order ↔ i ∈ order := by
          rw [List.mem_cons]
          exact or_iff_right (Ne.symm e)
        simp only [mem]
        refine ⟨?_, state⟩
        rw [readsIn, if_neg e, reads]
        rfl

/-- A port through a cycle. -/
theorem process_glide (slots : g.sched.HasSlots) (all : g.sched.RunsAll)
    (rate : g.sched.ControlRate i p) :
    g.reads i p = ((g.glide i p).legs (List.replicate (g.sched.calls.getD i 0) .leg)).map
        (Glide.ramp · (g.sched.nodeBlock.getD i 0)) ∧
      g.process.glide i p
        = (List.replicate (g.sched.calls.getD i 0) .leg).foldl Glide.after (g.glide i p) := by
  have nodup : g.sched.topoOrder.Nodup := all.order.nodup_iff.mpr List.nodup_range
  have mem : i ∈ g.sched.topoOrder :=
    all.order.mem_iff.mpr (List.mem_range.mpr (GraphBlueprint.lt_size_of_port rate.port))
  have whole := processIn_glide slots rate nodup
  simp only [if_pos mem] at whole
  exact whole

/-! ### The operations on an instance's ports -/

end GraphInstance

/-- What is done to an instance: `init_parameter`, `set_parameter` and `process`. -/
inductive ControlOp (α : Type) where
  | init (node param : Nat) (value : α)
  | set (node param : Nat) (value : α)
  | process

namespace ControlOp

/-- What the operation is to port `p` of node `i`, which is `nd` and is called `calls` times. -/
def events [Sample α] (nd : Node α) (calls i p : Nat) : ControlOp α → List (GlideEvent α)
  | .init n q x => if n = i ∧ q = p then [.jump (GraphInstance.clampTo nd p x)] else []
  | .set n q x  => if n = i ∧ q = p then [.aim (GraphInstance.clampTo nd p x)] else []
  | .process    => List.replicate calls .leg

end ControlOp

namespace GraphInstance

variable [Sample α] {g : GraphInstance α} {i p : Nat}

def perform (g : GraphInstance α) : ControlOp α → GraphInstance α
  | .init n q x => g.initParameter n q x
  | .set n q x  => g.setParameter n q x
  | .process    => g.process

/-- What node `i`'s calls are handed for its port `p` during an operation. -/
def readsDuring (g : GraphInstance α) (i p : Nat) : ControlOp α → List (ParamView α)
  | .process => g.reads i p
  | _        => []

/-- What node `i`'s calls are handed for its port `p` while the operations are performed. -/
def readsOf (i p : Nat) : GraphInstance α → List (ControlOp α) → List (ParamView α)
  | _, []        => []
  | g, op :: ops => g.readsDuring i p op ++ readsOf i p (g.perform op) ops

/-- An instance whose control slots are those of its schedule. -/
structure Ready (g : GraphInstance α) : Prop where
  slots : g.sched.HasSlots
  all : g.sched.RunsAll
  length : g.controls.length = g.sched.totalParams

omit [Sample α] in
theorem controlSlot_eq_some {nd : Node α} {n q slot : Nat} :
    g.controlSlot n q = some (nd, slot) ↔
      g.sched.bp.nodes[n]? = some nd ∧ q < nd.paramsCount ∧ slot = g.sched.slot n q := by
  rw [controlSlot]
  cases g.sched.bp.nodes[n]? with
  | none => simp
  | some nd' =>
      dsimp only
      split_ifs with h
      · constructor
        · exact (nomatch ·)
        · rintro ⟨hn, hq, -⟩
          obtain rfl := Option.some.inj hn
          omega
      · simp only [Option.some.injEq, Prod.mk.injEq, CompiledSchedule.slot]
        constructor
        · rintro ⟨rfl, rfl⟩
          exact ⟨rfl, by omega, rfl⟩
        · rintro ⟨rfl, -, rfl⟩
          exact ⟨rfl, rfl⟩

/-- A write to a control slot changes that port and no other. -/
theorem modify_glide (R : g.Ready) {n q : Nat} (f : PortControl α → PortControl α)
    (there : q < g.sched.bp.paramsOf n) (port : p < g.sched.bp.paramsOf i) :
    ({ g with controls := g.controls.modify (g.sched.slot n q) f } : GraphInstance α).glide i p
      = if n = i ∧ q = p then
          let c := f ⟨(g.glide i p).current, (g.glide i p).aim⟩
          ⟨c.current, c.target⟩
        else g.glide i p := by
  have hlt := R.length.symm ▸ R.slots.lt i p port
  simp only [glide, List.getD_eq_getElem?_getD, List.getElem?_modify]
  split_ifs with same here here
  · rw [List.getElem?_eq_getElem hlt]
    rfl
  · exact absurd (R.slots.inj n q i p there port same) here
  · exact absurd (by rw [here.1, here.2]) same
  · simp

/-- What `init_parameter` and `set_parameter` do: `f` at the slot they address. -/
def writeControl (g : GraphInstance α) (n q : Nat)
    (f : Node α → PortControl α → PortControl α) : GraphInstance α :=
  match g.controlSlot n q with
  | none            => g
  | some (nd, slot) => { g with controls := g.controls.modify slot (f nd) }

theorem writeControl_glide (R : g.Ready) {nd : Node α} (node : g.sched.bp.nodes[i]? = some nd)
    (port : p < g.sched.bp.paramsOf i) (n q : Nat) (f : Node α → PortControl α → PortControl α) :
    (g.writeControl n q f).glide i p
      = if n = i ∧ q = p then
          let c := f nd ⟨(g.glide i p).current, (g.glide i p).aim⟩
          ⟨c.current, c.target⟩
        else g.glide i p := by
  rw [writeControl]
  split
  next none =>
    have elsewhere : ¬(n = i ∧ q = p) := by
      rintro ⟨rfl, rfl⟩
      rw [GraphBlueprint.paramsOf_eq node] at port
      have some := controlSlot_eq_some.mpr ⟨node, port, rfl⟩
      rw [none] at some
      cases some
    rw [if_neg elsewhere]
  next nd' slot here =>
    obtain ⟨there, lt, rfl⟩ := controlSlot_eq_some.mp here
    rw [← GraphBlueprint.paramsOf_eq there] at lt
    rw [modify_glide R (f nd') lt port]
    split_ifs with e
    · obtain rfl : nd = nd' := Option.some.inj ((e.1 ▸ node).symm.trans there)
      rfl
    · rfl

omit [Sample α] in
theorem writeControl_keeps (g : GraphInstance α) (n q : Nat)
    (f : Node α → PortControl α → PortControl α) :
    (g.writeControl n q f).sched = g.sched ∧
      (g.writeControl n q f).controls.length = g.controls.length := by
  rw [writeControl]
  split
  · exact ⟨rfl, rfl⟩
  · exact ⟨rfl, List.length_modify ..⟩

theorem initParameter_eq (g : GraphInstance α) (n q : Nat) (x : α) :
    g.initParameter n q x = g.writeControl n q fun nd _ => ⟨clampTo nd q x, clampTo nd q x⟩ := rfl

theorem setParameter_eq (g : GraphInstance α) (n q : Nat) (x : α) :
    g.setParameter n q x = g.writeControl n q fun nd c => ⟨c.current, clampTo nd q x⟩ := rfl

/-- A port through one operation. -/
theorem perform_glide (R : g.Ready) {nd : Node α} (node : g.sched.bp.nodes[i]? = some nd)
    (rate : g.sched.ControlRate i p) (op : ControlOp α) :
    (g.perform op).glide i p
      = (op.events nd (g.sched.calls.getD i 0) i p).foldl Glide.after (g.glide i p) := by
  cases op with
  | process => exact (process_glide R.slots R.all rate).2
  | init n q x =>
      rw [perform, initParameter_eq, writeControl_glide R node rate.port, ControlOp.events]
      split_ifs with e
      · rw [e.2]; rfl
      · rfl
  | set n q x =>
      rw [perform, setParameter_eq, writeControl_glide R node rate.port, ControlOp.events]
      split_ifs with e
      · rw [e.2]; rfl
      · rfl

omit [Sample α] in
theorem settleControls_length (g : GraphInstance α) (v n : Nat) :
    (g.settleControls v n).controls.length = g.controls.length := by
  refine foldl_keeps List.length (fun cs p => ?_) _ _
  split
  · rfl
  · exact List.length_modify ..

theorem process_length (g : GraphInstance α) : g.process.controls.length = g.controls.length := by
  have call : ∀ (g : GraphInstance α) (v k : Nat),
      (g.runCall v k).controls.length = g.controls.length := by
    intro g v k
    cases here : g.sched.bp.nodes[v]? with
    | none => rw [runCall, here]
    | some nd => rw [(runCall_controls g here k).2, settleControls_length]
  exact foldl_keeps (fun g : GraphInstance α => g.controls.length)
    (fun g v => foldl_keeps (fun g : GraphInstance α => g.controls.length)
      (fun g k => call g v k) _ g) _ g

theorem perform_keeps (g : GraphInstance α) (op : ControlOp α) :
    (g.perform op).sched = g.sched ∧ (g.perform op).controls.length = g.controls.length := by
  cases op with
  | init n q x => exact writeControl_keeps g n q _
  | set n q x => exact writeControl_keeps g n q _
  | process => exact ⟨process_sched g, process_length g⟩

theorem Ready.perform (R : g.Ready) (op : ControlOp α) : (g.perform op).Ready := by
  obtain ⟨hs, hl⟩ := perform_keeps g op
  exact ⟨hs ▸ R.slots, hs ▸ R.all, by rw [hl, hs]; exact R.length⟩

/-- **A port follows its events**: the operations on an instance are, seen from one of its
control-rate ports, the writes to that port and the calls of its node. -/
theorem glide_performs (R : g.Ready) {nd : Node α} (node : g.sched.bp.nodes[i]? = some nd)
    (rate : g.sched.ControlRate i p) (ops : List (ControlOp α)) :
    let events := ops.flatMap (ControlOp.events nd (g.sched.calls.getD i 0) i p)
    (ops.foldl perform g).glide i p = events.foldl Glide.after (g.glide i p) ∧
      readsOf i p g ops
        = ((g.glide i p).legs events).map (Glide.ramp · (g.sched.nodeBlock.getD i 0)) := by
  induction ops generalizing g with
  | nil => exact ⟨rfl, rfl⟩
  | cons op ops ih =>
      have hs := (perform_keeps g op).1
      obtain ⟨state, reads⟩ := ih (R.perform op) (hs.symm ▸ node) (hs.symm ▸ rate)
      have one := perform_glide R node rate op
      rw [hs, one] at state reads
      simp only [List.flatMap_cons, List.foldl_append, Glide.legs_append, List.map_append]
      refine ⟨state, ?_⟩
      rw [readsOf, reads]
      congr 1
      cases op with
      | process => exact (process_glide R.slots R.all rate).1
      | init n q x | set n q x =>
          rw [Glide.legs_of_no_leg _ (by rw [ControlOp.events]; split_ifs <;> simp)]
          rfl

/-! ### Instances of compiled blueprints -/

variable {bp : GraphBlueprint α} {B sr : Nat}

theorem defaultControls_length (s : CompiledSchedule α) :
    (defaultControls s).length = s.totalParams := by
  refine (foldl_keeps List.length (fun cs nd => ?_) _ _).trans List.length_replicate
  exact foldl_keeps List.length (fun cs p => List.length_set) _ cs

omit [Sample α] in
/-- A place that is only ever written one value, and written at least once, holds it. -/
theorem getElem?_foldl_set {β : Type} {l : List (Nat × β)} {j : Nat} {x : β} (mem : (j, x) ∈ l)
    (only : ∀ w ∈ l, w.1 = j → w.2 = x) {cs : List β} (lt : j < cs.length) :
    (l.foldl (fun cs w => cs.set w.1 w.2) cs)[j]? = some x := by
  induction l using List.reverseRecOn with
  | nil => cases mem
  | append_singleton l w ih =>
      have kept : (l.foldl (fun cs w => cs.set w.1 w.2) cs).length = cs.length :=
        foldl_keeps List.length (fun cs w => List.length_set) l cs
      rw [List.foldl_append, List.foldl_cons, List.foldl_nil, List.getElem?_set]
      split_ifs with e
      · rw [only w (List.mem_append_right l List.mem_cons_self) e]
      · rename_i h
        exact absurd (kept.symm ▸ e ▸ lt) h
      · refine ih ?_ fun w hw => only w (List.mem_append_left _ hw)
        rcases List.mem_append.mp mem with mem | mem
        · exact mem
        · exact absurd (congrArg Prod.fst (List.mem_singleton.mp mem)).symm e

/-- A port begins at its compiled default. -/
theorem glide_defaultControls {s : CompiledSchedule α} (slots : s.HasSlots) {nd : Node α}
    (node : s.bp.nodes[i]? = some nd) (port : p < nd.paramsCount) :
    (defaultControls s)[s.slot i p]? = some ⟨nd.paramDefault p, nd.paramDefault p⟩ := by
  let writes := s.bp.nodes.zipIdx.flatMap fun nd => (List.range nd.1.paramsCount).map fun p =>
    (s.slot nd.2 p, (⟨nd.1.paramDefault p, nd.1.paramDefault p⟩ : PortControl α))
  have flat : defaultControls s = writes.foldl (fun cs w => cs.set w.1 w.2)
      (List.replicate s.totalParams ⟨0, 0⟩) := by
    rw [defaultControls, List.foldl_flatMap]
    simp only [List.foldl_map]
    rfl
  have paramsOf : ∀ {i : Nat} {nd : Node α}, s.bp.nodes[i]? = some nd →
      ∀ {p}, p < nd.paramsCount → p < s.bp.paramsOf i :=
    fun h _ hp => (GraphBlueprint.paramsOf_eq h).symm ▸ hp
  rw [flat]
  refine getElem?_foldl_set ?_ (fun w hw e => ?_) ?_
  · refine List.mem_flatMap.mpr ⟨(nd, i), List.mem_zipIdx_iff_getElem?.mpr node, ?_⟩
    exact List.mem_map.mpr ⟨p, List.mem_range.mpr port, rfl⟩
  · obtain ⟨⟨nd', i'⟩, hn, hw⟩ := List.mem_flatMap.mp hw
    obtain ⟨p', hp', rfl⟩ := List.mem_map.mp hw
    have node' := List.mem_zipIdx_iff_getElem?.mp hn
    obtain ⟨rfl, rfl⟩ := slots.inj _ _ _ _ (paramsOf node' (List.mem_range.mp hp'))
      (paramsOf node port) e
    obtain rfl : nd' = nd := Option.some.inj (node'.symm.trans node)
    rfl
  · rw [List.length_replicate]
    exact slots.lt i p (paramsOf node port)

/-- An instance of a compiled blueprint: its control slots, and where its ports begin. -/
theorem ready_of_compile (W : bp.Wired) (built : instantiate (compile bp B) sr = some g) :
    g.Ready ∧ g.sched.bp = bp ∧ ∀ i nd p, bp.nodes[i]? = some nd → p < nd.paramsCount →
      g.glide i p = .rest (nd.paramDefault p) := by
  rw [instantiate, Option.ite_none_left_eq_some] at built
  obtain ⟨ok, built⟩ := built
  obtain rfl := Option.some.inj built
  obtain ⟨rates, hs, settled, hlen⟩ := compile_of_ok W (by simpa using ok)
  have hbp : (compile bp B).bp = bp := by rw [hs]; rfl
  have slots : (compile bp B).HasSlots := hs ▸ hasSlots_layout
  refine ⟨⟨slots, hs ▸ settled.runsAll W hlen, defaultControls_length _⟩, hbp, ?_⟩
  intro i nd p node port
  rw [glide, List.getD_eq_getElem?_getD,
    glide_defaultControls slots (hbp.symm ▸ node) port]
  rfl

theorem Ready.performs (R : g.Ready) (ops : List (ControlOp α)) :
    (ops.foldl GraphInstance.perform g).Ready ∧
      (ops.foldl GraphInstance.perform g).sched = g.sched := by
  induction ops generalizing g with
  | nil => exact ⟨R, rfl⟩
  | cons op ops ih =>
      obtain ⟨R', hs⟩ := ih (R.perform op)
      exact ⟨R', hs.trans (perform_keeps g op).1⟩

end GraphInstance

/-! ### Click-free ramps -/

namespace ControlOp

variable [Sample α]

/-- The value the operation gives to port `p` of node `i`, which is `nd`. -/
def written (nd : Node α) (i p : Nat) : ControlOp α → Option α
  | .init n q x | .set n q x =>
      if n = i ∧ q = p then some (GraphInstance.clampTo nd p x) else none
  | .process => none

def isInit : ControlOp α → Bool
  | .init _ _ _ => true
  | _           => false

/-- The port's latest target: the value last written, or the compiled default. -/
def latest (nd : Node α) (i p : Nat) (ops : List (ControlOp α)) : α :=
  (ops.filterMap (written nd i p)).getLast?.getD (nd.paramDefault p)

theorem written_events (nd : Node α) (calls i p : Nat) (ops : List (ControlOp α)) :
    (ops.flatMap (events nd calls i p)).filterMap GlideEvent.written
      = ops.filterMap (written nd i p) := by
  rw [List.filterMap_flatMap, List.filterMap_eq_flatMap_toList]
  refine List.flatMap_congr fun op _ => ?_
  cases op with
  | init n q x | set n q x => rw [events, written]; split_ifs <;> rfl
  | process =>
      refine List.filterMap_eq_nil_iff.mpr fun e he => ?_
      rw [List.eq_of_mem_replicate he]
      rfl

theorem events_still {nd : Node α} {i p : Nat} {ops : List (ControlOp α)} (calls : Nat)
    (h : ∀ op ∈ ops, op.written nd i p = none) :
    ∀ e ∈ ops.flatMap (events nd calls i p), e.written = none := by
  refine List.filterMap_eq_nil_iff.mp ?_
  rw [written_events]
  exact List.filterMap_eq_nil_iff.mpr h

theorem leg_notMem_events {nd : Node α} {i p : Nat} {ops : List (ControlOp α)} (calls : Nat)
    (h : .process ∉ ops) : .leg ∉ ops.flatMap (events nd calls i p) := by
  intro hm
  obtain ⟨op, hop, hm⟩ := List.mem_flatMap.mp hm
  cases op with
  | init n q x | set n q x => rw [events] at hm; split_ifs at hm <;> simp at hm
  | process => exact h hop

theorem events_glide {nd : Node α} {i p : Nat} {ops : List (ControlOp α)} (calls : Nat)
    (h : ∀ op ∈ ops, ∀ x, op ≠ .init i p x) :
    ∀ e ∈ ops.flatMap (events nd calls i p), e.isJump = false := by
  intro e he
  obtain ⟨op, hop, he⟩ := List.mem_flatMap.mp he
  cases op with
  | init n q x =>
      rw [events] at he
      split_ifs at he with here
      · exact absurd (by rw [here.1, here.2]) (h _ hop x)
      · cases he
  | set n q x =>
      rw [events] at he
      split_ifs at he with here
      · rw [List.mem_singleton.mp he]; rfl
      · cases he
  | process => rw [List.eq_of_mem_replicate he]; rfl

end ControlOp

section Exact

variable {K : Type} [Field K] [LinearOrder K] [FloorRing K]

namespace GraphInstance

/-- Port `p` of node `i`, which is `nd`, is free of clicks while `ops` are performed on `g`. -/
structure ClickFree (g : GraphInstance K) (nd : Node K) (i p : Nat) (ops : List (ControlOp K)) :
    Prop where
  -- a call begins where the ramp of the call before it arrives, one sample past its end
  joins : (readsOf i p g ops).IsChain fun r r' => r'.get 0 = r.get (g.sched.nodeBlock.getD i 0)
  -- from there on each value lies between those before it in the call and the latest target
  between : ∀ a b, ops = a ++ .process :: b → ∀ r ∈ (a.foldl perform g).reads i p,
    ∀ j ≤ g.sched.nodeBlock.getD i 0, ∀ h ≤ j,
      r.get j ∈ Set.uIcc (r.get h) (ControlOp.latest nd i p a)
  -- after a cycle, and until it is written again, the port reads its target
  settles : ∀ a b c, ops = a ++ .process :: b ++ .process :: c →
    (∀ op ∈ b, op.written nd i p = none) →
      ∀ r ∈ ((a ++ .process :: b).foldl perform g).reads i p, ∀ j,
        r.get j = ControlOp.latest nd i p a
  -- a value written at spawn time is there from the first sample of the first cycle
  initial : ∀ a x b c, ops = a ++ .init i p x :: b ++ .process :: c → .process ∉ b →
    (∀ op ∈ b, ∀ y, op ≠ .init i p y) →
      (∃ r ∈ (((a ++ .init i p x :: b).foldl perform g).reads i p).head?,
        r.get 0 = clampTo nd p x) ∧
      ((∀ op ∈ b, op.written nd i p = none) →
        ∀ r ∈ ((a ++ .init i p x :: b).foldl perform g).reads i p, ∀ j, r.get j = clampTo nd p x)
  -- `set_parameter` and a cycle leave the port as `init_parameter` does
  arrives : ∀ a b, ops = a ++ b → ∀ x,
    ((a.foldl perform g).setParameter i p x).process.glide i p
      = ((a.foldl perform g).initParameter i p x).glide i p

end GraphInstance

open GraphInstance

variable [IsStrictOrderedRing K]

section Port

variable {g : GraphInstance K} {i p : Nat} (R : g.Ready) (rate : g.sched.ControlRate i p)

include R rate

omit [IsStrictOrderedRing K] in
/-- A cycle takes the port to its target. -/
theorem process_glide_eq : g.process.glide i p = .rest (g.glide i p).aim := by
  rw [(process_glide R.slots R.all rate).2]
  exact Glide.after_legs _ (R.all.calls i (GraphBlueprint.lt_size_of_port rate.port))

omit [IsStrictOrderedRing K] in
/-- What the port reads in a cycle: ramps to its target, the first from where it is. -/
theorem ramp_of_mem_reads : (∃ r ∈ (g.reads i p).head?, r.get 0 = (g.glide i p).current) ∧
    ∀ r ∈ g.reads i p, ∃ a, ∀ j,
      r.get j = line a (g.glide i p).aim (g.sched.nodeBlock.getD i 0) j := by
  rw [(process_glide R.slots R.all rate).1]
  constructor
  · obtain ⟨n, hn⟩ := Nat.exists_eq_succ_of_ne_zero
      (R.all.calls i (GraphBlueprint.lt_size_of_port rate.port)).ne'
    rw [hn, List.replicate_succ]
    exact ⟨_, rfl, by rw [Glide.ramp_get, line_zero]⟩
  · intro r hr
    obtain ⟨l, hl, rfl⟩ := List.mem_map.mp hr
    have aim := Glide.aim_of_mem_legs _ (fun e he => by rw [List.eq_of_mem_replicate he]; rfl) l hl
    exact ⟨l.current, fun j => by rw [Glide.ramp_get, aim]⟩

omit [IsStrictOrderedRing K] in
/-- A port at rest reads where it is. -/
theorem reads_of_rest {v : K} (h : g.glide i p = .rest v) : ∀ r ∈ g.reads i p, ∀ j,
    r.get j = v := by
  rw [(process_glide R.slots R.all rate).1, h]
  intro r hr j
  obtain ⟨l, hl, rfl⟩ := List.mem_map.mp hr
  have still := Glide.legs_rest v (fun e he => by rw [List.eq_of_mem_replicate he]; rfl) l hl
  rw [Glide.ramp_get, still]
  exact line_self v _ j

end Port

/-- **Control ramps are free of clicks**, on any instance of a compiled blueprint and whatever is
done to it, as long as ports are initialised only before the first cycle. -/
theorem ramps_click_free {bp : GraphBlueprint K} {B sr : Nat} {g : GraphInstance K}
    (made : bp.EdgesMade) (built : instantiate (compile bp B) sr = some g) {i p : Nat}
    {nd : Node K} (node : bp.nodes[i]? = some nd) (rate : g.sched.ControlRate i p)
    {early later : List (ControlOp K)} (spawning : .process ∉ early)
    (running : ∀ op ∈ later, op.isInit = false) : g.ClickFree nd i p (early ++ later) := by
  obtain ⟨R, hbp, defaults⟩ := ready_of_compile made.wired built
  have block := R.all.block i (GraphBlueprint.lt_size_of_port rate.port)
  have port : p < nd.paramsCount := by
    rw [← GraphBlueprint.paramsOf_eq (hbp.symm ▸ node)]
    exact rate.port
  have start := defaults i nd p node port
  have node : g.sched.bp.nodes[i]? = some nd := hbp.symm ▸ node
  -- every state on the way is an instance of the same schedule
  have ready : ∀ a : List (ControlOp K), (a.foldl perform g).Ready := fun a => (R.performs a).1
  have sched : ∀ a : List (ControlOp K), (a.foldl perform g).sched = g.sched := fun a => (R.performs a).2
  have rates : ∀ a : List (ControlOp K), (a.foldl perform g).sched.ControlRate i p := fun a => (sched a).symm ▸ rate
  have state := fun a => (glide_performs R node rate a).1
  have aim : ∀ a : List (ControlOp K), ((a.foldl perform g).glide i p).aim = ControlOp.latest nd i p a := by
    intro a
    rw [state a, Glide.aim_after, ControlOp.written_events, start]
    rfl
  have cycled : ∀ a : List (ControlOp K), ((a ++ [ControlOp.process]).foldl perform g).glide i p
      = .rest (ControlOp.latest nd i p a) := by
    intro a
    rw [List.foldl_append, ← aim a]
    exact process_glide_eq (ready a) (rates a)
  exact
    { joins := by
        have gliding : ∀ e ∈ later.flatMap (ControlOp.events nd (g.sched.calls.getD i 0) i p),
            e.isJump = false :=
          ControlOp.events_glide _ fun op hop x h => by
            have := running op hop
            rw [h] at this
            cases this
        have legless : .leg ∉ early.flatMap
            (ControlOp.events nd (g.sched.calls.getD i 0) i p) :=
          ControlOp.leg_notMem_events _ spawning
        have silent := Glide.legs_of_no_leg (g.glide i p) legless
        have chain := fun c => (Glide.legs_chain c gliding).2
        rw [(glide_performs R node rate (early ++ later)).2, List.flatMap_append,
          Glide.legs_append, silent, List.nil_append, List.isChain_map]
        refine (chain _).imp fun l l' h => ?_
        rw [Glide.ramp_get, Glide.ramp_get, line_zero, line_end _ _ block, h]
      between := by
        intro a b _ r hr j hj h hh
        obtain ⟨-, ramp⟩ := ramp_of_mem_reads (ready a) (rates a)
        obtain ⟨s, hs⟩ := ramp r hr
        rw [hs, hs, ← aim a]
        exact line_mem_uIcc _ _ hh ((sched a).symm ▸ hj)
      settles := by
        intro a b c _ still
        have moved : a ++ .process :: b = (a ++ [.process] ++ b : List (ControlOp K)) := by simp
        have home : ((a ++ .process :: b).foldl perform g).glide i p
            = .rest (ControlOp.latest nd i p a) := by
          rw [moved, state, List.flatMap_append, List.foldl_append, ← state, cycled]
          exact Glide.rest_after _ (ControlOp.events_still _ still)
        exact reads_of_rest (ready _) (rates _) home
      initial := by
        intro a x b c _ waiting once
        have split : a ++ .init i p x :: b = (a ++ [.init i p x] ++ b : List (ControlOp K)) := by simp
        have put : ((a ++ [ControlOp.init i p x]).foldl perform g).glide i p
            = .rest (clampTo nd p x) := by
          rw [List.foldl_append]
          have one := perform_glide (ready a) ((sched a).symm ▸ node) (rates a)
            (.init i p x)
          rw [ControlOp.events, if_pos ⟨rfl, rfl⟩] at one
          exact one
        have there : ((a ++ .init i p x :: b).foldl perform g).glide i p
            = (b.flatMap (ControlOp.events nd (g.sched.calls.getD i 0) i p)).foldl Glide.after
                (.rest (clampTo nd p x)) := by
          rw [split, state, List.flatMap_append, List.foldl_append, ← state, put]
        constructor
        · obtain ⟨⟨r, hr, first⟩, -⟩ := ramp_of_mem_reads (ready (a ++ .init i p x :: b)) (rates _)
          refine ⟨r, hr, first.trans ?_⟩
          rw [there]
          exact Glide.current_after _ (ControlOp.leg_notMem_events _ waiting)
            (ControlOp.events_glide _ once)
        · intro still
          refine reads_of_rest (ready _) (rates _) (there.trans ?_)
          exact Glide.rest_after _ (ControlOp.events_still _ still)
      arrives := by
        intro a b _ x
        have set := perform_glide (ready a) ((sched a).symm ▸ node) (rates a) (.set i p x)
        have init := perform_glide (ready a) ((sched a).symm ▸ node) (rates a) (.init i p x)
        have again : ((a ++ [ControlOp.set i p x]).foldl perform g)
            = (a.foldl perform g).setParameter i p x := by rw [List.foldl_append]; rfl
        simp only [ControlOp.events, and_self, if_true] at set init
        have aimed : ((a.foldl perform g).setParameter i p x).glide i p
            = (⟨((a.foldl perform g).glide i p).current, clampTo nd p x⟩ : Glide K) := set
        have put : ((a.foldl perform g).initParameter i p x).glide i p
            = .rest (clampTo nd p x) := init
        rw [put, ← again, process_glide_eq (ready _) (rates _), again, aimed] }

theorem ramps_click_free_gain : ∃ g, instantiate (compile constantIntoGain 64) 48000 = some g ∧
    g.ClickFree (Nodes.gain 1) 1 0
      ([.init 1 0 2] ++ [.process, .set 1 0 0, .process, .process]) := by
  have started : ∃ g, instantiate (compile constantIntoGain 64) 48000 = some g ∧
      g.sched.ControlRate 1 0 := ⟨_, rfl, by decide, rfl⟩
  obtain ⟨g, built, rate⟩ := started
  refine ⟨g, built, ramps_click_free constantIntoGain_made built rfl rate (fun h => ?_) (by decide)⟩
  cases List.mem_singleton.mp h

end Exact

end Xrune
