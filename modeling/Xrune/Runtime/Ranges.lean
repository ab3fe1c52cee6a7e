import Xrune.Runtime.Api
import Xrune.Lang.Sound
import Xrune.Schedule.Controls

/-!
# Runtime — the ranges of control ports

`init_parameter` and `set_parameter` clamp what they write to the port's range; `build` writes
the compiled default as it is.  So the controls of an instance stay in range exactly when its
blueprint's defaults are in range, and a rune parameter's default starts a port where the same
value given to `spawn` does exactly when clamping changes nothing (`controls_in_range_iff`).
-/

namespace Xrune

section Exact

variable {K : Type} [Field K] [LinearOrder K] [FloorRing K]

open GraphInstance

/-! ### Ranges -/

/-- `x` is in the range of the node's port `p`. -/
def Node.Allows (nd : Node K) (p : Nat) (x : K) : Prop :=
  ∀ pd ∈ nd.params[p]?, pd.minValue ≤ x ∧ x ≤ pd.maxValue

/-- No range is empty. -/
def Node.RangesProper (nd : Node K) : Prop := ∀ pd ∈ nd.params, pd.minValue ≤ pd.maxValue

theorem allows_clampTo {nd : Node K} (proper : nd.RangesProper) (p : Nat) (x : K) :
    nd.Allows p (clampTo nd p x) := by
  intro pd hpd
  have hpd : nd.params[p]? = some pd := hpd
  have le := proper pd (List.mem_of_getElem? hpd)
  rw [clampTo, hpd]
  simp only [Sample.clamp, Sample.lt, decide_eq_true_eq]
  split_ifs with low high
  · exact ⟨le_rfl, le⟩
  · exact ⟨le, le_rfl⟩
  · exact ⟨not_lt.mp low, not_lt.mp high⟩

theorem clampTo_of_allows {nd : Node K} {p : Nat} {x : K} (h : nd.Allows p x) :
    clampTo nd p x = x := by
  rw [clampTo]
  split
  next pd hpd =>
    obtain ⟨low, high⟩ := h pd hpd
    simp only [Sample.clamp, Sample.lt, decide_eq_true_eq]
    rw [if_neg (not_lt.mpr low), if_neg (not_lt.mpr high)]
  · rfl

theorem standardRegistry_rangesProper [IsStrictOrderedRing K] [Trig K] {nd : Node K}
    (h : Lang.standardRegistry.Makes nd) : nd.RangesProper := by
  have huge : (0 : K) ≤ Nodes.huge := Nat.cast_nonneg _
  obtain ⟨name, args, h⟩ := h
  obtain ⟨e, he, -, hm⟩ := Lang.NodeRegistry.make_eq_some h
  simp only [Lang.standardRegistry, List.mem_cons, List.not_mem_nil, or_false] at he
  rcases he with rfl | rfl | rfl | rfl | rfl | rfl | rfl | rfl | rfl | rfl | rfl | rfl | rfl | rfl |
    rfl | rfl | rfl | rfl | rfl | rfl | rfl | rfl | rfl | rfl | rfl | rfl <;>
    obtain rfl := Option.some.inj hm <;> intro pd hpd
  all_goals
    first
      | exact absurd hpd List.not_mem_nil
      | obtain rfl := List.mem_singleton.mp hpd
        first
          | exact Nat.cast_nonneg _
          | exact huge
          | exact neg_le_self huge
          | exact neg_le_self zero_le_one

/-- Every port's compiled default is in its range. -/
def GraphBlueprint.DefaultsInRange (bp : GraphBlueprint K) : Prop :=
  ∀ nd ∈ bp.nodes, ∀ p < nd.paramsCount, nd.Allows p (nd.paramDefault p)

namespace GraphInstance

/-- Every control of the instance is in its port's range. -/
def InRange (g : GraphInstance K) : Prop :=
  ∀ (i : Nat) (nd : Node K) (p : Nat), g.sched.bp.nodes[i]? = some nd → p < nd.paramsCount →
    nd.Allows p (g.glide i p).current ∧ nd.Allows p (g.glide i p).aim

/-! ### What the operations do to a port's range -/

/-- From `g` to `g'` ports stay where they are or arrive at their targets. -/
def Arrives (g g' : GraphInstance K) : Prop :=
  g'.sched = g.sched ∧
    ∀ i p, g'.glide i p = g.glide i p ∨ g'.glide i p = .rest (g.glide i p).aim

theorem Arrives.refl (g : GraphInstance K) : g.Arrives g := ⟨rfl, fun _ _ => .inl rfl⟩

theorem Arrives.trans {g g' g'' : GraphInstance K} (h : g.Arrives g') (h' : g'.Arrives g'') :
    g.Arrives g'' := by
  refine ⟨h'.1.trans h.1, fun i p => ?_⟩
  rcases h'.2 i p with same | moved
  · rw [same]
    exact h.2 i p
  · rw [moved]
    right
    rcases h.2 i p with same | moved
    · rw [same]
    · rw [moved]
      rfl

theorem Arrives.foldl {β : Type} {f : GraphInstance K → β → GraphInstance K}
    (h : ∀ (g : GraphInstance K) (b : β), g.Arrives (f g b)) : ∀ (l : List β) (g : GraphInstance K), g.Arrives (l.foldl f g)
  | [], g     => .refl g
  | b :: l, g => (h g b).trans (Arrives.foldl h l (f g b))

theorem runCall_arrives (g : GraphInstance K) (v k : Nat) : g.Arrives (g.runCall v k) := by
  cases here : g.sched.bp.nodes[v]? with
  | none =>
      rw [runCall, here]
      exact .refl g
  | some nd =>
      obtain ⟨hs, hc⟩ := runCall_controls g here k
      refine ⟨hs, fun i p => ?_⟩
      have settled : (g.settleControls v nd.paramsCount).controls[g.sched.slot i p]? = _ :=
        getElem?_settled (fun p => (g.sched.paramSource.getD v []).getD p none)
          (g.sched.paramBase.getD v 0) (List.range nd.paramsCount) g.controls (g.sched.slot i p)
      have now : g.glide i p = ⟨(g.controls[g.sched.slot i p]?.getD ⟨0, 0⟩).current,
          (g.controls[g.sched.slot i p]?.getD ⟨0, 0⟩).target⟩ := by
        rw [glide, List.getD_eq_getElem?_getD]
      rw [glide, hs, List.getD_eq_getElem?_getD, hc, settled, now]
      split_ifs
      · right
        cases g.controls[g.sched.slot i p]? <;> rfl
      · exact .inl rfl

theorem process_arrives (g : GraphInstance K) : g.Arrives g.process :=
  Arrives.foldl (fun g v => Arrives.foldl (fun g k => runCall_arrives g v k) _ g) _ g

theorem InRange.process {g : GraphInstance K} (h : g.InRange) : g.process.InRange := by
  obtain ⟨hs, moves⟩ := process_arrives g
  intro i nd p node port
  have here := h i nd p (hs ▸ node) port
  rcases moves i p with same | moved
  · rw [same]
    exact here
  · rw [moved]
    exact ⟨here.2, here.2⟩

theorem InRange.perform {g : GraphInstance K} (R : g.Ready)
    (proper : ∀ nd ∈ g.sched.bp.nodes, nd.RangesProper) (h : g.InRange) (op : ControlOp K) :
    (g.perform op).InRange := by
  have clamped : ∀ {i : Nat} {nd : Node K}, g.sched.bp.nodes[i]? = some nd → ∀ p x,
      nd.Allows p (clampTo nd p x) :=
    fun node p x => allows_clampTo (proper _ (List.mem_of_getElem? node)) p x
  cases op with
  | process => exact h.process
  | init n q x =>
      intro i nd p node port
      have node : g.sched.bp.nodes[i]? = some nd := (writeControl_keeps g n q _).1 ▸ node
      rw [GraphInstance.perform, initParameter_eq, writeControl_glide R node
        ((GraphBlueprint.paramsOf_eq node).symm ▸ port)]
      split_ifs with e
      · exact ⟨e.2 ▸ clamped node q x, e.2 ▸ clamped node q x⟩
      · exact h i nd p node port
  | set n q x =>
      intro i nd p node port
      have node : g.sched.bp.nodes[i]? = some nd := (writeControl_keeps g n q _).1 ▸ node
      rw [GraphInstance.perform, setParameter_eq, writeControl_glide R node
        ((GraphBlueprint.paramsOf_eq node).symm ▸ port)]
      split_ifs with e
      · exact ⟨(h i nd p node port).1, e.2 ▸ clamped node q x⟩
      · exact h i nd p node port

/-- Controls that are in range stay there. -/
theorem InRange.performs {g : GraphInstance K} (R : g.Ready)
    (proper : ∀ nd ∈ g.sched.bp.nodes, nd.RangesProper) (h : g.InRange) :
    ∀ ops : List (ControlOp K), (ops.foldl GraphInstance.perform g).InRange := by
  intro ops
  induction ops generalizing g with
  | nil => exact h
  | cons op ops ih =>
      exact ih (R.perform op) ((perform_keeps g op).1.symm ▸ proper) (h.perform R proper op)

/-! ### Spawning with and without an override -/

/-- What `engine::spawn` makes of the values it is given: `init_parameter` at each. -/
def spawnedWith (g : GraphInstance K) (writes : List (InitialParam K)) : GraphInstance K :=
  writes.foldl (fun g ip => g.initParameter ip.node ip.param ip.value) g

/-- A port that is written one value only, and at least once, is there. -/
theorem spawnedWith_glide {g : GraphInstance K} (R : g.Ready) {i p : Nat} {nd : Node K}
    (node : g.sched.bp.nodes[i]? = some nd) (port : p < nd.paramsCount) {x : K}
    {writes : List (InitialParam K)} (same : ∀ w ∈ writes, w.value = x)
    (h : g.glide i p = .rest (clampTo nd p x) ∨ ∃ w ∈ writes, w.node = i ∧ w.param = p) :
    (g.spawnedWith writes).glide i p = .rest (clampTo nd p x) := by
  induction writes generalizing g with
  | nil =>
      rcases h with h | ⟨w, hw, -⟩
      · exact h
      · cases hw
  | cons w writes ih =>
      have keeps := writeControl_keeps g w.node w.param fun nd _ =>
        ⟨clampTo nd w.param w.value, clampTo nd w.param w.value⟩
      have first := writeControl_glide R node ((GraphBlueprint.paramsOf_eq node).symm ▸ port)
        w.node w.param fun nd _ => ⟨clampTo nd w.param w.value, clampTo nd w.param w.value⟩
      refine ih (g := g.initParameter w.node w.param w.value)
        ⟨keeps.1.symm ▸ R.slots, keeps.1.symm ▸ R.all, ?_⟩ (keeps.1.symm ▸ node)
        (fun w hw => same w (List.mem_cons_of_mem _ hw)) ?_
      · rw [initParameter_eq, keeps.2, keeps.1]
        exact R.length
      · rw [initParameter_eq, first, same w List.mem_cons_self]
        split_ifs with here
        · left
          rw [here.2]
          rfl
        · rcases h with h | ⟨w', hw', there⟩
          · exact .inl h
          · rcases List.mem_cons.mp hw' with rfl | hw'
            · exact absurd there here
            · exact .inr ⟨w', hw', there⟩

/-- Every port that a rune parameter which is not partial drives starts where it would if the
parameter's default were given to `spawn`. -/
def StartsAlike (g : GraphInstance K) : Prop :=
  ∀ q ∈ g.sched.bp.params, q.isPartial = false →
    ∀ writes, Runtime.spawnParam g.sched.bp (q.name, q.defaultValue) = .ok writes →
      ∀ w ∈ writes, g.glide w.node w.param = (g.spawnedWith writes).glide w.node w.param

end GraphInstance

/-- A blueprint of standard nodes, lowered or built through the checked calls. -/
structure GraphBlueprint.Standard [Trig K] (bp : GraphBlueprint K) : Prop where
  wired : bp.Wired
  made : ∀ nd ∈ bp.nodes, Lang.standardRegistry.Makes nd
  targets : ∀ q ∈ bp.params, ∀ t ∈ q.targets, Lang.PortExists bp t

/-- The ports a rune parameter that is not partial drives were compiled with its default, as far
as their ranges go. -/
def GraphBlueprint.DefaultsDriven (bp : GraphBlueprint K) : Prop :=
  ∀ q ∈ bp.params, q.isPartial = false →
    ∀ writes, Runtime.spawnParam bp (q.name, q.defaultValue) = .ok writes →
      ∀ w ∈ writes, ∀ nd, bp.nodes[w.node]? = some nd →
        nd.paramDefault w.param = clampTo nd w.param q.defaultValue

omit [Field K] [LinearOrder K] [FloorRing K] in
theorem spawnParam_ok {bp : GraphBlueprint K} {kv : String × K} {writes : List (InitialParam K)}
    (h : Runtime.spawnParam bp kv = .ok writes) :
    ∃ q ∈ bp.params, writes = q.targets.map fun t => ⟨t.node, t.port, kv.2⟩ := by
  rw [Runtime.spawnParam] at h
  split at h
  · cases h
  next pi _ =>
    cases hq : bp.params[pi]? with
    | none => simp [hq] at h
    | some q =>
        simp only [hq, Option.map_some, Option.getD_some] at h
        split_ifs at h
        cases h
        exact ⟨q, List.mem_of_getElem? hq, rfl⟩

variable [IsStrictOrderedRing K] [Trig K]

/-- **When controls stay in range**, and a default starts a port where the same value given to
`spawn` does. -/
theorem controls_in_range_iff {bp : GraphBlueprint K} {B sr : Nat} {g : GraphInstance K}
    (standard : bp.Standard) (built : instantiate (compile bp B) sr = some g) :
    ((∀ ops : List (ControlOp K), (ops.foldl perform g).InRange) ∧ g.StartsAlike) ↔
      bp.DefaultsInRange ∧ bp.DefaultsDriven := by
  obtain ⟨R, hbp, defaults⟩ := ready_of_compile standard.wired built
  have proper : ∀ nd ∈ g.sched.bp.nodes, nd.RangesProper :=
    fun nd hnd => standardRegistry_rangesProper (standard.made nd (hbp ▸ hnd))
  have ranges : (∀ ops : List (ControlOp K), (ops.foldl perform g).InRange) ↔
      bp.DefaultsInRange := by
    constructor
    · intro h nd hnd p port
      obtain ⟨i, node⟩ := List.mem_iff_getElem?.mp hnd
      have start := (h [] i nd p (hbp.symm ▸ node) port).1
      rwa [List.foldl_nil, defaults i nd p node port] at start
    · intro h
      refine GraphInstance.InRange.performs R proper fun i nd p node port => ?_
      have node : bp.nodes[i]? = some nd := hbp ▸ node
      rw [defaults i nd p node port]
      exact ⟨h nd (List.mem_of_getElem? node) p port, h nd (List.mem_of_getElem? node) p port⟩
  have starts : g.StartsAlike ↔ bp.DefaultsDriven := by
    rw [StartsAlike, GraphBlueprint.DefaultsDriven, hbp]
    refine forall₂_congr fun q hq => forall₃_congr fun _ writes ok => forall₂_congr fun w hw => ?_
    obtain ⟨q', hq', rfl⟩ := spawnParam_ok ok
    obtain ⟨t, ht, rfl⟩ := List.mem_map.mp hw
    obtain ⟨hlt, hport⟩ := standard.targets q' hq' t ht
    have node : bp.nodes[t.node]? = some bp.nodes[t.node] := List.getElem?_eq_getElem hlt
    have port : t.port < bp.nodes[t.node].paramsCount :=
      GraphBlueprint.paramsOf_eq node ▸ hport
    have override := spawnedWith_glide R (hbp.symm ▸ node) port (x := q.defaultValue)
      (fun w hw => by obtain ⟨t, -, rfl⟩ := List.mem_map.mp hw; rfl)
      (.inr ⟨_, hw, rfl, rfl⟩)
    rw [override, defaults _ _ _ node port]
    constructor
    · intro same nd hnd
      obtain rfl : bp.nodes[t.node] = nd := Option.some.inj (node.symm.trans hnd)
      exact congrArg Glide.current same
    · intro same
      exact congrArg Glide.rest (same _ node)
  rw [ranges, starts]

end Exact

/-! ### A sine whose pitch is a rune parameter -/

section Pitched

open Lang GraphInstance

/-- `rune r(f = x) out sine(f) end`. -/
def pitchedProgram (x : ℝ) : Program ℝ where
  sigils := []
  runes := [⟨"r", [⟨"f", some (.number {} x), {}⟩],
    [.out {} (.call {} "sine" [("", .ident {} "f")]) "" (-1)], {}⟩]

/-- What it is lowered to. -/
noncomputable def pitched (x : ℝ) : GraphBlueprint ℝ where
  nodes := [Nodes.oscillator x]
  names := ["sine#1"]
  outputTerminals := [⟨"out", 0, [⟨0, 0, false⟩]⟩]
  params := [⟨"f", x, [⟨0, 0⟩], false⟩]
  outputNode := 0

theorem lower_pitched (x : ℝ) : lower 4 (pitchedProgram x) standardRegistry
    = some ⟨[⟨"r", pitched x⟩], []⟩ := by
  have name : "sine" ++ "#" ++ toString 1 = "sine#1" := rfl
  calc lower 4 (pitchedProgram x) standardRegistry
      = some ⟨[⟨"r", { pitched x with names := ["sine" ++ "#" ++ toString 1] }⟩], []⟩ := rfl
    _ = some ⟨[⟨"r", pitched x⟩], []⟩ := by rw [name]; rfl

theorem pitched_standard (x : ℝ) : (pitched x).Standard where
  wired := .bare rfl rfl
  made nd hnd := by
    obtain rfl := List.mem_singleton.mp hnd
    exact ⟨"sine", ⟨[], [.number x]⟩, rfl⟩
  targets q hq t ht := by
    obtain rfl := List.mem_singleton.mp hq
    obtain rfl := List.mem_singleton.mp ht
    exact ⟨Nat.one_pos, Nat.one_pos⟩

theorem controls_in_range_pitched :
    ∃ g, instantiate (compile (pitched 220) 64) 48000 = some g ∧
      (∀ ops : List (ControlOp ℝ), (ops.foldl perform g).InRange) ∧ g.StartsAlike := by
  have within : (0 : ℝ) ≤ 220 ∧ (220 : ℝ) ≤ ((20000 : ℕ) : ℝ) := by norm_num
  have allows : (Nodes.oscillator (220 : ℝ)).Allows 0 220 := by
    intro pd hpd
    obtain rfl := Option.some.inj hpd
    exact within
  obtain ⟨g, built⟩ : ∃ g, instantiate (compile (pitched 220) 64) 48000 = some g := ⟨_, rfl⟩
  refine ⟨g, built, (controls_in_range_iff (pitched_standard 220) built).mpr
    ⟨fun nd hnd p port => ?_, fun q hq _ writes ok w hw nd node => ?_⟩⟩
  · obtain rfl := List.mem_singleton.mp hnd
    obtain rfl : p = 0 := Nat.lt_one_iff.mp port
    exact allows
  · obtain rfl := List.mem_singleton.mp hq
    cases ok
    obtain rfl := List.mem_singleton.mp hw
    obtain rfl := Option.some.inj node
    exact (clampTo_of_allows allows).symm

/-- A default out of range is not clamped, and the same value given to `spawn` is. -/
theorem default_not_clamped :
    ∃ bp g, lower 4 (pitchedProgram 30000) standardRegistry = some ⟨[⟨"r", bp⟩], []⟩ ∧
      instantiate (compile bp 64) 48000 = some g ∧ ¬ g.InRange ∧ ¬ g.StartsAlike := by
  obtain ⟨g, built⟩ : ∃ g, instantiate (compile (pitched 30000) 64) 48000 = some g := ⟨_, rfl⟩
  obtain ⟨R, hbp, defaults⟩ := ready_of_compile (pitched_standard 30000).wired built
  have node : g.sched.bp.nodes[0]? = some (Nodes.oscillator 30000) := by rw [hbp]; rfl
  have start := defaults 0 (Nodes.oscillator 30000) 0 rfl Nat.one_pos
  refine ⟨_, g, lower_pitched 30000, built, fun h => ?_, fun h => ?_⟩
  · obtain ⟨-, high⟩ := (h 0 (Nodes.oscillator 30000) 0 node Nat.one_pos).1 _ rfl
    rw [start] at high
    have high : (30000 : ℝ) ≤ ((20000 : ℕ) : ℝ) := high
    norm_num at high
  · rw [StartsAlike, hbp] at h
    have same := h _ List.mem_cons_self rfl [⟨0, 0, 30000⟩] rfl _ List.mem_cons_self
    have override : (g.spawnedWith [⟨0, 0, 30000⟩]).glide 0 0 = _ :=
      spawnedWith_glide R node Nat.one_pos (x := 30000) (by simp)
        (.inr ⟨_, List.mem_cons_self, rfl, rfl⟩)
    rw [start, override] at same
    have same : (30000 : ℝ) = clampTo (Nodes.oscillator 30000) 0 30000 :=
      congrArg Glide.current same
    have clamped := (allows_clampTo (standardRegistry_rangesProper
      ((pitched_standard 30000).made _ List.mem_cons_self)) 0 30000 _ rfl).2
    rw [← same] at clamped
    have high : (30000 : ℝ) ≤ ((20000 : ℕ) : ℝ) := clamped
    norm_num at high

end Pitched

end Xrune
