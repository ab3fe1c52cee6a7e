import Xrune.Schedule.Waves

/-!
# Nodes — what the nodes of the language's operators sound like

The lowerer makes nodes for arithmetic, for sums and for `_`.  With their ports at their defaults
they do to waves what the operators mean, in exact arithmetic.
-/

namespace Xrune

namespace Node

variable {α : Type} {nd : Node α} {x p : Nat → Option (Wave α)} {w : Wave α} {sr c : Nat}

/-- A node runs at the rate of its first input, where a wave reaches it. -/
theorem reachingRate_of_first (pos : 0 < nd.inputsCount) (first : x 0 = some w) :
    nd.reachingRate x p = w.rate := by
  obtain ⟨n, hn⟩ := Nat.exists_eq_succ_of_ne_zero pos.ne'
  rw [reachingRate, hn, List.range_succ_eq_map, List.map_cons, first, List.cons_append,
    List.reduceOption_cons_of_some]
  rfl

/-- A node that nothing reaches runs at the base rate. -/
theorem reachingRate_of_none (inputs : ∀ c < nd.inputsCount, x c = none)
    (ports : ∀ q < nd.paramsCount, p q = none) : nd.reachingRate x p = 1 := by
  have empty : ((List.range nd.inputsCount).map x
      ++ (List.range nd.paramsCount).map p).reduceOption = [] := by
    refine List.eq_nil_iff_forall_not_mem.mpr fun w hw => ?_
    rcases List.mem_append.mp (List.reduceOption_mem_iff.mp hw) with mem | mem <;>
      obtain ⟨c, hc, eq⟩ := List.mem_map.mp mem
    · rw [inputs c (List.mem_range.mp hc)] at eq
      cases eq
    · rw [ports c (List.mem_range.mp hc)] at eq
      cases eq
  rw [reachingRate, empty]
  rfl

variable [Sample α] [Sample.Steady α] {f : (Nat → α) → (Nat → α) → Nat → α}

/-- A node that works sample by sample makes of the samples of a moment those of the moment. -/
theorem sound_pointwise (R : nd.Realises (.pointwise f)) (hc : c < nd.outputsCount) :
    nd.sound sr x p c = ⟨nd.reachingRate x p, fun t => f
      (fun d => if d < nd.inputsCount then Wave.level 0 (x d) t else 0)
      (fun q => if q < nd.paramsCount then Wave.level (nd.paramDefault q) (p q) t else 0) c⟩ := by
  have num : nd.rateNum = 1 := R.num
  have den : nd.rateDen = 1 := R.den
  rw [sound, num, den, Nat.mul_one, Nat.div_one, Wave.mk.injEq]
  refine ⟨rfl, funext fun t => ?_⟩
  rw [← R.solo (num ▸ Nat.one_pos) hc (fun _ _ => rfl) (fun _ _ => rfl) t,
    SampleMachine.play_pointwise]

end Node

namespace Nodes

section Operators

variable {K : Type} [Field K] [LinearOrder K] [FloorRing K] {x : Nat → Option (Wave K)}
  {v w : Wave K} (sr : Nat)

theorem sound_gain (k : K) (hx : x 0 = some w) :
    (gain k).sound sr x (fun _ => none) 0 = w.map (· * k) := by
  rw [Node.sound_pointwise (realises_gain k) Nat.one_pos,
    Node.reachingRate_of_first Nat.one_pos hx]
  simp [gain, Wave.map, Node.paramsCount, hx]

theorem sound_inverter (hx : x 0 = some w) :
    (inverter : Node K).sound sr x (fun _ => none) 0 = w.map (- ·) := by
  rw [Node.sound_pointwise realises_inverter Nat.one_pos,
    Node.reachingRate_of_first Nat.one_pos hx]
  simp [inverter, Wave.map, hx]

theorem sound_constant (k : K) :
    (constant k).sound sr x (fun _ => none) 0 = .constant k := by
  rw [Node.sound_pointwise (realises_constant k) Nat.one_pos,
    Node.reachingRate_of_none (fun c hc => absurd hc (Nat.not_lt_zero c)) fun _ _ => rfl]
  simp [constant, Wave.constant, Node.paramsCount]

section Binary

variable (hx : x 0 = some v) (hy : x 1 = some w)

include hx hy

theorem sound_add : (add : Node K).sound sr x (fun _ => none) 0 = .zip (· + ·) v w := by
  rw [Node.sound_pointwise realises_add Nat.one_pos, Node.reachingRate_of_first Nat.two_pos hx]
  simp [add, Wave.zip, hx, hy]

theorem sound_multiply : (multiply : Node K).sound sr x (fun _ => none) 0 = .zip (· * ·) v w := by
  rw [Node.sound_pointwise realises_multiply Nat.one_pos,
    Node.reachingRate_of_first Nat.two_pos hx]
  simp [multiply, Wave.zip, hx, hy]

omit hx hy in
/-- The node's guard is the field's convention. -/
theorem quotient_eq (a b : K) : quotient a b = a / b := by
  show (if decide (b = 0) = true then (0 : K) else a / b) = a / b
  by_cases zero : b = 0
  · rw [if_pos (decide_eq_true zero), zero, div_zero]
  · rw [if_neg fun h => zero (of_decide_eq_true h)]

theorem sound_divide : (divide : Node K).sound sr x (fun _ => none) 0 = .zip (· / ·) v w := by
  rw [Node.sound_pointwise realises_divide Nat.one_pos,
    Node.reachingRate_of_first Nat.two_pos hx]
  simp [divide, Wave.zip, hx, hy, quotient_eq]

end Binary

theorem sumOver_eq (f : Nat → K) (l : List Nat) : sumOver l f = (l.map f).sum := by
  rw [sumOver, List.sum_eq_foldl, List.foldl_map]

/-- A mixer sums the waves at its inputs. -/
theorem sound_mixer {ws : List (Wave K)} (hx : ∀ j, x j = ws[j]?) :
    (mixer ws.length).sound sr x (fun _ => none) 0 = .sum ws := by
  have rate : (mixer ws.length : Node K).reachingRate x (fun _ => none)
      = (ws.head?.map Wave.rate).getD 1 := by
    cases ws with
    | nil =>
        exact Node.reachingRate_of_none (fun c hc => absurd hc (Nat.not_lt_zero c)) fun _ _ => rfl
    | cons w ws => exact Node.reachingRate_of_first (Nat.succ_pos _) (hx 0)
  rw [Node.sound_pointwise (realises_mixer _) Nat.one_pos, rate, Wave.sum, Wave.mk.injEq]
  refine ⟨rfl, funext fun t => ?_⟩
  rw [sumOver_eq]
  refine congrArg List.sum (List.ext_getElem (by simp) fun i hi _ => ?_)
  have lt : i < ws.length := by simpa using hi
  simp [mixer, lt, hx]

/-- An adapter of one channel to one passes on what it gets. -/
theorem sound_wire : (channelAdapter 1 1 : Node K).sound sr x (fun _ => none) 0
    = (x 0).getD .silence := by
  rw [Node.sound_pointwise (realises_channelAdapter 1 1) Nat.one_pos]
  cases hx : x 0 with
  | none =>
      rw [Node.reachingRate_of_none (fun c hc => ?_) fun _ _ => rfl]
      · simp [channelAdapter, adapt, sumOver, Wave.silence, Wave.constant, hx]
      · exact Nat.lt_one_iff.mp hc ▸ hx
  | some w =>
      rw [Node.reachingRate_of_first Nat.one_pos hx]
      simp [channelAdapter, adapt, sumOver, hx]

end Operators

end Nodes

end Xrune
