import Xrune.Support.Fourier
import Xrune.Support.DelayLine
import Xrune.Core.Ring
import Xrune.Nodes.Ends
import Xrune.Nodes.FftSafe

/-!
# Nodes — the plan computes the transform

The plan permutes its arrays by bit reversal and then makes `log n` passes of butterflies in place.
After the pass of length `2 ^ r` each block of that length holds the transform of every
`2 ^ (m - r)`-th sample, from the one the block's bits reversed say (`Stage`).  Over a commutative
ring `forward` so leaves the discrete Fourier transform, and `inverse` undoes it.
-/

namespace Xrune.Nodes

open Access

/-! ### Bit reversal -/

theorem testBit_bitReverse (m i b : Nat) :
    (bitReverse m i).testBit b = (decide (b < m) && i.testBit (m - 1 - b)) := by
  have along : ∀ k ≤ m, ((List.range k).foldl
      (fun r b => if i.testBit b then r ||| 2 ^ (m - 1 - b) else r) 0).testBit b
        = (decide (b < m) && (decide (m - 1 - b < k) && i.testBit (m - 1 - b))) := by
    intro k hk
    induction k with
    | zero => simp
    | succ k ih =>
        rw [List.range_succ, List.foldl_append, List.foldl_cons, List.foldl_nil]
        have ih := ih (by omega)
        by_cases hb : b < m
        · by_cases here : m - 1 - b = k
          · have same : m - 1 - k = b := by omega
            split_ifs with hbit
            · rw [Nat.testBit_or, ih, Nat.testBit_two_pow, here, hbit, same]
              simp [hb]
            · rw [ih, here, Bool.eq_false_iff.mpr hbit]
              simp
          · have other : ¬m - 1 - k = b := by omega
            have before : (m - 1 - b < k + 1) = (m - 1 - b < k) := propext (by omega)
            split_ifs with hbit
            · rw [Nat.testBit_or, ih, Nat.testBit_two_pow]
              simp [other, before]
            · rw [ih]
              simp [before]
        · have high : ¬m - 1 - k = b := by omega
          split_ifs with hbit
          · rw [Nat.testBit_or, ih, Nat.testBit_two_pow]
            simp [high, hb]
          · rw [ih]
            simp [hb]
  rw [bitReverse, along m le_rfl]
  by_cases hb : b < m
  · simp [hb, show m - 1 - b < m by omega]
  · simp [hb]

/-- Reversing the bits twice gives the index back. -/
theorem bitReverse_bitReverse {m i : Nat} (hi : i < 2 ^ m) :
    bitReverse m (bitReverse m i) = i := by
  refine Nat.eq_of_testBit_eq fun b => ?_
  rw [testBit_bitReverse, testBit_bitReverse]
  by_cases hb : b < m
  · simp [hb, show m - 1 - b < m by omega, show m - 1 - (m - 1 - b) = b by omega]
  · have high : i.testBit b = false :=
      Nat.testBit_lt_two_pow (lt_of_lt_of_le hi (Nat.pow_le_pow_right two_pos (by omega)))
    simp [hb, high]

/-- The lowest bit goes to the top. -/
theorem bitReverse_two_mul (s c : Nat) : bitReverse (s + 1) (2 * c) = bitReverse s c := by
  refine Nat.eq_of_testBit_eq fun b => ?_
  rw [testBit_bitReverse, testBit_bitReverse]
  by_cases hb : b < s
  · rw [show s + 1 - 1 - b = s - 1 - b + 1 by omega, Nat.testBit_succ,
      Nat.mul_div_cancel_left c two_pos]
    simp [hb, show b < s + 1 by omega]
  · by_cases top : b = s
    · subst top
      simp
    · simp [hb, show ¬b < s + 1 by omega]

theorem bitReverse_two_mul_add_one (s c : Nat) :
    bitReverse (s + 1) (2 * c + 1) = 2 ^ s + bitReverse s c := by
  have disjoint : 2 ^ s + bitReverse s c = 2 ^ s ||| bitReverse s c := by
    simpa only [mul_one] using Nat.two_pow_add_eq_or_of_lt (bitReverse_lt s c) 1
  refine Nat.eq_of_testBit_eq fun b => ?_
  rw [disjoint, Nat.testBit_or, Nat.testBit_two_pow, testBit_bitReverse, testBit_bitReverse]
  by_cases hb : b < s
  · rw [show s + 1 - 1 - b = s - 1 - b + 1 by omega, Nat.testBit_succ,
      show (2 * c + 1) / 2 = c by omega]
    simp [hb, show b < s + 1 by omega, show ¬s = b by omega]
  · by_cases top : b = s
    · subst top
      simp
    · simp [hb, show ¬b < s + 1 by omega, show ¬s = b by omega]

/-! ### Split complex numbers -/

/-- A complex number, given as its two parts. -/
abbrev Split (R : Type) [CommRing R] := QuadraticAlgebra R (-1) 0

/-- The plan of size `n` with the given tables. -/
def FftPlan.withTables {α : Type} (n : Nat) (twCos twSin : List α) : FftPlan α where
  n := n
  brev := (List.range n).map (bitReverse (fftLevels n))
  twCos := twCos
  twSin := twSin

theorem FftPlan.init_eq {α : Type} [Sample α] [Trig α] (n : Nat) :
    (FftPlan.init n : FftPlan α) = .withTables n
      ((List.range (n / 2)).map fun k => Trig.cos (fftAngle n k))
      ((List.range (n / 2)).map fun k => Trig.sin (fftAngle n k)) := rfl

variable {R : Type} [CommRing R]

theorem Split.natCast_mul (n : Nat) (z : Split R) : (n : Split R) * z = ⟨n * z.re, n * z.im⟩ := by
  ext <;> simp

/-- The twiddle factor `k`, as `forward` and as `inverse` take it. -/
def FftPlan.twiddle (p : FftPlan R) (inv : Bool) (k : Nat) : Split R :=
  ⟨asStream p.twCos k, if inv then asStream p.twSin k else -asStream p.twSin k⟩

/-- The frames `P v` hold the vector `v` in two lanes of `n` samples: a read gives an entry, a write
changes one. -/
structure Lanes (n : Nat) (re im : Lane R) (P : (Nat → Split R) → Frame R → Prop) : Prop where
  getRe : ∀ v i, i < n → Ends (P v) (re.get i) fun x f => x = (v i).re ∧ P v f
  getIm : ∀ v i, i < n → Ends (P v) (im.get i) fun x f => x = (v i).im ∧ P v f
  putRe : ∀ v i x, i < n →
    Ends (P v) (re.put i x) fun _ => P (Function.update v i ⟨x, (v i).im⟩)
  putIm : ∀ v i x, i < n →
    Ends (P v) (im.put i x) fun _ => P (Function.update v i ⟨(v i).re, x⟩)

namespace Lanes

variable {n : Nat} {re im : Lane R} {P : (Nat → Split R) → Frame R → Prop}

/-- Both parts of an entry written. -/
theorem put (h : Lanes n re im P) (v : Nat → Split R) {i : Nat} (hi : i < n) (z : Split R) :
    Ends (P v) (do re.put i z.re; im.put i z.im) fun _ => P (Function.update v i z) := by
  refine (h.putRe v i z.re hi).bind fun _ => ?_
  refine (h.putIm _ i z.im hi).post fun _ f hf => ?_
  rw [Function.update_self, Function.update_idem] at hf
  exact hf

/-- The entries of the vector the frame holds meet `A`. -/
def Holding (P : (Nat → Split R) → Frame R → Prop) (A : (Nat → Split R) → Prop)
    (f : Frame R) : Prop := ∃ v, A v ∧ P v f

theorem ends_holding {m : Access R Unit} {A B : (Nat → Split R) → Prop}
    (h : ∀ v, A v → Ends (P v) m fun _ f => Holding P B f) :
    Ends (Holding P A) m fun _ => Holding P B :=
  Ends.given_exists fun v f hf => h v hf.1 f hf.2

/-- Two entries exchanged, in both lanes. -/
theorem swap (h : Lanes n re im P) (v : Nat → Split R) {i j : Nat} (hi : i < n) (hj : j < n)
    (hij : i ≠ j) :
    Ends (P v) (do re.swap i j; im.swap i j) fun _ =>
      P (Function.update (Function.update v i (v j)) j (v i)) := by
  have one (l : Lane R) (part : Split R → R) (with' : Split R → R → Split R)
      (get : ∀ v i, i < n → Ends (P v) (l.get i) fun x f => x = part (v i) ∧ P v f)
      (put : ∀ v i x, i < n → Ends (P v) (l.put i x) fun _ => P (Function.update v i (with' (v i) x)))
      (v : Nat → Split R) :
      Ends (P v) (l.swap i j) fun _ => P (Function.update
        (Function.update v i (with' (v i) (part (v j)))) j (with' (v j) (part (v i)))) := by
    refine (get v i hi).bindEq <| (get v j hj).bindEq <| (put v i _ hi).bind fun _ => ?_
    refine (put _ j _ hj).post fun _ f hf => ?_
    rwa [Function.update_of_ne hij.symm] at hf
  refine (one re (·.re) (fun z x => ⟨x, z.im⟩) h.getRe h.putRe v).bind fun _ => ?_
  refine (one im (·.im) (fun z x => ⟨z.re, x⟩) h.getIm h.putIm _).post fun _ f hf => ?_
  convert hf using 1
  funext p
  by_cases hp : p = j
  · subst hp
    simp [Function.update_of_ne hij]
  · by_cases hq : p = i
    · subst hq
      simp [Function.update_of_ne hp]
    · simp [Function.update_of_ne hp, Function.update_of_ne hq]

end Lanes

/-! ### A pass -/

/-- The entry `i` after a pass of the length `2 * half`. -/
def passed (half step : Nat) (tw : Nat → Split R) (v : Nat → Split R) (i : Nat) : Split R :=
  if i % (2 * half) < half then v i + tw (i % (2 * half) * step) * v (i + half)
  else v (i - half) - tw ((i % (2 * half) - half) * step) * v i

/-- A vector part of which is past the pass. -/
def Partly (n : Nat) (done : Nat → Prop) (w v v' : Nat → Split R) : Prop :=
  ∀ i < n, (done i → v' i = w i) ∧ (¬done i → v' i = v i)

theorem Partly.congr {n : Nat} {done done' : Nat → Prop} {w v v' : Nat → Split R}
    (h : Partly n done w v v') (same : ∀ i, done i ↔ done' i) : Partly n done' w v v' := by
  intro i hi
  rw [← same i]
  exact h i hi

/-- The butterflies of a pass touch two entries each, which none has touched before. -/
theorem partly_butterfly {half step c j : Nat} {tw v v' : Nat → Split R} {done done' : Nat → Prop}
    (hj : j < half) (fits : c * (2 * half) + j + half < n)
    (sofar : Partly n done (passed half step tw v) v v')
    (fresh : ¬done (c * (2 * half) + j)) (fresh' : ¬done (c * (2 * half) + j + half))
    (next : ∀ i, done' i ↔ done i ∨ i = c * (2 * half) + j ∨ i = c * (2 * half) + j + half) :
    Partly n done' (passed half step tw v) v
      (Function.update (Function.update v' (c * (2 * half) + j + half)
        (v' (c * (2 * half) + j) - tw (j * step) * v' (c * (2 * half) + j + half)))
        (c * (2 * half) + j)
        (v' (c * (2 * half) + j) + tw (j * step) * v' (c * (2 * half) + j + half))) := by
  have ha := (sofar (c * (2 * half) + j) (by omega)).2 fresh
  have hb := (sofar (c * (2 * half) + j + half) fits).2 fresh'
  have low : (c * (2 * half) + j) % (2 * half) = j := Nat.mul_add_mod_of_lt (by omega)
  have high : (c * (2 * half) + j + half) % (2 * half) = j + half := by
    rw [add_assoc, Nat.mul_add_mod_of_lt (by omega)]
  rw [ha, hb]
  intro i hi
  rw [next i]
  generalize c * (2 * half) + j = a at *
  by_cases hia : i = a
  · subst hia
    refine ⟨fun _ => ?_, fun h => absurd (.inr (.inl rfl)) h⟩
    rw [Function.update_self, passed, low, if_pos hj]
  by_cases hib : i = a + half
  · subst hib
    refine ⟨fun _ => ?_, fun h => absurd (.inr (.inr rfl)) h⟩
    rw [Function.update_of_ne hia, Function.update_self, passed, high, if_neg (by omega),
      Nat.add_sub_cancel, Nat.add_sub_cancel]
  · rw [Function.update_of_ne hia, Function.update_of_ne hib]
    simpa only [hia, hib, or_false] using sofar i hi

/-- After the pass of the length `2 ^ r`: each block holds the transform of every `2 ^ (m - r)`-th
sample, from the one its bits reversed say. -/
def Stage (W : Split R) (m : Nat) (x : Nat → Split R) (r : Nat) (v : Nat → Split R) : Prop :=
  ∀ c < 2 ^ (m - r), ∀ j < 2 ^ r, v (c * 2 ^ r + j)
    = dft (W ^ 2 ^ (m - r)) (2 ^ r) (fun l => x (bitReverse (m - r) c + 2 ^ (m - r) * l)) j

theorem Stage.start {W : Split R} {m : Nat} {x v : Nat → Split R}
    (h : ∀ i < 2 ^ m, v i = x (bitReverse m i)) : Stage W m x 0 v := by
  intro c hc j hj
  obtain rfl : j = 0 := by simpa using hj
  simpa using h c hc

theorem Stage.finish {W : Split R} {m : Nat} {x v : Nat → Split R} (h : Stage W m x m v)
    {k : Nat} (hk : k < 2 ^ m) : v k = dft W (2 ^ m) x k := by
  have whole := h 0 (by simp) k hk
  have none : bitReverse 0 0 = 0 := rfl
  simpa [none] using whole

/-- The even and the odd samples of a block of the next stage are two blocks of this one. -/
theorem Stage.step {W : Split R} {m r s : Nat} {x v v' : Nat → Split R} {tw : Nat → Split R}
    (hm : m = r + 1 + s) (htw : ∀ k < 2 ^ r * 2 ^ s, tw k = W ^ k) (half : W ^ (2 ^ r * 2 ^ s) = -1)
    (h : Stage W m x r v) (hv : ∀ i < 2 ^ m, v' i = passed (2 ^ r) (2 ^ s) tw v i) :
    Stage W m x (r + 1) v' := by
  have hr : m - r = s + 1 := by omega
  have hr' : m - (r + 1) = s := by omega
  have size : 2 ^ m = 2 ^ s * (2 * 2 ^ r) := by rw [hm]; ring
  have turn : (W ^ 2 ^ s) ^ 2 ^ r = -1 := by rw [← pow_mul, mul_comm, half]
  have square : W ^ 2 ^ (s + 1) = (W ^ 2 ^ s) ^ 2 := by rw [← pow_mul, pow_succ]
  rw [Stage, hr] at h
  rw [Stage, hr']
  intro c hc j hj
  rw [pow_succ, mul_comm _ 2] at hj ⊢
  have hpos : 0 < 2 ^ r := Nat.two_pow_pos r
  have room : (c + 1) * (2 * 2 ^ r) ≤ 2 ^ m := by
    rw [size]
    exact Nat.mul_le_mul_right _ hc
  rw [add_mul, one_mul] at room
  -- the two blocks of the stage before
  let y (l : Nat) : Split R := x (bitReverse s c + 2 ^ s * l)
  have blocks : c * 2 < 2 ^ (s + 1) ∧ c * 2 + 1 < 2 ^ (s + 1) := by rw [pow_succ]; omega
  have evens : ∀ i < 2 ^ r, v (c * (2 * 2 ^ r) + i)
      = dft ((W ^ 2 ^ s) ^ 2) (2 ^ r) (fun l => y (2 * l)) i := by
    intro i hi
    rw [← mul_assoc, h (c * 2) blocks.1 i hi, square, mul_comm c 2, bitReverse_two_mul]
    exact dft_congr fun l _ => by simp only [y]; congr 2; ring
  have odds : ∀ i < 2 ^ r, v (c * (2 * 2 ^ r) + i + 2 ^ r)
      = dft ((W ^ 2 ^ s) ^ 2) (2 ^ r) (fun l => y (2 * l + 1)) i := by
    intro i hi
    have place : c * (2 * 2 ^ r) + i + 2 ^ r = (c * 2 + 1) * 2 ^ r + i := by ring
    rw [place, h (c * 2 + 1) blocks.2 i hi, square, mul_comm c 2, bitReverse_two_mul_add_one]
    exact dft_congr fun l _ => by simp only [y]; congr 1; ring
  have twiddle : ∀ i < 2 ^ r, tw (i * 2 ^ s) = (W ^ 2 ^ s) ^ i := by
    intro i hi
    rw [htw _ (Nat.mul_lt_mul_of_pos_right hi (Nat.two_pow_pos s)), ← pow_mul, mul_comm]
  rw [hv _ (by omega), passed, Nat.mul_add_mod_of_lt hj]
  by_cases low : j < 2 ^ r
  · rw [if_pos low, evens j low, odds j low, twiddle j low]
    exact dft_low _ _ y j
  · obtain ⟨i, rfl⟩ : ∃ i, j = 2 ^ r + i := ⟨j - 2 ^ r, by omega⟩
    have hi : i < 2 ^ r := by omega
    have back : c * (2 * 2 ^ r) + (2 ^ r + i) - 2 ^ r = c * (2 * 2 ^ r) + i := by omega
    have here : c * (2 * 2 ^ r) + (2 ^ r + i) = c * (2 * 2 ^ r) + i + 2 ^ r := by omega
    rw [if_neg low, back, Nat.add_sub_cancel_left, here, evens i hi, odds i hi, twiddle i hi]
    exact dft_high turn y i

attribute [local instance] Sample.ofRing

variable [Sample.Rest R] {n : Nat} {re im : Lane R} {P : (Nat → Split R) → Frame R → Prop}
  {p : FftPlan R} {inv : Bool}

open Lanes

/-- A butterfly at two entries. -/
theorem ends_butterfly (h : Lanes n re im P) {k a b : Nat} (hcos : k < p.twCos.length)
    (hsin : k < p.twSin.length) (ha : a < n) (hb : b < n) (hab : a ≠ b) (v : Nat → Split R) :
    Ends (P v) (p.butterfly re im inv k a b) fun _ =>
      P (Function.update (Function.update v b (v a - p.twiddle inv k * v b)) a
        (v a + p.twiddle inv k * v b)) := by
  refine (ends_nth (getElem?_eq_asStream hcos)).bindEq <|
    (ends_nth (getElem?_eq_asStream hsin)).bindEq ?_
  refine (h.getRe v b hb).bindEq <| (h.getIm v b hb).bindEq <| (h.getRe v a ha).bindEq <|
    (h.getIm v a ha).bindEq ?_
  refine (h.putRe v b _ hb).bind fun _ => (h.putIm _ b _ hb).bind fun _ =>
    (h.putRe _ a _ ha).bind fun _ => (h.putIm _ a _ ha).post fun _ f hf => ?_
  convert hf using 1
  simp only [Function.update_self, Function.update_idem, Function.update_of_ne hab]
  congr 1
  · congr 1
    cases inv <;> ext <;> (simp [FftPlan.twiddle]; try ring)
  · cases inv <;> ext <;> (simp [FftPlan.twiddle]; try ring)

/-- One pass over the arrays. -/
theorem ends_pass (h : Lanes n re im P) {half step : Nat} (hp : p.n = n)
    (hn : n = 2 * half * step) (hhalf : 0 < half) (hcos : p.twCos.length = half * step)
    (hsin : p.twSin.length = half * step) (v : Nat → Split R) :
    Ends (P v) (p.pass re im inv (2 * half)) fun _ =>
      Holding P fun v' => ∀ i < n, v' i = passed half step (p.twiddle inv) v i := by
  have hstep : n / (2 * half) = step := by rw [hn, Nat.mul_div_cancel_left step (by omega)]
  have hcount : (n + 2 * half - 1) / (2 * half) = step := by
    rw [hn, Nat.add_sub_assoc (by omega), Nat.mul_add_div (by omega), Nat.div_eq_of_lt (by omega)]
    rfl
  -- within a block, after `j` butterflies, and after whole blocks
  let within (c j i : Nat) : Prop := i < c * (2 * half) ∨
    c * (2 * half) ≤ i ∧ i < c * (2 * half) + j ∨
    c * (2 * half) + half ≤ i ∧ i < c * (2 * half) + half + j
  let after (done : Nat → Prop) : Frame R → Prop :=
    Holding P (Partly n done (passed half step (p.twiddle inv) v) v)
  have block : ∀ c < step, Ends (after (· < c * (2 * half)))
      (loop half fun j =>
        p.butterfly re im inv (j * step) (c * (2 * half) + j) (c * (2 * half) + j + half))
      fun _ => after (· < (c + 1) * (2 * half)) := by
    intro c hc
    have room : (c + 1) * (2 * half) ≤ n := by
      rw [hn, mul_comm (2 * half)]
      exact Nat.mul_le_mul_right _ hc
    rw [add_mul, one_mul] at room
    have turn : ∀ j < half, Ends (after (within c j))
        (p.butterfly re im inv (j * step) (c * (2 * half) + j) (c * (2 * half) + j + half))
        fun _ => after (within c (j + 1)) := by
      intro j hj
      have twiddle : j * step < half * step := Nat.mul_lt_mul_of_pos_right hj (by omega)
      refine ends_holding fun v' sofar => ?_
      refine (ends_butterfly h (by omega) (by omega) (by omega) (by omega) (by omega) v').post
        fun _ f hf => ⟨_, ?_, hf⟩
      refine partly_butterfly hj (by omega) sofar ?_ ?_ fun i => ?_
      all_goals simp only [within]; omega
    refine (ends_loop turn).mono (fun f hf => ?_) fun _ f hf => ?_
    · obtain ⟨v', sofar, hf⟩ := hf
      refine ⟨v', sofar.congr fun i => ?_, hf⟩
      simp only [within]
      omega
    · obtain ⟨v', sofar, hf⟩ := hf
      refine ⟨v', sofar.congr fun i => ?_, hf⟩
      simp only [within, add_mul, one_mul]
      omega
  have double : 2 * half / 2 = half := Nat.mul_div_cancel_left half two_pos
  refine Ends.bindEq (b := step) (S := P v) ?_ ?_
  · rw [hp]
    refine (ends_divide (by omega)).post fun r f hr => ?_
    rw [hstep] at hr
    exact hr
  rw [hp, double, fftStarts, hcount, List.forM_eq_forM, List.forM_map, ← List.forM_eq_forM]
  refine (Ends.range block).mono (fun f hf => ⟨v, fun i _ => ?_, hf⟩) fun _ f hf => ?_
  · exact ⟨fun h => absurd h (by omega), fun _ => rfl⟩
  · obtain ⟨v', whole, hf⟩ := hf
    refine ⟨v', fun i hi => (whole i hi).1 ?_, hf⟩
    rw [mul_comm, ← hn]
    exact hi

/-! ### The transform -/

omit [Sample.Rest R] in
/-- The permutation, an involution. -/
theorem ends_permute (h : Lanes n re im P) {rev : Nat → Nat} (hp : p.n = n)
    (hbrev : p.brev = (List.range n).map rev) (within : ∀ i < n, rev i < n)
    (twice : ∀ i < n, rev (rev i) = i) (v : Nat → Split R) :
    Ends (P v) (p.permute re im) fun _ => Holding P fun v' => ∀ i < n, v' i = v (rev i) := by
  let after (k : Nat) : Frame R → Prop :=
    Holding P (Partly n (fun i => i < k ∨ rev i < k) (fun i => v (rev i)) v)
  have turn : ∀ k < n, Ends (after k) (do
      let j ← nth p.brev k
      if k < j then do
        re.swap k j
        im.swap k j) fun _ => after (k + 1) := by
    intro k hk
    have entry : p.brev[k]? = some (rev k) := by
      rw [hbrev, List.getElem?_map, List.getElem?_range hk]
      rfl
    refine (ends_nth entry).bindEq (.ite (fun up => ?_) fun down => ?_)
    · refine ends_holding fun v' sofar => ?_
      refine (h.swap v' hk (within k hk) (by omega)).post fun _ f hf => ⟨_, fun i hi => ?_, hf⟩
      have hkv := (sofar k hk).2 (by omega)
      have hjv := (sofar (rev k) (within k hk)).2 (by simp only [twice k hk]; omega)
      by_cases hij : i = rev k
      · subst hij
        refine ⟨fun _ => ?_, fun fresh => absurd (.inr ?_) fresh⟩
        · rw [Function.update_self, hkv]
          simp only [twice k hk]
        · rw [twice k hk]; omega
      by_cases hik : i = k
      · subst hik
        refine ⟨fun _ => ?_, fun fresh => absurd (.inl (by omega)) fresh⟩
        rw [Function.update_of_ne hij, Function.update_self, hjv]
      · have other : rev i ≠ k := fun heq => hij (by rw [← heq, twice i hi])
        rw [Function.update_of_ne hij, Function.update_of_ne hik]
        refine ⟨fun done => (sofar i hi).1 (by omega), fun fresh => (sofar i hi).2 (by omega)⟩
    · refine .pure fun f hf => ?_
      obtain ⟨v', sofar, hf⟩ := hf
      refine ⟨v', fun i hi => ?_, hf⟩
      by_cases before : i < k ∨ rev i < k
      · exact ⟨fun _ => (sofar i hi).1 before, fun fresh => absurd (by omega) fresh⟩
      · refine ⟨fun done => ?_, fun fresh => (sofar i hi).2 (by omega)⟩
        -- what is new is a fixed point of the permutation
        have fixed : rev i = i := by
          rcases done with done | done
          · obtain rfl : i = k := by omega
            omega
          · have : rev i = k := by omega
            rw [← this, twice i hi] at down
            omega
        rw [(sofar i hi).2 before]
        simp only [fixed]
  refine (ends_loop (n := p.n) fun k hk => turn k (hp ▸ hk)).mono (fun f hf => ⟨v, ?_, hf⟩)
    fun _ f hf => ?_
  · exact fun i _ => ⟨fun h => absurd h (by omega), fun _ => rfl⟩
  · obtain ⟨v', whole, hf⟩ := hf
    exact ⟨v', fun i hi => (whole i hi).1 (.inl (hp.symm ▸ hi)), hf⟩

/-- The tables of a plan hold the powers of `W`, as `forward` or as `inverse` reads them. -/
structure Tabulates (p : FftPlan R) (inv : Bool) (n : Nat) (W : Split R) : Prop where
  size : p.n = n
  brev : p.brev = (List.range n).map (bitReverse (fftLevels n))
  cos : p.twCos.length = n / 2
  sin : p.twSin.length = n / 2
  powers : ∀ k < n / 2, p.twiddle inv k = W ^ k

/-- The permutation and the passes leave the transform. -/
theorem ends_passes (h : Lanes n re im P) (hn : isPowerOfTwo n = true) {W : Split R}
    (tab : Tabulates p inv n W) (half : 2 ≤ n → W ^ (n / 2) = -1) (x : Nat → Split R) :
    Ends (P x) (do p.permute re im; (fftLengths p.n).forM (p.pass re im inv)) fun _ =>
      Holding P fun v => ∀ k < n, v k = dft W n x k := by
  obtain ⟨m, rfl⟩ := isPowerOfTwo_iff.mp hn
  have levels : fftLevels (2 ^ m) = m := Nat.clog_pow 2 m (by omega)
  have permuted := ends_permute h tab.size (by rw [tab.brev, levels])
    (fun i _ => bitReverse_lt m i) (fun i hi => bitReverse_bitReverse hi) x
  refine permuted.bind fun _ => ?_
  have turn : ∀ r < m, Ends (Holding P (Stage W m x r)) (p.pass re im inv (2 ^ (r + 1)))
      fun _ => Holding P (Stage W m x (r + 1)) := by
    intro r hr
    obtain ⟨s, rfl⟩ : ∃ s, m = r + 1 + s := ⟨m - r - 1, by omega⟩
    have size : 2 ^ (r + 1 + s) = 2 * 2 ^ r * 2 ^ s := by ring
    have halves : 2 ^ (r + 1 + s) / 2 = 2 ^ r * 2 ^ s := by
      rw [size, mul_assoc, Nat.mul_div_cancel_left _ two_pos]
    have hW := half (by rw [size, mul_assoc]; have := Nat.two_pow_pos r; have := Nat.two_pow_pos s
                        have := Nat.mul_pos ‹0 < 2 ^ r› ‹0 < 2 ^ s›; omega)
    rw [halves] at hW
    refine ends_holding fun v stage => ?_
    rw [pow_succ, mul_comm _ 2]
    refine (ends_pass h tab.size size (Nat.two_pow_pos r) (by rw [tab.cos, halves])
      (by rw [tab.sin, halves]) v).post fun _ f hf => ?_
    obtain ⟨v', hv', hf⟩ := hf
    exact ⟨v', stage.step rfl (fun k hk => tab.powers k (by rw [halves]; exact hk)) hW hv', hf⟩
  rw [tab.size, fftLengths, Nat.log_pow (by omega), List.forM_eq_forM, List.forM_map,
    ← List.forM_eq_forM]
  refine (Ends.range turn).mono (fun f hf => ?_) fun _ f hf => ?_
  · obtain ⟨v, hv, hf⟩ := hf
    exact ⟨v, .start hv, hf⟩
  · obtain ⟨v, stage, hf⟩ := hf
    exact ⟨v, fun k hk => stage.finish hk, hf⟩

/-- The scaling of `inverse`. -/
theorem ends_scale (h : Lanes n re im P) (hp : p.n = n) (v : Nat → Split R) :
    Ends (P v) (p.scale re im) fun _ => Holding P fun v' =>
      ∀ i < n, v' i = ⟨Sample.Rest.div 1 (n : R), 0⟩ * v i := by
  let z : Split R := ⟨Sample.Rest.div 1 (n : R), 0⟩
  have turn : ∀ k < n, Ends (Holding P (Partly n (· < k) (fun i => z * v i) v)) (do
      let x ← re.get k
      re.put k (x * Sample.Rest.div 1 (n : R))
      let y ← im.get k
      im.put k (y * Sample.Rest.div 1 (n : R)))
      fun _ => Holding P (Partly n (· < k + 1) (fun i => z * v i) v) := by
    intro k hk
    refine ends_holding fun v' sofar => ?_
    refine (h.getRe v' k hk).bindEq <| (h.putRe v' k _ hk).bind fun _ => ?_
    refine (h.getIm _ k hk).bindEq <| (h.putIm _ k _ hk).post fun _ f hf => ⟨_, fun i hi => ?_, hf⟩
    have now := (sofar k hk).2 (by omega)
    by_cases hik : i = k
    · subst hik
      refine ⟨fun _ => ?_, fun fresh => absurd (by omega) fresh⟩
      rw [Function.update_self, Function.update_self, now]
      ext <;> simp [z, mul_comm]
    · rw [Function.update_of_ne hik, Function.update_of_ne hik]
      exact ⟨fun done => (sofar i hi).1 (by omega), fun fresh => (sofar i hi).2 (by omega)⟩
  rw [FftPlan.scale, hp]
  refine (ends_loop turn).mono (fun f hf => ⟨v, fun i _ => ?_, hf⟩) fun _ f hf => ?_
  · exact ⟨fun h => absurd h (by omega), fun _ => rfl⟩
  · obtain ⟨v', whole, hf⟩ := hf
    exact ⟨v', fun i hi => (whole i hi).1 hi, hf⟩

theorem FftPlan.transform_eq (p : FftPlan R) (re im : Lane R) (inv : Bool) :
    p.transform re im inv = (do p.permute re im; (fftLengths p.n).forM (p.pass re im inv)) >>=
      fun _ => if inv then p.scale re im else pure () :=
  (bind_assoc _ _ _).symm

/-- `forward` leaves the transform of what the lanes hold. -/
theorem ends_forward (h : Lanes n re im P) (hn : isPowerOfTwo n = true) {W : Split R}
    (tab : Tabulates p false n W) (half : 2 ≤ n → W ^ (n / 2) = -1) (x : Nat → Split R) :
    Ends (P x) (p.forward re im) fun _ => Holding P fun v => ∀ k < n, v k = dft W n x k := by
  rw [FftPlan.forward, p.transform_eq]
  exact (ends_passes h hn tab half x).bind fun _ => .pure fun _ hf => hf

/-- `inverse` leaves the transform at the inverse root, scaled. -/
theorem ends_inverse (h : Lanes n re im P) (hn : isPowerOfTwo n = true) {V : Split R}
    (tab : Tabulates p true n V) (half : 2 ≤ n → V ^ (n / 2) = -1) (x : Nat → Split R) :
    Ends (P x) (p.inverse re im) fun _ => Holding P fun v =>
      ∀ k < n, v k = ⟨Sample.Rest.div 1 (n : R), 0⟩ * dft V n x k := by
  rw [FftPlan.inverse, p.transform_eq]
  refine (ends_passes h hn tab half x).bind fun _ => .given_exists fun v => .given fun hv => ?_
  refine (ends_scale h tab.size v).post fun _ f hf => ?_
  obtain ⟨v', hv', hf⟩ := hf
  exact ⟨v', fun k hk => by rw [hv' k hk, hv k hk], hf⟩

/-! ### The tables of a principal root -/

/-- The twiddle pairs are powers of a principal root, each of norm one. -/
structure TwiddlesOf (cos sin : List R) (n : Nat) (W : Split R) : Prop where
  root : IsPrincipalRoot W n
  cosSize : cos.length = n / 2
  sinSize : sin.length = n / 2
  powers : ∀ k < n / 2, (⟨asStream cos k, -asStream sin k⟩ : Split R) = W ^ k
  norm : ∀ k < n / 2, asStream cos k ^ 2 + asStream sin k ^ 2 = 1

namespace TwiddlesOf

variable {cos sin : List R} {W : Split R}

theorem forward (t : TwiddlesOf cos sin n W) :
    Tabulates (.withTables n cos sin) false n W :=
  ⟨rfl, rfl, t.cosSize, t.sinSize, t.powers⟩

/-- `inverse` reads the powers of the inverse root. -/
theorem inverse (t : TwiddlesOf cos sin n W) (hpos : 0 < n) :
    Tabulates (.withTables n cos sin) true n (W ^ (n - 1)) := by
  refine ⟨rfl, rfl, t.cosSize, t.sinSize, fun k hk => ?_⟩
  have unit : W ^ k * (⟨asStream cos k, asStream sin k⟩ : Split R) = 1 := by
    rw [← t.powers k hk]
    have := t.norm k hk
    ext
    · simp [QuadraticAlgebra.re_one]
      linear_combination this
    · simp [QuadraticAlgebra.im_one]
      ring
  have whole : W ^ k * (W ^ (n - 1)) ^ k = 1 := by
    rw [← mul_pow, ← pow_succ', Nat.sub_add_cancel hpos, t.root.pow, one_pow]
  calc (⟨asStream cos k, asStream sin k⟩ : Split R)
      = W ^ k * (W ^ (n - 1)) ^ k * ⟨asStream cos k, asStream sin k⟩ := by rw [whole, one_mul]
    _ = (W ^ (n - 1)) ^ k := by
        rw [mul_comm (W ^ k), mul_assoc, unit, mul_one]

end TwiddlesOf

/-! ### Two arrays in the state block -/

/-- The frames that hold the vector in the cells from `b` and from `b'` on, and are as `g` is
elsewhere. -/
structure InCells (n b b' : Nat) (g : Frame R) (v : Nat → Split R) (f : Frame R) : Prop where
  outputs : f.outputs = g.outputs
  words : f.state.words = g.state.words
  size : f.state.cells.length = g.state.cells.length
  re : ∀ i < n, f.state.cells[b + i]? = some (v i).re
  im : ∀ i < n, f.state.cells[b' + i]? = some (v i).im
  rest : ∀ k, (k < b ∨ b + n ≤ k) → (k < b' ∨ b' + n ≤ k) →
    f.state.cells[k]? = g.state.cells[k]?

omit [Sample.Rest R] in
theorem Lanes.ofCells {b b' : Nat} {g : Frame R} (apart : b + n ≤ b')
    (fits : b' + n ≤ g.state.cells.length) :
    Lanes n (Lane.ofCells b) (Lane.ofCells b') (InCells n b b' g) where
  getRe v i hi := ends_cell fun f hf => hf.re i hi
  getIm v i hi := ends_cell fun f hf => hf.im i hi
  putRe v i x hi := by
    refine ends_setCell fun f hf => ⟨by rw [hf.size]; omega, hf.outputs, hf.words, ?_, ?_, ?_, ?_⟩
    · rw [List.length_set]
      exact hf.size
    · intro j hj
      by_cases hij : j = i
      · subst hij
        rw [List.getElem?_set_self (by rw [hf.size]; omega), Function.update_self]
      · rw [List.getElem?_set_ne (by omega), Function.update_of_ne hij]
        exact hf.re j hj
    · intro j hj
      rw [List.getElem?_set_ne (by omega), hf.im j hj]
      by_cases hij : j = i
      · subst hij
        rw [Function.update_self]
      · rw [Function.update_of_ne hij]
    · intro k hk hk'
      rw [List.getElem?_set_ne (by omega)]
      exact hf.rest k hk hk'
  putIm v i x hi := by
    refine ends_setCell fun f hf => ⟨by rw [hf.size]; omega, hf.outputs, hf.words, ?_, ?_, ?_, ?_⟩
    · rw [List.length_set]
      exact hf.size
    · intro j hj
      rw [List.getElem?_set_ne (by omega), hf.re j hj]
      by_cases hij : j = i
      · subst hij
        rw [Function.update_self]
      · rw [Function.update_of_ne hij]
    · intro j hj
      by_cases hij : j = i
      · subst hij
        rw [List.getElem?_set_self (by rw [hf.size]; omega), Function.update_self]
      · rw [List.getElem?_set_ne (by omega), Function.update_of_ne hij]
        exact hf.im j hj
    · intro k hk hk'
      rw [List.getElem?_set_ne (by omega)]
      exact hf.rest k hk hk'

omit [Sample.Rest R] in
/-- A frame is determined by what it holds and what it is elsewhere. -/
theorem InCells.unique {b b' : Nat} {g f f' : Frame R} {v v' : Nat → Split R}
    (h : InCells n b b' g v f) (h' : InCells n b b' g v' f') (same : ∀ i < n, v i = v' i) :
    f = f' := by
  have cells : f.state.cells = f'.state.cells := by
    refine List.ext_getElem? fun k => ?_
    by_cases hb : b ≤ k ∧ k < b + n
    · have hre := h.re (k - b) (by omega)
      have hre' := h'.re (k - b) (by omega)
      rw [Nat.add_sub_cancel' hb.1] at hre hre'
      rw [hre, hre', same _ (by omega)]
    · by_cases hb' : b' ≤ k ∧ k < b' + n
      · have him := h.im (k - b') (by omega)
        have him' := h'.im (k - b') (by omega)
        rw [Nat.add_sub_cancel' hb'.1] at him him'
        rw [him, him', same _ (by omega)]
      · rw [h.rest k (by omega) (by omega), h'.rest k (by omega) (by omega)]
  obtain ⟨⟨cs, ws⟩, outs⟩ := f
  obtain ⟨⟨cs', ws'⟩, outs'⟩ := f'
  have words : ws = ws' := h.words.trans h'.words.symm
  have views : outs = outs' := h.outputs.trans h'.outputs.symm
  have cells : cs = cs' := cells
  rw [cells, words, views]

/-! ### The plan is the transform -/

/-- The frame with the two arrays, one after the other. -/
def arrays (re im : List R) : Frame R := ⟨⟨re ++ im, []⟩, []⟩

/-- The complex samples of two arrays. -/
def samples (re im : List R) (j : Nat) : Split R := ⟨asStream re j, asStream im j⟩

omit [Sample.Rest R] in
theorem inCells_arrays {g : Frame R} {re im : List R} (hre : re.length = n) (him : im.length = n)
    {a b : List R} (ha : a.length = n) (hb : b.length = n) (hg : g = arrays a b) :
    InCells n 0 n g (samples re im) (arrays re im) := by
  subst hg
  refine ⟨rfl, rfl, ?_, fun i hi => ?_, fun i hi => ?_, fun k hk hk' => ?_⟩
  · simp [arrays, hre, him, ha, hb]
  · rw [Nat.zero_add]
    exact (List.getElem?_append_left (by omega)).trans (getElem?_eq_asStream (by omega))
  · refine (List.getElem?_append_right (by omega)).trans ?_
    rw [hre, Nat.add_sub_cancel_left]
    exact getElem?_eq_asStream (by omega)
  · rw [List.getElem?_eq_none (by simp [arrays]; omega),
      List.getElem?_eq_none (by simp [arrays]; omega)]

theorem TwiddlesOf.half {cos sin : List R} {W : Split R} (t : TwiddlesOf cos sin n W)
    (hn : isPowerOfTwo n = true) (h2 : 2 ≤ n) (regular : ∀ a : R, (n : R) * a = 0 → a = 0) :
    W ^ (n / 2) = -1 := by
  obtain ⟨m, rfl⟩ := isPowerOfTwo_iff.mp hn
  cases m with
  | zero => omega
  | succ m =>
      have size : 2 ^ (m + 1) = 2 * 2 ^ m := by ring
      have root := t.root
      rw [size] at root regular ⊢
      rw [Nat.mul_div_cancel_left _ two_pos]
      refine root.half (Nat.two_pow_pos m) fun z hz => ?_
      rw [Split.natCast_mul] at hz
      ext
      · exact regular _ (congrArg QuadraticAlgebra.re hz)
      · exact regular _ (congrArg QuadraticAlgebra.im hz)

/-- Where half a turn is `-1` and the size is invertible, `inverse` undoes `forward` in any two
lanes. -/
theorem ends_round_trip (h : Lanes n re im P) (hn : isPowerOfTwo n = true) {cos sin : List R}
    {W : Split R} (t : TwiddlesOf cos sin n W) (invertible : Sample.Rest.div 1 (n : R) * n = 1)
    (x : Nat → Split R) :
    Ends (P x) (do (FftPlan.withTables n cos sin).forward re im
                   (FftPlan.withTables n cos sin).inverse re im) fun _ =>
      Holding P fun v => ∀ k < n, v k = x k := by
  have hpos : 0 < n := isPowerOfTwo.pos hn
  have half (h2 : 2 ≤ n) : W ^ (n / 2) = -1 := t.half hn h2 fun a ha => by
    calc a = Sample.Rest.div 1 (n : R) * n * a := by rw [invertible, one_mul]
      _ = 0 := by rw [mul_assoc, ha, mul_zero]
  have half' (h2 : 2 ≤ n) : (W ^ (n - 1)) ^ (n / 2) = -1 := by
    have odd : Odd (n - 1) := by
      obtain ⟨m, rfl⟩ := isPowerOfTwo_iff.mp hn
      cases m with
      | zero => omega
      | succ m => exact ⟨2 ^ m - 1, by rw [pow_succ]; have := Nat.two_pow_pos m; omega⟩
    rw [← pow_mul, mul_comm, pow_mul, half h2, odd.neg_one_pow]
  have unit : W * W ^ (n - 1) = 1 := by
    rw [← pow_succ', Nat.sub_add_cancel hpos, t.root.pow]
  refine (ends_forward h hn t.forward half x).bind fun _ => .given_exists fun v => .given fun hv => ?_
  refine (ends_inverse h hn (t.inverse hpos) half' v).post fun _ f hf => ?_
  obtain ⟨v', hv', hf⟩ := hf
  refine ⟨v', fun k hk => ?_, hf⟩
  rw [hv' k hk, dft_congr hv, t.root.dft_inverse unit x hk, ← mul_assoc]
  have scaled : (⟨Sample.Rest.div 1 (n : R), 0⟩ : Split R) * (n : Split R) = 1 := by
    ext
    · simp [QuadraticAlgebra.re_one, invertible]
    · simp [QuadraticAlgebra.im_one]
  rw [scaled, one_mul]

/-- For a principal root whose half turn is `-1`, as it is where the size is no zero divisor,
`forward` leaves the transform of its arrays; the table of the plan is an involution; and where the
size is invertible `inverse` undoes `forward`. -/
theorem fft_correct (hn : isPowerOfTwo n = true) {cos sin : List R} {W : Split R}
    (t : TwiddlesOf cos sin n W) {re im : List R} (hre : re.length = n) (him : im.length = n) :
    ((n = 1 ∨ W ^ (n / 2) = -1 ∨ ∀ a : R, (n : R) * a = 0 → a = 0) →
      ∃ re' im', re'.length = n ∧ im'.length = n ∧
        StateT.run ((FftPlan.withTables n cos sin).forward (Lane.ofCells 0) (Lane.ofCells n))
          (arrays re im) = .ok ((), arrays re' im') ∧
        ∀ k < n, samples re' im' k = ∑ j ∈ Finset.range n, samples re im j * W ^ (j * k)) ∧
    (∀ i < n, ∃ b < n, (FftPlan.withTables n cos sin).brev[i]? = some b ∧
      (FftPlan.withTables n cos sin).brev[b]? = some i) ∧
    (Sample.Rest.div 1 (n : R) * n = 1 →
      StateT.run (do
          (FftPlan.withTables n cos sin).forward (Lane.ofCells 0) (Lane.ofCells n)
          (FftPlan.withTables n cos sin).inverse (Lane.ofCells 0) (Lane.ofCells n))
        (arrays re im) = .ok ((), arrays re im)) := by
  have lanes : Lanes n (Lane.ofCells 0) (Lane.ofCells n) (InCells n 0 n (arrays re im)) :=
    .ofCells (by omega) (by simp [arrays, hre, him])
  have start : InCells n 0 n (arrays re im) (samples re im) (arrays re im) :=
    inCells_arrays hre him hre him rfl
  refine ⟨fun hcase => ?_, fun i hi => ?_, fun invertible => ?_⟩
  · have half (h2 : 2 ≤ n) : W ^ (n / 2) = -1 := by
      rcases hcase with hcase | hcase | hcase
      · omega
      · exact hcase
      · exact t.half hn h2 hcase
    obtain ⟨⟨⟩, f, run, v, hv, hf⟩ := ends_forward lanes hn t.forward half _ _ start
    let re' := (List.range n).map fun i => (v i).re
    let im' := (List.range n).map fun i => (v i).im
    have hre' : re'.length = n := by simp [re']
    have him' : im'.length = n := by simp [im']
    have entries : ∀ i < n, v i = samples re' im' i := by
      intro i hi
      simp [samples, asStream, re', im', hi]
    have whole := hf.unique (inCells_arrays hre' him' hre him rfl) entries
    refine ⟨re', im', hre', him', ?_, fun k hk => ?_⟩
    · rw [run, whole]
    · rw [← entries k hk, hv k hk, dft]
  · obtain ⟨m, rfl⟩ := isPowerOfTwo_iff.mp hn
    have levels : fftLevels (2 ^ m) = m := Nat.clog_pow 2 m (by omega)
    have hb := bitReverse_lt m i
    refine ⟨bitReverse m i, hb, ?_, ?_⟩
    · simp [FftPlan.withTables, levels, hi]
    · simp [FftPlan.withTables, levels, hb, bitReverse_bitReverse hi]
  · obtain ⟨⟨⟩, f, run, v, hv, hf⟩ := ends_round_trip lanes hn t invertible _ _ start
    rw [run, hf.unique start hv]

section Instances

attribute [local instance] Sample.Rest.exact

/-- The tables of size 4, of the root `-i`. -/
theorem quarterTurn_twiddles : TwiddlesOf [1, 0] [0, 1] 4 (⟨0, -1⟩ : Split ℚ) where
  root := .of_forall_lt (by decide +kernel) (by decide +kernel)
  cosSize := rfl
  sinSize := rfl
  powers := by decide +kernel
  norm := by decide +kernel

theorem fft_correct_quarterTurn :
    (∃ re' im' : List ℚ, re'.length = 4 ∧ im'.length = 4 ∧
      StateT.run ((FftPlan.withTables 4 [1, 0] [0, 1]).forward (Lane.ofCells 0) (Lane.ofCells 4))
        (arrays [1, 2, 3, 4] [0, 0, 0, 1]) = .ok ((), arrays re' im') ∧
      ∀ k < 4, samples re' im' k
        = ∑ j ∈ Finset.range 4, samples [1, 2, 3, 4] [0, 0, 0, 1] j * (⟨0, -1⟩ : Split ℚ) ^ (j * k)) ∧
    StateT.run (do
        (FftPlan.withTables 4 [1, 0] [0, 1]).forward (Lane.ofCells 0) (Lane.ofCells 4)
        (FftPlan.withTables 4 [1, 0] [0, 1]).inverse (Lane.ofCells 0) (Lane.ofCells 4))
      (arrays ([1, 2, 3, 4] : List ℚ) [0, 0, 0, 1]) = .ok ((), arrays [1, 2, 3, 4] [0, 0, 0, 1]) := by
  have plan := fft_correct (by decide) quarterTurn_twiddles 
    (show [1, 2, 3, 4].length = 4 from rfl) (show [0, 0, 0, 1].length = 4 from rfl)
  exact ⟨plan.1 (.inr (.inl (by decide +kernel))), plan.2.2 (by decide +kernel)⟩

/-- Arithmetic modulo 4; the transform uses none of these. -/
@[reducible] def restModFour : Sample.Rest (ZMod 4) where
  div a b := a * b⁻¹
  lt a b := decide (a.val < b.val)
  le a b := decide (a.val ≤ b.val)
  same a b := decide (a = b)
  fmod a b := (a.val % b.val : Nat)
  toSize a := a.val
  llround a := a.val

attribute [local instance] restModFour

/-- Modulo 4 the sums that make 1 a principal fourth root vanish, but its half turn is not `-1`: the
plan leaves 3 where the transform has 1. -/
theorem half_turn_not_negative :
    TwiddlesOf [1, 1] [0, 0] 4 (1 : Split (ZMod 4)) ∧
    (StateT.run ((FftPlan.withTables 4 [1, 1] [0, 0] : FftPlan (ZMod 4)).forward (Lane.ofCells 0)
      (Lane.ofCells 4)) (arrays [0, 1, 0, 0] [0, 0, 0, 0])).toOption.map (·.2.state.cells)
        = some ([1, 1, 3, 3] ++ [0, 0, 0, 0]) ∧
    samples [1, 1, 3, 3] [0, 0, 0, 0] 2
      ≠ ∑ j ∈ Finset.range 4, samples [0, 1, 0, 0] [0, 0, 0, 0] j * (1 : Split (ZMod 4)) ^ (j * 2) :=
  ⟨⟨.of_forall_lt (by decide) (by decide), rfl, rfl, by decide, by decide⟩, by decide +kernel,
    by decide⟩

end Instances

end Xrune.Nodes
