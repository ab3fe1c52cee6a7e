import Xrune.Nodes.Fourier
import Xrune.Nodes.Halfband

/-!
# Nodes — overlap-add reconstruction

`ola_stft` windows a frame every half size, transforms it back and forth and adds it to a ring of
twice the size; a slot of the ring is read once every frame over it has been added, and cleared.
With a window whose halves sum to one, and a plan whose `inverse` undoes its `forward`, what it
writes is its input, `n - 1` samples late (`ola_reconstructs`).

The code is one step of a pure function on the cells and the counter (`ends_olaTurn`), so the
stream it writes does not depend on how its input is cut into blocks.
-/

namespace Xrune.Nodes

open Access

/-! ### The node, its window and plan parameters -/

section Parameters

variable {α : Type} [Sample α] (w : List α) (p : FftPlan α) (n : Nat)

def olaWindowedWith (start i : Nat) : Access α Unit := do
  let slot ← modulo ((start + i) % 2 ^ 64) n
  let x ← cell slot
  let w ← nth w i
  (Lane.ofCells (3 * n)).put i (x * w)
  (Lane.ofCells (4 * n)).put i 0

def olaFrameWith (start : Nat) : Access α Unit := do
  let re := Lane.ofCells (3 * n)
  let im := Lane.ofCells (4 * n)
  loop n (olaWindowedWith w n start)
  p.forward re im
  p.inverse re im
  loop n fun i => do
    let slot ← modulo ((start + i) % 2 ^ 64) (2 * n)
    let x ← cell (n + slot)
    let y ← re.get i
    setCell (n + slot) (x + y)

def olaTurnWith (ctx : ProcessingContext α) (k : Nat) : Access α Unit := do
  let t ← word 0
  let slot ← modulo t n
  let x ← input ctx 0 k
  setCell slot x
  if n - 1 ≤ t then do
    let phase ← modulo (t - (n - 1)) (n / 2)
    if phase = 0 then olaFrameWith w p n (t - (n - 1))
  olaEmit n k t

def olaStftCodeWith (ctx : ProcessingContext α) : Access α Unit :=
  loop ctx.blockSize (olaTurnWith w p n ctx)

/-- `ola_stft` with the window `w` and the plan `p`. -/
def olaStftWith : Node α where
  typeName := "stft"
  inputsCount := 1
  outputsCount := 1
  paramDefault _ := 0
  configArgs := [("size", n)]
  stateSize := olaStateSize n
  initState := ⟨List.replicate ((olaStateSize n - 8) / 8) 0, [0]⟩
  process := Access.run (olaStftCodeWith w p n)

theorem olaStft_eq [Trig α] :
    (olaStft n : Node α) = olaStftWith (hannWindow n) (FftPlan.init n) n := rfl

/-- `ola_stft::init_state`: the counter and the four arrays, cleared. -/
def olaReset : StateBlock α := ⟨List.replicate (5 * n) 0, [0]⟩

/-- A node whose size fits is given the block it clears. -/
theorem olaReset_eq (fits : 8 + 5 * n * 8 < 2 ^ 64) :
    (olaStftWith w p n).initState = olaReset n := by
  have size : (olaStateSize n - 8) / 8 = 5 * n := by
    rw [olaStateSize, sizeT_of_lt fits, Nat.add_sub_cancel_left, Nat.mul_div_cancel _ (by omega)]
  simp only [olaStftWith, olaReset, size]

end Parameters

variable {R : Type} [CommRing R]

/-! ### A turn, on the cells and the counter -/

section Step

variable (w : List R) (n : Nat)

def windowTurn (start : Nat) (cs : List R) (i : Nat) : List R :=
  (cs.set (3 * n + i) (asStream cs ((start + i) % 2 ^ 64 % n) * asStream w i)).set (4 * n + i) 0

def addTurn (start : Nat) (cs : List R) (i : Nat) : List R :=
  cs.set (n + (start + i) % 2 ^ 64 % (2 * n))
    (asStream cs (n + (start + i) % 2 ^ 64 % (2 * n)) + asStream cs (3 * n + i))

/-- A frame windowed and added to the output ring. -/
def frameCells (start : Nat) (cs : List R) : List R :=
  (List.range n).foldl (addTurn n start) ((List.range n).foldl (windowTurn w n start) cs)

/-- The cells once a sample is stored and the frame it completes, if any, is added. -/
def olaStored (cs : List R) (t : Nat) (x : R) : List R :=
  if n - 1 ≤ t ∧ (t - (n - 1)) % (n / 2) = 0 then frameCells w n (t - (n - 1)) (cs.set (t % n) x)
  else cs.set (t % n) x

/-- One sample: the cells and the counter after it, and what is written. -/
def olaStep (s : List R × Nat) (x : R) : (List R × Nat) × R :=
  let cs := olaStored w n s.1 s.2 x
  let slot := n + (s.2 - (n - 1)) % (2 * n)
  if n - 1 ≤ s.2 then ((cs.set slot 0, (s.2 + 1) % 2 ^ 64), asStream cs slot)
  else ((cs, (s.2 + 1) % 2 ^ 64), 0)

/-- A stream, sample by sample. -/
def olaRun : List R × Nat → List R → List R
  | _, []      => []
  | s, x :: xs => (olaStep w n s x).2 :: olaRun (olaStep w n s x).1 xs

/-- The cells and the counter after a stream. -/
def olaAfter : List R × Nat → List R → List R × Nat
  | s, []      => s
  | s, x :: xs => olaAfter (olaStep w n s x).1 xs

variable {w n}

theorem olaRun_append : ∀ (s : List R × Nat) (xs ys : List R),
    olaRun w n s (xs ++ ys) = olaRun w n s xs ++ olaRun w n (olaAfter w n s xs) ys
  | _, [], _       => rfl
  | s, x :: xs, ys => by
      rw [List.cons_append, olaRun, olaRun_append, olaRun, olaAfter, List.cons_append]

theorem olaAfter_append : ∀ (s : List R × Nat) (xs ys : List R),
    olaAfter w n s (xs ++ ys) = olaAfter w n (olaAfter w n s xs) ys
  | _, [], _       => rfl
  | s, x :: xs, ys => by rw [List.cons_append, olaAfter, olaAfter_append, olaAfter]

@[simp] theorem length_olaRun : ∀ (s : List R × Nat) (xs : List R),
    (olaRun w n s xs).length = xs.length
  | _, []      => rfl
  | s, x :: xs => by rw [olaRun, List.length_cons, length_olaRun, List.length_cons]

omit [CommRing R] in
theorem length_foldl {F : List R → Nat → List R} (h : ∀ cs i, (F cs i).length = cs.length)
    (l : List Nat) (cs : List R) : (l.foldl F cs).length = cs.length := by
  induction l generalizing cs with
  | nil => rfl
  | cons i l ih => rw [List.foldl_cons, ih, h]

@[simp] theorem length_windowTurn (start : Nat) (cs : List R) (i : Nat) :
    (windowTurn w n start cs i).length = cs.length := by simp [windowTurn]

@[simp] theorem length_addTurn (start : Nat) (cs : List R) (i : Nat) :
    (addTurn n start cs i).length = cs.length := by simp [addTurn]

@[simp] theorem length_frameCells (start : Nat) (cs : List R) :
    (frameCells w n start cs).length = cs.length := by
  rw [frameCells, length_foldl (length_addTurn start), length_foldl (length_windowTurn start)]

@[simp] theorem length_olaStored (cs : List R) (t : Nat) (x : R) :
    (olaStored w n cs t x).length = cs.length := by
  rw [olaStored]
  split <;> simp

theorem length_olaStep (s : List R × Nat) (x : R) :
    (olaStep w n s x).1.1.length = s.1.length := by
  simp only [olaStep]
  split <;> simp

theorem length_olaAfter : ∀ (s : List R × Nat) (xs : List R),
    (olaAfter w n s xs).1.length = s.1.length
  | _, []      => rfl
  | s, x :: xs => by rw [olaAfter, length_olaAfter, length_olaStep]

end Step

/-! ### What the rings hold -/

section Rings

variable {w : List R} {n : Nat} {x : Nat → R} {t e : Nat} {cs : List R}

theorem asStream_set (l : List R) (i k : Nat) (v : R) :
    asStream (l.set i v) k = if k = i ∧ i < l.length then v else asStream l k := by
  rw [asStream, asStream, List.getD_eq_getElem?_getD, List.getD_eq_getElem?_getD, List.getElem?_set]
  by_cases hik : i = k
  · subst hik
    by_cases hlt : i < l.length
    · simp [hlt]
    · simp [hlt]
  · simp [hik, show ¬k = i from fun h => hik h.symm]

/-- Two positions less than `m` apart have slots of their own. -/
theorem mod_inj_of_near {m a b : Nat} (ha : e ≤ a) (ha' : a < e + m) (hb : e ≤ b) (hb' : b < e + m)
    (same : a % m = b % m) : a = b := by
  obtain ⟨i, rfl⟩ := Nat.exists_eq_add_of_le ha
  obtain ⟨j, rfl⟩ := Nat.exists_eq_add_of_le hb
  have apart : i ≡ j [MOD m] := Nat.ModEq.add_left_cancel' e same
  rw [Nat.ModEq, Nat.mod_eq_of_lt (by omega), Nat.mod_eq_of_lt (by omega)] at apart
  rw [apart]

/-- What the frames that start before `e` add at the position `q`. -/
def overlap (w : List R) (n : Nat) (x : Nat → R) (e q : Nat) : R :=
  ∑ f ∈ Finset.range e, if f % (n / 2) = 0 ∧ f ≤ q then x q * asStream w (q - f) else 0

/-- The cells after `t` samples: the input ring holds the last `n` of them, the output ring what
the frames completed add at each position still to be written. -/
structure OlaHolds (w : List R) (n : Nat) (x : Nat → R) (t : Nat) (cs : List R) : Prop where
  size : cs.length = 5 * n
  input : ∀ j < t, t ≤ j + n → asStream cs (j % n) = x j
  output : ∀ q, t + 1 - n ≤ q → q < t + 1 - n + 2 * n →
    asStream cs (n + q % (2 * n)) = overlap w n x (t + 1 - n) q

theorem olaHolds_reset (hn : 0 < n) : OlaHolds w n x 0 (List.replicate (5 * n) 0) where
  size := List.length_replicate
  input j hj := absurd hj (by omega)
  output q _ _ := by
    have zero (k : Nat) : asStream (List.replicate (5 * n) (0 : R)) k = 0 := by
      rw [asStream, List.getD_eq_getElem?_getD, List.getElem?_replicate]
      split <;> rfl
    rw [zero, show 0 + 1 - n = 0 by omega, overlap, Finset.sum_range_zero]

/-- The windowed frame, in the real array. -/
theorem asStream_windowed (hn : 0 < n) (hcs : cs.length = 5 * n) (he : e + n ≤ 2 ^ 64)
    (ring : ∀ i < n, asStream cs ((e + i) % n) = x (e + i)) (m : Nat) (hm : m ≤ n) :
    (∀ k < 3 * n, asStream ((List.range m).foldl (windowTurn w n e) cs) k = asStream cs k) ∧
    ∀ i < m, asStream ((List.range m).foldl (windowTurn w n e) cs) (3 * n + i)
      = x (e + i) * asStream w i := by
  induction m with
  | zero => exact ⟨fun _ _ => rfl, fun i hi => absurd hi (by omega)⟩
  | succ m ih =>
      obtain ⟨before, frame⟩ := ih (by omega)
      have size := length_foldl (length_windowTurn (w := w) (n := n) e) (List.range m) cs
      have hslot : (e + m) % n < n := Nat.mod_lt _ hn
      rw [List.range_succ, List.foldl_append, List.foldl_cons, List.foldl_nil, windowTurn,
        Nat.mod_eq_of_lt (show e + m < 2 ^ 64 by omega)]
      constructor
      · intro k hk
        rw [asStream_set, if_neg (by omega), asStream_set, if_neg (by omega), before k hk]
      · intro i hi
        rw [asStream_set, if_neg (by omega), asStream_set]
        by_cases him : i = m
        · rw [if_pos (by rw [size]; omega), before _ (by omega), him, ring m (by omega)]
        · rw [if_neg (by omega), frame i (by omega)]

/-- A frame added to the output ring. -/
theorem asStream_added (hn : 0 < n) (hcs : cs.length = 5 * n) (he : e + n ≤ 2 ^ 64) (m : Nat)
    (hm : m ≤ n) :
    (∀ k, k < n ∨ 3 * n ≤ k →
      asStream ((List.range m).foldl (addTurn n e) cs) k = asStream cs k) ∧
    ∀ q, e ≤ q → q < e + 2 * n →
      asStream ((List.range m).foldl (addTurn n e) cs) (n + q % (2 * n))
        = asStream cs (n + q % (2 * n)) + if q < e + m then asStream cs (3 * n + (q - e)) else 0 := by
  induction m with
  | zero => exact ⟨fun _ _ => rfl, fun q hq _ => by rw [if_neg (by omega), add_zero]; rfl⟩
  | succ m ih =>
      obtain ⟨rest, ring⟩ := ih (by omega)
      have size := length_foldl (length_addTurn (n := n) e) (List.range m) cs
      have hslot : (e + m) % (2 * n) < 2 * n := Nat.mod_lt _ (by omega)
      rw [List.range_succ, List.foldl_append, List.foldl_cons, List.foldl_nil, addTurn,
        Nat.mod_eq_of_lt (show e + m < 2 ^ 64 by omega)]
      constructor
      · intro k hk
        rw [asStream_set, if_neg (by omega), rest k hk]
      · intro q hq hq'
        have hmod : q % (2 * n) < 2 * n := Nat.mod_lt _ (by omega)
        rw [asStream_set]
        by_cases here : q = e + m
        · subst here
          rw [if_pos ⟨rfl, by rw [size]; omega⟩, ring _ hq hq', rest _ (by omega),
            if_neg (by omega), if_pos (by omega), add_zero, Nat.add_sub_cancel_left]
        · have other : ¬n + q % (2 * n) = n + (e + m) % (2 * n) := fun h =>
            here (mod_inj_of_near hq hq' (by omega) (by omega) (Nat.add_left_cancel h))
          rw [if_neg fun h => other h.1, ring q hq hq']
          by_cases hlt : q < e + m
          · rw [if_pos hlt, if_pos (by omega)]
          · rw [if_neg hlt, if_neg (by omega)]

theorem overlap_succ (w : List R) (n : Nat) (x : Nat → R) (e q : Nat) :
    overlap w n x (e + 1) q = overlap w n x e q
      + if e % (n / 2) = 0 ∧ e ≤ q then x q * asStream w (q - e) else 0 :=
  Finset.sum_range_succ _ e

/-- A frame does not reach past its end. -/
theorem overlap_past (hw : w.length = n) {q : Nat} (hq : e + n ≤ q + 1) :
    overlap w n x e q = 0 := by
  refine Finset.sum_eq_zero fun f hf => ?_
  have hf := Finset.mem_range.mp hf
  split_ifs with here
  · rw [asStream_of_le (by omega), mul_zero]
  · rfl

/-- The output ring once the frame that starts at `e`, if one does, is added. -/
theorem asStream_stored (hn : 2 ≤ n) (hw : w.length = n) (h : OlaHolds w n x t cs)
    (late : n ≤ t + 1) (ht : t < 2 ^ 64) (he : e = t + 1 - n) :
    (∀ j < t + 1, t + 1 ≤ j + n → asStream (olaStored w n cs t (x t)) (j % n) = x j) ∧
    ∀ q, e ≤ q → q < e + 2 * n →
      asStream (olaStored w n cs t (x t)) (n + q % (2 * n)) = overlap w n x (e + 1) q := by
  have hslot (j : Nat) : j % n < n := Nat.mod_lt _ (by omega)
  have size : (cs.set (t % n) (x t)).length = 5 * n := by rw [List.length_set, h.size]
  have input : ∀ j < t + 1, t + 1 ≤ j + n → asStream (cs.set (t % n) (x t)) (j % n) = x j := by
    intro j hj hj'
    rw [asStream_set]
    by_cases here : j = t
    · rw [here, if_pos ⟨rfl, by have := h.size; have := hslot t; omega⟩]
    · have other : ¬j % n = t % n := fun same =>
        here (mod_inj_of_near (e := t + 1 - n) (by omega) (by omega) (by omega) (by omega) same)
      rw [if_neg fun hc => other hc.1, h.input j (by omega) (by omega)]
  have output : ∀ q, e ≤ q → q < e + 2 * n →
      asStream (cs.set (t % n) (x t)) (n + q % (2 * n)) = overlap w n x e q := by
    intro q hq hq'
    have := hslot t
    rw [asStream_set, if_neg (by omega), he]
    exact h.output q (by omega) (by omega)
  have start : t - (n - 1) = e := by omega
  rw [olaStored, start]
  by_cases frame : e % (n / 2) = 0
  · rw [if_pos ⟨by omega, frame⟩, frameCells]
    have ring : ∀ i < n, asStream (cs.set (t % n) (x t)) ((e + i) % n) = x (e + i) := fun i hi =>
      input (e + i) (by omega) (by omega)
    obtain ⟨before, windowed⟩ :=
      asStream_windowed (w := w) (by omega) size (by omega) ring n le_rfl
    have size' := length_foldl (length_windowTurn (w := w) (n := n) e) (List.range n)
      (cs.set (t % n) (x t))
    obtain ⟨rest, added⟩ := asStream_added (e := e) (by omega) (size'.trans size) (by omega) n le_rfl
    constructor
    · intro j hj hj'
      have := hslot j
      rw [rest _ (by omega), before _ (by omega), input j hj hj']
    · intro q hq hq'
      have hmod : q % (2 * n) < 2 * n := Nat.mod_lt _ (by omega)
      rw [added q hq hq', before _ (by omega), output q hq hq', overlap_succ]
      by_cases within : q < e + n
      · rw [if_pos within, if_pos ⟨frame, hq⟩, windowed _ (by omega), Nat.add_sub_cancel' hq]
      · rw [if_neg within, if_pos ⟨frame, hq⟩, asStream_of_le (by omega), mul_zero]
  · rw [if_neg fun hc => frame hc.2]
    refine ⟨input, fun q hq hq' => ?_⟩
    rw [output q hq hq', overlap_succ, if_neg fun hc => frame hc.1, add_zero]

/-- What is written at the time `t`. -/
def olaOut (w : List R) (n : Nat) (x : Nat → R) (t : Nat) : R :=
  if t + 1 < n then 0 else overlap w n x (t + 2 - n) (t + 1 - n)

/-- A step keeps the rings. -/
theorem OlaHolds.step (hn : 2 ≤ n) (hw : w.length = n) (h : OlaHolds w n x t cs)
    (ht : t < 2 ^ 64) :
    OlaHolds w n x (t + 1) (olaStep w n (cs, t) (x t)).1.1 ∧
    (olaStep w n (cs, t) (x t)).2 = olaOut w n x t := by
  have hslot : t % n < n := Nat.mod_lt _ (by omega)
  by_cases late : n ≤ t + 1
  · obtain ⟨e, he⟩ : ∃ e, e = t + 1 - n := ⟨_, rfl⟩
    obtain ⟨input, output⟩ := asStream_stored hn hw h late ht he
    have size : (olaStored w n cs t (x t)).length = 5 * n := by rw [length_olaStored, h.size]
    have hmod : e % (2 * n) < 2 * n := Nat.mod_lt _ (by omega)
    have start : t - (n - 1) = e := by omega
    have next : t + 1 + 1 - n = e + 1 := by omega
    simp only [olaStep, if_pos (show n - 1 ≤ t by omega), start]
    refine ⟨⟨by rw [List.length_set, size], ?_, ?_⟩, ?_⟩
    · intro j hj hj'
      have := Nat.mod_lt j (show n > 0 by omega)
      rw [asStream_set, if_neg (by omega), input j hj hj']
    · rw [next]
      intro q hq hq'
      rw [asStream_set]
      by_cases reused : q = e + 2 * n
      · have same : q % (2 * n) = e % (2 * n) := by rw [reused, Nat.add_mod_right]
        rw [same, if_pos ⟨rfl, by rw [size]; omega⟩, overlap_past hw (by omega)]
      · have other : ¬n + q % (2 * n) = n + e % (2 * n) := fun hc => by
          have := mod_inj_of_near (e := e) (by omega) (by omega) le_rfl (by omega)
            (Nat.add_left_cancel hc)
          omega
        rw [if_neg fun hc => other hc.1, output q (by omega) (by omega)]
    · rw [output e le_rfl (by omega), olaOut, if_neg (by omega), ← he,
        show t + 2 - n = e + 1 by omega]
  · have early : ¬n - 1 ≤ t := by omega
    have stored : olaStored w n cs t (x t) = cs.set (t % n) (x t) := by
      rw [olaStored, if_neg fun hc => early hc.1]
    simp only [olaStep, if_neg early, stored]
    refine ⟨⟨by rw [List.length_set, h.size], ?_, ?_⟩, ?_⟩
    · intro j hj hj'
      rw [asStream_set, Nat.mod_eq_of_lt (by omega), Nat.mod_eq_of_lt (by omega)]
      by_cases here : j = t
      · rw [if_pos ⟨here, by have := h.size; omega⟩, here]
      · have before := h.input j (by omega) (by omega)
        rw [Nat.mod_eq_of_lt (by omega)] at before
        rw [if_neg fun hc => here hc.1, before]
    · have same : t + 1 + 1 - n = t + 1 - n := by omega
      rw [same]
      intro q hq hq'
      rw [asStream_set, if_neg (by omega), h.output q hq hq']
    · rw [olaOut, if_pos (by omega)]

/-- Past the first half frame two frames overlap at each position, and their windows sum to one. -/
theorem overlap_whole (even : n = 2 * (n / 2)) (hpos : 0 < n / 2) (hw : w.length = n)
    (cola : ∀ i < n / 2, asStream w i + asStream w (i + n / 2) = 1) (he : n / 2 ≤ e) :
    overlap w n x (e + 1) e = x e := by
  obtain ⟨hop, hhop⟩ : ∃ hop, hop = n / 2 := ⟨_, rfl⟩
  rw [← hhop] at even hpos cola he
  have hmod := Nat.mod_lt e hpos
  have hdiv := Nat.div_add_mod e hop
  have last : hop * (e / hop) % hop = 0 := Nat.mul_mod_right _ _
  have before : (hop * (e / hop) - hop) % hop = 0 := by
    rw [← Nat.mul_sub_one]
    exact Nat.mul_mod_right _ _
  have room : hop ≤ hop * (e / hop) := Nat.le_mul_of_pos_right hop (Nat.div_pos he hpos)
  have two : overlap w n x (e + 1) e
      = ∑ f ∈ {hop * (e / hop) - hop, hop * (e / hop)},
          if f % hop = 0 ∧ f ≤ e then x e * asStream w (e - f) else 0 := by
    rw [overlap, ← hhop]
    symm
    refine Finset.sum_subset (fun f hf => ?_) fun f hf other => ?_
    · simp only [Finset.mem_insert, Finset.mem_singleton] at hf
      exact Finset.mem_range.mpr (by omega)
    · simp only [Finset.mem_insert, Finset.mem_singleton, not_or] at other
      split_ifs with here
      · obtain ⟨i, rfl⟩ := Nat.dvd_of_mod_eq_zero here.1
        -- a frame two hops back or more has ended
        have hle : i ≤ e / hop := (Nat.le_div_iff_mul_le hpos).mpr (by rw [mul_comm]; exact here.2)
        have far : i + 2 ≤ e / hop := by
          rcases Nat.lt_or_ge (i + 1) (e / hop) with hlt | hge
          · exact hlt
          · rcases Nat.eq_or_lt_of_le hle with heq | hlt
            · exact absurd (by rw [heq]) other.2
            · have step : e / hop = i + 1 := by omega
              exact absurd (by rw [step, Nat.mul_add, mul_one, Nat.add_sub_cancel]) other.1
        have gap : hop * (i + 2) ≤ hop * (e / hop) := Nat.mul_le_mul_left hop far
        rw [Nat.mul_add] at gap
        rw [asStream_of_le (by omega), mul_zero]
      · rfl
  rw [two, Finset.sum_pair (by omega), if_pos ⟨before, by omega⟩, if_pos ⟨last, by omega⟩,
    show e - (hop * (e / hop) - hop) = e % hop + hop by omega,
    show e - hop * (e / hop) = e % hop by omega, ← mul_add, add_comm, cola _ hmod, mul_one]

/-! ### A whole stream -/

theorem getElem?_olaRun : ∀ (s : List R × Nat) (xs : List R) (t : Nat), t < xs.length →
    (olaRun w n s xs)[t]? = some (olaStep w n (olaAfter w n s (xs.take t)) (asStream xs t)).2
  | s, y :: ys, 0, _     => rfl
  | s, y :: ys, t + 1, h => by
      rw [olaRun, List.getElem?_cons_succ, getElem?_olaRun _ ys t (by simpa using h)]
      rfl

/-- The counter is the number of samples, modulo its width. -/
theorem olaAfter_counter : ∀ (s : List R × Nat) (xs : List R), s.2 < 2 ^ 64 →
    (olaAfter w n s xs).2 = (s.2 + xs.length) % 2 ^ 64
  | s, [], hs      => (Nat.mod_eq_of_lt hs).symm
  | s, y :: ys, hs => by
      have next : (olaStep w n s y).1.2 = (s.2 + 1) % 2 ^ 64 := by
        simp only [olaStep]
        split <;> rfl
      rw [olaAfter, olaAfter_counter _ ys (by rw [next]; exact Nat.mod_lt _ (by decide)), next,
        List.length_cons, Nat.mod_add_mod]
      congr 1
      omega

/-- The rings after `t` samples, as long as the counter has not wrapped. -/
theorem olaHolds_after (hn : 2 ≤ n) (hw : w.length = n) (xs : List R) :
    ∀ t, t ≤ xs.length → t ≤ 2 ^ 64 →
      OlaHolds w n (asStream xs) t (olaAfter w n (List.replicate (5 * n) 0, 0) (xs.take t)).1
  | 0, _, _      => olaHolds_reset (by omega)
  | t + 1, h, ht => by
      have before := olaHolds_after hn hw xs t (by omega) (by omega)
      have counter : (olaAfter w n (List.replicate (5 * n) 0, 0) (xs.take t)).2 = t := by
        rw [olaAfter_counter _ _ (by simp), List.length_take, min_eq_left (by omega), Nat.zero_add,
          Nat.mod_eq_of_lt (by omega)]
      rw [take_succ_of (getElem?_eq_asStream (by omega)), olaAfter_append]
      generalize olaAfter w n (List.replicate (5 * n) 0, 0) (xs.take t) = s at before counter
      obtain ⟨cs, u⟩ := s
      obtain rfl : u = t := counter
      exact (before.step hn hw (by omega)).1

theorem getElem?_olaRun_reset (hn : 2 ≤ n) (hw : w.length = n) {xs : List R} {t : Nat}
    (h : t < xs.length) (ht : t < 2 ^ 64) :
    (olaRun w n (List.replicate (5 * n) 0, 0) xs)[t]? = some (olaOut w n (asStream xs) t) := by
  have before := olaHolds_after hn hw xs t (by omega) (by omega)
  have counter : (olaAfter w n (List.replicate (5 * n) 0, 0) (xs.take t)).2 = t := by
    rw [olaAfter_counter _ _ (by simp), List.length_take, min_eq_left (by omega), Nat.zero_add,
      Nat.mod_eq_of_lt ht]
  rw [getElem?_olaRun _ _ _ h]
  generalize olaAfter w n (List.replicate (5 * n) 0, 0) (xs.take t) = s at before counter
  obtain ⟨cs, u⟩ := s
  obtain rfl : u = t := counter
  rw [(before.step hn hw ht).2]

end Rings

/-! ### The code makes the turn -/

attribute [local instance] Sample.ofRing

variable [Sample.Rest R] {w : List R} {p : FftPlan R} {n : Nat}

/-- `inverse` undoes `forward` in the two arrays of a state block of this size. -/
def RoundTrips (p : FftPlan R) (n : Nat) : Prop :=
  ∀ f : Frame R, f.state.cells.length = 5 * n →
    StateT.run (do
      p.forward (Lane.ofCells (3 * n)) (Lane.ofCells (4 * n))
      p.inverse (Lane.ofCells (3 * n)) (Lane.ofCells (4 * n))) f = .ok ((), f)

omit [CommRing R] [Sample.Rest R] in
/-- A loop whose turns rewrite the cells. -/
theorem ends_foldl {N m : Nat} {body : Nat → Access R Unit} {F : List R → Nat → List R}
    {ws : List Nat} {outs : List (List R)} (hF : ∀ cs i, (F cs i).length = cs.length)
    (h : ∀ i < m, ∀ cs : List R, cs.length = N →
      Ends (fun f => f = ⟨⟨cs, ws⟩, outs⟩) (body i) fun _ f => f = ⟨⟨F cs i, ws⟩, outs⟩)
    {cs : List R} (hcs : cs.length = N) :
    Ends (fun f => f = ⟨⟨cs, ws⟩, outs⟩) (loop m body)
      fun _ f => f = ⟨⟨(List.range m).foldl F cs, ws⟩, outs⟩ := by
  refine ends_loop (I := fun i f => f = ⟨⟨(List.range i).foldl F cs, ws⟩, outs⟩) fun i hi => ?_
  rw [List.range_succ, List.foldl_append]
  exact h i hi _ (by rw [length_foldl hF, hcs])

omit [Sample.Rest R] in
theorem ends_cellAt {cs : List R} {ws : List Nat} {outs : List (List R)} {i : Nat}
    (hi : i < cs.length) :
    Ends (fun f => f = ⟨⟨cs, ws⟩, outs⟩) (cell i)
      fun x f => x = asStream cs i ∧ f = ⟨⟨cs, ws⟩, outs⟩ :=
  ends_cell fun f hf => by rw [hf]; exact getElem?_eq_asStream hi

omit [CommRing R] [Sample.Rest R] in
theorem ends_setCellAt {cs : List R} {ws : List Nat} {outs : List (List R)} {i : Nat} (x : R)
    (hi : i < cs.length) :
    Ends (fun f => f = ⟨⟨cs, ws⟩, outs⟩) (setCell i x)
      fun _ f => f = ⟨⟨cs.set i x, ws⟩, outs⟩ :=
  ends_setCell fun f hf => by subst hf; exact ⟨hi, rfl⟩

theorem ends_olaFrame (hn : 0 < n) (hw : w.length = n) (round : RoundTrips p n) {cs : List R}
    (hcs : cs.length = 5 * n) (ws : List Nat) (outs : List (List R)) (start : Nat) :
    Ends (fun f => f = ⟨⟨cs, ws⟩, outs⟩) (olaFrameWith w p n start)
      fun _ f => f = ⟨⟨frameCells w n start cs, ws⟩, outs⟩ := by
  have windowed : ∀ i < n, ∀ cs : List R, cs.length = 5 * n →
      Ends (fun f => f = ⟨⟨cs, ws⟩, outs⟩) (olaWindowedWith w n start i)
        fun _ f => f = ⟨⟨windowTurn w n start cs i, ws⟩, outs⟩ := by
    intro i hi cs hcs
    have hslot : (start + i) % 2 ^ 64 % n < n := Nat.mod_lt _ hn
    refine (ends_modulo hn).bindEq <| (ends_cellAt (by omega)).bindEq ?_
    refine (ends_nth (getElem?_eq_asStream (by omega))).bindEq ?_
    refine (ends_setCellAt _ (by omega)).bind fun _ => ?_
    exact ends_setCellAt _ (by rw [List.length_set]; omega)
  have added : ∀ i < n, ∀ cs : List R, cs.length = 5 * n →
      Ends (fun f => f = ⟨⟨cs, ws⟩, outs⟩) (do
        let slot ← modulo ((start + i) % 2 ^ 64) (2 * n)
        let x ← cell (n + slot)
        let y ← (Lane.ofCells (3 * n)).get i
        setCell (n + slot) (x + y))
        fun _ f => f = ⟨⟨addTurn n start cs i, ws⟩, outs⟩ := by
    intro i hi cs hcs
    have hslot : (start + i) % 2 ^ 64 % (2 * n) < 2 * n := Nat.mod_lt _ (by omega)
    refine (ends_modulo (by omega)).bindEq <| (ends_cellAt (by omega)).bindEq ?_
    exact (ends_cellAt (by omega)).bindEq (ends_setCellAt _ (by omega))
  have size := length_foldl (length_windowTurn (w := w) (n := n) start) (List.range n) cs
  refine (ends_foldl (length_windowTurn start) windowed hcs).bind fun _ => ?_
  have there : Ends (fun f => f = ⟨⟨(List.range n).foldl (windowTurn w n start) cs, ws⟩, outs⟩) (do
      p.forward (Lane.ofCells (3 * n)) (Lane.ofCells (4 * n))
      p.inverse (Lane.ofCells (3 * n)) (Lane.ofCells (4 * n)))
      fun _ f => f = ⟨⟨(List.range n).foldl (windowTurn w n start) cs, ws⟩, outs⟩ := by
    rintro f rfl
    exact ⟨⟨⟩, _, round _ (by rw [size, hcs]), rfl⟩
  rw [← bind_assoc]
  exact there.bind fun _ => ends_foldl (length_addTurn start) added (by rw [size, hcs])

/-- A turn of the code is a step of the pure function. -/
theorem ends_olaTurn (hn : 2 ≤ n) (hw : w.length = n) (round : RoundTrips p n)
    {ctx : ProcessingContext R} {block buf ys : List R} (hctx : OneToOne ctx block buf) {k : Nat}
    (hk : k < block.length) (hys : k = ys.length) (room : k < buf.length) {s : List R × Nat}
    (hs : s.1.length = 5 * n) :
    Ends (fun f => f = ⟨⟨s.1, [s.2]⟩, [filled ys buf]⟩) (olaTurnWith w p n ctx k)
      fun _ f => f = ⟨⟨(olaStep w n s (asStream block k)).1.1,
        [(olaStep w n s (asStream block k)).1.2]⟩,
        [filled (ys ++ [(olaStep w n s (asStream block k)).2]) buf]⟩ := by
  obtain ⟨cs, t⟩ := s
  have hs : cs.length = 5 * n := hs
  generalize hx : asStream block k = x
  have hin : block[k]? = some x := by rw [← hx]; exact getElem?_eq_asStream hk
  have hslot : t % n < n := Nat.mod_lt _ (by omega)
  have size := length_olaStored (w := w) (n := n) cs t x
  refine (ends_word (w := t) fun f hf => by rw [hf]; rfl).bindEq ?_
  refine (ends_modulo (by omega)).bindEq ?_
  refine (ends_input (by rw [hctx.input]; rfl) hin).bindEq ?_
  refine (ends_setCellAt x (by omega)).bind fun _ => ?_
  have written (cs : List R) (y : R) : Ends (fun f => f = ⟨⟨cs, [t]⟩, [filled ys buf]⟩) (do
      setOutput 0 k y
      setWord 0 ((t + 1) % 2 ^ 64))
      fun _ f => f = ⟨⟨cs, [(t + 1) % 2 ^ 64]⟩, [filled (ys ++ [y]) buf]⟩ := by
    refine Ends.bind (Q := fun _ f => f = ⟨⟨cs, [t]⟩, [filled (ys ++ [y]) buf]⟩)
      (ends_setOutput fun f hf => ?_) fun _ => ends_setWord fun f hf => ?_
    · subst hf hys
      exact ⟨_, rfl, by rw [length_filled room.le]; exact room, by rw [set_filled y room]; rfl⟩
    · subst hf
      exact ⟨by simp, rfl⟩
  have hidx : (t - (n - 1)) % (2 * n) < 2 * n := Nat.mod_lt _ (by omega)
  have emit : Ends (fun f => f = ⟨⟨olaStored w n cs t x, [t]⟩, [filled ys buf]⟩) (olaEmit n k t)
      fun _ f => f = ⟨⟨(olaStep w n (cs, t) x).1.1, [(olaStep w n (cs, t) x).1.2]⟩,
        [filled (ys ++ [(olaStep w n (cs, t) x).2]) buf]⟩ := by
    simp only [olaEmit, olaStep]
    by_cases late : n - 1 ≤ t
    · simp only [if_pos late]
      refine (ends_modulo (by omega)).bindEq <| (ends_cellAt (by rw [size]; omega)).bindEq ?_
      exact (ends_setCellAt _ (by rw [size]; omega)).bind fun _ => written _ _
    · simp only [if_neg late]
      exact written _ _
  -- the frame the sample completes, if it does
  refine .ite (fun late => ?_) fun early => ?_
  · refine (ends_modulo (by omega)).bindEq (.ite (fun here => ?_) fun off => ?_)
    · rw [olaStored, if_pos ⟨late, here⟩] at emit
      exact (ends_olaFrame (by omega) hw round (by rw [List.length_set]; exact hs) _ _ _).bind
        fun _ => emit
    · rwa [olaStored, if_neg fun h => off h.2] at emit
  · rwa [olaStored, if_neg fun h => early h.1] at emit

/-- A call writes the run of the pure function over its block. -/
theorem olaStftWith_call (hn : 2 ≤ n) (hw : w.length = n) (round : RoundTrips p n)
    {s : List R × Nat} (hs : s.1.length = 5 * n) {ctx : ProcessingContext R} {block buf : List R}
    (hctx : OneToOne ctx block buf) (hsize : ctx.blockSize = block.length)
    (hbuf : buf.length = block.length) :
    (olaStftWith w p n).process ⟨s.1, [s.2]⟩ ctx
      = (⟨(olaAfter w n s block).1, [(olaAfter w n s block).2]⟩, [olaRun w n s block]) := by
  have turn : ∀ k < ctx.blockSize,
      Ends (fun f => f = ⟨⟨(olaAfter w n s (block.take k)).1, [(olaAfter w n s (block.take k)).2]⟩,
          [filled (olaRun w n s (block.take k)) buf]⟩)
        (olaTurnWith w p n ctx k)
        fun _ f => f = ⟨⟨(olaAfter w n s (block.take (k + 1))).1,
          [(olaAfter w n s (block.take (k + 1))).2]⟩,
          [filled (olaRun w n s (block.take (k + 1))) buf]⟩ := by
    intro k hk
    rw [hsize] at hk
    rw [take_succ_of (getElem?_eq_asStream hk), olaAfter_append, olaRun_append]
    refine ends_olaTurn hn hw round hctx hk ?_ (by omega) ?_
    · rw [length_olaRun, List.length_take, min_eq_left hk.le]
    · rw [length_olaAfter, hs]
  have whole := run_of_ends (olaStftCodeWith w p n) ⟨s.1, [s.2]⟩ ctx
    (Q := fun f => f = ⟨⟨(olaAfter w n s block).1, [(olaAfter w n s block).2]⟩,
      [olaRun w n s block]⟩) ((ends_loop turn).mono (fun f hf => ?_) fun _ f hf => ?_)
  · exact Prod.ext (congrArg Frame.state whole) (congrArg Frame.outputs whole)
  · rw [hf, hctx.output]
    rfl
  · rw [hsize, List.take_length, filled_whole (by rw [length_olaRun, hbuf])] at hf
    exact hf

/-- What calls from a state block on write, one view after another. -/
def streamFrom (nd : Node R) (s : StateBlock R) (calls : List (ProcessingContext R)) : List R :=
  ((leaves nd s calls).map fun outs => outs.getD 0 []).flatten

/-- Calls write the run over their stream, whatever their sizes. -/
theorem olaStftWith_calls (hn : 2 ≤ n) (hw : w.length = n) (round : RoundTrips p n) :
    ∀ {calls : List (ProcessingContext R)} {s : List R × Nat}, s.1.length = 5 * n →
      SuppliedAll (olaStftWith w p n) calls →
      streamFrom (olaStftWith w p n) ⟨s.1, [s.2]⟩ calls = olaRun w n s (inputStream calls)
  | [], _, _, _               => rfl
  | ctx :: rest, s, hs, hcalls => by
      obtain ⟨nb, hnb⟩ := hcalls ctx List.mem_cons_self
      obtain ⟨block, buf, hctx, hblock, hbuf⟩ := Supplied.oneToOne hnb rfl rfl
      have hblock : block.length = nb := by
        rw [hblock]
        change nb * 1 / 1 = nb
        omega
      have call := olaStftWith_call hn hw round hs hctx (by rw [hnb.block, hblock])
        (by rw [hbuf, hblock])
      have tail := olaStftWith_calls hn hw round
        (s := olaAfter w n s block) (by rw [length_olaAfter, hs])
        fun c hc => hcalls c (List.mem_cons_of_mem ctx hc)
      rw [streamFrom] at tail
      rw [streamFrom, leaves, List.map_cons, List.flatten_cons, call, tail, inputStream_cons hctx,
        olaRun_append]
      rfl

/-- A plan with the tables of a principal root, its size invertible, undoes its own transform. -/
theorem TwiddlesOf.roundTrips (hn : isPowerOfTwo n = true) {cos sin : List R} {W : Split R}
    (t : TwiddlesOf cos sin n W) (invertible : Sample.Rest.div 1 (n : R) * n = 1) :
    RoundTrips (.withTables n cos sin) n := by
  intro f hf
  have lanes : Lanes n (Lane.ofCells (3 * n)) (Lane.ofCells (4 * n)) (InCells n (3 * n) (4 * n) f) :=
    .ofCells (by omega) (by omega)
  let v (i : Nat) : Split R :=
    ⟨asStream f.state.cells (3 * n + i), asStream f.state.cells (4 * n + i)⟩
  have start : InCells n (3 * n) (4 * n) f v f :=
    ⟨rfl, rfl, rfl, fun i hi => getElem?_eq_asStream (by omega),
      fun i hi => getElem?_eq_asStream (by omega), fun _ _ _ => rfl⟩
  obtain ⟨⟨⟩, g, run, v', hv', hg⟩ := ends_round_trip lanes hn t invertible v f start
  rw [run, hg.unique start hv']

/-- With a window whose halves sum to one and a plan that undoes its own transform, what is written
is silence for `n - 1` samples and, from half a frame later on, the input `n - 1` samples before,
as long as the counter has not wrapped; and it does not depend on the blocks. -/
theorem ola_reconstructs (hn : isPowerOfTwo n = true) (h2 : 2 ≤ n) (hw : w.length = n)
    (cola : ∀ i < n / 2, asStream w i + asStream w (i + n / 2) = 1) (round : RoundTrips p n)
    {calls calls' : List (ProcessingContext R)} (hcalls : SuppliedAll (olaStftWith w p n) calls)
    (hcalls' : SuppliedAll (olaStftWith w p n) calls') :
    (∀ t < (inputStream calls).length, t < 2 ^ 64 → t < n - 1 →
      (streamFrom (olaStftWith w p n) (olaReset n) calls)[t]? = some 0) ∧
    (∀ t < (inputStream calls).length, t < 2 ^ 64 → n - 1 + n / 2 ≤ t →
      (streamFrom (olaStftWith w p n) (olaReset n) calls)[t]?
        = (inputStream calls)[t - (n - 1)]?) ∧
    (inputStream calls' = inputStream calls →
      streamFrom (olaStftWith w p n) (olaReset n) calls'
        = streamFrom (olaStftWith w p n) (olaReset n) calls) := by
  have stream {calls : List (ProcessingContext R)} (h : SuppliedAll (olaStftWith w p n) calls) :
      streamFrom (olaStftWith w p n) (olaReset n) calls
        = olaRun w n (List.replicate (5 * n) 0, 0) (inputStream calls) :=
    olaStftWith_calls h2 hw round (s := (List.replicate (5 * n) 0, 0)) List.length_replicate h
  have even : n = 2 * (n / 2) := by
    obtain ⟨m, rfl⟩ := isPowerOfTwo_iff.mp hn
    cases m with
    | zero => omega
    | succ m => omega
  refine ⟨fun t h ht early => ?_, fun t h ht late => ?_, fun same => ?_⟩
  · rw [stream hcalls, getElem?_olaRun_reset h2 hw h ht, olaOut, if_pos (by omega)]
  · rw [stream hcalls, getElem?_olaRun_reset h2 hw h ht, olaOut, if_neg (by omega),
      show t + 2 - n = t - (n - 1) + 1 by omega, show t + 1 - n = t - (n - 1) by omega,
      overlap_whole even (by omega) hw cola (by omega), getElem?_eq_asStream (by omega)]
  · rw [stream hcalls, stream hcalls', same]

section Instances

attribute [local instance] Sample.Rest.exact

/-- The tables of size 2. -/
def twoPlan : FftPlan ℚ := .withTables 2 [1] [0]

theorem twoPlan_roundTrips : RoundTrips twoPlan 2 := by
  have twiddles : TwiddlesOf [1] [0] 2 (-1 : Split ℚ) :=
    ⟨.of_forall_lt (by decide +kernel) (by decide +kernel), rfl, rfl, by decide +kernel,
      by decide +kernel⟩
  exact twiddles.roundTrips (by decide) (by decide +kernel)

/-- The Hann window of size 2. -/
def twoWindow : List ℚ := [0, 1]

theorem twoWindow_cola : ∀ i < 2 / 2, asStream twoWindow i + asStream twoWindow (i + 2 / 2) = 1 := by
  decide +kernel

/-- A block of ones. -/
def onesCall (m : Nat) : ProcessingContext ℚ := oneCall (List.replicate m 1) m

theorem onesCalls_supplied (ms : List Nat) :
    SuppliedAll (olaStftWith twoWindow twoPlan 2) (ms.map onesCall) := by
  intro ctx hctx
  obtain ⟨m, -, rfl⟩ := List.mem_map.mp hctx
  exact ⟨m, rfl, by simp [onesCall, oneCall, olaStftWith], by simp [onesCall, oneCall, olaStftWith],
    rfl, by simp [onesCall, oneCall]⟩

theorem inputStream_onesCall (m : Nat) : inputStream [onesCall m] = List.replicate m 1 := by
  simp [inputStream, onesCall, oneCall]

theorem ola_reconstructs_two :
    (streamFrom (olaStftWith twoWindow twoPlan 2) (olaReset 2) [onesCall 3, onesCall 2])[0]?
      = some 0 ∧
    (streamFrom (olaStftWith twoWindow twoPlan 2) (olaReset 2) [onesCall 3, onesCall 2])[4]?
      = some 1 ∧
    streamFrom (olaStftWith twoWindow twoPlan 2) (olaReset 2) [onesCall 5]
      = streamFrom (olaStftWith twoWindow twoPlan 2) (olaReset 2) [onesCall 3, onesCall 2] := by
  have stream : inputStream [onesCall 3, onesCall 2] = [1, 1, 1, 1, 1] := rfl
  obtain ⟨early, late, same⟩ := ola_reconstructs (n := 2) (w := twoWindow) (by decide) (by decide) rfl
    twoWindow_cola twoPlan_roundTrips (onesCalls_supplied [3, 2]) (onesCalls_supplied [5])
  simp only [List.map_cons, List.map_nil, stream] at early late same
  exact ⟨early 0 (by decide) (by decide) (by decide), late 4 (by decide) (by decide) (by decide),
    same rfl⟩

/-- The counter wraps: the sample at `2 ^ 64` is silent again. -/
theorem counter_wraps :
    (inputStream [onesCall (2 ^ 64 + 1)])[2 ^ 64 - (2 - 1)]? = some 1 ∧
    (streamFrom (olaStftWith twoWindow twoPlan 2) (olaReset 2)
      [onesCall (2 ^ 64 + 1)])[2 ^ 64]? = some 0 := by
  obtain ⟨m, hm⟩ : ∃ m, m = 2 ^ 64 := ⟨_, rfl⟩
  rw [← hm]
  have run := olaStftWith_calls (w := twoWindow) (n := 2) (by decide) rfl twoPlan_roundTrips
    (s := (List.replicate (5 * 2) 0, 0)) List.length_replicate (onesCalls_supplied [m + 1])
  rw [List.map_cons, List.map_nil, inputStream_onesCall] at run
  constructor
  · rw [inputStream_onesCall, List.getElem?_replicate, if_pos (by omega)]
  · refine (congrArg (·[m]?) run).trans ?_
    have counter := olaAfter_counter (w := twoWindow) (n := 2) (List.replicate (5 * 2) 0, 0)
      ((List.replicate (m + 1) (1 : ℚ)).take m) (by decide)
    rw [List.length_take, List.length_replicate, min_eq_left (by omega), Nat.zero_add, ← hm,
      Nat.mod_self] at counter
    rw [getElem?_olaRun _ _ _ (by rw [List.length_replicate]; omega)]
    generalize olaAfter twoWindow 2 _ _ = s at counter
    simp [olaStep, counter]

end Instances

end Xrune.Nodes
