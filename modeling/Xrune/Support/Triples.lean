import Mathlib

/-!
# Support — total correctness of computations that may stop

A computation on a state that may stop at an error (`StateT σ (Except ε)`).  `Ends P m Q` is a
triple: from every state that meets `P` the computation ends, and `Q` holds of its result and of
the state it leaves.  The rules compose triples along a computation; a loop over `0, 1, .., n - 1`
has an invariant indexed by the turns made (`Ends.range`, `Ends.foldRange`).
-/

namespace Xrune

variable {σ ε β γ : Type}

/-- From every state that meets `P` the computation ends, with a result and a state that meet
`Q`. -/
def Ends (P : σ → Prop) (m : StateT σ (Except ε) β) (Q : β → σ → Prop) : Prop :=
  ∀ s, P s → ∃ b t, m.run s = .ok (b, t) ∧ Q b t

namespace Ends

variable {P P' : σ → Prop} {m : StateT σ (Except ε) β} {Q Q' : β → σ → Prop}

theorem pure {b : β} (h : ∀ s, P s → Q b s) : Ends P (pure b : StateT σ (Except ε) β) Q :=
  fun s hs => ⟨b, s, rfl, h s hs⟩

theorem get : Ends P (get : StateT σ (Except ε) σ) fun t s => t = s ∧ P s :=
  fun s hs => ⟨s, s, rfl, rfl, hs⟩

theorem set {t : σ} {Q : PUnit → σ → Prop} (h : Q ⟨⟩ t) :
    Ends P (set t : StateT σ (Except ε) PUnit) Q :=
  fun _ _ => ⟨⟨⟩, t, rfl, h⟩

/-- The rule of consequence. -/
theorem mono (h : Ends P m Q) (pre : ∀ s, P' s → P s) (post : ∀ b s, Q b s → Q' b s) :
    Ends P' m Q' := by
  intro s hs
  obtain ⟨b, t, run, hb⟩ := h s (pre s hs)
  exact ⟨b, t, run, post b t hb⟩

theorem post (h : Ends P m Q) (post : ∀ b s, Q b s → Q' b s) : Ends P m Q' :=
  h.mono (fun _ hs => hs) post

theorem bind {f : β → StateT σ (Except ε) γ} {R : γ → σ → Prop} (h : Ends P m Q)
    (hf : ∀ b, Ends (Q b) (f b) R) : Ends P (m >>= f) R := by
  intro s hs
  obtain ⟨b, t, run, hb⟩ := h s hs
  obtain ⟨c, u, run', hc⟩ := hf b t hb
  refine ⟨c, u, ?_, hc⟩
  rw [StateT.run_bind, run]
  exact run'

/-- ... where the first part has one possible result. -/
theorem bindEq {f : β → StateT σ (Except ε) γ} {R : γ → σ → Prop} {b : β} {S : σ → Prop}
    (h : Ends P m fun c s => c = b ∧ S s) (hf : Ends S (f b) R) : Ends P (m >>= f) R := by
  refine h.bind fun c s hs => ?_
  obtain ⟨rfl, hs⟩ := hs
  exact hf s hs

theorem ite {c : Prop} [Decidable c] {m' : StateT σ (Except ε) β} (h : c → Ends P m Q)
    (h' : ¬c → Ends P m' Q) : Ends P (if c then m else m') Q := by
  by_cases hc : c
  · rw [if_pos hc]; exact h hc
  · rw [if_neg hc]; exact h' hc

/-- A precondition that does not depend on the state. -/
theorem given {p : Prop} (h : p → Ends P m Q) : Ends (fun s => p ∧ P s) m Q :=
  fun s hs => h hs.1 s hs.2

/-- A precondition with a witness. -/
theorem given_exists {ι : Sort*} {P : ι → σ → Prop} (h : ∀ i, Ends (P i) m Q) :
    Ends (fun s => ∃ i, P i s) m Q :=
  fun s ⟨i, hs⟩ => h i s hs

/-- A loop over a list, its invariant indexed by what is still to do. -/
theorem forM {ι : Type} {body : ι → StateT σ (Except ε) PUnit} {I : List ι → σ → Prop} :
    ∀ {l : List ι}, (∀ i rest, (i :: rest) <:+ l → Ends (I (i :: rest)) (body i) fun _ => I rest) →
      Ends (I l) (l.forM body) fun _ => I []
  | [], _     => .pure fun _ hs => hs
  | i :: l, h => (h i l List.suffix_rfl).bind fun _ =>
      forM fun j rest hj => h j rest (hj.trans (List.suffix_cons i l))

private theorem rangeFrom {I : Nat → σ → Prop} {body : Nat → StateT σ (Except ε) PUnit} :
    ∀ (n k : Nat), (∀ i, k ≤ i → i < k + n → Ends (I i) (body i) fun _ => I (i + 1)) →
      Ends (I k) ((List.range' k n).forM body) fun _ => I (k + n)
  | 0, _, _     => .pure fun _ hs => hs
  | n + 1, k, h => by
      rw [List.range'_succ]
      refine (h k le_rfl (by omega)).bind fun _ => ?_
      rw [show k + (n + 1) = k + 1 + n by omega]
      exact rangeFrom n (k + 1) fun i hi hlt => h i (by omega) (by omega)

/-- A loop over `0, 1, .., n - 1`, its invariant indexed by the turns made. -/
theorem range {I : Nat → σ → Prop} {body : Nat → StateT σ (Except ε) PUnit} {n : Nat}
    (h : ∀ i < n, Ends (I i) (body i) fun _ => I (i + 1)) :
    Ends (I 0) ((List.range n).forM body) fun _ => I n := by
  rw [List.range_eq_range']
  simpa using rangeFrom n 0 fun i _ hlt => h i (by omega)

private theorem foldFrom {I : Nat → β → σ → Prop} {f : β → Nat → StateT σ (Except ε) β} :
    ∀ (n k : Nat) (b : β),
      (∀ i, k ≤ i → i < k + n → ∀ b, Ends (I i b) (f b i) (I (i + 1))) →
        Ends (I k b) ((List.range' k n).foldlM f b) (I (k + n))
  | 0, _, _, _     => .pure fun _ hs => hs
  | n + 1, k, b, h => by
      rw [List.range'_succ]
      refine (h k le_rfl (by omega) b).bind fun c => ?_
      rw [show k + (n + 1) = k + 1 + n by omega]
      exact foldFrom n (k + 1) c fun i hi hlt => h i (by omega) (by omega)

/-- A fold over `0, 1, .., n - 1`, its invariant indexed by the turns made. -/
theorem foldRange {I : Nat → β → σ → Prop} {f : β → Nat → StateT σ (Except ε) β} {n : Nat} {b : β}
    (h : ∀ i < n, ∀ b, Ends (I i b) (f b i) (I (i + 1))) :
    Ends (I 0 b) ((List.range n).foldlM f b) (I n) := by
  rw [List.range_eq_range']
  simpa using foldFrom n 0 b fun i _ hlt => h i (by omega)

end Ends

end Xrune
