import Mathlib

/-!
# Support — computations that may stop

A computation on a state that may stop at an error (`StateT σ (Except ε)`).  `Keeps I m Q` is
total correctness with an invariant: from every state that meets `I` the computation ends, in
such a state, with a result that meets `Q`.  `Stays I m` is what is left when it may stop: if it
ends it ends in such a state.  A computation that ends has ended in each of its parts
(`run_bind_ok`, `Stays.forM_ok`).
-/

namespace Xrune

variable {σ ε β γ ι : Type}

/-- From every state that meets `I` the computation ends in such a state. -/
def Keeps (I : σ → Prop) (m : StateT σ (Except ε) β) (Q : β → Prop) : Prop :=
  ∀ s, I s → ∃ b t, m.run s = .ok (b, t) ∧ I t ∧ Q b

namespace Keeps

variable {I : σ → Prop} {m : StateT σ (Except ε) β} {Q R : β → Prop}

theorem pure {b : β} (h : Q b) : Keeps I (pure b : StateT σ (Except ε) β) Q :=
  fun s hs => ⟨b, s, rfl, hs, h⟩

theorem mono (h : Keeps I m Q) (sub : ∀ b, Q b → R b) : Keeps I m R := by
  intro s hs
  obtain ⟨b, t, run, ht, hb⟩ := h s hs
  exact ⟨b, t, run, ht, sub b hb⟩

theorem bind {f : β → StateT σ (Except ε) γ} {R : γ → Prop} (h : Keeps I m Q)
    (hf : ∀ b, Q b → Keeps I (f b) R) : Keeps I (m >>= f) R := by
  intro s hs
  obtain ⟨b, t, run, ht, hb⟩ := h s hs
  obtain ⟨c, u, run', hu, hc⟩ := hf b hb t ht
  refine ⟨c, u, ?_, hu, hc⟩
  rw [StateT.run_bind, run]
  exact run'

/-- ... where the rest does not depend on the result. -/
theorem seq {f : β → StateT σ (Except ε) γ} {R : γ → Prop} (h : Keeps I m Q)
    (hf : ∀ b, Keeps I (f b) R) : Keeps I (m >>= f) R :=
  h.bind fun b _ => hf b

theorem ite {c : Prop} [Decidable c] {m' : StateT σ (Except ε) β} (h : c → Keeps I m Q)
    (h' : ¬c → Keeps I m' Q) : Keeps I (if c then m else m') Q := by
  by_cases hc : c
  · rw [if_pos hc]; exact h hc
  · rw [if_neg hc]; exact h' hc

theorem forM {body : ι → StateT σ (Except ε) PUnit} {l : List ι} {Q : PUnit → Prop}
    (h : ∀ i ∈ l, Keeps I (body i) fun _ => True) (hQ : Q ⟨⟩) : Keeps I (l.forM body) Q := by
  induction l with
  | nil => exact .pure hQ
  | cons i l ih =>
      exact (h i List.mem_cons_self).seq fun _ => ih fun j hj => h j (List.mem_cons_of_mem i hj)

theorem foldlM {f : β → ι → StateT σ (Except ε) β} {l : List ι}
    (h : ∀ i ∈ l, ∀ b, Q b → Keeps I (f b i) Q) : ∀ {b : β}, Q b → Keeps I (l.foldlM f b) Q := by
  induction l with
  | nil => exact fun hb => .pure hb
  | cons i l ih =>
      exact fun hb => (h i List.mem_cons_self _ hb).bind fun c hc =>
        ih (fun j hj => h j (List.mem_cons_of_mem i hj)) hc

end Keeps

/-- A computation that ends has ended in its first part. -/
theorem run_bind_ok {m : StateT σ (Except ε) β} {f : β → StateT σ (Except ε) γ} {s u : σ} {c : γ}
    (h : (m >>= f).run s = .ok (c, u)) :
    ∃ b t, m.run s = .ok (b, t) ∧ (f b).run t = .ok (c, u) := by
  rw [StateT.run_bind] at h
  cases hm : m.run s with
  | error e => rw [hm] at h; cases h
  | ok p => rw [hm] at h; exact ⟨p.1, p.2, rfl, h⟩

/-- If the computation ends, it ends in a state that meets `I` when it began in one. -/
def Stays (I : σ → Prop) (m : StateT σ (Except ε) β) : Prop :=
  ∀ s b t, I s → m.run s = .ok (b, t) → I t

namespace Stays

variable {I : σ → Prop} {m : StateT σ (Except ε) β}

theorem pure {b : β} : Stays I (pure b : StateT σ (Except ε) β) := by
  intro s c t hs h
  cases h
  exact hs

theorem throw {e : ε} : Stays I (throw e : StateT σ (Except ε) β) := fun _ _ _ _ h => nomatch h

theorem bind {f : β → StateT σ (Except ε) γ} (h : Stays I m) (hf : ∀ b, Stays I (f b)) :
    Stays I (m >>= f) := by
  intro s c u hs run
  obtain ⟨b, t, hm, hrest⟩ := run_bind_ok run
  exact hf b t c u (h s b t hs hm) hrest

theorem ite {c : Prop} [Decidable c] {m' : StateT σ (Except ε) β} (h : Stays I m)
    (h' : Stays I m') : Stays I (if c then m else m') := by
  split
  · exact h
  · exact h'

theorem forM {body : ι → StateT σ (Except ε) PUnit} (h : ∀ i, Stays I (body i)) :
    ∀ l : List ι, Stays I (l.forM body)
  | []     => .pure
  | i :: l => (h i).bind fun _ => forM h l

/-- A loop that ends has ended in each turn, begun in a state that meets the invariant. -/
theorem forM_ok {body : ι → StateT σ (Except ε) PUnit} (h : ∀ i, Stays I (body i)) :
    ∀ {l : List ι} {s t : σ}, I s → (l.forM body).run s = .ok ((), t) →
      ∀ i ∈ l, ∃ s' t', I s' ∧ (body i).run s' = .ok ((), t')
  | j :: l, s, t, hs, run, i, hi => by
      obtain ⟨⟨⟩, s₁, hj, hrest⟩ := run_bind_ok run
      rcases List.mem_cons.mp hi with rfl | hi
      · exact ⟨s, s₁, hs, hj⟩
      · exact forM_ok h (h j s _ s₁ hs hj) hrest i hi

end Stays

/-- A fold that ends has ended in each turn. -/
theorem foldlM_ok {f : β → ι → StateT σ (Except ε) β} :
    ∀ {l : List ι} {b : β} {s : σ} {r : β × σ}, (l.foldlM f b).run s = .ok r →
      ∀ i ∈ l, ∃ c s' r', (f c i).run s' = .ok r'
  | j :: l, b, s, r, run, i, hi => by
      obtain ⟨c, t, hj, hrest⟩ := run_bind_ok run
      rcases List.mem_cons.mp hi with rfl | hi
      · exact ⟨b, s, _, hj⟩
      · exact foldlM_ok hrest i hi

end Xrune
