import Mathlib

/-!
# Support — computations that may fail

Inversion of computations in `Except`: a sequence that ends has ended in each part, a `mapM` has
a result for each element, and a `foldlM` keeps what each turn keeps.
-/

namespace Xrune

variable {ε β γ ι : Type}

theorem except_ok_bind (b : β) (f : β → Except ε γ) : (Except.ok b >>= f) = f b := rfl

theorem except_bind_ok {m : Except ε β} {f : β → Except ε γ} {c : γ}
    (h : m >>= f = .ok c) : ∃ b, m = .ok b ∧ f b = .ok c := by
  cases m with
  | error e => cases h
  | ok b => exact ⟨b, rfl, h⟩

theorem except_bind_congr {m : Except ε β} {f g : β → Except ε γ}
    (h : ∀ b, m = .ok b → f b = g b) : m >>= f = m >>= g := by
  cases m with
  | error e => rfl
  | ok b => exact h b rfl

theorem mapM_ok_iff {f : ι → Except ε β} :
    ∀ {l : List ι} {l' : List β}, l.mapM f = .ok l' ↔ List.Forall₂ (fun x y => f x = .ok y) l l'
  | [], l' => by
      rw [List.mapM_nil, List.forall₂_nil_left_iff]
      exact ⟨fun h => (Except.ok.inj h).symm, fun h => h ▸ rfl⟩
  | x :: l, l' => by
      rw [List.mapM_cons]
      constructor
      · intro h
        obtain ⟨y, hy, h⟩ := except_bind_ok h
        obtain ⟨ys, hys, h⟩ := except_bind_ok h
        obtain rfl := Except.ok.inj h
        exact .cons hy (mapM_ok_iff.mp hys)
      · rintro (_ | ⟨hy, hys⟩)
        rw [hy, mapM_ok_iff.mpr hys]
        rfl

/-- Lists related element by element agree on what related elements agree on. -/
theorem forall_mem_iff_of_forall₂ {R : ι → β → Prop} {P : ι → Prop} {Q : β → Prop}
    (agree : ∀ x y, R x y → (P x ↔ Q y)) {l : List ι} {l' : List β} (h : List.Forall₂ R l l') :
    (∀ x ∈ l, P x) ↔ ∀ y ∈ l', Q y := by
  induction h with
  | nil => simp
  | cons one _ ih => rw [List.forall_mem_cons, List.forall_mem_cons, agree _ _ one, ih]

/-- What every turn of a fold keeps, the fold keeps. -/
theorem foldlM_keeps {P : β → Prop} {f : β → ι → Except ε β}
    (step : ∀ b i c, P b → f b i = .ok c → P c) :
    ∀ {l : List ι} {b c : β}, P b → l.foldlM f b = .ok c → P c
  | [], b, c, hb, h => by
      obtain rfl := Except.ok.inj h
      exact hb
  | i :: l, b, c, hb, h => by
      obtain ⟨b', hb', h⟩ := except_bind_ok h
      exact foldlM_keeps step (step b i b' hb hb') h

theorem foldlM_some_keeps {P : β → Prop} {f : β → ι → Option β}
    (step : ∀ b i c, P b → f b i = some c → P c) :
    ∀ {l : List ι} {b c : β}, P b → l.foldlM f b = some c → P c
  | [], _, _, hb, h => Option.some.inj h ▸ hb
  | i :: l, b, c, hb, h => by
      obtain ⟨b', hb', h⟩ := Option.bind_eq_some_iff.mp h
      exact foldlM_some_keeps step (step b i b' hb hb') h

/-- A fold whose turns succeed wherever another's do. -/
theorem foldlM_mono {f g : β → ι → Option β} (turn : ∀ b i c, f b i = some c → g b i = some c) :
    ∀ {l : List ι} {b c : β}, l.foldlM f b = some c → l.foldlM g b = some c
  | [], _, _, h => h
  | i :: l, b, c, h => by
      rw [List.foldlM_cons] at h ⊢
      obtain ⟨b', one, rest⟩ := Option.bind_eq_some_iff.mp h
      exact Option.bind_eq_some_iff.mpr ⟨b', turn b i b' one, foldlM_mono turn rest⟩

end Xrune
