import Xrune.Support.Stateful

/-!
# Support — computations with enough fuel

A computation is fuelled when it runs out of fuel from no state: it ends in a result, or it stops
for another reason.  It is fuelled if its parts are.  It has a result only if a condition holds
(`OnlyIf`), when that is so of one of its parts.
-/

namespace Xrune.Stateful

variable {σ ε β γ ι : Type}

/-- The computation does not run out of fuel. -/
def Fuelled (m : Stateful σ ε β) : Prop := ∀ s, (m s).1.stop? ≠ some .timeout

/-- The computation ends in a result only if `P`. -/
def OnlyIf (m : Stateful σ ε β) (P : Prop) : Prop := ∀ s b s', m s = (.ok b, s') → P

namespace Fuelled

theorem pure (b : β) : Fuelled (pure b : Stateful σ ε β) :=
  fun _ h => by cases h

theorem get : Fuelled (get : Stateful σ ε σ) := fun _ h => by cases h

theorem modify (f : σ → σ) : Fuelled (modify f : Stateful σ ε Unit) :=
  fun _ h => by cases h

theorem abort (e : ε) : Fuelled (abort e : Stateful σ ε β) := fun _ h => by cases h

theorem orTrap (o : Option β) : Fuelled (orTrap o : Stateful σ ε β) := by
  cases o with
  | none =>
      intro s h
      cases h
  | some b => exact .pure b

theorem bind {m : Stateful σ ε β} {f : β → Stateful σ ε γ} (first : Fuelled m)
    (next : ∀ b, Fuelled (f b)) : Fuelled (m >>= f) := by
  intro s
  cases run : m s with
  | mk o s' =>
      cases o with
      | ok b =>
          rw [bind_of_ok run]
          exact next b s'
      | stop e =>
          have own := first s
          rw [run] at own
          rw [bind_of_stop run]
          exact own

theorem ite {p : Prop} [Decidable p] {m n : Stateful σ ε β} (pos : p → Fuelled m)
    (neg : ¬p → Fuelled n) : Fuelled (if p then m else n) := by
  split_ifs with h
  · exact pos h
  · exact neg h

theorem foldlM {f : β → ι → Stateful σ ε β} :
    ∀ {is : List ι} {b : β}, (∀ b, ∀ i ∈ is, Fuelled (f b i)) → Fuelled (is.foldlM f b)
  | [], b, _ => .pure b
  | i :: is, b, turn => by
      rw [List.foldlM_cons]
      refine (turn b i List.mem_cons_self).bind fun b' => ?_
      exact foldlM fun b j hj => turn b j (List.mem_cons_of_mem i hj)

theorem forM {f : ι → Stateful σ ε Unit} (turn : ∀ i, Fuelled (f i)) :
    ∀ is : List ι, Fuelled (is.forM f)
  | [] => .pure ()
  | i :: is => (turn i).bind fun _ => forM turn is

end Fuelled

namespace OnlyIf

variable {P Q : Prop}

theorem mono {m : Stateful σ ε β} (h : OnlyIf m P) (le : P → Q) : OnlyIf m Q :=
  fun s b s' run => le (h s b s' run)

theorem and {m : Stateful σ ε β} (h : OnlyIf m P) (h' : OnlyIf m Q) : OnlyIf m (P ∧ Q) :=
  fun s b s' run => ⟨h s b s' run, h' s b s' run⟩

theorem halt (e : Stop ε) : OnlyIf (halt e : Stateful σ ε β) P := by
  intro s b s' run
  cases run

theorem first {m : Stateful σ ε β} {f : β → Stateful σ ε γ} (h : OnlyIf m P) :
    OnlyIf (m >>= f) P := by
  intro s c s' run
  obtain ⟨b, s₁, one, -⟩ := bind_ok.mp run
  exact h s b s₁ one

theorem next {m : Stateful σ ε β} {f : β → Stateful σ ε γ} (h : ∀ b, OnlyIf (f b) P) :
    OnlyIf (m >>= f) P := by
  intro s c s' run
  obtain ⟨b, s₁, -, rest⟩ := bind_ok.mp run
  exact h b s₁ c s' rest

theorem ite {p : Prop} [Decidable p] {m n : Stateful σ ε β} (pos : p → OnlyIf m P)
    (neg : ¬p → OnlyIf n P) : OnlyIf (if p then m else n) P := by
  split_ifs with h
  · exact pos h
  · exact neg h

/-- A loop ends in a result only if each of its turns does. -/
theorem foldlM {f : β → ι → Stateful σ ε β} {R : ι → Prop} :
    ∀ {is : List ι} {b : β}, (∀ b, ∀ i ∈ is, OnlyIf (f b i) (R i)) →
      OnlyIf (is.foldlM f b) (∀ i ∈ is, R i)
  | [], _, _ => fun _ _ _ _ _ h => absurd h List.not_mem_nil
  | i :: is, b, turn => by
      rw [List.foldlM_cons]
      have one : OnlyIf (f b i) (R i) := turn b i List.mem_cons_self
      have rest : ∀ b', OnlyIf (is.foldlM f b') (∀ j ∈ is, R j) := fun _ =>
        foldlM fun b j hj => turn b j (List.mem_cons_of_mem i hj)
      exact (one.first.and (.next rest)).mono List.forall_mem_cons.mpr

end OnlyIf

end Xrune.Stateful
