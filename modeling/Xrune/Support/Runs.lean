import Mathlib

/-!
# Support — runs of a step function

A machine is a step function `σ → ι → Option σ`: an action is either refused or takes a state
to a state.  A run may be restricted to steps that meet a condition on the state before the
step and the action (`Reaches step ok`); with the condition `fun _ _ => True` the run is any
run.  An invariant of the start that the steps meeting the condition preserve holds at the end
(`Reaches.invariant`).
-/

namespace Xrune

variable {σ τ ι κ : Type*}

/-- What each turn of a loop keeps, the loop keeps. -/
theorem foldl_keeps {β γ : Type*} (p : σ → γ) {f : σ → β → σ} (h : ∀ s b, p (f s b) = p s) :
    ∀ (l : List β) (s : σ), p (l.foldl f s) = p s
  | [], _     => rfl
  | b :: l, s => (foldl_keeps p h l (f s b)).trans (h s b)

/-- Two loops whose turns agree in the states the loop is in. -/
theorem foldl_eq_of_keeps {β : Type*} {I : σ → Prop} {f g : σ → β → σ}
    (keeps : ∀ s b, I s → I (g s b)) (same : ∀ s b, I s → f s b = g s b) :
    ∀ (l : List β) (s : σ), I s → l.foldl f s = l.foldl g s
  | [], _, _     => rfl
  | b :: l, s, h => by
      rw [List.foldl_cons, List.foldl_cons, same s b h]
      exact foldl_eq_of_keeps keeps same l _ (keeps s b h)

/-- A computation that succeeds has succeeded in its first part. -/
theorem Except.bind_ok {ε β γ : Type} {x : Except ε β} {f : β → Except ε γ} {c : γ}
    (h : (x >>= f) = .ok c) : ∃ b, x = .ok b ∧ f b = .ok c := by
  cases x with
  | error msg => cases h
  | ok b => exact ⟨b, rfl, h⟩

/-- `t` is reached from `s` by steps that each meet `ok`. -/
inductive Reaches (step : σ → ι → Option σ) (ok : σ → ι → Prop) (s : σ) : σ → Prop where
  | refl : Reaches step ok s s
  | tail {t u : σ} {a : ι} (run : Reaches step ok s t) (meets : ok t a)
      (one : step t a = some u) : Reaches step ok s u

/-- The actions `as`, one after another. -/
def runs (step : σ → ι → Option σ) : σ → List ι → Option σ
  | s, []      => some s
  | s, a :: as => (step s a).bind fun t => runs step t as

theorem runs_append (step : σ → ι → Option σ) (s : σ) (as bs : List ι) :
    runs step s (as ++ bs) = (runs step s as).bind fun t => runs step t bs := by
  induction as generalizing s with
  | nil => rfl
  | cons a as ih =>
      rw [List.cons_append, runs, runs, Option.bind_assoc]
      exact congrArg _ (funext ih)

/-- The rest of a run, from a state on its way. -/
theorem runs_after {step : σ → ι → Option σ} {s t u : σ} {as bs : List ι} {a : ι}
    (h : runs step s as = some t) (one : step t a = some u) :
    runs step s (as ++ a :: bs) = runs step u bs := by
  rw [runs_append, h, Option.bind_some, runs, one, Option.bind_some]

/-- A state that a list of actions leads to, with what is tested of it. -/
theorem exists_of_runs (step : σ → ι → Option σ) (s : σ) (as : List ι) (p : σ → Bool)
    (h : (runs step s as).any p = true) : ∃ t, runs step s as = some t ∧ p t = true :=
  (Option.any_eq_true _ _).mp h

/-- The actions `as` each meet `ok` in the state they are taken in. -/
def allMeet (step : σ → ι → Option σ) (ok : σ → ι → Bool) : σ → List ι → Bool
  | _, []      => true
  | s, a :: as => ok s a && (step s a).all fun t => allMeet step ok t as

namespace Reaches

variable {step : σ → ι → Option σ} {ok ok' : σ → ι → Prop} {s t u : σ}

theorem single {a : ι} (meets : ok s a) (one : step s a = some t) : Reaches step ok s t :=
  .tail .refl meets one

theorem trans (h₁ : Reaches step ok s t) (h₂ : Reaches step ok t u) : Reaches step ok s u := by
  induction h₂ with
  | refl => exact h₁
  | tail _ meets one ih => exact .tail ih meets one

theorem mono (h : ∀ t a, ok t a → ok' t a) (run : Reaches step ok s t) :
    Reaches step ok' s t := by
  induction run with
  | refl => exact .refl
  | tail _ meets one ih => exact .tail ih (h _ _ meets) one

/-- What holds at the start and is preserved holds at every state reached. -/
theorem invariant {Inv : σ → Prop} (init : Inv s)
    (preserved : ∀ t a u, Inv t → ok t a → step t a = some u → Inv u)
    (run : Reaches step ok s t) : Inv t := by
  induction run with
  | refl => exact init
  | tail _ meets one ih => exact preserved _ _ _ ih meets one

/-- A run of `step` is, seen through `f`, a run of `step'`: each step is one of `step'` or
leaves the image where it is. -/
theorem project {step' : τ → κ → Option τ} {ok' : τ → κ → Prop} {Inv : σ → Prop} (f : σ → τ)
    (init : Inv s) (preserved : ∀ t a u, Inv t → ok t a → step t a = some u → Inv u)
    (sim : ∀ t a u, Inv t → ok t a → step t a = some u →
      f u = f t ∨ ∃ b, ok' (f t) b ∧ step' (f t) b = some (f u))
    (run : Reaches step ok s t) : Reaches step' ok' (f s) (f t) := by
  have both : Inv t ∧ Reaches step' ok' (f s) (f t) := by
    induction run with
    | refl => exact ⟨init, .refl⟩
    | tail _ meets one ih =>
        obtain ⟨inv, run⟩ := ih
        refine ⟨preserved _ _ _ inv meets one, ?_⟩
        rcases sim _ _ _ inv meets one with same | ⟨b, hb, hs⟩
        · exact same ▸ run
        · exact .tail run hb hs
  exact both.2

/-- A run of listed actions is a run. -/
theorem of_runs {as : List ι} (h : runs step s as = some t) :
    Reaches step (fun _ _ => True) s t := by
  induction as generalizing s with
  | nil => cases h; exact .refl
  | cons a as ih =>
      obtain ⟨m, hm, hrest⟩ := Option.bind_eq_some_iff.mp h
      exact (single trivial hm).trans (ih hrest)

/-- A run of listed actions that each meet `ok` is a run of such steps. -/
theorem of_runs_meet {as : List ι} {ok : σ → ι → Bool} (h : runs step s as = some t)
    (meet : allMeet step ok s as = true) : Reaches step (fun s a => ok s a = true) s t := by
  induction as generalizing s with
  | nil => cases h; exact .refl
  | cons a as ih =>
      obtain ⟨m, hm, hrest⟩ := Option.bind_eq_some_iff.mp h
      simp only [allMeet, hm, Option.all_some, Bool.and_eq_true] at meet
      have first : Reaches step (fun s a => ok s a = true) s m := single meet.1 hm
      exact first.trans (ih hrest meet.2)

/-- A run of listed actions that meet `ok` in whatever state they are taken. -/
theorem of_runs_all {as : List ι} (h : runs step s as = some t) (meet : ∀ a ∈ as, ∀ u, ok u a) :
    Reaches step ok s t := by
  induction as generalizing s with
  | nil => cases h; exact .refl
  | cons a as ih =>
      obtain ⟨m, hm, hrest⟩ := Option.bind_eq_some_iff.mp h
      have rest := ih hrest fun b hb => meet b (List.mem_cons_of_mem a hb)
      exact (single (meet a List.mem_cons_self s) hm).trans rest

end Reaches

end Xrune
