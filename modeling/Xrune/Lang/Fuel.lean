import Xrune.Lang.Linked
import Xrune.Support.Errors

/-!
# Lang — fuel

More fuel changes no result but that of running out of it.  A lowering with less fuel is linked
to one with more over equal states, and may stop early only by running out.
-/

namespace Xrune

namespace Stateful

variable {σ ε β : Type}

/-- Equal states; the first run may run out of fuel where the second does not. -/
def Link.lagging (σ ε : Type) : Link σ σ ε Unit where
  rel _ s t := s = t
  stop x y := x.1 = .timeout ∨ y = (some x.1, x.2)
  early := by
    rintro e s t (h | h) x
    · exact .inl h
    · cases h

variable {w : Unit}

theorem Linked.same (m : Stateful σ ε β) : Linked (Link.lagging σ ε) w (fun _ => Eq) m m := by
  rintro s _ rfl
  rcases m s with ⟨b | e, s'⟩
  · exact ⟨(), le_rfl, rfl, rfl⟩
  · exact .inr rfl

/-- What a lagging run ends in, if it did not run out of fuel, the other ends in. -/
theorem Linked.eq_of_lagging {m m' : Stateful σ ε β}
    (h : Linked (Link.lagging σ ε) w (fun _ => Eq) m m') {s s' : σ} {o : Outcome ε β}
    (run : m s = (o, s')) (fuelled : o.stop? ≠ some .timeout) : m' s = (o, s') := by
  have ends := h s s rfl
  rw [run] at ends
  rcases o with b | e
  · rcases hm : m' s with ⟨c | e', t⟩ <;> rw [hm] at ends
    · obtain ⟨-, -, rfl, rfl⟩ := ends
      rfl
    · exact ends.elim
  · rcases ends with rfl | ends
    · exact absurd rfl fuelled
    · rcases hm : m' s with ⟨c | e', t⟩ <;> rw [hm] at ends <;> cases ends
      rfl

end Stateful

namespace Lang

open Stateful

variable {α : Type} (reg : NodeRegistry α)

/-- Equal indices, channels and names. -/
def Transfer.same : Transfer reg (Link.lagging (Lowerer α) Diagnostic) where
  inp _ := Eq
  outp _ := Eq
  target _ := Eq
  made _ nd i j := i = j
  name _ := Eq
  laterInp _ := id
  laterOut _ := id
  laterMade _ := id
  laterName _ := id
  halts := fun h e => .inr (h ▸ rfl)
  noName _ := rfl
  port := fun h _ _ => h ▸ rfl
  channel := fun h _ _ => h ▸ rfl
  fragment := by
    rintro w nd i _ rfl
    exact (Linked.same _).mono fun _ _ f g h =>
      h ▸ ⟨List.forall₂_same.mpr fun _ _ => rfl, List.forall₂_same.mpr fun _ _ => rfl⟩
  ofInp := id
  ofMade := fun h _ => h ▸ rfl
  add := by
    rintro w type args nd - p _ rfl g
    exact .same _
  wire := by
    rintro w c _ i _ rfl rfl pos
    exact (Linked.same _).mono fun _ _ _ _ _ => trivial
  bindScalar := by
    rintro w nd i _ rfl - e
    exact (Linked.same _).mono fun _ _ _ _ _ => trivial
  bindArguments := by
    rintro w nd i _ rfl args
    exact (Linked.same _).mono fun _ _ _ _ _ => trivial
  countUse text := (Linked.same _).mono fun _ _ _ _ _ => trivial
  prefixes h := congrArg _ h
  qualified h n := congrArg (Lowerer.qualify · n) h
  enter := by
    rintro w p _ rfl
    exact (Linked.same _).mono fun _ _ _ _ _ => trivial

theorem Transfer.same_ofRune : (Transfer.same reg).OfRune where
  modulate := by
    rintro w c _ rfl pos target
    exact (Linked.same _).mono fun _ _ _ _ _ => trivial
  explicitWire := by
    rintro w c _ rfl pos node i
    exact (Linked.same _).mono fun _ _ _ _ _ => trivial
  input := by
    rintro w nd i _ rfl n
    exact (Linked.same _).mono fun _ _ _ _ _ => trivial
  addNamed _ n := .same _
  openTerminal _ n := (Linked.same _).mono fun _ _ _ _ _ => trivial
  placeChannel := by
    rintro w c _ rfl pos n k
    exact (Linked.same _).mono fun _ _ _ _ _ => trivial

theorem Transfer.same_declares : Declares (Link.lagging (Lowerer α) Diagnostic) :=
  fun _ _ _ => (Linked.same _).mono fun _ _ _ _ _ => trivial

variable [Sample α] {reg} (B : Builtins reg) {sigils : List (Definition α)}

include B

theorem evalExpr_lags :
    ∀ fuel, (Transfer.same reg).Evals (evalExpr reg sigils fuel) (evalExpr reg sigils (fuel + 1))
  | 0        => fun _ _ _ _ _ _ _ _ _ _ _ => .inl rfl
  | fuel + 1 => (Transfer.same reg).evalStep_linked B (evalExpr_lags fuel)
      fun _ _ _ _ _ => (Transfer.same_ofRune reg).toByName

theorem lowerRune_lags (fuel : Nat) (r : Definition α) :
    Linked (Link.lagging (Lowerer α) Diagnostic) () (fun _ => Eq)
      (lowerRune reg sigils (evalExpr reg sigils fuel) r)
      (lowerRune reg sigils (evalExpr reg sigils (fuel + 1)) r) := by
  refine (Linked.same (modify Lowerer.reset)).bind fun _ _ _ _ _ => ?_
  refine ((Transfer.same reg).runeBody_linked (evalExpr_lags B fuel)
    (Transfer.same_ofRune reg) Transfer.same_declares r).bind fun _ _ sc sc' hsc => ?_
  refine (Linked.same (modify Lowerer.finalizeOutputs)).bind fun _ _ _ _ _ => ?_
  refine (Linked.same (modify Lowerer.flagPartial)).bind fun _ _ _ _ _ => ?_
  rw [hsc.haveOut]
  exact .same _

theorem lowerTurn_mono {fuel : Nat} {acc acc' : Lowerer α × LowerResult α} {r : Definition α}
    (h : lowerTurn reg sigils (evalExpr reg sigils fuel) acc r = some acc') :
    lowerTurn reg sigils (evalExpr reg sigils (fuel + 1)) acc r = some acc' := by
  have lags := @lowerRune_lags α reg _ B sigils fuel r
  rcases (lowerTurn_eq_some _ _ _).mp h with ⟨s, run, rfl⟩ | ⟨d, s, run, rfl⟩
  · exact (lowerTurn_eq_some _ _ _).mpr (.inl ⟨s, lags.eq_of_lagging run (nomatch ·), rfl⟩)
  · exact (lowerTurn_eq_some _ _ _).mpr (.inr ⟨d, s, lags.eq_of_lagging run (nomatch ·), rfl⟩)

/-- **More fuel does not change what a program is lowered to.** -/
theorem lower_mono {prog : Program α} {res : LowerResult α} {fuel more : Nat}
    (le : fuel ≤ more) (h : lower fuel prog reg = some res) : lower more prog reg = some res := by
  induction le with
  | refl => exact h
  | step _ ih =>
      rw [lower, Option.map_eq_some_iff] at ih ⊢
      obtain ⟨acc, run, rfl⟩ := ih
      exact ⟨acc, foldlM_mono (fun _ _ _ => lowerTurn_mono B) run, rfl⟩

end Lang

end Xrune
