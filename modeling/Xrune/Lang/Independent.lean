import Xrune.Lang.Lower

/-!
# Lang — independent runes

A rune begins by clearing what the runes before it left in the lowerer, however they ended, so
its result is the one it has alone (`lowerRune_fresh`), and a program is lowered to the results
of its runes one after the other (`lower_append`).
-/

namespace Xrune.Lang

variable {α : Type} [Sample α] {reg : NodeRegistry α}

/-- The blueprints and the diagnostics of two programs. -/
def LowerResult.append (a b : LowerResult α) : LowerResult α :=
  ⟨a.blueprints ++ b.blueprints, a.diags ++ b.diags⟩

/-- **A rune's result does not depend on the state it finds**: what an earlier rune left in the
name prefix, the counters, the uses, the parameters and the outputs is cleared. -/
theorem lowerRune_fresh (sigils : List (Definition α)) (eval : Eval α) (r : Definition α)
    (s : Lowerer α) :
    lowerRune reg sigils eval r { s with bp := {} } = lowerRune reg sigils eval r {} := rfl

/-- The turn of `lower` for a rune alone. -/
def soloTurn (reg : NodeRegistry α) (sigils : List (Definition α)) (eval : Eval α)
    (r : Definition α) : Option (Lowerer α × LowerResult α) :=
  lowerTurn reg sigils eval ({}, {}) r

theorem lowerTurn_eq_solo (sigils : List (Definition α)) (eval : Eval α)
    (acc : Lowerer α × LowerResult α) (r : Definition α) :
    lowerTurn reg sigils eval acc r =
      (soloTurn reg sigils eval r).map fun solo => (solo.1, acc.2.append solo.2) := by
  rw [soloTurn, lowerTurn, lowerTurn, lowerRune_fresh, lowerRune_fresh]
  rcases lowerRune reg sigils eval r {} with ⟨b | (d | _ | _), s⟩
  · simp [LowerResult.append]
  · simp [LowerResult.append]
  · rfl
  · rfl

/-- The turns for some runes add their own results to what is there. -/
theorem foldlM_lowerTurn (sigils : List (Definition α)) (eval : Eval α)
    (runes : List (Definition α)) (acc : Lowerer α × LowerResult α) :
    (runes.foldlM (lowerTurn reg sigils eval) acc).map Prod.snd =
      ((runes.foldlM (lowerTurn reg sigils eval) ({}, {})).map Prod.snd).map acc.2.append := by
  induction runes generalizing acc with
  | nil => simp [LowerResult.append]
  | cons r runes ih =>
      rw [List.foldlM_cons, List.foldlM_cons, lowerTurn_eq_solo, lowerTurn_eq_solo]
      cases soloTurn reg sigils eval r with
      | none => rfl
      | some solo =>
          simp only [Option.map_some, Option.bind_eq_bind, Option.bind_some]
          rw [ih (solo.1, acc.2.append solo.2), ih (solo.1, _)]
          simp [LowerResult.append, Function.comp_def, Option.map_map]

theorem lower_of_append (fuel : Nat) (xs ys : List (Definition α)) (sigils : List (Definition α)) :
    lower fuel ⟨xs ++ ys, sigils⟩ reg =
      (lower fuel ⟨xs, sigils⟩ reg).bind fun a => (lower fuel ⟨ys, sigils⟩ reg).map a.append := by
  rw [lower, lower, lower, List.foldlM_append]
  dsimp only
  cases xs.foldlM (lowerTurn reg sigils (evalExpr reg sigils fuel)) ({}, {}) with
  | none => rfl
  | some acc => exact foldlM_lowerTurn sigils (evalExpr reg sigils fuel) ys acc

end Xrune.Lang
