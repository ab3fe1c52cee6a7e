import Xrune.Lang.Lower
import Xrune.Support.Graph

/-!
# Lang — what an expression unfolds to

Evaluating an expression evaluates others: its operands, the arguments of a call and, for a call
of a sigil, the arguments it is given, the defaults of the others and the expressions of its
body.  The text alone says which (`unfolding`).

Whatever an expression unfolds to stands somewhere in the program, so the unfolding of an
expression comes to an end unless some expression comes up in its own (`acc_of_not_recurs`).
-/

namespace Xrune.Lang

open Relation

variable {α : Type}

/-! ### Unfolding -/

/-- The expressions of a statement. -/
def Stmt.exprs : Stmt α → List (Expr α)
  | .binding _ _ value         => [value]
  | .wire _ e                  => [e]
  | .modulate _ source _       => [source]
  | .explicitWire _ source _ _ => [source]
  | .input _ _ args            => args.map Prod.snd
  | .out _ e _ _               => [e]

/-- The expressions a rune or a sigil evaluates itself. -/
def Definition.exprs (d : Definition α) : List (Expr α) :=
  d.params.filterMap Param.defaultValue ++ d.body.flatMap Stmt.exprs

def Expr.operands : Expr α → List (Expr α)
  | .call _ _ args  => args.map Prod.snd
  | .unary _ a      => [a]
  | .binary _ _ a b => [a, b]
  | .select _ a _   => [a]
  | _               => []

variable (sigils : List (Definition α))

/-- What a call of a sigil evaluates. -/
def sigilUnfolding (sig : Definition α) (args : List (Argument α)) : List (Expr α) :=
  (sig.params.zipIdx.filterMap fun p => provided args p.2 p.1) ++ sig.body.flatMap Stmt.exprs

/-- What a call evaluates. -/
def callUnfolding (text : String) (args : List (Argument α)) : List (Expr α) :=
  if text = "over" then args.map Prod.snd
  else if text = "finer" then []
  else
    match findSigil sigils text with
    | some sig => sigilUnfolding sig args
    | none     => args.map Prod.snd

/-- What the evaluation of an expression evaluates in its turn. -/
def unfolding : Expr α → List (Expr α)
  | .call _ text args => callUnfolding sigils text args
  | e                 => e.operands

/-- `e` unfolds to `e'`. -/
def Unfolds (e e' : Expr α) : Prop := e' ∈ unfolding sigils e

/-- Some expression that `e` unfolds to comes up in its own unfolding. -/
def Expr.Recurs (e : Expr α) : Prop :=
  ∃ e', ReflTransGen (Unfolds sigils) e e' ∧ TransGen (Unfolds sigils) e' e'

def Definition.Recurs (d : Definition α) : Prop := ∃ e ∈ d.exprs, e.Recurs sigils

/-! ### What is unfolded stands in the program -/

/-- The expressions inside another, and itself. -/
def Within (e : Expr α) : Set (Expr α) := {e' | ReflTransGen (fun a b => b ∈ a.operands) e e'}

theorem operand_lt {e e' : Expr α} (h : e' ∈ e.operands) : sizeOf e' < sizeOf e := by
  cases e with
  | number | string | boolean | ident => cases h
  | call pos text args =>
      obtain ⟨a, ha, rfl⟩ := List.mem_map.mp h
      have entry := List.sizeOf_lt_of_mem ha
      obtain ⟨name, e⟩ := a
      simp only [Prod.mk.sizeOf_spec, Expr.call.sizeOf_spec] at entry ⊢
      omega
  | unary pos a =>
      obtain rfl := List.mem_singleton.mp h
      simp only [Expr.unary.sizeOf_spec]
      omega
  | binary pos op a b =>
      simp only [Expr.operands, List.mem_cons, List.not_mem_nil, or_false] at h
      simp only [Expr.binary.sizeOf_spec]
      rcases h with rfl | rfl <;> omega
  | select pos a index =>
      obtain rfl := List.mem_singleton.mp h
      simp only [Expr.select.sizeOf_spec]
      omega

theorem within_finite (e : Expr α) : (Within e).Finite := by
  induction h : sizeOf e using Nat.strong_induction_on generalizing e with
  | _ n ih =>
      have parts : (⋃ a ∈ {a | a ∈ e.operands}, Within a).Finite :=
        (List.finite_toSet e.operands).biUnion fun a ha => ih _ (h ▸ operand_lt ha) a rfl
      refine (parts.insert e).subset fun e' he' => ?_
      rcases ReflTransGen.cases_head he' with rfl | ⟨a, one, rest⟩
      · exact Set.mem_insert _ _
      · exact Set.mem_insert_of_mem _ (Set.mem_biUnion one rest)

/-- The expressions that stand in `e` or in a sigil. -/
def Standing (e : Expr α) : Set (Expr α) :=
  Within e ∪ ⋃ d ∈ {d | d ∈ sigils}, ⋃ e' ∈ {e' | e' ∈ d.exprs}, Within e'

theorem standing_finite (e : Expr α) : (Standing sigils e).Finite :=
  (within_finite e).union <| (List.finite_toSet sigils).biUnion fun d _ =>
    (List.finite_toSet d.exprs).biUnion fun e' _ => within_finite e'

theorem provided_mem {args : List (Argument α)} {i : Nat} {p : Param α} {e : Expr α}
    (h : provided args i p = some e) : e ∈ args.map Prod.snd ∨ p.defaultValue = some e := by
  unfold provided at h
  split at h
  · obtain rfl := Option.some.inj h
    exact .inl (List.mem_map_of_mem (List.mem_of_find?_eq_some ‹_›))
  · split at h
    · obtain rfl := Option.some.inj h
      have mem := List.mem_of_getElem? ‹_›
      exact .inl (List.mem_map_of_mem (List.mem_of_mem_filter mem))
    · exact .inr h

/-- An expression unfolds to operands of its own and to expressions of sigils. -/
theorem unfolds_mem {e e' : Expr α} (h : Unfolds sigils e e') :
    e' ∈ e.operands ∨ ∃ d ∈ sigils, e' ∈ d.exprs := by
  cases e with
  | call pos text args =>
      unfold Unfolds unfolding callUnfolding at h
      dsimp only at h
      split_ifs at h
      · exact .inl h
      · cases h
      · cases found : findSigil sigils text with
        | none =>
            rw [found] at h
            exact .inl h
        | some sig =>
            rw [found] at h
            have mem : sig ∈ sigils := List.mem_reverse.mp (List.mem_of_find?_eq_some found)
            rcases List.mem_append.mp h with h | h
            · obtain ⟨p, hp, one⟩ := List.mem_filterMap.mp h
              rcases provided_mem one with own | default
              · exact .inl own
              · refine .inr ⟨sig, mem, List.mem_append_left _ (List.mem_filterMap.mpr ⟨p.1, ?_, default⟩)⟩
                exact List.fst_mem_of_mem_zipIdx hp
            · exact .inr ⟨sig, mem, List.mem_append_right _ h⟩
  | number | string | boolean | ident | unary | binary | select => exact .inl h

theorem standing_of_unfolds {e e' e'' : Expr α} (h : e' ∈ Standing sigils e)
    (one : Unfolds sigils e' e'') : e'' ∈ Standing sigils e := by
  rcases unfolds_mem sigils one with own | ⟨d, hd, own⟩
  · rcases h with h | h
    · exact .inl (ReflTransGen.tail h own)
    · simp only [Set.mem_iUnion] at h
      obtain ⟨d, hd, e₀, he₀, h⟩ := h
      refine .inr ?_
      simp only [Set.mem_iUnion]
      exact ⟨d, hd, e₀, he₀, ReflTransGen.tail h own⟩
  · refine .inr ?_
    simp only [Set.mem_iUnion]
    exact ⟨d, hd, e'', own, .refl⟩

/-- **The unfolding of an expression comes to an end** unless some expression comes up in its
own. -/
theorem acc_of_not_recurs {e : Expr α} (h : ¬e.Recurs sigils) : Acc (flip (Unfolds sigils)) e := by
  refine acc_of_acyclic ((standing_finite sigils e).subset fun e' he' => ?_)
    fun e' path cycle => h ⟨e', path, cycle⟩
  induction he' with
  | refl => exact .inl .refl
  | tail _ one ih => exact standing_of_unfolds sigils ih one

/-- The unfolding of a recursive expression does not come to an end. -/
theorem not_recurs_of_acc {e : Expr α} (h : Acc (flip (Unfolds sigils)) e) :
    ¬e.Recurs sigils := by
  rintro ⟨e', path, cycle⟩
  have own : Acc (flip (Unfolds sigils)) e' := by
    clear cycle
    induction path with
    | refl => exact h
    | tail _ one ih => exact ih.inv one
  have loop : TransGen (flip (Unfolds sigils)) e' e' := transGen_swap.mpr cycle
  have rooted := own.transGen
  clear own path cycle
  induction rooted with
  | intro x _ ih => exact ih x loop loop

end Xrune.Lang
