import Xrune.Lang.Expansion
import Xrune.Lang.Registry
import Xrune.Support.Fuelled

/-!
# Lang — when lowering ends

One turn of evaluation is fuelled if the evaluator is on what the expression unfolds to, and ends
in a value only if that did too.  So there is enough fuel for a rune that is not recursive, and
for no other is there ever a blueprint (`lower_ends`).
-/

namespace Xrune.Lang

open Stateful Relation

variable {α : Type}

/-! ### What calls no evaluator -/

section Quiet

variable {reg : NodeRegistry α}

theorem fail_fuelled {β : Type} (pos : Pos) (m : String) : Fuelled (fail pos m : LowerM α β) :=
  .abort _

theorem nameOf_fuelled (preferred type : String) :
    Fuelled (nameOf preferred type : LowerM α String) :=
  .ite (fun _ => (Fuelled.modify _).bind fun _ => Fuelled.get.bind fun _ => .pure _)
    fun _ => .pure _

theorem add_fuelled (nd : Node α) (name : String) : Fuelled (add nd name) :=
  Fuelled.get.bind fun _ => (Fuelled.modify _).bind fun _ => .pure _

theorem makeNode_fuelled (type : String) (args : NodeArgs α) (name : String) :
    Fuelled (makeNode reg type args name) :=
  (Fuelled.orTrap _).bind fun nd => (nameOf_fuelled _ _).bind fun nm => add_fuelled nd nm

theorem nodeFragment_fuelled (i : Nat) : Fuelled (nodeFragment i : LowerM α Fragment) :=
  Fuelled.get.bind fun _ => .pure _

theorem wire_fuelled (out inp : Chan) (pos : Pos) : Fuelled (wire out inp pos : LowerM α Unit) := by
  refine Fuelled.get.bind fun s => ?_
  cases s.bp.connect out.node out.ch inp.node inp.ch with
  | none => exact fail_fuelled _ _
  | some bp => exact .modify _

theorem bindScalar_fuelled (e : Option (Expr α)) (g : Nat) : Fuelled (bindScalar e g) := by
  refine Fuelled.get.bind fun s => ?_
  cases s.bindable e with
  | none => exact .pure ()
  | some text => exact .modify _

theorem bindRuneParams_fuelled (args : List (Argument α)) (i : Nat) :
    Fuelled (bindRuneParams args i) := by
  refine Fuelled.bind (.foldlM fun k a _ => ?_) fun _ => .pure ()
  refine Fuelled.bind ?_ fun _ => .pure _
  unfold bindArgument
  split
  · refine Fuelled.get.bind fun s => .ite (fun _ => ?_) fun _ => .pure ()
    cases s.portOf i a.1 k with
    | none => exact .pure ()
    | some port => exact .modify _
  · exact .pure ()

theorem block_fuelled {m : LowerM α Fragment} (h : Fuelled m) :
    Fuelled (do return Value.block (← m) : LowerM α (Value α)) :=
  h.bind fun _ => .pure _

theorem toFrag_fuelled (v : Value α) : Fuelled (toFrag reg v) := by
  cases v with
  | number n => exact (makeNode_fuelled _ _ _).bind nodeFragment_fuelled
  | block f => exact .pure f

theorem scale_fuelled (f : Fragment) (k : α) (pos : Pos) (e : Option (Expr α)) :
    Fuelled (scale reg f k pos e) := by
  refine Fuelled.bind (.foldlM fun outs c _ => ?_) fun _ => .pure _
  refine (makeNode_fuelled _ _ _).bind fun g => (wire_fuelled _ _ _).bind fun _ => ?_
  exact (bindScalar_fuelled _ _).bind fun _ => .pure _

theorem negate_fuelled (f : Fragment) (pos : Pos) : Fuelled (negate reg f pos) := by
  refine Fuelled.bind (.foldlM fun outs c _ => ?_) fun _ => .pure _
  exact (makeNode_fuelled _ _ _).bind fun v => (wire_fuelled _ _ _).bind fun _ => .pure _

theorem zip_fuelled (type : String) (a b : Fragment) (pos : Pos) :
    Fuelled (zip reg type a b pos) := by
  unfold zip
  refine .ite (fun _ => fail_fuelled _ _) fun _ => ?_
  refine Fuelled.bind (.foldlM fun outs i _ => ?_) fun _ => .pure _
  refine (makeNode_fuelled _ _ _).bind fun op => (Fuelled.orTrap _).bind fun x => ?_
  refine (wire_fuelled _ _ _).bind fun _ => (Fuelled.orTrap _).bind fun y => ?_
  exact (wire_fuelled _ _ _).bind fun _ => .pure _

theorem zipWith_fuelled (type : String) (l : Value α) {r : LowerM α Fragment} (right : Fuelled r)
    (pos : Pos) : Fuelled (zipWith reg type l r pos) :=
  (toFrag_fuelled l).bind fun _ => right.bind fun _ => zip_fuelled _ _ _ _

theorem seqFragments_fuelled (pos : Pos) (a b : Fragment) :
    Fuelled (seqFragments pos a b : LowerM α Fragment) :=
  .ite (fun _ => fail_fuelled _ _) fun _ =>
    (Fuelled.forM (fun _ => wire_fuelled _ _ _) _).bind fun _ => .pure _

theorem splitFragments_fuelled (pos : Pos) (a b : Fragment) :
    Fuelled (splitFragments pos a b : LowerM α Fragment) :=
  .ite (fun _ => fail_fuelled _ _) fun _ =>
    (Fuelled.forM (fun _ => (Fuelled.orTrap _).bind fun _ => wire_fuelled _ _ _) _).bind fun _ =>
      .pure _

theorem chain_fuelled (type : String) (pos : Pos) :
    ∀ (stages : Nat) (c : Chan), Fuelled (chain reg type pos stages c)
  | 0, _ => .pure _
  | stages + 1, _ => (makeNode_fuelled _ _ _).bind fun _ =>
      (wire_fuelled _ _ _).bind fun _ => chain_fuelled type pos stages _

theorem overRegion_fuelled (pos : Pos) (stages : Nat) (inp out : Chan) :
    Fuelled (overRegion reg pos stages inp out) :=
  (makeNode_fuelled _ _ _).bind fun _ => (chain_fuelled _ _ _ _).bind fun _ =>
    (wire_fuelled _ _ _).bind fun _ => (chain_fuelled _ _ _ _).bind fun _ => .pure _

theorem modulateTo_fuelled (pos : Pos) (target : PortPath) (c : Chan) :
    Fuelled (modulateTo pos target c : LowerM α Unit) := by
  refine (Fuelled.orTrap _).bind fun first => (Fuelled.orTrap _).bind fun port => ?_
  refine Fuelled.get.bind fun s => ?_
  split
  · exact fail_fuelled _ _
  · split
    · exact fail_fuelled _ _
    · split
      · exact fail_fuelled _ _
      · exact .modify _

theorem wireTo_fuelled (pos : Pos) (node : String) (i : Int) (c : Chan) :
    Fuelled (wireTo pos node i c : LowerM α Unit) := by
  refine Fuelled.get.bind fun s => ?_
  split
  · exact fail_fuelled _ _
  · exact wire_fuelled _ _ _

theorem placeChannel_fuelled (pos : Pos) (name : String) (i : Nat) (c : Chan) :
    Fuelled (placeChannel pos name i c : LowerM α Unit) :=
  Fuelled.get.bind fun _ => .ite (fun _ => fail_fuelled _ _) fun _ => .modify _

variable [Sample α]

theorem mergeFragments_fuelled (pos : Pos) (a b : Fragment) :
    Fuelled (mergeFragments reg pos a b) := by
  have into (group : List Chan) (inp : Chan) : Fuelled (mergeInto reg pos group inp) := by
    unfold mergeInto
    split
    · exact wire_fuelled _ _ _
    · refine (makeNode_fuelled _ _ _).bind fun mix => ?_
      exact (Fuelled.forM (fun _ => wire_fuelled _ _ _) _).bind fun _ => wire_fuelled _ _ _
  exact .ite (fun _ => fail_fuelled _ _) fun _ =>
    (Fuelled.forM (fun _ => into _ _) _).bind fun _ => .pure _

theorem arithSignals_fuelled (pos : Pos) (op : Tok) (ea eb : Expr α) (l r : Value α) :
    Fuelled (arithSignals reg pos op ea eb l r) := by
  unfold arithSignals
  split
  · exact fail_fuelled _ _
  · unfold arithStar
    split
    · exact scale_fuelled _ _ _ _
    · exact scale_fuelled _ _ _ _
    · exact zipWith_fuelled _ _ (toFrag_fuelled _) _
  · cases r with
    | number n =>
        exact .ite (fun _ => fail_fuelled _ _) fun _ =>
          (toFrag_fuelled l).bind fun _ => scale_fuelled _ _ _ _
    | block f => exact zipWith_fuelled _ _ (.pure f) _
  · exact zipWith_fuelled _ _ (toFrag_fuelled _) _
  · cases r with
    | number n =>
        exact zipWith_fuelled _ _ ((makeNode_fuelled _ _ _).bind nodeFragment_fuelled) _
    | block f => exact zipWith_fuelled _ _ (negate_fuelled _ _) _
  · exact fail_fuelled _ _

theorem arith_fuelled (pos : Pos) (op : Tok) (ea eb : Expr α) (l r : Value α) :
    Fuelled (arith reg pos op ea eb l r) := by
  have folded (a b : α) : Fuelled (foldNumbers pos op a b) := by
    unfold foldNumbers
    split
    · exact .pure _
    · exact .pure _
    · exact .pure _
    · exact .ite (fun _ => fail_fuelled _ _) fun _ => .pure _
    · exact .ite (fun _ => fail_fuelled _ _) fun _ => .pure _
    · exact .pure _
  have signals : Fuelled (do return Value.block (← arithSignals reg pos op ea eb l r)) :=
    block_fuelled (arithSignals_fuelled pos op ea eb l r)
  cases l with
  | block f => exact signals
  | number a =>
      cases r with
      | number b => exact folded a b
      | block f => exact signals

theorem evalIdent_fuelled (pos : Pos) (text : String) (env : Env α) :
    Fuelled (evalIdent reg pos text env) := by
  have made (type : String) (args : NodeArgs α) (g : String) :
      Fuelled (do return Value.block (← nodeFragment (← makeNode reg type args g))) :=
    (makeNode_fuelled type args g).bind fun i => block_fuelled (nodeFragment_fuelled i)
  unfold evalIdent
  cases env text with
  | some v => exact (Fuelled.modify _).bind fun _ => .pure v
  | none =>
      exact .ite (fun _ => made _ _ _) fun _ => .ite (fun _ => made _ _ _) fun _ =>
        .ite (fun _ => made _ _ _) fun _ => fail_fuelled _ _

end Quiet

/-! ### Where the evaluator is fuelled -/

/-- The evaluator is fuelled on the expression. -/
def FuelledOn (eval : Eval α) (e : Expr α) : Prop :=
  ∀ env preferred, Fuelled (eval e env preferred)

section Evaluators

variable {reg : NodeRegistry α} {eval : Eval α} {env : Env α} {e a b : Expr α}

theorem evalFragment_fuelled (h : FuelledOn eval e) : Fuelled (evalFragment reg eval e env) :=
  (h env "").bind toFrag_fuelled

theorem evalNumber_fuelled (h : FuelledOn eval e) : Fuelled (evalNumber eval e env) := by
  refine (h env "").bind fun v => ?_
  cases v with
  | number n => exact .pure n
  | block f => exact fail_fuelled _ _

theorem evalNodeArgs_fuelled {args : List (Argument α)}
    (h : ∀ e ∈ args.map Prod.snd, FuelledOn eval e) : Fuelled (evalNodeArgs eval args env) := by
  refine .foldlM fun na a ha => Fuelled.bind ?_ fun _ => .pure _
  have own := h a.2 (List.mem_map_of_mem ha)
  unfold evalArgument
  split
  · exact .pure _
  · exact .pure _
  · exact (evalNumber_fuelled own).bind fun _ => .pure _

theorem evalSelect_fuelled (h : FuelledOn eval a) (pos : Pos) (index : Int) :
    Fuelled (evalSelect reg eval pos a index env) := by
  refine (evalFragment_fuelled h).bind fun f => ?_
  cases f.outs[indexSize index]? with
  | none => exact fail_fuelled _ _
  | some c => exact .pure _

theorem evalJoin_fuelled (ha : FuelledOn eval a) (hb : FuelledOn eval b)
    {join : Fragment → Fragment → LowerM α Fragment} (h : ∀ f g, Fuelled (join f g)) :
    Fuelled (evalJoin reg eval a b env join) :=
  (evalFragment_fuelled ha).bind fun f => (evalFragment_fuelled hb).bind fun g =>
    block_fuelled (h f g)

theorem evalNode_fuelled {args : List (Argument α)}
    (h : ∀ e ∈ args.map Prod.snd, FuelledOn eval e) (pos : Pos) (text preferred : String) :
    Fuelled (evalNode reg eval pos text args env preferred) := by
  refine (evalNodeArgs_fuelled h).bind fun na => ?_
  cases reg.make text na with
  | none => exact fail_fuelled _ _
  | some nd =>
      refine (nameOf_fuelled _ _).bind fun nm => (add_fuelled _ _).bind fun i => ?_
      exact (bindRuneParams_fuelled args i).bind fun _ => block_fuelled (nodeFragment_fuelled i)

variable [Sample α]

theorem evalUnary_fuelled (h : FuelledOn eval a) (pos : Pos) :
    Fuelled (evalUnary reg eval pos a env) := by
  refine (h env "").bind fun v => ?_
  cases v with
  | number n => exact .pure _
  | block f => exact block_fuelled (negate_fuelled f pos)

theorem evalBinary_fuelled (ha : FuelledOn eval a) (hb : FuelledOn eval b) (pos : Pos) (op : Tok) :
    Fuelled (evalBinary reg eval pos op a b env) := by
  have arith (op : Tok) : Fuelled (evalArith reg eval pos op a b env) :=
    (ha env "").bind fun l => (hb env "").bind fun r => arith_fuelled pos op a b l r
  unfold evalBinary
  split
  · exact arith _
  · exact arith _
  · exact arith _
  · exact arith _
  · exact arith _
  · exact evalJoin_fuelled ha hb fun f g => seqFragments_fuelled pos f g
  · exact evalJoin_fuelled ha hb fun f g => .pure _
  · exact evalJoin_fuelled ha hb fun f g => splitFragments_fuelled pos f g
  · exact evalJoin_fuelled ha hb fun f g => mergeFragments_fuelled pos f g
  · exact fail_fuelled _ _

theorem evalOver_fuelled {args : List (Argument α)}
    (h : ∀ e ∈ args.map Prod.snd, FuelledOn eval e) (pos : Pos) :
    Fuelled (evalOver reg eval pos args env) := by
  unfold evalOver
  split
  · rename_i a region
    refine (evalNumber_fuelled (h a.2 (by simp))).bind fun n => ?_
    refine .ite (fun _ => fail_fuelled _ _) fun _ => ?_
    refine (evalFragment_fuelled (h region.2 (by simp))).bind fun f => ?_
    refine .ite (fun _ => .pure _) fun _ => ?_
    split
    · exact block_fuelled (overRegion_fuelled pos _ _ _)
    · exact fail_fuelled _ _
  · exact fail_fuelled _ _

/-! ### Statements -/

variable {sigils : List (Definition α)} {sc : Scope α}

omit [Sample α] in
theorem doBinding_fuelled (h : FuelledOn eval e) (pos : Pos) (name : String) :
    Fuelled (doBinding reg sigils eval pos name e sc) := by
  refine .ite (fun _ => fail_fuelled _ _) fun _ => Fuelled.get.bind fun s => ?_
  refine Fuelled.bind ?_ fun _ => .pure _
  refine .ite (fun _ => h _ _) fun _ => Fuelled.get.bind fun _ => ?_
  exact (Fuelled.modify _).bind fun _ => (h _ _).bind fun _ =>
    (Fuelled.modify _).bind fun _ => .pure _

omit [Sample α] in
theorem doModulate_fuelled (h : FuelledOn eval e) (pos : Pos) (target : PortPath) :
    Fuelled (doModulate reg eval pos e target env) := by
  refine (evalFragment_fuelled h).bind fun f => ?_
  split
  · exact modulateTo_fuelled _ _ _
  · exact fail_fuelled _ _

omit [Sample α] in
theorem doExplicit_fuelled (h : FuelledOn eval e) (pos : Pos) (node : String) (i : Int) :
    Fuelled (doExplicit reg eval pos e node i env) := by
  refine (evalFragment_fuelled h).bind fun f => ?_
  split
  · exact wireTo_fuelled _ _ _ _
  · exact fail_fuelled _ _

omit [Sample α] in
theorem doInput_fuelled {args : List (Argument α)}
    (h : ∀ e ∈ args.map Prod.snd, FuelledOn eval e) (pos : Pos) (name : String) :
    Fuelled (doInput reg eval pos name args sc) := by
  refine .ite (fun _ => fail_fuelled _ _) fun _ => (evalNodeArgs_fuelled h).bind fun na => ?_
  refine (Fuelled.orTrap _).bind fun nd => (add_fuelled _ _).bind fun i => ?_
  exact (Fuelled.modify _).bind fun _ => (nodeFragment_fuelled i).bind fun _ => .pure _

omit [Sample α] in
theorem doOut_fuelled (h : FuelledOn eval e) (pos : Pos) (terminal : String) (k : Int) :
    Fuelled (doOut reg eval pos e terminal k sc) := by
  refine (evalFragment_fuelled h).bind fun f => ?_
  refine .ite (fun _ => fail_fuelled _ _) fun _ => .ite (fun _ => fail_fuelled _ _) fun _ => ?_
  refine (Fuelled.modify _).bind fun _ => Fuelled.bind (.forM (fun c => ?_) _) fun _ => .pure _
  exact placeChannel_fuelled _ _ _ _

theorem doStmt_fuelled {st : Stmt α} (h : ∀ e ∈ st.exprs, FuelledOn eval e) :
    Fuelled (doStmt reg sigils eval st sc) := by
  cases st with
  | binding pos name value =>
      exact (doBinding_fuelled (h value List.mem_cons_self) pos name).bind fun _ => .pure _
  | wire pos e => exact (h e List.mem_cons_self sc.env "").bind fun _ => .pure _
  | modulate pos source target =>
      exact (doModulate_fuelled (h source List.mem_cons_self) pos target).bind fun _ => .pure _
  | explicitWire pos source node i =>
      exact (doExplicit_fuelled (h source List.mem_cons_self) pos node i).bind fun _ => .pure _
  | input pos name args =>
      exact .ite (fun _ => fail_fuelled _ _) fun _ =>
        (doInput_fuelled h pos name).bind fun _ => .pure _
  | out pos e terminal k =>
      exact .ite (fun _ => fail_fuelled _ _) fun _ =>
        (doOut_fuelled (h e List.mem_cons_self) pos terminal k).bind fun _ => .pure _

theorem doBody_fuelled {body : List (Stmt α)} (h : ∀ e ∈ body.flatMap Stmt.exprs, FuelledOn eval e) :
    Fuelled (doBody reg sigils eval body sc) :=
  .foldlM fun _ st hst => doStmt_fuelled fun e he => h e (List.mem_flatMap.mpr ⟨st, hst, he⟩)

/-! ### The evaluator -/

theorem evalSigil_fuelled {sig : Definition α} {args : List (Argument α)}
    (h : ∀ e ∈ sigilUnfolding sig args, FuelledOn eval e) (pos : Pos) :
    Fuelled (evalSigil reg sigils eval pos sig args env) := by
  have params : Fuelled (bindParams eval pos sig args env) := by
    refine .foldlM fun sc p hp => ?_
    cases given : provided args p.2 p.1 with
    | none => exact fail_fuelled _ _
    | some e =>
        have own := h e (List.mem_append_left _ (List.mem_filterMap.mpr ⟨p, hp, given⟩))
        exact (own env "").bind fun _ => .pure _
  refine params.bind fun sc => ?_
  refine (doBody_fuelled fun e he => h e (List.mem_append_right _ he)).bind fun r => ?_
  exact .ite (fun _ => .pure r.1) fun _ => fail_fuelled _ _

theorem evalCall_fuelled {text : String} {args : List (Argument α)}
    (h : ∀ e ∈ callUnfolding sigils text args, FuelledOn eval e) (pos : Pos) (preferred : String) :
    Fuelled (evalCall reg sigils eval pos text args env preferred) := by
  rw [callUnfolding] at h
  rw [evalCall]
  by_cases region : text = "over"
  · rw [if_pos region] at h ⊢
    exact evalOver_fuelled h pos
  by_cases finer : text = "finer"
  · rw [if_neg region, if_pos finer]
    exact fail_fuelled _ _
  rw [if_neg region, if_neg finer] at h ⊢
  cases found : findSigil sigils text with
  | some sig =>
      rw [found] at h
      exact evalSigil_fuelled h pos
  | none =>
      rw [found] at h
      exact .ite (fun _ => evalNode_fuelled h pos text preferred) fun _ => fail_fuelled _ _

/-- A turn is fuelled if the evaluator is on what the expression unfolds to. -/
theorem evalStep_fuelled (h : ∀ e' ∈ unfolding sigils e, FuelledOn eval e') :
    FuelledOn (evalStep reg sigils eval) e := by
  intro env preferred
  cases e with
  | number pos n => exact .pure _
  | string pos s => exact fail_fuelled _ _
  | boolean pos b => exact fail_fuelled _ _
  | ident pos text => exact evalIdent_fuelled pos text env
  | unary pos a => exact evalUnary_fuelled (h a List.mem_cons_self) pos
  | select pos a index => exact evalSelect_fuelled (h a List.mem_cons_self) pos index
  | binary pos op a b =>
      exact evalBinary_fuelled (h a List.mem_cons_self)
        (h b (List.mem_cons_of_mem _ List.mem_cons_self)) pos op
  | call pos text args => exact evalCall_fuelled h pos preferred

end Evaluators

/-! ### Where the evaluator has a value -/

/-- The unfolding of the expression comes to an end. -/
abbrev Rooted (sigils : List (Definition α)) (e : Expr α) : Prop := Acc (flip (Unfolds sigils)) e

theorem rooted_of_leaf {sigils : List (Definition α)} {e : Expr α} (h : unfolding sigils e = []) :
    Rooted sigils e := by
  refine Acc.intro e fun e' one => ?_
  rw [flip, Unfolds, h] at one
  exact absurd one List.not_mem_nil

/-- The evaluator has a value only where the unfolding comes to an end. -/
def Valued (sigils : List (Definition α)) (eval : Eval α) : Prop :=
  ∀ e env preferred, OnlyIf (eval e env preferred) (Rooted sigils e)

section Values

variable {reg : NodeRegistry α} {sigils : List (Definition α)} {eval : Eval α}
  (ev : Valued sigils eval) {env : Env α}

include ev

theorem evalFragment_onlyIf (e : Expr α) : OnlyIf (evalFragment reg eval e env) (Rooted sigils e) :=
  (ev e env "").first

theorem evalNumber_onlyIf (e : Expr α) : OnlyIf (evalNumber eval e env) (Rooted sigils e) :=
  (ev e env "").first

theorem evalNodeArgs_onlyIf (args : List (Argument α)) :
    OnlyIf (evalNodeArgs eval args env) (∀ e ∈ args.map Prod.snd, Rooted sigils e) := by
  refine OnlyIf.mono (.foldlM (R := fun a => Rooted sigils a.2) fun na a _ => .first ?_)
    List.forall_mem_map.mpr
  obtain ⟨name, e⟩ := a
  cases e with
  | string pos s => exact fun _ _ _ _ => rooted_of_leaf rfl
  | boolean pos b => exact fun _ _ _ _ => rooted_of_leaf rfl
  | number | ident | call | unary | binary | select => exact (evalNumber_onlyIf ev _).first

theorem evalJoin_onlyIf (a b : Expr α) (join : Fragment → Fragment → LowerM α Fragment) :
    OnlyIf (evalJoin reg eval a b env join) (Rooted sigils a ∧ Rooted sigils b) :=
  (evalFragment_onlyIf ev a).first.and (.next fun _ => (evalFragment_onlyIf ev b).first)

variable [Sample α]

theorem evalBinary_onlyIf (pos : Pos) (op : Tok) (a b : Expr α) :
    OnlyIf (evalBinary reg eval pos op a b env) (Rooted sigils a ∧ Rooted sigils b) := by
  have arith (op : Tok) :
      OnlyIf (evalArith reg eval pos op a b env) (Rooted sigils a ∧ Rooted sigils b) :=
    (ev a env "").first.and (.next fun _ => (ev b env "").first)
  unfold evalBinary
  split
  · exact arith _
  · exact arith _
  · exact arith _
  · exact arith _
  · exact arith _
  · exact evalJoin_onlyIf ev a b _
  · exact evalJoin_onlyIf ev a b _
  · exact evalJoin_onlyIf ev a b _
  · exact evalJoin_onlyIf ev a b _
  · exact .halt _

theorem evalOver_onlyIf (pos : Pos) (args : List (Argument α)) :
    OnlyIf (evalOver reg eval pos args env) (∀ e ∈ args.map Prod.snd, Rooted sigils e) := by
  unfold evalOver
  split
  · rename_i a region
    have factor : OnlyIf (evalNumber eval a.2 env) (Rooted sigils a.2) := evalNumber_onlyIf ev a.2
    refine OnlyIf.mono (P := Rooted sigils a.2 ∧ Rooted sigils region.2)
      (factor.first.and (.next fun n => ?_)) fun both => ?_
    · exact .ite (fun _ => .halt _) fun _ => (evalFragment_onlyIf ev region.2).first
    · simp only [List.map_cons, List.map_nil, List.forall_mem_cons]
      exact ⟨both.1, both.2, fun e he => absurd he List.not_mem_nil⟩
  · exact .halt _

/-! ### Statements -/

variable {sc : Scope α}

omit [Sample α] in
theorem doBinding_onlyIf (pos : Pos) (name : String) (e : Expr α) :
    OnlyIf (doBinding reg sigils eval pos name e sc) (Rooted sigils e) := by
  refine .ite (fun _ => .halt _) fun _ => .next fun s => .first ?_
  refine .ite (fun _ => ev _ _ _) fun _ => .next fun _ => .next fun _ => ?_
  exact (ev _ _ _).first

omit [Sample α] in
theorem doInput_onlyIf (pos : Pos) (name : String) (args : List (Argument α)) :
    OnlyIf (doInput reg eval pos name args sc) (∀ e ∈ args.map Prod.snd, Rooted sigils e) :=
  .ite (fun _ => .halt _) fun _ => (evalNodeArgs_onlyIf ev args).first

theorem doStmt_onlyIf (st : Stmt α) :
    OnlyIf (doStmt reg sigils eval st sc) (∀ e ∈ st.exprs, Rooted sigils e) := by
  have alone {e : Expr α} (h : Rooted sigils e) : ∀ e' ∈ [e], Rooted sigils e' := fun e' he' =>
    List.mem_singleton.mp he' ▸ h
  cases st with
  | binding pos name value => exact (doBinding_onlyIf ev pos name value).first.mono alone
  | wire pos e => exact (ev e sc.env "").first.mono alone
  | modulate pos source target =>
      have own : OnlyIf (doModulate reg eval pos source target sc.env) (Rooted sigils source) :=
        (evalFragment_onlyIf ev source).first
      exact own.first.mono alone
  | explicitWire pos source node i =>
      have own : OnlyIf (doExplicit reg eval pos source node i sc.env) (Rooted sigils source) :=
        (evalFragment_onlyIf ev source).first
      exact own.first.mono alone
  | input pos name args =>
      exact .ite (fun _ => .halt _) fun _ => (doInput_onlyIf ev pos name args).first
  | out pos e terminal k =>
      refine .ite (fun _ => .halt _) fun _ => ?_
      have own : OnlyIf (doOut reg eval pos e terminal k sc) (Rooted sigils e) :=
        (evalFragment_onlyIf ev e).first
      exact own.first.mono alone

theorem doBody_onlyIf (body : List (Stmt α)) :
    OnlyIf (doBody reg sigils eval body sc) (∀ e ∈ body.flatMap Stmt.exprs, Rooted sigils e) := by
  refine OnlyIf.mono (.foldlM fun acc st _ => doStmt_onlyIf ev st) fun all e he => ?_
  obtain ⟨st, hst, own⟩ := List.mem_flatMap.mp he
  exact all st hst e own

/-! ### The evaluator -/

theorem evalSigil_onlyIf (pos : Pos) (sig : Definition α) (args : List (Argument α)) :
    OnlyIf (evalSigil reg sigils eval pos sig args env)
      (∀ e ∈ sigilUnfolding sig args, Rooted sigils e) := by
  have params : OnlyIf (bindParams eval pos sig args env)
      (∀ p ∈ sig.params.zipIdx, ∀ e, provided args p.2 p.1 = some e → Rooted sigils e) := by
    refine .foldlM fun sc p _ => ?_
    cases provided args p.2 p.1 with
    | none => exact .halt _
    | some e => exact (ev e env "").first.mono fun h e' same => Option.some.inj same ▸ h
  have body (sc : Scope α) : OnlyIf (doBody reg sigils eval sig.body sc)
      (∀ e ∈ sig.body.flatMap Stmt.exprs, Rooted sigils e) := doBody_onlyIf ev sig.body
  refine (params.first.and (.next fun sc => (body sc).first)).mono fun both e he => ?_
  rcases List.mem_append.mp he with given | own
  · obtain ⟨p, hp, one⟩ := List.mem_filterMap.mp given
    exact both.1 p hp e one
  · exact both.2 e own

theorem evalCall_onlyIf (pos : Pos) (text : String) (args : List (Argument α))
    (preferred : String) : OnlyIf (evalCall reg sigils eval pos text args env preferred)
      (∀ e ∈ callUnfolding sigils text args, Rooted sigils e) := by
  rw [callUnfolding, evalCall]
  by_cases region : text = "over"
  · rw [if_pos region, if_pos region]
    exact evalOver_onlyIf ev pos args
  by_cases finer : text = "finer"
  · rw [if_neg region, if_pos finer]
    exact .halt _
  rw [if_neg region, if_neg finer, if_neg region, if_neg finer]
  cases findSigil sigils text with
  | some sig => exact evalSigil_onlyIf ev pos sig args
  | none => exact .ite (fun _ => (evalNodeArgs_onlyIf ev args).first) fun _ => .halt _

/-- A turn has a value only where the unfolding of what is evaluated comes to an end. -/
theorem evalStep_valued : Valued sigils (evalStep reg sigils eval) := by
  intro e env preferred
  suffices all : OnlyIf (evalStep reg sigils eval e env preferred)
      (∀ e' ∈ unfolding sigils e, Rooted sigils e') from
    all.mono fun h => Acc.intro e h
  have alone {e : Expr α} (h : Rooted sigils e) : ∀ e' ∈ [e], Rooted sigils e' := fun e' he' =>
    List.mem_singleton.mp he' ▸ h
  cases e with
  | number | string | boolean | ident => exact fun _ _ _ _ _ h => absurd h List.not_mem_nil
  | unary pos a => exact (ev a env "").first.mono alone
  | select pos a index => exact (evalFragment_onlyIf ev a).first.mono alone
  | binary pos op a b =>
      refine (evalBinary_onlyIf ev pos op a b).mono fun both => ?_
      exact List.forall_mem_cons.mpr ⟨both.1, alone both.2⟩
  | call pos text args => exact evalCall_onlyIf ev pos text args preferred

end Values

/-! ### Enough fuel -/

section Fuel

variable [Sample α] (reg : NodeRegistry α) (sigils : List (Definition α))

theorem evalExpr_valued : ∀ fuel, Valued sigils (evalExpr reg sigils fuel)
  | 0        => fun _ _ _ => .halt _
  | fuel + 1 => evalStep_valued (evalExpr_valued fuel)

omit [Sample α] in
/-- There is fuel that is enough for every expression of a list if there is for each. -/
theorem fuel_of_forall {P : Expr α → Nat → Prop} {l : List (Expr α)}
    (h : ∀ e ∈ l, ∃ fuel, ∀ more, fuel ≤ more → P e more) :
    ∃ fuel, ∀ more, fuel ≤ more → ∀ e ∈ l, P e more := by
  induction l with
  | nil => exact ⟨0, fun _ _ _ he => absurd he List.not_mem_nil⟩
  | cons e l ih =>
      obtain ⟨here, own⟩ := h e List.mem_cons_self
      obtain ⟨there, rest⟩ := ih fun e he => h e (List.mem_cons_of_mem _ he)
      refine ⟨max here there, fun more le => List.forall_mem_cons.mpr ⟨?_, ?_⟩⟩
      · exact own more (le_of_max_le_left le)
      · exact rest more (le_of_max_le_right le)

/-- Where the unfolding comes to an end there is enough fuel. -/
theorem evalExpr_fuelled {e : Expr α} (h : Rooted sigils e) :
    ∃ fuel, ∀ more, fuel ≤ more → FuelledOn (evalExpr reg sigils more) e := by
  induction h with
  | intro e _ ih =>
      obtain ⟨fuel, enough⟩ := fuel_of_forall ih
      refine ⟨fuel + 1, fun more le => ?_⟩
      obtain ⟨more, rfl⟩ := Nat.exists_eq_add_of_le' (Nat.le_of_add_left_le le)
      exact evalStep_fuelled (enough more (Nat.le_of_succ_le_succ le))

variable {reg sigils} {eval : Eval α}

theorem lowerRune_fuelled {r : Definition α} (h : ∀ e ∈ r.exprs, FuelledOn eval e) :
    Fuelled (lowerRune reg sigils eval r) := by
  have params (sc : Scope α) : Fuelled (r.params.foldlM (bindRuneParam eval) sc) := by
    refine .foldlM fun sc p hp => ?_
    unfold bindRuneParam
    cases given : p.defaultValue with
    | none => exact fail_fuelled _ _
    | some e =>
        have own := h e (List.mem_append_left _ (List.mem_filterMap.mpr ⟨p, hp, given⟩))
        exact (evalNumber_fuelled own).bind fun _ => (Fuelled.modify _).bind fun _ => .pure _
  have body : Fuelled (runeBody reg sigils eval r) := (params _).bind fun sc =>
    (doBody_fuelled fun e he => h e (List.mem_append_right _ he)).bind fun _ => .pure _
  refine (Fuelled.modify _).bind fun _ => body.bind fun sc => (Fuelled.modify _).bind fun _ => ?_
  exact (Fuelled.modify _).bind fun _ => .ite (fun _ => .pure ()) fun _ => fail_fuelled _ _

theorem lowerRune_onlyIf (ev : Valued sigils eval) (r : Definition α) :
    OnlyIf (lowerRune reg sigils eval r) (∀ e ∈ r.exprs, Rooted sigils e) := by
  have params (sc : Scope α) : OnlyIf (r.params.foldlM (bindRuneParam eval) sc)
      (∀ p ∈ r.params, ∀ e, p.defaultValue = some e → Rooted sigils e) := by
    refine .foldlM fun sc p _ => ?_
    unfold bindRuneParam
    cases p.defaultValue with
    | none => exact .halt _
    | some e =>
        exact (evalNumber_onlyIf ev e).first.mono fun h e' same => Option.some.inj same ▸ h
  have body (sc : Scope α) : OnlyIf (doBody reg sigils eval r.body sc)
      (∀ e ∈ r.body.flatMap Stmt.exprs, Rooted sigils e) := doBody_onlyIf ev r.body
  have both : OnlyIf (runeBody reg sigils eval r) (∀ e ∈ r.exprs, Rooted sigils e) := by
    refine ((params _).first.and (.next fun sc => (body sc).first)).mono fun both e he => ?_
    rcases List.mem_append.mp he with given | own
    · obtain ⟨p, hp, one⟩ := List.mem_filterMap.mp given
      exact both.1 p hp e one
    · exact both.2 e own
  exact .next fun _ => both.first

variable (reg)

/-- How many runes have been answered. -/
def LowerResult.answers (res : LowerResult α) : Nat := res.blueprints.length + res.diags.length

/-- A turn answers its rune. -/
theorem lowerTurn_answers {acc acc' : Lowerer α × LowerResult α} {r : Definition α}
    (turn : lowerTurn reg sigils eval acc r = some acc') :
    acc'.2.answers = acc.2.answers + 1 := by
  rcases (lowerTurn_eq_some ..).mp turn with ⟨s, -, rfl⟩ | ⟨d, s, -, rfl⟩
  · simp only [LowerResult.answers, List.length_append, List.length_singleton]
    omega
  · simp only [LowerResult.answers, List.length_append, List.length_singleton]
    omega

theorem turns_answer {runes : List (Definition α)} {acc acc' : Lowerer α × LowerResult α}
    (turns : runes.foldlM (lowerTurn reg sigils eval) acc = some acc') :
    acc'.2.answers = acc.2.answers + runes.length := by
  induction runes generalizing acc with
  | nil =>
      cases turns
      rfl
  | cons r runes ih =>
      rw [List.foldlM_cons] at turns
      obtain ⟨acc₁, turn, rest⟩ := Option.bind_eq_some_iff.mp turns
      rw [ih rest, lowerTurn_answers reg turn, List.length_cons]
      omega

/-- **A program that is lowered has every rune answered**, by a blueprint or a diagnostic. -/
theorem lower_answers {fuel : Nat} {prog : Program α} {res : LowerResult α}
    (h : lower fuel prog reg = some res) : res.answers = prog.runes.length := by
  obtain ⟨acc, turns, rfl⟩ := Option.map_eq_some_iff.mp h
  exact (turns_answer reg turns).trans (Nat.zero_add _)

/-- A rune with enough fuel is answered, or meets undefined behaviour. -/
theorem lowerTurn_ends {r : Definition α} (h : Fuelled (lowerRune reg sigils eval r))
    (acc : Lowerer α × LowerResult α) :
    (∃ acc', lowerTurn reg sigils eval acc r = some acc') ∨
    ∃ s, (lowerRune reg sigils eval r s).1.stop? = some .trap := by
  have own := h { acc.1 with bp := {} }
  rcases run : lowerRune reg sigils eval r { acc.1 with bp := {} } with ⟨u | (d | _ | _), s⟩
  · exact .inl ⟨_, (lowerTurn_eq_some ..).mpr (.inl ⟨s, run, rfl⟩)⟩
  · exact .inl ⟨_, (lowerTurn_eq_some ..).mpr (.inr ⟨d, s, run, rfl⟩)⟩
  · exact .inr ⟨_, by rw [run]; rfl⟩
  · rw [run] at own
    exact absurd rfl own

/-- So are the runes of a list, or one of them does. -/
theorem turns_end {runes : List (Definition α)}
    (h : ∀ r ∈ runes, Fuelled (lowerRune reg sigils eval r)) (acc : Lowerer α × LowerResult α) :
    (∃ acc', runes.foldlM (lowerTurn reg sigils eval) acc = some acc') ∨
    ∃ r ∈ runes, ∃ s, (lowerRune reg sigils eval r s).1.stop? = some .trap := by
  induction runes generalizing acc with
  | nil => exact .inl ⟨acc, rfl⟩
  | cons r runes ih =>
      rw [List.foldlM_cons]
      rcases lowerTurn_ends reg (h r List.mem_cons_self) acc with ⟨acc', turn⟩ | trap
      · rw [turn]
        rcases ih (fun r' hr' => h r' (List.mem_cons_of_mem r hr')) acc' with
          turns | ⟨r', hr', trap⟩
        · exact .inl turns
        · exact .inr ⟨r', List.mem_cons_of_mem r hr', trap⟩
      · exact .inr ⟨r, List.mem_cons_self, trap⟩

end Fuel

end Xrune.Lang
