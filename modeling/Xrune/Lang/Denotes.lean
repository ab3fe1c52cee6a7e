import Xrune.Lang.Tells
import Xrune.Lang.Outputs

/-!
# Lang — the lowerer keeps the meaning

Every evaluation of an expression ends in a value that is what the expression means
(`evalExpr_denotes`): a number, or a fragment that tells the expression's diagram.

The induction is on the fuel; a turn of the evaluator has one lemma for each kind of expression,
and the names in scope are worth what they mean throughout (`EnvIs`).
-/

namespace Xrune.Lang

open Stateful

variable {K : Type} [Field K] [LinearOrder K] [FloorRing K] [Trig K] {sr : Nat}

/-- Whatever the evaluator ends in is what the expression means. -/
def Denotes (sr : Nat) (eval : Eval K) (mean : Expr K → Meanings K → Option (Meaning K)) : Prop :=
  ∀ e env ρ preferred s, EnvIs sr s.bp env ρ → Ensures (eval e env preferred) s fun v s' =>
    Leads s.bp s'.bp ∧ ∃ m, mean e ρ = some m ∧ v.Is sr s'.bp m

omit [Trig K] in
/-- The fragment of a node, as a value. -/
theorem block_ensures {m : LowerM K Nat} {d : Diagram (Wave K)} {s : Lowerer K}
    (made : Ensures (do nodeFragment (← m)) s fun f s' =>
      Leads s.bp s'.bp ∧ Tells sr s'.bp f d) :
    Ensures (do return Value.block (← nodeFragment (← m))) s fun v s' =>
      Leads s.bp s'.bp ∧ v.Is sr s'.bp (.block d) := by
  have both : Ensures ((m >>= nodeFragment) >>= fun f => (return Value.block f)) s fun v s' =>
      Leads s.bp s'.bp ∧ v.Is sr s'.bp (.block d) := made.bind fun f s' h => .pure h
  rwa [bind_assoc] at both

omit [Field K] [LinearOrder K] [FloorRing K] [Trig K] in
theorem nameOf_ensures (preferred type : String) (s : Lowerer K) :
    Ensures (nameOf preferred type) s fun _ s' => Leads s.bp s'.bp := by
  refine .ite (fun _ => ?_) fun _ => .pure (.refl _)
  rintro nm s' ⟨⟩
  exact .refl _

omit [Field K] [LinearOrder K] [FloorRing K] [Trig K] in
theorem add_ensures (nd : Node K) (name : String) (s : Lowerer K) :
    Ensures (add nd name) s fun i s' => Leads s.bp s'.bp ∧ s'.bp.nodes[i]? = some nd := by
  rintro i s' ⟨⟩
  exact ⟨⟨List.prefix_append _ _, List.Subset.refl _, rfl⟩, List.getElem?_concat_length⟩

/-- A node with its defaults. -/
theorem plainNode_ensures {type : String} {nd : Node K} (sr : Nat)
    (made : standardRegistry.make type {} = some nd) (name : String) (s : Lowerer K) :
    Ensures (do return Value.block (← nodeFragment (← makeNode standardRegistry type {} name))) s
      fun v s' => Leads s.bp s'.bp ∧ v.Is sr s'.bp (.block (nd.diagram sr)) :=
  block_ensures (makeFragment_ensures made s)

/-! ### Oversampling -/

section Oversampling

variable {s : Lowerer K} {nd : Node K}

omit [Trig K] in
/-- A node of one input and one output. -/
theorem tells_oneOne {bp : GraphBlueprint K} {i : Nat} (here : bp.nodes[i]? = some nd)
    (ins : nd.inputsCount = 1) (outs : nd.outputsCount = 1) :
    Tells sr bp ⟨[⟨i, 0⟩], [⟨i, 0⟩]⟩ (nd.diagram sr) := by
  have tells : Tells sr bp _ (nd.diagram sr) := tells_node here
  rwa [ins, outs] at tells

omit [Trig K] in
/-- One channel into one port. -/
theorem Tells.inSeries {bp : GraphBlueprint K} {ports : List Chan} {cur inp out : Chan}
    {a b : Diagram (Wave K)} (ha : Tells sr bp ⟨ports, [cur]⟩ a) (hb : Tells sr bp ⟨[inp], [out]⟩ b)
    (wired : ⟨cur.node, cur.ch, inp.node, inp.ch⟩ ∈ bp.connections) :
    Tells sr bp ⟨ports, [out]⟩ (a.into (fun ys j => ys j) b) := by
  refine ha.into hb fun bp' shown w S j i here => ?_
  match j with
  | 0 =>
      have only : (Fragment.mk ports [cur]).outs[0]? = some cur := rfl
      obtain rfl := Option.some.inj here
      rw [known_connection cur inp wired bp' shown w S, ha.channel only bp' shown w S]
  | j + 1 => cases here

/-- A row of nodes of one input and one output, after a channel. -/
theorem chain_ensures {type : String} (made : standardRegistry.make type {} = some nd)
    (ins : nd.inputsCount = 1) (outs : nd.outputsCount = 1) (pos : Pos) :
    ∀ (stages : Nat) {s : Lowerer K} {ports : List Chan} {cur : Chan} {a : Diagram (Wave K)},
      Tells sr s.bp ⟨ports, [cur]⟩ a →
      Ensures (chain standardRegistry type pos stages cur) s fun c s' =>
        Leads s.bp s'.bp ∧ Tells sr s'.bp ⟨ports, [c]⟩ (inRow (nd.diagram sr) stages a)
  | 0, _, _, _, _, tells => .pure ⟨.refl _, tells⟩
  | stages + 1, s, ports, cur, a, tells => by
      refine (makeNode_ensures made s).bind fun i s₁ ⟨w₁, here⟩ => ?_
      refine (wire_ensures cur ⟨i, 0⟩ pos s₁).bind fun _ s₂ ⟨w₂, wired⟩ => ?_
      have next := (tells.mono (w₁.trans w₂)).inSeries (tells_oneOne (w₂.node here) ins outs) wired
      exact (chain_ensures made ins outs pos stages next).mono fun c s₃ ⟨w₃, row⟩ =>
        ⟨(w₁.trans w₂).trans w₃, row⟩

theorem overRegion_ensures (pos : Pos) (stages : Nat) {inp out : Chan} {d : Diagram (Wave K)}
    (tells : Tells sr s.bp ⟨[inp], [out]⟩ d) :
    Ensures (overRegion standardRegistry pos stages inp out) s fun f s' =>
      Leads s.bp s'.bp ∧ Tells sr s'.bp f (oversampled sr stages d) := by
  have up : standardRegistry.make "up2" {} = some (Nodes.upsampler2 : Node K) := rfl
  have down : standardRegistry.make "down2" {} = some (Nodes.downsampler2 : Node K) := rfl
  refine (makeNode_ensures up s).bind fun i s₁ ⟨w₁, here⟩ => ?_
  have first : Tells sr s₁.bp _ _ := tells_oneOne here rfl rfl
  refine (chain_ensures up rfl rfl pos (stages - 1) first).bind fun cur s₂ ⟨w₂, rise⟩ => ?_
  refine (wire_ensures cur inp pos s₂).bind fun _ s₃ ⟨w₃, wired⟩ => ?_
  have inside := (rise.mono w₃).inSeries (tells.mono ((w₁.trans w₂).trans w₃)) wired
  refine (chain_ensures down rfl rfl pos stages inside).bind fun cur s₄ ⟨w₄, fall⟩ => ?_
  exact .pure ⟨((w₁.trans w₂).trans w₃).trans w₄, fall⟩

end Oversampling

section Turn

variable {eval : Eval K} {mean : Expr K → Meanings K → Option (Meaning K)}
  (D : Denotes sr eval mean) {env : Env K} {ρ : Meanings K} {s : Lowerer K}
  (scope : EnvIs sr s.bp env ρ)

include D scope

/-! ### Operands -/

theorem evalFragment_denotes (e : Expr K) :
    Ensures (evalFragment standardRegistry eval e env) s fun f s' =>
      Leads s.bp s'.bp ∧ ∃ d, signalOf mean e ρ = some d ∧ Tells sr s'.bp f d := by
  refine (D e env ρ "" s scope).bind fun v s₁ ⟨w₁, m, hm, is⟩ => ?_
  refine (toFrag_ensures is).mono fun f s₂ ⟨w₂, tells⟩ => ⟨w₁.trans w₂, _, ?_, tells⟩
  rw [signalOf, hm]
  rfl

omit [Trig K] in
theorem evalNumber_denotes (e : Expr K) :
    Ensures (evalNumber eval e env) s fun n s' =>
      Leads s.bp s'.bp ∧ numberOf mean e ρ = some n := by
  refine (D e env ρ "" s scope).bind fun v s₁ ⟨w₁, m, hm, is⟩ => ?_
  rcases v with n | f
  · rcases m with k | d
    · obtain rfl : n = k := is
      exact .pure ⟨w₁, by rw [numberOf, hm]⟩
    · exact is.elim
  · exact .halt _

omit [Trig K] in
theorem evalArgument_denotes (e : Expr K) :
    Ensures (evalArgument eval e env) s fun av s' =>
      Leads s.bp s'.bp ∧ argumentOf mean e ρ = some av := by
  cases e with
  | string pos text => exact .pure ⟨.refl _, rfl⟩
  | boolean pos b => exact .pure ⟨.refl _, rfl⟩
  | _ =>
      refine (evalNumber_denotes D scope _).bind fun n s₁ ⟨w₁, hn⟩ => .pure ⟨w₁, ?_⟩
      exact congrArg (Option.map ArgValue.number) hn

omit [Trig K] in
theorem evalNodeArgs_denotes (args : List (Argument K)) :
    Ensures (evalNodeArgs eval args env) s fun na s' =>
      Leads s.bp s'.bp ∧ nodeArgsOf mean args ρ = some na := by
  refine Ensures.foldlM (I := fun done na (s' : Lowerer K) =>
    Leads s.bp s'.bp ∧ nodeArgsOf mean done ρ = some na)
    ⟨.refl _, (rfl : nodeArgsOf mean [] ρ = some {})⟩ ?_
  intro done a na s₁ _ ⟨w₁, so⟩
  refine (evalArgument_denotes D (scope.mono w₁) a.2).bind fun av s₂ ⟨w₂, hav⟩ => .pure ?_
  refine ⟨w₁.trans w₂, ?_⟩
  rw [nodeArgsOf] at so ⊢
  rw [List.foldlM_append, so]
  show (Option.map _ (argumentOf mean a.2 ρ)).bind some = _
  rw [hav]
  rfl

/-! ### Names and operators -/

omit D in
theorem evalIdent_denotes [IsStrictOrderedRing K] (pos : Pos) (text : String) :
    Ensures (evalIdent standardRegistry pos text env) s fun v s' =>
      Leads s.bp s'.bp ∧ ∃ m, meaningOfIdent sr text ρ = some m ∧ v.Is sr s'.bp m := by
  have here := scope text
  rw [evalIdent, meaningOfIdent]
  generalize env text = v at here ⊢
  generalize ρ text = m at here ⊢
  cases here with
  | some is =>
      refine (ensures_leads standardRegistry (fun _ => countUse_emits text) s).bind ?_
      exact fun _ s₁ w₁ => .pure ⟨w₁, _, rfl, is.mono w₁⟩
  | none =>
      refine .ite (fun wire => ?_) fun wire => .ite (fun cut => ?_) fun cut => .ite (fun _ => ?_)
        fun _ => .halt _
      · have frag : Ensures _ s fun f s' => Leads s.bp s'.bp ∧ Tells sr s'.bp f identity :=
          makeWire_ensures
        refine (block_ensures frag).mono ?_
        rintro v s₁ ⟨w₁, is⟩
        exact ⟨w₁, _, if_pos wire, is⟩
      · have made : standardRegistry.make "cut" {} = some (Nodes.cut : Node K) := rfl
        refine (plainNode_ensures sr made "cut" s).mono ?_
        rintro v s₁ ⟨w₁, is⟩
        refine ⟨w₁, .block cutOff, by rw [if_neg wire, if_pos cut], ?_⟩
        rcases v with n | f
        · exact is.elim
        · exact Tells.congr is rfl rfl fun x c hc => absurd hc (Nat.not_lt_zero c)
      · cases made : standardRegistry.make text ({} : NodeArgs K) with
        | none =>
            intro v s' run
            rw [makeNode, made] at run
            cases run
        | some nd =>
            refine (plainNode_ensures sr made text s).mono ?_
            rintro v s₁ ⟨w₁, is⟩
            exact ⟨w₁, _, by rw [if_neg wire, if_neg cut, nodeOf, made]; rfl, is⟩

theorem evalUnary_denotes (pos : Pos) (a : Expr K) :
    Ensures (evalUnary standardRegistry eval pos a env) s fun v s' =>
      Leads s.bp s'.bp ∧ ∃ m, (mean a ρ).map Meaning.negated = some m ∧ v.Is sr s'.bp m := by
  refine (D a env ρ "" s scope).bind fun v s₁ ⟨w₁, m, hm, is⟩ => ?_
  rw [hm]
  rcases v with n | f <;> rcases m with k | d <;> try exact is.elim
  · obtain rfl : n = k := is
    exact .pure ⟨w₁, _, rfl, rfl⟩
  · refine (negate_ensures is pos).bind fun g s₂ ⟨w₂, tells⟩ => ?_
    exact .pure ⟨w₁.trans w₂, .block _, rfl, tells⟩

theorem evalSelect_denotes (pos : Pos) (a : Expr K) (index : Int) :
    Ensures (evalSelect standardRegistry eval pos a index env) s fun v s' =>
      Leads s.bp s'.bp ∧ ∃ m, ((signalOf mean a ρ).bind fun d =>
        (picked d (indexSize index)).map .block) = some m ∧ v.Is sr s'.bp m := by
  refine (evalFragment_denotes D scope a).bind fun f s₁ ⟨w₁, d, hd, tells⟩ => ?_
  cases here : f.outs[indexSize index]? with
  | none => exact .halt _
  | some c =>
      have lt : indexSize index < d.outs := tells.gives ▸ (List.getElem?_eq_some_iff.mp here).1
      refine .pure ⟨w₁, .block _, by rw [hd, Option.bind_some, picked, if_pos lt]; rfl, ?_⟩
      refine tells.post rfl fun bp shown w S => ?_
      intro c' o ho
      match c' with
      | 0 =>
          obtain rfl := Option.some.inj ho
          exact tells.channel here bp shown w S
      | c' + 1 => cases ho

theorem evalArith_denotes (pos : Pos) {op : Tok}
    (arith : op ∈ [Tok.plus, .minus, .star, .slash, .percent]) (a b : Expr K) :
    Ensures (evalArith standardRegistry eval pos op a b env) s fun v s' =>
      Leads s.bp s'.bp ∧ ∃ m, ((mean a ρ).bind fun l => (mean b ρ).bind fun r =>
        Meaning.arith op l r) = some m ∧ v.Is sr s'.bp m := by
  refine (D a env ρ "" s scope).bind fun l s₁ ⟨w₁, m, hm, hl⟩ => ?_
  refine (D b env ρ "" s₁ (scope.mono w₁)).bind fun r s₂ ⟨w₂, m', hm', hr⟩ => ?_
  rw [hm, hm']
  exact (arith_ensures pos arith a b (hl.mono w₂) hr).mono fun v s₃ ⟨w₃, told⟩ =>
    ⟨(w₁.trans w₂).trans w₃, told⟩

theorem evalJoin_denotes (a b : Expr K) {join : Fragment → Fragment → LowerM K Fragment}
    {op : Tok}
    (joins : ∀ {s : Lowerer K} {f g : Fragment} {d d' : Diagram (Wave K)}, Tells sr s.bp f d →
      Tells sr s.bp g d' → Ensures (join f g) s fun h s' =>
        Leads s.bp s'.bp ∧ ∃ D, joined d d' op = some D ∧ Tells sr s'.bp h D) :
    Ensures (evalJoin standardRegistry eval a b env join) s fun v s' =>
      Leads s.bp s'.bp ∧ ∃ m, ((signalOf mean a ρ).bind fun l => (signalOf mean b ρ).bind fun r =>
        (joined l r op).map .block) = some m ∧ v.Is sr s'.bp m := by
  refine (evalFragment_denotes D scope a).bind fun f s₁ ⟨w₁, d, hd, hf⟩ => ?_
  refine (evalFragment_denotes D (scope.mono w₁) b).bind fun g s₂ ⟨w₂, d', hd', hg⟩ => ?_
  refine (joins (hf.mono w₂) hg).bind fun h s₃ ⟨w₃, E, hE, tells⟩ => .pure ?_
  refine ⟨(w₁.trans w₂).trans w₃, .block E, ?_, tells⟩
  rw [hd, hd', Option.bind_some, Option.bind_some, hE]
  rfl

theorem evalBinary_denotes [IsStrictOrderedRing K] (pos : Pos) (op : Tok) (a b : Expr K) :
    Ensures (evalBinary standardRegistry eval pos op a b env) s fun v s' =>
      Leads s.bp s'.bp ∧ ∃ m, meaningOfBinary mean op a b ρ = some m ∧ v.Is sr s'.bp m := by
  cases op with
  | plus | minus | star | slash | percent => exact evalArith_denotes D scope pos (by decide) a b
  | colon => exact evalJoin_denotes D scope a b fun hf hg => seqFragments_ensures hf hg pos
  | comma =>
      exact evalJoin_denotes D scope a b fun hf hg => .pure ⟨.refl _, _, rfl, hf.par hg⟩
  | split => exact evalJoin_denotes D scope a b fun hf hg => splitFragments_ensures hf hg pos
  | merge => exact evalJoin_denotes D scope a b fun hf hg => mergeFragments_ensures hf hg pos
  | _ => exact .halt _

/-! ### Node calls -/

theorem evalNode_denotes (pos : Pos) (text : String) (args : List (Argument K))
    (preferred : String) :
    Ensures (evalNode standardRegistry eval pos text args env preferred) s fun v s' =>
      Leads s.bp s'.bp ∧ ∃ m,
        ((nodeArgsOf mean args ρ).bind fun na => nodeOf sr text na) = some m ∧ v.Is sr s'.bp m := by
  refine (evalNodeArgs_denotes D scope args).bind fun na s₁ ⟨w₁, hna⟩ => ?_
  rw [hna, Option.bind_some, nodeOf]
  cases made : standardRegistry.make text na with
  | none => exact .halt _
  | some nd =>
      refine (nameOf_ensures preferred text s₁).bind fun nm s₂ w₂ => ?_
      refine (add_ensures nd nm s₂).bind fun i s₃ ⟨w₃, here⟩ => ?_
      have quiet := ensures_leads standardRegistry (fun _ => bindRuneParams_emits args i) s₃
      refine quiet.bind fun _ s₄ w₄ => ?_
      have fragment : Ensures (nodeFragment i) s₄ fun f s' =>
          Leads s₄.bp s'.bp ∧ Tells sr s'.bp f (nd.diagram sr) :=
        nodeFragment_ensures (w₄.node here)
      refine fragment.bind fun f s₅ ⟨w₅, tells⟩ => .pure ⟨?_, .block (nd.diagram sr), rfl, tells⟩
      exact (((w₁.trans w₂).trans w₃).trans w₄).trans w₅

theorem evalOver_denotes (pos : Pos) (args : List (Argument K)) :
    Ensures (evalOver standardRegistry eval pos args env) s fun v s' =>
      Leads s.bp s'.bp ∧ ∃ m, meaningOfOver sr mean args ρ = some m ∧ v.Is sr s'.bp m := by
  match args with
  | [] | [_] | _ :: _ :: _ :: _ => exact .halt _
  | [a, region] =>
      refine (evalNumber_denotes D scope a.2).bind fun nv s₁ ⟨w₁, hnv⟩ => ?_
      refine .ite (fun _ => .halt _) fun power => ?_
      refine (evalFragment_denotes D (scope.mono w₁) region.2).bind ?_
      intro f s₂ ⟨w₂, d, hd, tells⟩
      rw [meaningOfOver, hnv, Option.bind_some, hd, Option.bind_some]
      have low : ¬factorOf nv < 1 := fun h => power (.inl h)
      dsimp only
      rw [if_neg low]
      refine .ite (fun one => ?_) fun more => ?_
      · exact .pure ⟨w₁.trans w₂, _, if_pos one, tells⟩
      · rw [if_neg more]
        rcases f with ⟨ins, outs⟩
        rcases ins with _ | ⟨inp, _ | ⟨_, _⟩⟩ <;> rcases outs with _ | ⟨out, _ | ⟨_, _⟩⟩ <;>
          try exact .halt _
        have one : d.ins = 1 ∧ d.outs = 1 := ⟨tells.takes.symm, tells.gives.symm⟩
        rw [if_pos one]
        refine (overRegion_ensures pos _ tells).bind fun f s₃ ⟨w₃, told⟩ => ?_
        exact .pure ⟨(w₁.trans w₂).trans w₃, _, rfl, told⟩

end Turn

/-! ### Statements -/

omit [Field K] [LinearOrder K] [FloorRing K] [Trig K] in
/-- A naming scope changes no blueprint. -/
theorem withPrefix_ensures {β : Type} {m : LowerM K β} {P : β → GraphBlueprint K → Prop}
    {s : Lowerer K} (p : String)
    (h : ∀ s', s'.bp = s.bp → Ensures m s' fun b s'' => P b s''.bp) :
    Ensures (withPrefix p m) s fun b s' => P b s'.bp := by
  refine Ensures.get_bind ?_
  refine (Ensures.modify (P := fun _ (s' : Lowerer K) => s'.bp = s.bp) rfl).bind fun _ s₁ same => ?_
  refine (h s₁ same).bind fun b s₂ told => ?_
  exact (Ensures.modify (P := fun _ (s' : Lowerer K) => P b s'.bp) told).bind fun _ _ h => .pure h

def Stmt.IsInput : Stmt K → Prop
  | .input _ _ _ => True
  | _            => False

section Sigils

variable {sigils : List (Definition K)} {eval : Eval K}
  {mean : Expr K → Meanings K → Option (Meaning K)} (D : Denotes sr eval mean)
  {sc : Scope K} {ρ : Meanings K} {s : Lowerer K}

include D

theorem evalBound_denotes (scope : EnvIs sr s.bp sc.env ρ) (value : Expr K) (qname : String) :
    Ensures (evalBound standardRegistry sigils eval value sc.env qname) s fun v s' =>
      Leads s.bp s'.bp ∧ ∃ m, mean value ρ = some m ∧ v.Is sr s'.bp m := by
  refine .ite (fun _ => D value sc.env ρ qname s scope) fun _ => ?_
  refine withPrefix_ensures (P := fun (v : Value K) bp => Leads s.bp bp ∧ ∃ m,
    mean value ρ = some m ∧ v.Is sr bp m) qname fun s' same => ?_
  exact same ▸ D value sc.env ρ "" s' (same ▸ scope)

/-- A wire to a named node or port. -/
theorem target_ensures (scope : EnvIs sr s.bp sc.env ρ) (source : Expr K) {text : String}
    (pos : Pos) {join : Chan → LowerM K Unit}
    (emits : ∀ c pre, Emits (Account.leads standardRegistry) pre (join c) []) :
    Ensures (do
      let src ← evalFragment standardRegistry eval source sc.env
      match src.outs with
      | [c] => join c
      | _   => fail pos text) s fun _ s' => Leads s.bp s'.bp := by
  refine (evalFragment_denotes D scope source).bind fun f s₁ ⟨w₁, _⟩ => ?_
  rcases f.outs with _ | ⟨c, _ | ⟨_, _⟩⟩
  · exact .halt _
  · exact (ensures_leads standardRegistry (emits c) s₁).mono fun _ s₂ w₂ => w₁.trans w₂
  · exact .halt _

/-- What a statement leaves, other than an input or an output of a rune. -/
theorem doStmt_denotes (scope : EnvIs sr s.bp sc.env ρ) {stmt : Stmt K}
    (inputs : sc.haveOut.isSome → ¬stmt.IsInput) (outputs : sc.haveOut.isSome → ¬stmt.IsOut) :
    Ensures (doStmt standardRegistry sigils eval stmt sc) s fun r s' =>
      Leads s.bp s'.bp ∧ ∃ m ρ', statementOf mean stmt ρ = some (m, ρ') ∧ r.1.Is sr s'.bp m ∧
        EnvIs sr s'.bp r.2.env ρ' ∧ r.2.haveOut = sc.haveOut := by
  cases stmt with
  | binding pos name value =>
      have bound : Ensures (doBinding standardRegistry sigils eval pos name value sc) s
          fun sc' s' => Leads s.bp s'.bp ∧ ∃ m, mean value ρ = some m ∧
            EnvIs sr s'.bp sc'.env (ρ.set name m) ∧ sc'.haveOut = sc.haveOut := by
        refine .ite (fun _ => .halt _) fun _ => Ensures.get_bind ?_
        refine (evalBound_denotes D scope value _).bind fun v s₁ ⟨w₁, m, hm, is⟩ => ?_
        exact .pure ⟨w₁, m, hm, (scope.mono w₁).set is name, rfl⟩
      refine bound.bind fun sc' s₁ ⟨w₁, m, hm, is, same⟩ => .pure ?_
      exact ⟨w₁, .number 0, _, by rw [statementOf, hm]; rfl, rfl, is, same⟩
  | wire pos e =>
      refine (D e sc.env ρ "" s scope).bind fun v s₁ ⟨w₁, m, hm, is⟩ => .pure ?_
      exact ⟨w₁, m, ρ, by rw [statementOf, hm]; rfl, is, scope.mono w₁, rfl⟩
  | modulate pos source target =>
      refine (target_ensures D scope source pos fun c pre => ?_).bind fun _ s₁ w₁ => .pure ?_
      · exact modulateTo_emits pos target c
      · exact ⟨w₁, _, _, rfl, rfl, scope.mono w₁, rfl⟩
  | explicitWire pos source node i =>
      refine (target_ensures D scope source pos fun c pre => ?_).bind fun _ s₁ w₁ => .pure ?_
      · exact wireTo_emits pos node i c
      · exact ⟨w₁, _, _, rfl, rfl, scope.mono w₁, rfl⟩
  | input pos name args =>
      refine .ite (fun _ => .halt _) fun rune => absurd trivial (inputs ?_)
      exact Option.isSome_iff_ne_none.mpr fun none => rune (none ▸ rfl)
  | out pos e terminal i =>
      refine .ite (fun _ => .halt _) fun rune => absurd trivial (outputs ?_)
      exact Option.isSome_iff_ne_none.mpr fun none => rune (none ▸ rfl)

theorem doBody_denotes (closed : sc.haveOut = none) (scope : EnvIs sr s.bp sc.env ρ)
    (body : List (Stmt K)) :
    Ensures (doBody standardRegistry sigils eval body sc) s fun r s' =>
      Leads s.bp s'.bp ∧ ∃ m ρ', body.foldlM (fun (acc : Meaning K × Meanings K) stmt =>
        statementOf mean stmt acc.2) (.number 0, ρ) = some (m, ρ') ∧ r.1.Is sr s'.bp m ∧
          EnvIs sr s'.bp r.2.env ρ' ∧ r.2.haveOut = none := by
  refine Ensures.foldlM (I := fun done (r : Value K × Scope K) (s' : Lowerer K) =>
    Leads s.bp s'.bp ∧ ∃ m ρ', done.foldlM (fun (acc : Meaning K × Meanings K) stmt =>
      statementOf mean stmt acc.2) (.number 0, ρ) = some (m, ρ') ∧ r.1.Is sr s'.bp m ∧
        EnvIs sr s'.bp r.2.env ρ' ∧ r.2.haveOut = none)
    ⟨.refl _, .number 0, ρ, rfl, rfl, scope, closed⟩ ?_
  intro done stmt r s₁ _ ⟨w₁, m, ρ', so, _, scope, closed⟩
  have sigil : ¬r.2.haveOut.isSome := by simp [closed]
  refine (doStmt_denotes D scope (absurd · sigil) (absurd · sigil)).mono ?_
  intro r' s₂ ⟨w₂, m', ρ'', one, is, scope, same⟩
  refine ⟨w₁.trans w₂, m', ρ'', ?_, is, scope, same.trans closed⟩
  rw [List.foldlM_append, so]
  show (statementOf mean stmt ρ').bind some = _
  rw [one]
  rfl

omit [Trig K] in
/-- The parameters, in a scope of their own. -/
theorem bindParams_denotes {env : Env K} (scope : EnvIs sr s.bp env ρ) (pos : Pos)
    (sig : Definition K) (args : List (Argument K)) :
    Ensures (bindParams eval pos sig args env) s fun sc s' =>
      Leads s.bp s'.bp ∧ ∃ σ, parametersOf mean sig args ρ = some σ ∧ EnvIs sr s'.bp sc.env σ ∧
        sc.haveOut = none := by
  refine Ensures.foldlM (b := ⟨fun _ => none, [], none⟩)
    (I := fun done (sc : Scope K) (s' : Lowerer K) => Leads s.bp s'.bp ∧ ∃ σ,
      done.foldlM (fun (σ : Meanings K) (p : Param K × Nat) =>
        (provided args p.2 p.1).bind fun e => (mean e ρ).map fun m => σ.set p.1.name m)
        (fun _ => none) = some σ ∧ EnvIs sr s'.bp sc.env σ ∧ sc.haveOut = none)
    ⟨.refl _, _, rfl, fun _ => .none, rfl⟩ ?_
  intro done p sc s₁ _ ⟨w₁, σ, so, inside, closed⟩
  cases given : provided args p.2 p.1 with
  | none => exact .halt _
  | some e =>
      refine (D e env ρ "" s₁ (scope.mono w₁)).bind fun v s₂ ⟨w₂, m, hm, is⟩ => .pure ?_
      refine ⟨w₁.trans w₂, σ.set p.1.name m, ?_, (inside.mono w₂).set is _, closed⟩
      rw [List.foldlM_append, so]
      show ((provided args p.2 p.1).bind fun e => (mean e ρ).map _).bind some = _
      rw [given, Option.bind_some, hm]
      rfl

theorem evalSigil_denotes {env : Env K} (scope : EnvIs sr s.bp env ρ) (pos : Pos)
    (sig : Definition K) (args : List (Argument K)) :
    Ensures (evalSigil standardRegistry sigils eval pos sig args env) s fun v s' =>
      Leads s.bp s'.bp ∧ ∃ m, meaningOfSigil mean sig args ρ = some m ∧ v.Is sr s'.bp m := by
  refine (bindParams_denotes D scope pos sig args).bind fun sc s₁ ⟨w₁, σ, hσ, inside, closed⟩ => ?_
  refine (doBody_denotes D closed inside sig.body).bind fun r s₂ ⟨w₂, m, ρ', hm, is, _⟩ => ?_
  refine .ite (fun _ => .pure ⟨w₁.trans w₂, m, ?_, is⟩) fun _ => .halt _
  rw [meaningOfSigil, hσ, Option.bind_some, hm]
  rfl

/-! ### The evaluator -/

theorem evalCall_denotes {env : Env K} (scope : EnvIs sr s.bp env ρ) (pos : Pos) (text : String)
    (args : List (Argument K)) (preferred : String) :
    Ensures (evalCall standardRegistry sigils eval pos text args env preferred) s fun v s' =>
      Leads s.bp s'.bp ∧ ∃ m, meaningOfCall sr sigils mean text args ρ = some m ∧
        v.Is sr s'.bp m := by
  rw [meaningOfCall]
  refine .ite (fun wide => ?_) fun wide => .ite (fun _ => .halt _) fun _ => ?_
  · rw [if_pos wide]
    exact evalOver_denotes D scope pos args
  · rw [if_neg wide]
    cases findSigil sigils text with
    | some sig => exact evalSigil_denotes D scope pos sig args
    | none =>
        refine .ite (fun _ => ?_) fun _ => .halt _
        exact evalNode_denotes D scope pos text args preferred

theorem evalStep_denotes [IsStrictOrderedRing K] :
    Denotes sr (evalStep standardRegistry sigils eval) (meaningStep sr sigils mean) := by
  intro e env ρ preferred s scope
  cases e with
  | number pos n => exact .pure ⟨.refl _, .number n, rfl, rfl⟩
  | string pos text => exact .halt _
  | boolean pos b => exact .halt _
  | ident pos text => exact evalIdent_denotes scope pos text
  | unary pos a => exact evalUnary_denotes D scope pos a
  | select pos a index => exact evalSelect_denotes D scope pos a index
  | binary pos op a b => exact evalBinary_denotes D scope pos op a b
  | call pos text args => exact evalCall_denotes D scope pos text args preferred

end Sigils

/-- **The evaluator keeps the meaning.** -/
theorem evalExpr_denotes [IsStrictOrderedRing K] (sigils : List (Definition K)) : ∀ fuel : Nat,
    Denotes sr (evalExpr standardRegistry sigils fuel) (meaning sr sigils fuel)
  | 0 => fun _ _ _ _ _ _ => .halt _
  | fuel + 1 => evalStep_denotes (evalExpr_denotes sigils fuel)

end Xrune.Lang
