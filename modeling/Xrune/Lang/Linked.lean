import Xrune.Lang.Lower

/-!
# Lang — linked lowerings

Two lowerings that perform the same operations keep whatever the operations keep.  A `Transfer`
says how the node indices, the channels and the names of two lowerers correspond, and that each
operation on the state respects it; evaluation then does (`evalStep_linked`), whatever the
expression.
-/

namespace Xrune.Lang

open Stateful

variable {α : Type}

/-- What the lowerer takes for granted of the nodes it makes itself. -/
structure Builtins (reg : NodeRegistry α) : Prop where
  gain : ∀ args nd, reg.make "gain" args = some nd → 0 < nd.outputsCount ∧ 0 < nd.paramsCount
  op : ∀ type ∈ ["add", "mul", "div", "inv", "mix", "up2", "down2"], ∀ args nd,
    reg.make type args = some nd → 0 < nd.outputsCount
  up2 : ∀ args nd, reg.make "up2" args = some nd → 0 < nd.inputsCount

/-- A statement that names a node. -/
def Stmt.IsByName : Stmt α → Prop
  | .modulate _ _ _ | .explicitWire _ _ _ _ => True
  | _ => False

/-- Fragments whose open inputs and whose outputs correspond, in order. -/
structure FragRel (inp outp : Chan → Chan → Prop) (f g : Fragment) : Prop where
  ins : List.Forall₂ inp f.ins g.ins
  outs : List.Forall₂ outp f.outs g.outs

variable {W : Type} [Preorder W]

/-- The fragment of one node at two indices. -/
theorem nodeFragment_rel {nd : Node α} {s t : Lowerer α} {i j : Nat}
    (hs : s.bp.nodes[i]? = some nd) (ht : t.bp.nodes[j]? = some nd)
    {inp outp : Chan → Chan → Prop} (ports : ∀ ch < nd.inputsCount, inp ⟨i, ch⟩ ⟨j, ch⟩)
    (channels : ∀ ch < nd.outputsCount, outp ⟨i, ch⟩ ⟨j, ch⟩) :
    FragRel inp outp ⟨(List.range (s.bp.inputsOf i)).map (Chan.mk i),
        (List.range (s.bp.outputsOf i)).map (Chan.mk i)⟩
      ⟨(List.range (t.bp.inputsOf j)).map (Chan.mk j),
        (List.range (t.bp.outputsOf j)).map (Chan.mk j)⟩ := by
  simp only [GraphBlueprint.inputsOf, GraphBlueprint.outputsOf, hs, ht, Option.map_some,
    Option.getD_some]
  constructor
  · rw [List.forall₂_map_left_iff, List.forall₂_map_right_iff, List.forall₂_same]
    exact fun ch hch => ports ch (List.mem_range.mp hch)
  · rw [List.forall₂_map_left_iff, List.forall₂_map_right_iff, List.forall₂_same]
    exact fun ch hch => channels ch (List.mem_range.mp hch)

/-- A correspondence of two lowerers: of open input ports, of output channels, of the ports a
wire may end at, of nodes made by the registry, and of names. -/
structure Transfer (reg : NodeRegistry α) (L : Link (Lowerer α) (Lowerer α) Diagnostic W) where
  inp : W → Chan → Chan → Prop
  outp : W → Chan → Chan → Prop
  target : W → Chan → Chan → Prop
  made : W → Node α → Nat → Nat → Prop
  name : W → String → String → Prop
  laterInp : ∀ {w w'}, w ≤ w' → ∀ {c d}, inp w c d → inp w' c d
  laterOut : ∀ {w w'}, w ≤ w' → ∀ {c d}, outp w c d → outp w' c d
  laterMade : ∀ {w w'}, w ≤ w' → ∀ {nd i j}, made w nd i j → made w' nd i j
  laterName : ∀ {w w'}, w ≤ w' → ∀ {n n'}, name w n n' → name w' n n'
  halts : ∀ {w s t}, L.rel w s t → ∀ e, L.stop (e, s) (some e, t)
  noName : ∀ w, name w "" ""
  port : ∀ {w nd i j}, made w nd i j → ∀ ch < nd.inputsCount, inp w ⟨i, ch⟩ ⟨j, ch⟩
  channel : ∀ {w nd i j}, made w nd i j → ∀ ch < nd.outputsCount, outp w ⟨i, ch⟩ ⟨j, ch⟩
  fragment : ∀ {w nd i j}, made w nd i j →
    Linked L w (fun w' => FragRel (inp w') (outp w')) (nodeFragment i) (nodeFragment j)
  ofInp : ∀ {w c d}, inp w c d → target w c d
  ofMade : ∀ {w nd i j}, made w nd i j → ∀ ch, target w ⟨i, ch⟩ ⟨j, ch⟩
  add : ∀ {w type args nd}, reg.make type args = some nd → ∀ {p p'}, name w p p' → ∀ g,
    Linked L w (fun w' i j => made w' nd i j) (nameOf p g >>= add nd) (nameOf p' g >>= add nd)
  wire : ∀ {w c d i j}, outp w c d → target w i j → ∀ pos,
    Linked L w (fun _ _ _ => True) (wire c i pos) (wire d j pos)
  bindScalar : ∀ {w nd i j}, made w nd i j → 0 < nd.paramsCount → ∀ e,
    Linked L w (fun _ _ _ => True) (bindScalar e i) (bindScalar e j)
  bindArguments : ∀ {w nd i j}, made w nd i j → ∀ args,
    Linked L w (fun _ _ _ => True) (bindRuneParams args i) (bindRuneParams args j)
  countUse : ∀ {w} text, Linked L w (fun _ _ _ => True) (countUse text) (countUse text)
  prefixes : ∀ {w s t}, L.rel w s t → name w s.namePrefix t.namePrefix
  qualified : ∀ {w s t}, L.rel w s t → ∀ n, name w (s.qualify n) (t.qualify n)
  enter : ∀ {w p p'}, name w p p' → Linked L w (fun _ _ _ => True)
    (modify fun s => { s with namePrefix := p }) (modify fun s => { s with namePrefix := p' })

/-! ### Related lists -/

theorem rel_zip {β γ δ κ : Type} {R : β → γ → Prop} {S : δ → κ → Prop} {l : List β} {l' : List γ}
    {k : List δ} {k' : List κ} (h : List.Forall₂ R l l') (g : List.Forall₂ S k k') :
    List.Forall₂ (fun p q => R p.1 q.1 ∧ S p.2 q.2) (l.zip k) (l'.zip k') := by
  induction h generalizing k k' with
  | nil => exact .nil
  | cons one _ ih =>
      cases g with
      | nil => exact .nil
      | cons two g => exact .cons ⟨one, two⟩ (ih g)

theorem rel_zipIdx {β γ : Type} {R : β → γ → Prop} {l : List β} {l' : List γ}
    (h : List.Forall₂ R l l') (n : Nat) :
    List.Forall₂ (fun p q => R p.1 q.1 ∧ p.2 = q.2) (l.zipIdx n) (l'.zipIdx n) := by
  induction h generalizing n with
  | nil => exact .nil
  | cons one _ ih => exact .cons ⟨one, rfl⟩ (ih (n + 1))

theorem rel_getElem? {β γ : Type} {R : β → γ → Prop} {l : List β} {l' : List γ}
    (h : List.Forall₂ R l l') (i : Nat) : Option.Rel R l[i]? l'[i]? := by
  induction h generalizing i with
  | nil => exact .none
  | cons one _ ih =>
      cases i with
      | zero => exact .some one
      | succ i => exact ih i

namespace Transfer

variable {reg : NodeRegistry α} {L : Link (Lowerer α) (Lowerer α) Diagnostic W}
  (T : Transfer reg L) {w w' : W}

/-! ### Corresponding values -/

abbrev Frag (w : W) (f g : Fragment) : Prop := FragRel (T.inp w) (T.outp w) f g

inductive Val (w : W) : Value α → Value α → Prop
  | number (n : α) : Val w (.number n) (.number n)
  | block {f g : Fragment} (h : T.Frag w f g) : Val w (.block f) (.block g)

def Envs (w : W) (env env' : Env α) : Prop := ∀ n, Option.Rel (T.Val w) (env n) (env' n)

structure Scopes (w : W) (sc sc' : Scope α) : Prop where
  env : T.Envs w sc.env sc'.env
  defined : sc.defined = sc'.defined
  haveOut : sc.haveOut = sc'.haveOut

/-- Evaluators that take corresponding names to corresponding values. -/
def Evals (eval eval' : Eval α) : Prop :=
  ∀ w e env env' p p', T.Envs w env env' → T.name w p p' →
    Linked L w T.Val (eval e env p) (eval' e env' p')

variable {T}

theorem Frag.later {f g : Fragment} (h : T.Frag w f g) (le : w ≤ w') : T.Frag w' f g :=
  ⟨h.ins.imp fun _ _ => T.laterInp le, h.outs.imp fun _ _ => T.laterOut le⟩

theorem Val.later {u v : Value α} (h : T.Val w u v) (le : w ≤ w') : T.Val w' u v := by
  cases h with
  | number n => exact .number n
  | block h => exact .block (h.later le)

theorem Envs.later {env env' : Env α} (h : T.Envs w env env') (le : w ≤ w') : T.Envs w' env env' := by
  intro n
  have := h n
  generalize env n = o, env' n = o' at *
  cases this with
  | some h => exact .some (h.later le)
  | none => exact .none

theorem Scopes.later {sc sc' : Scope α} (h : T.Scopes w sc sc') (le : w ≤ w') :
    T.Scopes w' sc sc' := ⟨h.env.later le, h.defined, h.haveOut⟩

theorem Envs.set {env env' : Env α} (h : T.Envs w env env') {u v : Value α} (hv : T.Val w u v)
    (name : String) : T.Envs w (env.set name u) (env'.set name v) := by
  intro n
  rw [Env.set, Env.set]
  split_ifs
  · exact .some hv
  · exact h n

theorem Scopes.define {sc sc' : Scope α} (h : T.Scopes w sc sc') {u v : Value α}
    (hv : T.Val w u v) (name : String) : T.Scopes w (sc.define name u) (sc'.define name v) :=
  ⟨h.env.set hv name, congrArg (name :: ·) h.defined, h.haveOut⟩

variable (T)

include T

/-! ### Nodes -/

theorem fail_linked {β γ : Type} {Q : W → β → γ → Prop} (pos : Pos) (m : String) :
    Linked L w Q (fail pos m) (fail pos m) := .halt fun _ _ rel => T.halts rel _

theorem orTrap_linked {β : Type} (o : Option β) :
    Linked L w (fun _ b c => o = some b ∧ b = c) (orTrap o) (orTrap o) := by
  cases o with
  | none => exact .halt fun _ _ rel => T.halts rel _
  | some b => exact .pure ⟨rfl, rfl⟩

theorem orTrap_linked_of_rel {β γ : Type} {R : β → γ → Prop} {o : Option β} {o' : Option γ}
    (h : Option.Rel R o o') : Linked L w (fun _ => R) (orTrap o) (orTrap o') := by
  cases h with
  | none => exact .halt fun _ _ rel => T.halts rel _
  | some h => exact .pure h

theorem nodeFragment_linked {nd : Node α} {i j : Nat} (h : T.made w nd i j) :
    Linked L w T.Frag (nodeFragment i) (nodeFragment j) := T.fragment h

theorem makeNode_linked (type : String) (args : NodeArgs α) (g : String) :
    Linked L w (fun w' i j => ∃ nd, reg.make type args = some nd ∧ T.made w' nd i j)
      (makeNode reg type args g) (makeNode reg type args g) := by
  refine (T.orTrap_linked (reg.make type args)).bind fun w' _ nd nd' ⟨made, eq⟩ => ?_
  subst eq
  exact (T.add made (T.noName _) g).mono fun _ _ i j h => ⟨nd, made, h⟩

theorem makeFragment_linked (type : String) (args : NodeArgs α) (g : String) :
    Linked L w T.Frag (makeNode reg type args g >>= nodeFragment)
      (makeNode reg type args g >>= nodeFragment) :=
  (T.makeNode_linked type args g).bind fun _ _ _ _ ⟨_, _, h⟩ => T.nodeFragment_linked h

theorem toFrag_linked {u v : Value α} (h : T.Val w u v) :
    Linked L w T.Frag (toFrag reg u) (toFrag reg v) := by
  cases h with
  | number n => exact T.makeFragment_linked _ _ _
  | block h => exact .pure h

theorem block_linked {m m' : LowerM α Fragment} (h : Linked L w T.Frag m m') :
    Linked L w T.Val (do return .block (← m)) (do return .block (← m')) :=
  h.bind fun _ _ _ _ h => .pure (.block h)

theorem outs_snoc {outs outs' : List Chan} (h : List.Forall₂ (T.outp w) outs outs') (le : w ≤ w')
    {nd : Node α} {i j : Nat} (made : T.made w' nd i j) (pos : 0 < nd.outputsCount) :
    List.Forall₂ (T.outp w') (outs ++ [⟨i, 0⟩]) (outs' ++ [⟨j, 0⟩]) :=
  List.rel_append (h.imp fun _ _ => T.laterOut le) (.cons (T.channel made 0 pos) .nil)

/-! ### Arithmetic -/

variable (B : Builtins reg)

include B

theorem scale_linked {f g : Fragment} (h : T.Frag w f g) (k : α) (pos : Pos)
    (e : Option (Expr α)) : Linked L w T.Frag (scale reg f k pos e) (scale reg g k pos e) := by
  refine (Linked.foldlM (Q := fun w => List.Forall₂ (T.outp w)) (E := T.outp) T.laterOut h.outs
    .nil ?_).bind ?_
  · intro w₁ le₁ outs outs' c d houts hcd
    refine (T.makeNode_linked "gain" _ _).bind fun w₂ le₂ i j ⟨nd, hnd, made⟩ => ?_
    refine (T.wire (T.laterOut le₂ hcd) (T.ofMade made 0) pos).bind fun w₃ le₃ _ _ _ => ?_
    obtain ⟨hout, hport⟩ := B.gain _ _ hnd
    refine (T.bindScalar (T.laterMade le₃ made) hport e).bind fun w₄ le₄ _ _ _ => .pure ?_
    exact T.outs_snoc houts (le₂.trans (le₃.trans le₄)) (T.laterMade (le₃.trans le₄) made) hout
  · intro w₁ le₁ outs outs' houts
    exact .pure ⟨(h.later le₁).ins, houts⟩

theorem negate_linked {f g : Fragment} (h : T.Frag w f g) (pos : Pos) :
    Linked L w T.Frag (negate reg f pos) (negate reg g pos) := by
  refine (Linked.foldlM (Q := fun w => List.Forall₂ (T.outp w)) (E := T.outp) T.laterOut h.outs
    .nil ?_).bind ?_
  · intro w₁ le₁ outs outs' c d houts hcd
    refine (T.makeNode_linked "inv" _ _).bind fun w₂ le₂ i j ⟨nd, hnd, made⟩ => ?_
    refine (T.wire (T.laterOut le₂ hcd) (T.ofMade made 0) pos).bind fun w₃ le₃ _ _ _ => .pure ?_
    exact T.outs_snoc houts (le₂.trans le₃) (T.laterMade le₃ made)
      (B.op "inv" (by decide) _ _ hnd)
  · intro w₁ le₁ outs outs' houts
    exact .pure ⟨(h.later le₁).ins, houts⟩

theorem zip_linked {type : String} (ht : type ∈ ["add", "mul", "div", "inv", "mix", "up2", "down2"])
    {a a' b b' : Fragment} (ha : T.Frag w a a') (hb : T.Frag w b b') (pos : Pos) :
    Linked L w T.Frag (zip reg type a b pos) (zip reg type a' b' pos) := by
  unfold zip
  dsimp only
  rw [← ha.outs.length_eq, ← hb.outs.length_eq]
  refine .ite (fun _ => T.fail_linked pos _) fun _ => ?_
  refine (Linked.foldlM (Q := fun w => List.Forall₂ (T.outp w)) (E := fun _ (i j : Nat) => i = j)
    (fun _ => id) (List.forall₂_same.mpr fun _ _ => rfl) .nil ?_).bind ?_
  · rintro w₁ le₁ outs outs' k _ houts rfl
    refine (T.makeNode_linked type _ _).bind fun w₂ le₂ i j ⟨nd, hnd, made⟩ => ?_
    have ha := (ha.later (le₁.trans le₂)).outs
    refine (T.orTrap_linked_of_rel (rel_getElem? ha _)).bind fun w₃ le₃ x x' hx => ?_
    have made := T.laterMade le₃ made
    refine (T.wire (T.laterOut le₃ hx) (T.ofMade made 0) pos).bind fun w₄ le₄ _ _ _ => ?_
    have hb := (hb.later (le₁.trans (le₂.trans (le₃.trans le₄)))).outs
    refine (T.orTrap_linked_of_rel (rel_getElem? hb _)).bind fun w₅ le₅ y y' hy => ?_
    have made := T.laterMade (le₄.trans le₅) made
    refine (T.wire (T.laterOut le₅ hy) (T.ofMade made 1) pos).bind fun w₆ le₆ _ _ _ => .pure ?_
    exact T.outs_snoc houts (le₂.trans (le₃.trans (le₄.trans (le₅.trans le₆))))
      (T.laterMade le₆ made) (B.op type ht _ _ hnd)
  · intro w₁ le₁ outs outs' houts
    exact .pure ⟨List.rel_append (ha.later le₁).ins (hb.later le₁).ins, houts⟩

theorem zipWith_linked {type : String}
    (ht : type ∈ ["add", "mul", "div", "inv", "mix", "up2", "down2"]) {l l' : Value α}
    (hl : T.Val w l l') {m m' : LowerM α Fragment}
    (hr : ∀ w', w ≤ w' → Linked L w' T.Frag m m') (pos : Pos) :
    Linked L w T.Frag (zipWith reg type l m pos) (zipWith reg type l' m' pos) := by
  refine (T.toFrag_linked hl).bind fun w₁ le₁ a a' ha => ?_
  refine (hr w₁ le₁).bind fun w₂ le₂ b b' hb => ?_
  exact T.zip_linked B ht (ha.later le₂) hb pos

theorem arithStar_linked {l l' r r' : Value α} (hl : T.Val w l l') (hr : T.Val w r r') (pos : Pos)
    (ea eb : Expr α) :
    Linked L w T.Frag (arithStar reg pos ea eb l r) (arithStar reg pos ea eb l' r') := by
  have zipped : Linked L w T.Frag (zipWith reg "mul" l (toFrag reg r) pos)
      (zipWith reg "mul" l' (toFrag reg r') pos) :=
    T.zipWith_linked B (by decide) hl (fun _ le => T.toFrag_linked (hr.later le)) pos
  cases hl with
  | number n =>
      cases hr with
      | number m => exact zipped
      | block hr => exact T.scale_linked B hr n pos (some ea)
  | block hl =>
      cases hr with
      | number m => exact T.scale_linked B hl m pos (some eb)
      | block hr => exact zipped

variable [Sample α]

omit B in
theorem foldNumbers_linked (pos : Pos) (op : Tok) (a b : α) :
    Linked L w T.Val (foldNumbers pos op a b) (foldNumbers pos op a b) := by
  unfold foldNumbers
  split
  · exact .pure (.number _)
  · exact .pure (.number _)
  · exact .pure (.number _)
  · exact .ite (fun _ => T.fail_linked pos _) fun _ => .pure (.number _)
  · exact .ite (fun _ => T.fail_linked pos _) fun _ => .pure (.number _)
  · exact .pure (.number _)

theorem arithSlash_linked {l l' r r' : Value α} (hl : T.Val w l l') (hr : T.Val w r r')
    (pos : Pos) : Linked L w T.Frag (arithSlash reg pos l r) (arithSlash reg pos l' r') := by
  cases hr with
  | number n =>
      refine .ite (fun _ => T.fail_linked pos _) fun _ => ?_
      exact (T.toFrag_linked hl).bind fun w₁ _ _ _ h => T.scale_linked B h _ pos none
  | block hr =>
      exact T.zipWith_linked B (by decide) hl (fun _ le => .pure (hr.later le)) pos

theorem negated_linked {r r' : Value α} (hr : T.Val w r r') (pos : Pos) :
    Linked L w T.Frag (negated reg pos r) (negated reg pos r') := by
  cases hr with
  | number n => exact T.makeFragment_linked _ _ _
  | block hr => exact T.negate_linked B hr pos

theorem arithSignals_linked {l l' r r' : Value α} (hl : T.Val w l l') (hr : T.Val w r r')
    (pos : Pos) (op : Tok) (ea eb : Expr α) : Linked L w T.Frag
      (arithSignals reg pos op ea eb l r) (arithSignals reg pos op ea eb l' r') := by
  unfold arithSignals
  split
  · exact T.fail_linked pos _
  · exact T.arithStar_linked B hl hr pos ea eb
  · exact T.arithSlash_linked B hl hr pos
  · exact T.zipWith_linked B (by decide) hl (fun _ le => T.toFrag_linked (hr.later le)) pos
  · exact T.zipWith_linked B (by decide) hl (fun _ le => T.negated_linked B (hr.later le) pos) pos
  · exact T.fail_linked pos _

theorem arith_linked {l l' r r' : Value α} (hl : T.Val w l l') (hr : T.Val w r r') (pos : Pos)
    (op : Tok) (ea eb : Expr α) :
    Linked L w T.Val (arith reg pos op ea eb l r) (arith reg pos op ea eb l' r') := by
  have signals := T.block_linked (T.arithSignals_linked B hl hr pos op ea eb)
  cases hl with
  | number n =>
      cases hr with
      | number m => exact T.foldNumbers_linked pos op n m
      | block hr => exact signals
  | block hl =>
      cases hr with
      | number m => exact signals
      | block hr => exact signals

/-! ### Connections -/

omit B [Sample α] in
theorem seqFragments_linked {a a' b b' : Fragment} (ha : T.Frag w a a') (hb : T.Frag w b b')
    (pos : Pos) : Linked L w T.Frag (seqFragments pos a b) (seqFragments pos a' b') := by
  unfold seqFragments
  rw [← ha.outs.length_eq, ← hb.ins.length_eq]
  refine .ite (fun _ => T.fail_linked pos _) fun _ => ?_
  refine (Linked.forM (E := fun w (p q : Chan × Chan) => T.outp w p.1 q.1 ∧ T.inp w p.2 q.2)
    (fun le _ _ h => ⟨T.laterOut le h.1, T.laterInp le h.2⟩) (rel_zip ha.outs hb.ins) ?_).bind ?_
  · exact fun _ _ _ _ h => T.wire h.1 (T.ofInp h.2) pos
  · exact fun _ le _ _ _ => .pure ⟨(ha.later le).ins, (hb.later le).outs⟩

omit B [Sample α] in
theorem parFragments_frag {a a' b b' : Fragment} (ha : T.Frag w a a') (hb : T.Frag w b b') :
    T.Frag w (parFragments a b) (parFragments a' b') :=
  ⟨List.rel_append ha.ins hb.ins, List.rel_append ha.outs hb.outs⟩

omit B [Sample α] in
theorem splitFragments_linked {a a' b b' : Fragment} (ha : T.Frag w a a') (hb : T.Frag w b b')
    (pos : Pos) : Linked L w T.Frag (splitFragments pos a b) (splitFragments pos a' b') := by
  unfold splitFragments
  dsimp only
  rw [← ha.outs.length_eq, ← hb.ins.length_eq]
  refine .ite (fun _ => T.fail_linked pos _) fun _ => ?_
  refine (Linked.forM (E := fun w (p q : Chan × Nat) => T.inp w p.1 q.1 ∧ p.2 = q.2)
    (fun le _ _ h => ⟨T.laterInp le h.1, h.2⟩) (rel_zipIdx hb.ins 0) ?_).bind ?_
  · rintro w₁ le₁ ⟨c, k⟩ ⟨d, _⟩ ⟨hcd, rfl⟩
    refine (T.orTrap_linked_of_rel (rel_getElem? (ha.later le₁).outs _)).bind ?_
    intro w₂ le₂ x x' hx
    exact T.wire (T.laterOut le₂ hx) (T.ofInp (T.laterInp le₂ hcd)) pos
  · exact fun _ le _ _ _ => .pure ⟨(ha.later le).ins, (hb.later le).outs⟩

omit B [Sample α] in
theorem mergeGroup_rel {outs outs' : List Chan} (h : List.Forall₂ (T.outp w) outs outs')
    (m i : Nat) : List.Forall₂ (T.outp w) (mergeGroup outs m i) (mergeGroup outs' m i) := by
  refine List.rel_map (R := fun p q : Chan × Nat => T.outp w p.1 q.1 ∧ p.2 = q.2)
    (fun _ _ h => h.1) (List.rel_filter ?_ (rel_zipIdx h 0))
  rintro ⟨c, k⟩ ⟨d, _⟩ ⟨-, rfl⟩
  exact Iff.rfl

theorem mergeInto_linked {group group' : List Chan}
    (h : List.Forall₂ (T.outp w) group group') {i j : Chan} (hi : T.inp w i j) (pos : Pos) :
    Linked L w (fun _ _ _ => True) (mergeInto reg pos group i) (mergeInto reg pos group' j) := by
  have mixed {group group' : List Chan} (h : List.Forall₂ (T.outp w) group group') :
      Linked L w (fun _ _ _ => True) (mixInto reg pos group i) (mixInto reg pos group' j) := by
    unfold mixInto
    rw [← h.length_eq]
    refine (T.makeNode_linked "mix" _ _).bind fun w₁ le₁ k k' ⟨nd, hnd, made⟩ => ?_
    refine (Linked.forM (E := fun w (p q : Chan × Nat) => T.outp w p.1 q.1 ∧ p.2 = q.2)
      (fun le _ _ h => ⟨T.laterOut le h.1, h.2⟩)
      (rel_zipIdx (h.imp fun _ _ => T.laterOut le₁) 0) ?_).bind ?_
    · rintro w₂ le₂ ⟨c, g⟩ ⟨d, _⟩ ⟨hcd, rfl⟩
      exact T.wire hcd (T.ofMade (T.laterMade le₂ made) g) pos
    · intro w₂ le₂ _ _ _
      exact T.wire (T.channel (T.laterMade le₂ made) 0 (B.op "mix" (by decide) _ _ hnd))
        (T.ofInp (T.laterInp (le₁.trans le₂) hi)) pos
  cases h with
  | nil => exact mixed .nil
  | cons one more =>
      cases more with
      | nil => exact T.wire one (T.ofInp hi) pos
      | cons two more => exact mixed (.cons one (.cons two more))

theorem mergeFragments_linked {a a' b b' : Fragment} (ha : T.Frag w a a') (hb : T.Frag w b b')
    (pos : Pos) : Linked L w T.Frag (mergeFragments reg pos a b) (mergeFragments reg pos a' b') := by
  unfold mergeFragments
  dsimp only
  rw [← ha.outs.length_eq, ← hb.ins.length_eq]
  refine .ite (fun _ => T.fail_linked pos _) fun _ => ?_
  refine (Linked.forM (E := fun w (p q : Chan × Nat) => T.inp w p.1 q.1 ∧ p.2 = q.2)
    (fun le _ _ h => ⟨T.laterInp le h.1, h.2⟩) (rel_zipIdx hb.ins 0) ?_).bind ?_
  · rintro w₁ le₁ ⟨c, k⟩ ⟨d, _⟩ ⟨hcd, rfl⟩
    exact T.mergeInto_linked B (T.mergeGroup_rel (ha.later le₁).outs _ _) hcd pos
  · exact fun _ le _ _ _ => .pure ⟨(ha.later le).ins, (hb.later le).outs⟩

/-! ### Expressions -/

section Evaluators

variable {eval eval' : Eval α} (ev : T.Evals eval eval') {env env' : Env α}

include ev

omit B [Sample α] in
theorem evalFragment_linked (h : T.Envs w env env') (e : Expr α) :
    Linked L w T.Frag (evalFragment reg eval e env) (evalFragment reg eval' e env') :=
  (ev w e env env' "" "" h (T.noName w)).bind fun _ _ _ _ h => T.toFrag_linked h

omit B [Sample α] in
theorem evalNumber_linked (h : T.Envs w env env') (e : Expr α) :
    Linked L w (fun _ n m => n = m) (evalNumber eval e env) (evalNumber eval' e env') := by
  refine (ev w e env env' "" "" h (T.noName w)).bind fun w' _ u v huv => ?_
  cases huv with
  | number n => exact .pure rfl
  | block h => exact T.fail_linked e.pos _

omit B [Sample α] in
theorem evalArgument_linked (h : T.Envs w env env') (e : Expr α) :
    Linked L w (fun _ a b => a = b) (evalArgument eval e env) (evalArgument eval' e env') := by
  have number : Linked L w (fun _ (a b : ArgValue α) => a = b)
      (do return .number (← evalNumber eval e env)) (do return .number (← evalNumber eval' e env')) :=
    (T.evalNumber_linked ev h e).bind fun _ _ _ _ eq => .pure (congrArg ArgValue.number eq)
  cases e with
  | string pos s => exact .pure rfl
  | boolean pos b => exact .pure rfl
  | number | ident | call | unary | binary | select => exact number

omit B [Sample α] in
theorem evalNodeArgs_linked (h : T.Envs w env env') (args : List (Argument α)) :
    Linked L w (fun _ a b => a = b) (evalNodeArgs eval args env)
      (evalNodeArgs eval' args env') := by
  refine Linked.foldlM (Q := fun _ (a b : NodeArgs α) => a = b)
    (E := fun _ (a b : Argument α) => a = b) (fun _ => id) (List.forall₂_same.mpr fun _ _ => rfl)
    rfl ?_
  rintro w' le na _ a _ rfl rfl
  refine (T.evalArgument_linked ev (h.later le) a.2).bind ?_
  rintro w₂ - av _ rfl
  exact .pure rfl

omit B ev in
theorem evalIdent_linked (h : T.Envs w env env') (pos : Pos) (text : String) :
    Linked L w T.Val (evalIdent reg pos text env) (evalIdent reg pos text env') := by
  unfold evalIdent
  have found := h text
  generalize env text = o, env' text = o' at *
  cases found with
  | some found =>
      exact (T.countUse text).bind fun w' le _ _ _ => .pure (found.later le)
  | none =>
      have made (type : String) (args : NodeArgs α) (g : String) : Linked L w T.Val
          (do return .block (← nodeFragment (← makeNode reg type args g)))
          (do return .block (← nodeFragment (← makeNode reg type args g))) :=
        (T.makeNode_linked type args g).bind fun _ _ _ _ ⟨_, _, h⟩ =>
          T.block_linked (T.nodeFragment_linked h)
      refine .ite (fun _ => ?_) fun _ => .ite (fun _ => ?_) fun _ => .ite (fun _ => ?_) fun _ =>
        T.fail_linked pos _
      · exact made "adapt" oneOne "wire"
      · exact made "cut" {} "cut"
      · exact made text {} text

omit B [Sample α] in
theorem evalSelect_linked (h : T.Envs w env env') (pos : Pos) (a : Expr α) (index : Int) :
    Linked L w T.Val (evalSelect reg eval pos a index env)
      (evalSelect reg eval' pos a index env') := by
  refine (T.evalFragment_linked ev h a).bind fun w' _ f g hfg => ?_
  rw [← hfg.outs.length_eq]
  have found := rel_getElem? hfg.outs (indexSize index)
  generalize f.outs[indexSize index]? = o, g.outs[indexSize index]? = o' at *
  cases found with
  | none => exact T.fail_linked pos _
  | some hc => exact .pure (.block ⟨hfg.ins, .cons hc .nil⟩)

theorem evalUnary_linked (h : T.Envs w env env') (pos : Pos) (a : Expr α) :
    Linked L w T.Val (evalUnary reg eval pos a env) (evalUnary reg eval' pos a env') := by
  refine (ev w a env env' "" "" h (T.noName w)).bind fun w' _ u v huv => ?_
  cases huv with
  | number n => exact .pure (.number _)
  | block huv => exact T.block_linked (T.negate_linked B huv pos)

theorem evalArith_linked (h : T.Envs w env env') (pos : Pos) (op : Tok) (a b : Expr α) :
    Linked L w T.Val (evalArith reg eval pos op a b env)
      (evalArith reg eval' pos op a b env') := by
  refine (ev w a env env' "" "" h (T.noName w)).bind fun w₁ le₁ l l' hl => ?_
  refine (ev w₁ b env env' "" "" (h.later le₁) (T.noName w₁)).bind fun w₂ le₂ r r' hr => ?_
  exact T.arith_linked B (hl.later le₂) hr pos op a b

omit B [Sample α] in
theorem evalJoin_linked (h : T.Envs w env env') (a b : Expr α)
    {join join' : Fragment → Fragment → LowerM α Fragment}
    (joins : ∀ w f f' g g', T.Frag w f f' → T.Frag w g g' →
      Linked L w T.Frag (join f g) (join' f' g')) :
    Linked L w T.Val (evalJoin reg eval a b env join) (evalJoin reg eval' a b env' join') := by
  refine (T.evalFragment_linked ev h a).bind fun w₁ le₁ f f' hf => ?_
  refine (T.evalFragment_linked ev (h.later le₁) b).bind fun w₂ le₂ g g' hg => ?_
  exact T.block_linked (joins w₂ f f' g g' (hf.later le₂) hg)

theorem evalBinary_linked (h : T.Envs w env env') (pos : Pos) (op : Tok) (a b : Expr α) :
    Linked L w T.Val (evalBinary reg eval pos op a b env)
      (evalBinary reg eval' pos op a b env') := by
  have arith (op : Tok) := T.evalArith_linked B ev h pos op a b
  unfold evalBinary
  split
  · exact arith _
  · exact arith _
  · exact arith _
  · exact arith _
  · exact arith _
  · exact T.evalJoin_linked ev h a b fun w _ _ _ _ hf hg => T.seqFragments_linked hf hg pos
  · exact T.evalJoin_linked ev h a b fun w _ _ _ _ hf hg => .pure (T.parFragments_frag hf hg)
  · exact T.evalJoin_linked ev h a b fun w _ _ _ _ hf hg => T.splitFragments_linked hf hg pos
  · exact T.evalJoin_linked ev h a b fun w _ _ _ _ hf hg => T.mergeFragments_linked B hf hg pos
  · exact T.fail_linked pos _

omit ev [Sample α] in
theorem chain_linked {type : String}
    (ht : type ∈ ["add", "mul", "div", "inv", "mix", "up2", "down2"]) (pos : Pos) :
    ∀ (stages : Nat) {w : W} {c d : Chan}, T.outp w c d →
      Linked L w T.outp (chain reg type pos stages c) (chain reg type pos stages d)
  | 0, _, _, _, h => .pure h
  | stages + 1, w, c, d, h => by
      refine (T.makeNode_linked type _ _).bind fun w₁ le₁ i j ⟨nd, hnd, made⟩ => ?_
      refine (T.wire (T.laterOut le₁ h) (T.ofMade made 0) pos).bind fun w₂ le₂ _ _ _ => ?_
      exact chain_linked ht pos stages
        (T.channel (T.laterMade le₂ made) 0 (B.op type ht _ _ hnd))

omit ev [Sample α] in
theorem overRegion_linked (pos : Pos) (stages : Nat) {inp inp' out out' : Chan}
    (hi : T.inp w inp inp') (ho : T.outp w out out') : Linked L w T.Frag
      (overRegion reg pos stages inp out) (overRegion reg pos stages inp' out') := by
  refine (T.makeNode_linked "up2" _ _).bind fun w₁ le₁ i j ⟨nd, hnd, made⟩ => ?_
  have top := T.channel made 0 (B.op "up2" (by decide) _ _ hnd)
  refine (T.chain_linked B (by decide) pos _ top).bind fun w₂ le₂ c d hcd => ?_
  refine (T.wire hcd (T.ofInp (T.laterInp (le₁.trans le₂) hi)) pos).bind fun w₃ le₃ _ _ _ => ?_
  have le := le₁.trans (le₂.trans le₃)
  refine (T.chain_linked B (by decide) pos _ (T.laterOut le ho)).bind fun w₄ le₄ c d hcd => .pure ?_
  have up := T.port (T.laterMade (le₂.trans (le₃.trans le₄)) made) 0 (B.up2 _ _ hnd)
  exact ⟨.cons up .nil, .cons hcd .nil⟩

theorem evalOver_linked (h : T.Envs w env env') (pos : Pos) (args : List (Argument α)) :
    Linked L w T.Val (evalOver reg eval pos args env) (evalOver reg eval' pos args env') := by
  unfold evalOver
  split
  · rename_i a region
    refine (T.evalNumber_linked ev h a.2).bind ?_
    rintro w₁ le₁ n _ rfl
    refine .ite (fun _ => T.fail_linked pos _) fun _ => ?_
    refine (T.evalFragment_linked ev (h.later le₁) region.2).bind fun w₂ le₂ f g hfg => ?_
    refine .ite (fun _ => .pure (.block hfg)) fun _ => ?_
    obtain ⟨fi, fo⟩ := f
    obtain ⟨gi, go⟩ := g
    obtain ⟨hi, ho⟩ := hfg
    rcases hi with _ | ⟨hi, _ | ⟨hi₂, hi₃⟩⟩
    · exact T.fail_linked pos _
    · rcases ho with _ | ⟨ho, _ | ⟨ho₂, ho₃⟩⟩
      · exact T.fail_linked pos _
      · exact T.block_linked (T.overRegion_linked B pos _ hi ho)
      · exact T.fail_linked pos _
    · exact T.fail_linked pos _
  · exact T.fail_linked pos _

omit B [Sample α] in
theorem evalNode_linked (h : T.Envs w env env') (pos : Pos) (text : String)
    (args : List (Argument α)) {p p' : String} (hp : T.name w p p') :
    Linked L w T.Val (evalNode reg eval pos text args env p)
      (evalNode reg eval' pos text args env' p') := by
  refine (T.evalNodeArgs_linked ev h args).bind ?_
  rintro w₁ le₁ na _ rfl
  cases made : reg.make text na with
  | none => exact T.fail_linked pos _
  | some nd =>
      dsimp only
      rw [← bind_assoc, ← bind_assoc]
      refine (T.add made (T.laterName le₁ hp) text).bind fun w₂ le₂ i j hij => ?_
      refine (T.bindArguments hij args).bind fun w₃ le₃ _ _ _ => ?_
      exact T.block_linked (T.nodeFragment_linked (T.laterMade le₃ hij))

/-! ### Statements -/

variable {sigils : List (Definition α)} {sc sc' : Scope α}

/-- The statements that name a node correspond too. -/
structure ByName : Prop where
  modulate : ∀ {w c d}, T.outp w c d → ∀ pos target,
    Linked L w (fun _ _ _ => True) (modulateTo pos target c) (modulateTo pos target d)
  explicitWire : ∀ {w c d}, T.outp w c d → ∀ pos node i,
    Linked L w (fun _ _ _ => True) (wireTo pos node i c) (wireTo pos node i d)

/-- What only the body of a rune does corresponds too. -/
structure OfRune : Prop extends T.ByName where
  input : ∀ {w nd i j}, T.made w nd i j → ∀ n,
    Linked L w (fun _ _ _ => True) (addInput n i) (addInput n j)
  addNamed : ∀ {w args nd}, reg.make "bus" args = some nd → ∀ n,
    Linked L w (fun w' i j => T.made w' nd i j) (Lang.add nd n) (Lang.add nd n)
  openTerminal : ∀ {w c d}, T.outp w c d → ∀ n,
    Linked L w (fun _ _ _ => True) (openTerminal n) (openTerminal n)
  placeChannel : ∀ {w c d}, T.outp w c d → ∀ pos n k,
    Linked L w (fun _ _ _ => True) (placeChannel pos n k c) (placeChannel pos n k d)

/-- The declaration of a rune parameter. -/
def Declares (L : Link (Lowerer α) (Lowerer α) Diagnostic W) : Prop :=
  ∀ w n dv, Linked L w (fun _ _ _ => True) (declareParam n dv) (declareParam n dv)

omit ev B [Sample α] in
theorem withPrefix_linked {p p' : String} (hp : T.name w p p') {m m' : LowerM α (Value α)}
    (h : ∀ w', w ≤ w' → Linked L w' T.Val m m') :
    Linked L w T.Val (withPrefix p m) (withPrefix p' m') := by
  refine Linked.get.bind fun w₁ le₁ s t rel => ?_
  have saved := T.prefixes rel
  refine (T.enter (T.laterName le₁ hp)).bind fun w₂ le₂ _ _ _ => ?_
  refine (h w₂ (le₁.trans le₂)).bind fun w₃ le₃ u v huv => ?_
  refine (T.enter (T.laterName (le₂.trans le₃) saved)).bind fun w₄ le₄ _ _ _ => ?_
  exact .pure (huv.later le₄)

omit B [Sample α] in
theorem evalBound_linked (h : T.Envs w env env') (value : Expr α) {q q' : String}
    (hq : T.name w q q') : Linked L w T.Val (evalBound reg sigils eval value env q)
      (evalBound reg sigils eval' value env' q') :=
  .ite (fun _ => ev w value _ _ _ _ h hq) fun _ =>
    T.withPrefix_linked hq fun w' le => ev w' value _ _ _ _ (h.later le) (T.noName w')

omit B [Sample α] in
theorem doBinding_linked (h : T.Scopes w sc sc') (pos : Pos) (name : String) (value : Expr α) :
    Linked L w (fun w r r' => T.Scopes w r r' ∧ r.haveOut = sc.haveOut) (doBinding reg sigils eval pos name value sc)
      (doBinding reg sigils eval' pos name value sc') := by
  unfold doBinding
  rw [← h.defined]
  refine .ite (fun _ => T.fail_linked pos _) fun _ => ?_
  refine Linked.get.bind fun w₁ le₁ s t rel => ?_
  have q := T.qualified rel name
  exact (T.evalBound_linked ev (h.env.later le₁) value q).bind fun w₂ le₂ u v huv =>
    .pure ⟨(h.later (le₁.trans le₂)).define huv name, rfl⟩

omit B [Sample α] in
theorem doModulate_linked (named : T.ByName) (h : T.Envs w env env') (pos : Pos)
    (source : Expr α) (target : PortPath) : Linked L w (fun _ _ _ => True)
      (doModulate reg eval pos source target env) (doModulate reg eval' pos source target env') := by
  refine (T.evalFragment_linked ev h source).bind fun w' _ f g hfg => ?_
  have outs := hfg.outs
  generalize f.outs = l, g.outs = l' at *
  rcases outs with _ | ⟨one, _ | ⟨_, _⟩⟩
  · exact T.fail_linked pos _
  · exact named.modulate one pos target
  · exact T.fail_linked pos _

omit B [Sample α] in
theorem doExplicit_linked (named : T.ByName) (h : T.Envs w env env') (pos : Pos)
    (source : Expr α) (node : String) (i : Int) : Linked L w (fun _ _ _ => True)
      (doExplicit reg eval pos source node i env) (doExplicit reg eval' pos source node i env') := by
  refine (T.evalFragment_linked ev h source).bind fun w' _ f g hfg => ?_
  have outs := hfg.outs
  generalize f.outs = l, g.outs = l' at *
  rcases outs with _ | ⟨one, _ | ⟨_, _⟩⟩
  · exact T.fail_linked pos _
  · exact named.explicitWire one pos node i
  · exact T.fail_linked pos _

omit B [Sample α] in
theorem doInput_linked (rune : T.OfRune) (h : T.Scopes w sc sc') (pos : Pos) (name : String)
    (args : List (Argument α)) : Linked L w T.Scopes (doInput reg eval pos name args sc)
      (doInput reg eval' pos name args sc') := by
  unfold doInput
  rw [← h.defined]
  refine .ite (fun _ => T.fail_linked pos _) fun _ => ?_
  refine (T.evalNodeArgs_linked ev h.env args).bind ?_
  rintro w₁ le₁ na _ rfl
  refine (T.orTrap_linked (reg.make "bus" na)).bind ?_
  rintro w₂ le₂ nd _ ⟨made, rfl⟩
  refine (rune.addNamed made name).bind fun w₃ le₃ i j hij => ?_
  refine (rune.input hij name).bind fun w₄ le₄ _ _ _ => ?_
  refine (T.nodeFragment_linked (T.laterMade le₄ hij)).bind fun w₅ le₅ f g hfg => .pure ?_
  exact (h.later (le₁.trans (le₂.trans (le₃.trans (le₄.trans le₅))))).define (.block hfg) name

omit B [Sample α] in
theorem doOut_linked (rune : T.OfRune) (h : T.Scopes w sc sc') (pos : Pos) (e : Expr α)
    (terminal : String) (k : Int) : Linked L w T.Scopes (doOut reg eval pos e terminal k sc)
      (doOut reg eval' pos e terminal k sc') := by
  refine (T.evalFragment_linked ev h.env e).bind fun w₁ le₁ f g hfg => ?_
  have none : f.outs = [] ↔ g.outs = [] := by
    rw [← List.length_eq_zero_iff, ← List.length_eq_zero_iff, hfg.outs.length_eq]
  rw [if_congr none rfl rfl]
  refine .ite (fun _ => T.fail_linked pos _) fun heard => .ite (fun _ => T.fail_linked pos _) fun _ => ?_
  obtain ⟨c, d, first⟩ : ∃ c d, T.outp w₁ c d := by
    have outs := hfg.outs
    generalize f.outs = l, g.outs = l' at *
    cases outs with
    | nil => exact absurd rfl heard
    | cons one _ => exact ⟨_, _, one⟩
  refine (rune.openTerminal first _).bind fun w₂ le₂ _ _ _ => ?_
  refine (Linked.forM (E := fun w (p q : Chan × Nat) => T.outp w p.1 q.1 ∧ p.2 = q.2)
    (fun le _ _ h => ⟨T.laterOut le h.1, h.2⟩) (rel_zipIdx (hfg.later le₂).outs 0) ?_).bind ?_
  · rintro w₃ le₃ ⟨c, n⟩ ⟨d, _⟩ ⟨hcd, rfl⟩
    exact rune.placeChannel hcd pos _ _
  · intro w₃ le₃ _ _ _
    have h := h.later (le₁.trans (le₂.trans le₃))
    have marked {p : Prop} [Decidable p] :
        T.Scopes w₃ (if p then { sc with haveOut := some true } else sc)
          (if p then { sc' with haveOut := some true } else sc') := by
      split_ifs
      · exact ⟨h.env, h.defined, rfl⟩
      · exact h
    exact .pure marked

/-- Corresponding values and scopes, as the statements of a body leave them; what began in a
sigil is still in it. -/
def Afters (inRune : Bool) (w : W) (r r' : Value α × Scope α) : Prop :=
  T.Val w r.1 r'.1 ∧ T.Scopes w r.2 r'.2 ∧ (r.2.haveOut.isSome → inRune)

omit B ev in
theorem scoped_linked {inRune : Bool} {m m' : LowerM α (Scope α)}
    (h : Linked L w (fun w r r' => T.Scopes w r r' ∧ (r.haveOut.isSome → inRune)) m m') :
    Linked L w (T.Afters inRune) (do return (.number 0, ← m)) (do return (.number 0, ← m')) :=
  h.bind fun _ _ _ _ h => .pure ⟨.number 0, h⟩

omit B in
theorem doStmt_linked {s : Stmt α} (named : s.IsByName → T.ByName) {inRune : Bool}
    (rune : inRune → T.OfRune) (h : T.Scopes w sc sc') (into : sc.haveOut.isSome → inRune) :
    Linked L w (T.Afters inRune) (doStmt reg sigils eval s sc) (doStmt reg sigils eval' s sc') := by
  have same {m m' : LowerM α Unit} (hm : Linked L w (fun _ _ _ => True) m m') :
      Linked L w (T.Afters inRune) (do m; return (.number 0, sc)) (do m'; return (.number 0, sc')) :=
    hm.bind fun _ le _ _ _ => .pure ⟨.number 0, h.later le, into⟩
  cases s with
  | binding pos name value =>
      exact T.scoped_linked <| (T.doBinding_linked ev h pos name value).mono
        fun _ _ _ _ hr => ⟨hr.1, fun some => into (hr.2 ▸ some)⟩
  | wire pos e =>
      exact (ev w e _ _ _ _ h.env (T.noName w)).bind
        fun _ le _ _ hv => .pure ⟨hv, h.later le, into⟩
  | modulate pos source target =>
      exact same (T.doModulate_linked ev (named trivial) h.env pos source target)
  | explicitWire pos source node i =>
      exact same (T.doExplicit_linked ev (named trivial) h.env pos source node i)
  | input pos name args =>
      unfold doStmt
      dsimp only
      rw [← h.haveOut]
      refine .ite (fun _ => T.fail_linked pos _) fun some => ?_
      have inRune := into (Option.isSome_iff_ne_none.mpr fun e => some (e ▸ rfl))
      exact T.scoped_linked <| (T.doInput_linked ev (rune inRune) h pos name args).mono
        fun _ _ _ _ hr => ⟨hr, fun _ => inRune⟩
  | out pos e terminal k =>
      unfold doStmt
      dsimp only
      rw [← h.haveOut]
      refine .ite (fun _ => T.fail_linked pos _) fun some => ?_
      have inRune := into (Option.isSome_iff_ne_none.mpr fun e => some (e ▸ rfl))
      exact T.scoped_linked <| (T.doOut_linked ev (rune inRune) h pos e terminal k).mono
        fun _ _ _ _ hr => ⟨hr, fun _ => inRune⟩

/-! ### Sigils -/

omit B [Sample α] in
theorem bindParams_linked (h : T.Envs w env env') (pos : Pos) (sig : Definition α)
    (args : List (Argument α)) :
    Linked L w (fun w sc sc' => T.Scopes w sc sc' ∧ sc.haveOut = none)
      (bindParams eval pos sig args env) (bindParams eval' pos sig args env') := by
  refine Linked.foldlM (Q := fun w sc sc' => T.Scopes w sc sc' ∧ sc.haveOut = none)
    (E := fun _ (p q : Param α × Nat) => p = q) (fun _ => id)
    (List.forall₂_same.mpr fun _ _ => rfl) ⟨⟨fun _ => .none, rfl, rfl⟩, rfl⟩ ?_
  rintro w₁ le₁ sc sc' ⟨p, i⟩ _ ⟨hsc, closed⟩ rfl
  dsimp only
  cases provided args i p with
  | none => exact T.fail_linked pos _
  | some e =>
      refine (ev w₁ e env env' _ _ (h.later le₁) (T.noName w₁)).bind fun w₂ le₂ u v huv => ?_
      exact .pure ⟨(hsc.later le₂).define huv p.name, closed⟩

omit B in
theorem doBody_linked {body : List (Stmt α)} (named : ∀ s ∈ body, s.IsByName → T.ByName)
    {inRune : Bool} (rune : inRune → T.OfRune) (h : T.Scopes w sc sc')
    (into : sc.haveOut.isSome → inRune) : Linked L w (T.Afters inRune)
      (doBody reg sigils eval body sc) (doBody reg sigils eval' body sc') := by
  refine Linked.foldlM (Q := T.Afters inRune) (E := fun _ (s t : Stmt α) => s = t ∧ s ∈ body)
    (fun _ => id) (List.forall₂_same.mpr fun _ mem => ⟨rfl, mem⟩) ⟨.number 0, h, into⟩ ?_
  rintro w' le r r' s _ ⟨-, hsc, into⟩ ⟨rfl, mem⟩
  exact T.doStmt_linked ev (named s mem) rune hsc into

omit B in
theorem evalSigil_linked {sig : Definition α}
    (named : ∀ s ∈ sig.body, s.IsByName → T.ByName) (h : T.Envs w env env') (pos : Pos)
    (args : List (Argument α)) : Linked L w T.Val
      (evalSigil reg sigils eval pos sig args env) (evalSigil reg sigils eval' pos sig args env') := by
  refine (T.bindParams_linked ev h pos sig args).bind fun w₁ le₁ sc sc' ⟨hsc, closed⟩ => ?_
  have body : Linked L w₁ (T.Afters false) (doBody reg sigils eval sig.body sc)
      (doBody reg sigils eval' sig.body sc') :=
    T.doBody_linked ev named (nomatch ·) hsc (by simp [closed])
  refine body.bind fun w₂ le₂ r r' hr => ?_
  exact .ite (fun _ => .pure hr.1) fun _ => T.fail_linked sig.pos _

/-! ### The evaluator -/

theorem evalCall_linked (named : ∀ sig ∈ sigils, ∀ s ∈ sig.body, s.IsByName → T.ByName)
    (h : T.Envs w env env') (pos : Pos) (text : String) (args : List (Argument α)) {p p' : String}
    (hp : T.name w p p') : Linked L w T.Val
      (evalCall reg sigils eval pos text args env p)
      (evalCall reg sigils eval' pos text args env' p') := by
  refine .ite (fun _ => T.evalOver_linked B ev h pos args) fun _ =>
    .ite (fun _ => T.fail_linked pos _) fun _ => ?_
  cases found : findSigil sigils text with
  | some sig =>
      have mem : sig ∈ sigils := List.mem_reverse.mp (List.mem_of_find?_eq_some found)
      exact T.evalSigil_linked ev (named sig mem) h pos args
  | none =>
      exact .ite (fun _ => T.evalNode_linked ev h pos text args hp) fun _ => T.fail_linked pos _

/-- **One turn of evaluation respects the correspondence**, if the evaluators it calls do. -/
theorem evalStep_linked (named : ∀ sig ∈ sigils, ∀ s ∈ sig.body, s.IsByName → T.ByName) :
    T.Evals (evalStep reg sigils eval) (evalStep reg sigils eval') := by
  intro w e env env' p p' h hp
  cases e with
  | number pos n => exact .pure (.number n)
  | string pos s => exact T.fail_linked pos _
  | boolean pos b => exact T.fail_linked pos _
  | ident pos text => exact T.evalIdent_linked h pos text
  | unary pos a => exact T.evalUnary_linked B ev h pos a
  | select pos a index => exact T.evalSelect_linked ev h pos a index
  | binary pos op a b => exact T.evalBinary_linked B ev h pos op a b
  | call pos text args => exact T.evalCall_linked B ev named h pos text args hp

/-! ### Runes -/

omit B [Sample α] in
theorem bindRuneParam_linked (declares : Declares L) (h : T.Scopes w sc sc') (p : Param α) :
    Linked L w T.Scopes (bindRuneParam eval sc p) (bindRuneParam eval' sc' p) := by
  unfold bindRuneParam
  cases p.defaultValue with
  | none => exact T.fail_linked p.pos _
  | some e =>
      refine (T.evalNumber_linked ev h.env e).bind ?_
      rintro w₁ le₁ dv _ rfl
      refine (declares w₁ p.name dv).bind fun w₂ le₂ _ _ _ => .pure ?_
      exact (h.later (le₁.trans le₂)).define (.number dv) p.name

omit B in
theorem runeBody_linked (rune : T.OfRune) (declares : Declares L) (r : Definition α) :
    Linked L w T.Scopes (runeBody reg sigils eval r) (runeBody reg sigils eval' r) := by
  refine (Linked.foldlM (Q := T.Scopes) (E := fun _ (p q : Param α) => p = q) (fun _ => id)
    (List.forall₂_same.mpr fun _ _ => rfl) ⟨fun _ => .none, rfl, rfl⟩ ?_).bind ?_
  · rintro w' le sc sc' p _ hsc rfl
    exact T.bindRuneParam_linked ev declares hsc p
  · intro w₁ le₁ sc sc' hsc
    have body : Linked L w₁ (T.Afters true) (doBody reg sigils eval r.body sc)
        (doBody reg sigils eval' r.body sc') :=
      T.doBody_linked ev (fun _ _ _ => rune.toByName) (fun _ => rune) hsc fun _ => rfl
    exact body.bind fun w₂ le₂ _ _ hr => .pure hr.2.1

end Evaluators

theorem evalExpr_linked {sigils : List (Definition α)}
    (named : ∀ sig ∈ sigils, ∀ s ∈ sig.body, s.IsByName → T.ByName) :
    ∀ fuel, T.Evals (evalExpr reg sigils fuel) (evalExpr reg sigils fuel)
  | 0        => fun _ _ _ _ _ _ _ _ => .halt fun _ _ rel => T.halts rel _
  | fuel + 1 => T.evalStep_linked B (evalExpr_linked named fuel) named

end Transfer

end Xrune.Lang
