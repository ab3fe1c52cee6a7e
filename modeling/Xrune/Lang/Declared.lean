import Xrune.Lang.Account
import Xrune.Lang.Sound

/-!
# Lang — declared parameters

The parameters of a lowered blueprint are those its rune declares, in order: evaluation binds
targets to a parameter, and never adds one (`lowerRune_declares`).
-/

namespace Xrune

namespace Stateful

variable {σ ε β : Type}

/-- Equal states of which `P` holds. -/
def Link.keeping (ε : Type) (P : σ → Prop) : Link σ σ ε Unit where
  rel _ s t := s = t ∧ P s
  stop x y := y = (some x.1, x.2)
  early := by
    rintro e s t h
    cases h

/-- The computation retains `P` where it ends. -/
def Retains (P : σ → Prop) (m : Stateful σ ε β) : Prop := ∀ s b s', P s → m s = (.ok b, s') → P s'

variable {P : σ → Prop} {w : Unit} {γ ι : Type}

theorem Retains.linked {m : Stateful σ ε β} (h : Retains P m) :
    Linked (Link.keeping ε P) w (fun _ => Eq) m m := by
  rintro s _ ⟨rfl, hs⟩
  rcases run : m s with ⟨b | e, s'⟩
  · exact ⟨(), le_rfl, ⟨rfl, h s b s' hs run⟩, rfl⟩
  · rfl

theorem Linked.keeps {Q : Unit → β → β → Prop} {m : Stateful σ ε β}
    (h : Linked (Link.keeping ε P) () Q m m) : Retains P m := by
  intro s b s' hs run
  have ends := h s s ⟨rfl, hs⟩
  rw [run] at ends
  obtain ⟨-, -, ⟨-, hs'⟩, -⟩ := ends
  exact hs'

theorem Retains.pure (b : β) : Retains P (pure b : Stateful σ ε β) := by
  rintro s _ _ hs ⟨⟩
  exact hs

theorem Retains.halt (e : Stop ε) : Retains P (halt e : Stateful σ ε β) := nofun

theorem Retains.modify {f : σ → σ} (h : ∀ s, P s → P (f s)) :
    Retains P (modify f : Stateful σ ε Unit) := by
  rintro s _ _ hs ⟨⟩
  exact h s hs

theorem Retains.bind {m : Stateful σ ε β} {f : β → Stateful σ ε γ} (first : Retains P m)
    (next : ∀ b, Retains P (f b)) : Retains P (m >>= f) := by
  intro s c s' hs run
  obtain ⟨b, s₁, run₁, run₂⟩ := bind_ok.mp run
  exact next b s₁ c s' (first s b s₁ hs run₁) run₂

theorem Retains.get_bind {f : σ → Stateful σ ε γ} (next : ∀ s, Retains P (f s)) :
    Retains P (get >>= f) := by
  refine Retains.bind ?_ next
  rintro s _ _ hs ⟨⟩
  exact hs

theorem Retains.ite {p : Prop} [Decidable p] {m n : Stateful σ ε β} (pos : Retains P m)
    (neg : Retains P n) : Retains P (if p then m else n) := by
  split_ifs
  · exact pos
  · exact neg

theorem Retains.foldlM {f : β → ι → Stateful σ ε β} (turn : ∀ b i, Retains P (f b i)) :
    ∀ (l : List ι) (b : β), Retains P (l.foldlM f b)
  | [], b => .pure b
  | i :: l, b => by
      rw [List.foldlM_cons]
      exact (turn b i).bind fun b' => Retains.foldlM turn l b'

end Stateful

namespace Lang

open Stateful

variable {α : Type} {reg : NodeRegistry α} {names : List String}

/-- The parameters declared are those named. -/
def Declared (names : List String) (s : Lowerer α) : Prop :=
  s.bp.params.map BlueprintParam.name = names

/-! ### What declares nothing -/

theorem gen_declares (type : String) : Retains (Declared (α := α) names) (gen type) := by
  unfold gen
  refine (Retains.modify fun _ h => ?_).bind fun _ => .get_bind fun _ => .pure _
  exact h

theorem nameOf_declares (p g : String) : Retains (Declared (α := α) names) (nameOf p g) :=
  .ite (gen_declares g) (.pure p)

theorem add_declares (nd : Node α) (name : String) : Retains (Declared names) (add nd name) := by
  unfold add
  refine .get_bind fun _ => (Retains.modify fun _ h => ?_).bind fun _ => .pure _
  exact h

theorem wire_declares (out inp : Chan) (pos : Pos) :
    Retains (Declared (α := α) names) (wire out inp pos) := by
  intro s u s' h run
  obtain ⟨bp, one, rfl⟩ := wire_ok run
  obtain ⟨-, rfl⟩ := GraphBlueprint.connect_eq_some.mp one
  exact h

theorem bindParam_declares (name : String) (t : ParamTarget) :
    Retains (Declared names) (modify fun s => s.bindParam name t : LowerM α Unit) := by
  refine .modify fun s h => ?_
  rw [Lowerer.bindParam]
  cases s.bp.findRuneParam name with
  | none => exact h
  | some pi =>
      have same : (s.bp.params.modify pi fun p => { p with targets := p.targets ++ [t] }).map
          BlueprintParam.name = s.bp.params.map BlueprintParam.name := by
        refine List.ext_getElem? fun i => ?_
        rw [List.getElem?_map, List.getElem?_map, List.getElem?_modify]
        cases s.bp.params[i]? with
        | none => rfl
        | some p => split_ifs <;> rfl
      exact same.trans h

theorem bindScalar_declares (e : Option (Expr α)) (i : Nat) :
    Retains (Declared (α := α) names) (bindScalar e i) := by
  refine .get_bind fun s => ?_
  cases s.bindable e with
  | none => exact .pure ()
  | some text => exact bindParam_declares text _

theorem bindArgument_declares (i pos : Nat) (a : Argument α) :
    Retains (Declared (α := α) names) (bindArgument i pos a) := by
  unfold bindArgument
  split
  · refine .get_bind fun s => .ite ?_ (.pure ())
    cases s.portOf i a.1 pos with
    | none => exact .pure ()
    | some port => exact bindParam_declares _ _
  · exact .pure ()

theorem bindRuneParams_declares (args : List (Argument α)) (i : Nat) :
    Retains (Declared (α := α) names) (bindRuneParams args i) := by
  refine Retains.bind (Retains.foldlM (fun pos a => ?_) _ _) fun _ => .pure ()
  exact (bindArgument_declares i pos a).bind fun _ => .pure _

theorem modulateTo_declares (pos : Pos) (target : PortPath) (c : Chan) :
    Retains (Declared (α := α) names) (modulateTo pos target c) := by
  intro s u s' h run
  obtain ⟨_, _, _, _, bp, _, _, _, _, one, rfl⟩ := modulateTo_ok run
  obtain ⟨-, rfl⟩ := GraphBlueprint.connectParam_eq_some.mp one
  exact h

/-- Equal indices, channels and names, in states of the parameters named. -/
def Transfer.declared (reg : NodeRegistry α) (names : List String) :
    Transfer reg (Link.keeping Diagnostic (Declared (α := α) names)) where
  inp _ c d := d = c
  outp _ c d := d = c
  target _ c d := d = c
  made _ _ i j := j = i
  name _ n m := m = n
  laterInp _ := id
  laterOut _ := id
  laterMade _ := id
  laterName _ := id
  halts h e := by
    obtain ⟨rfl, -⟩ := h
    rfl
  noName _ := rfl
  port h _ _ := h ▸ rfl
  channel h _ _ := h ▸ rfl
  fragment := by
    rintro w nd _ i rfl
    refine Linked.get.bind fun w' _ s t rel => .pure ?_
    obtain ⟨rfl, -⟩ := rel
    exact ⟨List.forall₂_same.mpr fun _ _ => rfl, List.forall₂_same.mpr fun _ _ => rfl⟩
  ofInp := id
  ofMade h _ := h ▸ rfl
  add := by
    rintro w type args nd - _ p rfl g
    exact ((nameOf_declares p g).bind fun nm => add_declares nd nm).linked.mono
      fun _ _ _ _ same => same.symm
  wire := by
    rintro w _ c _ i rfl rfl pos
    exact (wire_declares c i pos).linked.mono fun _ _ _ _ _ => trivial
  bindScalar := by
    rintro w nd _ i rfl - e
    exact (bindScalar_declares e i).linked.mono fun _ _ _ _ _ => trivial
  bindArguments := by
    rintro w nd _ i rfl args
    exact (bindRuneParams_declares args i).linked.mono fun _ _ _ _ _ => trivial
  countUse text := by
    refine (Retains.modify fun s h => ?_).linked.mono fun _ _ _ _ _ => trivial
    split_ifs <;> exact h
  prefixes h := congrArg Lowerer.namePrefix h.1.symm
  qualified h n := congrArg (Lowerer.qualify · n) h.1.symm
  enter := by
    rintro w _ p rfl
    refine (Retains.modify fun s h => ?_).linked.mono fun _ _ _ _ _ => trivial
    exact h

theorem Transfer.declared_ofRune (reg : NodeRegistry α) (names : List String) :
    (Transfer.declared reg names).OfRune where
  modulate := by
    rintro w _ c rfl pos target
    exact (modulateTo_declares pos target c).linked.mono fun _ _ _ _ _ => trivial
  explicitWire := by
    rintro w _ c rfl pos node i
    refine Retains.linked (.get_bind fun s => ?_) |>.mono fun _ _ _ _ _ => trivial
    cases s.bp.findNode node with
    | none => exact .halt _
    | some ni => exact wire_declares c _ pos
  input := by
    rintro w nd _ i rfl n
    refine (Retains.modify fun s h => ?_).linked.mono fun _ _ _ _ _ => trivial
    exact h
  addNamed _ n := (add_declares _ n).linked.mono fun _ _ _ _ same => same.symm
  openTerminal _ n := by
    refine (Retains.modify fun s h => ?_).linked.mono fun _ _ _ _ _ => trivial
    split_ifs <;> exact h
  placeChannel := by
    rintro w _ c rfl pos n k
    refine Retains.linked (.get_bind fun s => .ite (.halt _) ?_) |>.mono fun _ _ _ _ _ => trivial
    exact .modify fun _ h => h

/-! ### What a rune declares -/

variable [Sample α] (B : Builtins reg) {sigils : List (Definition α)}

include B

theorem evalExpr_declares (fuel : Nat) : (Transfer.declared reg names).Evals
    (evalExpr reg sigils fuel) (evalExpr reg sigils fuel) :=
  (Transfer.declared reg names).evalExpr_linked B
    (fun _ _ _ _ _ => (Transfer.declared_ofRune reg names).toByName) fuel

omit [Sample α] B in
theorem envs_declared (env : Env α) : (Transfer.declared reg names).Envs () env env := by
  intro n
  cases env n with
  | none => exact .none
  | some v =>
      cases v with
      | number n => exact .some (.number n)
      | block f =>
          exact .some (.block ⟨List.forall₂_same.mpr fun _ _ => rfl,
            List.forall₂_same.mpr fun _ _ => rfl⟩)

/-- A parameter is declared after those before it. -/
theorem bindRuneParam_declares {fuel : Nat} {sc sc' : Scope α} {p : Param α} {s s' : Lowerer α}
    (h : Declared names s)
    (run : bindRuneParam (evalExpr reg sigils fuel) sc p s = (.ok sc', s')) :
    Declared (names ++ [p.name]) s' := by
  unfold bindRuneParam at run
  cases dflt : p.defaultValue with
  | none =>
      rw [dflt] at run
      cases run
  | some e =>
      rw [dflt] at run
      obtain ⟨dv, s₁, evaluated, run⟩ := bind_ok.mp run
      cases run
      have kept := ((Transfer.declared reg names).evalNumber_linked (evalExpr_declares B fuel)
        (envs_declared sc.env) e).keeps s dv s₁ h evaluated
      show (s₁.bp.params ++ [_]).map BlueprintParam.name = names ++ [p.name]
      rw [List.map_append, kept]
      rfl

/-- The loop over the parameters of a rune declares them in order. -/
theorem bindRuneParams_of_rune_declares {fuel : Nat} :
    ∀ {params : List (Param α)} {names : List String} {sc sc' : Scope α} {s s' : Lowerer α},
      Declared names s →
      params.foldlM (bindRuneParam (evalExpr reg sigils fuel)) sc s = (.ok sc', s') →
      Declared (names ++ params.map Param.name) s'
  | [], names, _, _, _, _, h, run => by
      cases run
      rwa [List.map_nil, List.append_nil]
  | p :: params, names, sc, sc', s, s', h, run => by
      rw [List.foldlM_cons] at run
      obtain ⟨sc₁, s₁, one, more⟩ := bind_ok.mp run
      have all := bindRuneParams_of_rune_declares (bindRuneParam_declares B h one) more
      rwa [List.append_assoc] at all

omit [Sample α] B in
theorem finalizeOutputs_params (s : Lowerer α) : s.finalizeOutputs.bp.params = s.bp.params := by
  rw [Lowerer.finalizeOutputs]
  refine List.foldlRecOn (motive := fun t : Lowerer α => t.bp.params = s.bp.params) _ _ rfl ?_
  intro t same n _
  rw [Lowerer.finalizeTerminal]
  split
  · split_ifs <;> exact same
  · exact same

omit [Sample α] B in
theorem flagPartial_params (s : Lowerer α) : s.flagPartial.bp.params.map BlueprintParam.name =
    s.bp.params.map BlueprintParam.name := by
  rw [Lowerer.flagPartial, List.map_map]
  rfl

/-- **A rune's blueprint has the parameters the rune declares**, in order. -/
theorem lowerRune_declares {fuel : Nat} {r : Definition α} {s s' : Lowerer α}
    (run : lowerRune reg sigils (evalExpr reg sigils fuel) r { s with bp := {} } = (.ok (), s')) :
    s'.bp.params.map BlueprintParam.name = r.params.map Param.name := by
  obtain ⟨_, s₁, cleared, run⟩ := bind_ok.mp run
  cases cleared
  obtain ⟨sc, s₂, body, run⟩ := bind_ok.mp run
  obtain ⟨_, s₃, finalized, run⟩ := bind_ok.mp run
  cases finalized
  obtain ⟨_, s₄, flagged, run⟩ := bind_ok.mp run
  cases flagged
  obtain ⟨sc₁, s₃, params, body⟩ := bind_ok.mp body
  have start : Declared [] ({ s with bp := {} } : Lowerer α).reset := rfl
  have declared := bindRuneParams_of_rune_declares B start params
  have rune := Transfer.declared_ofRune reg (r.params.map Param.name)
  have linked : Linked (Link.keeping Diagnostic (Declared (r.params.map Param.name))) ()
      ((Transfer.declared reg _).Afters true)
      (doBody reg sigils (evalExpr reg sigils fuel) r.body sc₁)
      (doBody reg sigils (evalExpr reg sigils fuel) r.body sc₁) :=
    (Transfer.declared reg _).doBody_linked (evalExpr_declares B fuel) (fun _ _ _ => rune.toByName)
      (fun _ => rune) ⟨envs_declared sc₁.env, rfl, rfl⟩ fun _ => rfl
  obtain ⟨⟨_, sc₂⟩, s₅, body, done⟩ := bind_ok.mp body
  cases done
  have names := linked.keeps _ _ _ declared body
  split_ifs at run
  · cases run
    rw [flagPartial_params, finalizeOutputs_params]
    exact names
  · cases run

/-- The blueprint is the rune's: it has its name and the parameters it declares. -/
def Declares (r : Definition α) (b : LoweredBlueprint α) : Prop :=
  b.name = r.name ∧ b.bp.params.map BlueprintParam.name = r.params.map Param.name

theorem turns_declare {fuel : Nat} : ∀ {runes : List (Definition α)}
    {acc acc' : Lowerer α × LowerResult α},
    runes.foldlM (lowerTurn reg sigils (evalExpr reg sigils fuel)) acc = some acc' →
    ∃ accepted new, accepted.Sublist runes ∧ acc'.2.blueprints = acc.2.blueprints ++ new ∧
      List.Forall₂ Declares accepted new
  | [], acc, acc', run => by
      cases run
      exact ⟨[], [], .refl _, (List.append_nil _).symm, .nil⟩
  | r :: runes, acc, acc', run => by
      rw [List.foldlM_cons] at run
      obtain ⟨acc₁, turn, run⟩ := Option.bind_eq_some_iff.mp run
      obtain ⟨accepted, new, sub, blueprints, all⟩ := turns_declare run
      rcases (lowerTurn_eq_some _ _ _).mp turn with ⟨s, lowered, rfl⟩ | ⟨d, s, -, rfl⟩
      · refine ⟨r :: accepted, ⟨r.name, s.bp⟩ :: new, sub.cons_cons r, ?_, .cons ⟨rfl, ?_⟩ all⟩
        · rw [blueprints, List.append_assoc]
          rfl
        · exact lowerRune_declares B lowered
      · exact ⟨accepted, new, sub.cons r, blueprints, all⟩

/-- **The blueprints a program is lowered to are those of the runes accepted**, in order, each
with the parameters its rune declares. -/
theorem lower_declares {fuel : Nat} {prog : Program α} {res : LowerResult α}
    (h : lower fuel prog reg = some res) :
    ∃ accepted, accepted.Sublist prog.runes ∧ List.Forall₂ Declares accepted res.blueprints := by
  obtain ⟨acc, run, rfl⟩ := Option.map_eq_some_iff.mp h
  obtain ⟨accepted, new, sub, blueprints, all⟩ := turns_declare B run
  exact ⟨accepted, sub, blueprints ▸ all⟩

end Lang

end Xrune
