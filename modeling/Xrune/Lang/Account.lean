import Xrune.Lang.Lower

/-!
# Lang — accounts of a lowering

What a lowering does to its state is told by the names it binds to nodes, in order: every other
operation adds a node of a fresh name, or none.  Which names these are the text of the program
says (`boundNames`), whatever its values come to.

An `Account` says what a list of bound names does to the state, and that the other operations do
nothing to it; an evaluation that ends has then done what its names do (`evalExpr_emits`).
-/

namespace Xrune.Lang

open Stateful

variable {α : Type}

/-! ### The names a program binds -/

/-- `qualify`, at a naming scope. -/
def qualified (pre n : String) : String := if pre = "" then n else pre ++ "." ++ n

theorem Lowerer.qualify_eq (s : Lowerer α) (n : String) : s.qualify n = qualified s.namePrefix n :=
  rfl

/-- The names an expression binds, in the naming scope `pre` and under a preferred name. -/
abbrev Binds (α : Type) : Type := Expr α → String → String → List String

section Names

variable (reg : NodeRegistry α) (sigils : List (Definition α)) (rec : Binds α)

def argumentNames (pre : String) (args : List (Argument α)) : List String :=
  args.flatMap fun a =>
    match a.2 with
    | .string _ _  => []
    | .boolean _ _ => []
    | e            => rec e pre ""

/-- A single node has the name it is bound to; everything else opens a naming scope. -/
def valueNames (value : Expr α) (pre q : String) : List String :=
  if isSingleNode reg sigils value then rec value pre q else rec value q ""

def stmtNames (pre : String) : Stmt α → List String
  | .binding _ name value     => valueNames reg sigils rec value pre (qualified pre name)
  | .wire _ e                 => rec e pre ""
  | .modulate _ source _      => rec source pre ""
  | .explicitWire _ source _ _ => rec source pre ""
  | .input _ name args        => argumentNames rec pre args ++ [name]
  | .out _ e _ _              => rec e pre ""

def bodyNames (pre : String) (body : List (Stmt α)) : List String :=
  body.flatMap (stmtNames reg sigils rec pre)

def paramNames (pre : String) (sig : Definition α) (args : List (Argument α)) : List String :=
  sig.params.zipIdx.flatMap fun p =>
    match provided args p.2 p.1 with
    | none   => []
    | some e => rec e pre ""

def overNames (pre : String) : List (Argument α) → List String
  | [a, region] => rec a.2 pre "" ++ rec region.2 pre ""
  | _           => []

def callNames (pre preferred text : String) (args : List (Argument α)) : List String :=
  if text = "over" then overNames rec pre args
  else if text = "finer" then []
  else
    match findSigil sigils text with
    | some sig => paramNames rec pre sig args ++ bodyNames reg sigils rec pre sig.body
    | none     => argumentNames rec pre args ++ if preferred = "" then [] else [preferred]

def namesStep : Binds α := fun e pre preferred =>
  match e with
  | .number _ _         => []
  | .string _ _         => []
  | .boolean _ _        => []
  | .ident _ _          => []
  | .unary _ a          => rec a pre ""
  | .select _ a _       => rec a pre ""
  | .binary _ _ a b     => rec a pre "" ++ rec b pre ""
  | .call _ text args   => callNames reg sigils rec pre preferred text args

end Names

section Names

variable (reg : NodeRegistry α) (sigils : List (Definition α)) (rec : Binds α)

/-- The names the default of a rune parameter binds. -/
def defaultNames (pre : String) (p : Param α) : List String :=
  match p.defaultValue with
  | none   => []
  | some e => rec e pre ""

/-- The names a rune binds. -/
def runeNames (pre : String) (r : Definition α) : List String :=
  r.params.flatMap (defaultNames rec pre) ++ bodyNames reg sigils rec pre r.body

end Names

/-- The names an expression binds to nodes when it is evaluated, in order. -/
def boundNames (reg : NodeRegistry α) (sigils : List (Definition α)) : Nat → Binds α
  | 0        => fun _ _ _ => []
  | fuel + 1 => namesStep reg sigils (boundNames reg sigils fuel)

/-! ### Accounts -/

/-- What bound names do to the state, which no other operation does. -/
structure Account (reg : NodeRegistry α) where
  rel : List String → Lowerer α → Lowerer α → Prop
  refl : ∀ s, rel [] s s
  trans : ∀ {l l' s s' s''}, rel l s s' → rel l' s' s'' → rel (l ++ l') s s''
  bound : ∀ {nd} s name, rel [name] s (s.add nd name)
  fresh : ∀ {type args nd} s g, reg.make type args = some nd → g = type ∨ g ∈ ["wire", "const"] →
    rel [] s (({ s with counters := bump s.counters s.namePrefix } : Lowerer α).add nd
      (s.qualify (g ++ "#" ++ toString (bump s.counters s.namePrefix s.namePrefix))))
  connected : ∀ {bp} s src out dst inp, s.bp.connect src out dst inp = some bp →
    rel [] s { s with bp }
  driven : ∀ {bp} s src out dst param, s.bp.connectParam src out dst param = some bp →
    rel [] s { s with bp }
  bindsParam : ∀ s name t, rel [] s (s.bindParam name t)
  uses : ∀ (s : Lowerer α) uses, rel [] s { s with uses }
  declares : ∀ (s : Lowerer α) runeParams params,
    rel [] s { s with runeParams, bp := { s.bp with params } }
  entered : ∀ {l s s'} p p', rel l { s with namePrefix := p } s' →
    rel l s { s' with namePrefix := p' }

/-- The computation, from a state in the naming scope `pre`, ends in that scope and does what the
names do. -/
def Emits {reg : NodeRegistry α} (A : Account reg) {β : Type} (pre : String) (m : LowerM α β)
    (l : List String) : Prop :=
  ∀ s b s', s.namePrefix = pre → m s = (.ok b, s') → s'.namePrefix = pre ∧ A.rel l s s'

/-- Every result of the computation is as `P` says. -/
def Returns {β : Type} (m : LowerM α β) (P : β → Prop) : Prop :=
  ∀ s b s', m s = (.ok b, s') → P b

theorem Returns.bind {β γ : Type} {m : LowerM α β} {f : β → LowerM α γ} {P : γ → Prop}
    (next : ∀ b, Returns (f b) P) : Returns (m >>= f) P := by
  intro s c s' run
  obtain ⟨b, s₁, -, run⟩ := bind_ok.mp run
  exact next b s₁ c s' run

theorem Returns.bind_returns {β γ : Type} {m : LowerM α β} {f : β → LowerM α γ} {P : β → Prop}
    {Q : γ → Prop} (first : Returns m P) (next : ∀ b, P b → Returns (f b) Q) :
    Returns (m >>= f) Q := by
  intro s c s' run
  obtain ⟨b, s₁, run₁, run₂⟩ := bind_ok.mp run
  exact next b (first s b s₁ run₁) s₁ c s' run₂

theorem Returns.ite {β : Type} {p : Prop} [Decidable p] {m n : LowerM α β} {P : β → Prop}
    (pos : p → Returns m P) (neg : ¬p → Returns n P) : Returns (if p then m else n) P := by
  split_ifs with h
  · exact pos h
  · exact neg h

theorem Returns.foldlM {ι β : Type} {f : β → ι → LowerM α β} {I : β → Prop}
    (turn : ∀ b i, I b → Returns (f b i) I) :
    ∀ {is : List ι} {b : β}, I b → Returns (is.foldlM f b) I
  | [], _, h => by
      rintro _ _ _ ⟨⟩
      exact h
  | i :: is, b, h => by
      rw [List.foldlM_cons]
      exact (turn b i h).bind_returns fun b' h' => Returns.foldlM turn h'

theorem Returns.pure {β : Type} {b : β} {P : β → Prop} (h : P b) :
    Returns (pure b : LowerM α β) P := by
  rintro _ _ _ ⟨⟩
  exact h

namespace Emits

variable {reg : NodeRegistry α} {A : Account reg} {pre : String} {β γ ι : Type}
  {m : LowerM α β} {l l' : List String}

theorem pure (b : β) : Emits A pre (pure b) [] := by
  rintro s _ _ hs ⟨⟩
  exact ⟨hs, A.refl s⟩

theorem bind_of_returns {f : β → LowerM α γ} {P : β → Prop} (first : Emits A pre m l)
    (keeps : Returns m P) (next : ∀ b, P b → Emits A pre (f b) l') :
    Emits A pre (m >>= f) (l ++ l') := by
  intro s c s' hs run
  obtain ⟨b, s₁, run₁, run₂⟩ := bind_ok.mp run
  obtain ⟨h₁, r₁⟩ := first s b s₁ hs run₁
  obtain ⟨h₂, r₂⟩ := next b (keeps s b s₁ run₁) s₁ c s' h₁ run₂
  exact ⟨h₂, A.trans r₁ r₂⟩

theorem bind {f : β → LowerM α γ} (first : Emits A pre m l)
    (next : ∀ b, Emits A pre (f b) l') : Emits A pre (m >>= f) (l ++ l') := by
  exact first.bind_of_returns (P := fun _ => True) (fun _ _ _ _ => trivial) fun b _ => next b

/-- What binds no name, and then something. -/
theorem after {f : β → LowerM α γ} (first : Emits A pre m [])
    (next : ∀ b, Emits A pre (f b) l) : Emits A pre (m >>= f) l := first.bind next

/-- Something, and then what binds no name. -/
theorem ended {f : β → LowerM α γ} (first : Emits A pre m l)
    (next : ∀ b, Emits A pre (f b) []) : Emits A pre (m >>= f) l := by
  have both := first.bind next
  rwa [List.append_nil] at both

theorem halt (e : Stop Diagnostic) : Emits A pre (halt e : LowerM α β) l := nofun

theorem fail (pos : Pos) (text : String) : Emits A pre (fail pos text : LowerM α β) l := nofun

theorem ite {p : Prop} [Decidable p] {m n : LowerM α β} (pos : p → Emits A pre m l)
    (neg : ¬p → Emits A pre n l) : Emits A pre (if p then m else n) l := by
  split_ifs with h
  · exact pos h
  · exact neg h

theorem orTrap (o : Option β) {f : β → LowerM α γ} (next : ∀ b, o = some b → Emits A pre (f b) l) :
    Emits A pre (orTrap o >>= f) l := by
  cases o with
  | none => exact nofun
  | some b => exact next b rfl

theorem get {f : Lowerer α → LowerM α β} (next : ∀ s, s.namePrefix = pre → Emits A pre (f s) l) :
    Emits A pre (get >>= f) l := by
  intro s c s' hs run
  exact next s hs s c s' hs run

/-- A loop whose accumulator keeps `I`. -/
theorem foldlM {f : β → ι → LowerM α β} {L : ι → List String} {I : β → Prop} :
    ∀ {is : List ι} {b : β}, I b →
      (∀ b, I b → ∀ i ∈ is, Emits A pre (f b i) (L i) ∧ Returns (f b i) I) →
      Emits A pre (is.foldlM f b) (is.flatMap L)
  | [], b, _, _ => pure b
  | i :: is, b, h, turn => by
      obtain ⟨emits, keeps⟩ := turn b h i List.mem_cons_self
      rw [List.foldlM_cons, List.flatMap_cons]
      refine emits.bind_of_returns keeps fun b' h' => ?_
      exact foldlM h' fun b h j hj => turn b h j (List.mem_cons_of_mem i hj)

/-- A loop that binds no name. -/
theorem quietly {f : β → ι → LowerM α β} {is : List ι} {b : β}
    (turn : ∀ b i, Emits A pre (f b i) []) : Emits A pre (is.foldlM f b) [] := by
  have all : Emits A pre (is.foldlM f b) (is.flatMap fun _ => []) :=
    foldlM (I := fun _ => True) trivial fun b _ i _ => ⟨turn b i, fun _ _ _ _ => trivial⟩
  rwa [List.flatMap_eq_nil_iff.mpr fun _ _ => rfl] at all

theorem forM {f : ι → LowerM α Unit} (turn : ∀ i, Emits A pre (f i) []) :
    ∀ is : List ι, Emits A pre (is.forM f) []
  | [] => pure ()
  | i :: is => (turn i).after fun _ => forM turn is

theorem modify {f : Lowerer α → Lowerer α} (keeps : ∀ s, (f s).namePrefix = s.namePrefix)
    (does : ∀ s, A.rel l s (f s)) : Emits A pre (modify f) l := by
  rintro s _ _ hs ⟨⟩
  exact ⟨(keeps s).trans hs, does s⟩

end Emits

/-! ### Connections that were made -/

theorem orTrap_ok {β : Type} {o : Option β} {b : β} {s s' : Lowerer α}
    (run : (orTrap o : LowerM α β) s = (.ok b, s')) : o = some b ∧ s' = s := by
  cases o with
  | none => cases run
  | some c =>
      cases run
      exact ⟨rfl, rfl⟩

theorem wire_ok {out inp : Chan} {pos : Pos} {s s' : Lowerer α} {u : Unit}
    (run : wire out inp pos s = (.ok u, s')) :
    ∃ bp, s.bp.connect out.node out.ch inp.node inp.ch = some bp ∧ s' = { s with bp } := by
  obtain ⟨_, _, got, run⟩ := bind_ok.mp run
  cases got
  cases one : s.bp.connect out.node out.ch inp.node inp.ch with
  | none =>
      rw [one] at run
      cases run
  | some bp =>
      rw [one] at run
      cases run
      exact ⟨bp, rfl, rfl⟩

theorem wireTo_ok {pos : Pos} {node : String} {i : Int} {c : Chan} {s s' : Lowerer α} {u : Unit}
    (run : wireTo pos node i c s = (.ok u, s')) :
    ∃ ni bp, s.bp.findNode node = some ni ∧
      s.bp.connect c.node c.ch ni (indexSize i) = some bp ∧ s' = { s with bp } := by
  obtain ⟨_, _, got, run⟩ := bind_ok.mp run
  cases got
  cases found : s.bp.findNode node with
  | none =>
      rw [found] at run
      cases run
  | some ni =>
      rw [found] at run
      obtain ⟨bp, one, same⟩ := wire_ok run
      exact ⟨ni, bp, rfl, one, same⟩

/-- The node a port path names. -/
def PortPath.nodeName (target : PortPath) (first : String) : String :=
  String.intercalate "." (first :: (target.parts.drop 1).dropLast)

theorem modulateTo_ok {pos : Pos} {target : PortPath} {c : Chan} {s s' : Lowerer α} {u : Unit}
    (run : modulateTo pos target c s = (.ok u, s')) :
    ∃ first port ni pi bp, target.parts.head? = some first ∧ target.parts.getLast? = some port ∧
      s.bp.findNode (target.nodeName first) = some ni ∧ s.bp.findParam ni port = some pi ∧
      s.bp.connectParam c.node c.ch ni pi = some bp ∧ s' = { s with bp } := by
  obtain ⟨first, s₁, head, run₁⟩ := bind_ok.mp run
  obtain ⟨port, s₂, last, run₂⟩ := bind_ok.mp run₁
  obtain ⟨_, _, got, run⟩ := bind_ok.mp run₂
  cases got
  obtain ⟨hfirst, same₁⟩ := orTrap_ok head
  obtain ⟨hport, same₂⟩ := orTrap_ok last
  rw [same₂, same₁] at run
  have name : target.nodeName first = String.intercalate "." _ := rfl
  generalize String.intercalate "." _ = node at run name
  cases found : s.bp.findNode node with
  | none =>
      rw [found] at run
      cases run
  | some ni =>
      rw [found] at run
      dsimp only at run
      cases hpi : s.bp.findParam ni port with
      | none =>
          rw [hpi] at run
          cases run
      | some pi =>
          rw [hpi] at run
          dsimp only at run
          cases one : s.bp.connectParam c.node c.ch ni pi with
          | none =>
              rw [one] at run
              cases run
          | some bp =>
              rw [one] at run
              cases run
              exact ⟨first, port, ni, pi, bp, hfirst, hport, name ▸ found, hpi, one, rfl⟩

/-! ### What binds no name -/

section Quiet

variable {reg : NodeRegistry α} {A : Account reg} {pre : String}

theorem add_emits {type : String} {args : NodeArgs α} {nd : Node α} {g : String}
    (made : reg.make type args = some nd) (known : g = type ∨ g ∈ ["wire", "const"])
    (preferred : String) : Emits A pre (nameOf preferred g >>= add nd)
      (if preferred = "" then [] else [preferred]) := by
  rw [nameOf]
  split_ifs with none
  · rintro s _ _ hs ⟨⟩
    exact ⟨hs, A.fresh s g made known⟩
  · rintro s _ _ hs ⟨⟩
    exact ⟨hs, A.bound s preferred⟩

theorem makeNode_emits (type : String) (args : NodeArgs α) {g : String}
    (known : g = type ∨ g ∈ ["wire", "const"]) : Emits A pre (makeNode reg type args g) [] :=
  .orTrap _ fun _ made => add_emits made known ""

theorem nodeFragment_emits (i : Nat) : Emits A pre (nodeFragment i) [] :=
  .get fun _ _ => .pure _

theorem makeFragment_emits (type : String) (args : NodeArgs α) {g : String}
    (known : g = type ∨ g ∈ ["wire", "const"]) :
    Emits A pre (makeNode reg type args g >>= nodeFragment) [] :=
  (makeNode_emits type args known).after nodeFragment_emits

theorem wire_emits (out inp : Chan) (pos : Pos) : Emits A pre (wire out inp pos) [] := by
  intro s _ s' hs run
  obtain ⟨bp, one, rfl⟩ := wire_ok run
  exact ⟨hs, A.connected s _ _ _ _ one⟩

theorem bindParam_prefix (s : Lowerer α) (name : String) (t : ParamTarget) :
    (s.bindParam name t).namePrefix = s.namePrefix := by
  rw [Lowerer.bindParam]
  cases s.bp.findRuneParam name with
  | none => rfl
  | some pi => rfl

theorem bindParam_emits (name : String) (t : ParamTarget) :
    Emits A pre (modify fun s => s.bindParam name t) [] :=
  .modify (fun s => bindParam_prefix s name t) fun s => A.bindsParam s name t

theorem bindScalar_emits (e : Option (Expr α)) (g : Nat) : Emits A pre (bindScalar e g) [] := by
  refine .get fun s _ => ?_
  cases s.bindable e with
  | none => exact .pure ()
  | some text => exact bindParam_emits text ⟨g, 0⟩

theorem bindRuneParams_emits (args : List (Argument α)) (i : Nat) :
    Emits A pre (bindRuneParams args i) [] := by
  refine Emits.after (.quietly fun k a => ?_) fun _ => .pure ()
  refine Emits.after ?_ fun _ => .pure _
  unfold bindArgument
  split
  · rename_i pname _
    refine .get fun s _ => .ite (fun _ => ?_) fun _ => .pure ()
    cases s.portOf i a.1 k with
    | none => exact .pure ()
    | some port => exact bindParam_emits pname ⟨i, port⟩
  · exact .pure ()

theorem countUse_emits (text : String) : Emits A pre (countUse text) [] := by
  rintro s _ _ hs ⟨⟩
  dsimp only
  split_ifs
  · exact ⟨hs, A.uses s _⟩
  · exact ⟨hs, A.refl s⟩

theorem toFrag_emits (v : Value α) : Emits A pre (toFrag reg v) [] := by
  cases v with
  | number n => exact makeFragment_emits _ _ (.inr (by decide))
  | block f => exact .pure f

theorem block_emits {m : LowerM α Fragment} {l : List String} (h : Emits A pre m l) :
    Emits A pre (do return Value.block (← m) : LowerM α (Value α)) l :=
  h.ended fun _ => .pure _

/-! ### Arithmetic and connections -/

theorem scale_emits (f : Fragment) (k : α) (pos : Pos) (e : Option (Expr α)) :
    Emits A pre (scale reg f k pos e) [] := by
  refine Emits.after (.quietly fun outs c => ?_) fun _ => .pure _
  refine (makeNode_emits _ _ (.inl rfl)).after fun g => ?_
  refine (wire_emits _ _ _).after fun _ => (bindScalar_emits _ _).after fun _ => .pure _

theorem negate_emits (f : Fragment) (pos : Pos) : Emits A pre (negate reg f pos) [] := by
  refine Emits.after (.quietly fun outs c => ?_) fun _ => .pure _
  exact (makeNode_emits _ _ (.inl rfl)).after fun v => (wire_emits _ _ _).after fun _ => .pure _

theorem zip_emits (type : String) (a b : Fragment) (pos : Pos) :
    Emits A pre (zip reg type a b pos) [] := by
  unfold zip
  refine .ite (fun _ => .fail _ _) fun _ => ?_
  refine Emits.after (.quietly fun outs i => ?_) fun _ => .pure _
  refine (makeNode_emits _ _ (.inl rfl)).after fun op => .orTrap _ fun x _ => ?_
  refine (wire_emits _ _ _).after fun _ => .orTrap _ fun y _ => ?_
  exact (wire_emits _ _ _).after fun _ => .pure _

theorem zipWith_emits (type : String) (l : Value α) {r : LowerM α Fragment}
    (right : Emits A pre r []) (pos : Pos) : Emits A pre (zipWith reg type l r pos) [] :=
  (toFrag_emits l).after fun _ => right.after fun _ => zip_emits _ _ _ _

variable [Sample α]

theorem arithSignals_emits (pos : Pos) (op : Tok) (ea eb : Expr α) (l r : Value α) :
    Emits A pre (arithSignals reg pos op ea eb l r) [] := by
  unfold arithSignals
  split
  · exact .fail _ _
  · unfold arithStar
    split
    · exact scale_emits _ _ _ _
    · exact scale_emits _ _ _ _
    · exact zipWith_emits _ _ (toFrag_emits _) _
  · cases r with
    | number n =>
        exact .ite (fun _ => .fail _ _) fun _ =>
          (toFrag_emits l).after fun _ => scale_emits _ _ _ _
    | block f => exact zipWith_emits _ _ (.pure f) _
  · exact zipWith_emits _ _ (toFrag_emits _) _
  · cases r with
    | number n => exact zipWith_emits _ _ (makeFragment_emits _ _ (.inr (by decide))) _
    | block f => exact zipWith_emits _ _ (negate_emits _ _) _
  · exact .fail _ _

theorem arith_emits (pos : Pos) (op : Tok) (ea eb : Expr α) (l r : Value α) :
    Emits A pre (arith reg pos op ea eb l r) [] := by
  have folded (a b : α) : Emits A pre (foldNumbers pos op a b) [] := by
    unfold foldNumbers
    split
    · exact .pure _
    · exact .pure _
    · exact .pure _
    · exact .ite (fun _ => .fail _ _) fun _ => .pure _
    · exact .ite (fun _ => .fail _ _) fun _ => .pure _
    · exact .pure _
  have signals : Emits A pre (do return Value.block (← arithSignals reg pos op ea eb l r)) [] :=
    block_emits (arithSignals_emits pos op ea eb l r)
  cases l with
  | block f => exact signals
  | number a =>
      cases r with
      | number b => exact folded a b
      | block f => exact signals

omit [Sample α] in
theorem seqFragments_emits (pos : Pos) (a b : Fragment) :
    Emits A pre (seqFragments pos a b) [] :=
  .ite (fun _ => .fail _ _) fun _ =>
    (Emits.forM (fun _ => wire_emits _ _ _) _).after fun _ => .pure _

omit [Sample α] in
theorem splitFragments_emits (pos : Pos) (a b : Fragment) :
    Emits A pre (splitFragments pos a b) [] :=
  .ite (fun _ => .fail _ _) fun _ =>
    (Emits.forM (fun _ => .orTrap _ fun _ _ => wire_emits _ _ _) _).after fun _ => .pure _

theorem mergeFragments_emits (pos : Pos) (a b : Fragment) :
    Emits A pre (mergeFragments reg pos a b) [] := by
  have into (group : List Chan) (inp : Chan) : Emits A pre (mergeInto reg pos group inp) [] := by
    unfold mergeInto
    split
    · exact wire_emits _ _ _
    · refine (makeNode_emits _ _ (.inl rfl)).after fun mix => ?_
      exact (Emits.forM (fun _ => wire_emits _ _ _) _).after fun _ => wire_emits _ _ _
  exact .ite (fun _ => .fail _ _) fun _ =>
    (Emits.forM (fun _ => into _ _) _).after fun _ => .pure _

omit [Sample α] in
theorem chain_emits (type : String) (pos : Pos) :
    ∀ (stages : Nat) (c : Chan), Emits A pre (chain reg type pos stages c) []
  | 0, _ => .pure _
  | stages + 1, _ => (makeNode_emits _ _ (.inl rfl)).after fun _ =>
      (wire_emits _ _ _).after fun _ => chain_emits type pos stages _

omit [Sample α] in
theorem overRegion_emits (pos : Pos) (stages : Nat) (inp out : Chan) :
    Emits A pre (overRegion reg pos stages inp out) [] :=
  (makeNode_emits _ _ (.inl rfl)).after fun _ => (chain_emits _ _ _ _).after fun _ =>
    (wire_emits _ _ _).after fun _ => (chain_emits _ _ _ _).after fun _ => .pure _

end Quiet

/-! ### Expressions -/

/-- The evaluator binds the names `rec` says. -/
def EmitsAll {reg : NodeRegistry α} (A : Account reg) (eval : Eval α) (rec : Binds α) : Prop :=
  ∀ e env pre preferred, Emits A pre (eval e env preferred) (rec e pre preferred)

section Evaluators

variable {reg : NodeRegistry α} {A : Account reg} {eval : Eval α} {rec : Binds α}
  (ev : EmitsAll A eval rec) {pre : String} {env : Env α}

include ev

variable [Sample α]

omit [Sample α] in
theorem evalFragment_emits (e : Expr α) :
    Emits A pre (evalFragment reg eval e env) (rec e pre "") :=
  (ev e env pre "").ended toFrag_emits

omit [Sample α] in
theorem evalNumber_emits (e : Expr α) : Emits A pre (evalNumber eval e env) (rec e pre "") := by
  refine (ev e env pre "").ended fun v => ?_
  cases v with
  | number n => exact .pure n
  | block f => exact .fail _ _

omit [Sample α] in
theorem evalNodeArgs_emits (args : List (Argument α)) :
    Emits A pre (evalNodeArgs eval args env) (argumentNames rec pre args) := by
  refine .foldlM (I := fun _ => True) trivial fun na _ a _ =>
    ⟨Emits.ended ?_ fun _ => .pure _, fun _ _ _ _ => trivial⟩
  obtain ⟨name, e⟩ := a
  cases e with
  | string pos s => exact .pure _
  | boolean pos b => exact .pure _
  | number | ident | call | unary | binary | select =>
      exact (evalNumber_emits ev _).ended fun _ => .pure _

omit ev in
theorem evalIdent_emits (pos : Pos) (text : String) :
    Emits A pre (evalIdent reg pos text env) [] := by
  unfold evalIdent
  cases env text with
  | some v => exact (countUse_emits text).after fun _ => .pure v
  | none =>
      have made (type : String) (args : NodeArgs α) (g : String)
          (known : g = type ∨ g ∈ ["wire", "const"]) : Emits A pre
            (do return Value.block (← nodeFragment (← makeNode reg type args g))) [] :=
        (makeNode_emits type args known).after fun i => block_emits (nodeFragment_emits i)
      refine .ite (fun _ => ?_) fun _ => .ite (fun _ => ?_) fun _ => .ite (fun _ => ?_) fun _ =>
        .fail _ _
      · exact made "adapt" oneOne "wire" (.inr (by decide))
      · exact made "cut" {} "cut" (.inl rfl)
      · exact made text {} text (.inl rfl)

omit [Sample α] in
theorem evalSelect_emits (pos : Pos) (a : Expr α) (index : Int) :
    Emits A pre (evalSelect reg eval pos a index env) (rec a pre "") := by
  refine (evalFragment_emits ev a).ended fun f => ?_
  cases f.outs[indexSize index]? with
  | none => exact .fail _ _
  | some c => exact .pure _

theorem evalUnary_emits (pos : Pos) (a : Expr α) :
    Emits A pre (evalUnary reg eval pos a env) (rec a pre "") := by
  refine (ev a env pre "").ended fun v => ?_
  cases v with
  | number n => exact .pure _
  | block f => exact block_emits (negate_emits f pos)

omit [Sample α] in
theorem evalJoin_emits (a b : Expr α) {join : Fragment → Fragment → LowerM α Fragment}
    (quiet : ∀ f g, Emits A pre (join f g) []) :
    Emits A pre (evalJoin reg eval a b env join) (rec a pre "" ++ rec b pre "") :=
  (evalFragment_emits ev a).bind fun f => (evalFragment_emits ev b).ended fun g =>
    block_emits (quiet f g)

theorem evalBinary_emits (pos : Pos) (op : Tok) (a b : Expr α) :
    Emits A pre (evalBinary reg eval pos op a b env) (rec a pre "" ++ rec b pre "") := by
  have arith (op : Tok) :
      Emits A pre (evalArith reg eval pos op a b env) (rec a pre "" ++ rec b pre "") :=
    (ev a env pre "").bind fun l => (ev b env pre "").ended fun r => arith_emits pos op a b l r
  unfold evalBinary
  split
  · exact arith _
  · exact arith _
  · exact arith _
  · exact arith _
  · exact arith _
  · exact evalJoin_emits ev a b fun f g => seqFragments_emits pos f g
  · exact evalJoin_emits ev a b fun f g => .pure _
  · exact evalJoin_emits ev a b fun f g => splitFragments_emits pos f g
  · exact evalJoin_emits ev a b fun f g => mergeFragments_emits pos f g
  · exact .fail _ _

theorem evalOver_emits (pos : Pos) (args : List (Argument α)) :
    Emits A pre (evalOver reg eval pos args env) (overNames rec pre args) := by
  unfold evalOver
  split
  · rename_i a region
    refine (evalNumber_emits ev a.2).bind fun n => .ite (fun _ => .fail _ _) fun _ => ?_
    refine (evalFragment_emits ev region.2).ended fun f => .ite (fun _ => .pure _) fun _ => ?_
    split
    · exact block_emits (overRegion_emits pos _ _ _)
    · exact .fail _ _
  · exact .fail _ _

omit [Sample α] in
theorem evalNode_emits (pos : Pos) (text : String) (args : List (Argument α))
    (preferred : String) : Emits A pre (evalNode reg eval pos text args env preferred)
      (argumentNames rec pre args ++ if preferred = "" then [] else [preferred]) := by
  refine (evalNodeArgs_emits ev args).bind fun na => ?_
  cases made : reg.make text na with
  | none => exact .fail _ _
  | some nd =>
      dsimp only
      rw [← bind_assoc]
      refine (add_emits made (.inl rfl) preferred).ended fun i => ?_
      exact (bindRuneParams_emits args i).after fun _ => block_emits (nodeFragment_emits i)

/-! ### Statements -/

variable {sigils : List (Definition α)} {sc : Scope α}

omit ev [Sample α] in
theorem withPrefix_emits {q : String} {β : Type} {m : LowerM α β} {l : List String}
    (h : Emits A q m l) : Emits A pre (withPrefix q m) l := by
  refine .get fun s₀ hs₀ => ?_
  intro s v s' hs run
  obtain ⟨_, s₁, entered, run⟩ := bind_ok.mp run
  cases entered
  obtain ⟨_, s₂, inside, run⟩ := bind_ok.mp run
  obtain ⟨_, s₃, left, run⟩ := bind_ok.mp run
  cases left
  cases run
  exact ⟨hs₀, A.entered _ _ (h _ _ _ rfl inside).2⟩

omit [Sample α] in
theorem doBinding_emits (pos : Pos) (name : String) (value : Expr α) :
    Emits A pre (doBinding reg sigils eval pos name value sc)
      (valueNames reg sigils rec value pre (qualified pre name)) := by
  refine .ite (fun _ => .fail _ _) fun _ => .get fun s hs => Emits.ended ?_ fun _ => .pure _
  rw [Lowerer.qualify_eq, hs, evalBound, valueNames]
  split_ifs
  · exact ev value sc.env pre _
  · exact withPrefix_emits (ev value sc.env _ "")

omit ev [Sample α] in
theorem modulateTo_emits (pos : Pos) (target : PortPath) (c : Chan) :
    Emits A pre (modulateTo pos target c) [] := by
  intro s _ s' hs run
  obtain ⟨_, _, _, _, _, _, _, _, _, one, rfl⟩ := modulateTo_ok run
  exact ⟨hs, A.driven s _ _ _ _ one⟩

omit [Sample α] in
theorem doModulate_emits (pos : Pos) (source : Expr α) (target : PortPath) :
    Emits A pre (doModulate reg eval pos source target env) (rec source pre "") := by
  refine (evalFragment_emits ev source).ended fun f => ?_
  obtain ⟨ins, outs⟩ := f
  rcases outs with _ | ⟨c, _ | ⟨d, cs⟩⟩
  · exact .fail _ _
  · exact modulateTo_emits pos target c
  · exact .fail _ _

omit ev [Sample α] in
theorem wireTo_emits (pos : Pos) (node : String) (i : Int) (c : Chan) :
    Emits A pre (wireTo pos node i c) [] := by
  refine .get fun s _ => ?_
  split
  · exact .fail _ _
  · exact wire_emits _ _ _

omit [Sample α] in
theorem doExplicit_emits (pos : Pos) (source : Expr α) (node : String) (i : Int) :
    Emits A pre (doExplicit reg eval pos source node i env) (rec source pre "") := by
  refine (evalFragment_emits ev source).ended fun f => ?_
  obtain ⟨ins, outs⟩ := f
  rcases outs with _ | ⟨c, _ | ⟨d, cs⟩⟩
  · exact .fail _ _
  · exact wireTo_emits pos node i c
  · exact .fail _ _

end Evaluators

/-- What only the body of a rune does, apart from its outputs. -/
def Account.Inputs {reg : NodeRegistry α} (A : Account reg) : Prop :=
  ∀ s name idx, A.rel [] s { s with bp := s.bp.addInputTerminal name idx }

/-- The outputs of a rune are none of the account's business. -/
def Account.Outputs {reg : NodeRegistry α} (A : Account reg) : Prop :=
  ∀ (s : Lowerer α) outTerminals outOrder, A.rel [] s { s with outTerminals, outOrder }

def Stmt.IsOut : Stmt α → Prop
  | .out _ _ _ _ => True
  | _            => False

section Statements

variable [Sample α] {reg : NodeRegistry α} {A : Account reg} {eval : Eval α} {rec : Binds α}
  (ev : EmitsAll A eval rec) {pre : String} {sigils : List (Definition α)} {sc : Scope α}

include ev

omit [Sample α] in
theorem doInput_emits (inputs : A.Inputs) (pos : Pos) (name : String) (args : List (Argument α)) :
    Emits A pre (doInput reg eval pos name args sc) (argumentNames rec pre args ++ [name]) := by
  refine .ite (fun _ => .fail _ _) fun _ => (evalNodeArgs_emits ev args).bind fun na => ?_
  refine .orTrap _ fun nd _ => Emits.ended (l := [name]) ?_ fun i => ?_
  · rintro s _ _ hs ⟨⟩
    exact ⟨hs, A.bound s name⟩
  · refine Emits.after (.modify (fun _ => rfl) fun s => inputs s name i) fun _ => ?_
    exact (nodeFragment_emits i).after fun _ => .pure _

omit [Sample α] in
theorem doOut_emits (outputs : A.Outputs) (pos : Pos) (e : Expr α) (terminal : String) (k : Int) :
    Emits A pre (doOut reg eval pos e terminal k sc) (rec e pre "") := by
  refine (evalFragment_emits ev e).ended fun f => ?_
  refine .ite (fun _ => .fail _ _) fun _ => .ite (fun _ => .fail _ _) fun _ => ?_
  have opens (name : String) : Emits A pre (openTerminal name) [] := by
    rintro s _ _ hs ⟨⟩
    dsimp only
    split_ifs
    · exact ⟨hs, A.refl s⟩
    · exact ⟨hs, outputs s _ _⟩
  refine (opens _).after fun _ => Emits.after (.forM (fun c => ?_) _) fun _ => .pure _
  · refine .get fun s _ => .ite (fun _ => .fail _ _) fun _ => ?_
    exact .modify (fun _ => rfl) fun s => outputs s _ s.outOrder

/-- A statement of a rune may be an input or an output; a sigil has neither. -/
theorem doStmt_emits {s : Stmt α} (inputs : sc.haveOut.isSome → A.Inputs)
    (outputs : sc.haveOut.isSome → s.IsOut → A.Outputs) : Emits A pre (doStmt reg sigils eval s sc) (stmtNames reg sigils rec pre s) := by
  cases s with
  | binding pos name value => exact (doBinding_emits ev pos name value).ended fun _ => .pure _
  | wire pos e => exact (ev e sc.env pre "").ended fun _ => .pure _
  | modulate pos source target => exact (doModulate_emits ev pos source target).ended fun _ => .pure _
  | explicitWire pos source node i =>
      exact (doExplicit_emits ev pos source node i).ended fun _ => .pure _
  | input pos name args =>
      refine .ite (fun _ => .fail _ _) fun some => ?_
      have rune : sc.haveOut.isSome := by simpa [Option.isSome_iff_ne_none] using some
      exact (doInput_emits ev (inputs rune) pos name args).ended fun _ => .pure _
  | out pos e terminal k =>
      refine .ite (fun _ => .fail _ _) fun some => ?_
      have rune : sc.haveOut.isSome := by simpa [Option.isSome_iff_ne_none] using some
      exact (doOut_emits ev (outputs rune trivial) pos e terminal k).ended fun _ => .pure _

/-! ### Bodies -/

omit ev in
/-- A statement of a sigil leaves it a sigil. -/
theorem doStmt_sigil (closed : sc.haveOut = none) (st : Stmt α) :
    Returns (doStmt reg sigils eval st sc) fun r => r.2.haveOut = none := by
  cases st with
  | binding pos name value =>
      refine .bind_returns (P := fun sc' => sc'.haveOut = none) ?_ fun sc' h => .pure h
      refine .ite (fun _ => nofun) fun _ => .bind fun s => .bind fun v => .pure closed
  | wire pos e => exact .bind fun _ => .pure closed
  | modulate pos source target => exact .bind fun _ => .pure closed
  | explicitWire pos source node i => exact .bind fun _ => .pure closed
  | input pos name args =>
      unfold doStmt
      dsimp only
      rw [closed]
      exact nofun
  | out pos e terminal k =>
      unfold doStmt
      dsimp only
      rw [closed]
      exact nofun

/-- The body of a sigil. -/
theorem doBody_emits (closed : sc.haveOut = none) (body : List (Stmt α)) :
    Emits A pre (doBody reg sigils eval body sc) (bodyNames reg sigils rec pre body) := by
  refine .foldlM (I := fun r : Value α × Scope α => r.2.haveOut = none) closed
    fun r closed st _ => ⟨?_, doStmt_sigil closed st⟩
  exact doStmt_emits ev (by simp [closed]) (by simp [closed])

/-- The body of a rune. -/
theorem doBody_emits_of_rune (inputs : A.Inputs) (outputs : A.Outputs) (body : List (Stmt α)) :
    Emits A pre (doBody reg sigils eval body sc) (bodyNames reg sigils rec pre body) :=
  .foldlM (I := fun _ => True) trivial fun _ _ _ _ =>
    ⟨doStmt_emits ev (fun _ => inputs) fun _ _ => outputs, fun _ _ _ _ => trivial⟩

/-! ### The evaluator -/

theorem evalSigil_emits (pos : Pos) (sig : Definition α) (args : List (Argument α))
    (env : Env α) : Emits A pre (evalSigil reg sigils eval pos sig args env)
      (paramNames rec pre sig args ++ bodyNames reg sigils rec pre sig.body) := by
  have params : Emits A pre (bindParams eval pos sig args env) (paramNames rec pre sig args) := by
    refine .foldlM (I := fun _ => True) trivial fun sc _ p _ => ⟨?_, fun _ _ _ _ => trivial⟩
    cases provided args p.2 p.1 with
    | none => exact .fail _ _
    | some e => exact (ev e env pre "").ended fun _ => .pure _
  have closed : Returns (bindParams eval pos sig args env) fun sc => sc.haveOut = none := by
    refine .foldlM (fun sc p closed => ?_) rfl
    cases provided args p.2 p.1 with
    | none => exact nofun
    | some e => exact .bind fun v => .pure closed
  refine params.bind_of_returns closed fun sc closed => ?_
  exact (doBody_emits ev closed sig.body).ended fun r => .ite (fun _ => .pure r.1) fun _ => .fail _ _

theorem evalCall_emits (pos : Pos) (text : String) (args : List (Argument α)) (env : Env α)
    (preferred : String) : Emits A pre (evalCall reg sigils eval pos text args env preferred)
      (callNames reg sigils rec pre preferred text args) := by
  rw [callNames]
  by_cases region : text = "over"
  · subst region
    exact evalOver_emits ev pos args
  by_cases finer : text = "finer"
  · subst finer
    exact .fail _ _
  rw [evalCall, if_neg region, if_neg region, if_neg finer, if_neg finer]
  cases findSigil sigils text with
  | some sig => exact evalSigil_emits ev pos sig args env
  | none => exact .ite (fun _ => evalNode_emits ev pos text args preferred) fun _ => .fail _ _

/-! ### Runes -/

omit [Sample α] in
theorem bindRuneParam_emits (sc : Scope α) (p : Param α) :
    Emits A pre (bindRuneParam eval sc p) (defaultNames rec pre p) := by
  unfold bindRuneParam defaultNames
  cases p.defaultValue with
  | none => exact .fail _ _
  | some e =>
      refine (evalNumber_emits ev e).ended fun dv => Emits.after ?_ fun _ => .pure _
      exact .modify (fun _ => rfl) fun s => A.declares s _ _

omit [Sample α] in
theorem bindRuneParams_of_rune_emits (params : List (Param α)) (sc : Scope α) :
    Emits A pre (params.foldlM (bindRuneParam eval) sc) (params.flatMap (defaultNames rec pre)) :=
  .foldlM (I := fun _ => True) trivial fun sc _ p _ =>
    ⟨bindRuneParam_emits ev sc p, fun _ _ _ _ => trivial⟩

theorem runeBody_emits (inputs : A.Inputs) (outputs : A.Outputs) (r : Definition α) :
    Emits A pre (runeBody reg sigils eval r) (runeNames reg sigils rec pre r) := by
  refine (bindRuneParams_of_rune_emits ev r.params _).bind fun sc => ?_
  exact (doBody_emits_of_rune ev inputs outputs r.body).ended fun _ => .pure _

/-! ### The turn -/

/-- One turn of evaluation. -/
theorem evalStep_emits : EmitsAll A (evalStep reg sigils eval) (namesStep reg sigils rec) := by
  intro e env pre preferred
  cases e with
  | number pos n => exact .pure _
  | string pos s => exact .fail _ _
  | boolean pos b => exact .fail _ _
  | ident pos text => exact evalIdent_emits pos text
  | unary pos a => exact evalUnary_emits ev pos a
  | select pos a index => exact evalSelect_emits ev pos a index
  | binary pos op a b => exact evalBinary_emits ev pos op a b
  | call pos text args => exact evalCall_emits ev pos text args env preferred

end Statements

variable [Sample α] {reg : NodeRegistry α}

/-- **An evaluation that ends has done what its bound names do**, and nothing else. -/
theorem evalExpr_emits (A : Account reg) (sigils : List (Definition α)) :
    ∀ fuel, EmitsAll A (evalExpr reg sigils fuel) (boundNames reg sigils fuel)
  | 0        => fun _ _ _ _ => .halt _
  | fuel + 1 => evalStep_emits (evalExpr_emits A sigils fuel)

end Xrune.Lang
