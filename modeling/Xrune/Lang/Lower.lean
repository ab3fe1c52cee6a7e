import Xrune.Core.Blueprint
import Xrune.Lang.Registry
import Xrune.Lang.Ast
import Xrune.Support.Stateful

/-!
# Lang — lowering

Semantic analysis: a rune becomes a blueprint.  An expression is worth a compile-time number or a
fragment, a sub-graph with open input ports and output channels.  Sigils and rune parameters
expand at compile time.

`eval_expr` calls itself through every other function.  Here each of them takes the evaluator it
calls, `evalStep` ties one turn of the knot, and `evalExpr` turns it as often as its fuel allows.
An error aborts the rune with its diagnostic and leaves the lowerer as it stands; reading a
channel or a node that does not exist is undefined behaviour.
-/

namespace Xrune.Lang

open Stateful

/-- An output channel or an input port of a node. -/
structure Chan where
  node : Nat
  ch : Nat
  deriving DecidableEq, Repr

/-- A block: its open input ports and its output channels, in order. -/
structure Fragment where
  ins : List Chan
  outs : List Chan
  deriving DecidableEq, Repr

inductive Value (α : Type) where
  | number (n : α)
  | block (f : Fragment)

/-- `env_t`. -/
abbrev Env (α : Type) : Type := String → Option (Value α)

def Env.set {α : Type} (env : Env α) (name : String) (v : Value α) : Env α :=
  fun n => if n = name then some v else env n

/-- `out_acc`: the sources of a terminal's channels. -/
structure OutAcc where
  byIndex : List (Nat × Chan) := []

def OutAcc.find (acc : OutAcc) (idx : Nat) : Option Chan :=
  (acc.byIndex.find? fun kv => kv.1 == idx).map Prod.snd

/-- What the lowerer keeps while it works on a rune.  `namePrefix` is `prefix`. -/
structure Lowerer (α : Type) where
  bp : GraphBlueprint α := {}
  namePrefix : String := ""
  counters : String → Nat := fun _ => 0
  runeParams : List String := []
  uses : String → Nat := fun _ => 0
  directUses : String → Nat := fun _ => 0
  outTerminals : String → Option OutAcc := fun _ => none
  outOrder : List String := []

abbrev LowerM (α β : Type) : Type := Stateful (Lowerer α) Diagnostic β

/-- `++m[key]`. -/
def bump (m : String → Nat) (key : String) : String → Nat :=
  fun k => if k = key then m k + 1 else m k

/-- The evaluator the functions below call for a sub-expression; the string is `preferred`. -/
abbrev Eval (α : Type) : Type := Expr α → Env α → String → LowerM α (Value α)

section Nodes

variable {α : Type}

def fail {β : Type} (pos : Pos) (m : String) : LowerM α β := abort ⟨m, pos⟩

/-- `qualify`. -/
def Lowerer.qualify (s : Lowerer α) (n : String) : String :=
  if s.namePrefix = "" then n else s.namePrefix ++ "." ++ n

/-- A fresh name for a node of the type. -/
def gen (type : String) : LowerM α String := do
  modify fun s => { s with counters := bump s.counters s.namePrefix }
  let s ← get
  return s.qualify (type ++ "#" ++ toString (s.counters s.namePrefix))

def Lowerer.add (s : Lowerer α) (nd : Node α) (name : String) : Lowerer α :=
  { s with bp := { s.bp with nodes := s.bp.nodes ++ [nd], names := s.bp.names ++ [name] } }

def add (nd : Node α) (name : String) : LowerM α Nat := do
  let s ← get
  modify fun s => s.add nd name
  return s.bp.size

/-- Every port and every channel of a node. -/
def nodeFragment (idx : Nat) : LowerM α Fragment := do
  let s ← get
  return ⟨(List.range (s.bp.inputsOf idx)).map (Chan.mk idx),
    (List.range (s.bp.outputsOf idx)).map (Chan.mk idx)⟩

def wire (out inp : Chan) (pos : Pos) : LowerM α Unit := do
  let s ← get
  match s.bp.connect out.node out.ch inp.node inp.ch with
  | some bp => modify fun s => { s with bp }
  | none    => fail pos "connection rejected: input already driven or channel out of range"

/-- The preferred name, or a fresh one. -/
def nameOf (preferred type : String) : LowerM α String :=
  if preferred = "" then gen type else pure preferred

/-- `add(reg.make(type, args), gen(name))`; the pointer is not checked. -/
def makeNode (reg : NodeRegistry α) (type : String) (args : NodeArgs α) (name : String) :
    LowerM α Nat := do
  let nd ← orTrap (reg.make type args)
  let nm ← nameOf "" name
  add nd nm

variable [Sample α] (reg : NodeRegistry α)

def named (k : String) (v : α) : NodeArgs α where
  named := [(k, .number v)]

def oneOne : NodeArgs α where
  named := [("inputs", .number 1), ("outputs", .number 1)]

def makeWire : LowerM α Nat := makeNode reg "adapt" oneOne "wire"
def makeCut : LowerM α Nat := makeNode reg "cut" {} "cut"
def makeConst (v : α) : LowerM α Nat := makeNode reg "constant" (named "value" v) "const"
def makeGain (v : α) : LowerM α Nat := makeNode reg "gain" (named "gain" v) "gain"
def makeOp (type : String) : LowerM α Nat := makeNode reg type {} type

/-! ### Rune parameters -/

/-- `targets.push_back(t)` of the rune parameter, and `++direct_uses`. -/
def Lowerer.bindParam (s : Lowerer α) (name : String) (t : ParamTarget) : Lowerer α :=
  match s.bp.findRuneParam name with
  | none    => s
  | some pi =>
      { s with
        bp := { s.bp with
          params := s.bp.params.modify pi fun p => { p with targets := p.targets ++ [t] } }
        directUses := bump s.directUses name }

/-- The rune parameter a scale factor is, if it is exactly one. -/
def Lowerer.bindable (s : Lowerer α) : Option (Expr α) → Option String
  | some (.ident _ text) =>
      if s.runeParams.contains text && (s.bp.findRuneParam text).isSome then some text else none
  | _                    => none

/-- A scale factor that is exactly a rune parameter is bound to the gain `g`. -/
def bindScalar (scalar : Option (Expr α)) (g : Nat) : LowerM α Unit := do
  let s ← get
  match s.bindable scalar with
  | some text => modify fun s => s.bindParam text ⟨g, 0⟩
  | none      => return ()

/-- The port an argument feeds: the named one, or that of the position where positions are
ports. -/
def Lowerer.portOf (s : Lowerer α) (idx : Nat) (name : String) (pos : Nat) : Option Nat :=
  if name ≠ "" then s.bp.findParam idx name
  else if (s.bp.nodes[idx]?.map Node.configArgs) = some [] ∧ pos < s.bp.paramsOf idx then some pos
  else none

/-- The turn of `bind_rune_params` for an argument; `pos` positional ones stood before it. -/
def bindArgument (idx pos : Nat) (a : Argument α) : LowerM α Unit := do
  match a.2 with
  | .ident _ pname => do
      let s ← get
      if (s.bp.findRuneParam pname).isSome then
        match s.portOf idx a.1 pos with
        | some port => modify fun s => s.bindParam pname ⟨idx, port⟩
        | none      => return ()
  | _ => return ()

/-- `bind_rune_params`. -/
def bindRuneParams (args : List (Argument α)) (idx : Nat) : LowerM α Unit := do
  let _ ← args.foldlM (fun (pos : Nat) (a : Argument α) => do
    bindArgument idx pos a
    return if a.1 = "" then pos + 1 else pos) 0

/-! ### Signal arithmetic -/

/-- `sig * k`: one `gain(k)` for each channel. -/
def scale (a : Fragment) (k : α) (pos : Pos) (scalar : Option (Expr α)) : LowerM α Fragment := do
  let outs ← a.outs.foldlM (fun (outs : List Chan) c => do
    let g ← makeGain reg k
    wire c ⟨g, 0⟩ pos
    bindScalar scalar g
    return outs ++ [⟨g, 0⟩]) []
  return ⟨a.ins, outs⟩

/-- Element-wise over the channels, broadcasting a mono operand. -/
def zip (type : String) (a b : Fragment) (pos : Pos) : LowerM α Fragment := do
  let na := a.outs.length
  let nb := b.outs.length
  if na ≠ nb ∧ na ≠ 1 ∧ nb ≠ 1 then
    fail pos ("arithmetic arity: cannot combine " ++ toString na ++ " and " ++ toString nb
      ++ " channels")
  else do
    let outs ← (List.range (if nb < na then na else nb)).foldlM (fun (outs : List Chan) i => do
      let op ← makeOp reg type
      let x ← orTrap a.outs[if na = 1 then 0 else i]?
      wire x ⟨op, 0⟩ pos
      let y ← orTrap b.outs[if nb = 1 then 0 else i]?
      wire y ⟨op, 1⟩ pos
      return outs ++ [⟨op, 0⟩]) []
    return ⟨a.ins ++ b.ins, outs⟩

/-- `-sig`: one `inv` for each channel. -/
def negate (a : Fragment) (pos : Pos) : LowerM α Fragment := do
  let outs ← a.outs.foldlM (fun (outs : List Chan) c => do
    let v ← makeOp reg "inv"
    wire c ⟨v, 0⟩ pos
    return outs ++ [⟨v, 0⟩]) []
  return ⟨a.ins, outs⟩

/-- `to_frag`: a number becomes a constant signal. -/
def toFrag : Value α → LowerM α Fragment
  | .number n => do nodeFragment (← makeConst reg n)
  | .block f  => return f

/-- Two numbers fold. -/
def foldNumbers (pos : Pos) (op : Tok) (a b : α) : LowerM α (Value α) :=
  match op with
  | .plus    => return .number (a + b)
  | .minus   => return .number (a - b)
  | .star    => return .number (a * b)
  | .slash   => if Sample.same b 0 then fail pos "division by zero" else return .number (a / b)
  | .percent =>
      if Sample.same b 0 then fail pos "modulo by zero" else return .number (Sample.fmod a b)
  | _        => return .number 0

/-- `zip` of a value in signal position and a signal made after it. -/
def zipWith (type : String) (l : Value α) (r : LowerM α Fragment) (pos : Pos) :
    LowerM α Fragment := do
  let a ← toFrag reg l
  let b ← r
  zip reg type a b pos

/-- `sig * num` and `num * sig` scale, with the factor's own expression beside it. -/
def arithStar (pos : Pos) (ea eb : Expr α) : Value α → Value α → LowerM α Fragment
  | .block l, .number n => scale reg l n pos (some eb)
  | .number n, .block r => scale reg r n pos (some ea)
  | l, r                => zipWith reg "mul" l (toFrag reg r) pos

/-- `sig / num` scales by the reciprocal. -/
def arithSlash (pos : Pos) (l : Value α) : Value α → LowerM α Fragment
  | .number n => do
      if Sample.same n 0 then fail pos "division by zero"
      else scale reg (← toFrag reg l) (1 / n) pos none
  | .block r  => zipWith reg "div" l (pure r) pos

/-- `-value`, as a signal. -/
def negated (pos : Pos) : Value α → LowerM α Fragment
  | .number n => do nodeFragment (← makeConst reg (-n))
  | .block f  => negate reg f pos

/-- One side is a signal at least.  `a - b` is `a + (-b)`. -/
def arithSignals (pos : Pos) (op : Tok) (ea eb : Expr α) (l r : Value α) : LowerM α Fragment :=
  match op with
  | .percent => fail pos "'%' is compile-time only; it does not apply to signals"
  | .star    => arithStar reg pos ea eb l r
  | .slash   => arithSlash reg pos l r
  | .plus    => zipWith reg "add" l (toFrag reg r) pos
  | .minus   => zipWith reg "add" l (negated reg pos r) pos
  | _        => fail pos "unsupported operator"

/-- `eval_arith` at its operands' values. -/
def arith (pos : Pos) (op : Tok) (ea eb : Expr α) (l r : Value α) : LowerM α (Value α) :=
  match l, r with
  | .number a, .number b => foldNumbers pos op a b
  | l, r                 => do return .block (← arithSignals reg pos op ea eb l r)

/-! ### The connection algebra -/

def seqFragments (pos : Pos) (a b : Fragment) : LowerM α Fragment := do
  if a.outs.length ≠ b.ins.length then
    fail pos ("':' arity: left produces " ++ toString a.outs.length
      ++ " outputs but right takes " ++ toString b.ins.length ++ " inputs")
  else do
    (a.outs.zip b.ins).forM fun p => wire p.1 p.2 pos
    return ⟨a.ins, b.outs⟩

def parFragments (a b : Fragment) : Fragment := ⟨a.ins ++ b.ins, a.outs ++ b.outs⟩

def splitFragments (pos : Pos) (a b : Fragment) : LowerM α Fragment := do
  let n := a.outs.length
  let m := b.ins.length
  if n = 0 ∨ m % n ≠ 0 then
    fail pos ("'<:' arity: right inputs (" ++ toString m
      ++ ") must be a multiple of left outputs (" ++ toString n ++ ")")
  else do
    (b.ins.zipIdx).forM fun p => do
      let x ← orTrap a.outs[p.2 % n]?
      wire x p.1 pos
    return ⟨a.ins, b.outs⟩

/-- The channels `i`, `i + m`, `i + 2 * m`, … -/
def mergeGroup (outs : List Chan) (m i : Nat) : List Chan :=
  (outs.zipIdx.filter fun p => p.2 % m == i).map Prod.fst

/-- A group of several channels, or of none, is mixed. -/
def mixInto (pos : Pos) (group : List Chan) (inp : Chan) : LowerM α Unit := do
  let mix ← makeNode reg "mix" (named "inputs" (Sample.cast group.length)) "mix"
  (group.zipIdx).forM fun g => wire g.1 ⟨mix, g.2⟩ pos
  wire ⟨mix, 0⟩ inp pos

def mergeInto (pos : Pos) (group : List Chan) (inp : Chan) : LowerM α Unit :=
  match group with
  | [x]   => wire x inp pos
  | group => mixInto reg pos group inp

def mergeFragments (pos : Pos) (a b : Fragment) : LowerM α Fragment := do
  let n := a.outs.length
  let m := b.ins.length
  if m = 0 ∨ n % m ≠ 0 then
    fail pos ("':>' arity: left outputs (" ++ toString n
      ++ ") must be a multiple of right inputs (" ++ toString m ++ ")")
  else do
    (b.ins.zipIdx).forM fun p => mergeInto reg pos (mergeGroup a.outs m p.2) p.1
    return ⟨a.ins, b.outs⟩

/-! ### Expressions -/

variable (sigils : List (Definition α)) (eval : Eval α)

/-- `sigils`: the last definition of a name counts. -/
def findSigil (name : String) : Option (Definition α) :=
  sigils.reverse.find? fun d => d.name == name

/-- A number used where a signal is expected becomes a constant. -/
def evalFragment (e : Expr α) (env : Env α) : LowerM α Fragment := do
  toFrag reg (← eval e env "")

def Expr.pos : Expr α → Pos
  | .number p _ | .string p _ | .boolean p _ | .ident p _ | .call p _ _ | .unary p _
  | .binary p _ _ _ | .select p _ _ => p

def evalNumber (e : Expr α) (env : Env α) : LowerM α α := do
  match ← eval e env "" with
  | .number n => return n
  | .block _  => fail e.pos "expected a number here, got a signal"

def evalArgument (e : Expr α) (env : Env α) : LowerM α (ArgValue α) :=
  match e with
  | .string _ s  => return .string s
  | .boolean _ b => return .boolean b
  | e            => do return .number (← evalNumber eval e env)

def evalNodeArgs (args : List (Argument α)) (env : Env α) : LowerM α (NodeArgs α) :=
  args.foldlM (fun (na : NodeArgs α) (a : Argument α) => do
    let av ← evalArgument eval a.2 env
    return if a.1 = "" then { na with positional := na.positional ++ [av] }
      else { na with named := na.named ++ [(a.1, av)] }) {}

/-- `if (rune_params.count(text)) ++uses[text]`. -/
def countUse (text : String) : LowerM α Unit :=
  modify fun s => if s.runeParams.contains text then { s with uses := bump s.uses text } else s

/-- `eval_expr` at a name: a binding, `_`, `!`, or a node type with its defaults. -/
def evalIdent (pos : Pos) (text : String) (env : Env α) : LowerM α (Value α) := do
  match env text with
  | some v => do
      countUse text
      return v
  | none =>
      if text = "_" then return .block (← nodeFragment (← makeWire reg))
      else if text = "!" then return .block (← nodeFragment (← makeCut reg))
      else if reg.has text then return .block (← nodeFragment (← makeNode reg text {} text))
      else fail pos ("unknown name '" ++ text ++ "'")

/-- `size_t(e.index)`. -/
def indexSize (i : Int) : Nat := (i % 2 ^ 64).toNat

def evalSelect (pos : Pos) (a : Expr α) (index : Int) (env : Env α) : LowerM α (Value α) := do
  let f ← evalFragment reg eval a env
  match f.outs[indexSize index]? with
  | none   => fail pos ("channel [" ++ toString index ++ "] out of range (fragment has "
      ++ toString f.outs.length ++ " outputs)")
  | some c => return .block ⟨f.ins, [c]⟩

def evalUnary (pos : Pos) (a : Expr α) (env : Env α) : LowerM α (Value α) := do
  match ← eval a env "" with
  | .number n => return .number (-n)
  | .block f  => return .block (← negate reg f pos)

def evalArith (pos : Pos) (op : Tok) (a b : Expr α) (env : Env α) : LowerM α (Value α) := do
  let l ← eval a env ""
  let r ← eval b env ""
  arith reg pos op a b l r

/-- The two sides of a connection operator, joined. -/
def evalJoin (a b : Expr α) (env : Env α) (join : Fragment → Fragment → LowerM α Fragment) :
    LowerM α (Value α) := do
  let a ← evalFragment reg eval a env
  let b ← evalFragment reg eval b env
  return .block (← join a b)

def evalBinary (pos : Pos) (op : Tok) (a b : Expr α) (env : Env α) : LowerM α (Value α) :=
  match op with
  | .plus | .minus | .star | .slash | .percent => evalArith reg eval pos op a b env
  | .colon => evalJoin reg eval a b env (seqFragments pos)
  | .comma => evalJoin reg eval a b env fun a b => return parFragments a b
  | .split => evalJoin reg eval a b env (splitFragments pos)
  | .merge => evalJoin reg eval a b env (mergeFragments reg pos)
  | _      => fail pos "unsupported operator"

/-- `int(llround(nv))`. -/
def factorOf (nv : α) : Int := (Sample.llround nv).bmod (2 ^ 32)

/-- `stages` nodes of a type in a row after `cur`. -/
def chain (type : String) (pos : Pos) : Nat → Chan → LowerM α Chan
  | 0, cur          => return cur
  | stages + 1, cur => do
      let nd ← makeNode reg type {} type
      wire cur ⟨nd, 0⟩ pos
      chain type pos stages ⟨nd, 0⟩

/-- The region between `stages` upsamplers and as many downsamplers; there is one at least. -/
def overRegion (pos : Pos) (stages : Nat) (inp out : Chan) : LowerM α Fragment := do
  let up ← makeNode reg "up2" {} "up2"
  let cur ← chain reg "up2" pos (stages - 1) ⟨up, 0⟩
  wire cur inp pos
  let cur ← chain reg "down2" pos stages out
  return ⟨[⟨up, 0⟩], [cur]⟩

/-- `over(n, region)`. -/
def evalOver (pos : Pos) (args : List (Argument α)) (env : Env α) : LowerM α (Value α) :=
  match args with
  | [a, region] => do
      let nv ← evalNumber eval a.2 env
      let n := factorOf nv
      if n < 1 ∨ n.toNat &&& (n.toNat - 1) ≠ 0 then fail pos "over: n must be a power of two"
      else do
        let f ← evalFragment reg eval region.2 env
        if n = 1 then return .block f
        else
          match f.ins, f.outs with
          -- `while ((1 << stages) < n) ++stages`
          | [inp], [out] => return .block (← overRegion reg pos (Nat.clog 2 n.toNat) inp out)
          | _, _         => fail pos "over: the region must be 1-in / 1-out"
  | _ => fail pos "over(n, region) takes exactly two arguments"

/-- The registry's branch of `eval_call`. -/
def evalNode (pos : Pos) (text : String) (args : List (Argument α)) (env : Env α)
    (preferred : String) : LowerM α (Value α) := do
  let na ← evalNodeArgs eval args env
  match reg.make text na with
  | none    => fail pos ("'" ++ text ++ "': factory returned nothing")
  | some nd => do
      let nm ← nameOf preferred text
      let idx ← add nd nm
      bindRuneParams args idx
      return .block (← nodeFragment idx)

/-! ### Statements -/

/-- The names of a body; `haveOut` is `none` in a sigil. -/
structure Scope (α : Type) where
  env : Env α
  defined : List String
  haveOut : Option Bool

def Scope.define (sc : Scope α) (name : String) (v : Value α) : Scope α :=
  { sc with env := sc.env.set name v, defined := name :: sc.defined }

/-- A single node call, which gives the node exactly the name it is bound to. -/
def isSingleNode : Expr α → Bool
  | .call _ text _ =>
      text != "over" && text != "finer" && !(findSigil sigils text).isSome && reg.has text
  | _              => false

/-- Evaluate with the naming scope `p`. -/
def withPrefix {β : Type} (p : String) (m : LowerM α β) : LowerM α β := do
  let saved := (← get).namePrefix
  modify fun s => { s with namePrefix := p }
  let v ← m
  modify fun s => { s with namePrefix := saved }
  return v

/-- The value of a binding.  On a call `eval_expr` is `eval_call`; everything but a single node
opens a naming scope. -/
def evalBound (value : Expr α) (env : Env α) (qname : String) : LowerM α (Value α) :=
  if isSingleNode reg sigils value then eval value env qname
  else withPrefix qname (eval value env "")

def doBinding (pos : Pos) (name : String) (value : Expr α) (sc : Scope α) :
    LowerM α (Scope α) := do
  if sc.defined.contains name then fail pos ("duplicate name '" ++ name ++ "'")
  else do
    let s ← get
    let v ← evalBound reg sigils eval value sc.env (s.qualify name)
    return sc.define name v

def addInput (name : String) (idx : Nat) : LowerM α Unit :=
  modify fun s => { s with bp := s.bp.addInputTerminal name idx }

def doInput (pos : Pos) (name : String) (args : List (Argument α)) (sc : Scope α) :
    LowerM α (Scope α) := do
  if sc.defined.contains name then fail pos ("duplicate name '" ++ name ++ "'")
  else do
    let na ← evalNodeArgs eval args sc.env
    let nd ← orTrap (reg.make "bus" na)
    let idx ← add nd name
    addInput name idx
    return sc.define name (.block (← nodeFragment idx))

/-- The terminal's accumulator, made when the terminal is new. -/
def openTerminal (name : String) : LowerM α Unit :=
  modify fun s =>
    if (s.outTerminals name).isSome then s
    else { s with
      outTerminals := fun n => if n = name then some {} else s.outTerminals n
      outOrder := s.outOrder ++ [name] }

/-- `it->second.by_index[idx] = c`, unless the index is taken. -/
def placeChannel (pos : Pos) (name : String) (idx : Nat) (c : Chan) : LowerM α Unit := do
  let s ← get
  let acc := (s.outTerminals name).getD {}
  if (acc.find idx).isSome then
    fail pos ("output channel " ++ toString idx ++ " of terminal '" ++ name
      ++ "' is assigned more than once")
  else modify fun s => { s with
    outTerminals := fun n =>
      if n = name then some { byIndex := acc.byIndex ++ [(idx, c)] } else s.outTerminals n }

def doOut (pos : Pos) (e : Expr α) (terminal : String) (outIndex : Int) (sc : Scope α) :
    LowerM α (Scope α) := do
  let f ← evalFragment reg eval e sc.env
  if f.outs = [] then fail pos "'out' expression produces no output"
  else if terminal = "out" then fail pos "'as out' is reserved; use a plain 'out'"
  else do
    let name := if terminal = "" then "out" else terminal
    openTerminal name
    let base := if outIndex < 0 then 0 else outIndex.toNat
    f.outs.zipIdx.forM fun p => placeChannel pos name (base + p.2) p.1
    return if name = "out" then { sc with haveOut := some true } else sc

/-- `do_modulate` at its source. -/
def modulateTo (pos : Pos) (target : PortPath) (c : Chan) : LowerM α Unit := do
  let first ← orTrap target.parts.head?
  let port ← orTrap target.parts.getLast?
  let nodeName := String.intercalate "." (first :: (target.parts.drop 1).dropLast)
  let s ← get
  match s.bp.findNode nodeName with
  | none    => fail target.pos ("modulation target: unknown node '" ++ nodeName ++ "'")
  | some ni =>
      match s.bp.findParam ni port with
      | none    => fail target.pos ("modulation target: node '" ++ nodeName
          ++ "' has no port '" ++ port ++ "'")
      | some pi =>
          match s.bp.connectParam c.node c.ch ni pi with
          | none    => fail pos "modulation rejected: port already driven or out of range"
          | some bp => modify fun s => { s with bp }

def doModulate (pos : Pos) (source : Expr α) (target : PortPath) (env : Env α) :
    LowerM α Unit := do
  let src ← evalFragment reg eval source env
  match src.outs with
  | [c] => modulateTo pos target c
  | _   => fail pos "modulation source must have exactly one output"

/-- `do_explicit` at its source. -/
def wireTo (pos : Pos) (targetNode : String) (targetInput : Int) (c : Chan) : LowerM α Unit := do
  let s ← get
  match s.bp.findNode targetNode with
  | none    => fail pos ("'->' target: unknown node '" ++ targetNode ++ "'")
  | some ni => wire c ⟨ni, indexSize targetInput⟩ pos

def doExplicit (pos : Pos) (source : Expr α) (targetNode : String) (targetInput : Int)
    (env : Env α) : LowerM α Unit := do
  let src ← evalFragment reg eval source env
  match src.outs with
  | [c] => wireTo pos targetNode targetInput c
  | _   => fail pos "'->' source must have exactly one output"

/-- `do_stmt`: the value of a bare expression, 0 for any other statement, and the names after
it. -/
def doStmt (s : Stmt α) (sc : Scope α) : LowerM α (Value α × Scope α) :=
  match s with
  | .binding pos name value => do
      return (.number 0, ← doBinding reg sigils eval pos name value sc)
  | .wire _ e => do return (← eval e sc.env "", sc)
  | .modulate pos source target => do
      doModulate reg eval pos source target sc.env
      return (.number 0, sc)
  | .explicitWire pos source node inp => do
      doExplicit reg eval pos source node inp sc.env
      return (.number 0, sc)
  | .input pos name args =>
      if sc.haveOut.isNone then fail pos "'input' is not allowed inside a sigil"
      else do return (.number 0, ← doInput reg eval pos name args sc)
  | .out pos e terminal idx =>
      if sc.haveOut.isNone then fail pos "'out' is not allowed inside a sigil"
      else do return (.number 0, ← doOut reg eval pos e terminal idx sc)

/-! ### Sigils -/

/-- The argument of the `i`-th parameter: named wins, else positional, else the default. -/
def provided (args : List (Argument α)) (i : Nat) (p : Param α) : Option (Expr α) :=
  match args.find? fun a => a.1 == p.name with
  | some a => some a.2
  | none   =>
      match (args.filter fun a => a.1 == "")[i]? with
      | some a => some a.2
      | none   => p.defaultValue

/-- Bind the parameters, evaluated in the caller's scope. -/
def bindParams (pos : Pos) (sig : Definition α) (args : List (Argument α)) (env : Env α) :
    LowerM α (Scope α) :=
  sig.params.zipIdx.foldlM (fun (sc : Scope α) (p : Param α × Nat) => do
    match provided args p.2 p.1 with
    | none   => fail pos ("sigil '" ++ sig.name ++ "' missing argument '" ++ p.1.name ++ "'")
    | some e => return sc.define p.1.name (← eval e env "")) ⟨fun _ => none, [], none⟩

/-- The statements of a body, with the value of the last one. -/
def doBody (body : List (Stmt α)) (sc : Scope α) : LowerM α (Value α × Scope α) :=
  body.foldlM (fun (acc : Value α × Scope α) s => doStmt reg sigils eval s acc.2) (.number 0, sc)

def Stmt.isWire : Stmt α → Bool
  | .wire _ _ => true
  | _         => false

/-- `eval_sigil`. -/
def evalSigil (pos : Pos) (sig : Definition α) (args : List (Argument α)) (env : Env α) :
    LowerM α (Value α) := do
  let sc ← bindParams eval pos sig args env
  let (last, _) ← doBody reg sigils eval sig.body sc
  if sig.body.getLast?.any Stmt.isWire then return last
  else fail sig.pos ("sigil '" ++ sig.name ++ "' must end with an expression")

/-! ### The evaluator -/

def evalCall (pos : Pos) (text : String) (args : List (Argument α)) (env : Env α)
    (preferred : String) : LowerM α (Value α) :=
  if text = "over" then evalOver reg eval pos args env
  else if text = "finer" then
    fail pos "'finer' is not yet implemented (needs the upbloc Tier-2 node)"
  else
    match findSigil sigils text with
    | some sig => evalSigil reg sigils eval pos sig args env
    | none     =>
        if reg.has text then evalNode reg eval pos text args env preferred
        else fail pos ("unknown node type or sigil '" ++ text ++ "'")

/-- One turn of `eval_expr`. -/
def evalStep : Eval α := fun e env preferred =>
  match e with
  | .number _ n             => return .number n
  | .string pos _           => fail pos "a string/boolean is only valid as a node argument"
  | .boolean pos _          => fail pos "a string/boolean is only valid as a node argument"
  | .ident pos text         => evalIdent reg pos text env
  | .unary pos a            => evalUnary reg eval pos a env
  | .select pos a index     => evalSelect reg eval pos a index env
  | .binary pos op a b      => evalBinary reg eval pos op a b env
  | .call pos text args     => evalCall reg sigils eval pos text args env preferred

/-- `eval_expr`. -/
def evalExpr : Nat → Eval α
  | 0        => fun _ _ _ => timeout
  | fuel + 1 => evalStep reg sigils (evalExpr fuel)

/-! ### Runes -/

/-- What the beginning of `lower_rune` clears; the blueprint is the caller's. -/
def Lowerer.reset (s : Lowerer α) : Lowerer α := { bp := s.bp }

def declareParam (name : String) (dv : α) : LowerM α Unit :=
  modify fun s => { s with
    runeParams := s.runeParams ++ [name]
    bp := { s.bp with params := s.bp.params ++ [{ name, defaultValue := dv }] } }

def bindRuneParam (sc : Scope α) (p : Param α) : LowerM α (Scope α) := do
  match p.defaultValue with
  | none   => fail p.pos ("rune parameter '" ++ p.name ++ "' needs a default value")
  | some e => do
      let dv ← evalNumber eval e sc.env
      declareParam p.name dv
      return sc.define p.name (.number dv)

/-- The channels of an accumulated terminal; the gaps are silent. -/
def OutAcc.channels (acc : OutAcc) : List TerminalSource :=
  (List.range ((acc.byIndex.map fun kv => kv.1 + 1).foldr max 0)).map fun i =>
    match acc.find i with
    | some c => ⟨c.node, c.ch, false⟩
    | none   => ⟨0, 0, true⟩

/-- The turn of `finalize_outputs` for a terminal; the output node is the first real source. -/
def Lowerer.finalizeTerminal (s : Lowerer α) (name : String) : Lowerer α :=
  let chans := ((s.outTerminals name).getD {}).channels
  let bp := s.bp.addOutputTerminal name chans
  match chans.find? fun c => !c.silent with
  | some c => { s with bp := if name = "out" then { bp with outputNode := c.node } else bp }
  | none   => { s with bp }

/-- `finalize_outputs`. -/
def Lowerer.finalizeOutputs (s : Lowerer α) : Lowerer α :=
  s.outOrder.foldl Lowerer.finalizeTerminal s

/-- A parameter used more often than it was bound to a port has a use that was folded. -/
def Lowerer.flagPartial (s : Lowerer α) : Lowerer α :=
  { s with bp := { s.bp with
      params := s.bp.params.map fun p =>
        { p with isPartial := decide (s.directUses p.name < s.uses p.name) } } }

/-- The parameters and the body of a rune. -/
def runeBody (r : Definition α) : LowerM α (Scope α) := do
  let sc ← r.params.foldlM (bindRuneParam eval) ⟨fun _ => none, [], some false⟩
  let (_, sc) ← doBody reg sigils eval r.body sc
  return sc

/-- `lower_rune`. -/
def lowerRune (r : Definition α) : LowerM α Unit := do
  modify Lowerer.reset
  let sc ← runeBody reg sigils eval r
  modify Lowerer.finalizeOutputs
  modify Lowerer.flagPartial
  if sc.haveOut = some true then return ()
  else fail r.pos ("rune '" ++ r.name ++ "' has no 'out'")

structure LoweredBlueprint (α : Type) where
  name : String
  bp : GraphBlueprint α

structure LowerResult (α : Type) where
  blueprints : List (LoweredBlueprint α) := []
  diags : List Diagnostic := []

/-- The turn of `lower` for a rune: its blueprint, or its diagnostic.  A rune that runs out of
fuel or traps ends neither way. -/
def lowerTurn (acc : Lowerer α × LowerResult α) (r : Definition α) :
    Option (Lowerer α × LowerResult α) :=
  match lowerRune reg sigils eval r { acc.1 with bp := {} } with
  | (.ok _, s)             =>
      some (s, { acc.2 with blueprints := acc.2.blueprints ++ [⟨r.name, s.bp⟩] })
  | (.stop (.abort d), s)  => some (s, { acc.2 with diags := acc.2.diags ++ [d] })
  | (.stop _, _)           => none

theorem lowerTurn_eq_some {acc acc' : Lowerer α × LowerResult α} {r : Definition α} :
    lowerTurn reg sigils eval acc r = some acc' ↔
      (∃ s, lowerRune reg sigils eval r { acc.1 with bp := {} } = (.ok (), s) ∧
        acc' = (s, { acc.2 with blueprints := acc.2.blueprints ++ [⟨r.name, s.bp⟩] })) ∨
      ∃ d s, lowerRune reg sigils eval r { acc.1 with bp := {} } = (.stop (.abort d), s) ∧
        acc' = (s, { acc.2 with diags := acc.2.diags ++ [d] }) := by
  rw [lowerTurn]
  rcases lowerRune reg sigils eval r { acc.1 with bp := {} } with ⟨b | (d | _ | _), s⟩
  · constructor
    · intro h
      exact .inl ⟨s, rfl, (Option.some.inj h).symm⟩
    · rintro (⟨s, run, rfl⟩ | ⟨d, s, run, -⟩) <;> cases run
      rfl
  · constructor
    · intro h
      exact .inr ⟨d, s, rfl, (Option.some.inj h).symm⟩
    · rintro (⟨s, run, -⟩ | ⟨d, s, run, rfl⟩) <;> cases run
      rfl
  · exact ⟨(nomatch ·), by rintro (⟨s, run, -⟩ | ⟨d, s, run, -⟩) <;> cases run⟩
  · exact ⟨(nomatch ·), by rintro (⟨s, run, -⟩ | ⟨d, s, run, -⟩) <;> cases run⟩

end Nodes

/-- `lower`, with fuel for the depth of the recursion. -/
def lower {α : Type} [Sample α] (fuel : Nat) (prog : Program α) (reg : NodeRegistry α) :
    Option (LowerResult α) :=
  (prog.runes.foldlM (lowerTurn reg prog.sigils (evalExpr reg prog.sigils fuel)) ({}, {})).map
    Prod.snd

end Xrune.Lang
