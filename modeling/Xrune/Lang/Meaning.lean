import Xrune.Lang.Arity
import Xrune.Schedule.Waves

/-!
# Lang — what a program means

The meaning of an expression, apart from nodes and wires: a compile-time number, or a block
diagram over waves.  The connection operators put diagrams together, arithmetic is done on waves
channel by channel, and a node call means what the node sounds like with its ports at their
defaults.  Sigils and bindings are as good as what they stand for.

The meaning has no state: a name that is used twice means the same twice.  Nothing here refers to
a blueprint; that what the lowerer makes of an expression sounds as the expression means is
proved in `Lang.Denotes`.
-/

namespace Xrune

/-- A node, its ports at their defaults. -/
def Node.diagram {α : Type} [Sample α] (sampleRate : Nat) (nd : Node α) : Diagram (Wave α) where
  ins := nd.inputsCount
  outs := nd.outputsCount
  play x := nd.sound sampleRate x fun _ => none

namespace Lang

/-- What an expression is worth. -/
inductive Meaning (α : Type) where
  | number (n : α)
  | block (d : Diagram (Wave α))

/-- What the names in scope mean. -/
abbrev Meanings (α : Type) : Type := String → Option (Meaning α)

def Meanings.set {α : Type} (ρ : Meanings α) (name : String) (m : Meaning α) : Meanings α :=
  fun n => if n = name then some m else ρ n

variable {K : Type} [Field K] [LinearOrder K] [FloorRing K] [Trig K]

namespace Meaning

/-- A number stands for a constant signal. -/
def signal : Meaning K → Diagram (Wave K)
  | .number n => .source (.constant n)
  | .block d  => d

/-! ### Arithmetic -/

/-- On each channel. -/
def each (f : K → K) (a : Diagram (Wave K)) : Diagram (Wave K) :=
  a.post a.outs fun ys c => (ys c).map f

/-- Channel by channel; a mono operand goes with every channel of the other. -/
def pairs (f : K → K → K) (a b : Diagram (Wave K)) : Option (Diagram (Wave K)) :=
  (broadcast a.outs b.outs).map fun n => (a.par b).post n fun ys c =>
    .zip f (ys (if a.outs = 1 then 0 else c)) (ys (a.outs + if b.outs = 1 then 0 else c))

/-- Arithmetic on two numbers. -/
def ofNumbers (op : Tok) (a b : K) : Option K :=
  match op with
  | .plus    => some (a + b)
  | .minus   => some (a - b)
  | .star    => some (a * b)
  | .slash   => if b = 0 then none else some (a / b)
  | .percent => if b = 0 then none else some (Sample.fmod a b)
  | _        => none

/-- Arithmetic on a signal.  The quotient by a sample that is zero is zero. -/
def ofSignals (op : Tok) (l r : Meaning K) : Option (Diagram (Wave K)) :=
  match op, l, r with
  | .plus, l, r                => pairs (· + ·) l.signal r.signal
  | .minus, l, r               => pairs (· - ·) l.signal r.signal
  | .star, .block l, .number n => some (each (· * n) l)
  | .star, .number n, .block r => some (each (· * n) r)
  | .star, l, r                => pairs (· * ·) l.signal r.signal
  | .slash, l, .number n       => if n = 0 then none else some (each (· / n) l.signal)
  | .slash, l, .block r        => pairs (· / ·) l.signal r
  | _, _, _                    => none

def arith (op : Tok) : Meaning K → Meaning K → Option (Meaning K)
  | .number a, .number b => (ofNumbers op a b).map .number
  | l, r                 => (ofSignals op l r).map .block

def negated : Meaning K → Meaning K
  | .number n => .number (-n)
  | .block d  => .block (each (- ·) d)

end Meaning

/-! ### The connection algebra -/

section Algebra

variable (a b : Diagram (Wave K))

/-- `a : b` -/
def inSequence : Option (Diagram (Wave K)) :=
  if a.outs = b.ins then some (a.into (fun ys j => ys j) b) else none

/-- `a <: b` -/
def splitInto : Option (Diagram (Wave K)) :=
  if a.outs = 0 ∨ b.ins % a.outs ≠ 0 then none
  else some (a.into (fun ys j => ys (j % a.outs)) b)

/-- `a :> b`: port `j` gets the sum of the channels `j`, `j + b.ins`, `j + 2 * b.ins`, … -/
def mergedInto : Option (Diagram (Wave K)) :=
  if b.ins = 0 ∨ a.outs % b.ins ≠ 0 then none
  else some (a.into
    (fun ys j => .sum (((List.range a.outs).filter fun i => i % b.ins == j).map ys)) b)

def joined (op : Tok) : Option (Diagram (Wave K)) :=
  match op with
  | .colon => inSequence a b
  | .comma => some (a.par b)
  | .split => splitInto a b
  | .merge => mergedInto a b
  | _      => none

end Algebra

/-- `a[i]` -/
def picked (a : Diagram (Wave K)) (i : Nat) : Option (Diagram (Wave K)) :=
  if i < a.outs then some (a.post 1 fun ys _ => ys i) else none

/-- `_` -/
def identity : Diagram (Wave K) := ⟨1, 1, fun x _ => (x 0).getD .silence⟩

/-- `!` -/
def cutOff : Diagram (Wave K) := ⟨1, 0, fun _ _ => .silence⟩

/-! ### Expressions -/

section Expressions

variable (sampleRate : Nat) (sigils : List (Definition K))
  (mean : Expr K → Meanings K → Option (Meaning K))

def signalOf (e : Expr K) (ρ : Meanings K) : Option (Diagram (Wave K)) :=
  (mean e ρ).map Meaning.signal

def numberOf (e : Expr K) (ρ : Meanings K) : Option K :=
  match mean e ρ with
  | some (.number n) => some n
  | _                => none

def argumentOf (e : Expr K) (ρ : Meanings K) : Option (ArgValue K) :=
  match e with
  | .string _ s  => some (.string s)
  | .boolean _ b => some (.boolean b)
  | e            => (numberOf mean e ρ).map .number

def nodeArgsOf (args : List (Argument K)) (ρ : Meanings K) : Option (NodeArgs K) :=
  args.foldlM (fun (na : NodeArgs K) (a : Argument K) =>
    (argumentOf mean a.2 ρ).map fun av =>
      if a.1 = "" then { na with positional := na.positional ++ [av] }
      else { na with named := na.named ++ [(a.1, av)] }) {}

def nodeOf (type : String) (args : NodeArgs K) : Option (Meaning K) :=
  (standardRegistry.make type args).map fun nd => .block (nd.diagram sampleRate)

def meaningOfIdent (text : String) (ρ : Meanings K) : Option (Meaning K) :=
  match ρ text with
  | some m => some m
  | none   =>
      if text = "_" then some (.block identity)
      else if text = "!" then some (.block cutOff)
      else nodeOf sampleRate text {}

def meaningOfBinary (op : Tok) (a b : Expr K) (ρ : Meanings K) : Option (Meaning K) :=
  match op with
  | .plus | .minus | .star | .slash | .percent =>
      (mean a ρ).bind fun l => (mean b ρ).bind fun r => Meaning.arith op l r
  | op => (signalOf mean a ρ).bind fun l => (signalOf mean b ρ).bind fun r =>
      (joined l r op).map .block

/-- `stages` nodes in a row. -/
def inRow (nd : Diagram (Wave K)) : Nat → Diagram (Wave K) → Diagram (Wave K)
  | 0, a          => a
  | stages + 1, a => inRow nd stages (a.into (fun ys j => ys j) nd)

/-- The region, its wave converted up before and down after. -/
def oversampled (stages : Nat) (region : Diagram (Wave K)) : Diagram (Wave K) :=
  let up := (Nodes.upsampler2 : Node K).diagram sampleRate
  let down := (Nodes.downsampler2 : Node K).diagram sampleRate
  inRow down stages ((inRow up (stages - 1) up).into (fun ys j => ys j) region)

def meaningOfOver (args : List (Argument K)) (ρ : Meanings K) : Option (Meaning K) :=
  match args with
  | [a, region] => (numberOf mean a.2 ρ).bind fun nv => (signalOf mean region.2 ρ).bind fun d =>
      let n := factorOf nv
      if n < 1 then none
      else if n = 1 then some (.block d)
      else if d.ins = 1 ∧ d.outs = 1 then
        some (.block (oversampled sampleRate (Nat.clog 2 n.toNat) d))
      else none
  | _ => none

/-- The meanings of a sigil's parameters, evaluated in the caller's scope. -/
def parametersOf (sig : Definition K) (args : List (Argument K)) (ρ : Meanings K) :
    Option (Meanings K) :=
  sig.params.zipIdx.foldlM (fun (σ : Meanings K) (p : Param K × Nat) =>
    (provided args p.2 p.1).bind fun e => (mean e ρ).map fun m => σ.set p.1.name m) fun _ => none

/-- The value of a statement of a sigil, and the names after it.  Wires to named nodes fill open
ports, which a meaning leaves open. -/
def statementOf (s : Stmt K) (ρ : Meanings K) : Option (Meaning K × Meanings K) :=
  match s with
  | .binding _ name value => (mean value ρ).map fun m => (.number 0, ρ.set name m)
  | .wire _ e             => (mean e ρ).map fun m => (m, ρ)
  | .modulate _ _ _       => some (.number 0, ρ)
  | .explicitWire _ _ _ _ => some (.number 0, ρ)
  | .input _ _ _          => none
  | .out _ _ _ _          => none

def meaningOfSigil (sig : Definition K) (args : List (Argument K)) (ρ : Meanings K) :
    Option (Meaning K) :=
  (parametersOf mean sig args ρ).bind fun σ =>
    (sig.body.foldlM (fun (acc : Meaning K × Meanings K) s => statementOf mean s acc.2)
      (.number 0, σ)).map Prod.fst

def meaningOfCall (text : String) (args : List (Argument K)) (ρ : Meanings K) :
    Option (Meaning K) :=
  if text = "over" then meaningOfOver sampleRate mean args ρ
  else
    match findSigil sigils text with
    | some sig => meaningOfSigil mean sig args ρ
    | none     => (nodeArgsOf mean args ρ).bind fun na => nodeOf sampleRate text na

def meaningStep (e : Expr K) (ρ : Meanings K) : Option (Meaning K) :=
  match e with
  | .number _ n         => some (.number n)
  | .string _ _         => none
  | .boolean _ _        => none
  | .ident _ text       => meaningOfIdent sampleRate text ρ
  | .unary _ a          => (mean a ρ).map Meaning.negated
  | .select _ a index   => (signalOf mean a ρ).bind fun d => (picked d (indexSize index)).map .block
  | .binary _ op a b    => meaningOfBinary mean op a b ρ
  | .call _ text args   => meaningOfCall sampleRate sigils mean text args ρ

end Expressions

/-- The meaning of an expression, with fuel for the sigils it expands. -/
def meaning (sampleRate : Nat) (sigils : List (Definition K)) :
    Nat → Expr K → Meanings K → Option (Meaning K)
  | 0        => fun _ _ => none
  | fuel + 1 => meaningStep sampleRate sigils (meaning sampleRate sigils fuel)

/-! ### Runes -/

/-- What a rune plays at a terminal, from the channel `base` on. -/
structure Showing (α : Type) where
  terminal : String
  base : Nat
  diagram : Diagram (Wave α)

section Runes

variable (mean : Expr K → Meanings K → Option (Meaning K))

/-- The parameters of a rune mean their defaults. -/
def defaultsOf (params : List (Param K)) : Option (Meanings K) :=
  params.foldlM (fun (ρ : Meanings K) (p : Param K) =>
    p.defaultValue.bind fun e => (numberOf mean e ρ).map fun n => ρ.set p.name (.number n))
    fun _ => none

/-- The turn of a rune for a statement: what is shown so far, and the names. -/
def showStep (acc : List (Showing K) × Meanings K) (s : Stmt K) :
    Option (List (Showing K) × Meanings K) :=
  match s with
  | .out _ e terminal index => (signalOf mean e acc.2).map fun d =>
      (acc.1 ++ [⟨if terminal = "" then "out" else terminal,
        if index < 0 then 0 else index.toNat, d⟩], acc.2)
  | s => (statementOf mean s acc.2).map fun r => (acc.1, r.2)

end Runes

/-- What a rune plays.  A rune with inputs plays what it is fed, which is none of its meaning. -/
def runeMeaning (sampleRate : Nat) (sigils : List (Definition K)) (fuel : Nat)
    (r : Definition K) : Option (List (Showing K)) :=
  let mean := meaning sampleRate sigils fuel
  (defaultsOf mean r.params).bind fun ρ => (r.body.foldlM (showStep mean) ([], ρ)).map Prod.fst

end Lang

end Xrune
