import Xrune.Lang.Lexer
import Xrune.Support.Stateful

/-!
# Lang — the parser

Recursive descent with precedence climbing.  The position is the tokens that are left; the last
one is never passed, and reading a token where none is left is undefined behaviour.  An error
adds a diagnostic, and parsing goes on at the end of the statement or of the definition.

Every function takes fuel and hands less of it on.  Without fuel it does not return.
-/

namespace Xrune.Lang

open Stateful

/-- `static_cast<int>` of a floating-point number. -/
class CInt (α : Type) where
  toInt : α → Int

/-- `parser`. -/
structure Parser (α : Type) where
  toks : List (Token α)
  diags : List Diagnostic

abbrev ParseM (α β : Type) : Type := Stateful (Parser α) Empty β

variable {α : Type}

/-! ### Tokens -/

def cur : ParseM α (Token α) := do
  let s ← get
  orTrap s.toks.head?

/-- The token after the current one, or the last one. -/
def peek : ParseM α (Token α) := do
  let s ← get
  orTrap (s.toks[1]?.or s.toks.getLast?)

/-- `at`. -/
def isAt (k : Tok) : ParseM α Bool := do
  let t ← cur
  return t.kind = k

def adv : ParseM α Unit :=
  modify fun s =>
    match s.toks with
    | _ :: t :: r => { s with toks := t :: r }
    | _           => s

def accept (k : Tok) : ParseM α Bool := do
  if ← isAt k then
    adv
    return true
  else return false

def errorAt (m : String) (pos : Pos) : ParseM α Unit :=
  modify fun s => { s with diags := s.diags ++ [⟨m, pos⟩] }

def error (m : String) : ParseM α Unit := do
  let t ← cur
  errorAt m t.pos

def expect (k : Tok) (what : String) : ParseM α (Token α) := do
  let t ← cur
  if t.kind = k then
    adv
    return t
  else
    error ("expected " ++ what ++ ", got " ++ tokName t.kind)
    cur

def skipNewlines : Nat → ParseM α Unit
  | 0     => timeout
  | n + 1 => do
      if ← isAt .newline then
        adv
        skipNewlines n
      else return ()

/-- Where parsing goes on after an error. -/
def isBoundary : Tok → Bool
  | .end | .newline | .kwEnd | .kwRune | .kwSigil => true
  | _ => false

def synchronize : Nat → ParseM α Unit
  | 0     => timeout
  | n + 1 => do
      let t ← cur
      if isBoundary t.kind then return ()
      else
        adv
        synchronize n

/-- `at(Tok::Ident) && peek().kind == Tok::Assign`. -/
def atAssignment : ParseM α Bool := do
  if ← isAt .ident then
    let t ← peek
    return t.kind = .assign
  else return false

/-! ### Expressions -/

/-- The name of an argument, taken with its `=`; empty if it is positional. -/
def argName : ParseM α String := do
  if ← atAssignment then
    let t ← cur
    adv
    adv
    return t.text
  else return ""

def binprec : Tok → Nat
  | .merge => 1
  | .split => 2
  | .colon => 3
  | .comma => 4
  | .plus | .minus => 5
  | .star | .slash | .percent => 6
  | _ => 0

variable [Sample α] [CInt α]

/-- `static_cast<double>` of an `int`. -/
def ofInt (i : Int) : α := if i < 0 then -Sample.cast i.natAbs else Sample.cast i.toNat

def parseIndex : ParseM α Int := do
  let t ← cur
  if t.kind = .number then
    adv
    let iv := CInt.toInt t.number
    if !Sample.same (ofInt iv) t.number || iv < 0 then
      error "channel index must be a non-negative integer"
    return iv
  else
    error ("expected a channel index, got " ++ tokName t.kind)
    return 0

mutual

/-- With `inArgs` a comma separates call arguments.  A group resets it. -/
def parseBinary : Nat → Nat → Bool → ParseM α (Expr α)
  | 0, _, _              => timeout
  | n + 1, minPrec, inArgs => do
      let left ← parseUnary n
      binaryLoop n minPrec inArgs left

/-- The loop of `parse_binary`: the operators at `minPrec` or above. -/
def binaryLoop : Nat → Nat → Bool → Expr α → ParseM α (Expr α)
  | 0, _, _, _                    => timeout
  | n + 1, minPrec, inArgs, left => do
      let t ← cur
      let p := binprec t.kind
      if p = 0 ∨ (t.kind = .comma ∧ inArgs) ∨ p < minPrec then return left
      else
        adv
        let right ← parseBinary n (p + 1) inArgs
        binaryLoop n minPrec inArgs (.binary t.pos t.kind left right)

def parseUnary : Nat → ParseM α (Expr α)
  | 0     => timeout
  | n + 1 => do
      let t ← cur
      if t.kind = .minus then
        adv
        let a ← parseUnary n
        return .unary t.pos a
      else parsePostfix n

def parsePostfix : Nat → ParseM α (Expr α)
  | 0     => timeout
  | n + 1 => do
      let base ← parsePrimary n
      selectLoop n base

/-- The loop of `parse_postfix`: the channel selections. -/
def selectLoop : Nat → Expr α → ParseM α (Expr α)
  | 0, _        => timeout
  | n + 1, base => do
      let t ← cur
      if t.kind = .lBracket then
        adv
        let idx ← parseIndex
        let _ ← expect .rBracket "']'"
        selectLoop n (.select t.pos base idx)
      else return base

def parsePrimary : Nat → ParseM α (Expr α)
  | 0     => timeout
  | n + 1 => do
      let t ← cur
      match t.kind with
      | .bang =>
          adv
          return .ident t.pos "!"
      | .lParen =>
          adv
          let e ← parseBinary n 1 false
          let _ ← expect .rParen "')'"
          return e
      | .number =>
          adv
          return .number t.pos t.number
      | .string =>
          adv
          return .string t.pos t.text
      | .kwTrue =>
          adv
          return .boolean t.pos true
      | .kwFalse =>
          adv
          return .boolean t.pos false
      | .ident =>
          adv
          if ← isAt .lParen then
            let args ← parseCallArgs n
            return .call t.pos t.text args
          else return .ident t.pos t.text
      | k =>
          error ("expected an expression, got " ++ tokName k)
          return .number t.pos 0

def parseCallArgs : Nat → ParseM α (List (Argument α))
  | 0     => timeout
  | n + 1 => do
      let _ ← expect .lParen "'('"
      if ← accept .rParen then return []
      else
        let args ← argsLoop n []
        let _ ← expect .rParen "')'"
        return args

/-- The loop of `parse_call_args`. -/
def argsLoop : Nat → List (Argument α) → ParseM α (List (Argument α))
  | 0, _        => timeout
  | n + 1, args => do
      let name ← argName
      let value ← parseBinary n 1 true
      let args := args ++ [(name, value)]
      if ← accept .comma then argsLoop n args else return args

end

def parseExpr (fuel : Nat) (inArgs : Bool) : ParseM α (Expr α) := parseBinary fuel 1 inArgs

/-! ### Statements -/

/-- The names of a port path after the first. -/
def pathLoop : Nat → List String → ParseM α (List String)
  | 0, _         => timeout
  | n + 1, parts => do
      if ← accept .dot then
        let t ← expect .ident "identifier after '.'"
        pathLoop n (parts ++ [t.text])
      else return parts

def parsePortPath (fuel : Nat) : ParseM α PortPath := do
  let start ← cur
  let first ← expect .ident "port path (node.port)"
  let parts ← pathLoop fuel [first.text]
  if parts.length < 2 then errorAt "modulation target must be node.port" start.pos
  return ⟨parts, start.pos⟩

def parseInput (fuel : Nat) : ParseM α (Stmt α) := do
  let start ← cur
  adv
  let name ← expect .ident "terminal name"
  let args ← parseCallArgs fuel
  return .input start.pos name.text args

/-- The index of an `out`, which is -1 without one. -/
def outIndex : ParseM α Int := do
  if ← accept .lBracket then
    let i ← parseIndex
    let _ ← expect .rBracket "']'"
    return i
  else return -1

/-- The terminal of an `out`, empty without one. -/
def outTerminal : ParseM α String := do
  if ← accept .kwAs then
    let t ← expect .ident "terminal name after 'as'"
    return t.text
  else return ""

def parseOut (fuel : Nat) : ParseM α (Stmt α) := do
  let start ← cur
  adv
  let index ← outIndex
  let e ← parseExpr fuel false
  let terminal ← outTerminal
  return .out start.pos e terminal index

def parseBinding (fuel : Nat) : ParseM α (Stmt α) := do
  let name ← cur
  adv
  adv
  let value ← parseExpr fuel false
  return .binding name.pos name.text value

/-- A statement that begins with an expression: a modulation, an explicit wire or a bare one. -/
def parseWire (fuel : Nat) : ParseM α (Stmt α) := do
  let start ← cur
  let e ← parseExpr fuel false
  if ← accept .modulate then
    let target ← parsePortPath fuel
    return .modulate start.pos e target
  else if ← accept .arrow then
    let target ← expect .ident "target node name"
    let _ ← expect .lBracket "'['"
    let input ← parseIndex
    let _ ← expect .rBracket "']'"
    return .explicitWire start.pos e target.text input
  else return .wire start.pos e

def parseStatement (fuel : Nat) : ParseM α (Stmt α) := do
  if ← isAt .kwInput then parseInput fuel
  else if ← isAt .kwOut then parseOut fuel
  else if ← atAssignment then parseBinding fuel
  else parseWire fuel

/-! ### Definitions -/

/-- The default value of a parameter, if it has one. -/
def parseDefault (fuel : Nat) : ParseM α (Option (Expr α)) := do
  if ← accept .assign then
    let e ← parseExpr fuel true
    return some e
  else return none

/-- The loop of `parse_params`. -/
def paramsLoop : Nat → List (Param α) → ParseM α (List (Param α))
  | 0, _      => timeout
  | n + 1, ps => do
      let name ← expect .ident "parameter name"
      let default ← parseDefault n
      let ps := ps ++ [⟨name.text, default, name.pos⟩]
      if ← accept .comma then paramsLoop n ps else return ps

def parseParams (fuel : Nat) : ParseM α (List (Param α)) := do
  let _ ← expect .lParen "'('"
  if ← accept .rParen then return []
  else
    let ps ← paramsLoop fuel []
    let _ ← expect .rParen "')'"
    return ps

/-- The parameters of a definition that has a list of them. -/
def definitionParams (fuel : Nat) : ParseM α (List (Param α)) := do
  if ← isAt .lParen then parseParams fuel else return []

/-- A statement is followed by the end of its line, or of the definition. -/
def endStatement (fuel : Nat) : ParseM α Unit := do
  let t ← cur
  if t.kind ≠ .newline ∧ t.kind ≠ .kwEnd ∧ t.kind ≠ .end then
    error "expected end of line after statement"
    synchronize fuel
  else return ()

/-- `if (pos == before) adv()`. -/
def guaranteeProgress (before : Parser α) : ParseM α Unit := do
  let after ← get
  if after.toks.length = before.toks.length then adv else return ()

/-- The statements up to `end`. -/
def bodyLoop : Nat → List (Stmt α) → ParseM α (List (Stmt α))
  | 0, _        => timeout
  | n + 1, body => do
      let t ← cur
      if t.kind = .kwEnd ∨ t.kind = .end then return body
      else
        let before ← get
        let s ← parseStatement n
        endStatement n
        guaranteeProgress before
        skipNewlines n
        bodyLoop n (body ++ [s])

def parseDef (fuel : Nat) : ParseM α (Definition α) := do
  let start ← cur
  adv
  let name ← expect .ident "definition name"
  let params ← definitionParams fuel
  skipNewlines fuel
  let body ← bodyLoop fuel []
  let _ ← expect .kwEnd "'end'"
  return ⟨name.text, params, body, start.pos⟩

/-- The next definition, added to the program. -/
def topLevel (fuel : Nat) (p : Program α) : ParseM α (Program α) := do
  let t ← cur
  if t.kind = .kwRune then
    let d ← parseDef fuel
    return { p with runes := p.runes ++ [d] }
  else if t.kind = .kwSigil then
    let d ← parseDef fuel
    return { p with sigils := p.sigils ++ [d] }
  else
    error "expected 'rune' or 'sigil'"
    synchronize fuel
    return p

def programLoop : Nat → Program α → ParseM α (Program α)
  | 0, _     => timeout
  | n + 1, p => do
      if ← isAt .end then return p
      else
        let before ← get
        let p ← topLevel n p
        guaranteeProgress before
        skipNewlines n
        programLoop n p

def parseProgram (fuel : Nat) : ParseM α (Program α) := do
  skipNewlines fuel
  programLoop fuel ⟨[], []⟩

/-- `parse`: the program and the parser when it is done, `none` when it does not end.  The fuel
is enough for the tokens of the text (`parse_total`). -/
def parse [Json.CNumber α] (src : List Char) : Option (Outcome Empty (Program α) × Parser α) :=
  (lex src).map fun (toks, diags) => parseProgram (8 * toks.length + 16) ⟨toks, diags⟩

end Xrune.Lang
