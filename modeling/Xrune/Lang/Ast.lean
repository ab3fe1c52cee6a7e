import Mathlib

/-!
# Lang — the syntax tree

The parser's output, purely syntactic.  A tree carries the source positions its diagnostics
name; the position of a call argument is read by nothing and left out.
-/

namespace Xrune.Lang

/-- `Tok`. -/
inductive Tok where
  | «end» | newline
  | ident | number | string
  | kwRune | kwSigil | kwEnd | kwInput | kwOut | kwAs | kwTrue | kwFalse
  | lParen | rParen | lBracket | rBracket | assign | comma | dot
  | colon | split | merge | modulate | arrow
  | plus | minus | star | slash | percent
  | bang | tilde | unknown
  deriving DecidableEq, Repr

/-- `line` and `col`. -/
structure Pos where
  line : Nat := 0
  col : Nat := 0
  deriving DecidableEq, Repr

/-- A compile-time error with a source position. -/
structure Diagnostic where
  message : String
  pos : Pos
  deriving DecidableEq, Repr

/-- `expr`.  An argument of a call has its name, empty if it is positional. -/
inductive Expr (α : Type) where
  | number (pos : Pos) (n : α)
  | string (pos : Pos) (text : String)
  | boolean (pos : Pos) (b : Bool)
  | ident (pos : Pos) (text : String)
  | call (pos : Pos) (text : String) (args : List (String × Expr α))
  | unary (pos : Pos) (a : Expr α)
  | binary (pos : Pos) (op : Tok) (a b : Expr α)
  | select (pos : Pos) (a : Expr α) (index : Int)

abbrev Argument (α : Type) : Type := String × Expr α

/-- A dotted port path on the right of `~>`. -/
structure PortPath where
  parts : List String
  pos : Pos

/-- `stmt`.  `terminal` is empty for a plain `out`, and `outIndex` negative without an index. -/
inductive Stmt (α : Type) where
  | binding (pos : Pos) (name : String) (value : Expr α)
  | wire (pos : Pos) (expr : Expr α)
  | modulate (pos : Pos) (source : Expr α) (target : PortPath)
  | explicitWire (pos : Pos) (source : Expr α) (targetNode : String) (targetInput : Int)
  | input (pos : Pos) (name : String) (args : List (Argument α))
  | out (pos : Pos) (expr : Expr α) (terminal : String) (outIndex : Int)

structure Param (α : Type) where
  name : String
  defaultValue : Option (Expr α)
  pos : Pos

/-- `rune_def` and `sigil_def`, which have the same fields. -/
structure Definition (α : Type) where
  name : String
  params : List (Param α)
  body : List (Stmt α)
  pos : Pos

structure Program (α : Type) where
  runes : List (Definition α)
  sigils : List (Definition α)

end Xrune.Lang
