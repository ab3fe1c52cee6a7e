import Xrune.Core.Node

/-!
# Nodes — checked accesses

`process` is code over raw arrays: the input and output views, the state block and the tables a
node was constructed with.  Here it is written with accesses that stop at a `Trap` where the
source divides by zero or leaves an array, so that a node's code both computes (`Access.run`) and
can be asked whether it traps.
-/

namespace Xrune

/-- What the source leaves undefined in a node's code. -/
inductive Trap where
  | divisionByZero
  | outOfBounds
  deriving DecidableEq, Repr

/-- What a call of `process` may write: the state block and the output views. -/
structure Frame (α : Type) where
  state : StateBlock α
  outputs : List (List α)

abbrev Access (α β : Type) := StateT (Frame α) (Except Trap) β

namespace Access

variable {α β : Type}

/-- `array[i]`, read. -/
def nth (l : List β) (i : Nat) : Access α β :=
  match l[i]? with
  | some x => pure x
  | none   => throw .outOfBounds

/-- `a % b`. -/
def modulo (a b : Nat) : Access α Nat := if b = 0 then throw .divisionByZero else pure (a % b)

/-- `a / b`. -/
def divide (a b : Nat) : Access α Nat := if b = 0 then throw .divisionByZero else pure (a / b)

/-- A sample of the state block. -/
def cell (i : Nat) : Access α α := do
  let f ← get
  nth f.state.cells i

def setCell (i : Nat) (x : α) : Access α Unit := do
  let f ← get
  if i < f.state.cells.length then
    set { f with state := { f.state with cells := f.state.cells.set i x } }
  else throw .outOfBounds

/-- An integer of the state block. -/
def word (i : Nat) : Access α Nat := do
  let f ← get
  nth f.state.words i

def setWord (i x : Nat) : Access α Unit := do
  let f ← get
  if i < f.state.words.length then
    set { f with state := { f.state with words := f.state.words.set i x } }
  else throw .outOfBounds

/-- `ctx.outputs[c][i]`, read. -/
def output (c i : Nat) : Access α α := do
  let f ← get
  let out ← nth f.outputs c
  nth out i

/-- `ctx.outputs[c][i] = x`. -/
def setOutput (c i : Nat) (x : α) : Access α Unit := do
  let f ← get
  let out ← nth f.outputs c
  if i < out.length then set { f with outputs := f.outputs.set c (out.set i x) }
  else throw .outOfBounds

/-- `ctx.inputs[c][i]`. -/
def input (ctx : ProcessingContext α) (c i : Nat) : Access α α := do
  let view ← nth ctx.inputs c
  nth view i

/-- `ctx.params[p].at(i)`. -/
def param [Sample α] (ctx : ProcessingContext α) (p i : Nat) : Access α α := do
  let view ← nth ctx.params p
  match view.buffer with
  | some b => nth b i
  | none   => pure (view.base + view.inc * Sample.cast i)

/-- `ctx.params[p].first()`. -/
def paramFirst (ctx : ProcessingContext α) (p : Nat) : Access α α := do
  let view ← nth ctx.params p
  match view.buffer with
  | some b => nth b 0
  | none   => pure view.base

/-- `for (i = 0; i < n; ++i)`. -/
def loop (n : Nat) (body : Nat → Access α Unit) : Access α Unit := (List.range n).forM body

/-- `for (i : indices) sum += f(i)`, from 0. -/
def sumOver [Zero α] [Add α] (indices : List Nat) (f : Nat → Access α α) : Access α α :=
  indices.foldlM (fun sum i => do
    let x ← f i
    return sum + x) 0

end Access

/-- A node's `process`, run: what its code leaves in the state block and the output views. -/
def Access.run {α : Type} (code : ProcessingContext α → Access α Unit) (s : StateBlock α)
    (ctx : ProcessingContext α) : StateBlock α × List (List α) :=
  match StateT.run (code ctx) ⟨s, ctx.outputs⟩ with
  | .ok (_, f) => (f.state, f.outputs)
  | .error _   => (s, ctx.outputs)

end Xrune
