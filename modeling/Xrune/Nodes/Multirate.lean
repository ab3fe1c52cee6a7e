import Xrune.Nodes.Access

/-!
# Nodes — multi-rate adapters

The sample-rate boundaries (`upsampler2`, `downsampler2`) with the half-band filter they share,
and the block-size boundary (`downbloc`).
-/

namespace Xrune.Nodes

open Access

variable {α : Type} [Sample α]

/-- `HB_N`, the length of the filter. -/
def hbN : Nat := 31

/-- `HB_CENTER`. -/
def hbCenter : Nat := (hbN - 1) / 2

/-- `n - HB_CENTER`, as a sample. -/
def hbOffset (n : Nat) : α :=
  if n < hbCenter then -Sample.cast (hbCenter - n) else Sample.cast (n - hbCenter)

/-- Whether `n - HB_CENTER` is odd: the taps that are not zero, the center apart. -/
def hbOdd (n : Nat) : Bool := (n + hbCenter) % 2 != 0

/-- `halfband_kernel`: a windowed sinc, its odd taps scaled to sum to a half. -/
def halfbandKernel [Trig α] : List α :=
  let half : α := Sample.ratio 1 2
  let tap (n : Nat) : α :=
    if n = hbCenter then half
    else if !hbOdd n then 0
    else
      let x := Trig.pi * hbOffset n / Sample.cast 2
      let sinc := Trig.sin x / x
      let w := Sample.ratio 42 100
        - half * Trig.cos (Sample.cast 2 * Trig.pi * Sample.cast n / Sample.cast (hbN - 1))
        + Sample.ratio 8 100 *
          Trig.cos (Sample.cast 4 * Trig.pi * Sample.cast n / Sample.cast (hbN - 1))
      half * sinc * w
  let oddSum := (List.range hbN).foldl (fun s n => if hbOdd n then s + tap n else s) 0
  (List.range hbN).map fun n => if hbOdd n then tap n * (half / oddSum) else tap n

/-- `halfband_state`: the delay line and the position. -/
def halfbandReset : StateBlock α := ⟨List.replicate hbN 0, [0]⟩

/-- `halfband_step`: push one sample, return the filtered output. -/
def halfbandStep [Trig α] (x : α) : Access α α := do
  let pos ← word 0
  setCell pos x
  let mac (acc : α × Nat) (k : Nat) : Access α (α × Nat) := do
    let h ← nth halfbandKernel k
    let z ← cell acc.2
    return (acc.1 + h * z, if acc.2 = 0 then hbN - 1 else acc.2 - 1)
  let acc ← (List.range hbN).foldlM mac (0, pos)
  let next ← modulo (pos + 1) hbN
  setWord 0 next
  return acc.1

/-- `in.size` of the view of input `c`. -/
def inputSize (ctx : ProcessingContext α) (c : Nat) : Nat := (ctx.inputs.getD c []).length

def upsampler2Code [Trig α] (ctx : ProcessingContext α) : Access α Unit :=
  loop (inputSize ctx 0) fun j => do
    let x ← input ctx 0 j
    let y ← halfbandStep x
    setOutput 0 (2 * j) (Sample.cast 2 * y)
    let z ← halfbandStep 0
    setOutput 0 (2 * j + 1) (Sample.cast 2 * z)

/-- `upsampler2`: one input at rate R, one output at rate 2R. -/
def upsampler2 [Trig α] : Node α where
  typeName := "up2"
  inputsCount := 1
  outputsCount := 1
  paramDefault _ := 0
  rateNum := 2
  stateSize := 8 * (hbN + 1)
  initState := halfbandReset
  process := Access.run upsampler2Code

def downsampler2Code [Trig α] (ctx : ProcessingContext α) : Access α Unit :=
  loop (inputSize ctx 0) fun i => do
    let x ← input ctx 0 i
    let y ← halfbandStep x
    if i % 2 = 0 then setOutput 0 (i / 2) y

/-- `downsampler2`: one input at rate R, one output at rate R/2. -/
def downsampler2 [Trig α] : Node α where
  typeName := "down2"
  inputsCount := 1
  outputsCount := 1
  paramDefault _ := 0
  rateDen := 2
  stateSize := 8 * (hbN + 1)
  initState := halfbandReset
  process := Access.run downsampler2Code

def downblocCode (ctx : ProcessingContext α) : Access α Unit :=
  loop ctx.blockSize fun i => do
    let x ← input ctx 0 i
    setOutput 0 i x

/-- `downbloc`: the identity, at half the block. -/
def downbloc : Node α where
  typeName := "downbloc"
  inputsCount := 1
  outputsCount := 1
  paramDefault _ := 0
  blockDen := 2
  process := Access.run downblocCode

end Xrune.Nodes
