import Xrune.Lang.Registry

/-!
# Nodes — the code of the standard nodes

The `process` of every node of the registry, written with checked accesses.  Most nodes write
each output channel of each sample from what they read at that sample (`perSample`).
-/

namespace Xrune.Nodes

open Access

variable {α : Type} [Sample α]

/-- For every sample `i` and output `c`: `ctx.outputs[c][i] = f(c, i)`. -/
def perSample (outs : Nat) (f : ProcessingContext α → Nat → Nat → Access α α)
    (ctx : ProcessingContext α) : Access α Unit :=
  loop ctx.blockSize fun i => loop outs fun c => do
    let x ← f ctx c i
    setOutput c i x

section Sources

variable [Trig α]

def oscillatorCode (ctx : ProcessingContext α) : Access α Unit := do
  let twoPi := Sample.cast 2 * Trig.pi
  let k : α := twoPi / Sample.cast ctx.sampleRate
  loop ctx.blockSize fun i => do
    let phase ← cell 0
    setOutput 0 i (Trig.sin phase)
    let freq ← param ctx 0 i
    let next := phase + k * freq
    setCell 0
      (if Sample.le twoPi next then next - twoPi
       else if Sample.lt next 0 then next + twoPi else next)

def panCode : ProcessingContext α → Access α Unit :=
  perSample 2 fun ctx c i => do
    let value ← param ctx 0 i
    let p := Sample.clamp value (-1) 1
    let angle := (p + 1) * Trig.pi * Sample.ratio 1 4
    let x ← input ctx 0 i
    return if c = 0 then x * Trig.cos angle else x * Trig.sin angle

end Sources

def gainCode : ProcessingContext α → Access α Unit :=
  perSample 1 fun ctx _ i => do
    let x ← input ctx 0 i
    let v ← param ctx 0 i
    return x * v

def mixerCode (ins : Nat) : ProcessingContext α → Access α Unit :=
  perSample 1 fun ctx _ i => Access.sumOver (List.range ins) fun ch => input ctx ch i

def stereoMixerCode (ins : Nat) : ProcessingContext α → Access α Unit :=
  perSample 2 fun ctx c i => Access.sumOver (List.range ins) fun ch => input ctx (ch * 2 + c) i

def stereoFaderCode : ProcessingContext α → Access α Unit :=
  perSample 2 fun ctx c i => do
    let v ← param ctx 0 i
    let x ← input ctx c i
    return x * v

def busInputCode (_ : ProcessingContext α) : Access α Unit := pure ()

/-- `a > b && (a % b) == 0`. -/
def multipleOf (a b : Nat) : Access α Bool :=
  if b < a then do
    let r ← modulo a b
    return r == 0
  else pure false

/-- `channel_adapter`: the remainders are taken once, before any sample. -/
def channelAdapterCode (ins outs : Nat) (ctx : ProcessingContext α) : Access α Unit := do
  if outs = 1 then
    loop ctx.blockSize fun i => do
      let sum ← Access.sumOver (List.range ins) fun ch => input ctx ch i
      setOutput 0 i sum
  else if ins = 1 then
    loop outs fun ch => loop ctx.blockSize fun i => do
      let x ← input ctx 0 i
      setOutput ch i x
  else
    let folds ← multipleOf ins outs
    if folds then
      loop outs fun o => loop ctx.blockSize fun s => do
        -- the inputs o, o + outs, o + 2 * outs, .. below ins
        let sum ← Access.sumOver ((List.range (ins / outs)).map fun k => o + k * outs)
          fun i => input ctx i s
        setOutput o s sum
    else
      let spreads ← multipleOf outs ins
      if spreads then
        loop outs fun o => do
          let i ← modulo o ins
          loop ctx.blockSize fun s => do
            let x ← input ctx i s
            setOutput o s x
      else
        loop outs fun o => loop ctx.blockSize fun s => do
          let x ← input ctx (min o (ins - 1)) s
          setOutput o s x

def monoToStereoCode : ProcessingContext α → Access α Unit :=
  perSample 2 fun ctx _ i => input ctx 0 i

def stereoToMonoCode : ProcessingContext α → Access α Unit :=
  perSample 1 fun ctx _ i => do
    let l ← input ctx 0 i
    let r ← input ctx 1 i
    return (l + r) * Sample.ratio 1 2

def inverterCode : ProcessingContext α → Access α Unit :=
  perSample 1 fun ctx _ i => do
    let x ← input ctx 0 i
    return -x

def stereoInverterCode : ProcessingContext α → Access α Unit :=
  perSample 2 fun ctx c i => do
    let x ← input ctx c i
    return -x

def addCode : ProcessingContext α → Access α Unit :=
  perSample 1 fun ctx _ i => do
    let x ← input ctx 0 i
    let y ← input ctx 1 i
    return x + y

def divideCode : ProcessingContext α → Access α Unit :=
  perSample 1 fun ctx _ i => do
    let d ← input ctx 1 i
    let x ← input ctx 0 i
    return quotient x d

def cutCode (_ : ProcessingContext α) : Access α Unit := pure ()

def multiplyCode : ProcessingContext α → Access α Unit :=
  perSample 1 fun ctx _ i => do
    let x ← input ctx 0 i
    let y ← input ctx 1 i
    return x * y

def constantCode : ProcessingContext α → Access α Unit :=
  perSample 1 fun ctx _ i => param ctx 0 i

def whiteNoiseCode (ctx : ProcessingContext α) : Access α Unit := do
  let seed ← word 0
  let seed ← (List.range ctx.blockSize).foldlM (fun seed i => do
    let (next, x) := noiseTurn (α := α) seed
    setOutput 0 i x
    return next) seed
  setWord 0 seed

def callCounterCode (ctx : ProcessingContext α) : Access α Unit := do
  let calls ← word 0
  setWord 0 (calls + 1)
  loop ctx.blockSize fun i => do
    let x ← input ctx 0 i
    setOutput 0 i x

def sampleAndHoldCode (ctx : ProcessingContext α) : Access α Unit := do
  let rate ← paramFirst ctx 0
  if Sample.le rate 0 then
    if Sample.lt rate 0 ∧ 0 < ctx.blockSize then do
      let x ← input ctx 0 0
      setCell 0 x
    loop ctx.blockSize fun i => do
      let held ← cell 0
      setOutput 0 i held
  else
    let interval := max 1 (Sample.toSize (Sample.cast ctx.sampleRate / rate))
    loop ctx.blockSize fun i => do
      let counter ← word 0
      if counter = 0 then do
        let x ← input ctx 0 i
        setCell 0 x
      let held ← cell 0
      setOutput 0 i held
      setWord 0 (if interval ≤ counter + 1 then 0 else counter + 1)

end Xrune.Nodes

namespace Xrune.Lang

open Nodes

variable {α : Type} [Sample α] [Trig α]

/-- The code of the node a factory of `standardRegistry` makes. -/
def standardCode : List (String × (NodeArgs α → ProcessingContext α → Access α Unit)) := [
  ("sine", fun _ => oscillatorCode),
  ("noise", fun _ => whiteNoiseCode),
  ("constant", fun _ => constantCode),
  ("gain", fun _ => gainCode),
  ("fader", fun _ => stereoFaderCode),
  ("pan", fun _ => panCode),
  ("mix", fun a => mixerCode (a.count "inputs" 0 2)),
  ("smix", fun a => stereoMixerCode (a.count "inputs" 0 2)),
  ("adapt", fun a => channelAdapterCode (a.count "inputs" 0 1) (a.count "outputs" 1 1)),
  ("m2s", fun _ => monoToStereoCode),
  ("s2m", fun _ => stereoToMonoCode),
  ("inv", fun _ => inverterCode),
  ("sinv", fun _ => stereoInverterCode),
  ("counter", fun _ => callCounterCode),
  ("add", fun _ => addCode),
  ("mul", fun _ => multiplyCode),
  ("div", fun _ => divideCode),
  ("cut", fun _ => cutCode),
  ("sah", fun _ => sampleAndHoldCode),
  ("bus", fun _ => busInputCode),
  ("up2", fun _ => upsampler2Code),
  ("down2", fun _ => downsampler2Code),
  ("downbloc", fun _ => downblocCode),
  ("stft", fun a => olaStftCode (a.count "size" 0 1024)),
  ("stft_fwd", fun a => stftForwardCode (a.count "size" 0 1024) (a.count "channels" 1 1)),
  ("stft_bwd", fun a => stftBackwardCode (a.count "size" 0 1024) (a.count "channels" 1 1))]

end Xrune.Lang
