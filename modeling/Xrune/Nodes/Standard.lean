import Xrune.Core.Node

/-!
# Nodes — standard nodes

The stateless arithmetic and routing nodes, the sources, and the two small stateful nodes.
-/

namespace Xrune.Nodes

variable {α : Type} [Sample α]

/-- `1e30`, the bound of a port that takes any value. -/
def huge : α := Sample.cast (10 ^ 30)

/-- A sum accumulated from 0, as the channel loops do. -/
def sumOver (l : List Nat) (f : Nat → α) : α := l.foldl (fun sum ch => sum + f ch) 0

section Sources

variable [Trig α]

/-- `oscillator`.  The state cell is the phase. -/
def oscillator (freq : α) : Node α where
  typeName := "sine"
  inputsCount := 0
  outputsCount := 1
  params := [⟨"freq", Sample.cast 440, 0, Sample.cast 20000⟩]
  paramDefault i := if i = 0 then freq else 0
  stateSize := 8
  initState := { cells := [0] }
  process s ctx :=
    let twoPi := Sample.cast 2 * Trig.pi
    let k := twoPi / Sample.cast ctx.sampleRate
    let r := blockLoop ctx.blockSize (fun i phase =>
      let next := phase + k * ctx.param 0 i
      let wrapped :=
        if Sample.le twoPi next then next - twoPi
        else if Sample.lt next 0 then next + twoPi else next
      (wrapped, Trig.sin phase)) (s.cells.getD 0 0)
    ({ s with cells := s.cells.set 0 r.1 }, [r.2])

/-- `pan`. -/
def pan (pos : α) : Node α where
  typeName := "pan"
  inputsCount := 1
  outputsCount := 2
  params := [⟨"pan", 0, -1, 1⟩]
  paramDefault i := if i = 0 then pos else 0
  process := sampleWise 2 fun ctx c i =>
    let p := Sample.clamp (ctx.param 0 i) (-1) 1
    let angle := (p + 1) * Trig.pi * Sample.ratio 1 4
    if c = 0 then ctx.input 0 i * Trig.cos angle else ctx.input 0 i * Trig.sin angle

end Sources

/-- `gain`. -/
def gain (v : α) : Node α where
  typeName := "gain"
  inputsCount := 1
  outputsCount := 1
  params := [⟨"gain", 1, -huge, huge⟩]
  paramDefault i := if i = 0 then v else 1
  process := sampleWise 1 fun ctx _ i => ctx.input 0 i * ctx.param 0 i

/-- `mixer`. -/
def mixer (ins : Nat) : Node α where
  typeName := "mix"
  inputsCount := ins
  outputsCount := 1
  paramDefault _ := 0
  configArgs := [("inputs", ins)]
  process := sampleWise 1 fun ctx _ i => sumOver (List.range ins) fun ch => ctx.input ch i

/-- `stereo_mixer`: `ins` stereo pairs. -/
def stereoMixer (ins : Nat) : Node α where
  typeName := "smix"
  inputsCount := sizeT (ins * 2)
  outputsCount := 2
  paramDefault _ := 0
  configArgs := [("inputs", ins)]
  process := sampleWise 2 fun ctx c i =>
    sumOver (List.range ins) fun ch => ctx.input (ch * 2 + c) i

/-- `stereo_fader`. -/
def stereoFader (vol : α) : Node α where
  typeName := "fader"
  inputsCount := 2
  outputsCount := 2
  params := [⟨"volume", 1, 0, huge⟩]
  paramDefault i := if i = 0 then vol else 1
  process := sampleWise 2 fun ctx c i => ctx.input c i * ctx.param 0 i

/-- `bus_input`: its outputs are the engine's to fill. -/
def busInput (channels : Nat) : Node α where
  typeName := "bus"
  inputsCount := 0
  outputsCount := channels
  paramDefault _ := 0
  configArgs := [("channels", channels)]
  process s ctx := (s, ctx.outputs)

/-- The output `o` of `channel_adapter` at one sample. -/
def adapt (ins outs : Nat) (input : Nat → α) (o : Nat) : α :=
  if outs = 1 then sumOver (List.range ins) input
  else if ins = 1 then input 0
  else if outs < ins ∧ ins % outs = 0 then
    -- the inputs o, o + outs, o + 2 * outs, .. below ins
    sumOver (List.range (ins / outs)) fun k => input (o + k * outs)
  else if ins < outs ∧ outs % ins = 0 then input (o % ins)
  else input (min o (ins - 1))

/-- `channel_adapter`. -/
def channelAdapter (ins outs : Nat) : Node α where
  typeName := "adapt"
  inputsCount := ins
  outputsCount := outs
  paramDefault _ := 0
  configArgs := [("inputs", ins), ("outputs", outs)]
  process := sampleWise outs fun ctx o s => adapt ins outs (fun ch => ctx.input ch s) o

/-- `mono_to_stereo`. -/
def monoToStereo : Node α where
  typeName := "m2s"
  inputsCount := 1
  outputsCount := 2
  paramDefault _ := 0
  process := sampleWise 2 fun ctx _ i => ctx.input 0 i

/-- `stereo_to_mono`. -/
def stereoToMono : Node α where
  typeName := "s2m"
  inputsCount := 2
  outputsCount := 1
  paramDefault _ := 0
  process := sampleWise 1 fun ctx _ i => (ctx.input 0 i + ctx.input 1 i) * Sample.ratio 1 2

/-- `inverter`. -/
def inverter : Node α where
  typeName := "inv"
  inputsCount := 1
  outputsCount := 1
  paramDefault _ := 0
  process := sampleWise 1 fun ctx _ i => -ctx.input 0 i

/-- `stereo_inverter`. -/
def stereoInverter : Node α where
  typeName := "sinv"
  inputsCount := 2
  outputsCount := 2
  paramDefault _ := 0
  process := sampleWise 2 fun ctx c i => -ctx.input c i

def add : Node α where
  typeName := "add"
  inputsCount := 2
  outputsCount := 1
  paramDefault _ := 0
  process := sampleWise 1 fun ctx _ i => ctx.input 0 i + ctx.input 1 i

/-- The quotient of two samples, 0 by a zero divisor. -/
def quotient (a d : α) : α := if Sample.same d 0 then 0 else a / d

/-- `divide`. -/
def divide : Node α where
  typeName := "div"
  inputsCount := 2
  outputsCount := 1
  paramDefault _ := 0
  process := sampleWise 1 fun ctx _ i => quotient (ctx.input 0 i) (ctx.input 1 i)

/-- `cut`. -/
def cut : Node α where
  typeName := "cut"
  inputsCount := 1
  outputsCount := 0
  paramDefault _ := 0
  process s _ := (s, [])

def multiply : Node α where
  typeName := "mul"
  inputsCount := 2
  outputsCount := 1
  paramDefault _ := 0
  process := sampleWise 1 fun ctx _ i => ctx.input 0 i * ctx.input 1 i

def constant (v : α) : Node α where
  typeName := "constant"
  inputsCount := 0
  outputsCount := 1
  params := [⟨"value", 1, -huge, huge⟩]
  paramDefault i := if i = 0 then v else 0
  process := sampleWise 1 fun ctx _ i => ctx.param 0 i

/-- One turn of the noise generator: the next seed and the sample. -/
def noiseTurn (seed : Nat) : Nat × α :=
  let s := seed ^^^ (seed >>> 12)
  let s := s ^^^ ((s <<< 25) % 2 ^ 64)
  let s := s ^^^ (s >>> 27)
  let r := (s * 0x2545F4914F6CDD1D) % 2 ^ 64
  let val : α := Sample.cast (r >>> 11) * Sample.ratio 1 9007199254740992
  (s, val * Sample.cast 2 - 1)

/-- `white_noise`.  The state word is the seed. -/
def whiteNoise (seed : Nat) : Node α where
  typeName := "noise"
  inputsCount := 0
  outputsCount := 1
  paramDefault _ := 0
  stateSize := 8
  initState := { words := [seed] }
  process s ctx :=
    let r := blockLoop ctx.blockSize (fun _ seed => noiseTurn seed) (s.words.getD 0 0)
    ({ s with words := s.words.set 0 r.1 }, [r.2])

/-- `call_counter`: a passthrough that counts its calls. -/
def callCounter : Node α where
  typeName := "counter"
  inputsCount := 1
  outputsCount := 1
  paramDefault _ := 0
  stateSize := 8
  initState := { words := [0] }
  process s ctx :=
    ({ s with words := s.words.set 0 (s.words.getD 0 0 + 1) },
      [(List.range ctx.blockSize).map (ctx.input 0)])

/-- `sample_and_hold`.  The state is the held sample and the counter. -/
def sampleAndHold (rate : α) : Node α where
  typeName := "sah"
  inputsCount := 1
  outputsCount := 1
  params := [⟨"rate", 1, -huge, huge⟩]
  paramDefault i := if i = 0 then rate else 1
  stateSize := 16
  initState := { cells := [0], words := [0] }
  process s ctx :=
    let rate := ctx.paramFirst 0
    let held := s.cells.getD 0 0
    if Sample.le rate 0 then
      let held := if Sample.lt rate 0 ∧ 0 < ctx.blockSize then ctx.input 0 0 else held
      ({ s with cells := s.cells.set 0 held }, [List.replicate ctx.blockSize held])
    else
      let interval := max 1 (Sample.toSize (Sample.cast ctx.sampleRate / rate))
      let r := blockLoop ctx.blockSize (fun i (st : α × Nat) =>
        let held := if st.2 = 0 then ctx.input 0 i else st.1
        let counter := st.2 + 1
        ((held, if interval ≤ counter then 0 else counter), held)) (held, s.words.getD 0 0)
      (⟨s.cells.set 0 r.1.1, s.words.set 0 r.1.2⟩, [r.2])

end Xrune.Nodes
