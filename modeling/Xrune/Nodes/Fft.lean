import Xrune.Nodes.Access

/-!
# Nodes — Fourier transforms

The radix-2 plan (`fft_plan`) and the nodes over it: the overlap-add transform (`ola_stft`) and
its two block-rate halves.  The arrays of the overlap-add node are laid out one after another in
its state block, so an index that leaves one of them may fall into the next.
-/

namespace Xrune.Nodes

open Access

variable {α : Type} [Sample α]

/-- `fft_plan`: the bit-reversal permutation and the twiddle factors of a size. -/
structure FftPlan (α : Type) where
  n : Nat
  brev : List Nat
  twCos : List α
  twSin : List α

/-- `levels`, the least exponent with `n ≤ 2 ^ levels`. -/
def fftLevels (n : Nat) : Nat := Nat.clog 2 n

/-- The `levels` low bits of `i`, reversed. -/
def bitReverse (levels i : Nat) : Nat :=
  (List.range levels).foldl
    (fun r b => if i.testBit b then r ||| 2 ^ (levels - 1 - b) else r) 0

/-- `2.0 * PI * k / n`. -/
def fftAngle [Trig α] (n k : Nat) : α :=
  Sample.cast 2 * Trig.pi * Sample.cast k / Sample.cast n

/-- `fft_plan::init`. -/
def FftPlan.init [Trig α] (size : Nat) : FftPlan α where
  n := size
  brev := (List.range size).map (bitReverse (fftLevels size))
  twCos := (List.range (size / 2)).map fun k => Trig.cos (fftAngle size k)
  twSin := (List.range (size / 2)).map fun k => Trig.sin (fftAngle size k)

/-- An array `transform` works on in place. -/
structure Lane (α : Type) where
  get : Nat → Access α α
  put : Nat → α → Access α Unit

/-- The state block from the sample `base` on. -/
def Lane.ofCells (base : Nat) : Lane α := ⟨fun i => cell (base + i), fun i => setCell (base + i)⟩

/-- The output view `c`. -/
def Lane.ofOutput (c : Nat) : Lane α := ⟨output c, setOutput c⟩

/-- `std::swap(l[i], l[j])`. -/
def Lane.swap (l : Lane α) (i j : Nat) : Access α Unit := do
  let x ← l.get i
  let y ← l.get j
  l.put i y
  l.put j x

/-- The lengths `2, 4, 8, ..` up to `n`. -/
def fftLengths (n : Nat) : List Nat := (List.range (Nat.log 2 n)).map fun k => 2 ^ (k + 1)

/-- The starts `0, len, 2 * len, ..` below `n`. -/
def fftStarts (n len : Nat) : List Nat := (List.range ((n + len - 1) / len)).map fun k => k * len

namespace FftPlan

variable (p : FftPlan α) (re im : Lane α) (inv : Bool)

/-- The butterfly at `a` and `b` with the twiddle factor `k`. -/
def butterfly (k a b : Nat) : Access α Unit := do
  let wr ← nth p.twCos k
  let sin ← nth p.twSin k
  let wi := if inv then sin else -sin
  let reB ← re.get b
  let imB ← im.get b
  let tr := wr * reB - wi * imB
  let ti := wr * imB + wi * reB
  let reA ← re.get a
  let imA ← im.get a
  re.put b (reA - tr)
  im.put b (imA - ti)
  re.put a (reA + tr)
  im.put a (imA + ti)

/-- One pass over the arrays, with butterflies of the length `len`. -/
def pass (len : Nat) : Access α Unit := do
  let half := len / 2
  let step ← divide p.n len
  (fftStarts p.n len).forM fun i =>
    loop half fun j => p.butterfly re im inv (j * step) (i + j) (i + j + half)

def permute : Access α Unit :=
  loop p.n fun i => do
    let j ← nth p.brev i
    if i < j then do
      re.swap i j
      im.swap i j

def scale : Access α Unit :=
  let s : α := 1 / Sample.cast p.n
  loop p.n fun i => do
    let x ← re.get i
    re.put i (x * s)
    let y ← im.get i
    im.put i (y * s)

def transform : Access α Unit := do
  p.permute re im
  (fftLengths p.n).forM (p.pass re im inv)
  if inv then p.scale re im

def forward : Access α Unit := p.transform re im false
def inverse : Access α Unit := p.transform re im true

end FftPlan

/-- The Hann window of `ola_stft`. -/
def hannWindow [Trig α] (n : Nat) : List α :=
  (List.range n).map fun i => Sample.ratio 1 2 * (1 - Trig.cos (fftAngle n i))

/-- A sample of a frame of `ola_stft` that starts at the time `start`, windowed. -/
def olaWindowed [Trig α] (n start i : Nat) : Access α Unit := do
  let slot ← modulo ((start + i) % 2 ^ 64) n
  let x ← cell slot
  let w ← nth (hannWindow n) i
  (Lane.ofCells (3 * n)).put i (x * w)
  (Lane.ofCells (4 * n)).put i 0

/-- The frame: windowed, transformed, transformed back and added to the output ring. -/
def olaFrame [Trig α] (n start : Nat) : Access α Unit := do
  let re := Lane.ofCells (3 * n)
  let im := Lane.ofCells (4 * n)
  loop n (olaWindowed n start)
  (FftPlan.init n).forward re im
  (FftPlan.init n).inverse re im
  loop n fun i => do
    let slot ← modulo ((start + i) % 2 ^ 64) (2 * n)
    let x ← cell (n + slot)
    let y ← re.get i
    setCell (n + slot) (x + y)

/-- The output sample at the time `t`, fully overlapped: read, its slot cleared. -/
def olaEmit (n k t : Nat) : Access α Unit := do
  if n - 1 ≤ t then do
    let idx ← modulo (t - (n - 1)) (2 * n)
    let out ← cell (n + idx)
    setCell (n + idx) 0
    setOutput 0 k out
  else setOutput 0 k 0
  setWord 0 ((t + 1) % 2 ^ 64)

/-- One sample of `ola_stft`.  The state block holds the input ring, the output ring of twice
its length, and the two arrays of the transform. -/
def olaTurn [Trig α] (n : Nat) (ctx : ProcessingContext α) (k : Nat) : Access α Unit := do
  let t ← word 0
  let slot ← modulo t n
  let x ← input ctx 0 k
  setCell slot x
  if n - 1 ≤ t then do
    let phase ← modulo (t - (n - 1)) (n / 2)
    if phase = 0 then olaFrame n (t - (n - 1))
  olaEmit n k t

def olaStftCode [Trig α] (n : Nat) (ctx : ProcessingContext α) : Access α Unit :=
  loop ctx.blockSize (olaTurn n ctx)

/-- `ola_stft::state_size`, in bytes: the counter and the four arrays. -/
def olaStateSize (n : Nat) : Nat := sizeT (8 + 5 * n * 8)

/-- `ola_stft`.  The state block has the samples its size leaves after the counter. -/
def olaStft [Trig α] (n : Nat) : Node α where
  typeName := "stft"
  inputsCount := 1
  outputsCount := 1
  paramDefault _ := 0
  configArgs := [("size", n)]
  stateSize := olaStateSize n
  initState := ⟨List.replicate ((olaStateSize n - 8) / 8) 0, [0]⟩
  process := Access.run (olaStftCode n)

/-- The outputs of a node set to silence, as a misconfigured transform does. -/
def silence (outs : Nat) (ctx : ProcessingContext α) : Access α Unit :=
  loop outs fun o => loop ctx.blockSize fun i => setOutput o i 0

/-- Sample `i` of input `c`, as a complex number on a pair of outputs. -/
def stftForwardLoad (ctx : ProcessingContext α) (c i : Nat) : Access α Unit := do
  let x ← input ctx c i
  (Lane.ofOutput (2 * c)).put i x
  (Lane.ofOutput (2 * c + 1)).put i 0

def stftForwardTurn [Trig α] (n : Nat) (ctx : ProcessingContext α) (c : Nat) : Access α Unit := do
  loop n (stftForwardLoad ctx c)
  (FftPlan.init n).forward (Lane.ofOutput (2 * c)) (Lane.ofOutput (2 * c + 1))

def stftForwardCode [Trig α] (n channels : Nat) (ctx : ProcessingContext α) : Access α Unit :=
  if ctx.blockSize ≠ n then silence (sizeT (channels * 2)) ctx
  else loop channels (stftForwardTurn n ctx)

/-- `stft_forward`: `channels` real inputs, their spectra as pairs of outputs. -/
def stftForward [Trig α] (n channels : Nat) : Node α where
  typeName := "stft_fwd"
  inputsCount := channels
  outputsCount := sizeT (channels * 2)
  paramDefault _ := 0
  configArgs := [("size", n), ("channels", channels)]
  process := Access.run (stftForwardCode n channels)

/-- Sample `i` of a pair of inputs, its imaginary part in the state block. -/
def stftBackwardLoad (n : Nat) (ctx : ProcessingContext α) (c i : Nat) : Access α Unit := do
  let x ← input ctx (2 * c) i
  let y ← input ctx (2 * c + 1) i
  (Lane.ofOutput c).put i x
  (Lane.ofCells (c * n)).put i y

def stftBackwardTurn [Trig α] (n : Nat) (ctx : ProcessingContext α) (c : Nat) : Access α Unit := do
  loop n (stftBackwardLoad n ctx c)
  (FftPlan.init n).inverse (Lane.ofOutput c) (Lane.ofCells (c * n))

def stftBackwardCode [Trig α] (n channels : Nat) (ctx : ProcessingContext α) : Access α Unit :=
  if ctx.blockSize ≠ n then silence channels ctx
  else loop channels (stftBackwardTurn n ctx)

/-- `stft_backward`: pairs of inputs, the signals they are spectra of. -/
def stftBackward [Trig α] (n channels : Nat) : Node α where
  typeName := "stft_bwd"
  inputsCount := sizeT (channels * 2)
  outputsCount := channels
  paramDefault _ := 0
  configArgs := [("size", n), ("channels", channels)]
  stateSize := sizeT (channels * n * 8)
  initState := { cells := List.replicate (sizeT (channels * n * 8) / 8) 0 }
  process := Access.run (stftBackwardCode n channels)

end Xrune.Nodes
