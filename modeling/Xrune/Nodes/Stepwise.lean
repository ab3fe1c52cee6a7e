import Xrune.Schedule.Machines
import Xrune.Nodes.Halfband
import Xrune.Lang.Registry

/-!
# Nodes — the machines of the standard nodes

Most standard nodes work sample by sample: what a call leaves is what a machine plays, whatever
the size of the call.  The nodes without a state apply a function to each sample
(`realises_pointwise`), the generators keep a phase or a seed, and the rate converters keep what
they have read.  Not among them are the nodes that look at the call itself: `counter`, `sah`, `bus`
and the spectral nodes.
-/

namespace Xrune

variable {α : Type}

/-- A loop that takes one step of a machine a turn. -/
theorem blockLoop_eq {σ ι ο β : Type} (M : Mealy σ ι ο) (read : ο → β) (x : Nat → ι) (s : σ)
    (n : Nat) : blockLoop n (fun i s => ((M.step s (x i)).1, read (M.step s (x i)).2)) s
      = (M.after s x n, (List.range n).map fun i => read (M.out s x i)) := by
  induction n with
  | zero => rfl
  | succ n ih =>
      rw [blockLoop] at ih ⊢
      rw [List.range_succ, List.foldl_append, ih, List.map_append]
      rfl

namespace SampleMachine

/-- The machine that makes of every sample of its inputs and its ports the sample `f` makes of
them. -/
def pointwise (f : (Nat → α) → (Nat → α) → Nat → α) : SampleMachine α where
  State := Unit
  start := ()
  step _ _ x := ((), fun c _ => f (fun d => x.input d 0) (fun q => x.port q 0) c)
  Holds _ _ := True

@[simp] theorem play_pointwise (f : (Nat → α) → (Nat → α) → Nat → α) (rate : Nat)
    (s : (pointwise f).State) (x p : Nat → Nat → α) (c t : Nat) :
    (pointwise f).play rate s x p c t = f (fun d => x d t) (fun q => p q t) c := by
  simp [play, Mealy.out, mealy, feed, pointwise]

/-- The machine of a source with one output: a turn is given the rate and the ports. -/
def generator {σ : Type} (start : σ) (turn : Nat → σ → (Nat → α) → σ × α)
    (Holds : σ → StateBlock α → Prop) : SampleMachine α where
  State := σ
  start := start
  step rate s x :=
    ((turn rate s fun q => x.port q 0).1, fun _ _ => (turn rate s fun q => x.port q 0).2)
  Holds := Holds

/-- The loop of a source is its machine. -/
theorem blockLoop_generator {σ : Type} (start : σ) (turn : Nat → σ → (Nat → α) → σ × α)
    (Holds : σ → StateBlock α → Prop) (rate : Nat) (x p : Nat → Nat → α) (s : σ) (n : Nat) :
    blockLoop n (fun i s => turn rate s fun q => p q i) s
      = ((generator start turn Holds).stateAt rate s x p n,
        (List.range n).map ((generator start turn Holds).play rate s x p 0)) := by
  let M := generator start turn Holds
  have body : (fun i s => turn rate s fun q => p q i)
      = fun i s => (((M.mealy rate).step s (M.feed x p i)).1,
        ((M.mealy rate).step s (M.feed x p i)).2 0 0) := by
    funext i s
    simp [M, generator, mealy, feed]
  refine (congrArg (fun b => blockLoop n b s) body).trans
    ((blockLoop_eq (M.mealy rate) (fun y => y 0 0) (M.feed x p) s n).trans ?_)
  refine Prod.ext rfl (List.map_congr_left fun t _ => ?_)
  show _ = (M.mealy rate).out s (M.feed x p) (t / 1) 0 (t % 1)
  rw [Nat.div_one, Nat.mod_one]

end SampleMachine

namespace Nodes

variable [Sample α]

/-! ### Nodes without a state -/

theorem realises_pointwise {nd : Node α} {outs : Nat}
    {g : ProcessingContext α → Nat → Nat → α} {f : (Nat → α) → (Nat → α) → Nat → α}
    (code : nd.process = sampleWise outs g) (count : nd.outputsCount = outs)
    (rate : nd.rateNum = 1 ∧ nd.rateDen = 1)
    (same : ∀ ctx c i, g ctx c i = f (fun d => ctx.input d i) (fun q => ctx.param q i) c) :
    nd.Realises (.pointwise f) where
  num := rate.1
  den := rate.2
  init := trivial
  call {m s st ctx} _ handed := by
    refine ⟨trivial, fun c hc => ?_⟩
    rw [code, sampleWise, handed.block]
    refine (getD_map_range _ (count ▸ hc) []).trans (List.map_congr_left fun i _ => ?_)
    rw [same, SampleMachine.play_pointwise]

theorem realises_gain (v : α) : (gain v).Realises (.pointwise fun x p _ => x 0 * p 0) :=
  realises_pointwise rfl rfl ⟨rfl, rfl⟩ fun _ _ _ => rfl

theorem realises_constant (v : α) : (constant v).Realises (.pointwise fun _ p _ => p 0) :=
  realises_pointwise rfl rfl ⟨rfl, rfl⟩ fun _ _ _ => rfl

theorem realises_stereoFader (v : α) :
    (stereoFader v).Realises (.pointwise fun x p c => x c * p 0) :=
  realises_pointwise rfl rfl ⟨rfl, rfl⟩ fun _ _ _ => rfl

theorem realises_pan [Trig α] (v : α) : (pan v).Realises (.pointwise fun x p c =>
    let angle := (Sample.clamp (p 0) (-1) 1 + 1) * Trig.pi * Sample.ratio 1 4
    if c = 0 then x 0 * Trig.cos angle else x 0 * Trig.sin angle) :=
  realises_pointwise rfl rfl ⟨rfl, rfl⟩ fun _ _ _ => rfl

theorem realises_mixer (ins : Nat) :
    (mixer ins : Node α).Realises (.pointwise fun x _ _ => sumOver (List.range ins) x) :=
  realises_pointwise rfl rfl ⟨rfl, rfl⟩ fun _ _ _ => rfl

theorem realises_stereoMixer (ins : Nat) : (stereoMixer ins : Node α).Realises
    (.pointwise fun x _ c => sumOver (List.range ins) fun ch => x (ch * 2 + c)) :=
  realises_pointwise rfl rfl ⟨rfl, rfl⟩ fun _ _ _ => rfl

theorem realises_channelAdapter (ins outs : Nat) :
    (channelAdapter ins outs : Node α).Realises (.pointwise fun x _ c => adapt ins outs x c) :=
  realises_pointwise rfl rfl ⟨rfl, rfl⟩ fun _ _ _ => rfl

theorem realises_monoToStereo :
    (monoToStereo : Node α).Realises (.pointwise fun x _ _ => x 0) :=
  realises_pointwise rfl rfl ⟨rfl, rfl⟩ fun _ _ _ => rfl

theorem realises_stereoToMono : (stereoToMono : Node α).Realises
    (.pointwise fun x _ _ => (x 0 + x 1) * Sample.ratio 1 2) :=
  realises_pointwise rfl rfl ⟨rfl, rfl⟩ fun _ _ _ => rfl

theorem realises_inverter : (inverter : Node α).Realises (.pointwise fun x _ _ => -x 0) :=
  realises_pointwise rfl rfl ⟨rfl, rfl⟩ fun _ _ _ => rfl

theorem realises_stereoInverter :
    (stereoInverter : Node α).Realises (.pointwise fun x _ c => -x c) :=
  realises_pointwise rfl rfl ⟨rfl, rfl⟩ fun _ _ _ => rfl

theorem realises_add : (add : Node α).Realises (.pointwise fun x _ _ => x 0 + x 1) :=
  realises_pointwise rfl rfl ⟨rfl, rfl⟩ fun _ _ _ => rfl

theorem realises_multiply : (multiply : Node α).Realises (.pointwise fun x _ _ => x 0 * x 1) :=
  realises_pointwise rfl rfl ⟨rfl, rfl⟩ fun _ _ _ => rfl

theorem realises_divide :
    (divide : Node α).Realises (.pointwise fun x _ _ => quotient (x 0) (x 1)) :=
  realises_pointwise rfl rfl ⟨rfl, rfl⟩ fun _ _ _ => rfl

theorem realises_cut : (cut : Node α).Realises (.pointwise fun x _ _ => x 0) where
  num := rfl
  den := rfl
  init := trivial
  call _ _ := ⟨trivial, fun c hc => absurd hc (Nat.not_lt_zero c)⟩

/-! ### Generators -/

/-- A source whose code is the loop of its turns. -/
theorem realises_generator {nd : Node α} {σ : Type} {start : σ}
    {turn : Nat → σ → (Nat → α) → σ × α} {Holds : σ → StateBlock α → Prop}
    (rate : nd.rateNum = 1 ∧ nd.rateDen = 1) (count : nd.outputsCount = 1)
    (init : Holds start nd.initState)
    (code : ∀ s st ctx, Holds s st →
      let r := blockLoop ctx.blockSize (fun i s => turn ctx.sampleRate s fun q => ctx.param q i) s
      Holds r.1 (nd.process st ctx).1 ∧ (nd.process st ctx).2 = [r.2]) :
    nd.Realises (.generator start turn Holds) where
  num := rate.1
  den := rate.2
  init := init
  call {m s st ctx} holds handed := by
    have size : ctx.blockSize = m := by rw [handed.block, rate.1, mul_one]
    have loop := SampleMachine.blockLoop_generator start turn Holds ctx.sampleRate ctx.input
      ctx.param s m
    have leaves := code s st ctx holds
    rw [size] at leaves
    obtain ⟨state, outs⟩ := leaves
    have reached : Holds _ (nd.process st ctx).1 := congrArg Prod.fst loop ▸ state
    refine ⟨reached, fun c hc => ?_⟩
    obtain rfl : c = 0 := by omega
    rw [outs, rate.1, mul_one]
    exact congrArg Prod.snd loop

/-- A turn of the oscillator, on its phase. -/
def oscillatorTurn [Trig α] (rate : Nat) (phase : α) (p : Nat → α) : α × α :=
  let twoPi := Sample.cast 2 * Trig.pi
  let next := phase + twoPi / Sample.cast rate * p 0
  let wrapped :=
    if Sample.le twoPi next then next - twoPi
    else if Sample.lt next 0 then next + twoPi else next
  (wrapped, Trig.sin phase)

theorem realises_oscillator [Trig α] (freq : α) : (oscillator freq).Realises
    (.generator 0 oscillatorTurn fun phase st => st.cells[0]? = some phase) := by
  refine realises_generator ⟨rfl, rfl⟩ rfl rfl fun phase st ctx holds => ?_
  have here : st.cells.getD 0 0 = phase := by rw [List.getD_eq_getElem?_getD, holds]; rfl
  obtain ⟨lt, -⟩ := List.getElem?_eq_some_iff.mp holds
  simp only [oscillator, here]
  exact ⟨List.getElem?_set_self lt, rfl⟩

theorem realises_whiteNoise (seed : Nat) : (whiteNoise seed : Node α).Realises
    (.generator seed (fun _ s _ => noiseTurn s) fun s st => st.words[0]? = some s) := by
  refine realises_generator ⟨rfl, rfl⟩ rfl rfl fun s st ctx holds => ?_
  have here : st.words.getD 0 0 = s := by rw [List.getD_eq_getElem?_getD, holds]; rfl
  obtain ⟨lt, -⟩ := List.getElem?_eq_some_iff.mp holds
  simp only [whiteNoise, here]
  exact ⟨List.getElem?_set_self lt, trivial⟩

/-! ### The boundaries of blocks and rates -/

open Access

omit [Sample α] in
/-- The one view in and the one view out of a node that has no more. -/
theorem oneToOne_of_handed {nd : Node α} {m : Nat} {ctx : ProcessingContext α}
    (handed : nd.Handed m ctx) (hin : nd.inputsCount = 1) (hout : nd.outputsCount = 1) :
    ∃ block buf, OneToOne ctx block buf ∧ block.length = m * nd.rateDen ∧
      buf.length = m * nd.rateNum := by
  have ins := handed.inputs
  have outs := handed.outputs
  rw [hin, List.replicate_one] at ins
  rw [hout, List.replicate_one] at outs
  obtain ⟨block, hblock, hb⟩ := List.map_eq_singleton_iff.mp ins
  obtain ⟨buf, hbuf, ho⟩ := List.map_eq_singleton_iff.mp outs
  exact ⟨block, buf, ⟨hblock, hbuf⟩, hb, ho⟩

/-- What the view of an input shows. -/
theorem OneToOne.input_eq {ctx : ProcessingContext α} {block buf : List α}
    (one : OneToOne ctx block buf) (i : Nat) : ctx.input 0 i = block.getD i 0 := by
  rw [ProcessingContext.input, one.input]
  rfl

theorem realises_downbloc : (downbloc : Node α).Realises (.pointwise fun x _ _ => x 0) where
  num := rfl
  den := rfl
  init := trivial
  call {m s st ctx} _ handed := by
    obtain ⟨block, buf, one, hblock, hbuf⟩ := oneToOne_of_handed handed rfl rfl
    have hblock : block.length = m := hblock.trans (mul_one m)
    have hbuf : buf.length = m := hbuf.trans (mul_one m)
    have size : ctx.blockSize = m := handed.block.trans (mul_one m)
    have turn : ∀ i < ctx.blockSize, Ends (fun f : Frame α => f.outputs = [filled (block.take i) buf])
        (do let x ← input ctx 0 i
            setOutput 0 i x)
        fun _ f => f.outputs = [filled (block.take (i + 1)) buf] := by
      intro i hi
      have hx : block[i]? = some block[i] := List.getElem?_eq_getElem (by omega)
      have len : (block.take i).length = i := by rw [List.length_take]; omega
      refine (ends_input (by rw [one.input]; rfl) hx).bindEq ?_
      refine ends_setOutput fun f hf => ⟨filled (block.take i) buf, by rw [hf]; rfl, ?_, ?_⟩
      · rw [length_filled (by omega)]
        omega
      · have set := set_filled block[i] (show (block.take i).length < buf.length by omega)
        rw [len] at set
        rw [take_succ_of hx, ← set, hf]
        rfl
    have whole := run_of_ends (downblocCode : ProcessingContext α → Access α Unit) st ctx
      ((ends_loop turn).mono (fun f hf => by subst hf; rw [one.output]; rfl) fun _ _ hf => hf)
    refine ⟨trivial, fun c hc => ?_⟩
    obtain rfl : c = 0 := Nat.lt_one_iff.mp hc
    rw [size, ← hblock, List.take_length, filled_whole (by omega)] at whole
    have outs : (downbloc.process st ctx).2 = [block] := whole
    rw [outs, show m * (downbloc : Node α).rateNum = m from mul_one m]
    refine List.ext_getElem? fun i => ?_
    by_cases hi : i < m
    · simp [hi, one.input_eq, List.getD_eq_getElem?_getD, show i < block.length by omega]
    · simp [hi, show block.length ≤ i by omega]

section Converters

variable {K : Type} [Field K] [LinearOrder K] [FloorRing K] (h : List K)

/-- `upsampler2` with the taps `h`, on what was read, zeros put in between. -/
def up2Machine : SampleMachine K where
  State := List K
  start := []
  num := 2
  step _ past x :=
    let a := x.input 0 0
    (0 :: a :: past,
      fun _ j => ((2 : Nat) : K) * fir h (if j = 0 then a :: past else 0 :: a :: past))
  Holds := HoldsPast

/-- `downsampler2` with the taps `h`, on what was read. -/
def down2Machine : SampleMachine K where
  State := List K
  start := []
  den := 2
  step _ past x := (x.input 0 1 :: x.input 0 0 :: past, fun _ _ => fir h (x.input 0 0 :: past))
  Holds := HoldsPast

variable {h}

theorem up2Machine_plays (rate c : Nat) : ∀ (block past : List K) (x p : Nat → Nat → K),
    (∀ i, x 0 i = block.getD i 0) →
      (up2Machine h).stateAt rate past x p block.length = (stuff block).reverse ++ past ∧
      (List.range (2 * block.length)).map ((up2Machine h).play rate past x p c)
        = (firs h past (stuff block)).map (2 * ·)
  | [], past, x, p, _         => ⟨rfl, rfl⟩
  | b :: block, past, x, p, hx => by
      have first : (up2Machine h).stateAt rate past x p 1 = 0 :: b :: past := by
        have read : x 0 (0 * 1 + 0) = b := hx 0
        exact congrArg (fun a => 0 :: a :: past) read
      obtain ⟨state, outs⟩ := up2Machine_plays rate c block (0 :: b :: past)
        (fun c i => x c (1 * 1 + i)) (fun q i => p q (1 * 1 + i)) fun i => by
          rw [hx, show 1 * 1 + i = i + 1 by omega, List.getD_cons_succ]
      refine ⟨?_, ?_⟩
      · have more := SampleMachine.stateAt_from (M := up2Machine h) rate past x p 1 block.length
        rw [first] at more
        rw [List.length_cons, Nat.add_comm, ← more]
        refine state.trans ?_
        show (stuff block).reverse ++ (0 :: b :: past) = (stuff (b :: block)).reverse ++ past
        simp [stuff]
      · have more : ∀ t, (up2Machine h).play rate (0 :: b :: past) (fun c i => x c (1 * 1 + i))
            (fun q i => p q (1 * 1 + i)) c t = (up2Machine h).play rate past x p c (2 + t) := by
          intro t
          have := SampleMachine.play_from (M := up2Machine h) Nat.two_pos rate past x p 1 c t
          rwa [first] at this
        have zero : (up2Machine h).play rate past x p c 0 = 2 * fir h (b :: past) := by
          simp [SampleMachine.play, SampleMachine.mealy, SampleMachine.feed, Mealy.out, Mealy.after,
            up2Machine, hx]
        have one : (up2Machine h).play rate past x p c 1 = 2 * fir h (0 :: b :: past) := by
          simp [SampleMachine.play, SampleMachine.mealy, SampleMachine.feed, Mealy.out, Mealy.after,
            up2Machine, hx]
        rw [List.length_cons, Nat.mul_succ, Nat.add_comm, List.range_add, List.map_append,
          List.map_map, stuff, firs, firs, List.map_cons, List.map_cons, ← outs]
        simp only [List.range_succ, List.range_zero, List.nil_append, List.cons_append,
          List.map_cons, List.map_nil, zero, one, Function.comp_def]
        rw [funext more]

theorem down2Machine_plays (rate c : Nat) : ∀ (m : Nat) (block past : List K)
    (x p : Nat → Nat → K), block.length = 2 * m → (∀ i, x 0 i = block.getD i 0) →
      (down2Machine h).stateAt rate past x p m = block.reverse ++ past ∧
      (List.range m).map ((down2Machine h).play rate past x p c) = evens (firs h past block)
  | 0, [], past, x, p, _, _              => ⟨rfl, rfl⟩
  | m + 1, a :: b :: block, past, x, p, len, hx => by
      have reads : x 0 (0 * 2 + 0) = a ∧ x 0 (0 * 2 + 1) = b := ⟨hx 0, hx 1⟩
      have first : (down2Machine h).stateAt rate past x p 1 = b :: a :: past := by
        show x 0 (0 * 2 + 1) :: x 0 (0 * 2 + 0) :: past = _
        rw [reads.1, reads.2]
      have len : block.length = 2 * m := by simpa [Nat.mul_succ] using len
      obtain ⟨state, outs⟩ := down2Machine_plays rate c m block (b :: a :: past)
        (fun c i => x c (1 * 2 + i)) (fun q i => p q (1 * 2 + i)) len fun i => by
          rw [hx, show 1 * 2 + i = i + 1 + 1 by omega, List.getD_cons_succ, List.getD_cons_succ]
      refine ⟨?_, ?_⟩
      · have more := SampleMachine.stateAt_from (M := down2Machine h) rate past x p 1 m
        rw [first] at more
        rw [Nat.add_comm, ← more]
        refine state.trans ?_
        show block.reverse ++ (b :: a :: past) = (a :: b :: block).reverse ++ past
        simp
      · have more : ∀ t, (down2Machine h).play rate (b :: a :: past) (fun c i => x c (1 * 2 + i))
            (fun q i => p q (1 * 2 + i)) c t = (down2Machine h).play rate past x p c (1 + t) := by
          intro t
          have := SampleMachine.play_from (M := down2Machine h) Nat.one_pos rate past x p 1 c t
          rwa [first] at this
        have zero : (down2Machine h).play rate past x p c 0 = fir h (a :: past) := by
          simp [SampleMachine.play, SampleMachine.mealy, SampleMachine.feed, Mealy.out, Mealy.after,
            down2Machine, hx]
        rw [Nat.add_comm, List.range_add, List.map_append, List.map_map, firs, firs, evens, ← outs]
        simp only [List.range_succ, List.range_zero, List.nil_append, List.cons_append,
          List.map_cons, List.map_nil, zero, Function.comp_def]
        rw [funext more]

theorem realises_upsampler2With (len : h.length = hbN) :
    (upsampler2With h).Realises (up2Machine h) where
  num := rfl
  den := rfl
  init := holdsPast_reset
  call {m past st ctx} holds handed := by
    obtain ⟨block, buf, one, hblock, hbuf⟩ := oneToOne_of_handed handed rfl rfl
    have hblock : block.length = m := hblock.trans (mul_one m)
    have hbuf : buf.length = m * 2 := hbuf
    obtain ⟨state, outs⟩ := upsampler2With_call len holds one (by omega)
    obtain ⟨state', outs'⟩ := up2Machine_plays (h := h) ctx.sampleRate 0 block past ctx.input
      ctx.param one.input_eq
    rw [hblock] at state' outs'
    refine ⟨?_, fun c hc => ?_⟩
    · rw [state']
      exact state
    · obtain rfl : c = 0 := Nat.lt_one_iff.mp hc
      have full : ∀ past : List K,
          buf.length = ((firs h past (stuff block)).map (2 * ·)).length := fun past => by
        rw [List.length_map, length_firs, length_stuff, hblock, hbuf, Nat.mul_comm]
      rw [outs, filled_whole (full past), ← outs', Nat.mul_comm 2]
      rfl

theorem realises_downsampler2With (len : h.length = hbN) :
    (downsampler2With h).Realises (down2Machine h) where
  num := rfl
  den := rfl
  init := holdsPast_reset
  call {m past st ctx} holds handed := by
    obtain ⟨block, buf, one, hblock, hbuf⟩ := oneToOne_of_handed handed rfl rfl
    have hblock : block.length = m * 2 := hblock
    have hbuf : buf.length = m := hbuf.trans (mul_one m)
    obtain ⟨state, outs⟩ := downsampler2With_call len holds one (by omega)
    obtain ⟨state', outs'⟩ := down2Machine_plays (h := h) ctx.sampleRate 0 m block past ctx.input
      ctx.param (by omega) one.input_eq
    refine ⟨?_, fun c hc => ?_⟩
    · rw [state']
      exact state
    · obtain rfl : c = 0 := Nat.lt_one_iff.mp hc
      rw [outs, ← outs', show m * (downsampler2With h).rateNum = m from mul_one m]
      rfl

end Converters

/-! ### The registry -/

section Registry

variable {K : Type} [Field K] [LinearOrder K] [FloorRing K] [Trig K]

/-- The machine of the node a call of the registry makes, where the node works sample by sample. -/
def standardMachine (type : String) (a : Lang.NodeArgs K) : Option (SampleMachine K) :=
  match type with
  | "sine"     => some (.generator 0 oscillatorTurn fun phase st => st.cells[0]? = some phase)
  | "noise"    => some (.generator Lang.defaultSeed (fun _ s _ => noiseTurn s)
                    fun s st => st.words[0]? = some s)
  | "constant" => some (.pointwise fun _ p _ => p 0)
  | "gain"     => some (.pointwise fun x p _ => x 0 * p 0)
  | "fader"    => some (.pointwise fun x p c => x c * p 0)
  | "pan"      => some (.pointwise fun x p c =>
                    let angle := (Sample.clamp (p 0) (-1) 1 + 1) * Trig.pi * Sample.ratio 1 4
                    if c = 0 then x 0 * Trig.cos angle else x 0 * Trig.sin angle)
  | "mix"      => some (.pointwise fun x _ _ => sumOver (List.range (a.count "inputs" 0 2)) x)
  | "smix"     => some (.pointwise fun x _ c =>
                    sumOver (List.range (a.count "inputs" 0 2)) fun ch => x (ch * 2 + c))
  | "adapt"    => some (.pointwise fun x _ c =>
                    adapt (a.count "inputs" 0 1) (a.count "outputs" 1 1) x c)
  | "m2s"      => some (.pointwise fun x _ _ => x 0)
  | "s2m"      => some (.pointwise fun x _ _ => (x 0 + x 1) * Sample.ratio 1 2)
  | "inv"      => some (.pointwise fun x _ _ => -x 0)
  | "sinv"     => some (.pointwise fun x _ c => -x c)
  | "add"      => some (.pointwise fun x _ _ => x 0 + x 1)
  | "mul"      => some (.pointwise fun x _ _ => x 0 * x 1)
  | "div"      => some (.pointwise fun x _ _ => quotient (x 0) (x 1))
  | "cut"      => some (.pointwise fun x _ _ => x 0)
  | "up2"      => some (up2Machine halfbandKernel)
  | "down2"    => some (down2Machine halfbandKernel)
  | "downbloc" => some (.pointwise fun x _ _ => x 0)
  | _          => none

theorem length_halfbandKernel : (halfbandKernel : List K).length = hbN := by
  rw [halfbandKernel, List.length_map, List.length_range]

/-- **The nodes of the registry that work sample by sample are realised by their machines.** -/
theorem standardMachine_realised {type : String} {a : Lang.NodeArgs K} {nd : Node K}
    {M : SampleMachine K} (made : Lang.standardRegistry.make type a = some nd)
    (machine : standardMachine type a = some M) : nd.Realises M := by
  obtain ⟨e, he, named, hm⟩ := Lang.NodeRegistry.make_eq_some made
  simp only [Lang.standardRegistry, List.mem_cons, List.not_mem_nil, or_false] at he
  rcases he with rfl | rfl | rfl | rfl | rfl | rfl | rfl | rfl | rfl | rfl | rfl | rfl | rfl | rfl |
    rfl | rfl | rfl | rfl | rfl | rfl | rfl | rfl | rfl | rfl | rfl | rfl <;>
    obtain rfl := named <;> obtain rfl := Option.some.inj hm <;>
    first
      | (obtain rfl := Option.some.inj machine)
      | cases machine
  · exact realises_oscillator _
  · exact realises_whiteNoise _
  · exact realises_constant _
  · exact realises_gain _
  · exact realises_stereoFader _
  · exact realises_pan _
  · exact realises_mixer _
  · exact realises_stereoMixer _
  · exact realises_channelAdapter _ _
  · exact realises_monoToStereo
  · exact realises_stereoToMono
  · exact realises_inverter
  · exact realises_stereoInverter
  · exact realises_add
  · exact realises_multiply
  · exact realises_divide
  · exact realises_cut
  · exact upsampler2_eq (α := K) ▸ realises_upsampler2With length_halfbandKernel
  · exact downsampler2_eq (α := K) ▸ realises_downsampler2With length_halfbandKernel
  · exact realises_downbloc

end Registry

end Nodes

end Xrune
