import Xrune.Support.DelayLine
import Xrune.Nodes.Ends

/-!
# Nodes — the converters as filters

`halfband_step` keeps a circular delay line and reads it backwards against the kernel.  In exact
arithmetic, and whatever the kernel, the stream `up2` writes is twice the convolution of the
kernel with the zero-stuffed input, and the stream `down2` writes is every other sample of the
convolution of the kernel with the input, however the streams are cut into calls.  With a
half-band kernel a constant passes through one and the other.
-/

namespace Xrune.Nodes

open Access

/-! ### The converters, their kernel a parameter -/

section Kernel

variable {α : Type} [Sample α] (h : List α)

/-- `halfband_step` with the kernel `h`. -/
def halfbandStepWith (x : α) : Access α α := do
  let pos ← word 0
  setCell pos x
  let mac (acc : α × Nat) (k : Nat) : Access α (α × Nat) := do
    let h ← nth h k
    let z ← cell acc.2
    return (acc.1 + h * z, if acc.2 = 0 then hbN - 1 else acc.2 - 1)
  let acc ← (List.range hbN).foldlM mac (0, pos)
  let next ← modulo (pos + 1) hbN
  setWord 0 next
  return acc.1

def upsampler2CodeWith (ctx : ProcessingContext α) : Access α Unit :=
  loop (inputSize ctx 0) fun j => do
    let x ← input ctx 0 j
    let y ← halfbandStepWith h x
    setOutput 0 (2 * j) (Sample.cast 2 * y)
    let z ← halfbandStepWith h 0
    setOutput 0 (2 * j + 1) (Sample.cast 2 * z)

/-- `upsampler2` with the kernel `h`. -/
def upsampler2With : Node α where
  typeName := "up2"
  inputsCount := 1
  outputsCount := 1
  paramDefault _ := 0
  rateNum := 2
  stateSize := 8 * (hbN + 1)
  initState := halfbandReset
  process := Access.run (upsampler2CodeWith h)

def downsampler2CodeWith (ctx : ProcessingContext α) : Access α Unit :=
  loop (inputSize ctx 0) fun i => do
    let x ← input ctx 0 i
    let y ← halfbandStepWith h x
    if i % 2 = 0 then setOutput 0 (i / 2) y

/-- `downsampler2` with the kernel `h`. -/
def downsampler2With : Node α where
  typeName := "down2"
  inputsCount := 1
  outputsCount := 1
  paramDefault _ := 0
  rateDen := 2
  stateSize := 8 * (hbN + 1)
  initState := halfbandReset
  process := Access.run (downsampler2CodeWith h)

theorem upsampler2_eq [Trig α] : (upsampler2 : Node α) = upsampler2With halfbandKernel := rfl

theorem downsampler2_eq [Trig α] : (downsampler2 : Node α) = downsampler2With halfbandKernel := rfl

end Kernel

/-! ### A stream cut into calls -/

section Calls

variable {α : Type}

/-- What calls of a node, one after another on one state block, leave in its output views. -/
def leaves (nd : Node α) : StateBlock α → List (ProcessingContext α) → List (List (List α))
  | _, []          => []
  | s, ctx :: rest => (nd.process s ctx).2 :: leaves nd (nd.process s ctx).1 rest

/-- The samples the calls read from input 0, one view after another. -/
def inputStream (calls : List (ProcessingContext α)) : List α :=
  (calls.map fun ctx => ctx.inputs.getD 0 []).flatten

/-- The samples the calls of `up2` write: two for each they read, whatever the view has beyond. -/
def upStream (nd : Node α) (calls : List (ProcessingContext α)) : List α :=
  (List.zipWith (fun ctx outs => (outs.getD 0 []).take (2 * inputSize ctx 0)) calls
    (leaves nd nd.initState calls)).flatten

/-- The samples the calls of `down2` write: their views, whole. -/
def downStream (nd : Node α) (calls : List (ProcessingContext α)) : List α :=
  ((leaves nd nd.initState calls).map fun outs => outs.getD 0 []).flatten

/-- The calls are made with the views `build` supplies, each of a size of its own. -/
def SuppliedAll (nd : Node α) (calls : List (ProcessingContext α)) : Prop :=
  ∀ ctx ∈ calls, ∃ nb, Supplied nd nb ctx

/-- The input view a converter reads and the output view it writes. -/
structure OneToOne (ctx : ProcessingContext α) (block buf : List α) : Prop where
  input : ctx.inputs = [block]
  output : ctx.outputs = [buf]

/-- The views of a converter with one input and one output. -/
theorem Supplied.oneToOne {nd : Node α} {nb : Nat} {ctx : ProcessingContext α}
    (hctx : Supplied nd nb ctx) (hin : nd.inputsCount = 1) (hout : nd.outputsCount = 1) :
    ∃ block buf, OneToOne ctx block buf ∧ block.length = nb * nd.rateDen / nd.rateNum ∧
      buf.length = nb := by
  have ins := hctx.inputs
  have outs := hctx.outputs
  rw [hin, List.replicate_one] at ins
  rw [hout, List.replicate_one] at outs
  obtain ⟨block, hblock, hb⟩ := List.map_eq_singleton_iff.mp ins
  obtain ⟨buf, hbuf, ho⟩ := List.map_eq_singleton_iff.mp outs
  exact ⟨block, buf, ⟨hblock, hbuf⟩, hb, ho⟩

theorem inputStream_cons {ctx : ProcessingContext α} {block buf : List α}
    (hctx : OneToOne ctx block buf) (rest : List (ProcessingContext α)) :
    inputStream (ctx :: rest) = block ++ inputStream rest := by
  rw [inputStream, List.map_cons, List.flatten_cons, hctx.input]
  rfl

end Calls

/-! ### A view written from its start -/

section Filled

variable {α : Type}

/-- The first samples of a view written over. -/
def filled (ys buf : List α) : List α := ys ++ buf.drop ys.length

theorem set_filled {ys buf : List α} (y : α) (hlt : ys.length < buf.length) :
    (filled ys buf).set ys.length y = filled (ys ++ [y]) buf := by
  rw [filled, filled, List.set_append_right _ _ le_rfl, Nat.sub_self,
    List.drop_eq_getElem_cons hlt, List.set_cons_zero, List.append_assoc, List.length_append]
  rfl

theorem length_filled {ys buf : List α} (hle : ys.length ≤ buf.length) :
    (filled ys buf).length = buf.length := by
  rw [filled, List.length_append, List.length_drop]
  omega

theorem take_filled (ys buf : List α) {m : Nat} (hm : m = ys.length) :
    (filled ys buf).take m = ys := by
  rw [filled, hm, List.take_left']
  rfl

theorem filled_whole {ys buf : List α} (hlen : buf.length = ys.length) : filled ys buf = ys := by
  rw [filled, List.drop_eq_nil_of_le hlen.le, List.append_nil]

theorem take_succ_of {l : List α} {j : Nat} {x : α} (hx : l[j]? = some x) :
    l.take (j + 1) = l.take j ++ [x] := by
  rw [List.take_add_one, hx]
  rfl

end Filled

/-! ### A step of the filter -/

variable {K : Type} [Field K] [LinearOrder K] [FloorRing K] {h : List K}

/-- The delay line of a frame holds `past`. -/
def HoldsPast (past : List K) (s : StateBlock K) : Prop :=
  ∃ z pos, s = ⟨z, [pos]⟩ ∧ Delayed hbN past z pos

theorem holdsPast_reset : HoldsPast [] (halfbandReset : StateBlock K) :=
  ⟨_, 0, rfl, .start (by decide)⟩

/-- `halfband_step` is one step of the filter. -/
theorem ends_halfbandStep (len : h.length = hbN) (past : List K) (x : K) (outs : List (List K)) :
    Ends (fun f => HoldsPast past f.state ∧ f.outputs = outs) (halfbandStepWith h x)
      fun y f => y = fir h (x :: past) ∧ HoldsPast (x :: past) f.state ∧ f.outputs = outs := by
  rintro f ⟨⟨z, pos, hs, held⟩, hout⟩
  have hpos : pos < z.length := by rw [held.size]; exact held.inside
  -- the frame through the fold, and the sum over the first `k` taps
  let P (g : Frame K) : Prop := g.state = ⟨z.set pos x, [pos]⟩ ∧ g.outputs = outs
  let I (k : Nat) (acc : K × Nat) (g : Frame K) : Prop :=
    acc = (∑ i ∈ Finset.range k, asStream h i * asStream (x :: past) i, (pos + (hbN - k)) % hbN)
      ∧ P g
  have turn : ∀ k < hbN, ∀ acc, Ends (I k acc) (do
      let h ← nth h k
      let z ← cell acc.2
      return (acc.1 + h * z, if acc.2 = 0 then hbN - 1 else acc.2 - 1)) (I (k + 1)) := by
    intro k hk acc
    refine .given ?_
    rintro rfl
    refine (ends_nth (getElem?_eq_asStream (by omega))).bindEq ?_
    refine (ends_cell (x := asStream (x :: past) k) fun g hg => ?_).bindEq ?_
    · rw [hg.1]
      exact held.read x hk
    · refine .pure fun g hg => ⟨?_, hg⟩
      rw [Finset.sum_range_succ, back_step held.inside hk]
  have code : Ends (fun g => g = f) (halfbandStepWith h x) fun y g =>
      y = fir h (x :: past) ∧ HoldsPast (x :: past) g.state ∧ g.outputs = outs := by
    refine (ends_word (w := pos) fun g hg => by rw [hg, hs]; rfl).bindEq ?_
    refine (ends_setCell (Q := P) fun g hg => ?_).bind fun _ => ?_
    · rw [hg, hs]
      exact ⟨hpos, rfl, hout⟩
    refine Ends.bind (Q := I hbN) ((Ends.foldRange turn).mono (fun g hg => ⟨?_, hg⟩) fun _ _ hg => hg)
      fun acc => .given ?_
    · rw [Finset.sum_range_zero, Nat.sub_zero, Nat.add_mod_right, Nat.mod_eq_of_lt held.inside]
    · rintro rfl
      refine (ends_modulo (by decide)).bindEq ?_
      refine (ends_setWord (Q := fun g => HoldsPast (x :: past) g.state ∧ g.outputs = outs)
        fun g hg => ?_).bind fun _ => .pure fun g hg => ⟨by rw [fir, len], hg⟩
      rw [hg.1]
      exact ⟨by simp, ⟨_, _, rfl, held.push x⟩, hg.2⟩
  exact code f rfl

/-! ### A call of a converter -/

/-- Writing the next sample of output 0. -/
theorem ends_fill {past ys buf : List K} {i : Nat} {y : K} (hi : i = ys.length)
    (hlt : i < buf.length) :
    Ends (fun f => HoldsPast past f.state ∧ f.outputs = [filled ys buf]) (setOutput 0 i y)
      fun _ f => HoldsPast past f.state ∧ f.outputs = [filled (ys ++ [y]) buf] := by
  subst hi
  refine ends_setOutput fun f hf => ⟨filled ys buf, by rw [hf.2]; rfl, ?_, hf.1, ?_⟩
  · rw [length_filled hlt.le]; exact hlt
  · rw [hf.2, set_filled y hlt]
    rfl

/-- A call of `up2` writes the filtered zero-stuffed block, doubled. -/
theorem upsampler2With_call (len : h.length = hbN) {past block buf : List K} {s : StateBlock K}
    (hs : HoldsPast past s) {ctx : ProcessingContext K} (hctx : OneToOne ctx block buf)
    (fits : 2 * block.length ≤ buf.length) :
    HoldsPast ((stuff block).reverse ++ past) ((upsampler2With h).process s ctx).1 ∧
    ((upsampler2With h).process s ctx).2
      = [filled ((firs h past (stuff block)).map (2 * ·)) buf] := by
  let now (j : Nat) : List K := (stuff (block.take j)).reverse ++ past
  let ys (j : Nat) : List K := (firs h past (stuff (block.take j))).map (2 * ·)
  have hys (j : Nat) (hj : j ≤ block.length) : (ys j).length = 2 * j := by
    simp only [ys, List.length_map, length_firs, length_stuff, List.length_take, min_eq_left hj]
  have turn : ∀ j < inputSize ctx 0,
      Ends (fun f => HoldsPast (now j) f.state ∧ f.outputs = [filled (ys j) buf]) (do
        let x ← input ctx 0 j
        let y ← halfbandStepWith h x
        setOutput 0 (2 * j) (Sample.cast 2 * y)
        let z ← halfbandStepWith h 0
        setOutput 0 (2 * j + 1) (Sample.cast 2 * z))
        fun _ f => HoldsPast (now (j + 1)) f.state ∧ f.outputs = [filled (ys (j + 1)) buf] := by
    intro j hj
    have hj : j < block.length := by rwa [inputSize, hctx.input] at hj
    have hx : block[j]? = some block[j] := List.getElem?_eq_getElem hj
    have next : stuff (block.take (j + 1)) = stuff (block.take j) ++ [block[j], 0] := by
      rw [take_succ_of hx, stuff_append]
      rfl
    have hnow : now (j + 1) = 0 :: block[j] :: now j := by
      simp only [now, next, List.reverse_append, List.reverse_cons, List.reverse_nil,
        List.nil_append, List.cons_append]
    have hnext : ys (j + 1) = ys j ++ [2 * fir h (block[j] :: now j)]
        ++ [2 * fir h (0 :: block[j] :: now j)] := by
      simp only [ys, next, firs_append, firs, List.map_append, List.map_cons, List.map_nil,
        List.append_assoc, List.cons_append, List.nil_append, now]
    rw [hnow, hnext]
    refine (ends_input (by rw [hctx.input]; rfl) hx).bindEq ?_
    refine (ends_halfbandStep len _ _ _).bindEq ?_
    refine (ends_fill (by rw [hys j hj.le]) (by omega)).bind fun _ => ?_
    refine (ends_halfbandStep len _ _ _).bindEq ?_
    refine ends_fill ?_ (by omega)
    rw [List.length_append, hys j hj.le]
    rfl
  have whole := run_of_ends (upsampler2CodeWith h) s ctx
    ((ends_loop turn).mono (fun f hf => ?_) fun _ _ hf => hf)
  · have hn : inputSize ctx 0 = block.length := by rw [inputSize, hctx.input]; rfl
    simp only [now, ys, hn, List.take_length] at whole
    exact whole
  · subst hf
    exact ⟨hs, by rw [hctx.output]; rfl⟩

/-- A call of `down2` writes every other sample of the filtered block. -/
theorem downsampler2With_call (len : h.length = hbN) {past block buf : List K} {s : StateBlock K}
    (hs : HoldsPast past s) {ctx : ProcessingContext K} (hctx : OneToOne ctx block buf)
    (fits : block.length = 2 * buf.length) :
    HoldsPast (block.reverse ++ past) ((downsampler2With h).process s ctx).1 ∧
    ((downsampler2With h).process s ctx).2 = [evens (firs h past block)] := by
  let now (i : Nat) : List K := (block.take i).reverse ++ past
  let ys (i : Nat) : List K := evens (firs h past (block.take i))
  have hfirs (i : Nat) (hi : i ≤ block.length) : (firs h past (block.take i)).length = i := by
    rw [length_firs, List.length_take, min_eq_left hi]
  have hys (i : Nat) (hi : i ≤ block.length) : (ys i).length = (i + 1) / 2 := by
    simp only [ys, length_evens, hfirs i hi]
  have turn : ∀ i < inputSize ctx 0,
      Ends (fun f => HoldsPast (now i) f.state ∧ f.outputs = [filled (ys i) buf]) (do
        let x ← input ctx 0 i
        let y ← halfbandStepWith h x
        if i % 2 = 0 then setOutput 0 (i / 2) y)
        fun _ f => HoldsPast (now (i + 1)) f.state ∧ f.outputs = [filled (ys (i + 1)) buf] := by
    intro i hi
    have hi : i < block.length := by rwa [inputSize, hctx.input] at hi
    have hx : block[i]? = some block[i] := List.getElem?_eq_getElem hi
    have hnow : now (i + 1) = block[i] :: now i := by
      simp only [now, take_succ_of hx, List.reverse_append, List.reverse_cons, List.reverse_nil,
        List.nil_append, List.cons_append]
    have hnext : ys (i + 1)
        = evens (firs h past (block.take i) ++ [fir h (block[i] :: now i)]) := by
      simp only [ys, take_succ_of hx, firs_append, firs, now]
    rw [hnow, hnext]
    refine (ends_input (by rw [hctx.input]; rfl) hx).bindEq ?_
    refine (ends_halfbandStep len _ _ _).bindEq ?_
    refine .ite (fun even => ?_) fun odd => ?_
    · rw [evens_concat_of_even (by rw [hfirs i hi.le]; exact even)]
      exact ends_fill (by rw [hys i hi.le]; omega) (by omega)
    · rw [evens_concat_of_odd (by rw [hfirs i hi.le]; omega)]
      exact .pure fun _ hf => hf
  have whole := run_of_ends (downsampler2CodeWith h) s ctx
    ((ends_loop turn).mono (fun f hf => ?_) fun _ _ hf => hf)
  · have hn : inputSize ctx 0 = block.length := by rw [inputSize, hctx.input]; rfl
    have full : buf.length = (ys block.length).length := by rw [hys _ le_rfl]; omega
    rw [hn, filled_whole full] at whole
    simp only [now, ys, List.take_length] at whole
    exact whole
  · subst hf
    exact ⟨hs, by rw [hctx.output]; rfl⟩

/-! ### The streams -/

/-- Calls of `up2` filter the zero-stuffed stream, whatever their sizes. -/
theorem upsampler2With_calls (len : h.length = hbN) :
    ∀ {calls : List (ProcessingContext K)} {past : List K} {s : StateBlock K},
      HoldsPast past s → SuppliedAll (upsampler2With h) calls →
      (List.zipWith (fun ctx outs => (outs.getD 0 []).take (2 * inputSize ctx 0)) calls
        (leaves (upsampler2With h) s calls)).flatten
        = (firs h past (stuff (inputStream calls))).map (2 * ·)
  | [], _, _, _, _                   => rfl
  | ctx :: rest, past, s, hs, hcalls => by
      obtain ⟨nb, hnb⟩ := hcalls ctx List.mem_cons_self
      obtain ⟨block, buf, hctx, hblock, hbuf⟩ := Supplied.oneToOne hnb rfl rfl
      have fits : 2 * block.length ≤ buf.length := by
        rw [hblock, hbuf]
        change 2 * (nb * 1 / 2) ≤ nb
        omega
      obtain ⟨hs', out⟩ := upsampler2With_call len hs hctx fits
      have tail := upsampler2With_calls len hs' fun c hc => hcalls c (List.mem_cons_of_mem ctx hc)
      have size : inputSize ctx 0 = block.length := by rw [inputSize, hctx.input]; rfl
      rw [leaves, List.zipWith_cons_cons, List.flatten_cons, tail, out, inputStream_cons hctx,
        stuff_append, firs_append, List.map_append]
      congr 1
      exact take_filled _ _ (by rw [size, List.length_map, length_firs, length_stuff])

/-- Calls of `down2` filter the stream and keep every other sample, whatever their sizes. -/
theorem downsampler2With_calls (len : h.length = hbN) :
    ∀ {calls : List (ProcessingContext K)} {past : List K} {s : StateBlock K},
      HoldsPast past s → SuppliedAll (downsampler2With h) calls →
      ((leaves (downsampler2With h) s calls).map fun outs => outs.getD 0 []).flatten
        = evens (firs h past (inputStream calls))
  | [], _, _, _, _                   => rfl
  | ctx :: rest, past, s, hs, hcalls => by
      obtain ⟨nb, hnb⟩ := hcalls ctx List.mem_cons_self
      obtain ⟨block, buf, hctx, hblock, hbuf⟩ := Supplied.oneToOne hnb rfl rfl
      have fits : block.length = 2 * buf.length := by
        rw [hblock, hbuf]
        change nb * 2 / 1 = 2 * nb
        omega
      obtain ⟨hs', out⟩ := downsampler2With_call len hs hctx fits
      have tail := downsampler2With_calls len hs' fun c hc =>
        hcalls c (List.mem_cons_of_mem ctx hc)
      rw [leaves, List.map_cons, List.flatten_cons, tail, out, inputStream_cons hctx, firs_append,
        evens_append _ _ (by rw [length_firs]; omega)]
      rfl

theorem upStream_eq (len : h.length = hbN) {calls : List (ProcessingContext K)}
    (hcalls : SuppliedAll (upsampler2With h) calls) :
    upStream (upsampler2With h) calls
      = (List.range (2 * (inputStream calls).length)).map fun t =>
          2 * conv (asStream h) (stuffed (asStream (inputStream calls))) t := by
  have stream : asStream (stuff (inputStream calls)) = stuffed (asStream (inputStream calls)) :=
    funext (asStream_stuff _)
  rw [upStream, upsampler2With_calls (s := (upsampler2With h).initState) len holdsPast_reset
    hcalls, firs_eq_conv, length_stuff,
    List.map_map, stream]
  rfl

theorem downStream_eq (len : h.length = hbN) {calls : List (ProcessingContext K)}
    (hcalls : SuppliedAll (downsampler2With h) calls) :
    downStream (downsampler2With h) calls
      = (List.range (((inputStream calls).length + 1) / 2)).map fun j =>
          conv (asStream h) (asStream (inputStream calls)) (2 * j) := by
  rw [downStream, downsampler2With_calls (s := (downsampler2With h).initState) len
    holdsPast_reset hcalls, firs_eq_conv]
  refine List.ext_getElem? fun j => ?_
  rw [getElem?_evens, List.getElem?_map, List.getElem?_map]
  by_cases hj : 2 * j < (inputStream calls).length
  · rw [List.getElem?_range hj, List.getElem?_range (by omega)]
    rfl
  · rw [List.getElem?_eq_none (by simpa using hj), List.getElem?_eq_none (by simp; omega)]
    rfl

/-! ### A constant -/

/-- A half-band kernel: the centre tap is a half, the other taps at an even offset from it are
zero, those at an odd offset sum to a half. -/
structure HalfBand (h : List K) : Prop where
  length : h.length = hbN
  center : asStream h hbCenter = 1 / 2
  zeros : ∀ k < hbN, k ≠ hbCenter → hbOdd k = false → asStream h k = 0
  odds : ∑ k ∈ (Finset.range hbN).filter (hbOdd ·), asStream h k = 1 / 2

theorem hbOdd_eq (k : Nat) : hbOdd k = decide (k % 2 = 0) := by
  rw [Bool.eq_iff_iff]
  simp only [hbOdd, hbCenter, hbN, bne_iff_ne, ne_eq, decide_eq_true_eq]
  omega

theorem HalfBand.evens (hb : HalfBand h) :
    ∑ k ∈ (Finset.range hbN).filter (!hbOdd ·), asStream h k = 1 / 2 := by
  rw [Finset.sum_eq_single hbCenter ?_ ?_, hb.center]
  · intro k hk off
    simp only [Finset.mem_filter, Finset.mem_range, Bool.not_eq_true'] at hk
    exact hb.zeros k hk.1 off hk.2
  · intro absent
    exact absurd (by decide) absent

theorem HalfBand.sum (hb : HalfBand h) : ∑ k ∈ Finset.range hbN, asStream h k = 1 := by
  have split := Finset.sum_filter_add_sum_filter_not (Finset.range hbN) (hbOdd ·) (asStream h)
  simp only [Bool.not_eq_true, ← Bool.not_eq_true'] at split
  rw [← split, hb.odds, hb.evens]
  norm_num

/-- A constant zero-stuffed: each output sample sees the taps of one parity. -/
theorem HalfBand.conv_stuffed (hb : HalfBand h) {x : Nat → K} {c : K} {t : Nat}
    (ht : hbN ≤ t + 1) (hx : ∀ i ≤ t / 2, x i = c) :
    conv (asStream h) (stuffed x) t = c / 2 := by
  have parity : ∀ k ∈ Finset.range hbN, asStream h k * stuffed x (t - k)
      = if (hbOdd k = decide (t % 2 = 0)) then asStream h k * c else 0 := by
    intro k hk
    have hk : k < 31 := Finset.mem_range.mp hk
    have same : (t - k) % 2 = 0 ↔ hbOdd k = decide (t % 2 = 0) := by
      have : 31 ≤ t + 1 := ht
      rw [hbOdd_eq, decide_eq_decide]
      omega
    rw [stuffed, mul_ite, mul_zero]
    by_cases h2 : (t - k) % 2 = 0
    · rw [if_pos h2, if_pos (same.mp h2), hx _ (by omega)]
    · rw [if_neg h2, if_neg (fun h => h2 (same.mpr h))]
  have half : ∑ k ∈ (Finset.range hbN).filter (fun k => hbOdd k = decide (t % 2 = 0)),
      asStream h k = 1 / 2 := by
    by_cases even : t % 2 = 0
    · simp only [even, decide_true]
      exact hb.odds
    · simp only [even, decide_false, ← Bool.not_eq_true']
      exact hb.evens
  rw [conv_of_taps_le (by rw [hb.length]; exact ht), hb.length, Finset.sum_congr rfl parity,
    ← Finset.sum_filter, ← Finset.sum_mul, half]
  ring

theorem HalfBand.conv_const (hb : HalfBand h) {x : Nat → K} {c : K} {t : Nat}
    (ht : hbN ≤ t + 1) (hx : ∀ i, t + 1 ≤ i + hbN → i ≤ t → x i = c) :
    conv (asStream h) x t = c := by
  have const : ∀ k ∈ Finset.range hbN, asStream h k * x (t - k) = asStream h k * c := by
    intro k hk
    have := Finset.mem_range.mp hk
    rw [hx (t - k) (by omega) (by omega)]
  rw [conv_of_taps_le (by rw [hb.length]; exact ht), hb.length, Finset.sum_congr rfl const,
    ← Finset.sum_mul, hb.sum, one_mul]

/-! ### The converters are their filters -/

/-- With a half-band kernel a constant comes through `up2` and `down2` unchanged. -/
theorem constant_through (hb : HalfBand h) {ups downs : List (ProcessingContext K)}
    (hups : SuppliedAll (upsampler2With h) ups) (hdowns : SuppliedAll (downsampler2With h) downs)
    (fed : inputStream downs = upStream (upsampler2With h) ups) {c : K}
    (const : ∀ x ∈ inputStream ups, x = c) {j : Nat} (hj : hbN ≤ j + 1) {y : K}
    (hy : (downStream (downsampler2With h) downs)[j]? = some y) : y = c := by
  have up := upStream_eq hb.length hups
  -- past the first `hbN - 1` samples the stream of `up2` is the constant
  have doubled : ∀ t, t < 2 * (inputStream ups).length → hbN ≤ t + 1 →
      asStream (inputStream downs) t = c := by
    intro t hlt ht
    have input : ∀ i ≤ t / 2, asStream (inputStream ups) i = c := by
      intro i hi
      have hi : i < (inputStream ups).length := by omega
      rw [asStream_eq (List.getElem?_eq_getElem hi)]
      exact const _ (List.getElem_mem hi)
    refine asStream_eq ?_
    rw [fed, up, List.getElem?_map, List.getElem?_range hlt, Option.map_some,
      hb.conv_stuffed ht input]
    congr 1
    ring
  rw [downStream_eq hb.length hdowns, List.getElem?_map] at hy
  have size : (inputStream downs).length = 2 * (inputStream ups).length := by
    rw [fed, up, List.length_map, List.length_range]
  obtain ⟨i, hi, rfl⟩ := Option.map_eq_some_iff.mp hy
  obtain ⟨hlt, hget⟩ := List.getElem?_eq_some_iff.mp hi
  rw [List.getElem_range] at hget
  rw [List.length_range] at hlt
  subst hget
  exact hb.conv_const (by omega) fun i h1 h2 => doubled i (by omega) (by omega)

/-- Whatever the kernel, the streams of `up2` and `down2` are those of the reference filters and do
not depend on how they are cut into calls; with a half-band kernel a constant comes through one and
the other once the delay lines have filled. -/
theorem converters_exact {h : List K} (len : h.length = hbN)
    {ups ups' downs downs' : List (ProcessingContext K)}
    (hups : SuppliedAll (upsampler2With h) ups) (hups' : SuppliedAll (upsampler2With h) ups')
    (hdowns : SuppliedAll (downsampler2With h) downs)
    (hdowns' : SuppliedAll (downsampler2With h) downs') :
    (upStream (upsampler2With h) ups
      = (List.range (2 * (inputStream ups).length)).map fun t =>
          2 * conv (asStream h) (stuffed (asStream (inputStream ups))) t) ∧
    (downStream (downsampler2With h) downs
      = (List.range (((inputStream downs).length + 1) / 2)).map fun j =>
          conv (asStream h) (asStream (inputStream downs)) (2 * j)) ∧
    (inputStream ups' = inputStream ups →
      upStream (upsampler2With h) ups' = upStream (upsampler2With h) ups) ∧
    (inputStream downs' = inputStream downs →
      downStream (downsampler2With h) downs' = downStream (downsampler2With h) downs) ∧
    (HalfBand h → inputStream downs = upStream (upsampler2With h) ups →
      ∀ c, (∀ x ∈ inputStream ups, x = c) → ∀ j y, hbN ≤ j + 1 →
        (downStream (downsampler2With h) downs)[j]? = some y → y = c) := by
  refine ⟨upStream_eq len hups, downStream_eq len hdowns, fun same => ?_, fun same => ?_,
    fun hb fed c const j y hj hy => constant_through hb hups hdowns fed const hj hy⟩
  · rw [upStream_eq len hups, upStream_eq len hups', same]
  · rw [downStream_eq len hdowns, downStream_eq len hdowns', same]

/-- A half-band kernel of three taps. -/
def threeTaps : List ℚ := List.replicate 14 0 ++ [1 / 4, 1 / 2, 1 / 4] ++ List.replicate 14 0

/-- A call that reads `block` and has a view of `n` samples to write. -/
def oneCall (block : List ℚ) (n : Nat) : ProcessingContext ℚ where
  inputs := [block]
  outputs := [List.replicate n 0]
  params := []
  sampleRate := 48000
  blockSize := n

/-- Thirty-one ones, in calls of 15 and 16. -/
def onesUp : List (ProcessingContext ℚ) :=
  [oneCall (List.replicate 15 1) 30, oneCall (List.replicate 16 1) 32]

/-- What `up2` makes of them, in calls of 20 and 42. -/
def onesDown : List (ProcessingContext ℚ) :=
  let u := upStream (upsampler2With threeTaps) onesUp
  [oneCall (u.take 20) 10, oneCall (u.drop 20) 21]

theorem threeTaps_halfBand : HalfBand threeTaps where
  length := by decide
  center := by decide +kernel
  zeros := by decide
  odds := by decide +kernel

theorem onesUp_supplied : SuppliedAll (upsampler2With threeTaps) onesUp := by
  simp only [SuppliedAll, onesUp, List.forall_mem_cons]
  exact ⟨⟨30, rfl, by decide, by decide, rfl, by simp [oneCall]⟩,
    ⟨32, rfl, by decide, by decide, rfl, by simp [oneCall]⟩, by simp⟩

theorem length_onesUp : (upStream (upsampler2With threeTaps) onesUp).length = 62 := by
  rw [upStream_eq (by decide) onesUp_supplied, List.length_map, List.length_range]
  simp [inputStream, onesUp, oneCall]

theorem onesDown_supplied : SuppliedAll (downsampler2With threeTaps) onesDown := by
  have len := length_onesUp
  simp only [SuppliedAll, onesDown, List.forall_mem_cons]
  refine ⟨⟨10, rfl, ?_, by decide, rfl, by simp [oneCall]⟩,
    ⟨21, rfl, ?_, by decide, rfl, by simp [oneCall]⟩, by simp⟩
  · simp [oneCall, downsampler2With, len]
  · simp [oneCall, downsampler2With, len]

theorem inputStream_onesDown :
    inputStream onesDown = upStream (upsampler2With threeTaps) onesUp := by
  simp [inputStream, onesDown, oneCall]

theorem converters_exact_ones :
    upStream (upsampler2With threeTaps) onesUp
      = (List.range 62).map (fun t =>
          2 * conv (asStream threeTaps) (stuffed (asStream (inputStream onesUp))) t) ∧
    (downStream (downsampler2With threeTaps) onesDown)[30]? = some 1 := by
  have exact := converters_exact (h := threeTaps) (by decide) onesUp_supplied onesUp_supplied
    onesDown_supplied onesDown_supplied
  obtain ⟨up, down, -, -, const⟩ := exact
  have n : (inputStream onesUp).length = 31 := by simp [inputStream, onesUp, oneCall]
  rw [n] at up
  refine ⟨up, ?_⟩
  have sample : (downStream (downsampler2With threeTaps) onesDown)[30]? = some
      (conv (asStream threeTaps) (asStream (inputStream onesDown)) 60) := by
    rw [down, inputStream_onesDown, length_onesUp, List.getElem?_map,
      List.getElem?_range (by decide), Option.map_some]
  have ones : ∀ x ∈ inputStream onesUp, x = 1 := by simp [inputStream, onesUp, oneCall]
  rw [sample, const threeTaps_halfBand inputStream_onesDown 1 ones 30 _ (by decide) sample]

end Xrune.Nodes
