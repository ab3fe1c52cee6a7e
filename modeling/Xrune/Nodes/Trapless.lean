import Xrune.Nodes.FftSafe

/-!
# Nodes — which nodes trap

Every node of the registry runs through any number of blocks, except the overlap-add transform
of a size that is not a power of two above one, and the channel adapter without inputs and with
several outputs, or the other way round (`standard_runs_iff`).
-/

namespace Xrune.Nodes

open Access

variable {α : Type} {nb : Nat}

/-- The input views of a node that changes no rate. -/
theorem keeps_input_unit {I : Frame α → Prop} {nd : Node α} {ctx : ProcessingContext α}
    (h : Supplied nd nb ctx) (unit : nd.rateNum = 1 ∧ nd.rateDen = 1) {c i : Nat}
    (hc : c < nd.inputsCount) (hi : i < nb) : Keeps I (input ctx c i) fun _ => True := by
  refine keeps_input h.inputs hc ?_
  rwa [unit.1, unit.2, mul_one, Nat.div_one]

/-- An output view of a call. -/
theorem shape_output {nd : Node α} {c : Nat} (hc : c < nd.outputsCount) :
    (nd.shape nb).outputs[c]? = some nb := by
  rw [Node.shape, List.getElem?_replicate, if_pos hc]

/-- An output view of a call, as an array of the transform. -/
theorem Lane.Safe.ofView {nd : Node α} {P : List Nat → Prop} {c : Nat}
    (hc : c < nd.outputsCount) :
    (Lane.ofOutput c : Lane α).Safe (Frame.Good (nd.shape nb) P) nb :=
  .ofOutput (shape_output hc)

/-- A node without state whose outputs are written sample by sample. -/
theorem trapless_perSample {nd : Node α} {outs : Nat}
    {f : ProcessingContext α → Nat → Nat → Access α α} (houts : nd.outputsCount = outs)
    (reads : ∀ ctx, Supplied nd nb ctx → ∀ c < outs, ∀ i < nb,
      Keeps (Frame.Good (nd.shape nb) fun _ => True) (f ctx c i) fun _ => True) :
    Trapless nd (perSample outs f) nb :=
  ⟨fun _ => True, trivial, fun ctx h => keeps_perSample h houts (reads ctx h)⟩

theorem inputSize_eq {nd : Node α} {ctx : ProcessingContext α} (h : Supplied nd nb ctx)
    (hin : nd.inputsCount = 1) : inputSize ctx 0 = nb * nd.rateDen / nd.rateNum := by
  have first := congrArg (fun l => l.getD 0 0) h.inputs
  rw [hin] at first
  cases hi : ctx.inputs with
  | nil => simp [hi] at first; simpa [inputSize, hi] using first
  | cons v vs => simpa [inputSize, hi] using first

/-- `add`, `multiply` and `divide`: two inputs, combined. -/
theorem binary_trapless {nd : Node α} {a b : Nat} {op : α → α → α}
    (shape : nd.inputsCount = 2 ∧ nd.outputsCount = 1) (unit : nd.rateNum = 1 ∧ nd.rateDen = 1)
    (ha : a < 2) (hb : b < 2) :
    Trapless nd (perSample 1 fun ctx _ i => do
      let x ← input ctx a i
      let y ← input ctx b i
      return op x y) nb :=
  trapless_perSample shape.2 fun _ h _ _ _ hi =>
    (keeps_input_unit h unit (shape.1 ▸ ha) hi).seq fun _ =>
      (keeps_input_unit h unit (shape.1 ▸ hb) hi).seq fun _ => .pure trivial

theorem keeps_multipleOf {I : Frame α → Prop} {a b : Nat} (h : b < a → 0 < b) :
    Keeps I (multipleOf a b : Access α Bool) fun r => r = true → b < a ∧ b ∣ a := by
  refine .ite (fun hlt => ?_) fun _ => .pure (nomatch ·)
  have exact' : Keeps I (modulo a b : Access α Nat) fun r => r = a % b := by
    rw [modulo, if_neg (by have := h hlt; omega)]
    exact .pure rfl
  refine exact'.bind fun r hr => .pure fun h0 => ⟨hlt, Nat.dvd_of_mod_eq_zero ?_⟩
  rw [← hr]
  exact eq_of_beq h0

/-! ### The stateless nodes -/

variable [Sample α]

theorem keeps_silence {nd : Node α} {ctx : ProcessingContext α} (h : Supplied nd nb ctx) :
    Keeps (Frame.Good (nd.shape nb) fun _ => True) (silence nd.outputsCount ctx) fun _ => True :=
  keeps_loop fun _ ho => keeps_loop fun _ hi =>
    keeps_setOutput (shape_output ho) (lt_of_lt_of_eq hi h.block) 0

theorem gain_trapless (v : α) : Trapless (gain v) gainCode nb :=
  trapless_perSample rfl fun _ h _ _ _ hi =>
    (keeps_input_unit h ⟨rfl, rfl⟩ Nat.one_pos hi).seq fun _ =>
      (keeps_param h Nat.one_pos hi).seq fun _ => .pure trivial

theorem constant_trapless (v : α) : Trapless (constant v) constantCode nb :=
  trapless_perSample rfl fun _ h _ _ _ hi => keeps_param h Nat.one_pos hi

theorem stereoFader_trapless (v : α) : Trapless (stereoFader v) stereoFaderCode nb :=
  trapless_perSample rfl fun _ h _ hc _ hi =>
    (keeps_param h Nat.one_pos hi).seq fun _ =>
      (keeps_input_unit h ⟨rfl, rfl⟩ hc hi).seq fun _ => .pure trivial

theorem mixer_trapless (ins : Nat) : Trapless (mixer ins : Node α) (mixerCode ins) nb :=
  trapless_perSample rfl fun _ h _ _ _ hi => keeps_sumOver fun _ hch =>
    keeps_input_unit h ⟨rfl, rfl⟩ (List.mem_range.mp hch) hi

theorem stereoMixer_trapless {ins : Nat} (fits : ins * 2 < 2 ^ 64) :
    Trapless (stereoMixer ins : Node α) (stereoMixerCode ins) nb :=
  trapless_perSample rfl fun _ h c hc _ hi => keeps_sumOver fun ch hch => by
    have hch := List.mem_range.mp hch
    have within : ch * 2 + c < (stereoMixer ins : Node α).inputsCount := by
      have count : (stereoMixer ins : Node α).inputsCount = ins * 2 := sizeT_of_lt fits
      omega
    exact keeps_input_unit h ⟨rfl, rfl⟩ within hi

theorem monoToStereo_trapless : Trapless (monoToStereo : Node α) monoToStereoCode nb :=
  trapless_perSample rfl fun _ h _ _ _ hi => keeps_input_unit h ⟨rfl, rfl⟩ Nat.one_pos hi

theorem stereoToMono_trapless : Trapless (stereoToMono : Node α) stereoToMonoCode nb :=
  trapless_perSample rfl fun _ h _ _ _ hi =>
    (keeps_input_unit h ⟨rfl, rfl⟩ Nat.two_pos hi).seq fun _ =>
      (keeps_input_unit h ⟨rfl, rfl⟩ Nat.one_lt_two hi).seq fun _ => .pure trivial

theorem inverter_trapless : Trapless (inverter : Node α) inverterCode nb :=
  trapless_perSample rfl fun _ h _ _ _ hi =>
    (keeps_input_unit h ⟨rfl, rfl⟩ Nat.one_pos hi).seq fun _ => .pure trivial

theorem stereoInverter_trapless : Trapless (stereoInverter : Node α) stereoInverterCode nb :=
  trapless_perSample rfl fun _ h _ hc _ hi =>
    (keeps_input_unit h ⟨rfl, rfl⟩ hc hi).seq fun _ => .pure trivial

theorem add_trapless : Trapless (add : Node α) addCode nb :=
  binary_trapless ⟨rfl, rfl⟩ ⟨rfl, rfl⟩ Nat.two_pos Nat.one_lt_two

theorem multiply_trapless : Trapless (multiply : Node α) multiplyCode nb :=
  binary_trapless ⟨rfl, rfl⟩ ⟨rfl, rfl⟩ Nat.two_pos Nat.one_lt_two

theorem divide_trapless : Trapless (divide : Node α) divideCode nb :=
  binary_trapless ⟨rfl, rfl⟩ ⟨rfl, rfl⟩ Nat.one_lt_two Nat.two_pos

theorem busInput_trapless (channels : Nat) :
    Trapless (busInput channels : Node α) busInputCode nb :=
  ⟨fun _ => True, trivial, fun _ _ => .pure trivial⟩

theorem cut_trapless : Trapless (cut : Node α) cutCode nb :=
  ⟨fun _ => True, trivial, fun _ _ => .pure trivial⟩

theorem downbloc_trapless : Trapless (downbloc : Node α) downblocCode nb := by
  refine ⟨fun _ => True, trivial, fun ctx h => keeps_loop fun i hi => ?_⟩
  rw [h.block] at hi
  exact (keeps_input_unit h ⟨rfl, rfl⟩ Nat.one_pos hi).seq fun x =>
    keeps_setOutput (shape_output Nat.one_pos) hi x

/-! ### The channel adapter -/

/-- The adapter traps in neither of its remainders. -/
structure Adapts (ins outs : Nat) : Prop where
  folds : outs = 0 → ins < 2
  spreads : ins = 0 → outs < 2

theorem channelAdapter_trapless {ins outs : Nat} (adapts : Adapts ins outs) :
    Trapless (channelAdapter ins outs : Node α) (channelAdapterCode ins outs) nb := by
  obtain ⟨hfolds, hspreads⟩ := adapts
  refine ⟨fun _ => True, trivial, fun ctx h => ?_⟩
  have read : ∀ c < ins, ∀ i < nb, Keeps (Frame.Good ((channelAdapter ins outs : Node α).shape nb)
      fun _ => True) (input ctx c i) fun _ => True :=
    fun c hc i hi => keeps_input_unit h ⟨rfl, rfl⟩ hc hi
  have write : ∀ c < outs, ∀ i < nb, ∀ x : α, Keeps (Frame.Good
      ((channelAdapter ins outs : Node α).shape nb) fun _ => True) (setOutput c i x)
      fun _ => True :=
    fun c hc i hi x => keeps_setOutput (shape_output hc) hi x
  have hblock := h.block
  refine .ite (fun h1 => ?_) fun h1 => .ite (fun h1' => ?_) fun h1' => ?_
  · refine keeps_loop fun i hi => (keeps_sumOver fun ch hch => ?_).seq fun x => ?_
    · exact read ch (List.mem_range.mp hch) i (by omega)
    · exact write 0 (by omega) i (by omega) x
  · exact keeps_loop fun ch hch => keeps_loop fun i hi =>
      (read 0 (by omega) i (by omega)).seq fun x => write ch hch i (by omega) x
  · refine (keeps_multipleOf (by omega)).bind fun folds hf => .ite (fun hfolds' => ?_) fun _ => ?_
    · -- the sum's indices stay below `ins`, a multiple of `outs`
      obtain ⟨-, q, rfl⟩ := hf hfolds'
      refine keeps_loop fun o ho => keeps_loop fun s hs => (keeps_sumOver fun i hi => ?_).seq
        fun x => write o ho s (by omega) x
      obtain ⟨k, hk, rfl⟩ := List.mem_map.mp hi
      rw [List.mem_range, Nat.mul_div_cancel_left q (by omega)] at hk
      have : (k + 1) * outs ≤ q * outs := Nat.mul_le_mul_right outs hk
      rw [Nat.add_mul, one_mul, mul_comm q] at this
      exact read _ (by omega) s (by omega)
    · refine (keeps_multipleOf (by omega)).bind fun spreads hs => .ite (fun hs' => ?_) fun _ => ?_
      · obtain ⟨hlt, -⟩ := hs hs'
        refine keeps_loop fun o ho => (keeps_modulo (by omega)).bind fun i hi =>
          keeps_loop fun s hs => (read i hi s (by omega)).seq fun x => write o ho s (by omega) x
      · exact keeps_loop fun o ho => keeps_loop fun s hs =>
          (read _ (by omega) s (by omega)).seq fun x => write o ho s (by omega) x

/-! ### The nodes with state -/

theorem callCounter_trapless : Trapless (callCounter : Node α) callCounterCode nb := by
  refine ⟨fun _ => True, trivial, fun ctx h => (keeps_word Nat.one_pos).seq fun _ =>
    (keeps_setWord Nat.one_pos fun _ _ => trivial).seq fun _ => keeps_loop fun i hi => ?_⟩
  rw [h.block] at hi
  exact (keeps_input_unit h ⟨rfl, rfl⟩ Nat.one_pos hi).seq fun x =>
    keeps_setOutput (shape_output Nat.one_pos) hi x

theorem whiteNoise_trapless (seed : Nat) :
    Trapless (whiteNoise seed : Node α) whiteNoiseCode nb := by
  refine ⟨fun _ => True, trivial, fun ctx h => (keeps_word Nat.one_pos).seq fun _ => ?_⟩
  refine (Keeps.foldlM (Q := fun _ => True) (fun i hi _ _ => ?_) trivial).seq fun _ =>
    keeps_setWord Nat.one_pos fun _ _ => trivial
  rw [h.block] at hi
  exact (keeps_setOutput (shape_output Nat.one_pos) (List.mem_range.mp hi) _).seq fun _ =>
    .pure trivial

theorem sampleAndHold_trapless (rate : α) (hnb : 0 < nb) :
    Trapless (sampleAndHold rate) sampleAndHoldCode nb := by
  refine ⟨fun _ => True, trivial, fun ctx h =>
    (keeps_paramFirst h Nat.one_pos hnb).seq fun r => ?_⟩
  have read : ∀ i < ctx.blockSize, Keeps (Frame.Good ((sampleAndHold rate).shape nb) fun _ => True)
      (input ctx 0 i) fun _ => True :=
    fun i hi => keeps_input_unit h ⟨rfl, rfl⟩ Nat.one_pos (h.block ▸ hi)
  have hold : ∀ x : α, Keeps (Frame.Good ((sampleAndHold rate).shape nb) fun _ => True) (setCell 0 x)
      fun _ => True := fun x => keeps_setCell Nat.one_pos x
  have emit : ∀ i < ctx.blockSize, ∀ x : α, Keeps (Frame.Good ((sampleAndHold rate).shape nb)
      fun _ => True) (setOutput 0 i x) fun _ => True :=
    fun i hi x => keeps_setOutput (shape_output Nat.one_pos) (h.block ▸ hi) x
  have held : ∀ i < ctx.blockSize, Keeps (Frame.Good ((sampleAndHold rate).shape nb) fun _ => True)
      (do let x ← cell 0; setOutput 0 i x) fun _ => True :=
    fun i hi => (keeps_cell Nat.one_pos).seq fun x => emit i hi x
  refine .ite (fun _ => ?_) fun _ => keeps_loop fun i hi =>
    (keeps_word Nat.one_pos).seq fun counter => ?_
  · exact .ite (fun hlt => (read 0 hlt.2).seq fun x => (hold x).seq fun _ => keeps_loop held)
      fun _ => keeps_loop held
  · have count : ∀ w, Keeps (Frame.Good ((sampleAndHold rate).shape nb) fun _ => True)
        (setWord 0 w : Access α Unit) fun _ => True :=
      fun w => keeps_setWord Nat.one_pos fun _ _ => trivial
    have rest := fun w => (keeps_cell (S := (sampleAndHold rate).shape nb) (P := fun _ => True)
      Nat.one_pos).seq fun x => (emit i hi x).seq fun _ => count w
    exact .ite (fun _ => (read i hi).seq fun x => (hold x).seq fun _ => rest _) fun _ => rest _

section Sources

variable [Trig α]

theorem pan_trapless (pos : α) : Trapless (pan pos) panCode nb :=
  trapless_perSample rfl fun _ h _ _ _ hi =>
    (keeps_param h Nat.one_pos hi).seq fun _ =>
      (keeps_input_unit h ⟨rfl, rfl⟩ Nat.one_pos hi).seq fun _ => .pure trivial

theorem oscillator_trapless (freq : α) : Trapless (oscillator freq) oscillatorCode nb := by
  refine ⟨fun _ => True, trivial, fun ctx h => keeps_loop fun i hi => ?_⟩
  rw [h.block] at hi
  exact (keeps_cell Nat.one_pos).seq fun phase =>
    (keeps_setOutput (shape_output Nat.one_pos) hi _).seq fun _ =>
      (keeps_param h Nat.one_pos hi).seq fun _ => keeps_setCell Nat.one_pos _

/-! ### The half-band filter -/

/-- The position stays within the delay line. -/
theorem keeps_halfbandStep {S : Shape} (hc : S.cells = hbN) (hw : S.words = 1) (x : α) :
    Keeps (Frame.Good S fun ws => ∀ w ∈ ws, w < hbN) (halfbandStep x) fun _ => True := by
  have hkernel : (halfbandKernel : List α).length = hbN := by simp [halfbandKernel]
  refine (keeps_word (by omega)).bind fun pos hpos => ?_
  obtain ⟨ws, hws, hmem⟩ := hpos
  refine (keeps_setCell (hc ▸ hws pos hmem) x).seq fun _ => ?_
  refine (Keeps.foldlM (Q := fun acc : α × Nat => acc.2 < hbN) (fun k hk acc hacc => ?_)
    (hws pos hmem)).bind fun acc _ => (keeps_modulo (by decide)).bind fun next hnext =>
      (keeps_setWord (by omega) fun ws h w hw => ?_).seq fun _ => .pure trivial
  · refine (keeps_nth (hkernel ▸ List.mem_range.mp hk)).seq fun _ =>
      (keeps_cell (hc ▸ hacc)).seq fun _ => .pure ?_
    dsimp only
    split_ifs
    · decide
    · omega
  · rcases List.mem_or_eq_of_mem_set hw with hw | rfl
    · exact h w hw
    · exact hnext

theorem upsampler2_trapless : Trapless (upsampler2 : Node α) upsampler2Code nb := by
  refine ⟨fun ws => ∀ w ∈ ws, w < hbN, by simp [upsampler2, halfbandReset, hbN], fun ctx h =>
    keeps_loop fun j hj => ?_⟩
  rw [inputSize_eq h rfl] at hj
  have step := fun x : α => keeps_halfbandStep (S := (upsampler2 : Node α).shape nb)
    List.length_replicate rfl x
  have hj : j < nb / 2 := by simpa [upsampler2] using hj
  exact (keeps_input h.inputs Nat.one_pos (by simpa [upsampler2] using hj)).seq fun x =>
    (step x).seq fun _ => (keeps_setOutput (shape_output Nat.one_pos) (by omega) _).seq fun _ =>
      (step 0).seq fun _ => keeps_setOutput (shape_output Nat.one_pos) (by omega) _

theorem downsampler2_trapless : Trapless (downsampler2 : Node α) downsampler2Code nb := by
  refine ⟨fun ws => ∀ w ∈ ws, w < hbN, by simp [downsampler2, halfbandReset, hbN], fun ctx h =>
    keeps_loop fun i hi => ?_⟩
  rw [inputSize_eq h rfl] at hi
  have step := fun x : α => keeps_halfbandStep (S := (downsampler2 : Node α).shape nb)
    List.length_replicate rfl x
  have hi' : i < nb * 2 := by simpa [downsampler2] using hi
  refine (keeps_input h.inputs Nat.one_pos hi).seq fun x => (step x).seq fun y =>
    .ite (fun _ => ?_) fun _ => .pure trivial
  exact keeps_setOutput (shape_output Nat.one_pos) (by omega) _

/-! ### The Fourier transforms -/

/-- The sizes the overlap-add transform works at. -/
structure OlaSize (n : Nat) : Prop where
  radix : isPowerOfTwo n = true
  hop : 2 ≤ n
  fits : 8 + 5 * n * 8 < 2 ^ 64

theorem OlaSize.cells {n : Nat} (fits : 8 + 5 * n * 8 < 2 ^ 64) :
    (olaStft n : Node α).initState.cells.length = 5 * n := by
  rw [olaStft, List.length_replicate, olaStateSize, sizeT_of_lt fits]
  omega

theorem keeps_olaFrame {S : Shape} {P : List Nat → Prop} {n : Nat} (hn : isPowerOfTwo n = true)
    (hcells : S.cells = 5 * n) (start : Nat) :
    Keeps (Frame.Good S P) (olaFrame n start : Access α Unit) fun _ => True := by
  have hpos := isPowerOfTwo.pos hn
  have re : (Lane.ofCells (3 * n) : Lane α).Safe (Frame.Good S P) n := .ofCells (by omega)
  have im : (Lane.ofCells (4 * n) : Lane α).Safe (Frame.Good S P) n := .ofCells (by omega)
  have windowed : Keeps (Frame.Good S P) (loop n (olaWindowed n start) : Access α Unit)
      fun _ => True := by
    refine keeps_loop fun i hi => (keeps_modulo hpos).bind fun slot hslot =>
      (keeps_cell (by omega)).seq fun x => ?_
    have window : i < (hannWindow n : List α).length := by simpa [hannWindow] using hi
    exact (keeps_nth window).seq fun w => ((re i hi).2 _).seq fun _ => (im i hi).2 _
  exact windowed.seq fun _ => (FftPlan.keeps_transform hn re im).seq fun _ =>
    (FftPlan.keeps_transform hn re im).seq fun _ => keeps_loop fun i hi =>
      (keeps_modulo (by omega)).bind fun slot hslot => (keeps_cell (by omega)).seq fun x =>
        (re i hi).1.seq fun y => keeps_setCell (by omega) _

theorem olaStft_trapless {n : Nat} (h : OlaSize n) :
    Trapless (olaStft n : Node α) (olaStftCode n) nb := by
  have h2 := h.hop
  have hcells : ((olaStft n : Node α).shape nb).cells = 5 * n := OlaSize.cells h.fits
  have out : ((olaStft n : Node α).shape nb).outputs[0]? = some nb := shape_output Nat.one_pos
  refine ⟨fun _ => True, trivial, fun ctx supplied => keeps_loop fun k hk => ?_⟩
  rw [supplied.block] at hk
  have count : ∀ w, Keeps (Frame.Good ((olaStft n : Node α).shape nb) fun _ => True)
      (setWord 0 w : Access α Unit) fun _ => True :=
    fun w => keeps_setWord Nat.one_pos fun _ _ => trivial
  refine (keeps_word Nat.one_pos).seq fun t => (keeps_modulo (by omega)).bind fun slot hslot =>
    (keeps_input_unit supplied ⟨rfl, rfl⟩ Nat.one_pos hk).seq fun x =>
    (keeps_setCell (by omega) x).seq fun _ => ?_
  -- what follows the frame, if there is one
  have emit : Keeps (Frame.Good ((olaStft n : Node α).shape nb) fun _ => True)
      (olaEmit n k t : Access α Unit) fun _ => True := by
    refine .ite (fun _ => ?_) fun _ => (keeps_setOutput out hk 0).seq fun _ => count _
    exact (keeps_modulo (by omega)).bind fun idx hidx => (keeps_cell (by omega)).seq fun x =>
      (keeps_setCell (by omega) 0).seq fun _ => (keeps_setOutput out hk x).seq fun _ => count _
  refine .ite (fun _ => (keeps_modulo (by omega)).seq fun phase => ?_) fun _ => emit
  exact .ite (fun _ => (keeps_olaFrame h.radix hcells _).seq fun _ => emit) fun _ => emit

theorem stftForward_trapless {n channels : Nat} (hnb : isPowerOfTwo nb = true)
    (fits : isPowerOfTwo n = true → channels * 2 < 2 ^ 64) :
    Trapless (stftForward n channels : Node α) (stftForwardCode n channels) nb := by
  refine ⟨fun _ => True, trivial, fun ctx h => .ite (fun _ => keeps_silence h) fun same => ?_⟩
  rw [not_not, h.block] at same
  subst same
  have count : (stftForward nb channels : Node α).outputsCount = channels * 2 :=
    sizeT_of_lt (fits hnb)
  refine keeps_loop fun c hc => ?_
  have re : (Lane.ofOutput (2 * c) : Lane α).Safe
      (Frame.Good ((stftForward nb channels).shape nb) fun _ => True) nb := .ofView (by omega)
  have im : (Lane.ofOutput (2 * c + 1) : Lane α).Safe
      (Frame.Good ((stftForward nb channels).shape nb) fun _ => True) nb := .ofView (by omega)
  refine Keeps.seq (Q := fun _ => True) (keeps_loop fun i hi => ?_) fun _ =>
    FftPlan.keeps_transform hnb re im
  exact (keeps_input_unit h ⟨rfl, rfl⟩ hc hi).seq fun x =>
    ((re i hi).2 x).seq fun _ => (im i hi).2 0

theorem stftBackward_trapless {n channels : Nat} (hnb : isPowerOfTwo nb = true)
    (fits : isPowerOfTwo n = true → channels * n * 8 < 2 ^ 64) :
    Trapless (stftBackward n channels : Node α) (stftBackwardCode n channels) nb := by
  refine ⟨fun _ => True, trivial, fun ctx h => .ite (fun _ => keeps_silence h) fun same => ?_⟩
  rw [not_not, h.block] at same
  subst same
  have hpos := isPowerOfTwo.pos hnb
  have fits := fits hnb
  have hle : channels * 1 ≤ channels * nb := Nat.mul_le_mul_left channels hpos
  have count : (stftBackward nb channels : Node α).inputsCount = channels * 2 :=
    sizeT_of_lt (by omega)
  have cells : ((stftBackward nb channels : Node α).shape nb).cells = channels * nb := by
    have size : ((stftBackward nb channels : Node α).shape nb).cells
        = sizeT (channels * nb * 8) / 8 := List.length_replicate
    rw [size, sizeT_of_lt fits]
    omega
  refine keeps_loop fun c hc => ?_
  have hlast : (c + 1) * nb ≤ channels * nb := Nat.mul_le_mul_right nb hc
  rw [Nat.add_mul, one_mul] at hlast
  have out : (Lane.ofOutput c : Lane α).Safe
      (Frame.Good ((stftBackward nb channels).shape nb) fun _ => True) nb := .ofView hc
  have im : (Lane.ofCells (c * nb) : Lane α).Safe
      (Frame.Good ((stftBackward nb channels).shape nb) fun _ => True) nb := .ofCells (by omega)
  refine Keeps.seq (Q := fun _ => True) (keeps_loop fun i hi => ?_) fun _ =>
    FftPlan.keeps_transform hnb out im
  exact (keeps_input_unit h ⟨rfl, rfl⟩ (by omega) hi).seq fun x =>
    (keeps_input_unit h ⟨rfl, rfl⟩ (by omega) hi).seq fun y =>
      ((out i hi).2 x).seq fun _ => (im i hi).2 y

end Sources

end Xrune.Nodes
