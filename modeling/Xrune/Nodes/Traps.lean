import Xrune.Nodes.Trapless

/-!
# Nodes — which nodes trap

The arguments of the registry's factories are not checked, and some become divisors or bounds.
At these a run of blocks of silence ends in a trap (`OlaSize.of_runs`, `Adapts.of_runs`, ..); at
all others every run goes through (`standard_runs_iff`).
-/

namespace Xrune

variable {α : Type}

/-- A call of `nb` samples on silent views. -/
def Node.quiet [Zero α] (nd : Node α) (nb : Nat) : ProcessingContext α where
  inputs := List.replicate nd.inputsCount (List.replicate (nb * nd.rateDen / nd.rateNum) 0)
  outputs := List.replicate nd.outputsCount (List.replicate nb 0)
  params := List.replicate nd.paramsCount ⟨none, 0, 0⟩
  sampleRate := 48000
  blockSize := nb

theorem Node.quiet_supplied [Zero α] (nd : Node α) (nb : Nat) : Supplied nd nb (nd.quiet nb) where
  block := rfl
  inputs := by simp [Node.quiet]
  outputs := by simp [Node.quiet]
  params := List.length_replicate
  ports v hv b hb := by
    rw [List.eq_of_mem_replicate hv] at hb
    cases hb

namespace Nodes

open Access

theorem stays_stftBackwardLoad {S : Shape} {P : List Nat → Prop} (n : Nat)
    (ctx : ProcessingContext α) (c i : Nat) : Stays (Frame.Good S P) (stftBackwardLoad n ctx c i) :=
  (stays_input ctx _ i).bind fun x => (stays_input ctx _ i).bind fun y =>
    (stays_setOutput c i x).bind fun _ => stays_setCell _ y

variable [Sample α]

theorem Adapts.of_runs {ins outs : Nat} {s : StateBlock α} {ctx : ProcessingContext α}
    (h : RunsThrough (channelAdapterCode ins outs) s [ctx]) : Adapts ins outs := by
  obtain ⟨f, run, -⟩ := h
  rw [channelAdapterCode] at run
  split_ifs at run with h1 h1'
  · exact ⟨by omega, by omega⟩
  · exact ⟨by omega, by omega⟩
  · obtain ⟨folds, f₁, hfolds, run⟩ := run_bind_ok run
    have folded : outs = 0 → ins < 2 := by
      rintro rfl
      by_contra hlt
      rw [multipleOf, if_pos (by omega)] at hfolds
      obtain ⟨r, f', hmod, -⟩ := run_bind_ok hfolds
      exact absurd (modulo_ok hmod).1 (by omega)
    refine ⟨folded, ?_⟩
    rintro rfl
    by_contra hlt
    rw [multipleOf, if_neg (by omega)] at hfolds
    cases hfolds
    obtain ⟨spreads, f₂, hspreads, -⟩ := run_bind_ok run
    rw [multipleOf, if_pos (by omega)] at hspreads
    obtain ⟨r, f', hmod, -⟩ := run_bind_ok hspreads
    exact absurd (modulo_ok hmod).1 (by omega)

theorem stereoMixer_of_runs {ins : Nat} (rep : ins < 2 ^ 64) {s : StateBlock α}
    (h : RunsThrough (stereoMixerCode ins) s [(stereoMixer ins : Node α).quiet 1]) :
    ins * 2 < 2 ^ 64 := by
  obtain ⟨f, run, -⟩ := h
  by_contra hlt
  -- the pair the views end at
  have pair : ins - 2 ^ 63 ∈ List.range ins := List.mem_range.mpr (by omega)
  obtain ⟨⟨⟩, f₁, row, -⟩ := run_bind_ok run
  obtain ⟨⟨⟩, f₂, left, -⟩ := run_bind_ok row
  obtain ⟨x, f₃, sum, -⟩ := run_bind_ok left
  obtain ⟨c, f₄, r, turn⟩ := foldlM_ok sum _ pair
  obtain ⟨y, f₅, read, -⟩ := run_bind_ok turn
  have within := lt_of_input_ok read
  have views : ((stereoMixer ins : Node α).quiet 1).inputs.length = ins * 2 % 2 ^ 64 :=
    List.length_replicate
  omega

/-! ### The overlap-add transform -/

theorem olaEmit_ok {S : Shape} {n k t : Nat} {f g : Frame α} (hf : Frame.Good S (· = [t]) f)
    (run : StateT.run (olaEmit n k t : Access α Unit) f = .ok ((), g)) :
    Frame.Good S (· = [(t + 1) % 2 ^ 64]) g := by
  rw [olaEmit] at run
  dsimp only at run
  split_ifs at run
  · obtain ⟨idx, f₁, h₁, run⟩ := run_bind_ok run
    obtain ⟨x, f₂, h₂, run⟩ := run_bind_ok run
    obtain ⟨⟨⟩, f₃, h₃, run⟩ := run_bind_ok run
    obtain ⟨⟨⟩, f₄, h₄, run⟩ := run_bind_ok run
    have hf₂ := stays_cell _ _ _ _ (stays_modulo _ _ _ _ _ hf h₁) h₂
    exact setWord_ok (stays_setOutput _ _ _ _ _ _ (stays_setCell _ _ _ _ _ hf₂ h₃) h₄) run
  · obtain ⟨⟨⟩, f₁, h₁, run⟩ := run_bind_ok run
    exact setWord_ok (stays_setOutput _ _ _ _ _ _ hf h₁) run

theorem stays_stftForwardLoad {S : Shape} {P : List Nat → Prop} (ctx : ProcessingContext α)
    (c i : Nat) : Stays (Frame.Good S P) (stftForwardLoad ctx c i) :=
  (stays_input ctx c i).bind fun x => (stays_setOutput _ i x).bind fun _ => stays_setOutput _ i 0

section Fourier

variable [Trig α]

theorem stays_olaWindowed {S : Shape} {P : List Nat → Prop} (n start i : Nat) :
    Stays (Frame.Good S P) (olaWindowed n start i : Access α Unit) :=
  (stays_modulo _ n).bind fun slot => (stays_cell slot).bind fun x =>
    (stays_nth (hannWindow n) i).bind fun w =>
      (stays_setCell (3 * n + i) (x * w)).bind fun _ => stays_setCell (4 * n + i) 0

theorem stays_olaFrame {S : Shape} {P : List Nat → Prop} {n start : Nat} :
    Stays (Frame.Good S P) (olaFrame n start : Access α Unit) := by
  have re := Lane.Steady.ofCells (α := α) S P (3 * n)
  have im := Lane.Steady.ofCells (α := α) S P (4 * n)
  exact (stays_loop fun i => stays_olaWindowed n start i).bind fun _ =>
    (FftPlan.stays_transform re im).bind fun _ => (FftPlan.stays_transform re im).bind fun _ =>
      stays_loop fun i => (stays_modulo _ _).bind fun slot => (stays_cell _).bind fun x =>
        (re.get i).bind fun y => stays_setCell _ _

/-- A frame that ends has reached the last sample of the imaginary array, and its transform has
a power of two for its size. -/
theorem olaFrame_ok {S : Shape} {P : List Nat → Prop} {n start : Nat} (hpos : 0 < n)
    (hle : S.cells ≤ 5 * n) {f g : Frame α} (hf : Frame.Good S P f)
    (run : StateT.run (olaFrame n start : Access α Unit) f = .ok ((), g)) :
    5 * n ≤ S.cells ∧ isPowerOfTwo n = true := by
  obtain ⟨⟨⟩, f₁, windowed, run⟩ := run_bind_ok run
  obtain ⟨⟨⟩, f₂, forward, -⟩ := run_bind_ok run
  constructor
  · obtain ⟨s, t, hs, turn⟩ :=
      Stays.forM_ok (fun i => stays_olaWindowed n start i) hf windowed (n - 1) (List.mem_range.mpr (by omega))
    obtain ⟨slot, s₁, h₁, turn⟩ := run_bind_ok turn
    obtain ⟨x, s₂, h₂, turn⟩ := run_bind_ok turn
    obtain ⟨w, s₃, h₃, turn⟩ := run_bind_ok turn
    obtain ⟨⟨⟩, s₄, h₄, turn⟩ := run_bind_ok turn
    have hs₂ := stays_cell _ _ _ _ (stays_modulo _ _ _ _ _ hs h₁) h₂
    have hs₄ := stays_setCell _ _ _ _ _ (stays_nth _ _ _ _ _ hs₂ h₃) h₄
    have hlt := lt_of_setCell_ok turn
    have cells : s₄.state.cells.length = S.cells := congrArg Shape.cells hs₄.shape
    omega
  · refine FftPlan.isPowerOfTwo_of_transform (.ofCells S P (3 * n)) (.ofCells S P (4 * n))
      (fun i s x t hs h => ?_) hpos (stays_loop (fun i => stays_olaWindowed n start i) _ _ _ hf windowed) forward
    have hlt := lt_of_cell_ok h
    have cells : s.state.cells.length = S.cells := congrArg Shape.cells hs.shape
    omega

theorem olaTurn_ok {S : Shape} {n t : Nat} (hle : S.cells ≤ 5 * n) {ctx : ProcessingContext α}
    {k : Nat} {f g : Frame α} (hf : Frame.Good S (· = [t]) f)
    (run : StateT.run (olaTurn n ctx k) f = .ok ((), g)) :
    Frame.Good S (· = [(t + 1) % 2 ^ 64]) g ∧ 0 < n ∧
      (t = n - 1 → 2 ≤ n ∧ 5 * n ≤ S.cells ∧ isPowerOfTwo n = true) := by
  obtain ⟨t', f₁, h₁, run₁⟩ := run_bind_ok run
  obtain ⟨ht, rfl⟩ := word_ok h₁
  obtain rfl : t = t' := by simpa [hf.words] using ht
  obtain ⟨slot, f₂, h₂, run₂⟩ := run_bind_ok run₁
  obtain ⟨hpos, -, rfl⟩ := modulo_ok h₂
  obtain ⟨x, f₃, h₃, run₃⟩ := run_bind_ok run₂
  obtain ⟨⟨⟩, f₄, h₄, run₄⟩ := run_bind_ok run₃
  have hf₄ := stays_setCell _ _ _ _ _ (stays_input _ _ _ _ _ _ hf h₃) h₄
  dsimp only at run₄
  split_ifs at run₄ with hfull
  · obtain ⟨phase, f₅, h₅, run₅⟩ := run_bind_ok run₄
    obtain ⟨hhop, hphase, rfl⟩ := modulo_ok h₅
    split_ifs at run₅ with hzero
    · obtain ⟨⟨⟩, f₆, h₆, run₆⟩ := run_bind_ok run₅
      have reached := olaFrame_ok hpos hle hf₄ h₆
      exact ⟨olaEmit_ok (stays_olaFrame _ _ _ hf₄ h₆) run₆, hpos, fun _ => ⟨by omega, reached⟩⟩
    · refine ⟨olaEmit_ok hf₄ run₅, hpos, ?_⟩
      rintro rfl
      simp [hphase] at hzero
  · exact ⟨olaEmit_ok hf₄ run₄, hpos, fun h => by omega⟩

/-- **The overlap-add transform.** -/
theorem OlaSize.of_runs {n : Nat} (rep : n < 2 ^ 64)
    (h : ∀ blocks, (∀ ctx ∈ blocks, Supplied (olaStft n : Node α) 1 ctx) →
      RunsThrough (olaStftCode n) (olaStft n : Node α).initState blocks) : OlaSize n := by
  have hcells : ((olaStft n : Node α).shape 1).cells = ((8 + 5 * n * 8) % 2 ^ 64 - 8) / 8 :=
    List.length_replicate
  -- `m` more blocks until the first frame
  have along : ∀ (m t : Nat) (s : StateBlock α), t + m = n - 1 →
      Frame.Good ((olaStft n : Node α).shape 1) (· = [t])
        ⟨s, ((olaStft n : Node α).quiet 1).outputs⟩ →
      RunsThrough (olaStftCode n) s (List.replicate (m + 1) ((olaStft n : Node α).quiet 1)) →
      OlaSize n := by
    intro m
    induction m with
    | zero =>
        rintro t s ht hs ⟨f, run, -⟩
        obtain ⟨⟨⟩, f₁, turn, -⟩ := run_bind_ok run
        obtain ⟨-, hpos, reached⟩ := olaTurn_ok (by omega) hs turn
        obtain ⟨h2, hle, radix⟩ := reached ht
        exact ⟨radix, h2, by omega⟩
    | succ m ih =>
        rintro t s ht hs ⟨f, run, rest⟩
        obtain ⟨⟨⟩, f₁, turn, done⟩ := run_bind_ok run
        cases done
        obtain ⟨hf, -, -⟩ := olaTurn_ok (by omega) hs turn
        rw [Nat.mod_eq_of_lt (by omega)] at hf
        exact ih (t + 1) f.state (by omega) (hf.next ((olaStft n).quiet_supplied 1)) rest
  refine along (n - 1) 0 _ (by omega)
    (.first (P := (· = [0])) rfl ((olaStft n).quiet_supplied 1))
    (h _ fun ctx hctx => ?_)
  rw [List.eq_of_mem_replicate hctx]
  exact (olaStft n).quiet_supplied 1

/-! ### The block transforms -/

theorem stays_stftForwardTurn {S : Shape} {P : List Nat → Prop} (n : Nat)
    (ctx : ProcessingContext α) (c : Nat) : Stays (Frame.Good S P) (stftForwardTurn n ctx c) :=
  (stays_loop fun i => stays_stftForwardLoad ctx c i).bind fun _ =>
    FftPlan.stays_transform (.ofOutput S P _) (.ofOutput S P _)

theorem stays_stftBackwardTurn {S : Shape} {P : List Nat → Prop} (n : Nat)
    (ctx : ProcessingContext α) (c : Nat) : Stays (Frame.Good S P) (stftBackwardTurn n ctx c) :=
  (stays_loop fun i => stays_stftBackwardLoad n ctx c i).bind fun _ =>
    FftPlan.stays_transform (.ofOutput S P _) (.ofCells S P _)

theorem stftForward_of_runs {n channels : Nat} (rep : channels < 2 ^ 64) (hpos : 0 < n)
    (h : RunsThrough (stftForwardCode n channels) (stftForward n channels : Node α).initState
      [(stftForward n channels : Node α).quiet n]) :
    channels * 2 < 2 ^ 64 := by
  obtain ⟨f, run, -⟩ := h
  by_contra hlt
  have first := Frame.Good.first (P := fun _ => True) trivial
    ((stftForward n channels : Node α).quiet_supplied n)
  have same : ((stftForward n channels : Node α).quiet n).blockSize = n := rfl
  rw [stftForwardCode, if_neg (not_not.mpr same)] at run
  -- the pair of outputs the views end at
  obtain ⟨s₁, t₁, hs₁, run₁⟩ := Stays.forM_ok (fun c => stays_stftForwardTurn n _ c) first run
    (channels - 2 ^ 63)
    (List.mem_range.mpr (by omega))
  obtain ⟨⟨⟩, t₂, run₂, -⟩ := run_bind_ok run₁
  obtain ⟨s₃, t₃, hs₃, run₃⟩ := Stays.forM_ok (fun i => stays_stftForwardLoad _ _ i) hs₁ run₂ 0
    (List.mem_range.mpr hpos)
  obtain ⟨x, t₄, h₄, run₄⟩ := run_bind_ok run₃
  obtain ⟨⟨⟩, t₅, put, -⟩ := run_bind_ok run₄
  have within := lt_of_setOutput_ok put
  have hs₄ := stays_input _ _ _ _ _ _ hs₃ h₄
  have views : t₄.outputs.length = channels * 2 % 2 ^ 64 := by
    have := congrArg (fun S => S.outputs.length) hs₄.shape
    simpa [Frame.shape, Node.shape, stftForward, sizeT] using this
  omega

theorem stftBackward_of_runs {n channels : Nat} (hpos : 0 < n)
    (h : RunsThrough (stftBackwardCode n channels) (stftBackward n channels : Node α).initState
      [(stftBackward n channels : Node α).quiet n]) :
    channels * n * 8 < 2 ^ 64 := by
  obtain ⟨f, run, -⟩ := h
  by_contra hlt
  have first := Frame.Good.first (P := fun _ => True) trivial
    ((stftBackward n channels : Node α).quiet_supplied n)
  have same : ((stftBackward n channels : Node α).quiet n).blockSize = n := rfl
  rw [stftBackwardCode, if_neg (not_not.mpr same)] at run
  -- the last sample of the last channel
  have hchannels : 0 < channels := by
    by_contra h0
    obtain rfl : channels = 0 := by omega
    omega
  obtain ⟨s₁, t₁, hs₁, run₁⟩ := Stays.forM_ok (fun c => stays_stftBackwardTurn n _ c) first run
    (channels - 1)
    (List.mem_range.mpr (by omega))
  obtain ⟨⟨⟩, t₂, run₂, -⟩ := run_bind_ok run₁
  obtain ⟨s₃, t₃, hs₃, run₃⟩ := Stays.forM_ok (fun i => stays_stftBackwardLoad n _ _ i) hs₁ run₂
    (n - 1)
    (List.mem_range.mpr (by omega))
  obtain ⟨x, t₄, h₄, run₄⟩ := run_bind_ok run₃
  obtain ⟨y, t₅, h₅, run₅⟩ := run_bind_ok run₄
  obtain ⟨⟨⟩, t₆, h₆, put⟩ := run_bind_ok run₅
  have within := lt_of_setCell_ok put
  have hs₅ := stays_input _ _ _ _ _ _ (stays_input _ _ _ _ _ _ hs₃ h₄) h₅
  have hs₆ := stays_setOutput _ _ _ _ _ _ hs₅ h₆
  have cells : t₆.state.cells.length = channels * n * 8 % 2 ^ 64 / 8 := by
    have := congrArg Shape.cells hs₆.shape
    simpa [Frame.shape, Node.shape, stftBackward, sizeT] using this
  have last : (channels - 1) * n + n = channels * n := by
    rw [← Nat.succ_mul, Nat.succ_eq_add_one, Nat.sub_add_cancel hchannels]
  omega

end Fourier

end Nodes

/-! ### The registry -/

namespace Lang

open Nodes

/-- On blocks of every power-of-two size, every number of them runs without a trap. -/
def RunsAlways (nd : Node α) (code : ProcessingContext α → Access α Unit) : Prop :=
  ∀ nb, isPowerOfTwo nb = true → ∀ blocks, (∀ ctx ∈ blocks, Supplied nd nb ctx) →
    RunsThrough code nd.initState blocks

theorem RunsAlways.of_trapless {nd : Node α} {code : ProcessingContext α → Access α Unit}
    (h : ∀ nb, isPowerOfTwo nb = true → Xrune.Trapless nd code nb) : RunsAlways nd code :=
  fun nb hnb _ supplied => (h nb hnb).runsThrough supplied

variable [Sample α]

/-- One quiet block runs. -/
theorem RunsAlways.quiet {nd : Node α} {code : ProcessingContext α → Access α Unit}
    (h : RunsAlways nd code) {nb : Nat} (hnb : isPowerOfTwo nb = true) :
    RunsThrough code nd.initState [nd.quiet nb] :=
  h nb hnb _ fun _ hctx => List.mem_singleton.mp hctx ▸ nd.quiet_supplied nb

/-- The counts the argument list gives are values of `size_t`. -/
def NodeArgs.Countable (a : NodeArgs α) : Prop :=
  ∀ name pos default, default < 2 ^ 64 → a.count name pos default < 2 ^ 64

/-- The arguments at which the node of a type does not trap. -/
def NodeArgs.Trapless (type : String) (a : NodeArgs α) : Prop :=
  match type with
  | "smix"     => a.count "inputs" 0 2 * 2 < 2 ^ 64
  | "adapt"    => Adapts (a.count "inputs" 0 1) (a.count "outputs" 1 1)
  | "stft"     => OlaSize (a.count "size" 0 1024)
  | "stft_fwd" =>
      isPowerOfTwo (a.count "size" 0 1024) = true → a.count "channels" 1 1 * 2 < 2 ^ 64
  | "stft_bwd" =>
      isPowerOfTwo (a.count "size" 0 1024) = true →
        a.count "channels" 1 1 * a.count "size" 0 1024 * 8 < 2 ^ 64
  | _          => True

variable [Trig α]

/-- Every node of the registry has its code. -/
theorem standardCode_names : (standardCode (α := α)).map Prod.fst
    = (standardRegistry (α := α)).entries.map RegistryEntry.name := rfl

theorem standard_runs_iff {type : String} {a : NodeArgs α} (countable : a.Countable)
    {nd : Node α} (made : standardRegistry.make type a = some nd)
    {code : NodeArgs α → ProcessingContext α → Access α Unit}
    (coded : standardCode.lookup type = some code) :
    RunsAlways nd (code a) ↔ a.Trapless type := by
  have one : isPowerOfTwo 1 = true := by decide
  obtain ⟨e, he, rfl, hm⟩ := NodeRegistry.make_eq_some made
  simp only [standardRegistry, List.mem_cons, List.not_mem_nil, or_false] at he
  rcases he with rfl | rfl | rfl | rfl | rfl | rfl | rfl | rfl | rfl | rfl | rfl | rfl | rfl | rfl |
    rfl | rfl | rfl | rfl | rfl | rfl | rfl | rfl | rfl | rfl | rfl | rfl <;>
    obtain rfl := Option.some.inj hm <;> obtain rfl := Option.some.inj coded
  · exact iff_of_true (.of_trapless fun _ _ => oscillator_trapless _) trivial
  · exact iff_of_true (.of_trapless fun _ _ => whiteNoise_trapless _) trivial
  · exact iff_of_true (.of_trapless fun _ _ => constant_trapless _) trivial
  · exact iff_of_true (.of_trapless fun _ _ => gain_trapless _) trivial
  · exact iff_of_true (.of_trapless fun _ _ => stereoFader_trapless _) trivial
  · exact iff_of_true (.of_trapless fun _ _ => pan_trapless _) trivial
  · exact iff_of_true (.of_trapless fun _ _ => mixer_trapless _) trivial
  · exact ⟨fun h => stereoMixer_of_runs (countable _ _ _ (by decide)) (h.quiet one),
      fun fits => .of_trapless fun _ _ => stereoMixer_trapless fits⟩
  · exact ⟨fun h => .of_runs (h.quiet one),
      fun adapts => .of_trapless fun _ _ => channelAdapter_trapless adapts⟩
  · exact iff_of_true (.of_trapless fun _ _ => monoToStereo_trapless) trivial
  · exact iff_of_true (.of_trapless fun _ _ => stereoToMono_trapless) trivial
  · exact iff_of_true (.of_trapless fun _ _ => inverter_trapless) trivial
  · exact iff_of_true (.of_trapless fun _ _ => stereoInverter_trapless) trivial
  · exact iff_of_true (.of_trapless fun _ _ => callCounter_trapless) trivial
  · exact iff_of_true (.of_trapless fun _ _ => add_trapless) trivial
  · exact iff_of_true (.of_trapless fun _ _ => multiply_trapless) trivial
  · exact iff_of_true (.of_trapless fun _ _ => divide_trapless) trivial
  · exact iff_of_true (.of_trapless fun _ _ => cut_trapless) trivial
  · exact iff_of_true (.of_trapless fun _ hnb => sampleAndHold_trapless _ (isPowerOfTwo.pos hnb)) trivial
  · exact iff_of_true (.of_trapless fun _ _ => busInput_trapless _) trivial
  · exact iff_of_true (.of_trapless fun _ _ => upsampler2_trapless) trivial
  · exact iff_of_true (.of_trapless fun _ _ => downsampler2_trapless) trivial
  · exact iff_of_true (.of_trapless fun _ _ => downbloc_trapless) trivial
  · exact ⟨fun h => .of_runs (countable _ _ _ (by decide)) (h 1 one),
      fun size => .of_trapless fun _ _ => olaStft_trapless size⟩
  · exact ⟨fun h hn => stftForward_of_runs (countable _ _ _ (by decide)) (isPowerOfTwo.pos hn)
      (h.quiet hn),
      fun fits => .of_trapless fun _ hnb => stftForward_trapless hnb fits⟩
  · exact ⟨fun h hn => stftBackward_of_runs (isPowerOfTwo.pos hn) (h.quiet hn),
      fun fits => .of_trapless fun _ hnb => stftBackward_trapless hnb fits⟩

/-! ### Sizes of the overlap-add transform -/

theorem NodeArgs.count_exact {a : NodeArgs ℝ} {name : String} {pos default k : Nat}
    (h : a.num name pos (default : ℝ) = k) : a.count name pos default = k := by
  have half : (Sample.ratio 1 2 : ℝ) = 1 / 2 := by simp [Sample.ratio, Sample.cast]
  have floor : ⌊(k : ℝ) + 1 / 2⌋ = k := by
    rw [Int.floor_eq_iff]
    constructor <;> push_cast <;> linarith
  have nonneg : Sample.lt (k : ℝ) 0 = false := by simp [Sample.lt]
  rw [NodeArgs.count, show a.num name pos (Sample.cast default) = k from h]
  rw [nonneg, if_neg (by decide), half]
  exact congrArg Int.toNat floor

/-- `stft(size = n)`. -/
def sized (n : Nat) : NodeArgs ℝ := ⟨[("size", .number n)], []⟩

theorem sized_count (n pos default : Nat) : (sized n).count "size" pos default = n :=
  NodeArgs.count_exact rfl

theorem sized_countable {n : Nat} (h : n < 2 ^ 64) : (sized n).Countable := by
  intro name pos default hd
  by_cases hname : name = "size"
  · rw [hname, sized_count]
    exact h
  · rw [NodeArgs.count_exact (k := default)]
    · exact hd
    · simp [sized, NodeArgs.num, NodeArgs.findNamed, Ne.symm hname]

/-- A transform of two samples runs through any number of blocks. -/
theorem stft_of_two_runs : RunsAlways (olaStft 2 : Node ℝ) (olaStftCode 2) := by
  have size := sized_count 2 0 1024
  have made : standardRegistry.make "stft" (sized 2) = some (olaStft 2) :=
    congrArg (fun n => some (olaStft n)) size
  have runs : RunsAlways (olaStft 2 : Node ℝ) (olaStftCode ((sized 2).count "size" 0 1024)) :=
    (standard_runs_iff (sized_countable (by decide)) made rfl).mpr
      (show OlaSize _ from size.symm ▸ ⟨by decide, by decide, by decide⟩)
  rwa [size] at runs

/-- A transform of one sample divides by its hop of none. -/
theorem stft_of_one_traps : ∃ (nd : Node ℝ) (code : _), (sized 1).Countable ∧
    standardRegistry.make "stft" (sized 1) = some nd ∧ standardCode.lookup "stft" = some code ∧
      ¬RunsAlways nd (code (sized 1)) := by
  have size := sized_count 1 0 1024
  refine ⟨_, _, sized_countable (by decide), rfl, rfl, fun h => ?_⟩
  rw [size] at h
  exact absurd (OlaSize.of_runs (by decide) (h 1 (by decide))).hop (by decide)

end Lang

end Xrune
