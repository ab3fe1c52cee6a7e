import Xrune.Memory.Arena

/-!
# Memory — the memory of an instance

`graph_instance::build` up to its fill loops: the byte budget, the seven allocations from the
arena, and the addresses of what lies in them.

* `Layout64.Fits` — no total wraps, as naturals.
* `allocate_chain` — an allocation takes at most its size and the padding of its alignment.
* `MemorySound`, `build_sound` — the regions, and the parts of each, lie apart and aligned.
-/

namespace Xrune

variable {α : Type}

/-- `simd_align`. -/
def simdAlign : Nat := 64

/-- `sizeof(sample_t)`, `sizeof(audio_buffer_view)`, `sizeof(node_processing_context)`,
`sizeof(port_control)`, `sizeof(param_view)`; all of them are aligned to 8 bytes. -/
def sampleBytes : Nat := 8
def viewBytes : Nat := 16
def contextBytes : Nat := 64
def controlBytes : Nat := 16
def paramViewBytes : Nat := 24
def wordAlign : Nat := 8

/-- A chain of `bytes += x`. -/
def byteSum (l : List Nat) : Nat := l.foldl (fun bytes x => sizeT (bytes + x)) 0

namespace Layout64

variable (s : Layout64) (bp : GraphBlueprint α) (B : Nat)

/-- `max_stride`. -/
def maxStride : Nat :=
  let widest := s.outStride.foldl max 0
  if widest = 0 then B else widest

/-- `silent_size`. -/
def silentSize : Nat := max (s.maxStride B) (sizeT (2 * B))

def totalViews : Nat :=
  (runningSum
    (fun i => sizeT (s.calls.getD i 0 * sizeT (bp.inputsOf i + bp.outputsOf i))) bp.size).2

/-- `total_pv`. -/
def totalParamViews : Nat :=
  (runningSum (fun i => sizeT (s.calls.getD i 0 * bp.paramsOf i)) bp.size).2

/-- `bytes`. -/
def buildBytes : Nat :=
  byteSum [s.totalStateBytes, 64, sizeT (s.totalOutputSamples * sampleBytes), 64,
    sizeT (s.silentSize B * sampleBytes), 64, sizeT (s.totalViews bp * viewBytes), 64,
    sizeT (s.totalCalls * contextBytes), 64, sizeT (s.totalParams * controlBytes), 64,
    sizeT (s.totalParamViews bp * paramViewBytes), 64, 256]

end Layout64

/-- The regions of an instance, by address. -/
structure InstanceMemory where
  arena : MemoryArena
  stateRegion : Nat
  bufferPool : Nat
  silent : Nat
  silentLen : Nat
  views : Nat
  contexts : Nat
  controls : Nat
  paramViews : Nat

/-- `n ? arena.allocate(bytes, align) : nullptr`. -/
def MemoryArena.allocateIf (a : MemoryArena) (n bytes align : Nat) : MemoryArena × Nat :=
  if n = 0 then (a, 0) else a.allocate bytes align

/-- The allocations of `build`, its storage starting at `base`. -/
def allocateRegions (bp : GraphBlueprint α) (B : Nat) (s : Layout64) (base : Nat) :
    InstanceMemory :=
  let arena := MemoryArena.reserve base (s.buildBytes bp B)
  let state := arena.allocateIf s.totalStateBytes s.totalStateBytes simdAlign
  let pool := state.1.allocateIf s.totalOutputSamples
    (sizeT (s.totalOutputSamples * sampleBytes)) simdAlign
  let silent := pool.1.allocate (sizeT (s.silentSize B * sampleBytes)) simdAlign
  let views := silent.1.allocateIf (s.totalViews bp)
    (sizeT (viewBytes * s.totalViews bp)) wordAlign
  let contexts := views.1.allocateArray contextBytes wordAlign s.totalCalls
  let controls := contexts.1.allocateIf s.totalParams
    (sizeT (controlBytes * s.totalParams)) wordAlign
  let paramViews := controls.1.allocateIf (s.totalParamViews bp)
    (sizeT (paramViewBytes * s.totalParamViews bp)) wordAlign
  ⟨paramViews.1, state.2, pool.2, silent.2, s.silentSize B, views.2, contexts.2, controls.2,
    paramViews.2⟩

/-- A region that is needed was not granted. -/
def InstanceMemory.missing (m : InstanceMemory) (bp : GraphBlueprint α) (s : Layout64) : Bool :=
  (s.totalStateBytes != 0 && m.stateRegion == 0) || m.silent == 0 || m.contexts == 0 ||
    (s.totalOutputSamples != 0 && m.bufferPool == 0) ||
    (s.totalViews bp != 0 && m.views == 0) || (s.totalParams != 0 && m.controls == 0) ||
    (s.totalParamViews bp != 0 && m.paramViews == 0)

/-- `build`; `none` where it fails. -/
def buildMemory (bp : GraphBlueprint α) (B : Nat) (s : Layout64) (base : Nat) :
    Option InstanceMemory :=
  let m := allocateRegions bp B s base
  if m.missing bp s then none else some m

namespace InstanceMemory

variable (m : InstanceMemory) (s : Layout64)

/-- `state_region + state_offset[i]`. -/
def stateAddress (i : Nat) : Nat := m.stateRegion + s.stateOffset.getD i 0

/-- `buffer_pool + out_offset(i, ch)`. -/
def bufferAddress (i ch : Nat) : Nat :=
  m.bufferPool + sampleBytes * (s.outBaseSample.getD i 0 + ch * s.outStride.getD i 0)

/-- `&contexts[ctx_base[i] + k]`. -/
def contextAddress (i k : Nat) : Nat := m.contexts + contextBytes * (s.ctxBase.getD i 0 + k)

/-- `&controls[param_base[i] + p]`. -/
def controlAddress (i p : Nat) : Nat := m.controls + controlBytes * (s.paramBase.getD i 0 + p)

end InstanceMemory

/-- `silent_in`: the length of a silent input of a node whose calls take `nb` samples. -/
def Node.silentIn (nd : Node α) (nb : Nat) : Nat :=
  if nd.rateNum ≠ 0 then sizeT (nb * nd.rateDen) / nd.rateNum else nb

/-! ### The totals over the naturals -/

namespace Layout64

variable (s : Layout64) (bp : GraphBlueprint α) (B : Nat)

/-- The samples of a channel of node `i`. -/
def stride (i : Nat) : Nat := s.regionRate.getD i 0 * B

/-- The sum of `size` over the nodes. -/
def total (size : Nat → Nat) : Nat := ((List.range bp.size).map size).sum

/-- The bytes `build` asks for. -/
def neededBytes : Nat :=
  (stateLayout bp.nodes).2 + 64 +
  total bp (fun i => bp.outputsOf i * s.stride B i) * sampleBytes + 64 +
  max (((List.range bp.size).map (s.stride B)).foldl max 0) (2 * B) * sampleBytes + 64 +
  total bp (fun i => s.calls.getD i 0 * (bp.inputsOf i + bp.outputsOf i)) * viewBytes + 64 +
  total bp (fun i => s.calls.getD i 0) * contextBytes + 64 +
  total bp bp.paramsOf * controlBytes + 64 +
  total bp (fun i => s.calls.getD i 0 * bp.paramsOf i) * paramViewBytes + 64 + 256

/-- The tables hold the sums over the naturals. -/
structure Unwrapped : Prop where
  outStride : s.outStride = (List.range bp.size).map (s.stride B)
  ctxBase : s.ctxBase = offsets (fun i => s.calls.getD i 0) bp.size
  totalCalls : s.totalCalls = total bp fun i => s.calls.getD i 0
  outBaseSample : s.outBaseSample = offsets (fun i => bp.outputsOf i * s.stride B i) bp.size
  totalOutputSamples : s.totalOutputSamples = total bp fun i => bp.outputsOf i * s.stride B i
  stateOffset : s.stateOffset = (stateLayout bp.nodes).1
  totalStateBytes : s.totalStateBytes = (stateLayout bp.nodes).2
  paramBase : s.paramBase = offsets bp.paramsOf bp.size
  totalParams : s.totalParams = total bp bp.paramsOf

end Layout64

theorem le_foldl_max (l : List Nat) (m : Nat) : m ≤ l.foldl max m ∧ ∀ x ∈ l, x ≤ l.foldl max m := by
  induction l generalizing m with
  | nil => simp
  | cons y l ih =>
    obtain ⟨hm, hl⟩ := ih (max m y)
    rw [List.foldl_cons]
    refine ⟨(le_max_left m y).trans hm, fun x hx => ?_⟩
    rcases List.mem_cons.mp hx with rfl | hx
    · exact (le_max_right m x).trans hm
    · exact hl x hx

section Totals

variable {s : Layout64} {bp : GraphBlueprint α} {B : Nat}

/-- No buffer is wider than the silent one. -/
theorem stride_le_needed {i : Nat} (hi : i < bp.size) :
    s.stride B i ≤ ((List.range bp.size).map (s.stride B)).foldl max 0 :=
  (le_foldl_max _ 0).2 _ (List.mem_map_of_mem (List.mem_range.mpr hi))

/-- Totals below `2 ^ 64` leave nothing wrapped. -/
theorem unwrapped_of_needed (W : bp.Wired) (power : ∀ nd ∈ bp.nodes, nd.PowerAligned)
    (ok : compile64 bp B = some s) (fits : s.neededBytes bp B < 2 ^ 64) : s.Unwrapped bp B := by
  obtain ⟨-, rates, rfl, -⟩ := compile64_eq_some W ok
  have hrate : ∀ i < bp.size, (layout64 bp B rates).regionRate.getD i 0 = (rates i).regionRate :=
    fun i hi => getD_map_range _ hi 0
  have hcalls : ∀ i < bp.size, (layout64 bp B rates).calls.getD i 0 = (rates i).calls :=
    fun i hi => getD_map_range _ hi 0
  have hwide := fun i (hi : i < bp.size) =>
    stride_le_needed (s := layout64 bp B rates) (B := B) hi
  unfold Layout64.neededBytes at fits
  simp only [sampleBytes, viewBytes, contextBytes, controlBytes, paramViewBytes] at fits
  have hstride : ∀ i < bp.size, sizeT ((rates i).regionRate * B)
      = (layout64 bp B rates).stride B i := by
    intro i hi
    have hle := hwide i hi
    rw [Layout64.stride, hrate i hi] at hle ⊢
    exact sizeT_of_lt (by omega)
  have calls : runningSum (fun i => (rates i).calls) bp.size = _ :=
    (runningSum_congr fun i hi => (hcalls i hi).symm).trans
      (runningSum_exact (fun i => (layout64 bp B rates).calls.getD i 0) (by
        unfold Layout64.total at fits
        omega))
  have outputs : runningSum (fun i => sizeT (bp.outputsOf i * sizeT ((rates i).regionRate * B)))
      bp.size = _ :=
    (runningSum_sizeT _ _).trans <|
      (runningSum_congr fun i hi => by rw [hstride i hi]).trans
        (runningSum_exact (fun i => bp.outputsOf i * (layout64 bp B rates).stride B i) (by
          unfold Layout64.total at fits
          omega))
  have states := stateLayout64_exact power (by omega : (stateLayout bp.nodes).2 < 2 ^ 64)
  have params := runningSum_exact bp.paramsOf (n := bp.size) (by
    unfold Layout64.total at fits
    omega)
  exact
    { outStride := List.map_congr_left fun i hi => hstride i (List.mem_range.mp hi)
      ctxBase := congrArg Prod.fst calls
      totalCalls := congrArg Prod.snd calls
      outBaseSample := congrArg Prod.fst outputs
      totalOutputSamples := congrArg Prod.snd outputs
      stateOffset := congrArg Prod.fst states
      totalStateBytes := congrArg Prod.snd states
      paramBase := congrArg Prod.fst params
      totalParams := congrArg Prod.snd params }

theorem byteSum_eq (l : List Nat) : byteSum l = sizeT l.sum := by
  have along : ∀ (l : List Nat) (b : Nat),
      l.foldl (fun bytes x => sizeT (bytes + x)) (sizeT b) = sizeT (b + l.sum) := by
    intro l
    induction l with
    | nil => exact fun b => by rw [List.foldl_nil, List.sum_nil, Nat.add_zero]
    | cons x l ih =>
      intro b
      have hadd : sizeT (sizeT b + x) = sizeT (b + x) := Nat.mod_add_mod ..
      rw [List.foldl_cons, hadd, ih, List.sum_cons, Nat.add_assoc]
  have h := along l 0
  rwa [Nat.zero_add] at h

theorem totalViews_eq (fits : s.neededBytes bp B < 2 ^ 64) : s.totalViews bp =
    Layout64.total bp fun i => s.calls.getD i 0 * (bp.inputsOf i + bp.outputsOf i) := by
  unfold Layout64.neededBytes at fits
  simp only [viewBytes] at fits
  have hterm : ∀ i < bp.size, sizeT (s.calls.getD i 0 * sizeT (bp.inputsOf i + bp.outputsOf i)) =
      sizeT (s.calls.getD i 0 * (bp.inputsOf i + bp.outputsOf i)) := by
    intro i _
    simp only [sizeT, Nat.mul_mod_mod]
  rw [Layout64.totalViews, runningSum_congr hterm, runningSum_sizeT, runningSum_exact]
  · rfl
  · unfold Layout64.total at fits
    omega

theorem totalParamViews_eq (fits : s.neededBytes bp B < 2 ^ 64) : s.totalParamViews bp =
    Layout64.total bp fun i => s.calls.getD i 0 * bp.paramsOf i := by
  unfold Layout64.neededBytes at fits
  simp only [paramViewBytes] at fits
  rw [Layout64.totalParamViews, runningSum_sizeT, runningSum_exact]
  · rfl
  · unfold Layout64.total at fits
    omega

theorem silentSize_eq (U : s.Unwrapped bp B) (fits : s.neededBytes bp B < 2 ^ 64) :
    s.silentSize B = max (((List.range bp.size).map (s.stride B)).foldl max 0) (2 * B) := by
  unfold Layout64.neededBytes at fits
  simp only [sampleBytes] at fits
  have hdouble : sizeT (2 * B) = 2 * B := sizeT_of_lt (by omega)
  rw [Layout64.silentSize, Layout64.maxStride, U.outStride, hdouble]
  split_ifs with hzero
  · rw [hzero]
    omega
  · rfl

/-- `build` reserves the bytes the totals need. -/
theorem buildBytes_eq (U : s.Unwrapped bp B) (fits : s.neededBytes bp B < 2 ^ 64) :
    s.buildBytes bp B = s.neededBytes bp B := by
  have hviews := totalViews_eq fits
  have hparams := totalParamViews_eq fits
  have hsilent := silentSize_eq U fits
  rw [Layout64.buildBytes, byteSum_eq]
  unfold Layout64.neededBytes at fits ⊢
  rw [← hsilent, ← hviews, ← hparams, ← U.totalStateBytes, ← U.totalOutputSamples, ← U.totalCalls,
    ← U.totalParams] at fits ⊢
  generalize s.silentSize B = silent at fits ⊢
  generalize s.totalViews bp = views at fits ⊢
  generalize s.totalParamViews bp = paramViews at fits ⊢
  simp only [sizeT, sampleBytes, viewBytes, contextBytes, controlBytes, paramViewBytes,
    List.sum_cons, List.sum_nil] at fits ⊢
  omega

end Totals

/-! ### The allocations -/

/-- The range `r` lies between the offsets `o` and `o'` of storage at `base`; a range that was
not asked for is empty. -/
structure Placed (base o : Nat) (r : Nat × Nat) (o' : Nat) : Prop where
  le : o ≤ o'
  between : r = (0, 0) ∨ base + o ≤ r.1 ∧ r.1 + r.2 ≤ base + o'

/-- Ranges placed one behind the other. -/
inductive Laid (base : Nat) : Nat → List (Nat × Nat) → Nat → Prop where
  | nil (o : Nat) : Laid base o [] o
  | cons {o o' o'' : Nat} {r : Nat × Nat} {rs : List (Nat × Nat)} (first : Placed base o r o')
      (rest : Laid base o' rs o'') : Laid base o (r :: rs) o''

namespace Laid

variable {base o o' : Nat} {rs : List (Nat × Nat)}

theorem le (L : Laid base o rs o') : o ≤ o' := by
  induction L with
  | nil o => exact le_refl o
  | cons first _ ih => exact first.le.trans ih

theorem inside (L : Laid base o rs o') :
    ∀ r ∈ rs, r = (0, 0) ∨ base + o ≤ r.1 ∧ r.1 + r.2 ≤ base + o' := by
  induction L with
  | nil o => simp
  | cons first rest ih =>
    intro r hr
    have hle := first.le
    have hrest := rest.le
    rcases List.mem_cons.mp hr with rfl | hr
    · rcases first.between with hnone | hsome
      · exact .inl hnone
      · exact .inr ⟨hsome.1, by omega⟩
    · rcases ih r hr with hnone | hsome
      · exact .inl hnone
      · exact .inr ⟨by omega, hsome.2⟩

theorem apart (L : Laid base o rs o') : rs.Pairwise MemoryArena.Apart := by
  induction L with
  | nil o => exact List.Pairwise.nil
  | cons first rest ih =>
    refine List.pairwise_cons.mpr ⟨fun r hr => ?_, ih⟩
    rcases first.between with rfl | hfirst
    · exact .inl (Nat.zero_le _)
    · rcases rest.inside r hr with rfl | hrest
      · exact .inr (Nat.zero_le _)
      · exact .inl (by omega)

end Laid

/-- An arena of `need` bytes at `base`, `used` of them at most taken. -/
structure Within (base need used : Nat) (a : MemoryArena) : Prop where
  space : a.InSpace
  start : a.base = base
  capacity : a.capacity = need
  offset_le : a.offset ≤ used

namespace Within

variable {base need used : Nat} {a : MemoryArena}

/-- An allocation with room for its padding is granted, behind what was taken. -/
theorem allocate (h : Within base need used a) (size k : Nat) (hk : k < 64) (hneed : need ≠ 0)
    (room : used + (2 ^ k - 1) + size ≤ need) :
    ∃ r, a.allocate (sizeT size) (2 ^ k) = r ∧ Within base need (used + (2 ^ k - 1) + size) r.1 ∧
      Placed base a.offset (r.2, size) r.1.offset ∧ 2 ^ k ∣ r.2 ∧ r.2 ≠ 0 := by
  have hpos := Nat.two_pow_pos k
  have hcap : a.capacity ≠ 0 := by rw [h.capacity]; exact hneed
  have hstart := h.space.base_pos hcap
  have hoff := MemoryArena.offset_le_padded (a := a) hpos
  have hused := h.offset_le
  have hlt := alignUp_lt (x := a.base + a.offset) hpos
  have hpad : a.padded (2 ^ k) ≤ a.offset + (2 ^ k - 1) := by
    rw [MemoryArena.padded]
    omega
  have hdvd := MemoryArena.dvd_base_add_padded (a := a) hpos
  have fits : a.padded (2 ^ k) + size ≤ a.capacity := by rw [h.capacity]; omega
  refine ⟨_, MemoryArena.allocate_fits h.space hk hcap fits, ?_, ?_, hdvd, by simp only; omega⟩
  · exact
      { space := ⟨fits, h.space.space, h.space.base_pos⟩
        start := h.start
        capacity := h.capacity
        offset_le := by simp only; omega }
  · rw [← h.start]
    exact ⟨by simp only; omega, .inr (by simp only; omega)⟩

/-- An allocation that may be left out. -/
theorem allocateIf (h : Within base need used a) (n size k : Nat) (hk : k < 64) (hneed : need ≠ 0)
    (hn : n = 0 → size = 0) (room : used + (2 ^ k - 1) + size ≤ need) :
    ∃ r, a.allocateIf n (sizeT size) (2 ^ k) = r ∧ Within base need (used + (2 ^ k - 1) + size) r.1 ∧
      Placed base a.offset (r.2, size) r.1.offset ∧ 2 ^ k ∣ r.2 ∧ (n ≠ 0 → r.2 ≠ 0) := by
  by_cases hzero : n = 0
  · have hused := h.offset_le
    refine ⟨(a, 0), by rw [MemoryArena.allocateIf, if_pos hzero], ?_, ?_, dvd_zero _,
      fun hne => absurd hzero hne⟩
    · exact ⟨h.space, h.start, h.capacity, by simp only; omega⟩
    · rw [hn hzero]
      exact ⟨le_refl _, .inl rfl⟩
  · obtain ⟨r, heq, hwithin, hplaced, hdvd, hne⟩ := h.allocate size k hk hneed room
    exact ⟨r, by rw [MemoryArena.allocateIf, if_neg hzero, heq], hwithin, hplaced, hdvd,
      fun _ => hne⟩

end Within

/-! ### The regions -/

namespace InstanceMemory

/-- The regions with their sizes, in the order of their allocation. -/
def regions (m : InstanceMemory) (s : Layout64) (bp : GraphBlueprint α) : List (Nat × Nat) :=
  [(m.stateRegion, s.totalStateBytes), (m.bufferPool, s.totalOutputSamples * sampleBytes),
    (m.silent, m.silentLen * sampleBytes), (m.views, s.totalViews bp * viewBytes),
    (m.contexts, s.totalCalls * contextBytes), (m.controls, s.totalParams * controlBytes),
    (m.paramViews, s.totalParamViews bp * paramViewBytes)]

end InstanceMemory

section Build

variable {s : Layout64} {bp : GraphBlueprint α} {B base : Nat}

theorem neededBytes_eq (U : s.Unwrapped bp B) (fits : s.neededBytes bp B < 2 ^ 64) :
    s.neededBytes bp B = s.totalStateBytes + 64 + s.totalOutputSamples * sampleBytes + 64 +
      s.silentSize B * sampleBytes + 64 + s.totalViews bp * viewBytes + 64 +
      s.totalCalls * contextBytes + 64 + s.totalParams * controlBytes + 64 +
      s.totalParamViews bp * paramViewBytes + 64 + 256 := by
  rw [U.totalStateBytes, U.totalOutputSamples, silentSize_eq U fits, totalViews_eq fits,
    U.totalCalls, U.totalParams, totalParamViews_eq fits]
  rfl

/-- What `build` is granted when it is granted all: regions that follow each other. -/
structure LaidOut (bp : GraphBlueprint α) (s : Layout64) (base need silentLen : Nat)
    (m : InstanceMemory) : Prop where
  arena : Within base need need m.arena
  silentLen : m.silentLen = silentLen
  laid : Laid base 0 (m.regions s bp) m.arena.offset
  stateAligned : simdAlign ∣ m.stateRegion
  poolAligned : simdAlign ∣ m.bufferPool
  granted : m.missing bp s = false

/-- The allocations do not run out of arena. -/
theorem allocateRegions_laidOut (U : s.Unwrapped bp B) (hbase : 0 < base)
    (space : base + s.neededBytes bp B < 2 ^ 64) :
    LaidOut bp s base (s.neededBytes bp B) (s.silentSize B) (allocateRegions bp B s base) := by
  have fits : s.neededBytes bp B < 2 ^ 64 := by omega
  have hneed := neededBytes_eq U fits
  have hstate : sizeT s.totalStateBytes = s.totalStateBytes := sizeT_of_lt (by omega)
  have hsix : simdAlign = 2 ^ 6 := rfl
  have hthree : wordAlign = 2 ^ 3 := rfl
  unfold allocateRegions
  dsimp only
  rw [buildBytes_eq U fits, MemoryArena.allocateArray, hsix, hthree]
  generalize s.neededBytes bp B = need at hneed space fits ⊢
  simp only [sampleBytes, viewBytes, contextBytes, controlBytes, paramViewBytes] at hneed ⊢
  have A : Within base need 0 (MemoryArena.reserve base need) :=
    ⟨⟨Nat.zero_le _, space, fun _ => hbase⟩, rfl, rfl, le_refl _⟩
  -- the seven requests, each with what is left of the budget
  obtain ⟨r₁, e₁, A₁, P₁, d₁, h₁⟩ := A.allocateIf s.totalStateBytes s.totalStateBytes 6
    (by decide) (by omega) id (by omega)
  rw [hstate] at e₁
  rw [e₁]
  obtain ⟨r₂, e₂, A₂, P₂, d₂, h₂⟩ := A₁.allocateIf s.totalOutputSamples (s.totalOutputSamples * 8) 6
    (by decide) (by omega) (by omega) (by omega)
  rw [e₂]
  obtain ⟨r₃, e₃, A₃, P₃, -, h₃⟩ := A₂.allocate (s.silentSize B * 8) 6 (by decide) (by omega)
    (by omega)
  rw [e₃]
  obtain ⟨r₄, e₄, A₄, P₄, -, h₄⟩ := A₃.allocateIf (s.totalViews bp) (16 * s.totalViews bp) 3
    (by decide) (by omega) (by omega) (by omega)
  rw [e₄]
  obtain ⟨r₅, e₅, A₅, P₅, -, h₅⟩ := A₄.allocate (64 * s.totalCalls) 3 (by decide) (by omega)
    (by omega)
  rw [e₅]
  obtain ⟨r₆, e₆, A₆, P₆, -, h₆⟩ := A₅.allocateIf s.totalParams (16 * s.totalParams) 3
    (by decide) (by omega) (by omega) (by omega)
  rw [e₆]
  obtain ⟨r₇, e₇, A₇, P₇, -, h₇⟩ := A₆.allocateIf (s.totalParamViews bp)
    (24 * s.totalParamViews bp) 3 (by decide) (by omega) (by omega) (by omega)
  rw [e₇]
  exact
    { arena := ⟨A₇.space, A₇.start, A₇.capacity, by rw [← A₇.capacity]; exact A₇.space.offset_le⟩
      silentLen := rfl
      laid := by
        simp only [InstanceMemory.regions, sampleBytes, viewBytes, contextBytes, controlBytes,
          paramViewBytes]
        rw [Nat.mul_comm (s.totalViews bp), Nat.mul_comm s.totalCalls,
          Nat.mul_comm s.totalParams, Nat.mul_comm (s.totalParamViews bp)]
        exact .cons P₁ (.cons P₂ (.cons P₃ (.cons P₄ (.cons P₅ (.cons P₆ (.cons P₇ (.nil _)))))))
      stateAligned := d₁
      poolAligned := d₂
      granted := by
        simp only [InstanceMemory.missing, Bool.or_eq_false_iff, Bool.and_eq_false_iff,
          bne_eq_false_iff_eq, beq_eq_false_iff_ne]
        refine ⟨⟨⟨⟨⟨⟨?_, h₃⟩, h₅⟩, ?_⟩, ?_⟩, ?_⟩, ?_⟩
        · exact or_iff_not_imp_left.mpr h₁
        · exact or_iff_not_imp_left.mpr h₂
        · exact or_iff_not_imp_left.mpr h₄
        · exact or_iff_not_imp_left.mpr h₆
        · exact or_iff_not_imp_left.mpr h₇ }

theorem buildMemory_eq (U : s.Unwrapped bp B) (hbase : 0 < base)
    (space : base + s.neededBytes bp B < 2 ^ 64) :
    buildMemory bp B s base = some (allocateRegions bp B s base) := by
  have L := allocateRegions_laidOut U hbase space
  rw [buildMemory]
  simp [L.granted]

end Build

/-! ### The parts of a region -/

/-- Parts of equal width, `count i` of them behind offset `i`. -/
theorem parts_apart {size count width : Nat → Nat} (hsize : ∀ i, size i = count i * width i)
    {n i j c d : Nat} (hi : i < n) (hj : j < n) (hc : c < count i) (hd : d < count j)
    (hne : (i, c) ≠ (j, d)) :
    MemoryArena.Apart ((offsets size n).getD i 0 + c * width i, width i)
      ((offsets size n).getD j 0 + d * width j, width j) := by
  have start : ∀ {k}, k < n → (offsets size n).getD k 0 = ((List.range k).map size).sum :=
    fun hk => getD_map_range _ hk 0
  have fill : ∀ {k e}, e < count k → e * width k + width k ≤ size k := by
    intro k e he
    rw [hsize, ← Nat.succ_mul]
    exact Nat.mul_le_mul_right _ he
  have hci := fill hc
  have hdj := fill hd
  rw [start hi, start hj]
  simp only [MemoryArena.Apart]
  rcases Nat.lt_trichotomy i j with hlt | rfl | hgt
  · have := sum_range_le size hlt
    omega
  · rcases Nat.lt_or_gt_of_ne (fun h : c = d => hne (by rw [h])) with hlt | hgt
    · have := Nat.mul_le_mul_right (width i) (Nat.succ_le_of_lt hlt)
      rw [Nat.succ_mul] at this
      omega
    · have := Nat.mul_le_mul_right (width i) (Nat.succ_le_of_lt hgt)
      rw [Nat.succ_mul] at this
      omega
  · have := sum_range_le size hgt
    omega

theorem parts_inside {size count width : Nat → Nat} (hsize : ∀ i, size i = count i * width i)
    {n i c : Nat} (hi : i < n) (hc : c < count i) :
    (offsets size n).getD i 0 + c * width i + width i ≤ ((List.range n).map size).sum := by
  have start : (offsets size n).getD i 0 = ((List.range i).map size).sum := getD_map_range _ hi 0
  have fill : c * width i + width i ≤ size i := by
    rw [hsize, ← Nat.succ_mul]
    exact Nat.mul_le_mul_right _ hc
  have := sum_range_le size hi
  rw [start]
  omega

/-- The same parts in units of `u` bytes, from `p` on. -/
theorem MemoryArena.Apart.scale {r t : Nat × Nat} (h : Apart r t) (p u : Nat) :
    Apart (p + u * r.1, u * r.2) (p + u * t.1, u * t.2) := by
  rcases h with h | h
  · left
    have := Nat.mul_le_mul_left u h
    rw [Nat.mul_add] at this
    simp only
    omega
  · right
    have := Nat.mul_le_mul_left u h
    rw [Nat.mul_add] at this
    simp only
    omega

/-- The state blocks of `nodes` at the offsets `offs`, `last` being the end of them. -/
structure StateBlocks (nodes : List (Node α)) (offs : List Nat) (last : Nat) : Prop where
  length : offs.length = nodes.length
  aligned : ∀ i nd, nodes[i]? = some nd → 0 < nd.stateSize → nd.stateAlign ∣ offs.getD i 0
  inside : ∀ i nd, nodes[i]? = some nd → 0 < nd.stateSize → offs.getD i 0 + nd.stateSize ≤ last
  apart : ∀ i j nd nd', i < j → nodes[i]? = some nd → nodes[j]? = some nd' →
    0 < nd.stateSize → 0 < nd'.stateSize → offs.getD i 0 + nd.stateSize ≤ offs.getD j 0

/-- One more block. -/
theorem StateBlocks.place {nodes : List (Node α)} {t : List Nat × Nat}
    (S : StateBlocks nodes t.1 t.2) {nd : Node α} (power : nd.PowerAligned) :
    StateBlocks (nodes ++ [nd]) (placeState t nd).1 (placeState t nd).2 := by
  obtain ⟨k, -, align⟩ := power
  have hup : t.2 ≤ alignUp t.2 nd.stateAlign := le_alignUp (align ▸ Nat.two_pow_pos k)
  -- what is appended, and where the blocks end then
  obtain ⟨off, last, hplace, hlast, hblock⟩ : ∃ off last, placeState t nd = (t.1 ++ [off], last) ∧
      t.2 ≤ last ∧ (0 < nd.stateSize →
        nd.stateAlign ∣ off ∧ t.2 ≤ off ∧ off + nd.stateSize ≤ last) := by
    rw [placeState]
    split_ifs with hsize
    · exact ⟨_, _, rfl, by omega, fun _ => ⟨dvd_alignUp _ _, hup, le_refl _⟩⟩
    · exact ⟨_, _, rfl, le_refl _, fun h => absurd h hsize⟩
  rw [hplace]
  have hget : ∀ i x, (nodes ++ [nd])[i]? = some x →
      nodes[i]? = some x ∧ (t.1 ++ [off]).getD i 0 = t.1.getD i 0 ∨
        i = nodes.length ∧ x = nd ∧ (t.1 ++ [off]).getD i 0 = off := by
    intro i x hx
    rcases Nat.lt_trichotomy i nodes.length with hlt | rfl | hgt
    · rw [List.getElem?_append_left hlt] at hx
      exact .inl ⟨hx, List.getD_append _ _ _ _ (by rw [S.length]; exact hlt)⟩
    · rw [List.getElem?_concat_length, Option.some.injEq] at hx
      refine .inr ⟨rfl, hx.symm, ?_⟩
      rw [← S.length, List.getD_eq_getElem?_getD, List.getElem?_concat_length, Option.getD_some]
    · rw [List.getElem?_eq_none (by simp; omega)] at hx
      cases hx
  exact
    { length := by simp [S.length]
      aligned := by
        intro i x hx hpos
        rcases hget i x hx with ⟨hold, hoff⟩ | ⟨-, rfl, hoff⟩
        · rw [hoff]
          exact S.aligned i x hold hpos
        · rw [hoff]
          exact (hblock hpos).1
      inside := by
        intro i x hx hpos
        rcases hget i x hx with ⟨hold, hoff⟩ | ⟨-, rfl, hoff⟩
        · rw [hoff]
          exact (S.inside i x hold hpos).trans hlast
        · rw [hoff]
          exact (hblock hpos).2.2
      apart := by
        intro i j x y hij hx hy hxpos hypos
        rcases hget j y hy with ⟨hold, hoff⟩ | ⟨hj, rfl, hoff⟩
        · have hlt := (List.getElem?_eq_some_iff.mp hold).1
          rcases hget i x hx with ⟨hold', hoff'⟩ | ⟨hi, -, -⟩
          · rw [hoff, hoff']
            exact S.apart i j x y hij hold' hold hxpos hypos
          · omega
        · rcases hget i x hx with ⟨hold', hoff'⟩ | ⟨hi, -, -⟩
          · rw [hoff, hoff']
            exact (S.inside i x hold' hxpos).trans (hblock hypos).2.1
          · omega }

theorem stateLayout_blocks {nodes : List (Node α)} (power : ∀ nd ∈ nodes, nd.PowerAligned) :
    StateBlocks nodes (stateLayout nodes).1 (stateLayout nodes).2 := by
  induction nodes using List.reverseRecOn with
  | nil => exact ⟨rfl, by simp, by simp, by simp⟩
  | append_singleton nodes nd ih =>
    rw [stateLayout, List.foldl_append]
    exact (ih fun x hx => power x (List.mem_append_left _ hx)).place
      (power nd (List.mem_append_right _ List.mem_cons_self))

/-! ### The silent buffer -/

theorem bmod_le_self (n m : Nat) : (n : Int).bmod m ≤ n := by
  have hmod : (n : Int) % m ≤ n := by
    rw [← Int.natCast_mod]
    exact_mod_cast Nat.mod_le n m
  rw [Int.bmod_def]
  split_ifs
  · exact hmod
  · omega

theorem asLong_toNat_le (n : Nat) : (asLong n).toNat ≤ n :=
  Int.toNat_le.mpr (bmod_le_self n (2 ^ 64))

/-- The rate a node is driven at is that of one of its drivers. -/
theorem driverRate64_inRate (bp : GraphBlueprint α) (rates : Rates) (v : Nat) :
    (driverRate64 bp rates v).inRate = -1 ∨
      ∃ u ∈ bp.drivers v, (driverRate64 bp rates v).inRate = asLong (rates u).regionRate := by
  have along : ∀ (l : List Nat) (d : DriverRate64),
      (l.foldl (fun d u => d.consider (rates u)) d).inRate = d.inRate ∨
        ∃ u ∈ l, (l.foldl (fun d u => d.consider (rates u)) d).inRate =
          asLong (rates u).regionRate := by
    intro l
    induction l with
    | nil => exact fun d => .inl rfl
    | cons u l ih =>
      intro d
      rcases ih (d.consider (rates u)) with h | ⟨w, hw, h⟩
      · rw [List.foldl_cons, h, DriverRate64.consider]
        split_ifs
        · refine .inr ⟨u, List.mem_cons_self, ?_⟩
          dsimp only
        · exact .inl rfl
        · exact .inl rfl
      · exact .inr ⟨w, List.mem_cons_of_mem _ hw, h⟩
  exact along (bp.drivers v) {}

/-- A silent input covers no more than the samples of a cycle at the rate the node is driven. -/
theorem silentIn_le {nd : Node α} {B base : Nat} {blk : Int} {r : NodeRate}
    (h : nodeRate64 nd B base blk = some r) : nd.silentIn r.nodeBlock ≤ base * B := by
  rw [nodeRate64] at h
  dsimp only at h
  split_ifs at h with hden hpow
  obtain ⟨delta, -, h⟩ := Option.bind_eq_some_iff.mp h
  obtain ⟨nb, -, h⟩ := Option.bind_eq_some_iff.mp h
  split_ifs at h with h0 hmod hC
  obtain rfl := Option.some.inj h
  rw [not_or, not_not] at hden
  have hR := Nat.div_mul_cancel (Nat.dvd_of_mod_eq_zero hden.2)
  have hRpos := isPowerOfTwo.pos (by simpa using hpow :
    isPowerOfTwo (sizeT (base * nd.rateNum) / nd.rateDen) = true)
  generalize sizeT (base * nd.rateNum) / nd.rateDen = R at hR hRpos hmod hC ⊢
  have hword : R * nd.rateDen ≤ base * nd.rateNum := hR.trans_le (Nat.mod_le _ _)
  have hnum : nd.rateNum ≠ 0 := by
    intro hzero
    have hpos : 0 < R * nd.rateDen := Nat.mul_pos hRpos (Nat.pos_of_ne_zero hden.1)
    rw [hzero, Nat.mul_zero] at hword
    omega
  -- a call is part of the samples of the node
  have hblock : nb ≤ R * B := by
    have hT := Nat.div_mul_cancel (Nat.dvd_of_mod_eq_zero (not_not.mp hmod))
    have hone : 1 * nb ≤ sizeT (R * B) / nb * nb :=
      Nat.mul_le_mul_right nb (Nat.one_le_iff_ne_zero.mpr hC)
    rw [hT, Nat.one_mul] at hone
    exact hone.trans (Nat.mod_le _ _)
  rw [Node.silentIn, if_pos hnum]
  refine Nat.div_le_of_le_mul ((Nat.mod_le _ _).trans ?_)
  calc nb * nd.rateDen ≤ R * B * nd.rateDen := Nat.mul_le_mul_right _ hblock
    _ = R * nd.rateDen * B := Nat.mul_right_comm _ _ _
    _ ≤ base * nd.rateNum * B := Nat.mul_le_mul_right _ hword
    _ = nd.rateNum * (base * B) := by rw [Nat.mul_comm base, Nat.mul_assoc]

section Silent

variable {s : Layout64} {bp : GraphBlueprint α} {B : Nat}

/-- Every silent input fits in the silent buffer. -/
theorem silent_fits (W : bp.Wired) (ok : compile64 bp B = some s) (U : s.Unwrapped bp B)
    (fits : s.neededBytes bp B < 2 ^ 64) {v : Nat} {nd : Node α} (hnd : bp.nodes[v]? = some nd) :
    nd.silentIn (s.nodeBlock.getD v 0) ≤ s.silentSize B := by
  rw [silentSize_eq U fits]
  obtain ⟨-, rates, rfl, settled⟩ := compile64_eq_some W ok
  have hv : v < bp.size := (List.getElem?_eq_some_iff.mp hnd).1
  have hblock : (layout64 bp B rates).nodeBlock.getD v 0 = (rates v).nodeBlock :=
    getD_map_range _ hv 0
  have hassigned := settled v hv
  rw [assignedRate64, hnd] at hassigned
  dsimp only at hassigned
  rw [hblock]
  split_ifs at hassigned with hc hnone
  · have hle := silentIn_le hassigned
    rw [Nat.one_mul] at hle
    exact hle.trans (le_max_of_le_right (by omega))
  · refine (silentIn_le hassigned).trans (le_max_of_le_left ?_)
    rcases driverRate64_inRate bp rates v with h | ⟨u, hu, h⟩
    · rw [h] at hnone
      omega
    · have hlt := (W.edges_lt _ (GraphBlueprint.mem_drivers.mp hu)).1
      have hrate : (layout64 bp B rates).regionRate.getD u 0 = (rates u).regionRate :=
        getD_map_range _ hlt 0
      have hwide := stride_le_needed (s := layout64 bp B rates) (B := B) hlt
      rw [Layout64.stride, hrate] at hwide
      have hle := asLong_toNat_le (rates u).regionRate
      rw [h]
      generalize asLong (rates u).regionRate = w at hle ⊢
      exact (Nat.mul_le_mul_right B hle).trans hwide

end Silent

/-! ### The layout as a whole -/

/-- The byte ranges of the parts. -/
def InstanceMemory.buffer (m : InstanceMemory) (s : Layout64) (i ch : Nat) : Nat × Nat :=
  (m.bufferAddress s i ch, sampleBytes * s.outStride.getD i 0)

def InstanceMemory.state (m : InstanceMemory) (s : Layout64) (i : Nat) (nd : Node α) : Nat × Nat :=
  (m.stateAddress s i, nd.stateSize)

def InstanceMemory.context (m : InstanceMemory) (s : Layout64) (i k : Nat) : Nat × Nat :=
  (m.contextAddress s i k, contextBytes)

def InstanceMemory.control (m : InstanceMemory) (s : Layout64) (i p : Nat) : Nat × Nat :=
  (m.controlAddress s i p, controlBytes)

/-- The range `r` lies in the region `t`. -/
def Inside (r t : Nat × Nat) : Prop := t.1 ≤ r.1 ∧ r.1 + r.2 ≤ t.1 + t.2

/-- The memory of an instance: the regions lie apart in the arena, and the parts of each lie
apart in it, aligned as they are to be. -/
structure MemorySound (bp : GraphBlueprint α) (s : Layout64) (m : InstanceMemory) : Prop where
  inArena : ∀ r ∈ m.regions s bp, r = (0, 0) ∨ Inside r (m.arena.base, m.arena.capacity)
  regionsApart : (m.regions s bp).Pairwise MemoryArena.Apart
  buffers : ∀ i ch, i < bp.size → ch < bp.outputsOf i →
    Inside (m.buffer s i ch) (m.bufferPool, s.totalOutputSamples * sampleBytes) ∧
      ∀ j ch', j < bp.size → ch' < bp.outputsOf j → (i, ch) ≠ (j, ch') →
        MemoryArena.Apart (m.buffer s i ch) (m.buffer s j ch')
  states : ∀ i nd, bp.nodes[i]? = some nd → 0 < nd.stateSize →
    nd.stateAlign ∣ m.stateAddress s i ∧
      Inside (m.state s i nd) (m.stateRegion, s.totalStateBytes) ∧
      ∀ j nd', bp.nodes[j]? = some nd' → 0 < nd'.stateSize → i ≠ j →
        MemoryArena.Apart (m.state s i nd) (m.state s j nd')
  contexts : ∀ i k, i < bp.size → k < s.calls.getD i 0 →
    Inside (m.context s i k) (m.contexts, s.totalCalls * contextBytes) ∧
      ∀ j k', j < bp.size → k' < s.calls.getD j 0 → (i, k) ≠ (j, k') →
        MemoryArena.Apart (m.context s i k) (m.context s j k')
  controls : ∀ i p, i < bp.size → p < bp.paramsOf i →
    Inside (m.control s i p) (m.controls, s.totalParams * controlBytes) ∧
      ∀ j p', j < bp.size → p' < bp.paramsOf j → (i, p) ≠ (j, p') →
        MemoryArena.Apart (m.control s i p) (m.control s j p')
  silent : ∀ i (nd : Node α), bp.nodes[i]? = some nd →
    nd.silentIn (s.nodeBlock.getD i 0) ≤ m.silentLen

/-- A part of a region of `total` units of `u` bytes at `p`. -/
theorem inside_scale {p u x w total : Nat} (h : x + w ≤ total) :
    Inside (p + u * x, u * w) (p, total * u) := by
  have hle := Nat.mul_le_mul_left u h
  rw [Nat.mul_add, Nat.mul_comm u total] at hle
  exact ⟨Nat.le_add_right _ _, by simp only; omega⟩

section Sound

variable {s : Layout64} {bp : GraphBlueprint α} {B : Nat} (U : s.Unwrapped bp B)
  (m : InstanceMemory)

include U

theorem buffers_sound {i ch : Nat} (hi : i < bp.size) (hch : ch < bp.outputsOf i) :
    Inside (m.buffer s i ch) (m.bufferPool, s.totalOutputSamples * sampleBytes) ∧
      ∀ j ch', j < bp.size → ch' < bp.outputsOf j → (i, ch) ≠ (j, ch') →
        MemoryArena.Apart (m.buffer s i ch) (m.buffer s j ch') := by
  have hstride : ∀ {k}, k < bp.size → s.outStride.getD k 0 = s.stride B k := by
    intro k hk
    rw [U.outStride]
    exact getD_map_range _ hk 0
  have hsize : ∀ k, bp.outputsOf k * s.stride B k = bp.outputsOf k * s.stride B k := fun _ => rfl
  have hbuffer : ∀ {k c}, k < bp.size → m.buffer s k c =
      (m.bufferPool + sampleBytes * ((offsets (fun i => bp.outputsOf i * s.stride B i)
        bp.size).getD k 0 + c * s.stride B k), sampleBytes * s.stride B k) := by
    intro k c hk
    rw [InstanceMemory.buffer, InstanceMemory.bufferAddress, hstride hk, U.outBaseSample]
  rw [hbuffer hi, U.totalOutputSamples]
  refine ⟨inside_scale (parts_inside hsize hi hch), fun j ch' hj hch' hne => ?_⟩
  rw [hbuffer hj]
  exact (parts_apart hsize hi hj hch hch' hne).scale m.bufferPool sampleBytes

theorem contexts_sound {i k : Nat} (hi : i < bp.size) (hk : k < s.calls.getD i 0) :
    Inside (m.context s i k) (m.contexts, s.totalCalls * contextBytes) ∧
      ∀ j k', j < bp.size → k' < s.calls.getD j 0 → (i, k) ≠ (j, k') →
        MemoryArena.Apart (m.context s i k) (m.context s j k') := by
  have hsize : ∀ k, s.calls.getD k 0 = s.calls.getD k 0 * 1 := fun _ => (Nat.mul_one _).symm
  have hcontext : ∀ j k, m.context s j k =
      (m.contexts + contextBytes * ((offsets (fun i => s.calls.getD i 0) bp.size).getD j 0 + k * 1),
        contextBytes * 1) := by
    intro j k
    rw [InstanceMemory.context, InstanceMemory.contextAddress, U.ctxBase, Nat.mul_one, Nat.mul_one]
  rw [hcontext, U.totalCalls]
  refine ⟨inside_scale (parts_inside hsize hi hk), fun j k' hj hk' hne => ?_⟩
  rw [hcontext]
  exact (parts_apart hsize hi hj hk hk' hne).scale m.contexts contextBytes

theorem controls_sound {i p : Nat} (hi : i < bp.size) (hp : p < bp.paramsOf i) :
    Inside (m.control s i p) (m.controls, s.totalParams * controlBytes) ∧
      ∀ j p', j < bp.size → p' < bp.paramsOf j → (i, p) ≠ (j, p') →
        MemoryArena.Apart (m.control s i p) (m.control s j p') := by
  have hsize : ∀ k, bp.paramsOf k = bp.paramsOf k * 1 := fun _ => (Nat.mul_one _).symm
  have hcontrol : ∀ j p, m.control s j p =
      (m.controls + controlBytes * ((offsets bp.paramsOf bp.size).getD j 0 + p * 1),
        controlBytes * 1) := by
    intro j p
    rw [InstanceMemory.control, InstanceMemory.controlAddress, U.paramBase, Nat.mul_one, Nat.mul_one]
  rw [hcontrol, U.totalParams]
  refine ⟨inside_scale (parts_inside hsize hi hp), fun j p' hj hp' hne => ?_⟩
  rw [hcontrol]
  exact (parts_apart hsize hi hj hp hp' hne).scale m.controls controlBytes

theorem states_sound (power : ∀ nd ∈ bp.nodes, ∃ k ≤ 6, nd.stateAlign = 2 ^ k)
    (aligned : simdAlign ∣ m.stateRegion) {i : Nat} {nd : Node α} (hnd : bp.nodes[i]? = some nd)
    (hpos : 0 < nd.stateSize) :
    nd.stateAlign ∣ m.stateAddress s i ∧
      Inside (m.state s i nd) (m.stateRegion, s.totalStateBytes) ∧
      ∀ j nd', bp.nodes[j]? = some nd' → 0 < nd'.stateSize → i ≠ j →
        MemoryArena.Apart (m.state s i nd) (m.state s j nd') := by
  have S : StateBlocks bp.nodes (stateLayout bp.nodes).1 (stateLayout bp.nodes).2 :=
    stateLayout_blocks fun x hx => by
      obtain ⟨k, hk, align⟩ := power x hx
      exact ⟨k, by omega, align⟩
  rw [← U.stateOffset, ← U.totalStateBytes] at S
  obtain ⟨k, hk, align⟩ := power nd (List.mem_of_getElem? hnd)
  have hregion : nd.stateAlign ∣ m.stateRegion := by
    rw [align]
    exact (Nat.pow_dvd_pow 2 hk).trans aligned
  refine ⟨Nat.dvd_add hregion (S.aligned i nd hnd hpos), ?_, fun j nd' hnd' hpos' hne => ?_⟩
  · have hin := S.inside i nd hnd hpos
    simp only [Inside, InstanceMemory.state, InstanceMemory.stateAddress]
    omega
  · simp only [MemoryArena.Apart, InstanceMemory.state, InstanceMemory.stateAddress]
    rcases Nat.lt_or_gt_of_ne hne with hlt | hgt
    · have := S.apart i j nd nd' hlt hnd hnd' hpos hpos'
      omega
    · have := S.apart j i nd' nd hgt hnd' hnd hpos' hpos
      omega

end Sound

/-- Wherever the storage of the arena starts, `build` of a compiled schedule whose totals stay
below `2 ^ 64` does not run out of arena, and its memory is sound. -/
theorem build_memory_sound {bp : GraphBlueprint α} {B : Nat} {s : Layout64} (W : bp.Wired)
    (power : ∀ nd ∈ bp.nodes, ∃ k ≤ 6, nd.stateAlign = 2 ^ k) (ok : compile64 bp B = some s)
    {base : Nat} (hbase : 0 < base) (space : base + s.neededBytes bp B < 2 ^ 64) :
    ∃ m, buildMemory bp B s base = some m ∧ m.arena.base = base ∧ MemorySound bp s m := by
  have fits : s.neededBytes bp B < 2 ^ 64 := by omega
  have U := unwrapped_of_needed W (fun nd hnd => by
    obtain ⟨k, hk, align⟩ := power nd hnd
    exact ⟨k, by omega, align⟩) ok fits
  have L := allocateRegions_laidOut U hbase space
  refine ⟨allocateRegions bp B s base, buildMemory_eq U hbase space, L.arena.start, ?_⟩
  generalize allocateRegions bp B s base = m at L ⊢
  exact
    { inArena := by
        intro r hr
        have hroom := L.arena.space.offset_le
        rw [L.arena.start]
        rcases L.laid.inside r hr with hnone | hsome
        · exact .inl hnone
        · exact .inr ⟨by simpa using hsome.1, by simp only; omega⟩
      regionsApart := L.laid.apart
      buffers := fun i ch hi hch => buffers_sound U m hi hch
      states := fun i nd hnd hpos => states_sound U m power L.stateAligned hnd hpos
      contexts := fun i k hi hk => contexts_sound U m hi hk
      controls := fun i p hi hp => controls_sound U m hi hp
      silent := by
        intro i nd hnd
        rw [L.silentLen]
        exact silent_fits W ok U fits hnd }

theorem build_memory_sound_constantIntoUp2 : ∃ s, compile64 constantIntoUp2 64 = some s ∧
    ∃ m, buildMemory constantIntoUp2 64 s 4097 = some m ∧ m.arena.base = 4097 ∧
      MemorySound constantIntoUp2 s m := by
  refine ⟨_, rfl, build_memory_sound (B := 64) constantIntoUp2_made.wired ?_ rfl (by decide)
    (by decide)⟩
  intro nd hnd
  exact ⟨3, by decide, Lang.standardRegistry_stateAlign (constantIntoUp2_standard nd hnd)⟩

end Xrune
