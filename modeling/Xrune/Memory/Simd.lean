import Xrune.Memory.Build

/-!
# Memory — SIMD alignment

`simd_align` is promised for every output buffer.  The pool starts on a boundary; a buffer does
when the buffers before it are whole multiples of 8 samples together, and a block of 1, 2 or 4
samples does not see to that.

* `start_dvd` — the first sample of a buffer, modulo 8.
* `buffers_aligned_iff` — which layouts keep the promise.
-/

namespace Xrune

variable {α : Type}

/-- What an allocation returns is aligned, or `nullptr`. -/
theorem MemoryArena.dvd_allocate (a : MemoryArena) (bytes : Nat) {k : Nat} (hk : k ≤ 64) :
    2 ^ k ∣ (a.allocate bytes (2 ^ k)).2 := by
  have hup : 2 ^ k ∣ alignUp64 (sizeT (a.base + a.offset)) (2 ^ k) := by
    have hword : sizeT (sizeT (a.base + a.offset) + (2 ^ k - 1)) < 2 ^ 64 :=
      Nat.mod_lt _ (Nat.two_pow_pos 64)
    rw [alignUp64, and_not_low hk hword]
    exact Dvd.intro_left _ rfl
  unfold allocate
  dsimp only
  split_ifs
  · exact dvd_zero _
  · exact dvd_zero _
  · exact hup

theorem MemoryArena.dvd_allocateIf (a : MemoryArena) (n bytes : Nat) {k : Nat} (hk : k ≤ 64) :
    2 ^ k ∣ (a.allocateIf n bytes (2 ^ k)).2 := by
  unfold allocateIf
  split_ifs
  · exact dvd_zero _
  · exact a.dvd_allocate bytes hk

theorem bufferPool_aligned {bp : GraphBlueprint α} {B base : Nat} {s : Layout64}
    {m : InstanceMemory} (built : buildMemory bp B s base = some m) : simdAlign ∣ m.bufferPool := by
  have hm : allocateRegions bp B s base = m := by
    unfold buildMemory at built
    dsimp only at built
    split_ifs at built
    exact Option.some.inj built
  rw [← hm]
  exact MemoryArena.dvd_allocateIf _ _ _ (k := 6) (by decide)

section Layout

variable {bp : GraphBlueprint α} {B : Nat} {rates : Rates}

/-- The samples of node `i`, its channels together. -/
def Layout64.samples (s : Layout64) (bp : GraphBlueprint α) (i : Nat) : Nat :=
  bp.outputsOf i * s.outStride.getD i 0

/-- The base of node `i`, modulo 8, is the sum of the samples before it: wrapping at `2 ^ 64`
does not change that. -/
theorem outBase_dvd {i : Nat} (hi : i < bp.size) (x : Nat) :
    8 ∣ (layout64 bp B rates).outBaseSample.getD i 0 + x ↔
      8 ∣ ((List.range i).map ((layout64 bp B rates).samples bp)).sum + x := by
  have hstride : ∀ k < bp.size, (layout64 bp B rates).outStride.getD k 0
      = sizeT ((rates k).regionRate * B) := fun k hk => getD_map_range _ hk 0
  have hsum : ((List.range i).map ((layout64 bp B rates).samples bp)).sum =
      ((List.range i).map fun k => bp.outputsOf k * sizeT ((rates k).regionRate * B)).sum := by
    refine congrArg List.sum (List.map_congr_left fun k hk => ?_)
    have hlt := List.mem_range.mp hk
    rw [Layout64.samples, hstride k (by omega)]
  have hbase : (layout64 bp B rates).outBaseSample.getD i 0 =
      sizeT ((List.range i).map fun k => bp.outputsOf k * sizeT ((rates k).regionRate * B)).sum := by
    have htable : (layout64 bp B rates).outBaseSample = (runningSum
        (fun k => sizeT (bp.outputsOf k * sizeT ((rates k).regionRate * B))) bp.size).1 := rfl
    rw [htable, runningSum_sizeT, runningSum_eq, offsets, List.map_map]
    exact getD_map_range _ hi 0
  rw [hbase, hsum]
  generalize ((List.range i).map fun k => bp.outputsOf k * sizeT ((rates k).regionRate * B)).sum = y
  simp only [sizeT]
  omega

end Layout

/-! ### Starts of parts -/

/-- A channel is laid out behind channel `ch` of node `i`. -/
def Later (count : Nat → Nat) (n i ch : Nat) : Prop :=
  ch + 1 < count i ∨ ∃ j, i < j ∧ j < n ∧ 0 < count j

/-- Nothing is laid out between `i` and `m` where nothing is there. -/
theorem sum_range_gap (size : Nat → Nat) {i m : Nat} (him : i < m)
    (gap : ∀ k, i < k → k < m → size k = 0) :
    ((List.range m).map size).sum = ((List.range i).map size).sum + size i := by
  induction m with
  | zero => omega
  | succ m ih =>
    rw [List.range_succ, List.map_append, List.sum_append, List.map_singleton, List.sum_singleton]
    rcases Nat.eq_or_lt_of_le (Nat.lt_succ_iff.mp him) with rfl | hlt
    · rfl
    · rw [ih hlt fun k h₁ h₂ => gap k h₁ (by omega), gap m hlt (by omega), Nat.add_zero]

/-- Parts of width `width i`, `count i` of them for each `i`, laid out one behind the other: all
start on a multiple of `d` exactly when all but the last are a multiple of `d` wide. -/
theorem starts_dvd_iff (count width : Nat → Nat) (n d : Nat) :
    (∀ i ch, i < n → ch < count i →
      d ∣ ((List.range i).map fun k => count k * width k).sum + ch * width i) ↔
    ∀ i ch, i < n → ch < count i → Later count n i ch → d ∣ width i := by
  constructor
  · intro hstart i ch hi hch hlater
    -- the start behind a part is the end of that part
    have hnext : ∀ c x, c < count i → x = ((List.range i).map fun k => count k * width k).sum +
        (c + 1) * width i → d ∣ x → d ∣ width i := by
      rintro c x hc rfl hdvd
      rw [Nat.add_mul, Nat.one_mul, ← Nat.add_assoc] at hdvd
      exact (Nat.dvd_add_right (hstart i c hi hc)).mp hdvd
    by_cases hin : ch + 1 < count i
    · exact hnext ch _ hch rfl (hstart i (ch + 1) hi hin)
    · have hex : ∃ j, i < j ∧ j < n ∧ 0 < count j := hlater.resolve_left hin
      classical
      obtain ⟨hij, hj, hpos⟩ := Nat.find_spec hex
      have hgap : ∀ k, i < k → k < Nat.find hex → count k * width k = 0 := by
        intro k hik hkj
        have hnone := Nat.find_min hex hkj
        have hzero : count k = 0 := by
          by_contra hne
          exact hnone ⟨hik, by omega, Nat.pos_of_ne_zero hne⟩
        rw [hzero, Nat.zero_mul]
      have hdvd := hstart _ 0 hj hpos
      rw [sum_range_gap _ hij hgap, Nat.zero_mul, Nat.add_zero] at hdvd
      exact hnext ch _ hch (by rw [show ch + 1 = count i by omega]) hdvd
  · intro hwide i ch hi hch
    have hbefore : ∀ k < i, d ∣ count k * width k := by
      intro k hk
      rcases Nat.eq_zero_or_pos (count k) with hzero | hpos
      · rw [hzero, Nat.zero_mul]
        exact dvd_zero d
      · exact Dvd.dvd.mul_left (hwide k 0 (by omega) hpos (.inr ⟨i, hk, hi, by omega⟩)) _
    refine Nat.dvd_add (List.dvd_sum fun x hx => ?_) ?_
    · obtain ⟨k, hk, rfl⟩ := List.mem_map.mp hx
      exact hbefore k (List.mem_range.mp hk)
    · cases ch with
      | zero =>
        rw [Nat.zero_mul]
        exact dvd_zero d
      | succ ch => exact Dvd.dvd.mul_left (hwide i ch hi (by omega) (.inl hch)) _

/-- In an instance of a compiled blueprint, all output buffers start on a SIMD boundary exactly
when all but the last one in the layout have a multiple of 8 samples. -/
theorem buffers_aligned_iff {bp : GraphBlueprint α} {B base : Nat} {s : Layout64}
    {m : InstanceMemory} (W : bp.Wired) (ok : compile64 bp B = some s)
    (built : buildMemory bp B s base = some m) :
    (∀ i ch, i < bp.size → ch < bp.outputsOf i → simdAlign ∣ m.bufferAddress s i ch) ↔
      ∀ i ch, i < bp.size → ch < bp.outputsOf i → Later bp.outputsOf bp.size i ch →
        8 ∣ s.outStride.getD i 0 := by
  have hpool := bufferPool_aligned built
  have haddress : ∀ i ch, simdAlign ∣ m.bufferAddress s i ch ↔
      8 ∣ s.outBaseSample.getD i 0 + ch * s.outStride.getD i 0 := by
    intro i ch
    rw [InstanceMemory.bufferAddress, Nat.dvd_add_right hpool, sampleBytes]
    have hsplit : simdAlign = 8 * 8 := rfl
    rw [hsplit, Nat.mul_dvd_mul_iff_left (by decide)]
  obtain ⟨-, rates, rfl, -⟩ := compile64_eq_some W ok
  rw [← starts_dvd_iff]
  constructor
  · intro h i ch hi hch
    exact (outBase_dvd hi _).mp ((haddress i ch).mp (h i ch hi hch))
  · intro h i ch hi hch
    exact (haddress i ch).mpr ((outBase_dvd hi _).mpr (h i ch hi hch))

theorem constantIntoUp2_built : ∃ s m, compile64 constantIntoUp2 64 = some s ∧
    buildMemory constantIntoUp2 64 s 4097 = some m := by
  have U := unwrapped_of_needed (B := 64) constantIntoUp2_made.wired (fun nd hnd =>
    ⟨3, by decide, Lang.standardRegistry_stateAlign (constantIntoUp2_standard nd hnd)⟩) rfl
    (by decide)
  exact ⟨_, _, rfl, buildMemory_eq U (by decide) (by decide)⟩

theorem buffers_aligned_iff_constantIntoUp2 : ∃ s m, compile64 constantIntoUp2 64 = some s ∧
    buildMemory constantIntoUp2 64 s 4097 = some m ∧
    ((∀ i ch, i < constantIntoUp2.size → ch < constantIntoUp2.outputsOf i →
        simdAlign ∣ m.bufferAddress s i ch) ↔
      ∀ i ch, i < constantIntoUp2.size → ch < constantIntoUp2.outputsOf i →
        Later constantIntoUp2.outputsOf constantIntoUp2.size i ch → 8 ∣ s.outStride.getD i 0) := by
  obtain ⟨s, m, ok, built⟩ := constantIntoUp2_built
  exact ⟨s, m, ok, built, buffers_aligned_iff constantIntoUp2_made.wired ok built⟩

/-- In blocks of one sample the second of two buffers starts 8 bytes behind the first. -/
theorem twoConstants_unaligned : isPowerOfTwo 1 = true ∧ twoConstants.Wired ∧
    ∃ s m, compile64 twoConstants 1 = some s ∧ buildMemory twoConstants 1 s 4096 = some m ∧
      ¬∀ i ch, i < twoConstants.size → ch < twoConstants.outputsOf i →
        simdAlign ∣ m.bufferAddress s i ch := by
  have W : twoConstants.Wired := .bare rfl rfl
  have U := unwrapped_of_needed (B := 1) W (fun nd hnd =>
    ⟨3, by decide, Lang.standardRegistry_stateAlign (twoConstants_standard nd hnd)⟩) rfl (by decide)
  have built := buildMemory_eq U (by decide : 0 < 4096) (by decide)
  have hpool := bufferPool_aligned built
  refine ⟨by decide, W, _, _, rfl, built, fun h => ?_⟩
  have hsecond := h 1 0 (by decide) (by decide)
  rw [InstanceMemory.bufferAddress, Nat.dvd_add_right hpool] at hsecond
  exact absurd hsecond (by decide)

/-- A block of at least 8 samples is enough. -/
theorem aligned_of_eight_dvd {bp : GraphBlueprint α} {B : Nat} {s : Layout64} (W : bp.Wired)
    (ok : compile64 bp B = some s) (eight : 8 ∣ B) {i : Nat} (hi : i < bp.size) :
    8 ∣ s.outStride.getD i 0 := by
  obtain ⟨-, rates, rfl, -⟩ := compile64_eq_some W ok
  have hstride : (layout64 bp B rates).outStride.getD i 0 = sizeT ((rates i).regionRate * B) :=
    getD_map_range _ hi 0
  rw [hstride, sizeT, Nat.dvd_mod_iff (by decide)]
  exact eight.mul_left _

end Xrune
