import Xrune.Core.Schedule
import Xrune.Nodes.Safe

/-!
# Nodes — the transform stays within its arrays

On arrays of `n` samples the radix-2 transform of size `n` keeps within them and its tables when
`n` is a power of two (`FftPlan.keeps_transform`).  It leaves them at every other size: the
butterflies of a length that does not divide `n` reach past its end, and some power of two up
to `n` is such a length (`FftPlan.isPowerOfTwo_of_transform`).
-/

namespace Xrune.Nodes

open Access

variable {α : Type} {I : Frame α → Prop} {n : Nat}

/-- Reading and writing the first `n` places of the lane does not trap. -/
def Lane.Safe (I : Frame α → Prop) (n : Nat) (l : Lane α) : Prop :=
  ∀ i < n, Keeps I (l.get i) (fun _ => True) ∧ ∀ x, Keeps I (l.put i x) fun _ => True

theorem Lane.Safe.ofCells {S : Shape} {P : List Nat → Prop} {base : Nat}
    (h : base + n ≤ S.cells) : (Lane.ofCells base : Lane α).Safe (Frame.Good S P) n :=
  fun _ hi => ⟨keeps_cell (by omega), keeps_setCell (by omega)⟩

theorem Lane.Safe.ofOutput {S : Shape} {P : List Nat → Prop} {c : Nat}
    (h : S.outputs[c]? = some n) : (Lane.ofOutput c : Lane α).Safe (Frame.Good S P) n :=
  fun _ hi => ⟨keeps_output h hi, keeps_setOutput h hi⟩

theorem Lane.Safe.swap {l : Lane α} (h : l.Safe I n) {i j : Nat} (hi : i < n) (hj : j < n) :
    Keeps I (l.swap i j) fun _ => True :=
  (h i hi).1.seq fun _ => (h j hj).1.seq fun _ => ((h i hi).2 _).seq fun _ => (h j hj).2 _

/-- Reading and writing the lane leaves the invariant as it is. -/
structure Lane.Steady (I : Frame α → Prop) (l : Lane α) : Prop where
  get : ∀ i, Stays I (l.get i)
  put : ∀ i x, Stays I (l.put i x)

theorem Lane.Steady.ofCells (S : Shape) (P : List Nat → Prop) (base : Nat) :
    (Lane.ofCells base : Lane α).Steady (Frame.Good S P) where
  get _ := stays_cell _
  put _ x := stays_setCell _ x

theorem Lane.Steady.ofOutput (S : Shape) (P : List Nat → Prop) (c : Nat) :
    (Lane.ofOutput c : Lane α).Steady (Frame.Good S P) where
  get _ := stays_output c _
  put _ x := stays_setOutput c _ x

theorem Lane.Steady.swap {l : Lane α} (h : l.Steady I) (i j : Nat) : Stays I (l.swap i j) :=
  (h.get i).bind fun _ => (h.get j).bind fun _ => (h.put i _).bind fun _ => h.put j _

/-! ### The tables -/

theorem bitReverse_lt (levels i : Nat) : bitReverse levels i < 2 ^ levels := by
  have along : ∀ (l : List Nat) (r : Nat), (∀ b ∈ l, b < levels) → r < 2 ^ levels →
      l.foldl (fun r b => if i.testBit b then r ||| 2 ^ (levels - 1 - b) else r) r
        < 2 ^ levels := by
    intro l
    induction l with
    | nil => exact fun _ _ hr => hr
    | cons b l ih =>
        intro r hl hr
        have hb : b < levels := hl b List.mem_cons_self
        refine ih _ (fun c hc => hl c (List.mem_cons_of_mem b hc)) ?_
        dsimp only
        split
        · exact Nat.or_lt_two_pow hr (Nat.pow_lt_pow_right (by omega) (by omega))
        · exact hr
  exact along _ 0 (fun b hb => List.mem_range.mp hb) (Nat.two_pow_pos _)

section Transform

variable [Sample α] [Trig α]

theorem mem_brev_lt (hn : isPowerOfTwo n = true) {j : Nat}
    (hj : j ∈ (FftPlan.init n : FftPlan α).brev) : j < n := by
  obtain ⟨m, rfl⟩ := isPowerOfTwo_iff.mp hn
  obtain ⟨i, -, rfl⟩ := List.mem_map.mp hj
  rw [fftLevels, Nat.clog_pow 2 m (by omega)]
  exact bitReverse_lt m i

theorem mem_fftLengths (hn : isPowerOfTwo n = true) {len : Nat} (h : len ∈ fftLengths n) :
    len ∣ n ∧ 2 ∣ len ∧ 0 < len := by
  obtain ⟨m, rfl⟩ := isPowerOfTwo_iff.mp hn
  obtain ⟨k, hk, rfl⟩ := List.mem_map.mp h
  rw [List.mem_range, Nat.log_pow (by omega)] at hk
  exact ⟨Nat.pow_dvd_pow 2 hk, dvd_pow_self 2 (by omega), Nat.two_pow_pos _⟩

/-! ### Within the arrays -/

namespace FftPlan

variable {re im : Lane α} {inv : Bool}

theorem keeps_butterfly (hre : re.Safe I n) (him : im.Safe I n) {k a b : Nat} (hk : k < n / 2)
    (ha : a < n) (hb : b < n) :
    Keeps I ((FftPlan.init n).butterfly re im inv k a b) fun _ => True := by
  have cos : k < (FftPlan.init n : FftPlan α).twCos.length := by simpa [FftPlan.init] using hk
  have sin : k < (FftPlan.init n : FftPlan α).twSin.length := by simpa [FftPlan.init] using hk
  exact (keeps_nth cos).seq fun _ => (keeps_nth sin).seq fun _ => (hre b hb).1.seq fun _ =>
    (him b hb).1.seq fun _ => (hre a ha).1.seq fun _ => (him a ha).1.seq fun _ =>
    ((hre b hb).2 _).seq fun _ => ((him b hb).2 _).seq fun _ => ((hre a ha).2 _).seq fun _ =>
    (him a ha).2 _

theorem keeps_pass (hre : re.Safe I n) (him : im.Safe I n) {len : Nat} (hdvd : len ∣ n)
    (heven : 2 ∣ len) (hlen : 0 < len) :
    Keeps I ((FftPlan.init n).pass re im inv len) fun _ => True := by
  obtain ⟨q, rfl⟩ := hdvd
  obtain ⟨half, rfl⟩ := heven
  have hstep : Keeps I (Access.divide (2 * half * q) (2 * half) : Access α Nat)
      fun step => step = q := by
    rw [Access.divide, if_neg (by omega)]
    exact .pure (Nat.mul_div_cancel_left q hlen)
  refine hstep.bind fun step hs => .forM (fun i hi => keeps_loop fun j hj => ?_) trivial
  subst hs
  obtain ⟨p, hp, rfl⟩ := List.mem_map.mp hi
  have count : (2 * half * step + 2 * half - 1) / (2 * half) = step := by
    rw [Nat.add_sub_assoc (by omega), Nat.mul_add_div hlen, Nat.div_eq_of_lt (by omega)]
    rfl
  have hp : p < step := by
    have hp : p < (2 * half * step + 2 * half - 1) / (2 * half) := List.mem_range.mp hp
    rwa [count] at hp
  have hj : j < half := by omega
  have fits : (p + 1) * (2 * half) ≤ step * (2 * half) := Nat.mul_le_mul_right _ hp
  rw [Nat.add_mul, one_mul, mul_comm step] at fits
  have twiddle : j * step < half * step := Nat.mul_lt_mul_of_pos_right hj (by omega)
  have hhalf : 2 * half * step / 2 = half * step := by
    rw [mul_assoc, Nat.mul_div_cancel_left _ Nat.two_pos]
  exact keeps_butterfly hre him (by omega) (by omega) (by omega)

/-- **The transform of a power-of-two size stays within its arrays.** -/
theorem keeps_transform (hn : isPowerOfTwo n = true) (hre : re.Safe I n) (him : im.Safe I n) :
    Keeps I ((FftPlan.init n).transform re im inv) fun _ => True := by
  have permute : Keeps I ((FftPlan.init n).permute re im) fun _ => True := by
    refine keeps_loop fun i hi => ?_
    have hbrev : i < (FftPlan.init n : FftPlan α).brev.length := by simpa [FftPlan.init] using hi
    refine (keeps_nth hbrev).bind fun j hj => .ite (fun _ => ?_) fun _ => .pure trivial
    have hj := mem_brev_lt hn hj
    exact (hre.swap hi hj).seq fun _ => him.swap hi hj
  refine permute.seq fun _ => ?_
  refine (Keeps.forM (fun len hlen => ?_) trivial).seq (Q := fun _ => True) fun _ => ?_
  · obtain ⟨hdvd, heven, hpos⟩ := mem_fftLengths hn hlen
    exact keeps_pass hre him hdvd heven hpos
  · refine .ite (fun _ => ?_) fun _ => .pure trivial
    exact keeps_loop fun i hi => (hre i hi).1.seq fun _ => ((hre i hi).2 _).seq fun _ =>
      (him i hi).1.seq fun _ => (him i hi).2 _

end FftPlan

end Transform

/-! ### Past their end -/

namespace FftPlan

variable {re im : Lane α} {inv : Bool} {p : FftPlan α}

theorem stays_permute (hre : re.Steady I) (him : im.Steady I) : Stays I (p.permute re im) :=
  stays_loop fun i => (stays_nth _ i).bind fun j =>
    .ite ((hre.swap i j).bind fun _ => him.swap i j) .pure

variable [Sample α]

theorem stays_butterfly (hre : re.Steady I) (him : im.Steady I) (k a b : Nat) :
    Stays I (p.butterfly re im inv k a b) :=
  (stays_nth _ k).bind fun _ => (stays_nth _ k).bind fun _ => (hre.get b).bind fun _ =>
    (him.get b).bind fun _ => (hre.get a).bind fun _ => (him.get a).bind fun _ =>
    (hre.put b _).bind fun _ => (him.put b _).bind fun _ => (hre.put a _).bind fun _ => him.put a _

theorem stays_pass (hre : re.Steady I) (him : im.Steady I) (len : Nat) :
    Stays I (p.pass re im inv len) :=
  (stays_divide _ _).bind fun _ => .forM (fun _ => stays_loop fun _ => stays_butterfly hre him _ _ _) _

theorem stays_transform (hre : re.Steady I) (him : im.Steady I) :
    Stays I (p.transform re im inv) :=
  (stays_permute hre him).bind fun _ =>
    (Stays.forM (fun len => stays_pass hre him len) _).bind fun _ =>
      .ite (stays_loop fun i => (hre.get i).bind fun _ => (hre.put i _).bind fun _ =>
        (him.get i).bind fun _ => him.put i _) .pure

/-- A pass whose last butterfly stays below `n` has a length that divides `n`. -/
theorem dvd_of_pass (hre : re.Steady I) (him : im.Steady I) {n len : Nat} (hn : p.n = n)
    (bound : ∀ i s x t, I s → StateT.run (im.get i) s = .ok (x, t) → i < n) (hpos : 0 < n)
    (heven : 2 ∣ len) (hlen : 0 < len) {s t : Frame α} (hs : I s)
    (run : StateT.run (p.pass re im inv len) s = .ok ((), t)) : len ∣ n := by
  obtain ⟨half, rfl⟩ := heven
  obtain ⟨step, s₁, hstep, run⟩ := run_bind_ok run
  have hs₁ := stays_divide _ _ s step s₁ hs hstep
  -- the last butterfly starts at `last * len`
  have hdiv := Nat.div_add_mod (n + 2 * half - 1) (2 * half)
  have hmod := Nat.mod_lt (n + 2 * half - 1) hlen
  obtain ⟨last, hlast⟩ : ∃ last, (n + 2 * half - 1) / (2 * half) = last + 1 :=
    Nat.exists_eq_succ_of_ne_zero (Nat.pos_iff_ne_zero.mp (Nat.div_pos (by omega) hlen))
  rw [hlast, Nat.mul_add, mul_one] at hdiv
  have hstart : last * (2 * half) ∈ fftStarts n (2 * half) :=
    List.mem_map_of_mem (List.mem_range.mpr (by omega))
  rw [hn] at run
  obtain ⟨s₂, t₂, hs₂, run⟩ :=
    Stays.forM_ok (fun _ => stays_loop fun _ => stays_butterfly hre him _ _ _) hs₁ run _ hstart
  have hhalf : 2 * half / 2 = half := Nat.mul_div_cancel_left half Nat.two_pos
  obtain ⟨s₃, t₃, hs₃, run⟩ := Stays.forM_ok (fun _ => stays_butterfly hre him _ _ _) hs₂ run
    (half - 1) (List.mem_range.mpr (by omega))
  obtain ⟨_, s₄, h₄, run⟩ := run_bind_ok run
  obtain ⟨_, s₅, h₅, run⟩ := run_bind_ok run
  obtain ⟨_, s₆, h₆, run⟩ := run_bind_ok run
  obtain ⟨_, s₇, h₇, -⟩ := run_bind_ok run
  have hs₆ := hre.get _ _ _ _ (stays_nth _ _ _ _ _ (stays_nth _ _ _ _ _ hs₃ h₄) h₅) h₆
  have hb := bound _ _ _ _ hs₆ h₇
  rw [hhalf, mul_comm last] at hb
  exact ⟨last + 1, by rw [Nat.mul_add, mul_one]; omega⟩

/-- **A transform that ends on arrays of its size has a power of two for it.** -/
theorem isPowerOfTwo_of_transform [Trig α] (hre : re.Steady I) (him : im.Steady I)
    (bound : ∀ i s x t, I s → StateT.run (im.get i) s = .ok (x, t) → i < n) (hpos : 0 < n)
    {s t : Frame α} (hs : I s)
    (run : StateT.run ((FftPlan.init n).transform re im inv) s = .ok ((), t)) :
    isPowerOfTwo n = true := by
  obtain ⟨_, s₁, h₁, run⟩ := run_bind_ok run
  obtain ⟨_, s₂, h₂, -⟩ := run_bind_ok run
  have hs₁ := stays_permute hre him _ _ _ hs h₁
  have dvd : ∀ len ∈ fftLengths n, len ∣ n := by
    intro len hlen
    obtain ⟨s', t', hs', h⟩ :=
      Stays.forM_ok (fun len => stays_pass hre him len) hs₁ h₂ len hlen
    obtain ⟨k, -, rfl⟩ := List.mem_map.mp hlen
    exact dvd_of_pass hre him rfl bound hpos (dvd_pow_self 2 (by omega)) (Nat.two_pow_pos _) hs' h
  have hle := Nat.pow_log_le_self 2 (x := n) (by omega)
  have hlt := Nat.lt_pow_succ_log_self (b := 2) (by omega) n
  have hdvd : 2 ^ Nat.log 2 n ∣ n := by
    cases hlog : Nat.log 2 n with
    | zero => exact one_dvd n
    | succ k => exact dvd _ (List.mem_map_of_mem (List.mem_range.mpr (by omega)))
  -- `n` is a multiple of the greatest power of two up to it
  obtain ⟨q, hq⟩ := hdvd
  refine isPowerOfTwo_iff.mpr ⟨Nat.log 2 n, ?_⟩
  rw [pow_succ] at hlt
  have hpow := Nat.two_pow_pos (Nat.log 2 n)
  have hq1 : q = 1 := by
    have hlt : 2 ^ Nat.log 2 n * q < 2 ^ Nat.log 2 n * 2 := by
      rw [← hq]
      exact hlt
    have hq2 : q < 2 := Nat.lt_of_mul_lt_mul_left hlt
    have hne : q ≠ 0 := by
      rintro rfl
      omega
    omega
  rw [hq1, mul_one] at hq
  exact hq

end FftPlan

end Xrune.Nodes
