import Mathlib

/-!
# Support — the discrete Fourier transform

The transform of length `n` at a root of unity `W`, over any commutative ring (`dft`).  A transform
of even length is two transforms of half the length, of the even and of the odd samples, joined by
butterflies (`dft_low`, `dft_high`); the one at the inverse of a principal root undoes it, up to the
factor `n` (`dft_inverse`).
-/

namespace Xrune

variable {A : Type} [CommRing A]

/-- The discrete Fourier transform of length `n` at `W`. -/
def dft (W : A) (n : Nat) (x : Nat → A) (k : Nat) : A := ∑ j ∈ Finset.range n, x j * W ^ (j * k)

@[simp] theorem dft_one (W : A) (x : Nat → A) : dft W 1 x 0 = x 0 := by simp [dft]

theorem dft_congr {W : A} {n k : Nat} {x y : Nat → A} (h : ∀ j < n, x j = y j) :
    dft W n x k = dft W n y k :=
  Finset.sum_congr rfl fun j hj => by rw [h j (Finset.mem_range.mp hj)]

theorem dft_smul (W c : A) (n : Nat) (x : Nat → A) (k : Nat) :
    dft W n (fun j => c * x j) k = c * dft W n x k := by
  rw [dft, dft, Finset.mul_sum]
  exact Finset.sum_congr rfl fun j _ => mul_assoc _ _ _

theorem sum_range_two_mul (m : Nat) (f : Nat → A) :
    ∑ j ∈ Finset.range (2 * m), f j
      = ∑ j ∈ Finset.range m, f (2 * j) + ∑ j ∈ Finset.range m, f (2 * j + 1) := by
  induction m with
  | zero => simp
  | succ m ih =>
      rw [show 2 * (m + 1) = 2 * m + 1 + 1 by omega, Finset.sum_range_succ, Finset.sum_range_succ,
        ih, Finset.sum_range_succ, Finset.sum_range_succ]
      ring

/-- A transform of even length, from those of the even and of the odd samples. -/
theorem dft_split (W : A) (m : Nat) (x : Nat → A) (k : Nat) :
    dft W (2 * m) x k
      = dft (W ^ 2) m (fun j => x (2 * j)) k + W ^ k * dft (W ^ 2) m (fun j => x (2 * j + 1)) k := by
  rw [dft, sum_range_two_mul, dft, dft, Finset.mul_sum]
  congr 1
  · exact Finset.sum_congr rfl fun j _ => by rw [← pow_mul, mul_assoc]
  · refine Finset.sum_congr rfl fun j _ => ?_
    rw [← pow_mul, add_mul, one_mul, pow_add, mul_assoc 2 j k]
    ring

/-- The transform of half the length repeats. -/
theorem dft_add_half {W : A} {m : Nat} (hW : W ^ m = -1) (x : Nat → A) (k : Nat) :
    dft (W ^ 2) m x (m + k) = dft (W ^ 2) m x k := by
  refine Finset.sum_congr rfl fun j _ => ?_
  have turn : (W ^ 2) ^ m = 1 := by rw [← pow_mul, mul_comm, pow_mul, hW, neg_one_sq]
  rw [Nat.mul_add, pow_add, mul_comm j m, pow_mul, turn, one_pow, one_mul]

/-- The lower output of a butterfly. -/
theorem dft_low (W : A) (m : Nat) (x : Nat → A) (k : Nat) :
    dft (W ^ 2) m (fun j => x (2 * j)) k + W ^ k * dft (W ^ 2) m (fun j => x (2 * j + 1)) k
      = dft W (2 * m) x k :=
  (dft_split W m x k).symm

/-- The upper output of a butterfly. -/
theorem dft_high {W : A} {m : Nat} (hW : W ^ m = -1) (x : Nat → A) (k : Nat) :
    dft (W ^ 2) m (fun j => x (2 * j)) k - W ^ k * dft (W ^ 2) m (fun j => x (2 * j + 1)) k
      = dft W (2 * m) x (m + k) := by
  rw [dft_split, dft_add_half hW, dft_add_half hW, pow_add, hW]
  ring

/-! ### Principal roots of unity -/

/-- A principal `n`-th root of unity. -/
structure IsPrincipalRoot (W : A) (n : Nat) : Prop where
  pow : W ^ n = 1
  sum : ∀ k, 0 < k → k < n → ∑ j ∈ Finset.range n, W ^ (j * k) = 0

namespace IsPrincipalRoot

variable {W V : A} {n : Nat}

theorem of_forall_lt (pow : W ^ n = 1)
    (sum : ∀ k < n, 0 < k → ∑ j ∈ Finset.range n, W ^ (j * k) = 0) : IsPrincipalRoot W n :=
  ⟨pow, fun k hpos hk => sum k hk hpos⟩

/-- Where `n` is no zero divisor, half a turn is `-1`. -/
theorem half {m : Nat} (h : IsPrincipalRoot W (2 * m)) (hm : 0 < m)
    (regular : ∀ a : A, ((2 * m : Nat) : A) * a = 0 → a = 0) : W ^ m = -1 := by
  have square : (W ^ m) ^ 2 = 1 := by rw [← pow_mul, mul_comm, h.pow]
  have sum := h.sum m hm (by omega)
  have even : ∀ j ∈ Finset.range m, W ^ (2 * j * m) = 1 := by
    intro j _
    rw [show 2 * j * m = m * 2 * j by ring, pow_mul, pow_mul, square, one_pow]
  have odd : ∀ j ∈ Finset.range m, W ^ ((2 * j + 1) * m) = W ^ m := by
    intro j hj
    rw [add_mul, one_mul, pow_add, even j hj, one_mul]
  rw [sum_range_two_mul, Finset.sum_congr rfl even, Finset.sum_congr rfl odd, Finset.sum_const,
    Finset.sum_const, Finset.card_range, nsmul_eq_mul, nsmul_eq_mul, mul_one] at sum
  refine eq_neg_of_add_eq_zero_right (regular _ ?_)
  push_cast
  linear_combination 2 * sum

/-- The powers of the inverse are powers of the root. -/
theorem inverse_pow (h : IsPrincipalRoot W n) (inv : W * V = 1) {d : Nat} (hd : d ≤ n) :
    V ^ d = W ^ (n - d) := by
  have whole : W ^ (n - d) * W ^ d = 1 := by rw [← pow_add, Nat.sub_add_cancel hd, h.pow]
  have part : W ^ d * V ^ d = 1 := by rw [← mul_pow, inv, one_pow]
  calc V ^ d = W ^ (n - d) * W ^ d * V ^ d := by rw [whole, one_mul]
    _ = W ^ (n - d) := by rw [mul_assoc, part, mul_one]

/-- The rows of the transform and of its inverse are orthogonal. -/
theorem orthogonal (h : IsPrincipalRoot W n) (inv : W * V = 1) {j l : Nat} (hj : j < n)
    (hl : l < n) :
    ∑ k ∈ Finset.range n, W ^ (j * k) * V ^ (k * l) = if j = l then (n : A) else 0 := by
  have power (k : Nat) : W ^ (j * k) * V ^ (k * l)
      = if l ≤ j then W ^ (k * (j - l)) else W ^ (k * (n - (l - j))) := by
    have cancel (i : Nat) : W ^ (i * k) * V ^ (i * k) = 1 := by
      rw [← mul_pow, inv, one_pow]
    split_ifs with hle
    · have part : W ^ (j * k) = W ^ (k * (j - l)) * W ^ (l * k) := by
        rw [← pow_add, mul_comm k, ← add_mul, Nat.sub_add_cancel hle]
      rw [part, mul_assoc, mul_comm k l, cancel, mul_one]
    · have part : V ^ (k * l) = V ^ (j * k) * (V ^ (l - j)) ^ k := by
        rw [← pow_mul, ← pow_add, ← add_mul, Nat.add_sub_cancel' (by omega), mul_comm]
      rw [part, ← mul_assoc, cancel, one_mul, h.inverse_pow inv (by omega), ← pow_mul, mul_comm]
  rw [Finset.sum_congr rfl fun k _ => power k]
  rcases Nat.lt_trichotomy j l with hlt | rfl | hgt
  · rw [if_neg (by omega)]
    simp only [if_neg (show ¬l ≤ j by omega)]
    exact h.sum _ (by omega) (by omega)
  · simp
  · rw [if_neg (by omega)]
    simp only [if_pos hgt.le]
    exact h.sum _ (by omega) (by omega)

/-- The transform at the inverse of the root undoes the transform, up to the factor `n`. -/
theorem dft_inverse (h : IsPrincipalRoot W n) (inv : W * V = 1) (x : Nat → A) {l : Nat}
    (hl : l < n) : dft V n (dft W n x) l = n * x l := by
  have swap : dft V n (dft W n x) l
      = ∑ j ∈ Finset.range n, x j * ∑ k ∈ Finset.range n, W ^ (j * k) * V ^ (k * l) := by
    simp only [dft, Finset.sum_mul, Finset.mul_sum]
    rw [Finset.sum_comm]
    exact Finset.sum_congr rfl fun j _ => Finset.sum_congr rfl fun k _ => mul_assoc _ _ _
  have row : ∀ j ∈ Finset.range n,
      x j * ∑ k ∈ Finset.range n, W ^ (j * k) * V ^ (k * l) = if j = l then n * x l else 0 := by
    intro j hj
    rw [h.orthogonal inv (Finset.mem_range.mp hj) hl]
    split_ifs with hjl
    · rw [hjl, mul_comm]
    · rw [mul_zero]
  rw [swap, Finset.sum_congr rfl row, Finset.sum_ite_eq' (Finset.range n) l,
    if_pos (Finset.mem_range.mpr hl)]

end IsPrincipalRoot

end Xrune
