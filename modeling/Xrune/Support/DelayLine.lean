import Mathlib

/-!
# Support — delay lines and convolution

A delay line of `n` cells holds the last `n` samples pushed to it, written at an index that wraps
(`Delayed`).  Read backwards from the sample just written it gives the past, the newest sample
first, so the sum it is read for is a value of the convolution of the taps with the whole history
(`firs_eq_conv`).  A stream filtered in pieces is the stream filtered at once (`firs_append`).
-/

namespace Xrune

/-! ### A circular delay line -/

section DelayLine

variable {α : Type} [Zero α] {n : Nat} {past z : List α} {pos : Nat}

/-- `z` holds the last `n` samples of `past`, the newest first and zeros before the first of them.
The next one goes to `pos`. -/
structure Delayed (n : Nat) (past z : List α) (pos : Nat) : Prop where
  size : z.length = n
  inside : pos < n
  taps : ∀ k < n, z[(pos + (n - 1 - k)) % n]? = some (past.getD k 0)

theorem Delayed.start (h : 0 < n) : Delayed n [] (List.replicate n (0 : α)) 0 where
  size := List.length_replicate
  inside := h
  taps k hk := by rw [List.getElem?_replicate, if_pos (Nat.mod_lt _ h)]; rfl

/-- The index `k` steps before `pos`, taken one step further. -/
theorem back_step (hpos : pos < n) {k : Nat} (hk : k < n) :
    (if (pos + (n - k)) % n = 0 then n - 1 else (pos + (n - k)) % n - 1)
      = (pos + (n - (k + 1))) % n := by
  by_cases hwrap : k ≤ pos
  · have here : (pos + (n - k)) % n = pos - k := by
      rw [show pos + (n - k) = pos - k + n by omega, Nat.add_mod_right,
        Nat.mod_eq_of_lt (by omega)]
    rw [here]
    by_cases hz : pos - k = 0
    · rw [if_pos hz, show pos + (n - (k + 1)) = n - 1 by omega, Nat.mod_eq_of_lt (by omega)]
    · rw [if_neg hz, show pos + (n - (k + 1)) = pos - k - 1 + n by omega, Nat.add_mod_right,
        Nat.mod_eq_of_lt (by omega)]
  · have here : (pos + (n - k)) % n = pos + (n - k) := Nat.mod_eq_of_lt (by omega)
    rw [here, if_neg (by omega), show pos + (n - k) - 1 = pos + (n - (k + 1)) by omega,
      Nat.mod_eq_of_lt (by omega)]

/-- The samples read backwards from the one just written. -/
theorem Delayed.read (h : Delayed n past z pos) (x : α) {k : Nat} (hk : k < n) :
    (z.set pos x)[(pos + (n - k)) % n]? = some ((x :: past).getD k 0) := by
  cases k with
  | zero =>
      have same : (pos + (n - 0)) % n = pos := by
        rw [Nat.sub_zero, Nat.add_mod_right, Nat.mod_eq_of_lt h.inside]
      rw [same, List.getElem?_set_self (by rw [h.size]; exact h.inside)]
      rfl
  | succ k =>
      have other : pos ≠ (pos + (n - (k + 1))) % n := by
        intro heq
        by_cases hwrap : k + 1 ≤ pos
        · rw [show pos + (n - (k + 1)) = pos - (k + 1) + n by omega, Nat.add_mod_right,
            Nat.mod_eq_of_lt (by have := h.inside; omega)] at heq
          omega
        · rw [Nat.mod_eq_of_lt (by omega)] at heq
          omega
      rw [List.getElem?_set_ne other, show n - (k + 1) = n - 1 - k by omega]
      exact h.taps k (by omega)

/-- A sample pushed. -/
theorem Delayed.push (h : Delayed n past z pos) (x : α) :
    Delayed n (x :: past) (z.set pos x) ((pos + 1) % n) where
  size := by rw [List.length_set, h.size]
  inside := Nat.mod_lt _ (by have := h.inside; omega)
  taps k hk := by
    have := h.inside
    rw [Nat.mod_add_mod, show pos + 1 + (n - 1 - k) = pos + (n - k) by omega]
    exact h.read x hk

end DelayLine

/-! ### Convolution -/

variable {R : Type} [Semiring R]

/-- The convolution of two streams. -/
def conv (h x : Nat → R) (t : Nat) : R := ∑ p ∈ Finset.HasAntidiagonal.antidiagonal t, h p.1 * x p.2

/-- A list as a stream, zero outside the list. -/
def asStream (l : List R) (t : Nat) : R := l.getD t 0

@[simp] theorem asStream_nil (t : Nat) : asStream ([] : List R) t = 0 := rfl

@[simp] theorem asStream_cons_zero (x : R) (l : List R) : asStream (x :: l) 0 = x := rfl

@[simp] theorem asStream_cons_succ (x : R) (l : List R) (t : Nat) :
    asStream (x :: l) (t + 1) = asStream l t := rfl

theorem asStream_of_le {l : List R} {t : Nat} (h : l.length ≤ t) : asStream l t = 0 := by
  rw [asStream, List.getD_eq_getElem?_getD, List.getElem?_eq_none h]
  rfl

theorem asStream_eq {l : List R} {t : Nat} {x : R} (h : l[t]? = some x) : asStream l t = x := by
  rw [asStream, List.getD_eq_getElem?_getD, h]
  rfl

theorem getElem?_eq_asStream {l : List R} {i : Nat} (hi : i < l.length) :
    l[i]? = some (asStream l i) := by
  rw [asStream, List.getD_eq_getElem?_getD, List.getElem?_eq_getElem hi]
  rfl

/-- The taps `h` against the past, the newest sample first. -/
def fir (h past : List R) : R := ∑ k ∈ Finset.range h.length, asStream h k * asStream past k

/-- A stream filtered sample by sample, after `past`. -/
def firs (h : List R) : List R → List R → List R
  | _, []         => []
  | past, x :: xs => fir h (x :: past) :: firs h (x :: past) xs

@[simp] theorem length_firs (h : List R) : ∀ past xs, (firs h past xs).length = xs.length
  | _, []         => rfl
  | past, x :: xs => by rw [firs, List.length_cons, length_firs h, List.length_cons]

/-- A stream filtered in two pieces. -/
theorem firs_append (h : List R) : ∀ past xs ys,
    firs h past (xs ++ ys) = firs h past xs ++ firs h (xs.reverse ++ past) ys
  | _, [], _          => rfl
  | past, x :: xs, ys => by
      rw [List.cons_append, firs, firs_append h, firs, List.cons_append, List.reverse_cons,
        List.append_assoc, List.singleton_append]

theorem getElem?_firs (h : List R) : ∀ past xs t, t < xs.length →
    (firs h past xs)[t]? = some (fir h ((xs.take (t + 1)).reverse ++ past))
  | past, x :: xs, 0, _     => by simp [firs]
  | past, x :: xs, t + 1, ht => by
      rw [firs, List.getElem?_cons_succ, getElem?_firs h (x :: past) xs t (by simpa using ht)]
      simp

/-- The past of a stream at `t`, as a stream that runs backwards. -/
theorem asStream_reverse_take (xs : List R) {t k : Nat} (ht : t < xs.length) :
    asStream (xs.take (t + 1)).reverse k = if k ≤ t then asStream xs (t - k) else 0 := by
  have hlen : (xs.take (t + 1)).length = t + 1 := by rw [List.length_take]; omega
  by_cases hk : k ≤ t
  · rw [if_pos hk, asStream, asStream, List.getD_eq_getElem?_getD, List.getD_eq_getElem?_getD,
      List.getElem?_reverse (by omega), hlen, List.getElem?_take, if_pos (by omega)]
    rw [show t + 1 - 1 - k = t - k by omega]
  · rw [if_neg hk]
    exact asStream_of_le (by rw [List.length_reverse]; omega)

/-- The sum over the taps is the convolution with the whole history. -/
theorem fir_reverse_take (h xs : List R) {t : Nat} (ht : t < xs.length) :
    fir h (xs.take (t + 1)).reverse = conv (asStream h) (asStream xs) t := by
  have summand : ∀ k ∈ Finset.range h.length,
      asStream h k * asStream (xs.take (t + 1)).reverse k
        = if k ∈ Finset.range (t + 1) then asStream h k * asStream xs (t - k) else 0 := by
    intro k _
    rw [asStream_reverse_take xs ht, mul_ite, mul_zero]
    simp only [Finset.mem_range, Nat.lt_succ_iff]
  have taps : ∀ k ∈ Finset.range (t + 1), asStream h k * asStream xs (t - k)
      = if k ∈ Finset.range h.length then asStream h k * asStream xs (t - k) else 0 := by
    intro k _
    split_ifs with hk
    · rfl
    · rw [asStream_of_le (by simpa using hk), zero_mul]
  rw [fir, conv, Finset.sum_congr rfl summand, Finset.sum_ite_mem,
    Finset.Nat.sum_antidiagonal_eq_sum_range_succ fun i j => asStream h i * asStream xs j,
    Finset.sum_congr rfl taps, Finset.sum_ite_mem, Finset.inter_comm]

/-- A stream filtered from silence is its convolution with the taps. -/
theorem firs_eq_conv (h xs : List R) :
    firs h [] xs = (List.range xs.length).map (conv (asStream h) (asStream xs)) := by
  refine List.ext_getElem? fun t => ?_
  by_cases ht : t < xs.length
  · rw [getElem?_firs h [] xs t ht, List.append_nil, fir_reverse_take h xs ht, List.getElem?_map,
      List.getElem?_range ht]
    rfl
  · rw [List.getElem?_eq_none (by simpa using ht), List.getElem?_eq_none (by simpa using ht)]

/-- Once as many samples are past as there are taps, the convolution is a sum over the taps. -/
theorem conv_of_taps_le {h : List R} {t : Nat} (ht : h.length ≤ t + 1) (x : Nat → R) :
    conv (asStream h) x t = ∑ k ∈ Finset.range h.length, asStream h k * x (t - k) := by
  rw [conv, Finset.Nat.sum_antidiagonal_eq_sum_range_succ fun i j => asStream h i * x j]
  symm
  refine Finset.sum_subset (Finset.range_subset_range.mpr ht) fun k _ hk => ?_
  rw [asStream_of_le (by simpa using hk), zero_mul]

/-! ### Zero-stuffing and decimation -/

/-- A stream at twice its rate, a zero after each sample. -/
def stuffed (x : Nat → R) (t : Nat) : R := if t % 2 = 0 then x (t / 2) else 0

def stuff : List R → List R
  | []      => []
  | x :: xs => x :: 0 :: stuff xs

@[simp] theorem length_stuff : ∀ xs : List R, (stuff xs).length = 2 * xs.length
  | []      => rfl
  | x :: xs => by rw [stuff, List.length_cons, List.length_cons, length_stuff xs, List.length_cons];
                  omega

theorem stuff_append : ∀ xs ys : List R, stuff (xs ++ ys) = stuff xs ++ stuff ys
  | [], _       => rfl
  | x :: xs, ys => by rw [List.cons_append, stuff, stuff_append xs ys, stuff]; rfl

theorem asStream_stuff : ∀ (xs : List R) (t : Nat),
    asStream (stuff xs) t = stuffed (asStream xs) t
  | [], t          => by simp [stuff, stuffed]
  | x :: xs, 0     => rfl
  | x :: xs, 1     => rfl
  | x :: xs, t + 2 => by
      rw [stuff, asStream_cons_succ, asStream_cons_succ, asStream_stuff xs t, stuffed, stuffed,
        Nat.add_mod_right, Nat.add_div_right t two_pos, asStream_cons_succ]

section Decimation

variable {α : Type}

/-- Every other sample, from the first. -/
def evens : List α → List α
  | []           => []
  | [x]          => [x]
  | x :: _ :: xs => x :: evens xs

theorem getElem?_evens : ∀ (xs : List α) (j : Nat), (evens xs)[j]? = xs[2 * j]?
  | [], _              => by simp [evens]
  | [x], 0             => rfl
  | [x], j + 1         => by simp [evens]
  | x :: y :: xs, 0     => rfl
  | x :: y :: xs, j + 1 => by
      rw [evens, List.getElem?_cons_succ, getElem?_evens xs j,
        show 2 * (j + 1) = 2 * j + 1 + 1 by omega, List.getElem?_cons_succ,
        List.getElem?_cons_succ]

theorem length_evens : ∀ xs : List α, (evens xs).length = (xs.length + 1) / 2
  | []           => by simp [evens]
  | [_]          => by simp [evens]
  | _ :: _ :: xs => by
      simp only [evens, List.length_cons, length_evens xs]
      omega

theorem evens_append : ∀ xs ys : List α, xs.length % 2 = 0 →
    evens (xs ++ ys) = evens xs ++ evens ys
  | [], _, _            => rfl
  | [_], _, h           => absurd h (by simp)
  | x :: y :: xs, ys, h => by
      have rest : xs.length % 2 = 0 := by simp only [List.length_cons] at h; omega
      rw [List.cons_append, List.cons_append, evens, evens_append xs ys rest, evens,
        List.cons_append]

theorem evens_concat_of_even {xs : List α} (h : xs.length % 2 = 0) (y : α) :
    evens (xs ++ [y]) = evens xs ++ [y] := by
  rw [evens_append xs [y] h, evens]

theorem evens_concat_of_odd : ∀ {xs : List α}, xs.length % 2 = 1 → ∀ y : α,
    evens (xs ++ [y]) = evens xs
  | [_], _, _           => rfl
  | _ :: _ :: xs, h, y  => by
      have rest : xs.length % 2 = 1 := by simp only [List.length_cons] at h; omega
      rw [List.cons_append, List.cons_append, evens, evens_concat_of_odd rest, evens]

end Decimation

end Xrune
