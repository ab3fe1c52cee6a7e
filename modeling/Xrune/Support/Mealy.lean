import Xrune.Support.Graph

/-!
# Support — Mealy machines

A machine reads an endless word letter by letter and writes one letter for each.  What it writes
depends on what it has read so far (`out_congr`), and it may be stopped anywhere and taken up
again (`out_add`).  So a word may be cut into pieces of any size.

Machines wired to each other, each reading what those that feed it write, have at most one
behaviour when the wiring is acyclic (`Acyclic.solutions_agree`).
-/

namespace Xrune

structure Mealy (σ ι ο : Type*) where
  step : σ → ι → σ × ο

namespace Mealy

variable {σ ι ο : Type*} (M : Mealy σ ι ο) {s : σ} {x y : Nat → ι} {n : Nat}

/-- The state before letter `n`. -/
def after (s : σ) (x : Nat → ι) : Nat → σ
  | 0     => s
  | n + 1 => (M.step (after s x n) (x n)).1

/-- What is written at letter `n`. -/
def out (s : σ) (x : Nat → ι) (n : Nat) : ο := (M.step (M.after s x n) (x n)).2

theorem after_congr (same : ∀ i < n, x i = y i) : M.after s x n = M.after s y n := by
  induction n with
  | zero => rfl
  | succ n ih =>
      rw [after, after, ih fun i hi => same i (Nat.lt_succ_of_lt hi), same n (Nat.lt_succ_self n)]

theorem out_congr (same : ∀ i ≤ n, x i = y i) : M.out s x n = M.out s y n := by
  rw [out, out, M.after_congr fun i hi => same i hi.le, same n le_rfl]

theorem after_add (s : σ) (x : Nat → ι) (m n : Nat) :
    M.after s x (m + n) = M.after (M.after s x m) (fun i => x (m + i)) n := by
  induction n with
  | zero => rfl
  | succ n ih => rw [← Nat.add_assoc, after, ih, after]

/-- **A machine taken up again goes on as it would have.** -/
theorem out_add (s : σ) (x : Nat → ι) (m n : Nat) :
    M.out s x (m + n) = M.out (M.after s x m) (fun i => x (m + i)) n := by
  rw [out, out, after_add]

end Mealy

/-- **An acyclic system has at most one solution**: where what a node shows is derived from what
the nodes that feed it show, two ways to show it agree. -/
theorem Acyclic.solutions_agree {V β : Type*} {E : List (V × V)} {l : List V}
    (preds : ∀ l₁ v l₂, l = l₁ ++ v :: l₂ → ∀ u, (u, v) ∈ E → u ∈ l₁)
    {F : V → (V → β) → β} {f g : V → β}
    (reads : ∀ v ∈ l, (∀ u, (u, v) ∈ E → f u = g u) → F v f = F v g)
    (hf : ∀ v ∈ l, f v = F v f) (hg : ∀ v ∈ l, g v = F v g) : ∀ v ∈ l, f v = g v :=
  order_induction preds fun v hv same => by rw [hf v hv, hg v hv, reads v hv same]

end Xrune
