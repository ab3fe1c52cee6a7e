import Mathlib

/-!
# Support — glides

A value that glides: it is at `current` and its next leg takes it to `aim`.  It may be aimed
elsewhere at any time, and put somewhere at once by a jump.  Without jumps each leg begins where
the one before it ended (`legs_chain`).

A leg of `n` steps is walked along a line (`line`), whose points lie between its ends.
-/

namespace Xrune

structure Glide (α : Type*) where
  current : α
  aim : α
  deriving DecidableEq, Repr

inductive GlideEvent (α : Type*) where
  | jump (v : α)
  | aim (v : α)
  | leg
  deriving DecidableEq, Repr

/-- The value the event gives to the aim. -/
def GlideEvent.written {α : Type*} : GlideEvent α → Option α
  | .jump v | .aim v => some v
  | .leg             => none

def GlideEvent.isJump {α : Type*} : GlideEvent α → Bool
  | .jump _ => true
  | _       => false

namespace Glide

variable {α : Type*}

/-- At its aim. -/
def rest (v : α) : Glide α := ⟨v, v⟩

def after (g : Glide α) : GlideEvent α → Glide α
  | .jump v => rest v
  | .aim v  => { g with aim := v }
  | .leg    => rest g.aim

/-- The legs of a way: where each begins, and its aim. -/
def legs : Glide α → List (GlideEvent α) → List (Glide α)
  | _, []           => []
  | g, .leg :: es   => g :: legs (g.after .leg) es
  | g, e :: es      => legs (g.after e) es

theorem legs_append (g : Glide α) (es fs : List (GlideEvent α)) :
    g.legs (es ++ fs) = g.legs es ++ (es.foldl after g).legs fs := by
  induction es generalizing g with
  | nil => rfl
  | cons e es ih =>
      cases e with
      | leg => exact congrArg (g :: ·) (ih _)
      | jump v | aim v => exact ih _

/-- Without a leg there is none. -/
theorem legs_of_no_leg (g : Glide α) {es : List (GlideEvent α)} (h : .leg ∉ es) :
    g.legs es = [] := by
  induction es generalizing g with
  | nil => rfl
  | cons e es ih =>
      have rest := fun g => ih g fun hm => h (List.mem_cons_of_mem e hm)
      cases e with
      | leg => exact absurd List.mem_cons_self h
      | jump v | aim v => exact rest _

/-- The aim is the value last written. -/
theorem aim_after (g : Glide α) (es : List (GlideEvent α)) :
    (es.foldl after g).aim = (es.filterMap GlideEvent.written).getLast?.getD g.aim := by
  induction es using List.reverseRecOn with
  | nil => rfl
  | append_singleton es e ih =>
      rw [List.foldl_append, List.filterMap_append]
      cases e with
      | leg =>
          show (es.foldl after g).aim = _
          rw [ih, show [GlideEvent.leg (α := α)].filterMap GlideEvent.written = [] from rfl,
            List.append_nil]
      | jump v | aim v => rw [List.getLast?_append]; rfl

/-- Without jumps the legs join: the first begins where the glide is, and each ends where the
next begins. -/
theorem legs_chain (g : Glide α) {es : List (GlideEvent α)}
    (glides : ∀ e ∈ es, e.isJump = false) :
    (∀ l ∈ (g.legs es).head?, l.current = g.current) ∧
      (g.legs es).IsChain fun l l' => l'.current = l.aim := by
  induction es generalizing g with
  | nil => exact ⟨nofun, .nil⟩
  | cons e es ih =>
      have more := fun g => ih g fun e he => glides e (List.mem_cons_of_mem _ he)
      cases e with
      | jump v => exact absurd (glides _ List.mem_cons_self) Bool.true_eq_false.mp
      | aim v => exact more _
      | leg =>
          obtain ⟨first, chain⟩ := more (g.after .leg)
          refine ⟨fun l hl => ?_, List.isChain_cons.mpr ⟨first, chain⟩⟩
          obtain rfl := Option.some.inj hl
          rfl

/-- What is at rest stays where it is until it is written. -/
theorem rest_after (v : α) {es : List (GlideEvent α)}
    (still : ∀ e ∈ es, e.written = none) : es.foldl after (rest v) = rest v := by
  induction es with
  | nil => rfl
  | cons e es ih =>
      have more := ih fun e he => still e (List.mem_cons_of_mem _ he)
      cases e with
      | leg => exact more
      | jump w | aim w => exact absurd (still _ List.mem_cons_self) (nomatch ·)

/-- Legs keep to a place of rest. -/
theorem legs_rest (v : α) {es : List (GlideEvent α)} (still : ∀ e ∈ es, e.written = none) :
    ∀ l ∈ (rest v).legs es, l = rest v := by
  induction es with
  | nil => nofun
  | cons e es ih =>
      have more := ih fun e he => still e (List.mem_cons_of_mem _ he)
      cases e with
      | leg =>
          intro l hl
          rcases List.mem_cons.mp hl with rfl | hl
          · rfl
          · exact more l hl
      | jump w | aim w => exact absurd (still _ List.mem_cons_self) (nomatch ·)

/-- One leg or more lead to the aim. -/
theorem after_legs (g : Glide α) {n : Nat} (h : 0 < n) :
    (List.replicate n .leg).foldl after g = rest g.aim := by
  obtain ⟨n, rfl⟩ := Nat.exists_eq_succ_of_ne_zero h.ne'
  refine rest_after g.aim fun e he => ?_
  rw [List.eq_of_mem_replicate he]
  rfl

/-- Legs that nobody aims elsewhere have the aim of the first. -/
theorem aim_of_mem_legs (g : Glide α) {es : List (GlideEvent α)}
    (still : ∀ e ∈ es, e.written = none) : ∀ l ∈ g.legs es, l.aim = g.aim := by
  cases es with
  | nil => nofun
  | cons e es =>
      have more := legs_rest g.aim fun e he => still e (List.mem_cons_of_mem _ he)
      cases e with
      | leg =>
          intro l hl
          rcases List.mem_cons.mp hl with rfl | hl
          · rfl
          · rw [more l hl]
            rfl
      | jump w | aim w => exact absurd (still _ List.mem_cons_self) (nomatch ·)

/-- The place of a glide that nobody aims elsewhere is left only by a leg. -/
theorem current_after (g : Glide α) {es : List (GlideEvent α)} (legless : .leg ∉ es)
    (glides : ∀ e ∈ es, e.isJump = false) : (es.foldl after g).current = g.current := by
  induction es generalizing g with
  | nil => rfl
  | cons e es ih =>
      have more := fun g => ih g (fun hm => legless (List.mem_cons_of_mem e hm))
        fun e he => glides e (List.mem_cons_of_mem _ he)
      cases e with
      | leg => exact absurd List.mem_cons_self legless
      | jump w => exact absurd (glides _ List.mem_cons_self) Bool.true_eq_false.mp
      | aim w => exact more _

end Glide

/-! ### Lines -/

section Line

variable {K : Type*} [Field K]

/-- The `i`-th point of the line from `a` that reaches `b` in `n` steps. -/
def line (a b : K) (n i : Nat) : K := a + (b - a) * (1 / n) * i

@[simp] theorem line_zero (a b : K) (n : Nat) : line a b n 0 = a := by simp [line]

@[simp] theorem line_self (a : K) (n i : Nat) : line a a n i = a := by simp [line]

variable [LinearOrder K] [IsStrictOrderedRing K]

@[simp] theorem line_end (a b : K) {n : Nat} (hn : 0 < n) : line a b n n = b := by
  have h : (n : K) ≠ 0 := Nat.cast_ne_zero.mpr hn.ne'
  rw [line, mul_assoc, one_div, inv_mul_cancel₀ h]
  ring

/-- What is left of the way after `i` steps. -/
theorem line_left (a b : K) {n : Nat} (hn : 0 < n) (i : Nat) :
    b - line a b n i = (b - a) * (1 - i / n) := by
  have h : (n : K) ≠ 0 := Nat.cast_ne_zero.mpr hn.ne'
  rw [line]
  field_simp
  ring

/-- A later point lies between an earlier one and the end. -/
theorem line_mem_uIcc (a b : K) {n i j : Nat} (hij : i ≤ j) (hj : j ≤ n) :
    line a b n j ∈ Set.uIcc (line a b n i) b := by
  rcases Nat.eq_zero_or_pos n with rfl | hn
  · obtain rfl : j = 0 := by omega
    obtain rfl : i = 0 := by omega
    exact Set.left_mem_uIcc
  have pos : (0 : K) < n := Nat.cast_pos.mpr hn
  have hi' : (i : K) / n ≤ j / n := div_le_div_of_nonneg_right (Nat.cast_le.mpr hij) pos.le
  have hj' : (j : K) / n ≤ 1 := (div_le_one pos).mpr (Nat.cast_le.mpr hj)
  have left := line_left a b hn
  rcases le_total a b with h | h
  · refine Set.mem_uIcc.mpr (.inl ⟨?_, ?_⟩)
    · have := mul_le_mul_of_nonneg_left (sub_le_sub_left hi' 1) (sub_nonneg.mpr h)
      rw [← left, ← left] at this
      exact (sub_le_sub_iff_left b).mp this
    · exact sub_nonneg.mp (left j ▸ mul_nonneg (sub_nonneg.mpr h) (sub_nonneg.mpr hj'))
  · refine Set.mem_uIcc.mpr (.inr ⟨?_, ?_⟩)
    · exact sub_nonpos.mp
        (left j ▸ mul_nonpos_of_nonpos_of_nonneg (sub_nonpos.mpr h) (sub_nonneg.mpr hj'))
    · have := mul_le_mul_of_nonpos_left (sub_le_sub_left hi' 1) (sub_nonpos.mpr h)
      rw [← left, ← left] at this
      exact (sub_le_sub_iff_left b).mp this

end Line

end Xrune
