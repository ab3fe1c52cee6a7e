import Mathlib

/-!
# Core — samples

`sample_t` is `double`.  The definitions of this development read and write samples through
the operations below and assume no law of them, so what is proved of the engine and of the
language holds of the machine's arithmetic as of any other.  The results that speak of exact
arithmetic are stated at `Sample.exact`, the operations of a linearly ordered field.
-/

namespace Xrune

/-- The trigonometry the nodes call. -/
class Trig (α : Type) where
  sin : α → α
  cos : α → α
  pi : α

/-- Exact trigonometry. -/
noncomputable instance Trig.exact : Trig ℝ where
  sin := Real.sin
  cos := Real.cos
  pi := Real.pi

/-- The operations the sources perform on `sample_t`.  `lt`, `le` and `same` are `<`, `<=` and
`==`; `cast` is the conversion from an integer, `toSize` the one to `size_t`. -/
class Sample (α : Type) extends Zero α, One α, Add α, Sub α, Mul α, Div α, Neg α where
  lt : α → α → Bool
  le : α → α → Bool
  same : α → α → Bool
  cast : Nat → α
  fmod : α → α → α
  toSize : α → Nat
  llround : α → Int

namespace Sample

variable {α : Type} [Sample α]

/-- `std::max`. -/
def max (a b : α) : α := if lt a b then b else a

/-- `std::fabs`. -/
def fabs (a : α) : α := if lt a 0 then -a else a

/-- `std::clamp`. -/
def clamp (v lo hi : α) : α := if lt v lo then lo else if lt hi v then hi else v

/-- The literal `n / d`. -/
def ratio (n d : Nat) : α := cast n / cast d

end Sample

/-- Exact arithmetic.  `fmod` truncates the quotient, `llround` rounds halves away from zero. -/
instance Sample.exact {K : Type} [Field K] [LinearOrder K] [FloorRing K] : Sample K where
  lt a b := decide (a < b)
  le a b := decide (a ≤ b)
  same a b := decide (a = b)
  cast n := (n : K)
  fmod a b := a - b * ((if 0 ≤ a / b then ⌊a / b⌋ else ⌈a / b⌉ : Int) : K)
  toSize a := ⌊a⌋.toNat
  llround a := if 0 ≤ a then ⌊a + 1 / 2⌋ else ⌈a - 1 / 2⌉

end Xrune
