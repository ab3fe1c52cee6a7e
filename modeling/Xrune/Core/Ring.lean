import Xrune.Core.Sample

/-!
# Core — samples in a commutative ring

Where a node only adds, subtracts and multiplies, what is proved of its arithmetic holds in any
commutative ring.  The operations of `Sample` that a ring does not have, its division among them,
are whatever they are (`Sample.Rest`).
-/

namespace Xrune

/-- The operations of `Sample` that are not those of a ring. -/
class Sample.Rest (R : Type) where
  div : R → R → R
  lt : R → R → Bool
  le : R → R → Bool
  same : R → R → Bool
  fmod : R → R → R
  toSize : R → Nat
  llround : R → Int

/-- The arithmetic of a commutative ring. -/
abbrev Sample.ofRing {R : Type} [CommRing R] [Sample.Rest R] : Sample R where
  div := Rest.div
  lt := Rest.lt
  le := Rest.le
  same := Rest.same
  cast n := (n : R)
  fmod := Rest.fmod
  toSize := Rest.toSize
  llround := Rest.llround

/-- The operations of exact arithmetic beside those of the field as a ring. -/
@[reducible] def Sample.Rest.exact (K : Type) [Field K] [LinearOrder K] [FloorRing K] :
    Sample.Rest K where
  div a b := a / b
  lt := (Sample.exact (K := K)).lt
  le := (Sample.exact (K := K)).le
  same := (Sample.exact (K := K)).same
  fmod := (Sample.exact (K := K)).fmod
  toSize := (Sample.exact (K := K)).toSize
  llround := (Sample.exact (K := K)).llround

/-- Exact arithmetic is that of the field as a ring. -/
theorem Sample.ofRing_exact (K : Type) [Field K] [LinearOrder K] [FloorRing K] :
    @Sample.ofRing K _ (Sample.Rest.exact K) = Sample.exact := rfl

end Xrune
