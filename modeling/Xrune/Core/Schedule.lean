import Xrune.Core.Blueprint

/-!
# Core — compiled schedules

The result of compiling a blueprint, shared by all its instances: the execution order, the
per-node call counts and block sizes, the layout of the instance's regions, and the wiring.
-/

namespace Xrune

/-- `is_power_of_two`. -/
def isPowerOfTwo (x : Nat) : Bool := x != 0 && (x &&& (x - 1)) == 0

theorem isPowerOfTwo_iff {x : Nat} : isPowerOfTwo x = true ↔ ∃ k, x = 2 ^ k := by
  have h := Nat.ne_zero_and_sub_one_eq_zero_iff_isPowerOfTwo (n := x)
  simpa [isPowerOfTwo, Nat.isPowerOfTwo] using h

theorem isPowerOfTwo.pos {x : Nat} (h : isPowerOfTwo x = true) : 0 < x := by
  obtain ⟨k, rfl⟩ := isPowerOfTwo_iff.mp h
  exact Nat.two_pow_pos k

/-- `src_ref`: a producer's node and output channel, or `none` for the silent slot. -/
abbrev SrcRef := Option (Nat × Nat)

structure CompiledSchedule (α : Type) where
  bp : GraphBlueprint α
  blockSize : Nat
  ok : Bool
  topoOrder : List Nat
  regionRate : List Nat
  nodeBlock : List Nat
  calls : List Nat
  outBaseSample : List Nat
  outStride : List Nat
  totalOutputSamples : Nat
  maxStride : Nat
  inputSource : List (List SrcRef)
  paramSource : List (List SrcRef)
  paramBase : List Nat
  totalParams : Nat

/-- The schedule of a blueprint whose one node, of ratio 1, is connected to nothing. -/
def CompiledSchedule.single {α : Type} (bp : GraphBlueprint α) (blockSize : Nat) :
    CompiledSchedule α where
  bp := bp
  blockSize := blockSize
  ok := true
  topoOrder := [0]
  regionRate := [1]
  nodeBlock := [blockSize]
  calls := [1]
  outBaseSample := [0]
  outStride := [blockSize]
  totalOutputSamples := bp.outputsOf 0 * blockSize
  maxStride := blockSize
  inputSource := [List.replicate (bp.inputsOf 0) none]
  paramSource := [List.replicate (bp.paramsOf 0) none]
  paramBase := [0]
  totalParams := bp.paramsOf 0

end Xrune
