import Xrune.Support.Mealy
import Xrune.Schedule.Controls

/-!
# Schedule — nodes as machines

A node is realised by a machine on streams (`Node.Realises`) when a call of any number of steps
leaves what that many steps of the machine write, and a state block that stands for the state they
lead to.  A step reads `den` samples of every input and of every port and writes `num` samples of
every output, as the node's rate has it.  The calls may be of any size: what the machine plays
does not depend on it (`SampleMachine.play_from`).
-/

namespace Xrune

variable {α : Type}

/-- What a machine reads in a step: `den` samples of each input and of each port. -/
structure Feed (α : Type) (den : Nat) where
  input : Nat → Fin den → α
  port : Nat → Fin den → α

/-- `step` is given the sample rate; `Holds` says which state blocks stand for a state. -/
structure SampleMachine (α : Type) where
  State : Type
  start : State
  num : Nat := 1
  den : Nat := 1
  step : Nat → State → Feed α den → State × (Nat → Nat → α)
  Holds : State → StateBlock α → Prop

namespace SampleMachine

variable (M : SampleMachine α)

def mealy (rate : Nat) : Mealy M.State (Feed α M.den) (Nat → Nat → α) := ⟨M.step rate⟩

/-- The streams `x` at the inputs and `p` at the ports, cut into what the steps read. -/
def feed (x p : Nat → Nat → α) (k : Nat) : Feed α M.den :=
  ⟨fun c j => x c (k * M.den + j), fun q j => p q (k * M.den + j)⟩

/-- The state after `k` steps. -/
def stateAt (rate : Nat) (s : M.State) (x p : Nat → Nat → α) (k : Nat) : M.State :=
  (M.mealy rate).after s (M.feed x p) k

/-- Sample `t` of output `c`. -/
def play (rate : Nat) (s : M.State) (x p : Nat → Nat → α) (c t : Nat) : α :=
  (M.mealy rate).out s (M.feed x p) (t / M.num) c (t % M.num)

variable {M} {rate m k : Nat} {s : M.State} {x p x' p' : Nat → Nat → α}

/-- A step reads no further than its own samples. -/
theorem feed_congr (inputs : ∀ c, ∀ i < m * M.den, x c i = x' c i)
    (ports : ∀ q, ∀ i < m * M.den, p q i = p' q i) (hk : k < m) :
    M.feed x p k = M.feed x' p' k := by
  have within : ∀ j : Fin M.den, k * M.den + j < m * M.den := fun j =>
    calc k * M.den + j < k * M.den + M.den := Nat.add_lt_add_left j.2 _
      _ = (k + 1) * M.den := (Nat.succ_mul _ _).symm
      _ ≤ m * M.den := Nat.mul_le_mul_right _ hk
  rw [feed, feed, Feed.mk.injEq]
  exact ⟨funext fun c => funext fun j => inputs c _ (within j),
    funext fun q => funext fun j => ports q _ (within j)⟩

theorem stateAt_congr (inputs : ∀ c, ∀ i < m * M.den, x c i = x' c i)
    (ports : ∀ q, ∀ i < m * M.den, p q i = p' q i) :
    M.stateAt rate s x p m = M.stateAt rate s x' p' m :=
  Mealy.after_congr _ fun _ hk => feed_congr inputs ports hk

/-- What is played depends on what was read so far. -/
theorem play_congr (inputs : ∀ c, ∀ i < m * M.den, x c i = x' c i)
    (ports : ∀ q, ∀ i < m * M.den, p q i = p' q i) {c t : Nat} (ht : t < m * M.num) :
    M.play rate s x p c t = M.play rate s x' p' c t := by
  have hk : t / M.num < m := Nat.div_lt_of_lt_mul (Nat.mul_comm .. ▸ ht)
  rw [play, play, Mealy.out_congr _ fun i hi => feed_congr inputs ports (hi.trans_lt hk)]

theorem feed_from (x p : Nat → Nat → α) (n k : Nat) :
    M.feed (fun c i => x c (n * M.den + i)) (fun q i => p q (n * M.den + i)) k
      = M.feed x p (n + k) := by
  simp only [feed, Nat.add_mul, Nat.add_assoc]

theorem stateAt_from (rate : Nat) (s : M.State) (x p : Nat → Nat → α) (n k : Nat) :
    M.stateAt rate (M.stateAt rate s x p n) (fun c i => x c (n * M.den + i))
      (fun q i => p q (n * M.den + i)) k = M.stateAt rate s x p (n + k) := by
  rw [stateAt, stateAt, stateAt, Mealy.after_add]
  exact congrArg (fun y => Mealy.after _ _ y k) (funext (feed_from x p n))

/-- **A machine stopped after `n` steps and taken up again plays the rest of its streams.** -/
theorem play_from (pos : 0 < M.num) (rate : Nat) (s : M.State) (x p : Nat → Nat → α)
    (n c t : Nat) :
    M.play rate (M.stateAt rate s x p n) (fun c i => x c (n * M.den + i))
      (fun q i => p q (n * M.den + i)) c t = M.play rate s x p c (n * M.num + t) := by
  have quotient : (n * M.num + t) / M.num = n + t / M.num := by
    rw [Nat.add_comm, Nat.add_mul_div_right _ _ pos, Nat.add_comm]
  have remainder : (n * M.num + t) % M.num = t % M.num := by
    rw [Nat.add_comm, Nat.add_mul_mod_self_right]
  rw [play, play, quotient, remainder, Mealy.out_add, stateAt]
  exact congrArg (fun y => (M.mealy rate).out _ y (t / M.num) c (t % M.num))
    (funext (feed_from x p n))

end SampleMachine

/-- The views of a call of `m` steps. -/
structure Node.Handed (nd : Node α) (m : Nat) (ctx : ProcessingContext α) : Prop where
  block : ctx.blockSize = m * nd.rateNum
  inputs : ctx.inputs.map List.length = List.replicate nd.inputsCount (m * nd.rateDen)
  outputs : ctx.outputs.map List.length = List.replicate nd.outputsCount (m * nd.rateNum)

/-- A call leaves what the machine plays. -/
structure Node.Realises [Sample α] (nd : Node α) (M : SampleMachine α) : Prop where
  num : nd.rateNum = M.num
  den : nd.rateDen = M.den
  init : M.Holds M.start nd.initState
  call : ∀ {m : Nat} {s : M.State} {st : StateBlock α} {ctx : ProcessingContext α},
    M.Holds s st → nd.Handed m ctx →
      M.Holds (M.stateAt ctx.sampleRate s ctx.input ctx.param m) (nd.process st ctx).1 ∧
      ∀ c < nd.outputsCount, (nd.process st ctx).2.getD c []
        = (List.range (m * nd.rateNum)).map (M.play ctx.sampleRate s ctx.input ctx.param c)

end Xrune
