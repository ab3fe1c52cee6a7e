import Xrune.Nodes.Standard
import Xrune.Nodes.Multirate
import Xrune.Nodes.Fft

/-!
# Lang — the node registry

Node type names and their factories.  A factory reads its arguments by name first, then by
position, and falls back on a default; `structural` lists the arguments that configure the
construction and are not control ports.
-/

namespace Xrune.Lang

variable {α : Type}

/-- A resolved argument of a node call. -/
inductive ArgValue (α : Type) where
  | number (n : α)
  | string (s : String)
  | boolean (b : Bool)
  deriving DecidableEq, Repr

/-- The field `number`, which the other kinds leave at 0. -/
def ArgValue.toNumber [Zero α] : ArgValue α → α
  | .number n => n
  | _         => 0

structure NodeArgs (α : Type) where
  named : List (String × ArgValue α) := []
  positional : List (ArgValue α) := []

namespace NodeArgs

def findNamed (a : NodeArgs α) (name : String) : Option (ArgValue α) :=
  (a.named.find? fun p => p.1 == name).map Prod.snd

def has (a : NodeArgs α) (name : String) : Bool := (a.findNamed name).isSome

/-- Named wins, else `positional[pos]`, else the default. -/
def num [Zero α] (a : NodeArgs α) (name : String) (pos : Nat) (default : α) : α :=
  match a.findNamed name with
  | some v => v.toNumber
  | none   =>
      match a.positional[pos]? with
      | some (.number n) => n
      | _                => default

/-- A count, rounded; a negative number gives the default. -/
def count [Sample α] (a : NodeArgs α) (name : String) (pos default : Nat) : Nat :=
  let d := a.num name pos (Sample.cast default)
  if Sample.lt d 0 then default else Sample.toSize (d + Sample.ratio 1 2)

end NodeArgs

structure RegistryEntry (α : Type) where
  name : String
  make : NodeArgs α → Option (Node α)
  structural : List String := []

structure NodeRegistry (α : Type) where
  entries : List (RegistryEntry α)

namespace NodeRegistry

def find (r : NodeRegistry α) (name : String) : Option (RegistryEntry α) :=
  r.entries.find? fun e => e.name == name

def has (r : NodeRegistry α) (name : String) : Bool := (r.find name).isSome

def make (r : NodeRegistry α) (name : String) (args : NodeArgs α) : Option (Node α) :=
  (r.find name).bind fun e => e.make args

/-- The node is one that some call of a factory makes. -/
def Makes (r : NodeRegistry α) (nd : Node α) : Prop := ∃ name args, r.make name args = some nd

theorem make_eq_some {r : NodeRegistry α} {name : String} {args : NodeArgs α} {nd : Node α}
    (h : r.make name args = some nd) :
    ∃ e ∈ r.entries, e.name = name ∧ e.make args = some nd := by
  obtain ⟨e, he, hm⟩ := Option.bind_eq_some_iff.mp h
  have named := List.find?_some (p := fun e : RegistryEntry α => e.name == name) he
  exact ⟨e, List.mem_of_find?_eq_some he, eq_of_beq named, hm⟩

end NodeRegistry

section Standard

variable [Sample α] [Trig α]

open Nodes

/-- The default seed of `white_noise`. -/
def defaultSeed : Nat := 0x853c49e6748fea9b

/-- `standard_registry`. -/
def standardRegistry : NodeRegistry α where
  entries := [
    ⟨"sine", fun a => some (oscillator (a.num "freq" 0 (Sample.cast 440))), []⟩,
    ⟨"noise", fun _ => some (whiteNoise defaultSeed), []⟩,
    ⟨"constant", fun a => some (constant (a.num "value" 0 1)), []⟩,
    ⟨"gain", fun a => some (gain (a.num "gain" 0 1)), []⟩,
    ⟨"fader", fun a => some (stereoFader (a.num "volume" 0 1)), []⟩,
    ⟨"pan", fun a => some (pan (a.num "pan" 0 0)), []⟩,
    ⟨"mix", fun a => some (mixer (a.count "inputs" 0 2)), ["inputs"]⟩,
    ⟨"smix", fun a => some (stereoMixer (a.count "inputs" 0 2)), ["inputs"]⟩,
    ⟨"adapt", fun a => some (channelAdapter (a.count "inputs" 0 1) (a.count "outputs" 1 1)),
      ["inputs", "outputs"]⟩,
    ⟨"m2s", fun _ => some monoToStereo, []⟩,
    ⟨"s2m", fun _ => some stereoToMono, []⟩,
    ⟨"inv", fun _ => some inverter, []⟩,
    ⟨"sinv", fun _ => some stereoInverter, []⟩,
    ⟨"counter", fun _ => some callCounter, []⟩,
    ⟨"add", fun _ => some add, []⟩,
    ⟨"mul", fun _ => some multiply, []⟩,
    ⟨"div", fun _ => some divide, []⟩,
    ⟨"cut", fun _ => some cut, []⟩,
    ⟨"sah", fun a => some (sampleAndHold (a.num "rate" 0 1)), []⟩,
    ⟨"bus", fun a => some (busInput (a.count "channels" 0 2)), ["channels"]⟩,
    ⟨"up2", fun _ => some upsampler2, []⟩,
    ⟨"down2", fun _ => some downsampler2, []⟩,
    ⟨"downbloc", fun _ => some downbloc, []⟩,
    ⟨"stft", fun a => some (olaStft (a.count "size" 0 1024)), ["size"]⟩,
    ⟨"stft_fwd", fun a => some (stftForward (a.count "size" 0 1024) (a.count "channels" 1 1)),
      ["size", "channels"]⟩,
    ⟨"stft_bwd", fun a => some (stftBackward (a.count "size" 0 1024) (a.count "channels" 1 1)),
      ["size", "channels"]⟩]

/-- The ratios of a node of the registry: one axis changes at most, and by a factor of two. -/
inductive Ratio (nd : Node α) : Prop where
  | unit (rate : nd.rateNum = 1 ∧ nd.rateDen = 1) (block : nd.blockNum = 1 ∧ nd.blockDen = 1)
  | up (rate : nd.rateNum = 2 ∧ nd.rateDen = 1) (block : nd.blockNum = 1 ∧ nd.blockDen = 1)
  | down (rate : nd.rateNum = 1 ∧ nd.rateDen = 2) (block : nd.blockNum = 1 ∧ nd.blockDen = 1)
  | finer (rate : nd.rateNum = 1 ∧ nd.rateDen = 1) (block : nd.blockNum = 1 ∧ nd.blockDen = 2)

theorem standardRegistry_ratio {nd : Node α} (h : standardRegistry.Makes nd) : Ratio nd := by
  obtain ⟨name, args, h⟩ := h
  obtain ⟨e, he, -, hm⟩ := NodeRegistry.make_eq_some h
  simp only [standardRegistry, List.mem_cons, List.not_mem_nil, or_false] at he
  rcases he with rfl | rfl | rfl | rfl | rfl | rfl | rfl | rfl | rfl | rfl | rfl | rfl | rfl | rfl |
    rfl | rfl | rfl | rfl | rfl | rfl | rfl | rfl | rfl | rfl | rfl | rfl <;>
    obtain rfl := Option.some.inj hm
  all_goals
    first
      | exact .unit ⟨rfl, rfl⟩ ⟨rfl, rfl⟩
      | exact .up ⟨rfl, rfl⟩ ⟨rfl, rfl⟩
      | exact .down ⟨rfl, rfl⟩ ⟨rfl, rfl⟩
      | exact .finer ⟨rfl, rfl⟩ ⟨rfl, rfl⟩

end Standard

end Xrune.Lang
