import Xrune.Lang.Declared
import Xrune.Serialize.Saved

/-!
# Serialize — rune parameters

A document has no member for the parameters of a rune, and a loaded blueprint has none.  So a
rune's parameters survive exactly when it declares none (`params_reloaded_iff`).
-/

namespace Xrune

open Json Lang

variable {α : Type} [Sample α] [CNumber α] [Trig α]

/-- **The parameters of a reloaded rune are those of the original exactly when it declares
none.** -/
theorem params_reloaded_iff {fuel : Nat} {prog : Program α} {res : LowerResult α}
    (h : lower fuel prog standardRegistry = some res) :
    ∃ accepted, accepted.Sublist prog.runes ∧ List.Forall₂ (fun r b => Declares r b ∧
      ∀ name indent bp n, fromJson standardRegistry (toJson b.bp name indent) = .ok (bp, n) →
        (bp.params = b.bp.params ↔ r.params = [])) accepted res.blueprints := by
  obtain ⟨accepted, sub, all⟩ := lower_declares standardRegistry_builtins h
  refine ⟨accepted, sub, all.imp fun r b declares => ⟨declares, ?_⟩⟩
  intro name indent bp n loaded
  obtain ⟨root, -, loaded⟩ := except_bind_ok loaded
  have none : bp.params = [] := (loadDocument_ok loaded).1.params
  have empty : b.bp.params = [] ↔ r.params = [] := by
    rw [← List.map_eq_nil_iff (f := BlueprintParam.name), declares.2, List.map_eq_nil_iff]
  rw [none, eq_comm, empty]

/-! ### A tuned oscillator -/

/-- `rune r(f = 220) out sine(f) end`. -/
noncomputable def tunedSine : Program Rounded where
  sigils := []
  runes := [⟨"r", [⟨"f", some (.number {} (Sample.cast 220)), {}⟩],
    [.out {} (.call {} "sine" [("", .ident {} "f")]) "" (-1)], {}⟩]

/-- The oscillator, and the parameter bound to its port. -/
noncomputable def tunedSineBlueprint : GraphBlueprint Rounded where
  nodes := [Nodes.oscillator (Sample.cast 220)]
  names := ["sine#1"]
  outputTerminals := [⟨"out", 0, [⟨0, 0, false⟩]⟩]
  params := [⟨"f", Sample.cast 220, [⟨0, 0⟩], false⟩]
  outputNode := 0

theorem lower_tunedSine : lower 4 tunedSine standardRegistry =
    some ⟨[⟨"r", tunedSineBlueprint⟩], []⟩ := rfl

theorem params_reloaded_iff_tunedSine : ∃ accepted, accepted.Sublist tunedSine.runes ∧
    List.Forall₂ (fun r b => Declares r b ∧
      ∀ name indent bp n, fromJson standardRegistry (toJson b.bp name indent) = .ok (bp, n) →
        (bp.params = b.bp.params ↔ r.params = [])) accepted [⟨"r", tunedSineBlueprint⟩] :=
  params_reloaded_iff lower_tunedSine

theorem tunedSineBlueprint_reloads : tunedSineBlueprint.Reloads := by
  have lowered : Composed tunedSineBlueprint := .lowered lower_tunedSine List.mem_cons_self
  have finite : tunedSineBlueprint.FiniteDefaults := by
    intro nd hnd p hp
    obtain rfl := List.mem_singleton.mp hnd
    obtain rfl : p = 0 := Nat.lt_one_iff.mp hp
    exact rounded_doubles.finite 220
  refine Exact.reloads rounded_doubles (lowered.savable finite) ?_
  have zero : IndexExact Rounded 0 := rounded_doubles.small 0 (by decide)
  have port : PortExact Rounded 0 := by
    rw [PortExact, zero]
    rfl
  have none : Value.toLong (ofLong (-1) : Rounded) = -1 := by
    have one : (Sample.cast 1 : Rounded) = ((1 : Int) : ℝ) := by
      rw [cast_rounded (by decide), Nat.cast_one, Int.cast_one]
    have minus : (ofLong (-1) : Rounded) = ((-1 : Int) : ℝ) := by
      show -(Sample.cast 1 : Rounded) = _
      rw [one, Int.cast_neg]
      rfl
    rw [minus]
    exact toLong_int (by decide) (by decide)
  exact
    { counts := fun nd hnd => by
        obtain rfl := List.mem_singleton.mp hnd
        exact fun c hc => absurd hc List.not_mem_nil
      connections := fun c hc => absurd hc List.not_mem_nil
      modulations := fun c hc => absurd hc List.not_mem_nil
      inputs := fun t ht => absurd ht List.not_mem_nil
      outputs := fun t ht => by
        obtain rfl := List.mem_singleton.mp ht
        refine ⟨zero, fun c hc _ => ?_⟩
        obtain rfl := List.mem_singleton.mp hc
        exact ⟨zero, port⟩
      inputNode := none
      outputNode := zero }

/-- The oscillator is reloaded without its parameter. -/
theorem tunedSine_forgets : ∃ (res : LowerResult Rounded) (b : LoweredBlueprint Rounded)
    (bp : GraphBlueprint Rounded), lower 4 tunedSine standardRegistry = some res ∧
    b ∈ res.blueprints ∧ fromJson standardRegistry (toJson b.bp "" 2) = .ok (bp, "") ∧
    bp.params ≠ b.bp.params := by
  obtain ⟨bp, loaded, -⟩ := tunedSineBlueprint_reloads "" 2
  refine ⟨_, ⟨"r", tunedSineBlueprint⟩, bp, lower_tunedSine, List.mem_cons_self, loaded, ?_⟩
  obtain ⟨root, -, loaded⟩ := except_bind_ok loaded
  rw [(loadDocument_ok loaded).1.params]
  exact nofun

end Xrune
