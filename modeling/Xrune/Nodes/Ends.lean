import Xrune.Support.Triples
import Xrune.Nodes.Safe

/-!
# Nodes — what an access computes

A triple for each access: where the element accessed is there, the access ends, with the element
or with the frame changed at that place.
-/

namespace Xrune.Access

variable {α β : Type} {P Q : Frame α → Prop}

theorem ends_nth {l : List β} {i : Nat} {x : β} (h : l[i]? = some x) :
    Ends P (nth l i : Access α β) fun b f => b = x ∧ P f := by
  rw [nth, h]
  exact .pure fun _ hf => ⟨rfl, hf⟩

theorem ends_modulo {a b : Nat} (h : 0 < b) :
    Ends P (modulo a b : Access α Nat) fun r f => r = a % b ∧ P f := by
  rw [modulo, if_neg (by omega)]
  exact .pure fun _ hf => ⟨rfl, hf⟩

theorem ends_divide {a b : Nat} (h : 0 < b) :
    Ends P (Access.divide a b : Access α Nat) fun r f => r = a / b ∧ P f := by
  rw [Access.divide, if_neg (by omega)]
  exact .pure fun _ hf => ⟨rfl, hf⟩

theorem ends_cell {i : Nat} {x : α} (h : ∀ f, P f → f.state.cells[i]? = some x) :
    Ends P (cell i : Access α α) fun b f => b = x ∧ P f := by
  refine Ends.get.bind fun f => ?_
  rintro g ⟨rfl, hg⟩
  exact ends_nth (P := P) (h f hg) f hg

theorem ends_setCell {i : Nat} {x : α}
    (h : ∀ f, P f → i < f.state.cells.length ∧
      Q { f with state := { f.state with cells := f.state.cells.set i x } }) :
    Ends P (setCell i x) fun _ => Q := by
  refine Ends.get.bind fun f g hg => ?_
  obtain ⟨rfl, hg⟩ := hg
  rw [if_pos (h f hg).1]
  exact Ends.set (P := P) (Q := fun _ => Q) (h f hg).2 f hg

theorem ends_word {i w : Nat} (h : ∀ f, P f → f.state.words[i]? = some w) :
    Ends P (word i : Access α Nat) fun b f => b = w ∧ P f := by
  refine Ends.get.bind fun f => ?_
  rintro g ⟨rfl, hg⟩
  exact ends_nth (P := P) (h f hg) f hg

theorem ends_setWord {i x : Nat}
    (h : ∀ f, P f → i < f.state.words.length ∧
      Q { f with state := { f.state with words := f.state.words.set i x } }) :
    Ends P (setWord i x : Access α Unit) fun _ => Q := by
  refine Ends.get.bind fun f g hg => ?_
  obtain ⟨rfl, hg⟩ := hg
  rw [if_pos (h f hg).1]
  exact Ends.set (P := P) (Q := fun _ => Q) (h f hg).2 f hg

theorem ends_output {c i : Nat} {out : List α} {x : α}
    (h : ∀ f, P f → f.outputs[c]? = some out ∧ out[i]? = some x) :
    Ends P (output c i : Access α α) fun b f => b = x ∧ P f := by
  refine Ends.get.bind fun f => ?_
  rintro g ⟨rfl, hg⟩
  refine (ends_nth (h f hg).1).bindEq ?_ f hg
  intro g hg
  exact ends_nth (P := P) (h g hg).2 g hg

theorem ends_setOutput {c i : Nat} {x : α}
    (h : ∀ f, P f → ∃ out, f.outputs[c]? = some out ∧ i < out.length ∧
      Q { f with outputs := f.outputs.set c (out.set i x) }) :
    Ends P (setOutput c i x) fun _ => Q := by
  refine Ends.get.bind fun f => ?_
  rintro g ⟨rfl, hg⟩
  obtain ⟨out, hout, hi, hq⟩ := h f hg
  refine Ends.bindEq (S := P) (ends_nth hout) ?_ f hg
  rw [if_pos hi]
  exact Ends.set (Q := fun _ => Q) hq

theorem ends_input {ctx : ProcessingContext α} {c i : Nat} {view : List α} {x : α}
    (hc : ctx.inputs[c]? = some view) (hi : view[i]? = some x) :
    Ends P (input ctx c i) fun b f => b = x ∧ P f :=
  (ends_nth hc).bindEq (ends_nth hi)

/-- A loop, its invariant indexed by the turns made. -/
theorem ends_loop {I : Nat → Frame α → Prop} {n : Nat} {body : Nat → Access α Unit}
    (h : ∀ i < n, Ends (I i) (body i) fun _ => I (i + 1)) :
    Ends (I 0) (loop n body) fun _ => I n :=
  .range h

/-- A node's `process`, where its code ends. -/
theorem run_of_ends (code : ProcessingContext α → Access α Unit) (s : StateBlock α)
    (ctx : ProcessingContext α) (h : Ends (fun f => f = ⟨s, ctx.outputs⟩) (code ctx) fun _ => Q) :
    Q ⟨(Access.run code s ctx).1, (Access.run code s ctx).2⟩ := by
  obtain ⟨⟨⟩, f, run, hf⟩ := h _ rfl
  rw [Access.run, run]
  exact hf

end Xrune.Access
