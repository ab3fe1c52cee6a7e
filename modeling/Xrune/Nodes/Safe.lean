import Xrune.Support.Guarded
import Xrune.Nodes.Code

/-!
# Nodes — code that does not trap

No access changes the size of an array, so what an access may do depends on the sizes alone
(`Frame.shape`) and, for the one node that indexes by a word of its state, on a bound of its
words.  A node whose code keeps these from every block to the next (`Trapless`) runs through any
number of blocks (`Trapless.runsThrough`).
-/

namespace Xrune

variable {α : Type}

/-- The sizes of the arrays of a frame. -/
structure Shape where
  cells : Nat
  words : Nat
  outputs : List Nat
  deriving DecidableEq, Repr

def Frame.shape (f : Frame α) : Shape :=
  ⟨f.state.cells.length, f.state.words.length, f.outputs.map List.length⟩

/-- A frame of the shape `S` whose words meet `P`. -/
structure Frame.Good (S : Shape) (P : List Nat → Prop) (f : Frame α) : Prop where
  shape : f.shape = S
  words : P f.state.words

theorem Frame.shape_setOutput {f : Frame α} {c i : Nat} {x : α} {out : List α}
    (hout : f.outputs[c]? = some out) :
    ({ f with outputs := f.outputs.set c (out.set i x) } : Frame α).shape = f.shape := by
  have same : (f.outputs.set c (out.set i x)).map List.length = f.outputs.map List.length := by
    rw [List.map_set, List.length_set]
    refine List.ext_getElem? fun j => ?_
    by_cases hj : c = j
    · obtain ⟨hlt, hget⟩ := List.getElem?_eq_some_iff.mp hout
      subst hj
      simp [hlt, hget]
    · simp [hj]
  rw [Frame.shape, Frame.shape, same]

/-- The views `build` supplies for a call of `nb` samples. -/
structure Supplied (nd : Node α) (nb : Nat) (ctx : ProcessingContext α) : Prop where
  block : ctx.blockSize = nb
  inputs : ctx.inputs.map List.length
    = List.replicate nd.inputsCount (nb * nd.rateDen / nd.rateNum)
  outputs : ctx.outputs.map List.length = List.replicate nd.outputsCount nb
  params : ctx.params.length = nd.paramsCount
  ports : ∀ v ∈ ctx.params, ∀ b, v.buffer = some b → nb ≤ b.length

/-- The blocks, one after another on one state block, none stopping at a trap. -/
def RunsThrough (code : ProcessingContext α → Access α Unit) :
    StateBlock α → List (ProcessingContext α) → Prop
  | _, []          => True
  | s, ctx :: rest =>
      ∃ f, StateT.run (code ctx) ⟨s, ctx.outputs⟩ = .ok ((), f) ∧ RunsThrough code f.state rest

/-! ### The accesses -/

theorem Keeps.get {I : Frame α → Prop} : Keeps I (get : Access α (Frame α)) I :=
  fun f hf => ⟨f, f, rfl, hf, hf⟩

theorem Keeps.set {I : Frame α → Prop} {f : Frame α} (h : I f) :
    Keeps I (set f : Access α PUnit) fun _ => True :=
  fun _ _ => ⟨⟨⟩, f, rfl, h, trivial⟩

namespace Access

variable {I : Frame α → Prop} {S : Shape} {P : List Nat → Prop} {β : Type}

theorem keeps_nth {l : List β} {i : Nat} (h : i < l.length) :
    Keeps I (nth l i : Access α β) fun x => x ∈ l := by
  rw [nth, List.getElem?_eq_getElem h]
  exact .pure (List.getElem_mem h)

theorem keeps_modulo {a b : Nat} (h : 0 < b) :
    Keeps I (modulo a b : Access α Nat) fun r => r < b := by
  rw [modulo, if_neg (by omega)]
  exact .pure (Nat.mod_lt a h)

theorem keeps_cell {i : Nat} (h : i < S.cells) :
    Keeps (Frame.Good S P) (cell i : Access α α) fun _ => True :=
  Keeps.get.bind fun _ hf =>
    (keeps_nth (lt_of_lt_of_eq h (congrArg Shape.cells hf.shape).symm)).mono fun _ _ => trivial

theorem keeps_setCell {i : Nat} (h : i < S.cells) (x : α) :
    Keeps (Frame.Good S P) (setCell i x) fun _ => True := by
  refine Keeps.get.bind fun f hf => ?_
  have hlen : f.state.cells.length = S.cells := congrArg Shape.cells hf.shape
  rw [if_pos (by omega)]
  refine .set ⟨?_, hf.words⟩
  rw [← hf.shape]
  simp [Frame.shape]

theorem keeps_word {i : Nat} (h : i < S.words) :
    Keeps (Frame.Good S P) (word i : Access α Nat) fun w => ∃ ws, P ws ∧ w ∈ ws :=
  Keeps.get.bind fun _ hf =>
    (keeps_nth (lt_of_lt_of_eq h (congrArg Shape.words hf.shape).symm)).mono
      fun _ hw => ⟨_, hf.words, hw⟩

theorem keeps_setWord {i x : Nat} (h : i < S.words) (hP : ∀ ws, P ws → P (ws.set i x)) :
    Keeps (Frame.Good S P) (setWord i x : Access α Unit) fun _ => True := by
  refine Keeps.get.bind fun f hf => ?_
  have hlen : f.state.words.length = S.words := congrArg Shape.words hf.shape
  rw [if_pos (by omega)]
  refine .set ⟨?_, hP _ hf.words⟩
  rw [← hf.shape]
  simp [Frame.shape]

theorem keeps_output {c i len : Nat} (hc : S.outputs[c]? = some len) (hi : i < len) :
    Keeps (Frame.Good S P) (output c i : Access α α) fun _ => True := by
  refine Keeps.get.bind fun f hf => ?_
  rw [← congrArg Shape.outputs hf.shape, Frame.shape, List.getElem?_map] at hc
  obtain ⟨out, hout, rfl⟩ := Option.map_eq_some_iff.mp hc
  rw [nth, hout]
  exact (Keeps.pure rfl).bind fun b (hb : out = b) =>
    (keeps_nth (hb ▸ hi)).mono fun _ _ => trivial

theorem keeps_setOutput {c i len : Nat} (hc : S.outputs[c]? = some len) (hi : i < len) (x : α) :
    Keeps (Frame.Good S P) (setOutput c i x) fun _ => True := by
  refine Keeps.get.bind fun f hf => ?_
  rw [← congrArg Shape.outputs hf.shape, Frame.shape, List.getElem?_map] at hc
  obtain ⟨out, hout, rfl⟩ := Option.map_eq_some_iff.mp hc
  rw [nth, hout]
  refine (Keeps.pure rfl).bind fun b (hb : out = b) => ?_
  subst hb
  rw [if_pos hi]
  exact .set ⟨by rw [← hf.shape, Frame.shape_setOutput hout], hf.words⟩

theorem keeps_input {ctx : ProcessingContext α} {n len c i : Nat}
    (h : ctx.inputs.map List.length = List.replicate n len) (hc : c < n) (hi : i < len) :
    Keeps I (input ctx c i) fun _ => True := by
  have hmap : (ctx.inputs.map List.length)[c]? = some len := by
    rw [h, List.getElem?_replicate, if_pos hc]
  rw [List.getElem?_map] at hmap
  obtain ⟨view, hview, rfl⟩ := Option.map_eq_some_iff.mp hmap
  rw [input, nth, hview]
  exact (Keeps.pure rfl).bind fun b (hb : view = b) =>
    (keeps_nth (hb ▸ hi)).mono fun _ _ => trivial

theorem keeps_param [Sample α] {ctx : ProcessingContext α} {nd : Node α} {nb p i : Nat}
    (h : Supplied nd nb ctx) (hp : p < nd.paramsCount) (hi : i < nb) :
    Keeps I (param ctx p i) fun _ => True := by
  refine (keeps_nth (h.params.symm ▸ hp)).bind fun v hv => ?_
  cases hb : v.buffer with
  | none => exact .pure trivial
  | some b => exact (keeps_nth (lt_of_lt_of_le hi (h.ports v hv b hb))).mono fun _ _ => trivial

theorem keeps_paramFirst {ctx : ProcessingContext α} {nd : Node α} {nb p : Nat}
    (h : Supplied nd nb ctx) (hp : p < nd.paramsCount) (hnb : 0 < nb) :
    Keeps I (paramFirst ctx p) fun _ => True := by
  refine (keeps_nth (h.params.symm ▸ hp)).bind fun v hv => ?_
  cases hb : v.buffer with
  | none => exact .pure trivial
  | some b => exact (keeps_nth (lt_of_lt_of_le hnb (h.ports v hv b hb))).mono fun _ _ => trivial

theorem keeps_loop {n : Nat} {body : Nat → Access α Unit}
    (h : ∀ i < n, Keeps I (body i) fun _ => True) : Keeps I (loop n body) fun _ => True :=
  .forM (fun i hi => h i (List.mem_range.mp hi)) trivial

theorem keeps_sumOver [Zero α] [Add α] {indices : List Nat} {f : Nat → Access α α}
    (h : ∀ i ∈ indices, Keeps I (f i) fun _ => True) :
    Keeps I (sumOver indices f) fun _ => True :=
  .foldlM (Q := fun _ => True)
    (fun i hi _ _ => (h i hi).seq fun _ => .pure trivial) trivial

end Access

/-! ### Accesses that may trap -/

theorem Stays.get {I : Frame α → Prop} : Stays I (get : Access α (Frame α)) := by
  intro f _ _ hf h
  cases h
  exact hf

namespace Access

variable {I : Frame α → Prop} {S : Shape} {P : List Nat → Prop} {β : Type}

theorem stays_nth (l : List β) (i : Nat) : Stays I (nth l i : Access α β) := by
  unfold nth
  split
  · exact .pure
  · exact .throw

theorem stays_modulo (a b : Nat) : Stays I (modulo a b : Access α Nat) := .ite .throw .pure

theorem stays_divide (a b : Nat) : Stays I (Access.divide a b : Access α Nat) := .ite .throw .pure

theorem stays_cell (i : Nat) : Stays I (cell i : Access α α) := .bind .get fun _ => stays_nth _ i

theorem stays_word (i : Nat) : Stays I (word i : Access α Nat) := .bind .get fun _ => stays_nth _ i

theorem stays_output (c i : Nat) : Stays I (output c i : Access α α) :=
  .bind .get fun _ => .bind (stays_nth _ c) fun _ => stays_nth _ i

theorem stays_input (ctx : ProcessingContext α) (c i : Nat) : Stays I (input ctx c i) :=
  .bind (stays_nth _ c) fun _ => stays_nth _ i

theorem stays_setCell (i : Nat) (x : α) : Stays (Frame.Good S P) (setCell i x) := by
  intro f _ g hf h
  obtain ⟨f', f'', hget, h⟩ := run_bind_ok h
  cases hget
  split_ifs at h
  · cases h
    refine ⟨?_, hf.words⟩
    rw [← hf.shape]
    simp [Frame.shape]
  · cases h

theorem stays_setOutput (c i : Nat) (x : α) : Stays (Frame.Good S P) (setOutput c i x) := by
  intro f _ g hf h
  obtain ⟨f', f'', hget, h⟩ := run_bind_ok h
  cases hget
  obtain ⟨out, f'', hout, h⟩ := run_bind_ok h
  rw [nth] at hout
  split at hout
  · cases hout
    split_ifs at h
    · cases h
      refine ⟨?_, hf.words⟩
      rw [← hf.shape, Frame.shape_setOutput ‹_›]
    · cases h
  · cases hout

theorem stays_loop {n : Nat} {body : Nat → Access α Unit} (h : ∀ i, Stays I (body i)) :
    Stays I (loop n body) := .forM h _

/-! ### What an access that does not trap says -/

theorem nth_ok {l : List β} {i : Nat} {f g : Frame α} {x : β}
    (h : StateT.run (nth l i : Access α β) f = .ok (x, g)) : l[i]? = some x ∧ g = f := by
  rw [nth] at h
  split at h
  · cases h
    exact ⟨‹_›, rfl⟩
  · cases h

theorem modulo_ok {a b r : Nat} {f g : Frame α}
    (h : StateT.run (modulo a b : Access α Nat) f = .ok (r, g)) : 0 < b ∧ r = a % b ∧ g = f := by
  rw [modulo] at h
  split_ifs at h
  · cases h
  · cases h
    exact ⟨by omega, rfl, rfl⟩

theorem word_ok {i w : Nat} {f g : Frame α}
    (h : StateT.run (word i : Access α Nat) f = .ok (w, g)) :
    f.state.words[i]? = some w ∧ g = f := by
  obtain ⟨f', f'', hget, h⟩ := run_bind_ok h
  cases hget
  exact nth_ok h

theorem lt_of_cell_ok {i : Nat} {f g : Frame α} {x : α}
    (h : StateT.run (cell i : Access α α) f = .ok (x, g)) : i < f.state.cells.length := by
  obtain ⟨f', f'', hget, h⟩ := run_bind_ok h
  cases hget
  exact (List.getElem?_eq_some_iff.mp (nth_ok h).1).1

theorem lt_of_setCell_ok {i : Nat} {x : α} {f g : Frame α}
    (h : StateT.run (setCell i x) f = .ok ((), g)) : i < f.state.cells.length := by
  obtain ⟨f', f'', hget, h⟩ := run_bind_ok h
  cases hget
  split_ifs at h
  · assumption
  · cases h

theorem lt_of_setOutput_ok {c i : Nat} {x : α} {f g : Frame α}
    (h : StateT.run (setOutput c i x) f = .ok ((), g)) : c < f.outputs.length := by
  obtain ⟨f', f'', hget, h⟩ := run_bind_ok h
  cases hget
  obtain ⟨out, f'', hout, -⟩ := run_bind_ok h
  exact (List.getElem?_eq_some_iff.mp (nth_ok hout).1).1

theorem lt_of_input_ok {ctx : ProcessingContext α} {c i : Nat} {f : Frame α} {r : α × Frame α}
    (h : StateT.run (input ctx c i) f = .ok r) : c < ctx.inputs.length := by
  obtain ⟨view, f', hview, -⟩ := run_bind_ok h
  exact (List.getElem?_eq_some_iff.mp (nth_ok hview).1).1

theorem setWord_ok {x w : Nat} {f g : Frame α} (hf : Frame.Good S (· = [w]) f)
    (h : StateT.run (setWord 0 x : Access α Unit) f = .ok ((), g)) :
    Frame.Good S (· = [x]) g := by
  obtain ⟨f', f'', hget, h⟩ := run_bind_ok h
  cases hget
  split_ifs at h
  · cases h
    refine ⟨?_, by simp [hf.words]⟩
    rw [← hf.shape]
    simp [Frame.shape]
  · cases h

end Access

/-! ### Nodes -/

/-- The shape of the frames of a node's calls of `nb` samples. -/
def Node.shape (nd : Node α) (nb : Nat) : Shape :=
  ⟨nd.initState.cells.length, nd.initState.words.length, List.replicate nd.outputsCount nb⟩

/-- The frame of the next call. -/
theorem Frame.Good.next {nd : Node α} {nb : Nat} {P : List Nat → Prop} {f : Frame α}
    (hf : f.Good (nd.shape nb) P) {ctx : ProcessingContext α} (h : Supplied nd nb ctx) :
    Frame.Good (nd.shape nb) P ⟨f.state, ctx.outputs⟩ := by
  have hcells := congrArg Shape.cells hf.shape
  have hwords := congrArg Shape.words hf.shape
  exact ⟨congr (congrArg₂ Shape.mk hcells hwords) h.outputs, hf.words⟩

/-- The frame of the first call. -/
theorem Frame.Good.first {nd : Node α} {nb : Nat} {P : List Nat → Prop}
    (hP : P nd.initState.words) {ctx : ProcessingContext α} (h : Supplied nd nb ctx) :
    Frame.Good (nd.shape nb) P ⟨nd.initState, ctx.outputs⟩ :=
  ⟨congrArg (Shape.mk _ _) h.outputs, hP⟩

/-- On the views `build` supplies the code ends without a trap, and leaves a frame on which it
can run again. -/
def Trapless (nd : Node α) (code : ProcessingContext α → Access α Unit) (nb : Nat) : Prop :=
  ∃ P : List Nat → Prop, P nd.initState.words ∧ ∀ ctx, Supplied nd nb ctx →
    Keeps (Frame.Good (nd.shape nb) P) (code ctx) fun _ => True

theorem Trapless.runsThrough {nd : Node α} {code : ProcessingContext α → Access α Unit} {nb : Nat}
    (h : Trapless nd code nb) {blocks : List (ProcessingContext α)}
    (supplied : ∀ ctx ∈ blocks, Supplied nd nb ctx) : RunsThrough code nd.initState blocks := by
  obtain ⟨P, hP, keeps⟩ := h
  have along : ∀ (blocks : List (ProcessingContext α)) (s : StateBlock α),
      (∀ ctx ∈ blocks, Supplied nd nb ctx) →
      (∀ ctx, Supplied nd nb ctx → Frame.Good (nd.shape nb) P ⟨s, ctx.outputs⟩) →
      RunsThrough code s blocks := by
    intro blocks
    induction blocks with
    | nil => exact fun _ _ _ => trivial
    | cons ctx rest ih =>
        intro s supplied good
        have hctx := supplied ctx List.mem_cons_self
        obtain ⟨⟨⟩, f, run, hf, -⟩ := keeps ctx hctx _ (good ctx hctx)
        exact ⟨f, run, ih f.state (fun c hc => supplied c (List.mem_cons_of_mem ctx hc))
          fun _ hc => hf.next hc⟩
  exact along blocks _ supplied fun _ hc => .first hP hc

namespace Nodes

open Access

/-- A node that writes its outputs sample by sample is trapless where its reads are. -/
theorem keeps_perSample {nd : Node α} {nb : Nat} {ctx : ProcessingContext α} {outs : Nat}
    {f : ProcessingContext α → Nat → Nat → Access α α} {P : List Nat → Prop}
    (h : Supplied nd nb ctx) (houts : nd.outputsCount = outs)
    (reads : ∀ c < outs, ∀ i < nb,
      Keeps (Frame.Good (nd.shape nb) P) (f ctx c i) fun _ => True) :
    Keeps (Frame.Good (nd.shape nb) P) (perSample outs f ctx) fun _ => True := by
  refine keeps_loop fun i hi => keeps_loop fun c hc => ?_
  rw [h.block] at hi
  refine (reads c hc i hi).seq fun x => keeps_setOutput ?_ hi x
  rw [Node.shape, List.getElem?_replicate, if_pos (houts ▸ hc)]

end Nodes

end Xrune
