import Mathlib

/-!
# Support — tasks on a store

A store has a value in each cell.  A task of a cell writes that cell alone and reads it and the
cells that feed it (`Local`).  Two executions of the tasks are compared through the store they
end with: executed one after another, each cell after the cells that feed it, the tasks end with
a store each of whose cells holds what its task makes of the value the cell began with, the
other cells read as they ended (`Local.foldl_settled`); and a task that is executed in parts
makes that value when each part finds the cells it reads as they ended (`Local.advance`).

Where a cell's value may not exist, executing the cells in order finds the store each of whose
cells holds the value computed from that store (`foldlM_settled`), and finds it whenever there is
one (`foldlM_of_settled`).
-/

namespace Xrune

variable {ι β : Type*}

/-- `f` writes the cell `v` alone, and what it writes depends on `v` and the cells of `R`. -/
structure Local (v : ι) (R : Set ι) (f : (ι → β) → ι → β) : Prop where
  frame : ∀ s u, u ≠ v → f s u = s u
  congr : ∀ s s', s v = s' v → (∀ u ∈ R, s u = s' u) → f s v = f s' v

namespace Local

variable {v : ι} {R R' : Set ι} {f g : (ι → β) → ι → β} {s M : ι → β}

theorem mono (h : Local v R f) (sub : R ⊆ R') : Local v R' f where
  frame := h.frame
  congr s s' hv hR := h.congr s s' hv fun u hu => hR u (sub hu)

theorem id : Local v R (fun s : ι → β => s) where
  frame _ _ _ := rfl
  congr _ _ hv _ := hv

variable [DecidableEq ι]

/-- One part of a task after another. -/
theorem comp (hf : Local v R f) (hg : Local v R g) : Local v R fun s => f (g s) where
  frame s u hu := (hf.frame (g s) u hu).trans (hg.frame s u hu)
  congr s s' hv hR := by
    refine hf.congr (g s) (g s') (hg.congr s s' hv hR) fun u hu => ?_
    by_cases huv : u = v
    · rw [huv]
      exact hg.congr s s' hv hR
    · rw [hg.frame s u huv, hg.frame s' u huv]
      exact hR u hu

/-- A loop of such parts. -/
theorem foldl {κ : Type*} {f : κ → (ι → β) → ι → β} :
    ∀ l : List κ, (∀ k ∈ l, Local v R (f k)) → Local v R fun s => l.foldl (fun s k => f k s) s
  | [], _     => id
  | k :: l, h =>
      (foldl l fun k hk => h k (List.mem_cons_of_mem _ hk)).comp (h k List.mem_cons_self)

/-- All of the store a task changes is its cell. -/
theorem eq_update (h : Local v R f) (s : ι → β) : f s = Function.update s v (f s v) := by
  funext u
  by_cases hu : u = v
  · rw [hu, Function.update_self]
  · rw [Function.update_of_ne hu, h.frame s u hu]

/-- Only the cells read need be as they end. -/
theorem eq_at (h : Local v R f) (agree : ∀ u ∈ R, u ≠ v → s u = M u) :
    f s v = f (Function.update M v (s v)) v := by
  refine h.congr s _ (by rw [Function.update_self]) fun u hu => ?_
  by_cases huv : u = v
  · rw [huv, Function.update_self]
  · rw [Function.update_of_ne huv]
    exact agree u hu huv

/-- The next part of a task, executed where the cells it reads are as they end. -/
theorem advance (hf : Local v R f) (hg : Local v R g) {x : β}
    (sofar : s v = g (Function.update M v x) v) (agree : ∀ u ∈ R, u ≠ v → s u = M u) :
    f s v = f (g (Function.update M v x)) v := by
  have hg' : g (Function.update M v x)
      = Function.update M v (g (Function.update M v x) v) :=
    (hg.eq_update _).trans (Function.update_idem _ _ _)
  rw [hf.eq_at agree, sofar, ← hg']

/-- **Tasks executed in order**, each after those it reads from: a cell ends with what its task
makes of the value it began with, the cells it reads being as they end. -/
theorem foldl_settled {F : ι → (ι → β) → ι → β} {R : ι → Set ι} (tasks : ∀ v, Local v (R v) (F v))
    {l : List ι} (nodup : l.Nodup)
    (order : ∀ l₁ v l₂, l = l₁ ++ v :: l₂ → ∀ u ∈ R v, u ∈ l₁) (s : ι → β) :
    (∀ v ∉ l, l.foldl (fun s v => F v s) s v = s v) ∧
      ∀ v ∈ l, l.foldl (fun s v => F v s) s v
        = F v (Function.update (l.foldl (fun s v => F v s) s) v (s v)) v := by
  -- a task leaves alone the cells it is not the task of
  have frame : ∀ (l : List ι) (s : ι → β), ∀ v ∉ l, l.foldl (fun s v => F v s) s v = s v := by
    intro l
    induction l with
    | nil => exact fun _ _ _ => rfl
    | cons w l ih =>
        intro s v hv
        rw [List.foldl_cons, ih _ v fun h => hv (List.mem_cons_of_mem w h)]
        exact (tasks w).frame s v fun h => hv (h ▸ List.mem_cons_self)
  refine ⟨frame l s, fun v hv => ?_⟩
  obtain ⟨l₁, l₂, rfl⟩ := List.append_of_mem hv
  have hnot := (List.nodup_middle.mp nodup)
  have hv₁ : v ∉ l₁ := fun h => (List.nodup_cons.mp hnot).1 (List.mem_append_left _ h)
  have hv₂ : v ∉ l₂ := fun h => (List.nodup_cons.mp hnot).1 (List.mem_append_right _ h)
  rw [List.foldl_append, List.foldl_cons, frame l₂ _ v hv₂]
  -- when `v`'s turn comes its cell is as it began, and those it reads are as they end
  have hbegan := frame l₁ s v hv₁
  rw [← hbegan]
  refine (tasks v).eq_at fun u hu huv => ?_
  have hu₁ := order l₁ v l₂ rfl u hu
  have hu₂ : u ∉ l₂ := fun h =>
    List.disjoint_of_nodup_append (List.nodup_cons.mp hnot).2 hu₁ h
  rw [frame l₂ _ u hu₂, (tasks v).frame _ u huv]

end Local

section Assignment

variable [DecidableEq ι] {F : ι → (ι → β) → Option β} {R : ι → Set ι} {l : List ι} {s t : ι → β}

/-- The cell `v` is given its value, if it has one. -/
def assign (F : ι → (ι → β) → Option β) (s : ι → β) (v : ι) : Option (ι → β) :=
  (F v s).map fun x => Function.update s v x

/-- Assigning leaves the cells that are not in the list. -/
theorem foldlM_assign_frame : ∀ (l : List ι) (s t : ι → β), l.foldlM (assign F) s = some t →
    ∀ v ∉ l, t v = s v
  | [], s, t, h, v, _ => congrFun (Option.some.inj h).symm v
  | w :: l, s, t, h, v, hv => by
      obtain ⟨s', hs', h⟩ := Option.bind_eq_some_iff.mp h
      obtain ⟨x, -, rfl⟩ := Option.map_eq_some_iff.mp hs'
      rw [foldlM_assign_frame l _ t h v fun h => hv (List.mem_cons_of_mem w h)]
      exact Function.update_of_ne (fun h : v = w => hv (h ▸ List.mem_cons_self)) _ _

/-- **What an assignment in order ends with**: each cell of the list holds its value in the
store the assignment ends with. -/
theorem foldlM_settled (reads : ∀ v s s', (∀ u ∈ R v, s u = s' u) → F v s = F v s')
    (nodup : l.Nodup) (order : ∀ l₁ v l₂, l = l₁ ++ v :: l₂ → ∀ u ∈ R v, u ∈ l₁)
    (run : l.foldlM (assign F) s = some t) : ∀ v ∈ l, F v t = some (t v) := by
  intro v hv
  obtain ⟨l₁, l₂, rfl⟩ := List.append_of_mem hv
  obtain ⟨s₁, -, h₁⟩ := Option.bind_eq_some_iff.mp ((List.foldlM_append ..).symm.trans run)
  obtain ⟨s₂, h₂, h₃⟩ := Option.bind_eq_some_iff.mp h₁
  obtain ⟨x, hx, rfl⟩ := Option.map_eq_some_iff.mp h₂
  have hnot := List.nodup_middle.mp nodup
  have hv₂ : v ∉ l₂ := fun h => (List.nodup_cons.mp hnot).1 (List.mem_append_right _ h)
  have frame := foldlM_assign_frame l₂ _ t h₃
  rw [frame v hv₂, Function.update_self, ← hx]
  refine reads v t s₁ fun u hu => ?_
  have hu₁ := order l₁ v l₂ rfl u hu
  have hu₂ : u ∉ l₂ := fun h =>
    List.disjoint_of_nodup_append (List.nodup_cons.mp hnot).2 hu₁ h
  have huv : u ≠ v := fun h => (List.nodup_cons.mp hnot).1 (List.mem_append_left _ (h ▸ hu₁))
  rw [frame u hu₂, Function.update_of_ne huv]

/-- **An assignment in order finds a settled store** on the cells of the list. -/
theorem foldlM_of_settled (reads : ∀ v s s', (∀ u ∈ R v, s u = s' u) → F v s = F v s')
    (order : ∀ l₁ v l₂, l = l₁ ++ v :: l₂ → ∀ u ∈ R v, u ∈ l₁)
    (settled : ∀ v ∈ l, F v t = some (t v)) (s : ι → β) :
    ∃ s', l.foldlM (assign F) s = some s' ∧ ∀ v ∈ l, s' v = t v := by
  -- along the list: the cells before the head are already as in `t`
  have along : ∀ (l₂ l₁ : List ι) (s : ι → β), l = l₁ ++ l₂ → (∀ v ∈ l₁, s v = t v) →
      ∃ s', l₂.foldlM (assign F) s = some s' ∧ ∀ v ∈ l, s' v = t v := by
    intro l₂
    induction l₂ with
    | nil =>
        intro l₁ s hl hs
        rw [List.append_nil] at hl
        exact ⟨s, rfl, hl ▸ hs⟩
    | cons v l₂ ih =>
        intro l₁ s hl hs
        have value : F v s = some (t v) :=
          (reads v s t fun u hu => hs u (order l₁ v l₂ hl u hu)).trans
            (settled v (hl ▸ List.mem_append_right _ List.mem_cons_self))
        have step : assign F s v = some (Function.update s v (t v)) := by rw [assign, value]; rfl
        obtain ⟨s', run, hs'⟩ := ih (l₁ ++ [v]) (Function.update s v (t v)) (by simpa using hl)
          fun u hu => by
            by_cases huv : u = v
            · rw [huv, Function.update_self]
            · rw [Function.update_of_ne huv]
              exact hs u (by simpa [huv] using hu)
        exact ⟨s', by rw [List.foldlM_cons, step]; exact run, hs'⟩
  exact along l [] s rfl fun v hv => nomatch hv

end Assignment

end Xrune
