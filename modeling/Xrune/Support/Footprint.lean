import Mathlib

/-!
# Support — footprints

A state is seen through its cells: `look s i` is what the cell `i` holds.  An operation has the
footprint `W`, `R` when it writes the cells of `W` alone, and what it writes depends on the cells
of `W` and `R` (`Footprint`).  Two operations neither of which writes what the other reads or
writes commute (`Footprint.commute`), and operations of which only some pairs commute may be
executed in any two orders that agree on the other pairs (`foldl_eq_of_orders`).
-/

namespace Xrune

variable {σ ι κ γ : Type*} {β : ι → Type*}

/-- `f` keeps `I`, writes the cells of `W` alone, and what it writes depends on those of `W` and
`R`. -/
structure Footprint (I : σ → Prop) (look : σ → ∀ i, β i) (W R : Set ι) (f : σ → σ) : Prop where
  keeps : ∀ s, I s → I (f s)
  frame : ∀ s, I s → ∀ i ∉ W, look (f s) i = look s i
  congr : ∀ s s', I s → I s' → (∀ i ∈ W ∪ R, look s i = look s' i) →
    ∀ i ∈ W, look (f s) i = look (f s') i

namespace Footprint

variable {I : σ → Prop} {look : σ → ∀ i, β i} {W W' R R' : Set ι} {f g : σ → σ}

theorem id : Footprint I look W R (fun s => s) where
  keeps _ h := h
  frame _ _ _ _ := rfl
  congr _ _ _ _ agree i hi := agree i (.inl hi)

theorem mono (h : Footprint I look W R f) (writes : W ⊆ W') (reads : R ⊆ W' ∪ R') :
    Footprint I look W' R' f where
  keeps := h.keeps
  frame s hs i hi := h.frame s hs i fun hw => hi (writes hw)
  congr s s' hs hs' agree i hi := by
    by_cases hw : i ∈ W
    · refine h.congr s s' hs hs' (fun j hj => ?_) i hw
      exact agree j (hj.elim (fun hj => .inl (writes hj)) fun hj => reads hj)
    · rw [h.frame s hs i hw, h.frame s' hs' i hw]
      exact agree i (.inl hi)

theorem comp (hf : Footprint I look W R f) (hg : Footprint I look W R g) :
    Footprint I look W R fun s => f (g s) where
  keeps s hs := hf.keeps _ (hg.keeps s hs)
  frame s hs i hi := (hf.frame _ (hg.keeps s hs) i hi).trans (hg.frame s hs i hi)
  congr s s' hs hs' agree := by
    refine hf.congr _ _ (hg.keeps s hs) (hg.keeps s' hs') fun i hi => ?_
    by_cases hw : i ∈ W
    · exact hg.congr s s' hs hs' agree i hw
    · rw [hg.frame s hs i hw, hg.frame s' hs' i hw]
      exact agree i hi

theorem foldl {f : σ → κ → σ} : ∀ l : List κ, (∀ k ∈ l, Footprint I look W R fun s => f s k) →
    Footprint I look W R fun s => l.foldl f s
  | [], _     => id
  | k :: l, h =>
      (foldl l fun k hk => h k (List.mem_cons_of_mem _ hk)).comp (h k List.mem_cons_self)

/-- An operation on one cell. -/
theorem point {i : ι} (own : i ∈ W) (h : β i → β i) (keeps : ∀ s, I s → I (f s))
    (here : ∀ s, look (f s) i = h (look s i))
    (others : ∀ s j, j ≠ i → look (f s) j = look s j) : Footprint I look W R f where
  keeps := keeps
  frame s _ j hj := others s j fun e => hj (e ▸ own)
  congr s s' _ _ agree j hj := by
    by_cases e : j = i
    · subst e
      rw [here, here, agree j (.inl hj)]
    · rw [others s j e, others s' j e]
      exact agree j (.inl hj)

/-- An operation that first reads something, and then does what it found. -/
theorem of_reads {e : σ → γ} {f : γ → σ → σ}
    (reads : ∀ s s', I s → I s' → (∀ i ∈ W ∪ R, look s i = look s' i) → e s = e s')
    (h : ∀ x, Footprint I look W R (f x)) : Footprint I look W R fun s => f (e s) s where
  keeps s hs := (h _).keeps s hs
  frame s hs := (h _).frame s hs
  congr s s' hs hs' agree := by
    simp only [reads s s' hs hs' agree]
    exact (h _).congr s s' hs hs' agree

/-- Only the states that meet `I` matter. -/
theorem of_eq (h : Footprint I look W R f) (eq : ∀ s, I s → g s = f s) :
    Footprint I look W R g where
  keeps s hs := eq s hs ▸ h.keeps s hs
  frame s hs := eq s hs ▸ h.frame s hs
  congr s s' hs hs' agree := by
    rw [eq s hs, eq s' hs']
    exact h.congr s s' hs hs' agree

/-- **Operations with disjoint footprints commute.** -/
theorem commute (ext : ∀ s s', I s → I s' → look s = look s' → s = s')
    (hf : Footprint I look W R f) (hg : Footprint I look W' R' g)
    (apart : Disjoint W (W' ∪ R')) (apart' : Disjoint W' (W ∪ R)) {s : σ} (hs : I s) :
    f (g s) = g (f s) := by
  have outside : ∀ i ∈ W ∪ R, i ∉ W' := fun i hi hw => Set.disjoint_left.mp apart' hw hi
  have outside' : ∀ i ∈ W' ∪ R', i ∉ W := fun i hi hw => Set.disjoint_left.mp apart hw hi
  refine ext _ _ (hf.keeps _ (hg.keeps s hs)) (hg.keeps _ (hf.keeps s hs)) (funext fun i => ?_)
  by_cases hw : i ∈ W
  · rw [hg.frame _ (hf.keeps s hs) i (outside i (.inl hw))]
    exact hf.congr _ _ (hg.keeps s hs) hs (fun j hj => hg.frame s hs j (outside j hj)) i hw
  · rw [hf.frame _ (hg.keeps s hs) i hw]
    by_cases hw' : i ∈ W'
    · exact (hg.congr _ _ (hf.keeps s hs) hs
        (fun j hj => hf.frame s hs j (outside' j hj)) i hw').symm
    · rw [hg.frame s hs i hw', hg.frame _ (hf.keeps s hs) i hw', hf.frame s hs i hw]

end Footprint

/-! ### Orders -/

section Orders

variable {I : σ → Prop} {f : σ → κ → σ} {E : κ → κ → Prop}

/-- An operation that commutes with those before it may come first. -/
theorem foldl_front (keeps : ∀ s k, I s → I (f s k)) {a : κ} {r : List κ} :
    ∀ (l : List κ) (s : σ), I s → (∀ x ∈ l, ∀ s, I s → f (f s x) a = f (f s a) x) →
      (l ++ a :: r).foldl f s = (a :: (l ++ r)).foldl f s
  | [], _, _, _      => rfl
  | x :: l, s, hs, h => by
      have rest := foldl_front keeps (r := r) l (f s x) (keeps s x hs) fun y hy =>
        h y (List.mem_cons_of_mem _ hy)
      rw [List.cons_append, List.foldl_cons, rest, List.foldl_cons, h x List.mem_cons_self s hs]
      rfl

/-- **Any two orders that respect `E` end in the same state**, when operations that `E` does not
relate commute. -/
theorem foldl_eq_of_orders (keeps : ∀ s k, I s → I (f s k))
    (commute : ∀ a b, a ≠ b → ¬E a b → ¬E b a → ∀ s, I s → f (f s a) b = f (f s b) a) :
    ∀ {l l' : List κ}, l.Perm l' → l.Nodup → (l.Pairwise fun a b => ¬E b a) →
      (l'.Pairwise fun a b => ¬E b a) → ∀ s, I s → l.foldl f s = l'.foldl f s := by
  intro l
  induction l with
  | nil =>
      intro l' perm _ _ _ s _
      rw [perm.nil_eq]
  | cons a l ih =>
      intro l' perm nodup order order' s hs
      obtain ⟨l₁, l₂, rfl⟩ := List.append_of_mem (perm.mem_iff.mp List.mem_cons_self)
      have perm' : l.Perm (l₁ ++ l₂) :=
        ((perm.trans List.perm_middle).cons_inv)
      obtain ⟨fresh, nodup⟩ := List.nodup_cons.mp nodup
      obtain ⟨first, order⟩ := List.pairwise_cons.mp order
      have before : ∀ x ∈ l₁, ¬E a x := fun x hx =>
        (List.pairwise_append.mp order').2.2 x hx a List.mem_cons_self
      have moves : ∀ x ∈ l₁, ∀ s, I s → f (f s x) a = f (f s a) x := by
        intro x hx s hs
        have hx' : x ∈ l := perm'.mem_iff.mpr (List.mem_append_left _ hx)
        exact commute x a (fun h => fresh (h ▸ hx')) (first x hx') (before x hx) s hs
      have order' : (l₁ ++ l₂).Pairwise fun a b => ¬E b a :=
        order'.sublist (List.Sublist.append_left (List.sublist_cons_self a l₂) l₁)
      rw [foldl_front keeps l₁ s hs moves, List.foldl_cons, List.foldl_cons]
      exact ih perm' nodup order order' _ (keeps s a hs)

/-- A list each of whose members comes after what `E` leads to it from never has an edge back. -/
theorem pairwise_of_before {l : List κ} (nodup : l.Nodup)
    (before : ∀ l₁ v l₂, l = l₁ ++ v :: l₂ → ∀ u, E u v → u ∈ l₁) :
    l.Pairwise fun a b => ¬E b a := by
  refine List.pairwise_iff_forall_sublist.mpr fun {a b} sub edge => ?_
  obtain ⟨l₁, l₂, rfl, ha, hb⟩ := List.cons_sublist_iff.mp sub
  have hb := List.singleton_sublist.mp hb
  obtain ⟨m₁, m₂, rfl⟩ := List.append_of_mem ha
  have early : b ∈ m₁ := before m₁ a (m₂ ++ l₂) (by simp) b edge
  exact (List.disjoint_of_nodup_append nodup) (List.mem_append_left _ early) hb

end Orders

end Xrune
