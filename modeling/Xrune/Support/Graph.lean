import Mathlib

/-!
# Support — multigraphs given by edge lists

An edge is a pair of nodes; parallel edges are repeated entries.  Two algorithms count a node's
incoming edges down as the nodes at their other ends release them, one at a time, in list order.
What they share is `owed`: with `left u` the part of the edge list the node `u` has still to go
through, the edges into `v` not released yet.
-/

namespace Xrune

variable {V : Type*}

/-- `u` feeds `v`. -/
def Feeds (E : List (V × V)) (u v : V) : Prop := (u, v) ∈ E

def Acyclic (E : List (V × V)) : Prop := ∀ v, ¬ Relation.TransGen (Feeds E) v v

/-- No edge ends at `v`. -/
def Source (E : List (V × V)) (v : V) : Prop := ∀ u, (u, v) ∉ E

/-- `v` is on a cycle or can be reached from one. -/
def DownstreamOfCycle (E : List (V × V)) (v : V) : Prop :=
  ∃ w, Relation.TransGen (Feeds E) w w ∧ Relation.ReflTransGen (Feeds E) w v

theorem Acyclic.not_downstream {E : List (V × V)} (h : Acyclic E) (v : V) :
    ¬ DownstreamOfCycle E v :=
  fun ⟨w, cycle, _⟩ => h w cycle

/-- A nonempty finite set that is closed under taking a predecessor meets a cycle. -/
theorem exists_cycle_of_closed {E : List (V × V)} {S : Finset V} (hne : S.Nonempty)
    (closed : ∀ v ∈ S, ∃ u ∈ S, (u, v) ∈ E) : ∃ v ∈ S, Relation.TransGen (Feeds E) v v := by
  by_contra none
  let r : S → S → Prop := fun a b => Relation.TransGen (Feeds E) a.1 b.1
  have : IsTrans S r := ⟨fun _ _ _ hab hbc => hab.trans hbc⟩
  have : Std.Irrefl r := ⟨fun a cycle => none ⟨a.1, a.2, cycle⟩⟩
  have wf : WellFounded r := Finite.wellFounded_of_trans_of_irrefl r
  obtain ⟨v, hv⟩ := hne
  obtain ⟨m, -, hmin⟩ := wf.has_min Set.univ ⟨⟨v, hv⟩, trivial⟩
  obtain ⟨u, hu, huv⟩ := closed m.1 m.2
  exact hmin ⟨u, hu⟩ trivial (.single huv)

/-- In an acyclic graph no nonempty finite set is closed under taking a predecessor. -/
theorem Acyclic.no_closed_set {E : List (V × V)} (h : Acyclic E) (S : Finset V)
    (hne : S.Nonempty) : ¬ ∀ v ∈ S, ∃ u ∈ S, (u, v) ∈ E := by
  intro closed
  obtain ⟨v, -, cycle⟩ := exists_cycle_of_closed hne closed
  exact h v cycle

/-- A node of an acyclic graph is not its own predecessor. -/
theorem Acyclic.ne {E : List (V × V)} (h : Acyclic E) {u v : V} (huv : (u, v) ∈ E) : u ≠ v := by
  rintro rfl
  exact h _ (.single huv)

/-- A graph along whose edges something grows is acyclic. -/
theorem Acyclic.of_lt {E : List (V × V)} (f : V → Nat) (h : ∀ u v, (u, v) ∈ E → f u < f v) :
    Acyclic E := by
  have grows : ∀ {u v}, Relation.TransGen (Feeds E) u v → f u < f v := by
    intro u v huv
    induction huv with
    | single huv => exact h _ _ huv
    | tail _ huv ih => exact ih.trans (h _ _ huv)
  exact fun v hv => lt_irrefl _ (grows hv)

/-- A list of nodes with the predecessors of each before it orders an acyclic graph. -/
theorem Acyclic.of_order [DecidableEq V] {E : List (V × V)} {l : List V} (nodup : l.Nodup)
    (mem : ∀ e ∈ E, e.2 ∈ l)
    (preds : ∀ l₁ v l₂, l = l₁ ++ v :: l₂ → ∀ u, (u, v) ∈ E → u ∈ l₁) : Acyclic E := by
  refine .of_lt (fun v => l.idxOf v) fun u v huv => ?_
  obtain ⟨l₁, l₂, rfl⟩ := List.append_of_mem (mem _ huv)
  have hu : u ∈ l₁ := preds l₁ v l₂ rfl u huv
  have hv : v ∉ l₁ := fun h => (List.nodup_append.mp nodup).2.2 v h v List.mem_cons_self rfl
  rw [List.idxOf_append_of_mem hu, List.idxOf_append_of_notMem hv, List.idxOf_cons_self]
  exact lt_of_lt_of_le (List.idxOf_lt_length_of_mem hu) (Nat.le_add_right _ _)

/-- What holds of a node when it holds of its predecessors holds along an order. -/
theorem order_induction {E : List (V × V)} {l : List V} {p : V → Prop}
    (preds : ∀ l₁ v l₂, l = l₁ ++ v :: l₂ → ∀ u, (u, v) ∈ E → u ∈ l₁)
    (step : ∀ v ∈ l, (∀ u, (u, v) ∈ E → p u) → p v) : ∀ v ∈ l, p v := by
  have along : ∀ l₂ l₁ : List V, l = l₁ ++ l₂ → (∀ v ∈ l₁, p v) → ∀ v ∈ l, p v := by
    intro l₂
    induction l₂ with
    | nil => exact fun l₁ hl h => by rwa [hl, List.append_nil]
    | cons w l₂ ih =>
        intro l₁ hl h
        have hw : p w := step w (hl ▸ List.mem_append_right _ List.mem_cons_self)
          fun u hu => h u (preds l₁ w l₂ hl u hu)
        refine ih (l₁ ++ [w]) (by simpa using hl) fun v hv => ?_
        rcases List.mem_append.mp hv with hv | hv
        · exact h v hv
        · exact List.mem_singleton.mp hv ▸ hw
  exact along l [] rfl fun v hv => nomatch hv

/-- Counting the incoming edges of every node. -/
theorem foldl_count [DecidableEq V] (es : List (V × V)) (d : V → Int) (v : V) :
    (es.foldl (fun d e => Function.update d e.2 (d e.2 + 1)) d) v
      = d v + (es.countP fun e => e.2 = v : Nat) := by
  induction es generalizing d with
  | nil => simp
  | cons e es ih =>
      rw [List.foldl_cons, ih, List.countP_cons]
      by_cases hv : e.2 = v
      · subst hv
        simp only [Function.update_self, decide_true, if_true]
        push_cast
        omega
      · simp [hv, Function.update_of_ne (Ne.symm hv)]

section Owed

variable [DecidableEq V] {N : Finset V} {left : V → List (V × V)} {u v w x : V}
  {rest : List (V × V)}

/-- The edges into `v` that the nodes of `N` have not released. -/
def owed (N : Finset V) (left : V → List (V × V)) (v : V) : Nat :=
  ∑ u ∈ N, (left u).count (u, v)

theorem owed_pos (hu : u ∈ N) (h : (u, v) ∈ left u) : 0 < owed N left v :=
  lt_of_lt_of_le (List.count_pos_iff.mpr h)
    (Finset.single_le_sum (f := fun u => (left u).count (u, v)) (fun _ _ => Nat.zero_le _) hu)

theorem exists_of_owed_pos (h : 0 < owed N left v) : ∃ u ∈ N, (u, v) ∈ left u := by
  obtain ⟨u, hu, hne⟩ := Finset.exists_ne_zero_of_sum_ne_zero (Nat.pos_iff_ne_zero.mp h)
  exact ⟨u, hu, List.count_pos_iff.mp (Nat.pos_of_ne_zero hne)⟩

theorem not_mem_left_of_owed (h : owed N left v = 0) (hu : u ∈ N) : (u, v) ∉ left u := by
  intro hm
  exact absurd (owed_pos hu hm) (by omega)

/-- Passing an edge of another node releases nothing. -/
theorem owed_skip (h : left u = (x, w) :: rest) (hx : x ≠ u) :
    owed N (Function.update left u rest) v = owed N left v := by
  refine Finset.sum_congr rfl fun a _ => ?_
  by_cases ha : a = u
  · subst ha
    have : ((x, w) == (a, v)) = false := by simp [hx]
    simp [h, List.count_cons, this]
  · simp [Function.update_of_ne ha]

/-- Passing an edge of one's own releases it. -/
theorem owed_release (hu : u ∈ N) (h : left u = (u, w) :: rest) :
    owed N left v = owed N (Function.update left u rest) v + if v = w then 1 else 0 := by
  have others : ∑ a ∈ N.erase u, (left a).count (a, v)
      = ∑ a ∈ N.erase u, (Function.update left u rest a).count (a, v) :=
    Finset.sum_congr rfl fun a ha => by
      rw [Function.update_of_ne (Finset.ne_of_mem_erase ha)]
  have own : (left u).count (u, v)
      = (Function.update left u rest u).count (u, v) + if v = w then 1 else 0 := by
    rw [h, Function.update_self, List.count_cons]
    by_cases hv : v = w
    · simp [hv]
    · simp [hv, Ne.symm hv]
  unfold owed
  rw [← Finset.add_sum_erase N _ hu, ← Finset.add_sum_erase N _ hu, others, own]
  omega

/-- What is owed depends on the remainders of the nodes only. -/
theorem owed_congr {left' : V → List (V × V)} (h : ∀ u ∈ N, left u = left' u) :
    owed N left v = owed N left' v :=
  Finset.sum_congr rfl fun u hu => by rw [h u hu]

/-- Before any release the edges owed are the in-degree. -/
theorem owed_all {E : List (V × V)} (hE : ∀ e ∈ E, e.1 ∈ N) :
    owed N (fun _ => E) v = E.countP fun e => e.2 = v := by
  induction E with
  | nil => simp [owed]
  | cons e E ih =>
      have he : e.1 ∈ N := hE e List.mem_cons_self
      have ih := ih fun x hx => hE x (List.mem_cons_of_mem _ hx)
      have head : ∑ u ∈ N, (if e = (u, v) then 1 else 0) = if e.2 = v then 1 else 0 := by
        by_cases hv : e.2 = v
        · have : ∀ u ∈ N, (if e = (u, v) then 1 else 0) = if e.1 = u then 1 else 0 := by
            intro u _
            have : e = (u, v) ↔ e.1 = u := by rw [← hv, Prod.ext_iff]; simp
            simp only [this]
          rw [Finset.sum_congr rfl this]
          simp [hv, he]
        · have : ∀ u ∈ N, (if e = (u, v) then 1 else 0) = 0 := by
            intro u _
            rw [if_neg]
            rintro rfl
            exact hv rfl
          rw [Finset.sum_congr rfl this]
          simp [hv]
      have split : owed N (fun _ => e :: E) v
          = owed N (fun _ => E) v + ∑ u ∈ N, (if e = (u, v) then 1 else 0) := by
        simp only [owed, List.count_cons, beq_iff_eq, Finset.sum_add_distrib]
      rw [split, ih, head, List.countP_cons]
      simp

end Owed

/-- What only finitely much follows, and nothing twice on a path, nothing follows endlessly. -/
theorem acc_of_acyclic {r : V → V → Prop} {a : V}
    (finite : {b | Relation.ReflTransGen r a b}.Finite)
    (acyclic : ∀ b, Relation.ReflTransGen r a b → ¬ Relation.TransGen r b b) : Acc (flip r) a := by
  let t : {b | Relation.ReflTransGen r a b} → {b | Relation.ReflTransGen r a b} → Prop :=
    fun x y => Relation.TransGen r y.1 x.1
  have : Finite {b | Relation.ReflTransGen r a b} := finite.to_subtype
  have : IsTrans {b | Relation.ReflTransGen r a b} t := ⟨fun _ _ _ hxy hyz => hyz.trans hxy⟩
  have : Std.Irrefl t := ⟨fun x cycle => acyclic x.1 x.2 cycle⟩
  have wf : WellFounded t := Finite.wellFounded_of_trans_of_irrefl t
  have all : ∀ x : {b | Relation.ReflTransGen r a b}, Acc (flip r) x.1 := by
    intro x
    induction x using wf.induction with
    | _ x ih => exact Acc.intro x.1 fun b one => ih ⟨b, x.2.tail one⟩ (.single one)
  exact all ⟨a, .refl⟩

end Xrune
