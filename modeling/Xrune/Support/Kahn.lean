import Xrune.Support.Graph

/-!
# Support — Kahn's order

The order is a list read by a head index and appended to while it is read.  The nodes with no
incoming edge come first; the node under the head goes through the whole edge list, and a node
whose count of owed edges it brings to zero is appended.  The list the loop ends with has no
duplicates, every node in it stands after all its predecessors, and in an acyclic graph it
holds every node (`Inv.mem_of_acyclic`).
-/

namespace Xrune.Kahn

variable {V : Type*} [DecidableEq V]

/-- The order so far and the counters. -/
abbrev State (V : Type*) := List V × (V → Int)

/-- The node under the head, `u`, at one edge. -/
def edge (u : V) (acc : State V) (e : V × V) : State V :=
  if e.1 ≠ u then acc
  else
    let d := acc.2 e.2 - 1
    (if d = 0 then acc.1 ++ [e.2] else acc.1, Function.update acc.2 e.2 d)

/-- The loop from the index `head` on. -/
def loop (E : List (V × V)) : Nat → Nat → State V → State V
  | 0, _, acc => acc
  | fuel + 1, head, acc =>
      match acc.1[head]? with
      | none   => acc
      | some u => loop E fuel (head + 1) (E.foldl (edge u) acc)

/-- The states of the loop, after each edge. -/
def trace (E : List (V × V)) : Nat → Nat → State V → List (State V)
  | 0, _, acc => [acc]
  | fuel + 1, head, acc =>
      match acc.1[head]? with
      | none   => [acc]
      | some u => (E.inits.map fun es => es.foldl (edge u) acc)
          ++ trace E fuel (head + 1) (E.foldl (edge u) acc)

/-- The order and the counters when the nodes still have `left` to go through. -/
structure Inv (nodes : List V) (E : List (V × V)) (left : V → List (V × V)) (acc : State V) :
    Prop where
  nodup : acc.1.Nodup
  mem : ∀ v, v ∈ acc.1 ↔ v ∈ nodes ∧ acc.2 v = 0
  dep : ∀ v ∈ nodes, acc.2 v = owed nodes.toFinset left v
  left : ∀ u ∈ nodes, left u = E ∨ u ∈ acc.1
  preds : ∀ l₁ v l₂, acc.1 = l₁ ++ v :: l₂ → ∀ u, (u, v) ∈ E → u ∈ l₁

namespace Inv

variable {nodes : List V} {E : List (V × V)} {left : V → List (V × V)} {acc : State V}
  {u v : V} {rest : List (V × V)}

theorem start {dep : V → Int} (hn : nodes.Nodup) (hE : ∀ e ∈ E, e.1 ∈ nodes)
    (hdep : ∀ v ∈ nodes, dep v = (E.countP fun e => e.2 = v : Nat)) :
    Inv nodes E (fun _ => E) (nodes.filter fun v => dep v == 0, dep) where
  nodup := hn.filter _
  mem v := by simp
  dep v hv := by
    have hE : ∀ e ∈ E, e.1 ∈ nodes.toFinset := fun e he => List.mem_toFinset.mpr (hE e he)
    rw [owed_all hE]
    exact hdep v hv
  left u _ := .inl rfl
  preds l₁ v l₂ h u huv := by
    have hv : v ∈ nodes.filter fun v => dep v == 0 := by
      have h : (nodes.filter fun v => dep v == 0) = l₁ ++ v :: l₂ := h
      rw [h]
      exact List.mem_append_right _ List.mem_cons_self
    obtain ⟨hvn, h0⟩ := List.mem_filter.mp hv
    have hd := hdep v hvn
    rw [eq_of_beq h0] at hd
    have none : (E.countP fun e => e.2 = v) = 0 := by exact_mod_cast hd.symm
    exact absurd huv (by simpa using fun h => List.countP_eq_zero.mp none (u, v) h)

omit [DecidableEq V] in
/-- Appending a node all of whose predecessors are already in the order. -/
theorem preds_append {l : List V} {w : V}
    (h : ∀ l₁ v l₂, l = l₁ ++ v :: l₂ → ∀ u, (u, v) ∈ E → u ∈ l₁)
    (hw : ∀ u, (u, w) ∈ E → u ∈ l) :
    ∀ l₁ v l₂, l ++ [w] = l₁ ++ v :: l₂ → ∀ u, (u, v) ∈ E → u ∈ l₁ := by
  intro l₁ v l₂ heq u huv
  rcases List.eq_nil_or_concat l₂ with rfl | ⟨l₂, z, rfl⟩
  · obtain ⟨rfl, hwv⟩ := List.append_inj' heq rfl
    obtain rfl : w = v := by simpa using hwv
    exact hw u huv
  · have heq : l ++ [w] = (l₁ ++ v :: l₂) ++ [z] := by simpa using heq
    obtain ⟨heq, -⟩ := List.append_inj' heq rfl
    exact h l₁ v l₂ heq u huv

/-- The node under the head passes one edge. -/
theorem edge (I : Inv nodes E left acc) (hE : ∀ e ∈ E, e.1 ∈ nodes ∧ e.2 ∈ nodes)
    (hu : u ∈ acc.1) {e : V × V} (he : e ∈ E) (hleft : left u = e :: rest) :
    Inv nodes E (Function.update left u rest) (edge u acc e) := by
  have hun : u ∈ nodes := ((I.mem u).mp hu).1
  have huf : u ∈ nodes.toFinset := List.mem_toFinset.mpr hun
  obtain ⟨x, w⟩ := e
  have hwn : w ∈ nodes := (hE _ he).2
  have left' : ∀ l : List V, (∀ y ∈ acc.1, y ∈ l) →
      ∀ y ∈ nodes, Function.update left u rest y = E ∨ y ∈ l := by
    intro l hl y hy
    by_cases hyu : y = u
    · exact .inr (hl y (hyu ▸ hu))
    · rw [Function.update_of_ne hyu]
      exact (I.left y hy).imp id (hl y)
  by_cases hx : x = u
  · subst hx
    have hr := fun v => owed_release (v := v) huf hleft
    have hpos : acc.2 w ≠ 0 := by
      rw [I.dep w hwn, hr w, if_pos rfl]
      omega
    have hout : w ∉ acc.1 := fun h => hpos ((I.mem w).mp h).2
    have dep' : ∀ v ∈ nodes, Function.update acc.2 w (acc.2 w - 1) v
        = owed nodes.toFinset (Function.update left x rest) v := by
      intro v hv
      have hd := I.dep v hv
      rw [hr v] at hd
      by_cases hvw : v = w
      · subst hvw
        rw [if_pos rfl] at hd
        simp only [Function.update_self, hd]
        push_cast
        omega
      · rw [if_neg hvw] at hd
        simpa [Function.update_of_ne hvw] using hd
    by_cases h0 : acc.2 w - 1 = 0
    · have hedge : Kahn.edge x acc (x, w)
          = (acc.1 ++ [w], Function.update acc.2 w (acc.2 w - 1)) := by simp [Kahn.edge, h0]
      rw [hedge]
      exact
        { nodup := by
            refine List.nodup_append.mpr ⟨I.nodup, List.nodup_singleton w, ?_⟩
            rintro a ha c hc rfl
            exact hout (List.mem_singleton.mp hc ▸ ha)
          mem := by
            intro v
            by_cases hvw : v = w
            · subst hvw; simp [hwn, h0]
            · simp [hvw, I.mem v]
          dep := dep'
          left := left' _ fun y hy => List.mem_append_left _ hy
          preds := preds_append I.preds fun y hyw => by
            have hyn : y ∈ nodes := (hE _ hyw).1
            have hz := dep' w hwn
            rw [Function.update_self, h0] at hz
            have gone := not_mem_left_of_owed (v := w) (by exact_mod_cast hz.symm)
              (List.mem_toFinset.mpr hyn)
            rcases left' acc.1 (fun _ h => h) y hyn with h | h
            · exact absurd (h ▸ hyw) gone
            · exact h }
    · have hedge : Kahn.edge x acc (x, w)
          = (acc.1, Function.update acc.2 w (acc.2 w - 1)) := by simp [Kahn.edge, h0]
      rw [hedge]
      exact
        { nodup := I.nodup
          mem := by
            intro v
            by_cases hvw : v = w
            · subst hvw; simp [hout, h0]
            · simp [I.mem v, Function.update_of_ne hvw]
          dep := dep'
          left := left' _ fun y hy => hy
          preds := I.preds }
  · have hedge : Kahn.edge u acc (x, w) = acc := by simp [Kahn.edge, hx]
    rw [hedge]
    exact
      { nodup := I.nodup
        mem := I.mem
        dep := fun v hv => by rw [owed_skip hleft hx]; exact I.dep v hv
        left := left' _ fun y hy => hy
        preds := I.preds }

theorem prefix_edge (u : V) (acc : State V) (e : V × V) : acc.1 <+: (Kahn.edge u acc e).1 := by
  unfold Kahn.edge
  split
  · exact List.prefix_refl _
  · dsimp only
    split
    · exact List.prefix_append _ _
    · exact List.prefix_refl _

/-- ... and several of them. -/
theorem foldl_edge (hE : ∀ e ∈ E, e.1 ∈ nodes ∧ e.2 ∈ nodes) (es : List (V × V))
    (hes : ∀ e ∈ es, e ∈ E) {left : V → List (V × V)} {acc : State V}
    (I : Inv nodes E left acc) (hu : u ∈ acc.1) (hleft : left u = es ++ rest) :
    Inv nodes E (Function.update left u rest) (es.foldl (Kahn.edge u) acc) ∧
      acc.1 <+: (es.foldl (Kahn.edge u) acc).1 := by
  induction es generalizing left acc with
  | nil =>
      have hleft : left u = rest := hleft
      have same : Function.update left u rest = left := hleft ▸ Function.update_eq_self u left
      exact ⟨same.symm ▸ I, List.prefix_refl _⟩
  | cons e es ih =>
      have he := hes e List.mem_cons_self
      have I' := I.edge hE hu he hleft
      have hpre := prefix_edge u acc e
      obtain ⟨h₁, h₂⟩ := ih (fun x hx => hes x (List.mem_cons_of_mem _ hx)) I'
        (hpre.subset hu) (by simp)
      rw [Function.update_idem] at h₁
      exact ⟨h₁, hpre.trans h₂⟩

/-- What the nodes have left when those before the head have been through the edges. -/
def leftAt (E : List (V × V)) (acc : State V) (head : Nat) (u : V) : List (V × V) :=
  if u ∈ acc.1.take head then [] else E

/-- The node under the head has gone through no edge. -/
theorem leftAt_head {head : Nat} (nodup : acc.1.Nodup) (hu : acc.1[head]? = some u) :
    leftAt E acc head u = E := by
  obtain ⟨hlt, hget⟩ := List.getElem?_eq_some_iff.mp hu
  refine if_neg fun h => ?_
  obtain ⟨i, hi, heq⟩ := List.getElem_of_mem h
  rw [List.length_take] at hi
  rw [List.getElem_take, ← hget] at heq
  have := (List.Nodup.getElem_inj_iff nodup).mp heq
  omega

/-- The node under the head is through the edges `es`, ... -/
theorem part (hE : ∀ e ∈ E, e.1 ∈ nodes ∧ e.2 ∈ nodes) {head : Nat}
    (I : Inv nodes E (leftAt E acc head) acc) (hu : acc.1[head]? = some u) {es : List (V × V)}
    (h : es <+: E) :
    ∃ left, Inv nodes E left (es.foldl (Kahn.edge u) acc) ∧
      acc.1 <+: (es.foldl (Kahn.edge u) acc).1 := by
  obtain ⟨rest, hrest⟩ := h
  obtain ⟨I', hpre⟩ := foldl_edge hE es (fun e he => hrest ▸ List.mem_append_left rest he) I
    (List.mem_of_getElem? hu) ((leftAt_head I.nodup hu).trans hrest.symm)
  exact ⟨_, I', hpre⟩

/-- ... and through all. -/
theorem turn (hE : ∀ e ∈ E, e.1 ∈ nodes ∧ e.2 ∈ nodes) {head : Nat}
    (I : Inv nodes E (leftAt E acc head) acc) (hu : acc.1[head]? = some u) :
    Inv nodes E (leftAt E (E.foldl (Kahn.edge u) acc) (head + 1)) (E.foldl (Kahn.edge u) acc) ∧
      acc.1 <+: (E.foldl (Kahn.edge u) acc).1 := by
  obtain ⟨hlt, -⟩ := List.getElem?_eq_some_iff.mp hu
  obtain ⟨I', hpre⟩ := foldl_edge hE E (fun _ h => h) I (List.mem_of_getElem? hu)
    ((leftAt_head I.nodup hu).trans (List.append_nil E).symm)
  refine ⟨?_, hpre⟩
  obtain ⟨tail, htail⟩ := hpre
  have htake : (E.foldl (Kahn.edge u) acc).1.take (head + 1) = acc.1.take head ++ [u] := by
    rw [← htail, List.take_append_of_le_length (by omega), List.take_add_one, hu]
    rfl
  have hleft : Function.update (leftAt E acc head) u []
      = leftAt E (E.foldl (Kahn.edge u) acc) (head + 1) := by
    funext x
    simp only [leftAt, htake, List.mem_append, List.mem_singleton]
    by_cases hx : x = u
    · subst hx; simp
    · simp [hx, leftAt]
  exact hleft ▸ I'

/-- **The loop ends with the head at the end of the order.** -/
theorem loop (hE : ∀ e ∈ E, e.1 ∈ nodes ∧ e.2 ∈ nodes) (fuel head : Nat) {acc : State V}
    (I : Inv nodes E (leftAt E acc head) acc) (hfuel : nodes.length ≤ fuel + head)
    (hhead : head ≤ acc.1.length) :
    Inv nodes E (leftAt E (loop E fuel head acc) (loop E fuel head acc).1.length)
      (loop E fuel head acc) := by
  have hlen : ∀ {acc : State V} {left}, Inv nodes E left acc → acc.1.length ≤ nodes.length :=
    fun I => (I.nodup.subperm fun v hv => ((I.mem v).mp hv).1).length_le
  induction fuel generalizing head acc with
  | zero =>
      have : head = acc.1.length := by have := hlen I; omega
      subst this
      exact I
  | succ fuel ih =>
      rw [Kahn.loop]
      cases hu : acc.1[head]? with
      | none =>
          have : head = acc.1.length := by
            have := List.getElem?_eq_none_iff.mp hu
            omega
          subst this
          exact I
      | some u =>
          obtain ⟨hlt, -⟩ := List.getElem?_eq_some_iff.mp hu
          obtain ⟨I', hpre⟩ := I.turn hE hu
          exact ih (head + 1) I' (by omega) (le_trans hlt hpre.length_le)

/-- The invariant holds after each edge. -/
theorem trace (hE : ∀ e ∈ E, e.1 ∈ nodes ∧ e.2 ∈ nodes) (fuel head : Nat) {acc : State V}
    (I : Inv nodes E (leftAt E acc head) acc) :
    ∀ acc' ∈ trace E fuel head acc, ∃ left, Inv nodes E left acc' := by
  induction fuel generalizing head acc with
  | zero =>
      intro acc' h
      exact List.mem_singleton.mp h ▸ ⟨_, I⟩
  | succ fuel ih =>
      intro acc' h
      rw [Kahn.trace] at h
      cases hu : acc.1[head]? with
      | none =>
          rw [hu] at h
          exact List.mem_singleton.mp h ▸ ⟨_, I⟩
      | some u =>
          rw [hu] at h
          rcases List.mem_append.mp h with h | h
          · obtain ⟨es, hes, rfl⟩ := List.mem_map.mp h
            obtain ⟨left, I', -⟩ := I.part hE hu ((List.mem_inits es E).mp hes)
            exact ⟨left, I'⟩
          · exact ih (head + 1) (I.turn hE hu).1 acc' h

/-- The nodes left out of the order are those whose counter is positive, ... -/
theorem not_mem_iff (I : Inv nodes E left acc) (hv : v ∈ nodes) : v ∉ acc.1 ↔ 0 < acc.2 v := by
  rw [I.mem v, I.dep v hv]
  simp [hv, Nat.pos_iff_ne_zero]

/-- ... each has a cycle above it, ... -/
theorem mem_of_not_downstream (I : Inv nodes E (leftAt E acc acc.1.length) acc)
    (hE : ∀ e ∈ E, e.1 ∈ nodes ∧ e.2 ∈ nodes) (off : ¬ DownstreamOfCycle E v) (hv : v ∈ nodes) :
    v ∈ acc.1 := by
  classical
  by_contra hout
  -- the nodes left out from which `v` can be reached
  set S := nodes.toFinset.filter fun w => w ∉ acc.1 ∧ Relation.ReflTransGen (Feeds E) w v
  have mem : ∀ w, w ∈ S ↔ w ∈ nodes ∧ w ∉ acc.1 ∧ Relation.ReflTransGen (Feeds E) w v :=
    fun w => by simp [S]
  obtain ⟨w, hw, cycle⟩ := exists_cycle_of_closed (E := E) (S := S)
    ⟨v, (mem v).mpr ⟨hv, hout, .refl⟩⟩ fun w hw => by
      obtain ⟨hwn, hwout, reach⟩ := (mem w).mp hw
      have hpos : 0 < owed nodes.toFinset (leftAt E acc acc.1.length) w := by
        have := (I.not_mem_iff hwn).mp hwout
        rw [I.dep w hwn] at this
        exact_mod_cast this
      obtain ⟨u, -, huw⟩ := exists_of_owed_pos hpos
      rw [leftAt, List.take_length] at huw
      by_cases hu : u ∈ acc.1
      · simp [hu] at huw
      · rw [if_neg hu] at huw
        exact ⟨u, (mem u).mpr ⟨(hE _ huw).1, hu, .head huw reach⟩, huw⟩
  exact off ⟨w, cycle, ((mem w).mp hw).2.2⟩

/-- ... and in an acyclic graph there are none. -/
theorem mem_of_acyclic (I : Inv nodes E (leftAt E acc acc.1.length) acc)
    (hE : ∀ e ∈ E, e.1 ∈ nodes ∧ e.2 ∈ nodes) (acyclic : Acyclic E) (hv : v ∈ nodes) :
    v ∈ acc.1 :=
  I.mem_of_not_downstream hE (acyclic.not_downstream v) hv

/-- A node stands after all those upstream of it. -/
theorem upstream (I : Inv nodes E left acc) (huv : Relation.TransGen (Feeds E) u v) :
    ∀ {l₁ l₂ : List V}, acc.1 = l₁ ++ v :: l₂ → u ∈ l₁ := by
  induction huv with
  | single huv => exact fun h => I.preds _ _ _ h u huv
  | @tail w v _ hwv ih =>
      intro l₁ l₂ h
      obtain ⟨a, b, rfl⟩ := List.append_of_mem (I.preds _ _ _ h w hwv)
      exact List.mem_append_left _ (ih (by simpa using h))

end Inv

/-! The counters of the nodes that no edge ends at are left. -/

theorem foldl_edge_source {E : List (V × V)} {v : V} (source : Source E v) (u : V)
    {es : List (V × V)} (hes : ∀ e ∈ es, e ∈ E) (acc : State V) :
    (es.foldl (edge u) acc).2 v = acc.2 v := by
  induction es generalizing acc with
  | nil => rfl
  | cons e es ih =>
      rw [List.foldl_cons, ih fun x hx => hes x (List.mem_cons_of_mem e hx), edge]
      split
      · rfl
      · refine Function.update_of_ne (fun (h : v = e.2) => source e.1 ?_) _ _
        exact h ▸ hes e List.mem_cons_self

theorem trace_source {E : List (V × V)} {v : V} (source : Source E v) (fuel head : Nat)
    (acc : State V) : ∀ acc' ∈ trace E fuel head acc, acc'.2 v = acc.2 v := by
  induction fuel generalizing head acc with
  | zero =>
      intro acc' h
      rw [List.mem_singleton.mp h]
  | succ fuel ih =>
      intro acc' h
      rw [trace] at h
      cases hu : acc.1[head]? with
      | none =>
          rw [hu] at h
          rw [List.mem_singleton.mp h]
      | some u =>
          rw [hu] at h
          rcases List.mem_append.mp h with h | h
          · obtain ⟨es, hes, rfl⟩ := List.mem_map.mp h
            exact foldl_edge_source source u
              (fun e he => ((List.mem_inits es E).mp hes).subset he) acc
          · rw [ih (head + 1) _ acc' h]
            exact foldl_edge_source source u (fun _ he => he) acc

end Xrune.Kahn
