import Xrune.Support.Graph

/-!
# Support — countdown scheduling

A set of tasks, the nodes of a multigraph, is run by threads that share a ready queue.  A
counter per node holds the edges into it that are still owed.  One party looks at every node
once and pushes those whose counter is zero (*seeding*); a thread pops a node, runs its body,
and then goes through the edge list, decrementing the counter at the far end of each edge of
its own and pushing the node there when that brings its counter to zero.

Seeding runs while the threads are already at work, so a node can be found at zero by the
seeding party after a thread has pushed it.  A board on which this cannot happen keeps `Inv`:
every node is run once, after its predecessors, and the board is not stuck while a node is not
done.  `RaceFree` is a condition on the graph and the seeding order that excludes it.
-/

namespace Xrune.Countdown

variable {V : Type*} [DecidableEq V]

/-- Where a node is: not popped; its body running; going through the edges `rest`; about to
push `w`, whose counter it brought to zero; done. -/
inductive Stage (V : Type*) where
  | idle
  | body
  | releasing (rest : List (V × V))
  | pushing (w : V) (rest : List (V × V))
  | done
  deriving DecidableEq

/-- The state: the nodes seeding has still to look at, the counters, the ready queue, the
nodes' stages, and how many are not done. -/
structure Board (V : Type*) where
  seeds : List V
  dep : V → Int
  ready : List V
  stage : V → Stage V
  remaining : Int

namespace Stage

/-- The edges a node at this stage has still to go through. -/
def left (E : List (V × V)) : Stage V → List (V × V)
  | .idle | .body     => E
  | .releasing rest   => rest
  | .pushing _ rest   => rest
  | .done             => []

/-- The node's body has run. -/
def HasRun : Stage V → Prop
  | .idle | .body => False
  | .releasing _ | .pushing _ _ | .done => True

end Stage

/-- One step of the seeding party or of a thread. -/
inductive Step (E : List (V × V)) : Board V → Board V → Prop where
  | seedReady {b : Board V} {v : V} {rest : List V} (seeds : b.seeds = v :: rest)
      (zero : b.dep v = 0) :
      Step E b { b with seeds := rest, ready := b.ready ++ [v] }
  | seedBlocked {b : Board V} {v : V} {rest : List V} (seeds : b.seeds = v :: rest)
      (pos : b.dep v ≠ 0) :
      Step E b { b with seeds := rest }
  | pop {b : Board V} {v : V} {q : List V} (ready : b.ready = v :: q) :
      Step E b { b with ready := q, stage := Function.update b.stage v .body }
  | run {b : Board V} {v : V} (stage : b.stage v = .body) :
      Step E b { b with stage := Function.update b.stage v (.releasing E) }
  | skip {b : Board V} {u x w : V} {rest : List (V × V)}
      (stage : b.stage u = .releasing ((x, w) :: rest)) (other : x ≠ u) :
      Step E b { b with stage := Function.update b.stage u (.releasing rest) }
  | release {b : Board V} {u w : V} {rest : List (V × V)}
      (stage : b.stage u = .releasing ((u, w) :: rest)) :
      Step E b
        { b with
          dep := Function.update b.dep w (b.dep w - 1)
          stage := Function.update b.stage u
            (if b.dep w = 1 then .pushing w rest else .releasing rest) }
  | push {b : Board V} {u w : V} {rest : List (V × V)} (stage : b.stage u = .pushing w rest) :
      Step E b
        { b with
          ready := b.ready ++ [w]
          stage := Function.update b.stage u (.releasing rest) }
  | finish {b : Board V} {u : V} (stage : b.stage u = .releasing []) :
      Step E b
        { b with
          stage := Function.update b.stage u .done
          remaining := b.remaining - 1 }

/-- The board seeding starts from. -/
def Board.start (nodes : List V) (dep : V → Int) : Board V :=
  ⟨nodes, dep, [], fun _ => .idle, nodes.length⟩

/-- Every node with a predecessor has, among the nodes seeded after it, a source it descends
from: until that source is pushed, none of the nodes between the two can run. -/
def RaceFree (nodes : List V) (E : List (V × V)) : Prop :=
  ∀ l₁ v l₂, nodes = l₁ ++ v :: l₂ → (∃ u, (u, v) ∈ E) →
    ∃ u ∈ l₂, Source E u ∧ Relation.TransGen (Feeds E) u v

/-- What the nodes and the edges satisfy. -/
structure WellFormed (nodes : List V) (E : List (V × V)) : Prop where
  nodup : nodes.Nodup
  edges : ∀ e ∈ E, e.1 ∈ nodes ∧ e.2 ∈ nodes

/-- Every node stands at one place: owed edges, about to be seeded, about to be pushed, in the
queue, at work, or done. -/
structure Inv (nodes : List V) (E : List (V × V)) (b : Board V) : Prop where
  seeds : b.seeds <:+ nodes
  dep : ∀ v ∈ nodes, b.dep v = owed nodes.toFinset (fun u => (b.stage u).left E) v
  suffix : ∀ u, (b.stage u).left E <:+ E
  moved : ∀ v, b.stage v ≠ .idle → v ∈ nodes ∧ b.dep v = 0
  movedSeed : ∀ v ∈ b.seeds, b.stage v ≠ .idle → ¬ Source E v
  readyNodup : b.ready.Nodup
  ready : ∀ v ∈ b.ready, v ∈ nodes ∧ b.stage v = .idle ∧ b.dep v = 0 ∧
    (v ∈ b.seeds → ¬ Source E v)
  pushing : ∀ u w rest, b.stage u = .pushing w rest →
    w ∈ nodes ∧ b.stage w = .idle ∧ b.dep w = 0 ∧ w ∉ b.ready ∧ ¬ Source E w
  pushingOnce : ∀ u u' w rest rest', b.stage u = .pushing w rest →
    b.stage u' = .pushing w rest' → u = u'
  waiting : ∀ v ∈ nodes, b.stage v = .idle → b.dep v = 0 →
    v ∈ b.ready ∨ (∃ u rest, b.stage u = .pushing v rest) ∨ (v ∈ b.seeds ∧ Source E v)
  remaining : b.remaining = (nodes.countP fun v => decide (b.stage v ≠ .done) : Nat)

/-! ### The steps keep the invariant -/

namespace Inv

variable {nodes : List V} {E : List (V × V)} {b : Board V} {u v w x : V}
  {rest : List (V × V)} {s : Stage V}

theorem left_update (stage : V → Stage V) (u : V) (s : Stage V) :
    (fun x => (Function.update stage u s x).left E)
      = Function.update (fun x => (stage x).left E) u (s.left E) := by
  funext x
  by_cases hx : x = u
  · subst hx; simp
  · simp [Function.update_of_ne hx]

/-- A change of stage that keeps what is left keeps what is owed. -/
theorem owed_same_left (h : s.left E = (b.stage u).left E) :
    owed nodes.toFinset (fun x => (Function.update b.stage u s x).left E) v
      = owed nodes.toFinset (fun x => (b.stage x).left E) v := by
  refine owed_congr fun x _ => ?_
  by_cases hx : x = u
  · subst hx; simp [h]
  · simp [Function.update_of_ne hx]

/-- A change of stage short of `done` keeps the number of nodes that are not done. -/
theorem count_same (old : b.stage u ≠ .done) (new : s ≠ .done) :
    (nodes.countP fun v => decide (Function.update b.stage u s v ≠ .done))
      = nodes.countP fun v => decide (b.stage v ≠ .done) := by
  refine List.countP_congr fun x _ => ?_
  by_cases hx : x = u
  · subst hx; simp [old, new]
  · simp [Function.update_of_ne hx]

theorem count_finish (hn : nodes.Nodup) (hu : u ∈ nodes) (old : b.stage u ≠ .done) :
    (nodes.countP fun v => decide (b.stage v ≠ .done))
      = (nodes.countP fun v => decide (Function.update b.stage u .done v ≠ .done)) + 1 := by
  induction nodes with
  | nil => cases hu
  | cons x nodes ih =>
      obtain ⟨hx, hn⟩ := List.nodup_cons.mp hn
      rcases List.mem_cons.mp hu with rfl | hu
      · have same : (nodes.countP fun v => decide (b.stage v ≠ .done))
            = nodes.countP fun v => decide (Function.update b.stage u .done v ≠ .done) := by
          refine List.countP_congr fun y hy => ?_
          have hyu : y ≠ u := by rintro rfl; exact hx hy
          rw [Function.update_of_ne hyu]
        rw [List.countP_cons, List.countP_cons, same]
        simp [old]
      · have hxu : x ≠ u := fun h => hx (h ▸ hu)
        have ih := ih hn hu
        simp only [List.countP_cons, Function.update_of_ne hxu]
        omega

theorem idle_of_dep_ne (I : Inv nodes E b) (h : b.dep v ≠ 0) : b.stage v = .idle := by
  by_contra hs
  exact h (I.moved v hs).2

/-- A node that has been popped, or is about to be, has only predecessors whose bodies ran. -/
theorem preds_have_run (I : Inv nodes E b) (wf : WellFormed nodes E) (hv : v ∈ nodes)
    (h0 : b.dep v = 0) (huv : (u, v) ∈ E) : (b.stage u).HasRun := by
  have hu : u ∈ nodes.toFinset := List.mem_toFinset.mpr (wf.edges _ huv).1
  have hd := I.dep v hv
  rw [h0] at hd
  have gone := not_mem_left_of_owed (v := v) (by exact_mod_cast hd.symm) hu
  cases hs : b.stage u with
  | idle => exact absurd huv (by simpa [hs, Stage.left] using gone)
  | body => exact absurd huv (by simpa [hs, Stage.left] using gone)
  | releasing rest => trivial
  | pushing w rest => trivial
  | done => trivial

theorem start (wf : WellFormed nodes E) {dep : V → Int}
    (hdep : ∀ v ∈ nodes, dep v = (E.countP fun e => e.2 = v : Nat)) :
    Inv nodes E (Board.start nodes dep) where
  seeds := List.suffix_refl _
  dep v hv := by
    have hE : ∀ e ∈ E, e.1 ∈ nodes.toFinset := fun e he =>
      List.mem_toFinset.mpr (wf.edges e he).1
    simp only [Board.start, Stage.left, owed_all hE]
    exact hdep v hv
  suffix _ := List.suffix_refl _
  moved v h := absurd rfl h
  movedSeed v _ h := absurd rfl h
  readyNodup := List.nodup_nil
  ready v h := absurd h List.not_mem_nil
  pushing u w rest h := by cases h
  pushingOnce u u' w rest rest' h := by cases h
  waiting v hv _ h0 := by
    refine .inr (.inr ⟨hv, fun u huv => ?_⟩)
    have h := hdep v hv
    have h0 : dep v = 0 := h0
    rw [h0] at h
    have none : (E.countP fun e => e.2 = v) = 0 := by exact_mod_cast h.symm
    simpa using List.countP_eq_zero.mp none _ huv
  remaining := by simp [Board.start]

theorem seedReady (I : Inv nodes E b) (wf : WellFormed nodes E) {rest : List V}
    (hs : b.seeds = v :: rest) (h0 : b.dep v = 0) (safe : Source E v) :
    Inv nodes E { b with seeds := rest, ready := b.ready ++ [v] } := by
  have hseed : v ∈ b.seeds := hs ▸ List.mem_cons_self
  have hsuf : rest <:+ b.seeds := hs ▸ List.suffix_cons v rest
  have hidle : b.stage v = .idle := by
    by_contra h
    exact I.movedSeed v hseed h safe
  have hnew : v ∉ b.ready := fun h => (I.ready v h).2.2.2 hseed safe
  have hrest : v ∉ rest :=
    (List.nodup_cons.mp (hs ▸ (I.seeds.sublist.nodup wf.nodup))).1
  exact
    { seeds := hsuf.trans I.seeds
      dep := I.dep
      suffix := I.suffix
      moved := I.moved
      movedSeed := fun x hx => I.movedSeed x (hsuf.subset hx)
      readyNodup := by
        refine List.nodup_append.mpr ⟨I.readyNodup, List.nodup_singleton v, ?_⟩
        rintro a ha c hc rfl
        exact hnew (List.mem_singleton.mp hc ▸ ha)
      ready := by
        intro x hx
        rcases List.mem_append.mp hx with hx | hx
        · obtain ⟨h₁, h₂, h₃, h₄⟩ := I.ready x hx
          exact ⟨h₁, h₂, h₃, fun h => h₄ (hsuf.subset h)⟩
        · obtain rfl := List.mem_singleton.mp hx
          exact ⟨I.seeds.subset hseed, hidle, h0, fun h => absurd h hrest⟩
      pushing := by
        intro u w rest' h
        obtain ⟨h₁, h₂, h₃, h₄, h₅⟩ := I.pushing u w rest' h
        refine ⟨h₁, h₂, h₃, fun hm => ?_, h₅⟩
        rcases List.mem_append.mp hm with hm | hm
        · exact h₄ hm
        · exact h₅ (List.mem_singleton.mp hm ▸ safe)
      pushingOnce := I.pushingOnce
      waiting := by
        intro x hx hi hd
        rcases I.waiting x hx hi hd with h | h | ⟨h, hsrc⟩
        · exact .inl (List.mem_append_left _ h)
        · exact .inr (.inl h)
        · rcases List.mem_cons.mp (hs ▸ h) with rfl | h
          · exact .inl (List.mem_append_right _ List.mem_cons_self)
          · exact .inr (.inr ⟨h, hsrc⟩)
      remaining := I.remaining }

theorem seedBlocked (I : Inv nodes E b) {rest : List V} (hs : b.seeds = v :: rest)
    (h0 : b.dep v ≠ 0) : Inv nodes E { b with seeds := rest } := by
  have hsuf : rest <:+ b.seeds := hs ▸ List.suffix_cons v rest
  exact
    { seeds := hsuf.trans I.seeds
      dep := I.dep
      suffix := I.suffix
      moved := I.moved
      movedSeed := fun x hx => I.movedSeed x (hsuf.subset hx)
      readyNodup := I.readyNodup
      ready := by
        intro x hx
        obtain ⟨h₁, h₂, h₃, h₄⟩ := I.ready x hx
        exact ⟨h₁, h₂, h₃, fun h => h₄ (hsuf.subset h)⟩
      pushing := I.pushing
      pushingOnce := I.pushingOnce
      waiting := by
        intro x hx hi hd
        rcases I.waiting x hx hi hd with h | h | ⟨h, hsrc⟩
        · exact .inl h
        · exact .inr (.inl h)
        · rcases List.mem_cons.mp (hs ▸ h) with rfl | h
          · exact absurd hd h0
          · exact .inr (.inr ⟨h, hsrc⟩)
      remaining := I.remaining }

theorem pop (I : Inv nodes E b) {q : List V} (hq : b.ready = v :: q) :
    Inv nodes E { b with ready := q, stage := Function.update b.stage v .body } := by
  obtain ⟨hv, hidle, h0, hsrc⟩ := I.ready v (hq ▸ List.mem_cons_self)
  obtain ⟨hvq, hnq⟩ := List.nodup_cons.mp (hq ▸ I.readyNodup)
  have hsub : ∀ x ∈ q, x ∈ b.ready := fun x hx => hq ▸ List.mem_cons_of_mem v hx
  have hleft : (Stage.body : Stage V).left E = (b.stage v).left E := by rw [hidle]; rfl
  exact
    { seeds := I.seeds
      dep := fun x hx => by rw [owed_same_left hleft]; exact I.dep x hx
      suffix := by
        intro x
        by_cases hx : x = v
        · subst hx; simp [Stage.left]
        · simpa [Function.update_of_ne hx] using I.suffix x
      moved := by
        intro x hx
        by_cases hxv : x = v
        · subst hxv; exact ⟨hv, h0⟩
        · exact I.moved x (by simpa [Function.update_of_ne hxv] using hx)
      movedSeed := by
        intro x hs hx
        by_cases hxv : x = v
        · subst hxv; exact hsrc hs
        · exact I.movedSeed x hs (by simpa [Function.update_of_ne hxv] using hx)
      readyNodup := hnq
      ready := by
        intro x hx
        have hxv : x ≠ v := fun h => hvq (h ▸ hx)
        simpa [Function.update_of_ne hxv] using I.ready x (hsub x hx)
      pushing := by
        intro u w rest h
        by_cases huv : u = v
        · subst huv; simp at h
        · obtain ⟨h₁, h₂, h₃, h₄, h₅⟩ :=
            I.pushing u w rest (by simpa [Function.update_of_ne huv] using h)
          have hwv : w ≠ v := fun hw => h₄ (hq ▸ hw ▸ List.mem_cons_self)
          exact ⟨h₁, by simpa [Function.update_of_ne hwv] using h₂, h₃,
            fun hm => h₄ (hsub w hm), h₅⟩
      pushingOnce := by
        intro u u' w rest rest' h h'
        by_cases huv : u = v
        · subst huv; simp at h
        · by_cases huv' : u' = v
          · subst huv'; simp at h'
          · exact I.pushingOnce u u' w rest rest'
              (by simpa [Function.update_of_ne huv] using h)
              (by simpa [Function.update_of_ne huv'] using h')
      waiting := by
        intro x hx hi hd
        have hxv : x ≠ v := by rintro rfl; simp at hi
        rcases I.waiting x hx (by simpa [Function.update_of_ne hxv] using hi) hd
          with h | ⟨u, rest, h⟩ | h
        · exact .inl ((List.mem_cons.mp (hq ▸ h)).resolve_left hxv)
        · have huv : u ≠ v := by rintro rfl; rw [hidle] at h; cases h
          exact .inr (.inl ⟨u, rest, by simpa [Function.update_of_ne huv] using h⟩)
        · exact .inr (.inr h)
      remaining := by
        rw [count_same (by rw [hidle]; simp) (by simp)]
        exact I.remaining }

/-- A node at work moves on, short of bringing a counter down or pushing a node. -/
theorem move (I : Inv nodes E b) (remaining : Int) (old : b.stage u ≠ .idle)
    (old' : ∀ w rest, b.stage u ≠ .pushing w rest) (new : s ≠ .idle)
    (new' : ∀ w rest, s ≠ .pushing w rest) (hsuf : s.left E <:+ E)
    (howed : ∀ v, owed nodes.toFinset (fun x => (Function.update b.stage u s x).left E) v
      = owed nodes.toFinset (fun x => (b.stage x).left E) v)
    (hrem : remaining
      = (nodes.countP fun v => decide (Function.update b.stage u s v ≠ .done) : Nat)) :
    Inv nodes E { b with stage := Function.update b.stage u s, remaining := remaining } where
  seeds := I.seeds
  dep v hv := by rw [howed]; exact I.dep v hv
  suffix x := by
    by_cases hx : x = u
    · subst hx; simpa using hsuf
    · simpa [Function.update_of_ne hx] using I.suffix x
  moved x hx := by
    by_cases hxu : x = u
    · subst hxu; exact I.moved x old
    · exact I.moved x (by simpa [Function.update_of_ne hxu] using hx)
  movedSeed x hs hx := by
    by_cases hxu : x = u
    · subst hxu; exact I.movedSeed x hs old
    · exact I.movedSeed x hs (by simpa [Function.update_of_ne hxu] using hx)
  readyNodup := I.readyNodup
  ready x hx := by
    have hxu : x ≠ u := by rintro rfl; exact old (I.ready x hx).2.1
    simpa [Function.update_of_ne hxu] using I.ready x hx
  pushing a w rest h := by
    have hau : a ≠ u := by rintro rfl; exact new' w rest (by simpa using h)
    obtain ⟨h₁, h₂, h₃, h₄, h₅⟩ :=
      I.pushing a w rest (by simpa [Function.update_of_ne hau] using h)
    have hwu : w ≠ u := by rintro rfl; exact old h₂
    exact ⟨h₁, by simpa [Function.update_of_ne hwu] using h₂, h₃, h₄, h₅⟩
  pushingOnce a a' w rest rest' h h' := by
    have hau : a ≠ u := by rintro rfl; exact new' w rest (by simpa using h)
    have hau' : a' ≠ u := by rintro rfl; exact new' w rest' (by simpa using h')
    exact I.pushingOnce a a' w rest rest' (by simpa [Function.update_of_ne hau] using h)
      (by simpa [Function.update_of_ne hau'] using h')
  waiting x hx hi hd := by
    have hxu : x ≠ u := by rintro rfl; exact new (by simpa using hi)
    rcases I.waiting x hx (by simpa [Function.update_of_ne hxu] using hi) hd
      with h | ⟨a, rest, h⟩ | h
    · exact .inl h
    · have hau : a ≠ u := by rintro rfl; exact old' x rest h
      exact .inr (.inl ⟨a, rest, by simpa [Function.update_of_ne hau] using h⟩)
    · exact .inr (.inr h)
  remaining := hrem

theorem run (I : Inv nodes E b) (hv : b.stage v = .body) :
    Inv nodes E { b with stage := Function.update b.stage v (.releasing E) } := by
  refine I.move b.remaining (by simp [hv]) (by simp [hv]) (by simp) (by simp)
    (List.suffix_refl E) (fun x => owed_same_left (by simp [hv, Stage.left])) ?_
  rw [count_same (by simp [hv]) (by simp)]
  exact I.remaining

theorem skip (I : Inv nodes E b) (hu : b.stage u = .releasing ((x, w) :: rest))
    (hx : x ≠ u) : Inv nodes E { b with stage := Function.update b.stage u (.releasing rest) } := by
  have hleft : (b.stage u).left E = (x, w) :: rest := by simp [hu, Stage.left]
  refine I.move b.remaining (by simp [hu]) (by simp [hu]) (by simp) (by simp)
    ((List.suffix_cons _ rest).trans (hleft ▸ I.suffix u)) (fun y => ?_) ?_
  · rw [left_update]
    exact owed_skip hleft hx
  · rw [count_same (by simp [hu]) (by simp)]
    exact I.remaining

theorem finish (I : Inv nodes E b) (wf : WellFormed nodes E) (hu : b.stage u = .releasing []) :
    Inv nodes E
      { b with stage := Function.update b.stage u .done, remaining := b.remaining - 1 } := by
  have hleft : (Stage.done : Stage V).left E = (b.stage u).left E := by simp [hu, Stage.left]
  have hmem := (I.moved u (by simp [hu])).1
  refine I.move (b.remaining - 1) (by simp [hu]) (by simp [hu]) (by simp) (by simp)
    (List.nil_suffix) (fun x => owed_same_left hleft) ?_
  have h := I.remaining
  rw [count_finish wf.nodup hmem (by simp [hu])] at h
  push_cast at h
  omega

/-- An edge of one's own brings the counter at its far end down; at zero the node there is
about to be pushed. -/
theorem release (I : Inv nodes E b) (wf : WellFormed nodes E)
    (hu : b.stage u = .releasing ((u, w) :: rest)) :
    Inv nodes E
      { b with
        dep := Function.update b.dep w (b.dep w - 1)
        stage := Function.update b.stage u
          (if b.dep w = 1 then .pushing w rest else .releasing rest) } := by
  have hleft : (b.stage u).left E = (u, w) :: rest := by simp [hu, Stage.left]
  have hedge : (u, w) ∈ E := (hleft ▸ I.suffix u).subset List.mem_cons_self
  obtain ⟨hun, hwn⟩ := wf.edges _ hedge
  have huf : u ∈ nodes.toFinset := List.mem_toFinset.mpr hun
  set s : Stage V := if b.dep w = 1 then .pushing w rest else .releasing rest with hsdef
  have hsleft : s.left E = rest := by rw [hsdef]; split <;> rfl
  have hnew : s ≠ .idle := by rw [hsdef]; split <;> simp
  have hpos : b.dep w ≠ 0 := by
    rw [I.dep w hwn]
    exact_mod_cast (owed_pos huf (by simp only [hleft]; exact List.mem_cons_self)).ne'
  have hwidle : b.stage w = .idle := I.idle_of_dep_ne hpos
  have hwu : w ≠ u := by rintro rfl; rw [hu] at hwidle; cases hwidle
  have hwready : w ∉ b.ready := fun h => hpos (I.ready w h).2.2.1
  have hwpush : ∀ a r, b.stage a ≠ .pushing w r := fun a r h => hpos (I.pushing a w r h).2.2.1
  have hwsrc : ¬ Source E w := fun h => h u hedge
  have hdep0 : ∀ x, b.dep x = 0 → Function.update b.dep w (b.dep w - 1) x = 0 := by
    intro x hx
    have : x ≠ w := by rintro rfl; exact hpos hx
    rwa [Function.update_of_ne this]
  have hpush : ∀ x r, s = .pushing x r → x = w ∧ b.dep w = 1 := by
    intro x r h
    rw [hsdef] at h
    split at h
    · cases h; exact ⟨rfl, ‹_›⟩
    · cases h
  exact
    { seeds := I.seeds
      dep := by
        intro v hv
        have h := I.dep v hv
        have hr : owed nodes.toFinset (fun x => (b.stage x).left E) v = _ :=
          owed_release huf hleft
        rw [left_update, hsleft]
        by_cases hvw : v = w
        · subst hvw
          rw [if_pos rfl] at hr
          simp only [Function.update_self, h, hr]
          push_cast
          omega
        · rw [if_neg hvw] at hr
          simp only [Function.update_of_ne hvw, h, hr, Nat.add_zero]
      suffix := by
        intro x
        by_cases hx : x = u
        · subst hx
          have hsuf := (List.suffix_cons _ rest).trans (hleft ▸ I.suffix x)
          simpa [hsleft] using hsuf
        · simpa [Function.update_of_ne hx] using I.suffix x
      moved := by
        intro x hx
        by_cases hxu : x = u
        · subst hxu
          exact ⟨hun, hdep0 x (I.moved x (by simp [hu])).2⟩
        · obtain ⟨h₁, h₂⟩ := I.moved x (by simpa [Function.update_of_ne hxu] using hx)
          exact ⟨h₁, hdep0 x h₂⟩
      movedSeed := by
        intro x hs hx
        by_cases hxu : x = u
        · subst hxu; exact I.movedSeed x hs (by simp [hu])
        · exact I.movedSeed x hs (by simpa [Function.update_of_ne hxu] using hx)
      readyNodup := I.readyNodup
      ready := by
        intro x hx
        obtain ⟨h₁, h₂, h₃, h₄⟩ := I.ready x hx
        have hxu : x ≠ u := by rintro rfl; rw [hu] at h₂; cases h₂
        exact ⟨h₁, by simpa [Function.update_of_ne hxu] using h₂, hdep0 x h₃, h₄⟩
      pushing := by
        intro a x r h
        by_cases hau : a = u
        · subst hau
          obtain ⟨rfl, h1⟩ := hpush x r (by simpa using h)
          exact ⟨hwn, by simpa [Function.update_of_ne hwu] using hwidle, by simp [h1],
            hwready, hwsrc⟩
        · obtain ⟨h₁, h₂, h₃, h₄, h₅⟩ :=
            I.pushing a x r (by simpa [Function.update_of_ne hau] using h)
          have hxu : x ≠ u := by rintro rfl; rw [hu] at h₂; cases h₂
          exact ⟨h₁, by simpa [Function.update_of_ne hxu] using h₂, hdep0 x h₃, h₄, h₅⟩
      pushingOnce := by
        intro a a' x r r' h h'
        by_cases hau : a = u
        · subst hau
          obtain ⟨rfl, -⟩ := hpush x r (by simpa using h)
          by_contra hne
          exact hwpush a' r' (by simpa [Function.update_of_ne (Ne.symm hne)] using h')
        · by_cases hau' : a' = u
          · subst hau'
            obtain ⟨rfl, -⟩ := hpush x r' (by simpa using h')
            exact absurd (by simpa [Function.update_of_ne hau] using h) (hwpush a r)
          · exact I.pushingOnce a a' x r r' (by simpa [Function.update_of_ne hau] using h)
              (by simpa [Function.update_of_ne hau'] using h')
      waiting := by
        intro x hx hi hd
        have hxu : x ≠ u := by rintro rfl; exact hnew (by simpa using hi)
        by_cases hxw : x = w
        · subst hxw
          have h1 : b.dep x = 1 := by
            have : b.dep x - 1 = 0 := by simpa using hd
            omega
          exact .inr (.inl ⟨u, rest, by simp [hsdef, h1]⟩)
        · rcases I.waiting x hx (by simpa [Function.update_of_ne hxu] using hi)
            (by simpa [Function.update_of_ne hxw] using hd) with h | ⟨a, r, h⟩ | h
          · exact .inl h
          · have hau : a ≠ u := by rintro rfl; rw [hu] at h; cases h
            exact .inr (.inl ⟨a, r, by simpa [Function.update_of_ne hau] using h⟩)
          · exact .inr (.inr h)
      remaining := by
        rw [count_same (by simp [hu]) (by rw [hsdef]; split <;> simp)]
        exact I.remaining }

theorem push (I : Inv nodes E b) (hu : b.stage u = .pushing w rest) :
    Inv nodes E
      { b with
        ready := b.ready ++ [w]
        stage := Function.update b.stage u (.releasing rest) } := by
  obtain ⟨hwn, hwidle, hw0, hwready, hwsrc⟩ := I.pushing u w rest hu
  have hwu : w ≠ u := by rintro rfl; rw [hu] at hwidle; cases hwidle
  have hleft : (Stage.releasing rest).left E = (b.stage u).left E := by simp [hu, Stage.left]
  exact
    { seeds := I.seeds
      dep := fun x hx => by rw [owed_same_left hleft]; exact I.dep x hx
      suffix := by
        intro x
        by_cases hx : x = u
        · subst hx; simpa [hu, Stage.left] using I.suffix x
        · simpa [Function.update_of_ne hx] using I.suffix x
      moved := by
        intro x hx
        by_cases hxu : x = u
        · subst hxu; exact I.moved x (by simp [hu])
        · exact I.moved x (by simpa [Function.update_of_ne hxu] using hx)
      movedSeed := by
        intro x hs hx
        by_cases hxu : x = u
        · subst hxu; exact I.movedSeed x hs (by simp [hu])
        · exact I.movedSeed x hs (by simpa [Function.update_of_ne hxu] using hx)
      readyNodup := by
        refine List.nodup_append.mpr ⟨I.readyNodup, List.nodup_singleton w, ?_⟩
        rintro a ha c hc rfl
        exact hwready (List.mem_singleton.mp hc ▸ ha)
      ready := by
        intro x hx
        have hready : x ∈ nodes ∧ b.stage x = .idle ∧ b.dep x = 0 ∧
            (x ∈ b.seeds → ¬ Source E x) := by
          rcases List.mem_append.mp hx with hx | hx
          · exact I.ready x hx
          · obtain rfl := List.mem_singleton.mp hx
            exact ⟨hwn, hwidle, hw0, fun _ => hwsrc⟩
        have hxu : x ≠ u := by rintro rfl; rw [hu] at hready; cases hready.2.1
        simpa [Function.update_of_ne hxu] using hready
      pushing := by
        intro a x r h
        have hau : a ≠ u := by rintro rfl; simp at h
        have old : b.stage a = .pushing x r := by simpa [Function.update_of_ne hau] using h
        obtain ⟨h₁, h₂, h₃, h₄, h₅⟩ := I.pushing a x r old
        have hxu : x ≠ u := by rintro rfl; rw [hu] at h₂; cases h₂
        refine ⟨h₁, by simpa [Function.update_of_ne hxu] using h₂, h₃, fun hm => ?_, h₅⟩
        rcases List.mem_append.mp hm with hm | hm
        · exact h₄ hm
        · obtain rfl := List.mem_singleton.mp hm
          exact hau (I.pushingOnce a u x r rest old hu)
      pushingOnce := by
        intro a a' x r r' h h'
        have hau : a ≠ u := by rintro rfl; simp at h
        have hau' : a' ≠ u := by rintro rfl; simp at h'
        exact I.pushingOnce a a' x r r' (by simpa [Function.update_of_ne hau] using h)
          (by simpa [Function.update_of_ne hau'] using h')
      waiting := by
        intro x hx hi hd
        have hxu : x ≠ u := by rintro rfl; simp at hi
        rcases I.waiting x hx (by simpa [Function.update_of_ne hxu] using hi) hd
          with h | ⟨a, r, h⟩ | h
        · exact .inl (List.mem_append_left _ h)
        · by_cases hau : a = u
          · subst hau
            obtain ⟨rfl, -⟩ : w = x ∧ rest = r := by simpa [hu] using h
            exact .inl (List.mem_append_right _ List.mem_cons_self)
          · exact .inr (.inl ⟨a, r, by simpa [Function.update_of_ne hau] using h⟩)
        · exact .inr (.inr h)
      remaining := by
        rw [count_same (by simp [hu]) (by simp)]
        exact I.remaining }

end Inv

/-! ### What the invariant gives -/

namespace Inv

variable {nodes : List V} {E : List (V × V)} {b b' : Board V} {u v : V}

/-- Every descendant of a node that has not been popped still owes an edge. -/
theorem dep_ne_of_idle_ancestor (I : Inv nodes E b) (wf : WellFormed nodes E)
    (hu : b.stage u = .idle) (h : Relation.TransGen (Feeds E) u v) : b.dep v ≠ 0 := by
  have owes : ∀ {x y}, b.stage x = .idle → Feeds E x y → b.dep y ≠ 0 := by
    intro x y hx hxy h0
    have hrun := I.preds_have_run wf (wf.edges _ hxy).2 h0 hxy
    rw [hx] at hrun
    exact hrun
  induction h with
  | single h => exact owes hu h
  | tail _ h ih => exact owes (I.idle_of_dep_ne ih) h

/-- In a race-free seeding order, a node the seeding party finds at zero is a source. -/
theorem source_of_seed (I : Inv nodes E b) (wf : WellFormed nodes E) (rf : RaceFree nodes E)
    {rest : List V} (hs : b.seeds = v :: rest) (h0 : b.dep v = 0) : Source E v := by
  by_contra hsrc
  obtain ⟨l, hl⟩ := I.seeds
  have hpred : ∃ u, (u, v) ∈ E := by simpa [Source] using hsrc
  obtain ⟨u, hu, husrc, huv⟩ := rf l v rest (by rw [← hl, hs]) hpred
  have hidle : b.stage u = .idle := by
    by_contra h
    exact I.movedSeed u (hs ▸ List.mem_cons_of_mem v hu) h husrc
  exact I.dep_ne_of_idle_ancestor wf hidle huv h0

/-- **Every step of a race-free board keeps the invariant.** -/
theorem step (I : Inv nodes E b) (wf : WellFormed nodes E) (rf : RaceFree nodes E)
    (h : Step E b b') : Inv nodes E b' := by
  cases h with
  | seedReady hs h0 => exact I.seedReady wf hs h0 (I.source_of_seed wf rf hs h0)
  | seedBlocked hs h0 => exact I.seedBlocked hs h0
  | pop hq => exact I.pop hq
  | run hv => exact I.run hv
  | skip hu hx => exact I.skip hu hx
  | release hu => exact I.release wf hu
  | push hu => exact I.push hu
  | finish hu => exact I.finish wf hu

/-- **A board that is not done is not stuck**: some node is at work, or in the queue, or still
to be seeded. -/
theorem not_stuck (I : Inv nodes E b) (wf : WellFormed nodes E) (acyclic : Acyclic E)
    (h : 0 < b.remaining) :
    (∃ v, b.stage v ≠ .idle ∧ b.stage v ≠ .done) ∨ b.ready ≠ [] ∨ b.seeds ≠ [] := by
  by_contra hno
  obtain ⟨hwork, hready, hseeds⟩ :
      (∀ v, b.stage v = .idle ∨ b.stage v = .done) ∧ b.ready = [] ∧ b.seeds = [] := by
    refine ⟨fun v => ?_, ?_, ?_⟩
    · by_contra hv
      exact hno (.inl ⟨v, fun h => hv (.inl h), fun h => hv (.inr h)⟩)
    · by_contra hr
      exact hno (.inr (.inl hr))
    · by_contra hs
      exact hno (.inr (.inr hs))
  -- the nodes not done are all owed an edge by one another
  let S : Finset V := nodes.toFinset.filter fun v => b.stage v = .idle
  have hne : S.Nonempty := by
    rw [I.remaining] at h
    obtain ⟨v, hv, hnd⟩ := List.countP_pos_iff.mp (Int.natCast_pos.mp h)
    have : b.stage v = .idle := (hwork v).resolve_right (by simpa using hnd)
    exact ⟨v, by simp [S, hv, this]⟩
  refine acyclic.no_closed_set S hne fun v hv => ?_
  obtain ⟨hvn, hvi⟩ : v ∈ nodes ∧ b.stage v = .idle := by simpa [S] using hv
  have hdep : b.dep v ≠ 0 := by
    intro h0
    rcases I.waiting v hvn hvi h0 with hr | ⟨u, rest, hu⟩ | ⟨hs, -⟩
    · exact absurd (hready ▸ hr) List.not_mem_nil
    · rcases hwork u with h' | h' <;> simp [h'] at hu
    · exact absurd (hseeds ▸ hs) List.not_mem_nil
  have hpos : 0 < owed nodes.toFinset (fun u => (b.stage u).left E) v := by
    have hd := I.dep v hvn
    by_contra hz
    exact hdep (by rw [hd]; exact_mod_cast Nat.eq_zero_of_not_pos hz)
  obtain ⟨u, hu, huv⟩ := exists_of_owed_pos hpos
  have hui : b.stage u = .idle := by
    rcases hwork u with h' | h'
    · exact h'
    · simp [h', Stage.left] at huv
  have huv : (u, v) ∈ E := by simpa [hui, Stage.left] using huv
  exact ⟨u, by simp [S, (wf.edges _ huv).1, hui], huv⟩

theorem remaining_nonneg (I : Inv nodes E b) : 0 ≤ b.remaining := by
  rw [I.remaining]
  exact Int.natCast_nonneg _

/-- When the count of what remains has come down to zero every node is done. -/
theorem done_of_remaining (I : Inv nodes E b) (h : b.remaining ≤ 0) (hv : v ∈ nodes) :
    b.stage v = .done := by
  have hz : (nodes.countP fun v => decide (b.stage v ≠ .done)) = 0 := by
    have hr := I.remaining
    omega
  simpa using List.countP_eq_zero.mp hz v hv

/-- ... no node is in the queue, at work or still to be seeded. -/
theorem quiet_of_remaining (I : Inv nodes E b) (h : b.remaining ≤ 0) :
    b.ready = [] ∧ ∀ v, b.stage v = .idle ∨ b.stage v = .done := by
  refine ⟨List.eq_nil_iff_forall_not_mem.mpr fun v hv => ?_, fun v => ?_⟩
  · obtain ⟨hn, hi, -⟩ := I.ready v hv
    rw [I.done_of_remaining h hn] at hi
    cases hi
  · by_cases hi : b.stage v = .idle
    · exact .inl hi
    · exact .inr (I.done_of_remaining h (I.moved v hi).1)

/-- The queue never holds more than there are nodes. -/
theorem ready_length_le (I : Inv nodes E b) : b.ready.length ≤ nodes.length :=
  (I.readyNodup.subperm fun v hv => (I.ready v hv).1).length_le

/-- A push finds a queue with room for one node more among `nodes.length`. -/
theorem ready_length_lt (I : Inv nodes E b) (hv : v ∈ nodes) (hout : v ∉ b.ready) :
    b.ready.length < nodes.length := by
  have hsub : (v :: b.ready).Subperm nodes :=
    (List.nodup_cons.mpr ⟨hout, I.readyNodup⟩).subperm fun x hx => by
      rcases List.mem_cons.mp hx with rfl | hx
      · exact hv
      · exact (I.ready x hx).1
  exact hsub.length_le

end Inv

end Xrune.Countdown
