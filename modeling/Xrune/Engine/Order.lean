import Xrune.Support.Countdown
import Xrune.Support.Kahn
import Xrune.Engine.Slots

/-!
# Engine — the routing graph and the execution order

The live routes between instances are the edges of a multigraph on the active slots.  Both
executors count a slot's incoming edges, the parallel one into `dep` and the sequential one
into `indeg_scratch`; `compute_order` is Kahn's algorithm on this graph, so that in an acyclic
one its order holds every active slot once, each after the slots that feed it.  In any graph it
holds every active slot once, and those that no cycle is upstream of stand after all the slots
upstream of them (`compute_order_complete`).
-/

namespace Xrune

variable {α : Type}

namespace Engine

/-- The edges among these routes. -/
def edgesOf (e : Engine α) (rs : List ActiveRoute) : List (Nat × Nat) :=
  (rs.filter e.feeds).map fun r => (r.srcSlot, r.dstSlot)

/-- The edges of the routing graph. -/
def edges (e : Engine α) : List (Nat × Nat) := e.edgesOf e.routes

@[simp] theorem edgesOf_nil (e : Engine α) : e.edgesOf [] = [] := rfl

theorem edgesOf_cons (e : Engine α) (r : ActiveRoute) (rs : List ActiveRoute) :
    e.edgesOf (r :: rs)
      = if e.feeds r then (r.srcSlot, r.dstSlot) :: e.edgesOf rs else e.edgesOf rs := by
  by_cases h : e.feeds r = true <;> simp [edgesOf, h]

theorem mem_edges {e : Engine α} {u v : Nat} :
    (u, v) ∈ e.edges ↔ ∃ r ∈ e.routes, e.feeds r = true ∧ r.srcSlot = u ∧ r.dstSlot = v := by
  simp [edges, edgesOf, and_assoc]

/-- A loop over the routes that looks at the edges only is a loop over the edges. -/
theorem foldl_edgesOf {β : Type} (e : Engine α) (f : β → Nat × Nat → β) (g : β → ActiveRoute → β)
    (h : ∀ b r, g b r = if e.feeds r then f b (r.srcSlot, r.dstSlot) else b)
    (rs : List ActiveRoute) (b : β) : rs.foldl g b = (e.edgesOf rs).foldl f b := by
  induction rs generalizing b with
  | nil => rfl
  | cons r rs ih =>
      rw [List.foldl_cons, ih, h, edgesOf_cons]
      split <;> rfl

/-- The routing graph of slots kept in order is on the active slots. -/
theorem wellFormed (e : Engine α) (I : SlotInv e.tables) :
    Countdown.WellFormed e.activeList e.edges where
  nodup := I.active_nodup
  edges := by
    rintro ⟨u, v⟩ huv
    obtain ⟨r, hr, hfeeds, rfl, rfl⟩ := mem_edges.mp huv
    have hm : r.toMaster = false := by
      simp only [feeds, Bool.and_eq_true, Bool.not_eq_true'] at hfeeds
      exact hfeeds.1
    obtain ⟨hsrc, hdst⟩ := I.routes r hr
    exact ⟨hsrc.1, (hdst hm).1⟩

/-- The routing graph and the slots it is on are the same. -/
structure SameGraph (e e' : Engine α) : Prop where
  capacity : e'.mgr.capacity = e.mgr.capacity
  activeGen : e'.activeGen = e.activeGen
  activeList : e'.activeList = e.activeList
  routes : e'.routes = e.routes

namespace SameGraph

variable {e e' : Engine α}

theorem of_tables (h : e'.tables = e.tables) : SameGraph e e' where
  capacity := congrArg (fun T => T.pool.capacity) h
  activeGen := congrArg Tables.activeGen h
  activeList := congrArg Tables.activeList h
  routes := congrArg Tables.routes h

theorem routeLive (G : SameGraph e e') (r : ActiveRoute) : e'.routeLive r = e.routeLive r := by
  simp only [Engine.routeLive, G.capacity, G.activeGen]

theorem feeds (G : SameGraph e e') : e'.feeds = e.feeds := by
  funext r
  simp only [Engine.feeds, G.routeLive]

theorem edgesOf (G : SameGraph e e') : e'.edgesOf = e.edgesOf := by
  funext rs
  simp only [Engine.edgesOf, G.feeds]

theorem edges (G : SameGraph e e') : e'.edges = e.edges := by
  rw [Engine.edges, Engine.edges, G.edgesOf, G.routes]

end SameGraph

/-! ### In-degrees -/

theorem foldl_zero (l : List Nat) (d : Nat → Int) (v : Nat) :
    (l.foldl (fun d slot => Function.update d slot 0) d) v = if v ∈ l then 0 else d v := by
  induction l generalizing d with
  | nil => simp
  | cons x l ih =>
      rw [List.foldl_cons, ih]
      by_cases hv : v ∈ l
      · simp [hv]
      · by_cases hx : v = x
        · subst hx; simp [hv]
        · simp [hv, hx]

/-- Both executors count a slot's incoming edges. -/
theorem inDegrees_eq (e : Engine α) (d : Nat → Int) {v : Nat} (hv : v ∈ e.activeList) :
    e.inDegrees d v = (e.edges.countP fun e => e.2 = v : Nat) := by
  unfold inDegrees
  rw [foldl_edgesOf e (fun d e => Function.update d e.2 (d e.2 + 1)) _ (fun d r => rfl),
    foldl_count, foldl_zero, if_pos hv, zero_add]
  rfl

/-! ### The order -/

theorem foldl_orderRoutes (e : Engine α) (u : Nat) (rs : List ActiveRoute)
    (acc : List Nat × (Nat → Int)) :
    rs.foldl (e.orderRoute u) acc = (e.edgesOf rs).foldl (Kahn.edge u) acc := by
  refine foldl_edgesOf e (Kahn.edge u) _ (fun acc r => ?_) rs acc
  unfold orderRoute feeds Kahn.edge
  cases hm : r.toMaster
  · cases hl : e.routeLive r
    · simp
    · by_cases hu : r.srcSlot = u <;> simp [hu]
  · simp

theorem foldl_orderRoute (e : Engine α) (u : Nat) (acc : List Nat × (Nat → Int)) :
    e.routes.foldl (e.orderRoute u) acc = e.edges.foldl (Kahn.edge u) acc :=
  e.foldl_orderRoutes u e.routes acc

theorem orderLoop_eq (e : Engine α) (fuel head : Nat) (acc : List Nat × (Nat → Int)) :
    e.orderLoop fuel head acc = Kahn.loop e.edges fuel head acc := by
  induction fuel generalizing head acc with
  | zero => rfl
  | succ fuel ih =>
      rw [orderLoop, Kahn.loop]
      cases acc.1[head]? with
      | none => rfl
      | some u => exact (ih (head + 1) _).trans (by rw [foldl_orderRoute])

/-- An order to execute the active slots in: each once, after the slots that feed it. -/
structure IsOrder (e : Engine α) (l : List Nat) : Prop where
  nodup : l.Nodup
  mem : ∀ v, v ∈ l ↔ v ∈ e.activeList
  preds : ∀ l₁ v l₂, l = l₁ ++ v :: l₂ → ∀ u, (u, v) ∈ e.edges → u ∈ l₁

/-- The order and the counters `compute_order`'s loop ends with. -/
def orderDone (e : Engine α) : List Nat × (Nat → Int) :=
  let indeg := e.inDegrees e.indegScratch
  e.orderLoop (e.activeList.length + e.routes.length) 0
    (e.activeList.filter fun slot => indeg slot == 0, indeg)

/-- The counters and the slots that nothing feeds, before the loop. -/
theorem orderStart_inv (e : Engine α) (wf : Countdown.WellFormed e.activeList e.edges) :
    let indeg := e.inDegrees e.indegScratch
    let seeds := e.activeList.filter fun slot => indeg slot == 0
    Kahn.Inv e.activeList e.edges (Kahn.Inv.leftAt e.edges (seeds, indeg) 0) (seeds, indeg) := by
  intro indeg seeds
  have h := Kahn.Inv.start wf.nodup (fun x hx => (wf.edges x hx).1)
    fun v hv => e.inDegrees_eq e.indegScratch hv
  have hleft : (fun _ => e.edges) = Kahn.Inv.leftAt e.edges (seeds, indeg) 0 := by
    funext u
    simp [Kahn.Inv.leftAt]
  exact hleft ▸ h

theorem orderDone_inv (e : Engine α) (wf : Countdown.WellFormed e.activeList e.edges) :
    Kahn.Inv e.activeList e.edges
      (Kahn.Inv.leftAt e.edges e.orderDone e.orderDone.1.length) e.orderDone := by
  have done := Kahn.Inv.loop wf.edges (e.activeList.length + e.routes.length) 0
    (e.orderStart_inv wf) (by omega) (Nat.zero_le _)
  rw [← orderLoop_eq] at done
  exact done

/-- **`compute_order` is an order**, when the routing graph is acyclic. -/
theorem computeOrder_isOrder (e : Engine α) (wf : Countdown.WellFormed e.activeList e.edges)
    (acyclic : Acyclic e.edges) : e.IsOrder e.computeOrder.1 := by
  have done := e.orderDone_inv wf
  have hmem := fun v hv => done.mem_of_acyclic wf.edges acyclic (v := v) hv
  have horder : e.computeOrder = e.orderDone :=
    if_neg (not_lt.mpr (wf.nodup.subperm hmem).length_le)
  rw [horder]
  exact ⟨done.nodup, fun v => ⟨fun h => ((done.mem v).mp h).1, hmem v⟩, done.preds⟩

/-- **The sequential execution runs each active slot once**, whatever the routing graph: what a
cycle leaves out of the order is appended. -/
theorem computeOrder_perm (e : Engine α) (wf : Countdown.WellFormed e.activeList e.edges) :
    e.computeOrder.1.Perm e.activeList := by
  have done := e.orderDone_inv wf
  have sub : e.orderDone.1 ⊆ e.activeList := fun v hv => ((done.mem v).mp hv).1
  have horder : e.computeOrder = if e.orderDone.1.length < e.activeList.length then
      (e.orderDone.1 ++ e.activeList.filter fun slot => decide (0 < e.orderDone.2 slot),
        e.orderDone.2)
    else e.orderDone := rfl
  rw [horder]
  split_ifs with short
  · refine (List.perm_ext_iff_of_nodup ?_ wf.nodup).mpr fun v => ?_
    · refine done.nodup.append (wf.nodup.filter _) fun v hv hout => ?_
      obtain ⟨hact, pos⟩ := List.mem_filter.mp hout
      exact (done.not_mem_iff hact).mpr (of_decide_eq_true pos) hv
    · rw [List.mem_append, List.mem_filter, decide_eq_true_eq]
      constructor
      · rintro (hv | ⟨hv, -⟩)
        · exact sub hv
        · exact hv
      · intro hv
        by_cases hout : v ∈ e.orderDone.1
        · exact .inl hout
        · exact .inr ⟨hv, (done.not_mem_iff hv).mp hout⟩
  · exact (done.nodup.subperm sub).perm_of_length_le (not_lt.mp short)

/-! ### The counters on the way -/

/-- The turns of `compute_order`'s outer loop: its states after each route. -/
def orderTrace (e : Engine α) : Nat → Nat → List Nat × (Nat → Int) →
    List (List Nat × (Nat → Int))
  | 0, _, acc => [acc]
  | fuel + 1, head, acc =>
      match acc.1[head]? with
      | none   => [acc]
      | some u => (e.routes.inits.map fun rs => rs.foldl (e.orderRoute u) acc)
          ++ e.orderTrace fuel (head + 1) (e.routes.foldl (e.orderRoute u) acc)

/-- The values of `indeg_scratch` in `compute_order`, from the point where the active slots' are
set to 0: after each route is counted, and after each route of each turn. -/
def counterTrace (e : Engine α) : List (Nat → Int) :=
  let zero := e.activeList.foldl (fun d slot => Function.update d slot 0) e.indegScratch
  let count (d : Nat → Int) (r : ActiveRoute) : Nat → Int :=
    if e.feeds r then Function.update d r.dstSlot (d r.dstSlot + 1) else d
  let indeg := e.inDegrees e.indegScratch
  (e.routes.inits.map fun rs => rs.foldl count zero) ++
    (e.orderTrace (e.activeList.length + e.routes.length) 0
      (e.activeList.filter fun slot => indeg slot == 0, indeg)).map Prod.snd

/-- The trace ends with the state the loop ends with. -/
theorem orderTrace_last (e : Engine α) (fuel head : Nat) (acc : List Nat × (Nat → Int)) :
    (e.orderTrace fuel head acc).getLast? = some (e.orderLoop fuel head acc) := by
  induction fuel generalizing head acc with
  | zero => rfl
  | succ fuel ih =>
      rw [orderTrace, orderLoop]
      cases acc.1[head]? with
      | none => rfl
      | some u =>
          dsimp only
          rw [List.getLast?_append, ih]
          rfl

/-- ... and the counters with what `compute_order` leaves in `indeg_scratch`. -/
theorem counterTrace_last (e : Engine α) : e.counterTrace.getLast? = some e.computeOrder.2 := by
  have left : e.computeOrder.2 = e.orderDone.2 := by
    have order : e.computeOrder = if e.orderDone.1.length < e.activeList.length then
        (e.orderDone.1 ++ e.activeList.filter fun slot => decide (0 < e.orderDone.2 slot),
          e.orderDone.2)
      else e.orderDone := rfl
    rw [order]
    split <;> rfl
  rw [left, counterTrace, List.getLast?_append, List.getLast?_map, orderTrace_last]
  rfl

/-- A loop over some of the routes is a loop over some of the edges. -/
theorem edgesOf_initial (e : Engine α) {rs : List ActiveRoute} (h : rs <+: e.routes) :
    e.edgesOf rs <+: e.edges :=
  (h.filter _).map _

theorem orderTrace_sub (e : Engine α) (fuel head : Nat) (acc : List Nat × (Nat → Int)) :
    ∀ acc' ∈ e.orderTrace fuel head acc, acc' ∈ Kahn.trace e.edges fuel head acc := by
  induction fuel generalizing head acc with
  | zero => exact fun _ h => h
  | succ fuel ih =>
      intro acc' h
      rw [orderTrace] at h
      rw [Kahn.trace]
      cases hu : acc.1[head]? with
      | none =>
          rw [hu] at h
          exact h
      | some u =>
          rw [hu] at h
          rcases List.mem_append.mp h with h | h
          · obtain ⟨rs, hrs, rfl⟩ := List.mem_map.mp h
            refine List.mem_append_left _ (List.mem_map.mpr ⟨e.edgesOf rs, ?_, ?_⟩)
            · exact (List.mem_inits _ _).mpr (e.edgesOf_initial ((List.mem_inits _ _).mp hrs))
            · exact (e.foldl_orderRoutes u rs acc).symm
          · rw [foldl_orderRoute] at h
            exact List.mem_append_right _ (ih (head + 1) _ acc' h)

/-- After some of the routes are counted. -/
theorem foldl_countRoute (e : Engine α) (rs : List ActiveRoute) (v : Nat) :
    rs.foldl (fun d r =>
        if e.feeds r then Function.update d r.dstSlot (d r.dstSlot + 1) else d)
      (e.activeList.foldl (fun d slot => Function.update d slot 0) e.indegScratch) v
      = (if v ∈ e.activeList then 0 else e.indegScratch v)
        + ((e.edgesOf rs).countP fun x => x.2 = v : Nat) := by
  rw [foldl_edgesOf e (fun d x => Function.update d x.2 (d x.2 + 1)) _ (fun d r => rfl),
    foldl_count, foldl_zero]

theorem source_of_not_active {e : Engine α} (wf : Countdown.WellFormed e.activeList e.edges)
    {v : Nat} (out : v ∉ e.activeList) : Source e.edges v :=
  fun u huv => out (wf.edges (u, v) huv).2

/-- **No counter goes negative**: the active slots' stay at 0 or above, the others' are left. -/
theorem counters_nonneg (e : Engine α) (wf : Countdown.WellFormed e.activeList e.edges) :
    ∀ d ∈ e.counterTrace, ∀ v,
      (v ∈ e.activeList → 0 ≤ d v) ∧ (v ∉ e.activeList → d v = e.indegScratch v) := by
  have counted : ∀ rs : List ActiveRoute, rs <+: e.routes → ∀ v,
      (v ∈ e.activeList → (0 : Int) ≤ (if v ∈ e.activeList then 0 else e.indegScratch v)
        + ((e.edgesOf rs).countP fun x => x.2 = v : Nat)) ∧
      (v ∉ e.activeList → (if v ∈ e.activeList then 0 else e.indegScratch v)
        + ((e.edgesOf rs).countP fun x => x.2 = v : Nat) = e.indegScratch v) := by
    intro rs hrs v
    refine ⟨fun hv => by rw [if_pos hv]; omega, fun hv => ?_⟩
    have none : ((e.edgesOf rs).countP fun x => x.2 = v) = 0 :=
      List.countP_eq_zero.mpr fun x hx same => source_of_not_active wf hv x.1
        (of_decide_eq_true same ▸ (e.edgesOf_initial hrs).subset hx)
    rw [if_neg hv, none, Nat.cast_zero, add_zero]
  intro d hd v
  rcases List.mem_append.mp hd with hd | hd
  · obtain ⟨rs, hrs, rfl⟩ := List.mem_map.mp hd
    rw [foldl_countRoute]
    exact counted rs ((List.mem_inits _ _).mp hrs) v
  · obtain ⟨acc, hacc, rfl⟩ := List.mem_map.mp hd
    have visited := e.orderTrace_sub _ _ _ acc hacc
    obtain ⟨left, I⟩ := (e.orderStart_inv wf).trace wf.edges _ _ acc visited
    refine ⟨fun hv => by rw [I.dep v hv]; exact Int.natCast_nonneg _, fun hv => ?_⟩
    rw [Kahn.trace_source (source_of_not_active wf hv) _ _ _ acc visited]
    exact (e.foldl_countRoute e.routes v).trans ((counted _ (List.prefix_refl _) v).2 hv)

/-- A slot that no cycle is upstream of comes after all the slots upstream of it. -/
theorem computeOrder_upstream (e : Engine α) (wf : Countdown.WellFormed e.activeList e.edges)
    {l₁ l₂ : List Nat} {v : Nat} (place : e.computeOrder.1 = l₁ ++ v :: l₂)
    (off : ¬ DownstreamOfCycle e.edges v) {u : Nat}
    (up : Relation.TransGen (Feeds e.edges) u v) : u ∈ l₁ := by
  have done := e.orderDone_inv wf
  have perm := e.computeOrder_perm wf
  have hv : v ∈ e.activeList := perm.mem_iff.mp (place ▸ by simp)
  obtain ⟨m₁, m₂, split⟩ := List.append_of_mem (done.mem_of_not_downstream wf.edges off hv)
  have initial : e.orderDone.1 <+: e.computeOrder.1 := by
    have order : e.computeOrder = if e.orderDone.1.length < e.activeList.length then
        (e.orderDone.1 ++ e.activeList.filter fun slot => decide (0 < e.orderDone.2 slot),
          e.orderDone.2)
      else e.orderDone := rfl
    rw [order]
    split
    · exact List.prefix_append _ _
    · exact List.prefix_refl _
  obtain ⟨more, whole⟩ := initial
  have same : l₁ ++ v :: l₂ = m₁ ++ v :: (m₂ ++ more) := by
    rw [← place, ← whole, split, List.append_assoc, List.cons_append]
  have nodup : (l₁ ++ v :: l₂).Nodup := place ▸ perm.nodup_iff.mpr wf.nodup
  have once : v ∉ m₁ ++ (m₂ ++ more) := (List.nodup_cons.mp (List.nodup_middle.mp (same ▸ nodup))).1
  rw [List.mem_append, not_or] at once
  rw [← ((List.append_cons_inj_of_notMem once.1 once.2).mp same.symm).1]
  exact done.upstream up split

/-- **`compute_order` orders any routing graph**: the active slots, each once; a slot that no
cycle is upstream of after all the slots upstream of it; and on the way no counter goes
negative. -/
theorem compute_order_complete (e : Engine α) (nodup : e.activeList.Nodup)
    (live : ∀ r ∈ e.routes, e.feeds r = true →
      r.srcSlot ∈ e.activeList ∧ r.dstSlot ∈ e.activeList) :
    e.computeOrder.1.Perm e.activeList ∧
    (∀ l₁ v l₂, e.computeOrder.1 = l₁ ++ v :: l₂ → ¬ DownstreamOfCycle e.edges v →
      ∀ u, Relation.TransGen (Feeds e.edges) u v → u ∈ l₁) ∧
    ∀ d ∈ e.counterTrace, ∀ v,
      (v ∈ e.activeList → 0 ≤ d v) ∧ (v ∉ e.activeList → d v = e.indegScratch v) := by
  have wf : Countdown.WellFormed e.activeList e.edges := by
    refine ⟨nodup, ?_⟩
    rintro ⟨u, v⟩ huv
    obtain ⟨r, hr, hfeeds, rfl, rfl⟩ := mem_edges.mp huv
    exact live r hr hfeeds
  exact ⟨e.computeOrder_perm wf, fun _ _ _ place off _ => e.computeOrder_upstream wf place off,
    e.counters_nonneg wf⟩

end Engine

/-- Slot 0 feeds slot 1 twice, and slot 2 itself. -/
def selfFed : Engine ℚ :=
  { (Engine.init ⟨48000, 1, 1, 3, 0, by decide⟩).get rfl with
    activeGen := fun _ => 1
    activeList := [1, 0, 2]
    routes := [⟨0, 1, 0, false, 1, 1, 0⟩, ⟨0, 1, 1, false, 1, 1, 0⟩, ⟨2, 1, 0, false, 2, 1, 0⟩] }

theorem compute_order_complete_selfFed :
    selfFed.computeOrder.1.Perm [1, 0, 2] ∧
    (∀ l₁ v l₂, selfFed.computeOrder.1 = l₁ ++ v :: l₂ → ¬ DownstreamOfCycle selfFed.edges v →
      ∀ u, Relation.TransGen (Feeds selfFed.edges) u v → u ∈ l₁) ∧
    ∀ d ∈ selfFed.counterTrace, ∀ v,
      (v ∈ [1, 0, 2] → 0 ≤ d v) ∧ (v ∉ [1, 0, 2] → d v = selfFed.indegScratch v) :=
  selfFed.compute_order_complete (by decide) (by decide)

example : selfFed.computeOrder.1 = [0, 1, 2] := by decide

end Xrune
