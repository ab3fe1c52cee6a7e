import Xrune.Support.Footprint
import Xrune.Lang.Registry
import Xrune.Schedule.Wiring

/-!
# Schedule — any order

A cycle executes the nodes of an instance in the topological order `compile` found.  Any other
order in which each node comes after the nodes that feed it leaves the same instance.

The cells of an instance are its state blocks, the samples of its buffer pool and its control
slots.  The layout gives each node cells of its own (`disjoint_owns`); executing a node writes
those alone and reads, beside them, the buffers of the nodes that feed it (`footprint_runNode`).
-/

namespace Xrune

variable {α : Type}

/-! ### What a node reads of a port -/

/-- A port's view, cut to `n` samples. -/
def ParamView.clip (p : ParamView α) (n : Nat) : ParamView α :=
  { p with buffer := p.buffer.map (·.take n) }

def ProcessingContext.clip (ctx : ProcessingContext α) (n : Nat) : ProcessingContext α :=
  { ctx with params := ctx.params.map (·.clip n) }

/-- The samples of an input view of a call: `silent_in`. -/
def Node.inputSamples (nd : Node α) (nb : Nat) : Nat :=
  if nd.rateNum ≠ 0 then nb * nd.rateDen / nd.rateNum else nb

/-- `process` reads of a modulated port no more samples than a call's views have: those past
them belong to other buffers. -/
def Node.ReadsItsViews (nd : Node α) : Prop :=
  ∀ st ctx, 0 < ctx.blockSize →
    nd.process st ctx = nd.process st (ctx.clip (nd.inputSamples ctx.blockSize))

/-! ### The cells of an instance -/

inductive InstanceCell where
  | state (node : Nat)
  | sample (i : Nat)
  | control (i : Nat)

def InstanceCell.Holds (α : Type) : InstanceCell → Type
  | .state _   => Option (StateBlock α)
  | .sample _  => Option α
  | .control _ => Option (PortControl α)

namespace CompiledSchedule

/-- The samples of the buffer pool that are node `u`'s. -/
def buffers (s : CompiledSchedule α) (u : Nat) : Set Nat :=
  Set.Ico (s.outBaseSample.getD u 0)
    (s.outBaseSample.getD u 0 + s.bp.outputsOf u * s.outStride.getD u 0)

/-- The cells of node `v`. -/
def owns (s : CompiledSchedule α) (v : Nat) : Set InstanceCell
  | .state n   => n = v
  | .sample i  => i ∈ s.buffers v
  | .control i => i ∈ Set.Ico (s.paramBase.getD v 0) (s.paramBase.getD v 0 + s.bp.paramsOf v)

/-- The buffers of the nodes that feed `v`. -/
def feeds (s : CompiledSchedule α) (v : Nat) : Set InstanceCell
  | .sample i => ∃ u, (u, v) ∈ s.bp.edges ∧ i ∈ s.buffers u
  | _         => False

end CompiledSchedule

/-- The parts `offsets` lays out do not overlap. -/
theorem disjoint_offsets (size : Nat → Nat) {n i j : Nat} (hi : i < n) (hj : j < n)
    (h : i ≠ j) : Disjoint
      (Set.Ico ((offsets size n).getD i 0) ((offsets size n).getD i 0 + size i))
      (Set.Ico ((offsets size n).getD j 0) ((offsets size n).getD j 0 + size j)) := by
  have start : ∀ {k}, k < n → (offsets size n).getD k 0 = ((List.range k).map size).sum :=
    fun hk => getD_map_range _ hk 0
  rw [start hi, start hj, Set.disjoint_left]
  rintro x ⟨h₁, h₂⟩ ⟨h₃, h₄⟩
  rcases Nat.lt_or_gt_of_ne h with h | h
  · have := sum_range_le size h; omega
  · have := sum_range_le size h; omega

section Layout

variable {bp : GraphBlueprint α} {B : Nat} {order : List Nat} {rates : Rates} {u v : Nat}

theorem buffers_layout (hv : v < bp.size) :
    (layout bp B order rates).buffers v =
      Set.Ico ((layout bp B order rates).outBaseSample.getD v 0)
        ((layout bp B order rates).outBaseSample.getD v 0
          + bp.outputsOf v * ((rates v).regionRate * B)) := by
  have stride : (layout bp B order rates).outStride.getD v 0 = (rates v).regionRate * B :=
    getD_map_range _ hv 0
  rw [CompiledSchedule.buffers, stride]
  rfl

theorem disjoint_buffers (hu : u < bp.size) (hv : v < bp.size) (ne : u ≠ v) :
    Disjoint ((layout bp B order rates).buffers u) ((layout bp B order rates).buffers v) := by
  rw [buffers_layout hu, buffers_layout hv]
  exact disjoint_offsets (fun i => bp.outputsOf i * ((rates i).regionRate * B)) hu hv ne

/-- **Each node has cells of its own.** -/
theorem disjoint_owns (hu : u < bp.size) (hv : v < bp.size) (ne : u ≠ v) :
    Disjoint ((layout bp B order rates).owns u) ((layout bp B order rates).owns v) := by
  refine Set.disjoint_left.mpr fun c hcu hcv => ?_
  cases c with
  | state n => exact ne (hcu.symm.trans hcv)
  | sample i => exact Set.disjoint_left.mp (disjoint_buffers hu hv ne) hcu hcv
  | control i => exact Set.disjoint_left.mp (disjoint_offsets bp.paramsOf hu hv ne) hcu hcv

/-- A node that does not feed `v` writes nothing `v` reads. -/
theorem disjoint_owns_feeds (W : bp.Wired) (hu : u < bp.size) (free : (u, v) ∉ bp.edges) :
    Disjoint ((layout bp B order rates).owns u) ((layout bp B order rates).feeds v) := by
  refine Set.disjoint_left.mpr fun c hcu hcv => ?_
  cases c with
  | state n | control i => exact hcv
  | sample i =>
      obtain ⟨w, edge, hw⟩ := hcv
      have ne : u ≠ w := fun h => free (h ▸ edge)
      exact Set.disjoint_left.mp (disjoint_buffers hu (W.edges_lt _ edge).1 ne) hcu hw

end Layout

namespace GraphInstance

/-- What an instance holds in its cells. -/
def look (g : GraphInstance α) : ∀ c : InstanceCell, c.Holds α
  | .state n   => g.stateRegion[n]?
  | .sample i  => g.bufferPool[i]?
  | .control i => g.controls[i]?

/-- `g` differs from `g₀` in its cells alone. -/
def Like (g₀ g : GraphInstance α) : Prop :=
  g.sched = g₀.sched ∧ g.silentLen = g₀.silentLen ∧ g.sampleRate = g₀.sampleRate ∧
    g.finishedFlag = g₀.finishedFlag

theorem eq_of_look (g₀ : GraphInstance α) (g g' : GraphInstance α) (h : g₀.Like g)
    (h' : g₀.Like g') (same : g.look = g'.look) : g = g' := by
  obtain ⟨h₁, h₂, h₃, h₄⟩ := h
  obtain ⟨h₁', h₂', h₃', h₄'⟩ := h'
  obtain ⟨s, states, pool, len, controls, sr, fin⟩ := g
  obtain ⟨s', states', pool', len', controls', sr', fin'⟩ := g'
  obtain rfl : s = s' := h₁.trans h₁'.symm
  obtain rfl : len = len' := h₂.trans h₂'.symm
  obtain rfl : sr = sr' := h₃.trans h₃'.symm
  obtain rfl : fin = fin' := h₄.trans h₄'.symm
  obtain rfl : states = states' := List.ext_getElem? fun n => congrFun same (.state n)
  obtain rfl : pool = pool' := List.ext_getElem? fun i => congrFun same (.sample i)
  obtain rfl : controls = controls' := List.ext_getElem? fun i => congrFun same (.control i)
  rfl

/-! ### The footprint of a node -/

section Footprints

variable {g₀ : GraphInstance α} {W R : Set InstanceCell}

theorem footprint_setState (n : Nat) (st : StateBlock α) (own : .state n ∈ W) :
    Footprint g₀.Like look W R fun g => { g with stateRegion := g.stateRegion.set n st } := by
  refine .point own (Option.map fun _ => st) (fun _ h => h) (fun g => ?_) fun g c ne => ?_
  · exact List.getElem?_set_self'
  · cases c with
    | state m => exact List.getElem?_set_ne fun h => ne (congrArg InstanceCell.state h.symm)
    | sample i | control i => rfl

theorem footprint_setSample (i : Nat) (x : α) (own : .sample i ∈ W) :
    Footprint g₀.Like look W R fun g => { g with bufferPool := g.bufferPool.set i x } := by
  refine .point own (Option.map fun _ => x) (fun _ h => h) (fun g => ?_) fun g c ne => ?_
  · exact List.getElem?_set_self'
  · cases c with
    | sample j => exact List.getElem?_set_ne fun h => ne (congrArg InstanceCell.sample h.symm)
    | state n | control i => rfl

theorem footprint_modifyControl (i : Nat) (f : PortControl α → PortControl α)
    (own : .control i ∈ W) :
    Footprint g₀.Like look W R fun g => { g with controls := g.controls.modify i f } := by
  refine .point own (Option.map f) (fun _ h => h) (fun g => ?_) fun g c ne => ?_
  · exact List.getElem?_modify_eq ..
  · cases c with
    | control j =>
        exact List.getElem?_modify_ne f _ fun h => ne (congrArg InstanceCell.control h.symm)
    | state n | sample i => rfl

variable [Sample α]

theorem footprint_writeView (view : BufferView) (xs : List α)
    (own : ∀ start size, view = .pool start size → ∀ i ∈ Set.Ico start (start + size),
      .sample i ∈ W) :
    Footprint g₀.Like look W R fun g => g.writeView view xs := by
  cases view with
  | silent size => exact .id
  | pool start size =>
      refine .foldl _ fun i hi => ?_
      have lt : i < size := (List.mem_range.mp hi).trans_le (Nat.min_le_left ..)
      exact footprint_setSample (start + i) (xs.getD i 0)
        (own start size rfl _ ⟨Nat.le_add_right .., Nat.add_lt_add_left lt _⟩)

omit [Sample α] in
theorem footprint_settleControls (v n : Nat)
    (own : ∀ p < n, .control (g₀.sched.paramBase.getD v 0 + p) ∈ W) :
    Footprint g₀.Like look W R fun g => g.settleControls v n := by
  let arrive (cs : List (PortControl α)) (p : Nat) : List (PortControl α) :=
    ((g₀.sched.paramSource.getD v []).getD p none).elim
      (cs.modify (g₀.sched.paramBase.getD v 0 + p) fun c => ⟨c.target, c.target⟩) fun _ => cs
  let settle (g : GraphInstance α) (p : Nat) : GraphInstance α :=
    { g with controls := arrive g.controls p }
  have each : Footprint g₀.Like look W R fun g => (List.range n).foldl settle g := by
    refine .foldl _ fun p hp => ?_
    have here : Footprint g₀.Like look W R _ :=
      footprint_modifyControl (g₀.sched.paramBase.getD v 0 + p) (fun c => ⟨c.target, c.target⟩)
        (own p (List.mem_range.mp hp))
    cases source : (g₀.sched.paramSource.getD v []).getD p none with
    | some src => exact Footprint.id.of_eq fun g _ => by simp only [settle, arrive, source, Option.elim]
    | none => exact here.of_eq fun g _ => by simp only [settle, arrive, source, Option.elim]
  have along : ∀ (l : List Nat) (g : GraphInstance α),
      { g with controls := l.foldl arrive g.controls } = l.foldl settle g := by
    intro l
    induction l with
    | nil => exact fun _ => rfl
    | cons p l ih => exact fun g => ih (settle g p)
  refine each.of_eq fun g hg => ?_
  rw [← along, settleControls, hg.1]
  congr 2
  funext cs p
  cases source : (g₀.sched.paramSource.getD v []).getD p none with
  | some src => simp only [arrive, source, Option.elim]
  | none => simp only [arrive, source, Option.elim]

theorem getD_congr {β : Type} {l l' : List β} {i : Nat} (h : l[i]? = l'[i]?) (d : β) :
    l.getD i d = l'.getD i d := by
  rw [List.getD_eq_getElem?_getD, List.getD_eq_getElem?_getD, h]

/-- A view shows the same in instances that agree on its samples. -/
theorem readView_congr {g g' : GraphInstance α} {view : BufferView}
    (agree : ∀ start size, view = .pool start size → ∀ i ∈ Set.Ico start (start + size),
      g.bufferPool[i]? = g'.bufferPool[i]?) : g.readView view = g'.readView view := by
  cases view with
  | silent size => rfl
  | pool start size =>
      refine List.map_congr_left fun i hi => ?_
      have lt := Nat.add_lt_add_left (List.mem_range.mp hi) start
      exact getD_congr (agree start size rfl _ ⟨Nat.le_add_right .., lt⟩) 0

end Footprints

/-! ### The views of a node -/

section Views

variable {bp : GraphBlueprint α} {B : Nat} {order : List Nat} {rates : Rates}
  {g : GraphInstance α} {v k : Nat}

/-- The samples call `k` of a node writes are its own. -/
theorem outView_within (settled : Settled bp B rates) (hs : g.sched = layout bp B order rates)
    (hv : v < bp.size) (hk : k < (rates v).calls) {c : Nat} (hc : c < bp.outputsOf v) :
    ∀ start size, g.outView v k c = .pool start size → ∀ i ∈ Set.Ico start (start + size),
      i ∈ g.sched.buffers v := by
  intro start size h i hi
  obtain ⟨nd, base, blk, -, -, of⟩ := assignedRate_eq_some.mp (settled v hv)
  have block : g.sched.nodeBlock.getD v 0 = (rates v).nodeBlock := hs ▸ getD_map_range _ hv 0
  have stride : g.sched.outStride.getD v 0 = (rates v).regionRate * B :=
    hs ▸ getD_map_range _ hv 0
  rw [outView, block, outOffset, stride] at h
  obtain ⟨rfl, rfl⟩ := BufferView.pool.inj h
  rw [hs, buffers_layout hv, ← hs]
  have calls := of.calls
  have inside : k * (rates v).nodeBlock + (rates v).nodeBlock ≤ (rates v).regionRate * B := by
    rw [← of.calls, ← Nat.succ_mul]
    exact Nat.mul_le_mul_right _ hk
  have channel : c * ((rates v).regionRate * B) + (rates v).regionRate * B
      ≤ bp.outputsOf v * ((rates v).regionRate * B) := by
    rw [← Nat.succ_mul]
    exact Nat.mul_le_mul_right _ hc
  obtain ⟨h₁, h₂⟩ := hi
  exact ⟨by omega, by omega⟩

/-- The slice call `k` of `v` reads of an output of `u` is `u`'s. -/
theorem slice_within (hs : g.sched = layout bp B order rates)
    {u : Nat} (hu : u < bp.size) (hk : k < (rates v).calls) {ch : Nat}
    (hch : ch < bp.outputsOf u) {i : Nat}
    (hi : i ∈ Set.Ico (g.outOffset u ch + k * (g.sched.outStride.getD u 0 / (rates v).calls))
      (g.outOffset u ch + k * (g.sched.outStride.getD u 0 / (rates v).calls)
        + g.sched.outStride.getD u 0 / (rates v).calls)) :
    i ∈ g.sched.buffers u := by
  have stride : g.sched.outStride.getD u 0 = (rates u).regionRate * B :=
    hs ▸ getD_map_range _ hu 0
  rw [outOffset, stride] at hi
  rw [hs, buffers_layout hu, ← hs]
  have inside : k * ((rates u).regionRate * B / (rates v).calls)
      + (rates u).regionRate * B / (rates v).calls ≤ (rates u).regionRate * B := by
    rw [← Nat.succ_mul]
    exact (Nat.mul_le_mul_right _ hk).trans (Nat.mul_div_le _ _)
  have channel : ch * ((rates u).regionRate * B) + (rates u).regionRate * B
      ≤ bp.outputsOf u * ((rates u).regionRate * B) := by
    rw [← Nat.succ_mul]
    exact Nat.mul_le_mul_right _ hch
  obtain ⟨h₁, h₂⟩ := hi
  exact ⟨by omega, by omega⟩

/-- An entry of a source table was there, or was put there. -/
theorem sourceAt_setSource_eq_some {t : List (List SrcRef)} {node port n p : Nat} {src : SrcRef}
    {ref : Nat × Nat} (h : sourceAt (setSource t n p src) node port = some ref) :
    sourceAt t node port = some ref ∨ (n, p, src) = (node, port, some ref) := by
  by_cases same : n = node ∧ p = port
  · obtain ⟨rfl, rfl⟩ := same
    cases row : t[n]? with
    | none => simp [sourceAt, setSource, row] at h
    | some r =>
        simp only [sourceAt, setSource, List.getD_eq_getElem?_getD, List.getElem?_modify_eq, row,
          Option.map_eq_map, Option.map_some, Option.getD_some, List.getElem?_set_self'] at h
        cases cell : r[p]? with
        | none => simp [cell] at h
        | some old =>
            rw [cell] at h
            exact .inr (by rw [show src = some ref from h])
  · rw [sourceAt_setSource_ne same] at h
    exact .inl h

theorem sourceAt_foldl_eq_some {node port : Nat} {ref : Nat × Nat}
    (l : List (Nat × Nat × SrcRef)) (t : List (List SrcRef))
    (h : sourceAt (l.foldl (fun t e => setSource t e.1 e.2.1 e.2.2) t) node port = some ref) :
    sourceAt t node port = some ref ∨ (node, port, some ref) ∈ l := by
  induction l generalizing t with
  | nil => exact .inl h
  | cons e l ih =>
      rcases ih _ h with h | h
      · rcases sourceAt_setSource_eq_some h with h | h
        · exact .inl h
        · exact .inr (h ▸ List.mem_cons_self)
      · exact .inr (List.mem_cons_of_mem _ h)

theorem sourceAt_bare (nodes : List (Node α)) (count : Node α → Nat) (node port : Nat) :
    sourceAt (nodes.map fun nd => List.replicate (count nd) none) node port = none := by
  cases h : nodes[node]? with
  | none => simp [sourceAt, h]
  | some nd => by_cases hp : port < count nd <;> simp [sourceAt, h, hp]

/-- What drives an input feeds its node, from an output it has. -/
theorem edge_of_inputSource (W : bp.Wired) {c n ch : Nat}
    (source : sourceAt (inputWiring bp) v c = some (n, ch)) :
    (n, v) ∈ bp.edges ∧ ch < bp.outputsOf n := by
  rw [inputWiring_eq] at source
  rcases sourceAt_foldl_eq_some _ _ source with h | h
  · rw [sourceAt_bare] at h
    cases h
  · obtain ⟨d, hd, e⟩ := List.mem_map.mp h
    cases e
    exact ⟨GraphBlueprint.mem_edges.mpr (.inl ⟨d, hd, rfl⟩), (W.audio d hd).2.2.1⟩

theorem edge_of_paramSource (W : bp.Wired) {p n ch : Nat}
    (source : sourceAt (paramWiring bp) v p = some (n, ch)) :
    (n, v) ∈ bp.edges ∧ ch < bp.outputsOf n := by
  rw [paramWiring_eq] at source
  rcases sourceAt_foldl_eq_some _ _ source with h | h
  · rw [sourceAt_bare] at h
    cases h
  · obtain ⟨d, hd, e⟩ := List.mem_map.mp h
    cases e
    exact ⟨GraphBlueprint.mem_edges.mpr (.inr ⟨d, hd, rfl⟩), (W.modulation d hd).2.2.1⟩

end Views

/-! ### Executing a node -/

variable [Sample α]

/-- What call `k` of node `v` hands to `process`. -/
def callContext (g : GraphInstance α) (nd : Node α) (v k : Nat) : ProcessingContext α where
  inputs := (List.range nd.inputsCount).map fun c => g.readView (g.inView v k c)
  outputs := (List.range nd.outputsCount).map fun c => g.readView (g.outView v k c)
  params := (List.range nd.paramsCount).map fun p => g.portView v k p
  sampleRate := g.sampleRate * g.sched.regionRate.getD v 1
  blockSize := g.sched.nodeBlock.getD v 0

/-- What a call of node `v` leaves: `r` in its state block and its output views. -/
def putResult (g : GraphInstance α) (nd : Node α) (v k : Nat) (r : StateBlock α × List (List α)) :
    GraphInstance α :=
  let settled := g.settleControls v nd.paramsCount
  (List.range nd.outputsCount).foldl (fun g c => g.writeView (g.outView v k c) (r.2.getD c []))
    { settled with stateRegion := settled.stateRegion.set v r.1 }

/-- All calls of a node in sequence. -/
def runNode (g : GraphInstance α) (v : Nat) : GraphInstance α :=
  (List.range (g.sched.calls.getD v 0)).foldl (fun g k => g.runCall v k) g

/-- One cycle, the nodes in the order given. -/
def processIn (g : GraphInstance α) (order : List Nat) : GraphInstance α :=
  order.foldl (fun g v => g.runNode v) g

theorem processIn_topoOrder (g : GraphInstance α) : g.processIn g.sched.topoOrder = g.process :=
  rfl

theorem runCall_eq (g : GraphInstance α) {nd : Node α} {v : Nat}
    (here : g.sched.bp.nodes[v]? = some nd) (k : Nat) :
    g.runCall v k
      = g.putResult nd v k (nd.process (g.stateRegion.getD v {}) (g.callContext nd v k)) := by
  rw [runCall, here]
  rfl

section Calls

variable {bp : GraphBlueprint α} {B : Nat} {order : List Nat} {rates : Rates}
  {g₀ : GraphInstance α} {nd : Node α} {v k : Nat}

theorem footprint_putResult (settled : Settled bp B rates)
    (hs : g₀.sched = layout bp B order rates) (here : bp.nodes[v]? = some nd)
    (hk : k < (rates v).calls) (r : StateBlock α × List (List α)) :
    Footprint g₀.Like look (g₀.sched.owns v) (g₀.sched.feeds v) fun g =>
      g.putResult nd v k r := by
  have hv : v < bp.size := (List.getElem?_eq_some_iff.mp here).1
  have hbp : g₀.sched.bp = bp := by rw [hs]; rfl
  have outs : bp.outputsOf v = nd.outputsCount := by simp [GraphBlueprint.outputsOf, here]
  have params : bp.paramsOf v = nd.paramsCount := by simp [GraphBlueprint.paramsOf, here]
  have settle : Footprint g₀.Like look (g₀.sched.owns v) (g₀.sched.feeds v) fun g =>
      g.settleControls v nd.paramsCount := by
    refine footprint_settleControls v nd.paramsCount fun p hp => ?_
    exact ⟨Nat.le_add_right .., Nat.add_lt_add_left (by rw [hbp, params]; exact hp) _⟩
  have state : Footprint g₀.Like look (g₀.sched.owns v) (g₀.sched.feeds v) fun g =>
      { g with stateRegion := g.stateRegion.set v r.1 } := footprint_setState v r.1 (rfl : v = v)
  refine (Footprint.foldl _ fun c hc => ?_).comp (state.comp settle)
  have view : ∀ g, g₀.Like g → g.outView v k c = g₀.outView v k c := fun g hg => by
    rw [outView, outView, outOffset, outOffset, hg.1]
  refine (footprint_writeView (g₀.outView v k c) (r.2.getD c []) fun start size h i hi => ?_).of_eq
    fun g hg => by rw [view g hg]
  exact outView_within settled hs hv hk (outs.symm ▸ List.mem_range.mp hc) start size h i hi

omit [Sample α] in
/-- The part of a buffer a port shows is the same in instances that agree on its samples. -/
theorem clip_congr {g g' : GraphInstance α} {start n : Nat}
    (agree : ∀ i ∈ Set.Ico start (start + n), g.bufferPool[i]? = g'.bufferPool[i]?) :
    (g.bufferPool.drop start).take n = (g'.bufferPool.drop start).take n := by
  refine List.ext_getElem? fun i => ?_
  rw [List.getElem?_take, List.getElem?_take]
  split
  · next lt =>
      rw [List.getElem?_drop, List.getElem?_drop,
        agree _ ⟨Nat.le_add_right .., Nat.add_lt_add_left lt start⟩]
  · rfl

omit [Sample α] in
/-- The samples of an input view are at most those of a driver's slice. -/
theorem inputSamples_le {base : Nat} {blk : Int} {r : NodeRate}
    (of : NodeRate.Of nd B base blk r) : nd.inputSamples r.nodeBlock ≤ base * B / r.calls := by
  have num : nd.rateNum ≠ 0 := fun h => by
    have rate := of.rate
    rw [h, mul_zero] at rate
    rcases Nat.mul_eq_zero.mp rate with h | h
    · exact absurd (isPowerOfTwo.pos of.power) (by omega)
    · exact of.den h
  rw [Node.inputSamples, if_pos num, Nat.le_div_iff_mul_le of.calls_pos]
  refine Nat.le_of_mul_le_mul_left (?_ : nd.rateNum * _ ≤ nd.rateNum * _)
    (Nat.pos_of_ne_zero num)
  calc nd.rateNum * (r.nodeBlock * nd.rateDen / nd.rateNum * r.calls)
      = nd.rateNum * (r.nodeBlock * nd.rateDen / nd.rateNum) * r.calls := by ring
    _ ≤ r.nodeBlock * nd.rateDen * r.calls := Nat.mul_le_mul_right _ (Nat.mul_div_le ..)
    _ = r.calls * r.nodeBlock * nd.rateDen := by ring
    _ = nd.rateNum * (base * B) := by
        rw [of.calls]
        linear_combination B * of.rate

/-- A call of `v` is handed the same by instances that agree on the cells of `v` and on the
buffers that feed it. -/
theorem process_congr (W : bp.Wired) (settled : Settled bp B rates)
    (hs : g₀.sched = layout bp B order rates) (here : bp.nodes[v]? = some nd)
    (reads : nd.ReadsItsViews) (hk : k < (rates v).calls) {g g' : GraphInstance α}
    (like : g₀.Like g) (like' : g₀.Like g')
    (agree : ∀ c ∈ g₀.sched.owns v ∪ g₀.sched.feeds v, g.look c = g'.look c) :
    nd.process (g.stateRegion.getD v {}) (g.callContext nd v k)
      = nd.process (g'.stateRegion.getD v {}) (g'.callContext nd v k) := by
  have hv : v < bp.size := (List.getElem?_eq_some_iff.mp here).1
  have hbp : g₀.sched.bp = bp := by rw [hs]; rfl
  have outs : bp.outputsOf v = nd.outputsCount := by simp [GraphBlueprint.outputsOf, here]
  have params : bp.paramsOf v = nd.paramsCount := by simp [GraphBlueprint.paramsOf, here]
  obtain ⟨base, blk, drivers, of⟩ := settled.of here
  have block : g₀.sched.nodeBlock.getD v 0 = (rates v).nodeBlock := hs ▸ getD_map_range _ hv 0
  have calls : g₀.sched.calls.getD v 1 = (rates v).calls := hs ▸ getD_map_range _ hv 1
  have own : ∀ i ∈ g₀.sched.buffers v, g.bufferPool[i]? = g'.bufferPool[i]? :=
    fun i hi => agree (.sample i) (.inl hi)
  have fed : ∀ u, (u, v) ∈ bp.edges → ∀ i ∈ g₀.sched.buffers u,
      g.bufferPool[i]? = g'.bufferPool[i]? :=
    fun u edge i hi => agree (.sample i) (.inr ⟨u, hbp ▸ edge, hi⟩)
  -- a slice of a driver's buffer
  have slice : ∀ u ch, (u, v) ∈ bp.edges → ch < bp.outputsOf u → ∀ i,
      i ∈ Set.Ico (g₀.outOffset u ch + k * (g₀.sched.outStride.getD u 0 / (rates v).calls))
        (g₀.outOffset u ch + k * (g₀.sched.outStride.getD u 0 / (rates v).calls)
          + g₀.sched.outStride.getD u 0 / (rates v).calls) →
        g.bufferPool[i]? = g'.bufferPool[i]? := fun u ch edge hch i hi =>
    fed u edge i (slice_within hs (W.edges_lt _ edge).1 hk hch hi)
  have offset : ∀ {h : GraphInstance α}, g₀.Like h → ∀ u ch, h.outOffset u ch = g₀.outOffset u ch :=
    fun hh u ch => by rw [outOffset, outOffset, hh.1]
  have states : g.stateRegion.getD v {} = g'.stateRegion.getD v {} :=
    getD_congr (agree (.state v) (.inl rfl)) {}
  have outputs : ∀ c < nd.outputsCount,
      g.readView (g.outView v k c) = g'.readView (g'.outView v k c) := by
    intro c hc
    have view : ∀ {h : GraphInstance α}, g₀.Like h → h.outView v k c = g₀.outView v k c :=
      fun hh => by rw [outView, outView, offset hh, hh.1]
    rw [view like, view like']
    exact readView_congr fun start size h i hi =>
      own i (outView_within settled hs hv hk (outs.symm ▸ hc) start size h i hi)
  have inputs : ∀ c, g.readView (g.inView v k c) = g'.readView (g'.inView v k c) := by
    intro c
    have view : ∀ {h : GraphInstance α}, g₀.Like h → h.inView v k c = g₀.inView v k c :=
      fun hh => by simp only [inView, offset hh, hh.1]
    rw [view like, view like']
    refine readView_congr fun start size h i hi => ?_
    rw [inView] at h
    dsimp only at h
    split at h
    · split at h <;> cases h
    · next n ch source =>
        obtain ⟨edge, hch⟩ := edge_of_inputSource W
          (show sourceAt (inputWiring bp) v c = some (n, ch) by rw [hs] at source; exact source)
        rw [calls] at h
        obtain ⟨rfl, rfl⟩ := BufferView.pool.inj h
        exact slice n ch edge hch i hi
  have ports : ∀ p < nd.paramsCount, (g.portView v k p).clip (nd.inputSamples (rates v).nodeBlock)
      = (g'.portView v k p).clip (nd.inputSamples (rates v).nodeBlock) := by
    intro p hp
    rw [portView, portView, like.1, like'.1]
    cases source : (g₀.sched.paramSource.getD v []).getD p none with
    | some ref =>
        obtain ⟨n, ch⟩ := ref
        obtain ⟨edge, hch⟩ := edge_of_paramSource W
          (show sourceAt (paramWiring bp) v p = some (n, ch) by rw [hs] at source; exact source)
        have stride : g₀.sched.outStride.getD n 0 = base * B := by
          rw [← (drivers.driven n edge).1]
          exact hs ▸ getD_map_range _ (W.edges_lt _ edge).1 0
        have short := inputSamples_le of
        simp only [ParamView.clip, offset like, offset like', calls, Option.map_some]
        rw [clip_congr fun i hi => slice n ch edge hch i ⟨hi.1, hi.2.trans_le ?_⟩]
        rw [stride]
        exact Nat.add_le_add_left short _
    | none =>
        have same : g.controls[g₀.sched.paramBase.getD v 0 + p]?
            = g'.controls[g₀.sched.paramBase.getD v 0 + p]? :=
          agree (.control _) (.inl ⟨Nat.le_add_right .., Nat.add_lt_add_left
            (by rw [hbp, params]; exact hp) _⟩)
        simp only [getD_congr same]
  have size : ∀ {h : GraphInstance α}, g₀.Like h →
      (h.callContext nd v k).blockSize = (rates v).nodeBlock := fun hh => by
    rw [callContext, hh.1]
    exact block
  have contexts : (g.callContext nd v k).clip (nd.inputSamples (rates v).nodeBlock)
      = (g'.callContext nd v k).clip (nd.inputSamples (rates v).nodeBlock) := by
    simp only [ProcessingContext.clip, callContext, List.map_map, ProcessingContext.mk.injEq,
      like.1, like'.1, like.2.2.1, like'.2.2.1, and_true]
    exact ⟨List.map_congr_left fun c _ => inputs c,
      List.map_congr_left fun c hc => outputs c (List.mem_range.mp hc),
      List.map_congr_left fun p hp => ports p (List.mem_range.mp hp)⟩
  have left := reads (g.stateRegion.getD v {}) (g.callContext nd v k)
    ((size like).symm ▸ of.block_pos)
  have right := reads (g'.stateRegion.getD v {}) (g'.callContext nd v k)
    ((size like').symm ▸ of.block_pos)
  rw [size like] at left
  rw [size like'] at right
  rw [left, right, states, contexts]

/-- **A node writes its own cells alone**, and what it writes depends on them and on the buffers
that feed it. -/
theorem footprint_runNode (W : bp.Wired) (settled : Settled bp B rates)
    (hs : g₀.sched = layout bp B order rates) (views : ∀ nd ∈ bp.nodes, nd.ReadsItsViews)
    (hv : v < bp.size) :
    Footprint g₀.Like look (g₀.sched.owns v) (g₀.sched.feeds v) fun g => g.runNode v := by
  have here : bp.nodes[v]? = some bp.nodes[v] := List.getElem?_eq_getElem hv
  have hbp : g₀.sched.bp = bp := by rw [hs]; rfl
  have calls : g₀.sched.calls.getD v 0 = (rates v).calls := hs ▸ getD_map_range _ hv 0
  have each : Footprint g₀.Like look (g₀.sched.owns v) (g₀.sched.feeds v) fun g =>
      (List.range (rates v).calls).foldl (fun g k => g.runCall v k) g := by
    refine .foldl _ fun k hk => ?_
    have hk := List.mem_range.mp hk
    have call : Footprint g₀.Like look (g₀.sched.owns v) (g₀.sched.feeds v) fun g =>
        g.putResult bp.nodes[v] v k
          (bp.nodes[v].process (g.stateRegion.getD v {}) (g.callContext bp.nodes[v] v k)) :=
      .of_reads (fun g g' like like' agree => process_congr W settled hs here
        (views _ (List.getElem_mem hv)) hk like like' agree)
        fun r => footprint_putResult settled hs here hk r
    exact call.of_eq fun g hg => runCall_eq g (by rw [hg.1, hbp]; exact here) k
  exact each.of_eq fun g hg => by rw [runNode, hg.1, calls]

end Calls

end GraphInstance

/-! ### The nodes of the registry -/

section Standard

variable [Sample α] {n i : Nat}

theorem ProcessingContext.param_clip (ctx : ProcessingContext α) (lt : i < n) (p : Nat) :
    (ctx.clip n).param p i = ctx.param p i := by
  rw [param, param, clip, List.getD_eq_getElem?_getD, List.getD_eq_getElem?_getD,
    List.getElem?_map]
  cases ctx.params[p]? with
  | none => rfl
  | some port =>
      obtain ⟨buffer, base, inc⟩ := port
      cases buffer with
      | none => rfl
      | some b => exact GraphInstance.getD_congr (List.getElem?_take_of_lt lt) 0

theorem ProcessingContext.input_clip (ctx : ProcessingContext α) (c : Nat) :
    (ctx.clip n).input c i = ctx.input c i :=
  rfl

theorem ProcessingContext.paramFirst_clip (ctx : ProcessingContext α) (lt : 0 < n) (p : Nat) :
    (ctx.clip n).paramFirst p = ctx.paramFirst p := by
  rw [paramFirst, paramFirst, clip, List.getD_eq_getElem?_getD, List.getD_eq_getElem?_getD,
    List.getElem?_map]
  cases ctx.params[p]? with
  | none => rfl
  | some port =>
      obtain ⟨buffer, base, inc⟩ := port
      cases buffer with
      | none => rfl
      | some b => exact GraphInstance.getD_congr (List.getElem?_take_of_lt lt) 0

omit [Sample α] in
/-- A node that reads no port. -/
theorem Node.readsItsViews_of_eq {nd : Node α}
    (same : ∀ st ctx n, nd.process st (ctx.clip n) = nd.process st ctx) : nd.ReadsItsViews :=
  fun st ctx _ => (same st ctx _).symm

omit [Sample α] in
/-- A node that keeps the rate, and reads of its ports the sample it computes. -/
theorem Node.readsItsViews_of_rate {nd : Node α} (rate : nd.rateNum = 1 ∧ nd.rateDen = 1)
    (same : ∀ st ctx, 0 < ctx.blockSize →
      nd.process st ctx = nd.process st (ctx.clip ctx.blockSize)) : nd.ReadsItsViews := by
  intro st ctx pos
  rw [Node.inputSamples, rate.1, rate.2, if_pos one_ne_zero, mul_one, Nat.div_one]
  exact same st ctx pos

omit [Sample α] in
theorem sampleWise_congr {outs : Nat} {f : ProcessingContext α → Nat → Nat → α}
    (st : StateBlock α) (ctx : ProcessingContext α)
    (same : ∀ c, ∀ i < ctx.blockSize, f ctx c i = f (ctx.clip ctx.blockSize) c i) :
    sampleWise outs f st ctx = sampleWise outs f st (ctx.clip ctx.blockSize) := by
  have outputs : (List.range outs).map (fun c => (List.range ctx.blockSize).map (f ctx c))
      = (List.range outs).map fun c =>
        (List.range ctx.blockSize).map (f (ctx.clip ctx.blockSize) c) :=
    List.map_congr_left fun c _ => List.map_congr_left fun i hi => same c i (List.mem_range.mp hi)
  exact congrArg (Prod.mk st) outputs

theorem blockLoop_congr {σ β : Type} {n : Nat} {body body' : Nat → σ → σ × β}
    (same : ∀ i < n, ∀ s, body i s = body' i s) (s : σ) :
    blockLoop n body s = blockLoop n body' s :=
  List.foldl_ext _ _ _ fun acc i hi => by simp only [same i (List.mem_range.mp hi)]

theorem readsItsViews_oscillator [Trig α] (freq : α) :
    (Nodes.oscillator freq).ReadsItsViews := by
  refine Node.readsItsViews_of_rate ⟨rfl, rfl⟩ fun st ctx _ => ?_
  refine congrArg (fun r : α × List α => (({ st with cells := st.cells.set 0 r.1 }, [r.2]) :
    StateBlock α × List (List α))) (blockLoop_congr (fun i hi phase => ?_) _)
  rw [ctx.param_clip hi]
  rfl

theorem readsItsViews_sampleAndHold (rate : α) : (Nodes.sampleAndHold rate).ReadsItsViews := by
  refine Node.readsItsViews_of_rate ⟨rfl, rfl⟩ fun st ctx pos => ?_
  simp only [Nodes.sampleAndHold, ctx.paramFirst_clip pos]
  rfl

open Nodes in
/-- **The nodes of the registry read their views alone.** -/
theorem standardRegistry_readsItsViews [Trig α] {nd : Node α}
    (h : Lang.standardRegistry.Makes nd) : nd.ReadsItsViews := by
  have ported : ∀ {nd : Node α} {outs : Nat} {f : ProcessingContext α → Nat → Nat → α},
      nd.process = sampleWise outs f → nd.rateNum = 1 ∧ nd.rateDen = 1 →
      (∀ ctx c i, i < ctx.blockSize → f ctx c i = f (ctx.clip ctx.blockSize) c i) →
        nd.ReadsItsViews := fun code rate same =>
    Node.readsItsViews_of_rate rate fun st ctx _ => by
      rw [code]
      exact sampleWise_congr st ctx (same ctx)
  obtain ⟨name, args, h⟩ := h
  obtain ⟨e, he, -, hm⟩ := Lang.NodeRegistry.make_eq_some h
  simp only [Lang.standardRegistry, List.mem_cons, List.not_mem_nil, or_false] at he
  rcases he with rfl | rfl | rfl | rfl | rfl | rfl | rfl | rfl | rfl | rfl | rfl | rfl | rfl | rfl |
    rfl | rfl | rfl | rfl | rfl | rfl | rfl | rfl | rfl | rfl | rfl | rfl <;>
    obtain rfl := Option.some.inj hm
  case inl => exact readsItsViews_oscillator _
  all_goals
    first
      | exact Node.readsItsViews_of_eq fun _ _ _ => rfl
      | exact readsItsViews_sampleAndHold _
      | exact ported rfl ⟨rfl, rfl⟩ fun ctx c i hi => by
          simp only [ctx.param_clip hi, ctx.input_clip]

end Standard

/-- **The order of a cycle does not matter.**  Executing the nodes of a compiled blueprint in any
order in which each comes after those that feed it leaves the instance `process` leaves. -/
theorem processIn_eq_process [Sample α] {bp : GraphBlueprint α} {B : Nat} (made : bp.EdgesMade)
    (views : ∀ nd ∈ bp.nodes, nd.ReadsItsViews) (ok : (compile bp B).ok = true)
    {g : GraphInstance α} (hs : g.sched = compile bp B) {order : List Nat}
    (perm : order.Perm (List.range bp.size))
    (before : ∀ l₁ v l₂, order = l₁ ++ v :: l₂ → ∀ u, (u, v) ∈ bp.edges → u ∈ l₁) :
    g.processIn order = g.process := by
  have W := made.wired
  obtain ⟨rates, hlayout, settled, hlen⟩ := compile_of_ok W ok
  have D := topoRun_done W
  have hs := hs.trans hlayout
  have perm' := D.perm hlen
  have node : ∀ v ∈ order, v < bp.size := fun v hv => List.mem_range.mp (perm.mem_iff.mp hv)
  have nodup : order.Nodup := perm.nodup_iff.mpr List.nodup_range
  have topo : g.sched.topoOrder = (topoRun bp).topoOrder := by rw [hs]; rfl
  rw [← GraphInstance.processIn_topoOrder, topo]
  have footprint := fun v (hv : v < bp.size) =>
    GraphInstance.footprint_runNode W settled hs views hv
  have absent : ∀ v, ¬v < bp.size → ∀ h, g.Like h → h.runNode v = h := by
    intro v hv h hh
    have none : g.sched.calls.getD v 0 = 0 := by
      rw [hs]
      simp [layout, hv]
    rw [GraphInstance.runNode, hh.1, none]
    rfl
  refine foldl_eq_of_orders (E := fun u v => (u, v) ∈ bp.edges) (I := g.Like) (fun h v hh => ?_)
    (fun u v ne free free' h hh => ?_) (perm.trans perm'.symm) nodup
    (pairwise_of_before nodup before) (pairwise_of_before D.nodup D.preds) g ⟨rfl, rfl, rfl, rfl⟩
  · by_cases hv : v < bp.size
    · exact (footprint v hv).keeps h hh
    · exact (absent v hv h hh).symm ▸ hh
  · by_cases hu : u < bp.size
    · by_cases hv : v < bp.size
      · refine Footprint.commute (GraphInstance.eq_of_look g) (footprint v hv) (footprint u hu)
          ?_ ?_ hh
        · exact hs ▸ Set.disjoint_union_right.mpr
            ⟨disjoint_owns hv hu ne.symm, disjoint_owns_feeds W hv free'⟩
        · exact hs ▸ Set.disjoint_union_right.mpr
            ⟨disjoint_owns hu hv ne, disjoint_owns_feeds W hu free⟩
      · rw [absent v hv h hh, absent v hv _ ((footprint u hu).keeps h hh)]
    · by_cases hv : v < bp.size
      · rw [absent u hu h hh, absent u hu _ ((footprint v hv).keeps h hh)]
      · rw [absent u hu h hh, absent v hv h hh, absent u hu h hh]

/-- Two constants beside an adder, ... -/
noncomputable def constantsBesideAdd : GraphBlueprint ℝ where
  nodes := [Nodes.constant 1, Nodes.constant 1, Nodes.add]
  names := ["", "", ""]

/-- ... and into it. -/
noncomputable def constantsIntoAdd : GraphBlueprint ℝ :=
  { constantsBesideAdd with connections := [⟨0, 0, 2, 0⟩, ⟨1, 0, 2, 1⟩] }

theorem constantsIntoAdd_made : constantsIntoAdd.EdgesMade :=
  .connect
    (.connect (.bare rfl rfl) (rfl : constantsBesideAdd.connect 0 0 2 0
      = some { constantsBesideAdd with connections := [⟨0, 0, 2, 0⟩] }))
    (rfl : GraphBlueprint.connect _ 1 0 2 1 = some constantsIntoAdd)

theorem constantsIntoAdd_order : ∃ g, instantiate (compile constantsIntoAdd 64) 48000 = some g ∧
    g.sched.topoOrder = [0, 1, 2] ∧ g.processIn [1, 0, 2] = g.process := by
  have standard : ∀ nd ∈ constantsIntoAdd.nodes, Lang.standardRegistry.Makes nd := by
    intro nd hnd
    simp only [constantsIntoAdd, constantsBesideAdd, List.mem_cons, List.not_mem_nil,
      or_false] at hnd
    rcases hnd with rfl | rfl | rfl
    · exact ⟨"constant", {}, rfl⟩
    · exact ⟨"constant", {}, rfl⟩
    · exact ⟨"add", {}, rfl⟩
  refine ⟨_, rfl, by decide, processIn_eq_process constantsIntoAdd_made
    (fun nd hnd => standardRegistry_readsItsViews (standard nd hnd)) (B := 64) rfl rfl
    (by decide) fun l₁ v l₂ split u edge => ?_⟩
  have edges : constantsIntoAdd.edges = [(0, 2), (1, 2)] := rfl
  rw [edges] at edge
  match l₁, split with
  | [], split => cases split; simp at edge
  | [_], split => cases split; simp at edge
  | [_, _], split => cases split; rcases (by simpa using edge : u = 0 ∨ u = 1) with rfl | rfl <;> simp
  | _ :: _ :: _ :: _, split => simp at split

end Xrune
