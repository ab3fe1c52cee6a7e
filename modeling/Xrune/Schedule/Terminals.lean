import Xrune.Schedule.Slices

/-!
# Schedule — terminals

The engine reads one block of samples of each channel of an output terminal.  The channel's
buffer is one block when its node is at the base rate; compilation asks this of no terminal, so
it holds exactly of the blueprints whose paths to terminals double the rate as often as they
halve it (`terminals_whole_iff`).
-/

namespace Xrune

variable {α : Type} {bp : GraphBlueprint α} {B : Nat}

/-- The ratios of the nodes on some path from a node without drivers to `v`, `v` included,
multiply to `num / den`. -/
inductive GraphBlueprint.PathRate (bp : GraphBlueprint α) : Nat → Nat → Nat → Prop where
  | source {v : Nat} {nd : Node α} (here : bp.nodes[v]? = some nd)
      (free : ∀ u, (u, v) ∉ bp.edges) : PathRate bp v nd.rateNum nd.rateDen
  | step {u v num den : Nat} {nd : Node α} (before : PathRate bp u num den)
      (edge : (u, v) ∈ bp.edges) (here : bp.nodes[v]? = some nd) :
      PathRate bp v (num * nd.rateNum) (den * nd.rateDen)

/-- The region rate of a node is the product of the ratios on any path to it. -/
theorem Settled.regionRate_of_path {rates : Rates} (settled : Settled bp B rates)
    {v num den : Nat} (h : bp.PathRate v num den) :
    den ≠ 0 ∧ (rates v).regionRate * den = num := by
  induction h with
  | @source v nd here free =>
      obtain ⟨base, blk, agree, of⟩ := settled.of here
      obtain ⟨rfl, -⟩ := agree.free free
      exact ⟨of.den, by rw [of.rate, one_mul]⟩
  | @step u v num den nd _ edge here ih =>
      obtain ⟨base, blk, agree, of⟩ := settled.of here
      have hbase := (agree.driven u edge).1
      refine ⟨Nat.mul_ne_zero ih.1 of.den, ?_⟩
      calc (rates v).regionRate * (den * nd.rateDen)
          = (rates v).regionRate * nd.rateDen * den := by ring
        _ = (rates u).regionRate * den * nd.rateNum := by rw [of.rate, hbase]; ring
        _ = num * nd.rateNum := by rw [ih.2]

/-- A path leads to every node of an acyclic blueprint. -/
theorem GraphBlueprint.exists_pathRate (W : bp.Wired) (acyclic : Acyclic bp.edges) {v : Nat}
    (hv : v < bp.size) : ∃ num den, bp.PathRate v num den := by
  have D := topoRun_done W
  refine order_induction (p := fun v => ∃ num den, bp.PathRate v num den) D.preds
    (fun v hv ih => ?_) v (D.all acyclic v hv)
  obtain ⟨nd, here⟩ : ∃ nd, bp.nodes[v]? = some nd :=
    ⟨_, List.getElem?_eq_getElem (D.mem v hv)⟩
  by_cases free : ∀ u, (u, v) ∉ bp.edges
  · exact ⟨_, _, .source here free⟩
  · obtain ⟨u, hu⟩ := not_forall_not.mp free
    obtain ⟨num, den, h⟩ := ih u hu
    exact ⟨_, _, .step h hu here⟩

/-- The nodes the non-silent channels of an output terminal come from. -/
def GraphBlueprint.terminalNodes (bp : GraphBlueprint α) (t : Terminal) : List Nat :=
  if t.channels.isEmpty then List.replicate (bp.outputsOf t.node) t.node
  else (t.channels.filter fun c => !c.silent).map TerminalSource.node

namespace GraphInstance

variable {g : GraphInstance α}

/-- The buffer of every non-silent channel of an output terminal is one block. -/
def TerminalsWhole (g : GraphInstance α) : Prop :=
  ∀ t < g.outputTerminalCount, ∀ ch < g.outputTerminalChannels t, ∀ start size,
    g.outputTerminalView t ch = .pool start size → size = g.blockSize

/-- The channels of a terminal that show a buffer show the buffers of its nodes. -/
theorem outputTerminalView_iff {t : Nat} {term : Terminal}
    (ht : g.sched.bp.outputTerminals[t]? = some term) (size : Nat) :
    (∃ ch < g.outputTerminalChannels t, ∃ start, g.outputTerminalView t ch = .pool start size) ↔
      ∃ v ∈ g.sched.bp.terminalNodes term, g.sched.outStride.getD v 0 = size := by
  by_cases hch : term.channels.isEmpty = true
  · simp only [outputTerminalChannels, outputTerminalView, ht, GraphBlueprint.terminalNodes,
      if_pos hch, nodeOutputView, BufferView.pool.injEq]
    constructor
    · rintro ⟨ch, hlt, start, -, rfl⟩
      exact ⟨term.node, List.mem_replicate.mpr ⟨by omega, rfl⟩, rfl⟩
    · rintro ⟨v, hv, rfl⟩
      obtain ⟨hne, rfl⟩ := List.mem_replicate.mp hv
      exact ⟨0, Nat.pos_of_ne_zero hne, _, rfl, rfl⟩
  · simp only [outputTerminalChannels, outputTerminalView, ht, GraphBlueprint.terminalNodes,
      if_neg hch]
    constructor
    · rintro ⟨ch, hlt, start, h⟩
      have hget : term.channels.getD ch {} = term.channels[ch] := by simp [hlt]
      rw [hget] at h
      cases hs : term.channels[ch].silent with
      | true =>
          rw [if_pos hs] at h
          cases h
      | false =>
          rw [if_neg (by simp [hs]), nodeOutputView] at h
          refine ⟨term.channels[ch].node, List.mem_map_of_mem (List.mem_filter.mpr
            ⟨List.getElem_mem hlt, by simp [hs]⟩), ?_⟩
          exact (BufferView.pool.inj h).2
    · rintro ⟨v, hv, rfl⟩
      obtain ⟨c, hc, rfl⟩ := List.mem_map.mp hv
      obtain ⟨hmem, hs⟩ := List.mem_filter.mp hc
      obtain ⟨ch, hlt, rfl⟩ := List.getElem_of_mem hmem
      have hget : term.channels.getD ch {} = term.channels[ch] := by simp [hlt]
      refine ⟨ch, hlt, g.outOffset term.channels[ch].node term.channels[ch].ch, ?_⟩
      rw [hget, if_neg (by simpa using hs)]
      rfl

end GraphInstance

section Whole

variable [Sample α] {sr : Nat} {g : GraphInstance α}

/-- **When terminals carry whole blocks.**  The buffers the engine reads of an instance of a
compiled blueprint are one block each exactly when every path to a node of a terminal's
non-silent channel has ratios that multiply to one. -/
theorem terminals_whole_iff (made : bp.EdgesMade) (hB : isPowerOfTwo B = true)
    (built : instantiate (compile bp B) sr = some g) :
    g.TerminalsWhole ↔ ∀ term ∈ bp.outputTerminals, ∀ v ∈ bp.terminalNodes term,
      v < bp.size ∧ ∀ num den, bp.PathRate v num den → num = den := by
  have W := made.wired
  obtain ⟨ok, hsched⟩ := instantiate_eq_some built
  have acyclic := ((compile_ok_iff W).mp ok).1
  obtain ⟨rates, hlayout, settled, -⟩ := compile_of_ok W ok
  have hs := hsched.trans hlayout
  have hbp : g.sched.bp = bp := by rw [hs]; rfl
  have hblock : g.blockSize = B := by rw [GraphInstance.blockSize, hs]; rfl
  have pos := isPowerOfTwo.pos hB
  have stride : ∀ v, g.sched.outStride.getD v 0
      = if v < bp.size then (rates v).regionRate * B else 0 := by
    intro v
    rw [hs]
    split_ifs with hv
    · exact getD_map_range _ hv 0
    · simp [layout, hv]
  -- a node's buffer is one block when it exists and the paths to it multiply to one
  have node : ∀ v, g.sched.outStride.getD v 0 = B ↔
      v < bp.size ∧ ∀ num den, bp.PathRate v num den → num = den := by
    intro v
    rw [stride]
    split_ifs with hv
    · constructor
      · intro h
        have one : (rates v).regionRate = 1 :=
          Nat.eq_of_mul_eq_mul_right pos (h.trans (one_mul B).symm)
        refine ⟨hv, fun num den path => ?_⟩
        have := (settled.regionRate_of_path path).2
        rw [one, one_mul] at this
        exact this.symm
      · rintro ⟨-, h⟩
        obtain ⟨num, den, path⟩ := bp.exists_pathRate W acyclic hv
        obtain ⟨hden, hrate⟩ := settled.regionRate_of_path path
        rw [h num den path] at hrate
        have one : (rates v).regionRate = 1 :=
          Nat.eq_of_mul_eq_mul_right (Nat.pos_of_ne_zero hden) (hrate.trans (one_mul den).symm)
        rw [one, one_mul]
    · exact ⟨fun h => by omega, fun h => absurd h.1 hv⟩
  constructor
  · intro h term hterm v hv
    obtain ⟨t, ht⟩ := List.getElem?_of_mem hterm
    rw [← hbp] at ht hv
    obtain ⟨ch, hch, start, view⟩ :=
      (GraphInstance.outputTerminalView_iff ht (g.sched.outStride.getD v 0)).mpr ⟨v, hv, rfl⟩
    have hlt : t < g.outputTerminalCount := (List.getElem?_eq_some_iff.mp ht).1
    exact (node v).mp ((h t hlt ch hch start _ view).trans hblock)
  · intro h t ht ch hch start size view
    obtain ⟨term, hterm⟩ : ∃ term, g.sched.bp.outputTerminals[t]? = some term :=
      ⟨_, List.getElem?_eq_getElem ht⟩
    obtain ⟨v, hv, rfl⟩ :=
      (GraphInstance.outputTerminalView_iff hterm size).mp ⟨ch, hch, start, view⟩
    have hmem := List.mem_of_getElem? hterm
    rw [hblock]
    rw [hbp] at hmem hv
    exact (node v).mpr (h _ hmem v hv)

end Whole

/-- The upsampled constant as the output. -/
noncomputable def upsampledOutput : GraphBlueprint ℝ :=
  { constantIntoUp2 with
    outputTerminals := [⟨"out", 1, [⟨1, 0, false⟩]⟩]
    outputNode := 1 }

theorem upsampledOutput_made : upsampledOutput.EdgesMade :=
  .grown constantIntoUp2_made (List.prefix_refl _) rfl rfl

/-- The constant as the output. -/
noncomputable def constantOutput : GraphBlueprint ℝ :=
  { constantIntoUp2 with
    outputTerminals := [⟨"out", 0, [⟨0, 0, false⟩]⟩]
    outputNode := 0 }

theorem constantOutput_made : constantOutput.EdgesMade :=
  .grown constantIntoUp2_made (List.prefix_refl _) rfl rfl

theorem constantOutput_whole : ∃ g, instantiate (compile constantOutput 64) 48000 = some g ∧
    g.TerminalsWhole := by
  refine ⟨_, rfl, (terminals_whole_iff constantOutput_made (B := 64) (by decide) rfl).mpr ?_⟩
  intro term hterm v hv
  obtain rfl := List.mem_singleton.mp hterm
  obtain rfl := List.mem_singleton.mp hv
  refine ⟨by decide, fun num den path => ?_⟩
  cases path with
  | source here free =>
      obtain rfl := Option.some.inj here
      rfl
  | step before edge here =>
      exact absurd (Prod.mk.inj (List.mem_singleton.mp edge)).2 (by decide)

/-- A terminal on an upsampler: its channel has two blocks of samples, of which one is read. -/
theorem upsampledOutput_cut : isPowerOfTwo 64 = true ∧ upsampledOutput.EdgesMade ∧
    ∃ g, instantiate (compile upsampledOutput 64) 48000 = some g ∧ ¬g.TerminalsWhole ∧
      (g.outputTerminalView 0 0).size = 128 := by
  refine ⟨by decide, upsampledOutput_made, _, rfl, fun h => ?_, by decide⟩
  have cut := h 0 (by decide) 0 (by decide) 64 128 (by decide)
  exact absurd cut (by decide)

end Xrune
