import Xrune.Lang.Runes

/-!
# Lang — scores

What a rune means is heard at the terminals of the blueprint it is lowered to: a channel of a
terminal is the buffer of what the rune shows there, or silent (`Placed.hears`).  A score is a
rune whose meaning stands by itself, with its blueprint; an instance of the score reads at every
channel, cycle after cycle, as the wave the rune means there (`Score.cycles`).
-/

namespace Xrune.Lang

variable {K : Type} [Field K] [LinearOrder K] [FloorRing K] [Trig K] {sr : Nat}
  {asked : List Placement} {bp : GraphBlueprint K} {outs : List (Showing K)}

/-- The diagram is shown on this channel of this terminal. -/
def Showing.on (name : String) (ch : Nat) (sh : Showing K) : Bool :=
  sh.terminal == name && decide (sh.base ≤ ch) && decide (ch < sh.base + sh.diagram.outs)

/-- What is shown on a channel of a terminal, if nothing has to be fed in. -/
def hearing (outs : List (Showing K)) (name : String) (ch : Nat) : Wave K :=
  (outs.find? (Showing.on name ch)).elim .silence fun sh =>
    sh.diagram.play (fun _ => none) (ch - sh.base)

omit [Field K] [LinearOrder K] [FloorRing K] [Trig K] in
theorem Showing.on_iff {name : String} {ch : Nat} {sh : Showing K} : sh.on name ch = true ↔
    sh.terminal = name ∧ sh.base ≤ ch ∧ ch < sh.base + sh.diagram.outs := by
  simp [Showing.on, and_assoc]

omit [Trig K] in
/-- What is closed is played by the sources placed for it. -/
theorem Showing.At.heard {sh : Showing K} {p : Placement} (at_ : sh.At sr bp p)
    (closed : sh.diagram.ins = 0) {shows : Nat → Nat → Wave K} (sounding : Sounding sr bp shows)
    {c : Nat} (hc : c < sh.diagram.outs) : ∃ x, p.sources[c]? = some x ∧
      shows x.node x.ch = sh.diagram.play (fun _ => none) c := by
  obtain ⟨ins, tells⟩ := at_.plays
  obtain rfl : ins = [] := List.length_eq_zero_iff.mp (tells.takes.trans closed)
  have lt : c < p.sources.length := tells.gives.symm ▸ hc
  exact ⟨p.sources[c], List.getElem?_eq_getElem lt,
    tells.channel (List.getElem?_eq_getElem lt) bp shows (.refl _) sounding⟩

omit [Trig K] in
/-- A channel of a terminal is the buffer of what is shown there, or silent. -/
theorem Placed.hears (placed : Placed asked bp) (fine : bp.WellFormed)
    (shown : List.Forall₂ (Showing.At sr bp) outs asked) {shows : Nat → Nat → Wave K}
    (sounding : Sounding sr bp shows) (closed : ∀ sh ∈ outs, sh.diagram.ins = 0) {i : Nat}
    {t : Terminal} (ht : bp.outputTerminals[i]? = some t) {ch : Nat} (hch : ch < t.channels.length)
    {g : GraphInstance K} (same : g.sched.bp.outputTerminals = bp.outputTerminals) :
    (∃ v d, v < bp.size ∧ shows v d = hearing outs t.name ch ∧
        g.outputTerminalView i ch = g.nodeOutputView v d) ∨
      hearing outs t.name ch = .silence ∧ g.outputTerminalView i ch = .silent g.silentLen := by
  have mem := List.mem_of_getElem? ht
  have plays := placed.plays same
  rw [← same] at ht
  unfold hearing
  cases found : outs.find? (Showing.on t.name ch) with
  | some sh =>
      obtain ⟨name, low, high⟩ := Showing.on_iff.mp (List.find?_some found)
      have here := List.mem_of_find?_eq_some found
      obtain ⟨n, hn⟩ := List.mem_iff_getElem?.mp here
      obtain ⟨p, hp, at_⟩ := entry_of_forall₂ shown.flip hn
      have hp := List.mem_of_getElem? hp
      obtain ⟨x, hx, heard⟩ := at_.heard (closed sh here) sounding
        (Nat.sub_lt_left_of_lt_add low high)
      have terminal : p.terminal = t.name := at_.terminal.trans name
      have place : p.base + (ch - sh.base) = ch := by rw [at_.base, Nat.add_sub_cancel' low]
      have source := placed.source t mem p hp terminal _ x hx
      refine .inl ⟨x.node, x.ch, ?_, heard, ?_⟩
      · exact (fine.outputs.channel t mem _ (List.mem_of_getElem? source) rfl).1
      · have view := plays.source i t ht p hp terminal _ x hx
        rwa [place] at view
  | none =>
      have free : ¬Assigned asked t.name ch := by
        rintro ⟨p, hp, terminal, c, hc, rfl⟩
        obtain ⟨n, hn⟩ := List.mem_iff_getElem?.mp hp
        obtain ⟨sh, hsh, at_⟩ := entry_of_forall₂ shown hn
        obtain ⟨ins, tells⟩ := at_.plays
        refine List.find?_eq_none.mp found sh (List.mem_of_getElem? hsh) (Showing.on_iff.mpr ?_)
        rw [← at_.terminal, ← at_.base, ← tells.gives]
        exact ⟨terminal, Nat.le_add_right .., Nat.add_lt_add_left hc _⟩
      have some_channel : t.channels.isEmpty = false := by
        rw [List.isEmpty_eq_false_iff, ← List.length_pos_iff]
        exact Nat.zero_lt_of_lt hch
      refine .inr ⟨rfl, ?_⟩
      rw [GraphInstance.outputTerminalView, ht]
      dsimp only
      rw [some_channel, List.getD_eq_getElem?_getD, placed.gap t mem ch hch free]
      rfl

omit [Trig K] in
/-- Past the channels of a terminal nothing is shown. -/
theorem Placed.hearing_past (placed : Placed asked bp)
    (shown : List.Forall₂ (Showing.At sr bp) outs asked) {t : Terminal}
    (mem : t ∈ bp.outputTerminals) {ch : Nat} (past : t.channels.length ≤ ch) :
    hearing outs t.name ch = .silence := by
  unfold hearing
  cases found : outs.find? (Showing.on t.name ch) with
  | none => rfl
  | some sh =>
      obtain ⟨name, low, high⟩ := Showing.on_iff.mp (List.find?_some found)
      obtain ⟨n, hn⟩ := List.mem_iff_getElem?.mp (List.mem_of_find?_eq_some found)
      obtain ⟨p, hp, at_⟩ := entry_of_forall₂ shown.flip hn
      obtain ⟨ins, tells⟩ := at_.plays
      have lt : ch - sh.base < p.sources.length := by
        rw [show p.sources.length = _ from tells.gives]
        exact Nat.sub_lt_left_of_lt_add low high
      have source := placed.source t mem p (List.mem_of_getElem? hp) (at_.terminal.trans name) _ _
        (List.getElem?_eq_getElem lt)
      rw [at_.base, Nat.add_sub_cancel' low] at source
      exact absurd (List.getElem?_eq_some_iff.mp source).1 past.not_gt

omit [Trig K] in
theorem one_le_rate (wired : bp.Wired) {B : Nat} {g : GraphInstance K}
    (built : instantiate (compile bp B) sr = some g) {v : Nat} (hv : v < bp.size) (c : Nat) :
    1 ≤ (g.waves v c).rate := by
  obtain ⟨ok, hs⟩ := instantiate_eq_some built
  obtain ⟨rates, hlayout, settled, -⟩ := compile_of_ok wired ok
  obtain ⟨nd, base, blk, -, -, of⟩ := assignedRate_eq_some.mp (settled v hv)
  have rate : (g.waves v c).rate = (rates v).regionRate := by
    show g.sched.regionRate.getD v 1 = _
    rw [hs, hlayout]
    exact getD_map_range _ hv 1
  rw [rate, Nat.one_le_iff_ne_zero]
  intro zero
  have power := of.power
  rw [zero] at power
  cases power

omit [Trig K] in
/-- A sample of the buffer of a node's output, after a cycle. -/
theorem read_waves (wired : bp.Wired) {B : Nat} {g : GraphInstance K}
    (built : instantiate (compile bp B) sr = some g) {v : Nat} (hv : v < bp.size) (c n : Nat)
    {j : Nat} (hj : j < B) :
    (GraphInstance.process^[n + 1] g).read
        ((GraphInstance.process^[n + 1] g).nodeOutputView v c) j
      = (g.waves v c).sample (n * ((g.waves v c).rate * B) + j) := by
  have lists := GraphInstance.readView_waves wired built hv c n
  generalize GraphInstance.process^[n + 1] g = h at lists ⊢
  have size : h.sched.outStride.getD v 0 = (g.waves v c).rate * B := by
    have long := congrArg List.length lists
    simpa [GraphInstance.nodeOutputView, GraphInstance.readView, Wave.cycle] using long
  have lt : j < (g.waves v c).rate * B :=
    hj.trans_le (Nat.le_mul_of_pos_left B (one_le_rate wired built hv c))
  have sample := congrArg (·[j]?) lists
  simp only [GraphInstance.nodeOutputView, GraphInstance.readView, Wave.cycle, size,
    List.getElem?_map, List.getElem?_range lt, Option.map_some, Option.some.injEq] at sample
  exact sample

/-! ### Scores -/

/-- A rune without inputs and modulation, of nodes that work sample by sample, that nothing has
to be fed into, and the blueprint it is lowered to. -/
structure Score (K : Type) [Field K] [LinearOrder K] [FloorRing K] [Trig K] (sr B : Nat) where
  sigils : List (Definition K)
  fuel : Nat
  rune : Definition K
  bp : GraphBlueprint K
  inputs : ∀ stmt ∈ rune.body, ¬stmt.IsInput
  lowers : ∃ s s' : Lowerer K, lowerRune standardRegistry sigils
    (evalExpr standardRegistry sigils fuel) rune { s with bp := {} } = (.ok (), s') ∧ s'.bp = bp
  unmodulated : bp.paramConnections = []
  standard : ∀ nd ∈ bp.nodes, nd.SampleWise
  grain : ∀ v (nd : Node K), bp.nodes[v]? = some nd →
    nd.rateNum ∣ (compile bp B).nodeBlock.getD v 0
  closed : ∀ outs, runeMeaning sr sigils fuel rune = some outs → ∀ sh ∈ outs, sh.diagram.ins = 0

namespace Score

variable {B : Nat}

/-- What the rune means on a channel of a terminal. -/
def wave (p : Score K sr B) (i ch : Nat) : Wave K :=
  (p.bp.outputTerminals[i]?).elim .silence fun t =>
    hearing ((runeMeaning sr p.sigils p.fuel p.rune).getD []) t.name ch

variable [IsStrictOrderedRing K]

/-- An instance of the score plays it, cycle after cycle. -/
theorem cycles (p : Score K sr B) {g : GraphInstance K}
    (built : instantiate (compile p.bp B) sr = some g) (n i ch : Nat) {j : Nat} (hj : j < B) :
    let h := GraphInstance.process^[n + 1] g
    (if ch < h.outputTerminalChannels i then h.read (h.outputTerminalView i ch) j else 0)
      = (p.wave i ch).sample (n * ((p.wave i ch).rate * B) + j) := by
  obtain ⟨s, s', lowered, hbp⟩ := p.lowers
  obtain ⟨outs, asked, told, placed, shown, -⟩ := lowerRune_shows sr p.inputs lowered
  have fine := lowerRune_lowered standardRegistry_builtins lowered
  rw [hbp] at placed shown fine
  have sched : g.sched = compile p.bp B := (instantiate_eq_some built).2
  have sounding := fine.sounding p.unmodulated p.standard built
    (fun v nd here => sched ▸ p.grain v nd here)
  intro h
  have terminals : h.sched.bp.outputTerminals = p.bp.outputTerminals := by
    rw [GraphInstance.iterate_process_sched,
      (GraphInstance.instantiate_layout fine.wellFormed.wired built).2.1]
  unfold wave
  rw [told, Option.getD_some]
  cases ht : p.bp.outputTerminals[i]? with
  | none =>
      have none : h.outputTerminalChannels i = 0 := by
        rw [GraphInstance.outputTerminalChannels, terminals, ht]
      rw [none]
      rfl
  | some t =>
      rw [(placed.plays terminals).channels i t (terminals ▸ ht), Option.elim_some]
      split
      next hch =>
        rcases placed.hears fine.wellFormed shown sounding (p.closed outs told) ht hch terminals
          with ⟨v, d, hv, heard, view⟩ | ⟨silent, view⟩
        · rw [view, ← heard]
          exact read_waves fine.wellFormed.wired built hv d n hj
        · rw [view, silent]
          rfl
      next past =>
        rw [placed.hearing_past shown (List.mem_of_getElem? ht) (not_lt.mp past)]
        rfl

/-- Nothing is fed into it. -/
theorem unfed (p : Score K sr B) {g : GraphInstance K}
    (built : instantiate (compile p.bp B) sr = some g) :
    (compile p.bp B).bp.inputTerminals = [] := by
  obtain ⟨s, s', lowered, hbp⟩ := p.lowers
  obtain ⟨-, -, -, -, -, unfed⟩ := lowerRune_shows sr p.inputs lowered
  have fine := lowerRune_lowered standardRegistry_builtins lowered
  rw [hbp] at unfed fine
  have same := (GraphInstance.instantiate_layout fine.wellFormed.wired built).2.1
  rw [(instantiate_eq_some built).2] at same
  rw [same, unfed]

end Score

/-! `noise() : gain(2)`, in blocks of one frame. -/

noncomputable def quietLowered : Lowerer ℝ :=
  (lowerRune standardRegistry [] (evalExpr standardRegistry [] 3) quietRune {}).2

noncomputable def quietScore : Score ℝ 48000 1 where
  sigils := []
  fuel := 3
  rune := quietRune
  bp := quietLowered.bp
  inputs := by
    intro stmt mem
    obtain rfl := List.mem_singleton.mp mem
    exact id
  lowers := ⟨{}, _, rfl, rfl⟩
  unmodulated := rfl
  standard := by
    intro nd mem
    rcases List.mem_pair.mp (show nd ∈ [_, _] from mem) with rfl | rfl
    · exact ⟨"noise", {}, rfl, rfl⟩
    · exact ⟨"gain", { positional := [.number (Sample.cast 2)] }, rfl, rfl⟩
  grain := by
    intro v nd here
    have one : nd.rateNum = 1 := by
      rcases List.mem_pair.mp (show nd ∈ [_, _] from List.mem_of_getElem? here) with rfl | rfl
      · rfl
      · rfl
    rw [one]
    exact one_dvd _
  closed := by
    intro outs told sh mem
    obtain ⟨d, means, ins⟩ : ∃ d, runeMeaning 48000 [] 3 quietRune = some [⟨"out", 0, d⟩] ∧
        d.ins = 0 := ⟨_, rfl, rfl⟩
    obtain rfl := Option.some.inj (means.symm.trans told)
    obtain rfl := List.mem_singleton.mp mem
    exact ins

end Xrune.Lang
