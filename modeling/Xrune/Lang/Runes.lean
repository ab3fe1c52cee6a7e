import Xrune.Lang.Denotes

/-!
# Lang — an instance plays what its rune means

A rune that is lowered places fragments that tell the diagrams it shows (`runeBody_shows`).  An
instance of its blueprint then plays at the terminals, cycle after cycle, what the rune means
(`plays_meaning`).
-/

namespace Xrune.Lang

open Stateful

variable {K : Type} [Field K] [LinearOrder K] [FloorRing K] [Trig K] {sr : Nat}
  {asked : List Placement} {s s' : Lowerer K}

/-- The placement is of what is shown. -/
structure Showing.At (sr : Nat) (bp : GraphBlueprint K) (sh : Showing K) (p : Placement) :
    Prop where
  terminal : p.terminal = sh.terminal
  base : p.base = sh.base
  plays : ∃ ins, Tells sr bp ⟨ins, p.sources⟩ sh.diagram

omit [Trig K] in
theorem Showing.At.mono {bp bp' : GraphBlueprint K} {sh : Showing K} {p : Placement}
    (h : sh.At sr bp p) (more : Leads bp bp') : sh.At sr bp' p := by
  obtain ⟨ins, tells⟩ := h.plays
  exact ⟨h.terminal, h.base, ins, tells.mono more⟩

/-- What a rune's body has done. -/
structure Shows (sr : Nat) (asked : List Placement) (outs : List (Showing K)) (ρ : Meanings K)
    (sc : Scope K) (s : Lowerer K) : Prop where
  holds : Holds asked s
  once : NoTwice asked
  shown : List.Forall₂ (Showing.At sr s.bp) outs asked
  scope : EnvIs sr s.bp sc.env ρ
  rune : sc.haveOut.isSome
  unfed : s.bp.inputTerminals = []

omit [Field K] [LinearOrder K] [FloorRing K] [Trig K] in
theorem Lowerer.put_bp (s : Lowerer K) (p : Placement) : (s.put p).bp = s.bp := by
  rw [Lowerer.put, Lowerer.hold, Lowerer.opened]
  split_ifs <;> rfl

omit [Trig K] in
/-- The lowerer holds as many placements, whatever it evaluates. -/
theorem Shows.grown {outs : List (Showing K)} {ρ ρ' : Meanings K} {sc sc' : Scope K}
    (h : Shows sr asked outs ρ sc s) (holds : Holds asked s') (more : Leads s.bp s'.bp)
    (scope : EnvIs sr s'.bp sc'.env ρ') (rune : sc'.haveOut = sc.haveOut) :
    Shows sr asked outs ρ' sc' s' :=
  ⟨holds, h.once, h.shown.imp fun _ _ at_ => at_.mono more, scope, rune ▸ h.rune,
    more.inputs.trans h.unfed⟩

omit [Field K] [LinearOrder K] [FloorRing K] [Trig K] in
/-- Finalizing touches neither nodes nor connections. -/
theorem finalizeOutputs_leads (s : Lowerer K) : Leads s.bp s.finalizeOutputs.bp := by
  have turn (s : Lowerer K) (n : String) : Leads s.bp (s.finalizeTerminal n).bp := by
    rw [Lowerer.finalizeTerminal]
    split
    · dsimp only
      split_ifs <;> exact ⟨List.prefix_rfl, List.Subset.refl _, rfl⟩
    · exact ⟨List.prefix_rfl, List.Subset.refl _, rfl⟩
  exact List.foldlRecOn (motive := fun s₁ => Leads s.bp s₁.bp) s.outOrder _ (Leads.refl s.bp)
    fun s₁ h n _ => h.trans (turn s₁ n)

omit [Trig K] in
/-- What is shown is played: what is closed can be read at its terminal, from the buffers of its
channels. -/
theorem Placed.reads {bp : GraphBlueprint K} {outs : List (Showing K)} (placed : Placed asked bp)
    (fine : bp.WellFormed) (shown : List.Forall₂ (Showing.At sr bp) outs asked)
    {shows : Nat → Nat → Wave K} (sounding : Sounding sr bp shows) {sh : Showing K}
    (mem : sh ∈ outs) (closed : sh.diagram.ins = 0) :
    ∃ i t, bp.outputTerminals[i]? = some t ∧ t.name = sh.terminal ∧ ∀ c < sh.diagram.outs,
      ∃ v d, v < bp.size ∧ shows v d = sh.diagram.play (fun _ => none) c ∧
        ∀ g : GraphInstance K, g.sched.bp.outputTerminals = bp.outputTerminals →
          g.outputTerminalView i (sh.base + c) = g.nodeOutputView v d := by
  -- its placement, and the terminal of that
  obtain ⟨k, hk, rfl⟩ := List.mem_iff_getElem.mp mem
  obtain ⟨len, pairs⟩ := List.forall₂_iff_get.mp shown
  have at_ : Showing.At sr bp outs[k] (asked.get ⟨k, len ▸ hk⟩) := pairs k hk (len ▸ hk)
  obtain ⟨ins, tells⟩ := at_.plays
  generalize outs[k] = sh at *
  have mem : asked.get ⟨k, len ▸ hk⟩ ∈ asked := List.get_mem _ _
  generalize asked.get ⟨k, len ▸ hk⟩ = p at *
  obtain ⟨t, ht, name⟩ := (placed.terminal p.terminal).mpr ⟨p, mem, rfl⟩
  obtain ⟨i, hi⟩ := List.mem_iff_getElem?.mp ht
  refine ⟨i, t, hi, name.trans at_.terminal, fun c hc => ?_⟩
  -- the channel it is played on
  have source : p.sources[c]? = some (p.sources.get ⟨c, tells.gives.symm ▸ hc⟩) :=
    List.getElem?_eq_getElem _
  generalize p.sources.get _ = x at source
  have there := List.mem_of_getElem? (placed.source t ht p mem name.symm c x source)
  refine ⟨x.node, x.ch, (fine.outputs.channel t ht _ there rfl).1, ?_, ?_⟩
  · obtain rfl : ins = [] := List.length_eq_zero_iff.mp (tells.takes.trans closed)
    exact tells.channel source bp shows (.refl _) sounding
  · intro g same
    rw [← at_.base]
    exact (placed.plays same).source i t (same ▸ hi) p mem name.symm c x source

/-- The waves of an instance of a lowered blueprint. -/
theorem Lowered.sounding {reg : NodeRegistry K} {bp : GraphBlueprint K} (fine : Lowered reg bp)
    (unmodulated : bp.paramConnections = []) (standard : ∀ nd ∈ bp.nodes, nd.SampleWise) {B : Nat}
    {g : GraphInstance K} (built : instantiate (compile bp B) sr = some g)
    (grain : ∀ v (nd : Node K), bp.nodes[v]? = some nd →
      nd.rateNum ∣ g.sched.nodeBlock.getD v 0) : Sounding sr bp g.waves where
  wired := fine.wellFormed.wired
  heard := GraphInstance.waves_heard fine.wellFormed.wired built
    (fun _ nd here => (standard nd (List.mem_of_getElem? here)).realises) grain
  unmodulated := unmodulated

/-! ### The body of a rune -/

section Body

variable [IsStrictOrderedRing K] {sigils : List (Definition K)} {fuel : Nat}
  {outs : List (Showing K)} {ρ : Meanings K} {sc : Scope K}

/-- A parameter of a rune means its default. -/
theorem bindRuneParam_shows (h : Shows sr asked outs ρ sc s) (p : Param K) :
    Ensures (bindRuneParam (evalExpr standardRegistry sigils fuel) sc p) s fun sc' s' =>
      ∃ ρ', (p.defaultValue.bind fun e => (numberOf (meaning sr sigils fuel) e ρ).map fun n =>
        ρ.set p.name (.number n)) = some ρ' ∧ Shows sr asked outs ρ' sc' s' := by
  intro sc' s' run
  have holds : Holds asked s' := h.holds.emits (bindRuneParam_emits
    (evalExpr_emits (Account.outputs standardRegistry) sigils fuel) sc p) rfl run
  rw [bindRuneParam] at run
  cases given : p.defaultValue with
  | none =>
      rw [given] at run
      cases run
  | some e =>
      rw [given] at run
      obtain ⟨n, s₁, number, declared⟩ := bind_ok.mp run
      obtain ⟨w, hn⟩ := evalNumber_denotes (evalExpr_denotes sigils fuel) h.scope e n s₁ number
      have more : Leads s.bp s'.bp := by
        cases declared
        exact w.trans ⟨List.prefix_rfl, List.Subset.refl _, rfl⟩
      have is : (Value.number n).Is sr s'.bp (.number n) := rfl
      refine ⟨ρ.set p.name (.number n), by rw [Option.bind_some, hn]; rfl, ?_⟩
      cases declared
      exact h.grown holds more ((h.scope.mono more).set is p.name) rfl

theorem doOut_shows (h : Shows sr asked outs ρ sc s) (pos : Pos) (e : Expr K) (terminal : String)
    (index : Int) :
    Ensures (doOut standardRegistry (evalExpr standardRegistry sigils fuel) pos e terminal index sc)
      s fun sc' s' => ∃ d p, signalOf (meaning sr sigils fuel) e ρ = some d ∧
        Shows sr (asked ++ [p]) (outs ++ [⟨if terminal = "" then "out" else terminal,
          if index < 0 then 0 else index.toNat, d⟩]) ρ sc' s' := by
  intro sc' s' run
  obtain ⟨f, s₁, frag, rest⟩ := bind_ok.mp run
  have holds : Holds asked s₁ := h.holds.emits
    (evalFragment_emits (evalExpr_emits (Account.outputs standardRegistry) sigils fuel) e) rfl frag
  obtain ⟨w, d, hd, tells⟩ :=
    evalFragment_denotes (evalExpr_denotes sigils fuel) h.scope e f s₁ frag
  by_cases silent : f.outs = []
  · rw [if_pos silent] at rest
    cases rest
  by_cases reserved : terminal = "out"
  · rw [if_neg silent, if_pos reserved] at rest
    cases rest
  rw [if_neg silent, if_neg reserved] at rest
  let p : Placement := ⟨if terminal = "" then "out" else terminal,
    if index < 0 then 0 else index.toNat, f.outs⟩
  obtain ⟨yes, no⟩ := holds.places h.once pos p
  obtain ⟨_, s₂, opens, rest⟩ := bind_ok.mp rest
  obtain ⟨_, s₃, places, last⟩ := bind_ok.mp rest
  cases opens
  cases last
  by_cases once : NoTwice (asked ++ [p])
  · obtain ⟨-, placed⟩ := yes once
    obtain ⟨-, rfl⟩ := Prod.mk.inj (placed.symm.trans places)
    have more : Leads s.bp (s₁.put p).bp := (s₁.put_bp p).symm ▸ w
    have tells : Tells sr (s₁.put p).bp ⟨f.ins, p.sources⟩ d := (s₁.put_bp p).symm ▸ tells
    refine ⟨d, p, hd, holds.put silent, once, ?_, ?_, ?_, more.inputs.trans h.unfed⟩
    · exact List.rel_append (h.shown.imp fun _ _ at_ => at_.mono more)
        (.cons ⟨rfl, rfl, f.ins, tells⟩ .nil)
    · split_ifs <;> exact h.scope.mono more
    · split_ifs <;> first | rfl | exact h.rune
  · obtain ⟨-, d, s₄, stops⟩ := no once
    cases stops.symm.trans places

/-- The turn of a rune's body. -/
theorem doStmt_shows (h : Shows sr asked outs ρ sc s) {stmt : Stmt K} (input : ¬stmt.IsInput) :
    Ensures (doStmt standardRegistry sigils (evalExpr standardRegistry sigils fuel) stmt sc) s
      fun r s' => ∃ outs' ρ' asked', showStep (meaning sr sigils fuel) (outs, ρ) stmt
        = some (outs', ρ') ∧ Shows sr asked' outs' ρ' r.2 s' := by
  by_cases out : stmt.IsOut
  · cases stmt with
    | out pos e terminal index =>
        refine .ite (fun sigil => ?_) fun _ => ?_
        · exact absurd (Option.isNone_iff_eq_none.mp sigil) (Option.isSome_iff_ne_none.mp h.rune)
        · refine (doOut_shows h pos e terminal index).bind fun sc' s₁ ⟨d, p, hd, shows⟩ => ?_
          exact .pure ⟨_, ρ, _, by rw [showStep, hd]; rfl, shows⟩
    | _ => exact out.elim
  · have plain : showStep (meaning sr sigils fuel) (outs, ρ) stmt
        = (statementOf (meaning sr sigils fuel) stmt ρ).map fun r => (outs, r.2) := by
      cases stmt with
      | out pos e terminal index => exact absurd trivial out
      | _ => rfl
    intro r s' run
    obtain ⟨w, m, ρ', hm, -, scope, same⟩ := doStmt_denotes (evalExpr_denotes sigils fuel) h.scope
      (fun _ => input) (fun _ => out) r s' run
    refine ⟨outs, ρ', asked, by rw [plain, hm]; rfl, h.grown ?_ w scope same⟩
    have emits := evalExpr_emits (Account.outputs standardRegistry) sigils fuel
    exact h.holds.emits (doStmt_emits emits (fun _ _ _ _ => ⟨rfl, rfl, rfl⟩)
      fun _ mine => absurd mine out) rfl run

theorem runeBody_shows (r : Definition K) (inputs : ∀ stmt ∈ r.body, ¬stmt.IsInput)
    (s : Lowerer K) :
    Ensures (runeBody standardRegistry sigils (evalExpr standardRegistry sigils fuel) r)
      ({ s with bp := {} } : Lowerer K).reset fun _ s' => ∃ outs asked,
        runeMeaning sr sigils fuel r = some outs ∧ Holds asked s' ∧ NoTwice asked ∧
          List.Forall₂ (Showing.At sr s'.bp) outs asked ∧ s'.bp.inputTerminals = [] := by
  -- the parameters
  have params : Ensures (r.params.foldlM (bindRuneParam (evalExpr standardRegistry sigils fuel))
      ⟨fun _ => none, [], some false⟩) ({ s with bp := {} } : Lowerer K).reset fun sc s' =>
        ∃ ρ, defaultsOf (meaning sr sigils fuel) r.params = some ρ ∧
          Shows sr [] [] ρ sc s' := by
    refine Ensures.foldlM (b := ⟨fun _ => none, [], some false⟩)
      (I := fun done (sc : Scope K) (s' : Lowerer K) => ∃ ρ,
        defaultsOf (meaning sr sigils fuel) done = some ρ ∧ Shows sr [] [] ρ sc s')
      ⟨fun _ => none, rfl, Holds.start s, fun _ => List.nodup_nil, .nil, fun _ => .none, rfl, rfl⟩
      ?_
    intro done p sc s₁ _ ⟨ρ, hρ, h⟩
    refine (bindRuneParam_shows h p).mono fun sc' s₂ ⟨ρ', one, h'⟩ => ⟨ρ', ?_, h'⟩
    rw [defaultsOf] at hρ ⊢
    rw [List.foldlM_append, hρ]
    show (p.defaultValue.bind _).bind some = _
    rw [one]
    rfl
  refine params.bind fun sc s₁ ⟨ρ, hρ, h⟩ => ?_
  refine (Ensures.foldlM (I := fun done (r : Value K × Scope K) (s' : Lowerer K) =>
    ∃ outs ρ' asked, done.foldlM (showStep (meaning sr sigils fuel)) ([], ρ) = some (outs, ρ') ∧
      Shows sr asked outs ρ' r.2 s') ⟨[], ρ, [], rfl, h⟩ ?_).bind ?_
  · intro done stmt r s₂ mem ⟨outs, ρ', asked, so, h⟩
    refine (doStmt_shows h (inputs stmt mem)).mono fun r' s₃ ⟨outs', ρ'', asked', one, h'⟩ => ?_
    refine ⟨outs', ρ'', asked', ?_, h'⟩
    rw [List.foldlM_append, so]
    show (showStep (meaning sr sigils fuel) (outs, ρ') stmt).bind some = _
    rw [one]
    rfl
  · intro r' s₂ ⟨outs, ρ', asked, so, h⟩
    refine .pure ⟨outs, asked, ?_, h.holds, h.once, h.shown, h.unfed⟩
    rw [runeMeaning, hρ, Option.bind_some, so]
    rfl

/-- What a lowered rune shows, and where. -/
theorem lowerRune_shows (sr : Nat) {r : Definition K}
    (inputs : ∀ stmt ∈ r.body, ¬stmt.IsInput) {s s' : Lowerer K}
    (lowered : lowerRune standardRegistry sigils (evalExpr standardRegistry sigils fuel) r
      { s with bp := {} } = (.ok (), s')) :
    ∃ outs asked, runeMeaning sr sigils fuel r = some outs ∧ Placed asked s'.bp ∧
      List.Forall₂ (Showing.At sr s'.bp) outs asked ∧ s'.bp.inputTerminals = [] := by
  obtain ⟨_, s₁, cleared, run⟩ := bind_ok.mp lowered
  cases cleared
  obtain ⟨sc, s₂, body, run⟩ := bind_ok.mp run
  obtain ⟨_, s₃, finalized, run⟩ := bind_ok.mp run
  cases finalized
  obtain ⟨_, s₄, flagged, run⟩ := bind_ok.mp run
  cases flagged
  have last : s' = s₂.finalizeOutputs.flagPartial := by
    by_cases out : sc.haveOut = some true
    · rw [if_pos out] at run
      cases run
      rfl
    · rw [if_neg out] at run
      cases run
  subst last
  obtain ⟨outs, asked, told, holds, once, shown, unfed⟩ := runeBody_shows r inputs s sc s₂ body
  have placed := holds.placed once
  have more : Leads s₂.bp s₂.finalizeOutputs.flagPartial.bp :=
    (finalizeOutputs_leads s₂).trans ⟨List.prefix_rfl, List.Subset.refl _, rfl⟩
  exact ⟨outs, asked, told,
    ⟨placed.names, placed.terminal, placed.width, placed.source, placed.gap, placed.outputNode⟩,
    shown.imp fun _ _ at_ => at_.mono more, more.inputs.trans unfed⟩

end Body

/-- `rune r() out noise() : gain(2) end`. -/
noncomputable def quietRune : Definition ℝ :=
  ⟨"r", [], [.out {} (.binary {} .colon (.call {} "noise" [])
    (.call {} "gain" [("", .number {} (Sample.cast 2))])) "" (-1)], {}⟩

end Xrune.Lang
