import Xrune.Core.Builder
import Xrune.Nodes.Standard
import Xrune.Runtime.Api

/-!
# Runtime — the node a chain designates

`output(n)` records the node twice: in `output_node`, which the last call decides, and, when no
output terminal exists yet, as the terminal `out`.  Default options spawn from `out`, so the two
records agree only when the call that made the terminal names the node of the last one.

* `Grows` — names, nodes and output terminals only ever gain entries at the end.
* `Heard` — both records stand for one node, and a spawn with default options plays it.
* `output_heard_iff` — when that is so.
-/

namespace Xrune

variable {α : Type}

namespace GraphInstance

/-- `output_channels()`. -/
def outputChannels (g : GraphInstance α) : Nat :=
  if g.sched.bp.outputNode < 0 then 0 else g.sched.bp.outputsOf g.sched.bp.outputNode.toNat

/-- `output_view(ch)`. -/
def outputView (g : GraphInstance α) (ch : Nat) : BufferView :=
  g.nodeOutputView g.sched.bp.outputNode.toNat ch

end GraphInstance

namespace GraphBlueprint

/-- `bp'` has what `bp` has, and perhaps more behind it. -/
structure Grows (bp bp' : GraphBlueprint α) : Prop where
  nodes : bp.nodes <+: bp'.nodes
  names : bp.names <+: bp'.names
  terminals : bp.outputTerminals <+: bp'.outputTerminals

namespace Grows

variable {bp bp' bp'' : GraphBlueprint α}

theorem refl (bp : GraphBlueprint α) : bp.Grows bp :=
  ⟨List.prefix_refl _, List.prefix_refl _, List.prefix_refl _⟩

theorem trans (h : bp.Grows bp') (h' : bp'.Grows bp'') : bp.Grows bp'' :=
  ⟨h.nodes.trans h'.nodes, h.names.trans h'.names, h.terminals.trans h'.terminals⟩

/-- What a call adds is added behind the rest. -/
theorem adds {c : BuilderCall α} (h : Adds bp c bp') : bp.Grows bp' := by
  cases h with
  | add => exact ⟨List.prefix_append _ _, List.prefix_append _ _, List.prefix_refl _⟩
  | connect => exact ⟨List.prefix_refl _, List.prefix_refl _, List.prefix_refl _⟩
  | modulate => exact ⟨List.prefix_refl _, List.prefix_refl _, List.prefix_refl _⟩
  | output =>
    refine ⟨List.prefix_refl _, List.prefix_refl _, ?_⟩
    dsimp only
    split_ifs with h
    · rw [h]
      exact List.nil_prefix
    · exact List.prefix_refl _
  | inputTerminal => exact ⟨List.prefix_refl _, List.prefix_refl _, List.prefix_refl _⟩
  | outputTerminal => exact ⟨List.prefix_refl _, List.prefix_refl _, List.prefix_append _ _⟩

theorem getElem?_of_prefix {β : Type} {l l' : List β} (h : l <+: l') {i : Nat} {x : β}
    (hi : l[i]? = some x) : l'[i]? = some x := by
  obtain ⟨t, rfl⟩ := h
  rw [List.getElem?_append_left (List.getElem?_eq_some_iff.mp hi).1, hi]

theorem nodeChannels (h : bp.Grows bp') {i : Nat} (hi : i < bp.size) :
    bp'.nodeChannels i = bp.nodeChannels i := by
  rw [GraphBlueprint.nodeChannels, outputsOf_grown h.nodes hi, GraphBlueprint.nodeChannels]

end Grows

/-- Both records of the output stand for the node `n`: a spawn with default options takes the
terminal `out`, which is all of `n`'s outputs, and `output_view` reads the same views. -/
def Heard (bp : GraphBlueprint α) (n : String) : Prop :=
  ∃ i k : Nat, bp.names[i]? = some n ∧ bp.outputNode = (i : Int) ∧
    bp.outputTerminals[k]? = some ⟨"out", i, bp.nodeChannels i⟩ ∧
    (∀ (rt : Runtime α) (id : Nat) (r : Registered α) (life : LifetimePolicy α),
      rt.get id = .ok r → r.sched.bp = bp →
        ∃ plan, rt.planSpawn id { life } = .ok plan ∧ plan.sched = r.sched ∧
          plan.dest = .master ∧ plan.srcTerminal = k) ∧
    ∀ g : GraphInstance α, g.sched.bp = bp →
      g.outputTerminalChannels k = g.outputChannels ∧
        ∀ c < g.outputChannels, g.outputTerminalView k c = g.outputView c

end GraphBlueprint

/-- The calls that touch the output terminals. -/
def BuilderCall.designates : BuilderCall α → Bool
  | .output _ | .outputTerminal _ _ => true
  | _ => false

/-- `n` is the node of the last `output()`. -/
def LastOutput (calls : List (BuilderCall α)) (n : String) : Prop :=
  ∃ before after, calls = before ++ .output n :: after ∧ ∀ m, .output m ∉ after

/-- The first call that touches the output terminals is `output(n)`. -/
def FirstDesignates (calls : List (BuilderCall α)) (n : String) : Prop :=
  ∃ before after, calls = before ++ .output n :: after ∧ ∀ c ∈ before, c.designates = false

namespace BlueprintBuilder

open GraphBlueprint

/-- The calls of `calls` are added one after the other. -/
inductive Chain : GraphBlueprint α → List (BuilderCall α) → GraphBlueprint α → Prop where
  | nil (bp : GraphBlueprint α) : Chain bp [] bp
  | cons {bp bp' bp'' : GraphBlueprint α} {c : BuilderCall α} {calls : List (BuilderCall α)}
      (one : Adds bp c bp') (rest : Chain bp' calls bp'') : Chain bp (c :: calls) bp''

/-- Errors stay. -/
theorem errors_run (b : BlueprintBuilder α) (calls : List (BuilderCall α)) :
    b.errors <+: (b.run calls).errors := by
  induction calls generalizing b with
  | nil => exact List.prefix_refl _
  | cons c calls ih =>
    rw [run_cons]
    refine List.IsPrefix.trans ?_ (ih (b.call c))
    rcases b.call_cases c with ⟨msg, h⟩ | ⟨bp', -, h⟩
    · rw [h]
      exact List.prefix_append _ _
    · rw [h]

/-- In an error-free chain every call adds what it asks for. -/
theorem chain_of_clean (b : BlueprintBuilder α) (calls : List (BuilderCall α))
    (clean : (b.run calls).errors = []) : Chain b.bp calls (b.run calls).bp := by
  induction calls generalizing b with
  | nil => exact .nil b.bp
  | cons c calls ih =>
    rw [run_cons] at clean ⊢
    rcases b.call_cases c with ⟨msg, h⟩ | ⟨bp', hadds, h⟩
    · have hpre := errors_run (b.call c) calls
      rw [clean, h, List.prefix_nil] at hpre
      exact absurd hpre (by simp [error])
    · rw [h] at clean ⊢
      exact .cons hadds (ih { b with bp := bp' } clean)

namespace Chain

variable {bp bp' : GraphBlueprint α} {calls : List (BuilderCall α)}

theorem append {before after : List (BuilderCall α)} (h : Chain bp (before ++ after) bp') :
    ∃ mid, Chain bp before mid ∧ Chain mid after bp' := by
  induction before generalizing bp with
  | nil => exact ⟨bp, .nil bp, h⟩
  | cons c before ih =>
    cases h with
    | cons one rest =>
      obtain ⟨mid, h₁, h₂⟩ := ih rest
      exact ⟨mid, .cons one h₁, h₂⟩

theorem grows (h : Chain bp calls bp') : bp.Grows bp' := by
  induction h with
  | nil bp => exact .refl bp
  | cons one _ ih => exact (Grows.adds one).trans ih

theorem built (h : Chain bp calls bp') (B : bp.Built) : bp'.Built := by
  induction h with
  | nil bp => exact B
  | cons one _ ih => exact ih (B.adds one)

/-- Only `output()` sets the output node. -/
theorem outputNode (h : Chain bp calls bp') (quiet : ∀ m, .output m ∉ calls) :
    bp'.outputNode = bp.outputNode := by
  induction h with
  | nil bp => rfl
  | cons one _ ih =>
    rw [ih fun m hm => quiet m (List.mem_cons_of_mem _ hm)]
    cases one with
    | output => exact absurd List.mem_cons_self (quiet _)
    | _ => rfl

/-- Only the two designating calls touch the output terminals. -/
theorem terminals (h : Chain bp calls bp') (quiet : ∀ c ∈ calls, c.designates = false) :
    bp'.outputTerminals = bp.outputTerminals := by
  induction h with
  | nil bp => rfl
  | cons one _ ih =>
    rw [ih fun c hc => quiet c (List.mem_cons_of_mem _ hc)]
    cases one with
    | output => exact absurd (quiet _ List.mem_cons_self) (by simp [BuilderCall.designates])
    | outputTerminal => exact absurd (quiet _ List.mem_cons_self) (by simp [BuilderCall.designates])
    | _ => rfl

/-- Once there is a terminal, `out` is not made any more. -/
theorem out_mem (h : Chain bp calls bp') (some : bp.outputTerminals ≠ [])
    (named : ∀ node, .outputTerminal "out" node ∉ calls) {t : Terminal}
    (ht : t ∈ bp'.outputTerminals) (hname : t.name = "out") : t ∈ bp.outputTerminals := by
  induction h with
  | nil bp => exact ht
  | @cons bp mid bp'' c calls one rest ih =>
    have hgrows := Grows.adds one
    have hmid : mid.outputTerminals ≠ [] := by
      intro hnil
      have hpre := hgrows.terminals
      rw [hnil, List.prefix_nil] at hpre
      exact some hpre
    have hin := ih hmid (fun node hn => named node (List.mem_cons_of_mem _ hn)) ht
    cases one with
    | output =>
      dsimp only at hin
      rwa [if_neg some] at hin
    | @outputTerminal terminal node n found fresh =>
      rcases List.mem_append.mp hin with hin | hin
      · exact hin
      · obtain rfl := List.mem_singleton.mp hin
        dsimp only at hname
        subst hname
        exact absurd List.mem_cons_self (named node)
    | _ => exact hin

/-- A first designating call `output(m)` makes the terminal `out`, of all of `m`'s outputs. -/
theorem first_output {before after : List (BuilderCall α)} {m : String}
    (h : Chain {} (before ++ .output m :: after) bp)
    (quiet : ∀ c ∈ before, c.designates = false) :
    ∃ i, bp.names[i]? = some m ∧
      bp.outputTerminals[0]? = some ⟨"out", i, bp.nodeChannels i⟩ := by
  obtain ⟨bp₁, h₁, h₂⟩ := h.append
  have hnone : bp₁.outputTerminals = [] := h₁.terminals quiet
  have hbuilt : bp₁.Built := h₁.built .bare
  cases h₂ with
  | cons one rest =>
    cases one with
    | @output _ i found =>
      have hgrows := rest.grows
      have hsize : i < bp₁.size := hbuilt.lt_of_name found
      refine ⟨i, Grows.getElem?_of_prefix hgrows.names found, ?_⟩
      rw [hgrows.nodeChannels hsize]
      refine Grows.getElem?_of_prefix hgrows.terminals ?_
      rw [if_pos hnone]
      rfl

/-- A first designating call `output_terminal(x, y)` leaves no terminal `out` to be made. -/
theorem no_out {before after : List (BuilderCall α)} {x y : String}
    (h : Chain {} (before ++ .outputTerminal x y :: after) bp)
    (quiet : ∀ c ∈ before, c.designates = false) (hx : x ≠ "out")
    (named : ∀ node, .outputTerminal "out" node ∉ after) :
    ∀ t ∈ bp.outputTerminals, t.name ≠ "out" := by
  obtain ⟨bp₁, h₁, h₂⟩ := h.append
  have hnone : bp₁.outputTerminals = [] := h₁.terminals quiet
  intro t ht hname
  cases h₂ with
  | cons one rest =>
    cases one with
    | outputTerminal found fresh =>
      have hin := rest.out_mem (by simp) named ht hname
      simp only [hnone, List.nil_append, List.mem_singleton] at hin
      rw [hin] at hname
      exact hx hname

end Chain

end BlueprintBuilder

/-- A chain with a designating call has a first one. -/
theorem exists_first_designating {calls : List (BuilderCall α)}
    (h : ∃ c ∈ calls, c.designates = true) :
    ∃ before c after, calls = before ++ c :: after ∧ (∀ d ∈ before, d.designates = false) ∧
      c.designates = true := by
  induction calls with
  | nil => simp at h
  | cons c calls ih =>
    cases hc : c.designates with
    | true => exact ⟨[], c, calls, rfl, by simp, hc⟩
    | false =>
      obtain ⟨d, hd, hdes⟩ := h
      rcases List.mem_cons.mp hd with rfl | hd
      · rw [hc] at hdes
        cases hdes
      · obtain ⟨before, e, after, rfl, hquiet, he⟩ := ih ⟨d, hd, hdes⟩
        refine ⟨c :: before, e, after, rfl, fun x hx => ?_, he⟩
        rcases List.mem_cons.mp hx with rfl | hx
        · exact hc
        · exact hquiet x hx

namespace GraphBlueprint

variable {bp : GraphBlueprint α}

/-- Two places with one name are one place. -/
theorem index_of_nodup {l : List String} (h : l.Nodup) {i j : Nat} {n : String}
    (hi : l[i]? = some n) (hj : l[j]? = some n) : i = j := by
  obtain ⟨hil, rfl⟩ := List.getElem?_eq_some_iff.mp hi
  obtain ⟨hjl, heq⟩ := List.getElem?_eq_some_iff.mp hj
  exact ((List.Nodup.getElem_inj_iff h).mp heq).symm

/-- A first terminal `out` on the output node is what a default spawn plays. -/
theorem heard_of_first {i : Nat} {n : String} (hn : bp.names[i]? = some n)
    (hout : bp.outputNode = (i : Int))
    (hterm : bp.outputTerminals[0]? = some ⟨"out", i, bp.nodeChannels i⟩) : bp.Heard n := by
  refine ⟨i, 0, hn, hout, hterm, fun rt id r life hget hbp => ?_, fun g hg => ?_⟩
  · have hsource : Runtime.spawnSource bp (({ life } : SpawnOptions α)) = .ok 0 := by
      obtain ⟨ts, hts⟩ : ∃ ts, bp.outputTerminals = ⟨"out", i, bp.nodeChannels i⟩ :: ts := by
        cases hall : bp.outputTerminals with
        | nil => rw [hall] at hterm; cases hterm
        | cons t ts =>
          rw [hall, List.getElem?_cons_zero, Option.some.injEq] at hterm
          exact ⟨ts, by rw [hterm]⟩
      simp [Runtime.spawnSource, findOutputTerminal, hts, List.findIdx?_cons]
    refine ⟨⟨id, r.sched, life, .master, 0, []⟩, ?_, rfl, rfl, rfl⟩
    unfold Runtime.planSpawn
    rw [hget]
    simp only [bind, Except.bind, hbp, hsource]
    rfl
  · have hnonneg : ¬ (i : Int) < 0 := by omega
    have hchannels : g.outputChannels = bp.outputsOf i := by
      rw [GraphInstance.outputChannels, hg, hout, if_neg hnonneg, Int.toNat_natCast]
    have hlen : (bp.nodeChannels i).length = bp.outputsOf i := by
      rw [nodeChannels, List.length_map, List.length_range]
    constructor
    · rw [hchannels, GraphInstance.outputTerminalChannels, hg, hterm]
      dsimp only
      split_ifs with hempty
      · rfl
      · exact hlen
    · intro c hc
      rw [hchannels] at hc
      have hsome : (bp.nodeChannels i)[c]? = some ⟨i, c, false⟩ := by
        simp [nodeChannels, hc]
      have hne : (bp.nodeChannels i).isEmpty = false := by
        rw [List.isEmpty_eq_false_iff]
        intro hnil
        rw [hnil] at hsome
        cases hsome
      rw [GraphInstance.outputTerminalView, GraphInstance.outputView, hg, hterm, hout]
      simp [hne, List.getD, hsome]

end GraphBlueprint

/-- After an error-free chain without an `output_terminal` named `out`, what is heard is the
node of the last `output()` exactly when the first call among the `output`s and
`output_terminal`s is an `output` of that node. -/
theorem output_heard_iff (name : String) (calls : List (BuilderCall α)) (n : String)
    (clean : ((build name).run calls).errors = []) (last : LastOutput calls n)
    (named : ∀ node, .outputTerminal "out" node ∉ calls) :
    ((build name).run calls).bp.Heard n ↔ FirstDesignates calls n := by
  have chain := BlueprintBuilder.chain_of_clean (build name) calls clean
  generalize ((build name).run calls).bp = bp at chain ⊢
  have B := chain.built .bare
  -- the last `output(n)` leaves `n` in `output_node`
  have hlast : ∃ i : Nat, bp.names[i]? = some n ∧ bp.outputNode = (i : Int) := by
    obtain ⟨before, after, rfl, quiet⟩ := last
    obtain ⟨bp₁, -, h₂⟩ := chain.append
    cases h₂ with
    | cons one rest =>
      cases one with
      | @output _ i found =>
        exact ⟨i, GraphBlueprint.Grows.getElem?_of_prefix rest.grows.names found,
          rest.outputNode quiet⟩
  constructor
  · rintro ⟨i, k, hn, -, hterm, -⟩
    have hdes : ∃ c ∈ calls, c.designates = true := by
      obtain ⟨before, after, rfl, -⟩ := last
      exact ⟨.output n, by simp, rfl⟩
    obtain ⟨before, c, after, rfl, quiet, hc⟩ := exists_first_designating hdes
    cases c with
    | output m =>
      obtain ⟨j, hm, hfirst⟩ := chain.first_output quiet
      have hk : k = 0 := GraphBlueprint.index_of_nodup B.outputs.nodup (n := "out")
        (by rw [List.getElem?_map, hterm]; rfl) (by rw [List.getElem?_map, hfirst]; rfl)
      subst hk
      rw [hterm, Option.some.injEq, Terminal.mk.injEq] at hfirst
      rw [hfirst.2.1, hm, Option.some.injEq] at hn
      subst hn
      exact ⟨before, after, rfl, quiet⟩
    | outputTerminal x y =>
      have hx : x ≠ "out" := by
        rintro rfl
        exact named y (by simp)
      refine absurd rfl (chain.no_out quiet hx (fun node hnode => named node ?_)
        ⟨"out", i, bp.nodeChannels i⟩ (List.mem_of_getElem? hterm))
      exact List.mem_append_right _ (List.mem_cons_of_mem _ hnode)
    | _ => cases hc
  · rintro ⟨before, after, rfl, quiet⟩
    obtain ⟨i, hi, hout⟩ := hlast
    obtain ⟨j, hj, hfirst⟩ := chain.first_output quiet
    obtain rfl := GraphBlueprint.index_of_nodup B.nodup hi hj
    exact GraphBlueprint.heard_of_first hi hout hfirst

/-- Two constants, the first designated. -/
def twoNamed : List (BuilderCall ℚ) :=
  [.add "a" (Nodes.constant 1), .add "b" (Nodes.constant 2), .output "a"]

theorem output_heard_iff_twoNamed :
    ((build "two").run twoNamed).bp.Heard "a" ↔ FirstDesignates twoNamed "a" :=
  output_heard_iff "two" twoNamed "a" (by decide)
    ⟨[.add "a" (Nodes.constant 1), .add "b" (Nodes.constant 2)], [], rfl, by simp⟩
    (by simp [twoNamed])

/-- A second `output` leaves the terminal with the first node; a terminal made before the only
`output` leaves no terminal `out`. -/
theorem output_not_heard :
    (((build "two").run (twoNamed ++ [.output "b"])).errors = [] ∧
      LastOutput (twoNamed ++ [.output "b"]) "b" ∧
      (∀ node, .outputTerminal "out" node ∉ twoNamed ++ [.output "b"]) ∧
      ¬((build "two").run (twoNamed ++ [.output "b"])).bp.Heard "b") ∧
    let calls : List (BuilderCall ℚ) :=
      [.add "a" (Nodes.constant 1), .outputTerminal "x" "a", .output "a"]
    ((build "one").run calls).errors = [] ∧ LastOutput calls "a" ∧
      (∀ node, .outputTerminal "out" node ∉ calls) ∧ ¬((build "one").run calls).bp.Heard "a" := by
  refine ⟨⟨by decide, ⟨_, [], rfl, by simp⟩, by simp [twoNamed], ?_⟩,
    by decide, ⟨[.add "a" (Nodes.constant 1), .outputTerminal "x" "a"], [], rfl, by simp⟩,
    by simp, ?_⟩
  · rintro ⟨i, k, hn, hout, hterm, -⟩
    have hone : ((build "two").run (twoNamed ++ [.output "b"])).bp.outputTerminals =
        [⟨"out", 0, [⟨0, 0, false⟩]⟩] := by decide
    have hi : ((build "two").run (twoNamed ++ [.output "b"])).bp.outputNode = 1 := by decide
    have hmem := List.mem_of_getElem? hterm
    rw [hone, List.mem_singleton, Terminal.mk.injEq] at hmem
    rw [hi] at hout
    omega
  · rintro ⟨i, k, -, -, hterm, -⟩
    have hone : ((build "one").run [.add "a" (Nodes.constant (1 : ℚ)), .outputTerminal "x" "a",
        .output "a"]).bp.outputTerminals = [⟨"x", 0, [⟨0, 0, false⟩]⟩] := by decide
    have hmem := List.mem_of_getElem? hterm
    rw [hone, List.mem_singleton, Terminal.mk.injEq] at hmem
    exact absurd hmem.1 (by decide)

end Xrune
