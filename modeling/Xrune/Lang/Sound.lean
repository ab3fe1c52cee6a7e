import Xrune.Core.Wiring
import Xrune.Lang.Linked
import Xrune.Support.Errors

/-!
# Lang — sound lowerings

Every operation of the lowerer keeps its blueprint wired, its nodes among those the registry
makes, and its rune parameters and accumulated terminals at ports and channels that exist
(`Sound`).  A lowering is linked to itself over the list of its nodes, which only grows, so every
fragment it comes to refers to nodes that exist (`evalExpr_sound`).
-/

namespace Xrune.Lang

open Stateful

variable {α : Type} {reg : NodeRegistry α}

/-! ### The invariant -/

/-- The nodes of the blueprint; a later world has more. -/
structure Grown (α : Type) where
  nodes : List (Node α)

instance : Preorder (Grown α) where
  le w w' := w.nodes <+: w'.nodes
  le_refl _ := List.prefix_rfl
  le_trans _ _ _ := List.IsPrefix.trans

/-- The channel is an output of a node that exists. -/
def OutputExists (bp : GraphBlueprint α) (c : Chan) : Prop :=
  c.node < bp.size ∧ c.ch < bp.outputsOf c.node

/-- The target is a control port of a node that exists. -/
def PortExists (bp : GraphBlueprint α) (t : ParamTarget) : Prop :=
  t.node < bp.size ∧ t.port < bp.paramsOf t.node

structure Sound (reg : NodeRegistry α) (s : Lowerer α) : Prop where
  made : ∀ nd ∈ s.bp.nodes, reg.Makes nd
  names : s.bp.names.length = s.bp.nodes.length
  wired : s.bp.Wired
  inputs : ∀ t ∈ s.bp.inputTerminals, t.node < s.bp.size ∧ t.channels = []
  outputs : s.bp.outputTerminals = []
  ends : s.bp.inputNode = -1 ∧ s.bp.outputNode = -1
  targets : ∀ p ∈ s.bp.params, ∀ t ∈ p.targets, PortExists s.bp t
  placed : ∀ n acc, s.outTerminals n = some acc → ∀ kv ∈ acc.byIndex, OutputExists s.bp kv.2
  opened : s.outOrder ≠ [] → 0 < s.bp.size

theorem OutputExists.grown {bp bp' : GraphBlueprint α} (nodes : bp.nodes <+: bp'.nodes) {c : Chan}
    (h : OutputExists bp c) : OutputExists bp' c := by
  refine ⟨h.1.trans_le nodes.length_le, ?_⟩
  rw [GraphBlueprint.outputsOf, GraphBlueprint.getElem?_of_prefix nodes h.1]
  exact h.2

theorem PortExists.grown {bp bp' : GraphBlueprint α} (nodes : bp.nodes <+: bp'.nodes)
    {t : ParamTarget} (h : PortExists bp t) : PortExists bp' t := by
  refine ⟨h.1.trans_le nodes.length_le, ?_⟩
  rw [GraphBlueprint.paramsOf, GraphBlueprint.getElem?_of_prefix nodes h.1]
  exact h.2

theorem mem_of_mem_modify {β : Type} {l : List β} {i : Nat} {f : β → β} {b : β}
    (h : b ∈ l.modify i f) : b ∈ l ∨ ∃ c ∈ l, b = f c := by
  obtain ⟨j, hj⟩ := List.mem_iff_getElem?.mp h
  rw [List.getElem?_modify] at hj
  obtain ⟨c, hc, rfl⟩ := Option.map_eq_some_iff.mp hj
  have mem := List.mem_of_getElem? hc
  by_cases e : i = j
  · exact .inr ⟨c, mem, if_pos e⟩
  · exact .inl (by simpa only [if_neg e] using mem)

namespace Sound

variable {s s' : Lowerer α}

/-- What the invariant is about. -/
theorem of_eq (h : Sound reg s) (bp : s'.bp = s.bp) (terminals : s'.outTerminals = s.outTerminals)
    (order : s'.outOrder = s.outOrder) : Sound reg s' where
  made := bp ▸ h.made
  names := bp ▸ h.names
  wired := bp ▸ h.wired
  inputs := bp ▸ h.inputs
  outputs := bp ▸ h.outputs
  ends := bp ▸ h.ends
  targets := bp ▸ h.targets
  placed := by rw [terminals, bp]; exact h.placed
  opened := by rw [order, bp]; exact h.opened

theorem add (h : Sound reg s) {nd : Node α} (made : reg.Makes nd) (name : String) :
    Sound reg (s.add nd name) := by
  have nodes : s.bp.nodes <+: (s.add nd name).bp.nodes := List.prefix_append _ _
  exact
    { made := by
        intro nd' hnd'
        rcases List.mem_append.mp hnd' with hnd' | hnd'
        · exact h.made nd' hnd'
        · exact List.mem_singleton.mp hnd' ▸ made
      names := by
        show (s.bp.names ++ [name]).length = (s.bp.nodes ++ [nd]).length
        rw [List.length_append, List.length_append, h.names]
        rfl
      wired := h.wired.grown nodes rfl rfl
      inputs := fun t ht => ⟨(h.inputs t ht).1.trans_le nodes.length_le, (h.inputs t ht).2⟩
      outputs := h.outputs
      ends := h.ends
      targets := fun p hp t ht => (h.targets p hp t ht).grown nodes
      placed := fun n acc hn kv hkv => (h.placed n acc hn kv hkv).grown nodes
      opened := fun some => (h.opened some).trans_le nodes.length_le }

theorem connect (h : Sound reg s) {bp : GraphBlueprint α} {src out dst inp : Nat}
    (one : s.bp.connect src out dst inp = some bp) : Sound reg { s with bp } := by
  have wired := h.wired.connect one
  obtain ⟨-, rfl⟩ := GraphBlueprint.connect_eq_some.mp one
  exact ⟨h.made, h.names, wired, h.inputs, h.outputs, h.ends, h.targets, h.placed, h.opened⟩

theorem connectParam (h : Sound reg s) {bp : GraphBlueprint α} {src out dst param : Nat}
    (one : s.bp.connectParam src out dst param = some bp) : Sound reg { s with bp } := by
  have wired := h.wired.connectParam one
  obtain ⟨-, rfl⟩ := GraphBlueprint.connectParam_eq_some.mp one
  exact ⟨h.made, h.names, wired, h.inputs, h.outputs, h.ends, h.targets, h.placed, h.opened⟩

theorem declare (h : Sound reg s) (p : BlueprintParam α) (none : p.targets = []) (n : String) :
    Sound reg { s with
      runeParams := s.runeParams ++ [n], bp := { s.bp with params := s.bp.params ++ [p] } } where
  made := h.made
  names := h.names
  wired := ⟨h.wired.audio, h.wired.oneDriver, h.wired.modulation, h.wired.oneModulator⟩
  inputs := h.inputs
  outputs := h.outputs
  ends := h.ends
  targets := by
    intro q hq t ht
    rcases List.mem_append.mp hq with hq | hq
    · exact h.targets q hq t ht
    · rw [List.mem_singleton.mp hq, none] at ht
      cases ht
  placed := h.placed
  opened := h.opened

theorem bindParam (h : Sound reg s) {t : ParamTarget} (port : PortExists s.bp t) (n : String) :
    Sound reg (s.bindParam n t) := by
  rw [Lowerer.bindParam]
  cases s.bp.findRuneParam n with
  | none => exact h
  | some pi =>
      exact
        { made := h.made
          names := h.names
          wired := ⟨h.wired.audio, h.wired.oneDriver, h.wired.modulation, h.wired.oneModulator⟩
          inputs := h.inputs
          outputs := h.outputs
          ends := h.ends
          targets := by
            intro p hp u hu
            rcases mem_of_mem_modify hp with hp | ⟨q, hq, rfl⟩
            · exact h.targets p hp u hu
            · rcases List.mem_append.mp hu with hu | hu
              · exact h.targets q hq u hu
              · exact List.mem_singleton.mp hu ▸ port
          placed := h.placed
          opened := h.opened }

theorem addInput (h : Sound reg s) {idx : Nat} (hi : idx < s.bp.size) (n : String) :
    Sound reg { s with bp := s.bp.addInputTerminal n idx } where
  made := h.made
  names := h.names
  wired := ⟨h.wired.audio, h.wired.oneDriver, h.wired.modulation, h.wired.oneModulator⟩
  inputs := by
    intro t ht
    rcases List.mem_append.mp ht with ht | ht
    · exact h.inputs t ht
    · obtain rfl := List.mem_singleton.mp ht
      exact ⟨hi, rfl⟩
  outputs := h.outputs
  ends := h.ends
  targets := h.targets
  placed := h.placed
  opened := h.opened

theorem empty (s : Lowerer α) : Sound reg ({ s with bp := {} } : Lowerer α).reset where
  made := nofun
  names := rfl
  wired := .bare rfl rfl
  inputs := nofun
  outputs := rfl
  ends := ⟨rfl, rfl⟩
  targets := nofun
  placed := nofun
  opened h := absurd rfl h

end Sound

/-! ### The link -/

/-- A lowering and itself, over the nodes it has made. -/
def Link.sound (reg : NodeRegistry α) : Link (Lowerer α) (Lowerer α) Diagnostic (Grown α) where
  rel w s t := s = t ∧ s.bp.nodes = w.nodes ∧ Sound reg s
  stop x y := y = (some x.1, x.2)
  early h := nomatch h

variable {w : Grown α} {β : Type}

/-- A computation that keeps the invariant is linked to itself. -/
theorem linked_of_keeps {Q : Grown α → β → β → Prop} {m : LowerM α β}
    (h : ∀ s s' b, s.bp.nodes = w.nodes → Sound reg s → m s = (.ok b, s') →
      Sound reg s' ∧ w.nodes <+: s'.bp.nodes ∧ Q ⟨s'.bp.nodes⟩ b b) :
    Linked (Link.sound reg) w Q m m := by
  rintro s _ ⟨rfl, nodes, sound⟩
  rcases run : m s with ⟨b | e, s'⟩
  · obtain ⟨sound', le, q⟩ := h s s' b nodes sound run
    exact ⟨⟨s'.bp.nodes⟩, le, ⟨rfl, rfl, sound'⟩, q⟩
  · rfl

/-- A change of the state that keeps the invariant and the nodes. -/
theorem linked_modify {f : Lowerer α → Lowerer α}
    (h : ∀ s, s.bp.nodes = w.nodes → Sound reg s →
      Sound reg (f s) ∧ (f s).bp.nodes = s.bp.nodes) :
    Linked (Link.sound reg) w (fun _ _ _ => True) (modify f) (modify f) := by
  refine linked_of_keeps fun s s' b nodes sound run => ?_
  cases run
  obtain ⟨sound', same⟩ := h s nodes sound
  exact ⟨sound', by rw [same, nodes], trivial⟩

/-- Naming a node changes the counters at most. -/
theorem nameOf_run {p type nm : String} {s s' : Lowerer α}
    (run : nameOf p type s = (.ok nm, s')) : ∃ counters, s' = { s with counters } := by
  rw [nameOf] at run
  split_ifs at run
  · cases run
    exact ⟨_, rfl⟩
  · cases run
    exact ⟨_, rfl⟩

theorem add_keeps {s : Lowerer α} (nodes : s.bp.nodes = w.nodes) (sound : Sound reg s)
    {nd : Node α} (made : reg.Makes nd) (name : String) :
    Sound reg (s.add nd name) ∧ w.nodes <+: (s.add nd name).bp.nodes ∧
      (s.add nd name).bp.nodes[s.bp.size]? = some nd := by
  refine ⟨sound.add made name, nodes ▸ List.prefix_append _ _, ?_⟩
  show (s.bp.nodes ++ [nd])[s.bp.nodes.length]? = some nd
  rw [List.getElem?_append_right le_rfl, Nat.sub_self]
  rfl

theorem connect_linked (out inp : Chan) (pos : Pos) :
    Linked (Link.sound reg) w (fun _ _ _ => True) (wire out inp pos) (wire out inp pos) := by
  refine linked_of_keeps fun s s' b nodes sound run => ?_
  obtain ⟨_, _, got, run⟩ := bind_ok.mp run
  cases got
  cases one : s.bp.connect out.node out.ch inp.node inp.ch with
  | none =>
      rw [one] at run
      cases run
  | some bp =>
      rw [one] at run
      cases run
      refine ⟨sound.connect one, ?_, trivial⟩
      obtain ⟨-, rfl⟩ := GraphBlueprint.connect_eq_some.mp one
      exact nodes ▸ List.prefix_rfl

theorem bindParam_linked {t : ParamTarget} (port : ∃ nd, w.nodes[t.node]? = some nd ∧
      t.port < nd.paramsCount) (n : String) :
    Linked (Link.sound reg) w (fun _ _ _ => True) (modify fun s => s.bindParam n t)
      (modify fun s => s.bindParam n t) := by
  refine linked_modify fun s nodes sound => ⟨sound.bindParam ?_ n, ?_⟩
  · obtain ⟨nd, hnd, hport⟩ := port
    rw [← nodes] at hnd
    refine ⟨(List.getElem?_eq_some_iff.mp hnd).1, ?_⟩
    rw [GraphBlueprint.paramsOf, hnd]
    exact hport
  · rw [Lowerer.bindParam]
    cases s.bp.findRuneParam n with
    | none => rfl
    | some pi => rfl

theorem Grown.later {w w' : Grown α} (le : w ≤ w') {i : Nat} {nd : Node α}
    (h : w.nodes[i]? = some nd) : w'.nodes[i]? = some nd := by
  obtain ⟨l, hl⟩ := (le : w.nodes <+: w'.nodes)
  rw [← hl, List.getElem?_append_left (List.getElem?_eq_some_iff.mp h).1, h]

theorem bindScalar_linked {nd : Node α} {i : Nat} (made : w.nodes[i]? = some nd)
    (port : 0 < nd.paramsCount) (e : Option (Expr α)) :
    Linked (Link.sound reg) w (fun _ _ _ => True) (bindScalar e i) (bindScalar e i) := by
  refine Linked.get.bind fun w' le s t rel => ?_
  obtain ⟨rfl, -⟩ := rel
  cases s.bindable e with
  | none => exact .pure trivial
  | some text => exact bindParam_linked ⟨nd, Grown.later le made, port⟩ text

theorem portOf_lt {s : Lowerer α} {nd : Node α} {i : Nat} (made : s.bp.nodes[i]? = some nd)
    {name : String} {pos port : Nat} (h : s.portOf i name pos = some port) :
    port < nd.paramsCount := by
  rw [Lowerer.portOf] at h
  split_ifs at h with hn hp
  · rw [GraphBlueprint.findParam, made] at h
    exact (List.findIdx?_eq_some_iff_findIdx_eq.mp h).1
  · obtain rfl := Option.some.inj h
    have hp := hp.2
    rwa [GraphBlueprint.paramsOf, made] at hp

theorem bindArgument_linked {nd : Node α} {i : Nat} (made : w.nodes[i]? = some nd) (pos : Nat)
    (a : Argument α) :
    Linked (Link.sound reg) w (fun _ _ _ => True) (bindArgument i pos a) (bindArgument i pos a) := by
  unfold bindArgument
  split
  · rename_i pname _
    refine Linked.get.bind fun w' le s t rel => ?_
    obtain ⟨rfl, nodes, -⟩ := rel
    have made := Grown.later le made
    refine .ite (fun _ => ?_) fun _ => .pure trivial
    cases port : s.portOf i a.1 pos with
    | none => exact .pure trivial
    | some k => exact bindParam_linked ⟨nd, made, portOf_lt (nodes ▸ made) port⟩ pname
  · exact .pure trivial

theorem bindRuneParams_linked {nd : Node α} {i : Nat} (made : w.nodes[i]? = some nd)
    (args : List (Argument α)) : Linked (Link.sound reg) w (fun _ _ _ => True)
      (bindRuneParams args i) (bindRuneParams args i) := by
  refine (Linked.foldlM (Q := fun _ (m n : Nat) => m = n) (E := fun _ (a b : Argument α) => a = b)
    (fun _ => id) (List.forall₂_same.mpr fun _ _ => rfl) rfl ?_).bind fun _ _ _ _ _ => .pure trivial
  rintro w' le m _ a _ rfl rfl
  exact (bindArgument_linked (Grown.later le made) m a).bind fun _ _ _ _ _ => .pure rfl

/-- The correspondence of a lowering with itself: what exists. -/
def Transfer.sound (reg : NodeRegistry α) : Transfer reg (Link.sound reg) where
  inp w c d := c = d ∧ ∃ nd, w.nodes[c.node]? = some nd ∧ c.ch < nd.inputsCount
  outp w c d := c = d ∧ ∃ nd, w.nodes[c.node]? = some nd ∧ c.ch < nd.outputsCount
  target _ := Eq
  made w nd i j := i = j ∧ w.nodes[i]? = some nd
  name _ := Eq
  laterInp := by
    rintro w w' le c _ ⟨rfl, nd, hnd, hc⟩
    exact ⟨rfl, nd, Grown.later le hnd, hc⟩
  laterOut := by
    rintro w w' le c _ ⟨rfl, nd, hnd, hc⟩
    exact ⟨rfl, nd, Grown.later le hnd, hc⟩
  laterMade := by
    rintro w w' le nd i _ ⟨rfl, hnd⟩
    exact ⟨rfl, Grown.later le hnd⟩
  laterName _ := id
  halts h e := by
    obtain ⟨rfl, -⟩ := h
    rfl
  noName _ := rfl
  port := by
    rintro w nd i _ ⟨rfl, hnd⟩ ch hch
    exact ⟨rfl, nd, hnd, hch⟩
  channel := by
    rintro w nd i _ ⟨rfl, hnd⟩ ch hch
    exact ⟨rfl, nd, hnd, hch⟩
  fragment := by
    rintro w nd i _ ⟨rfl, hnd⟩
    refine Linked.get.bind fun w' le s t rel => .pure ?_
    obtain ⟨rfl, nodes, -⟩ := rel
    have made := Grown.later le hnd
    exact nodeFragment_rel (nodes ▸ made) (nodes ▸ made) (fun ch hch => ⟨rfl, nd, made, hch⟩)
      fun ch hch => ⟨rfl, nd, made, hch⟩
  ofInp h := h.1
  ofMade := by
    rintro w nd i _ ⟨rfl, -⟩ ch
    rfl
  add := by
    rintro w type args nd made p _ rfl g
    refine linked_of_keeps fun s s' b nodes sound run => ?_
    obtain ⟨nm, s₁, named, run⟩ := bind_ok.mp run
    obtain ⟨counters, rfl⟩ := nameOf_run named
    cases run
    have sound₁ : Sound reg { s with counters } := sound.of_eq rfl rfl rfl
    obtain ⟨sound', le, got⟩ := add_keeps (s := { s with counters }) nodes sound₁
      ⟨type, args, made⟩ nm
    exact ⟨sound', le, rfl, got⟩
  wire := by
    rintro w c _ i _ ⟨rfl, -⟩ rfl pos
    exact connect_linked c i pos
  bindScalar := by
    rintro w nd i _ ⟨rfl, made⟩ port e
    exact bindScalar_linked made port e
  bindArguments := by
    rintro w nd i _ ⟨rfl, made⟩ args
    exact bindRuneParams_linked made args
  countUse text := linked_modify fun s _ sound => by
    split_ifs
    · exact ⟨sound.of_eq rfl rfl rfl, rfl⟩
    · exact ⟨sound, rfl⟩
  prefixes := by
    rintro w s t ⟨rfl, -⟩
    rfl
  qualified := by
    rintro w s t ⟨rfl, -⟩ n
    rfl
  enter := by
    rintro w p _ rfl
    exact linked_modify fun s _ sound => ⟨sound.of_eq rfl rfl rfl, rfl⟩

theorem connectParam_linked (pos : Pos) (target : PortPath) (c : Chan) :
    Linked (Link.sound reg) w (fun _ _ _ => True) (modulateTo pos target c)
      (modulateTo pos target c) := by
  refine ((Transfer.sound reg).orTrap_linked _).bind ?_
  rintro w₁ - first _ ⟨-, rfl⟩
  refine ((Transfer.sound reg).orTrap_linked _).bind ?_
  rintro w₂ - port _ ⟨-, rfl⟩
  refine linked_of_keeps fun s s' b nodes sound run => ?_
  obtain ⟨_, _, got, run⟩ := bind_ok.mp run
  cases got
  generalize String.intercalate "." _ = node at run
  cases hni : s.bp.findNode node with
  | none =>
      rw [hni] at run
      cases run
  | some ni =>
      rw [hni] at run
      dsimp only at run
      cases hpi : s.bp.findParam ni port with
      | none =>
          rw [hpi] at run
          cases run
      | some pi =>
          rw [hpi] at run
          dsimp only at run
          cases one : s.bp.connectParam c.node c.ch ni pi with
          | none =>
              rw [one] at run
              cases run
          | some bp =>
              rw [one] at run
              cases run
              refine ⟨sound.connectParam one, ?_, trivial⟩
              obtain ⟨-, rfl⟩ := GraphBlueprint.connectParam_eq_some.mp one
              exact nodes ▸ List.prefix_rfl

theorem Transfer.sound_ofRune (reg : NodeRegistry α) : (Transfer.sound reg).OfRune where
  modulate := by
    rintro w c _ ⟨rfl, -⟩ pos target
    exact connectParam_linked pos target c
  explicitWire := by
    rintro w c _ ⟨rfl, -⟩ pos node i
    refine Linked.get.bind fun w' _ s t rel => ?_
    obtain ⟨rfl, -⟩ := rel
    cases s.bp.findNode node with
    | none => exact (Transfer.sound reg).fail_linked pos _
    | some ni => exact connect_linked _ _ pos
  input := by
    rintro w nd i _ ⟨rfl, made⟩ n
    refine linked_modify fun s nodes sound => ⟨sound.addInput ?_ n, rfl⟩
    exact (List.getElem?_eq_some_iff.mp (nodes ▸ made)).1
  addNamed := by
    rintro w args nd made n
    refine linked_of_keeps fun s s' b nodes sound run => ?_
    cases run
    obtain ⟨sound', le, got⟩ := add_keeps nodes sound ⟨"bus", args, made⟩ n
    exact ⟨sound', le, rfl, got⟩
  openTerminal := by
    rintro w c _ ⟨rfl, nd, hnd, -⟩ n
    refine linked_modify fun s nodes sound => ?_
    split_ifs with old
    · exact ⟨sound, rfl⟩
    · have some : 0 < s.bp.size :=
        (Nat.zero_le _).trans_lt (List.getElem?_eq_some_iff.mp (nodes ▸ hnd)).1
      refine ⟨⟨sound.made, sound.names, sound.wired, sound.inputs, sound.outputs, sound.ends,
        sound.targets, fun m acc hm kv hkv => ?_, fun _ => some⟩, rfl⟩
      dsimp only at hm
      split_ifs at hm
      · cases hm
        cases hkv
      · exact sound.placed m acc hm kv hkv
  placeChannel := by
    rintro w c _ ⟨rfl, nd, hnd, hc⟩ pos n k
    refine linked_of_keeps fun s s' b nodes sound run => ?_
    obtain ⟨_, _, got, run⟩ := bind_ok.mp run
    cases got
    split_ifs at run
    · cases run
    cases run
    have exists_ : OutputExists s.bp c := by
      have hnd := nodes ▸ hnd
      refine ⟨(List.getElem?_eq_some_iff.mp hnd).1, ?_⟩
      rw [GraphBlueprint.outputsOf, hnd]
      exact hc
    refine ⟨⟨sound.made, sound.names, sound.wired, sound.inputs, sound.outputs, sound.ends,
      sound.targets, fun m acc hm kv hkv => ?_, sound.opened⟩, nodes ▸ List.prefix_rfl, trivial⟩
    dsimp only at hm
    split_ifs at hm with e
    · obtain rfl := Option.some.inj hm
      rcases List.mem_append.mp hkv with hkv | hkv
      · cases old : s.outTerminals n with
        | none =>
            rw [old] at hkv
            cases hkv
        | some acc =>
            rw [old] at hkv
            exact sound.placed n acc old kv hkv
      · obtain rfl := List.mem_singleton.mp hkv
        exact exists_
    · exact sound.placed m acc hm kv hkv

theorem declares_sound (reg : NodeRegistry α) : Transfer.Declares (Link.sound reg) :=
  fun _ n dv => linked_modify fun _ _ sound =>
    ⟨sound.declare { name := n, defaultValue := dv } rfl n, rfl⟩

/-! ### The outputs of a rune -/

theorem channels_exist {bp : GraphBlueprint α} {acc : OutAcc}
    (placed : ∀ kv ∈ acc.byIndex, OutputExists bp kv.2) :
    ∀ c ∈ acc.channels, c.silent = false → c.node < bp.size ∧ c.ch < bp.outputsOf c.node := by
  intro c hc heard
  obtain ⟨i, -, rfl⟩ := List.mem_map.mp hc
  cases found : acc.find i with
  | none =>
      rw [found] at heard
      cases heard
  | some d =>
      obtain ⟨kv, hkv, rfl⟩ := Option.map_eq_some_iff.mp found
      exact placed kv (List.mem_of_find?_eq_some hkv)

/-- What `finalize_outputs` does to the blueprint, up to some of the terminals. -/
structure Finishing (s₀ s : Lowerer α) : Prop where
  bp : s.bp = { s₀.bp with
    outputTerminals := s.bp.outputTerminals, outputNode := s.bp.outputNode }
  terminals : s.outTerminals = s₀.outTerminals
  outputs : s₀.bp.TerminalsExist s.bp.outputTerminals
  outputNode : s₀.bp.NodeOrNone s.bp.outputNode

/-- A silent channel names the first node, which exists. -/
theorem channel_node_lt {bp : GraphBlueprint α} (pos : 0 < bp.size) {acc : OutAcc}
    (placed : ∀ kv ∈ acc.byIndex, OutputExists bp kv.2) {c : TerminalSource}
    (hc : c ∈ acc.channels) : c.node < bp.size := by
  by_cases heard : c.silent = false
  · exact (channels_exist placed c hc heard).1
  · obtain ⟨i, -, rfl⟩ := List.mem_map.mp hc
    cases found : acc.find i with
    | none => exact pos
    | some d =>
        rw [found] at heard
        exact absurd rfl heard

theorem Finishing.terminal {s₀ s : Lowerer α} (h : Finishing s₀ s) (pos : 0 < s₀.bp.size)
    (placed : ∀ n acc, s₀.outTerminals n = some acc → ∀ kv ∈ acc.byIndex,
      OutputExists s₀.bp kv.2) (name : String) : Finishing s₀ (s.finalizeTerminal name) := by
  have own : ∀ kv ∈ ((s.outTerminals name).getD {}).byIndex, OutputExists s₀.bp kv.2 := by
    rw [h.terminals]
    cases old : s₀.outTerminals name with
    | none => exact fun _ hkv => nomatch hkv
    | some acc => exact placed name acc old
  have outputs (o : Int) (ho : s₀.bp.NodeOrNone o) :
      Finishing s₀ { s with bp := { s.bp.addOutputTerminal name
        ((s.outTerminals name).getD {}).channels with outputNode := o } } := by
    refine ⟨?_, h.terminals, ⟨?_, ?_⟩, ho⟩
    · rw [GraphBlueprint.addOutputTerminal, h.bp]
    · intro t ht
      rcases List.mem_append.mp ht with ht | ht
      · exact h.outputs.node t ht
      · obtain rfl := List.mem_singleton.mp ht
        show ((((s.outTerminals name).getD {}).channels.head?.map _).getD 0) < _
        cases first : ((s.outTerminals name).getD {}).channels.head? with
        | none => exact pos
        | some c => exact channel_node_lt pos own (List.mem_of_head? first)
    · intro t ht
      rcases List.mem_append.mp ht with ht | ht
      · exact h.outputs.channel t ht
      · obtain rfl := List.mem_singleton.mp ht
        exact channels_exist own
  rw [Lowerer.finalizeTerminal]
  split
  · rename_i c found
    split_ifs
    · have mem := List.mem_of_find?_eq_some found
      exact outputs c.node (.inr ⟨Int.natCast_nonneg _, channel_node_lt pos own mem⟩)
    · exact outputs s.bp.outputNode h.outputNode
  · exact outputs s.bp.outputNode h.outputNode

theorem finalizeOutputs_finishes {s : Lowerer α} (sound : Sound reg s) :
    Finishing s s.finalizeOutputs := by
  have start : Finishing s s :=
    ⟨rfl, rfl, by rw [sound.outputs]; exact ⟨nofun, nofun⟩, .inl sound.ends.2⟩
  have keeps : ∀ (names : List String), (names ≠ [] → 0 < s.bp.size) → ∀ s₁, Finishing s s₁ →
      Finishing s (names.foldl Lowerer.finalizeTerminal s₁) := by
    intro names
    induction names with
    | nil => exact fun _ _ h => h
    | cons n names ih =>
        intro some s₁ h
        exact ih (fun _ => some (List.cons_ne_nil _ _)) _
          (h.terminal (some (List.cons_ne_nil _ _)) sound.placed n)
  exact keeps s.outOrder sound.opened s start

/-! ### Lowered blueprints -/

variable [Sample α] (B : Builtins reg) {sigils : List (Definition α)}

include B

/-- **Evaluation refers to what exists**, in every state and every environment that does. -/
theorem evalExpr_sound (fuel : Nat) :
    (Transfer.sound reg).Evals (evalExpr reg sigils fuel) (evalExpr reg sigils fuel) :=
  (Transfer.sound reg).evalExpr_linked B
    (fun _ _ _ _ _ => (Transfer.sound_ofRune reg).toByName) fuel

/-- What a lowered blueprint has besides being well formed. -/
structure Lowered (reg : NodeRegistry α) (bp : GraphBlueprint α) : Prop where
  wellFormed : bp.WellFormed
  made : ∀ nd ∈ bp.nodes, reg.Makes nd
  names : bp.names.length = bp.nodes.length
  targets : ∀ p ∈ bp.params, ∀ t ∈ p.targets, PortExists bp t
  inputChannels : ∀ t ∈ bp.inputTerminals, t.channels = []

omit [Sample α] B in
theorem Finishing.lowered {s₀ s : Lowerer α} (h : Finishing s₀ s) (sound : Sound reg s₀) :
    Lowered reg s.flagPartial.bp := by
  have flagged : s.flagPartial.bp =
      { s₀.bp with
        outputTerminals := s.bp.outputTerminals
        outputNode := s.bp.outputNode
        params := s.flagPartial.bp.params } :=
    congrArg (fun bp : GraphBlueprint α => { bp with params := s.flagPartial.bp.params }) h.bp
  have targets : ∀ p ∈ s.flagPartial.bp.params, ∀ t ∈ p.targets, PortExists s₀.bp t := by
    intro p hp
    obtain ⟨q, hq, rfl⟩ := List.mem_map.mp hp
    rw [h.bp] at hq
    exact sound.targets q hq
  rw [flagged]
  exact
    { wellFormed :=
        { wired := ⟨sound.wired.audio, sound.wired.oneDriver, sound.wired.modulation,
            sound.wired.oneModulator⟩
          inputs := ⟨fun t ht => (sound.inputs t ht).1, fun t ht c hc => by
            rw [(sound.inputs t ht).2] at hc
            cases hc⟩
          outputs := ⟨h.outputs.node, h.outputs.channel⟩
          inputNode := .inl sound.ends.1
          outputNode := h.outputNode }
      made := sound.made
      names := sound.names
      targets := targets
      inputChannels := fun t ht => (sound.inputs t ht).2 }

theorem lowerRune_lowered {fuel : Nat} {r : Definition α} {s s' : Lowerer α}
    (run : lowerRune reg sigils (evalExpr reg sigils fuel) r { s with bp := {} } = (.ok (), s')) :
    Lowered reg s'.bp := by
  obtain ⟨_, s₁, cleared, run⟩ := bind_ok.mp run
  cases cleared
  obtain ⟨sc, s₂, body, run⟩ := bind_ok.mp run
  obtain ⟨_, s₃, finalized, run⟩ := bind_ok.mp run
  cases finalized
  obtain ⟨_, s₄, flagged, run⟩ := bind_ok.mp run
  cases flagged
  have start : (Link.sound reg).rel ⟨[]⟩ ({ s with bp := {} } : Lowerer α).reset
      ({ s with bp := {} } : Lowerer α).reset := ⟨rfl, rfl, .empty s⟩
  have linked : Linked (Link.sound reg) ⟨[]⟩ (Transfer.sound reg).Scopes
      (runeBody reg sigils (evalExpr reg sigils fuel) r)
      (runeBody reg sigils (evalExpr reg sigils fuel) r) :=
    (Transfer.sound reg).runeBody_linked (evalExpr_sound B fuel) (Transfer.sound_ofRune reg)
      (declares_sound reg) r
  have ends := linked _ _ start
  rw [body] at ends
  obtain ⟨w, -, ⟨-, -, sound⟩, -⟩ := ends
  have finishes := finalizeOutputs_finishes sound
  split_ifs at run
  · cases run
    exact finishes.lowered sound
  · cases run

/-! ### Every environment on the way -/

/-- The fragments of the environment refer to ports and channels that exist. -/
def EnvExists (env : Env α) (bp : GraphBlueprint α) : Prop :=
  ∀ n f, env n = some (.block f) →
    (∀ c ∈ f.ins, c.node < bp.size ∧ c.ch < bp.inputsOf c.node) ∧ ∀ c ∈ f.outs, OutputExists bp c

open Classical in
/-- The evaluator, which traps in an environment that refers to what does not exist. -/
noncomputable def guarded (eval : Eval α) : Eval α := fun e env preferred => do
  let s ← get
  if EnvExists env s.bp then eval e env preferred else trap

/-- `eval_expr` with each of its calls guarded. -/
noncomputable def evalGuarded (reg : NodeRegistry α) (sigils : List (Definition α)) :
    Nat → Eval α
  | 0        => fun _ _ _ => timeout
  | fuel + 1 => guarded (evalStep reg sigils (evalGuarded reg sigils fuel))

omit [Sample α] B in
theorem envExists_of_envs {w : Grown α} {env env' : Env α} (h : (Transfer.sound reg).Envs w env env')
    {bp : GraphBlueprint α} (nodes : bp.nodes = w.nodes) : EnvExists env bp := by
  intro n f hf
  have rel := h n
  rw [hf] at rel
  generalize env' n = o at rel
  cases rel with
  | some rel =>
      cases rel with
      | block rel =>
          refine ⟨(forall_mem_iff_of_forall₂ (Q := fun _ => True) (fun c d h => iff_true_intro ?_)
            rel.ins).mpr fun _ _ => trivial, (forall_mem_iff_of_forall₂ (Q := fun _ => True)
            (fun c d h => iff_true_intro ?_) rel.outs).mpr fun _ _ => trivial⟩
          · obtain ⟨-, nd, hnd, hc⟩ := h
            rw [← nodes] at hnd
            refine ⟨(List.getElem?_eq_some_iff.mp hnd).1, ?_⟩
            rwa [GraphBlueprint.inputsOf, hnd]
          · obtain ⟨-, nd, hnd, hc⟩ := h
            rw [← nodes] at hnd
            refine ⟨(List.getElem?_eq_some_iff.mp hnd).1, ?_⟩
            rwa [GraphBlueprint.outputsOf, hnd]

theorem evalGuarded_linked :
    ∀ fuel, (Transfer.sound reg).Evals (evalGuarded reg sigils fuel) (evalExpr reg sigils fuel)
  | 0        => fun _ _ _ _ _ _ _ _ => .halt fun _ _ rel => (Transfer.sound reg).halts rel _
  | fuel + 1 => by
      intro w e env env' p p' h hp s t rel
      have step : (Transfer.sound reg).Evals
          (evalStep reg sigils (evalGuarded reg sigils fuel))
          (evalStep reg sigils (evalExpr reg sigils fuel)) :=
        (Transfer.sound reg).evalStep_linked B (evalGuarded_linked fuel)
          fun _ _ _ _ _ => (Transfer.sound_ofRune reg).toByName
      have ok : EnvExists env s.bp := envExists_of_envs h rel.2.1
      have passed : evalGuarded reg sigils (fuel + 1) e env p s =
          evalStep reg sigils (evalGuarded reg sigils fuel) e env p s := congrFun (if_pos ok) s
      rw [passed]
      exact step w e env env' p p' h hp s t rel

/-- Guarding the evaluator changes nothing of a rune's lowering. -/
theorem lowerRune_guarded (fuel : Nat) (r : Definition α) (s : Lowerer α) :
    lowerRune reg sigils (evalGuarded reg sigils fuel) r { s with bp := {} }
      = lowerRune reg sigils (evalExpr reg sigils fuel) r { s with bp := {} } := by
  have start : (Link.sound reg).rel ⟨[]⟩ ({ s with bp := {} } : Lowerer α).reset
      ({ s with bp := {} } : Lowerer α).reset := ⟨rfl, rfl, .empty s⟩
  have linked : Linked (Link.sound reg) ⟨[]⟩ (Transfer.sound reg).Scopes
      (runeBody reg sigils (evalGuarded reg sigils fuel) r)
      (runeBody reg sigils (evalExpr reg sigils fuel) r) :=
    (Transfer.sound reg).runeBody_linked (evalGuarded_linked B fuel) (Transfer.sound_ofRune reg)
      (declares_sound reg) r
  have ends := linked _ _ start
  have cleared (eval : Eval α) : lowerRune reg sigils eval r { s with bp := {} } =
      (runeBody reg sigils eval r >>= fun sc => do
        modify Lowerer.finalizeOutputs
        modify Lowerer.flagPartial
        if sc.haveOut = some true then return ()
        else fail r.pos ("rune '" ++ r.name ++ "' has no 'out'"))
          ({ s with bp := {} } : Lowerer α).reset := rfl
  rw [cleared, cleared]
  rcases hg : runeBody reg sigils (evalGuarded reg sigils fuel) r _ with ⟨sc | e, s₁⟩ <;>
    rcases hp : runeBody reg sigils (evalExpr reg sigils fuel) r _ with ⟨sc' | e', s₂⟩ <;>
    rw [hg, hp] at ends
  · obtain ⟨w, -, ⟨rfl, -⟩, scopes⟩ := ends
    rw [bind_of_ok hg, bind_of_ok hp, scopes.haveOut]
  · exact ends.elim
  · cases ends
  · obtain ⟨he, rfl⟩ := Prod.mk.inj ends
    obtain rfl := Option.some.inj he
    rw [bind_of_stop hg, bind_of_stop hp]

/-- `lower` with the guarded evaluator. -/
noncomputable def lowerGuarded (fuel : Nat) (prog : Program α) (reg : NodeRegistry α) :
    Option (LowerResult α) :=
  (prog.runes.foldlM (lowerTurn reg prog.sigils (evalGuarded reg prog.sigils fuel)) ({}, {})).map
    Prod.snd

theorem lowerGuarded_eq (fuel : Nat) (prog : Program α) :
    lowerGuarded fuel prog reg = lower fuel prog reg := by
  have turns : lowerTurn reg prog.sigils (evalGuarded reg prog.sigils fuel) =
      lowerTurn reg prog.sigils (evalExpr reg prog.sigils fuel) := by
    funext acc r
    rw [lowerTurn, lowerTurn, lowerRune_guarded B fuel r acc.1]
  rw [lowerGuarded, lower, turns]

theorem lower_lowered {fuel : Nat} {prog : Program α} {res : LowerResult α}
    (h : lower fuel prog reg = some res) : ∀ b ∈ res.blueprints, Lowered reg b.bp := by
  obtain ⟨⟨s, _⟩, run, rfl⟩ := Option.map_eq_some_iff.mp h
  refine foldlM_some_keeps (P := fun acc : Lowerer α × LowerResult α =>
    ∀ b ∈ acc.2.blueprints, Lowered reg b.bp) ?_ (fun _ hb => absurd hb List.not_mem_nil) run
  intro acc r acc' kept turn
  rcases (lowerTurn_eq_some _ _ _).mp turn with ⟨s', run, rfl⟩ | ⟨d, s', run, rfl⟩
  · intro b hb
    rcases List.mem_append.mp hb with hb | hb
    · exact kept b hb
    · obtain rfl := List.mem_singleton.mp hb
      exact lowerRune_lowered B run
  · exact kept

/-! ### The standard registry -/

omit B

variable [Trig α]

theorem standardRegistry_builtins : Builtins (standardRegistry : NodeRegistry α) where
  gain args nd h := by
    obtain rfl := Option.some.inj h
    exact ⟨Nat.one_pos, Nat.one_pos⟩
  op type ht args nd h := by
    simp only [List.mem_cons, List.not_mem_nil, or_false] at ht
    rcases ht with rfl | rfl | rfl | rfl | rfl | rfl | rfl <;> obtain rfl := Option.some.inj h <;>
      exact Nat.one_pos
  up2 args nd h := by
    obtain rfl := Option.some.inj h
    exact Nat.one_pos

/-- **Lowered blueprints are well formed**: they are wired, their terminals, the targets of
their rune parameters and their end nodes exist, and every node has its name.  On the way no
expression is evaluated in an environment whose fragments refer to what does not exist. -/
theorem lower_wellFormed {fuel : Nat} {prog : Program α} {res : LowerResult α}
    (h : lower fuel prog standardRegistry = some res) :
    (∀ b ∈ res.blueprints, b.bp.WellFormed ∧ b.bp.names.length = b.bp.nodes.length ∧
      ∀ p ∈ b.bp.params, ∀ t ∈ p.targets, PortExists b.bp t) ∧
    lowerGuarded fuel prog standardRegistry = some res := by
  constructor
  · intro b hb
    have lowered := lower_lowered standardRegistry_builtins h b hb
    exact ⟨lowered.wellFormed, lowered.names, lowered.targets⟩
  · rw [lowerGuarded_eq standardRegistry_builtins, h]

/-- `sigil halved(x) sine(x) * 0.5 end  rune r(f = 220) out halved(f) end`. -/
noncomputable def halvedSine : Program ℝ where
  sigils := [⟨"halved", [⟨"x", none, {}⟩],
    [.wire {} (.binary {} .star (.call {} "sine" [("", .ident {} "x")]) (.number {} (Sample.ratio 1 2)))], {}⟩]
  runes := [⟨"r", [⟨"f", some (.number {} (Sample.cast 220)), {}⟩],
    [.out {} (.call {} "halved" [("", .ident {} "f")]) "" (-1)], {}⟩]

theorem halvedSine_wellFormed : ∃ res, lower 4 halvedSine standardRegistry = some res ∧
    (∀ b ∈ res.blueprints, b.bp.WellFormed ∧ b.bp.names.length = b.bp.nodes.length ∧
      ∀ p ∈ b.bp.params, ∀ t ∈ p.targets, PortExists b.bp t) ∧
    lowerGuarded 4 halvedSine standardRegistry = some res :=
  ⟨_, rfl, lower_wellFormed rfl⟩

end Xrune.Lang
