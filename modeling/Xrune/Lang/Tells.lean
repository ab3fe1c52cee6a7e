import Xrune.Lang.Account
import Xrune.Lang.Meaning
import Xrune.Nodes.Sounds

/-!
# Lang — fragments tell diagrams

A fragment tells a diagram when, in whatever the blueprint is completed to, the channels of the
fragment show what the diagram makes of the waves that reach its ports (`Tells`).  Each operation
of the lowerer on fragments tells what its operator means of what its operands tell: arithmetic
(`arith_ensures`) and the connection algebra (`seqFragments_ensures`, `splitFragments_ensures`,
`mergeFragments_ensures`).

Completions are asked for, not the blueprint itself, since the ports of a fragment are wired later
than it is made, by whoever uses it.
-/

namespace Xrune.Lang

open Stateful

variable {K : Type}

/-! ### Completions -/

/-- `bp` is on the way to `bp'`, which has its nodes in their places, its connections, and no more
inputs. -/
structure Leads (bp bp' : GraphBlueprint K) : Prop where
  nodes : bp.nodes <+: bp'.nodes
  connections : bp.connections ⊆ bp'.connections
  inputs : bp'.inputTerminals = bp.inputTerminals

theorem Leads.refl (bp : GraphBlueprint K) : Leads bp bp :=
  ⟨List.prefix_rfl, List.Subset.refl _, rfl⟩

theorem Leads.trans {bp bp' bp'' : GraphBlueprint K} (h : Leads bp bp') (h' : Leads bp' bp'') :
    Leads bp bp'' :=
  ⟨h.nodes.trans h'.nodes, fun _ hc => h'.connections (h.connections hc),
    h'.inputs.trans h.inputs⟩

theorem Leads.node {bp bp' : GraphBlueprint K} (h : Leads bp bp') {i : Nat} {nd : Node K}
    (here : bp.nodes[i]? = some nd) : bp'.nodes[i]? = some nd :=
  (GraphBlueprint.getElem?_of_prefix h.nodes (List.getElem?_eq_some_iff.mp here).1).trans here

/-- What the lowerer does, it adds. -/
def Account.leads (reg : NodeRegistry K) : Account reg where
  rel _ s s' := Leads s.bp s'.bp
  refl _ := .refl _
  trans := .trans
  bound _ _ := ⟨List.prefix_append _ _, List.Subset.refl _, rfl⟩
  fresh _ _ _ _ := ⟨List.prefix_append _ _, List.Subset.refl _, rfl⟩
  connected s src out dst inp one := by
    obtain ⟨-, rfl⟩ := GraphBlueprint.connect_eq_some.mp one
    exact ⟨List.prefix_rfl, List.subset_append_left _ _, rfl⟩
  driven s src out dst param one := by
    obtain ⟨-, rfl⟩ := GraphBlueprint.connectParam_eq_some.mp one
    exact ⟨List.prefix_rfl, List.Subset.refl _, rfl⟩
  bindsParam s name t := by
    rw [Lowerer.bindParam]
    cases s.bp.findRuneParam name with
    | none => exact .refl _
    | some pi => exact ⟨List.prefix_rfl, List.Subset.refl _, rfl⟩
  uses _ _ := .refl _
  declares _ _ _ := ⟨List.prefix_rfl, List.Subset.refl _, rfl⟩
  entered _ _ h := h

/-- What binds no name adds all the same. -/
theorem ensures_leads (reg : NodeRegistry K) {β : Type} {m : LowerM K β} {l : List String}
    (emits : ∀ pre, Emits (Account.leads reg) pre m l) (s : Lowerer K) :
    Ensures m s fun _ s' => Leads s.bp s'.bp :=
  fun b s' run => (emits s.namePrefix s b s' rfl run).2

section Waves

variable [Sample K] {sr : Nat}

/-- The waves of a wired blueprint none of whose ports is modulated. -/
structure Sounding (sr : Nat) (bp : GraphBlueprint K) (shown : Nat → Nat → Wave K) : Prop where
  wired : bp.Wired
  heard : bp.Resounds shown sr
  unmodulated : bp.paramConnections = []

/-- `P` is so of the waves of whatever the blueprint is completed to. -/
def Known (sr : Nat) (bp : GraphBlueprint K)
    (P : GraphBlueprint K → (Nat → Nat → Wave K) → Prop) : Prop :=
  ∀ bp' shown, Leads bp bp' → Sounding sr bp' shown → P bp' shown

theorem Known.mono {bp bp' : GraphBlueprint K} {P : GraphBlueprint K → (Nat → Nat → Wave K) → Prop}
    (h : Known sr bp P) (more : Leads bp bp') : Known sr bp' P :=
  fun bp'' shown w S => h bp'' shown (more.trans w) S

/-- What a channel shows. -/
def Chan.shows (shown : Nat → Nat → Wave K) (c : Chan) : Wave K := shown c.node c.ch

/-- What reaches a port. -/
def Chan.gets (bp : GraphBlueprint K) (shown : Nat → Nat → Wave K) (c : Chan) :
    Option (Wave K) := bp.waveInto shown c.node c.ch

/-- A node's outputs are told by its inputs. -/
theorem known_node {bp : GraphBlueprint K} {i c : Nat} {nd : Node K}
    (here : bp.nodes[i]? = some nd) (hc : c < nd.outputsCount) :
    Known sr bp fun bp' shown => shown i c = (nd.diagram sr).play (bp'.waveInto shown i) c := by
  intro bp' shown w S
  have free : bp'.waveOnto shown i = fun _ => none := by
    funext q
    rw [GraphBlueprint.waveOnto, GraphBlueprint.portDriver, S.unmodulated]
    rfl
  rw [S.heard i nd (w.node here) c hc, free]
  rfl

/-- A connected port gets what the channel shows. -/
theorem known_connection {bp : GraphBlueprint K} (out inp : Chan)
    (mem : ⟨out.node, out.ch, inp.node, inp.ch⟩ ∈ bp.connections) :
    Known sr bp fun bp' shown => inp.gets bp' shown = some (out.shows shown) := by
  intro bp' shown w S
  rw [Chan.gets, GraphBlueprint.waveInto, S.wired.inputDriver (w.connections mem)]
  rfl

/-! ### Fragments and values -/

/-- The fragment does what the diagram says. -/
structure Tells (sr : Nat) (bp : GraphBlueprint K) (f : Fragment) (d : Diagram (Wave K)) :
    Prop where
  takes : f.ins.length = d.ins
  gives : f.outs.length = d.outs
  plays : Known sr bp fun bp' shown =>
    d.At (Chan.gets bp' shown) (Chan.shows shown) f.ins f.outs

namespace Tells

variable {bp bp' : GraphBlueprint K} {f g : Fragment} {d d' : Diagram (Wave K)}

theorem mono (h : Tells sr bp f d) (more : Leads bp bp') : Tells sr bp' f d :=
  ⟨h.takes, h.gives, h.plays.mono more⟩

theorem par (hf : Tells sr bp f d) (hg : Tells sr bp g d') :
    Tells sr bp (parFragments f g) (d.par d') where
  takes := by rw [parFragments, List.length_append, hf.takes, hg.takes]; rfl
  gives := by rw [parFragments, List.length_append, hf.gives, hg.gives]; rfl
  plays bp' shown w S := (hf.plays bp' shown w S).par (hg.plays bp' shown w S)

theorem into {w : (Nat → Wave K) → Nat → Wave K} (hf : Tells sr bp f d) (hg : Tells sr bp g d')
    (wired : Known sr bp fun bp' shown => ∀ {j i}, g.ins[j]? = some i →
      i.gets bp' shown = some (w (d.play (Diagram.reaching (Chan.gets bp' shown) f.ins)) j)) :
    Tells sr bp ⟨f.ins, g.outs⟩ (d.into w d') where
  takes := hf.takes
  gives := hg.gives
  plays bp' shown w S :=
    (hf.plays bp' shown w S).into (hg.plays bp' shown w S) (wired bp' shown w S)

/-- A channel of the fragment. -/
theorem channel (h : Tells sr bp f d) {c : Nat} {o : Chan} (here : f.outs[c]? = some o) :
    Known sr bp fun bp' shown =>
      o.shows shown = d.play (Diagram.reaching (Chan.gets bp' shown) f.ins) c :=
  fun bp' shown w S => (h.plays bp' shown w S).plays here

theorem post {w : (Nat → Wave K) → Nat → Wave K} {outs : List Chan} {n : Nat}
    (h : Tells sr bp f d) (count : outs.length = n)
    (new : Known sr bp fun bp' shown => ∀ {c o}, outs[c]? = some o →
      o.shows shown = w (d.play (Diagram.reaching (Chan.gets bp' shown) f.ins)) c) :
    Tells sr bp ⟨f.ins, outs⟩ (d.post n w) where
  takes := h.takes
  gives := count
  plays bp' shown w S := (h.plays bp' shown w S).post count (new bp' shown w S)

end Tells

/-- The ports and the channels of a node. -/
theorem tells_node {bp : GraphBlueprint K} {i : Nat} {nd : Node K} (here : bp.nodes[i]? = some nd) :
    Tells sr bp ⟨(List.range nd.inputsCount).map (Chan.mk i),
      (List.range nd.outputsCount).map (Chan.mk i)⟩ (nd.diagram sr) where
  takes := by rw [List.length_map, List.length_range]; rfl
  gives := by rw [List.length_map, List.length_range]; rfl
  plays bp' shown w S :=
    { takes := by rw [List.length_map, List.length_range]; rfl
      gives := by rw [List.length_map, List.length_range]; rfl
      plays := by
        intro c o ho
        have lt : c < nd.outputsCount := by simpa using (List.getElem?_eq_some_iff.mp ho).1
        rw [List.getElem?_map, List.getElem?_range lt] at ho
        obtain rfl := Option.some.inj ho
        have ports : Diagram.reaching (Chan.gets bp' shown)
            ((List.range nd.inputsCount).map (Chan.mk i)) = bp'.waveInto shown i := by
          funext j
          rw [Diagram.reaching, List.getElem?_map]
          by_cases hj : j < nd.inputsCount
          · rw [List.getElem?_range hj]
            rfl
          · rw [List.getElem?_eq_none (by simpa using hj)]
            exact (S.wired.waveInto_eq_none (w.node here) (Nat.le_of_not_lt hj)).symm
        rw [ports]
        exact known_node here lt bp' shown w S }

/-- The value is what is meant. -/
def Value.Is (sr : Nat) (bp : GraphBlueprint K) : Value K → Meaning K → Prop
  | .number n, .number k => n = k
  | .block f, .block d   => Tells sr bp f d
  | _, _                 => False

theorem Value.Is.mono {bp bp' : GraphBlueprint K} (more : Leads bp bp') :
    ∀ {v : Value K} {m : Meaning K}, v.Is sr bp m → v.Is sr bp' m
  | .number _, .number _, h => h
  | .block _, .block _, h   => Tells.mono h more

/-- The names in scope are worth what they mean. -/
def EnvIs (sr : Nat) (bp : GraphBlueprint K) (env : Env K) (ρ : Meanings K) : Prop :=
  ∀ n, Option.Rel (Value.Is sr bp) (env n) (ρ n)

theorem EnvIs.mono {bp bp' : GraphBlueprint K} {env : Env K} {ρ : Meanings K}
    (h : EnvIs sr bp env ρ) (more : Leads bp bp') : EnvIs sr bp' env ρ := by
  intro n
  have here := h n
  generalize env n = v at here ⊢
  generalize ρ n = m at here ⊢
  cases here with
  | some is => exact .some (is.mono more)
  | none => exact .none

theorem EnvIs.set {bp : GraphBlueprint K} {env : Env K} {ρ : Meanings K} (h : EnvIs sr bp env ρ)
    {v : Value K} {m : Meaning K} (is : v.Is sr bp m) (name : String) :
    EnvIs sr bp (env.set name v) (ρ.set name m) := by
  intro n
  rw [Env.set, Meanings.set]
  split_ifs
  · exact .some is
  · exact h n

/-- Diagrams that play the same are told by the same fragments. -/
theorem Tells.congr {bp : GraphBlueprint K} {f : Fragment} {d d' : Diagram (Wave K)}
    (h : Tells sr bp f d) (ins : d.ins = d'.ins) (outs : d.outs = d'.outs)
    (same : ∀ x, ∀ c < d.outs, d.play x c = d'.play x c) : Tells sr bp f d' where
  takes := h.takes.trans ins
  gives := h.gives.trans outs
  plays bp' shown w S :=
    { takes := h.takes.trans ins
      gives := h.gives.trans outs
      plays := fun here => (h.channel here bp' shown w S).trans
        (same _ _ (h.gives ▸ (List.getElem?_eq_some_iff.mp here).1)) }

/-! ### Making and connecting -/

section Primitives

variable {reg : NodeRegistry K} {type name : String} {args : NodeArgs K} {nd : Node K}

omit [Sample K] in
theorem makeNode_ensures (made : reg.make type args = some nd) (s : Lowerer K) :
    Ensures (makeNode reg type args name) s fun i s' =>
      Leads s.bp s'.bp ∧ s'.bp.nodes[i]? = some nd := by
  rw [makeNode, made]
  rintro i s' ⟨⟩
  exact ⟨⟨List.prefix_append _ _, List.Subset.refl _, rfl⟩, List.getElem?_concat_length⟩

omit [Sample K] in
theorem wire_ensures (out inp : Chan) (pos : Pos) (s : Lowerer K) :
    Ensures (wire out inp pos) s fun _ s' =>
      Leads s.bp s'.bp ∧ ⟨out.node, out.ch, inp.node, inp.ch⟩ ∈ s'.bp.connections := by
  intro u s' run
  obtain ⟨bp, one, rfl⟩ := wire_ok run
  obtain ⟨-, rfl⟩ := GraphBlueprint.connect_eq_some.mp one
  exact ⟨⟨List.prefix_rfl, List.subset_append_left _ _, rfl⟩,
    List.mem_append_right _ List.mem_cons_self⟩

theorem nodeFragment_ensures {i : Nat} {s : Lowerer K} (here : s.bp.nodes[i]? = some nd) :
    Ensures (nodeFragment i) s fun f s' =>
      Leads s.bp s'.bp ∧ Tells sr s'.bp f (nd.diagram sr) := by
  rintro f s' ⟨⟩
  refine ⟨.refl _, ?_⟩
  rw [GraphBlueprint.inputsOf, GraphBlueprint.outputsOf, here]
  exact tells_node here

theorem makeFragment_ensures (made : reg.make type args = some nd) (s : Lowerer K) :
    Ensures (do nodeFragment (← makeNode reg type args name)) s fun f s' =>
      Leads s.bp s'.bp ∧ Tells sr s'.bp f (nd.diagram sr) := by
  refine (makeNode_ensures made s).bind fun i s₁ ⟨w, here⟩ => ?_
  exact (nodeFragment_ensures here).mono fun f s' ⟨w', tells⟩ => ⟨w.trans w', tells⟩

end Primitives

end Waves

/-! ### The operations -/

section Operations

variable [Field K] [LinearOrder K] [FloorRing K] [Trig K] {sr : Nat}
  {s : Lowerer K}

/-- A number in signal position. -/
theorem constant_ensures (n : K) :
    Ensures (do nodeFragment (← makeConst standardRegistry n)) s fun f s' =>
      Leads s.bp s'.bp ∧ Tells sr s'.bp f (.source (.constant n)) := by
  have made : standardRegistry.make "constant" (named "value" n) = some (Nodes.constant n) := rfl
  refine (makeFragment_ensures made s).mono fun f s' ⟨w, tells⟩ => ⟨w, tells.congr rfl rfl ?_⟩
  intro x c hc
  obtain rfl : c = 0 := Nat.lt_one_iff.mp hc
  exact Nodes.sound_constant sr n

theorem toFrag_ensures {v : Value K} {m : Meaning K} (is : v.Is sr s.bp m) :
    Ensures (toFrag standardRegistry v) s fun f s' =>
      Leads s.bp s'.bp ∧ Tells sr s'.bp f m.signal := by
  cases v with
  | number n =>
      cases m with
      | block d => exact is.elim
      | number k =>
          obtain rfl : n = k := is
          exact constant_ensures n
  | block f =>
      cases m with
      | number k => exact is.elim
      | block d => exact .pure ⟨.refl _, is⟩

/-! ### Arithmetic -/

/-- A node on one channel, and what is done with it after. -/
theorem onChannel_ensures {type name : String} {args : NodeArgs K} {nd : Node K}
    (made : standardRegistry.make type args = some nd) (output : 0 < nd.outputsCount)
    {g : Wave K → Wave K}
    (sounds : ∀ {x w}, x 0 = some w → nd.sound sr x (fun _ => none) 0 = g w) (c : Chan) (pos : Pos)
    {β : Type} {next : Nat → LowerM K β} {Q : β → Lowerer K → Prop}
    (rest : ∀ i s', Leads s.bp s'.bp →
      Known sr s'.bp (fun _ shown => Chan.shows shown ⟨i, 0⟩ = g (c.shows shown)) →
      Ensures (next i) s' Q) :
    Ensures (do let i ← makeNode standardRegistry type args name; wire c ⟨i, 0⟩ pos; next i) s
      Q := by
  refine (makeNode_ensures made s).bind fun i s₁ ⟨w₁, here⟩ => ?_
  refine (wire_ensures c ⟨i, 0⟩ pos s₁).bind fun _ s₂ ⟨w₂, wired⟩ => ?_
  refine rest i s₂ (w₁.trans w₂) fun bp shown w S => ?_
  have told := known_node (w₂.node here) output bp shown w S
  exact told.trans (sounds (known_connection c ⟨i, 0⟩ wired bp shown w S))

omit [Field K] [LinearOrder K] [FloorRing K] [Trig K] in
theorem entry_of_forall₂ {ι κ : Type} {R : ι → κ → Prop} {l : List ι} {l' : List κ}
    (h : List.Forall₂ R l l') {c : Nat} {o : κ} (here : l'[c]? = some o) :
    ∃ x, l[c]? = some x ∧ R x o := by
  induction h generalizing c with
  | nil => cases here
  | cons one more ih =>
      cases c with
      | zero =>
          obtain rfl := Option.some.inj here
          exact ⟨_, rfl, one⟩
      | succ c => exact ih here

/-- What a loop over the channels has made of those done so far. -/
def Channelwise (sr : Nat) (g : Wave K → Wave K) (bp : GraphBlueprint K) (done outs : List Chan) :
    Prop :=
  List.Forall₂ (fun x o => Known sr bp fun _ shown => o.shows shown = g (x.shows shown)) done outs

omit [Trig K] in
theorem Channelwise.push {g : Wave K → Wave K} {bp bp' : GraphBlueprint K} {done outs : List Chan}
    (h : Channelwise sr g bp done outs) (more : Leads bp bp') {x o : Chan}
    (new : Known sr bp' fun _ shown => o.shows shown = g (x.shows shown)) :
    Channelwise sr g bp' (done ++ [x]) (outs ++ [o]) :=
  List.rel_append (h.imp fun _ _ k => k.mono more) (.cons new .nil)

omit [Trig K] in
theorem Channelwise.tells {g : K → K} {bp : GraphBlueprint K} {f : Fragment} {outs : List Chan}
    {d : Diagram (Wave K)} (h : Channelwise sr (Wave.map g) bp f.outs outs)
    (tells : Tells sr bp f d) : Tells sr bp ⟨f.ins, outs⟩ (Meaning.each g d) := by
  refine tells.post (h.length_eq.symm.trans tells.gives) fun bp' shown w S => ?_
  intro c o here
  obtain ⟨x, hx, made⟩ := entry_of_forall₂ h here
  rw [made bp' shown w S, tells.channel hx bp' shown w S]

theorem scale_ensures {a : Fragment} {d : Diagram (Wave K)} (h : Tells sr s.bp a d) (k : K)
    (pos : Pos) (scalar : Option (Expr K)) :
    Ensures (scale standardRegistry a k pos scalar) s fun f s' =>
      Leads s.bp s'.bp ∧ Tells sr s'.bp f (Meaning.each (· * k) d) := by
  refine (Ensures.foldlM (I := fun done outs (s' : Lowerer K) => Leads s.bp s'.bp ∧
    Channelwise sr (Wave.map (· * k)) s'.bp done outs) ⟨.refl _, .nil⟩ ?_).bind ?_
  · intro done c outs s₁ _ ⟨w₁, so⟩
    refine onChannel_ensures rfl Nat.one_pos (Nodes.sound_gain sr k) c pos fun g s₂ w₂ new => ?_
    refine (ensures_leads standardRegistry (fun _ => bindScalar_emits scalar g) s₂).bind ?_
    refine fun _ s₃ w₃ => .pure ?_
    exact ⟨(w₁.trans w₂).trans w₃, so.push (w₂.trans w₃) (new.mono w₃)⟩
  · intro outs s' ⟨w, made⟩
    exact .pure ⟨w, made.tells (h.mono w)⟩

theorem negate_ensures {a : Fragment} {d : Diagram (Wave K)} (h : Tells sr s.bp a d) (pos : Pos) :
    Ensures (negate standardRegistry a pos) s fun f s' =>
      Leads s.bp s'.bp ∧ Tells sr s'.bp f (Meaning.each (- ·) d) := by
  refine (Ensures.foldlM (I := fun done outs (s' : Lowerer K) => Leads s.bp s'.bp ∧
    Channelwise sr (Wave.map (- ·)) s'.bp done outs) ⟨.refl _, .nil⟩ ?_).bind ?_
  · intro done c outs s₁ _ ⟨w₁, so⟩
    refine onChannel_ensures rfl Nat.one_pos (Nodes.sound_inverter sr) c pos fun g s₂ w₂ new => ?_
    exact .pure ⟨w₁.trans w₂, so.push w₂ new⟩
  · intro outs s' ⟨w, made⟩
    exact .pure ⟨w, made.tells (h.mono w)⟩

/-- What `zip` has made of the turns done so far. -/
def Zipped (sr : Nat) (f : K → K → K) (a b : Fragment) (bp : GraphBlueprint K) (done : List Nat)
    (outs : List Chan) : Prop :=
  List.Forall₂ (fun i o => ∃ x y, a.outs[if a.outs.length = 1 then 0 else i]? = some x ∧
    b.outs[if b.outs.length = 1 then 0 else i]? = some y ∧
    Known sr bp fun _ shown => o.shows shown = .zip f (x.shows shown) (y.shows shown)) done outs

omit [Trig K] in
/-- The channels `zip` has read were there. -/
theorem Zipped.there {f : K → K → K} {a b : Fragment} {bp : GraphBlueprint K} {outs : List Chan}
    (so : Zipped sr f a b bp
      (List.range (if b.outs.length < a.outs.length then a.outs.length else b.outs.length)) outs) :
    ¬MissesChannel a.outs.length b.outs.length := by
  intro missing
  have one : (if b.outs.length < a.outs.length then a.outs.length else b.outs.length) = 1 := by
    rcases missing with ⟨ha, hb⟩ | ⟨ha, hb⟩ <;> rw [ha, hb] <;> rfl
  rw [one] at so
  cases so with
  | cons first _ =>
      obtain ⟨x, y, hx, hy, -⟩ := first
      rw [ite_self] at hx hy
      have left := (List.getElem?_eq_some_iff.mp hx).1
      have right := (List.getElem?_eq_some_iff.mp hy).1
      rcases missing with ⟨ha, -⟩ | ⟨-, hb⟩
      · exact absurd (ha ▸ left) (Nat.lt_irrefl 0)
      · exact absurd (hb ▸ right) (Nat.lt_irrefl 0)

omit [Trig K] in
theorem Zipped.tells {f : K → K → K} {a b : Fragment} {bp : GraphBlueprint K} {outs : List Chan}
    {d d' : Diagram (Wave K)}
    (so : Zipped sr f a b bp
      (List.range (if b.outs.length < a.outs.length then a.outs.length else b.outs.length)) outs)
    (ha : Tells sr bp a d) (hb : Tells sr bp b d')
    (arity : ¬(a.outs.length ≠ b.outs.length ∧ a.outs.length ≠ 1 ∧ b.outs.length ≠ 1)) :
    ∃ D, Meaning.pairs f d d' = some D ∧ Tells sr bp ⟨a.ins ++ b.ins, outs⟩ D := by
  cases count : broadcast a.outs.length b.outs.length with
  | none =>
      rw [broadcast] at count
      split_ifs at count with same left right
      exact absurd ⟨same, left, right⟩ arity
  | some n =>
      obtain ⟨turns, -⟩ := broadcast_reads count so.there
      rw [turns] at so
      refine ⟨_, by rw [Meaning.pairs, ← ha.gives, ← hb.gives, count]; rfl, ?_⟩
      have both := ha.par hb
      refine both.post (so.length_eq.symm.trans List.length_range) fun bp' shown w S => ?_
      intro c o here
      obtain ⟨i, hi, x, y, hx, hy, made⟩ := entry_of_forall₂ so here
      obtain rfl : i = c := by
        have lt : c < n := by simpa using (List.getElem?_eq_some_iff.mp hi).1
        exact (Option.some.inj ((List.getElem?_range lt).symm.trans hi)).symm
      have left : (parFragments a b).outs[if a.outs.length = 1 then 0 else i]? = some x :=
        (List.getElem?_append_left (List.getElem?_eq_some_iff.mp hx).1).trans hx
      have right : (parFragments a b).outs[a.outs.length + if b.outs.length = 1 then 0 else i]?
          = some y := by
        rw [parFragments, List.getElem?_append_right (Nat.le_add_right _ _),
          Nat.add_sub_cancel_left, hy]
      rw [made bp' shown w S, both.channel left bp' shown w S, both.channel right bp' shown w S]

theorem zip_ensures {type : String} {nd : Node K} {f : K → K → K}
    (made : standardRegistry.make type {} = some nd) (output : 0 < nd.outputsCount)
    (sounds : ∀ {x v w}, x 0 = some v → x 1 = some w →
      nd.sound sr x (fun _ => none) 0 = .zip f v w)
    {a b : Fragment} {d d' : Diagram (Wave K)} (ha : Tells sr s.bp a d) (hb : Tells sr s.bp b d')
    (pos : Pos) :
    Ensures (zip standardRegistry type a b pos) s fun g s' =>
      Leads s.bp s'.bp ∧ ∃ D, Meaning.pairs f d d' = some D ∧ Tells sr s'.bp g D := by
  refine .ite (fun _ => .halt _) fun arity => ?_
  refine (Ensures.foldlM (I := fun done outs (s' : Lowerer K) => Leads s.bp s'.bp ∧
    Zipped sr f a b s'.bp done outs) ⟨.refl _, .nil⟩ ?_).bind ?_
  · intro done i outs s₁ _ ⟨w₁, so⟩
    refine (makeNode_ensures made s₁).bind fun op s₂ ⟨w₂, here⟩ => ?_
    refine .orTrap_bind fun x hx => (wire_ensures x ⟨op, 0⟩ pos s₂).bind fun _ s₃ ⟨w₃, first⟩ => ?_
    refine .orTrap_bind fun y hy => (wire_ensures y ⟨op, 1⟩ pos s₃).bind fun _ s₄ ⟨w₄, second⟩ => ?_
    refine .pure ⟨((w₁.trans w₂).trans w₃).trans w₄, List.rel_append
      (so.imp fun i o ⟨x, y, hx, hy, k⟩ => ⟨x, y, hx, hy, k.mono ((w₂.trans w₃).trans w₄)⟩)
      (.cons ⟨x, y, hx, hy, fun bp shown w S => ?_⟩ .nil)⟩
    have told := known_node ((w₃.trans w₄).node here) output bp shown w S
    exact told.trans (sounds (known_connection x ⟨op, 0⟩ first bp shown (w₄.trans w) S)
      (known_connection y ⟨op, 1⟩ second bp shown w S))
  · intro outs s' ⟨w, so⟩
    exact .pure ⟨w, so.tells (ha.mono w) (hb.mono w) arity⟩

/-- An operation on two signals, the second made after the first. -/
theorem zipWith_ensures {type : String} {nd : Node K} {f : K → K → K}
    (made : standardRegistry.make type {} = some nd) (output : 0 < nd.outputsCount)
    (sounds : ∀ {x v w}, x 0 = some v → x 1 = some w →
      nd.sound sr x (fun _ => none) 0 = .zip f v w)
    {l : Value K} {m : Meaning K} (hl : l.Is sr s.bp m) {r : LowerM K Fragment}
    {d' : Diagram (Wave K)}
    (right : ∀ s', Leads s.bp s'.bp → Ensures r s' fun g s'' =>
      Leads s'.bp s''.bp ∧ Tells sr s''.bp g d') (pos : Pos) :
    Ensures (zipWith standardRegistry type l r pos) s fun g s' =>
      Leads s.bp s'.bp ∧ ∃ D, Meaning.pairs f m.signal d' = some D ∧ Tells sr s'.bp g D := by
  refine (toFrag_ensures hl).bind fun a s₁ ⟨w₁, ha⟩ => ?_
  refine (right s₁ w₁).bind fun b s₂ ⟨w₂, hb⟩ => ?_
  exact (zip_ensures made output sounds (ha.mono w₂) hb pos).mono fun g s' ⟨w₃, told⟩ =>
    ⟨(w₁.trans w₂).trans w₃, told⟩

theorem negated_ensures {r : Value K} {m : Meaning K} (hr : r.Is sr s.bp m) (pos : Pos) :
    Ensures (negated standardRegistry pos r) s fun f s' =>
      Leads s.bp s'.bp ∧ Tells sr s'.bp f (Meaning.each (- ·) m.signal) := by
  cases r with
  | number n =>
      cases m with
      | block d => exact hr.elim
      | number k =>
          obtain rfl : n = k := hr
          exact constant_ensures (-n)
  | block f =>
      cases m with
      | number k => exact hr.elim
      | block d => exact negate_ensures hr pos

omit [Trig K] in
/-- To add the negative is to subtract. -/
theorem Tells.sub {bp : GraphBlueprint K} {f : Fragment} {d d' D : Diagram (Wave K)}
    (sum : Meaning.pairs (· + ·) d (Meaning.each (- ·) d') = some D) (h : Tells sr bp f D) :
    ∃ D', Meaning.pairs (· - ·) d d' = some D' ∧ Tells sr bp f D' := by
  obtain ⟨n, count, rfl⟩ := Option.map_eq_some_iff.mp sum
  have count : broadcast d.outs d'.outs = some n := count
  refine ⟨_, Option.map_eq_some_iff.mpr ⟨n, count, rfl⟩, h.congr rfl rfl fun x c hc => ?_⟩
  have there : ¬MissesChannel d.outs d'.outs := by
    intro missing
    obtain rfl : 0 = n := by
      rcases missing with ⟨ha, hb⟩ | ⟨ha, hb⟩ <;> rw [ha, hb] at count <;>
        exact Option.some.inj count
    exact absurd hc (Nat.not_lt_zero c)
  obtain ⟨left, -⟩ := (broadcast_reads count there).2 c hc
  have beyond : ∀ j, ¬d.outs + j < d.outs := fun j => Nat.not_lt_of_le (Nat.le_add_right _ j)
  simp only [Diagram.post, Diagram.par, Meaning.each, if_pos left, if_neg (beyond _), Wave.zip,
    Wave.map, Wave.mk.injEq, true_and]
  exact funext fun t => (sub_eq_add_neg _ _).symm

theorem arithStar_ensures (pos : Pos) (ea eb : Expr K) {l r : Value K} {m m' : Meaning K}
    (hl : l.Is sr s.bp m) (hr : r.Is sr s.bp m') :
    Ensures (arithStar standardRegistry pos ea eb l r) s fun f s' =>
      Leads s.bp s'.bp ∧ ∃ D, Meaning.ofSignals .star m m' = some D ∧ Tells sr s'.bp f D := by
  have made : standardRegistry.make "mul" {} = some (Nodes.multiply : Node K) := rfl
  have zipped := zipWith_ensures made Nat.one_pos (Nodes.sound_multiply sr) hl
    (fun s' w => toFrag_ensures (hr.mono w)) pos
  rcases l with a | f <;> rcases m with a' | d <;> try exact hl.elim
  · rcases r with b | g <;> rcases m' with b' | d' <;> try exact hr.elim
    · exact zipped
    · obtain rfl : a = a' := hl
      exact (scale_ensures hr a pos (some ea)).mono fun f s' ⟨w, tells⟩ => ⟨w, _, rfl, tells⟩
  · rcases r with b | g <;> rcases m' with b' | d' <;> try exact hr.elim
    · obtain rfl : b = b' := hr
      exact (scale_ensures hl b pos (some eb)).mono fun f s' ⟨w, tells⟩ => ⟨w, _, rfl, tells⟩
    · exact zipped

theorem arithSlash_ensures (pos : Pos) {l r : Value K} {m m' : Meaning K}
    (hl : l.Is sr s.bp m) (hr : r.Is sr s.bp m') :
    Ensures (arithSlash standardRegistry pos l r) s fun f s' =>
      Leads s.bp s'.bp ∧ ∃ D, Meaning.ofSignals .slash m m' = some D ∧ Tells sr s'.bp f D := by
  rcases r with b | g <;> rcases m' with b' | d' <;> try exact hr.elim
  · obtain rfl : b = b' := hr
    refine .ite (fun _ => .halt _) fun zero => ?_
    have zero : b ≠ 0 := fun h => zero (decide_eq_true h)
    refine (toFrag_ensures hl).bind fun f s₁ ⟨w₁, tells⟩ => ?_
    refine (scale_ensures tells (1 / b) pos none).mono fun f s' ⟨w₂, tells⟩ => ?_
    refine ⟨w₁.trans w₂, _, by rw [Meaning.ofSignals, if_neg zero], ?_⟩
    refine tells.congr rfl rfl fun x c _ => ?_
    exact congrArg (Wave.map · _) (funext fun y => mul_one_div y b)
  · have made : standardRegistry.make "div" {} = some (Nodes.divide : Node K) := rfl
    exact zipWith_ensures made Nat.one_pos (Nodes.sound_divide sr) hl
      (fun s' w => .pure ⟨.refl _, Tells.mono hr w⟩) pos

theorem arithSignals_ensures (pos : Pos) {op : Tok} (ea eb : Expr K) {l r : Value K}
    {m m' : Meaning K} (hl : l.Is sr s.bp m) (hr : r.Is sr s.bp m') :
    Ensures (arithSignals standardRegistry pos op ea eb l r) s fun f s' =>
      Leads s.bp s'.bp ∧ ∃ D, Meaning.ofSignals op m m' = some D ∧ Tells sr s'.bp f D := by
  have made : standardRegistry.make "add" {} = some (Nodes.add : Node K) := rfl
  cases op with
  | plus =>
      exact zipWith_ensures made Nat.one_pos (Nodes.sound_add sr) hl
        (fun s' w => toFrag_ensures (hr.mono w)) pos
  | minus =>
      refine (zipWith_ensures made Nat.one_pos (Nodes.sound_add sr) hl
        (fun s' w => negated_ensures (hr.mono w) pos) pos).mono ?_
      exact fun f s' ⟨w, D, sum, tells⟩ => ⟨w, tells.sub sum⟩
  | star => exact arithStar_ensures pos ea eb hl hr
  | slash => exact arithSlash_ensures pos hl hr
  | _ => exact .halt _

omit [Trig K] in
theorem foldNumbers_ensures (pos : Pos) {op : Tok}
    (arith : op ∈ [Tok.plus, .minus, .star, .slash, .percent]) (a b : K) :
    Ensures (foldNumbers pos op a b) s fun v s' =>
      Leads s.bp s'.bp ∧
        ∃ m, (Meaning.ofNumbers op a b).map .number = some m ∧ v.Is sr s'.bp m := by
  have nonzero : ¬Sample.same b 0 = true → b ≠ 0 := fun h zero => h (decide_eq_true zero)
  simp only [List.mem_cons, List.not_mem_nil, or_false] at arith
  rcases arith with rfl | rfl | rfl | rfl | rfl
  · exact .pure ⟨.refl _, _, rfl, rfl⟩
  · exact .pure ⟨.refl _, _, rfl, rfl⟩
  · exact .pure ⟨.refl _, _, rfl, rfl⟩
  · refine .ite (fun _ => .halt _) fun h => .pure ⟨.refl _, .number (a / b), ?_, rfl⟩
    rw [Meaning.ofNumbers, if_neg (nonzero h)]
    rfl
  · refine .ite (fun _ => .halt _) fun h => .pure ⟨.refl _, .number (Sample.fmod a b), ?_, rfl⟩
    rw [Meaning.ofNumbers, if_neg (nonzero h)]
    rfl

theorem arith_ensures (pos : Pos) {op : Tok}
    (arith : op ∈ [Tok.plus, .minus, .star, .slash, .percent]) (ea eb : Expr K) {l r : Value K}
    {m m' : Meaning K} (hl : l.Is sr s.bp m) (hr : r.Is sr s.bp m') :
    Ensures (Lang.arith standardRegistry pos op ea eb l r) s fun v s' =>
      Leads s.bp s'.bp ∧ ∃ m'', Meaning.arith op m m' = some m'' ∧ v.Is sr s'.bp m'' := by
  have block : Ensures (do return Value.block (← arithSignals standardRegistry pos op ea eb l r)) s
      fun v s' => Leads s.bp s'.bp ∧
        ∃ m'', (Meaning.ofSignals op m m').map .block = some m'' ∧ v.Is sr s'.bp m'' := by
    refine (arithSignals_ensures pos ea eb hl hr).bind fun f s' ⟨w, D, told, tells⟩ => ?_
    exact .pure ⟨w, .block D, by rw [told]; rfl, tells⟩
  rcases l with a | f <;> rcases m with a' | d <;> try exact hl.elim
  · rcases r with b | g <;> rcases m' with b' | d' <;> try exact hr.elim
    · obtain rfl : a = a' := hl
      obtain rfl : b = b' := hr
      exact foldNumbers_ensures pos arith a b
    · exact block
  · exact block

/-! ### The connection algebra -/

omit [Field K] [LinearOrder K] [FloorRing K] [Trig K] in
/-- The connections of a loop are there when it is done. -/
theorem wires_ensures {ι : Type} {f : ι → LowerM K Unit} {P : GraphBlueprint K → ι → Prop}
    (mono : ∀ {bp bp' i}, Leads bp bp' → P bp i → P bp' i)
    (turn : ∀ i s, Ensures (f i) s fun _ s' => Leads s.bp s'.bp ∧ P s'.bp i) (l : List ι) :
    Ensures (l.forM f) s fun _ s' => Leads s.bp s'.bp ∧ ∀ i ∈ l, P s'.bp i := by
  refine Ensures.forM (I := fun done (s' : Lowerer K) => Leads s.bp s'.bp ∧ ∀ i ∈ done, P s'.bp i)
    ⟨.refl _, fun _ h => absurd h List.not_mem_nil⟩ fun done i s₁ _ ⟨w₁, so⟩ => ?_
  refine (turn i s₁).mono fun _ s₂ ⟨w₂, new⟩ => ⟨w₁.trans w₂, fun j hj => ?_⟩
  rcases List.mem_append.mp hj with hj | hj
  · exact mono w₂ (so j hj)
  · exact List.mem_singleton.mp hj ▸ new

section Joins

variable {a b : Fragment} {d d' : Diagram (Wave K)} (ha : Tells sr s.bp a d)
  (hb : Tells sr s.bp b d') (pos : Pos)

include ha hb

omit [Trig K] in
theorem seqFragments_ensures :
    Ensures (seqFragments pos a b) s fun f s' =>
      Leads s.bp s'.bp ∧ ∃ D, inSequence d d' = some D ∧ Tells sr s'.bp f D := by
  refine .ite (fun _ => .halt _) fun arity => ?_
  have arity : d.outs = d'.ins := by
    rw [← ha.gives, ← hb.takes]
    exact not_not.mp arity
  refine (wires_ensures (P := fun bp p => ⟨p.1.node, p.1.ch, p.2.node, p.2.ch⟩ ∈ bp.connections)
    (fun w h => w.connections h) (fun p s₁ => wire_ensures p.1 p.2 pos s₁) _).bind ?_
  intro _ s' ⟨w, wired⟩
  refine .pure ⟨w, _, if_pos arity, (ha.mono w).into (hb.mono w) fun bp shown w' S j i here => ?_⟩
  have lt : j < a.outs.length := by
    rw [ha.gives, arity, ← hb.takes]
    exact (List.getElem?_eq_some_iff.mp here).1
  have source : a.outs[j]? = some a.outs[j] := List.getElem?_eq_getElem lt
  have pair : (a.outs[j], i) ∈ a.outs.zip b.ins :=
    List.mem_of_getElem? (List.getElem?_zip_eq_some.mpr ⟨source, here⟩)
  rw [known_connection _ _ (wired _ pair) bp shown w' S, (ha.mono w).channel source bp shown w' S]

omit [Trig K] in
theorem splitFragments_ensures :
    Ensures (splitFragments pos a b) s fun f s' =>
      Leads s.bp s'.bp ∧ ∃ D, splitInto d d' = some D ∧ Tells sr s'.bp f D := by
  refine .ite (fun _ => .halt _) fun arity => ?_
  have counts : ¬(d.outs = 0 ∨ d'.ins % d.outs ≠ 0) := by rwa [← ha.gives, ← hb.takes]
  refine (wires_ensures (P := fun bp p => ∃ x, a.outs[p.2 % a.outs.length]? = some x ∧
      ⟨x.node, x.ch, p.1.node, p.1.ch⟩ ∈ bp.connections)
    (fun w ⟨x, hx, h⟩ => ⟨x, hx, w.connections h⟩) (fun p s₁ => ?_) _).bind ?_
  · refine .orTrap_bind fun x hx => (wire_ensures x p.1 pos s₁).mono fun _ s₂ ⟨w, h⟩ => ?_
    exact ⟨w, x, hx, h⟩
  · intro _ s' ⟨w, wired⟩
    refine .pure ⟨w, _, if_neg counts, (ha.mono w).into (hb.mono w) ?_⟩
    intro bp shown w' S j i here
    obtain ⟨x, hx, h⟩ := wired (i, j) (List.mem_zipIdx_iff_getElem?.mpr here)
    rw [known_connection x i h bp shown w' S, (ha.mono w).channel hx bp shown w' S, ha.gives]

end Joins

/-! ### Counts -/

section Counts

variable [IsStrictOrderedRing K]

omit [Trig K] in
/-- A count survives its conversion to a number and back. -/
theorem count_of_num {a : NodeArgs K} {name : String} {pos default n : Nat}
    (num : a.num name pos (Sample.cast default) = (n : K)) : a.count name pos default = n := by
  have below : ¬ Sample.lt (n : K) 0 = true := fun h =>
    absurd (of_decide_eq_true h) (not_lt.mpr (Nat.cast_nonneg n))
  have half : ⌊(Sample.ratio 1 2 : K)⌋ = 0 := by
    refine Int.floor_eq_zero_iff.mpr ?_
    show ((1 : Nat) : K) / ((2 : Nat) : K) ∈ Set.Ico 0 1
    constructor <;> norm_num
  rw [NodeArgs.count, num, if_neg below]
  show ⌊(n : K) + Sample.ratio 1 2⌋.toNat = n
  rw [Int.floor_natCast_add, half, add_zero, Int.toNat_natCast]

theorem make_mix (n : Nat) :
    standardRegistry.make "mix" (named "inputs" (Sample.cast n : K)) = some (Nodes.mixer n) := by
  have count : (named "inputs" (Sample.cast n : K)).count "inputs" 0 2 = n := count_of_num rfl
  show some (Nodes.mixer _) = _
  rw [count]

theorem make_wire : standardRegistry.make "adapt" (oneOne : NodeArgs K)
    = some (Nodes.channelAdapter 1 1) := by
  have one : ((1 : Nat) : K) = 1 := Nat.cast_one
  have ins : (oneOne : NodeArgs K).count "inputs" 0 1 = 1 := count_of_num one.symm
  have outs : (oneOne : NodeArgs K).count "outputs" 1 1 = 1 := count_of_num one.symm
  show some (Nodes.channelAdapter _ _) = _
  rw [ins, outs]

/-! ### Sums -/

omit [IsStrictOrderedRing K] [Trig K] in
theorem sum_singleton (w : Wave K) : Wave.sum [w] = w := by
  simp [Wave.sum]

/-- The port gets the sum of what the channels show. -/
def Summed (sr : Nat) (bp : GraphBlueprint K) (group : List Chan) (inp : Chan) : Prop :=
  Known sr bp fun bp shown => inp.gets bp shown = some (.sum (group.map (Chan.shows shown)))

omit [IsStrictOrderedRing K] [Trig K] in
theorem Summed.mono {bp bp' : GraphBlueprint K} {group : List Chan} {inp : Chan}
    (h : Summed sr bp group inp) (more : Leads bp bp') : Summed sr bp' group inp :=
  Known.mono h more

theorem mixInto_ensures (pos : Pos) (group : List Chan) (inp : Chan) :
    Ensures (mixInto standardRegistry pos group inp) s fun _ s' =>
      Leads s.bp s'.bp ∧ Summed sr s'.bp group inp := by
  refine (makeNode_ensures (make_mix group.length) s).bind fun mix s₁ ⟨w₁, here⟩ => ?_
  refine (wires_ensures (P := fun bp g => ⟨g.1.node, g.1.ch, mix, g.2⟩ ∈ bp.connections)
    (fun w h => w.connections h) (fun g s₂ => wire_ensures g.1 ⟨mix, g.2⟩ pos s₂) _).bind ?_
  intro _ s₂ ⟨w₂, wired⟩
  refine (wire_ensures ⟨mix, 0⟩ inp pos s₂).mono fun _ s₃ ⟨w₃, out⟩ => ?_
  refine ⟨(w₁.trans w₂).trans w₃, fun bp shown w S => ?_⟩
  have here₃ := (w₂.trans w₃).node here
  have told := (known_node here₃ Nat.one_pos : Known sr s₃.bp _) bp shown w S
  refine (known_connection ⟨mix, 0⟩ inp out bp shown w S).trans (congrArg some (told.trans ?_))
  have count : (group.map (Chan.shows shown)).length = group.length := List.length_map _
  rw [← count]
  refine Nodes.sound_mixer sr fun j => ?_
  rw [List.getElem?_map]
  cases hj : group[j]? with
  | none =>
      exact S.wired.waveInto_eq_none (w.node here₃) (List.getElem?_eq_none_iff.mp hj)
  | some x =>
      have mem := wired (x, j) (List.mem_zipIdx_iff_getElem?.mpr hj)
      exact known_connection x ⟨mix, j⟩ (w₃.connections mem) bp shown w S

theorem mergeInto_ensures (pos : Pos) (group : List Chan) (inp : Chan) :
    Ensures (mergeInto standardRegistry pos group inp) s fun _ s' =>
      Leads s.bp s'.bp ∧ Summed sr s'.bp group inp := by
  match group with
  | [] => exact mixInto_ensures pos [] inp
  | [x] =>
      refine (wire_ensures x inp pos s).mono fun _ s' ⟨w, wired⟩ => ⟨w, fun bp shown w' S => ?_⟩
      refine (known_connection x inp wired bp shown w' S).trans (congrArg some ?_)
      rw [List.map_cons, List.map_nil, sum_singleton]
  | x :: y :: group => exact mixInto_ensures pos (x :: y :: group) inp

omit [Field K] [LinearOrder K] [IsStrictOrderedRing K] [FloorRing K] [Trig K] in
/-- The entries at the indices that meet `p`, in order. -/
theorem map_filter_zipIdx {ι κ : Type} (p : Nat → Bool) (f : ι → κ) (g : Nat → κ) :
    ∀ {l : List ι}, (∀ {i x}, l[i]? = some x → f x = g i) →
      ((l.zipIdx.filter fun q => p q.2).map Prod.fst).map f
        = ((List.range l.length).filter p).map g := by
  intro l same
  induction l using List.reverseRecOn with
  | nil => rfl
  | append_singleton l x ih =>
      have before : ∀ {i y}, l[i]? = some y → f y = g i := fun {i y} h =>
        same ((List.getElem?_append_left (List.getElem?_eq_some_iff.mp h).1).trans h)
      have last : f x = g l.length := same List.getElem?_concat_length
      rw [List.length_append, List.length_singleton, List.range_succ, List.zipIdx_append,
        List.filter_append, List.map_append, List.map_append, ih before, List.filter_append,
        List.map_append]
      congr 1
      by_cases hp : p l.length = true
      · simp [hp, last]
      · simp [hp]

theorem mergeFragments_ensures {a b : Fragment} {d d' : Diagram (Wave K)} (ha : Tells sr s.bp a d)
    (hb : Tells sr s.bp b d') (pos : Pos) :
    Ensures (mergeFragments standardRegistry pos a b) s fun f s' =>
      Leads s.bp s'.bp ∧ ∃ D, mergedInto d d' = some D ∧ Tells sr s'.bp f D := by
  refine .ite (fun _ => .halt _) fun arity => ?_
  have counts : ¬(d'.ins = 0 ∨ d.outs % d'.ins ≠ 0) := by rwa [← ha.gives, ← hb.takes]
  refine (wires_ensures
    (P := fun bp (p : Chan × Nat) => Summed sr bp (mergeGroup a.outs b.ins.length p.2) p.1)
    (fun w h => h.mono w) (fun p s₁ => mergeInto_ensures pos _ p.1) _).bind ?_
  intro _ s' ⟨w, wired⟩
  refine .pure ⟨w, _, if_neg counts, (ha.mono w).into (hb.mono w) fun bp shown w' S j i here => ?_⟩
  have made := wired (i, j) (List.mem_zipIdx_iff_getElem?.mpr here) bp shown w' S
  rw [made, mergeGroup, map_filter_zipIdx (fun i => i % b.ins.length == j) (Chan.shows shown) _
    fun hx => (ha.mono w).channel hx bp shown w' S, ha.gives, hb.takes]

/-! ### Wires -/

theorem makeWire_ensures :
    Ensures (do nodeFragment (← makeWire standardRegistry)) s fun f s' =>
      Leads s.bp s'.bp ∧ Tells sr s'.bp f identity := by
  have frag : Ensures (do nodeFragment (← makeWire standardRegistry)) s fun f s' =>
      Leads s.bp s'.bp ∧ Tells sr s'.bp f ((Nodes.channelAdapter 1 1).diagram sr) :=
    makeFragment_ensures make_wire s
  refine frag.mono fun f s' ⟨w, tells⟩ => ⟨w, ?_⟩
  refine tells.congr rfl rfl fun x c hc => ?_
  obtain rfl : c = 0 := Nat.lt_one_iff.mp hc
  exact Nodes.sound_wire sr

end Counts

end Operations

end Xrune.Lang
