import Xrune.Lang.Sound

/-!
# Lang — the arity of signal arithmetic

Arithmetic on signals is element-wise over their channels, and a mono operand is broadcast.  For
two operands `broadcast` is the number of channels that gives, if it gives one.  `eval_arith`
keeps to it but for one pair of counts: of a signal without channels and a mono one it reads a
channel that does not exist (`arith_meets_iff`).
-/

namespace Xrune.Lang

open Stateful

variable {α : Type}

/-- The channels of an operand; a number stands for a constant signal. -/
def Value.channels : Value α → Nat
  | .number _ => 1
  | .block f  => f.outs.length

/-- The number of channels of an element-wise operation with a mono operand broadcast. -/
def broadcast (na nb : Nat) : Option Nat :=
  if na = nb then some na
  else if na = 1 then some nb
  else if nb = 1 then some na
  else none

/-- Every output channel of the fragment exists. -/
def Fragment.OutsExist (f : Fragment) (bp : GraphBlueprint α) : Prop :=
  ∀ c ∈ f.outs, OutputExists bp c

def Value.OutsExist (bp : GraphBlueprint α) : Value α → Prop
  | .number _ => True
  | .block f  => f.OutsExist bp

theorem Fragment.OutsExist.grown {f : Fragment} {bp bp' : GraphBlueprint α}
    (h : f.OutsExist bp) (nodes : bp.nodes <+: bp'.nodes) : f.OutsExist bp' :=
  fun c hc => (h c hc).grown nodes

theorem Value.OutsExist.grown {v : Value α} {bp bp' : GraphBlueprint α} (h : v.OutsExist bp)
    (nodes : bp.nodes <+: bp'.nodes) : v.OutsExist bp' := by
  cases v with
  | number n => trivial
  | block f => exact Fragment.OutsExist.grown h nodes

/-! ### One operation -/

/-- From `s` to `s'` the blueprint grows, and stays wired. -/
structure Extends (s s' : Lowerer α) : Prop where
  nodes : s.bp.nodes <+: s'.bp.nodes
  wired : s'.bp.Wired

theorem Extends.refl {s : Lowerer α} (W : s.bp.Wired) : Extends s s := ⟨List.prefix_rfl, W⟩

theorem Extends.trans {s s' s'' : Lowerer α} (h : Extends s s') (h' : Extends s' s'') :
    Extends s s'' := ⟨h.nodes.trans h'.nodes, h'.wired⟩

/-- A node made by the lowerer, not yet connected to anything. -/
structure Makes (nd : Node α) (s : Lowerer α) (i : Nat) (s' : Lowerer α) : Prop where
  grows : Extends s s'
  here : s'.bp.nodes[i]? = some nd
  free : ∀ c ∈ s'.bp.connections, c.dstNode ≠ i

theorem makeNode_yields {reg : NodeRegistry α} {type name : String} {args : NodeArgs α}
    {nd : Node α} (made : reg.make type args = some nd) {s : Lowerer α} (W : s.bp.Wired) :
    Yields (makeNode reg type args name) s (Makes nd s) := by
  rw [makeNode, made]
  refine ⟨_, _, rfl, ⟨⟨List.prefix_append _ _, W.grown (List.prefix_append _ _) rfl rfl⟩, ?_, ?_⟩⟩
  · exact List.getElem?_concat_length
  · exact fun c hc => (W.audio c hc).2.1.ne

/-- The output channels of a node exist. -/
theorem outputExists_of_getElem? {bp : GraphBlueprint α} {i : Nat} {nd : Node α}
    (here : bp.nodes[i]? = some nd) {ch : Nat} (lt : ch < nd.outputsCount) :
    OutputExists bp ⟨i, ch⟩ := by
  refine ⟨(List.getElem?_eq_some_iff.mp here).1, ?_⟩
  rw [GraphBlueprint.outputsOf, here]
  exact lt

theorem wire_yields {s : Lowerer α} (W : s.bp.Wired) {c : Chan} (exist : OutputExists s.bp c)
    {i inp : Nat} {nd : Node α} (here : s.bp.nodes[i]? = some nd) (lt : inp < nd.inputsCount)
    (free : ∀ c ∈ s.bp.connections, ¬(c.dstNode = i ∧ c.dstInput = inp)) (pos : Pos) :
    Yields (wire c ⟨i, inp⟩ pos) s fun _ s' =>
      Extends s s' ∧ s'.bp.nodes = s.bp.nodes ∧
        s'.bp.connections = s.bp.connections ++ [⟨c.node, c.ch, i, inp⟩] := by
  have port : inp < s.bp.inputsOf i := by
    rw [GraphBlueprint.inputsOf, here]
    exact lt
  have one := GraphBlueprint.connect_eq_some.mpr
    ⟨⟨exist.1, (List.getElem?_eq_some_iff.mp here).1, exist.2, port, free⟩, rfl⟩
  refine Yields.get_bind ?_
  rw [one]
  exact ⟨(), _, rfl, ⟨List.prefix_rfl, W.connect one⟩, rfl, rfl⟩

/-- After `n` turns of a channel loop that began in `s₀`: a channel for each turn. -/
structure Channels (s₀ : Lowerer α) (n : Nat) (outs : List Chan) (s : Lowerer α) : Prop where
  count : outs.length = n
  exist : ∀ c ∈ outs, OutputExists s.bp c
  grows : Extends s₀ s

theorem Channels.start {s : Lowerer α} (W : s.bp.Wired) : Channels s 0 [] s :=
  ⟨rfl, nofun, .refl W⟩

theorem Channels.push {s₀ s s' : Lowerer α} {n : Nat} {outs : List Chan} {c : Chan}
    (h : Channels s₀ n outs s) (grows : Extends s s') (new : OutputExists s'.bp c) :
    Channels s₀ (n + 1) (outs ++ [c]) s' where
  count := by rw [List.length_append, h.count]; rfl
  exist := by
    intro d hd
    rcases List.mem_append.mp hd with hd | hd
    · exact (h.exist d hd).grown grows.nodes
    · exact List.mem_singleton.mp hd ▸ new
  grows := h.grows.trans grows

section Operations

variable {reg : NodeRegistry α} {s : Lowerer α}

/-- A node on one channel: an operation of one input, and what is done with it after. -/
theorem onChannel_yields {type name : String} {args : NodeArgs α} {nd : Node α}
    (made : reg.make type args = some nd) (input : 0 < nd.inputsCount)
    (output : 0 < nd.outputsCount) (W : s.bp.Wired) {c : Chan} (exist : OutputExists s.bp c)
    (pos : Pos) {β : Type} {next : Nat → LowerM α β} {Q : β → Lowerer α → Prop}
    (rest : ∀ i s', Extends s s' → s'.bp.nodes[i]? = some nd → OutputExists s'.bp ⟨i, 0⟩ →
      Yields (next i) s' Q) :
    Yields (do let i ← makeNode reg type args name; wire c ⟨i, 0⟩ pos; next i) s Q := by
  refine (makeNode_yields made W).bind fun i s₁ new => ?_
  refine (wire_yields new.grows.wired (exist.grown new.grows.nodes) new.here input
    (fun c hc h => new.free c hc h.1) pos).bind fun _ s₂ ⟨grows, same, _⟩ => ?_
  have here : s₂.bp.nodes[i]? = some nd := same ▸ new.here
  exact rest i s₂ (new.grows.trans grows) here (outputExists_of_getElem? here output)

theorem bindScalar_yields (scalar : Option (Expr α)) (g : Nat) (W : s.bp.Wired) :
    Yields (bindScalar scalar g) s fun _ s' => Extends s s' := by
  have bound : ∀ text, Extends s (s.bindParam text ⟨g, 0⟩) := by
    intro text
    rw [Lowerer.bindParam]
    cases s.bp.findRuneParam text with
    | none => exact .refl W
    | some pi => exact ⟨List.prefix_rfl, W.grown List.prefix_rfl rfl rfl⟩
  refine Yields.get_bind ?_
  cases s.bindable scalar with
  | none => exact .pure (.refl W)
  | some text => exact ⟨(), _, rfl, bound text⟩

end Operations

/-! ### The channel loops -/

/-- What arithmetic takes for granted of the nodes it makes. -/
structure ArithmeticNodes [Sample α] (reg : NodeRegistry α) : Prop where
  gain : ∀ args, ∃ nd, reg.make "gain" args = some nd ∧ 0 < nd.inputsCount ∧ 0 < nd.outputsCount
  inv : ∃ nd, reg.make "inv" {} = some nd ∧ 0 < nd.inputsCount ∧ 0 < nd.outputsCount
  op : ∀ type ∈ ["add", "mul", "div"], ∃ nd, reg.make type {} = some nd ∧ 1 < nd.inputsCount ∧
    0 < nd.outputsCount
  constant : ∀ v : α, ∃ nd, reg.make "constant" (named "value" v) = some nd ∧ nd.outputsCount = 1

/-- One operand has no channels and the other has one. -/
def MissesChannel (na nb : Nat) : Prop := na = 0 ∧ nb = 1 ∨ na = 1 ∧ nb = 0

instance (na nb : Nat) : Decidable (MissesChannel na nb) :=
  inferInstanceAs (Decidable (_ ∨ _))

/-- The channels `zip` reads are there. -/
theorem broadcast_reads {na nb n : Nat} (h : broadcast na nb = some n)
    (there : ¬MissesChannel na nb) : (if nb < na then na else nb) = n ∧
      ∀ i < n, (if na = 1 then 0 else i) < na ∧ (if nb = 1 then 0 else i) < nb := by
  rw [MissesChannel] at there
  rw [broadcast] at h
  split_ifs at h with same left right <;> obtain rfl := Option.some.inj h
  · rw [same, if_neg (Nat.lt_irrefl nb)]
    refine ⟨rfl, fun i hi => ⟨?_, ?_⟩⟩ <;> split_ifs <;> omega
  · refine ⟨by split_ifs <;> omega, fun i hi => ?_⟩
    split_ifs <;> omega
  · refine ⟨by split_ifs <;> omega, fun i hi => ?_⟩
    split_ifs
    omega

/-- The diagnostic of `zip`. -/
def arityDiagnostic (na nb : Nat) (pos : Pos) : Diagnostic :=
  ⟨"arithmetic arity: cannot combine " ++ toString na ++ " and " ++ toString nb ++ " channels", pos⟩

section Loops

variable [Sample α] {reg : NodeRegistry α} (A : ArithmeticNodes reg) {s : Lowerer α}

/-- The fragment has `n` channels, which exist. -/
def Outputs (s₀ : Lowerer α) (n : Nat) (f : Fragment) (s : Lowerer α) : Prop :=
  f.outs.length = n ∧ f.OutsExist s.bp ∧ Extends s₀ s

omit [Sample α] in
theorem Channels.fragment {s₀ : Lowerer α} {n : Nat} {outs : List Chan}
    (h : Channels s₀ n outs s) (ins : List Chan) : Outputs s₀ n ⟨ins, outs⟩ s :=
  ⟨h.count, h.exist, h.grows⟩

include A

theorem scale_yields (W : s.bp.Wired) {a : Fragment} (exist : a.OutsExist s.bp) (k : α) (pos : Pos)
    (scalar : Option (Expr α)) :
    Yields (scale reg a k pos scalar) s (Outputs s a.outs.length) := by
  obtain ⟨nd, made, input, output⟩ := A.gain (named "gain" k)
  have turns := Yields.foldlM (f := fun (outs : List Chan) c => do
      let g ← makeGain reg k
      wire c ⟨g, 0⟩ pos
      bindScalar scalar g
      return outs ++ [⟨g, 0⟩]) (l := a.outs) (Channels.start W) fun n outs s₁ c hc h => by
    refine onChannel_yields made input output h.grows.wired
      ((exist c hc).grown h.grows.nodes) pos fun g s₂ grows here out => ?_
    refine (bindScalar_yields scalar g grows.wired).bind fun _ s₃ more => .pure ?_
    exact h.push (grows.trans more) (out.grown more.nodes)
  rw [Nat.zero_add] at turns
  exact turns.bind fun outs s' h => .pure (h.fragment a.ins)

theorem negate_yields (W : s.bp.Wired) {a : Fragment} (exist : a.OutsExist s.bp) (pos : Pos) :
    Yields (negate reg a pos) s (Outputs s a.outs.length) := by
  obtain ⟨nd, made, input, output⟩ := A.inv
  have turns := Yields.foldlM (f := fun (outs : List Chan) c => do
      let v ← makeOp reg "inv"
      wire c ⟨v, 0⟩ pos
      return outs ++ [⟨v, 0⟩]) (l := a.outs) (Channels.start W) fun n outs s₁ c hc h => by
    refine onChannel_yields made input output h.grows.wired
      ((exist c hc).grown h.grows.nodes) pos fun v s₂ grows here out => .pure ?_
    exact h.push grows out
  rw [Nat.zero_add] at turns
  exact turns.bind fun outs s' h => .pure (h.fragment a.ins)

/-- `zip` of counts that broadcast, when no channel is missing. -/
theorem zip_yields {type : String} (arith : type ∈ ["add", "mul", "div"]) (W : s.bp.Wired)
    {a b : Fragment} (ha : a.OutsExist s.bp) (hb : b.OutsExist s.bp) {n : Nat}
    (count : broadcast a.outs.length b.outs.length = some n)
    (there : ¬MissesChannel a.outs.length b.outs.length) (pos : Pos) :
    Yields (zip reg type a b pos) s (Outputs s n) := by
  obtain ⟨nd, made, inputs, output⟩ := A.op type arith
  obtain ⟨turnCount, reads⟩ := broadcast_reads count there
  have arity : ¬(a.outs.length ≠ b.outs.length ∧ a.outs.length ≠ 1 ∧ b.outs.length ≠ 1) := by
    rintro ⟨h₁, h₂, h₃⟩
    rw [broadcast, if_neg h₁, if_neg h₂, if_neg h₃] at count
    cases count
  have turns := Yields.foldlM (f := fun (outs : List Chan) i => do
      let op ← makeOp reg type
      let x ← orTrap a.outs[if a.outs.length = 1 then 0 else i]?
      wire x ⟨op, 0⟩ pos
      let y ← orTrap b.outs[if b.outs.length = 1 then 0 else i]?
      wire y ⟨op, 1⟩ pos
      return outs ++ [⟨op, 0⟩]) (l := List.range n) (Channels.start W)
      fun k outs s₁ i hi h => by
    obtain ⟨hx, hy⟩ := reads i (List.mem_range.mp hi)
    have exist : ∀ {f : Fragment}, f.OutsExist s.bp → ∀ {j} (hj : j < f.outs.length),
        OutputExists s₁.bp f.outs[j] :=
      fun h' _ hj => (h' _ (List.getElem_mem hj)).grown h.grows.nodes
    refine (makeNode_yields made h.grows.wired).bind fun op s₂ new => ?_
    rw [List.getElem?_eq_getElem hx, List.getElem?_eq_getElem hy]
    refine (wire_yields new.grows.wired ((exist ha hx).grown new.grows.nodes) new.here
      (by omega) (fun c hc e => new.free c hc e.1) pos).bind fun _ s₃ ⟨grows, same, wires⟩ => ?_
    -- the second port is free: the only wire of the new node is at its first
    have free : ∀ c ∈ s₃.bp.connections, ¬(c.dstNode = op ∧ c.dstInput = 1) := by
      intro c hc e
      rw [wires] at hc
      rcases List.mem_append.mp hc with hc | hc
      · exact new.free c hc e.1
      · rw [List.mem_singleton.mp hc] at e
        exact absurd e.2 Nat.zero_ne_one
    refine (wire_yields grows.wired (((exist hb hy).grown new.grows.nodes).grown grows.nodes)
      (same ▸ new.here) inputs free pos).bind fun _ s₄ ⟨grows', same', _⟩ => .pure ?_
    exact h.push ((new.grows.trans grows).trans grows')
      (outputExists_of_getElem? (same' ▸ same ▸ new.here) output)
  rw [Nat.zero_add, List.length_range] at turns
  rw [zip, if_neg arity, turnCount]
  exact turns.bind fun outs s' h => .pure (h.fragment _)

omit [Sample α] A in
/-- `zip` of counts that do not broadcast. -/
theorem zip_refuses {type : String} {a b : Fragment}
    (count : broadcast a.outs.length b.outs.length = none) (pos : Pos) :
    Stateful.Stops (zip reg type a b pos) s
      (.abort (arityDiagnostic a.outs.length b.outs.length pos)) := by
  rw [broadcast] at count
  split_ifs at count with same left right
  rw [zip, if_pos ⟨same, left, right⟩]
  exact ⟨s, rfl⟩

/-- `zip` with a channel missing: its first turn reads it. -/
theorem zip_traps {type : String} (arith : type ∈ ["add", "mul", "div"]) (W : s.bp.Wired)
    {a b : Fragment} (ha : a.OutsExist s.bp) (missing : MissesChannel a.outs.length b.outs.length)
    (pos : Pos) : Stateful.Stops (zip reg type a b pos) s .trap := by
  obtain ⟨nd, made, inputs, output⟩ := A.op type arith
  have one : ¬(a.outs.length ≠ b.outs.length ∧ a.outs.length ≠ 1 ∧ b.outs.length ≠ 1) ∧
      (if b.outs.length < a.outs.length then a.outs.length else b.outs.length) = 1 := by
    rw [MissesChannel] at missing
    exact ⟨by omega, by split_ifs <;> omega⟩
  rw [zip, if_neg one.1, one.2]
  refine Stateful.Stops.bind ?_
  rw [show List.range 1 = [0] from rfl, List.foldlM_cons]
  refine Stateful.Stops.bind ((makeNode_yields made W).bind_stops fun op s₁ new => ?_)
  rcases missing with ⟨empty, -⟩ | ⟨mono, empty⟩
  · have absent : a.outs[if a.outs.length = 1 then 0 else 0]? = none := by
      rw [List.length_eq_zero_iff.mp empty]
      rfl
    rw [absent]
    exact ⟨s₁, rfl⟩
  · obtain ⟨x, hx⟩ := List.length_eq_one_iff.mp mono
    have absent : b.outs[if b.outs.length = 1 then 0 else 0]? = none := by
      rw [List.length_eq_zero_iff.mp empty]
      rfl
    have there : a.outs[if a.outs.length = 1 then 0 else 0]? = some x := by
      rw [hx]
      rfl
    rw [there, absent]
    have exist := (ha x (by rw [hx]; exact List.mem_cons_self)).grown new.grows.nodes
    exact (wire_yields new.grows.wired exist new.here (by omega)
      (fun c hc e => new.free c hc e.1) pos).bind_stops fun _ s₂ _ => ⟨s₂, rfl⟩

/-! ### Arithmetic -/

theorem constant_yields (W : s.bp.Wired) (v : α) :
    Yields (do nodeFragment (← makeConst reg v)) s (Outputs s 1) := by
  obtain ⟨nd, made, one⟩ := A.constant v
  refine (makeNode_yields made W).bind fun i s' new => ?_
  refine ⟨_, s', rfl, ?_, fun c hc => ?_, new.grows⟩
  · rw [List.length_map, List.length_range, GraphBlueprint.outputsOf, new.here]
    exact one
  · obtain ⟨ch, hch, rfl⟩ := List.mem_map.mp hc
    have lt : ch < s'.bp.outputsOf i := List.mem_range.mp hch
    exact ⟨(List.getElem?_eq_some_iff.mp new.here).1, lt⟩

theorem toFrag_yields (W : s.bp.Wired) {v : Value α} (exist : v.OutsExist s.bp) :
    Yields (toFrag reg v) s (Outputs s v.channels) := by
  cases v with
  | number n => exact constant_yields A W n
  | block f => exact .pure ⟨rfl, exist, .refl W⟩

/-- `zip` of two operands, the second made after the first. -/
theorem zipWith_ends {type : String} (arith : type ∈ ["add", "mul", "div"]) (W : s.bp.Wired)
    {l : Value α} (exist : l.OutsExist s.bp) {r : LowerM α Fragment} {nb : Nat}
    (right : ∀ s', Extends s s' → Yields r s' (Outputs s' nb)) (pos : Pos) :
    (broadcast l.channels nb = none →
      Stateful.Stops (zipWith reg type l r pos) s (.abort (arityDiagnostic l.channels nb pos))) ∧
    (MissesChannel l.channels nb → Stateful.Stops (zipWith reg type l r pos) s .trap) ∧
    ∀ n, broadcast l.channels nb = some n → ¬MissesChannel l.channels nb →
      Yields (zipWith reg type l r pos) s (Outputs s n) := by
  have left := toFrag_yields A W exist
  refine ⟨fun count => ?_, fun missing => ?_, fun n count there => ?_⟩
  · refine left.bind_stops fun a s₁ ⟨ha, _, grows⟩ => ?_
    refine (right s₁ grows).bind_stops fun b s₂ ⟨hb, _, _⟩ => ?_
    rw [← ha, ← hb] at count ⊢
    exact zip_refuses count pos
  · refine left.bind_stops fun a s₁ ⟨ha, outs, grows⟩ => ?_
    refine (right s₁ grows).bind_stops fun b s₂ ⟨hb, _, grows'⟩ => ?_
    rw [← ha, ← hb] at missing
    exact zip_traps A arith grows'.wired (outs.grown grows'.nodes) missing pos
  · refine left.bind fun a s₁ ⟨ha, outs, grows⟩ => ?_
    refine (right s₁ grows).bind fun b s₂ ⟨hb, outs', grows'⟩ => ?_
    rw [← ha, ← hb] at count there
    refine (zip_yields A arith grows'.wired (outs.grown grows'.nodes) outs' count there pos).mono
      fun f s' ⟨hf, outs'', grows''⟩ => ?_
    exact ⟨hf, outs'', (grows.trans grows').trans grows''⟩

end Loops

/-! ### What arithmetic promises -/

/-- The operation is done channel by channel; a signal is otherwise scaled by a number. -/
def zips : Tok → Value α → Value α → Bool
  | .star, .block _, .number _ => false
  | .star, .number _, .block _ => false
  | .slash, _, .number _       => false
  | _, _, _                    => true

/-- The end of an operation on two signals.  A result has the channels that broadcasting gives, and
they exist; the counts that do not broadcast are reported, as is a number that would divide by
zero; no channel is read that does not exist. -/
def ArithMeets [Sample α] (pos : Pos) (op : Tok) (l r : Value α) :
    Outcome Diagnostic (Value α) × Lowerer α → Prop
  | (.ok v, s)            =>
      broadcast l.channels r.channels = some v.channels ∧ v.OutsExist s.bp
  | (.stop (.abort d), _) =>
      broadcast l.channels r.channels = none ∧
        d = arityDiagnostic l.channels r.channels pos ∨
      ∃ n, op = .slash ∧ r = .number n ∧ Sample.same n 0 = true ∧ d = ⟨"division by zero", pos⟩
  | (.stop _, _)          => False

theorem broadcast_one (n : Nat) : broadcast n 1 = some n := by
  rw [broadcast]
  split_ifs with h <;> simp_all

theorem one_broadcast (n : Nat) : broadcast 1 n = some n := by
  rw [broadcast]
  split_ifs with h <;> simp_all

section Promise

variable [Sample α] {reg : NodeRegistry α} {s : Lowerer α} {pos : Pos} {op : Tok} {l r : Value α}

/-- An operation on signals, and its result a block. -/
def blockOf (m : LowerM α Fragment) : LowerM α (Value α) := do return .block (← m)

theorem arith_signals (reg : NodeRegistry α) (pos : Pos) (op : Tok) (ea eb : Expr α)
    (signal : ∀ a b, ¬(l = .number a ∧ r = .number b)) :
    arith reg pos op ea eb l r = blockOf (arithSignals reg pos op ea eb l r) := by
  cases l with
  | block f => rfl
  | number a =>
      cases r with
      | block f => rfl
      | number b => exact absurd ⟨rfl, rfl⟩ (signal a b)

theorem ArithMeets.of_yields {m : LowerM α Fragment} {n : Nat} (h : Yields m s (Outputs s n))
    (count : broadcast l.channels r.channels = some n) : ArithMeets pos op l r (blockOf m s) := by
  obtain ⟨f, s', run, outs, exist, -⟩ := h
  rw [blockOf, bind_of_ok run]
  exact ⟨count.trans (congrArg some outs.symm), exist⟩

theorem ArithMeets.of_refuses {m : LowerM α Fragment}
    (h : Stateful.Stops m s (.abort (arityDiagnostic l.channels r.channels pos)))
    (count : broadcast l.channels r.channels = none) : ArithMeets pos op l r (blockOf m s) := by
  obtain ⟨s', run⟩ := h
  rw [blockOf, bind_of_stop run]
  exact .inl ⟨count, rfl⟩

theorem not_arithMeets_of_traps {m : LowerM α Fragment} (h : Stateful.Stops m s .trap) :
    ¬ ArithMeets pos op l r (blockOf m s) := by
  obtain ⟨s', run⟩ := h
  rw [blockOf, bind_of_stop run]
  exact id

variable (A : ArithmeticNodes reg)

include A

/-- A channel by channel operation. -/
theorem zipWith_meets_iff {type : String} (arith : type ∈ ["add", "mul", "div"]) (W : s.bp.Wired)
    (exist : l.OutsExist s.bp) {m : LowerM α Fragment}
    (right : ∀ s', Extends s s' → Yields m s' (Outputs s' r.channels)) :
    ArithMeets pos op l r (blockOf (zipWith reg type l m pos) s) ↔
      ¬MissesChannel l.channels r.channels := by
  obtain ⟨refuses, traps, yields⟩ := zipWith_ends A arith W exist right pos
  constructor
  · exact fun meets missing => not_arithMeets_of_traps (traps missing) meets
  · intro there
    cases count : broadcast l.channels r.channels with
    | none => exact .of_refuses (refuses count) count
    | some n => exact .of_yields (yields n count there) count

theorem negated_yields (W : s.bp.Wired) (exist : r.OutsExist s.bp) :
    Yields (negated reg pos r) s (Outputs s r.channels) := by
  cases r with
  | number n => exact constant_yields A W (-n)
  | block f => exact negate_yields A W exist pos

theorem arithStar_meets_iff (W : s.bp.Wired) (hl : l.OutsExist s.bp) (hr : r.OutsExist s.bp)
    (ea eb : Expr α) : ArithMeets pos .star l r (blockOf (arithStar reg pos ea eb l r) s) ↔
      ¬(zips .star l r = true ∧ MissesChannel l.channels r.channels) := by
  have zipped : ArithMeets pos .star l r (blockOf (zipWith reg "mul" l (toFrag reg r) pos) s) ↔
      ¬MissesChannel l.channels r.channels :=
    zipWith_meets_iff A (by decide) W hl fun s' grows =>
      toFrag_yields A grows.wired (Value.OutsExist.grown hr grows.nodes)
  cases l with
  | number a =>
      cases r with
      | number b => exact zipped.trans (not_congr (and_iff_right rfl).symm)
      | block f =>
          refine iff_of_true ?_ fun h => Bool.noConfusion h.1
          exact .of_yields (scale_yields A W hr a pos (some ea)) (one_broadcast _)
  | block f =>
      cases r with
      | number b =>
          refine iff_of_true ?_ fun h => Bool.noConfusion h.1
          exact .of_yields (scale_yields A W hl b pos (some eb)) (broadcast_one _)
      | block g => exact zipped.trans (not_congr (and_iff_right rfl).symm)

theorem arithSlash_meets_iff (W : s.bp.Wired) (hl : l.OutsExist s.bp) (hr : r.OutsExist s.bp) :
    ArithMeets pos .slash l r (blockOf (arithSlash reg pos l r) s) ↔
      ¬(zips .slash l r = true ∧ MissesChannel l.channels r.channels) := by
  cases r with
  | block g =>
      have zipped : ArithMeets pos .slash l (.block g)
          (blockOf (zipWith reg "div" l (pure g) pos) s) ↔
          ¬MissesChannel l.channels g.outs.length :=
        zipWith_meets_iff A (by decide) W hl fun s' grows =>
          .pure ⟨rfl, Value.OutsExist.grown hr grows.nodes, .refl grows.wired⟩
      cases l <;> exact zipped.trans (not_congr (and_iff_right rfl).symm)
  | number n =>
      refine iff_of_true ?_ fun h => by cases l <;> exact Bool.noConfusion h.1
      rw [arithSlash]
      by_cases zero : Sample.same n 0 = true
      · rw [if_pos zero]
        exact .inr ⟨n, rfl, rfl, zero, rfl⟩
      · rw [if_neg zero]
        refine .of_yields ((toFrag_yields A W hl).bind fun f s' ⟨count, outs, grows⟩ => ?_)
          (broadcast_one _)
        rw [← count]
        refine (scale_yields A grows.wired outs (1 / n) pos none).mono
          fun f' s₂ ⟨count', outs', grows'⟩ => ?_
        exact ⟨count', outs', grows.trans grows'⟩

end Promise

/-! ### The standard registry -/

section Standard

variable [Sample α] [Trig α]

theorem standardRegistry_arithmetic : ArithmeticNodes (standardRegistry : NodeRegistry α) where
  gain args := ⟨_, rfl, Nat.one_pos, Nat.one_pos⟩
  inv := ⟨_, rfl, Nat.one_pos, Nat.one_pos⟩
  op type ht := by
    simp only [List.mem_cons, List.not_mem_nil, or_false] at ht
    rcases ht with rfl | rfl | rfl <;> exact ⟨_, rfl, Nat.one_lt_two, Nat.one_pos⟩
  constant v := ⟨_, rfl, rfl⟩

/-- **Signal arithmetic keeps its promise exactly when no channel is missing**: it reads a channel
that does not exist when it goes channel by channel over a mono operand and one without
channels. -/
theorem arith_meets_iff {s : Lowerer α} (W : s.bp.Wired) {l r : Value α} (hl : l.OutsExist s.bp)
    (hr : r.OutsExist s.bp) {op : Tok} (arith : op ∈ [Tok.plus, .minus, .star, .slash])
    (signal : ∀ a b, ¬(l = .number a ∧ r = .number b)) (pos : Pos) (ea eb : Expr α) :
    ArithMeets pos op l r (Lang.arith standardRegistry pos op ea eb l r s) ↔
      ¬(zips op l r = true ∧ MissesChannel l.channels r.channels) := by
  have A := standardRegistry_arithmetic (α := α)
  rw [arith_signals standardRegistry pos op ea eb signal]
  simp only [List.mem_cons, List.not_mem_nil, or_false] at arith
  rcases arith with rfl | rfl | rfl | rfl
  · have zipped : ArithMeets pos .plus l r
        (blockOf (zipWith standardRegistry "add" l (toFrag standardRegistry r) pos) s) ↔
        ¬MissesChannel l.channels r.channels :=
      zipWith_meets_iff A (by decide) W hl fun s' grows =>
        toFrag_yields A grows.wired (hr.grown grows.nodes)
    exact zipped.trans (not_congr (and_iff_right rfl).symm)
  · have zipped : ArithMeets pos .minus l r
        (blockOf (zipWith standardRegistry "add" l (negated standardRegistry pos r) pos) s) ↔
        ¬MissesChannel l.channels r.channels :=
      zipWith_meets_iff A (by decide) W hl fun s' grows =>
        negated_yields A grows.wired (hr.grown grows.nodes)
    exact zipped.trans (not_congr (and_iff_right rfl).symm)
  · exact arithStar_meets_iff A W hl hr ea eb
  · exact arithSlash_meets_iff A W hl hr

end Standard

section Cut

/-- A mono source and a stereo one. -/
noncomputable def monoAndStereo : Lowerer ℝ where
  bp := { nodes := [Nodes.constant 1, Nodes.monoToStereo], names := ["a", "b"] }

/-- Mono and stereo make stereo. -/
theorem arith_meets_monoAndStereo : ArithMeets {} .plus (.block ⟨[], [⟨0, 0⟩]⟩)
    (.block ⟨[⟨1, 0⟩], [⟨1, 0⟩, ⟨1, 1⟩]⟩)
    (arith standardRegistry {} .plus (.ident {} "a") (.ident {} "b") (.block ⟨[], [⟨0, 0⟩]⟩)
      (.block ⟨[⟨1, 0⟩], [⟨1, 0⟩, ⟨1, 1⟩]⟩) monoAndStereo) := by
  refine (arith_meets_iff (.bare rfl rfl) (fun c hc => ?_) (fun c hc => ?_) (by decide)
    (fun a b h => by cases h.1) _ _ _).mpr fun h => absurd h.2 (by decide)
  · obtain rfl := List.mem_singleton.mp hc
    exact ⟨by decide, Nat.one_pos⟩
  · simp only [List.mem_cons, List.not_mem_nil, or_false] at hc
    rcases hc with rfl | rfl
    · exact ⟨by decide, Nat.zero_lt_two⟩
    · exact ⟨by decide, Nat.one_lt_two⟩

/-- `rune r() out (! + 1) end`. -/
noncomputable def cutPlusOne : Definition ℝ :=
  ⟨"r", [], [.out {} (.binary {} .plus (.ident {} "!") (.number {} 1)) "" (-1)], {}⟩

/-- The cut has no channel to add to. -/
theorem cut_plus_one_traps :
    (∃ f s, evalExpr standardRegistry [] 1 (.ident {} "!") (fun _ => none) "" ({} : Lowerer ℝ)
        = (.ok (.block f), s) ∧ s.bp.Wired ∧ f.OutsExist s.bp ∧
      ¬ ArithMeets {} .plus (.block f) (.number 1)
        (arith standardRegistry {} .plus (.ident {} "!") (.number {} 1) (.block f) (.number 1) s)) ∧
    Stateful.Stops (lowerRune standardRegistry [] (evalExpr standardRegistry [] 2) cutPlusOne)
      {} .trap := by
  refine ⟨⟨_, _, rfl, .bare rfl rfl, nofun, id⟩, ⟨_, rfl⟩⟩

end Cut

end Xrune.Lang
