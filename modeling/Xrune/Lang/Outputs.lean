import Xrune.Lang.Account
import Xrune.Lang.Sound
import Xrune.Core.Instance

/-!
# Lang — the outputs of a rune

An `out` statement asks for channels of a terminal: the outputs of its expression, from its base
index on (`Placement`).  What a rune asks for is what its `out` statements ask for, in order;
`askRune` lowers it without looking whether a channel is taken.

The channels of a terminal are those asked for, if none is asked for twice, with silence in the
gaps; a rune that asks for a channel twice is refused (`outputs_placed`).
-/

namespace Xrune.Lang

open Stateful

variable {α : Type}

/-- What an `out` statement asks for. -/
structure Placement where
  terminal : String
  base : Nat
  sources : List Chan
  deriving DecidableEq, Repr

/-- The channels of the terminal it asks for, and their sources. -/
def Placement.channels (p : Placement) : List (Nat × Chan) :=
  p.sources.zipIdx.map fun c => (p.base + c.2, c.1)

/-- What is asked for of a terminal. -/
def ownChannels (asked : List Placement) (n : String) : List (Nat × Chan) :=
  (asked.filter fun p => p.terminal == n).flatMap Placement.channels

/-- No channel of a terminal is asked for twice. -/
def NoTwice (asked : List Placement) : Prop :=
  ∀ n, ((ownChannels asked n).map Prod.fst).Nodup

def IsAsked (asked : List Placement) (n : String) : Prop := ∃ p ∈ asked, p.terminal = n

theorem ownChannels_append (asked more : List Placement) (n : String) :
    ownChannels (asked ++ more) n = ownChannels asked n ++ ownChannels more n := by
  rw [ownChannels, List.filter_append, List.flatMap_append]
  rfl

theorem ownChannels_self (p : Placement) : ownChannels [p] p.terminal = p.channels := by
  simp [ownChannels]

theorem ownChannels_other {p : Placement} {n : String} (h : p.terminal ≠ n) :
    ownChannels [p] n = [] := by
  simp [ownChannels, h]

theorem NoTwice.of_prefix {asked more : List Placement} (h : NoTwice more)
    (sub : asked <+: more) : NoTwice asked := by
  obtain ⟨rest, rfl⟩ := sub
  intro n
  have all := h n
  rw [ownChannels_append, List.map_append] at all
  exact all.of_append_left

theorem mem_ownChannels {asked : List Placement} {n : String} {kx : Nat × Chan} :
    kx ∈ ownChannels asked n ↔ ∃ p ∈ asked, p.terminal = n ∧ kx ∈ p.channels := by
  simp only [ownChannels, List.mem_flatMap, List.mem_filter, beq_iff_eq, and_assoc]

theorem mem_channels {p : Placement} {k : Nat} {x : Chan} :
    (k, x) ∈ p.channels ↔ ∃ c, p.sources[c]? = some x ∧ p.base + c = k := by
  simp only [Placement.channels, List.mem_map, List.mem_zipIdx_iff_getElem?, Prod.exists,
    Prod.mk.injEq]
  constructor
  · rintro ⟨y, c, hc, rfl, rfl⟩
    exact ⟨c, hc, rfl⟩
  · rintro ⟨c, hc, rfl⟩
    exact ⟨x, c, hc, rfl, rfl⟩

/-! ### Asking -/

/-- The terminal `name`, made if it is new, has the channels `l`. -/
def Lowerer.hold (s : Lowerer α) (name : String) (l : List (Nat × Chan)) : Lowerer α :=
  { s with outTerminals := fun n => if n = name then some ⟨l⟩ else s.outTerminals n }

/-- What `openTerminal` does. -/
def Lowerer.opened (s : Lowerer α) (name : String) : Lowerer α :=
  if (s.outTerminals name).isSome then s
  else { s with
    outTerminals := fun n => if n = name then some {} else s.outTerminals n
    outOrder := s.outOrder ++ [name] }

/-- The placement is put down, beside whatever is there. -/
def Lowerer.put (s : Lowerer α) (p : Placement) : Lowerer α :=
  (s.opened p.terminal).hold p.terminal
    (((s.outTerminals p.terminal).getD {}).byIndex ++ p.channels)

section Asking

variable [Sample α] (reg : NodeRegistry α) (sigils : List (Definition α)) (eval : Eval α)

/-- `do_out` without its look at the channels that are taken. -/
def askOut (pos : Pos) (e : Expr α) (terminal : String) (outIndex : Int) (sc : Scope α) :
    LowerM α (Placement × Scope α) := do
  let f ← evalFragment reg eval e sc.env
  if f.outs = [] then fail pos "'out' expression produces no output"
  else if terminal = "out" then fail pos "'as out' is reserved; use a plain 'out'"
  else do
    let p : Placement := ⟨if terminal = "" then "out" else terminal,
      if outIndex < 0 then 0 else outIndex.toNat, f.outs⟩
    modify fun s => s.put p
    return (p, if p.terminal = "out" then { sc with haveOut := some true } else sc)

def askStmt (s : Stmt α) (sc : Scope α) : LowerM α (List Placement × Value α × Scope α) :=
  match s with
  | .out pos e terminal idx =>
      if sc.haveOut.isNone then fail pos "'out' is not allowed inside a sigil"
      else do
        let (p, sc) ← askOut reg eval pos e terminal idx sc
        return ([p], .number 0, sc)
  | s => do
      let (v, sc) ← doStmt reg sigils eval s sc
      return ([], v, sc)

/-- The turn of a body for a statement, with what was asked for so far. -/
def askTurn (acc : List Placement × Value α × Scope α) (s : Stmt α) :
    LowerM α (List Placement × Value α × Scope α) := do
  let (more, v, sc) ← askStmt reg sigils eval s acc.2.2
  return (acc.1 ++ more, v, sc)

/-- What a rune asks for; its channels are put down whether they are taken or not. -/
def askRune (r : Definition α) : LowerM α (List Placement) := do
  modify Lowerer.reset
  let sc ← r.params.foldlM (bindRuneParam eval) ⟨fun _ => none, [], some false⟩
  let (asked, _, _) ← r.body.foldlM (askTurn reg sigils eval) ([], .number 0, sc)
  return asked

/-- The parameters and the body of a rune, and its outputs. -/
def placeRune (r : Definition α) : LowerM α Unit := do
  modify Lowerer.reset
  let _ ← runeBody reg sigils eval r
  modify Lowerer.finalizeOutputs

end Asking

/-! ### One statement -/

/-- The lowerer holds what was asked for. -/
structure Holds (asked : List Placement) (s : Lowerer α) : Prop where
  terminal : ∀ n, IsAsked asked n → s.outTerminals n = some ⟨ownChannels asked n⟩
  others : ∀ n, ¬IsAsked asked n → s.outTerminals n = none
  order : s.outOrder.Nodup
  named : ∀ n, n ∈ s.outOrder ↔ IsAsked asked n
  heard : ∀ p ∈ asked, p.sources ≠ []
  noTerminals : s.bp.outputTerminals = []

namespace Holds

variable {asked : List Placement} {s s' : Lowerer α}

theorem of_eq (h : Holds asked s) (terminals : s'.outTerminals = s.outTerminals)
    (order : s'.outOrder = s.outOrder) (outputs : s'.bp.outputTerminals = s.bp.outputTerminals) :
    Holds asked s' where
  terminal n hn := by rw [terminals, h.terminal n hn]
  others n hn := by rw [terminals, h.others n hn]
  order := order ▸ h.order
  named n := by rw [order, h.named]
  heard := h.heard
  noTerminals := outputs.trans h.noTerminals

/-- The accumulated channels of a terminal. -/
theorem byIndex (h : Holds asked s) (n : String) :
    ((s.outTerminals n).getD {}).byIndex = ownChannels asked n := by
  by_cases hn : IsAsked asked n
  · rw [h.terminal n hn]
    rfl
  · rw [h.others n hn]
    refine (List.eq_nil_iff_forall_not_mem.mpr fun kx hkx => ?_).symm
    obtain ⟨p, hp, name, -⟩ := mem_ownChannels.mp hkx
    exact hn ⟨p, hp, name⟩

theorem put (h : Holds asked s) {p : Placement} (heard : p.sources ≠ []) :
    Holds (asked ++ [p]) (s.put p) := by
  have asks (n : String) : IsAsked (asked ++ [p]) n ↔ IsAsked asked n ∨ p.terminal = n := by
    simp only [IsAsked, List.mem_append, List.mem_singleton, or_and_right, exists_or,
      exists_eq_left]
  have own : ownChannels (asked ++ [p]) p.terminal =
      ((s.outTerminals p.terminal).getD {}).byIndex ++ p.channels := by
    rw [ownChannels_append, ownChannels_self, h.byIndex]
  have other {n : String} (hn : p.terminal ≠ n) :
      ownChannels (asked ++ [p]) n = ownChannels asked n := by
    rw [ownChannels_append, ownChannels_other hn, List.append_nil]
  have old {n : String} (hn : p.terminal ≠ n) : (s.put p).outTerminals n = s.outTerminals n := by
    rw [Lowerer.put, Lowerer.hold, Lowerer.opened]
    split_ifs <;> simp [Ne.symm hn]
  have order : (s.put p).outOrder =
      if (s.outTerminals p.terminal).isSome then s.outOrder else s.outOrder ++ [p.terminal] := by
    rw [Lowerer.put, Lowerer.hold, Lowerer.opened]
    split_ifs <;> rfl
  have opened : (s.outTerminals p.terminal).isSome ↔ p.terminal ∈ s.outOrder := by
    rw [h.named]
    by_cases hp : IsAsked asked p.terminal
    · simp [h.terminal _ hp, hp]
    · simp [h.others _ hp, hp]
  refine ⟨fun n hn => ?_, fun n hn => ?_, ?_, fun n => ?_, fun q hq => ?_, ?_⟩
  · by_cases same : p.terminal = n
    · subst same
      rw [own]
      exact if_pos rfl
    · rw [old same, other same]
      exact h.terminal n (((asks n).mp hn).resolve_right same)
  · have hn := not_or.mp (mt (asks n).mpr hn)
    rw [old hn.2, h.others n hn.1]
  · rw [order]
    split_ifs with made
    · exact h.order
    · refine h.order.append (List.nodup_singleton _) ?_
      rw [List.disjoint_singleton]
      exact fun hp => made (opened.mpr hp)
  · rw [asks, order, ← h.named]
    split_ifs with made
    · exact ⟨.inl, fun hn => hn.elim id fun e => e ▸ opened.mp made⟩
    · rw [List.mem_append, List.mem_singleton, eq_comm]
  · rcases List.mem_append.mp hq with hq | hq
    · exact h.heard q hq
    · exact List.mem_singleton.mp hq ▸ heard
  · rw [← h.noTerminals, Lowerer.put, Lowerer.hold, Lowerer.opened]
    split_ifs <;> rfl

end Holds

theorem OutAcc.find_isSome {l : List (Nat × Chan)} {k : Nat} :
    ((⟨l⟩ : OutAcc).find k).isSome ↔ k ∈ l.map Prod.fst := by
  rw [OutAcc.find, Option.isSome_map, List.find?_isSome, List.mem_map]
  simp only [beq_iff_eq]

theorem Lowerer.hold_hold (s : Lowerer α) (name : String) (l l' : List (Nat × Chan)) :
    (s.hold name l).hold name l' = s.hold name l' := by
  simp only [Lowerer.hold]
  congr
  funext n
  split_ifs <;> rfl

theorem Lowerer.hold_self (s : Lowerer α) (name : String) (l : List (Nat × Chan)) :
    (s.hold name l).outTerminals name = some ⟨l⟩ := if_pos rfl

theorem placeChannel_run (pos : Pos) {name : String} {s : Lowerer α} {old : List (Nat × Chan)}
    (held : s.outTerminals name = some ⟨old⟩) (k : Nat) (x : Chan) :
    (k ∉ old.map Prod.fst →
      placeChannel pos name k x s = (.ok (), s.hold name (old ++ [(k, x)]))) ∧
    (k ∈ old.map Prod.fst → ∃ d, placeChannel pos name k x s = (.stop (.abort d), s)) := by
  have run : placeChannel pos name k x s =
      (if ((⟨old⟩ : OutAcc).find k).isSome then fail pos ("output channel " ++ toString k
          ++ " of terminal '" ++ name ++ "' is assigned more than once")
        else modify fun s => s.hold name (old ++ [(k, x)]) : LowerM α Unit) s := by
    show (if (((s.outTerminals name).getD {}).find k).isSome then _ else _ : LowerM α Unit) s = _
    rw [held]
    rfl
  rw [run]
  constructor
  · intro free
    rw [if_neg (mt OutAcc.find_isSome.mp free)]
    rfl
  · intro taken
    rw [if_pos (OutAcc.find_isSome.mpr taken)]
    exact ⟨_, rfl⟩

/-- The loop of `do_out` over channels of a terminal. -/
theorem placeChannels_run (pos : Pos) (name : String) :
    ∀ (l old : List (Nat × Chan)) (s : Lowerer α), (s.outTerminals name) = some ⟨old⟩ →
      (old.map Prod.fst).Nodup →
      (((old ++ l).map Prod.fst).Nodup →
        l.forM (fun kx => placeChannel pos name kx.1 kx.2) s = (.ok (), s.hold name (old ++ l))) ∧
      (¬((old ++ l).map Prod.fst).Nodup →
        ∃ d, Stateful.Stops (l.forM fun kx => placeChannel pos name kx.1 kx.2) s (.abort d))
  | [], old, s, held, nodup => by
      rw [List.append_nil]
      refine ⟨fun _ => ?_, fun h => absurd nodup h⟩
      have same : s.hold name old = s := by
        rw [Lowerer.hold]
        congr
        funext n
        split_ifs with hn
        · rw [hn, held]
        · rfl
      rw [same]
      rfl
  | kx :: l, old, s, held, nodup => by
      have split : old ++ kx :: l = (old ++ [kx]) ++ l := by rw [List.append_assoc]; rfl
      obtain ⟨places, refuses⟩ := placeChannel_run pos held kx.1 kx.2
      by_cases taken : kx.1 ∈ old.map Prod.fst
      · obtain ⟨d, run⟩ := refuses taken
        refine ⟨fun all => absurd taken ?_, fun _ => ⟨d, Stateful.Stops.bind ⟨s, run⟩⟩⟩
        rw [List.map_append, List.map_cons] at all
        exact fun mem => List.disjoint_of_nodup_append all mem List.mem_cons_self
      · have more : ((old ++ [kx]).map Prod.fst).Nodup := by
          rw [List.map_append]
          exact nodup.append (List.nodup_singleton _) (List.disjoint_singleton.mpr taken)
        obtain ⟨yes, no⟩ := placeChannels_run pos name l (old ++ [kx]) (s.hold name (old ++ [kx]))
          (s.hold_self name _) more
        rw [split]
        refine ⟨fun all => ?_, fun all => ?_⟩
        · have rest := yes all
          rw [Lowerer.hold_hold] at rest
          exact (bind_of_ok (places taken)).trans rest
        · obtain ⟨d, s', rest⟩ := no all
          exact ⟨d, s', (bind_of_ok (places taken)).trans rest⟩

/-! ### Statements -/

/-- Evaluation touches no output. -/
def Account.outputs (reg : NodeRegistry α) : Account reg where
  rel _ s s' := s'.outTerminals = s.outTerminals ∧ s'.outOrder = s.outOrder ∧
    s'.bp.outputTerminals = s.bp.outputTerminals
  refl _ := ⟨rfl, rfl, rfl⟩
  trans h h' := ⟨h'.1.trans h.1, h'.2.1.trans h.2.1, h'.2.2.trans h.2.2⟩
  bound _ _ := ⟨rfl, rfl, rfl⟩
  fresh _ _ _ _ := ⟨rfl, rfl, rfl⟩
  connected s src out dst inp one := by
    obtain ⟨-, rfl⟩ := GraphBlueprint.connect_eq_some.mp one
    exact ⟨rfl, rfl, rfl⟩
  driven s src out dst param one := by
    obtain ⟨-, rfl⟩ := GraphBlueprint.connectParam_eq_some.mp one
    exact ⟨rfl, rfl, rfl⟩
  bindsParam s name t := by
    rw [Lowerer.bindParam]
    cases s.bp.findRuneParam name with
    | none => exact ⟨rfl, rfl, rfl⟩
    | some pi => exact ⟨rfl, rfl, rfl⟩
  uses _ _ := ⟨rfl, rfl, rfl⟩
  declares _ _ _ := ⟨rfl, rfl, rfl⟩
  entered _ _ h := h

section Statements

variable [Sample α] {reg : NodeRegistry α} {sigils : List (Definition α)} {fuel : Nat}
  {asked : List Placement} {s s' : Lowerer α}

omit [Sample α] in
theorem Holds.emits {β : Type} (h : Holds asked s) {pre : String} {m : LowerM α β}
    {l : List String} (emits : Emits (Account.outputs reg) pre m l) (hs : s.namePrefix = pre)
    {b : β} (run : m s = (.ok b, s')) : Holds asked s' := by
  obtain ⟨-, terminals, order, outputs⟩ := emits s b s' hs run
  exact h.of_eq terminals order outputs

omit [Sample α] in
/-- What one more placement asks for twice, it asks for of its own terminal. -/
theorem noTwice_append (h : NoTwice asked) (p : Placement) : NoTwice (asked ++ [p]) ↔
    ((ownChannels asked p.terminal ++ p.channels).map Prod.fst).Nodup := by
  constructor
  · intro all
    have own := all p.terminal
    rwa [ownChannels_append, ownChannels_self] at own
  · intro own n
    by_cases same : p.terminal = n
    · subst same
      rwa [ownChannels_append, ownChannels_self]
    · rw [ownChannels_append, ownChannels_other same, List.append_nil]
      exact h n

omit [Sample α] in
/-- The loop of `do_out`, on a new terminal or an old one. -/
theorem Holds.places (h : Holds asked s) (once : NoTwice asked) (pos : Pos) (p : Placement) :
    (NoTwice (asked ++ [p]) →
      openTerminal p.terminal s = (.ok (), s.opened p.terminal) ∧
      p.sources.zipIdx.forM (fun c => placeChannel pos p.terminal (p.base + c.2) c.1)
        (s.opened p.terminal) = (.ok (), s.put p)) ∧
    (¬NoTwice (asked ++ [p]) →
      openTerminal p.terminal s = (.ok (), s.opened p.terminal) ∧
      ∃ d, Stateful.Stops
        (p.sources.zipIdx.forM fun c => placeChannel pos p.terminal (p.base + c.2) c.1)
        (s.opened p.terminal) (.abort d)) := by
  have held : (s.opened p.terminal).outTerminals p.terminal =
      some ⟨ownChannels asked p.terminal⟩ := by
    rw [← h.byIndex, Lowerer.opened]
    cases old : s.outTerminals p.terminal with
    | none => exact if_pos rfl
    | some acc => exact old
  have loop : (p.sources.zipIdx.forM fun c => placeChannel pos p.terminal (p.base + c.2) c.1 :
      LowerM α Unit) = p.channels.forM fun kx => placeChannel pos p.terminal kx.1 kx.2 := by
    exact (List.forM_map (g := fun c : Chan × Nat => (p.base + c.2, c.1))
      (f := fun kx : Nat × Chan => placeChannel pos p.terminal kx.1 kx.2)).symm
  obtain ⟨yes, no⟩ := placeChannels_run pos p.terminal p.channels _ _ held (once p.terminal)
  rw [noTwice_append once, loop]
  refine ⟨fun all => ⟨rfl, ?_⟩, fun all => ⟨rfl, no all⟩⟩
  rw [yes all, Lowerer.put, h.byIndex]

/-- An `out` statement is refused exactly when it asks for a channel that is taken. -/
theorem doOut_run {pos : Pos} {e : Expr α} {terminal : String} {k : Int} {sc sc' : Scope α}
    {p : Placement} (h : Holds asked s) (once : NoTwice asked)
    (ask : askOut reg (evalExpr reg sigils fuel) pos e terminal k sc s = (.ok (p, sc'), s')) :
    Holds (asked ++ [p]) s' ∧
      (NoTwice (asked ++ [p]) →
        doOut reg (evalExpr reg sigils fuel) pos e terminal k sc s = (.ok sc', s')) ∧
      (¬NoTwice (asked ++ [p]) →
        ∃ d, Stateful.Stops (doOut reg (evalExpr reg sigils fuel) pos e terminal k sc) s
          (.abort d)) := by
  obtain ⟨f, s₁, frag, rest⟩ := bind_ok.mp ask
  have h₁ : Holds asked s₁ :=
    h.emits (evalFragment_emits (evalExpr_emits (Account.outputs reg) sigils fuel) e) rfl frag
  have out : doOut reg (evalExpr reg sigils fuel) pos e terminal k sc s = _ := bind_of_ok frag
  by_cases silent : f.outs = []
  · rw [if_pos silent] at rest
    cases rest
  by_cases reserved : terminal = "out"
  · rw [if_neg silent, if_pos reserved] at rest
    cases rest
  rw [if_neg silent, if_neg reserved] at rest out
  cases rest
  obtain ⟨yes, no⟩ := h₁.places once pos ⟨if terminal = "" then "out" else terminal,
    if k < 0 then 0 else k.toNat, f.outs⟩
  refine ⟨h₁.put silent, fun all => ?_, fun all => ?_⟩
  · obtain ⟨opens, places⟩ := yes all
    rw [out]
    exact (bind_of_ok opens).trans (bind_of_ok places)
  · obtain ⟨opens, d, s₂, places⟩ := no all
    exact ⟨d, s₂, out.trans ((bind_of_ok opens).trans (bind_of_stop places))⟩

/-! ### Bodies -/

/-- A statement that is not an `out` asks for nothing. -/
theorem askStmt_run {st : Stmt α} {sc : Scope α} {more : List Placement} {r : Value α × Scope α}
    (h : Holds asked s) (once : NoTwice asked)
    (ask : askStmt reg sigils (evalExpr reg sigils fuel) st sc s = (.ok (more, r), s')) :
    Holds (asked ++ more) s' ∧
      (NoTwice (asked ++ more) →
        doStmt reg sigils (evalExpr reg sigils fuel) st sc s = (.ok r, s')) ∧
      (¬NoTwice (asked ++ more) →
        ∃ d, Stateful.Stops (doStmt reg sigils (evalExpr reg sigils fuel) st sc) s (.abort d)) := by
  have other (h' : ¬st.IsOut) (ask : (do
      let (v, sc) ← doStmt reg sigils (evalExpr reg sigils fuel) st sc
      return ([], v, sc) : LowerM α (List Placement × Value α × Scope α)) s
        = (.ok (more, r), s')) :
      Holds (asked ++ more) s' ∧
        (NoTwice (asked ++ more) →
          doStmt reg sigils (evalExpr reg sigils fuel) st sc s = (.ok r, s')) ∧
        (¬NoTwice (asked ++ more) →
          ∃ d, Stateful.Stops (doStmt reg sigils (evalExpr reg sigils fuel) st sc) s
            (.abort d)) := by
    obtain ⟨⟨v, sc'⟩, s₁, run, rest⟩ := bind_ok.mp ask
    cases rest
    rw [List.append_nil]
    refine ⟨?_, fun _ => run, fun all => absurd once all⟩
    exact h.emits (doStmt_emits (evalExpr_emits (Account.outputs reg) sigils fuel)
      (fun _ _ _ _ => ⟨rfl, rfl, rfl⟩) fun _ out => absurd out h') rfl run
  cases st with
  | out pos e terminal k =>
      by_cases sigil : sc.haveOut.isNone
      · have ask : (if sc.haveOut.isNone = true then _ else _ : LowerM α _) s = _ := ask
        rw [if_pos sigil] at ask
        cases ask
      · have ask : (if sc.haveOut.isNone = true then _ else _ : LowerM α _) s = _ := ask
        rw [if_neg sigil] at ask
        obtain ⟨⟨p, sc'⟩, s₁, run, rest⟩ := bind_ok.mp ask
        cases rest
        obtain ⟨holds, yes, no⟩ := doOut_run h once run
        have stmt : doStmt reg sigils (evalExpr reg sigils fuel) (.out pos e terminal k) sc =
            (doOut reg (evalExpr reg sigils fuel) pos e terminal k sc >>= fun sc =>
              pure (.number 0, sc)) := if_neg sigil
        rw [stmt]
        refine ⟨holds, fun all => (bind_of_ok (yes all)).trans rfl, fun all => ?_⟩
        obtain ⟨d, stops⟩ := no all
        exact ⟨d, stops.bind⟩
  | binding pos name value => exact other id ask
  | wire pos e => exact other id ask
  | modulate pos source target => exact other id ask
  | explicitWire pos source node i => exact other id ask
  | input pos name args => exact other id ask

theorem askTurns_grow {body : List (Stmt α)} :
    ∀ {acc acc' : List Placement × Value α × Scope α} {s : Lowerer α},
      body.foldlM (askTurn reg sigils (evalExpr reg sigils fuel)) acc s = (.ok acc', s') →
      acc.1 <+: acc'.1 := by
  induction body with
  | nil =>
      rintro acc acc' s ⟨⟩
      exact List.prefix_rfl
  | cons st body ih =>
      intro acc acc' s run
      rw [List.foldlM_cons] at run
      obtain ⟨acc₁, s₁, turn, rest⟩ := bind_ok.mp run
      obtain ⟨⟨more, v, sc⟩, s₂, -, last⟩ := bind_ok.mp turn
      cases last
      exact (List.prefix_append _ _).trans (ih rest)

/-- A body is refused exactly when it asks for a channel twice. -/
theorem askBody_run {body : List (Stmt α)} :
    ∀ {v v' : Value α} {sc sc' : Scope α} {asked asked' : List Placement} {s : Lowerer α},
      Holds asked s → NoTwice asked →
      body.foldlM (askTurn reg sigils (evalExpr reg sigils fuel)) (asked, v, sc) s
        = (.ok (asked', v', sc'), s') →
      (NoTwice asked' → Holds asked' s' ∧
        body.foldlM (fun acc st => doStmt reg sigils (evalExpr reg sigils fuel) st acc.2) (v, sc) s
          = (.ok (v', sc'), s')) ∧
      (¬NoTwice asked' → ∃ d, Stateful.Stops (body.foldlM (fun acc st =>
        doStmt reg sigils (evalExpr reg sigils fuel) st acc.2) (v, sc)) s (.abort d)) := by
  induction body with
  | nil =>
      rintro v v' sc sc' asked asked' s h once ⟨⟩
      exact ⟨fun _ => ⟨h, rfl⟩, fun all => absurd once all⟩
  | cons st body ih =>
      intro v v' sc sc' asked asked' s h once run
      rw [List.foldlM_cons] at run
      obtain ⟨acc₁, s₁, turn, rest⟩ := bind_ok.mp run
      obtain ⟨⟨more, v₁, sc₁⟩, s₂, ask, last⟩ := bind_ok.mp turn
      cases last
      obtain ⟨holds, yes, no⟩ := askStmt_run h once ask
      rw [List.foldlM_cons]
      by_cases all : NoTwice (asked ++ more)
      · obtain ⟨yes', no'⟩ := ih holds all rest
        refine ⟨fun all' => ⟨(yes' all').1, (bind_of_ok (yes all)).trans (yes' all').2⟩, fun all' => ?_⟩
        obtain ⟨d, s₃, stops⟩ := no' all'
        exact ⟨d, s₃, (bind_of_ok (yes all)).trans stops⟩
      · obtain ⟨d, stops⟩ := no all
        exact ⟨fun all' => absurd (all'.of_prefix (askTurns_grow rest)) all,
          fun _ => ⟨d, stops.bind⟩⟩

end Statements

/-! ### The terminals -/

/-- The width of a terminal. -/
theorem width_spec (l : List (Nat × Chan)) :
    (∀ kx ∈ l, kx.1 < (l.map fun kx => kx.1 + 1).foldr max 0) ∧
      (l ≠ [] → ∃ kx ∈ l, (l.map fun kx => kx.1 + 1).foldr max 0 = 1 + kx.1) := by
  induction l with
  | nil => exact ⟨nofun, fun h => absurd rfl h⟩
  | cons kx l ih =>
      rw [List.map_cons, List.foldr_cons]
      refine ⟨fun ky hky => ?_, fun _ => ?_⟩
      · rcases List.mem_cons.mp hky with rfl | hky
        · exact (Nat.lt_succ_self _).trans_le (le_max_left _ _)
        · exact (ih.1 ky hky).trans_le (le_max_right _ _)
      · rcases le_total ((l.map fun kx => kx.1 + 1).foldr max 0) (kx.1 + 1) with le | le
        · exact ⟨kx, List.mem_cons_self, (max_eq_left le).trans (Nat.add_comm _ _)⟩
        · rw [max_eq_right le]
          have some : l ≠ [] := by
            rintro rfl
            exact absurd le (Nat.not_succ_le_zero _)
          obtain ⟨ky, hky, width⟩ := ih.2 some
          exact ⟨ky, List.mem_cons_of_mem _ hky, width⟩

theorem OutAcc.find_of_mem {l : List (Nat × Chan)} (nodup : (l.map Prod.fst).Nodup) {k : Nat}
    {x : Chan} (mem : (k, x) ∈ l) : (⟨l⟩ : OutAcc).find k = some x := by
  cases found : l.find? fun kx => kx.1 == k with
  | none => exact absurd (beq_self_eq_true k) (List.find?_eq_none.mp found (k, x) mem)
  | some ky =>
      have key : ky.1 = k := eq_of_beq (List.find?_some found :)
      have same := List.inj_on_of_nodup_map nodup (List.mem_of_find?_eq_some found) mem key
      rw [OutAcc.find, found, same]
      rfl

theorem OutAcc.find_of_not_mem {l : List (Nat × Chan)} {k : Nat} (h : k ∉ l.map Prod.fst) :
    (⟨l⟩ : OutAcc).find k = none :=
  Option.not_isSome_iff_eq_none.mp (mt OutAcc.find_isSome.mp h)

/-- The channel is asked for. -/
def Assigned (asked : List Placement) (n : String) (k : Nat) : Prop :=
  ∃ p ∈ asked, p.terminal = n ∧ ∃ c < p.sources.length, p.base + c = k

theorem assigned_iff {asked : List Placement} {n : String} {k : Nat} :
    Assigned asked n k ↔ k ∈ (ownChannels asked n).map Prod.fst := by
  simp only [Assigned, List.mem_map, Prod.exists, mem_ownChannels, mem_channels]
  constructor
  · rintro ⟨p, hp, name, c, hc, rfl⟩
    exact ⟨_, _, ⟨p, hp, name, c, List.getElem?_eq_getElem hc, rfl⟩, rfl⟩
  · rintro ⟨_, x, ⟨p, hp, name, c, hc, rfl⟩, rfl⟩
    exact ⟨p, hp, name, c, (List.getElem?_eq_some_iff.mp hc).1, rfl⟩

/-- The terminals of the blueprint are as asked for. -/
structure Placed (asked : List Placement) (bp : GraphBlueprint α) : Prop where
  names : (bp.outputTerminals.map Terminal.name).Nodup
  terminal : ∀ n, (∃ t ∈ bp.outputTerminals, t.name = n) ↔ IsAsked asked n
  width : ∀ t ∈ bp.outputTerminals,
    ∃ top, IsGreatest {k | Assigned asked t.name k} top ∧ t.channels.length = 1 + top
  source : ∀ t ∈ bp.outputTerminals, ∀ p ∈ asked, p.terminal = t.name →
    ∀ c x, p.sources[c]? = some x → t.channels[p.base + c]? = some ⟨x.node, x.ch, false⟩
  gap : ∀ t ∈ bp.outputTerminals, ∀ k < t.channels.length, ¬Assigned asked t.name k →
    t.channels[k]? = some ⟨0, 0, true⟩
  outputNode : ∀ p ∈ asked, p.terminal = "out" → ∀ c x, p.sources[c]? = some x →
    (∀ k, Assigned asked "out" k → p.base + c ≤ k) → bp.outputNode = x.node

/-- The terminal a lowerer finalizes. -/
def terminalOf (asked : List Placement) (n : String) : Terminal :=
  let chans := (⟨ownChannels asked n⟩ : OutAcc).channels
  ⟨n, (chans.head?.map TerminalSource.node).getD 0, chans⟩

theorem Holds.terminalOf_channels {asked : List Placement} {s : Lowerer α} (h : Holds asked s)
    (n : String) : ((s.outTerminals n).getD {}).channels = (terminalOf asked n).channels :=
  congrArg (fun l => OutAcc.channels ⟨l⟩) (h.byIndex n)

/-- The turn of `finalize_outputs` for a terminal. -/
theorem finalizeTerminal_spec (s : Lowerer α) (n : String) :
    (s.finalizeTerminal n).outTerminals = s.outTerminals ∧
    (s.finalizeTerminal n).bp.outputTerminals =
      (s.bp.addOutputTerminal n ((s.outTerminals n).getD {}).channels).outputTerminals ∧
    ∀ c, ((s.outTerminals "out").getD {}).channels.find? (fun c => !c.silent) = some c →
      s.bp.outputNode = c.node ∨ n = "out" → (s.finalizeTerminal n).bp.outputNode = c.node := by
  rw [Lowerer.finalizeTerminal]
  cases found : ((s.outTerminals n).getD {}).channels.find? fun c => !c.silent with
  | none =>
      refine ⟨rfl, rfl, fun c hc h => h.elim id ?_⟩
      rintro rfl
      rw [found] at hc
      cases hc
  | some d =>
      refine ⟨rfl, ?_, fun c hc h => ?_⟩
      · dsimp only
        split_ifs <;> rfl
      · dsimp only
        split_ifs with out
        · subst out
          rw [found] at hc
          cases hc
          rfl
        · exact h.resolve_right out

/-- What `finalize_outputs` makes of what is held. -/
theorem finalized {asked : List Placement} {s : Lowerer α} (h : Holds asked s) :
    ∀ (names : List String) (s₁ : Lowerer α), s₁.outTerminals = s.outTerminals →
      (names.foldl Lowerer.finalizeTerminal s₁).bp.outputTerminals =
        s₁.bp.outputTerminals ++ names.map (terminalOf asked) ∧
      ∀ c, (terminalOf asked "out").channels.find? (fun c => !c.silent) = some c →
        s₁.bp.outputNode = c.node ∨ "out" ∈ names →
        (names.foldl Lowerer.finalizeTerminal s₁).bp.outputNode = c.node
  | [], s₁, _ => ⟨(List.append_nil _).symm, fun c _ h => h.resolve_right List.not_mem_nil⟩
  | n :: names, s₁, same => by
      obtain ⟨terminals, added, node⟩ := finalizeTerminal_spec s₁ n
      obtain ⟨rest, nodes⟩ := finalized h names (s₁.finalizeTerminal n) (terminals.trans same)
      rw [List.foldl_cons]
      refine ⟨?_, fun c hc first => nodes c hc ?_⟩
      · rw [rest, added, List.map_cons, same, h.terminalOf_channels, ← List.singleton_append,
          ← List.append_assoc]
        rfl
      · rw [same, h.terminalOf_channels] at node
        rcases first with first | first
        · exact .inl (node c hc (.inl first))
        · exact (List.mem_cons.mp first).imp (fun e => node c hc (.inr e.symm)) id

section Channels

variable {asked : List Placement} (once : NoTwice asked)

include once

theorem terminalOf_source {p : Placement} (hp : p ∈ asked) {c : Nat} {x : Chan}
    (hx : p.sources[c]? = some x) :
    (terminalOf asked p.terminal).channels[p.base + c]? = some ⟨x.node, x.ch, false⟩ := by
  have mem : (p.base + c, x) ∈ ownChannels asked p.terminal :=
    mem_ownChannels.mpr ⟨p, hp, rfl, mem_channels.mpr ⟨c, hx, rfl⟩⟩
  have lt := (width_spec _).1 _ mem
  show (List.map _ (List.range _))[p.base + c]? = _
  rw [List.getElem?_map, List.getElem?_range lt, Option.map_some, OutAcc.find_of_mem (once _) mem]

omit once in
theorem terminalOf_gap {n : String} {k : Nat} (lt : k < (terminalOf asked n).channels.length)
    (free : ¬Assigned asked n k) : (terminalOf asked n).channels[k]? = some ⟨0, 0, true⟩ := by
  have lt : k < (List.map _ (List.range _)).length := lt
  rw [List.length_map, List.length_range] at lt
  show (List.map _ (List.range _))[k]? = _
  rw [List.getElem?_map, List.getElem?_range lt, Option.map_some,
    OutAcc.find_of_not_mem (mt assigned_iff.mpr free)]

omit once in
theorem terminalOf_width {n : String} (h : ∃ p ∈ asked, p.terminal = n ∧ p.sources ≠ []) :
    ∃ top, IsGreatest {k | Assigned asked n k} top ∧
      (terminalOf asked n).channels.length = 1 + top := by
  obtain ⟨p, hp, name, heard⟩ := h
  obtain ⟨x, hx⟩ := List.exists_mem_of_ne_nil _ heard
  obtain ⟨c, hc⟩ := List.mem_iff_getElem?.mp hx
  have some : ownChannels asked n ≠ [] := List.ne_nil_of_mem
    (mem_ownChannels.mpr ⟨p, hp, name, mem_channels.mpr ⟨c, hc, rfl⟩⟩)
  obtain ⟨below, top⟩ := width_spec (ownChannels asked n)
  obtain ⟨kx, hkx, width⟩ := top some
  refine ⟨kx.1, ⟨assigned_iff.mpr (List.mem_map_of_mem hkx), fun k hk => ?_⟩, ?_⟩
  · obtain ⟨ky, hky, rfl⟩ := List.mem_map.mp (assigned_iff.mp hk)
    have lt := below ky hky
    omega
  · show (List.map _ (List.range _)).length = _
    rw [List.length_map, List.length_range]
    exact width

/-- The first channel that is not silent is the lowest assigned. -/
theorem terminalOf_first {p : Placement} (hp : p ∈ asked) {c : Nat} {x : Chan}
    (hx : p.sources[c]? = some x) (lowest : ∀ k, Assigned asked p.terminal k → p.base + c ≤ k) :
    (terminalOf asked p.terminal).channels.find? (fun c => !c.silent)
      = some ⟨x.node, x.ch, false⟩ := by
  obtain ⟨lt, here⟩ := List.getElem?_eq_some_iff.mp (terminalOf_source once hp hx)
  refine List.find?_eq_some_iff_getElem.mpr ⟨rfl, p.base + c, lt, here, fun k hk => ?_⟩
  have gap := terminalOf_gap (hk.trans lt) fun taken => (lowest k taken).not_gt hk
  rw [(List.getElem?_eq_some_iff.mp gap).2]
  rfl

end Channels

/-- **The outputs of a rune** that asks for no channel twice. -/
theorem Holds.placed {asked : List Placement} {s : Lowerer α} (h : Holds asked s)
    (once : NoTwice asked) : Placed asked s.finalizeOutputs.bp := by
  obtain ⟨terminals, node⟩ := finalized h s.outOrder s rfl
  rw [h.noTerminals, List.nil_append] at terminals
  have all {t : Terminal} (ht : t ∈ s.finalizeOutputs.bp.outputTerminals) :
      IsAsked asked t.name ∧ t = terminalOf asked t.name := by
    obtain ⟨n, hn, rfl⟩ := List.mem_map.mp (terminals ▸ ht)
    exact ⟨(h.named n).mp hn, rfl⟩
  refine ⟨?_, fun n => ⟨?_, fun hn => ?_⟩, fun t ht => ?_, fun t ht p hp name c x hx => ?_,
    fun t ht k lt free => ?_, fun p hp name c x hx lowest => ?_⟩
  · have names : s.finalizeOutputs.bp.outputTerminals.map Terminal.name = s.outOrder := by
      rw [Lowerer.finalizeOutputs, terminals, List.map_map]
      exact List.map_id _
    rw [names]
    exact h.order
  · rintro ⟨t, ht, rfl⟩
    exact (all ht).1
  · refine ⟨terminalOf asked n, ?_, rfl⟩
    rw [Lowerer.finalizeOutputs, terminals]
    exact List.mem_map_of_mem ((h.named n).mpr hn)
  · obtain ⟨⟨p, hp, name⟩, same⟩ := all ht
    rw [same]
    exact terminalOf_width ⟨p, hp, name, h.heard p hp⟩
  · rw [(all ht).2, ← name]
    exact terminalOf_source once hp hx
  · rw [(all ht).2] at lt ⊢
    exact terminalOf_gap lt free
  · have first := terminalOf_first once hp hx (name.symm ▸ lowest)
    rw [name] at first
    exact node _ first (.inr ((h.named _).mpr ⟨p, hp, name⟩))

/-! ### Runes -/

section Runes

variable [Sample α] {reg : NodeRegistry α} {sigils : List (Definition α)} {fuel : Nat}
  {asked : List Placement}

/-- An instance plays what was asked for: its terminals have as many channels as the
blueprint's, those asked for are the outputs of their sources, and the others read as zeros. -/
structure Plays (asked : List Placement) (g : GraphInstance α) : Prop where
  channels : ∀ i t, g.sched.bp.outputTerminals[i]? = some t →
    g.outputTerminalChannels i = t.channels.length
  source : ∀ i t, g.sched.bp.outputTerminals[i]? = some t → ∀ p ∈ asked, p.terminal = t.name →
    ∀ c x, p.sources[c]? = some x →
      g.outputTerminalView i (p.base + c) = g.nodeOutputView x.node x.ch
  silent : ∀ i t, g.sched.bp.outputTerminals[i]? = some t → ∀ k < t.channels.length,
    ¬Assigned asked t.name k → ∀ y ∈ g.readView (g.outputTerminalView i k), y = 0

theorem Placed.plays {bp : GraphBlueprint α} (h : Placed asked bp) {g : GraphInstance α}
    (same : g.sched.bp.outputTerminals = bp.outputTerminals) : Plays asked g := by
  have mem {i : Nat} {t : Terminal} (ht : g.sched.bp.outputTerminals[i]? = some t) :
      t ∈ bp.outputTerminals ∧ t.channels.isEmpty = false := by
    have here := List.mem_of_getElem? (same ▸ ht)
    obtain ⟨top, -, width⟩ := h.width t here
    refine ⟨here, ?_⟩
    rw [List.isEmpty_eq_false_iff, ← List.length_pos_iff, width]
    omega
  have view {i : Nat} {t : Terminal} (ht : g.sched.bp.outputTerminals[i]? = some t) {k : Nat}
      {src : TerminalSource} (hsrc : t.channels[k]? = some src) : g.outputTerminalView i k =
        if src.silent then .silent g.silentLen else g.nodeOutputView src.node src.ch := by
    rw [GraphInstance.outputTerminalView, ht]
    dsimp only
    rw [(mem ht).2, List.getD_eq_getElem?_getD, hsrc]
    rfl
  refine ⟨fun i t ht => ?_, fun i t ht p hp name c x hx => ?_, fun i t ht k lt free y hy => ?_⟩
  · rw [GraphInstance.outputTerminalChannels, ht]
    dsimp only
    rw [(mem ht).2]
    rfl
  · exact view ht (h.source t (mem ht).1 p hp name c x hx)
  · rw [view ht (h.gap t (mem ht).1 k lt free)] at hy
    exact List.eq_of_mem_replicate hy

omit [Sample α] in
theorem Holds.start (s : Lowerer α) : Holds [] ({ s with bp := {} } : Lowerer α).reset where
  terminal _ := nofun
  others _ _ := rfl
  order := List.nodup_nil
  named _ := ⟨nofun, nofun⟩
  heard := nofun
  noTerminals := rfl

/-- A rune is lowered as its outputs are placed; then its parameters are flagged. -/
theorem placeRune_of_lowerRune {eval : Eval α} {r : Definition α} {s s' : Lowerer α}
    (run : lowerRune reg sigils eval r s = (.ok (), s')) :
    ∃ s₁, placeRune reg sigils eval r s = (.ok (), s₁) ∧ s' = s₁.flagPartial := by
  obtain ⟨_, s₁, cleared, run⟩ := bind_ok.mp run
  obtain ⟨sc, s₂, body, run⟩ := bind_ok.mp run
  obtain ⟨_, s₃, finalized, run⟩ := bind_ok.mp run
  obtain ⟨_, s₄, flagged, run⟩ := bind_ok.mp run
  cases flagged
  have last : s' = s₃.flagPartial := by
    by_cases out : sc.haveOut = some true
    · rw [if_pos out] at run
      cases run
      rfl
    · rw [if_neg out] at run
      cases run
  exact ⟨s₃, (bind_of_ok cleared).trans ((bind_of_ok body).trans finalized), last⟩

/-- **Output placement.**  A rune whose `out` statements all have something to place is accepted
if and only if it asks for no channel of a terminal twice, and its terminals are then as asked
for, in the blueprint and in every instance of it. -/
theorem outputs_placed {r : Definition α} {s s' : Lowerer α}
    (ask : askRune reg sigils (evalExpr reg sigils fuel) r { s with bp := {} }
      = (.ok asked, s')) :
    ((∃ s₁, placeRune reg sigils (evalExpr reg sigils fuel) r { s with bp := {} }
      = (.ok (), s₁)) ↔ NoTwice asked) ∧
    ∀ s₁, placeRune reg sigils (evalExpr reg sigils fuel) r { s with bp := {} } = (.ok (), s₁) →
      Placed asked s₁.bp ∧ ∀ g : GraphInstance α,
        g.sched.bp.outputTerminals = s₁.bp.outputTerminals → Plays asked g := by
  obtain ⟨_, s₁, cleared, rest⟩ := bind_ok.mp ask
  cases cleared
  obtain ⟨sc, s₂, params, rest⟩ := bind_ok.mp rest
  obtain ⟨⟨all, v, sc'⟩, s₃, body, last⟩ := bind_ok.mp rest
  cases last
  have holds : Holds [] s₂ := (Holds.start s).emits (bindRuneParams_of_rune_emits
    (evalExpr_emits (Account.outputs reg) sigils fuel) r.params _) rfl params
  obtain ⟨yes, no⟩ := askBody_run holds (fun _ => List.nodup_nil) body
  have places (once : NoTwice asked) :
      placeRune reg sigils (evalExpr reg sigils fuel) r { s with bp := {} }
        = (.ok (), s'.finalizeOutputs) := by
    have run : runeBody reg sigils (evalExpr reg sigils fuel) r
        ({ s with bp := {} } : Lowerer α).reset = (.ok sc', s') :=
      (bind_of_ok params).trans (bind_of_ok (yes once).2)
    exact (bind_of_ok (rfl : (modify Lowerer.reset : LowerM α Unit) _ = _)).trans (bind_of_ok run)
  have once {s₁ : Lowerer α} (run : placeRune reg sigils (evalExpr reg sigils fuel) r
      { s with bp := {} } = (.ok (), s₁)) : NoTwice asked := by
    by_contra twice
    obtain ⟨d, s₄, stops⟩ := no twice
    have refused : runeBody reg sigils (evalExpr reg sigils fuel) r
        ({ s with bp := {} } : Lowerer α).reset = (.stop (.abort d), s₄) :=
      (bind_of_ok params).trans (bind_of_stop stops)
    have stopped : placeRune reg sigils (evalExpr reg sigils fuel) r { s with bp := {} }
        = (.stop (.abort d), s₄) :=
      (bind_of_ok (rfl : (modify Lowerer.reset : LowerM α Unit) _ = _)).trans
        (bind_of_stop refused)
    rw [stopped] at run
    cases run
  refine ⟨⟨fun ⟨_, run⟩ => once run, fun h => ⟨_, places h⟩⟩, fun s₁ run => ?_⟩
  have asks := once run
  rw [places asks] at run
  cases run
  have placed := (yes asks).1.placed asks
  exact ⟨placed, fun g same => placed.plays same⟩

end Runes

section Spread

/-- `rune r() out[2] sine(1)  out noise() as aux  out sine(2) end`. -/
noncomputable def spreadRune : Definition ℝ :=
  ⟨"r", [], [.out {} (.call {} "sine" [("", .number {} (Sample.cast 1))]) "" 2,
    .out {} (.call {} "noise" []) "aux" (-1),
    .out {} (.call {} "sine" [("", .number {} (Sample.cast 2))]) "" (-1)], {}⟩

theorem outputs_placed_spread :
    ∃ s₁, placeRune standardRegistry [] (evalExpr standardRegistry [] 2) spreadRune {}
        = (.ok (), s₁) ∧
      Placed [⟨"out", 2, [⟨0, 0⟩]⟩, ⟨"aux", 0, [⟨1, 0⟩]⟩, ⟨"out", 0, [⟨2, 0⟩]⟩] s₁.bp := by
  obtain ⟨s', ask⟩ : ∃ s', askRune standardRegistry [] (evalExpr standardRegistry [] 2) spreadRune
      { ({} : Lowerer ℝ) with bp := {} } = (.ok [⟨"out", 2, [⟨0, 0⟩]⟩, ⟨"aux", 0, [⟨1, 0⟩]⟩,
        ⟨"out", 0, [⟨2, 0⟩]⟩], s') := ⟨_, rfl⟩
  obtain ⟨accepted, placed⟩ := outputs_placed ask
  obtain ⟨s₁, run⟩ := accepted.mpr fun n => by
    by_cases out : n = "out"
    · subst out
      decide
    by_cases aux : n = "aux"
    · subst aux
      decide
    simp [ownChannels, Ne.symm out, Ne.symm aux]
  exact ⟨s₁, run, (placed s₁ run).1⟩

end Spread

end Xrune.Lang
