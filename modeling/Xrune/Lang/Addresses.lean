import Xrune.Lang.Account
import Xrune.Core.Wiring
import Xrune.Lang.Lexer

/-!
# Lang — node names as addresses

A node is found by its name: `find_node` takes the first node that has it.  A name is bound, and
stands in the text of the program with the naming scope before it, or it is made up from a type
and a counter of the scope.  Made-up names are all different, and differ from bound ones, so the
names of a rune are different exactly when those it binds are (`names_nodup_iff`); a sigil
expanded twice in one naming scope binds its names twice.

A statement that names a node meets the node bound in its own scope exactly when that scope's
naming scope is the empty one and no earlier node has the name (`wiring_respects_scope`).
-/

namespace Xrune.Lang

open Stateful

variable {α : Type}

/-! ### The shape of names -/

/-- No naming scope and no counter shows in the text. -/
def Plain (n : String) : Prop := '.' ∉ n.toList ∧ '#' ∉ n.toList

instance (n : String) : Decidable (Plain n) := inferInstanceAs (Decidable (_ ∧ _))

/-- The name is one that only `gen` makes up. -/
def isMadeUp (n : String) : Bool := n.toList.contains '#'

def madeUp (pre g : String) (k : Nat) : String := qualified pre (g ++ "#" ++ toString k)

theorem toList_qualified (pre n : String) : (qualified pre n).toList =
    if pre = "" then n.toList else pre.toList ++ '.' :: n.toList := by
  rw [qualified]
  split_ifs with none
  · rfl
  · rw [String.toList_append, String.toList_append, List.append_assoc]
    rfl

/-- What stands after the last dot determines what stands before. -/
theorem append_dot_inj {p q x y : List Char} (hx : '.' ∉ x) (hy : '.' ∉ y)
    (h : p ++ '.' :: x = q ++ '.' :: y) : p = q ∧ x = y := by
  rcases List.append_eq_append_iff.mp h with ⟨r, rfl, h'⟩ | ⟨r, rfl, h'⟩
  · cases r with
    | nil => exact ⟨(List.append_nil p).symm, (List.cons.inj h').2⟩
    | cons c r =>
        refine absurd ?_ hx
        rw [(List.cons.inj h').2]
        exact List.mem_append_right r List.mem_cons_self
  · cases r with
    | nil => exact ⟨List.append_nil q, (List.cons.inj h').2.symm⟩
    | cons c r =>
        refine absurd ?_ hy
        rw [(List.cons.inj h').2]
        exact List.mem_append_right r List.mem_cons_self

theorem qualified_inj {p q x y : String} (hx : '.' ∉ x.toList) (hy : '.' ∉ y.toList)
    (h : qualified p x = qualified q y) : p = q ∧ x = y := by
  have h := congrArg String.toList h
  rw [toList_qualified, toList_qualified] at h
  split_ifs at h with none none' none'
  · exact ⟨none.trans none'.symm, String.toList_injective h⟩
  · refine absurd ?_ hx
    rw [h]
    exact List.mem_append_right _ List.mem_cons_self
  · refine absurd ?_ hy
    rw [← h]
    exact List.mem_append_right _ List.mem_cons_self
  · obtain ⟨hp, hxy⟩ := append_dot_inj hx hy h
    exact ⟨String.toList_injective hp, String.toList_injective hxy⟩

theorem not_mem_toString {c : Char} (h : c.isDigit = false) (k : Nat) : c ∉ (toString k).toList := by
  intro mem
  have mem : c ∈ Nat.toDigits 10 k := by simpa [toString, Nat.repr] using mem
  have digit : c.isDigit := Nat.isDigit_of_mem_toDigits (by decide) (by decide) mem
  rw [h] at digit
  cases digit

theorem toList_counted (g : String) (k : Nat) :
    (g ++ "#" ++ toString k).toList = g.toList ++ '#' :: (toString k).toList := by
  rw [String.toList_append, String.toList_append, List.append_assoc]
  rfl

theorem madeUp_inj {p p' g g' : String} {k k' : Nat} (hg : Plain g) (hg' : Plain g')
    (h : madeUp p g k = madeUp p' g' k') : p = p' ∧ k = k' := by
  have dotless {g : String} (hg : Plain g) (k : Nat) : '.' ∉ (g ++ "#" ++ toString k).toList := by
    rw [toList_counted, List.mem_append, List.mem_cons]
    rintro (mem | mem | mem)
    · exact hg.1 mem
    · exact absurd mem (by decide)
    · exact not_mem_toString (by decide) k mem
  obtain ⟨hp, same⟩ := qualified_inj (dotless hg k) (dotless hg' k') h
  have same := congrArg String.toList same
  rw [toList_counted, toList_counted] at same
  obtain ⟨-, -, digits⟩ := (List.append_cons_inj_of_notMem hg.2
    (not_mem_toString (by decide) k)).mp same
  exact ⟨hp, Nat.repr_injective (String.toList_injective digits)⟩

theorem isMadeUp_madeUp (pre g : String) (k : Nat) : isMadeUp (madeUp pre g k) = true := by
  rw [isMadeUp, List.contains_iff_mem, madeUp, toList_qualified]
  have mem : '#' ∈ (g ++ "#" ++ toString k).toList := by
    rw [toList_counted]
    exact List.mem_append_right _ List.mem_cons_self
  split_ifs
  · exact mem
  · exact List.mem_append_right _ (List.mem_cons_of_mem _ mem)

/-! ### The names of a lowerer -/

/-- The names made up so far are different, and none is to come again. -/
structure MadeUp (s : Lowerer α) : Prop where
  nodup : (s.bp.names.filter isMadeUp).Nodup
  counted : ∀ n ∈ s.bp.names, isMadeUp n = true →
    ∃ pre g k, Plain g ∧ k ≤ s.counters pre ∧ n = madeUp pre g k

/-- The names that are not made up. -/
def Lowerer.boundNames (s : Lowerer α) : List String := s.bp.names.filter fun n => !isMadeUp n

/-- The names that were bound are those bound; those made up stay different. -/
structure Named (l : List String) (s s' : Lowerer α) : Prop where
  bound : s'.boundNames = s.boundNames ++ l.filter fun n => !isMadeUp n
  madeUp : (∀ n ∈ l, isMadeUp n = false) → MadeUp s → MadeUp s'

theorem Named.of_eq {s s' : Lowerer α} (names : s'.bp.names = s.bp.names)
    (counters : s'.counters = s.counters) : Named [] s s' where
  bound := by rw [Lowerer.boundNames, names]; exact (List.append_nil _).symm
  madeUp _ h := ⟨names ▸ h.nodup, fun n hn made => by
    rw [counters]
    exact h.counted n (names ▸ hn) made⟩

theorem MadeUp.gen {s : Lowerer α} (h : MadeUp s) {pre g : String} (plain : Plain g)
    {bp : GraphBlueprint α}
    (names : bp.names = s.bp.names ++ [madeUp pre g (bump s.counters pre pre)]) :
    MadeUp { s with bp, counters := bump s.counters pre } := by
  have here : bump s.counters pre pre = s.counters pre + 1 := if_pos rfl
  refine ⟨?_, fun n hn made => ?_⟩
  · show (bp.names.filter isMadeUp).Nodup
    rw [names, List.filter_append, List.filter_cons_of_pos (isMadeUp_madeUp _ _ _)]
    refine h.nodup.append (List.nodup_singleton _) (List.disjoint_singleton.mpr fun mem => ?_)
    obtain ⟨hn, made⟩ := List.mem_filter.mp mem
    obtain ⟨pre', g', k, plain', le, same⟩ := h.counted _ hn made
    obtain ⟨rfl, rfl⟩ := madeUp_inj plain plain' same
    omega
  · have hn : n ∈ s.bp.names ++ [_] := names ▸ hn
    rcases List.mem_append.mp hn with hn | hn
    · obtain ⟨pre', g', k, plain', le, same⟩ := h.counted n hn made
      refine ⟨pre', g', k, plain', le.trans ?_, same⟩
      show _ ≤ bump s.counters pre pre'
      rw [Lang.bump]
      split_ifs
      · exact Nat.le_succ _
      · exact le_rfl
    · exact ⟨pre, g, _, plain, le_rfl, List.mem_singleton.mp hn⟩

section Registry

variable [Sample α] [Trig α]

theorem standardRegistry_plain {type : String} {args : NodeArgs α} {nd : Node α}
    (made : standardRegistry.make type args = some nd) : Plain type := by
  obtain ⟨e, he, rfl, -⟩ := NodeRegistry.make_eq_some made
  have all : ∀ n ∈ (standardRegistry (α := α)).entries.map RegistryEntry.name, Plain n := by
    show ∀ n ∈ ["sine", "noise", "constant", "gain", "fader", "pan", "mix", "smix", "adapt", "m2s",
      "s2m", "inv", "sinv", "counter", "add", "mul", "div", "cut", "sah", "bus", "up2", "down2",
      "downbloc", "stft", "stft_fwd", "stft_bwd"], Plain n
    decide
  exact all e.name (List.mem_map_of_mem he)

/-- The names a lowering binds, and those it makes up. -/
def Account.names : Account (standardRegistry (α := α)) where
  rel := Named
  refl _ := .of_eq rfl rfl
  trans h h' := by
    refine ⟨?_, fun bare made => ?_⟩
    · rw [h'.bound, h.bound, List.filter_append, List.append_assoc]
    · exact h'.madeUp (fun n hn => bare n (List.mem_append_right _ hn))
        (h.madeUp (fun n hn => bare n (List.mem_append_left _ hn)) made)
  bound {nd} s name := by
    refine ⟨List.filter_append .., fun bare made => ⟨?_, fun n hn made' => ?_⟩⟩
    · show ((s.bp.names ++ [name]).filter isMadeUp).Nodup
      rw [List.filter_append, List.filter_cons_of_neg (by simp [bare]), List.filter_nil,
        List.append_nil]
      exact made.nodup
    · rcases List.mem_append.mp (show n ∈ s.bp.names ++ [name] from hn) with hn | hn
      · exact made.counted n hn made'
      · rw [bare n hn] at made'
        cases made'
  fresh {type args nd} s g made known := by
    have plain : Plain g := by
      rcases known with rfl | known
      · exact standardRegistry_plain made
      · rcases List.mem_pair.mp known with rfl | rfl <;> decide
    refine ⟨?_, fun _ h => h.gen plain rfl⟩
    show (s.bp.names ++ [Lang.madeUp _ _ _]).filter _ = _
    rw [List.filter_append, List.filter_cons_of_neg (by simp [isMadeUp_madeUp])]
    rfl
  connected s src out dst inp one := by
    obtain ⟨-, rfl⟩ := GraphBlueprint.connect_eq_some.mp one
    exact .of_eq rfl rfl
  driven s src out dst param one := by
    obtain ⟨-, rfl⟩ := GraphBlueprint.connectParam_eq_some.mp one
    exact .of_eq rfl rfl
  bindsParam s name t := by
    rw [Lowerer.bindParam]
    cases s.bp.findRuneParam name with
    | none => exact .of_eq rfl rfl
    | some pi => exact .of_eq rfl rfl
  uses _ _ := .of_eq rfl rfl
  declares _ _ _ := .of_eq rfl rfl
  entered p p' h := by
    refine ⟨h.bound, fun bare made => ?_⟩
    have made := h.madeUp bare ⟨made.nodup, made.counted⟩
    exact ⟨made.nodup, made.counted⟩

end Registry

/-! ### Different names -/

theorem nodup_iff_filter {β : Type} (p : β → Bool) (l : List β) :
    l.Nodup ↔ (l.filter p).Nodup ∧ (l.filter fun b => !p b).Nodup := by
  rw [← (List.filter_append_perm p l).nodup_iff, List.nodup_append]
  refine ⟨fun h => ⟨h.1, h.2.1⟩, fun h => ⟨h.1, h.2, ?_⟩⟩
  rintro a ha b hb rfl
  have yes := (List.mem_filter.mp ha).2
  have no := (List.mem_filter.mp hb).2
  rw [yes] at no
  cases no

/-- Different names are addresses. -/
theorem findNode_of_nodup {bp : GraphBlueprint α} (h : bp.names.Nodup) {i : Nat} {n : String}
    (here : bp.names[i]? = some n) : bp.findNode n = some i := by
  obtain ⟨lt, rfl⟩ := List.getElem?_eq_some_iff.mp here
  refine List.findIdx?_eq_some_iff_getElem.mpr ⟨lt, beq_self_eq_true _, fun j hj same => ?_⟩
  exact hj.ne (h.getElem_inj_iff.mp (eq_of_beq same))

/-- The text is an identifier of the language. -/
def Identifier (n : String) : Prop := n ≠ "" ∧ ∀ c ∈ n.toList, isIdent c

def Stmt.Identifies : Stmt α → Prop
  | .binding _ n _ => Identifier n
  | .input _ n _   => Identifier n
  | _              => True

/-- The names the definition binds are identifiers. -/
def Definition.Identifies (d : Definition α) : Prop := ∀ s ∈ d.body, s.Identifies

theorem Identifier.not_madeUp {n : String} (h : Identifier n) : isMadeUp n = false := by
  rw [isMadeUp, Bool.eq_false_iff]
  intro mem
  exact absurd (h.2 '#' (List.contains_iff_mem.mp mem)) (by decide)

theorem not_madeUp_qualified {pre n : String} (hpre : isMadeUp pre = false)
    (hn : isMadeUp n = false) : isMadeUp (qualified pre n) = false := by
  have absent {n : String} (h : isMadeUp n = false) : '#' ∉ n.toList := fun mem => by
    rw [isMadeUp, List.contains_iff_mem.mpr mem] at h
    cases h
  rw [isMadeUp, Bool.eq_false_iff]
  intro mem
  have mem := List.contains_iff_mem.mp mem
  rw [toList_qualified] at mem
  split_ifs at mem
  · exact absent hn mem
  · rcases List.mem_append.mp mem with mem | mem
    · exact absent hpre mem
    · exact absent hn ((List.mem_cons.mp mem).resolve_left (by decide))

section Bare

variable {reg : NodeRegistry α} {sigils : List (Definition α)} {rec : Binds α}

/-- The names bound from names that are not made up are not made up. -/
def Binds.Bare (rec : Binds α) : Prop :=
  ∀ e pre preferred, isMadeUp pre = false → isMadeUp preferred = false →
    ∀ n ∈ rec e pre preferred, isMadeUp n = false

variable (h : rec.Bare) {pre : String} (hpre : isMadeUp pre = false)

include h hpre

theorem argumentNames_bare (args : List (Argument α)) :
    ∀ n ∈ argumentNames rec pre args, isMadeUp n = false := by
  intro n hn
  obtain ⟨a, -, hn⟩ := List.mem_flatMap.mp hn
  split at hn
  · cases hn
  · cases hn
  · exact h _ pre "" hpre rfl n hn

theorem stmtNames_bare {s : Stmt α} (ident : s.Identifies) :
    ∀ n ∈ stmtNames reg sigils rec pre s, isMadeUp n = false := by
  intro n hn
  cases s with
  | binding pos name value =>
      have hq := not_madeUp_qualified hpre (Identifier.not_madeUp ident)
      have hn : n ∈ valueNames reg sigils rec value pre (qualified pre name) := hn
      rw [valueNames] at hn
      split_ifs at hn
      · exact h value pre _ hpre hq n hn
      · exact h value _ "" hq rfl n hn
  | wire pos e => exact h e pre "" hpre rfl n hn
  | modulate pos source target => exact h source pre "" hpre rfl n hn
  | explicitWire pos source node i => exact h source pre "" hpre rfl n hn
  | input pos name args =>
      rcases List.mem_append.mp hn with hn | hn
      · exact argumentNames_bare h hpre args n hn
      · exact List.mem_singleton.mp hn ▸ Identifier.not_madeUp ident
  | out pos e terminal k => exact h e pre "" hpre rfl n hn

theorem bodyNames_bare {d : Definition α} (ident : d.Identifies) :
    ∀ n ∈ bodyNames reg sigils rec pre d.body, isMadeUp n = false := by
  intro n hn
  obtain ⟨s, hs, hn⟩ := List.mem_flatMap.mp hn
  exact stmtNames_bare h hpre (ident s hs) n hn

theorem callNames_bare (ident : ∀ sig ∈ sigils, sig.Identifies) {preferred : String}
    (hp : isMadeUp preferred = false) (text : String) (args : List (Argument α)) :
    ∀ n ∈ callNames reg sigils rec pre preferred text args, isMadeUp n = false := by
  intro n hn
  rw [callNames] at hn
  by_cases region : text = "over"
  · rw [if_pos region] at hn
    unfold overNames at hn
    split at hn
    · rcases List.mem_append.mp hn with hn | hn
      · exact h _ pre "" hpre rfl n hn
      · exact h _ pre "" hpre rfl n hn
    · cases hn
  by_cases finer : text = "finer"
  · rw [if_neg region, if_pos finer] at hn
    cases hn
  rw [if_neg region, if_neg finer] at hn
  cases found : findSigil sigils text with
  | some sig =>
      rw [found] at hn
      have mem : sig ∈ sigils := List.mem_reverse.mp (List.mem_of_find?_eq_some found)
      rcases List.mem_append.mp hn with hn | hn
      · obtain ⟨p, -, hn⟩ := List.mem_flatMap.mp hn
        split at hn
        · cases hn
        · exact h _ pre "" hpre rfl n hn
      · exact bodyNames_bare h hpre (ident sig mem) n hn
  | none =>
      rw [found] at hn
      rcases List.mem_append.mp hn with hn | hn
      · exact argumentNames_bare h hpre args n hn
      · split_ifs at hn
        · cases hn
        · exact List.mem_singleton.mp hn ▸ hp

omit hpre in
theorem namesStep_bare (ident : ∀ sig ∈ sigils, sig.Identifies) :
    (namesStep reg sigils rec).Bare := by
  intro e pre preferred hpre hp n hn
  cases e with
  | number | string | boolean | ident => cases hn
  | unary pos a => exact h a pre "" hpre rfl n hn
  | select pos a index => exact h a pre "" hpre rfl n hn
  | binary pos op a b =>
      rcases List.mem_append.mp hn with hn | hn
      · exact h a pre "" hpre rfl n hn
      · exact h b pre "" hpre rfl n hn
  | call pos text args => exact callNames_bare h hpre ident hp text args n hn

end Bare

theorem boundNames_bare {reg : NodeRegistry α} {sigils : List (Definition α)}
    (ident : ∀ sig ∈ sigils, sig.Identifies) : ∀ fuel, (boundNames reg sigils fuel).Bare
  | 0        => fun _ _ _ _ _ _ hn => nomatch hn
  | fuel + 1 => namesStep_bare (boundNames_bare ident fuel) ident

section Names

variable [Sample α] [Trig α] {sigils : List (Definition α)} {fuel : Nat}

theorem runeNames_bare (ident : ∀ sig ∈ sigils, sig.Identifies) {r : Definition α}
    (own : r.Identifies) : ∀ n ∈ runeNames standardRegistry sigils
      (boundNames standardRegistry sigils fuel) "" r, isMadeUp n = false := by
  intro n hn
  have bare : (boundNames (standardRegistry (α := α)) sigils fuel).Bare := boundNames_bare ident fuel
  rcases List.mem_append.mp hn with hn | hn
  · obtain ⟨p, -, hn⟩ := List.mem_flatMap.mp hn
    unfold defaultNames at hn
    split at hn
    · cases hn
    · exact bare _ "" "" rfl rfl n hn
  · exact bodyNames_bare bare rfl own n hn

/-- The names of a rune that was lowered. -/
theorem runeBody_named {r : Definition α} {s s' : Lowerer α} {sc : Scope α}
    (run : runeBody standardRegistry sigils (evalExpr standardRegistry sigils fuel) r s
      = (.ok sc, s')) (outermost : s.namePrefix = "") :
    Named (runeNames standardRegistry sigils (boundNames standardRegistry sigils fuel) "" r) s s' :=
  (runeBody_emits (evalExpr_emits Account.names sigils fuel) (fun _ _ _ => .of_eq rfl rfl)
    (fun _ _ _ => .of_eq rfl rfl) r s sc s' outermost run).2

omit [Sample α] [Trig α] in
theorem finalizeTerminal_names (s : Lowerer α) (n : String) :
    (s.finalizeTerminal n).bp.names = s.bp.names := by
  rw [Lowerer.finalizeTerminal]
  split
  · dsimp only
    split_ifs <;> rfl
  · rfl

omit [Sample α] [Trig α] in
theorem finalizeOutputs_names (s : Lowerer α) : s.finalizeOutputs.bp.names = s.bp.names := by
  have keeps : ∀ (names : List String) (s₁ : Lowerer α),
      (names.foldl Lowerer.finalizeTerminal s₁).bp.names = s₁.bp.names := by
    intro names
    induction names with
    | nil => exact fun _ => rfl
    | cons n names ih => exact fun s₁ => (ih _).trans (finalizeTerminal_names s₁ n)
  exact keeps s.outOrder s

/-- Every node is found by its name. -/
def Addressed (bp : GraphBlueprint α) : Prop :=
  bp.names.Nodup ∧ ∀ i n, bp.names[i]? = some n → bp.findNode n = some i

/-- **Names are addresses exactly when no name is bound twice**: the names a rune binds, those of
every expansion of a sigil in its naming scope. -/
theorem names_nodup_iff {r : Definition α} {s s' : Lowerer α}
    (ident : ∀ sig ∈ sigils, sig.Identifies) (own : r.Identifies)
    (run : lowerRune standardRegistry sigils (evalExpr standardRegistry sigils fuel) r
      { s with bp := {} } = (.ok (), s')) :
    Addressed s'.bp ↔ (runeNames standardRegistry sigils
      (boundNames standardRegistry sigils fuel) "" r).Nodup := by
  obtain ⟨_, s₁, cleared, run⟩ := bind_ok.mp run
  cases cleared
  obtain ⟨sc, s₂, body, run⟩ := bind_ok.mp run
  obtain ⟨_, s₃, finalized, run⟩ := bind_ok.mp run
  obtain ⟨_, s₄, flagged, run⟩ := bind_ok.mp run
  cases finalized
  cases flagged
  have names : s'.bp.names = s₂.bp.names := by
    by_cases out : sc.haveOut = some true
    · rw [if_pos out] at run
      cases run
      exact finalizeOutputs_names s₂
    · rw [if_neg out] at run
      cases run
  have bare : ∀ n ∈ runeNames standardRegistry sigils (boundNames standardRegistry sigils fuel) "" r,
      isMadeUp n = false := runeNames_bare ident own
  obtain ⟨bound, madeUp⟩ := runeBody_named body rfl
  have fresh : MadeUp s₂ := madeUp bare ⟨List.nodup_nil, nofun⟩
  have bound : s₂.bp.names.filter (fun n => !isMadeUp n) = runeNames standardRegistry sigils
      (boundNames standardRegistry sigils fuel) "" r := by
    refine bound.trans ((List.nil_append _).trans (List.filter_eq_self.mpr fun n hn => ?_))
    rw [bare n hn]
    rfl
  have nodup : s'.bp.names.Nodup ↔ (runeNames standardRegistry sigils
      (boundNames standardRegistry sigils fuel) "" r).Nodup := by
    rw [names, nodup_iff_filter isMadeUp, bound]
    exact and_iff_right fresh.nodup
  rw [← nodup, Addressed]
  exact ⟨And.left, fun h => ⟨h, fun i n here => findNode_of_nodup h here⟩⟩

end Names

section Twice

/-- `sigil s() y = gain(1)  y end`. -/
noncomputable def gainSigil : Definition ℝ :=
  ⟨"s", [], [.binding {} "y" (.call {} "gain" [("", .number {} 1)]), .wire {} (.ident {} "y")], {}⟩

/-- `rune r() a = s()  out a end`. -/
noncomputable def boundRune : Definition ℝ :=
  ⟨"r", [], [.binding {} "a" (.call {} "s" []), .out {} (.ident {} "a") "" (-1)], {}⟩

theorem names_nodup_bound : ∃ s', lowerRune standardRegistry [gainSigil]
      (evalExpr standardRegistry [gainSigil] 4) boundRune {} = (.ok (), s') ∧ Addressed s'.bp := by
  have identifiers : gainSigil.Identifies ∧ boundRune.Identifies := by
    simp [gainSigil, boundRune, Definition.Identifies, Stmt.Identifies, Identifier]
    decide
  obtain ⟨s', run⟩ : ∃ s', lowerRune standardRegistry [gainSigil]
      (evalExpr standardRegistry [gainSigil] 4) boundRune { ({} : Lowerer ℝ) with bp := {} }
        = (.ok (), s') := ⟨_, rfl⟩
  refine ⟨s', run, (names_nodup_iff (fun sig hsig => ?_) identifiers.2 run).mpr ?_⟩
  · exact List.mem_singleton.mp hsig ▸ identifiers.1
  · exact List.nodup_singleton _

/-- `rune r() out s() , s() end`. -/
noncomputable def inlineRune : Definition ℝ :=
  ⟨"r", [], [.out {} (.binary {} .comma (.call {} "s" []) (.call {} "s" [])) "" (-1)], {}⟩

/-- A sigil expanded twice in one naming scope. -/
theorem inline_names_twice : ∃ bp, lower 5 ⟨[inlineRune], [gainSigil]⟩ standardRegistry
      = some ⟨[⟨"r", bp⟩], []⟩ ∧ bp.names = ["y", "y"] ∧ ¬Addressed bp :=
  ⟨_, rfl, rfl, fun h => absurd h.1 (by decide)⟩

end Twice

/-! ### Wiring by name -/

/-- A lowering only adds names, and nodes as many. -/
structure Adds (s s' : Lowerer α) : Prop where
  names : s.bp.names <+: s'.bp.names
  aligned : s.bp.names.length = s.bp.nodes.length → s'.bp.names.length = s'.bp.nodes.length

theorem Adds.of_eq {s s' : Lowerer α} (names : s'.bp.names = s.bp.names)
    (nodes : s'.bp.nodes = s.bp.nodes) : Adds s s' :=
  ⟨names ▸ List.prefix_rfl, fun h => by rw [names, nodes, h]⟩

theorem Adds.of_add (s : Lowerer α) (counters : String → Nat) (nd : Node α) (name : String) :
    Adds s (({ s with counters } : Lowerer α).add nd name) := by
  refine ⟨List.prefix_append _ _, fun h => ?_⟩
  show (s.bp.names ++ [name]).length = (s.bp.nodes ++ [nd]).length
  rw [List.length_append, List.length_append, h]
  rfl

/-- What every lowering does to the nodes. -/
def Account.adds (reg : NodeRegistry α) : Account reg where
  rel _ := Adds
  refl _ := .of_eq rfl rfl
  trans h h' := ⟨h.names.trans h'.names, fun e => h'.aligned (h.aligned e)⟩
  bound s name := .of_add s s.counters _ name
  fresh s g _ _ := .of_add s _ _ _
  connected s src out dst inp one := by
    obtain ⟨-, rfl⟩ := GraphBlueprint.connect_eq_some.mp one
    exact .of_eq rfl rfl
  driven s src out dst param one := by
    obtain ⟨-, rfl⟩ := GraphBlueprint.connectParam_eq_some.mp one
    exact .of_eq rfl rfl
  bindsParam s name t := by
    rw [Lowerer.bindParam]
    cases s.bp.findRuneParam name with
    | none => exact .of_eq rfl rfl
    | some pi => exact .of_eq rfl rfl
  uses _ _ := .of_eq rfl rfl
  declares _ _ _ := .of_eq rfl rfl
  entered p p' h := ⟨h.names, h.aligned⟩

theorem bindParam_names (s : Lowerer α) (name : String) (t : ParamTarget) :
    (s.bindParam name t).bp.names = s.bp.names := by
  rw [Lowerer.bindParam]
  cases s.bp.findRuneParam name with
  | none => rfl
  | some pi => rfl

theorem bindArgument_names {i k : Nat} {a : Argument α} {s s' : Lowerer α} {u : Unit}
    (run : bindArgument i k a s = (.ok u, s')) : s'.bp.names = s.bp.names := by
  obtain ⟨name, e⟩ := a
  cases e with
  | ident p pname =>
      obtain ⟨_, _, got, run⟩ := bind_ok.mp run
      cases got
      split_ifs at run
      · dsimp only at run
        cases port : s.portOf i name k with
        | none =>
            rw [port] at run
            cases run
            rfl
        | some k' =>
            rw [port] at run
            cases run
            exact bindParam_names s pname ⟨i, k'⟩
      · cases run
        rfl
  | number | string | boolean | call | unary | binary | select =>
      cases run
      rfl

/-- Binding rune parameters makes no node. -/
theorem bindRuneParams_names {i : Nat} {args : List (Argument α)} {s s' : Lowerer α} {u : Unit}
    (run : bindRuneParams args i s = (.ok u, s')) : s'.bp.names = s.bp.names := by
  obtain ⟨k, s₁, loop, last⟩ := bind_ok.mp run
  cases last
  have keeps : ∀ (args : List (Argument α)) (k k' : Nat) (s s' : Lowerer α),
      (args.foldlM (fun pos a => do
        bindArgument i pos a
        return if a.1 = "" then pos + 1 else pos) k : LowerM α Nat) s = (.ok k', s') →
      s'.bp.names = s.bp.names := by
    intro args
    induction args with
    | nil =>
        rintro k k' s s' ⟨⟩
        rfl
    | cons a args ih =>
        intro k k' s s' run
        rw [List.foldlM_cons] at run
        obtain ⟨k₁, s₁, turn, rest⟩ := bind_ok.mp run
        obtain ⟨_, s₂, bound, last⟩ := bind_ok.mp turn
        cases last
        exact (ih _ _ _ _ rest).trans (bindArgument_names bound)
  exact keeps args 0 k s s' loop

section ByName

variable [Sample α] {reg : NodeRegistry α} {sigils : List (Definition α)} {fuel : Nat}
  {s s₁ s₂ s₃ : Lowerer α} {sc sc₁ sc₂ : Scope α} {y : String} {value : Expr α}

omit [Sample α] in
theorem evalNode_names {eval : Eval α} {pos : Pos} {text q : String} {args : List (Argument α)}
    {env : Env α} {v : Value α} (named : q ≠ "")
    (run : evalNode reg eval pos text args env q s = (.ok v, s₁)) :
    ∃ before, s₁.bp.names = before ++ [q] := by
  obtain ⟨na, s₂, -, run⟩ := bind_ok.mp run
  cases made : reg.make text na with
  | none =>
      rw [made] at run
      cases run
  | some nd =>
      rw [made] at run
      obtain ⟨nm, s₃, name, run⟩ := bind_ok.mp run
      obtain ⟨i, s₄, added, run⟩ := bind_ok.mp run
      obtain ⟨_, s₅, bound, run⟩ := bind_ok.mp run
      obtain ⟨f, s₆, frag, run⟩ := bind_ok.mp run
      rw [nameOf, if_neg named] at name
      cases name
      cases added
      cases frag
      cases run
      exact ⟨s₂.bp.names, bindRuneParams_names bound⟩

/-- The single node a name is bound to is the last one made, and has the name in its naming
scope. -/
theorem doBinding_single {pos : Pos} (single : isSingleNode reg sigils value = true) (named : y ≠ "")
    (bound : doBinding reg sigils (evalExpr reg sigils fuel) pos y value sc s = (.ok sc₁, s₁)) :
    ∃ before, s₁.bp.names = before ++ [qualified s.namePrefix y] := by
  have some : qualified s.namePrefix y ≠ "" := by
    rw [qualified]
    split_ifs with none
    · exact named
    · intro e
      have e := congrArg String.length e
      simp at e
  by_cases again : sc.defined.contains y = true
  · rw [doBinding, if_pos again] at bound
    cases bound
  rw [doBinding, if_neg again] at bound
  obtain ⟨_, _, got, bound⟩ := bind_ok.mp bound
  cases got
  obtain ⟨v, s₂, run, last⟩ := bind_ok.mp bound
  cases last
  rw [evalBound, if_pos single] at run
  cases fuel with
  | zero => cases run
  | succ fuel =>
      cases value with
      | call p text args =>
          simp only [isSingleNode, Bool.and_eq_true, bne_iff_ne, Bool.not_eq_true',
            Option.isSome_eq_false_iff, Option.isNone_iff_eq_none] at single
          obtain ⟨⟨⟨region, finer⟩, sigil⟩, known⟩ := single
          have run : evalCall reg sigils (evalExpr reg sigils fuel) p text args sc.env _ s = _ := run
          rw [evalCall, if_neg region, if_neg finer, sigil] at run
          dsimp only at run
          rw [if_pos known] at run
          exact evalNode_names some run
      | number | string | boolean | ident | unary | binary | select => cases single

omit [Sample α] in
theorem qualified_eq_self {pre : String} (n : String) : qualified pre n = n ↔ pre = "" := by
  rw [qualified]
  split_ifs with none
  · exact iff_of_true rfl none
  · refine iff_of_false (fun e => ?_) none
    have e := congrArg String.length e
    simp only [String.length_append] at e
    have dot : ".".length = 1 := rfl
    omega

omit [Sample α] in
/-- The first node of a name is the one after `before` exactly when it has the name, and none of
`before` does. -/
theorem findNode_eq_length_iff {bp : GraphBlueprint α} {n q : String} {before : List String} {i : Nat}
    (names : before ++ [q] <+: bp.names) (found : bp.findNode n = some i) :
    i = before.length ↔ q = n ∧ n ∉ before := by
  obtain ⟨lt, here, first⟩ := List.findIdx?_eq_some_iff_getElem.mp found
  obtain ⟨after, names⟩ := names
  have own : bp.names[before.length]? = some q := by
    rw [← names, List.append_assoc, List.getElem?_append_right le_rfl, Nat.sub_self]
    rfl
  have earlier {j : Nat} (hj : j < before.length) : bp.names[j]? = before[j]? := by
    rw [← names, List.append_assoc, List.getElem?_append_left hj]
  have here : bp.names[i]? = some n :=
    (List.getElem?_eq_getElem lt).trans (congrArg some (eq_of_beq here))
  have first {j : Nat} (hj : j < i) : bp.names[j]? ≠ some n := by
    rw [List.getElem?_eq_getElem (hj.trans lt)]
    exact fun e => first j hj (beq_of_eq (Option.some.inj e))
  constructor
  · rintro rfl
    refine ⟨Option.some.inj (own.symm.trans here), fun mem => ?_⟩
    obtain ⟨j, hj⟩ := List.mem_iff_getElem?.mp mem
    have lt := (List.getElem?_eq_some_iff.mp hj).1
    exact first lt ((earlier lt).trans hj)
  · rintro ⟨rfl, none⟩
    rcases lt_trichotomy i before.length with lt | same | gt
    · exact absurd (List.mem_of_getElem? ((earlier lt).symm.trans here)) none
    · exact same
    · exact absurd own (first gt)

/-- **Wiring by name respects scope exactly in the empty naming scope, for a name that no earlier
node has.**  In a scope where `y` was bound to a node, whatever stood between, the connection
ends at that node under this condition and no other. -/
theorem wiring_respects_scope {pos : Pos} {mid : List (Stmt α)} {v : Value α}
    (single : isSingleNode reg sigils value = true) (named : y ≠ "")
    (aligned : s.bp.names.length = s.bp.nodes.length)
    (bound : doBinding reg sigils (evalExpr reg sigils fuel) pos y value sc s = (.ok sc₁, s₁))
    (went : doBody reg sigils (evalExpr reg sigils fuel) mid sc₁ s₁ = (.ok (v, sc₂), s₂)) :
    (∀ pos source target port, target.parts = [y, port] →
      doModulate reg (evalExpr reg sigils fuel) pos source target sc₂.env s₂ = (.ok (), s₃) →
      ∃ c, s₃.bp.paramConnections.getLast? = some c ∧ (c.dstNode = s₁.bp.size - 1 ↔
        s.namePrefix = "" ∧ y ∉ s₁.bp.names.dropLast)) ∧
    (∀ pos source inp,
      doExplicit reg (evalExpr reg sigils fuel) pos source y inp sc₂.env s₂ = (.ok (), s₃) →
      ∃ c, s₃.bp.connections.getLast? = some c ∧ (c.dstNode = s₁.bp.size - 1 ↔
        s.namePrefix = "" ∧ y ∉ s₁.bp.names.dropLast)) := by
  have ev := evalExpr_emits (Account.adds reg) sigils fuel
  obtain ⟨before, last⟩ := doBinding_single single named bound
  have size : s₁.bp.size - 1 = before.length := by
    have aligned := ((doBinding_emits ev pos y value) s sc₁ s₁ rfl bound).2.aligned aligned
    rw [last, List.length_append] at aligned
    exact (congrArg (· - 1) aligned.symm).trans (Nat.add_sub_cancel ..)
  have grown : Adds s₁ s₂ := (doBody_emits_of_rune ev (fun _ _ _ => .of_eq rfl rfl)
    (fun _ _ _ => .of_eq rfl rfl) mid s₁ _ s₂ rfl went).2
  -- the node that is found, after the source has been evaluated
  have ends {e : Expr α} {env : Env α} {f : Fragment} {s' : Lowerer α} {i : Nat}
      (frag : evalFragment reg (evalExpr reg sigils fuel) e env s₂ = (.ok f, s'))
      (found : s'.bp.findNode y = some i) :
      i = s₁.bp.size - 1 ↔ s.namePrefix = "" ∧ y ∉ s₁.bp.names.dropLast := by
    have more : Adds s₂ s' := (evalFragment_emits ev e s₂ f s' rfl frag).2
    have names := grown.names.trans more.names
    rw [last] at names
    rw [size, findNode_eq_length_iff names found, qualified_eq_self, last, List.dropLast_concat]
  refine ⟨fun pos source target port parts run => ?_, fun pos source inp run => ?_⟩
  · obtain ⟨f, s', frag, run⟩ := bind_ok.mp run
    obtain ⟨ins, outs⟩ := f
    rcases outs with _ | ⟨c, _ | ⟨d, cs⟩⟩
    · cases run
    · obtain ⟨first, _, i, p, bp, head, -, found, -, one, rfl⟩ := modulateTo_ok run
      have name : target.nodeName first = y := by
        rw [parts] at head
        rw [PortPath.nodeName, parts, ← Option.some.inj head]
        rfl
      obtain ⟨-, rfl⟩ := GraphBlueprint.connectParam_eq_some.mp one
      exact ⟨_, List.getLast?_concat, ends frag (name ▸ found)⟩
    · cases run
  · obtain ⟨f, s', frag, run⟩ := bind_ok.mp run
    obtain ⟨ins, outs⟩ := f
    rcases outs with _ | ⟨c, _ | ⟨d, cs⟩⟩
    · cases run
    · obtain ⟨i, bp, found, one, rfl⟩ := wireTo_ok run
      obtain ⟨-, rfl⟩ := GraphBlueprint.connect_eq_some.mp one
      exact ⟨_, List.getLast?_concat, ends frag found⟩
    · cases run

end ByName

section Shadow

/-- `y = gain(k)`, in the scope of a rune or of a sigil. -/
noncomputable def bindGain (sc : Scope ℝ) : LowerM ℝ (Scope ℝ) :=
  doBinding standardRegistry [] (evalExpr standardRegistry [] 2) {} "y"
    (.call {} "gain" [("", .number {} 1)]) sc

/-- `noise() ~> y.gain`. -/
noncomputable def driveGain (sc : Scope ℝ) : LowerM ℝ Unit :=
  doModulate standardRegistry (evalExpr standardRegistry [] 2) {} (.call {} "noise" [])
    ⟨["y", "gain"], {}⟩ sc.env

/-- In a rune. -/
theorem wiring_respects_scope_outermost : ∃ sc₁ s₁ s₂,
    bindGain ⟨fun _ => none, [], some false⟩ {} = (.ok sc₁, s₁) ∧
    driveGain sc₁ s₁ = (.ok (), s₂) ∧
    ∃ c, s₂.bp.paramConnections.getLast? = some c ∧ c.dstNode = s₁.bp.size - 1 := by
  obtain ⟨sc₁, s₁, s₂, bound, names, driven⟩ : ∃ sc₁ s₁ s₂,
      bindGain ⟨fun _ => none, [], some false⟩ {} = (.ok sc₁, s₁) ∧ s₁.bp.names = ["y"] ∧
      driveGain sc₁ s₁ = (.ok (), s₂) := ⟨_, _, _, rfl, rfl, rfl⟩
  have none : ("" : String) = "" ∧ "y" ∉ s₁.bp.names.dropLast := by
    rw [names]
    exact ⟨rfl, List.not_mem_nil⟩
  have went : doBody standardRegistry [] (evalExpr standardRegistry [] 2) [] sc₁ s₁
      = (.ok (.number 0, sc₁), s₁) := rfl
  obtain ⟨c, last, ends⟩ :=
    (wiring_respects_scope rfl (by decide) rfl bound went).1 {} _ _ _ rfl driven
  exact ⟨sc₁, s₁, s₂, bound, driven, c, last, ends.mpr none⟩

/-- `sigil s() y = gain(1)  noise() ~> y.gain  y end`. -/
noncomputable def drivenSigil : Definition ℝ :=
  ⟨"s", [], [.binding {} "y" (.call {} "gain" [("", .number {} 1)]),
    .modulate {} (.call {} "noise" []) ⟨["y", "gain"], {}⟩, .wire {} (.ident {} "y")], {}⟩

/-- `rune r() y = gain(1)  out s() end`. -/
noncomputable def shadowedRune : Definition ℝ :=
  ⟨"r", [], [.binding {} "y" (.call {} "gain" [("", .number {} 1)]),
    .out {} (.call {} "s" []) "" (-1)], {}⟩

/-- In a sigil that is expanded inline, after the rune has bound the same name: the `y` of the
sigil is node 1, and its `~>` drives node 0. -/
theorem shadowed_node_wired :
    (∃ bp, lower 5 ⟨[shadowedRune], [drivenSigil]⟩ standardRegistry = some ⟨[⟨"r", bp⟩], []⟩ ∧
      bp.outputNode = 1 ∧ bp.paramConnections = [⟨2, 0, 0, 0⟩]) ∧
    ∃ sc₀ s₀ sc₁ s₁ s₂, bindGain ⟨fun _ => none, [], some false⟩ {} = (.ok sc₀, s₀) ∧
      bindGain ⟨fun _ => none, [], none⟩ s₀ = (.ok sc₁, s₁) ∧
      driveGain sc₁ s₁ = (.ok (), s₂) ∧
      ∀ c, s₂.bp.paramConnections.getLast? = some c → c.dstNode ≠ s₁.bp.size - 1 := by
  refine ⟨⟨_, rfl, rfl, rfl⟩, _, _, _, _, _, rfl, rfl, rfl, ?_⟩
  rintro c ⟨⟩
  exact Nat.zero_ne_one

end Shadow

end Xrune.Lang
