import Xrune.Core.Builder
import Xrune.Json.Decimal
import Xrune.Lang.Declared
import Xrune.Lang.Ends
import Xrune.Lang.Parser
import Xrune.Lang.Tells
import Xrune.Runtime.Refs

/-!
# Runtime — loading a text

`register_blueprint` compiles a blueprint and keeps it under the next id; `load` parses a text,
lowers it, and registers what the runes are lowered to.

* `loadBlueprints_eq`: of the blueprints, in order, those that compile are registered, each under
  the next id; the others are diagnosed.
* `Loading`: what a load leaves, against the program its text is read as.  `Loading.ok_iff`: no
  diagnostics, no rune missing.  `Loading.findBlueprint_eq`: a name keeps the blueprint it had.
* `load_accounts`: a load leaves a `Loading`, and the ids it answers with hold in every state the
  host then comes to.
-/

namespace Xrune

open Lang

section Registration

variable {α : Type}

namespace Runtime

/-- What `register_blueprint` says of a blueprint that does not compile. -/
def compileFailed (name : String) : String :=
  "register_blueprint(" ++ name ++ "): compile failed (cycle, or invalid rate/block configuration)"

/-- `register_blueprint`, on a runtime that was initialized.  An id is a `uint32_t`. -/
def registerBlueprint (rt : Runtime α) (b : BlueprintBuilder α) : Runtime α × Nat :=
  if !b.ok then
    ({ rt with err := "register_blueprint(" ++ b.name ++ "): " ++ "; ".intercalate b.errors },
      invalidBlueprint)
  else
    let sched := compile b.bp rt.eng.blockSize
    if !sched.ok then ({ rt with err := compileFailed b.name }, invalidBlueprint)
    else ({ rt with registry := rt.registry ++ [⟨b.name, sched⟩] }, rt.registry.length % 2 ^ 32)

/-- `find_blueprint`. -/
def findBlueprint (rt : Runtime α) (name : String) : Nat :=
  (rt.registry.findIdx? fun r => r.name == name).elim invalidBlueprint (· % 2 ^ 32)

end Runtime

namespace Lang

structure LoadResult where
  blueprints : List (String × Nat) := []
  diags : List Diagnostic := []
  deriving DecidableEq, Repr

namespace LoadResult

def ok (out : LoadResult) : Bool := out.diags.isEmpty

def find (out : LoadResult) (name : String) : Nat :=
  (out.blueprints.find? fun p => p.1 == name).elim invalidBlueprint Prod.snd

end LoadResult

/-- The turn of `load` for a lowered blueprint. -/
def loadBlueprint (acc : Runtime α × LoadResult) (lb : LoweredBlueprint α) :
    Runtime α × LoadResult :=
  let r := acc.1.registerBlueprint { name := lb.name, bp := lb.bp }
  (r.1, if r.2 = invalidBlueprint then
      { acc.2 with diags := acc.2.diags ++ [⟨"rune '" ++ lb.name ++ "': " ++ r.1.err, {}⟩] }
    else { acc.2 with blueprints := acc.2.blueprints ++ [(lb.name, r.2)] })

/-- `load`, with fuel for the depth of lowering. -/
def load [Sample α] [CInt α] [Json.CNumber α] (fuel : Nat) (rt : Runtime α) (src : List Char)
    (reg : NodeRegistry α) : Option (Runtime α × LoadResult) :=
  match parse (α := α) src with
  | some (.ok prog, p) =>
      if p.diags ≠ [] then some (rt, { diags := p.diags })
      else (lower fuel prog reg).map fun lr =>
        lr.blueprints.foldl loadBlueprint (rt, { diags := p.diags ++ lr.diags })
  | _ => none

end Lang

end Registration

namespace Lang

section Spec

variable {α : Type}

namespace LoweredBlueprint

/-- The blueprint compiles, in blocks of `B`. -/
def compiles (B : Nat) (lb : LoweredBlueprint α) : Bool := (compile lb.bp B).ok

/-- What it is registered as. -/
def entry (B : Nat) (lb : LoweredBlueprint α) : Registered α := ⟨lb.name, compile lb.bp B⟩

/-- What it is diagnosed with. -/
def fault (lb : LoweredBlueprint α) : Diagnostic :=
  ⟨"rune '" ++ lb.name ++ "': " ++ Runtime.compileFailed lb.name, {}⟩

end LoweredBlueprint

open LoweredBlueprint

/-- The entries of the blueprints that compile. -/
def entries (B : Nat) (lbs : List (LoweredBlueprint α)) : List (Registered α) :=
  (lbs.filter (compiles B)).map (entry B)

/-- The diagnostics of those that do not. -/
def faults (B : Nat) (lbs : List (LoweredBlueprint α)) : List Diagnostic :=
  (lbs.filter fun lb => !lb.compiles B).map fault

/-- The entries with their ids, from an id on. -/
def numbered (id : Nat) (added : List (Registered α)) : List (String × Nat) :=
  (added.zipIdx id).map fun p => (p.1.name, p.2)

section Turns

variable {B : Nat} {lb : LoweredBlueprint α} {lbs : List (LoweredBlueprint α)}

@[simp] theorem entries_cons_compiles (h : lb.compiles B = true) :
    entries B (lb :: lbs) = lb.entry B :: entries B lbs := by
  rw [entries, List.filter_cons_of_pos h, List.map_cons]
  rfl

@[simp] theorem entries_cons_fails (h : ¬lb.compiles B = true) :
    entries B (lb :: lbs) = entries B lbs := by
  rw [entries, List.filter_cons_of_neg h]
  rfl

@[simp] theorem faults_cons_compiles (h : lb.compiles B = true) :
    faults B (lb :: lbs) = faults B lbs := by
  rw [faults, List.filter_cons_of_neg (by simpa using h)]
  rfl

@[simp] theorem faults_cons_fails (h : ¬lb.compiles B = true) :
    faults B (lb :: lbs) = lb.fault :: faults B lbs := by
  rw [faults, List.filter_cons_of_pos (by simpa using h), List.map_cons]
  rfl

/-- Each of the blueprints is registered or diagnosed. -/
theorem length_entries_faults (B : Nat) (lbs : List (LoweredBlueprint α)) :
    (entries B lbs).length + (faults B lbs).length = lbs.length := by
  rw [entries, faults, List.length_map, List.length_map]
  exact (List.length_eq_length_filter_add _).symm

variable {rt rt' : Runtime α} {out out' : LoadResult}

theorem registerBlueprint_compiles (compiles : lb.compiles rt.eng.blockSize = true) :
    rt.registerBlueprint { name := lb.name, bp := lb.bp } =
      ({ rt with registry := rt.registry ++ [lb.entry rt.eng.blockSize] },
        rt.registry.length % 2 ^ 32) := by
  rw [Runtime.registerBlueprint, if_neg (by simp [BlueprintBuilder.ok])]
  dsimp only
  rw [if_neg (by simpa [LoweredBlueprint.compiles] using compiles)]
  rfl

theorem registerBlueprint_fails (fails : ¬lb.compiles rt.eng.blockSize = true) :
    rt.registerBlueprint { name := lb.name, bp := lb.bp } =
      ({ rt with err := Runtime.compileFailed lb.name }, invalidBlueprint) := by
  rw [Runtime.registerBlueprint, if_neg (by simp [BlueprintBuilder.ok])]
  dsimp only
  rw [if_pos (by simpa [LoweredBlueprint.compiles] using fails)]

/-- A turn registers the blueprint if it compiles, whatever it then reports. -/
theorem loadBlueprint_registry (rt : Runtime α) (out : LoadResult) (lb : LoweredBlueprint α) :
    (loadBlueprint (rt, out) lb).1.registry = rt.registry ++ entries rt.eng.blockSize [lb] := by
  by_cases h : lb.compiles rt.eng.blockSize = true
  · rw [loadBlueprint, registerBlueprint_compiles h, entries_cons_compiles h]
    rfl
  · rw [loadBlueprint, registerBlueprint_fails h, entries_cons_fails h]
    exact (List.append_nil _).symm

theorem loadBlueprint_compiles (h : lb.compiles rt.eng.blockSize = true)
    (room : rt.registry.length < invalidBlueprint) :
    loadBlueprint (rt, out) lb =
      ({ rt with registry := rt.registry ++ [lb.entry rt.eng.blockSize] },
        { out with blueprints := out.blueprints ++ [(lb.name, rt.registry.length)] }) := by
  have small : rt.registry.length % 2 ^ 32 = rt.registry.length :=
    Nat.mod_eq_of_lt (room.trans (by decide))
  simp only [loadBlueprint, registerBlueprint_compiles h, small, if_neg room.ne]

theorem loadBlueprint_fails (h : ¬lb.compiles rt.eng.blockSize = true) :
    loadBlueprint (rt, out) lb = ({ rt with err := Runtime.compileFailed lb.name },
      { out with diags := out.diags ++ [lb.fault] }) := by
  simp only [loadBlueprint, registerBlueprint_fails h, if_true]
  rfl

/-- The registry only grows. -/
theorem registry_le_loadBlueprints (lbs : List (LoweredBlueprint α))
    (acc : Runtime α × LoadResult) :
    acc.1.registry.length ≤ (lbs.foldl loadBlueprint acc).1.registry.length := by
  refine List.foldlRecOn (motive := fun acc' : Runtime α × LoadResult =>
    acc.1.registry.length ≤ acc'.1.registry.length) lbs _ le_rfl ?_
  rintro ⟨rt, out⟩ le lb -
  rw [loadBlueprint_registry, List.length_append]
  exact le.trans (Nat.le_add_right _ _)

/-- **What registering the blueprints leaves**: those that compile are registered, in order, under
the next ids, the others are diagnosed, and of the rest of the runtime only the last error has
changed. -/
theorem loadBlueprints_eq (run : lbs.foldl loadBlueprint (rt, out) = (rt', out'))
    (room : rt'.registry.length ≤ invalidBlueprint) :
    rt' = { rt with registry := rt.registry ++ entries rt.eng.blockSize lbs, err := rt'.err } ∧
      out' = { blueprints := out.blueprints ++
                numbered rt.registry.length (entries rt.eng.blockSize lbs)
               diags := out.diags ++ faults rt.eng.blockSize lbs } := by
  induction lbs generalizing rt out with
  | nil =>
      cases run
      simp [entries, faults, numbered]
  | cons lb lbs ih =>
      rw [List.foldl_cons] at run
      have grown : rt.registry.length + (entries rt.eng.blockSize [lb]).length
          ≤ rt'.registry.length := by
        rw [← List.length_append, ← loadBlueprint_registry rt out lb]
        exact (registry_le_loadBlueprints lbs _).trans_eq (by rw [run])
      by_cases h : lb.compiles rt.eng.blockSize = true
      · rw [entries_cons_compiles h, List.length_cons] at grown
        rw [loadBlueprint_compiles h (by omega)] at run
        obtain ⟨hrt, hout⟩ := ih run
        rw [entries_cons_compiles h, faults_cons_compiles h]
        refine ⟨hrt.trans ?_, hout.trans ?_⟩
        · simp
        · simp [numbered, LoweredBlueprint.entry]
      · rw [loadBlueprint_fails h] at run
        obtain ⟨hrt, hout⟩ := ih run
        rw [entries_cons_fails h, faults_cons_fails h]
        refine ⟨hrt, hout.trans ?_⟩
        simp

end Turns

/-! ### What a load leaves -/

section Accounts

/-- The entry is the rune's: its blueprint is well formed, has the rune's name and the parameters
it declares, and compiled. -/
def Loads (reg : NodeRegistry α) (B : Nat) (r : Definition α) (e : Registered α) : Prop :=
  ∃ lb : LoweredBlueprint α, Declares r lb ∧ Lowered reg lb.bp ∧ lb.compiles B = true ∧
    e = lb.entry B

/-- `rt'` and `out` are what loading a text leaves from `rt`: the program read is `prog`, reading
it was diagnosed with `diags`, and of its runes `runes` were registered, as `added`. -/
structure Loading (reg : NodeRegistry α) (rt rt' : Runtime α) (out : LoadResult)
    (prog : Program α) (diags : List Diagnostic) (runes : List (Definition α))
    (added : List (Registered α)) : Prop where
  grown : rt' = { rt with registry := rt.registry ++ added, err := rt'.err }
  ids : out.blueprints = numbered rt.registry.length added
  order : runes.Sublist prog.runes
  each : List.Forall₂ (Loads reg rt.eng.blockSize) runes added
  broken : diags ≠ [] → added = [] ∧ out.diags = diags
  counted : diags = [] → out.blueprints.length + out.diags.length = prog.runes.length

variable {reg : NodeRegistry α} {rt rt' : Runtime α} {out : LoadResult}

theorem length_numbered (id : Nat) (added : List (Registered α)) :
    (numbered id added).length = added.length := by
  rw [numbered, List.length_map, List.length_zipIdx]

theorem mem_numbered {id i : Nat} {added : List (Registered α)} {name : String}
    (h : (name, i) ∈ numbered id added) :
    ∃ e, added[i - id]? = some e ∧ id ≤ i ∧ e.name = name := by
  obtain ⟨⟨e, j⟩, mem, eq⟩ := List.mem_map.mp h
  obtain ⟨rfl, rfl⟩ := Prod.mk.inj eq
  obtain ⟨le, he⟩ := List.mem_zipIdx_iff_le_and_getElem?_sub.mp mem
  exact ⟨e, he, le, rfl⟩

/-- What `find` answers with is the id of a blueprint of that name. -/
theorem LoadResult.find_mem {name : String} (h : out.find name ≠ invalidBlueprint) :
    (name, out.find name) ∈ out.blueprints := by
  rw [LoadResult.find] at h ⊢
  rcases found : out.blueprints.find? fun p : String × Nat => p.1 == name with _ | p
  · rw [found] at h
    exact absurd rfl h
  · have same := List.find?_some (p := fun p : String × Nat => p.1 == name) found
    obtain rfl := beq_iff_eq.mp same
    exact List.mem_of_find?_eq_some found

theorem find_numbered (name : String) (added : List (Registered α)) (id : Nat) :
    ((numbered id added).find? fun p => p.1 == name).map Prod.snd =
      (added.findIdx? fun r => r.name == name).map (· + id) := by
  induction added generalizing id with
  | nil => rfl
  | cons e added ih =>
      rw [numbered, List.zipIdx_cons, List.map_cons, List.find?_cons, List.findIdx?_cons]
      by_cases same : (e.name == name) = true
      · rw [same, if_pos rfl]
        simp
      · rw [Bool.eq_false_iff.mpr same, if_neg (by simp)]
        change Option.map Prod.snd ((numbered (id + 1) added).find? _) = _
        rw [ih (id + 1), Option.map_map]
        congr 1
        funext i
        exact (Nat.add_right_comm i 1 id).symm ▸ rfl

/-- With room, an id is the place in the registry. -/
theorem findBlueprint_of_room (room : rt.registry.length ≤ invalidBlueprint) (name : String) :
    rt.findBlueprint name =
      (rt.registry.findIdx? fun r => r.name == name).getD invalidBlueprint := by
  rw [Runtime.findBlueprint]
  rcases found : rt.registry.findIdx? fun r : Registered α => r.name == name with _ | i
  · rfl
  · obtain ⟨lt, -⟩ := List.findIdx?_eq_some_iff_getElem.mp found
    have small : invalidBlueprint < 2 ^ 32 := by decide
    exact Nat.mod_eq_of_lt ((lt.trans_le room).trans small)

namespace Loading

variable {prog : Program α} {diags : List Diagnostic} {runes : List (Definition α)}
  {added : List (Registered α)} (h : Loading reg rt rt' out prog diags runes added)

include h

/-- A blueprint of the load is its entry. -/
theorem entry_of_mem {name : String} {id : Nat} (mem : (name, id) ∈ out.blueprints) :
    ∃ r ∈ prog.runes, ∃ e, Loads reg rt.eng.blockSize r e ∧ r.name = name ∧
      rt'.registry[id]? = some e := by
  rw [h.ids] at mem
  obtain ⟨e, at_, le, named⟩ := mem_numbered mem
  obtain ⟨r, hr, loads⟩ := entry_of_forall₂ h.each at_
  refine ⟨r, h.order.subset (List.mem_of_getElem? hr), e, loads, ?_, ?_⟩
  · obtain ⟨lb, declares, -, -, rfl⟩ := loads
    exact declares.1.symm.trans named
  · rw [h.grown]
    exact (List.getElem?_append_right le).trans at_

theorem loads_of_mem {e : Registered α} (mem : e ∈ added) :
    ∃ r, Loads reg rt.eng.blockSize r e := by
  obtain ⟨i, at_⟩ := List.mem_iff_getElem?.mp mem
  obtain ⟨r, -, loads⟩ := entry_of_forall₂ h.each at_
  exact ⟨r, loads⟩

/-- A load that is `ok` has loaded every rune. -/
theorem ok_iff : out.ok = true ↔ diags = [] ∧ runes = prog.runes := by
  have same : runes.length = out.blueprints.length := by
    rw [h.ids, length_numbered, h.each.length_eq]
  rw [LoadResult.ok, List.isEmpty_iff]
  constructor
  · intro ok
    have quiet : diags = [] := by
      by_contra broken
      exact broken ((h.broken broken).2.symm.trans ok)
    refine ⟨quiet, h.order.eq_of_length ?_⟩
    have counted := h.counted quiet
    rw [ok, List.length_nil] at counted
    omega
  · rintro ⟨quiet, all⟩
    have counted := h.counted quiet
    rw [all] at same
    exact List.length_eq_zero_iff.mp (by omega)

/-- The runtime answers for a name as it did before the load if it answered, otherwise as the
load does: a rune loaded again does not take the name. -/
theorem findBlueprint_eq (room : rt'.registry.length ≤ invalidBlueprint) (name : String) :
    rt'.findBlueprint name =
      if rt.findBlueprint name = invalidBlueprint then out.find name
      else rt.findBlueprint name := by
  have grown : rt'.registry = rt.registry ++ added := congrArg Runtime.registry h.grown
  have room₀ : rt.registry.length ≤ invalidBlueprint := by
    rw [grown, List.length_append] at room
    omega
  rw [findBlueprint_of_room room, findBlueprint_of_room room₀, grown, List.findIdx?_append]
  rcases found : rt.registry.findIdx? fun r : Registered α => r.name == name with _ | i
  · have answer := find_numbered name added rt.registry.length
    rw [Option.none_or, ← answer, Option.getD_none, if_pos rfl, LoadResult.find, h.ids]
    rcases (numbered rt.registry.length added).find? fun p : String × Nat =>
        p.1 == name with _ | p
    · rfl
    · rfl
  · obtain ⟨lt, -⟩ := List.findIdx?_eq_some_iff_getElem.mp found
    exact (if_neg (lt.trans_le room₀).ne).symm

end Loading

/-- The entries of blueprints are those of some of their runes, in order. -/
theorem loads_of_declares {B : Nat} {accepted : List (Definition α)}
    {lbs : List (LoweredBlueprint α)} (h : List.Forall₂ Declares accepted lbs)
    (lowered : ∀ lb ∈ lbs, Lowered reg lb.bp) :
    ∃ runes, runes.Sublist accepted ∧ List.Forall₂ (Loads reg B) runes (entries B lbs) := by
  induction h with
  | nil => exact ⟨[], .slnil, .nil⟩
  | @cons r lb accepted lbs one _ ih =>
      obtain ⟨runes, sub, all⟩ := ih fun lb' mem => lowered lb' (List.mem_cons_of_mem lb mem)
      by_cases h : lb.compiles B = true
      · rw [entries_cons_compiles h]
        exact ⟨r :: runes, sub.cons_cons r,
          .cons ⟨lb, one, lowered lb List.mem_cons_self, h, rfl⟩ all⟩
      · rw [entries_cons_fails h]
        exact ⟨runes, sub.cons r, all⟩

variable [Sample α]

/-- What is lowered, registered. -/
theorem loading_of_lowered (B : Builtins reg) {fuel : Nat} {prog : Program α} {lr : LowerResult α}
    (lowers : lower fuel prog reg = some lr)
    (run : lr.blueprints.foldl loadBlueprint (rt, { diags := lr.diags }) = (rt', out))
    (room : rt'.registry.length ≤ invalidBlueprint) :
    ∃ runes added, Loading reg rt rt' out prog [] runes added := by
  obtain ⟨accepted, sub, declares⟩ := lower_declares B lowers
  obtain ⟨runes, sub', each⟩ := loads_of_declares (B := rt.eng.blockSize) declares
    (lower_lowered B lowers)
  obtain ⟨grown, rfl⟩ := loadBlueprints_eq run room
  refine ⟨runes, _, grown, List.nil_append _, sub'.trans sub, each, fun h => absurd rfl h,
    fun _ => ?_⟩
  have answers : lr.blueprints.length + lr.diags.length = prog.runes.length :=
    lower_answers reg lowers
  have split := length_entries_faults rt.eng.blockSize lr.blueprints
  simp only [List.length_append, List.length_nil, length_numbered]
  omega

/-- `load` is reading the text, and registering what it is lowered to. -/
theorem loading_of_load [CInt α] [Json.CNumber α] (B : Builtins reg) {fuel : Nat}
    {src : List Char} (loads : load fuel rt src reg = some (rt', out))
    (room : rt'.registry.length ≤ invalidBlueprint) :
    ∃ prog p runes added, parse (α := α) src = some (.ok prog, p) ∧
      Loading reg rt rt' out prog p.diags runes added := by
  unfold load at loads
  split at loads
  next prog p reads =>
    by_cases broken : p.diags = []
    · rw [if_neg (not_not.mpr broken)] at loads
      obtain ⟨lr, lowers, run⟩ := Option.map_eq_some_iff.mp loads
      rw [broken, List.nil_append] at run
      obtain ⟨runes, added, loading⟩ := loading_of_lowered B lowers run room
      exact ⟨prog, p, runes, added, reads, broken ▸ loading⟩
    · rw [if_pos broken] at loads
      cases loads
      exact ⟨prog, p, [], [], reads, by simp, rfl, List.nil_sublist _, .nil,
        fun _ => ⟨rfl, rfl⟩, fun quiet => absurd quiet broken⟩
  next => cases loads

/-- Compiled blueprints are registered one after another. -/
theorem registers_runs (rt : Runtime α) (added : List (Registered α)) (may : rt.mayCall = true)
    (compiled : ∀ e ∈ added, e.sched.ok = true) :
    runs (fun rt a => (rt.step a).map Prod.fst) rt
      (added.map fun e => .register e.name e.sched) =
        some { rt with registry := rt.registry ++ added } := by
  induction added generalizing rt with
  | nil => simp [runs]
  | cons e added ih =>
      have one : rt.step (.register e.name e.sched) =
          some ({ rt with registry := rt.registry ++ [e] }, .silent) :=
        if_pos (by rw [may, compiled e List.mem_cons_self]; rfl)
      rw [List.map_cons, runs, one]
      refine (ih { rt with registry := rt.registry ++ [e] } may fun e' mem =>
        compiled e' (List.mem_cons_of_mem e mem)).trans ?_
      simp

/-- A registered blueprint stays registered, whatever the host does. -/
theorem registry_of_reaches {ok : Host α → HostAction α → Prop} {h h' : Host α}
    (run : Reaches Host.step ok h h') {id : Nat} {e : Registered α}
    (here : h.rt.registry[id]? = some e) : h'.rt.registry[id]? = some e := by
  induction run with
  | refl => exact here
  | tail _ _ one ih => exact Host.registry_of_step one ih

/-- **What a load leaves.**  The text is read as a program; if reading it was not diagnosed, the
blueprints registered and the diagnostics are together as many as its runes, and `ok` says that
every rune is registered.  The blueprints registered are well formed, those of the runes, in
order; the runtime is the one there was, the blueprints registered in it one after another, save
for its last error.  From then on, whatever the host does, the id `find` answers with is that of
a blueprint of that name. -/
theorem load_accounts [CInt α] [Json.CNumber α] (B : Builtins reg) {fuel : Nat} {src : List Char}
    (loads : load fuel rt src reg = some (rt', out))
    (room : rt'.registry.length ≤ invalidBlueprint) :
    ∃ prog p runes added, parse (α := α) src = some (.ok prog, p) ∧
      Loading reg rt rt' out prog p.diags runes added ∧
      (out.ok = true ↔ p.diags = [] ∧ runes = prog.runes) ∧
      (∀ name, rt'.findBlueprint name =
        if rt.findBlueprint name = invalidBlueprint then out.find name
        else rt.findBlueprint name) ∧
      (rt.mayCall = true →
        runs (fun rt a => (rt.step a).map Prod.fst) { rt with err := rt'.err }
          (added.map fun e => .register e.name e.sched) = some rt') ∧
      ∀ {ok : Host α → HostAction α → Prop} {h h' : Host α}, h.rt = rt' →
        Reaches Host.step ok h h' → ∀ name, out.find name ≠ invalidBlueprint →
          ∃ r ∈ prog.runes, ∃ e, Loads reg rt.eng.blockSize r e ∧ r.name = name ∧
            h'.rt.registry[out.find name]? = some e := by
  obtain ⟨prog, p, runes, added, reads, loading⟩ := loading_of_load B loads room
  refine ⟨prog, p, runes, added, reads, loading, loading.ok_iff, loading.findBlueprint_eq room,
    fun may => ?_, fun hrt run name found => ?_⟩
  · have registers := registers_runs { rt with err := rt'.err } added may fun e mem => by
      obtain ⟨r, lb, -, -, ok, rfl⟩ := loading.loads_of_mem mem
      exact ok
    exact registers.trans (congrArg some loading.grown.symm)
  · obtain ⟨r, hr, e, loads, named, at_⟩ := loading.entry_of_mem (LoadResult.find_mem found)
    exact ⟨r, hr, e, loads, named, registry_of_reaches run (hrt ▸ at_)⟩

/-! A text with a rune that is lowered, and one that is diagnosed. -/

/-- Conversion to `int` truncates. -/
noncomputable instance CInt.real : CInt ℝ := ⟨fun x => if x < 0 then ⌈x⌉ else ⌊x⌋⟩

def noiseAndUnknown : List Char :=
  "rune r\n out noise()\nend\nrune q\n out x\nend\n".toList

noncomputable def noiseLoaded : Option (Runtime ℝ × LoadResult) :=
  (Runtime.init (.small 1 0 EngineConfig.fits_one) true).bind fun rt =>
    load 3 rt noiseAndUnknown standardRegistry

theorem load_accounts_noise : ∃ rt rt' out,
    Runtime.init (.small 1 0 EngineConfig.fits_one) true = some rt ∧
      load 3 rt noiseAndUnknown standardRegistry = some (rt', out) ∧ out.diags.length = 1 ∧
        ∃ prog p runes added, parse (α := ℝ) noiseAndUnknown = some (.ok prog, p) ∧
          Loading standardRegistry rt rt' out prog p.diags runes added ∧
          ∀ {ok : Host ℝ → HostAction ℝ → Prop} {h h' : Host ℝ}, h.rt = rt' →
            Reaches Host.step ok h h' → ∃ r ∈ prog.runes, ∃ e,
              Loads standardRegistry rt.eng.blockSize r e ∧ r.name = "r" ∧
                h'.rt.registry[0]? = some e := by
  have evaluated : noiseLoaded.any (fun r => r.1.registry.length == 1 && r.2.find "r" == 0 &&
      r.2.diags.length == 1) = true := by decide +kernel
  obtain ⟨⟨rt', out⟩, loaded, facts⟩ := (Option.any_eq_true _ _).mp evaluated
  simp only [Bool.and_eq_true, beq_iff_eq] at facts
  obtain ⟨⟨one, found⟩, diagnosed⟩ := facts
  obtain ⟨rt, init, loads⟩ := Option.bind_eq_some_iff.mp loaded
  obtain ⟨prog, p, runes, added, reads, loading, -, -, -, later⟩ :=
    load_accounts standardRegistry_builtins loads (one.trans_le (by decide))
  refine ⟨rt, rt', out, init, loads, diagnosed, prog, p, runes, added, reads, loading,
    fun here run => ?_⟩
  exact found ▸ later here run "r" (by rw [found]; decide)

end Accounts

end Spec

end Lang

end Xrune
