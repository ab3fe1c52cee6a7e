import Mathlib.Data.List.Basic
import Mathlib.Tactic.Ring

/-!
# Tools — the verified Faust index

`faustlib_scan.py --verify`: the source `faustlib()` would emit for a scanned function, the
retries with a growing forced prefix, and the correction written back to the index once an
attempt compiles.

* `mem_verify` — an entry of the verified index is a scanned entry, corrected for the first
  prefix the compiler took.
* `verified_source_iff` — the corrected entry is the text that compiled exactly when none of
  the forced arguments was a compile-time one already.

Faust and the float format `%g` are parameters: nothing is assumed of either.
-/

namespace Xrune.Tools

/-- The range of a slider; `fromTest` when it is the library author's own. -/
structure SliderRange (F : Type) where
  default : F
  min : F
  max : F
  step : F
  fromTest : Bool

/-- `p["const"]`, with the keys only a slider has. -/
inductive ParamKind (F : Type) where
  | const
  | slider (range : SliderRange F)

/-- One entry of `meta["params"]`. -/
structure ScanParam (F : Type) where
  name : String
  doc : Option String
  kind : ParamKind F

/-- One entry of the index. -/
structure FunctionMeta (F : Type) where
  params : List (ScanParam F)
  lib : String
  verified : Bool

variable {F : Type}

/-- `p.get("const")`. -/
def ScanParam.isConst (p : ScanParam F) : Bool :=
  match p.kind with
  | .const => true
  | .slider _ => false

/-- `n_slider`. -/
def sliderCount (params : List (ScanParam F)) : Nat :=
  params.countP fun p => !p.isConst

section Source

variable (fmt : F → String)

/-- The argument `gen_source` writes for parameter `i`. -/
def genArg (constPrefix constValue i : Nat) (p : ScanParam F) : String :=
  match p.kind with
  | .const => toString constValue
  | .slider r =>
    if i < constPrefix then toString constValue
    else "hslider(\"" ++ p.name ++ "\", " ++ fmt r.default ++ ", " ++ fmt r.min ++ ", " ++
      fmt r.max ++ ", " ++ fmt r.step ++ ")"

/-- The arguments of the parameters from position `i` on. -/
def genArgs (constPrefix constValue : Nat) : Nat → List (ScanParam F) → List String
  | _, [] => []
  | i, p :: ps => genArg fmt constPrefix constValue i p :: genArgs constPrefix constValue (i + 1) ps

def genSource (name : String) (params : List (ScanParam F)) (constPrefix constValue : Nat) :
    String :=
  let args := genArgs fmt constPrefix constValue 0 params
  let call := if args.isEmpty then name else name ++ "(" ++ ",".intercalate args ++ ")"
  "import(\"stdfaust.lib\");\nprocess = " ++ call ++ ";\n"

end Source

/-- The loop of the correction: of the parameters that are sliders, the first `constPrefix`
become compile-time; `k` of them already have. -/
def markConst (constPrefix : Nat) : Nat → List (ScanParam F) → List (ScanParam F)
  | _, [] => []
  | k, p :: ps =>
    match p.kind with
    | .const => p :: markConst constPrefix k ps
    | .slider _ =>
      if k < constPrefix then { p with kind := .const } :: markConst constPrefix (k + 1) ps
      else p :: markConst constPrefix k ps

/-- What is recorded when the attempt with `constPrefix` compiled. -/
def FunctionMeta.accept (md : FunctionMeta F) (constPrefix : Nat) : FunctionMeta F :=
  { md with
    params := if constPrefix = 0 then md.params else markConst constPrefix 0 md.params
    verified := true }

section Verify

variable (fmt : F → String)

/-- The attempts from `constPrefix` on, with `left` more after it; `faust` answers the attempt
and its text with `(compiled, first line of the errors)`. -/
def tryPrefixes (faust : Nat → String → Bool × String) (name : String) (md : FunctionMeta F) :
    (left constPrefix : Nat) → Except String (FunctionMeta F)
  | left, constPrefix =>
    match faust constPrefix (genSource fmt name md.params constPrefix 3) with
    | (true, _) => .ok (md.accept constPrefix)
    | (false, err) =>
      match left with
      | 0 => .error err
      | left' + 1 => tryPrefixes faust name md left' (constPrefix + 1)

/-- `one`. -/
def verifyOne (faust : Nat → String → Bool × String) (name : String) (md : FunctionMeta F) :
    Except String (FunctionMeta F) :=
  tryPrefixes fmt faust name md (sliderCount md.params) 0

/-- `verify`: the functions that build and those that do not, each with its error. -/
def verify (faust : String → Nat → String → Bool × String)
    (index : List (String × FunctionMeta F)) :
    List (String × FunctionMeta F) × List (String × String) :=
  let items := index.mergeSort fun a b => decide (a.1 ≤ b.1)
  (items.filterMap fun item =>
    match verifyOne fmt (faust item.1) item.1 item.2 with
    | .ok md => some (item.1, md)
    | .error _ => none,
   items.filterMap fun item =>
    match verifyOne fmt (faust item.1) item.1 item.2 with
    | .ok _ => none
    | .error err => some (item.1, err))

/-- The try with `const_prefix = p` is the one after which the function was accepted. -/
structure AcceptedAt (faust : Nat → String → Bool × String) (name : String)
    (params : List (ScanParam F)) (p : Nat) : Prop where
  within : p ≤ sliderCount params
  compiles : (faust p (genSource fmt name params p 3)).1 = true
  first : ∀ q < p, (faust q (genSource fmt name params q 3)).1 = false

/-! ### What the retries accept -/

theorem tryPrefixes_ok {faust : Nat → String → Bool × String} {name : String}
    {md md' : FunctionMeta F} (left constPrefix : Nat)
    (h : tryPrefixes fmt faust name md left constPrefix = .ok md') :
    ∃ p, constPrefix ≤ p ∧ p ≤ constPrefix + left ∧
      (faust p (genSource fmt name md.params p 3)).1 = true ∧
      (∀ q, constPrefix ≤ q → q < p → (faust q (genSource fmt name md.params q 3)).1 = false) ∧
      md' = md.accept p := by
  induction left generalizing constPrefix with
  | zero =>
    unfold tryPrefixes at h
    cases ha : faust constPrefix (genSource fmt name md.params constPrefix 3) with
    | mk ok err =>
      cases ok with
      | false => simp [ha] at h
      | true =>
        simp only [ha, Except.ok.injEq] at h
        exact ⟨constPrefix, le_refl _, by omega, by rw [ha], fun q h₁ h₂ => by omega, h.symm⟩
  | succ left ih =>
    unfold tryPrefixes at h
    cases ha : faust constPrefix (genSource fmt name md.params constPrefix 3) with
    | mk ok err =>
      cases ok with
      | true =>
        simp only [ha, Except.ok.injEq] at h
        exact ⟨constPrefix, le_refl _, by omega, by rw [ha], fun q h₁ h₂ => by omega, h.symm⟩
      | false =>
        simp only [ha] at h
        obtain ⟨p, hlo, hhi, hok, hfirst, rfl⟩ := ih (constPrefix + 1) h
        refine ⟨p, by omega, by omega, hok, fun q h₁ h₂ => ?_, rfl⟩
        rcases Nat.eq_or_lt_of_le h₁ with rfl | hlt
        · rw [ha]
        · exact hfirst q hlt h₂

/-- An entry of the verified index is a scanned entry, corrected for the prefix at which it
was accepted. -/
theorem mem_verify {faust : String → Nat → String → Bool × String}
    {index : List (String × FunctionMeta F)} {name : String} {md' : FunctionMeta F}
    (h : (name, md') ∈ (verify fmt faust index).1) :
    ∃ md p, (name, md) ∈ index ∧ AcceptedAt fmt (faust name) name md.params p ∧
      md' = md.accept p := by
  simp only [verify, List.mem_filterMap, List.mem_mergeSort] at h
  obtain ⟨⟨n, md⟩, hmem, heq⟩ := h
  cases hv : verifyOne fmt (faust n) n md with
  | error err => simp [hv] at heq
  | ok md'' =>
    simp only [hv, Option.some.injEq, Prod.mk.injEq] at heq
    obtain ⟨rfl, rfl⟩ := heq
    obtain ⟨p, -, hle, hok, hfirst, rfl⟩ := tryPrefixes_ok fmt _ _ hv
    exact ⟨md, p, hmem, ⟨by omega, hok, fun q hq => hfirst q (Nat.zero_le _) hq⟩, rfl⟩

end Verify

/-! ### The two texts -/

section Texts

variable (fmt : F → String)

/-- The characters of the arguments, separators apart. -/
def argChars (args : List String) : Nat :=
  (args.map String.length).sum

@[simp] theorem genArgs_length (constPrefix constValue i : Nat) (ps : List (ScanParam F)) :
    (genArgs fmt constPrefix constValue i ps).length = ps.length := by
  induction ps generalizing i with
  | nil => rfl
  | cons p ps ih => simp [genArgs, ih]

@[simp] theorem markConst_length (constPrefix k : Nat) (ps : List (ScanParam F)) :
    (markConst constPrefix k ps).length = ps.length := by
  induction ps generalizing k with
  | nil => rfl
  | cons p ps ih =>
    unfold markConst
    split
    · simp [ih]
    · split <;> simp [ih]

theorem intercalate_length (args : List String) :
    (",".intercalate args).length = argChars args + (args.length - 1) := by
  induction args with
  | nil => simp [argChars]
  | cons a rest ih =>
    cases rest with
    | nil => simp [argChars]
    | cons b rest =>
      rw [String.intercalate_cons_cons, String.length_append, String.length_append, ih]
      simp only [argChars, List.map_cons, List.sum_cons, List.length_cons]
      have : ",".length = 1 := rfl
      omega

/-- A slider's text is longer than a compile-time value's. -/
theorem const_shorter (constPrefix i : Nat) {p : ScanParam F} {r : SliderRange F}
    (hp : p.kind = .slider r) (hi : ¬ i < constPrefix) :
    (toString 3).length < (genArg fmt constPrefix 3 i p).length := by
  have hone : (toString 3).length = 1 := rfl
  have hnine : "hslider(\"".length = 9 := rfl
  simp only [genArg, hp, if_neg hi, String.length_append]
  omega

/-- What is recorded is no longer than what was compiled, where no more sliders have been marked
than positions forced. -/
theorem recorded_le (p : Nat) (ps : List (ScanParam F)) (k i : Nat) (hki : k ≤ i) :
    argChars (genArgs fmt 0 3 i (markConst p k ps)) ≤ argChars (genArgs fmt p 3 i ps) := by
  induction ps generalizing k i with
  | nil => exact le_refl _
  | cons x ps ih =>
    cases hx : x.kind with
    | const =>
      have hrest := ih k (i + 1) (by omega)
      simp only [argChars, markConst, genArgs, genArg, hx, List.map_cons, List.sum_cons] at hrest ⊢
      omega
    | slider r =>
      by_cases hk : k < p
      · have hrest := ih (k + 1) (i + 1) (by omega)
        have hle : (toString 3).length ≤ (genArg fmt p 3 i x).length := by
          by_cases hi : i < p
          · simp [genArg, hx, hi]
          · exact (const_shorter fmt p i hx hi).le
        simp only [argChars, markConst, hx, hk, if_true, genArgs, List.map_cons,
          List.sum_cons] at hrest ⊢
        simp only [genArg] at hrest hle ⊢
        omega
      · have hi : ¬ i < p := by omega
        have hrest := ih k (i + 1) (by omega)
        simp only [argChars, markConst, hx, hk, if_false, genArgs, List.map_cons,
          List.sum_cons] at hrest ⊢
        simp only [genArg, hx, hi, if_false, Nat.not_lt_zero] at hrest ⊢
        omega

/-- Once fewer sliders have been marked than positions forced, a slider is left that is
recorded as compile-time and was compiled as a slider. -/
theorem recorded_lt (p : Nat) (ps : List (ScanParam F)) (k i : Nat) (hki : k < i) (hkp : k < p)
    (left : p ≤ k + sliderCount ps) :
    argChars (genArgs fmt 0 3 i (markConst p k ps)) < argChars (genArgs fmt p 3 i ps) := by
  induction ps generalizing k i with
  | nil =>
    simp only [sliderCount, List.countP_nil] at left
    omega
  | cons x ps ih =>
    cases hx : x.kind with
    | const =>
      have hc : sliderCount (x :: ps) = sliderCount ps := by
        simp [sliderCount, ScanParam.isConst, hx]
      have hrest := ih k (i + 1) (by omega) hkp (by omega)
      simp only [argChars, markConst, genArgs, genArg, hx, List.map_cons, List.sum_cons] at hrest ⊢
      omega
    | slider r =>
      have hc : sliderCount (x :: ps) = sliderCount ps + 1 := by
        simp [sliderCount, ScanParam.isConst, hx]
      have hhead : (genArgs fmt 0 3 i (markConst p k (x :: ps))) =
          toString 3 :: genArgs fmt 0 3 (i + 1) (markConst p (k + 1) ps) := by
        simp [markConst, hx, hkp, genArgs, genArg]
      rw [hhead]
      by_cases hi : i < p
      · -- both texts force this position
        have hrest := ih (k + 1) (i + 1) (by omega) (by omega) (by omega)
        simp only [argChars, genArgs, genArg, hx, hi, if_true, List.map_cons,
          List.sum_cons] at hrest ⊢
        omega
      · have hrest := recorded_le fmt p ps (k + 1) (i + 1) (by omega)
        have hlt := const_shorter fmt p i hx hi
        simp only [argChars, genArgs, List.map_cons, List.sum_cons] at hrest ⊢
        omega

/-- Behind the forced positions nothing is forced or marked. -/
theorem recorded_settled (p : Nat) (ps : List (ScanParam F)) (k i : Nat) (hk : p ≤ k)
    (hi : p ≤ i) : genArgs fmt 0 3 i (markConst p k ps) = genArgs fmt p 3 i ps := by
  induction ps generalizing i with
  | nil => rfl
  | cons x ps ih =>
    have hrest := ih (i + 1) (by omega)
    cases hx : x.kind with
    | const => simp [markConst, genArgs, genArg, hx, hrest]
    | slider r =>
      simp [markConst, genArgs, genArg, hx, hrest, Nat.not_lt.mpr hk, Nat.not_lt.mpr hi]

/-- Where only sliders stand in the forced positions, the marks fall on these positions. -/
theorem recorded_eq (p : Nat) (ps : List (ScanParam F)) (i : Nat)
    (hall : ∀ j x, i + j < p → ps[j]? = some x → x.isConst = false) :
    genArgs fmt 0 3 i (markConst p i ps) = genArgs fmt p 3 i ps := by
  induction ps generalizing i with
  | nil => rfl
  | cons x ps ih =>
    by_cases hi : i < p
    · have hrest := ih (i + 1) fun j y hj hy => hall (j + 1) y (by omega) hy
      have hslider := hall 0 x (by omega) rfl
      cases hx : x.kind with
      | const => simp [ScanParam.isConst, hx] at hslider
      | slider r => simp [markConst, genArgs, genArg, hx, hi, hrest]
    · exact recorded_settled fmt p (x :: ps) i i (by omega) (by omega)

/-- A compile-time argument in a forced position leaves its mark to a slider further on. -/
theorem recorded_short (p : Nat) (ps : List (ScanParam F)) (i j : Nat) (x : ScanParam F)
    (hj : i + j < p) (hx : ps[j]? = some x) (hconst : x.isConst = true)
    (left : p ≤ i + sliderCount ps) :
    argChars (genArgs fmt 0 3 i (markConst p i ps)) < argChars (genArgs fmt p 3 i ps) := by
  induction ps generalizing i j with
  | nil => simp at hx
  | cons y ps ih =>
    have hi : i < p := by omega
    cases hy : y.kind with
    | const =>
      have hc : sliderCount (y :: ps) = sliderCount ps := by
        simp [sliderCount, ScanParam.isConst, hy]
      have hrest := recorded_lt fmt p ps i (i + 1) (by omega) hi (by omega)
      simp only [argChars, markConst, genArgs, genArg, hy, List.map_cons, List.sum_cons] at hrest ⊢
      omega
    | slider r =>
      have hc : sliderCount (y :: ps) = sliderCount ps + 1 := by
        simp [sliderCount, ScanParam.isConst, hy]
      cases j with
      | zero =>
        simp only [List.getElem?_cons_zero, Option.some.injEq] at hx
        subst hx
        simp [ScanParam.isConst, hy] at hconst
      | succ j =>
        have hrest := ih (i + 1) j (by omega) (by simpa using hx) (by omega)
        simp only [argChars, markConst, genArgs, genArg, hy, hi, if_true, List.map_cons,
          List.sum_cons] at hrest ⊢
        omega

/-- One text around two argument lists of one length: as many characters in both. -/
theorem argChars_of_wrapped {before name left right after : String} {l m : List String}
    (hlen : l.length = m.length)
    (heq : before ++ (name ++ left ++ ",".intercalate l ++ right) ++ after =
      before ++ (name ++ left ++ ",".intercalate m ++ right) ++ after) :
    argChars l = argChars m := by
  have hchars := congrArg String.length heq
  simp only [String.length_append, intercalate_length, hlen] at hchars
  omega

/-- A shorter argument list is a different text. -/
theorem genSource_ne {name : String} {ps qs : List (ScanParam F)} {p q : Nat}
    (hlen : ps.length = qs.length)
    (h : argChars (genArgs fmt p 3 0 ps) < argChars (genArgs fmt q 3 0 qs)) :
    genSource fmt name ps p 3 ≠ genSource fmt name qs q 3 := by
  intro heq
  cases ps with
  | nil =>
    obtain rfl := List.eq_nil_of_length_eq_zero hlen.symm
    exact absurd h (lt_irrefl _)
  | cons x ps =>
    cases qs with
    | nil => exact absurd hlen (Nat.succ_ne_zero _)
    | cons y qs =>
      have hl : (genArgs fmt p 3 0 (x :: ps)).length = (genArgs fmt q 3 0 (y :: qs)).length := by
        rw [genArgs_length, genArgs_length, hlen]
      have hp : (genArgs fmt p 3 0 (x :: ps)).isEmpty = false := rfl
      have hq : (genArgs fmt q 3 0 (y :: qs)).isEmpty = false := rfl
      unfold genSource at heq
      dsimp only at heq
      rw [hp, hq] at heq
      exact absurd (argChars_of_wrapped hl heq) h.ne

/-- The corrected entry and the text of the attempt. -/
theorem accept_source_iff {faust : Nat → String → Bool × String} {name : String}
    {md : FunctionMeta F} {p : Nat} (acc : AcceptedAt fmt faust name md.params p) :
    genSource fmt name (md.accept p).params 0 3 = genSource fmt name md.params p 3 ↔
      ∀ i x, i < p → md.params[i]? = some x → x.isConst = false := by
  have hwithin := acc.within
  by_cases hp : p = 0
  · subst hp
    simp [FunctionMeta.accept]
  · simp only [FunctionMeta.accept, hp, if_false]
    constructor
    · intro heq i x hi hx
      by_contra hconst
      refine genSource_ne fmt (markConst_length p 0 md.params)
        (recorded_short fmt p md.params 0 i x (by omega) hx ?_ (by omega)) heq
      simpa using hconst
    · intro hall
      have hargs := recorded_eq fmt p md.params 0 fun j x hj hx => hall j x (by omega) hx
      unfold genSource
      rw [hargs]

end Texts

/-- Every entry of the verified index was accepted after some try `p`; the entry as recorded is
the text that compiled exactly when the `p` forced arguments were all sliders. -/
theorem verified_source_iff (fmt : F → String) (faust : String → Nat → String → Bool × String)
    (index : List (String × FunctionMeta F)) (name : String) (md' : FunctionMeta F)
    (h : (name, md') ∈ (verify fmt faust index).1) :
    ∃ md p, (name, md) ∈ index ∧ AcceptedAt fmt (faust name) name md.params p ∧
      (genSource fmt name md'.params 0 3 = genSource fmt name md.params p 3 ↔
        ∀ i x, i < p → md.params[i]? = some x → x.isConst = false) := by
  obtain ⟨md, p, hmem, acc, rfl⟩ := mem_verify fmt h
  exact ⟨md, p, hmem, acc, accept_source_iff fmt acc⟩

/-- One documented compile-time argument, one the documentation does not give away and one
that really is a slider. -/
def lowpassMeta : FunctionMeta Nat :=
  { params := [⟨"N", some "order (constant numerical expression)", .const⟩,
      ⟨"M", none, .slider ⟨0, 0, 1000000, 1, false⟩⟩,
      ⟨"fc", none, .slider ⟨0, 0, 1000000, 1, false⟩⟩]
    lib := "filters.lib"
    verified := false }

/-- A compiler that takes the text only once `M` is a constant too. -/
def lowpassFaust (_name : String) (attempt : Nat) (_text : String) : Bool × String :=
  (attempt == 2, "must be an integer constant numerical expression")

theorem lowpass_verified :
    ("fi.lowpassLM", lowpassMeta.accept 2) ∈
      (verify toString lowpassFaust [("fi.lowpassLM", lowpassMeta)]).1 := by
  have hcount : sliderCount lowpassMeta.params = 2 := rfl
  simp [verify, verifyOne, hcount, tryPrefixes, lowpassFaust]

theorem verified_source_iff_lowpass :
    ∃ md p, ("fi.lowpassLM", md) ∈ [("fi.lowpassLM", lowpassMeta)] ∧
      AcceptedAt toString (lowpassFaust "fi.lowpassLM") "fi.lowpassLM" md.params p ∧
      (genSource toString "fi.lowpassLM" (lowpassMeta.accept 2).params 0 3 =
          genSource toString "fi.lowpassLM" md.params p 3 ↔
        ∀ i x, i < p → md.params[i]? = some x → x.isConst = false) :=
  verified_source_iff toString lowpassFaust [("fi.lowpassLM", lowpassMeta)] "fi.lowpassLM"
    (lowpassMeta.accept 2) lowpass_verified

/-- `M` was forced at position 1 of the text that compiled; the record makes `fc`
compile-time too. -/
theorem verified_source_differs :
    ("fi.lowpassLM", lowpassMeta.accept 2) ∈
        (verify toString lowpassFaust [("fi.lowpassLM", lowpassMeta)]).1 ∧
      AcceptedAt toString (lowpassFaust "fi.lowpassLM") "fi.lowpassLM" lowpassMeta.params 2 ∧
      genSource toString "fi.lowpassLM" (lowpassMeta.accept 2).params 0 3 ≠
        genSource toString "fi.lowpassLM" lowpassMeta.params 2 3 := by
  have acc : AcceptedAt toString (lowpassFaust "fi.lowpassLM") "fi.lowpassLM"
      lowpassMeta.params 2 :=
    { within := le_refl 2
      compiles := rfl
      first := fun q hq => by simp [lowpassFaust]; omega }
  refine ⟨lowpass_verified, acc, fun heq => ?_⟩
  have hconst := (accept_source_iff toString acc).mp heq 0 _ (by omega) rfl
  cases hconst

end Xrune.Tools
