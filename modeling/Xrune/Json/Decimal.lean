import Xrune.Json.RoundTrip

/-!
# Json — finite numbers

Values whose numbers are finite are read back as they were written (`finite_round_trip`), as far
as the C library reads back the numbers it prints.  A library that knows the integers only, over
exact arithmetic, prints and reads them in decimal, and reads each of them back
(`readsBack_int`).
-/

namespace Xrune.Json

/-- The digits a text begins with. -/
def digits (text : List Char) : List Char := text.takeWhile Char.isDigit

/-- A library that knows the integers only. -/
noncomputable instance CNumber.integers : CNumber ℝ where
  isFinite x := decide ((⌊x⌋ : ℝ) = x)
  floor x := ⌊x⌋
  printG _ x := printLld ⌊x⌋
  strtod text :=
    match accept '-' text with
    | some r => (-(Nat.ofDigitChars 10 (digits r) 0 : ℝ), (digits r).length + 1)
    | none   => ((Nat.ofDigitChars 10 (digits text) 0 : ℝ), (digits text).length)

theorem digits_toDigits (n : Nat) {rest : List Char} (ends : Ends rest) :
    digits (Nat.toDigits 10 n ++ rest) = Nat.toDigits 10 n := by
  have all : ∀ c ∈ Nat.toDigits 10 n, c.isDigit = true := fun c hc =>
    Nat.isDigit_of_mem_toDigits (by decide) (by decide) hc
  rw [digits, List.takeWhile_append_of_pos all]
  rcases ends with rfl | ⟨c, r, rfl, rfl | rfl | rfl | rfl⟩ <;> simp

theorem strtod_printLld (k : Int) {rest : List Char} (ends : Ends rest) :
    CNumber.strtod (printLld k ++ rest) = ((k : ℝ), (printLld k).length) := by
  have value := Nat.ofDigitChars_ten_toDigits (n := k.natAbs)
  have own := digits_toDigits k.natAbs ends
  rw [printLld]
  split_ifs with hk
  · show (-(Nat.ofDigitChars 10 (digits (Nat.toDigits 10 k.natAbs ++ rest)) 0 : ℝ),
      (digits (Nat.toDigits 10 k.natAbs ++ rest)).length + 1) = _
    rw [own, value, List.length_cons]
    have abs : (k.natAbs : Int) = -k := by omega
    have cast : (k.natAbs : ℝ) = -(k : ℝ) := by
      rw [← Int.cast_natCast, abs, Int.cast_neg]
    rw [cast, neg_neg]
  · have sign : accept '-' (Nat.toDigits 10 k.natAbs ++ rest) = none := by
      cases hd : Nat.toDigits 10 k.natAbs with
      | nil => exact absurd hd Nat.toDigits_ne_nil
      | cons c r =>
          have digit : c.isDigit = true := Nat.isDigit_of_mem_toDigits (by decide) (by decide)
            (hd ▸ List.mem_cons_self : c ∈ Nat.toDigits 10 k.natAbs)
          refine accept_ne ?_ (r ++ rest)
          rintro rfl
          cases digit
    show (match accept '-' (Nat.toDigits 10 k.natAbs ++ rest) with
      | some r => _
      | none => _) = _
    rw [sign]
    dsimp only
    rw [own, value]
    have abs : (k.natAbs : Int) = k := by omega
    have cast : (k.natAbs : ℝ) = (k : ℝ) := by rw [← Int.cast_natCast, abs]
    rw [cast]

theorem llround_int (k : Int) : Sample.llround (k : ℝ) = k := by
  simp only [Sample.llround]
  split_ifs
  · rw [Int.floor_eq_iff]
    constructor <;> linarith
  · rw [Int.ceil_eq_iff]
    constructor <;> linarith

/-- An integer is printed in decimal, below `1e15` by `%lld` and from there on by `%.15g`. -/
theorem numberTo_int (k : Int) : numberTo (k : ℝ) = printLld k := by
  have printed : ∀ prec, CNumber.printG prec (k : ℝ) = printLld k := fun _ =>
    congrArg printLld (Int.floor_intCast k)
  rw [numberTo]
  split_ifs with hsmall
  · have hsmall := of_decide_eq_true (Bool.and_eq_true_iff.mp hsmall).2
    have bound : (-(10 ^ 15) : Int) < k ∧ k < 10 ^ 15 := by
      simp only [Sample.fabs, Sample.lt, Sample.cast, Nat.cast_pow, Nat.cast_ofNat] at hsmall
      split_ifs at hsmall with hneg
      · have hlt : -k < 10 ^ 15 := by exact_mod_cast hsmall
        have hneg : k < 0 := by exact_mod_cast of_decide_eq_true hneg
        omega
      · have hlt : k < 10 ^ 15 := by exact_mod_cast hsmall
        have hneg : ¬k < 0 := by exact_mod_cast of_decide_eq_false (Bool.eq_false_iff.mpr hneg)
        omega
    rw [Value.toLong, llround_int, Int.bmod_eq_of_le (by omega) (by omega)]
  · dsimp only
    split_ifs
    · exact printed 15
    · exact printed 16
    · exact printed 17

theorem readsBack_int (k : Int) : ReadsBack (k : ℝ) where
  starts := by
    rw [numberTo_int, printLld]
    split_ifs
    · exact ⟨'-', _, rfl, rfl⟩
    · cases hd : Nat.toDigits 10 k.natAbs with
      | nil => exact absurd hd Nat.toDigits_ne_nil
      | cons c r =>
          have digit : c.isDigit = true := Nat.isDigit_of_mem_toDigits (by decide) (by decide)
            (hd ▸ List.mem_cons_self : c ∈ Nat.toDigits 10 k.natAbs)
          have range : 48 ≤ c.val ∧ c.val ≤ 57 := by simpa [Char.isDigit] using digit
          exact ⟨c, r, rfl, by simp [startsNumber, Char.le_def, range]⟩
  reads rest ends := by
    rw [numberTo_int]
    exact strtod_printLld k ends

theorem readsBack_finite {n : ℝ} (h : CNumber.isFinite n = true) : ReadsBack n :=
  of_decide_eq_true h ▸ readsBack_int ⌊n⌋

/-! ### Round trips -/

/-- **A value whose numbers are finite is read back**, where `strtod` reads back the text of a
finite number. -/
theorem finite_round_trip {α : Type} [Sample α] [CNumber α]
    (assume : ∀ n : α, CNumber.isFinite n = true → ReadsBack n)
    {v : Value α} (finite : v.All fun n => CNumber.isFinite n = true) (indent : Int) :
    parse (dump v indent) = .ok v :=
  parse_dump (finite.mono assume) indent

/-- Nested and empty containers, a key given twice, a string with a quote and a line break. -/
def nested : Value ℝ :=
  .object [("a", .array [.number 1, .number ((-2 : Int) : ℝ), .object []]), ("a", .string "x\"\n"), ("", .null)]

theorem nested_round_trip : parse (dump nested 2) = .ok nested := by
  have one : CNumber.isFinite (1 : ℝ) = true := decide_eq_true (by norm_num)
  have two : CNumber.isFinite ((-2 : Int) : ℝ) = true := decide_eq_true (by norm_num)
  refine finite_round_trip (fun _ => readsBack_finite) (.object fun kv hkv => ?_) 2
  simp only [List.mem_cons, List.not_mem_nil, or_false] at hkv
  rcases hkv with rfl | rfl | rfl
  · refine .array fun v hv => ?_
    simp only [List.mem_cons, List.not_mem_nil, or_false] at hv
    rcases hv with rfl | rfl | rfl
    · exact .number one
    · exact .number two
    · exact .object (fun _ h => nomatch h)
  · exact .string _
  · exact .null

end Xrune.Json
