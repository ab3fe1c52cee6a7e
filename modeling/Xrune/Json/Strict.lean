import Xrune.Json.Decimal
import Xrune.Json.Grammar

/-!
# Json — what the parser accepts

The parser accepts the texts of the loose dialect, no more and no fewer (`parse_ok_iff`): each
part of it takes a word of the grammar off the text, and takes every word that what follows it
does not prolong.  So it is strict on the texts that the strict dialect has too
(`parse_strict_iff`).
-/

namespace Xrune.Json

open Dialect

variable {α : Type}

/-! ### Characters -/

/-- What may follow a value: a blank, a comma or a closing bracket. -/
def stops (c : Char) : Bool := isBlank c || c == ',' || c == ']' || c == '\x7d'

theorem mem_of_stops {c : Char} (h : stops c = true) :
    c ∈ [' ', '\t', '\n', '\r', ',', ']', '\x7d'] := by
  simp only [stops, isBlank, Bool.or_eq_true, beq_iff_eq] at h
  simp only [List.mem_cons, List.not_mem_nil, or_false]
  tauto

/-- A property of characters that no character a value stops at has. -/
theorem not_stops {p : Char → Bool}
    (none : ∀ c ∈ [' ', '\t', '\n', '\r', ',', ']', '\x7d'], p c = false) {c : Char}
    (h : p c = true) : stops c = false := by
  by_contra yes
  have no := none c (mem_of_stops (Bool.of_not_eq_false yes))
  exact absurd (no.symm.trans h) (by decide)

theorem digit_not_stops {c : Char} (h : c.isDigit = true) : stops c = false :=
  not_stops (by simp) h

theorem hex_not_stops {c : Char} (h : (hexValue c).isSome = true) : stops c = false :=
  not_stops (p := fun c => (hexValue c).isSome) (by simp [hexValue]) h

theorem alphanum_not_stops {c : Char} (h : c.isAlphanum = true) : stops c = false :=
  not_stops (by simp) h

/-! ### Numbers -/

theorem sign_not_stops {s : List Char} (h : s ∈ [[], ['+'], ['-']]) :
    ∀ c ∈ s, stops c = false := by
  simp only [List.mem_cons, List.not_mem_nil, or_false] at h
  rcases h with rfl | rfl | rfl <;> simp [stops, isBlank]

theorem mantissa_not_stops {digit : Char → Bool}
    (own : ∀ c, digit c = true → stops c = false) {m : List Char} (h : Mantissa digit m) :
    ∀ c ∈ m, stops c = false := by
  rcases h with ⟨-, all⟩ | ⟨a, b, ⟨-, all⟩, rfl⟩
  · exact fun c hc => own c (all c hc)
  · intro c hc
    rcases List.mem_append.mp hc with hc | hc
    · exact own c (all c (List.mem_append_left b hc))
    · rcases List.mem_cons.mp hc with rfl | hc
      · rfl
      · exact own c (all c (List.mem_append_right a hc))

theorem exponent_not_stops {markers x : List Char} (own : ∀ e ∈ markers, stops e = false)
    (h : Exponent markers x) : ∀ c ∈ x, stops c = false := by
  rcases h with rfl | ⟨e, s, ds, marker, sign, ⟨-, all⟩, rfl⟩
  · exact fun c hc => absurd hc List.not_mem_nil
  · intro c hc
    rcases List.mem_cons.mp hc with rfl | hc
    · exact own _ marker
    · rcases List.mem_append.mp hc with hc | hc
      · exact sign_not_stops (by
          simp only [List.mem_cons, List.not_mem_nil, or_false] at sign ⊢
          exact sign) c hc
      · exact digit_not_stops (all c hc)

theorem anyCase_not_stops {word : String} {w : List Char}
    (own : ∀ l ∈ word.toList, stops l = false ∧ stops l.toUpper = false) (h : AnyCase word w) :
    ∀ c ∈ w, stops c = false := by
  intro c hc
  obtain ⟨i, hi, rfl⟩ := List.mem_iff_getElem.mp hc
  have hi' := h.length_eq ▸ hi
  have letter := own _ (List.getElem_mem hi')
  rcases h.get hi hi' with e | e
  · exact (congrArg stops e).trans letter.1
  · exact (congrArg stops e).trans letter.2

/-- A number goes on over no character a value stops at. -/
theorem CNum.not_stops {w : List Char} (h : CNum w) : ∀ c ∈ w, stops c = false := by
  intro c hc
  cases h with
  | decimal sign mantissa exponent =>
      rcases List.mem_append.mp hc with hc | hc
      · exact sign_not_stops sign c hc
      · rcases List.mem_append.mp hc with hc | hc
        · exact mantissa_not_stops (fun _ => digit_not_stops) mantissa c hc
        · exact exponent_not_stops (by simp [stops, isBlank]) exponent c hc
  | hex sign marked mantissa exponent =>
      rcases List.mem_append.mp hc with hc | hc
      · exact sign_not_stops sign c hc
      · rcases List.mem_cons.mp hc with rfl | hc
        · rfl
        · rcases List.mem_cons.mp hc with rfl | hc
          · simp only [List.mem_cons, List.not_mem_nil, or_false] at marked
            rcases marked with rfl | rfl <;> rfl
          · rcases List.mem_append.mp hc with hc | hc
            · exact mantissa_not_stops (fun _ => hex_not_stops) mantissa c hc
            · exact exponent_not_stops (by simp [stops, isBlank]) exponent c hc
  | infinity sign word =>
      rcases List.mem_append.mp hc with hc | hc
      · exact sign_not_stops sign c hc
      · rcases word with word | word
        · exact anyCase_not_stops (by simp [stops, isBlank]) word c hc
        · exact anyCase_not_stops (by simp [stops, isBlank]) word c hc
  | nan sign word =>
      rcases List.mem_append.mp hc with hc | hc
      · exact sign_not_stops sign c hc
      · exact anyCase_not_stops (by simp [stops, isBlank]) word c hc
  | nanSeq sign word chars =>
      rcases List.mem_append.mp hc with hc | hc
      · exact sign_not_stops sign c hc
      · rcases List.mem_append.mp hc with hc | hc
        · exact anyCase_not_stops (by simp [stops, isBlank]) word c hc
        · rcases List.mem_cons.mp hc with rfl | hc
          · rfl
          · rcases List.mem_append.mp hc with hc | hc
            · rcases chars c hc with h | rfl
              · exact alphanum_not_stops h
              · rfl
            · obtain rfl := List.mem_singleton.mp hc
              rfl

/-- A number of RFC 8259 is one of C, and begins with a minus sign or a digit. -/
theorem StrictNum.cnum {w : List Char} (h : StrictNum w) :
    CNum w ∧ w.head?.any startsNumber = true := by
  obtain ⟨s, i, f, x, sign, int, frac, exponent, rfl⟩ := h
  have digits : Digits Char.isDigit i := by
    rcases int with rfl | ⟨c, ds, digit, -, all, rfl⟩
    · exact ⟨List.cons_ne_nil _ _, by simp⟩
    · exact ⟨List.cons_ne_nil _ _, List.forall_mem_cons.mpr ⟨digit, all⟩⟩
  have mantissa : Mantissa Char.isDigit (i ++ f) := by
    rcases frac with rfl | ⟨ds, own, rfl⟩
    · exact .inl (by rwa [List.append_nil])
    · refine .inr ⟨i, ds, ⟨List.append_ne_nil_of_left_ne_nil digits.1 _, fun c hc => ?_⟩, rfl⟩
      exact (List.mem_append.mp hc).elim (digits.2 c) (own.2 c)
  have either : s ∈ [[], ['+'], ['-']] := by
    simp only [List.mem_cons, List.not_mem_nil, or_false] at sign ⊢
    tauto
  refine ⟨List.append_assoc i f x ▸ .decimal either mantissa exponent, ?_⟩
  obtain ⟨c, r, rfl⟩ := List.exists_cons_of_ne_nil digits.1
  have digit := digits.2 c List.mem_cons_self
  simp only [List.mem_cons, List.not_mem_nil, or_false] at sign
  rcases sign with rfl | rfl
  · have range : 48 ≤ c.val ∧ c.val ≤ 57 := by simpa [Char.isDigit] using digit
    simp [startsNumber, Char.le_def, range]
  · rfl

theorem strict_below_loose : Below strict loose where
  plain _ _ := trivial
  code _ h := h.1
  number _ h := h.cnum

/-- `strtod` as the C standard has it, on a text that begins with a minus sign or a digit: it
takes the longest number the text begins with. -/
structure StandardNumber (α : Type) [CNumber α] : Prop where
  within : ∀ text : List Char, text.head?.any startsNumber = true →
    (CNumber.strtod (α := α) text).2 ≤ text.length
  subject : ∀ text : List Char, text.head?.any startsNumber = true →
    0 < (CNumber.strtod (α := α) text).2 → CNum (text.take (CNumber.strtod (α := α) text).2)
  longest : ∀ text w : List Char, text.head?.any startsNumber = true → w <+: text → CNum w →
    w.length ≤ (CNumber.strtod (α := α) text).2

/-! ### What is taken is a word -/

theorem mem_of_unescape {e x : Char} (h : unescape e = some x) : e ∈ "\"\\/bfnrt".toList := by
  unfold unescape at h
  split_ifs at h <;> subst_vars <;> simp

theorem parseChars_sound {text : List Char} : ∀ {cs rest : List Char},
    parseChars text = .ok (cs, rest) → ∃ w, loose.Chars w ∧ text = w ++ '"' :: rest := by
  fun_induction parseChars text <;> intro cs rest h
  case case1 | case4 | case6 | case8 => cases h
  case case2 r =>
    cases h
    exact ⟨[], .nil, rfl⟩
  case case3 c r quote escape ih =>
    obtain ⟨⟨cs', rest'⟩, hr, h⟩ := except_bind_ok h
    cases h
    obtain ⟨w, chars, rfl⟩ := ih hr
    exact ⟨c :: w, .plain trivial quote escape chars, rfl⟩
  case case5 a b x y r ih =>
    obtain ⟨⟨cs', rest'⟩, hr, h⟩ := except_bind_ok h
    cases h
    obtain ⟨w, chars, rfl⟩ := ih hr
    obtain rfl := not_not.mp ‹¬_ ≠ '\\'›
    exact ⟨_, .code rfl chars, rfl⟩
  case case7 r _ _ _ ih =>
    obtain ⟨⟨cs', rest'⟩, hr, h⟩ := except_bind_ok h
    cases h
    obtain ⟨w, chars, rfl⟩ := ih hr
    obtain rfl := not_not.mp ‹¬_ ≠ '\\'›
    exact ⟨_, .escaped (mem_of_unescape ‹_›) chars, rfl⟩

theorem accept_eq_some {c : Char} {text rest : List Char} :
    accept c text = some rest ↔ text = c :: rest := by
  cases text with
  | nil =>
      constructor
      · intro e
        cases e
      · intro e
        cases e
  | cons x r =>
      rw [accept]
      split_ifs with same
      · rw [same, List.cons.injEq, Option.some.injEq]
        exact ⟨fun e => ⟨rfl, e⟩, fun e => e.2⟩
      · constructor
        · intro e
          cases e
        · intro e
          exact absurd (List.cons.inj e).1 same

theorem parseString_sound {text rest : List Char} {s : String}
    (h : parseString text = .ok (s, rest)) : ∃ w, loose.Quoted w ∧ text = w ++ rest := by
  rw [parseString] at h
  cases hq : accept '"' text with
  | none =>
      rw [hq] at h
      cases h
  | some r =>
      rw [hq] at h
      obtain ⟨⟨cs, rest'⟩, hr, h⟩ := except_bind_ok h
      cases h
      obtain ⟨w, chars, rfl⟩ := parseChars_sound hr
      refine ⟨'"' :: w ++ ['"'], ⟨w, chars, rfl⟩, ?_⟩
      rw [accept_eq_some.mp hq, List.append_assoc]
      rfl

theorem literal_sound {lit : String} {text rest : List Char} (h : literal lit text = .ok rest) :
    text = lit.toList ++ rest := by
  rw [literal] at h
  split_ifs at h with taken
  cases h
  obtain ⟨r, rfl⟩ := List.isPrefixOf_iff_prefix.mp taken
  rw [List.drop_left]

theorem skipWs_eq (text : List Char) : ∃ ws, Blank ws ∧ text = ws ++ skipWs text :=
  ⟨text.takeWhile isBlank, fun _ hc => List.mem_takeWhile_imp hc,
    (List.takeWhile_append_dropWhile).symm⟩

theorem Blank.append {ws ws' : List Char} (h : Blank ws) (h' : Blank ws') : Blank (ws ++ ws') :=
  fun c hc => (List.mem_append.mp hc).elim (h c) (h' c)

/-- Blanks before the entries are part of them. -/
theorem elements_blank {D : Dialect} {ws w : List Char} (h : Blank ws)
    (elements : D.Derives .elements w) : D.Derives .elements (ws ++ w) := by
  cases elements with
  | element g value g' =>
      rw [← List.append_assoc, ← List.append_assoc]
      exact .element (h.append g) value g'
  | elements g value g' more =>
      rw [← List.append_assoc, ← List.append_assoc, ← List.append_assoc]
      exact .elements (h.append g) value g' more

theorem members_blank {D : Dialect} {ws w : List Char} (h : Blank ws)
    (members : D.Derives .members w) : D.Derives .members (ws ++ w) := by
  cases members with
  | member g quoted g' f value f' =>
      rw [← List.append_assoc, ← List.append_assoc, ← List.append_assoc]
      exact .member (h.append g) quoted g' f value f'
  | members g quoted g' f value f' more =>
      rw [← List.append_assoc, ← List.append_assoc, ← List.append_assoc]
      exact .members (h.append g) quoted g' f value f' more

theorem bracketed_sound {β : Type} {close : Char}
    {entries : List Char → Except ParseError (List β × List Char)} {text rest : List Char}
    {l : List β} (h : bracketed close entries text = .ok (l, rest)) :
    (∃ ws, Blank ws ∧ text = ws ++ close :: rest) ∨
      ∃ ws t, Blank ws ∧ text = ws ++ t ∧ entries t = .ok (l, rest) := by
  obtain ⟨ws, blank, split⟩ := skipWs_eq text
  rw [bracketed] at h
  cases ha : accept close (skipWs text) with
  | some rest' =>
      rw [ha] at h
      cases h
      exact .inl ⟨ws, blank, accept_eq_some.mp ha ▸ split⟩
  | none =>
      rw [ha] at h
      exact .inr ⟨ws, _, blank, split, h⟩

theorem continued_sound {β : Type} {close : Char}
    {entries : List Char → Except ParseError (List β × List Char)} {entry : β}
    {text rest : List Char} {l : List β}
    (h : continued close entries entry text = .ok (l, rest)) :
    ∃ ws, Blank ws ∧ (text = ws ++ close :: rest ∨
      ∃ t l', text = ws ++ ',' :: t ∧ entries t = .ok (l', rest)) := by
  obtain ⟨ws, blank, split⟩ := skipWs_eq text
  refine ⟨ws, blank, ?_⟩
  rw [continued] at h
  cases hc : accept ',' (skipWs text) with
  | some r =>
      rw [hc] at h
      obtain ⟨⟨l', rest'⟩, hl, h⟩ := except_bind_ok h
      cases h
      exact .inr ⟨r, l', accept_eq_some.mp hc ▸ split, hl⟩
  | none =>
      rw [hc] at h
      cases ha : accept close (skipWs text) with
      | none =>
          rw [ha] at h
          cases h
      | some rest' =>
          rw [ha] at h
          cases h
          exact .inl (accept_eq_some.mp ha ▸ split)

section Parsers

variable [CNumber α] (S : StandardNumber α)

include S

theorem parseScalar_sound {text rest : List Char} {v : Value α}
    (h : parseScalar text = .ok (v, rest)) :
    ∃ w, loose.Derives .value w ∧ text = w ++ rest := by
  rw [parseScalar] at h
  split_ifs at h with hs ht hf hn hd
  · obtain ⟨⟨s, rest'⟩, hr, h⟩ := except_bind_ok h
    cases h
    obtain ⟨w, quoted, rfl⟩ := parseString_sound hr
    exact ⟨w, .string quoted, rfl⟩
  · obtain ⟨rest', hr, h⟩ := except_bind_ok h
    cases h
    exact ⟨_, .literal (by simp), literal_sound hr⟩
  · obtain ⟨rest', hr, h⟩ := except_bind_ok h
    cases h
    exact ⟨_, .literal (by simp), literal_sound hr⟩
  · obtain ⟨rest', hr, h⟩ := except_bind_ok h
    cases h
    exact ⟨_, .literal (by simp), literal_sound hr⟩
  · obtain ⟨⟨d, rest'⟩, hr, h⟩ := except_bind_ok h
    cases h
    rw [parseNumber] at hr
    dsimp only at hr
    split_ifs at hr with none
    cases hr
    have taken := Nat.pos_of_ne_zero none
    refine ⟨_, .number ⟨S.subject text hd taken, ?_⟩, (List.take_append_drop ..).symm⟩
    rwa [List.head?_take, if_neg none]

/-- What the parsers of a fuel take off a text. -/
structure Takes (α : Type) [CNumber α] (fuel : Nat) : Prop where
  value : ∀ {text rest : List Char} {v : Value α}, parseValue fuel text = .ok (v, rest) →
    ∃ ws w, Blank ws ∧ loose.Derives .value w ∧ text = ws ++ w ++ rest
  members : ∀ {text rest : List Char} {obj : List (String × Value α)},
    parseMembers fuel text = .ok (obj, rest) →
      ∃ w, loose.Derives .members w ∧ text = w ++ '\x7d' :: rest
  elements : ∀ {text rest : List Char} {arr : List (Value α)},
    parseElements fuel text = .ok (arr, rest) →
      ∃ w, loose.Derives .elements w ∧ text = w ++ ']' :: rest

theorem takes (fuel : Nat) : Takes α fuel := by
  induction fuel with
  | zero =>
      refine ⟨fun h => ?_, fun h => ?_, fun h => ?_⟩
      · rw [parseValue] at h; cases h
      · rw [parseMembers] at h; cases h
      · rw [parseElements] at h; cases h
  | succ fuel ih =>
      refine ⟨fun {text rest v} h => ?_, fun {text rest obj} h => ?_, fun {text rest arr} h => ?_⟩
      · obtain ⟨ws, blank, split⟩ := skipWs_eq text
        rw [parseValue] at h
        cases hc : skipWs text with
        | nil =>
            rw [hc] at h
            cases h
        | cons c r =>
            rw [hc] at h split
            dsimp only at h
            split_ifs at h with brace bracket
            · obtain ⟨⟨obj, rest'⟩, hobj, h⟩ := except_bind_ok h
              cases h
              rcases bracketed_sound hobj with ⟨ws', blank', rfl⟩ | ⟨ws', t, blank', rfl, entries⟩
              · refine ⟨ws, _, blank, .emptyObject blank', ?_⟩
                rw [split, brace]
                simp
              · obtain ⟨w, members, rfl⟩ := ih.members entries
                refine ⟨ws, _, blank, .object (members_blank blank' members), ?_⟩
                rw [split, brace]
                simp
            · obtain ⟨⟨arr, rest'⟩, harr, h⟩ := except_bind_ok h
              cases h
              rcases bracketed_sound harr with ⟨ws', blank', rfl⟩ | ⟨ws', t, blank', rfl, entries⟩
              · refine ⟨ws, _, blank, .emptyArray blank', ?_⟩
                rw [split, bracket]
                simp
              · obtain ⟨w, elements, rfl⟩ := ih.elements entries
                refine ⟨ws, _, blank, .array (elements_blank blank' elements), ?_⟩
                rw [split, bracket]
                simp
            · obtain ⟨w, value, hw⟩ := parseScalar_sound S h
              exact ⟨ws, w, blank, value, by rw [split, hw, List.append_assoc]⟩
      · obtain ⟨ws, blank, split⟩ := skipWs_eq text
        rw [parseMembers] at h
        obtain ⟨⟨key, r⟩, hkey, h⟩ := except_bind_ok h
        obtain ⟨kw, quoted, hk⟩ := parseString_sound hkey
        obtain ⟨ws', blank', split'⟩ := skipWs_eq r
        dsimp only at h
        cases hc : accept ':' (skipWs r) with
        | none =>
            rw [hc] at h
            cases h
        | some r₁ =>
            rw [hc] at h
            obtain ⟨⟨v, r₂⟩, hv, h⟩ := except_bind_ok h
            obtain ⟨vs, w, vblank, value, hw⟩ := ih.value hv
            obtain ⟨vs', vblank', tail⟩ := continued_sound h
            have colon := accept_eq_some.mp hc
            rcases tail with (tail : r₂ = _) | ⟨t, l', (tail : r₂ = _), more⟩
            · refine ⟨_, .member blank quoted blank' vblank value vblank', ?_⟩
              rw [split, hk, split', colon, hw, tail]
              simp
            · obtain ⟨w', members, rfl⟩ := ih.members more
              refine ⟨_, .members blank quoted blank' vblank value vblank' members, ?_⟩
              rw [split, hk, split', colon, hw, tail]
              simp
      · rw [parseElements] at h
        obtain ⟨⟨v, r⟩, hv, h⟩ := except_bind_ok h
        obtain ⟨ws, w, blank, value, hw⟩ := ih.value hv
        obtain ⟨ws', blank', tail⟩ := continued_sound h
        rcases tail with (tail : r = _) | ⟨t, l', (tail : r = _), more⟩
        · refine ⟨_, .element blank value blank', ?_⟩
          rw [hw, tail]
          simp
        · obtain ⟨w', elements, rfl⟩ := ih.elements more
          refine ⟨_, .elements blank value blank' elements, ?_⟩
          rw [hw, tail]
          simp

/-- What the parser accepts is a text of the loose dialect. -/
theorem parse_sound {text : List Char} {v : Value α} (h : parse text = .ok v) :
    loose.Text text := by
  rw [parse] at h
  cases hv : (parseValue (2 * text.length + 2) text : Except ParseError (Value α × List Char)) with
  | error e =>
      rw [hv] at h
      cases h
  | ok p =>
      obtain ⟨v', rest⟩ := p
      rw [hv] at h
      dsimp only at h
      split_ifs at h with done
      obtain ⟨ws, w, blank, value, split⟩ := (takes S _).value hv
      obtain ⟨ws', blank', split'⟩ := skipWs_eq rest
      rw [List.isEmpty_iff.mp done, List.append_nil] at split'
      exact ⟨ws, w, ws', blank, value, blank', split' ▸ split⟩

end Parsers

/-! ### Every word is taken -/

/-- What stands after a value: nothing, or a character it stops at. -/
def Follows (rest : List Char) : Prop := ∀ c ∈ rest.head?, stops c = true

theorem unescape_of_mem {e : Char} (h : e ∈ "\"\\/bfnrt".toList) :
    e ≠ 'u' ∧ ∃ x, unescape e = some x := by
  simp at h
  rcases h with rfl | rfl | rfl | rfl | rfl | rfl | rfl | rfl <;> exact ⟨by decide, _, rfl⟩

theorem parseChars_complete {w : List Char} (h : loose.Chars w) (rest : List Char) :
    ∃ cs, parseChars (w ++ '"' :: rest) = .ok (cs, rest) := by
  induction h with
  | nil =>
      refine ⟨[], ?_⟩
      rw [List.nil_append, parseChars.eq_def]
      rfl
  | @plain c cs _ quote escape _ ih =>
      obtain ⟨l, hl⟩ := ih
      exact ⟨_, parseChars_raw quote escape hl⟩
  | escaped h _ ih =>
      obtain ⟨l, hl⟩ := ih
      obtain ⟨other, x, hx⟩ := unescape_of_mem h
      exact ⟨_, parseChars_escaped other hx hl⟩
  | code _ _ ih =>
      obtain ⟨l, hl⟩ := ih
      exact ⟨_, parseChars_code hl⟩

theorem parseString_complete {w : List Char} (h : loose.Quoted w) (rest : List Char) :
    ∃ s, parseString (w ++ rest) = .ok (s, rest) := by
  obtain ⟨cs, chars, rfl⟩ := h
  obtain ⟨l, hl⟩ := parseChars_complete chars rest
  refine ⟨String.ofList l, ?_⟩
  have text : '"' :: cs ++ ['"'] ++ rest = '"' :: (cs ++ '"' :: rest) := by simp
  rw [text, parseString, accept_eq_some.mpr rfl]
  dsimp only
  rw [hl]
  rfl

/-- The character a value begins with. -/
theorem value_head {v : List Char} (h : loose.Derives .value v) :
    ∃ c r, v = c :: r ∧ isBlank c = false ∧ c ≠ ']' ∧ c ≠ '\x7d' := by
  cases h with
  | string h =>
      obtain ⟨cs, -, rfl⟩ := h
      exact ⟨_, _, rfl, rfl, by decide, by decide⟩
  | literal h =>
      simp only [List.mem_cons, List.not_mem_nil, or_false] at h
      rcases h with rfl | rfl | rfl <;> exact ⟨_, _, rfl, rfl, by decide, by decide⟩
  | number h =>
      obtain ⟨-, starts⟩ := h
      cases v with
      | nil => cases starts
      | cons c r =>
          have starts : startsNumber c = true := starts
          refine ⟨c, r, rfl, ?_, ne_of_startsNumber starts rfl, ne_of_startsNumber starts rfl⟩
          have other : stops c = false := not_stops (by simp [startsNumber]) starts
          simp only [stops, Bool.or_eq_false_iff] at other
          exact other.1.1.1
  | emptyArray h => exact ⟨_, _, rfl, rfl, by decide, by decide⟩
  | array h => exact ⟨_, _, rfl, rfl, by decide, by decide⟩
  | emptyObject h => exact ⟨_, _, rfl, rfl, by decide, by decide⟩
  | object h => exact ⟨_, _, rfl, rfl, by decide, by decide⟩

section Parsers

variable [CNumber α] (S : StandardNumber α)

include S

/-- A number is taken whole, and no more than it. -/
theorem strtod_taken {w rest : List Char} (h : CNum w) (starts : w.head?.any startsNumber = true)
    (follows : Follows rest) : (CNumber.strtod (α := α) (w ++ rest)).2 = w.length := by
  have head : (w ++ rest).head?.any startsNumber = true := by
    cases w with
    | nil => cases starts
    | cons c r => exact starts
  have some : 0 < w.length := by
    cases w with
    | nil => cases starts
    | cons c r => exact Nat.succ_pos _
  have least := S.longest _ _ head (List.prefix_append w rest) h
  have most := S.within _ head
  by_contra other
  cases rest with
  | nil =>
      rw [List.length_append, List.length_nil] at most
      omega
  | cons c r =>
      have own := S.subject _ head (some.trans_le least)
      have mem : c ∈ (w ++ c :: r).take (CNumber.strtod (α := α) (w ++ c :: r)).2 := by
        refine List.mem_take_iff_getElem.mpr ⟨w.length, ?_, ?_⟩
        · rw [List.length_append, List.length_cons]
          omega
        · rw [List.getElem_append_right le_rfl]
          simp
      exact absurd ((own.not_stops c mem).symm.trans (follows c rfl)) (by decide)

theorem parseScalar_number {w rest : List Char} (h : CNum w)
    (starts : w.head?.any startsNumber = true) (follows : Follows rest) :
    ∃ v : Value α, parseScalar (w ++ rest) = .ok (v, rest) := by
  have taken := strtod_taken S h starts follows
  cases w with
  | nil => cases starts
  | cons c r =>
      have digit : startsNumber c = true := starts
      refine ⟨.number (CNumber.strtod (c :: r ++ rest)).1, ?_⟩
      rw [List.cons_append] at taken ⊢
      have off : ∀ d : Char, startsNumber d = false → accept d (c :: (r ++ rest)) = none :=
        fun d other => accept_ne (ne_of_startsNumber digit other) (r ++ rest)
      rw [parseScalar, off _ rfl, off _ rfl, off _ rfl, off _ rfl, Option.isSome_none,
        if_neg Bool.false_ne_true, if_neg Bool.false_ne_true, if_neg Bool.false_ne_true,
        if_neg Bool.false_ne_true,
        if_pos (show (c :: (r ++ rest)).head?.any startsNumber = true from digit), parseNumber]
      dsimp only
      have some : (c :: r).length ≠ 0 := Nat.succ_ne_zero _
      rw [taken, if_neg some, ← List.cons_append, List.drop_left]
      rfl

/-- Every word of a part is taken off the text it begins. -/
def Taken (α : Type) [CNumber α] : Part → List Char → Prop
  | .value, w => ∀ rest fuel, Follows rest → 2 * (w ++ rest).length + 1 ≤ fuel →
      ∃ v : Value α, parseValue fuel (w ++ rest) = .ok (v, rest)
  | .elements, w => ∀ rest fuel, 2 * (w ++ ']' :: rest).length + 2 ≤ fuel →
      ∃ l : List (Value α), parseElements fuel (w ++ ']' :: rest) = .ok (l, rest)
  | .members, w => ∀ rest fuel, 2 * (w ++ '\x7d' :: rest).length + 2 ≤ fuel →
      ∃ l : List (String × Value α), parseMembers fuel (w ++ '\x7d' :: rest) = .ok (l, rest)

end Parsers

theorem follows_blank {ws t : List Char} {c : Char} (h : Blank ws) (own : stops c = true) :
    Follows (ws ++ c :: t) := by
  intro d hd
  cases ws with
  | nil =>
      cases hd
      exact own
  | cons e ws =>
      cases hd
      rw [stops, h d List.mem_cons_self]
      rfl

theorem bracketed_empty {β : Type} {close : Char} (own : isBlank close = false)
    (entries : List Char → Except ParseError (List β × List Char)) {ws : List Char} (h : Blank ws)
    (rest : List Char) : bracketed close entries (ws ++ close :: rest) = .ok ([], rest) := by
  rw [bracketed, skipWs_append h, skipWs_cons own, accept_eq_some.mpr rfl]

theorem bracketed_entries {β : Type} {close c : Char}
    (entries : List Char → Except ParseError (List β × List Char)) {text r : List Char}
    (first : skipWs text = c :: r) (other : c ≠ close) :
    bracketed close entries text = entries (skipWs text) := by
  rw [bracketed, first, accept_ne other]

theorem continued_end {β : Type} {close : Char} (own : isBlank close = false) (other : close ≠ ',')
    (entries : List Char → Except ParseError (List β × List Char)) (entry : β) {ws : List Char}
    (h : Blank ws) (rest : List Char) :
    continued close entries entry (ws ++ close :: rest) = .ok ([entry], rest) := by
  rw [continued, skipWs_append h, skipWs_cons own, accept_ne other, accept_eq_some.mpr rfl]

theorem continued_more {β : Type} (close : Char)
    {entries : List Char → Except ParseError (List β × List Char)} (entry : β) {ws t rest : List Char}
    {l : List β} (h : Blank ws) (more : entries t = .ok (l, rest)) :
    continued close entries entry (ws ++ ',' :: t) = .ok (entry :: l, rest) := by
  rw [continued, skipWs_append h, skipWs_cons rfl, accept_eq_some.mpr rfl]
  dsimp only
  rw [more]
  rfl

/-- The entries of an array do not begin with its closing bracket. -/
theorem elements_head {w : List Char} (h : loose.Derives .elements w) (t : List Char) :
    ∃ c r, skipWs (w ++ t) = c :: r ∧ c ≠ ']' := by
  cases h with
  | @element ws ws' v blank value _ =>
      obtain ⟨c, r, rfl, own, other, -⟩ := value_head value
      refine ⟨c, r ++ (ws' ++ t), ?_, other⟩
      rw [List.append_assoc, List.append_assoc, skipWs_append blank, List.cons_append,
        skipWs_cons own]
  | @elements ws ws' v w blank value _ _ =>
      obtain ⟨c, r, rfl, own, other, -⟩ := value_head value
      refine ⟨c, r ++ (ws' ++ ',' :: w ++ t), ?_, other⟩
      rw [List.append_assoc, List.append_assoc, List.append_assoc, skipWs_append blank,
        List.cons_append, skipWs_cons own, List.append_assoc]

/-- The entries of an object begin with a quote. -/
theorem members_head {w : List Char} (h : loose.Derives .members w) (t : List Char) :
    ∃ c r, skipWs (w ++ t) = c :: r ∧ c ≠ '\x7d' := by
  cases h with
  | member blank quoted _ _ _ _ =>
      obtain ⟨cs, -, rfl⟩ := quoted
      rw [List.append_assoc, List.append_assoc, List.append_assoc, skipWs_append blank,
        List.cons_append, List.cons_append, skipWs_cons rfl]
      exact ⟨_, _, rfl, by decide⟩
  | members blank quoted _ _ _ _ _ =>
      obtain ⟨cs, -, rfl⟩ := quoted
      rw [List.append_assoc, List.append_assoc, List.append_assoc, skipWs_append blank,
        List.cons_append, List.cons_append, skipWs_cons rfl]
      exact ⟨_, _, rfl, by decide⟩

section Parsers

variable [CNumber α]

/-- A scalar is taken by the parser of values. -/
theorem parseValue_scalar {c : Char} {r rest : List Char} {v : Value α} (own : isBlank c = false)
    (object : c ≠ '\x7b') (array : c ≠ '[') (h : parseScalar (c :: r) = .ok (v, rest)) {fuel : Nat}
    (hf : 1 ≤ fuel) : ∃ v : Value α, parseValue fuel (c :: r) = .ok (v, rest) :=
  ⟨v, read_scalar own object array h hf⟩

theorem parseScalar_quoted {w : List Char} (h : loose.Quoted w) (rest : List Char) :
    ∃ r, w ++ rest = '"' :: r ∧ ∃ v : Value α, parseScalar ('"' :: r) = .ok (v, rest) := by
  obtain ⟨s, hs⟩ := parseString_complete h rest
  obtain ⟨cs, -, rfl⟩ := h
  refine ⟨_, rfl, .string s, ?_⟩
  rw [parseScalar, accept_eq_some.mpr rfl]
  exact (congrArg (· >>= _) hs).trans rfl

theorem parseScalar_literal {lit : String} (h : lit ∈ ["true", "false", "null"])
    (rest : List Char) : ∃ c r, lit.toList ++ rest = c :: r ∧ isBlank c = false ∧ c ≠ '\x7b' ∧
      c ≠ '[' ∧ ∃ v : Value α, parseScalar (c :: r) = .ok (v, rest) := by
  simp only [List.mem_cons, List.not_mem_nil, or_false] at h
  rcases h with rfl | rfl | rfl
  · exact ⟨_, _, rfl, rfl, by decide, by decide, .boolean true, rfl⟩
  · exact ⟨_, _, rfl, rfl, by decide, by decide, .boolean false, rfl⟩
  · exact ⟨_, _, rfl, rfl, by decide, by decide, .null, rfl⟩

/-- An array or an object whose brackets hold `body`. -/
theorem parseValue_array {body rest : List Char} {l : List (Value α)} {fuel : Nat}
    (h : bracketed ']' (parseElements fuel) body = .ok (l, rest)) :
    parseValue (fuel + 1) ('[' :: body) = .ok (.array l, rest) := by
  rw [parseValue, skipWs_cons rfl]
  dsimp only
  rw [if_neg (by decide), if_pos rfl, h]
  rfl

theorem parseValue_object {body rest : List Char} {l : List (String × Value α)} {fuel : Nat}
    (h : bracketed '\x7d' (parseMembers fuel) body = .ok (l, rest)) :
    parseValue (fuel + 1) ('\x7b' :: body) = .ok (.object l, rest) := by
  rw [parseValue, skipWs_cons rfl]
  dsimp only
  rw [if_pos rfl, h]
  rfl

/-- An entry of an array, and what stands after it. -/
theorem parseElements_entry {ws v t : List Char} {x : Value α} {fuel : Nat} (h : Blank ws)
    (hf : 1 ≤ fuel) (value : parseValue fuel (v ++ t) = .ok (x, t)) :
    (parseElements (fuel + 1) (ws ++ (v ++ t)) : Except ParseError (List (Value α) × List Char)) =
      continued ']' (parseElements fuel) x t := by
  rw [parseElements, parseValue_skip h hf, value]
  rfl

/-- An entry of an object, and what stands after it. -/
theorem parseMembers_entry {ws key ws' vs v t : List Char} {x : Value α} {fuel : Nat}
    (h : Blank ws) (quoted : loose.Quoted key) (h' : Blank ws') (g : Blank vs) (hf : 1 ≤ fuel)
    (value : parseValue fuel (v ++ t) = .ok (x, t)) :
    ∃ s : String, (parseMembers (fuel + 1) (ws ++ (key ++ (ws' ++ ':' :: (vs ++ (v ++ t)))))
        : Except ParseError (List (String × Value α) × List Char)) =
      continued '\x7d' (parseMembers fuel) (s, x) t := by
  obtain ⟨s, hs⟩ := parseString_complete quoted (ws' ++ ':' :: (vs ++ (v ++ t)))
  have start : skipWs (key ++ (ws' ++ ':' :: (vs ++ (v ++ t)))) =
      key ++ (ws' ++ ':' :: (vs ++ (v ++ t))) := by
    obtain ⟨cs, -, rfl⟩ := quoted
    exact skipWs_cons rfl
  refine ⟨s, ?_⟩
  rw [parseMembers, skipWs_append h, start, hs, except_ok_bind]
  dsimp only
  rw [skipWs_append h', skipWs_cons rfl, accept_eq_some.mpr rfl]
  dsimp only
  rw [parseValue_skip g hf, value]
  rfl

variable (S : StandardNumber α)

include S

theorem taken_of_derives {part : Part} {w : List Char} (h : loose.Derives part w) :
    Taken α part w := by
  induction h with
  | string h =>
      intro rest fuel _ hf
      obtain ⟨r, text, v, hv⟩ := parseScalar_quoted (α := α) h rest
      rw [text]
      exact parseValue_scalar rfl (by decide) (by decide) hv (by omega)
  | literal h =>
      intro rest fuel _ hf
      obtain ⟨c, r, text, own, object, array, v, hv⟩ := parseScalar_literal (α := α) h rest
      rw [text]
      exact parseValue_scalar own object array hv (by omega)
  | @number w h =>
      intro rest fuel follows hf
      obtain ⟨v, hv⟩ := parseScalar_number S h.1 h.2 follows
      obtain ⟨c, r, rfl, own, -, -⟩ := value_head (.number h)
      have digit : startsNumber c = true := h.2
      exact parseValue_scalar own (ne_of_startsNumber digit rfl) (ne_of_startsNumber digit rfl) hv
        (by omega)
  | @emptyArray ws h =>
      intro rest fuel _ hf
      obtain ⟨fuel, rfl⟩ := Nat.exists_eq_add_of_le' (Nat.le_of_add_left_le hf : 1 ≤ fuel)
      have text : '[' :: ws ++ [']'] ++ rest = '[' :: (ws ++ ']' :: rest) := by simp
      exact ⟨.array [], text ▸ parseValue_array (bracketed_empty rfl _ h rest)⟩
  | @array w h ih =>
      intro rest fuel _ hf
      obtain ⟨fuel, rfl⟩ := Nat.exists_eq_add_of_le' (Nat.le_of_add_left_le hf : 1 ≤ fuel)
      have text : '[' :: w ++ [']'] ++ rest = '[' :: (w ++ ']' :: rest) := by simp
      rw [text, List.length_cons] at hf
      obtain ⟨l, hl⟩ := ih rest fuel (by omega)
      obtain ⟨c, r, first, other⟩ := elements_head h (']' :: rest)
      obtain ⟨fuel, rfl⟩ := Nat.exists_eq_add_of_le' (by omega : 2 ≤ fuel)
      refine ⟨.array l, text ▸ parseValue_array ?_⟩
      rw [bracketed_entries _ first other, parseElements_skipWs]
      exact hl
  | @emptyObject ws h =>
      intro rest fuel _ hf
      obtain ⟨fuel, rfl⟩ := Nat.exists_eq_add_of_le' (Nat.le_of_add_left_le hf : 1 ≤ fuel)
      have text : '\x7b' :: ws ++ ['\x7d'] ++ rest = '\x7b' :: (ws ++ '\x7d' :: rest) := by simp
      exact ⟨.object [], text ▸ parseValue_object (bracketed_empty rfl _ h rest)⟩
  | @object w h ih =>
      intro rest fuel _ hf
      obtain ⟨fuel, rfl⟩ := Nat.exists_eq_add_of_le' (Nat.le_of_add_left_le hf : 1 ≤ fuel)
      have text : '\x7b' :: w ++ ['\x7d'] ++ rest = '\x7b' :: (w ++ '\x7d' :: rest) := by simp
      rw [text, List.length_cons] at hf
      obtain ⟨l, hl⟩ := ih rest fuel (by omega)
      obtain ⟨c, r, first, other⟩ := members_head h ('\x7d' :: rest)
      obtain ⟨fuel, rfl⟩ := Nat.exists_eq_add_of_le' (by omega : 1 ≤ fuel)
      refine ⟨.object l, text ▸ parseValue_object ?_⟩
      rw [bracketed_entries _ first other, parseMembers_skipWs]
      exact hl
  | @element ws ws' v h value h' ih =>
      intro rest fuel hf
      obtain ⟨fuel, rfl⟩ := Nat.exists_eq_add_of_le' (Nat.le_of_add_left_le hf : 1 ≤ fuel)
      have text : ws ++ v ++ ws' ++ ']' :: rest = ws ++ (v ++ (ws' ++ ']' :: rest)) := by simp
      rw [text] at hf
      have length := congrArg List.length text
      obtain ⟨x, hx⟩ := ih (ws' ++ ']' :: rest) fuel (follows_blank h' rfl) (by
        rw [List.length_append] at hf
        omega)
      refine ⟨[x], ?_⟩
      rw [text, parseElements_entry h (by omega) hx]
      exact continued_end rfl (by decide) _ x h' rest
  | @elements ws ws' v w h value h' more ih ihm =>
      intro rest fuel hf
      obtain ⟨fuel, rfl⟩ := Nat.exists_eq_add_of_le' (Nat.le_of_add_left_le hf : 1 ≤ fuel)
      have text : ws ++ v ++ ws' ++ ',' :: w ++ ']' :: rest =
          ws ++ (v ++ (ws' ++ ',' :: (w ++ ']' :: rest))) := by simp
      rw [text] at hf ⊢
      obtain ⟨c, r, rfl, -⟩ := value_head value
      simp only [List.length_append, List.length_cons] at hf
      obtain ⟨x, hx⟩ := ih (ws' ++ ',' :: (w ++ ']' :: rest)) fuel (follows_blank h' rfl) (by
        simp only [List.length_append, List.length_cons]
        omega)
      obtain ⟨l, hl⟩ := ihm rest fuel (by
        simp only [List.length_append, List.length_cons]
        omega)
      refine ⟨x :: l, ?_⟩
      rw [parseElements_entry h (by omega) hx]
      exact continued_more ']' x h' hl
  | @member ws ws' vs vs' key v h quoted h' g value g' ih =>
      intro rest fuel hf
      obtain ⟨fuel, rfl⟩ := Nat.exists_eq_add_of_le' (Nat.le_of_add_left_le hf : 1 ≤ fuel)
      have text : ws ++ key ++ ws' ++ ':' :: (vs ++ v ++ vs') ++ '\x7d' :: rest =
          ws ++ (key ++ (ws' ++ ':' :: (vs ++ (v ++ (vs' ++ '\x7d' :: rest))))) := by simp
      rw [text] at hf ⊢
      simp only [List.length_append, List.length_cons] at hf
      obtain ⟨x, hx⟩ := ih (vs' ++ '\x7d' :: rest) fuel (follows_blank g' rfl) (by
        simp only [List.length_append, List.length_cons]
        omega)
      obtain ⟨s, hs⟩ := parseMembers_entry h quoted h' g (by omega) hx
      refine ⟨[(s, x)], ?_⟩
      rw [hs]
      exact continued_end rfl (by decide) _ _ g' rest
  | @members ws ws' vs vs' key v w h quoted h' g value g' more ih ihm =>
      intro rest fuel hf
      obtain ⟨fuel, rfl⟩ := Nat.exists_eq_add_of_le' (Nat.le_of_add_left_le hf : 1 ≤ fuel)
      have text : ws ++ key ++ ws' ++ ':' :: (vs ++ v ++ vs' ++ ',' :: w) ++ '\x7d' :: rest =
          ws ++ (key ++ (ws' ++ ':' :: (vs ++ (v ++ (vs' ++ ',' :: (w ++ '\x7d' :: rest)))))) := by
        simp
      rw [text] at hf ⊢
      obtain ⟨c, r, rfl, -⟩ := value_head value
      simp only [List.length_append, List.length_cons] at hf
      obtain ⟨x, hx⟩ := ih (vs' ++ ',' :: (w ++ '\x7d' :: rest)) fuel (follows_blank g' rfl) (by
        simp only [List.length_append, List.length_cons]
        omega)
      obtain ⟨l, hl⟩ := ihm rest fuel (by
        simp only [List.length_append, List.length_cons]
        omega)
      obtain ⟨s, hs⟩ := parseMembers_entry h quoted h' g (by omega) hx
      refine ⟨(s, x) :: l, ?_⟩
      rw [hs]
      exact continued_more '\x7d' (s, x) g' hl

/-- A text of the loose dialect is accepted. -/
theorem parse_complete {text : List Char} (h : loose.Text text) :
    ∃ v : Value α, parse text = .ok v := by
  obtain ⟨ws, v, ws', blank, value, blank', rfl⟩ := h
  have follows : Follows ws' := by
    intro c hc
    rw [stops, blank' c (List.mem_of_mem_head? hc)]
    rfl
  obtain ⟨x, hx⟩ := taken_of_derives S value ws' (2 * (ws ++ v ++ ws').length + 2) follows (by
    simp only [List.length_append]
    omega)
  have read : parseValue (2 * (ws ++ v ++ ws').length + 2) (ws ++ (v ++ ws')) = .ok (x, ws') :=
    (parseValue_skip blank (by omega) _).trans hx
  have done : skipWs ws' = [] := List.dropWhile_eq_nil_iff.mpr blank'
  refine ⟨x, ?_⟩
  rw [← List.append_assoc] at read
  rw [parse, read]
  dsimp only
  rw [done]
  rfl

/-- **The parser accepts the texts of the loose dialect**, no more and no fewer. -/
theorem parse_ok_iff (text : List Char) :
    (∃ v : Value α, parse text = .ok v) ↔ loose.Text text :=
  ⟨fun ⟨_, h⟩ => parse_sound S h, parse_complete S⟩

/-- **The parser is strict on the texts that the strict dialect has if the loose one has them**,
and on no others. -/
theorem parse_strict_iff (text : List Char) :
    ((∃ v : Value α, parse text = .ok v) ↔ strict.Text text) ↔
      (loose.Text text → strict.Text text) := by
  rw [parse_ok_iff S]
  exact ⟨fun same => same.mp, fun h => ⟨h, text_mono strict_below_loose⟩⟩

end Parsers

/-! ### A library that takes the longest number -/

section Longest

open Classical

/-- The number of characters of the longest number a text begins with. -/
noncomputable def longestNumber (text : List Char) : Nat :=
  Nat.findGreatest (fun n => CNum (text.take n)) text.length

/-- The numbers of a library whose `strtod` takes every number there is, and has the value of the
integers in decimal. -/
def Standard : Type := ℝ

noncomputable instance CNumber.standard : CNumber Standard where
  isFinite x := CNumber.integers.isFinite x
  floor x := CNumber.integers.floor x
  printG prec x := CNumber.integers.printG prec x
  strtod text := ((CNumber.integers.strtod text).1, longestNumber text)

theorem standard_number : StandardNumber Standard where
  within text _ := Nat.findGreatest_le text.length
  subject text _ some := Nat.findGreatest_of_ne_zero (P := fun n => CNum (text.take n)) rfl some.ne'
  longest text w _ taken number := by
    refine Nat.le_findGreatest taken.length_le ?_
    rwa [← List.prefix_iff_eq_take.mp taken]

end Longest

theorem parse_strict_iff_pair :
    ((∃ v : Value Standard, parse "[-3, 10]".toList = .ok v) ↔ strict.Text "[-3, 10]".toList) ↔
      (loose.Text "[-3, 10]".toList → strict.Text "[-3, 10]".toList) :=
  parse_strict_iff standard_number _

/-! ### A control character in a string -/

/-- A character that a text of RFC 8259 may hold. -/
def Printable (c : Char) : Prop := isBlank c = true ∨ 0x20 ≤ c.toNat

theorem Blank.printable {ws : List Char} (h : Blank ws) : ∀ c ∈ ws, Printable c :=
  fun c hc => .inl (h c hc)

theorem printable_of_le {d c : Char} (h : d ≤ c) (own : 0x20 ≤ d.toNat) : Printable c :=
  .inr (own.trans h)

theorem digit_printable {c : Char} (h : Char.isDigit c = true) : Printable c := by
  have range : 48 ≤ c.val ∧ c.val ≤ 57 := by simpa [Char.isDigit] using h
  exact printable_of_le (d := '0') range.1 (by decide)

theorem hex_printable {c : Char} (h : (hexValue c).isSome = true) : Printable c := by
  unfold hexValue at h
  split_ifs at h with digit lower upper
  · exact printable_of_le digit.1 (by decide)
  · exact printable_of_le lower.1 (by decide)
  · exact printable_of_le upper.1 (by decide)
  · cases h

theorem StrictNum.printable {w : List Char} (h : StrictNum w) : ∀ c ∈ w, Printable c := by
  obtain ⟨s, i, f, x, sign, int, frac, exponent, rfl⟩ := h
  have minus : Printable '-' := .inr (by decide)
  have plus : Printable '+' := .inr (by decide)
  have none : ∀ c ∈ ([] : List Char), Printable c := fun c hc => absurd hc List.not_mem_nil
  simp only [List.forall_mem_append]
  refine ⟨?_, ?_, ?_, ?_⟩
  · simp only [List.mem_cons, List.not_mem_nil, or_false] at sign
    rcases sign with rfl | rfl
    · exact none
    · exact List.forall_mem_cons.mpr ⟨minus, none⟩
  · rcases int with rfl | ⟨c, ds, digit, -, all, rfl⟩
    · exact fun c hc => digit_printable (by simp [List.mem_singleton.mp hc])
    · exact List.forall_mem_cons.mpr ⟨digit_printable digit, fun c hc => digit_printable (all c hc)⟩
  · rcases frac with rfl | ⟨ds, ⟨-, all⟩, rfl⟩
    · exact none
    · exact List.forall_mem_cons.mpr ⟨.inr (by decide), fun c hc => digit_printable (all c hc)⟩
  · rcases exponent with rfl | ⟨e, s, ds, marker, sign, ⟨-, all⟩, rfl⟩
    · exact fun c hc => absurd hc List.not_mem_nil
    · refine List.forall_mem_cons.mpr ⟨?_, List.forall_mem_append.mpr
        ⟨?_, fun c hc => digit_printable (all c hc)⟩⟩
      · simp only [List.mem_cons, List.not_mem_nil, or_false] at marker
        rcases marker with rfl | rfl <;> exact .inr (by decide)
      · simp only [List.mem_cons, List.not_mem_nil, or_false] at sign
        rcases sign with rfl | rfl | rfl
        · exact none
        · exact List.forall_mem_cons.mpr ⟨plus, none⟩
        · exact List.forall_mem_cons.mpr ⟨minus, none⟩

theorem quoted_printable {w : List Char} (h : strict.Quoted w) : ∀ c ∈ w, Printable c := by
  obtain ⟨cs, chars, rfl⟩ := h
  have quote : Printable '"' := .inr (by decide)
  have escape : Printable '\\' := .inr (by decide)
  have all : ∀ c ∈ cs, Printable c := by
    induction chars with
    | nil => exact fun c hc => absurd hc List.not_mem_nil
    | plain h _ _ _ ih => exact List.forall_mem_cons.mpr ⟨.inr h, ih⟩
    | escaped h _ ih =>
        refine List.forall_mem_cons.mpr ⟨escape, List.forall_mem_cons.mpr ⟨.inr ?_, ih⟩⟩
        simp at h
        rcases h with rfl | rfl | rfl | rfl | rfl | rfl | rfl | rfl <;> decide
    | code h _ ih =>
        have hex := fun d hd => hex_printable (h.2 d hd)
        simp only [List.forall_mem_cons] at hex ⊢
        exact ⟨escape, .inr (by decide), hex.1, hex.2.1, hex.2.2.1, hex.2.2.2.1, ih⟩
  simp only [List.cons_append, List.forall_mem_cons, List.forall_mem_append]
  exact ⟨quote, all, quote, fun c hc => absurd hc List.not_mem_nil⟩

/-- No control character but the blanks stands in a text of RFC 8259. -/
theorem derives_printable {part : Part} {w : List Char} (h : strict.Derives part w) :
    ∀ c ∈ w, Printable c := by
  have array : Printable '[' := .inr (by decide)
  have array' : Printable ']' := .inr (by decide)
  have object : Printable '\x7b' := .inr (by decide)
  have object' : Printable '\x7d' := .inr (by decide)
  have comma : Printable ',' := .inr (by decide)
  have colon : Printable ':' := .inr (by decide)
  have none : ∀ c ∈ ([] : List Char), Printable c := fun c hc => absurd hc List.not_mem_nil
  induction h with
  | string h => exact quoted_printable h
  | literal h =>
      simp only [List.mem_cons, List.not_mem_nil, or_false] at h
      rcases h with rfl | rfl | rfl <;> simp [Printable, isBlank]
  | number h => exact h.printable
  | emptyArray h =>
      simp only [List.cons_append, List.forall_mem_cons, List.forall_mem_append]
      exact ⟨array, h.printable, array', none⟩
  | array _ ih =>
      simp only [List.cons_append, List.forall_mem_cons, List.forall_mem_append]
      exact ⟨array, ih, array', none⟩
  | emptyObject h =>
      simp only [List.cons_append, List.forall_mem_cons, List.forall_mem_append]
      exact ⟨object, h.printable, object', none⟩
  | object _ ih =>
      simp only [List.cons_append, List.forall_mem_cons, List.forall_mem_append]
      exact ⟨object, ih, object', none⟩
  | element h _ h' ih =>
      simp only [List.forall_mem_append]
      exact ⟨⟨h.printable, ih⟩, h'.printable⟩
  | elements h _ h' _ ih more =>
      simp only [List.forall_mem_cons, List.forall_mem_append]
      exact ⟨⟨⟨h.printable, ih⟩, h'.printable⟩, comma, more⟩
  | member h quoted h' g _ g' ih =>
      simp only [List.forall_mem_cons, List.forall_mem_append]
      exact ⟨⟨⟨h.printable, quoted_printable quoted⟩, h'.printable⟩, colon, ⟨g.printable, ih⟩,
        g'.printable⟩
  | members h quoted h' g _ g' _ ih more =>
      simp only [List.forall_mem_cons, List.forall_mem_append]
      exact ⟨⟨⟨h.printable, quoted_printable quoted⟩, h'.printable⟩, colon,
        ⟨⟨g.printable, ih⟩, g'.printable⟩, comma, more⟩

theorem text_printable {text : List Char} (h : strict.Text text) : ∀ c ∈ text, Printable c := by
  obtain ⟨ws, v, ws', blank, value, blank', rfl⟩ := h
  simp only [List.forall_mem_append]
  exact ⟨⟨blank.printable, derives_printable value⟩, blank'.printable⟩

/-- A string of one control character. -/
def rawControl : List Char := ['"', Char.ofNat 1, '"']

theorem rawControl_taken :
    ¬((∃ v : Value Standard, parse rawControl = .ok v) ↔ strict.Text rawControl) := by
  intro same
  have loosely : loose.Text rawControl := by
    have none : Blank [] := fun c hc => absurd hc List.not_mem_nil
    refine ⟨[], rawControl, [], none, .string ⟨[Char.ofNat 1], ?_, rfl⟩, none, rfl⟩
    exact .plain trivial (by decide) (by decide) .nil
  have own := text_printable (same.mp (parse_complete standard_number loosely)) (Char.ofNat 1)
    (List.mem_cons_of_mem _ List.mem_cons_self)
  rcases own with blank | least
  · exact absurd blank (by decide)
  · exact absurd least (by decide)

end Xrune.Json
