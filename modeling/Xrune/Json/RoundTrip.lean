import Xrune.Json.Parser
import Xrune.Support.Errors

/-!
# Json — what is written is read back

The parser's fuel is enough for every text (`parseValue_fuel`), and `parse` reads from a text
`dump` wrote the value it was written from (`parse_dump`), at every indentation, provided
`strtod` reads back each number of it (`ReadsBack`).
-/

namespace Xrune.Json

variable {α : Type}

/-! ### Strings -/

theorem strtoul16_control : ∀ n < 0x20,
    strtoul16 ['0', '0', Nat.digitChar (n / 16), Nat.digitChar (n % 16)] = n := by
  decide

theorem parseChars_raw {c : Char} (hq : c ≠ '"') (hb : c ≠ '\\') {cs rest r : List Char}
    (h : parseChars r = .ok (cs, rest)) : parseChars (c :: r) = .ok (c :: cs, rest) := by
  rw [parseChars.eq_def]
  dsimp only
  rw [if_neg hq, if_pos hb, h]
  rfl

theorem parseChars_escaped {e x : Char} (he : e ≠ 'u') (hx : unescape e = some x)
    {cs rest r : List Char} (h : parseChars r = .ok (cs, rest)) :
    parseChars ('\\' :: e :: r) = .ok (x :: cs, rest) := by
  rw [parseChars.eq_def]
  dsimp only
  rw [if_neg (by decide), if_neg (by decide), if_neg he, hx, h]
  rfl

theorem parseChars_code {a b x y : Char} {cs rest r : List Char}
    (h : parseChars r = .ok (cs, rest)) :
    parseChars ('\\' :: 'u' :: a :: b :: x :: y :: r)
      = .ok (utf8 (strtoul16 [a, b, x, y]) ++ cs, rest) := by
  rw [parseChars.eq_def]
  dsimp only
  rw [if_neg (by decide), if_neg (by decide), if_pos rfl, h]
  rfl

theorem parseChars_escapeChar (c : Char) {cs rest r : List Char}
    (h : parseChars r = .ok (cs, rest)) :
    parseChars (escapeChar c ++ r) = .ok (c :: cs, rest) := by
  unfold escapeChar
  split_ifs with hq hb hn hr ht hctl
  · exact parseChars_escaped (by decide) (by rw [hq]; rfl) h
  · exact parseChars_escaped (by decide) (by rw [hb]; rfl) h
  · exact parseChars_escaped (by decide) (by rw [hn]; rfl) h
  · exact parseChars_escaped (by decide) (by rw [hr]; rfl) h
  · exact parseChars_escaped (by decide) (by rw [ht]; rfl) h
  · have byte : utf8 c.toNat = [c] := by
      rw [utf8, if_pos (by omega), Char.ofNat_toNat]
    refine (parseChars_code h).trans ?_
    rw [strtoul16_control c.toNat hctl, byte]
    rfl
  · exact parseChars_raw hq hb h

theorem parseChars_escape (s rest : List Char) :
    parseChars (s.flatMap escapeChar ++ '"' :: rest) = .ok (s, rest) := by
  induction s with
  | nil =>
      rw [List.flatMap_nil, List.nil_append, parseChars.eq_def]
      exact if_pos rfl
  | cons c s ih =>
      rw [List.flatMap_cons, List.append_assoc]
      exact parseChars_escapeChar c ih

/-- **A string is read back**, whatever bytes it has. -/
theorem parseString_escape (s : String) (rest : List Char) :
    parseString (escape s ++ rest) = .ok (s, rest) := by
  have body := parseChars_escape s.toList rest
  simp only [escape, List.cons_append, List.append_assoc, List.nil_append]
  rw [parseString, accept, if_pos rfl]
  dsimp only
  rw [body]
  exact congrArg (fun s => Except.ok (s, rest)) String.ofList_toList

/-! ### The fuel is enough -/

theorem length_lt_of_accept {c : Char} {text rest : List Char} (h : accept c text = some rest) :
    rest.length < text.length := by
  cases text with
  | nil => cases h
  | cons x r =>
      rw [accept] at h
      split_ifs at h
      obtain rfl := Option.some.inj h
      exact Nat.lt_succ_self _

theorem length_skipWs_le (text : List Char) : (skipWs text).length ≤ text.length :=
  (List.dropWhile_suffix isBlank).length_le

theorem length_lt_of_parseChars {text : List Char} : ∀ {cs rest : List Char},
    parseChars text = .ok (cs, rest) → rest.length < text.length := by
  fun_induction parseChars text <;> intro cs rest h
  case case1 | case4 | case6 | case8 => cases h
  case case2 r =>
    obtain ⟨-, rfl⟩ := Prod.mk.inj (Except.ok.inj h)
    exact Nat.lt_succ_self _
  case case3 ih =>
    obtain ⟨⟨cs', rest'⟩, hr, h⟩ := except_bind_ok h
    cases h
    exact Nat.lt_succ_of_lt (ih hr)
  case case5 r ih =>
    obtain ⟨⟨cs', rest'⟩, hr, h⟩ := except_bind_ok h
    cases h
    have := ih hr
    simp only [List.length_cons]
    omega
  case case7 r _ _ _ ih =>
    obtain ⟨⟨cs', rest'⟩, hr, h⟩ := except_bind_ok h
    cases h
    have := ih hr
    simp only [List.length_cons]
    omega

theorem length_lt_of_parseString {text rest : List Char} {s : String}
    (h : parseString text = .ok (s, rest)) : rest.length < text.length := by
  rw [parseString] at h
  cases hq : accept '"' text with
  | none => rw [hq] at h; cases h
  | some r =>
      rw [hq] at h
      obtain ⟨⟨cs, rest'⟩, hr, h⟩ := except_bind_ok h
      cases h
      exact (length_lt_of_parseChars hr).trans (length_lt_of_accept hq)

theorem length_lt_of_literal {lit : String} (hlit : 0 < lit.toList.length) {text rest : List Char}
    (h : literal lit text = .ok rest) : rest.length < text.length := by
  rw [literal] at h
  split_ifs at h with hp
  obtain rfl := Except.ok.inj h
  have := (List.isPrefixOf_iff_prefix.mp hp).length_le
  rw [List.length_drop]
  omega

variable [CNumber α]

theorem length_lt_of_parseScalar {text rest : List Char} {v : Value α}
    (h : parseScalar text = .ok (v, rest)) : rest.length < text.length := by
  rw [parseScalar] at h
  split_ifs at h with hs ht hf hn hd
  · obtain ⟨⟨s, rest'⟩, hr, h⟩ := except_bind_ok h
    cases h
    exact length_lt_of_parseString hr
  · obtain ⟨rest', hr, h⟩ := except_bind_ok h
    cases h
    exact length_lt_of_literal (by decide) hr
  · obtain ⟨rest', hr, h⟩ := except_bind_ok h
    cases h
    exact length_lt_of_literal (by decide) hr
  · obtain ⟨rest', hr, h⟩ := except_bind_ok h
    cases h
    exact length_lt_of_literal (by decide) hr
  · obtain ⟨⟨d, rest'⟩, hr, h⟩ := except_bind_ok h
    cases h
    rw [parseNumber] at hr
    dsimp only at hr
    split_ifs at hr with htaken
    cases hr
    have hlen : text ≠ [] := by rintro rfl; cases hd
    have := List.length_pos_iff.mpr hlen
    rw [List.length_drop]
    omega

/-- What is left after an entry list is shorter than the text before it. -/
theorem length_lt_of_bracketed {β : Type} {close : Char}
    {entries : List Char → Except ParseError (List β × List Char)}
    (shorter : ∀ {text l rest}, entries text = .ok (l, rest) → rest.length < text.length)
    {text rest : List Char} {l : List β} (h : bracketed close entries text = .ok (l, rest)) :
    rest.length < text.length := by
  have hws := length_skipWs_le text
  rw [bracketed] at h
  cases ha : accept close (skipWs text) with
  | some rest' =>
      rw [ha] at h
      cases h
      exact (length_lt_of_accept ha).trans_le hws
  | none =>
      rw [ha] at h
      exact (shorter h).trans_le hws

theorem length_lt_of_continued {β : Type} {close : Char}
    {entries : List Char → Except ParseError (List β × List Char)}
    (shorter : ∀ {text l rest}, entries text = .ok (l, rest) → rest.length < text.length)
    {entry : β} {text rest : List Char} {l : List β}
    (h : continued close entries entry text = .ok (l, rest)) : rest.length < text.length := by
  have hws := length_skipWs_le text
  rw [continued] at h
  cases hc : accept ',' (skipWs text) with
  | some r =>
      rw [hc] at h
      have hr := length_lt_of_accept hc
      obtain ⟨⟨l', rest'⟩, hl, h⟩ := except_bind_ok h
      cases h
      exact ((shorter hl).trans hr).trans_le hws
  | none =>
      rw [hc] at h
      cases ha : accept close (skipWs text) with
      | none => rw [ha] at h; cases h
      | some rest' =>
          rw [ha] at h
          cases h
          exact (length_lt_of_accept ha).trans_le hws

/-- What is left is shorter than the text, for the three parsers of a fuel. -/
structure Shorter (α : Type) [CNumber α] (fuel : Nat) : Prop where
  value : ∀ {text : List Char} {v : Value α} {rest : List Char},
    parseValue fuel text = .ok (v, rest) → rest.length < text.length
  members : ∀ {text : List Char} {obj : List (String × Value α)} {rest : List Char},
    parseMembers fuel text = .ok (obj, rest) → rest.length < text.length
  elements : ∀ {text : List Char} {arr : List (Value α)} {rest : List Char},
    parseElements fuel text = .ok (arr, rest) → rest.length < text.length

theorem shorter (fuel : Nat) : Shorter α fuel := by
  induction fuel with
  | zero =>
      refine ⟨fun h => ?_, fun h => ?_, fun h => ?_⟩
      · rw [parseValue] at h; cases h
      · rw [parseMembers] at h; cases h
      · rw [parseElements] at h; cases h
  | succ fuel ih =>
      refine ⟨fun {text v rest} h => ?_, fun {text obj rest} h => ?_, fun {text arr rest} h => ?_⟩
      · have hws := length_skipWs_le text
        rw [parseValue] at h
        cases hc : skipWs text with
        | nil => rw [hc] at h; cases h
        | cons c r =>
            rw [hc] at h hws
            rw [List.length_cons] at hws
            dsimp only at h
            split_ifs at h
            · obtain ⟨⟨obj, rest'⟩, hobj, h⟩ := except_bind_ok h
              cases h
              have := length_lt_of_bracketed ih.members hobj
              show rest'.length < text.length
              omega
            · obtain ⟨⟨arr, rest'⟩, harr, h⟩ := except_bind_ok h
              cases h
              have := length_lt_of_bracketed ih.elements harr
              show rest'.length < text.length
              omega
            · have := length_lt_of_parseScalar h
              rw [List.length_cons] at this
              omega
      · rw [parseMembers] at h
        obtain ⟨⟨key, r⟩, hkey, h⟩ := except_bind_ok h
        have hr := (length_lt_of_parseString hkey).trans_le (length_skipWs_le text)
        dsimp only at h
        cases hc : accept ':' (skipWs r) with
        | none => rw [hc] at h; cases h
        | some r₁ =>
            rw [hc] at h
            have hr₁ := (length_lt_of_accept hc).trans_le (length_skipWs_le r)
            obtain ⟨⟨v, r₂⟩, hv, h⟩ := except_bind_ok h
            have hr₂ := ih.value hv
            have hrest : rest.length < r₂.length := length_lt_of_continued ih.members h
            omega
      · rw [parseElements] at h
        obtain ⟨⟨v, r⟩, hv, h⟩ := except_bind_ok h
        exact (length_lt_of_continued ih.elements h).trans (ih.value hv)

/-! The fuel a call needs: a list of entries one more than a value. -/

theorem bracketed_congr {β : Type} {close : Char}
    {f g : List Char → Except ParseError (List β × List Char)} {text : List Char}
    (h : ∀ t : List Char, t.length ≤ text.length → f t = g t) :
    bracketed close f text = bracketed close g text := by
  rw [bracketed, bracketed, h _ (length_skipWs_le text)]

theorem continued_congr {β : Type} {close : Char}
    {f g : List Char → Except ParseError (List β × List Char)} {entry : β} {text : List Char}
    (h : ∀ t : List Char, t.length < text.length → f t = g t) :
    continued close f entry text = continued close g entry text := by
  rw [continued, continued]
  cases hc : accept ',' (skipWs text) with
  | none => rfl
  | some r =>
      have hr := (length_lt_of_accept hc).trans_le (length_skipWs_le text)
      dsimp only
      rw [h r hr]

/-- One unit of fuel more changes nothing. -/
structure Enough (α : Type) [CNumber α] (fuel : Nat) : Prop where
  value : ∀ {text : List Char}, 2 * text.length + 1 ≤ fuel →
    (parseValue (fuel + 1) text : Except ParseError (Value α × List Char)) = parseValue fuel text
  members : ∀ {text : List Char}, 2 * text.length + 2 ≤ fuel →
    (parseMembers (fuel + 1) text : Except ParseError (List (String × Value α) × List Char))
      = parseMembers fuel text
  elements : ∀ {text : List Char}, 2 * text.length + 2 ≤ fuel →
    (parseElements (fuel + 1) text : Except ParseError (List (Value α) × List Char))
      = parseElements fuel text

theorem enough (fuel : Nat) : Enough α fuel := by
  induction fuel with
  | zero => exact ⟨fun h => by omega, fun h => by omega, fun h => by omega⟩
  | succ fuel ih =>
      refine ⟨fun {text} h => ?_, fun {text} h => ?_, fun {text} h => ?_⟩
      · have hws := length_skipWs_le text
        rw [parseValue, parseValue]
        cases hc : skipWs text with
        | nil => rfl
        | cons c r =>
            rw [hc, List.length_cons] at hws
            dsimp only
            rw [bracketed_congr fun t ht => ih.members (by omega),
              bracketed_congr fun t ht => ih.elements (by omega)]
      · rw [parseMembers, parseMembers]
        refine except_bind_congr fun ⟨key, r⟩ hkey => ?_
        have hr := (length_lt_of_parseString hkey).trans_le (length_skipWs_le text)
        dsimp only
        cases hc : accept ':' (skipWs r) with
        | none => rfl
        | some r₁ =>
            have hr₁ := (length_lt_of_accept hc).trans_le (length_skipWs_le r)
            dsimp only
            rw [ih.value (by omega)]
            refine except_bind_congr fun ⟨v, r₂⟩ hv => ?_
            have hr₂ : r₂.length < r₁.length := (shorter fuel).value hv
            exact continued_congr fun t (ht : t.length < r₂.length) => ih.members (by omega)
      · rw [parseElements, parseElements, ih.value (by omega)]
        refine except_bind_congr fun ⟨v, r⟩ hv => ?_
        have hr : r.length < text.length := (shorter fuel).value hv
        exact continued_congr fun t (ht : t.length < r.length) => ih.elements (by omega)

/-- **More fuel than twice the length changes nothing.** -/
theorem parseValue_fuel {fuel : Nat} {text : List Char} (h : 2 * text.length + 1 ≤ fuel)
    {fuel' : Nat} (hle : fuel ≤ fuel') :
    (parseValue fuel' text : Except ParseError (Value α × List Char)) = parseValue fuel text := by
  induction fuel', hle using Nat.le_induction with
  | base => rfl
  | succ fuel' hle ih => rw [(enough fuel').value (by omega), ih]

/-! ### Reading back -/

/-- What may follow a number in a text `dump` wrote. -/
def Ends (rest : List Char) : Prop :=
  rest = [] ∨ ∃ c r, rest = c :: r ∧ (c = ',' ∨ c = ']' ∨ c = '\x7d' ∨ c = '\n')

/-- Blanks before a value are skipped. -/
theorem skipWs_append {blanks text : List Char} (h : ∀ c ∈ blanks, isBlank c = true) :
    skipWs (blanks ++ text) = skipWs text := by
  rw [skipWs, skipWs, List.dropWhile_append_of_pos h]

theorem skipWs_cons {c : Char} {text : List Char} (h : isBlank c = false) :
    skipWs (c :: text) = c :: text := by
  rw [skipWs, List.dropWhile_cons_of_neg (by simp [h])]

theorem newline_blank (indent : Int) : ∀ c ∈ newline indent, isBlank c = true := by
  intro c hc
  rw [newline] at hc
  split_ifs at hc
  · obtain rfl := List.mem_singleton.mp hc
    rfl
  · cases hc

theorem padding_blank (indent : Int) (depth : Nat) :
    ∀ c ∈ padding indent depth, isBlank c = true := by
  intro c hc
  rw [padding] at hc
  split_ifs at hc
  · obtain rfl := List.eq_of_mem_replicate hc
    rfl
  · cases hc

/-- The text after an entry: blanks up to what follows it. -/
theorem skipWs_line (indent : Int) (depth : Nat) {c : Char} {text : List Char}
    (h : isBlank c = false) :
    skipWs (newline indent ++ (padding indent depth ++ c :: text)) = c :: text := by
  rw [skipWs_append (newline_blank indent), skipWs_append (padding_blank indent depth),
    skipWs_cons h]

theorem parseValue_skip {blanks : List Char} (h : ∀ c ∈ blanks, isBlank c = true) {fuel : Nat}
    (hf : 1 ≤ fuel) (text : List Char) :
    (parseValue fuel (blanks ++ text) : Except ParseError (Value α × List Char))
      = parseValue fuel text := by
  obtain ⟨fuel, rfl⟩ := Nat.exists_eq_add_of_le' hf
  rw [parseValue, parseValue, skipWs_append h]

theorem parseElements_skip {blanks : List Char} (h : ∀ c ∈ blanks, isBlank c = true) {fuel : Nat}
    (hf : 2 ≤ fuel) (text : List Char) :
    (parseElements fuel (blanks ++ text) : Except ParseError (List (Value α) × List Char))
      = parseElements fuel text := by
  obtain ⟨fuel, rfl⟩ := Nat.exists_eq_add_of_le' hf
  rw [parseElements, parseElements, parseValue_skip h (by omega)]

theorem parseMembers_skip {blanks : List Char} (h : ∀ c ∈ blanks, isBlank c = true) {fuel : Nat}
    (hf : 1 ≤ fuel) (text : List Char) :
    (parseMembers fuel (blanks ++ text) : Except ParseError (List (String × Value α) × List Char))
      = parseMembers fuel text := by
  obtain ⟨fuel, rfl⟩ := Nat.exists_eq_add_of_le' hf
  rw [parseMembers, parseMembers, skipWs_append h]

theorem skipWs_skipWs (text : List Char) : skipWs (skipWs text) = skipWs text :=
  List.dropWhile_idempotent isBlank text

theorem parseElements_skipWs (fuel : Nat) (text : List Char) :
    (parseElements (fuel + 2) (skipWs text) : Except ParseError (List (Value α) × List Char))
      = parseElements (fuel + 2) text := by
  rw [parseElements, parseElements, parseValue, parseValue, skipWs_skipWs]

theorem parseMembers_skipWs (fuel : Nat) (text : List Char) :
    (parseMembers (fuel + 1) (skipWs text)
      : Except ParseError (List (String × Value α) × List Char))
      = parseMembers (fuel + 1) text := by
  rw [parseMembers, parseMembers, skipWs_skipWs]

/-- Scalars need one unit of fuel. -/
theorem read_scalar {v : Value α} {c : Char} {r rest : List Char} (blank : isBlank c = false)
    (object : c ≠ '\x7b') (array : c ≠ '[')
    (h : parseScalar (c :: r) = .ok (v, rest)) {fuel : Nat} (hf : 1 ≤ fuel) :
    parseValue fuel (c :: r) = .ok (v, rest) := by
  obtain ⟨fuel, rfl⟩ := Nat.exists_eq_add_of_le' hf
  rw [parseValue, skipWs_cons blank]
  dsimp only
  rw [if_neg object, if_neg array, h]

theorem ends_line (indent : Int) (depth : Nat) {c : Char} {text : List Char}
    (h : c = ']' ∨ c = '\x7d') :
    Ends (newline indent ++ (padding indent depth ++ c :: text)) := by
  rw [newline, padding]
  split_ifs
  · exact .inr ⟨'\n', _, rfl, by simp⟩
  · exact .inr ⟨c, text, rfl, by tauto⟩

/-- A closing bracket ends the list of entries. -/
theorem continued_close {β : Type} (indent : Int) (depth : Nat) {close : Char}
    (hclose : close = ']' ∨ close = '\x7d')
    (entries : List Char → Except ParseError (List β × List Char)) (entry : β)
    (rest : List Char) :
    continued close entries entry (newline indent ++ (padding indent depth ++ close :: rest))
      = .ok ([entry], rest) := by
  have blank : isBlank close = false := by rcases hclose with rfl | rfl <;> rfl
  have comma : close ≠ ',' := by rcases hclose with rfl | rfl <;> decide
  rw [continued, skipWs_line indent depth blank, accept, if_neg comma]
  dsimp only
  rw [accept, if_pos rfl]

/-- A comma continues it. -/
theorem continued_comma {β : Type} (close : Char)
    {entries : List Char → Except ParseError (List β × List Char)} {entry : β} {l : List β}
    {text rest : List Char} (h : entries text = .ok (l, rest)) :
    continued close entries entry (',' :: text) = .ok (entry :: l, rest) := by
  rw [continued, skipWs_cons rfl, accept, if_pos rfl]
  dsimp only
  rw [h]
  rfl

variable [Sample α]

/-- `strtod` reads the text of the number back, wherever `dump` puts it. -/
structure ReadsBack (n : α) : Prop where
  starts : ∃ c r, numberTo n = c :: r ∧ startsNumber c = true
  reads : ∀ rest, Ends rest →
    CNumber.strtod (numberTo n ++ rest) = (n, (numberTo n).length)

/-- Every number of the value is read back. -/
abbrev Value.Readable (v : Value α) : Prop := v.All ReadsBack

/-- With fuel enough, the value is read from what `dump_to` wrote, and the text after it left. -/
def Value.Read (v : Value α) : Prop :=
  ∀ (indent : Int) (depth : Nat), ∃ need, ∀ fuel, need ≤ fuel → ∀ rest, Ends rest →
    parseValue fuel (dumpTo indent depth v ++ rest) = .ok (v, rest)

theorem read_elements (indent : Int) (depth : Nat) :
    ∀ {arr : List (Value α)}, arr ≠ [] → (∀ v ∈ arr, v.Read) → ∃ need, ∀ fuel, need ≤ fuel →
      ∀ rest, parseElements fuel
        (dumpElements indent depth arr ++ (padding indent depth ++ ']' :: rest)) = .ok (arr, rest)
  | [v], _, read => by
      obtain ⟨need, hv⟩ := read v List.mem_cons_self indent (depth + 1)
      refine ⟨need + 2, fun fuel hf rest => ?_⟩
      obtain ⟨fuel, rfl⟩ := Nat.exists_eq_add_of_le' (Nat.le_of_add_left_le hf : 1 ≤ fuel)
      simp only [dumpElements, List.isEmpty_nil, if_true, List.append_nil, List.append_assoc]
      rw [parseElements, parseValue_skip (padding_blank indent _) (by omega),
        hv fuel (by omega) _ (ends_line indent depth (.inl rfl))]
      exact continued_close indent depth (.inl rfl) _ v rest
  | v :: w :: arr, _, read => by
      obtain ⟨need, hv⟩ := read v List.mem_cons_self indent (depth + 1)
      obtain ⟨need', ih⟩ := read_elements indent depth (List.cons_ne_nil w arr)
        fun u hu => read u (List.mem_cons_of_mem v hu)
      refine ⟨need + need' + 3, fun fuel hf rest => ?_⟩
      obtain ⟨fuel, rfl⟩ := Nat.exists_eq_add_of_le' (Nat.le_of_add_left_le hf : 1 ≤ fuel)
      rw [dumpElements]
      simp only [List.isEmpty_cons, Bool.false_eq_true, if_false, List.append_assoc,
        List.cons_append, List.nil_append]
      rw [parseElements, parseValue_skip (padding_blank indent _) (by omega),
        hv fuel (by omega) _ (.inr ⟨',', _, rfl, .inl rfl⟩)]
      have more := (parseElements_skip (newline_blank indent) (by omega) _).trans
        (ih fuel (by omega) rest)
      exact continued_comma ']' more

/-- The colon after a key, and the blank of a pretty text. -/
theorem colon_skip (indent : Int) (text : List Char) :
    ∃ blanks, (∀ c ∈ blanks, isBlank c = true) ∧
      (if 0 < indent then [':', ' '] else [':']) ++ text = ':' :: (blanks ++ text) := by
  split_ifs
  · exact ⟨[' '], by simp [isBlank], rfl⟩
  · exact ⟨[], by simp, rfl⟩

/-- A member's key, colon and value are read. -/
theorem read_member (indent : Int) (depth : Nat) {v : Value α} {need : Nat}
    (read : ∀ fuel, need ≤ fuel → ∀ rest, Ends rest →
      parseValue fuel (dumpTo indent (depth + 1) v ++ rest) = .ok (v, rest))
    {fuel : Nat} (hf : need + 1 ≤ fuel) (key : String) {rest : List Char} (ends : Ends rest) :
    parseMembers (fuel + 1) (padding indent (depth + 1) ++ (escape key ++
      ((if 0 < indent then [':', ' '] else [':']) ++ (dumpTo indent (depth + 1) v ++ rest))))
      = continued '\x7d' (parseMembers fuel) (key, v) rest := by
  obtain ⟨blanks, hblanks, colon⟩ := colon_skip indent (dumpTo indent (depth + 1) v ++ rest)
  have quote : ∀ text, skipWs (escape key ++ text) = escape key ++ text := fun text =>
    skipWs_cons rfl
  rw [colon, parseMembers, skipWs_append (padding_blank indent _), quote, parseString_escape]
  have colon : accept ':' (skipWs (':' :: (blanks ++ (dumpTo indent (depth + 1) v ++ rest))))
      = some (blanks ++ (dumpTo indent (depth + 1) v ++ rest)) := by
    rw [skipWs_cons rfl, accept, if_pos rfl]
  dsimp only [bind, Except.bind]
  rw [colon]
  dsimp only
  rw [parseValue_skip hblanks (by omega), read fuel (by omega) rest ends]

theorem read_members (indent : Int) (depth : Nat) :
    ∀ {obj : List (String × Value α)}, obj ≠ [] → (∀ kv ∈ obj, kv.2.Read) →
      ∃ need, ∀ fuel, need ≤ fuel → ∀ rest, parseMembers fuel
        (dumpMembers indent depth obj ++ (padding indent depth ++ '\x7d' :: rest)) = .ok (obj, rest)
  | [(key, v)], _, read => by
      obtain ⟨need, hv⟩ := read (key, v) List.mem_cons_self indent (depth + 1)
      refine ⟨need + 2, fun fuel hf rest => ?_⟩
      obtain ⟨fuel, rfl⟩ := Nat.exists_eq_add_of_le' (Nat.le_of_add_left_le hf : 1 ≤ fuel)
      simp only [dumpMembers, List.isEmpty_nil, if_true, List.append_nil, List.append_assoc]
      rw [read_member indent depth hv (by omega) key (ends_line indent depth (.inr rfl))]
      exact continued_close indent depth (.inr rfl) _ (key, v) rest
  | (key, v) :: w :: obj, _, read => by
      obtain ⟨need, hv⟩ := read (key, v) List.mem_cons_self indent (depth + 1)
      obtain ⟨need', ih⟩ := read_members indent depth (List.cons_ne_nil w obj)
        fun u hu => read u (List.mem_cons_of_mem _ hu)
      refine ⟨need + need' + 3, fun fuel hf rest => ?_⟩
      obtain ⟨fuel, rfl⟩ := Nat.exists_eq_add_of_le' (Nat.le_of_add_left_le hf : 1 ≤ fuel)
      rw [dumpMembers]
      simp only [List.isEmpty_cons, Bool.false_eq_true, if_false, List.append_assoc,
        List.cons_append, List.nil_append]
      have more := (parseMembers_skip (newline_blank indent) (by omega) _).trans
        (ih fuel (by omega) rest)
      rw [read_member indent depth hv (by omega) key (.inr ⟨',', _, rfl, .inl rfl⟩)]
      exact continued_comma '\x7d' more

/-! ### Values -/

/-- A number begins with a character that begins nothing else. -/
theorem ne_of_startsNumber {c d : Char} (hc : startsNumber c = true)
    (hd : startsNumber d = false) : c ≠ d := by
  rintro rfl
  rw [hc] at hd
  cases hd

theorem accept_ne {c d : Char} (h : c ≠ d) (r : List Char) : accept d (c :: r) = none := by
  rw [accept, if_neg h]

theorem read_number {n : α} (h : ReadsBack n) {fuel : Nat} (hf : 1 ≤ fuel) {rest : List Char}
    (ends : Ends rest) :
    parseValue fuel (numberTo n ++ rest) = .ok (.number n, rest) := by
  obtain ⟨c, r, hstart, hc⟩ := h.starts
  have other := fun d => ne_of_startsNumber (d := d) hc
  have blank : isBlank c = false := by
    simp [isBlank, other ' ' rfl, other '\t' rfl, other '\n' rfl, other '\r' rfl]
  have hread := h.reads rest ends
  have scalar : parseScalar (numberTo n ++ rest) = .ok (.number n, rest) := by
    rw [parseScalar, parseNumber, hread]
    simp only [hstart, List.cons_append, accept_ne (other '"' rfl), accept_ne (other 't' rfl),
      accept_ne (other 'f' rfl), accept_ne (other 'n' rfl), Option.isSome_none,
      List.head?_cons, Option.any_some, hc, List.length_cons, List.drop_succ_cons,
      List.drop_left, bind, Except.bind, pure, Except.pure, Bool.false_eq_true, if_false,
      if_true, Nat.add_one_ne_zero]
  rw [hstart, List.cons_append] at scalar ⊢
  exact read_scalar blank (other _ rfl) (other _ rfl) scalar hf

/-- No value begins with a blank or a closing bracket. -/
theorem Value.All.opens {v : Value α} (h : v.Readable) (indent : Int) (depth : Nat) :
    ∃ c r, dumpTo indent depth v = c :: r ∧ isBlank c = false ∧ c ≠ ']' := by
  cases h with
  | null => exact ⟨'n', _, rfl, rfl, by decide⟩
  | boolean b =>
      cases b
      · exact ⟨'f', _, rfl, rfl, by decide⟩
      · exact ⟨'t', _, rfl, rfl, by decide⟩
  | number h =>
      obtain ⟨c, r, hstart, hc⟩ := h.starts
      have other := fun d => ne_of_startsNumber (d := d) hc
      refine ⟨c, r, by rw [dumpTo, hstart], ?_, other _ rfl⟩
      simp [isBlank, other ' ' rfl, other '\t' rfl, other '\n' rfl, other '\r' rfl]
  | string s => exact ⟨'"', _, rfl, rfl, by decide⟩
  | @array arr _ =>
      rw [dumpTo]
      split
      · exact ⟨'[', _, rfl, rfl, by decide⟩
      · exact ⟨'[', _, rfl, rfl, by decide⟩
  | @object obj _ =>
      rw [dumpTo]
      split
      · exact ⟨'\x7b', _, rfl, rfl, by decide⟩
      · exact ⟨'\x7b', _, rfl, rfl, by decide⟩

theorem read_array {arr : List (Value α)} (readable : ∀ v ∈ arr, v.Readable)
    (read : ∀ v ∈ arr, v.Read) : (Value.array arr).Read := by
  intro indent depth
  cases arr with
  | nil => exact ⟨1, fun fuel hf rest _ => by
      obtain ⟨fuel, rfl⟩ := Nat.exists_eq_add_of_le' hf
      rfl⟩
  | cons v arr =>
      obtain ⟨need, entries⟩ := read_elements indent depth (List.cons_ne_nil v arr) read
      refine ⟨need + 3, fun fuel hf rest _ => ?_⟩
      obtain ⟨fuel, rfl⟩ := Nat.exists_eq_add_of_le' (Nat.le_of_add_left_le hf : 3 ≤ fuel)
      obtain ⟨c, r, hopen, blank, close⟩ :=
        (readable v List.mem_cons_self).opens indent (depth + 1)
      have first : ∀ X, accept ']' (skipWs (newline indent ++
          (dumpElements indent depth (v :: arr) ++ X))) = none := by
        intro X
        rw [dumpElements]
        simp only [List.append_assoc]
        rw [skipWs_append (newline_blank indent), skipWs_append (padding_blank indent _), hopen,
          List.cons_append, skipWs_cons blank, accept_ne close]
      have all := entries (fuel + 2) (by omega) rest
      rw [← parseElements_skip (newline_blank indent) (by omega), ← parseElements_skipWs] at all
      have body : bracketed ']' (parseElements (fuel + 2)) (newline indent ++
          (dumpElements indent depth (v :: arr) ++ (padding indent depth ++ ']' :: rest)))
          = .ok (v :: arr, rest) := by
        rw [bracketed, first]
        exact all
      rw [dumpTo]
      simp only [List.isEmpty_cons, Bool.false_eq_true, if_false, List.cons_append,
        List.append_assoc, List.nil_append]
      rw [parseValue, skipWs_cons rfl]
      dsimp only
      rw [if_neg (by decide), if_pos rfl, body]
      rfl

theorem read_object {obj : List (String × Value α)} (read : ∀ kv ∈ obj, kv.2.Read) :
    (Value.object obj).Read := by
  intro indent depth
  cases obj with
  | nil => exact ⟨1, fun fuel hf rest _ => by
      obtain ⟨fuel, rfl⟩ := Nat.exists_eq_add_of_le' hf
      rfl⟩
  | cons kv obj =>
      obtain ⟨key, v⟩ := kv
      obtain ⟨need, entries⟩ := read_members indent depth (List.cons_ne_nil (key, v) obj) read
      refine ⟨need + 3, fun fuel hf rest _ => ?_⟩
      obtain ⟨fuel, rfl⟩ := Nat.exists_eq_add_of_le' (Nat.le_of_add_left_le hf : 3 ≤ fuel)
      have first : ∀ X, accept '\x7d' (skipWs (newline indent ++
          (dumpMembers indent depth ((key, v) :: obj) ++ X))) = none := by
        intro X
        rw [dumpMembers]
        simp only [List.append_assoc]
        rw [skipWs_append (newline_blank indent), skipWs_append (padding_blank indent _)]
        rfl
      have all := entries (fuel + 2) (by omega) rest
      rw [← parseMembers_skip (newline_blank indent) (by omega), ← parseMembers_skipWs] at all
      have body : bracketed '\x7d' (parseMembers (fuel + 2)) (newline indent ++
          (dumpMembers indent depth ((key, v) :: obj) ++ (padding indent depth ++ '\x7d' :: rest)))
          = .ok ((key, v) :: obj, rest) := by
        rw [bracketed, first]
        exact all
      rw [dumpTo]
      simp only [List.isEmpty_cons, Bool.false_eq_true, if_false, List.cons_append,
        List.append_assoc, List.nil_append]
      rw [parseValue, skipWs_cons rfl]
      dsimp only
      rw [if_pos rfl, body]
      rfl

theorem read_string (s : String) : (Value.string s : Value α).Read := by
  refine fun _ _ => ⟨1, fun fuel hf rest _ => ?_⟩
  have scalar : parseScalar (escape s ++ rest) = .ok (Value.string (α := α) s, rest) := by
    have quote : (accept '"' (escape s ++ rest)).isSome = true := rfl
    rw [parseScalar, if_pos quote, parseString_escape]
    rfl
  exact read_scalar rfl (by decide) (by decide) scalar hf

theorem Value.All.read {v : Value α} (h : v.Readable) : v.Read := by
  induction h with
  | null =>
      exact fun _ _ => ⟨1, fun fuel hf rest _ => read_scalar rfl (by decide) (by decide) rfl hf⟩
  | boolean b =>
      refine fun _ _ => ⟨1, fun fuel hf rest _ => ?_⟩
      cases b
      · exact read_scalar rfl (by decide) (by decide) rfl hf
      · exact read_scalar rfl (by decide) (by decide) rfl hf
  | number h => exact fun _ _ => ⟨1, fun _ hf _ ends => read_number h hf ends⟩
  | string s => exact read_string s
  | array h ih => exact read_array h ih
  | object h ih => exact read_object ih

/-- **What is written is read back**, at every indentation. -/
theorem parse_dump {v : Value α} (h : v.Readable) (indent : Int) : parse (dump v indent) = .ok v := by
  obtain ⟨need, read⟩ := h.read indent 0
  have bound : 2 * (dump v indent).length + 1 ≤ 2 * (dump v indent).length + 2 := by omega
  have enough := parseValue_fuel (α := α) bound (Nat.le_max_left _ need)
  have done := read _ (Nat.le_max_right (2 * (dump v indent).length + 2) need) [] (.inl rfl)
  rw [List.append_nil, ← dump, enough] at done
  rw [parse, done]
  rfl

end Xrune.Json
