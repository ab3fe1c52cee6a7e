import Xrune.Json.Parser

/-!
# Json — the grammar

The grammar of JSON texts over a dialect, which says what the lexical elements are: the
characters that stand for themselves in a string, the four characters after `\u`, and the
numbers.

* `Dialect.strict` — RFC 8259.
* `Dialect.loose` — any character but a quote and a backslash, any four characters, and the
  numbers of C (`CNum`), as far as they begin with a minus sign or a digit.
* `text_mono` — a text of a dialect is one of every looser dialect.
-/

namespace Xrune.Json

structure Dialect where
  plain : Char → Prop
  code : List Char → Prop
  number : List Char → Prop

/-- The parts of a text that the grammar derives. -/
inductive Part where
  | value | elements | members

/-- Blanks only. -/
def Blank (ws : List Char) : Prop := ∀ c ∈ ws, isBlank c = true

/-! ### The rules -/

namespace Dialect

variable (D : Dialect)

/-- What stands between the quotes of a string. -/
inductive Chars : List Char → Prop where
  | nil : Chars []
  | plain {c : Char} {cs : List Char} (h : D.plain c) (quote : c ≠ '"') (escape : c ≠ '\\')
      (rest : Chars cs) : Chars (c :: cs)
  | escaped {e : Char} {cs : List Char} (h : e ∈ "\"\\/bfnrt".toList) (rest : Chars cs) :
      Chars ('\\' :: e :: cs)
  | code {a b x y : Char} {cs : List Char} (h : D.code [a, b, x, y]) (rest : Chars cs) :
      Chars ('\\' :: 'u' :: a :: b :: x :: y :: cs)

def Quoted (w : List Char) : Prop := ∃ cs, D.Chars cs ∧ w = '"' :: cs ++ ['"']

inductive Derives : Part → List Char → Prop where
  | string {w : List Char} (h : D.Quoted w) : Derives .value w
  | literal {lit : String} (h : lit ∈ ["true", "false", "null"]) : Derives .value lit.toList
  | number {w : List Char} (h : D.number w) : Derives .value w
  | emptyArray {ws : List Char} (h : Blank ws) : Derives .value ('[' :: ws ++ [']'])
  | array {w : List Char} (h : Derives .elements w) : Derives .value ('[' :: w ++ [']'])
  | emptyObject {ws : List Char} (h : Blank ws) : Derives .value ('\x7b' :: ws ++ ['\x7d'])
  | object {w : List Char} (h : Derives .members w) : Derives .value ('\x7b' :: w ++ ['\x7d'])
  | element {ws ws' v : List Char} (h : Blank ws) (value : Derives .value v) (h' : Blank ws') :
      Derives .elements (ws ++ v ++ ws')
  | elements {ws ws' v w : List Char} (h : Blank ws) (value : Derives .value v) (h' : Blank ws')
      (more : Derives .elements w) : Derives .elements (ws ++ v ++ ws' ++ ',' :: w)
  | member {ws ws' vs vs' key v : List Char} (h : Blank ws) (quoted : D.Quoted key)
      (h' : Blank ws') (g : Blank vs) (value : Derives .value v) (g' : Blank vs') :
      Derives .members (ws ++ key ++ ws' ++ ':' :: (vs ++ v ++ vs'))
  | members {ws ws' vs vs' key v w : List Char} (h : Blank ws) (quoted : D.Quoted key)
      (h' : Blank ws') (g : Blank vs) (value : Derives .value v) (g' : Blank vs')
      (more : Derives .members w) :
      Derives .members (ws ++ key ++ ws' ++ ':' :: (vs ++ v ++ vs' ++ ',' :: w))

/-- One value, with blanks around it. -/
def Text (text : List Char) : Prop :=
  ∃ ws v ws', Blank ws ∧ D.Derives .value v ∧ Blank ws' ∧ text = ws ++ v ++ ws'

/-- What `D` takes for a lexical element `D'` takes too. -/
structure Below (D D' : Dialect) : Prop where
  plain : ∀ c, D.plain c → D'.plain c
  code : ∀ w, D.code w → D'.code w
  number : ∀ w, D.number w → D'.number w

variable {D} {D' : Dialect}

theorem Chars.mono (le : Below D D') {cs : List Char} (h : D.Chars cs) : D'.Chars cs := by
  induction h with
  | nil => exact .nil
  | plain h quote escape _ ih => exact .plain (le.plain _ h) quote escape ih
  | escaped h _ ih => exact .escaped h ih
  | code h _ ih => exact .code (le.code _ h) ih

theorem Quoted.mono (le : Below D D') {w : List Char} (h : D.Quoted w) : D'.Quoted w := by
  obtain ⟨cs, chars, rfl⟩ := h
  exact ⟨cs, chars.mono le, rfl⟩

theorem Derives.mono (le : Below D D') {part : Part} {w : List Char} (h : D.Derives part w) :
    D'.Derives part w := by
  induction h with
  | string h => exact .string (h.mono le)
  | literal h => exact .literal h
  | number h => exact .number (le.number _ h)
  | emptyArray h => exact .emptyArray h
  | array _ ih => exact .array ih
  | emptyObject h => exact .emptyObject h
  | object _ ih => exact .object ih
  | element h _ h' ih => exact .element h ih h'
  | elements h _ h' _ ih more => exact .elements h ih h' more
  | member h quoted h' g _ g' ih => exact .member h (quoted.mono le) h' g ih g'
  | members h quoted h' g _ g' _ ih more => exact .members h (quoted.mono le) h' g ih g' more

/-- **A text of a dialect is one of every looser dialect.** -/
theorem text_mono (le : Below D D') {text : List Char} (h : D.Text text) : D'.Text text := by
  obtain ⟨ws, v, ws', blank, value, blank', rfl⟩ := h
  exact ⟨ws, v, ws', blank, value.mono le, blank', rfl⟩

end Dialect

/-! ### Numbers -/

def Digits (digit : Char → Bool) (w : List Char) : Prop := w ≠ [] ∧ ∀ c ∈ w, digit c = true

/-- A marker, a sign or none, and digits; or nothing. -/
def Exponent (markers : List Char) (w : List Char) : Prop :=
  w = [] ∨ ∃ e s ds, e ∈ markers ∧ s ∈ [[], ['+'], ['-']] ∧ Digits Char.isDigit ds ∧
    w = e :: (s ++ ds)

/-- The digits of an integer: no zero stands before others. -/
def IntPart (w : List Char) : Prop :=
  w = ['0'] ∨ ∃ c ds, c.isDigit = true ∧ c ≠ '0' ∧ (∀ d ∈ ds, Char.isDigit d = true) ∧ w = c :: ds

def FracPart (w : List Char) : Prop := w = [] ∨ ∃ ds, Digits Char.isDigit ds ∧ w = '.' :: ds

/-- A number of RFC 8259. -/
def StrictNum (w : List Char) : Prop :=
  ∃ s i f x, s ∈ [[], ['-']] ∧ IntPart i ∧ FracPart f ∧ Exponent ['e', 'E'] x ∧
    w = s ++ (i ++ (f ++ x))

/-- Digits with a point among them or none. -/
def Mantissa (digit : Char → Bool) (w : List Char) : Prop :=
  Digits digit w ∨ ∃ a b, Digits digit (a ++ b) ∧ w = a ++ '.' :: b

/-- The word, in upper or lower case letters. -/
def AnyCase (word : String) (w : List Char) : Prop :=
  List.Forall₂ (fun c l : Char => c = l ∨ c = l.toUpper) w word.toList

/-- The subject sequences of `strtod`, as the C standard has them. -/
inductive CNum : List Char → Prop where
  | decimal {s m x : List Char} (sign : s ∈ [[], ['+'], ['-']]) (mantissa : Mantissa Char.isDigit m)
      (exponent : Exponent ['e', 'E'] x) : CNum (s ++ (m ++ x))
  | hex {s m x : List Char} {marker : Char} (sign : s ∈ [[], ['+'], ['-']])
      (prefixed : marker ∈ ['x', 'X']) (mantissa : Mantissa (fun c => (hexValue c).isSome) m)
      (exponent : Exponent ['p', 'P'] x) : CNum (s ++ ('0' :: marker :: (m ++ x)))
  | infinity {s w : List Char} (sign : s ∈ [[], ['+'], ['-']])
      (word : AnyCase "inf" w ∨ AnyCase "infinity" w) : CNum (s ++ w)
  | nan {s w : List Char} (sign : s ∈ [[], ['+'], ['-']]) (word : AnyCase "nan" w) : CNum (s ++ w)
  | nanSeq {s w n : List Char} (sign : s ∈ [[], ['+'], ['-']]) (word : AnyCase "nan" w)
      (chars : ∀ c ∈ n, c.isAlphanum = true ∨ c = '_') : CNum (s ++ (w ++ '(' :: (n ++ [')'])))

def Dialect.strict : Dialect where
  plain c := 0x20 ≤ c.toNat
  code w := w.length = 4 ∧ ∀ c ∈ w, (hexValue c).isSome = true
  number := StrictNum

def Dialect.loose : Dialect where
  plain _ := True
  code w := w.length = 4
  number w := CNum w ∧ w.head?.any startsNumber = true

end Xrune.Json
