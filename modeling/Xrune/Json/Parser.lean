import Xrune.Json.Value

/-!
# Json — the parser

Recursive descent, strict.  The position is the text that is left; an error keeps it, and the
line number is counted from it at the end, as `parser::fail` does.  The recursion is bounded by
fuel, twice the length of the text, and more fuel never changes a result (`parseValue_fuel`).
-/

namespace Xrune.Json

/-- A failure, with the text that was left. -/
structure ParseError where
  rest : List Char
  message : String

variable {α : Type}

def isBlank (c : Char) : Bool := c == ' ' || c == '\t' || c == '\n' || c == '\r'

/-- `skip_ws`. -/
def skipWs (text : List Char) : List Char := text.dropWhile isBlank

/-- `if (peek() == c) ++pos`. -/
def accept (c : Char) : List Char → Option (List Char)
  | x :: rest => if x = c then some rest else none
  | []        => none

/-! ### Strings -/

def hexValue (c : Char) : Option Nat :=
  if '0' ≤ c ∧ c ≤ '9' then some (c.toNat - '0'.toNat)
  else if 'a' ≤ c ∧ c ≤ 'f' then some (c.toNat - 'a'.toNat + 10)
  else if 'A' ≤ c ∧ c ≤ 'F' then some (c.toNat - 'A'.toNat + 10)
  else none

/-- The value of the hexadecimal digits the text begins with. -/
def hexDigits (text : List Char) : Nat :=
  (text.takeWhile fun c => (hexValue c).isSome).foldl
    (fun n c => 16 * n + (hexValue c).getD 0) 0

/-- `strtoul(text, nullptr, 16)` as an `unsigned`: blanks, a sign and `0x` may precede the
digits, and a negative number wraps. -/
def strtoul16 (text : List Char) : Nat :=
  let text := text.dropWhile fun c => isBlank c || c.toNat == 11 || c.toNat == 12
  let negative := (accept '-' text).isSome
  let text := ((accept '-' text).orElse fun _ => accept '+' text).getD text
  let unprefixed := (accept '0' text).bind fun r =>
    (accept 'x' r).orElse fun _ => accept 'X' r
  let text := match unprefixed with
    | some (d :: r) => if (hexValue d).isSome then d :: r else text
    | _             => text
  if negative then (2 ^ 32 - hexDigits text) % 2 ^ 32 else hexDigits text

/-- The UTF-8 bytes of a code point. -/
def utf8 (code : Nat) : List Char :=
  if code < 0x80 then [Char.ofNat code]
  else if code < 0x800 then
    [Char.ofNat (0xC0 ||| code >>> 6), Char.ofNat (0x80 ||| (code &&& 0x3F))]
  else
    [Char.ofNat ((0xE0 ||| code >>> 12) % 256), Char.ofNat (0x80 ||| (code >>> 6 &&& 0x3F)),
      Char.ofNat (0x80 ||| (code &&& 0x3F))]

/-- The byte a one-letter escape stands for. -/
def unescape (e : Char) : Option Char :=
  if e = '"' then some '"'
  else if e = '\\' then some '\\'
  else if e = '/' then some '/'
  else if e = 'b' then some (Char.ofNat 8)
  else if e = 'f' then some (Char.ofNat 12)
  else if e = 'n' then some '\n'
  else if e = 'r' then some '\r'
  else if e = 't' then some '\t'
  else none

/-- The bytes up to the closing quote, and the text after it. -/
def parseChars : List Char → Except ParseError (List Char × List Char)
  | []     => .error ⟨[], "unterminated string"⟩
  | c :: r =>
      if c = '"' then .ok ([], r)
      else if c ≠ '\\' then do
        let (cs, rest) ← parseChars r
        return (c :: cs, rest)
      else
        match r with
        | []     => .error ⟨[], "unterminated escape"⟩
        | e :: r =>
            if e = 'u' then
              match r with
              | a :: b :: x :: y :: r => do
                  let (cs, rest) ← parseChars r
                  return (utf8 (strtoul16 [a, b, x, y]) ++ cs, rest)
              | r => .error ⟨r, "bad \\u escape"⟩
            else
              match unescape e with
              | some x => do
                  let (cs, rest) ← parseChars r
                  return (x :: cs, rest)
              | none => .error ⟨r, "invalid escape"⟩

def parseString (text : List Char) : Except ParseError (String × List Char) :=
  match accept '"' text with
  | none   => .error ⟨text, "expected string"⟩
  | some r => do
      let (cs, rest) ← parseChars r
      return (String.ofList cs, rest)

/-! ### Values -/

def literal (lit : String) (text : List Char) : Except ParseError (List Char) :=
  if lit.toList.isPrefixOf text then .ok (text.drop lit.toList.length)
  else .error ⟨text, "expected '" ++ lit ++ "'"⟩

/-- Whether a value that begins with the character is a number. -/
def startsNumber (c : Char) : Bool := c == '-' || ('0' ≤ c && c ≤ '9')

variable [CNumber α]

def parseNumber (text : List Char) : Except ParseError (α × List Char) :=
  let (d, taken) := CNumber.strtod text
  if taken = 0 then .error ⟨text, "bad number"⟩ else .ok (d, text.drop taken)

/-- A value that is neither an object nor an array; the text is not empty. -/
def parseScalar (text : List Char) : Except ParseError (Value α × List Char) :=
  if (accept '"' text).isSome then do
    let (s, rest) ← parseString text
    return (.string s, rest)
  else if (accept 't' text).isSome then do
    let rest ← literal "true" text
    return (.boolean true, rest)
  else if (accept 'f' text).isSome then do
    let rest ← literal "false" text
    return (.boolean false, rest)
  else if (accept 'n' text).isSome then do
    let rest ← literal "null" text
    return (.null, rest)
  else if text.head?.any startsNumber then do
    let (d, rest) ← parseNumber text
    return (.number d, rest)
  else .error ⟨text, "unexpected character"⟩

/-- After an opening bracket: the closing one at once, or the entries. -/
def bracketed {β : Type} (close : Char)
    (entries : List Char → Except ParseError (List β × List Char)) (text : List Char) :
    Except ParseError (List β × List Char) :=
  match accept close (skipWs text) with
  | some rest => .ok ([], rest)
  | none      => entries (skipWs text)

/-- After an entry: a comma and more of them, or the closing bracket. -/
def continued {β : Type} (close : Char)
    (entries : List Char → Except ParseError (List β × List Char)) (entry : β)
    (text : List Char) : Except ParseError (List β × List Char) :=
  match accept ',' (skipWs text) with
  | some r => do
      let (l, rest) ← entries r
      return (entry :: l, rest)
  | none   =>
      match accept close (skipWs text) with
      | some rest => .ok ([entry], rest)
      | none      => .error ⟨skipWs text, "expected ',' or '" ++ String.singleton close ++ "'"⟩

mutual

def parseValue : Nat → List Char → Except ParseError (Value α × List Char)
  | 0, text        => .error ⟨text, "unexpected end of input"⟩
  | fuel + 1, text =>
      match skipWs text with
      | []     => .error ⟨[], "unexpected end of input"⟩
      | c :: r =>
          if c = '\x7b' then do
            let (obj, rest) ← bracketed '\x7d' (parseMembers fuel) r
            return (.object obj, rest)
          else if c = '[' then do
            let (arr, rest) ← bracketed ']' (parseElements fuel) r
            return (.array arr, rest)
          else parseScalar (c :: r)

/-- The members of an object, and the text after its closing brace. -/
def parseMembers : Nat → List Char → Except ParseError (List (String × Value α) × List Char)
  | 0, text        => .error ⟨text, "unexpected end of input"⟩
  | fuel + 1, text => do
      let (key, r) ← parseString (skipWs text)
      match accept ':' (skipWs r) with
      | none   => .error ⟨skipWs r, "expected ':'"⟩
      | some r => do
          let (v, r) ← parseValue fuel r
          continued '\x7d' (parseMembers fuel) (key, v) r

/-- The elements of an array, and the text after its closing bracket. -/
def parseElements : Nat → List Char → Except ParseError (List (Value α) × List Char)
  | 0, text        => .error ⟨text, "unexpected end of input"⟩
  | fuel + 1, text => do
      let (v, r) ← parseValue fuel text
      continued ']' (parseElements fuel) v r

end

/-- `fail`: the message, with the line it was met on. -/
def ParseError.text (e : ParseError) (src : List Char) : String :=
  "line " ++ toString (1 + (src.take (src.length - e.rest.length)).count '\n') ++ ": " ++ e.message

/-- `json::parse`. -/
def parse (text : List Char) : Except String (Value α) :=
  match parseValue (2 * text.length + 2) text with
  | .error e      => .error (e.text text)
  | .ok (v, rest) =>
      if (skipWs rest).isEmpty then .ok v else .error "trailing content after top-level value"

end Xrune.Json
