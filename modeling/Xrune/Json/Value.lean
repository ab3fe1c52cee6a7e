import Xrune.Core.Sample

/-!
# Json — values and their text

The value type and the writer.  A text is the list of its bytes, each a `Char`; a string of the
program is a `String` of such characters.  How a number is printed, and how far `strtod` reads,
is up to the C library (`CNumber`).
-/

namespace Xrune.Json

/-- What the C library does with numbers: `std::isfinite`, `std::floor`, `snprintf` of `%.*g` at
a precision, and `strtod` with the number of characters it took. -/
class CNumber (α : Type) where
  isFinite : α → Bool
  floor : α → α
  printG : Nat → α → List Char
  strtod : List Char → α × Nat

/-- `json::value`.  Objects keep their insertion order. -/
inductive Value (α : Type) where
  | null
  | boolean (b : Bool)
  | number (n : α)
  | string (s : String)
  | array (arr : List (Value α))
  | object (obj : List (String × Value α))

variable {α : Type}

namespace Value

/-- `is_array()`, with the elements. -/
def elements? : Value α → Option (List (Value α))
  | .array arr => some arr
  | _          => none

/-- `is_object()`, with the members. -/
def members? : Value α → Option (List (String × Value α))
  | .object obj => some obj
  | _           => none

def find (v : Value α) (key : String) : Option (Value α) :=
  match v with
  | .object obj => (obj.find? fun kv => kv.1 == key).map Prod.snd
  | _           => none

/-- `static_cast<long>(std::llround(n))`. -/
def toLong [Sample α] (n : α) : Int := (Sample.llround n).bmod (2 ^ 64)

def integer [Sample α] (v : Value α) (key : String) (default : Int) : Int :=
  match v.find key with
  | some (.number n) => toLong n
  | _                => default

def text (v : Value α) (key : String) : String :=
  match v.find key with
  | some (.string s) => s
  | _                => ""

end Value

/-! ### The numbers of a value -/

/-- Every number of the value meets `P`. -/
inductive Value.All (P : α → Prop) : Value α → Prop
  | null : All P .null
  | boolean (b : Bool) : All P (.boolean b)
  | number {n : α} (h : P n) : All P (.number n)
  | string (s : String) : All P (.string s)
  | array {arr : List (Value α)} (h : ∀ v ∈ arr, All P v) : All P (.array arr)
  | object {obj : List (String × Value α)} (h : ∀ kv ∈ obj, All P kv.2) : All P (.object obj)

theorem Value.All.mono {P Q : α → Prop} (sub : ∀ n, P n → Q n) {v : Value α} (h : v.All P) :
    v.All Q := by
  induction h with
  | null => exact .null
  | boolean b => exact .boolean b
  | number h => exact .number (sub _ h)
  | string s => exact .string s
  | array _ ih => exact .array ih
  | object _ ih => exact .object ih

section All

variable {P : α → Prop}

@[simp] theorem Value.all_string (s : String) : (Value.string s).All P := .string s

@[simp] theorem Value.all_boolean (b : Bool) : (Value.boolean b).All P := .boolean b

@[simp] theorem Value.all_number {n : α} : (Value.number n).All P ↔ P n :=
  ⟨fun h => by cases h with | number h => exact h, .number⟩

@[simp] theorem Value.all_array {arr : List (Value α)} :
    (Value.array arr).All P ↔ ∀ v ∈ arr, v.All P :=
  ⟨fun h => by cases h with | array h => exact h, .array⟩

@[simp] theorem Value.all_object {obj : List (String × Value α)} :
    (Value.object obj).All P ↔ ∀ kv ∈ obj, kv.2.All P :=
  ⟨fun h => by cases h with | object h => exact h, .object⟩

end All

/-! ### Writing -/

/-- A byte, escaped where JSON requires it. -/
def escapeChar (c : Char) : List Char :=
  if c = '"' then ['\\', '"']
  else if c = '\\' then ['\\', '\\']
  else if c = '\n' then ['\\', 'n']
  else if c = '\r' then ['\\', 'r']
  else if c = '\t' then ['\\', 't']
  else if c.toNat < 0x20 then
    -- `\u%04x`
    ['\\', 'u', '0', '0', Nat.digitChar (c.toNat / 16), Nat.digitChar (c.toNat % 16)]
  else [c]

/-- `escape_to`. -/
def escape (s : String) : List Char := '"' :: s.toList.flatMap escapeChar ++ ['"']

/-- The line break and the padding of a pretty text; a compact one has neither. -/
def newline (indent : Int) : List Char := if 0 < indent then ['\n'] else []

def padding (indent : Int) (depth : Nat) : List Char :=
  if 0 < indent then List.replicate (indent.toNat * depth) ' ' else []

variable [Sample α] [CNumber α]

/-- `%lld`. -/
def printLld (i : Int) : List Char :=
  if i < 0 then '-' :: Nat.toDigits 10 i.natAbs else Nat.toDigits 10 i.natAbs

/-- `number_to`: an integer without a decimal point, any other number at the least precision
that reads back, up to 17 digits. -/
def numberTo (n : α) : List Char :=
  if CNumber.isFinite n && Sample.same n (CNumber.floor n)
      && Sample.lt (Sample.fabs n) (Sample.cast (10 ^ 15)) then
    printLld (Value.toLong n)
  else
    let exact (prec : Nat) : Bool := Sample.same (CNumber.strtod (CNumber.printG prec n)).1 n
    if exact 15 then CNumber.printG 15 n
    else if exact 16 then CNumber.printG 16 n
    else CNumber.printG 17 n

mutual

/-- `dump_to`. -/
def dumpTo (indent : Int) (depth : Nat) : Value α → List Char
  | .null       => ['n', 'u', 'l', 'l']
  | .boolean b  => if b then ['t', 'r', 'u', 'e'] else ['f', 'a', 'l', 's', 'e']
  | .number n   => numberTo n
  | .string s   => escape s
  | .array arr  =>
      if arr.isEmpty then ['[', ']']
      else '[' :: newline indent ++ dumpElements indent depth arr ++ padding indent depth ++ [']']
  | .object obj =>
      if obj.isEmpty then ['{', '}']
      else '{' :: newline indent ++ dumpMembers indent depth obj ++ padding indent depth ++ ['}']

/-- The loop over the elements: each on a line of its own, a comma after all but the last. -/
def dumpElements (indent : Int) (depth : Nat) : List (Value α) → List Char
  | []       => []
  | v :: arr =>
      padding indent (depth + 1) ++ dumpTo indent (depth + 1) v
        ++ (if arr.isEmpty then [] else [',']) ++ newline indent ++ dumpElements indent depth arr

def dumpMembers (indent : Int) (depth : Nat) : List (String × Value α) → List Char
  | []              => []
  | (key, v) :: obj =>
      padding indent (depth + 1) ++ escape key
        ++ (if 0 < indent then [':', ' '] else [':']) ++ dumpTo indent (depth + 1) v
        ++ (if obj.isEmpty then [] else [',']) ++ newline indent ++ dumpMembers indent depth obj

end

/-- `json::dump`. -/
def dump (v : Value α) (indent : Int) : List Char := dumpTo indent 0 v

end Xrune.Json
