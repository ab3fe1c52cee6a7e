import Xrune.Json.Value
import Xrune.Lang.Ast

/-!
# Lang — the lexer

Hand-written, longest match.  A source text is the list of its bytes, each a `Char`, and a
position in it is the text that is left.  Newline tokens stand only where they end a statement:
not inside brackets, and not after an operator that continues the line.

Each loop is given the length of the text that is left, and one more where a turn may take
nothing; it never needs more turns (`Lexer.skip_stops`, `lex_eq_some`).
-/

namespace Xrune.Lang

open Json (CNumber)

/-- `token`.  `text` is the identifier, the string, or the raw text of a number. -/
structure Token (α : Type) where
  kind : Tok
  text : String := ""
  number : α
  pos : Pos

/-- `tok_name`. -/
def tokName : Tok → String
  | .end => "end-of-input"
  | .newline => "newline"
  | .ident => "identifier"
  | .number => "number"
  | .string => "string"
  | .kwRune => "'rune'"
  | .kwSigil => "'sigil'"
  | .kwEnd => "'end'"
  | .kwInput => "'input'"
  | .kwOut => "'out'"
  | .kwAs => "'as'"
  | .kwTrue => "'true'"
  | .kwFalse => "'false'"
  | .lParen => "'('"
  | .rParen => "')'"
  | .lBracket => "'['"
  | .rBracket => "']'"
  | .assign => "'='"
  | .comma => "','"
  | .dot => "'.'"
  | .colon => "':'"
  | .split => "'<:'"
  | .merge => "':>'"
  | .modulate => "'~>'"
  | .arrow => "'->'"
  | .plus => "'+'"
  | .minus => "'-'"
  | .star => "'*'"
  | .slash => "'/'"
  | .percent => "'%'"
  | .bang => "'!'"
  | .tilde => "'~'"
  | .unknown => "unknown token"

/-- The operators after which a newline continues the line. -/
def continuesLine : Tok → Bool
  | .lParen | .lBracket | .assign | .comma | .dot | .colon | .split | .merge | .modulate
  | .arrow | .plus | .minus | .star | .slash | .percent | .tilde => true
  | _ => false

/-- `lexer`. -/
structure Lexer where
  text : List Char
  line : Nat := 1
  col : Nat := 1
  bracketDepth : Nat := 0
  last : Tok := .newline
  diags : List Diagnostic := []

/-- `'\0'`, which also stands for the end of the text. -/
def nul : Char := Char.ofNat 0

def isXDigit (c : Char) : Bool :=
  c.isDigit || ('a' ≤ c && c ≤ 'f') || ('A' ≤ c && c ≤ 'F')

def isIdent (c : Char) : Bool := c.isAlphanum || c == '_'

namespace Lexer

def cur (s : Lexer) : Char := s.text.headD nul

def peek (s : Lexer) : Char := s.text.tail.headD nul

def pos (s : Lexer) : Pos := ⟨s.line, s.col⟩

def advance (s : Lexer) : Lexer :=
  match s.text with
  | []     => s
  | c :: r =>
      if c = '\n' then { s with text := r, line := s.line + 1, col := 1 }
      else { s with text := r, col := s.col + 1 }

def error (s : Lexer) (m : String) (pos : Pos) : Lexer :=
  { s with diags := s.diags ++ [⟨m, pos⟩] }

/-- `while (cur() && p(cur(), peek())) advance()`, in so many turns at most. -/
def skipIn (p : Char → Char → Bool) : Nat → Lexer → Lexer
  | 0, s     => s
  | n + 1, s => if s.cur ≠ nul ∧ p s.cur s.peek then skipIn p n s.advance else s

def skip (s : Lexer) (p : Char → Char → Bool) : Lexer := skipIn p s.text.length s

/-- `src.substr(start, i - start)`, where the position was `s` at `start` and is `t` at `i`. -/
def between (s t : Lexer) : String :=
  String.ofList (s.text.take (s.text.length - t.text.length))

/-- The characters of a string up to its closing quote; a backslash takes the next one as it
is. -/
def stringChars (opening : Pos) : Nat → Lexer → List Char × Lexer
  | 0, s     => ([], s)
  | n + 1, s =>
      if s.cur = nul ∨ s.cur = '"' then ([], s)
      else if s.cur = '\\' ∧ s.peek ≠ nul then
        let r := stringChars opening n s.advance.advance
        (s.peek :: r.1, r.2)
      else if s.cur = '\n' then ([], s.error "unterminated string" opening)
      else
        let r := stringChars opening n s.advance
        (s.cur :: r.1, r.2)

section Tokens

variable {α : Type} [Sample α]

def make (k : Tok) (pos : Pos) (text : String) : Token α := ⟨k, text, 0, pos⟩

def string (s : Lexer) : Token α × Lexer :=
  let opened := s.advance
  let (chars, t) := stringChars s.pos opened.text.length opened
  (make .string s.pos (String.ofList chars),
    if t.cur = '"' then t.advance else t.error "unterminated string" s.pos)

def keyword (text : String) : Tok :=
  if text = "rune" then .kwRune
  else if text = "sigil" then .kwSigil
  else if text = "end" then .kwEnd
  else if text = "input" then .kwInput
  else if text = "out" then .kwOut
  else if text = "as" then .kwAs
  else if text = "true" then .kwTrue
  else if text = "false" then .kwFalse
  else .ident

def ident (s : Lexer) : Token α × Lexer :=
  let t := s.skip fun c _ => isIdent c
  let text := between s t
  (make (keyword text) s.pos text, t)

def digits (s : Lexer) : Lexer := s.skip fun c _ => c.isDigit

/-- Past the digits of a number, and those after its point. -/
def mantissa (s : Lexer) : Lexer :=
  let t := s.digits
  if t.cur = '.' then t.advance.digits else t

/-- Past the exponent of a number, if there is one. -/
def exponent (s : Lexer) : Lexer :=
  if s.cur = 'e' ∨ s.cur = 'E' then
    let t := s.advance
    (if t.cur = '+' ∨ t.cur = '-' then t.advance else t).digits
  else s

def numberEnd (s : Lexer) : Lexer :=
  if s.cur = '0' ∧ (s.peek = 'x' ∨ s.peek = 'X') then
    s.advance.advance.skip fun c _ => isXDigit c
  else s.mantissa.exponent

def number [CNumber α] (s : Lexer) : Token α × Lexer :=
  let t := s.numberEnd
  let text := between s t
  (⟨.number, text, (CNumber.strtod text.toList).1, s.pos⟩, t)

/-- The operator at the position: the longest match. -/
def operator (s : Lexer) : Token α × Lexer :=
  let one (k : Tok) : Token α × Lexer := (make k s.pos "", s.advance)
  let two (k : Tok) : Token α × Lexer := (make k s.pos "", s.advance.advance)
  let opening (k : Tok) : Token α × Lexer :=
    (make k s.pos "", { s.advance with bracketDepth := s.bracketDepth + 1 })
  let close (k : Tok) : Token α × Lexer :=
    (make k s.pos "", { s.advance with bracketDepth := s.bracketDepth - 1 })
  let bad (m : String) : Token α × Lexer := (make .unknown s.pos "", s.advance.error m s.pos)
  match s.cur with
  | '<' => if s.peek = ':' then two .split else bad "unexpected '<' (did you mean '<:' ?)"
  | ':' => if s.peek = '>' then two .merge else one .colon
  | '~' => if s.peek = '>' then two .modulate else one .tilde
  | '-' => if s.peek = '>' then two .arrow else one .minus
  | '(' => opening .lParen
  | ')' => close .rParen
  | '[' => opening .lBracket
  | ']' => close .rBracket
  | '=' => one .assign
  | ',' => one .comma
  | '.' => one .dot
  | '+' => one .plus
  | '*' => one .star
  | '/' => one .slash
  | '%' => one .percent
  | '!' => one .bang
  | c   => bad ("unexpected character '" ++ c.toString ++ "'")

/-- Blanks, comments and continued lines.  The token is the newline that ends a statement, or
the end that an unterminated comment brings on. -/
def blanks : Nat → Lexer → Option (Option (Token α) × Lexer)
  | 0, _     => none
  | n + 1, s =>
      if s.cur = '\n' then
        if 0 < s.bracketDepth ∨ continuesLine s.last then blanks n s.advance
        else some (some (make .newline s.pos ""), s.advance)
      else if s.cur = ' ' ∨ s.cur = '\t' ∨ s.cur = '\r' then blanks n s.advance
      else if s.cur = '/' ∧ s.peek = '/' then blanks n (s.skip fun c _ => c != '\n')
      else if s.cur = '/' ∧ s.peek = '*' then
        let t := s.advance.advance.skip fun c d => !(c == '*' && d == '/')
        if t.cur = nul then
          some (some (make .end t.pos ""), t.error "unterminated block comment" s.pos)
        else blanks n t.advance.advance
      else some (none, s)

variable [CNumber α]

/-- The token at the position. -/
def scan (s : Lexer) : Token α × Lexer :=
  if s.text = [] then (make .end s.pos "", s)
  else if s.cur.isDigit ∨ (s.cur = '.' ∧ s.peek.isDigit) then s.number
  else if s.cur.isAlpha ∨ s.cur = '_' then s.ident
  else if s.cur = '"' then s.string
  else s.operator

def next (s : Lexer) : Option (Token α × Lexer) :=
  (blanks (s.text.length + 1) s).map fun r =>
    match r.1 with
    | some t => (t, r.2)
    | none   => r.2.scan

/-- `run`: consecutive newlines collapse, and a leading one is dropped. -/
def run : Nat → List (Token α) → Lexer → Option (List (Token α) × Lexer)
  | 0, _, _       => none
  | n + 1, out, s =>
      s.next.bind fun (t, s) =>
        if t.kind = .newline then
          if out.getLast?.all fun b => b.kind == .newline then run n out s
          else run n (out ++ [t]) s
        else
          let s := { s with last := t.kind }
          if t.kind = .end then some (out ++ [t], s) else run n (out ++ [t]) s

end Tokens

end Lexer

def lex {α : Type} [Sample α] [CNumber α] (src : List Char) :
    Option (List (Token α) × List Diagnostic) :=
  (Lexer.run (src.length + 1) [] { text := src }).map fun r => (r.1, r.2.diags)

/-! ### Progress -/

namespace Lexer

theorem advance_lt {s : Lexer} (more : s.text ≠ []) :
    s.advance.text.length < s.text.length := by
  unfold advance
  cases hs : s.text with
  | nil => exact absurd hs more
  | cons c r =>
      dsimp only
      split_ifs <;> exact Nat.lt_succ_self _

theorem cur_ne_nul {s : Lexer} (h : s.cur ≠ nul) : s.advance.text.length < s.text.length := by
  refine advance_lt fun nothing => h ?_
  rw [cur, nothing]
  rfl

theorem advance_le (s : Lexer) : s.advance.text.length ≤ s.text.length := by
  unfold advance
  cases hs : s.text with
  | nil => rw [hs]
  | cons c r =>
      dsimp only
      split_ifs <;> exact Nat.le_succ _

theorem skipIn_le (p : Char → Char → Bool) :
    ∀ (n : Nat) (s : Lexer), (skipIn p n s).text.length ≤ s.text.length
  | 0, _     => le_rfl
  | n + 1, s => by
      rw [skipIn]
      split_ifs
      · exact (skipIn_le p n s.advance).trans s.advance_le
      · exact le_rfl

theorem skip_le (s : Lexer) (p : Char → Char → Bool) :
    (s.skip p).text.length ≤ s.text.length := skipIn_le p _ s

/-- The loop ends because its condition fails, and not for want of turns. -/
theorem skip_stops (s : Lexer) (p : Char → Char → Bool) :
    ¬((s.skip p).cur ≠ nul ∧ p (s.skip p).cur (s.skip p).peek) := by
  have along : ∀ (n : Nat) (s : Lexer), s.text.length ≤ n →
      ¬((skipIn p n s).cur ≠ nul ∧ p (skipIn p n s).cur (skipIn p n s).peek) := by
    intro n
    induction n with
    | zero =>
        rintro s hs ⟨more, -⟩
        exact absurd (cur_ne_nul more) (by simp only [skipIn]; omega)
    | succ n ih =>
        intro s hs
        rw [skipIn]
        split_ifs with h
        · exact ih s.advance (by have := cur_ne_nul h.1; omega)
        · exact h
  exact along _ s le_rfl

theorem stringChars_le (opening : Pos) :
    ∀ (n : Nat) (s : Lexer), (stringChars opening n s).2.text.length ≤ s.text.length
  | 0, _     => le_rfl
  | n + 1, s => by
      rw [stringChars]
      split_ifs
      · exact le_rfl
      · exact (stringChars_le opening n _).trans
          ((advance_le _).trans s.advance_le)
      · exact le_rfl
      · exact (stringChars_le opening n _).trans s.advance_le

/-- The loop over a string ends at a quote, at the end of the line or of the text. -/
theorem stringChars_stops (opening : Pos) (s : Lexer) :
    (stringChars opening s.text.length s).2.cur ∈ [nul, '"', '\n'] := by
  have along : ∀ (n : Nat) (s : Lexer), s.text.length ≤ n →
      (stringChars opening n s).2.cur ∈ [nul, '"', '\n'] := by
    intro n
    induction n with
    | zero =>
        intro s hs
        have empty : s.text = [] := List.length_eq_zero_iff.mp (Nat.le_zero.mp hs)
        simp [stringChars, cur, empty]
    | succ n ih =>
        intro s hs
        rw [stringChars]
        split_ifs with h₁ h₂ h₃
        · rcases h₁ with h | h <;> simp [h]
        · have one := cur_ne_nul (not_or.mp h₁).1
          have := s.advance.advance_le
          exact ih _ (by omega)
        · have same : (s.error "unterminated string" opening).cur = s.cur := rfl
          simp [same, h₃]
        · have one := cur_ne_nul (not_or.mp h₁).1
          exact ih _ (by omega)
  exact along _ s le_rfl

theorem skip_lt {s : Lexer} {p : Char → Char → Bool} (more : s.cur ≠ nul)
    (h : p s.cur s.peek = true) : (s.skip p).text.length < s.text.length := by
  have one := cur_ne_nul more
  obtain ⟨n, hn⟩ : ∃ n, s.text.length = n + 1 := ⟨s.text.length - 1, by omega⟩
  rw [skip, hn, skipIn, if_pos ⟨more, h⟩]
  have := skipIn_le p n s.advance
  omega

theorem skip_of_not {s : Lexer} {p : Char → Char → Bool} (h : p s.cur s.peek = false) :
    s.skip p = s := by
  rw [skip]
  cases s.text.length with
  | zero => rfl
  | succ n => rw [skipIn, if_neg (by simp [h])]

theorem digits_le (s : Lexer) : s.digits.text.length ≤ s.text.length := skip_le s _

theorem exponent_le (s : Lexer) : s.exponent.text.length ≤ s.text.length := by
  rw [exponent]
  split_ifs
  · refine (digits_le _).trans ?_
    split_ifs
    · exact (advance_le _).trans s.advance_le
    · exact s.advance_le
  · exact le_rfl

/-- A number takes its first character. -/
theorem numberEnd_lt {s : Lexer} (h : s.cur.isDigit ∨ s.cur = '.') :
    s.numberEnd.text.length < s.text.length := by
  have more : s.cur ≠ nul := by
    intro nothing
    rw [nothing] at h
    exact absurd h (by decide)
  have one := cur_ne_nul more
  have mantissa : s.mantissa.text.length < s.text.length := by
    rw [mantissa]
    rcases h with h | h
    · have lead : s.digits.text.length < s.text.length := skip_lt more h
      split_ifs
      · exact (digits_le _).trans_lt ((advance_le _).trans_lt lead)
      · exact lead
    · have none : s.digits = s := skip_of_not (by rw [h]; decide)
      rw [none, if_pos h]
      exact (digits_le _).trans_lt one
  rw [numberEnd]
  split_ifs
  · exact (skip_le _ _).trans_lt ((advance_le _).trans_lt one)
  · exact (exponent_le _).trans_lt mantissa

section Tokens

variable {α : Type} [Sample α]

/-- What a token at a position that is neither blank nor at the end is. -/
structure Taken (s : Lexer) (r : Token α × Lexer) : Prop where
  shorter : r.2.text.length < s.text.length
  kind : r.1.kind ≠ .newline ∧ r.1.kind ≠ .end

/-- A token that ends no statement and is not the end, over text that it takes. -/
theorem Taken.make {s t : Lexer} {k : Tok} {pos : Pos} {text : String}
    (shorter : t.text.length < s.text.length) (kind : k ≠ .newline ∧ k ≠ .end) :
    Taken s (make (α := α) k pos text, t) := ⟨shorter, kind⟩

theorem keyword_kind (text : String) : keyword text ≠ .newline ∧ keyword text ≠ .end := by
  rw [keyword]
  split_ifs <;> decide

theorem operator_taken {s : Lexer} (more : s.text ≠ []) : Taken s (operator (α := α) s) := by
  have one := advance_lt more
  have two := (advance_le s.advance).trans_lt one
  rw [operator]
  dsimp only
  split
  all_goals
    first
      | exact .make one (by decide)
      | split_ifs
        · exact .make two (by decide)
        · exact .make one (by decide)

theorem string_taken {s : Lexer} (more : s.text ≠ []) : Taken s (string (α := α) s) := by
  have one := advance_lt more
  have body := stringChars_le s.pos s.advance.text.length s.advance
  refine ⟨?_, (by decide : Tok.string ≠ .newline ∧ Tok.string ≠ .end)⟩
  rw [string]
  dsimp only
  split_ifs
  · exact (advance_le _).trans_lt (body.trans_lt one)
  · exact body.trans_lt one

variable [CNumber α]

theorem scan_taken {s : Lexer} (more : s.text ≠ []) : Taken s (scan (α := α) s) := by
  rw [scan, if_neg more]
  split_ifs with number ident quote
  · exact ⟨numberEnd_lt (number.imp_right And.left),
      (by decide : Tok.number ≠ .newline ∧ Tok.number ≠ .end)⟩
  · have first : isIdent s.cur = true := by
      rcases ident with h | h
      · simp [isIdent, Char.isAlphanum, h]
      · simp [isIdent, h]
    have some : s.cur ≠ nul := by
      intro nothing
      rw [nothing] at first
      exact absurd first (by decide)
    exact .make (skip_lt some first) (keyword_kind _)
  · exact string_taken more
  · exact operator_taken more

omit [CNumber α] in
/-- Skipping blanks ends, at a token or with one. -/
theorem blanks_eq_some : ∀ (n : Nat) (s : Lexer), s.text.length < n →
    ∃ r t, blanks (α := α) n s = some (r, t) ∧ t.text.length ≤ s.text.length ∧
      ∀ tok, r = some tok →
        tok.kind = .newline ∧ t.text.length < s.text.length ∨ tok.kind = .end
  | 0, _, h     => absurd h (Nat.not_lt_zero _)
  | n + 1, s, h => by
      -- a turn that takes text and goes on
      have turn : ∀ u : Lexer, u.text.length < s.text.length →
          ∃ r t, blanks (α := α) n u = some (r, t) ∧ t.text.length ≤ s.text.length ∧
            ∀ tok, r = some tok →
              tok.kind = .newline ∧ t.text.length < s.text.length ∨ tok.kind = .end := by
        intro u hu
        obtain ⟨r, t, run, le, kinds⟩ := blanks_eq_some n u (by omega)
        exact ⟨r, t, run, by omega, fun tok htok =>
          (kinds tok htok).imp_left fun h => ⟨h.1, by omega⟩⟩
      have more : ∀ c : Char, c ≠ nul → s.cur = c →
          s.advance.text.length < s.text.length := fun c hc h => cur_ne_nul (h ▸ hc)
      rw [blanks]
      dsimp only
      split_ifs with line continued blank comment block unterminated
      · exact turn _ (more '\n' (by decide) line)
      · refine ⟨_, _, rfl, s.advance_le, ?_⟩
        rintro tok ⟨⟩
        exact .inl ⟨rfl, more '\n' (by decide) line⟩
      · refine turn _ ?_
        rcases blank with h | h | h
        · exact more ' ' (by decide) h
        · exact more '\t' (by decide) h
        · exact more '\r' (by decide) h
      · refine turn _ (skip_lt ?_ ?_) <;> rw [comment.1] <;> decide
      · have body := skip_le s.advance.advance fun c d => !(c == '*' && d == '/')
        have two := s.advance.advance_le
        have one := more '/' (by decide) block.1
        refine ⟨_, _, rfl, body.trans (two.trans one.le), ?_⟩
        rintro tok ⟨⟩
        exact .inr rfl
      · have body := skip_le s.advance.advance fun c d => !(c == '*' && d == '/')
        have two := s.advance.advance_le
        have one := more '/' (by decide) block.1
        refine turn _ ?_
        exact (advance_le _).trans_lt ((advance_le _).trans_lt (by omega))
      · exact ⟨none, s, rfl, le_rfl, fun _ h => nomatch h⟩

/-- There is a next token, and only the last one takes no text. -/
theorem next_eq_some (s : Lexer) : ∃ tok t, next (α := α) s = some (tok, t) ∧
    (tok.kind ≠ .end → t.text.length < s.text.length) := by
  obtain ⟨r, t, run, le, kinds⟩ := blanks_eq_some (α := α) (s.text.length + 1) s (Nat.lt_succ_self _)
  rw [next, run]
  cases r with
  | some tok =>
      refine ⟨tok, t, rfl, fun more => ?_⟩
      rcases kinds tok rfl with h | h
      · exact h.2
      · exact absurd h more
  | none =>
      refine ⟨_, _, rfl, fun more => ?_⟩
      by_cases done : t.text = []
      · have last : (scan (α := α) t).1.kind = .end := by
          rw [scan, if_pos done]
          rfl
        exact absurd last more
      · exact (scan_taken done).shorter.trans_le le

end Tokens

end Lexer

/-! ### The token list -/

section Shape

variable {α : Type}

/-- No token so far is the end, the first is not a newline, and no two newlines are adjacent. -/
structure Started (out : List (Token α)) : Prop where
  going : ∀ t ∈ out, t.kind ≠ .end
  head : ∀ t ∈ out.head?, t.kind ≠ .newline
  apart : out.IsChain fun a b => ¬(a.kind = .newline ∧ b.kind = .newline)

/-- A token list as the parser relies on it: it ends in its only end token, does not start with
a newline, and has no two newlines in a row. -/
structure Lexed (toks : List (Token α)) : Prop where
  ended : ∃ body last, toks = body ++ [last] ∧ last.kind = .end ∧ ∀ t ∈ body, t.kind ≠ .end
  head : ∀ t ∈ toks.head?, t.kind ≠ .newline
  apart : toks.IsChain fun a b => ¬(a.kind = .newline ∧ b.kind = .newline)

theorem Started.push {out : List (Token α)} (h : Started out) {t : Token α}
    (line : t.kind = .newline → ∃ b ∈ out.getLast?, b.kind ≠ .newline) :
    (∀ t' ∈ (out ++ [t]).head?, t'.kind ≠ .newline) ∧
      (out ++ [t]).IsChain fun a b => ¬(a.kind = .newline ∧ b.kind = .newline) := by
  constructor
  · cases out with
    | nil =>
        rintro t' ht' newline
        obtain rfl := Option.some.inj ht'
        obtain ⟨b, hb, -⟩ := line newline
        exact nomatch hb
    | cons b out => exact h.head
  · refine List.isChain_append.mpr ⟨h.apart, .singleton t, fun a ha b hb both => ?_⟩
    obtain rfl := Option.some.inj hb
    obtain ⟨a', ha', other⟩ := line both.2
    exact other (Option.some.inj (ha.symm.trans ha') ▸ both.1)

theorem Started.next {out : List (Token α)} (h : Started out) {t : Token α}
    (going : t.kind ≠ .end)
    (line : t.kind = .newline → ∃ b ∈ out.getLast?, b.kind ≠ .newline) : Started (out ++ [t]) where
  going t' ht' := by
    rcases List.mem_append.mp ht' with ht' | ht'
    · exact h.going t' ht'
    · exact List.mem_singleton.mp ht' ▸ going
  head := (h.push line).1
  apart := (h.push line).2

theorem Started.finish {out : List (Token α)} (h : Started out) {t : Token α}
    (last : t.kind = .end) : Lexed (out ++ [t]) :=
  have line : t.kind = .newline → ∃ b ∈ out.getLast?, b.kind ≠ .newline :=
    fun newline => nomatch last.symm.trans newline
  ⟨⟨out, t, rfl, last, h.going⟩, (h.push line).1, (h.push line).2⟩

variable [Sample α] [CNumber α]

theorem Lexer.run_eq_some : ∀ (n : Nat) (out : List (Token α)) (s : Lexer), Started out →
    s.text.length < n → ∃ toks t, run n out s = some (toks, t) ∧ Lexed toks
  | 0, _, _, _, h       => absurd h (Nat.not_lt_zero _)
  | n + 1, out, s, h, hn => by
      obtain ⟨tok, t, hnext, shorter⟩ := next_eq_some (α := α) s
      rw [run, hnext, Option.bind_some]
      dsimp only
      split_ifs with newline collapsed ended
      · have := shorter (newline ▸ by decide)
        exact run_eq_some n out t h (by omega)
      · have := shorter (newline ▸ by decide)
        refine run_eq_some n _ t (h.next (newline ▸ by decide) fun _ => ?_) (by omega)
        simpa [Option.all_eq_true] using collapsed
      · exact ⟨_, _, rfl, h.finish ended⟩
      · have := shorter ended
        exact run_eq_some n _ _ (h.next ended fun h => absurd h newline) (by dsimp only; omega)

/-- **Lexing ends**, with a token list the parser can rely on. -/
theorem lex_eq_some (src : List Char) : ∃ toks diags,
    lex (α := α) src = some (toks, diags) ∧ Lexed toks := by
  obtain ⟨toks, t, run, shape⟩ := Lexer.run_eq_some (α := α) (src.length + 1) [] { text := src }
    ⟨fun _ h => absurd h List.not_mem_nil, (fun _ h => nomatch h), .nil⟩ (Nat.lt_succ_self _)
  exact ⟨toks, t.diags, by rw [lex, run]; rfl, shape⟩

end Shape

end Xrune.Lang
