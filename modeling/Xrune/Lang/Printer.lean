import Xrune.Lang.Parser

/-!
# Lang — printing expressions

`Expr.print` writes an expression as tokens, with parentheses only where the precedences ask for
them: around an operand of a lower level, and around a comma where a comma separates arguments.
Parsing the tokens gives the expression back (`parseExpr_print`).

The proof follows the three levels of the parser.  At each, what was parsed so far is the left
operand of what comes next, so the statement about an expression is about all the tokens that
follow it too (`Inverts`).
-/

namespace Xrune.Lang

open Stateful Filter

variable {α : Type}

/-! ### The printer -/

section Print

variable [Sample α]

/-- A token that belongs to no node of the tree. -/
def glue (k : Tok) : Token α := Lexer.make k {} ""

def group (b : Bool) (toks : List (Token α)) : List (Token α) :=
  if b then glue .lParen :: (toks ++ [glue .rParen]) else toks

/-- The tokens of a channel index. -/
def printIndex (k : Int) : List (Token α) :=
  [{ kind := .number, number := Sample.cast k.toNat, pos := {} }, glue .rBracket]

mutual

/-- The tokens of an expression where level `m` or above is expected.  The levels of the binary
operators are their precedences, that of unary minus is 7, and a selection stands on level 8. -/
def Expr.print (m : Nat) (inArgs : Bool) : Expr α → List (Token α)
  | .number pos n      => [{ kind := .number, number := n, pos := pos }]
  | .string pos text   => [Lexer.make .string pos text]
  | .boolean pos b     => [Lexer.make (if b then .kwTrue else .kwFalse) pos ""]
  | .ident pos text    =>
      [if text = "!" then Lexer.make .bang pos "" else Lexer.make .ident pos text]
  | .call pos text args =>
      Lexer.make .ident pos text :: glue .lParen :: (printArgs args ++ [glue .rParen])
  | .unary pos a        =>
      group (7 < m) (Lexer.make .minus pos "" :: a.print 7 (inArgs && !(7 < m)))
  | .binary pos op a b  =>
      let grouped := binprec op < m || (inArgs && op = .comma)
      group grouped (a.print (binprec op) (inArgs && !grouped) ++
        Lexer.make op pos "" :: b.print (binprec op + 1) (inArgs && !grouped))
  | .select pos a k     => a.print 8 inArgs ++ Lexer.make .lBracket pos "" :: printIndex k

def printArg : String × Expr α → List (Token α)
  | (name, e) =>
      if name = "" then e.print 1 true
      else Lexer.make .ident {} name :: glue .assign :: e.print 1 true

def printArgs : List (String × Expr α) → List (Token α)
  | []     => []
  | a :: l => printArg a ++ printRest l

/-- The arguments after the first. -/
def printRest : List (String × Expr α) → List (Token α)
  | []     => []
  | a :: l => glue .comma :: (printArg a ++ printRest l)

end

end Print

/-- The expressions the syntax admits: binary operators, and channel indices that are
non-negative `int`s. -/
inductive Expr.Admitted : Expr α → Prop where
  | number (pos : Pos) (n : α) : Admitted (.number pos n)
  | string (pos : Pos) (text : String) : Admitted (.string pos text)
  | boolean (pos : Pos) (b : Bool) : Admitted (.boolean pos b)
  | ident (pos : Pos) (text : String) : Admitted (.ident pos text)
  | call (pos : Pos) (text : String) {args : List (String × Expr α)}
      (h : ∀ a ∈ args, Admitted a.2) : Admitted (.call pos text args)
  | unary (pos : Pos) {a : Expr α} (h : Admitted a) : Admitted (.unary pos a)
  | binary (pos : Pos) {op : Tok} {a b : Expr α} (operator : binprec op ≠ 0) (ha : Admitted a)
      (hb : Admitted b) : Admitted (.binary pos op a b)
  | select (pos : Pos) {a : Expr α} {k : Int} (h : Admitted a) (nonneg : 0 ≤ k)
      (small : k < 2 ^ 31) : Admitted (.select pos a k)

/-! ### Reading tokens -/

/-- With enough fuel, `f` takes the tokens down to `rest`, returns `b` and reports nothing. -/
def Reads {β : Type} (f : Nat → ParseM α β) (toks : List (Token α)) (b : β)
    (rest : List (Token α)) : Prop :=
  ∀ d, ∀ᶠ n in atTop, f n ⟨toks, d⟩ = (.ok b, ⟨rest, d⟩)

namespace Reads

variable {β γ δ : Type} {f : Nat → ParseM α β} {g : Nat → ParseM α γ} {f' : Nat → ParseM α δ}
variable {toks toks' toks₂ rest rest' rest₂ : List (Token α)} {b : β} {c : γ} {e : δ}

theorem now (h : ∀ n d, g (n + 1) ⟨toks, d⟩ = (.ok c, ⟨rest, d⟩)) : Reads g toks c rest := by
  intro d
  refine eventually_atTop.mpr ⟨1, fun n hn => ?_⟩
  obtain ⟨n, rfl⟩ := Nat.exists_eq_add_of_le' hn
  exact h n d

theorem step (h : Reads f toks b rest)
    (next : ∀ n d, f n ⟨toks, d⟩ = (.ok b, ⟨rest, d⟩) →
      g (n + 1) ⟨toks', d⟩ = (.ok c, ⟨rest', d⟩)) : Reads g toks' c rest' := by
  intro d
  obtain ⟨N, hN⟩ := eventually_atTop.mp (h d)
  refine eventually_atTop.mpr ⟨N + 1, fun n hn => ?_⟩
  obtain ⟨n, rfl⟩ := Nat.exists_eq_add_of_le' (Nat.le_of_add_left_le hn)
  exact next n d (hN n (Nat.le_of_succ_le_succ hn))

theorem both (h : Reads f toks b rest) (h' : Reads f' toks₂ e rest₂)
    (next : ∀ n d, f n ⟨toks, d⟩ = (.ok b, ⟨rest, d⟩) → f' n ⟨toks₂, d⟩ = (.ok e, ⟨rest₂, d⟩) →
      g (n + 1) ⟨toks', d⟩ = (.ok c, ⟨rest', d⟩)) : Reads g toks' c rest' := by
  intro d
  obtain ⟨N, hN⟩ := eventually_atTop.mp ((h d).and (h' d))
  refine eventually_atTop.mpr ⟨N + 1, fun n hn => ?_⟩
  obtain ⟨n, rfl⟩ := Nat.exists_eq_add_of_le' (Nat.le_of_add_left_le hn)
  exact next n d (hN n (Nat.le_of_succ_le_succ hn)).1 (hN n (Nat.le_of_succ_le_succ hn)).2

end Reads

section Tokens

variable {t u : Token α} {r : List (Token α)} {d : List Diagnostic}

@[simp] theorem cur_cons : cur ⟨t :: r, d⟩ = (.ok t, ⟨t :: r, d⟩) := rfl

@[simp] theorem adv_cons : adv ⟨t :: u :: r, d⟩ = (.ok (), ⟨u :: r, d⟩) := rfl

theorem adv_of_ne_nil (h : r ≠ []) : adv ⟨t :: r, d⟩ = (.ok (), ⟨r, d⟩) := by
  cases r with
  | nil => exact absurd rfl h
  | cons u r => rfl

@[simp] theorem isAt_cons (k : Tok) :
    isAt k ⟨t :: r, d⟩ = (.ok (decide (t.kind = k)), ⟨t :: r, d⟩) := rfl

theorem accept_pos {k : Tok} (h : t.kind = k) :
    accept k ⟨t :: u :: r, d⟩ = (.ok true, ⟨u :: r, d⟩) := by
  rw [accept, bind_of_ok (isAt_cons k), if_pos (by simpa using h), bind_of_ok adv_cons]
  rfl

theorem accept_neg {k : Tok} (h : t.kind ≠ k) :
    accept k ⟨t :: r, d⟩ = (.ok false, ⟨t :: r, d⟩) := by
  rw [accept, bind_of_ok (isAt_cons k), if_neg (by simpa using h)]
  rfl

theorem expect_pos {k : Tok} (h : t.kind = k) (what : String) :
    expect k what ⟨t :: u :: r, d⟩ = (.ok t, ⟨u :: r, d⟩) := by
  rw [expect, bind_of_ok cur_cons, if_pos h, bind_of_ok adv_cons]
  rfl

theorem atAssignment_pos (h : t.kind = .ident) (h' : u.kind = .assign) :
    atAssignment ⟨t :: u :: r, d⟩ = (.ok true, ⟨t :: u :: r, d⟩) := by
  rw [atAssignment, bind_of_ok (isAt_cons _), if_pos (by simpa using h)]
  show ((Outcome.ok (decide (u.kind = .assign)) : Outcome Empty Bool), _) = _
  rw [decide_eq_true h']

theorem atAssignment_neg (h : ¬(t.kind = .ident ∧ u.kind = .assign)) :
    atAssignment ⟨t :: u :: r, d⟩ = (.ok false, ⟨t :: u :: r, d⟩) := by
  rw [atAssignment, bind_of_ok (isAt_cons _)]
  by_cases ident : t.kind = .ident
  · rw [if_pos (by simpa using ident)]
    show ((Outcome.ok (decide (u.kind = .assign)) : Outcome Empty Bool), _) = _
    rw [decide_eq_false fun assign => h ⟨ident, assign⟩]
  · rw [if_neg (by simpa using ident)]
    rfl

end Tokens

/-! ### Productions -/

section Productions

variable [Sample α] [CInt α] {t u : Token α} {r rest : List (Token α)} {e e' left : Expr α}
variable {m : Nat} {inArgs : Bool}

theorem reads_binary {toks mid : List (Token α)} (h : Reads parseUnary toks left mid)
    (h' : Reads (binaryLoop · m inArgs left) mid e rest) :
    Reads (parseBinary · m inArgs) toks e rest :=
  h.both h' fun n d run run' => by rw [parseBinary, bind_of_ok run, run']

/-- Whether the loop of `parse_binary` stops at a token of the kind. -/
def Stops (m : Nat) (inArgs : Bool) (k : Tok) : Prop :=
  binprec k = 0 ∨ (k = .comma ∧ inArgs) ∨ binprec k < m

theorem reads_stop (h : Stops m inArgs t.kind) :
    Reads (binaryLoop · m inArgs left) (t :: r) left (t :: r) :=
  .now fun n d => by
    rw [Stops] at h
    rw [binaryLoop, bind_of_ok cur_cons, if_pos h]
    rfl

theorem reads_operator {toks mid : List (Token α)} (go : ¬Stops m inArgs t.kind)
    (more : toks ≠ []) (h : Reads (parseBinary · (binprec t.kind + 1) inArgs) toks e' mid)
    (h' : Reads (binaryLoop · m inArgs (.binary t.pos t.kind left e')) mid e rest) :
    Reads (binaryLoop · m inArgs left) (t :: toks) e rest :=
  h.both h' fun n d run run' => by
    rw [Stops] at go
    rw [binaryLoop, bind_of_ok cur_cons, if_neg go, bind_of_ok (adv_of_ne_nil more),
      bind_of_ok run, run']

theorem reads_minus (kind : t.kind = .minus) (more : r ≠ [])
    (h : Reads parseUnary r e rest) : Reads parseUnary (t :: r) (.unary t.pos e) rest :=
  h.step fun n d run => by
    rw [parseUnary, bind_of_ok cur_cons, if_pos kind, bind_of_ok (adv_of_ne_nil more),
      bind_of_ok run]
    rfl

theorem reads_unary (kind : t.kind ≠ .minus) (h : Reads parsePostfix (t :: r) e rest) :
    Reads parseUnary (t :: r) e rest :=
  h.step fun n d run => by rw [parseUnary, bind_of_ok cur_cons, if_neg kind, run]

theorem reads_postfix {toks mid : List (Token α)} (h : Reads parsePrimary toks left mid)
    (h' : Reads (selectLoop · left) mid e rest) : Reads parsePostfix toks e rest :=
  h.both h' fun n d run run' => by rw [parsePostfix, bind_of_ok run, run']

theorem reads_no_select (kind : t.kind ≠ .lBracket) :
    Reads (selectLoop · left) (t :: r) left (t :: r) :=
  .now fun n d => by
    rw [selectLoop, bind_of_ok cur_cons, if_neg kind]
    rfl

/-- What the source relies on for the channel indices: an `int` that is not negative survives
the conversion to a floating-point number and back. -/
def IndexExact (α : Type) [Sample α] [CInt α] : Prop :=
  ∀ k : Nat, k < 2 ^ 31 → CInt.toInt (Sample.cast k : α) = k ∧
    Sample.same (Sample.cast k : α) (Sample.cast k) = true

omit [CInt α] in
theorem ofInt_natCast (k : Nat) : (ofInt (k : Int) : α) = Sample.cast k := by
  rw [ofInt, if_neg (not_lt.mpr (Int.natCast_nonneg k)), Int.toNat_natCast]

theorem parseIndex_print (exact : IndexExact α) {k : Int} (nonneg : 0 ≤ k) (small : k < 2 ^ 31)
    (r : List (Token α)) (d : List Diagnostic) :
    parseIndex ⟨printIndex k ++ r, d⟩ = (.ok k, ⟨glue .rBracket :: r, d⟩) := by
  obtain ⟨k, rfl⟩ := Int.eq_ofNat_of_zero_le nonneg
  obtain ⟨value, same⟩ := exact k (by exact_mod_cast small)
  show parseIndex ⟨_ :: glue .rBracket :: r, d⟩ = _
  rw [parseIndex, bind_of_ok cur_cons, if_pos rfl, bind_of_ok adv_cons]
  dsimp only
  rw [Int.toNat_natCast, value, ofInt_natCast, same, if_neg (by simp)]
  rfl

theorem reads_select (exact : IndexExact α) (kind : t.kind = .lBracket) {k : Int}
    (nonneg : 0 ≤ k) (small : k < 2 ^ 31)
    (h : Reads (selectLoop · (.select t.pos left k)) (u :: r) e rest) :
    Reads (selectLoop · left) (t :: (printIndex k ++ u :: r)) e rest :=
  h.step fun n d run => by
    rw [selectLoop, bind_of_ok cur_cons, if_pos kind]
    have taken : adv ⟨t :: (printIndex k ++ u :: r), d⟩
        = (.ok (), ⟨printIndex k ++ u :: r, d⟩) := rfl
    rw [bind_of_ok taken, bind_of_ok (parseIndex_print exact nonneg small (u :: r) d),
      bind_of_ok (expect_pos (k := .rBracket) rfl _), run]

end Productions

/-! ### The first tokens of an expression -/

/-- How a printed expression begins: not like a named argument, not with a closing parenthesis,
and where a selection is expected not with a minus. -/
structure Begins (m : Nat) (toks : List (Token α)) : Prop where
  head : ∃ u v r, toks = u :: v :: r ∧ ¬(u.kind = .ident ∧ v.kind = .assign) ∧
    u.kind ≠ .rParen ∧ (m = 8 → u.kind ≠ .minus)

theorem Begins.of (k : Tok) {m : Nat} {u v : Token α} {r : List (Token α)} (kind : u.kind = k)
    (named : k ≠ .ident ∨ v.kind ≠ .assign) (closes : k ≠ .rParen) (minus : m = 8 → k ≠ .minus) :
    Begins m (u :: v :: r) := by
  subst kind
  exact ⟨u, v, r, rfl, by tauto, closes, minus⟩

theorem Begins.mono {m m' : Nat} {toks : List (Token α)} (h : Begins m toks)
    (level : m' = 8 → m = 8) : Begins m' toks := by
  obtain ⟨u, v, r, ht, named, closes, minus⟩ := h
  exact ⟨u, v, r, ht, named, closes, fun h => minus (level h)⟩

section Heads

variable [Sample α]

theorem Begins.of_group {m : Nat} {b : Bool} {toks : List (Token α)} {t : Token α}
    {r : List (Token α)} (bare : b = false → Begins m (toks ++ t :: r)) :
    Begins m (group b toks ++ t :: r) := by
  cases b with
  | false => exact bare rfl
  | true =>
      rw [group, if_pos rfl, List.cons_append, List.append_assoc, List.singleton_append]
      cases toks with
      | nil => exact .of .lParen rfl (.inl (by decide)) (by decide) fun _ => by decide
      | cons u toks => exact .of .lParen rfl (.inl (by decide)) (by decide) fun _ => by decide

theorem print_begins {e : Expr α} (h : e.Admitted) : ∀ (m : Nat) (inArgs : Bool) (t : Token α)
    (r : List (Token α)), t.kind ≠ .assign → Begins m (e.print m inArgs ++ t :: r) := by
  induction h with
  | number pos n =>
      exact fun m inArgs t r _ =>
        .of .number rfl (.inl (by decide)) (by decide) fun _ => by decide
  | string pos text =>
      exact fun m inArgs t r _ =>
        .of .string rfl (.inl (by decide)) (by decide) fun _ => by decide
  | boolean pos b =>
      intro m inArgs t r _
      cases b with
      | false => exact .of .kwFalse rfl (.inl (by decide)) (by decide) fun _ => by decide
      | true => exact .of .kwTrue rfl (.inl (by decide)) (by decide) fun _ => by decide
  | ident pos text =>
      intro m inArgs t r ht
      rw [Expr.print]
      split_ifs
      · exact .of .bang rfl (.inl (by decide)) (by decide) fun _ => by decide
      · exact .of .ident rfl (.inr ht) (by decide) fun _ => by decide
  | call pos text h ih =>
      intro m inArgs t r _
      rw [Expr.print]
      exact .of .ident rfl (.inr (by decide : Tok.lParen ≠ .assign)) (by decide) fun _ => by decide
  | @unary pos a h ih =>
      intro m inArgs t r ht
      rw [Expr.print]
      refine .of_group fun bare => ?_
      obtain ⟨u, v, w, hu, -⟩ := (ih 7 (inArgs && !(7 < m)) t r ht).head
      rw [List.cons_append, hu]
      refine .of .minus rfl (.inl (by decide)) (by decide) fun h => ?_
      subst h
      exact absurd bare (by decide)
  | @binary pos op a b operator ha hb iha ihb =>
      intro m inArgs t r _
      rw [Expr.print]
      refine .of_group fun bare => ?_
      rw [List.append_assoc, List.cons_append]
      refine (iha _ _ (Lexer.make op pos "") _ ?_).mono fun h => ?_
      · rintro rfl
        exact operator rfl
      · -- no binary operator stands where a selection is expected
        have level : binprec op ≤ 6 := by cases op <;> decide
        rw [Bool.or_eq_false_iff] at bare
        have := of_decide_eq_false bare.1
        omega
  | @select pos a k h nonneg small ih =>
      intro m inArgs t r _
      rw [Expr.print, List.append_assoc, List.cons_append]
      exact (ih 8 inArgs _ _ (by decide : Tok.lBracket ≠ .assign)).mono fun _ => rfl

end Heads

/-! ### Primaries -/

section Primaries

variable [Sample α] [CInt α] {t u : Token α} {r rest toks : List (Token α)} {e : Expr α}

theorem reads_group (h : Reads (parseBinary · 1 false) (toks ++ glue .rParen :: t :: r) e
    (glue .rParen :: t :: r)) :
    Reads parsePrimary (group true toks ++ t :: r) e (t :: r) :=
  h.step fun n d run => by
    have shape : group true toks ++ t :: r
        = glue .lParen :: (toks ++ glue .rParen :: t :: r) := by simp [group]
    rw [shape]
    show (adv >>= fun _ => parseBinary n 1 false >>= fun e => expect .rParen "')'" >>= fun _ =>
      pure e) _ = _
    rw [bind_of_ok (adv_of_ne_nil (by simp)), bind_of_ok run,
      bind_of_ok (expect_pos (k := .rParen) rfl _)]
    rfl

theorem reads_ident (pos : Pos) (text : String) (kind : t.kind ≠ .lParen) :
    Reads parsePrimary (Lexer.make .ident pos text :: t :: r) (.ident pos text) (t :: r) :=
  .now fun n d => by
    show (isAt .lParen >>= fun b => if b = true then parseCallArgs n >>= fun args =>
      pure (Expr.call pos text args) else pure (Expr.ident pos text)) ⟨t :: r, d⟩ = _
    rw [bind_of_ok (isAt_cons _), if_neg (by simpa using kind)]
    rfl

theorem reads_call (pos : Pos) (text : String) {args : List (Argument α)}
    (h : Reads parseCallArgs (glue .lParen :: r) args rest) :
    Reads parsePrimary (Lexer.make .ident pos text :: glue .lParen :: r) (.call pos text args)
      rest :=
  h.step fun n d run => by
    show (isAt .lParen >>= fun b => if b = true then parseCallArgs n >>= fun args =>
      pure (Expr.call pos text args) else pure (Expr.ident pos text))
        ⟨glue .lParen :: r, d⟩ = _
    rw [bind_of_ok (isAt_cons _), if_pos (by rfl), bind_of_ok run]
    rfl

/-! ### Call arguments -/

omit [CInt α] in
theorem argName_print {name : String} {e : Expr α} (h : e.Admitted) (kind : t.kind ≠ .assign)
    (d : List Diagnostic) : argName ⟨printArg (name, e) ++ t :: r, d⟩
      = (.ok name, ⟨e.print 1 true ++ t :: r, d⟩) := by
  obtain ⟨u, v, w, hu, named, -⟩ := (print_begins h 1 true t r kind).head
  rw [printArg]
  split_ifs with positional
  · rw [hu, argName, bind_of_ok (atAssignment_neg named), positional]
    rfl
  · rw [List.cons_append, List.cons_append, hu, argName,
      bind_of_ok (atAssignment_pos rfl rfl)]
    rfl

/-- The loop over the arguments takes them all, when each value is read back. -/
theorem reads_args {close : Token α} (paren : close.kind = .rParen) :
    ∀ (a : Argument α) (l acc : List (Argument α)), (∀ b ∈ a :: l, b.2.Admitted ∧
      ∀ (t : Token α) (r : List (Token α)), t.kind = .comma ∨ t.kind = .rParen →
        Reads (parseBinary · 1 true) (b.2.print 1 true ++ t :: r) b.2 (t :: r)) →
      Reads (argsLoop · acc) (printArg a ++ printRest l ++ close :: r) (acc ++ a :: l)
        (close :: r) := by
  intro a l
  induction l generalizing a with
  | nil =>
      intro acc h
      obtain ⟨admitted, back⟩ := h a List.mem_cons_self
      refine (back close r (.inr paren)).step fun n d run => ?_
      rw [printRest, List.append_nil, argsLoop,
        bind_of_ok (argName_print admitted (paren ▸ by decide) d), bind_of_ok run,
        bind_of_ok (accept_neg (k := .comma) (paren ▸ by decide))]
      rfl
  | cons b l ih =>
      intro acc h
      obtain ⟨admitted, back⟩ := h a List.mem_cons_self
      have more := ih b (acc ++ [a]) fun c hc => h c (List.mem_cons_of_mem _ hc)
      refine (back (glue .comma) (printArg b ++ printRest l ++ close :: r) (.inl rfl)).both more
        fun n d run run' => ?_
      have shape : printArg a ++ printRest (b :: l) ++ close :: r
          = printArg a ++ glue .comma :: (printArg b ++ printRest l ++ close :: r) := by
        simp [printRest]
      rw [shape, argsLoop, bind_of_ok (argName_print admitted (by decide : Tok.comma ≠ .assign) d),
        bind_of_ok run]
      obtain ⟨u, w, hu⟩ := List.exists_cons_of_ne_nil
        (l := printArg b ++ printRest l ++ close :: r) (by simp)
      rw [hu] at run' ⊢
      rw [bind_of_ok (accept_pos (k := .comma) rfl)]
      exact run'.trans (by rw [List.append_assoc, List.singleton_append])

omit [CInt α] in
/-- An argument does not begin with a closing parenthesis. -/
theorem printArg_begins {a : Argument α} (h : a.2.Admitted) (kind : t.kind ≠ .assign) :
    ∃ u v w, printArg a ++ t :: r = u :: v :: w ∧ u.kind ≠ .rParen := by
  obtain ⟨name, e⟩ := a
  obtain ⟨u, v, w, hu, -, closes, -⟩ := (print_begins h 1 true t r kind).head
  rw [printArg]
  split_ifs
  · exact ⟨u, v, w, hu, closes⟩
  · exact ⟨Lexer.make .ident {} name, glue .assign, e.print 1 true ++ t :: r, rfl,
      (by decide : Tok.ident ≠ .rParen)⟩

theorem reads_callArgs {args : List (Argument α)} (h : ∀ b ∈ args, b.2.Admitted ∧
    ∀ (t : Token α) (r : List (Token α)), t.kind = .comma ∨ t.kind = .rParen →
      Reads (parseBinary · 1 true) (b.2.print 1 true ++ t :: r) b.2 (t :: r)) :
    Reads parseCallArgs (glue .lParen :: (printArgs args ++ glue .rParen :: t :: r)) args
      (t :: r) := by
  cases args with
  | nil =>
      refine .now fun n d => ?_
      rw [printArgs, List.nil_append, parseCallArgs, bind_of_ok (expect_pos (k := .lParen) rfl _),
        bind_of_ok (accept_pos (k := .rParen) rfl)]
      rfl
  | cons a l =>
      have loop : Reads (argsLoop · []) (printArg a ++ printRest l ++ glue .rParen :: t :: r)
          ([] ++ a :: l) (glue .rParen :: t :: r) := reads_args rfl a l [] h
      refine loop.step fun n d run => ?_
      -- the first argument is followed by a comma or by the closing parenthesis
      obtain ⟨u, v, w, hu, closes⟩ : ∃ u v w,
          printArg a ++ printRest l ++ glue .rParen :: t :: r = u :: v :: w ∧
            u.kind ≠ .rParen := by
        cases l with
        | nil =>
            rw [printRest, List.append_nil]
            exact printArg_begins (h a List.mem_cons_self).1 (by decide : Tok.rParen ≠ .assign)
        | cons b l =>
            rw [printRest, List.append_assoc, List.cons_append]
            exact printArg_begins (h a List.mem_cons_self).1 (by decide : Tok.comma ≠ .assign)
      rw [printArgs]
      rw [hu] at run ⊢
      rw [parseCallArgs, bind_of_ok (expect_pos (k := .lParen) rfl _),
        bind_of_ok (accept_neg closes)]
      show (argsLoop n [] >>= fun args => expect .rParen "')'" >>= fun _ => pure args) _ = _
      rw [bind_of_ok run, bind_of_ok (expect_pos (k := .rParen) rfl _)]
      rfl

end Primaries

/-! ### Every expression -/

section Inverts

variable [Sample α] [CInt α] {e : Expr α}

/-- Parsing takes the tokens of `e`, at each level, and goes on from `e` as what stands to the
left of the next token. -/
structure Inverts (e : Expr α) : Prop where
  binary : ∀ (m min : Nat) (inArgs : Bool) (t : Token α) (r : List (Token α)) (e' : Expr α)
    (rest : List (Token α)), min ≤ m → m ≤ 7 → t.kind ≠ .lParen → t.kind ≠ .lBracket →
      Stops (m + 1) inArgs t.kind → Reads (binaryLoop · min inArgs e) (t :: r) e' rest →
        Reads (parseBinary · min inArgs) (e.print m inArgs ++ t :: r) e' rest
  unary : ∀ (inArgs : Bool) (t : Token α) (r : List (Token α)), t.kind ≠ .lParen →
    t.kind ≠ .lBracket → Reads parseUnary (e.print 7 inArgs ++ t :: r) e (t :: r)
  select : ∀ (inArgs : Bool) (t : Token α) (r : List (Token α)) (e' : Expr α)
    (rest : List (Token α)), t.kind ≠ .lParen → Reads (selectLoop · e) (t :: r) e' rest →
      Reads parsePostfix (e.print 8 inArgs ++ t :: r) e' rest

omit [CInt α] in
theorem print_head (h : e.Admitted) (inArgs : Bool) :
    ∃ u w, e.print 8 inArgs = u :: w ∧ u.kind ≠ .minus := by
  obtain ⟨u, v, w, hu, -, -, minus⟩ :=
    (print_begins h 8 inArgs (glue .rParen) [] (by decide : Tok.rParen ≠ .assign)).head
  cases hp : e.print 8 inArgs with
  | nil =>
      rw [hp] at hu
      exact absurd (congrArg List.length hu) (by simp)
  | cons u' w' =>
      rw [hp] at hu
      obtain ⟨rfl, -⟩ := List.cons.inj hu
      exact ⟨u', w', rfl, minus rfl⟩

/-- An expression that is printed the same where a selection is expected. -/
theorem reads_same {m : Nat} {inArgs : Bool} (inArgs' : Bool) (h : e.Admitted)
    (same : e.print m inArgs = e.print 8 inArgs') {t : Token α} {r : List (Token α)}
    (bracket : t.kind ≠ .lBracket)
    (select : Reads (selectLoop · e) (t :: r) e (t :: r) →
      Reads parsePostfix (e.print 8 inArgs' ++ t :: r) e (t :: r)) :
    Reads parseUnary (e.print m inArgs ++ t :: r) e (t :: r) := by
  obtain ⟨u, w, hu, minus⟩ := print_head h inArgs'
  have post := select (reads_no_select bracket)
  rw [same]
  rw [hu] at post ⊢
  exact reads_unary minus post

/-- An expression that stands by itself at every level. -/
theorem Inverts.of_primary (h : e.Admitted)
    (same : ∀ m inArgs, e.print m inArgs = e.print 8 inArgs)
    (select : ∀ (inArgs : Bool) (t : Token α) (r : List (Token α)) (e' : Expr α)
      (rest : List (Token α)), t.kind ≠ .lParen → Reads (selectLoop · e) (t :: r) e' rest →
        Reads parsePostfix (e.print 8 inArgs ++ t :: r) e' rest) : Inverts e where
  select := select
  unary inArgs t r paren bracket :=
    reads_same inArgs h (same 7 inArgs) bracket (select inArgs t r e (t :: r) paren)
  binary m _ inArgs t r _ _ _ _ paren bracket _ loop :=
    reads_binary (reads_same inArgs h (same m inArgs) bracket (select inArgs t r e (t :: r) paren)) loop

/-- An expression that is in parentheses where a selection is expected. -/
theorem reads_parens {inArgs : Bool} (toks : List (Token α))
    (grouped : e.print 8 inArgs = group true toks)
    (inner : ∀ r, Reads (parseBinary · 1 false) (toks ++ glue .rParen :: r) e
      (glue .rParen :: r)) {t : Token α} {r rest : List (Token α)} {e' : Expr α}
    (loop : Reads (selectLoop · e) (t :: r) e' rest) :
    Reads parsePostfix (e.print 8 inArgs ++ t :: r) e' rest := by
  rw [grouped]
  exact reads_postfix (reads_group (inner (t :: r))) loop

theorem Inverts.of_unary (pos : Pos) {a : Expr α} (ih : Inverts a) : Inverts (.unary pos a) := by
  have bare : ∀ (m : Nat) (inArgs : Bool), m ≤ 7 →
      (Expr.unary pos a).print m inArgs = Lexer.make .minus pos "" :: a.print 7 inArgs := by
    intro m inArgs hm
    have low : decide (7 < m) = false := decide_eq_false (not_lt.mpr hm)
    rw [Expr.print, low, Bool.not_false, Bool.and_true]
    rfl
  have unary : ∀ (m : Nat) (inArgs : Bool) (t : Token α) (r : List (Token α)), m ≤ 7 →
      t.kind ≠ .lParen → t.kind ≠ .lBracket →
        Reads parseUnary ((Expr.unary pos a).print m inArgs ++ t :: r) (.unary pos a)
          (t :: r) := by
    intro m inArgs t r hm paren bracket
    rw [bare m inArgs hm, List.cons_append]
    exact reads_minus rfl (by simp) (ih.unary inArgs t r paren bracket)
  exact
    { unary := fun inArgs t r => unary 7 inArgs t r le_rfl
      binary := fun m min inArgs t r e' rest _ hm paren bracket _ loop =>
        reads_binary (unary m inArgs t r hm paren bracket) loop
      select := fun inArgs t r e' rest _ loop => by
        refine reads_parens ((Expr.unary pos a).print 1 false) ?_ (fun r => ?_) loop
        · rw [bare 1 false (by decide), Expr.print]
          simp
        · exact reads_binary (unary 1 false _ r (by decide) (by decide : Tok.rParen ≠ .lParen)
            (by decide : Tok.rParen ≠ .lBracket)) (reads_stop (.inl rfl)) }

theorem Inverts.of_binary (pos : Pos) {op : Tok} {a b : Expr α} (operator : binprec op ≠ 0)
    (h : (Expr.binary pos op a b).Admitted) (iha : Inverts a) (ihb : Inverts b) :
    Inverts (.binary pos op a b) := by
  have tight : binprec op ≤ 6 := by cases op <;> decide
  have opens : op ≠ .lParen ∧ op ≠ .lBracket := by
    constructor <;>
      · rintro rfl
        exact operator rfl
  -- the tokens without parentheses
  let bare (inArgs : Bool) : List (Token α) := a.print (binprec op) inArgs ++
    Lexer.make op pos "" :: b.print (binprec op + 1) inArgs
  have shape : ∀ (m : Nat) (inArgs : Bool), (Expr.binary pos op a b).print m inArgs =
      if m ≤ binprec op ∧ ¬(op = .comma ∧ inArgs) then bare inArgs
      else group true (bare false) := by
    intro m inArgs
    rw [Expr.print]
    by_cases stands : m ≤ binprec op ∧ ¬(op = .comma ∧ inArgs)
    · have alone : (decide (binprec op < m) || (inArgs && decide (op = .comma))) = false := by
        rw [Bool.or_eq_false_iff, decide_eq_false_iff_not, not_lt, Bool.and_eq_false_iff,
          decide_eq_false_iff_not]
        exact ⟨stands.1, by cases inArgs <;> simp_all⟩
      simp only [alone, Bool.not_false, Bool.and_true, if_pos stands]
      rfl
    · have grouped : (decide (binprec op < m) || (inArgs && decide (op = .comma))) = true := by
        rw [Bool.or_eq_true, decide_eq_true_iff, Bool.and_eq_true, decide_eq_true_iff]
        by_contra none
        obtain ⟨low, parallel⟩ := not_or.mp none
        exact stands ⟨not_lt.mp low, fun h => parallel ⟨h.2, h.1⟩⟩
      simp only [grouped, Bool.not_true, Bool.and_false, if_neg stands]
      rfl
  have inner : ∀ (min : Nat) (inArgs : Bool) (t : Token α) (r : List (Token α)) (e' : Expr α)
      (rest : List (Token α)), min ≤ binprec op → ¬(op = .comma ∧ inArgs) → t.kind ≠ .lParen →
        t.kind ≠ .lBracket → Stops (binprec op + 1) inArgs t.kind →
          Reads (binaryLoop · min inArgs (.binary pos op a b)) (t :: r) e' rest →
            Reads (parseBinary · min inArgs) (bare inArgs ++ t :: r) e' rest := by
    intro min inArgs t r e' rest hmin parallel paren bracket stop loop
    have right := ihb.binary (binprec op + 1) (binprec op + 1) inArgs t r b (t :: r) le_rfl
      (by omega) paren bracket ?_ (reads_stop stop)
    · have go : ¬Stops min inArgs op := by
        rintro (h | h | h)
        · exact operator h
        · exact parallel h
        · omega
      have next := reads_operator (t := (Lexer.make op pos "" : Token α)) go
        (by simp) right loop
      have left := iha.binary (binprec op) min inArgs (Lexer.make op pos "")
        (b.print (binprec op + 1) inArgs ++ t :: r) e' rest hmin (by omega) opens.1 opens.2
        (.inr (.inr (Nat.lt_succ_self _))) next
      simpa [bare] using left
    · rcases stop with h | h | h
      · exact .inl h
      · exact .inr (.inl h)
      · exact .inr (.inr (by omega))
  have select : ∀ (inArgs : Bool) (t : Token α) (r : List (Token α)) (e' : Expr α)
      (rest : List (Token α)), t.kind ≠ .lParen →
        Reads (selectLoop · (.binary pos op a b)) (t :: r) e' rest →
          Reads parsePostfix ((Expr.binary pos op a b).print 8 inArgs ++ t :: r) e' rest := by
    intro inArgs t r e' rest _ loop
    refine reads_parens (bare false) ?_ (fun r => ?_) loop
    · rw [shape, if_neg (by omega)]
    · exact inner 1 false (glue .rParen) r _ _ (Nat.pos_of_ne_zero operator) (by simp)
        (by decide : Tok.rParen ≠ .lParen) (by decide : Tok.rParen ≠ .lBracket) (.inl rfl)
        (reads_stop (.inl rfl))
  have unary : ∀ (m : Nat) (inArgs : Bool) (t : Token α) (r : List (Token α)),
      ¬(m ≤ binprec op ∧ ¬(op = .comma ∧ inArgs)) → t.kind ≠ .lParen → t.kind ≠ .lBracket →
        Reads parseUnary ((Expr.binary pos op a b).print m inArgs ++ t :: r)
          (.binary pos op a b) (t :: r) := by
    intro m inArgs t r grouped paren bracket
    refine reads_same inArgs h ?_ bracket (select inArgs t r _ _ paren)
    rw [shape, shape, if_neg grouped, if_neg (by omega)]
  exact
    { select := select
      unary := fun inArgs t r => unary 7 inArgs t r (by omega)
      binary := by
        intro m min inArgs t r e' rest hmin hm paren bracket stop loop
        by_cases stands : m ≤ binprec op ∧ ¬(op = .comma ∧ inArgs)
        · rw [shape, if_pos stands]
          refine inner min inArgs t r e' rest (hmin.trans stands.1) stands.2 paren bracket ?_ loop
          rcases stop with h | h | h
          · exact .inl h
          · exact .inr (.inl h)
          · exact .inr (.inr (by omega))
        · exact reads_binary (unary m inArgs t r stands paren bracket) loop }

/-- A token that is an expression by itself. -/
theorem Inverts.of_leaf (h : e.Admitted) (tok : Token α)
    (printed : ∀ m inArgs, e.print m inArgs = [tok])
    (primary : ∀ t r, t.kind ≠ .lParen → Reads parsePrimary (tok :: t :: r) e (t :: r)) :
    Inverts e := by
  refine .of_primary h (fun m inArgs => by rw [printed, printed]) ?_
  intro inArgs t r e' rest paren loop
  rw [printed]
  exact reads_postfix (primary t r paren) loop

theorem inverts (exact : IndexExact α) (h : e.Admitted) : Inverts e := by
  induction h with
  | number pos n =>
      exact .of_leaf (.number pos n) _ (fun _ _ => rfl) fun t r _ => .now fun _ _ => rfl
  | string pos text =>
      exact .of_leaf (.string pos text) _ (fun _ _ => rfl) fun t r _ => .now fun _ _ => rfl
  | boolean pos b =>
      refine .of_leaf (.boolean pos b) _ (fun _ _ => rfl) fun t r _ => ?_
      cases b with
      | false => exact .now fun _ _ => rfl
      | true => exact .now fun _ _ => rfl
  | ident pos text =>
      by_cases bang : text = "!"
      · subst bang
        exact .of_leaf (.ident pos "!") _ (fun _ _ => rfl) fun t r _ => .now fun _ _ => rfl
      · refine .of_leaf (.ident pos text) (Lexer.make .ident pos text) (fun _ _ => ?_)
          fun t r paren => reads_ident pos text paren
        rw [Expr.print, if_neg bang]
  | @call pos text args hargs ih =>
      refine .of_primary (.call pos text hargs) (fun _ _ => by rw [Expr.print, Expr.print]) ?_
      intro inArgs t r e' rest paren loop
      have args : Reads parseCallArgs
          (glue .lParen :: (printArgs args ++ glue .rParen :: t :: r)) args (t :: r) := by
        refine reads_callArgs fun b hb => ⟨hargs b hb, fun t r separates => ?_⟩
        have stop : Stops 1 true t.kind := by
          rcases separates with h | h
          · exact .inr (.inl ⟨h, rfl⟩)
          · exact .inl (by rw [h]; rfl)
        refine (ih b hb).binary 1 1 true t r b.2 (t :: r) le_rfl (by decide) ?_ ?_ ?_
          (reads_stop stop)
        · rcases separates with h | h <;> rw [h] <;> decide
        · rcases separates with h | h <;> rw [h] <;> decide
        · exact stop.imp_right fun h => h.imp_right fun h => by omega
      have primary := reads_postfix (reads_call pos text args) loop
      rw [Expr.print]
      simpa using primary
  | unary pos h ih => exact .of_unary pos ih
  | binary pos operator ha hb iha ihb =>
      exact .of_binary pos operator (.binary pos operator ha hb) iha ihb
  | @select pos a k ha nonneg small ih =>
      refine .of_primary (.select pos ha nonneg small)
        (fun _ _ => by rw [Expr.print, Expr.print]) ?_
      intro inArgs t r e' rest paren loop
      rw [Expr.print, List.append_assoc, List.cons_append]
      refine ih.select inArgs _ _ e' rest (by decide : Tok.lBracket ≠ .lParen) ?_
      exact reads_select exact rfl nonneg small loop

/-- Whether a token of the kind goes on with an expression that stands before it. -/
def Continues (inArgs : Bool) (k : Tok) : Prop :=
  k = .lParen ∨ k = .lBracket ∨ binprec k ≠ 0 ∧ ¬(k = .comma ∧ inArgs)

/-- **Parsing inverts printing.**  With enough fuel, parsing the tokens of an expression before
a token that does not go on with it takes exactly these tokens, reports nothing and returns the
expression, its positions included. -/
theorem parseExpr_print (exact : IndexExact α) (h : e.Admitted) (inArgs : Bool) {t : Token α}
    (r : List (Token α)) (stop : ¬Continues inArgs t.kind) (d : List Diagnostic) :
    ∀ᶠ fuel in atTop, parseExpr fuel inArgs ⟨e.print 1 inArgs ++ t :: r, d⟩
      = (.ok e, ⟨t :: r, d⟩) := by
  obtain ⟨paren, stop⟩ := not_or.mp stop
  obtain ⟨bracket, operator⟩ := not_or.mp stop
  have stops : binprec t.kind = 0 ∨ t.kind = .comma ∧ inArgs = true := by tauto
  refine (inverts exact h).binary 1 1 inArgs t r e (t :: r) le_rfl (by decide) paren bracket ?_
    (reads_stop ?_) d
  · exact stops.imp_right .inl
  · exact stops.imp_right .inl

end Inverts

/-- Conversion to `int` truncates. -/
instance CInt.rational : CInt ℚ := ⟨fun q => if q < 0 then ⌈q⌉ else ⌊q⌋⟩

theorem indexExact_rational : IndexExact ℚ := by
  intro k _
  constructor
  · show (if ((k : ℕ) : ℚ) < 0 then ⌈((k : ℕ) : ℚ)⌉ else ⌊((k : ℕ) : ℚ)⌋) = _
    rw [if_neg (not_lt.mpr (Nat.cast_nonneg k))]
    exact Int.floor_natCast k
  · exact decide_eq_true rfl

/-- `-(a, b)[1] : f(x=2, (c, !))`. -/
def selectedCall : Expr ℚ :=
  .binary {} .colon
    (.unary {} (.select {} (.binary {} .comma (.ident {} "a") (.ident {} "b")) 1))
    (.call {} "f" [("x", .number {} 2), ("", .binary {} .comma (.ident {} "c") (.ident {} "!"))])

theorem selectedCall_admitted : selectedCall.Admitted := by
  refine .binary {} (by decide) (.unary {} (.select {} (.binary {} (by decide) (.ident {} "a")
    (.ident {} "b")) (by decide) (by decide))) (.call {} "f" fun a ha => ?_)
  rcases List.mem_pair.mp ha with rfl | rfl
  · exact .number {} 2
  · exact .binary {} (by decide) (.ident {} "c") (.ident {} "!")

theorem parseExpr_selectedCall : ∀ᶠ fuel in atTop,
    parseExpr fuel true ⟨selectedCall.print 1 true ++ [glue .comma, glue .end], []⟩
      = (.ok selectedCall, ⟨[glue .comma, glue .end], []⟩) :=
  parseExpr_print indexExact_rational selectedCall_admitted true _
    (by simp [Continues, glue, Lexer.make]) []

example : (selectedCall.print 1 false).map Token.kind =
    [.minus, .lParen, .ident, .comma, .ident, .rParen, .lBracket, .number, .rBracket, .colon,
      .ident, .lParen, .ident, .assign, .number, .comma,
      .lParen, .ident, .comma, .bang, .rParen, .rParen] := rfl

end Xrune.Lang
