import Xrune.Lang.Parser

/-!
# Lang — the front end is total

Whatever the bytes, lexing ends with a list of tokens the parser can rely on (`Lexed`), and
parsing ends at its last token with a program and some diagnostics, having read no token that is
not there (`parse_total`).  A turn of a loop, and a function that calls itself, takes a token, or
adds a diagnostic and is made to take one.  When there is no diagnostic, the tokens are those of
the definitions in order, each from its keyword to an `end` of its own (`Closed`).
-/

namespace Xrune.Lang

open Stateful

variable {α : Type}

/-! ### The tokens that are left -/

/-- The tokens end in an end token, their only one. -/
inductive Ended : List (Token α) → Prop where
  | last {t : Token α} (h : t.kind = .end) : Ended [t]
  | more {t : Token α} {r : List (Token α)} (h : t.kind ≠ .end) (rest : Ended r) : Ended (t :: r)

theorem Lexed.ended' {toks : List (Token α)} (h : Lexed toks) : Ended toks := by
  obtain ⟨body, last, rfl, hlast, going⟩ := h.ended
  clear h
  induction body with
  | nil => exact .last hlast
  | cons t body ih =>
      exact .more (going t List.mem_cons_self) (ih fun t ht => going t (List.mem_cons_of_mem _ ht))

theorem Ended.of_cons {t : Token α} {r : List (Token α)} (h : Ended (t :: r)) :
    t.kind = .end ∧ r = [] ∨ t.kind ≠ .end ∧ Ended r := by
  cases h with
  | last last => exact .inl ⟨last, rfl⟩
  | more going rest => exact .inr ⟨going, rest⟩

theorem Ended.tail {t : Token α} {r : List (Token α)} (h : Ended (t :: r)) (going : t.kind ≠ .end) :
    Ended r :=
  h.of_cons.elim (fun last => absurd last.1 going) And.right

theorem Ended.pos {toks : List (Token α)} (h : Ended toks) : 0 < toks.length := by
  cases h <;> exact Nat.succ_pos _

/-- `rune`, `sigil` and `end`. -/
def isDelimiter (k : Tok) : Bool := k = .kwRune || k = .kwSigil || k = .kwEnd

/-- The tokens from `s` on up to `s'` were read, among them no end token and, if there was
nothing to diagnose, no delimiter of definitions. -/
structure Passes (s s' : Parser α) : Prop where
  toks : ∃ used, s.toks = used ++ s'.toks ∧ (∀ t ∈ used, t.kind ≠ .end) ∧
    (s'.diags = s.diags → ∀ t ∈ used, isDelimiter t.kind = false)
  diags : s.diags <+: s'.diags

/-- At least one token was read, or there is a new diagnostic. -/
structure Moves (s s' : Parser α) : Prop extends Passes s s' where
  moved : s'.toks.length < s.toks.length ∨ s'.diags ≠ s.diags

namespace Passes

variable {s s' s₂ : Parser α}

theorem refl (s : Parser α) : Passes s s :=
  ⟨⟨[], rfl, fun _ h => absurd h List.not_mem_nil, fun _ _ h => absurd h List.not_mem_nil⟩,
    List.prefix_rfl⟩

theorem trans (h : Passes s s') (h' : Passes s' s₂) : Passes s s₂ := by
  obtain ⟨used, hs, going, own⟩ := h.toks
  obtain ⟨used', hs', going', own'⟩ := h'.toks
  refine ⟨⟨used ++ used', by rw [hs, hs', List.append_assoc], ?_, fun quiet => ?_⟩,
    h.diags.trans h'.diags⟩
  · intro t ht
    exact (List.mem_append.mp ht).elim (going t) (going' t)
  · -- nothing was diagnosed on either part
    have first : s'.diags = s.diags :=
      h.diags.eq_of_length_le (quiet ▸ h'.diags.length_le) |>.symm
    have second : s₂.diags = s'.diags := quiet.trans first.symm
    intro t ht
    exact (List.mem_append.mp ht).elim (own first t) (own' second t)

theorem le (h : Passes s s') : s'.toks.length ≤ s.toks.length := by
  obtain ⟨used, hs, -⟩ := h.toks
  rw [hs, List.length_append]
  exact Nat.le_add_left _ _

theorem ended (h : Passes s s') (ended : Ended s.toks) : Ended s'.toks := by
  obtain ⟨used, hs, going, -⟩ := h.toks
  rw [hs] at ended
  clear hs h
  induction used with
  | nil => exact ended
  | cons t used ih =>
      exact ih (ended.tail (going t List.mem_cons_self))
        fun t ht => going t (List.mem_cons_of_mem _ ht)

/-- One token is taken. -/
theorem token {t : Token α} {r : List (Token α)} {d : List Diagnostic} (going : t.kind ≠ .end)
    (own : isDelimiter t.kind = false) : Passes ⟨t :: r, d⟩ ⟨r, d⟩ :=
  ⟨⟨[t], rfl, fun _ h => List.mem_singleton.mp h ▸ going,
    fun _ _ h => List.mem_singleton.mp h ▸ own⟩, List.prefix_rfl⟩

/-- A diagnostic is added. -/
theorem diag (s : Parser α) (d : Diagnostic) :
    Passes s { s with diags := s.diags ++ [d] } :=
  ⟨(refl s).toks.imp fun _ h => ⟨h.1, h.2.1, fun quiet => absurd quiet (by simp)⟩,
    List.prefix_append _ _⟩

end Passes

namespace Moves

variable {s s' s₂ : Parser α}

theorem trans (h : Moves s s') (h' : Passes s' s₂) : Moves s s₂ := by
  refine ⟨h.toPasses.trans h', ?_⟩
  rcases h.moved with shorter | new
  · exact .inl (h'.le.trans_lt shorter)
  · refine .inr fun quiet => new ?_
    exact (h.diags.eq_of_length_le (quiet ▸ h'.diags.length_le)).symm

theorem trans' (h : Passes s s') (h' : Moves s' s₂) : Moves s s₂ := by
  refine ⟨h.trans h'.toPasses, ?_⟩
  rcases h'.moved with shorter | new
  · exact .inl (shorter.trans_le h.le)
  · refine .inr fun quiet => new ?_
    have first : s'.diags = s.diags :=
      (h.diags.eq_of_length_le (quiet ▸ h'.diags.length_le)).symm
    exact quiet.trans first.symm

theorem token {t : Token α} {r : List (Token α)} {d : List Diagnostic} (going : t.kind ≠ .end)
    (own : isDelimiter t.kind = false) : Moves ⟨t :: r, d⟩ ⟨r, d⟩ :=
  ⟨.token going own, .inl (Nat.lt_succ_self _)⟩

theorem diag (s : Parser α) (d : Diagnostic) : Moves s { s with diags := s.diags ++ [d] } :=
  ⟨.diag s d, .inr (by simp)⟩

end Moves

/-! ### Taking tokens -/

section Tokens

variable {s : Parser α} {k : Tok}

theorem cur_yields (h : Ended s.toks) :
    Yields cur s fun t s' => s' = s ∧ ∃ r, s.toks = t :: r := by
  obtain ⟨toks, d⟩ := s
  cases toks with
  | nil => exact absurd h.pos (Nat.lt_irrefl 0)
  | cons t r => exact ⟨t, _, rfl, rfl, r, rfl⟩

theorem peek_yields {t : Token α} {r : List (Token α)} (h : Ended s.toks) (ht : s.toks = t :: r)
    (going : t.kind ≠ .end) : Yields peek s fun u s' => s' = s ∧ ∃ r', r = u :: r' := by
  obtain ⟨toks, d⟩ := s
  obtain rfl : toks = t :: r := ht
  cases r with
  | nil => exact absurd (h.tail going).pos (Nat.lt_irrefl 0)
  | cons u r => exact ⟨u, _, rfl, rfl, r, rfl⟩

theorem isAt_yields (h : Ended s.toks) (k : Tok) :
    Yields (isAt k) s fun b s' => s' = s ∧ ∃ t r, s.toks = t :: r ∧ b = decide (t.kind = k) :=
  (cur_yields h).bind fun t _ ⟨hs, r, ht⟩ => .pure ⟨hs, t, r, hs ▸ ht, rfl⟩

/-- A token that is not the end is taken. -/
theorem adv_yields {t : Token α} {r : List (Token α)} (h : Ended s.toks) (ht : s.toks = t :: r)
    (going : t.kind ≠ .end) : Yields adv s fun _ s' => s' = { s with toks := r } := by
  obtain ⟨toks, d⟩ := s
  obtain rfl : toks = t :: r := ht
  cases r with
  | nil => exact absurd (h.tail going).pos (Nat.lt_irrefl 0)
  | cons u r => exact ⟨(), _, rfl, rfl⟩

theorem adv_moves {t : Token α} {r : List (Token α)} (h : Ended s.toks) (ht : s.toks = t :: r)
    (going : t.kind ≠ .end) (own : isDelimiter t.kind = false) :
    Yields adv s fun _ s' => Moves s s' ∧ s'.toks.length < s.toks.length := by
  refine (adv_yields h ht going).mono fun _ s' hs' => ?_
  obtain ⟨toks, d⟩ := s
  obtain rfl : toks = t :: r := ht
  rw [hs']
  exact ⟨.token going own, Nat.lt_succ_self _⟩

theorem error_adds (h : Ended s.toks) (m : String) :
    Yields (error m) s fun _ s' => ∃ d, s' = { s with diags := s.diags ++ [d] } := by
  refine (cur_yields h).bind fun t s' ⟨hs, _⟩ => ?_
  subst hs
  exact ⟨(), _, rfl, _, rfl⟩

theorem error_yields (h : Ended s.toks) (m : String) :
    Yields (error m) s fun _ s' => Moves s s' ∧ s'.toks = s.toks := by
  refine (error_adds h m).mono fun _ s' ⟨d, hs⟩ => ?_
  rw [hs]
  exact ⟨.diag s d, rfl⟩

theorem accept_yields (h : Ended s.toks) (going : k ≠ .end) (own : isDelimiter k = false) :
    Yields (accept k) s fun b s' =>
      if b then Moves s s' ∧ s'.toks.length < s.toks.length else s' = s := by
  refine (isAt_yields h k).bind fun b s' ⟨hs, t, r, ht, hb⟩ => ?_
  subst hs
  refine .ite (fun taken => ?_) fun _ => .pure rfl
  have kind : t.kind = k := by simpa [hb] using taken
  exact (adv_moves h ht (kind ▸ going) (kind ▸ own)).bind fun _ _ moved => .pure moved

/-- The token expected is taken, or its absence reported. -/
theorem expect_takes (h : Ended s.toks) (going : k ≠ .end) (what : String) :
    Yields (expect k what) s fun t s' =>
      (s = ⟨t :: s'.toks, s'.diags⟩ ∧ t.kind = k) ∨
        ∃ d, s' = { s with diags := s.diags ++ [d] } := by
  refine (cur_yields h).bind fun t s' ⟨hs, r, ht⟩ => ?_
  subst hs
  refine .ite (fun kind => ?_) fun _ => ?_
  · refine (adv_yields h ht (kind ▸ going)).bind fun _ _ hs => ?_
    exact .pure (.inl ⟨by rw [hs, ← ht], kind⟩)
  · refine (error_adds h _).bind fun _ s₁ ⟨d, hs⟩ => ?_
    have h₁ : Ended s₁.toks := by
      rw [hs]
      exact h
    exact (cur_yields h₁).mono fun _ _ ⟨same, _⟩ => .inr ⟨d, same.trans hs⟩

theorem expect_yields (h : Ended s.toks) (going : k ≠ .end) (own : isDelimiter k = false)
    (what : String) : Yields (expect k what) s fun _ s' => Moves s s' := by
  refine (expect_takes h going what).mono fun t s' taken => ?_
  rcases taken with ⟨hs, kind⟩ | ⟨d, hs⟩
  · rw [hs]
    exact .token (kind ▸ going) (kind ▸ own)
  · rw [hs]
    exact .diag s d

end Tokens

/-! ### Expressions -/

variable [Sample α] [CInt α]

theorem parseIndex_yields {s : Parser α} (h : Ended s.toks) :
    Yields parseIndex s fun _ s' => Moves s s' := by
  refine (cur_yields h).bind fun t s' ⟨hs, r, ht⟩ => ?_
  subst hs
  refine .ite (fun kind => ?_) fun _ => ?_
  · refine (adv_moves h ht (kind ▸ by decide) (kind ▸ by decide)).bind fun _ s' ⟨moved, _⟩ => ?_
    refine .ite (fun _ => ?_) fun _ => .pure moved
    exact (error_yields (moved.ended h) _).bind fun _ _ more => .pure (moved.trans more.1.toPasses)
  · exact (error_yields h _).bind fun _ _ moved => .pure moved.1

/-- What the functions for expressions do on any tokens, given this much fuel: they end, and but
for the loops they make a move. -/
structure ExprSpec (α : Type) [Sample α] [CInt α] (n : Nat) : Prop where
  binary : ∀ (s : Parser α) (p : Nat) (a : Bool), Ended s.toks → 8 * s.toks.length + 4 ≤ n →
    Yields (parseBinary n p a) s fun _ s' => Moves s s'
  loop : ∀ (s : Parser α) (p : Nat) (a : Bool) (e : Expr α), Ended s.toks →
    8 * s.toks.length + 3 ≤ n → Yields (binaryLoop n p a e) s fun _ s' => Passes s s'
  unary : ∀ s : Parser α, Ended s.toks → 8 * s.toks.length + 3 ≤ n →
    Yields (parseUnary n) s fun _ s' => Moves s s'
  postfix' : ∀ s : Parser α, Ended s.toks → 8 * s.toks.length + 2 ≤ n →
    Yields (parsePostfix n) s fun _ s' => Moves s s'
  selects : ∀ (s : Parser α) (e : Expr α), Ended s.toks → 8 * s.toks.length + 1 ≤ n →
    Yields (selectLoop n e) s fun _ s' => Passes s s'
  primary : ∀ s : Parser α, Ended s.toks → 8 * s.toks.length + 1 ≤ n →
    Yields (parsePrimary n) s fun _ s' => Moves s s'
  callArgs : ∀ s : Parser α, Ended s.toks → 8 * s.toks.length + 6 ≤ n →
    Yields (parseCallArgs n) s fun _ s' => Moves s s'
  args : ∀ (s : Parser α) (args : List (Argument α)), Ended s.toks → 8 * s.toks.length + 5 ≤ n →
    Yields (argsLoop n args) s fun _ s' => Moves s s'

section Step

variable {n : Nat} {s : Parser α}

theorem parseBinary_step (S : ExprSpec α n) (p : Nat) (a : Bool) (h : Ended s.toks)
    (fuel : 8 * s.toks.length + 4 ≤ n + 1) :
    Yields (parseBinary (n + 1) p a) s fun _ s' => Moves s s' := by
  refine (S.unary s h (by omega)).bind fun left s' moved => ?_
  have := moved.le
  exact (S.loop s' p a left (moved.ended h) (by omega)).mono fun _ _ more => moved.trans more

theorem binaryLoop_step (S : ExprSpec α n) (p : Nat) (a : Bool) (e : Expr α) (h : Ended s.toks)
    (fuel : 8 * s.toks.length + 3 ≤ n + 1) :
    Yields (binaryLoop (n + 1) p a e) s fun _ s' => Passes s s' := by
  refine (cur_yields h).bind fun t s' ⟨hs, r, ht⟩ => ?_
  subst hs
  refine .ite (fun _ => .pure (.refl _)) fun op => ?_
  -- an operator is neither the end nor a delimiter
  have operator : binprec t.kind ≠ 0 := fun h => op (.inl h)
  have going : t.kind ≠ .end := fun h => operator (by rw [h]; rfl)
  have own : isDelimiter t.kind = false := by
    cases kind : t.kind with
    | kwRune | kwSigil | kwEnd => rw [kind] at operator; exact absurd rfl operator
    | _ => rfl
  refine (adv_moves h ht going own).bind fun _ s₁ ⟨moved, shorter⟩ => ?_
  refine (S.binary s₁ _ _ (moved.ended h) (by omega)).bind fun right s₂ moved' => ?_
  have := moved'.le
  refine (S.loop s₂ _ _ _ (moved'.ended (moved.ended h)) (by omega)).mono fun _ _ more => ?_
  exact (moved.toPasses.trans moved'.toPasses).trans more

theorem parseUnary_step (S : ExprSpec α n) (h : Ended s.toks)
    (fuel : 8 * s.toks.length + 3 ≤ n + 1) :
    Yields (parseUnary (n + 1)) s fun _ s' => Moves s s' := by
  refine (cur_yields h).bind fun t s' ⟨hs, r, ht⟩ => ?_
  subst hs
  refine .ite (fun kind => ?_) fun _ => S.postfix' _ h (by omega)
  refine (adv_moves h ht (kind ▸ by decide) (kind ▸ by decide)).bind fun _ s₁ ⟨moved, shorter⟩ => ?_
  refine (S.unary s₁ (moved.ended h) (by omega)).bind fun _ _ more => ?_
  exact .pure (moved.trans more.toPasses)

theorem parsePostfix_step (S : ExprSpec α n) (h : Ended s.toks)
    (fuel : 8 * s.toks.length + 2 ≤ n + 1) :
    Yields (parsePostfix (n + 1)) s fun _ s' => Moves s s' := by
  refine (S.primary s h (by omega)).bind fun base s' moved => ?_
  have := moved.le
  exact (S.selects s' base (moved.ended h) (by omega)).mono fun _ _ more => moved.trans more

theorem selectLoop_step (S : ExprSpec α n) (e : Expr α) (h : Ended s.toks)
    (fuel : 8 * s.toks.length + 1 ≤ n + 1) :
    Yields (selectLoop (n + 1) e) s fun _ s' => Passes s s' := by
  refine (cur_yields h).bind fun t s' ⟨hs, r, ht⟩ => ?_
  subst hs
  refine .ite (fun kind => ?_) fun _ => .pure (.refl _)
  refine (adv_moves h ht (kind ▸ by decide) (kind ▸ by decide)).bind fun _ s₁ ⟨moved, shorter⟩ => ?_
  have h₁ := moved.ended h
  refine (parseIndex_yields h₁).bind fun idx s₂ index => ?_
  have h₂ := index.ended h₁
  refine (expect_yields h₂ (by decide) (by decide) _).bind fun _ s₃ bracket => ?_
  have := index.le
  have := bracket.le
  refine (S.selects s₃ _ (bracket.ended h₂) (by omega)).mono fun _ _ more => ?_
  exact ((moved.toPasses.trans index.toPasses).trans bracket.toPasses).trans more

theorem parsePrimary_step (S : ExprSpec α n) (h : Ended s.toks)
    (fuel : 8 * s.toks.length + 1 ≤ n + 1) :
    Yields (parsePrimary (n + 1)) s fun _ s' => Moves s s' := by
  refine (cur_yields h).bind fun t s' ⟨hs, r, ht⟩ => ?_
  subst hs
  have take : ∀ k, t.kind = k → k ≠ .end → isDelimiter k = false →
      Yields adv s' fun _ s₁ => Moves s' s₁ ∧ s₁.toks.length < s'.toks.length :=
    fun k kind going own => adv_moves h ht (kind ▸ going) (kind ▸ own)
  -- a token that is an expression by itself
  have leaf : ∀ k, t.kind = k → k ≠ .end → isDelimiter k = false → ∀ e : Expr α,
      Yields (adv >>= fun _ => pure e) s' fun _ s₁ => Moves s' s₁ :=
    fun k kind going own e => (take k kind going own).bind fun _ _ moved => .pure moved.1
  split
  case h_1 kind => exact leaf _ kind (by decide) (by decide) _
  case h_2 kind =>
    refine (take _ kind (by decide) (by decide)).bind fun _ s₁ ⟨moved, shorter⟩ => ?_
    have h₁ := moved.ended h
    refine (S.binary s₁ 1 false h₁ (by omega)).bind fun e s₂ moved' => ?_
    refine (expect_yields (moved'.ended h₁) (by decide) (by decide) _).bind fun _ _ paren => ?_
    exact .pure ((moved.trans moved'.toPasses).trans paren.toPasses)
  case h_3 kind => exact leaf _ kind (by decide) (by decide) _
  case h_4 kind => exact leaf _ kind (by decide) (by decide) _
  case h_5 kind => exact leaf _ kind (by decide) (by decide) _
  case h_6 kind => exact leaf _ kind (by decide) (by decide) _
  case h_7 kind =>
    refine (take _ kind (by decide) (by decide)).bind fun _ s₁ ⟨moved, shorter⟩ => ?_
    have h₁ := moved.ended h
    refine (isAt_yields h₁ _).bind fun _ s₂ ⟨hs₂, _⟩ => ?_
    subst hs₂
    refine .ite (fun _ => ?_) fun _ => .pure moved
    refine (S.callArgs s₂ h₁ (by omega)).bind fun _ _ args => ?_
    exact .pure (moved.trans args.toPasses)
  case h_8 => exact (error_yields h _).bind fun _ _ moved => .pure moved.1

omit [Sample α] [CInt α] in
theorem atAssignment_yields (h : Ended s.toks) : Yields atAssignment s fun b s' => s' = s ∧
    (b = true → ∃ t u r, s.toks = t :: u :: r ∧ t.kind = .ident ∧ u.kind = .assign) := by
  refine (isAt_yields h _).bind fun b s' ⟨hs, t, r, ht, hb⟩ => ?_
  subst hs
  refine .ite (fun ident => ?_) fun _ => .pure ⟨rfl, fun h => nomatch h⟩
  have ident : t.kind = .ident := by simpa [hb] using ident
  refine (peek_yields h ht (ident ▸ by decide)).bind fun u s' ⟨hs, r', hr⟩ => ?_
  subst hs
  exact .pure ⟨rfl, fun assign => ⟨t, u, r', by rw [ht, hr], ident, by simpa using assign⟩⟩

omit [Sample α] [CInt α] in
/-- A name and the `=` after it are taken. -/
theorem adv_twice {t u : Token α} {r : List (Token α)} (h : Ended s.toks)
    (ht : s.toks = t :: u :: r) (ident : t.kind = .ident) (assign : u.kind = .assign) {β : Type}
    {f : ParseM α β} {P : β → Parser α → Prop}
    (next : ∀ s', Moves s s' → s'.toks.length < s.toks.length → Yields f s' P) :
    Yields (do adv; adv; f) s P := by
  refine (adv_yields h ht (ident ▸ by decide)).bind fun _ s₁ hs₁ => ?_
  obtain ⟨toks, d⟩ := s
  obtain rfl : toks = t :: u :: r := ht
  subst hs₁
  have one : Moves ⟨t :: u :: r, d⟩ ⟨u :: r, d⟩ := .token (ident ▸ by decide) (ident ▸ by decide)
  refine (adv_moves (one.ended h) rfl (assign ▸ by decide) (assign ▸ by decide)).bind
    fun _ s₂ ⟨two, shorter⟩ => ?_
  exact next s₂ (one.trans two.toPasses) (shorter.trans (Nat.lt_succ_self _))

omit [Sample α] [CInt α] in
theorem argName_yields (h : Ended s.toks) : Yields argName s fun _ s' => Passes s s' := by
  refine (atAssignment_yields h).bind fun b s' ⟨hs, named⟩ => ?_
  subst hs
  refine .ite (fun hb => ?_) fun _ => .pure (.refl _)
  obtain ⟨t, u, r, ht, ident, assign⟩ := named hb
  refine (cur_yields h).bind fun _ s' ⟨hs, _⟩ => ?_
  subst hs
  exact adv_twice h ht ident assign fun _ moved _ => .pure moved.toPasses

theorem argsLoop_step (S : ExprSpec α n) (args : List (Argument α)) (h : Ended s.toks)
    (fuel : 8 * s.toks.length + 5 ≤ n + 1) :
    Yields (argsLoop (n + 1) args) s fun _ s' => Moves s s' := by
  refine (argName_yields h).bind fun name s₁ passed => ?_
  have h₁ := passed.ended h
  have := passed.le
  refine (S.binary s₁ 1 true h₁ (by omega)).bind fun value s₂ moved => ?_
  have h₂ := moved.ended h₁
  have := moved.le
  have sofar : Moves s s₂ := .trans' passed moved
  refine (accept_yields h₂ (by decide) (by decide)).bind fun b s₃ comma => ?_
  cases b with
  | false => exact .pure (comma ▸ sofar)
  | true =>
      obtain ⟨comma, shorter⟩ : Moves s₂ s₃ ∧ _ := comma
      refine (S.args s₃ _ (comma.ended h₂) (by omega)).mono fun _ _ more => ?_
      exact (sofar.trans comma.toPasses).trans more.toPasses

theorem parseCallArgs_step (S : ExprSpec α n) (h : Ended s.toks)
    (fuel : 8 * s.toks.length + 6 ≤ n + 1) :
    Yields (parseCallArgs (n + 1)) s fun _ s' => Moves s s' := by
  refine (expect_yields h (by decide) (by decide) _).bind fun _ s₁ opened => ?_
  have h₁ := opened.ended h
  have := opened.le
  refine (accept_yields h₁ (by decide) (by decide)).bind fun b s₂ closed => ?_
  cases b with
  | true =>
      obtain ⟨closed, -⟩ : Moves s₁ s₂ ∧ _ := closed
      exact .pure (opened.trans closed.toPasses)
  | false =>
      obtain rfl : s₂ = s₁ := closed
      refine (S.args s₂ [] h₁ (by omega)).bind fun args s₃ moved => ?_
      refine (expect_yields (moved.ended h₁) (by decide) (by decide) _).bind fun _ _ paren => ?_
      exact .pure ((opened.trans moved.toPasses).trans paren.toPasses)

end Step

theorem exprSpec : ∀ n, ExprSpec α n
  | 0 =>
      have none : ∀ {s : Parser α} {c : Nat} {p : Prop}, Ended s.toks →
          8 * s.toks.length + c ≤ 0 → p := fun h fuel => by have := h.pos; omega
      { binary := fun _ _ _ h fuel => none h fuel
        loop := fun _ _ _ _ h fuel => none h fuel
        unary := fun _ h fuel => none h fuel
        postfix' := fun _ h fuel => none h fuel
        selects := fun _ _ h fuel => none h fuel
        primary := fun _ h fuel => none h fuel
        callArgs := fun _ h fuel => none h fuel
        args := fun _ _ h fuel => none h fuel }
  | n + 1 =>
      have S := exprSpec n
      { binary := fun _ p a h fuel => parseBinary_step S p a h fuel
        loop := fun _ p a e h fuel => binaryLoop_step S p a e h fuel
        unary := fun _ h fuel => parseUnary_step S h fuel
        postfix' := fun _ h fuel => parsePostfix_step S h fuel
        selects := fun _ e h fuel => selectLoop_step S e h fuel
        primary := fun _ h fuel => parsePrimary_step S h fuel
        callArgs := fun _ h fuel => parseCallArgs_step S h fuel
        args := fun _ args h fuel => argsLoop_step S args h fuel }

/-- Parsing an expression ends, and takes a token or reports a diagnostic. -/
theorem parseExpr_yields {s : Parser α} {fuel : Nat} (a : Bool) (h : Ended s.toks)
    (enough : 8 * s.toks.length + 4 ≤ fuel) :
    Yields (parseExpr fuel a) s fun _ s' => Moves s s' := (exprSpec fuel).binary s 1 a h enough

/-! ### Statements -/

section Statements

variable {s : Parser α} {fuel : Nat}

omit [Sample α] [CInt α] in
theorem pathLoop_yields : ∀ (n : Nat) (s : Parser α) (parts : List String), Ended s.toks →
    s.toks.length ≤ n → Yields (pathLoop n parts) s fun _ s' => Passes s s'
  | 0, s, _, h, hn         => absurd h.pos (by omega)
  | n + 1, s, parts, h, hn => by
      refine (accept_yields h (by decide) (by decide)).bind fun b s₁ dot => ?_
      cases b with
      | false => exact .pure (dot ▸ .refl s)
      | true =>
          obtain ⟨dot, shorter⟩ : Moves s s₁ ∧ _ := dot
          have h₁ := dot.ended h
          refine (expect_yields h₁ (by decide) (by decide) _).bind fun _ s₂ name => ?_
          have := name.le
          refine (pathLoop_yields n s₂ _ (name.ended h₁) (by omega)).mono fun _ _ more => ?_
          exact (dot.toPasses.trans name.toPasses).trans more

omit [Sample α] [CInt α] in
theorem parsePortPath_yields (h : Ended s.toks) (enough : s.toks.length ≤ fuel) :
    Yields (parsePortPath fuel) s fun _ s' => Moves s s' := by
  refine (cur_yields h).bind fun _ s' ⟨hs, _⟩ => ?_
  subst hs
  refine (expect_yields h (by decide) (by decide) _).bind fun _ s₁ first => ?_
  have := first.le
  refine (pathLoop_yields fuel s₁ _ (first.ended h) (by omega)).bind fun _ s₂ more => ?_
  refine .ite (fun _ => ?_) fun _ => .pure (first.trans more)
  exact ⟨_, _, rfl, (first.trans more).trans (.diag s₂ _)⟩

theorem parseInput_yields {t : Token α} {r : List (Token α)} (h : Ended s.toks)
    (ht : s.toks = t :: r) (kind : t.kind = .kwInput) (enough : 8 * s.toks.length ≤ fuel) :
    Yields (parseInput fuel) s fun _ s' => Moves s s' := by
  refine (cur_yields h).bind fun _ s' ⟨hs, _⟩ => ?_
  subst hs
  refine (adv_moves h ht (kind ▸ by decide) (kind ▸ by decide)).bind fun _ s₁ ⟨moved, shorter⟩ => ?_
  have h₁ := moved.ended h
  refine (expect_yields h₁ (by decide) (by decide) _).bind fun _ s₂ name => ?_
  have := name.le
  refine ((exprSpec fuel).callArgs s₂ (name.ended h₁) (by omega)).bind fun _ _ args => ?_
  exact .pure ((moved.trans name.toPasses).trans args.toPasses)

theorem outIndex_yields (h : Ended s.toks) : Yields outIndex s fun _ s' => Passes s s' := by
  refine (accept_yields h (by decide) (by decide)).bind fun b s₁ bracket => ?_
  cases b with
  | false => exact .pure (bracket ▸ .refl s)
  | true =>
      obtain ⟨bracket, -⟩ : Moves s s₁ ∧ _ := bracket
      have h₁ := bracket.ended h
      refine (parseIndex_yields h₁).bind fun _ s₂ index => ?_
      refine (expect_yields (index.ended h₁) (by decide) (by decide) _).bind fun _ _ closed => ?_
      exact .pure ((bracket.toPasses.trans index.toPasses).trans closed.toPasses)

omit [Sample α] [CInt α] in
theorem outTerminal_yields (h : Ended s.toks) : Yields outTerminal s fun _ s' => Passes s s' := by
  refine (accept_yields h (by decide) (by decide)).bind fun b s₁ named => ?_
  cases b with
  | false => exact .pure (named ▸ .refl s)
  | true =>
      obtain ⟨named, -⟩ : Moves s s₁ ∧ _ := named
      refine (expect_yields (named.ended h) (by decide) (by decide) _).bind fun _ _ name => ?_
      exact .pure (named.toPasses.trans name.toPasses)

theorem parseOut_yields {t : Token α} {r : List (Token α)} (h : Ended s.toks)
    (ht : s.toks = t :: r) (kind : t.kind = .kwOut) (enough : 8 * s.toks.length ≤ fuel) :
    Yields (parseOut fuel) s fun _ s' => Moves s s' := by
  refine (cur_yields h).bind fun _ s' ⟨hs, _⟩ => ?_
  subst hs
  refine (adv_moves h ht (kind ▸ by decide) (kind ▸ by decide)).bind fun _ s₁ ⟨moved, shorter⟩ => ?_
  have h₁ := moved.ended h
  refine (outIndex_yields h₁).bind fun _ s₂ index => ?_
  have h₂ := index.ended h₁
  have := index.le
  refine (parseExpr_yields false h₂ (by omega)).bind fun _ s₃ e => ?_
  refine (outTerminal_yields (e.ended h₂)).bind fun _ _ terminal => ?_
  exact .pure (((moved.trans index).trans e.toPasses).trans terminal)

theorem parseWire_yields (h : Ended s.toks) (enough : 8 * s.toks.length + 4 ≤ fuel) :
    Yields (parseWire fuel) s fun _ s' => Moves s s' := by
  refine (cur_yields h).bind fun _ s' ⟨hs, _⟩ => ?_
  subst hs
  refine (parseExpr_yields false h enough).bind fun _ s₁ e => ?_
  have h₁ := e.ended h
  have := e.le
  refine (accept_yields h₁ (by decide) (by decide)).bind fun b s₂ modulate => ?_
  cases b with
  | true =>
      obtain ⟨modulate, -⟩ : Moves s₁ s₂ ∧ _ := modulate
      have := modulate.le
      refine (parsePortPath_yields (modulate.ended h₁) (by omega)).bind fun _ _ target => ?_
      exact .pure ((e.trans modulate.toPasses).trans target.toPasses)
  | false =>
      obtain rfl : s₂ = s₁ := modulate
      refine (accept_yields h₁ (by decide) (by decide)).bind fun b s₃ arrow => ?_
      cases b with
      | false => exact .pure (arrow ▸ e)
      | true =>
          obtain ⟨arrow, -⟩ : Moves s₂ s₃ ∧ _ := arrow
          have h₃ := arrow.ended h₁
          refine (expect_yields h₃ (by decide) (by decide) _).bind fun _ s₄ target => ?_
          have h₄ := target.ended h₃
          refine (expect_yields h₄ (by decide) (by decide) _).bind fun _ s₅ opened => ?_
          have h₅ := opened.ended h₄
          refine (parseIndex_yields h₅).bind fun _ s₆ index => ?_
          have h₆ := index.ended h₅
          refine (expect_yields h₆ (by decide) (by decide) _).bind fun _ _ closed => ?_
          exact .pure (((((e.trans arrow.toPasses).trans target.toPasses).trans
            opened.toPasses).trans index.toPasses).trans closed.toPasses)

/-- Parsing a statement ends, and takes a token or reports a diagnostic. -/
theorem parseStatement_yields (h : Ended s.toks) (enough : 8 * s.toks.length + 4 ≤ fuel) :
    Yields (parseStatement fuel) s fun _ s' => Moves s s' := by
  refine (isAt_yields h .kwInput).bind fun b s' ⟨hs, t, r, ht, hb⟩ => ?_
  subst hs
  refine .ite (fun is => ?_) fun _ => ?_
  · exact parseInput_yields h ht (by simpa [hb] using is) (by omega)
  refine (isAt_yields h .kwOut).bind fun b s' ⟨hs, t, r, ht, hb⟩ => ?_
  subst hs
  refine .ite (fun is => ?_) fun _ => ?_
  · exact parseOut_yields h ht (by simpa [hb] using is) (by omega)
  refine (atAssignment_yields h).bind fun b s' ⟨hs, named⟩ => ?_
  subst hs
  refine .ite (fun hb => ?_) fun _ => parseWire_yields h enough
  obtain ⟨t, u, r, ht, ident, assign⟩ := named hb
  refine (cur_yields h).bind fun _ s' ⟨hs, _⟩ => ?_
  subst hs
  refine adv_twice h ht ident assign fun s₁ moved shorter => ?_
  refine (parseExpr_yields false (moved.ended h) (by omega)).bind fun _ _ value => ?_
  exact .pure (moved.trans value.toPasses)

end Statements

/-! ### Definitions -/

section Definitions

variable {s : Parser α} {fuel : Nat}

/-- Only newlines were read. -/
def OverLines (s s' : Parser α) : Prop :=
  ∃ lines, s = ⟨lines ++ s'.toks, s'.diags⟩ ∧ ∀ t ∈ lines, t.kind = .newline

omit [Sample α] [CInt α] in
theorem OverLines.passes {s' : Parser α} (h : OverLines s s') : Passes s s' := by
  obtain ⟨lines, hs, newline⟩ := h
  rw [hs]
  exact ⟨⟨lines, rfl, fun t ht => newline t ht ▸ by decide,
    fun _ t ht => newline t ht ▸ by decide⟩, List.prefix_rfl⟩

omit [Sample α] [CInt α] in
theorem skipNewlines_yields : ∀ (n : Nat) (s : Parser α), Ended s.toks → s.toks.length ≤ n →
    Yields (skipNewlines n) s fun _ s' => OverLines s s'
  | 0, s, h, hn     => absurd h.pos (by omega)
  | n + 1, s, h, hn => by
      refine (isAt_yields h _).bind fun b s' ⟨hs, t, r, ht, hb⟩ => ?_
      subst hs
      refine .ite (fun line => ?_) fun _ => .pure ⟨[], rfl, fun _ h => absurd h List.not_mem_nil⟩
      have kind : t.kind = .newline := by simpa [hb] using line
      have going : t.kind ≠ .end := kind ▸ by decide
      refine (adv_yields h ht going).bind fun _ s₁ hs₁ => ?_
      have rest : Ended r := (ht ▸ h).tail going
      obtain ⟨toks, d⟩ := s'
      obtain rfl : toks = t :: r := ht
      subst hs₁
      refine (skipNewlines_yields n ⟨r, d⟩ rest (Nat.le_of_succ_le_succ hn)).mono
        fun _ s₂ ⟨lines, hs, newline⟩ => ?_
      obtain ⟨rfl, rfl⟩ := Parser.mk.inj hs
      exact ⟨t :: lines, rfl, fun u hu => (List.mem_cons.mp hu).elim (fun h => h ▸ kind)
        (newline u)⟩

omit [Sample α] [CInt α] in
theorem synchronize_yields : ∀ (n : Nat) (s : Parser α), Ended s.toks → s.toks.length ≤ n →
    Yields (synchronize n) s fun _ s' => Passes s s'
  | 0, s, h, hn     => absurd h.pos (by omega)
  | n + 1, s, h, hn => by
      refine (cur_yields h).bind fun t s' ⟨hs, r, ht⟩ => ?_
      subst hs
      refine .ite (fun _ => .pure (.refl _)) fun inside => ?_
      have going : t.kind ≠ .end := fun h => inside (by rw [h]; rfl)
      have own : isDelimiter t.kind = false := by
        cases kind : t.kind with
        | kwRune | kwSigil | kwEnd => rw [kind] at inside; exact absurd rfl inside
        | _ => rfl
      refine (adv_moves h ht going own).bind fun _ s₁ ⟨moved, shorter⟩ => ?_
      exact (synchronize_yields n s₁ (moved.ended h) (by omega)).mono fun _ _ more =>
        moved.toPasses.trans more

theorem parseDefault_yields (h : Ended s.toks) (enough : 8 * s.toks.length ≤ fuel) :
    Yields (parseDefault fuel) s fun _ s' => Passes s s' := by
  refine (accept_yields h (by decide) (by decide)).bind fun b s' assign => ?_
  cases b with
  | false => exact .pure (assign ▸ .refl s)
  | true =>
      obtain ⟨assign, shorter⟩ : Moves s s' ∧ _ := assign
      refine (parseExpr_yields true (assign.ended h) (by omega)).bind fun _ _ e => ?_
      exact .pure (assign.toPasses.trans e.toPasses)

theorem paramsLoop_yields : ∀ (n : Nat) (s : Parser α) (ps : List (Param α)), Ended s.toks →
    8 * s.toks.length + 1 ≤ n → Yields (paramsLoop n ps) s fun _ s' => Passes s s'
  | 0, s, _, h, hn      => absurd h.pos (by omega)
  | n + 1, s, ps, h, hn => by
      refine (expect_yields h (by decide) (by decide) _).bind fun _ s₁ name => ?_
      have h₁ := name.ended h
      have := name.le
      refine (parseDefault_yields h₁ (by omega)).bind fun _ s₂ default => ?_
      have h₂ := default.ended h₁
      have := default.le
      refine (accept_yields h₂ (by decide) (by decide)).bind fun b s₃ comma => ?_
      cases b with
      | false => exact .pure (comma ▸ name.toPasses.trans default)
      | true =>
          obtain ⟨comma, shorter⟩ : Moves s₂ s₃ ∧ _ := comma
          refine (paramsLoop_yields n s₃ _ (comma.ended h₂) (by omega)).mono fun _ _ more => ?_
          exact ((name.toPasses.trans default).trans comma.toPasses).trans more

theorem parseParams_yields (h : Ended s.toks) (enough : 8 * s.toks.length + 1 ≤ fuel) :
    Yields (parseParams fuel) s fun _ s' => Passes s s' := by
  refine (expect_yields h (by decide) (by decide) _).bind fun _ s₁ opened => ?_
  have h₁ := opened.ended h
  have := opened.le
  refine (accept_yields h₁ (by decide) (by decide)).bind fun b s₂ closed => ?_
  cases b with
  | true =>
      obtain ⟨closed, -⟩ : Moves s₁ s₂ ∧ _ := closed
      exact .pure (opened.toPasses.trans closed.toPasses)
  | false =>
      obtain rfl : s₂ = s₁ := closed
      refine (paramsLoop_yields fuel s₂ [] h₁ (by omega)).bind fun ps s₃ moved => ?_
      refine (expect_yields (moved.ended h₁) (by decide) (by decide) _).bind fun _ _ paren => ?_
      exact .pure ((opened.toPasses.trans moved).trans paren.toPasses)

theorem definitionParams_yields (h : Ended s.toks) (enough : 8 * s.toks.length + 1 ≤ fuel) :
    Yields (definitionParams fuel) s fun _ s' => Passes s s' := by
  refine (isAt_yields h _).bind fun b s' ⟨hs, _⟩ => ?_
  subst hs
  exact .ite (fun _ => parseParams_yields h enough) fun _ => .pure (.refl _)

omit [Sample α] [CInt α] in
theorem endStatement_yields (h : Ended s.toks) (enough : s.toks.length ≤ fuel) :
    Yields (endStatement fuel) s fun _ s' => Passes s s' := by
  refine (cur_yields h).bind fun _ s' ⟨hs, _⟩ => ?_
  subst hs
  refine .ite (fun _ => ?_) fun _ => .pure (.refl _)
  refine (error_yields h _).bind fun _ s₁ ⟨moved, same⟩ => ?_
  exact (synchronize_yields fuel s₁ (moved.ended h) (same ▸ enough)).mono fun _ _ more =>
    moved.toPasses.trans more

omit [Sample α] [CInt α] in
/-- A turn that made a move takes a token, if need be by force: then it has reported a
diagnostic. -/
theorem guaranteeProgress_yields {before : Parser α} {t : Token α} {r : List (Token α)}
    (h : Ended before.toks) (ht : before.toks = t :: r) (going : t.kind ≠ .end)
    (moved : Moves before s) : Yields (guaranteeProgress before) s fun _ s' =>
      Passes before s' ∧ s'.toks.length < before.toks.length ∧ s'.diags = s.diags := by
  refine Yields.bind (P := fun b s' => b = s ∧ s' = s) ⟨s, s, rfl, rfl, rfl⟩
    fun _ s' ⟨hb, hs⟩ => ?_
  subst hb hs
  refine .ite (fun still => ?_) fun shorter =>
    .pure ⟨moved.toPasses, lt_of_le_of_ne moved.le shorter, rfl⟩
  -- nothing was taken, so there is a new diagnostic
  obtain ⟨used, hs, -⟩ := moved.toks
  have new : s'.diags ≠ before.diags := moved.moved.resolve_left (by omega)
  obtain rfl : used = [] := by
    have := congrArg List.length hs
    rw [List.length_append] at this
    exact List.length_eq_zero_iff.mp (by omega)
  have ht' : s'.toks = t :: r := hs.symm.trans ht
  refine (adv_yields (moved.ended h) ht' going).mono fun _ s₁ hs₁ => ?_
  rw [hs₁]
  refine ⟨⟨⟨[t], ht, fun u hu => List.mem_singleton.mp hu ▸ going, fun quiet => absurd quiet new⟩,
    moved.diags⟩, ?_, rfl⟩
  rw [ht]
  exact Nat.lt_succ_self _

theorem bodyLoop_yields : ∀ (n : Nat) (s : Parser α) (body : List (Stmt α)), Ended s.toks →
    8 * s.toks.length + 5 ≤ n → Yields (bodyLoop n body) s fun _ s' => Passes s s'
  | 0, s, _, h, hn        => absurd h.pos (by omega)
  | n + 1, s, body, h, hn => by
      refine (cur_yields h).bind fun t s' ⟨hs, r, ht⟩ => ?_
      subst hs
      refine .ite (fun _ => .pure (.refl _)) fun inside => ?_
      have going : t.kind ≠ .end := fun h => inside (.inr h)
      refine Yields.bind (P := fun b s₁ => b = s' ∧ s₁ = s') ⟨s', s', rfl, rfl, rfl⟩
        fun _ s₁ ⟨hb, hs⟩ => ?_
      subst hb hs
      refine (parseStatement_yields h (by omega)).bind fun stmt s₂ moved => ?_
      have := moved.le
      refine (endStatement_yields (moved.ended h) (by omega)).bind fun _ s₃ ended => ?_
      refine (guaranteeProgress_yields h ht going (moved.trans ended)).bind
        fun _ s₄ ⟨passed, shorter, _⟩ => ?_
      have h₄ := passed.ended h
      refine (skipNewlines_yields n s₄ h₄ (by omega)).bind fun _ s₅ lines => ?_
      have := lines.passes.le
      refine (bodyLoop_yields n s₅ _ (lines.passes.ended h₄) (by omega)).mono fun _ _ more => ?_
      exact (passed.trans lines.passes).trans more

/-- The definition `d` begins at `kw` and was closed at `close`: between them are its name and
tokens of its own, no `rune`, `sigil` or `end`. -/
structure OwnEnd (kw : Token α) (inner : List (Token α)) (close : Token α) (d : Definition α) :
    Prop where
  pos : d.pos = kw.pos
  name : ∃ t r, inner = t :: r ∧ t.kind = .ident ∧ t.text = d.name
  going : ∀ t ∈ inner, t.kind ≠ .end
  own : ∀ t ∈ inner, isDelimiter t.kind = false
  close : close.kind = .kwEnd

/-- The tokens are those of runes and sigils in order, each with an `end` of its own, and
newlines. -/
inductive Closed : List (Token α) → List (Definition α) → List (Definition α) → Prop where
  | done {t : Token α} (last : t.kind = .end) : Closed [t] [] []
  | line {t : Token α} {toks : List (Token α)} {runes sigils : List (Definition α)}
      (newline : t.kind = .newline) (rest : Closed toks runes sigils) :
      Closed (t :: toks) runes sigils
  | rune {kw close : Token α} {inner toks : List (Token α)} {d : Definition α}
      {runes sigils : List (Definition α)} (opened : kw.kind = .kwRune)
      (own : OwnEnd kw inner close d) (rest : Closed toks runes sigils) :
      Closed (kw :: (inner ++ close :: toks)) (d :: runes) sigils
  | sigil {kw close : Token α} {inner toks : List (Token α)} {d : Definition α}
      {runes sigils : List (Definition α)} (opened : kw.kind = .kwSigil)
      (own : OwnEnd kw inner close d) (rest : Closed toks runes sigils) :
      Closed (kw :: (inner ++ close :: toks)) runes (d :: sigils)

/-- `s'` is past a definition, which if there was nothing to diagnose had its own `end`. -/
structure PastDef (s s' : Parser α) (d : Definition α) : Prop where
  ended : Ended s'.toks
  shorter : s'.toks.length < s.toks.length
  diags : s.diags <+: s'.diags
  closed : s'.diags = s.diags → ∃ kw inner close, s.toks = kw :: (inner ++ close :: s'.toks) ∧
    OwnEnd kw inner close d

theorem parseDef_yields {t : Token α} {r : List (Token α)} {diags : List Diagnostic}
    (h : Ended (t :: r)) (going : t.kind ≠ .end) (enough : 8 * r.length + 8 ≤ fuel) :
    Yields (parseDef fuel) ⟨t :: r, diags⟩ fun d s' => PastDef ⟨t :: r, diags⟩ s' d := by
  refine (cur_yields h).bind fun start s' ⟨hs, r', hr⟩ => ?_
  subst hs
  obtain ⟨rfl, rfl⟩ := List.cons.inj hr
  refine (adv_yields h rfl going).bind fun _ s₁ hs₁ => ?_
  subst hs₁
  have h₁ : Ended r := h.tail going
  refine (expect_takes h₁ (by decide) _).bind fun name s₂ taken => ?_
  have moved : Moves ⟨r, diags⟩ s₂ := by
    rcases taken with ⟨hs, kind⟩ | ⟨d, hs⟩
    · rw [hs]
      exact .token (kind ▸ by decide) (kind ▸ by decide)
    · rw [hs]
      exact .diag _ d
  have h₂ := moved.ended h₁
  have le₂ : s₂.toks.length ≤ r.length := moved.le
  refine (definitionParams_yields h₂ (by omega)).bind fun params s₃ passed => ?_
  have h₃ := passed.ended h₂
  have le₃ := passed.le
  refine (skipNewlines_yields fuel s₃ h₃ (by omega)).bind fun _ s₄ lines => ?_
  have h₄ := lines.passes.ended h₃
  have le₄ := lines.passes.le
  refine (bodyLoop_yields fuel s₄ [] h₄ (by omega)).bind fun body s₅ inner => ?_
  have le₅ := inner.le
  have all := (passed.trans lines.passes).trans inner
  refine (expect_takes (all.ended h₂) (by decide) _).bind fun close s₆ closed => .pure ?_
  rcases closed with ⟨hs₅, kind⟩ | ⟨d, hs₆⟩
  · have h₆ : Ended s₆.toks := by
      have h₅ := all.ended h₂
      rw [hs₅] at h₅
      exact h₅.tail (kind ▸ by decide)
    have diags₅ : s₅.diags = s₆.diags := by rw [hs₅]
    refine ⟨h₆, ?_, (diags₅ ▸ (moved.toPasses.trans all).diags), fun quiet => ?_⟩
    · have : s₅.toks.length = s₆.toks.length + 1 := by rw [hs₅]; rfl
      show s₆.toks.length < r.length + 1
      omega
    · -- nothing was diagnosed on the way
      have quiet₂ : s₂.diags = diags :=
        (moved.diags.eq_of_length_le (by
          rw [← quiet, ← diags₅]
          exact all.diags.length_le)).symm
      have quiet₅ : s₅.diags = s₂.diags := diags₅.trans (quiet.trans quiet₂.symm)
      obtain ⟨used, hused, going', own⟩ := all.toks
      rcases taken with ⟨hs₂, ident⟩ | ⟨d, hs₂⟩
      · have toks : r = name :: (used ++ close :: s₆.toks) := by
          have : r = name :: s₂.toks := congrArg Parser.toks hs₂
          rw [this, hused, hs₅]
        refine ⟨t, name :: used, close, by rw [toks]; rfl, ⟨rfl, ⟨name, used, rfl, ident, rfl⟩, ?_,
          ?_, kind⟩⟩
        · intro u hu
          rcases List.mem_cons.mp hu with rfl | hu
          · exact ident ▸ by decide
          · exact going' u hu
        · intro u hu
          rcases List.mem_cons.mp hu with rfl | hu
          · exact ident ▸ by decide
          · exact own quiet₅ u hu
      · rw [hs₂] at quiet₂
        exact absurd quiet₂ (by simp)
  · have h₆ : Ended s₆.toks := by
      rw [hs₆]
      exact all.ended h₂
    have sofar := (moved.toPasses.trans all).diags
    refine ⟨h₆, ?_, ?_, fun quiet => ?_⟩
    · rw [hs₆]
      show s₅.toks.length < r.length + 1
      omega
    · rw [hs₆]
      exact sofar.trans (List.prefix_append _ _)
    · -- a missing `end` is reported
      have added : s₅.diags ++ [d] = diags := by
        rw [hs₆] at quiet
        exact quiet
      have more := congrArg List.length added
      have least : diags.length ≤ s₅.diags.length := sofar.length_le
      rw [List.length_append, List.length_singleton] at more
      omega

omit [Sample α] [CInt α] in
theorem Closed.lines {lines toks : List (Token α)} {runes sigils : List (Definition α)}
    (newline : ∀ t ∈ lines, t.kind = .newline) (h : Closed toks runes sigils) :
    Closed (lines ++ toks) runes sigils := by
  induction lines with
  | nil => exact h
  | cons t lines ih =>
      exact .line (newline t List.mem_cons_self)
        (ih fun u hu => newline u (List.mem_cons_of_mem _ hu))

/-- `s'` is past what stood at the top level.  The program was `p` and is `p'`, which holds the
definitions read unless there was something to diagnose. -/
structure PastTop (s s' : Parser α) (p p' : Program α) : Prop where
  ended : Ended s'.toks
  le : s'.toks.length ≤ s.toks.length
  diags : s.diags <+: s'.diags
  closed : s'.diags = s.diags → ∀ runes sigils, Closed s'.toks runes sigils →
    ∃ runes' sigils', Closed s.toks runes' sigils' ∧
      p'.runes ++ runes = p.runes ++ runes' ∧ p'.sigils ++ sigils = p.sigils ++ sigils'

omit [Sample α] [CInt α] in
theorem PastTop.trans {s s' s₂ : Parser α} {p p' p₂ : Program α} (h : PastTop s s' p p')
    (h' : PastTop s' s₂ p' p₂) : PastTop s s₂ p p₂ where
  ended := h'.ended
  le := h'.le.trans h.le
  diags := h.diags.trans h'.diags
  closed := by
    intro quiet runes sigils rest
    have first : s'.diags = s.diags :=
      (h.diags.eq_of_length_le (quiet ▸ h'.diags.length_le)).symm
    obtain ⟨runes₁, sigils₁, rest₁, hr, hs⟩ := h'.closed (quiet.trans first.symm) runes sigils rest
    obtain ⟨runes₂, sigils₂, rest₂, hr', hs'⟩ := h.closed first runes₁ sigils₁ rest₁
    exact ⟨runes₂, sigils₂, rest₂, hr.trans hr', hs.trans hs'⟩

omit [Sample α] [CInt α] in
theorem PastTop.lines {s s' : Parser α} (ended : Ended s.toks) (h : OverLines s s')
    (p : Program α) : PastTop s s' p p where
  ended := h.passes.ended ended
  le := h.passes.le
  diags := h.passes.diags
  closed := by
    intro _ runes sigils rest
    obtain ⟨lines, hs, newline⟩ := h
    exact ⟨runes, sigils, by rw [hs]; exact rest.lines newline, rfl, rfl⟩

theorem topLevel_yields {t : Token α} {r : List (Token α)} {diags : List Diagnostic}
    (h : Ended (t :: r)) (going : t.kind ≠ .end) (enough : 8 * r.length + 8 ≤ fuel)
    (p : Program α) : Yields (topLevel fuel p) ⟨t :: r, diags⟩ fun p' s' =>
      PastTop ⟨t :: r, diags⟩ s' p p' ∧ s'.toks.length < (t :: r).length ∨
        Moves ⟨t :: r, diags⟩ s' ∧ s'.diags ≠ diags := by
  refine (cur_yields h).bind fun u s ⟨hs, r', hr⟩ => ?_
  subst hs
  obtain ⟨rfl, rfl⟩ := List.cons.inj hr
  refine .ite (fun kind => ?_) fun _ => .ite (fun kind => ?_) fun _ => ?_
  · refine (parseDef_yields h going enough).bind fun d s' past => .pure (.inl ⟨?_, past.shorter⟩)
    refine ⟨past.ended, past.shorter.le, past.diags, fun quiet runes sigils rest => ?_⟩
    obtain ⟨kw, inner, close, toks, own⟩ := past.closed quiet
    obtain ⟨rfl, rfl⟩ := List.cons.inj toks
    exact ⟨d :: runes, sigils, .rune kind own rest, by simp, rfl⟩
  · refine (parseDef_yields h going enough).bind fun d s' past => .pure (.inl ⟨?_, past.shorter⟩)
    refine ⟨past.ended, past.shorter.le, past.diags, fun quiet runes sigils rest => ?_⟩
    obtain ⟨kw, inner, close, toks, own⟩ := past.closed quiet
    obtain ⟨rfl, rfl⟩ := List.cons.inj toks
    exact ⟨runes, d :: sigils, .sigil kind own rest, rfl, by simp⟩
  · refine (error_adds h _).bind fun _ s₁ ⟨d, hs₁⟩ => ?_
    have moved : Moves ⟨t :: r, diags⟩ s₁ := hs₁ ▸ .diag _ d
    have same : s₁.toks.length = (t :: r).length := by rw [hs₁]
    have hlen : (t :: r).length = r.length + 1 := rfl
    refine (synchronize_yields fuel s₁ (moved.ended h) (by omega)).bind fun _ s₂ passed =>
      .pure (.inr ⟨moved.trans passed, fun quiet => ?_⟩)
    have less := passed.diags.length_le
    have more := congrArg List.length quiet
    rw [hs₁] at less
    simp only [List.length_append, List.length_singleton] at less more
    omega

theorem programLoop_yields : ∀ (n : Nat) (s : Parser α) (p : Program α), Ended s.toks →
    8 * s.toks.length + 1 ≤ n → Yields (programLoop n p) s fun p' s' =>
      PastTop s s' p p' ∧ ∃ last, s'.toks = [last] ∧ last.kind = .end
  | 0, s, _, h, hn     => absurd h.pos (by omega)
  | n + 1, s, p, h, hn => by
      refine (isAt_yields h _).bind fun b s' ⟨hs, t, r, ht, hb⟩ => ?_
      subst hs
      obtain ⟨toks, diags⟩ := s'
      obtain rfl : toks = t :: r := ht
      refine .ite (fun stop => .pure ?_) fun more => ?_
      · have kind : t.kind = .end := by simpa [hb] using stop
        obtain rfl : r = [] := (h.of_cons.resolve_right fun going => going.1 kind).2
        exact ⟨⟨h, le_rfl, List.prefix_rfl, fun _ runes sigils rest =>
          ⟨runes, sigils, rest, rfl, rfl⟩⟩, t, rfl, kind⟩
      have going : t.kind ≠ .end := by simpa [hb] using more
      have hlen : (⟨t :: r, diags⟩ : Parser α).toks.length = r.length + 1 := rfl
      refine Yields.bind (P := fun b s₁ => b = ⟨t :: r, diags⟩ ∧ s₁ = ⟨t :: r, diags⟩)
        ⟨_, _, rfl, rfl, rfl⟩ fun _ s₁ ⟨hb, hs⟩ => ?_
      subst hb hs
      refine (topLevel_yields h going (by omega) p).bind fun p' s₂ top => ?_
      -- a token is taken in either case
      refine Yields.bind (P := fun _ s₃ => PastTop ⟨t :: r, diags⟩ s₃ p p' ∧
        s₃.toks.length < r.length + 1) ?_ fun _ s₃ ⟨past, shorter⟩ => ?_
      · rcases top with ⟨past, shorter⟩ | ⟨moved, new⟩
        · refine Yields.bind (P := fun b s₃ => b = s₂ ∧ s₃ = s₂) ⟨_, _, rfl, rfl, rfl⟩
            fun _ s₃ ⟨hb, hs⟩ => ?_
          subst hb hs
          exact .ite (fun same => absurd same shorter.ne) fun _ => .pure ⟨past, shorter⟩
        · refine (guaranteeProgress_yields h rfl going moved).mono
            fun _ s₃ ⟨passed, shorter, same⟩ => ⟨?_, shorter⟩
          exact ⟨passed.ended h, shorter.le, passed.diags, fun quiet =>
            absurd (same.symm.trans quiet) new⟩
      refine (skipNewlines_yields n s₃ past.ended (by omega)).bind fun _ s₄ lines => ?_
      have skipped := PastTop.lines past.ended lines p'
      have := skipped.le
      refine (programLoop_yields n s₄ p' skipped.ended (by omega)).mono fun _ _ ⟨rest, last⟩ => ?_
      exact ⟨(past.trans skipped).trans rest, last⟩

end Definitions

variable [Json.CNumber α]

/-- **The front end is total.**  On every text, lexing ends with tokens as the parser relies on
them, and parsing ends at the last of them with a program; when nothing was diagnosed, every
rune and sigil of the program has an `end` of its own. -/
theorem parse_total (src : List Char) : ∃ toks diags, lex (α := α) src = some (toks, diags) ∧
    Lexed toks ∧ ∃ p s, parse (α := α) src = some (.ok p, s) ∧
      (∃ last, s.toks = [last] ∧ last.kind = .end) ∧
      (s.diags = [] → Closed toks p.runes p.sigils) := by
  obtain ⟨toks, diags, hlex, shape⟩ := lex_eq_some (α := α) src
  have h : Ended toks := shape.ended'
  have run : Yields (parseProgram (8 * toks.length + 16)) ⟨toks, diags⟩ fun p s =>
      PastTop ⟨toks, diags⟩ s ⟨[], []⟩ p ∧ ∃ last, s.toks = [last] ∧ last.kind = .end := by
    refine (skipNewlines_yields _ ⟨toks, diags⟩ h ?_).bind fun _ s lines => ?_
    · show toks.length ≤ _
      omega
    have skipped := PastTop.lines h lines ⟨[], []⟩
    have le : s.toks.length ≤ toks.length := skipped.le
    exact (programLoop_yields _ s _ skipped.ended (by omega)).mono fun _ _ ⟨rest, last⟩ =>
      ⟨skipped.trans rest, last⟩
  obtain ⟨p, s, hrun, past, last, hlast, kind⟩ := run
  refine ⟨toks, diags, hlex, shape, p, s, by rw [parse, hlex, ← hrun]; rfl, ⟨last, hlast, kind⟩,
    fun quiet => ?_⟩
  have none : diags = [] := List.prefix_nil.mp (quiet ▸ past.diags)
  obtain ⟨runes, sigils, closed, hr, hs⟩ := past.closed (quiet.trans none.symm) [] []
    (hlast ▸ .done kind)
  rw [List.append_nil, List.nil_append] at hr hs
  rw [hr, hs]
  exact closed

end Xrune.Lang
