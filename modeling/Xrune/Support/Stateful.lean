import Mathlib

/-!
# Support — computations over a state that may stop

A computation changes a state and ends in a result, or it stops: it aborts with an error, it
traps (undefined behaviour), or its fuel runs out.  A stop keeps the state as it was left.

A computation may be asked to end as `P` says (`Yields`), or to end so if it ends
(`Ensures`).

Two computations are linked when their runs from related states end in related results, or stop
as the link allows (`Linked`).  Links are over worlds: what is related stays related in every
later world, and a run may move to one.  A computation linked to itself over equal states is an
invariant; linked to the same computation with more fuel it has that much fuel to spare.
-/

namespace Xrune

/-- Why a computation stopped. -/
inductive Stop (ε : Type) where
  | abort (e : ε)
  | trap
  | timeout

inductive Outcome (ε β : Type) where
  | ok (b : β)
  | stop (e : Stop ε)

/-- The stop, if the computation stopped. -/
def Outcome.stop? {ε β : Type} : Outcome ε β → Option (Stop ε)
  | .ok _   => none
  | .stop e => some e

def Stateful (σ ε β : Type) : Type := σ → Outcome ε β × σ

namespace Stateful

variable {σ τ ε β γ δ : Type}

protected def pure (b : β) : Stateful σ ε β := fun s => (.ok b, s)

protected def bind (m : Stateful σ ε β) (f : β → Stateful σ ε γ) : Stateful σ ε γ := fun s =>
  match m s with
  | (.ok b, s)   => f b s
  | (.stop e, s) => (.stop e, s)

instance : Monad (Stateful σ ε) where
  pure := Stateful.pure
  bind := Stateful.bind

def get : Stateful σ ε σ := fun s => (.ok s, s)

def modify (f : σ → σ) : Stateful σ ε Unit := fun s => (.ok (), f s)

def halt (e : Stop ε) : Stateful σ ε β := fun s => (.stop e, s)

def abort (e : ε) : Stateful σ ε β := halt (.abort e)

/-- Undefined behaviour. -/
def trap : Stateful σ ε β := halt .trap

def timeout : Stateful σ ε β := halt .timeout

/-- `none` is undefined behaviour. -/
def orTrap : Option β → Stateful σ ε β
  | some b => pure b
  | none   => trap

instance : LawfulMonad (Stateful σ ε) := .mk' _
  (fun m => by
    funext s
    show (match m s with | (.ok b, s) => _ | (.stop e, s) => _) = m s
    rcases m s with ⟨b | e, s'⟩ <;> rfl)
  (fun _ _ => rfl)
  (fun m f g => by
    funext s
    show Stateful.bind (Stateful.bind m f) g s = Stateful.bind m (fun b => Stateful.bind (f b) g) s
    simp only [Stateful.bind]
    rcases m s with ⟨b | e, s'⟩ <;> rfl)

/-! ### Runs -/

variable {m : Stateful σ ε β} {f : β → Stateful σ ε γ} {s s' : σ}

/-- A sequence that ends has ended in each part. -/
theorem bind_ok {c : γ} : (m >>= f) s = (.ok c, s') ↔
    ∃ b s₁, m s = (.ok b, s₁) ∧ f b s₁ = (.ok c, s') := by
  show (match m s with | (.ok b, s) => f b s | (.stop e, s) => (.stop e, s)) = _ ↔ _
  rcases m s with ⟨b | e, s₁⟩
  · exact ⟨fun h => ⟨b, s₁, rfl, h⟩, fun ⟨_, _, h₁, h₂⟩ => by cases h₁; exact h₂⟩
  · exact ⟨(nomatch ·), fun ⟨_, _, h, _⟩ => nomatch h⟩

theorem bind_of_ok {b : β} {s₁ : σ} (h : m s = (.ok b, s₁)) : (m >>= f) s = f b s₁ := by
  show (match m s with | (.ok b, s) => f b s | (.stop e, s) => (.stop e, s)) = _
  rw [h]

theorem bind_of_stop {e : Stop ε} {s₁ : σ} (h : m s = (.stop e, s₁)) :
    (m >>= f) s = (.stop e, s₁) := by
  show (match m s with | (.ok b, s) => f b s | (.stop e, s) => (.stop e, s)) = _
  rw [h]

@[simp] theorem pure_apply (b : β) (s : σ) : (pure b : Stateful σ ε β) s = (.ok b, s) := rfl

@[simp] theorem get_apply (s : σ) : (get : Stateful σ ε σ) s = (.ok s, s) := rfl

@[simp] theorem modify_apply (f : σ → σ) (s : σ) :
    (modify f : Stateful σ ε Unit) s = (.ok (), f s) := rfl

@[simp] theorem halt_apply (e : Stop ε) (s : σ) :
    (halt e : Stateful σ ε β) s = (.stop e, s) := rfl

@[simp] theorem abort_apply (e : ε) (s : σ) :
    (abort e : Stateful σ ε β) s = (.stop (.abort e), s) := rfl

/-- The computation ends from `s`, in a result and a state that meet `P`. -/
def Yields (m : Stateful σ ε β) (s : σ) (P : β → σ → Prop) : Prop :=
  ∃ b s', m s = (.ok b, s') ∧ P b s'

section Yields

variable {P Q : β → σ → Prop} {R : γ → σ → Prop}

theorem Yields.pure {b : β} (h : P b s) : Yields (pure b : Stateful σ ε β) s P := ⟨b, s, rfl, h⟩

theorem Yields.mono (h : Yields m s P) (sub : ∀ b s', P b s' → Q b s') : Yields m s Q := by
  obtain ⟨b, s', run, p⟩ := h
  exact ⟨b, s', run, sub b s' p⟩

theorem Yields.bind (first : Yields m s P) (next : ∀ b s', P b s' → Yields (f b) s' R) :
    Yields (m >>= f) s R := by
  obtain ⟨b, s', run, p⟩ := first
  obtain ⟨c, s₂, run', r⟩ := next b s' p
  exact ⟨c, s₂, (bind_of_ok run).trans run', r⟩

/-- A computation that begins by looking at the state. -/
theorem Yields.get_bind {next : σ → Stateful σ ε γ} (rest : Yields (next s) s R) :
    Yields (get >>= next) s R :=
  Yields.bind (P := fun t s' => t = s ∧ s' = s) ⟨s, s, rfl, rfl, rfl⟩ fun t s' ⟨at_t, at_s⟩ =>
    at_t ▸ at_s ▸ rest

theorem Yields.ite {p : Prop} [Decidable p] {m n : Stateful σ ε β} (pos : p → Yields m s P)
    (neg : ¬p → Yields n s P) : Yields (if p then m else n) s P := by
  split_ifs with h
  · exact pos h
  · exact neg h

/-- The computation stops from `s`, with the stop given. -/
def Stops (m : Stateful σ ε β) (s : σ) (e : Stop ε) : Prop := ∃ s', m s = (.stop e, s')

theorem Stops.bind {e : Stop ε} (first : Stops m s e) : Stops (m >>= f) s e := by
  obtain ⟨s', run⟩ := first
  exact ⟨s', bind_of_stop run⟩

theorem Yields.bind_stops {e : Stop ε} (first : Yields m s P)
    (next : ∀ b s', P b s' → Stops (f b) s' e) : Stops (m >>= f) s e := by
  obtain ⟨b, s', run, p⟩ := first
  obtain ⟨s₂, run'⟩ := next b s' p
  exact ⟨s₂, (bind_of_ok run).trans run'⟩

/-- A loop each turn of which ends; `P` is of the number of turns made. -/
theorem Yields.foldlM {ι : Type} {f : β → ι → Stateful σ ε β} {P : Nat → β → σ → Prop} :
    ∀ {l : List ι} {n : Nat} {b : β} {s : σ}, P n b s →
      (∀ n b s, ∀ i ∈ l, P n b s → Yields (f b i) s (P (n + 1))) →
      Yields (l.foldlM f b) s (P (n + l.length))
  | [], _, _, _, h, _ => .pure h
  | i :: l, n, b, s, h, turn => by
      rw [List.foldlM_cons, List.length_cons, Nat.add_comm l.length, ← Nat.add_assoc]
      refine (turn n b s i List.mem_cons_self h).bind fun b' s' h' => ?_
      exact Yields.foldlM h' fun n b s j hj => turn n b s j (List.mem_cons_of_mem i hj)

end Yields

/-! ### Partial correctness -/

/-- Whatever the computation ends in, from `s`, meets `P` with the state it leaves. -/
def Ensures (m : Stateful σ ε β) (s : σ) (P : β → σ → Prop) : Prop :=
  ∀ b s', m s = (.ok b, s') → P b s'

section Ensures

variable {P Q : β → σ → Prop} {R : γ → σ → Prop}

theorem Ensures.pure {b : β} (h : P b s) : Ensures (pure b : Stateful σ ε β) s P := by
  rintro _ _ ⟨⟩
  exact h

theorem Ensures.halt (e : Stop ε) : Ensures (halt e : Stateful σ ε β) s P := by
  intro b s' run
  cases run

theorem Ensures.mono (h : Ensures m s P) (sub : ∀ b s', P b s' → Q b s') : Ensures m s Q :=
  fun b s' run => sub b s' (h b s' run)

theorem Ensures.bind (first : Ensures m s P) (next : ∀ b s', P b s' → Ensures (f b) s' R) :
    Ensures (m >>= f) s R := by
  intro c s' run
  obtain ⟨b, s₁, run₁, run₂⟩ := bind_ok.mp run
  exact next b s₁ (first b s₁ run₁) c s' run₂

theorem Ensures.get_bind {next : σ → Stateful σ ε γ} (rest : Ensures (next s) s R) :
    Ensures (get >>= next) s R := by
  intro c s' run
  exact rest c s' run

theorem Ensures.orTrap_bind {o : Option β} (next : ∀ b, o = some b → Ensures (f b) s R) :
    Ensures (orTrap o >>= f) s R := by
  cases o with
  | none =>
      intro c s' run
      cases run
  | some b => exact next b rfl

theorem Ensures.modify {g : σ → σ} {P : Unit → σ → Prop} (h : P () (g s)) :
    Ensures (modify g : Stateful σ ε Unit) s P := by
  rintro _ _ ⟨⟩
  exact h

theorem Ensures.ite {p : Prop} [Decidable p] {m n : Stateful σ ε β} (pos : p → Ensures m s P)
    (neg : ¬p → Ensures n s P) : Ensures (if p then m else n) s P := by
  split_ifs with h
  · exact pos h
  · exact neg h

/-- A loop after the elements `done`. -/
theorem Ensures.foldlM_from {ι : Type} {f : β → ι → Stateful σ ε β} {I : List ι → β → σ → Prop} :
    ∀ {l : List ι} (done : List ι) {b : β} {s : σ}, I done b s →
      (∀ done i b s, i ∈ l → I done b s → Ensures (f b i) s (I (done ++ [i]))) →
      Ensures (l.foldlM f b) s (I (done ++ l))
  | [], done, _, _, h, _ => by
      rw [List.append_nil]
      exact .pure h
  | i :: l, done, b, s, h, turn => by
      rw [List.foldlM_cons, List.append_cons]
      refine (turn done i b s List.mem_cons_self h).bind fun b' s' h' => ?_
      exact foldlM_from _ h' fun done j b s hj => turn done j b s (List.mem_cons_of_mem i hj)

/-- A loop; `I` is of the elements done. -/
theorem Ensures.foldlM {ι : Type} {f : β → ι → Stateful σ ε β} {I : List ι → β → σ → Prop}
    {l : List ι} {b : β} (start : I [] b s)
    (turn : ∀ done i b s, i ∈ l → I done b s → Ensures (f b i) s (I (done ++ [i]))) :
    Ensures (l.foldlM f b) s (I l) :=
  foldlM_from [] start turn

theorem forM_eq_foldlM {ι : Type} (f : ι → Stateful σ ε Unit) :
    ∀ l : List ι, l.forM f = l.foldlM (fun _ i => f i) ()
  | [] => rfl
  | i :: l => congrArg (f i >>= ·) (funext fun _ => forM_eq_foldlM f l)

/-- A loop without an accumulator. -/
theorem Ensures.forM {ι : Type} {f : ι → Stateful σ ε Unit} {I : List ι → σ → Prop} {l : List ι}
    (start : I [] s)
    (turn : ∀ done i s, i ∈ l → I done s → Ensures (f i) s fun _ => I (done ++ [i])) :
    Ensures (l.forM f) s fun _ => I l := by
  rw [forM_eq_foldlM]
  exact foldlM start fun done i _ => turn done i

end Ensures

/-! ### Linked computations -/

/-- A relation of states over worlds, and the pairs of ends it allows a stopped run.  A run that
may stop while the other goes on may do so whatever the other comes to. -/
structure Link (σ τ ε W : Type) [Preorder W] where
  rel : W → σ → τ → Prop
  stop : Stop ε × σ → Option (Stop ε) × τ → Prop
  early : ∀ {e s t}, stop (e, s) (none, t) → ∀ x, stop (e, s) x

section Linked

variable {W : Type} [Preorder W] (L : Link σ τ ε W)

/-- The ends of two runs that began in related states of the world `w`. -/
def Ends (w : W) (Q : W → β → γ → Prop) : Outcome ε β × σ → Outcome ε γ × τ → Prop
  | (.ok b, s), (.ok c, t) => ∃ w', w ≤ w' ∧ L.rel w' s t ∧ Q w' b c
  | (.ok _, _), (.stop _, _) => False
  | (.stop e, s), (o, t)     => L.stop (e, s) (o.stop?, t)

def Linked (w : W) (Q : W → β → γ → Prop) (m : Stateful σ ε β) (m' : Stateful τ ε γ) : Prop :=
  ∀ s t, L.rel w s t → Ends L w Q (m s) (m' t)

variable {L} {w : W}

theorem Ends.mono {w' : W} {Q Q' : W → β → γ → Prop} (le : w ≤ w')
    (sub : ∀ w₂, w' ≤ w₂ → ∀ b c, Q w₂ b c → Q' w₂ b c) :
    ∀ {x : Outcome ε β × σ} {y : Outcome ε γ × τ}, Ends L w' Q x y → Ends L w Q' x y
  | (.ok b, _), (.ok c, _), ⟨w₂, le₂, rel, q⟩ => ⟨w₂, le.trans le₂, rel, sub w₂ le₂ b c q⟩
  | (.stop _, _), _, h => h

theorem Linked.pure {Q : W → β → γ → Prop} {b : β} {c : γ} (h : Q w b c) :
    Linked L w Q (pure b) (pure c) := fun _ _ rel => ⟨w, le_rfl, rel, h⟩

theorem Linked.mono {Q Q' : W → β → γ → Prop} {m : Stateful σ ε β} {m' : Stateful τ ε γ}
    (h : Linked L w Q m m') (sub : ∀ w', w ≤ w' → ∀ b c, Q w' b c → Q' w' b c) :
    Linked L w Q' m m' := fun s t rel => (h s t rel).mono le_rfl sub

theorem Linked.bind {β' γ' : Type} {Q : W → β → γ → Prop} {Q' : W → β' → γ' → Prop}
    {m : Stateful σ ε β} {m' : Stateful τ ε γ}
    {f : β → Stateful σ ε β'} {f' : γ → Stateful τ ε γ'} (first : Linked L w Q m m')
    (next : ∀ w', w ≤ w' → ∀ b c, Q w' b c → Linked L w' Q' (f b) (f' c)) :
    Linked L w Q' (m >>= f) (m' >>= f') := by
  intro s t rel
  have ends := first s t rel
  rcases hm : m s with ⟨b | e, s'⟩ <;> rcases hm' : m' t with ⟨c | e', t'⟩ <;>
    rw [hm, hm'] at ends
  · obtain ⟨w', le, rel', q⟩ := ends
    rw [bind_of_ok hm, bind_of_ok hm']
    exact (next w' le b c q s' t' rel').mono le fun _ _ _ _ => id
  · exact ends.elim
  · rw [bind_of_stop hm]
    rcases (m' >>= f') t with ⟨c' | e', t₂⟩ <;> exact L.early ends _
  · rw [bind_of_stop hm, bind_of_stop hm']
    exact ends

theorem Linked.get : Linked L w L.rel get get := fun _ _ rel => ⟨w, le_rfl, rel, rel⟩

theorem Linked.modify {f : σ → σ} {f' : τ → τ} {w' : W} (le : w ≤ w')
    (h : ∀ s t, L.rel w s t → L.rel w' (f s) (f' t)) :
    Linked L w (fun w₂ _ _ => w' ≤ w₂) (modify f) (modify f') := fun s t rel =>
  ⟨w', le, h s t rel, le_rfl⟩

theorem Linked.halt {Q : W → β → γ → Prop} {e e' : Stop ε}
    (h : ∀ s t, L.rel w s t → L.stop (e, s) (some e', t)) :
    Linked L w Q (halt e) (halt e') := h

theorem Linked.ite {Q : W → β → γ → Prop} {p : Prop} [Decidable p] {m n : Stateful σ ε β}
    {m' n' : Stateful τ ε γ} (pos : p → Linked L w Q m m') (neg : ¬p → Linked L w Q n n') :
    Linked L w Q (if p then m else n) (if p then m' else n') := by
  split_ifs with h
  · exact pos h
  · exact neg h

/-- A loop over related elements, from one accumulator related to another. -/
theorem Linked.foldlM {ι κ : Type} {Q : W → β → γ → Prop} {E : W → ι → κ → Prop}
    (later : ∀ {w w'}, w ≤ w' → ∀ {i k}, E w i k → E w' i k)
    {f : β → ι → Stateful σ ε β} {f' : γ → κ → Stateful τ ε γ} :
    ∀ {l : List ι} {l' : List κ} {w : W} {b : β} {c : γ}, List.Forall₂ (E w) l l' → Q w b c →
      (∀ w', w ≤ w' → ∀ b c i k, Q w' b c → E w' i k → Linked L w' Q (f b i) (f' c k)) →
      Linked L w Q (l.foldlM f b) (l'.foldlM f' c)
  | _, _, _, _, _, .nil, q, _ => .pure q
  | _, _, _, _, _, .cons one more, q, step => by
      rw [List.foldlM_cons, List.foldlM_cons]
      refine (step _ le_rfl _ _ _ _ q one).bind fun w' le b c q' => ?_
      exact Linked.foldlM later (more.imp fun _ _ => later le) q'
        fun w₂ le₂ => step w₂ (le.trans le₂)

/-- A loop without an accumulator. -/
theorem Linked.forM {ι κ : Type} {E : W → ι → κ → Prop}
    (later : ∀ {w w'}, w ≤ w' → ∀ {i k}, E w i k → E w' i k)
    {f : ι → Stateful σ ε Unit} {f' : κ → Stateful τ ε Unit} :
    ∀ {l : List ι} {l' : List κ} {w : W}, List.Forall₂ (E w) l l' →
      (∀ w', w ≤ w' → ∀ i k, E w' i k → Linked L w' (fun _ _ _ => True) (f i) (f' k)) →
      Linked L w (fun _ _ _ => True) (l.forM f) (l'.forM f')
  | _, _, _, .nil, _ => .pure trivial
  | i :: l, k :: l', w, .cons one more, step => by
      show Linked L w _ (f i >>= fun _ => l.forM f) (f' k >>= fun _ => l'.forM f')
      refine (step _ le_rfl _ _ one).bind fun w' le _ _ _ => ?_
      exact Linked.forM later (more.imp fun _ _ => later le) fun w₂ le₂ => step w₂ (le.trans le₂)

end Linked

end Stateful

end Xrune
