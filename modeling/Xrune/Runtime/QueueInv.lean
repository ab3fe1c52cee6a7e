import Xrune.Runtime.Queue

/-!
# Runtime — the invariant of the bounded queue

Every access of every party keeps `QueueInv`, in particular that the history is lawful, as long
as the positions do not wrap (`QueueInv.step`).

The sequence number of a cell says which ticket it serves.  It is the ticket `p` while the cell
is free for `p` or being written, `p + 1` while the value is published or being read, and
`p + capacity` once it was given back.  A sequence number of a cell is therefore never both for
two tickets of that cell, as these are a lap apart and a lap is at least two (`not_next`).
-/

namespace Xrune

open Tickets

theorem seqDif_eq_zero {a b : Nat} (ha : a < 2 ^ 64) (hb : b < 2 ^ 64) (h : seqDif a b = 0) :
    a = b := by
  unfold seqDif intptr at h
  rw [Int.sub_bmod_bmod, Int.bmod_sub_bmod] at h
  have hdvd : ((2 ^ 64 : Nat) : Int) ∣ a - b := Int.dvd_of_bmod_eq_zero h
  omega

namespace QueueParty

/-- The ticket of a push that is writing. -/
def writes : QueueParty → Option Nat
  | .pushWrite _ pos | .pushStore _ pos => some pos
  | _                                   => none

/-- The ticket of a pop that is reading. -/
def reads : QueueParty → Option Nat
  | .popRead pos | .popStore pos _ => some pos
  | _                              => none

/-- In an operation, without a ticket yet. -/
def seeks : QueueParty → Bool
  | .pushLoad _ | .pushSeq _ _ | .pushCas _ _ | .popLoad | .popSeq _ | .popCas _ => true
  | .idle | .pushWrite _ _ | .pushStore _ _ | .popRead _ | .popStore _ _         => false

end QueueParty

namespace MpmcQueue

variable {ι : Type*} {s : MpmcQueue ι} {capacity : Nat} {t : ι}

/-- What a party may rely on where it is. -/
def Relies (s : MpmcQueue ι) : QueueParty → Prop
  | .pushSeq _ pos   => pos ≤ s.enqueuePos
  | .pushCas _ pos   => pos ≤ s.enqueuePos ∧ (pos = s.enqueuePos → (s.cell pos).seq = pos)
  | .pushWrite v pos => pos < s.enqueuePos ∧ (s.cell pos).seq = pos ∧
      .reserved pos v ∈ s.history ∧ ∀ w, .wrote pos w ∉ s.history
  | .pushStore v pos => pos < s.enqueuePos ∧ (s.cell pos).seq = pos ∧ .wrote pos v ∈ s.history
  | .popSeq pos      => pos ≤ s.dequeuePos
  | .popCas pos      => pos ≤ s.dequeuePos ∧ (pos = s.dequeuePos → (s.cell pos).seq = pos + 1)
  | .popRead pos     => (s.cell pos).seq = pos + 1 ∧ .claimed pos ∈ s.history ∧
      ∀ w, .read pos w ∉ s.history
  | .popStore pos v  => (s.cell pos).seq = pos + 1 ∧ .read pos v ∈ s.history
  | _                => True

/-- A ticket that was handed out is being written, is published, or was given back. -/
def Served (s : MpmcQueue ι) (p : Nat) : Prop :=
  ((s.cell p).seq = p ∧ ∃ t, (s.parties t).writes = some p) ∨
  ((s.cell p).seq = p + 1 ∧ .pushed p (s.cell p).val ∈ s.history ∧
    (p < s.dequeuePos → ∃ t, (s.parties t).reads = some p)) ∨
  ∃ v, .popped p v ∈ s.history

structure QueueInv (s : MpmcQueue ι) (capacity : Nat) : Prop where
  sized : s.Sized capacity
  two : 2 ≤ capacity
  lawful : Lawful capacity s.history
  enqueued : s.enqueuePos = (s.history.filterMap Event.reservedTicket).length
  dequeued : s.dequeuePos = (s.history.filterMap Event.claimedTicket).length
  fits : ∀ p, (s.cell p).seq < 2 ^ 64
  ahead : ∀ p, s.enqueuePos ≤ p → (s.cell p).seq ≤ p
  served : ∀ p, p < s.enqueuePos → s.Served p
  pushed : ∀ p v, .pushed p v ∈ s.history → p < (s.cell p).seq
  popped : ∀ p v, .popped p v ∈ s.history → p + 1 < (s.cell p).seq
  kept : ∀ p v, .wrote p v ∈ s.history →
    (∃ w, .read p w ∈ s.history) ∨ (s.cell p).val = v
  relies : ∀ t, s.Relies (s.parties t)
  writer : ∀ t t' p, (s.parties t).writes = some p → (s.parties t').writes = some p → t = t'
  reader : ∀ t t' p, (s.parties t).reads = some p → (s.parties t').reads = some p → t = t'

/-- Two tickets of one place are not consecutive. -/
theorem not_next (two : 2 ≤ capacity) {p q : Nat} (same : q % capacity = p % capacity) :
    q ≠ p + 1 := by
  rintro rfl
  have := lap_le same.symm (Nat.lt_succ_self p)
  omega

namespace QueueInv

variable (Q : s.QueueInv capacity)
include Q

theorem claimed_iff {p : Nat} : .claimed p ∈ s.history ↔ p < s.dequeuePos := by
  rw [Q.dequeued, Q.lawful.claimed_iff]

theorem reserved_iff {p : Nat} : (∃ v, .reserved p v ∈ s.history) ↔ p < s.enqueuePos := by
  rw [Q.enqueued, Q.lawful.reserved_iff]

theorem lt_of_wrote {p : Nat} {v : UInt32} (h : .wrote p v ∈ s.history) : p < s.enqueuePos :=
  Q.reserved_iff.mp ⟨v, Q.lawful.reserved_of_wrote h⟩

theorem lt_of_claimed {p : Nat} (h : .claimed p ∈ s.history) : p < s.enqueuePos := by
  obtain ⟨v, hv⟩ := Q.lawful.pushed_of_claimed h
  exact Q.lt_of_wrote (Q.lawful.wrote_of_pushed hv)

theorem le : s.dequeuePos ≤ s.enqueuePos := by
  by_contra h
  exact absurd (Q.lt_of_claimed (Q.claimed_iff.mpr (not_le.mp h))) (lt_irrefl _)

/-- A cell at `p + 1` holds what was pushed under `p`. -/
theorem published {p : Nat} (seq : (s.cell p).seq = p + 1) :
    .pushed p (s.cell p).val ∈ s.history := by
  have lt : p < s.enqueuePos := by
    by_contra h
    have := Q.ahead p (not_lt.mp h)
    omega
  rcases Q.served p lt with ⟨h, -⟩ | ⟨-, h, -⟩ | ⟨v, h⟩
  · omega
  · exact h
  · have := Q.popped p v h
    omega

/-- While a cell is at the ticket `p`, the other tickets of its place were given back. -/
theorem others_popped {p q : Nat} (seq : (s.cell p).seq = p ∨ (s.cell p).seq = p + 1)
    (lt : q < s.enqueuePos) (same : q % capacity = p % capacity) (ne : q ≠ p) :
    ∃ v, .popped q v ∈ s.history := by
  have hcell := Q.sized.cell_congr same
  have h₁ := not_next Q.two same
  have h₂ := not_next Q.two same.symm
  rcases Q.served q lt with ⟨h, -⟩ | ⟨h, -⟩ | h
  · rw [hcell] at h; omega
  · rw [hcell] at h; omega
  · exact h

end QueueInv

/-! ### What the steps keep -/

/-- What a party relies on is kept by a step that does not move its cell. -/
theorem Relies.mono {s s' : MpmcQueue ι} {p : QueueParty} (h : s.Relies p)
    (history : s.history ⊆ s'.history) (enq : s.enqueuePos ≤ s'.enqueuePos)
    (deq : s.dequeuePos ≤ s'.dequeuePos)
    (free : ∀ q, q = s.enqueuePos → q = s'.enqueuePos → (s.cell q).seq = q → (s'.cell q).seq = q)
    (full : ∀ q, q = s.dequeuePos → q = s'.dequeuePos → (s.cell q).seq = q + 1 →
      (s'.cell q).seq = q + 1)
    (writing : ∀ q, p.writes = some q → (s.cell q).seq = q → (s'.cell q).seq = q ∧
      ∀ w, .wrote q w ∉ s.history → .wrote q w ∉ s'.history)
    (reading : ∀ q, p.reads = some q → (s.cell q).seq = q + 1 → (s'.cell q).seq = q + 1 ∧
      ∀ w, .read q w ∉ s.history → .read q w ∉ s'.history) : s'.Relies p := by
  cases p with
  | pushSeq v q => exact le_trans h enq
  | pushCas v q =>
      have le : q ≤ s.enqueuePos := h.1
      refine ⟨le.trans enq, fun hq => ?_⟩
      have same : q = s.enqueuePos := by omega
      exact free q same hq (h.2 same)
  | pushWrite v q =>
      obtain ⟨lt, seq, mine, fresh⟩ := h
      obtain ⟨seq', fresh'⟩ := writing q rfl seq
      exact ⟨lt.trans_le enq, seq', history mine, fun w => fresh' w (fresh w)⟩
  | pushStore v q =>
      obtain ⟨lt, seq, mine⟩ := h
      exact ⟨lt.trans_le enq, (writing q rfl seq).1, history mine⟩
  | popSeq q => exact le_trans h deq
  | popCas q =>
      have le : q ≤ s.dequeuePos := h.1
      refine ⟨le.trans deq, fun hq => ?_⟩
      have same : q = s.dequeuePos := by omega
      exact full q same hq (h.2 same)
  | popRead q =>
      obtain ⟨seq, mine, fresh⟩ := h
      obtain ⟨seq', fresh'⟩ := reading q rfl seq
      exact ⟨seq', history mine, fun w => fresh' w (fresh w)⟩
  | popStore q v => exact ⟨(reading q rfl h.1).1, history h.2⟩
  | idle | pushLoad v | popLoad => trivial

theorem QueueInv.called (Q : s.QueueInv capacity) : (s.record .called).QueueInv capacity where
  sized := ⟨Q.sized.pow, Q.sized.length, Q.sized.mask⟩
  two := Q.two
  lawful := .cons trivial Q.lawful
  enqueued := Q.enqueued
  dequeued := Q.dequeued
  fits := Q.fits
  ahead := Q.ahead
  served q hq := by simpa [Served] using Q.served q hq
  pushed q v h := Q.pushed q v (by simpa using h)
  popped q v h := Q.popped q v (by simpa using h)
  kept q v h := by simpa using Q.kept q v (by simpa using h)
  relies t' := (Q.relies t').mono (List.subset_cons_self ..) le_rfl le_rfl (fun _ _ _ h => h)
    (fun _ _ _ h => h) (fun _ _ h => ⟨h, by simp⟩) (fun _ _ h => ⟨h, by simp⟩)
  writer := Q.writer
  reader := Q.reader

/-- What moving the cell of `pos` on to `n` does to the cells of the other tickets: the tickets
of its place were given back. -/
theorem QueueInv.stored (Q : s.QueueInv capacity) {n q pos : Nat}
    (seq : (s.cell pos).seq = pos ∨ (s.cell pos).seq = pos + 1) (grows : (s.cell pos).seq < n)
    (ne : q ≠ pos) :
    (((s.putSeq pos n).cell q).seq = (s.cell q).seq ∨
      q % capacity = pos % capacity ∧ ((s.putSeq pos n).cell q).seq = n ∧
        (s.cell q).seq < n ∧ (s.cell q).seq ≠ q ∧ (s.cell q).seq ≠ q + 1) ∧
      ((s.putSeq pos n).cell q).val = (s.cell q).val := by
  rw [Q.sized.cell_putSeq]
  by_cases same : q % capacity = pos % capacity
  · have cell := congrArg QueueCell.seq (Q.sized.cell_congr same)
    have h₁ := not_next Q.two same
    have h₂ := not_next Q.two same.symm
    rw [if_pos same]
    exact ⟨.inr ⟨same, rfl, by omega, by omega, by omega⟩, rfl⟩
  · rw [if_neg same]
    exact ⟨.inl rfl, rfl⟩

section Steps

variable [DecidableEq ι] {s' : MpmcQueue ι} {p : QueueParty} {f : QueueParty → Option Nat} {v : UInt32} {pos : Nat}

theorem exists_update {parties : ι → QueueParty} {q : Nat} (h : ∃ t', f (parties t') = some q)
    (keeps : f (parties t) = some q → f p = some q) :
    ∃ t', f (Function.update parties t p t') = some q := by
  obtain ⟨t', ht⟩ := h
  refine ⟨t', ?_⟩
  by_cases h : t' = t
  · subst h; rw [Function.update_self]; exact keeps ht
  · rw [Function.update_of_ne h]; exact ht

/-- Tickets stay apart when a party goes where it has its own ticket, or one nobody has. -/
theorem apart_update {parties : ι → QueueParty}
    (apart : ∀ a b q, f (parties a) = some q → f (parties b) = some q → a = b)
    (new : ∀ q, f p = some q → f (parties t) = some q ∨ ∀ t', f (parties t') ≠ some q) :
    ∀ a b q, f (Function.update parties t p a) = some q →
      f (Function.update parties t p b) = some q → a = b := by
  intro a b q ha hb
  by_cases hat : a = t <;> by_cases hbt : b = t
  · rw [hat, hbt]
  · subst hat
    rw [Function.update_self] at ha
    rw [Function.update_of_ne hbt] at hb
    rcases new q ha with own | none
    · exact apart a b q own hb
    · exact absurd hb (none b)
  · subst hbt
    rw [Function.update_self] at hb
    rw [Function.update_of_ne hat] at ha
    rcases new q hb with own | none
    · exact apart a b q ha own
    · exact absurd ha (none a)
  · rw [Function.update_of_ne hat] at ha
    rw [Function.update_of_ne hbt] at hb
    exact apart a b q ha hb

theorem relies_update {s' : MpmcQueue ι} (moved : s'.parties = Function.update s.parties t p)
    (new : s'.Relies p) (others : ∀ t', t' ≠ t → s'.Relies (s.parties t')) :
    ∀ t', s'.Relies (s'.parties t') := by
  intro t'
  rw [moved]
  by_cases h : t' = t
  · subst h; rw [Function.update_self]; exact new
  · rw [Function.update_of_ne h]; exact others t' h

/-- A party that has no ticket goes where it has none. -/
theorem QueueInv.goTo (Q : s.QueueInv capacity) (noWrite : (s.parties t).writes = none)
    (noRead : (s.parties t).reads = none) (noWrite' : p.writes = none) (noRead' : p.reads = none)
    (relies : s.Relies p) : (s.goTo t p).QueueInv capacity :=
  { Q with
    sized := ⟨Q.sized.pow, Q.sized.length, Q.sized.mask⟩
    served := fun q hq => by
      rcases Q.served q hq with ⟨seq, h⟩ | ⟨seq, mine, h⟩ | h
      · exact .inl ⟨seq, exists_update h fun hw => absurd hw (by simp [noWrite])⟩
      · exact .inr (.inl ⟨seq, mine, fun lt => exists_update (h lt) fun hr =>
          absurd hr (by simp [noRead])⟩)
      · exact .inr (.inr h)
    relies := relies_update rfl relies fun t' _ => Q.relies t'
    writer := apart_update Q.writer fun q h => absurd h (by simp [noWrite'])
    reader := apart_update Q.reader fun q h => absurd h (by simp [noRead']) }

/-- A push takes the next enqueue ticket. -/
theorem QueueInv.reserve (Q : s.QueueInv capacity) (here : s.parties t = .pushCas v pos)
    (win : s.enqueuePos = pos) :
    (({ s with enqueuePos := pos + 1 }.goTo t (.pushWrite v pos)).record
      (.reserved pos v)).QueueInv capacity := by
  obtain ⟨-, seq⟩ : s.Relies (.pushCas v pos) := here ▸ Q.relies t
  have seq := seq win.symm
  have fresh : ∀ w, .wrote pos w ∉ s.history := fun w hw =>
    absurd (Q.lt_of_wrote hw) (by omega)
  have nobody : ∀ t', (s.parties t').writes ≠ some pos := by
    intro t' h
    have relies := Q.relies t'
    cases hp : s.parties t' with
    | pushWrite w q | pushStore w q =>
        rw [hp] at h relies
        cases h
        exact absurd relies.1 (by omega)
    | _ => rw [hp] at h; cases h
  have next : pos = (s.history.filterMap Event.reservedTicket).length := win.symm.trans Q.enqueued
  exact
    { sized := ⟨Q.sized.pow, Q.sized.length, Q.sized.mask⟩
      two := Q.two
      lawful := .cons next Q.lawful
      enqueued := congrArg (· + 1) next
      dequeued := Q.dequeued
      fits := Q.fits
      ahead := fun q hq => Q.ahead q (win.trans_le (Nat.le_of_succ_le hq))
      served := fun q hq => by
        rcases Nat.lt_succ_iff_lt_or_eq.mp hq with lt | rfl
        · rcases Q.served q (win.symm ▸ lt) with ⟨seq, h⟩ | ⟨seq, mine, h⟩ | ⟨w, h⟩
          · exact .inl ⟨seq, exists_update h fun hw => absurd hw (by simp [here, QueueParty.writes])⟩
          · exact .inr (.inl ⟨seq, List.mem_cons_of_mem _ mine, fun lt =>
              exists_update (h lt) fun hr => absurd hr (by simp [here, QueueParty.reads])⟩)
          · exact .inr (.inr ⟨w, List.mem_cons_of_mem _ h⟩)
        · exact .inl ⟨seq, t, by simp [QueueParty.writes]⟩
      pushed := fun q w h => Q.pushed q w (by simpa using h)
      popped := fun q w h => Q.popped q w (by simpa using h)
      kept := fun q w h => (Q.kept q w (by simpa using h)).imp_left
        fun ⟨u, hu⟩ => ⟨u, List.mem_cons_of_mem _ hu⟩
      relies := by
        refine relies_update rfl ?_ fun t' _ => ?_
        · exact ⟨Nat.lt_succ_self _, seq, List.mem_cons_self .., by simpa using fresh⟩
        · refine (Q.relies t').mono (List.subset_cons_self ..) (by simp; omega) le_rfl
            (fun q h h' => ?_) (fun _ _ _ h => h) (fun _ _ h => ⟨h, by simp⟩)
            (fun _ _ h => ⟨h, by simp⟩)
          simp at h'
          omega
      writer := apart_update Q.writer fun q h => by cases h; exact .inr nobody
      reader := apart_update Q.reader fun q h => nomatch h }

/-- A push writes its value into its cell. -/
theorem QueueInv.write (Q : s.QueueInv capacity) (here : s.parties t = .pushWrite v pos) :
    (((s.putVal pos v).goTo t (.pushStore v pos)).record (.wrote pos v)).QueueInv capacity := by
  obtain ⟨lt, seq, mine, fresh⟩ : s.Relies (.pushWrite v pos) := here ▸ Q.relies t
  have cells := fun q => Q.sized.cell_putVal pos q v
  have seqs : ∀ q, ((s.putVal pos v).cell q).seq = (s.cell q).seq := fun q => by
    rw [cells]; split <;> rfl
  have own : ∀ t', (s.parties t').writes = some pos → t' = t := fun t' h =>
    Q.writer t' t pos h (by rw [here]; rfl)
  have lap : capacity ≤ pos → ∃ w, .popped (pos - capacity) w ∈ s.history := fun full =>
    Q.others_popped (.inl seq) (by omega) (Nat.mod_eq_sub_mod full).symm
      (by have := Q.two; omega)
  exact
    { sized := ⟨Q.sized.pow, (List.length_modify ..).trans Q.sized.length, Q.sized.mask⟩
      two := Q.two
      lawful := .cons ⟨mine, fresh, lap⟩ Q.lawful
      enqueued := Q.enqueued
      dequeued := Q.dequeued
      fits := fun q => (seqs q).trans_lt (Q.fits q)
      ahead := fun q hq => (seqs q).trans_le (Q.ahead q hq)
      served := fun q hq => by
        rcases Q.served q hq with ⟨seqq, h⟩ | ⟨seqq, pushed, h⟩ | ⟨w, h⟩
        · refine .inl ⟨(seqs q).trans seqq, exists_update h fun hw => ?_⟩
          rw [putVal_parties, here] at hw
          exact hw
        · have other : q % capacity ≠ pos % capacity := fun same => by
            rw [Q.sized.cell_congr same, seq] at seqq
            exact not_next Q.two same.symm seqq
          have cell : (s.putVal pos v).cell q = s.cell q := by rw [cells, if_neg other]
          refine .inr (.inl ⟨(seqs q).trans seqq, ?_, fun lt => exists_update (h lt) fun hr => ?_⟩)
          · exact List.mem_cons_of_mem _ (congrArg QueueCell.val cell ▸ pushed)
          · exact absurd hr (by simp [here, QueueParty.reads])
        · exact .inr (.inr ⟨w, List.mem_cons_of_mem _ h⟩)
      pushed := fun q w h => (Q.pushed q w (by simpa using h)).trans_eq (seqs q).symm
      popped := fun q w h => (Q.popped q w (by simpa using h)).trans_eq (seqs q).symm
      kept := fun q w h => by
        have cell := cells q
        rcases List.mem_cons.mp h with h | h
        · cases h
          exact .inr (by rw [record_cell, goTo_cell, cell, if_pos rfl])
        · by_cases same : q % capacity = pos % capacity
          · obtain ⟨u, hu⟩ := Q.others_popped (.inl seq) (Q.lt_of_wrote h) same
              (by rintro rfl; exact fresh w h)
            exact .inl ⟨u, List.mem_cons_of_mem _ (Q.lawful.read_of_popped hu)⟩
          · rw [if_neg same] at cell
            exact (Q.kept q w h).imp (fun ⟨u, hu⟩ => ⟨u, List.mem_cons_of_mem _ hu⟩)
              fun val => by rw [record_cell, goTo_cell, cell]; exact val
      relies := by
        refine relies_update rfl ?_ fun t' ne => ?_
        · exact ⟨lt, (seqs pos).trans seq, List.mem_cons_self ..⟩
        · refine (Q.relies t').mono (List.subset_cons_self ..) le_rfl le_rfl
            (fun q _ _ h => (seqs q).trans h) (fun q _ _ h => (seqs q).trans h)
            (fun q hw h => ⟨(seqs q).trans h, ?_⟩) (fun q _ h => ⟨(seqs q).trans h, by simp⟩)
          rintro w old (_ | ⟨_, h⟩)
          · exact ne (own t' hw)
          · exact old h
      writer := apart_update Q.writer fun q h => .inl (by rw [putVal_parties, here]; exact h)
      reader := apart_update Q.reader fun q h => nomatch h }

/-- A party moves its cell on to `n`: a push to `pos + 1`, a pop to the ticket a lap later. -/
inductive Stores (capacity pos : Nat) (v : UInt32) : QueueParty → Nat → Event UInt32 → Prop where
  | push : Stores capacity pos v (.pushStore v pos) (pos + 1) (.pushed pos v)
  | pop : Stores capacity pos v (.popStore pos v) (pos + capacity) (.popped pos v)

/-- What is known of the cell before the store, and what the event adds. -/
structure Storing (s : MpmcQueue ι) (capacity pos : Nat) (t : ι) (n : Nat) (e : Event UInt32) :
    Prop where
  seq : (s.cell pos).seq = pos ∨ (s.cell pos).seq = pos + 1
  grows : (s.cell pos).seq < n
  lt : pos < s.enqueuePos
  below : ∀ q, s.enqueuePos ≤ q → q % capacity = pos % capacity → n ≤ q
  full : (s.cell pos).seq = pos + 1 → pos < s.dequeuePos
  alone : ∀ t', t' ≠ t → ((s.parties t').writes = some pos → (s.cell pos).seq ≠ pos) ∧
    ((s.parties t').reads = some pos → (s.cell pos).seq ≠ pos + 1)
  here : ∀ q, q ≠ pos → (s.parties t).writes ≠ some q ∧ (s.parties t).reads ≠ some q
  lawful : Lawful capacity (e :: s.history)
  tickets : e.reservedTicket = none ∧ e.claimedTicket = none
  isPushed : ∀ q w, e = .pushed q w → q = pos ∧ pos < n
  isPopped : ∀ q w, e = .popped q w → q = pos ∧ pos + 1 < n
  notHeld : ∀ q w, e ≠ .wrote q w ∧ e ≠ .read q w
  served : n = pos + 1 ∧ e = .pushed pos (s.cell pos).val ∧ ¬ pos < s.dequeuePos ∨
    ∃ w, e = .popped pos w

omit [DecidableEq ι] in
theorem QueueInv.storing (Q : s.QueueInv capacity) {n : Nat} {e : Event UInt32}
    (kind : Stores capacity pos v p n e) (here : s.parties t = p) :
    s.Storing capacity pos t n e := by
  have two := Q.two
  have relies : s.Relies p := here ▸ Q.relies t
  cases kind with
  | push =>
      obtain ⟨lt, seq, mine⟩ := relies
      have fresh : ∀ w, .pushed pos w ∉ s.history := fun w h => by
        have := Q.pushed pos w h
        omega
      have val : (s.cell pos).val = v := by
        rcases Q.kept pos v mine with ⟨w, hw⟩ | h
        · exact absurd (Q.lawful.pushed_of_read hw) (fresh w)
        · exact h
      exact
        { seq := .inl seq
          grows := by omega
          lt
          below := fun q hq _ => lt.trans_le hq
          full := by omega
          alone := fun t' ne =>
            ⟨fun h => absurd (Q.writer t' t pos h (by rw [here]; rfl)) ne, by omega⟩
          here := fun q hq => by simpa [here, QueueParty.writes, QueueParty.reads] using hq.symm
          lawful := .cons ⟨mine, fresh⟩ Q.lawful
          tickets := ⟨rfl, rfl⟩
          isPushed := fun q w h => by cases h; exact ⟨rfl, by omega⟩
          isPopped := fun q w h => nomatch h
          notHeld := fun q w => ⟨(nomatch ·), (nomatch ·)⟩
          served := .inl ⟨rfl, by rw [val], fun h => by
            obtain ⟨w, hw⟩ := Q.lawful.pushed_of_claimed (Q.claimed_iff.mpr h)
            exact fresh w hw⟩ }
  | pop =>
      obtain ⟨seq, mine⟩ := relies
      have claimed := Q.lawful.claimed_of_read mine
      have lt := Q.lt_of_claimed claimed
      have fresh : ∀ w, .popped pos w ∉ s.history := fun w h => by
        have := Q.popped pos w h
        omega
      exact
        { seq := .inr seq
          grows := by omega
          lt
          below := fun q hq same => lap_le same.symm (lt.trans_le hq)
          full := fun _ => Q.claimed_iff.mp claimed
          alone := fun t' ne =>
            ⟨by omega, fun h => absurd (Q.reader t' t pos h (by rw [here]; rfl)) ne⟩
          here := fun q hq => by simpa [here, QueueParty.writes, QueueParty.reads] using hq.symm
          lawful := .cons ⟨mine, fresh⟩ Q.lawful
          tickets := ⟨rfl, rfl⟩
          isPushed := fun q w h => nomatch h
          isPopped := fun q w h => by cases h; exact ⟨rfl, by omega⟩
          notHeld := fun q w => ⟨(nomatch ·), (nomatch ·)⟩
          served := .inr ⟨v, rfl⟩ }

/-- A push publishes its value, a pop gives its cell back. -/
theorem QueueInv.store (Q : s.QueueInv capacity) {n : Nat} {e : Event UInt32}
    (small : n < 2 ^ 64) (kind : Stores capacity pos v p n e) (here : s.parties t = p) :
    (((s.putSeq pos n).goTo t .idle).record e).QueueInv capacity := by
  have S := Q.storing kind here
  have at_pos : (s.putSeq pos n).cell pos = { s.cell pos with seq := n } := by
    rw [Q.sized.cell_putSeq, if_pos rfl]
  have stored := fun q => Q.stored (q := q) S.seq S.grows
  have before : ∀ {x : Event UInt32}, x ∈ e :: s.history → e ≠ x → x ∈ s.history :=
    fun hx ne => (List.mem_cons.mp hx).resolve_left ne.symm
  have free : ∀ q, q ≠ pos → (s.cell q).seq = q → ((s.putSeq pos n).cell q).seq = q := by
    intro q ne h
    rcases (stored q ne).1 with m | ⟨-, -, -, m, -⟩
    · exact m.trans h
    · exact absurd h m
  have full : ∀ q, q ≠ pos → (s.cell q).seq = q + 1 →
      ((s.putSeq pos n).cell q).seq = q + 1 := by
    intro q ne h
    rcases (stored q ne).1 with m | ⟨-, -, -, -, m⟩
    · exact m.trans h
    · exact absurd h m
  have grown : ∀ q m, q ≠ pos → m < (s.cell q).seq → m < ((s.putSeq pos n).cell q).seq := by
    intro q m ne h
    rcases (stored q ne).1 with moved | ⟨-, moved, less, -⟩
    · exact h.trans_eq moved.symm
    · exact (h.trans less).trans_eq moved.symm
  exact
    { sized := ⟨Q.sized.pow, (List.length_modify ..).trans Q.sized.length, Q.sized.mask⟩
      two := Q.two
      lawful := S.lawful
      enqueued := by
        rw [record_history, List.filterMap_cons_none S.tickets.1]; exact Q.enqueued
      dequeued := by
        rw [record_history, List.filterMap_cons_none S.tickets.2]; exact Q.dequeued
      fits := fun q => by
        by_cases h : q = pos
        · rw [h, record_cell, goTo_cell, at_pos]; exact small
        · rcases (stored q h).1 with h | ⟨-, h, -⟩
          · exact h.trans_lt (Q.fits q)
          · exact h.trans_lt small
      ahead := fun q hq => by
        have ne : q ≠ pos := (S.lt.trans_le hq).ne'
        rcases (stored q ne).1 with h | ⟨same, h, -⟩
        · exact h.trans_le (Q.ahead q hq)
        · exact h.trans_le (S.below q hq same)
      served := fun q hq => by
        by_cases h : q = pos
        · subst h
          rcases S.served with ⟨rfl, rfl, unclaimed⟩ | ⟨w, rfl⟩
          · refine .inr (.inl ⟨by rw [record_cell, goTo_cell, at_pos], ?_, fun lt => ?_⟩)
            · rw [record_cell, goTo_cell, at_pos]
              exact List.mem_cons_self ..
            · exact absurd lt unclaimed
          · exact .inr (.inr ⟨w, List.mem_cons_self ..⟩)
        · rcases Q.served q hq with ⟨seq, h'⟩ | ⟨seq, pushed, h'⟩ | ⟨w, h'⟩
          · exact .inl ⟨free q h seq, exists_update h' fun hw => absurd hw (S.here q h).1⟩
          · refine .inr (.inl ⟨full q h seq, ?_, fun lt =>
              exists_update (h' lt) fun hr => absurd hr (S.here q h).2⟩)
            rw [record_cell, goTo_cell, (stored q h).2]
            exact List.mem_cons_of_mem _ pushed
          · exact .inr (.inr ⟨w, List.mem_cons_of_mem _ h'⟩)
      pushed := fun q w h => by
        by_cases hq : q = pos
        · rw [hq, record_cell, goTo_cell, at_pos]
          rcases S.seq with seq | seq <;> exact lt_of_le_of_lt (by omega) S.grows
        · exact grown q q hq (Q.pushed q w (before h fun he => hq (S.isPushed q w he).1))
      popped := fun q w h => by
        by_cases hq : q = pos
        · rw [hq, record_cell, goTo_cell, at_pos]
          rcases List.mem_cons.mp h with he | h
          · exact (S.isPopped q w he.symm).2
          · exact (Q.popped pos w (hq ▸ h)).trans S.grows
        · exact grown q _ hq (Q.popped q w (before h fun he => hq (S.isPopped q w he).1))
      kept := fun q w h => by
        refine (Q.kept q w (before h (S.notHeld q w).1)).imp
          (fun ⟨u, hu⟩ => ⟨u, List.mem_cons_of_mem _ hu⟩) fun val => ?_
        by_cases hq : q = pos
        · rw [hq, record_cell, goTo_cell, at_pos, ← val, hq]
        · exact (stored q hq).2.trans val
      relies := by
        refine relies_update rfl trivial fun t' ne => ?_
        refine (Q.relies t').mono (List.subset_cons_self ..) le_rfl le_rfl
          (fun q hq _ h => free q (by have := S.lt; omega) h)
          (fun q hq _ h => full q (fun e => ?_) h)
          (fun q hw h => ⟨free q (fun e => ?_) h, fun w old new => ?_⟩)
          (fun q hr h => ⟨full q (fun e => ?_) h, fun w old new => ?_⟩)
        · subst e
          exact absurd (S.full h) (by omega)
        · subst e
          exact (S.alone t' ne).1 hw h
        · exact old (before new (S.notHeld q w).1)
        · subst e
          exact (S.alone t' ne).2 hr h
        · exact old (before new (S.notHeld q w).2)
      writer := apart_update Q.writer fun q h => nomatch h
      reader := apart_update Q.reader fun q h => nomatch h }

/-- A pop takes the next dequeue ticket. -/
theorem QueueInv.claim (Q : s.QueueInv capacity) (here : s.parties t = .popCas pos)
    (win : s.dequeuePos = pos) :
    (({ s with dequeuePos := pos + 1 }.goTo t (.popRead pos)).record
      (.claimed pos)).QueueInv capacity := by
  obtain ⟨-, seq⟩ : s.Relies (.popCas pos) := here ▸ Q.relies t
  have seq := seq win.symm
  have fresh : ∀ w, .read pos w ∉ s.history := fun w hw =>
    absurd (Q.claimed_iff.mp (Q.lawful.claimed_of_read hw)) (by omega)
  have nobody : ∀ t', (s.parties t').reads ≠ some pos := by
    intro t' h
    have relies := Q.relies t'
    cases hp : s.parties t' with
    | popRead q =>
        rw [hp] at h relies
        cases h
        exact absurd (Q.claimed_iff.mp relies.2.1) (by omega)
    | popStore q w =>
        rw [hp] at h relies
        cases h
        exact fresh w relies.2
    | _ => rw [hp] at h; cases h
  have next : pos = (s.history.filterMap Event.claimedTicket).length := win.symm.trans Q.dequeued
  exact
    { sized := ⟨Q.sized.pow, Q.sized.length, Q.sized.mask⟩
      two := Q.two
      lawful := .cons ⟨next, _, Q.published seq⟩ Q.lawful
      enqueued := Q.enqueued
      dequeued := congrArg (· + 1) next
      fits := Q.fits
      ahead := Q.ahead
      served := fun q hq => by
        rcases Q.served q hq with ⟨seqq, h⟩ | ⟨seqq, mine, h⟩ | ⟨w, h⟩
        · exact .inl ⟨seqq, exists_update h fun hw =>
            absurd hw (by simp [here, QueueParty.writes])⟩
        · refine .inr (.inl ⟨seqq, List.mem_cons_of_mem _ mine, fun lt => ?_⟩)
          rcases Nat.lt_succ_iff_lt_or_eq.mp lt with lt | rfl
          · exact exists_update (h (win.symm ▸ lt)) fun hr =>
              absurd hr (by simp [here, QueueParty.reads])
          · exact ⟨t, by simp [QueueParty.reads]⟩
        · exact .inr (.inr ⟨w, List.mem_cons_of_mem _ h⟩)
      pushed := fun q w h => Q.pushed q w (by simpa using h)
      popped := fun q w h => Q.popped q w (by simpa using h)
      kept := fun q w h => (Q.kept q w (by simpa using h)).imp_left
        fun ⟨u, hu⟩ => ⟨u, List.mem_cons_of_mem _ hu⟩
      relies := by
        refine relies_update rfl ?_ fun t' _ => ?_
        · exact ⟨seq, List.mem_cons_self .., by simpa using fresh⟩
        · refine (Q.relies t').mono (List.subset_cons_self ..) le_rfl (by simp; omega)
            (fun _ _ _ h => h) (fun q h h' => ?_) (fun _ _ h => ⟨h, by simp⟩)
            (fun _ _ h => ⟨h, by simp⟩)
          simp at h'
          omega
      writer := apart_update Q.writer fun q h => nomatch h
      reader := apart_update Q.reader fun q h => by cases h; exact .inr nobody }

/-- A pop reads the value of its cell. -/
theorem QueueInv.read (Q : s.QueueInv capacity) (here : s.parties t = .popRead pos) :
    ((s.goTo t (.popStore pos (s.cell pos).val)).record
      (.read pos (s.cell pos).val)).QueueInv capacity := by
  obtain ⟨seq, mine, fresh⟩ : s.Relies (.popRead pos) := here ▸ Q.relies t
  have own : ∀ t', (s.parties t').reads = some pos → t' = t := fun t' h =>
    Q.reader t' t pos h (by rw [here]; rfl)
  exact
    { sized := ⟨Q.sized.pow, Q.sized.length, Q.sized.mask⟩
      two := Q.two
      lawful := .cons ⟨mine, Q.published seq, fresh⟩ Q.lawful
      enqueued := Q.enqueued
      dequeued := Q.dequeued
      fits := Q.fits
      ahead := Q.ahead
      served := fun q hq => by
        rcases Q.served q hq with ⟨seqq, h⟩ | ⟨seqq, pushed, h⟩ | ⟨w, h⟩
        · exact .inl ⟨seqq, exists_update h fun hw =>
            absurd hw (by simp [here, QueueParty.writes])⟩
        · refine .inr (.inl ⟨seqq, List.mem_cons_of_mem _ pushed, fun lt =>
            exists_update (h lt) fun hr => ?_⟩)
          rw [here] at hr
          exact hr
        · exact .inr (.inr ⟨w, List.mem_cons_of_mem _ h⟩)
      pushed := fun q w h => Q.pushed q w (by simpa using h)
      popped := fun q w h => Q.popped q w (by simpa using h)
      kept := fun q w h => (Q.kept q w (by simpa using h)).imp_left
        fun ⟨u, hu⟩ => ⟨u, List.mem_cons_of_mem _ hu⟩
      relies := by
        refine relies_update rfl ⟨seq, List.mem_cons_self ..⟩ fun t' ne => ?_
        refine (Q.relies t').mono (List.subset_cons_self ..) le_rfl le_rfl (fun _ _ _ h => h)
          (fun _ _ _ h => h) (fun _ _ h => ⟨h, by simp⟩) (fun q hr h => ⟨h, ?_⟩)
        rintro w old (_ | ⟨_, h⟩)
        · exact ne (own t' hr)
        · exact old h
      writer := apart_update Q.writer fun q h => nomatch h
      reader := apart_update Q.reader fun q h => .inl (by rw [here]; exact h) }

/-- Each access keeps the invariant, while the positions are far from wrapping. -/
theorem QueueInv.advance (Q : s.QueueInv capacity) (fits : capacity ≤ 2 ^ 63)
    (enq : s.enqueuePos < 2 ^ 63) (run : s.advance t = some s') : s'.QueueInv capacity := by
  have le := Q.le
  have pos_lap := Q.sized.pos
  have relies := Q.relies t
  unfold MpmcQueue.advance at run
  cases here : s.parties t with
  | idle => rw [here] at run; cases run
  | pushLoad v =>
      rw [here] at run
      cases run
      exact Q.goTo (by rw [here]; rfl) (by rw [here]; rfl) rfl rfl le_rfl
  | pushSeq v pos =>
      rw [here] at run relies
      have hpos : pos ≤ s.enqueuePos := relies
      dsimp only at run
      split_ifs at run with same less
      · cases run
        have seq : (s.cell pos).seq = pos := seqDif_eq_zero (Q.fits pos) (by omega) same
        exact Q.goTo (by rw [here]; rfl) (by rw [here]; rfl) rfl rfl ⟨hpos, fun _ => seq⟩
      · cases run
        exact Q.goTo (by rw [here]; rfl) (by rw [here]; rfl) rfl rfl trivial
      · cases run
        exact Q.goTo (by rw [here]; rfl) (by rw [here]; rfl) rfl rfl trivial
  | pushCas v pos =>
      rw [here] at run
      dsimp only at run
      split_ifs at run with win
      · cases run
        rw [sizeT_of_lt (by omega)]
        exact Q.reserve here win
      · cases run
        exact Q.goTo (by rw [here]; rfl) (by rw [here]; rfl) rfl rfl le_rfl
  | pushWrite v pos =>
      rw [here] at run
      cases run
      exact Q.write here
  | pushStore v pos =>
      rw [here] at run relies
      have hpos : pos < s.enqueuePos := relies.1
      cases run
      rw [sizeT_of_lt (by omega)]
      exact Q.store (by omega) .push here
  | popLoad =>
      rw [here] at run
      cases run
      exact Q.goTo (by rw [here]; rfl) (by rw [here]; rfl) rfl rfl le_rfl
  | popSeq pos =>
      rw [here] at run relies
      have hpos : pos ≤ s.dequeuePos := relies
      have next : sizeT (pos + 1) = pos + 1 := sizeT_of_lt (by omega)
      dsimp only at run
      split_ifs at run with same less
      · cases run
        rw [next] at same
        have seq : (s.cell pos).seq = pos + 1 := seqDif_eq_zero (Q.fits pos) (by omega) same
        exact Q.goTo (by rw [here]; rfl) (by rw [here]; rfl) rfl rfl ⟨hpos, fun _ => seq⟩
      · cases run
        exact Q.goTo (by rw [here]; rfl) (by rw [here]; rfl) rfl rfl trivial
      · cases run
        exact Q.goTo (by rw [here]; rfl) (by rw [here]; rfl) rfl rfl trivial
  | popCas pos =>
      rw [here] at run
      dsimp only at run
      split_ifs at run with win
      · cases run
        rw [sizeT_of_lt (by omega)]
        exact Q.claim here win
      · cases run
        exact Q.goTo (by rw [here]; rfl) (by rw [here]; rfl) rfl rfl le_rfl
  | popRead pos =>
      rw [here] at run
      cases run
      exact Q.read here
  | popStore pos v =>
      rw [here] at run relies
      have hpos := Q.lt_of_claimed (Q.lawful.claimed_of_read relies.2)
      have lap : pos + s.mask + 1 = pos + capacity := by rw [Q.sized.mask]; omega
      cases run
      rw [lap, sizeT_of_lt (by omega)]
      exact Q.store (by omega) .pop here

theorem QueueInv.step (Q : s.QueueInv capacity) (fits : capacity ≤ 2 ^ 63)
    (enq : s.enqueuePos < 2 ^ 63) {a : QueueAction ι} (run : s.step a = some s') :
    s'.QueueInv capacity := by
  cases a with
  | push t v =>
      have idle := (Option.ite_none_right_eq_some.mp run).1
      rw [MpmcQueue.step, if_pos idle] at run
      cases run
      exact (Q.goTo (p := .pushLoad v) (by rw [idle]; rfl) (by rw [idle]; rfl) rfl rfl
        trivial).called
  | pop t =>
      have idle := (Option.ite_none_right_eq_some.mp run).1
      rw [MpmcQueue.step, if_pos idle] at run
      cases run
      exact (Q.goTo (p := .popLoad) (by rw [idle]; rfl) (by rw [idle]; rfl) rfl rfl
        trivial).called
  | next t => exact Q.advance fits enq run
  | failCas t =>
      rw [MpmcQueue.step] at run
      cases here : s.parties t with
      | pushCas v pos | popCas pos =>
          rw [here] at run
          cases run
          exact Q.goTo (by rw [here]; rfl) (by rw [here]; rfl) rfl rfl le_rfl
      | _ => rw [here] at run; cases run

end Steps

end MpmcQueue

end Xrune
