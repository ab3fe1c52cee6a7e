import Xrune.Support.Runs
import Xrune.Runtime.QueueInv

/-!
# Runtime — safety of the bounded queue

In every state that fewer than `2 ^ 63` operations lead to, of any parties and in any order of
their accesses, the queue is `Safe`.  The bound is what keeps the positions from wrapping: every
ticket belongs to an operation of its own (`Counted`).
-/

namespace Xrune

open Tickets

namespace MpmcQueue

variable {ι : Type*} {s : MpmcQueue ι} {capacity : Nat} {t : ι}

section Steps

variable [DecidableEq ι] {s' : MpmcQueue ι} {p : QueueParty}

/-! ### Positions and operations -/

/-- Each ticket handed out belongs to an operation of its own, and those still seeking one are
further operations. -/
def Counted (s : MpmcQueue ι) : Prop :=
  ∃ seekers : Finset ι, (∀ t, (s.parties t).seeks → t ∈ seekers) ∧
    s.enqueuePos + s.dequeuePos + seekers.card ≤ s.calls

theorem Counted.move (C : s.Counted) (moved : s'.parties = Function.update s.parties t p)
    (counts : s'.enqueuePos + s'.dequeuePos + p.seeks.toNat + s.calls ≤
      s.enqueuePos + s.dequeuePos + (s.parties t).seeks.toNat + s'.calls) : s'.Counted := by
  obtain ⟨seekers, mem, card⟩ := C
  have others : ∀ t', t' ≠ t → (s'.parties t').seeks → t' ∈ seekers := fun t' ne h =>
    mem t' (by rwa [moved, Function.update_of_ne ne] at h)
  have self : s'.parties t = p := by rw [moved, Function.update_self]
  have was := mem t
  cases hp : p.seeks with
  | true =>
      refine ⟨insert t seekers, fun t' h => ?_, ?_⟩
      · by_cases ht : t' = t
        · exact ht ▸ Finset.mem_insert_self ..
        · exact Finset.mem_insert_of_mem (others t' ht h)
      · rw [hp] at counts
        cases hs : (s.parties t).seeks with
        | true =>
            rw [Finset.insert_eq_of_mem (was hs)]
            rw [hs] at counts
            omega
        | false =>
            rw [hs] at counts
            have := Finset.card_insert_le t seekers
            simp at counts
            omega
  | false =>
      refine ⟨seekers.erase t, fun t' h => ?_, ?_⟩
      · by_cases ht : t' = t
        · rw [ht, self, hp] at h
          cases h
        · exact Finset.mem_erase.mpr ⟨ht, others t' ht h⟩
      · rw [hp] at counts
        cases hs : (s.parties t).seeks with
        | true =>
            have := Finset.card_erase_add_one (was hs)
            rw [hs] at counts
            simp at counts
            omega
        | false =>
            have := Finset.card_erase_le (s := seekers) (a := t)
            rw [hs] at counts
            omega

theorem Counted.advance (C : s.Counted) (run : s.advance t = some s') : s'.Counted := by
  unfold MpmcQueue.advance at run
  have le := fun n => Nat.mod_le (n + 1) (2 ^ 64)
  cases here : s.parties t with
  | idle => rw [here] at run; cases run
  | pushSeq v pos | popSeq pos =>
      rw [here] at run
      dsimp only at run
      split_ifs at run <;> cases run <;>
        exact C.move rfl (by simp [here, QueueParty.seeks, calls])
  | pushCas v pos | popCas pos =>
      rw [here] at run
      dsimp only at run
      split_ifs at run with win
      · cases run
        refine C.move rfl ?_
        have := le pos
        simp [here, QueueParty.seeks, calls, sizeT, Event.isCalled]
        omega
      · cases run
        exact C.move rfl (by simp [here, QueueParty.seeks, calls])
  | _ =>
      rw [here] at run
      cases run
      exact C.move rfl (by simp [here, QueueParty.seeks, calls, Event.isCalled, putSeq, putVal])

theorem Counted.step (C : s.Counted) {a : QueueAction ι} (run : s.step a = some s') :
    s'.Counted := by
  cases a with
  | push t v | pop t =>
      have idle := (Option.ite_none_right_eq_some.mp run).1
      rw [MpmcQueue.step, if_pos idle] at run
      cases run
      exact C.move (t := t) rfl (by simp [idle, QueueParty.seeks, calls, Event.isCalled]; omega)
  | next t => exact C.advance run
  | failCas t =>
      rw [MpmcQueue.step] at run
      cases here : s.parties t with
      | pushCas v pos | popCas pos =>
          rw [here] at run
          cases run
          exact C.move rfl (by simp [here, QueueParty.seeks, calls])
      | _ => rw [here] at run; cases run

theorem calls_le_of_step {a : QueueAction ι} (run : s.step a = some s') :
    s.calls ≤ s'.calls := by
  suffices h : s.history <:+ s'.history from h.sublist.countP_le
  cases a with
  | push t v | pop t =>
      have idle := (Option.ite_none_right_eq_some.mp run).1
      rw [MpmcQueue.step, if_pos idle] at run
      cases run
      exact List.suffix_cons ..
  | next t =>
      rw [MpmcQueue.step] at run
      unfold MpmcQueue.advance at run
      cases here : s.parties t with
      | idle => rw [here] at run; cases run
      | pushSeq v pos | popSeq pos | pushCas v pos | popCas pos =>
          rw [here] at run
          dsimp only at run
          split_ifs at run <;> cases run <;> first | exact List.suffix_rfl | exact List.suffix_cons ..
      | _ =>
          rw [here] at run
          cases run
          first | exact List.suffix_rfl | exact List.suffix_cons ..
  | failCas t =>
      rw [MpmcQueue.step] at run
      cases here : s.parties t with
      | pushCas v pos | popCas pos =>
          rw [here] at run
          cases run
          exact List.suffix_rfl
      | _ => rw [here] at run; cases run

end Steps

/-! ### Runs -/

theorem cell_init {k : Nat} (p : Nat) :
    (init (2 ^ k) : MpmcQueue ι).cell p = { seq := p % 2 ^ k } := by
  have inside : p % 2 ^ k < 2 ^ k := Nat.mod_lt _ (Nat.two_pow_pos k)
  simp [cell, init, Nat.and_two_pow_sub_one_eq_mod, List.getElem?_map, List.getElem?_range inside]

theorem queueInv_init {k : Nat} (two : 1 ≤ k) (fits : k < 64) :
    (init (2 ^ k) : MpmcQueue ι).QueueInv (2 ^ k) where
  sized := ⟨⟨k, rfl⟩, by simp [init], rfl⟩
  two := (Nat.pow_le_pow_right (by decide) two : 2 ^ 1 ≤ 2 ^ k)
  lawful := .nil
  enqueued := rfl
  dequeued := rfl
  fits p := by
    rw [cell_init]
    exact (Nat.mod_lt _ (Nat.two_pow_pos k)).trans (Nat.pow_lt_pow_right (by omega) fits)
  ahead p _ := by rw [cell_init]; exact Nat.mod_le ..
  served p h := absurd h (Nat.not_lt_zero p)
  pushed p v h := absurd h List.not_mem_nil
  popped p v h := absurd h List.not_mem_nil
  kept p v h := absurd h List.not_mem_nil
  relies t := trivial
  writer t t' p h := nomatch h
  reader t t' p h := nomatch h

theorem counted_init {k : Nat} : (init (2 ^ k) : MpmcQueue ι).Counted :=
  ⟨∅, (fun _ h => absurd h Bool.false_ne_true), le_rfl⟩

/-- What a reader may rely on in a state of the queue. -/
structure Safe (s : MpmcQueue ι) (capacity : Nat) : Prop where
  /-- A ticket is pushed once and popped once: no pushed value is returned by two pops. -/
  pushedOnce : ((s.history.filterMap Event.pushedEntry).map (·.1)).Nodup
  poppedOnce : (s.history.filterMap Event.poppedTicket).Nodup
  /-- What a pop returns it has read, and when it read it the push was over. -/
  poppedRead : ∀ p v, .popped p v ∈ s.history → .read p v ∈ s.history
  readPushed : ∀ later p v earlier, s.history = later ++ .read p v :: earlier →
    .claimed p ∈ earlier ∧ .pushed p v ∈ earlier
  /-- Pushes and pops take their tickets in order. -/
  pushOrder : s.history.filterMap Event.reservedTicket = (List.range s.enqueuePos).reverse
  popOrder : s.history.filterMap Event.claimedTicket = (List.range s.dequeuePos).reverse
  /-- A value that was written and not read is still in its cell. -/
  kept : ∀ p v, .wrote p v ∈ s.history → (∀ w, .read p w ∉ s.history) → (s.cell p).val = v
  /-- Between operations the queue holds what was pushed and not popped. -/
  quiet : (∀ t, s.parties t = .idle) → s.contents.Perm (waiting s.history)
  bounded : (waiting s.history).length ≤ capacity

theorem QueueInv.contents_perm (Q : s.QueueInv capacity) (quiet : ∀ t, s.parties t = .idle) :
    s.contents.Perm (waiting s.history) := by
  have nodup : s.contents.Nodup := by
    refine List.Nodup.of_map (·.1) ?_
    rw [contents, List.map_map]
    exact (List.map_id' _).symm ▸ List.nodup_range'
  rw [List.perm_ext_iff_of_nodup nodup Q.lawful.nodup_waiting]
  rintro ⟨p, v⟩
  have range : p ∈ List.range' s.dequeuePos (s.enqueuePos - s.dequeuePos) ↔
      s.dequeuePos ≤ p ∧ p < s.enqueuePos := by
    rw [List.mem_range'_1]
    have := Q.le
    omega
  have served : p < s.enqueuePos → (.pushed p (s.cell p).val ∈ s.history ∧ s.dequeuePos ≤ p) ∨
      ∃ w, .popped p w ∈ s.history := by
    intro lt
    rcases Q.served p lt with ⟨-, t, ht⟩ | ⟨-, pushed, reader⟩ | h
    · rw [quiet t] at ht; cases ht
    · refine .inl ⟨pushed, not_lt.mp fun lt => ?_⟩
      obtain ⟨t, ht⟩ := reader lt
      rw [quiet t] at ht
      cases ht
    · exact .inr h
  rw [mem_waiting_iff, contents, List.mem_map]
  constructor
  · rintro ⟨q, hq, e⟩
    cases e
    obtain ⟨ge, lt⟩ := range.mp hq
    have unclaimed : ∀ w, .popped p w ∉ s.history := fun w h =>
      absurd (Q.claimed_iff.mp (Q.lawful.claimed_of_read (Q.lawful.read_of_popped h))) (by omega)
    rcases served lt with ⟨pushed, -⟩ | ⟨w, h⟩
    · exact ⟨pushed, unclaimed⟩
    · exact absurd h (unclaimed w)
  · rintro ⟨pushed, unpopped⟩
    have lt := Q.lt_of_wrote (Q.lawful.wrote_of_pushed pushed)
    rcases served lt with ⟨pushed', ge⟩ | ⟨w, h⟩
    · exact ⟨p, range.mpr ⟨ge, lt⟩, congrArg _ (Q.lawful.pushed_unique pushed' pushed)⟩
    · exact absurd h (unpopped w)

theorem QueueInv.safe (Q : s.QueueInv capacity) : s.Safe capacity where
  pushedOnce := Q.lawful.nodup_pushed
  poppedOnce := Q.lawful.nodup_popped
  poppedRead _ _ h := Q.lawful.read_of_popped h
  readPushed _ _ _ _ split := Q.lawful.pushed_before split
  pushOrder := Q.enqueued ▸ Q.lawful.reserved_tickets
  popOrder := Q.dequeued ▸ Q.lawful.claimed_tickets
  kept p v h unread := (Q.kept p v h).resolve_left fun ⟨w, hw⟩ => unread w hw
  quiet := Q.contents_perm
  bounded := Q.lawful.length_waiting_le Q.sized.pos

section Runs

variable [DecidableEq ι]

theorem queueInv_of_run {k : Nat} (two : 1 ≤ k) (fits : k < 64)
    (run : Reaches step (fun _ _ => True) (init (2 ^ k)) s) (few : s.calls < 2 ^ 63) :
    s.QueueInv (2 ^ k) ∧ s.Counted := by
  have power : 2 ^ k ≤ 2 ^ 63 := Nat.pow_le_pow_right (by omega) (by omega)
  induction run with
  | refl => exact ⟨queueInv_init two fits, counted_init⟩
  | tail _ _ one ih =>
      obtain ⟨Q, C⟩ := ih ((calls_le_of_step one).trans_lt few)
      have := calls_le_of_step one
      obtain ⟨seekers, -, card⟩ := id C
      exact ⟨Q.step power (by omega) one, C.step one⟩

/-- **The queue is safe** in every state that fewer than `2 ^ 63` operations of any parties, in
any order of their accesses, lead to. -/
theorem mpmcQueue_safe {k : Nat} (two : 1 ≤ k) (fits : k < 64)
    (run : Reaches step (fun _ _ => True) (init (2 ^ k)) s) (few : s.calls < 2 ^ 63) :
    s.Safe (2 ^ k) :=
  (queueInv_of_run two fits run few).1.safe

/-- A push of one party and the pop of another, access by access. -/
def handover : List (QueueAction Bool) :=
  [.push true 7, .next true, .pop false, .next true, .failCas true, .next true, .next true,
    .next false, .next true, .next true, .next false, .next false, .next false, .next false]

theorem handover_safe : ∃ s, runs step (init (2 ^ 1)) handover = some s ∧
    .popped 0 7 ∈ s.history ∧ s.Safe (2 ^ 1) := by
  obtain ⟨s, run, h⟩ := exists_of_runs step (init (2 ^ 1)) handover
    (fun s => decide (s.calls < 2 ^ 63 ∧ .popped 0 7 ∈ s.history)) (by decide)
  obtain ⟨few, popped⟩ := of_decide_eq_true h
  exact ⟨s, run, popped, mpmcQueue_safe le_rfl (by decide) (Reaches.of_runs run) few⟩

end Runs

end MpmcQueue

end Xrune
