import Mathlib

/-!
# Support — tickets

The history of a bounded queue whose operations take tickets.  A push takes the next enqueue
ticket (`reserved`), writes its value and publishes it; a pop takes the next dequeue ticket
(`claimed`), reads the value published under it and gives the place back.  A history, newest
event first, is *lawful* when each event may follow what came before it: tickets are handed out
in order, nothing is claimed before it is published, and a value is written only after the
ticket `capacity` before it was given back.

Of a lawful history: no ticket is pushed, read or popped twice (`Lawful.nodup_popped`), what is
popped is what was pushed under that ticket, before (`Lawful.pushed_before`), and at most
`capacity` values are waiting (`Lawful.length_waiting_le`).
-/

namespace Xrune.Tickets

variable {β : Type*} {capacity : Nat}

/-- Two tickets of one place are at least a lap apart. -/
theorem lap_le {p q : Nat} (same : p % capacity = q % capacity) (lt : p < q) :
    p + capacity ≤ q := by
  have hdvd : capacity ∣ q - p := (Nat.modEq_iff_dvd' lt.le).mp same
  have := Nat.le_of_dvd (Nat.sub_pos_of_lt lt) hdvd
  omega

/-- What happens to a ticket; `called` is the beginning of an operation. -/
inductive Event (β : Type*) where
  | called
  | reserved (ticket : Nat) (v : β)
  | wrote (ticket : Nat) (v : β)
  | pushed (ticket : Nat) (v : β)
  | claimed (ticket : Nat)
  | read (ticket : Nat) (v : β)
  | popped (ticket : Nat) (v : β)
  deriving DecidableEq

namespace Event

def isCalled : Event β → Bool
  | .called => true
  | _       => false

def reservedTicket : Event β → Option Nat
  | .reserved p _ => some p
  | _             => none

def claimedTicket : Event β → Option Nat
  | .claimed p => some p
  | _          => none

def pushedEntry : Event β → Option (Nat × β)
  | .pushed p v => some (p, v)
  | _           => none

def poppedTicket : Event β → Option Nat
  | .popped p _ => some p
  | _           => none

/-- `e` may happen after `h`. -/
def MayFollow (capacity : Nat) (h : List (Event β)) : Event β → Prop
  | .called       => True
  | .reserved p _ => p = (h.filterMap reservedTicket).length
  | .wrote p v    => .reserved p v ∈ h ∧ (∀ w, .wrote p w ∉ h) ∧
      (capacity ≤ p → ∃ w, .popped (p - capacity) w ∈ h)
  | .pushed p v   => .wrote p v ∈ h ∧ ∀ w, .pushed p w ∉ h
  | .claimed p    => p = (h.filterMap claimedTicket).length ∧ ∃ v, .pushed p v ∈ h
  | .read p v     => .claimed p ∈ h ∧ .pushed p v ∈ h ∧ ∀ w, .read p w ∉ h
  | .popped p v   => .read p v ∈ h ∧ ∀ w, .popped p w ∉ h

end Event

open Event

/-- Each event may follow those before it. -/
inductive Lawful (capacity : Nat) : List (Event β) → Prop where
  | nil : Lawful capacity []
  | cons {e : Event β} {h : List (Event β)} (next : e.MayFollow capacity h)
      (before : Lawful capacity h) : Lawful capacity (e :: h)

/-- The values pushed under a ticket that is not given back yet. -/
def waiting (h : List (Event β)) : List (Nat × β) :=
  (h.filterMap pushedEntry).filter fun x => x.1 ∉ h.filterMap poppedTicket

theorem mem_pushed_iff {h : List (Event β)} {x : Nat × β} :
    x ∈ h.filterMap pushedEntry ↔ .pushed x.1 x.2 ∈ h := by
  rw [List.mem_filterMap]
  constructor
  · rintro ⟨e, he, hx⟩
    cases e with
    | pushed p v => cases hx; exact he
    | _ => cases hx
  · exact fun hx => ⟨_, hx, rfl⟩

theorem mem_popped_iff {h : List (Event β)} {p : Nat} :
    p ∈ h.filterMap poppedTicket ↔ ∃ v, .popped p v ∈ h := by
  rw [List.mem_filterMap]
  constructor
  · rintro ⟨e, he, hp⟩
    cases e with
    | popped q v => cases hp; exact ⟨v, he⟩
    | _ => cases hp
  · exact fun ⟨v, hv⟩ => ⟨_, hv, rfl⟩

theorem mem_reserved_iff {h : List (Event β)} {p : Nat} :
    p ∈ h.filterMap reservedTicket ↔ ∃ v, .reserved p v ∈ h := by
  rw [List.mem_filterMap]
  constructor
  · rintro ⟨e, he, hp⟩
    cases e with
    | reserved q v => cases hp; exact ⟨v, he⟩
    | _ => cases hp
  · exact fun ⟨v, hv⟩ => ⟨_, hv, rfl⟩

theorem mem_claimed_iff {h : List (Event β)} {p : Nat} :
    p ∈ h.filterMap claimedTicket ↔ .claimed p ∈ h := by
  rw [List.mem_filterMap]
  constructor
  · rintro ⟨e, he, hp⟩
    cases e with
    | claimed q => cases hp; exact he
    | _ => cases hp
  · exact fun hp => ⟨_, hp, rfl⟩

theorem mem_waiting_iff {h : List (Event β)} {x : Nat × β} :
    x ∈ waiting h ↔ .pushed x.1 x.2 ∈ h ∧ ∀ v, .popped x.1 v ∉ h := by
  simp only [waiting, List.mem_filter, mem_pushed_iff, mem_popped_iff, decide_eq_true_eq,
    not_exists]

namespace Lawful

variable {h : List (Event β)} {p : Nat} {v w : β}

/-- The enqueue tickets are handed out in order, none twice. -/
theorem reserved_tickets (L : Lawful capacity h) :
    h.filterMap reservedTicket =
      (List.range (h.filterMap reservedTicket).length).reverse := by
  induction L with
  | nil => rfl
  | @cons e h next _ ih =>
      cases e with
      | reserved p v =>
          have hp : p = (h.filterMap reservedTicket).length := next
          have head : reservedTicket (.reserved p v) = some p := rfl
          rw [List.filterMap_cons_some head, List.length_cons, List.range_succ,
            List.reverse_append, ← ih, hp]
          rfl
      | _ => rw [List.filterMap_cons_none rfl]; exact ih

/-- So are the dequeue tickets. -/
theorem claimed_tickets (L : Lawful capacity h) :
    h.filterMap claimedTicket =
      (List.range (h.filterMap claimedTicket).length).reverse := by
  induction L with
  | nil => rfl
  | @cons e h next _ ih =>
      cases e with
      | claimed p =>
          have hp : p = (h.filterMap claimedTicket).length := next.1
          have head : claimedTicket (β := β) (.claimed p) = some p := rfl
          rw [List.filterMap_cons_some head, List.length_cons, List.range_succ,
            List.reverse_append, ← ih, hp]
          rfl
      | _ => rw [List.filterMap_cons_none rfl]; exact ih

theorem reserved_iff (L : Lawful capacity h) :
    (∃ v, .reserved p v ∈ h) ↔ p < (h.filterMap reservedTicket).length := by
  rw [← mem_reserved_iff, L.reserved_tickets, List.mem_reverse, List.mem_range,
    List.length_reverse, List.length_range]

theorem claimed_iff (L : Lawful capacity h) :
    .claimed p ∈ h ↔ p < (h.filterMap claimedTicket).length := by
  rw [← mem_claimed_iff, L.claimed_tickets, List.mem_reverse, List.mem_range,
    List.length_reverse, List.length_range]

/-- What was needed when an event happened is still in the history. -/
theorem needs (L : Lawful capacity h) {e : Event β} (he : e ∈ h) :
    ∃ later earlier, h = later ++ e :: earlier ∧ e.MayFollow capacity earlier ∧
      Lawful capacity earlier := by
  induction L with
  | nil => exact absurd he List.not_mem_nil
  | @cons e' h next before ih =>
      rcases List.mem_cons.mp he with rfl | he
      · exact ⟨[], h, rfl, next, before⟩
      · obtain ⟨later, earlier, rfl, first, lawful⟩ := ih he
        exact ⟨e' :: later, earlier, rfl, first, lawful⟩

theorem after (L : Lawful capacity h) {later earlier : List (Event β)} {e : Event β}
    (split : h = later ++ e :: earlier) :
    e.MayFollow capacity earlier ∧ Lawful capacity earlier := by
  subst split
  induction later with
  | nil => cases L with | cons next before => exact ⟨next, before⟩
  | cons _ later ih => cases L with | cons _ before => exact ih before

theorem reserved_of_wrote (L : Lawful capacity h) (hw : .wrote p v ∈ h) : .reserved p v ∈ h := by
  obtain ⟨later, earlier, rfl, next, -⟩ := L.needs hw
  exact List.mem_append_right _ (List.mem_cons_of_mem _ next.1)

theorem wrote_of_pushed (L : Lawful capacity h) (hp : .pushed p v ∈ h) : .wrote p v ∈ h := by
  obtain ⟨later, earlier, rfl, next, -⟩ := L.needs hp
  exact List.mem_append_right _ (List.mem_cons_of_mem _ next.1)

theorem pushed_of_read (L : Lawful capacity h) (hr : .read p v ∈ h) : .pushed p v ∈ h := by
  obtain ⟨later, earlier, rfl, next, -⟩ := L.needs hr
  exact List.mem_append_right _ (List.mem_cons_of_mem _ next.2.1)

theorem claimed_of_read (L : Lawful capacity h) (hr : .read p v ∈ h) : .claimed p ∈ h := by
  obtain ⟨later, earlier, rfl, next, -⟩ := L.needs hr
  exact List.mem_append_right _ (List.mem_cons_of_mem _ next.1)

theorem read_of_popped (L : Lawful capacity h) (hp : .popped p v ∈ h) : .read p v ∈ h := by
  obtain ⟨later, earlier, rfl, next, -⟩ := L.needs hp
  exact List.mem_append_right _ (List.mem_cons_of_mem _ next.1)

theorem popped_of_wrote (L : Lawful capacity h) (hw : .wrote p v ∈ h) (full : capacity ≤ p) :
    ∃ w, .popped (p - capacity) w ∈ h := by
  obtain ⟨later, earlier, rfl, next, -⟩ := L.needs hw
  obtain ⟨w, hw⟩ := next.2.2 full
  exact ⟨w, List.mem_append_right _ (List.mem_cons_of_mem _ hw)⟩

theorem pushed_of_claimed (L : Lawful capacity h) (hc : .claimed p ∈ h) :
    ∃ v, .pushed p v ∈ h := by
  obtain ⟨later, earlier, rfl, next, -⟩ := L.needs hc
  obtain ⟨v, hv⟩ := next.2
  exact ⟨v, List.mem_append_right _ (List.mem_cons_of_mem _ hv)⟩

/-- A ticket is reserved for one value. -/
theorem reserved_unique (L : Lawful capacity h) (hv : .reserved p v ∈ h)
    (hw : .reserved p w ∈ h) : v = w := by
  induction L with
  | nil => exact absurd hv List.not_mem_nil
  | @cons e h next before ih =>
      have fresh : ∀ {u : β}, e = .reserved p u → ∀ u', .reserved p u' ∉ h := by
        rintro u rfl u' hu'
        exact absurd (before.reserved_iff.mp ⟨u', hu'⟩) (by simp [show p = _ from next])
      rcases List.mem_cons.mp hv with hv' | hv' <;> rcases List.mem_cons.mp hw with hw' | hw'
      · rw [← hv'] at hw'; cases hw'; rfl
      · exact absurd hw' (fresh hv'.symm w)
      · exact absurd hv' (fresh hw'.symm v)
      · exact ih hv' hw'

theorem pushed_unique (L : Lawful capacity h) (hv : .pushed p v ∈ h) (hw : .pushed p w ∈ h) :
    v = w :=
  L.reserved_unique (L.reserved_of_wrote (L.wrote_of_pushed hv))
    (L.reserved_of_wrote (L.wrote_of_pushed hw))

/-- No ticket is pushed twice. -/
theorem nodup_pushed (L : Lawful capacity h) : ((h.filterMap pushedEntry).map (·.1)).Nodup := by
  induction L with
  | nil => exact List.nodup_nil
  | @cons e h next before ih =>
      cases e with
      | pushed p v =>
          have head : pushedEntry (.pushed p v) = some (p, v) := rfl
          rw [List.filterMap_cons_some head, List.map_cons, List.nodup_cons]
          refine ⟨fun hp => ?_, ih⟩
          obtain ⟨⟨q, w⟩, hx, rfl⟩ := List.mem_map.mp hp
          exact next.2 w (mem_pushed_iff.mp hx)
      | _ => rw [List.filterMap_cons_none rfl]; exact ih

/-- No ticket is popped twice. -/
theorem nodup_popped (L : Lawful capacity h) : (h.filterMap poppedTicket).Nodup := by
  induction L with
  | nil => exact List.nodup_nil
  | @cons e h next before ih =>
      cases e with
      | popped p v =>
          have head : poppedTicket (.popped p v) = some p := rfl
          rw [List.filterMap_cons_some head, List.nodup_cons]
          exact ⟨fun hp => (mem_popped_iff.mp hp).elim fun w hw => next.2 w hw, ih⟩
      | _ => rw [List.filterMap_cons_none rfl]; exact ih

/-- What a pop returns was pushed, under its ticket, before it was read. -/
theorem pushed_before (L : Lawful capacity h) {later earlier : List (Event β)}
    (split : h = later ++ .read p v :: earlier) : .claimed p ∈ earlier ∧ .pushed p v ∈ earlier :=
  have next := (L.after split).1
  ⟨next.1, next.2.1⟩

/-- A ticket is written only after all those of its place before it were given back. -/
theorem popped_of_lap (L : Lawful capacity h) (pos : 0 < capacity) :
    ∀ {q : Nat} {w : β}, .wrote q w ∈ h → p < q → p % capacity = q % capacity →
      ∃ u, .popped p u ∈ h := by
  intro q
  induction q using Nat.strong_induction_on with
  | _ q ih =>
      intro w hw hlt hmod
      have gap : p + capacity ≤ q := lap_le hmod hlt
      obtain ⟨u, hu⟩ := L.popped_of_wrote hw (by omega)
      rcases Nat.lt_or_ge p (q - capacity) with hp | hp
      · have hu' := L.wrote_of_pushed (L.pushed_of_read (L.read_of_popped hu))
        exact ih (q - capacity) (by omega) hu' hp
          (by rw [hmod, Nat.mod_eq_sub_mod (by omega)])
      · obtain rfl : p = q - capacity := by omega
        exact ⟨u, hu⟩

/-- At most `capacity` values are pushed and not popped. -/
theorem length_waiting_le (L : Lawful capacity h) (pos : 0 < capacity) :
    (waiting h).length ≤ capacity := by
  have tickets : ((waiting h).map (·.1)).Nodup :=
    L.nodup_pushed.sublist (List.filter_sublist.map _)
  have apart : ((waiting h).map fun x => x.1 % capacity).Nodup := by
    rw [List.nodup_map_iff_inj_on (List.Nodup.of_map _ tickets)]
    intro x hx y hy hmod
    have same : x.1 = y.1 := by
      obtain ⟨hx, notx⟩ := mem_waiting_iff.mp hx
      obtain ⟨hy, noty⟩ := mem_waiting_iff.mp hy
      rcases Nat.lt_trichotomy x.1 y.1 with hlt | heq | hlt
      · obtain ⟨u, hu⟩ := L.popped_of_lap pos (L.wrote_of_pushed hy) hlt hmod
        exact absurd hu (notx u)
      · exact heq
      · obtain ⟨u, hu⟩ := L.popped_of_lap pos (L.wrote_of_pushed hx) hlt hmod.symm
        exact absurd hu (noty u)
    exact (List.nodup_map_iff_inj_on (List.Nodup.of_map _ tickets)).mp tickets x hx y hy same
  have below : ∀ i ∈ (waiting h).map fun x => x.1 % capacity, i ∈ List.range capacity := by
    intro i hi
    obtain ⟨x, -, rfl⟩ := List.mem_map.mp hi
    exact List.mem_range.mpr (Nat.mod_lt _ pos)
  simpa using (List.subperm_of_subset apart below).length_le

theorem nodup_waiting (L : Lawful capacity h) : (waiting h).Nodup :=
  List.Nodup.of_map (·.1) (L.nodup_pushed.sublist (List.filter_sublist.map _))

end Lawful

end Xrune.Tickets
