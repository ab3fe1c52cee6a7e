import Xrune.Core.Node
import Xrune.Support.Tickets

/-!
# Runtime — the bounded queue

`mpmc_queue`, one atomic access a step.  Any number of parties `ι` push and pop; each is at one
of the accesses of `push` or `pop`, with the locals it holds there.  An action lets one party
begin an operation or make its next access; the compare-exchange is the weak one, and may also
fail where it could have succeeded (`failCas`).

`history` is no field of the source: it records what the accesses did, newest first, in the
words of `Tickets.Event`.  A party's `pos` is its ticket from the moment its compare-exchange
succeeds.
-/

namespace Xrune

open Tickets

structure QueueCell where
  seq : Nat
  val : UInt32 := 0
  deriving DecidableEq, Inhabited

/-- Where a party is in `push` or `pop`: the access it makes next. -/
inductive QueueParty where
  | idle
  | pushLoad (v : UInt32)
  | pushSeq (v : UInt32) (pos : Nat)
  | pushCas (v : UInt32) (pos : Nat)
  | pushWrite (v : UInt32) (pos : Nat)
  | pushStore (v : UInt32) (pos : Nat)
  | popLoad
  | popSeq (pos : Nat)
  | popCas (pos : Nat)
  | popRead (pos : Nat)
  | popStore (pos : Nat) (v : UInt32)
  deriving DecidableEq

structure MpmcQueue (ι : Type*) where
  buffer : List QueueCell
  mask : Nat
  enqueuePos : Nat := 0
  dequeuePos : Nat := 0
  parties : ι → QueueParty := fun _ => .idle
  history : List (Event UInt32) := []

inductive QueueAction (ι : Type*) where
  | push (t : ι) (v : UInt32)
  | pop (t : ι)
  | next (t : ι)
  | failCas (t : ι)

/-- `static_cast<intptr_t>`. -/
def intptr (n : Nat) : Int := (n : Int).bmod (2 ^ 64)

/-- `static_cast<intptr_t>(a) - static_cast<intptr_t>(b)`, in 64 bits. -/
def seqDif (a b : Nat) : Int := (intptr a - intptr b).bmod (2 ^ 64)

namespace MpmcQueue

variable {ι : Type*}

/-- `init(capacity_pow2)`. -/
def init (capacity : Nat) : MpmcQueue ι where
  buffer := (List.range capacity).map fun i => { seq := i }
  mask := capacity - 1

/-- `buffer[pos & mask]`. -/
def cell (s : MpmcQueue ι) (pos : Nat) : QueueCell := s.buffer.getD (pos &&& s.mask) default

/-- `cell->val = v`. -/
def putVal (s : MpmcQueue ι) (pos : Nat) (v : UInt32) : MpmcQueue ι :=
  { s with buffer := s.buffer.modify (pos &&& s.mask) fun c => { c with val := v } }

/-- `cell->seq.store(seq)`. -/
def putSeq (s : MpmcQueue ι) (pos seq : Nat) : MpmcQueue ι :=
  { s with buffer := s.buffer.modify (pos &&& s.mask) fun c => { c with seq := seq } }

/-- The party `t` goes on at `p`. -/
def goTo [DecidableEq ι] (s : MpmcQueue ι) (t : ι) (p : QueueParty) : MpmcQueue ι :=
  { s with parties := Function.update s.parties t p }

def record (s : MpmcQueue ι) (e : Event UInt32) : MpmcQueue ι :=
  { s with history := e :: s.history }

/-- The next access of the party `t`. -/
def advance [DecidableEq ι] (s : MpmcQueue ι) (t : ι) : Option (MpmcQueue ι) :=
  match s.parties t with
  | .idle            => none
  | .pushLoad v      => some (s.goTo t (.pushSeq v s.enqueuePos))
  | .pushSeq v pos   =>
      let dif := seqDif (s.cell pos).seq pos
      if dif = 0 then some (s.goTo t (.pushCas v pos))
      else if dif < 0 then some (s.goTo t .idle) -- full: `return false`
      else some (s.goTo t (.pushLoad v))
  | .pushCas v pos   =>
      if s.enqueuePos = pos then
        some (({ s with enqueuePos := sizeT (pos + 1) }.goTo t (.pushWrite v pos)).record
          (.reserved pos v))
      else some (s.goTo t (.pushSeq v s.enqueuePos))
  | .pushWrite v pos => some (((s.putVal pos v).goTo t (.pushStore v pos)).record (.wrote pos v))
  | .pushStore v pos =>
      some (((s.putSeq pos (sizeT (pos + 1))).goTo t .idle).record (.pushed pos v))
  | .popLoad         => some (s.goTo t (.popSeq s.dequeuePos))
  | .popSeq pos      =>
      let dif := seqDif (s.cell pos).seq (sizeT (pos + 1))
      if dif = 0 then some (s.goTo t (.popCas pos))
      else if dif < 0 then some (s.goTo t .idle) -- empty: `return false`
      else some (s.goTo t .popLoad)
  | .popCas pos      =>
      if s.dequeuePos = pos then
        some (({ s with dequeuePos := sizeT (pos + 1) }.goTo t (.popRead pos)).record
          (.claimed pos))
      else some (s.goTo t (.popSeq s.dequeuePos))
  | .popRead pos     =>
      some ((s.goTo t (.popStore pos (s.cell pos).val)).record (.read pos (s.cell pos).val))
  | .popStore pos v  =>
      some (((s.putSeq pos (sizeT (pos + s.mask + 1))).goTo t .idle).record (.popped pos v))

def step [DecidableEq ι] (s : MpmcQueue ι) : QueueAction ι → Option (MpmcQueue ι)
  | .push t v =>
      if s.parties t = .idle then some ((s.goTo t (.pushLoad v)).record .called) else none
  | .pop t    =>
      if s.parties t = .idle then some ((s.goTo t .popLoad).record .called) else none
  | .next t   => s.advance t
  -- `compare_exchange_weak` may fail spuriously, and loads the position then too
  | .failCas t =>
      match s.parties t with
      | .pushCas v _ => some (s.goTo t (.pushSeq v s.enqueuePos))
      | .popCas _    => some (s.goTo t (.popSeq s.dequeuePos))
      | _            => none

/-- How many operations have begun. -/
def calls (s : MpmcQueue ι) : Nat := s.history.countP (·.isCalled)

/-- The values from the next one to pop to the last one pushed, each with its ticket. -/
def contents (s : MpmcQueue ι) : List (Nat × UInt32) :=
  (List.range' s.dequeuePos (s.enqueuePos - s.dequeuePos)).map fun p => (p, (s.cell p).val)

/-! ### What an access leaves alone -/

section Fields

variable (s : MpmcQueue ι) (t : ι) (p : QueueParty) (e : Event UInt32) (q pos n : Nat) (v : UInt32)

@[simp] theorem putVal_parties : (s.putVal pos v).parties = s.parties := rfl
@[simp] theorem putVal_history : (s.putVal pos v).history = s.history := rfl
@[simp] theorem putSeq_parties : (s.putSeq pos n).parties = s.parties := rfl
@[simp] theorem putSeq_history : (s.putSeq pos n).history = s.history := rfl

@[simp] theorem record_cell : (s.record e).cell q = s.cell q := rfl
@[simp] theorem record_buffer : (s.record e).buffer = s.buffer := rfl
@[simp] theorem record_mask : (s.record e).mask = s.mask := rfl
@[simp] theorem record_enqueuePos : (s.record e).enqueuePos = s.enqueuePos := rfl
@[simp] theorem record_dequeuePos : (s.record e).dequeuePos = s.dequeuePos := rfl
@[simp] theorem record_parties : (s.record e).parties = s.parties := rfl
@[simp] theorem record_history : (s.record e).history = e :: s.history := rfl

variable [DecidableEq ι]

@[simp] theorem goTo_parties_same : (s.goTo t p).parties t = p := Function.update_self ..
@[simp] theorem goTo_cell : (s.goTo t p).cell q = s.cell q := rfl
@[simp] theorem goTo_buffer : (s.goTo t p).buffer = s.buffer := rfl
@[simp] theorem goTo_mask : (s.goTo t p).mask = s.mask := rfl
@[simp] theorem goTo_enqueuePos : (s.goTo t p).enqueuePos = s.enqueuePos := rfl
@[simp] theorem goTo_dequeuePos : (s.goTo t p).dequeuePos = s.dequeuePos := rfl
@[simp] theorem goTo_history : (s.goTo t p).history = s.history := rfl

end Fields

/-- The buffer has a power of two of cells, and `mask` is one less. -/
structure Sized (s : MpmcQueue ι) (capacity : Nat) : Prop where
  pow : ∃ k, capacity = 2 ^ k
  length : s.buffer.length = capacity
  mask : s.mask = capacity - 1

namespace Sized

variable {s : MpmcQueue ι} {capacity : Nat}

theorem index (z : s.Sized capacity) (pos : Nat) : pos &&& s.mask = pos % capacity := by
  obtain ⟨k, rfl⟩ := z.pow
  rw [z.mask, Nat.and_two_pow_sub_one_eq_mod]

theorem pos (z : s.Sized capacity) : 0 < capacity := by
  obtain ⟨k, rfl⟩ := z.pow
  exact Nat.two_pow_pos k

theorem cell_congr (z : s.Sized capacity) {p q : Nat} (h : p % capacity = q % capacity) :
    s.cell p = s.cell q := by
  rw [cell, cell, z.index, z.index, h]

theorem cell_modify (z : s.Sized capacity) (f : QueueCell → QueueCell) (p q : Nat) :
    (s.buffer.modify (p &&& s.mask) f).getD (q &&& s.mask) default =
      if q % capacity = p % capacity then f (s.cell q) else s.cell q := by
  have inside : q % capacity < s.buffer.length := z.length.symm ▸ Nat.mod_lt q z.pos
  rw [cell, z.index, z.index]
  simp only [List.getD_eq_getElem?_getD, List.getElem?_modify, eq_comm (a := p % capacity)]
  split
  · rw [List.getElem?_eq_getElem inside]; rfl
  · rw [Option.map_eq_map, Option.map_id']

theorem cell_putSeq (z : s.Sized capacity) (p n q : Nat) :
    (s.putSeq p n).cell q =
      if q % capacity = p % capacity then { s.cell q with seq := n } else s.cell q :=
  z.cell_modify _ p q

theorem cell_putVal (z : s.Sized capacity) (p q : Nat) (v : UInt32) :
    (s.putVal p v).cell q =
      if q % capacity = p % capacity then { s.cell q with val := v } else s.cell q :=
  z.cell_modify _ p q

theorem putSeq (z : s.Sized capacity) (p n : Nat) : (s.putSeq p n).Sized capacity :=
  ⟨z.pow, (List.length_modify ..).trans z.length, z.mask⟩

theorem putVal (z : s.Sized capacity) (p : Nat) (v : UInt32) : (s.putVal p v).Sized capacity :=
  ⟨z.pow, (List.length_modify ..).trans z.length, z.mask⟩

end Sized

end MpmcQueue

end Xrune
