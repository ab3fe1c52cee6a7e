import Xrune.Schedule.Layout64

/-!
# Memory — the bump arena

`memory_arena` with the arithmetic of its `size_t`s and `uintptr_t`s.  Addresses are numbers and
0 is `nullptr`.  `reserve` is given the address its storage comes to lie at.

* `allocate_eq` — an allocation over the naturals: the padded offset and the size, wrapped once.
* `ArenaInv`, `Reached.inv` — the ranges handed out since the last `reserve` or `reset` lie apart
  from each other below the offset.
* `arena_sound` — what a call of any history does, where its sum does not wrap into the arena.
-/

namespace Xrune

/-! ### Words -/

/-- `a - b` of `size_t`s. -/
def subT (a b : Nat) : Nat := sizeT (a + (2 ^ 64 - sizeT b))

/-! ### The arena -/

structure MemoryArena where
  base : Nat
  capacity : Nat
  offset : Nat
  deriving DecidableEq, Repr

namespace MemoryArena

/-- Default construction. -/
def empty : MemoryArena := ⟨0, 0, 0⟩

def reserve (base bytes : Nat) : MemoryArena := ⟨base, bytes, 0⟩

def reset (a : MemoryArena) : MemoryArena := { a with offset := 0 }

/-- `allocate`: the arena after it, and the address it returns. -/
def allocate (a : MemoryArena) (bytes align : Nat) : MemoryArena × Nat :=
  if a.capacity = 0 then (a, 0)
  else
    let cur := sizeT (a.base + a.offset)
    let aligned := alignUp64 cur align
    let newOffset := sizeT (subT aligned a.base + bytes)
    if a.capacity < newOffset then (a, 0)
    else ({ a with offset := newOffset }, aligned)

/-- `allocate_array<T>` of a `T` of this size and alignment. -/
def allocateArray (a : MemoryArena) (sizeOf alignOf count : Nat) : MemoryArena × Nat :=
  a.allocate (sizeT (sizeOf * count)) alignOf

end MemoryArena

inductive ArenaCall where
  | reserve (base bytes : Nat)
  | allocate (bytes align : Nat)
  | allocateArray (sizeOf alignOf count : Nat)
  | reset

namespace ArenaCall

/-- The full size and the alignment asked for. -/
def request : ArenaCall → Option (Nat × Nat)
  | .allocate bytes align => some (bytes, align)
  | .allocateArray sizeOf alignOf count => some (sizeOf * count, alignOf)
  | _ => none

/-- The arguments are `size_t`s, an alignment a power of two, and storage lies in the address
space, with its end. -/
def Valid : ArenaCall → Prop
  | .reserve base bytes => 0 < base ∧ base + bytes < 2 ^ 64
  | .allocate bytes align => bytes < 2 ^ 64 ∧ ∃ k < 64, align = 2 ^ k
  | .allocateArray sizeOf alignOf count =>
      sizeOf < 2 ^ 64 ∧ count < 2 ^ 64 ∧ ∃ k < 64, alignOf = 2 ^ k
  | .reset => True

end ArenaCall

namespace MemoryArena

/-- One call: the arena after it, and the address returned. -/
def call (a : MemoryArena) : ArenaCall → MemoryArena × Nat
  | .reserve base bytes => (reserve base bytes, 0)
  | .allocate bytes align => a.allocate bytes align
  | .allocateArray sizeOf alignOf count => a.allocateArray sizeOf alignOf count
  | .reset => (a.reset, 0)

/-- Where the next block of alignment `align` starts in the storage. -/
def padded (a : MemoryArena) (align : Nat) : Nat :=
  alignUp (a.base + a.offset) align - a.base

/-- The end of the block does not wrap, or wraps to where it is refused. -/
def Unwrapped (a : MemoryArena) (c : ArenaCall) : Prop :=
  ∀ size align, c.request = some (size, align) →
    a.capacity = 0 ∨ a.padded align + size < 2 ^ 64 ∨ a.capacity < sizeT (a.padded align + size)

/-- The storage lies in the address space, and the offset in the storage. -/
structure InSpace (a : MemoryArena) : Prop where
  offset_le : a.offset ≤ a.capacity
  space : a.base + a.capacity < 2 ^ 64
  base_pos : a.capacity ≠ 0 → 0 < a.base

variable {a : MemoryArena}

theorem base_le_aligned (align : Nat) (hal : 0 < align) :
    a.base ≤ alignUp (a.base + a.offset) align :=
  (Nat.le_add_right _ _).trans (le_alignUp hal)

/-- An allocation: the padded offset and the size, wrapped once. -/
theorem allocate_eq (S : a.InSpace) {size k : Nat} (hk : k < 64) :
    a.allocate (sizeT size) (2 ^ k) =
      if a.capacity = 0 ∨ a.capacity < sizeT (a.padded (2 ^ k) + size) then (a, 0)
      else ({ a with offset := sizeT (a.padded (2 ^ k) + size) },
        sizeT (alignUp (a.base + a.offset) (2 ^ k))) := by
  have hspace := S.space
  have hoff := S.offset_le
  have hcur : sizeT (a.base + a.offset) = a.base + a.offset := sizeT_of_lt (by omega)
  have hbase := base_le_aligned (a := a) (2 ^ k) (Nat.two_pow_pos k)
  have hnew : sizeT (subT (sizeT (alignUp (a.base + a.offset) (2 ^ k))) a.base + sizeT size) =
      sizeT (a.padded (2 ^ k) + size) := by
    simp only [subT, padded, sizeT]
    omega
  unfold allocate
  by_cases hcap : a.capacity = 0
  · simp [hcap]
  · simp only [hcap, if_false, hcur, alignUp64_eq hk.le, hnew, false_or]

/-- Where the sum does not wrap and the block fits, it is handed out. -/
theorem allocate_fits (S : a.InSpace) {size k : Nat} (hk : k < 64) (hcap : a.capacity ≠ 0)
    (fits : a.padded (2 ^ k) + size ≤ a.capacity) :
    a.allocate (sizeT size) (2 ^ k) = ({ a with offset := a.padded (2 ^ k) + size },
      a.base + a.padded (2 ^ k)) := by
  have hspace := S.space
  have hbase := base_le_aligned (a := a) (2 ^ k) (Nat.two_pow_pos k)
  have hpadded : alignUp (a.base + a.offset) (2 ^ k) = a.base + a.padded (2 ^ k) := by
    rw [padded]
    omega
  have hsize : sizeT (a.padded (2 ^ k) + size) = a.padded (2 ^ k) + size :=
    sizeT_of_lt (by omega)
  have haddr : sizeT (a.base + a.padded (2 ^ k)) = a.base + a.padded (2 ^ k) :=
    sizeT_of_lt (by omega)
  rw [allocate_eq S hk, hsize, hpadded, haddr, if_neg (by omega)]

/-! ### Histories -/

/-- Two ranges, as their start and size, have no byte in common. -/
def Apart (r s : Nat × Nat) : Prop := r.1 + r.2 ≤ s.1 ∨ s.1 + s.2 ≤ r.1

/-- The ranges handed out since the last `reserve` or `reset`, after `c`. -/
def given (a : MemoryArena) (ranges : List (Nat × Nat)) (c : ArenaCall) : List (Nat × Nat) :=
  match c.request with
  | none => []
  | some (size, _) => if (a.call c).2 = 0 then ranges else ((a.call c).2, size) :: ranges

/-- Where a history of calls leads, with the ranges handed out; every sum of it is unwrapped. -/
inductive Reached : MemoryArena → List (Nat × Nat) → Prop where
  | start : Reached empty []
  | call {a : MemoryArena} {ranges : List (Nat × Nat)} {c : ArenaCall} (before : Reached a ranges)
      (valid : c.Valid) (unwrapped : a.Unwrapped c) : Reached (a.call c).1 (a.given ranges c)

structure ArenaInv (a : MemoryArena) (ranges : List (Nat × Nat)) : Prop where
  space : a.InSpace
  inside : ∀ r ∈ ranges, a.base ≤ r.1 ∧ r.1 + r.2 ≤ a.base + a.offset
  apart : ranges.Pairwise Apart

/-- What a call promises, given the ranges handed out before it: an address is aligned, and the
full range asked for lies in the storage, apart from the others; `nullptr` leaves the arena. -/
structure SoundCall (a : MemoryArena) (ranges : List (Nat × Nat)) (size align : Nat)
    (result : MemoryArena × Nat) : Prop where
  aligned : result.2 ≠ 0 → align ∣ result.2
  inside : result.2 ≠ 0 → a.base ≤ result.2 ∧ result.2 + size ≤ a.base + a.capacity
  apart : result.2 ≠ 0 → ∀ r ∈ ranges, Apart (result.2, size) r
  offset_le : a.offset ≤ result.1.offset
  storage : result.1.base = a.base ∧ result.1.capacity = a.capacity
  failed : result.2 = 0 → result.1 = a

/-- Every allocation is one of `size` wrapped, aligned to a power of two. -/
theorem call_of_request {c : ArenaCall} (valid : c.Valid) {size align : Nat}
    (h : c.request = some (size, align)) :
    ∃ k < 64, align = 2 ^ k ∧ a.call c = a.allocate (sizeT size) (2 ^ k) := by
  cases c with
  | reserve => cases h
  | reset => cases h
  | allocate bytes al =>
    obtain ⟨hbytes, k, hk, rfl⟩ := valid
    cases h
    exact ⟨k, hk, rfl, by rw [sizeT_of_lt hbytes]; rfl⟩
  | allocateArray sizeOf alignOf count =>
    obtain ⟨-, -, k, hk, rfl⟩ := valid
    cases h
    exact ⟨k, hk, rfl, rfl⟩

/-- An allocation is refused, or the block asked for is above what was handed out. -/
theorem allocate_cases (S : a.InSpace) {size k : Nat} (hk : k < 64)
    (unwrapped : a.capacity = 0 ∨ a.padded (2 ^ k) + size < 2 ^ 64 ∨
      a.capacity < sizeT (a.padded (2 ^ k) + size)) :
    a.allocate (sizeT size) (2 ^ k) = (a, 0) ∨
      a.capacity ≠ 0 ∧ a.padded (2 ^ k) + size ≤ a.capacity ∧
        a.allocate (sizeT size) (2 ^ k) = ({ a with offset := a.padded (2 ^ k) + size },
          a.base + a.padded (2 ^ k)) := by
  by_cases hrefused : a.capacity = 0 ∨ a.capacity < sizeT (a.padded (2 ^ k) + size)
  · exact .inl (by rw [allocate_eq S hk, if_pos hrefused])
  · have hsum : a.padded (2 ^ k) + size < 2 ^ 64 := by omega
    rw [sizeT_of_lt hsum] at hrefused
    have hcap : a.capacity ≠ 0 := by omega
    have fits : a.padded (2 ^ k) + size ≤ a.capacity := by omega
    exact .inr ⟨hcap, fits, allocate_fits S hk hcap fits⟩

/-- The padding moves the offset forward, to an aligned address. -/
theorem offset_le_padded {align : Nat} (hal : 0 < align) : a.offset ≤ a.padded align := by
  have hle := le_alignUp (x := a.base + a.offset) hal
  rw [padded]
  omega

theorem dvd_base_add_padded {align : Nat} (hal : 0 < align) :
    align ∣ a.base + a.padded align := by
  have hbase := base_le_aligned (a := a) align hal
  rw [padded, Nat.add_sub_cancel' hbase]
  exact dvd_alignUp _ _

theorem ArenaInv.sound {ranges : List (Nat × Nat)} (I : ArenaInv a ranges) {c : ArenaCall}
    (valid : c.Valid) (unwrapped : a.Unwrapped c) {size align : Nat}
    (h : c.request = some (size, align)) : SoundCall a ranges size align (a.call c) := by
  obtain ⟨k, hk, rfl, hcall⟩ := call_of_request (a := a) valid h
  have hpos := Nat.two_pow_pos k
  have hoff := offset_le_padded (a := a) hpos
  rw [hcall]
  rcases allocate_cases I.space hk (unwrapped size (2 ^ k) h) with hnull | ⟨hcap, fits, hsome⟩
  · rw [hnull]
    exact
      { aligned := fun hne => absurd rfl hne
        inside := fun hne => absurd rfl hne
        apart := fun hne => absurd rfl hne
        offset_le := le_refl _
        storage := ⟨rfl, rfl⟩
        failed := fun _ => rfl }
  · have hbase := I.space.base_pos hcap
    rw [hsome]
    exact
      { aligned := fun _ => dvd_base_add_padded hpos
        inside := fun _ => ⟨Nat.le_add_right _ _, by simp only; omega⟩
        apart := by
          intro _ r hr
          have hinside := I.inside r hr
          right
          simp only
          omega
        offset_le := by simp only; omega
        storage := ⟨rfl, rfl⟩
        failed := fun hzero => by simp only at hzero; omega }

/-- The invariant through one call. -/
theorem ArenaInv.call {ranges : List (Nat × Nat)} (I : ArenaInv a ranges) {c : ArenaCall}
    (valid : c.Valid) (unwrapped : a.Unwrapped c) :
    ArenaInv (a.call c).1 (a.given ranges c) := by
  cases hreq : c.request with
  | none =>
    cases c with
    | reserve base bytes =>
      exact ⟨⟨Nat.zero_le _, valid.2, fun _ => valid.1⟩, by simp [given, hreq], by
        simp [given, hreq]⟩
    | reset =>
      exact ⟨⟨Nat.zero_le _, I.space.space, I.space.base_pos⟩, by simp [given, hreq], by
        simp [given, hreq]⟩
    | allocate => cases hreq
    | allocateArray => cases hreq
  | some req =>
    obtain ⟨size, align⟩ := req
    obtain ⟨k, hk, rfl, hcall⟩ := call_of_request (a := a) valid hreq
    have hoff := offset_le_padded (a := a) (Nat.two_pow_pos k)
    have hsound := I.sound valid unwrapped hreq
    simp only [given, hreq]
    rcases allocate_cases I.space hk (unwrapped size (2 ^ k) hreq) with hnull | ⟨hcap, fits, hsome⟩
    · rw [hcall, hnull, if_pos rfl]
      exact I
    · have hbase := I.space.base_pos hcap
      rw [hcall, hsome] at hsound ⊢
      rw [if_neg (by simp only; omega)]
      exact
        { space := ⟨fits, I.space.space, I.space.base_pos⟩
          inside := by
            intro r hr
            rcases List.mem_cons.mp hr with rfl | hr
            · exact ⟨Nat.le_add_right _ _, by simp only; omega⟩
            · have hinside := I.inside r hr
              exact ⟨hinside.1, by simp only; omega⟩
          apart := List.pairwise_cons.mpr ⟨hsound.apart (by simp only; omega), I.apart⟩ }

theorem Reached.inv {ranges : List (Nat × Nat)} (R : Reached a ranges) : ArenaInv a ranges := by
  induction R with
  | start => exact ⟨⟨le_refl _, by decide, fun h => absurd rfl h⟩, by simp, List.Pairwise.nil⟩
  | call _ valid unwrapped ih => exact ih.call valid unwrapped

/-- A sum that wraps back into the storage hands out a range that leaves it. -/
theorem not_inside_of_wrapped (S : a.InSpace) {c : ArenaCall} (valid : c.Valid)
    (wrapped : ¬a.Unwrapped c) : ∃ size align, c.request = some (size, align) ∧
      ((a.call c).2 ≠ 0 → a.base + a.capacity < (a.call c).2 + size) := by
  simp only [Unwrapped, not_forall, not_or, not_lt] at wrapped
  obtain ⟨size, align, hreq, hcap, hsum, hle⟩ := wrapped
  obtain ⟨k, hk, rfl, hcall⟩ := call_of_request (a := a) valid hreq
  refine ⟨size, 2 ^ k, hreq, fun hne => ?_⟩
  have hbase := base_le_aligned (a := a) (2 ^ k) (Nat.two_pow_pos k)
  have hspace := S.space
  have hoff := S.offset_le
  have hup : alignUp (a.base + a.offset) (2 ^ k) ≤ 2 ^ 64 :=
    alignUp_le (Nat.two_pow_pos k) (by omega) (Nat.pow_dvd_pow 2 hk.le)
  rw [hcall, allocate_eq S hk, if_neg (by omega)] at hne ⊢
  simp only [sizeT, padded] at hne hsum ⊢
  omega

/-- In every history without a sum that wraps into the storage, the ranges handed out lie in the
storage and apart from each other, and every further call keeps its promise unless its own sum
wraps; one that wraps and returns an address does not. -/
theorem arena_sound {ranges : List (Nat × Nat)} (R : Reached a ranges) :
    ArenaInv a ranges ∧
      ∀ c : ArenaCall, c.Valid → ∀ size align, c.request = some (size, align) →
        (a.Unwrapped c → SoundCall a ranges size align (a.call c)) ∧
        (¬a.Unwrapped c → (a.call c).2 ≠ 0 → ¬SoundCall a ranges size align (a.call c)) := by
  have I := R.inv
  refine ⟨I, fun c valid size align hreq => ⟨fun h => I.sound valid h hreq, fun h hne S => ?_⟩⟩
  obtain ⟨size', align', hreq', hout⟩ := not_inside_of_wrapped I.space valid h
  rw [hreq, Option.some.injEq, Prod.mk.injEq] at hreq'
  have hin := (S.inside hne).2
  have hlt := hout hne
  omega

/-- 1024 bytes, 16 of them taken. -/
theorem reached_sixteen : Reached ⟨4096, 1024, 16⟩ [(4096, 16)] := by
  have hreserve : Reached ⟨4096, 1024, 0⟩ [] :=
    .call (c := .reserve 4096 1024) .start ⟨by decide, by decide⟩ fun _ _ h => nomatch h
  refine .call (c := .allocate 16 16) hreserve ⟨by decide, 4, by decide, rfl⟩ ?_
  intro size align h
  cases h
  exact .inr (.inl (by decide))

theorem arena_sound_sixteen :
    ArenaInv ⟨4096, 1024, 16⟩ [(4096, 16)] ∧
      ∀ c : ArenaCall, c.Valid → ∀ size align, c.request = some (size, align) →
        (Unwrapped ⟨4096, 1024, 16⟩ c →
          SoundCall ⟨4096, 1024, 16⟩ [(4096, 16)] size align (call ⟨4096, 1024, 16⟩ c)) ∧
        (¬Unwrapped ⟨4096, 1024, 16⟩ c → (call ⟨4096, 1024, 16⟩ c).2 ≠ 0 →
          ¬SoundCall ⟨4096, 1024, 16⟩ [(4096, 16)] size align (call ⟨4096, 1024, 16⟩ c)) :=
  arena_sound reached_sixteen

/-- A request for `2 ^ 64 - 8` bytes is granted, and takes the offset back to 8. -/
theorem huge_request_granted :
    Reached ⟨4096, 1024, 16⟩ [(4096, 16)] ∧ (ArenaCall.allocate (2 ^ 64 - 8) 8).Valid ∧
      call ⟨4096, 1024, 16⟩ (.allocate (2 ^ 64 - 8) 8) = (⟨4096, 1024, 8⟩, 4112) ∧
      ¬SoundCall ⟨4096, 1024, 16⟩ [(4096, 16)] (2 ^ 64 - 8) 8
        (call ⟨4096, 1024, 16⟩ (.allocate (2 ^ 64 - 8) 8)) := by
  have hcall : call ⟨4096, 1024, 16⟩ (.allocate (2 ^ 64 - 8) 8) = (⟨4096, 1024, 8⟩, 4112) := by
    decide
  refine ⟨reached_sixteen, ⟨by decide, 3, by decide, rfl⟩, hcall, fun S => ?_⟩
  have hback := S.offset_le
  rw [hcall] at hback
  exact absurd hback (by decide)

end MemoryArena

end Xrune
