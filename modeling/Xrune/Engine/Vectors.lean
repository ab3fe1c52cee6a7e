import Xrune.Engine.Sentinel
import Xrune.Nodes.Standard

/-!
# Engine — the vectors of the audio thread

`process()` appends to five vectors: `active_list`, `routes`, `order_scratch`, `reap_scratch`
and `reap_reasons`.  A `push_back` that finds its vector's size below its capacity allocates
nothing; one that does not lets the vector grow.  `init` reserves the first four, and in no run
does `process()` fill one of them.  It reserves nothing for `reap_reasons`, so the first
instance whose life ends by itself makes the audio thread allocate; a run in which none does
allocates nothing (`pushes_within_capacity`).
-/

namespace Xrune

variable {α : Type}

inductive AudioVector where
  | activeList | routes | orderScratch | reapScratch | reapReasons
  deriving DecidableEq, Repr

/-- What `init` reserves. -/
def EngineConfig.reserved (cfg : EngineConfig) : AudioVector → Nat
  | .activeList | .orderScratch | .reapScratch => cfg.maxInstances
  | .routes => cfg.maxInstances * 4
  | .reapReasons => 0

/-- The `push_back`s that take a vector from one size to another, each with the size it finds. -/
def appended (v : AudioVector) (size size' : Nat) : List (AudioVector × Nat) :=
  (List.range' size (size' - size)).map fun n => (v, n)

theorem mem_appended {v : AudioVector} {size size' : Nat} {p : AudioVector × Nat} :
    p ∈ appended v size size' ↔ p.1 = v ∧ size ≤ p.2 ∧ p.2 < size' := by
  obtain ⟨w, n⟩ := p
  simp only [appended, List.mem_map, List.mem_range'_1, Prod.mk.injEq]
  constructor
  · rintro ⟨m, ⟨h₁, h₂⟩, rfl, rfl⟩
    exact ⟨rfl, h₁, by omega⟩
  · rintro ⟨rfl, h₁, h₂⟩
    exact ⟨n, ⟨h₁, by omega⟩, rfl, rfl⟩

namespace Engine

variable [Sample α]

/-- The slots `reap_pass` finds at the end of their lives. -/
def reaped (e : Engine α) : List (Nat × EndReason) :=
  (e.sumToMaster.activeList.foldl e.sumToMaster.reapCheck (e.sumToMaster.mgr.slots, [])).2

/-- The `push_back`s of a step of `process()`, in order. -/
def pushBacks (e : Engine α) : EngineAction α → List (AudioVector × Nat)
  | .drain =>
      match e.commandQueue with
      | [] => []
      | cmd :: rest =>
          let e' := { e with commandQueue := rest }.drainCommand cmd
          match cmd.type with
          | .activate => appended .activeList e.activeList.length e'.activeList.length
          | .connect  => appended .routes e.routes.length e'.routes.length
          | _ => []
  -- `order_scratch` is cleared first, and so are `reap_scratch` and `reap_reasons`
  | .compute =>
      if e.pool.workers ≠ 0 ∧ 2 ≤ e.activeList.length then []
      else appended .orderScratch 0 e.clearMaster.computeOrder.1.length
  | .finish =>
      appended .reapScratch 0 e.reaped.length ++ appended .reapReasons 0 e.reaped.length
  | _ => []

/-- No active instance is at the end of its life when `reap_pass` looks at it. -/
def ReapsNone (e : Engine α) (a : EngineAction α) : Prop :=
  a = .finish → ∀ slot ∈ e.activeList, ∀ g, (e.mgr.slots slot).inst = some g →
    (shouldReap (e.mgr.slots slot) g (terminalPeak g e.parallelNf)).1 = none

end Engine

/-- The capacities of the vectors: now, and when `process()` was entered. -/
structure Capacities where
  now : AudioVector → Nat
  atEntry : AudioVector → Nat

namespace Capacities

/-- A `push_back`; `grow` is how a vector that is full grows. -/
def pushBack (grow : Nat → Nat) (c : Capacities) (p : AudioVector × Nat) : Capacities :=
  if p.2 < c.now p.1 then c else { c with now := Function.update c.now p.1 (grow p.2) }

/-- The capacities after a step. -/
def after [Sample α] (grow : Nat → Nat) (c : Capacities) (e : Engine α) :
    EngineAction α → Capacities
  | .begin _ => { c with atEntry := c.now }
  | a        => (e.pushBacks a).foldl (pushBack grow) c

/-- `push_back`s that find room change no capacity. -/
theorem foldl_pushBack {grow : Nat → Nat} {c : Capacities} :
    ∀ {l : List (AudioVector × Nat)}, (∀ p ∈ l, p.2 < c.now p.1) → l.foldl (pushBack grow) c = c
  | [], _ => rfl
  | p :: l, h => by
      have hp : pushBack grow c p = c := if_pos (h p List.mem_cons_self)
      rw [List.foldl_cons, hp]
      exact foldl_pushBack fun q hq => h q (List.mem_cons_of_mem p hq)

end Capacities

/-- A step of the engine, and what becomes of the capacities. -/
def Engine.stepCapacities [Sample α] (grow : Nat → Nat) (s : Engine α × Capacities)
    (a : EngineAction α) : Option (Engine α × Capacities) :=
  (s.1.step a).map fun e => (e, s.2.after grow s.1 a)

/-! ### The sizes -/

/-- The active slots are slots of the pool, each listed once. -/
structure Listed (capacity : Nat) (l : List Nat) : Prop where
  nodup : l.Nodup
  lt : ∀ slot ∈ l, slot < capacity

namespace Listed

variable {capacity slot : Nat} {l : List Nat}

theorem length_le (L : Listed capacity l) : l.length ≤ capacity := by
  have hsub : l.Subperm (List.range capacity) :=
    L.nodup.subperm fun slot hs => List.mem_range.mpr (L.lt slot hs)
  simpa using hsub.length_le

theorem append (L : Listed capacity l) (hnot : slot ∉ l) (hlt : slot < capacity) :
    Listed capacity (l ++ [slot]) where
  nodup := List.nodup_append.mpr ⟨L.nodup, List.nodup_singleton slot, by
    rintro x hx y hy rfl
    exact hnot (List.mem_singleton.mp hy ▸ hx)⟩
  lt x hx := by
    rcases List.mem_append.mp hx with hx | hx
    · exact L.lt x hx
    · exact List.mem_singleton.mp hx ▸ hlt

/-- There is room for one more. -/
theorem length_lt (L : Listed capacity l) (hnot : slot ∉ l) (hlt : slot < capacity) :
    l.length < capacity := by
  have h := (L.append hnot hlt).length_le
  rw [List.length_append, List.length_singleton] at h
  exact h

end Listed

namespace Engine

section Order

variable {e : Engine α}

/-- The order so far: slots of the pool, each once, whose counters are at zero or below, so
that no decrement brings one of them to zero again. -/
structure Ordered (e : Engine α) (acc : List Nat × (Nat → Int)) : Prop where
  listed : Listed e.mgr.capacity acc.1
  count : ∀ slot ∈ acc.1, acc.2 slot ≤ 0

theorem Ordered.route {acc : List Nat × (Nat → Int)} (O : e.Ordered acc) (u : Nat)
    (r : ActiveRoute) : e.Ordered (e.orderRoute u acc r) := by
  unfold orderRoute
  split
  · exact O
  next h =>
    simp only [not_or, Bool.not_eq_true, Bool.not_eq_false', not_not] at h
    obtain ⟨hm, hlive, -⟩ := h
    have hlt : r.dstSlot < e.mgr.capacity := by
      unfold routeLive at hlive
      split at hlive
      · cases hlive
      · simp only [hm, Bool.false_eq_true, if_false, Bool.and_eq_true, decide_eq_true_eq] at hlive
        exact hlive.1
    have count' : ∀ slot ∈ acc.1,
        Function.update acc.2 r.dstSlot (acc.2 r.dstSlot - 1) slot ≤ 0 := by
      intro slot hs
      by_cases hd : slot = r.dstSlot
      · subst hd
        have := O.count _ hs
        rw [Function.update_self]
        omega
      · rw [Function.update_of_ne hd]
        exact O.count slot hs
    dsimp only
    split
    next h0 =>
      have hnot : r.dstSlot ∉ acc.1 := fun hs => by
        have := O.count _ hs
        omega
      refine ⟨O.listed.append hnot hlt, fun slot hs => ?_⟩
      rcases List.mem_append.mp hs with hs | hs
      · exact count' slot hs
      · rw [List.mem_singleton.mp hs]
        exact (Function.update_self _ _ _).trans_le (le_of_eq h0)
    · exact ⟨O.listed, count'⟩

theorem Ordered.loop : ∀ (fuel head : Nat) {acc : List Nat × (Nat → Int)}, e.Ordered acc →
    e.Ordered (e.orderLoop fuel head acc)
  | 0, _, _, O => O
  | fuel + 1, head, acc, O => by
      rw [orderLoop]
      split
      · exact O
      next u _ =>
        refine Ordered.loop fuel (head + 1) ?_
        exact List.foldlRecOn e.routes (e.orderRoute u) O fun acc O r _ => O.route u r

/-- `compute_order` lists slots of the pool, each once, whatever the routes. -/
theorem listed_computeOrder (L : Listed e.mgr.capacity e.activeList) :
    Listed e.mgr.capacity e.computeOrder.1 := by
  set indeg := e.inDegrees e.indegScratch with hindeg
  have seeds : e.Ordered (e.activeList.filter fun slot => indeg slot == 0, indeg) :=
    ⟨⟨L.nodup.filter _, fun slot hs => L.lt slot (List.mem_of_mem_filter hs)⟩,
      fun slot hs => le_of_eq (eq_of_beq (List.mem_filter.mp hs).2)⟩
  have O := seeds.loop (e.activeList.length + e.routes.length) 0
  unfold computeOrder
  dsimp only
  split
  · refine ⟨List.nodup_append.mpr ⟨O.listed.nodup, L.nodup.filter _, ?_⟩, fun slot hs => ?_⟩
    · rintro x hx y hy rfl
      have hpos := (List.mem_filter.mp hy).2
      have := O.count x hx
      simp only [decide_eq_true_eq] at hpos
      exact absurd hpos (not_lt.mpr this)
    · rcases List.mem_append.mp hs with hs | hs
      · exact O.listed.lt slot hs
      · exact L.lt slot (List.mem_of_mem_filter hs)
  · exact O.listed

end Order

section Steps

variable [Sample α] {e e' : Engine α} {a : EngineAction α}

theorem reaped_length_le (e : Engine α) : e.reaped.length ≤ e.activeList.length := by
  have hlist : e.sumToMaster.activeList = e.activeList :=
    congrArg Tables.activeList (tables_sumToMaster e)
  obtain ⟨l', hsub, heq⟩ := EngineInv.reapScan_sublist e.sumToMaster e.sumToMaster.activeList
    (e.sumToMaster.mgr.slots, [])
  calc e.reaped.length = (e.reaped.map Prod.fst).length := (List.length_map _).symm
    _ = l'.length := by rw [reaped, heq]; rfl
    _ ≤ e.activeList.length := hlist ▸ hsub.length_le

/-- The sum to the master leaves the slots. -/
theorem sumToMaster_keeps (e : Engine α) :
    e.sumToMaster.mgr.slots = e.mgr.slots ∧ e.sumToMaster.parallelNf = e.parallelNf := by
  let kept := fun e : Engine α => (e.mgr.slots, e.parallelNf)
  have h : kept e.sumToMaster = kept e := by
    refine foldl_keeps kept (fun e r => ?_) _ e
    split
    · rfl
    · unfold sumTerminalToMaster
      split
      · rfl
      · exact foldl_keeps kept (fun e c => foldl_keeps kept
          (fun e i => (rfl : kept (e.addToMaster _ _ _ _) = _)) _ e) _ e
  exact Prod.mk.inj h

/-- A slot that is not looked at again keeps its entry, and the slots listed stay listed. -/
theorem reapScan_eq_nil_iff (e : Engine α) (slots : Slots α) :
    ∀ (l : List Nat) (acc : Slots α × List (Nat × EndReason)), l.Nodup →
      (∀ slot ∈ l, acc.1 slot = slots slot) →
      ((l.foldl e.reapCheck acc).2 = [] ↔ acc.2 = [] ∧ ∀ slot ∈ l, ∀ g,
        (slots slot).inst = some g →
          (shouldReap (slots slot) g (terminalPeak g e.parallelNf)).1 = none)
  | [], acc, _, _ => by simp
  | slot :: l, acc, hn, hs => by
      obtain ⟨hout, hn⟩ := List.nodup_cons.mp hn
      have hslot := hs slot List.mem_cons_self
      have hrest : ∀ x ∈ l, (e.reapCheck acc slot).1 x = slots x := by
        intro x hx
        have hne : x ≠ slot := fun h => hout (h ▸ hx)
        rw [← hs x (List.mem_cons_of_mem slot hx)]
        unfold reapCheck
        dsimp only
        split
        · rfl
        · exact Function.update_of_ne hne _ _
      have hone : (e.reapCheck acc slot).2 = [] ↔ acc.2 = [] ∧ ∀ g,
          (slots slot).inst = some g →
            (shouldReap (slots slot) g (terminalPeak g e.parallelNf)).1 = none := by
        unfold reapCheck
        rw [hslot]
        cases hi : (slots slot).inst with
        | none => simp [hi]
        | some g =>
            cases hr : (shouldReap (slots slot) g (terminalPeak g e.parallelNf)).1 with
            | none => simp [hi, hr]
            | some why => simp [hi, hr]
      rw [List.foldl_cons, reapScan_eq_nil_iff e slots l _ hn hrest, hone]
      simp only [List.forall_mem_cons, and_assoc]

/-- `reap_pass` lists nothing exactly when no active instance is at the end of its life. -/
theorem reaped_eq_nil_iff (hn : e.activeList.Nodup) :
    e.reaped = [] ↔ e.ReapsNone .finish := by
  have hlist : e.sumToMaster.activeList = e.activeList :=
    congrArg Tables.activeList (tables_sumToMaster e)
  have hslots : e.sumToMaster.mgr.slots = e.mgr.slots ∧ e.sumToMaster.parallelNf = e.parallelNf :=
    e.sumToMaster_keeps
  unfold reaped
  rw [reapScan_eq_nil_iff e.sumToMaster e.mgr.slots _ _ (hlist ▸ hn) fun slot _ => by rw [hslots.1],
    hlist, hslots.2]
  simp only [true_and, ReapsNone, forall_const]

/-- The steps leave the capacity of the routing table, and the active list one of slots. -/
theorem step_keeps (I : ActiveInv e.tables) (L : Listed e.mgr.capacity e.activeList)
    (h : e.step a = some e') : e'.routesCapacity = e.routesCapacity ∧
      Listed e'.mgr.capacity e'.activeList := by
  have hcap := capacity_step h
  have table : ∀ {T' : Tables α}, Tables.Step e.tables T' →
      T'.routesCapacity = e.routesCapacity ∧ Listed e.mgr.capacity T'.activeList := by
    intro T' h
    cases h with
    | reclaim | create | enqueue => exact ⟨rfl, L⟩
    | release slot why =>
        exact ⟨rfl, L.nodup.erase slot, fun x hx => L.lt x (List.mem_of_mem_erase hx)⟩
    | @drain cmd rest commands =>
        refine ⟨({ e.tables with commands := rest }.drain_keeps cmd).2.2.1, ?_⟩
        unfold Tables.drain
        cases cmd.type with
        | activate =>
            dsimp only
            split
            next hact =>
              refine L.append (fun hmem => ?_) hact.1
              exact (I.active _).mpr hmem hact.2
            · exact L
        | kill =>
            dsimp only
            split
            · exact ⟨L.nodup.erase _, fun x hx => L.lt x (List.mem_of_mem_erase hx)⟩
            · exact L
        | connect =>
            dsimp only
            split <;> exact L
        | setParameter | disconnect => exact L
  rw [hcap]
  rcases step_tables h with same | hstep
  · have hlist : e'.activeList = e.activeList := congrArg Tables.activeList same
    exact ⟨congrArg Tables.routesCapacity same, hlist ▸ L⟩
  · exact table hstep

omit [Sample α] in
/-- `add_route` adds one route at most, and that only where there is room. -/
theorem length_addRoute (e : Engine α) (cmd : CommandEvent α) :
    (e.addRoute cmd).routes.length ≤ e.routes.length ∨
      (e.addRoute cmd).routes.length = e.routes.length + 1 ∧
        e.routes.length < e.routesCapacity := by
  unfold addRoute
  dsimp only
  split_ifs with hsrc hfull
  · exact .inl le_rfl
  · exact .inl le_rfl
  · exact .inr ⟨by simp, not_le.mp hfull⟩
  · exact .inl le_rfl
  · exact .inr ⟨by simp, not_le.mp hfull⟩

/-- Of a step's `push_back`s only those on `reap_reasons` find no room reserved. -/
theorem pushBacks_lt {cfg : EngineConfig} (I : ActiveInv e.tables)
    (L : Listed e.mgr.capacity e.activeList) (hcap : e.mgr.capacity = cfg.maxInstances)
    (hroutes : e.routesCapacity = cfg.maxInstances * 4) {p : AudioVector × Nat}
    (hp : p ∈ e.pushBacks a) (one : e.step a = some e') :
    p.2 < cfg.reserved p.1 ∨ a = .finish ∧ p.1 = .reapReasons ∧ e.reaped ≠ [] := by
  have hlen : e.activeList.length ≤ cfg.maxInstances := hcap ▸ L.length_le
  cases step_cases one with
  | @drain cmd rest phase queue =>
      refine .inl ?_
      simp only [pushBacks, queue] at hp
      cases htype : cmd.type with
      | activate =>
          simp only [htype, drainCommand, mem_appended] at hp
          obtain ⟨hv, hlo, hhi⟩ := hp
          rw [hv]
          split at hhi
          next hact =>
            have hnot : cmd.handle.slot ∉ e.activeList := fun hmem =>
              (I.active _).mpr hmem hact.2
            have hlt := L.length_lt hnot hact.1
            rw [List.length_append, List.length_singleton] at hhi
            rw [hcap] at hlt
            have hone : p.2 = e.activeList.length := by omega
            rw [hone]
            exact hlt
          · exact absurd hhi (not_lt.mpr hlo)
      | connect =>
          simp only [htype, drainCommand, mem_appended] at hp
          obtain ⟨hv, hlo, hhi⟩ := hp
          have hroom : p.2 < e.routesCapacity := by
            have hadd : _ ∨ _ ∧ e.routes.length < e.routesCapacity :=
              { e with commandQueue := rest }.length_addRoute cmd
            rcases hadd with hle | ⟨hone, hroom⟩
            · exact absurd (hhi.trans_le hle) (not_lt.mpr hlo)
            · rw [hone] at hhi
              exact (Nat.lt_succ_iff.mp hhi).trans_lt hroom
          rw [hv]
          exact hroom.trans_eq hroutes
      | kill | setParameter | disconnect =>
          simp only [htype] at hp
          cases hp
  | compute phase queue =>
      refine .inl ?_
      simp only [pushBacks] at hp
      split at hp
      · cases hp
      · obtain ⟨hv, -, hhi⟩ := mem_appended.mp hp
        have hle := (listed_computeOrder (e := e.clearMaster) L).length_le
        rw [hv]
        exact hhi.trans_le (hle.trans_eq hcap)
  | finish phase =>
      rcases List.mem_append.mp hp with hp | hp
      · obtain ⟨hv, -, hhi⟩ := mem_appended.mp hp
        rw [hv]
        exact .inl (hhi.trans_le (e.reaped_length_le.trans hlen))
      · obtain ⟨hv, -, hhi⟩ := mem_appended.mp hp
        exact .inr ⟨rfl, hv, fun h => by rw [h] at hhi; exact absurd hhi (Nat.not_lt_zero _)⟩
  | _ => cases hp

end Steps

end Engine

/-! ### Runs -/

/-- What every run keeps, the capacities being as reserved while no instance is reaped. -/
structure VectorInv (cfg : EngineConfig) (s : Engine α × Capacities) : Prop where
  active : ActiveInv s.1.tables
  listed : Listed s.1.mgr.capacity s.1.activeList
  capacity : s.1.mgr.capacity = cfg.maxInstances
  routes : s.1.routesCapacity = cfg.maxInstances * 4
  now : s.2.now = cfg.reserved
  atEntry : s.2.atEntry = cfg.reserved

namespace VectorInv

variable [Sample α] {cfg : EngineConfig} {s s' : Engine α × Capacities} {a : EngineAction α}
  {grow : Nat → Nat} {e' : Engine α}

theorem init {e : Engine α} (h : Engine.init cfg = some e) :
    VectorInv cfg (e, ⟨cfg.reserved, cfg.reserved⟩) := by
  have I := ActiveInv.of_slots (.init h)
  unfold Engine.init at h
  split at h
  · cases h
  · obtain rfl := Option.some.inj h
    exact ⟨I, ⟨List.nodup_nil, fun _ h => absurd h List.not_mem_nil⟩, rfl, rfl, rfl, rfl⟩

/-- A step that reaps nothing pushes where there is room, and leaves the capacities. -/
theorem step (V : VectorInv cfg s) (meets : s.1.ReapsNone a)
    (one : Engine.stepCapacities grow s a = some s') : VectorInv cfg s' := by
  obtain ⟨e', he, rfl⟩ := Option.map_eq_some_iff.mp one
  have room : ∀ p ∈ s.1.pushBacks a, p.2 < s.2.now p.1 := by
    intro p hp
    rw [V.now]
    rcases Engine.pushBacks_lt V.active V.listed V.capacity V.routes hp he with h | ⟨rfl, -, h⟩
    · exact h
    · exact absurd ((Engine.reaped_eq_nil_iff V.active.nodup).mpr meets) h
  obtain ⟨hroutes, L⟩ := Engine.step_keeps V.active V.listed he
  have same : (s.2.after grow s.1 a).now = cfg.reserved ∧
      (s.2.after grow s.1 a).atEntry = cfg.reserved := by
    cases a with
    | begin n => exact ⟨V.now, V.now⟩
    | _ =>
        have kept : (s.1.pushBacks _).foldl (Capacities.pushBack grow) s.2 = s.2 :=
          Capacities.foldl_pushBack room
        simp only [Capacities.after]
        rw [kept]
        exact ⟨V.now, V.atEntry⟩
  exact
    { active := by
        rcases Engine.step_tables he with keeps | hstep
        · exact keeps ▸ V.active
        · exact V.active.step hstep
      listed := L
      capacity := (Engine.capacity_step he).trans V.capacity
      routes := hroutes.trans V.routes
      now := same.1
      atEntry := same.2 }

end VectorInv

/-- **The vectors of the audio thread grow exactly when `reap_pass` finds an instance at the end
of its life.**  In a run of the engine in which it has found none, every `push_back` of the next
step finds its vector's size below the capacity it had when `process()` was entered if and only
if that step is not a `reap_pass` that finds one. -/
theorem pushes_within_capacity [Sample α] {cfg : EngineConfig} {grow : Nat → Nat}
    {ok : Engine α × Capacities → EngineAction α → Prop}
    (hok : ∀ s a, ok s a → s.1.ReapsNone a) {e₀ : Engine α} (h₀ : Engine.init cfg = some e₀)
    {s : Engine α × Capacities}
    (run : Reaches (Engine.stepCapacities grow) ok (e₀, ⟨cfg.reserved, cfg.reserved⟩) s)
    {a : EngineAction α} {e' : Engine α} (one : s.1.step a = some e') :
    (∀ p ∈ s.1.pushBacks a, p.2 < s.2.atEntry p.1) ↔ s.1.ReapsNone a := by
  have V : VectorInv cfg s := run.invariant (.init h₀) fun s a s' V meets one =>
    V.step (hok s a meets) one
  rw [V.atEntry]
  constructor
  · rintro room rfl
    refine ((Engine.reaped_eq_nil_iff V.active.nodup).mp ?_) rfl
    by_contra hne
    -- the first of them is pushed on an empty vector for which nothing is reserved
    have hfirst : (AudioVector.reapReasons, 0) ∈ s.1.pushBacks .finish :=
      List.mem_append_right _ (mem_appended.mpr ⟨rfl, le_rfl, List.length_pos_iff.mpr hne⟩)
    exact absurd (room _ hfirst) (Nat.not_lt_zero 0)
  · intro meets p hp
    rcases Engine.pushBacks_lt V.active V.listed V.capacity V.routes hp one with h | ⟨rfl, -, h⟩
    · exact h
    · exact absurd ((Engine.reaped_eq_nil_iff V.active.nodup).mpr meets) h

/-! ### An instance that times out -/

/-- A bus of one channel. -/
def briefBus : CompiledSchedule ℚ :=
  .single { nodes := [Nodes.busInput 1], names := ["b"], outputTerminals := [⟨"out", 0, []⟩] } 1

def oneBlock : LifetimePolicy ℚ := ⟨.timed, 1, 0, 0⟩

def oneSlot : Engine ℚ := (Engine.init (.small 1 0 (by decide))).get rfl

def oneSlotReserved : Engine ℚ × Capacities :=
  (oneSlot, ⟨(EngineConfig.small 1 0 (by decide)).reserved,
    (EngineConfig.small 1 0 (by decide)).reserved⟩)

def EngineAction.isFinish : EngineAction α → Bool
  | .finish => true
  | _ => false

/-- The activation of an instance finds room. -/
theorem pushes_within_capacity_activate :
    ∃ s : Engine ℚ × Capacities, s.1.pushBacks .drain = [(.activeList, 0)] ∧
      ∀ p ∈ s.1.pushBacks .drain, p.2 < s.2.atEntry p.1 := by
  obtain ⟨s, hs, h⟩ := exists_of_runs (Engine.stepCapacities id) oneSlotReserved
    [.create briefBus oneBlock [], .begin 1]
    (fun s => s.1.pushBacks .drain == [(.activeList, 0)] && (s.1.step .drain).isSome)
    (by decide +kernel)
  have meet : allMeet (Engine.stepCapacities id) (fun _ a => !a.isFinish) oneSlotReserved
      [.create briefBus oneBlock [], .begin 1] = true := by decide +kernel
  simp only [Bool.and_eq_true, beq_iff_eq, Option.isSome_iff_exists] at h
  obtain ⟨hpush, e', one⟩ := h
  have noFinish : ∀ (s : Engine ℚ × Capacities) (a : EngineAction ℚ), (!a.isFinish) = true →
      s.1.ReapsNone a := by
    rintro s a ha rfl
    cases ha
  have h₀ : Engine.init (.small 1 0 (by decide)) = some oneSlot := rfl
  exact ⟨s, hpush, (pushes_within_capacity noFinish h₀ (Reaches.of_runs_meet hs meet) one).mpr
    fun h => by cases h⟩

/-- **The audio thread allocates**: the instance's time is over after one block, and
`reap_reasons` has room for nothing. -/
theorem reap_grows_vector :
    ∃ s : Engine ℚ × Capacities,
      runs (Engine.stepCapacities id) oneSlotReserved
        [.create briefBus oneBlock [], .begin 1, .drain, .compute] = some s ∧
      (s.1.step .finish).isSome = true ∧ (.reapReasons, 0) ∈ s.1.pushBacks .finish ∧
      s.2.atEntry .reapReasons = 0 := by
  obtain ⟨s, hs, h⟩ := exists_of_runs (Engine.stepCapacities id) oneSlotReserved
    [.create briefBus oneBlock [], .begin 1, .drain, .compute]
    (fun s => (s.1.step .finish).isSome &&
      decide ((AudioVector.reapReasons, 0) ∈ s.1.pushBacks .finish) &&
      s.2.atEntry .reapReasons == 0) (by decide +kernel)
  simp only [Bool.and_eq_true, beq_iff_eq, decide_eq_true_eq] at h
  exact ⟨s, hs, h.1.1, h.1.2, h.2⟩

end Xrune
