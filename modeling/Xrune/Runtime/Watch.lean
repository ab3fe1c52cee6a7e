import Xrune.Runtime.Host
import Xrune.Runtime.Tenure

/-!
# Runtime — watching the voices of a host

A watch is a host with the history of its voices, each by its number: the policy it was spawned
with, the block that activated it, the blocks its instance was processed in, the blocks it was
checked in with the instance at the check, and the end records the audio thread produced.  Seen through a watch, an active
voice of a host lives the life of `Tenure` (`watchInv_of_reaches`): each step of the host is a
step of that life or leaves it, and a voice that ended was released by it.  The life is orderly
while every parallel block begins on an acyclic routing graph seeded race-free.
-/

namespace Xrune

variable {α : Type}

structure Watch (α : Type) where
  host : Host α
  block : Nat
  lives : List (LifetimePolicy α)
  began : Nat → Nat
  played : Nat → List Nat
  heard : Nat → List (Nat × GraphInstance α)
  ends : List (Nat × EndReason)

namespace Engine

/-- The slot a step of the audio thread activates. -/
def activating (e : Engine α) : EngineAction α → Option Nat
  | .drain =>
      match e.phase, e.commandQueue with
      | .draining, cmd :: _ =>
          if cmd.type = .activate ∧ cmd.handle.slot < e.mgr.capacity ∧
              e.activeGen cmd.handle.slot = 0 then some cmd.handle.slot
          else none
      | _, _ => none
  | _ => none

/-- Where the voice in an active slot stands in the block. -/
def turn (e : Engine α) (slot : Nat) : Turn :=
  match e.phase with
  | .outside | .draining  => .before
  | .seeding _ | .helping => .inside (decide (slot ∈ e.pool.processed))
  | .computed             => .computed
  | .reaping rest         => .checked (rest.lookup slot)

end Engine

namespace Watch

abbrev eng (w : Watch α) : Engine α := w.host.rt.eng

/-- The number of the voice in a slot. -/
abbrev voice (w : Watch α) (slot : Nat) : Nat := w.host.session.occupant slot

/-- The instances in these slots are processed. -/
def plays (w : Watch α) (slots : List Nat) : Watch α :=
  { w with
    played := fun k => w.played k ++ (slots.filter fun s => w.voice s = k).map fun _ => w.block }

/-- The active instances are looked at. -/
def hears (w : Watch α) : Watch α :=
  { w with
    heard := fun k => w.heard k ++
      (w.eng.activeList.filter fun s => w.voice s = k).filterMap fun s =>
        (w.eng.mgr.slots s).inst.map fun g => (w.block, g) }

/-- The end records in the queue of `e` that were not there. -/
def records (w : Watch α) (e : Engine α) : Watch α :=
  { w with
    ends := w.ends ++ (e.telemetryQueue.drop w.eng.telemetryQueue.length).map fun ev =>
      (w.voice ev.slot, ev.reason) }

section Step

variable [Sample α]

/-- The history after a step of the threads, to `e`. -/
def observe (w : Watch α) (a : EngineAction α) (e : Engine α) : Watch α :=
  match a with
  | .drain =>
      match w.eng.activating .drain with
      | some slot => { w with began := Function.update w.began (w.voice slot) w.block }
      | none      => w.records e
  | .compute =>
      if w.eng.pool.workers ≠ 0 ∧ 2 ≤ w.eng.activeList.length then w
      else w.plays w.eng.clearMaster.computeOrder.1
  | .work t =>
      match w.eng.pool.threads t with
      | .running slot .process => w.plays [slot]
      | _ => w
  | .finish   => w.hears
  | .reap     => w.records e
  | .writeOut => { w with block := w.block + 1 }
  | _         => w

/-- The history after a step of the host, to `h`. -/
def saw (w : Watch α) (a : HostAction α) (h : Host α) : Watch α :=
  match a with
  | .api (.audio b) => w.observe b h.rt.eng
  | .api .advance =>
      match w.host.rt.call with
      | .spawning plan =>
          { w with
            lives := w.lives ++ List.replicate
              (h.session.spawned.length - w.host.session.spawned.length) plan.life }
      | _ => w
  | _ => w

def step (w : Watch α) (a : HostAction α) : Option (Watch α) :=
  (w.host.step a).map fun h => { w.saw a h with host := h }

end Step

def init (s : Session α) : Watch α :=
  ⟨⟨s, [], []⟩, 0, [], fun _ => 0, fun _ => [], fun _ => [], []⟩

/-- The voice in a slot. -/
def tenure (w : Watch α) (slot : Nat) : Tenure α (GraphInstance α) :=
  let l := w.eng.leases slot
  let k := w.voice slot
  ⟨w.eng.turn slot, l.life, l.ageBlocks, l.silentRun, w.block, w.began k, w.played k, w.heard k⟩

/-- The history of `v`. -/
structure Follows (w v : Watch α) : Prop where
  block : w.block = v.block
  lives : w.lives = v.lives
  began : w.began = v.began
  played : w.played = v.played
  heard : w.heard = v.heard
  ends : w.ends = v.ends

/-- No voice is spawned. -/
structure SameVoices (w : Watch α) (h : Host α) : Prop where
  spawned : h.session.spawned = w.host.session.spawned
  occupant : h.session.occupant = w.host.session.occupant

/-- Nothing has become of a voice yet. -/
structure Untouched (orderly : Prop) (w : Watch α) (k : Nat) : Prop where
  played : orderly → w.played k = []
  heard : w.heard k = []
  ends : k ∉ w.ends.map Prod.fst

/-- The slot's voice is active, or its activation is in the queue. -/
def Held (w : Watch α) (slot : Nat) : Prop :=
  slot ∈ w.eng.activeList ∨ ∃ h ∈ activations w.eng.commandQueue, h.slot = slot

end Watch

/-- The watches reached by steps whose hosts each meet `ok`. -/
def WatchReaches [Sample α] (cfg : EngineConfig) (voiceEndCb : Bool)
    (ok : Host α → HostAction α → Prop) (w : Watch α) : Prop :=
  ∃ s₀, Session.init cfg voiceEndCb = some s₀ ∧
    Reaches Watch.step (fun w a => ok w.host a) (.init s₀) w

theorem WatchReaches.host [Sample α] {cfg : EngineConfig} {cb : Bool}
    {ok : Host α → HostAction α → Prop} {w : Watch α} (run : WatchReaches cfg cb ok w) :
    HostReaches cfg cb ok w.host := by
  obtain ⟨s₀, h₀, run⟩ := run
  refine ⟨s₀, h₀, ?_⟩
  induction run with
  | refl => exact .refl
  | tail run meets one ih =>
      obtain ⟨h, hh, rfl⟩ := Option.map_eq_some_iff.mp one
      exact .tail ih meets hh

/-! ### What a watch keeps -/

open Tenure (Step)

/-- Each voice's activation is queued, or the voice is active and lives the life of a `Tenure`,
or it ended, once, when that life released it. -/
structure WatchInv (orderly : Prop) (hears : LifetimePolicy α → Bool → GraphInstance α → Prop)
    (w : Watch α) : Prop where
  lives : w.lives.length = w.host.session.spawned.length
  policy : ∀ slot, w.Held slot → w.lives[w.voice slot]? = some (w.eng.leases slot).life
  unborn : ∀ k, w.lives.length ≤ k → w.Untouched orderly k
  pending : ∀ h ∈ activations w.eng.commandQueue, w.Untouched orderly (w.voice h.slot) ∧
    (w.eng.leases h.slot).ageBlocks = 0 ∧ (w.eng.leases h.slot).silentRun = 0
  active : ∀ slot ∈ w.eng.activeList,
    (w.tenure slot).Reached orderly hears ∧ w.voice slot ∉ w.ends.map Prod.fst
  ended : ∀ k why, (k, why) ∈ w.ends → ∃ T : Tenure α (GraphInstance α),
    T.Reached orderly hears ∧ T.Releases why ∧ w.lives[k]? = some T.life ∧
      T.began = w.began k ∧ (orderly → T.played = w.played k) ∧ T.heard = w.heard k
  once : (w.ends.map Prod.fst).Nodup
  accounted : ∀ k < w.lives.length, (∃ slot, w.Held slot ∧ w.voice slot = k) ∨
    k ∈ w.ends.map Prod.fst

namespace WatchInv

variable {orderly : Prop} {hears : LifetimePolicy α → Bool → GraphInstance α → Prop}
  {w w' : Watch α}

/-- A slot that is held is not free. -/
theorem not_free (S : SlotInv w.eng.tables) {slot : Nat} (held : w.Held slot) :
    slot < w.eng.mgr.capacity ∧ slot ∉ w.eng.mgr.freeSlots := by
  rcases held with act | ⟨h, hh, rfl⟩
  · exact ⟨S.lt_of_active act, fun hf => S.not_active_of_free hf act⟩
  · exact ⟨(S.not_active_of_pending hh).2, fun hf => S.not_pending_of_free hf h hh rfl⟩

/-- Two slots that are held hold two voices. -/
theorem voice_inj (S : SlotInv w.eng.tables) (V : VoiceInv w.host.session) {slot slot' : Nat}
    (held : w.Held slot) (held' : w.Held slot') (same : w.voice slot = w.voice slot') :
    slot = slot' := by
  obtain ⟨hlt, hfree⟩ := not_free S held
  obtain ⟨hlt', hfree'⟩ := not_free S held'
  obtain ⟨v, hv, hh, -⟩ := V.occupied slot hlt hfree
  obtain ⟨v', hv', hh', -⟩ := V.occupied slot' hlt' hfree'
  have same : w.host.session.occupant slot = w.host.session.occupant slot' := same
  rw [same] at hv
  obtain rfl : v = v' := Option.some.inj (hv.symm.trans hv')
  exact congrArg InstanceHandle.slot (hh.symm.trans hh')

/-- What the life of an active voice is made of. -/
theorem tenure_eq {slot : Nat} {t : Turn} {p : List Nat} (turn : w'.eng.turn slot = t)
    (lease : w'.eng.leases slot = w.eng.leases slot) (voice : w'.voice slot = w.voice slot)
    (block : w'.block = w.block) (began : w'.began (w.voice slot) = w.began (w.voice slot))
    (played : w'.played (w.voice slot) = p)
    (heard : w'.heard (w.voice slot) = w.heard (w.voice slot)) :
    w'.tenure slot = { w.tenure slot with turn := t, played := p } := by
  unfold Watch.tenure
  dsimp only
  rw [turn, lease, voice, block, began, played, heard]

theorem tenure_congr {slot : Nat} (turn : w'.eng.turn slot = w.eng.turn slot)
    (lease : w'.eng.leases slot = w.eng.leases slot) (voice : w'.voice slot = w.voice slot)
    (block : w'.block = w.block) (began : w'.began (w.voice slot) = w.began (w.voice slot))
    (played : w'.played = w.played) (heard : w'.heard = w.heard) :
    w'.tenure slot = w.tenure slot :=
  tenure_eq turn lease voice block began (by rw [played]) (by rw [heard])

/-- The active voices go on, each by a step of its life or none, and the others are let be. -/
theorem turns (I : WatchInv orderly hears w) (S : SlotInv w.eng.tables)
    (V : VoiceInv w.host.session)
    (hspawned : w'.host.session.spawned = w.host.session.spawned)
    (hvoice : w'.voice = w.voice) (hlives : w'.lives = w.lives) (hends : w'.ends = w.ends)
    (hactive : w'.eng.activeList = w.eng.activeList)
    (hqueue : activations w'.eng.commandQueue = activations w.eng.commandQueue)
    (hlife : ∀ slot, w.Held slot → (w'.eng.leases slot).life = (w.eng.leases slot).life)
    (hcount : ∀ h ∈ activations w.eng.commandQueue, w'.eng.leases h.slot = w.eng.leases h.slot)
    (hstep : ∀ slot ∈ w.eng.activeList,
      w'.tenure slot = w.tenure slot ∨ Step orderly hears (w.tenure slot) (w'.tenure slot))
    (hrest : ∀ k, (∀ slot ∈ w.eng.activeList, w.voice slot ≠ k) →
      w'.began k = w.began k ∧ w'.heard k = w.heard k ∧ (orderly → w'.played k = w.played k)) :
    WatchInv orderly hears w' := by
  have held : ∀ slot, w'.Held slot ↔ w.Held slot := fun slot => by
    rw [Watch.Held, Watch.Held, hactive, hqueue]
  have untouched : ∀ {k}, (∀ slot ∈ w.eng.activeList, w.voice slot ≠ k) →
      w.Untouched orderly k → w'.Untouched orderly k := fun off U => by
    obtain ⟨-, hheard, hplayed⟩ := hrest _ off
    exact ⟨fun o => (hplayed o).trans (U.played o), hheard.trans U.heard, hends.symm ▸ U.ends⟩
  refine
    { lives := by rw [hlives, hspawned]; exact I.lives
      policy := fun slot h => ?_
      unborn := fun k hk => untouched (fun slot act same => ?_) (I.unborn k (hlives ▸ hk))
      pending := fun h hh => ?_
      active := fun slot act => ?_
      ended := fun k why hk => ?_
      once := hends ▸ I.once
      accounted := fun k hk => ?_ }
  · have h := (held slot).mp h
    rw [hlives, hvoice, hlife slot h]
    exact I.policy slot h
  · have known := I.policy slot (.inl act)
    rw [same, List.getElem?_eq_none (hlives ▸ hk)] at known
    cases known
  · rw [hqueue] at hh
    obtain ⟨U, age, run⟩ := I.pending h hh
    rw [hvoice, hcount h hh]
    refine ⟨untouched (fun slot act same => ?_) U, age, run⟩
    obtain rfl := voice_inj S V (.inl act) (.inr ⟨h, hh, rfl⟩) same
    exact (S.not_active_of_pending hh).1 act
  · rw [hactive] at act
    obtain ⟨lived, notEnded⟩ := I.active slot act
    refine ⟨?_, by rw [hvoice, hends]; exact notEnded⟩
    rcases hstep slot act with same | one
    · rw [same]
      exact lived
    · exact .step lived one
  · rw [hends] at hk
    obtain ⟨T, lived, rel, life, began, played, heard⟩ := I.ended k why hk
    obtain ⟨hbegan, hheard, hplayed⟩ := hrest k fun slot act same =>
      (I.active slot act).2 (same ▸ List.mem_map_of_mem hk)
    exact ⟨T, lived, rel, hlives.symm ▸ life, began.trans hbegan.symm,
      fun o => (played o).trans (hplayed o).symm, heard.trans hheard.symm⟩
  · rw [hlives] at hk
    rcases I.accounted k hk with ⟨slot, h, same⟩ | gone
    · exact .inl ⟨slot, (held slot).mpr h, by rw [hvoice]; exact same⟩
    · exact .inr (hends.symm ▸ gone)

/-- The step leaves the history and what the voices are at. -/
theorem still (I : WatchInv orderly hears w) (S : SlotInv w.eng.tables)
    (V : VoiceInv w.host.session) (hist : w'.Follows w) (same : w.SameVoices w'.host)
    (hactive : w'.eng.activeList = w.eng.activeList)
    (hqueue : activations w'.eng.commandQueue = activations w.eng.commandQueue)
    (hturn : w'.eng.turn = w.eng.turn)
    (hleases : ∀ slot, w.Held slot → w'.eng.leases slot = w.eng.leases slot) :
    WatchInv orderly hears w' := by
  refine I.turns S V same.spawned same.occupant hist.lives hist.ends hactive hqueue
    (fun slot held => congrArg Lease.life (hleases slot held))
    (fun h hh => hleases h.slot (.inr ⟨h, hh, rfl⟩)) (fun slot act => .inl ?_) fun k _ => ?_
  · exact tenure_congr (congrFun hturn slot) (hleases slot (.inl act))
      (congrFun same.occupant slot) hist.block (by rw [hist.began]) hist.played hist.heard
  · rw [hist.began, hist.heard, hist.played]
    exact ⟨rfl, rfl, fun _ => rfl⟩

/-- A voice is spawned into a free slot. -/
theorem spawns (I : WatchInv orderly hears w) (S : SlotInv w.eng.tables) {h : InstanceHandle}
    {id : Nat} {lease : Lease α} (free : h.slot ∈ w.eng.mgr.freeSlots)
    (zero : lease.ageBlocks = 0 ∧ lease.silentRun = 0)
    (hspawned : w'.host.session.spawned = w.host.session.spawned ++ [⟨h, id⟩])
    (hvoice : w'.voice = Function.update w.voice h.slot w.host.session.spawned.length)
    (hist : w'.Follows { w with lives := w.lives ++ [lease.life] })
    (hactive : w'.eng.activeList = w.eng.activeList)
    (hqueue : activations w'.eng.commandQueue = activations w.eng.commandQueue ++ [h])
    (hturn : w'.eng.turn = w.eng.turn)
    (hleases : w'.eng.leases = Function.update w.eng.leases h.slot lease) :
    WatchInv orderly hears w' := by
  obtain ⟨hblock, hlives, hbegan, hplayed, hheard, hends⟩ := hist
  dsimp only at hblock hlives hbegan hplayed hheard hends
  have number : w.host.session.spawned.length = w.lives.length := I.lives.symm
  have other : ∀ {slot}, w.Held slot → slot ≠ h.slot := fun held e =>
    (not_free S held).2 (e ▸ free)
  have voice : ∀ {slot}, w.Held slot → w'.voice slot = w.voice slot := fun held => by
    rw [hvoice, Function.update_of_ne (other held)]
  have lease' : ∀ {slot}, w.Held slot → w'.eng.leases slot = w.eng.leases slot := fun held => by
    rw [hleases, Function.update_of_ne (other held)]
  have newVoice : w'.voice h.slot = w.lives.length := by
    rw [hvoice, Function.update_self, number]
  have untouched : ∀ {k}, w.Untouched orderly k → w'.Untouched orderly k := fun U =>
    ⟨hplayed ▸ U.played, hheard ▸ U.heard, hends ▸ U.ends⟩
  have held : ∀ slot, w'.Held slot ↔ w.Held slot ∨ slot = h.slot := fun slot => by
    simp only [Watch.Held, hactive, hqueue, List.mem_append, List.mem_singleton, or_and_right,
      exists_or, exists_eq_left]
    rw [or_assoc, eq_comm]
  refine
    { lives := by rw [hlives, hspawned, List.length_append, List.length_append, I.lives]; rfl
      policy := fun slot hs => ?_
      unborn := fun k hk => untouched (I.unborn k ?_)
      pending := fun h' hh => ?_
      active := fun slot act => ?_
      ended := fun k why hk => ?_
      once := hends ▸ I.once
      accounted := fun k hk => ?_ }
  · rcases (held slot).mp hs with old | rfl
    · rw [voice old, lease' old, hlives]
      have known := I.policy slot old
      rw [List.getElem?_append_left (List.getElem?_eq_some_iff.mp known).1, known]
    · rw [newVoice, hlives, hleases, Function.update_self, List.getElem?_concat_length]
  · rw [hlives, List.length_append] at hk
    exact (Nat.le_add_right ..).trans hk
  · rw [hqueue] at hh
    rcases List.mem_append.mp hh with old | new
    · have hd : w.Held h'.slot := .inr ⟨h', old, rfl⟩
      rw [voice hd, lease' hd]
      exact ⟨untouched (I.pending h' old).1, (I.pending h' old).2⟩
    · obtain rfl := List.mem_singleton.mp new
      rw [newVoice, hleases, Function.update_self]
      exact ⟨untouched (I.unborn _ le_rfl), zero⟩
  · rw [hactive] at act
    have hd : w.Held slot := .inl act
    obtain ⟨lived, notEnded⟩ := I.active slot act
    have same : w'.tenure slot = w.tenure slot :=
      tenure_congr (congrFun hturn slot) (lease' hd) (voice hd) hblock (by rw [hbegan]) hplayed
        hheard
    rw [same, voice hd, hends]
    exact ⟨lived, notEnded⟩
  · rw [hends] at hk
    obtain ⟨T, lived, rel, life, began, played, heard⟩ := I.ended k why hk
    refine ⟨T, lived, rel, ?_, hbegan ▸ began, hplayed ▸ played, hheard ▸ heard⟩
    rw [hlives, List.getElem?_append_left (List.getElem?_eq_some_iff.mp life).1, life]
  · rw [hlives, List.length_append, List.length_singleton] at hk
    by_cases hlt : k < w.lives.length
    · rcases I.accounted k hlt with ⟨slot, hd, same⟩ | gone
      · exact .inl ⟨slot, (held slot).mpr (.inl hd), (voice hd).trans same⟩
      · exact .inr (hends ▸ gone)
    · exact .inl ⟨h.slot, (held _).mpr (.inr rfl), by rw [newVoice]; omega⟩

/-- The activation of a voice is taken up. -/
theorem activates (I : WatchInv orderly hears w) (S : SlotInv w.eng.tables)
    (V : VoiceInv w.host.session) {h : InstanceHandle} {rest : List InstanceHandle}
    (queue : activations w.eng.commandQueue = h :: rest) (turn : w.eng.turn h.slot = .before)
    (hist : w'.Follows { w with began := Function.update w.began (w.voice h.slot) w.block })
    (same : w.SameVoices w'.host)
    (hactive : w'.eng.activeList = w.eng.activeList ++ [h.slot])
    (hqueue : activations w'.eng.commandQueue = rest) (hturn : w'.eng.turn = w.eng.turn)
    (hleases : w'.eng.leases = w.eng.leases) : WatchInv orderly hears w' := by
  obtain ⟨hblock, hlives, hbegan, hplayed, hheard, hends⟩ := hist
  obtain ⟨hspawned, hvoice⟩ : _ ∧ w'.voice = w.voice := ⟨same.spawned, same.occupant⟩
  dsimp only at hblock hlives hbegan hplayed hheard hends
  have mem : h ∈ activations w.eng.commandQueue := queue ▸ List.mem_cons_self
  have here : w.Held h.slot := .inr ⟨h, mem, rfl⟩
  obtain ⟨U, age, run⟩ := I.pending h mem
  have untouched : ∀ {k}, w.Untouched orderly k → w'.Untouched orderly k := fun U =>
    ⟨hplayed ▸ U.played, hheard ▸ U.heard, hends ▸ U.ends⟩
  have held : ∀ slot, w'.Held slot ↔ w.Held slot := fun slot => by
    simp only [Watch.Held, hactive, hqueue, queue, List.mem_append, List.mem_cons, or_and_right,
      exists_or, exists_eq_left, List.not_mem_nil, or_false]
    rw [or_assoc, eq_comm]
  refine
    { lives := by rw [hlives, hspawned]; exact I.lives
      policy := fun slot hs => ?_
      unborn := fun k hk => untouched (I.unborn k (hlives ▸ hk))
      pending := fun h' hh => ?_
      active := fun slot act => ?_
      ended := fun k why hk => ?_
      once := hends ▸ I.once
      accounted := fun k hk => ?_ }
  · rw [hlives, hvoice, hleases]
    exact I.policy slot ((held slot).mp hs)
  · rw [hqueue] at hh
    obtain ⟨U, zero⟩ := I.pending h' (queue ▸ List.mem_cons_of_mem h hh)
    rw [hvoice, hleases]
    exact ⟨untouched U, zero⟩
  · rw [hactive] at act
    rcases List.mem_append.mp act with old | new
    · have other : w.voice slot ≠ w.voice h.slot := fun same => by
        obtain rfl := voice_inj S V (.inl old) here same
        exact (S.not_active_of_pending mem).1 old
      have same : w'.tenure slot = w.tenure slot :=
        tenure_congr (congrFun hturn slot) (congrFun hleases slot) (congrFun hvoice slot) hblock
          (by rw [hbegan, Function.update_of_ne other]) hplayed hheard
      rw [same, hvoice, hends]
      exact I.active slot old
    · obtain rfl := List.mem_singleton.mp new
      have start : w'.tenure h.slot
          = .start (w.eng.leases h.slot).life w.block (w.played (w.voice h.slot)) := by
        unfold Watch.tenure
        dsimp only
        rw [hturn, turn, hleases, age, run, hvoice, hblock, hbegan, Function.update_self, hplayed,
          hheard, U.heard]
        rfl
      rw [start, hvoice, hends]
      exact ⟨.start U.played, U.ends⟩
  · rw [hends] at hk
    obtain ⟨T, lived, rel, life, began, played, heard⟩ := I.ended k why hk
    have other : k ≠ w.voice h.slot := fun e => U.ends (e ▸ List.mem_map_of_mem hk)
    refine ⟨T, lived, rel, hlives ▸ life, ?_, hplayed ▸ played, hheard ▸ heard⟩
    rw [hbegan, Function.update_of_ne other]
    exact began
  · rw [hlives] at hk
    rcases I.accounted k hk with ⟨slot, hd, same⟩ | gone
    · exact .inl ⟨slot, (held slot).mpr hd, by rw [hvoice]; exact same⟩
    · exact .inr (hends ▸ gone)

/-- A voice is released. -/
theorem releases (I : WatchInv orderly hears w) (S : SlotInv w.eng.tables)
    (V : VoiceInv w.host.session) {slot : Nat} {why : EndReason} (act : slot ∈ w.eng.activeList)
    (rel : (w.tenure slot).Releases why)
    (hist : w'.Follows { w with ends := w.ends ++ [(w.voice slot, why)] })
    (same : w.SameVoices w'.host)
    (hactive : w'.eng.activeList = w.eng.activeList.erase slot)
    (hqueue : activations w'.eng.commandQueue = activations w.eng.commandQueue)
    (hturn : ∀ s, s ≠ slot → w'.eng.turn s = w.eng.turn s)
    (hleases : w'.eng.leases = w.eng.leases) : WatchInv orderly hears w' := by
  obtain ⟨hblock, hlives, hbegan, hplayed, hheard, hends⟩ := hist
  obtain ⟨hspawned, hvoice⟩ : _ ∧ w'.voice = w.voice := ⟨same.spawned, same.occupant⟩
  dsimp only at hblock hlives hbegan hplayed hheard hends
  obtain ⟨lived, notEnded⟩ := I.active slot act
  have mem : ∀ s, s ∈ w'.eng.activeList ↔ s ≠ slot ∧ s ∈ w.eng.activeList := fun s => by
    rw [hactive]
    exact S.active_nodup.mem_erase_iff
  have held : ∀ s, w.Held s ↔ w'.Held s ∨ s = slot := fun s => by
    rw [Watch.Held, Watch.Held, mem, hqueue]
    by_cases e : s = slot
    · subst e
      simp [act]
    · simp [e]
  have untouched : ∀ {k}, k ≠ w.voice slot → w.Untouched orderly k → w'.Untouched orderly k :=
    fun off U => ⟨hplayed ▸ U.played, hheard ▸ U.heard, by
      simpa [hends, List.map_append, off] using U.ends⟩
  refine
    { lives := by rw [hlives, hspawned]; exact I.lives
      policy := fun s hs => ?_
      unborn := fun k hk => untouched (fun e => ?_) (I.unborn k (hlives ▸ hk))
      pending := fun h hh => ?_
      active := fun s hs => ?_
      ended := fun k why' hk => ?_
      once := ?_
      accounted := fun k hk => ?_ }
  · rw [hlives, hvoice, hleases]
    exact I.policy s ((held s).mpr (.inl hs))
  · have known := I.policy slot (.inl act)
    rw [← e, List.getElem?_eq_none (hlives ▸ hk)] at known
    cases known
  · rw [hqueue] at hh
    obtain ⟨U, zero⟩ := I.pending h hh
    rw [hvoice, hleases]
    refine ⟨untouched (fun same => ?_) U, zero⟩
    obtain rfl := voice_inj S V (.inr ⟨h, hh, rfl⟩) (.inl act) same
    exact (S.not_active_of_pending hh).1 act
  · obtain ⟨hne, hs⟩ := (mem s).mp hs
    obtain ⟨lived', notEnded'⟩ := I.active s hs
    have same : w'.tenure s = w.tenure s :=
      tenure_congr (hturn s hne) (congrFun hleases s) (congrFun hvoice s) hblock (by rw [hbegan])
        hplayed hheard
    have off : w.voice s ≠ w.voice slot := fun e => hne (voice_inj S V (.inl hs) (.inl act) e)
    refine ⟨same ▸ lived', ?_⟩
    rw [hvoice, hends, List.map_append]
    simpa [off] using notEnded'
  · rw [hends] at hk
    rcases List.mem_append.mp hk with old | new
    · obtain ⟨T, lived, rel, life, began, played, heard⟩ := I.ended k why' old
      exact ⟨T, lived, rel, hlives ▸ life, hbegan ▸ began, hplayed ▸ played, hheard ▸ heard⟩
    · obtain ⟨rfl, rfl⟩ := Prod.mk.inj (List.mem_singleton.mp new)
      exact ⟨w.tenure slot, lived, rel, hlives ▸ I.policy slot (.inl act), by rw [hbegan]; rfl,
        fun _ => by rw [hplayed]; rfl, by rw [hheard]; rfl⟩
  · rw [hends, List.map_append, List.nodup_append]
    refine ⟨I.once, List.nodup_singleton _, fun k hk k' hk' e => ?_⟩
    rw [e, List.mem_singleton.mp hk'] at hk
    exact notEnded hk
  · rw [hlives] at hk
    rw [hends, List.map_append]
    rcases I.accounted k hk with ⟨s, hd, same⟩ | gone
    · rcases (held s).mp hd with old | rfl
      · exact .inl ⟨s, old, by rw [hvoice]; exact same⟩
      · exact .inr (List.mem_append_right _ (by simp [same]))
    · exact .inr (List.mem_append_left _ gone)

end WatchInv

end Xrune
