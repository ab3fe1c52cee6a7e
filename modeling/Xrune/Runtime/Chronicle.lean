import Xrune.Engine.Mix
import Xrune.Runtime.Beats
import Xrune.Runtime.Lives
import Xrune.Runtime.Refs

/-!
# Runtime — what voices hear of each other

A chronicle is a watch with the story of each voice: the port writes it was spawned with, the
beats of its instance since, and the story so far at each of its lifetime checks.  A voice whose
blueprint has no input terminals is at every check the instance `spawn` built, after the story
so far (`Chronicle.told_of_reaches`): of the other voices, of the number of workers, and of the
order the threads ran in, nothing else is left in it.
-/

namespace Xrune

variable {α : Type}

/-- The ports as `spawn` writes them. -/
def GraphInstance.opened [Sample α] (g : GraphInstance α) (writes : List (InitialParam α)) :
    GraphInstance α :=
  writes.foldl (fun g ip => g.initParameter ip.node ip.param ip.value) g

structure Chronicle (α : Type) where
  watch : Watch α
  opening : List (List (InitialParam α))
  story : Nat → List (Beat α)
  scenes : Nat → List (List (Beat α))

/-- The port writes of the voice about to be created. -/
def Call.writes : Call α → List (InitialParam α)
  | .spawning plan => plan.init
  | _ => []

namespace Watch

variable [Sample α]

/-- The beats of a step of the host for the instance in a slot. -/
def slotBeats (w : Watch α) (slot : Nat) : HostAction α → List (Beat α)
  | .api (.audio b)  => w.eng.beats slot b
  | .raiseFinished v => w.eng.beats slot (.raiseFinished v.handle)
  | _ => []

/-- The beats of a step of the host for voice `k`. -/
def beats (w : Watch α) (k : Nat) (a : HostAction α) : List (Beat α) :=
  match w.host.session.spawned[k]? with
  | some v => if w.voice v.handle.slot = k then w.slotBeats v.handle.slot a else []
  | none   => []

end Watch

namespace Chronicle

abbrev host (c : Chronicle α) : Host α := c.watch.host

abbrev spawned (c : Chronicle α) : List Voice := c.host.session.spawned

def init (s : Session α) : Chronicle α := ⟨.init s, [], fun _ => [], fun _ => []⟩

section Step

variable [Sample α]

def step (c : Chronicle α) (a : HostAction α) : Option (Chronicle α) :=
  (c.watch.step a).map fun w =>
    { watch := w
      opening := c.opening ++ List.replicate
        (w.host.session.spawned.length - c.spawned.length) c.host.rt.call.writes
      story := fun k => c.story k ++ c.watch.beats k a
      scenes := fun k => c.scenes k ++ List.replicate
        ((w.heard k).length - (c.watch.heard k).length) (c.story k) }

/-- The instance voice `k` began as. -/
def debut (c : Chronicle α) (k : Nat) : Option (GraphInstance α) := do
  let v ← c.spawned[k]?
  let r ← c.host.rt.registry[v.blueprint]?
  let writes ← c.opening[k]?
  let g ← instantiate r.sched c.watch.eng.sampleRate
  some (g.opened writes)

end Step

end Chronicle

/-- The chronicles reached by steps whose hosts each meet `ok`. -/
def ChronicleReaches [Sample α] (cfg : EngineConfig) (voiceEndCb : Bool)
    (ok : Host α → HostAction α → Prop) (c : Chronicle α) : Prop :=
  ∃ s₀, Session.init cfg voiceEndCb = some s₀ ∧
    Reaches Chronicle.step (fun c a => ok c.host a) (.init s₀) c

theorem ChronicleReaches.watch [Sample α] {cfg : EngineConfig} {cb : Bool}
    {ok : Host α → HostAction α → Prop} {c : Chronicle α}
    (run : ChronicleReaches cfg cb ok c) : WatchReaches cfg cb ok c.watch := by
  obtain ⟨s₀, h₀, run⟩ := run
  refine ⟨s₀, h₀, ?_⟩
  induction run with
  | refl => exact .refl
  | tail run meets one ih =>
      obtain ⟨w, hw, rfl⟩ := Option.map_eq_some_iff.mp one
      exact .tail ih meets hw

/-! ### What a step leaves -/

namespace Host

variable [Sample α] {h h' : Host α} {a : HostAction α}

theorem spawned_of_step (one : h.step a = some h') :
    ∃ l, h'.session.spawned = h.session.spawned ++ l := by
  cases step_cases one with
  | api call => exact Session.spawned_of_step call
  | _ => exact ⟨[], (List.append_nil _).symm⟩

theorem setup_of_step (I : HostInv h) (one : h.step a = some h') :
    h'.rt.eng.setup = h.rt.eng.setup := by
  rcases I.engine_step one with same | ⟨b, hb, -⟩
  · rw [same]
  · exact Engine.setup_of_step hb

theorem sampleRate_of_step (I : HostInv h) (one : h.step a = some h') :
    h'.rt.eng.sampleRate = h.rt.eng.sampleRate := congrArg Prod.fst (setup_of_step I one)

end Host

/-! ### The voice in a slot -/

namespace Watch

variable {w w' : Watch α} {slot : Nat}

/-- A slot that is not free holds the voice spawned into it. -/
theorem occupied (V : VoiceInv w.host.session) (lt : slot < w.eng.mgr.capacity)
    (kept : slot ∉ w.eng.mgr.freeSlots) :
    ∃ v, w.host.session.spawned[w.voice slot]? = some v ∧ v.handle.slot = slot := by
  obtain ⟨v, hv, hh, -⟩ := V.occupied slot lt kept
  exact ⟨v, hv, congrArg InstanceHandle.slot hh⟩

/-- A voice in a slot that is not free is in the slot of its handle. -/
theorem voice_eq_iff (V : VoiceInv w.host.session) (lt : slot < w.eng.mgr.capacity)
    (kept : slot ∉ w.eng.mgr.freeSlots) {k : Nat} {v : Voice}
    (spawned : w.host.session.spawned[k]? = some v) :
    w.voice slot = k ↔ slot = v.handle.slot ∧ w.voice v.handle.slot = k := by
  constructor
  · rintro rfl
    obtain ⟨v', hv', rfl⟩ := occupied V lt kept
    obtain rfl := Option.some.inj (hv'.symm.trans spawned)
    exact ⟨rfl, rfl⟩
  · rintro ⟨rfl, h⟩
    exact h

variable [Sample α] {a : HostAction α}

theorem beats_voice (V : VoiceInv w.host.session) (lt : slot < w.eng.mgr.capacity)
    (kept : slot ∉ w.eng.mgr.freeSlots) : w.beats (w.voice slot) a = w.slotBeats slot a := by
  obtain ⟨v, hv, rfl⟩ := occupied V lt kept
  simp only [beats, hv, if_true]

/-- Voices are heard at the lifetime checks only. -/
theorem heard_of_step (one : w.step a = some w') (other : a ≠ .api (.audio .finish)) :
    w'.heard = w.heard := by
  obtain ⟨h, -, rfl⟩ := Option.map_eq_some_iff.mp one
  change (w.saw a h).heard = w.heard
  cases a with
  | resolve | set | raiseFinished => rfl
  | api b =>
      cases b with
      | register | spawn | request | pump | deliver | finishPump => rfl
      | advance =>
          simp only [saw]
          split <;> rfl
      | audio b =>
          cases b with
          | finish => exact absurd rfl other
          | drain | compute | work =>
              simp only [saw, observe]
              split <;> rfl
          | _ => rfl

theorem heard_of_finish (one : w.step (.api (.audio .finish)) = some w') :
    w'.heard = w.hears.heard := by
  obtain ⟨h, -, rfl⟩ := Option.map_eq_some_iff.mp one
  rfl

omit [Sample α] in
/-- The voice in an active slot is heard once. -/
theorem hears_active (S : SlotInv w.eng.tables) (V : VoiceInv w.host.session)
    (act : slot ∈ w.eng.activeList) : ∃ g, (w.eng.mgr.slots slot).inst = some g ∧
      w.hears.heard (w.voice slot) = w.heard (w.voice slot) ++ [(w.block, g)] := by
  have built := (S.built slot).mpr ⟨S.lt_of_active act, fun hf => S.not_active_of_free hf act⟩
  obtain ⟨g, hg⟩ := Option.isSome_iff_exists.mp built
  have hg : (w.eng.mgr.slots slot).inst = some g := hg
  have here : (w.eng.activeList.filter fun s => w.voice s = w.voice slot) = [slot] :=
    (WatchInv.filter_voice S V S.active_nodup (fun _ => id) act).trans (if_pos act)
  refine ⟨g, hg, ?_⟩
  dsimp only [hears]
  rw [here]
  simp only [List.filterMap_cons, hg, Option.map_some, List.filterMap_nil]

omit [Sample α] in
/-- A voice is heard once, or not at all. -/
theorem hears_voice (S : SlotInv w.eng.tables) (V : VoiceInv w.host.session) (k : Nat) :
    w.hears.heard k = w.heard k ∨ ∃ slot ∈ w.eng.activeList, w.voice slot = k ∧
      ∃ g, (w.eng.mgr.slots slot).inst = some g ∧
        w.hears.heard k = w.heard k ++ [(w.block, g)] := by
  by_cases off : ∀ slot ∈ w.eng.activeList, w.voice slot ≠ k
  · left
    simp [hears, WatchInv.filter_voice_nil (fun _ => id) off]
  · simp only [not_forall, not_not] at off
    obtain ⟨slot, act, rfl⟩ := off
    exact .inr ⟨slot, act, rfl, hears_active S V act⟩

end Watch

/-! ### What a step makes of a slot -/

namespace Engine

variable {e e' : Engine α}

theorem free_reclaimOne (S : SlotInv e.tables) {v : VoiceEnd} (ok : e.reclaimOne = some (v, e')) :
    e'.mgr.capacity = e.mgr.capacity ∧ e'.mgr.freeSlots = v.handle.slot :: e.mgr.freeSlots := by
  obtain ⟨ev, rest, hq, rfl, ht⟩ := tables_reclaimOne ok
  obtain ⟨-, -, hlt⟩ := S.not_active_of_ended (show ev ∈ e.tables.ended by simp [hq])
  have hshape : e'.mgr.shape = e.mgr.shape.recycle ev.slot := congrArg Tables.pool ht
  rw [PoolShape.recycle, if_neg (by exact not_le.mpr hlt)] at hshape
  exact ⟨congrArg PoolShape.capacity hshape, congrArg PoolShape.freeSlots hshape⟩

end Engine

namespace Watch

variable [Sample α] {w w' : Watch α} {a : HostAction α}

/-- The slot goes on with its voice: what became of its instance is told by the beats. -/
structure GoesOn (w : Watch α) (slot : Nat) (a : HostAction α) (h : Host α) : Prop where
  lt : slot < w.eng.mgr.capacity
  kept : slot ∉ w.eng.mgr.freeSlots
  voice : h.session.occupant slot = w.voice slot
  tells : w.eng.Closed slot → w.eng.Tells slot (w.slotBeats slot a) h.rt.eng

/-- The slot is given to a new voice. -/
structure Opens (w : Watch α) (slot : Nat) (h : Host α) (plan : SpawnPlan α)
    (g : GraphInstance α) : Prop where
  call : w.host.rt.call = .spawning plan
  spawned : ∃ hd, h.session.spawned = w.host.session.spawned ++ [⟨hd, plan.id⟩]
  voice : h.session.occupant slot = w.host.session.spawned.length
  built : instantiate plan.sched w.eng.sampleRate = some g
  inst : (h.rt.eng.mgr.slots slot).inst = some (g.opened plan.init)

/-- The engine's pool is as it was. -/
theorem GoesOn.of_shape {h : Host α} {slot : Nat}
    (shape : h.rt.eng.mgr.shape = w.eng.mgr.shape) (voice : h.session.occupant = w.voice)
    (tells : w.eng.Closed slot → w.eng.Tells slot (w.slotBeats slot a) h.rt.eng)
    (lt : slot < h.rt.eng.mgr.capacity) (kept : slot ∉ h.rt.eng.mgr.freeSlots) :
    w.GoesOn slot a h := by
  have cap : h.rt.eng.mgr.capacity = w.eng.mgr.capacity := congrArg PoolShape.capacity shape
  have free : h.rt.eng.mgr.freeSlots = w.eng.mgr.freeSlots := congrArg PoolShape.freeSlots shape
  exact ⟨cap ▸ lt, free ▸ kept, congrFun voice slot, tells⟩

/-- A voice is created. -/
theorem opens_of_created {s : Session α} {plan : SpawnPlan α} {hd : InstanceHandle}
    (H : HostInv w.host) (call : w.host.rt.call = .spawning plan)
    (ok : w.eng.create plan.sched plan.life plan.init = some (hd, s.rt.eng))
    (hs : s = { w.host.session.observe (.spawned ⟨hd, plan.id⟩) with rt := s.rt }) :
    (∃ g, w.Opens hd.slot { w.host with session := s } plan g) ∧
      ∀ slot, slot ≠ hd.slot → s.occupant slot = w.voice slot := by
  obtain ⟨fresh, -, -⟩ := H.runtime.created call ok
  obtain ⟨grown, placed⟩ := w.host.session.observe_spawned_valid (v := ⟨hd, plan.id⟩) fresh
  have spawned : s.spawned = w.host.session.spawned ++ [⟨hd, plan.id⟩] := by
    rw [hs]
    exact grown
  have occupant : s.occupant
      = Function.update w.voice hd.slot w.host.session.spawned.length := by rw [hs]; exact placed
  obtain ⟨⟨g, built, here⟩, -⟩ := Engine.inst_create ok
  refine ⟨⟨g, call, ⟨hd, spawned⟩, ?_, built, here⟩, fun slot hne => ?_⟩
  · exact (congrFun occupant _).trans (Function.update_self ..)
  · exact (congrFun occupant slot).trans (Function.update_of_ne hne ..)

/-- No voice is spawned, or one. -/
theorem spawns_of_step (H : HostInv w.host) {h : Host α} (one : w.host.step a = some h) :
    h.session.spawned = w.host.session.spawned ∨ ∃ slot plan g, w.Opens slot h plan g := by
  cases Host.step_cases one with
  | resolved | unresolved | sets | refused | raises => exact .inl rfl
  | @api b s calls =>
      obtain ⟨-, out, stepped, hs⟩ := Session.step_cases calls
      have hspawned : s.spawned = ((w.host.session.observeEnd b).observe out).spawned := by rw [hs]
      generalize hrt : s.rt = rt' at stepped
      cases stepped with
      | @spawnCreates plan hd eng call drained ok =>
          have heng : s.rt.eng = eng := congrArg Runtime.eng hrt
          obtain ⟨opens, -⟩ := opens_of_created H call (heng ▸ ok) hs
          exact .inr ⟨hd.slot, plan, opens⟩
      | @audio b eng thread ok =>
          exact .inl (hspawned.trans (Session.observeEnd_spawned w.host.session (.audio b)))
      | _ => exact .inl hspawned

/-- **A slot that is not free** goes on with its voice, or a voice has just been spawned into
it. -/
theorem slot_of_step (H : HostInv w.host) {h : Host α} (one : w.host.step a = some h) {slot : Nat}
    (lt : slot < h.rt.eng.mgr.capacity) (kept : slot ∉ h.rt.eng.mgr.freeSlots) :
    w.GoesOn slot a h ∨ ∃ plan g, w.Opens slot h plan g := by
  cases Host.step_cases one with
  | resolved | unresolved | sets | refused =>
      exact .inl (.of_shape rfl rfl (fun _ => .refl rfl) lt kept)
  | @raises v eng ok =>
      obtain ⟨ht, -⟩ := HostInv.raises ok
      exact .inl (.of_shape (congrArg Tables.pool ht) rfl
        (fun _ => Engine.tells_raiseFinished ok) lt kept)
  | @api b s calls =>
      obtain ⟨-, out, stepped, hs⟩ := Session.step_cases calls
      have hspawned : s.spawned = ((w.host.session.observeEnd b).observe out).spawned := by rw [hs]
      have hvoice : s.occupant = ((w.host.session.observeEnd b).observe out).occupant := by rw [hs]
      have reclaimed : ∀ {v : VoiceEnd}, w.eng.reclaimOne = some (v, s.rt.eng) →
          b = .advance → s.occupant = w.voice →
            w.GoesOn slot (.api b) { w.host with session := s } := by
        rintro v ok rfl voice
        obtain ⟨cap, free⟩ := Engine.free_reclaimOne H.runtime.engine.slots ok
        have kept : slot ∉ s.rt.eng.mgr.freeSlots := kept
        rw [free, List.mem_cons, not_or] at kept
        exact ⟨cap ▸ lt, kept.2, congrFun voice slot,
          fun _ => .refl (Engine.inst_reclaimOne ok kept.1)⟩
      have still : s.rt.eng.mgr = w.eng.mgr → w.slotBeats slot (.api b) = [] →
          s.occupant = w.voice → w.GoesOn slot (.api b) { w.host with session := s } := by
        intro mgr quiet voice
        refine .of_shape (congrArg InstanceManager.shape mgr) voice (fun _ => ?_) lt kept
        rw [quiet]
        exact .refl (congrArg (fun m => (m.slots slot).inst) mgr)
      generalize hrt : s.rt = rt' at stepped
      cases stepped with
      | register | spawnRefused | spawn | requestRefused | request | pump | spawnFull | sent
      | collected | deliver | finishPump =>
          exact .inl (still (by rw [hrt]) rfl hvoice)
      | send call => exact .inl (still (by rw [hrt]; rfl) rfl hvoice)
      | spawnReclaims call ok | collects call ok cb | discards call ok cb =>
          exact .inl (reclaimed (by rw [hrt]; exact ok) rfl hvoice)
      | @audio b eng thread ok =>
          have heng : s.rt.eng = eng := congrArg Runtime.eng hrt
          refine .inl (.of_shape ?_ (hvoice.trans ?_) (fun closed => ?_) lt kept)
          · exact (congrArg (fun e : Engine α => e.mgr.shape) heng).trans
              (Engine.shape_of_audio thread ok)
          · exact Session.observeEnd_occupant w.host.session (.audio b)
          · exact heng ▸ Engine.tells_of_audio closed thread ok
      | @spawnCreates plan hd eng call drained ok =>
          have heng : s.rt.eng = eng := congrArg Runtime.eng hrt
          obtain ⟨⟨g, opens⟩, others⟩ := opens_of_created H call (heng ▸ ok) hs
          by_cases hne : slot = hd.slot
          · exact .inr ⟨plan, g, hne ▸ opens⟩
          · obtain ⟨-, there⟩ := Engine.inst_create ok
            obtain ⟨idx, rest, free, rfl, ht⟩ := Engine.tables_create ok
            have cap : s.rt.eng.mgr.capacity = w.eng.mgr.capacity :=
              heng ▸ congrArg (fun T => T.pool.capacity) ht
            have left : s.rt.eng.mgr.freeSlots = rest :=
              heng ▸ congrArg (fun T => T.pool.freeSlots) ht
            refine .inl ⟨cap ▸ lt, fun hm => kept ?_, others slot hne, fun _ => .refl ?_⟩
            · have hm : slot ∈ idx :: rest := free ▸ hm
              exact left ▸ (List.mem_cons.mp hm).resolve_left hne
            · exact heng ▸ there slot hne

end Watch

/-! ### The voices of a chronicle -/

namespace Chronicle

structure Told [Sample α] (c : Chronicle α) : Prop where
  numbered : c.opening.length = c.spawned.length
  unborn : ∀ k, c.spawned.length ≤ k → c.story k = []
  planned : ∀ plan, c.host.rt.call = .spawning plan →
    ∃ r, c.host.rt.registry[plan.id]? = some r ∧ r.sched = plan.sched
  born : ∀ k < c.spawned.length, ∃ g, c.debut k = some g
  slots : ∀ slot < c.watch.eng.mgr.capacity, slot ∉ c.watch.eng.mgr.freeSlots → ∀ g,
    c.debut (c.watch.voice slot) = some g → g.Closed →
      (c.watch.eng.mgr.slots slot).inst = some (g.after (c.story (c.watch.voice slot)))
  scenes : ∀ k, (c.scenes k).length = (c.watch.heard k).length ∧ ∀ g, c.debut k = some g →
    g.Closed → (c.watch.heard k).map Prod.snd = (c.scenes k).map g.after

section Steps

variable [Sample α] {c c' : Chronicle α} {a : HostAction α}

/-- What a step of the host is to a chronicle. -/
theorem step_cases (one : c.step a = some c') : c.watch.step a = some c'.watch ∧
    c'.opening = c.opening ++ List.replicate (c'.spawned.length - c.spawned.length)
      c.host.rt.call.writes ∧
    (∀ k, c'.story k = c.story k ++ c.watch.beats k a) ∧
    ∀ k, c'.scenes k = c.scenes k ++ List.replicate
      ((c'.watch.heard k).length - (c.watch.heard k).length) (c.story k) := by
  obtain ⟨w, hw, rfl⟩ := Option.map_eq_some_iff.mp one
  exact ⟨hw, rfl, fun _ => rfl, fun _ => rfl⟩

theorem host_of_step (one : c.step a = some c') : c.host.step a = some c'.host := by
  obtain ⟨h, hh, e⟩ := Option.map_eq_some_iff.mp (step_cases one).1
  rw [hh]
  exact congrArg (fun w : Watch α => some w.host) e

/-- A voice keeps what it began as. -/
theorem debut_of_step (H : HostInv c.host) (one : c.step a = some c') {k : Nat}
    {g : GraphInstance α} (h : c.debut k = some g) : c'.debut k = some g := by
  have host := host_of_step one
  obtain ⟨-, hopening, -, -⟩ := step_cases one
  obtain ⟨l, hl⟩ : ∃ l, c'.spawned = c.spawned ++ l := Host.spawned_of_step host
  simp only [debut, Option.bind_eq_some_iff, Option.some.injEq, Option.bind_eq_bind] at h ⊢
  obtain ⟨v, hv, r, hr, writes, hw, g₀, hg, rfl⟩ := h
  refine ⟨v, ?_, r, Host.registry_of_step host hr, writes, ?_, g₀, ?_, rfl⟩
  · rw [hl, List.getElem?_append_left (List.getElem?_eq_some_iff.mp hv).1, hv]
  · rw [hopening, List.getElem?_append_left (List.getElem?_eq_some_iff.mp hw).1, hw]
  · rw [← hg]
    exact congrArg (instantiate r.sched) (Host.sampleRate_of_step H host)

/-- A plan is of a registered blueprint. -/
theorem planned_of_step (T : c.Told) (one : c.step a = some c') :
    ∀ plan, c'.host.rt.call = .spawning plan →
      ∃ r, c'.host.rt.registry[plan.id]? = some r ∧ r.sched = plan.sched := by
  have host := host_of_step one
  have stays : ∀ {plan : SpawnPlan α},
      (∃ r, c.host.rt.registry[plan.id]? = some r ∧ r.sched = plan.sched) →
        ∃ r, c'.host.rt.registry[plan.id]? = some r ∧ r.sched = plan.sched :=
    fun ⟨r, hr, same⟩ => ⟨r, Host.registry_of_step host hr, same⟩
  intro plan call
  refine stays ?_
  generalize c'.host = h at host call
  cases Host.step_cases host with
  | resolved | unresolved | refused | raises => exact T.planned plan call
  | sets => cases call
  | @api b s calls =>
      obtain ⟨-, out, stepped, -⟩ := Session.step_cases calls
      have call : s.rt.call = .spawning plan := call
      generalize s.rt = rt' at stepped call
      cases stepped with
      | @spawn id opt plan' may ok =>
          obtain rfl := Call.spawning.inj call
          exact Runtime.planSpawn_sched ok
      | request | pump | spawnFull | spawnCreates | sent | send | collected => cases call
      | register | spawnRefused | requestRefused | spawnReclaims | collects | discards | deliver
      | finishPump | audio => exact T.planned plan call

/-- A voice that was there began as what it is said to have begun as. -/
theorem Told.debut_back (T : c.Told) (H : HostInv c.host) (one : c.step a = some c') {k : Nat}
    (old : k < c.spawned.length) {g : GraphInstance α} (h : c'.debut k = some g) :
    c.debut k = some g := by
  obtain ⟨g₀, hg₀⟩ := T.born k old
  rw [hg₀, ← h, debut_of_step H one hg₀]

/-- The numbers of the voices grow. -/
theorem spawned_of_step (one : c.step a = some c') : ∃ l, c'.spawned = c.spawned ++ l :=
  Host.spawned_of_step (host_of_step one)

/-- The voice that is spawned began as the instance that was built. -/
theorem Told.opens (T : c.Told) (H : HostInv c.host) (one : c.step a = some c') {slot : Nat}
    {plan : SpawnPlan α} {g : GraphInstance α} (O : c.watch.Opens slot c'.host plan g) :
    c'.spawned.length = c.spawned.length + 1 ∧
      c'.debut c.spawned.length = some (g.opened plan.init) := by
  obtain ⟨hd, grown⟩ := O.spawned
  have grown : c'.spawned = c.spawned ++ [⟨hd, plan.id⟩] := grown
  obtain ⟨-, hopening, -, -⟩ := step_cases one
  have one_more : c'.spawned.length = c.spawned.length + 1 := by
    rw [grown, List.length_append, List.length_singleton]
  rw [one_more, Nat.add_sub_cancel_left] at hopening
  have writes : c.host.rt.call.writes = plan.init := congrArg Call.writes O.call
  obtain ⟨r, hr, sched⟩ := T.planned plan O.call
  refine ⟨one_more, ?_⟩
  simp only [debut, Option.bind_eq_some_iff, Option.some.injEq, Option.bind_eq_bind]
  refine ⟨⟨hd, plan.id⟩, ?_, r, Host.registry_of_step (host_of_step one) hr, plan.init, ?_,
    g, ?_, rfl⟩
  · rw [grown, List.getElem?_concat_length]
  · rw [hopening, ← T.numbered, writes]
    exact List.getElem?_concat_length ..
  · rw [sched, ← O.built]
    exact congrArg (instantiate plan.sched) (Host.sampleRate_of_step H (host_of_step one))

theorem Told.step (T : c.Told) (H : HostInv c.host)
    (W : WatchInv False (fun _ _ _ => True) c.watch) (one : c.step a = some c') : c'.Told := by
  have host := host_of_step one
  obtain ⟨watch, hopening, hstory, hscenes⟩ := step_cases one
  obtain ⟨l, grown⟩ := spawned_of_step one
  have S := H.runtime.engine.slots
  have unborn : ∀ k, c.spawned.length ≤ k → c'.story k = [] := fun k hk => by
    rw [hstory, T.unborn k hk, Watch.beats, List.getElem?_eq_none hk, List.append_nil]
  refine
    { numbered := ?_
      unborn := fun k hk => unborn k (le_trans ?_ hk)
      planned := planned_of_step T one
      born := fun k hk => ?_
      slots := fun slot lt kept => ?_
      scenes := fun k => ?_ }
  · rw [hopening, List.length_append, List.length_replicate, T.numbered, grown,
      List.length_append, Nat.add_sub_cancel_left]
  · rw [grown, List.length_append]
    exact Nat.le_add_right ..
  · by_cases old : k < c.spawned.length
    · obtain ⟨g, hg⟩ := T.born k old
      exact ⟨g, debut_of_step H one hg⟩
    · rcases Watch.spawns_of_step H host with same | ⟨slot, plan, g, O⟩
      · have same : c'.spawned = c.spawned := same
        exact absurd (same ▸ hk) old
      · obtain ⟨more, began⟩ := T.opens H one O
        obtain rfl : k = c.spawned.length := by omega
        exact ⟨_, began⟩
  · intro g hg closed
    rcases Watch.slot_of_step H host lt kept with G | ⟨plan, g₀, O⟩
    · have voice : c'.watch.voice slot = c.watch.voice slot := G.voice
      obtain ⟨v, hv, -⟩ := Watch.occupied H.voices G.lt G.kept
      rw [voice] at hg ⊢
      have hg := T.debut_back H one (List.getElem?_eq_some_iff.mp hv).1 hg
      have inst := T.slots slot G.lt G.kept g hg closed
      have told := G.tells fun g' hg' => by
        rw [inst] at hg'
        exact Option.some.inj hg' ▸ closed.after _
      rw [Engine.Tells, inst, Option.map_some] at told
      rw [hstory, Watch.beats_voice H.voices G.lt G.kept, GraphInstance.after_append]
      exact told
    · have voice : c'.watch.voice slot = c.spawned.length := O.voice
      rw [voice] at hg ⊢
      rw [(T.opens H one O).2] at hg
      obtain rfl := Option.some.inj hg
      rw [unborn _ le_rfl]
      exact O.inst
  · have len := (T.scenes k).1
    -- what was heard at this step, if anything
    have heard : c'.watch.heard k = c.watch.heard k ∨
        ∃ slot ∈ c.watch.eng.activeList, c.watch.voice slot = k ∧ ∃ g,
          (c.watch.eng.mgr.slots slot).inst = some g ∧
            c'.watch.heard k = c.watch.heard k ++ [(c.watch.block, g)] := by
      by_cases checks : a = .api (.audio .finish)
      · subst checks
        rw [Watch.heard_of_finish watch]
        exact Watch.hears_voice S H.voices k
      · exact .inl (congrFun (Watch.heard_of_step watch checks) k)
    rcases heard with same | ⟨slot, act, rfl, g', hg', more⟩
    · have scenes : c'.scenes k = c.scenes k := by
        rw [hscenes, same, Nat.sub_self, List.replicate_zero, List.append_nil]
      rw [scenes, same]
      refine ⟨len, fun g hg closed => ?_⟩
      by_cases old : k < c.spawned.length
      · exact (T.scenes k).2 g (T.debut_back H one old hg) closed
      · have silent : c.watch.heard k = [] :=
          (W.unborn k (by rw [W.lives]; exact not_lt.mp old)).heard
        rw [silent, List.length_nil, List.length_eq_zero_iff] at len
        rw [silent, len]
        rfl
    · have scenes : c'.scenes (c.watch.voice slot)
          = c.scenes (c.watch.voice slot) ++ [c.story (c.watch.voice slot)] := by
        rw [hscenes, more, List.length_append, Nat.add_sub_cancel_left]
        rfl
      have lt := S.lt_of_active act
      have kept : slot ∉ c.watch.eng.mgr.freeSlots := fun hf => S.not_active_of_free hf act
      obtain ⟨v, hv, -⟩ := Watch.occupied H.voices lt kept
      rw [scenes, more]
      refine ⟨by rw [List.length_append, List.length_append, len]; rfl, fun g hg closed => ?_⟩
      have hg := T.debut_back H one (List.getElem?_eq_some_iff.mp hv).1 hg
      have here := T.slots slot lt kept g hg closed
      obtain rfl := Option.some.inj (hg'.symm.trans here)
      rw [List.map_append, List.map_append, (T.scenes _).2 g hg closed]
      rfl

theorem told_init {cfg : EngineConfig} {cb : Bool} {s : Session α}
    (h : Session.init cfg cb = some s) : (Chronicle.init s).Told := by
  obtain ⟨rt, hrt, rfl⟩ := Option.map_eq_some_iff.mp h
  obtain ⟨e, he, rfl⟩ := Option.map_eq_some_iff.mp hrt
  unfold Engine.init at he
  split at he
  · cases he
  · obtain rfl := Option.some.inj he
    exact
      { numbered := rfl
        unborn := fun _ _ => rfl
        planned := fun plan call => by cases call
        born := fun k hk => absurd hk (Nat.not_lt_zero k)
        slots := fun slot lt kept => absurd (List.mem_range.mpr lt) kept
        scenes := fun k => ⟨rfl, fun _ _ _ => rfl⟩ }

end Steps

section Reached

variable [Sample α] {cfg : EngineConfig} {cb : Bool} {ok : Host α → HostAction α → Prop}
  {c : Chronicle α}

/-- **What is heard of a voice without input terminals** is what its story makes of it. -/
theorem told_of_reaches (run : ChronicleReaches cfg cb ok c) : c.Told := by
  obtain ⟨s₀, h₀, run⟩ := run
  induction run with
  | refl => exact told_init h₀
  | tail run meets one ih =>
      have watch : WatchReaches cfg cb ok _ := ChronicleReaches.watch ⟨s₀, h₀, run⟩
      exact ih.step (hostInv_of_reaches watch.host)
        (watchInv_of_reaches (fun o => o.elim) (fun _ _ _ _ _ _ _ _ => trivial) watch) one

end Reached

end Chronicle

end Xrune
