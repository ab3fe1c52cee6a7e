import Xrune.Support.Dataflow
import Xrune.Engine.Order

/-!
# Engine — tasks and the slots they read

`execute_instance_task(slot)`, up to where it releases the slots it feeds, is a task on the slot
table: it writes `slot`, and reads it and the slots at the far ends of the live routes into it.
So are its parts, the zeroing of the input terminals, the turns of `gather_inputs` and
`process()`.  `compute_sequential` is these tasks in the order of `compute_order`, so in an
acyclic graph each slot ends with what its own task makes of it when the slots that feed it are
as they end (`Engine.computeSequential_settled`).
-/

namespace Xrune

variable {α : Type}

/-! ### Slot tables alike -/

namespace InstanceManager

variable {m m' : InstanceManager α} {P : Nat → Prop}

/-- The slots with `P` are the same. -/
structure Alike (P : Nat → Prop) (m m' : InstanceManager α) : Prop where
  capacity : m'.capacity = m.capacity
  slots : ∀ u, P u → m'.slots u = m.slots u

namespace Alike

theorem instanceAt (A : Alike P m m') {u : Nat} (hu : P u) : m'.instanceAt u = m.instanceAt u := by
  simp only [InstanceManager.instanceAt, A.capacity, A.slots u hu]

theorem modifyInst (A : Alike P m m') (slot : Nat) (f : GraphInstance α → GraphInstance α) :
    Alike P (m.modifyInst slot f) (m'.modifyInst slot f) where
  capacity := A.capacity
  slots u hu := by
    by_cases hs : u = slot
    · subst hs
      simp only [InstanceManager.modifyInst, Function.update_self, A.slots u hu]
    · simpa only [InstanceManager.modifyInst, Function.update_of_ne hs] using A.slots u hu

variable [Sample α]

theorem readAt (A : Alike P m m') {u : Nat} (hu : P u) (v : BufferView) (i : Nat) :
    m'.readAt u v i = m.readAt u v i := by
  simp only [InstanceManager.readAt, A.instanceAt hu]

theorem addSample (A : Alike P m m') {src dst : Nat} (hsrc : P src) (hdst : P dst)
    (sv dv : BufferView) (i : Nat) :
    Alike P (m.addSample src sv dst dv i) (m'.addSample src sv dst dv i) := by
  simp only [InstanceManager.addSample, A.readAt hsrc, A.readAt hdst]
  exact A.modifyInst dst _

theorem sumTerminalToInstance (A : Alike P m m') {src dst : Nat} (hsrc : P src) (hdst : P dst)
    (srcT dstT nf : Nat) :
    Alike P (m.sumTerminalToInstance src srcT dst dstT nf)
      (m'.sumTerminalToInstance src srcT dst dstT nf) := by
  unfold InstanceManager.sumTerminalToInstance
  rw [A.instanceAt hsrc, A.instanceAt hdst]
  split
  next gs gd _ _ =>
    refine List.foldl_rel A fun c _ m₁ m₂ A₁ => ?_
    exact List.foldl_rel A₁ fun i _ m₃ m₄ A₂ => A₂.addSample hsrc hdst _ _ i
  · exact A

end Alike

theorem slots_modifyInst_ne (m : InstanceManager α) {slot u : Nat} (hu : u ≠ slot)
    (f : GraphInstance α → GraphInstance α) : (m.modifyInst slot f).slots u = m.slots u :=
  Function.update_of_ne hu _ _

theorem slots_sumTerminalToInstance_ne [Sample α] (m : InstanceManager α) {dst u : Nat}
    (hu : u ≠ dst) (src srcT dstT nf : Nat) :
    (m.sumTerminalToInstance src srcT dst dstT nf).slots u = m.slots u := by
  unfold sumTerminalToInstance
  split
  · refine foldl_keeps (fun m => m.slots u) (fun m c => ?_) _ m
    exact foldl_keeps (fun m => m.slots u) (fun m i => m.slots_modifyInst_ne hu _) _ m
  · rfl

/-- Of the pool `sum_terminal_to_instance` changes the slot table. -/
theorem sumTerminalToInstance_keeps [Sample α] (m : InstanceManager α)
    (src srcT dst dstT nf : Nat) (s : Slots α) :
    { m.sumTerminalToInstance src srcT dst dstT nf with slots := s } = { m with slots := s } := by
  let rest := fun m : InstanceManager α => { m with slots := s }
  change rest _ = rest m
  unfold sumTerminalToInstance
  split
  · refine foldl_keeps rest (fun m c => ?_) _ m
    exact foldl_keeps rest (fun m i => (rfl : rest (m.addSample _ _ _ _ i) = rest m)) _ m
  · rfl

end InstanceManager

/-! ### The executors on the slot table -/

namespace Engine

/-- The engine with this slot table. -/
def withSlots (e : Engine α) (s : Slots α) : Engine α :=
  { e with mgr := { e.mgr with slots := s } }

/-- What a part of the executors makes of a slot table. -/
def onSlots (e : Engine α) (f : Engine α → Engine α) (s : Slots α) : Slots α :=
  (f (e.withSlots s)).mgr.slots

/-- What a block's tasks read beside the slots is the same: the routing graph, the number of
frames, and the master. -/
structure SameBlock (e e' : Engine α) : Prop extends SameGraph e e' where
  parallelNf : e'.parallelNf = e.parallelNf
  outputChannels : e'.outputChannels = e.outputChannels
  masterBuffers : e'.masterBuffers = e.masterBuffers

theorem SameBlock.withSlots (e : Engine α) (s : Slots α) : e.SameBlock (e.withSlots s) :=
  ⟨⟨rfl, rfl, rfl, rfl⟩, rfl, rfl, rfl⟩

theorem SameBlock.trans {e₁ e₂ e₃ : Engine α} (h : e₁.SameBlock e₂) (h' : e₂.SameBlock e₃) :
    e₁.SameBlock e₃ :=
  ⟨⟨h'.capacity.trans h.capacity, h'.activeGen.trans h.activeGen,
    h'.activeList.trans h.activeList, h'.routes.trans h.routes⟩,
    h'.parallelNf.trans h.parallelNf, h'.outputChannels.trans h.outputChannels,
    h'.masterBuffers.trans h.masterBuffers⟩

variable [Sample α] {e e' : Engine α} {v : Nat} {r : ActiveRoute}

/-! The parts of a task change the slot table only. -/

theorem zeroInputs_eq (e : Engine α) (v : Nat) :
    e.zeroInputs v = e.withSlots (e.onSlots (zeroInputs · v) e.mgr.slots) := rfl

theorem processSlot_eq (e : Engine α) (v : Nat) :
    e.processSlot v = e.withSlots (e.onSlots (processSlot · v) e.mgr.slots) := rfl

theorem gatherRoute_eq (e : Engine α) (v : Nat) (r : ActiveRoute) :
    e.gatherRoute v r = e.withSlots (e.onSlots (gatherRoute · v r) e.mgr.slots) := by
  change e.gatherRoute v r = e.withSlots (e.gatherRoute v r).mgr.slots
  unfold gatherRoute
  split
  · rfl
  · exact congrArg (fun m => { e with mgr := m })
      (e.mgr.sumTerminalToInstance_keeps r.srcSlot r.srcTerminal v r.dstTerminal e.parallelNf _)

/-! In one block they do to a slot table what they do to it in another state of the block. -/

theorem SameBlock.zeroInputs (H : e.SameBlock e') (v : Nat) :
    (e'.zeroInputs v).mgr.slots = e.onSlots (Engine.zeroInputs · v) e'.mgr.slots := by
  simp only [Engine.zeroInputs, onSlots, Engine.withSlots, H.parallelNf]
  rfl

theorem SameBlock.processSlot (_ : e.SameBlock e') (v : Nat) :
    (e'.processSlot v).mgr.slots = e.onSlots (Engine.processSlot · v) e'.mgr.slots := rfl

theorem SameBlock.gatherRoute (H : e.SameBlock e') (v : Nat) (r : ActiveRoute) :
    (e'.gatherRoute v r).mgr.slots = e.onSlots (Engine.gatherRoute · v r) e'.mgr.slots := by
  have hlive : (e.withSlots e'.mgr.slots).routeLive r = e'.routeLive r := (H.routeLive r).symm
  simp only [onSlots, Engine.gatherRoute, hlive]
  split
  · rfl
  · have A : InstanceManager.Alike (fun _ => True) (e.withSlots e'.mgr.slots).mgr e'.mgr :=
      ⟨H.capacity, fun _ _ => rfl⟩
    funext u
    rw [H.parallelNf]
    exact (A.sumTerminalToInstance trivial trivial _ _ _).slots u trivial

/-! They write the task's slot and read it and the slots that feed it. -/

/-- The slots that feed `v`. -/
def feeders (e : Engine α) (v : Nat) : Set Nat := { u | (u, v) ∈ e.edges }

theorem local_zeroInputs (e : Engine α) (v : Nat) :
    Local v (e.feeders v) (e.onSlots (zeroInputs · v)) where
  frame s u hu := (e.withSlots s).mgr.slots_modifyInst_ne hu _
  congr s s' hv _ := by
    simp only [onSlots, zeroInputs, withSlots, InstanceManager.zeroInputTerminals,
      InstanceManager.modifyInst, Function.update_self, hv]

theorem local_processSlot (e : Engine α) (v : Nat) :
    Local v (e.feeders v) (e.onSlots (processSlot · v)) where
  frame s u hu := (e.withSlots s).mgr.slots_modifyInst_ne hu _
  congr s s' hv _ := by
    simp only [onSlots, processSlot, withSlots, InstanceManager.modifyInst, Function.update_self,
      hv]

theorem slots_gatherRoute_ne (e : Engine α) (v : Nat) (r : ActiveRoute) {u : Nat} (hu : u ≠ v) :
    (e.gatherRoute v r).mgr.slots u = e.mgr.slots u := by
  unfold gatherRoute
  split
  · rfl
  · exact e.mgr.slots_sumTerminalToInstance_ne hu _ _ _ _

theorem local_gatherRoute (e : Engine α) (v : Nat) (hr : r ∈ e.routes) :
    Local v (e.feeders v) (e.onSlots (gatherRoute · v r)) where
  frame s u hu := (e.withSlots s).slots_gatherRoute_ne v r hu
  congr s s' hv hR := by
    have hlive : ∀ s, (e.withSlots s).routeLive r = e.routeLive r := fun _ => rfl
    simp only [onSlots, gatherRoute, hlive]
    split
    · exact hv
    next h =>
      simp only [not_or, Bool.not_eq_true, not_not, Bool.not_eq_false'] at h
      obtain ⟨hm, hdst, hl⟩ := h
      have hedge : r.srcSlot ∈ e.feeders v :=
        mem_edges.mpr ⟨r, hr, by simp [feeds, hm, hl], rfl, hdst⟩
      have A : InstanceManager.Alike (fun u => u = v ∨ u ∈ e.feeders v) (e.withSlots s').mgr
          (e.withSlots s).mgr := by
        refine ⟨rfl, fun u hu => ?_⟩
        rcases hu with rfl | hu
        · exact hv
        · exact hR u hu
      exact (A.sumTerminalToInstance (.inr hedge) (.inl rfl) _ _ _).slots v (.inl rfl)

/-! ### Whole tasks -/

omit [Sample α] in
/-- A loop of parts that change the slot table only is a loop over slot tables. -/
theorem foldl_onSlots {κ : Type} {f : Engine α → κ → Engine α}
    (h : ∀ e k, f e k = e.withSlots (e.onSlots (f · k) e.mgr.slots)) (l : List κ) (e : Engine α) :
    l.foldl f e = e.withSlots (l.foldl (fun s k => e.onSlots (f · k) s) e.mgr.slots) := by
  induction l generalizing e with
  | nil => rfl
  | cons k l ih =>
      rw [List.foldl_cons, ih, h e k]
      rfl

/-- A slot table after the task of `v` has zeroed the input terminals and gathered along the
routes `done`. -/
def gathered (e : Engine α) (v : Nat) (done : List ActiveRoute) (s : Slots α) : Slots α :=
  done.foldl (fun s r => e.onSlots (gatherRoute · v r) s) (e.onSlots (zeroInputs · v) s)

theorem gatherInputs_eq (e : Engine α) (v : Nat) :
    e.gatherInputs v = e.withSlots (e.gathered v e.routes e.mgr.slots) :=
  foldl_onSlots (fun e r => e.gatherRoute_eq v r) e.routes (e.zeroInputs v)

/-- The task of `v` is its inputs gathered along all the routes, and processed. -/
theorem onSlots_executeSlot (e : Engine α) (v : Nat) (s : Slots α) :
    e.onSlots (executeSlot · v) s = e.onSlots (processSlot · v) (e.gathered v e.routes s) := by
  change (((e.withSlots s).gatherInputs v).processSlot v).mgr.slots = _
  rw [gatherInputs_eq]
  rfl

theorem executeSlot_eq (e : Engine α) (v : Nat) :
    e.executeSlot v = e.withSlots (e.onSlots (executeSlot · v) e.mgr.slots) := by
  rw [onSlots_executeSlot, executeSlot, gatherInputs_eq]
  rfl

theorem SameBlock.onSlots_executeSlot (H : e.SameBlock e') (v : Nat) (s : Slots α) :
    e'.onSlots (Engine.executeSlot · v) s = e.onSlots (Engine.executeSlot · v) s := by
  have HS : e.SameBlock (e'.withSlots s) := H.trans (.withSlots e' s)
  have hzero : e'.onSlots (Engine.zeroInputs · v) s = e.onSlots (Engine.zeroInputs · v) s :=
    HS.zeroInputs v
  have hgather : ∀ s r, e'.onSlots (Engine.gatherRoute · v r) s
      = e.onSlots (Engine.gatherRoute · v r) s := fun s r =>
    (H.trans (.withSlots e' s)).gatherRoute v r
  rw [Engine.onSlots_executeSlot, Engine.onSlots_executeSlot]
  simp only [gathered, hzero, hgather, H.routes]
  rfl

theorem local_gathered (e : Engine α) (v : Nat) {done : List ActiveRoute}
    (sub : ∀ r ∈ done, r ∈ e.routes) : Local v (e.feeders v) (e.gathered v done) :=
  (Local.foldl done fun r hr => e.local_gatherRoute v (sub r hr)).comp (e.local_zeroInputs v)

theorem local_executeSlot (e : Engine α) (v : Nat) :
    Local v (e.feeders v) (e.onSlots (executeSlot · v)) := by
  rw [funext (e.onSlots_executeSlot v)]
  exact (e.local_processSlot v).comp (e.local_gathered v fun _ hr => hr)

/-! ### The sequential execution -/

theorem computeSequential_eq (e : Engine α) :
    e.computeSequential = { e with indegScratch := e.computeOrder.2 }.withSlots
      (e.computeOrder.1.foldl (fun s v => e.onSlots (executeSlot · v) s) e.mgr.slots) := by
  have H : e.SameBlock { e with indegScratch := e.computeOrder.2 } :=
    ⟨⟨rfl, rfl, rfl, rfl⟩, rfl, rfl, rfl⟩
  have h := foldl_onSlots executeSlot_eq e.computeOrder.1
    { e with indegScratch := e.computeOrder.2 }
  simp only [H.onSlots_executeSlot] at h
  exact h

/-- **`compute_sequential` settles the active slots**: each ends with what its task makes of
what it began with, the slots that feed it being as they end; the others are left alone. -/
theorem computeSequential_settled (e : Engine α) (S : SlotInv e.tables)
    (acyclic : Acyclic e.edges) :
    (∀ v ∉ e.activeList, e.computeSequential.mgr.slots v = e.mgr.slots v) ∧
      ∀ v ∈ e.activeList, e.computeSequential.mgr.slots v
        = e.onSlots (executeSlot · v)
            (Function.update e.computeSequential.mgr.slots v (e.mgr.slots v)) v := by
  have order := e.computeOrder_isOrder (e.wellFormed S) acyclic
  obtain ⟨idle, settled⟩ := Local.foldl_settled e.local_executeSlot order.nodup
    (fun l₁ v l₂ h u hu => order.preds l₁ v l₂ h u hu) e.mgr.slots
  rw [computeSequential_eq]
  exact ⟨fun v hv => idle v fun h => hv ((order.mem v).mp h),
    fun v hv => settled v ((order.mem v).mpr hv)⟩

end Engine

end Xrune
