import Cerebellum.Graph.Dispatcher
import Cerebellum.Lib.Ownership
import Mathlib.Algebra.Group.Nat.Defs
import Mathlib.Data.List.Flatten
import Mathlib.Data.List.Nodup

/-!
# Delivery of handles

The dispatcher delivers every handle that a node pushes on a wired output to the target of that
output, once, and in the order of the pushes. The frames that are free, pending at a node or being
processed partition the frames of the pool, so that nothing is changed or delivered through
another list (`Cerebellum.Dispatcher.Sound`). What a node has received so far, followed by what is
pending there, is what was routed to it so far (`Cerebellum.Run.Balanced`).

## Main definitions

* `Cerebellum.Dispatcher.Sound`, `Cerebellum.Dispatcher.Ready`: the invariants of the dispatcher.
* `Cerebellum.received`, `Cerebellum.pushed`, `Cerebellum.routed`: what a log says about handles.

## Main results

* `Cerebellum.Dispatcher.delivers_exactly_once`: each run that ends has delivered everything.
* `Cerebellum.Dispatcher.invalid_id_swallows_handles`: not so in a graph of more than `65535` nodes.
-/

namespace Cerebellum

open Graph

variable {σ Handle : Type}

namespace Dispatcher

variable {d d' : Dispatcher Handle} {held : List FrameId} {target : NodeId}

/-! ### Frames and their owners -/

/-- Who may use a frame: the pool, a node it is pending at, or the loop of `DrainNode`. -/
inductive Owner
  | free
  | node (v : NodeId)
  | draining
deriving DecidableEq

/-- The frames of each owner, when `held` are the frames that `DrainNode` has still to process. -/
def frames (d : Dispatcher Handle) (held : List FrameId) : Owner → List FrameId
  | .free => d.pool.free
  | .node v => d.pending v
  | .draining => held

/-- Each frame of the pool has one owner, and the free ones are empty. -/
structure Sound (d : Dispatcher Handle) (held : List FrameId) : Prop where
  partitioned : Partitioned (d.frames held) (· < d.pool.allocated)
  free_cleared : ∀ f ∈ d.pool.free, d.pool.storage f = .cleared

/-- The handles pending at a node. -/
def content (d : Dispatcher Handle) (v : NodeId) : List Handle :=
  (d.pending v).flatMap fun f => (d.pool.storage f).bufs

theorem acquire_nil {pool : FramePool Handle} (h : pool.free = []) :
    pool.acquire = (pool.allocated,
      ⟨Function.update pool.storage pool.allocated .cleared, pool.allocated + 1, []⟩) := by
  rw [FramePool.acquire, h]

theorem acquire_cons {pool : FramePool Handle} {f : FrameId} {free : List FrameId}
    (h : pool.free = f :: free) :
    pool.acquire = (f, ⟨Function.update pool.storage f .cleared, pool.allocated, free⟩) := by
  rw [FramePool.acquire, h]

/-- `Acquire` gives a frame that was free or is new, so that no owner loses one of his. -/
theorem Sound.addFrame (h : d.Sound held) : (d.addFrame target).Sound held := by
  have hnode (k : Owner) (hfree : k ≠ .free) (hk : k ≠ .node target) :
      (d.addFrame target).frames held k = d.frames held k := by
    cases k with
    | free => exact absurd rfl hfree
    | node v => exact Function.update_of_ne (fun hv : v = target => hk (hv ▸ rfl)) _ _
    | draining => rfl
  have hperm : ((d.addFrame target).frames held (.node target)).Perm
      (d.pool.acquire.1 :: d.frames held (.node target)) := by
    simp only [frames, Dispatcher.addFrame, Function.update_self]
    exact List.perm_append_singleton _ _
  cases hfree : d.pool.free with
  | nil =>
    have hacquire := acquire_nil hfree
    have hfree' : (d.addFrame target).pool.free = [] := by
      simp only [Dispatcher.addFrame, hacquire]
    rw [hacquire] at hperm
    refine ⟨?_, fun f hf => absurd (hfree' ▸ hf) List.not_mem_nil⟩
    refine h.partitioned.insert (lt_irrefl _) (fun f => ?_) hperm fun k hk => ?_
    · simp only [Dispatcher.addFrame, hacquire]
      exact Nat.lt_add_one_iff_lt_or_eq.trans Or.comm
    · by_cases hkf : k = .free
      · subst hkf
        exact hfree'.trans hfree.symm
      · exact hnode k hkf hk
  | cons f free =>
    have hacquire := acquire_cons hfree
    have hfree' : (d.addFrame target).pool.free = free := by
      simp only [Dispatcher.addFrame, hacquire]
    have hnodup : (f :: free).Nodup := hfree ▸ h.partitioned.nodup .free
    rw [hacquire] at hperm
    refine ⟨?_, fun f' hf' => ?_⟩
    · have hallocated : (d.addFrame target).pool.allocated = d.pool.allocated := by
        simp only [Dispatcher.addFrame, hacquire]
      rw [hallocated]
      refine h.partitioned.move Owner.noConfusion ?_ hperm hnode
      simp only [frames, hfree, hfree']
    · rw [hfree'] at hf'
      have hne : f' ≠ f := by
        rintro rfl
        exact (List.nodup_cons.mp hnodup).1 hf'
      simp only [Dispatcher.addFrame, hacquire, Function.update_of_ne hne]
      exact h.free_cleared f' (hfree ▸ List.mem_cons_of_mem _ hf')

/-- `Acquire` changes no frame that has an owner other than the pool. -/
theorem Sound.storage_addFrame (h : d.Sound held) {k : Owner} (hk : k ≠ .free) {f : FrameId}
    (hf : f ∈ d.frames held k) :
    (d.addFrame target).pool.storage f = d.pool.storage f := by
  cases hfree : d.pool.free with
  | nil =>
    have hlt : f < d.pool.allocated := h.partitioned.of_mem hf
    simp only [Dispatcher.addFrame, acquire_nil hfree, Function.update_of_ne (Nat.ne_of_lt hlt)]
  | cons f' free =>
    have hne : f ≠ f' := by
      rintro rfl
      have hmem : f ∈ d.frames held .free := by simp [frames, hfree]
      exact hk (h.partitioned.eq_of_mem hf hmem)
    simp only [Dispatcher.addFrame, acquire_cons hfree, Function.update_of_ne hne]

theorem storage_addFrame_acquire :
    (d.addFrame target).pool.storage d.pool.acquire.1 = .cleared := by
  cases hfree : d.pool.free with
  | nil => simp [Dispatcher.addFrame, acquire_nil hfree]
  | cons f free => simp [Dispatcher.addFrame, acquire_cons hfree]

theorem flatMap_storage_congr {pool pool' : FramePool Handle} {l : List FrameId}
    (h : ∀ f ∈ l, pool'.storage f = pool.storage f) :
    (l.flatMap fun f => (pool'.storage f).bufs) = l.flatMap fun f => (pool.storage f).bufs :=
  List.flatMap_congr fun f hf => by rw [h f hf]

/-- A new frame is empty: nothing is pending that was not before. -/
theorem Sound.content_addFrame (h : d.Sound held) (v : NodeId) :
    (d.addFrame target).content v = d.content v := by
  have hsame (u : NodeId) : ∀ f ∈ d.pending u,
      (d.addFrame target).pool.storage f = d.pool.storage f :=
    fun f hf => h.storage_addFrame (k := .node u) Owner.noConfusion hf
  by_cases hv : v = target
  · subst hv
    have hpending : (d.addFrame v).pending v = d.pending v ++ [d.pool.acquire.1] :=
      Function.update_self _ _ _
    rw [content, hpending, List.flatMap_append, flatMap_storage_congr (hsame v),
      List.flatMap_singleton, storage_addFrame_acquire]
    exact List.append_nil _
  · have hpending : (d.addFrame target).pending v = d.pending v := Function.update_of_ne hv _ _
    rw [content, hpending, flatMap_storage_congr (hsame v), content]

/-! ### Routing one output -/

/-- The handles `hs` were appended to what is pending at `target`, and nothing else changed. -/
structure Appends (held : List FrameId) (target : NodeId) (hs : List Handle)
    (d d' : Dispatcher Handle) : Prop where
  sound : d'.Sound held
  content_eq : ∀ v, d'.content v = d.content v ++ if v = target then hs else []
  held_eq : ∀ f ∈ held, d'.pool.storage f = d.pool.storage f
  pending_eq : ∀ v, v ≠ target → d'.pending v = d.pending v
  scheduled_eq : d'.scheduled = d.scheduled
  queue_eq : d'.queue = d.queue
  size_eq : d'.size = d.size
  scratch_eq : d'.scratch = d.scratch

theorem Appends.refl (h : d.Sound held) : Appends held target [] d d :=
  ⟨h, fun v => by simp, fun _ _ => rfl, fun _ _ => rfl, rfl, rfl, rfl, rfl⟩

theorem Appends.trans {d'' : Dispatcher Handle} {hs hs' : List Handle}
    (h : Appends held target hs d d') (h' : Appends held target hs' d' d'') :
    Appends held target (hs ++ hs') d d'' where
  sound := h'.sound
  content_eq v := by
    rw [h'.content_eq, h.content_eq, List.append_assoc]
    split_ifs <;> rfl
  held_eq f hf := (h'.held_eq f hf).trans (h.held_eq f hf)
  pending_eq v hv := (h'.pending_eq v hv).trans (h.pending_eq v hv)
  scheduled_eq := h'.scheduled_eq.trans h.scheduled_eq
  queue_eq := h'.queue_eq.trans h.queue_eq
  size_eq := h'.size_eq.trans h.size_eq
  scratch_eq := h'.scratch_eq.trans h.scratch_eq

theorem Sound.appends_addFrame (h : d.Sound held) :
    Appends held target [] d (d.addFrame target) where
  sound := h.addFrame
  content_eq v := by
    rw [h.content_addFrame, ite_self, List.append_nil]
  held_eq f hf := h.storage_addFrame (k := .draining) Owner.noConfusion hf
  pending_eq v hv := Function.update_of_ne hv _ _
  scheduled_eq := rfl
  queue_eq := rfl
  size_eq := rfl
  scratch_eq := rfl

/-- The last frame pending at the target has room for a handle. -/
def HasRoom (d : Dispatcher Handle) (target : NodeId) : Prop :=
  ∃ frames f, d.pending target = frames ++ [f] ∧ (d.pool.storage f).bufs.length < kBurstSize

theorem hasRoom_addFrame : (d.addFrame target).HasRoom target := by
  refine ⟨d.pending target, d.pool.acquire.1, Function.update_self _ _ _, ?_⟩
  rw [storage_addFrame_acquire]
  exact show 0 < kBurstSize by decide

theorem Sound.openFrame (h : d.Sound held) (target : NodeId) :
    Appends held target [] d (d.openFrame target) ∧ (d.openFrame target).HasRoom target := by
  unfold Dispatcher.openFrame
  cases hlast : (d.pending target).getLast? with
  | none => exact ⟨h.appends_addFrame, hasRoom_addFrame⟩
  | some f =>
    simp only
    by_cases hfull : (d.pool.storage f).full = true
    · rw [if_pos hfull]
      exact ⟨h.appends_addFrame, hasRoom_addFrame⟩
    · rw [if_neg hfull]
      obtain ⟨frames, hframes⟩ := List.getLast?_eq_some_iff.mp hlast
      refine ⟨.refl h, frames, f, hframes, ?_⟩
      rw [Frame.full, decide_eq_true_eq] at hfull
      exact lt_of_le_of_ne (d.pool.storage f).count_le hfull

theorem push_eq {pool : FramePool Handle} {f : FrameId} (handle : Handle)
    (h : (pool.storage f).bufs.length < kBurstSize) :
    ∃ frame : Frame Handle, frame.bufs = (pool.storage f).bufs ++ [handle] ∧
      pool.push f handle = .ok { pool with storage := Function.update pool.storage f frame } := by
  refine ⟨⟨(pool.storage f).bufs ++ [handle], ?_⟩, rfl, ?_⟩
  · rw [List.length_append, List.length_singleton]
    exact h
  · rw [FramePool.push, Frame.push, dif_pos h]
    rfl

/-- A frame with an owner other than the pool may be filled. -/
theorem Sound.fill (h : d.Sound held) {k : Owner} (hk : k ≠ .free) {f : FrameId}
    (hf : f ∈ d.frames held k) (frame : Frame Handle) :
    ({ d with pool := { d.pool with storage := Function.update d.pool.storage f frame } }
      : Dispatcher Handle).Sound held where
  partitioned := h.partitioned
  free_cleared f' hf' := by
    have hne : f' ≠ f := by
      rintro rfl
      exact hk (h.partitioned.eq_of_mem hf (j := .free) hf')
    exact (Function.update_of_ne hne _ _).trans (h.free_cleared f' hf')

/-- A handle that is pushed on the last frame of the target changes no other frame. -/
theorem Sound.appends_push (h : d.Sound held) {frames : List FrameId} {f : FrameId}
    (hpending : d.pending target = frames ++ [f]) {handle : Handle} {frame : Frame Handle}
    (hframe : frame.bufs = (d.pool.storage f).bufs ++ [handle]) :
    Appends held target [handle] d
      { d with pool := { d.pool with storage := Function.update d.pool.storage f frame } } := by
  have hf : f ∈ d.frames held (.node target) := by simp [Dispatcher.frames, hpending]
  have hother {k : Owner} (hk : k ≠ .node target) {f' : FrameId} (hf' : f' ∈ d.frames held k) :
      Function.update d.pool.storage f frame f' = d.pool.storage f' := by
    refine Function.update_of_ne ?_ _ _
    rintro rfl
    exact hk (h.partitioned.eq_of_mem hf' hf)
  refine ⟨h.fill Owner.noConfusion hf frame, fun v => ?_, fun f' hf' => ?_, fun _ _ => rfl,
    rfl, rfl, rfl, rfl⟩
  · by_cases hv : v = target
    · subst hv
      have hnodup : (frames ++ [f]).Nodup := hpending ▸ h.partitioned.nodup (.node v)
      have hinit : ∀ f' ∈ frames, Function.update d.pool.storage f frame f' =
          d.pool.storage f' := by
        intro f' hf'
        refine Function.update_of_ne ?_ _ _
        rintro rfl
        exact (List.nodup_append.mp hnodup).2.2 f' hf' f' (List.mem_singleton_self _) rfl
      rw [if_pos rfl]
      simp only [content, hpending, List.flatMap_append, List.flatMap_singleton,
        Function.update_self, hframe, List.append_assoc]
      rw [List.flatMap_congr fun f' hf' => by rw [hinit f' hf']]
    · rw [if_neg hv, List.append_nil]
      exact flatMap_storage_congr fun f' hf' =>
        hother (k := .node v) (fun h => hv (Owner.node.inj h)) hf'
  · exact hother (k := .draining) Owner.noConfusion hf'

theorem Sound.pushBack (h : d.Sound held) (target : NodeId) (handle : Handle) :
    ∃ d', pushBack target d handle = .ok d' ∧ Appends held target [handle] d d' := by
  obtain ⟨hopen, frames, f, hpending, hroom⟩ := h.openFrame target
  obtain ⟨frame, hframe, hpush⟩ := push_eq handle hroom
  refine ⟨_, ?_, hopen.trans (hopen.sound.appends_push hpending hframe)⟩
  rw [Dispatcher.pushBack, hpending, List.getLast?_concat]
  simp only [hpush]
  rfl

theorem Sound.pushAll (h : d.Sound held) (target : NodeId) (hs : List Handle) :
    ∃ d', hs.foldlM (Dispatcher.pushBack target) d = .ok d' ∧ Appends held target hs d d' := by
  induction hs generalizing d with
  | nil => exact ⟨d, rfl, .refl h⟩
  | cons handle hs ih =>
    obtain ⟨d₁, hd₁, happ₁⟩ := h.pushBack target handle
    obtain ⟨d₂, hd₂, happ₂⟩ := ih happ₁.sound
    refine ⟨d₂, ?_, happ₁.trans happ₂⟩
    rw [List.foldlM_cons, hd₁]
    exact hd₂

theorem Sound.routeInto (h : d.Sound held) (hlt : target.toNat < d.size) (src : Frame Handle) :
    ∃ d', d.routeInto target src = .ok d' ∧ Appends held target src.bufs d d' := by
  obtain ⟨d', hd', happ⟩ := h.pushAll _ src.bufs
  refine ⟨d', ?_, happ⟩
  rw [Dispatcher.routeInto, checkIndex, if_pos hlt]
  exact hd'

/-- A frame that was processed goes back to the pool. -/
theorem Sound.release {f : FrameId} {rest : List FrameId} (h : d.Sound (f :: rest)) :
    ({ d with pool := d.pool.release f } : Dispatcher Handle).Sound rest where
  partitioned := by
    refine h.partitioned.move (i := .draining) (j := .free) Owner.noConfusion rfl
      (List.Perm.refl _) fun k hk hk' => ?_
    cases k with
    | free => exact absurd rfl hk'
    | node v => rfl
    | draining => exact absurd rfl hk
  free_cleared f' hf' := by
    by_cases hff' : f' = f
    · subst hff'
      exact Function.update_self _ _ _
    · refine (Function.update_of_ne hff' _ _).trans (h.free_cleared f' ?_)
      exact (List.mem_cons.mp hf').resolve_left hff'

theorem Sound.storage_release {f : FrameId} {rest : List FrameId} (h : d.Sound (f :: rest))
    {f' : FrameId} (hf' : f' ∈ rest ∨ ∃ v, f' ∈ d.pending v) :
    (d.pool.release f).storage f' = d.pool.storage f' := by
  refine Function.update_of_ne ?_ _ _
  rintro rfl
  obtain hf' | ⟨v, hf'⟩ := hf'
  · exact (List.nodup_cons.mp (h.partitioned.nodup .draining)).1 hf'
  · have howner : Owner.draining = .node v :=
      h.partitioned.eq_of_mem (i := .draining) (j := .node v) List.mem_cons_self hf'
    exact Owner.noConfusion howner

/-- The frames pending at a node are taken to be processed. -/
theorem Sound.take (h : d.Sound []) (v : NodeId) {scheduled : NodeId → Bool}
    {queue : List NodeId} :
    ({ d with
      scheduled := scheduled
      queue := queue
      pending := Function.update d.pending v [] } : Dispatcher Handle).Sound (d.pending v) := by
  refine ⟨?_, h.free_cleared⟩
  refine h.partitioned.moveAll (i := .node v) (j := .draining) Owner.noConfusion rfl
    (Function.update_self _ _ _) rfl fun k hk hk' => ?_
  cases k with
  | free => rfl
  | node w => exact Function.update_of_ne (fun hw : w = v => hk (hw ▸ rfl)) _ _
  | draining => exact absurd rfl hk'

/-! ### Scheduling -/

/-- A node with pending frames is scheduled, and the stack holds the scheduled nodes, once each. -/
structure Ready (d : Dispatcher Handle) : Prop where
  scheduled_of_pending : ∀ v, d.pending v ≠ [] → d.scheduled v = true
  mem_queue_iff : ∀ v, v ∈ d.queue ↔ d.scheduled v = true
  nodup_queue : d.queue.Nodup
  lt_size : ∀ v ∈ d.queue, v.toNat < d.size

/-- The node on top of the stack is taken off it, together with the frames pending there. -/
theorem Ready.take (h : d.Ready) {v : NodeId} {queue : List NodeId}
    (hqueue : d.queue = v :: queue) :
    ({ d with
      scheduled := Function.update d.scheduled v false
      queue := queue
      pending := Function.update d.pending v [] } : Dispatcher Handle).Ready := by
  have hnodup : (v :: queue).Nodup := hqueue ▸ h.nodup_queue
  refine ⟨fun w hw => ?_, fun w => ?_, (List.nodup_cons.mp hnodup).2, fun w hw => ?_⟩
  · have hwv : w ≠ v := by
      rintro rfl
      exact hw (Function.update_self _ _ _)
    have hpending : Function.update d.pending v [] w = d.pending w := Function.update_of_ne hwv _ _
    refine (Function.update_of_ne hwv _ _).trans (h.scheduled_of_pending w ?_)
    exact hpending ▸ hw
  · by_cases hwv : w = v
    · subst hwv
      simp [(List.nodup_cons.mp hnodup).1]
    · have hiff := h.mem_queue_iff w
      rw [hqueue, List.mem_cons, or_iff_right hwv] at hiff
      simpa [Function.update_of_ne hwv] using hiff
  · exact h.lt_size w (hqueue ▸ List.mem_cons_of_mem _ hw)

/-- `Schedule` after frames of `target` became pending. -/
theorem Ready.schedule (h : d.Ready) (hlt : target.toNat < d'.size)
    (hpending : ∀ v, v ≠ target → d'.pending v = d.pending v)
    (hscheduled : d'.scheduled = d.scheduled) (hqueue : d'.queue = d.queue)
    (hsize : d'.size = d.size) :
    ∃ scheduled new, d'.schedule target =
        .ok { d' with scheduled := scheduled, queue := new ++ d.queue } ∧
      ({ d' with scheduled := scheduled, queue := new ++ d.queue } : Dispatcher Handle).Ready ∧
      ∀ v ∈ new, v = target := by
  rw [Dispatcher.schedule, checkIndex, if_pos hlt]
  by_cases hsch : d'.scheduled target = true
  · refine ⟨d'.scheduled, [], ?_, ?_, by simp⟩
    · rw [List.nil_append, ← hqueue, if_pos hsch]
      rfl
    · refine ⟨fun v hv => ?_, ?_, h.nodup_queue, ?_⟩
      · by_cases hvt : v = target
        · exact hvt ▸ hsch
        · rw [hscheduled]
          exact h.scheduled_of_pending v (hpending v hvt ▸ hv)
      · rw [hscheduled]
        exact h.mem_queue_iff
      · exact hsize ▸ h.lt_size
  · have hnotin : target ∉ d.queue := by
      rw [h.mem_queue_iff, ← hscheduled]
      exact hsch
    refine ⟨Function.update d'.scheduled target true, [target], ?_, ?_, by simp⟩
    · rw [← hqueue, if_neg hsch]
      rfl
    · refine ⟨fun v hv => ?_, fun v => ?_, ?_, ?_⟩
      · by_cases hvt : v = target
        · subst hvt
          exact Function.update_self _ _ _
        · simp only [Function.update_of_ne hvt, hscheduled]
          exact h.scheduled_of_pending v (hpending v hvt ▸ hv)
      · by_cases hvt : v = target
        · subst hvt
          simp
        · simp only [Function.update_of_ne hvt, hscheduled, List.singleton_append, List.mem_cons,
            hvt, false_or]
          exact h.mem_queue_iff v
      · exact List.nodup_cons.mpr ⟨hnotin, h.nodup_queue⟩
      · intro v hv
        obtain rfl | hv := List.mem_cons.mp hv
        · exact hlt
        · exact hsize ▸ h.lt_size v hv

/-- The handles `add v` were appended to what is pending at each node `v`, and the nodes that became
scheduled are targets of `u`. -/
structure Extends (g : Graph σ Handle) (u : NodeId) (held : List FrameId)
    (add : NodeId → List Handle) (d d' : Dispatcher Handle) : Prop where
  sound : d'.Sound held
  ready : d'.Ready
  content_eq : ∀ v, d'.content v = d.content v ++ add v
  held_eq : ∀ f ∈ held, d'.pool.storage f = d.pool.storage f
  size_eq : d'.size = d.size
  queue_eq : ∃ new, d'.queue = new ++ d.queue ∧ ∀ v ∈ new, ∃ out, g.Edge u out v

variable {g : Graph σ Handle} {u : NodeId}

theorem Extends.refl (h : d.Sound held) (hready : d.Ready) :
    Extends g u held (fun _ => []) d d :=
  ⟨h, hready, fun _ => (List.append_nil _).symm, fun _ _ => rfl, rfl, [], rfl, by simp⟩

theorem Extends.trans {d'' : Dispatcher Handle} {add add' : NodeId → List Handle}
    (h : Extends g u held add d d') (h' : Extends g u held add' d' d'') :
    Extends g u held (fun v => add v ++ add' v) d d'' where
  sound := h'.sound
  ready := h'.ready
  content_eq v := by rw [h'.content_eq, h.content_eq, List.append_assoc]
  held_eq f hf := (h'.held_eq f hf).trans (h.held_eq f hf)
  size_eq := h'.size_eq.trans h.size_eq
  queue_eq := by
    obtain ⟨new, hqueue, hnew⟩ := h.queue_eq
    obtain ⟨new', hqueue', hnew'⟩ := h'.queue_eq
    refine ⟨new' ++ new, by rw [hqueue', hqueue, List.append_assoc], fun v hv => ?_⟩
    exact (List.mem_append.mp hv).elim (hnew' v) (hnew v)

/-- What goes to `v` when `hs` was pushed on output `out` of `u`. -/
def sentTo (g : Graph σ Handle) (u : NodeId) (out : ℕ) (hs : List Handle) (v : NodeId) :
    List Handle :=
  if g.Edge u out v then hs else []

theorem Sound.routeOutput (h : d.Sound held) (hready : d.Ready) (hsize : d.size = g.nodes.length)
    (out : ℕ) :
    ∃ d', d.routeOutput g u out = .ok d' ∧ d'.scratch = d.scratch ∧
      Extends g u held (sentTo g u out (d.scratch out).bufs) d d' := by
  unfold Dispatcher.routeOutput
  split_ifs with hskip
  · have hnone (v : NodeId) : sentTo g u out (d.scratch out).bufs v = [] := by
      unfold sentTo
      split_ifs with hv
      · exact List.length_eq_zero_iff.mp (hskip.resolve_left fun h => hv.2 (hv.1.symm.trans h))
      · rfl
    refine ⟨d, rfl, rfl, ?_⟩
    rw [funext hnone]
    exact .refl h hready
  · rw [not_or] at hskip
    have hedge : g.Edge u out (g.target u out) := ⟨rfl, hskip.1⟩
    have hlt : (g.target u out).toNat < d.size := hsize ▸ hedge.lt
    obtain ⟨d₁, hd₁, happ⟩ := h.routeInto hlt (d.scratch out)
    obtain ⟨scheduled, new, hsched, hready', hnew⟩ := hready.schedule (happ.size_eq ▸ hlt)
      happ.pending_eq happ.scheduled_eq happ.queue_eq happ.size_eq
    refine ⟨{ d₁ with scheduled := scheduled, queue := new ++ d.queue }, ?_, happ.scratch_eq,
      ⟨happ.sound.partitioned, happ.sound.free_cleared⟩, hready', fun v => ?_, happ.held_eq,
      happ.size_eq, new, rfl, fun v hv => ⟨out, hnew v hv ▸ hedge⟩⟩
    · rw [hd₁]
      exact hsched
    · refine (happ.content_eq v).trans (congrArg _ ?_)
      by_cases hv : v = g.target u out
      · subst hv
        rw [if_pos rfl, sentTo, if_pos hedge]
      · rw [if_neg hv, sentTo, if_neg fun h => hv h.1.symm]

theorem Sound.routeOutputs (h : d.Sound held) (hready : d.Ready) (hsize : d.size = g.nodes.length)
    (outs : List ℕ) :
    ∃ d', outs.foldlM (Dispatcher.routeOutput g u) d = .ok d' ∧ d'.scratch = d.scratch ∧
      Extends g u held (fun v => outs.flatMap fun out => sentTo g u out (d.scratch out).bufs v)
        d d' := by
  induction outs generalizing d with
  | nil => exact ⟨d, rfl, rfl, .refl h hready⟩
  | cons out outs ih =>
    obtain ⟨d₁, hd₁, hscratch₁, hext₁⟩ := h.routeOutput hready hsize (u := u) out
    obtain ⟨d₂, hd₂, hscratch₂, hext₂⟩ := ih hext₁.sound hext₁.ready (hext₁.size_eq.trans hsize)
    refine ⟨d₂, ?_, hscratch₂.trans hscratch₁, ?_⟩
    · rw [List.foldlM_cons, hd₁]
      exact hd₂
    · rw [hscratch₁] at hext₂
      exact hext₁.trans hext₂

end Dispatcher

/-! ### Logs -/

/-- The handles that `v` received, in order. -/
def received (log : List (Call Handle)) (v : NodeId) : List Handle :=
  log.flatMap fun c => if c.node = v then c.input else []

/-- The handles that `u` pushed on output `out`, in order. -/
def pushed (log : List (Call Handle)) (u : NodeId) (out : ℕ) : List Handle :=
  log.flatMap fun c => if c.node = u then c.outs out else []

/-- The handles that one call pushed on the outputs wired to `v`, output by output. -/
def Call.routed (g : Graph σ Handle) (c : Call Handle) (v : NodeId) : List Handle :=
  (List.range (g.fanout c.node)).flatMap fun out =>
    Dispatcher.sentTo g c.node out (c.outs out) v

/-- The handles that were pushed on the outputs wired to `v`, in the order of the pushes. -/
def routed (g : Graph σ Handle) (log : List (Call Handle)) (v : NodeId) : List Handle :=
  log.flatMap fun c => c.routed g v

theorem received_concat (log : List (Call Handle)) (c : Call Handle) (v : NodeId) :
    received (log ++ [c]) v = received log v ++ if c.node = v then c.input else [] := by
  simp [received]

theorem routed_concat (g : Graph σ Handle) (log : List (Call Handle)) (c : Call Handle)
    (v : NodeId) : routed g (log ++ [c]) v = routed g log v ++ c.routed g v := by
  simp [routed]

/-- The log is that of calls of `Process`, one after the other, from one state to the other. -/
inductive Trace (g : Graph σ Handle) : σ → List (Call Handle) → σ → Prop
  | nil (world : σ) : Trace g world [] world
  | cons {world world' : σ} {log : List (Call Handle)} {v : NodeId} {node : Node σ Handle}
      (input : Frame Handle) (hnode : g.nodes[v.toNat]? = some node)
      (h : Trace g (node.process world input).1 log world') :
      Trace g world (node.call v world input :: log) world'

theorem Trace.concat {g : Graph σ Handle} {world world' : σ} {log : List (Call Handle)}
    (h : Trace g world log world') {v : NodeId} {node : Node σ Handle}
    (hnode : g.nodes[v.toNat]? = some node) (input : Frame Handle) :
    Trace g world (log ++ [node.call v world' input]) (node.process world' input).1 := by
  induction h with
  | nil world => exact .cons input hnode (.nil _)
  | cons input' hnode' _ ih => exact .cons input' hnode' (ih)

namespace Run

variable {g : Graph σ Handle} {r r' : Run σ Handle} {held : List FrameId} {v root : NodeId}
  {frame : List Handle} {world₀ : σ}

/-- What each node received, holds and has pending is what was routed to it. -/
structure Balanced (g : Graph σ Handle) (root : NodeId) (frame : List Handle) (world₀ : σ)
    (v : NodeId) (held : List FrameId) (r : Run σ Handle) : Prop where
  sound : r.disp.Sound held
  ready : r.disp.Ready
  size_eq : r.disp.size = g.nodes.length
  trace : Trace g world₀ r.log r.world
  balance : ∀ u, received r.log u ++
      ((if u = v then held.flatMap fun f => (r.disp.pool.storage f).bufs else []) ++
        r.disp.content u) =
    (if u = root then frame else []) ++ routed g r.log u

/-- `RunNode` makes one call and appends what it pushed on each wired output. -/
theorem runNode_eq (hsound : r.disp.Sound held) (hready : r.disp.Ready)
    (hsize : r.disp.size = g.nodes.length) {node : Node σ Handle}
    (hnode : g.nodes[v.toNat]? = some node) (input : Frame Handle) :
    ∃ disp, runNode g v input r = .ok ⟨disp, (node.process r.world input).1,
        r.log ++ [node.call v r.world input]⟩ ∧
      Dispatcher.Extends g v held ((node.call v r.world input).routed g) r.disp disp := by
  have hsound' : ({ r.disp with scratch := outputs (node.process r.world input).2 r.disp.scratch }
      : Dispatcher Handle).Sound held := ⟨hsound.partitioned, hsound.free_cleared⟩
  have hready' : ({ r.disp with scratch := outputs (node.process r.world input).2 r.disp.scratch }
      : Dispatcher Handle).Ready :=
    ⟨hready.scheduled_of_pending, hready.mem_queue_iff, hready.nodup_queue, hready.lt_size⟩
  obtain ⟨disp, hdisp, -, hext⟩ :=
    hsound'.routeOutputs hready' hsize (u := v) (List.range (g.fanout v))
  refine ⟨disp, ?_, hext.sound, hext.ready, fun u => ?_, hext.held_eq, hext.size_eq, hext.queue_eq⟩
  · rw [runNode, hnode]
    simp only [hdisp]
    rfl
  · refine (hext.content_eq u).trans (congrArg _ ?_)
    refine List.flatMap_congr fun out hout => ?_
    have hlt : out < node.nextCount := by
      rw [← Graph.fanout_eq hnode]
      exact List.mem_range.mp hout
    simp only [Node.call, outputs, hlt, dif_pos]

/-- The calls made are at `v`, and the nodes that became scheduled are targets of `v`. -/
structure Advances (g : Graph σ Handle) (v : NodeId) (r r' : Run σ Handle) : Prop where
  log_eq : ∃ calls, r'.log = r.log ++ calls ∧ ∀ c ∈ calls, c.node = v
  queue_eq : ∃ new, r'.disp.queue = new ++ r.disp.queue ∧ ∀ u ∈ new, ∃ out, g.Edge v out u

theorem Advances.refl (g : Graph σ Handle) (v : NodeId) (r : Run σ Handle) : Advances g v r r :=
  ⟨⟨[], (List.append_nil _).symm, by simp⟩, [], rfl, by simp⟩

theorem Advances.trans {r'' : Run σ Handle} (h : Advances g v r r') (h' : Advances g v r' r'') :
    Advances g v r r'' := by
  obtain ⟨new, hqueue, hnew⟩ := h.queue_eq
  obtain ⟨new', hqueue', hnew'⟩ := h'.queue_eq
  obtain ⟨calls, hlog, hcalls⟩ := h.log_eq
  obtain ⟨calls', hlog', hcalls'⟩ := h'.log_eq
  refine ⟨⟨calls ++ calls', ?_, fun c hc => ?_⟩, new' ++ new, ?_, fun u hu => ?_⟩
  · rw [hlog', hlog, List.append_assoc]
  · exact (List.mem_append.mp hc).elim (hcalls c) (hcalls' c)
  · rw [hqueue', hqueue, List.append_assoc]
  · exact (List.mem_append.mp hu).elim (hnew' u) (hnew u)

/-- The body of the loop of `DrainNode` moves one frame from what is held to what was received. -/
theorem Balanced.runFrame {f : FrameId} (hv : v.toNat < g.nodes.length)
    (h : Balanced g root frame world₀ v (f :: held) r) :
    ∃ r' c, runNode g v (r.disp.pool.storage f) r = .ok r' ∧
      c.node = v ∧ c.input = (r.disp.pool.storage f).bufs ∧ r'.log = r.log ++ [c] ∧
      Advances g v r { r' with disp := { r'.disp with pool := r'.disp.pool.release f } } ∧
      Balanced g root frame world₀ v held
        { r' with disp := { r'.disp with pool := r'.disp.pool.release f } } := by
  obtain ⟨node, hnode⟩ : ∃ node, g.nodes[v.toNat]? = some node :=
    ⟨_, List.getElem?_eq_getElem hv⟩
  obtain ⟨disp, hrun, hext⟩ := runNode_eq h.sound h.ready h.size_eq hnode (r.disp.pool.storage f)
  refine ⟨_, _, hrun, rfl, rfl, rfl, ⟨⟨_, rfl, ?_⟩, hext.queue_eq⟩, ?_⟩
  · exact fun c hc => List.mem_singleton.mp hc ▸ rfl
  refine ⟨hext.sound.release, ⟨hext.ready.scheduled_of_pending, hext.ready.mem_queue_iff,
    hext.ready.nodup_queue, hext.ready.lt_size⟩, hext.size_eq.trans h.size_eq,
    h.trace.concat hnode _, fun u => ?_⟩
  have hbalance := h.balance u
  have hheld : (held.flatMap fun f' => ((disp.pool.release f).storage f').bufs) =
      held.flatMap fun f' => (r.disp.pool.storage f').bufs := by
    refine Dispatcher.flatMap_storage_congr fun f' hf' => ?_
    rw [hext.sound.storage_release (.inl hf'), hext.held_eq f' (List.mem_cons_of_mem _ hf')]
  have hcontent : ({ disp with pool := disp.pool.release f } : Dispatcher Handle).content u =
      disp.content u :=
    Dispatcher.flatMap_storage_congr fun f' hf' => hext.sound.storage_release (.inr ⟨u, hf'⟩)
  simp only [hheld, hcontent, hext.content_eq, received_concat, routed_concat]
  rw [← List.append_assoc _ (routed g r.log u), ← hbalance]
  by_cases hu : u = v
  · subst hu
    simp [Node.call]
  · simp [Node.call, hu, Ne.symm hu]

/-- The loop of `DrainNode` makes one call for each frame. -/
theorem Balanced.drainFrames (hv : v.toNat < g.nodes.length)
    (h : Balanced g root frame world₀ v held r) :
    ∃ r', drainFrames g v held r = .ok r' ∧ Advances g v r r' ∧
      Balanced g root frame world₀ v [] r' ∧
      ∀ f, held = [f] → ∃ c : Call Handle, c.node = v ∧
        c.input = (r.disp.pool.storage f).bufs ∧ r'.log = r.log ++ [c] := by
  induction held generalizing r with
  | nil => exact ⟨r, rfl, .refl g v r, h, fun f hf => absurd hf (List.cons_ne_nil _ _).symm⟩
  | cons f held ih =>
    obtain ⟨r₁, c, hrun, hcnode, hcinput, hlog, hadv, hbal⟩ := h.runFrame hv
    obtain ⟨r₂, hrest, hadv₂, hbal₂, -⟩ := ih hbal
    refine ⟨r₂, ?_, hadv.trans hadv₂, hbal₂, fun f' hf' => ?_⟩
    · rw [Run.drainFrames, hrun]
      exact hrest
    · obtain ⟨rfl, rfl⟩ := List.cons.inj hf'
      obtain rfl := Except.ok.inj hrest
      exact ⟨c, hcnode, hcinput, hlog⟩

/-- The node on top of the stack is taken off it and its pending frames are taken to be processed.
-/
theorem Balanced.take {u : NodeId} {queue : List NodeId}
    (h : Balanced g root frame world₀ u [] r) (hqueue : r.disp.queue = v :: queue) :
    Balanced g root frame world₀ v (r.disp.pending v)
      { r.pop v queue with
        disp := { (r.pop v queue).disp with
          pending := Function.update (r.pop v queue).disp.pending v [] } } := by
  refine ⟨h.sound.take v, h.ready.take hqueue, h.size_eq, h.trace, fun w => ?_⟩
  have hbalance := h.balance w
  rw [List.flatMap_nil, ite_self, List.nil_append] at hbalance
  refine Eq.trans (congrArg (received r.log w ++ ·) ?_) hbalance
  by_cases hwv : w = v
  · subst hwv
    simp [Dispatcher.content, pop]
  · simp [Dispatcher.content, pop, hwv]

theorem Balanced.drainNode {u : NodeId} {queue : List NodeId}
    (h : Balanced g root frame world₀ u [] r) (hqueue : r.disp.queue = v :: queue) :
    ∃ r', drainNode g v (r.pop v queue) = .ok r' ∧ Advances g v (r.pop v queue) r' ∧
      Balanced g root frame world₀ v [] r' ∧
      ∀ f, r.disp.pending v = [f] → ∃ c : Call Handle, c.node = v ∧
        c.input = (r.disp.pool.storage f).bufs ∧ r'.log = r.log ++ [c] := by
  have hlt : v.toNat < r.disp.size := h.ready.lt_size v (hqueue ▸ List.mem_cons_self)
  obtain ⟨r', hrun, hadv, hbal, hhead⟩ := (h.take hqueue).drainFrames (h.size_eq ▸ hlt)
  refine ⟨r', ?_, ⟨hadv.log_eq, hadv.queue_eq⟩, hbal, hhead⟩
  rw [Run.drainNode, Dispatcher.checkIndex,
    if_pos (show v.toNat < (r.pop v queue).disp.size from hlt)]
  exact hrun

/-- Between two calls of `DrainNode` no node is singled out. -/
theorem Balanced.between {u : NodeId} (h : Balanced g root frame world₀ u [] r) (v : NodeId) :
    Balanced g root frame world₀ v [] r :=
  ⟨h.sound, h.ready, h.size_eq, h.trace, fun w => by simpa using h.balance w⟩

/-- The loop of `RunOnce` does not fault, and it calls the nodes that are scheduled and the targets
of outputs only. -/
theorem Balanced.drain {u : NodeId} (h : Balanced g root frame world₀ u [] r) (fuel : ℕ) :
    drain g fuel r = .error .running ∨
      ∃ r' calls, drain g fuel r = .ok r' ∧ r'.disp.queue = [] ∧ r'.log = r.log ++ calls ∧
        (∀ c ∈ calls, c.node ∈ r.disp.queue ∨ ∃ w out, g.Edge w out c.node) ∧
        Balanced g root frame world₀ u [] r' := by
  induction fuel generalizing r with
  | zero =>
    cases hqueue : r.disp.queue with
    | nil => exact .inr ⟨r, [], drain_of_nil hqueue 0, hqueue, (List.append_nil _).symm, by simp, h⟩
    | cons v queue => exact .inl (drain_zero_of_cons hqueue)
  | succ fuel ih =>
    cases hqueue : r.disp.queue with
    | nil => exact .inr ⟨r, [], drain_of_nil hqueue _, hqueue, (List.append_nil _).symm, by simp, h⟩
    | cons v queue =>
      obtain ⟨r₁, hrun, hadv, hbal, -⟩ := h.drainNode hqueue
      obtain ⟨calls₁, hlog₁, hcalls₁⟩ := hadv.log_eq
      obtain ⟨new, hqueue₁, hnew⟩ := hadv.queue_eq
      rw [drain_succ_of_cons hqueue hrun]
      refine (ih (hbal.between u)).imp_right ?_
      rintro ⟨r', calls, hr', hempty, hlog, hcalls, hbal'⟩
      refine ⟨r', calls₁ ++ calls, hr', hempty, ?_, fun c hc => ?_, hbal'⟩
      · rw [hlog, hlog₁, List.append_assoc]
        rfl
      · obtain hc | hc := List.mem_append.mp hc
        · exact .inl (hcalls₁ c hc ▸ List.mem_cons_self)
        · obtain hc | hedge := hcalls c hc
          · rw [hqueue₁] at hc
            obtain hc | hc := List.mem_append.mp hc
            · obtain ⟨out, hout⟩ := hnew _ hc
              exact .inr ⟨v, out, hout⟩
            · exact .inl (List.mem_cons_of_mem _ hc)
          · exact .inr hedge

/-- When the stack is empty nothing is pending. -/
theorem pending_eq_nil (hready : r.disp.Ready) (h : r.disp.queue = []) (v : NodeId) :
    r.disp.pending v = [] := by
  by_contra hv
  have hmem : v ∈ r.disp.queue := (hready.mem_queue_iff v).mpr (hready.scheduled_of_pending v hv)
  exact absurd (h ▸ hmem) List.not_mem_nil

end Run

namespace Dispatcher

variable {g : Graph σ Handle} {root : NodeId} {d : Dispatcher Handle} {frame : Frame Handle}
  {world : σ}

/-- The dispatcher between two calls of `RunOnce`. -/
structure Idle (g : Graph σ Handle) (d : Dispatcher Handle) : Prop where
  sound : d.Sound []
  size_eq : d.size = g.nodes.length
  pending_eq : ∀ v, d.pending v = []

theorem idle_init (hsize : g.nodes.length < 2 ^ 16) : (init g).Idle g where
  sound := by
    refine ⟨⟨fun k => ?_, fun {f k k'} hk hk' => ?_, fun f => ?_⟩, fun f hf => rfl⟩
    · cases k with
      | free => exact List.nodup_reverse.mpr List.nodup_range
      | node v => exact List.nodup_nil
      | draining => exact List.nodup_nil
    · cases k <;> cases k' <;> first | rfl | exact absurd hk List.not_mem_nil |
        exact absurd hk' List.not_mem_nil
    · constructor
      · intro hf
        exact ⟨.free, List.mem_reverse.mpr (List.mem_range.mpr hf)⟩
      · rintro ⟨k, hk⟩
        cases k with
        | free => exact List.mem_range.mp (List.mem_reverse.mp hk)
        | node v => exact absurd hk List.not_mem_nil
        | draining => exact absurd hk List.not_mem_nil
  size_eq := by
    rw [init, nodeCount, UInt16.toNat_ofNat', Nat.mod_eq_of_lt hsize]
  pending_eq v := rfl

theorem pushAll_eq {pool : FramePool Handle} {f : FrameId} (hs : List Handle)
    (h : (pool.storage f).bufs.length + hs.length ≤ kBurstSize) :
    ∃ frame : Frame Handle, frame.bufs = (pool.storage f).bufs ++ hs ∧
      hs.foldlM (fun pool handle => pool.push f handle) pool =
        .ok { pool with storage := Function.update pool.storage f frame } := by
  induction hs generalizing pool with
  | nil =>
    refine ⟨pool.storage f, (List.append_nil _).symm, ?_⟩
    rw [Function.update_eq_self]
    rfl
  | cons handle hs ih =>
    rw [List.length_cons] at h
    have hroom : (pool.storage f).bufs.length < kBurstSize := by omega
    obtain ⟨frame₁, hframe₁, hpush⟩ := push_eq handle hroom
    have hlen : (Function.update pool.storage f frame₁ f).bufs.length + hs.length ≤ kBurstSize := by
      rw [Function.update_self, hframe₁, List.length_append, List.length_singleton]
      omega
    obtain ⟨frame₂, hframe₂, hrest⟩ :=
      @ih { pool with storage := Function.update pool.storage f frame₁ } hlen
    refine ⟨frame₂, ?_, ?_⟩
    · simp only [hframe₂, Function.update_self, hframe₁, List.append_assoc, List.singleton_append]
    · simp only [Function.update_idem] at hrest
      rw [List.foldlM_cons, hpush]
      exact hrest

/-- Nothing is left to release when `RunOnce` begins. -/
theorem Idle.reset (h : d.Idle g) :
    d.reset = { d with pending := fun _ => [], queue := [], scheduled := fun _ => false } := by
  have hpool : (List.range d.size).foldl
      (fun pool v => (d.pending (UInt16.ofNat v)).foldl FramePool.release pool) d.pool =
        d.pool := by
    simp only [h.pending_eq, List.foldl_nil]
    exact List.foldl_fixed _
  rw [Dispatcher.reset, hpool]

theorem Idle.sound_reset (h : d.Idle g) : d.reset.Sound [] := by
  rw [h.reset]
  refine ⟨?_, h.sound.free_cleared⟩
  have hframes : Dispatcher.frames { d with
      pending := fun _ => [], queue := [], scheduled := fun _ => false } [] = d.frames [] := by
    funext k
    cases k with
    | free => rfl
    | node v => exact (h.pending_eq v).symm
    | draining => rfl
  rw [hframes]
  exact h.sound.partitioned

theorem ready_reset (d : Dispatcher Handle) : d.reset.Ready :=
  ⟨fun _ h => absurd rfl h, fun v => by simp [Dispatcher.reset], List.nodup_nil, by
    simp [Dispatcher.reset]⟩

/-- The dispatcher with the root frame pending at the root. -/
def seeded (root : NodeId) (frame : Frame Handle) (d : Dispatcher Handle) : Dispatcher Handle :=
  { d.reset.addFrame root with
    pool := { (d.reset.addFrame root).pool with
      storage := Function.update (d.reset.addFrame root).pool.storage d.reset.pool.acquire.1
        frame } }

theorem pending_seeded : (d.seeded root frame).pending root = [d.reset.pool.acquire.1] :=
  Function.update_self _ _ _

/-- The frame that the root frame is copied to has room for it. -/
theorem pool_seeded (root : NodeId) :
    frame.bufs.foldlM (fun pool handle => pool.push d.reset.pool.acquire.1 handle)
      d.reset.pool.acquire.2 = .ok (d.seeded root frame).pool := by
  have hcleared : (d.reset.addFrame root).pool.storage d.reset.pool.acquire.1 = .cleared :=
    storage_addFrame_acquire
  have hroom : ((d.reset.addFrame root).pool.storage d.reset.pool.acquire.1).bufs.length +
      frame.bufs.length ≤ kBurstSize := by
    rw [hcleared]
    exact (Nat.zero_add _).trans_le frame.count_le
  obtain ⟨filled, hfilled, hpush⟩ := pushAll_eq frame.bufs hroom
  obtain rfl : filled = frame := by
    rw [hcleared] at hfilled
    exact Frame.ext hfilled
  exact hpush

theorem seed_eq (hlt : root.toNat < d.size) :
    d.seed root frame = (d.seeded root frame).schedule root := by
  rw [seed, checkIndex, if_pos (show root.toNat < d.reset.size from hlt)]
  simp only [pool_seeded root]
  rfl

theorem pending_seeded_of_ne {v : NodeId} (hv : v ≠ root) :
    (d.seeded root frame).pending v = d.reset.pending v :=
  Function.update_of_ne hv _ _

theorem storage_seeded :
    (d.seeded root frame).pool.storage d.reset.pool.acquire.1 = frame :=
  Function.update_self _ _ _

theorem Idle.sound_seeded (h : d.Idle g) (root : NodeId) (frame : Frame Handle) :
    (d.seeded root frame).Sound [] := by
  have hmem : d.reset.pool.acquire.1 ∈ (d.reset.addFrame root).frames [] (.node root) := by
    simp [frames, Dispatcher.addFrame]
  exact h.sound_reset.addFrame.fill Owner.noConfusion hmem frame

theorem content_seeded (v : NodeId) :
    (d.seeded root frame).content v = if v = root then frame.bufs else [] := by
  by_cases hv : v = root
  · subst hv
    rw [if_pos rfl, content, pending_seeded, List.flatMap_singleton, storage_seeded]
  · rw [if_neg hv, content, pending_seeded_of_ne hv]
    rfl

/-- `Schedule` puts the root on the empty stack. -/
theorem schedule_seeded (hlt : root.toNat < d.size) :
    ∃ scheduled, (d.seeded root frame).schedule root =
        .ok { d.seeded root frame with scheduled := scheduled, queue := [root] } ∧
      ({ d.seeded root frame with scheduled := scheduled, queue := [root] }
        : Dispatcher Handle).Ready := by
  have hlt' : root.toNat < (d.seeded root frame).size := hlt
  obtain ⟨scheduled, new, hsched, hready, hnew⟩ :=
    (ready_reset d).schedule hlt' (fun v hv => pending_seeded_of_ne hv) rfl rfl rfl
  have hnil : d.reset.queue = [] := rfl
  rw [hnil, List.append_nil] at hsched hready
  have hmem : root ∈ new :=
    (hready.mem_queue_iff root).mpr (hready.scheduled_of_pending root (by simp [pending_seeded]))
  obtain rfl : new = [root] := by
    cases new with
    | nil => exact absurd hmem List.not_mem_nil
    | cons v rest =>
      cases rest with
      | nil => rw [hnew v List.mem_cons_self]
      | cons v' rest =>
        have hne : v ≠ v' := fun hv =>
          (List.nodup_cons.mp hready.nodup_queue).1 (hv ▸ List.mem_cons_self)
        exact absurd ((hnew v (by simp)).trans (hnew v' (by simp)).symm) hne
  exact ⟨scheduled, hsched, hready⟩

/-- The root frame is pending at the root, and nothing else is. -/
theorem Idle.seed (h : d.Idle g) (hroot : root.toNat < g.nodes.length) (frame : Frame Handle)
    (world : σ) :
    ∃ (d' : Dispatcher Handle) (f : FrameId), d.seed root frame = .ok d' ∧ d'.queue = [root] ∧
      d'.pending root = [f] ∧ (d'.pool.storage f).bufs = frame.bufs ∧
      Run.Balanced g root frame.bufs world root [] { disp := d', world := world } := by
  have hlt : root.toNat < d.size := hroot.trans_eq h.size_eq.symm
  have hsound := h.sound_seeded root frame
  have hpending : (d.seeded root frame).pending root = [d.reset.pool.acquire.1] := pending_seeded
  obtain ⟨scheduled, hsched, hready⟩ := schedule_seeded hlt
  refine ⟨{ d.seeded root frame with scheduled := scheduled, queue := [root] },
    d.reset.pool.acquire.1, (seed_eq hlt).trans hsched, rfl, hpending,
    congrArg Frame.bufs storage_seeded,
    ⟨hsound.partitioned, hsound.free_cleared⟩, hready, h.size_eq, .nil _, fun v => ?_⟩
  have hcontent : Dispatcher.content
      { d.seeded root frame with scheduled := scheduled, queue := [root] } v =
      if v = root then frame.bufs else [] := content_seeded v
  rw [hcontent]
  simp [received, routed]

/-- The states of a dispatcher between two calls of `RunOnce`. -/
inductive Reachable (g : Graph σ Handle) (root : NodeId) : Dispatcher Handle → Prop
  | init : Reachable g root (init g)
  | runOnce {d : Dispatcher Handle} (h : Reachable g root d) {fuel : ℕ} {frame : Frame Handle}
      {world : σ} {r : Run σ Handle} (hrun : runOnce g root fuel frame d world = .ok r) :
      Reachable g root r.disp

/-- `RunOnce` does not fault; when it returns, everything that was routed was received. -/
theorem Idle.runOnce (h : d.Idle g) (hroot : root.toNat < g.nodes.length) (fuel : ℕ)
    (frame : Frame Handle) (world : σ) :
    Dispatcher.runOnce g root fuel frame d world = .error .running ∨
      ∃ r, Dispatcher.runOnce g root fuel frame d world = .ok r ∧ r.disp.Idle g ∧
        Trace g world r.log r.world ∧
        (∃ c rest, r.log = c :: rest ∧ c.node = root ∧ c.input = frame.bufs ∧
          ∀ c' ∈ rest, ∃ u out, g.Edge u out c'.node) ∧
        ∀ v, received r.log v = (if v = root then frame.bufs else []) ++ routed g r.log v := by
  obtain ⟨d', f, hseed, hqueue, hpending, hframe, hbal⟩ := h.seed hroot frame world
  have hrun : Dispatcher.runOnce g root fuel frame d world =
      Run.drain g fuel { disp := d', world := world } := by
    rw [Dispatcher.runOnce, hseed]
    rfl
  rw [hrun]
  cases fuel with
  | zero => exact .inl (Run.drain_zero_of_cons hqueue)
  | succ fuel =>
    -- The first node is the root, with the root frame as its only pending frame.
    obtain ⟨r₁, hrun₁, hadv, hbal₁, hhead⟩ := hbal.drainNode hqueue
    obtain ⟨c, hcnode, hcinput, hlog₁⟩ := hhead f hpending
    obtain ⟨new, hqueue₁, hnew⟩ := hadv.queue_eq
    rw [Run.drain_succ_of_cons hqueue hrun₁]
    refine (hbal₁.drain fuel).imp_right ?_
    rintro ⟨r, rest, hr, hempty, hlog, hrest, hbal'⟩
    have hnone := Run.pending_eq_nil hbal'.ready hempty
    refine ⟨r, hr, ⟨hbal'.sound, hbal'.size_eq, hnone⟩, hbal'.trace,
      ⟨c, rest, ?_, hcnode, hcinput.trans hframe, fun c' hc' => ?_⟩, fun v => ?_⟩
    · rw [hlog, hlog₁]
      rfl
    · obtain hmem | hedge := hrest c' hc'
      · rw [hqueue₁] at hmem
        obtain hmem | hmem := List.mem_append.mp hmem
        · exact ⟨root, hnew _ hmem⟩
        · exact absurd hmem List.not_mem_nil
      · exact hedge
    · have hbalance := hbal'.balance v
      simpa [content, hnone] using hbalance

theorem Reachable.idle (hsize : g.nodes.length < 2 ^ 16) (hroot : root.toNat < g.nodes.length)
    (h : Reachable g root d) : d.Idle g := by
  induction h with
  | init => exact idle_init hsize
  | runOnce h hrun ih =>
    obtain hrunning | ⟨r', hr', hidle, -⟩ := ih.runOnce hroot _ _ _
    · rw [hrunning] at hrun
      cases hrun
    · obtain rfl := Except.ok.inj (hr'.symm.trans hrun)
      exact hidle

/-- What is pushed on an output is, in this order, among what is routed to its target. -/
theorem pushed_sublist_routed {u v : NodeId} {out : ℕ} (h : g.Edge u out v)
    (log : List (Call Handle)) : (pushed log u out).Sublist (routed g log v) := by
  have hout : out < g.fanout u := by
    by_contra hout
    exact h.2 (h.1.symm.trans (List.getD_eq_default _ _ (not_lt.mp hout)))
  refine List.Sublist.flatMap_right log fun c _ => ?_
  by_cases hc : c.node = u
  · have hsent : sentTo g u out (c.outs out) v = c.outs out := if_pos h
    rw [if_pos hc, Call.routed, hc, List.flatMap_def]
    exact List.sublist_flatten_of_mem (List.mem_map.mpr ⟨out, List.mem_range.mpr hout, hsent⟩)
  · rw [if_neg hc]
    exact List.nil_sublist _

/-- The log of a run of `RunOnce` begins with the root frame at the root. Each node receives what
was pushed on the outputs wired to it and nothing else, in the order of the pushes. No frame is
pushed on when it is full, and no vector is read beyond its end, whether the run ends or not. -/
theorem delivers_exactly_once (hsize : g.nodes.length ≤ 65535)
    (hroot : root.toNat < g.nodes.length) (hd : Reachable g root d) (frame : Frame Handle)
    (world : σ) (fuel : ℕ) :
    runOnce g root fuel frame d world = .error .running ∨
      ∃ r, runOnce g root fuel frame d world = .ok r ∧
        Trace g world r.log r.world ∧
        (∃ c rest, r.log = c :: rest ∧ c.node = root ∧ c.input = frame.bufs) ∧
        (∀ v, received r.log v = (if v = root then frame.bufs else []) ++ routed g r.log v) ∧
        ∀ u out v, g.Edge u out v → (pushed r.log u out).Sublist (received r.log v) := by
  have hidle : d.Idle g := hd.idle (Nat.lt_succ_of_le hsize) hroot
  refine (hidle.runOnce hroot fuel frame world).imp_right ?_
  rintro ⟨r, hr, -, htrace, hhead, hreceived⟩
  obtain ⟨c, rest, hlog, hcnode, hcinput, -⟩ := hhead
  refine ⟨r, hr, htrace, ⟨c, rest, hlog, hcnode, hcinput⟩, hreceived, fun u out v h => ?_⟩
  rw [hreceived v]
  exact (pushed_sublist_routed h r.log).trans (List.sublist_append_right _ _)

/-- A node that counts its passes and sends handles to output `0` on the first one, then to `1`. -/
private def loopNode : Node ℕ ℕ where
  nextCount := 2
  nextCount_le := two_le_kMaxFanout
  process passes input :=
    (passes + 1, fun out => if out.val = min passes 1 then input else .cleared)

private def sinkNode : Node ℕ ℕ where
  nextCount := 0
  nextCount_le := Nat.zero_le kMaxFanout
  process passes _ := (passes, Fin.elim0)

/-- A node with an edge to itself and one to a sink. -/
private def loopGraph : Except String (Graph ℕ ℕ) := do
  let (g, loop) := Graph.addNode .empty loopNode
  let (g, sink) := g.addNode sinkNode
  let g ← g.wire loop 0 loop
  g.wire loop 1 sink

/-- Three handles go round the loop once, then to the sink. -/
theorem delivers_exactly_once_loop :
    ∃ g : Graph ℕ ℕ, loopGraph = .ok g ∧ ∃ r,
      runOnce g 0 3 ⟨[7, 8, 9], by decide⟩ (init g) 0 = .ok r ∧
      (pushed r.log 0 1).Sublist (received r.log 1) ∧ received r.log 1 = routed g r.log 1 := by
  obtain ⟨g, hg, hlen, hedge, hends⟩ : ∃ g : Graph ℕ ℕ, loopGraph = .ok g ∧
      g.nodes.length = 2 ∧ g.Edge 0 1 1 ∧
      (runOnce g 0 3 ⟨[7, 8, 9], by decide⟩ (init g) 0).toBool = true :=
    ⟨_, rfl, rfl, by decide, by decide⟩
  have hroot : (0 : NodeId).toNat < g.nodes.length := hlen.symm ▸ Nat.two_pos
  refine ⟨g, hg, ?_⟩
  obtain hrunning | ⟨r, hr, -, -, hreceived, hpushed⟩ := delivers_exactly_once
    (hlen.trans_le (by decide)) hroot .init ⟨[7, 8, 9], by decide⟩ 0 3
  · rw [hrunning] at hends
    exact absurd hends Bool.noConfusion
  · exact ⟨r, hr, hpushed 0 1 1 hedge, hreceived 1⟩

/-! ### Graphs with too many nodes -/

/-- A node that passes on what it is given. -/
def relayNode : Node Unit ℕ where
  nextCount := 1
  nextCount_le := one_le_kMaxFanout
  process world input := (world, fun _ => input)

/-- The graph after `n` calls of `AddNode`. -/
def relays (n : ℕ) : Graph Unit ℕ := (fun g => (g.addNode relayNode).1)^[n] .empty

theorem nodes_relays (n : ℕ) : (relays n).nodes = List.replicate n relayNode := by
  induction n with
  | zero => rfl
  | succ n ih =>
    rw [relays, Function.iterate_succ_apply', List.replicate_succ', ← ih]
    rfl

theorem routing_relays (n : ℕ) : (relays n).routing = List.replicate n [kInvalid] := by
  induction n with
  | zero => rfl
  | succ n ih =>
    rw [relays, Function.iterate_succ_apply', List.replicate_succ', ← ih]
    rfl

/-- The number of the last node of `2 ^ 16` is `kInvalid`. In a graph with one more node the vectors
of the dispatcher have one entry, and what the first node pushes on an output that is wired to the
node with the number `kInvalid` is delivered nowhere. -/
theorem invalid_id_swallows_handles :
    ∃ g r, (relays 65537).wire 0 0 0xFFFF = .ok g ∧
      runOnce g 0 1 ⟨[7], by decide⟩ (init g) () = .ok r ∧
      pushed r.log 0 0 = [7] ∧ received r.log 0xFFFF = [] := by
  have hlen : (relays 65537).nodes.length = 65537 := by
    rw [nodes_relays, List.length_replicate]
  have hrow : (relays 65537).fanout 0 = 1 := by
    rw [fanout, routing_relays]
    rfl
  have hfirst : (0 : NodeId).toNat < (relays 65537).nodes.length := by
    rw [hlen]
    decide
  have hlast : (0xFFFF : NodeId).toNat < (relays 65537).nodes.length := by
    rw [hlen]
    decide
  obtain ⟨g, hwire, hnodes, -⟩ := wire_eq_ok hfirst hlast (hrow ▸ Nat.one_pos)
  have htarget : g.target 0 0 = kInvalid := by
    rw [target_wire hwire, if_pos ⟨rfl, rfl⟩]
    rfl
  have hnode : g.nodes[(0 : NodeId).toNat]? = some relayNode := by
    rw [hnodes, nodes_relays]
    rfl
  have hinit : init g = { size := 1, pool := .reserve ℕ 9 } := by
    rw [init, nodeCount, hnodes, hlen]
    rfl
  obtain ⟨d', hseed, hqueue, hpending, hsize, hframe⟩ : ∃ d',
      seed 0 ⟨[7], by decide⟩ { size := 1, pool := .reserve ℕ 9 } = .ok d' ∧ d'.queue = [0] ∧
      d'.pending 0 = [8] ∧ d'.size = 1 ∧ d'.pool.storage 8 = ⟨[7], by decide⟩ :=
    ⟨_, rfl, rfl, rfl, rfl, rfl⟩
  -- The only output leads to `kInvalid`, so that nothing is routed.
  have hroute (d : Dispatcher ℕ) : (List.range (g.fanout 0)).foldlM (routeOutput g 0) d =
      .ok d := by
    have hskip : routeOutput g 0 d 0 = .ok d := if_pos (.inl htarget)
    have hone : List.range (g.fanout 0) = [0] := by
      rw [fanout_eq hnode]
      rfl
    rw [hone, List.foldlM_cons, hskip]
    rfl
  have hrun_node (r : Run Unit ℕ) (input : Frame ℕ) : Run.runNode g 0 input r =
      .ok ⟨{ r.disp with scratch := outputs (fun _ : Fin 1 => input) r.disp.scratch }, (),
        r.log ++ [relayNode.call 0 r.world input]⟩ := by
    rw [Run.runNode, hnode]
    simp only [hroute]
    rfl
  have hdrain : ∃ r', Run.drainNode g 0 (Run.pop 0 [] { disp := d', world := () }) = .ok r' ∧
      r'.disp.queue = [] ∧ r'.log = [relayNode.call 0 () ⟨[7], by decide⟩] := by
    have hindex : checkIndex (Run.pop 0 [] { disp := d', world := () }).disp 0 = .ok () :=
      if_pos (hsize.symm ▸ Nat.one_pos)
    have hpop : (Run.pop 0 [] ({ disp := d', world := () } : Run Unit ℕ)).disp.pending 0 = [8] :=
      hpending
    rw [Run.drainNode, hindex, hpop]
    simp only [Run.drainFrames, hrun_node]
    exact ⟨_, rfl, rfl, congrArg (fun input => [relayNode.call 0 () input]) hframe⟩
  obtain ⟨r, hrun, hempty, hlog⟩ := hdrain
  refine ⟨g, r, hwire, ?_, ?_, ?_⟩
  · rw [hinit, runOnce, hseed]
    exact (Run.drain_succ_of_cons hqueue hrun 0).trans (Run.drain_of_nil hempty 0)
  · rw [hlog]
    rfl
  · rw [hlog]
    rfl

end Dispatcher

end Cerebellum
