import Cerebellum.Graph.FrameReturn

/-!
# The pool of frames never grows

The constructor of `Dispatcher` reserves a frame for each node and `kMaxFanout` more. `Acquire`
makes a new frame only when none is free, and in the graphs of `main.cpp` this does not happen: the
root takes in one burst, no node passes on more handles than it was given, and so all handles that
are under way at a time fit into one frame at each node. At every moment of every run the frames in
use are at most one for each node and the one that is being processed.

To have one bound for a whole run, the frame at the root counts as full until the root was called,
whatever it holds.

## Main definitions

* `Cerebellum.Graph.Frugal`: the root takes in one burst, the other nodes add nothing.
* `Cerebellum.Dispatcher.Spare`, `Cerebellum.Run.Reserved`: the invariants.
* `Cerebellum.NeverAllocates`: the pool keeps its size in all runs, and has frames to spare.

## Main results

* `Cerebellum.Run.Reserved.step`: each step of the loops keeps the invariant.
* `Cerebellum.neverAllocates`: the pool of such a graph never grows.
-/

namespace Cerebellum

open Graph Relation

variable {σ Handle : Type}

/-- The root pushes at most one burst and is the target of no output; the other nodes push at most
as many handles as they are given. -/
structure Graph.Frugal (g : Graph σ Handle) (root : NodeId) : Prop where
  not_edge_root : ∀ u out, ¬ g.Edge u out root
  push_le : ∀ (v : NodeId) (node : Node σ Handle), g.nodes[v.toNat]? = some node →
    ∀ (world : σ) (input : Frame Handle),
      ∑ out, ((node.process world input).2 out).bufs.length ≤
        if v = root then kBurstSize else input.bufs.length

namespace Dispatcher

variable {d d' : Dispatcher Handle} {held : List FrameId} {target root : NodeId}

/-! ### Frames to spare -/

/-- At most one frame is pending at each node, and the pool has its first size. -/
structure Spare (d : Dispatcher Handle) : Prop where
  length_le : ∀ v, (d.pending v).length ≤ 1
  lt_size : ∀ v, d.pending v ≠ [] → v.toNat < d.size
  allocated_eq : d.pool.allocated = d.size + kMaxFanout

/-- Every frame is free, held, or pending at a node. -/
theorem Sound.allocated_le (h : d.Sound held) :
    d.pool.allocated ≤ d.pool.free.length + held.length + ∑ v, (d.pending v).length := by
  have hsub : Finset.range d.pool.allocated ⊆ d.pool.free.toFinset ∪ held.toFinset ∪
      Finset.univ.biUnion fun v => (d.pending v).toFinset := by
    intro f hf
    simp only [Finset.mem_union, List.mem_toFinset, Finset.mem_biUnion, Finset.mem_univ, true_and]
    obtain ⟨k, hk⟩ := (h.partitioned.iff_mem f).mp (Finset.mem_range.mp hf)
    cases k with
    | free => exact Or.inl (Or.inl hk)
    | node v => exact Or.inr ⟨v, hk⟩
    | draining => exact Or.inl (Or.inr hk)
  have hcard := Finset.card_le_card hsub
  rw [Finset.card_range] at hcard
  refine hcard.trans ((Finset.card_union_le _ _).trans (add_le_add ?_ ?_))
  · exact (Finset.card_union_le _ _).trans
      (add_le_add (List.toFinset_card_le _) (List.toFinset_card_le _))
  · exact Finset.card_biUnion_le.trans (Finset.sum_le_sum fun v _ => List.toFinset_card_le _)

theorem Spare.sum_length_le (h : d.Spare) : ∑ v, (d.pending v).length ≤ d.size := by
  have hone (v : NodeId) : (d.pending v).length ≤ if v.toNat < d.size then 1 else 0 := by
    split_ifs with hv
    · exact h.length_le v
    · exact (List.length_eq_zero_iff.mpr (by_contra fun hne => hv (h.lt_size v hne))).le
  refine (Finset.sum_le_sum fun v _ => hone v).trans ?_
  rw [Finset.sum_boole]
  refine (Finset.card_le_card_of_injOn UInt16.toNat (fun v hv => ?_)
    fun v _ v' _ hvv' => UInt16.toNat_inj.mp hvv').trans (Finset.card_range d.size).le
  exact Finset.mem_coe.mpr (Finset.mem_range.mpr (Finset.mem_filter.mp hv).2)

/-- With one frame being processed, all but one of the `kMaxFanout` extra frames are free. -/
theorem Spare.le_length_free (h : d.Spare) (hsound : d.Sound held) (hheld : held.length ≤ 1) :
    kMaxFanout - 1 ≤ d.pool.free.length := by
  have hall := hsound.allocated_le
  have hsum := h.sum_length_le
  rw [h.allocated_eq] at hall
  omega

theorem Spare.free_ne_nil (h : d.Spare) (hsound : d.Sound held) (hheld : held.length ≤ 1) :
    d.pool.free ≠ [] := by
  have hle := h.le_length_free hsound hheld
  have hfan : kMaxFanout = 8 := rfl
  rw [← List.length_pos_iff]
  omega

/-- `Acquire` takes a frame of the pool when one is free. -/
theorem allocated_addFrame (hfree : d.pool.free ≠ []) :
    (d.addFrame target).pool.allocated = d.pool.allocated := by
  obtain ⟨f, free, hcons⟩ := List.exists_cons_of_ne_nil hfree
  simp only [Dispatcher.addFrame, acquire_cons hcons]

/-- A node with less than a burst pending has room in its only frame, or has none and is given one.
-/
theorem Spare.openFrame (h : d.Spare) (hsound : d.Sound held) (hheld : held.length ≤ 1)
    (hlt : target.toNat < d.size) (hroom : (d.content target).length < kBurstSize) :
    (d.openFrame target).Spare := by
  unfold Dispatcher.openFrame
  cases hlast : (d.pending target).getLast? with
  | none =>
    have hnil := List.getLast?_eq_none_iff.mp hlast
    have hpending (v : NodeId) (hv : v ≠ target) : (d.addFrame target).pending v = d.pending v :=
      Function.update_of_ne hv _ _
    have htarget : (d.addFrame target).pending target = [d.pool.acquire.1] := by
      simp only [Dispatcher.addFrame, Function.update_self, hnil, List.nil_append]
    refine ⟨fun v => ?_, fun v hv => ?_, ?_⟩
    · by_cases hvt : v = target
      · rw [hvt, htarget]
        exact le_rfl
      · rw [hpending v hvt]
        exact h.length_le v
    · by_cases hvt : v = target
      · exact hvt ▸ hlt
      · exact h.lt_size v (hpending v hvt ▸ hv)
    · exact (allocated_addFrame (h.free_ne_nil hsound hheld)).trans h.allocated_eq
  | some f =>
    obtain ⟨frames, hframes⟩ := List.getLast?_eq_some_iff.mp hlast
    have hsingle : d.pending target = [f] := by
      have hle := h.length_le target
      rw [hframes, List.length_append, List.length_singleton] at hle
      have hinit : frames = [] := List.length_eq_zero_iff.mp (by omega)
      rw [hframes, hinit, List.nil_append]
    have hnotfull : ¬ (d.pool.storage f).full = true := by
      rw [content, hsingle, List.flatMap_singleton] at hroom
      rw [Frame.full, decide_eq_true_eq]
      exact hroom.ne
    simp only [if_neg hnotfull]
    exact h

theorem Spare.pushBack (h : d.Spare) (hsound : d.Sound held) (hheld : held.length ≤ 1)
    (hlt : target.toNat < d.size) (hroom : (d.content target).length < kBurstSize)
    {handle : Handle} (hpush : pushBack target d handle = .ok d') : d'.Spare := by
  obtain ⟨-, frames, f, hpending, hfroom⟩ := hsound.openFrame target
  obtain ⟨frame, -, hpush'⟩ := push_eq handle hfroom
  have hopen := h.openFrame hsound hheld hlt hroom
  rw [Dispatcher.pushBack, hpending, List.getLast?_concat] at hpush
  simp only [hpush'] at hpush
  obtain rfl := Except.ok.inj hpush
  exact ⟨hopen.length_le, hopen.lt_size, hopen.allocated_eq⟩

/-- `RouteInto` with handles that fit into the frame of the target. -/
theorem Spare.pushAll (h : d.Spare) (hsound : d.Sound held) (hheld : held.length ≤ 1)
    (hlt : target.toNat < d.size) {hs : List Handle}
    (hroom : (d.content target).length + hs.length ≤ kBurstSize)
    (hpush : hs.foldlM (Dispatcher.pushBack target) d = .ok d') : d'.Spare := by
  induction hs generalizing d with
  | nil =>
    obtain rfl := Except.ok.inj hpush
    exact h
  | cons handle hs ih =>
    obtain ⟨d₁, hd₁, happ⟩ := hsound.pushBack target handle
    rw [List.length_cons] at hroom
    rw [List.foldlM_cons, hd₁] at hpush
    refine ih (h.pushBack hsound hheld hlt (by omega) hd₁) happ.sound (happ.size_eq ▸ hlt) ?_ hpush
    rw [happ.content_eq, if_pos rfl, List.length_append, List.length_singleton]
    omega

/-! ### Handles under way -/

/-- The handles pending at a node; the frame at the root counts as full. -/
def pendingLoad (root : NodeId) (d : Dispatcher Handle) (v : NodeId) : ℕ :=
  if v = root then kBurstSize * (d.pending v).length else (d.content v).length

/-- The handles in the frames of a node that were not processed yet. -/
def heldLoad (root : NodeId) (d : Dispatcher Handle) (v : NodeId) (held : List FrameId) : ℕ :=
  (held.map fun f => if v = root then kBurstSize else (d.pool.storage f).bufs.length).sum

/-- The handles on outputs that were not routed yet. -/
def scratchLoad (d : Dispatcher Handle) (outs : List ℕ) : ℕ :=
  (outs.map fun out => (d.scratch out).bufs.length).sum

theorem heldLoad_pending (root : NodeId) (d : Dispatcher Handle) (v : NodeId) :
    heldLoad root d v (d.pending v) = d.pendingLoad root v := by
  unfold heldLoad pendingLoad content
  split_ifs
  · rw [List.map_const', List.sum_replicate, smul_eq_mul, mul_comm]
  · rw [List.length_flatMap]

theorem sum_pendingLoad_take (root : NodeId) (d : Dispatcher Handle)
    {pending : NodeId → List FrameId} (v : NodeId)
    (hpending : pending = Function.update d.pending v []) :
    ∑ w, ({ d with pending := pending } : Dispatcher Handle).pendingLoad root w +
      d.pendingLoad root v = ∑ w, d.pendingLoad root w := by
  have hv : ({ d with pending := pending } : Dispatcher Handle).pendingLoad root v = 0 := by
    simp [pendingLoad, content, hpending]
  have hother : ∑ w ∈ Finset.univ.erase v,
      ({ d with pending := pending } : Dispatcher Handle).pendingLoad root w =
        ∑ w ∈ Finset.univ.erase v, d.pendingLoad root w := by
    refine Finset.sum_congr rfl fun w hw => ?_
    simp [pendingLoad, content, hpending, Function.update_of_ne (Finset.ne_of_mem_erase hw)]
  rw [← Finset.sum_erase_add _ _ (Finset.mem_univ v), hv, add_zero, hother,
    Finset.sum_erase_add _ _ (Finset.mem_univ v)]

/-- Handles that are routed to a node other than the root are pending there. -/
theorem Appends.sum_pendingLoad {hs : List Handle} (h : Appends held target hs d d')
    (htarget : target ≠ root) :
    ∑ v, d'.pendingLoad root v = ∑ v, d.pendingLoad root v + hs.length := by
  have hv : d'.pendingLoad root target = d.pendingLoad root target + hs.length := by
    rw [pendingLoad, pendingLoad, if_neg htarget, if_neg htarget, h.content_eq, if_pos rfl,
      List.length_append]
  have hother : ∑ v ∈ Finset.univ.erase target, d'.pendingLoad root v =
      ∑ v ∈ Finset.univ.erase target, d.pendingLoad root v := by
    refine Finset.sum_congr rfl fun v hv => ?_
    have hne : v ≠ target := Finset.ne_of_mem_erase hv
    rw [pendingLoad, pendingLoad, h.pending_eq v hne, h.content_eq, if_neg hne, List.append_nil]
  rw [← Finset.sum_erase_add _ _ (Finset.mem_univ target), hv, hother, ← add_assoc,
    Finset.sum_erase_add _ _ (Finset.mem_univ target)]

/-- `Schedule` changes neither the frames nor the size. -/
theorem eq_of_schedule (h : d.schedule target = .ok d') :
    d' = { d with scheduled := d'.scheduled, queue := d'.queue } := by
  rw [schedule] at h
  cases hcheck : d.checkIndex target with
  | error e =>
    rw [hcheck] at h
    cases h
  | ok _ =>
    rw [hcheck] at h
    change (if d.scheduled target = true then Except.ok d else _) = _ at h
    split_ifs at h
    · obtain rfl := Except.ok.inj h
      rfl
    · obtain rfl := Except.ok.inj h
      rfl

/-- Routing one output leaves everything as it is, or appends what was pushed to what is pending at
the target. -/
theorem Sound.routeOutput_cases {g : Graph σ Handle} {u : NodeId} {out : ℕ} (h : d.Sound held)
    (hsize : d.size = g.nodes.length) (hroute : d.routeOutput g u out = .ok d') :
    d' = d ∨ ∃ d₁, g.Edge u out (g.target u out) ∧ (g.target u out).toNat < d.size ∧
      (d.scratch out).bufs.foldlM (Dispatcher.pushBack (g.target u out)) d = .ok d₁ ∧
      Appends held (g.target u out) (d.scratch out).bufs d d₁ ∧
      d' = { d₁ with scheduled := d'.scheduled, queue := d'.queue } := by
  unfold Dispatcher.routeOutput at hroute
  split_ifs at hroute with hskip
  · exact Or.inl (Except.ok.inj hroute).symm
  · rw [not_or] at hskip
    have hedge : g.Edge u out (g.target u out) := ⟨rfl, hskip.1⟩
    have hlt : (g.target u out).toNat < d.size := hsize ▸ hedge.lt
    obtain ⟨d₁, hd₁, happ⟩ := h.pushAll (g.target u out) (d.scratch out).bufs
    rw [Dispatcher.routeInto, checkIndex, if_pos hlt] at hroute
    change ((d.scratch out).bufs.foldlM (Dispatcher.pushBack (g.target u out)) d >>= fun d =>
      d.schedule (g.target u out)) = .ok d' at hroute
    rw [hd₁] at hroute
    exact Or.inr ⟨d₁, hedge, hlt, hd₁, happ, eq_of_schedule hroute⟩

end Dispatcher

/-! ### The invariant of a run -/

namespace Run

/-- The handles that were taken from a node and not routed yet. -/
def Location.load (root : NodeId) (d : Dispatcher Handle) : Location → ℕ
  | loop | popped _ => 0
  | draining v held => d.heldLoad root v held
  | routing v _ held outs => d.heldLoad root v held + d.scratchLoad outs

/-- At most one frame is pending at each node and one is being processed, and all handles together
are at most one burst. -/
structure Reserved (g : Graph σ Handle) (root : NodeId) (s : Run σ Handle × Location) : Prop where
  owned : Owned g s
  spare : s.1.disp.Spare
  length_held_le : s.2.held.length ≤ 1
  load_le : ∑ v, s.1.disp.pendingLoad root v + s.2.load root s.1.disp ≤ kBurstSize

variable {g : Graph σ Handle} {root : NodeId} {s s' : Run σ Handle × Location}

/-- What a call pushes is at most what it was given. -/
theorem scratchLoad_process (hfrugal : g.Frugal root) {v : NodeId} {node : Node σ Handle}
    (hnode : g.nodes[v.toNat]? = some node) (d : Dispatcher Handle) (world : σ) (f : FrameId) :
    ({ d with scratch := outputs (node.process world (d.pool.storage f)).2 d.scratch }
      : Dispatcher Handle).scratchLoad (List.range (g.fanout v)) ≤ d.heldLoad root v [f] := by
  have hsum : ({ d with scratch := outputs (node.process world (d.pool.storage f)).2 d.scratch }
      : Dispatcher Handle).scratchLoad (List.range (g.fanout v)) =
        ∑ out ∈ Finset.range node.nextCount,
          (outputs (node.process world (d.pool.storage f)).2 d.scratch out).bufs.length := by
    rw [fanout_eq hnode]
    rfl
  rw [hsum, Finset.sum_range]
  have hpush := hfrugal.push_le v node hnode world (d.pool.storage f)
  simpa [Dispatcher.heldLoad, outputs] using hpush

/-- Each step of the loops keeps the invariant. -/
theorem Reserved.step (hfrugal : g.Frugal root) (h : Reserved g root s) (hstep : Step g s s') :
    Reserved g root s' := by
  have howned := h.owned.step hstep
  have hload := h.load_le
  cases hstep with
  | @pop r v queue hqueue =>
    exact ⟨howned, ⟨h.spare.length_le, h.spare.lt_size, h.spare.allocated_eq⟩,
      h.length_held_le, hload⟩
  | take r v =>
    refine ⟨howned, ⟨fun w => ?_, fun w hw => ?_, h.spare.allocated_eq⟩, h.spare.length_le v, ?_⟩
    · by_cases hwv : w = v
      · subst hwv
        simp
      · simp only [Function.update_of_ne hwv]
        exact h.spare.length_le w
    · by_cases hwv : w = v
      · subst hwv
        simp at hw
      · simp only [Function.update_of_ne hwv] at hw
        exact h.spare.lt_size w hw
    · have htake := Dispatcher.sum_pendingLoad_take root r.disp v rfl
      have hheld := Dispatcher.heldLoad_pending root r.disp v
      simp only [Location.load, Dispatcher.heldLoad] at hload hheld ⊢
      omega
  | @process r v node hnode f held =>
    have hpush := scratchLoad_process hfrugal hnode r.disp r.world f
    refine ⟨howned, ⟨h.spare.length_le, h.spare.lt_size, h.spare.allocated_eq⟩,
      h.length_held_le, le_trans ?_ hload⟩
    simp only [Location.load, Dispatcher.heldLoad, List.map_cons, List.sum_cons, List.map_nil,
      List.sum_nil, add_zero] at hpush ⊢
    refine add_le_add_right ?_ _
    omega
  | @route r v out disp hroute f held outs =>
    have hsound : r.disp.Sound (f :: held) := h.owned.sound
    have hspare : r.disp.Spare := h.spare
    obtain rfl | ⟨d₁, hedge, hlt, hpush, happ, heq⟩ :=
      hsound.routeOutput_cases h.owned.size_eq hroute
    · refine ⟨howned, h.spare, h.length_held_le, le_trans ?_ hload⟩
      simp only [Location.load, Dispatcher.scratchLoad, List.map_cons, List.sum_cons]
      omega
    · have htarget : g.target v out ≠ root := fun heq =>
        hfrugal.not_edge_root v out (heq ▸ hedge)
      have hsum := happ.sum_pendingLoad htarget
      have hone : r.disp.pendingLoad root (g.target v out) =
          (r.disp.content (g.target v out)).length := if_neg htarget
      have hle : r.disp.pendingLoad root (g.target v out) ≤ ∑ w, r.disp.pendingLoad root w :=
        Finset.single_le_sum (fun w _ => Nat.zero_le _) (Finset.mem_univ _)
      have hheld : d₁.heldLoad root v held = r.disp.heldLoad root v held := by
        refine congrArg List.sum (List.map_congr_left fun f' hf' => ?_)
        rw [happ.held_eq f' (List.mem_cons_of_mem f hf')]
      simp only [Location.load, Dispatcher.scratchLoad, List.map_cons, List.sum_cons] at hload
      have hspare' := hspare.pushAll hsound h.length_held_le hlt (by omega) hpush
      rw [heq] at howned ⊢
      refine ⟨howned, ⟨hspare'.length_le, hspare'.lt_size, hspare'.allocated_eq⟩,
        h.length_held_le, ?_⟩
      change ∑ w, d₁.pendingLoad root w + (d₁.heldLoad root v held + d₁.scratchLoad outs) ≤ _
      rw [hsum, hheld, Dispatcher.scratchLoad, happ.scratch_eq]
      omega
  | release r v f held =>
    have hstorage (f' : FrameId) (hf' : f' ∈ held ∨ ∃ w, f' ∈ r.disp.pending w) :
        (r.disp.pool.release f).storage f' = r.disp.pool.storage f' :=
      h.owned.sound.storage_release hf'
    refine ⟨howned, ⟨h.spare.length_le, h.spare.lt_size, h.spare.allocated_eq⟩,
      (Nat.le_succ _).trans h.length_held_le, le_trans (add_le_add (le_of_eq ?_) ?_) hload⟩
    · refine Finset.sum_congr rfl fun w _ => ?_
      have hcontent :
          ({ r.disp with pool := r.disp.pool.release f } : Dispatcher Handle).content w =
            r.disp.content w :=
        Dispatcher.flatMap_storage_congr fun f' hf' => hstorage f' (.inr ⟨w, hf'⟩)
      simp only [Dispatcher.pendingLoad, hcontent]
    · refine (le_of_eq (congrArg List.sum (List.map_congr_left fun f' hf' => ?_))).trans
        (Nat.le_add_right _ _)
      rw [hstorage f' (.inl hf')]
  | finish r v => exact ⟨howned, h.spare, h.length_held_le, hload⟩

/-- The invariant holds in each state of a run of the machine. -/
theorem Reserved.steps (hfrugal : g.Frugal root) (h : Reserved g root s)
    (hsteps : ReflTransGen (Step g) s s') : Reserved g root s' := by
  induction hsteps with
  | refl => exact h
  | tail _ hstep ih => exact ih.step hfrugal hstep

end Run

/-! ### Runs -/

namespace Dispatcher

variable {g : Graph σ Handle} {root : NodeId} {d : Dispatcher Handle}

/-- The root frame is put into a frame of the pool. -/
theorem Idle.reserved_seed (h : d.Idle g) (hroot : root.toNat < g.nodes.length)
    (hallocated : d.pool.allocated = d.size + kMaxFanout) {frame : Frame Handle} (world : σ)
    {d₀ : Dispatcher Handle} (hseed : d.seed root frame = .ok d₀) :
    Run.Reserved g root ({ disp := d₀, world := world }, .loop) := by
  have hlt : root.toNat < d.size := hroot.trans_eq h.size_eq.symm
  have hspare : d.reset.Spare := by
    rw [h.reset]
    exact ⟨fun v => Nat.zero_le _, fun v hv => absurd rfl hv, hallocated⟩
  have hfree := hspare.free_ne_nil h.sound_reset (Nat.zero_le _)
  obtain ⟨d', f, hseed', hqueue, -, -, hbal⟩ := h.seed hroot frame world
  obtain rfl := Except.ok.inj (hseed'.symm.trans hseed)
  obtain ⟨scheduled, hsched, -⟩ :=
    @schedule_seeded Handle root d frame hlt
  obtain rfl := Except.ok.inj (hsched.symm.trans ((seed_eq hlt).symm.trans hseed))
  have hpending (v : NodeId) : (d.seeded root frame).pending v =
      if v = root then [d.reset.pool.acquire.1] else [] := by
    split_ifs with hv
    · rw [hv, pending_seeded]
    · exact (pending_seeded_of_ne hv).trans rfl
  refine ⟨⟨hbal.sound, hbal.size_eq, fun _ hw => Run.Location.noConfusion hw,
    fun _ => hbal.ready⟩, ⟨fun v => ?_, fun v hv => ?_, ?_⟩, Nat.zero_le _, ?_⟩
  · change ((d.seeded root frame).pending v).length ≤ 1
    rw [hpending]
    split_ifs <;> simp
  · change (d.seeded root frame).pending v ≠ [] at hv
    rw [hpending] at hv
    split_ifs at hv with hroot'
    · exact hroot' ▸ hlt
    · exact absurd rfl hv
  · exact (allocated_addFrame hfree).trans hspare.allocated_eq
  · have hload (v : NodeId) : Dispatcher.pendingLoad root
        { d.seeded root frame with scheduled := scheduled, queue := [root] } v =
          if v = root then kBurstSize else 0 := by
      unfold pendingLoad
      split_ifs with hv
      · change kBurstSize * ((d.seeded root frame).pending v).length = kBurstSize
        rw [hpending, if_pos hv, List.length_singleton, mul_one]
      · exact congrArg List.length ((content_seeded v).trans (if_neg hv))
    simp only [hload, Finset.sum_ite_eq', Finset.mem_univ, if_true]
    exact le_rfl

/-- The pool keeps its first size over every run. -/
theorem Reachable.allocated_eq (hsize : g.nodes.length < 2 ^ 16)
    (hroot : root.toNat < g.nodes.length) (hfrugal : g.Frugal root) (h : Reachable g root d) :
    d.pool.allocated = d.size + kMaxFanout := by
  induction h with
  | init => rfl
  | @runOnce d h fuel frame world r hrun ih =>
    have hidle := h.idle hsize hroot
    obtain ⟨d₀, f, hseed, -⟩ := hidle.seed hroot frame world
    have hdrain : Run.drain g fuel { disp := d₀, world := world } = .ok r := by
      rw [Dispatcher.runOnce, hseed] at hrun
      exact hrun
    have hstart := hidle.reserved_seed hroot ih world hseed
    exact (hstart.steps hfrugal (Run.steps_drain hdrain)).spare.allocated_eq

end Dispatcher

/-- Whatever runs were made before, in every state of a run the pool has the frames that were
reserved when it was made, and all but one of the `kMaxFanout` extra ones are free. -/
def NeverAllocates (g : Graph σ Handle) (root : NodeId) : Prop :=
  ∀ d, Dispatcher.Reachable g root d → ∀ (frame : Frame Handle) (world : σ) d₀,
    d.seed root frame = .ok d₀ →
      ∀ s, ReflTransGen (Run.Step g) ({ disp := d₀, world := world }, .loop) s →
        s.1.disp.pool.allocated = g.nodes.length + kMaxFanout ∧
          kMaxFanout - 1 ≤ s.1.disp.pool.free.length

theorem neverAllocates {g : Graph σ Handle} {root : NodeId} (hsize : g.nodes.length < 2 ^ 16)
    (hroot : root.toNat < g.nodes.length) (hfrugal : g.Frugal root) : NeverAllocates g root := by
  intro d hd frame world d₀ hseed s hs
  have hstart := (hd.idle hsize hroot).reserved_seed hroot (hd.allocated_eq hsize hroot hfrugal)
    world hseed
  have hend := hstart.steps hfrugal hs
  exact ⟨hend.spare.allocated_eq.trans (congrArg (· + kMaxFanout) hend.owned.size_eq),
    hend.spare.le_length_free hend.owned.sound hend.length_held_le⟩

end Cerebellum
