import Cerebellum.Graph.Delivery
import Mathlib.Logic.Relation

/-!
# Handles in transit

An abstract dispatcher: a state is the list of handles that are pending at each node, and any node
may take the first of its handles and process them, all of them or as many as fit into a frame. It
has no frames, no pool and no stack. In a graph without edges from a node to itself every run of the
dispatcher is a run of this machine, from the root frame to the state in which nothing is pending
(`Cerebellum.Dispatcher.Idle.runOnce_transits`), so that what all runs of the machine preserve is
preserved by the dispatcher.

That a node takes less than all its handles only if these fill a frame depends on how `RouteInto`
packs them: every frame that is pending at a node is full, except the last one
(`Cerebellum.Dispatcher.Packed`).

## Main definitions

* `Cerebellum.Dispatcher.Packed`: the frames that are pending are full, except the last ones.
* `Cerebellum.Transit`, `Cerebellum.Transit.Step`, `Cerebellum.Transit.Steps`: the machine.

## Main results

* `Cerebellum.Dispatcher.Idle.runOnce_transits`: the dispatcher is a refinement of the machine.
-/

namespace Cerebellum

open Graph

variable {σ Handle : Type}

namespace Dispatcher

variable {d d' : Dispatcher Handle} {held : List FrameId} {target : NodeId}

/-! ### Packing -/

/-- All these frames are full, except the last one. -/
def PackedFrames (storage : FrameId → Frame Handle) (frames : List FrameId) : Prop :=
  ∀ f ∈ frames.dropLast, (storage f).bufs.length = kBurstSize

/-- The frames that are pending at each node are full, except the last one. -/
def Packed (d : Dispatcher Handle) : Prop :=
  ∀ v, PackedFrames d.pool.storage (d.pending v)

theorem PackedFrames.congr {storage storage' : FrameId → Frame Handle} {frames : List FrameId}
    (h : PackedFrames storage frames) (heq : ∀ f ∈ frames, storage' f = storage f) :
    PackedFrames storage' frames := by
  intro f hf
  rw [heq f (List.dropLast_subset _ hf)]
  exact h f hf

/-- A new frame is added only when the last one is full. -/
theorem Packed.openFrame (h : d.Sound held) (hpacked : d.Packed) (target : NodeId) :
    (d.openFrame target).Packed := by
  have hadd (hfull : ∀ f ∈ d.pending target, (d.pool.storage f).bufs.length = kBurstSize) :
      (d.addFrame target).Packed := by
    intro v
    have hsame (f : FrameId) (hf : f ∈ d.pending v) :
        (d.addFrame target).pool.storage f = d.pool.storage f :=
      h.storage_addFrame (k := .node v) Owner.noConfusion hf
    by_cases hv : v = target
    · subst hv
      have hpending : (d.addFrame v).pending v = d.pending v ++ [d.pool.acquire.1] :=
        Function.update_self _ _ _
      intro f hf
      rw [hpending, List.dropLast_concat] at hf
      rw [hsame f hf]
      exact hfull f hf
    · have hpending : (d.addFrame target).pending v = d.pending v := Function.update_of_ne hv _ _
      rw [hpending]
      exact (hpacked v).congr hsame
  unfold Dispatcher.openFrame
  cases hlast : (d.pending target).getLast? with
  | none =>
    refine hadd fun f hf => ?_
    rw [List.getLast?_eq_none_iff.mp hlast] at hf
    exact absurd hf List.not_mem_nil
  | some f =>
    simp only
    split_ifs with hfull
    · refine hadd fun f' hf' => ?_
      obtain ⟨frames, hframes⟩ := List.getLast?_eq_some_iff.mp hlast
      rw [hframes] at hf'
      rcases List.mem_append.mp hf' with hf' | hf'
      · refine hpacked target f' ?_
        rw [hframes, List.dropLast_concat]
        exact hf'
      · rw [List.mem_singleton.mp hf']
        exact of_decide_eq_true hfull
    · exact hpacked

/-- Handles are pushed on the last frame of a node, which may be less than full. -/
theorem Packed.pushBack (h : d.Sound held) (hpacked : d.Packed) {handle : Handle}
    (hpush : pushBack target d handle = .ok d') : d'.Packed := by
  obtain ⟨hopen, frames, f, hpending, hroom⟩ := h.openFrame target
  obtain ⟨frame, -, hpush'⟩ := push_eq handle hroom
  have hpacked' := hpacked.openFrame h target
  rw [Dispatcher.pushBack, hpending, List.getLast?_concat] at hpush
  simp only [hpush'] at hpush
  obtain rfl := Except.ok.inj hpush
  intro v
  by_cases hv : v = target
  · subst hv
    intro f' hf'
    change f' ∈ ((d.openFrame v).pending v).dropLast at hf'
    have hne : f' ≠ f := by
      rintro rfl
      have hnodup : (frames ++ [f']).Nodup :=
        hpending ▸ hopen.sound.partitioned.nodup (.node v)
      rw [hpending, List.dropLast_concat] at hf'
      exact (List.nodup_append.mp hnodup).2.2 f' hf' f' (List.mem_singleton_self _) rfl
    simp only [Function.update_of_ne hne]
    exact hpacked' v f' hf'
  · refine (hpacked' v).congr fun f' hf' => ?_
    have hne : f' ≠ f := by
      rintro rfl
      have hmem : f' ∈ (d.openFrame target).frames held (.node target) := by
        simp [Dispatcher.frames, hpending]
      exact hv (Owner.node.inj (hopen.sound.partitioned.eq_of_mem (i := .node v) hf' hmem))
    exact Function.update_of_ne hne _ _

theorem Packed.pushAll (h : d.Sound held) (hpacked : d.Packed) {hs : List Handle}
    (hpush : hs.foldlM (Dispatcher.pushBack target) d = .ok d') : d'.Packed := by
  induction hs generalizing d with
  | nil =>
    obtain rfl := Except.ok.inj hpush
    exact hpacked
  | cons handle hs ih =>
    obtain ⟨d₁, hd₁, happ⟩ := h.pushBack target handle
    rw [List.foldlM_cons, hd₁] at hpush
    exact ih happ.sound (hpacked.pushBack h hd₁) hpush

variable {g : Graph σ Handle} {u : NodeId}

theorem Packed.schedule (hpacked : d.Packed) (h : d.schedule target = .ok d') : d'.Packed := by
  rw [Dispatcher.schedule] at h
  cases hcheck : d.checkIndex target with
  | error e =>
    rw [hcheck] at h
    cases h
  | ok _ =>
    rw [hcheck] at h
    change (if d.scheduled target = true then Except.ok d else _) = _ at h
    split_ifs at h
    · obtain rfl := Except.ok.inj h
      exact hpacked
    · obtain rfl := Except.ok.inj h
      exact hpacked

theorem Packed.routeOutput (h : d.Sound held) (hpacked : d.Packed) {out : ℕ}
    (hroute : d.routeOutput g u out = .ok d') : d'.Packed := by
  unfold Dispatcher.routeOutput at hroute
  split_ifs at hroute with hskip
  · obtain rfl := Except.ok.inj hroute
    exact hpacked
  · cases hinto : d.routeInto (g.target u out) (d.scratch out) with
    | error e =>
      rw [hinto] at hroute
      cases hroute
    | ok d₁ =>
      rw [hinto] at hroute
      have hpush : (d.scratch out).bufs.foldlM (Dispatcher.pushBack (g.target u out)) d =
          .ok d₁ := by
        rw [Dispatcher.routeInto] at hinto
        cases hcheck : d.checkIndex (g.target u out) with
        | error e =>
          rw [hcheck] at hinto
          cases hinto
        | ok _ =>
          rw [hcheck] at hinto
          exact hinto
      exact (hpacked.pushAll h hpush).schedule hroute

theorem Packed.routeOutputs (h : d.Sound held) (hready : d.Ready)
    (hsize : d.size = g.nodes.length) (hpacked : d.Packed) {outs : List ℕ}
    (hroute : outs.foldlM (Dispatcher.routeOutput g u) d = .ok d') : d'.Packed := by
  induction outs generalizing d with
  | nil =>
    obtain rfl := Except.ok.inj hroute
    exact hpacked
  | cons out outs ih =>
    obtain ⟨d₁, hd₁, -, hext⟩ := h.routeOutput hready hsize (u := u) out
    rw [List.foldlM_cons, hd₁] at hroute
    exact ih hext.sound hext.ready (hext.size_eq.trans hsize) (hpacked.routeOutput h hd₁) hroute

end Dispatcher

/-! ### The machine -/

/-- What is pending at each node, and the state of the nodes. -/
structure Transit (σ Handle : Type) where
  pending : NodeId → List Handle
  world : σ

namespace Transit

variable {g : Graph σ Handle} {s s' : Transit σ Handle} {v : NodeId}

/-- A call at `v` for the first handles pending there, with `rest` left. -/
def after (g : Graph σ Handle) (s : Transit σ Handle) (v : NodeId) (node : Node σ Handle)
    (input : Frame Handle) (rest : List Handle) : Transit σ Handle where
  pending u := (if u = v then rest else s.pending u) ++ (node.call v s.world input).routed g u
  world := (node.process s.world input).1

/-- A node takes all handles that are pending there, or as many as fit into a frame. -/
inductive Step (g : Graph σ Handle) (s : Transit σ Handle) (v : NodeId) :
    Transit σ Handle → Prop
  | call {node : Node σ Handle} {rest : List Handle} (input : Frame Handle)
      (hnode : g.nodes[v.toNat]? = some node) (hpending : s.pending v = input.bufs ++ rest)
      (hfull : rest ≠ [] → input.bufs.length = kBurstSize) :
      Step g s v (s.after g v node input rest)

/-- Any number of steps at nodes that outputs lead to. -/
def Steps (g : Graph σ Handle) : Transit σ Handle → Transit σ Handle → Prop :=
  Relation.ReflTransGen fun s s' => ∃ v, (∃ u out, g.Edge u out v) ∧ Step g s v s'

/-- What every step at a node that an output leads to preserves is preserved by all of them. -/
theorem Steps.induct {I : Transit σ Handle → Prop} (h : Steps g s s')
    (hstep : ∀ s s' v, (∃ u out, g.Edge u out v) → Step g s v s' → I s → I s') (hI : I s) :
    I s' := by
  induction h with
  | refl => exact hI
  | tail _ hlast ih =>
    obtain ⟨v, hedge, hcall⟩ := hlast
    exact hstep _ _ v hedge hcall ih

/-- The handles `frame` are pending at the root, and nothing else is. -/
def start (root : NodeId) (frame : List Handle) (world : σ) : Transit σ Handle where
  pending v := if v = root then frame else []
  world := world

/-- Nothing is pending. -/
def done (world : σ) : Transit σ Handle where
  pending _ := []
  world := world

end Transit

/-! ### Refinement -/

namespace Run

variable {g : Graph σ Handle} {r : Run σ Handle} {held : List FrameId} {v root : NodeId}
  {frame : List Handle} {world₀ : σ}

/-- A run as a state of the machine, when `held` are the frames of `v` that are still to be
processed. -/
def transit (v : NodeId) (held : List FrameId) (r : Run σ Handle) : Transit σ Handle where
  pending u :=
    (if u = v then held.flatMap fun f => (r.disp.pool.storage f).bufs else []) ++ r.disp.content u
  world := r.world

/-- The loop of `DrainNode` at `v`: nothing new is pending there, and the frames are packed. -/
structure Draining (v : NodeId) (held : List FrameId) (r : Run σ Handle) : Prop where
  content_eq : r.disp.content v = []
  packed : r.disp.Packed
  packed_held : Dispatcher.PackedFrames r.disp.pool.storage held

/-- Without an edge from a node to itself, a call there adds nothing to what is pending there. -/
theorem routed_self (hself : ∀ out, ¬ g.Edge v out v) {c : Call Handle} (hc : c.node = v) :
    c.routed g v = [] := by
  rw [Call.routed, List.flatMap_eq_nil_iff]
  intro out _
  rw [hc]
  exact if_neg (hself out)

/-- `RunNode` leaves the pending frames packed. -/
theorem packed_runNode (hsound : r.disp.Sound held) (hready : r.disp.Ready)
    (hsize : r.disp.size = g.nodes.length) (hpacked : r.disp.Packed) {input : Frame Handle}
    {r' : Run σ Handle} (hrun : runNode g v input r = .ok r') : r'.disp.Packed := by
  unfold runNode at hrun
  split at hrun
  · cases hrun
  · rename_i node hnode
    cases hroute : (List.range (g.fanout v)).foldlM (Dispatcher.routeOutput g v)
        { r.disp with scratch := outputs (node.process r.world input).2 r.disp.scratch } with
    | error e =>
      simp only [hroute] at hrun
      cases hrun
    | ok disp =>
      simp only [hroute] at hrun
      obtain rfl := Except.ok.inj hrun
      exact Dispatcher.Packed.routeOutputs
        (d := { r.disp with scratch := outputs (node.process r.world input).2 r.disp.scratch })
        ⟨hsound.partitioned, hsound.free_cleared⟩
        ⟨hready.scheduled_of_pending, hready.mem_queue_iff, hready.nodup_queue, hready.lt_size⟩
        hsize hpacked hroute

/-- The body of the loop of `DrainNode` is a step of the machine. -/
theorem Draining.runFrame {f : FrameId} (hself : ∀ out, ¬ g.Edge v out v)
    (hv : v.toNat < g.nodes.length) (h : Balanced g root frame world₀ v (f :: held) r)
    (hdrain : r.Draining v (f :: held)) {r' : Run σ Handle}
    (hrun : runNode g v (r.disp.pool.storage f) r = .ok r') :
    Draining v held { r' with disp := { r'.disp with pool := r'.disp.pool.release f } } ∧
      Transit.Step g (r.transit v (f :: held)) v
        (transit v held { r' with disp := { r'.disp with pool := r'.disp.pool.release f } }) := by
  obtain ⟨node, hnode⟩ : ∃ node, g.nodes[v.toNat]? = some node := ⟨_, List.getElem?_eq_getElem hv⟩
  have hpacked := packed_runNode h.sound h.ready h.size_eq hdrain.packed hrun
  obtain ⟨disp, hrun', hext⟩ := runNode_eq h.sound h.ready h.size_eq hnode (r.disp.pool.storage f)
  obtain rfl := Except.ok.inj (hrun'.symm.trans hrun)
  have hrelease (f' : FrameId) (hf' : f' ∈ held) :
      (disp.pool.release f).storage f' = r.disp.pool.storage f' := by
    rw [hext.sound.storage_release (.inl hf'), hext.held_eq f' (List.mem_cons_of_mem _ hf')]
  have hpending (u : NodeId) (f' : FrameId) (hf' : f' ∈ disp.pending u) :
      (disp.pool.release f).storage f' = disp.pool.storage f' :=
    hext.sound.storage_release (.inr ⟨u, hf'⟩)
  have hcontent (u : NodeId) :
      ({ disp with pool := disp.pool.release f } : Dispatcher Handle).content u =
        r.disp.content u ++ (node.call v r.world (r.disp.pool.storage f)).routed g u :=
    (Dispatcher.flatMap_storage_congr (hpending u)).trans (hext.content_eq u)
  refine ⟨⟨?_, fun u => (hpacked u).congr (hpending u), ?_⟩, ?_⟩
  · simp only [hcontent, hdrain.content_eq, List.nil_append]
    exact routed_self hself rfl
  · refine Dispatcher.PackedFrames.congr (fun f' hf' => hdrain.packed_held f' ?_) hrelease
    cases held with
    | nil => exact absurd hf' List.not_mem_nil
    | cons f₁ held => exact List.mem_cons_of_mem _ hf'
  · have hafter : transit v held ⟨{ disp with pool := disp.pool.release f },
        (node.process r.world (r.disp.pool.storage f)).1,
        r.log ++ [node.call v r.world (r.disp.pool.storage f)]⟩ =
        (r.transit v (f :: held)).after g v node (r.disp.pool.storage f)
          ((held.flatMap fun f => (r.disp.pool.storage f).bufs) ++ r.disp.content v) := by
      simp only [transit, Transit.after, Transit.mk.injEq, and_true]
      funext u
      rw [hcontent, Dispatcher.flatMap_storage_congr hrelease]
      by_cases hu : u = v
      · simp [hu]
      · simp [hu]
    rw [hafter]
    refine .call _ hnode ?_ fun hrest => ?_
    · simp only [transit, if_true, List.flatMap_cons, List.append_assoc]
    · cases held with
      | nil =>
        rw [hdrain.content_eq, List.flatMap_nil] at hrest
        exact absurd rfl hrest
      | cons f₁ held => exact hdrain.packed_held f List.mem_cons_self

/-- The loop of `DrainNode` is a sequence of steps at its node. -/
theorem Draining.drainFrames (hself : ∀ out, ¬ g.Edge v out v) (hv : v.toNat < g.nodes.length)
    (h : Balanced g root frame world₀ v held r) (hdrain : r.Draining v held) {r' : Run σ Handle}
    (hrun : drainFrames g v held r = .ok r') :
    r'.disp.Packed ∧ Relation.ReflTransGen (fun s s' => Transit.Step g s v s') (r.transit v held)
      (r'.transit v []) := by
  induction held generalizing r with
  | nil =>
    obtain rfl := Except.ok.inj hrun
    exact ⟨hdrain.packed, .refl⟩
  | cons f held ih =>
    obtain ⟨r₁, c, hrun₁, -, -, -, -, hbal⟩ := h.runFrame hv
    obtain ⟨hdrain₁, hstep⟩ := hdrain.runFrame hself hv h hrun₁
    rw [Run.drainFrames, hrun₁] at hrun
    obtain ⟨hpacked, hsteps⟩ := ih hbal hdrain₁ hrun
    exact ⟨hpacked, .head hstep hsteps⟩

/-- `DrainNode` begins with everything that is pending at its node. -/
theorem transit_take (queue : List NodeId) (u : NodeId) :
    transit v (r.disp.pending v)
      { r.pop v queue with
        disp := { (r.pop v queue).disp with
          pending := Function.update (r.pop v queue).disp.pending v [] } } = r.transit u [] := by
  simp only [transit, pop, Transit.mk.injEq, and_true, List.flatMap_nil, ite_self, List.nil_append]
  funext w
  by_cases hw : w = v
  · subst hw
    simp [Dispatcher.content]
  · simp [Dispatcher.content, hw]

theorem draining_take (hpacked : r.disp.Packed) (queue : List NodeId) :
    Draining v (r.disp.pending v)
      { r.pop v queue with
        disp := { (r.pop v queue).disp with
          pending := Function.update (r.pop v queue).disp.pending v [] } } where
  content_eq := by simp [Dispatcher.content, pop]
  packed w := by
    by_cases hw : w = v
    · subst hw
      intro f hf
      simp [pop] at hf
    · simp only [pop, Function.update_of_ne hw]
      exact hpacked w
  packed_held := hpacked v

theorem transit_nil (u w : NodeId) (r : Run σ Handle) : r.transit u [] = r.transit w [] := by
  simp only [transit, List.flatMap_nil, ite_self]

/-- `DrainNode` is a sequence of steps at its node. -/
theorem drainNode_transits {u : NodeId} {queue : List NodeId} (hself : ∀ out, ¬ g.Edge v out v)
    (h : Balanced g root frame world₀ u [] r) (hpacked : r.disp.Packed)
    (hqueue : r.disp.queue = v :: queue) {r' : Run σ Handle}
    (hrun : drainNode g v (r.pop v queue) = .ok r') :
    r'.disp.Packed ∧ Relation.ReflTransGen (fun s s' => Transit.Step g s v s') (r.transit u [])
      (r'.transit u []) := by
  have hlt : v.toNat < r.disp.size := h.ready.lt_size v (hqueue ▸ List.mem_cons_self)
  rw [Run.drainNode, Dispatcher.checkIndex,
    if_pos (show v.toNat < (r.pop v queue).disp.size from hlt)] at hrun
  obtain ⟨hpacked', hsteps⟩ := (draining_take hpacked queue).drainFrames hself (h.size_eq ▸ hlt)
    (h.take hqueue) hrun
  rw [transit_take queue u, transit_nil v u r'] at hsteps
  exact ⟨hpacked', hsteps⟩

/-- `DrainNode` is one step if there is one frame. -/
theorem drainNode_transits_once {u : NodeId} {queue : List NodeId} {f : FrameId}
    (hself : ∀ out, ¬ g.Edge v out v) (h : Balanced g root frame world₀ u [] r)
    (hpacked : r.disp.Packed) (hqueue : r.disp.queue = v :: queue)
    (hpending : r.disp.pending v = [f]) {r' : Run σ Handle}
    (hrun : drainNode g v (r.pop v queue) = .ok r') :
    r'.disp.Packed ∧ Transit.Step g (r.transit u []) v (r'.transit u []) := by
  have hlt : v.toNat < r.disp.size := h.ready.lt_size v (hqueue ▸ List.mem_cons_self)
  have htake := h.take hqueue
  have hdrain := draining_take (v := v) hpacked queue
  have htransit := transit_take (r := r) (v := v) queue u
  rw [Run.drainNode, Dispatcher.checkIndex,
    if_pos (show v.toNat < (r.pop v queue).disp.size from hlt)] at hrun
  change drainFrames g v (r.disp.pending v) _ = _ at hrun
  rw [hpending] at htake hdrain htransit hrun
  obtain ⟨r₁, c, hrun₁, -⟩ := htake.runFrame (h.size_eq ▸ hlt)
  obtain ⟨hdrain₁, hstep⟩ := hdrain.runFrame hself (h.size_eq ▸ hlt) htake hrun₁
  rw [Run.drainFrames] at hrun
  erw [hrun₁] at hrun
  obtain rfl := Except.ok.inj hrun
  rw [htransit, transit_nil v u] at hstep
  exact ⟨hdrain₁.packed, hstep⟩

/-- The loop of `RunOnce` is a sequence of steps of the machine. -/
theorem drain_transits {u : NodeId} (hself : ∀ v out, ¬ g.Edge v out v)
    (h : Balanced g root frame world₀ u [] r) (hpacked : r.disp.Packed)
    (htargets : ∀ v ∈ r.disp.queue, ∃ w out, g.Edge w out v) {fuel : ℕ} {r' : Run σ Handle}
    (hrun : drain g fuel r = .ok r') : Transit.Steps g (r.transit u []) (r'.transit u []) := by
  induction fuel generalizing r with
  | zero =>
    cases hqueue : r.disp.queue with
    | nil =>
      rw [drain_of_nil hqueue] at hrun
      obtain rfl := Except.ok.inj hrun
      exact .refl
    | cons v queue =>
      rw [drain_zero_of_cons hqueue] at hrun
      cases hrun
  | succ fuel ih =>
    cases hqueue : r.disp.queue with
    | nil =>
      rw [drain_of_nil hqueue] at hrun
      obtain rfl := Except.ok.inj hrun
      exact .refl
    | cons v queue =>
      obtain ⟨r₁, hrun₁, hadv, hbal, -⟩ := h.drainNode hqueue
      obtain ⟨new, hqueue₁, hnew⟩ := hadv.queue_eq
      obtain ⟨hpacked₁, hsteps⟩ := drainNode_transits (hself v) h hpacked hqueue hrun₁
      rw [drain_succ_of_cons hqueue hrun₁] at hrun
      have hv := htargets v (hqueue ▸ List.mem_cons_self)
      refine Relation.ReflTransGen.trans (b := r₁.transit u [])
        (Relation.ReflTransGen.mono (fun s s' hstep => ⟨v, hv, hstep⟩) _ _ hsteps) ?_
      refine ih (hbal.between u) hpacked₁ (fun w hw => ?_) hrun
      rw [hqueue₁] at hw
      rcases List.mem_append.mp hw with hw | hw
      · obtain ⟨out, hedge⟩ := hnew w hw
        exact ⟨v, out, hedge⟩
      · exact htargets w (hqueue ▸ List.mem_cons_of_mem _ hw)

end Run

namespace Dispatcher

variable {g : Graph σ Handle} {root : NodeId} {d : Dispatcher Handle} {frame : Frame Handle}
  {world : σ}

/-- `RunOnce` is a step of the machine at the root, followed by steps at nodes that outputs lead to,
until nothing is pending. -/
theorem Idle.runOnce_transits (h : d.Idle g) (hroot : root.toNat < g.nodes.length)
    (hself : ∀ v out, ¬ g.Edge v out v) {fuel : ℕ} {r : Run σ Handle}
    (hrun : Dispatcher.runOnce g root fuel frame d world = .ok r) :
    ∃ s, Transit.Step g (.start root frame.bufs world) root s ∧
      Transit.Steps g s (.done r.world) := by
  obtain ⟨d', f, hseed, hqueue, hpending, -, hbal⟩ := h.seed hroot frame world
  have hpacked : d'.Packed := by
    have hlt : root.toNat < d.size := hroot.trans_eq h.size_eq.symm
    have hd' : (d.seeded root frame).schedule root = .ok d' := (seed_eq hlt).symm.trans hseed
    obtain ⟨scheduled, hsched, -⟩ := schedule_seeded hlt
    obtain rfl := Except.ok.inj (hsched.symm.trans hd')
    intro v f' hf'
    by_cases hv : v = root
    · subst hv
      rw [hpending] at hf'
      exact absurd hf' List.not_mem_nil
    · have hnil : (d.seeded root frame).pending v = [] := pending_seeded_of_ne hv
      change f' ∈ ((d.seeded root frame).pending v).dropLast at hf'
      rw [hnil] at hf'
      exact absurd hf' List.not_mem_nil
  have hstart : Run.transit root [] { disp := d', world := world } =
      Transit.start root frame.bufs world := by
    simp only [Run.transit, Transit.start, List.flatMap_nil, ite_self, List.nil_append,
      Transit.mk.injEq, and_true]
    funext v
    simpa [received, routed] using hbal.balance v
  rw [Dispatcher.runOnce, hseed] at hrun
  change Run.drain g fuel { disp := d', world := world } = .ok r at hrun
  cases fuel with
  | zero =>
    rw [Run.drain_zero_of_cons hqueue] at hrun
    cases hrun
  | succ fuel =>
    obtain ⟨r₁, hrun₁, hadv, hbal₁, -⟩ := hbal.drainNode hqueue
    obtain ⟨new, hqueue₁, hnew⟩ := hadv.queue_eq
    obtain ⟨hpacked₁, hstep⟩ :=
      Run.drainNode_transits_once (hself root) hbal hpacked hqueue hpending hrun₁
    rw [Run.drain_succ_of_cons hqueue hrun₁] at hrun
    have htargets : ∀ v ∈ r₁.disp.queue, ∃ w out, g.Edge w out v := by
      intro v hv
      rw [hqueue₁] at hv
      rcases List.mem_append.mp hv with hv | hv
      · obtain ⟨out, hedge⟩ := hnew v hv
        exact ⟨root, out, hedge⟩
      · exact absurd hv List.not_mem_nil
    have hsteps := Run.drain_transits hself hbal₁ hpacked₁ htargets hrun
    obtain hrunning | ⟨r', -, hr', hempty, -, -, hbal'⟩ := hbal₁.drain fuel
    · rw [hrunning] at hrun
      cases hrun
    · obtain rfl := Except.ok.inj (hr'.symm.trans hrun)
      have hdone : r'.transit root [] = .done r'.world := by
        simp [Run.transit, Transit.done, content, Run.pending_eq_nil hbal'.ready hempty]
      rw [hstart] at hstep
      rw [hdone] at hsteps
      exact ⟨_, hstep, hsteps⟩

end Dispatcher

end Cerebellum
