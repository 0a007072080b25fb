import Cerebellum.Graph.Conservation
import Mathlib.Logic.Relation

/-!
# Frames go back to the pool

The loops of `RunOnce` as a machine whose state says where in the code the dispatcher is
(`Cerebellum.Run.Location`): a node was taken off the stack, the frames of a node are being drained,
the outputs of a call are being routed. In every state of the machine each frame of the pool has one
owner, and a node with pending frames is on the stack, once, unless it is the one that was just
taken off it (`Cerebellum.Run.Owned`).

The run of the functions of `Cerebellum.Run` is a run of the machine. If no cycle can be reached
from the root it ends, and then all frames are free.

## Main definitions

* `Cerebellum.Run.Location`, `Cerebellum.Run.Step`: the machine.
* `Cerebellum.Run.Owned`: its invariant.

## Main results

* `Cerebellum.Run.Owned.steps`: the invariant holds in each state of a run.
* `Cerebellum.Run.steps_drain`: the loop of `RunOnce` is a run of the machine.
* `Cerebellum.Dispatcher.frames_go_back`: runs end, and every frame has one owner all the time.
* `Cerebellum.Dispatcher.no_vectors_for_many_nodes`: a graph of `65536` nodes has no dispatcher.
-/

namespace Cerebellum

open Graph Relation

variable {σ Handle : Type}

/-! ### The machine -/

namespace Run

/-- Where in the code the dispatcher is. -/
inductive Location
  /-- The loop of `RunOnce`. -/
  | loop
  /-- `DrainNode` was called for a node that was taken off the stack. -/
  | popped (v : NodeId)
  /-- The loop of `DrainNode`, with the frames that were not processed yet. -/
  | draining (v : NodeId) (held : List FrameId)
  /-- The second loop of `RunNode`, with the outputs that were not routed yet. -/
  | routing (v : NodeId) (f : FrameId) (held : List FrameId) (outs : List ℕ)

namespace Location

/-- The frames of the loop of `DrainNode` that were not released yet. -/
def held : Location → List FrameId
  | loop | popped _ => []
  | draining _ held => held
  | routing _ f held _ => f :: held

/-- The node that is being drained. -/
def drained : Location → Option NodeId
  | loop => none
  | popped v | draining v _ | routing v _ _ _ => some v

end Location

/-- One step of the loops. -/
inductive Step (g : Graph σ Handle) : Run σ Handle × Location → Run σ Handle × Location → Prop
  /-- A node is taken off the stack. -/
  | pop {r : Run σ Handle} {v : NodeId} {queue : List NodeId}
      (hqueue : r.disp.queue = v :: queue) : Step g (r, .loop) (r.pop v queue, .popped v)
  /-- `drain_scratch_.swap(pending_[node_id])`. -/
  | take (r : Run σ Handle) (v : NodeId) :
      Step g (r, .popped v)
        ({ r with disp := { r.disp with pending := Function.update r.disp.pending v [] } },
          .draining v (r.disp.pending v))
  /-- `Process` is called. -/
  | process {r : Run σ Handle} {v : NodeId} {node : Node σ Handle}
      (hnode : g.nodes[v.toNat]? = some node) (f : FrameId) (held : List FrameId) :
      Step g (r, .draining v (f :: held))
        ({ disp := { r.disp with
            scratch := outputs (node.process r.world (r.disp.pool.storage f)).2 r.disp.scratch }
           world := (node.process r.world (r.disp.pool.storage f)).1
           log := r.log ++ [node.call v r.world (r.disp.pool.storage f)] },
          .routing v f held (List.range (g.fanout v)))
  /-- What was pushed on an output goes to its target. -/
  | route {r : Run σ Handle} {v : NodeId} {out : ℕ} {disp : Dispatcher Handle}
      (hroute : r.disp.routeOutput g v out = .ok disp) (f : FrameId) (held : List FrameId)
      (outs : List ℕ) :
      Step g (r, .routing v f held (out :: outs))
        ({ r with disp := disp }, .routing v f held outs)
  /-- `pool_.Release(frame)`. -/
  | release (r : Run σ Handle) (v : NodeId) (f : FrameId) (held : List FrameId) :
      Step g (r, .routing v f held [])
        ({ r with disp := { r.disp with pool := r.disp.pool.release f } }, .draining v held)
  /-- All frames of the node were processed. -/
  | finish (r : Run σ Handle) (v : NodeId) : Step g (r, .draining v []) (r, .loop)

/-! ### The invariant -/

/-- Each frame has one owner; a node with pending frames is on the stack, unless it was just taken
off it. -/
structure Owned (g : Graph σ Handle) (s : Run σ Handle × Location) : Prop where
  sound : s.1.disp.Sound s.2.held
  size_eq : s.1.disp.size = g.nodes.length
  ready : ∀ v, s.2 = .popped v →
    ({ s.1.disp with
      pending := Function.update s.1.disp.pending v [] } : Dispatcher Handle).Ready
  ready_of_ne : (∀ v, s.2 ≠ .popped v) → s.1.disp.Ready

variable {g : Graph σ Handle} {s s' : Run σ Handle × Location} {r r' : Run σ Handle} {v : NodeId}

theorem Owned.step (h : Owned g s) (hstep : Step g s s') : Owned g s' := by
  cases hstep with
  | @pop r v queue hqueue =>
    have hready : r.disp.Ready := h.ready_of_ne fun _ => Location.noConfusion
    refine ⟨⟨h.sound.partitioned, h.sound.free_cleared⟩, h.size_eq, fun w hw => ?_,
      fun hne => absurd rfl (hne v)⟩
    obtain rfl := Location.popped.inj hw
    exact hready.take hqueue
  | take r v =>
    exact ⟨h.sound.take v, h.size_eq, fun _ hw => Location.noConfusion hw, fun _ => h.ready v rfl⟩
  | process hnode f held =>
    have hready := h.ready_of_ne fun _ => Location.noConfusion
    exact ⟨⟨h.sound.partitioned, h.sound.free_cleared⟩, h.size_eq,
      fun _ hw => Location.noConfusion hw, fun _ => ⟨hready.scheduled_of_pending,
        hready.mem_queue_iff, hready.nodup_queue, hready.lt_size⟩⟩
  | @route r v out disp hroute f held outs =>
    have hready := h.ready_of_ne fun _ => Location.noConfusion
    obtain ⟨disp', hroute', -, hext⟩ := h.sound.routeOutput hready h.size_eq (u := v) out
    obtain rfl := Except.ok.inj (hroute.symm.trans hroute')
    exact ⟨hext.sound, hext.size_eq.trans h.size_eq, fun _ hw => Location.noConfusion hw,
      fun _ => hext.ready⟩
  | release r v f held =>
    have hready := h.ready_of_ne fun _ => Location.noConfusion
    exact ⟨h.sound.release, h.size_eq, fun _ hw => Location.noConfusion hw,
      fun _ => ⟨hready.scheduled_of_pending, hready.mem_queue_iff, hready.nodup_queue,
        hready.lt_size⟩⟩
  | finish r v =>
    exact ⟨h.sound, h.size_eq, fun _ hw => Location.noConfusion hw,
      fun _ => h.ready_of_ne fun _ => Location.noConfusion⟩

/-- The invariant holds in each state of a run of the machine. -/
theorem Owned.steps (h : Owned g s) (hsteps : ReflTransGen (Step g) s s') : Owned g s' := by
  induction hsteps with
  | refl => exact h
  | tail _ hstep ih => exact ih.step hstep

/-- A node with pending frames that is not being drained is on the stack, once. -/
theorem Owned.count_queue (h : Owned g s) (hpending : s.1.disp.pending v ≠ [])
    (hdrained : s.2.drained ≠ some v) : s.1.disp.queue.count v = 1 := by
  by_cases hpopped : ∃ w, s.2 = .popped w
  · obtain ⟨w, hw⟩ := hpopped
    have hvw : v ≠ w := fun hvw => hdrained (by rw [hw, hvw]; rfl)
    have hready := h.ready w hw
    refine List.count_eq_one_of_mem hready.nodup_queue ((hready.mem_queue_iff v).mpr ?_)
    have hsame : Function.update s.1.disp.pending w [] v = s.1.disp.pending v :=
      Function.update_of_ne hvw _ _
    exact hready.scheduled_of_pending v (hsame.trans_ne hpending)
  · have hready := h.ready_of_ne (not_exists.mp hpopped)
    exact List.count_eq_one_of_mem hready.nodup_queue
      ((hready.mem_queue_iff v).mpr (hready.scheduled_of_pending v hpending))

/-! ### The run of the functions is a run of the machine -/

theorem steps_routeOutputs {disp : Dispatcher Handle} {f : FrameId} {held : List FrameId}
    {outs : List ℕ} (h : outs.foldlM (Dispatcher.routeOutput g v) r.disp = .ok disp) :
    ReflTransGen (Step g) (r, .routing v f held outs)
      ({ r with disp := disp }, .routing v f held []) := by
  induction outs generalizing r with
  | nil =>
    obtain rfl := Except.ok.inj h
    exact .refl
  | cons out outs ih =>
    rw [List.foldlM_cons] at h
    cases hroute : r.disp.routeOutput g v out with
    | error e =>
      rw [hroute] at h
      cases h
    | ok disp₁ =>
      rw [hroute] at h
      have hrest := ih (r := { r with disp := disp₁ }) h
      exact hrest.head (.route hroute f held outs)

theorem steps_drainFrames {held : List FrameId} (h : drainFrames g v held r = .ok r') :
    ReflTransGen (Step g) (r, .draining v held) (r', .loop) := by
  induction held generalizing r with
  | nil =>
    obtain rfl := Except.ok.inj h
    exact .single (.finish r v)
  | cons f held ih =>
    rw [drainFrames, runNode] at h
    cases hnode : g.nodes[v.toNat]? with
    | none =>
      rw [hnode] at h
      cases h
    | some node =>
      simp only [hnode] at h
      cases hdisp : (List.range (g.fanout v)).foldlM (Dispatcher.routeOutput g v)
          { r.disp with
            scratch := outputs (node.process r.world (r.disp.pool.storage f)).2
              r.disp.scratch } with
      | error e =>
        rw [hdisp] at h
        cases h
      | ok disp =>
        rw [hdisp] at h
        have hrest := ih h
        refine ((ReflTransGen.single (.process hnode f held)).trans
          (steps_routeOutputs hdisp)).trans ?_
        exact hrest.head (.release _ v f held)

theorem steps_drainNode (h : drainNode g v r = .ok r') :
    ReflTransGen (Step g) (r, .popped v) (r', .loop) := by
  rw [drainNode, Dispatcher.checkIndex] at h
  split_ifs at h
  · exact (steps_drainFrames h).head (.take r v)
  · cases h

/-- The loop of `RunOnce` is a run of the machine. -/
theorem steps_drain {fuel : ℕ} (h : drain g fuel r = .ok r') :
    ReflTransGen (Step g) (r, .loop) (r', .loop) := by
  induction fuel generalizing r with
  | zero =>
    rw [drain] at h
    split_ifs at h
    obtain rfl := Except.ok.inj h
    exact .refl
  | succ fuel ih =>
    cases hqueue : r.disp.queue with
    | nil =>
      rw [drain_of_nil hqueue] at h
      obtain rfl := Except.ok.inj h
      exact .refl
    | cons v queue =>
      simp only [drain, hqueue] at h
      cases hnode : drainNode g v (r.pop v queue) with
      | error e =>
        rw [hnode] at h
        cases h
      | ok r₁ =>
        rw [hnode] at h
        exact ((steps_drainNode hnode).trans (ih h)).head (.pop hqueue)

end Run

namespace Dispatcher

variable {root : NodeId} {d : Dispatcher Handle}

/-- If no frame is pending or held, each frame of the pool is free, once. -/
theorem Sound.count_free (h : d.Sound []) (hpending : ∀ v, d.pending v = []) (f : FrameId) :
    d.pool.free.count f = if f < d.pool.allocated then 1 else 0 := by
  split_ifs with hf
  · obtain ⟨k, hk⟩ := (h.partitioned.iff_mem f).mp hf
    cases k with
    | free => exact List.count_eq_one_of_mem (h.partitioned.nodup .free) hk
    | node v => exact absurd (hpending v ▸ hk : f ∈ []) List.not_mem_nil
    | draining => exact absurd hk List.not_mem_nil
  · exact List.count_eq_zero_of_not_mem fun hmem =>
      hf (h.partitioned.of_mem (show f ∈ d.frames [] .free from hmem))

/-- In a graph in which no cycle can be reached from the root a run ends. In each state on the way
every frame of the pool has one owner, also while `RouteInto` is at work, and every node with
pending frames that is not being drained is on the stack, once. In the end nothing is pending, no
node is on the stack, and every frame is free. -/
theorem frames_go_back (hsize : g.nodes.length ≤ 65535) (hroot : root.toNat < g.nodes.length)
    (hacyclic : g.AcyclicFrom root) (hd : Reachable g root d) (frame : Frame Handle) (world : σ) :
    ∃ fuel d₀ r, d.seed root frame = .ok d₀ ∧ runOnce g root fuel frame d world = .ok r ∧
      ReflTransGen (Run.Step g) ({ disp := d₀, world := world }, .loop) (r, .loop) ∧
      (∀ s, ReflTransGen (Run.Step g) ({ disp := d₀, world := world }, .loop) s →
        Partitioned (s.1.disp.frames s.2.held) (· < s.1.disp.pool.allocated) ∧
        (∀ target hs, ∃ d', List.foldlM (pushBack target) s.1.disp hs = .ok d' ∧
          Partitioned (d'.frames s.2.held) (· < d'.pool.allocated)) ∧
        ∀ v, s.1.disp.pending v ≠ [] → s.2.drained ≠ some v → s.1.disp.queue.count v = 1) ∧
      (∀ v, r.disp.pending v = []) ∧ r.disp.queue = [] ∧
      ∀ f, r.disp.pool.free.count f = if f < r.disp.pool.allocated then 1 else 0 := by
  have hidle : d.Idle g := hd.idle (Nat.lt_succ_of_le hsize) hroot
  obtain ⟨d₀, f₀, hseed, -, -, -, hbal⟩ := hidle.seed hroot frame world
  obtain ⟨fuel, r, hr⟩ := hidle.runOnce_ends_of_acyclicFrom hroot hacyclic frame world
  have hdrain : Run.drain g fuel { disp := d₀, world := world } = .ok r := by
    rw [runOnce, hseed] at hr
    exact hr
  have howned : Run.Owned g ({ disp := d₀, world := world }, .loop) :=
    ⟨hbal.sound, hbal.size_eq, fun _ h => Run.Location.noConfusion h, fun _ => hbal.ready⟩
  have hsteps := Run.steps_drain hdrain
  have hend : Run.Owned g (r, .loop) := howned.steps hsteps
  have hempty : r.disp.queue = [] := by
    obtain hrunning | ⟨r', -, hr', hempty, -⟩ := hbal.drain fuel
    · rw [hrunning] at hdrain
      cases hdrain
    · obtain rfl := Except.ok.inj (hr'.symm.trans hdrain)
      exact hempty
  have hpending := Run.pending_eq_nil (hend.ready_of_ne fun _ => Run.Location.noConfusion) hempty
  refine ⟨fuel, d₀, r, hseed, hr, hsteps, fun s hs => ?_, hpending, hempty, fun f => ?_⟩
  · have hs' := howned.steps hs
    refine ⟨hs'.sound.partitioned, fun target hs => ?_, fun v => hs'.count_queue⟩
    obtain ⟨d', hd', happ⟩ := hs'.sound.pushAll target hs
    exact ⟨d', hd', happ.sound.partitioned⟩
  · exact hend.sound.count_free hpending f

private def forkNode : Node Unit ℕ where
  nextCount := 2
  nextCount_le := two_le_kMaxFanout
  process world input := (world, fun _ => input)

private def endNode : Node Unit ℕ where
  nextCount := 0
  nextCount_le := Nat.zero_le kMaxFanout
  process world _ := (world, Fin.elim0)

/-- Two ways lead from the first node to the last one. -/
private def forkGraph : Except String (Graph Unit ℕ) := do
  let (g, fork) := Graph.addNode .empty forkNode
  let (g, left) := g.addNode relayNode
  let (g, right) := g.addNode relayNode
  let (g, last) := g.addNode endNode
  let g ← g.wire fork 0 left
  let g ← g.wire fork 1 right
  let g ← g.wire left 0 last
  g.wire right 0 last

/-- The last node receives two handles on each of the two ways. -/
theorem frames_go_back_fork :
    ∃ g : Graph Unit ℕ, forkGraph = .ok g ∧ ∃ fuel r,
      runOnce g 0 fuel ⟨[7, 8], by decide⟩ (init g) () = .ok r ∧ r.disp.queue = [] ∧
      ∀ f, r.disp.pool.free.count f = if f < r.disp.pool.allocated then 1 else 0 := by
  obtain ⟨g, hg, hlen, hwired⟩ : ∃ g : Graph Unit ℕ, forkGraph = .ok g ∧ g.nodes.length = 4 ∧
      WiredUpward g.routing [0, 1, 1, 2] := ⟨_, rfl, rfl, by decide⟩
  have hroot : (0 : NodeId).toNat < g.nodes.length := hlen.symm ▸ Nat.zero_lt_succ 3
  obtain ⟨fuel, _, r, -, hr, -, -, -, hempty, hfree⟩ := frames_go_back
    (hlen.trans_le (by decide)) hroot hwired.ranked.acyclicFrom .init ⟨[7, 8], by decide⟩ ()
  exact ⟨g, hg, fuel, r, hr, hempty, hfree⟩

/-! ### Graphs with too many nodes -/

private theorem acyclicFrom_relays (n : ℕ) : (relays n).AcyclicFrom 0 := by
  have htarget (v : NodeId) (out : ℕ) : (relays n).target v out = kInvalid := by
    rw [target, routing_relays]
    by_cases hv : v.toNat < n
    · rw [List.getD_replicate _ hv]
      cases out <;> rfl
    · have hrow : (List.replicate n [kInvalid]).getD v.toNat [] = [] :=
        List.getD_eq_default _ _ (by simpa using hv)
      rw [hrow]
      rfl
  intro v _ hcycle
  obtain ⟨w, -, out, hedge⟩ := TransGen.tail'_iff.mp hcycle
  exact hedge.2 (hedge.1.symm.trans (htarget w out))

private theorem runOnce_relays {n : ℕ} (hn : n % 2 ^ 16 = 0) (fuel : ℕ) (frame : Frame ℕ) :
    runOnce (relays n) 0 fuel frame (init (relays n)) () = .error .badIndex := by
  have hsize : (init (relays n)).reset.size = 0 := by
    simp only [Dispatcher.reset, init, nodeCount, nodes_relays, List.length_replicate]
    exact UInt16.toNat_ofNat'.trans hn
  have hindex : (init (relays n)).reset.checkIndex 0 = .error .badIndex :=
    if_neg (hsize ▸ Nat.not_lt_zero _)
  rw [runOnce, seed, hindex]
  simp only [pool_seeded 0]
  rfl

/-- A dispatcher for `65536` nodes that are not wired has vectors without entries, and the first
access to them is beyond their end. -/
theorem no_vectors_for_many_nodes :
    (relays 65536).nodes.length = 65536 ∧ (relays 65536).AcyclicFrom 0 ∧
      ∀ fuel frame, runOnce (relays 65536) 0 fuel frame (init (relays 65536)) () =
        .error .badIndex :=
  ⟨(congrArg List.length (nodes_relays _)).trans List.length_replicate,
    acyclicFrom_relays _, runOnce_relays (by decide)⟩

end Dispatcher

end Cerebellum
