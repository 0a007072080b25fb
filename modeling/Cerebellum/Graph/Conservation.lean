import Cerebellum.Graph.Delivery
import Mathlib.Algebra.BigOperators.Fin
import Mathlib.Algebra.Order.Group.Multiset
import Mathlib.Data.FinEnum
import Mathlib.Logic.Hydra
import Mathlib.Tactic.Abel

/-!
# Conservation of handles

In a graph without cycles every run ends. If moreover every output is wired, and every node disposes
of a handle or pushes it on one of its outputs, a run disposes of exactly the handles that it took
in, and leaves none in a frame.

## Main definitions

* `Cerebellum.Graph.Ranked`, `Cerebellum.Graph.FullyWired`: no cycles, and no loose ends.
* `Cerebellum.Graph.WiredUpward`: both of them, as a check of the wiring.
* `Cerebellum.Graph.Node.Conserves`: what a node takes in or disposes of accounts for what it
  pushes.

## Main results

* `Cerebellum.Dispatcher.Idle.runOnce_ends`: a run in a graph without cycles ends.
* `Cerebellum.Dispatcher.Idle.runOnce_conserves`: and the handles taken in are disposed of.
-/

namespace Cerebellum

open Graph

variable {σ Handle : Type} {g : Graph σ Handle} {root : NodeId}

namespace Graph

/-- Edges lead from a node to one of higher rank. -/
def Ranked (g : Graph σ Handle) (rank : NodeId → ℕ) : Prop :=
  ∀ u out v, g.Edge u out v → rank u < rank v

/-- Every output of every node is wired. -/
def FullyWired (g : Graph σ Handle) : Prop :=
  ∀ v out, out < g.fanout v → g.target v out ≠ kInvalid

/-- The outputs of each node lead to nodes of higher rank. -/
def WiredUpward (routing : List (List NodeId)) (ranks : List ℕ) : Prop :=
  ∀ p ∈ routing.zipIdx, ∀ t ∈ p.1, t ≠ kInvalid ∧ ranks.getD p.2 0 < ranks.getD t.toNat 0

instance (routing : List (List NodeId)) (ranks : List ℕ) : Decidable (WiredUpward routing ranks) :=
  -- the instance that is found goes through all node ids
  @List.decidableBAll (List NodeId × ℕ) _ (fun p => List.decidableBAll
    (fun t => t ≠ kInvalid ∧ ranks.getD p.2 0 < ranks.getD t.toNat 0) p.1) routing.zipIdx

variable {ranks : List ℕ}

theorem WiredUpward.target (h : WiredUpward g.routing ranks) {v : NodeId} {out : ℕ}
    (hout : out < g.fanout v) : g.target v out ≠ kInvalid ∧
      ranks.getD v.toNat 0 < ranks.getD (g.target v out).toNat 0 := by
  have hv : v.toNat < g.routing.length := by
    by_contra hv
    rw [fanout, List.getD_eq_default _ _ (not_lt.mp hv)] at hout
    exact absurd hout (Nat.not_lt_zero _)
  have hrow : (g.routing.getD v.toNat [], v.toNat) ∈ g.routing.zipIdx := by
    rw [List.getD_eq_getElem _ _ hv, List.mem_zipIdx_iff_getElem?]
    exact List.getElem?_eq_getElem hv
  refine h _ hrow _ ?_
  rw [Graph.target, List.getD_eq_getElem _ _ hout]
  exact List.getElem_mem hout

theorem WiredUpward.fullyWired (h : WiredUpward g.routing ranks) : g.FullyWired :=
  fun _ _ hout => (h.target hout).1

theorem WiredUpward.ranked (h : WiredUpward g.routing ranks) :
    g.Ranked fun v => ranks.getD v.toNat 0 := by
  rintro u out v ⟨rfl, hv⟩
  by_cases hout : out < g.fanout u
  · exact (h.target hout).2
  · exact absurd (List.getD_eq_default _ _ (not_lt.mp hout)) hv

/-! ### Cycles -/

/-- An output of `u` is wired to `v`. -/
def Leads (g : Graph σ Handle) (u v : NodeId) : Prop := ∃ out, g.Edge u out v

/-- The node can be reached from the root along wired outputs. -/
def ReachedFrom (g : Graph σ Handle) (root : NodeId) : NodeId → Prop :=
  Relation.ReflTransGen g.Leads root

/-- No cycle of wired outputs can be reached from the root. -/
def AcyclicFrom (g : Graph σ Handle) (root : NodeId) : Prop :=
  ∀ v, g.ReachedFrom root v → ¬ Relation.TransGen g.Leads v v

/-- Among the nodes that can be reached, a target is lower than its source. -/
theorem AcyclicFrom.wellFounded (h : g.AcyclicFrom root) :
    WellFounded fun v' v => g.ReachedFrom root v ∧ g.Leads v v' := by
  let below : NodeId → NodeId → Prop := fun v' v => g.ReachedFrom root v ∧ g.Leads v v'
  have hirrefl : Std.Irrefl (Relation.TransGen below) := by
    refine ⟨fun v hv => ?_⟩
    have hcycle : Relation.TransGen g.Leads v v :=
      Relation.transGen_swap.mp (Relation.TransGen.mono (fun _ _ hstep => hstep.2) _ _ hv)
    obtain ⟨c, -, hreached, -⟩ := Relation.TransGen.tail'_iff.mp hv
    exact h v hreached hcycle
  have hwf : WellFounded (Relation.TransGen below) := Finite.wellFounded_of_trans_of_irrefl _
  have hsub : Subrelation below (Relation.TransGen below) := fun hstep => .single hstep
  exact hsub.wf hwf

/-- A graph with a rank that rises along the edges has no cycle. -/
theorem Ranked.acyclicFrom {rank : NodeId → ℕ} (h : g.Ranked rank) : g.AcyclicFrom root := by
  have hlt {u v : NodeId} (huv : Relation.TransGen g.Leads u v) : rank u < rank v := by
    induction huv with
    | single hstep =>
      obtain ⟨out, hedge⟩ := hstep
      exact h _ out _ hedge
    | tail _ hstep ih =>
      obtain ⟨out, hedge⟩ := hstep
      exact ih.trans (h _ out _ hedge)
  exact fun v _ hcycle => lt_irrefl _ (hlt hcycle)

end Graph

/-! ### Runs end -/

namespace Run

/-- A node that is taken off the stack is replaced by targets of its outputs. If these are lower in
a well-founded order, for all nodes that get onto the stack, the loop ends. -/
theorem Balanced.drain_ends {P : NodeId → Prop} {lower : NodeId → NodeId → Prop}
    (hwf : WellFounded lower)
    (hlower : ∀ v out v', P v → g.Edge v out v' → P v' ∧ lower v' v)
    {frame : List Handle} {world₀ : σ} {u : NodeId} {r : Run σ Handle}
    (h : Balanced g root frame world₀ u [] r) (hP : ∀ v ∈ r.disp.queue, P v) :
    ∃ fuel r', Run.drain g fuel r = .ok r' := by
  induction hq : (r.disp.queue : Multiset NodeId) using hwf.cutExpand.induction
    generalizing r with
  | _ queue ih =>
    cases hqueue : r.disp.queue with
    | nil => exact ⟨0, r, drain_of_nil hqueue 0⟩
    | cons v rest =>
      obtain ⟨r₁, hrun, hadv, hbal, -⟩ := h.drainNode hqueue
      obtain ⟨new, hqueue₁, hnew⟩ := hadv.queue_eq
      have hpop : (r.pop v rest).disp.queue = rest := rfl
      rw [hpop] at hqueue₁
      rw [hqueue] at hP
      have htarget (v' : NodeId) (hv' : v' ∈ new) : P v' ∧ lower v' v := by
        obtain ⟨out, hout⟩ := hnew v' hv'
        exact hlower v out v' (hP v List.mem_cons_self) hout
      have hcut : Relation.CutExpand lower (r₁.disp.queue : Multiset NodeId) queue := by
        refine ⟨new, v, fun v' hv' => (htarget v' hv').2, ?_⟩
        rw [← hq, hqueue, hqueue₁, ← Multiset.coe_add, ← Multiset.cons_coe,
          ← Multiset.singleton_add]
        abel
      have hP₁ : ∀ w ∈ r₁.disp.queue, P w := fun w hw => by
        rw [hqueue₁] at hw
        rcases List.mem_append.mp hw with hw | hw
        · exact (htarget w hw).1
        · exact hP w (List.mem_cons_of_mem v hw)
      obtain ⟨fuel, r', hr'⟩ := ih _ hcut (hbal.between u) hP₁ rfl
      exact ⟨fuel + 1, r', (drain_succ_of_cons hqueue hrun fuel).trans hr'⟩

end Run

/-! ### What passes through -/

/-- The handles that a call pushed, on all outputs. -/
def Call.pushes (g : Graph σ Handle) (c : Call Handle) : Multiset Handle :=
  ∑ out ∈ Finset.range (g.fanout c.node), (c.outs out : Multiset Handle)

theorem sum_received (log : List (Call Handle)) :
    ∑ v, (received log v : Multiset Handle) =
      (log.map fun c => (c.input : Multiset Handle)).sum := by
  induction log with
  | nil => exact Finset.sum_const_zero
  | cons c log ih =>
    have hcons (v : NodeId) : (received (c :: log) v : Multiset Handle) =
        (if c.node = v then (c.input : Multiset Handle) else 0) + received log v := by
      rw [received, List.flatMap_cons, ← Multiset.coe_add]
      split_ifs <;> rfl
    simp only [hcons, Finset.sum_add_distrib, Finset.sum_ite_eq, Finset.mem_univ, if_true, ih,
      List.map_cons, List.sum_cons]

theorem coe_flatMap_range (n : ℕ) (f : ℕ → List Handle) :
    ((List.range n).flatMap f : Multiset Handle) =
      ∑ i ∈ Finset.range n, (f i : Multiset Handle) := by
  induction n with
  | zero => rfl
  | succ n ih =>
    rw [List.range_succ, List.flatMap_append, List.flatMap_singleton, ← Multiset.coe_add, ih,
      Finset.sum_range_succ]

/-- Each push on a wired output is routed to one node. -/
theorem Call.sum_routed (hwired : g.FullyWired) (c : Call Handle) :
    ∑ v, (c.routed g v : Multiset Handle) = c.pushes g := by
  simp only [Call.routed, coe_flatMap_range]
  rw [Finset.sum_comm, Call.pushes]
  refine Finset.sum_congr rfl fun out hout => ?_
  have hedge : g.Edge c.node out (g.target c.node out) :=
    ⟨rfl, hwired c.node out (Finset.mem_range.mp hout)⟩
  rw [Finset.sum_eq_single (g.target c.node out)]
  · rw [Dispatcher.sentTo, if_pos hedge]
  · intro v _ hv
    rw [Dispatcher.sentTo, if_neg fun h => hv h.1.symm]
    rfl
  · exact fun h => absurd (Finset.mem_univ _) h

theorem sum_routed (hwired : g.FullyWired) (log : List (Call Handle)) :
    ∑ v, (routed g log v : Multiset Handle) = (log.map fun c => c.pushes g).sum := by
  induction log with
  | nil => exact Finset.sum_const_zero
  | cons c log ih =>
    have hcons (v : NodeId) : (routed g (c :: log) v : Multiset Handle) =
        (c.routed g v : Multiset Handle) + routed g log v := by
      rw [routed, List.flatMap_cons, ← Multiset.coe_add]
      rfl
    simp only [hcons, Finset.sum_add_distrib, Call.sum_routed hwired, ih, List.map_cons,
      List.sum_cons]

/-- What `Process` disposes of and what it pushes is what it was given and what it took in. -/
def Graph.Node.Conserves (node : Node σ Handle) (taken disposed : σ → Multiset Handle) (world : σ)
    (input : Frame Handle) : Prop :=
  disposed (node.process world input).1 +
      ∑ out, (((node.process world input).2 out).bufs : Multiset Handle) + taken world =
    disposed world + input.bufs + taken (node.process world input).1

/-- A call pushes what `Process` pushes on the outputs of its node. -/
theorem pushes_call {node : Node σ Handle} {v : NodeId} (hnode : g.nodes[v.toNat]? = some node)
    (world : σ) (input : Frame Handle) :
    (node.call v world input).pushes g =
      ∑ out, (((node.process world input).2 out).bufs : Multiset Handle) := by
  have hfanout : g.fanout (node.call v world input).node = node.nextCount := fanout_eq hnode
  rw [Call.pushes, hfanout, Finset.sum_range]
  refine Finset.sum_congr rfl fun out _ => ?_
  simp [Node.call, outputs]

/-- If all calls conserve handles, so does a run. -/
theorem Trace.conserves {taken disposed : σ → Multiset Handle} {P : NodeId → List Handle → Prop}
    (hnode : ∀ v node, g.nodes[v.toNat]? = some node → ∀ world input, P v input.bufs →
      node.Conserves taken disposed world input)
    {world world' : σ} {log : List (Call Handle)} (h : Trace g world log world')
    (hP : ∀ c ∈ log, P c.node c.input) :
    disposed world' + (log.map fun c => c.pushes g).sum + taken world =
      disposed world + (log.map fun c => (c.input : Multiset Handle)).sum + taken world' := by
  induction h with
  | nil world => rfl
  | @cons world world' log v node input hv h ih =>
    have hcall := hnode v node hv world input (hP _ List.mem_cons_self)
    have hrest := ih fun c hc => hP c (List.mem_cons_of_mem _ hc)
    have hpushes := pushes_call hv world input
    have hinput : ((node.call v world input).input : Multiset Handle) = input.bufs := rfl
    rw [Node.Conserves, ← hpushes, ← hinput] at hcall
    rw [List.map_cons, List.sum_cons, List.map_cons, List.sum_cons]
    generalize (node.call v world input).pushes g = pushes at hcall ⊢
    generalize (log.map fun c => c.pushes g).sum = later at hrest ⊢
    generalize (log.map fun c => (c.input : Multiset Handle)).sum = inputs at hrest ⊢
    have hsum : disposed world' + (pushes + later) + taken world +
          (disposed (node.process world input).1 + taken (node.process world input).1) =
        disposed world + ((node.call v world input).input + inputs) + taken world' +
          (disposed (node.process world input).1 + taken (node.process world input).1) := by
      calc
        _ = (disposed (node.process world input).1 + pushes + taken world) +
            (disposed world' + later + taken (node.process world input).1) := by abel
        _ = _ := by
          rw [hcall, hrest]
          abel
    exact add_right_cancel hsum

/-- What every call at a node with the property `Q` preserves is preserved by a run of such calls.
-/
theorem Trace.preserves {I : σ → Prop} {Q : NodeId → Prop}
    (hstep : ∀ v node, g.nodes[v.toNat]? = some node → Q v → ∀ world input, I world →
      I (node.process world input).1)
    {world world' : σ} {log : List (Call Handle)} (h : Trace g world log world')
    (hQ : ∀ c ∈ log, Q c.node) (hI : I world) : I world' := by
  induction h with
  | nil world => exact hI
  | cons input hv h ih =>
    exact ih (fun c hc => hQ c (List.mem_cons_of_mem _ hc))
      (hstep _ _ hv (hQ _ List.mem_cons_self) _ input hI)

namespace Dispatcher

variable {d : Dispatcher Handle} {rank : NodeId → ℕ}

/-- Between two runs every frame of the pool is empty. -/
theorem Idle.storage_eq (h : d.Idle g) {f : FrameId} (hf : f < d.pool.allocated) :
    d.pool.storage f = .cleared := by
  obtain ⟨k, hk⟩ := (h.sound.partitioned.iff_mem f).mp hf
  cases k with
  | free => exact h.sound.free_cleared f hk
  | node v => exact absurd ((h.pending_eq v) ▸ hk : f ∈ []) List.not_mem_nil
  | draining => exact absurd hk List.not_mem_nil

/-- Runs end in a graph in which no cycle can be reached from the root. -/
theorem Idle.runOnce_ends_of_acyclicFrom (h : d.Idle g) (hroot : root.toNat < g.nodes.length)
    (hacyclic : g.AcyclicFrom root) (frame : Frame Handle) (world : σ) :
    ∃ fuel r, Dispatcher.runOnce g root fuel frame d world = .ok r := by
  obtain ⟨d', f, hseed, hqueue, -, -, hbal⟩ := h.seed hroot frame world
  obtain ⟨fuel, r, hr⟩ := hbal.drain_ends (P := g.ReachedFrom root) hacyclic.wellFounded
    (fun v out v' hv hedge => ⟨hv.tail ⟨out, hedge⟩, hv, out, hedge⟩) (fun v hv => by
      rw [hqueue] at hv
      rw [List.mem_singleton.mp hv]
      exact Relation.ReflTransGen.refl)
  refine ⟨fuel, r, ?_⟩
  rw [Dispatcher.runOnce, hseed]
  exact hr

/-- Runs end in a graph without cycles. -/
theorem Idle.runOnce_ends (h : d.Idle g) (hroot : root.toNat < g.nodes.length)
    (hrank : g.Ranked rank) (frame : Frame Handle) (world : σ) :
    ∃ fuel r, Dispatcher.runOnce g root fuel frame d world = .ok r :=
  h.runOnce_ends_of_acyclicFrom hroot hrank.acyclicFrom frame world

/-- A run from an empty frame begins with a call at the root, and makes no other call there if the
root is no target; it disposes of what it took in. -/
theorem Idle.runOnce_conserves (h : d.Idle g) (hroot : root.toNat < g.nodes.length)
    (hwired : g.FullyWired) (hsource : ∀ u out, ¬ g.Edge u out root)
    {taken disposed : σ → Multiset Handle}
    (hnode : ∀ v node, g.nodes[v.toNat]? = some node → ∀ world input,
      (v = root → input.bufs = []) → node.Conserves taken disposed world input)
    {fuel : ℕ} {world : σ} {r : Run σ Handle}
    (hrun : Dispatcher.runOnce g root fuel .cleared d world = .ok r) :
    r.disp.Idle g ∧ disposed r.world + taken world = disposed world + taken r.world ∧
      (∀ v, received r.log v = routed g r.log v) ∧
      ∃ node rest input, g.nodes[root.toNat]? = some node ∧
        r.log = node.call root world input :: rest ∧
        Trace g (node.process world input).1 rest r.world ∧ ∀ c ∈ rest, c.node ≠ root := by
  obtain hrunning | ⟨r', hr', hidle, htrace, ⟨c, rest, hlog, hcnode, hcinput, hrest⟩, hreceived⟩ :=
    h.runOnce hroot fuel .cleared world
  · rw [hrunning] at hrun
    cases hrun
  obtain rfl := Except.ok.inj (hr'.symm.trans hrun)
  have hother : ∀ c' ∈ rest, c'.node ≠ root := by
    intro c' hc' heq
    obtain ⟨u, out, hedge⟩ := hrest c' hc'
    exact hsource u out (heq ▸ hedge)
  have hsum := htrace.conserves (P := fun v bufs => v = root → bufs = []) hnode (by
    intro c' hc' heq
    rw [hlog] at hc'
    obtain rfl | hc' := List.mem_cons.mp hc'
    · exact hcinput
    · exact absurd heq (hother c' hc'))
  have hbalance : (r'.log.map fun c => (c.input : Multiset Handle)).sum =
      (r'.log.map fun c => c.pushes g).sum := by
    rw [← sum_received, ← sum_routed hwired]
    refine Finset.sum_congr rfl fun v _ => ?_
    rw [hreceived v]
    simp [Frame.cleared]
  refine ⟨hidle, ?_, fun v => ?_, ?_⟩
  · rw [hbalance, add_right_comm, add_right_comm (disposed world)] at hsum
    exact add_right_cancel hsum
  · rw [hreceived v]
    simp [Frame.cleared]
  · rw [hlog] at htrace ⊢
    cases htrace with
    | @cons _ _ _ v node input hv htrace =>
      obtain rfl : v = root := hcnode
      exact ⟨node, rest, input, hv, rfl, htrace, hother⟩

end Dispatcher

end Cerebellum
