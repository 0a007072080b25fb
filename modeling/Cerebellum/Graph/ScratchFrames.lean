import Cerebellum.Graph.Delivery

/-!
# The frames in `scratch_`

`RunNode` hands the frames in `scratch_` to `Process` to push on, and copies what they hold to the
pending frames of the targets. It clears them before the next call that uses them, not after, so
that when `RunOnce` returns they still hold handles. These are what one of the calls has pushed, or
were there before; and no run looks at them again, whatever they are.

## Main definitions

* `Cerebellum.Dispatcher.withScratch`, `Cerebellum.Run.withScratch`: other frames in `scratch_`.
* `Cerebellum.Run.PushedBy`: what `scratch_` holds was pushed by a call.

## Main results

* `Cerebellum.Dispatcher.pushedBy_runOnce`: what `scratch_` holds after a run.
* `Cerebellum.Dispatcher.runOnce_withScratch`: a run does not depend on it.
* `Cerebellum.Graph.mem_source_of_mem_outs`: where pushed handles come from.
-/

namespace Cerebellum

open Graph

variable {σ Handle : Type} {g : Graph σ Handle} {root v : NodeId}

namespace Dispatcher

variable {d d' : Dispatcher Handle} {scratch : ℕ → Frame Handle}

/-- The dispatcher with other frames in `scratch_`. -/
def withScratch (scratch : ℕ → Frame Handle) (d : Dispatcher Handle) : Dispatcher Handle :=
  { d with scratch := scratch }

theorem openFrame_withScratch (target : NodeId) :
    (d.withScratch scratch).openFrame target = (d.openFrame target).withScratch scratch := by
  have hpending : (d.withScratch scratch).pending = d.pending := rfl
  have hpool : (d.withScratch scratch).pool = d.pool := rfl
  unfold openFrame
  rw [hpending, hpool]
  cases (d.pending target).getLast? with
  | none => rfl
  | some f =>
    dsimp only
    split_ifs <;> rfl

theorem pushBack_withScratch (target : NodeId) (handle : Handle) :
    pushBack target (d.withScratch scratch) handle =
      (pushBack target d handle).map (withScratch scratch) := by
  have hpending : ((d.openFrame target).withScratch scratch).pending =
      (d.openFrame target).pending := rfl
  have hpool : ((d.openFrame target).withScratch scratch).pool = (d.openFrame target).pool := rfl
  unfold pushBack
  rw [openFrame_withScratch, hpending, hpool]
  cases ((d.openFrame target).pending target).getLast? with
  | none => rfl
  | some f =>
    dsimp only
    cases (d.openFrame target).pool.push f handle with
    | error e => rfl
    | ok pool => rfl

theorem foldlM_pushBack_withScratch (target : NodeId) (hs : List Handle) :
    hs.foldlM (pushBack target) (d.withScratch scratch) =
      (hs.foldlM (pushBack target) d).map (withScratch scratch) := by
  induction hs generalizing d with
  | nil => rfl
  | cons handle hs ih =>
    rw [List.foldlM_cons, List.foldlM_cons, pushBack_withScratch]
    cases pushBack target d handle with
    | error e => rfl
    | ok d' => exact ih

theorem schedule_withScratch (u : NodeId) :
    (d.withScratch scratch).schedule u = (d.schedule u).map (withScratch scratch) := by
  have hcheck : (d.withScratch scratch).checkIndex u = d.checkIndex u := rfl
  unfold schedule
  rw [hcheck]
  cases d.checkIndex u with
  | error e => rfl
  | ok _ =>
    change (if d.scheduled u then _ else _) = Except.map _ (if d.scheduled u then _ else _)
    split_ifs <;> rfl

theorem routeInto_withScratch (target : NodeId) (src : Frame Handle) :
    (d.withScratch scratch).routeInto target src =
      (d.routeInto target src).map (withScratch scratch) := by
  have hcheck : (d.withScratch scratch).checkIndex target = d.checkIndex target := rfl
  unfold routeInto
  rw [hcheck]
  cases d.checkIndex target with
  | error e => rfl
  | ok _ => exact foldlM_pushBack_withScratch target src.bufs

/-- Routing what was pushed on an output looks at the frame of this output only. -/
theorem routeOutput_withScratch {out : ℕ} (hout : scratch out = d.scratch out) :
    routeOutput g v (d.withScratch scratch) out =
      (routeOutput g v d out).map (withScratch scratch) := by
  have hframe : (d.withScratch scratch).scratch out = d.scratch out := hout
  unfold routeOutput
  rw [hframe]
  split_ifs
  · rfl
  · rw [routeInto_withScratch]
    cases d.routeInto (g.target v out) (d.scratch out) with
    | error e => rfl
    | ok d' => exact schedule_withScratch _

/-- Routing leaves the frames alone. -/
theorem scratch_routeOutput {out : ℕ} (h : routeOutput g v d out = .ok d') :
    d'.scratch = d.scratch := by
  have hself : routeOutput g v (d.withScratch d.scratch) out =
      (routeOutput g v d out).map (withScratch d.scratch) := routeOutput_withScratch rfl
  have heq : d.withScratch d.scratch = d := rfl
  rw [heq, h] at hself
  have hd' : d' = d'.withScratch d.scratch := Except.ok.inj hself
  rw [hd']
  rfl

theorem routeOutputs_withScratch {outs : List ℕ} (houts : ∀ out ∈ outs, scratch out = d.scratch out)
    (h : outs.foldlM (routeOutput g v) d = .ok d') :
    d'.scratch = d.scratch ∧
      outs.foldlM (routeOutput g v) (d.withScratch scratch) = .ok (d'.withScratch scratch) := by
  induction outs generalizing d with
  | nil =>
    obtain rfl := Except.ok.inj h
    exact ⟨rfl, rfl⟩
  | cons out outs ih =>
    rw [List.foldlM_cons] at h ⊢
    rw [routeOutput_withScratch (houts out List.mem_cons_self)]
    cases hstep : routeOutput g v d out with
    | error e =>
      rw [hstep] at h
      cases h
    | ok d₁ =>
      rw [hstep] at h
      have hkept := scratch_routeOutput hstep
      obtain ⟨hscratch, hrest⟩ := ih (fun o ho => by
        rw [hkept]
        exact houts o (List.mem_cons_of_mem _ ho)) h
      exact ⟨hscratch.trans hkept, hrest⟩

end Dispatcher

namespace Run

variable {r r' r'' : Run σ Handle} {scratch : ℕ → Frame Handle}

/-- The run with other frames in `scratch_`. -/
def withScratch (scratch : ℕ → Frame Handle) (r : Run σ Handle) : Run σ Handle :=
  { r with disp := r.disp.withScratch scratch }

/-- Between `r` and `r'` calls were made, and each frame in `scratch_` is as it was or holds what
one of them has pushed. -/
def PushedBy (r r' : Run σ Handle) : Prop :=
  ∃ calls, r'.log = r.log ++ calls ∧ ∀ out, r'.disp.scratch out = r.disp.scratch out ∨
    ∃ c ∈ calls, (r'.disp.scratch out).bufs = c.outs out

theorem PushedBy.refl (r : Run σ Handle) : r.PushedBy r :=
  ⟨[], (List.append_nil _).symm, fun _ => .inl rfl⟩

theorem PushedBy.trans (h : r.PushedBy r') (h' : r'.PushedBy r'') : r.PushedBy r'' := by
  obtain ⟨calls, hlog, hcalls⟩ := h
  obtain ⟨calls', hlog', hcalls'⟩ := h'
  refine ⟨calls ++ calls', by rw [hlog', hlog, List.append_assoc], fun out => ?_⟩
  rcases hcalls' out with hkept | ⟨c, hc, hpushed⟩
  · rw [hkept]
    exact (hcalls out).imp_right fun ⟨c, hc, hpushed⟩ => ⟨c, List.mem_append_left _ hc, hpushed⟩
  · exact .inr ⟨c, List.mem_append_right _ hc, hpushed⟩

/-- `RunNode` overwrites the frames that it hands to the node and leaves the others alone, and does
the same whatever they held. -/
theorem runNode_withScratch {input : Frame Handle} (h : runNode g v input r = .ok r') :
    r.PushedBy r' ∧ ∀ scratch, ∃ scratch',
      runNode g v input (r.withScratch scratch) = .ok (r'.withScratch scratch') := by
  unfold runNode at h ⊢
  cases hnode : g.nodes[v.toNat]? with
  | none =>
    rw [hnode] at h
    cases h
  | some node =>
    rw [hnode] at h
    have hfanout := fanout_eq hnode
    cases hroute : (List.range (g.fanout v)).foldlM (Dispatcher.routeOutput g v)
        { r.disp with scratch := outputs (node.process r.world input).2 r.disp.scratch } with
    | error e =>
      simp only [hroute] at h
      cases h
    | ok d' =>
      simp only [hroute] at h
      obtain rfl := Except.ok.inj h
      have hown (scratch : ℕ → Frame Handle) (out : ℕ) (hout : out ∈ List.range (g.fanout v)) :
          outputs (node.process r.world input).2 scratch out =
            outputs (node.process r.world input).2 r.disp.scratch out := by
        have hlt : out < node.nextCount := hfanout ▸ List.mem_range.mp hout
        rw [outputs, outputs, dif_pos hlt, dif_pos hlt]
      obtain ⟨hscratch, -⟩ := Dispatcher.routeOutputs_withScratch (hown r.disp.scratch) hroute
      refine ⟨⟨_, rfl, fun out => ?_⟩, fun scratch => ?_⟩
      · change d'.scratch out = _ ∨ ∃ c ∈ _, (d'.scratch out).bufs = _
        rw [hscratch]
        by_cases hout : out < node.nextCount
        · refine .inr ⟨_, List.mem_singleton_self _, ?_⟩
          simp only [Node.call, outputs, dif_pos hout]
        · exact .inl (dif_neg hout)
      · refine ⟨outputs (node.process r.world input).2 scratch, ?_⟩
        obtain ⟨-, hsame⟩ := Dispatcher.routeOutputs_withScratch (hown scratch) hroute
        have hdisp : { (r.withScratch scratch).disp with
            scratch := outputs (node.process (r.withScratch scratch).world input).2
              (r.withScratch scratch).disp.scratch } =
          ({ r.disp with scratch := outputs (node.process r.world input).2 r.disp.scratch } :
            Dispatcher Handle).withScratch (outputs (node.process r.world input).2 scratch) := rfl
        simp only [hdisp, hsame]
        rfl

theorem drainFrames_withScratch {frames : List FrameId} (h : drainFrames g v frames r = .ok r') :
    r.PushedBy r' ∧ ∀ scratch, ∃ scratch',
      drainFrames g v frames (r.withScratch scratch) = .ok (r'.withScratch scratch') := by
  induction frames generalizing r with
  | nil =>
    obtain rfl := Except.ok.inj h
    exact ⟨.refl _, fun scratch => ⟨scratch, rfl⟩⟩
  | cons f frames ih =>
    rw [drainFrames] at h
    cases hrun : runNode g v (r.disp.pool.storage f) r with
    | error e =>
      rw [hrun] at h
      cases h
    | ok r₁ =>
      rw [hrun] at h
      obtain ⟨hpushed, hsame⟩ := runNode_withScratch hrun
      obtain ⟨hpushed', hsame'⟩ := ih h
      refine ⟨hpushed.trans hpushed', fun scratch => ?_⟩
      obtain ⟨scratch₁, hrun'⟩ := hsame scratch
      obtain ⟨scratch', hrest⟩ := hsame' scratch₁
      refine ⟨scratch', ?_⟩
      rw [drainFrames]
      change runNode g v (r.disp.pool.storage f) (r.withScratch scratch) >>= _ = _
      rw [hrun']
      exact hrest

theorem drainNode_withScratch (h : drainNode g v r = .ok r') :
    r.PushedBy r' ∧ ∀ scratch, ∃ scratch',
      drainNode g v (r.withScratch scratch) = .ok (r'.withScratch scratch') := by
  have hcheck (scratch : ℕ → Frame Handle) :
      (r.withScratch scratch).disp.checkIndex v = r.disp.checkIndex v := rfl
  unfold drainNode at h ⊢
  simp only [hcheck]
  cases hindex : r.disp.checkIndex v with
  | error e =>
    rw [hindex] at h
    cases h
  | ok _ =>
    rw [hindex] at h
    exact drainFrames_withScratch h

theorem drain_withScratch {fuel : ℕ} (h : drain g fuel r = .ok r') :
    r.PushedBy r' ∧ ∀ scratch, ∃ scratch',
      drain g fuel (r.withScratch scratch) = .ok (r'.withScratch scratch') := by
  induction fuel generalizing r with
  | zero =>
    cases hqueue : r.disp.queue with
    | nil =>
      rw [drain_of_nil hqueue] at h
      obtain rfl := Except.ok.inj h
      exact ⟨.refl _, fun scratch => ⟨scratch, drain_of_nil (r := r.withScratch scratch) hqueue _⟩⟩
    | cons u queue =>
      rw [drain_zero_of_cons hqueue] at h
      cases h
  | succ fuel ih =>
    cases hqueue : r.disp.queue with
    | nil =>
      rw [drain_of_nil hqueue] at h
      obtain rfl := Except.ok.inj h
      exact ⟨.refl _, fun scratch => ⟨scratch, drain_of_nil (r := r.withScratch scratch) hqueue _⟩⟩
    | cons u queue =>
      cases hrun : drainNode g u (r.pop u queue) with
      | error e =>
        simp only [drain, hqueue, hrun] at h
        cases h
      | ok r₁ =>
        rw [drain_succ_of_cons hqueue hrun] at h
        obtain ⟨hpushed, hsame⟩ := drainNode_withScratch hrun
        obtain ⟨hpushed', hsame'⟩ := ih h
        refine ⟨PushedBy.trans hpushed hpushed', fun scratch => ?_⟩
        obtain ⟨scratch₁, hrun'⟩ := hsame scratch
        obtain ⟨scratch', hrest⟩ := hsame' scratch₁
        have hqueue' : (r.withScratch scratch).disp.queue = u :: queue := hqueue
        exact ⟨scratch', (drain_succ_of_cons hqueue' hrun' fuel).trans hrest⟩

end Run

namespace Dispatcher

variable {d : Dispatcher Handle} {frame : Frame Handle} {world : σ} {fuel : ℕ} {r : Run σ Handle}

theorem seed_withScratch (scratch : ℕ → Frame Handle) :
    (d.withScratch scratch).seed root frame = (d.seed root frame).map (withScratch scratch) := by
  have hreset : (d.withScratch scratch).reset = d.reset.withScratch scratch := rfl
  have hpool : (d.reset.withScratch scratch).pool = d.reset.pool := rfl
  have hcheck : (d.reset.withScratch scratch).checkIndex root = d.reset.checkIndex root := rfl
  unfold seed
  rw [hreset, hpool, hcheck]
  dsimp only
  cases frame.bufs.foldlM (fun pool handle => pool.push d.reset.pool.acquire.1 handle)
      d.reset.pool.acquire.2 with
  | error e => rfl
  | ok pool =>
    cases d.reset.checkIndex root with
    | error e => rfl
    | ok _ =>
      exact schedule_withScratch (d := { d.reset with
        pool := pool
        pending := Function.update d.reset.pending root
          (d.reset.pending root ++ [d.reset.pool.acquire.1]) }) root

/-- A run is the loop, from a state of the dispatcher with the same `scratch_`. -/
theorem exists_drain_of_runOnce (h : runOnce g root fuel frame d world = .ok r) :
    ∃ d', d'.scratch = d.scratch ∧ d.seed root frame = .ok d' ∧
      Run.drain g fuel { disp := d', world := world } = .ok r := by
  unfold runOnce at h
  cases hseed : d.seed root frame with
  | error e =>
    rw [hseed] at h
    cases h
  | ok d' =>
    rw [hseed] at h
    have hself : (d.withScratch d.scratch).seed root frame =
        (d.seed root frame).map (withScratch d.scratch) := seed_withScratch d.scratch
    have heq : d.withScratch d.scratch = d := rfl
    rw [heq, hseed] at hself
    have hd' : d' = d'.withScratch d.scratch := Except.ok.inj hself
    refine ⟨d', ?_, rfl, h⟩
    rw [hd']
    rfl

/-- After a run each frame in `scratch_` is as it was or holds what a call has pushed. -/
theorem pushedBy_runOnce (h : runOnce g root fuel frame d world = .ok r) (out : ℕ) :
    r.disp.scratch out = d.scratch out ∨ ∃ c ∈ r.log, (r.disp.scratch out).bufs = c.outs out := by
  obtain ⟨d', hscratch, -, hdrain⟩ := exists_drain_of_runOnce h
  obtain ⟨⟨calls, hlog, hcalls⟩, -⟩ := Run.drain_withScratch hdrain
  rw [← hscratch, show r.log = calls from hlog]
  exact hcalls out

/-- A run does the same whatever `scratch_` holds when it begins. -/
theorem runOnce_withScratch (h : runOnce g root fuel frame d world = .ok r)
    (scratch : ℕ → Frame Handle) : ∃ scratch',
      runOnce g root fuel frame (d.withScratch scratch) world = .ok (r.withScratch scratch') := by
  obtain ⟨d', -, hseed, hdrain⟩ := exists_drain_of_runOnce h
  obtain ⟨-, hsame⟩ := Run.drain_withScratch hdrain
  obtain ⟨scratch', hdrain'⟩ := hsame scratch
  refine ⟨scratch', ?_⟩
  rw [runOnce, seed_withScratch, hseed]
  exact hdrain'

end Dispatcher

/-! ### Where pushed handles come from -/

/-- Each call of a trace is a call of the node. -/
theorem Trace.exists_call {world world' : σ} {log : List (Call Handle)}
    (h : Trace g world log world') {c : Call Handle} (hc : c ∈ log) :
    ∃ node world input, g.nodes[c.node.toNat]? = some node ∧ c = node.call c.node world input := by
  induction h with
  | nil => exact absurd hc List.not_mem_nil
  | cons input hv h ih =>
    rcases List.mem_cons.mp hc with rfl | hc
    · exact ⟨_, _, input, hv, rfl⟩
    · exact ih hc

/-- What a call has pushed is among some handles if what `Process` pushes is. -/
theorem Graph.Node.outs_subset {node : Node σ Handle} {world : σ} {input : Frame Handle}
    {source : List Handle} (h : ∀ out, ((node.process world input).2 out).bufs ⊆ source)
    (v : NodeId) (out : ℕ) : (node.call v world input).outs out ⊆ source := by
  simp only [Node.call, outputs]
  split_ifs
  · exact h _
  · exact List.nil_subset source

/-- In a graph without cycles whose nodes push what they were given, the root apart, every handle
that a call has pushed is one that the root has pushed. -/
theorem Graph.mem_source_of_mem_outs {rank : NodeId → ℕ}
    (hrank : ∀ u out v, g.Edge u out v → rank u < rank v) {log : List (Call Handle)}
    (hreceived : ∀ v ≠ root, received log v = routed g log v) {source : List Handle}
    (hroot : ∀ c ∈ log, c.node = root → ∀ out, ∀ handle ∈ c.outs out, handle ∈ source)
    (hmoves : ∀ c ∈ log, c.node ≠ root → ∀ out, ∀ handle ∈ c.outs out, handle ∈ c.input)
    {c : Call Handle} (hc : c ∈ log) {out : ℕ} {handle : Handle} (h : handle ∈ c.outs out) :
    handle ∈ source := by
  induction hn : rank c.node using Nat.strong_induction_on generalizing c out with
  | _ n ih =>
    by_cases hnode : c.node = root
    · exact hroot c hc hnode out handle h
    · have hin : handle ∈ received log c.node :=
        List.mem_flatMap.mpr ⟨c, hc, by
          rw [if_pos rfl]
          exact hmoves c hc hnode out handle h⟩
      rw [hreceived c.node hnode] at hin
      obtain ⟨c', hc', hin⟩ := List.mem_flatMap.mp hin
      obtain ⟨out', -, hsent⟩ := List.mem_flatMap.mp hin
      rw [Dispatcher.sentTo] at hsent
      split_ifs at hsent with hedge
      · exact ih _ (hn ▸ hrank _ _ _ hedge) hc' hsent rfl
      · exact absurd hsent List.not_mem_nil

end Cerebellum
