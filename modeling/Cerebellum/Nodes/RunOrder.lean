import Cerebellum.Nodes.NodeOrder

/-!
# Order in one run

What one run of each of the four graphs does to packets with the same 5-tuple, as a run of handles
of which some are of interest. In the graphs that forward packets they take the same way, through
the load balancer and the rewriting nodes, and those that are sent or enqueued are in the order in
which they came in. The input side of the IO core enqueues them on the ring of one worker, in order,
and leaves their buffers alone.

## Main results

* `Cerebellum.monolithic_in_order`, `Cerebellum.rx_in_order`, `Cerebellum.worker_in_order`,
  `Cerebellum.tx_in_order`: one run of each graph.
-/

namespace Cerebellum

open Graph Dispatcher Transit

variable {bits : ℕ} {Handle : Type} [DecidableEq Handle]

/-! ### The parse node -/

/-- The parse node pushes a packet on the output that its frame decides. -/
theorem Ip4ParseNode.outs_eq (cfg : Config) (v : NodeId) (world : World bits Handle)
    (input : Graph.Frame Handle) (out : Fin 4) :
    ((Ip4ParseNode.node cfg).call v world input).outs out =
      input.bufs.filter fun handle => (classify cfg (world.mem handle)).2.index = out := by
  have hcall : ((Ip4ParseNode.node cfg).call v world input).outs out =
      (moveEach (fun world handle =>
        (world.setMbuf handle
            { world.mem handle with priv := (classify cfg (world.mem handle)).1 },
          some (classify cfg (world.mem handle)).2.index)) world input.bufs).2 out := by
    simp only [Node.call, outputs]
    have hout : (out : ℕ) < (Ip4ParseNode.node cfg : Node (World bits Handle) Handle).nextCount :=
      out.2
    rw [dif_pos hout]
    rfl
  rw [hcall, moveEach_eq_filter (fun w => ∀ h, (w.mem h).frame = (world.mem h).frame)
    fun handle => some (classify cfg (world.mem handle)).2.index]
  · simp only [Option.some.injEq]
  · intro w handle hw
    refine ⟨fun h => ?_, ?_⟩
    · by_cases hh : h = handle
      · subst hh
        rw [World.mem_setMbuf_self]
        exact hw h
      · rw [World.mem_setMbuf _ hh]
        exact hw h
    · rw [classify_snd_congr cfg (hw handle)]
  · exact fun _ => rfl

/-- Packets with the same 5-tuple are pushed on the same output, and not on the one for ARP. -/
theorem Ip4ParseNode.filter_outs {cfg : Config} {P : Handle → Bool} {key : FlowKey}
    {world : World bits Handle} {input : Graph.Frame Handle}
    (hP : ∀ handle ∈ input.bufs, P handle → (world.mem handle).frame.fiveTuple = some key)
    (v : NodeId) (out : Fin 4) :
    (((Ip4ParseNode.node cfg).call v world input).outs out).filter P =
      if (nextOf cfg key).index = out then input.bufs.filter P else [] := by
  rw [Ip4ParseNode.outs_eq, List.filter_filter]
  split_ifs with hout
  · refine List.filter_congr fun handle hmem => ?_
    by_cases hp : P handle = true
    · simp [hp, classify_of_fiveTuple (hP handle hmem hp), hout]
    · simp [hp]
  · rw [List.filter_eq_nil_iff]
    intro handle hmem
    by_cases hp : P handle = true
    · simp [hp, classify_of_fiveTuple (hP handle hmem hp), hout]
    · simp [hp]

/-! ### What the nodes emit -/

/-- The handles that were enqueued, on any ring. -/
def Ledger.passed (ledger : Ledger Handle) : List Handle := ledger.enqueued.map Prod.snd

section Emits

variable {node : Node (World bits Handle) Handle}

omit [DecidableEq Handle] in
theorem Graph.Node.emits_of_eq (emitted : Ledger Handle → List Handle) (h : ∀ world input,
    emitted (node.process world input).1.ledger = emitted world.ledger) (quiet : Prop) :
    node.Emits (fun w => emitted w.ledger) quiet :=
  fun world input => ⟨[], List.nil_sublist _, by simp only [h, List.append_nil], fun _ => rfl⟩

omit [DecidableEq Handle] in
theorem Graph.Node.Passes.emits (h : node.Passes) (emitted : Ledger Handle → List Handle)
    (quiet : Prop) : node.Emits (fun w => emitted w.ledger) quiet :=
  Node.emits_of_eq emitted (fun world input => congrArg emitted (h.ledger_eq world input)) quiet

omit [DecidableEq Handle] in
theorem TxNode.emits (env : Env Handle) {quiet : Prop} (hquiet : ¬ quiet) :
    (TxNode.node env : Node (World bits Handle) Handle).Emits (fun w => w.ledger.sent) quiet :=
  fun _ _ => ⟨_, List.take_sublist _ _, rfl, fun h => absurd h hquiet⟩

omit [DecidableEq Handle] in
theorem RingTxNode.emits (env : Env Handle) (ring : Ring) {quiet : Prop} (hquiet : ¬ quiet) :
    (RingTxNode.node env ring : Node (World bits Handle) Handle).Emits
      (fun w => w.ledger.passed) quiet := by
  refine fun world input => ⟨input.bufs.take (min (env.accepted world.tick) input.bufs.length),
    List.take_sublist _ _, ?_, fun h => absurd h hquiet⟩
  simp only [RingTxNode.node, Ledger.passed, List.map_append, List.map_map]
  rw [show Prod.snd ∘ (fun h : Handle => (ring, h)) = id from rfl, List.map_id]

/-- The node enqueues a part of its input, in order. -/
def Graph.Node.Enqueues (node : Node (World bits Handle) Handle) : Prop :=
  ∀ world input, ∃ new : List (Ring × Handle), (new.map Prod.snd).Sublist input.bufs ∧
    (node.process world input).1.ledger.enqueued = world.ledger.enqueued ++ new

omit [DecidableEq Handle] in
theorem Graph.Node.Passes.enqueues (h : node.Passes) : node.Enqueues := fun world input =>
  ⟨[], List.nil_sublist _, by rw [h.ledger_eq, List.append_nil]⟩

omit [DecidableEq Handle] in
theorem DropNode.enqueues : (DropNode.node : Node (World bits Handle) Handle).Enqueues :=
  fun _ _ => ⟨[], List.nil_sublist _, (List.append_nil _).symm⟩

omit [DecidableEq Handle] in
theorem RingTxNode.enqueues (env : Env Handle) (ring : Ring) :
    (RingTxNode.node env ring : Node (World bits Handle) Handle).Enqueues := by
  refine fun world input => ⟨_, ?_, rfl⟩
  rw [List.map_map, show Prod.snd ∘ (fun h : Handle => (ring, h)) = id from rfl, List.map_id]
  exact List.take_sublist _ _

omit [DecidableEq Handle] in
theorem SteerNode.enqueues (env : Env Handle) (hash : FlowKey → UInt32) (cfg : Config)
    (nWorkers : ℕ) :
    (SteerNode.node env hash cfg nWorkers : Node (World bits Handle) Handle).Enqueues := by
  intro world input
  obtain ⟨-, -, new, hnew, hsub, -⟩ :=
    SteerNode.moveEach_steer env hash cfg nWorkers world input.bufs
  exact ⟨new, hsub, hnew⟩

end Emits

/-! ### What the nodes write -/

/-- Only handles with the property `Q` are pending, and no other buffers have been written since
`mem`. -/
structure Transit.Confined (mem : Handle → Mbuf) (Q : Handle → Prop)
    (s : Transit (World bits Handle) Handle) : Prop where
  pending : ∀ u, ∀ handle ∈ s.pending u, Q handle
  mem_eq : ∀ handle, ¬ Q handle → s.world.mem handle = mem handle

omit [DecidableEq Handle] in
theorem Transit.Confined.step {mem : Handle → Mbuf} {Q : Handle → Prop}
    {g : Graph (World bits Handle) Handle} {s s' : Transit (World bits Handle) Handle} {v : NodeId}
    (h : s.Confined mem Q) (hstep : Step g s v s')
    (htidy : ∀ node, g.nodes[v.toNat]? = some node → node.Tidy) : s'.Confined mem Q := by
  refine ⟨hstep.forall_pending (fun node hnode => (htidy node hnode).moves) h.pending, ?_⟩
  cases hstep with
  | @call node rest input hnode hpending hfull =>
    intro handle hQ
    refine ((htidy node hnode).mem_eq s.world input handle fun hmem => hQ ?_).trans
      (h.mem_eq handle hQ)
    exact h.pending v handle (hpending ▸ List.mem_append_left _ hmem)

/-! ### Steering -/

section Steering

variable {mem : Handle → Mbuf} {P : Handle → Bool} {onRing : Ring → Prop} {hs : List Handle}
  {g : Graph (World bits Handle) Handle} {s s' : Transit (World bits Handle) Handle} {v : NodeId}

/-- The packets of interest have been enqueued on certain rings, in order, or freed: none of them is
pending, and none of their buffers has been written. -/
structure Transit.SteeredAway (mem : Handle → Mbuf) (P : Handle → Bool) (onRing : Ring → Prop)
    (hs : List Handle) (s : Transit (World bits Handle) Handle) : Prop where
  confined : s.Confined mem fun handle => ¬ P handle
  sublist : (s.world.ledger.passed.filter P).Sublist (hs.filter P)
  onRing : ∀ p ∈ s.world.ledger.enqueued, P p.2 → onRing p.1

omit [DecidableEq Handle] in
theorem Transit.SteeredAway.step (h : s.SteeredAway mem P onRing hs) (hstep : Step g s v s')
    (hnode : ∀ node, g.nodes[v.toNat]? = some node → node.Tidy ∧ node.Enqueues) :
    s'.SteeredAway mem P onRing hs := by
  have hconfined := h.confined.step hstep fun node hv => (hnode node hv).1
  cases hstep with
  | @call node rest input hv hpending hfull =>
    obtain ⟨new, hsub, henqueued⟩ := (hnode node hv).2 s.world input
    have hnone (p : Ring × Handle) (hp : p ∈ new) : ¬ P p.2 := by
      have hmem := hsub.subset (List.mem_map_of_mem hp)
      exact h.confined.pending v p.2 (hpending ▸ List.mem_append_left _ hmem)
    refine ⟨hconfined, ?_, fun p hp hPp => ?_⟩
    · have hnil : (new.map Prod.snd).filter P = [] := by
        rw [List.filter_eq_nil_iff]
        intro handle hhandle
        obtain ⟨p, hp, rfl⟩ := List.mem_map.mp hhandle
        exact hnone p hp
      have hpassed : (s.after g v node input rest).world.ledger.passed =
          s.world.ledger.passed ++ new.map Prod.snd := by
        rw [Ledger.passed, Ledger.passed, ← List.map_append]
        exact congrArg _ henqueued
      rw [hpassed, List.filter_append, hnil, List.append_nil]
      exact h.sublist
    · have hp' : p ∈ s.world.ledger.enqueued ++ new := henqueued ▸ hp
      rcases List.mem_append.mp hp' with hp' | hp'
      · exact h.onRing p hp' hPp
      · exact absurd hPp (hnone p hp')

omit [DecidableEq Handle] in
/-- The call of `SteerNode` with the burst. -/
theorem Transit.steeredAway_after {env : Env Handle} {hash : FlowKey → UInt32} {cfg : Config}
    {nWorkers : ℕ} {burst : Graph.Frame Handle} {key : FlowKey} (hfed : s.Fed 1 burst)
    (hledger : s.world.ledger.enqueued = [])
    (hP : ∀ handle ∈ burst.bufs, P handle → (s.world.mem handle).frame.fiveTuple = some key) :
    (s.after g 1 (SteerNode.node env hash cfg nWorkers) burst []).SteeredAway s.world.mem P
      (fun ring => ∃ w, steerOf hash cfg nWorkers key = .steer w ∧ ring = .worker w)
      burst.bufs := by
  obtain ⟨hmem, harp, new, henqueued, hsub, hring⟩ :=
    SteerNode.moveEach_steer env hash cfg nWorkers s.world burst.bufs
  rw [hledger, List.nil_append] at henqueued
  have hclass {handle : Handle} (hhandle : handle ∈ burst.bufs) (hp : P handle) :
      classifyForSteer hash cfg nWorkers (s.world.mem handle).frame =
        steerOf hash cfg nWorkers key := classifyForSteer_of_fiveTuple (hP handle hhandle hp)
  refine ⟨⟨fun u handle hhandle hp => ?_, fun handle _ => ?_⟩, ?_, fun p hp hPp => ?_⟩
  · rw [hfed.pending_after] at hhandle
    obtain ⟨out, -, hhandle⟩ := List.mem_flatMap.mp hhandle
    have hburst : handle ∈ burst.bufs := ((SteerNode.tidy env hash cfg nWorkers).moves.outs_sublist
      1 s.world burst out).subset hhandle
    simp only [Node.call, outputs] at hhandle
    split_ifs at hhandle with hlt
    · obtain rfl : out = 0 := Nat.lt_one_iff.mp hlt
      exact steerOf_ne_arp hash cfg nWorkers key
        ((hclass hburst hp).symm.trans (harp handle hhandle))
    · exact absurd hhandle List.not_mem_nil
  · exact congrFun hmem handle
  · have hpassed :
        (s.after g 1 (SteerNode.node env hash cfg nWorkers) burst []).world.ledger.passed =
          new.map Prod.snd := congrArg (List.map Prod.snd) henqueued
    rw [hpassed]
    exact hsub.filter P
  · have hp' : p ∈ new := henqueued ▸ hp
    obtain ⟨w, hw, hworker⟩ := hring p hp'
    rw [hclass (hsub.subset (List.mem_map_of_mem hp')) hPp] at hw
    exact ⟨w, hw, hworker⟩

end Steering

/-! ### Graphs that forward packets -/

section Forward

variable {cfg : Config} {g : Graph (World bits Handle) Handle} {clean : List NodeId}
  {emitted : Ledger Handle → List Handle} {P : Handle → Bool} {key : FlowKey}
  {s : Transit (World bits Handle) Handle} {burst : Graph.Frame Handle}
  {world : World bits Handle}

/-- The parse node at the entry of the lane: its first two outputs lead into the lane, and of the
others only the one for ARP may lead to a node of `clean`. -/
structure Graph.ParsesInto (cfg : Config) (g : Graph (World bits Handle) Handle)
    (clean : List NodeId) : Prop where
  nodes_eq : g.nodes[(1 : NodeId).toNat]? = some (Ip4ParseNode.node cfg)
  outputs_entry : outputsTo g.routing 1 2 = [0, 1]
  outputs_later : [5, 4, 3].flatMap (outputsTo g.routing 1) = []
  outputs_clean : ∀ out ∈ clean.flatMap (outputsTo g.routing 1), out = 3

theorem Graph.ParsesInto.inLine_after (h : g.ParsesInto cfg clean) (hfed : s.Fed 1 burst)
    (hemitted : emitted s.world.ledger = [])
    (hP : ∀ handle ∈ burst.bufs, P handle → (s.world.mem handle).frame.fiveTuple = some key) :
    (s.after g 1 (Ip4ParseNode.node cfg) burst []).InLine (fun w => emitted w.ledger) [5, 4, 3, 2]
      clean P burst.bufs := by
  have houts (out : Fin 4) : ((((Ip4ParseNode.node cfg).call 1 s.world burst).outs out).filter P) =
      if (Ip4ParseNode.nextOf cfg key).index = out then burst.bufs.filter P else [] :=
    Ip4ParseNode.filter_outs hP 1 out
  constructor
  · rw [List.filter_flatMap, List.flatMap_eq_nil_iff]
    intro u hu
    rw [hfed.pending_after, List.filter_flatMap, List.flatMap_eq_nil_iff]
    intro out hout
    obtain rfl := h.outputs_clean out (List.mem_flatMap.mpr ⟨u, hu, hout⟩)
    refine (houts 3).trans (if_neg fun hindex => ?_)
    exact Ip4ParseNode.nextOf_ne_arp cfg key (Ip4ParseNode.index_injective hindex)
  · have hledger : (s.after g 1 (Ip4ParseNode.node cfg) burst []).world.ledger = s.world.ledger :=
      (Ip4ParseNode.passes cfg).ledger_eq s.world burst
    have hline : (s.after g 1 (Ip4ParseNode.node cfg) burst []).line (fun w => emitted w.ledger)
        [5, 4, 3, 2] = ((Ip4ParseNode.node cfg).call 1 s.world burst).outs (0 : Fin 4) ++
          ((Ip4ParseNode.node cfg).call 1 s.world burst).outs (1 : Fin 4) := by
      obtain ⟨h5, h4, h3⟩ := by simpa using h.outputs_later
      simp only [line, hledger, hemitted, List.flatMap_cons, hfed.pending_after, h.outputs_entry,
        h5, h4, h3, List.flatMap_nil, List.nil_append, List.append_nil]
      rfl
    rw [hline, List.filter_append, houts, houts]
    cases Ip4ParseNode.nextOf cfg key with
    | fwd => exact (List.append_nil _ ▸ List.Sublist.refl _)
    | rev => exact List.Sublist.refl _
    | drop => exact List.nil_sublist _
    | arp => exact List.nil_sublist _

/-- What has left the lane at the end of the run is in the order in which it came in. -/
theorem Graph.Lane.emitted_sublist
    (hlane : g.Lane 0 (fun w => emitted w.ledger) [5, 4, 3, 2] clean)
    (hparse : g.ParsesInto cfg clean)
    (hne : ∀ {v}, (∃ w out, g.Edge w out v) → v ≠ 0)
    (htidy : ∀ (v : NodeId) node, v ≠ 0 → g.nodes[v.toNat]? = some node → node.Tidy)
    (hsteps : Steps g s (.done world)) (hfed : s.Fed 1 burst)
    (hemitted : emitted s.world.ledger = [])
    (hP : ∀ handle ∈ burst.bufs, P handle → (s.world.mem handle).frame.fiveTuple = some key) :
    ((emitted world.ledger).filter P).Sublist (burst.bufs.filter P) := by
  have hphases : (burst.bufs = [] ∧ emitted world.ledger = [] ∧ world.mem = s.world.mem) ∨
      (Transit.done world).InLine (fun w => emitted w.ledger) [5, 4, 3, 2] clean P burst.bufs := by
    refine hsteps.of_fed (A := fun w => emitted w.ledger = [] ∧ w.mem = s.world.mem) hfed
      ⟨hemitted, rfl⟩ (fun v node hedge hnode => hlane.moves v node hnode (hne hedge)) ?_ ?_
      (fun s' s'' v hedge => hlane.inLine_step (hne hedge))
    · intro v node hedge hnode hv w ⟨hw, hmem⟩
      obtain ⟨out, hout, hemit, -⟩ := hlane.emits v node hnode (hne hedge) w .cleared
      have hout' : out = [] := List.sublist_nil.mp hout
      refine ⟨hemit.trans (by simp only [hw, hout', List.nil_append]), funext fun handle => ?_⟩
      rw [(htidy v node (hne hedge) hnode).mem_eq w .cleared handle List.not_mem_nil, hmem]
    · intro s' node hnode hfed' ⟨hw, hmem⟩
      obtain rfl := Option.some.inj (hparse.nodes_eq.symm.trans hnode)
      exact hparse.inLine_after hfed' hw (by rwa [hmem])
  rcases hphases with ⟨-, hw, -⟩ | hline
  · rw [hw]
    exact List.nil_sublist _
  · simpa [line, Transit.done] using hline.sublist

variable {env : Env Handle} {source : Node (World bits Handle) Handle}
  {rest : List (Node (World bits Handle) Handle)} {ranks : List ℕ} {rows : List (List NodeId)}
  {d : Dispatcher Handle} {fuel : ℕ} {r : Run (World bits Handle) Handle}

/-- A run of a graph that forwards packets. -/
theorem Graph.Wired.emitted_sublist (h : g.Wired env source rest ranks)
    (hsource : source.Source env) (hrows : g.routing = [1] :: rows)
    (hlane : g.Lane 0 (fun w => emitted w.ledger) [5, 4, 3, 2] clean)
    (hparse : g.ParsesInto cfg clean) (htidy : rest.Forall Node.Tidy)
    (hd : Reachable g 0 d)
    (hrun : Dispatcher.runOnce g 0 fuel .cleared d { world with ledger := {} } = .ok r)
    (hempty : ∀ taken, emitted { taken := taken } = [])
    (hP : ∀ handle ∈ (env.received world.tick).bufs, P handle →
      (env.memory world.tick handle).frame.fiveTuple = some key) :
    ((emitted r.world.ledger).filter P).Sublist ((env.received world.tick).bufs.filter P) := by
  obtain ⟨s, hfed, hmem, -, hledger, hsteps⟩ := h.fed hsource hrows (h.idle hd) hrun
  refine hlane.emitted_sublist hparse h.ne_root
    (fun v node hv hnode => List.forall_iff_forall_mem.mp htidy node (h.mem_rest hv hnode)) hsteps
    hfed (hledger ▸ hempty _) (by rwa [hmem])

omit [DecidableEq Handle] in
/-- A run writes no buffers but those of its burst. -/
theorem Graph.Wired.mem_eq (h : g.Wired env source rest ranks) (hsource : source.Source env)
    (hrows : g.routing = [1] :: rows) (htidy : rest.Forall Node.Tidy) (hd : Reachable g 0 d)
    (hrun : Dispatcher.runOnce g 0 fuel .cleared d { world with ledger := {} } = .ok r) :
    ∀ handle ∉ (env.received world.tick).bufs,
      r.world.mem handle = env.memory world.tick handle := by
  obtain ⟨s, hfed, hmem, -, -, hsteps⟩ := h.fed hsource hrows (h.idle hd) hrun
  have hconfined : (Transit.done r.world).Confined (env.memory world.tick)
      (· ∈ (env.received world.tick).bufs) := by
    refine hsteps.induct (I := Transit.Confined (env.memory world.tick)
      (· ∈ (env.received world.tick).bufs)) ?_ ⟨fun u handle hhandle => ?_, fun handle _ => ?_⟩
    · intro s s' v hedge hstep hs
      exact hs.step hstep fun node hnode => List.forall_iff_forall_mem.mp htidy node
        (h.mem_rest (h.ne_root hedge) hnode)
    · rw [hfed u] at hhandle
      split_ifs at hhandle
      · exact hhandle
      · exact absurd hhandle List.not_mem_nil
    · rw [hmem]
  exact hconfined.mem_eq

omit [DecidableEq Handle] in
/-- What all nodes preserve of the ledger holds after a run. -/
theorem Graph.Wired.ledger_induct (h : g.Wired env source rest ranks) {I : Ledger Handle → Prop}
    (hstart : ∀ taken, I { taken := taken })
    (hnode : rest.Forall fun node => ∀ world input, I world.ledger →
      I (node.process world input).1.ledger)
    (hd : Reachable g 0 d)
    (hrun : Dispatcher.runOnce g 0 fuel .cleared d { world with ledger := {} } = .ok r) :
    I r.world.ledger := by
  obtain ⟨-, -, log, input, htrace, hlog⟩ := h.runOnce hd hrun
  refine htrace.preserves (I := fun w => I w.ledger) (Q := fun v => v ≠ 0) ?_ hlog ?_
  · intro v node hv hne w input' hw
    exact List.forall_iff_forall_mem.mp hnode node (h.mem_rest hne hv) w input' hw
  · rw [(h.receives _ _).1]
    exact hstart _

end Forward

section Runs

variable {env : Env Handle} {hash : FlowKey → UInt32} {cfg : Config} {cks : Checksums}
  {g : Graph (World bits Handle) Handle} {root : NodeId} {d : Dispatcher Handle} {fuel : ℕ}
  {world : World bits Handle} {r : Run (World bits Handle) Handle} {P : Handle → Bool}
  {key : FlowKey}

/-- The nodes of the graph of a single core behind the root. -/
theorem monolithic_tidy (bits : ℕ) (env : Env Handle) (hash : FlowKey → UInt32) (cfg : Config)
    (cks : Checksums) :
    List.Forall Node.Tidy [Ip4ParseNode.node cfg, LbNode.node env hash, DnatNode.node cfg cks,
      EtherRewriteNode.node cfg, TxNode.node env, DropNode.node,
      (ArpNode.node cfg : Node (World bits Handle) Handle)] :=
  ⟨Ip4ParseNode.tidy cfg, LbNode.tidy env hash, DnatNode.tidy cfg cks, EtherRewriteNode.tidy cfg,
    TxNode.tidy env, DropNode.tidy, ArpNode.tidy cfg⟩

theorem worker_tidy (bits : ℕ) (env : Env Handle) (hash : FlowKey → UInt32) (cfg : Config)
    (cks : Checksums) :
    List.Forall Node.Tidy [Ip4ParseNode.node cfg, LbNode.node env hash, DnatNode.node cfg cks,
      EtherRewriteNode.node cfg, RingTxNode.node env .egress,
      (DropNode.node : Node (World bits Handle) Handle)] :=
  ⟨Ip4ParseNode.tidy cfg, LbNode.tidy env hash, DnatNode.tidy cfg cks, EtherRewriteNode.tidy cfg,
    RingTxNode.tidy env _, DropNode.tidy⟩

theorem rx_tidy (bits : ℕ) (env : Env Handle) (hash : FlowKey → UInt32) (cfg : Config)
    (nWorkers : ℕ) :
    List.Forall Node.Tidy [SteerNode.node env hash cfg nWorkers, ArpNode.node cfg,
      RingTxNode.node env .egress, (DropNode.node : Node (World bits Handle) Handle)] :=
  ⟨SteerNode.tidy env hash cfg nWorkers, ArpNode.tidy cfg, RingTxNode.tidy env _, DropNode.tidy⟩

/-- What a run on a single core sends of the packets with the same 5-tuple is in the order in which
they came in. -/
theorem monolithic_in_order (hbuild : buildMonolithicGraph bits env hash cfg cks = .ok (g, root))
    (hd : Reachable g root d)
    (hrun : runOnce g root fuel .cleared d { world with ledger := {} } = .ok r)
    (hP : ∀ handle ∈ (env.received world.tick).bufs, P handle →
      (env.memory world.tick handle).frame.fiveTuple = some key) :
    (r.world.ledger.sent.filter P).Sublist ((env.received world.tick).bufs.filter P) := by
  obtain ⟨g', hg', hrouting, hwired⟩ := wired_monolithic bits env hash cfg cks
  obtain ⟨rfl, rfl⟩ := Prod.mk.inj (Except.ok.inj (hg'.symm.trans hbuild))
  have htidy := monolithic_tidy bits env hash cfg cks
  have hlane : g'.Lane 0 (fun w => w.ledger.sent) [5, 4, 3, 2] [0, 1, 7] := by
    refine ⟨hrouting ▸ by decide, fun v node hnode hv =>
      (List.forall_iff_forall_mem.mp htidy node (hwired.mem_rest hv hnode)).moves, ?_⟩
    refine forall_node hwired.nodes_eq ?_
    exact ⟨fun h => absurd rfl h, fun _ => (Ip4ParseNode.passes cfg).emits _ _,
      fun _ => (LbNode.passes env hash).emits _ _, fun _ => (DnatNode.passes cfg cks).emits _ _,
      fun _ => (EtherRewriteNode.passes cfg).emits _ _, fun _ => TxNode.emits env fun h => h.2 rfl,
      fun _ => Node.emits_of_eq Ledger.sent (fun _ _ => rfl) _,
      fun _ => (ArpNode.passes cfg).emits _ _⟩
  have hparse : g'.ParsesInto cfg [0, 1, 7] := by
    refine ⟨by rw [hwired.nodes_eq]; rfl, ?_, ?_, ?_⟩
    all_goals
      rw [hrouting]
      decide
  exact hwired.emitted_sublist (RxNode.source env) hrouting hlane hparse htidy hd hrun
    (fun _ => rfl) hP

/-- What a worker enqueues of the packets with the same 5-tuple is in the order in which they came
in. It enqueues on the ring to the IO core only, and writes no buffers but those of its burst. -/
theorem worker_in_order (hbuild : buildWorkerGraph bits env hash cfg cks = .ok (g, root))
    (hd : Reachable g root d)
    (hrun : runOnce g root fuel .cleared d { world with ledger := {} } = .ok r)
    (hP : ∀ handle ∈ (env.received world.tick).bufs, P handle →
      (env.memory world.tick handle).frame.fiveTuple = some key) :
    (r.world.ledger.passed.filter P).Sublist ((env.received world.tick).bufs.filter P) ∧
      (∀ p ∈ r.world.ledger.enqueued, p.1 = .egress) ∧
      ∀ handle ∉ (env.received world.tick).bufs,
        r.world.mem handle = env.memory world.tick handle := by
  obtain ⟨g', hg', hrouting, hwired⟩ := wired_worker bits env hash cfg cks
  obtain ⟨rfl, rfl⟩ := Prod.mk.inj (Except.ok.inj (hg'.symm.trans hbuild))
  have htidy := worker_tidy bits env hash cfg cks
  have hlane : g'.Lane 0 (fun w => w.ledger.passed) [5, 4, 3, 2] [0, 1] := by
    refine ⟨hrouting ▸ by decide, fun v node hnode hv =>
      (List.forall_iff_forall_mem.mp htidy node (hwired.mem_rest hv hnode)).moves, ?_⟩
    refine forall_node hwired.nodes_eq ?_
    exact ⟨fun h => absurd rfl h, fun _ => (Ip4ParseNode.passes cfg).emits Ledger.passed _,
      fun _ => (LbNode.passes env hash).emits Ledger.passed _,
      fun _ => (DnatNode.passes cfg cks).emits Ledger.passed _,
      fun _ => (EtherRewriteNode.passes cfg).emits Ledger.passed _,
      fun _ => RingTxNode.emits env _ fun h => h.2 rfl,
      fun _ => Node.emits_of_eq Ledger.passed (fun _ _ => rfl) _⟩
  have hparse : g'.ParsesInto cfg [0, 1] := by
    refine ⟨by rw [hwired.nodes_eq]; rfl, ?_, ?_, ?_⟩
    all_goals
      rw [hrouting]
      decide
  refine ⟨hwired.emitted_sublist (RingRxNode.source env) hrouting hlane hparse htidy hd hrun
    (fun _ => rfl) hP, ?_, hwired.mem_eq (RingRxNode.source env) hrouting htidy hd hrun⟩
  refine hwired.ledger_induct (I := fun ledger => ∀ p ∈ ledger.enqueued, p.1 = .egress)
    (fun _ => nofun) ?_ hd hrun
  have hpasses {node : Node (World bits Handle) Handle} (h : node.Passes) : ∀ world input,
      (∀ p ∈ world.ledger.enqueued, p.1 = Ring.egress) →
        ∀ p ∈ (node.process world input).1.ledger.enqueued, p.1 = .egress := by
    intro world input
    rw [h.ledger_eq]
    exact id
  refine ⟨hpasses (Ip4ParseNode.passes cfg), hpasses (LbNode.passes env hash),
    hpasses (DnatNode.passes cfg cks), hpasses (EtherRewriteNode.passes cfg), ?_, fun _ _ => id⟩
  intro world input h p hp
  rcases List.mem_append.mp hp with hp | hp
  · exact h p hp
  · obtain ⟨handle, -, rfl⟩ := List.mem_map.mp hp
    rfl

/-- The input side of the IO core enqueues packets with the same 5-tuple on the ring of one worker,
in the order in which they came in, and writes neither their buffers nor those outside the burst. -/
theorem rx_in_order {nWorkers : ℕ}
    (hbuild : buildRxGraph bits env hash cfg nWorkers = .ok (g, root)) (hd : Reachable g root d)
    (hrun : runOnce g root fuel .cleared d { world with ledger := {} } = .ok r)
    (hP : ∀ handle ∈ (env.received world.tick).bufs, P handle →
      (env.memory world.tick handle).frame.fiveTuple = some key) :
    (r.world.ledger.passed.filter P).Sublist ((env.received world.tick).bufs.filter P) ∧
      (∀ p ∈ r.world.ledger.enqueued, P p.2 →
        ∃ w, steerOf hash cfg nWorkers key = .steer w ∧ p.1 = .worker w) ∧
      (∀ handle, P handle → r.world.mem handle = env.memory world.tick handle) ∧
      ∀ handle ∉ (env.received world.tick).bufs,
        r.world.mem handle = env.memory world.tick handle := by
  obtain ⟨g', hg', hrouting, hwired⟩ := wired_rx bits env hash cfg nWorkers
  obtain ⟨rfl, rfl⟩ := Prod.mk.inj (Except.ok.inj (hg'.symm.trans hbuild))
  have htidy := rx_tidy bits env hash cfg nWorkers
  have henqueues : List.Forall Node.Enqueues [SteerNode.node env hash cfg nWorkers,
      ArpNode.node cfg, RingTxNode.node env .egress,
      (DropNode.node : Node (World bits Handle) Handle)] :=
    ⟨SteerNode.enqueues env hash cfg nWorkers, (ArpNode.passes cfg).enqueues,
      RingTxNode.enqueues env _, DropNode.enqueues⟩
  obtain ⟨s, hfed, hmem, -, hledger, hsteps⟩ :=
    hwired.fed (RxNode.source env) hrouting (hwired.idle hd) hrun
  have hnode {v : NodeId} {node : Node (World bits Handle) Handle}
      (hedge : ∃ w out, g'.Edge w out v) (hnode : g'.nodes[v.toNat]? = some node) :
      node.Tidy ∧ node.Enqueues :=
    ⟨List.forall_iff_forall_mem.mp htidy node (hwired.mem_rest (hwired.ne_root hedge) hnode),
      List.forall_iff_forall_mem.mp henqueues node (hwired.mem_rest (hwired.ne_root hedge) hnode)⟩
  have hphases : ((env.received world.tick).bufs = [] ∧ r.world.mem = env.memory world.tick ∧
        r.world.ledger.enqueued = []) ∨
      (Transit.done r.world).SteeredAway (env.memory world.tick) P
        (fun ring => ∃ w, steerOf hash cfg nWorkers key = .steer w ∧ ring = .worker w)
        (env.received world.tick).bufs := by
    refine hsteps.of_fed (A := fun w => w.mem = env.memory world.tick ∧ w.ledger.enqueued = []) hfed
      ⟨hmem, by rw [hledger]⟩ (fun v node hedge hv => (hnode hedge hv).1.moves) ?_ ?_
      (fun s s' v hedge hstep hs => Transit.SteeredAway.step hs hstep fun node => hnode hedge)
    · intro v node hedge hv hne w ⟨hw, hw'⟩
      obtain ⟨new, hsub, henqueued⟩ := (hnode hedge hv).2 w .cleared
      have hnil : new = [] := List.map_eq_nil_iff.mp (List.sublist_nil.mp hsub)
      refine ⟨funext fun handle => ?_, by rw [henqueued, hw', hnil, List.append_nil]⟩
      rw [(hnode hedge hv).1.mem_eq w .cleared handle List.not_mem_nil, hw]
    · intro s' node hv hfed' ⟨hw, hw'⟩
      obtain rfl : SteerNode.node env hash cfg nWorkers = node := by
        rw [hwired.nodes_eq] at hv
        exact Option.some.inj hv
      rw [← hw]
      exact Transit.steeredAway_after hfed' hw' (by rwa [hw])
  have hother := hwired.mem_eq (RxNode.source env) hrouting htidy hd hrun
  rcases hphases with ⟨-, hmem', hnil⟩ | hsteered
  · rw [Ledger.passed, hnil, hmem']
    exact ⟨List.nil_sublist _, nofun, fun _ _ => rfl, fun _ _ => rfl⟩
  · exact ⟨hsteered.sublist, hsteered.onRing,
      fun handle hp => hsteered.confined.mem_eq handle (not_not.mpr hp), hother⟩

omit [DecidableEq Handle] in
/-- What the output side of the IO core sends is in the order in which it came from the ring. -/
theorem tx_in_order (hbuild : buildTxGraph bits env = .ok (g, root)) (hd : Reachable g root d)
    (hrun : runOnce g root fuel .cleared d { world with ledger := {} } = .ok r) :
    (r.world.ledger.sent.filter P).Sublist ((env.received world.tick).bufs.filter P) ∧
      r.world.mem = env.memory world.tick := by
  obtain ⟨g', hg', hrouting, hwired⟩ := wired_tx bits env
  obtain ⟨rfl, rfl⟩ := Prod.mk.inj (Except.ok.inj (hg'.symm.trans hbuild))
  have hlane : g'.Lane 0 (fun w => w.ledger.sent) [1] [0] := by
    refine ⟨hrouting ▸ by decide, fun v node hnode hv => ?_, ?_⟩
    · obtain rfl := List.mem_singleton.mp (hwired.mem_rest hv hnode)
      exact (TxNode.tidy env).moves
    · refine forall_node hwired.nodes_eq ?_
      exact ⟨fun h => absurd rfl h, fun _ => TxNode.emits env fun h => h.2 rfl⟩
  obtain ⟨s, hfed, hmem, -, hledger, hsteps⟩ :=
    hwired.fed (RingRxNode.source env) hrouting (hwired.idle hd) hrun
  have hend : (Transit.done r.world).InLine (fun w => w.ledger.sent) [1] [0] P
        (env.received world.tick).bufs ∧ r.world.mem = env.memory world.tick := by
    refine hsteps.induct (I := fun s => s.InLine (fun w => w.ledger.sent) [1] [0] P
      (env.received world.tick).bufs ∧ s.world.mem = env.memory world.tick) ?_ ⟨⟨?_, ?_⟩, hmem⟩
    · intro s s' v hedge hstep ⟨hline, hmem⟩
      refine ⟨hlane.inLine_step (hwired.ne_root hedge) hstep hline, ?_⟩
      cases hstep with
      | @call node rest input hnode hpending hfull =>
        obtain rfl := List.mem_singleton.mp (hwired.mem_rest (hwired.ne_root hedge) hnode)
        exact hmem
    · simp [hfed 0]
    · simp [line, hledger, hfed 1]
  exact ⟨by simpa [line, Transit.done] using hend.1.sublist, hend.2⟩

end Runs

end Cerebellum
