import Cerebellum.Graph.ScratchFrames
import Cerebellum.Nodes.GraphNodes

/-!
# The graphs of the data plane

`main.cpp` builds four graphs: one for a single core that does everything, one each for the input
and the output of the IO core, and one for a worker. In each of them every run ends, and each packet
buffer that the root takes in is sent, enqueued or freed, once. It is left in no frame that is
pending or belongs to the pool. The frames in `scratch_` may still hold it, but no later run looks
at what they hold.

## Main definitions

* `Cerebellum.buildMonolithicGraph`, `Cerebellum.buildRxGraph`, `Cerebellum.buildWorkerGraph`,
  `Cerebellum.buildTxGraph`.
* `Cerebellum.DisposesOnce`: what becomes of the packet buffers of a run.
* `Cerebellum.CountsPackets`: how the counters go with it.

## Main results

* `Cerebellum.buffers_disposed_once`: this holds for the four graphs, and the counters of the
  single core agree with it.
* `Cerebellum.scratch_keeps_handle`: a run after which a sent buffer is still in `scratch_`.
-/

namespace Cerebellum

open Graph Dispatcher

variable {bits : ℕ} {Handle : Type}

section Build

variable [DecidableEq Handle] (bits) (env : Env Handle) (hash : FlowKey → UInt32) (cfg : Config)
  (cks : Checksums)

/-- `BuildMonolithicGraph`. -/
def buildMonolithicGraph : Except String (Graph (World bits Handle) Handle × NodeId) := do
  let (g, rx) := addNode .empty (RxNode.node env)
  let (g, parse) := g.addNode (Ip4ParseNode.node cfg)
  let (g, loadBalance) := g.addNode (LbNode.node env hash)
  let (g, dnat) := g.addNode (DnatNode.node cfg cks)
  let (g, ether) := g.addNode (EtherRewriteNode.node cfg)
  let (g, tx) := g.addNode (TxNode.node env)
  let (g, drop) := g.addNode DropNode.node
  let (g, arp) := g.addNode (ArpNode.node cfg)
  let g ← g.wire rx 0 parse
  let g ← g.wire parse 0 loadBalance
  let g ← g.wire parse 1 loadBalance
  let g ← g.wire parse 2 drop
  let g ← g.wire parse 3 arp
  let g ← g.wire arp 0 tx
  let g ← g.wire arp 1 drop
  let g ← g.wire loadBalance 0 dnat
  let g ← g.wire loadBalance 1 drop
  let g ← g.wire dnat 0 ether
  let g ← g.wire ether 0 tx
  .ok (g, rx)

/-- `BuildRxGraph`. -/
def buildRxGraph (nWorkers : ℕ) : Except String (Graph (World bits Handle) Handle × NodeId) := do
  let (g, rx) := addNode .empty (RxNode.node env)
  let (g, steer) := g.addNode (SteerNode.node env hash cfg nWorkers)
  let (g, arp) := g.addNode (ArpNode.node cfg)
  let (g, egress) := g.addNode (RingTxNode.node env .egress)
  let (g, drop) := g.addNode DropNode.node
  let g ← g.wire rx 0 steer
  let g ← g.wire steer 0 arp
  let g ← g.wire arp 0 egress
  let g ← g.wire arp 1 drop
  .ok (g, rx)

/-- `BuildWorkerGraph`. -/
def buildWorkerGraph : Except String (Graph (World bits Handle) Handle × NodeId) := do
  let (g, rx) := addNode .empty (RingRxNode.node env)
  let (g, parse) := g.addNode (Ip4ParseNode.node cfg)
  let (g, loadBalance) := g.addNode (LbNode.node env hash)
  let (g, dnat) := g.addNode (DnatNode.node cfg cks)
  let (g, ether) := g.addNode (EtherRewriteNode.node cfg)
  let (g, egress) := g.addNode (RingTxNode.node env .egress)
  let (g, drop) := g.addNode DropNode.node
  let g ← g.wire rx 0 parse
  let g ← g.wire parse 0 loadBalance
  let g ← g.wire parse 1 loadBalance
  let g ← g.wire parse 2 drop
  let g ← g.wire parse 3 drop
  let g ← g.wire loadBalance 0 dnat
  let g ← g.wire loadBalance 1 drop
  let g ← g.wire dnat 0 ether
  let g ← g.wire ether 0 egress
  .ok (g, rx)

/-- `BuildTxGraph`. -/
def buildTxGraph : Except String (Graph (World bits Handle) Handle × NodeId) := do
  let (g, rx) := addNode .empty (RingRxNode.node env)
  let (g, tx) := g.addNode (TxNode.node env)
  let g ← g.wire rx 0 tx
  .ok (g, rx)

end Build

/-! ### What the builders build -/

section Builds

variable {σ : Type} {nodes : List (Node σ Handle)} {routing rows : List (List NodeId)}

/-- The builder returns a graph with these nodes and wires, whose root is the first node. -/
def Builds (build : Except String (Graph σ Handle × NodeId)) (nodes : List (Node σ Handle))
    (routing : List (List NodeId)) : Prop :=
  ∃ g, build = .ok (g, 0) ∧ g.nodes = nodes ∧ g.routing = routing

/-- `Wire` succeeds, and the rest of the builder is given the new wires. -/
theorem Builds.wire {g : Graph σ Handle}
    {next : Graph σ Handle → Except String (Graph σ Handle × NodeId)} (v : NodeId) (out : ℕ)
    (dest : NodeId) (hnodes : g.nodes = nodes) (hrows : g.routing = rows)
    (hids : v.toNat < rows.length ∧ dest.toNat < rows.length ∧
      out < (rows.getD v.toNat []).length)
    (hnext : ∀ g' : Graph σ Handle, g'.nodes = nodes →
      g'.routing = rows.set v.toNat ((rows.getD v.toNat []).set out dest) →
        Builds (next g') nodes routing) :
    Builds (g.wire v out dest >>= next) nodes routing := by
  subst hrows
  obtain ⟨hv, hdest, hout⟩ := hids
  rw [g.length_routing] at hv hdest
  obtain ⟨g', hwire, hnodes', hrows'⟩ := wire_eq_ok hv hdest hout
  rw [hwire]
  exact hnext g' (hnodes'.trans hnodes) hrows'

/-- The wires after `AddNode`: none of the outputs leads anywhere. -/
def unwired (nexts : List ℕ) : List (List NodeId) :=
  nexts.map fun n => List.replicate n kInvalid

variable [DecidableEq Handle] (bits) (env : Env Handle) (hash : FlowKey → UInt32) (cfg : Config)
  (cks : Checksums)

theorem builds_monolithic : Builds (buildMonolithicGraph bits env hash cfg cks)
    [RxNode.node env, Ip4ParseNode.node cfg, LbNode.node env hash, DnatNode.node cfg cks,
      EtherRewriteNode.node cfg, TxNode.node env, DropNode.node, ArpNode.node cfg]
    [[1], [2, 2, 6, 7], [3, 6], [4], [5], [], [], [5, 6]] := by
  refine Builds.wire 0 0 1 rfl (rfl : _ = unwired [1, 4, 2, 1, 1, 0, 0, 2]) (by decide)
    fun g hg hrows => ?_
  refine Builds.wire 1 0 2 hg hrows (by decide) fun g hg hrows => ?_
  refine Builds.wire 1 1 2 hg hrows (by decide) fun g hg hrows => ?_
  refine Builds.wire 1 2 6 hg hrows (by decide) fun g hg hrows => ?_
  refine Builds.wire 1 3 7 hg hrows (by decide) fun g hg hrows => ?_
  refine Builds.wire 7 0 5 hg hrows (by decide) fun g hg hrows => ?_
  refine Builds.wire 7 1 6 hg hrows (by decide) fun g hg hrows => ?_
  refine Builds.wire 2 0 3 hg hrows (by decide) fun g hg hrows => ?_
  refine Builds.wire 2 1 6 hg hrows (by decide) fun g hg hrows => ?_
  refine Builds.wire 3 0 4 hg hrows (by decide) fun g hg hrows => ?_
  refine Builds.wire 4 0 5 hg hrows (by decide) fun g hg hrows => ?_
  exact ⟨g, rfl, hg, hrows.trans (by decide)⟩

theorem builds_rx (nWorkers : ℕ) : Builds (buildRxGraph bits env hash cfg nWorkers)
    [RxNode.node env, SteerNode.node env hash cfg nWorkers, ArpNode.node cfg,
      RingTxNode.node env .egress, DropNode.node]
    [[1], [2], [3, 4], [], []] := by
  refine Builds.wire 0 0 1 rfl (rfl : _ = unwired [1, 1, 2, 0, 0]) (by decide) fun g hg hrows => ?_
  refine Builds.wire 1 0 2 hg hrows (by decide) fun g hg hrows => ?_
  refine Builds.wire 2 0 3 hg hrows (by decide) fun g hg hrows => ?_
  refine Builds.wire 2 1 4 hg hrows (by decide) fun g hg hrows => ?_
  exact ⟨g, rfl, hg, hrows.trans (by decide)⟩

theorem builds_worker : Builds (buildWorkerGraph bits env hash cfg cks)
    [RingRxNode.node env, Ip4ParseNode.node cfg, LbNode.node env hash, DnatNode.node cfg cks,
      EtherRewriteNode.node cfg, RingTxNode.node env .egress, DropNode.node]
    [[1], [2, 2, 6, 6], [3, 6], [4], [5], [], []] := by
  refine Builds.wire 0 0 1 rfl (rfl : _ = unwired [1, 4, 2, 1, 1, 0, 0]) (by decide)
    fun g hg hrows => ?_
  refine Builds.wire 1 0 2 hg hrows (by decide) fun g hg hrows => ?_
  refine Builds.wire 1 1 2 hg hrows (by decide) fun g hg hrows => ?_
  refine Builds.wire 1 2 6 hg hrows (by decide) fun g hg hrows => ?_
  refine Builds.wire 1 3 6 hg hrows (by decide) fun g hg hrows => ?_
  refine Builds.wire 2 0 3 hg hrows (by decide) fun g hg hrows => ?_
  refine Builds.wire 2 1 6 hg hrows (by decide) fun g hg hrows => ?_
  refine Builds.wire 3 0 4 hg hrows (by decide) fun g hg hrows => ?_
  refine Builds.wire 4 0 5 hg hrows (by decide) fun g hg hrows => ?_
  exact ⟨g, rfl, hg, hrows.trans (by decide)⟩

omit [DecidableEq Handle] in
theorem builds_tx : Builds (buildTxGraph bits env) [RingRxNode.node env, TxNode.node env]
    [[1], []] := by
  refine Builds.wire 0 0 1 rfl (rfl : _ = unwired [1, 0]) (by decide) fun g hg hrows => ?_
  exact ⟨g, rfl, hg, hrows.trans (by decide)⟩

end Builds

/-! ### What becomes of the packet buffers -/

/-- The packet buffers received by the run are those of one receive call; each was sent, enqueued or
freed, once, and no frame that is pending or belongs to the pool holds one. A frame in `scratch_` is
as it was before the run, or holds buffers that the run has disposed of. -/
structure Disposed (env : Env Handle) (world : World bits Handle) (d : Dispatcher Handle)
    (r : Run (World bits Handle) Handle) : Prop where
  taken_eq : r.world.ledger.taken = (env.received world.tick).bufs
  perm : (r.world.ledger.sent ++ r.world.ledger.enqueued.map Prod.snd ++ r.world.ledger.freed ++
    r.world.ledger.dropFreed).Perm r.world.ledger.taken
  pending_eq : ∀ v, r.disp.pending v = []
  storage_eq : ∀ f < r.disp.pool.allocated, r.disp.pool.storage f = .cleared
  scratch : ∀ out, r.disp.scratch out = d.scratch out ∨
    ∀ handle ∈ (r.disp.scratch out).bufs, handle ∈ r.world.ledger.disposed

/-- In any state of the nodes and with any answers of the world outside, `RunOnce` returns and has
disposed of every packet buffer that it received; and what `scratch_` held when it began makes no
difference, except to what `scratch_` holds afterwards. -/
def DisposesOnce (env : Env Handle)
    (build : Except String (Graph (World bits Handle) Handle × NodeId)) : Prop :=
  ∃ g root, build = .ok (g, root) ∧ ∀ d, Reachable g root d → ∀ world : World bits Handle,
    (∃ fuel r, runOnce g root fuel .cleared d { world with ledger := {} } = .ok r) ∧
      ∀ fuel r, runOnce g root fuel .cleared d { world with ledger := {} } = .ok r →
        Disposed env world d r ∧ ∀ scratch, ∃ scratch',
          runOnce g root fuel .cleared (d.withScratch scratch) { world with ledger := {} } =
            .ok (r.withScratch scratch')

/-- The node takes in what the receive call returns and pushes it on its outputs. -/
def Graph.Node.Receives (env : Env Handle) (node : Node (World bits Handle) Handle) : Prop :=
  ∀ world input, (node.process world input).1.ledger =
      { world.ledger with taken := world.ledger.taken ++ (env.received world.tick).bufs } ∧
    ∑ out, (((node.process world input).2 out).bufs : Multiset Handle) =
      (env.received world.tick).bufs

theorem RxNode.receives (env : Env Handle) :
    (RxNode.node env : Node (World bits Handle) Handle).Receives env := by
  intro world input
  constructor
  · exact congrArg Prod.fst (accounts_moveFrame (fun _ _ => rfl) _ (env.received world.tick))
  · exact sum_moveFrame (fun _ _ => Option.some_ne_none _) _ (env.received world.tick)

theorem RingRxNode.receives (env : Env Handle) :
    (RingRxNode.node env : Node (World bits Handle) Handle).Receives env := by
  intro world input
  constructor
  · exact congrArg Prod.fst (accounts_moveFrame (fun _ _ => rfl) _ (env.received world.tick))
  · exact sum_moveFrame (fun _ _ => Option.some_ne_none _) _ (env.received world.tick)

/-! ### The counters -/

/-- The counters have grown by what is in the ledger since `world`, and nothing was enqueued. -/
structure World.Follows (world' world : World bits Handle) : Prop where
  rxPackets_eq : world'.rxPackets = world.rxPackets + world'.ledger.taken.length
  txPackets_eq : world'.txPackets = world.txPackets + world'.ledger.sent.length
  dropped_eq : world'.dropped = world.dropped + world'.ledger.freed.length
  enqueued_eq : world'.ledger.enqueued = []

/-- In any state of the nodes and with any answers of the world outside, what `RunOnce` adds to
`rx_packets` is what it adds to `tx_packets` and `dropped` and what `DropNode` frees. -/
def CountsPackets (build : Except String (Graph (World bits Handle) Handle × NodeId)) : Prop :=
  ∃ g root, build = .ok (g, root) ∧ ∀ d, Reachable g root d → ∀ world : World bits Handle,
    ∀ fuel r, runOnce g root fuel .cleared d { world with ledger := {} } = .ok r →
      ∃ rx tx dropped, r.world.rxPackets = world.rxPackets + rx ∧
        r.world.txPackets = world.txPackets + tx ∧ r.world.dropped = world.dropped + dropped ∧
        rx = tx + dropped + r.world.ledger.dropFreed.length

/-- The node keeps the counters in step with the ledger. -/
def Graph.Node.Counts (node : Node (World bits Handle) Handle) : Prop :=
  ∀ base world input, World.Follows world base → World.Follows (node.process world input).1 base

/-- Nodes that only pass handles on. -/
theorem Graph.Node.Passes.counts {node : Node (World bits Handle) Handle} (h : node.Passes) :
    node.Counts := by
  intro base world input hworld
  have haccounts := h.accounts_eq world input
  simp only [World.accounts, Prod.mk.injEq] at haccounts
  obtain ⟨hledger, hrx, htx, hdropped⟩ := haccounts
  constructor
  · rw [hrx, hledger, hworld.rxPackets_eq]
  · rw [htx, hledger, hworld.txPackets_eq]
  · rw [hdropped, hledger, hworld.dropped_eq]
  · rw [hledger, hworld.enqueued_eq]

theorem RxNode.counts (env : Env Handle) :
    (RxNode.node env : Node (World bits Handle) Handle).Counts := by
  intro base world input hworld
  have hburst : World.Follows { (world.receive env).1 with
      rxPackets := world.rxPackets + (env.received world.tick).bufs.length } base := by
    refine ⟨?_, hworld.txPackets_eq, hworld.dropped_eq, hworld.enqueued_eq⟩
    simp only [World.receive, hworld.rxPackets_eq, List.length_append, Nat.add_assoc]
  exact moveFrame_preserves (f := fun world _ => (world, some (0 : Fin 1)))
    (I := fun w => World.Follows w base) (fun _ _ h => h) hburst (env.received world.tick)

theorem TxNode.counts (env : Env Handle) :
    (TxNode.node env : Node (World bits Handle) Handle).Counts := by
  intro base world input hworld
  refine ⟨hworld.rxPackets_eq, ?_, ?_, hworld.enqueued_eq⟩
  · simp [TxNode.node, hworld.txPackets_eq, Nat.add_assoc]
  · simp [TxNode.node, hworld.dropped_eq, Nat.add_assoc]

theorem DropNode.counts : (DropNode.node : Node (World bits Handle) Handle).Counts :=
  fun _ _ _ hworld =>
    ⟨hworld.rxPackets_eq, hworld.txPackets_eq, hworld.dropped_eq, hworld.enqueued_eq⟩

/-! ### Runs -/

variable {env : Env Handle} {g : Graph (World bits Handle) Handle}
  {source : Node (World bits Handle) Handle} {rest : List (Node (World bits Handle) Handle)}
  {ranks : List ℕ}

/-- What `main.cpp` relies on: the first node receives, the others settle what they are given, and
every output leads on. -/
structure Graph.Wired (env : Env Handle) (g : Graph (World bits Handle) Handle)
    (source : Node (World bits Handle) Handle) (rest : List (Node (World bits Handle) Handle))
    (ranks : List ℕ) : Prop where
  nodes_eq : g.nodes = source :: rest
  receives : source.Receives env
  settles : ∀ node ∈ rest, node.Settles
  wired : WiredUpward g.routing ranks
  rank_root : ranks.getD 0 0 = 0
  length_lt : g.routing.length < 2 ^ 16

namespace Graph.Wired

/-- A node other than the root is one of the rest. -/
theorem mem_rest (h : g.Wired env source rest ranks) {v : NodeId}
    {node : Node (World bits Handle) Handle} (hv : v ≠ 0)
    (hnode : g.nodes[v.toNat]? = some node) : node ∈ rest := by
  rw [h.nodes_eq] at hnode
  cases hv' : v.toNat with
  | zero => exact absurd (UInt16.toNat_inj.mp hv') hv
  | succ n =>
    rw [hv', List.getElem?_cons_succ] at hnode
    exact List.mem_of_getElem? hnode

theorem not_edge_root (h : g.Wired env source rest ranks) (u : NodeId) (out : ℕ) :
    ¬ g.Edge u out 0 := by
  intro hedge
  have hlt : ranks.getD u.toNat 0 < ranks.getD 0 0 := h.wired.ranked u out 0 hedge
  rw [h.rank_root] at hlt
  exact absurd hlt (Nat.not_lt_zero _)

theorem ne_root (h : g.Wired env source rest ranks) {v : NodeId}
    (hedge : ∃ u out, g.Edge u out v) : v ≠ 0 := by
  rintro rfl
  obtain ⟨u, out, hedge⟩ := hedge
  exact h.not_edge_root u out hedge

/-- Every call accounts for its handles, those at the root if it is called with an empty frame. -/
theorem conserves (h : g.Wired env source rest ranks) (v : NodeId)
    (node : Node (World bits Handle) Handle) (hnode : g.nodes[v.toNat]? = some node)
    (world : World bits Handle) (input : Graph.Frame Handle) (hinput : v = 0 → input.bufs = []) :
    node.Conserves (fun w => w.ledger.taken) (fun w => w.ledger.disposed) world input := by
  simp only [Node.Conserves]
  by_cases hv : v = 0
  · subst hv
    obtain rfl : node = source := by
      rw [h.nodes_eq] at hnode
      exact (Option.some.inj hnode).symm
    obtain ⟨hledger, hsum⟩ := h.receives world input
    rw [hledger, hsum, hinput rfl, ← Multiset.coe_add]
    simp only [Ledger.disposed, Multiset.coe_nil]
    abel
  · have hsettles := h.settles node (h.mem_rest hv hnode)
    rw [hsettles.taken_eq, hsettles.disposed_eq]

theorem root_lt (h : g.Wired env source rest ranks) : (0 : NodeId).toNat < g.nodes.length := by
  rw [h.nodes_eq]
  exact Nat.succ_pos _

theorem acyclicFrom (h : g.Wired env source rest ranks) :
    g.nodes.length ≤ 65535 ∧ g.AcyclicFrom 0 :=
  ⟨g.length_routing ▸ Nat.le_of_lt_succ h.length_lt, h.wired.ranked.acyclicFrom⟩

theorem idle (h : g.Wired env source rest ranks) {d : Dispatcher Handle} (hd : Reachable g 0 d) :
    d.Idle g := by
  refine hd.idle ?_ h.root_lt
  rw [← g.length_routing]
  exact h.length_lt

/-- A run calls the root, then other nodes, and disposes of what it took in. -/
theorem runOnce (h : g.Wired env source rest ranks) {d : Dispatcher Handle}
    (hd : Reachable g 0 d) {world : World bits Handle} {fuel : ℕ}
    {r : Run (World bits Handle) Handle}
    (hrun : Dispatcher.runOnce g 0 fuel .cleared d { world with ledger := {} } = .ok r) :
    r.disp.Idle g ∧ r.world.ledger.disposed = r.world.ledger.taken ∧
      ∃ log input, Trace g (source.process { world with ledger := {} } input).1 log r.world ∧
        ∀ c ∈ log, c.node ≠ 0 := by
  obtain ⟨hidle, hsum, -, node, log, input, hnode, -, htrace, hlog⟩ :=
    (h.idle hd).runOnce_conserves h.root_lt h.wired.fullyWired h.not_edge_root h.conserves hrun
  obtain rfl : node = source := by
    rw [h.nodes_eq] at hnode
    exact (Option.some.inj hnode).symm
  refine ⟨hidle, ?_, log, input, htrace, hlog⟩
  simpa [Ledger.disposed] using hsum

/-- A run takes in what the call at the root receives. -/
theorem taken_eq (h : g.Wired env source rest ranks) {log : List (Call Handle)}
    {world world' : World bits Handle} {input : Graph.Frame Handle}
    (htrace : Trace g (source.process { world with ledger := {} } input).1 log world')
    (hlog : ∀ c ∈ log, c.node ≠ 0) : world'.ledger.taken = (env.received world.tick).bufs := by
  obtain ⟨hledger, -⟩ := h.receives { world with ledger := {} } input
  refine htrace.preserves (I := fun w => w.ledger.taken = (env.received world.tick).bufs)
    (Q := fun v => v ≠ 0) ?_ hlog ?_
  · intro v node hnode hv w input' hw
    exact ((h.settles node (h.mem_rest hv hnode)).taken_eq w input').trans hw
  · rw [hledger]
    rfl

/-- What a run leaves in `scratch_` it has disposed of. -/
theorem scratch (h : g.Wired env source rest ranks) {d : Dispatcher Handle}
    (hd : Reachable g 0 d) {world : World bits Handle} {fuel : ℕ}
    {r : Run (World bits Handle) Handle}
    (hrun : Dispatcher.runOnce g 0 fuel .cleared d { world with ledger := {} } = .ok r) (out : ℕ) :
    r.disp.scratch out = d.scratch out ∨
      ∀ handle ∈ (r.disp.scratch out).bufs, handle ∈ r.world.ledger.disposed := by
  refine (pushedBy_runOnce hrun out).imp_right ?_
  rintro ⟨c, hc, hbufs⟩ handle hmem
  obtain ⟨-, hdisposed, -⟩ := h.runOnce hd hrun
  obtain ⟨-, -, hreceived, node, rest', input', hnode, hcons, htrace', hrest⟩ :=
    (h.idle hd).runOnce_conserves h.root_lt h.wired.fullyWired h.not_edge_root h.conserves hrun
  obtain rfl : node = source := by
    rw [h.nodes_eq] at hnode
    exact (Option.some.inj hnode).symm
  rw [hdisposed, h.taken_eq htrace' hrest]
  rw [hbufs] at hmem
  refine Graph.mem_source_of_mem_outs h.wired.ranked (fun v (_ : v ≠ 0) => hreceived v)
    (fun c' hc' hroot out' handle' hmem' => ?_) (fun c' hc' hroot out' handle' hmem' => ?_) hc hmem
  · rw [hcons] at hc'
    rcases List.mem_cons.mp hc' with rfl | hc'
    · refine Node.outs_subset (fun out handle hmem => ?_) 0 out' hmem'
      rw [← Multiset.mem_coe, ← (h.receives { world with ledger := {} } input').2]
      exact Multiset.mem_sum.mpr ⟨out, Finset.mem_univ out, hmem⟩
    · exact absurd hroot (hrest c' hc')
  · rw [hcons] at hc'
    rcases List.mem_cons.mp hc' with rfl | hc'
    · exact absurd rfl hroot
    · obtain ⟨node', world', input'', hnode', heq⟩ := htrace'.exists_call hc'
      have hsubset := (h.settles node' (h.mem_rest hroot hnode')).subset world' input''
      rw [heq] at hmem' ⊢
      exact Node.outs_subset hsubset c'.node out' hmem'

/-- A run ends and disposes of what it received. -/
theorem disposed (h : g.Wired env source rest ranks) {d : Dispatcher Handle}
    (hd : Reachable g 0 d) {world : World bits Handle} {fuel : ℕ}
    {r : Run (World bits Handle) Handle}
    (hrun : Dispatcher.runOnce g 0 fuel .cleared d { world with ledger := {} } = .ok r) :
    Disposed env world d r := by
  obtain ⟨hidle, hdisposed, log, input, htrace, hlog⟩ := h.runOnce hd hrun
  have hperm : (r.world.ledger.sent ++ r.world.ledger.enqueued.map Prod.snd ++
      r.world.ledger.freed ++ r.world.ledger.dropFreed).Perm r.world.ledger.taken := by
    simpa only [Ledger.disposed, Multiset.coe_add, Multiset.coe_eq_coe] using hdisposed
  exact ⟨h.taken_eq htrace hlog, hperm, hidle.pending_eq, fun f => hidle.storage_eq,
    h.scratch hd hrun⟩

/-- The counters follow the ledger in a run if they do so in every call. -/
theorem follows (h : g.Wired env source rest ranks)
    (hcounts : ∀ node ∈ source :: rest, node.Counts) {d : Dispatcher Handle}
    (hd : Reachable g 0 d) {world : World bits Handle} {fuel : ℕ}
    {r : Run (World bits Handle) Handle}
    (hrun : Dispatcher.runOnce g 0 fuel .cleared d { world with ledger := {} } = .ok r) :
    r.world.Follows world := by
  obtain ⟨-, -, log, input, htrace, hlog⟩ := h.runOnce hd hrun
  refine htrace.preserves (I := fun w => w.Follows world) (Q := fun v => v ≠ 0) ?_ hlog ?_
  · intro v node hnode hv w input' hw
    exact hcounts node (List.mem_cons_of_mem _ (h.mem_rest hv hnode)) world w input' hw
  · exact hcounts source List.mem_cons_self world _ input ⟨rfl, rfl, rfl, rfl⟩

variable {build : Except String (Graph (World bits Handle) Handle × NodeId)}

theorem disposesOnce (h : g.Wired env source rest ranks) (hbuild : build = .ok (g, 0)) :
    DisposesOnce env build := by
  refine ⟨g, 0, hbuild, fun d hd world => ⟨?_, fun fuel r hrun => ?_⟩⟩
  · exact (h.idle hd).runOnce_ends h.root_lt h.wired.ranked _ _
  · exact ⟨h.disposed hd hrun, runOnce_withScratch hrun⟩

/-- The counters agree with what was disposed of, as nothing is enqueued. -/
theorem countsPackets (h : g.Wired env source rest ranks) (hbuild : build = .ok (g, 0))
    (hcounts : (source :: rest).Forall Node.Counts) : CountsPackets build := by
  refine ⟨g, 0, hbuild, fun d hd world fuel r hrun => ?_⟩
  obtain ⟨hrx, htx, hdropped, henqueued⟩ :=
    h.follows (List.forall_iff_forall_mem.mp hcounts) hd hrun
  refine ⟨_, _, _, hrx, htx, hdropped, ?_⟩
  have hlength := (h.disposed hd hrun).perm.length_eq
  simp only [henqueued, List.map_nil, List.append_nil, List.length_append] at hlength
  exact hlength.symm

end Graph.Wired

theorem Builds.wired {build : Except String (Graph (World bits Handle) Handle × NodeId)}
    {routing : List (List NodeId)} (h : Builds build (source :: rest) routing)
    (hsource : source.Receives env) (hrest : rest.Forall Node.Settles)
    (hwired : WiredUpward routing ranks) (hroot : ranks.getD 0 0 = 0)
    (hlength : routing.length < 2 ^ 16) :
    ∃ g, build = .ok (g, 0) ∧ g.routing = routing ∧ g.Wired env source rest ranks := by
  obtain ⟨g, hbuild, hnodes, rfl⟩ := h
  exact ⟨g, hbuild, rfl, hnodes, hsource, List.forall_iff_forall_mem.mp hrest, hwired, hroot,
    hlength⟩

section Main

variable [DecidableEq Handle] (bits) (env : Env Handle) (hash : FlowKey → UInt32) (cfg : Config)
  (cks : Checksums)

theorem wired_monolithic : ∃ g, buildMonolithicGraph bits env hash cfg cks = .ok (g, 0) ∧
    g.routing = [[1], [2, 2, 6, 7], [3, 6], [4], [5], [], [], [5, 6]] ∧
    g.Wired env (RxNode.node env) [Ip4ParseNode.node cfg, LbNode.node env hash,
      DnatNode.node cfg cks, EtherRewriteNode.node cfg, TxNode.node env, DropNode.node,
      ArpNode.node cfg] [0, 1, 3, 4, 5, 6, 6, 2] :=
  (builds_monolithic bits env hash cfg cks).wired (RxNode.receives env)
    ⟨(Ip4ParseNode.passes cfg).settles, (LbNode.passes env hash).settles,
      (DnatNode.passes cfg cks).settles, (EtherRewriteNode.passes cfg).settles, TxNode.settles env,
      DropNode.settles, (ArpNode.passes cfg).settles⟩
    (by decide) rfl (by decide)

theorem wired_rx (nWorkers : ℕ) : ∃ g, buildRxGraph bits env hash cfg nWorkers = .ok (g, 0) ∧
    g.routing = [[1], [2], [3, 4], [], []] ∧
    g.Wired env (RxNode.node env) [SteerNode.node env hash cfg nWorkers, ArpNode.node cfg,
      RingTxNode.node env .egress, DropNode.node] [0, 1, 2, 3, 3] :=
  (builds_rx bits env hash cfg nWorkers).wired (RxNode.receives env)
    ⟨SteerNode.settles env hash cfg nWorkers, (ArpNode.passes cfg).settles,
      RingTxNode.settles env _, DropNode.settles⟩
    (by decide) rfl (by decide)

theorem wired_worker : ∃ g, buildWorkerGraph bits env hash cfg cks = .ok (g, 0) ∧
    g.routing = [[1], [2, 2, 6, 6], [3, 6], [4], [5], [], []] ∧
    g.Wired env (RingRxNode.node env) [Ip4ParseNode.node cfg, LbNode.node env hash,
      DnatNode.node cfg cks, EtherRewriteNode.node cfg, RingTxNode.node env .egress,
      DropNode.node] [0, 1, 2, 3, 4, 5, 5] :=
  (builds_worker bits env hash cfg cks).wired (RingRxNode.receives env)
    ⟨(Ip4ParseNode.passes cfg).settles, (LbNode.passes env hash).settles,
      (DnatNode.passes cfg cks).settles, (EtherRewriteNode.passes cfg).settles,
      RingTxNode.settles env _, DropNode.settles⟩
    (by decide) rfl (by decide)

omit [DecidableEq Handle] in
theorem wired_tx : ∃ g, buildTxGraph bits env = .ok (g, 0) ∧ g.routing = [[1], []] ∧
    g.Wired env (RingRxNode.node env) [TxNode.node env] [0, 1] :=
  (builds_tx bits env).wired (RingRxNode.receives env) (TxNode.settles env) (by decide) rfl
    (by decide)

/-- In none of the four graphs a cycle can be reached from the root. -/
theorem main_acyclicFrom (nWorkers : ℕ) :
    ∀ build ∈ [buildMonolithicGraph bits env hash cfg cks, buildRxGraph bits env hash cfg nWorkers,
        buildWorkerGraph bits env hash cfg cks, buildTxGraph bits env],
      ∃ g, build = .ok (g, 0) ∧ g.nodes.length ≤ 65535 ∧ g.AcyclicFrom 0 := by
  obtain ⟨mono, hmono, -, hmono'⟩ := wired_monolithic bits env hash cfg cks
  obtain ⟨rx, hrx, -, hrx'⟩ := wired_rx bits env hash cfg nWorkers
  obtain ⟨worker, hworker, -, hworker'⟩ := wired_worker bits env hash cfg cks
  obtain ⟨tx, htx, -, htx'⟩ := wired_tx bits env
  simp only [List.forall_mem_cons]
  exact ⟨⟨mono, hmono, hmono'.acyclicFrom⟩, ⟨rx, hrx, hrx'.acyclicFrom⟩,
    ⟨worker, hworker, hworker'.acyclicFrom⟩, ⟨tx, htx, htx'.acyclicFrom⟩, by simp⟩

/-- In each of the four graphs a run ends, and each packet buffer that it received is sent, enqueued
or freed, once, and left at most in a frame of `scratch_`, which no later run looks at; on a single
core the counters agree with this. -/
theorem buffers_disposed_once (nWorkers : ℕ) :
    DisposesOnce env (buildMonolithicGraph bits env hash cfg cks) ∧
      DisposesOnce env (buildRxGraph bits env hash cfg nWorkers) ∧
      DisposesOnce env (buildWorkerGraph bits env hash cfg cks) ∧
      DisposesOnce env (buildTxGraph bits env) ∧
      CountsPackets (buildMonolithicGraph bits env hash cfg cks) := by
  obtain ⟨mono, hmono, -, hmono'⟩ := wired_monolithic bits env hash cfg cks
  obtain ⟨rx, hrx, -, hrx'⟩ := wired_rx bits env hash cfg nWorkers
  obtain ⟨worker, hworker, -, hworker'⟩ := wired_worker bits env hash cfg cks
  obtain ⟨tx, htx, -, htx'⟩ := wired_tx bits env
  refine ⟨hmono'.disposesOnce hmono, hrx'.disposesOnce hrx, hworker'.disposesOnce hworker,
    htx'.disposesOnce htx, hmono'.countsPackets hmono ?_⟩
  exact ⟨RxNode.counts env, (Ip4ParseNode.passes cfg).counts, (LbNode.passes env hash).counts,
    (DnatNode.passes cfg cks).counts, (EtherRewriteNode.passes cfg).counts, TxNode.counts env,
    DropNode.counts, (ArpNode.passes cfg).counts⟩

end Main

/-- The device of the output side takes the only buffer of the burst. -/
def oneSent : Env ℕ where
  received _ := ⟨[7], Nat.le_of_ble_eq_true rfl⟩
  memory _ _ := { frame := fun _ => 0 }
  accepted _ := 1
  pool _ := none
  nowMs _ := 0

/-- A run after which a buffer that was sent is still in a frame of `scratch_`. -/
theorem scratch_keeps_handle :
    ∃ g, buildTxGraph 0 oneSent = .ok (g, 0) ∧ ∃ r,
      runOnce g 0 2 .cleared (Dispatcher.init g)
          { mem := fun _ => { frame := fun _ => 0 }, lb := .init 0 30000 0 1 } = .ok r ∧
        r.world.ledger.sent = [7] ∧ (r.disp.scratch 0).bufs = [7] :=
  ⟨_, rfl, _, rfl, rfl, rfl⟩

end Cerebellum
