import Cerebellum.Graph.Lanes
import Cerebellum.Nodes.MainGraphs

/-!
# Order and memory at the nodes

What the nodes of the graphs do to the order of their handles and to the packet buffers. Every node
apart from the receiving ones pushes parts of its input, in order, writes no buffer that is not in
its input, and sends or enqueues a part of its input, in order.

`Ip4ParseNode` and `SteerNode` decide by the frame alone where a packet goes, and for TCP and UDP
over IPv4 by its 5-tuple alone, so that packets with the same 5-tuple take the same way.

## Main definitions

* `Cerebellum.Frame.fiveTuple`: the addresses, ports and protocol of a TCP or UDP frame.
* `Cerebellum.Graph.Node.Tidy`: the node moves its input and writes no other buffer.

## Main results

* `Cerebellum.moveEach_eq_filter`: the outputs of a node that decides by the handle alone.
* `Cerebellum.Ip4ParseNode.classify_of_fiveTuple`, `Cerebellum.classifyForSteer_of_fiveTuple`.
* `Cerebellum.SteerNode.moveEach_steer`: what steering a frame of handles does.
-/

namespace Cerebellum

open Graph

variable {bits : ℕ} {σ Handle : Type}

/-! ### The common loop -/

/-- If what is done with a handle depends on the handle alone, as long as `I` holds, an output gets
the handles for which it is chosen. -/
theorem moveEach_eq_filter {n : ℕ} {f : σ → Handle → σ × Option (Fin n)} (I : σ → Prop)
    (next : Handle → Option (Fin n))
    (hf : ∀ world handle, I world → I (f world handle).1 ∧ (f world handle).2 = next handle)
    {world : σ} (h : I world) (bufs : List Handle) (out : Fin n) :
    (moveEach f world bufs).2 out = bufs.filter fun handle => next handle = some out := by
  induction bufs generalizing world with
  | nil => rfl
  | cons handle bufs ih =>
    obtain ⟨hI, hnext⟩ := hf world handle h
    rw [moveEach, List.filter_cons]
    simp only [hnext, ih hI, decide_eq_true_eq]

/-- One packet after the other is handled, and no other buffer is written. -/
theorem mem_moveEach {n : ℕ} {f : World bits Handle → Handle → World bits Handle × Option (Fin n)}
    (hf : ∀ world handle, ∀ other ≠ handle, (f world handle).1.mem other = world.mem other)
    (world : World bits Handle) {bufs : List Handle} {handle : Handle} (h : handle ∉ bufs) :
    (moveEach f world bufs).1.mem handle = world.mem handle := by
  induction bufs generalizing world with
  | nil => rfl
  | cons first bufs ih =>
    rw [List.mem_cons, not_or] at h
    exact (ih (f world first).1 h.2).trans (hf world first handle h.1)

/-- The node pushes parts of its input, in order, and writes no other buffer. -/
structure Graph.Node.Tidy (node : Node (World bits Handle) Handle) : Prop where
  moves : node.Moves
  mem_eq : ∀ world input, ∀ handle ∉ input.bufs,
    (node.process world input).1.mem handle = world.mem handle

/-- Nodes without outputs that write no buffer. -/
theorem Graph.Node.tidy_of_sink {node : Node (World bits Handle) Handle}
    (hnext : node.nextCount = 0)
    (h : ∀ world input, (node.process world input).1.mem = world.mem) : node.Tidy where
  moves _ _ out := (hnext ▸ out : Fin 0).elim0
  mem_eq world input _ _ := by rw [h]

theorem TxNode.tidy (env : Env Handle) :
    (TxNode.node env : Node (World bits Handle) Handle).Tidy :=
  Node.tidy_of_sink rfl fun _ _ => rfl

theorem RingTxNode.tidy (env : Env Handle) (ring : Ring) :
    (RingTxNode.node env ring : Node (World bits Handle) Handle).Tidy :=
  Node.tidy_of_sink rfl fun _ _ => rfl

theorem DropNode.tidy : (DropNode.node : Node (World bits Handle) Handle).Tidy :=
  Node.tidy_of_sink rfl fun _ _ => rfl

section Tidy

variable [DecidableEq Handle] (env : Env Handle) (hash : FlowKey → UInt32) (cfg : Config)
  (cks : Checksums)

theorem World.mem_setMbuf_self (world : World bits Handle) (handle : Handle) (mbuf : Mbuf) :
    (world.setMbuf handle mbuf).mem handle = mbuf :=
  Function.update_self _ _ _

theorem World.mem_setMbuf (world : World bits Handle) {handle other : Handle} (h : other ≠ handle)
    (mbuf : Mbuf) : (world.setMbuf handle mbuf).mem other = world.mem other :=
  Function.update_of_ne h _ _

theorem Ip4ParseNode.tidy : (Ip4ParseNode.node cfg : Node (World bits Handle) Handle).Tidy where
  moves world input := moveEach_sublist _ world input.bufs
  mem_eq world _ _ := mem_moveEach (fun world _ _ h => world.mem_setMbuf h _) world

theorem DnatNode.tidy : (DnatNode.node cfg cks : Node (World bits Handle) Handle).Tidy where
  moves world input := moveEach_sublist _ world input.bufs
  mem_eq world _ _ := mem_moveEach (fun world _ _ h => world.mem_setMbuf h _) world

theorem EtherRewriteNode.tidy :
    (EtherRewriteNode.node cfg : Node (World bits Handle) Handle).Tidy where
  moves world input := moveEach_sublist _ world input.bufs
  mem_eq world _ _ := mem_moveEach (fun world _ _ h => world.mem_setMbuf h _) world

theorem ArpNode.tidy : (ArpNode.node cfg : Node (World bits Handle) Handle).Tidy where
  moves world input := moveEach_sublist _ world input.bufs
  mem_eq world _ _ := by
    refine mem_moveEach (fun world handle other h => ?_) world
    cases ArpNode.buildReply cfg (world.mem handle).frame with
    | none => rfl
    | some frame => exact world.mem_setMbuf h _

theorem LbNode.tidy : (LbNode.node env hash : Node (World bits Handle) Handle).Tidy where
  moves world input := by
    simp only [LbNode.node]
    cases (env.pool world.tick).filter fun pool => pool.activeCount ≠ 0 with
    | none => exact moveEach_sublist _ _ input.bufs
    | some pool => exact moveEach_sublist _ world input.bufs
  mem_eq world input _ := by
    simp only [LbNode.node]
    cases (env.pool world.tick).filter fun pool => pool.activeCount ≠ 0 with
    | none => exact mem_moveEach (fun _ _ _ _ => rfl) _
    | some pool => exact mem_moveEach (fun world _ _ h => world.mem_setMbuf h _) world

end Tidy

section Steer

variable (env : Env Handle) (hash : FlowKey → UInt32) (cfg : Config) (nWorkers : ℕ)

/-- Steering a packet writes no buffer, and what it enqueues is the packet, on the ring of its
worker. -/
theorem SteerNode.steer_cases (world : World bits Handle) (handle : Handle) :
    (SteerNode.steer env hash cfg nWorkers world handle).1.mem = world.mem ∧
      ((SteerNode.steer env hash cfg nWorkers world handle).2 = some 0 →
        classifyForSteer hash cfg nWorkers (world.mem handle).frame = .arp) ∧
      ((SteerNode.steer env hash cfg nWorkers world handle).1.ledger.enqueued =
          world.ledger.enqueued ∨
        ∃ w, classifyForSteer hash cfg nWorkers (world.mem handle).frame = .steer w ∧
          (SteerNode.steer env hash cfg nWorkers world handle).1.ledger.enqueued =
            world.ledger.enqueued ++ [(.worker w, handle)]) := by
  unfold SteerNode.steer
  split
  · next harp => exact ⟨rfl, fun _ => harp, .inl rfl⟩
  · next w hsteer =>
    split_ifs
    · exact ⟨rfl, nofun, .inl rfl⟩
    · exact ⟨rfl, nofun, .inr ⟨w, hsteer, rfl⟩⟩
  · exact ⟨rfl, nofun, .inl rfl⟩

/-- Steering a frame of packets writes no buffer, moves only ARP packets, and enqueues some of the
others in order, each on the ring of its worker. -/
theorem SteerNode.moveEach_steer (world : World bits Handle) (bufs : List Handle) :
    (moveEach (SteerNode.steer env hash cfg nWorkers) world bufs).1.mem = world.mem ∧
      (∀ handle ∈ (moveEach (SteerNode.steer env hash cfg nWorkers) world bufs).2 0,
        classifyForSteer hash cfg nWorkers (world.mem handle).frame = .arp) ∧
      ∃ new : List (Ring × Handle),
        (moveEach (SteerNode.steer env hash cfg nWorkers) world bufs).1.ledger.enqueued =
          world.ledger.enqueued ++ new ∧ (new.map Prod.snd).Sublist bufs ∧
        ∀ p ∈ new, ∃ w, classifyForSteer hash cfg nWorkers (world.mem p.2).frame = .steer w ∧
          p.1 = .worker w := by
  induction bufs generalizing world with
  | nil => exact ⟨rfl, nofun, [], (List.append_nil _).symm, List.Sublist.refl _, nofun⟩
  | cons handle bufs ih =>
    obtain ⟨hmem, harp, henqueued⟩ := SteerNode.steer_cases env hash cfg nWorkers world handle
    obtain ⟨hmem', harp', new, henqueued', hsub, hring⟩ :=
      ih (SteerNode.steer env hash cfg nWorkers world handle).1
    rw [hmem] at hmem' harp' hring
    refine ⟨hmem', ?_, ?_⟩
    · intro other hother
      simp only [moveEach] at hother
      split_ifs at hother with hmoved
      · rcases List.mem_cons.mp hother with rfl | hother
        · exact harp hmoved
        · exact harp' other hother
      · exact harp' other hother
    · rcases henqueued with hsame | ⟨w, hsteer, hone⟩
      · exact ⟨new, henqueued'.trans (by rw [hsame]), hsub.cons handle, hring⟩
      · refine ⟨(.worker w, handle) :: new, ?_, hsub.cons_cons handle, fun p hp => ?_⟩
        · rw [moveEach]
          simp only [henqueued', hone, List.append_assoc, List.singleton_append]
        · rcases List.mem_cons.mp hp with rfl | hp
          · exact ⟨w, hsteer, rfl⟩
          · exact hring p hp

theorem SteerNode.tidy :
    (SteerNode.node env hash cfg nWorkers : Node (World bits Handle) Handle).Tidy where
  moves world input := moveEach_sublist _ world input.bufs
  mem_eq world input _ _ := by
    have hmem := (SteerNode.moveEach_steer env hash cfg nWorkers world input.bufs).1
    exact congrFun hmem _

end Steer

/-! ### The way of a packet -/

/-- The 5-tuple of a TCP or UDP packet over IPv4. -/
def Frame.fiveTuple (f : Frame) : Option FlowKey :=
  if f.etherType = etherTypeIpv4 ∧ (f.nextProtoId = ipprotoTcp ∨ f.nextProtoId = ipprotoUdp) then
    some f.flowKey
  else none

theorem Frame.fiveTuple_eq_some {f : Frame} {key : FlowKey} : f.fiveTuple = some key ↔
    f.etherType = etherTypeIpv4 ∧ (f.nextProtoId = ipprotoTcp ∨ f.nextProtoId = ipprotoUdp) ∧
      f.flowKey = key := by
  rw [fiveTuple]
  split_ifs with h
  · simp [h]
  · constructor
    · exact nofun
    · exact fun h' => absurd ⟨h'.1, h'.2.1⟩ h

/-- Where the parse node sends a packet with this 5-tuple. -/
def Ip4ParseNode.nextOf (cfg : Config) (key : FlowKey) : Ip4ParseNode.Next :=
  if key.dstIp = cfg.vip ∧ key.dstPort = cfg.vipPort then .fwd
  else if key.dstIp = cfg.selfIp then .rev
  else .drop

/-- The parse node goes by the frame, not by the metadata that it finds. -/
theorem Ip4ParseNode.classify_snd_congr (cfg : Config) {mbuf mbuf' : Mbuf}
    (h : mbuf.frame = mbuf'.frame) : (classify cfg mbuf).2 = (classify cfg mbuf').2 := by
  simp only [classify, classifyIpv4, h]
  split_ifs <;> rfl

theorem Ip4ParseNode.classify_of_fiveTuple {cfg : Config} {mbuf : Mbuf} {key : FlowKey}
    (h : mbuf.frame.fiveTuple = some key) : (classify cfg mbuf).2 = nextOf cfg key := by
  obtain ⟨hip, hproto, rfl⟩ := Frame.fiveTuple_eq_some.mp h
  have harp : mbuf.frame.etherType ≠ etherTypeArp := hip ▸ by decide
  have hproto' : ¬ (mbuf.frame.nextProtoId ≠ ipprotoTcp ∧ mbuf.frame.nextProtoId ≠ ipprotoUdp) :=
    fun h => hproto.elim h.1 h.2
  rw [classify, if_neg harp, if_neg (not_not.mpr hip), classifyIpv4, if_neg hproto', nextOf,
    apply_ite Prod.snd, apply_ite Prod.snd]
  rfl

theorem Ip4ParseNode.nextOf_ne_arp (cfg : Config) (key : FlowKey) : nextOf cfg key ≠ .arp := by
  unfold nextOf
  split_ifs <;> exact Next.noConfusion

theorem Ip4ParseNode.index_injective : Function.Injective Next.index := by
  intro next next' h
  cases next <;> cases next' <;> first | rfl | exact absurd h (by decide)

/-- Where packets with this 5-tuple are steered. -/
def steerOf (hash : FlowKey → UInt32) (cfg : Config) (nWorkers : ℕ) (key : FlowKey) : SteerResult :=
  if key.dstIp = cfg.vip ∧ key.dstPort = cfg.vipPort then .steer (steerWorker hash key nWorkers)
  else if key.dstIp = cfg.selfIp then .steer (key.dstPort.toNat % nWorkers)
  else .drop

theorem steerOf_ne_arp (hash : FlowKey → UInt32) (cfg : Config) (nWorkers : ℕ) (key : FlowKey) :
    steerOf hash cfg nWorkers key ≠ .arp := by
  unfold steerOf
  split_ifs <;> exact SteerResult.noConfusion

theorem classifyForSteer_of_fiveTuple {hash : FlowKey → UInt32} {cfg : Config} {nWorkers : ℕ}
    {f : Frame} {key : FlowKey} (h : f.fiveTuple = some key) :
    classifyForSteer hash cfg nWorkers f = steerOf hash cfg nWorkers key := by
  obtain ⟨hip, hproto, rfl⟩ := Frame.fiveTuple_eq_some.mp h
  have harp : f.etherType ≠ etherTypeArp := hip ▸ by decide
  have hproto' : ¬ (f.nextProtoId ≠ ipprotoTcp ∧ f.nextProtoId ≠ ipprotoUdp) :=
    fun h => hproto.elim h.1 h.2
  rw [classifyForSteer, if_neg harp, if_neg (not_not.mpr hip), if_neg hproto', steerOf]
  rfl

/-! ### The start of a run -/

/-- The node receives a burst and pushes it on its first output. -/
structure Graph.Node.Source (env : Env Handle) (node : Node (World bits Handle) Handle) : Prop where
  outs_eq : ∀ v world input, (node.call v world input).outs 0 = (env.received world.tick).bufs
  mem_eq : ∀ world input, (node.process world input).1.mem = env.memory world.tick
  lb_eq : ∀ world input, (node.process world input).1.lb = world.lb

/-- A node that moves every handle to the same output. -/
theorem moveEach_const {n : ℕ} (next : Fin n) (world : σ) (bufs : List Handle) :
    moveEach (fun world _ => (world, some next)) world bufs =
      (world, fun out => if next = out then bufs else []) := by
  induction bufs with
  | nil => simp [moveEach]
  | cons handle bufs ih =>
    simp only [moveEach, ih, Prod.mk.injEq, true_and]
    funext out
    by_cases hout : next = out <;> simp [hout]

theorem RxNode.source (env : Env Handle) :
    (RxNode.node env : Node (World bits Handle) Handle).Source env where
  outs_eq v world input := by simp [Node.call, outputs, RxNode.node, moveFrame, moveEach_const,
    World.receive]
  mem_eq world input := by simp [RxNode.node, moveFrame, moveEach_const, World.receive]
  lb_eq world input := by simp [RxNode.node, moveFrame, moveEach_const, World.receive]

theorem RingRxNode.source (env : Env Handle) :
    (RingRxNode.node env : Node (World bits Handle) Handle).Source env where
  outs_eq v world input := by simp [Node.call, outputs, RingRxNode.node, moveFrame, moveEach_const,
    World.receive]
  mem_eq world input := by simp [RingRxNode.node, moveFrame, moveEach_const, World.receive]
  lb_eq world input := by simp [RingRxNode.node, moveFrame, moveEach_const, World.receive]

variable {env : Env Handle} {g : Graph (World bits Handle) Handle}
  {source : Node (World bits Handle) Handle} {rest : List (Node (World bits Handle) Handle)}
  {ranks : List ℕ}

theorem Graph.outputsTo_root {rows : List (List NodeId)} {u : NodeId} :
    outputsTo ([1] :: rows) 0 u = if u = 1 then [0] else [] := by
  unfold outputsTo
  by_cases hu : u = 1
  · subst hu
    rfl
  · have hne : (1 : NodeId) ≠ u := Ne.symm hu
    simp [hu, hne]

/-- A run begins with the burst at the node behind the root. -/
theorem Graph.Wired.fed (h : g.Wired env source rest ranks) (hsource : source.Source env)
    {rows : List (List NodeId)} (hrows : g.routing = [1] :: rows) {d : Dispatcher Handle}
    (hd : d.Idle g) {world : World bits Handle} {fuel : ℕ}
    {r : Run (World bits Handle) Handle}
    (hrun : Dispatcher.runOnce g 0 fuel .cleared d { world with ledger := {} } = .ok r) :
    ∃ s : Transit (World bits Handle) Handle, s.Fed 1 (env.received world.tick) ∧
      s.world.mem = env.memory world.tick ∧ s.world.lb = world.lb ∧
      s.world.ledger = { taken := (env.received world.tick).bufs } ∧
      Transit.Steps g s (.done r.world) := by
  have hself (v : NodeId) (out : ℕ) : ¬ g.Edge v out v := fun hedge =>
    absurd (h.wired.ranked v out v hedge) (lt_irrefl _)
  obtain ⟨s, hstep, hsteps⟩ := hd.runOnce_transits h.root_lt hself hrun
  cases hstep with
  | @call node rest' input hnode hpending hfull =>
    obtain rfl : node = source := by
      rw [h.nodes_eq] at hnode
      exact (Option.some.inj hnode).symm
    have hnil : input.bufs ++ rest' = [] := hpending.symm
    obtain ⟨-, rfl⟩ := List.append_eq_nil_iff.mp hnil
    refine ⟨_, fun u => ?_, hsource.mem_eq _ _, hsource.lb_eq _ _, (h.receives _ _).1, hsteps⟩
    have hnone : (if u = 0 then [] else if u = (0 : NodeId) then [] else []) =
        ([] : List Handle) := by
      split_ifs <;> rfl
    change (if u = 0 then [] else if u = (0 : NodeId) then [] else []) ++ _ = _
    rw [hnone, List.nil_append, routed_eq, hrows]
    change (outputsTo ([1] :: rows) 0 u).flatMap _ = _
    rw [outputsTo_root]
    split_ifs
    · rw [List.flatMap_singleton, hsource.outs_eq]
      rfl
    · rfl

end Cerebellum
