import Cerebellum.Graph.Conservation
import Cerebellum.Nodes.Ip4ParseNode
import Cerebellum.Nodes.LbNode
import Cerebellum.Nodes.RewriteNodes

/-!
# The nodes of the graphs

The nodes as the dispatcher calls them (`nodes/*.hpp`): each takes a frame of handles and moves them
to its outputs, sends them, enqueues them or frees them. The state of the nodes is one record: the
packet buffers, the state of the load balancer, the counters, and a ledger of what was received and
of what became of it, which no node reads. What the device, the rings, the clock and the control
plane answer is a parameter, by the number of the question.

Most nodes handle one packet after the other and move each to an output; this is `moveFrame`.

## Main definitions

* `Cerebellum.Env`, `Cerebellum.Ledger`, `Cerebellum.World`.
* `Cerebellum.moveFrame`: the common loop of the nodes.
* `Cerebellum.RxNode.node`, `Cerebellum.TxNode.node`, and so on: the nodes.

## Main results

* `Cerebellum.World.conserves_moveFrame`: the loop disposes of what it does not move.
-/

namespace Cerebellum

open Graph Bytes

/-- The answers of the world outside: the handles that a receive or dequeue call returns and the
memory it leaves, how many packets the device or a ring accepts, the pool that is published and the
clock. -/
structure Env (Handle : Type) where
  received : ℕ → Graph.Frame Handle
  memory : ℕ → Handle → Mbuf
  accepted : ℕ → ℕ
  pool : ℕ → Option BackendPool
  nowMs : ℕ → UInt32

/-- The rings: one to each worker, and one back. -/
inductive Ring
  | worker (w : ℕ)
  | egress

/-- What was received in a run, and what became of it; `dropFreed` are the buffers that `DropNode`
freed, and `freed` those that the other nodes did. -/
structure Ledger (Handle : Type) where
  taken : List Handle := []
  sent : List Handle := []
  enqueued : List (Ring × Handle) := []
  freed : List Handle := []
  dropFreed : List Handle := []

/-- The state of the nodes of a core. -/
structure World (bits : ℕ) (Handle : Type) where
  mem : Handle → Mbuf
  lb : LbNode bits
  activeFlows : ℕ := 0
  rxPackets : ℕ := 0
  txPackets : ℕ := 0
  dropped : ℕ := 0
  /-- The number of questions asked so far. -/
  tick : ℕ := 0
  ledger : Ledger Handle := {}

variable {bits : ℕ} {σ Handle : Type}

/-! ### The common loop -/

/-- `for (i = 0; i < in.count; ++i) in.MoveTo(i, nexts[...])`, where handling a packet may change
the state; a packet for which there is no output is not moved. -/
def moveEach {n : ℕ} (f : σ → Handle → σ × Option (Fin n)) :
    σ → List Handle → σ × (Fin n → List Handle)
  | world, [] => (world, fun _ => [])
  | world, handle :: bufs =>
    let (world, next) := f world handle
    let (world, outs) := moveEach f world bufs
    (world, fun out => if next = some out then handle :: outs out else outs out)

theorem length_moveEach_le {n : ℕ} (f : σ → Handle → σ × Option (Fin n)) (world : σ)
    (bufs : List Handle) (out : Fin n) : ((moveEach f world bufs).2 out).length ≤ bufs.length := by
  induction bufs generalizing world with
  | nil => exact le_rfl
  | cons handle bufs ih =>
    rw [moveEach, List.length_cons]
    simp only
    split_ifs
    · exact Nat.succ_le_succ (ih _)
    · exact (ih _).trans (Nat.le_succ _)

/-- The loop over the handles of a frame. -/
def moveFrame {n : ℕ} (f : σ → Handle → σ × Option (Fin n)) (world : σ)
    (frame : Graph.Frame Handle) : σ × (Fin n → Graph.Frame Handle) :=
  ((moveEach f world frame.bufs).1, fun out =>
    ⟨(moveEach f world frame.bufs).2 out,
      (length_moveEach_le f world frame.bufs out).trans frame.count_le⟩)

/-! ### Sources and sinks -/

section Nodes

variable (env : Env Handle)

/-- `rte_eth_rx_burst` or `rte_ring_dequeue_burst`. -/
def World.receive (world : World bits Handle) : World bits Handle × Graph.Frame Handle :=
  ({ world with
      mem := env.memory world.tick
      tick := world.tick + 1
      ledger := { world.ledger with
        taken := world.ledger.taken ++ (env.received world.tick).bufs } },
    env.received world.tick)

/-- `RxNode`. -/
def RxNode.node : Node (World bits Handle) Handle where
  nextCount := 1
  nextCount_le := one_le_kMaxFanout
  process world _ :=
    let (world, burst) := world.receive env
    moveFrame (fun world _ => (world, some 0))
      { world with rxPackets := world.rxPackets + burst.bufs.length } burst

/-- `RingRxNode`. -/
def RingRxNode.node : Node (World bits Handle) Handle where
  nextCount := 1
  nextCount_le := one_le_kMaxFanout
  process world _ :=
    let (world, burst) := world.receive env
    moveFrame (fun world _ => (world, some 0)) world burst

/-- `TxNode`: what the device does not accept is freed and counted. -/
def TxNode.node : Node (World bits Handle) Handle where
  nextCount := 0
  nextCount_le := Nat.zero_le kMaxFanout
  process world input :=
    let sent := min (env.accepted world.tick) input.bufs.length
    let unsent := input.bufs.length - sent
    ({ world with
        txPackets := world.txPackets + sent
        dropped := world.dropped + unsent
        tick := world.tick + 1
        ledger := { world.ledger with
          sent := world.ledger.sent ++ input.bufs.take sent
          freed := world.ledger.freed ++ input.bufs.drop sent } },
      Fin.elim0)

/-- `RingTxNode`: what the ring does not accept is freed and counted. -/
def RingTxNode.node (ring : Ring) : Node (World bits Handle) Handle where
  nextCount := 0
  nextCount_le := Nat.zero_le kMaxFanout
  process world input :=
    let sent := min (env.accepted world.tick) input.bufs.length
    ({ world with
        dropped := world.dropped + (input.bufs.length - sent)
        tick := world.tick + 1
        ledger := { world.ledger with
          enqueued := world.ledger.enqueued ++ (input.bufs.take sent).map fun h => (ring, h)
          freed := world.ledger.freed ++ input.bufs.drop sent } },
      Fin.elim0)

/-- `DropNode`. -/
def DropNode.node : Node (World bits Handle) Handle where
  nextCount := 0
  nextCount_le := Nat.zero_le kMaxFanout
  process world input :=
    ({ world with
        ledger := { world.ledger with dropFreed := world.ledger.dropFreed ++ input.bufs } },
      Fin.elim0)

/-! ### Nodes in the middle -/

variable [DecidableEq Handle] (hash : FlowKey → UInt32) (cfg : Config) (cks : Checksums)

/-- A packet buffer is written. -/
def World.setMbuf (world : World bits Handle) (handle : Handle) (mbuf : Mbuf) :
    World bits Handle :=
  { world with mem := Function.update world.mem handle mbuf }

/-- The number of an output of `Ip4ParseNode`. -/
def Ip4ParseNode.Next.index : Ip4ParseNode.Next → Fin 4
  | .fwd => 0
  | .rev => 1
  | .drop => 2
  | .arp => 3

/-- `Ip4ParseNode`. -/
def Ip4ParseNode.node : Node (World bits Handle) Handle where
  nextCount := 4
  nextCount_le := four_le_kMaxFanout
  process := moveFrame fun world handle =>
    let (priv, next) := Ip4ParseNode.classify cfg (world.mem handle)
    (world.setMbuf handle { world.mem handle with priv := priv }, some next.index)

/-- `LbNode`: the pool and the clock are read once for a frame. -/
def LbNode.node : Node (World bits Handle) Handle where
  nextCount := 2
  nextCount_le := two_le_kMaxFanout
  process world input :=
    ((env.pool world.tick).filter fun pool => pool.activeCount ≠ 0).elim
      (moveFrame (fun world _ => (world, some 1)) { world with tick := world.tick + 1 } input)
      fun pool =>
        let (world, outs) := moveFrame (fun world handle =>
            let (lb, sent, priv) :=
              handlePacket hash world.lb pool (env.nowMs world.tick) (world.mem handle).priv
            ({ world with lb := lb }.setMbuf handle { world.mem handle with priv := priv },
              some (if sent then 0 else 1)))
          world input
        ({ world with activeFlows := world.lb.nat.size, tick := world.tick + 1 }, outs)

/-- The body of the loop of `LbNode::Process`, as `LbNode.node` runs it. -/
def LbNode.handleOne (pool : BackendPool) (world : World bits Handle) (handle : Handle) :
    World bits Handle × Option (Fin 2) :=
  let result := handlePacket hash world.lb pool (env.nowMs world.tick) (world.mem handle).priv
  ({ world with lb := result.1 }.setMbuf handle { world.mem handle with priv := result.2.2 },
    some (if result.2.1 then 0 else 1))

/-- `DnatNode`. -/
def DnatNode.node : Node (World bits Handle) Handle where
  nextCount := 1
  nextCount_le := one_le_kMaxFanout
  process := moveFrame fun world handle =>
    (world.setMbuf handle (DnatNode.rewrite cfg cks (world.mem handle)), some 0)

/-- `EtherRewriteNode`. -/
def EtherRewriteNode.node : Node (World bits Handle) Handle where
  nextCount := 1
  nextCount_le := one_le_kMaxFanout
  process := moveFrame fun world handle =>
    (world.setMbuf handle (EtherRewriteNode.rewrite cfg (world.mem handle)), some 0)

/-- `ArpNode::BuildReply`: the request is turned into the reply, or the frame is left as it is. The
fields of the ARP header start at offset 14. -/
def ArpNode.buildReply (f : Frame) : Option Frame :=
  let target := f.be32 38
  if f.be16 20 ≠ 1 then none
  else if target ≠ cfg.selfIp ∧ target ≠ cfg.vip then none
  else
    let f : Frame := blit f 0 (readBytes f 6 6)
    let f : Frame := blit f 6 cfg.selfMac.bytes
    let f : Frame := f.set16 20 2
    let f : Frame := blit f 32 (readBytes f 22 6)
    let f : Frame := blit f 38 (readBytes f 28 4)
    let f : Frame := blit f 22 cfg.selfMac.bytes
    some (f.set32 28 target)

/-- `ArpNode`. -/
def ArpNode.node : Node (World bits Handle) Handle where
  nextCount := 2
  nextCount_le := two_le_kMaxFanout
  process := moveFrame fun world handle =>
    match ArpNode.buildReply cfg (world.mem handle).frame with
    | some frame => (world.setMbuf handle { world.mem handle with frame := frame }, some 0)
    | none => (world, some 1)

/-- What `SteerNode` does with one packet: only ARP packets are moved. -/
def SteerNode.steer (nWorkers : ℕ) (world : World bits Handle) (handle : Handle) :
    World bits Handle × Option (Fin 1) :=
  match classifyForSteer hash cfg nWorkers (world.mem handle).frame with
  | .arp => (world, some 0)
  | .steer w =>
    if env.accepted world.tick = 0 then
      ({ world with
          dropped := world.dropped + 1
          tick := world.tick + 1
          ledger := { world.ledger with freed := world.ledger.freed ++ [handle] } }, none)
    else
      ({ world with
          tick := world.tick + 1
          ledger := { world.ledger with
            enqueued := world.ledger.enqueued ++ [(.worker w, handle)] } }, none)
  | .drop =>
    ({ world with ledger := { world.ledger with freed := world.ledger.freed ++ [handle] } }, none)

/-- `SteerNode`. -/
def SteerNode.node (nWorkers : ℕ) : Node (World bits Handle) Handle where
  nextCount := 1
  nextCount_le := one_le_kMaxFanout
  process := moveFrame (SteerNode.steer env hash cfg nWorkers)

end Nodes

/-! ### What the nodes do with the handles -/

/-- The loop moves each handle to an output or disposes of it. -/
theorem conserves_moveFrame {n : ℕ} {f : σ → Handle → σ × Option (Fin n)}
    {disposed : σ → Multiset Handle}
    (hf : ∀ world handle, disposed (f world handle).1 =
      disposed world + if (f world handle).2 = none then {handle} else 0)
    (world : σ) (frame : Graph.Frame Handle) :
    disposed (moveFrame f world frame).1 +
        ∑ out, (((moveFrame f world frame).2 out).bufs : Multiset Handle) =
      disposed world + frame.bufs := by
  obtain ⟨bufs, hbufs⟩ := frame
  simp only [moveFrame]
  clear hbufs
  induction bufs generalizing world with
  | nil => simp [moveEach]
  | cons handle bufs ih =>
    have hcons (out : Fin n) : ((if (f world handle).2 = some out then
          handle :: (moveEach f (f world handle).1 bufs).2 out
        else (moveEach f (f world handle).1 bufs).2 out : List Handle) : Multiset Handle) =
        (if (f world handle).2 = some out then {handle} else 0) +
          ((moveEach f (f world handle).1 bufs).2 out : Multiset Handle) := by
      split_ifs
      · rw [← Multiset.cons_coe, Multiset.singleton_add]
      · rw [zero_add]
    have hone : ((if (f world handle).2 = none then {handle} else 0) +
        ∑ out, if (f world handle).2 = some out then {handle} else 0 : Multiset Handle) =
        {handle} := by
      cases (f world handle).2 with
      | none => simp
      | some out => simp
    simp only [moveEach, hcons, Finset.sum_add_distrib]
    rw [add_left_comm, ih, hf, ← Multiset.cons_coe, ← Multiset.singleton_add]
    generalize (∑ out, if (f world handle).2 = some out then {handle} else 0 : Multiset Handle) =
      moved at hone ⊢
    generalize (if (f world handle).2 = none then {handle} else 0 : Multiset Handle) =
      kept at hone ⊢
    rw [← hone]
    abel

/-- The loop pushes packets of the frame only, in their order. -/
theorem moveEach_sublist {n : ℕ} (f : σ → Handle → σ × Option (Fin n)) (world : σ)
    (bufs : List Handle) (out : Fin n) : ((moveEach f world bufs).2 out).Sublist bufs := by
  induction bufs generalizing world with
  | nil => exact List.Sublist.refl _
  | cons handle bufs ih =>
    rw [moveEach]
    simp only
    split_ifs
    · exact (ih _).cons_cons handle
    · exact (ih _).cons handle

/-- What handling one packet preserves is preserved by the loop. -/
theorem moveFrame_preserves {n : ℕ} {f : σ → Handle → σ × Option (Fin n)} {I : σ → Prop}
    (hf : ∀ world handle, I world → I (f world handle).1) {world : σ} (h : I world)
    (frame : Graph.Frame Handle) : I (moveFrame f world frame).1 := by
  obtain ⟨bufs, hbufs⟩ := frame
  simp only [moveFrame]
  clear hbufs
  induction bufs generalizing world with
  | nil => exact h
  | cons handle bufs ih => exact ih (hf world handle h)

/-- The ledger and the counters that go with it. -/
def World.accounts (world : World bits Handle) : Ledger Handle × ℕ × ℕ × ℕ :=
  (world.ledger, world.rxPackets, world.txPackets, world.dropped)

/-- The node moves every handle to one of its outputs and leaves the accounts alone. -/
structure Graph.Node.Passes (node : Node (World bits Handle) Handle) : Prop where
  accounts_eq : ∀ world input, (node.process world input).1.accounts = world.accounts
  sum_eq : ∀ world input,
    ∑ out, (((node.process world input).2 out).bufs : Multiset Handle) = input.bufs

theorem Graph.Node.Passes.ledger_eq {node : Node (World bits Handle) Handle} (h : node.Passes)
    (world : World bits Handle) (input : Graph.Frame Handle) :
    (node.process world input).1.ledger = world.ledger :=
  congrArg Prod.fst (h.accounts_eq world input)

theorem accounts_moveFrame {n : ℕ}
    {f : World bits Handle → Handle → World bits Handle × Option (Fin n)}
    (hf : ∀ world handle, (f world handle).1.accounts = world.accounts)
    (world : World bits Handle) (frame : Graph.Frame Handle) :
    (moveFrame f world frame).1.accounts = world.accounts :=
  moveFrame_preserves (I := fun w => w.accounts = world.accounts)
    (fun w handle hw => (hf w handle).trans hw) rfl frame

theorem sum_moveFrame {n : ℕ} {f : σ → Handle → σ × Option (Fin n)}
    (hf : ∀ world handle, (f world handle).2 ≠ none) (world : σ) (frame : Graph.Frame Handle) :
    ∑ out, (((moveFrame f world frame).2 out).bufs : Multiset Handle) = frame.bufs := by
  have hnone (world : σ) (handle : Handle) :
      (0 : Multiset Handle) = 0 + if (f world handle).2 = none then {handle} else 0 := by
    rw [if_neg (hf world handle), add_zero]
  simpa using @conserves_moveFrame σ Handle n f (fun _ => 0) hnone world frame

section Accounts

variable [DecidableEq Handle] (env : Env Handle) (hash : FlowKey → UInt32) (cfg : Config)
  (cks : Checksums)

theorem Ip4ParseNode.passes : (Ip4ParseNode.node cfg : Node (World bits Handle) Handle).Passes where
  accounts_eq := accounts_moveFrame fun _ _ => rfl
  sum_eq := sum_moveFrame fun _ _ => Option.some_ne_none _

theorem DnatNode.passes : (DnatNode.node cfg cks : Node (World bits Handle) Handle).Passes where
  accounts_eq := accounts_moveFrame fun _ _ => rfl
  sum_eq := sum_moveFrame fun _ _ => Option.some_ne_none _

theorem EtherRewriteNode.passes :
    (EtherRewriteNode.node cfg : Node (World bits Handle) Handle).Passes where
  accounts_eq := accounts_moveFrame fun _ _ => rfl
  sum_eq := sum_moveFrame fun _ _ => Option.some_ne_none _

theorem ArpNode.passes : (ArpNode.node cfg : Node (World bits Handle) Handle).Passes where
  accounts_eq := accounts_moveFrame fun world handle => by
    cases ArpNode.buildReply cfg (world.mem handle).frame <;> rfl
  sum_eq := sum_moveFrame fun world handle => by
    cases ArpNode.buildReply cfg (world.mem handle).frame <;> exact Option.some_ne_none _

theorem LbNode.passes : (LbNode.node env hash : Node (World bits Handle) Handle).Passes where
  accounts_eq world input := by
    simp only [LbNode.node]
    cases (env.pool world.tick).filter fun pool => pool.activeCount ≠ 0 with
    | none => exact accounts_moveFrame (fun _ _ => rfl) _ input
    | some pool => exact accounts_moveFrame (fun _ _ => rfl) world input
  sum_eq world input := by
    simp only [LbNode.node]
    cases (env.pool world.tick).filter fun pool => pool.activeCount ≠ 0 with
    | none => exact sum_moveFrame (fun _ _ => Option.some_ne_none _) _ input
    | some pool => exact sum_moveFrame (fun _ _ => Option.some_ne_none _) world input

end Accounts

/-- What was sent, enqueued or freed. -/
def Ledger.disposed (ledger : Ledger Handle) : Multiset Handle :=
  ledger.sent + (ledger.enqueued.map Prod.snd : Multiset Handle) + ledger.freed + ledger.dropFreed

/-- What the node disposes of or pushes is what it was given, and it takes nothing in. -/
structure Graph.Node.Settles (node : Node (World bits Handle) Handle) : Prop where
  taken_eq : ∀ world input, (node.process world input).1.ledger.taken = world.ledger.taken
  disposed_eq : ∀ world input, (node.process world input).1.ledger.disposed +
      ∑ out, (((node.process world input).2 out).bufs : Multiset Handle) =
    world.ledger.disposed + input.bufs
  subset : ∀ world input out, ((node.process world input).2 out).bufs ⊆ input.bufs

/-- Nodes that only pass handles on. -/
theorem Graph.Node.Passes.settles {node : Node (World bits Handle) Handle} (h : node.Passes) :
    node.Settles where
  taken_eq world input := by rw [h.ledger_eq]
  disposed_eq world input := by rw [h.ledger_eq, h.sum_eq]
  subset world input out handle hmem := by
    rw [← Multiset.mem_coe, ← h.sum_eq world input]
    exact Multiset.mem_sum.mpr ⟨out, Finset.mem_univ out, hmem⟩

/-- Nodes without outputs. -/
theorem Graph.Node.settles_of_sink {node : Node (World bits Handle) Handle}
    (hnext : node.nextCount = 0)
    (h : ∀ world input, (node.process world input).1.ledger.taken = world.ledger.taken ∧
      (node.process world input).1.ledger.disposed = world.ledger.disposed + input.bufs) :
    node.Settles where
  taken_eq world input := (h world input).1
  disposed_eq world input := by
    have hempty : IsEmpty (Fin node.nextCount) := hnext ▸ Fin.isEmpty
    rw [Finset.univ_eq_empty, Finset.sum_empty, add_zero]
    exact (h world input).2
  subset _ _ out := (hnext ▸ out : Fin 0).elim0

theorem coe_take_add_coe_drop (bufs : List Handle) (n : ℕ) :
    (bufs.take n + bufs.drop n : Multiset Handle) = bufs := by
  rw [Multiset.coe_add, List.take_append_drop]

theorem TxNode.settles (env : Env Handle) :
    (TxNode.node env : Node (World bits Handle) Handle).Settles := by
  refine Node.settles_of_sink rfl fun world input => ⟨rfl, ?_⟩
  rw [← coe_take_add_coe_drop input.bufs (min (env.accepted world.tick) input.bufs.length)]
  simp only [TxNode.node, Ledger.disposed, ← Multiset.coe_add]
  abel

theorem RingTxNode.settles (env : Env Handle) (ring : Ring) :
    (RingTxNode.node env ring : Node (World bits Handle) Handle).Settles := by
  refine Node.settles_of_sink rfl fun world input => ⟨rfl, ?_⟩
  rw [← coe_take_add_coe_drop input.bufs (min (env.accepted world.tick) input.bufs.length)]
  have hsnd (bufs : List Handle) : (bufs.map fun h => (ring, h)).map Prod.snd = bufs := by
    rw [List.map_map]
    exact List.map_id _
  simp only [RingTxNode.node, Ledger.disposed, List.map_append, hsnd, ← Multiset.coe_add]
  abel

theorem DropNode.settles : (DropNode.node : Node (World bits Handle) Handle).Settles := by
  refine Node.settles_of_sink rfl fun world input => ⟨rfl, ?_⟩
  simp only [DropNode.node, Ledger.disposed, ← Multiset.coe_add]
  abel

section Steer

variable (env : Env Handle) (hash : FlowKey → UInt32) (cfg : Config) (nWorkers : ℕ)

theorem SteerNode.taken_steer (world : World bits Handle) (handle : Handle) :
    (SteerNode.steer env hash cfg nWorkers world handle).1.ledger.taken = world.ledger.taken := by
  unfold SteerNode.steer
  split
  · rfl
  · split_ifs <;> rfl
  · rfl

/-- A packet that is not moved is enqueued or freed. -/
theorem SteerNode.disposed_steer (world : World bits Handle) (handle : Handle) :
    (SteerNode.steer env hash cfg nWorkers world handle).1.ledger.disposed =
      world.ledger.disposed +
        if (SteerNode.steer env hash cfg nWorkers world handle).2 = none then {handle} else 0 := by
  unfold SteerNode.steer
  split
  · exact (add_zero _).symm
  · by_cases haccept : env.accepted world.tick = 0
    · simp only [haccept, if_true, Ledger.disposed, ← Multiset.coe_add, Multiset.coe_singleton]
      abel
    · simp only [haccept, if_false, if_true, Ledger.disposed, List.map_append, List.map_singleton,
        ← Multiset.coe_add, Multiset.coe_singleton]
      abel
  · simp only [Ledger.disposed, ← Multiset.coe_add, Multiset.coe_singleton, if_true]
    abel

theorem SteerNode.settles :
    (SteerNode.node env hash cfg nWorkers : Node (World bits Handle) Handle).Settles where
  taken_eq world input :=
    moveFrame_preserves (I := fun w : World bits Handle => w.ledger.taken = world.ledger.taken)
      (fun w handle hw => (SteerNode.taken_steer env hash cfg nWorkers w handle).trans hw) rfl input
  disposed_eq :=
    @conserves_moveFrame (World bits Handle) Handle 1 (SteerNode.steer env hash cfg nWorkers)
      (fun w => w.ledger.disposed) (SteerNode.disposed_steer env hash cfg nWorkers)
  subset world input out := (moveEach_sublist _ world input.bufs out).subset

end Steer

end Cerebellum
