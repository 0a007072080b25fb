import Cerebellum.Graph.PacketMeta
import Cerebellum.Lb.BackendPool
import Cerebellum.Lb.NatTable
import Cerebellum.Lb.PortPool

/-!
# The load-balancing node

`LbNode` (`nodes/lb_node.hpp`, `nodes/lb_node.cpp`) looks every packet up in the conntrack table,
opens a flow for a forward packet that may open one, records the translation in the packet's
metadata, and closes the flow when a reset or the second of two FINs passes. Each backend has its
own pool of source ports.

The source's vector has `kMaxBackends` pools; here `portPools` is a function on all 8-bit indices,
empty from `kMaxBackends` on. The counters of `LcoreStats` that this node adds to are fields of it;
the one it overwrites, `active_flows`, is passed through `process`.

A burst is handled packet by packet. `arrive` is what happens to one packet of a burst, with the
pool and the clock value its burst was started with, and `process_eq` says that `Process` is a run
of `arrive`. Runs of the node are lists of arrivals.

## Main definitions

* `Cerebellum.LbNode`, `Cerebellum.LbNode.init`.
* `Cerebellum.LbNode.maybeTeardown`, `createFlow`, `handlePacket`, `process`.
* `Cerebellum.Arrival`, `Cerebellum.LbNode.arrive`, `Cerebellum.LbNode.run`.

## Main results

* `Cerebellum.LbNode.process_eq`: `Process` is the run of its packets.
-/

namespace Cerebellum

/-- The state of the node: the conntrack table, the port pools and the counters it writes. -/
structure LbNode (bits : ℕ) where
  nat : NatTable bits
  portPools : UInt8 → PortPool
  newFlows : UInt64 := 0
  backendFlows : UInt8 → UInt64 := fun _ => 0

/-- `LbNode::kProtoTcp`. -/
def kProtoTcp : UInt8 := 6

/-- `LbNode::kTcpFin`. -/
def kTcpFin : UInt8 := 0x01

/-- `LbNode::kTcpSyn`. -/
def kTcpSyn : UInt8 := 0x02

/-- `LbNode::kTcpRst`. -/
def kTcpRst : UInt8 := 0x04

/-- `LbNode::kFinForward` or `LbNode::kFinReverse`. -/
def finBit : Direction → UInt8
  | .forward => 0x1
  | .reverse => 0x2

/-- The metadata of a forward packet with the translation of its flow. -/
def PacketMeta.toBackend (m : PacketMeta) (flow : NatFlow) : PacketMeta :=
  { m with
    backendIp := flow.backendIp
    backendMac := flow.backendMac
    backendPort := flow.backendPort
    snatPort := flow.snatPort }

/-- The metadata of a reverse packet with the translation of its flow. -/
def PacketMeta.toClient (m : PacketMeta) (flow : NatFlow) : PacketMeta :=
  { m with
    clientIp := flow.fwdKey.srcIp
    clientPort := flow.fwdKey.srcPort
    clientMac := flow.clientMac }

/-- The packet carries the flag. -/
def PacketMeta.has (m : PacketMeta) (flag : UInt8) : Bool := m.tcpFlags &&& flag ≠ 0

namespace LbNode

variable {bits : ℕ}

/-- The constructor of `LbNode`. -/
def init (bits : ℕ) (timeoutMs : UInt32) (workerId nWorkers : UInt16) : LbNode bits where
  nat := { timeoutMs := timeoutMs }
  portPools idx := if idx.toNat < kMaxBackends then PortPool.forWorker workerId nWorkers else .empty

theorem init_portPools {idx : UInt8} (h : idx.toNat < kMaxBackends) (timeoutMs : UInt32)
    (workerId nWorkers : UInt16) :
    (init bits timeoutMs workerId nWorkers).portPools idx = .forWorker workerId nWorkers :=
  if_pos h

/-- `if (port != 0) port_pools_[idx].Release(port)`. -/
def releasePort (n : LbNode bits) (idx : UInt8) (port : UInt16) : LbNode bits :=
  if h : port ≠ 0 then
    { n with portPools := Function.update n.portPools idx ((n.portPools idx).release port h) }
  else n

/-- The last part of `MaybeTeardown`: close the flow and give its port back. -/
def teardown (n : LbNode bits) (s : Slot bits) : LbNode bits :=
  let closed := n.nat.close s
  { n with nat := closed.1 }.releasePort closed.2.2 closed.2.1

/-- The assignment `flow.fin_seen |= ...` of `MaybeTeardown`. -/
def markFin (n : LbNode bits) (s : Slot bits) (dir : Direction) : LbNode bits :=
  { n with
    nat := n.nat.setSlot s
      { n.nat.slots s with finSeen := (n.nat.slots s).finSeen ||| finBit dir } }

/-- `LbNode::MaybeTeardown`: a reset closes the flow, and so does a FIN when the other direction
has sent one. -/
def maybeTeardown (n : LbNode bits) (s : Slot bits) (m : PacketMeta) : LbNode bits :=
  let n := if m.has kTcpFin then n.markFin s m.dir else n
  if m.has kTcpRst || (m.has kTcpFin &&
      (n.nat.slots s).finSeen = finBit .forward ||| finBit .reverse) then
    n.teardown s
  else n

section Operations

variable (hash : FlowKey → UInt32)

/-- The flow that `CreateFlow` fills in before inserting it. -/
def newFlow (m : PacketMeta) (pool : BackendPool) (snatPort : UInt16) : NatFlow :=
  let idx := pool.select hash m.flowKey
  { fwdKey := m.flowKey
    clientMac := m.clientMac
    backendIp := (pool.getAt idx).ip
    backendMac := (pool.getAt idx).mac
    backendPort := (pool.getAt idx).port
    snatPort := snatPort
    backendIdx := idx }

/-- `LbNode::CreateFlow`. -/
def createFlow (n : LbNode bits) (m : PacketMeta) (pool : BackendPool) (nowMs : UInt32) :
    LbNode bits × Option (Slot bits) :=
  let idx := pool.select hash m.flowKey
  let (snatPort, rest) := (n.portPools idx).acquire
  let n := { n with portPools := Function.update n.portPools idx rest }
  if snatPort = 0 then (n, none)
  else
    let (nat, inserted, evictedPort, evictedIdx) :=
      n.nat.insert hash (newFlow hash m pool snatPort) nowMs
    let n := { n with nat := nat }.releasePort evictedIdx evictedPort
    match inserted with
    | none => (n.releasePort idx snatPort, none)
    | some s =>
      ({ n with
          newFlows := n.newFlows + 1
          backendFlows := Function.update n.backendFlows idx (n.backendFlows idx + 1) },
        some s)

/-- The end of `HandlePacket` for a forward packet whose flow is in slot `s`. -/
def forwardVia (n : LbNode bits) (s : Slot bits) (m : PacketMeta) :
    LbNode bits × Bool × PacketMeta :=
  (n.maybeTeardown s m, true, m.toBackend (n.nat.slots s))

/-- The end of `HandlePacket` for a reverse packet whose flow is in slot `s`. -/
def reverseVia (n : LbNode bits) (s : Slot bits) (m : PacketMeta) :
    LbNode bits × Bool × PacketMeta :=
  (n.maybeTeardown s m, true, m.toClient (n.nat.slots s))

/-- `LbNode::HandlePacket`: the new state, whether the packet goes on to the translation, and its
metadata. -/
def handlePacket (n : LbNode bits) (pool : BackendPool) (nowMs : UInt32) (m : PacketMeta) :
    LbNode bits × Bool × PacketMeta :=
  match m.dir with
  | .forward =>
    let (nat, found) := n.nat.lookupForward hash m.flowKey nowMs
    let n := { n with nat := nat }
    match found with
    | some s => n.forwardVia s m
    | none =>
      if m.proto = kProtoTcp && !m.has kTcpSyn then (n, false, m)
      else
        match createFlow hash n m pool nowMs with
        | (n, none) => (n, false, m)
        | (n, some s) => n.forwardVia s m
  | .reverse =>
    let (nat, found) :=
      n.nat.lookupReverse hash m.srcIp m.srcPort m.dstPort m.proto nowMs
    let n := { n with nat := nat }
    match found with
    | none => (n, false, m)
    | some s => n.reverseVia s m

/-- The loop of `Process` over the packets of a burst. -/
def handleBurst (pool : BackendPool) (nowMs : UInt32) :
    LbNode bits → List PacketMeta → LbNode bits × List (Bool × PacketMeta)
  | n, [] => (n, [])
  | n, m :: burst =>
    let (n, verdict) := handlePacket hash n pool nowMs m
    let (n, verdicts) := handleBurst pool nowMs n burst
    (n, verdict :: verdicts)

/-- `LbNode::Process`: the new state, the published number of active flows, and for each packet of
the burst in order whether it is moved to the output `kNextDnat` or to `kNextDrop`, with its
metadata. Without a pool, or without an enabled backend, every packet is dropped before the table
is looked at, and nothing is published. -/
def process (n : LbNode bits) (activeFlows : ℕ) (pool : Option BackendPool) (nowMs : UInt32)
    (burst : List PacketMeta) : LbNode bits × ℕ × List (Bool × PacketMeta) :=
  match pool with
  | none => (n, activeFlows, burst.map fun m => (false, m))
  | some pool =>
    if pool.activeCount = 0 then (n, activeFlows, burst.map fun m => (false, m))
    else
      let (n, verdicts) := handleBurst hash pool nowMs n burst
      (n, n.nat.size, verdicts)

end Operations

end LbNode

/-! ### Runs -/

/-- One packet reaching the node, with the backend pool and the clock value that its burst was
started with. -/
structure Arrival where
  pool : Option BackendPool
  nowMs : UInt32
  packet : PacketMeta

namespace Arrival

/-- The pool of the burst, if it has an enabled backend. -/
def usable (a : Arrival) : Option BackendPool :=
  a.pool.filter fun pool => pool.activeCount ≠ 0

theorem usable_eq_some {a : Arrival} {pool : BackendPool} :
    a.usable = some pool ↔ a.pool = some pool ∧ pool.activeCount ≠ 0 := by
  rw [usable, Option.filter_eq_some_iff]
  simp only [ne_eq, decide_not, Bool.not_eq_eq_eq_not, Bool.not_true, decide_eq_false_iff_not]

end Arrival

namespace LbNode

variable {bits : ℕ} (hash : FlowKey → UInt32)

/-- What `Process` does to one packet of a burst. -/
def arrive (n : LbNode bits) (a : Arrival) : LbNode bits × Bool × PacketMeta :=
  match a.usable with
  | none => (n, false, a.packet)
  | some pool => handlePacket hash n pool a.nowMs a.packet

theorem arrive_of_usable (n : LbNode bits) {a : Arrival} {pool : BackendPool}
    (h : a.usable = some pool) : arrive hash n a = handlePacket hash n pool a.nowMs a.packet := by
  rw [arrive, h]

theorem arrive_of_not_usable (n : LbNode bits) {a : Arrival} (h : a.usable = none) :
    arrive hash n a = (n, false, a.packet) := by
  rw [arrive, h]

/-- The state after a run of arrivals. -/
def run (n : LbNode bits) (run : List Arrival) : LbNode bits :=
  run.foldl (fun n a => (arrive hash n a).1) n

@[simp] theorem run_nil (n : LbNode bits) : run hash n [] = n := rfl

@[simp] theorem run_cons (n : LbNode bits) (a : Arrival) (as : List Arrival) :
    run hash n (a :: as) = run hash (arrive hash n a).1 as := rfl

theorem run_append (n : LbNode bits) (as bs : List Arrival) :
    run hash n (as ++ bs) = run hash (run hash n as) bs :=
  List.foldl_append

/-- What happens to the packets of a run of arrivals, one verdict for each. -/
def verdicts (n : LbNode bits) : List Arrival → List (Bool × PacketMeta)
  | [] => []
  | a :: as => (arrive hash n a).2 :: verdicts (arrive hash n a).1 as

/-- The packets of a burst, as arrivals. -/
def arrivals (pool : Option BackendPool) (nowMs : UInt32) (burst : List PacketMeta) :
    List Arrival :=
  burst.map fun m => ⟨pool, nowMs, m⟩

private theorem handleBurst_eq (n : LbNode bits) {pool : BackendPool} (h : pool.activeCount ≠ 0)
    (nowMs : UInt32) (burst : List PacketMeta) :
    handleBurst hash pool nowMs n burst =
      (run hash n (arrivals (some pool) nowMs burst),
        verdicts hash n (arrivals (some pool) nowMs burst)) := by
  have husable (m : PacketMeta) : (⟨some pool, nowMs, m⟩ : Arrival).usable = some pool :=
    Arrival.usable_eq_some.mpr ⟨rfl, h⟩
  induction burst generalizing n with
  | nil => rfl
  | cons m burst ih =>
    simp only [handleBurst, arrivals, List.map_cons, run_cons, verdicts, arrive, husable]
    rw [ih]
    rfl

private theorem run_eq_of_unusable (n : LbNode bits) {pool : Option BackendPool} {nowMs : UInt32}
    (h : ∀ m, (⟨pool, nowMs, m⟩ : Arrival).usable = none) (burst : List PacketMeta) :
    run hash n (arrivals pool nowMs burst) = n ∧
      verdicts hash n (arrivals pool nowMs burst) = burst.map fun m => (false, m) := by
  induction burst with
  | nil => exact ⟨rfl, rfl⟩
  | cons m burst ih =>
    simp only [arrivals, List.map_cons, run_cons, verdicts, arrive, h m]
    exact ⟨ih.1, congrArg _ ih.2⟩

/-- `Process` runs the packets of its burst one after the other. -/
theorem process_eq (n : LbNode bits) (activeFlows : ℕ) (pool : Option BackendPool) (nowMs : UInt32)
    (burst : List PacketMeta) :
    (process hash n activeFlows pool nowMs burst).1 = run hash n (arrivals pool nowMs burst) ∧
      (process hash n activeFlows pool nowMs burst).2.2 =
        verdicts hash n (arrivals pool nowMs burst) := by
  have hdrop (h : ∀ m, (⟨pool, nowMs, m⟩ : Arrival).usable = none) :=
    run_eq_of_unusable hash n h burst
  cases pool with
  | none =>
    obtain ⟨hrun, hverdicts⟩ := hdrop fun m => rfl
    exact ⟨hrun.symm, hverdicts.symm⟩
  | some pool =>
    by_cases h : pool.activeCount = 0
    · obtain ⟨hrun, hverdicts⟩ := hdrop fun m => by
        simp only [Arrival.usable, Option.filter_some, h, ne_eq, not_true_eq_false, decide_false,
          Bool.false_eq_true, if_false]
      rw [process, if_pos h, hrun, hverdicts]
      exact ⟨rfl, rfl⟩
    · rw [process, if_neg h, handleBurst_eq hash n h]
      exact ⟨rfl, rfl⟩

end LbNode

end Cerebellum
