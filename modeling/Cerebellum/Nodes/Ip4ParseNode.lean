import Cerebellum.Net.Frame

/-!
# Parsing and steering frames

`Ip4ParseNode` (`nodes/ip4_parse_node.cpp`) fills in the metadata of a packet and decides where it
goes: packets to the virtual service are forward packets, other packets to the load balancer's own
address are reverse packets. In the distributed set-up `ClassifyForSteer` (`lb/steering.hpp`) makes
the same decision on the IO core to find the worker: by the hash of the key for forward packets, by
the destination port for reverse packets.

## Main definitions

* `Cerebellum.Ip4ParseNode.classify`: the new metadata and the output of the parse node.
* `Cerebellum.classifyForSteer`: the class of a frame and its worker.

## Main results

* `Cerebellum.Ip4ParseNode.classify_eq_fwd`, `Cerebellum.Ip4ParseNode.classify_eq_rev`: which
  packets leave by the two outputs to the load balancer, and with which metadata.
* `Cerebellum.classifyForSteer_of_vip`, `Cerebellum.classifyForSteer_of_self`: the same packets are
  steered by the hash of their key, or by their destination port.
-/

namespace Cerebellum

/-- `RTE_ETHER_TYPE_ARP`. -/
def etherTypeArp : UInt16 := 0x0806

/-- `RTE_ETHER_TYPE_IPV4`. -/
def etherTypeIpv4 : UInt16 := 0x0800

namespace Ip4ParseNode

/-- The outputs of the node. -/
inductive Next where
  | fwd
  | rev
  | drop
  | arp
deriving DecidableEq

/-- The metadata that `ClassifyIpv4` fills in for a TCP or UDP packet; fields it does not name are
reset. -/
def parsedMeta (f : Frame) : PacketMeta where
  srcIp := f.srcAddr
  dstIp := f.dstAddr
  srcPort := f.srcPort
  dstPort := f.dstPort
  proto := f.nextProtoId
  dir := .forward
  tcpFlags := f.readTcpFlags f.nextProtoId
  clientMac := f.srcMac

/-- `Ip4ParseNode::ClassifyIpv4`. -/
def classifyIpv4 (cfg : Config) (priv : PacketMeta) (f : Frame) : PacketMeta × Next :=
  if f.nextProtoId ≠ ipprotoTcp ∧ f.nextProtoId ≠ ipprotoUdp then (priv, .drop)
  else if f.dstAddr = cfg.vip ∧ f.dstPort = cfg.vipPort then
    ({ parsedMeta f with dir := .forward }, .fwd)
  else if f.dstAddr = cfg.selfIp then ({ parsedMeta f with dir := .reverse }, .rev)
  else (parsedMeta f, .drop)

/-- `Ip4ParseNode::Classify`. -/
def classify (cfg : Config) (mbuf : Mbuf) : PacketMeta × Next :=
  if mbuf.frame.etherType = etherTypeArp then (mbuf.priv, .arp)
  else if mbuf.frame.etherType ≠ etherTypeIpv4 then (mbuf.priv, .drop)
  else classifyIpv4 cfg mbuf.priv mbuf.frame

variable {cfg : Config} {mbuf : Mbuf} {m : PacketMeta}

/-- A packet leaves by the forward output exactly when it is TCP or UDP over IPv4 to the virtual
service. -/
theorem classify_eq_fwd :
    classify cfg mbuf = (m, .fwd) ↔
      (mbuf.frame.etherType = etherTypeIpv4 ∧
        (mbuf.frame.nextProtoId = ipprotoTcp ∨ mbuf.frame.nextProtoId = ipprotoUdp) ∧
        mbuf.frame.dstAddr = cfg.vip ∧ mbuf.frame.dstPort = cfg.vipPort) ∧
      m = { parsedMeta mbuf.frame with dir := .forward } := by
  unfold classify classifyIpv4
  split_ifs with harp hip hproto hvip hself <;> grind [etherTypeArp, etherTypeIpv4]

/-- A packet leaves by the reverse output exactly when it is TCP or UDP over IPv4 to the own address
and not to the virtual service. -/
theorem classify_eq_rev :
    classify cfg mbuf = (m, .rev) ↔
      (mbuf.frame.etherType = etherTypeIpv4 ∧
        (mbuf.frame.nextProtoId = ipprotoTcp ∨ mbuf.frame.nextProtoId = ipprotoUdp) ∧
        mbuf.frame.dstAddr = cfg.selfIp ∧
        ¬ (mbuf.frame.dstAddr = cfg.vip ∧ mbuf.frame.dstPort = cfg.vipPort)) ∧
      m = { parsedMeta mbuf.frame with dir := .reverse } := by
  unfold classify classifyIpv4
  split_ifs with harp hip hproto hvip hself <;> grind [etherTypeArp, etherTypeIpv4]

end Ip4ParseNode

/-! ### Steering -/

/-- `lb::SteerClass`, with the worker of a frame that is steered. -/
inductive SteerResult where
  | steer (worker : ℕ)
  | arp
  | drop
deriving DecidableEq

/-- The key that `ClassifyForSteer` builds from the frame. -/
def Frame.flowKey (f : Frame) : FlowKey where
  srcIp := f.srcAddr
  dstIp := f.dstAddr
  srcPort := f.srcPort
  dstPort := f.dstPort
  proto := f.nextProtoId

/-- `ClassifyForSteer`. -/
def classifyForSteer (hash : FlowKey → UInt32) (cfg : Config) (nWorkers : ℕ) (f : Frame) :
    SteerResult :=
  if f.etherType = etherTypeArp then .arp
  else if f.etherType ≠ etherTypeIpv4 then .drop
  else if f.nextProtoId ≠ ipprotoTcp ∧ f.nextProtoId ≠ ipprotoUdp then .drop
  else if f.dstAddr = cfg.vip ∧ f.dstPort = cfg.vipPort then
    .steer (steerWorker hash f.flowKey nWorkers)
  else if f.dstAddr = cfg.selfIp then .steer (f.dstPort.toNat % nWorkers)
  else .drop

variable {hash : FlowKey → UInt32} {cfg : Config} {nWorkers : ℕ} {f : Frame}

/-- TCP and UDP frames to the virtual service are steered by the hash of their key. -/
theorem classifyForSteer_of_vip (hip : f.etherType = etherTypeIpv4)
    (hproto : f.nextProtoId = ipprotoTcp ∨ f.nextProtoId = ipprotoUdp)
    (hvip : f.dstAddr = cfg.vip ∧ f.dstPort = cfg.vipPort) :
    classifyForSteer hash cfg nWorkers f = .steer (steerWorker hash f.flowKey nWorkers) := by
  have harp : f.etherType ≠ etherTypeArp := hip ▸ by decide
  have hproto' : ¬ (f.nextProtoId ≠ ipprotoTcp ∧ f.nextProtoId ≠ ipprotoUdp) :=
    fun h => hproto.elim h.1 h.2
  unfold classifyForSteer
  split_ifs <;> first | contradiction | rfl

/-- Other TCP and UDP frames to the own address are steered by their destination port. -/
theorem classifyForSteer_of_self (hip : f.etherType = etherTypeIpv4)
    (hproto : f.nextProtoId = ipprotoTcp ∨ f.nextProtoId = ipprotoUdp)
    (hself : f.dstAddr = cfg.selfIp) (hvip : ¬ (f.dstAddr = cfg.vip ∧ f.dstPort = cfg.vipPort)) :
    classifyForSteer hash cfg nWorkers f = .steer (f.dstPort.toNat % nWorkers) := by
  have harp : f.etherType ≠ etherTypeArp := hip ▸ by decide
  have hproto' : ¬ (f.nextProtoId ≠ ipprotoTcp ∧ f.nextProtoId ≠ ipprotoUdp) :=
    fun h => hproto.elim h.1 h.2
  unfold classifyForSteer
  split_ifs <;> first | contradiction | rfl

end Cerebellum
