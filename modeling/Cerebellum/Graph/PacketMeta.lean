import Cerebellum.Net.FlowKey

/-!
# Packet metadata

The private area that every packet buffer carries (`graph/packet_meta.hpp`). The parse node fills it
in from the frame, the load-balancing node adds the translation, and the rewriting nodes read it.
-/

namespace Cerebellum

/-- `graph::Direction`. -/
inductive Direction where
  | forward
  | reverse
deriving DecidableEq, Inhabited

/-- `graph::PacketMeta`. -/
structure PacketMeta where
  srcIp : UInt32 := 0
  dstIp : UInt32 := 0
  srcPort : UInt16 := 0
  dstPort : UInt16 := 0
  proto : UInt8 := 0
  dir : Direction := .forward
  backendIp : UInt32 := 0
  backendMac : MacAddr := {}
  backendPort : UInt16 := 0
  snatPort : UInt16 := 0
  clientIp : UInt32 := 0
  clientMac : MacAddr := {}
  clientPort : UInt16 := 0
  tcpFlags : UInt8 := 0
deriving DecidableEq, Inhabited

/-- The flow key that `LbNode::HandlePacket` builds from the metadata of a forward packet. -/
def PacketMeta.flowKey (m : PacketMeta) : FlowKey where
  srcIp := m.srcIp
  dstIp := m.dstIp
  srcPort := m.srcPort
  dstPort := m.dstPort
  proto := m.proto

/-- The reply tuple of a reverse packet, laid out as a key. -/
def PacketMeta.replyKey (m : PacketMeta) : FlowKey where
  srcIp := m.srcIp
  srcPort := m.srcPort
  dstPort := m.dstPort
  proto := m.proto

end Cerebellum
