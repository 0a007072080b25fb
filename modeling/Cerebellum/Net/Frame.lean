import Cerebellum.Graph.PacketMeta
import Cerebellum.Lib.Bytes

/-!
# Ethernet frames

A packet buffer (`rte_mbuf`) carries the frame and the private area with the metadata. The frame is
the memory from the start of the Ethernet header on; the room of a buffer is larger than the largest
headers, so that header fields are always inside it, whatever the length of the frame.

The accessors are the fields of `rte_ether_hdr`, `rte_ipv4_hdr`, `rte_tcp_hdr` and `rte_udp_hdr`,
converted to host order. Nothing checks the header length field, so the transport header may start
before the end of the fixed part of the IPv4 header.

## Main definitions

* `Cerebellum.Mbuf`, `Cerebellum.Config`.
* `Cerebellum.Frame`: the accessors of the header fields and the assignments to them.

## Main results

* `Cerebellum.Frame.be16_set16_self`, `Cerebellum.Frame.be32_set32_self`: a field that is assigned
  is read back.
-/

open Bytes

namespace Cerebellum

/-- What the nodes read of `common::Config`. -/
structure Config where
  vip : UInt32
  vipPort : UInt16
  selfIp : UInt32
  selfMac : MacAddr := {}

/-- `IPPROTO_TCP`. -/
def ipprotoTcp : UInt8 := 6

/-- `IPPROTO_UDP`. -/
def ipprotoUdp : UInt8 := 17

/-- A frame in memory, from the Ethernet header on. -/
abbrev Frame := Memory

namespace Frame

variable (f : Frame)

/-- `rte_be_to_cpu_16` of the field at `off`. -/
def be16 (off : ℕ) : UInt16 := UInt16.ofNat (readBE f off 2)

/-- `rte_be_to_cpu_32` of the field at `off`. -/
def be32 (off : ℕ) : UInt32 := UInt32.ofNat (readBE f off 4)

/-- Assign `rte_cpu_to_be_16(v)` to the field at `off`. -/
def set16 (off : ℕ) (v : UInt16) : Frame := writeBE f off 2 v.toNat

/-- Assign `rte_cpu_to_be_32(v)` to the field at `off`. -/
def set32 (off : ℕ) (v : UInt32) : Frame := writeBE f off 4 v.toNat

/-- `eth->dst_addr`. -/
def dstMac : MacAddr := ⟨readBytes f 0 6⟩

/-- `eth->src_addr`. -/
def srcMac : MacAddr := ⟨readBytes f 6 6⟩

/-- `eth->ether_type`. -/
def etherType : UInt16 := f.be16 12

/-- `rte_ipv4_hdr_len`: four times the low half of `version_ihl`. -/
def hdrLen : ℕ := (f 14 &&& 0x0F).toNat * 4

/-- `ip4->next_proto_id`. -/
def nextProtoId : UInt8 := f 23

/-- The address of `ip4->hdr_checksum`. -/
def hdrChecksumOff : ℕ := 24

/-- `ip4->src_addr`. -/
def srcAddr : UInt32 := f.be32 26

/-- `ip4->dst_addr`. -/
def dstAddr : UInt32 := f.be32 30

/-- Where the transport header starts. -/
def l4Off : ℕ := 14 + f.hdrLen

/-- `src_port` of the transport header, at the same place for TCP and UDP. -/
def srcPort : UInt16 := f.be16 f.l4Off

/-- `dst_port` of the transport header. -/
def dstPort : UInt16 := f.be16 (f.l4Off + 2)

/-- `ReadTcpFlags`. -/
def readTcpFlags (proto : UInt8) : UInt8 :=
  if proto ≠ ipprotoTcp then 0 else f (f.l4Off + 13)

/-- Where the checksum of the transport header is. -/
def l4CksumOff (l4Off : ℕ) (proto : UInt8) : ℕ :=
  if proto = ipprotoTcp then l4Off + 16 else l4Off + 6

end Frame

/-- A packet buffer: the frame and the metadata in the private area. -/
structure Mbuf where
  frame : Frame
  priv : PacketMeta := {}

/-! ### Reading what was written -/

namespace Frame

variable {f g : Frame} {off i : ℕ}

theorem be16_set16_self (f : Frame) (off : ℕ) (v : UInt16) : (f.set16 off v).be16 off = v := by
  rw [be16, set16, readBE_writeBE, Nat.mod_eq_of_lt (show v.toNat < 256 ^ 2 from v.toNat_lt),
    UInt16.ofNat_toNat]

theorem be32_set32_self (f : Frame) (off : ℕ) (v : UInt32) : (f.set32 off v).be32 off = v := by
  rw [be32, set32, readBE_writeBE, Nat.mod_eq_of_lt (show v.toNat < 256 ^ 4 from v.toNat_lt),
    UInt32.ofNat_toNat]

theorem set16_of_notMem (v : UInt16) (h : i < off ∨ off + 2 ≤ i) : f.set16 off v i = f i :=
  writeBE_of_notMem h

theorem set32_of_notMem (v : UInt32) (h : i < off ∨ off + 4 ≤ i) : f.set32 off v i = f i :=
  writeBE_of_notMem h

theorem be16_congr (h : ∀ i, off ≤ i → i < off + 2 → f i = g i) : f.be16 off = g.be16 off := by
  rw [be16, be16, readBE_congr h]

theorem be32_congr (h : ∀ i, off ≤ i → i < off + 4 → f i = g i) : f.be32 off = g.be32 off := by
  rw [be32, be32, readBE_congr h]

end Frame

end Cerebellum
