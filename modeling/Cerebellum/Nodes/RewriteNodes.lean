import Cerebellum.Net.Frame

/-!
# The rewriting nodes

`DnatNode` (`nodes/dnat_node.cpp`) overwrites the addresses and ports of a frame with the
translation in its metadata and recomputes the checksums; `EtherRewriteNode`
(`nodes/ether_rewrite_node.cpp`) overwrites the two MAC addresses. The checksums are computed by the
packet library, from the frame and the position of the transport header; nothing here depends on
their values.

When the header length field is at least five, the transport header starts behind the addresses, and
the rewritten frame carries exactly the intended addresses and ports. Otherwise the assignments
overlap.

## Main definitions

* `Cerebellum.DnatNode.rewrite`, `Cerebellum.EtherRewriteNode.rewrite`.
* `Cerebellum.Frame.Carries`: the addresses, ports and MAC addresses of a frame.

## Main results

* `Cerebellum.carries_rewrite_of_forward`, `Cerebellum.carries_rewrite_of_reverse`: the two nodes
  together put the intended values into a frame.
-/

open Bytes

namespace Cerebellum

/-- `rte_ipv4_cksum` and `rte_ipv4_udptcp_cksum`, as functions of the frame and of the position of
the transport header. -/
structure Checksums where
  ipv4Cksum : Frame → UInt16
  ipv4UdptcpCksum : Frame → ℕ → UInt16

namespace DnatNode

/-- `SetPorts`: the ports are at the same place in both transport headers. -/
def setPorts (f : Frame) (l4Off : ℕ) (srcPort dstPort : UInt16) : Frame :=
  (f.set16 l4Off srcPort).set16 (l4Off + 2) dstPort

/-- `FixChecksums`. -/
def fixChecksums (cks : Checksums) (f : Frame) (proto : UInt8) (l4Off : ℕ) : Frame :=
  let f := f.set16 Frame.hdrChecksumOff 0
  let f := f.set16 Frame.hdrChecksumOff (cks.ipv4Cksum f)
  let f := f.set16 (Frame.l4CksumOff l4Off proto) 0
  f.set16 (Frame.l4CksumOff l4Off proto) (cks.ipv4UdptcpCksum f l4Off)

/-- The assignments to the two addresses and ports. -/
def setAddrs (f : Frame) (l4Off : ℕ) (srcIp dstIp : UInt32) (srcPort dstPort : UInt16) : Frame :=
  setPorts ((f.set32 26 srcIp).set32 30 dstIp) l4Off srcPort dstPort

/-- `DnatNode::Rewrite`. -/
def rewrite (cfg : Config) (cks : Checksums) (mbuf : Mbuf) : Mbuf :=
  let f := mbuf.frame
  let l4Off := f.l4Off
  let m := mbuf.priv
  let f :=
    match m.dir with
    | .forward => setAddrs f l4Off cfg.selfIp m.backendIp m.snatPort m.backendPort
    | .reverse => setAddrs f l4Off cfg.vip m.clientIp cfg.vipPort m.clientPort
  { mbuf with frame := fixChecksums cks f m.proto l4Off }

end DnatNode

/-- What `EtherRewriteNode::Process` does to a packet. -/
def EtherRewriteNode.rewrite (cfg : Config) (mbuf : Mbuf) : Mbuf :=
  let dstMac :=
    match mbuf.priv.dir with
    | .forward => mbuf.priv.backendMac
    | .reverse => mbuf.priv.clientMac
  { mbuf with frame := blit (blit mbuf.frame 0 dstMac.bytes) 6 cfg.selfMac.bytes }

namespace Frame

/-- The frame has the given addresses, ports and MAC addresses. -/
structure Carries (f : Frame) (srcIp dstIp : UInt32) (srcPort dstPort : UInt16)
    (srcMac dstMac : MacAddr) : Prop where
  srcAddr : f.srcAddr = srcIp
  dstAddr : f.dstAddr = dstIp
  srcPort : f.srcPort = srcPort
  dstPort : f.dstPort = dstPort
  srcMac : f.srcMac = srcMac
  dstMac : f.dstMac = dstMac

end Frame

namespace DnatNode

variable {f : Frame} {l4Off i : ℕ}

theorem fixChecksums_of_notMem (cks : Checksums) (proto : UInt8) (hip : i < 24 ∨ 26 ≤ i)
    (hl4 : i < Frame.l4CksumOff l4Off proto ∨ Frame.l4CksumOff l4Off proto + 2 ≤ i) :
    fixChecksums cks f proto l4Off i = f i := by
  rw [fixChecksums, Frame.hdrChecksumOff, Frame.set16_of_notMem _ hl4, Frame.set16_of_notMem _ hl4,
    Frame.set16_of_notMem _ hip, Frame.set16_of_notMem _ hip]

theorem le_l4CksumOff (l4Off : ℕ) (proto : UInt8) : l4Off + 6 ≤ Frame.l4CksumOff l4Off proto := by
  rw [Frame.l4CksumOff]
  split_ifs <;> omega

/-- The checksums lie outside the bytes from the addresses to the ports. -/
theorem fixChecksums_of_lt (cks : Checksums) (proto : UInt8) (hip : i < 24 ∨ 26 ≤ i)
    (hl4 : i < l4Off + 4) : fixChecksums cks f proto l4Off i = f i :=
  fixChecksums_of_notMem cks proto hip (by have := le_l4CksumOff l4Off proto; omega)

/-- With a header of at least 20 bytes, the frame is rewritten to the intended addresses and ports;
the bytes before the IPv4 checksum stay as they are. -/
theorem rewritten_fields (cks : Checksums) (proto : UInt8) (h : 34 ≤ l4Off)
    (srcIp dstIp : UInt32) (srcPort dstPort : UInt16) :
    let g := fixChecksums cks (setAddrs f l4Off srcIp dstIp srcPort dstPort) proto l4Off
    g.be32 26 = srcIp ∧ g.be32 30 = dstIp ∧ g.be16 l4Off = srcPort ∧
      g.be16 (l4Off + 2) = dstPort ∧ ∀ i < 24, g i = f i := by
  intro g
  have hg (i : ℕ) (hi : i < 24 ∨ 26 ≤ i) (hl4 : i < l4Off + 4) :
      g i = setAddrs f l4Off srcIp dstIp srcPort dstPort i := fixChecksums_of_lt cks proto hi hl4
  refine ⟨?_, ?_, ?_, ?_, fun i hi => ?_⟩
  · rw [← Frame.be32_set32_self f 26 srcIp]
    refine Frame.be32_congr fun i hi hi' => ?_
    rw [hg i (by omega) (by omega), setAddrs, setPorts, Frame.set16_of_notMem _ (by omega),
      Frame.set16_of_notMem _ (by omega), Frame.set32_of_notMem _ (by omega)]
  · rw [← Frame.be32_set32_self (f.set32 26 srcIp) 30 dstIp]
    refine Frame.be32_congr fun i hi hi' => ?_
    rw [hg i (by omega) (by omega), setAddrs, setPorts, Frame.set16_of_notMem _ (by omega),
      Frame.set16_of_notMem _ (by omega)]
  · rw [← Frame.be16_set16_self ((f.set32 26 srcIp).set32 30 dstIp) l4Off srcPort]
    refine Frame.be16_congr fun i hi hi' => ?_
    rw [hg i (by omega) (by omega), setAddrs, setPorts, Frame.set16_of_notMem _ (by omega)]
  · rw [← Frame.be16_set16_self (((f.set32 26 srcIp).set32 30 dstIp).set16 l4Off srcPort)
      (l4Off + 2) dstPort]
    refine Frame.be16_congr fun i hi hi' => ?_
    rw [hg i (by omega) (by omega), setAddrs, setPorts]
  · rw [hg i (by omega) (by omega), setAddrs, setPorts, Frame.set16_of_notMem _ (by omega),
      Frame.set16_of_notMem _ (by omega), Frame.set32_of_notMem _ (by omega),
      Frame.set32_of_notMem _ (by omega)]

end DnatNode

/-- The MAC addresses are overwritten, and nothing behind them. -/
theorem EtherRewriteNode.carries_blit {g : Frame} {srcIp dstIp : UInt32} {srcPort dstPort : UInt16}
    (srcMac dstMac : MacAddr) (hsrc : g.srcAddr = srcIp) (hdst : g.dstAddr = dstIp)
    (hsport : g.srcPort = srcPort) (hdport : g.dstPort = dstPort) :
    Frame.Carries (blit (blit g 0 dstMac.bytes) 6 srcMac.bytes) srcIp dstIp srcPort dstPort
      srcMac dstMac := by
  have hrest (i : ℕ) (hi : 12 ≤ i) : blit (blit g 0 dstMac.bytes) 6 srcMac.bytes i = g i := by
    rw [blit_of_notMem _ (by omega), blit_of_notMem _ (by omega)]
  have hl4 : Frame.l4Off (blit (blit g 0 dstMac.bytes) 6 srcMac.bytes) = g.l4Off := by
    rw [Frame.l4Off, Frame.l4Off, Frame.hdrLen, Frame.hdrLen, hrest 14 (by omega)]
  have hbehind : 14 ≤ g.l4Off := by
    rw [Frame.l4Off]
    omega
  refine ⟨?_, ?_, ?_, ?_, ?_, ?_⟩
  · exact (Frame.be32_congr fun i hi _ => hrest i (by omega)).trans hsrc
  · exact (Frame.be32_congr fun i hi _ => hrest i (by omega)).trans hdst
  · rw [Frame.srcPort, hl4, ← hsport]
    exact Frame.be16_congr fun i hi _ => hrest i (by omega)
  · rw [Frame.dstPort, hl4, ← hdport]
    exact Frame.be16_congr fun i hi _ => hrest i (by omega)
  · rw [Frame.srcMac, readBytes_blit]
  · rw [Frame.dstMac, readBytes_congr fun i _ hi => blit_of_notMem _ (by omega), readBytes_blit]

theorem carries_rewritten {f : Frame} (h : 20 ≤ f.hdrLen) (cks : Checksums) (proto : UInt8)
    (srcIp dstIp : UInt32) (srcPort dstPort : UInt16) (srcMac dstMac : MacAddr) :
    Frame.Carries (blit (blit (DnatNode.fixChecksums cks (DnatNode.setAddrs f f.l4Off srcIp dstIp
      srcPort dstPort) proto f.l4Off) 0 dstMac.bytes) 6 srcMac.bytes)
      srcIp dstIp srcPort dstPort srcMac dstMac := by
  have hl4 : 34 ≤ f.l4Off := by
    rw [Frame.l4Off]
    omega
  obtain ⟨hsrc, hdst, hsport, hdport, hlow⟩ := DnatNode.rewritten_fields (f := f) cks proto hl4
    srcIp dstIp srcPort dstPort
  have hsame : Frame.l4Off (DnatNode.fixChecksums cks (DnatNode.setAddrs f f.l4Off srcIp dstIp
      srcPort dstPort) proto f.l4Off) = f.l4Off := by
    rw [Frame.l4Off, Frame.hdrLen, hlow 14 (by omega)]
    rfl
  refine EtherRewriteNode.carries_blit srcMac dstMac hsrc hdst ?_ ?_
  · rw [Frame.srcPort, hsame]
    exact hsport
  · rw [Frame.dstPort, hsame]
    exact hdport

variable {mbuf : Mbuf} (cfg : Config) (cks : Checksums)

/-- The two nodes together send a forward packet from the own address and the source port to the
backend, if the length field of its IPv4 header is at least five words. -/
theorem carries_rewrite_of_forward (hdir : mbuf.priv.dir = .forward)
    (h : 20 ≤ mbuf.frame.hdrLen) :
    (EtherRewriteNode.rewrite cfg (DnatNode.rewrite cfg cks mbuf)).frame.Carries cfg.selfIp
      mbuf.priv.backendIp mbuf.priv.snatPort mbuf.priv.backendPort cfg.selfMac
      mbuf.priv.backendMac := by
  simp only [EtherRewriteNode.rewrite, DnatNode.rewrite, hdir]
  exact carries_rewritten h ..

/-- The two nodes together send a reverse packet from the virtual service to the client, if the
length field of its IPv4 header is at least five words. -/
theorem carries_rewrite_of_reverse (hdir : mbuf.priv.dir = .reverse)
    (h : 20 ≤ mbuf.frame.hdrLen) :
    (EtherRewriteNode.rewrite cfg (DnatNode.rewrite cfg cks mbuf)).frame.Carries cfg.vip
      mbuf.priv.clientIp cfg.vipPort mbuf.priv.clientPort cfg.selfMac mbuf.priv.clientMac := by
  simp only [EtherRewriteNode.rewrite, DnatNode.rewrite, hdir]
  exact carries_rewritten h ..

end Cerebellum
