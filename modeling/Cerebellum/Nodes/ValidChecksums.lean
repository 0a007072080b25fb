import Cerebellum.Lib.OnesComplement
import Cerebellum.Nodes.CheckedPipeline

/-!
# Valid checksums

Here the packet library computes the checksums of RFC 1071 (`Cerebellum.Checksums.Rfc1071`). The two
rewriting nodes then turn a frame that holds a TCP or UDP datagram into one whose checksums are
valid, and change nothing but the addresses, the ports and the checksums themselves. Each checksum
is computed while its own field is zero and after everything else that it covers was written, so
that storing it adds it to the sum.

## Main definitions

* `Cerebellum.Checksums.Rfc1071`, `Cerebellum.rfc1071Checksums`: what the packet library computes.
* `Cerebellum.Frame.HoldsDatagram`: the frames in question.
* `Cerebellum.Frame.RewrittenTo`: valid checksums, and what stays as it is.

## Main results

* `Cerebellum.DnatNode.rewrittenTo_fixChecksums`: the assignments of `DnatNode`.
* `Cerebellum.Pipeline.rewritten_frames_verify`: both nodes, behind the parse node and the load
  balancer.
-/

open Bytes OnesComplement

namespace Cerebellum

namespace Frame

/-- The length of the transport header and its payload. -/
def l4Len (f : Frame) : ℕ := f.totalLength - f.hdrLen

/-- The sum of the words of the IPv4 header. -/
def headerSum (f : Frame) : ℕ := wordSum f 14 f.hdrLen

/-- The sum of the words of the pseudo header, of the transport header and of the payload. -/
def l4Sum (f : Frame) : ℕ :=
  wordSum f 26 8 + f.nextProtoId.toNat + f.l4Len + wordSum f f.l4Off f.l4Len

/-- The frame holds a complete TCP or UDP header behind an IPv4 header of at least five words. -/
structure HoldsDatagram (f : Frame) : Prop where
  hdrLen : 20 ≤ f.hdrLen
  proto : f.nextProtoId = ipprotoTcp ∨ f.nextProtoId = ipprotoUdp
  totalLength : f.hdrLen + (if f.nextProtoId = ipprotoTcp then 20 else 8) ≤ f.totalLength

/-- The frame `g` has valid checksums; it differs from `f` in the MAC addresses, the IPv4 addresses
and checksum, the ports and the checksum of the transport header only. -/
structure RewrittenTo (f g : Frame) : Prop where
  header_verifies : Verifies g.headerSum
  l4_verifies : Verifies g.l4Sum
  udp_ne_zero : g.nextProtoId = ipprotoUdp → g.be16 (l4CksumOff g.l4Off ipprotoUdp) ≠ 0
  unchanged : ∀ i, 12 ≤ i → (i < 24 ∨ 34 ≤ i) → (i < f.l4Off ∨ f.l4Off + 4 ≤ i) →
    (i < l4CksumOff f.l4Off f.nextProtoId ∨ l4CksumOff f.l4Off f.nextProtoId + 2 ≤ i) → g i = f i

end Frame

open Frame

/-- The checksums are those of the IPv4 header and of the pseudo header with the transport segment.
For UDP, where a zero in the field means that there is no checksum, the other zero is used. -/
structure Checksums.Rfc1071 (cks : Checksums) : Prop where
  ipv4Cksum : ∀ f : Frame, (cks.ipv4Cksum f).toNat = checksum f.headerSum
  ipv4UdptcpCksum : ∀ f : Frame, f.hdrLen ≤ f.totalLength →
    (cks.ipv4UdptcpCksum f f.l4Off).toNat =
      if f.nextProtoId = ipprotoUdp ∧ checksum f.l4Sum = 0 then 0xFFFF else checksum f.l4Sum

/-- The checksums, computed as RFC 1071 says. -/
def rfc1071Checksums : Checksums where
  ipv4Cksum f := UInt16.ofNat (checksum f.headerSum)
  ipv4UdptcpCksum f l4Off :=
    if f.totalLength < f.hdrLen then 0
    else
      let sum := wordSum f 26 8 + f.nextProtoId.toNat + f.l4Len + wordSum f l4Off f.l4Len
      UInt16.ofNat (if f.nextProtoId = ipprotoUdp ∧ checksum sum = 0 then 0xFFFF else checksum sum)

theorem rfc1071_rfc1071Checksums : rfc1071Checksums.Rfc1071 where
  ipv4Cksum f := UInt16.toNat_ofNat_of_lt' (checksum_lt _)
  ipv4UdptcpCksum f h := by
    have hcksum : rfc1071Checksums.ipv4UdptcpCksum f f.l4Off = UInt16.ofNat
        (if f.nextProtoId = ipprotoUdp ∧ checksum f.l4Sum = 0 then 0xFFFF
          else checksum f.l4Sum) := by
      simp only [rfc1071Checksums, if_neg (not_lt.mpr h)]
      rfl
    rw [hcksum]
    split_ifs
    · rfl
    · exact UInt16.toNat_ofNat_of_lt' (checksum_lt _)

/-! ### What the sums depend on -/

namespace Frame

variable {f g : Frame} {off i len : ℕ}

/-- The frames have the same header length, total length and protocol. -/
structure SameShape (f g : Frame) : Prop where
  hdrLen : g.hdrLen = f.hdrLen
  totalLength : g.totalLength = f.totalLength
  nextProtoId : g.nextProtoId = f.nextProtoId

theorem sameShape_of_lt (h : ∀ i, 12 ≤ i → i < 24 → g i = f i) : SameShape f g where
  hdrLen := by rw [hdrLen, hdrLen, h 14 (by decide) (by decide)]
  totalLength := congrArg UInt16.toNat
    (be16_congr fun i hi hi' => h i (by omega) (by omega))
  nextProtoId := h 23 (by decide) (by decide)

theorem SameShape.l4Off (h : SameShape f g) : g.l4Off = f.l4Off := by
  rw [Frame.l4Off, Frame.l4Off, h.hdrLen]

theorem SameShape.l4Len (h : SameShape f g) : g.l4Len = f.l4Len := by
  rw [Frame.l4Len, Frame.l4Len, h.hdrLen, h.totalLength]

theorem SameShape.headerSum (h : SameShape f g)
    (hsame : ∀ i, 14 ≤ i → i < f.l4Off → g i = f i) : g.headerSum = f.headerSum := by
  rw [Frame.headerSum, Frame.headerSum, h.hdrLen]
  exact wordSum_congr hsame

theorem SameShape.l4Sum (h : SameShape f g) (haddrs : ∀ i, 26 ≤ i → i < 34 → g i = f i)
    (hsame : ∀ i, f.l4Off ≤ i → g i = f i) : g.l4Sum = f.l4Sum := by
  rw [Frame.l4Sum, Frame.l4Sum, h.nextProtoId, h.l4Len, h.l4Off, wordSum_congr haddrs,
    wordSum_congr fun i hi _ => hsame i hi]

/-- The value of a field that was zero is added to the sum. -/
theorem wordSum_set16_set16 (f : Frame) (off : ℕ) (hi : 2 * i + 2 ≤ len) (v : UInt16) :
    wordSum ((f.set16 (off + 2 * i) 0).set16 (off + 2 * i) v) off len =
      wordSum (f.set16 (off + 2 * i) 0) off len + v.toNat :=
  wordSum_writeBE_of_eq_zero hi v.toNat_lt (readBE_writeBE f _ 2 0)

end Frame

namespace DnatNode

variable {cks : Checksums} {f g : Frame}

/-- The checksum of the IPv4 header is computed while its field is zero. -/
theorem verifies_fixIpv4Checksum (hcks : cks.Rfc1071) (hlen : 20 ≤ f.hdrLen) :
    Verifies (fixIpv4Checksum cks f).headerSum := by
  have hzero : SameShape f (f.set16 hdrChecksumOff 0) :=
    sameShape_of_lt fun i _ hi => set16_of_notMem _ (.inl hi)
  have hshape : SameShape f (fixIpv4Checksum cks f) :=
    sameShape_of_lt fun i _ hi => fixIpv4Checksum_of_lt cks f hi
  have hsum : (fixIpv4Checksum cks f).headerSum = (f.set16 hdrChecksumOff 0).headerSum +
      (cks.ipv4Cksum (f.set16 hdrChecksumOff 0)).toNat := by
    rw [headerSum, headerSum, hshape.hdrLen, hzero.hdrLen]
    exact wordSum_set16_set16 f 14 (i := 5) (by omega) _
  rw [hsum, hcks.ipv4Cksum]
  exact verifies_add_checksum _

/-- The field of the checksum of a complete transport header is one of the words of the segment. -/
theorem exists_l4CksumOff_eq (h : f.HoldsDatagram) :
    ∃ i, l4CksumOff f.l4Off f.nextProtoId = f.l4Off + 2 * i ∧ 2 * i + 2 ≤ f.l4Len := by
  have htotal := h.totalLength
  rw [l4CksumOff, l4Len]
  split_ifs at htotal ⊢
  · exact ⟨8, rfl, by omega⟩
  · exact ⟨3, rfl, by omega⟩

theorem fixL4Checksum_of_lt (cks : Checksums) (f : Frame) (proto : UInt8) (l4Off : ℕ) {i : ℕ}
    (hi : i < l4Off + 6) : fixL4Checksum cks f proto l4Off i = f i := by
  have hoff := le_l4CksumOff l4Off proto
  rw [fixL4Checksum, set16_of_notMem _ (by omega), set16_of_notMem _ (by omega)]

/-- The checksum of the segment is computed while its field is zero, and of the addresses that are
sent. -/
theorem verifies_fixL4Checksum (hcks : cks.Rfc1071) (h : f.HoldsDatagram) :
    Verifies (fixL4Checksum cks f f.nextProtoId f.l4Off).l4Sum ∧
      (f.nextProtoId = ipprotoUdp → (fixL4Checksum cks f f.nextProtoId f.l4Off).be16
        (l4CksumOff f.l4Off f.nextProtoId) ≠ 0) := by
  have hl4 : 34 ≤ f.l4Off := by
    have := h.hdrLen
    rw [Frame.l4Off]
    omega
  have hoff := le_l4CksumOff f.l4Off f.nextProtoId
  let zeroed := f.set16 (l4CksumOff f.l4Off f.nextProtoId) 0
  let cksum := cks.ipv4UdptcpCksum zeroed f.l4Off
  have hzero : SameShape f zeroed :=
    sameShape_of_lt fun i _ hi => set16_of_notMem _ (.inl (by omega))
  have hshape : SameShape f (fixL4Checksum cks f f.nextProtoId f.l4Off) :=
    sameShape_of_lt fun i _ hi => fixL4Checksum_of_lt cks f _ _ (by omega)
  have hsum : (fixL4Checksum cks f f.nextProtoId f.l4Off).l4Sum = zeroed.l4Sum + cksum.toNat := by
    obtain ⟨i, hi, hlen⟩ := exists_l4CksumOff_eq h
    have haddrs : wordSum (fixL4Checksum cks f f.nextProtoId f.l4Off) 26 8 =
        wordSum zeroed 26 8 := wordSum_congr fun j _ hj => by
      rw [fixL4Checksum_of_lt cks f _ _ (by omega)]
      exact (set16_of_notMem _ (.inl (by omega))).symm
    have hsegment : wordSum (fixL4Checksum cks f f.nextProtoId f.l4Off) f.l4Off f.l4Len =
        wordSum zeroed f.l4Off f.l4Len + cksum.toNat := by
      simp only [fixL4Checksum, zeroed, cksum, hi]
      exact wordSum_set16_set16 f _ hlen _
    rw [l4Sum, l4Sum, hshape.nextProtoId, hshape.l4Len, hshape.l4Off, hzero.nextProtoId,
      hzero.l4Len, hzero.l4Off, haddrs, hsegment]
    exact (Nat.add_assoc _ _ _).symm
  have hcksum : cksum.toNat = if f.nextProtoId = ipprotoUdp ∧ checksum zeroed.l4Sum = 0
      then 0xFFFF else checksum zeroed.l4Sum := by
    have htotal := h.totalLength
    rw [← hzero.nextProtoId]
    have hvalue := hcks.ipv4UdptcpCksum zeroed (by rw [hzero.hdrLen, hzero.totalLength]; omega)
    rwa [hzero.l4Off] at hvalue
  have hstored : (fixL4Checksum cks f f.nextProtoId f.l4Off).be16
      (l4CksumOff f.l4Off f.nextProtoId) = cksum := be16_set16_self _ _ _
  rw [hsum, hstored, hcksum]
  refine ⟨?_, fun hudp hcksum0 => ?_⟩
  · split_ifs with hzeros
    · exact verifies_add_of_checksum_eq_zero hzeros.2
    · exact verifies_add_checksum _
  · rw [hcksum0] at hcksum
    split_ifs at hcksum with hzeros
    · exact absurd hcksum (by decide)
    · exact hzeros ⟨hudp, hcksum.symm⟩

/-- The assignments of `DnatNode` leave valid checksums and change nothing that they should not. -/
theorem rewrittenTo_fixChecksums (hcks : cks.Rfc1071) (h : f.HoldsDatagram)
    (srcIp dstIp : UInt32) (srcPort dstPort : UInt16) :
    f.RewrittenTo (fixChecksums cks (setAddrs f f.l4Off srcIp dstIp srcPort dstPort) f.nextProtoId
      f.l4Off) := by
  have hl4 : 34 ≤ f.l4Off := by
    have := h.hdrLen
    rw [Frame.l4Off]
    omega
  rw [fixChecksums_eq]
  generalize hset : setAddrs f f.l4Off srcIp dstIp srcPort dstPort = f₁
  generalize hfix : fixIpv4Checksum cks f₁ = f₂
  have hlow (i : ℕ) (hi : i < 24) : f₂ i = f i := by
    rw [← hfix, fixIpv4Checksum_of_lt cks f₁ hi, ← hset, setAddrs_of_lt f hl4 _ _ _ _ hi]
  have hshape₁ : SameShape f f₁ := sameShape_of_lt fun i _ hi => by
    rw [← hset, setAddrs_of_lt f hl4 _ _ _ _ hi]
  have hshape₂ : SameShape f f₂ := sameShape_of_lt fun i _ hi => hlow i hi
  have h₂ : f₂.HoldsDatagram := by
    refine ⟨hshape₂.hdrLen ▸ h.hdrLen, hshape₂.nextProtoId ▸ h.proto, ?_⟩
    rw [hshape₂.hdrLen, hshape₂.totalLength, hshape₂.nextProtoId]
    exact h.totalLength
  have hl4eq : f.l4Off = f₂.l4Off := hshape₂.l4Off.symm
  have hproto : f.nextProtoId = f₂.nextProtoId := hshape₂.nextProtoId.symm
  obtain ⟨hverifies, hudp⟩ := verifies_fixL4Checksum hcks h₂
  rw [← hl4eq, ← hproto] at hverifies hudp
  have hshape₃ : SameShape f₂ (fixL4Checksum cks f₂ f.nextProtoId f.l4Off) :=
    sameShape_of_lt fun i _ hi => fixL4Checksum_of_lt cks f₂ _ _ (by omega)
  have hheader : (fixL4Checksum cks f₂ f.nextProtoId f.l4Off).headerSum = f₂.headerSum :=
    hshape₃.headerSum fun i _ hi =>
      fixL4Checksum_of_lt cks f₂ _ _ (by rw [hl4eq]; omega)
  refine ⟨?_, hverifies, fun hproto' => ?_, fun i h12 hip hports hck => ?_⟩
  · rw [hheader, ← hfix]
    exact verifies_fixIpv4Checksum hcks (hshape₁.hdrLen ▸ h.hdrLen)
  · rw [hshape₃.nextProtoId, ← hproto] at hproto'
    rw [hshape₃.l4Off, ← hl4eq, ← hproto']
    exact hudp hproto'
  · rw [fixL4Checksum, set16_of_notMem _ hck, set16_of_notMem _ hck, ← hfix, fixIpv4Checksum,
      hdrChecksumOff, set16_of_notMem _ (by omega), set16_of_notMem _ (by omega), ← hset, setAddrs,
      setPorts, set16_of_notMem _ (by omega), set16_of_notMem _ (by omega),
      set32_of_notMem _ (by omega), set32_of_notMem _ (by omega)]

end DnatNode

/-- The MAC addresses are not covered by a checksum. -/
theorem Frame.RewrittenTo.blit_macs {f g : Frame} (h : f.RewrittenTo g) (dstMac srcMac : MacAddr) :
    f.RewrittenTo (blit (blit g 0 dstMac.bytes) 6 srcMac.bytes) := by
  have hrest (i : ℕ) (hi : 12 ≤ i) : blit (blit g 0 dstMac.bytes) 6 srcMac.bytes i = g i := by
    rw [blit_of_notMem _ (by omega), blit_of_notMem _ (by omega)]
  have hshape : SameShape g (blit (blit g 0 dstMac.bytes) 6 srcMac.bytes) :=
    sameShape_of_lt fun i hi _ => hrest i hi
  have hbehind : 14 ≤ g.l4Off := Nat.le_add_right _ _
  have hoff := DnatNode.le_l4CksumOff g.l4Off ipprotoUdp
  refine ⟨?_, ?_, fun hudp => ?_, fun i h12 hip hports hck => ?_⟩
  · rw [hshape.headerSum fun i hi _ => hrest i (by omega)]
    exact h.header_verifies
  · rw [hshape.l4Sum (fun i hi _ => hrest i (by omega)) fun i hi => hrest i (by omega)]
    exact h.l4_verifies
  · rw [hshape.nextProtoId] at hudp
    rw [hshape.l4Off, be16_congr fun i hi _ => hrest i (by omega)]
    exact h.udp_ne_zero hudp
  · rw [hrest i h12]
    exact h.unchanged i h12 hip hports hck

/-- Both nodes, with any metadata that has the protocol of the frame. -/
theorem rewrittenTo_rewrite {cks : Checksums} (hcks : cks.Rfc1071) (cfg : Config) {mbuf : Mbuf}
    (h : mbuf.frame.HoldsDatagram) (hproto : mbuf.priv.proto = mbuf.frame.nextProtoId) :
    mbuf.frame.RewrittenTo
      (EtherRewriteNode.rewrite cfg (DnatNode.rewrite cfg cks mbuf)).frame := by
  rw [EtherRewriteNode.rewrite]
  refine Frame.RewrittenTo.blit_macs ?_ _ _
  simp only [DnatNode.rewrite, hproto]
  cases mbuf.priv.dir with
  | forward => exact DnatNode.rewrittenTo_fixChecksums hcks h ..
  | reverse => exact DnatNode.rewrittenTo_fixChecksums hcks h ..

namespace Pipeline

/-- The parse node fills in the protocol of the frame. -/
theorem proto_of_arrival {cfg : Config} {i : Input} {a : Arrival} (h : arrival cfg i = some a) :
    a.packet.proto = i.mbuf.frame.nextProtoId := by
  obtain ⟨-, -, hclass⟩ | ⟨-, -, hclass⟩ := pool_eq_of_arrival h
  · rw [(Ip4ParseNode.classify_eq_fwd.mp hclass).2]
    rfl
  · rw [(Ip4ParseNode.classify_eq_rev.mp hclass).2]
    rfl

/-- With the checksums of RFC 1071, the two rewriting nodes turn every frame that holds a TCP or UDP
datagram into one with valid checksums and change nothing that they should not, whatever the
translation in the metadata; the metadata of a frame that comes from the parse node and the load
balancer is of this kind. -/
theorem rewritten_frames_verify {cks : Checksums} (hcks : cks.Rfc1071) (cfg : Config) :
    (∀ mbuf : Mbuf, mbuf.frame.HoldsDatagram → mbuf.priv.proto = mbuf.frame.nextProtoId →
        mbuf.frame.RewrittenTo
          (EtherRewriteNode.rewrite cfg (DnatNode.rewrite cfg cks mbuf)).frame) ∧
      ∀ (bits : ℕ) (hash : FlowKey → UInt32) (n : LbNode bits) (i : Input) (out : Mbuf),
        i.mbuf.frame.HoldsDatagram → (handle hash cfg cks n i).2 = some out →
          i.mbuf.frame.RewrittenTo out.frame := by
  refine ⟨fun mbuf h hproto => rewrittenTo_rewrite hcks cfg h hproto,
    fun bits hash n i out h hout => ?_⟩
  obtain ⟨a, pool, ha, husable, -, -, rfl⟩ := handle_eq_some hout
  have hproto := LbNode.proto_arrive hash n a
  rw [LbNode.arrive_of_usable hash n husable, proto_of_arrival ha] at hproto
  let m := (LbNode.handlePacket hash n pool a.nowMs a.packet).2.2
  exact rewrittenTo_rewrite hcks cfg (show ({ i.mbuf with priv := m } : Mbuf).frame.HoldsDatagram
    from h) hproto

private theorem holdsDatagram_udpFrame : (udpFrame 0x45).HoldsDatagram :=
  ⟨by decide +kernel, .inr (by decide +kernel), by decide +kernel⟩

/-- A UDP frame on its way to a backend. -/
theorem rewritten_frames_verify_udp :
    let m : PacketMeta := { proto := 17, backendIp := 0x0A000202, backendPort := 8080 }
    (udpFrame 0x45).RewrittenTo
      (rewrite exampleConfig rfc1071Checksums { frame := udpFrame 0x45 } m).frame := by
  intro m
  have hproto : m.proto = (udpFrame 0x45).nextProtoId := by decide +kernel
  exact (rewritten_frames_verify rfc1071_rfc1071Checksums exampleConfig).1
    { frame := udpFrame 0x45, priv := m } holdsDatagram_udpFrame hproto

end Pipeline

end Cerebellum
