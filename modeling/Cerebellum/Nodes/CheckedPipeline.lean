import Cerebellum.Lib.CheckedBytes
import Cerebellum.Nodes.GraphNodes
import Cerebellum.Nodes.Pipeline

/-!
# The pipeline on frames that end

The nodes compute the places of the header fields from the fields of the frame, and none of them
looks at the length of the frame. Here a frame is a byte string, and an access behind its end is an
error. The nodes are translated once more, access by access; the checksum of the transport header
covers the total length of the packet less the length of its header.

A frame that is as long as the headers it announces is handled without an error. Apart from the
parse node, which needs the headers of every frame of its kind, the length that is needed depends on
how far the frame gets: an answer to an ARP request needs the whole request, and a frame that the
load balancer sends on needs its transport header and all bytes of its total length.

## Main definitions

* `Cerebellum.Ip4ParseNode.classify?`, `Cerebellum.ArpNode.buildReply?`,
  `Cerebellum.DnatNode.rewrite?`, `Cerebellum.EtherRewriteNode.rewrite?`: the nodes on byte strings.
* `Cerebellum.Pipeline.handle?`: the way of one frame through the graph.
* `Cerebellum.Frame.Complete`: the frame contains its headers.
* `Cerebellum.Pipeline.Fits`: the frame is long enough for the accesses that are made.

## Main results

* `Cerebellum.Ip4ParseNode.classify?_eq`, `Cerebellum.ArpNode.buildReply?_eq`.
* `Cerebellum.Pipeline.stays_inside_iff_fits`: when the pipeline stays inside a frame.
-/

open Bytes

namespace Cerebellum

namespace Frame

/-- `rte_be_to_cpu_16` of the field at `off`. -/
def be16? (f : List UInt8) (off : ℕ) : Option UInt16 := read? f off 2 (be16 · off)

/-- `rte_be_to_cpu_32` of the field at `off`. -/
def be32? (f : List UInt8) (off : ℕ) : Option UInt32 := read? f off 4 (be32 · off)

/-- Assign `rte_cpu_to_be_16(v)` to the field at `off`. -/
def set16? (f : List UInt8) (off : ℕ) (v : UInt16) : Option (List UInt8) :=
  write? f off 2 (set16 · off v)

/-- Assign `rte_cpu_to_be_32(v)` to the field at `off`. -/
def set32? (f : List UInt8) (off : ℕ) (v : UInt32) : Option (List UInt8) :=
  write? f off 4 (set32 · off v)

/-- Copy `k` bytes to `off`. -/
def blit? (f : List UInt8) (off : ℕ) {k : ℕ} (bytes : Fin k → UInt8) : Option (List UInt8) :=
  write? f off k (blit · off bytes)

/-- `ip4->total_length`. -/
def totalLength (f : Frame) : ℕ := (f.be16 16).toNat

end Frame

/-! ### The nodes -/

open Frame

namespace Ip4ParseNode

/-- `ReadTcpFlags`. -/
def readTcpFlags? (f : List UInt8) (proto : UInt8) (l4Off : ℕ) : Option UInt8 :=
  if proto ≠ ipprotoTcp then some 0 else read? f (l4Off + 13) 1 (· (l4Off + 13))

/-- The metadata that `ClassifyIpv4` fills in for a TCP or UDP packet. -/
def parsedMeta? (f : List UInt8) (proto : UInt8) : Option PacketMeta := do
  let l4Off ← read? f 14 1 l4Off
  let srcPort ← be16? f l4Off
  let dstPort ← be16? f (l4Off + 2)
  let srcIp ← be32? f 26
  let dstIp ← be32? f 30
  let tcpFlags ← readTcpFlags? f proto l4Off
  let clientMac ← read? f 6 6 srcMac
  some { srcIp, dstIp, srcPort, dstPort, proto, dir := .forward, tcpFlags, clientMac }

/-- The output for a TCP or UDP packet. -/
def directionOf (cfg : Config) (m : PacketMeta) : PacketMeta × Next :=
  if m.dstIp = cfg.vip ∧ m.dstPort = cfg.vipPort then ({ m with dir := .forward }, .fwd)
  else if m.dstIp = cfg.selfIp then ({ m with dir := .reverse }, .rev)
  else (m, .drop)

/-- `Ip4ParseNode::ClassifyIpv4`. -/
def classifyIpv4? (cfg : Config) (priv : PacketMeta) (f : List UInt8) :
    Option (PacketMeta × Next) := do
  let proto ← read? f 23 1 nextProtoId
  if proto ≠ ipprotoTcp ∧ proto ≠ ipprotoUdp then some (priv, .drop)
  else (parsedMeta? f proto).map (directionOf cfg)

/-- `Ip4ParseNode::Classify`. -/
def classify? (cfg : Config) (priv : PacketMeta) (f : List UInt8) :
    Option (PacketMeta × Next) := do
  let etherType ← be16? f 12
  if etherType = etherTypeArp then some (priv, .arp)
  else if etherType ≠ etherTypeIpv4 then some (priv, .drop)
  else classifyIpv4? cfg priv f

end Ip4ParseNode

/-- The assignments of `ArpNode::BuildReply` that turn a request into a reply. -/
def ArpNode.makeReply? (cfg : Config) (target : UInt32) (f : List UInt8) : Option (List UInt8) := do
  let srcMac ← read? f 6 6 (readBytes · 6 6)
  let f ← blit? f 0 srcMac
  let f ← blit? f 6 cfg.selfMac.bytes
  let f ← set16? f 20 2
  let sha ← read? f 22 6 (readBytes · 22 6)
  let f ← blit? f 32 sha
  let sip ← read? f 28 4 (readBytes · 28 4)
  let f ← blit? f 38 sip
  let f ← blit? f 22 cfg.selfMac.bytes
  set32? f 28 target

/-- `ArpNode::BuildReply`: the reply, if there is one. -/
def ArpNode.buildReply? (cfg : Config) (f : List UInt8) : Option (Option (List UInt8)) := do
  let opcode ← be16? f 20
  if opcode ≠ 1 then some none
  else do
    let target ← be32? f 38
    if target ≠ cfg.selfIp ∧ target ≠ cfg.vip then some none
    else (makeReply? cfg target f).map some

/-- `rte_ipv4_cksum`, which reads the IPv4 header. -/
def ipv4Cksum? (cks : Checksums) (f : List UInt8) : Option UInt16 := do
  let hdrLen ← read? f 14 1 hdrLen
  read? f 14 hdrLen cks.ipv4Cksum

/-- `rte_ipv4_udptcp_cksum`, which reads the IPv4 header and the bytes of the total length behind
it. -/
def ipv4UdptcpCksum? (cks : Checksums) (f : List UInt8) (l4Off : ℕ) : Option UInt16 := do
  let hdrLen ← read? f 14 20 hdrLen
  let totalLength ← read? f 16 2 totalLength
  read? f l4Off (totalLength - hdrLen) (cks.ipv4UdptcpCksum · l4Off)

namespace DnatNode

/-- The assignments to the two addresses and ports. -/
def setAddrs? (f : List UInt8) (l4Off : ℕ) (srcIp dstIp : UInt32) (srcPort dstPort : UInt16) :
    Option (List UInt8) := do
  let f ← set32? f 26 srcIp
  let f ← set32? f 30 dstIp
  let f ← set16? f l4Off srcPort
  set16? f (l4Off + 2) dstPort

/-- The part of `FixChecksums` for the IPv4 header. -/
def fixIpv4Checksum? (cks : Checksums) (f : List UInt8) : Option (List UInt8) := do
  let f ← set16? f hdrChecksumOff 0
  let cksum ← ipv4Cksum? cks f
  set16? f hdrChecksumOff cksum

/-- The part of `FixChecksums` for the transport header. -/
def fixL4Checksum? (cks : Checksums) (f : List UInt8) (proto : UInt8) (l4Off : ℕ) :
    Option (List UInt8) := do
  let f ← set16? f (l4CksumOff l4Off proto) 0
  let cksum ← ipv4UdptcpCksum? cks f l4Off
  set16? f (l4CksumOff l4Off proto) cksum

/-- `DnatNode::Rewrite`. -/
def rewrite? (cfg : Config) (cks : Checksums) (m : PacketMeta) (f : List UInt8) :
    Option (List UInt8) := do
  let l4Off ← read? f 14 1 l4Off
  let f ←
    match m.dir with
    | .forward => setAddrs? f l4Off cfg.selfIp m.backendIp m.snatPort m.backendPort
    | .reverse => setAddrs? f l4Off cfg.vip m.clientIp cfg.vipPort m.clientPort
  let f ← fixIpv4Checksum? cks f
  fixL4Checksum? cks f m.proto l4Off

end DnatNode

/-- What `EtherRewriteNode::Process` does to a packet. -/
def EtherRewriteNode.rewrite? (cfg : Config) (m : PacketMeta) (f : List UInt8) :
    Option (List UInt8) := do
  let dstMac :=
    match m.dir with
    | .forward => m.backendMac
    | .reverse => m.clientMac
  let f ← blit? f 0 dstMac.bytes
  blit? f 6 cfg.selfMac.bytes

namespace Pipeline

/-- What becomes of a frame. -/
inductive Outcome
  | dropped
  /-- The load balancer sends the frame on, rewritten as given. -/
  | forwarded (f : List UInt8)
  /-- The frame is an ARP request, which is sent back as the given reply. -/
  | replied (f : List UInt8)

/-- The frame that the load balancer sends on, if it does. -/
def Outcome.sent : Outcome → Option (List UInt8)
  | forwarded f => some f
  | _ => none

variable {bits : ℕ} (hash : FlowKey → UInt32) (cfg : Config) (cks : Checksums)

/-- The two rewriting nodes, on a packet with its translation. -/
def rewrite? (m : PacketMeta) (f : List UInt8) : Option (List UInt8) := do
  let f ← DnatNode.rewrite? cfg cks m f
  EtherRewriteNode.rewrite? cfg m f

/-- One frame on its way through the graph: the new state and what becomes of the frame, or an
error. -/
def handle? (n : LbNode bits) (pool : Option BackendPool) (nowMs : UInt32) (priv : PacketMeta)
    (f : List UInt8) : Option (LbNode bits × Outcome) := do
  let (m, next) ← Ip4ParseNode.classify? cfg priv f
  match next with
  | .drop => some (n, .dropped)
  | .arp => (ArpNode.buildReply? cfg f).map fun reply => (n, reply.elim .dropped .replied)
  | .fwd | .rev =>
    let (n, sent, m) := LbNode.arrive hash n ⟨pool, nowMs, m⟩
    if sent then (rewrite? cfg cks m f).map fun f => (n, .forwarded f)
    else some (n, .dropped)

end Pipeline

/-! ### Checked accesses that succeed -/

namespace Frame

variable {f : List UInt8} {off k : ℕ}

theorem be16?_of_le (h : off + 2 ≤ f.length) : be16? f off = some (be16 (toMemory f) off) :=
  read?_of_le h _

theorem be32?_of_le (h : off + 4 ≤ f.length) : be32? f off = some (be32 (toMemory f) off) :=
  read?_of_le h _

variable {mem : Memory} {len : ℕ} (hlen : f.length = len) (hmem : toMemory f = mem)

include hlen hmem

theorem performs_set16? (v : UInt16) (h : off + 2 ≤ len) :
    Performs (set16? f off v) len (set16 mem off v) := by
  subst hlen hmem
  exact performs_write? h fun _ hi => set16_of_notMem v (Or.inr hi)

theorem performs_set32? (v : UInt32) (h : off + 4 ≤ len) :
    Performs (set32? f off v) len (set32 mem off v) := by
  subst hlen hmem
  exact performs_write? h fun _ hi => set32_of_notMem v (Or.inr hi)

theorem performs_blit? (bytes : Fin k → UInt8) (h : off + k ≤ len) :
    Performs (blit? f off bytes) len (blit mem off bytes) := by
  subst hlen hmem
  exact performs_write? h fun _ hi => blit_of_notMem bytes (Or.inr hi)

end Frame

/-! ### The parse node -/

namespace Ip4ParseNode

variable {cfg : Config} {priv : PacketMeta} {f : List UInt8}

theorem classifyIpv4_eq_directionOf (hproto : ¬ (nextProtoId (toMemory f) ≠ ipprotoTcp ∧
      nextProtoId (toMemory f) ≠ ipprotoUdp)) :
    classifyIpv4 cfg priv (toMemory f) = directionOf cfg (parsedMeta (toMemory f)) := by
  rw [classifyIpv4, if_neg hproto]
  rfl

/-- ARP frames, and no others, leave by the output to the ARP node. -/
theorem classify_eq_arp_iff {mbuf : Mbuf} :
    (classify cfg mbuf).2 = .arp ↔ mbuf.frame.etherType = etherTypeArp := by
  unfold classify classifyIpv4
  split_ifs with harp <;> simp [harp]

/-- What the parse node reads of the headers of a TCP or UDP packet is inside the frame. -/
def HeadersFit (f : List UInt8) : Prop :=
  34 ≤ f.length ∧ l4Off (toMemory f) + 4 ≤ f.length ∧
    (nextProtoId (toMemory f) = ipprotoTcp → l4Off (toMemory f) + 14 ≤ f.length)

theorem parsedMeta?_of_headersFit (h : HeadersFit f) :
    parsedMeta? f (nextProtoId (toMemory f)) = some (parsedMeta (toMemory f)) := by
  obtain ⟨haddrs, hports, htcp⟩ := h
  have hflags : readTcpFlags? f (nextProtoId (toMemory f)) (l4Off (toMemory f)) =
      some (readTcpFlags (toMemory f) (nextProtoId (toMemory f))) := by
    rw [readTcpFlags?, readTcpFlags]
    split_ifs with hproto
    · rfl
    · have hflags : l4Off (toMemory f) + 13 + 1 ≤ f.length := htcp (not_not.mp hproto)
      exact read?_of_le hflags _
  have hhdr : 14 + 1 ≤ f.length := by omega
  have hdst : l4Off (toMemory f) + 2 + 2 ≤ f.length := by omega
  have hsrc : l4Off (toMemory f) + 2 ≤ f.length := by omega
  have hmac : 6 + 6 ≤ f.length := by omega
  have hsrcIp : 26 + 4 ≤ f.length := by omega
  simp only [parsedMeta?, Option.bind_eq_bind, Option.bind_some, read?_of_le hhdr, be16?_of_le hsrc,
    be16?_of_le hdst, be32?_of_le hsrcIp, be32?_of_le haddrs, hflags, read?_of_le hmac]
  rfl

theorem headersFit_of_parsedMeta? {m : PacketMeta}
    (h : parsedMeta? f (nextProtoId (toMemory f)) = some m) : HeadersFit f := by
  simp only [parsedMeta?, be16?, be32?, Option.bind_eq_bind, Option.bind_eq_some_iff,
    read?_eq_some_iff] at h
  obtain ⟨_, ⟨-, rfl⟩, _, -, _, ⟨hports, -⟩, _, -, _, ⟨haddrs, -⟩, _, hflags, -⟩ := h
  refine ⟨haddrs, hports, fun htcp => ?_⟩
  rw [readTcpFlags?, if_neg (not_not.mpr htcp), read?_eq_some_iff] at hflags
  exact hflags.1

/-- What the parse node reads of a frame is inside it. -/
def Fits (f : List UInt8) : Prop :=
  14 ≤ f.length ∧ (etherType (toMemory f) = etherTypeIpv4 → 24 ≤ f.length ∧
    (nextProtoId (toMemory f) = ipprotoTcp ∨ nextProtoId (toMemory f) = ipprotoUdp →
      HeadersFit f))

theorem classify?_of_fits (cfg : Config) (priv : PacketMeta) (h : Fits f) :
    classify? cfg priv f = some (classify cfg ⟨toMemory f, priv⟩) := by
  have htype : be16? f 12 = some (etherType (toMemory f)) := be16?_of_le h.1
  rw [classify?, htype, classify]
  simp only [Option.bind_eq_bind, Option.bind_some]
  split_ifs with harp hother
  · rfl
  · rfl
  · obtain ⟨hlength, hheaders⟩ := h.2 (not_not.mp hother)
    rw [classifyIpv4?, read?_of_le hlength, Option.bind_eq_bind, Option.bind_some]
    by_cases hproto : nextProtoId (toMemory f) ≠ ipprotoTcp ∧ nextProtoId (toMemory f) ≠ ipprotoUdp
    · rw [if_pos hproto, classifyIpv4, if_pos hproto]
    · rw [if_neg hproto, classifyIpv4_eq_directionOf hproto,
        parsedMeta?_of_headersFit (hheaders (by tauto)), Option.map_some]

theorem fits_of_classify? {r : PacketMeta × Next} (h : classify? cfg priv f = some r) : Fits f := by
  simp only [classify?, be16?, Option.bind_eq_bind, Option.bind_eq_some_iff,
    read?_eq_some_iff] at h
  obtain ⟨_, ⟨hlength, rfl⟩, hrest⟩ := h
  refine ⟨hlength, fun hip => ?_⟩
  change be16 (toMemory f) 12 = etherTypeIpv4 at hip
  have harp : ¬ be16 (toMemory f) 12 = etherTypeArp := by
    rw [hip]
    decide
  rw [if_neg harp, if_neg (not_not.mpr hip), classifyIpv4?, Option.bind_eq_bind,
    Option.bind_eq_some_iff] at hrest
  obtain ⟨_, hread, hrest⟩ := hrest
  obtain ⟨hproto, rfl⟩ := read?_eq_some_iff.mp hread
  refine ⟨hproto, fun hknown => ?_⟩
  rw [if_neg (by tauto), Option.map_eq_some_iff] at hrest
  obtain ⟨m, hm, -⟩ := hrest
  exact headersFit_of_parsedMeta? hm

end Ip4ParseNode

/-! ### The answers to ARP requests -/

namespace ArpNode

variable {cfg : Config} {f : List UInt8}

/-- What `BuildReply` accesses is inside the frame. -/
def Fits (f : List UInt8) : Prop :=
  22 ≤ f.length ∧ (be16 (toMemory f) 20 = 1 → 42 ≤ f.length)

/-- The reply is made inside the request. -/
theorem performs_makeReply? (h : 42 ≤ f.length) {g : Frame}
    (hreply : buildReply cfg (toMemory f) = some g) :
    Performs (makeReply? cfg (be32 (toMemory f) 38) f) f.length g := by
  rw [buildReply] at hreply
  split_ifs at hreply
  obtain rfl := Option.some.inj hreply
  have hsrc : 6 + 6 ≤ f.length := by omega
  have hsha : 22 + 6 ≤ f.length := by omega
  have hsip : 28 + 4 ≤ f.length := by omega
  refine performs_read?_bind rfl rfl hsrc ?_
  refine (performs_blit? rfl rfl _ (by omega)).bind fun f₁ hlen₁ hmem₁ => ?_
  refine (performs_blit? hlen₁ hmem₁ _ hsrc).bind fun f₂ hlen₂ hmem₂ => ?_
  refine (performs_set16? hlen₂ hmem₂ _ (by omega)).bind fun f₃ hlen₃ hmem₃ => ?_
  refine performs_read?_bind hlen₃ hmem₃ hsha ?_
  refine (performs_blit? hlen₃ hmem₃ _ (by omega)).bind fun f₄ hlen₄ hmem₄ => ?_
  refine performs_read?_bind hlen₄ hmem₄ hsip ?_
  refine (performs_blit? hlen₄ hmem₄ _ h).bind fun f₅ hlen₅ hmem₅ => ?_
  refine (performs_blit? hlen₅ hmem₅ _ hsha).bind fun f₆ hlen₆ hmem₆ => ?_
  exact performs_set32? hlen₆ hmem₆ _ hsip

theorem buildReply?_of_fits (cfg : Config) (h : Fits f) :
    ∃ reply, buildReply? cfg f = some reply ∧
      reply.map toMemory = buildReply cfg (toMemory f) := by
  rw [buildReply?, be16?_of_le h.1]
  simp only [Option.bind_eq_bind, Option.bind_some]
  by_cases hop : be16 (toMemory f) 20 = 1
  · have hlength := h.2 hop
    rw [if_neg (not_not.mpr hop), be32?_of_le (by omega), Option.bind_some]
    by_cases htarget : be32 (toMemory f) 38 ≠ cfg.selfIp ∧ be32 (toMemory f) 38 ≠ cfg.vip
    · refine ⟨none, if_pos htarget, ?_⟩
      rw [buildReply, if_neg (not_not.mpr hop), if_pos htarget]
      rfl
    · rw [if_neg htarget]
      obtain ⟨g, hg⟩ : ∃ g, buildReply cfg (toMemory f) = some g := by
        rw [buildReply, if_neg (not_not.mpr hop), if_neg htarget]
        exact ⟨_, rfl⟩
      obtain ⟨reply, hreply, -, hmem⟩ := performs_makeReply? hlength hg
      exact ⟨some reply, by rw [hreply, Option.map_some], by rw [hg, Option.map_some, hmem]⟩
  · refine ⟨none, if_pos hop, ?_⟩
    rw [buildReply, if_pos hop]
    rfl

theorem fits_of_buildReply? {reply : Option (List UInt8)}
    (h : buildReply? cfg f = some reply) : Fits f := by
  simp only [buildReply?, be16?, be32?, Option.bind_eq_bind, Option.bind_eq_some_iff,
    read?_eq_some_iff] at h
  obtain ⟨_, ⟨hlength, rfl⟩, hrest⟩ := h
  refine ⟨hlength, fun hop => ?_⟩
  rw [if_neg (not_not.mpr hop)] at hrest
  simp only [Option.bind_eq_some_iff, read?_eq_some_iff] at hrest
  obtain ⟨_, ⟨hlength', -⟩, -⟩ := hrest
  exact hlength'

end ArpNode

/-! ### The rewriting nodes -/

/-- The frame contains a complete Ethernet header, an IPv4 header of at least five words, and a
complete TCP or UDP header behind it. -/
structure Frame.Complete (f : List UInt8) : Prop where
  ipv4 : etherType (toMemory f) = etherTypeIpv4
  proto : nextProtoId (toMemory f) = ipprotoTcp ∨ nextProtoId (toMemory f) = ipprotoUdp
  hdrLen : 20 ≤ hdrLen (toMemory f)
  length : l4Off (toMemory f) + (if nextProtoId (toMemory f) = ipprotoTcp then 20 else 8) ≤ f.length

namespace DnatNode

variable {cfg : Config} {cks : Checksums} {f : List UInt8} {mem : Memory} {len l4Off : ℕ}

theorem performs_setAddrs? (hlen : f.length = len) (hmem : toMemory f = mem) (haddrs : 34 ≤ len)
    (hports : l4Off + 4 ≤ len) (srcIp dstIp : UInt32) (srcPort dstPort : UInt16) :
    Performs (setAddrs? f l4Off srcIp dstIp srcPort dstPort) len
      (setAddrs mem l4Off srcIp dstIp srcPort dstPort) := by
  refine (performs_set32? hlen hmem _ (by omega)).bind fun f₁ hlen₁ hmem₁ => ?_
  refine (performs_set32? hlen₁ hmem₁ _ haddrs).bind fun f₂ hlen₂ hmem₂ => ?_
  refine (performs_set16? hlen₂ hmem₂ _ (by omega)).bind fun f₃ hlen₃ hmem₃ => ?_
  exact performs_set16? hlen₃ hmem₃ _ hports

/-- The first two assignments of `FixChecksums`. -/
def fixIpv4Checksum (cks : Checksums) (f : Frame) : Frame :=
  (f.set16 hdrChecksumOff 0).set16 hdrChecksumOff (cks.ipv4Cksum (f.set16 hdrChecksumOff 0))

/-- The last two assignments of `FixChecksums`. -/
def fixL4Checksum (cks : Checksums) (f : Frame) (proto : UInt8) (l4Off : ℕ) : Frame :=
  (f.set16 (l4CksumOff l4Off proto) 0).set16 (l4CksumOff l4Off proto)
    (cks.ipv4UdptcpCksum (f.set16 (l4CksumOff l4Off proto) 0) l4Off)

theorem fixChecksums_eq (cks : Checksums) (f : Frame) (proto : UInt8) (l4Off : ℕ) :
    fixChecksums cks f proto l4Off = fixL4Checksum cks (fixIpv4Checksum cks f) proto l4Off := rfl

theorem performs_fixIpv4Checksum? (cks : Checksums) (hlen : f.length = len)
    (hmem : toMemory f = mem) (hcksum : 26 ≤ len) (hhdr : 14 + Frame.hdrLen mem ≤ len) :
    Performs (fixIpv4Checksum? cks f) len (fixIpv4Checksum cks mem) := by
  refine (performs_set16? hlen hmem _ hcksum).bind fun f₁ hlen₁ hmem₁ => ?_
  have hsame : Frame.hdrLen (toMemory f₁) = Frame.hdrLen mem := by
    rw [hmem₁, Frame.hdrLen, set16_of_notMem _ (by decide)]
    rfl
  have hread : ipv4Cksum? cks f₁ = some (cks.ipv4Cksum (toMemory f₁)) := by
    rw [ipv4Cksum?, read?_of_le (by omega), Option.bind_eq_bind, Option.bind_some,
      read?_of_le (by omega)]
  rw [hread, Option.bind_eq_bind, Option.bind_some, hmem₁]
  exact performs_set16? hlen₁ hmem₁ _ hcksum

/-- The IPv4 header up to its checksum stays as it is while the addresses and ports are written. -/
theorem setAddrs_of_lt (mem : Memory) (hl4 : 34 ≤ l4Off) (srcIp dstIp : UInt32)
    (srcPort dstPort : UInt16) {i : ℕ} (hi : i < 24) :
    setAddrs mem l4Off srcIp dstIp srcPort dstPort i = mem i := by
  rw [setAddrs, setPorts, set16_of_notMem _ (by omega), set16_of_notMem _ (by omega),
    set32_of_notMem _ (by omega), set32_of_notMem _ (by omega)]

theorem fixIpv4Checksum_of_lt (cks : Checksums) (mem : Memory) {i : ℕ} (hi : i < 24) :
    fixIpv4Checksum cks mem i = mem i := by
  rw [fixIpv4Checksum, hdrChecksumOff, set16_of_notMem _ (by omega), set16_of_notMem _ (by omega)]

/-- The checksum of the transport header is read and stored inside the frame if and only if the
total length of the packet ends inside it. -/
theorem fixL4Checksum?_spec (cks : Checksums) (hlen : f.length = len) (hmem : toMemory f = mem)
    (hhdr : 34 ≤ len) (hl4 : l4Off = Frame.l4Off mem) (hl4len : l4Off ≤ len) (proto : UInt8)
    (hcksum : l4CksumOff l4Off proto + 2 ≤ len) (hbehind : 20 ≤ l4CksumOff l4Off proto) :
    (14 + Frame.totalLength mem ≤ len → Performs (fixL4Checksum? cks f proto l4Off) len
        (fixL4Checksum cks mem proto l4Off)) ∧
      (len < 14 + Frame.totalLength mem → fixL4Checksum? cks f proto l4Off = none) := by
  obtain ⟨f₁, hf₁, hlen₁, hmem₁⟩ := (performs_set16? hlen hmem 0 hcksum).exists_bind fun f => do
    let cksum ← ipv4UdptcpCksum? cks f l4Off
    set16? f (l4CksumOff l4Off proto) cksum
  have hhdrLen : Frame.hdrLen (toMemory f₁) = Frame.hdrLen mem := by
    rw [hmem₁, Frame.hdrLen, set16_of_notMem _ (by omega)]
    rfl
  have htotal : Frame.totalLength (toMemory f₁) = Frame.totalLength mem := by
    rw [hmem₁, Frame.totalLength]
    exact congrArg _ (be16_congr fun i _ hi => set16_of_notMem _ (by omega))
  have hl4eq : l4Off = 14 + Frame.hdrLen mem := hl4
  have hread : ipv4UdptcpCksum? cks f₁ l4Off =
      read? f₁ l4Off (Frame.totalLength mem - Frame.hdrLen mem) (cks.ipv4UdptcpCksum · l4Off) := by
    rw [ipv4UdptcpCksum?, read?_of_le (by omega), Option.bind_eq_bind, Option.bind_some,
      read?_of_le (by omega), Option.bind_some, hhdrLen, htotal]
  rw [fixL4Checksum?, hf₁, hread]
  constructor
  · intro hfits
    rw [read?_of_le (by omega), Option.bind_eq_bind, Option.bind_some, hmem₁]
    exact performs_set16? hlen₁ hmem₁ _ hcksum
  · intro hlong
    rw [read?, if_neg (by omega)]
    rfl

/-- The translation of a complete frame stays inside it if and only if the total length of the
packet does. -/
theorem rewrite?_spec (cfg : Config) (cks : Checksums) (h : Complete f) {m : PacketMeta}
    (hproto : m.proto = nextProtoId (toMemory f)) :
    (14 + totalLength (toMemory f) ≤ f.length → Performs (rewrite? cfg cks m f) f.length
        (rewrite cfg cks ⟨toMemory f, m⟩).frame) ∧
      (f.length < 14 + totalLength (toMemory f) → rewrite? cfg cks m f = none) := by
  have hlength := h.length
  have hhdrLen := h.hdrLen
  have hl4 : Frame.l4Off (toMemory f) = 14 + Frame.hdrLen (toMemory f) := rfl
  have hcksum : l4CksumOff (Frame.l4Off (toMemory f)) m.proto + 2 ≤ f.length := by
    rw [l4CksumOff, hproto]
    split_ifs at hlength ⊢ <;> omega
  have hbehind := le_l4CksumOff (Frame.l4Off (toMemory f)) m.proto
  obtain ⟨srcIp, dstIp, srcPort, dstPort, hset?, hset⟩ : ∃ srcIp dstIp srcPort dstPort,
      rewrite? cfg cks m f = (do
        let g ← setAddrs? f (Frame.l4Off (toMemory f)) srcIp dstIp srcPort dstPort
        let g ← fixIpv4Checksum? cks g
        fixL4Checksum? cks g m.proto (Frame.l4Off (toMemory f))) ∧
      (rewrite cfg cks ⟨toMemory f, m⟩).frame =
        fixChecksums cks (setAddrs (toMemory f) (Frame.l4Off (toMemory f)) srcIp dstIp srcPort
          dstPort) m.proto (Frame.l4Off (toMemory f)) := by
    rw [rewrite?, read?_of_le (by omega)]
    cases hdir : m.dir with
    | forward => exact ⟨_, _, _, _, rfl, by simp only [rewrite, hdir]⟩
    | reverse => exact ⟨_, _, _, _, rfl, by simp only [rewrite, hdir]⟩
  have hl4' : 34 ≤ Frame.l4Off (toMemory f) := by omega
  have hports : Frame.l4Off (toMemory f) + 4 ≤ f.length := by
    split_ifs at hlength <;> omega
  -- the fields that the accesses depend on are in the part of the header that stays as it is
  have hheader (i : ℕ) (hi : i < 24) :=
    setAddrs_of_lt (toMemory f) hl4' srcIp dstIp srcPort dstPort hi
  obtain ⟨f₁, hf₁, hlen₁, hmem₁⟩ := (performs_setAddrs? rfl rfl (by omega) hports srcIp dstIp
    srcPort dstPort).exists_bind fun g => do
      let g ← fixIpv4Checksum? cks g
      fixL4Checksum? cks g m.proto (Frame.l4Off (toMemory f))
  have hhdr₁ : 14 + Frame.hdrLen (toMemory f₁) ≤ f.length := by
    rw [hmem₁, Frame.hdrLen, hheader 14 (by omega)]
    exact Nat.le_trans hl4.ge (by omega)
  obtain ⟨f₂, hf₂, hlen₂, hmem₂⟩ := (performs_fixIpv4Checksum? cks hlen₁ rfl
    (by omega) hhdr₁).exists_bind fun g =>
      fixL4Checksum? cks g m.proto (Frame.l4Off (toMemory f))
  have hsame (i : ℕ) (hi : i < 24) : toMemory f₂ i = toMemory f i := by
    rw [hmem₂, fixIpv4Checksum_of_lt cks _ hi, hmem₁, hheader i hi]
  have hl4₂ : Frame.l4Off (toMemory f) = Frame.l4Off (toMemory f₂) := by
    rw [Frame.l4Off, Frame.l4Off, Frame.hdrLen, Frame.hdrLen, hsame 14 (by omega)]
  have htotal : totalLength (toMemory f₂) = totalLength (toMemory f) :=
    congrArg UInt16.toNat (be16_congr fun i _ hi => hsame i (by omega))
  have hspec := fixL4Checksum?_spec cks hlen₂ rfl (by omega) hl4₂ (by omega) m.proto hcksum
    (by omega)
  rw [htotal, hmem₂, hmem₁] at hspec
  rw [hset?, hset, fixChecksums_eq, hf₁, hf₂]
  exact hspec

end DnatNode

theorem EtherRewriteNode.performs_rewrite? {cfg : Config} {f : List UInt8} {mem : Memory} {len : ℕ}
    (hlen : f.length = len) (hmem : toMemory f = mem) (h : 12 ≤ len) (m : PacketMeta) :
    Performs (rewrite? cfg m f) len (rewrite cfg ⟨mem, m⟩).frame := by
  refine (performs_blit? hlen hmem _ (by omega)).bind fun f₁ hlen₁ hmem₁ => ?_
  exact performs_blit? hlen₁ hmem₁ _ h

/-! ### The pipeline -/

/-- The load balancer does not change the protocol of a packet. -/
theorem LbNode.proto_arrive {bits : ℕ} (hash : FlowKey → UInt32) (n : LbNode bits) (a : Arrival) :
    (LbNode.arrive hash n a).2.2.proto = a.packet.proto := by
  cases husable : a.usable with
  | none => rw [LbNode.arrive_of_not_usable hash n husable]
  | some pool =>
    rw [LbNode.arrive_of_usable hash n husable]
    have houtcome := LbNode.handlePacket_outcome hash n pool a.nowMs a.packet
    generalize LbNode.handlePacket hash n pool a.nowMs a.packet = r at houtcome
    cases houtcome <;> rfl

namespace Pipeline

variable {bits : ℕ} (hash : FlowKey → UInt32) (cfg : Config) (cks : Checksums)

/-- The pipeline accesses only bytes of the frame, and the load balancer sends the frame on only if
it contains complete headers. -/
def StaysInside (n : LbNode bits) (pool : Option BackendPool) (nowMs : UInt32) (priv : PacketMeta)
    (f : List UInt8) : Prop :=
  ∃ n' outcome, handle? hash cfg cks n pool nowMs priv f = some (n', outcome) ∧
    ∀ g, outcome = .forwarded g → Complete f

/-- Whether the load balancer sends the frame on. -/
def sentOn (n : LbNode bits) (i : Input) : Bool :=
  (arrival cfg i).any fun a => (LbNode.arrive hash n a).2.1

/-- The frame has what its headers announce, as far as the nodes that it reaches need it. -/
structure Fits (sent : Bool) (f : List UInt8) : Prop where
  parse : Ip4ParseNode.Fits f
  arp : etherType (toMemory f) = etherTypeArp → ArpNode.Fits f
  sent : sent = true → Complete f ∧ 14 + totalLength (toMemory f) ≤ f.length

variable {hash cfg cks} {n : LbNode bits} {pool : Option BackendPool} {nowMs : UInt32}
  {priv m : PacketMeta} {f : List UInt8} {next : Ip4ParseNode.Next}

theorem sentOn_of_arrival {i : Input} {a : Arrival} (h : arrival cfg i = some a) :
    sentOn hash cfg n i = (LbNode.arrive hash n a).2.1 := by
  rw [sentOn, h, Option.any_some]

/-- The load balancer sends a frame on if and only if the pipeline emits it. -/
theorem sentOn_eq_isSome (cks : Checksums) (n : LbNode bits) (i : Input) :
    sentOn hash cfg n i = (handle hash cfg cks n i).2.isSome := by
  rw [sentOn, handle]
  cases arrival cfg i with
  | none => rfl
  | some a =>
    rw [Option.any_some]
    cases hsent : (LbNode.arrive hash n a).2.1 <;> simp [hsent]

/-- What the parse node hands to the load balancer is TCP or UDP over IPv4, with its protocol. -/
theorem of_classify_eq (h : Ip4ParseNode.classify cfg ⟨toMemory f, priv⟩ = (m, next))
    (hnext : next = .fwd ∨ next = .rev) (pool : Option BackendPool) (nowMs : UInt32) :
    etherType (toMemory f) = etherTypeIpv4 ∧ m.proto = nextProtoId (toMemory f) ∧
      arrival cfg ⟨pool, nowMs, ⟨toMemory f, priv⟩⟩ = some ⟨pool, nowMs, m⟩ := by
  rcases hnext with rfl | rfl
  · obtain ⟨hcond, rfl⟩ := Ip4ParseNode.classify_eq_fwd.mp h
    exact ⟨hcond.1, rfl, by rw [arrival, h]⟩
  · obtain ⟨hcond, rfl⟩ := Ip4ParseNode.classify_eq_rev.mp h
    exact ⟨hcond.1, rfl, by rw [arrival, h]⟩

/-- The way of a frame that the parse node hands to the load balancer. -/
theorem handle?_of_classify?_eq (h : Ip4ParseNode.classify? cfg priv f = some (m, next))
    (hnext : next = .fwd ∨ next = .rev) :
    handle? hash cfg cks n pool nowMs priv f =
      if (LbNode.arrive hash n ⟨pool, nowMs, m⟩).2.1 then
        (rewrite? cfg cks (LbNode.arrive hash n ⟨pool, nowMs, m⟩).2.2 f).map fun f =>
          ((LbNode.arrive hash n ⟨pool, nowMs, m⟩).1, .forwarded f)
      else some ((LbNode.arrive hash n ⟨pool, nowMs, m⟩).1, .dropped) := by
  rw [handle?, h]
  rcases hnext with rfl | rfl <;> rfl

/-- The rewriting nodes on a complete frame. -/
theorem rewrite?_spec (cfg : Config) (cks : Checksums) (priv : PacketMeta) (h : Complete f)
    (hproto : m.proto = nextProtoId (toMemory f)) :
    (14 + totalLength (toMemory f) ≤ f.length → Performs (rewrite? cfg cks m f) f.length
        (rewrite cfg cks ⟨toMemory f, priv⟩ m).frame) ∧
      (f.length < 14 + totalLength (toMemory f) → rewrite? cfg cks m f = none) := by
  obtain ⟨hfits, hlong⟩ := DnatNode.rewrite?_spec cfg cks h hproto
  refine ⟨fun hlength => ?_, fun hlength => ?_⟩
  · refine (hfits hlength).bind fun g hlen hmem => ?_
    exact EtherRewriteNode.performs_rewrite? hlen hmem (by have := h.length; omega) m
  · rw [rewrite?, hlong hlength]
    rfl

/-- A frame that fits is handled without an error, and as if it did not end. -/
theorem handle?_of_fits (cks : Checksums)
    (h : Fits (sentOn hash cfg n ⟨pool, nowMs, ⟨toMemory f, priv⟩⟩) f) :
    ∃ outcome, handle? hash cfg cks n pool nowMs priv f =
        some ((handle hash cfg cks n ⟨pool, nowMs, ⟨toMemory f, priv⟩⟩).1, outcome) ∧
      outcome.sent.map toMemory =
        (handle hash cfg cks n ⟨pool, nowMs, ⟨toMemory f, priv⟩⟩).2.map Mbuf.frame := by
  have hclass? := Ip4ParseNode.classify?_of_fits cfg priv h.parse
  cases hclass : Ip4ParseNode.classify cfg ⟨toMemory f, priv⟩ with
  | mk m next =>
    rw [hclass] at hclass?
    by_cases hnext : next = .fwd ∨ next = .rev
    · obtain ⟨-, hproto, harrival⟩ := of_classify_eq hclass hnext pool nowMs
      rw [handle?_of_classify?_eq hclass? hnext, handle, harrival]
      cases hsent : (LbNode.arrive hash n ⟨pool, nowMs, m⟩).2.1 with
      | false =>
        refine ⟨.dropped, if_neg Bool.false_ne_true, ?_⟩
        simp only [hsent, Bool.false_eq_true, if_false]
        rfl
      | true =>
        obtain ⟨hcomplete, hlength⟩ := h.sent ((sentOn_of_arrival harrival).trans hsent)
        obtain ⟨g, hg, -, hmem⟩ := (rewrite?_spec cfg cks priv hcomplete
          ((LbNode.proto_arrive hash n ⟨pool, nowMs, m⟩).trans hproto)).1 hlength
        refine ⟨.forwarded g, by rw [if_pos rfl, hg, Option.map_some], ?_⟩
        simp only [hsent, if_true, Option.map_some]
        exact congrArg some hmem
    · have hhandle : handle hash cfg cks n ⟨pool, nowMs, ⟨toMemory f, priv⟩⟩ = (n, none) := by
        rw [handle, arrival, hclass]
        cases next with
        | fwd => exact absurd (Or.inl rfl) hnext
        | rev => exact absurd (Or.inr rfl) hnext
        | drop => rfl
        | arp => rfl
      rw [handle?, hclass?, hhandle]
      cases next with
      | fwd => exact absurd (Or.inl rfl) hnext
      | rev => exact absurd (Or.inr rfl) hnext
      | drop => exact ⟨.dropped, rfl, rfl⟩
      | arp =>
        have harp := Ip4ParseNode.classify_eq_arp_iff.mp (congrArg Prod.snd hclass)
        obtain ⟨reply, hreply, -⟩ := ArpNode.buildReply?_of_fits cfg (h.arp harp)
        refine ⟨reply.elim .dropped .replied, ?_, ?_⟩
        · rw [Option.bind_eq_bind, Option.bind_some, hreply]
          rfl
        · cases reply <;> rfl

/-- A frame that the pipeline stays inside fits. -/
theorem fits_of_staysInside (h : StaysInside hash cfg cks n pool nowMs priv f) :
    Fits (sentOn hash cfg n ⟨pool, nowMs, ⟨toMemory f, priv⟩⟩) f := by
  obtain ⟨n', outcome, hhandle, hcomplete⟩ := h
  obtain ⟨r, hclass?, hrest⟩ := Option.bind_eq_some_iff.mp hhandle
  have hparse := Ip4ParseNode.fits_of_classify? hclass?
  obtain ⟨m, next⟩ := r
  have hclass : Ip4ParseNode.classify cfg ⟨toMemory f, priv⟩ = (m, next) :=
    Option.some.inj ((Ip4ParseNode.classify?_of_fits cfg priv hparse).symm.trans hclass?)
  refine ⟨hparse, fun harp => ?_, fun hsent => ?_⟩
  · have hnext : (Ip4ParseNode.classify cfg ⟨toMemory f, priv⟩).2 = .arp :=
      Ip4ParseNode.classify_eq_arp_iff.mpr harp
    rw [hclass] at hnext
    obtain rfl : next = .arp := hnext
    obtain ⟨reply, hreply, -⟩ := Option.map_eq_some_iff.mp hrest
    exact ArpNode.fits_of_buildReply? hreply
  · have hnext : next = .fwd ∨ next = .rev := by
      rw [sentOn, arrival, hclass] at hsent
      cases next with
      | fwd => exact Or.inl rfl
      | rev => exact Or.inr rfl
      | drop => exact absurd hsent Bool.false_ne_true
      | arp => exact absurd hsent Bool.false_ne_true
    obtain ⟨-, hproto, harrival⟩ := of_classify_eq hclass hnext pool nowMs
    rw [sentOn_of_arrival harrival] at hsent
    rw [handle?_of_classify?_eq hclass? hnext, if_pos hsent] at hhandle
    obtain ⟨g, hg, hforwarded⟩ := Option.map_eq_some_iff.mp hhandle
    have hcomplete := hcomplete g (congrArg Prod.snd hforwarded).symm
    refine ⟨hcomplete, ?_⟩
    by_contra hlong
    have hnone := (rewrite?_spec cfg cks priv hcomplete
      ((LbNode.proto_arrive hash n ⟨pool, nowMs, m⟩).trans hproto)).2 (by omega)
    exact Option.some_ne_none g (hg.symm.trans hnone)

variable (hash cfg cks)

/-- When the pipeline stays inside a frame. No node looks at the length of a frame. For every byte
string that is received as a frame, every state of the load balancer, every pool and every time: the
pipeline accesses only bytes of the frame, and the load balancer sends it on only if it contains a
complete Ethernet header, an IPv4 header of at least five words and a complete TCP or UDP header, if
and only if the frame has what the nodes that it reaches read of it: its Ethernet header; for ARP,
the opcode and, in a request, the rest of the message; for IPv4, the fields up to the protocol and,
for TCP and UDP, the addresses, the ports and the TCP flags at the place given by the header length;
and, when the load balancer sends it on, all its headers and the bytes of its total length. -/
theorem stays_inside_iff_fits (n : LbNode bits) (pool : Option BackendPool) (nowMs : UInt32)
    (priv : PacketMeta) (f : List UInt8) :
    StaysInside hash cfg cks n pool nowMs priv f ↔
      Fits (sentOn hash cfg n ⟨pool, nowMs, ⟨toMemory f, priv⟩⟩) f := by
  refine ⟨fits_of_staysInside, fun h => ?_⟩
  obtain ⟨outcome, hhandle, hsent⟩ := handle?_of_fits cks h
  refine ⟨_, outcome, hhandle, fun g hg => (h.sent ?_).1⟩
  rw [sentOn_eq_isSome cks, ← Option.isSome_map, ← hsent, hg]
  rfl

/-- A frame of 60 bytes, UDP over IPv4, whose header length field says 15 words. -/
def longHeaderFrame : List UInt8 :=
  List.replicate 12 0 ++ [0x08, 0x00, 0x4F] ++ List.replicate 8 0 ++ [ipprotoUdp] ++
    List.replicate 36 0

/-- The parse node looks for the ports of the frame behind its end. -/
theorem ports_read_behind_end :
    longHeaderFrame.length = 60 ∧
      ∀ (hash : FlowKey → UInt32) (cfg : Config) (cks : Checksums) (n : LbNode 20)
        (pool : Option BackendPool) (nowMs : UInt32),
        handle? hash cfg cks n pool nowMs {} longHeaderFrame = none ∧
          ¬ StaysInside hash cfg cks n pool nowMs {} longHeaderFrame := by
  refine ⟨rfl, fun hash cfg cks n pool nowMs => ?_⟩
  have hclass : Ip4ParseNode.classify? cfg {} longHeaderFrame = none := rfl
  have herror : handle? hash cfg cks n pool nowMs {} longHeaderFrame = none := by
    rw [handle?, hclass]
    rfl
  refine ⟨herror, ?_⟩
  rintro ⟨n', outcome, hhandle, -⟩
  exact Option.some_ne_none _ (hhandle.symm.trans herror)

end Pipeline

end Cerebellum
