import Cerebellum.Nodes.Drain
import Cerebellum.Nodes.Ip4ParseNode
import Cerebellum.Nodes.RewriteNodes

/-!
# The pipeline of one worker

The graph of a worker takes a burst of frames through the parse node, the load-balancing node, the
two rewriting nodes and out. `burst` is one pass over this path: the load balancer sees the forward
packets of the burst before the reverse packets. Since packets do not share buffers, a burst is the
same as handling its packets one after the other, in the order in which they reach the load
balancer (`burst_eq`), and runs of the pipeline are lists of inputs in this order.

The translation of a flow and the translation of its replies are inverse to each other: a frame of
the client leaves from the own address and the flow's source port to the backend, and a reply from
the backend to this address and port leaves from the virtual service to the client. This holds of
frames whose header length field says that the transport header starts behind the IPv4 addresses.

## Main definitions

* `Cerebellum.Pipeline.burst`, `Cerebellum.Pipeline.handle`, `Cerebellum.Pipeline.run`.
* `Cerebellum.Pipeline.AlongFlow`: the flow that a forward packet is handled along.
* `Cerebellum.Frame.SentToBackend`, `Cerebellum.Frame.SentToClient`: how frames of a flow leave.

## Main results

* `Cerebellum.Pipeline.burst_eq`: a burst is handled packet by packet.
* `Cerebellum.Pipeline.translations_inverse`: frames of a flow and their replies.
-/

namespace Cerebellum

open NatTable LbNode

/-- A frame, with the backend pool and the clock value that its burst is handled with. -/
structure Input where
  pool : Option BackendPool
  nowMs : UInt32
  mbuf : Mbuf

namespace Pipeline

variable {bits : ℕ} (hash : FlowKey → UInt32) (cfg : Config) (cks : Checksums)

/-- What the parse node passes on to the load balancer. -/
def arrival (i : Input) : Option Arrival :=
  match Ip4ParseNode.classify cfg i.mbuf with
  | (m, .fwd) => some ⟨i.pool, i.nowMs, m⟩
  | (m, .rev) => some ⟨i.pool, i.nowMs, m⟩
  | _ => none

/-- The two rewriting nodes, on a packet with its translation. -/
def rewrite (mbuf : Mbuf) (m : PacketMeta) : Mbuf :=
  EtherRewriteNode.rewrite cfg (DnatNode.rewrite cfg cks { mbuf with priv := m })

/-- One packet on its way through the pipeline: the new state, and the frame that is emitted. -/
def handle (n : LbNode bits) (i : Input) : LbNode bits × Option Mbuf :=
  match arrival cfg i with
  | none => (n, none)
  | some a =>
    let (n, sent, m) := arrive hash n a
    (n, if sent then some (rewrite cfg cks i.mbuf m) else none)

/-- The state after a list of inputs. -/
def run (n : LbNode bits) (is : List Input) : LbNode bits :=
  LbNode.run hash n (is.filterMap (arrival cfg))

/-- The frames that a list of inputs leads to, in order. -/
def emitted (n : LbNode bits) : List Input → List Mbuf
  | [] => []
  | i :: is => (handle hash cfg cks n i).2.toList ++ emitted (handle hash cfg cks n i).1 is

theorem run_cons (n : LbNode bits) (i : Input) (is : List Input) :
    run hash cfg n (i :: is) = run hash cfg (handle hash cfg cks n i).1 is := by
  rw [run, run, handle, List.filterMap_cons]
  cases arrival cfg i <;> rfl

/-- The packets of a burst that leave the parse node by one of its outputs. -/
def parsedTo (next : Ip4ParseNode.Next) (mbufs : List Mbuf) : List Mbuf :=
  mbufs.filterMap fun mbuf =>
    let (m, out) := Ip4ParseNode.classify cfg mbuf
    if out = next then some { mbuf with priv := m } else none

/-- One burst on its way through the graph of a worker: the new state, the published number of flows
and the frames that are emitted. -/
def burst (n : LbNode bits) (activeFlows : ℕ) (pool : Option BackendPool) (nowMs : UInt32)
    (mbufs : List Mbuf) : LbNode bits × ℕ × List Mbuf :=
  let frames := parsedTo cfg .fwd mbufs ++ parsedTo cfg .rev mbufs
  let (n, activeFlows, verdicts) :=
    process hash n activeFlows pool nowMs (frames.map Mbuf.priv)
  (n, activeFlows, (frames.zip verdicts).filterMap fun (mbuf, sent, m) =>
    if sent then some (rewrite cfg cks mbuf m) else none)

/-- The packets of a burst in the order in which the load balancer sees them. -/
def inputs (pool : Option BackendPool) (nowMs : UInt32) (mbufs : List Mbuf) : List Input :=
  (parsedTo cfg .fwd mbufs ++ parsedTo cfg .rev mbufs).map fun mbuf => ⟨pool, nowMs, mbuf⟩

variable {cfg}

/-- A packet behind the parse node is classified again as it was, with the same metadata. -/
theorem arrival_of_mem_parsedTo {next : Ip4ParseNode.Next} (hnext : next = .fwd ∨ next = .rev)
    {mbufs : List Mbuf} {mbuf : Mbuf} (h : mbuf ∈ parsedTo cfg next mbufs)
    (pool : Option BackendPool) (nowMs : UInt32) :
    arrival cfg ⟨pool, nowMs, mbuf⟩ = some ⟨pool, nowMs, mbuf.priv⟩ := by
  obtain ⟨b, -, hb⟩ := List.mem_filterMap.mp h
  cases hclass : Ip4ParseNode.classify cfg b with
  | mk m out =>
    simp only [hclass, Option.ite_none_right_eq_some, Option.some.injEq] at hb
    obtain ⟨rfl, rfl⟩ := hb
    rcases hnext with rfl | rfl
    · obtain ⟨hcond, hm⟩ := Ip4ParseNode.classify_eq_fwd.mp hclass
      have hagain : Ip4ParseNode.classify cfg { b with priv := m } = (m, .fwd) :=
        Ip4ParseNode.classify_eq_fwd.mpr ⟨hcond, hm⟩
      rw [arrival, hagain]
    · obtain ⟨hcond, hm⟩ := Ip4ParseNode.classify_eq_rev.mp hclass
      have hagain : Ip4ParseNode.classify cfg { b with priv := m } = (m, .rev) :=
        Ip4ParseNode.classify_eq_rev.mpr ⟨hcond, hm⟩
      rw [arrival, hagain]

private theorem filterMap_arrival_eq {frames : List Mbuf} {pool : Option BackendPool}
    {nowMs : UInt32} (h : ∀ mbuf ∈ frames,
      arrival cfg ⟨pool, nowMs, mbuf⟩ = some ⟨pool, nowMs, mbuf.priv⟩) :
    (frames.map fun mbuf => (⟨pool, nowMs, mbuf⟩ : Input)).filterMap (arrival cfg) =
      arrivals pool nowMs (frames.map Mbuf.priv) := by
  induction frames with
  | nil => rfl
  | cons mbuf frames ih =>
    rw [List.map_cons, List.filterMap_cons, h mbuf List.mem_cons_self]
    exact congrArg _ (ih fun b hb => h b (List.mem_cons_of_mem mbuf hb))

private theorem emitted_eq {frames : List Mbuf} {pool : Option BackendPool} {nowMs : UInt32}
    (h : ∀ mbuf ∈ frames,
      arrival cfg ⟨pool, nowMs, mbuf⟩ = some ⟨pool, nowMs, mbuf.priv⟩) (n : LbNode bits) :
    emitted hash cfg cks n (frames.map fun mbuf => ⟨pool, nowMs, mbuf⟩) =
      (frames.zip (verdicts hash n (arrivals pool nowMs (frames.map Mbuf.priv)))).filterMap
        fun (mbuf, sent, m) => if sent then some (rewrite cfg cks mbuf m) else none := by
  induction frames generalizing n with
  | nil => rfl
  | cons mbuf frames ih =>
    have hhandle : handle hash cfg cks n ⟨pool, nowMs, mbuf⟩ =
        ((arrive hash n ⟨pool, nowMs, mbuf.priv⟩).1,
          if (arrive hash n ⟨pool, nowMs, mbuf.priv⟩).2.1 then
            some (rewrite cfg cks mbuf (arrive hash n ⟨pool, nowMs, mbuf.priv⟩).2.2)
          else none) := by
      rw [handle, h mbuf List.mem_cons_self]
    simp only [List.map_cons, emitted, hhandle, arrivals, verdicts, List.zip_cons_cons,
      List.filterMap_cons]
    rw [ih fun b hb => h b (List.mem_cons_of_mem mbuf hb)]
    cases (arrive hash n ⟨pool, nowMs, mbuf.priv⟩).2.1 <;> rfl

/-- A burst is handled packet by packet, in the order in which the load balancer sees them. -/
theorem burst_eq (n : LbNode bits) (activeFlows : ℕ) (pool : Option BackendPool) (nowMs : UInt32)
    (mbufs : List Mbuf) :
    (burst hash cfg cks n activeFlows pool nowMs mbufs).1 =
        run hash cfg n (inputs cfg pool nowMs mbufs) ∧
      (burst hash cfg cks n activeFlows pool nowMs mbufs).2.2 =
        emitted hash cfg cks n (inputs cfg pool nowMs mbufs) := by
  have harrival : ∀ mbuf ∈ parsedTo cfg .fwd mbufs ++ parsedTo cfg .rev mbufs,
      arrival cfg ⟨pool, nowMs, mbuf⟩ = some ⟨pool, nowMs, mbuf.priv⟩ := by
    intro mbuf hmbuf
    rcases List.mem_append.mp hmbuf with h | h
    · exact arrival_of_mem_parsedTo (Or.inl rfl) h pool nowMs
    · exact arrival_of_mem_parsedTo (Or.inr rfl) h pool nowMs
  obtain ⟨hrun, hverdicts⟩ := process_eq hash n activeFlows pool nowMs
    ((parsedTo cfg .fwd mbufs ++ parsedTo cfg .rev mbufs).map Mbuf.priv)
  constructor
  · rw [run, inputs, filterMap_arrival_eq harrival, ← hrun]
    rfl
  · rw [inputs, emitted_eq hash cks harrival, ← hverdicts]
    rfl

/-! ### The flow of an emitted frame -/

variable {hash} {cks} {pool : BackendPool} {nowMs : UInt32} {m : PacketMeta} {n : LbNode bits}

/-- A frame is emitted for a packet that the load balancer sends on. -/
theorem handle_eq_some {i : Input} {out : Mbuf} (h : (handle hash cfg cks n i).2 = some out) :
    ∃ a pool, arrival cfg i = some a ∧ a.usable = some pool ∧
      (handlePacket hash n pool a.nowMs a.packet).2.1 = true ∧
      (handle hash cfg cks n i).1 = (handlePacket hash n pool a.nowMs a.packet).1 ∧
      out = rewrite cfg cks i.mbuf (handlePacket hash n pool a.nowMs a.packet).2.2 := by
  rw [handle] at h ⊢
  cases ha : arrival cfg i with
  | none => simp only [ha, reduceCtorEq] at h
  | some a =>
    simp only [ha] at h
    cases husable : a.usable with
    | none =>
      rw [arrive_of_not_usable hash n husable] at h
      exact absurd h (by simp)
    | some pool =>
      rw [arrive_of_usable hash n husable] at h
      refine ⟨a, pool, rfl, husable, ?_⟩
      simp only [arrive_of_usable hash n husable]
      split_ifs at h with hsent
      exact ⟨hsent, trivial, (Option.some.inj h).symm⟩

/-- The flow that a forward packet is handled along, and its slot. -/
inductive AlongFlow (hash : FlowKey → UInt32) (n : LbNode bits) (pool : BackendPool)
    (nowMs : UInt32) (m : PacketMeta) (s : Slot bits) : NatFlow → Prop
  /-- The live flow with the key of the packet. -/
  | live (hlive : (n.nat.slots s).Live n.nat.timeoutMs nowMs)
      (hkey : (n.nat.slots s).fwdKey = m.flowKey) : AlongFlow hash n pool nowMs m s (n.nat.slots s)
  /-- Where there is none, the flow that the packet opens. -/
  | opened (hopens : OpensIn hash n pool nowMs m s) :
      AlongFlow hash n pool nowMs m s (freshFlow hash n pool nowMs m)

theorem AlongFlow.fwdKey {s : Slot bits} {flow : NatFlow}
    (h : AlongFlow hash n pool nowMs m s flow) : flow.fwdKey = m.flowKey := by
  cases h with
  | live hlive hkey => exact hkey
  | opened hopens => rfl

/-- A flow that was opened has recorded the packet's source MAC. -/
theorem AlongFlow.clientMac {s : Slot bits} {flow : NatFlow}
    (h : AlongFlow hash n pool nowMs m s flow)
    (hnone : ¬ ∃ c, (n.nat.slots c).Live n.nat.timeoutMs nowMs ∧
      (n.nat.slots c).fwdKey = m.flowKey) : flow.clientMac = m.clientMac := by
  cases h with
  | live hlive hkey => exact absurd ⟨s, hlive, hkey⟩ hnone
  | opened hopens => rfl

/-- A forward packet that is sent on is handled along a flow. The flow is accounted for, and stays
in its slot unless the packet closes it. -/
theorem exists_flow_of_forward (hmap : ForwardMap hash n.nat) {backends : List BackendInfo}
    {share : Finset UInt16} (hacc : n.Accounted backends share) (hslots : pool.slots <+: backends)
    (hactive : pool.activeCount ≠ 0) (hdir : m.dir = .forward)
    (hsent : (handlePacket hash n pool nowMs m).2.1 = true) :
    ∃ s flow, AlongFlow hash n pool nowMs m s flow ∧ flow.Unreaped ∧
      (∃ n' : LbNode bits, n'.Accounted backends share ∧ n'.nat.slots s = flow) ∧
      Kept flow ((handlePacket hash n pool nowMs m).1.nat.slots s) ∧
      (handlePacket hash n pool nowMs m).2.2 = m.toBackend flow := by
  have hout := handlePacket_outcome hash n pool nowMs m
  generalize handlePacket hash n pool nowMs m = r at hout hsent
  cases hout with
  | @forward t s _ hreaps hlive hkey =>
    have heq := hreaps.slots_eq_of_unreaped hlive.1
    have hbefore : (n.nat.slots s).Live n.nat.timeoutMs nowMs := (hreaps.live_iff s).mp hlive
    have hquiet : QuietSteps nowMs n (maybeTeardown { n with nat := t.touch s nowMs } s m) :=
      ((quietSteps_of_reaps hreaps).tail (.touch hlive)).trans
        (quietSteps_maybeTeardown m (live_touch hlive))
    refine ⟨s, n.nat.slots s, .live hbefore (heq ▸ hkey), hbefore.1, ⟨n, hacc, rfl⟩,
      hquiet.kept s, ?_⟩
    rw [forwardVia, touch_slots, Function.update_self, heq]
    rfl
  | @opened t s hfwd hreaps hmay hopens =>
    let opened := openAt hash { n with nat := t } (newFlow hash m pool (n.nextPort hash pool m)) s
      nowMs
    have hsteps : Steps hash pool nowMs m n opened :=
      (quietSteps_of_reaps hreaps).steps.tail (.create hfwd hmay hopens)
    have hlive : (opened.nat.slots s).Live opened.nat.timeoutMs nowMs := live_openAt _ _ _ _
    have hslot : opened.nat.slots s = freshFlow hash n pool nowMs m := by
      rw [openAt_slots, Function.update_self]
      rfl
    have hkept := (quietSteps_maybeTeardown m hlive).kept s
    rw [hslot] at hkept
    refine ⟨s, freshFlow hash n pool nowMs m, .opened (hopens.opensIn hmap hreaps hfwd hmay),
      hslot ▸ hlive.1, ⟨opened, hacc.steps hslots hactive hsteps, hslot⟩, hkept, ?_⟩
    rw [forwardVia, ← hslot]
  | refused => exact Bool.noConfusion hsent
  | reverse hrev => exact absurd (hrev.symm.trans hdir) (by decide)
  | unknown hrev => exact absurd (hrev.symm.trans hdir) (by decide)

/-- A reverse packet is sent on along a live flow with its reply tuple. -/
theorem exists_flow_of_reverse (hdir : m.dir = .reverse)
    (hsent : (handlePacket hash n pool nowMs m).2.1 = true) :
    ∃ s, n.nat.Answers m.replyKey nowMs s ∧
      (handlePacket hash n pool nowMs m).2.2 = m.toClient (n.nat.slots s) := by
  have hout := handlePacket_outcome hash n pool nowMs m
  generalize handlePacket hash n pool nowMs m = r at hout hsent
  cases hout with
  | @reverse t i s _ hreaps hi hcell hans hfirst =>
    refine ⟨s, hans, ?_⟩
    rw [reverseVia, touch_slots, Function.update_self, hreaps.slots_eq_of_live hans.1]
    rfl
  | unknown => exact Bool.noConfusion hsent
  | forward hfwd => exact absurd (hfwd.symm.trans hdir) (by decide)
  | opened hfwd => exact absurd (hfwd.symm.trans hdir) (by decide)
  | refused hfwd => exact absurd (hfwd.symm.trans hdir) (by decide)

/-! ### Translations are inverse to each other -/

/-- The pools of the inputs list the backends in the same slots, and no two backends share an
address and a port. -/
structure StablePools (backends : List BackendInfo) (is : List Input) : Prop where
  distinct : (backends.map fun b => (b.ip, b.port)).Nodup
  stable : ∀ i ∈ is, ∀ pool, i.pool = some pool → pool.slots <+: backends

theorem pool_eq_of_arrival {i : Input} {a : Arrival} (h : arrival cfg i = some a) :
    a.pool = i.pool ∧ a.nowMs = i.nowMs ∧
      Ip4ParseNode.classify cfg i.mbuf = (a.packet, .fwd) ∨
    a.pool = i.pool ∧ a.nowMs = i.nowMs ∧
      Ip4ParseNode.classify cfg i.mbuf = (a.packet, .rev) := by
  rw [arrival] at h
  split at h
  · next m hclass =>
    obtain rfl := Option.some.inj h
    exact Or.inl ⟨rfl, rfl, hclass⟩
  · next m hclass =>
    obtain rfl := Option.some.inj h
    exact Or.inr ⟨rfl, rfl, hclass⟩
  · exact absurd h (by simp)

theorem StablePools.stableBackends {backends : List BackendInfo} {is : List Input}
    (h : StablePools backends is) : StableBackends backends (is.filterMap (arrival cfg)) where
  distinct := h.distinct
  stable a ha pool hpool := by
    obtain ⟨i, hi, hia⟩ := List.mem_filterMap.mp ha
    have hsame : a.pool = i.pool := (pool_eq_of_arrival hia).elim And.left And.left
    exact h.stable i hi pool (hsame ▸ hpool)

theorem accounted {backends : List BackendInfo} {is : List Input} (h : StablePools backends is)
    (hash : FlowKey → UInt32) (cfg : Config) (bits : ℕ) (timeoutMs : UInt32)
    (workerId nWorkers : UInt16) :
    (run hash cfg (init bits timeoutMs workerId nWorkers) is).Accounted backends
      (portShare workerId nWorkers) :=
  accounted_run h.stableBackends hash bits timeoutMs workerId nWorkers

end Pipeline

namespace Frame

/-- The frame leaves from the own address and the source port of the flow to its backend. -/
def SentToBackend (cfg : Config) (flow : NatFlow) (f : Frame) : Prop :=
  f.Carries cfg.selfIp flow.backendIp flow.snatPort flow.backendPort cfg.selfMac flow.backendMac

/-- The frame leaves from the virtual service to the client of the flow. -/
def SentToClient (cfg : Config) (flow : NatFlow) (f : Frame) : Prop :=
  f.Carries cfg.vip flow.fwdKey.srcIp cfg.vipPort flow.fwdKey.srcPort cfg.selfMac flow.clientMac

/-- The frame comes from the backend of the flow to the own address and the flow's source port. -/
structure RepliesTo (cfg : Config) (flow : NatFlow) (f : Frame) : Prop where
  srcAddr : f.srcAddr = flow.backendIp
  srcPort : f.srcPort = flow.backendPort
  dstAddr : f.dstAddr = cfg.selfIp
  dstPort : f.dstPort = flow.snatPort
  proto : f.nextProtoId = flow.fwdKey.proto

end Frame

namespace Pipeline

variable {bits : ℕ} {hash : FlowKey → UInt32} {cfg : Config} {cks : Checksums} {n : LbNode bits}

/-- A reply to a flow that is in its slot and not reaped leaves to the client of that flow. -/
theorem sentToClient_of_repliesTo {backends : List BackendInfo} {share : Finset UInt16}
    (hacc : n.Accounted backends share)
    (hdistinct : (backends.map fun b => (b.ip, b.port)).Nodup) {s : Slot bits} {flow : NatFlow}
    (hun : (n.nat.slots s).Unreaped) (hsame : SameFlow flow (n.nat.slots s)) {j : Input}
    (hrev : (Ip4ParseNode.classify cfg j.mbuf).2 = .rev) (hlen : 20 ≤ j.mbuf.frame.hdrLen)
    (hreply : j.mbuf.frame.RepliesTo cfg flow) {out : Mbuf}
    (hout : (handle hash cfg cks n j).2 = some out) : out.frame.SentToClient cfg flow := by
  obtain ⟨a, pool, ha, -, hsent, -, rfl⟩ := handle_eq_some hout
  have hclass : Ip4ParseNode.classify cfg j.mbuf = (a.packet, .rev) := by
    rcases pool_eq_of_arrival ha with ⟨-, -, h⟩ | ⟨-, -, h⟩
    · rw [h] at hrev
      exact Ip4ParseNode.Next.noConfusion hrev
    · exact h
  obtain ⟨-, hpacket⟩ := Ip4ParseNode.classify_eq_rev.mp hclass
  have hdir : a.packet.dir = .reverse := by rw [hpacket]
  obtain ⟨c, hans, hm⟩ := exists_flow_of_reverse hdir hsent
  have hkey : (n.nat.slots s).revKey = a.packet.replyKey := by
    rw [hsame.revKey, hpacket]
    exact replyKey_inj.mpr ⟨hreply.srcAddr.symm, hreply.srcPort.symm, hreply.dstPort.symm,
      hreply.proto.symm⟩
  obtain rfl := hacc.eq_of_revKey_eq hdistinct hun hans.1.1 (hkey.trans hans.2.symm)
  rw [hm, Frame.SentToClient, ← hsame.fwdKey, ← hsame.clientMac]
  let translated : Mbuf := { j.mbuf with priv := a.packet.toClient (n.nat.slots s) }
  have hdir' : translated.priv.dir = .reverse := hdir
  exact carries_rewrite_of_reverse cfg cks hdir' hlen

/-- A frame that is emitted for a forward frame leaves to the backend of the flow that it is handled
along, which is accounted for. -/
theorem exists_accounted_sentToBackend (hmap : ForwardMap hash n.nat) {backends : List BackendInfo}
    {share : Finset UInt16} (hacc : n.Accounted backends share) {i : Input}
    (hstable : ∀ pool, i.pool = some pool → pool.slots <+: backends)
    (hfwd : (Ip4ParseNode.classify cfg i.mbuf).2 = .fwd)
    {out : Mbuf} (hout : (handle hash cfg cks n i).2 = some out) :
    ∃ pool s flow, i.pool = some pool ∧
      AlongFlow hash n pool i.nowMs (Ip4ParseNode.classify cfg i.mbuf).1 s flow ∧ flow.Unreaped ∧
      (∃ n' : LbNode bits, n'.Accounted backends share ∧ n'.nat.slots s = flow) ∧
      Kept flow ((handle hash cfg cks n i).1.nat.slots s) ∧
      (20 ≤ i.mbuf.frame.hdrLen → out.frame.SentToBackend cfg flow) := by
  obtain ⟨a, pool, ha, husable, hsent, hstate, rfl⟩ := handle_eq_some hout
  obtain ⟨hpool, hactive⟩ := Arrival.usable_eq_some.mp husable
  obtain ⟨hsame, hnow, hclass⟩ : a.pool = i.pool ∧ a.nowMs = i.nowMs ∧
      Ip4ParseNode.classify cfg i.mbuf = (a.packet, .fwd) := by
    rcases pool_eq_of_arrival ha with h | ⟨-, -, h⟩
    · exact h
    · rw [h] at hfwd
      exact Ip4ParseNode.Next.noConfusion hfwd
  have hdir : a.packet.dir = .forward := by rw [(Ip4ParseNode.classify_eq_fwd.mp hclass).2]
  obtain ⟨s, flow, halong, hun, haccounted, hkept, hm⟩ :=
    exists_flow_of_forward hmap hacc (hstable pool (hsame ▸ hpool)) hactive hdir hsent
  refine ⟨pool, s, flow, hsame ▸ hpool, ?_, hun, haccounted, hstate ▸ hkept, fun hlen => ?_⟩
  · rw [hclass, ← hnow]
    exact halong
  · rw [hm, Frame.SentToBackend]
    let translated : Mbuf := { i.mbuf with priv := a.packet.toBackend flow }
    have hdir' : translated.priv.dir = .forward := hdir
    exact carries_rewrite_of_forward cfg cks hdir' hlen

/-- What the parse node passes on for a forward frame. -/
theorem flowKey_of_fwd {mbuf : Mbuf} (hfwd : (Ip4ParseNode.classify cfg mbuf).2 = .fwd) :
    (Ip4ParseNode.classify cfg mbuf).1.flowKey = mbuf.frame.flowKey ∧
      (Ip4ParseNode.classify cfg mbuf).1.clientMac = mbuf.frame.srcMac := by
  have hclass : Ip4ParseNode.classify cfg mbuf = ((Ip4ParseNode.classify cfg mbuf).1, .fwd) :=
    Prod.ext rfl hfwd
  rw [(Ip4ParseNode.classify_eq_fwd.mp hclass).2]
  exact ⟨rfl, rfl⟩

/-- The two translations of a flow are inverse to each other and never cross clients. After any run
whose pools keep the backends in their slots, and for frames with an IPv4 header of at least 20
bytes: a frame that is emitted for a forward frame leaves from the own address and the source port
of the flow that it is handled along to the backend of this flow, also if it closes the flow; and as
long as this flow stays in its slot without being reaped, any frame emitted for a reply to this flow
leaves from the virtual service to its client, with the MAC address that was recorded when the flow
was opened. The flow is the live one with the key of the frame, or the one that the frame has
opened. -/
theorem translations_inverse (hash : FlowKey → UInt32) (cfg : Config) (cks : Checksums) (bits : ℕ)
    (timeoutMs : UInt32) (workerId nWorkers : UInt16) (backends : List BackendInfo)
    (is : List Input) (i : Input) (hstable : StablePools backends (is ++ [i]))
    (hfwd : (Ip4ParseNode.classify cfg i.mbuf).2 = .fwd) (hlen : 20 ≤ i.mbuf.frame.hdrLen)
    (out : Mbuf)
    (hout : (handle hash cfg cks (run hash cfg (init bits timeoutMs workerId nWorkers) is) i).2 =
      some out) :
    let n := run hash cfg (init bits timeoutMs workerId nWorkers) is
    ∃ pool s flow, i.pool = some pool ∧
      AlongFlow hash n pool i.nowMs (Ip4ParseNode.classify cfg i.mbuf).1 s flow ∧
      flow.fwdKey = i.mbuf.frame.flowKey ∧
      flow.backend = backends.getD flow.backendIdx.toNat {} ∧
      flow.Unreaped ∧ Kept flow ((handle hash cfg cks n i).1.nat.slots s) ∧
      ((¬ ∃ c, (n.nat.slots c).Live n.nat.timeoutMs i.nowMs ∧
        (n.nat.slots c).fwdKey = i.mbuf.frame.flowKey) → flow.clientMac = i.mbuf.frame.srcMac) ∧
      out.frame.SentToBackend cfg flow ∧
      ∀ js j, StablePools backends (is ++ i :: js) →
        let n' := run hash cfg (init bits timeoutMs workerId nWorkers) (is ++ i :: js)
        (n'.nat.slots s).Unreaped → SameFlow flow (n'.nat.slots s) →
        (Ip4ParseNode.classify cfg j.mbuf).2 = .rev → 20 ≤ j.mbuf.frame.hdrLen →
        j.mbuf.frame.RepliesTo cfg flow → ∀ out', (handle hash cfg cks n' j).2 = some out' →
          out'.frame.SentToClient cfg flow := by
  intro n
  have hbefore : StablePools backends is :=
    ⟨hstable.distinct, fun b hb => hstable.stable b (List.mem_append_left _ hb)⟩
  have hacc := accounted hbefore hash cfg bits timeoutMs workerId nWorkers
  have hpools := hstable.stable i (List.mem_append_right is (List.mem_singleton_self i))
  obtain ⟨pool, s, flow, hpool, halong, hun, ⟨n', hacc', rfl⟩, hkept, hsent⟩ :=
    exists_accounted_sentToBackend (forwardMap_run ..) hacc hpools hfwd hout
  obtain ⟨hkey, hmac⟩ := flowKey_of_fwd hfwd
  refine ⟨pool, s, n'.nat.slots s, hpool, halong, halong.fwdKey.trans hkey, (hacc'.names s hun).2,
    hun, hkept, fun hnone => ?_, hsent hlen, ?_⟩
  · rw [← hmac]
    exact halong.clientMac (hkey ▸ hnone)
  · intro js j hlater n' hun' hsame hrev hlen' hreply out' hout'
    exact sentToClient_of_repliesTo
      (accounted hlater hash cfg bits timeoutMs workerId nWorkers) hlater.distinct hun' hsame hrev
      hlen' hreply hout'

/-! ### Frames whose headers overlap -/

/-- The sum of the 16-bit words of `len` bytes, an odd last byte filled up with zero. -/
def wordSum (f : Frame) : ℕ → ℕ → ℕ
  | _, 0 => 0
  | off, 1 => (f off).toNat * 256
  | off, len + 2 => (f.be16 off).toNat + wordSum f (off + 2) len

/-- A sum of 16-bit words with the carries added, twice. -/
def foldCarries (sum : ℕ) : UInt16 :=
  let once := sum / 65536 + sum % 65536
  UInt16.ofNat (once / 65536 + once % 65536)

/-- The checksums of the packet library: the complement of the ones' complement sum, over the IPv4
header and over the pseudo header and the transport part. -/
def internetChecksums : Checksums where
  ipv4Cksum f :=
    let sum := foldCarries (wordSum f 14 f.hdrLen)
    if sum = 0xFFFF then sum else ~~~sum
  ipv4UdptcpCksum f l4Off :=
    let totalLen := (f.be16 16).toNat
    if totalLen < f.hdrLen then 0
    else
      let l4Len := totalLen - f.hdrLen
      let pseudo := wordSum f 26 8 + f.nextProtoId.toNat + l4Len
      let sum := ~~~foldCarries (pseudo + wordSum f l4Off l4Len)
      if sum = 0 ∧ f.nextProtoId = ipprotoUdp then 0xFFFF else sum

/-- A configuration. -/
def exampleConfig : Config where
  vip := 0x0A0001FD
  vipPort := 80
  selfIp := 0x0A0001FE

/-- A UDP frame from port 40000 of the client `10.0.0.80` to the virtual service, with a given first
byte of the IPv4 header. -/
def udpFrame (versionIhl : UInt8) : Frame := fun k =>
  [2, 0, 0, 0, 0, 1, 2, 0, 0, 0, 0, 2, 8, 0, versionIhl, 0, 0, 28, 0, 0, 0, 0, 64, 17, 0, 0,
    10, 0, 0, 80, 10, 0, 1, 253, 156, 64, 0, 80, 0, 8, 0, 0].getD k 0

theorem stablePools_single (backend : BackendInfo) (nowMs : UInt32) (mbuf : Mbuf) :
    StablePools [backend] [⟨some (.single backend), nowMs, mbuf⟩] := by
  refine ⟨List.nodup_singleton _, fun j hj pool hpool => ?_⟩
  obtain rfl := List.mem_singleton.mp hj
  obtain rfl := Option.some.inj hpool
  exact ⟨[], rfl⟩

/-- The first UDP packet to reach a worker is sent on, along a flow to the backend. -/
theorem handle_first_udp (hash : FlowKey → UInt32) (cfg : Config) (cks : Checksums) (bits : ℕ)
    (timeoutMs : UInt32) (backend : BackendInfo) (nowMs : UInt32) {mbuf : Mbuf} {m : PacketMeta}
    (hclass : Ip4ParseNode.classify cfg mbuf = (m, .fwd)) (hudp : m.proto = ipprotoUdp) :
    ∃ flow : NatFlow, flow.backendPort = backend.port ∧
      (handle hash cfg cks (init bits timeoutMs 0 1) ⟨some (.single backend), nowMs, mbuf⟩).2 =
        some (rewrite cfg cks mbuf (m.toBackend flow)) := by
  have hdir : m.dir = .forward := by rw [(Ip4ParseNode.classify_eq_fwd.mp hclass).2]
  have hmay : MayOpen m := fun h => absurd (hudp.symm.trans h.1) (by decide)
  obtain ⟨s, hopens⟩ := exists_opensIn_init hash bits timeoutMs backend nowMs hdir hmay
  obtain ⟨t, -, heq⟩ := hopens.handlePacket_eq (forwardMap_empty timeoutMs)
  have husable : (⟨some (.single backend), nowMs, m⟩ : Arrival).usable = some (.single backend) :=
    Arrival.usable_eq_some.mpr ⟨rfl, Nat.one_ne_zero⟩
  let opened := openAt hash { init bits timeoutMs 0 1 with nat := t }
    (newFlow hash m (.single backend) (nextPort hash (init bits timeoutMs 0 1) (.single backend) m))
    s nowMs
  refine ⟨opened.nat.slots s, ?_, ?_⟩
  · rw [openAt_slots, Function.update_self]
    simp only [newFlow, BackendPool.select_single]
    rfl
  · rw [handle, arrival, hclass]
    simp only [arrive_of_usable hash _ husable, heq, forwardVia, if_true]
    rfl

/-- When the header length field is three, the ports are assigned on top of the source address. -/
theorem srcAddr_rewrite_of_overlap (cfg : Config) (cks : Checksums) {mbuf : Mbuf} {m : PacketMeta}
    (hdir : m.dir = .forward) (hudp : m.proto = ipprotoUdp) (hl4 : mbuf.frame.l4Off = 26) :
    (rewrite cfg cks mbuf m).frame.srcAddr.toNat % 65536 = m.backendPort.toNat := by
  have hlow : (rewrite cfg cks mbuf m).frame.be16 28 = m.backendPort := by
    simp only [rewrite, EtherRewriteNode.rewrite, DnatNode.rewrite, hdir, hl4, hudp]
    refine (Frame.be16_congr fun i hi hi' => ?_).trans (Frame.be16_set16_self (((mbuf.frame.set32 26
      cfg.selfIp).set32 30 m.backendIp).set16 26 m.snatPort) 28 m.backendPort)
    have hck : Frame.l4CksumOff 26 ipprotoUdp = 32 := by decide
    rw [Bytes.blit_of_notMem _ (by omega), Bytes.blit_of_notMem _ (by omega),
      DnatNode.fixChecksums_of_notMem _ _ (by omega) (by omega)]
    rfl
  generalize (rewrite cfg cks mbuf m).frame = g at hlow ⊢
  have hg26 := (g 26).toNat_lt
  have hg27 := (g 27).toNat_lt
  have hg28 := (g 28).toNat_lt
  have hg29 := (g 29).toNat_lt
  rw [← hlow, Frame.srcAddr, Frame.be32, Frame.be16, UInt32.toNat_ofNat', UInt16.toNat_ofNat']
  simp only [Bytes.readBE, Nat.reduceAdd]
  omega

/-- The first UDP frame of a run, with a header of five words, opens a flow and leaves to its
backend. -/
theorem translations_inverse_first_frame :
    let backend : BackendInfo := { ip := 0x0A000202, port := 8080 }
    let hash := FlowKey.hash .sse42
    let i : Input := ⟨some (.single backend), 7, { frame := udpFrame 0x45 }⟩
    let n := run hash exampleConfig (init 20 30000 0 1) []
    ∃ out s flow, (handle hash exampleConfig internetChecksums n i).2 = some out ∧
      AlongFlow hash n (.single backend) 7 (Ip4ParseNode.classify exampleConfig i.mbuf).1 s flow ∧
      flow.clientMac = i.mbuf.frame.srcMac ∧ out.frame.SentToBackend exampleConfig flow := by
  intro backend hash i n
  have hclass : Ip4ParseNode.classify exampleConfig i.mbuf =
      ({ Ip4ParseNode.parsedMeta i.mbuf.frame with dir := .forward }, .fwd) :=
    Ip4ParseNode.classify_eq_fwd.mpr ⟨by decide +kernel, rfl⟩
  have hudp : (Ip4ParseNode.parsedMeta i.mbuf.frame).proto = ipprotoUdp := by decide +kernel
  obtain ⟨first, -, hout⟩ := handle_first_udp hash exampleConfig internetChecksums 20 30000 backend
    7 hclass hudp
  have hstable : StablePools [backend] ([] ++ [i]) := stablePools_single backend 7 _
  obtain ⟨pool, s, flow, hpool, halong, -, -, -, -, hmac, hsent, -⟩ := translations_inverse hash
    exampleConfig internetChecksums 20 30000 0 1 [backend] [] i hstable (by rw [hclass])
    (by decide +kernel) _ hout
  obtain rfl := Option.some.inj hpool
  exact ⟨_, s, flow, hout, halong, hmac fun ⟨c, hlive, _⟩ => Bool.noConfusion hlive.1.1, hsent⟩

/-- A UDP frame whose header length field is three is emitted with a source address that is not the
own one: the ports were assigned on top of it. -/
theorem overlapping_headers_break_translation :
    let backend : BackendInfo := { ip := 0x0A000202, port := 8080 }
    let hash := FlowKey.hash .sse42
    let i : Input := ⟨some (.single backend), 7, { frame := udpFrame 0x43 }⟩
    (Ip4ParseNode.classify exampleConfig i.mbuf).2 = .fwd ∧
      StablePools [backend] [i] ∧
      ∃ out, (handle hash exampleConfig internetChecksums
          (run hash exampleConfig (init 20 30000 0 1) []) i).2 = some out ∧
        out.frame.srcAddr ≠ exampleConfig.selfIp := by
  intro backend hash i
  have hclass : Ip4ParseNode.classify exampleConfig i.mbuf =
      ({ Ip4ParseNode.parsedMeta i.mbuf.frame with dir := .forward }, .fwd) :=
    Ip4ParseNode.classify_eq_fwd.mpr ⟨by decide +kernel, rfl⟩
  have hudp : (Ip4ParseNode.parsedMeta i.mbuf.frame).proto = ipprotoUdp := by decide +kernel
  have hstable : StablePools [backend] [i] := stablePools_single backend 7 _
  obtain ⟨flow, hport, hout⟩ := handle_first_udp hash exampleConfig internetChecksums 20 30000
    backend 7 hclass hudp
  refine ⟨by rw [hclass], hstable, _, hout, fun hself => ?_⟩
  have hl4 : i.mbuf.frame.l4Off = 26 := by decide +kernel
  have hlow := srcAddr_rewrite_of_overlap exampleConfig internetChecksums
    (m := { Ip4ParseNode.parsedMeta i.mbuf.frame with dir := .forward }.toBackend flow) rfl hudp hl4
  rw [hself] at hlow
  exact absurd (hlow.trans (congrArg UInt16.toNat hport)) (by decide)

end Pipeline

end Cerebellum
