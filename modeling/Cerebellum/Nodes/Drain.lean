import Cerebellum.Nodes.ReverseIndex

/-!
# Packets of established flows

A packet that belongs to a live flow is sent on to the translation with what the flow recorded when
it was opened, whichever backends the pool of the moment enables. There are two exceptions. When the
pool enables no backend at all, `Process` drops the whole burst before it looks at the table, so
that established flows do not drain. And a reply goes along the first cell on its scan of the
reverse index that points to a live flow with its tuple, so that it needs a cell of its flow there.

## Main definitions

* `Cerebellum.LbNode.BelongsTo`: the packet belongs to the live flow in a slot.
* `Cerebellum.PacketMeta.translated`: the packet's metadata with the translation of a flow.
* `Cerebellum.LbNode.AnsweredFor`: the reverse index leads the replies of a flow to its client.

## Main results

* `Cerebellum.LbNode.drains_iff_pool_usable`: a packet of a live flow goes on with its translation
  exactly when some backend is enabled and, for a reply, the reverse index leads to the client.
* `Cerebellum.LbNode.answeredFor_of_indexHasRoom`: in which runs it does.
* `Cerebellum.LbNode.disabled_pool_drops_established_flow`: a run in which it does not.
-/

open Probing

namespace Cerebellum

open NatTable

/-- The metadata that a packet of the flow leaves `HandlePacket` with. -/
def PacketMeta.translated (m : PacketMeta) (flow : NatFlow) : PacketMeta :=
  match m.dir with
  | .forward => m.toBackend flow
  | .reverse => m.toClient flow

namespace LbNode

variable {bits : ℕ} {hash : FlowKey → UInt32} {nowMs : UInt32}

/-- Slot `s` holds a live flow, and the packet has its key or its reply tuple. -/
def BelongsTo (n : LbNode bits) (nowMs : UInt32) (m : PacketMeta) (s : Slot bits) : Prop :=
  (n.nat.slots s).Live n.nat.timeoutMs nowMs ∧
    match m.dir with
    | .forward => (n.nat.slots s).fwdKey = m.flowKey
    | .reverse => (n.nat.slots s).revKey = m.replyKey

/-- A forward packet of a live flow is handled along it. -/
theorem handlePacket_of_live_fwdKey (pool : BackendPool) {n : LbNode bits} {m : PacketMeta}
    {s : Slot bits} (hmap : ForwardMap hash n.nat) (hdir : m.dir = .forward)
    (hlive : (n.nat.slots s).Live n.nat.timeoutMs nowMs)
    (hkey : (n.nat.slots s).fwdKey = m.flowKey) :
    ∃ t, Reaps nowMs n.nat t ∧ handlePacket hash n pool nowMs m =
      (maybeTeardown { n with nat := t.touch s nowMs } s m, true,
        m.toBackend (n.nat.slots s)) := by
  have hpresent {t : NatTable bits} (hreaps : Reaps nowMs n.nat t) :
      ¬ AbsentOnScan hash t m.flowKey := fun habs => by
    have heq := hreaps.slots_eq_of_live hlive
    exact (hmap.reaps hreaps).absent habs s ⟨heq.symm ▸ hlive.1, heq.symm ▸ hkey⟩
  have hout := handlePacket_outcome hash n pool nowMs m
  generalize handlePacket hash n pool nowMs m = r at hout ⊢
  cases hout with
  | @forward t c _ hreaps hc hckey =>
    have heq := hreaps.slots_eq_of_unreaped hc.1
    rw [heq] at hckey
    obtain rfl := hmap.unique s c hlive.1 (heq ▸ hc.1) (hkey.trans hckey.symm)
    refine ⟨t, hreaps, ?_⟩
    rw [forwardVia, touch_slots, Function.update_self, heq]
    rfl
  | opened _ hreaps _ hopens => exact absurd hopens.absent (hpresent hreaps)
  | refused _ hreaps habs _ => exact absurd habs (hpresent hreaps)
  | reverse hrev => exact absurd (hrev.symm.trans hdir) (by decide)
  | unknown hrev => exact absurd (hrev.symm.trans hdir) (by decide)

/-- A reverse packet of a live flow is handled along it, if the flow has its cell and no other live
flow has its reply tuple. -/
theorem handlePacket_of_live_revKey (pool : BackendPool) {n : LbNode bits} {m : PacketMeta}
    {s : Slot bits} (hdir : m.dir = .reverse) (hlive : (n.nat.slots s).Live n.nat.timeoutMs nowMs)
    (hkey : (n.nat.slots s).revKey = m.replyKey) (hscan : OnReplyScan hash n.nat s)
    (hunique : ∀ c, n.nat.Answers m.replyKey nowMs c → c = s) :
    ∃ t, Reaps nowMs n.nat t ∧ handlePacket hash n pool nowMs m =
      (maybeTeardown { n with nat := t.touch s nowMs } s m, true,
        m.toClient (n.nat.slots s)) := by
  have hout := handlePacket_outcome hash n pool nowMs m
  generalize handlePacket hash n pool nowMs m = r at hout ⊢
  cases hout with
  | @reverse t i c _ hreaps hi hcell hans hfirst =>
    obtain rfl := hunique c hans
    refine ⟨t, hreaps, ?_⟩
    rw [reverseVia, touch_slots, Function.update_self, hreaps.slots_eq_of_live hlive]
    rfl
  | unknown _ hreaps hnone =>
    obtain ⟨i, hi, hcell, hbefore⟩ := hscan
    rw [hkey] at hcell hbefore
    exact absurd ⟨hlive, hkey⟩ (hnone i hi hbefore s hcell)
  | forward hfwd => exact absurd (hfwd.symm.trans hdir) (by decide)
  | opened hfwd => exact absurd (hfwd.symm.trans hdir) (by decide)
  | refused hfwd => exact absurd (hfwd.symm.trans hdir) (by decide)

/-- A packet that belongs to a live flow is handled along it. For a reverse packet the flow must
have its cell in the index and its reply tuple to itself. -/
theorem BelongsTo.handlePacket_eq {n : LbNode bits} {m : PacketMeta} {s : Slot bits}
    (h : n.BelongsTo nowMs m s) (pool : BackendPool) (hmap : ForwardMap hash n.nat)
    (hreverse : m.dir = .reverse → OnReplyScan hash n.nat s ∧
      ∀ c, n.nat.Answers m.replyKey nowMs c → c = s) :
    ∃ t, Reaps nowMs n.nat t ∧ handlePacket hash n pool nowMs m =
      (maybeTeardown { n with nat := t.touch s nowMs } s m, true,
        m.translated (n.nat.slots s)) := by
  obtain ⟨hlive, hkey⟩ := h
  cases hdir : m.dir with
  | forward =>
    rw [hdir] at hkey
    rw [PacketMeta.translated, hdir]
    exact handlePacket_of_live_fwdKey pool hmap hdir hlive hkey
  | reverse =>
    rw [hdir] at hkey
    obtain ⟨hscan, hunique⟩ := hreverse hdir
    rw [PacketMeta.translated, hdir]
    exact handlePacket_of_live_revKey pool hdir hlive hkey hscan hunique

/-! ### Where a reply goes -/

/-- The two flows have the same client: address, port and MAC. -/
structure SameClient (f g : NatFlow) : Prop where
  srcIp : f.fwdKey.srcIp = g.fwdKey.srcIp
  srcPort : f.fwdKey.srcPort = g.fwdKey.srcPort
  clientMac : f.clientMac = g.clientMac

theorem toClient_eq_iff {m : PacketMeta} {f g : NatFlow} :
    m.toClient f = m.toClient g ↔ SameClient f g := by
  constructor
  · intro h
    exact ⟨congrArg PacketMeta.clientIp h, congrArg PacketMeta.clientPort h,
      congrArg PacketMeta.clientMac h⟩
  · rintro ⟨hip, hport, hmac⟩
    rw [PacketMeta.toClient, PacketMeta.toClient, hip, hport, hmac]

/-- On the scan of the reply tuple of slot `s`, some cell before the first empty one points to a
live flow with this tuple, and the first such cell points to a flow of the same client: to slot `s`
itself, unless another live flow has the tuple too. -/
def AnsweredFor (hash : FlowKey → UInt32) (t : NatTable bits) (nowMs : UInt32) (s : Slot bits) :
    Prop :=
  let key := (t.slots s).revKey
  ∃ i < 2 ^ bits,
    (∃ c, t.rev (probeAt (home (hash key)) i) = some c ∧ t.Answers key nowMs c ∧
      SameClient (t.slots c) (t.slots s)) ∧
    ∀ j < i, ∃ c, t.rev (probeAt (home (hash key)) j) = some c ∧ ¬ t.Answers key nowMs c

/-- A flow that has its reply tuple to itself needs a cell on the scan of it, and nothing else. -/
theorem answeredFor_iff_onReplyScan {t : NatTable bits} {s : Slot bits}
    (hlive : (t.slots s).Live t.timeoutMs nowMs)
    (hunique : ∀ c, t.Answers (t.slots s).revKey nowMs c → c = s) :
    AnsweredFor hash t nowMs s ↔ OnReplyScan hash t s := by
  constructor
  · rintro ⟨i, hi, ⟨c, hcell, hans, -⟩, hbefore⟩
    obtain rfl := hunique c hans
    refine ⟨i, hi, hcell, fun j hj => ?_⟩
    obtain ⟨p, hp, -⟩ := hbefore j hj
    rw [hp]
    exact Option.some_ne_none p
  · rintro ⟨i, hi, hcell, hbefore⟩
    -- the cell that was found need not be the first one
    have hex : ∃ i, i < 2 ^ bits ∧
        t.rev (probeAt (home (hash (t.slots s).revKey)) i) = some s := ⟨i, hi, hcell⟩
    obtain ⟨hlt, hfirst⟩ := Nat.find_spec hex
    have hle : Nat.find hex ≤ i := Nat.find_min' hex ⟨hi, hcell⟩
    refine ⟨_, hlt, ⟨s, hfirst, ⟨hlive, rfl⟩, ⟨rfl, rfl, rfl⟩⟩, fun j hj => ?_⟩
    obtain ⟨p, hp⟩ := Option.ne_none_iff_exists'.mp (hbefore j (hj.trans_le hle))
    refine ⟨p, hp, fun hans => Nat.find_min hex hj ⟨hj.trans hlt, ?_⟩⟩
    rw [hp, hunique p hans]

/-- A reply to a live flow is sent on to its client exactly when the reverse index leads there. -/
theorem handlePacket_reverse_iff (pool : BackendPool) {n : LbNode bits} {m : PacketMeta}
    {s : Slot bits} (hdir : m.dir = .reverse) (hkey : (n.nat.slots s).revKey = m.replyKey) :
    (handlePacket hash n pool nowMs m).2 = (true, m.toClient (n.nat.slots s)) ↔
      AnsweredFor hash n.nat nowMs s := by
  rw [AnsweredFor, hkey]
  have hout := handlePacket_outcome hash n pool nowMs m
  generalize handlePacket hash n pool nowMs m = r at hout ⊢
  cases hout with
  | @reverse t i c _ hreaps hi hcell hans hfirst =>
    have hsent : (reverseVia { n with nat := t.touch c nowMs } c m).2 =
        (true, m.toClient (n.nat.slots c)) := by
      rw [reverseVia, touch_slots, Function.update_self, hreaps.slots_eq_of_live hans.1]
      rfl
    rw [hsent, Prod.mk.injEq, toClient_eq_iff]
    constructor
    · rintro ⟨-, hclient⟩
      exact ⟨i, hi, ⟨c, hcell, hans, hclient⟩, hfirst⟩
    · rintro ⟨i', hi', ⟨c', hcell', hans', hclient⟩, hfirst'⟩
      rcases lt_trichotomy i i' with hlt | rfl | hgt
      · obtain ⟨p, hp, hnot⟩ := hfirst' i hlt
        obtain rfl := Option.some.inj (hp.symm.trans hcell)
        exact absurd hans hnot
      · obtain rfl := Option.some.inj (hcell'.symm.trans hcell)
        exact ⟨rfl, hclient⟩
      · obtain ⟨p, hp, hnot⟩ := hfirst i' hgt
        obtain rfl := Option.some.inj (hp.symm.trans hcell')
        exact absurd hans' hnot
  | unknown _ hreaps hnone =>
    refine iff_of_false (fun hsent => Bool.noConfusion (congrArg Prod.fst hsent)) ?_
    rintro ⟨i, hi, ⟨c, hcell, hans, -⟩, hbefore⟩
    refine hnone i hi (fun j hj => ?_) c hcell hans
    obtain ⟨p, hp, -⟩ := hbefore j hj
    rw [hp]
    exact Option.some_ne_none p
  | forward hfwd => exact absurd (hfwd.symm.trans hdir) (by decide)
  | opened hfwd => exact absurd (hfwd.symm.trans hdir) (by decide)
  | refused hfwd => exact absurd (hfwd.symm.trans hdir) (by decide)

/-- After every run, whatever its pools and its clock: a packet that belongs to a live flow goes on
with the recorded translation of the flow if and only if the pool of its burst has an enabled
backend and, if it is a reply, the reverse index leads to the client of the flow. -/
theorem drains_iff_pool_usable (hash : FlowKey → UInt32) (bits : ℕ) (timeoutMs : UInt32)
    (workerId nWorkers : UInt16) (as : List Arrival) (a : Arrival) (s : Slot bits)
    (hbelongs : (run hash (init bits timeoutMs workerId nWorkers) as).BelongsTo
      a.nowMs a.packet s) :
    let n := run hash (init bits timeoutMs workerId nWorkers) as
    (arrive hash n a).2 = (true, a.packet.translated (n.nat.slots s)) ↔
      (∃ pool, a.pool = some pool ∧ pool.activeCount ≠ 0) ∧
        (a.packet.dir = .reverse → AnsweredFor hash n.nat a.nowMs s) := by
  intro n
  cases husable : a.usable with
  | none =>
    rw [arrive_of_not_usable hash n husable]
    refine iff_of_false (fun hsent => Bool.noConfusion (congrArg Prod.fst hsent)) ?_
    rintro ⟨⟨pool, hpool⟩, -⟩
    exact Option.some_ne_none pool ((Arrival.usable_eq_some.mpr hpool).symm.trans husable)
  | some pool =>
    rw [arrive_of_usable hash n husable]
    have hpool : ∃ pool, a.pool = some pool ∧ pool.activeCount ≠ 0 :=
      ⟨pool, Arrival.usable_eq_some.mp husable⟩
    cases hdir : a.packet.dir with
    | forward =>
      obtain ⟨t, -, hsent⟩ := hbelongs.handlePacket_eq pool (forwardMap_run ..) fun hrev =>
        Direction.noConfusion (hdir.symm.trans hrev)
      exact iff_of_true (by rw [hsent]) ⟨hpool, fun h => Direction.noConfusion h⟩
    | reverse =>
      have hkey := hbelongs.2
      rw [hdir] at hkey
      rw [PacketMeta.translated, hdir]
      exact (handlePacket_reverse_iff pool hdir hkey).trans
        ⟨fun h => ⟨hpool, fun _ => h⟩, fun h => h.2 rfl⟩

/-- After a run that kept the clock and the slots in order, and in which each flow that was opened
found room in the reverse index, the index leads the replies of every live flow to its client. -/
theorem answeredFor_of_indexHasRoom {backends : List BackendInfo} {as : List Arrival}
    (horderly : Orderly backends as) {timeoutMs : UInt32} {workerId nWorkers : UInt16}
    (hroom : ∀ pre b post, as = pre ++ b :: post →
      IndexHasRoom hash (run hash (init bits timeoutMs workerId nWorkers) pre) b)
    (hclock : ∀ b ∈ as, b.nowMs ≤ nowMs) {s : Slot bits}
    (hlive : ((run hash (init bits timeoutMs workerId nWorkers) as).nat.slots s).Live
      (run hash (init bits timeoutMs workerId nWorkers) as).nat.timeoutMs nowMs) :
    AnsweredFor hash (run hash (init bits timeoutMs workerId nWorkers) as).nat nowMs s := by
  have hacc := accounted_run horderly.toStableBackends hash bits timeoutMs workerId nWorkers
  refine (answeredFor_iff_onReplyScan hlive fun c hans => ?_).mpr
    ((indexed_run horderly hroom hclock).onReplyScan s hlive)
  exact hacc.eq_of_revKey_eq horderly.distinct hans.1.1 hlive.1 hans.2

/-- The entry that the first SYN of a connection leaves. -/
def synFlow (backend : BackendInfo) (snatPort : UInt16) : NatFlow where
  fwdKey := (tcpSegment 40000 kTcpSyn).flowKey
  backendIp := backend.ip
  backendMac := backend.mac
  backendPort := backend.port
  snatPort := snatPort
  occupied := true

theorem newFlow_syn (hash : FlowKey → UInt32) (backend : BackendInfo) (snatPort : UInt16) :
    { newFlow hash (tcpSegment 40000 kTcpSyn) (.single backend) snatPort with
      occupied := true, lastSeenMs := 0 } = synFlow backend snatPort := by
  simp only [newFlow, BackendPool.select_single]
  rfl

/-- The first SYN of a connection opens a flow with the first source port. -/
theorem exists_openAt_syn (hash : FlowKey → UInt32) (bits : ℕ) (timeoutMs : UInt32)
    (backend : BackendInfo) :
    ∃ s t, Reaps 0 (init bits timeoutMs 0 1).nat t ∧
      run hash (init bits timeoutMs 0 1) [tcpArrival backend 40000 kTcpSyn] =
        openAt hash { init bits timeoutMs 0 1 with nat := t }
          (newFlow hash (tcpSegment 40000 kTcpSyn) (.single backend) 1024) s 0 := by
  obtain ⟨hfin, hrst, hmay⟩ := has_syn 40000
  obtain ⟨s, hopens⟩ := exists_opensIn_init hash bits timeoutMs backend 0 (rfl :
    (tcpSegment 40000 kTcpSyn).dir = .forward) hmay
  obtain ⟨t, hreaps, heq⟩ := OpensIn.arrive_fst_eq (a := tcpArrival backend 40000 kTcpSyn) hopens
    (forwardMap_empty timeoutMs) (usable_tcpArrival ..) hfin hrst
  refine ⟨s, t, hreaps, ?_⟩
  rw [run_cons, run_nil, heq, nextPort, BackendPool.select_single,
    init_portPools (show (0 : UInt8).toNat < kMaxBackends by decide),
    PortPool.acquire_forWorker_zero_one]
  rfl

/-- After the first SYN of a connection its entry has the first source port, and a cell in the
reverse index. -/
theorem exists_synFlow (hash : FlowKey → UInt32) (bits : ℕ) (timeoutMs : UInt32)
    (backend : BackendInfo) :
    ∃ s,
      (run hash (init bits timeoutMs 0 1) [tcpArrival backend 40000 kTcpSyn]).nat.slots s =
        synFlow backend 1024 ∧
      OnReplyScan hash
        (run hash (init bits timeoutMs 0 1) [tcpArrival backend 40000 kTcpSyn]).nat s := by
  obtain ⟨s, t, hreaps, heq⟩ := exists_openAt_syn hash bits timeoutMs backend
  refine ⟨s, ?_, ?_⟩
  · rw [heq, openAt_slots, Function.update_self]
    exact newFlow_syn hash backend 1024
  · rw [heq, openAt_nat, place]
    refine onReplyScan_indexReverse_self ⟨s, fun p hp => ?_⟩
    rw [hreaps.rev_eq] at hp
    exact absurd hp (Option.some_ne_none p).symm

/-- After the first SYN of a connection its later segments belong to a live flow. -/
theorem exists_belongsTo_syn (hash : FlowKey → UInt32) (bits : ℕ) (timeoutMs : UInt32)
    (backend : BackendInfo) (tcpFlags : UInt8) :
    ∃ s, (run hash (init bits timeoutMs 0 1) [tcpArrival backend 40000 kTcpSyn]).BelongsTo
      0 (tcpSegment 40000 tcpFlags) s := by
  obtain ⟨s, hslot, -⟩ := exists_synFlow hash bits timeoutMs backend
  refine ⟨s, ?_, ?_⟩
  · rw [hslot]
    exact live_of_lastSeen_eq ⟨rfl, rfl⟩ rfl
  · rw [hslot]
    rfl

/-- The pool with a single backend, disabled. -/
def disabledPool (backend : BackendInfo) : BackendPool where
  slots := [backend]
  enabled := [0]
  length_enabled := rfl
  length_slots_le := BackendPool.length_singleton_le backend

/-- A segment with the given flags from the backend to a source port of the load balancer. -/
def replyArrival (backend : BackendInfo) (snatPort : UInt16) (tcpFlags : UInt8) : Arrival where
  pool := some (.single backend)
  nowMs := 0
  packet :=
    { srcIp := backend.ip, dstIp := 0x0A000201, srcPort := backend.port, dstPort := snatPort,
      proto := kProtoTcp, dir := .reverse, tcpFlags := tcpFlags }

/-- While the backend is enabled, the second segment of a connection goes on to it, and its answer
goes back to the client. -/
theorem drains_second_segment :
    let backend : BackendInfo := { ip := 0x0A000202, port := 8080 }
    let hash := FlowKey.hash .sse42
    let n := run hash (init 20 30000 0 1) [tcpArrival backend 40000 kTcpSyn]
    let ack := tcpArrival backend 40000 0x10
    let reply := replyArrival backend 1024 0x12
    ∃ s, n.nat.slots s = synFlow backend 1024 ∧
      (arrive hash n ack).2 = (true, ack.packet.translated (synFlow backend 1024)) ∧
      (arrive hash n reply).2 = (true, reply.packet.translated (synFlow backend 1024)) := by
  intro backend hash n ack reply
  obtain ⟨s, hslot, hscan⟩ := exists_synFlow hash 20 30000 backend
  have hlive : (n.nat.slots s).Live n.nat.timeoutMs 0 := by
    rw [hslot]
    exact live_of_lastSeen_eq ⟨rfl, rfl⟩ rfl
  have hpool : ∃ pool, some (BackendPool.single backend) = some pool ∧ pool.activeCount ≠ 0 :=
    ⟨.single backend, rfl, Nat.one_ne_zero⟩
  refine ⟨s, hslot, ?_, ?_⟩
  · have hs : n.BelongsTo ack.nowMs ack.packet s := ⟨hlive, hslot ▸ rfl⟩
    rw [← hslot]
    exact (drains_iff_pool_usable hash 20 30000 0 1 _ ack s hs).mpr ⟨hpool, Direction.noConfusion⟩
  · have hs : n.BelongsTo reply.nowMs reply.packet s := ⟨hlive, hslot ▸ rfl⟩
    have hstable : StableBackends [backend] [tcpArrival backend 40000 kTcpSyn] :=
      stableBackends_single fun a ha => List.mem_singleton.mp ha ▸ rfl
    have hacc := accounted_run hstable hash 20 30000 0 1
    rw [← hslot]
    refine (drains_iff_pool_usable hash 20 30000 0 1 _ reply s hs).mpr ⟨hpool, fun _ => ?_⟩
    exact (answeredFor_iff_onReplyScan hlive fun c hans =>
      hacc.eq_of_revKey_eq hstable.distinct hans.1.1 hlive.1 hans.2).mpr hscan

/-- When the only backend gets disabled, the second segment of an established connection is
dropped. -/
theorem disabled_pool_drops_established_flow :
    let backend : BackendInfo := { ip := 0x0A000202, port := 8080 }
    let hash := FlowKey.hash .sse42
    let n := run hash (init 20 30000 0 1) [tcpArrival backend 40000 kTcpSyn]
    let a : Arrival := ⟨some (disabledPool backend), 0, tcpSegment 40000 0x10⟩
    ∃ s, n.BelongsTo a.nowMs a.packet s ∧ (arrive hash n a).2 = (false, a.packet) := by
  intro backend hash n a
  obtain ⟨s, hs⟩ := exists_belongsTo_syn hash 20 30000 backend 0x10
  exact ⟨s, hs, congrArg Prod.snd (arrive_of_not_usable hash n (a := a) rfl)⟩

end LbNode

end Cerebellum
