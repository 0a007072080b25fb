import Cerebellum.Nodes.Drain

/-!
# Closing a TCP connection

`MaybeTeardown` remembers in which directions a FIN has passed, and closes the flow together with
the second of the two. So the segments of the close handshake are sent on to the peer up to and
including the second FIN, in whichever order the two sides close; the entry is then gone, and since
only a SYN opens a flow, the acknowledgement of the second FIN is not sent on.

The segments may arrive among any other packets. The flow stays in the table as long as no packet
comes later than the timeout after the flow's last segment. What the backend sends gets back to the
client as long as no other live flow has the same reply tuple; if the published pools move a backend
to another slot, two flows can have the same one, and the segments of one of them go astray.

## Main definitions

* `Cerebellum.PacketMeta.OfFlow`: the packet has the key or the reply tuple of the flow.
* `Cerebellum.finned`: a FIN of the flow has passed in a direction.
* `Cerebellum.LbNode.CloseHandshake`: a run that closes the flow in a slot.
* `Cerebellum.LbNode.OwnsReplies`: no other flow has its reply tuple meanwhile.

## Main results

* `Cerebellum.LbNode.close_passes_until_second_fin`: what is sent on.
* `Cerebellum.LbNode.ownsReplies_of_stableBackends`: pools that keep the backends in their slots.
* `Cerebellum.LbNode.close_not_passed`: a connection whose last acknowledgement is not sent on, and
  one that shares its reply tuple.
-/

open Probing

namespace Cerebellum

open NatTable

/-- The packet has the key of the flow, or comes from a backend with its reply tuple. -/
def PacketMeta.OfFlow (m : PacketMeta) (flow : NatFlow) : Prop :=
  (m.dir = .forward ∧ flow.fwdKey = m.flowKey) ∨ (m.dir = .reverse ∧ flow.revKey = m.replyKey)

instance (m : PacketMeta) (flow : NatFlow) : Decidable (m.OfFlow flow) :=
  inferInstanceAs (Decidable (_ ∨ _))

/-- The time of the last packet of the flow, or `start` if there was none. -/
def lastSegment (flow : NatFlow) (start : UInt32) (bs : List Arrival) : UInt32 :=
  bs.foldl (fun t b => if b.packet.OfFlow flow then b.nowMs else t) start

/-- A FIN of the flow has passed in the direction. -/
def finned (flow : NatFlow) (dir : Direction) (bs : List Arrival) : Bool :=
  bs.any fun b => b.packet.OfFlow flow && b.packet.dir = dir && b.packet.has kTcpFin

/-- The value of `fin_seen` after FINs in the given directions. -/
def finBits (forward reverse : Bool) : UInt8 :=
  (if forward then finBit .forward else 0) ||| (if reverse then finBit .reverse else 0)

theorem lastSegment_concat (flow : NatFlow) (start : UInt32) (bs : List Arrival) (b : Arrival) :
    lastSegment flow start (bs ++ [b]) =
      if b.packet.OfFlow flow then b.nowMs else lastSegment flow start bs := by
  rw [lastSegment, List.foldl_append]
  rfl

theorem finned_concat (flow : NatFlow) (dir : Direction) (bs : List Arrival) (b : Arrival) :
    finned flow dir (bs ++ [b]) = (finned flow dir bs ||
      (b.packet.OfFlow flow && b.packet.dir = dir && b.packet.has kTcpFin)) := by
  simp only [finned, List.any_append, List.any_cons, List.any_nil, Bool.or_false]

theorem finBits_or (forward reverse : Bool) (dir : Direction) (fin : Bool) :
    (if fin then finBits forward reverse ||| finBit dir else finBits forward reverse) =
      finBits (forward || (dir = .forward && fin)) (reverse || (dir = .reverse && fin)) := by
  cases forward <;> cases reverse <;> cases dir <;> cases fin <;> rfl

theorem finBits_eq_both (forward reverse : Bool) :
    finBits forward reverse = finBit .forward ||| finBit .reverse ↔
      (forward && reverse) = true := by
  cases forward <;> cases reverse <;> decide

namespace LbNode

variable {bits : ℕ} {hash : FlowKey → UInt32} {pool : BackendPool} {nowMs : UInt32}

/-- From `n` on the packets close the TCP flow in slot `s`: no FIN of it has passed before, its
segments have neither SYN nor RST and find a pool with an enabled backend, and no packet comes later
than the timeout after the last segment of the flow. -/
structure CloseHandshake (n : LbNode bits) (s : Slot bits) (bs : List Arrival) : Prop where
  unreaped : (n.nat.slots s).Unreaped
  tcp : (n.nat.slots s).fwdKey.proto = kProtoTcp
  finSeen : (n.nat.slots s).finSeen = 0
  segment : ∀ b ∈ bs, b.packet.OfFlow (n.nat.slots s) →
    b.usable ≠ none ∧ b.packet.has kTcpSyn = false ∧ b.packet.has kTcpRst = false
  onTime : ∀ pre b post, bs = pre ++ b :: post →
    b.nowMs - lastSegment (n.nat.slots s) (n.nat.slots s).lastSeenMs pre ≤ n.nat.timeoutMs

/-- Whenever the backend sends a segment of the flow in slot `s`, while this is live, no other live
flow has its reply tuple. -/
def OwnsReplies (hash : FlowKey → UInt32) (n : LbNode bits) (s : Slot bits) (bs : List Arrival) :
    Prop :=
  ∀ pre b post, bs = pre ++ b :: post → b.packet.dir = .reverse →
    b.packet.OfFlow (n.nat.slots s) →
    (run hash n pre).nat.Answers b.packet.replyKey b.nowMs s →
      ∀ c, (run hash n pre).nat.Answers b.packet.replyKey b.nowMs c → c = s

/-! ### Packets of other flows -/

/-- A segment without RST marks its FIN, and the second FIN closes the flow. -/
theorem maybeTeardown_slots_self {n : LbNode bits} {s : Slot bits}
    (hun : (n.nat.slots s).Unreaped) {m : PacketMeta} (hrst : m.has kTcpRst = false) :
    let fins := if m.has kTcpFin then (n.nat.slots s).finSeen ||| finBit m.dir
      else (n.nat.slots s).finSeen
    if m.has kTcpFin = true ∧ fins = finBit .forward ||| finBit .reverse then
      ¬ ((n.maybeTeardown s m).nat.slots s).Unreaped
    else (n.maybeTeardown s m).nat.slots s = { n.nat.slots s with finSeen := fins } := by
  intro fins
  cases hfin : m.has kTcpFin with
  | false =>
    rw [maybeTeardown_of_not_has n s hfin hrst]
    simp only [fins, hfin, Bool.false_eq_true, false_and, if_false]
  | true =>
    have hmarked : ((n.markFin s m.dir).nat.slots s) =
        { n.nat.slots s with finSeen := fins } := by
      rw [markFin_slots, Function.update_self]
      simp only [fins, hfin, if_true]
    have hunmarked : ((n.markFin s m.dir).nat.slots s).Unreaped := by
      rw [hmarked]
      exact hun
    simp only [maybeTeardown, hfin, hrst, if_true, Bool.false_or, Bool.true_and, hmarked,
      decide_eq_true_eq, true_and]
    by_cases hboth : fins = finBit .forward ||| finBit .reverse
    · rw [if_pos hboth, if_pos hboth, teardown_slots hunmarked, Function.update_self]
      exact fun h => Bool.noConfusion h.2
    · rw [if_neg hboth, if_neg hboth, hmarked]

/-- A packet of another flow leaves a live entry and its cell alone. -/
theorem arrive_of_not_ofFlow (hash : FlowKey → UInt32) {n : LbNode bits} {s : Slot bits}
    {b : Arrival} (hlive : (n.nat.slots s).Live n.nat.timeoutMs b.nowMs)
    (hother : ¬ b.packet.OfFlow (n.nat.slots s)) :
    (arrive hash n b).1.nat.slots s = n.nat.slots s ∧
      (OnReplyScan hash n.nat s → OnReplyScan hash (arrive hash n b).1.nat s) := by
  cases husable : b.usable with
  | none =>
    rw [arrive_of_not_usable hash n husable]
    exact ⟨rfl, id⟩
  | some pool =>
    rw [arrive_of_usable hash n husable]
    have hreap {t : NatTable bits} (h : Reaps b.nowMs n.nat t) :
        t.slots s = n.nat.slots s ∧ (OnReplyScan hash n.nat s → OnReplyScan hash t s) := by
      refine ⟨h.slots_eq_of_live hlive, fun hscan => ?_⟩
      rwa [OnReplyScan, h.slots_eq_of_live hlive, h.rev_eq]
    -- whatever slot the packet is handled along, it is another one
    have halong {r : LbNode bits} {c : Slot bits} (hc : (r.nat.slots c).Unreaped) (hne : s ≠ c)
        (h : r.nat.slots s = n.nat.slots s ∧
          (OnReplyScan hash n.nat s → OnReplyScan hash r.nat s)) :
        (r.maybeTeardown c b.packet).nat.slots s = n.nat.slots s ∧
          (OnReplyScan hash n.nat s →
            OnReplyScan hash (r.maybeTeardown c b.packet).nat s) := by
      have hwrites := writesAt_maybeTeardown hc b.packet
      refine ⟨(hwrites.slots s hne).trans h.1, fun hscan => ?_⟩
      rw [OnReplyScan, hwrites.slots s hne, hwrites.rev]
      exact h.2 hscan
    have htouched {t : NatTable bits} {c : Slot bits} (h : Reaps b.nowMs n.nat t) (hne : s ≠ c)
        (hc : (t.slots c).Live t.timeoutMs b.nowMs) :=
      halong (r := { n with nat := t.touch c b.nowMs }) (live_touch hc).1 hne <| by
        simpa only [OnReplyScan, touch_slots, touch_rev, Function.update_of_ne hne] using hreap h
    have hout := handlePacket_outcome hash n pool b.nowMs b.packet
    generalize handlePacket hash n pool b.nowMs b.packet = result at hout ⊢
    cases hout with
    | @forward t c hdir hreaps hc hkey =>
      refine htouched hreaps ?_ hc
      rintro rfl
      exact hother (Or.inl ⟨hdir, (hreap hreaps).1 ▸ hkey⟩)
    | @opened t c hdir hreaps hmay hopens =>
      have hlive' := (hreaps.live_iff s).mpr hlive
      have hne : s ≠ c := by
        rintro rfl
        exact hopens.dead hlive'
      refine halong (live_openAt _ _ _ _).1 hne ⟨?_, fun hscan => ?_⟩
      · rw [openAt_slots, Function.update_of_ne hne]
        exact (hreap hreaps).1
      · exact OnReplyScan.openAt hne ((hreap hreaps).2 hscan) hlive'
    | refused _ hreaps => exact hreap hreaps
    | @reverse t i c hdir hreaps hi hcell hans hfirst =>
      refine htouched hreaps ?_ ((hreaps.live_iff c).mpr hans.1)
      rintro rfl
      exact hother (Or.inr ⟨hdir, hans.2⟩)
    | unknown _ hreaps => exact hreap hreaps

/-! ### Segments of the flow -/

/-- No FIN of the flow has passed in one of the directions, and the flow is still in slot `s`, with
the time of its last segment and the directions of its FINs. -/
structure StillOpen (hash : FlowKey → UInt32) (n : LbNode bits) (s : Slot bits) (flow : NatFlow)
    (bs : List Arrival) : Prop where
  half : (finned flow .forward bs && finned flow .reverse bs) = false
  slot : n.nat.slots s =
    { flow with
      lastSeenMs := lastSegment flow flow.lastSeenMs bs
      finSeen := finBits (finned flow .forward bs) (finned flow .reverse bs) }
  onReplyScan : OnReplyScan hash n.nat s

/-- No entry for the key is left. -/
def Gone (n : LbNode bits) (key : FlowKey) : Prop :=
  ∀ c, (n.nat.slots c).Unreaped → (n.nat.slots c).fwdKey ≠ key

/-- The key stays away if the packet cannot open a flow for it. -/
theorem Gone.arrive {n : LbNode bits} {key : FlowKey} (h : n.Gone key) {b : Arrival}
    (hclosed : b.packet.dir = .forward → b.packet.flowKey = key → ¬ MayOpen b.packet) :
    (LbNode.arrive hash n b).1.Gone key := by
  refine @run_induct_mem _ hash (fun n => n.Gone key) n h [b] ?_
  rintro a ha pool - n n' hn hstep c hc
  obtain rfl := List.mem_singleton.mp ha
  rcases hstep.slot_cases c with hkept | ⟨hdir, hmay, -, hnew⟩
  · rw [(hkept.same hc).fwdKey]
    exact hn c (hkept.unreaped hc)
  · rw [hnew]
    exact fun hkey => hclosed hdir hkey hmay

/-- A segment of the flow is sent on; it marks its FIN, and if it brings the second one the flow is
gone. -/
theorem StillOpen.arrive {n : LbNode bits} {s : Slot bits} {flow : NatFlow} {pre : List Arrival}
    {b : Arrival} (h : StillOpen hash n s flow pre) (hmap : ForwardMap hash n.nat)
    (hun : flow.Unreaped) (hseg : b.packet.OfFlow flow) (husable : b.usable = some pool)
    (hrst : b.packet.has kTcpRst = false)
    (honTime : b.nowMs - lastSegment flow flow.lastSeenMs pre ≤ n.nat.timeoutMs)
    (hunique : b.packet.dir = .reverse → n.nat.Answers b.packet.replyKey b.nowMs s →
      ∀ c, n.nat.Answers b.packet.replyKey b.nowMs c → c = s) :
    (LbNode.arrive hash n b).2 = (true, b.packet.translated flow) ∧
      (StillOpen hash (LbNode.arrive hash n b).1 s flow (pre ++ [b]) ∨
        ((finned flow .forward (pre ++ [b]) && finned flow .reverse (pre ++ [b])) = true ∧
          (LbNode.arrive hash n b).1.Gone flow.fwdKey)) := by
  have hlive : (n.nat.slots s).Live n.nat.timeoutMs b.nowMs := by
    rw [h.slot]
    exact ⟨hun, honTime⟩
  have hbelongs : n.BelongsTo b.nowMs b.packet s := by
    refine ⟨hlive, ?_⟩
    rw [h.slot]
    rcases hseg with ⟨hdir, hkey⟩ | ⟨hdir, hkey⟩ <;> rw [hdir] <;> exact hkey
  obtain ⟨t, hreaps, heq⟩ := hbelongs.handlePacket_eq pool hmap fun hrev => by
    have hkey := hbelongs.2
    rw [hrev] at hkey
    exact ⟨h.onReplyScan, hunique hrev ⟨hlive, hkey⟩⟩
  rw [arrive_of_usable hash n husable, heq]
  refine ⟨by rw [h.slot]; rfl, ?_⟩
  -- the entry right before `MaybeTeardown`
  have htlive := (hreaps.live_iff s).mpr hlive
  have htouch : (t.touch s b.nowMs).slots s = { n.nat.slots s with lastSeenMs := b.nowMs } := by
    rw [touch_slots, Function.update_self, hreaps.slots_eq_of_live hlive]
  have hself := maybeTeardown_slots_self (n := { n with nat := t.touch s b.nowMs })
    (live_touch htlive).1 hrst
  have hfins (dir : Direction) : finned flow dir (pre ++ [b]) =
      (finned flow dir pre || (b.packet.dir = dir && b.packet.has kTcpFin)) := by
    simp only [finned_concat, hseg, decide_true, Bool.true_and]
  have hseen : (n.nat.slots s).finSeen =
      finBits (finned flow .forward pre) (finned flow .reverse pre) := by
    rw [h.slot]
  simp only [htouch, hseen, finBits_or, ← hfins] at hself
  split_ifs at hself with hboth
  · obtain ⟨-, hboth⟩ := hboth
    refine Or.inr ⟨(finBits_eq_both _ _).mp hboth, fun c hc hkey => ?_⟩
    have hkept := QuietSteps.kept (((quietSteps_of_reaps hreaps).tail (.touch htlive)).trans
      (quietSteps_maybeTeardown b.packet (live_touch htlive))) c
    have hcs : c = s := by
      refine hmap.unique c s (hkept.unreaped hc) hlive.1 ?_
      rw [← (hkept.same hc).fwdKey, hkey, h.slot]
    exact hself (hcs ▸ hc)
  · refine Or.inl ⟨?_, ?_, ?_⟩
    · cases hfin : b.packet.has kTcpFin with
      | true => exact Bool.eq_false_iff.mpr fun h => hboth ⟨hfin, (finBits_eq_both _ _).mpr h⟩
      | false => simpa only [hfins, hfin, Bool.and_false, Bool.or_false] using h.half
    · rw [hself, h.slot, lastSegment_concat, if_pos hseg]
    · have hscan := h.onReplyScan
      have hrev := (writesAt_maybeTeardown (n := { n with nat := t.touch s b.nowMs })
        (live_touch htlive).1 b.packet).rev
      rw [OnReplyScan, h.slot] at hscan
      rw [OnReplyScan, hself, hrev, touch_rev, hreaps.rev_eq, h.slot]
      exact hscan

/-! ### Runs -/

/-- The entries are for the virtual service if the forward packets are. -/
theorem served_run (hash : FlowKey → UInt32) {vip : UInt32} {vipPort : UInt16} {as : List Arrival}
    (hvip : ∀ b ∈ as, b.packet.dir = .forward →
      b.packet.dstIp = vip ∧ b.packet.dstPort = vipPort)
    (bits : ℕ) (timeoutMs : UInt32) (workerId nWorkers : UInt16) (c : Slot bits)
    (hc : ((run hash (init bits timeoutMs workerId nWorkers) as).nat.slots c).Unreaped) :
    ((run hash (init bits timeoutMs workerId nWorkers) as).nat.slots c).fwdKey.dstIp = vip ∧
      ((run hash (init bits timeoutMs workerId nWorkers) as).nat.slots c).fwdKey.dstPort =
        vipPort := by
  refine run_induct_mem (fun n => ∀ c, (n.nat.slots c).Unreaped →
    (n.nat.slots c).fwdKey.dstIp = vip ∧ (n.nat.slots c).fwdKey.dstPort = vipPort)
    (fun _ h => Bool.noConfusion h.1) ?_ c hc
  rintro a ha pool - n n' hn hstep c hc
  rcases hstep.slot_cases c with hkept | ⟨hdir, -, -, hnew⟩
  · rw [(hkept.same hc).fwdKey]
    exact hn c (hkept.unreaped hc)
  · rw [hnew]
    exact hvip a ha hdir

/-- A forward segment that finds no entry for its key and cannot open a flow is refused. -/
theorem Gone.refused {n : LbNode bits} {b : Arrival} (h : n.Gone b.packet.flowKey)
    (hdir : b.packet.dir = .forward) (hclosed : ¬ MayOpen b.packet) :
    (LbNode.arrive hash n b).2 = (false, b.packet) := by
  cases husable : b.usable with
  | none => rw [arrive_of_not_usable hash n husable]
  | some pool =>
    rw [arrive_of_usable hash n husable]
    have hout := handlePacket_outcome hash n pool b.nowMs b.packet
    generalize handlePacket hash n pool b.nowMs b.packet = r at hout ⊢
    cases hout with
    | @forward t c _ hreaps hc hkey =>
      have heq := hreaps.slots_eq_of_unreaped hc.1
      rw [heq] at hkey
      exact absurd hkey (h c (heq ▸ hc.1))
    | opened _ _ hmay => exact absurd hmay hclosed
    | refused => rfl
    | reverse hrev => exact absurd (hrev.symm.trans hdir) (by decide)
    | unknown => rfl

/-- A segment that finds no entry for its key is not sent on to the peer of its flow. -/
theorem Gone.not_translated {n : LbNode bits} {flow : NatFlow} (h : n.Gone flow.fwdKey)
    (hserved : ∀ c, (n.nat.slots c).Unreaped →
      (n.nat.slots c).fwdKey.dstIp = flow.fwdKey.dstIp ∧
        (n.nat.slots c).fwdKey.dstPort = flow.fwdKey.dstPort)
    {b : Arrival} (hseg : b.packet.OfFlow flow)
    (hclosed : b.packet.dir = .forward → ¬ MayOpen b.packet) :
    (LbNode.arrive hash n b).2 ≠ (true, b.packet.translated flow) := by
  rcases hseg with ⟨hdir, hkey⟩ | ⟨hdir, hreply⟩
  · rw [Gone.refused (hkey ▸ h) hdir (hclosed hdir)]
    exact fun hsent => Bool.noConfusion (congrArg Prod.fst hsent)
  intro hsent
  cases husable : b.usable with
  | none =>
    rw [arrive_of_not_usable hash n husable] at hsent
    exact Bool.noConfusion (congrArg Prod.fst hsent)
  | some pool =>
    rw [arrive_of_usable hash n husable] at hsent
    have hout := handlePacket_outcome hash n pool b.nowMs b.packet
    generalize handlePacket hash n pool b.nowMs b.packet = r at hout hsent
    cases hout with
    | forward hfwd => exact absurd (hfwd.symm.trans hdir) (by decide)
    | opened hfwd => exact absurd (hfwd.symm.trans hdir) (by decide)
    | refused => exact Bool.noConfusion (congrArg Prod.fst hsent)
    | @reverse t i c _ hreaps hi hcell hans hfirst =>
      -- the entry has the client, the service and the protocol of the flow
      obtain ⟨-, -, -, hproto⟩ := replyKey_inj.mp (hans.2.trans hreply.symm)
      obtain ⟨hdstIp, hdstPort⟩ := hserved c hans.1.1
      rw [reverseVia, touch_slots, Function.update_self, hreaps.slots_eq_of_live hans.1,
        PacketMeta.translated, hdir] at hsent
      have hmeta := congrArg Prod.snd hsent
      have hsrcIp : (n.nat.slots c).fwdKey.srcIp = flow.fwdKey.srcIp :=
        congrArg PacketMeta.clientIp hmeta
      have hsrcPort : (n.nat.slots c).fwdKey.srcPort = flow.fwdKey.srcPort :=
        congrArg PacketMeta.clientPort hmeta
      exact h c hans.1.1 (FlowKey.ext hsrcIp hdstIp hsrcPort hdstPort hproto)
    | unknown => exact Bool.noConfusion (congrArg Prod.fst hsent)

/-- After the flow is gone its segments cannot open it again. -/
theorem CloseHandshake.not_mayOpen {n : LbNode bits} {s : Slot bits} {bs : List Arrival}
    (h : n.CloseHandshake s bs) {b : Arrival} (hmem : b ∈ bs) (hdir : b.packet.dir = .forward)
    (hkey : (n.nat.slots s).fwdKey = b.packet.flowKey) : ¬ MayOpen b.packet := by
  have hproto : b.packet.proto = kProtoTcp := by
    rw [← h.tcp, hkey]
    rfl
  exact not_not.mpr ⟨hproto, (h.segment b hmem (Or.inl ⟨hdir, hkey⟩)).2.1⟩

section Handshake

variable {timeoutMs : UInt32} {workerId nWorkers : UInt16} {backends : List BackendInfo}
  {as bs : List Arrival} {s : Slot bits}

/-- A flow has its reply tuple to itself if the pools keep the backends, with distinct addresses and
ports, in their slots. -/
theorem ownsReplies_of_stableBackends (hstable : StableBackends backends (as ++ bs))
    (s : Slot bits) :
    (run hash (init bits timeoutMs workerId nWorkers) as).OwnsReplies hash s bs := by
  intro pre b post hbs _ _ hs c hc
  rw [hbs, ← List.append_assoc] at hstable
  rw [← run_append] at hs hc
  have hacc := accounted_run hstable.append_left hash bits timeoutMs workerId nWorkers
  exact hacc.eq_of_revKey_eq hstable.distinct hc.1.1 hs.1.1 (hc.2.trans hs.2.symm)

/-- What a segment of the handshake does while the flow is in its slot. -/
theorem CloseHandshake.arrive_segment
    (howns : (run hash (init bits timeoutMs workerId nWorkers) as).OwnsReplies hash s bs)
    (h : (run hash (init bits timeoutMs workerId nWorkers) as).CloseHandshake s bs)
    {pre post : List Arrival} {b : Arrival} (hbs : bs = pre ++ b :: post) :
    let n := run hash (init bits timeoutMs workerId nWorkers) as
    let flow := n.nat.slots s
    b.packet.OfFlow flow → StillOpen hash (run hash n pre) s flow pre →
      (arrive hash (run hash n pre) b).2 = (true, b.packet.translated flow) ∧
        (StillOpen hash (arrive hash (run hash n pre) b).1 s flow (pre ++ [b]) ∨
          ((finned flow .forward (pre ++ [b]) && finned flow .reverse (pre ++ [b])) = true ∧
            (arrive hash (run hash n pre) b).1.Gone flow.fwdKey)) := by
  intro n flow hseg hopen
  have hmem : b ∈ bs := hbs ▸ List.mem_append_right pre (List.mem_cons_self ..)
  obtain ⟨husable, -, hrst⟩ := h.segment b hmem hseg
  obtain ⟨pool, husable⟩ := Option.ne_none_iff_exists'.mp husable
  have hmap : ForwardMap hash (run hash n pre).nat := by
    rw [← run_append]
    exact forwardMap_run ..
  refine hopen.arrive hmap h.unreaped hseg husable hrst ?_
    fun hrev => howns pre b post hbs hrev hseg
  rw [run_timeoutMs]
  exact h.onTime pre b post hbs

/-- While the handshake goes on the flow is in its slot, or both FINs have passed and it is
gone. -/
theorem CloseHandshake.stillOpen_or_gone
    (howns : (run hash (init bits timeoutMs workerId nWorkers) as).OwnsReplies hash s bs)
    (hscan : OnReplyScan hash (run hash (init bits timeoutMs workerId nWorkers) as).nat s)
    (h : (run hash (init bits timeoutMs workerId nWorkers) as).CloseHandshake s bs)
    {pre post : List Arrival} (hbs : bs = pre ++ post) :
    let n := run hash (init bits timeoutMs workerId nWorkers) as
    let flow := n.nat.slots s
    StillOpen hash (run hash n pre) s flow pre ∨
      ((finned flow .forward pre && finned flow .reverse pre) = true ∧
        (run hash n pre).Gone flow.fwdKey) := by
  intro n flow
  induction pre using List.reverseRecOn generalizing post with
  | nil =>
    refine Or.inl ⟨rfl, ?_, hscan⟩
    have hnone : finBits (finned flow .forward []) (finned flow .reverse []) = flow.finSeen := by
      rw [show flow.finSeen = 0 from h.finSeen]
      change finBits false false = 0
      decide
    rw [hnone]
    rfl
  | append_singleton pre b ih =>
    rw [List.append_assoc, List.singleton_append] at hbs
    have hmem : b ∈ bs := hbs ▸ List.mem_append_right pre (List.mem_cons_self ..)
    rw [run_append, run_cons, run_nil]
    rcases ih hbs with hopen | ⟨hboth, hgone⟩
    · by_cases hseg : b.packet.OfFlow flow
      · exact (h.arrive_segment howns hbs hseg hopen).2
      · have hlive : ((run hash n pre).nat.slots s).Live (run hash n pre).nat.timeoutMs
          b.nowMs := by
          rw [hopen.slot, run_timeoutMs]
          exact ⟨h.unreaped, h.onTime pre b post hbs⟩
        obtain ⟨hslot, hcell⟩ := arrive_of_not_ofFlow hash hlive (by
          rw [hopen.slot]
          exact hseg)
        have hfins (dir : Direction) : finned flow dir (pre ++ [b]) = finned flow dir pre := by
          simp only [finned_concat, hseg, decide_false, Bool.false_and, Bool.or_false]
        refine Or.inl ⟨?_, ?_, hcell hopen.onReplyScan⟩
        · rw [hfins, hfins]
          exact hopen.half
        · rw [hslot, hopen.slot, hfins, hfins, lastSegment_concat, if_neg hseg]
    · refine Or.inr ⟨?_, hgone.arrive fun hdir hkey => h.not_mayOpen hmem hdir hkey.symm⟩
      rw [Bool.and_eq_true] at hboth
      simp only [finned_concat, hboth.1, hboth.2, Bool.true_or, Bool.and_self]

end Handshake

/-- The close handshake of a TCP connection. For every run, every flow without a FIN so far, and
every continuation that closes it, in whichever order and among whichever other packets: a segment
of the flow is sent on to its peer if and only if FINs have not passed in both directions before it.
So the segments up to and including the second FIN are sent on, and later ones are not. The flow is
supposed to have its cell in the reverse index, and its reply tuple to itself whenever the backend
sends a segment; the forward packets are those for the virtual service. -/
theorem close_passes_until_second_fin (hash : FlowKey → UInt32) (bits : ℕ) (timeoutMs : UInt32)
    (workerId nWorkers : UInt16) (vip : UInt32) (vipPort : UInt16) (as bs : List Arrival)
    (s : Slot bits)
    (hvip : ∀ b ∈ as ++ bs, b.packet.dir = .forward →
      b.packet.dstIp = vip ∧ b.packet.dstPort = vipPort)
    (hscan : OnReplyScan hash (run hash (init bits timeoutMs workerId nWorkers) as).nat s)
    (howns : (run hash (init bits timeoutMs workerId nWorkers) as).OwnsReplies hash s bs)
    (hclose : (run hash (init bits timeoutMs workerId nWorkers) as).CloseHandshake s bs) :
    let n := run hash (init bits timeoutMs workerId nWorkers) as
    let flow := n.nat.slots s
    ∀ pre b post, bs = pre ++ b :: post → b.packet.OfFlow flow →
      ((arrive hash (run hash n pre) b).2 = (true, b.packet.translated flow) ↔
        ¬ (finned flow .forward pre = true ∧ finned flow .reverse pre = true)) := by
  intro n flow pre b post hbs hseg
  have hmem : b ∈ bs := hbs ▸ List.mem_append_right pre (List.mem_cons_self ..)
  rw [← Bool.and_eq_true, Bool.not_eq_true]
  rcases hclose.stillOpen_or_gone howns hscan hbs with hopen | ⟨hboth, hgone⟩
  · exact iff_of_true (hclose.arrive_segment howns hbs hseg hopen).1 hopen.half
  · rw [hboth]
    refine iff_of_false (hgone.not_translated (fun c hc => ?_) hseg fun hdir => ?_) (by decide)
    · have hflow := served_run hash (fun a ha => hvip a (List.mem_append_left bs ha)) bits
        timeoutMs workerId nWorkers s hclose.unreaped
      rw [← run_append] at hc ⊢
      rw [hbs, ← List.append_assoc] at hvip
      have hother := served_run hash (fun a ha => hvip a (List.mem_append_left _ ha)) bits
        timeoutMs workerId nWorkers c hc
      exact ⟨hother.1.trans hflow.1.symm, hother.2.trans hflow.2.symm⟩
    · rcases hseg with ⟨-, hkey⟩ | ⟨hrev, -⟩
      · exact hclose.not_mayOpen hmem hdir hkey
      · exact absurd (hrev.symm.trans hdir) (by decide)

/-- The client closes, the backend closes and acknowledges, the client acknowledges. -/
def closing (backend : BackendInfo) (snatPort : UInt16) : List Arrival :=
  [tcpArrival backend 40000 0x11, replyArrival backend snatPort 0x11, tcpArrival backend 40000 0x10]

theorem mem_closing {backend : BackendInfo} {snatPort : UInt16} {b : Arrival}
    (h : b ∈ closing backend snatPort) :
    b.nowMs = 0 ∧ b.usable = some (.single backend) ∧ b.packet.has kTcpSyn = false ∧
      b.packet.has kTcpRst = false := by
  have hfin : ((0x11 : UInt8) &&& kTcpSyn = 0) ∧ (0x11 : UInt8) &&& kTcpRst = 0 := by decide
  have hack : ((0x10 : UInt8) &&& kTcpSyn = 0) ∧ (0x10 : UInt8) &&& kTcpRst = 0 := by decide
  have hnot {flags : UInt8} (h : flags = 0) : decide (flags ≠ 0) = false :=
    decide_eq_false (not_not.mpr h)
  have husable : (tcpArrival backend 40000 0x10).usable = some (.single backend) :=
    usable_tcpArrival ..
  simp only [closing, List.mem_cons, List.not_mem_nil, or_false] at h
  rcases h with rfl | rfl | rfl
  · exact ⟨rfl, husable, hnot hfin.1, hnot hfin.2⟩
  · exact ⟨rfl, husable, hnot hfin.1, hnot hfin.2⟩
  · exact ⟨rfl, husable, hnot hack.1, hnot hack.2⟩

theorem lastSegment_eq {flow : NatFlow} {t : UInt32} {bs : List Arrival}
    (h : ∀ b ∈ bs, b.nowMs = t) : lastSegment flow t bs = t := by
  induction bs using List.reverseRecOn with
  | nil => rfl
  | append_singleton bs b ih =>
    rw [lastSegment_concat, ih fun c hc => h c (List.mem_append_left [b] hc),
      h b (List.mem_append_right bs (List.mem_singleton_self b)), ite_self]

theorem ofFlow_of_mem_closing {backend : BackendInfo} {snatPort : UInt16} {b : Arrival}
    (h : b ∈ closing backend snatPort) : b.packet.OfFlow (synFlow backend snatPort) := by
  simp only [closing, List.mem_cons, List.not_mem_nil, or_false] at h
  rcases h with rfl | rfl | rfl
  · exact Or.inl ⟨rfl, rfl⟩
  · exact Or.inr ⟨rfl, rfl⟩
  · exact Or.inl ⟨rfl, rfl⟩

theorem closeHandshake_closing {n : LbNode bits} {s : Slot bits} {backend : BackendInfo}
    {snatPort : UInt16} (h : n.nat.slots s = synFlow backend snatPort) :
    n.CloseHandshake s (closing backend snatPort) where
  unreaped := h ▸ ⟨rfl, rfl⟩
  tcp := h ▸ rfl
  finSeen := h ▸ rfl
  segment b hb _ := by
    obtain ⟨-, husable, hsyn, hrst⟩ := mem_closing hb
    exact ⟨husable ▸ Option.some_ne_none _, hsyn, hrst⟩
  onTime pre b post hbs := by
    have hzero {c : Arrival} (hc : c ∈ pre ++ b :: post) : c.nowMs = 0 :=
      (mem_closing (hbs ▸ hc)).1
    rw [hzero (List.mem_append_right pre (List.mem_cons_self ..)), h,
      show (synFlow backend snatPort).lastSeenMs = 0 from rfl,
      lastSegment_eq fun c hc => hzero (List.mem_append_left _ hc), UInt32.sub_self]
    exact UInt32.zero_le

/-- Both FINs of the handshake come before the last acknowledgement. -/
theorem finned_closing (backend : BackendInfo) (snatPort : UInt16) :
    let flow := synFlow backend snatPort
    finned flow .reverse [tcpArrival backend 40000 0x11] = false ∧
      ∀ dir, finned flow dir [tcpArrival backend 40000 0x11, replyArrival backend snatPort 0x11] =
        true := by
  intro flow
  have hfin : decide ((0x11 : UInt8) &&& kTcpFin ≠ 0) = true := by decide
  have hforward : (tcpArrival backend 40000 0x11).packet.OfFlow flow := Or.inl ⟨rfl, rfl⟩
  have hreverse : (replyArrival backend snatPort 0x11).packet.OfFlow flow := Or.inr ⟨rfl, rfl⟩
  refine ⟨?_, fun dir => ?_⟩
  · simp [finned, tcpArrival, tcpSegment]
  · rw [finned, List.any_eq_true]
    cases dir with
    | forward =>
      refine ⟨_, List.mem_cons_self .., ?_⟩
      rw [decide_eq_true hforward, Bool.true_and]
      exact Bool.and_eq_true_iff.mpr ⟨decide_eq_true rfl, hfin⟩
    | reverse =>
      refine ⟨_, List.mem_cons_of_mem _ (List.mem_singleton_self _), ?_⟩
      rw [decide_eq_true hreverse, Bool.true_and]
      exact Bool.and_eq_true_iff.mpr ⟨decide_eq_true rfl, hfin⟩

theorem forall_mem_closing {P : Arrival → Prop} {backend : BackendInfo} {snatPort : UInt16}
    (hsyn : P (tcpArrival backend 40000 kTcpSyn)) (hclosing : ∀ b ∈ closing backend snatPort, P b) :
    ∀ b ∈ [tcpArrival backend 40000 kTcpSyn] ++ closing backend snatPort, P b :=
  List.forall_mem_cons.mpr ⟨hsyn, hclosing⟩

theorem stable_closing (backend : BackendInfo) (snatPort : UInt16) :
    StableBackends [backend] ([tcpArrival backend 40000 kTcpSyn] ++ closing backend snatPort) := by
  refine stableBackends_single (forall_mem_closing rfl fun b hb => ?_)
  exact (Arrival.usable_eq_some.mp (mem_closing hb).2.1).1

/-- The client and the backend close one after the other, and both FINs are sent on. -/
theorem both_fins_pass :
    let backend : BackendInfo := { ip := 0x0A000202, port := 8080 }
    let hash := FlowKey.hash .sse42
    ∃ s port, (run hash (init 20 30000 0 1) [tcpArrival backend 40000 kTcpSyn]).nat.slots s =
        synFlow backend port ∧
      (arrive hash (run hash (run hash (init 20 30000 0 1) [tcpArrival backend 40000 kTcpSyn])
          [tcpArrival backend 40000 0x11]) (replyArrival backend port 0x11)).2 =
        (true, (replyArrival backend port 0x11).packet.translated (synFlow backend port)) := by
  intro backend hash
  obtain ⟨s, hslot, hscan⟩ := exists_synFlow hash 20 30000 backend
  refine ⟨s, 1024, hslot, ?_⟩
  have hsent := close_passes_until_second_fin hash 20 30000 0 1 0x0A0001FD 80
    [tcpArrival backend 40000 kTcpSyn] (closing backend 1024) s
    (forall_mem_closing (fun _ => ⟨rfl, rfl⟩) fun b hb hdir => ?_) hscan
    (ownsReplies_of_stableBackends (stable_closing backend 1024) s)
    (closeHandshake_closing hslot) [tcpArrival backend 40000 0x11]
    (replyArrival backend 1024 0x11) [tcpArrival backend 40000 0x10] rfl
  · simp only [hslot] at hsent
    refine (hsent (Or.inr ⟨rfl, rfl⟩)).mpr ?_
    rw [(finned_closing backend 1024).1]
    exact fun h => Bool.noConfusion h.2
  · rcases ofFlow_of_mem_closing hb with ⟨-, hkey⟩ | ⟨hrev, -⟩
    · exact ⟨congrArg FlowKey.dstIp hkey.symm, congrArg FlowKey.dstPort hkey.symm⟩
    · exact absurd (hrev.symm.trans hdir) (by decide)

/-- The last acknowledgement of a close handshake finds no entry. -/
theorem last_ack_refused (hash : FlowKey → UInt32) (bits : ℕ) (timeoutMs : UInt32)
    {backend : BackendInfo} {s : Slot bits} {port : UInt16}
    (hslot : (run hash (init bits timeoutMs 0 1)
      [tcpArrival backend 40000 kTcpSyn]).nat.slots s = synFlow backend port)
    (hscan : OnReplyScan hash (run hash (init bits timeoutMs 0 1)
      [tcpArrival backend 40000 kTcpSyn]).nat s) :
    (arrive hash (run hash (run hash (init bits timeoutMs 0 1)
      [tcpArrival backend 40000 kTcpSyn])
        [tcpArrival backend 40000 0x11, replyArrival backend port 0x11])
      (tcpArrival backend 40000 0x10)).2 = (false, tcpSegment 40000 0x10) := by
  have hclose := closeHandshake_closing hslot
  have hmem : tcpArrival backend 40000 0x10 ∈ closing backend port :=
    List.mem_cons_of_mem _ (List.mem_cons_of_mem _ (List.mem_singleton_self _))
  have hgone := hclose.stillOpen_or_gone
    (ownsReplies_of_stableBackends (stable_closing backend port) s) hscan
    (show closing backend port = [tcpArrival backend 40000 0x11, replyArrival backend port 0x11] ++
      [tcpArrival backend 40000 0x10] from rfl)
  simp only [hslot] at hgone
  rcases hgone with hopen | ⟨-, hgone⟩
  · have hhalf := hopen.half
    rw [(finned_closing backend port).2, (finned_closing backend port).2] at hhalf
    exact Bool.noConfusion hhalf
  · refine Gone.refused hgone rfl (hclose.not_mayOpen hmem rfl ?_)
    rw [hslot]
    rfl

/-! ### A backend that moves to another slot -/

/-- A second connection is opened after the backend has moved. -/
def movedArrival (other backend : BackendInfo) : Arrival :=
  ⟨some (.second other backend), 0, tcpSegment 40001 kTcpSyn⟩

/-- The backend closes one of the connections. -/
def movedReply (other backend : BackendInfo) : Arrival :=
  { replyArrival backend 1024 0x11 with pool := some (.second other backend) }

/-- The entry of the second connection. -/
def movedFlow (backend : BackendInfo) : NatFlow :=
  { synFlow backend 1024 with fwdKey := (tcpSegment 40001 kTcpSyn).flowKey, backendIdx := 1 }

theorem newFlow_moved (hash : FlowKey → UInt32) (other backend : BackendInfo) :
    { newFlow hash (tcpSegment 40001 kTcpSyn) (.second other backend) 1024 with
      occupied := true, lastSeenMs := 0 } = movedFlow backend := by
  simp only [newFlow, BackendPool.select_second]
  rfl

/-- After the first SYN no other slot is in use, the pool of slot `1` has all its ports, and some
cell of the reverse index is empty. -/
theorem exists_only_synFlow (hash : FlowKey → UInt32) (hbits : bits ≠ 0) (timeoutMs : UInt32)
    (backend : BackendInfo) :
    let n := run hash (init bits timeoutMs 0 1) [tcpArrival backend 40000 kTcpSyn]
    ∃ s, n.nat.slots s = synFlow backend 1024 ∧ OnReplyScan hash n.nat s ∧
      (∀ c ≠ s, (n.nat.slots c).occupied = false) ∧ n.portPools 1 = .forWorker 0 1 ∧
      ∃ cell, n.nat.rev cell = none := by
  intro n
  obtain ⟨s, t, hreaps, heq⟩ := exists_openAt_syn hash bits timeoutMs backend
  obtain ⟨c, hslot, hscan⟩ := exists_synFlow hash bits timeoutMs backend
  have hothers (c : Slot bits) (hc : c ≠ s) : (n.nat.slots c).occupied = false := by
    rw [show n = _ from heq, openAt_slots, Function.update_of_ne hc, hreaps.occupied_eq]
    rfl
  obtain rfl : c = s := by
    by_contra hne
    exact Bool.noConfusion ((hothers c hne).symm.trans (congrArg NatFlow.occupied hslot))
  refine ⟨c, hslot, hscan, hothers, ?_, ?_⟩
  · have hidx : (1 : UInt8) ≠
        (newFlow hash (tcpSegment 40000 kTcpSyn) (.single backend) 1024).backendIdx := by
      rw [newFlow, BackendPool.select_single]
      exact show (1 : UInt8) ≠ 0 by decide
    rw [show n = _ from heq, openAt_portPools_of_ne hash (hreaps.occupied_eq c) hidx]
    exact @init_portPools bits 1 (show (1 : UInt8).toNat < kMaxBackends by decide) timeoutMs 0 1
  · -- opening one flow takes one cell at most
    have : Nontrivial (Slot bits) := Fin.nontrivial_iff_two_le.mpr (Nat.le_self_pow hbits 2)
    have hempty (cell : Slot bits) : t.rev cell = none := congrFun hreaps.rev_eq cell
    rw [show n = _ from heq, openAt_nat, place]
    rcases indexReverse_spec hash _ c 0 with ⟨i, -, -, -, hrev⟩ | ⟨-, hrev⟩ <;> rw [hrev]
    · obtain ⟨cell, hcell⟩ : ∃ cell : Slot bits, cell ≠ probeAt (home (hash _)) i := exists_ne _
      exact ⟨cell, (Function.update_of_ne hcell _ _).trans (hempty cell)⟩
    · exact ⟨c, hempty c⟩

/-- After the two SYNs both flows are live, have the same reply tuple, and have a cell in the
reverse index. -/
theorem exists_moved_flows (hash : FlowKey → UInt32) (hbits : bits ≠ 0) (timeoutMs : UInt32)
    (other backend : BackendInfo) :
    let n := run hash (init bits timeoutMs 0 1)
      [tcpArrival backend 40000 kTcpSyn, movedArrival other backend]
    ∃ s s', n.nat.slots s = synFlow backend 1024 ∧ n.nat.slots s' = movedFlow backend ∧
      OnReplyScan hash n.nat s ∧ OnReplyScan hash n.nat s' := by
  intro n
  obtain ⟨hfin, hrst, hmay⟩ := has_syn 40001
  obtain ⟨s, hslot, hscan, hothers, hpool, cell, hcell⟩ :=
    exists_only_synFlow hash hbits timeoutMs backend
  have hmap : ForwardMap hash
      (run hash (init bits timeoutMs 0 1) [tcpArrival backend 40000 kTcpSyn]).nat :=
    forwardMap_run ..
  have hn : n = (arrive hash (run hash (init bits timeoutMs 0 1)
    [tcpArrival backend 40000 kTcpSyn]) (movedArrival other backend)).1 := rfl
  generalize run hash (init bits timeoutMs 0 1) [tcpArrival backend 40000 kTcpSyn] = first at *
  have hlive : (first.nat.slots s).Live first.nat.timeoutMs 0 := by
    rw [hslot]
    exact live_of_lastSeen_eq ⟨rfl, rfl⟩ rfl
  have hdead {c : Slot bits} (hc : c ≠ s) : ¬ (first.nat.slots c).Live first.nat.timeoutMs 0 :=
    fun hlive => Bool.noConfusion ((hothers c hc).symm.trans hlive.1.1)
  have hneeds : first.NeedsFlow 0 (tcpSegment 40001 kTcpSyn) := by
    refine ⟨rfl, hmay, fun ⟨c, hc, hkey⟩ => ?_⟩
    obtain rfl : c = s := by
      by_contra hne
      exact hdead hne hc
    rw [hslot] at hkey
    exact absurd (congrArg FlowKey.srcPort hkey) (show (40000 : UInt16) ≠ 40001 by decide)
  obtain ⟨c, hc⟩ : ∃ c, c ≠ s := by
    have : Nontrivial (Slot bits) := Fin.nontrivial_iff_two_le.mpr (Nat.le_self_pow hbits 2)
    exact exists_ne s
  have hfree : (first.portPools ((BackendPool.second other backend).select hash
      (tcpSegment 40001 kTcpSyn).flowKey)).free ≠ [] := by
    rw [BackendPool.select_second, hpool]
    intro hnil
    have hlength := PortPool.length_forWorker_zero_one
    rw [hnil] at hlength
    exact absurd hlength (by decide)
  obtain ⟨s', hopens⟩ := hneeds.exists_opensIn hfree (hdead hc)
  obtain ⟨t, hreaps, heq⟩ := OpensIn.arrive_fst_eq (a := movedArrival other backend) hopens
    hmap (Arrival.usable_eq_some.mpr ⟨rfl, Nat.one_ne_zero⟩) hfin hrst
  have hport : first.nextPort hash (.second other backend) (tcpSegment 40001 kTcpSyn) = 1024 := by
    rw [nextPort, BackendPool.select_second, hpool, PortPool.acquire_forWorker_zero_one]
  change _ = LbNode.openAt hash _ (newFlow hash (tcpSegment 40001 kTcpSyn) (.second other backend)
    (first.nextPort hash (.second other backend) (tcpSegment 40001 kTcpSyn))) s' 0 at heq
  rw [hport] at heq
  rw [hn, heq]
  have hne : s ≠ s' := by
    rintro rfl
    exact hopens.dead hlive
  have htlive := (hreaps.live_iff s).mpr hlive
  refine ⟨s, s', ?_, ?_, ?_, ?_⟩
  · rw [openAt_slots, Function.update_of_ne hne]
    exact (hreaps.slots_eq_of_live hlive).trans hslot
  · rw [openAt_slots, Function.update_self]
    exact newFlow_moved hash other backend
  · refine OnReplyScan.openAt (n := { first with nat := t }) hne ?_ htlive
    rwa [OnReplyScan, hreaps.slots_eq_of_live hlive, hreaps.rev_eq]
  · rw [openAt_nat, place]
    refine onReplyScan_indexReverse_self ⟨cell, fun p hp => ?_⟩
    rw [hreaps.rev_eq, hcell] at hp
    exact absurd hp (Option.some_ne_none p).symm

/-- A FIN of the backend closes a flow of which no FIN has passed. -/
theorem closeHandshake_movedReply {n : LbNode bits} {s : Slot bits} {flow : NatFlow}
    (hslot : n.nat.slots s = flow) (hun : flow.Unreaped) (hproto : flow.fwdKey.proto = kProtoTcp)
    (hfin : flow.finSeen = 0) (hseen : flow.lastSeenMs = 0) (other backend : BackendInfo) :
    n.CloseHandshake s [movedReply other backend] where
  unreaped := hslot ▸ hun
  tcp := hslot ▸ hproto
  finSeen := hslot ▸ hfin
  segment b hb _ := by
    rw [List.mem_singleton.mp hb]
    have husable : (movedReply other backend).usable = some (.second other backend) :=
      Arrival.usable_eq_some.mpr ⟨rfl, Nat.one_ne_zero⟩
    refine ⟨husable ▸ Option.some_ne_none _, ?_, ?_⟩
    · exact show decide ((0x11 : UInt8) &&& kTcpSyn ≠ 0) = false by decide
    · exact show decide ((0x11 : UInt8) &&& kTcpRst ≠ 0) = false by decide
  onTime pre b post hbs := by
    obtain rfl : pre = [] := by
      have := congrArg List.length hbs
      simp only [List.length_append, List.length_cons, List.length_nil] at this
      exact List.length_eq_zero_iff.mp (by omega)
    obtain ⟨rfl, -⟩ := List.cons.inj hbs
    have hnow : (movedReply other backend).nowMs - lastSegment flow 0 [] = 0 :=
      UInt32.sub_self (a := 0)
    rw [hslot, hseen, hnow]
    exact UInt32.zero_le

/-- So a FIN of the backend is not sent on to the client of one of the two flows. -/
theorem moved_backend_misleads_reply (hash : FlowKey → UInt32) (hbits : bits ≠ 0)
    (timeoutMs : UInt32) (other backend : BackendInfo) :
    let n := run hash (init bits timeoutMs 0 1)
      [tcpArrival backend 40000 kTcpSyn, movedArrival other backend]
    let fin := movedReply other backend
    ∃ s, OnReplyScan hash n.nat s ∧ n.CloseHandshake s [fin] ∧
      fin.packet.OfFlow (n.nat.slots s) ∧
      (arrive hash n fin).2 ≠ (true, fin.packet.translated (n.nat.slots s)) := by
  intro n fin
  obtain ⟨s, s', hslot, hslot', hscan, hscan'⟩ :=
    exists_moved_flows hash hbits timeoutMs other backend
  by_cases hsent : (arrive hash n fin).2 = (true, fin.packet.translated (n.nat.slots s))
  · refine ⟨s', hscan', closeHandshake_movedReply hslot' ⟨rfl, rfl⟩ rfl rfl rfl other backend,
      Or.inr ⟨rfl, by rw [hslot']; rfl⟩, fun hsent' => ?_⟩
    -- it cannot be sent on to both clients
    have hsame := congrArg Prod.snd (hsent.symm.trans hsent')
    rw [hslot, hslot'] at hsame
    have hport : (40000 : UInt16) = 40001 := congrArg PacketMeta.clientPort hsame
    exact absurd hport (by decide)
  · exact ⟨s, hscan, closeHandshake_movedReply hslot ⟨rfl, rfl⟩ rfl rfl rfl other backend,
      Or.inr ⟨rfl, by rw [hslot]; rfl⟩, hsent⟩

/-- The acknowledgement of the second FIN is dropped. And if a backend moves to another slot, then
a connection that is opened afterwards can get the reply tuple of a live flow, and a FIN of the
backend is not sent on to the client of one of the two flows. -/
theorem close_not_passed :
    let backend : BackendInfo := { ip := 0x0A000202, port := 8080 }
    let other : BackendInfo := { ip := 0x0A000203, port := 8080 }
    let hash := FlowKey.hash .sse42
    (∃ s port, (run hash (init 20 30000 0 1) [tcpArrival backend 40000 kTcpSyn]).nat.slots s =
        synFlow backend port ∧
      (run hash (init 20 30000 0 1) [tcpArrival backend 40000 kTcpSyn]).CloseHandshake s
        (closing backend port) ∧
      (arrive hash (run hash (run hash (init 20 30000 0 1)
        [tcpArrival backend 40000 kTcpSyn])
          [tcpArrival backend 40000 0x11, replyArrival backend port 0x11])
        (tcpArrival backend 40000 0x10)).2 = (false, tcpSegment 40000 0x10)) ∧
    let n := run hash (init 20 30000 0 1)
      [tcpArrival backend 40000 kTcpSyn, movedArrival other backend]
    let fin := movedReply other backend
    ∃ s, OnReplyScan hash n.nat s ∧ n.CloseHandshake s [fin] ∧
      fin.packet.OfFlow (n.nat.slots s) ∧
      (arrive hash n fin).2 ≠ (true, fin.packet.translated (n.nat.slots s)) := by
  intro backend other hash
  constructor
  · obtain ⟨s, hslot, hscan⟩ := exists_synFlow hash 20 30000 backend
    exact ⟨s, 1024, hslot, closeHandshake_closing hslot,
      last_ack_refused hash 20 30000 hslot hscan⟩
  · exact moved_backend_misleads_reply hash (by decide) 30000 other backend

end LbNode

end Cerebellum
