import Cerebellum.Nodes.Affinity
import Cerebellum.Nodes.Isolation
import Cerebellum.Nodes.PortConservation
import Cerebellum.Nodes.TcpClose
import Mathlib.Data.List.Chain

/-!
# A flow is torn down exactly when its close is complete

The close of a flow is complete with the first RST, or with a FIN in the second direction. All
packets that hit the flow count, in either direction, and so does the packet that created it: a
segment with SYN and RST creates its flow and tears it down. A direction may repeat its FIN without
effect.

The packets of a flow are found along the run: `hits` lists those for which `HandlePacket` works
with the entry in the slot of the flow, until the entry is reaped. Other packets may come in
between; they leave the entry alone. What a packet that hits the flow does to it is told by
`ClosesExactly`, for the packet that completes the close and for every packet before it.

## Main definitions

* `Cerebellum.CloseComplete`: the packets of a flow complete its close.
* `Cerebellum.LbNode.hits`: the packets of a run that hit the flow in a slot.
* `Cerebellum.LbNode.ClosesExactly`: what the last of a flow's packets does.

## Main results

* `Cerebellum.LbNode.StandsAfter.closesExactly`: one packet of the flow.
* `Cerebellum.LbNode.teardown_exactly_when_closed`.
-/

namespace Cerebellum

open NatTable

/-- The packets carry a RST, or a FIN in each direction. -/
def CloseComplete (ms : List PacketMeta) : Prop :=
  (∃ m ∈ ms, m.has kTcpRst = true) ∨ ∀ dir, ∃ m ∈ ms, m.dir = dir ∧ m.has kTcpFin = true

/-- One of the packets carries a FIN in the direction. -/
def finSeenIn (ms : List PacketMeta) (dir : Direction) : Bool :=
  ms.any fun m => m.dir = dir && m.has kTcpFin

theorem finSeenIn_concat (ms : List PacketMeta) (m : PacketMeta) (dir : Direction) :
    finSeenIn (ms ++ [m]) dir = (finSeenIn ms dir || (m.dir = dir && m.has kTcpFin)) := by
  simp only [finSeenIn, List.any_append, List.any_cons, List.any_nil, Bool.or_false]

theorem closeComplete_iff {ms : List PacketMeta} :
    CloseComplete ms ↔ (∃ m ∈ ms, m.has kTcpRst = true) ∨
      (finSeenIn ms .forward && finSeenIn ms .reverse) = true := by
  refine or_congr_right ?_
  simp only [finSeenIn, Bool.and_eq_true, List.any_eq_true, decide_eq_true_eq]
  exact ⟨fun h => ⟨h .forward, h .reverse⟩, fun h dir => Direction.casesOn dir h.1 h.2⟩

theorem not_closeComplete_nil : ¬ CloseComplete [] := by
  rintro (⟨m, hm, -⟩ | hfin)
  · exact absurd hm List.not_mem_nil
  · obtain ⟨m, hm, -⟩ := hfin .forward
    exact absurd hm List.not_mem_nil

/-- A packet completes the close with a RST, or with a FIN if FINs have then passed in both
directions. -/
theorem closeComplete_concat {ms : List PacketMeta} (h : ¬ CloseComplete ms) (m : PacketMeta) :
    CloseComplete (ms ++ [m]) ↔ m.has kTcpRst = true ∨ (m.has kTcpFin = true ∧
      (finSeenIn (ms ++ [m]) .forward && finSeenIn (ms ++ [m]) .reverse) = true) := by
  rw [closeComplete_iff, not_or] at h
  obtain ⟨hrst, hfin⟩ := h
  have hnew : (∃ c ∈ ms ++ [m], c.has kTcpRst = true) ↔ m.has kTcpRst = true := by
    constructor
    · rintro ⟨c, hc, hcr⟩
      rcases List.mem_append.mp hc with hc | hc
      · exact absurd ⟨c, hc, hcr⟩ hrst
      · rwa [← List.mem_singleton.mp hc]
    · intro hm
      exact ⟨m, List.mem_append_right _ (List.mem_singleton_self m), hm⟩
  rw [closeComplete_iff, hnew]
  refine or_congr_right ⟨fun hboth => ⟨?_, hboth⟩, And.right⟩
  by_contra hno
  rw [Bool.not_eq_true] at hno
  simp only [finSeenIn_concat, hno, Bool.and_false, Bool.or_false] at hboth
  exact hfin hboth

namespace LbNode

variable {bits : ℕ} {hash : FlowKey → UInt32} {pool : BackendPool} {nowMs : UInt32}
  {m : PacketMeta} {s : Slot bits} {flow : NatFlow} {ms : List PacketMeta}

/-! ### One packet of the flow -/

/-- The packets `ms` have hit the flow, the last of them at `lastMs`, without completing its close:
its entry is as it was created but for the time and the FINs seen. -/
structure StandsAfter (flow : NatFlow) (s : Slot bits) (ms : List PacketMeta) (lastMs : UInt32)
    (n : LbNode bits) : Prop where
  incomplete : ¬ CloseComplete ms
  slot : n.nat.slots s = { flow with
    lastSeenMs := lastMs
    finSeen := finBits (finSeenIn ms .forward) (finSeenIn ms .reverse) }

/-- The port of the flow is back on top of the pool of its backend. It was not there before, and the
pools of the other backends are as they were. -/
structure GivesPortBack (flow : NatFlow) (before after : UInt8 → PortPool) : Prop where
  free : (after flow.backendIdx).free = flow.snatPort :: (before flow.backendIdx).free
  notMem : flow.snatPort ∉ (before flow.backendIdx).free
  others : ∀ idx ≠ flow.backendIdx, after idx = before idx

/-- What happens to the last packet `m` of the packets `ms` that hit the flow, where `pools` are the
port pools before the call of `MaybeTeardown`: it is sent on with the translation of the flow; if
the close is now complete, then the flow is torn down and its port given back; if not, then the flow
stands and the pools are untouched, however often FINs have come from one side. -/
structure ClosesExactly (flow : NatFlow) (s : Slot bits) (ms : List PacketMeta) (m : PacketMeta)
    (pools : UInt8 → PortPool) (result : LbNode bits × Bool × PacketMeta) : Prop where
  unreaped_iff : (result.1.nat.slots s).Unreaped ↔ ¬ CloseComplete ms
  sameFlow : ¬ CloseComplete ms → SameFlow flow (result.1.nat.slots s)
  sent : result.2 = (true, m.translated flow)
  returned : CloseComplete ms → GivesPortBack flow pools result.1.portPools
  kept : ¬ CloseComplete ms → result.1.portPools = pools
  oneSided : (∀ c ∈ ms, c.has kTcpRst = false) →
    (∃ dir, ∀ c ∈ ms, c.has kTcpFin = true → c.dir = dir) → (result.1.nat.slots s).Unreaped

/-- The port of an entry that is not reaped is not free. -/
theorem PortsConserved.snatPort_notMem_free {share : Finset UInt16} {n : LbNode bits}
    (h : n.PortsConserved share) (hholds : n.HoldsPort) (hun : (n.nat.slots s).Unreaped) :
    (n.nat.slots s).snatPort ∉ (n.portPools (n.nat.slots s).backendIdx).free := by
  intro hfree
  obtain ⟨hne, hidx⟩ := hholds s hun
  have hheld : (n.nat.slots s).snatPort ∈ n.nat.heldPorts (n.nat.slots s).backendIdx :=
    mem_heldPorts.mpr ⟨s, hun.1, rfl, hne, rfl⟩
  have hnodup : (n.freePorts (n.nat.slots s).backendIdx +
      n.nat.heldPorts (n.nat.slots s).backendIdx).Nodup := by
    rw [h _ hidx]
    exact share.nodup
  exact Multiset.disjoint_left.mp (Multiset.nodup_add.mp hnodup).2.2 hfree hheld

/-- Tearing a flow down gives its port back. -/
theorem givesPortBack_teardown {n : LbNode bits} (hun : (n.nat.slots s).Unreaped)
    (hne : (n.nat.slots s).snatPort ≠ 0)
    (hheld : (n.nat.slots s).snatPort ∉ (n.portPools (n.nat.slots s).backendIdx).free) :
    GivesPortBack (n.nat.slots s) n.portPools (n.teardown s).portPools := by
  have hpools : (n.teardown s).portPools = Function.update n.portPools (n.nat.slots s).backendIdx
      ((n.portPools (n.nat.slots s).backendIdx).release (n.nat.slots s).snatPort hne) := by
    simp only [teardown, close_of_unreaped hun, releasePort]
    rw [dif_pos hne]
  refine ⟨?_, hheld, fun idx hidx => ?_⟩
  · rw [hpools, Function.update_self]
    rfl
  · rw [hpools, Function.update_of_ne hidx]

/-- The node after `MaybeTeardown` has marked the FIN of the packet, if it has one. -/
def marked (r : LbNode bits) (s : Slot bits) (m : PacketMeta) : LbNode bits :=
  if m.has kTcpFin then r.markFin s m.dir else r

theorem marked_portPools (r : LbNode bits) (s : Slot bits) (m : PacketMeta) :
    (r.marked s m).portPools = r.portPools := by
  unfold marked
  split_ifs <;> rfl

theorem StandsAfter.marked_slots {r : LbNode bits} {lastMs : UInt32}
    (h : StandsAfter flow s ms lastMs r) (m : PacketMeta) :
    (r.marked s m).nat.slots s = { flow with
      lastSeenMs := lastMs
      finSeen := finBits (finSeenIn (ms ++ [m]) .forward) (finSeenIn (ms ++ [m]) .reverse) } := by
  have hbits := finBits_or (finSeenIn ms .forward) (finSeenIn ms .reverse) m.dir (m.has kTcpFin)
  rw [finSeenIn_concat, finSeenIn_concat, ← hbits, marked]
  split_ifs
  · rw [markFin_slots, Function.update_self, h.slot]
  · rw [h.slot]

/-- `MaybeTeardown` tears the flow down exactly if the packet completes its close. -/
theorem StandsAfter.maybeTeardown_eq {r : LbNode bits} {lastMs : UInt32}
    (h : StandsAfter flow s ms lastMs r) (m : PacketMeta) :
    (CloseComplete (ms ++ [m]) → r.maybeTeardown s m = (r.marked s m).teardown s) ∧
      (¬ CloseComplete (ms ++ [m]) → r.maybeTeardown s m = r.marked s m) := by
  have hdef : r.maybeTeardown s m =
      if m.has kTcpRst || (m.has kTcpFin && decide (((r.marked s m).nat.slots s).finSeen =
          finBit .forward ||| finBit .reverse)) then (r.marked s m).teardown s
      else r.marked s m := rfl
  have hcond : (m.has kTcpRst || (m.has kTcpFin && decide (((r.marked s m).nat.slots s).finSeen =
      finBit .forward ||| finBit .reverse))) = true ↔ CloseComplete (ms ++ [m]) := by
    rw [closeComplete_concat h.incomplete, h.marked_slots, Bool.or_eq_true, Bool.and_eq_true,
      decide_eq_true_eq, finBits_eq_both]
  rw [hdef]
  exact ⟨fun hclose => if_pos (hcond.mpr hclose), fun hopen => if_neg (hcond.not.mpr hopen)⟩

/-- A packet that hits the flow: it is sent on, and closes the flow exactly if it completes the
close. -/
theorem StandsAfter.closesExactly {share : Finset UInt16} {r : LbNode bits} {lastMs : UInt32}
    (h : StandsAfter flow s ms lastMs r) (hun : flow.Unreaped) (hports : r.PortsConserved share)
    (hholds : r.HoldsPort) (m : PacketMeta) :
    ClosesExactly flow s (ms ++ [m]) m r.portPools
        (r.maybeTeardown s m, true, m.translated (r.nat.slots s)) ∧
      (¬ CloseComplete (ms ++ [m]) →
        StandsAfter flow s (ms ++ [m]) lastMs (r.maybeTeardown s m)) := by
  obtain ⟨hclose, hopen⟩ := h.maybeTeardown_eq m
  have hslot := h.marked_slots m
  have hunmarked : ((r.marked s m).nat.slots s).Unreaped := by
    rw [hslot]
    exact hun
  have hstands (hinc : ¬ CloseComplete (ms ++ [m])) :
      StandsAfter flow s (ms ++ [m]) lastMs (r.maybeTeardown s m) :=
    ⟨hinc, by rw [hopen hinc, hslot]⟩
  have hkeeps (hinc : ¬ CloseComplete (ms ++ [m])) :
      ((r.maybeTeardown s m).nat.slots s).Unreaped := by
    rw [hopen hinc]
    exact hunmarked
  have hback : GivesPortBack flow r.portPools ((r.marked s m).teardown s).portPools := by
    have hunr : (r.nat.slots s).Unreaped := by
      rw [h.slot]
      exact hun
    have hne := (hholds s hunr).1
    have hheld := hports.snatPort_notMem_free hholds hunr
    rw [h.slot] at hne hheld
    have hgives := givesPortBack_teardown hunmarked
    rw [hslot, marked_portPools] at hgives
    obtain ⟨hfree, hnot, hothers⟩ := hgives hne hheld
    exact ⟨hfree, hnot, hothers⟩
  refine ⟨⟨⟨fun hunr hcomplete => ?_, hkeeps⟩, fun hinc => ?_, ?_, fun hcomplete => ?_,
    fun hinc => ?_, fun hrst hone => hkeeps ?_⟩, hstands⟩
  · rw [hclose hcomplete, teardown_slots hunmarked, Function.update_self] at hunr
    exact Bool.noConfusion hunr.2
  · rw [(hstands hinc).slot]
    exact ⟨rfl, rfl, rfl, rfl, rfl, rfl, rfl⟩
  · rw [h.slot]
    rfl
  · rw [hclose hcomplete]
    exact hback
  · rw [hopen hinc, marked_portPools]
  · obtain ⟨dir, hdir⟩ := hone
    rintro (⟨c, hc, hcrst⟩ | hfins)
    · exact Bool.noConfusion ((hrst c hc).symm.trans hcrst)
    · obtain ⟨c, hc, hcdir, hcfin⟩ := hfins .forward
      obtain ⟨d, hd, hddir, hdfin⟩ := hfins .reverse
      rw [← hdir c hc hcfin] at hdir
      have hsame := hdir d hd hdfin
      rw [hcdir, hddir] at hsame
      exact Direction.noConfusion hsame

/-! ### Runs -/

/-- `HandlePacket` works with the entry in slot `s` for the packet. -/
def hitsSlot (hash : FlowKey → UInt32) (n : LbNode bits) (b : Arrival) (s : Slot bits) : Bool :=
  b.usable.any fun pool => entryOf hash n pool b.nowMs b.packet = some s

/-- The packets of the run that hit the flow in slot `s`, as long as it is not reaped. -/
def hits (hash : FlowKey → UInt32) (s : Slot bits) : LbNode bits → List Arrival → List Arrival
  | _, [] => []
  | n, b :: bs =>
    if (n.nat.slots s).Unreaped then
      (if hitsSlot hash n b s then [b] else []) ++ hits hash s (arrive hash n b).1 bs
    else []

theorem hits_of_reaped {n : LbNode bits} (h : ¬ (n.nat.slots s).Unreaped) (bs : List Arrival) :
    hits hash s n bs = [] := by
  cases bs with
  | nil => rfl
  | cons b bs => exact if_neg h

theorem hits_subset (n : LbNode bits) (bs : List Arrival) : hits hash s n bs ⊆ bs := by
  induction bs generalizing n with
  | nil => exact List.Subset.refl []
  | cons b bs ih =>
    rw [hits]
    split_ifs
    · exact List.cons_subset_cons b (ih _)
    · exact List.subset_cons_of_subset b (ih _)
    · exact List.nil_subset _

/-- What holds of every node of a run: its timeout is `timeoutMs`, and every port of the share is in
one place. -/
structure PortsInOrder (share : Finset UInt16) (timeoutMs : UInt32) (n : LbNode bits) : Prop where
  timeout : n.nat.timeoutMs = timeoutMs
  conserved : n.PortsConserved share
  holds : n.HoldsPort

namespace PortsInOrder

variable {share : Finset UInt16} {timeoutMs : UInt32} {n : LbNode bits}

theorem init (bits : ℕ) (timeoutMs : UInt32) (workerId nWorkers : UInt16) :
    PortsInOrder (portShare workerId nWorkers) timeoutMs
      (init bits timeoutMs workerId nWorkers) :=
  ⟨rfl, portsConserved_init bits timeoutMs workerId nWorkers, fun _ h => Bool.noConfusion h.1⟩

theorem step {n' : LbNode bits} (h : PortsInOrder share timeoutMs n)
    (hactive : pool.activeCount ≠ 0) (hstep : Step hash pool nowMs m n n') :
    PortsInOrder share timeoutMs n' :=
  ⟨hstep.timeoutMs_eq.trans h.timeout, portsConserved_step h.conserved hstep,
    holdsPort_step hactive h.holds hstep⟩

theorem steps {n' : LbNode bits} (h : PortsInOrder share timeoutMs n)
    (hactive : pool.activeCount ≠ 0) (hsteps : Steps hash pool nowMs m n n') :
    PortsInOrder share timeoutMs n' :=
  hsteps.rec h fun _ hstep ih => ih.step hactive hstep

theorem run (h : PortsInOrder share timeoutMs n) (as : List Arrival) :
    PortsInOrder share timeoutMs (run hash n as) :=
  run_induct _ h (fun _ _ _ _ _ hactive h hstep => h.step hactive hstep) as

end PortsInOrder

variable {share : Finset UInt16} {timeoutMs lastMs : UInt32} {n : LbNode bits} {b : Arrival}

/-- While the flow stands it is live until the timeout after its last packet. -/
theorem StandsAfter.live (h : StandsAfter flow s ms lastMs n) (hun : flow.Unreaped)
    (hgap : nowMs - lastMs ≤ n.nat.timeoutMs) : (n.nat.slots s).Live n.nat.timeoutMs nowMs := by
  rw [h.slot]
  exact ⟨hun, hgap⟩

/-- A packet that does not hit the flow leaves it standing. -/
theorem StandsAfter.arrive_of_no_hit (h : StandsAfter flow s ms lastMs n) (hun : flow.Unreaped)
    (hgap : b.nowMs - lastMs ≤ n.nat.timeoutMs) (hmiss : hitsSlot hash n b s = false) :
    StandsAfter flow s ms lastMs (arrive hash n b).1 := by
  refine ⟨h.incomplete, ?_⟩
  rw [← h.slot]
  cases husable : b.usable with
  | none => rw [arrive_of_not_usable hash n husable]
  | some pool =>
    rw [arrive_of_usable hash n husable]
    refine (undisturbed_handlePacket hash n pool b.nowMs b.packet).slots s (h.live hun hgap) ?_
    rw [hitsSlot, husable] at hmiss
    exact of_decide_eq_false hmiss

/-- A packet that hits the flow finds it standing, refreshes it and goes to `MaybeTeardown`. -/
theorem StandsAfter.arrive_of_hit (h : StandsAfter flow s ms lastMs n) (hun : flow.Unreaped)
    (hn : PortsInOrder share timeoutMs n) (hgap : b.nowMs - lastMs ≤ n.nat.timeoutMs)
    (hhit : hitsSlot hash n b s = true) :
    ∃ r, StandsAfter flow s ms b.nowMs r ∧ PortsInOrder share timeoutMs r ∧
      r.portPools = n.portPools ∧
      arrive hash n b =
        (r.maybeTeardown s b.packet, true, b.packet.translated (r.nat.slots s)) := by
  have hlive := h.live hun hgap
  cases husable : b.usable with
  | none =>
    rw [hitsSlot, husable] at hhit
    exact Bool.noConfusion hhit
  | some pool =>
    have hentry : entryOf hash n pool b.nowMs b.packet = some s := by
      rw [hitsSlot, husable] at hhit
      exact of_decide_eq_true hhit
    rw [arrive_of_usable hash n husable]
    rcases handlePacket_entryOf hash n pool b.nowMs b.packet with
      ⟨hnone, -⟩ | ⟨c, r, hsome, halong, heq⟩
    · exact absurd (hnone.symm.trans hentry) (Option.some_ne_none s).symm
    obtain rfl : c = s := Option.some.inj (hsome.symm.trans hentry)
    refine ⟨r, ⟨h.incomplete, ?_⟩, hn.steps (Arrival.usable_eq_some.mp husable).2 halong.steps, ?_,
      heq⟩
    · cases halong with
      | hit hreaps _ =>
        rw [touch_slots, Function.update_self, hreaps.slots_eq_of_live hlive, h.slot]
      | opened _ hreaps _ hopens =>
        exact absurd ((hreaps.live_iff c).mpr hlive) hopens.dead
    · cases halong with
      | hit _ _ => rfl
      | opened _ hreaps _ hopens =>
        exact absurd ((hreaps.live_iff c).mpr hlive) hopens.dead

theorem hits_cons (hun : (n.nat.slots s).Unreaped) (c : Arrival) (bs : List Arrival) :
    hits hash s n (c :: bs) =
      (if hitsSlot hash n c s then [c] else []) ++ hits hash s (arrive hash n c).1 bs :=
  if_pos hun

/-- Of three times in order, the first two are no further apart than the first and the last. -/
theorem sub_le_sub_of_le {x y z : UInt32} (hxy : x ≤ y) (hyz : y ≤ z) : y - x ≤ z - x := by
  rw [UInt32.le_iff_toNat_le] at *
  rw [UInt32.toNat_sub_of_le _ _ (UInt32.le_iff_toNat_le.mpr hxy),
    UInt32.toNat_sub_of_le _ _ (UInt32.le_iff_toNat_le.mpr (hxy.trans hyz))]
  omega

/-- The packets up to the next one that hits the flow come within the timeout after `x`. -/
theorem sub_le_of_next_hit {x c d : Arrival} {cs ds : List Arrival}
    (hclock : (x :: c :: cs).Pairwise fun y z => y.nowMs ≤ z.nowMs)
    (hhits : hits hash s n (c :: cs) = d :: ds)
    (hgap : (x :: d :: ds).IsChain fun y z => z.nowMs - y.nowMs ≤ timeoutMs) :
    c.nowMs - x.nowMs ≤ timeoutMs := by
  have hsub : hits hash s n (c :: cs) ⊆ c :: cs := hits_subset n (c :: cs)
  have hd : d ∈ c :: cs := hsub (hhits ▸ List.mem_cons_self)
  obtain ⟨hx, hc⟩ := List.pairwise_cons.mp hclock
  have hcd : c.nowMs ≤ d.nowMs := by
    rcases List.mem_cons.mp hd with rfl | hd
    · exact UInt32.le_refl _
    · exact (List.pairwise_cons.mp hc).1 d hd
  exact UInt32.le_trans (sub_le_sub_of_le (hx c List.mem_cons_self) hcd)
    (List.isChain_cons_cons.mp hgap).1

/-- A run of packets, the last of which hits the flow: that packet closes the flow exactly if it
completes the close. The induction is on the packets before it; `x` is the packet that hit the flow
last. -/
theorem StandsAfter.closesExactly_run {x : Arrival} (h : StandsAfter flow s ms x.nowMs n)
    (hun : flow.Unreaped) (hn : PortsInOrder share timeoutMs n) (bs : List Arrival) (b : Arrival)
    (hclock : (x :: (bs ++ [b])).Pairwise fun y z => y.nowMs ≤ z.nowMs)
    (hlast : hits hash s n (bs ++ [b]) = hits hash s n bs ++ [b])
    (hgap : (x :: hits hash s n (bs ++ [b])).IsChain fun y z => z.nowMs - y.nowMs ≤ timeoutMs) :
    ClosesExactly flow s (ms ++ (hits hash s n (bs ++ [b])).map Arrival.packet) b.packet
      (run hash n bs).portPools (arrive hash (run hash n bs) b) := by
  have hstands : (n.nat.slots s).Unreaped := by
    rw [h.slot]
    exact hun
  induction bs generalizing n x ms with
  | nil =>
    rw [List.nil_append] at hlast hgap hclock ⊢
    replace hlast : hits hash s n [b] = [b] := hlast
    have hsoon : b.nowMs - x.nowMs ≤ n.nat.timeoutMs := by
      rw [hn.timeout]
      exact sub_le_of_next_hit hclock hlast (hlast ▸ hgap)
    have hhit : hitsSlot hash n b s = true := by
      by_contra hmiss
      rw [hits_cons hstands, if_neg hmiss] at hlast
      exact List.cons_ne_nil b [] hlast.symm
    obtain ⟨r, hr, hrn, hpools, heq⟩ := h.arrive_of_hit hun hn hsoon hhit
    rw [hlast, run_nil, heq, ← hpools]
    exact (hr.closesExactly hun hrn.conserved hrn.holds b.packet).1
  | cons c bs ih =>
    have hsoon : c.nowMs - x.nowMs ≤ n.nat.timeoutMs := by
      rw [hn.timeout]
      cases hhits : hits hash s n (c :: (bs ++ [b])) with
      | nil =>
        rw [List.cons_append, hhits] at hlast
        exact absurd hlast.symm (List.append_ne_nil_of_right_ne_nil _ (List.cons_ne_nil b []))
      | cons d ds => exact sub_le_of_next_hit hclock hhits (hhits ▸ hgap)
    rw [List.cons_append, hits_cons hstands] at hlast hgap ⊢
    rw [hits_cons hstands, List.append_assoc, List.append_cancel_left_eq] at hlast
    obtain ⟨hx, hrest⟩ := List.pairwise_cons.mp hclock
    have hn' : PortsInOrder share timeoutMs (arrive hash n c).1 := hn.run [c]
    rw [run_cons]
    cases hhit : hitsSlot hash n c s with
    | false =>
      rw [hhit] at hgap
      have hclock' : (x :: (bs ++ [b])).Pairwise fun y z => y.nowMs ≤ z.nowMs :=
        List.pairwise_cons.mpr
          ⟨fun y hy => hx y (List.mem_cons_of_mem c hy), (List.pairwise_cons.mp hrest).2⟩
      have h' := h.arrive_of_no_hit hun hsoon hhit
      exact ih h' hn' hclock' hlast hgap (by rw [h'.slot]; exact hun)
    | true =>
      rw [hhit] at hgap
      obtain ⟨r, hr, hrn, -, heq⟩ := h.arrive_of_hit hun hn hsoon hhit
      obtain ⟨hcloses, hstill⟩ := hr.closesExactly hun hrn.conserved hrn.holds c.packet
      by_cases hcomplete : CloseComplete (ms ++ [c.packet])
      · -- nothing hits a flow that is torn down, but the last packet does
        have hreaped : ¬ ((arrive hash n c).1.nat.slots s).Unreaped := by
          rw [heq]
          exact fun hun => hcloses.unreaped_iff.mp hun hcomplete
        rw [hits_of_reaped hreaped] at hlast
        exact absurd hlast.symm (List.append_ne_nil_of_right_ne_nil _ (List.cons_ne_nil b []))
      · have h' : StandsAfter flow s (ms ++ [c.packet]) c.nowMs (arrive hash n c).1 := by
          rw [heq]
          exact hstill hcomplete
        have hrun := ih h' hn' hrest hlast (List.isChain_cons_cons.mp hgap).2
          (by rw [h'.slot]; exact hun)
        rwa [List.append_assoc] at hrun

/-- A flow is torn down exactly when its close is complete. A packet creates the flow in a state
that a run reaches; packets of any flows follow, in order of time and without wrapping of the clock,
the last of them hits the flow, and from one packet that hits it to the next no more time passes
than the timeout. Then right after the last packet the flow is still there if and only if none of
its packets, the creating one included, carried RST, and FINs have not passed in both directions.
The last packet is sent on with the translation of the flow, and if it completes the close, the port
of the flow goes back to the pool of its backend, once; until then the pools are left alone. -/
theorem teardown_exactly_when_closed (hash : FlowKey → UInt32) (bits : ℕ) (timeoutMs : UInt32)
    (workerId nWorkers : UInt16) (as : List Arrival) (a : Arrival) (pool : BackendPool)
    (s : Slot bits) (flow : NatFlow)
    (hcreates : Creates hash (run hash (init bits timeoutMs workerId nWorkers) as) a pool s flow) :
    let n := run hash (init bits timeoutMs workerId nWorkers) as
    let n₁ := (arrive hash n a).1
    (∃ opened, createFlow hash { n with
          nat := (n.nat.lookupForward hash a.packet.flowKey a.nowMs).1 } a.packet pool a.nowMs =
        (opened, some s) ∧
      ClosesExactly flow s [a.packet] a.packet opened.portPools (arrive hash n a)) ∧
    ∀ bs b, (a :: (bs ++ [b])).Pairwise (fun y z => y.nowMs ≤ z.nowMs) →
      hits hash s n₁ (bs ++ [b]) = hits hash s n₁ bs ++ [b] →
      (a :: hits hash s n₁ (bs ++ [b])).IsChain (fun y z => z.nowMs - y.nowMs ≤ timeoutMs) →
      ClosesExactly flow s ((a :: hits hash s n₁ (bs ++ [b])).map Arrival.packet) b.packet
        (run hash n₁ bs).portPools (arrive hash (run hash n₁ bs) b) := by
  intro n n₁
  have hn : PortsInOrder (portShare workerId nWorkers) timeoutMs n :=
    (PortsInOrder.init bits timeoutMs workerId nWorkers).run as
  obtain ⟨t, hreaps, hopens, hcreate, harrive⟩ := hcreates.createFlow_eq
  obtain ⟨-, -, -, hflow, -⟩ := hcreates.eq_freshFlow
  generalize hr : openAt hash { n with nat := t }
    (newFlow hash a.packet pool (nextPort hash n pool a.packet)) s a.nowMs = r at hcreate harrive
  have hun : flow.Unreaped := by
    rw [hflow]
    exact ⟨rfl, rfl⟩
  have hfresh : StandsAfter flow s [] a.nowMs r := by
    refine ⟨not_closeComplete_nil, ?_⟩
    rw [← hr, openAt_slots, Function.update_self, hflow]
    rfl
  have hrn : PortsInOrder (portShare workerId nWorkers) timeoutMs r := by
    rw [← hr]
    exact hn.steps (Arrival.usable_eq_some.mp hcreates.usable).2
      (HandledAlong.opened hcreates.forward hreaps hcreates.mayOpen hopens).steps
  obtain ⟨hcloses, hstill⟩ := hfresh.closesExactly hun hrn.conserved hrn.holds a.packet
  have heq : arrive hash n a =
      (r.maybeTeardown s a.packet, true, a.packet.translated (r.nat.slots s)) := by
    rw [harrive, forwardVia, PacketMeta.translated, hcreates.forward]
  refine ⟨⟨r, hcreate, heq ▸ hcloses⟩, fun bs b hclock hlast hgap => ?_⟩
  by_cases hcomplete : CloseComplete [a.packet]
  · -- the creating packet has torn the flow down, and nothing hits it
    have hreaped : ¬ (n₁.nat.slots s).Unreaped := by
      simp only [n₁, heq]
      exact fun hun => hcloses.unreaped_iff.mp hun hcomplete
    rw [hits_of_reaped hreaped, hits_of_reaped hreaped] at hlast
    exact absurd hlast (List.cons_ne_nil b []).symm
  · have hstands : StandsAfter flow s [a.packet] a.nowMs n₁ := by
      simp only [n₁, heq]
      exact hstill hcomplete
    exact hstands.closesExactly_run hun (hn.run [a]) bs b hclock hlast hgap

/-- A forward packet with the key of a live flow hits it. -/
theorem hitsSlot_of_live {n : LbNode bits} (hmap : ForwardMap hash n.nat)
    (husable : b.usable = some pool) (hdir : b.packet.dir = .forward)
    (hlive : (n.nat.slots s).Live n.nat.timeoutMs b.nowMs)
    (hkey : (n.nat.slots s).fwdKey = b.packet.flowKey) : hitsSlot hash n b s = true := by
  have hfound := (hmap.lookupForward_of_live hlive hkey).1
  rw [hitsSlot, husable, Option.any_some, entryOf, hdir]
  simp only [hfound, decide_true]

/-- A client opens a connection and resets it: the reset is sent on, tears the flow down and gives
its port back. -/
theorem reset_tears_down :
    let backend : BackendInfo := { ip := 0x0A000202, port := 8080 }
    let hash := FlowKey.hash .sse42
    let a := tcpArrival backend 40000 kTcpSyn
    let b := tcpArrival backend 40000 kTcpRst
    let n₁ := (arrive hash (init 20 30000 0 1) a).1
    ∃ s flow, Creates hash (init 20 30000 0 1) a (.single backend) s flow ∧
      ¬ ((arrive hash n₁ b).1.nat.slots s).Unreaped ∧
      (arrive hash n₁ b).2 = (true, b.packet.translated flow) ∧
      GivesPortBack flow n₁.portPools (arrive hash n₁ b).1.portPools := by
  intro backend hash
  dsimp only
  obtain ⟨s, flow, hcreates, hlive, -⟩ := exists_creates_syn hash 20 30000 backend kTcpRst
  obtain ⟨⟨opened, -, hfirst⟩, hlater⟩ :=
    teardown_exactly_when_closed hash 20 30000 0 1 [] _ (.single backend) s flow hcreates
  have hlast := hlater [] (tcpArrival backend 40000 kTcpRst)
  have hmap : ForwardMap hash
      (run hash (init 20 30000 0 1) [tcpArrival backend 40000 kTcpSyn]).nat :=
    forwardMap_run 20 30000 0 1 _
  rw [run_cons, run_nil] at hmap
  rw [run_nil] at hfirst hlast
  have hsyn : ¬ CloseComplete [(tcpArrival backend 40000 kTcpSyn).packet] := by
    rw [closeComplete_iff]
    decide
  have hkey := (hfirst.sameFlow hsyn).fwdKey
  have hflow : flow.fwdKey = (tcpArrival backend 40000 kTcpSyn).packet.flowKey := by
    obtain ⟨-, -, -, hflow, -⟩ := hcreates.eq_freshFlow
    rw [hflow]
    rfl
  generalize (arrive hash (init 20 30000 0 1) (tcpArrival backend 40000 kTcpSyn)).1 = n₁
    at hlive hmap hkey hlast ⊢
  have hhit : hits hash s n₁ [tcpArrival backend 40000 kTcpRst] =
      [tcpArrival backend 40000 kTcpRst] := by
    have husable := usable_tcpArrival backend 40000 kTcpRst
    rw [hits_cons hlive.1, hitsSlot_of_live hmap husable rfl hlive (hkey.trans hflow)]
    rfl
  rw [List.nil_append, run_nil, hhit] at hlast
  have hclosed := hlast (by decide) rfl (by decide)
  have hclose : CloseComplete [(tcpArrival backend 40000 kTcpSyn).packet,
      (tcpArrival backend 40000 kTcpRst).packet] := Or.inl ⟨_, List.mem_cons_of_mem _
    List.mem_cons_self, by decide⟩
  exact ⟨s, flow, hcreates, fun hun => hclosed.unreaped_iff.mp hun hclose, hclosed.sent,
    hclosed.returned hclose⟩

end LbNode

end Cerebellum
