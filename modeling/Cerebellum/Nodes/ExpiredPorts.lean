import Cerebellum.Nodes.ForwardMap
import Cerebellum.Nodes.PortConservation

/-!
# When a new flow is refused

A forward packet that needs a new flow is refused when the pool of its backend is empty, or when
every slot of the table is live. An entry that has timed out keeps its port until its slot is taken
over, and `CreateFlow` takes a port before it looks for a slot. So ports can be out of reach
although no live flow uses them: this is the case exactly when the pool is empty and some entry that
still holds a port of the backend is dead.

## Main definitions

* `Cerebellum.NatTable.AllLive`, `Cerebellum.NatTable.AllPortsLive`: the two good reasons to refuse.
* `Cerebellum.LbNode.RefusedOnlyWhenFull`: refusing a packet only for a good reason.

## Main results

* `Cerebellum.LbNode.refusedOnlyWhenFull_iff`: the exact condition for it.
* `Cerebellum.LbNode.expired_flows_block_new_ones`: a run in which all ports sit on dead entries.
-/

namespace Cerebellum

open NatTable

namespace NatTable

variable {bits : ℕ}

/-- Every slot holds a flow that is live at `nowMs`. -/
def AllLive (t : NatTable bits) (nowMs : UInt32) : Prop :=
  ∀ s, (t.slots s).Live t.timeoutMs nowMs

/-- Every port of `share` is held by a flow to backend `b` that is live at `nowMs`. -/
def AllPortsLive (t : NatTable bits) (nowMs : UInt32) (b : UInt8) (share : Finset UInt16) : Prop :=
  ∀ port ∈ share, ∃ s, (t.slots s).Live t.timeoutMs nowMs ∧ (t.slots s).backendIdx = b ∧
    (t.slots s).snatPort = port

end NatTable

namespace LbNode

variable {bits : ℕ} {hash : FlowKey → UInt32}

/-- A UDP packet of the `i`-th client to the virtual service. -/
def udpPacket (i : ℕ) : PacketMeta :=
  { srcIp := UInt32.ofNat i, dstIp := 0x0A0001FD, srcPort := 40000, dstPort := 80, proto := 17 }

theorem mayOpen_udpPacket (i : ℕ) : MayOpen (udpPacket i) := fun h =>
  absurd h.1 (show ¬ (17 : UInt8) = kProtoTcp by decide)

theorem has_udpPacket (i : ℕ) :
    (udpPacket i).has kTcpFin = false ∧ (udpPacket i).has kTcpRst = false :=
  ⟨show decide ((0 : UInt8) &&& kTcpFin ≠ 0) = false by decide,
    show decide ((0 : UInt8) &&& kTcpRst ≠ 0) = false by decide⟩

/-- If the packet is refused, then every slot of the table, or every port of the worker's share for
the selected backend, is in use by a live flow. -/
def RefusedOnlyWhenFull (hash : FlowKey → UInt32) (n : LbNode bits) (share : Finset UInt16)
    (pool : BackendPool) (nowMs : UInt32) (m : PacketMeta) : Prop :=
  (handlePacket hash n pool nowMs m).2.1 = false →
    n.nat.AllLive nowMs ∨ n.nat.AllPortsLive nowMs (pool.select hash m.flowKey) share

/-- A packet that needs a new flow is refused exactly when the backend's pool is empty or the table
is full of live flows. -/
theorem NeedsFlow.refused_iff {n : LbNode bits} {nowMs : UInt32} {m : PacketMeta}
    (h : n.NeedsFlow nowMs m) (pool : BackendPool) :
    (handlePacket hash n pool nowMs m).2.1 = false ↔
      (n.portPools (pool.select hash m.flowKey)).free = [] ∨ n.nat.AllLive nowMs := by
  have hout := handlePacket_outcome hash n pool nowMs m
  generalize handlePacket hash n pool nowMs m = r at hout
  cases hout with
  | @forward t s hdir hreaps hlive hkey =>
    have heq := hreaps.slots_eq_of_unreaped hlive.1
    exact absurd ⟨s, (hreaps.live_iff s).mp hlive, heq ▸ hkey⟩ h.noFlow
  | @opened t s hdir hreaps hmay hopens =>
    refine iff_of_false Bool.noConfusion ?_
    rintro (hnil | hall)
    · exact hopens.port_ne_zero (PortPool.acquire_fst_eq_zero.mpr hnil)
    · exact hopens.dead ((hreaps.live_iff s).mpr (hall s))
  | @refused t hdir hreaps habs hwhy =>
    refine iff_of_true rfl ?_
    rcases hwhy with hmay | hport | ⟨-, hfull⟩
    · exact absurd h.mayOpen hmay
    · exact Or.inl (PortPool.acquire_fst_eq_zero.mp hport)
    · exact Or.inr fun s => (hreaps.live_iff s).mp (hfull s)
  | reverse hdir => exact absurd (hdir.symm.trans h.forward) (by decide)
  | unknown hdir => exact absurd (hdir.symm.trans h.forward) (by decide)

/-- In every reachable state, a packet that needs a new flow is refused only for lack of live room
if and only if the pool of the selected backend has a free port, or no dead entry holds one of its
ports. -/
theorem refusedOnlyWhenFull_iff (hash : FlowKey → UInt32) (bits : ℕ) (timeoutMs : UInt32)
    (workerId nWorkers : UInt16) (as : List Arrival) (pool : BackendPool)
    (hactive : pool.activeCount ≠ 0) (nowMs : UInt32) (m : PacketMeta)
    (hneeds : (run hash (init bits timeoutMs workerId nWorkers) as).NeedsFlow nowMs m) :
    let n := run hash (init bits timeoutMs workerId nWorkers) as
    let b := pool.select hash m.flowKey
    RefusedOnlyWhenFull hash n (portShare workerId nWorkers) pool nowMs m ↔
      (n.portPools b).free ≠ [] ∨
        ∀ s, (n.nat.slots s).occupied = true → (n.nat.slots s).backendIdx = b →
          (n.nat.slots s).snatPort ≠ 0 → (n.nat.slots s).Live n.nat.timeoutMs nowMs := by
  intro n b
  have hb : b.toNat < kMaxBackends :=
    (BackendPool.select_lt hash m.flowKey hactive).trans_le pool.length_slots_le
  have hconserved : n.PortsConserved (portShare workerId nWorkers) :=
    portsConserved_run hash bits timeoutMs workerId nWorkers as
  have hshare := hconserved b hb
  constructor
  · intro honly
    by_contra hc
    simp only [not_or, not_not, not_forall] at hc
    obtain ⟨hnil, s, hocc, hidx, hne, hdead⟩ := hc
    rcases honly ((hneeds.refused_iff pool).mpr (Or.inl hnil)) with hall | hports
    · exact hdead (hall s)
    · -- the dead entry's port is in the share, and no other slot holds it
      have hmem : (n.nat.slots s).snatPort ∈ portShare workerId nWorkers := by
        rw [← Finset.mem_val, ← hshare]
        exact Multiset.mem_add.mpr (Or.inr (mem_heldPorts.mpr ⟨s, hocc, hidx, hne, rfl⟩))
      obtain ⟨c, hlive, hcidx, hcport⟩ := hports _ hmem
      have hsc : s = c := hconserved.snatPort_inj hocc hlive.1.1 (hidx.trans hcidx.symm)
        (hidx.symm ▸ hb) hne hcport.symm
      exact hdead (hsc ▸ hlive)
  · rintro hcond hrefused
    rcases (hneeds.refused_iff pool).mp hrefused with hnil | hall
    · refine Or.inr fun port hport => ?_
      have hfree : n.freePorts b = 0 := by rw [freePorts, hnil]; rfl
      rw [← Finset.mem_val, ← hshare, hfree, zero_add] at hport
      obtain ⟨s, hocc, hidx, hne, rfl⟩ := mem_heldPorts.mp hport
      rcases hcond with hfree' | hheld
      · exact absurd hnil hfree'
      · exact ⟨s, hheld s hocc hidx hne, hidx, rfl⟩
    · exact Or.inl hall

/-! ### One port

With as many workers as there are ports in the range, a worker has one port for each backend. -/

theorem portShare_one_port : portShare 0 64512 = {64512} := by
  ext port
  have hlt := port.toNat_lt
  rw [mem_portShare, Finset.mem_singleton, ← UInt16.toNat_inj, ← UInt16.toNat_inj, UInt16.toNat_mod,
    show (64512 : UInt16).toNat = 64512 from rfl, show (0 : UInt16).toNat = 0 from rfl,
    show kEphemeralLow = 1024 from rfl, show kEphemeralHigh = 65535 from rfl]
  omega

theorem forWorker_one_port :
    PortPool.forWorker 0 64512 = PortPool.empty.release 64512 (by decide) := by
  refine PortPool.ext (Multiset.coe_eq_singleton.mp ?_)
  rw [PortPool.coe_forWorker, portShare_one_port]
  rfl

/-- A worker with one port for each backend, after a client of the second backend and, twenty
seconds later, one of the first. -/
def twoClients : LbNode 20 :=
  run (FlowKey.hash .sse42) (init 20 30000 0 64512)
    [⟨some (.second { ip := 0x0A000202, port := 8080 } { ip := 0x0A000203, port := 8080 }), 0,
        udpPacket 0⟩,
      ⟨some (.single { ip := 0x0A000202, port := 8080 }), 20000, udpPacket 1⟩]

/-- The entry of the first client has timed out when a third client comes; that of the second client
is live and has the only port. -/
theorem twoClients_entries :
    (∃ s, (twoClients.nat.slots s).occupied = true ∧ ¬ (twoClients.nat.slots s).Live 30000 30001) ∧
    (∃ s, (twoClients.nat.slots s).Live 30000 30001 ∧ (twoClients.nat.slots s).backendIdx = 0 ∧
      (twoClients.nat.slots s).snatPort = 64512) ∧
    (twoClients.portPools 0).free = [] ∧
    (lookupForward (FlowKey.hash .sse42) twoClients.nat (udpPacket 2).flowKey 30001).2 = none := by
  have hinit : init 20 30000 0 64512 = {
      nat := { timeoutMs := 30000 }
      portPools := fun idx =>
        if idx.toNat < kMaxBackends then .release .empty 64512 (by decide) else .empty } := by
    rw [init, forWorker_one_port]
  rw [twoClients, hinit]
  exact ⟨⟨home (FlowKey.hash .sse42 (udpPacket 0).flowKey), by decide +kernel⟩,
    ⟨home (FlowKey.hash .sse42 (udpPacket 1).flowKey), by decide +kernel⟩, by decide +kernel⟩

/-- The entry with the only port is the only one for its backend. -/
theorem twoClients_live {s : Slot 20} (hocc : (twoClients.nat.slots s).occupied = true)
    (hidx : (twoClients.nat.slots s).backendIdx = 0) (hne : (twoClients.nat.slots s).snatPort ≠ 0) :
    (twoClients.nat.slots s).Live 30000 30001 := by
  obtain ⟨-, ⟨c, hlive, hcidx, hport⟩, -⟩ := twoClients_entries
  have hconserved : twoClients.PortsConserved (portShare 0 64512) :=
    portsConserved_run _ _ _ _ _ _
  have hzero : (0 : UInt8).toNat < kMaxBackends := by decide
  have hmem : (twoClients.nat.slots s).snatPort ∈ portShare 0 64512 := by
    rw [← Finset.mem_val, ← hconserved 0 hzero, Multiset.mem_add, mem_heldPorts]
    exact .inr ⟨s, hocc, hidx, hne, rfl⟩
  rw [portShare_one_port, Finset.mem_singleton] at hmem
  have hslot : s = c := hconserved.snatPort_inj hocc hlive.1.1 (hidx.trans hcidx.symm)
    (hidx.symm ▸ hzero) hne (hmem.trans hport.symm)
  rwa [hslot]

/-- With a live entry and a dead one, a third client is refused as the only port is in use. -/
theorem refusedOnlyWhenFull_two_clients :
    twoClients.NeedsFlow 30001 (udpPacket 2) ∧
      (handlePacket (FlowKey.hash .sse42) twoClients (.single { ip := 0x0A000202, port := 8080 })
        30001 (udpPacket 2)).2.1 = false ∧
      RefusedOnlyWhenFull (FlowKey.hash .sse42) twoClients (portShare 0 64512)
        (.single { ip := 0x0A000202, port := 8080 }) 30001 (udpPacket 2) := by
  obtain ⟨-, -, hfree, hnone⟩ := twoClients_entries
  have hmap : ForwardMap (FlowKey.hash .sse42) twoClients.nat := forwardMap_run _ _ _ _ _
  have htimeout : twoClients.nat.timeoutMs = 30000 := by
    rw [twoClients, run_timeoutMs]
    rfl
  have hneeds : twoClients.NeedsFlow 30001 (udpPacket 2) := by
    refine ⟨rfl, mayOpen_udpPacket 2, fun ⟨c, hc, hkey⟩ => ?_⟩
    rw [(hmap.lookupForward_of_live hc hkey).1] at hnone
    exact Option.some_ne_none c hnone
  have hselect := BackendPool.select_single { ip := 0x0A000202, port := 8080 }
    (FlowKey.hash .sse42) (udpPacket 2).flowKey
  have honly := refusedOnlyWhenFull_iff (FlowKey.hash .sse42) 20 30000 0 64512
    [⟨some (.second { ip := 0x0A000202, port := 8080 } { ip := 0x0A000203, port := 8080 }), 0,
        udpPacket 0⟩,
      ⟨some (.single { ip := 0x0A000202, port := 8080 }), 20000, udpPacket 1⟩]
    (.single { ip := 0x0A000202, port := 8080 }) Nat.one_ne_zero 30001 (udpPacket 2) hneeds
  rw [← twoClients] at honly
  simp only [hselect, htimeout] at honly
  exact ⟨hneeds, (hneeds.refused_iff _).mpr (.inl (hselect.symm ▸ hfree)),
    honly.mpr (.inr fun _ => twoClients_live)⟩

/-! ### A run in which dead entries hold all ports -/

/-- The first `k` clients send one UDP packet each, all at time `0`, to a single backend. -/
def flood (backend : BackendInfo) (k : ℕ) : List Arrival :=
  (List.range k).map fun i => ⟨some (.single backend), 0, udpPacket i⟩

theorem flowKey_udpPacket_inj {i j : ℕ} (hi : i < 2 ^ 32) (hj : j < 2 ^ 32)
    (h : (udpPacket i).flowKey = (udpPacket j).flowKey) : i = j := by
  have hip : UInt32.ofNat i = UInt32.ofNat j := congrArg FlowKey.srcIp h
  have htoNat := congrArg UInt32.toNat hip
  rwa [UInt32.toNat_ofNat', UInt32.toNat_ofNat', Nat.mod_eq_of_lt hi, Nat.mod_eq_of_lt hj] at htoNat

/-- The state after `k` packets of a flood: one live entry for each client, and `k` ports gone. -/
structure Flooded (n : LbNode bits) (total k : ℕ) : Prop where
  live : ∀ s, (n.nat.slots s).occupied = true →
    (n.nat.slots s).reaped = false ∧ (n.nat.slots s).lastSeenMs = 0
  keys : ∀ s, (n.nat.slots s).occupied = true →
    ∃ i < k, (n.nat.slots s).fwdKey = (udpPacket i).flowKey
  used : (Finset.univ.filter fun s => (n.nat.slots s).occupied = true).card ≤ k
  free : (n.portPools 0).free.length + k = total

theorem Flooded.live_iff {n : LbNode bits} {total k : ℕ} (h : Flooded n total k) (s : Slot bits) :
    (n.nat.slots s).Live n.nat.timeoutMs 0 ↔ (n.nat.slots s).occupied = true :=
  ⟨fun hlive => hlive.1.1, fun hocc =>
    live_of_lastSeen_eq ⟨hocc, (h.live s hocc).1⟩ (h.live s hocc).2⟩

/-- At the time of the flood nothing has expired, so nothing is reaped. -/
theorem Flooded.slots_eq {n : LbNode bits} {total k : ℕ} (h : Flooded n total k)
    {t : NatTable bits} (hreaps : Reaps 0 n.nat t) : t.slots = n.nat.slots := by
  funext s
  rcases hreaps.slots_eq_or s with heq | ⟨hexp, -⟩
  · exact heq
  · exact absurd ((h.live_iff s).mpr (occupied_of_expired hexp)) (not_live_of_expired hexp)

theorem Flooded.openAt {n : LbNode bits} {total k : ℕ} (h : Flooded n total k)
    (hash : FlowKey → UInt32) {flow : NatFlow} {s : Slot bits} (hidx : flow.backendIdx = 0)
    (hkey : flow.fwdKey = (udpPacket k).flowKey) (hreaped : flow.reaped = false)
    (hempty : (n.nat.slots s).occupied = false) (hport : (n.portPools 0).free ≠ []) :
    Flooded (LbNode.openAt hash n flow s 0) total (k + 1) := by
  have hslots := openAt_slots hash n flow s 0
  have hpools : (LbNode.openAt hash n flow s 0).portPools 0 = (n.portPools 0).acquire.2 := by
    simp only [LbNode.openAt, hempty, Bool.false_eq_true, if_false, releasePort, ne_eq,
      not_true_eq_false, dite_false, hidx, Function.update_self]
  refine ⟨fun c hc => ?_, fun c hc => ?_, ?_, ?_⟩
  · rw [hslots] at hc ⊢
    rcases eq_or_ne c s with rfl | hne
    · rw [Function.update_self]
      exact ⟨hreaped, rfl⟩
    · rw [Function.update_of_ne hne] at hc ⊢
      exact h.live c hc
  · rw [hslots] at hc ⊢
    rcases eq_or_ne c s with rfl | hne
    · rw [Function.update_self]
      exact ⟨k, Nat.lt_succ_self k, hkey⟩
    · rw [Function.update_of_ne hne] at hc ⊢
      obtain ⟨i, hi, hs⟩ := h.keys c hc
      exact ⟨i, Nat.lt_succ_of_lt hi, hs⟩
  · refine (Finset.card_le_card (t := insert s (Finset.univ.filter fun c =>
      (n.nat.slots c).occupied = true)) fun c hc => ?_).trans
      ((Finset.card_insert_le _ _).trans (Nat.succ_le_succ h.used))
    rcases eq_or_ne c s with rfl | hne
    · exact Finset.mem_insert_self _ _
    · rw [hslots, Finset.mem_filter, Function.update_of_ne hne] at hc
      exact Finset.mem_insert_of_mem (Finset.mem_filter.mpr hc)
  · have hcons := congrArg List.length (PortPool.free_eq_cons_acquire
      (PortPool.acquire_fst_eq_zero.not.mpr hport))
    rw [List.length_cons] at hcons
    have hfree := h.free
    rw [hpools]
    omega

/-- One more client opens one more flow. -/
theorem Flooded.arrive {n : LbNode bits} {total k : ℕ} (h : Flooded n total k)
    (hash : FlowKey → UInt32) (backend : BackendInfo) (hk : k < total) (hroom : k < 2 ^ bits)
    (hsmall : k < 2 ^ 32) :
    Flooded (arrive hash n ⟨some (.single backend), 0, udpPacket k⟩).1 total (k + 1) := by
  have husable : (⟨some (.single backend), 0, udpPacket k⟩ : Arrival).usable =
      some (.single backend) := Arrival.usable_eq_some.mpr ⟨rfl, Nat.one_ne_zero⟩
  have hneeds : n.NeedsFlow 0 (udpPacket k) := by
    refine ⟨rfl, mayOpen_udpPacket k, ?_⟩
    rintro ⟨s, hlive, hkey⟩
    obtain ⟨i, hi, hs⟩ := h.keys s hlive.1.1
    have := flowKey_udpPacket_inj (by omega) hsmall (hs.symm.trans hkey)
    omega
  have hport : (n.portPools 0).free ≠ [] := fun hnil => by
    have := h.free
    rw [hnil, List.length_nil] at this
    omega
  have hslot : ¬ n.nat.AllLive 0 := fun hall => by
    have hused := h.used
    rw [Finset.filter_true_of_mem fun s _ => (hall s).1.1, Finset.card_univ, Fintype.card_fin]
      at hused
    omega
  have hselect := BackendPool.select_single backend hash (udpPacket k).flowKey
  have haccepted : (handlePacket hash n (.single backend) 0 (udpPacket k)).2.1 ≠ false := by
    rw [ne_eq, hneeds.refused_iff, hselect]
    exact not_or.mpr ⟨hport, hslot⟩
  rw [arrive_of_usable hash n husable]
  have hout := handlePacket_outcome hash n (.single backend) 0 (udpPacket k)
  generalize handlePacket hash n (.single backend) 0 (udpPacket k) = r at hout haccepted
  cases hout with
  | @forward t s hdir hreaps hlive hkey =>
    have heq := hreaps.slots_eq_of_unreaped hlive.1
    exact absurd ⟨s, (hreaps.live_iff s).mp hlive, heq ▸ hkey⟩ hneeds.noFlow
  | @opened t s hdir hreaps hmay hopens =>
    have hslots := h.slots_eq hreaps
    have hempty : (n.nat.slots s).occupied = false := by
      have hdead := (hreaps.live_iff s).not.mp hopens.dead
      rwa [h.live_iff, Bool.not_eq_true] at hdead
    have hflooded : Flooded { n with nat := t } total k :=
      ⟨hslots ▸ h.live, hslots ▸ h.keys, hslots ▸ h.used, h.free⟩
    change Flooded (maybeTeardown (LbNode.openAt hash _ _ s 0) s (udpPacket k)) total (k + 1)
    rw [maybeTeardown_of_not_has _ _ (has_udpPacket k).1 (has_udpPacket k).2]
    exact hflooded.openAt hash hselect rfl rfl (hslots ▸ hempty) hport
  | refused => exact absurd rfl haccepted
  | reverse hdir => exact Direction.noConfusion hdir
  | unknown hdir => exact Direction.noConfusion hdir

theorem flooded_run (hash : FlowKey → UInt32) (bits : ℕ) (timeoutMs : UInt32)
    (backend : BackendInfo) {k : ℕ} (hroom : k ≤ 2 ^ bits) (hk : k ≤ 64512) :
    Flooded (run hash (init bits timeoutMs 0 1) (flood backend k)) 64512 k := by
  induction k with
  | zero =>
    have hfree : ((init bits timeoutMs 0 1).portPools 0).free.length = 64512 := by
      rw [init_portPools (by decide)]
      exact PortPool.length_forWorker_zero_one
    have hempty (s : Slot bits) : ¬ ((init bits timeoutMs 0 1).nat.slots s).occupied = true :=
      Bool.false_ne_true
    rw [show flood backend 0 = [] from rfl, run_nil]
    exact ⟨fun s hs => absurd hs (hempty s), fun s hs => absurd hs (hempty s),
      (Finset.card_eq_zero.mpr (Finset.filter_false_of_mem fun s _ => hempty s)).le,
      (Nat.add_zero _).trans hfree⟩
  | succ k ih =>
    have hflood : flood backend (k + 1) =
        flood backend k ++ [⟨some (.single backend), 0, udpPacket k⟩] := by
      rw [flood, List.range_succ, List.map_append]
      rfl
    rw [hflood, run_append]
    exact (ih (by omega) (by omega)).arrive hash backend (by omega) (by omega) (by omega)

/-- Later than the timeout, every entry of the flood is dead. -/
theorem Flooded.not_live {n : LbNode bits} {total k : ℕ} (h : Flooded n total k) {nowMs : UInt32}
    (hnow : n.nat.timeoutMs < nowMs) (s : Slot bits) :
    ¬ (n.nat.slots s).Live n.nat.timeoutMs nowMs := fun hlive => by
  have hidle := hlive.2
  rw [(h.live s hlive.1.1).2, UInt32.sub_zero] at hidle
  exact absurd hnow (UInt32.not_lt.mpr hidle)

/-- When the flood has taken all ports, later clients are refused although no flow is live. -/
theorem Flooded.not_refusedOnlyWhenFull {n : LbNode bits} {total : ℕ} (h : Flooded n total total)
    (hash : FlowKey → UInt32) (backend : BackendInfo) {nowMs : UInt32}
    (hnow : n.nat.timeoutMs < nowMs) {share : Finset UInt16} {port : UInt16} (hport : port ∈ share)
    (i : ℕ) :
    n.NeedsFlow nowMs (udpPacket i) ∧
      ¬ RefusedOnlyWhenFull hash n share (.single backend) nowMs (udpPacket i) := by
  have hdead := h.not_live hnow
  have hneeds : n.NeedsFlow nowMs (udpPacket i) :=
    ⟨rfl, mayOpen_udpPacket i, fun ⟨s, hlive, _⟩ => hdead s hlive⟩
  have hnil : (n.portPools 0).free = [] := by
    have := h.free
    exact List.length_eq_zero_iff.mp (by omega)
  refine ⟨hneeds, fun honly => ?_⟩
  have hrefused : (handlePacket hash n (.single backend) nowMs (udpPacket i)).2.1 = false := by
    rw [hneeds.refused_iff, BackendPool.select_single]
    exact Or.inl hnil
  rcases honly hrefused with hall | hports
  · have s : Slot bits := ⟨0, Nat.two_pow_pos bits⟩
    exact hdead s (hall s)
  · obtain ⟨s, hlive, -⟩ := hports port hport
    exact hdead s hlive

/-- With the default capacity and timeout: after one UDP packet from each of 64512 clients and a
pause longer than the timeout no flow is live, and the next client is still refused. -/
theorem expired_flows_block_new_ones :
    let backend : BackendInfo := { ip := 0x0A000202, port := 8080 }
    let hash := FlowKey.hash .sse42
    let n := run hash (init 20 30000 0 1) (flood backend 64512)
    (BackendPool.single backend).activeCount ≠ 0 ∧ n.NeedsFlow 30001 (udpPacket 64512) ∧
      ¬ RefusedOnlyWhenFull hash n (portShare 0 1) (.single backend) 30001 (udpPacket 64512) := by
  intro backend hash n
  have hflooded : Flooded n 64512 64512 := flooded_run hash 20 30000 backend (by decide) le_rfl
  have hnow : n.nat.timeoutMs < 30001 := by
    rw [run_timeoutMs]
    exact (by decide : (30000 : UInt32) < 30001)
  have hport : 1024 ∈ portShare 0 1 := mem_portShare.mpr (by decide)
  exact ⟨Nat.one_ne_zero, hflooded.not_refusedOnlyWhenFull hash backend hnow hport 64512⟩

end LbNode

end Cerebellum
