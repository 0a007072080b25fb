import Cerebellum.Ipc.ControlView
import Cerebellum.Nodes.ExpiredPorts
import Cerebellum.Nodes.ReverseIndex

/-!
# Backends that are configured twice

`LoadConfig` takes the list of backends as it is, and each entry gets a slot and a pool of source
ports of its own. Replies are told apart by the address and port of the backend. So if two of the
published entries have the same address and port, then two flows, one for each slot, can get the
same source port, and their replies look the same.

## Main definitions

* `Cerebellum.PublishedPool`: a pool with the configured backends and any enabled flags.
* `Cerebellum.LbNode.UnambiguousReplies`: no two flows have the same reply tuple.

## Main results

* `Cerebellum.LbNode.unambiguousReplies_iff`: in which configurations this holds.
* `Cerebellum.LbNode.repeated_backend_confuses_replies`: one in which it does not.
-/

open Probing

namespace Cerebellum

open NatTable

/-- The pool was built from the configured backends, with any enabled flags. -/
def PublishedPool (backends : List BackendInfo) (pool : BackendPool) : Prop :=
  ∃ enabled, pool = buildPool (clamp (controlEntries backends enabled))

/-- A published pool has the first `kMaxBackends` of the configured backends in its slots. -/
theorem slots_buildPool (backends : List BackendInfo) (enabled : ℕ → UInt8) :
    (buildPool (clamp (controlEntries backends enabled))).slots = backends.take kMaxBackends :=
  slots_buildPool_of_take rfl

theorem enabled_buildPool (backends : List BackendInfo) (enabled : ℕ → UInt8) {i : ℕ}
    (hi : i < (backends.take kMaxBackends).length) :
    (buildPool (clamp (controlEntries backends enabled))).enabled.getD i 0 = enabled i := by
  have hlt : i < min kMaxBackends backends.length := by rwa [List.length_take] at hi
  rw [List.getD_eq_getElem?_getD]
  simp [buildPool, clamp, controlEntries, lt_min_iff.mp hlt]

/-- The published pool in which only the backend in slot `i` is enabled. -/
def onlyPool (backends : List BackendInfo) (i : ℕ) : BackendPool :=
  buildPool (clamp (controlEntries backends fun k => if k = i then 1 else 0))

theorem mem_active_onlyPool {backends : List BackendInfo} {i : ℕ}
    (hi : i < (backends.take kMaxBackends).length) {idx : UInt8} :
    idx ∈ (onlyPool backends i).active ↔ idx.toNat = i := by
  rw [BackendPool.mem_active, onlyPool, slots_buildPool]
  constructor
  · rintro ⟨hlt, hen⟩
    rw [enabled_buildPool _ _ hlt] at hen
    by_contra hne
    exact hen (if_neg hne)
  · rintro rfl
    rw [enabled_buildPool _ _ hi, if_pos rfl]
    exact ⟨hi, by decide⟩

theorem activeCount_onlyPool {backends : List BackendInfo} {i : ℕ}
    (hi : i < (backends.take kMaxBackends).length) : (onlyPool backends i).activeCount ≠ 0 := by
  have hmax : i < kMaxBackends := hi.trans_le (List.length_take_le _ _)
  have hmem : UInt8.ofNat i ∈ (onlyPool backends i).active := by
    rw [mem_active_onlyPool hi, UInt8.toNat_ofNat']
    exact Nat.mod_eq_of_lt (hmax.trans (by decide))
  exact (List.length_pos_of_mem hmem).ne'

theorem toNat_select_onlyPool {backends : List BackendInfo} {i : ℕ}
    (hi : i < (backends.take kMaxBackends).length) (hash : FlowKey → UInt32) (key : FlowKey) :
    ((onlyPool backends i).select hash key).toNat = i :=
  (mem_active_onlyPool hi).mp
    (BackendPool.select_mem_active hash key (activeCount_onlyPool hi))

namespace LbNode

variable {bits : ℕ} {hash : FlowKey → UInt32}

/-- No two entries that are not reaped have the same reply tuple. -/
def UnambiguousReplies (n : LbNode bits) : Prop :=
  ∀ s s', (n.nat.slots s).Unreaped → (n.nat.slots s').Unreaped →
    (n.nat.slots s).backendIp = (n.nat.slots s').backendIp →
    (n.nat.slots s).backendPort = (n.nat.slots s').backendPort →
    (n.nat.slots s).snatPort = (n.nat.slots s').snatPort →
    (n.nat.slots s).fwdKey.proto = (n.nat.slots s').fwdKey.proto → s = s'

/-- The `k`-th client sends a UDP packet at time `0`, while only slot `i` is enabled. -/
def udpArrival (backends : List BackendInfo) (i k : ℕ) : Arrival :=
  ⟨some (onlyPool backends i), 0, udpPacket k⟩

/-- The entry that such a packet leaves. -/
structure OpenedBy (backends : List BackendInfo) (i k : ℕ) (port : UInt16) (flow : NatFlow) :
    Prop where
  unreaped : flow.Unreaped
  lastSeenMs : flow.lastSeenMs = 0
  fwdKey : flow.fwdKey = (udpPacket k).flowKey
  backend : flow.backend = (backends.take kMaxBackends).getD i {}
  snatPort : flow.snatPort = port

/-- Such a packet opens a flow if the pool of the slot is fresh and the table has a slot left. -/
theorem arrive_udpArrival (hash : FlowKey → UInt32) {n : LbNode bits} (hmap : ForwardMap hash n.nat)
    {backends : List BackendInfo} {i k : ℕ} (hi : i < (backends.take kMaxBackends).length)
    {ports : PortPool} (hports : ∀ idx : UInt8, idx.toNat = i → n.portPools idx = ports)
    (hfree : ports.free ≠ [])
    (hnew : ∀ c, (n.nat.slots c).Live n.nat.timeoutMs 0 →
      (n.nat.slots c).fwdKey ≠ (udpPacket k).flowKey)
    {c : Slot bits} (hc : ¬ (n.nat.slots c).Live n.nat.timeoutMs 0) :
    let n' := (arrive hash n (udpArrival backends i k)).1
    ∃ s t, Reaps 0 n.nat t ∧ ¬ (n.nat.slots s).Live n.nat.timeoutMs 0 ∧
      OpenedBy backends i k ports.acquire.1 (n'.nat.slots s) ∧
      (∀ c ≠ s, n'.nat.slots c = t.slots c) ∧
      ((n.nat.slots s).occupied = false →
        ∀ idx : UInt8, idx.toNat ≠ i → n'.portPools idx = n.portPools idx) := by
  intro n'
  have hselect := toNat_select_onlyPool hi hash (udpPacket k).flowKey
  have hneeds : n.NeedsFlow 0 (udpPacket k) :=
    ⟨rfl, mayOpen_udpPacket k, fun ⟨c, hlive, hkey⟩ => hnew c hlive hkey⟩
  have hport : (n.portPools ((onlyPool backends i).select hash (udpPacket k).flowKey)).free ≠
      [] := by
    rw [hports _ hselect]
    exact hfree
  obtain ⟨s, hopens⟩ := hneeds.exists_opensIn hport hc
  have husable : (udpArrival backends i k).usable = some (onlyPool backends i) :=
    Arrival.usable_eq_some.mpr ⟨rfl, activeCount_onlyPool hi⟩
  obtain ⟨t, hreaps, heq⟩ := OpensIn.arrive_fst_eq (a := udpArrival backends i k) hopens hmap
    husable (has_udpPacket k).1 (has_udpPacket k).2
  change n' = _ at heq
  refine ⟨s, t, hreaps, hopens.dead, ?_, fun c hc => ?_, fun hunused idx hidx => ?_⟩
  · rw [heq, openAt_slots, Function.update_self]
    refine ⟨⟨rfl, rfl⟩, rfl, rfl, ?_, ?_⟩
    · change (onlyPool backends i).getAt
        ((onlyPool backends i).select hash (udpPacket k).flowKey) = _
      rw [BackendPool.getAt, hselect, onlyPool, slots_buildPool]
    · change (n.portPools ((onlyPool backends i).select hash (udpPacket k).flowKey)).acquire.1 = _
      rw [hports _ hselect]
  · rw [heq, openAt_slots, Function.update_of_ne hc]
  · rw [heq]
    refine openAt_portPools_of_ne hash ((hreaps.occupied_eq s).trans hunused) fun hsame => ?_
    exact hidx (hsame ▸ hselect)

theorem published_udpArrivals (backends : List BackendInfo) (i j : ℕ) :
    ∀ a ∈ [udpArrival backends i 0, udpArrival backends j 1], ∀ pool, a.pool = some pool →
      PublishedPool backends pool := by
  simp only [List.forall_mem_cons, List.not_mem_nil, false_imp_iff, implies_true, and_true]
  refine ⟨fun pool hpool => ?_, fun pool hpool => ?_⟩
  · exact ⟨_, (Option.some.inj hpool).symm⟩
  · exact ⟨_, (Option.some.inj hpool).symm⟩

/-- Two clients, sent to two slots with the same address and port, get the same reply tuple. -/
theorem exists_same_reply (hash : FlowKey → UInt32) (hbits : bits ≠ 0) (timeoutMs : UInt32)
    {workerId nWorkers : UInt16} (hshare : portShare workerId nWorkers ≠ ∅)
    {backends : List BackendInfo} {i j : ℕ} (hne : i ≠ j)
    (hi : i < (backends.take kMaxBackends).length) (hj : j < (backends.take kMaxBackends).length) :
    ∃ s s' port, s ≠ s' ∧
      OpenedBy backends i 0 port ((run hash (init bits timeoutMs workerId nWorkers)
        [udpArrival backends i 0, udpArrival backends j 1]).nat.slots s) ∧
      OpenedBy backends j 1 port ((run hash (init bits timeoutMs workerId nWorkers)
        [udpArrival backends i 0, udpArrival backends j 1]).nat.slots s') := by
  have hfree : (PortPool.forWorker workerId nWorkers).free ≠ [] := by
    intro hnil
    have hcoe := PortPool.coe_forWorker workerId nWorkers
    rw [hnil] at hcoe
    exact hshare (Finset.val_eq_zero.mp hcoe.symm)
  have hinit {k : ℕ} (hk : k < (backends.take kMaxBackends).length) (idx : UInt8)
      (hidx : idx.toNat = k) : (init bits timeoutMs workerId nWorkers).portPools idx =
        .forWorker workerId nWorkers :=
    init_portPools (hidx ▸ hk.trans_le (List.length_take_le _ _)) timeoutMs workerId nWorkers
  have hempty (c : Slot bits) : ¬ ((init bits timeoutMs workerId nWorkers).nat.slots c).Unreaped :=
    fun h => Bool.noConfusion h.1
  obtain ⟨s, t, hreaps, -, hfirst, hothers, hpools⟩ := arrive_udpArrival hash (k := 0)
    (forwardMap_empty timeoutMs) hi (hinit hi) hfree (fun c hlive => absurd hlive.1 (hempty c))
    (c := ⟨0, Nat.two_pow_pos bits⟩) fun hlive => hempty _ hlive.1
  -- the table holds nothing but the first flow
  have honly (c : Slot bits) (hc : ((arrive hash (init bits timeoutMs workerId nWorkers)
      (udpArrival backends i 0)).1.nat.slots c).Unreaped) : c = s := by
    by_contra hcs
    rw [hothers c hcs] at hc
    exact hempty c (hreaps.slots_eq_of_unreaped hc ▸ hc)
  obtain ⟨c, hc⟩ : ∃ c : Slot bits, c ≠ s := by
    have : Nontrivial (Slot bits) :=
      Fin.nontrivial_iff_two_le.mpr (Nat.le_self_pow hbits 2)
    exact exists_ne s
  have hkeys : (udpPacket 0).flowKey ≠ (udpPacket 1).flowKey := fun hkey =>
    absurd (flowKey_udpPacket_inj (by decide) (by decide) hkey) (by decide)
  obtain ⟨s', t', hreaps', hdead, hsecond, hothers', -⟩ := arrive_udpArrival hash (k := 1)
    (n := (arrive hash (init bits timeoutMs workerId nWorkers) (udpArrival backends i 0)).1)
    (forwardMap_run bits timeoutMs workerId nWorkers [udpArrival backends i 0]) hj
    (fun idx hidx => (hpools rfl idx (hidx ▸ hne.symm)).trans (hinit hj idx hidx)) hfree
    (fun c hlive => honly c hlive.1 ▸ hfirst.fwdKey ▸ hkeys) fun hlive => hc (honly c hlive.1)
  have hlive : ((arrive hash (init bits timeoutMs workerId nWorkers)
      (udpArrival backends i 0)).1.nat.slots s).Live (arrive hash
        (init bits timeoutMs workerId nWorkers) (udpArrival backends i 0)).1.nat.timeoutMs 0 :=
    live_of_lastSeen_eq hfirst.unreaped hfirst.lastSeenMs
  have hne' : s ≠ s' := by
    rintro rfl
    exact hdead hlive
  refine ⟨s, s', _, hne', ?_, hsecond⟩
  rw [run_cons, run_cons, run_nil, hothers' s hne', hreaps'.slots_eq_of_live hlive]
  exact hfirst

/-- So their replies are ambiguous. -/
theorem not_unambiguousReplies (hash : FlowKey → UInt32) (hbits : bits ≠ 0) (timeoutMs : UInt32)
    {workerId nWorkers : UInt16} (hshare : portShare workerId nWorkers ≠ ∅)
    {backends : List BackendInfo} {i j : ℕ} (hne : i ≠ j)
    (hi : i < (backends.take kMaxBackends).length) (hj : j < (backends.take kMaxBackends).length)
    (hip : ((backends.take kMaxBackends).getD i {}).ip =
      ((backends.take kMaxBackends).getD j {}).ip)
    (hport : ((backends.take kMaxBackends).getD i {}).port =
      ((backends.take kMaxBackends).getD j {}).port) :
    ¬ (run hash (init bits timeoutMs workerId nWorkers)
      [udpArrival backends i 0, udpArrival backends j 1]).UnambiguousReplies := by
  intro h
  obtain ⟨s, s', port, hss', hs, hs'⟩ := exists_same_reply hash hbits timeoutMs hshare hne hi hj
  rw [← hs.backend, ← hs'.backend] at hip hport
  refine hss' (h s s' hs.unreaped hs'.unreaped hip hport ?_ ?_)
  · rw [hs.snatPort, hs'.snatPort]
  · rw [hs.fwdKey, hs'.fwdKey]
    rfl

/-- In which configurations reply tuples are unambiguous: in every state reached with published
pools, whatever their enabled flags, no two flows have the same reply tuple if and only if no two of
the published backends have the same address and port, or the table has a single slot, or the worker
has no port to give out. -/
theorem unambiguousReplies_iff (hash : FlowKey → UInt32) (bits : ℕ) (timeoutMs : UInt32)
    (workerId nWorkers : UInt16) (backends : List BackendInfo) :
    (∀ as : List Arrival,
      (∀ a ∈ as, ∀ pool, a.pool = some pool → PublishedPool backends pool) →
        (run hash (init bits timeoutMs workerId nWorkers) as).UnambiguousReplies) ↔
      ((backends.take kMaxBackends).map fun b => (b.ip, b.port)).Nodup ∨ bits = 0 ∨
        portShare workerId nWorkers = ∅ := by
  constructor
  · intro h
    rw [or_iff_not_imp_right, not_or]
    rintro ⟨hbits, hshare⟩
    refine List.pairwise_iff_getElem.mpr fun i j hi hj hlt hsame => ?_
    rw [List.getElem_map, List.getElem_map] at hsame
    rw [List.length_map] at hi hj
    refine not_unambiguousReplies hash hbits timeoutMs hshare hlt.ne hi hj ?_ ?_
      (h _ (published_udpArrivals backends i j))
    · rw [List.getD_eq_getElem _ _ hi, List.getD_eq_getElem _ _ hj]
      exact congrArg Prod.fst hsame
    · rw [List.getD_eq_getElem _ _ hi, List.getD_eq_getElem _ _ hj]
      exact congrArg Prod.snd hsame
  · rintro (hnodup | rfl | hshare) as hpools s s' hs hs' hip hport hsnat hproto
    · have hstable : StableBackends (backends.take kMaxBackends) as := by
        refine ⟨hnodup, fun a ha pool hpool => ?_⟩
        obtain ⟨enabled, rfl⟩ := hpools a ha pool hpool
        rw [slots_buildPool]
      exact (accounted_run hstable hash bits timeoutMs workerId nWorkers).eq_of_revKey_eq hnodup hs
        hs' (replyKey_inj.mpr ⟨hip, hport, hsnat, hproto⟩)
    · exact Subsingleton.elim (α := Fin 1) s s'
    · have hmem := (portsConserved_run hash bits timeoutMs workerId nWorkers as).snatPort_mem
        (holdsPort_run bits timeoutMs workerId nWorkers as) hs
      rw [hshare] at hmem
      exact absurd hmem (Finset.notMem_empty _)

/-- Two clients of a backend that is configured twice get the same reply tuple. -/
theorem repeated_backend_confuses_replies :
    let backend : BackendInfo := { ip := 0x0A000202, port := 8080 }
    let hash := FlowKey.hash .sse42
    let as := [udpArrival [backend, backend] 0 0, udpArrival [backend, backend] 1 1]
    (∀ a ∈ as, ∀ pool, a.pool = some pool → PublishedPool [backend, backend] pool) ∧
      ¬ (run hash (init 20 30000 0 1) as).UnambiguousReplies := by
  intro backend hash as
  have hshare : portShare 0 1 ≠ ∅ := by
    have hmem : (1024 : UInt16) ∈ portShare 0 1 := mem_portShare.mpr (by decide)
    exact Finset.nonempty_iff_ne_empty.mp ⟨_, hmem⟩
  exact ⟨published_udpArrivals _ _ _, not_unambiguousReplies hash (by decide) 30000 hshare
    (by decide) (by decide) (by decide) rfl rfl⟩

end LbNode

end Cerebellum
