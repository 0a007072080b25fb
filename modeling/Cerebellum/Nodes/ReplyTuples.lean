import Cerebellum.Nodes.PortConservation

/-!
# No two flows share a reply tuple

A flow remembers the slot number of its backend and a copy of its address. As long as the pools keep
every backend in its slot, and no two backends have the same address and port, the reply tuple of a
flow tells the slot number, and with it the pool that its source port was taken from. A port of a
pool is in one flow at a time, so a reply tuple belongs to one flow at a time.

## Main definitions

* `Cerebellum.LbNode.StableBackends`: the pools of a run keep the backends in their slots.
* `Cerebellum.LbNode.Accounted`: every port and every backend name is accounted for.

## Main results

* `Cerebellum.LbNode.accounted_run`: the invariant holds after every such run.
* `Cerebellum.LbNode.Accounted.eq_of_revKey_eq`: two entries with the same reply tuple are one.
-/

namespace Cerebellum

open NatTable

/-- The backend that a flow was sent to, as recorded in the flow. -/
def NatFlow.backend (flow : NatFlow) : BackendInfo where
  ip := flow.backendIp
  mac := flow.backendMac
  port := flow.backendPort

namespace LbNode

variable {bits : ℕ} {hash : FlowKey → UInt32} {pool : BackendPool} {nowMs : UInt32}
  {m : PacketMeta}

/-- The pools of the run list the backends in the same slots, and no two backends share an address
and a port. -/
structure StableBackends (backends : List BackendInfo) (as : List Arrival) : Prop where
  distinct : (backends.map fun b => (b.ip, b.port)).Nodup
  stable : ∀ a ∈ as, ∀ pool, a.pool = some pool → pool.slots <+: backends

theorem StableBackends.append_left {backends : List BackendInfo} {as bs : List Arrival}
    (h : StableBackends backends (as ++ bs)) : StableBackends backends as where
  distinct := h.distinct
  stable a ha := h.stable a (List.mem_append_left bs ha)

theorem stableBackends_single {backend : BackendInfo} {as : List Arrival}
    (h : ∀ a ∈ as, a.pool = some (.single backend)) : StableBackends [backend] as where
  distinct := List.nodup_singleton _
  stable a ha pool hpool := by
    obtain rfl := Option.some.inj ((h a ha).symm.trans hpool)
    exact List.prefix_rfl

/-- Every entry that is not reaped records the backend that its slot number names. -/
def NamesBackends (backends : List BackendInfo) (n : LbNode bits) : Prop :=
  ∀ s, (n.nat.slots s).Unreaped → (n.nat.slots s).backendIdx.toNat < backends.length ∧
    (n.nat.slots s).backend = backends.getD (n.nat.slots s).backendIdx.toNat {}

theorem namesBackends_step {backends : List BackendInfo} (hslots : pool.slots <+: backends)
    (hactive : pool.activeCount ≠ 0) {n n' : LbNode bits} (h : n.NamesBackends backends)
    (hstep : Step hash pool nowMs m n n') : n'.NamesBackends backends := by
  intro s hun
  rcases hstep.slot_cases s with hkept | ⟨-, -, -, hnew⟩
  · obtain ⟨-, -, hip, hmac, hport, -, hidx⟩ := hkept.same hun
    have hold := h s (hkept.unreaped hun)
    simp only [NatFlow.backend, hip, hmac, hport, hidx] at hold ⊢
    exact hold
  · have hlt := BackendPool.select_lt hash m.flowKey hactive
    obtain ⟨rest, rfl⟩ := hslots
    rw [hnew]
    refine ⟨hlt.trans_le (by rw [List.length_append]; omega), ?_⟩
    exact (List.getD_append _ _ _ _ hlt).symm

/-- The ports add up to the worker's share, each entry that is not reaped holds one of them, and
records the backend that its slot number names. -/
structure Accounted (backends : List BackendInfo) (share : Finset UInt16) (n : LbNode bits) :
    Prop where
  ports : n.PortsConserved share
  holds : n.HoldsPort
  names : n.NamesBackends backends

theorem Accounted.step {backends : List BackendInfo} {share : Finset UInt16}
    (hslots : pool.slots <+: backends) (hactive : pool.activeCount ≠ 0) {n n' : LbNode bits}
    (h : n.Accounted backends share) (hstep : Step hash pool nowMs m n n') :
    n'.Accounted backends share where
  ports := portsConserved_step h.ports hstep
  holds := holdsPort_step hactive h.holds hstep
  names := namesBackends_step hslots hactive h.names hstep

theorem Accounted.steps {backends : List BackendInfo} {share : Finset UInt16}
    (hslots : pool.slots <+: backends) (hactive : pool.activeCount ≠ 0) {n n' : LbNode bits}
    (h : n.Accounted backends share) (hsteps : Steps hash pool nowMs m n n') :
    n'.Accounted backends share :=
  hsteps.rec h fun _ hstep ih => ih.step hslots hactive hstep

theorem accounted_init (backends : List BackendInfo) (bits : ℕ) (timeoutMs : UInt32)
    (workerId nWorkers : UInt16) :
    (init bits timeoutMs workerId nWorkers).Accounted backends (portShare workerId nWorkers) where
  ports := portsConserved_init bits timeoutMs workerId nWorkers
  holds _ h := Bool.noConfusion h.1
  names _ h := Bool.noConfusion h.1

/-- No two entries that are not reaped have the same reply tuple. -/
theorem Accounted.eq_of_revKey_eq {backends : List BackendInfo} {share : Finset UInt16}
    {n : LbNode bits} (h : n.Accounted backends share)
    (hdistinct : (backends.map fun b => (b.ip, b.port)).Nodup) {s s' : Slot bits}
    (hs : (n.nat.slots s).Unreaped) (hs' : (n.nat.slots s').Unreaped)
    (hkey : (n.nat.slots s).revKey = (n.nat.slots s').revKey) : s = s' := by
  obtain ⟨hip, hport, hsnat, -⟩ := replyKey_inj.mp hkey
  obtain ⟨hlt, hname⟩ := h.names s hs
  obtain ⟨hlt', hname'⟩ := h.names s' hs'
  have hidx : (n.nat.slots s).backendIdx = (n.nat.slots s').backendIdx := by
    have hmem (i : ℕ) (hi : i < backends.length) :
        (backends.map fun b => (b.ip, b.port))[i]? =
          some ((backends.getD i {}).ip, (backends.getD i {}).port) := by
      rw [List.getElem?_map, List.getElem?_eq_getElem hi, List.getD_eq_getElem _ _ hi]
      rfl
    refine UInt8.toNat_inj.mp ((List.getElem?_inj (by rwa [List.length_map]) hdistinct).mp ?_)
    rw [hmem _ hlt, hmem _ hlt', ← hname, ← hname']
    exact congrArg some (Prod.ext hip hport)
  obtain ⟨hne, hmax⟩ := h.holds s hs
  exact h.ports.snatPort_inj hs.1 hs'.1 hidx hmax hne hsnat

theorem accounted_run {backends : List BackendInfo} {as : List Arrival}
    (h : StableBackends backends as)
    (hash : FlowKey → UInt32) (bits : ℕ) (timeoutMs : UInt32) (workerId nWorkers : UInt16) :
    (run hash (init bits timeoutMs workerId nWorkers) as).Accounted backends
      (portShare workerId nWorkers) := by
  refine run_induct_mem (Accounted backends _)
    (accounted_init backends bits timeoutMs workerId nWorkers)
    fun a ha pool husable n n' hacc hstep => ?_
  obtain ⟨hpool, hactive⟩ := Arrival.usable_eq_some.mp husable
  exact hacc.step (h.stable a ha pool hpool) hactive hstep

end LbNode

end Cerebellum
