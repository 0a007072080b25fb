import Cerebellum.Nodes.FlowCounters
import Cerebellum.Nodes.PortConservation
import Mathlib.Data.Int.ModEq

/-!
# How many ports and flows a backend can have

`ForWorker` reserves room for the ports of its worker. As ports are conserved, no free list ever
holds more than that, so `Release`, which may not throw, never has to make the list larger. The
flows of a backend hold different ports, so there are at most as many of them, and a new flow is
refused for want of a port exactly when all ports of the worker are held by slots in use for the
backend, those of flows that have timed out included.

## Main definitions

* `Cerebellum.PortPool.reserve`: the room that `ForWorker` reserves.
* `Cerebellum.LbNode.PortsWithinReserve`: what holds of the ports of each backend.

## Main results

* `Cerebellum.card_portShare_le`: the share of a worker fits into its room.
* `Cerebellum.LbNode.ports_within_reserve`: the result for every run.
-/

namespace Cerebellum

open NatTable

/-- The capacity that `ForWorker` reserves for the default range of ports. -/
def PortPool.reserve (nWorkers : UInt16) : ℕ :=
  (kEphemeralHigh - kEphemeralLow) / nWorkers.toNat + 1

/-- Ports of one residue in one stretch of `nWorkers` ports are equal. -/
theorem port_eq_of_div_eq {workerId nWorkers port port' : UInt16}
    (hport : port ∈ portShare workerId nWorkers) (hport' : port' ∈ portShare workerId nWorkers)
    (hdiv : (port.toNat - kEphemeralLow) / nWorkers.toNat =
      (port'.toNat - kEphemeralLow) / nWorkers.toNat) : port = port' := by
  obtain ⟨hlow, -, hmod⟩ := mem_portShare.mp hport
  obtain ⟨hlow', -, hmod'⟩ := mem_portShare.mp hport'
  have hmodEq : port.toNat ≡ port'.toNat [MOD nWorkers.toNat] := by
    rw [Nat.ModEq, ← UInt16.toNat_mod, ← UInt16.toNat_mod, hmod, hmod']
  have hsub : port.toNat - kEphemeralLow ≡ port'.toNat - kEphemeralLow [MOD nWorkers.toNat] := by
    refine Nat.ModEq.add_right_cancel' kEphemeralLow ?_
    rwa [Nat.sub_add_cancel hlow, Nat.sub_add_cancel hlow']
  have heq : port.toNat - kEphemeralLow = port'.toNat - kEphemeralLow := by
    rw [← Nat.div_add_mod (port.toNat - kEphemeralLow) nWorkers.toNat, hdiv, hsub, Nat.div_add_mod]
  exact UInt16.toNat_inj.mp (by omega)

/-- The share of a worker fits into the room that is reserved for it. -/
theorem card_portShare_le (workerId nWorkers : UInt16) :
    (portShare workerId nWorkers).card ≤ PortPool.reserve nWorkers := by
  rw [← Finset.card_range (PortPool.reserve nWorkers)]
  refine Finset.card_le_card_of_injOn
    (fun port => (port.toNat - kEphemeralLow) / nWorkers.toNat) (fun port hport => ?_)
    fun port hport port' hport' hdiv => port_eq_of_div_eq hport hport' hdiv
  obtain ⟨-, hhigh, -⟩ := mem_portShare.mp (Finset.mem_coe.mp hport)
  exact Finset.mem_coe.mpr (Finset.mem_range.mpr
    (Nat.lt_succ_of_le (Nat.div_le_div_right (Nat.sub_le_sub_right hhigh _))))

namespace LbNode

variable {bits : ℕ} {n : LbNode bits} {b : UInt8} {share : Finset UInt16}

/-- The free ports and the flows of each backend fit into the room that was reserved, and there is
no port to be had exactly if slots in use for the backend hold all of them. -/
structure PortsWithinReserve (workerId nWorkers : UInt16) (n : LbNode bits) : Prop where
  free_le : ∀ b : UInt8, b.toNat < kMaxBackends →
    (n.portPools b).free.length ≤ PortPool.reserve nWorkers
  flows_le : ∀ b, n.nat.flowsOf b ≤ PortPool.reserve nWorkers
  exhausted_iff : ∀ b : UInt8, b.toNat < kMaxBackends →
    ((n.portPools b).acquire.1 = 0 ↔ ∀ port ∈ portShare workerId nWorkers,
      ∃ s, (n.nat.slots s).occupied = true ∧ (n.nat.slots s).backendIdx = b ∧
        (n.nat.slots s).snatPort = port)

theorem card_free_add_card_heldPorts (h : n.PortsConserved share) (hb : b.toNat < kMaxBackends) :
    (n.portPools b).free.length + (n.nat.heldPorts b).card = share.card := by
  have hcard := congrArg Multiset.card (h b hb)
  rwa [Multiset.card_add, freePorts, Multiset.coe_card] at hcard

/-- Every flow of a backend that is not reaped holds a port. -/
theorem flowsOf_le_card_heldPorts (h : n.HoldsPort) (b : UInt8) :
    n.nat.flowsOf b ≤ (n.nat.heldPorts b).card := by
  rw [NatTable.flowsOf, Finset.card_filter, heldPorts, Multiset.card_sum]
  refine Finset.sum_le_sum fun s _ => ?_
  split_ifs with hs
  · have hheld : (n.nat.slots s).occupied = true ∧ (n.nat.slots s).backendIdx = b ∧
        (n.nat.slots s).snatPort ≠ 0 := ⟨hs.1.1, hs.2, (h s hs.1).1⟩
    rw [heldPort, if_pos hheld]
    exact (Multiset.card_singleton _).ge
  · exact Nat.zero_le _

/-- The flows of a backend beyond the last one. -/
theorem flowsOf_eq_zero (h : n.HoldsPort) (hb : kMaxBackends ≤ b.toNat) : n.nat.flowsOf b = 0 := by
  refine Finset.card_eq_zero.mpr (Finset.filter_eq_empty_iff.mpr fun s _ hs => ?_)
  exact absurd (hs.2 ▸ (h s hs.1).2) (Nat.not_lt.mpr hb)

/-- The free list is empty if and only if all ports are held. -/
theorem PortsConserved.free_eq_nil_iff (h : n.PortsConserved share)
    (hb : b.toNat < kMaxBackends) :
    (n.portPools b).free = [] ↔ ∀ port ∈ share, port ∈ n.nat.heldPorts b := by
  have hports := h b hb
  rw [freePorts] at hports
  constructor
  · intro hnil port hport
    rw [hnil, Multiset.coe_nil, zero_add] at hports
    rw [hports]
    exact hport
  · intro hheld
    refine List.eq_nil_iff_forall_not_mem.mpr fun port hport => ?_
    have hmem : port ∈ share := by
      rw [← Finset.mem_val, ← hports]
      exact Multiset.mem_add.mpr (Or.inl hport)
    have hdisjoint := Multiset.nodup_add.mp (hports ▸ share.nodup)
    exact Multiset.disjoint_left.mp hdisjoint.2.2 hport (hheld port hmem)

/-- In every state that a worker can reach, the ports of each backend are within the room that was
reserved for them. -/
theorem ports_within_reserve (bits : ℕ) (hash : FlowKey → UInt32) (timeoutMs : UInt32)
    (workerId nWorkers : UInt16) (as : List Arrival) :
    (run hash (init bits timeoutMs workerId nWorkers) as).PortsWithinReserve workerId nWorkers := by
  have hports := portsConserved_run hash bits timeoutMs workerId nWorkers as
  have hholds : (run hash (init bits timeoutMs workerId nWorkers) as).HoldsPort :=
    holdsPort_run bits timeoutMs workerId nWorkers as
  have hshare := card_portShare_le workerId nWorkers
  refine ⟨fun b hb => ?_, fun b => ?_, fun b hb => ?_⟩
  · have hcard := card_free_add_card_heldPorts hports hb
    omega
  · obtain hb | hb := lt_or_ge b.toNat kMaxBackends
    · have hcard := card_free_add_card_heldPorts hports hb
      have hflows := flowsOf_le_card_heldPorts hholds b
      omega
    · rw [flowsOf_eq_zero hholds hb]
      exact Nat.zero_le _
  · rw [PortPool.acquire_fst_eq_zero, hports.free_eq_nil_iff hb]
    refine forall₂_congr fun port hport => ?_
    have hne : port ≠ 0 := by
      rintro rfl
      exact absurd (mem_portShare.mp hport).1 (by decide)
    rw [mem_heldPorts]
    simp only [hne, ne_eq, not_false_eq_true, true_and]

end LbNode

end Cerebellum
