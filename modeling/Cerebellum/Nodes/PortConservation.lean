import Cerebellum.Nodes.LbSteps
import Mathlib.Algebra.BigOperators.Group.Finset.Basic
import Mathlib.Algebra.Order.Group.Multiset

/-!
# Source ports are conserved

Every port of a worker's share is at all times in exactly one place: on the free list of the
backend's pool, or in exactly one slot of the table that is in use for this backend. A port leaves
the free list when a flow is opened and comes back when the flow is closed or its slot is taken
over; a flow that times out keeps its port until then.

## Main definitions

* `Cerebellum.NatTable.heldPorts`: the ports that the slots hold for a backend, as a multiset.
* `Cerebellum.LbNode.PortsConserved`: the free and the held ports of each backend are a given set.

## Main results

* `Cerebellum.LbNode.free_add_heldPorts_step`: no step changes the sum of free and held ports.
* `Cerebellum.LbNode.snat_ports_conserved`: they are the worker's share, each port once.
* `Cerebellum.LbNode.PortsConserved.snatPort_inj`: no two slots hold the same port of the same
  backend.
-/

namespace Cerebellum

open NatTable

namespace NatTable

variable {bits : ℕ} {t t' : NatTable bits} {s : Slot bits} {f : NatFlow} {b : UInt8}

/-- The port that an entry holds for backend `b`: its `snat_port`, if the slot is in use for `b`
and the port is not `0`. -/
def heldPort (flow : NatFlow) (b : UInt8) : Multiset UInt16 :=
  if flow.occupied = true ∧ flow.backendIdx = b ∧ flow.snatPort ≠ 0 then {flow.snatPort} else 0

/-- The ports that the slots of the table hold for backend `b`. -/
def heldPorts (t : NatTable bits) (b : UInt8) : Multiset UInt16 :=
  ∑ s, heldPort (t.slots s) b

/-- Overwriting a slot exchanges what it holds. -/
theorem heldPorts_update (h : t'.slots = Function.update t.slots s f) (b : UInt8) :
    t'.heldPorts b + heldPort (t.slots s) b = t.heldPorts b + heldPort f b := by
  have hrest : ∑ c ∈ Finset.univ.erase s, heldPort (t'.slots c) b =
      ∑ c ∈ Finset.univ.erase s, heldPort (t.slots c) b :=
    Finset.sum_congr rfl fun c hc => by rw [h, Function.update_of_ne (Finset.ne_of_mem_erase hc)]
  have hself : t'.slots s = f := by rw [h, Function.update_self]
  rw [heldPorts, heldPorts, ← Finset.sum_erase_add _ _ (Finset.mem_univ s),
    ← Finset.sum_erase_add Finset.univ (fun c => heldPort (t.slots c) b) (Finset.mem_univ s), hrest,
    hself, add_assoc, add_assoc, add_comm (heldPort f b)]

/-- Overwriting a slot without touching its port, its backend or its being in use. -/
theorem heldPorts_update_of_eq (h : t'.slots = Function.update t.slots s f)
    (hf : heldPort f b = heldPort (t.slots s) b) : t'.heldPorts b = t.heldPorts b := by
  have := heldPorts_update h b
  rw [hf] at this
  exact add_right_cancel this

/-- A held port is held by a slot. -/
theorem mem_heldPorts {port : UInt16} :
    port ∈ t.heldPorts b ↔ ∃ s, (t.slots s).occupied = true ∧ (t.slots s).backendIdx = b ∧
      port ≠ 0 ∧ (t.slots s).snatPort = port := by
  rw [heldPorts, Multiset.mem_sum]
  constructor
  · rintro ⟨s, -, hs⟩
    rw [heldPort] at hs
    split_ifs at hs with h
    · obtain rfl := Multiset.mem_singleton.mp hs
      exact ⟨s, h.1, h.2.1, h.2.2, rfl⟩
    · exact absurd hs (Multiset.notMem_zero port)
  · rintro ⟨s, hocc, hidx, hne, rfl⟩
    refine ⟨s, Finset.mem_univ s, ?_⟩
    rw [heldPort, if_pos ⟨hocc, hidx, hne⟩]
    exact Multiset.mem_singleton_self _

end NatTable

namespace LbNode

variable {bits : ℕ} {hash : FlowKey → UInt32} {pool : BackendPool} {nowMs : UInt32}
  {m : PacketMeta}

/-- The free ports of backend `b`. -/
def freePorts (n : LbNode bits) (b : UInt8) : Multiset UInt16 := (n.portPools b).free

/-- Giving a port back puts it on the free list of its backend. -/
theorem freePorts_releasePort (n : LbNode bits) (idx : UInt8) (port : UInt16) (b : UInt8) :
    (n.releasePort idx port).freePorts b =
      n.freePorts b + if idx = b ∧ port ≠ 0 then {port} else 0 := by
  unfold releasePort freePorts
  by_cases hport : port = 0
  · simp only [hport, ne_eq, not_true_eq_false, dite_false, and_false, if_false, add_zero]
  · simp only [hport, ne_eq, not_false_eq_true, dite_true, and_true]
    rcases eq_or_ne idx b with rfl | hne
    · rw [if_pos rfl, Function.update_self, add_comm]
      rfl
    · rw [if_neg hne, Function.update_of_ne hne.symm, add_zero]

/-- Taking a port takes it off the free list of its backend. -/
theorem coe_free_acquire (pools : UInt8 → PortPool) (idx b : UInt8)
    (h : (pools idx).acquire.1 ≠ 0) :
    ((Function.update pools idx (pools idx).acquire.2 b).free : Multiset UInt16) +
      (if idx = b then {(pools idx).acquire.1} else 0) = (pools b).free := by
  rcases eq_or_ne idx b with rfl | hne
  · rw [if_pos rfl, Function.update_self, add_comm]
    conv_rhs => rw [PortPool.free_eq_cons_acquire h]
    rfl
  · rw [if_neg hne, Function.update_of_ne hne.symm, add_zero]

theorem freePorts_teardown {n : LbNode bits} {s : Slot bits} (h : (n.nat.slots s).Unreaped)
    (b : UInt8) : (n.teardown s).freePorts b = n.freePorts b + heldPort (n.nat.slots s) b := by
  simp only [teardown, close_of_unreaped h, freePorts_releasePort, heldPort, h.1, true_and]
  rfl

theorem freePorts_openAt (hash : FlowKey → UInt32) (n : LbNode bits) (flow : NatFlow)
    (s : Slot bits) (nowMs : UInt32)
    (hport : (n.portPools flow.backendIdx).acquire.1 = flow.snatPort)
    (hne : flow.snatPort ≠ 0) (b : UInt8) :
    (openAt hash n flow s nowMs).freePorts b + heldPort { flow with occupied := true } b =
      n.freePorts b + heldPort (n.nat.slots s) b := by
  have htake := coe_free_acquire n.portPools flow.backendIdx b (hport.symm ▸ hne)
  have hnew : heldPort { flow with occupied := true } b =
      if flow.backendIdx = b then {flow.snatPort} else 0 := by
    simp only [heldPort, true_and, hne, ne_eq, not_false_eq_true, and_true]
  have hevicted : (if (if (n.nat.slots s).occupied then (n.nat.slots s).backendIdx else 0) = b ∧
      (if (n.nat.slots s).occupied then (n.nat.slots s).snatPort else 0) ≠ 0 then
        ({if (n.nat.slots s).occupied then (n.nat.slots s).snatPort else 0} : Multiset UInt16)
      else 0) = heldPort (n.nat.slots s) b := by
    cases hocc : (n.nat.slots s).occupied <;> simp [heldPort, hocc]
  have hfree : (openAt hash n flow s nowMs).freePorts b =
      ((Function.update n.portPools flow.backendIdx
        (n.portPools flow.backendIdx).acquire.2 b).free : Multiset UInt16) +
      heldPort (n.nat.slots s) b := by
    rw [← hevicted]
    exact freePorts_releasePort _ _ _ b
  rw [hport] at htake
  rw [hfree, hnew, add_right_comm, htake]
  rfl

theorem free_add_heldPorts_quietStep {n n' : LbNode bits} (hstep : QuietStep nowMs n n')
    (b : UInt8) :
    n'.freePorts b + n'.nat.heldPorts b = n.freePorts b + n.nat.heldPorts b := by
  cases hstep with
  | @reap s hexp =>
    exact congrArg (n.freePorts b + ·) (heldPorts_update_of_eq (reap_slots n.nat s) rfl)
  | @touch s hlive =>
    exact congrArg (n.freePorts b + ·) (heldPorts_update_of_eq touch_slots rfl)
  | @fin s dir hlive =>
    exact congrArg (n.freePorts b + ·) (heldPorts_update_of_eq (setSlot_slots _) rfl)
  | @close s hlive =>
    have hheld := heldPorts_update (congrArg NatTable.slots (teardown_nat hlive.1)) b
    have hgone : heldPort { n.nat.slots s with reaped := true, snatPort := 0 } b = 0 := by
      simp only [heldPort, ne_eq, not_true_eq_false, and_false, if_false]
    rw [hgone, add_zero] at hheld
    rw [freePorts_teardown hlive.1, ← hheld, add_assoc, add_comm (heldPort _ b)]

/-- Every single step conserves the ports of every backend. -/
theorem free_add_heldPorts_step {n n' : LbNode bits} (hstep : Step hash pool nowMs m n n')
    (b : UInt8) :
    n'.freePorts b + n'.nat.heldPorts b = n.freePorts b + n.nat.heldPorts b := by
  cases hstep with
  | quiet hquiet => exact free_add_heldPorts_quietStep hquiet b
  | @create s hdir hmay hopens =>
    have hfree := freePorts_openAt hash n
      (newFlow hash m pool (n.nextPort hash pool m)) s nowMs rfl hopens.port_ne_zero b
    have hheld := heldPorts_update (openAt_slots hash n
      (newFlow hash m pool (n.nextPort hash pool m)) s nowMs) b
    refine add_right_cancel (b := heldPort (n.nat.slots s) b) ?_
    rw [add_assoc, hheld, add_right_comm (n.freePorts b), ← hfree]
    simp only [add_assoc, add_comm]
    rfl

/-- The free and the held ports of each backend are the ports in `share`, each port once. -/
def PortsConserved (share : Finset UInt16) (n : LbNode bits) : Prop :=
  ∀ b : UInt8, b.toNat < kMaxBackends → n.freePorts b + n.nat.heldPorts b = share.val

theorem portsConserved_init (bits : ℕ) (timeoutMs : UInt32) (workerId nWorkers : UInt16) :
    (init bits timeoutMs workerId nWorkers).PortsConserved (portShare workerId nWorkers) := by
  intro b hb
  have hheld : (init bits timeoutMs workerId nWorkers).nat.heldPorts b = 0 :=
    Finset.sum_eq_zero fun s _ => if_neg fun h => Bool.noConfusion h.1
  rw [hheld, add_zero, freePorts, init_portPools hb]
  exact PortPool.coe_forWorker workerId nWorkers

theorem portsConserved_step {share : Finset UInt16} {n n' : LbNode bits}
    (h : n.PortsConserved share) (hstep : Step hash pool nowMs m n n') : n'.PortsConserved share :=
  fun b hb => (free_add_heldPorts_step hstep b).trans (h b hb)

theorem portsConserved_run (hash : FlowKey → UInt32) (bits : ℕ) (timeoutMs : UInt32)
    (workerId nWorkers : UInt16) (as : List Arrival) :
    (run hash (init bits timeoutMs workerId nWorkers) as).PortsConserved
      (portShare workerId nWorkers) :=
  run_induct (PortsConserved _) (portsConserved_init bits timeoutMs workerId nWorkers)
    (fun _ _ _ _ _ _ h hstep => portsConserved_step h hstep) as

/-- In every state that any packets, clock values and backend pools lead to, the free list of a
backend's pool together with the ports of all slots in use for the backend is, as a multiset, the
set of the ports that belong to this worker. -/
theorem snat_ports_conserved (hash : FlowKey → UInt32) (bits : ℕ) (timeoutMs : UInt32)
    (workerId nWorkers : UInt16) (as : List Arrival) (b : UInt8) (hb : b.toNat < kMaxBackends) :
    let n := run hash (init bits timeoutMs workerId nWorkers) as
    ((n.portPools b).free : Multiset UInt16) + n.nat.heldPorts b =
      (portShare workerId nWorkers).val :=
  portsConserved_run hash bits timeoutMs workerId nWorkers as b hb

/-- The statement for the first backend of the second of two workers, after one UDP packet. -/
theorem snat_ports_conserved_one_packet :
    let as : List Arrival := [⟨some (.single { ip := 0x0A000202, port := 8080 }), 0,
      { srcIp := 0x0A000102, dstIp := 0x0A0001FD, srcPort := 40000, dstPort := 80, proto := 17 }⟩]
    let n := run (FlowKey.hash .sse42) (init 20 30000 1 2) as
    (0 : UInt8).toNat < kMaxBackends ∧
      ((n.portPools 0).free : Multiset UInt16) + n.nat.heldPorts 0 = (portShare 1 2).val :=
  ⟨by decide, snat_ports_conserved (FlowKey.hash .sse42) 20 30000 1 2 _ 0 (by decide)⟩

/-! ### Consequences for single slots -/

/-- An entry that is not reaped holds a port of one of the `kMaxBackends` backends. -/
def HoldsPort (n : LbNode bits) : Prop :=
  ∀ s, (n.nat.slots s).Unreaped →
    (n.nat.slots s).snatPort ≠ 0 ∧ (n.nat.slots s).backendIdx.toNat < kMaxBackends

theorem holdsPort_step {n n' : LbNode bits} (hactive : pool.activeCount ≠ 0) (h : n.HoldsPort)
    (hstep : Step hash pool nowMs m n n') : n'.HoldsPort := by
  intro s hun
  rcases hstep.slot_cases s with hkept | ⟨-, -, hopens, hnew⟩
  · rw [(hkept.same hun).snatPort, (hkept.same hun).backendIdx]
    exact h s (hkept.unreaped hun)
  · rw [hnew]
    exact ⟨hopens.port_ne_zero,
      (BackendPool.select_lt hash m.flowKey hactive).trans_le pool.length_slots_le⟩

theorem holdsPort_run (bits : ℕ) (timeoutMs : UInt32) (workerId nWorkers : UInt16)
    (as : List Arrival) : (run hash (init bits timeoutMs workerId nWorkers) as).HoldsPort :=
  run_induct HoldsPort (fun _ h => Bool.noConfusion h.1)
    (fun _ _ _ _ _ hactive h hstep => holdsPort_step hactive h hstep) as

/-- The port of an entry that is not reaped is one of the shared-out ports. -/
theorem PortsConserved.snatPort_mem {share : Finset UInt16} {n : LbNode bits}
    (h : n.PortsConserved share) (hholds : n.HoldsPort) {s : Slot bits}
    (hun : (n.nat.slots s).Unreaped) : (n.nat.slots s).snatPort ∈ share := by
  obtain ⟨hne, hidx⟩ := hholds s hun
  rw [← Finset.mem_val, ← h _ hidx]
  exact Multiset.mem_add.mpr (Or.inr (mem_heldPorts.mpr ⟨s, hun.1, rfl, hne, rfl⟩))

/-- No two slots in use hold the same port of the same backend. -/
theorem PortsConserved.snatPort_inj {share : Finset UInt16} {n : LbNode bits}
    (h : n.PortsConserved share) {s s' : Slot bits}
    (hs : (n.nat.slots s).occupied = true) (hs' : (n.nat.slots s').occupied = true)
    (hidx : (n.nat.slots s).backendIdx = (n.nat.slots s').backendIdx)
    (hlt : (n.nat.slots s).backendIdx.toNat < kMaxBackends)
    (hne : (n.nat.slots s).snatPort ≠ 0)
    (hport : (n.nat.slots s).snatPort = (n.nat.slots s').snatPort) : s = s' := by
  by_contra hss
  have hnodup : (n.nat.heldPorts (n.nat.slots s).backendIdx).Nodup :=
    Multiset.nodup_of_le (h _ hlt ▸ Multiset.le_add_left _ _) (Finset.nodup _)
  -- the two slots together hold the port twice
  have htwo : heldPort (n.nat.slots s') (n.nat.slots s).backendIdx +
      heldPort (n.nat.slots s) (n.nat.slots s).backendIdx ≤
        n.nat.heldPorts (n.nat.slots s).backendIdx := by
    rw [heldPorts, ← Finset.sum_erase_add _ _ (Finset.mem_univ s),
      ← Finset.sum_erase_add _ _ (Finset.mem_erase.mpr ⟨Ne.symm hss, Finset.mem_univ s'⟩)]
    exact add_le_add_left (Multiset.le_add_left _ _) _
  rw [heldPort, heldPort, if_pos ⟨hs', hidx.symm, hport ▸ hne⟩, if_pos ⟨hs, rfl, hne⟩,
    ← hport] at htwo
  exact absurd (Multiset.nodup_of_le htwo hnodup) (by simp)

end LbNode

end Cerebellum
