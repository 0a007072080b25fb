import Cerebellum.Lib.Remainders
import Cerebellum.Net.FlowHash
import Cerebellum.Nodes.ForwardMap
import Cerebellum.Nodes.PortConservation
import Cerebellum.Nodes.Steering
import Mathlib.Algebra.Ring.Nat

/-!
# How the hash spreads clients and flows

`SteerWorker` and `BackendPool::Select` take remainders of the same hash. With SSE 4.2 the hash
takes each value for one source address, so that the `2 ^ 32` client addresses are spread evenly
over the pairs of a worker and an enabled backend which can occur together at all, to within one
address.

Two flows in the table of a worker that have the same client address, and two that have the same
backend, have different hashes: their scans meet because the hash is cut down to the capacity only.

## Main definitions

* `Cerebellum.clientAddresses`: the addresses whose flows go to a worker and a backend.
* `Cerebellum.LbNode.HashesApart`: flows of one client, and flows of one backend.

## Main results

* `Cerebellum.clients_spread_evenly`: how many addresses these are.
* `Cerebellum.LbNode.flows_hash_apart`: such flows have different hashes.
-/

namespace Cerebellum

open NatTable

variable {nWorkers w j : ℕ} {pool : BackendPool}

/-- The source addresses for which the flow `key` goes to worker `w` and backend slot `b`. -/
def clientAddresses (key : FlowKey) (nWorkers : ℕ) (pool : BackendPool) (w : ℕ) (b : UInt8) :
    Set UInt32 :=
  {a | steerWorker (FlowKey.hash .sse42) { key with srcIp := a } nWorkers = w ∧
    pool.select (FlowKey.hash .sse42) { key with srcIp := a } = b}

/-- The hashes of the `2 ^ 32` source addresses are the numbers below `2 ^ 32`. -/
theorem FlowKey.hash_srcIp_bijOn (key : FlowKey) :
    Set.BijOn (fun a : UInt32 => (({ key with srcIp := a } : FlowKey).hash .sse42).toNat)
      Set.univ (Set.Iio (2 ^ 32)) := by
  refine ⟨fun a _ => UInt32.toNat_lt _, fun a _ a' _ h => ?_, fun h hlt => ?_⟩
  · exact key.hash_srcIp_injective (UInt32.toNat_inj.mp h)
  · obtain ⟨a, ha⟩ := key.hash_srcIp_bijective.surjective (UInt32.ofNat h)
    refine ⟨a, Set.mem_univ a, ?_⟩
    exact (congrArg UInt32.toNat ha).trans (UInt32.toNat_ofNat_of_lt' hlt)

theorem clientAddresses_getElem (key : FlowKey) (nWorkers w : ℕ) (hj : j < pool.active.length) :
    clientAddresses key nWorkers pool w pool.active[j] =
      {a | (({ key with srcIp := a } : FlowKey).hash .sse42).toNat % nWorkers = w ∧
        (({ key with srcIp := a } : FlowKey).hash .sse42).toNat % pool.active.length = j} := by
  ext a
  exact and_congr_right fun _ => pool.select_eq_iff _ _ hj

/-- Of the `2 ^ 32` client addresses, those whose flows go to worker `w` and to enabled backend `j`
make up an even share, if `w` and `j` agree modulo the common divisor of the numbers of workers and
of enabled backends; otherwise there is none. The number of pairs that agree is the least common
multiple of the two numbers. -/
theorem clients_spread_evenly (key : FlowKey) (pool : BackendPool) (hw : w < nWorkers)
    (hj : j < pool.active.length) :
    let clients := clientAddresses key nWorkers pool w pool.active[j]
    let share := 2 ^ 32 / nWorkers.lcm pool.activeCount
    (w ≡ j [MOD nWorkers.gcd pool.activeCount] → clients.ncard = share ∨
        clients.ncard = share + 1) ∧
      (¬ w ≡ j [MOD nWorkers.gcd pool.activeCount] → clients = ∅) := by
  simp only [clientAddresses_getElem key nWorkers w hj]
  constructor
  · intro hagree
    rw [Remainders.ncard_setOf_comp key.hash_srcIp_bijOn
      fun h => h % nWorkers = w ∧ h % pool.active.length = j]
    exact Remainders.count_mod_eq_and_mod_eq hw hj hagree _
  · intro hdiffer
    refine Set.eq_empty_iff_forall_notMem.mpr ?_
    rintro a ⟨hwa, hja⟩
    exact hdiffer (Remainders.modEq_gcd_of_mod_eq hwa hja)

/-- Three workers and two backends: a sixth of the addresses for each pair. -/
theorem clients_spread_evenly_three_workers :
    let clients := clientAddresses {} 3 twoBackends 1 1
    clients.ncard = 715827882 ∨ clients.ncard = 715827883 :=
  (clients_spread_evenly {} twoBackends (show 1 < 3 by decide)
    (show 1 < twoBackends.active.length by decide)).1 (by decide)

namespace LbNode

/-- Two flows that are not reaped have different hashes if they come from one client by the same
protocol, and different reply hashes if they were opened for one backend by the same protocol. -/
structure HashesApart {bits : ℕ} (n : LbNode bits) : Prop where
  clients : ∀ s s', (n.nat.slots s).Unreaped → (n.nat.slots s').Unreaped → s ≠ s' →
    (n.nat.slots s).fwdKey.proto = (n.nat.slots s').fwdKey.proto →
    (n.nat.slots s).fwdKey.srcIp = (n.nat.slots s').fwdKey.srcIp →
    (n.nat.slots s).fwdKey.dstIp = (n.nat.slots s').fwdKey.dstIp →
      (n.nat.slots s).fwdKey.hash .sse42 ≠ (n.nat.slots s').fwdKey.hash .sse42
  backends : ∀ s s', (n.nat.slots s).Unreaped → (n.nat.slots s').Unreaped → s ≠ s' →
    (n.nat.slots s).fwdKey.proto = (n.nat.slots s').fwdKey.proto →
    (n.nat.slots s).backendIdx = (n.nat.slots s').backendIdx →
    (n.nat.slots s).backendIp = (n.nat.slots s').backendIp →
      (n.nat.slots s).revKey.hash .sse42 ≠ (n.nat.slots s').revKey.hash .sse42

/-- In every reachable state the flows of one client and those of one backend hash apart. -/
theorem flows_hash_apart (bits : ℕ) (timeoutMs : UInt32) (workerId nWorkers : UInt16)
    (as : List Arrival) :
    (run (FlowKey.hash .sse42) (init bits timeoutMs workerId nWorkers) as).HashesApart where
  clients s s' hs hs' hne hproto hsrc hdst hhash := by
    have hmap : ForwardMap (FlowKey.hash .sse42) _ :=
      forwardMap_run bits timeoutMs workerId nWorkers as
    obtain ⟨hsp, hdp⟩ := FlowKey.ports_eq_of_hash_eq hsrc hdst hproto hhash
    exact hne (hmap.unique s s' hs hs' (FlowKey.ext hsrc hdst hsp hdp hproto))
  backends s s' hs hs' hne hproto hidx hip hhash := by
    have hports := portsConserved_run (FlowKey.hash .sse42) bits timeoutMs workerId nWorkers as
    obtain ⟨hnz, hmax⟩ := holdsPort_run bits timeoutMs workerId nWorkers as s hs
    -- the reply keys have the backend's address as source and the port as destination port
    obtain ⟨-, hsnat⟩ : NatFlow.backendPort _ = NatFlow.backendPort _ ∧
        NatFlow.snatPort _ = NatFlow.snatPort _ :=
      FlowKey.ports_eq_of_hash_eq
        (show (NatFlow.revKey _).srcIp = (NatFlow.revKey _).srcIp from hip) rfl hproto hhash
    exact hne (hports.snatPort_inj hs.1 hs'.1 hidx hmax hnz hsnat)

end LbNode

end Cerebellum
