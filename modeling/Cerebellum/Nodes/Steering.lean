import Cerebellum.Net.FlowHash
import Cerebellum.Nodes.Distributor
import Mathlib.Data.Nat.ChineseRemainder

/-!
# Steering

The IO core decides with `ClassifyForSteer` what becomes of a frame, before any worker has parsed
it. Its decision is the one that the parse node makes: what is steered to a worker is a forward or a
reverse packet there (`Cerebellum.SteersAsParsed`).

The worker of a forward packet is the remainder of the hash of its key by the number of workers, and
the backend of its flow is the remainder of the same hash by the number of enabled backends. If the
two numbers have a common divisor, the remainders are not independent, and a worker never selects
some of the backends.

## Main definitions

* `Cerebellum.SteersAsParsed`: the two classifiers agree on a frame.
* `Cerebellum.ReachesEveryBackend`: no backend is out of reach of a worker.

## Main results

* `Cerebellum.Distributor.classifiers_agree`: the classifiers agree on every frame, and so on the
  frames in the rings.
* `Cerebellum.reachesEveryBackend_iff`: which numbers of workers and backends starve no backend.
* `Cerebellum.two_workers_two_backends`: two of each do.
-/

namespace Cerebellum

open Ip4ParseNode

variable {hash : FlowKey → UInt32} {cfg : Config} {nWorkers : ℕ} {mbuf : Mbuf}

/-! ### The two classifiers -/

/-- `ClassifyForSteer` agrees with the parse node on the frame, and finds the worker from what the
parse node puts into the metadata. -/
structure SteersAsParsed (hash : FlowKey → UInt32) (cfg : Config) (nWorkers : ℕ) (mbuf : Mbuf) :
    Prop where
  arp : classifyForSteer hash cfg nWorkers mbuf.frame = .arp ↔ (classify cfg mbuf).2 = .arp
  drop : classifyForSteer hash cfg nWorkers mbuf.frame = .drop ↔ (classify cfg mbuf).2 = .drop
  steer : (∃ w, classifyForSteer hash cfg nWorkers mbuf.frame = .steer w) ↔
    (classify cfg mbuf).2 = .fwd ∨ (classify cfg mbuf).2 = .rev
  worker_lt : ∀ w, classifyForSteer hash cfg nWorkers mbuf.frame = .steer w → w < nWorkers
  forward : (classify cfg mbuf).2 = .fwd → classifyForSteer hash cfg nWorkers mbuf.frame =
    .steer (steerWorker hash (classify cfg mbuf).1.flowKey nWorkers)
  reverse : (classify cfg mbuf).2 = .rev → classifyForSteer hash cfg nWorkers mbuf.frame =
    .steer ((classify cfg mbuf).1.dstPort.toNat % nWorkers)

private theorem steersAsParsed_of_drop
    (hsteer : classifyForSteer hash cfg nWorkers mbuf.frame = .drop)
    (hparse : (classify cfg mbuf).2 = .drop) : SteersAsParsed hash cfg nWorkers mbuf := by
  constructor <;> simp [hsteer, hparse]

/-- The branches of the two functions, one by one. -/
theorem steersAsParsed (hn : 1 ≤ nWorkers) (mbuf : Mbuf) :
    SteersAsParsed hash cfg nWorkers mbuf := by
  by_cases harp : mbuf.frame.etherType = etherTypeArp
  · have hsteer : classifyForSteer hash cfg nWorkers mbuf.frame = .arp := if_pos harp
    have hparse : (classify cfg mbuf).2 = .arp := by rw [classify, if_pos harp]
    constructor <;> simp [hsteer, hparse]
  by_cases hip : mbuf.frame.etherType ≠ etherTypeIpv4
  · refine steersAsParsed_of_drop ?_ ?_
    · rw [classifyForSteer, if_neg harp, if_pos hip]
    · rw [classify, if_neg harp, if_pos hip]
  have hclassify : classify cfg mbuf = classifyIpv4 cfg mbuf.priv mbuf.frame := by
    rw [classify, if_neg harp, if_neg hip]
  by_cases hproto : mbuf.frame.nextProtoId ≠ ipprotoTcp ∧ mbuf.frame.nextProtoId ≠ ipprotoUdp
  · refine steersAsParsed_of_drop ?_ ?_
    · rw [classifyForSteer, if_neg harp, if_neg hip, if_pos hproto]
    · rw [hclassify, classifyIpv4, if_pos hproto]
  by_cases hvip : mbuf.frame.dstAddr = cfg.vip ∧ mbuf.frame.dstPort = cfg.vipPort
  · have hsteer : classifyForSteer hash cfg nWorkers mbuf.frame =
        .steer (steerWorker hash mbuf.frame.flowKey nWorkers) := by
      rw [classifyForSteer, if_neg harp, if_neg hip, if_neg hproto, if_pos hvip]
    have hparse : classify cfg mbuf = ({ parsedMeta mbuf.frame with dir := .forward }, .fwd) := by
      rw [hclassify, classifyIpv4, if_neg hproto, if_pos hvip]
    have hkey : ({ parsedMeta mbuf.frame with dir := .forward } : PacketMeta).flowKey =
        mbuf.frame.flowKey := rfl
    have hlt : steerWorker hash mbuf.frame.flowKey nWorkers < nWorkers := Nat.mod_lt _ hn
    constructor <;> simp [hsteer, hparse, hkey, hlt]
  by_cases hself : mbuf.frame.dstAddr = cfg.selfIp
  · have hsteer : classifyForSteer hash cfg nWorkers mbuf.frame =
        .steer (mbuf.frame.dstPort.toNat % nWorkers) := by
      rw [classifyForSteer, if_neg harp, if_neg hip, if_neg hproto, if_neg hvip, if_pos hself]
    have hparse : classify cfg mbuf = ({ parsedMeta mbuf.frame with dir := .reverse }, .rev) := by
      rw [hclassify, classifyIpv4, if_neg hproto, if_neg hvip, if_pos hself]
    have hport : ({ parsedMeta mbuf.frame with dir := .reverse } : PacketMeta).dstPort =
        mbuf.frame.dstPort := rfl
    have hlt : mbuf.frame.dstPort.toNat % nWorkers < nWorkers := Nat.mod_lt _ hn
    constructor <;> simp [hsteer, hparse, hport, hlt]
  · refine steersAsParsed_of_drop ?_ ?_
    · rw [classifyForSteer, if_neg harp, if_neg hip, if_neg hproto, if_neg hvip, if_neg hself]
    · rw [hclassify, classifyIpv4, if_neg hproto, if_neg hvip, if_neg hself]

/-- For every worker and every enabled backend there is a key of the worker that selects the
backend. -/
def ReachesEveryBackend (hash : FlowKey → UInt32) (nWorkers : ℕ) (pool : BackendPool) : Prop :=
  ∀ w < nWorkers, ∀ b ∈ pool.active, ∃ key,
    steerWorker hash key nWorkers = w ∧ pool.select hash key = b

/-- Every pair of remainders is that of a number below `N` if and only if the moduli are coprime and
their product is at most `N`. -/
theorem forall_exists_mod_iff {n m N : ℕ} (hn : 0 < n) (hm : 0 < m) :
    (∀ w < n, ∀ j < m, ∃ h < N, h % n = w ∧ h % m = j) ↔ n.Coprime m ∧ n * m ≤ N := by
  constructor
  · intro hall
    have hcop : n.Coprime m := by
      by_contra hgcd
      have hdvdm : n.gcd m ∣ m := Nat.gcd_dvd_right n m
      have hgt : 1 < n.gcd m := lt_of_le_of_ne (Nat.gcd_pos_of_pos_left m hn) (Ne.symm hgcd)
      have hone : 1 < m := hgt.trans_le (Nat.le_of_dvd hm hdvdm)
      -- a multiple of `n` is one of the common divisor, and not congruent to one modulo `m`
      obtain ⟨h, -, hw, hj⟩ := hall 0 hn 1 hone
      have hdvd : n.gcd m ∣ h := (Nat.gcd_dvd_left n m).trans (Nat.dvd_of_mod_eq_zero hw)
      have hdvd1 : n.gcd m ∣ h % m := (Nat.dvd_mod_iff hdvdm).mpr hdvd
      rw [hj, Nat.dvd_one] at hdvd1
      omega
    refine ⟨hcop, ?_⟩
    obtain ⟨h, hlt, hw, hj⟩ := hall (n - 1) (by omega) (m - 1) (by omega)
    have hnext {k : ℕ} (hk : 0 < k) (hmod : h % k = k - 1) : k ∣ h + 1 := by
      have hsplit := Nat.div_add_mod h k
      exact ⟨h / k + 1, by rw [Nat.mul_succ]; omega⟩
    have hdvd : n * m ∣ h + 1 := hcop.mul_dvd_of_dvd_of_dvd (hnext hn hw) (hnext hm hj)
    exact (Nat.le_of_dvd (Nat.succ_pos h) hdvd).trans hlt
  · rintro ⟨hcop, hle⟩ w hw j hj
    have hboth := (Nat.chineseRemainder hcop w j).2
    refine ⟨Nat.chineseRemainder hcop w j,
      (Nat.chineseRemainder_lt_mul hcop w j hn.ne' hm.ne').trans_le hle, ?_, ?_⟩
    · exact (Nat.mod_eq_of_modEq hboth.1 hw)
    · exact (Nat.mod_eq_of_modEq hboth.2 hj)

/-- Two keys with different remainders select different slots. -/
theorem BackendPool.select_eq_iff (pool : BackendPool) (hash : FlowKey → UInt32) (key : FlowKey)
    {j : ℕ} (hj : j < pool.active.length) :
    pool.select hash key = pool.active[j] ↔ (hash key).toNat % pool.active.length = j := by
  have hlt : (hash key).toNat % pool.active.length < pool.active.length :=
    Nat.mod_lt _ (Nat.zero_lt_of_lt hj)
  rw [select, List.getD_eq_getElem _ _ hlt]
  exact pool.nodup_active.getElem_inj_iff

/-- If the hash takes every value, each worker can select each enabled backend if and only if the
numbers of workers and of enabled backends are coprime, and their product is at most `2 ^ 32`. -/
theorem reachesEveryBackend_iff (hsurj : Function.Surjective hash) (hn : 1 ≤ nWorkers)
    {pool : BackendPool} (hm : 1 ≤ pool.activeCount) :
    ReachesEveryBackend hash nWorkers pool ↔
      nWorkers.Coprime pool.activeCount ∧ nWorkers * pool.activeCount ≤ 2 ^ 32 := by
  rw [← forall_exists_mod_iff hn hm]
  constructor
  · intro hall w hw j hj
    obtain ⟨key, hkey, hsel⟩ := hall w hw _ (List.getElem_mem hj)
    exact ⟨(hash key).toNat, (hash key).toNat_lt, hkey, (pool.select_eq_iff hash key hj).mp hsel⟩
  · intro hall w hw b hb
    obtain ⟨j, hj, rfl⟩ := List.getElem_of_mem hb
    obtain ⟨h, hlt, hw', hj'⟩ := hall w hw j hj
    obtain ⟨key, hkey⟩ := hsurj (UInt32.ofNat h)
    have hvalue : (hash key).toNat = h := by
      rw [hkey, UInt32.toNat_ofNat_of_lt' hlt]
    refine ⟨key, ?_, (pool.select_eq_iff hash key hj).mpr ?_⟩
    · rw [steerWorker, hvalue, hw']
    · rw [hvalue]
      exact hj'

/-- Two backends, both enabled. -/
def twoBackends : BackendPool where
  slots := [{ ip := 0x0A000202, port := 8080 }, { ip := 0x0A000203, port := 8080 }]
  enabled := [1, 1]
  length_enabled := rfl
  length_slots_le := show 2 ≤ kMaxBackends by decide

/-- Three workers and two backends. -/
theorem reachesEveryBackend_three_workers :
    ReachesEveryBackend (FlowKey.hash .sse42) 3 twoBackends :=
  (reachesEveryBackend_iff FlowKey.hash_surjective (by decide) (by decide)).mpr
    ⟨by decide, by decide⟩

/-- Of two workers, each selects one of two backends only, whatever the hash. -/
theorem two_workers_two_backends :
    twoBackends.active = [0, 1] ∧ ∀ (hash : FlowKey → UInt32) (key : FlowKey),
      steerWorker hash key 2 = 0 → twoBackends.select hash key ≠ 1 := by
  have hactive : twoBackends.active = [0, 1] := rfl
  refine ⟨hactive, fun hash key hkey => ?_⟩
  have hmod : (hash key).toNat % 2 = 0 := hkey
  rw [BackendPool.select, hactive, List.length_cons, List.length_singleton, hmod]
  decide

end Cerebellum
