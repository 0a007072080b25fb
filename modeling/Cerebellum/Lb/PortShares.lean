import Cerebellum.Lb.PortPool
import Cerebellum.Lib.CheckedLoop
import Mathlib.Algebra.Ring.Nat

/-!
# The shares of the workers

`PortPool::ForWorker` (`lb/port_pool.hpp`) runs a counter of 32 bits down from the last port of a
range to the first one. Here the loop is translated with that counter, for every range. It ends
because the range starts at a positive port: the counter of a range that starts at `0` wraps around
and never passes below it.

The pools of all workers split the range by the residue of the port, and `Acquire` hands out what
is in them.

## Main definitions

* `Cerebellum.PortPool.forWorker?`: `ForWorker` with its counter.
* `Cerebellum.PortPool.MadeForWorker`: the pools that `ForWorker` returns.
* `Cerebellum.PortPool.Partitions`: pools that split a range by the residue of the port.

## Main results

* `Cerebellum.PortPool.forWorker?_isSome_iff`: the loop ends unless the range starts at `0`.
* `Cerebellum.PortPool.madeForWorker_forWorker`: `forWorker` is what the loop makes of the default
  range.
* `Cerebellum.PortPool.shares_partition_the_range`: the pools of the workers split every range.
-/

open CheckedLoop

namespace Cerebellum

namespace PortPool

/-- The state of the loop of `ForWorker`: its counter and the stack. -/
structure Sweep where
  port : UInt32
  free : List UInt16 := []

/-- The body of the loop of `ForWorker`, with the step of its counter. -/
def offer (workerId nWorkers : UInt16) (s : Sweep) : Sweep where
  port := s.port - 1
  free :=
    if s.port % nWorkers.toUInt32 = workerId.toUInt32 then s.port.toUInt16 :: s.free else s.free

/-- `ForWorker`, for less than the given number of rounds of its loop. There is no remainder for
`0` workers, and no vector of a negative capacity. -/
def forWorker? (rounds : ℕ) (workerId nWorkers low high : UInt16) : Option (List UInt16) :=
  if nWorkers = 0 ∨ high < low then none
  else (loop? (fun s => low.toUInt32 ≤ s.port) (some ∘ offer workerId nWorkers) rounds
    { port := high.toUInt32 }).map Sweep.free

/-- `ForWorker` ends and returns the pool. -/
def MadeForWorker (workerId nWorkers low high : UInt16) (pool : PortPool) : Prop :=
  ∃ rounds, forWorker? rounds workerId nWorkers low high = some pool.free

/-- `PortPool::Available`. -/
def available (pool : PortPool) : ℕ := pool.free.length

/-- The answers of `n` calls of `Acquire`, and the pool after them. -/
def acquires (pool : PortPool) : ℕ → List UInt16 × PortPool
  | 0 => ([], pool)
  | n + 1 => (pool.acquire.1 :: (pool.acquire.2.acquires n).1, (pool.acquire.2.acquires n).2)

/-- Pools that split the range between `low` and `high` by the residue of the port. -/
structure Partitions (nWorkers low high : UInt16) (pools : UInt16 → PortPool) : Prop where
  /-- No pool has a port twice. -/
  nodup : ∀ w < nWorkers, (pools w).free.Nodup
  /-- A port is in the pool of its residue. -/
  residue : ∀ w < nWorkers, ∀ port ∈ (pools w).free, port % nWorkers = w
  /-- No two pools share a port. -/
  disjoint : ∀ v < nWorkers, ∀ w < nWorkers, v ≠ w → (pools v).free.Disjoint (pools w).free
  /-- The pools hold the ports of the range and no others. -/
  mem_iff : ∀ port, (∃ w < nWorkers, port ∈ (pools w).free) ↔ low ≤ port ∧ port ≤ high
  /-- Over all pools, each port of the range is there once. -/
  once : ∀ port, low ≤ port → port ≤ high →
    ((List.range nWorkers.toNat).map fun w => (pools (UInt16.ofNat w)).free.count port).sum = 1

/-- Calls of `Acquire` hand out what is in the pool, from the top, and `0` from then on. -/
def HandsOut (pool : PortPool) : Prop :=
  ∀ n, (pool.acquires (pool.available + n)).1 = pool.free ++ List.replicate n 0

variable {workerId nWorkers low high : UInt16} {rounds : ℕ} {pool : PortPool}

/-! ### The loop -/

theorem toUInt16_eq_ofNat (port : UInt32) : port.toUInt16 = UInt16.ofNat port.toNat := rfl

theorem mod_toUInt32_eq_iff (port : UInt32) :
    port % nWorkers.toUInt32 = workerId.toUInt32 ↔
      port.toNat % nWorkers.toNat = workerId.toNat := by
  rw [← UInt32.toNat_inj, UInt32.toNat_mod, UInt16.toNat_toUInt32, UInt16.toNat_toUInt32]

/-- The counter of a range of positive ports goes down by one, without wrapping around. -/
theorem toNat_port_offer {s : Sweep} (hlow : 0 < low) (hport : low.toUInt32 ≤ s.port) :
    s.port.toNat = (offer workerId nWorkers s).port.toNat + 1 := by
  rw [UInt16.lt_iff_toNat_lt] at hlow
  rw [UInt32.le_iff_toNat_le, UInt16.toNat_toUInt32] at hport
  have hpos : 0 < s.port.toNat := Nat.lt_of_lt_of_le hlow hport
  have hone : (1 : UInt32) ≤ s.port := UInt32.le_iff_toNat_le.mpr hpos
  simp only [offer]
  rw [UInt32.toNat_sub_of_le _ _ hone]
  exact (Nat.sub_add_cancel hpos).symm

/-- A round of the loop does one round of `fill`. -/
theorem fill_offer {s : Sweep} (hlow : 0 < low) (hport : low.toUInt32 ≤ s.port) :
    fill workerId.toNat nWorkers.toNat low.toNat s.port.toNat s.free =
      fill workerId.toNat nWorkers.toNat low.toNat (offer workerId nWorkers s).port.toNat
        (offer workerId nWorkers s).free := by
  have hnext : s.port.toNat = (offer workerId nWorkers s).port.toNat + 1 :=
    toNat_port_offer hlow hport
  rw [UInt32.le_iff_toNat_le, UInt16.toNat_toUInt32, hnext] at hport
  conv_lhs => rw [hnext, fill, if_pos hport, ← hnext]
  simp only [offer, mod_toUInt32_eq_iff, toUInt16_eq_ofNat]

/-- `ForWorker` ends after one round for each port of a range that starts at a positive one. -/
theorem forWorker?_eq (hn : nWorkers ≠ 0) (hlow : 0 < low) (hle : low ≤ high)
    (hrounds : high.toNat < rounds) :
    forWorker? rounds workerId nWorkers low high =
      some (fill workerId.toNat nWorkers.toNat low.toNat high.toNat []) := by
  have hloop := loop?_spec (fun s : Sweep => low.toUInt32 ≤ s.port)
    (some ∘ offer workerId nWorkers)
    (fun s => fill workerId.toNat nWorkers.toNat low.toNat s.port.toNat s.free =
      fill workerId.toNat nWorkers.toNat low.toNat high.toNat [])
    (fun s => s.port.toNat) ?_ (s := { port := high.toUInt32 }) ?_
    (show high.toUInt32.toNat < rounds from by rw [UInt16.toNat_toUInt32]; exact hrounds)
  · obtain ⟨s, hs, hfill, hcond⟩ := hloop
    have hlt : ¬ low.toUInt32 ≤ s.port := of_decide_eq_false hcond
    rw [UInt32.le_iff_toNat_le, UInt16.toNat_toUInt32, Nat.not_le] at hlt
    rw [forWorker?, if_neg (not_or.mpr ⟨hn, UInt16.not_lt.mpr hle⟩), hs, Option.map_some,
      ← hfill, fill_of_lt hlt]
  · intro s hfill hcond
    have hport : low.toUInt32 ≤ s.port := of_decide_eq_true hcond
    refine ⟨offer workerId nWorkers s, rfl, (fill_offer hlow hport).symm.trans hfill, ?_⟩
    rw [toNat_port_offer hlow hport]
    exact Nat.lt_succ_self _
  · rw [UInt16.toNat_toUInt32]

/-- `ForWorker` ends if and only if the range starts at a positive port: from `0` on, every value
of the counter is in the range. -/
theorem forWorker?_isSome_iff (hn : nWorkers ≠ 0) (hle : low ≤ high) :
    (∃ rounds free, forWorker? rounds workerId nWorkers low high = some free) ↔ 0 < low := by
  constructor
  · rintro ⟨rounds, free, hfree⟩
    by_contra hlow
    obtain rfl : low = 0 := UInt16.le_zero_iff.mp (UInt16.not_lt.mp hlow)
    have hcond : ∀ s : Sweep, decide ((0 : UInt16).toUInt32 ≤ s.port) = true := fun s =>
      decide_eq_true (UInt32.zero_le)
    rw [forWorker?, if_neg (not_or.mpr ⟨hn, UInt16.not_lt.mpr hle⟩),
      loop?_eq_none hcond] at hfree
    cases hfree
  · intro hlow
    exact ⟨high.toNat + 1, _, forWorker?_eq hn hlow hle (Nat.lt_succ_self _)⟩

theorem madeForWorker_iff (hn : nWorkers ≠ 0) (hlow : 0 < low) (hle : low ≤ high) :
    MadeForWorker workerId nWorkers low high pool ↔
      pool.free = fill workerId.toNat nWorkers.toNat low.toNat high.toNat [] := by
  have hends : forWorker? (high.toNat + 1) workerId nWorkers low high = _ :=
    forWorker?_eq hn hlow hle (Nat.lt_succ_self _)
  constructor
  · rintro ⟨rounds, hfree⟩
    rw [forWorker?, if_neg (not_or.mpr ⟨hn, UInt16.not_lt.mpr hle⟩), Option.map_eq_some_iff]
      at hfree hends
    obtain ⟨s, hs, hsfree⟩ := hfree
    obtain ⟨t, ht, htfree⟩ := hends
    rw [← hsfree, ← htfree, loop?_unique hs ht]
  · intro hfree
    exact ⟨high.toNat + 1, by rw [hends, hfree]⟩

/-- On the default range `ForWorker` makes the pool `forWorker`. -/
theorem madeForWorker_forWorker (workerId : UInt16) (hn : nWorkers ≠ 0) :
    MadeForWorker workerId nWorkers (UInt16.ofNat kEphemeralLow) (UInt16.ofNat kEphemeralHigh)
      (forWorker workerId nWorkers) := by
  have hlow : (UInt16.ofNat kEphemeralLow).toNat = kEphemeralLow := by decide
  have hhigh : (UInt16.ofNat kEphemeralHigh).toNat = kEphemeralHigh := by decide
  rw [madeForWorker_iff hn (by decide) (by decide), hlow, hhigh, forWorker]

/-! ### The pools of all workers -/

theorem mem_of_madeForWorker (hn : nWorkers ≠ 0) (hlow : 0 < low) (hle : low ≤ high)
    (hpool : MadeForWorker workerId nWorkers low high pool) {port : UInt16} :
    port ∈ pool.free ↔ low ≤ port ∧ port ≤ high ∧ port % nWorkers = workerId := by
  have hmod : port % nWorkers = workerId ↔ port.toNat % nWorkers.toNat = workerId.toNat := by
    rw [← UInt16.toNat_inj, UInt16.toNat_mod]
  have hne : low ≤ port → port ≠ 0 := by
    rintro h rfl
    exact absurd hlow (UInt16.not_lt.mpr h)
  rw [(madeForWorker_iff hn hlow hle).mp hpool,
    mem_fill (show high.toNat ≤ kEphemeralHigh from Nat.le_of_lt_succ high.toNat_lt), hmod,
    UInt16.le_iff_toNat_le (a := low), UInt16.le_iff_toNat_le (a := port)]
  simp only [List.not_mem_nil, false_or]
  exact ⟨fun h => h.2, fun h => ⟨hne (UInt16.le_iff_toNat_le.mpr h.1), h⟩⟩

theorem nodup_of_madeForWorker (hn : nWorkers ≠ 0) (hlow : 0 < low) (hle : low ≤ high)
    (hpool : MadeForWorker workerId nWorkers low high pool) : pool.free.Nodup := by
  rw [(madeForWorker_iff hn hlow hle).mp hpool]
  exact nodup_fill (Nat.le_of_lt_succ high.toNat_lt) List.nodup_nil fun _ h =>
    absurd h List.not_mem_nil

/-- When no pool has a port twice and no two pools share one, a port that is in a pool is there
once over all pools. -/
theorem sum_count_eq_one {pools : UInt16 → PortPool} {port : UInt16}
    (hnodup : ∀ w < nWorkers, (pools w).free.Nodup)
    (hdisjoint : ∀ v < nWorkers, ∀ w < nWorkers, v ≠ w →
      (pools v).free.Disjoint (pools w).free)
    (hport : ∃ w < nWorkers, port ∈ (pools w).free) :
    ((List.range nWorkers.toNat).map fun w =>
      (pools (UInt16.ofNat w)).free.count port).sum = 1 := by
  have htoNat : ∀ w ∈ List.range nWorkers.toNat, (UInt16.ofNat w).toNat = w := fun w hw =>
    UInt16.toNat_ofNat_of_lt' (Nat.lt_trans (List.mem_range.mp hw) nWorkers.toNat_lt)
  have hlt : ∀ w ∈ List.range nWorkers.toNat, UInt16.ofNat w < nWorkers := fun w hw => by
    rw [UInt16.lt_iff_toNat_lt, htoNat w hw]
    exact List.mem_range.mp hw
  have hall :
      ((List.range nWorkers.toNat).flatMap fun w => (pools (UInt16.ofNat w)).free).Nodup := by
    refine List.nodup_flatMap.mpr ⟨fun w hw => hnodup _ (hlt w hw), ?_⟩
    refine List.nodup_range.imp_of_mem fun {v w} hv hw hne => ?_
    refine hdisjoint _ (hlt v hv) _ (hlt w hw) fun heq => hne ?_
    rw [← htoNat v hv, ← htoNat w hw, heq]
  obtain ⟨w, hw, hport⟩ := hport
  rw [← Function.comp_def (List.count port), ← List.count_flatMap]
  refine List.count_eq_one_of_mem hall (List.mem_flatMap.mpr ⟨w.toNat, ?_, ?_⟩)
  · exact List.mem_range.mpr (UInt16.lt_iff_toNat_lt.mp hw)
  · rw [UInt16.ofNat_toNat]
    exact hport

theorem partitions_of_madeForWorker (hn : nWorkers ≠ 0) (hlow : 0 < low) (hle : low ≤ high)
    {pools : UInt16 → PortPool}
    (hpools : ∀ w < nWorkers, MadeForWorker w nWorkers low high (pools w)) :
    Partitions nWorkers low high pools := by
  have hmem : ∀ w < nWorkers, ∀ port : UInt16,
      port ∈ (pools w).free ↔ low ≤ port ∧ port ≤ high ∧ port % nWorkers = w := fun w hw port =>
    mem_of_madeForWorker hn hlow hle (hpools w hw)
  have hnodup : ∀ w < nWorkers, (pools w).free.Nodup := fun w hw =>
    nodup_of_madeForWorker hn hlow hle (hpools w hw)
  have hdisjoint : ∀ v < nWorkers, ∀ w < nWorkers, v ≠ w →
      (pools v).free.Disjoint (pools w).free := fun v hv w hw hne port hportv hportw =>
    hne (((hmem v hv port).mp hportv).2.2.symm.trans ((hmem w hw port).mp hportw).2.2)
  have hmod : ∀ port : UInt16, port % nWorkers < nWorkers := fun port =>
    UInt16.mod_lt port (UInt16.pos_iff_ne_zero.mpr hn)
  have hmem_iff : ∀ port,
      (∃ w < nWorkers, port ∈ (pools w).free) ↔ low ≤ port ∧ port ≤ high := fun port =>
    ⟨fun ⟨w, hw, hport⟩ => ⟨((hmem w hw port).mp hport).1, ((hmem w hw port).mp hport).2.1⟩,
      fun ⟨hl, hh⟩ => ⟨_, hmod port, (hmem _ (hmod port) port).mpr ⟨hl, hh, rfl⟩⟩⟩
  exact {
    nodup := hnodup
    residue := fun w hw port hport => ((hmem w hw port).mp hport).2.2
    disjoint := hdisjoint
    mem_iff := hmem_iff
    once := fun port hl hh => sum_count_eq_one hnodup hdisjoint ((hmem_iff port).mpr ⟨hl, hh⟩) }

/-! ### Draining a pool -/

theorem acquires_add_one (pool : PortPool) (n : ℕ) :
    (pool.acquires (n + 1)).1 = pool.acquire.1 :: (pool.acquire.2.acquires n).1 := rfl

theorem acquires_of_nil (h : pool.free = []) (n : ℕ) :
    (pool.acquires n).1 = List.replicate n 0 := by
  induction n with
  | zero => rfl
  | succ n ih => rw [acquires_add_one, acquire_of_nil h, ih, List.replicate_succ]

theorem handsOut (pool : PortPool) : HandsOut pool := by
  intro n
  obtain ⟨free, hfree⟩ := pool
  induction free with
  | nil => rw [acquires_of_nil rfl, available, List.length_nil, Nat.zero_add, List.nil_append]
  | cons port free ih =>
    rw [available, List.length_cons, Nat.add_right_comm, acquires_add_one]
    exact congrArg (port :: ·) (ih fun hmem => hfree (List.mem_cons_of_mem port hmem))

/-! ### The shares -/

/-- For every number of workers and every range of positive ports, `ForWorker` ends for each worker,
and the pools it returns split the range: no pool has a port twice, the ports of a pool have the
worker's number as their residue, no two pools share a port, and each port of the range is there
once. Calls of `Acquire` hand out what is in a pool and then `0`. -/
theorem shares_partition_the_range (nWorkers low high : UInt16) (hn : 1 ≤ nWorkers)
    (hlow : 1 ≤ low) (hle : low ≤ high) :
    (∀ w < nWorkers, ∃ pool, MadeForWorker w nWorkers low high pool) ∧
      ∀ pools : UInt16 → PortPool,
        (∀ w < nWorkers, MadeForWorker w nWorkers low high (pools w)) →
        Partitions nWorkers low high pools ∧ ∀ w < nWorkers, HandsOut (pools w) := by
  have hlow' : 0 < low := UInt16.lt_of_lt_of_le (by decide) hlow
  have hn' : nWorkers ≠ 0 := UInt16.pos_iff_ne_zero.mp (UInt16.lt_of_lt_of_le (by decide) hn)
  refine ⟨fun w _ => ?_, fun pools hpools => ?_⟩
  · have hzero : (0 : UInt16) ∉ fill w.toNat nWorkers.toNat low.toNat high.toNat [] := fun h =>
      ((mem_fill (Nat.le_of_lt_succ high.toNat_lt)).mp h).elim List.not_mem_nil fun h => h.1 rfl
    exact ⟨⟨_, hzero⟩, (madeForWorker_iff hn' hlow' hle).mpr rfl⟩
  · exact ⟨partitions_of_madeForWorker hn' hlow' hle hpools, fun w _ => handsOut (pools w)⟩

theorem shares_partition_four_workers :
    (∀ w < (4 : UInt16), ∃ pool, MadeForWorker w 4 1024 2047 pool) ∧
      ∀ pools : UInt16 → PortPool, (∀ w < (4 : UInt16), MadeForWorker w 4 1024 2047 (pools w)) →
        Partitions 4 1024 2047 pools ∧ ∀ w < (4 : UInt16), HandsOut (pools w) :=
  shares_partition_the_range 4 1024 2047 (by decide) (by decide) (by decide)

end PortPool

end Cerebellum
