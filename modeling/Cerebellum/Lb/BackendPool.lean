import Cerebellum.Net.FlowKey
import Mathlib.Data.List.GetD

/-!
# The backend pool

`BackendPool` (`lb/backend_pool.hpp`) keeps every backend in a fixed slot and lists the slots that
are enabled. New flows pick one of the enabled slots by the hash of their key; the slot number is
what the conntrack table remembers. A pool is only ever built from the control view, which has
room for `kMaxBackends` entries, so the bound on the number of slots is part of the structure.

## Main definitions

* `Cerebellum.BackendInfo`, `Cerebellum.BackendPool`.
* `Cerebellum.BackendPool.active`, `Cerebellum.BackendPool.select`, `Cerebellum.BackendPool.getAt`.

## Main results

* `Cerebellum.BackendPool.mem_active`: the enabled slots, each below the number of slots.
* `Cerebellum.BackendPool.pairwise_active`: they are listed in increasing order.
* `Cerebellum.BackendPool.select_mem_active`: `Select` picks an enabled slot.
-/

namespace Cerebellum

/-- `ipc::kMaxBackends`. -/
def kMaxBackends : ℕ := 64

/-- What the data plane keeps of a backend (`probe_port` is read by the health checker only). -/
structure BackendInfo where
  ip : UInt32 := 0
  mac : MacAddr := {}
  port : UInt16 := 0
deriving DecidableEq, Inhabited

/-- The backends, slot by slot, with the enabled flag that was published for each. -/
structure BackendPool where
  slots : List BackendInfo
  enabled : List UInt8
  length_enabled : enabled.length = slots.length
  length_slots_le : slots.length ≤ kMaxBackends

namespace BackendPool

variable (pool : BackendPool)

/-- The slots whose enabled flag is not zero, in increasing order. -/
def active : List UInt8 :=
  ((List.range pool.slots.length).filter fun i => pool.enabled.getD i 0 ≠ 0).map UInt8.ofNat

/-- `BackendPool::ActiveCount`. -/
def activeCount : ℕ := pool.active.length

/-- `BackendPool::Select`: the enabled slot at the remainder of the key's hash. -/
def select (hash : FlowKey → UInt32) (key : FlowKey) : UInt8 :=
  pool.active.getD ((hash key).toNat % pool.active.length) 0

/-- `BackendPool::At`. -/
def getAt (idx : UInt8) : BackendInfo := pool.slots.getD idx.toNat {}

variable {pool}

/-- The number of a slot fits into its eight bits. -/
theorem toNat_ofNat_of_lt {i : ℕ} (h : i < pool.slots.length) : (UInt8.ofNat i).toNat = i := by
  have hmax := pool.length_slots_le
  unfold kMaxBackends at hmax
  exact UInt8.toNat_ofNat_of_lt' (show i < 256 by omega)

theorem mem_active {idx : UInt8} :
    idx ∈ pool.active ↔
      idx.toNat < pool.slots.length ∧ pool.enabled.getD idx.toNat 0 ≠ 0 := by
  simp only [active, List.mem_map, List.mem_filter, List.mem_range, decide_eq_true_eq]
  constructor
  · rintro ⟨i, ⟨hi, hen⟩, rfl⟩
    rw [toNat_ofNat_of_lt hi]
    exact ⟨hi, hen⟩
  · rintro ⟨hi, hen⟩
    exact ⟨idx.toNat, ⟨hi, hen⟩, UInt8.ofNat_toNat⟩

/-- The enabled slots are listed in increasing order. -/
theorem pairwise_active (pool : BackendPool) : pool.active.Pairwise (· < ·) := by
  refine List.pairwise_map.mpr ?_
  refine (List.pairwise_lt_range.filter _).imp_of_mem fun {i j} hi hj hlt => ?_
  have hi' := List.mem_range.mp (List.mem_filter.mp hi).1
  have hj' := List.mem_range.mp (List.mem_filter.mp hj).1
  rw [UInt8.lt_iff_toNat_lt, toNat_ofNat_of_lt hi', toNat_ofNat_of_lt hj']
  exact hlt

/-- No slot is listed twice. -/
theorem nodup_active (pool : BackendPool) : pool.active.Nodup :=
  pool.pairwise_active.imp UInt8.ne_of_lt

/-- `Select` picks an enabled slot of a pool that has one. -/
theorem select_mem_active (hash : FlowKey → UInt32) (key : FlowKey) (h : pool.activeCount ≠ 0) :
    pool.select hash key ∈ pool.active := by
  have hlt : (hash key).toNat % pool.active.length < pool.active.length :=
    Nat.mod_lt _ (Nat.pos_of_ne_zero h)
  rw [select, List.getD_eq_getElem _ _ hlt]
  exact List.getElem_mem hlt

/-- The slot picked by `Select` is a slot of the pool. -/
theorem select_lt (hash : FlowKey → UInt32) (key : FlowKey) (h : pool.activeCount ≠ 0) :
    (pool.select hash key).toNat < pool.slots.length :=
  (mem_active.mp (select_mem_active hash key h)).1

theorem length_singleton_le (backend : BackendInfo) : [backend].length ≤ kMaxBackends :=
  show 1 ≤ kMaxBackends by decide

/-- The pool with a single backend, enabled. -/
def single (backend : BackendInfo) : BackendPool where
  slots := [backend]
  enabled := [1]
  length_enabled := rfl
  length_slots_le := length_singleton_le backend

theorem select_single (backend : BackendInfo) (hash : FlowKey → UInt32) (key : FlowKey) :
    (single backend).select hash key = 0 := by
  have hactive : (single backend).active = [0] := rfl
  simp only [select, hactive, List.length_singleton, Nat.mod_one, List.getD_cons_zero]

theorem length_pair_le (other backend : BackendInfo) : [other, backend].length ≤ kMaxBackends :=
  show 2 ≤ kMaxBackends by decide

/-- The pool with two backends, of which the second one is enabled. -/
def second (other backend : BackendInfo) : BackendPool where
  slots := [other, backend]
  enabled := [0, 1]
  length_enabled := rfl
  length_slots_le := length_pair_le other backend

theorem select_second (other backend : BackendInfo) (hash : FlowKey → UInt32) (key : FlowKey) :
    (second other backend).select hash key = 1 := by
  have hactive : (second other backend).active = [1] := rfl
  simp only [select, hactive, List.length_singleton, Nat.mod_one, List.getD_cons_zero]

end BackendPool

end Cerebellum
