import Mathlib.Data.Multiset.Filter
import Mathlib.Data.FinEnum
import Mathlib.Tactic.Common

/-!
# The pool of source ports of one worker

`PortPool` (`lb/port_pool.hpp`) is a stack of free ports. `ForWorker` fills it with the ports of a
range that are congruent to the worker's number, `Acquire` takes the top of the stack and answers
`0` when there is none, `Release` puts a port back on top.

The list `free` has the top of the stack, the back of the source's vector, at its head.

## Main definitions

* `Cerebellum.PortPool`, with `forWorker`, `acquire`, `release`.
* `Cerebellum.portShare`: the ports that belong to a worker, as a set.

## Main results

* `Cerebellum.PortPool.coe_forWorker`: a fresh pool holds its worker's share, each port once.
-/

namespace Cerebellum

/-- `kEphemeralLow`. -/
def kEphemeralLow : ℕ := 1024

/-- `kEphemeralHigh`. -/
def kEphemeralHigh : ℕ := 65535

/-- A stack of free ports; the head of `free` is the back of the source's vector. The port `0` is
never in it, so that the answer `0` of `Acquire` means that the stack is empty. -/
@[ext] structure PortPool where
  free : List UInt16
  zero_notMem : (0 : UInt16) ∉ free
deriving DecidableEq

namespace PortPool

/-- The pool with no port, `PortPool{EmptyTag{}}`. -/
def empty : PortPool := ⟨[], List.not_mem_nil⟩

instance : Inhabited PortPool := ⟨empty⟩

/-- The loop of `ForWorker`, `for (port = high; port >= low; --port)`, on the port it is at. The
bound `low` is positive, so that the counter passes below it and the loop ends. -/
def fill (workerId nWorkers low : ℕ) : ℕ → List UInt16 → List UInt16
  | 0, free => free
  | port + 1, free =>
    if low ≤ port + 1 then
      fill workerId nWorkers low port
        (if (port + 1) % nWorkers = workerId then UInt16.ofNat (port + 1) :: free else free)
    else free

/-- The loop adds to the stack exactly the ports of the residue class between its bounds. -/
theorem mem_fill {workerId nWorkers low : ℕ} {top : ℕ} (htop : top ≤ kEphemeralHigh)
    {free : List UInt16} {port : UInt16} :
    port ∈ fill workerId nWorkers low top free ↔
      port ∈ free ∨ (port ≠ 0 ∧ low ≤ port.toNat ∧ port.toNat ≤ top ∧
        port.toNat % nWorkers = workerId) := by
  induction top generalizing free with
  | zero =>
    have : port ≠ 0 → ¬ port.toNat ≤ 0 := fun h h0 =>
      h (UInt16.toNat_inj.mp (by simpa using h0))
    simp only [fill]
    tauto
  | succ top ih =>
    have hlt : top + 1 < 65536 := by unfold kEphemeralHigh at htop; omega
    have htoNat : (UInt16.ofNat (top + 1)).toNat = top + 1 := UInt16.toNat_ofNat_of_lt' hlt
    have heq : port = UInt16.ofNat (top + 1) ↔ port.toNat = top + 1 := by
      rw [← UInt16.toNat_inj, htoNat]
    have hzero : port.toNat = top + 1 → port ≠ 0 := by
      rintro h rfl
      exact absurd h (by simp)
    rw [fill]
    split_ifs with hlow hres
    · rw [ih (by omega), List.mem_cons, heq]
      constructor
      · rintro ((h | h) | ⟨h0, h1, h2, h3⟩)
        · exact Or.inr ⟨hzero h, by omega, by omega, by rw [h]; exact hres⟩
        · exact Or.inl h
        · exact Or.inr ⟨h0, h1, by omega, h3⟩
      · rintro (h | ⟨h0, h1, h2, h3⟩)
        · exact Or.inl (Or.inr h)
        · by_cases h : port.toNat = top + 1
          · exact Or.inl (Or.inl h)
          · exact Or.inr ⟨h0, h1, by omega, h3⟩
    · rw [ih (by omega)]
      constructor
      · rintro (h | ⟨h0, h1, h2, h3⟩)
        · exact Or.inl h
        · exact Or.inr ⟨h0, h1, by omega, h3⟩
      · rintro (h | ⟨h0, h1, h2, h3⟩)
        · exact Or.inl h
        · have : port.toNat ≠ top + 1 := fun h => hres (h ▸ h3)
          exact Or.inr ⟨h0, h1, by omega, h3⟩
    · constructor
      · exact Or.inl
      · rintro (h | ⟨h0, h1, h2, h3⟩)
        · exact h
        · omega

/-- `PortPool::ForWorker` on the default range of ports. -/
def forWorker (workerId nWorkers : UInt16) : PortPool where
  free := fill workerId.toNat nWorkers.toNat kEphemeralLow kEphemeralHigh []
  zero_notMem h := ((mem_fill (Nat.le_refl kEphemeralHigh)).mp h).elim List.not_mem_nil
    fun h => h.1 rfl

/-- `PortPool::Acquire`: the top of the stack, or `0` when the stack is empty. -/
def acquire (pool : PortPool) : UInt16 × PortPool :=
  match pool with
  | ⟨[], h⟩ => (0, ⟨[], h⟩)
  | ⟨port :: free, h⟩ => (port, ⟨free, fun hmem => h (List.mem_cons_of_mem port hmem)⟩)

/-- `PortPool::Release`; every call of the source is made with a port that is not `0`. -/
def release (pool : PortPool) (port : UInt16) (h : port ≠ 0) : PortPool where
  free := port :: pool.free
  zero_notMem hmem := (List.mem_cons.mp hmem).elim (fun h0 => h h0.symm) pool.zero_notMem

theorem acquire_fst_eq_zero {pool : PortPool} : pool.acquire.1 = 0 ↔ pool.free = [] := by
  obtain ⟨free, hfree⟩ := pool
  cases free with
  | nil => exact iff_of_true rfl rfl
  | cons port free =>
    refine iff_of_false (fun h => hfree ?_) (by simp)
    exact List.mem_cons.mpr (Or.inl (Eq.symm h))

theorem acquire_of_nil {pool : PortPool} (h : pool.free = []) : pool.acquire = (0, pool) := by
  obtain ⟨free, hfree⟩ := pool
  obtain rfl : free = [] := h
  rfl

/-- Taking a port takes it off the top of the stack. -/
theorem free_eq_cons_acquire {pool : PortPool} (h : pool.acquire.1 ≠ 0) :
    pool.free = pool.acquire.1 :: pool.acquire.2.free := by
  obtain ⟨free, hfree⟩ := pool
  cases free with
  | nil => exact absurd rfl h
  | cons port free => rfl

/-- Giving a port back right after taking it restores the pool. -/
theorem acquire_release {pool : PortPool} (h : pool.acquire.1 ≠ 0) :
    pool.acquire.2.release pool.acquire.1 h = pool :=
  PortPool.ext (free_eq_cons_acquire h).symm

end PortPool

/-- The ports of the ephemeral range that belong to worker `workerId` out of `nWorkers`. -/
def portShare (workerId nWorkers : UInt16) : Finset UInt16 :=
  Finset.univ.filter fun port =>
    kEphemeralLow ≤ port.toNat ∧ port.toNat ≤ kEphemeralHigh ∧ port % nWorkers = workerId

theorem mem_portShare {workerId nWorkers port : UInt16} :
    port ∈ portShare workerId nWorkers ↔
      kEphemeralLow ≤ port.toNat ∧ port.toNat ≤ kEphemeralHigh ∧ port % nWorkers = workerId := by
  simp only [portShare, Finset.mem_filter, Finset.mem_univ, true_and]

namespace PortPool

/-- The loop pushes no port twice. -/
theorem nodup_fill {workerId nWorkers low : ℕ} {top : ℕ} (htop : top ≤ kEphemeralHigh)
    {free : List UInt16} (hfree : free.Nodup) (habove : ∀ port ∈ free, top < port.toNat) :
    (fill workerId nWorkers low top free).Nodup := by
  induction top generalizing free with
  | zero => exact hfree
  | succ top ih =>
    have hlt : top + 1 < 65536 := by unfold kEphemeralHigh at htop; omega
    have htoNat : (UInt16.ofNat (top + 1)).toNat = top + 1 := UInt16.toNat_ofNat_of_lt' hlt
    rw [fill]
    split_ifs
    · refine ih (by omega) (List.nodup_cons.mpr ⟨fun hmem => ?_, hfree⟩) fun port hport => ?_
      · have := habove _ hmem
        omega
      · rcases List.mem_cons.mp hport with rfl | hport
        · omega
        · exact Nat.lt_of_succ_lt (habove port hport)
    · exact ih (by omega) hfree fun port hport => Nat.lt_of_succ_lt (habove port hport)
    · exact hfree

/-- With a single worker the loop pushes every port of the range. -/
theorem length_fill_one {low top : ℕ} {free : List UInt16} (h : low ≤ top + 1) (hlow : 0 < low) :
    (fill 0 1 low top free).length = free.length + (top + 1 - low) := by
  induction top generalizing free with
  | zero =>
    have : 0 + 1 - low = 0 := by omega
    rw [fill, this, Nat.add_zero]
  | succ top ih =>
    rw [fill]
    split_ifs with hle hres
    · rw [ih (by omega), List.length_cons]
      omega
    · exact absurd (Nat.mod_one _) hres
    · have : top + 1 + 1 - low = 0 := by omega
      rw [this, Nat.add_zero]

theorem length_forWorker_zero_one : (forWorker 0 1).free.length = 64512 := by
  simp only [forWorker]
  exact length_fill_one (show kEphemeralLow ≤ kEphemeralHigh + 1 by decide) (by decide)

theorem fill_of_lt {workerId nWorkers low top : ℕ} (h : top < low) (free : List UInt16) :
    fill workerId nWorkers low top free = free := by
  cases top with
  | zero => rfl
  | succ top => rw [fill, if_neg (Nat.not_le.mpr h)]

/-- The loop runs downwards, so that the lowest port is the first one to be taken. -/
theorem head?_fill_one {low top : ℕ} (h : low ≤ top) (hlow : 0 < low) (free : List UInt16) :
    (fill 0 1 low top free).head? = some (UInt16.ofNat low) := by
  induction top generalizing free with
  | zero => omega
  | succ top ih =>
    rw [fill, if_pos h, if_pos (Nat.mod_one _)]
    rcases Nat.le_or_eq_of_le_succ h with hle | rfl
    · exact ih hle _
    · rw [fill_of_lt (Nat.lt_succ_self top), List.head?_cons]

theorem acquire_forWorker_zero_one : (forWorker 0 1).acquire.1 = 1024 := by
  have hhead : (forWorker 0 1).free.head? = some 1024 := by
    simp only [forWorker]
    exact head?_fill_one (show kEphemeralLow ≤ kEphemeralHigh by decide) (by decide) []
  generalize forWorker 0 1 = pool at hhead ⊢
  obtain ⟨_ | ⟨port, free⟩, hfree⟩ := pool
  · cases hhead
  · exact Option.some.inj hhead

/-- A fresh pool holds the share of its worker, each port once. -/
theorem coe_forWorker (workerId nWorkers : UInt16) :
    ((forWorker workerId nWorkers).free : Multiset UInt16) = (portShare workerId nWorkers).val := by
  have hnodup : (forWorker workerId nWorkers).free.Nodup := by
    simp only [forWorker]
    exact nodup_fill (Nat.le_refl kEphemeralHigh) List.nodup_nil fun _ h =>
      absurd h List.not_mem_nil
  refine (Multiset.Nodup.ext (Multiset.coe_nodup.mpr hnodup)
    (portShare workerId nWorkers).nodup).mpr fun port => ?_
  have hmod : port % nWorkers = workerId ↔ port.toNat % nWorkers.toNat = workerId.toNat := by
    rw [← UInt16.toNat_inj, UInt16.toNat_mod]
  have hne : kEphemeralLow ≤ port.toNat → port ≠ 0 := by
    rintro h rfl
    exact absurd h (by decide)
  rw [Multiset.mem_coe, forWorker, mem_fill le_rfl, Finset.mem_val, mem_portShare, hmod]
  simp only [List.not_mem_nil, false_or]
  exact ⟨fun h => h.2, fun h => ⟨hne h.1, h⟩⟩

end PortPool

end Cerebellum
