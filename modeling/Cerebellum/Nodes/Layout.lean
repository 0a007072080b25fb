import Cerebellum.Lb.PortPool
import Cerebellum.Nodes.GraphNodes
import Cerebellum.Stats.StatsAggregator

/-!
# The layout of the data plane

`RunDataplane` (`main.cpp`) decides from the number of lcores what each of them does. One lcore
besides the main one runs everything; of several, the first is the IO core and the others are
workers, with a ring to each worker and one ring back. What an lcore needs to know is handed to it
in an `LcoreArg`: its slot of counters, its number among the workers and its rings.

A ring is given by its number in the order of creation, and whether `rte_ring_create` returns one is
a parameter, as is the port that `DpdkPort` opens. The segments of shared memory and the first pool,
which come before all this, are left out.

## Main definitions

* `Cerebellum.RingSpec`, `Cerebellum.RingSpec.create`: the rings, and `io::Ring`.
* `Cerebellum.LcoreArg`: `LcoreArg`, with the rings that its nodes reach through it.
* `Cerebellum.runDataplane`: `RunDataplane`, from the number of lcores on.
* `Cerebellum.Layout.mono`, `Cerebellum.Layout.distributor`: the two layouts.

## Main results

* `Cerebellum.runDataplane_eq_ok_iff`: which of the two layouts is launched, and when.
* `Cerebellum.Layout.existsUnique_share`: every source port belongs to one lcore.
-/

namespace Cerebellum

/-- `kRingSize`. -/
def kRingSize : ℕ := 1024

/-- `kEgressRingSize`. -/
def kEgressRingSize : ℕ := 2048

/-- The arguments of `rte_ring_create`; the flags are `RING_F_SP_ENQ` and `RING_F_SC_DEQ`, for a
single producer and a single consumer. -/
structure RingSpec where
  name : String
  count : ℕ
  spEnq : Bool := false
  scDeq : Bool := false
deriving DecidableEq

/-- The constructor of `io::Ring`, with the rings created so far: the new ring and all rings. -/
def RingSpec.create (created : RingSpec → Bool) (spec : RingSpec) (rings : List RingSpec) :
    Except String (ℕ × List RingSpec) :=
  if created spec then .ok (rings.length, rings ++ [spec])
  else .error ("rte_ring_create failed: " ++ spec.name)

/-- `Role`. -/
inductive Role
  | mono
  | io
  | worker
deriving DecidableEq

/-- `LcoreArg`, with the slot of counters and the rings by their numbers. The configuration and the
published pool are the same for all lcores. -/
structure LcoreArg where
  role : Role := .mono
  portId : UInt16
  workerId : UInt16 := 0
  nWorkers : UInt32
  stats : ℕ
  workerRings : List ℕ := []
  ingress : Option ℕ := none
  egress : Option ℕ := none
deriving DecidableEq

/-- The rings that were created, and the arguments of the lcores. -/
structure Layout where
  rings : List RingSpec := []
  args : List LcoreArg
deriving DecidableEq

namespace LcoreArg

variable (arg : LcoreArg)

/-- The ring that the nodes of an lcore enqueue on: `worker_rings[w]` or `egress`. -/
def ringOf : Ring → Option ℕ
  | .worker w => arg.workerRings[w]?
  | .egress => arg.egress

/-- The ring that the nodes of an lcore dequeue from: `egress` in `BuildTxGraph`, `ingress` in
`BuildWorkerGraph`. -/
def source : Option ℕ :=
  match arg.role with
  | .mono => none
  | .io => arg.egress
  | .worker => arg.ingress

/-- The source ports of the `LbNode` of an lcore, by the numbers that its constructor is given in
`BuildMonolithicGraph` and `BuildWorkerGraph`. -/
def share : Finset UInt16 :=
  match arg.role with
  | .mono => portShare 0 1
  | .io => ∅
  | .worker => portShare arg.workerId arg.nWorkers.toUInt16

end LcoreArg

/-! ### `RunDataplane` -/

/-- The ring to worker `i`. -/
def ingressSpec (i : ℕ) : RingSpec :=
  { name := "cere_ingress_" ++ toString i, count := kRingSize, spEnq := true, scDeq := true }

/-- The ring back to the IO core. -/
def egressSpec : RingSpec := { name := "cere_egress", count := kEgressRingSize, scDeq := true }

section RunDataplane

variable (created : RingSpec → Bool)

/-- The loop that creates the rings to the workers: all rings, and `worker_rings`. -/
def createIngress : ℕ → Except String (List RingSpec × List ℕ)
  | 0 => .ok ([], [])
  | i + 1 => do
    let (rings, workerRings) ← createIngress i
    let (ring, rings) ← (ingressSpec i).create created rings
    .ok (rings, workerRings ++ [ring])

/-- The body of the loop over the lcores, for the one with index `idx`. -/
def lcoreArg (portId : UInt16) (distributor : Bool) (nWorkers : UInt32) (workerRings : List ℕ)
    (egress : Option ℕ) (idx : ℕ) (workerId : UInt16) : LcoreArg :=
  let arg : LcoreArg := { portId := portId, nWorkers := nWorkers, stats := idx }
  if !distributor then { arg with role := .mono }
  else
    let arg := { arg with workerRings := workerRings, egress := egress }
    if idx = 0 then { arg with role := .io }
    else
      { arg with
        role := .worker
        workerId := workerId
        ingress := workerRings[workerId.toNat]? }

/-- The loop over the lcores that are left; `worker_id` counts the workers. -/
def lcoreArgs (portId : UInt16) (distributor : Bool) (nWorkers : UInt32) (workerRings : List ℕ)
    (egress : Option ℕ) : ℕ → ℕ → UInt16 → List LcoreArg
  | 0, _, _ => []
  | lcores + 1, idx, workerId =>
    let arg := lcoreArg portId distributor nWorkers workerRings egress idx workerId
    arg :: lcoreArgs portId distributor nWorkers workerRings egress lcores (idx + 1)
      (if arg.role = .worker then workerId + 1 else workerId)

/-- `RunDataplane`, from `total` on; an error is the text of the exception. -/
def runDataplane (port : Except String UInt16) (lcoreCount : UInt32) : Except String Layout := do
  let total := lcoreCount - 1
  if total < 1 then .error "need >= 2 lcores: main + worker"
  else if UInt32.ofNat kMaxLcores < total then .error "lcore count exceeds ipc::kMaxLcores"
  else
    let distributor := decide (2 ≤ total)
    let nWorkers := if distributor then total - 1 else 1
    let portId ← port
    if distributor then
      let (rings, workerRings) ← createIngress created nWorkers.toNat
      let (egress, rings) ← egressSpec.create created rings
      .ok ⟨rings, lcoreArgs portId true nWorkers workerRings (some egress) total.toNat 0 0⟩
    else
      .ok ⟨[], lcoreArgs portId false nWorkers [] none total.toNat 0 0⟩

end RunDataplane

/-! ### The two layouts -/

/-- The argument of the only lcore besides the main one. -/
def monoArg (portId : UInt16) : LcoreArg := { portId := portId, nWorkers := 1, stats := 0 }

/-- The argument of the IO core of `n` workers. -/
def ioArg (portId : UInt16) (n : ℕ) : LcoreArg where
  role := .io
  portId := portId
  nWorkers := UInt32.ofNat n
  stats := 0
  workerRings := List.range n
  egress := some n

/-- The argument of worker `w` of `n`. -/
def workerArg (portId : UInt16) (n w : ℕ) : LcoreArg where
  role := .worker
  portId := portId
  workerId := UInt16.ofNat w
  nWorkers := UInt32.ofNat n
  stats := w + 1
  workerRings := List.range n
  ingress := some w
  egress := some n

namespace Layout

/-- The layout with a single core. -/
def mono (portId : UInt16) : Layout := { args := [monoArg portId] }

/-- The layout with an IO core and `n` workers. -/
def distributor (portId : UInt16) (n : ℕ) : Layout where
  rings := (List.range n).map ingressSpec ++ [egressSpec]
  args := ioArg portId n :: (List.range n).map (workerArg portId n)

end Layout

/-! ### Which layout is launched -/

section Launched

variable {created : RingSpec → Bool} {portId : UInt16}

/-- A call after another one returns if both do. -/
theorem bind_eq_ok_iff {ε : Type*} {α β : Type} {x : Except ε α} {f : α → Except ε β} {b : β} :
    x >>= f = .ok b ↔ ∃ a, x = .ok a ∧ f a = .ok b := by
  cases x with
  | error e => exact ⟨nofun, nofun⟩
  | ok a =>
    refine ⟨fun h => ⟨a, rfl, h⟩, ?_⟩
    rintro ⟨_, ⟨⟩, h⟩
    exact h

theorem RingSpec.create_eq_ok_iff {spec : RingSpec} {rings rings' : List RingSpec} {ring : ℕ} :
    spec.create created rings = .ok (ring, rings') ↔
      created spec ∧ ring = rings.length ∧ rings' = rings ++ [spec] := by
  rw [RingSpec.create]
  split_ifs with h
  · rw [and_iff_right h, Except.ok.injEq, Prod.mk.injEq, eq_comm, @eq_comm _ _ rings']
  · exact iff_of_false nofun fun h' => h h'.1

/-- The rings to the workers have the numbers of the workers. -/
theorem createIngress_eq_ok_iff {n : ℕ} {rings : List RingSpec} {workerRings : List ℕ} :
    createIngress created n = .ok (rings, workerRings) ↔
      (∀ i < n, created (ingressSpec i)) ∧ rings = (List.range n).map ingressSpec ∧
        workerRings = List.range n := by
  induction n generalizing rings workerRings with
  | zero =>
    rw [createIngress, Except.ok.injEq, Prod.mk.injEq, eq_comm, @eq_comm _ _ workerRings,
      and_iff_right fun i hi => absurd hi (Nat.not_lt_zero i)]
    rfl
  | succ n ih =>
    simp only [createIngress, bind_eq_ok_iff, Prod.exists, ih, RingSpec.create_eq_ok_iff,
      Except.ok.injEq, Prod.mk.injEq, List.range_succ, List.map_append, Nat.forall_lt_succ_right]
    constructor
    · rintro ⟨_, _, ⟨hcreated, rfl, rfl⟩, _, _, ⟨hlast, rfl, rfl⟩, rfl, rfl⟩
      exact ⟨⟨hcreated, hlast⟩, rfl, by simp⟩
    · rintro ⟨⟨hcreated, hlast⟩, rfl, rfl⟩
      exact ⟨_, _, ⟨hcreated, rfl, rfl⟩, n, _, ⟨hlast, by simp, rfl⟩, rfl, rfl⟩

/-- The loop over the workers, with `j` of them done. -/
theorem lcoreArgs_workers {n j : ℕ} (hn : n < 65536) (hj : j ≤ n) :
    lcoreArgs portId true (UInt32.ofNat n) (List.range n) (some n) (n - j) (j + 1)
        (UInt16.ofNat j) =
      (List.range' j (n - j)).map (workerArg portId n) := by
  induction hk : n - j generalizing j with
  | zero => rfl
  | succ k ih =>
    have hlt : j < n := by omega
    have htoNat : (UInt16.ofNat j).toNat = j := UInt16.toNat_ofNat_of_lt' (by
      rw [UInt16.size]
      omega)
    have harg : lcoreArg portId true (UInt32.ofNat n) (List.range n) (some n) (j + 1)
        (UInt16.ofNat j) = workerArg portId n j := by
      simp [lcoreArg, workerArg, htoNat, hlt]
    have hrole : (workerArg portId n j).role = .worker := rfl
    have hnext : UInt16.ofNat j + 1 = UInt16.ofNat (j + 1) := (UInt16.ofNat_add j 1).symm
    rw [lcoreArgs, harg, List.range'_succ, List.map_cons, if_pos hrole, hnext]
    exact congrArg _ (ih (by omega) (by omega))

/-- The arguments of the IO core and its workers. -/
theorem lcoreArgs_distributor {n : ℕ} (hn : n < 65536) :
    lcoreArgs portId true (UInt32.ofNat n) (List.range n) (some n) (n + 1) 0 0 =
      ioArg portId n :: (List.range n).map (workerArg portId n) := by
  refine congrArg (List.cons (ioArg portId n)) ?_
  have hworkers := @lcoreArgs_workers portId n 0 hn (Nat.zero_le n)
  rwa [Nat.sub_zero, ← List.range_eq_range'] at hworkers

theorem toNat_lcores {n : ℕ} (hn : n < kMaxLcores) : (UInt32.ofNat (n + 1)).toNat = n + 1 :=
  UInt32.toNat_ofNat_of_lt' (by
    rw [kMaxLcores] at hn
    rw [UInt32.size]
    omega)

theorem lcores_add_one (n : ℕ) : UInt32.ofNat (n + 1) + 1 = UInt32.ofNat (n + 2) :=
  (UInt32.ofNat_add (n + 1) 1).symm

variable {port : Except String UInt16} {layout : Layout}

theorem runDataplane_mono :
    runDataplane created port 2 = .ok layout ↔ ∃ portId, port = .ok portId ∧ layout = .mono portId
    := by
  have hrun : runDataplane created port 2 = port >>= fun portId => .ok (.mono portId) := rfl
  rw [hrun, bind_eq_ok_iff]
  simp only [Except.ok.injEq, @eq_comm _ (Layout.mono _)]

theorem runDataplane_distributor {n : ℕ} (hpos : 1 ≤ n) (hn : n < kMaxLcores) :
    runDataplane created port (UInt32.ofNat (n + 2)) = .ok layout ↔ ∃ portId, port = .ok portId ∧
      layout = .distributor portId n ∧ ∀ spec ∈ layout.rings, created spec := by
  have hsize : n < 65536 := hn.trans (by decide)
  have hlow : ¬ UInt32.ofNat (n + 1) < 1 := by
    rw [UInt32.lt_iff_toNat_lt, toNat_lcores hn]
    exact Nat.not_lt.mpr (Nat.le_add_left 1 n)
  have hhigh : ¬ UInt32.ofNat kMaxLcores < UInt32.ofNat (n + 1) := by
    rw [UInt32.lt_iff_toNat_lt, toNat_lcores hn]
    exact Nat.not_lt.mpr hn
  have htwo : 2 ≤ UInt32.ofNat (n + 1) := by
    rw [UInt32.le_iff_toNat_le, toNat_lcores hn]
    exact Nat.succ_le_succ hpos
  have hworkers : UInt32.ofNat (n + 1) - 1 = UInt32.ofNat n := by
    rw [UInt32.ofNat_add]
    exact UInt32.add_sub_cancel _ _
  have hcount : (UInt32.ofNat n).toNat = n :=
    UInt32.toNat_ofNat_of_lt' (hsize.trans (by decide))
  rw [runDataplane, ← lcores_add_one, UInt32.add_sub_cancel]
  simp only [hlow, hhigh, htwo, decide_true, if_true, if_false, hworkers, hcount,
    toNat_lcores hn, bind_eq_ok_iff, Prod.exists, createIngress_eq_ok_iff,
    RingSpec.create_eq_ok_iff, Except.ok.injEq]
  refine exists_congr fun portId => and_congr_right fun _ => ?_
  constructor
  · rintro ⟨_, _, ⟨hingress, rfl, rfl⟩, _, _, ⟨hegress, rfl, rfl⟩, rfl⟩
    rw [List.length_map, List.length_range, lcoreArgs_distributor hsize]
    refine ⟨rfl, fun spec hspec => ?_⟩
    rcases List.mem_append.mp hspec with hspec | hspec
    · obtain ⟨i, hi, rfl⟩ := List.mem_map.mp hspec
      exact hingress i (List.mem_range.mp hi)
    · rwa [List.mem_singleton.mp hspec]
  · rintro ⟨rfl, hcreated⟩
    refine ⟨_, _, ⟨fun i hi => hcreated _ ?_, rfl, rfl⟩, n, _, ⟨hcreated _ ?_, ?_, rfl⟩, ?_⟩
    · exact List.mem_append_left _ (List.mem_map_of_mem (List.mem_range.mpr hi))
    · exact List.mem_append_right _ (List.mem_singleton_self _)
    · rw [List.length_map, List.length_range]
    · rw [lcoreArgs_distributor hsize]
      rfl

/-- `RunDataplane` throws if there is no lcore besides the main one, or no slot of counters for one
of them. -/
theorem exists_lcores {lcoreCount : UInt32}
    (h : runDataplane created port lcoreCount = .ok layout) :
    ∃ n < kMaxLcores, lcoreCount = UInt32.ofNat (n + 2) := by
  obtain ⟨total, rfl⟩ : ∃ total, lcoreCount = total + 1 :=
    ⟨lcoreCount - 1, (UInt32.sub_add_cancel _ _).symm⟩
  rw [runDataplane, UInt32.add_sub_cancel] at h
  simp only at h
  obtain ⟨hlow, hhigh⟩ : ¬ total < 1 ∧ ¬ UInt32.ofNat kMaxLcores < total := by
    split_ifs at h with hlow hhigh <;> exact ⟨hlow, hhigh⟩
  rw [UInt32.lt_iff_toNat_lt] at hlow hhigh
  have hpos : 1 ≤ total.toNat := Nat.not_lt.mp hlow
  have hle : total.toNat ≤ kMaxLcores := Nat.not_lt.mp hhigh
  refine ⟨total.toNat - 1, by omega, ?_⟩
  rw [← lcores_add_one, Nat.sub_add_cancel hpos, UInt32.ofNat_toNat]

/-- With one lcore besides the main one it does everything; with more, and not more than there are
slots of counters, one does the input and output of the others if all their rings were created. -/
theorem runDataplane_eq_ok_iff {lcoreCount : UInt32} :
    runDataplane created port lcoreCount = .ok layout ↔ ∃ portId, port = .ok portId ∧
      (lcoreCount = 2 ∧ layout = .mono portId ∨
        ∃ n, 1 ≤ n ∧ n < kMaxLcores ∧ lcoreCount = UInt32.ofNat (n + 2) ∧
          layout = .distributor portId n ∧ ∀ spec ∈ layout.rings, created spec) := by
  constructor
  · intro h
    obtain ⟨n, hn, rfl⟩ := exists_lcores h
    rcases n.eq_zero_or_pos with rfl | hpos
    · obtain ⟨portId, hport, hlayout⟩ := runDataplane_mono.mp h
      exact ⟨portId, hport, Or.inl ⟨rfl, hlayout⟩⟩
    · obtain ⟨portId, hport, hlayout, hcreated⟩ := (runDataplane_distributor hpos hn).mp h
      exact ⟨portId, hport, Or.inr ⟨n, hpos, hn, rfl, hlayout, hcreated⟩⟩
  · rintro ⟨portId, hport, ⟨rfl, hlayout⟩ | ⟨n, hpos, hn, rfl, hlayout, hcreated⟩⟩
    · exact runDataplane_mono.mpr ⟨portId, hport, hlayout⟩
    · exact (runDataplane_distributor hpos hn).mpr ⟨portId, hport, hlayout, hcreated⟩

theorem exists_layout_iff {lcoreCount : UInt32} :
    (∃ layout, runDataplane created port lcoreCount = .ok layout) ↔ ∃ portId, port = .ok portId ∧
      (lcoreCount = 2 ∨ ∃ n, 1 ≤ n ∧ n < kMaxLcores ∧ lcoreCount = UInt32.ofNat (n + 2) ∧
        ∀ spec ∈ (Layout.distributor portId n).rings, created spec) := by
  simp only [runDataplane_eq_ok_iff]
  constructor
  · rintro ⟨_, portId, hport, ⟨rfl, -⟩ | ⟨n, hpos, hn, rfl, rfl, hcreated⟩⟩
    · exact ⟨portId, hport, Or.inl rfl⟩
    · exact ⟨portId, hport, Or.inr ⟨n, hpos, hn, rfl, hcreated⟩⟩
  · rintro ⟨portId, hport, rfl | ⟨n, hpos, hn, rfl, hcreated⟩⟩
    · exact ⟨_, portId, hport, Or.inl ⟨rfl, rfl⟩⟩
    · exact ⟨_, portId, hport, Or.inr ⟨n, hpos, hn, rfl, rfl, hcreated⟩⟩

end Launched

/-! ### What the lcores are given -/

namespace Layout

variable {portId : UInt16} {n : ℕ}

theorem getElem?_range_eq_some {i j : ℕ} : (List.range n)[i]? = some j ↔ i = j ∧ j < n := by
  rw [List.getElem?_eq_some_iff]
  constructor
  · rintro ⟨hi, h⟩
    rw [List.length_range] at hi
    rw [List.getElem_range] at h
    exact ⟨h, h ▸ hi⟩
  · rintro ⟨rfl, hi⟩
    exact ⟨List.length_range.symm ▸ hi, List.getElem_range _⟩

theorem args_distributor {idx : ℕ} {arg : LcoreArg} :
    (distributor portId n).args[idx]? = some arg ↔
      idx = 0 ∧ arg = ioArg portId n ∨ ∃ w < n, idx = w + 1 ∧ arg = workerArg portId n w := by
  cases idx with
  | zero => simp [distributor, eq_comm]
  | succ w =>
    rw [distributor, List.getElem?_cons_succ, List.getElem?_map, Option.map_eq_some_iff]
    simp only [getElem?_range_eq_some, Nat.succ_ne_zero, false_and, false_or,
      Nat.add_right_cancel_iff]
    constructor
    · rintro ⟨_, ⟨rfl, hw⟩, rfl⟩
      exact ⟨w, hw, rfl, rfl⟩
    · rintro ⟨_, hw, rfl, rfl⟩
      exact ⟨w, ⟨rfl, hw⟩, rfl⟩

theorem ringOf_ioArg {ring : Ring} {ptr : ℕ} :
    (ioArg portId n).ringOf ring = some ptr ↔
      ring = .egress ∧ ptr = n ∨ ring = .worker ptr ∧ ptr < n := by
  cases ring with
  | egress => simp [LcoreArg.ringOf, ioArg, eq_comm]
  | worker w => simp [LcoreArg.ringOf, ioArg, getElem?_range_eq_some]

/-- All lcores know the rings under the same numbers. -/
theorem ringOf_workerArg {ring : Ring} (w : ℕ) :
    (workerArg portId n w).ringOf ring = (ioArg portId n).ringOf ring := by
  cases ring <;> rfl

/-- The rings to the workers come before the one back. -/
theorem rings_distributor {ptr : ℕ} {spec : RingSpec} :
    (distributor portId n).rings[ptr]? = some spec ↔
      ptr < n ∧ spec = ingressSpec ptr ∨ ptr = n ∧ spec = egressSpec := by
  have hlength : ((List.range n).map ingressSpec).length = n := by
    rw [List.length_map, List.length_range]
  rcases lt_trichotomy ptr n with hlt | rfl | hgt
  · rw [distributor, List.getElem?_append_left (hlength.symm ▸ hlt), List.getElem?_map,
      List.getElem?_range hlt]
    simp [hlt, hlt.ne, eq_comm]
  · have hlast := @List.getElem?_concat_length _ ((List.range ptr).map ingressSpec) egressSpec
    rw [hlength] at hlast
    rw [distributor, hlast]
    simp [eq_comm]
  · have hnone : (distributor portId n).rings[ptr]? = none := by
      rw [distributor, List.getElem?_eq_none]
      simpa [Nat.succ_le_iff] using hgt
    rw [hnone]
    simp [hgt.not_gt, hgt.ne']

/-- Every lcore has its own slot of counters. -/
theorem stats_distributor :
    (distributor portId n).args.map LcoreArg.stats = List.range (n + 1) := by
  rw [distributor, List.map_cons, List.map_map, List.range_succ_eq_map]
  rfl

theorem mem_share_workerArg {w : ℕ} (hn : n < kMaxLcores) (hw : w < n) {port : UInt16} :
    port ∈ (workerArg portId n w).share ↔ kEphemeralLow ≤ port.toNat ∧ port.toNat % n = w := by
  have hfits {i : ℕ} (hi : i ≤ n) : (UInt16.ofNat i).toNat = i :=
    UInt16.toNat_ofNat_of_lt' ((hi.trans_lt hn).trans (by decide))
  have hcount : (workerArg portId n w).nWorkers.toUInt16 = UInt16.ofNat n := UInt32.toUInt16_ofNat
  have hle : port.toNat ≤ kEphemeralHigh := Nat.le_of_lt_succ port.toNat_lt
  have hmod : port % UInt16.ofNat n = (workerArg portId n w).workerId ↔ port.toNat % n = w := by
    rw [workerArg, ← UInt16.toNat_inj, UInt16.toNat_mod, hfits le_rfl, hfits hw.le]
  refine mem_portShare.trans ?_
  rw [hcount, hmod, and_iff_right hle]

/-- Every source port belongs to one lcore. -/
theorem existsUnique_share (hpos : 1 ≤ n) (hn : n < kMaxLcores) {port : UInt16}
    (hport : kEphemeralLow ≤ port.toNat) :
    ∃! idx : ℕ, ∃ arg : LcoreArg,
      (distributor portId n).args[idx]? = some arg ∧ port ∈ arg.share := by
  have hmod : port.toNat % n < n := Nat.mod_lt _ hpos
  refine ⟨port.toNat % n + 1, ⟨workerArg portId n (port.toNat % n), ?_, ?_⟩, ?_⟩
  · exact args_distributor.mpr (Or.inr ⟨_, hmod, rfl, rfl⟩)
  · exact (mem_share_workerArg hn hmod).mpr ⟨hport, rfl⟩
  · rintro idx ⟨arg, harg, hshare⟩
    obtain ⟨-, rfl⟩ | ⟨w, hw, rfl, rfl⟩ := args_distributor.mp harg
    · exact absurd hshare (Finset.notMem_empty _)
    · rw [((mem_share_workerArg hn hw).mp hshare).2]

end Layout

example : runDataplane (fun _ => true) (.ok 0) 4 = .ok (.distributor 0 2) := by decide
example : runDataplane (fun spec => spec.name ≠ "cere_ingress_1") (.ok 0) 4 =
    .error "rte_ring_create failed: cere_ingress_1" := by decide

end Cerebellum
