import Cerebellum.Ipc.PoolConstruction
import Cerebellum.Nodes.FlowCount
import Mathlib.Data.Set.List

/-!
# The load-balancing node with checked indices

`LbNode` divides by the number of enabled slots and indexes four vectors: the enabled slots and the
slots of the pool, `port_pools_` and `backend_flows`. The last two have `kMaxBackends` elements, and
the numbers that index them come from the pool of the current burst or from flows that were opened
with earlier pools. Here the node is translated once more with the two vectors of a pool in place
of a `BackendPool`, and a division by zero or an index that is out of range is an error.

No error occurs, because of an invariant of the conntrack table: the backend number of every entry,
of the dead ones too, is below `kMaxBackends`.

## Main definitions

* `Cerebellum.PoolVectors.select?`, `Cerebellum.PoolVectors.at?`: `Select` and `At`.
* `Cerebellum.LbNode.handlePacket?`, `Cerebellum.LbNode.process?`: the node, with checked indices.
* `Cerebellum.NatTable.InRange`: the invariant.

## Main results

* `Cerebellum.LbNode.process?_eq`: `Process` makes no error in a state with the invariant.
* `Cerebellum.LbNode.published_content_stays_in_range`: no published content causes an error.
-/

namespace Cerebellum

namespace PoolVectors

/-- `BackendPool::Select`; the remainder of a division by zero is an error. -/
def select? (hash : FlowKey → UInt32) (v : PoolVectors) (key : FlowKey) : Option UInt8 :=
  if v.active.length = 0 then none else v.active[(hash key).toNat % v.active.length]?

/-- `BackendPool::At`. -/
def at? (v : PoolVectors) (idx : UInt8) : Option BackendInfo := v.slots[idx.toNat]?

/-- `BackendPool::ActiveCount`. -/
def activeCount (v : PoolVectors) : UInt16 := UInt16.ofNat v.active.length

end PoolVectors

/-- One call of `Process`: the vectors of the pool it loads, the clock value it reads and its
packets. -/
structure RawBurst where
  pool : Option PoolVectors
  nowMs : UInt32
  packets : List PacketMeta

/-- The same call of `Process`, with the vectors of its pool. -/
def Burst.raw (b : Burst) : RawBurst where
  pool := b.pool.map BackendPool.vectors
  nowMs := b.nowMs
  packets := b.packets

namespace LbNode

variable {bits : ℕ}

/-- The element at `idx` of a vector of `kMaxBackends` elements. -/
def element? {α : Type} (elements : UInt8 → α) (idx : UInt8) : Option α :=
  if idx.toNat < kMaxBackends then some (elements idx) else none

/-- `if (port != 0) port_pools_[idx].Release(port)`. -/
def releasePort? (n : LbNode bits) (idx : UInt8) (port : UInt16) : Option (LbNode bits) :=
  if h : port ≠ 0 then do
    let ports ← element? n.portPools idx
    some { n with portPools := Function.update n.portPools idx (ports.release port h) }
  else some n

/-- The last part of `MaybeTeardown`. -/
def teardown? (n : LbNode bits) (s : Slot bits) : Option (LbNode bits) :=
  let closed := n.nat.close s
  { n with nat := closed.1 }.releasePort? closed.2.2 closed.2.1

/-- `LbNode::MaybeTeardown`. -/
def maybeTeardown? (n : LbNode bits) (s : Slot bits) (m : PacketMeta) : Option (LbNode bits) :=
  let n := if m.has kTcpFin then n.markFin s m.dir else n
  if m.has kTcpRst || (m.has kTcpFin &&
      (n.nat.slots s).finSeen = finBit .forward ||| finBit .reverse) then
    n.teardown? s
  else some n

/-- The flow that `CreateFlow` fills in for backend `idx`. -/
def flowTo (m : PacketMeta) (idx : UInt8) (backend : BackendInfo) (snatPort : UInt16) :
    NatFlow where
  fwdKey := m.flowKey
  clientMac := m.clientMac
  backendIp := backend.ip
  backendMac := backend.mac
  backendPort := backend.port
  snatPort := snatPort
  backendIdx := idx

/-- The end of `HandlePacket` for a forward packet whose flow is in slot `s`. -/
def forwardVia? (n : LbNode bits) (s : Slot bits) (m : PacketMeta) :
    Option (LbNode bits × Bool × PacketMeta) :=
  (n.maybeTeardown? s m).map fun n' => (n', true, m.toBackend (n.nat.slots s))

/-- The end of `HandlePacket` for a reverse packet whose flow is in slot `s`. -/
def reverseVia? (n : LbNode bits) (s : Slot bits) (m : PacketMeta) :
    Option (LbNode bits × Bool × PacketMeta) :=
  (n.maybeTeardown? s m).map fun n' => (n', true, m.toClient (n.nat.slots s))

section Operations

variable (hash : FlowKey → UInt32)

/-- `LbNode::CreateFlow`. -/
def createFlow? (n : LbNode bits) (m : PacketMeta) (pool : PoolVectors) (nowMs : UInt32) :
    Option (LbNode bits × Option (Slot bits)) := do
  let idx ← pool.select? hash m.flowKey
  let backend ← pool.at? idx
  let ports ← element? n.portPools idx
  let (snatPort, rest) := ports.acquire
  let n := { n with portPools := Function.update n.portPools idx rest }
  if snatPort = 0 then some (n, none)
  else do
    let (nat, inserted, evictedPort, evictedIdx) :=
      n.nat.insert hash (flowTo m idx backend snatPort) nowMs
    let n ← { n with nat := nat }.releasePort? evictedIdx evictedPort
    match inserted with
    | none => (n.releasePort? idx snatPort).map fun n => (n, none)
    | some s =>
      let flows ← element? n.backendFlows idx
      some ({ n with
          newFlows := n.newFlows + 1
          backendFlows := Function.update n.backendFlows idx (flows + 1) },
        some s)

/-- `LbNode::HandlePacket`. -/
def handlePacket? (n : LbNode bits) (pool : PoolVectors) (nowMs : UInt32) (m : PacketMeta) :
    Option (LbNode bits × Bool × PacketMeta) :=
  match m.dir with
  | .forward =>
    let (nat, found) := n.nat.lookupForward hash m.flowKey nowMs
    let n := { n with nat := nat }
    match found with
    | some s => n.forwardVia? s m
    | none =>
      if m.proto = kProtoTcp && !m.has kTcpSyn then some (n, false, m)
      else do
        match ← createFlow? hash n m pool nowMs with
        | (n, none) => some (n, false, m)
        | (n, some s) => n.forwardVia? s m
  | .reverse =>
    let (nat, found) :=
      n.nat.lookupReverse hash m.srcIp m.srcPort m.dstPort m.proto nowMs
    let n := { n with nat := nat }
    match found with
    | none => some (n, false, m)
    | some s => n.reverseVia? s m

/-- The loop of `Process` over the packets of a burst. -/
def handleBurst? (pool : PoolVectors) (nowMs : UInt32) :
    LbNode bits → List PacketMeta → Option (LbNode bits × List (Bool × PacketMeta))
  | n, [] => some (n, [])
  | n, m :: burst => do
    let (n, verdict) ← handlePacket? hash n pool nowMs m
    let (n, verdicts) ← handleBurst? pool nowMs n burst
    some (n, verdict :: verdicts)

/-- `LbNode::Process`. -/
def process? (n : LbNode bits) (activeFlows : ℕ) (pool : Option PoolVectors) (nowMs : UInt32)
    (burst : List PacketMeta) : Option (LbNode bits × ℕ × List (Bool × PacketMeta)) :=
  match pool with
  | none => some (n, activeFlows, burst.map fun m => (false, m))
  | some pool =>
    if pool.activeCount = 0 then some (n, activeFlows, burst.map fun m => (false, m))
    else do
      let (n, verdicts) ← handleBurst? hash pool nowMs n burst
      some (n, n.nat.size, verdicts)

/-- The node and its `active_flows` after a call of `Process`. -/
def serve? (st : LbNode bits × ℕ) (b : RawBurst) : Option (LbNode bits × ℕ) := do
  let processed ← process? hash st.1 st.2 b.pool b.nowMs b.packets
  some (processed.1, processed.2.1)

/-- The node and its `active_flows` after a sequence of calls of `Process`. -/
def serveAll? (st : LbNode bits × ℕ) (bursts : List RawBurst) : Option (LbNode bits × ℕ) :=
  bursts.foldlM (serve? hash) st

end Operations

end LbNode

/-! ### The indices that come from the pool -/

namespace BackendPool

variable {pool : BackendPool}

theorem activeCount_le (pool : BackendPool) : pool.activeCount ≤ kMaxBackends := by
  rw [activeCount, active, List.length_map]
  calc
    _ ≤ (List.range pool.slots.length).length := List.length_filter_le _ _
    _ = pool.slots.length := List.length_range
    _ ≤ kMaxBackends := pool.length_slots_le

/-- `ActiveCount` fits into its 16 bits. -/
theorem vectors_activeCount_eq_zero : pool.vectors.activeCount = 0 ↔ pool.activeCount = 0 := by
  have hle := pool.activeCount_le
  unfold kMaxBackends at hle
  have htoNat : pool.vectors.activeCount.toNat = pool.activeCount := by
    rw [PoolVectors.activeCount, UInt16.toNat_ofNat']
    exact Nat.mod_eq_of_lt (show pool.activeCount < 2 ^ 16 by omega)
  rw [← UInt16.toNat_inj, htoNat]
  rfl

theorem select?_vectors (hash : FlowKey → UInt32) (key : FlowKey) (h : pool.activeCount ≠ 0) :
    pool.vectors.select? hash key = some (pool.select hash key) := by
  have hlt : (hash key).toNat % pool.active.length < pool.active.length :=
    Nat.mod_lt _ (Nat.pos_of_ne_zero h)
  rw [PoolVectors.select?, if_neg (show ¬ pool.vectors.active.length = 0 from h), select,
    List.getD_eq_getElem _ _ hlt]
  exact List.getElem?_eq_getElem hlt

theorem at?_vectors {idx : UInt8} (h : idx.toNat < pool.slots.length) :
    pool.vectors.at? idx = some (pool.getAt idx) := by
  rw [getAt, List.getD_eq_getElem _ _ h]
  exact List.getElem?_eq_getElem h

/-- The slot that `Select` picks is in the range of `port_pools_` and `backend_flows`. -/
theorem select_lt_kMaxBackends (hash : FlowKey → UInt32) (key : FlowKey)
    (h : pool.activeCount ≠ 0) : (pool.select hash key).toNat < kMaxBackends :=
  lt_of_lt_of_le (select_lt hash key h) pool.length_slots_le

end BackendPool

/-! ### The indices that come from the table -/

/-- The backend number of every entry is below `kMaxBackends`, whichever pool it came from and
whatever has become of the entry. -/
def NatTable.InRange {bits : ℕ} (t : NatTable bits) : Prop :=
  ∀ s, (t.slots s).backendIdx.toNat < kMaxBackends

theorem NatTable.InRange.update {bits : ℕ} {t t' : NatTable bits} (h : t.InRange) {s : Slot bits}
    {flow : NatFlow} (hslots : t'.slots = Function.update t.slots s flow)
    (hflow : flow.backendIdx.toNat < kMaxBackends) : t'.InRange := by
  intro c
  rw [hslots]
  rcases eq_or_ne c s with rfl | hne
  · rwa [Function.update_self]
  · rw [Function.update_of_ne hne]
    exact h c

namespace LbNode

open NatTable

variable {bits : ℕ} {hash : FlowKey → UInt32} {nowMs : UInt32}

/-- A quiet step changes no backend number. -/
theorem QuietStep.inRange {n n' : LbNode bits} (h : QuietStep nowMs n n') (hn : n.nat.InRange) :
    n'.nat.InRange := by
  cases h with
  | @reap s hexp => exact hn.update (reap_slots _ _) (hn s)
  | @touch s hlive => exact hn.update touch_slots (hn s)
  | @fin s dir hlive => exact hn.update (markFin_slots _ _ _) (hn s)
  | @close s hlive => exact hn.update (teardown_slots hlive.1) (hn s)

theorem QuietSteps.inRange {n n' : LbNode bits} (h : QuietSteps nowMs n n') (hn : n.nat.InRange) :
    n'.nat.InRange := by
  induction h with
  | refl => exact hn
  | tail _ hstep ih => exact hstep.inRange ih

variable {pool : BackendPool}

/-- A flow is opened with a slot of the pool as its backend number. -/
theorem inRange_openAt {n : LbNode bits} (hn : n.nat.InRange) (hactive : pool.activeCount ≠ 0)
    (m : PacketMeta) (port : UInt16) (s : Slot bits) :
    (openAt hash n (newFlow hash m pool port) s nowMs).nat.InRange :=
  hn.update (openAt_slots hash n _ s nowMs)
    (BackendPool.select_lt_kMaxBackends hash m.flowKey hactive)

theorem Step.inRange {n n' : LbNode bits} {m : PacketMeta} (h : Step hash pool nowMs m n n')
    (hactive : pool.activeCount ≠ 0) (hn : n.nat.InRange) : n'.nat.InRange := by
  cases h with
  | quiet h => exact h.inRange hn
  | @create s hdir hmay hopens => exact inRange_openAt hn hactive m _ s

/-- A packet keeps the backend numbers in range. -/
theorem inRange_handlePacket {n : LbNode bits} (hn : n.nat.InRange) (hactive : pool.activeCount ≠ 0)
    (m : PacketMeta) : (handlePacket hash n pool nowMs m).1.nat.InRange :=
  (handlePacket_steps n m).rec hn fun _ hstep ih => hstep.inRange hactive ih

theorem inRange_init (bits : ℕ) (timeoutMs : UInt32) (workerId nWorkers : UInt16) :
    (init bits timeoutMs workerId nWorkers).nat.InRange :=
  fun _ => show (0 : UInt8).toNat < kMaxBackends by decide

/-! ### The checked accesses succeed -/

theorem element?_of_lt {α : Type} {elements : UInt8 → α} {idx : UInt8}
    (h : idx.toNat < kMaxBackends) : element? elements idx = some (elements idx) := if_pos h

theorem releasePort?_eq {n : LbNode bits} {idx : UInt8} {port : UInt16}
    (h : port ≠ 0 → idx.toNat < kMaxBackends) :
    n.releasePort? idx port = some (n.releasePort idx port) := by
  rw [releasePort?, releasePort]
  split_ifs with hport
  · rw [element?_of_lt (h hport)]
    rfl
  · rfl

/-- Closing a flow gives its port back to the pool of its own backend. -/
theorem teardown?_eq {n : LbNode bits} (hn : n.nat.InRange) (s : Slot bits) :
    n.teardown? s = some (n.teardown s) := by
  refine releasePort?_eq fun hport => ?_
  by_cases hun : (n.nat.slots s).Unreaped
  · rw [close_of_unreaped hun]
    exact hn s
  · rw [close_of_not_unreaped hun] at hport
    exact absurd rfl hport

theorem maybeTeardown?_eq {n : LbNode bits} (hn : n.nat.InRange) (s : Slot bits) (m : PacketMeta) :
    n.maybeTeardown? s m = some (n.maybeTeardown s m) := by
  have hmark : (n.markFin s m.dir).nat.InRange := hn.update (markFin_slots n s m.dir) (hn s)
  have hclose {n' : LbNode bits} (hn' : n'.nat.InRange) (b : Bool) :
      (if b then n'.teardown? s else some n') = some (if b then n'.teardown s else n') := by
    cases b with
    | true => exact teardown?_eq hn' s
    | false => rfl
  unfold maybeTeardown? maybeTeardown
  cases m.has kTcpFin with
  | true => exact hclose hmark _
  | false => exact hclose hn _

theorem forwardVia?_eq {n : LbNode bits} (hn : n.nat.InRange) (s : Slot bits) (m : PacketMeta) :
    n.forwardVia? s m = some (n.forwardVia s m) := by
  rw [forwardVia?, maybeTeardown?_eq hn, Option.map_some]
  rfl

theorem reverseVia?_eq {n : LbNode bits} (hn : n.nat.InRange) (s : Slot bits) (m : PacketMeta) :
    n.reverseVia? s m = some (n.reverseVia s m) := by
  rw [reverseVia?, maybeTeardown?_eq hn, Option.map_some]
  rfl

/-- Opening a flow. The port of an evicted entry goes back to the pool of its own backend, which may
be a backend that the current pool does not have. -/
theorem createFlow?_eq {n : LbNode bits} (hn : n.nat.InRange) (hactive : pool.activeCount ≠ 0)
    (m : PacketMeta) :
    createFlow? hash n m pool.vectors nowMs = some (createFlow hash n m pool nowMs) := by
  have hidx := BackendPool.select_lt_kMaxBackends hash m.flowKey hactive
  have hflow (port : UInt16) : flowTo m (pool.select hash m.flowKey)
      (pool.getAt (pool.select hash m.flowKey)) port = newFlow hash m pool port := rfl
  simp only [createFlow?, createFlow, BackendPool.select?_vectors hash m.flowKey hactive,
    BackendPool.at?_vectors (BackendPool.select_lt hash m.flowKey hactive), element?_of_lt hidx,
    Option.bind_eq_bind, Option.bind_some, hflow]
  by_cases hport : (n.portPools (pool.select hash m.flowKey)).acquire.1 = 0
  · rw [if_pos hport, if_pos hport]
  · rw [if_neg hport, if_neg hport]
    have hins := insert_spec hash n.nat (newFlow hash m pool
      (n.portPools (pool.select hash m.flowKey)).acquire.1) nowMs
    obtain ⟨i, -, s, -, -, -, hins⟩ | ⟨-, hins⟩ := hins
    · have hevicted : (if (n.nat.slots s).occupied then (n.nat.slots s).backendIdx
          else 0).toNat < kMaxBackends := by
        split_ifs
        · exact hn s
        · decide
      rw [hins, releasePort?_eq fun _ => hevicted]
      rfl
    · rw [hins, releasePort?_eq fun h => absurd rfl h]
      simp only [Option.bind_some, releasePort?_eq fun _ => hidx, Option.map_some]

/-- The flow that `CreateFlow` opened, and the table it leaves. -/
theorem inRange_createFlow {n : LbNode bits} (hn : n.nat.InRange) (hactive : pool.activeCount ≠ 0)
    {m : PacketMeta} (habs : AbsentOnScan hash n.nat m.flowKey) :
    (createFlow hash n m pool nowMs).1.nat.InRange := by
  obtain ⟨s, -, hcreate⟩ | ⟨-, hcreate⟩ := createFlow_spec hash n m pool nowMs habs
  · rw [hcreate]
    exact inRange_openAt hn hactive m _ s
  · rw [hcreate]
    exact hn

/-- `HandlePacket` makes no error. -/
theorem handlePacket?_eq {n : LbNode bits} (hn : n.nat.InRange) (hactive : pool.activeCount ≠ 0)
    (m : PacketMeta) :
    handlePacket? hash n pool.vectors nowMs m = some (handlePacket hash n pool nowMs m) := by
  have htouch {t : NatTable bits} (ht : t.InRange) (s : Slot bits) :
      (t.touch s nowMs).InRange := ht.update touch_slots (ht s)
  cases hdir : m.dir with
  | forward =>
    obtain ⟨t, hreaps, hlookup⟩ := lookupForward_spec hash n.nat m.flowKey nowMs
    have ht : t.InRange := (quietSteps_of_reaps hreaps).inRange hn
    obtain ⟨s, hfound, -, -⟩ | ⟨hfound, habs⟩ := hlookup
    · simp only [handlePacket?, handlePacket, hdir, hfound]
      exact forwardVia?_eq (htouch ht s) s m
    · simp only [handlePacket?, handlePacket, hdir, hfound]
      split_ifs with hmay
      · rfl
      · have hcreated : (createFlow hash { n with nat := t } m pool nowMs).1.nat.InRange :=
          inRange_createFlow ht hactive habs
        rw [createFlow?_eq (n := { n with nat := t }) ht hactive]
        generalize createFlow hash { n with nat := t } m pool nowMs = created at hcreated
        obtain ⟨n', inserted⟩ := created
        cases inserted with
        | none => rfl
        | some s => exact forwardVia?_eq hcreated s m
  | reverse =>
    obtain ⟨t, hreaps, ⟨i, -, s, hfound, -⟩ | ⟨hfound, -⟩⟩ :=
      lookupReverse_spec hash n.nat m.srcIp m.srcPort m.dstPort m.proto nowMs
    · have ht : t.InRange := (quietSteps_of_reaps hreaps).inRange hn
      simp only [handlePacket?, handlePacket, hdir, hfound]
      exact reverseVia?_eq (htouch ht s) s m
    · simp only [handlePacket?, handlePacket, hdir, hfound]

theorem handleBurst?_eq {n : LbNode bits} (hn : n.nat.InRange) (hactive : pool.activeCount ≠ 0)
    (burst : List PacketMeta) :
    handleBurst? hash pool.vectors nowMs n burst = some (handleBurst hash pool nowMs n burst) := by
  induction burst generalizing n with
  | nil => rfl
  | cons m burst ih =>
    have hnext : (handlePacket hash n pool nowMs m).1.nat.InRange :=
      inRange_handlePacket hn hactive m
    rw [handleBurst?, handlePacket?_eq hn hactive, Option.bind_eq_bind, Option.bind_some]
    change Option.bind (handleBurst? hash pool.vectors nowMs
      (handlePacket hash n pool nowMs m).1 burst) _ = _
    rw [ih hnext]
    rfl

/-- `Process` makes no error in a state whose backend numbers are in range, and does what it does
without the checks. -/
theorem process?_eq {n : LbNode bits} (hn : n.nat.InRange) (activeFlows : ℕ)
    (pool : Option BackendPool) (nowMs : UInt32) (burst : List PacketMeta) :
    process? hash n activeFlows (pool.map BackendPool.vectors) nowMs burst =
      some (process hash n activeFlows pool nowMs burst) := by
  cases pool with
  | none => rfl
  | some pool =>
    rw [Option.map_some, process?, process]
    by_cases hactive : pool.activeCount = 0
    · rw [if_pos (BackendPool.vectors_activeCount_eq_zero.mpr hactive), if_pos hactive]
    · rw [if_neg (BackendPool.vectors_activeCount_eq_zero.not.mpr hactive), if_neg hactive,
        handleBurst?_eq hn hactive]
      rfl

/-! ### Runs -/

theorem inRange_serve {st : LbNode bits × ℕ} (h : st.1.nat.InRange) (b : Burst) :
    (serve hash st b).1.nat.InRange := by
  rw [serve, (process_eq hash st.1 st.2 b.pool b.nowMs b.packets).1]
  exact run_induct (fun n => n.nat.InRange) h (fun _ _ _ _ _ hactive hn hstep =>
    hstep.inRange hactive hn) _

/-- Calls of `Process` make no error, whatever pools they find. -/
theorem serveAll?_eq {st : LbNode bits × ℕ} (h : st.1.nat.InRange) (bursts : List Burst) :
    serveAll? hash st (bursts.map Burst.raw) = some (serveAll hash st bursts) := by
  induction bursts generalizing st with
  | nil => rfl
  | cons b bursts ih =>
    have hserve : serve? hash st b.raw = some (serve hash st b) := by
      rw [serve?, Burst.raw, process?_eq h]
      rfl
    rw [List.map_cons, serveAll?, List.foldlM_cons, hserve, Option.bind_eq_bind, Option.bind_some]
    exact ih (inRange_serve h b)

/-- Calls of `Process` with pools that `BuildPool` has made are calls with pools. -/
theorem exists_bursts {raws : List RawBurst} (h : ∀ b ∈ raws, ∀ v ∈ b.pool, v.Built) :
    ∃ bursts : List Burst, bursts.map Burst.raw = raws := by
  change raws ∈ Set.range (List.map Burst.raw)
  rw [Set.range_list_map]
  intro b hb
  cases hpool : b.pool with
  | none => exact ⟨⟨none, b.nowMs, b.packets⟩, by rw [Burst.raw, Option.map_none, ← hpool]⟩
  | some v =>
    obtain ⟨pool, hv⟩ := (h b hb v hpool).exists_pool
    exact ⟨⟨some pool, b.nowMs, b.packets⟩, by rw [Burst.raw, Option.map_some, hv, ← hpool]⟩

/-- No published content drives the data plane out of bounds. Of every control view whose sequence
number is even, and so of the view that `SeedControl` leaves for any number of configured backends,
`ReadControl` and `BuildPool` make a pool in finitely many steps; it has at most `kMaxBackends`
slots and lists exactly the slots with an enabled flag that is not zero, each once and in increasing
order. For all calls of `Process` of a fresh node, each with a pool that `BuildPool` has made or
with none, the node never divides by zero, and never uses an index that is not in range of the
vectors of the pool, of `port_pools_` or of `backend_flows`: it runs as it does without the
checks. -/
theorem published_content_stays_in_range (hash : FlowKey → UInt32) (bits : ℕ) (timeoutMs : UInt32)
    (workerId nWorkers : UInt16) :
    (∀ view : ControlView, view.seq &&& 1 = 0 → ∃ v, MakesPool view v) ∧
      (∀ (view : ControlView) (backends : List BackendInfo), view.seq &&& 1 = 0 →
        ∃ v, MakesPool (seedControl view backends) v ∧
          v.slots = backends.take (min kMaxBackends (backends.length % 2 ^ 32))) ∧
      ∀ raws : List RawBurst, (∀ b ∈ raws, ∀ v ∈ b.pool, v.Built) →
        ∃ bursts : List Burst, bursts.map Burst.raw = raws ∧
          serveAll? hash (init bits timeoutMs workerId nWorkers, 0) raws =
            some (serveAll hash (init bits timeoutMs workerId nWorkers, 0) bursts) := by
  refine ⟨fun view heven => ⟨_, makesPool heven⟩, fun view backends heven => ?_, fun raws h => ?_⟩
  · exact ⟨_, makesPool (seedControl_even heven backends), slots_seedControl view backends⟩
  · obtain ⟨bursts, rfl⟩ := exists_bursts h
    exact ⟨bursts, rfl, serveAll?_eq (inRange_init bits timeoutMs workerId nWorkers) bursts⟩

end LbNode

end Cerebellum
