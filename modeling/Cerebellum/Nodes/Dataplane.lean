import Cerebellum.Nodes.CoreConservation
import Cerebellum.Nodes.Layout
import Cerebellum.Nodes.PortConservation

/-!
# The lcores of the data plane

Each lcore runs `LcoreMain` (`main.cpp`): it builds the graphs of its role and runs them in a loop,
on the rings, the counters and the numbers that its `LcoreArg` holds. Here the lcores run as
`RunDataplane` lays them out. The IO core runs its two graphs in turn, and an lcore begins a run
when all that the last one had for the rings is on them.

What is launched is the system of `Cerebellum.Cores` or, with one lcore, that of `Cerebellum.Mono`.
So what holds there holds of the data plane: packets with the same 5-tuple keep their order, and no
frame is lost between the lcores.

## Main definitions

* `Cerebellum.Dataplane`, `Cerebellum.Dataplane.Step`: the lcores of a layout.
* `Cerebellum.Dataplane.Shows`: a state of the lcores as one of `Cerebellum.Cores`.

## Main results

* `Cerebellum.Dataplane.Shows.step`: the steps of the lcores are steps of `Cerebellum.Cores`.
* `Cerebellum.launched_lcores_are_cores`: what is launched, in every state that it can reach.
-/

namespace Cerebellum

open Graph

variable {bits : ℕ}

namespace LcoreArg

section Lcore

variable (bits) (env : Env ℕ) (hash : FlowKey → UInt32) (cfg : Config) (cks : Checksums)
  (arg : LcoreArg)

/-- The graph of an lcore; the IO core has a second one, that of `buildTxGraph`. -/
def graph : Except String (Graph (World bits ℕ) ℕ × NodeId) :=
  match arg.role with
  | .mono => buildMonolithicGraph bits env hash cfg cks
  | .io => buildRxGraph bits env hash cfg arg.nWorkers.toNat
  | .worker => buildWorkerGraph bits env hash cfg cks

/-- The `LbNode` in the graph of an lcore. The IO core has none. -/
def lbNode (timeoutMs : UInt32) : Option (LbNode bits) :=
  match arg.role with
  | .mono => some (.init bits timeoutMs 0 1)
  | .io => none
  | .worker => some (.init bits timeoutMs arg.workerId arg.nWorkers.toUInt16)

end Lcore

end LcoreArg

/-- The graphs of the lcores by their index, whether the next run of an IO core is that of its
second graph, the packet buffers, the number of frames received, what the last run of an lcore has
still to put on rings, the rings by their number, and the frames sent. -/
structure Dataplane (bits : ℕ) where
  core : ℕ → Core bits
  txCore : ℕ → Core bits
  transmits : ℕ → Bool := fun _ => false
  mem : ℕ → Mbuf
  next : ℕ := 0
  out : ℕ → List (Ring × ℕ) := fun _ => []
  rings : ℕ → List ℕ := fun _ => []
  sent : List ℕ := []

namespace Dataplane

section System

variable (s : Dataplane bits) (r : Run (World bits ℕ) ℕ) (idx : ℕ)

/-- The only lcore has received `k` frames and run its graph. -/
def afterMono (k : ℕ) : Dataplane bits :=
  { s with
    core := Function.update s.core idx ⟨r.disp, r.world⟩
    mem := r.world.mem
    next := s.next + k
    sent := s.sent ++ r.world.ledger.sent }

/-- The IO core has received `k` frames and run its first graph. -/
def afterReceive (k : ℕ) : Dataplane bits :=
  { s with
    core := Function.update s.core idx ⟨r.disp, r.world⟩
    transmits := Function.update s.transmits idx true
    mem := r.world.mem
    next := s.next + k
    out := Function.update s.out idx (s.out idx ++ r.world.ledger.enqueued) }

/-- The IO core has taken packets from a ring, with `rest` left, and run its second graph. -/
def afterTransmit (ptr : ℕ) (rest : List ℕ) : Dataplane bits :=
  { s with
    txCore := Function.update s.txCore idx ⟨r.disp, r.world⟩
    transmits := Function.update s.transmits idx false
    mem := r.world.mem
    rings := Function.update s.rings ptr rest
    sent := s.sent ++ r.world.ledger.sent }

/-- A worker has taken packets from a ring, with `rest` left, and run its graph. -/
def afterWork (ptr : ℕ) (rest : List ℕ) : Dataplane bits :=
  { s with
    core := Function.update s.core idx ⟨r.disp, r.world⟩
    mem := r.world.mem
    out := Function.update s.out idx (s.out idx ++ r.world.ledger.enqueued)
    rings := Function.update s.rings ptr rest }

/-- An lcore has put packet `i` on a ring, with `rest` left to be put on rings. -/
def afterEnqueue (ptr i : ℕ) (rest : List (Ring × ℕ)) : Dataplane bits :=
  { s with
    out := Function.update s.out idx rest
    rings := Function.update s.rings ptr (s.rings ptr ++ [i]) }

variable (arrivals : ℕ → Mbuf) (hash : FlowKey → UInt32) (cfg : Config) (cks : Checksums)
  (args : List LcoreArg) (envs txEnvs : ℕ → Env ℕ)

/-- One step of one of the lcores. The world outside is as each of their graphs sees it. -/
inductive Step : Dataplane bits → Dataplane bits → Prop
  /-- `RunMono` receives the next `k` frames. -/
  | mono {s : Dataplane bits} {idx k : ℕ} {arg : LcoreArg} {r : Run (World bits ℕ) ℕ}
      (harg : args[idx]? = some arg) (hrole : arg.role = .mono)
      (hreceived : ((envs idx).received (s.core idx).world.tick).bufs = List.range' s.next k)
      (hmemory : ∀ i ∈ List.range' s.next k,
        (envs idx).memory (s.core idx).world.tick i = arrivals i)
      (hrun : (s.core idx).Runs (arg.graph bits (envs idx) hash cfg cks) r) :
      Step s (s.afterMono r idx k)
  /-- `RunIo` receives the next `k` frames. -/
  | receive {s : Dataplane bits} {idx k : ℕ} {arg : LcoreArg} {r : Run (World bits ℕ) ℕ}
      (harg : args[idx]? = some arg) (hrole : arg.role = .io)
      (hidle : s.out idx = []) (hturn : s.transmits idx = false)
      (hreceived : ((envs idx).received (s.core idx).world.tick).bufs = List.range' s.next k)
      (hmemory : ∀ i, (envs idx).memory (s.core idx).world.tick i =
        if i ∈ List.range' s.next k then arrivals i else s.mem i)
      (hrun : (s.core idx).Runs (arg.graph bits (envs idx) hash cfg cks) r) :
      Step s (s.afterReceive r idx k)
  /-- `RunIo` takes packets from its ring. -/
  | transmit {s : Dataplane bits} {idx ptr : ℕ} {rest : List ℕ} {arg : LcoreArg}
      {r : Run (World bits ℕ) ℕ} (harg : args[idx]? = some arg) (hrole : arg.role = .io)
      (hidle : s.out idx = []) (hturn : s.transmits idx = true) (hptr : arg.source = some ptr)
      (hring : s.rings ptr =
        ((txEnvs idx).received (s.txCore idx).world.tick).bufs ++ rest)
      (hmemory : (txEnvs idx).memory (s.txCore idx).world.tick = s.mem)
      (hrun : (s.txCore idx).Runs (buildTxGraph bits (txEnvs idx)) r) :
      Step s (s.afterTransmit r idx ptr rest)
  /-- `RunWorker` takes packets from its ring. -/
  | work {s : Dataplane bits} {idx ptr : ℕ} {rest : List ℕ} {arg : LcoreArg}
      {r : Run (World bits ℕ) ℕ} (harg : args[idx]? = some arg) (hrole : arg.role = .worker)
      (hidle : s.out idx = []) (hptr : arg.source = some ptr)
      (hring : s.rings ptr = ((envs idx).received (s.core idx).world.tick).bufs ++ rest)
      (hmemory : (envs idx).memory (s.core idx).world.tick = s.mem)
      (hrun : (s.core idx).Runs (arg.graph bits (envs idx) hash cfg cks) r) :
      Step s (s.afterWork r idx ptr rest)
  /-- The next packet of a run is put on its ring. -/
  | enqueue {s : Dataplane bits} {idx ptr i : ℕ} {ring : Ring} {rest : List (Ring × ℕ)}
      {arg : LcoreArg} (harg : args[idx]? = some arg) (hout : s.out idx = (ring, i) :: rest)
      (hptr : arg.ringOf ring = some ptr) :
      Step s (s.afterEnqueue idx ptr i rest)

/-- The start: the graphs are built, the rings are empty, and nothing was received. -/
structure Fresh (timeoutMs : UInt32) (s : Dataplane bits) : Prop where
  core : ∀ idx arg, args[idx]? = some arg →
    (s.core idx).Fresh (arg.graph bits (envs idx) hash cfg cks)
  tx : ∀ idx arg, args[idx]? = some arg → arg.role = .io →
    (s.txCore idx).Fresh (buildTxGraph bits (txEnvs idx))
  lb : ∀ idx arg, args[idx]? = some arg → ∀ lb ∈ arg.lbNode bits timeoutMs,
    (s.core idx).world.lb = lb
  transmits_eq : ∀ idx, s.transmits idx = false
  next_eq : s.next = 0
  out_eq : ∀ idx, s.out idx = []
  rings_eq : ∀ ptr, s.rings ptr = []
  sent_eq : s.sent = []

/-- The states that the lcores can reach, in any interleaving. -/
def Reachable (timeoutMs : UInt32) (s : Dataplane bits) : Prop :=
  ∃ s₀ : Dataplane bits, s₀.Fresh hash cfg cks args envs txEnvs timeoutMs ∧
    Relation.ReflTransGen (Step arrivals hash cfg cks args envs txEnvs) s₀ s

end System

/-- Every lcore can be started. -/
theorem exists_fresh (hash : FlowKey → UInt32) (cfg : Config) (cks : Checksums)
    (args : List LcoreArg) (envs txEnvs : ℕ → Env ℕ) (timeoutMs : UInt32) (mem : ℕ → Mbuf) :
    ∃ s : Dataplane bits, s.Fresh hash cfg cks args envs txEnvs timeoutMs := by
  have hgraph (idx : ℕ) (arg : LcoreArg) :
      ∃ g, arg.graph bits (envs idx) hash cfg cks = .ok (g, 0) := by
    rw [LcoreArg.graph]
    split
    · exact (wired_monolithic bits _ hash cfg cks).imp fun _ h => h.1
    · exact (wired_rx bits _ hash cfg _).imp fun _ h => h.1
    · exact (wired_worker bits _ hash cfg cks).imp fun _ h => h.1
  choose g hbuild using hgraph
  choose tx htx using fun idx => wired_tx bits (txEnvs idx)
  let arg (idx : ℕ) : LcoreArg := args.getD idx (monoArg 0)
  let world (idx : ℕ) : World bits ℕ :=
    { mem := mem, lb := ((arg idx).lbNode bits timeoutMs).getD (.init bits timeoutMs 0 1) }
  have harg {idx : ℕ} {arg' : LcoreArg} (h : args[idx]? = some arg') : arg idx = arg' := by
    rw [show arg idx = args.getD idx (monoArg 0) from rfl, List.getD_eq_getElem?_getD, h,
      Option.getD_some]
  refine ⟨⟨fun idx => ⟨.init (g idx (arg idx)), world idx⟩, fun idx => ⟨.init (tx idx), world idx⟩,
    fun _ => false, mem, 0, fun _ => [], fun _ => [], []⟩, ?_, fun idx _ _ _ => ?_, ?_,
    fun _ => rfl, rfl, fun _ => rfl, fun _ => rfl, rfl⟩
  · rintro idx arg' h
    rw [← harg h]
    exact ⟨_, 0, hbuild idx _, rfl⟩
  · exact ⟨_, 0, (htx idx).1, rfl⟩
  · rintro idx arg' h lb hlb
    rw [← harg h] at hlb
    exact congrArg (Option.getD · _) (Option.mem_def.mp hlb)

section After

variable {s : Dataplane bits} {r : Run (World bits ℕ) ℕ} {idx idx' k ptr : ℕ} {rest : List ℕ}

theorem core_afterMono_of_ne (h : idx' ≠ idx) : (s.afterMono r idx k).core idx' = s.core idx' :=
  Function.update_of_ne h _ _

theorem core_afterReceive_of_ne (h : idx' ≠ idx) :
    (s.afterReceive r idx k).core idx' = s.core idx' :=
  Function.update_of_ne h _ _

theorem core_afterWork_of_ne (h : idx' ≠ idx) :
    (s.afterWork r idx ptr rest).core idx' = s.core idx' :=
  Function.update_of_ne h _ _

end After

/-! ### The lcores as cores -/

/-- Two functions that agree along an injection still do when both are given a new value. -/
theorem update_eqOn {α β γ : Type*} [DecidableEq α] [DecidableEq β] {φ : α → β} {A : Set α}
    (hφ : A.InjOn φ) {f : α → γ} {g : β → γ} (h : ∀ a ∈ A, f a = g (φ a)) {a₀ : α} (ha₀ : a₀ ∈ A)
    (x : γ) : ∀ a ∈ A, Function.update f a₀ x a = Function.update g (φ a₀) x (φ a) := by
  intro a ha
  rcases eq_or_ne a a₀ with rfl | hne
  · rw [Function.update_self, Function.update_self]
  · rw [Function.update_of_ne hne, Function.update_of_ne (hφ.ne ha ha₀ hne), h a ha]

section Shows

/-- The index of a core among the lcores. -/
def index : Lcore → ℕ
  | .io => 0
  | .worker w => w + 1

/-- The number of a ring of `n` workers. -/
def number (n : ℕ) : Ring → ℕ
  | .worker w => w
  | .egress => n

/-- The IO core and the workers that are there. -/
def IsPresent (n : ℕ) (lcore : Lcore) : Prop := lcore = .io ∨ ∃ w < n, lcore = .worker w

theorem injOn_index (n : ℕ) : {lcore | IsPresent n lcore}.InjOn index := by
  rintro (_ | w) - (_ | w') - h
  · rfl
  · cases h
  · cases h
  · exact congrArg _ (Nat.succ.inj h)

theorem injOn_number (n : ℕ) : {ring | OfDistributor n ring}.InjOn (number n) := by
  rintro _ (rfl | ⟨w, hw, rfl⟩) _ (rfl | ⟨w', hw', rfl⟩) h
  · rfl
  · exact absurd (h : n = w') hw'.ne'
  · exact absurd (h : w = n) hw.ne
  · exact congrArg _ (h : w = w')

/-- The state of an IO core and `n` workers. -/
structure Shows (n : ℕ) (s : Dataplane bits) (t : Cores bits) : Prop where
  rx_eq : t.rx = s.core 0
  tx_eq : t.tx = s.txCore 0
  worker_eq : ∀ w ∈ Set.Iio n, t.worker w = s.core (w + 1)
  mem_eq : t.mem = s.mem
  next_eq : t.next = s.next
  out_eq : ∀ lcore ∈ {lcore | IsPresent n lcore}, t.out lcore = s.out (index lcore)
  rings_eq : ∀ ring ∈ {ring | OfDistributor n ring}, t.rings ring = s.rings (number n ring)
  sent_eq : t.sent = s.sent

variable {arrivals : ℕ → Mbuf} {hash : FlowKey → UInt32} {cfg : Config} {cks : Checksums}
  {envs txEnvs : ℕ → Env ℕ} {portId : UInt16} {n : ℕ} {s s' : Dataplane bits} {t : Cores bits}

/-- The state that a core is put in is that of its lcore. -/
theorem Shows.update_out (h : s.Shows n t) {lcore : Lcore}
    (hlcore : lcore ∈ {lcore | IsPresent n lcore}) {new new' : List (Ring × ℕ)}
    (hnew : new = new') :
    ∀ lcore' ∈ {lcore | IsPresent n lcore}, Function.update t.out lcore new lcore' =
      Function.update s.out (index lcore) new' (index lcore') :=
  hnew ▸ update_eqOn (injOn_index n) h.out_eq hlcore new

theorem Shows.update_rings (h : s.Shows n t) {ring : Ring}
    (hring : ring ∈ {ring | OfDistributor n ring}) {new new' : List ℕ} (hnew : new = new') :
    ∀ ring' ∈ {ring | OfDistributor n ring}, Function.update t.rings ring new ring' =
      Function.update s.rings (number n ring) new' (number n ring') :=
  hnew ▸ update_eqOn (injOn_number n) h.rings_eq hring new

theorem Shows.receive (h : s.Shows n t) {k : ℕ} {r : Run (World bits ℕ) ℕ}
    (hreceived : ((envs 0).received (s.core 0).world.tick).bufs = List.range' s.next k)
    (hmemory : ∀ i, (envs 0).memory (s.core 0).world.tick i =
      if i ∈ List.range' s.next k then arrivals i else s.mem i)
    (hrun : (s.core 0).Runs (buildRxGraph bits (envs 0) hash cfg n) r) :
    ∃ t', Cores.Step arrivals hash cfg cks n ⟨envs 0, txEnvs 0, fun w => envs (w + 1)⟩ t t' ∧
      (s.afterReceive r 0 k).Shows n t' := by
  have hio : Lcore.io ∈ {lcore | IsPresent n lcore} := Or.inl rfl
  rw [← h.rx_eq] at hreceived hmemory hrun
  rw [← h.next_eq] at hreceived hmemory
  rw [← h.mem_eq] at hmemory
  refine ⟨_, .receive hreceived hmemory hrun, ?_, h.tx_eq, fun w hw => ?_, rfl, ?_, ?_, h.rings_eq,
    h.sent_eq⟩
  · exact (Function.update_self 0 _ s.core).symm
  · exact (h.worker_eq w hw).trans (core_afterReceive_of_ne (Nat.succ_ne_zero w)).symm
  · exact congrArg (· + k) h.next_eq
  · exact h.update_out hio (congrArg (· ++ r.world.ledger.enqueued) (h.out_eq _ hio))

theorem Shows.transmit (h : s.Shows n t) {rest : List ℕ} {r : Run (World bits ℕ) ℕ}
    (hring : s.rings n = ((txEnvs 0).received (s.txCore 0).world.tick).bufs ++ rest)
    (hmemory : (txEnvs 0).memory (s.txCore 0).world.tick = s.mem)
    (hrun : (s.txCore 0).Runs (buildTxGraph bits (txEnvs 0)) r) :
    ∃ t', Cores.Step arrivals hash cfg cks n ⟨envs 0, txEnvs 0, fun w => envs (w + 1)⟩ t t' ∧
      (s.afterTransmit r 0 n rest).Shows n t' := by
  have hegress : Ring.egress ∈ {ring | OfDistributor n ring} := Or.inl rfl
  rw [← h.tx_eq] at hring hmemory hrun
  rw [← h.mem_eq] at hmemory
  refine ⟨_, .transmit ((h.rings_eq _ hegress).trans hring) hmemory hrun, h.rx_eq, ?_, h.worker_eq,
    rfl, h.next_eq, h.out_eq, h.update_rings hegress rfl, ?_⟩
  · exact (Function.update_self 0 _ s.txCore).symm
  · exact congrArg (· ++ r.world.ledger.sent) h.sent_eq

theorem Shows.work (h : s.Shows n t) {w : ℕ} (hw : w < n) {rest : List ℕ}
    {r : Run (World bits ℕ) ℕ}
    (hring : s.rings w = ((envs (w + 1)).received (s.core (w + 1)).world.tick).bufs ++ rest)
    (hmemory : (envs (w + 1)).memory (s.core (w + 1)).world.tick = s.mem)
    (hrun : (s.core (w + 1)).Runs (buildWorkerGraph bits (envs (w + 1)) hash cfg cks) r) :
    ∃ t', Cores.Step arrivals hash cfg cks n ⟨envs 0, txEnvs 0, fun w => envs (w + 1)⟩ t t' ∧
      (s.afterWork r (w + 1) w rest).Shows n t' := by
  have hlcore : Lcore.worker w ∈ {lcore | IsPresent n lcore} := Or.inr ⟨w, hw, rfl⟩
  have hworker : Ring.worker w ∈ {ring | OfDistributor n ring} := Or.inr ⟨w, hw, rfl⟩
  rw [← h.worker_eq w hw] at hring hmemory hrun
  rw [← h.mem_eq] at hmemory
  refine ⟨_, .work ((h.rings_eq _ hworker).trans hring) hmemory hrun, ?_, h.tx_eq, ?_, rfl,
    h.next_eq, ?_, h.update_rings hworker rfl, h.sent_eq⟩
  · exact h.rx_eq.trans (core_afterWork_of_ne (Nat.succ_ne_zero w).symm).symm
  · exact update_eqOn Nat.succ_injective.injOn h.worker_eq (show w ∈ Set.Iio n from hw) _
  · exact h.update_out hlcore (congrArg (· ++ r.world.ledger.enqueued) (h.out_eq _ hlcore))

theorem Shows.enqueue (h : s.Shows n t) {lcore : Lcore} (hlcore : IsPresent n lcore) {ring : Ring}
    (hring : OfDistributor n ring) {i : ℕ} {rest : List (Ring × ℕ)}
    (hout : s.out (index lcore) = (ring, i) :: rest) :
    ∃ t', Cores.Step arrivals hash cfg cks n ⟨envs 0, txEnvs 0, fun w => envs (w + 1)⟩ t t' ∧
      (s.afterEnqueue (index lcore) (number n ring) i rest).Shows n t' := by
  exact ⟨_, .flush ((h.out_eq lcore hlcore).trans hout), h.rx_eq, h.tx_eq, h.worker_eq, h.mem_eq,
    h.next_eq, h.update_out hlcore rfl,
    h.update_rings hring (congrArg (· ++ [i]) (h.rings_eq ring hring)), h.sent_eq⟩

/-- Every pointer to a ring of the distributor is the number of the ring. -/
theorem ringOf_eq_some {idx ptr : ℕ} {arg : LcoreArg} {ring : Ring}
    (harg : (Layout.distributor portId n).args[idx]? = some arg) :
    arg.ringOf ring = some ptr ↔ OfDistributor n ring ∧ ptr = number n ring := by
  have hptr : (ioArg portId n).ringOf ring = some ptr ↔
      OfDistributor n ring ∧ ptr = number n ring := by
    rw [Layout.ringOf_ioArg]
    constructor
    · rintro (⟨rfl, rfl⟩ | ⟨rfl, hptr⟩)
      · exact ⟨Or.inl rfl, rfl⟩
      · exact ⟨Or.inr ⟨ptr, hptr, rfl⟩, rfl⟩
    · rintro ⟨rfl | ⟨w, hw, rfl⟩, rfl⟩
      · exact Or.inl ⟨rfl, rfl⟩
      · exact Or.inr ⟨rfl, hw⟩
  obtain ⟨-, rfl⟩ | ⟨w, -, -, rfl⟩ := Layout.args_distributor.mp harg
  · exact hptr
  · rw [Layout.ringOf_workerArg, hptr]

/-- The lcores of the distributor are its cores. -/
theorem exists_index {idx : ℕ} {arg : LcoreArg}
    (harg : (Layout.distributor portId n).args[idx]? = some arg) :
    ∃ lcore, IsPresent n lcore ∧ idx = index lcore := by
  obtain ⟨rfl, -⟩ | ⟨w, hw, rfl, -⟩ := Layout.args_distributor.mp harg
  · exact ⟨.io, Or.inl rfl, rfl⟩
  · exact ⟨.worker w, Or.inr ⟨w, hw, rfl⟩, rfl⟩

/-- The step of an lcore is the step of a core. -/
theorem Shows.step (h : s.Shows n t) (hn : n < kMaxLcores)
    (hstep : Step arrivals hash cfg cks (Layout.distributor portId n).args envs txEnvs s s') :
    ∃ t', Cores.Step arrivals hash cfg cks n ⟨envs 0, txEnvs 0, fun w => envs (w + 1)⟩ t t' ∧
      s'.Shows n t' := by
  cases hstep with
  | mono harg hrole =>
    obtain ⟨-, rfl⟩ | ⟨w, hw, -, rfl⟩ := Layout.args_distributor.mp harg
    · cases hrole
    · cases hrole
  | receive harg hrole _ _ hreceived hmemory hrun =>
    obtain ⟨rfl, rfl⟩ | ⟨w, hw, -, rfl⟩ := Layout.args_distributor.mp harg
    · have hcount : (ioArg portId n).nWorkers.toNat = n :=
        UInt32.toNat_ofNat_of_lt' (hn.trans (by decide))
      rw [LcoreArg.graph, hcount] at hrun
      exact h.receive hreceived hmemory hrun
    · cases hrole
  | transmit harg hrole _ _ hptr hring hmemory hrun =>
    obtain ⟨rfl, rfl⟩ | ⟨w, hw, -, rfl⟩ := Layout.args_distributor.mp harg
    · obtain rfl := Option.some.inj hptr
      exact h.transmit hring hmemory hrun
    · cases hrole
  | work harg hrole _ hptr hring hmemory hrun =>
    obtain ⟨-, rfl⟩ | ⟨w, hw, rfl, rfl⟩ := Layout.args_distributor.mp harg
    · cases hrole
    · obtain rfl := Option.some.inj hptr
      exact h.work hw hring hmemory hrun
  | enqueue harg hout hptr =>
    obtain ⟨hring, rfl⟩ := (ringOf_eq_some harg).mp hptr
    obtain ⟨lcore, hlcore, rfl⟩ := exists_index harg
    exact h.enqueue hlcore hring hout

variable {timeoutMs : UInt32}

/-- The lcores start as the cores do; workers that are not there can be thought of as fresh. -/
theorem Fresh.exists_shows
    (h : s.Fresh hash cfg cks (Layout.distributor portId n).args envs txEnvs timeoutMs)
    (hn : n < kMaxLcores) :
    ∃ t : Cores bits, t.Fresh hash cfg cks n ⟨envs 0, txEnvs 0, fun w => envs (w + 1)⟩ ∧
      s.Shows n t := by
  have hworkers (w : ℕ) (hw : w < n) :
      (s.core (w + 1)).Fresh (buildWorkerGraph bits (envs (w + 1)) hash cfg cks) := by
    have hcore := h.core _ _ (Layout.args_distributor.mpr (Or.inr ⟨w, hw, rfl, rfl⟩))
    rwa [LcoreArg.graph] at hcore
  have hio : (Layout.distributor portId n).args[0]? = some (ioArg portId n) := rfl
  choose g hbuild using fun w => wired_worker bits (envs (w + 1)) hash cfg cks
  let t : Cores bits :=
    { rx := s.core 0
      tx := s.txCore 0
      worker := fun w => if w < n then s.core (w + 1) else ⟨.init (g w), (s.core 0).world⟩
      mem := s.mem }
  refine ⟨t, ⟨?_, h.tx 0 _ hio rfl, fun w => ?_, rfl, fun _ => rfl, fun _ => rfl, rfl⟩,
    ⟨rfl, rfl, fun w hw => if_pos hw, rfl, h.next_eq.symm, fun _ _ => (h.out_eq _).symm,
      fun _ _ => (h.rings_eq _).symm, h.sent_eq.symm⟩⟩
  · have hcount : (ioArg portId n).nWorkers.toNat = n :=
      UInt32.toNat_ofNat_of_lt' (hn.trans (by decide))
    have hrx := h.core 0 _ hio
    rwa [LcoreArg.graph, hcount] at hrx
  · change Core.Fresh _ (if w < n then _ else _)
    split_ifs with hw
    · exact hworkers w hw
    · exact ⟨g w, 0, (hbuild w).1, rfl⟩

/-- The steps of the lcores are steps of the cores. -/
theorem Shows.steps (h : s.Shows n t) (hn : n < kMaxLcores)
    (hsteps : Relation.ReflTransGen
      (Step arrivals hash cfg cks (Layout.distributor portId n).args envs txEnvs) s s') :
    ∃ t', Relation.ReflTransGen
        (Cores.Step arrivals hash cfg cks n ⟨envs 0, txEnvs 0, fun w => envs (w + 1)⟩) t t' ∧
      s'.Shows n t' := by
  induction hsteps with
  | refl => exact ⟨t, .refl, h⟩
  | tail _ hstep ih =>
    obtain ⟨t', hsteps, hshows⟩ := ih
    obtain ⟨t'', ht'', hshows'⟩ := hshows.step hn hstep
    exact ⟨t'', hsteps.tail ht'', hshows'⟩

/-- What the lcores reach is what the cores can reach. -/
theorem Reachable.exists_shows
    (h : Reachable arrivals hash cfg cks (Layout.distributor portId n).args envs txEnvs timeoutMs s)
    (hn : n < kMaxLcores) :
    ∃ t : Cores bits, Cores.Reachable arrivals hash cfg cks n
      ⟨envs 0, txEnvs 0, fun w => envs (w + 1)⟩ t ∧ s.Shows n t := by
  obtain ⟨s₀, hfresh, hsteps⟩ := h
  obtain ⟨t₀, ht₀, hshows₀⟩ := hfresh.exists_shows hn
  obtain ⟨t, ht, hshows⟩ := hshows₀.steps hn hsteps
  exact ⟨t, ⟨t₀, ht₀, ht⟩, hshows⟩

end Shows

/-! ### One lcore -/

section Mono

variable {arrivals : ℕ → Mbuf} {hash : FlowKey → UInt32} {cfg : Config} {cks : Checksums}
  {envs txEnvs : ℕ → Env ℕ} {portId : UInt16} {timeoutMs : UInt32} {s s' : Dataplane bits}

theorem args_mono {idx : ℕ} {arg : LcoreArg} :
    (Layout.mono portId).args[idx]? = some arg ↔ idx = 0 ∧ arg = monoArg portId := by
  cases idx <;> simp [Layout.mono, eq_comm]

/-- A single lcore has no rings. -/
theorem ringOf_monoArg {ring : Ring} {ptr : ℕ} : (monoArg portId).ringOf ring ≠ some ptr := by
  cases ring <;> exact nofun

/-- Every step of a single lcore is a run of `RunMono`. -/
theorem Step.mono_step
    (hstep : Step arrivals hash cfg cks (Layout.mono portId).args envs txEnvs s s') :
    Mono.Step arrivals hash cfg cks (envs 0) ⟨s.core 0, s.next, s.sent⟩
      ⟨s'.core 0, s'.next, s'.sent⟩ := by
  cases hstep with
  | @mono idx k arg r harg hrole hreceived hmemory hrun =>
    obtain ⟨rfl, rfl⟩ := args_mono.mp harg
    have hcore : (s.afterMono r 0 k).core 0 = ⟨r.disp, r.world⟩ := Function.update_self 0 _ s.core
    rw [hcore]
    exact .run hreceived hmemory hrun
  | receive harg hrole =>
    obtain ⟨rfl, rfl⟩ := args_mono.mp harg
    cases hrole
  | transmit harg hrole =>
    obtain ⟨rfl, rfl⟩ := args_mono.mp harg
    cases hrole
  | work harg hrole =>
    obtain ⟨rfl, rfl⟩ := args_mono.mp harg
    cases hrole
  | enqueue harg _ hptr =>
    obtain ⟨rfl, rfl⟩ := args_mono.mp harg
    exact absurd hptr ringOf_monoArg

theorem Reachable.mono_reachable
    (h : Reachable arrivals hash cfg cks (Layout.mono portId).args envs txEnvs timeoutMs s) :
    Mono.Reachable arrivals hash cfg cks (envs 0) ⟨s.core 0, s.next, s.sent⟩ := by
  obtain ⟨s₀, hfresh, hsteps⟩ := h
  have hcore := hfresh.core 0 _ (args_mono.mpr ⟨rfl, rfl⟩)
  rw [LcoreArg.graph] at hcore
  refine ⟨s₀.core 0, hcore, ?_⟩
  clear hcore
  induction hsteps with
  | refl =>
    rw [hfresh.next_eq, hfresh.sent_eq]
  | tail _ hstep ih => exact ih.tail hstep.mono_step

end Mono

/-! ### What is launched -/

/-- The frames that are between `n + 1` lcores: on their rings or on the way there. -/
def underway (n : ℕ) (s : Dataplane bits) : Multiset ℕ :=
  ∑ idx ∈ Finset.range (n + 1), ((s.out idx).map Prod.snd : Multiset ℕ) +
    ∑ ptr ∈ Finset.range (n + 1), (s.rings ptr : Multiset ℕ)

/-- The frames between the lcores are those between the cores. -/
theorem Shows.between_eq {n : ℕ} {s : Dataplane bits} {t : Cores bits} (h : s.Shows n t) :
    t.between n = s.underway n := by
  have hio : t.leaving .io = ((s.out 0).map Prod.snd : List ℕ) :=
    congrArg (fun out : List (Ring × ℕ) => ((out.map Prod.snd : List ℕ) : Multiset ℕ))
      (h.out_eq .io (Or.inl rfl))
  have hegress : t.rings .egress = s.rings n := h.rings_eq .egress (Or.inl rfl)
  have hworkers : ∑ w ∈ Finset.range n, t.atWorker w =
      ∑ w ∈ Finset.range n, (s.rings w : Multiset ℕ) +
        ∑ w ∈ Finset.range n, ((s.out (w + 1)).map Prod.snd : Multiset ℕ) := by
    rw [← Finset.sum_add_distrib]
    refine Finset.sum_congr rfl fun w hw => ?_
    have hw := Finset.mem_range.mp hw
    rw [Cores.atWorker, Cores.leaving, h.rings_eq (.worker w) (Or.inr ⟨w, hw, rfl⟩),
      h.out_eq (.worker w) (Or.inr ⟨w, hw, rfl⟩)]
    rfl
  rw [Cores.between, hio, hegress, hworkers, underway, Finset.sum_range_succ',
    Finset.sum_range_succ]
  abel

end Dataplane

/-- `RunDataplane` launches something if there is an lcore besides the main one, there are not too
many, and the port and the rings can be had. What it launches can start and is, in any state that
the lcores can reach, a single core or an IO core with workers. Either sends the packets with the
same 5-tuple in order, and with workers every frame received was sent, was freed on the way, or is
between the lcores. -/
def LaunchesCores (bits : ℕ) (arrivals : ℕ → Mbuf) (hash : FlowKey → UInt32) (cfg : Config)
    (cks : Checksums) (timeoutMs : UInt32) (envs txEnvs : ℕ → Env ℕ) : Prop :=
  (∀ created port lcoreCount,
    (∃ layout, runDataplane created port lcoreCount = .ok layout) ↔ ∃ portId, port = .ok portId ∧
      (lcoreCount = 2 ∨ ∃ n, 1 ≤ n ∧ n < kMaxLcores ∧ lcoreCount = UInt32.ofNat (n + 2) ∧
        ∀ spec ∈ (Layout.distributor portId n).rings, created spec)) ∧
  ∀ created port lcoreCount layout, runDataplane created port lcoreCount = .ok layout →
    (∃ s : Dataplane bits, s.Fresh hash cfg cks layout.args envs txEnvs timeoutMs) ∧
    ∀ s : Dataplane bits,
      Dataplane.Reachable arrivals hash cfg cks layout.args envs txEnvs timeoutMs s →
      InOrder arrivals s.sent ∧
      (lcoreCount = 2 ∧
          Mono.Reachable arrivals hash cfg cks (envs 0) ⟨s.core 0, s.next, s.sent⟩ ∨
        ∃ n, 1 ≤ n ∧ n < kMaxLcores ∧ lcoreCount = UInt32.ofNat (n + 2) ∧
          ∃ t freed, Cores.Reachable arrivals hash cfg cks n
              ⟨envs 0, txEnvs 0, fun w => envs (w + 1)⟩ t ∧ s.Shows n t ∧
            Cores.History arrivals hash cfg cks n
              ⟨envs 0, txEnvs 0, fun w => envs (w + 1)⟩ t freed ∧
            (List.range s.next : Multiset ℕ) = s.sent + (freed : Multiset ℕ) + s.underway n)

/-- In any interleaving, the lcores that `RunDataplane` launches run as a single core, or as an IO
core with workers. -/
theorem launched_lcores_are_cores (bits : ℕ) (arrivals : ℕ → Mbuf) (hash : FlowKey → UInt32)
    (cfg : Config) (cks : Checksums) (timeoutMs : UInt32) (envs txEnvs : ℕ → Env ℕ) :
    LaunchesCores bits arrivals hash cfg cks timeoutMs envs txEnvs := by
  refine ⟨fun created port lcoreCount => exists_layout_iff, ?_⟩
  intro created port lcoreCount layout hlayout
  refine ⟨Dataplane.exists_fresh hash cfg cks layout.args envs txEnvs timeoutMs arrivals,
    fun s hs => ?_⟩
  obtain ⟨portId, -, ⟨rfl, rfl⟩ | ⟨n, hpos, hn, rfl, rfl, -⟩⟩ := runDataplane_eq_ok_iff.mp hlayout
  · exact ⟨hs.mono_reachable.inOrder, Or.inl ⟨rfl, hs.mono_reachable⟩⟩
  · obtain ⟨t, ht, hshows⟩ := hs.exists_shows hn
    obtain ⟨freed, hhistory⟩ := (Cores.exists_history_iff _ _ _ _ _ _).mpr ht
    have heq := (hhistory.conserved hpos).1.eq
    rw [hshows.next_eq, hshows.sent_eq, hshows.between_eq] at heq
    exact ⟨hshows.sent_eq ▸ ht.inOrder,
      Or.inr ⟨n, hpos, hn, rfl, t, freed, ht, hshows, hhistory, heq⟩⟩

end Cerebellum
