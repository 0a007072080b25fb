import Cerebellum.Nodes.PacketOrder
import Cerebellum.Nodes.Steering

/-!
# No frame is lost between the cores

Every frame that the IO core has received is at all times in exactly one place: it was sent, or
freed by one of the runs, or it is on a ring or on its way to one. No frame is on the ring of a
worker that is not there. This holds in every interleaving of the IO core, the workers and their
ring operations, whatever the rings and the device accept.

The steps are those of `Cores.Step`, each with the frames that the run of its graph freed.

## Main definitions

* `Cerebellum.Cores.Releases`: a step, and the frames freed in it.
* `Cerebellum.Cores.History`: a state that was reached, and the frames freed on the way.
* `Cerebellum.Cores.Conserved`: the invariant.

## Main results

* `Cerebellum.Cores.Conserved.step`: every step keeps the invariant.
* `Cerebellum.cores_conserve_frames`: the result for whole runs.
-/

namespace Cerebellum

open Graph

variable {bits : ℕ} {Handle : Type}

/-- What the nodes of a run freed. -/
def Ledger.released (ledger : Ledger Handle) : List Handle := ledger.freed ++ ledger.dropFreed

/-- The nodes of a run sent nothing. -/
def Ledger.Unsent (ledger : Ledger Handle) : Prop := ledger.sent = []

/-- The nodes of a run enqueued on such rings only. -/
def Ledger.EnqueuedOn (onRing : Ring → Prop) (ledger : Ledger Handle) : Prop :=
  ∀ p ∈ ledger.enqueued, onRing p.1

/-! ### What the runs of the three graphs do -/

section Runs

variable {env : Env Handle} {hash : FlowKey → UInt32} {cfg : Config} {cks : Checksums}
  {g : Graph (World bits Handle) Handle} {root : NodeId} {d : Dispatcher Handle} {fuel : ℕ}
  {world : World bits Handle} {r : Run (World bits Handle) Handle}

/-- What was taken in was sent, enqueued or freed. -/
theorem Disposed.coe_eq (h : Disposed env world d r) :
    ((env.received world.tick).bufs : Multiset Handle) =
      r.world.ledger.sent + r.world.ledger.passed +
        (r.world.ledger.released : Multiset Handle) := by
  rw [← h.taken_eq, ← Multiset.coe_eq_coe.mpr h.perm, Ledger.passed, Ledger.released]
  simp only [← Multiset.coe_add, add_assoc]

/-- Nodes that only pass handles on keep what depends on the ledger. -/
theorem Graph.Node.Passes.keeps {node : Node (World bits Handle) Handle} (h : node.Passes)
    (I : Ledger Handle → Prop) (world : World bits Handle) (input : Graph.Frame Handle)
    (hworld : I world.ledger) : I (node.process world input).1.ledger :=
  (h.ledger_eq world input).symm ▸ hworld

theorem RingTxNode.enqueuedOn (env : Env Handle) {onRing : Ring → Prop} {ring : Ring}
    (hring : onRing ring) (world : World bits Handle) (input : Graph.Frame Handle)
    (hworld : world.ledger.EnqueuedOn onRing) :
    ((RingTxNode.node env ring).process world input).1.ledger.EnqueuedOn onRing := by
  intro p hp
  obtain hp | hp := List.mem_append.mp hp
  · exact hworld p hp
  · obtain ⟨handle, -, rfl⟩ := List.mem_map.mp hp
    exact hring

/-- The output side of the IO core enqueues nothing. -/
theorem tx_disposes (hbuild : buildTxGraph bits env = .ok (g, root))
    (hd : Dispatcher.Reachable g root d)
    (hrun : Dispatcher.runOnce g root fuel .cleared d { world with ledger := {} } = .ok r) :
    ((env.received world.tick).bufs : Multiset Handle) =
      r.world.ledger.sent + (r.world.ledger.released : Multiset Handle) := by
  obtain ⟨g', hg', hrouting, hwired⟩ := wired_tx bits env
  obtain ⟨rfl, rfl⟩ := Prod.mk.inj (Except.ok.inj (hg'.symm.trans hbuild))
  obtain ⟨-, -, log, input, htrace, hlog⟩ := hwired.runOnce hd hrun
  have henqueued : r.world.ledger.enqueued = [] := by
    refine htrace.preserves (I := fun w => w.ledger.enqueued = []) (Q := fun v => v ≠ 0) ?_ hlog ?_
    · intro v node hv hne w input' hw
      obtain rfl := List.mem_singleton.mp (hwired.mem_rest hne hv)
      exact hw
    · rw [(hwired.receives _ _).1]
  rw [(hwired.disposed hd hrun).coe_eq, Ledger.passed, henqueued, List.map_nil, Multiset.coe_nil,
    add_zero]

variable [DecidableEq Handle]

/-- The rings that the input side of the IO core enqueues on. -/
def OfDistributor (nWorkers : ℕ) (ring : Ring) : Prop :=
  ring = .egress ∨ ∃ w < nWorkers, ring = .worker w

omit [DecidableEq Handle] in
theorem SteerNode.unsent (env : Env Handle) (hash : FlowKey → UInt32) (cfg : Config)
    (nWorkers : ℕ) (world : World bits Handle) (input : Graph.Frame Handle)
    (hworld : world.ledger.Unsent) :
    ((SteerNode.node env hash cfg nWorkers).process world input).1.ledger.Unsent := by
  refine moveFrame_preserves (I := fun w : World bits Handle => w.ledger.Unsent)
    (fun w handle hw => ?_) hworld input
  unfold SteerNode.steer
  split
  · exact hw
  · split_ifs <;> exact hw
  · exact hw

omit [DecidableEq Handle] in
theorem SteerNode.enqueuedOn (env : Env Handle) (hash : FlowKey → UInt32) (cfg : Config)
    {nWorkers : ℕ} (hn : 1 ≤ nWorkers) (world : World bits Handle) (input : Graph.Frame Handle)
    (hworld : world.ledger.EnqueuedOn (OfDistributor nWorkers)) :
    ((SteerNode.node env hash cfg nWorkers).process world input).1.ledger.EnqueuedOn
      (OfDistributor nWorkers) := by
  intro p hp
  obtain ⟨-, -, new, henqueued, -, hring⟩ :=
    SteerNode.moveEach_steer env hash cfg nWorkers world input.bufs
  have hp' : p ∈ world.ledger.enqueued ++ new := henqueued ▸ hp
  obtain hp' | hp' := List.mem_append.mp hp'
  · exact hworld p hp'
  · obtain ⟨w, hsteered, hworker⟩ := hring p hp'
    exact Or.inr ⟨w, (steersAsParsed hn (world.mem p.2)).worker_lt w hsteered, hworker⟩

/-- The input side of the IO core sends nothing, and enqueues for its workers and for itself. -/
theorem rx_disposes {nWorkers : ℕ} (hn : 1 ≤ nWorkers)
    (hbuild : buildRxGraph bits env hash cfg nWorkers = .ok (g, root))
    (hd : Dispatcher.Reachable g root d)
    (hrun : Dispatcher.runOnce g root fuel .cleared d { world with ledger := {} } = .ok r) :
    ((env.received world.tick).bufs : Multiset Handle) =
        r.world.ledger.passed + (r.world.ledger.released : Multiset Handle) ∧
      r.world.ledger.EnqueuedOn (OfDistributor nWorkers) := by
  obtain ⟨g', hg', hrouting, hwired⟩ := wired_rx bits env hash cfg nWorkers
  obtain ⟨rfl, rfl⟩ := Prod.mk.inj (Except.ok.inj (hg'.symm.trans hbuild))
  have hsent : r.world.ledger.Unsent :=
    hwired.ledger_induct (I := Ledger.Unsent) (fun _ => rfl)
      ⟨SteerNode.unsent env hash cfg nWorkers, (ArpNode.passes cfg).keeps Ledger.Unsent,
        fun _ _ => id, fun _ _ => id⟩ hd hrun
  refine ⟨?_, ?_⟩
  · rw [(hwired.disposed hd hrun).coe_eq, hsent, Multiset.coe_nil, zero_add]
  · exact hwired.ledger_induct (I := Ledger.EnqueuedOn (OfDistributor nWorkers)) (fun _ => nofun)
      ⟨SteerNode.enqueuedOn env hash cfg hn, (ArpNode.passes cfg).keeps (Ledger.EnqueuedOn _),
        RingTxNode.enqueuedOn env (Or.inl rfl), fun _ _ => id⟩ hd hrun

/-- A worker sends nothing, and enqueues for the IO core. -/
theorem worker_disposes (hbuild : buildWorkerGraph bits env hash cfg cks = .ok (g, root))
    (hd : Dispatcher.Reachable g root d)
    (hrun : Dispatcher.runOnce g root fuel .cleared d { world with ledger := {} } = .ok r) :
    ((env.received world.tick).bufs : Multiset Handle) =
        r.world.ledger.passed + (r.world.ledger.released : Multiset Handle) ∧
      r.world.ledger.EnqueuedOn (· = .egress) := by
  obtain ⟨g', hg', hrouting, hwired⟩ := wired_worker bits env hash cfg cks
  obtain ⟨rfl, rfl⟩ := Prod.mk.inj (Except.ok.inj (hg'.symm.trans hbuild))
  have hsent : r.world.ledger.Unsent :=
    hwired.ledger_induct (I := Ledger.Unsent) (fun _ => rfl)
      ⟨(Ip4ParseNode.passes cfg).keeps Ledger.Unsent, (LbNode.passes env hash).keeps Ledger.Unsent,
        (DnatNode.passes cfg cks).keeps Ledger.Unsent,
        (EtherRewriteNode.passes cfg).keeps Ledger.Unsent, fun _ _ => id, fun _ _ => id⟩ hd hrun
  refine ⟨?_, ?_⟩
  · rw [(hwired.disposed hd hrun).coe_eq, hsent, Multiset.coe_nil, zero_add]
  · let onEgress : Ledger Handle → Prop := Ledger.EnqueuedOn (· = .egress)
    exact hwired.ledger_induct (I := onEgress) (fun _ => nofun)
      ⟨(Ip4ParseNode.passes cfg).keeps onEgress, (LbNode.passes env hash).keeps onEgress,
        (DnatNode.passes cfg cks).keeps onEgress, (EtherRewriteNode.passes cfg).keeps onEgress,
        RingTxNode.enqueuedOn env rfl, fun _ _ => id⟩ hd hrun

end Runs

/-! ### Histories -/

namespace Cores

section Histories

variable (arrivals : ℕ → Mbuf) (hash : FlowKey → UInt32) (cfg : Config) (cks : Checksums)
  (nWorkers : ℕ) (envs : Envs)

/-- One step of one of the cores, and the frames freed in it. -/
inductive Releases : Cores bits → List ℕ → Cores bits → Prop
  | receive {s : Cores bits} {k : ℕ} {r : Run (World bits ℕ) ℕ}
      (hreceived : (envs.rx.received s.rx.world.tick).bufs = List.range' s.next k)
      (hmemory : ∀ i, envs.rx.memory s.rx.world.tick i =
        if i ∈ List.range' s.next k then arrivals i else s.mem i)
      (hrun : s.rx.Runs (buildRxGraph bits envs.rx hash cfg nWorkers) r) :
      Releases s r.world.ledger.released (s.afterReceive r k)
  | work {s : Cores bits} {w : ℕ} {rest : List ℕ} {r : Run (World bits ℕ) ℕ}
      (hring : s.rings (.worker w) =
        ((envs.worker w).received (s.worker w).world.tick).bufs ++ rest)
      (hmemory : (envs.worker w).memory (s.worker w).world.tick = s.mem)
      (hrun : (s.worker w).Runs (buildWorkerGraph bits (envs.worker w) hash cfg cks) r) :
      Releases s r.world.ledger.released (s.afterWork r w rest)
  | transmit {s : Cores bits} {rest : List ℕ} {r : Run (World bits ℕ) ℕ}
      (hring : s.rings .egress = (envs.tx.received s.tx.world.tick).bufs ++ rest)
      (hmemory : envs.tx.memory s.tx.world.tick = s.mem)
      (hrun : s.tx.Runs (buildTxGraph bits envs.tx) r) :
      Releases s r.world.ledger.released (s.afterTransmit r rest)
  | flush {s : Cores bits} {lcore : Lcore} {ring : Ring} {i : ℕ} {rest : List (Ring × ℕ)}
      (hout : s.out lcore = (ring, i) :: rest) :
      Releases s [] (s.afterFlush lcore ring i rest)

/-- The steps that release something are the steps. -/
theorem exists_releases_iff {s s' : Cores bits} :
    (∃ freed, Releases arrivals hash cfg cks nWorkers envs s freed s') ↔
      Step arrivals hash cfg cks nWorkers envs s s' := by
  constructor
  · rintro ⟨freed, h⟩
    cases h with
    | receive hreceived hmemory hrun => exact .receive hreceived hmemory hrun
    | work hring hmemory hrun => exact .work hring hmemory hrun
    | transmit hring hmemory hrun => exact .transmit hring hmemory hrun
    | flush hout => exact .flush hout
  · intro h
    cases h with
    | receive hreceived hmemory hrun => exact ⟨_, .receive hreceived hmemory hrun⟩
    | work hring hmemory hrun => exact ⟨_, .work hring hmemory hrun⟩
    | transmit hring hmemory hrun => exact ⟨_, .transmit hring hmemory hrun⟩
    | flush hout => exact ⟨_, .flush hout⟩

/-- A state that the cores reached, and the frames freed on the way. -/
inductive History : Cores bits → List ℕ → Prop
  | start {s : Cores bits} (hfresh : s.Fresh hash cfg cks nWorkers envs) : History s []
  | step {s s' : Cores bits} {freed new : List ℕ} (h : History s freed)
      (hstep : Releases arrivals hash cfg cks nWorkers envs s new s') : History s' (freed ++ new)

/-- The states with a history are those that can be reached. -/
theorem exists_history_iff {s : Cores bits} :
    (∃ freed, History arrivals hash cfg cks nWorkers envs s freed) ↔
      Reachable arrivals hash cfg cks nWorkers envs s := by
  constructor
  · rintro ⟨freed, h⟩
    induction h with
    | start hfresh => exact ⟨_, hfresh, .refl⟩
    | step _ hstep ih =>
      obtain ⟨s₀, hfresh, hsteps⟩ := ih
      exact ⟨s₀, hfresh, hsteps.tail
        ((exists_releases_iff arrivals hash cfg cks nWorkers envs).mp ⟨_, hstep⟩)⟩
  · rintro ⟨s₀, hfresh, hsteps⟩
    induction hsteps with
    | refl => exact ⟨[], .start hfresh⟩
    | tail _ hstep ih =>
      obtain ⟨freed, h⟩ := ih
      obtain ⟨new, hnew⟩ := (exists_releases_iff arrivals hash cfg cks nWorkers envs).mpr hstep
      exact ⟨freed ++ new, h.step hnew⟩

end Histories

/-! ### Where the frames are -/

section Places

variable (s : Cores bits)

/-- The frames that are on their way from a core to a ring. -/
def leaving (lcore : Lcore) : Multiset ℕ := ((s.out lcore).map Prod.snd : List ℕ)

/-- The frames on the ring of a worker, and those on their way from there. -/
def atWorker (w : ℕ) : Multiset ℕ := (s.rings (.worker w) : Multiset ℕ) + s.leaving (.worker w)

/-- The frames that are between the cores. -/
def between (nWorkers : ℕ) : Multiset ℕ :=
  s.leaving .io + (s.rings .egress : Multiset ℕ) + ∑ w ∈ Finset.range nWorkers, s.atWorker w

end Places

/-- Every frame received was sent or freed, or is between the cores; and nothing is with a worker
that is not there. -/
structure Conserved (nWorkers : ℕ) (s : Cores bits) (freed : List ℕ) : Prop where
  eq : (List.range s.next : Multiset ℕ) = s.sent + (freed : Multiset ℕ) + s.between nWorkers
  io : ∀ p ∈ s.out .io, OfDistributor nWorkers p.1
  worker : ∀ w, ∀ p ∈ s.out (.worker w), p.1 = .egress
  absent : ∀ w, nWorkers ≤ w → s.atWorker w = 0

/-! ### Every step keeps the invariant -/

section Steps

variable {arrivals : ℕ → Mbuf} {hash : FlowKey → UInt32} {cfg : Config} {cks : Checksums}
  {nWorkers : ℕ} {envs : Envs} {s s' : Cores bits} {freed : List ℕ}

/-- Where only worker `w` has other frames than before, so has the sum. -/
theorem sum_atWorker_add {w : ℕ} (hw : w < nWorkers)
    (h : ∀ w' ≠ w, s'.atWorker w' = s.atWorker w') :
    ∑ w ∈ Finset.range nWorkers, s'.atWorker w + s.atWorker w =
      ∑ w ∈ Finset.range nWorkers, s.atWorker w + s'.atWorker w := by
  rw [← Finset.add_sum_erase _ s.atWorker (Finset.mem_range.mpr hw),
    ← Finset.add_sum_erase _ s'.atWorker (Finset.mem_range.mpr hw),
    Finset.sum_congr rfl fun w' hw' => h w' (Finset.ne_of_mem_erase hw')]
  abel

/-- With a worker that has nothing, no packet is on its ring or on its way from there. -/
theorem rings_out_of_atWorker {w : ℕ} (h : s.atWorker w = 0) :
    s.rings (.worker w) = [] ∧ s.out (.worker w) = [] := by
  obtain ⟨hring, hout⟩ := add_eq_zero.mp h
  exact ⟨(Multiset.coe_eq_zero _).mp hring,
    List.map_eq_nil_iff.mp ((Multiset.coe_eq_zero _).mp hout)⟩

theorem Fresh.conserved (h : s.Fresh hash cfg cks nWorkers envs) : s.Conserved nWorkers [] := by
  have hworker (w : ℕ) : s.atWorker w = 0 := by
    simp [atWorker, leaving, h.rings_eq, h.out_eq]
  refine ⟨?_, ?_, ?_, fun w _ => hworker w⟩
  · simp [between, leaving, hworker, h.next_eq, h.sent_eq, h.rings_eq, h.out_eq]
  · rw [h.out_eq]
    exact nofun
  · intro w
    rw [h.out_eq]
    exact nofun

variable {k : ℕ} {r : Run (World bits ℕ) ℕ}

/-- The IO core receives frames. -/
theorem Conserved.receive (h : s.Conserved nWorkers freed) (hn : 1 ≤ nWorkers)
    (hlive : s.rx.Live (buildRxGraph bits envs.rx hash cfg nWorkers))
    (hreceived : (envs.rx.received s.rx.world.tick).bufs = List.range' s.next k)
    (hrun : s.rx.Runs (buildRxGraph bits envs.rx hash cfg nWorkers) r) :
    (s.afterReceive r k).Conserved nWorkers (freed ++ r.world.ledger.released) := by
  obtain ⟨-, g, root, fuel, hbuild, hreach, hrun⟩ := hlive.runs hrun
  obtain ⟨htaken, hrings⟩ := rx_disposes hn hbuild hreach hrun
  rw [hreceived] at htaken
  have hleaving : (s.afterReceive r k).leaving .io = s.leaving .io + r.world.ledger.passed := by
    rw [leaving, out_afterReceive, List.map_append, ← Multiset.coe_add]
    rfl
  have hbetween : (s.afterReceive r k).between nWorkers =
      s.between nWorkers + r.world.ledger.passed := by
    change (s.afterReceive r k).leaving .io + s.rings .egress + ∑ w ∈ _, s.atWorker w = _
    rw [hleaving, between]
    abel
  have hrange : List.range (s.next + k) = List.range s.next ++ List.range' s.next k := by
    rw [List.range_eq_range', List.range_eq_range', ← List.range'_append_1, zero_add]
  refine ⟨?_, ?_, h.worker, h.absent⟩
  · change (List.range (s.next + k) : Multiset ℕ) = s.sent + _ + _
    rw [hrange, ← Multiset.coe_add, h.eq, htaken, hbetween, ← Multiset.coe_add]
    abel
  · intro p hp
    rw [out_afterReceive] at hp
    exact (List.mem_append.mp hp).elim (h.io p) (hrings p)

/-- A worker takes packets from its ring and runs its graph. -/
theorem Conserved.work (h : s.Conserved nWorkers freed) {w : ℕ} {rest : List ℕ}
    (hlive : (s.worker w).Live (buildWorkerGraph bits (envs.worker w) hash cfg cks))
    (hring : s.rings (.worker w) =
      ((envs.worker w).received (s.worker w).world.tick).bufs ++ rest)
    (hrun : (s.worker w).Runs (buildWorkerGraph bits (envs.worker w) hash cfg cks) r) :
    (s.afterWork r w rest).Conserved nWorkers (freed ++ r.world.ledger.released) := by
  obtain ⟨-, g, root, fuel, hbuild, hreach, hrun⟩ := hlive.runs hrun
  obtain ⟨htaken, honEgress⟩ := worker_disposes hbuild hreach hrun
  -- What the worker freed is what it has less than before.
  have hself : s.atWorker w = (s.afterWork r w rest).atWorker w + r.world.ledger.released := by
    rw [atWorker, atWorker, leaving, leaving, rings_afterWork_self, out_afterWork_self, hring,
      List.map_append, ← Multiset.coe_add, ← Multiset.coe_add, htaken, Ledger.passed]
    abel
  have hother (w' : ℕ) (hw' : w' ≠ w) : (s.afterWork r w rest).atWorker w' = s.atWorker w' := by
    rw [atWorker, atWorker, leaving, leaving, rings_afterWork_of_ne (by simpa using hw'),
      out_afterWork_of_ne (by simpa using hw')]
  have hio : (s.afterWork r w rest).out .io = s.out .io := out_afterWork_of_ne (by simp) r rest
  have hsum : ∑ w ∈ Finset.range nWorkers, s.atWorker w =
      ∑ v ∈ Finset.range nWorkers, (s.afterWork r w rest).atWorker v +
        r.world.ledger.released := by
    obtain hw | hw := lt_or_ge w nWorkers
    · have hadd := sum_atWorker_add hw hother
      rw [hself] at hadd
      exact add_right_cancel (b := (s.afterWork r w rest).atWorker w) (by rw [← hadd]; abel)
    · have hnone := hself.symm.trans (h.absent w hw)
      rw [(add_eq_zero.mp hnone).2, add_zero]
      exact Finset.sum_congr rfl fun v hv =>
        (hother v ((Finset.mem_range.mp hv).trans_le hw).ne).symm
  have hbetween : s.between nWorkers =
      (s.afterWork r w rest).between nWorkers + r.world.ledger.released := by
    have hegress : (s.afterWork r w rest).rings .egress = s.rings .egress :=
      rings_afterWork_of_ne (by simp) r rest
    rw [between, between, hsum, leaving, leaving, hio, hegress]
    abel
  refine ⟨?_, ?_, fun w' p hp => ?_, fun w' hw' => ?_⟩
  · change (List.range s.next : Multiset ℕ) = s.sent + _ + _
    rw [h.eq, hbetween, ← Multiset.coe_add]
    abel
  · rw [hio]
    exact h.io
  · obtain rfl | hne := eq_or_ne w' w
    · rw [out_afterWork_self] at hp
      exact (List.mem_append.mp hp).elim (h.worker w' p) (honEgress p)
    · rw [out_afterWork_of_ne (by simpa using hne)] at hp
      exact h.worker w' p hp
  · obtain rfl | hne := eq_or_ne w' w
    · exact (add_eq_zero.mp (hself.symm.trans (h.absent w' hw'))).1
    · rw [hother w' hne]
      exact h.absent w' hw'

theorem rings_afterTransmit_self (r : Run (World bits ℕ) ℕ) (rest : List ℕ) :
    (s.afterTransmit r rest).rings .egress = rest := by
  simp [afterTransmit]

theorem rings_afterTransmit_of_ne {ring : Ring} (h : ring ≠ .egress) (r : Run (World bits ℕ) ℕ)
    (rest : List ℕ) : (s.afterTransmit r rest).rings ring = s.rings ring :=
  Function.update_of_ne h _ _

/-- The IO core takes packets from the ring back and runs its output graph. -/
theorem Conserved.transmit (h : s.Conserved nWorkers freed) {rest : List ℕ}
    (hlive : s.tx.Live (buildTxGraph bits envs.tx))
    (hring : s.rings .egress = (envs.tx.received s.tx.world.tick).bufs ++ rest)
    (hrun : s.tx.Runs (buildTxGraph bits envs.tx) r) :
    (s.afterTransmit r rest).Conserved nWorkers (freed ++ r.world.ledger.released) := by
  obtain ⟨-, g, root, fuel, hbuild, hreach, hrun⟩ := hlive.runs hrun
  have htaken := tx_disposes hbuild hreach hrun
  have hworker (w : ℕ) : (s.afterTransmit r rest).atWorker w = s.atWorker w := by
    rw [atWorker, rings_afterTransmit_of_ne (by simp)]
    rfl
  have hbetween : s.between nWorkers = (s.afterTransmit r rest).between nWorkers +
      ((envs.tx.received s.tx.world.tick).bufs : Multiset ℕ) := by
    change s.leaving .io + _ + _ = s.leaving .io + _ + _ + _
    rw [rings_afterTransmit_self, hring, ← Multiset.coe_add,
      Finset.sum_congr rfl fun w _ => hworker w]
    abel
  refine ⟨?_, h.io, h.worker, fun w hw => ?_⟩
  · change (List.range s.next : Multiset ℕ) = (s.sent ++ r.world.ledger.sent : List ℕ) + _ + _
    rw [h.eq, hbetween, htaken, ← Multiset.coe_add, ← Multiset.coe_add]
    abel
  · rw [hworker w]
    exact h.absent w hw

section Flush

variable {lcore : Lcore} {ring : Ring} {i : ℕ} {rest : List (Ring × ℕ)}

theorem coe_rings_afterFlush (ring' : Ring) :
    ((s.afterFlush lcore ring i rest).rings ring' : Multiset ℕ) =
      s.rings ring' + if ring' = ring then {i} else 0 := by
  rw [rings_afterFlush, ← Multiset.coe_add]
  split_ifs <;> rfl

theorem leaving_eq_afterFlush (hout : s.out lcore = (ring, i) :: rest) (lcore' : Lcore) :
    s.leaving lcore' = (if lcore' = lcore then {i} else 0) +
      (s.afterFlush lcore ring i rest).leaving lcore' := by
  rw [leaving, out_eq_afterFlush hout lcore', List.map_append, ← Multiset.coe_add]
  split_ifs <;> rfl

/-- The distributor has one ring back and one for each worker. -/
theorem sum_ofDistributor (hring : OfDistributor nWorkers ring) :
    (if .egress = ring then {i} else 0) +
      ∑ w ∈ Finset.range nWorkers, (if .worker w = ring then {i} else 0) = ({i} : Multiset ℕ) := by
  obtain rfl | ⟨w, hw, rfl⟩ := hring
  · simp
  · simp [hw]

/-- A packet leaves the IO core, or a worker that is there. -/
theorem Conserved.sum_leaving (h : s.Conserved nWorkers freed)
    (hout : s.out lcore = (ring, i) :: rest) :
    (if .io = lcore then {i} else 0) +
      ∑ w ∈ Finset.range nWorkers, (if .worker w = lcore then {i} else 0) = ({i} : Multiset ℕ) := by
  cases lcore with
  | io => simp
  | worker w =>
    have hw : w < nWorkers := by
      by_contra hge
      have hnone := (rings_out_of_atWorker (h.absent w (not_lt.mp hge))).2
      exact absurd (hout.symm.trans hnone) (List.cons_ne_nil _ _)
    simp [hw]

/-- A packet is put on its ring. -/
theorem Conserved.flush (h : s.Conserved nWorkers freed)
    (hout : s.out lcore = (ring, i) :: rest) :
    (s.afterFlush lcore ring i rest).Conserved nWorkers freed := by
  have hhead : (ring, i) ∈ s.out lcore := hout ▸ List.mem_cons_self
  have hring : OfDistributor nWorkers ring := by
    cases lcore with
    | io => exact h.io _ hhead
    | worker w => exact Or.inl (h.worker w _ hhead)
  have hmem {lcore' : Lcore} {p : Ring × ℕ}
      (hp : p ∈ (s.afterFlush lcore ring i rest).out lcore') : p ∈ s.out lcore' := by
    rw [out_eq_afterFlush hout lcore']
    exact List.mem_append_right _ hp
  have hworker (w : ℕ) : s.atWorker w + (if .worker w = ring then {i} else 0) =
      (s.afterFlush lcore ring i rest).atWorker w + if .worker w = lcore then {i} else 0 := by
    rw [atWorker, atWorker, coe_rings_afterFlush, leaving_eq_afterFlush hout]
    abel
  have hbetween : (s.afterFlush lcore ring i rest).between nWorkers = s.between nWorkers := by
    have hsum := Finset.sum_congr rfl fun w (_ : w ∈ Finset.range nWorkers) => hworker w
    rw [Finset.sum_add_distrib, Finset.sum_add_distrib] at hsum
    have hmoved : (s.afterFlush lcore ring i rest).between nWorkers +
        ((if .io = lcore then {i} else 0) +
          ∑ w ∈ Finset.range nWorkers, (if .worker w = lcore then {i} else 0)) =
        s.between nWorkers + ((if .egress = ring then {i} else 0) +
          ∑ w ∈ Finset.range nWorkers, (if .worker w = ring then {i} else 0)) := by
      calc
        _ = (s.afterFlush lcore ring i rest).leaving .io + s.rings .egress +
            (if .egress = ring then {i} else 0) + (if .io = lcore then {i} else 0) +
            (∑ w ∈ Finset.range nWorkers, (s.afterFlush lcore ring i rest).atWorker w +
              ∑ w ∈ Finset.range nWorkers, if .worker w = lcore then {i} else 0) := by
          rw [between, coe_rings_afterFlush]
          abel
        _ = _ := by
          rw [← hsum, between, leaving_eq_afterFlush hout .io]
          abel
    rwa [h.sum_leaving hout, sum_ofDistributor hring, add_left_inj] at hmoved
  refine ⟨?_, fun p hp => h.io p (hmem hp), fun w p hp => h.worker w p (hmem hp), fun w hw => ?_⟩
  · rw [hbetween]
    exact h.eq
  · have hto : Ring.worker w ≠ ring := by
      rintro rfl
      obtain hring | ⟨w', hw', hring⟩ := hring
      · exact Ring.noConfusion hring
      · exact absurd hw' (not_lt.mpr (Ring.worker.inj hring ▸ hw))
    have hnone := hworker w
    rw [h.absent w hw, if_neg hto, add_zero] at hnone
    exact (add_eq_zero.mp hnone.symm).1

end Flush

/-- Every step keeps the invariant. -/
theorem Conserved.step {new : List ℕ} (h : s.Conserved nWorkers freed) (hn : 1 ≤ nWorkers)
    (hlive : s.Live hash cfg cks nWorkers envs)
    (hstep : Releases arrivals hash cfg cks nWorkers envs s new s') :
    s'.Conserved nWorkers (freed ++ new) := by
  cases hstep with
  | receive hreceived _ hrun => exact h.receive hn hlive.rx hreceived hrun
  | work hring _ hrun => exact h.work (hlive.worker _) hring hrun
  | transmit hring _ hrun => exact h.transmit hlive.tx hring hrun
  | flush hout =>
    rw [List.append_nil]
    exact h.flush hout

/-- The invariant holds in every history. -/
theorem History.conserved (hn : 1 ≤ nWorkers)
    (h : History arrivals hash cfg cks nWorkers envs s freed) :
    s.Conserved nWorkers freed ∧ s.Live hash cfg cks nWorkers envs := by
  induction h with
  | start hfresh =>
    exact ⟨hfresh.conserved, hfresh.rx.live, hfresh.tx.live, fun w => (hfresh.worker w).live⟩
  | step _ hstep ih =>
    exact ⟨ih.1.step hn ih.2 hstep,
      ih.2.step ((exists_releases_iff arrivals hash cfg cks nWorkers envs).mp ⟨_, hstep⟩)⟩

end Steps

end Cores

/-- Every frame that the IO core received is in one place: it was sent or freed, or it is between
the cores, and there is nothing on the ring of a worker that is not there. This holds in every
state that can be reached, with one worker or more. -/
def ConservesFrames (bits : ℕ) (arrivals : ℕ → Mbuf) (hash : FlowKey → UInt32) (cfg : Config)
    (cks : Checksums) (nWorkers : ℕ) (envs : Envs) : Prop :=
  (∀ s : Cores bits, Cores.Reachable arrivals hash cfg cks nWorkers envs s →
    ∃ freed, Cores.History arrivals hash cfg cks nWorkers envs s freed) ∧
  ∀ (s : Cores bits) (freed : List ℕ), Cores.History arrivals hash cfg cks nWorkers envs s freed →
    (List.range s.next : Multiset ℕ) = s.sent + (freed : Multiset ℕ) + s.between nWorkers ∧
    (∀ i < s.next, ((s.sent : Multiset ℕ) + freed + s.between nWorkers).count i = 1) ∧
    ∀ w, nWorkers ≤ w → s.rings (.worker w) = []

/-- In any interleaving of the IO core and its workers no frame is lost, and none is sent or freed
twice. -/
theorem cores_conserve_frames (bits : ℕ) (arrivals : ℕ → Mbuf) (hash : FlowKey → UInt32)
    (cfg : Config) (cks : Checksums) (nWorkers : ℕ) (envs : Envs) :
    ConservesFrames bits arrivals hash cfg cks (nWorkers + 1) envs := by
  refine ⟨fun s h => (Cores.exists_history_iff _ _ _ _ _ _).mpr h, fun s freed h => ?_⟩
  obtain ⟨hconserved, -⟩ := h.conserved (Nat.le_add_left 1 nWorkers)
  refine ⟨hconserved.eq, fun i hi => ?_, fun w hw => ?_⟩
  · rw [← hconserved.eq, Multiset.coe_count]
    exact List.count_eq_one_of_mem List.nodup_range (List.mem_range.mpr hi)
  · exact (Cores.rings_out_of_atWorker (hconserved.absent w hw)).1

end Cerebellum
