import Cerebellum.Nodes.Pipeline
import Cerebellum.Nodes.RunOrder

/-!
# Packet order

Packets with the same 5-tuple are transmitted in the order in which they were received, on a single
core and with any number of workers. Received frames are numbered; the number of a frame is its
handle, so that a later frame has a larger handle.

On a single core, bursts are received and run through the graph, one after the other (`RunMono` in
`main.cpp`). With workers, the cores share the packet buffers and the rings, which are FIFO queues.
A run of a core takes a burst from its ring or from the device when it begins. What it enqueues goes
through a list of its own, `out`, and from there to the rings, one packet at a time and in order,
whenever it likes: so the cores' ring operations are interleaved in any way. All else that a run
reads from outside, the pool, the clock and the room in the rings, may be anything.

## Main definitions

* `Cerebellum.Mono`, `Cerebellum.Mono.Step`: a single core.
* `Cerebellum.Cores`, `Cerebellum.Cores.Step`: the IO core, the workers and the rings.
* `Cerebellum.InOrder`: the order within 5-tuples.

## Main results

* `Cerebellum.tuple_order_preserved`: what is sent is in order, in every reachable state.
-/

namespace Cerebellum

open Graph

deriving instance DecidableEq for Ring

variable {bits : ℕ}

/-- Of two frames with the same 5-tuple the first one to be transmitted was received first. -/
def InOrder (arrivals : ℕ → Mbuf) (sent : List ℕ) : Prop :=
  sent.Pairwise fun i j => ∀ key, (arrivals i).frame.fiveTuple = some key →
    (arrivals j).frame.fiveTuple = some key → i < j

/-! ### One core -/

/-- The dispatcher of a graph and the state of its nodes. -/
structure Core (bits : ℕ) where
  disp : Dispatcher ℕ
  world : World bits ℕ

namespace Core

variable (build : Except String (Graph (World bits ℕ) ℕ × NodeId)) (core : Core bits)

/-- The graph is built, and the dispatcher constructed. -/
def Fresh : Prop :=
  ∃ g root, build = .ok (g, root) ∧ core.disp = .init g

/-- `frame.Clear(); dispatcher.RunOnce(frame);` -/
def Runs (r : Run (World bits ℕ) ℕ) : Prop :=
  ∃ g root fuel, build = .ok (g, root) ∧
    Dispatcher.runOnce g root fuel .cleared core.disp { core.world with ledger := {} } = .ok r

/-- The dispatcher has run this graph before, any number of times. -/
def Live : Prop :=
  ∃ g root, build = .ok (g, root) ∧ Dispatcher.Reachable g root core.disp

variable {build core}

theorem Fresh.live (h : core.Fresh build) : core.Live build := by
  obtain ⟨g, root, hbuild, hdisp⟩ := h
  exact ⟨g, root, hbuild, hdisp ▸ .init⟩

/-- A run of a core is a run of its graph by a dispatcher that can be reached, and may be followed
by another one. -/
theorem Live.runs (h : core.Live build) {r : Run (World bits ℕ) ℕ} (hrun : core.Runs build r) :
    Live build ⟨r.disp, r.world⟩ ∧ ∃ g root fuel, build = .ok (g, root) ∧
      Dispatcher.Reachable g root core.disp ∧
      Dispatcher.runOnce g root fuel .cleared core.disp { core.world with ledger := {} } =
        .ok r := by
  obtain ⟨g, root, hbuild, hreach⟩ := h
  obtain ⟨g', root', fuel, hbuild', hrun⟩ := hrun
  obtain ⟨rfl, rfl⟩ := Prod.mk.inj (Except.ok.inj (hbuild.symm.trans hbuild'))
  exact ⟨⟨g, root, hbuild, hreach.runOnce hrun⟩, g, root, fuel, hbuild, hreach, hrun⟩

end Core

section Systems

variable (arrivals : ℕ → Mbuf) (hash : FlowKey → UInt32) (cfg : Config) (cks : Checksums)

/-! ### A single core -/

/-- A single core, with the number of frames received and the frames sent so far. -/
structure Mono (bits : ℕ) where
  core : Core bits
  next : ℕ := 0
  sent : List ℕ := []

/-- One pass of the loop of `RunMono`, with the next `k` frames. -/
inductive Mono.Step (env : Env ℕ) : Mono bits → Mono bits → Prop
  | run {s : Mono bits} {k : ℕ} {r : Run (World bits ℕ) ℕ}
      (hreceived : (env.received s.core.world.tick).bufs = List.range' s.next k)
      (hmemory : ∀ i ∈ List.range' s.next k, env.memory s.core.world.tick i = arrivals i)
      (hrun : s.core.Runs (buildMonolithicGraph bits env hash cfg cks) r) :
      Step env s
        { core := ⟨r.disp, r.world⟩, next := s.next + k, sent := s.sent ++ r.world.ledger.sent }

/-- The states that a single core can reach. -/
def Mono.Reachable (env : Env ℕ) (s : Mono bits) : Prop :=
  ∃ core : Core bits, core.Fresh (buildMonolithicGraph bits env hash cfg cks) ∧
    Relation.ReflTransGen (Step arrivals hash cfg cks env) { core := core } s

/-! ### The IO core and the workers -/

/-- The cores that share the rings. -/
inductive Lcore
  | io
  | worker (w : ℕ)
deriving DecidableEq

/-- The graphs of the IO core and of the workers, the packet buffers, the number of frames received,
what each core has still to put on rings, the rings, oldest packet first, and the frames sent. -/
structure Cores (bits : ℕ) where
  rx : Core bits
  tx : Core bits
  worker : ℕ → Core bits
  mem : ℕ → Mbuf
  next : ℕ := 0
  out : Lcore → List (Ring × ℕ) := fun _ => []
  rings : Ring → List ℕ := fun _ => []
  sent : List ℕ := []

namespace Cores

variable (s : Cores bits) (r : Run (World bits ℕ) ℕ)

/-- The IO core has received `k` frames and run its input graph. -/
def afterReceive (k : ℕ) : Cores bits :=
  { s with
    rx := ⟨r.disp, r.world⟩
    mem := r.world.mem
    next := s.next + k
    out := Function.update s.out .io (s.out .io ++ r.world.ledger.enqueued) }

/-- Worker `w` has taken packets from its ring, with `rest` left, and run its graph. -/
def afterWork (w : ℕ) (rest : List ℕ) : Cores bits :=
  { s with
    worker := Function.update s.worker w ⟨r.disp, r.world⟩
    mem := r.world.mem
    out := Function.update s.out (.worker w) (s.out (.worker w) ++ r.world.ledger.enqueued)
    rings := Function.update s.rings (.worker w) rest }

/-- The IO core has taken packets from the ring back, with `rest` left, and run its output graph. -/
def afterTransmit (rest : List ℕ) : Cores bits :=
  { s with
    tx := ⟨r.disp, r.world⟩
    mem := r.world.mem
    rings := Function.update s.rings .egress rest
    sent := s.sent ++ r.world.ledger.sent }

/-- A core has put packet `i` on a ring, with `rest` left to be put on rings. -/
def afterFlush (lcore : Lcore) (ring : Ring) (i : ℕ) (rest : List (Ring × ℕ)) : Cores bits :=
  { s with
    out := Function.update s.out lcore rest
    rings := Function.update s.rings ring (s.rings ring ++ [i]) }

end Cores

/-- The world outside as each of the graphs sees it. -/
structure Envs where
  rx : Env ℕ
  tx : Env ℕ
  worker : ℕ → Env ℕ

/-- One step of one of the cores. -/
inductive Cores.Step (nWorkers : ℕ) (envs : Envs) : Cores bits → Cores bits → Prop
  /-- The IO core receives the next `k` frames and runs its input graph. -/
  | receive {s : Cores bits} {k : ℕ} {r : Run (World bits ℕ) ℕ}
      (hreceived : (envs.rx.received s.rx.world.tick).bufs = List.range' s.next k)
      (hmemory : ∀ i, envs.rx.memory s.rx.world.tick i =
        if i ∈ List.range' s.next k then arrivals i else s.mem i)
      (hrun : s.rx.Runs (buildRxGraph bits envs.rx hash cfg nWorkers) r) :
      Step nWorkers envs s (s.afterReceive r k)
  /-- A worker takes packets from its ring and runs its graph. -/
  | work {s : Cores bits} {w : ℕ} {rest : List ℕ} {r : Run (World bits ℕ) ℕ}
      (hring : s.rings (.worker w) =
        ((envs.worker w).received (s.worker w).world.tick).bufs ++ rest)
      (hmemory : (envs.worker w).memory (s.worker w).world.tick = s.mem)
      (hrun : (s.worker w).Runs (buildWorkerGraph bits (envs.worker w) hash cfg cks) r) :
      Step nWorkers envs s (s.afterWork r w rest)
  /-- The IO core takes packets from the ring back and runs its output graph. -/
  | transmit {s : Cores bits} {rest : List ℕ} {r : Run (World bits ℕ) ℕ}
      (hring : s.rings .egress = (envs.tx.received s.tx.world.tick).bufs ++ rest)
      (hmemory : envs.tx.memory s.tx.world.tick = s.mem)
      (hrun : s.tx.Runs (buildTxGraph bits envs.tx) r) :
      Step nWorkers envs s (s.afterTransmit r rest)
  /-- A packet that a core has enqueued is put on its ring. -/
  | flush {s : Cores bits} {lcore : Lcore} {ring : Ring} {i : ℕ} {rest : List (Ring × ℕ)}
      (hout : s.out lcore = (ring, i) :: rest) :
      Step nWorkers envs s (s.afterFlush lcore ring i rest)

/-- The start: the graphs are built, the rings are empty, and nothing was received. -/
structure Cores.Fresh (nWorkers : ℕ) (envs : Envs) (s : Cores bits) : Prop where
  rx : s.rx.Fresh (buildRxGraph bits envs.rx hash cfg nWorkers)
  tx : s.tx.Fresh (buildTxGraph bits envs.tx)
  worker : ∀ w, (s.worker w).Fresh (buildWorkerGraph bits (envs.worker w) hash cfg cks)
  next_eq : s.next = 0
  out_eq : ∀ lcore, s.out lcore = []
  rings_eq : ∀ ring, s.rings ring = []
  sent_eq : s.sent = []

/-- The states that the cores can reach, in any interleaving. -/
def Cores.Reachable (nWorkers : ℕ) (envs : Envs) (s : Cores bits) : Prop :=
  ∃ s₀ : Cores bits, s₀.Fresh hash cfg cks nWorkers envs ∧
    Relation.ReflTransGen (Step arrivals hash cfg cks nWorkers envs) s₀ s

end Systems

/-! ### Order -/

section Order

variable {arrivals : ℕ → Mbuf} {hash : FlowKey → UInt32} {cfg : Config} {cks : Checksums}
  {key : FlowKey}

/-- The frames with the 5-tuple `key`. -/
def hasTuple (arrivals : ℕ → Mbuf) (key : FlowKey) (i : ℕ) : Bool :=
  (arrivals i).frame.fiveTuple = some key

theorem hasTuple_iff {i : ℕ} :
    hasTuple arrivals key i = true ↔ (arrivals i).frame.fiveTuple = some key :=
  decide_eq_true_iff

/-- The order within all 5-tuples, from the order within each. -/
theorem inOrder_of_forall {sent : List ℕ}
    (h : ∀ key, (sent.filter (hasTuple arrivals key)).Pairwise (· < ·)) :
    InOrder arrivals sent := by
  rw [InOrder, List.pairwise_iff_getElem]
  intro a b ha hb hab key hi hj
  have hkey := List.pairwise_filter.mp (h key)
  rw [List.pairwise_iff_getElem] at hkey
  exact hkey a b ha hb hab (hasTuple_iff.mpr hi) (hasTuple_iff.mpr hj)

/-- New frames come behind all earlier ones. -/
theorem pairwise_append_burst {P : ℕ → Bool} {old new : List ℕ} {n k : ℕ}
    (hold : (old.filter P).Pairwise (· < ·)) (hlt : ∀ i ∈ old, P i → i < n)
    (hnew : (new.filter P).Sublist ((List.range' n k).filter P)) :
    ((old ++ new).filter P).Pairwise (· < ·) ∧ ∀ i ∈ old ++ new, P i → i < n + k := by
  have hburst {i : ℕ} (hi : i ∈ new) (hp : P i) : n ≤ i ∧ i < n + k := by
    have hmem := hnew.subset (List.mem_filter.mpr ⟨hi, hp⟩)
    exact List.mem_range'_1.mp (List.mem_filter.mp hmem).1
  constructor
  · rw [List.filter_append, List.pairwise_append]
    refine ⟨hold, ((List.pairwise_lt_range' (s := n) (n := k)).filter P).sublist hnew,
      fun i hi j hj => ?_⟩
    obtain ⟨hi, hpi⟩ := List.mem_filter.mp hi
    obtain ⟨hj, hpj⟩ := List.mem_filter.mp hj
    exact (hlt i hi hpi).trans_le (hburst hj hpj).1
  · intro i hi hp
    rcases List.mem_append.mp hi with hi | hi
    · exact (hlt i hi hp).trans_le (Nat.le_add_right n k)
    · exact (hburst hi hp).2

/-- On a single core: what was sent is in order, and was received. -/
structure Mono.Ordered (arrivals : ℕ → Mbuf) (key : FlowKey)
    (build : Except String (Graph (World bits ℕ) ℕ × NodeId)) (s : Mono bits) : Prop where
  sorted : (s.sent.filter (hasTuple arrivals key)).Pairwise (· < ·)
  lt_next : ∀ i ∈ s.sent, hasTuple arrivals key i → i < s.next
  live : s.core.Live build

theorem Mono.Ordered.step {env : Env ℕ} {s s' : Mono bits}
    (h : s.Ordered arrivals key (buildMonolithicGraph bits env hash cfg cks))
    (hstep : Mono.Step arrivals hash cfg cks env s s') :
    s'.Ordered arrivals key (buildMonolithicGraph bits env hash cfg cks) := by
  cases hstep with
  | @run k r hreceived hmemory hrun =>
    obtain ⟨hlive, g, root, fuel, hbuild, hreach, hrun⟩ := h.live.runs hrun
    have hP : ∀ i ∈ (env.received s.core.world.tick).bufs, hasTuple arrivals key i →
        (env.memory s.core.world.tick i).frame.fiveTuple = some key := by
      rw [hreceived]
      intro i hi hp
      rw [hmemory i hi]
      exact hasTuple_iff.mp hp
    have hsub := monolithic_in_order hbuild hreach hrun hP
    rw [hreceived] at hsub
    obtain ⟨hsorted, hlt⟩ := pairwise_append_burst h.sorted h.lt_next hsub
    exact ⟨hsorted, hlt, hlive⟩

theorem Mono.Reachable.inOrder {env : Env ℕ} {s : Mono bits}
    (h : Mono.Reachable arrivals hash cfg cks env s) : InOrder arrivals s.sent := by
  obtain ⟨core, hfresh, hsteps⟩ := h
  refine inOrder_of_forall fun key => ?_
  have hordered : s.Ordered arrivals key (buildMonolithicGraph bits env hash cfg cks) := by
    induction hsteps with
    | refl => exact ⟨List.Pairwise.nil, nofun, hfresh.live⟩
    | tail _ hstep ih => exact ih.step hstep
  exact hordered.sorted

namespace Cores

variable {nWorkers : ℕ} {envs : Envs} {w₀ : ℕ} {s s' : Cores bits}

/-- What was sent, what is on its way from worker `w₀` to the device, what waits for this worker,
and what the IO core has still to put on rings. -/
def line (w₀ : ℕ) (s : Cores bits) : List ℕ :=
  s.sent ++ s.rings .egress ++ (s.out (.worker w₀)).map Prod.snd ++ s.rings (.worker w₀) ++
    (s.out .io).map Prod.snd

/-- The frames with the 5-tuple are all on their way through worker `w₀`, in order, and until it
takes them their buffers hold what was received. -/
structure Ordered (arrivals : ℕ → Mbuf) (key : FlowKey) (w₀ : ℕ) (s : Cores bits) : Prop where
  sorted : ((s.line w₀).filter (hasTuple arrivals key)).Pairwise (· < ·)
  lt_next : ∀ i ∈ s.line w₀, hasTuple arrivals key i → i < s.next
  io : ∀ p ∈ s.out .io, hasTuple arrivals key p.2 → p.1 = .worker w₀
  worker : ∀ w, ∀ p ∈ s.out (.worker w), p.1 = .egress
  away : ∀ w ≠ w₀, ∀ i ∈ s.rings (.worker w) ++ (s.out (.worker w)).map Prod.snd,
    ¬ hasTuple arrivals key i
  frames : ∀ i ∈ s.rings (.worker w₀) ++ (s.out .io).map Prod.snd, hasTuple arrivals key i →
    (s.mem i).frame.fiveTuple = some key

theorem out_afterReceive (r : Run (World bits ℕ) ℕ) (k : ℕ) :
    (s.afterReceive r k).out .io = s.out .io ++ r.world.ledger.enqueued :=
  rfl

theorem worker_afterWork_self (r : Run (World bits ℕ) ℕ) (w : ℕ) (rest : List ℕ) :
    (s.afterWork r w rest).worker w = ⟨r.disp, r.world⟩ :=
  Function.update_self _ _ _

theorem worker_afterWork_of_ne {w w' : ℕ} (h : w' ≠ w) (r : Run (World bits ℕ) ℕ)
    (rest : List ℕ) : (s.afterWork r w rest).worker w' = s.worker w' :=
  Function.update_of_ne h _ _

theorem out_afterWork_self (r : Run (World bits ℕ) ℕ) (w : ℕ) (rest : List ℕ) :
    (s.afterWork r w rest).out (.worker w) = s.out (.worker w) ++ r.world.ledger.enqueued :=
  Function.update_self _ _ _

theorem rings_afterWork_self (r : Run (World bits ℕ) ℕ) (w : ℕ) (rest : List ℕ) :
    (s.afterWork r w rest).rings (.worker w) = rest :=
  Function.update_self _ _ _

theorem out_afterWork_of_ne {lcore : Lcore} {w : ℕ} (h : lcore ≠ .worker w)
    (r : Run (World bits ℕ) ℕ) (rest : List ℕ) : (s.afterWork r w rest).out lcore = s.out lcore :=
  Function.update_of_ne h _ _

theorem rings_afterWork_of_ne {ring : Ring} {w : ℕ} (h : ring ≠ .worker w)
    (r : Run (World bits ℕ) ℕ) (rest : List ℕ) :
    (s.afterWork r w rest).rings ring = s.rings ring :=
  Function.update_of_ne h _ _

/-- The dispatchers of all cores have run their graphs. -/
structure Live (hash : FlowKey → UInt32) (cfg : Config) (cks : Checksums) (nWorkers : ℕ)
    (envs : Envs) (s : Cores bits) : Prop where
  rx : s.rx.Live (buildRxGraph bits envs.rx hash cfg nWorkers)
  tx : s.tx.Live (buildTxGraph bits envs.tx)
  worker : ∀ w, (s.worker w).Live (buildWorkerGraph bits (envs.worker w) hash cfg cks)

theorem Live.step (h : s.Live hash cfg cks nWorkers envs)
    (hstep : Step arrivals hash cfg cks nWorkers envs s s') :
    s'.Live hash cfg cks nWorkers envs := by
  cases hstep with
  | receive _ _ hrun => exact ⟨(h.rx.runs hrun).1, h.tx, h.worker⟩
  | @work w rest r _ _ hrun =>
    refine ⟨h.rx, h.tx, fun w' => ?_⟩
    by_cases hw : w' = w
    · subst hw
      rw [worker_afterWork_self]
      exact ((h.worker w').runs hrun).1
    · rw [worker_afterWork_of_ne hw]
      exact h.worker w'
  | transmit _ _ hrun => exact ⟨h.rx, (h.tx.runs hrun).1, h.worker⟩
  | flush _ => exact ⟨h.rx, h.tx, h.worker⟩

/-- A step that only takes frames out of the line leaves it in order. -/
theorem Ordered.sublist (h : s.Ordered arrivals key w₀) {hs : List ℕ}
    (hsub : (hs.filter (hasTuple arrivals key)).Sublist
      ((s.line w₀).filter (hasTuple arrivals key))) :
    (hs.filter (hasTuple arrivals key)).Pairwise (· < ·) ∧
      ∀ i ∈ hs, hasTuple arrivals key i → i < s.next := by
  refine ⟨h.sorted.sublist hsub, fun i hi hp => ?_⟩
  have hmem := List.mem_filter.mp (hsub.subset (List.mem_filter.mpr ⟨hi, hp⟩))
  exact h.lt_next i hmem.1 hp

variable {k : ℕ} {r : Run (World bits ℕ) ℕ}

/-- The IO core receives frames. -/
theorem Ordered.receive (h : s.Ordered arrivals key w₀)
    (hw₀ : ∀ w, steerOf hash cfg nWorkers key = .steer w → w = w₀)
    (hlive : s.rx.Live (buildRxGraph bits envs.rx hash cfg nWorkers))
    (hreceived : (envs.rx.received s.rx.world.tick).bufs = List.range' s.next k)
    (hmemory : ∀ i, envs.rx.memory s.rx.world.tick i =
      if i ∈ List.range' s.next k then arrivals i else s.mem i)
    (hrun : s.rx.Runs (buildRxGraph bits envs.rx hash cfg nWorkers) r) :
    (s.afterReceive r k).Ordered arrivals key w₀ := by
  obtain ⟨-, g, root, fuel, hbuild, hreach, hrun⟩ := hlive.runs hrun
  have htuple (i : ℕ) (hi : i ∈ List.range' s.next k) (hp : hasTuple arrivals key i) :
      (envs.rx.memory s.rx.world.tick i).frame.fiveTuple = some key := by
    rw [hmemory i, if_pos hi]
    exact hasTuple_iff.mp hp
  obtain ⟨hsub, hring, hmem, -⟩ := rx_in_order hbuild hreach hrun (by rwa [hreceived])
  rw [hreceived] at hsub
  have hout : (s.afterReceive r k).out (.worker w₀) = s.out (.worker w₀) := rfl
  have hline : (s.afterReceive r k).line w₀ = s.line w₀ ++ r.world.ledger.passed := by
    rw [line, line, out_afterReceive, hout, List.map_append, List.append_assoc _ _ (List.map _ _)]
    simp only [List.append_assoc]
    rfl
  obtain ⟨hsorted, hlt⟩ := pairwise_append_burst h.sorted h.lt_next hsub
  refine ⟨hline ▸ hsorted, hline ▸ hlt, fun p hp hpt => ?_, h.worker, h.away, fun i hi hp => ?_⟩
  · rw [out_afterReceive] at hp
    rcases List.mem_append.mp hp with hp | hp
    · exact h.io p hp hpt
    · obtain ⟨w, hw, hworker⟩ := hring p hp hpt
      rw [hworker, hw₀ w hw]
  · change (r.world.mem i).frame.fiveTuple = some key
    rw [hmem i hp]
    by_cases hburst : i ∈ List.range' s.next k
    · exact htuple i hburst hp
    · rw [hmemory i, if_neg hburst]
      refine h.frames i ?_ hp
      rw [out_afterReceive, List.map_append, ← List.append_assoc] at hi
      rcases List.mem_append.mp hi with hi | hi
      · exact hi
      · have hmem' := hsub.subset (List.mem_filter.mpr ⟨hi, hp⟩)
        exact absurd (List.mem_filter.mp hmem').1 hburst

/-- The IO core transmits packets. -/
theorem Ordered.transmit (h : s.Ordered arrivals key w₀) {rest : List ℕ}
    (hlive : s.tx.Live (buildTxGraph bits envs.tx))
    (hring : s.rings .egress = (envs.tx.received s.tx.world.tick).bufs ++ rest)
    (hmemory : envs.tx.memory s.tx.world.tick = s.mem)
    (hrun : s.tx.Runs (buildTxGraph bits envs.tx) r) :
    (s.afterTransmit r rest).Ordered arrivals key w₀ := by
  obtain ⟨-, g, root, fuel, hbuild, hreach, hrun⟩ := hlive.runs hrun
  obtain ⟨hsub, hmem⟩ := tx_in_order (P := hasTuple arrivals key) hbuild hreach hrun
  have hmem' : (s.afterTransmit r rest).mem = s.mem := hmem.trans hmemory
  have hegress : (s.afterTransmit r rest).rings .egress = rest := rfl
  have hworker (w : ℕ) : (s.afterTransmit r rest).rings (.worker w) = s.rings (.worker w) := rfl
  have hline : (((s.afterTransmit r rest).line w₀).filter (hasTuple arrivals key)).Sublist
      ((s.line w₀).filter (hasTuple arrivals key)) := by
    rw [line, line, hegress, hworker, hring]
    change ((s.sent ++ r.world.ledger.sent ++ rest ++ _ ++ _ ++ _).filter _).Sublist _
    simp only [List.filter_append, List.append_assoc]
    exact (List.Sublist.refl _).append (hsub.append (List.Sublist.refl _))
  obtain ⟨hsorted, hlt⟩ := h.sublist hline
  refine ⟨hsorted, hlt, h.io, h.worker, fun w hw i hi => ?_, fun i hi hp => ?_⟩
  · rw [hworker] at hi
    exact h.away w hw i hi
  · rw [hmem']
    rw [hworker] at hi
    exact h.frames i hi hp

/-- Workers enqueue on the ring to the IO core only. -/
theorem Ordered.worker_afterWork (h : s.Ordered arrivals key w₀) {w : ℕ}
    (hegress : ∀ p ∈ r.world.ledger.enqueued, p.1 = .egress) (rest : List ℕ) (w' : ℕ) :
    ∀ p ∈ (s.afterWork r w rest).out (.worker w'), p.1 = .egress := by
  intro p hp
  by_cases hw : w' = w
  · subst hw
    rw [out_afterWork_self] at hp
    exact (List.mem_append.mp hp).elim (h.worker w' p) (hegress p)
  · rw [out_afterWork_of_ne (fun heq => hw (Lcore.worker.inj heq))] at hp
    exact h.worker w' p hp

/-- Worker `w₀` takes packets from its ring. -/
theorem Ordered.work_self (h : s.Ordered arrivals key w₀) {rest : List ℕ}
    (hlive : (s.worker w₀).Live (buildWorkerGraph bits (envs.worker w₀) hash cfg cks))
    (hring : s.rings (.worker w₀) =
      ((envs.worker w₀).received (s.worker w₀).world.tick).bufs ++ rest)
    (hmemory : (envs.worker w₀).memory (s.worker w₀).world.tick = s.mem)
    (hrun : (s.worker w₀).Runs (buildWorkerGraph bits (envs.worker w₀) hash cfg cks) r) :
    (s.afterWork r w₀ rest).Ordered arrivals key w₀ := by
  obtain ⟨-, g, root, fuel, hbuild, hreach, hrun⟩ := hlive.runs hrun
  have htuple : ∀ i ∈ ((envs.worker w₀).received (s.worker w₀).world.tick).bufs,
      hasTuple arrivals key i →
        ((envs.worker w₀).memory (s.worker w₀).world.tick i).frame.fiveTuple = some key := by
    intro i hi hp
    rw [hmemory]
    exact h.frames i (List.mem_append_left _ (hring ▸ List.mem_append_left _ hi)) hp
  obtain ⟨hsub, hegress, hmem⟩ := worker_in_order hbuild hreach hrun htuple
  have hline : (((s.afterWork r w₀ rest).line w₀).filter (hasTuple arrivals key)).Sublist
      ((s.line w₀).filter (hasTuple arrivals key)) := by
    rw [line, line, out_afterWork_self, rings_afterWork_self, hring, List.map_append]
    change ((s.sent ++ s.rings .egress ++ (_ ++ r.world.ledger.passed) ++ rest ++
      (s.out .io).map Prod.snd).filter _).Sublist _
    simp only [List.filter_append, List.append_assoc]
    exact (List.Sublist.refl _).append ((List.Sublist.refl _).append ((List.Sublist.refl _).append
      (hsub.append (List.Sublist.refl _))))
  obtain ⟨hsorted, hlt⟩ := h.sublist hline
  refine ⟨hsorted, hlt, h.io, h.worker_afterWork hegress rest, fun w hw i hi => ?_,
    fun i hi hp => ?_⟩
  · rw [out_afterWork_of_ne (fun heq => hw (Lcore.worker.inj heq)),
      rings_afterWork_of_ne (fun heq => hw (Ring.worker.inj heq))] at hi
    exact h.away w hw i hi
  · -- The frames that the worker has taken are none of those that follow them.
    rw [rings_afterWork_self] at hi
    have hi' : i ∈ rest ++ (s.out .io).map Prod.snd := hi
    have hfresh : i ∉ ((envs.worker w₀).received (s.worker w₀).world.tick).bufs := by
      intro hburst
      have hsorted' := h.sorted
      rw [line, hring] at hsorted'
      simp only [List.filter_append, List.append_assoc] at hsorted'
      have htail := (List.pairwise_append.mp (List.pairwise_append.mp
        (List.pairwise_append.mp (List.pairwise_append.mp hsorted').2.1).2.1).2.1).2.2
      refine absurd (htail i (List.mem_filter.mpr ⟨hburst, hp⟩) i ?_) (lt_irrefl i)
      rw [← List.filter_append]
      exact List.mem_filter.mpr ⟨hi', hp⟩
    change (r.world.mem i).frame.fiveTuple = some key
    rw [hmem i hfresh, hmemory]
    refine h.frames i ?_ hp
    rw [hring, List.append_assoc]
    exact List.mem_append_right _ hi'

/-- Another worker takes packets from its ring. -/
theorem Ordered.work_other (h : s.Ordered arrivals key w₀) {w : ℕ} (hw : w ≠ w₀) {rest : List ℕ}
    (hlive : (s.worker w).Live (buildWorkerGraph bits (envs.worker w) hash cfg cks))
    (hring : s.rings (.worker w) =
      ((envs.worker w).received (s.worker w).world.tick).bufs ++ rest)
    (hmemory : (envs.worker w).memory (s.worker w).world.tick = s.mem)
    (hrun : (s.worker w).Runs (buildWorkerGraph bits (envs.worker w) hash cfg cks) r) :
    (s.afterWork r w rest).Ordered arrivals key w₀ := by
  obtain ⟨-, g, root, fuel, hbuild, hreach, hrun⟩ := hlive.runs hrun
  have hnone : ∀ i ∈ ((envs.worker w).received (s.worker w).world.tick).bufs,
      ¬ hasTuple arrivals key i := fun i hi =>
    h.away w hw i (List.mem_append_left _ (hring ▸ List.mem_append_left _ hi))
  have htuple : ∀ i ∈ ((envs.worker w).received (s.worker w).world.tick).bufs,
      hasTuple arrivals key i →
        ((envs.worker w).memory (s.worker w).world.tick i).frame.fiveTuple = some key :=
    fun i hi hp => absurd hp (hnone i hi)
  obtain ⟨hsub, hegress, hmem⟩ := worker_in_order hbuild hreach hrun htuple
  rw [List.filter_eq_nil_iff.mpr hnone, List.sublist_nil, List.filter_eq_nil_iff] at hsub
  have hlcore : Lcore.worker w₀ ≠ .worker w := fun heq => hw (Lcore.worker.inj heq).symm
  have hringNe : Ring.worker w₀ ≠ .worker w := fun heq => hw (Ring.worker.inj heq).symm
  have hline : (s.afterWork r w rest).line w₀ = s.line w₀ := by
    rw [line, out_afterWork_of_ne hlcore, rings_afterWork_of_ne hringNe]
    rfl
  refine ⟨hline ▸ h.sorted, hline ▸ h.lt_next, h.io, h.worker_afterWork hegress rest,
    fun w' hw' i hi => ?_, fun i hi hp => ?_⟩
  · by_cases hww : w' = w
    · subst hww
      rw [out_afterWork_self, rings_afterWork_self, List.map_append, ← List.append_assoc] at hi
      rcases List.mem_append.mp hi with hi | hi
      · refine h.away w' hw' i ?_
        rw [hring, List.append_assoc]
        exact List.mem_append_right _ hi
      · exact hsub i hi
    · rw [out_afterWork_of_ne (fun heq => hww (Lcore.worker.inj heq)),
        rings_afterWork_of_ne (fun heq => hww (Ring.worker.inj heq))] at hi
      exact h.away w' hw' i hi
  · rw [rings_afterWork_of_ne hringNe] at hi
    change (r.world.mem i).frame.fiveTuple = some key
    rw [hmem i fun hburst => hnone i hburst hp, hmemory]
    exact h.frames i hi hp

variable {lcore : Lcore} {ring : Ring} {i : ℕ} {rest : List (Ring × ℕ)}

theorem rings_afterFlush (ring' : Ring) : (s.afterFlush lcore ring i rest).rings ring' =
    s.rings ring' ++ if ring' = ring then [i] else [] := by
  rw [afterFlush]
  by_cases hring : ring' = ring
  · simp [hring]
  · simp [hring]

theorem out_eq_afterFlush (hout : s.out lcore = (ring, i) :: rest) (lcore' : Lcore) :
    s.out lcore' = (if lcore' = lcore then [(ring, i)] else []) ++
      (s.afterFlush lcore ring i rest).out lcore' := by
  rw [afterFlush]
  by_cases hlcore : lcore' = lcore
  · simp [hlcore, hout]
  · simp [hlcore]

theorem sent_afterFlush : (s.afterFlush lcore ring i rest).sent = s.sent :=
  rfl

/-- A packet that goes from a core to a ring keeps its place in the line. -/
theorem Ordered.filter_line_afterFlush (h : s.Ordered arrivals key w₀)
    (hout : s.out lcore = (ring, i) :: rest) :
    ((s.afterFlush lcore ring i rest).line w₀).filter (hasTuple arrivals key) =
      (s.line w₀).filter (hasTuple arrivals key) := by
  have hhead : (ring, i) ∈ s.out lcore := hout ▸ List.mem_cons_self
  have hworker := out_eq_afterFlush hout (.worker w₀)
  have hio := out_eq_afterFlush hout .io
  by_cases hp : hasTuple arrivals key i = true
  · cases lcore with
    | io =>
      obtain rfl := h.io (ring, i) hhead hp
      rw [line, line, rings_afterFlush, rings_afterFlush, sent_afterFlush, hworker, hio]
      simp
    | worker w =>
      obtain rfl := h.worker w (ring, i) hhead
      obtain rfl : w = w₀ := by
        by_contra hw
        exact h.away w hw i (List.mem_append_right _ (List.mem_map_of_mem hhead)) hp
      rw [line, line, rings_afterFlush, rings_afterFlush, sent_afterFlush, hworker, hio]
      simp
  · have hnil (c : Prop) [Decidable c] :
        (if c then [i] else []).filter (hasTuple arrivals key) = [] := by
      split_ifs <;> simp [hp]
    have hnil' (c : Prop) [Decidable c] : ((if c then [(ring, i)] else []).map Prod.snd).filter
        (hasTuple arrivals key) = [] := by
      split_ifs <;> simp [hp]
    rw [line, line, rings_afterFlush, rings_afterFlush, sent_afterFlush, hworker, hio]
    simp only [List.map_append, List.filter_append, hnil, hnil', List.nil_append, List.append_nil]

theorem Ordered.flush (h : s.Ordered arrivals key w₀) (hout : s.out lcore = (ring, i) :: rest) :
    (s.afterFlush lcore ring i rest).Ordered arrivals key w₀ := by
  have hhead : (ring, i) ∈ s.out lcore := hout ▸ List.mem_cons_self
  have hmem {lcore' : Lcore} {p : Ring × ℕ}
      (hp : p ∈ (s.afterFlush lcore ring i rest).out lcore') : p ∈ s.out lcore' := by
    rw [out_eq_afterFlush hout lcore']
    exact List.mem_append_right _ hp
  -- Only the IO core puts packets on the ring of a worker.
  have hio {w : ℕ} (hring : Ring.worker w = ring) : (ring, i) ∈ s.out .io := by
    cases lcore with
    | io => exact hhead
    | worker w' => exact Ring.noConfusion (hring.trans (h.worker w' (ring, i) hhead))
  have hline : (((s.afterFlush lcore ring i rest).line w₀).filter (hasTuple arrivals key)).Sublist
      ((s.line w₀).filter (hasTuple arrivals key)) := by
    rw [h.filter_line_afterFlush hout]
  obtain ⟨hsorted, hlt⟩ := h.sublist hline
  refine ⟨hsorted, hlt, fun p hp => h.io p (hmem hp), fun w p hp => h.worker w p (hmem hp),
    fun w hw j hj hp => ?_, fun j hj hp => ?_⟩
  · rw [rings_afterFlush, List.append_assoc] at hj
    rcases List.mem_append.mp hj with hj | hj
    · exact h.away w hw j (List.mem_append_left _ hj) hp
    · rcases List.mem_append.mp hj with hj | hj
      · split_ifs at hj with hring
        · obtain rfl := List.mem_singleton.mp hj
          exact hw (Ring.worker.inj (hring.trans (h.io (ring, j) (hio hring) hp)))
        · exact absurd hj List.not_mem_nil
      · obtain ⟨p, hp', rfl⟩ := List.mem_map.mp hj
        exact h.away w hw p.2 (List.mem_append_right _ (List.mem_map_of_mem (hmem hp'))) hp
  · refine h.frames j ?_ hp
    rw [rings_afterFlush, List.append_assoc] at hj
    rcases List.mem_append.mp hj with hj | hj
    · exact List.mem_append_left _ hj
    · refine List.mem_append_right _ ?_
      rcases List.mem_append.mp hj with hj | hj
      · split_ifs at hj with hring
        · obtain rfl := List.mem_singleton.mp hj
          exact List.mem_map_of_mem (hio hring)
        · exact absurd hj List.not_mem_nil
      · obtain ⟨p, hp', rfl⟩ := List.mem_map.mp hj
        exact List.mem_map_of_mem (hmem hp')

/-- Every step keeps the frames with the 5-tuple in order. -/
theorem Ordered.step (h : s.Ordered arrivals key w₀)
    (hw₀ : ∀ w, steerOf hash cfg nWorkers key = .steer w → w = w₀)
    (hlive : s.Live hash cfg cks nWorkers envs)
    (hstep : Step arrivals hash cfg cks nWorkers envs s s') : s'.Ordered arrivals key w₀ := by
  cases hstep with
  | receive hreceived hmemory hrun => exact h.receive hw₀ hlive.rx hreceived hmemory hrun
  | @work w rest r hring hmemory hrun =>
    by_cases hw : w = w₀
    · subst hw
      exact h.work_self (hlive.worker w) hring hmemory hrun
    · exact h.work_other hw (hlive.worker w) hring hmemory hrun
  | transmit hring hmemory hrun => exact h.transmit hlive.tx hring hmemory hrun
  | flush hout => exact h.flush hout

/-- In every reachable state what was sent is in order. -/
theorem Reachable.inOrder (h : Reachable arrivals hash cfg cks nWorkers envs s) :
    InOrder arrivals s.sent := by
  obtain ⟨s₀, hfresh, hsteps⟩ := h
  refine inOrder_of_forall fun key => ?_
  obtain ⟨w₀, hw₀⟩ : ∃ w₀, ∀ w, steerOf hash cfg nWorkers key = .steer w → w = w₀ := by
    cases steerOf hash cfg nWorkers key with
    | steer w₀ => exact ⟨w₀, fun w hw => (SteerResult.steer.inj hw).symm⟩
    | arp => exact ⟨0, nofun⟩
    | drop => exact ⟨0, nofun⟩
  have hinv : s.Ordered arrivals key w₀ ∧ s.Live hash cfg cks nWorkers envs := by
    induction hsteps with
    | refl =>
      have hline : s₀.line w₀ = [] := by
        simp [line, hfresh.sent_eq, hfresh.rings_eq, hfresh.out_eq]
      refine ⟨⟨?_, ?_, ?_, ?_, ?_, ?_⟩, hfresh.rx.live, hfresh.tx.live,
        fun w => (hfresh.worker w).live⟩
      · rw [hline]
        exact List.Pairwise.nil
      · rw [hline]
        exact nofun
      · rw [hfresh.out_eq]
        exact nofun
      · intro w
        rw [hfresh.out_eq]
        exact nofun
      · intro w _
        rw [hfresh.rings_eq, hfresh.out_eq]
        exact nofun
      · rw [hfresh.rings_eq, hfresh.out_eq]
        exact nofun
    | tail _ hstep ih => exact ⟨ih.1.step hw₀ ih.2 hstep, ih.2.step hstep⟩
  have hsent : (s.sent.filter (hasTuple arrivals key)).Sublist
      ((s.line w₀).filter (hasTuple arrivals key)) := by
    simp only [line, List.append_assoc]
    exact (List.sublist_append_left _ _).filter _
  exact (hinv.1.sublist hsent).1

end Cores

namespace Cores

/-- A core has put all that it had enqueued on the rings. -/
def flushed (s : Cores bits) (lcore : Lcore) : Cores bits :=
  { s with
    out := Function.update s.out lcore []
    rings := fun ring => s.rings ring ++ ((s.out lcore).filter (·.1 = ring)).map Prod.snd }

variable {nWorkers : ℕ} {envs : Envs}

theorem flushed_afterFlush {s : Cores bits} {lcore : Lcore} {ring : Ring} {i : ℕ}
    {rest : List (Ring × ℕ)} (hout : s.out lcore = (ring, i) :: rest) :
    (s.afterFlush lcore ring i rest).flushed lcore = s.flushed lcore := by
  have hrest : (s.afterFlush lcore ring i rest).out lcore = rest := Function.update_self _ _ _
  have hrings (ring' : Ring) : (s.afterFlush lcore ring i rest).rings ring' ++
      (rest.filter (·.1 = ring')).map Prod.snd =
        s.rings ring' ++ (((ring, i) :: rest).filter (·.1 = ring')).map Prod.snd := by
    rw [rings_afterFlush, List.append_assoc, List.filter_cons]
    by_cases hring : ring' = ring
    · simp [hring]
    · simp [hring, Ne.symm hring]
  simp only [flushed, hrest, hrings, hout]
  simp [afterFlush]

/-- A core can put all that it has enqueued on the rings, one packet after the other. -/
theorem steps_flushed (s : Cores bits) (lcore : Lcore) :
    Relation.ReflTransGen (Step arrivals hash cfg cks nWorkers envs) s (s.flushed lcore) := by
  generalize hout : s.out lcore = out
  induction out generalizing s with
  | nil =>
    have hself : Function.update s.out lcore [] = s.out :=
      hout ▸ Function.update_eq_self lcore s.out
    have hnone : s.flushed lcore = s := by simp [flushed, hout, hself]
    rw [hnone]
  | cons p rest ih =>
    rw [← flushed_afterFlush hout]
    exact .head (.flush hout) (ih _ (Function.update_self _ _ _))

end Cores

/-! ### A first burst

Two packets from one port of a client, and a TCP packet from the next port that opens no flow: a
single core, and an IO core with two workers. -/

namespace FirstBurst

open Pipeline (exampleConfig internetChecksums udpFrame)

/-- What is received. -/
def frames (i : ℕ) : Mbuf where
  frame k := if i = 2 ∧ k = 23 then ipprotoTcp else if i = 2 ∧ k = 35 then 65 else udpFrame 0x45 k

/-- The world outside, with a first burst, the packet buffers at that time, one backend, and room
for whole bursts. -/
def env (burst : Graph.Frame ℕ) (memory : ℕ → Mbuf) : Env ℕ where
  received tick := if tick = 0 then burst else .cleared
  memory _ := memory
  accepted _ := kBurstSize
  pool _ := some (BackendPool.single { ip := 0x0A000202, port := 8080 })
  nowMs _ := 7

/-- The first run of a graph. -/
def firstRun (build : Except String (Graph (World bits ℕ) ℕ × NodeId)) (lb : LbNode bits) :
    Option (Run (World bits ℕ) ℕ) :=
  match build with
  | .error _ => none
  | .ok (g, root) =>
    match Dispatcher.runOnce g root 8 .cleared (.init g) { mem := frames, lb := lb } with
    | .error _ => none
    | .ok r => some r

variable {build : Except String (Graph (World bits ℕ) ℕ × NodeId)} {lb : LbNode bits}
  {r : Run (World bits ℕ) ℕ}

theorem exists_runs (h : firstRun build lb = some r) : ∃ core : Core bits,
    core.Fresh build ∧ core.world.tick = 0 ∧ core.Runs build r := by
  unfold firstRun at h
  split at h
  · exact absurd h nofun
  · next g root =>
    split at h
    · exact absurd h nofun
    · next hrun =>
      obtain rfl := Option.some.inj h
      exact ⟨⟨.init g, { mem := frames, lb := lb }⟩, ⟨g, root, rfl, rfl⟩, rfl, g, root, 8, rfl,
        hrun⟩

/-- The first burst, and those of its packets that are sent on. -/
def received : Graph.Frame ℕ := ⟨List.range' 0 3, Nat.le_of_ble_eq_true rfl⟩

@[inherit_doc received]
def forwarded : Graph.Frame ℕ := ⟨List.range' 0 2, Nat.le_of_ble_eq_true rfl⟩

/-- The first run of the single core. -/
def monoRun : Option (Run (World 20 ℕ) ℕ) :=
  firstRun (buildMonolithicGraph 20 (env received frames) (FlowKey.hash .sse42) exampleConfig
    internetChecksums) (.init 20 30000 0 1)

/-- The first run of the input side of the IO core. -/
def rxRun : Option (Run (World 20 ℕ) ℕ) :=
  firstRun (buildRxGraph 20 (env received frames) (FlowKey.hash .sse42) exampleConfig 2)
    (.init 20 30000 0 2)

/-- The first run of the first worker. -/
def workerRun : Option (Run (World 20 ℕ) ℕ) :=
  firstRun (buildWorkerGraph 20 (env received frames) (FlowKey.hash .sse42) exampleConfig
    internetChecksums) (.init 20 30000 0 2)

/-- The packet buffers as the worker leaves them. -/
def rewritten : ℕ → Mbuf := workerRun.elim frames fun r => r.world.mem

/-- The first run of the output side of the IO core. -/
def txRun : Option (Run (World 20 ℕ) ℕ) :=
  firstRun (buildTxGraph 20 (env forwarded rewritten)) (.init 20 30000 0 2)

/-- The world outside as the IO core and the workers see it. -/
def envs : Envs where
  rx := env received frames
  tx := env forwarded rewritten
  worker _ := env received frames

/-- The TCP packet is freed. -/
theorem monoRun_ledger :
    monoRun.map (fun r => (r.world.ledger.sent, r.world.ledger.freed ++ r.world.ledger.dropFreed)) =
      some ([0, 1], [2]) := by
  decide +kernel

theorem rxRun_ledger :
    rxRun.map (·.world.ledger.enqueued) =
      some [(.worker 0, 0), (.worker 0, 1), (.worker 0, 2)] := by
  decide +kernel

theorem workerRun_ledger :
    workerRun.map (·.world.ledger.enqueued) = some [(.egress, 0), (.egress, 1)] := by
  decide +kernel

theorem txRun_ledger : txRun.map (·.world.ledger.sent) = some [0, 1] := by
  decide +kernel

theorem received_eq {tick : ℕ} (h : tick = 0) (burst : Graph.Frame ℕ) (memory : ℕ → Mbuf) :
    (env burst memory).received tick = burst :=
  if_pos h

theorem bufs_received {tick : ℕ} (h : tick = 0) (burst : Graph.Frame ℕ) (memory : ℕ → Mbuf) :
    ((env burst memory).received tick).bufs = burst.bufs := by
  rw [received_eq h]

theorem memory_eq (burst : Graph.Frame ℕ) (memory : ℕ → Mbuf) (tick : ℕ) :
    (env burst memory).memory tick = memory :=
  rfl

/-- The input side of the IO core leaves the frames as they were received. -/
theorem rxRun_mem {r : Run (World 20 ℕ) ℕ} (h : rxRun = some r) : r.world.mem = frames := by
  obtain ⟨core, hfresh, htick, hruns⟩ := exists_runs h
  obtain ⟨-, g, root, fuel, hbuild, hreach, hrun⟩ := hfresh.live.runs hruns
  have htuple : ∀ i ∈ received.bufs, ((frames i).frame.fiveTuple).isSome := by decide +kernel
  have hmem (key : FlowKey) (P : ℕ → Bool)
      (hP : ∀ i ∈ received.bufs, P i → (frames i).frame.fiveTuple = some key) :
      (∀ i, P i → r.world.mem i = frames i) ∧
        ∀ i ∉ received.bufs, r.world.mem i = frames i := by
    rw [← received_eq htick received frames] at hP ⊢
    exact (rx_in_order hbuild hreach hrun hP).2.2
  funext i
  by_cases hi : i ∈ received.bufs
  · obtain ⟨key, hkey⟩ := Option.isSome_iff_exists.mp (htuple i hi)
    refine (hmem key (fun j => j = i) fun j _ hj => ?_).1 i (decide_eq_true rfl)
    obtain rfl := of_decide_eq_true hj
    exact hkey
  · exact (hmem default (fun _ => false) nofun).2 i hi

theorem rewritten_eq {r : Run (World 20 ℕ) ℕ} (h : workerRun = some r) :
    rewritten = r.world.mem := by
  rw [rewritten, h, Option.elim_some]

/-- The single core after its first run. -/
theorem mono_sends : ∃ (core : Core 20) (s : Mono 20),
    core.Fresh (buildMonolithicGraph 20 (env received frames) (FlowKey.hash .sse42) exampleConfig
      internetChecksums) ∧
    Mono.Step frames (FlowKey.hash .sse42) exampleConfig internetChecksums (env received frames)
      { core := core } s ∧
    s.next = 3 ∧ s.sent = [0, 1] ∧
    s.core.world.ledger.freed ++ s.core.world.ledger.dropFreed = [2] := by
  obtain ⟨r, hr, hledger⟩ := Option.map_eq_some_iff.mp monoRun_ledger
  obtain ⟨hsent, hfreed⟩ := Prod.mk.inj hledger
  obtain ⟨core, hfresh, htick, hruns⟩ := exists_runs hr
  have hburst := bufs_received htick received frames
  exact ⟨core, _, hfresh, .run (k := 3) hburst (fun _ _ => rfl) hruns, rfl, hsent, hfreed⟩

/-- The cores after a run of the IO core on the first burst, one of its worker, and one of the IO
core on what comes back. -/
theorem cores_send : ∃ s₀ s : Cores 20,
    s₀.Fresh (FlowKey.hash .sse42) exampleConfig internetChecksums 2 envs ∧
    Relation.ReflTransGen (Cores.Step frames (FlowKey.hash .sse42) exampleConfig internetChecksums 2
      envs) s₀ s ∧
    s.next = 3 ∧ s.sent = [0, 1] ∧ (∀ ring, s.rings ring = []) ∧ ∀ lcore, s.out lcore = [] := by
  obtain ⟨r₁, hr₁, hledger₁⟩ := Option.map_eq_some_iff.mp rxRun_ledger
  obtain ⟨r₂, hr₂, hledger₂⟩ := Option.map_eq_some_iff.mp workerRun_ledger
  obtain ⟨r₃, hr₃, hledger₃⟩ := Option.map_eq_some_iff.mp txRun_ledger
  obtain ⟨rx, hrx, hrxTick, hruns₁⟩ := exists_runs hr₁
  obtain ⟨worker, hworker, hworkerTick, hruns₂⟩ := exists_runs hr₂
  obtain ⟨tx, htx, htxTick, hruns₃⟩ := exists_runs hr₃
  let s₀ : Cores 20 := { rx := rx, tx := tx, worker := fun _ => worker, mem := frames }
  let s₁ := (s₀.afterReceive r₁ 3).flushed .io
  let s₂ := (s₁.afterWork r₂ 0 []).flushed (.worker 0)
  have hring₁ : s₁.rings (.worker 0) = received.bufs := by
    simp [s₁, s₀, Cores.flushed, Cores.afterReceive, hledger₁, received, List.range']
  have hring₂ : s₂.rings .egress = forwarded.bufs := by
    simp [s₂, s₁, s₀, Cores.flushed, Cores.afterReceive, Cores.afterWork, hledger₁, hledger₂,
      forwarded, List.range']
  let Steps : Cores 20 → Cores 20 → Prop :=
    Cores.Step frames (FlowKey.hash .sse42) exampleConfig internetChecksums 2 envs
  have hreceive : Steps s₀ (s₀.afterReceive r₁ 3) :=
    .receive (bufs_received hrxTick received frames) (fun _ => (ite_self _).symm) hruns₁
  have hwork : Steps s₁ (s₁.afterWork r₂ 0 []) := by
    refine .work ?_ (rxRun_mem hr₁).symm hruns₂
    rw [hring₁, List.append_nil]
    exact (bufs_received hworkerTick received frames).symm
  have htransmit : Steps s₂ (s₂.afterTransmit r₃ []) := by
    refine .transmit ?_ ((memory_eq forwarded rewritten _).trans (rewritten_eq hr₂)) hruns₃
    rw [hring₂, List.append_nil]
    exact (bufs_received htxTick forwarded rewritten).symm
  have hfirst : Relation.ReflTransGen Steps s₀ s₁ := .head hreceive (Cores.steps_flushed _ .io)
  have hsecond : Relation.ReflTransGen Steps s₁ s₂ :=
    .head hwork (Cores.steps_flushed _ (.worker 0))
  refine ⟨s₀, s₂.afterTransmit r₃ [], ⟨hrx, htx, fun _ => hworker, rfl, fun _ => rfl, fun _ => rfl,
    rfl⟩, (hfirst.trans hsecond).tail htransmit, rfl, hledger₃, ?_, ?_⟩
  · intro ring
    cases ring with
    | egress => simp [Cores.afterTransmit]
    | worker w =>
      obtain rfl | hw := eq_or_ne w 0
      · simp [s₂, s₁, s₀, Cores.flushed, Cores.afterReceive, Cores.afterWork, Cores.afterTransmit,
          hledger₁, hledger₂]
      · simp [s₂, s₁, s₀, Cores.flushed, Cores.afterReceive, Cores.afterWork, Cores.afterTransmit,
          hledger₁, hledger₂, hw, hw.symm]
  · intro lcore
    cases lcore <;> simp [s₂, s₁, s₀, Cores.flushed, Cores.afterReceive, Cores.afterWork,
      Cores.afterTransmit, hledger₁, hledger₂]

end FirstBurst

/-- Packets with the same 5-tuple are transmitted in the order in which they were received, on a
single core and, in any interleaving, with workers. -/
theorem tuple_order_preserved (bits : ℕ) (arrivals : ℕ → Mbuf) (hash : FlowKey → UInt32)
    (cfg : Config) (cks : Checksums) :
    (∀ env, ∀ s : Mono bits, Mono.Reachable arrivals hash cfg cks env s →
      InOrder arrivals s.sent) ∧
    ∀ nWorkers envs, ∀ s : Cores bits,
      Cores.Reachable arrivals hash cfg cks nWorkers envs s → InOrder arrivals s.sent :=
  ⟨fun _ _ h => h.inOrder, fun _ _ _ h => h.inOrder⟩

open Pipeline (exampleConfig internetChecksums) in
/-- Two packets of a client go through a single core, and through an IO core and a worker. -/
theorem tuple_order_preserved_two_packets :
    (∃ key, ∀ i < 2, (FirstBurst.frames i).frame.fiveTuple = some key) ∧
    (∃ s : Mono 20, Mono.Reachable FirstBurst.frames (FlowKey.hash .sse42) exampleConfig
        internetChecksums (FirstBurst.env FirstBurst.received FirstBurst.frames) s ∧
      s.sent = [0, 1] ∧ InOrder FirstBurst.frames s.sent) ∧
    ∃ s : Cores 20, Cores.Reachable FirstBurst.frames (FlowKey.hash .sse42) exampleConfig
        internetChecksums 2 FirstBurst.envs s ∧
      s.sent = [0, 1] ∧ InOrder FirstBurst.frames s.sent := by
  have horder := tuple_order_preserved 20 FirstBurst.frames (FlowKey.hash .sse42) exampleConfig
    internetChecksums
  obtain ⟨core, s, hfresh, hstep, -, hsent, -⟩ := FirstBurst.mono_sends
  obtain ⟨s₀, t, hfresh', hsteps, -, hsent', -⟩ := FirstBurst.cores_send
  have hs : Mono.Reachable _ _ _ _ _ s := ⟨core, hfresh, .single hstep⟩
  have ht : Cores.Reachable _ _ _ _ _ _ t := ⟨s₀, hfresh', hsteps⟩
  refine ⟨⟨(Pipeline.udpFrame 0x45).fiveTuple.get rfl, ?_⟩, ⟨s, hs, hsent, horder.1 _ s hs⟩,
    t, ht, hsent', horder.2 2 _ t ht⟩
  decide +kernel

end Order

end Cerebellum
