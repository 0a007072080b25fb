import Cerebellum.Lib.Numerals
import Cerebellum.Nodes.BurstForwarding
import Cerebellum.Nodes.Dataplane

/-!
# What the lcores have to themselves

The lcores share the packet buffers, the published pool and the rings, and nothing else. Each writes
its own slot of counters. A ring that was created for a single producer has one, and the same for
consumers. The source ports are split among the `LbNode`s of the workers, and each has its share
free or held by a flow at all times, whatever the other lcores do.

The last of these follows from what holds of one `LbNode` over its runs, as nothing else in a graph
touches it: in every state that the lcores can reach, an `LbNode` is in a state that some packets
lead it to.

## Main definitions

* `Cerebellum.Graph.Node.RunsLb`: what a node does to the load balancer, some packets would do.
* `Cerebellum.Dataplane.RingsOwned`: the rings are used as they were created.
* `Cerebellum.OwnsResources`: what each lcore has to itself.

## Main results

* `Cerebellum.Dataplane.Reachable.sound`: the load balancers are in states that packets lead to.
* `Cerebellum.lcores_own_resources`: no two lcores share a counter, a source port or one side of a
  ring that is not made for it.
-/

namespace Cerebellum

open Graph

variable {bits : ℕ}

/-! ### The load balancer of a graph -/

section RunsLb

variable {Handle : Type} {env : Env Handle} {hash : FlowKey → UInt32} {cfg : Config}
  {cks : Checksums}

/-- What a call of the node does to the load balancer, some packets would do. -/
def Graph.Node.RunsLb (hash : FlowKey → UInt32) (node : Node (World bits Handle) Handle) : Prop :=
  ∀ world input, ∃ as, (node.process world input).1.lb = LbNode.run hash world.lb as

theorem Graph.Node.KeepsLb.runsLb {node : Node (World bits Handle) Handle} (h : node.KeepsLb) :
    node.RunsLb hash :=
  fun world input => ⟨[], h world input⟩

variable [DecidableEq Handle]

omit [DecidableEq Handle] in
theorem TxNode.keepsLb : (TxNode.node env : Node (World bits Handle) Handle).KeepsLb :=
  fun _ _ => rfl

omit [DecidableEq Handle] in
theorem DropNode.keepsLb : (DropNode.node : Node (World bits Handle) Handle).KeepsLb :=
  fun _ _ => rfl

omit [DecidableEq Handle] in
theorem RingTxNode.keepsLb {ring : Ring} :
    (RingTxNode.node env ring : Node (World bits Handle) Handle).KeepsLb :=
  fun _ _ => rfl

/-- `LbNode` runs the packets of a frame. -/
theorem LbNode.runsLb : (LbNode.node env hash : Node (World bits Handle) Handle).RunsLb hash := by
  intro world input
  cases hpool : (env.pool world.tick).filter fun pool => pool.activeCount ≠ 0 with
  | none =>
    refine ⟨[], ?_⟩
    simp only [LbNode.node, hpool, Option.elim_none]
    exact keepsLb_moveFrame (fun _ _ => rfl) _ input
  | some pool =>
    simp only [LbNode.node, hpool, Option.elim_some]
    refine moveFrame_preserves
      (I := fun w : World bits Handle => ∃ as, w.lb = LbNode.run hash world.lb as)
      (fun w handle => ?_) ⟨[], rfl⟩ input
    rintro ⟨as, has⟩
    let a : Arrival := ⟨env.pool world.tick, env.nowMs w.tick, (w.mem handle).priv⟩
    have husable : a.usable = some pool := hpool
    refine ⟨as ++ [a], ?_⟩
    rw [LbNode.run_append, ← has, LbNode.run_cons, LbNode.run_nil,
      LbNode.arrive_of_usable hash _ husable]
    rfl

omit [DecidableEq Handle] in
/-- What a run of a graph does to the load balancer, some packets would do. -/
theorem Graph.Wired.exists_run {g : Graph (World bits Handle) Handle}
    {source : Node (World bits Handle) Handle} {rest : List (Node (World bits Handle) Handle)}
    {ranks : List ℕ} {d : Dispatcher Handle} {fuel : ℕ} {world : World bits Handle}
    {r : Run (World bits Handle) Handle} (h : g.Wired env source rest ranks)
    (hsource : ∀ world input, (source.process world input).1.lb = world.lb)
    (hrest : rest.Forall (Node.RunsLb hash)) (hd : Dispatcher.Reachable g 0 d)
    (hrun : Dispatcher.runOnce g 0 fuel .cleared d { world with ledger := {} } = .ok r) :
    ∃ as, r.world.lb = LbNode.run hash world.lb as := by
  obtain ⟨-, -, log, input, htrace, hlog⟩ := h.runOnce hd hrun
  refine htrace.preserves (I := fun w => ∃ as, w.lb = LbNode.run hash world.lb as)
    (Q := fun v => v ≠ 0) ?_ hlog ⟨[], hsource _ input⟩
  rintro v node hv hne w input' ⟨as, has⟩
  obtain ⟨as', has'⟩ := List.forall_iff_forall_mem.mp hrest node (h.mem_rest hne hv) w input'
  exact ⟨as ++ as', by rw [LbNode.run_append, ← has, has']⟩

end RunsLb

namespace Dataplane

section Invariant

variable {arrivals : ℕ → Mbuf} {hash : FlowKey → UInt32} {cfg : Config} {cks : Checksums}
  {args : List LcoreArg} {envs txEnvs : ℕ → Env ℕ} {timeoutMs : UInt32} {s s' : Dataplane bits}
  {idx : ℕ} {arg : LcoreArg}

/-- The same for the graph of an lcore that has a load balancer. -/
theorem exists_run_graph {env : Env ℕ} {core : Core bits} {lb : LbNode bits}
    (hlb : lb ∈ arg.lbNode bits timeoutMs) (hlive : core.Live (arg.graph bits env hash cfg cks))
    {r : Run (World bits ℕ) ℕ} (hrun : core.Runs (arg.graph bits env hash cfg cks) r) :
    ∃ as, r.world.lb = LbNode.run hash core.world.lb as := by
  obtain ⟨-, g, root, fuel, hbuild, hreach, hrun⟩ := hlive.runs hrun
  rw [LcoreArg.graph] at hbuild
  rw [LcoreArg.lbNode] at hlb
  cases hrole : arg.role with
  | mono =>
    rw [hrole] at hbuild
    obtain ⟨g', hg', -, hwired⟩ := wired_monolithic bits env hash cfg cks
    obtain ⟨rfl, rfl⟩ := Prod.mk.inj (Except.ok.inj (hg'.symm.trans hbuild))
    exact hwired.exists_run (fun _ _ => keepsLb_moveFrame (fun _ _ => rfl) _ _)
      ⟨Ip4ParseNode.keepsLb.runsLb, LbNode.runsLb, DnatNode.keepsLb.runsLb,
        EtherRewriteNode.keepsLb.runsLb, TxNode.keepsLb.runsLb, DropNode.keepsLb.runsLb,
        ArpNode.keepsLb.runsLb⟩ hreach hrun
  | io =>
    rw [hrole] at hlb
    cases hlb
  | worker =>
    rw [hrole] at hbuild
    obtain ⟨g', hg', -, hwired⟩ := wired_worker bits env hash cfg cks
    obtain ⟨rfl, rfl⟩ := Prod.mk.inj (Except.ok.inj (hg'.symm.trans hbuild))
    exact hwired.exists_run (fun _ _ => keepsLb_moveFrame (fun _ _ => rfl) _ _)
      ⟨Ip4ParseNode.keepsLb.runsLb, LbNode.runsLb, DnatNode.keepsLb.runsLb,
        EtherRewriteNode.keepsLb.runsLb, RingTxNode.keepsLb.runsLb, DropNode.keepsLb.runsLb⟩
      hreach hrun

/-- The lcores can run on, and their load balancers are in states that some packets lead to. -/
structure Sound (hash : FlowKey → UInt32) (cfg : Config) (cks : Checksums) (args : List LcoreArg)
    (envs : ℕ → Env ℕ) (timeoutMs : UInt32) (s : Dataplane bits) : Prop where
  live : ∀ idx arg, args[idx]? = some arg →
    (s.core idx).Live (arg.graph bits (envs idx) hash cfg cks)
  exists_run : ∀ idx arg, args[idx]? = some arg → ∀ lb ∈ arg.lbNode bits timeoutMs,
    ∃ as, (s.core idx).world.lb = LbNode.run hash lb as

/-- An lcore runs its graph, and the others are left alone. -/
theorem Sound.run (h : s.Sound hash cfg cks args envs timeoutMs) (harg : args[idx]? = some arg)
    {r : Run (World bits ℕ) ℕ}
    (hrun : (s.core idx).Runs (arg.graph bits (envs idx) hash cfg cks) r)
    (hcore : s'.core idx = ⟨r.disp, r.world⟩) (hrest : ∀ idx' ≠ idx, s'.core idx' = s.core idx') :
    s'.Sound hash cfg cks args envs timeoutMs := by
  have hself {arg' : LcoreArg} (harg' : args[idx]? = some arg') : arg' = arg :=
    Option.some.inj (harg'.symm.trans harg)
  constructor
  · intro idx' arg' harg'
    rcases eq_or_ne idx' idx with rfl | hne
    · rw [hself harg', hcore]
      exact ((h.live idx' arg harg).runs hrun).1
    · rw [hrest idx' hne]
      exact h.live idx' arg' harg'
  · intro idx' arg' harg' lb hlb
    rcases eq_or_ne idx' idx with rfl | hne
    · obtain rfl := hself harg'
      obtain ⟨as, has⟩ := h.exists_run idx' arg' harg lb hlb
      obtain ⟨as', has'⟩ := exists_run_graph hlb (h.live idx' arg' harg) hrun
      refine ⟨as ++ as', ?_⟩
      rw [hcore, LbNode.run_append, ← has]
      exact has'
    · rw [hrest idx' hne]
      exact h.exists_run idx' arg' harg' lb hlb

theorem Sound.step (h : s.Sound hash cfg cks args envs timeoutMs)
    (hstep : Step arrivals hash cfg cks args envs txEnvs s s') :
    s'.Sound hash cfg cks args envs timeoutMs := by
  cases hstep with
  | mono harg _ _ _ hrun =>
    exact h.run harg hrun (Function.update_self _ _ s.core) fun _ => core_afterMono_of_ne
  | receive harg _ _ _ _ _ hrun =>
    exact h.run harg hrun (Function.update_self _ _ s.core) fun _ => core_afterReceive_of_ne
  | work harg _ _ _ _ _ hrun =>
    exact h.run harg hrun (Function.update_self _ _ s.core) fun _ => core_afterWork_of_ne
  | transmit => exact ⟨h.live, h.exists_run⟩
  | enqueue => exact ⟨h.live, h.exists_run⟩

/-- The load balancers are in states that packets lead to. -/
theorem Reachable.sound
    (h : Reachable arrivals hash cfg cks args envs txEnvs timeoutMs s) :
    s.Sound hash cfg cks args envs timeoutMs := by
  obtain ⟨s₀, hfresh, hsteps⟩ := h
  induction hsteps with
  | refl =>
    exact ⟨fun idx arg harg => (hfresh.core idx arg harg).live,
      fun idx arg harg lb hlb => ⟨[], hfresh.lb idx arg harg lb hlb⟩⟩
  | tail _ hstep ih => exact ih.step hstep

/-- Each lcore that has a load balancer has the ports of its share, free or held. -/
theorem Reachable.portsConserved
    (h : Reachable arrivals hash cfg cks args envs txEnvs timeoutMs s)
    (harg : args[idx]? = some arg) (hrole : arg.role ≠ .io) :
    (s.core idx).world.lb.PortsConserved arg.share := by
  have hrun := h.sound.exists_run idx arg harg
  rw [LcoreArg.lbNode] at hrun
  rw [LcoreArg.share]
  cases hrole' : arg.role with
  | mono =>
    rw [hrole'] at hrun
    obtain ⟨as, has⟩ := hrun _ rfl
    exact has ▸ LbNode.portsConserved_run hash bits timeoutMs 0 1 as
  | io => exact absurd hrole' hrole
  | worker =>
    rw [hrole'] at hrun
    obtain ⟨as, has⟩ := hrun _ rfl
    exact has ▸ LbNode.portsConserved_run hash bits timeoutMs _ _ as

end Invariant

/-! ### The rings -/

section Rings

variable (bits) (arrivals : ℕ → Mbuf) (hash : FlowKey → UInt32) (cfg : Config) (cks : Checksums)
  (envs txEnvs : ℕ → Env ℕ) (timeoutMs : UInt32)

/-- In some state that the lcores can reach, one of them has something to put on the ring. -/
def Enqueues (args : List LcoreArg) (idx ptr : ℕ) : Prop :=
  ∃ s : Dataplane bits, Reachable arrivals hash cfg cks args envs txEnvs timeoutMs s ∧
    ∃ arg, args[idx]? = some arg ∧ ∃ p ∈ s.out idx, arg.ringOf p.1 = some ptr

/-- The lcore takes packets from the ring. -/
def Dequeues (args : List LcoreArg) (idx ptr : ℕ) : Prop :=
  ∃ arg, args[idx]? = some arg ∧ arg.source = some ptr

/-- The rings are used as they were created. -/
structure RingsOwned (layout : Layout) : Prop where
  /-- `rte_ring_create` takes no name twice. -/
  names : (layout.rings.map RingSpec.name).Nodup
  /-- `rte_ring_create` takes powers of two. -/
  counts : ∀ spec ∈ layout.rings, ∃ k, spec.count = 2 ^ k
  /-- What an lcore puts on a ring, it puts on a ring that was created. -/
  enqueues : ∀ s : Dataplane bits,
    Reachable arrivals hash cfg cks layout.args envs txEnvs timeoutMs s →
      ∀ (idx : ℕ) (arg : LcoreArg), layout.args[idx]? = some arg → ∀ p ∈ s.out idx,
        ∃ ptr < layout.rings.length, arg.ringOf p.1 = some ptr
  /-- And so with what it takes. -/
  dequeues : ∀ (idx : ℕ) (arg : LcoreArg), layout.args[idx]? = some arg → arg.role ≠ .mono →
    ∃ ptr < layout.rings.length, arg.source = some ptr
  producer : ∀ (ptr : ℕ) (spec : RingSpec), layout.rings[ptr]? = some spec → spec.spEnq →
    ∀ idx idx', Enqueues bits arrivals hash cfg cks envs txEnvs timeoutMs layout.args idx ptr →
      Enqueues bits arrivals hash cfg cks envs txEnvs timeoutMs layout.args idx' ptr → idx = idx'
  consumer : ∀ (ptr : ℕ) (spec : RingSpec), layout.rings[ptr]? = some spec → spec.scDeq →
    ∀ idx idx', Dequeues layout.args idx ptr → Dequeues layout.args idx' ptr → idx = idx'

variable {bits arrivals hash cfg cks envs txEnvs timeoutMs} {portId : UInt16} {n : ℕ}

/-- A single lcore has nothing for rings. -/
theorem Reachable.out_mono {s : Dataplane bits}
    (h : Reachable arrivals hash cfg cks (Layout.mono portId).args envs txEnvs timeoutMs s)
    (idx : ℕ) : s.out idx = [] := by
  obtain ⟨s₀, hfresh, hsteps⟩ := h
  induction hsteps with
  | refl => exact hfresh.out_eq idx
  | tail _ hstep ih =>
    cases hstep with
    | mono => exact ih
    | receive harg hrole =>
      obtain ⟨-, rfl⟩ := args_mono.mp harg
      cases hrole
    | transmit => exact ih
    | work harg hrole =>
      obtain ⟨-, rfl⟩ := args_mono.mp harg
      cases hrole
    | enqueue harg _ hptr =>
      obtain ⟨-, rfl⟩ := args_mono.mp harg
      exact absurd hptr ringOf_monoArg

theorem ringsOwned_mono :
    RingsOwned bits arrivals hash cfg cks envs txEnvs timeoutMs (Layout.mono portId) where
  names := List.nodup_nil
  counts := nofun
  enqueues s hs idx arg _ p hp := by
    rw [hs.out_mono] at hp
    exact absurd hp List.not_mem_nil
  dequeues idx arg harg hrole := by
    obtain ⟨-, rfl⟩ := args_mono.mp harg
    exact absurd rfl hrole
  producer _ _ hring := absurd hring (Option.some_ne_none _).symm
  consumer _ _ hring := absurd hring (Option.some_ne_none _).symm

/-- What an lcore has for the rings is for a ring that is there, and only the IO core has something
for the workers. -/
theorem Reachable.out_distributor {s : Dataplane bits}
    (h : Reachable arrivals hash cfg cks (Layout.distributor portId n).args envs txEnvs timeoutMs s)
    (hpos : 1 ≤ n) (hn : n < kMaxLcores) {lcore : Lcore} (hlcore : IsPresent n lcore)
    {p : Ring × ℕ} (hp : p ∈ s.out (index lcore)) :
    OfDistributor n p.1 ∧ (lcore = .io ∨ p.1 = .egress) := by
  obtain ⟨t, ht, hshows⟩ := h.exists_shows hn
  obtain ⟨freed, hhistory⟩ := (Cores.exists_history_iff _ _ _ _ _ _).mpr ht
  have hconserved := (hhistory.conserved hpos).1
  rw [← hshows.out_eq lcore hlcore] at hp
  cases lcore with
  | io => exact ⟨hconserved.io p hp, Or.inl rfl⟩
  | worker w =>
    have hegress := hconserved.worker w p hp
    exact ⟨Or.inl hegress, Or.inr hegress⟩

theorem length_rings_distributor : (Layout.distributor portId n).rings.length = n + 1 := by
  rw [Layout.distributor, List.length_append, List.length_map, List.length_range,
    List.length_singleton]

theorem number_le {ring : Ring} (h : OfDistributor n ring) : number n ring ≤ n := by
  obtain rfl | ⟨w, hw, rfl⟩ := h
  · exact le_rfl
  · exact hw.le

theorem enqueues_distributor (hpos : 1 ≤ n) (hn : n < kMaxLcores) {idx ptr : ℕ}
    (h : Enqueues bits arrivals hash cfg cks envs txEnvs timeoutMs
      (Layout.distributor portId n).args idx ptr) : idx = 0 ∨ ptr = n := by
  obtain ⟨s, hs, arg, harg, p, hp, hptr⟩ := h
  obtain ⟨lcore, hlcore, rfl⟩ := exists_index harg
  obtain ⟨-, rfl | hegress⟩ := hs.out_distributor hpos hn hlcore hp
  · exact Or.inl rfl
  · rw [ringOf_eq_some harg, hegress] at hptr
    exact Or.inr hptr.2

theorem dequeues_distributor {idx ptr : ℕ}
    (h : Dequeues (Layout.distributor portId n).args idx ptr) :
    idx = 0 ∧ ptr = n ∨ idx = ptr + 1 ∧ ptr < n := by
  obtain ⟨arg, harg, hptr⟩ := h
  obtain ⟨rfl, rfl⟩ | ⟨w, hw, rfl, rfl⟩ := Layout.args_distributor.mp harg
  · exact Or.inl ⟨rfl, (Option.some.inj hptr).symm⟩
  · obtain rfl := Option.some.inj hptr
    exact Or.inr ⟨rfl, hw⟩

/-- No two rings have the same name. -/
theorem nodup_names : ((Layout.distributor portId n).rings.map RingSpec.name).Nodup := by
  have hname (i : ℕ) : (ingressSpec i).name.toList =
      "cere_ingress_".toList ++ Nat.toDigits 10 i := by
    rw [ingressSpec, String.toList_append]
    exact congrArg _ Nat.toList_repr
  have hinj : Function.Injective fun i => (ingressSpec i).name := fun i j hij => by
    have hdigits := congrArg String.toList hij
    rw [hname, hname, List.append_cancel_left_eq] at hdigits
    rw [← Numerals.ofDigits_toDigits i, hdigits, Numerals.ofDigits_toDigits]
  rw [Layout.distributor, List.map_append, List.map_map, List.map_singleton]
  refine List.nodup_append.mpr ⟨List.nodup_range.map hinj, List.nodup_singleton _, ?_⟩
  rintro _ hingress _ hegress rfl
  obtain ⟨i, -, hi⟩ := List.mem_map.mp hingress
  rw [List.mem_singleton.mp hegress] at hi
  have hchars := congrArg (List.take 6) ((hname i).symm.trans (congrArg String.toList hi))
  rw [List.take_append_of_le_length (by decide)] at hchars
  exact absurd hchars (by decide)

theorem ringsOwned_distributor (hpos : 1 ≤ n) (hn : n < kMaxLcores) :
    RingsOwned bits arrivals hash cfg cks envs txEnvs timeoutMs (Layout.distributor portId n) where
  names := nodup_names
  counts spec hspec := by
    obtain ⟨ptr, hptr⟩ := List.mem_iff_getElem?.mp hspec
    obtain ⟨-, rfl⟩ | ⟨-, rfl⟩ := Layout.rings_distributor.mp hptr
    · exact ⟨10, rfl⟩
    · exact ⟨11, rfl⟩
  enqueues s hs idx arg harg p hp := by
    obtain ⟨lcore, hlcore, rfl⟩ := exists_index harg
    obtain ⟨hring, -⟩ := hs.out_distributor hpos hn hlcore hp
    refine ⟨number n p.1, ?_, (ringOf_eq_some harg).mpr ⟨hring, rfl⟩⟩
    rw [length_rings_distributor]
    exact Nat.lt_succ_of_le (number_le hring)
  dequeues idx arg harg _ := by
    rw [length_rings_distributor]
    obtain ⟨-, rfl⟩ | ⟨w, hw, -, rfl⟩ := Layout.args_distributor.mp harg
    · exact ⟨n, Nat.lt_succ_self n, rfl⟩
    · exact ⟨w, Nat.lt_succ_of_lt hw, rfl⟩
  producer ptr spec hring hsp idx idx' h h' := by
    -- of the two kinds of rings, those to the workers are for a single producer
    obtain ⟨hlt, rfl⟩ | ⟨-, rfl⟩ := Layout.rings_distributor.mp hring
    · rw [(enqueues_distributor hpos hn h).resolve_right hlt.ne,
        (enqueues_distributor hpos hn h').resolve_right hlt.ne]
    · exact absurd hsp Bool.false_ne_true
  consumer ptr spec _ _ idx idx' h h' := by
    obtain ⟨rfl, hptr⟩ | ⟨rfl, hptr⟩ := dequeues_distributor h <;>
      obtain ⟨rfl, hptr'⟩ | ⟨rfl, hptr'⟩ := dequeues_distributor h'
    · rfl
    · exact absurd hptr hptr'.ne
    · exact absurd hptr' hptr.ne
    · rfl

end Rings

end Dataplane

/-- What each lcore that `RunDataplane` launches has to itself, in any state that the lcores can
reach: a slot of counters, one side of the rings that are made for one lcore on that side, and its
share of the source ports, every port for every backend free or held. -/
def OwnsResources (bits : ℕ) (arrivals : ℕ → Mbuf) (hash : FlowKey → UInt32) (cfg : Config)
    (cks : Checksums) (timeoutMs : UInt32) (envs txEnvs : ℕ → Env ℕ) : Prop :=
  ∀ created port lcoreCount layout, runDataplane created port lcoreCount = .ok layout →
    layout.args.map LcoreArg.stats = List.range layout.args.length ∧
    layout.args.length ≤ kMaxLcores ∧
    Dataplane.RingsOwned bits arrivals hash cfg cks envs txEnvs timeoutMs layout ∧
    (∀ port : UInt16, kEphemeralLow ≤ port.toNat →
      ∃! idx : ℕ, ∃ arg : LcoreArg, layout.args[idx]? = some arg ∧ port ∈ arg.share) ∧
    ∀ s : Dataplane bits,
      Dataplane.Reachable arrivals hash cfg cks layout.args envs txEnvs timeoutMs s →
        ∀ (idx : ℕ) (arg : LcoreArg), layout.args[idx]? = some arg → arg.role ≠ .io →
          (s.core idx).world.lb.PortsConserved arg.share

/-- In any interleaving, the lcores that `RunDataplane` launches share no slot of counters, no side
of a ring that is made for one lcore, and no source port. -/
theorem lcores_own_resources (bits : ℕ) (arrivals : ℕ → Mbuf) (hash : FlowKey → UInt32)
    (cfg : Config) (cks : Checksums) (timeoutMs : UInt32) (envs txEnvs : ℕ → Env ℕ) :
    OwnsResources bits arrivals hash cfg cks timeoutMs envs txEnvs := by
  intro created port lcoreCount layout hlayout
  obtain ⟨portId, -, ⟨-, rfl⟩ | ⟨n, hpos, hn, -, rfl, -⟩⟩ := runDataplane_eq_ok_iff.mp hlayout
  · refine ⟨rfl, (by decide : 1 ≤ kMaxLcores), Dataplane.ringsOwned_mono, fun port hport => ?_,
      fun s hs idx arg harg hrole => hs.portsConserved harg hrole⟩
    refine ⟨0, ⟨monoArg portId, rfl, mem_portShare.mpr ⟨hport, ?_, ?_⟩⟩, ?_⟩
    · exact Nat.le_of_lt_succ port.toNat_lt
    · exact UInt16.toNat_inj.mp (Nat.mod_one _)
    · rintro idx ⟨arg, harg, -⟩
      exact (Dataplane.args_mono.mp harg).1
  · have hlength : (Layout.distributor portId n).args.length = n + 1 := by
      rw [Layout.distributor, List.length_cons, List.length_map, List.length_range]
    rw [hlength]
    exact ⟨Layout.stats_distributor, hn, Dataplane.ringsOwned_distributor hpos hn,
      fun port hport => Layout.existsUnique_share hpos hn hport,
      fun s hs idx arg harg hrole => hs.portsConserved harg hrole⟩

end Cerebellum
