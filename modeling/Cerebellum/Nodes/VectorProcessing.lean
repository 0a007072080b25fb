import Cerebellum.Nodes.BurstForwarding
import Cerebellum.Nodes.PacketOrder
import Cerebellum.Nodes.TcpClose

/-!
# Bursts and single frames

The graph of a single core on a burst of frames, compared with the same graph on the frames one by
one, at the same time and with the same pool. A run on a burst forwards the same frames as runs on
the single frames when the reverse frames come last; so it does in the order of arrival if no
forward frame comes behind a reverse frame.

A reverse frame that closes a flow makes a difference: the forward frame behind it is forwarded with
the burst, and dropped when it comes by itself.

## Main definitions

* `Cerebellum.Core.Forwards`, `Cerebellum.Core.ForwardsEach`: runs on a burst and on single frames.
* `Cerebellum.AgreesWith`: a burst forwards the same frames as single frames in a certain order.

## Main results

* `Cerebellum.burst_agrees_reverse_last`: it does when the reverse frames come last.
* `Cerebellum.burst_differs_from_arrival_order`: a burst of three frames for which the order
  matters.
-/

namespace Cerebellum

open Graph Dispatcher
open Pipeline (internetChecksums)

variable {bits : ℕ}

/-! ### Bursts and single frames -/

section Agreement

variable (hash : FlowKey → UInt32) (cfg : Config) (cks : Checksums) (pool : Option BackendPool)
  (nowMs : UInt32) (mbufs : ℕ → Mbuf)

/-- The dispatcher has been constructed and has run the graph any number of times, in any state of
the nodes and whatever came in. -/
inductive Core.Ready : Core bits → Prop
  | init {core : Core bits} {env : Env ℕ}
      (h : core.Fresh (buildMonolithicGraph bits env hash cfg cks)) : Ready core
  | run {core : Core bits} {env : Env ℕ} {r : Run (World bits ℕ) ℕ} {world : World bits ℕ}
      (h : Ready core) (hrun : core.Runs (buildMonolithicGraph bits env hash cfg cks) r) :
      Ready ⟨r.disp, world⟩

/-- The frames at the positions `hs` of `mbufs` come in at a given time, with a given pool. -/
structure Env.Offers (hs : List ℕ) (tick : ℕ) (env : Env ℕ) : Prop where
  received_eq : (env.received tick).bufs = hs
  memory_eq : ∀ i ∈ hs, env.memory tick i = mbufs i
  pool_eq : ∀ tick, env.pool tick = pool
  nowMs_eq : ∀ tick, env.nowMs tick = nowMs

/-- One run on the frames `hs`: those that reach the device, which may refuse them, are `forwarded`.
-/
def Core.Forwards (core : Core bits) (hs : List ℕ) (core' : Core bits) (forwarded : List ℕ) :
    Prop :=
  ∃ env r, Env.Offers pool nowMs mbufs hs core.world.tick env ∧
    core.Runs (buildMonolithicGraph bits env hash cfg cks) r ∧ core' = ⟨r.disp, r.world⟩ ∧
    forwarded = r.world.ledger.sent ++ r.world.ledger.freed

/-- Runs on single frames, one after the other. -/
inductive Core.ForwardsEach : Core bits → List ℕ → List ℕ → Prop
  | nil {core : Core bits} : ForwardsEach core [] []
  | cons {core core' : Core bits} {i : ℕ} {order forwarded rest : List ℕ}
      (h : core.Forwards hash cfg cks pool nowMs mbufs [i] core' forwarded)
      (hrest : ForwardsEach core' order rest) : ForwardsEach core (i :: order) (forwarded ++ rest)

/-- With the load balancer in state `n`, a run on the first `k` frames forwards the same frames as
runs on the single frames in the given order. -/
def AgreesWith (n : LbNode bits) (k : ℕ) (order : List ℕ) : Prop :=
  ∀ core core₁ core' : Core bits, core.Ready hash cfg cks → core₁.Ready hash cfg cks →
    core.world.lb = n → core₁.world.lb = n → ∀ forwarded forwarded₁,
    core.Forwards hash cfg cks pool nowMs mbufs (List.range k) core' forwarded →
    core₁.ForwardsEach hash cfg cks pool nowMs mbufs order forwarded₁ →
    forwarded.Perm forwarded₁

/-- The first `k` frames, those to the virtual service and others before those from backends. -/
def reverseLast (k : ℕ) : List ℕ :=
  ((List.range k).filter fun i => (Ip4ParseNode.classify cfg (mbufs i)).2 ≠ .rev) ++
    (List.range k).filter fun i => (Ip4ParseNode.classify cfg (mbufs i)).2 = .rev

/-- No forward frame comes behind a reverse frame. -/
def ForwardBeforeReverse (order : List ℕ) : Prop :=
  order.Pairwise fun i j => (Ip4ParseNode.classify cfg (mbufs i)).2 = .rev →
    (Ip4ParseNode.classify cfg (mbufs j)).2 ≠ .fwd

end Agreement

section Agreement

variable {hash : FlowKey → UInt32} {cfg : Config} {cks : Checksums} {pool : Option BackendPool}
  {nowMs : UInt32} {mbufs : ℕ → Mbuf} {core core' : Core bits} {hs order forwarded : List ℕ}

/-- The graph is the same whatever comes in, so that the dispatcher fits it. -/
theorem Core.Ready.idle (h : core.Ready hash cfg cks) (env : Env ℕ)
    {g : Graph (World bits ℕ) ℕ} {root : NodeId}
    (hbuild : buildMonolithicGraph bits env hash cfg cks = .ok (g, root)) : core.disp.Idle g := by
  have hlength {env : Env ℕ} {g : Graph (World bits ℕ) ℕ} {root : NodeId}
      (hbuild : buildMonolithicGraph bits env hash cfg cks = .ok (g, root)) :
      g.nodes.length = 8 ∧ root.toNat < g.nodes.length := by
    obtain ⟨g', hg', -, hwired⟩ := wired_monolithic bits env hash cfg cks
    obtain ⟨rfl, rfl⟩ := Prod.mk.inj (Except.ok.inj (hg'.symm.trans hbuild))
    exact ⟨by rw [hwired.nodes_eq]; rfl, hwired.root_lt⟩
  induction h generalizing env g root with
  | init hfresh =>
    obtain ⟨g', root', hbuild', hdisp⟩ := hfresh
    have hidle : (Dispatcher.init g').Idle g' := idle_init (by rw [(hlength hbuild').1]; decide)
    rw [hdisp]
    exact ⟨hidle.sound, hidle.size_eq.trans ((hlength hbuild').1.trans (hlength hbuild).1.symm),
      hidle.pending_eq⟩
  | run _ hrun ih =>
    obtain ⟨g', root', fuel, hbuild', hrun⟩ := hrun
    obtain hrunning | ⟨r', hr', hidle, -⟩ := (ih _ hbuild').runOnce (hlength hbuild').2 fuel _ _
    · rw [hrunning] at hrun
      cases hrun
    · obtain rfl := Except.ok.inj (hr'.symm.trans hrun)
      exact ⟨hidle.sound, hidle.size_eq.trans ((hlength hbuild').1.trans (hlength hbuild).1.symm),
        hidle.pending_eq⟩

theorem Core.Forwards.ready (h : core.Ready hash cfg cks)
    (hrun : core.Forwards hash cfg cks pool nowMs mbufs hs core' forwarded) :
    core'.Ready hash cfg cks := by
  obtain ⟨env, r, -, hr, rfl, -⟩ := hrun
  exact .run h hr

/-- A core can always run the graph once more. -/
theorem Core.Ready.exists_forwards (h : core.Ready hash cfg cks) (pool : Option BackendPool)
    (nowMs : UInt32) (mbufs : ℕ → Mbuf) (hlength : hs.length ≤ kBurstSize) :
    ∃ core' forwarded, core.Forwards hash cfg cks pool nowMs mbufs hs core' forwarded := by
  let env : Env ℕ :=
    { received := fun _ => ⟨hs, hlength⟩
      memory := fun _ => mbufs
      accepted := fun _ => kBurstSize
      pool := fun _ => pool
      nowMs := fun _ => nowMs }
  obtain ⟨g, hbuild, -, hwired⟩ := wired_monolithic bits env hash cfg cks
  obtain ⟨fuel, r, hrun⟩ := (h.idle env hbuild).runOnce_ends hwired.root_lt hwired.wired.ranked
    .cleared { core.world with ledger := {} }
  exact ⟨_, _, env, r, ⟨rfl, fun _ _ => rfl, fun _ => rfl, fun _ => rfl⟩,
    ⟨g, 0, fuel, hbuild, hrun⟩, rfl, rfl⟩

theorem Core.Ready.exists_forwardsEach (h : core.Ready hash cfg cks) (pool : Option BackendPool)
    (nowMs : UInt32) (mbufs : ℕ → Mbuf) (order : List ℕ) :
    ∃ forwarded, core.ForwardsEach hash cfg cks pool nowMs mbufs order forwarded := by
  induction order generalizing core with
  | nil => exact ⟨[], .nil⟩
  | cons i order ih =>
    have hlength : [i].length ≤ kBurstSize := by
      rw [List.length_singleton]
      decide
    obtain ⟨core', forwarded, hrun⟩ := h.exists_forwards pool nowMs mbufs hlength
    obtain ⟨rest, hrest⟩ := ih (hrun.ready h)
    exact ⟨_, .cons hrun hrest⟩

/-- Only the buffers of the burst matter. -/
theorem Forwarded.congr {mem : ℕ → Mbuf} {n : LbNode bits} {world : World bits ℕ}
    (h : Forwarded hash cfg pool nowMs n mem hs world) (hmem : ∀ i ∈ hs, mem i = mbufs i) :
    Forwarded hash cfg pool nowMs n mbufs hs world := by
  have hpushed (next : Ip4ParseNode.Next) :
      Ip4ParseNode.pushed cfg mem next hs = Ip4ParseNode.pushed cfg mbufs next hs :=
    List.filter_congr fun i hi => by rw [hmem i hi]
  have hmem' {next : Ip4ParseNode.Next} {i : ℕ} (hi : i ∈ Ip4ParseNode.pushed cfg mbufs next hs) :
      mem i = mbufs i := hmem i (Ip4ParseNode.mem_pushed.mp hi).1
  have hanswers : (Ip4ParseNode.pushed cfg mbufs .arp hs).filter
        (fun i => ArpNode.answers cfg (mem i)) =
      (Ip4ParseNode.pushed cfg mbufs .arp hs).filter fun i => ArpNode.answers cfg (mbufs i) :=
    List.filter_congr fun i hi => by rw [hmem' hi]
  simp only [Forwarded, hpushed, hanswers] at h ⊢
  rwa [LbNode.passed_congr hash pool nowMs n fun i hi => by
    rcases List.mem_append.mp hi with hi | hi <;> rw [hmem' hi]] at h

/-- What a run on a burst forwards. -/
theorem Core.Forwards.forwarded_perm (hready : core.Ready hash cfg cks)
    (h : core.Forwards hash cfg cks pool nowMs mbufs hs core' forwarded) (hnodup : hs.Nodup) :
    Forwarded hash cfg pool nowMs core.world.lb mbufs hs core'.world ∧
      forwarded = core'.world.ledger.sent ++ core'.world.ledger.freed := by
  obtain ⟨env, r, hoffers, ⟨g, root, fuel, hbuild, hrun⟩, rfl, rfl⟩ := h
  have hreceived := hoffers.received_eq
  have hforwarded := monolithic_forwards hoffers.pool_eq hoffers.nowMs_eq hbuild
    (hready.idle env hbuild) hrun (hreceived ▸ hnodup)
  rw [hreceived] at hforwarded
  exact ⟨hforwarded.congr hoffers.memory_eq, rfl⟩

/-- The packets for the load balancer, in order. -/
def toLb (cfg : Config) (mbufs : ℕ → Mbuf) (hs : List ℕ) : List ℕ :=
  hs.filter fun i => (Ip4ParseNode.classify cfg (mbufs i)).2 = .fwd ∨
    (Ip4ParseNode.classify cfg (mbufs i)).2 = .rev

/-- If no forward frame comes behind a reverse frame, the parse node does not change the order. -/
theorem toLb_eq (h : ForwardBeforeReverse cfg mbufs hs) :
    toLb cfg mbufs hs =
      Ip4ParseNode.pushed cfg mbufs .fwd hs ++ Ip4ParseNode.pushed cfg mbufs .rev hs := by
  induction hs with
  | nil => rfl
  | cons i hs ih =>
    obtain ⟨hi, hhs⟩ := List.pairwise_cons.mp h
    have ih := ih hhs
    simp only [toLb, Ip4ParseNode.pushed, List.filter_cons, Bool.decide_or] at ih ⊢
    cases hclass : (Ip4ParseNode.classify cfg (mbufs i)).2 with
    | fwd => simp [ih]
    | drop => simp [ih]
    | arp => simp [ih]
    | rev =>
      have hnil : hs.filter (fun j => (Ip4ParseNode.classify cfg (mbufs j)).2 = .fwd) = [] :=
        List.filter_eq_nil_iff.mpr fun j hj => by simpa using hi j hj hclass
      rw [hnil] at ih ⊢
      simp [ih]

/-- What runs on single frames forward: the load balancer sees the frames in the given order. -/
theorem Core.ForwardsEach.forwarded_perm (hready : core.Ready hash cfg cks)
    (h : core.ForwardsEach hash cfg cks pool nowMs mbufs order forwarded) :
    forwarded.Perm ((LbNode.passed hash pool nowMs
        (fun i => (Ip4ParseNode.classify cfg (mbufs i)).1) core.world.lb
        (toLb cfg mbufs order)).2 ++
      (Ip4ParseNode.pushed cfg mbufs .arp order).filter
        fun i => ArpNode.answers cfg (mbufs i)) := by
  induction h with
  | nil => exact List.Perm.refl _
  | @cons core core' i order forwarded rest h hrest ih =>
    obtain ⟨⟨hlb, hperm⟩, hforwarded⟩ := h.forwarded_perm hready (List.nodup_singleton i)
    have ih := ih (h.ready hready)
    have hlbs : toLb cfg mbufs (i :: order) = toLb cfg mbufs [i] ++ toLb cfg mbufs order :=
      List.filter_append [i] order
    have harps : Ip4ParseNode.pushed cfg mbufs .arp (i :: order) =
        Ip4ParseNode.pushed cfg mbufs .arp [i] ++ Ip4ParseNode.pushed cfg mbufs .arp order :=
      List.filter_append [i] order
    rw [← toLb_eq (List.pairwise_singleton _ i), ← hforwarded] at hperm
    rw [← toLb_eq (List.pairwise_singleton _ i)] at hlb
    rw [hlb] at ih
    rw [hlbs, harps, List.filter_append, LbNode.passed_append]
    refine (hperm.append ih).trans ?_
    rw [← Multiset.coe_eq_coe]
    simp only [← Multiset.coe_add]
    abel

/-- A burst agrees with an order in which the load balancer sees the frames in the same order. -/
theorem agreesWith_of_pushed_eq {k : ℕ} (n : LbNode bits)
    (horder : ForwardBeforeReverse cfg mbufs order)
    (hpushed : ∀ next, Ip4ParseNode.pushed cfg mbufs next order =
      Ip4ParseNode.pushed cfg mbufs next (List.range k)) :
    AgreesWith hash cfg cks pool nowMs mbufs n k order := by
  intro core core₁ core' hready hready₁ hlb hlb₁ forwarded forwarded₁ hburst heach
  obtain ⟨⟨-, hperm⟩, rfl⟩ := hburst.forwarded_perm hready List.nodup_range
  have hperm₁ := heach.forwarded_perm hready₁
  rw [toLb_eq horder, hpushed, hpushed, hpushed, hlb₁] at hperm₁
  rw [hlb] at hperm
  exact hperm.trans hperm₁.symm

theorem forwardBeforeReverse_reverseLast (cfg : Config) (mbufs : ℕ → Mbuf) (k : ℕ) :
    ForwardBeforeReverse cfg mbufs (reverseLast cfg mbufs k) := by
  refine List.pairwise_append.mpr ⟨?_, ?_, fun i hi j hj hrev => ?_⟩
  · refine List.pairwise_filter.mpr (List.pairwise_of_forall fun i j hi _ hrev => ?_)
    exact absurd hrev (of_decide_eq_true hi)
  · refine List.pairwise_filter.mpr (List.pairwise_of_forall fun i j _ hj _ => ?_)
    rw [of_decide_eq_true hj]
    exact Ip4ParseNode.Next.noConfusion
  · exact absurd hrev (of_decide_eq_true (List.mem_filter.mp hi).2)

theorem pushed_reverseLast (cfg : Config) (mbufs : ℕ → Mbuf) (k : ℕ) (next : Ip4ParseNode.Next) :
    Ip4ParseNode.pushed cfg mbufs next (reverseLast cfg mbufs k) =
      Ip4ParseNode.pushed cfg mbufs next (List.range k) := by
  rw [Ip4ParseNode.pushed, reverseLast, List.filter_append, List.filter_filter, List.filter_filter]
  by_cases hrev : next = .rev
  · subst hrev
    rw [List.filter_eq_nil_iff.mpr (by simp), List.nil_append]
    exact List.filter_congr fun i _ => by simp
  · have hnil : (List.range k).filter (fun i =>
        decide ((Ip4ParseNode.classify cfg (mbufs i)).2 = next) &&
          decide ((Ip4ParseNode.classify cfg (mbufs i)).2 = .rev)) = [] := by
      refine List.filter_eq_nil_iff.mpr fun i _ h => hrev ?_
      simp only [Bool.and_eq_true, decide_eq_true_eq] at h
      exact h.1.symm.trans h.2
    rw [hnil, List.append_nil]
    refine List.filter_congr fun i _ => ?_
    by_cases hnext : (Ip4ParseNode.classify cfg (mbufs i)).2 = next
    · simp [hnext, hrev]
    · simp [hnext]

/-- In every state of the load balancer, a run on a burst forwards the same frames as runs on the
single frames with the reverse frames last, and in the order of arrival if no forward frame comes
behind a reverse frame. These runs always end. -/
theorem burst_agrees_reverse_last (bits : ℕ) (hash : FlowKey → UInt32) (cfg : Config)
    (cks : Checksums) (pool : Option BackendPool) (nowMs : UInt32) (n : LbNode bits)
    (mbufs : ℕ → Mbuf) (k : ℕ) (hk : k ≤ kBurstSize) :
    AgreesWith hash cfg cks pool nowMs mbufs n k (reverseLast cfg mbufs k) ∧
      (ForwardBeforeReverse cfg mbufs (List.range k) →
        AgreesWith hash cfg cks pool nowMs mbufs n k (List.range k)) ∧
      ∀ core : Core bits, core.Ready hash cfg cks →
        (∃ core' forwarded,
          core.Forwards hash cfg cks pool nowMs mbufs (List.range k) core' forwarded) ∧
        ∀ order, ∃ forwarded,
          core.ForwardsEach hash cfg cks pool nowMs mbufs order forwarded := by
  refine ⟨agreesWith_of_pushed_eq n (forwardBeforeReverse_reverseLast cfg mbufs k)
    (pushed_reverseLast cfg mbufs k), fun h => agreesWith_of_pushed_eq n h fun _ => rfl,
    fun core h => ⟨?_, h.exists_forwardsEach pool nowMs mbufs⟩⟩
  exact h.exists_forwards pool nowMs mbufs (by rwa [List.length_range])

end Agreement

/-! ### The order of arrival -/

/-- A TCP frame with the given addresses, ports and flags. -/
def tcpFrame (addrs ports : List UInt8) (tcpFlags : UInt8) : Frame := fun k =>
  ([0, 0, 0, 0, 0, 0, 0, 0, 0, 0, 0, 0, 8, 0, 0x45, 0, 0, 40, 0, 0, 0, 0, 64, 6, 0, 0] ++ addrs ++
    ports ++ [0, 0, 0, 0, 0, 0, 0, 0, 0x50, tcpFlags]).getD k 0

/-- A FIN of the client, a FIN of the backend, and the client's acknowledgement. -/
def closingFrames (i : ℕ) : Mbuf where
  frame :=
    [tcpFrame [10, 0, 1, 2, 10, 0, 1, 253] [156, 64, 0, 80] 0x11,
      tcpFrame [10, 0, 2, 2, 10, 0, 2, 1] [31, 144, 4, 0] 0x11,
      tcpFrame [10, 0, 1, 2, 10, 0, 1, 253] [156, 64, 0, 80] 0x10].getD i fun _ => 0

/-- The virtual service `10.0.1.253:80`, on the way to backends behind `10.0.2.1`. -/
def closingConfig : Config where
  vip := 0x0A0001FD
  vipPort := 80
  selfIp := 0x0A000201

theorem srcMac_tcpFrame (addrs ports : List UInt8) (tcpFlags : UInt8) :
    (tcpFrame addrs ports tcpFlags).srcMac = {} :=
  congrArg MacAddr.mk
    (funext fun | 0 => rfl | 1 => rfl | 2 => rfl | 3 => rfl | 4 => rfl | 5 => rfl)

theorem classify_closingFrames :
    Ip4ParseNode.classify closingConfig (closingFrames 0) = (LbNode.tcpSegment 40000 0x11, .fwd) ∧
      Ip4ParseNode.classify closingConfig (closingFrames 1) =
        ((LbNode.replyArrival { ip := 0x0A000202, port := 8080 } 1024 0x11).packet, .rev) ∧
      Ip4ParseNode.classify closingConfig (closingFrames 2) =
        (LbNode.tcpSegment 40000 0x10, .fwd) := by
  refine ⟨Ip4ParseNode.classify_eq_fwd.mpr ⟨by decide +kernel, ?_⟩,
    Ip4ParseNode.classify_eq_rev.mpr ⟨by decide +kernel, ?_⟩,
    Ip4ParseNode.classify_eq_fwd.mpr ⟨by decide +kernel, ?_⟩⟩
  · rw [Ip4ParseNode.parsedMeta, show (closingFrames 0).frame.srcMac = {} from srcMac_tcpFrame ..]
    rfl
  · rw [Ip4ParseNode.parsedMeta, show (closingFrames 1).frame.srcMac = {} from srcMac_tcpFrame ..]
    rfl
  · rw [Ip4ParseNode.parsedMeta, show (closingFrames 2).frame.srcMac = {} from srcMac_tcpFrame ..]
    rfl

/-- While only the client has sent its FIN, its acknowledgements pass. -/
theorem LbNode.ack_passes_after_fin (hash : FlowKey → UInt32) (bits : ℕ) (timeoutMs : UInt32)
    {backend : BackendInfo} {s : Slot bits}
    (hslot : (run hash (init bits timeoutMs 0 1)
      [tcpArrival backend 40000 kTcpSyn]).nat.slots s = synFlow backend 1024)
    (hscan : OnReplyScan hash (run hash (init bits timeoutMs 0 1)
      [tcpArrival backend 40000 kTcpSyn]).nat s) :
    (arrive hash (run hash (run hash (init bits timeoutMs 0 1)
      [tcpArrival backend 40000 kTcpSyn]) [tcpArrival backend 40000 0x11])
      (tcpArrival backend 40000 0x10)).2.1 = true := by
  have hopen := (closeHandshake_closing hslot).stillOpen_or_gone
    (ownsReplies_of_stableBackends (stable_closing backend 1024) s) hscan
    (show closing backend 1024 = [tcpArrival backend 40000 0x11] ++
      [replyArrival backend 1024 0x11, tcpArrival backend 40000 0x10] from rfl)
  simp only [hslot] at hopen
  rcases hopen with hopen | ⟨hboth, -⟩
  · have hmap : NatTable.ForwardMap hash (run hash (run hash (init bits timeoutMs 0 1)
        [tcpArrival backend 40000 kTcpSyn]) [tcpArrival backend 40000 0x11]).nat := by
      rw [← run_append]
      exact forwardMap_run ..
    have hlive : ((run hash (run hash (init bits timeoutMs 0 1) [tcpArrival backend 40000 kTcpSyn])
        [tcpArrival backend 40000 0x11]).nat.slots s).Live
          (run hash (run hash (init bits timeoutMs 0 1) [tcpArrival backend 40000 kTcpSyn])
            [tcpArrival backend 40000 0x11]).nat.timeoutMs 0 := by
      rw [hopen.slot]
      exact NatTable.live_of_lastSeen_eq ⟨rfl, rfl⟩ (lastSegment_eq fun b hb => by
        rw [List.mem_singleton.mp hb]
        rfl)
    obtain ⟨t, -, hsent⟩ := handlePacket_of_live_fwdKey (.single backend) hmap
      (m := tcpSegment 40000 0x10) rfl hlive (by rw [hopen.slot]; rfl)
    rw [arrive_of_usable hash _ (usable_tcpArrival backend 40000 0x10)]
    exact congrArg (fun r => r.2.1) hsent
  · rw [(finned_closing backend 1024).1, Bool.and_false] at hboth
    exact Bool.noConfusion hboth

/-- The load balancer of a fresh core may be in any state. -/
theorem exists_ready (hash : FlowKey → UInt32) (cfg : Config) (cks : Checksums) (n : LbNode bits) :
    ∃ core : Core bits, core.Ready hash cfg cks ∧ core.world.lb = n := by
  let env : Env ℕ :=
    { received := fun _ => .cleared
      memory := fun _ => closingFrames
      accepted := fun _ => 0
      pool := fun _ => none
      nowMs := fun _ => 0 }
  obtain ⟨g, hbuild, -⟩ := wired_monolithic bits env hash cfg cks
  exact ⟨⟨.init g, { mem := closingFrames, lb := n }⟩, .init ⟨g, 0, hbuild, rfl⟩, rfl⟩

theorem pushed_closingFrames :
    Ip4ParseNode.pushed closingConfig closingFrames .fwd (List.range 3) = [0, 2] ∧
      Ip4ParseNode.pushed closingConfig closingFrames .rev (List.range 3) = [1] ∧
      Ip4ParseNode.pushed closingConfig closingFrames .arp (List.range 3) = [] ∧
      toLb closingConfig closingFrames (List.range 3) = [0, 1, 2] := by
  obtain ⟨hfin, hreply, hack⟩ := classify_closingFrames
  simp [Ip4ParseNode.pushed, toLb, List.range_succ, hfin, hreply, hack]

theorem reverseLast_closingFrames : reverseLast closingConfig closingFrames 3 = [0, 2, 1] := by
  obtain ⟨hfin, hreply, hack⟩ := classify_closingFrames
  simp [reverseLast, List.range_succ, hfin, hreply, hack]

/-- After the SYN of a connection, with its only backend enabled: the client and the backend close,
and the client acknowledges. If the three frames come in one burst, the acknowledgement is
forwarded; one by one in the order of arrival, it is dropped. -/
theorem burst_differs_from_arrival_order :
    let backend : BackendInfo := { ip := 0x0A000202, port := 8080 }
    let hash := FlowKey.hash .sse42
    let n := LbNode.run hash (LbNode.init 20 30000 0 1)
      [LbNode.tcpArrival backend 40000 kTcpSyn]
    ¬ AgreesWith hash closingConfig internetChecksums (some (.single backend)) 0 closingFrames n 3
      (List.range 3) := by
  intro backend hash n hagrees
  obtain ⟨s, hslot, hscan⟩ := LbNode.exists_synFlow hash 20 30000 backend
  obtain ⟨hfwd, hrev, harp, hlbs⟩ := pushed_closingFrames
  obtain ⟨hfin, hreply, hack⟩ := classify_closingFrames
  obtain ⟨core, hready, hlb⟩ := exists_ready hash closingConfig internetChecksums n
  obtain ⟨core', forwarded, hburst⟩ := hready.exists_forwards (some (.single backend)) 0
    closingFrames (show (List.range 3).length ≤ kBurstSize by decide)
  obtain ⟨forwarded₁, heach⟩ := hready.exists_forwardsEach (some (.single backend)) 0 closingFrames
    (List.range 3)
  have hperm := hagrees core core core' hready hready hlb hlb forwarded forwarded₁ hburst heach
  -- In the burst the load balancer sees the acknowledgement before the second FIN.
  have hpasses : 2 ∈ forwarded := by
    obtain ⟨⟨-, hforwarded⟩, rfl⟩ := hburst.forwarded_perm hready List.nodup_range
    refine hforwarded.symm.subset (List.mem_append_left _ ?_)
    rw [hfwd, hrev, hlb]
    refine (LbNode.mem_passed hash _ 0 _ n [0] [1] (by decide)).mpr ?_
    simp only [List.map_cons, List.map_nil, hfin, hack]
    exact LbNode.ack_passes_after_fin hash 20 30000 hslot hscan
  have hdropped : 2 ∉ forwarded₁ := by
    intro hmem
    have hmem := (heach.forwarded_perm hready).subset hmem
    rw [harp, List.filter_nil, List.append_nil, hlbs, hlb] at hmem
    have hsent := (LbNode.mem_passed hash _ 0 _ n [0, 1] [] (by decide)).mp hmem
    simp only [List.map_cons, List.map_nil, hfin, hreply, hack] at hsent
    have hrefused := LbNode.last_ack_refused hash 20 30000 hslot hscan
    exact absurd (hsent.symm.trans (congrArg Prod.fst hrefused)) (by decide)
  exact hdropped (hperm.subset hpasses)

/-- The same burst agrees with the frames one by one if the client's acknowledgement comes before
the FIN of the backend. -/
theorem burst_agrees_acknowledgement_first :
    let backend : BackendInfo := { ip := 0x0A000202, port := 8080 }
    let hash := FlowKey.hash .sse42
    let n := LbNode.run hash (LbNode.init 20 30000 0 1)
      [LbNode.tcpArrival backend 40000 kTcpSyn]
    ∃ core core' : Core 20, ∃ forwarded forwarded₁, core.world.lb = n ∧
      core.Forwards hash closingConfig internetChecksums (some (.single backend)) 0 closingFrames
        (List.range 3) core' forwarded ∧
      core.ForwardsEach hash closingConfig internetChecksums (some (.single backend)) 0
        closingFrames [0, 2, 1] forwarded₁ ∧
      forwarded.Perm forwarded₁ := by
  intro backend hash n
  obtain ⟨core, hready, hlb⟩ := exists_ready hash closingConfig internetChecksums n
  obtain ⟨hagrees, -, hruns⟩ := burst_agrees_reverse_last 20 hash closingConfig internetChecksums
    (some (.single backend)) 0 n closingFrames 3 (by decide)
  obtain ⟨⟨core', forwarded, hburst⟩, heach⟩ := hruns core hready
  obtain ⟨forwarded₁, heach⟩ := heach [0, 2, 1]
  rw [reverseLast_closingFrames] at hagrees
  exact ⟨core, core', forwarded, forwarded₁, hlb, hburst, heach,
    hagrees core core core' hready hready hlb hlb forwarded forwarded₁ hburst heach⟩

end Cerebellum
