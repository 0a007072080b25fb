import Cerebellum.Nodes.RunOrder

/-!
# What a burst forwards

What a run of the graph of a single core makes of the burst that it receives. The parse node is
called once with the whole burst and pushes forward and reverse packets on different outputs, so
that the load balancer sees the forward packets before the reverse packets, in however many calls.
The packets that pass it, and the ARP requests that are answered, all reach the device, and no
others do.

The state of a run after the call of the parse node is described by what the load balancer and the
ARP node have seen so far (`Cerebellum.Transit.Halfway`). Every call keeps this description.

## Main definitions

* `Cerebellum.LbNode.passed`: the packets that pass the load balancer one after the other.
* `Cerebellum.Transit.Halfway`: a run after the call of the parse node.
* `Cerebellum.Forwarded`: what becomes of a burst.

## Main results

* `Cerebellum.LbNode.node_eq_passed`: what `LbNode` does to a burst.
* `Cerebellum.monolithic_forwards`: what a run forwards of its burst.
-/

namespace Cerebellum

open Graph Dispatcher Transit

variable {bits : ℕ} {Handle : Type}

/-! ### The load balancer -/

section Lb

variable (hash : FlowKey → UInt32) (pool : Option BackendPool) (nowMs : UInt32)

/-- The handles whose packets pass the load balancer, one after the other, and its state. -/
def LbNode.passed (priv : Handle → PacketMeta) (n : LbNode bits) :
    List Handle → LbNode bits × List Handle
  | [] => (n, [])
  | handle :: hs =>
    let (n, sent, _) := LbNode.arrive hash n ⟨pool, nowMs, priv handle⟩
    let (n, out) := LbNode.passed priv n hs
    (n, if sent then handle :: out else out)

theorem LbNode.passed_append (priv : Handle → PacketMeta) (n : LbNode bits) (hs hs' : List Handle) :
    passed hash pool nowMs priv n (hs ++ hs') =
      ((passed hash pool nowMs priv (passed hash pool nowMs priv n hs).1 hs').1,
        (passed hash pool nowMs priv n hs).2 ++
          (passed hash pool nowMs priv (passed hash pool nowMs priv n hs).1 hs').2) := by
  induction hs generalizing n with
  | nil => rfl
  | cons handle hs ih =>
    simp only [List.cons_append, passed, ih]
    split_ifs <;> rfl

theorem LbNode.passed_sublist (priv : Handle → PacketMeta) (n : LbNode bits) (hs : List Handle) :
    (passed hash pool nowMs priv n hs).2.Sublist hs := by
  induction hs generalizing n with
  | nil => exact List.Sublist.refl _
  | cons handle hs ih =>
    rw [passed]
    simp only
    split_ifs
    · exact (ih _).cons_cons handle
    · exact (ih _).cons handle

theorem LbNode.passed_congr {priv priv' : Handle → PacketMeta} (n : LbNode bits) {hs : List Handle}
    (h : ∀ handle ∈ hs, priv handle = priv' handle) :
    passed hash pool nowMs priv n hs = passed hash pool nowMs priv' n hs := by
  induction hs generalizing n with
  | nil => rfl
  | cons handle hs ih =>
    simp only [passed, h handle List.mem_cons_self, ih _ fun other ho => h other (.tail handle ho)]

/-- The state is that after the arrivals of the packets. -/
theorem LbNode.passed_fst (priv : Handle → PacketMeta) (n : LbNode bits) (hs : List Handle) :
    (passed hash pool nowMs priv n hs).1 =
      run hash n (hs.map fun handle => ⟨pool, nowMs, priv handle⟩) := by
  induction hs generalizing n with
  | nil => rfl
  | cons handle hs ih => exact ih _

/-- Whether one of the packets passes. -/
theorem LbNode.mem_passed (priv : Handle → PacketMeta) (n : LbNode bits) (hs hs' : List Handle)
    {handle : Handle} (hnodup : (hs ++ handle :: hs').Nodup) :
    handle ∈ (passed hash pool nowMs priv n (hs ++ handle :: hs')).2 ↔
      (arrive hash (run hash n (hs.map fun handle => ⟨pool, nowMs, priv handle⟩))
        ⟨pool, nowMs, priv handle⟩).2.1 = true := by
  obtain ⟨-, hafter, hdisjoint⟩ := List.nodup_append.mp hnodup
  have hbefore (n : LbNode bits) : handle ∉ (passed hash pool nowMs priv n hs).2 := fun h =>
    hdisjoint handle ((passed_sublist hash pool nowMs priv n hs).subset h) handle
      List.mem_cons_self rfl
  have hlater (n : LbNode bits) : handle ∉ (passed hash pool nowMs priv n hs').2 := fun h =>
    (List.nodup_cons.mp hafter).1 ((passed_sublist hash pool nowMs priv n hs').subset h)
  rw [passed_append, List.mem_append, or_iff_right (hbefore n), passed, passed_fst]
  simp only
  split_ifs with hsent
  · simp [hsent]
  · simp [hsent, hlater]

variable {pool}

/-- Nothing passes when there is no backend. -/
theorem LbNode.passed_of_not_usable (priv : Handle → PacketMeta) (n : LbNode bits)
    (h : (pool.filter fun pool => pool.activeCount ≠ 0) = none) (hs : List Handle) :
    passed hash pool nowMs priv n hs = (n, []) := by
  induction hs with
  | nil => rfl
  | cons handle hs ih =>
    have husable : (⟨pool, nowMs, priv handle⟩ : Arrival).usable = none := h
    simp only [passed, arrive_of_not_usable hash n husable, ih, Bool.false_eq_true, if_false]

end Lb

/-! ### The nodes -/

section Nodes

variable [DecidableEq Handle] {env : Env Handle} {hash : FlowKey → UInt32} {cfg : Config}
  {cks : Checksums} {pool : Option BackendPool} {nowMs : UInt32}

private theorem LbNode.moveEach_handleOne {usable : BackendPool} (hcount : usable.activeCount ≠ 0)
    (hnow : ∀ tick, env.nowMs tick = nowMs) (world : World bits Handle) {bufs : List Handle}
    (hnodup : bufs.Nodup) :
    (moveEach (handleOne env hash usable) world bufs).1.lb =
        (passed hash (some usable) nowMs (fun h => (world.mem h).priv) world.lb bufs).1 ∧
      (moveEach (handleOne env hash usable) world bufs).2 0 =
        (passed hash (some usable) nowMs (fun h => (world.mem h).priv) world.lb bufs).2 := by
  induction bufs generalizing world with
  | nil => exact ⟨rfl, rfl⟩
  | cons handle bufs ih =>
    obtain ⟨hfresh, hnodup⟩ := List.nodup_cons.mp hnodup
    obtain ⟨hlb, hout⟩ := ih (handleOne env hash usable world handle).1 hnodup
    have harrive : arrive hash world.lb ⟨some usable, nowMs, (world.mem handle).priv⟩ =
        handlePacket hash world.lb usable nowMs (world.mem handle).priv :=
      arrive_of_usable hash world.lb (Arrival.usable_eq_some.mpr ⟨rfl, hcount⟩)
    have hmem (other : Handle) (ho : other ∈ bufs) :
        (handleOne env hash usable world handle).1.mem other = world.mem other :=
      Function.update_of_ne (fun heq : other = handle => hfresh (heq ▸ ho)) _ _
    rw [passed_congr hash (some usable) nowMs _ fun other ho => congrArg Mbuf.priv (hmem other ho)]
      at hlb hout
    have hnext : (handleOne env hash usable world handle).1.lb =
        (handlePacket hash world.lb usable nowMs (world.mem handle).priv).1 := by
      rw [handleOne, hnow]
      rfl
    rw [hnext] at hlb hout
    rw [passed, harrive, moveEach]
    refine ⟨hlb, ?_⟩
    simp only [hout]
    have hsent : (handleOne env hash usable world handle).2 =
        some (if (handlePacket hash world.lb usable nowMs (world.mem handle).priv).2.1 then 0
          else 1) := by
      rw [handleOne, hnow]
    rw [hsent]
    cases (handlePacket hash world.lb usable nowMs (world.mem handle).priv).2.1 <;> simp

/-- What `LbNode` does is what `LbNode.arrive` does for one packet after the other. -/
theorem LbNode.node_eq_passed (hpool : ∀ tick, env.pool tick = pool)
    (hnow : ∀ tick, env.nowMs tick = nowMs) (world : World bits Handle)
    (input : Graph.Frame Handle) (hnodup : input.bufs.Nodup) (v : NodeId) :
    ((LbNode.node env hash).process world input).1.lb =
        (LbNode.passed hash pool nowMs (fun h => (world.mem h).priv) world.lb input.bufs).1 ∧
      ((LbNode.node env hash).call v world input).outs 0 =
        (LbNode.passed hash pool nowMs (fun h => (world.mem h).priv) world.lb input.bufs).2 := by
  have houts : ((LbNode.node env hash).call v world input).outs 0 =
      (((LbNode.node env hash).process world input).2 (0 : Fin 2)).bufs := rfl
  rw [houts]
  cases husable : pool.filter fun pool => pool.activeCount ≠ 0 with
  | none =>
    have hprocess : ((LbNode.node env hash).process world input).1.lb = world.lb ∧
        (((LbNode.node env hash).process world input).2 (0 : Fin 2)).bufs = [] := by
      simp only [LbNode.node, hpool, husable, Option.elim_none, moveFrame, moveEach_const]
      exact ⟨trivial, if_neg (by decide)⟩
    rw [hprocess.1, hprocess.2, passed_of_not_usable hash nowMs _ _ husable]
    exact ⟨rfl, rfl⟩
  | some usable =>
    obtain ⟨rfl, hcount⟩ : pool = some usable ∧ usable.activeCount ≠ 0 := by
      simpa [Option.filter_eq_some_iff] using husable
    have hprocess : ((LbNode.node env hash).process world input).1.lb =
          (moveFrame (handleOne env hash usable) world input).1.lb ∧
        (((LbNode.node env hash).process world input).2 (0 : Fin 2)).bufs =
          ((moveFrame (handleOne env hash usable) world input).2 0).bufs := by
      simp only [LbNode.node, hpool, husable]
      exact ⟨rfl, rfl⟩
    rw [hprocess.1, hprocess.2]
    exact moveEach_handleOne hcount hnow world hnodup

omit [DecidableEq Handle] in
/-- Packets that are handled one after the other, if handling one of them does not write the buffers
of the others. -/
theorem moveEach_of_nodup {n : ℕ}
    {f : World bits Handle → Handle → World bits Handle × Option (Fin n)}
    (next : Mbuf → Option (Fin n))
    (hnext : ∀ world handle, (f world handle).2 = next (world.mem handle))
    (hother : ∀ world handle, ∀ other ≠ handle, (f world handle).1.mem other = world.mem other)
    (world : World bits Handle) {bufs : List Handle} (hnodup : bufs.Nodup) (out : Fin n) :
    (moveEach f world bufs).2 out = bufs.filter fun h => next (world.mem h) = some out := by
  induction bufs generalizing world with
  | nil => rfl
  | cons handle bufs ih =>
    obtain ⟨hfresh, hnodup⟩ := List.nodup_cons.mp hnodup
    have hmem : (bufs.filter fun h => next ((f world handle).1.mem h) = some out) =
        bufs.filter fun h => next (world.mem h) = some out := by
      refine List.filter_congr fun h hh => ?_
      rw [hother world handle h fun heq => hfresh (heq ▸ hh)]
    rw [moveEach, List.filter_cons]
    simp only [hnext, ih _ hnodup, hmem, decide_eq_true_eq]

/-- The buffers of the packets, when each is handled once. -/
theorem mem_moveEach_of_mem {n : ℕ}
    {f : World bits Handle → Handle → World bits Handle × Option (Fin n)} (write : Mbuf → Mbuf)
    (hf : ∀ world handle,
      (f world handle).1.mem = Function.update world.mem handle (write (world.mem handle)))
    (world : World bits Handle) {bufs : List Handle} (hnodup : bufs.Nodup) {handle : Handle}
    (h : handle ∈ bufs) : (moveEach f world bufs).1.mem handle = write (world.mem handle) := by
  induction bufs generalizing world with
  | nil => exact absurd h List.not_mem_nil
  | cons first bufs ih =>
    obtain ⟨hfresh, hnodup⟩ := List.nodup_cons.mp hnodup
    by_cases hbufs : handle ∈ bufs
    · refine (ih (f world first).1 hnodup hbufs).trans ?_
      rw [hf, Function.update_of_ne fun heq : handle = first => hfresh (heq ▸ hbufs)]
    · obtain rfl := (List.mem_cons.mp h).resolve_right hbufs
      refine (mem_moveEach (fun world handle other hne => ?_) (f world handle).1 hbufs).trans ?_
      · rw [hf, Function.update_of_ne hne]
      · rw [hf, Function.update_self]

/-- The buffer of a packet behind the parse node. -/
def Ip4ParseNode.parsed (cfg : Config) (mbuf : Mbuf) : Mbuf :=
  { mbuf with priv := (classify cfg mbuf).1 }

theorem Ip4ParseNode.mem_process {world : World bits Handle} {input : Graph.Frame Handle}
    (hnodup : input.bufs.Nodup) {handle : Handle} (h : handle ∈ input.bufs) :
    ((Ip4ParseNode.node cfg).process world input).1.mem handle = parsed cfg (world.mem handle) :=
  mem_moveEach_of_mem (parsed cfg) (fun _ _ => rfl) world hnodup h

/-- Whether the ARP node answers the packet. -/
def ArpNode.answers (cfg : Config) (mbuf : Mbuf) : Bool := (buildReply cfg mbuf.frame).isSome

theorem ArpNode.outs_zero {world : World bits Handle} {input : Graph.Frame Handle}
    (hnodup : input.bufs.Nodup) (v : NodeId) :
    ((ArpNode.node cfg).call v world input).outs 0 =
      input.bufs.filter fun handle => answers cfg (world.mem handle) := by
  refine (moveEach_of_nodup (fun mbuf => some (if answers cfg mbuf then 0 else 1))
    (fun world handle => ?_) (fun world handle other hne => ?_) world hnodup (0 : Fin 2)).trans ?_
  · simp only [answers]
    split <;> simp_all
  · split
    · exact world.mem_setMbuf hne _
    · rfl
  · refine List.filter_congr fun handle _ => ?_
    cases answers cfg (world.mem handle) <;> simp

theorem DnatNode.outs_zero (world : World bits Handle) (input : Graph.Frame Handle) (v : NodeId) :
    ((DnatNode.node cfg cks).call v world input).outs 0 = input.bufs :=
  (moveEach_eq_filter (fun _ => True) (fun _ => some 0) (fun _ _ h => ⟨h, rfl⟩) trivial input.bufs
    (0 : Fin 1)).trans (by simp)

theorem EtherRewriteNode.outs_zero (world : World bits Handle) (input : Graph.Frame Handle)
    (v : NodeId) : ((EtherRewriteNode.node cfg).call v world input).outs 0 = input.bufs :=
  (moveEach_eq_filter (fun _ => True) (fun _ => some 0) (fun _ _ h => ⟨h, rfl⟩) trivial input.bufs
    (0 : Fin 1)).trans (by simp)

/-- The node leaves the load balancer alone. -/
def Graph.Node.KeepsLb (node : Node (World bits Handle) Handle) : Prop :=
  ∀ world input, (node.process world input).1.lb = world.lb

omit [DecidableEq Handle] in
theorem keepsLb_moveFrame {n : ℕ}
    {f : World bits Handle → Handle → World bits Handle × Option (Fin n)}
    (hf : ∀ world handle, (f world handle).1.lb = world.lb) (world : World bits Handle)
    (frame : Graph.Frame Handle) : (moveFrame f world frame).1.lb = world.lb :=
  moveFrame_preserves (I := fun w => w.lb = world.lb) (fun w h hw => (hf w h).trans hw) rfl frame

theorem Ip4ParseNode.keepsLb : (Ip4ParseNode.node cfg : Node (World bits Handle) Handle).KeepsLb :=
  keepsLb_moveFrame fun _ _ => rfl

theorem DnatNode.keepsLb : (DnatNode.node cfg cks : Node (World bits Handle) Handle).KeepsLb :=
  keepsLb_moveFrame fun _ _ => rfl

theorem EtherRewriteNode.keepsLb :
    (EtherRewriteNode.node cfg : Node (World bits Handle) Handle).KeepsLb :=
  keepsLb_moveFrame fun _ _ => rfl

theorem ArpNode.keepsLb : (ArpNode.node cfg : Node (World bits Handle) Handle).KeepsLb := by
  refine keepsLb_moveFrame fun world handle => ?_
  cases buildReply cfg (world.mem handle).frame <;> rfl

end Nodes

/-! ### A run on a burst -/

section Burst

variable {env : Env Handle} {hash : FlowKey → UInt32} {cfg : Config} {cks : Checksums}
  {pool : Option BackendPool} {nowMs : UInt32} {g : Graph (World bits Handle) Handle}
  {s : Transit (World bits Handle) Handle} {input : Graph.Frame Handle} {rest : List Handle}

/-- The packets that have left for the device, or are on their way there behind the load balancer.
-/
def Transit.ahead (s : Transit (World bits Handle) Handle) : List Handle :=
  s.world.ledger.sent ++ s.world.ledger.freed ++ s.pending 5 ++ s.pending 4 ++ s.pending 3

/-- A run after the call of the parse node: the load balancer has seen the packets `done` of `lbs`,
and the ARP node the packets `answered` of `arps`. The packets that passed, and no others, have
reached the nodes behind them or the device. The buffers of those that are still to come are as the
parse node left them in `mem`. -/
structure Transit.Halfway (hash : FlowKey → UInt32) (cfg : Config) (pool : Option BackendPool)
    (nowMs : UInt32) (n : LbNode bits) (mem : Handle → Mbuf) (lbs arps done answered : List Handle)
    (s : Transit (World bits Handle) Handle) : Prop where
  lbs_eq : lbs = done ++ s.pending 2
  arps_eq : arps = answered ++ s.pending 7
  parse_eq : s.pending 1 = []
  lb_eq : s.world.lb = (LbNode.passed hash pool nowMs (fun h => (mem h).priv) n done).1
  mem_eq : ∀ handle ∈ s.pending 2 ++ s.pending 7, s.world.mem handle = mem handle
  perm : s.ahead.Perm ((LbNode.passed hash pool nowMs (fun h => (mem h).priv) n done).2 ++
    answered.filter fun h => ArpNode.answers cfg (mem h))

variable {n : LbNode bits} {mem : Handle → Mbuf} {lbs arps done answered : List Handle}

/-- What has passed is not among what is still to come. -/
theorem Transit.Halfway.disjoint (h : s.Halfway hash cfg pool nowMs n mem lbs arps done answered)
    (hnodup : (lbs ++ arps).Nodup) {handle : Handle}
    (hmem : handle ∈ s.pending 2 ++ s.pending 7) :
    handle ∉ s.pending 5 ++ s.pending 4 ++ s.pending 3 := by
  intro hpassed
  have hright : handle ∈ (LbNode.passed hash pool nowMs (fun h => (mem h).priv) n done).2 ++
      answered.filter fun h => ArpNode.answers cfg (mem h) := by
    refine h.perm.subset ?_
    rw [ahead, List.append_assoc, List.append_assoc, ← List.append_assoc (s.pending 5)]
    exact List.mem_append_right _ hpassed
  have hdone : handle ∈ done ++ answered := by
    rcases List.mem_append.mp hright with hright | hright
    · exact List.mem_append_left _
        ((LbNode.passed_sublist hash pool nowMs _ n done).subset hright)
    · exact List.mem_append_right _ (List.mem_filter.mp hright).1
  rw [h.lbs_eq, h.arps_eq] at hnodup
  have hperm : (done ++ s.pending 2 ++ (answered ++ s.pending 7)).Perm
      (done ++ answered ++ (s.pending 2 ++ s.pending 7)) := by
    rw [List.append_assoc, List.append_assoc]
    refine List.Perm.append_left _ ?_
    rw [← List.append_assoc, ← List.append_assoc]
    exact List.perm_append_comm.append_right _
  exact (List.nodup_append.mp (hperm.nodup hnodup)).2.2 handle hdone handle hmem rfl

/-- A step that brings no packet past the load balancer or the ARP node. -/
theorem Transit.Halfway.congr (h : s.Halfway hash cfg pool nowMs n mem lbs arps done answered)
    {s' : Transit (World bits Handle) Handle} (hparse : s'.pending 1 = s.pending 1)
    (hlbs : s'.pending 2 = s.pending 2) (harps : s'.pending 7 = s.pending 7)
    (hlb : s'.world.lb = s.world.lb)
    (hmem : ∀ handle ∈ s.pending 2 ++ s.pending 7, s'.world.mem handle = s.world.mem handle)
    (hperm : s'.ahead.Perm s.ahead) :
    s'.Halfway hash cfg pool nowMs n mem lbs arps done answered where
  lbs_eq := hlbs ▸ h.lbs_eq
  arps_eq := harps ▸ h.arps_eq
  parse_eq := hparse.trans h.parse_eq
  lb_eq := hlb.trans h.lb_eq
  mem_eq handle hhandle := by
    rw [hlbs, harps] at hhandle
    exact (hmem handle hhandle).trans (h.mem_eq handle hhandle)
  perm := hperm.trans h.perm

/-- What is pending at the nodes that `Halfway` looks at, after a call at a node whose first output
leads to `t`, and the others to nodes elsewhere. -/
theorem Transit.pending_after_to {rows : List (List NodeId)} (hrouting : g.routing = rows)
    (s : Transit (World bits Handle) Handle) {v t : NodeId}
    (node : Node (World bits Handle) Handle)
    (hrows : [1, 2, 3, 4, 5, 7].map (outputsTo rows v) =
      [1, 2, 3, 4, 5, 7].map fun u => if u = t then [0] else [])
    (input : Graph.Frame Handle) (rest : List Handle) (u : NodeId)
    (hu : u ∈ [1, 2, 3, 4, 5, 7]) :
    (s.after g v node input rest).pending u = (if u = v then rest else s.pending u) ++
      if u = t then (node.call v s.world input).outs 0 else [] := by
  rw [pending_after, hrouting, List.map_inj_left.mp hrows u hu]
  split_ifs <;> simp

variable [DecidableEq Handle]

omit [DecidableEq Handle] in
/-- One of the two nodes between the load balancer and the device, which moves all its packets on.
-/
theorem Transit.Halfway.relay (h : s.Halfway hash cfg pool nowMs n mem lbs arps done answered)
    (hnodup : (lbs ++ arps).Nodup)
    (hrouting : g.routing = [[1], [2, 2, 6, 7], [3, 6], [4], [5], [], [], [5, 6]])
    {node : Node (World bits Handle) Handle} (hpasses : node.Passes) (htidy : node.Tidy)
    (hkeeps : node.KeepsLb) {v t : NodeId} (hv : v = 3 ∧ t = 4 ∨ v = 4 ∧ t = 5)
    (houts : (node.call v s.world input).outs 0 = input.bufs)
    (hpending : s.pending v = input.bufs ++ rest) :
    (s.after g v node input rest).Halfway hash cfg pool nowMs n mem lbs arps done answered := by
  have hrows : [1, 2, 3, 4, 5, 7].map (outputsTo
        [[1], [2, 2, 6, 7], [3, 6], [4], [5], [], [], [5, 6]] v) =
      [1, 2, 3, 4, 5, 7].map fun u => if u = t then [0] else [] := by
    rcases hv with ⟨rfl, rfl⟩ | ⟨rfl, rfl⟩ <;> decide
  have hp := pending_after_to hrouting s node hrows input rest
  rw [houts] at hp
  have hledger : (s.after g v node input rest).world.ledger = s.world.ledger :=
    hpasses.ledger_eq s.world input
  have hsame (u : NodeId) (hu : u = 1 ∨ u = 2 ∨ u = 7) :
      (s.after g v node input rest).pending u = s.pending u := by
    have hne : u ≠ v ∧ u ≠ t := by
      rcases hv with ⟨rfl, rfl⟩ | ⟨rfl, rfl⟩ <;> rcases hu with rfl | rfl | rfl <;> decide
    rw [hp u (by rcases hu with rfl | rfl | rfl <;> decide), if_neg hne.1, if_neg hne.2,
      List.append_nil]
  refine h.congr (hsame 1 (by decide)) (hsame 2 (by decide)) (hsame 7 (by decide))
    (hkeeps s.world input) (fun handle hmem => ?_) ?_
  · refine htidy.mem_eq s.world input handle fun hinput => h.disjoint hnodup hmem ?_
    have hmem' : handle ∈ s.pending v := hpending ▸ List.mem_append_left _ hinput
    rcases hv with ⟨rfl, -⟩ | ⟨rfl, -⟩
    · exact List.mem_append_right _ hmem'
    · exact List.mem_append_left _ (List.mem_append_right _ hmem')
  · have hahead : (s.after g v node input rest).ahead = s.ahead := by
      rcases hv with ⟨rfl, rfl⟩ | ⟨rfl, rfl⟩
      all_goals
        simp [ahead, hledger, hp 3 (by decide), hp 4 (by decide), hp 5 (by decide), hpending]
    rw [hahead]

theorem Transit.Halfway.dnat (h : s.Halfway hash cfg pool nowMs n mem lbs arps done answered)
    (hnodup : (lbs ++ arps).Nodup)
    (hrouting : g.routing = [[1], [2, 2, 6, 7], [3, 6], [4], [5], [], [], [5, 6]])
    (hpending : s.pending 3 = input.bufs ++ rest) :
    (s.after g 3 (DnatNode.node cfg cks) input rest).Halfway hash cfg pool nowMs n mem lbs arps done
      answered :=
  h.relay hnodup hrouting (DnatNode.passes cfg cks) (DnatNode.tidy cfg cks) DnatNode.keepsLb
    (.inl ⟨rfl, rfl⟩) (DnatNode.outs_zero s.world input 3) hpending

theorem Transit.Halfway.ether (h : s.Halfway hash cfg pool nowMs n mem lbs arps done answered)
    (hnodup : (lbs ++ arps).Nodup)
    (hrouting : g.routing = [[1], [2, 2, 6, 7], [3, 6], [4], [5], [], [], [5, 6]])
    (hpending : s.pending 4 = input.bufs ++ rest) :
    (s.after g 4 (EtherRewriteNode.node cfg) input rest).Halfway hash cfg pool nowMs n mem lbs arps
      done answered :=
  h.relay hnodup hrouting (EtherRewriteNode.passes cfg) (EtherRewriteNode.tidy cfg)
    EtherRewriteNode.keepsLb (.inr ⟨rfl, rfl⟩) (EtherRewriteNode.outs_zero s.world input 4) hpending

omit [DecidableEq Handle] in
theorem Transit.Halfway.tx (h : s.Halfway hash cfg pool nowMs n mem lbs arps done answered)
    (hrouting : g.routing = [[1], [2, 2, 6, 7], [3, 6], [4], [5], [], [], [5, 6]])
    (hpending : s.pending 5 = input.bufs ++ rest) :
    (s.after g 5 (TxNode.node env) input rest).Halfway hash cfg pool nowMs n mem lbs arps done
      answered := by
  have hp := pending_after_to hrouting s (v := 5) (t := 0) (TxNode.node env) (by decide) input rest
  refine h.congr (by simpa using hp 1 (by decide)) (by simpa using hp 2 (by decide))
    (by simpa using hp 7 (by decide)) rfl (fun _ _ => rfl) ?_
  have hahead : (s.after g 5 (TxNode.node env) input rest).ahead =
      (s.world.ledger.sent ++
        input.bufs.take (min (env.accepted s.world.tick) input.bufs.length)) ++
        (s.world.ledger.freed ++
          input.bufs.drop (min (env.accepted s.world.tick) input.bufs.length)) ++
        rest ++ s.pending 4 ++ s.pending 3 := by
    simp only [ahead, hp 3 (by decide), hp 4 (by decide), hp 5 (by decide)]
    simp [after, TxNode.node]
  have hinput :=
    List.take_append_drop (min (env.accepted s.world.tick) input.bufs.length) input.bufs
  rw [hahead, ahead, hpending]
  generalize input.bufs.take (min (env.accepted s.world.tick) input.bufs.length) = accepted at *
  generalize input.bufs.drop (min (env.accepted s.world.tick) input.bufs.length) = refused at *
  rw [← hinput, ← Multiset.coe_eq_coe]
  simp only [← Multiset.coe_add]
  abel

omit [DecidableEq Handle] in
theorem Transit.Halfway.drop (h : s.Halfway hash cfg pool nowMs n mem lbs arps done answered)
    (hrouting : g.routing = [[1], [2, 2, 6, 7], [3, 6], [4], [5], [], [], [5, 6]]) :
    (s.after g 6 DropNode.node input rest).Halfway hash cfg pool nowMs n mem lbs arps done
      answered := by
  have hp := pending_after_to hrouting s (v := 6) (t := 0) DropNode.node (by decide) input rest
  refine h.congr (by simpa using hp 1 (by decide)) (by simpa using hp 2 (by decide))
    (by simpa using hp 7 (by decide)) rfl (fun _ _ => rfl) ?_
  have hahead : (s.after g 6 DropNode.node input rest).ahead = s.ahead := by
    simp only [ahead, hp 3 (by decide), hp 4 (by decide), hp 5 (by decide)]
    simp [after, DropNode.node]
  rw [hahead]

/-- The parse node is not called with packets again. -/
theorem Transit.Halfway.parse (h : s.Halfway hash cfg pool nowMs n mem lbs arps done answered)
    (hpending : s.pending 1 = input.bufs ++ rest) :
    (s.after g 1 (Ip4ParseNode.node cfg) input rest).Halfway hash cfg pool nowMs n mem lbs arps done
      answered := by
  rw [h.parse_eq] at hpending
  obtain ⟨hinput, rfl⟩ := List.append_eq_nil_iff.mp hpending.symm
  have hp (u : NodeId) : (s.after g 1 (Ip4ParseNode.node cfg) input []).pending u =
      s.pending u := by
    have hnil : ((Ip4ParseNode.node cfg).call 1 s.world input).routed g u = [] := by
      rw [List.eq_nil_iff_forall_not_mem]
      intro handle hmem
      have hmem' := (Ip4ParseNode.tidy cfg).moves.mem_of_mem_routed hmem
      exact absurd (hinput ▸ hmem') List.not_mem_nil
    simp only [after, hnil, List.append_nil]
    split_ifs with hu
    · rw [hu, h.parse_eq]
    · rfl
  have hledger : (s.after g 1 (Ip4ParseNode.node cfg) input []).world.ledger = s.world.ledger :=
    (Ip4ParseNode.passes cfg).ledger_eq s.world input
  refine h.congr (hp 1) (hp 2) (hp 7) (Ip4ParseNode.keepsLb s.world input) (fun handle _ => ?_) ?_
  · exact (Ip4ParseNode.tidy cfg).mem_eq s.world input handle (hinput ▸ List.not_mem_nil)
  · rw [ahead, ahead, hledger, hp, hp, hp]

omit [DecidableEq Handle] in
/-- When the load balancer or the ARP node is called with some of the packets that are still to
come, the buffers of the others stay as the parse node left them. -/
theorem Transit.Halfway.mem_eq_of_perm
    (h : s.Halfway hash cfg pool nowMs n mem lbs arps done answered) (hnodup : (lbs ++ arps).Nodup)
    {node : Node (World bits Handle) Handle} (htidy : node.Tidy) {later : List Handle}
    (hperm : (s.pending 2 ++ s.pending 7).Perm (input.bufs ++ later)) {handle : Handle}
    (hmem : handle ∈ later) : (node.process s.world input).1.mem handle = mem handle := by
  have hsub : (s.pending 2 ++ s.pending 7).Sublist (lbs ++ arps) := by
    rw [h.lbs_eq, h.arps_eq]
    exact (List.sublist_append_right _ _).append (List.sublist_append_right _ _)
  have hdisjoint := (List.nodup_append.mp (hperm.nodup (hnodup.sublist hsub))).2.2
  rw [htidy.mem_eq s.world input handle fun hinput => hdisjoint handle hinput handle hmem rfl]
  exact h.mem_eq handle (hperm.symm.subset (List.mem_append_right _ hmem))

theorem Transit.Halfway.arp (h : s.Halfway hash cfg pool nowMs n mem lbs arps done answered)
    (hnodup : (lbs ++ arps).Nodup)
    (hrouting : g.routing = [[1], [2, 2, 6, 7], [3, 6], [4], [5], [], [], [5, 6]])
    (hpending : s.pending 7 = input.bufs ++ rest) :
    (s.after g 7 (ArpNode.node cfg) input rest).Halfway hash cfg pool nowMs n mem lbs arps done
      (answered ++ input.bufs) := by
  have hp := pending_after_to hrouting s (v := 7) (t := 5) (ArpNode.node cfg) (by decide) input rest
  have harps : arps = answered ++ (input.bufs ++ rest) := by rw [h.arps_eq, hpending]
  have hinput : (input.bufs ++ rest).Nodup :=
    (List.nodup_append.mp (harps ▸ (List.nodup_append.mp hnodup).2.1)).2.1
  have hanswers : (input.bufs.filter fun handle => ArpNode.answers cfg (s.world.mem handle)) =
      input.bufs.filter fun handle => ArpNode.answers cfg (mem handle) := by
    refine List.filter_congr fun handle hhandle => ?_
    rw [h.mem_eq handle (List.mem_append_right _ (hpending ▸ List.mem_append_left _ hhandle))]
  rw [ArpNode.outs_zero (List.nodup_append.mp hinput).1, hanswers] at hp
  have hlbs : (s.after g 7 (ArpNode.node cfg) input rest).pending 2 = s.pending 2 := by
    simpa using hp 2 (by decide)
  have hrest : (s.after g 7 (ArpNode.node cfg) input rest).pending 7 = rest := by
    simpa using hp 7 (by decide)
  have hledger : (s.after g 7 (ArpNode.node cfg) input rest).world.ledger = s.world.ledger :=
    (ArpNode.passes cfg).ledger_eq s.world input
  refine ⟨hlbs ▸ h.lbs_eq, ?_, ?_, (ArpNode.keepsLb s.world input).trans h.lb_eq,
    fun handle hhandle => ?_, ?_⟩
  · rw [hrest, List.append_assoc]
    exact harps
  · simpa using (hp 1 (by decide)).trans (by simpa using h.parse_eq)
  · rw [hlbs, hrest] at hhandle
    refine h.mem_eq_of_perm hnodup (ArpNode.tidy cfg) ?_ hhandle
    rw [hpending, ← List.append_assoc, ← List.append_assoc]
    exact List.perm_append_comm.append_right rest
  · have hahead : (s.after g 7 (ArpNode.node cfg) input rest).ahead.Perm
        (s.ahead ++ input.bufs.filter fun handle => ArpNode.answers cfg (mem handle)) := by
      have hdnat : (s.after g 7 (ArpNode.node cfg) input rest).pending 3 = s.pending 3 := by
        simpa using hp 3 (by decide)
      have hether : (s.after g 7 (ArpNode.node cfg) input rest).pending 4 = s.pending 4 := by
        simpa using hp 4 (by decide)
      have htx : (s.after g 7 (ArpNode.node cfg) input rest).pending 5 = s.pending 5 ++
          input.bufs.filter fun handle => ArpNode.answers cfg (mem handle) := by
        simpa using hp 5 (by decide)
      rw [ahead, ahead, hledger, hdnat, hether, htx, ← Multiset.coe_eq_coe]
      simp only [← Multiset.coe_add]
      abel
    rw [List.filter_append, ← List.append_assoc]
    exact hahead.trans (h.perm.append_right _)

theorem Transit.Halfway.lb (hpool : ∀ tick, env.pool tick = pool)
    (hnow : ∀ tick, env.nowMs tick = nowMs)
    (h : s.Halfway hash cfg pool nowMs n mem lbs arps done answered)
    (hnodup : (lbs ++ arps).Nodup)
    (hrouting : g.routing = [[1], [2, 2, 6, 7], [3, 6], [4], [5], [], [], [5, 6]])
    (hpending : s.pending 2 = input.bufs ++ rest) :
    (s.after g 2 (LbNode.node env hash) input rest).Halfway hash cfg pool nowMs n mem lbs arps
      (done ++ input.bufs) answered := by
  have hp := pending_after_to hrouting s (v := 2) (t := 3) (LbNode.node env hash) (by decide) input
    rest
  have hlbs : lbs = done ++ (input.bufs ++ rest) := by rw [h.lbs_eq, hpending]
  have hinput : (input.bufs ++ rest).Nodup :=
    (List.nodup_append.mp (hlbs ▸ (List.nodup_append.mp hnodup).1)).2.1
  have hpriv : ∀ handle ∈ input.bufs, (s.world.mem handle).priv = (mem handle).priv :=
    fun handle hhandle => congrArg Mbuf.priv
      (h.mem_eq handle (List.mem_append_left _ (hpending ▸ List.mem_append_left _ hhandle)))
  have hnode : ((LbNode.node env hash).process s.world input).1.lb = _ ∧
      ((LbNode.node env hash).call 2 s.world input).outs 0 = _ :=
    LbNode.node_eq_passed hpool hnow s.world input (List.nodup_append.mp hinput).1 2
  obtain ⟨hlb, hout⟩ := hnode
  rw [LbNode.passed_congr hash pool nowMs s.world.lb hpriv, h.lb_eq] at hlb hout
  rw [hout] at hp
  have hrest : (s.after g 2 (LbNode.node env hash) input rest).pending 2 = rest := by
    simpa using hp 2 (by decide)
  have harps : (s.after g 2 (LbNode.node env hash) input rest).pending 7 = s.pending 7 := by
    simpa using hp 7 (by decide)
  have hparse : (s.after g 2 (LbNode.node env hash) input rest).pending 1 = s.pending 1 := by
    simpa using hp 1 (by decide)
  have hledger : (s.after g 2 (LbNode.node env hash) input rest).world.ledger = s.world.ledger :=
    (LbNode.passes env hash).ledger_eq s.world input
  refine ⟨?_, harps ▸ h.arps_eq, hparse.trans h.parse_eq, ?_, fun handle hhandle => ?_, ?_⟩
  · rw [hrest, List.append_assoc]
    exact hlbs
  · rw [LbNode.passed_append]
    exact hlb
  · rw [hrest, harps] at hhandle
    refine h.mem_eq_of_perm hnodup (LbNode.tidy env hash) ?_ hhandle
    rw [hpending, List.append_assoc]
  · have hdnat : (s.after g 2 (LbNode.node env hash) input rest).pending 3 =
        s.pending 3 ++ (LbNode.passed hash pool nowMs (fun handle => (mem handle).priv)
          (LbNode.passed hash pool nowMs (fun handle => (mem handle).priv) n done).1
          input.bufs).2 := by
      simpa using hp 3 (by decide)
    have hether : (s.after g 2 (LbNode.node env hash) input rest).pending 4 = s.pending 4 := by
      simpa using hp 4 (by decide)
    have htx : (s.after g 2 (LbNode.node env hash) input rest).pending 5 = s.pending 5 := by
      simpa using hp 5 (by decide)
    rw [ahead, hledger, hdnat, hether, htx, LbNode.passed_append, ← List.append_assoc]
    refine (h.perm.append_right _).trans ?_
    rw [List.append_assoc, List.append_assoc]
    exact List.Perm.append_left _ List.perm_append_comm

/-- Each call of a node other than the root keeps track. -/
theorem Transit.Halfway.step {s' : Transit (World bits Handle) Handle} {u : NodeId}
    (hpool : ∀ tick, env.pool tick = pool) (hnow : ∀ tick, env.nowMs tick = nowMs)
    (hnodup : (lbs ++ arps).Nodup)
    (hrouting : g.routing = [[1], [2, 2, 6, 7], [3, 6], [4], [5], [], [], [5, 6]])
    (hnodes : g.nodes = [RxNode.node env, Ip4ParseNode.node cfg, LbNode.node env hash,
      DnatNode.node cfg cks, EtherRewriteNode.node cfg, TxNode.node env, DropNode.node,
      ArpNode.node cfg])
    (h : s.Halfway hash cfg pool nowMs n mem lbs arps done answered) (hu : u ≠ 0)
    (hstep : Step g s u s') :
    ∃ done answered, s'.Halfway hash cfg pool nowMs n mem lbs arps done answered := by
  have hcall : ∀ v node, g.nodes[v.toNat]? = some node → v ≠ 0 → ∀ input rest,
      s.pending v = input.bufs ++ rest →
      ∃ done answered, (s.after g v node input rest).Halfway hash cfg pool nowMs n mem lbs arps done
        answered := by
    refine forall_node hnodes ⟨fun hv => absurd rfl hv, fun _ _ _ hp => ⟨_, _, h.parse hp⟩,
      fun _ _ _ hp => ⟨_, _, h.lb hpool hnow hnodup hrouting hp⟩,
      fun _ _ _ hp => ⟨_, _, h.dnat hnodup hrouting hp⟩,
      fun _ _ _ hp => ⟨_, _, h.ether hnodup hrouting hp⟩,
      fun _ _ _ hp => ⟨_, _, h.tx hrouting hp⟩, fun _ _ _ _ => ⟨_, _, h.drop hrouting⟩,
      fun _ _ _ hp => ⟨_, _, h.arp hnodup hrouting hp⟩⟩
  cases hstep with
  | @call node rest input hnode hpending hfull => exact hcall u node hnode hu input rest hpending

/-- The packets that the parse node pushes on an output. -/
def Ip4ParseNode.pushed (cfg : Config) (mem : Handle → Mbuf) (next : Next) (hs : List Handle) :
    List Handle :=
  hs.filter fun handle => (classify cfg (mem handle)).2 = next

omit [DecidableEq Handle] in
theorem Ip4ParseNode.mem_pushed {mem : Handle → Mbuf} {next : Next} {hs : List Handle}
    {handle : Handle} : handle ∈ pushed cfg mem next hs ↔
      handle ∈ hs ∧ (classify cfg (mem handle)).2 = next := by
  rw [pushed, List.mem_filter, decide_eq_true_eq]

theorem Ip4ParseNode.outs_index (world : World bits Handle) (input : Graph.Frame Handle)
    (v : NodeId) (next : Next) :
    ((Ip4ParseNode.node cfg).call v world input).outs next.index =
      pushed cfg world.mem next input.bufs := by
  rw [outs_eq, pushed]
  simp only [index_injective.eq_iff]

omit [DecidableEq Handle] in
theorem Ip4ParseNode.nodup_pushed {hs : List Handle} (hnodup : hs.Nodup) (mem : Handle → Mbuf) :
    (pushed cfg mem .fwd hs ++ pushed cfg mem .rev hs ++ pushed cfg mem .arp hs).Nodup := by
  have hdisjoint {next next' : Next} (hne : next ≠ next') :
      (pushed cfg mem next hs).Disjoint (pushed cfg mem next' hs) := fun handle h h' =>
    hne ((mem_pushed.mp h).2.symm.trans (mem_pushed.mp h').2)
  refine ((hnodup.filter _).append (hnodup.filter _) (hdisjoint (by decide))).append
    (hnodup.filter _) ?_
  exact List.disjoint_append_left.mpr ⟨hdisjoint (by decide), hdisjoint (by decide)⟩

/-- After the call of the parse node with a burst. -/
theorem Transit.Halfway.first {burst : Graph.Frame Handle} (hfed : s.Fed 1 burst)
    (hnodup : burst.bufs.Nodup)
    (hrouting : g.routing = [[1], [2, 2, 6, 7], [3, 6], [4], [5], [], [], [5, 6]])
    (hlb : s.world.lb = n) (hsent : s.world.ledger.sent = []) (hfreed : s.world.ledger.freed = []) :
    (s.after g 1 (Ip4ParseNode.node cfg) burst []).Halfway hash cfg pool nowMs n
      (fun handle => Ip4ParseNode.parsed cfg (s.world.mem handle))
      (Ip4ParseNode.pushed cfg s.world.mem .fwd burst.bufs ++
        Ip4ParseNode.pushed cfg s.world.mem .rev burst.bufs)
      (Ip4ParseNode.pushed cfg s.world.mem .arp burst.bufs) [] [] := by
  have hp (u : NodeId) (outs : List ℕ) (houts : outputsTo
      [[1], [2, 2, 6, 7], [3, 6], [4], [5], [], [], [5, 6]] 1 u = outs) :
      (s.after g 1 (Ip4ParseNode.node cfg) burst []).pending u =
        outs.flatMap ((Ip4ParseNode.node cfg).call 1 s.world burst).outs := by
    rw [hfed.pending_after, hrouting, houts]
  have hfwd : ((Ip4ParseNode.node cfg).call 1 s.world burst).outs 0 = _ :=
    Ip4ParseNode.outs_index s.world burst 1 .fwd
  have hrev : ((Ip4ParseNode.node cfg).call 1 s.world burst).outs 1 = _ :=
    Ip4ParseNode.outs_index s.world burst 1 .rev
  have harp : ((Ip4ParseNode.node cfg).call 1 s.world burst).outs 3 = _ :=
    Ip4ParseNode.outs_index s.world burst 1 .arp
  have hlbs : (s.after g 1 (Ip4ParseNode.node cfg) burst []).pending 2 =
      Ip4ParseNode.pushed cfg s.world.mem .fwd burst.bufs ++
        Ip4ParseNode.pushed cfg s.world.mem .rev burst.bufs := by
    rw [hp 2 [0, 1] (by decide), List.flatMap_cons, List.flatMap_singleton, hfwd, hrev]
  have harps : (s.after g 1 (Ip4ParseNode.node cfg) burst []).pending 7 =
      Ip4ParseNode.pushed cfg s.world.mem .arp burst.bufs := by
    rw [hp 7 [3] (by decide), List.flatMap_singleton, harp]
  have hledger : (s.after g 1 (Ip4ParseNode.node cfg) burst []).world.ledger = s.world.ledger :=
    (Ip4ParseNode.passes cfg).ledger_eq s.world burst
  refine ⟨hlbs.symm, harps.symm, hp 1 [] (by decide),
    (Ip4ParseNode.keepsLb s.world burst).trans hlb, fun handle hhandle => ?_, ?_⟩
  · refine Ip4ParseNode.mem_process hnodup ?_
    rw [hlbs, harps, List.mem_append, List.mem_append] at hhandle
    rcases hhandle with (hhandle | hhandle) | hhandle
    all_goals exact (Ip4ParseNode.mem_pushed.mp hhandle).1
  · rw [ahead, hledger, hsent, hfreed, hp 3 [] (by decide), hp 4 [] (by decide),
      hp 5 [] (by decide)]
    exact List.Perm.refl _

/-- The state of the load balancer and the buffers are `n` and `mem`, and nothing has been sent. -/
structure World.Untouched (n : LbNode bits) (mem : Handle → Mbuf) (world : World bits Handle) :
    Prop where
  lb_eq : world.lb = n
  mem_eq : world.mem = mem
  sent_eq : world.ledger.sent = []
  freed_eq : world.ledger.freed = []

omit [DecidableEq Handle] in
theorem World.Untouched.passes {world : World bits Handle} (h : world.Untouched n mem)
    {node : Node (World bits Handle) Handle} (hpasses : node.Passes) (htidy : node.Tidy)
    (hlb : (node.process world .cleared).1.lb = world.lb) :
    (node.process world .cleared).1.Untouched n mem where
  lb_eq := hlb.trans h.lb_eq
  mem_eq := by
    funext handle
    rw [htidy.mem_eq world .cleared handle List.not_mem_nil, h.mem_eq]
  sent_eq := by rw [hpasses.ledger_eq, h.sent_eq]
  freed_eq := by rw [hpasses.ledger_eq, h.freed_eq]

/-- A node that is called with nothing does nothing. -/
theorem World.Untouched.call_cleared {world : World bits Handle} (h : world.Untouched n mem)
    (hpool : ∀ tick, env.pool tick = pool) (hnow : ∀ tick, env.nowMs tick = nowMs)
    {node : Node (World bits Handle) Handle}
    (hnode : node ∈ [Ip4ParseNode.node cfg, LbNode.node env hash, DnatNode.node cfg cks,
      EtherRewriteNode.node cfg, TxNode.node env, DropNode.node, ArpNode.node cfg]) :
    (node.process world .cleared).1.Untouched n mem := by
  simp only [List.mem_cons, List.not_mem_nil, or_false] at hnode
  rcases hnode with rfl | rfl | rfl | rfl | rfl | rfl | rfl
  · exact h.passes (Ip4ParseNode.passes cfg) (Ip4ParseNode.tidy cfg) (Ip4ParseNode.keepsLb world _)
  · exact h.passes (LbNode.passes env hash) (LbNode.tidy env hash)
      (LbNode.node_eq_passed hpool hnow world .cleared List.nodup_nil 2).1
  · exact h.passes (DnatNode.passes cfg cks) (DnatNode.tidy cfg cks) (DnatNode.keepsLb world _)
  · exact h.passes (EtherRewriteNode.passes cfg) (EtherRewriteNode.tidy cfg)
      (EtherRewriteNode.keepsLb world _)
  · exact ⟨h.lb_eq, h.mem_eq, by simp [TxNode.node, Frame.cleared, h.sent_eq],
      by simp [TxNode.node, Frame.cleared, h.freed_eq]⟩
  · exact ⟨h.lb_eq, h.mem_eq, h.sent_eq, h.freed_eq⟩
  · exact h.passes (ArpNode.passes cfg) (ArpNode.tidy cfg) (ArpNode.keepsLb world _)

/-- A run on the burst `hs`, after the call of the parse node. -/
def Transit.Underway (hash : FlowKey → UInt32) (cfg : Config) (pool : Option BackendPool)
    (nowMs : UInt32) (n : LbNode bits) (mem : Handle → Mbuf) (hs : List Handle)
    (s : Transit (World bits Handle) Handle) : Prop :=
  ∃ done answered, s.Halfway hash cfg pool nowMs n
    (fun handle => Ip4ParseNode.parsed cfg (mem handle))
    (Ip4ParseNode.pushed cfg mem .fwd hs ++ Ip4ParseNode.pushed cfg mem .rev hs)
    (Ip4ParseNode.pushed cfg mem .arp hs) done answered

/-- The packets of a burst that are forwarded: those that pass the load balancer, which sees the
reverse packets last, and those that the ARP node answers. -/
def Forwarded (hash : FlowKey → UInt32) (cfg : Config) (pool : Option BackendPool) (nowMs : UInt32)
    (n : LbNode bits) (mem : Handle → Mbuf) (hs : List Handle) (world : World bits Handle) : Prop :=
  let passed := LbNode.passed hash pool nowMs
    (fun handle => (Ip4ParseNode.classify cfg (mem handle)).1) n
    (Ip4ParseNode.pushed cfg mem .fwd hs ++ Ip4ParseNode.pushed cfg mem .rev hs)
  world.lb = passed.1 ∧ (world.ledger.sent ++ world.ledger.freed).Perm (passed.2 ++
    (Ip4ParseNode.pushed cfg mem .arp hs).filter fun handle => ArpNode.answers cfg (mem handle))

omit [DecidableEq Handle] in
/-- At the end of the run nothing is still to come. -/
theorem Transit.Underway.forwarded {world : World bits Handle} {hs : List Handle}
    (h : (Transit.done world).Underway hash cfg pool nowMs n mem hs) :
    Forwarded hash cfg pool nowMs n mem hs world := by
  obtain ⟨done, answered, h⟩ := h
  have hlbs := h.lbs_eq
  have harps := h.arps_eq
  have hperm := h.perm
  simp only [Transit.done, ahead, List.append_nil] at hlbs harps hperm
  subst hlbs harps
  exact ⟨h.lb_eq, hperm⟩

/-- What a run forwards of the burst that it receives. -/
theorem monolithic_forwards {root : NodeId} {d : Dispatcher Handle} {world : World bits Handle}
    {fuel : ℕ} {r : Run (World bits Handle) Handle}
    (hpool : ∀ tick, env.pool tick = pool) (hnow : ∀ tick, env.nowMs tick = nowMs)
    (hbuild : buildMonolithicGraph bits env hash cfg cks = .ok (g, root)) (hd : d.Idle g)
    (hrun : runOnce g root fuel .cleared d { world with ledger := {} } = .ok r)
    (hnodup : (env.received world.tick).bufs.Nodup) :
    Forwarded hash cfg pool nowMs world.lb (env.memory world.tick) (env.received world.tick).bufs
      r.world := by
  obtain ⟨g', hg', hrouting, hwired⟩ := wired_monolithic bits env hash cfg cks
  obtain ⟨rfl, rfl⟩ := Prod.mk.inj (Except.ok.inj (hg'.symm.trans hbuild))
  obtain ⟨s, hfed, hmem, hlb, hledger, hsteps⟩ := hwired.fed (RxNode.source env) hrouting hd hrun
  have htidy := monolithic_tidy bits env hash cfg cks
  have hmem_rest : ∀ u node, (∃ w out, g'.Edge w out u) → g'.nodes[u.toNat]? = some node →
      node ∈ _ := fun u node hedge hnode => hwired.mem_rest (hwired.ne_root hedge) hnode
  have huntouched : s.world.Untouched world.lb (env.memory world.tick) :=
    ⟨hlb, hmem, by rw [hledger], by rw [hledger]⟩
  have hphases := hsteps.of_fed (B := Underway hash cfg pool nowMs world.lb (env.memory world.tick)
      (env.received world.tick).bufs) hfed huntouched
    (fun u node hedge hnode =>
      (List.forall_iff_forall_mem.mp htidy node (hmem_rest u node hedge hnode)).moves)
    (fun u node hedge hnode _ w hw => hw.call_cleared hpool hnow (hmem_rest u node hedge hnode))
    (fun s node hparse hfed hw => ?_)
    fun s s' u hedge hstep h => ?_
  · rcases hphases with ⟨hnil, hdone⟩ | hdone
    · rw [hnil]
      refine ⟨hdone.lb_eq, ?_⟩
      rw [hdone.sent_eq, hdone.freed_eq]
      exact List.Perm.refl _
    · exact Underway.forwarded hdone
  · rw [hwired.nodes_eq] at hparse
    obtain rfl : Ip4ParseNode.node cfg = node := Option.some.inj hparse
    refine ⟨[], [], ?_⟩
    rw [← hw.mem_eq]
    exact Halfway.first hfed hnodup hrouting hw.lb_eq hw.sent_eq hw.freed_eq
  · obtain ⟨done, answered, h⟩ := h
    exact h.step hpool hnow (Ip4ParseNode.nodup_pushed hnodup _) hrouting hwired.nodes_eq
      (hwired.ne_root hedge) hstep

end Burst

end Cerebellum
