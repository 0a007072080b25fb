import Cerebellum.Nodes.BurstForwarding

/-!
# Contracts of graphs

What a run of a graph makes of its packets, from what each node makes of one frame. A contract says
what holds of the buffers of the packets that are pending at a node, and of those that have left:
for the device, for a ring, or because they were freed. A node meets the contract if what holds of
its input makes hold what is due of its outputs. If all nodes meet it, what leaves the graph in a
run is as it is due to be (`Cerebellum.Graph.Wired.keeps`).

What holds of a packet may refer to a log of what the load balancer has seen so far. The log grows
during a run, but not by packets other than those that a node is called with; as no two packets
share a buffer, what is known of the others remains true.

## Main definitions

* `Cerebellum.Contract`: what holds of the packets of a graph.
* `Cerebellum.Graph.Node.Meets`: the node keeps to the contract.
* `Cerebellum.Transit.Keeps`: what is in transit is as the contract has it.

## Main results

* `Cerebellum.Transit.Keeps.after`: a call of a node keeps to the contract.
* `Cerebellum.Graph.Wired.keeps`: what leaves a graph whose nodes meet the contract.
-/

namespace Cerebellum

open Graph Dispatcher Transit

variable {bits : ℕ} {Handle : Type}

/-- What holds of a packet and its buffer, when the load balancer has seen the packets of a log.
Each entry of the log is a packet and the number of the questions for the pool and the clock. -/
abbrev Assertion (Handle : Type) : Type := List (Handle × ℕ) → Handle → Mbuf → Prop

/-- What holds of a packet still does when the load balancer has seen others. -/
def Assertion.Framed (A : Assertion Handle) : Prop :=
  ∀ {log new : List (Handle × ℕ)} {handle : Handle} {mbuf : Mbuf}, A log handle mbuf →
    (∀ p ∈ new, p.1 ≠ handle) → A (log ++ new) handle mbuf

theorem Assertion.framed_getD {As : List (Assertion Handle)} (h : ∀ A ∈ As, A.Framed) (v : ℕ) :
    (As.getD v fun _ _ _ => True).Framed := by
  rw [List.getD_eq_getElem?_getD]
  cases hv : As[v]? with
  | none => exact fun _ _ => trivial
  | some A => exact h A (List.mem_of_getElem? hv)

/-- Where packets are: pending at a node, with the device, on their way to a ring, freed because
the device or a ring has refused them, or freed by the drop node. -/
inductive Place
  | node (v : NodeId)
  | device
  | ring (ring : Ring)
  | freed
  | dropped

/-- What holds of the state of the load balancer, and of the packets at each place. -/
structure Contract (bits : ℕ) (Handle : Type) where
  state : List (Handle × ℕ) → LbNode bits → Prop
  packet : Place → Assertion Handle
  framed : ∀ place, (packet place).Framed

/-- The packets that have left, and where to. -/
def Ledger.HasLeft (ledger : Ledger Handle) (handle : Handle) : Place → Prop
  | .node _ => False
  | .device => handle ∈ ledger.sent
  | .ring ring => (ring, handle) ∈ ledger.enqueued
  | .freed => handle ∈ ledger.freed
  | .dropped => handle ∈ ledger.dropFreed

/-- What has left is accounted for. -/
theorem Ledger.HasLeft.mem_disposed {ledger : Ledger Handle} {handle : Handle} {place : Place}
    (h : ledger.HasLeft handle place) : handle ∈ ledger.disposed := by
  simp only [disposed, Multiset.mem_add, Multiset.mem_coe]
  cases place with
  | node v => exact absurd h id
  | device => exact .inl (.inl (.inl h))
  | ring ring => exact .inl (.inl (.inr (List.mem_map.mpr ⟨_, h, rfl⟩)))
  | freed => exact .inl (.inr h)
  | dropped => exact .inr h

/-- The device or the rings accept whole bursts. -/
def Env.HasRoom (env : Env Handle) : Prop := ∀ tick, kBurstSize ≤ env.accepted tick

/-- Where there is room nothing is refused. -/
theorem Env.not_hasRoom_of_mem {env : Env Handle} {tick : ℕ} {input : Graph.Frame Handle}
    {handle : Handle}
    (h : handle ∈ input.bufs.drop (min (env.accepted tick) input.bufs.length)) : ¬ env.HasRoom := by
  intro hroom
  rw [min_eq_right (input.count_le.trans (hroom tick)), List.drop_length] at h
  exact absurd h List.not_mem_nil

/-! ### Nodes -/

section Meets

variable {C : Contract bits Handle} {g : Graph (World bits Handle) Handle} {v : NodeId}
  {node : Node (World bits Handle) Handle}

/-- A call of a node at `v` did what is due of it, and the load balancer has seen `new`. -/
structure Contract.Honoured (C : Contract bits Handle) (g : Graph (World bits Handle) Handle)
    (v : NodeId) (node : Node (World bits Handle) Handle) (world : World bits Handle)
    (input : Graph.Frame Handle) (log new : List (Handle × ℕ)) : Prop where
  mem_input : ∀ p ∈ new, p.1 ∈ input.bufs
  state : C.state (log ++ new) (node.process world input).1.lb
  pushed : ∀ out : Fin node.nextCount, ∀ handle ∈ ((node.process world input).2 out).bufs,
    C.packet (.node (g.target v out)) (log ++ new) handle
      ((node.process world input).1.mem handle)
  left : ∀ handle place, (node.process world input).1.ledger.HasLeft handle place →
    world.ledger.HasLeft handle place ∨
      C.packet place (log ++ new) handle ((node.process world input).1.mem handle)

/-- A node at `v` that is called with packets as they are due there does what is due of it. -/
def Graph.Node.Meets (node : Node (World bits Handle) Handle) (C : Contract bits Handle)
    (g : Graph (World bits Handle) Handle) (v : NodeId) : Prop :=
  ∀ log world input, input.bufs.Nodup → C.state log world.lb →
    (∀ handle ∈ input.bufs, C.packet (.node v) log handle (world.mem handle)) →
    ∃ new, C.Honoured g v node world input log new

/-- A node that passes handles on and leaves the load balancer alone. -/
theorem Graph.Node.Passes.meets (h : node.Passes) (hkeeps : node.KeepsLb)
    (hpushed : ∀ log world input, input.bufs.Nodup →
      (∀ handle ∈ input.bufs, C.packet (.node v) log handle (world.mem handle)) →
      ∀ out : Fin node.nextCount, ∀ handle ∈ ((node.process world input).2 out).bufs,
        C.packet (.node (g.target v out)) log handle ((node.process world input).1.mem handle)) :
    node.Meets C g v := by
  intro log world input hnodup hstate hinput
  refine ⟨[], nofun, ?_, ?_, fun handle place hleft => Or.inl ?_⟩
  · rw [List.append_nil, hkeeps]
    exact hstate
  · rw [List.append_nil]
    exact hpushed log world input hnodup hinput
  · exact h.ledger_eq world input ▸ hleft

/-- A node without outputs that writes no buffer and leaves the load balancer alone. -/
theorem Graph.Node.meets_of_sink (hnext : node.nextCount = 0) (hkeeps : node.KeepsLb)
    (hmem : ∀ world input, (node.process world input).1.mem = world.mem)
    (hleft : ∀ log world input handle place,
      (node.process world input).1.ledger.HasLeft handle place →
        world.ledger.HasLeft handle place ∨ handle ∈ input.bufs ∧
          ∀ mbuf, C.packet (.node v) log handle mbuf → C.packet place log handle mbuf) :
    node.Meets C g v := by
  intro log world input _ hstate hinput
  refine ⟨[], nofun, ?_, fun out => (hnext ▸ out : Fin 0).elim0, fun handle place h => ?_⟩
  · rw [List.append_nil, hkeeps]
    exact hstate
  · rw [List.append_nil, hmem]
    exact (hleft log world input handle place h).imp_right fun ⟨hmem, hpacket⟩ =>
      hpacket _ (hinput handle hmem)

theorem TxNode.meets {env : Env Handle}
    (h : ∀ log handle mbuf, C.packet (.node v) log handle mbuf →
      C.packet .device log handle mbuf)
    (hfreed : ¬ env.HasRoom → ∀ log handle mbuf, C.packet (.node v) log handle mbuf →
      C.packet .freed log handle mbuf) : (TxNode.node env).Meets C g v := by
  refine Node.meets_of_sink rfl (fun _ _ => rfl) (fun _ _ => rfl)
    fun log world input handle place hleft => ?_
  cases place with
  | node u => exact absurd hleft id
  | device =>
    refine (List.mem_append.mp hleft).imp_right fun hsent => ⟨?_, h log handle⟩
    exact List.mem_of_mem_take hsent
  | ring ring => exact Or.inl hleft
  | freed =>
    refine (List.mem_append.mp hleft).imp_right fun hunsent => ?_
    exact ⟨List.mem_of_mem_drop hunsent, hfreed (Env.not_hasRoom_of_mem hunsent) log handle⟩
  | dropped => exact Or.inl hleft

theorem RingTxNode.meets {env : Env Handle} {ring : Ring}
    (h : ∀ log handle mbuf, C.packet (.node v) log handle mbuf →
      C.packet (.ring ring) log handle mbuf)
    (hfreed : ¬ env.HasRoom → ∀ log handle mbuf, C.packet (.node v) log handle mbuf →
      C.packet .freed log handle mbuf) : (RingTxNode.node env ring).Meets C g v := by
  refine Node.meets_of_sink rfl (fun _ _ => rfl) (fun _ _ => rfl)
    fun log world input handle place hleft => ?_
  cases place with
  | node u => exact absurd hleft id
  | device => exact Or.inl hleft
  | ring ring' =>
    refine (List.mem_append.mp hleft).imp_right fun hnew => ?_
    obtain ⟨handle', hmem, heq⟩ := List.mem_map.mp hnew
    obtain ⟨rfl, rfl⟩ := Prod.mk.inj heq
    exact ⟨List.mem_of_mem_take hmem, h log handle'⟩
  | freed =>
    refine (List.mem_append.mp hleft).imp_right fun hunsent => ?_
    exact ⟨List.mem_of_mem_drop hunsent, hfreed (Env.not_hasRoom_of_mem hunsent) log handle⟩
  | dropped => exact Or.inl hleft

theorem DropNode.meets
    (h : ∀ log handle mbuf, C.packet (.node v) log handle mbuf →
      C.packet .dropped log handle mbuf) :
    (DropNode.node : Node (World bits Handle) Handle).Meets C g v := by
  refine Node.meets_of_sink rfl (fun _ _ => rfl) (fun _ _ => rfl)
    fun log world input handle place hleft => ?_
  cases place with
  | node u => exact absurd hleft id
  | device => exact Or.inl hleft
  | ring ring => exact Or.inl hleft
  | freed => exact Or.inl hleft
  | dropped => exact (List.mem_append.mp hleft).imp_right fun hmem => ⟨hmem, h log handle⟩

/-- What the common loop does to a packet that it moves, if handling a packet depends on its buffer
and writes no other. -/
theorem mem_moveFrame [DecidableEq Handle] {n : ℕ}
    {f : World bits Handle → Handle → World bits Handle × Option (Fin n)}
    (next : Mbuf → Option (Fin n)) (write : Mbuf → Mbuf)
    (hnext : ∀ world handle, (f world handle).2 = next (world.mem handle))
    (hmem : ∀ world handle,
      (f world handle).1.mem = Function.update world.mem handle (write (world.mem handle)))
    {world : World bits Handle} {input : Graph.Frame Handle} (hnodup : input.bufs.Nodup)
    {out : Fin n} {handle : Handle} (h : handle ∈ ((moveFrame f world input).2 out).bufs) :
    handle ∈ input.bufs ∧ next (world.mem handle) = some out ∧
      (moveFrame f world input).1.mem handle = write (world.mem handle) := by
  have hout : (moveEach f world input.bufs).2 out = _ :=
    moveEach_of_nodup next hnext (fun world handle other hne => by
      rw [hmem, Function.update_of_ne hne]) world hnodup out
  have hfilter : handle ∈ (moveEach f world input.bufs).2 out := h
  rw [hout, List.mem_filter, decide_eq_true_eq] at hfilter
  exact ⟨hfilter.1, hfilter.2, mem_moveEach_of_mem write hmem world hnodup hfilter.1⟩

end Meets

/-! ### Runs -/

section Keeps

variable {C : Contract bits Handle} {g : Graph (World bits Handle) Handle} {v : NodeId}
  {node : Node (World bits Handle) Handle} {s : Transit (World bits Handle) Handle}
  {log : List (Handle × ℕ)} {input : Graph.Frame Handle} {rest : List Handle}

/-- The packets that are pending or have been disposed of, for all nodes there are. -/
def Transit.total (nodes : Finset NodeId) (s : Transit (World bits Handle) Handle) :
    Multiset Handle :=
  ∑ u ∈ nodes, (s.pending u : Multiset Handle) + s.world.ledger.disposed

/-- The packets that a call at `v` does not get, when `rest` is left there. -/
def Transit.others (nodes : Finset NodeId) (s : Transit (World bits Handle) Handle) (v : NodeId)
    (rest : List Handle) : Multiset Handle :=
  ∑ u ∈ nodes, ((if u = v then rest else s.pending u : List Handle) : Multiset Handle) +
    s.world.ledger.disposed

variable {nodes : Finset NodeId}

theorem Transit.total_eq (hv : v ∈ nodes) (hpending : s.pending v = input.bufs ++ rest) :
    s.total nodes = input.bufs + s.others nodes v rest := by
  have hpart (u : NodeId) : (s.pending u : Multiset Handle) =
      (if u = v then (input.bufs : Multiset Handle) else 0) +
        ((if u = v then rest else s.pending u : List Handle) : Multiset Handle) := by
    split_ifs with hu
    · rw [hu, hpending, Multiset.coe_add]
    · rw [zero_add]
  rw [total, Finset.sum_congr rfl fun u _ => hpart u, Finset.sum_add_distrib,
    Finset.sum_ite_eq' nodes v, if_pos hv, others, add_assoc]

/-- A call gets packets that are nowhere else. -/
theorem Transit.disjoint_others (htotal : (s.total nodes).Nodup) (hv : v ∈ nodes)
    (hpending : s.pending v = input.bufs ++ rest) :
    input.bufs.Nodup ∧ ∀ handle ∈ input.bufs, handle ∉ s.others nodes v rest := by
  rw [total_eq hv hpending] at htotal
  obtain ⟨hnodup, -, hdisjoint⟩ := Multiset.nodup_add.mp htotal
  exact ⟨hnodup, fun handle hmem => Multiset.disjoint_left.mp hdisjoint hmem⟩

theorem Transit.mem_others_of_mem_pending {u : NodeId} (hu : u ∈ nodes) {handle : Handle}
    (h : handle ∈ if u = v then rest else s.pending u) : handle ∈ s.others nodes v rest :=
  Multiset.mem_add.mpr (Or.inl (Multiset.mem_sum.mpr ⟨u, hu, h⟩))

theorem Transit.mem_others_of_mem_disposed {handle : Handle}
    (h : handle ∈ s.world.ledger.disposed) : handle ∈ s.others nodes v rest :=
  Multiset.mem_add.mpr (Or.inr h)

/-- A call of a node that settles what it is given changes nothing about the packets as a whole. -/
theorem Transit.total_after (hnodes : ∀ u, u ∈ nodes) (hwired : g.FullyWired)
    (hnode : g.nodes[v.toNat]? = some node) (hsettles : node.Settles)
    (hpending : s.pending v = input.bufs ++ rest) :
    (s.after g v node input rest).total nodes = s.total nodes := by
  have hrouted : ∑ u ∈ nodes, ((node.call v s.world input).routed g u : Multiset Handle) =
      ∑ out, (((node.process s.world input).2 out).bufs : Multiset Handle) := by
    rw [Finset.eq_univ_iff_forall.mpr hnodes, Call.sum_routed hwired, pushes_call hnode]
  have hpart (u : NodeId) : ((s.after g v node input rest).pending u : Multiset Handle) =
      ((if u = v then rest else s.pending u : List Handle) : Multiset Handle) +
        ((node.call v s.world input).routed g u : Multiset Handle) :=
    (Multiset.coe_add _ _).symm
  have hledger := hsettles.disposed_eq s.world input
  have hafter : (s.after g v node input rest).world.ledger =
      (node.process s.world input).1.ledger := rfl
  rw [total_eq (hnodes v) hpending, total, others, Finset.sum_congr rfl fun u _ => hpart u,
    Finset.sum_add_distrib, hrouted, hafter, add_assoc,
    add_comm (Finset.sum _ _) (Ledger.disposed _), hledger]
  abel

/-- What is in transit is as the contract has it. -/
structure Transit.Keeps (C : Contract bits Handle) (log : List (Handle × ℕ))
    (s : Transit (World bits Handle) Handle) : Prop where
  state : C.state log s.world.lb
  pending : ∀ u, ∀ handle ∈ s.pending u, C.packet (.node u) log handle (s.world.mem handle)
  left : ∀ handle place, s.world.ledger.HasLeft handle place →
    C.packet place log handle (s.world.mem handle)

/-- A call of a node that meets the contract keeps to it. -/
theorem Transit.Keeps.after (h : s.Keeps C log) (hnodes : ∀ u, u ∈ nodes)
    (htotal : (s.total nodes).Nodup)
    (hnode : g.nodes[v.toNat]? = some node) (htidy : node.Tidy)
    (hmeets : node.Meets C g v) (hpending : s.pending v = input.bufs ++ rest) :
    ∃ new, (∀ p ∈ new, p.1 ∈ input.bufs) ∧ (s.after g v node input rest).Keeps C (log ++ new) := by
  obtain ⟨hnodup, hdisjoint⟩ := disjoint_others htotal (hnodes v) hpending
  have hinput : ∀ handle ∈ input.bufs, C.packet (.node v) log handle (s.world.mem handle) :=
    fun handle hmem => h.pending v handle (hpending ▸ List.mem_append_left _ hmem)
  obtain ⟨new, hnew⟩ := hmeets log s.world input hnodup h.state hinput
  -- what is known of the packets elsewhere
  have hother {handle : Handle} {place : Place} (hmem : handle ∈ s.others nodes v rest)
      (hpacket : C.packet place log handle (s.world.mem handle)) :
      C.packet place (log ++ new) handle ((node.process s.world input).1.mem handle) := by
    have hout : handle ∉ input.bufs := fun hin => hdisjoint handle hin hmem
    rw [htidy.mem_eq s.world input handle hout]
    exact C.framed place hpacket fun p hp heq => hout (heq ▸ hnew.mem_input p hp)
  refine ⟨new, hnew.mem_input, hnew.state, fun u handle hmem => ?_, fun handle place hleft => ?_⟩
  · rcases List.mem_append.mp hmem with hmem | hmem
    · refine hother (mem_others_of_mem_pending (hnodes u) hmem) ?_
      split_ifs at hmem with hu
      · exact hu ▸ h.pending v handle (hpending ▸ List.mem_append_right _ hmem)
      · exact h.pending u handle hmem
    · obtain ⟨out, hout, hsent⟩ := List.mem_flatMap.mp hmem
      rw [sentTo] at hsent
      split_ifs at hsent with hedge
      · have hlt : out < node.nextCount := fanout_eq hnode ▸ List.mem_range.mp hout
        obtain rfl : g.target v out = u := hedge.1
        have hpushed := hnew.pushed ⟨out, hlt⟩ handle
        simp only [Node.call, outputs, dif_pos hlt] at hsent
        exact hpushed hsent
      · exact absurd hsent List.not_mem_nil
  · rcases hnew.left handle place hleft with hbefore | hpacket
    · exact hother (mem_others_of_mem_disposed hbefore.mem_disposed) (h.left handle place hbefore)
    · exact hpacket

variable {env : Env Handle} {source : Node (World bits Handle) Handle}
  {behind : List (Node (World bits Handle) Handle)} {ranks : List ℕ} {rows : List (List NodeId)}
  {d : Dispatcher Handle} {world : World bits Handle} {fuel : ℕ}
  {r : Run (World bits Handle) Handle}

/-- What leaves a graph whose nodes meet the contract is as it is due to be, if what the run has
received is. -/
theorem Graph.Wired.keeps (h : g.Wired env source behind ranks) (hsource : source.Source env)
    (hrows : g.routing = [1] :: rows) (hd : Reachable g 0 d)
    (hrun : Dispatcher.runOnce g 0 fuel .cleared d { world with ledger := {} } = .ok r)
    (htidy : behind.Forall Node.Tidy)
    (hmeets : ∀ (v : NodeId) node, g.nodes[v.toNat]? = some node → v ≠ 0 → node.Meets C g v)
    (hnodup : (env.received world.tick).bufs.Nodup) (hstate : C.state log world.lb)
    (hreceived : ∀ handle ∈ (env.received world.tick).bufs,
      C.packet (.node 1) log handle (env.memory world.tick handle)) :
    ∃ new, (∀ p ∈ new, p.1 ∈ (env.received world.tick).bufs) ∧ C.state (log ++ new) r.world.lb ∧
      ∀ handle place, r.world.ledger.HasLeft handle place →
        C.packet place (log ++ new) handle (r.world.mem handle) := by
  obtain ⟨s, hfed, hmem, hlb, hledger, hsteps⟩ := h.fed hsource hrows (h.idle hd) hrun
  obtain ⟨nodes, hnodes⟩ : ∃ nodes : Finset NodeId, ∀ u, u ∈ nodes :=
    ⟨Finset.univ, Finset.mem_univ⟩
  have hend : ∃ new, (∀ p ∈ new, p.1 ∈ (env.received world.tick).bufs) ∧
      (Transit.done r.world).Keeps C (log ++ new) ∧
      ((Transit.done r.world).total nodes).Nodup ∧
      ∀ u, ∀ handle ∈ (Transit.done r.world : Transit (World bits Handle) Handle).pending u,
        handle ∈ (env.received world.tick).bufs := by
    refine hsteps.induct (I := fun s => ∃ new, (∀ p ∈ new, p.1 ∈ (env.received world.tick).bufs) ∧
      s.Keeps C (log ++ new) ∧ (s.total nodes).Nodup ∧ ∀ u, ∀ handle ∈ s.pending u,
        handle ∈ (env.received world.tick).bufs) ?_ ⟨[], nofun, ⟨?_, ?_, ?_⟩, ?_, ?_⟩
    · rintro s s' v hedge hstep ⟨new, hnew, hkeeps, htotal, hpart⟩
      have hpart' := hstep.forall_pending (fun node hnode => (List.forall_iff_forall_mem.mp htidy
        node (h.mem_rest (h.ne_root hedge) hnode)).moves) hpart
      cases hstep with
      | @call node rest input hnode hpending =>
        have hmem := h.mem_rest (h.ne_root hedge) hnode
        obtain ⟨later, hlater, hkeeps'⟩ := hkeeps.after hnodes htotal hnode
          (List.forall_iff_forall_mem.mp htidy node hmem) (hmeets v node hnode (h.ne_root hedge))
          hpending
        refine ⟨new ++ later, fun p hp => ?_, List.append_assoc log new later ▸ hkeeps', ?_,
          hpart'⟩
        rcases List.mem_append.mp hp with hp | hp
        · exact hnew p hp
        · exact hpart v p.1 (hpending ▸ List.mem_append_left _ (hlater p hp))
        · rw [total_after hnodes h.wired.fullyWired hnode (h.settles node hmem) hpending]
          exact htotal
    · rw [List.append_nil, hlb]
      exact hstate
    · intro u handle hhandle
      rw [hfed u] at hhandle
      split_ifs at hhandle with hu
      · rw [List.append_nil, hmem, hu]
        exact hreceived handle hhandle
      · exact absurd hhandle List.not_mem_nil
    · intro handle place hleft
      rw [Ledger.HasLeft.eq_def, hledger] at hleft
      cases place with
      | node u => exact absurd hleft id
      | device => exact absurd hleft List.not_mem_nil
      | ring ring => exact absurd hleft List.not_mem_nil
      | freed => exact absurd hleft List.not_mem_nil
      | dropped => exact absurd hleft List.not_mem_nil
    · have hsum (u : NodeId) : (s.pending u : Multiset Handle) =
          if u = 1 then ((env.received world.tick).bufs : Multiset Handle) else 0 := by
        rw [hfed u]
        split_ifs <;> rfl
      rw [total, Finset.sum_congr rfl fun u _ => hsum u, Finset.sum_ite_eq' nodes 1,
        if_pos (hnodes 1), hledger]
      simpa [Ledger.disposed] using hnodup
    · intro u handle hhandle
      rw [hfed u] at hhandle
      split_ifs at hhandle
      · exact hhandle
      · exact absurd hhandle List.not_mem_nil
  obtain ⟨new, hnew, hkeeps, -⟩ := hend
  exact ⟨new, hnew, hkeeps.state, hkeeps.left⟩

end Keeps

end Cerebellum
