import Cerebellum.Graph.FrameReserve
import Cerebellum.Nodes.MainGraphs

/-!
# The pools of the data plane never grow

The nodes of `main.cpp` move each handle at most once, so none pushes more handles than it was
given, and the first node pushes what one receive call returned. The pools of the four graphs keep
the size that the constructor of `Dispatcher` gave them, whatever the nodes do with the packets.

## Main definitions

* `Cerebellum.Graph.Node.AddsNothing`: the node pushes at most as much as it is given.
* `Cerebellum.KeepsReserve`: the pool of a graph that is built keeps its size.

## Main results

* `Cerebellum.sum_length_moveFrame_le`: the common loop adds nothing.
* `Cerebellum.main_neverAllocates`: the pools of the four graphs keep their size.
-/

namespace Cerebellum

open Graph Dispatcher

variable {bits : ℕ} {σ Handle : Type}

/-- The node pushes at most as many handles as it is given. -/
def Graph.Node.AddsNothing (node : Node σ Handle) : Prop :=
  ∀ world input, ∑ out, ((node.process world input).2 out).bufs.length ≤ input.bufs.length

/-- The loop moves each handle to at most one output. -/
theorem sum_length_moveFrame_le {n : ℕ} (f : σ → Handle → σ × Option (Fin n)) (world : σ)
    (frame : Graph.Frame Handle) :
    ∑ out, ((moveFrame f world frame).2 out).bufs.length ≤ frame.bufs.length := by
  obtain ⟨bufs, hbufs⟩ := frame
  simp only [moveFrame]
  clear hbufs
  induction bufs generalizing world with
  | nil => simp [moveEach]
  | cons handle bufs ih =>
    have hcons (out : Fin n) : (if (f world handle).2 = some out then
          handle :: (moveEach f (f world handle).1 bufs).2 out
        else (moveEach f (f world handle).1 bufs).2 out).length =
        ((moveEach f (f world handle).1 bufs).2 out).length +
          if (f world handle).2 = some out then 1 else 0 := by
      split_ifs <;> rfl
    have hone : ∑ out, (if (f world handle).2 = some out then 1 else 0) ≤ 1 := by
      cases (f world handle).2 with
      | none => simp
      | some out => simp
    simp only [moveEach, hcons, Finset.sum_add_distrib, List.length_cons]
    exact add_le_add (ih _) hone

/-- Equal multisets of handles are equally many. -/
theorem sum_length_eq {n : ℕ} {outs : Fin n → Graph.Frame Handle} {bufs : List Handle}
    (h : ∑ out, ((outs out).bufs : Multiset Handle) = bufs) :
    ∑ out, (outs out).bufs.length = bufs.length := by
  have hcard := congrArg Multiset.card h
  rw [Multiset.card_sum] at hcard
  exact hcard

theorem Graph.Node.Passes.addsNothing {node : Node (World bits Handle) Handle} (h : node.Passes) :
    node.AddsNothing :=
  fun world input => (sum_length_eq (h.sum_eq world input)).le

theorem Graph.Node.addsNothing_of_sink {node : Node σ Handle} (hnext : node.nextCount = 0) :
    node.AddsNothing := by
  intro world input
  have hempty : IsEmpty (Fin node.nextCount) := hnext ▸ Fin.isEmpty
  rw [Finset.univ_eq_empty, Finset.sum_empty]
  exact Nat.zero_le _

theorem SteerNode.addsNothing (env : Env Handle) (hash : FlowKey → UInt32) (cfg : Config)
    (nWorkers : ℕ) :
    (SteerNode.node env hash cfg nWorkers : Node (World bits Handle) Handle).AddsNothing :=
  fun world input => sum_length_moveFrame_le _ world input

section Graphs

variable {env : Env Handle} {g : Graph (World bits Handle) Handle}
  {source : Node (World bits Handle) Handle} {rest : List (Node (World bits Handle) Handle)}
  {ranks : List ℕ}

/-- The first node pushes one burst, and the others add nothing. -/
theorem Graph.Wired.frugal (h : g.Wired env source rest ranks)
    (hrest : rest.Forall Node.AddsNothing) : g.Frugal 0 where
  not_edge_root := h.not_edge_root
  push_le v node hnode world input := by
    split_ifs with hv
    · subst hv
      obtain rfl : node = source := by
        rw [h.nodes_eq] at hnode
        exact (Option.some.inj hnode).symm
      exact (sum_length_eq (h.receives world input).2).trans_le (env.received world.tick).count_le
    · exact List.forall_iff_forall_mem.mp hrest node (h.mem_rest hv hnode) world input

theorem Graph.Wired.neverAllocates (h : g.Wired env source rest ranks)
    (hrest : rest.Forall Node.AddsNothing) : NeverAllocates g 0 := by
  refine Cerebellum.neverAllocates ?_ h.root_lt (h.frugal hrest)
  rw [← g.length_routing]
  exact h.length_lt

end Graphs

section Main

variable [DecidableEq Handle] (bits) (env : Env Handle) (hash : FlowKey → UInt32) (cfg : Config)
  (cks : Checksums)

/-- A graph is built, and no run of it makes the pool of frames grow. -/
def KeepsReserve {bits : ℕ} (build : Except String (Graph (World bits Handle) Handle × NodeId)) :
    Prop :=
  ∃ g, build = .ok (g, 0) ∧ NeverAllocates g 0

/-- In the four graphs no run makes the pool of frames grow. -/
theorem main_neverAllocates (nWorkers : ℕ) :
    KeepsReserve (buildMonolithicGraph bits env hash cfg cks) ∧
      KeepsReserve (buildRxGraph bits env hash cfg nWorkers) ∧
      KeepsReserve (buildWorkerGraph bits env hash cfg cks) ∧
      KeepsReserve (buildTxGraph bits env) := by
  obtain ⟨mono, hmono, -, hmono'⟩ := wired_monolithic bits env hash cfg cks
  obtain ⟨rx, hrx, -, hrx'⟩ := wired_rx bits env hash cfg nWorkers
  obtain ⟨worker, hworker, -, hworker'⟩ := wired_worker bits env hash cfg cks
  obtain ⟨tx, htx, -, htx'⟩ := wired_tx bits env
  refine ⟨⟨mono, hmono, hmono'.neverAllocates ?_⟩, ⟨rx, hrx, hrx'.neverAllocates ?_⟩,
    ⟨worker, hworker, hworker'.neverAllocates ?_⟩, ⟨tx, htx, htx'.neverAllocates ?_⟩⟩
  · exact ⟨(Ip4ParseNode.passes cfg).addsNothing, (LbNode.passes env hash).addsNothing,
      (DnatNode.passes cfg cks).addsNothing, (EtherRewriteNode.passes cfg).addsNothing,
      Node.addsNothing_of_sink rfl, Node.addsNothing_of_sink rfl, (ArpNode.passes cfg).addsNothing⟩
  · exact ⟨SteerNode.addsNothing env hash cfg nWorkers, (ArpNode.passes cfg).addsNothing,
      Node.addsNothing_of_sink rfl, Node.addsNothing_of_sink rfl⟩
  · exact ⟨(Ip4ParseNode.passes cfg).addsNothing, (LbNode.passes env hash).addsNothing,
      (DnatNode.passes cfg cks).addsNothing, (EtherRewriteNode.passes cfg).addsNothing,
      Node.addsNothing_of_sink rfl, Node.addsNothing_of_sink rfl⟩
  · exact Node.addsNothing_of_sink rfl

end Main

end Cerebellum
