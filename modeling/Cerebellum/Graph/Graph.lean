import Mathlib.Data.List.GetD
import Mathlib.Data.Multiset.Basic

/-!
# Packet graphs

A core runs its packets through a graph of nodes (`graph/graph.hpp`, `graph/node.hpp`). A node takes
a frame of packet handles and pushes handles on its outputs; each output is wired to one node or to
none. Nodes are referred to by 16-bit numbers, of which `kInvalid` stands for no node.

Nodes have state of their own and share some (counters, rings, the memory of the packets); here one
type of states serves all nodes of a graph. That a node pushes at most `kBurstSize` handles on an
output, and has at most `kMaxFanout` outputs, is part of its type.

## Main definitions

* `Cerebellum.Graph.Frame`, `Cerebellum.Graph.Node`, `Cerebellum.Graph`.
* `Cerebellum.Graph.addNode`, `Cerebellum.Graph.wire`, `Cerebellum.Graph.Edge`.

## Main results

* `Cerebellum.Graph.target_wire`: an output leads to the node that it was wired to last.
* `Cerebellum.Graph.edge_wire`: an output that is wired is an edge.
* `Cerebellum.Graph.Edge.lt`: an edge leads to a node of the graph.
-/

namespace Cerebellum

/-- `graph::kBurstSize`. -/
def kBurstSize : ℕ := 64

/-- `Graph::kMaxFanout`. -/
def kMaxFanout : ℕ := 8

theorem one_le_kMaxFanout : 1 ≤ kMaxFanout := by decide

theorem two_le_kMaxFanout : 2 ≤ kMaxFanout := by decide

theorem four_le_kMaxFanout : 4 ≤ kMaxFanout := by decide

/-- `Graph::NodeId`. -/
abbrev NodeId : Type := UInt16

/-- `Graph::kInvalid`. -/
def kInvalid : NodeId := 0xFFFF

namespace Graph

/-- `graph::Frame`: the handles that are in the array. -/
@[ext]
structure Frame (Handle : Type) where
  bufs : List Handle
  count_le : bufs.length ≤ kBurstSize

variable {σ Handle : Type}

/-- The frame after `Clear`. -/
def Frame.cleared : Frame Handle := ⟨[], Nat.zero_le _⟩

/-- `Frame::Full`. -/
def Frame.full (frame : Frame Handle) : Bool := frame.bufs.length = kBurstSize

/-- `graph::Node`: the number of outputs, and what `Process` does to the state and pushes on each
output, given the handles of the frame. -/
structure Node (σ Handle : Type) where
  nextCount : ℕ
  nextCount_le : nextCount ≤ kMaxFanout
  process : σ → Frame Handle → σ × (Fin nextCount → Frame Handle)

end Graph

/-- `graph::Graph`: the nodes, and for each node where its outputs lead. -/
structure Graph (σ Handle : Type) where
  nodes : List (Graph.Node σ Handle) := []
  routing : List (List NodeId) := []
  length_rows : routing.map List.length = nodes.map Graph.Node.nextCount := by rfl
  lt_of_mem : ∀ row ∈ routing, ∀ t ∈ row, t = kInvalid ∨ t.toNat < nodes.length := by simp

namespace Graph

variable {σ Handle : Type} (g : Graph σ Handle)

/-- `Graph::NodeCount`. -/
def nodeCount : UInt16 := UInt16.ofNat g.nodes.length

/-- `Graph::Fanout`. -/
def fanout (v : NodeId) : ℕ := (g.routing.getD v.toNat []).length

/-- `Graph::Target`. -/
def target (v : NodeId) (out : ℕ) : NodeId := (g.routing.getD v.toNat []).getD out kInvalid

/-- Output `out` of `v` is wired to `u`. -/
def Edge (v : NodeId) (out : ℕ) (u : NodeId) : Prop := g.target v out = u ∧ u ≠ kInvalid

instance (v : NodeId) (out : ℕ) (u : NodeId) : Decidable (g.Edge v out u) :=
  inferInstanceAs (Decidable (_ ∧ _))

theorem length_routing : g.routing.length = g.nodes.length := by
  simpa using congrArg List.length g.length_rows

/-- The row of a node of the graph. -/
theorem getD_routing_mem {v : NodeId} (hv : v.toNat < g.nodes.length) :
    g.routing.getD v.toNat [] ∈ g.routing := by
  rw [← length_routing] at hv
  rw [List.getD_eq_getElem _ _ hv]
  exact List.getElem_mem hv

/-- `Graph()`. -/
def empty : Graph σ Handle := {}

/-- `Graph::AddNode`. -/
def addNode (node : Node σ Handle) : Graph σ Handle × NodeId :=
  ({ nodes := g.nodes ++ [node]
     routing := g.routing ++ [List.replicate node.nextCount kInvalid]
     length_rows := by simp [g.length_rows]
     lt_of_mem := by
       intro row hrow t ht
       obtain hrow | hrow := List.mem_append.mp hrow
       · refine (g.lt_of_mem row hrow t ht).imp_right fun h => ?_
         rw [List.length_append]
         exact Nat.lt_add_right _ h
       · rw [List.mem_singleton.mp hrow] at ht
         exact .inl (List.eq_of_mem_replicate ht) },
    UInt16.ofNat g.nodes.length)

/-- `Graph::Wire`. -/
def wire (v : NodeId) (out : ℕ) (dest : NodeId) : Except String (Graph σ Handle) :=
  if h : v.toNat ≥ g.nodes.length ∨ dest.toNat ≥ g.nodes.length then
    .error s!"Wire: invalid node {v} or {dest}"
  else if out ≥ g.fanout v then
    .error s!"Wire: out_idx {out} >= NextCount()"
  else .ok
    { nodes := g.nodes
      routing := g.routing.set v.toNat ((g.routing.getD v.toNat []).set out dest)
      length_rows := by
        rw [← g.length_rows]
        apply List.ext_getElem
        · simp
        · intro i hi hi'
          by_cases hiv : v.toNat = i
          · subst hiv
            have hv : v.toNat < g.routing.length := by simpa using hi'
            simp only [List.getElem_map, List.getElem_set_self, List.length_set,
              List.getD_eq_getElem _ _ hv]
          · simp [List.getElem_set_ne hiv]
      lt_of_mem := by
        intro row hrow t ht
        simp only [ge_iff_le, not_or, not_le] at h
        obtain hrow | rfl := List.mem_or_eq_of_mem_set hrow
        · exact g.lt_of_mem row hrow t ht
        · obtain ht | rfl := List.mem_or_eq_of_mem_set ht
          · exact g.lt_of_mem _ (g.getD_routing_mem h.1) t ht
          · exact .inr h.2 }

private theorem getD_set {α : Type} {i j : ℕ} {x d : α} (l : List α) (hi : i < l.length) :
    (l.set i x).getD j d = if j = i then x else l.getD j d := by
  by_cases hj : j = i
  · subst hj
    simp [List.getD_eq_getElem?_getD, hi]
  · rw [if_neg hj, List.getD_eq_getElem?_getD, List.getElem?_set_ne (Ne.symm hj),
      ← List.getD_eq_getElem?_getD]

variable {g} {v dest : NodeId} {out : ℕ}

/-- `Wire` accepts the outputs of the nodes of the graph. -/
theorem wire_eq_ok (hv : v.toNat < g.nodes.length) (hdest : dest.toNat < g.nodes.length)
    (hout : out < g.fanout v) : ∃ g', g.wire v out dest = .ok g' ∧ g'.nodes = g.nodes ∧
      g'.routing = g.routing.set v.toNat ((g.routing.getD v.toNat []).set out dest) := by
  have hids : ¬ (v.toNat ≥ g.nodes.length ∨ dest.toNat ≥ g.nodes.length) := by omega
  rw [wire, dif_neg hids, if_neg (not_le.mpr hout)]
  exact ⟨_, rfl, rfl, rfl⟩

/-- An output leads to the node that it was wired to last, and the other outputs are unchanged. -/
theorem target_wire {g' : Graph σ Handle} (h : g.wire v out dest = .ok g') (u : NodeId) (o : ℕ) :
    g'.target u o = if u = v ∧ o = out then dest else g.target u o := by
  unfold wire at h
  split_ifs at h with hids hout
  obtain rfl := Except.ok.inj h
  simp only [ge_iff_le, not_or, not_le, ← length_routing] at hids hout
  have hids' : u.toNat = v.toNat ↔ u = v := UInt16.toNat_inj
  simp only [target, getD_set _ hids.1, hids']
  by_cases hu : u = v
  · subst hu
    simp only [if_true, true_and, getD_set _ hout]
  · simp only [hu, if_false, false_and]

/-- `Wire` makes an edge, as long as `kInvalid` is not the number of a node. -/
theorem edge_wire {g' : Graph σ Handle} (hsize : g.nodes.length ≤ 65535)
    (h : g.wire v out dest = .ok g') : g'.Edge v out dest := by
  refine ⟨by rw [target_wire h, if_pos ⟨rfl, rfl⟩], ?_⟩
  rintro rfl
  have hids : kInvalid.toNat ≥ g.nodes.length := hsize
  rw [wire, dif_pos (.inr hids)] at h
  cases h

/-- An output that is wired leads to a node of the graph. -/
theorem Edge.lt {u : NodeId} (h : g.Edge v out u) : u.toNat < g.nodes.length := by
  obtain ⟨rfl, h⟩ := h
  by_cases hout : out < g.fanout v
  · have hmem : g.target v out ∈ g.routing.getD v.toNat [] := by
      rw [target, List.getD_eq_getElem _ _ hout]
      exact List.getElem_mem hout
    have hv : v.toNat < g.nodes.length := by
      rw [← length_routing]
      by_contra hv
      rw [fanout, List.getD_eq_default _ _ (not_lt.mp hv)] at hout
      exact absurd hout (Nat.not_lt_zero _)
    exact (g.lt_of_mem _ (g.getD_routing_mem hv) _ hmem).resolve_left h
  · exact absurd (List.getD_eq_default _ _ (not_lt.mp hout)) h

theorem fanout_eq {node : Node σ Handle} (h : g.nodes[v.toNat]? = some node) :
    g.fanout v = node.nextCount := by
  have hrow := congrArg (fun l => l[v.toNat]?) g.length_rows
  simp only [List.getElem?_map, h, Option.map_some, Option.map_eq_some_iff] at hrow
  obtain ⟨row, hrow, hlen⟩ := hrow
  rw [fanout, List.getD_eq_getElem?_getD, hrow]
  exact hlen

end Graph

end Cerebellum
