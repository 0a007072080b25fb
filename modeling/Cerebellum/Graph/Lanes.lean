import Cerebellum.Graph.Transit

/-!
# Order in lanes

What a run does to the order of handles. A lane is a chain of nodes, the last one first, each of
which leads on to the one before it by one output; other nodes may hold handles of a class that is
of no interest, or lead nowhere. If the nodes keep their handles in order, the handles of interest
never overtake each other in the lane: those that have left it, followed by those that are still in
it, are at any time a part of what they were before, in the same order
(`Cerebellum.Graph.Lane.step`).

## Main definitions

* `Cerebellum.Graph.Node.Moves`: what a node pushes on an output is a part of its input, in order.
* `Cerebellum.Graph.LaneWired`: the wiring of a lane.
* `Cerebellum.Transit.line`: the handles that have left a lane or are in it.

## Main results

* `Cerebellum.Transit.Step.forall_pending`: nodes that move handles bring no new ones.
* `Cerebellum.Graph.Lane.step`: no handle overtakes another one.
-/

namespace Cerebellum

open Graph

variable {σ Handle : Type} {g : Graph σ Handle}

namespace Graph

/-- The outputs of `v` that lead to `u`. -/
def outputsTo (routing : List (List NodeId)) (v u : NodeId) : List ℕ :=
  if u = kInvalid then [] else
    (List.range (routing.getD v.toNat []).length).filter fun out =>
      (routing.getD v.toNat []).getD out kInvalid = u

/-- What a call routes to a node, by the wiring. -/
theorem routed_eq (c : Call Handle) (u : NodeId) :
    c.routed g u = (outputsTo g.routing c.node u).flatMap c.outs := by
  rw [Call.routed, outputsTo]
  split_ifs with hu
  · rw [List.flatMap_nil, List.flatMap_eq_nil_iff]
    intro out _
    exact if_neg fun h => h.2 hu
  · change (List.range (g.routing.getD c.node.toNat []).length).flatMap _ = _
    induction List.range (g.routing.getD c.node.toNat []).length with
    | nil => rfl
    | cons out outs ih =>
      rw [List.flatMap_cons, ih, List.filter_cons]
      by_cases hout : (g.routing.getD c.node.toNat []).getD out kInvalid = u
      · have hedge : g.Edge c.node out u := ⟨hout, hu⟩
        rw [Dispatcher.sentTo, if_pos hedge, if_pos (decide_eq_true hout), List.flatMap_cons]
      · have hedge : ¬ g.Edge c.node out u := fun h => hout h.1
        rw [Dispatcher.sentTo, if_neg hedge, if_neg (by simpa using hout), List.nil_append]

/-- A property of all nodes, from the list of the nodes. -/
theorem forall_node {nodes : List (Node σ Handle)} (hnodes : g.nodes = nodes)
    {Q : NodeId → Node σ Handle → Prop}
    (h : nodes.zipIdx.Forall fun p => Q (UInt16.ofNat p.2) p.1) (v : NodeId)
    (node : Node σ Handle) (hnode : g.nodes[v.toNat]? = some node) : Q v node := by
  subst hnodes
  have hmem : (node, v.toNat) ∈ g.nodes.zipIdx := List.mem_zipIdx_iff_getElem?.mpr hnode
  have hQ := List.forall_iff_forall_mem.mp h _ hmem
  rwa [UInt16.ofNat_toNat] at hQ

/-- What the node pushes on an output is a part of its input, in order. -/
def Node.Moves (node : Node σ Handle) : Prop :=
  ∀ world input out, ((node.process world input).2 out).bufs.Sublist input.bufs

theorem Node.Moves.outs_sublist {node : Node σ Handle} (h : node.Moves) (v : NodeId) (world : σ)
    (input : Frame Handle) (out : ℕ) : ((node.call v world input).outs out).Sublist input.bufs := by
  simp only [Node.call, outputs]
  split_ifs
  · exact h world input _
  · exact List.nil_sublist _

/-- What is routed to a node is among the input. -/
theorem Node.Moves.mem_of_mem_routed {node : Node σ Handle} (h : node.Moves) {v u : NodeId}
    {world : σ} {input : Frame Handle} {handle : Handle}
    (hmem : handle ∈ (node.call v world input).routed g u) : handle ∈ input.bufs := by
  rw [routed_eq] at hmem
  obtain ⟨out, -, hout⟩ := List.mem_flatMap.mp hmem
  exact (h.outs_sublist v world input out).subset hout

end Graph

namespace Transit

variable {s s' : Transit σ Handle} {v root : NodeId}

/-- If the nodes move handles, what is pending after a step was pending before. -/
theorem Step.forall_pending {P : Handle → Prop} (h : Step g s v s')
    (hmoves : ∀ node, g.nodes[v.toNat]? = some node → node.Moves)
    (hP : ∀ u, ∀ handle ∈ s.pending u, P handle) : ∀ u, ∀ handle ∈ s'.pending u, P handle := by
  cases h with
  | @call node rest input hnode hpending hfull =>
    intro u handle hmem
    have hv := hP v
    rw [hpending] at hv
    rcases List.mem_append.mp hmem with hmem | hmem
    · split_ifs at hmem with hu
      · exact hv handle (List.mem_append_right _ hmem)
      · exact hP u handle hmem
    · exact hv handle (List.mem_append_left _ ((hmoves node hnode).mem_of_mem_routed hmem))

/-- The handles of `burst` are pending at `v`, and nothing else is. -/
def Fed (v : NodeId) (burst : Frame Handle) (s : Transit σ Handle) : Prop :=
  ∀ u, s.pending u = if u = v then burst.bufs else []

variable {burst : Frame Handle}

/-- As long as a burst is pending at `v`, other nodes are called with nothing, and `v` with the
whole burst, as it fits into a frame. -/
theorem Step.fed (h : Step g s v s') {u : NodeId} (hfed : s.Fed u burst)
    (hmoves : ∀ node, g.nodes[v.toNat]? = some node → node.Moves) :
    ∃ node, g.nodes[v.toNat]? = some node ∧
      ((v ≠ u ∧ s'.Fed u burst ∧ s'.world = (node.process s.world .cleared).1) ∨
        (v = u ∧ s' = s.after g v node burst [])) := by
  cases h with
  | @call node rest input hnode hpending hfull =>
    refine ⟨node, hnode, ?_⟩
    rw [hfed v] at hpending
    by_cases hv : v = u
    · rw [if_pos hv] at hpending
      have hrest : rest = [] := by
        by_contra hrest
        have hlength := congrArg List.length hpending
        rw [List.length_append, hfull hrest] at hlength
        have hpos := List.length_pos_iff.mpr hrest
        have hle := burst.count_le
        omega
      subst hrest
      have hinput : input = burst := Frame.ext (by simpa using hpending.symm)
      exact .inr ⟨hv, by rw [hinput]⟩
    · rw [if_neg hv, eq_comm, List.append_eq_nil_iff] at hpending
      obtain ⟨hinput, rfl⟩ := hpending
      have hcleared : input = .cleared := Frame.ext hinput
      refine .inl ⟨hv, fun w => ?_, by rw [hcleared]; rfl⟩
      have hnone : (node.call v s.world input).routed g w = [] := by
        rw [List.eq_nil_iff_forall_not_mem]
        intro handle hmem
        have hmem' := (hmoves node hnode).mem_of_mem_routed hmem
        rw [hinput] at hmem'
        exact absurd hmem' List.not_mem_nil
      simp only [after, hnone, List.append_nil]
      split_ifs with hw hw'
      · exact absurd (hw.symm.trans hw') hv
      · rfl
      · exact (hfed w).trans (if_pos ‹_›)
      · exact (hfed w).trans (if_neg ‹_›)

/-- What is pending after a call, by the wiring. -/
theorem pending_after (s : Transit σ Handle) (v : NodeId) (node : Node σ Handle)
    (input : Frame Handle) (rest : List Handle) (u : NodeId) :
    (s.after g v node input rest).pending u = (if u = v then rest else s.pending u) ++
      (outputsTo g.routing v u).flatMap (node.call v s.world input).outs :=
  congrArg _ (routed_eq _ u)

/-- After the call with the burst, what is pending is what was pushed. -/
theorem Fed.pending_after {node : Node σ Handle} (h : s.Fed v burst) (u : NodeId) :
    (s.after g v node burst []).pending u =
      (outputsTo g.routing v u).flatMap (node.call v s.world burst).outs := by
  rw [Transit.pending_after]
  split_ifs with hu
  · rfl
  · rw [h u, if_neg hu, List.nil_append]

/-- The two phases of a run after a burst came in at `v`: `A` holds of the state of the nodes until
`v` is called, and `B` from then on. -/
theorem Steps.of_fed {A : σ → Prop} {B : Transit σ Handle → Prop} {world : σ}
    (h : Steps g s (.done world)) (hfed : s.Fed v burst) (hA : A s.world)
    (hmoves : ∀ u node, (∃ w out, g.Edge w out u) → g.nodes[u.toNat]? = some node → node.Moves)
    (hidle : ∀ u node, (∃ w out, g.Edge w out u) → g.nodes[u.toNat]? = some node → u ≠ v →
      ∀ world, A world → A (node.process world .cleared).1)
    (hfirst : ∀ (s : Transit σ Handle) node, g.nodes[v.toNat]? = some node → s.Fed v burst →
      A s.world → B (s.after g v node burst []))
    (hB : ∀ s s' u, (∃ w out, g.Edge w out u) → Step g s u s' → B s → B s') :
    (burst.bufs = [] ∧ A world) ∨ B (.done world) := by
  have hphases : ((Transit.done world : Transit σ Handle).Fed v burst ∧ A world) ∨
      B (.done world) := by
    refine h.induct (I := fun s => (s.Fed v burst ∧ A s.world) ∨ B s) ?_ (.inl ⟨hfed, hA⟩)
    intro s s' u hedge hstep hs
    rcases hs with ⟨hfed, hA⟩ | hs
    · obtain ⟨node, hnode, hcase⟩ := hstep.fed hfed (fun node => hmoves u node hedge)
      rcases hcase with ⟨hu, hfed', hworld⟩ | ⟨rfl, rfl⟩
      · exact .inl ⟨hfed', hworld ▸ hidle u node hedge hnode hu _ hA⟩
      · exact .inr (hfirst s node hnode hfed hA)
    · exact .inr (hB s s' u hedge hstep hs)
  refine hphases.imp_left fun ⟨hfed, hA⟩ => ⟨?_, hA⟩
  have hpending := hfed v
  rw [if_pos rfl] at hpending
  exact hpending.symm

end Transit

/-! ### Lanes -/

namespace Graph

/-- The node that comes right before `v`. -/
def before (v : NodeId) : List NodeId → Option NodeId
  | u :: w :: lane => if w = v then some u else before v (w :: lane)
  | _ => none

theorem exists_append_of_before_eq_some {v u : NodeId} {lane : List NodeId}
    (h : before v lane = some u) : ∃ front back, lane = front ++ u :: v :: back := by
  induction lane with
  | nil => cases h
  | cons w lane ih =>
    cases lane with
    | nil => cases h
    | cons w' lane =>
      rw [before] at h
      split_ifs at h with hw
      · obtain rfl := Option.some.inj h
        exact ⟨[], lane, by rw [hw, List.nil_append]⟩
      · obtain ⟨front, back, hlane⟩ := ih h
        exact ⟨w :: front, back, by rw [hlane, List.cons_append]⟩

theorem head?_of_before_eq_none {v : NodeId} {lane : List NodeId} (h : before v lane = none)
    (hv : v ∈ lane) : lane.head? = some v := by
  induction lane with
  | nil => exact absurd hv List.not_mem_nil
  | cons w lane ih =>
    rcases List.mem_cons.mp hv with rfl | hv
    · rfl
    · cases lane with
      | nil => exact absurd hv List.not_mem_nil
      | cons w' lane =>
        rw [before] at h
        split_ifs at h with hw
        have hhead := ih h hv
        rw [List.head?_cons] at hhead
        exact absurd (Option.some.inj hhead) hw

theorem before_ne_self {v : NodeId} {lane : List NodeId} (h : lane.Nodup) :
    before v lane ≠ some v := by
  intro hbefore
  obtain ⟨front, back, rfl⟩ := exists_append_of_before_eq_some hbefore
  simp [List.nodup_append] at h

/-- The wiring of a lane: a node of the lane leads on to the one before it, by one output. Otherwise
no node leads into the lane or to a node of `clean`, apart from the nodes of `clean` themselves. -/
def LaneWired (routing : List (List NodeId)) (lane clean : List NodeId) : Prop :=
  (lane ++ clean).Nodup ∧ ∀ n ∈ List.range routing.length, UInt16.ofNat n ∉ clean →
    ∀ u ∈ lane ++ clean, (outputsTo routing (UInt16.ofNat n) u).length ≤
      if before (UInt16.ofNat n) lane = some u then 1 else 0

instance (routing : List (List NodeId)) (lane clean : List NodeId) :
    Decidable (LaneWired routing lane clean) :=
  -- By the members of the list: there are too many identifiers to try them all.
  haveI (v : NodeId) : Decidable (∀ u ∈ lane ++ clean, (outputsTo routing v u).length ≤
      if before v lane = some u then 1 else 0) := List.decidableBAll _ _
  inferInstanceAs (Decidable (_ ∧ _))

/-- The node adds a part of its input to `emitted`, in order, and nothing if `quiet` holds. -/
def Node.Emits (node : Node σ Handle) (emitted : σ → List Handle) (quiet : Prop) : Prop :=
  ∀ world input, ∃ out : List Handle, out.Sublist input.bufs ∧
    emitted (node.process world input).1 = emitted world ++ out ∧ (quiet → out = [])

/-- A lane of a graph whose nodes, apart from the root, move their handles. Handles leave the lane
at its first node; other nodes leave `emitted` alone, unless they belong to `clean`. -/
structure Lane (g : Graph σ Handle) (root : NodeId) (emitted : σ → List Handle)
    (lane clean : List NodeId) : Prop where
  wired : LaneWired g.routing lane clean
  moves : ∀ v node, g.nodes[v.toNat]? = some node → v ≠ root → node.Moves
  emits : ∀ v node, g.nodes[v.toNat]? = some node → v ≠ root →
    node.Emits emitted (v ∉ clean ∧ lane.head? ≠ some v)

end Graph

namespace Transit

/-- The handles that have left the lane, and then those that are in it. -/
def line (emitted : σ → List Handle) (lane : List NodeId) (s : Transit σ Handle) : List Handle :=
  emitted s.world ++ lane.flatMap s.pending

/-- The handles of interest in the line are some of `hs`, in this order, and none of them is at a
node of `clean`. -/
structure InLine (emitted : σ → List Handle) (lane clean : List NodeId) (P : Handle → Bool)
    (hs : List Handle) (s : Transit σ Handle) : Prop where
  clean_eq : (clean.flatMap s.pending).filter P = []
  sublist : ((s.line emitted lane).filter P).Sublist (hs.filter P)

end Transit

namespace Graph.Lane

open Transit

variable {root v : NodeId} {emitted : σ → List Handle} {lane clean : List NodeId}
  {s s' : Transit σ Handle} {P : Handle → Bool}

theorem length_outputsTo_le (h : Lane g root emitted lane clean) {u : NodeId}
    (hlt : v.toNat < g.nodes.length) (hclean : v ∉ clean) (hu : u ∈ lane ++ clean) :
    (outputsTo g.routing v u).length ≤ if before v lane = some u then 1 else 0 := by
  have hwired := h.wired.2 v.toNat (List.mem_range.mpr (g.length_routing ▸ hlt))
  rw [UInt16.ofNat_toNat] at hwired
  exact hwired hclean u hu

/-- A call routes no handle of interest to a node of the lane or to one of `clean`, other than the
next one in the lane. -/
theorem filter_routed_eq_nil (h : Lane g root emitted lane clean) {node : Node σ Handle}
    (hnode : g.nodes[v.toNat]? = some node) (hv : v ≠ root) (world : σ) {input : Frame Handle}
    (hinput : v ∈ clean → ∀ handle ∈ input.bufs, ¬ P handle) {u : NodeId} (hu : u ∈ lane ++ clean)
    (hbefore : before v lane ≠ some u ∨ v ∈ clean) :
    ((node.call v world input).routed g u).filter P = [] := by
  by_cases hclean : v ∈ clean
  · rw [List.filter_eq_nil_iff]
    intro handle hmem
    exact hinput hclean handle ((h.moves v node hnode hv).mem_of_mem_routed hmem)
  · have hlen := h.length_outputsTo_le (List.getElem?_eq_some_iff.mp hnode).1 hclean hu
    rw [if_neg (hbefore.resolve_right hclean), Nat.le_zero, List.length_eq_zero_iff] at hlen
    rw [routed_eq, show (node.call v world input).node = v from rfl, hlen, List.flatMap_nil,
      List.filter_nil]

/-- What a call routes to the next node of the lane is a part of its input. -/
theorem routed_sublist (h : Lane g root emitted lane clean) {node : Node σ Handle}
    (hnode : g.nodes[v.toNat]? = some node) (hv : v ≠ root) (world : σ) (input : Frame Handle)
    {u : NodeId} (hclean : v ∉ clean) (hu : u ∈ lane) :
    ((node.call v world input).routed g u).Sublist input.bufs := by
  have hlen : (outputsTo g.routing v u).length ≤ 1 := by
    refine (h.length_outputsTo_le (List.getElem?_eq_some_iff.mp hnode).1 hclean
      (List.mem_append_left clean hu)).trans ?_
    split_ifs <;> omega
  rw [routed_eq, show (node.call v world input).node = v from rfl]
  match outputsTo g.routing v u, hlen with
  | [], _ => exact List.nil_sublist _
  | [out], _ =>
    rw [List.flatMap_singleton]
    exact (h.moves v node hnode hv).outs_sublist v world input out

/-- Nodes that no handle of interest is routed to hold no more of them than before. -/
private theorem filter_pending_sublist {node : Node σ Handle} {input : Frame Handle}
    {rest : List Handle} (hpending : s.pending v = input.bufs ++ rest) (nodes : List NodeId)
    (hnil : ∀ u ∈ nodes, ((node.call v s.world input).routed g u).filter P = []) :
    ((nodes.flatMap (s.after g v node input rest).pending).filter P).Sublist
      ((nodes.flatMap s.pending).filter P) := by
  rw [List.filter_flatMap, List.filter_flatMap]
  refine List.Sublist.flatMap_right nodes fun u hu => ?_
  rw [after, List.filter_append, hnil u hu, List.append_nil]
  split_ifs with huv
  · rw [huv, hpending]
    exact (List.sublist_append_right _ _).filter P
  · exact List.Sublist.refl _

section Call

variable {node : Node σ Handle} {input : Frame Handle} {rest out : List Handle}

/-- What stays at a node of the lane that is called. -/
private theorem filter_pending_self (h : Lane g root emitted lane clean)
    (hnode : g.nodes[v.toNat]? = some node) (hv : v ≠ root) (hclean : v ∉ clean)
    (hlane : v ∈ lane) :
    ((s.after g v node input rest).pending v).filter P = rest.filter P := by
  have hne : before v lane ≠ some v := before_ne_self (List.nodup_append.mp h.wired.1).1
  rw [after, List.filter_append, h.filter_routed_eq_nil hnode hv s.world
    (fun hmem => absurd hmem hclean) (List.mem_append_left _ hlane) (.inl hne), List.append_nil,
    if_pos rfl]

/-- What stays at nodes of the lane that the called node does not lead to. -/
private theorem filter_pending_later (h : Lane g root emitted lane clean)
    (hnode : g.nodes[v.toNat]? = some node) (hv : v ≠ root) (hclean : v ∉ clean)
    (hpending : s.pending v = input.bufs ++ rest) {nodes : List NodeId} (hnodes : nodes ⊆ lane)
    (hne : ∀ u ∈ nodes, before v lane ≠ some u) :
    ((nodes.flatMap (s.after g v node input rest).pending).filter P).Sublist
      ((nodes.flatMap s.pending).filter P) :=
  filter_pending_sublist hpending nodes fun u hu =>
    h.filter_routed_eq_nil hnode hv s.world (fun hmem => absurd hmem hclean)
      (List.mem_append_left _ (hnodes hu)) (.inl (hne u hu))

/-- At a node of `clean`, or elsewhere outside the lane, no handle of interest leaves the lane or
reaches a node of it. -/
private theorem sublist_of_quiet (h : Lane g root emitted lane clean)
    (hnode : g.nodes[v.toNat]? = some node) (hv : v ≠ root)
    (hpending : s.pending v = input.bufs ++ rest)
    (hinput : v ∈ clean → ∀ handle ∈ input.bufs, ¬ P handle) (hout : out.Sublist input.bufs)
    (hsilent : v ∉ clean ∧ lane.head? ≠ some v → out = []) (hquiet : v ∈ clean ∨ v ∉ lane) :
    (out.filter P ++ (lane.flatMap (s.after g v node input rest).pending).filter P).Sublist
      ((lane.flatMap s.pending).filter P) := by
  have hnone : out.filter P = [] := by
    by_cases hclean : v ∈ clean
    · exact List.filter_eq_nil_iff.mpr fun handle hmem => hinput hclean handle (hout.subset hmem)
    · rw [hsilent ⟨hclean, fun hhead => hquiet.resolve_left hclean (List.mem_of_head? hhead)⟩]
      exact List.filter_nil
  rw [hnone, List.nil_append]
  refine filter_pending_sublist hpending lane fun u hu => ?_
  refine h.filter_routed_eq_nil hnode hv s.world hinput (List.mem_append_left _ hu)
    (hquiet.symm.imp_left fun hlane hbefore => ?_)
  obtain ⟨front, back, rfl⟩ := exists_append_of_before_eq_some hbefore
  exact hlane (by simp)

/-- At the first node of the lane, what it emits was at the front. -/
private theorem sublist_of_first (h : Lane g root emitted lane clean)
    (hnode : g.nodes[v.toNat]? = some node) (hv : v ≠ root)
    (hpending : s.pending v = input.bufs ++ rest) (hout : out.Sublist input.bufs)
    (hclean : v ∉ clean) (hlane : v ∈ lane) (hbefore : before v lane = none) :
    (out.filter P ++ (lane.flatMap (s.after g v node input rest).pending).filter P).Sublist
      ((lane.flatMap s.pending).filter P) := by
  obtain ⟨back, hcons⟩ := List.head?_eq_some_iff.mp (head?_of_before_eq_none hbefore hlane)
  have hself : ((s.after g v node input rest).pending v).filter P = rest.filter P :=
    h.filter_pending_self hnode hv hclean hlane
  have hback := h.filter_pending_later (P := P) hnode hv hclean hpending
    (hcons ▸ List.subset_cons_self v back) (by simp [hbefore])
  rw [hcons, List.flatMap_cons, List.flatMap_cons, List.filter_append, List.filter_append, hself,
    hpending, List.filter_append, ← List.append_assoc]
  exact ((hout.filter P).append (List.Sublist.refl _)).append hback

/-- At a node further back, the handles go to the end of what is pending in front of it. -/
private theorem sublist_of_inner (h : Lane g root emitted lane clean)
    (hnode : g.nodes[v.toNat]? = some node) (hv : v ≠ root)
    (hpending : s.pending v = input.bufs ++ rest)
    (hsilent : v ∉ clean ∧ lane.head? ≠ some v → out = []) (hclean : v ∉ clean) {u : NodeId}
    (hbefore : before v lane = some u) :
    (out.filter P ++ (lane.flatMap (s.after g v node input rest).pending).filter P).Sublist
      ((lane.flatMap s.pending).filter P) := by
  obtain ⟨front, back, hlane⟩ := exists_append_of_before_eq_some hbefore
  have hnodup : (front ++ u :: v :: back).Nodup := hlane ▸ (List.nodup_append.mp h.wired.1).1
  obtain ⟨-, ⟨⟨huv, huback⟩, -⟩, hfront⟩ := by simpa [List.nodup_append] using hnodup
  have hhead : lane.head? ≠ some v := by
    rw [hlane]
    cases front with
    | nil => exact fun h' => huv (Option.some.inj h')
    | cons w front => exact fun h' => (hfront w List.mem_cons_self).2.1 (Option.some.inj h')
  have hne (w : NodeId) (hw : w ≠ u) : before v lane ≠ some w := fun hw' =>
    hw (Option.some.inj (hw'.symm.trans hbefore))
  have hmem : u ∈ lane ∧ v ∈ lane ∧ front ⊆ lane ∧ back ⊆ lane := by
    rw [hlane]
    exact ⟨by simp, by simp, List.subset_append_left _ _, fun w hw => by simp [hw]⟩
  have hself : ((s.after g v node input rest).pending v).filter P = rest.filter P :=
    h.filter_pending_self hnode hv hclean hmem.2.1
  have hfront' := h.filter_pending_later (P := P) hnode hv hclean hpending hmem.2.2.1
    fun w hw => hne w (hfront w hw).1
  have hback := h.filter_pending_later (P := P) hnode hv hclean hpending hmem.2.2.2
    fun w hw => hne w fun h' => huback (h' ▸ hw)
  have hrouted := h.routed_sublist hnode hv s.world input hclean hmem.1
  have hnext : ((s.after g v node input rest).pending u).filter P =
      (s.pending u).filter P ++ ((node.call v s.world input).routed g u).filter P := by
    rw [after, List.filter_append, if_neg huv]
  rw [hsilent ⟨hclean, hhead⟩, List.filter_nil, List.nil_append]
  simp only [hlane, List.flatMap_append, List.flatMap_cons, List.filter_append, hself, hpending,
    hnext, List.append_assoc]
  exact hfront'.append ((List.Sublist.refl _).append
    ((hrouted.filter P).append ((List.Sublist.refl _).append hback)))

end Call

/-- A step leaves the handles of interest in their order in the lane, and brings none of them to the
nodes of `clean`. -/
theorem step (h : Lane g root emitted lane clean) (hv : v ≠ root) (hstep : Step g s v s')
    (hclean : (clean.flatMap s.pending).filter P = []) :
    (clean.flatMap s'.pending).filter P = [] ∧
      ((s'.line emitted lane).filter P).Sublist ((s.line emitted lane).filter P) := by
  cases hstep with
  | @call node rest input hnode hpending hfull =>
    have hinput : v ∈ clean → ∀ handle ∈ input.bufs, ¬ P handle := by
      intro hmem handle hhandle
      refine List.filter_eq_nil_iff.mp hclean handle (List.mem_flatMap.mpr ⟨v, hmem, ?_⟩)
      exact hpending ▸ List.mem_append_left _ hhandle
    obtain ⟨out, hout, hemitted, hsilent⟩ := h.emits v node hnode hv s.world input
    constructor
    · have hsub := filter_pending_sublist hpending clean fun u hu => by
        refine h.filter_routed_eq_nil hnode hv s.world hinput (List.mem_append_right _ hu)
          (.inl fun hbefore => ?_)
        obtain ⟨front, back, rfl⟩ := exists_append_of_before_eq_some hbefore
        exact (List.nodup_append.mp h.wired.1).2.2 u (by simp) u hu rfl
      rw [hclean] at hsub
      exact List.sublist_nil.mp hsub
    · simp only [line, List.filter_append]
      change ((emitted (node.process s.world input).1).filter P ++ _).Sublist _
      rw [hemitted, List.filter_append, List.append_assoc]
      refine List.Sublist.append (List.Sublist.refl _) ?_
      by_cases hquiet : v ∈ clean ∨ v ∉ lane
      · exact h.sublist_of_quiet hnode hv hpending hinput hout hsilent hquiet
      · rw [not_or, not_not] at hquiet
        cases hbefore : before v lane with
        | none => exact h.sublist_of_first hnode hv hpending hout hquiet.1 hquiet.2 hbefore
        | some u => exact h.sublist_of_inner hnode hv hpending hsilent hquiet.1 hbefore

theorem inLine_step (h : Lane g root emitted lane clean) {hs : List Handle} (hv : v ≠ root)
    (hstep : Step g s v s') (hline : s.InLine emitted lane clean P hs) :
    s'.InLine emitted lane clean P hs := by
  obtain ⟨hclean, hsub⟩ := h.step hv hstep hline.clean_eq
  exact ⟨hclean, hsub.trans hline.sublist⟩

end Graph.Lane

end Cerebellum
