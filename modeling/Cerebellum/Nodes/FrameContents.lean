import Cerebellum.Nodes.Contracts
import Cerebellum.Nodes.Pipeline

/-!
# What the graphs make of frames

What leaves the graph of a single core, or that of a worker, is what the pipeline
(`Cerebellum.Pipeline.handle`) emits for a frame that the run has received, in the state that the
load balancer is in when it comes to this frame, or it is the reply to an ARP request. The load
balancer sees the frames one after the other, each at most once. The input side of the IO core
leaves a frame as it is and puts it on the ring of the worker it is steered to, or answers it.

## Main definitions

* `Cerebellum.Balancing`: a load balancer as it starts, and what it is given.
* `Cerebellum.Balancing.Logged`: the load balancer has seen the packets of a log.
* `Cerebellum.Balancing.Emits`, `Cerebellum.Balancing.Refuses`: what the pipeline emits at the
  place of a packet in a log, and that it emits nothing there.
* `Cerebellum.Balancing.contract`: what is due of the graphs with a load balancer.
* `Cerebellum.inputContract`: what is due of the input side of the IO core.

## Main results

* `Cerebellum.Balancing.monolithic_due`, `Cerebellum.Balancing.worker_due`, `Cerebellum.rx_due`:
  one run of each graph.
-/

namespace Cerebellum

open Graph Dispatcher

variable {bits : ℕ} {Handle : Type}

/-! ### The load balancer and its log -/

/-- The frame is an ARP request, and the other one is the reply to it. -/
def AnswersArp (cfg : Config) (f reply : Frame) : Prop :=
  f.etherType = etherTypeArp ∧ ArpNode.buildReply cfg f = some reply

/-- What the ARP node pushes on its first output are replies, and on its second one packets that it
does not answer. -/
theorem ArpNode.mem_pushed [DecidableEq Handle] {cfg : Config} {world : World bits Handle}
    {input : Graph.Frame Handle} (hnodup : input.bufs.Nodup) {out : Fin 2} {handle : Handle}
    (h : handle ∈ (((ArpNode.node cfg).process world input).2 out).bufs) :
    handle ∈ input.bufs ∧
      (if (ArpNode.buildReply cfg (world.mem handle).frame).isSome then (0 : Fin 2) else 1) = out ∧
      ((ArpNode.node cfg).process world input).1.mem handle =
        (ArpNode.buildReply cfg (world.mem handle).frame).elim (world.mem handle)
          fun reply => { world.mem handle with frame := reply } := by
  let write (mbuf : Mbuf) : Mbuf :=
    (ArpNode.buildReply cfg mbuf.frame).elim mbuf fun reply => { mbuf with frame := reply }
  obtain ⟨hmem, hnext, hbuf⟩ := mem_moveFrame
    (fun mbuf => some (if (ArpNode.buildReply cfg mbuf.frame).isSome then (0 : Fin 2) else 1)) write
    (fun world handle => by cases ArpNode.buildReply cfg (world.mem handle).frame <;> rfl)
    (fun world handle => by
      simp only [write]
      cases ArpNode.buildReply cfg (world.mem handle).frame with
      | none => exact (Function.update_eq_self handle world.mem).symm
      | some reply => rfl) hnodup h
  exact ⟨hmem, Option.some.inj hnext, hbuf⟩

theorem ArpNode.mem_answered [DecidableEq Handle] {cfg : Config} {world : World bits Handle}
    {input : Graph.Frame Handle} (hnodup : input.bufs.Nodup) {handle : Handle}
    (h : handle ∈ (((ArpNode.node cfg).process world input).2 (0 : Fin 2)).bufs) :
    handle ∈ input.bufs ∧ ∃ reply, ArpNode.buildReply cfg (world.mem handle).frame = some reply ∧
      ((ArpNode.node cfg).process world input).1.mem handle =
        { world.mem handle with frame := reply } := by
  obtain ⟨hmem, hnext, hbuf⟩ := mem_pushed hnodup h
  refine ⟨hmem, ?_⟩
  cases hreply : ArpNode.buildReply cfg (world.mem handle).frame with
  | none =>
    simp only [hreply, Option.isSome_none, Bool.false_eq_true, if_false] at hnext
    exact absurd hnext (by decide)
  | some reply =>
    rw [hreply, Option.elim_some] at hbuf
    exact ⟨reply, rfl, hbuf⟩

theorem ArpNode.mem_unanswered [DecidableEq Handle] {cfg : Config} {world : World bits Handle}
    {input : Graph.Frame Handle} (hnodup : input.bufs.Nodup) {handle : Handle}
    (h : handle ∈ (((ArpNode.node cfg).process world input).2 (1 : Fin 2)).bufs) :
    handle ∈ input.bufs ∧ ArpNode.buildReply cfg (world.mem handle).frame = none := by
  obtain ⟨hmem, hnext, -⟩ := mem_pushed hnodup h
  refine ⟨hmem, ?_⟩
  cases hreply : ArpNode.buildReply cfg (world.mem handle).frame with
  | none => rfl
  | some reply =>
    simp only [hreply, Option.isSome_some, if_true] at hnext
    exact absurd hnext (by decide)

namespace Pipeline

variable {cfg : Config} {i : Input}

/-- The parse node passes on what it finds in the packet. -/
theorem arrival_of_isSome (h : (arrival cfg i).isSome) :
    arrival cfg i = some ⟨i.pool, i.nowMs, (Ip4ParseNode.classify cfg i.mbuf).1⟩ := by
  rw [arrival] at h ⊢
  split at h
  · next hclass => rw [hclass]
  · next hclass => rw [hclass]
  · cases h

/-- It does so with the packets that leave it by the first two outputs. -/
theorem isSome_arrival (h : (Ip4ParseNode.classify cfg i.mbuf).2 = .fwd ∨
    (Ip4ParseNode.classify cfg i.mbuf).2 = .rev) : (arrival cfg i).isSome := by
  rw [arrival]
  cases hclass : Ip4ParseNode.classify cfg i.mbuf with
  | mk m next =>
    rw [hclass] at h
    obtain rfl | rfl := h <;> rfl

/-- It does not with the others. -/
theorem arrival_eq_none (h : (Ip4ParseNode.classify cfg i.mbuf).2 = .drop ∨
    (Ip4ParseNode.classify cfg i.mbuf).2 = .arp) : arrival cfg i = none := by
  rw [arrival]
  cases hclass : Ip4ParseNode.classify cfg i.mbuf with
  | mk m next =>
    rw [hclass] at h
    obtain rfl | rfl := h <;> rfl

/-- Nothing is emitted for a packet that the load balancer does not send on. -/
theorem handle_eq_none_of_arrive {hash : FlowKey → UInt32} {cks : Checksums} {n : LbNode bits}
    {a : Arrival} (ha : arrival cfg i = some a) (h : (LbNode.arrive hash n a).2.1 = false) :
    (handle hash cfg cks n i).2 = none := by
  rw [handle, ha]
  simp only [h, Bool.false_eq_true, if_false]

end Pipeline

/-- A load balancer as it starts, what the world outside answers it, and the frames as they are
received. -/
structure Balancing (bits : ℕ) (Handle : Type) where
  env : Env Handle
  arrivals : Handle → Mbuf
  hash : FlowKey → UInt32
  cfg : Config
  cks : Checksums
  start : LbNode bits

namespace Balancing

section Log

variable (B : Balancing bits Handle)

/-- A packet of a log as an input of the pipeline. -/
def input (p : Handle × ℕ) : Input := ⟨B.env.pool p.2, B.env.nowMs p.2, B.arrivals p.1⟩

/-- The load balancer after the packets of a log. -/
def stateAfter (log : List (Handle × ℕ)) : LbNode bits :=
  Pipeline.run B.hash B.cfg B.start (log.map B.input)

/-- The load balancer has seen the packets of the log, each once. -/
structure Logged (log : List (Handle × ℕ)) (lb : LbNode bits) : Prop where
  lb_eq : lb = B.stateAfter log
  nodup : (log.map Prod.fst).Nodup
  arrives : ∀ p ∈ log, (Pipeline.arrival B.cfg (B.input p)).isSome

/-- The packet passes the load balancer at its place in the log, with this translation. -/
def PassesAs (m : PacketMeta) (log : List (Handle × ℕ)) (handle : Handle) : Prop :=
  ∃ before tick after a, log = before ++ (handle, tick) :: after ∧
    Pipeline.arrival B.cfg (B.input (handle, tick)) = some a ∧
    (LbNode.arrive B.hash (B.stateAfter before) a).2 = (true, m)

/-- The pipeline emits this for the packet at its place in the log. -/
def Emits : Assertion Handle := fun log handle mbuf =>
  ∃ before tick after, log = before ++ (handle, tick) :: after ∧
    (Pipeline.handle B.hash B.cfg B.cks (B.stateAfter before) (B.input (handle, tick))).2 =
      some mbuf

/-- What is to be sent for a packet, by an lcore that answers ARP requests or does not. -/
def Due (arp : Prop) : Assertion Handle := fun log handle mbuf =>
  B.Emits log handle mbuf ∨ arp ∧ AnswersArp B.cfg (B.arrivals handle).frame mbuf.frame

/-- The pipeline emits nothing for the packet at its place in the log. -/
def Refuses (log : List (Handle × ℕ)) (handle : Handle) : Prop :=
  ∃ before tick after, log = before ++ (handle, tick) :: after ∧
    (Pipeline.handle B.hash B.cfg B.cks (B.stateAfter before) (B.input (handle, tick))).2 = none

/-- Nothing is to be sent for a packet: it does not come to the load balancer, and is not to be
answered, or the pipeline emits nothing at its place in the log. -/
def Rejects (arp : Prop) : Assertion Handle := fun log handle _ =>
  ((∀ tick, Pipeline.arrival B.cfg (B.input (handle, tick)) = none) ∧
    (arp → ∀ reply, ¬ AnswersArp B.cfg (B.arrivals handle).frame reply)) ∨ B.Refuses log handle

variable {B} {log : List (Handle × ℕ)} {handle : Handle} {mbuf : Mbuf} {m : PacketMeta}

theorem stateAfter_append (log new : List (Handle × ℕ)) :
    B.stateAfter (log ++ new) = LbNode.run B.hash (B.stateAfter log)
      ((new.map B.input).filterMap (Pipeline.arrival B.cfg)) := by
  rw [stateAfter, stateAfter, Pipeline.run, Pipeline.run, List.map_append, List.filterMap_append,
    LbNode.run_append]

theorem stateAfter_concat {p : Handle × ℕ} {a : Arrival}
    (h : Pipeline.arrival B.cfg (B.input p) = some a) :
    B.stateAfter (log ++ [p]) = (LbNode.arrive B.hash (B.stateAfter log) a).1 := by
  rw [stateAfter_append, List.map_singleton, List.filterMap_cons, h, List.filterMap_nil]
  rfl

theorem PassesAs.append (h : B.PassesAs m log handle) (new : List (Handle × ℕ)) :
    B.PassesAs m (log ++ new) handle := by
  obtain ⟨before, tick, after, a, rfl, ha, hpass⟩ := h
  exact ⟨before, tick, after ++ new, a, by rw [List.append_assoc, List.cons_append], ha, hpass⟩

theorem Emits.append (h : B.Emits log handle mbuf) (new : List (Handle × ℕ)) :
    B.Emits (log ++ new) handle mbuf := by
  obtain ⟨before, tick, after, rfl, hemit⟩ := h
  exact ⟨before, tick, after ++ new, by rw [List.append_assoc, List.cons_append], hemit⟩

theorem Due.append {arp : Prop} (h : B.Due arp log handle mbuf) (new : List (Handle × ℕ)) :
    B.Due arp (log ++ new) handle mbuf :=
  h.imp_left fun h => h.append new

theorem Refuses.append (h : B.Refuses log handle) (new : List (Handle × ℕ)) :
    B.Refuses (log ++ new) handle := by
  obtain ⟨before, tick, after, rfl, hnone⟩ := h
  exact ⟨before, tick, after ++ new, by rw [List.append_assoc, List.cons_append], hnone⟩

theorem Rejects.append {arp : Prop} (h : B.Rejects arp log handle mbuf)
    (new : List (Handle × ℕ)) : B.Rejects arp (log ++ new) handle mbuf :=
  h.imp_right fun h => h.append new

/-- A packet has one place in the log. -/
theorem Logged.place_unique {lb : LbNode bits} (h : B.Logged log lb)
    {before before' after after' : List (Handle × ℕ)} {tick tick' : ℕ}
    (hlog : log = before ++ (handle, tick) :: after)
    (hlog' : log = before' ++ (handle, tick') :: after') : before = before' ∧ tick = tick' := by
  have hnodup := h.nodup
  rw [hlog, List.map_append, List.map_cons] at hnodup
  obtain ⟨-, hcons, hdisjoint⟩ := List.nodup_append.mp hnodup
  have hbefore (p : Handle × ℕ) (hp : p ∈ before) : p ≠ (handle, tick') := fun heq =>
    hdisjoint p.1 (List.mem_map_of_mem hp) handle List.mem_cons_self (congrArg Prod.fst heq)
  have hafter (p : Handle × ℕ) (hp : p ∈ after) : p ≠ (handle, tick') := fun heq =>
    (List.nodup_cons.mp hcons).1 (List.mem_map.mpr ⟨p, hp, (congrArg Prod.fst heq : p.1 = handle)⟩)
  obtain ⟨rfl, heq, -⟩ := (List.append_cons_inj_of_notMem (fun hp => hbefore _ hp rfl)
    fun hp => hafter _ hp rfl).mp (hlog.symm.trans hlog')
  exact ⟨rfl, congrArg Prod.snd heq⟩

/-- The pipeline emits something for a packet or nothing. -/
theorem Emits.not_refuses {lb : LbNode bits} (h : B.Emits log handle mbuf)
    (hlogged : B.Logged log lb) : ¬ B.Refuses log handle := by
  rintro ⟨before', tick', after', hlog', hnone⟩
  obtain ⟨before, tick, after, hlog, hsome⟩ := h
  obtain ⟨rfl, rfl⟩ := hlogged.place_unique hlog hlog'
  exact Option.some_ne_none mbuf (hsome.symm.trans hnone)

/-- Something is to be sent for a packet or nothing. -/
theorem Due.not_rejects {lb : LbNode bits} (h : B.Due True log handle mbuf)
    (hlogged : B.Logged log lb) : ¬ B.Rejects True log handle mbuf := by
  rintro (⟨hnone, hunanswered⟩ | hrefuses)
  · obtain ⟨before, tick, after, rfl, -⟩ | ⟨-, hanswers⟩ := h
    · have hsome := hlogged.arrives (handle, tick) (List.mem_append_right _ List.mem_cons_self)
      exact absurd (hnone tick) (Option.isSome_iff_ne_none.mp hsome)
    · exact hunanswered trivial _ hanswers
  · obtain hemit | ⟨-, hanswers⟩ := h
    · exact hemit.not_refuses hlogged hrefuses
    · obtain ⟨before, tick, after, rfl, -⟩ := hrefuses
      have hsome := hlogged.arrives (handle, tick) (List.mem_append_right _ List.mem_cons_self)
      have hclass : (Ip4ParseNode.classify B.cfg (B.arrivals handle)).2 = .arp := by
        rw [Ip4ParseNode.classify, if_pos hanswers.1]
      have hnone : Pipeline.arrival B.cfg (B.input (handle, tick)) = none :=
        Pipeline.arrival_eq_none (Or.inr hclass)
      exact absurd hnone (Option.isSome_iff_ne_none.mp hsome)

/-- What passes the load balancer and is rewritten is what the pipeline emits. -/
theorem PassesAs.emits (h : B.PassesAs m log handle) :
    B.Emits log handle (Pipeline.rewrite B.cfg B.cks (B.arrivals handle) m) := by
  obtain ⟨before, tick, after, a, rfl, ha, hpass⟩ := h
  refine ⟨before, tick, after, rfl, ?_⟩
  rw [Pipeline.handle, ha]
  simp only [hpass, if_true]
  rfl

end Log

/-! ### The contract of the two graphs with a load balancer -/

section Contract

variable (B : Balancing bits Handle) (arp : Prop)

/-- What holds of the packets at the nodes: as they are received, parsed, translated, rewritten, and
as they are due. -/
def nodeAssertions : List (Assertion Handle) :=
  [fun _ _ _ => True,
    fun log handle mbuf => mbuf = B.arrivals handle ∧ ∀ p ∈ log, p.1 ≠ handle,
    fun log handle mbuf => (mbuf = Ip4ParseNode.parsed B.cfg (B.arrivals handle) ∧
      ∀ tick, (Pipeline.arrival B.cfg (B.input (handle, tick))).isSome) ∧ ∀ p ∈ log, p.1 ≠ handle,
    fun log handle mbuf => ∃ m, B.PassesAs m log handle ∧
      mbuf = { B.arrivals handle with priv := m },
    fun log handle mbuf => ∃ m, B.PassesAs m log handle ∧
      mbuf = DnatNode.rewrite B.cfg B.cks { B.arrivals handle with priv := m },
    B.Due arp,
    B.Rejects arp,
    fun _ handle mbuf => mbuf = Ip4ParseNode.parsed B.cfg (B.arrivals handle) ∧
      (B.arrivals handle).frame.etherType = etherTypeArp]

theorem framed_nodeAssertions : ∀ A ∈ B.nodeAssertions arp, A.Framed := by
  have hfresh {log new : List (Handle × ℕ)} {handle : Handle} (hlog : ∀ p ∈ log, p.1 ≠ handle)
      (hnew : ∀ p ∈ new, p.1 ≠ handle) : ∀ p ∈ log ++ new, p.1 ≠ handle := fun p hp =>
    (List.mem_append.mp hp).elim (hlog p) (hnew p)
  simp only [nodeAssertions, List.forall_mem_cons]
  exact ⟨fun h _ => h, fun h hnew => ⟨h.1, hfresh h.2 hnew⟩, fun h hnew => ⟨h.1, hfresh h.2 hnew⟩,
    fun ⟨m, h, hmbuf⟩ _ => ⟨m, h.append _, hmbuf⟩, fun ⟨m, h, hmbuf⟩ _ => ⟨m, h.append _, hmbuf⟩,
    fun h _ => h.append _, fun h _ => h.append _, fun h _ => h, nofun⟩

/-- What is due of the graph of a single core, which answers ARP requests, and of that of a worker,
which does not. -/
def contract : Contract bits Handle where
  state := B.Logged
  packet
    | .node v => (B.nodeAssertions arp).getD v.toNat fun _ _ _ => True
    | .device => B.Due arp
    | .ring _ => B.Due arp
    | .freed => fun log handle mbuf => ¬ B.env.HasRoom ∧ B.Due arp log handle mbuf
    | .dropped => B.Rejects arp
  framed
    | .node v => Assertion.framed_getD (B.framed_nodeAssertions arp) v.toNat
    | .device => fun h _ => h.append _
    | .ring _ => fun h _ => h.append _
    | .freed => fun h _ => ⟨h.1, h.2.append _⟩
    | .dropped => fun h _ => h.append _

end Contract

/-! ### The nodes meet the contract -/

section Meets

variable [DecidableEq Handle] {B : Balancing bits Handle} {arp : Prop}
  {g : Graph (World bits Handle) Handle}

theorem meets_parse {t : NodeId} (hrow : g.routing.getD 1 [] = [2, 2, 6, t])
    (ht : t = 6 ∧ ¬ arp ∨ t = 7) :
    (Ip4ParseNode.node B.cfg).Meets (B.contract arp) g 1 := by
  refine (Ip4ParseNode.passes B.cfg).meets Ip4ParseNode.keepsLb
    fun log world input hnodup hinput out handle hpushed => ?_
  obtain ⟨hmem, hnext, hbuf⟩ := mem_moveFrame
    (fun mbuf => some (Ip4ParseNode.classify B.cfg mbuf).2.index) (Ip4ParseNode.parsed B.cfg)
    (fun _ _ => rfl) (fun _ _ => rfl) hnodup hpushed
  obtain ⟨hreceived, hfresh⟩ := hinput handle hmem
  have hclass := Option.some.inj hnext
  rw [hreceived] at hclass hbuf
  have htarget : g.target 1 out = [2, 2, 6, t].getD out kInvalid :=
    congrArg (fun row => row.getD out.val kInvalid) hrow
  change (B.contract arp).packet _ log handle ((moveFrame _ world input).1.mem handle)
  rw [hbuf, htarget]
  cases hnext : (Ip4ParseNode.classify B.cfg (B.arrivals handle)).2 with
  | fwd =>
    rw [← hclass, hnext]
    exact ⟨⟨rfl, fun tick => Pipeline.isSome_arrival (Or.inl hnext)⟩, hfresh⟩
  | rev =>
    rw [← hclass, hnext]
    exact ⟨⟨rfl, fun tick => Pipeline.isSome_arrival (Or.inr hnext)⟩, hfresh⟩
  | drop =>
    rw [← hclass, hnext]
    refine Or.inl ⟨fun tick => Pipeline.arrival_eq_none (Or.inl hnext), fun _ reply hanswers => ?_⟩
    rw [Ip4ParseNode.classify, if_pos hanswers.1] at hnext
    exact Ip4ParseNode.Next.noConfusion hnext
  | arp =>
    rw [← hclass, hnext]
    obtain ⟨rfl, harp⟩ | rfl := ht
    · exact Or.inl ⟨fun tick => Pipeline.arrival_eq_none (Or.inr hnext), fun h => absurd h harp⟩
    · refine ⟨rfl, ?_⟩
      by_contra harp
      have hdrop : (Ip4ParseNode.classify B.cfg (B.arrivals handle)).2 ≠ .arp := by
        rw [Ip4ParseNode.classify, if_neg harp, Ip4ParseNode.classifyIpv4]
        split_ifs <;> exact Ip4ParseNode.Next.noConfusion
      exact hdrop hnext

/-- `LbNode` handles one packet after the other as the pipeline does. -/
theorem moveEach_handleOne {pool : BackendPool} {world : World bits Handle} {bufs : List Handle}
    {log : List (Handle × ℕ)} (hpool : B.env.pool world.tick = some pool)
    (hcount : pool.activeCount ≠ 0) (hnodup : bufs.Nodup) (hlb : world.lb = B.stateAfter log)
    (hbufs : ∀ handle ∈ bufs,
      world.mem handle = Ip4ParseNode.parsed B.cfg (B.arrivals handle) ∧
        ∀ tick, (Pipeline.arrival B.cfg (B.input (handle, tick))).isSome) :
    (moveEach (LbNode.handleOne B.env B.hash pool) world bufs).1.lb =
        B.stateAfter (log ++ bufs.map fun handle => (handle, world.tick)) ∧
      (∀ handle ∈ (moveEach (LbNode.handleOne B.env B.hash pool) world bufs).2 0,
        ∃ m, B.PassesAs m (log ++ bufs.map fun handle => (handle, world.tick)) handle ∧
          (moveEach (LbNode.handleOne B.env B.hash pool) world bufs).1.mem handle =
            { B.arrivals handle with priv := m }) ∧
      ∀ handle ∈ (moveEach (LbNode.handleOne B.env B.hash pool) world bufs).2 1,
        B.Refuses (log ++ bufs.map fun handle => (handle, world.tick)) handle := by
  induction bufs generalizing world log with
  | nil =>
    rw [List.map_nil, List.append_nil]
    exact ⟨hlb, fun handle hmem => absurd hmem List.not_mem_nil,
      fun handle hmem => absurd hmem List.not_mem_nil⟩
  | cons first bufs ih =>
    obtain ⟨hfirst, hnodup⟩ := List.nodup_cons.mp hnodup
    obtain ⟨hmem, harrives⟩ := hbufs first List.mem_cons_self
    have harrival := Pipeline.arrival_of_isSome (harrives world.tick)
    have husable : (⟨B.env.pool world.tick, B.env.nowMs world.tick,
        (Ip4ParseNode.classify B.cfg (B.arrivals first)).1⟩ : Arrival).usable = some pool :=
      Arrival.usable_eq_some.mpr ⟨hpool, hcount⟩
    have harrive := LbNode.arrive_of_usable B.hash (B.stateAfter log) husable
    have hone : LbNode.handleOne B.env B.hash pool world first =
        let result := LbNode.arrive B.hash (B.stateAfter log) ⟨B.env.pool world.tick,
          B.env.nowMs world.tick, (Ip4ParseNode.classify B.cfg (B.arrivals first)).1⟩
        ({ world with lb := result.1 }.setMbuf first
            { B.arrivals first with priv := result.2.2 }, some (if result.2.1 then 0 else 1)) := by
      rw [LbNode.handleOne, harrive, hlb, hmem]
      rfl
    have hother (handle : Handle) (hne : handle ≠ first) :
        (LbNode.handleOne B.env B.hash pool world first).1.mem handle = world.mem handle :=
      world.mem_setMbuf hne _
    have hfresh (handle : Handle) (hmem : handle ∈ bufs) : handle ≠ first :=
      fun heq => hfirst (heq ▸ hmem)
    have hpool' : B.env.pool (LbNode.handleOne B.env B.hash pool world first).1.tick =
        some pool := hpool
    have hstate : (LbNode.handleOne B.env B.hash pool world first).1.lb =
        B.stateAfter (log ++ [(first, world.tick)]) := by
      rw [stateAfter_concat harrival, hone]
      rfl
    obtain ⟨hlb', hpassed, hrefused⟩ := ih hpool' hnodup hstate fun handle hhandle => by
      rw [hother handle (hfresh handle hhandle)]
      exact hbufs handle (List.mem_cons_of_mem first hhandle)
    have hlog : log ++ [(first, world.tick)] ++ bufs.map (fun handle => (handle, world.tick)) =
        log ++ (first :: bufs).map fun handle => (handle, world.tick) := by
      rw [List.append_assoc, List.map_cons, List.singleton_append]
    have htick : (LbNode.handleOne B.env B.hash pool world first).1.tick = world.tick := rfl
    rw [htick, hlog] at hlb' hpassed hrefused
    refine ⟨hlb', fun handle hhandle => ?_, fun handle hhandle => ?_⟩
    · rw [moveEach] at hhandle ⊢
      simp only at hhandle ⊢
      split_ifs at hhandle with hsent
      · rcases List.mem_cons.mp hhandle with rfl | hhandle
        · rw [mem_moveEach (fun world _ _ h => world.mem_setMbuf h _) _ hfirst, hone]
          refine ⟨_, ⟨log, world.tick, _, _, rfl, harrival, ?_⟩, World.mem_setMbuf_self _ _ _⟩
          rw [hone] at hsent
          refine Prod.ext ?_ rfl
          by_contra hdrop
          exact absurd ((if_neg hdrop).symm.trans (Option.some.inj hsent)) Fin.zero_ne_one.symm
        · exact hpassed handle hhandle
      · exact hpassed handle hhandle
    · rw [moveEach] at hhandle
      simp only at hhandle
      split_ifs at hhandle with hunsent
      · rcases List.mem_cons.mp hhandle with rfl | hhandle
        · refine ⟨log, world.tick, _, rfl, Pipeline.handle_eq_none_of_arrive harrival ?_⟩
          rw [hone] at hunsent
          by_contra hsent
          exact absurd ((if_pos (Bool.eq_true_of_not_eq_false hsent)).symm.trans
            (Option.some.inj hunsent)) Fin.zero_ne_one
        · exact hrefused handle hhandle
      · exact hrefused handle hhandle

omit [DecidableEq Handle] in
/-- Without a backend the load balancer stays as it is. -/
theorem stateAfter_of_not_usable {log new : List (Handle × ℕ)} (h : ∀ p ∈ new, ∃ a,
    Pipeline.arrival B.cfg (B.input p) = some a ∧ a.usable = none) :
    B.stateAfter (log ++ new) = B.stateAfter log := by
  induction new generalizing log with
  | nil => rw [List.append_nil]
  | cons p new ih =>
    obtain ⟨a, ha, husable⟩ := h p List.mem_cons_self
    rw [← List.singleton_append, ← List.append_assoc,
      ih fun q hq => h q (List.mem_cons_of_mem p hq), stateAfter_concat ha,
      LbNode.arrive_of_not_usable B.hash _ husable]

/-- A call of `LbNode`. -/
theorem process_lb {world : World bits Handle} {input : Graph.Frame Handle}
    {log : List (Handle × ℕ)} (hnodup : input.bufs.Nodup) (hlb : world.lb = B.stateAfter log)
    (hbufs : ∀ handle ∈ input.bufs,
      world.mem handle = Ip4ParseNode.parsed B.cfg (B.arrivals handle) ∧
        ∀ tick, (Pipeline.arrival B.cfg (B.input (handle, tick))).isSome) :
    ((LbNode.node B.env B.hash).process world input).1.lb =
        B.stateAfter (log ++ input.bufs.map fun handle => (handle, world.tick)) ∧
      (∀ handle ∈ (((LbNode.node B.env B.hash).process world input).2 (0 : Fin 2)).bufs,
        ∃ m, B.PassesAs m (log ++ input.bufs.map fun handle => (handle, world.tick)) handle ∧
          ((LbNode.node B.env B.hash).process world input).1.mem handle =
            { B.arrivals handle with priv := m }) ∧
      ∀ handle ∈ (((LbNode.node B.env B.hash).process world input).2 (1 : Fin 2)).bufs,
        B.Refuses (log ++ input.bufs.map fun handle => (handle, world.tick)) handle := by
  cases hpool : (B.env.pool world.tick).filter fun pool => pool.activeCount ≠ 0 with
  | none =>
    have hprocess : ((LbNode.node B.env B.hash).process world input).1.lb = world.lb ∧
        (((LbNode.node B.env B.hash).process world input).2 (0 : Fin 2)).bufs = [] := by
      simp only [LbNode.node, hpool, Option.elim_none, moveFrame, moveEach_const]
      exact ⟨trivial, if_neg (by decide)⟩
    have hnone {handle : Handle} (hmem : handle ∈ input.bufs) : ∃ a,
        Pipeline.arrival B.cfg (B.input (handle, world.tick)) = some a ∧ a.usable = none :=
      ⟨_, Pipeline.arrival_of_isSome ((hbufs handle hmem).2 world.tick), hpool⟩
    refine ⟨?_, ?_, fun handle hpushed => ?_⟩
    · rw [hprocess.1, stateAfter_of_not_usable, hlb]
      intro p hp
      obtain ⟨handle, hmem, rfl⟩ := List.mem_map.mp hp
      exact hnone hmem
    · rw [hprocess.2]
      exact fun handle hmem => absurd hmem List.not_mem_nil
    · have hmem := ((LbNode.tidy B.env B.hash).moves world input (1 : Fin 2)).subset hpushed
      obtain ⟨a, ha, husable⟩ := hnone hmem
      obtain ⟨before, after, hsplit⟩ := List.append_of_mem hmem
      refine ⟨log ++ before.map fun handle => (handle, world.tick), world.tick,
        after.map fun handle => (handle, world.tick), ?_,
        Pipeline.handle_eq_none_of_arrive ha ?_⟩
      · rw [hsplit, List.map_append, List.map_cons, List.append_assoc]
      · rw [LbNode.arrive_of_not_usable B.hash _ husable]
  | some pool =>
    have husable := Option.filter_eq_some_iff.mp hpool
    simp only [LbNode.node, hpool, Option.elim_some]
    exact moveEach_handleOne husable.1 (of_decide_eq_true husable.2) hnodup hlb hbufs

theorem meets_lb (hrow : g.routing.getD 2 [] = [3, 6]) :
    (LbNode.node B.env B.hash).Meets (B.contract arp) g 2 := by
  intro log world input hnodup hstate hinput
  have hbufs : ∀ handle ∈ input.bufs,
      (world.mem handle = Ip4ParseNode.parsed B.cfg (B.arrivals handle) ∧
        ∀ tick, (Pipeline.arrival B.cfg (B.input (handle, tick))).isSome) ∧
      ∀ p ∈ log, p.1 ≠ handle := hinput
  have htarget (out : Fin 2) : g.target 2 out = [3, 6].getD out kInvalid :=
    congrArg (fun row => row.getD out.val kInvalid) hrow
  obtain ⟨hlb, hpassed, hrefused⟩ :=
    process_lb hnodup hstate.lb_eq fun handle hmem => (hbufs handle hmem).1
  refine ⟨input.bufs.map fun handle => (handle, world.tick), fun p hp => ?_, ⟨hlb, ?_, ?_⟩,
    Fin.forall_fin_two.mpr ⟨fun handle hmem => ?_, fun handle hmem => ?_⟩,
    fun handle place hleft => Or.inl ?_⟩
  · obtain ⟨handle, hmem, rfl⟩ := List.mem_map.mp hp
    exact hmem
  · rw [List.map_append, List.map_map]
    refine hstate.nodup.append ?_ fun handle hlog hnew => ?_
    · exact (List.map_id input.bufs).symm ▸ hnodup
    · obtain ⟨p, hp, rfl⟩ := List.mem_map.mp hlog
      obtain ⟨handle, hmem, heq⟩ := List.mem_map.mp hnew
      exact (hbufs handle hmem).2 p hp heq.symm
  · intro p hp
    rcases List.mem_append.mp hp with hp | hp
    · exact hstate.arrives p hp
    · obtain ⟨handle, hmem, rfl⟩ := List.mem_map.mp hp
      exact (hbufs handle hmem).1.2 world.tick
  · rw [htarget]
    exact hpassed handle hmem
  · rw [htarget]
    exact Or.inr (hrefused handle hmem)
  · exact (LbNode.passes B.env B.hash).ledger_eq world input ▸ hleft

theorem meets_dnat (hrow : g.routing.getD 3 [] = [4]) :
    (DnatNode.node B.cfg B.cks).Meets (B.contract arp) g 3 := by
  refine (DnatNode.passes B.cfg B.cks).meets DnatNode.keepsLb
    fun log world input hnodup hinput out handle hpushed => ?_
  obtain ⟨hmem, -, hbuf⟩ := mem_moveFrame (fun _ => some 0) (DnatNode.rewrite B.cfg B.cks)
    (fun _ _ => rfl) (fun _ _ => rfl) hnodup hpushed
  obtain ⟨m, hpass, hreceived⟩ := hinput handle hmem
  have htarget : g.target 3 out = 4 := by
    obtain rfl : out = (0 : Fin 1) := Subsingleton.elim (α := Fin 1) _ _
    exact congrArg (fun row => row.getD 0 kInvalid) hrow
  change (B.contract arp).packet _ log handle ((moveFrame _ world input).1.mem handle)
  rw [hbuf, hreceived, htarget]
  exact ⟨m, hpass, rfl⟩

theorem meets_ether (hrow : g.routing.getD 4 [] = [5]) :
    (EtherRewriteNode.node B.cfg).Meets (B.contract arp) g 4 := by
  refine (EtherRewriteNode.passes B.cfg).meets EtherRewriteNode.keepsLb
    fun log world input hnodup hinput out handle hpushed => ?_
  obtain ⟨hmem, -, hbuf⟩ := mem_moveFrame (fun _ => some 0) (EtherRewriteNode.rewrite B.cfg)
    (fun _ _ => rfl) (fun _ _ => rfl) hnodup hpushed
  obtain ⟨m, hpass, hreceived⟩ := hinput handle hmem
  have htarget : g.target 4 out = 5 := by
    obtain rfl : out = (0 : Fin 1) := Subsingleton.elim (α := Fin 1) _ _
    exact congrArg (fun row => row.getD 0 kInvalid) hrow
  change (B.contract arp).packet _ log handle ((moveFrame _ world input).1.mem handle)
  rw [hbuf, hreceived, htarget]
  exact Or.inl hpass.emits

theorem meets_arp (harp : arp) (hrow : g.routing.getD 7 [] = [5, 6]) :
    (ArpNode.node B.cfg).Meets (B.contract arp) g 7 := by
  refine (ArpNode.passes B.cfg).meets ArpNode.keepsLb
    fun log world input hnodup hinput => Fin.forall_fin_two.mpr
      ⟨fun handle hpushed => ?_, fun handle hpushed => ?_⟩
  · obtain ⟨hmem, reply, hreply, hbuf⟩ := ArpNode.mem_answered hnodup hpushed
    obtain ⟨hreceived, htype⟩ := hinput handle hmem
    rw [hreceived] at hreply
    rw [show g.target 7 (0 : Fin 2) = 5 from congrArg (fun row => row.getD 0 kInvalid) hrow, hbuf]
    exact Or.inr ⟨harp, htype, hreply⟩
  · obtain ⟨hmem, hnone⟩ := ArpNode.mem_unanswered hnodup hpushed
    obtain ⟨hreceived, htype⟩ := hinput handle hmem
    rw [hreceived] at hnone
    have hclass : (Ip4ParseNode.classify B.cfg (B.arrivals handle)).2 = .arp := by
      rw [Ip4ParseNode.classify, if_pos htype]
    rw [show g.target 7 (1 : Fin 2) = 6 from congrArg (fun row => row.getD 1 kInvalid) hrow]
    refine Or.inl ⟨fun tick => Pipeline.arrival_eq_none (Or.inr hclass), fun _ reply hanswers => ?_⟩
    exact Option.some_ne_none reply (hanswers.2.symm.trans hnone)

end Meets

/-! ### Runs of the graphs with a load balancer -/

section Runs

variable [DecidableEq Handle] {B : Balancing bits Handle} {log : List (Handle × ℕ)}
  {g : Graph (World bits Handle) Handle} {root : NodeId} {d : Dispatcher Handle} {fuel : ℕ}
  {world : World bits Handle} {r : Run (World bits Handle) Handle}

/-- What a single core sends in a run is due to be sent; where there is room, nothing is to be sent
for what it frees. -/
theorem monolithic_due
    (hbuild : buildMonolithicGraph bits B.env B.hash B.cfg B.cks = .ok (g, root))
    (hd : Reachable g root d)
    (hrun : runOnce g root fuel .cleared d { world with ledger := {} } = .ok r)
    (hnodup : (B.env.received world.tick).bufs.Nodup) (hstate : B.Logged log world.lb)
    (hreceived : ∀ handle ∈ (B.env.received world.tick).bufs,
      B.env.memory world.tick handle = B.arrivals handle ∧ ∀ p ∈ log, p.1 ≠ handle) :
    ∃ new, (∀ p ∈ new, p.1 ∈ (B.env.received world.tick).bufs) ∧
      B.Logged (log ++ new) r.world.lb ∧
      (∀ handle ∈ r.world.ledger.sent, B.Due True (log ++ new) handle (r.world.mem handle)) ∧
      (B.env.HasRoom → ∀ handle ∈ r.world.ledger.freed ++ r.world.ledger.dropFreed,
        B.Rejects True (log ++ new) handle (r.world.mem handle)) := by
  obtain ⟨g', hg', hrouting, hwired⟩ := wired_monolithic bits B.env B.hash B.cfg B.cks
  obtain ⟨rfl, rfl⟩ := Prod.mk.inj (Except.ok.inj (hg'.symm.trans hbuild))
  have hrow (v : ℕ) : g'.routing.getD v [] =
      [[1], [2, 2, 6, 7], [3, 6], [4], [5], [], [], [5, 6]].getD v [] := by rw [hrouting]
  have hmeets : ∀ (v : NodeId) node, g'.nodes[v.toNat]? = some node → v ≠ 0 →
      node.Meets (B.contract True) g' v := by
    refine forall_node hwired.nodes_eq ?_
    exact ⟨fun h => absurd rfl h, fun _ => meets_parse (hrow 1) (Or.inr rfl),
      fun _ => meets_lb (hrow 2), fun _ => meets_dnat (hrow 3), fun _ => meets_ether (hrow 4),
      fun _ => TxNode.meets (fun _ _ _ => id) fun hroom _ _ _ hdue => ⟨hroom, hdue⟩,
      fun _ => DropNode.meets fun _ _ _ => id, fun _ => meets_arp trivial (hrow 7)⟩
  obtain ⟨new, hnew, hstate, hleft⟩ := hwired.keeps (RxNode.source B.env) hrouting hd hrun
    (monolithic_tidy bits B.env B.hash B.cfg B.cks) hmeets hnodup hstate hreceived
  exact ⟨new, hnew, hstate, fun handle => hleft handle .device,
    fun hroom handle hmem => (List.mem_append.mp hmem).elim
      (fun hfreed => absurd hroom (hleft handle .freed hfreed).1) (hleft handle .dropped)⟩

/-- What a worker enqueues in a run is what the pipeline emits; where there is room, it emits
nothing for what is freed. The worker writes no other buffers. -/
theorem worker_due (hbuild : buildWorkerGraph bits B.env B.hash B.cfg B.cks = .ok (g, root))
    (hd : Reachable g root d)
    (hrun : runOnce g root fuel .cleared d { world with ledger := {} } = .ok r)
    (hnodup : (B.env.received world.tick).bufs.Nodup) (hstate : B.Logged log world.lb)
    (hreceived : ∀ handle ∈ (B.env.received world.tick).bufs,
      B.env.memory world.tick handle = B.arrivals handle ∧ ∀ p ∈ log, p.1 ≠ handle) :
    ∃ new, (∀ p ∈ new, p.1 ∈ (B.env.received world.tick).bufs) ∧
      B.Logged (log ++ new) r.world.lb ∧
      (∀ p ∈ r.world.ledger.enqueued, B.Emits (log ++ new) p.2 (r.world.mem p.2)) ∧
      (B.env.HasRoom → ∀ handle ∈ r.world.ledger.freed ++ r.world.ledger.dropFreed,
        B.Rejects False (log ++ new) handle (r.world.mem handle)) ∧
      ∀ handle ∉ (B.env.received world.tick).bufs,
        r.world.mem handle = B.env.memory world.tick handle := by
  obtain ⟨g', hg', hrouting, hwired⟩ := wired_worker bits B.env B.hash B.cfg B.cks
  obtain ⟨rfl, rfl⟩ := Prod.mk.inj (Except.ok.inj (hg'.symm.trans hbuild))
  have htidy := worker_tidy bits B.env B.hash B.cfg B.cks
  have hrow (v : ℕ) : g'.routing.getD v [] =
      [[1], [2, 2, 6, 6], [3, 6], [4], [5], [], []].getD v [] := by rw [hrouting]
  have hmeets : ∀ (v : NodeId) node, g'.nodes[v.toNat]? = some node → v ≠ 0 →
      node.Meets (B.contract False) g' v := by
    refine forall_node hwired.nodes_eq ?_
    exact ⟨fun h => absurd rfl h, fun _ => meets_parse (hrow 1) (Or.inl ⟨rfl, id⟩),
      fun _ => meets_lb (hrow 2), fun _ => meets_dnat (hrow 3), fun _ => meets_ether (hrow 4),
      fun _ => RingTxNode.meets (fun _ _ _ => id) fun hroom _ _ _ hdue => ⟨hroom, hdue⟩,
      fun _ => DropNode.meets fun _ _ _ => id⟩
  obtain ⟨new, hnew, hstate, hleft⟩ := hwired.keeps (RingRxNode.source B.env) hrouting hd hrun
    htidy hmeets hnodup hstate hreceived
  refine ⟨new, hnew, hstate, fun p hp => ?_,
    fun hroom handle hmem => (List.mem_append.mp hmem).elim
      (fun hfreed => absurd hroom (hleft handle .freed hfreed).1) (hleft handle .dropped),
    hwired.mem_eq (RingRxNode.source B.env) hrouting htidy hd hrun⟩
  obtain hemit | ⟨harp, -⟩ := hleft p.2 (.ring p.1) hp
  · exact hemit
  · exact harp.elim

end Runs

end Balancing

/-! ### The input side of the IO core -/

section Input

variable (bits) (env : Env Handle) (hash : FlowKey → UInt32) (cfg : Config) (nWorkers : ℕ)
  (arrivals : Handle → Mbuf)

/-- An ARP frame that is not answered. -/
def Unanswered (handle : Handle) : Prop :=
  (arrivals handle).frame.etherType = etherTypeArp ∧
    ∀ reply, ¬ AnswersArp cfg (arrivals handle).frame reply

/-- What holds of the packets at the nodes: as they are received, the ARP frames among them, and the
replies to these. -/
def inputAssertions : List (Assertion Handle) :=
  [fun _ _ _ => True,
    fun _ handle mbuf => mbuf = arrivals handle,
    fun _ handle mbuf => mbuf = arrivals handle ∧
      (arrivals handle).frame.etherType = etherTypeArp,
    fun _ handle mbuf => AnswersArp cfg (arrivals handle).frame mbuf.frame,
    fun _ handle _ => Unanswered cfg arrivals handle]

theorem framed_inputAssertions : ∀ A ∈ inputAssertions cfg arrivals, A.Framed := by
  simp only [inputAssertions, List.forall_mem_cons]
  exact ⟨fun h _ => h, fun h _ => h, fun h _ => h, fun h _ => h, fun h _ => h, nofun⟩

/-- What is due of the input side of the IO core: a frame for a worker is as it was received, and
steered to this worker; the others are answers. Where there is room, only frames that are not
steered and ARP frames that are not answered are freed. -/
def inputContract : Contract bits Handle where
  state _ _ := True
  packet
    | .node v => (inputAssertions cfg arrivals).getD v.toNat fun _ _ _ => True
    | .device => fun _ _ _ => True
    | .ring (.worker w) => fun _ handle mbuf => mbuf = arrivals handle ∧
        classifyForSteer hash cfg nWorkers (arrivals handle).frame = .steer w
    | .ring .egress => fun _ handle mbuf => AnswersArp cfg (arrivals handle).frame mbuf.frame
    | .freed => fun _ handle _ => env.HasRoom →
        classifyForSteer hash cfg nWorkers (arrivals handle).frame = .drop
    | .dropped => fun _ handle _ => Unanswered cfg arrivals handle
  framed
    | .node v => Assertion.framed_getD (framed_inputAssertions cfg arrivals) v.toNat
    | .device => fun h _ => h
    | .ring (.worker _) => fun h _ => h
    | .ring .egress => fun h _ => h
    | .freed => fun h _ => h
    | .dropped => fun h _ => h

end Input

section MeetsInput

variable [DecidableEq Handle] {env : Env Handle} {hash : FlowKey → UInt32} {cfg : Config}
  {nWorkers : ℕ} {arrivals : Handle → Mbuf} {g : Graph (World bits Handle) Handle}

/-- An ARP frame is one by its Ethernet type. -/
theorem etherType_of_classifyForSteer {f : Frame}
    (h : classifyForSteer hash cfg nWorkers f = .arp) : f.etherType = etherTypeArp := by
  by_contra hne
  rw [classifyForSteer, if_neg hne] at h
  split_ifs at h

omit [DecidableEq Handle] in
/-- Where there is room, `SteerNode` frees only frames that it does not steer. -/
theorem SteerNode.mem_freed_steer {world : World bits Handle} {first handle : Handle}
    (h : handle ∈ (SteerNode.steer env hash cfg nWorkers world first).1.ledger.freed) :
    handle ∈ world.ledger.freed ∨ handle = first ∧
      (env.HasRoom → classifyForSteer hash cfg nWorkers (world.mem first).frame = .drop) := by
  unfold SteerNode.steer at h
  split at h
  · exact Or.inl h
  · split_ifs at h with hfull
    · refine (List.mem_append.mp h).imp_right fun hfirst => ⟨List.mem_singleton.mp hfirst, ?_⟩
      intro hroom
      exact absurd (hfull ▸ hroom world.tick) (by decide)
    · exact Or.inl h
  · next hclass =>
    exact (List.mem_append.mp h).imp_right fun hfirst =>
      ⟨List.mem_singleton.mp hfirst, fun _ => hclass⟩

omit [DecidableEq Handle] in
theorem SteerNode.mem_freed {world : World bits Handle} {bufs : List Handle} {handle : Handle}
    (h : handle ∈
      (moveEach (SteerNode.steer env hash cfg nWorkers) world bufs).1.ledger.freed) :
    handle ∈ world.ledger.freed ∨ handle ∈ bufs ∧
      (env.HasRoom → classifyForSteer hash cfg nWorkers (world.mem handle).frame = .drop) := by
  induction bufs generalizing world with
  | nil => exact Or.inl h
  | cons first bufs ih =>
    have hrest := @ih (SteerNode.steer env hash cfg nWorkers world first).1 h
    rw [(SteerNode.steer_cases env hash cfg nWorkers world first).1] at hrest
    obtain hfreed | ⟨hmem, hdrop⟩ := hrest
    · obtain hfreed | ⟨rfl, hdrop⟩ := mem_freed_steer hfreed
      · exact Or.inl hfreed
      · exact Or.inr ⟨List.mem_cons_self, hdrop⟩
    · exact Or.inr ⟨List.mem_cons_of_mem first hmem, hdrop⟩

omit [DecidableEq Handle] in
theorem SteerNode.dropFreed_eq (world : World bits Handle) (input : Graph.Frame Handle) :
    ((SteerNode.node env hash cfg nWorkers).process world input).1.ledger.dropFreed =
      world.ledger.dropFreed := by
  refine moveFrame_preserves (I := fun w : World bits Handle =>
    w.ledger.dropFreed = world.ledger.dropFreed) (fun w handle hw => ?_) rfl input
  unfold SteerNode.steer
  split
  · exact hw
  · split_ifs <;> exact hw
  · exact hw

omit [DecidableEq Handle] in
theorem meets_steer (hrow : g.routing.getD 1 [] = [2]) :
    (SteerNode.node env hash cfg nWorkers).Meets
      (inputContract bits env hash cfg nWorkers arrivals) g 1 := by
  intro log world input hnodup hstate hinput
  have hreceived : ∀ handle ∈ input.bufs, world.mem handle = arrivals handle := hinput
  obtain ⟨hmem, harp, new, henqueued, hsub, hring⟩ :=
    SteerNode.moveEach_steer env hash cfg nWorkers world input.bufs
  have hmoved := moveEach_sublist (SteerNode.steer env hash cfg nWorkers) world input.bufs
  refine ⟨[], nofun, trivial, fun out handle hpushed => ?_, fun handle place hleft => ?_⟩
  · obtain rfl : out = (0 : Fin 1) := Subsingleton.elim (α := Fin 1) _ _
    have htarget : g.target 1 0 = 2 := congrArg (fun row => row.getD 0 kInvalid) hrow
    have hin : world.mem handle = arrivals handle := hreceived handle ((hmoved 0).subset hpushed)
    have hclass := harp handle hpushed
    rw [hin] at hclass
    change (inputContract bits env hash cfg nWorkers arrivals).packet (.node (g.target 1 0)) _
      handle _
    rw [htarget]
    exact ⟨(congrFun hmem handle).trans hin, etherType_of_classifyForSteer hclass⟩
  · cases place with
    | node u => exact absurd hleft id
    | device => exact Or.inr trivial
    | ring ring =>
      have hleft : (ring, handle) ∈ world.ledger.enqueued ++ new := henqueued ▸ hleft
      refine (List.mem_append.mp hleft).imp_right fun hnew => ?_
      obtain ⟨w, hsteered, hworker⟩ := hring _ hnew
      have hin : world.mem handle = arrivals handle :=
        hreceived handle (hsub.subset (List.mem_map.mpr ⟨_, hnew, rfl⟩))
      obtain rfl : ring = .worker w := hworker
      rw [hin] at hsteered
      exact ⟨(congrFun hmem handle).trans hin, hsteered⟩
    | freed =>
      refine (SteerNode.mem_freed hleft).imp_right fun ⟨hin, hdrop⟩ => ?_
      rw [hreceived handle hin] at hdrop
      exact hdrop
    | dropped =>
      have hleft : handle ∈
          ((SteerNode.node env hash cfg nWorkers).process world input).1.ledger.dropFreed := hleft
      rw [SteerNode.dropFreed_eq] at hleft
      exact Or.inl hleft

theorem meets_inputArp (hrow : g.routing.getD 2 [] = [3, 4]) :
    (ArpNode.node cfg).Meets (inputContract bits env hash cfg nWorkers arrivals) g 2 := by
  refine (ArpNode.passes cfg).meets ArpNode.keepsLb
    fun log world input hnodup hinput => Fin.forall_fin_two.mpr
      ⟨fun handle hpushed => ?_, fun handle hpushed => ?_⟩
  · obtain ⟨hmem, reply, hreply, hbuf⟩ := ArpNode.mem_answered hnodup hpushed
    obtain ⟨hreceived, htype⟩ := hinput handle hmem
    rw [hreceived] at hreply
    rw [show g.target 2 (0 : Fin 2) = 3 from congrArg (fun row => row.getD 0 kInvalid) hrow, hbuf]
    exact ⟨htype, hreply⟩
  · obtain ⟨hmem, hnone⟩ := ArpNode.mem_unanswered hnodup hpushed
    obtain ⟨hreceived, htype⟩ := hinput handle hmem
    rw [hreceived] at hnone
    rw [show g.target 2 (1 : Fin 2) = 4 from congrArg (fun row => row.getD 1 kInvalid) hrow]
    exact ⟨htype, fun reply hanswers =>
      Option.some_ne_none reply (hanswers.2.symm.trans hnone)⟩

variable {root : NodeId} {d : Dispatcher Handle} {fuel : ℕ} {world : World bits Handle}
  {r : Run (World bits Handle) Handle}

/-- What the input side of the IO core enqueues in a run: for a worker the frames as they were
received, which are steered to it, and otherwise replies. Where there is room, only frames that are
not steered and ARP frames that are not answered are freed. It writes no other buffers. -/
theorem rx_due (hbuild : buildRxGraph bits env hash cfg nWorkers = .ok (g, root))
    (hd : Reachable g root d)
    (hrun : runOnce g root fuel .cleared d { world with ledger := {} } = .ok r)
    (hnodup : (env.received world.tick).bufs.Nodup)
    (hreceived : ∀ handle ∈ (env.received world.tick).bufs,
      env.memory world.tick handle = arrivals handle) :
    (∀ handle w, (Ring.worker w, handle) ∈ r.world.ledger.enqueued →
      r.world.mem handle = arrivals handle ∧
        classifyForSteer hash cfg nWorkers (arrivals handle).frame = .steer w) ∧
      (∀ handle, (Ring.egress, handle) ∈ r.world.ledger.enqueued →
        AnswersArp cfg (arrivals handle).frame (r.world.mem handle).frame) ∧
      (env.HasRoom → ∀ handle ∈ r.world.ledger.freed ++ r.world.ledger.dropFreed,
        classifyForSteer hash cfg nWorkers (arrivals handle).frame = .drop ∨
          Unanswered cfg arrivals handle) ∧
      ∀ handle ∉ (env.received world.tick).bufs,
        r.world.mem handle = env.memory world.tick handle := by
  obtain ⟨g', hg', hrouting, hwired⟩ := wired_rx bits env hash cfg nWorkers
  obtain ⟨rfl, rfl⟩ := Prod.mk.inj (Except.ok.inj (hg'.symm.trans hbuild))
  have htidy := rx_tidy bits env hash cfg nWorkers
  have hrow (v : ℕ) : g'.routing.getD v [] = [[1], [2], [3, 4], [], []].getD v [] := by
    rw [hrouting]
  have hmeets : ∀ (v : NodeId) node, g'.nodes[v.toNat]? = some node → v ≠ 0 →
      node.Meets (inputContract bits env hash cfg nWorkers arrivals) g' v := by
    refine forall_node hwired.nodes_eq ?_
    exact ⟨fun h => absurd rfl h, fun _ => meets_steer (hrow 1), fun _ => meets_inputArp (hrow 2),
      fun _ => RingTxNode.meets (fun _ _ _ => id) fun hroom _ _ _ _ h => absurd h hroom,
      fun _ => DropNode.meets fun _ _ _ => id⟩
  have hstate : (inputContract bits env hash cfg nWorkers arrivals).state [] world.lb := trivial
  obtain ⟨new, -, -, hleft⟩ := hwired.keeps (RxNode.source env) hrouting hd hrun htidy hmeets
    hnodup hstate hreceived
  exact ⟨fun handle w => hleft handle (.ring (.worker w)),
    fun handle => hleft handle (.ring .egress),
    fun hroom handle hmem => (List.mem_append.mp hmem).imp
      (fun hfreed => hleft handle .freed hfreed hroom) (hleft handle .dropped),
    hwired.mem_eq (RxNode.source env) hrouting htidy hd hrun⟩

end MeetsInput

end Cerebellum
