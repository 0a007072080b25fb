import Cerebellum.Nodes.Drain

/-!
# Flows keep their backend

The backend of a flow is chosen when the flow is created, among the slots that the pool of the burst
enables. Whatever pools are published afterwards, the entry keeps its translation until it is closed
or reaped, or its slot is given to another flow, which happens only after the timeout; and each
forward packet of the flow that is sent on carries it, the packet that closes the flow included.

## Main definitions

* `Cerebellum.LbNode.Creates`: the packet creates a flow in a slot.
* `Cerebellum.LbNode.Lasts`: the flow in a slot is neither closed nor reaped nor evicted.

## Main results

* `Cerebellum.LbNode.flows_keep_their_backend`.
-/

namespace Cerebellum

open NatTable

namespace LbNode

variable {bits : ℕ} {hash : FlowKey → UInt32}

/-- The forward packet finds no flow for its key, and `CreateFlow` puts `flow` into slot `s` for
it. -/
structure Creates (hash : FlowKey → UInt32) (n : LbNode bits) (a : Arrival) (pool : BackendPool)
    (s : Slot bits) (flow : NatFlow) : Prop where
  usable : a.usable = some pool
  forward : a.packet.dir = .forward
  mayOpen : MayOpen a.packet
  missed : (n.nat.lookupForward hash a.packet.flowKey a.nowMs).2 = none
  created : ∃ n', createFlow hash { n with
      nat := (n.nat.lookupForward hash a.packet.flowKey a.nowMs).1 } a.packet pool a.nowMs =
    (n', some s) ∧ n'.nat.slots s = flow

/-- In every state from `n` to the end of the run slot `s` holds an entry that is not reaped, and no
packet of the run puts another flow into the slot. -/
def Lasts (hash : FlowKey → UInt32) (s : Slot bits) : LbNode bits → List Arrival → Prop
  | n, [] => (n.nat.slots s).Unreaped
  | n, b :: bs => (n.nat.slots s).Unreaped ∧ (¬ ∃ pool flow, Creates hash n b pool s flow) ∧
      Lasts hash s (arrive hash n b).1 bs

/-- What `CreateFlow` returns, and what happens to the packet then. -/
theorem Creates.createFlow_eq {n : LbNode bits} {a : Arrival} {pool : BackendPool} {s : Slot bits}
    {flow : NatFlow} (h : Creates hash n a pool s flow) :
    ∃ t, Reaps a.nowMs n.nat t ∧ Opens hash { n with nat := t } pool a.nowMs a.packet s ∧
      let opened := openAt hash { n with nat := t }
        (newFlow hash a.packet pool (n.nextPort hash pool a.packet)) s a.nowMs
      createFlow hash { n with nat := (n.nat.lookupForward hash a.packet.flowKey a.nowMs).1 }
        a.packet pool a.nowMs = (opened, some s) ∧
      arrive hash n a = forwardVia opened s a.packet := by
  obtain ⟨n', hcreate, -⟩ := h.created
  obtain ⟨t, hreaps, ⟨c, hfound, -⟩ | ⟨hfound, habs⟩⟩ :=
    lookupForward_spec hash n.nat a.packet.flowKey a.nowMs
  · exact absurd (h.missed.symm.trans (congrArg Prod.snd hfound)) (Option.some_ne_none c).symm
  rw [hfound] at hcreate ⊢
  rcases createFlow_spec hash { n with nat := t } a.packet pool a.nowMs habs with
    ⟨c, hopens, heq⟩ | ⟨-, heq⟩
  · obtain rfl : c = s := Option.some.inj (congrArg Prod.snd (heq.symm.trans hcreate))
    refine ⟨t, hreaps, hopens, heq, ?_⟩
    simp only [arrive_of_usable hash n h.usable, handlePacket, h.forward, hfound,
      mayOpen_iff.mp h.mayOpen, heq]
    rfl
  · exact absurd (congrArg Prod.snd (heq.symm.trans hcreate)) (Option.some_ne_none s).symm

/-- What is in the slot of a flow that was just created. -/
theorem Creates.eq_freshFlow {n : LbNode bits} {a : Arrival} {pool : BackendPool} {s : Slot bits}
    {flow : NatFlow} (h : Creates hash n a pool s flow) :
    ∃ t, Reaps a.nowMs n.nat t ∧ Opens hash { n with nat := t } pool a.nowMs a.packet s ∧
      flow = freshFlow hash n pool a.nowMs a.packet ∧
      arrive hash n a = forwardVia (openAt hash { n with nat := t }
        (newFlow hash a.packet pool (n.nextPort hash pool a.packet)) s a.nowMs) s a.packet := by
  obtain ⟨t, hreaps, hopens, heq, harrive⟩ := h.createFlow_eq
  obtain ⟨n', hcreate, hslot⟩ := h.created
  obtain ⟨rfl, -⟩ := Prod.mk.inj (heq.symm.trans hcreate)
  refine ⟨t, hreaps, hopens, ?_, harrive⟩
  rw [← hslot, openAt_slots, Function.update_self]
  rfl

/-- A packet that opens a flow creates one. -/
theorem OpensIn.creates {n : LbNode bits} {a : Arrival} {pool : BackendPool} {s : Slot bits}
    (h : OpensIn hash n pool a.nowMs a.packet s) (hmap : ForwardMap hash n.nat)
    (husable : a.usable = some pool) : ∃ flow, Creates hash n a pool s flow := by
  obtain ⟨t, -, hlookup, hcreate⟩ := h.createFlow_eq hmap
  rw [← show (n.nat.lookupForward hash a.packet.flowKey a.nowMs).1 = t by rw [hlookup]] at hcreate
  exact ⟨_, husable, h.needsFlow.forward, h.needsFlow.mayOpen, congrArg Prod.snd hlookup, _,
    hcreate, rfl⟩

/-- A packet keeps the flow in a slot, or creates a flow there. -/
theorem arrive_kept_or_creates {n : LbNode bits} (hmap : ForwardMap hash n.nat) (b : Arrival)
    (s : Slot bits) :
    Kept (n.nat.slots s) ((arrive hash n b).1.nat.slots s) ∨
      ∃ pool flow, Creates hash n b pool s flow := by
  cases husable : b.usable with
  | none =>
    rw [arrive_of_not_usable hash n husable]
    exact Or.inl (.refl _)
  | some pool =>
    rw [arrive_of_usable hash n husable]
    rcases handlePacket_quiet_or_opens n b.packet with
      hquiet | ⟨t, c, hdir, hreaps, hmay, hopens, hquiet⟩
    · exact Or.inl (hquiet.kept s)
    rcases eq_or_ne s c with rfl | hne
    · exact Or.inr ⟨pool, (hopens.opensIn hmap hreaps hdir hmay).creates hmap husable⟩
    · refine Or.inl (((quietSteps_of_reaps hreaps).kept s).trans ?_)
      have hkept := hquiet.kept s
      rwa [openAt_slots, Function.update_of_ne hne] at hkept

/-- A slot is given to a new flow only if its entry is not live. -/
theorem Creates.not_live {n : LbNode bits} {a : Arrival} {pool : BackendPool} {s : Slot bits}
    {flow : NatFlow} (h : Creates hash n a pool s flow) :
    ¬ (n.nat.slots s).Live n.nat.timeoutMs a.nowMs := by
  obtain ⟨t, hreaps, hopens, -⟩ := h.eq_freshFlow
  exact (hreaps.live_iff s).not.mp hopens.dead

/-- Entries with the same translation send a packet to the same backend. -/
theorem SameFlow.toBackend {f g : NatFlow} (h : SameFlow f g) (m : PacketMeta) :
    m.toBackend g = m.toBackend f := by
  simp only [PacketMeta.toBackend, h.backendIp, h.backendMac, h.backendPort, h.snatPort]

theorem lasts_nil {n : LbNode bits} {s : Slot bits} :
    Lasts hash s n [] ↔ (n.nat.slots s).Unreaped := Iff.rfl

theorem Lasts.unreaped {n : LbNode bits} {s : Slot bits} {bs : List Arrival}
    (h : Lasts hash s n bs) : (n.nat.slots s).Unreaped := by
  cases bs with
  | nil => exact h
  | cons b bs => exact h.1

/-- While a flow lasts, its entry records the same translation. -/
theorem Lasts.sameFlow {timeoutMs : UInt32} {workerId nWorkers : UInt16} {pre bs : List Arrival}
    {s : Slot bits} {flow : NatFlow}
    (h : Lasts hash s (run hash (init bits timeoutMs workerId nWorkers) pre) bs)
    (hflow : SameFlow flow
      ((run hash (init bits timeoutMs workerId nWorkers) pre).nat.slots s)) :
    SameFlow flow ((run hash (init bits timeoutMs workerId nWorkers) (pre ++ bs)).nat.slots s) := by
  induction bs generalizing pre with
  | nil => rwa [List.append_nil]
  | cons b bs ih =>
    obtain ⟨-, hcreates, hlasts⟩ := h
    have hkept := (arrive_kept_or_creates (forwardMap_run ..) b s).resolve_right hcreates
    rw [← List.singleton_append, ← List.append_assoc]
    refine ih ?_ ?_
    · rwa [run_append]
    · rw [run_append]
      exact hflow.trans (hkept.same hlasts.unreaped)

/-- In every run, a flow goes to a slot that the pool of its burst enables; the packet that creates
it is sent on with its translation; and as long as it lasts its entry does not change, it is evicted
only after its timeout, and every forward packet of its key that is sent on while it is not timed
out carries its translation. -/
theorem flows_keep_their_backend (hash : FlowKey → UInt32) (bits : ℕ) (timeoutMs : UInt32)
    (workerId nWorkers : UInt16) (pre : List Arrival) (a : Arrival) (pool : BackendPool)
    (s : Slot bits) (flow : NatFlow)
    (hcreates : Creates hash (run hash (init bits timeoutMs workerId nWorkers) pre) a pool s flow) :
    let n := run hash (init bits timeoutMs workerId nWorkers) pre
    (flow.fwdKey = a.packet.flowKey ∧ flow.clientMac = a.packet.clientMac ∧ flow.snatPort ≠ 0 ∧
      flow.backendIdx.toNat < pool.slots.length ∧
      pool.enabled.getD flow.backendIdx.toNat 0 ≠ 0 ∧
      flow.backend = pool.getAt flow.backendIdx) ∧
    (arrive hash n a).2 = (true, a.packet.toBackend flow) ∧
    ∀ bs, Lasts hash s (arrive hash n a).1 bs →
      let n' := run hash (arrive hash n a).1 bs
      SameFlow flow (n'.nat.slots s) ∧ ∀ b,
        (n'.nat.slots s).Live n'.nat.timeoutMs b.nowMs →
          (¬ ∃ pool' flow', Creates hash n' b pool' s flow') ∧
          (b.packet.dir = .forward → b.packet.flowKey = flow.fwdKey →
            (arrive hash n' b).2.1 = true →
              (arrive hash n' b).2.2 = b.packet.toBackend flow) := by
  intro n
  have hpool := (Arrival.usable_eq_some.mp hcreates.usable).2
  obtain ⟨t, hreaps, hopens, hflow, harrive⟩ := hcreates.eq_freshFlow
  refine ⟨?_, ?_, fun bs hlasts => ?_⟩
  · obtain ⟨hlt, henabled⟩ := BackendPool.mem_active.mp
      (BackendPool.select_mem_active hash a.packet.flowKey hpool)
    rw [hflow]
    exact ⟨rfl, rfl, hopens.port_ne_zero, hlt, henabled, rfl⟩
  · rw [harrive, forwardVia, openAt_slots, Function.update_self, hflow]
    rfl
  · intro n'
    have hfirst : (arrive hash n a).1 =
        run hash (init bits timeoutMs workerId nWorkers) (pre ++ [a]) := by
      rw [run_append]
      rfl
    have hfresh : SameFlow flow ((arrive hash n a).1.nat.slots s) := by
      have hun := hlasts.unreaped
      rw [harrive, forwardVia] at hun ⊢
      have hsame := ((quietSteps_maybeTeardown a.packet (live_openAt _ _ _ s)).kept s).same hun
      rwa [openAt_slots, Function.update_self, ← freshFlow, ← hflow] at hsame
    have hrun : n' = run hash (init bits timeoutMs workerId nWorkers) ((pre ++ [a]) ++ bs) := by
      rw [run_append, ← hfirst]
    have hsame : SameFlow flow (n'.nat.slots s) := by
      rw [hrun]
      rw [hfirst] at hlasts hfresh
      exact hlasts.sameFlow hfresh
    refine ⟨hsame, fun b hlive => ⟨fun hcreates' => ?_, fun hdir hkey hsent => ?_⟩⟩
    · obtain ⟨_, _, hother⟩ := hcreates'
      exact hother.not_live hlive
    cases husable : b.usable with
    | none =>
      rw [arrive_of_not_usable hash n' husable] at hsent
      exact Bool.noConfusion hsent
    | some pool' =>
      have hmap : ForwardMap hash n'.nat := by
        rw [hrun]
        exact forwardMap_run ..
      obtain ⟨t', -, hgoes⟩ := handlePacket_of_live_fwdKey pool' hmap hdir hlive
        (hsame.fwdKey.trans hkey.symm)
      rw [arrive_of_usable hash n' husable, hgoes]
      exact hsame.toBackend b.packet

/-- The first SYN of a connection creates a flow, and the next segment of it is sent on. -/
theorem exists_creates_syn (hash : FlowKey → UInt32) (bits : ℕ) (timeoutMs : UInt32)
    (backend : BackendInfo) (tcpFlags : UInt8) :
    ∃ s flow, Creates hash (init bits timeoutMs 0 1) (tcpArrival backend 40000 kTcpSyn)
        (.single backend) s flow ∧
      let n := (arrive hash (init bits timeoutMs 0 1) (tcpArrival backend 40000 kTcpSyn)).1
      (n.nat.slots s).Live n.nat.timeoutMs 0 ∧
        (arrive hash n (tcpArrival backend 40000 tcpFlags)).2.1 = true := by
  obtain ⟨hfin, hrst, hmay⟩ := has_syn 40000
  obtain ⟨s, hopens⟩ := exists_opensIn_init hash bits timeoutMs backend 0 (rfl :
    (tcpSegment 40000 kTcpSyn).dir = .forward) hmay
  have husable := usable_tcpArrival backend 40000 kTcpSyn
  obtain ⟨flow, hcreates⟩ := OpensIn.creates (a := tcpArrival backend 40000 kTcpSyn) hopens
    (forwardMap_empty timeoutMs) husable
  obtain ⟨t, -, heq⟩ := OpensIn.arrive_fst_eq (a := tcpArrival backend 40000 kTcpSyn) hopens
    (forwardMap_empty timeoutMs) husable hfin hrst
  have hmap : ForwardMap hash
      (arrive hash (init bits timeoutMs 0 1) (tcpArrival backend 40000 kTcpSyn)).1.nat :=
    forwardMap_run bits timeoutMs 0 1 [tcpArrival backend 40000 kTcpSyn]
  rw [heq] at hmap
  refine ⟨s, flow, hcreates, ?_⟩
  intro n
  have hlive : (n.nat.slots s).Live n.nat.timeoutMs 0 := by
    simp only [n, heq]
    exact live_openAt _ _ _ _
  refine ⟨hlive, ?_⟩
  obtain ⟨t', -, hsent⟩ := handlePacket_of_live_fwdKey (.single backend)
    (m := tcpSegment 40000 tcpFlags) (n := n) (heq ▸ hmap) rfl hlive (by
      simp only [n, heq, openAt_slots, Function.update_self]
      rfl)
  rw [arrive_of_usable hash n (usable_tcpArrival backend 40000 tcpFlags)]
  exact congrArg (fun r => r.2.1) hsent

/-- The first SYN of a connection creates a flow, and the second segment carries its translation. -/
theorem second_segment_keeps_backend :
    let backend : BackendInfo := { ip := 0x0A000202, port := 8080 }
    let hash := FlowKey.hash .sse42
    ∃ s flow, Creates hash (init 20 30000 0 1) (tcpArrival backend 40000 kTcpSyn)
        (.single backend) s flow ∧
      (arrive hash (init 20 30000 0 1) (tcpArrival backend 40000 kTcpSyn)).2 =
        (true, (tcpSegment 40000 kTcpSyn).toBackend flow) ∧
      (arrive hash (arrive hash (init 20 30000 0 1) (tcpArrival backend 40000 kTcpSyn)).1
        (tcpArrival backend 40000 0x10)).2 = (true, (tcpSegment 40000 0x10).toBackend flow) := by
  intro backend hash
  obtain ⟨s, flow, hcreates, hlive, hgoes⟩ := exists_creates_syn hash 20 30000 backend 0x10
  have hkeeps := flows_keep_their_backend hash 20 30000 0 1 [] _ (.single backend) s flow hcreates
  simp only [run_nil] at hkeeps
  obtain ⟨hflow, hsent, hkeeps⟩ := hkeeps
  have hlater := (hkeeps [] (lasts_nil.mpr hlive.1)).2 (tcpArrival backend 40000 0x10)
  rw [run_nil] at hlater
  refine ⟨s, flow, hcreates, hsent, Prod.ext hgoes ?_⟩
  exact (hlater hlive).2 rfl hflow.1.symm hgoes

end LbNode

end Cerebellum
