import Cerebellum.Lb.NatTableSpec
import Cerebellum.Nodes.LbNode

/-!
# What one packet can do to the load-balancing node

`handlePacket_outcome` says once and for all what `HandlePacket` does: it reaps expired entries, and
then forwards the packet along a live entry, or opens a flow in a slot that is not live and forwards
the packet along it, or refuses the packet.

For invariants this is cut into single steps (`LbNode.Step`): the quiet ones, which reap one entry,
refresh one, mark a FIN or close a flow, and the one that opens a flow. An invariant of the node is
a property kept by the five steps (`LbNode.run_induct`).

## Main definitions

* `Cerebellum.LbNode.openAt`: the node after opening a flow.
* `Cerebellum.LbNode.Opens`: the circumstances in which `CreateFlow` opens a flow.
* `Cerebellum.LbNode.Outcome`, `Cerebellum.LbNode.QuietStep`, `Cerebellum.LbNode.Step`.

## Main results

* `Cerebellum.LbNode.handlePacket_outcome`, `Cerebellum.LbNode.handlePacket_steps`.
* `Cerebellum.LbNode.run_induct`: the rule for invariants of runs.
-/

open Probing

namespace Cerebellum

open NatTable

namespace LbNode

variable {bits : ℕ} (hash : FlowKey → UInt32)

/-- The node after `CreateFlow` has put `flow` into slot `s`, the port of `flow` being the top of
the pool of its backend. The port of an evicted entry goes back to the pool of its own backend. -/
def openAt (n : LbNode bits) (flow : NatFlow) (s : Slot bits) (nowMs : UInt32) : LbNode bits :=
  let victim := n.nat.slots s
  let opened : LbNode bits :=
    { n with
      nat := n.nat.place hash flow s (if victim.Unreaped then n.nat.size else n.nat.size + 1) nowMs
      portPools := Function.update n.portPools flow.backendIdx
        (n.portPools flow.backendIdx).acquire.2 }
  let settled := opened.releasePort (if victim.occupied then victim.backendIdx else 0)
    (if victim.occupied then victim.snatPort else 0)
  { settled with
    newFlows := settled.newFlows + 1
    backendFlows := Function.update settled.backendFlows flow.backendIdx
      (settled.backendFlows flow.backendIdx + 1) }

/-- The port that the pool of the selected backend would hand out for the packet. -/
def nextPort (n : LbNode bits) (pool : BackendPool) (m : PacketMeta) : UInt16 :=
  (n.portPools (pool.select hash m.flowKey)).acquire.1

/-- The packet opens a flow in slot `s`: its key is not on the scan, the pool of the selected
backend has a port, and `s` is the first slot of the scan that is not live. -/
structure Opens (n : LbNode bits) (pool : BackendPool) (nowMs : UInt32) (m : PacketMeta)
    (s : Slot bits) : Prop where
  absent : AbsentOnScan hash n.nat m.flowKey
  port_ne_zero : n.nextPort hash pool m ≠ 0
  dead : ¬ (n.nat.slots s).Live n.nat.timeoutMs nowMs
  first : ∃ i < 2 ^ bits, s = probeAt (home (hash m.flowKey)) i ∧
    ∀ j < i, (n.nat.slots (probeAt (home (hash m.flowKey)) j)).Live n.nat.timeoutMs nowMs

/-- A forward packet that may open a flow: anything but a TCP segment without SYN. -/
def MayOpen (m : PacketMeta) : Prop := ¬ (m.proto = kProtoTcp ∧ m.has kTcpSyn = false)

instance (m : PacketMeta) : Decidable (MayOpen m) := inferInstanceAs (Decidable (¬ _))

/-- The test that `HandlePacket` makes. -/
theorem mayOpen_iff {m : PacketMeta} :
    MayOpen m ↔ (decide (m.proto = kProtoTcp) && !m.has kTcpSyn) = false := by
  rw [MayOpen, ← Bool.not_eq_true (decide (m.proto = kProtoTcp) && _), Bool.and_eq_true,
    decide_eq_true_eq, Bool.not_eq_true']

/-- The packet is a forward packet that needs a new flow at `nowMs`. -/
structure NeedsFlow (n : LbNode bits) (nowMs : UInt32) (m : PacketMeta) : Prop where
  forward : m.dir = .forward
  mayOpen : MayOpen m
  noFlow : ¬ ∃ s, (n.nat.slots s).Live n.nat.timeoutMs nowMs ∧ (n.nat.slots s).fwdKey = m.flowKey

/-- Everything `HandlePacket` can do to a packet. -/
inductive Outcome (n : LbNode bits) (pool : BackendPool) (nowMs : UInt32) (m : PacketMeta) :
    LbNode bits × Bool × PacketMeta → Prop
  /-- A forward packet of a live flow. -/
  | forward {t : NatTable bits} {s : Slot bits} (hdir : m.dir = .forward)
      (hreaps : Reaps nowMs n.nat t) (hlive : (t.slots s).Live t.timeoutMs nowMs)
      (hkey : (t.slots s).fwdKey = m.flowKey) :
      Outcome n pool nowMs m (forwardVia { n with nat := t.touch s nowMs } s m)
  /-- A forward packet that opens a flow. -/
  | opened {t : NatTable bits} {s : Slot bits} (hdir : m.dir = .forward)
      (hreaps : Reaps nowMs n.nat t) (hmay : MayOpen m)
      (hopens : Opens hash { n with nat := t } pool nowMs m s) :
      Outcome n pool nowMs m
        (forwardVia
          (openAt hash { n with nat := t } (newFlow hash m pool (n.nextPort hash pool m)) s nowMs)
          s m)
  /-- A forward packet refused: it may not open a flow, or there is no port, or no slot. -/
  | refused {t : NatTable bits} (hdir : m.dir = .forward) (hreaps : Reaps nowMs n.nat t)
      (habs : AbsentOnScan hash t m.flowKey)
      (hwhy : ¬ MayOpen m ∨ n.nextPort hash pool m = 0 ∨
        (n.nextPort hash pool m ≠ 0 ∧ ∀ s, (t.slots s).Live t.timeoutMs nowMs)) :
      Outcome n pool nowMs m ({ n with nat := t }, false, m)
  /-- A reverse packet whose reply tuple is answered by the first suitable cell of its scan. -/
  | reverse {t : NatTable bits} {i : ℕ} {s : Slot bits} (hdir : m.dir = .reverse)
      (hreaps : Reaps nowMs n.nat t) (hi : i < 2 ^ bits)
      (hcell : n.nat.rev (probeAt (home (hash m.replyKey)) i) = some s)
      (hans : n.nat.Answers m.replyKey nowMs s)
      (hfirst : ∀ j < i, ∃ s', n.nat.rev (probeAt (home (hash m.replyKey)) j) = some s' ∧
        ¬ n.nat.Answers m.replyKey nowMs s') :
      Outcome n pool nowMs m (reverseVia { n with nat := t.touch s nowMs } s m)
  /-- A reverse packet that no cell before the first empty one answers. -/
  | unknown {t : NatTable bits} (hdir : m.dir = .reverse) (hreaps : Reaps nowMs n.nat t)
      (hnone : ∀ i < 2 ^ bits,
        (∀ j < i, n.nat.rev (probeAt (home (hash m.replyKey)) j) ≠ none) →
          ∀ s, n.nat.rev (probeAt (home (hash m.replyKey)) i) = some s →
            ¬ n.nat.Answers m.replyKey nowMs s) :
      Outcome n pool nowMs m ({ n with nat := t }, false, m)

/-- `CreateFlow` opens a flow, or leaves everything as it was because there is no port or no slot.
-/
theorem createFlow_spec (n : LbNode bits) (m : PacketMeta) (pool : BackendPool) (nowMs : UInt32)
    (habs : AbsentOnScan hash n.nat m.flowKey) :
    (∃ s, Opens hash n pool nowMs m s ∧
        createFlow hash n m pool nowMs =
          (openAt hash n (newFlow hash m pool (n.nextPort hash pool m)) s nowMs, some s)) ∨
      ((n.nextPort hash pool m = 0 ∨
          (n.nextPort hash pool m ≠ 0 ∧ ∀ s, (n.nat.slots s).Live n.nat.timeoutMs nowMs)) ∧
        createFlow hash n m pool nowMs = (n, none)) := by
  by_cases hport : n.nextPort hash pool m = 0
  · refine Or.inr ⟨Or.inl hport, ?_⟩
    have hnil := PortPool.acquire_of_nil (PortPool.acquire_fst_eq_zero.mp hport)
    simp only [createFlow, hnil, Function.update_eq_self, if_true]
  · rcases insert_spec hash n.nat (newFlow hash m pool (n.nextPort hash pool m)) nowMs with
      ⟨i, hi, s, hs, hdead, hbefore, hins⟩ | ⟨hfull, hins⟩
    · refine Or.inl ⟨s, ⟨habs, hport, hdead, i, hi, hs, hbefore⟩, ?_⟩
      rw [nextPort] at hport hins
      simp only [createFlow, if_neg hport, hins]
      rfl
    · refine Or.inr ⟨Or.inr ⟨hport, hfull⟩, ?_⟩
      rw [nextPort] at hport hins
      simp only [createFlow, hins, releasePort, ne_eq, not_true_eq_false, dite_false, hport,
        not_false_eq_true, dite_true, if_false, Function.update_self, Function.update_idem,
        PortPool.acquire_release, Function.update_eq_self]

/-- `HandlePacket` does one of the things listed in `Outcome`. -/
theorem handlePacket_outcome (n : LbNode bits) (pool : BackendPool) (nowMs : UInt32)
    (m : PacketMeta) : Outcome hash n pool nowMs m (handlePacket hash n pool nowMs m) := by
  cases hdir : m.dir with
  | forward =>
    obtain ⟨t, hreaps, ⟨s, hfound, hlive, hkey⟩ | ⟨hfound, habs⟩⟩ :=
      lookupForward_spec hash n.nat m.flowKey nowMs
    · simp only [handlePacket, hdir, hfound]
      exact .forward hdir hreaps hlive hkey
    · simp only [handlePacket, hdir, hfound]
      by_cases hmay : MayOpen m
      · rw [mayOpen_iff.mp hmay]
        rcases createFlow_spec hash { n with nat := t } m pool nowMs habs with
          ⟨s, hopens, hcreate⟩ | ⟨hwhy, hcreate⟩
        · rw [hcreate]
          exact .opened hdir hreaps hmay hopens
        · rw [hcreate]
          exact .refused hdir hreaps habs (Or.inr hwhy)
      · rw [(Bool.not_eq_false _).mp (mayOpen_iff.not.mp hmay)]
        exact .refused hdir hreaps habs (Or.inl hmay)
  | reverse =>
    obtain ⟨t, hreaps, ⟨i, hi, s, hfound, hcell, hans, hfirst⟩ | ⟨hfound, hnone⟩⟩ :=
      lookupReverse_spec hash n.nat m.srcIp m.srcPort m.dstPort m.proto nowMs
    · simp only [handlePacket, hdir, hfound]
      exact .reverse hdir hreaps hi hcell hans hfirst
    · simp only [handlePacket, hdir, hfound]
      exact .unknown hdir hreaps hnone

/-! ### Single steps -/

@[simp] theorem releasePort_nat (n : LbNode bits) (idx : UInt8) (port : UInt16) :
    (n.releasePort idx port).nat = n.nat := by
  unfold releasePort
  split_ifs <;> rfl

theorem openAt_nat (n : LbNode bits) (flow : NatFlow) (s : Slot bits) (nowMs : UInt32) :
    (openAt hash n flow s nowMs).nat = n.nat.place hash flow s
      (if (n.nat.slots s).Unreaped then n.nat.size else n.nat.size + 1) nowMs := by
  simp only [openAt, releasePort_nat]

theorem openAt_slots (n : LbNode bits) (flow : NatFlow) (s : Slot bits) (nowMs : UInt32) :
    (openAt hash n flow s nowMs).nat.slots =
      Function.update n.nat.slots s { flow with occupied := true, lastSeenMs := nowMs } := by
  rw [openAt_nat, place_slots]

theorem openAt_timeoutMs (n : LbNode bits) (flow : NatFlow) (s : Slot bits) (nowMs : UInt32) :
    (openAt hash n flow s nowMs).nat.timeoutMs = n.nat.timeoutMs := by
  rw [openAt_nat, place_timeoutMs]

/-- Opening a flow in an unused slot takes a port of its own backend only. -/
theorem openAt_portPools_of_ne {n : LbNode bits} {flow : NatFlow} {s : Slot bits} {nowMs : UInt32}
    (hunused : (n.nat.slots s).occupied = false) {idx : UInt8} (hne : idx ≠ flow.backendIdx) :
    (openAt hash n flow s nowMs).portPools idx = n.portPools idx := by
  simp only [openAt, releasePort, hunused, Bool.false_eq_true, if_false, ne_eq, not_true_eq_false,
    dite_false, Function.update_of_ne hne]

/-- The single steps that open no flow. -/
inductive QuietStep (nowMs : UInt32) : LbNode bits → LbNode bits → Prop
  | reap {n : LbNode bits} {s : Slot bits}
      (hexp : expired n.nat.timeoutMs (n.nat.slots s) nowMs = true) :
      QuietStep nowMs n { n with nat := n.nat.reap s }
  | touch {n : LbNode bits} {s : Slot bits}
      (hlive : (n.nat.slots s).Live n.nat.timeoutMs nowMs) :
      QuietStep nowMs n { n with nat := n.nat.touch s nowMs }
  | fin {n : LbNode bits} {s : Slot bits} (dir : Direction)
      (hlive : (n.nat.slots s).Live n.nat.timeoutMs nowMs) :
      QuietStep nowMs n (n.markFin s dir)
  | close {n : LbNode bits} {s : Slot bits}
      (hlive : (n.nat.slots s).Live n.nat.timeoutMs nowMs) :
      QuietStep nowMs n (n.teardown s)

/-- The single steps that the packet `m` is handled in. -/
inductive Step (pool : BackendPool) (nowMs : UInt32) (m : PacketMeta) :
    LbNode bits → LbNode bits → Prop
  | quiet {n n' : LbNode bits} (h : QuietStep nowMs n n') : Step pool nowMs m n n'
  | create {n : LbNode bits} {s : Slot bits} (hdir : m.dir = .forward) (hmay : MayOpen m)
      (hopens : Opens hash n pool nowMs m s) :
      Step pool nowMs m n (openAt hash n (newFlow hash m pool (n.nextPort hash pool m)) s nowMs)

/-- Any number of single steps that open no flow. -/
abbrev QuietSteps (nowMs : UInt32) : LbNode bits → LbNode bits → Prop :=
  Relation.ReflTransGen (QuietStep nowMs)

/-- Any number of single steps. -/
abbrev Steps (pool : BackendPool) (nowMs : UInt32) (m : PacketMeta) :
    LbNode bits → LbNode bits → Prop :=
  Relation.ReflTransGen (Step hash pool nowMs m)

variable {hash} {pool : BackendPool} {nowMs : UInt32} {m : PacketMeta}

theorem QuietSteps.steps {n n' : LbNode bits} (h : QuietSteps nowMs n n') :
    Steps hash pool nowMs m n n' :=
  Relation.ReflTransGen.mono (fun _ _ => Step.quiet) _ _ h

theorem quietSteps_of_reaps {n : LbNode bits} {t : NatTable bits} (h : Reaps nowMs n.nat t) :
    QuietSteps nowMs n { n with nat := t } := by
  induction h with
  | refl => exact Relation.ReflTransGen.refl
  | tail _ hstep ih =>
    obtain ⟨s, hexp, rfl⟩ := hstep
    exact ih.tail (.reap hexp)

/-- Tearing a flow down is marking a FIN, or closing, or both, or nothing. -/
theorem quietSteps_maybeTeardown {n : LbNode bits} {s : Slot bits} (m : PacketMeta)
    (hlive : (n.nat.slots s).Live n.nat.timeoutMs nowMs) :
    QuietSteps nowMs n (n.maybeTeardown s m) := by
  have hmark : ((n.markFin s m.dir).nat.slots s).Live (n.markFin s m.dir).nat.timeoutMs nowMs := by
    simp only [markFin, setSlot_slots, Function.update_self]
    exact hlive
  have hclose {n' : LbNode bits} (h : QuietSteps nowMs n n')
      (hlive' : (n'.nat.slots s).Live n'.nat.timeoutMs nowMs) (b : Bool) :
      QuietSteps nowMs n (if b then n'.teardown s else n') := by
    cases b with
    | true => exact h.tail (.close hlive')
    | false => exact h
  unfold maybeTeardown
  cases m.has kTcpFin with
  | true => exact hclose (.single (.fin m.dir hlive)) hmark _
  | false => exact hclose .refl hlive _

/-- A packet with neither FIN nor RST tears nothing down. -/
theorem maybeTeardown_of_not_has (n : LbNode bits) (s : Slot bits) {m : PacketMeta}
    (hfin : m.has kTcpFin = false) (hrst : m.has kTcpRst = false) : n.maybeTeardown s m = n := by
  simp only [maybeTeardown, hfin, hrst, Bool.false_eq_true, if_false, Bool.false_and, Bool.or_self]

/-- A reset tears the flow down. -/
theorem maybeTeardown_of_rst (n : LbNode bits) (s : Slot bits) {m : PacketMeta}
    (hfin : m.has kTcpFin = false) (hrst : m.has kTcpRst = true) :
    n.maybeTeardown s m = n.teardown s := by
  simp only [maybeTeardown, hfin, hrst, Bool.false_eq_true, if_false, Bool.true_or, if_true]

theorem live_touch {t : NatTable bits} {s : Slot bits}
    (hlive : (t.slots s).Live t.timeoutMs nowMs) :
    ((t.touch s nowMs).slots s).Live (t.touch s nowMs).timeoutMs nowMs := by
  rw [touch_slots, Function.update_self]
  exact live_of_lastSeen_eq hlive.1 rfl

/-- A flow is live right after it was opened. -/
theorem live_openAt (n : LbNode bits) (m : PacketMeta) (port : UInt16) (s : Slot bits) :
    ((openAt hash n (newFlow hash m pool port) s nowMs).nat.slots s).Live
      (openAt hash n (newFlow hash m pool port) s nowMs).nat.timeoutMs nowMs := by
  rw [openAt_slots, Function.update_self]
  exact live_of_lastSeen_eq ⟨rfl, rfl⟩ rfl

/-- A packet is handled in quiet steps only, or it opens a flow with quiet steps before and
after. -/
theorem handlePacket_quiet_or_opens (n : LbNode bits) (m : PacketMeta) :
    QuietSteps nowMs n (handlePacket hash n pool nowMs m).1 ∨
      ∃ t s, m.dir = .forward ∧ Reaps nowMs n.nat t ∧ MayOpen m ∧
        Opens hash { n with nat := t } pool nowMs m s ∧
        QuietSteps nowMs
          (openAt hash { n with nat := t } (newFlow hash m pool (n.nextPort hash pool m)) s nowMs)
          (handlePacket hash n pool nowMs m).1 := by
  have h := handlePacket_outcome hash n pool nowMs m
  generalize handlePacket hash n pool nowMs m = r at h
  cases h with
  | @forward t s hdir hreaps hlive hkey =>
    exact Or.inl (((quietSteps_of_reaps hreaps).tail (.touch hlive)).trans
      (quietSteps_maybeTeardown m (live_touch hlive)))
  | @opened t s hdir hreaps hmay hopens =>
    exact Or.inr ⟨t, s, hdir, hreaps, hmay, hopens,
      quietSteps_maybeTeardown m (live_openAt _ _ _ _)⟩
  | refused hdir hreaps habs hwhy => exact Or.inl (quietSteps_of_reaps hreaps)
  | @reverse t i s hdir hreaps hi hcell hans hfirst =>
    have hlive := (hreaps.live_iff s).mpr hans.1
    exact Or.inl (((quietSteps_of_reaps hreaps).tail (.touch hlive)).trans
      (quietSteps_maybeTeardown m (live_touch hlive)))
  | unknown hdir hreaps hnone => exact Or.inl (quietSteps_of_reaps hreaps)

/-- A packet is handled in single steps. -/
theorem handlePacket_steps (n : LbNode bits) (m : PacketMeta) :
    Steps hash pool nowMs m n (handlePacket hash n pool nowMs m).1 := by
  rcases handlePacket_quiet_or_opens n m with hquiet | ⟨t, s, hdir, hreaps, hmay, hopens, hquiet⟩
  · exact QuietSteps.steps hquiet
  · exact ((quietSteps_of_reaps hreaps).steps.tail (.create hdir hmay hopens)).trans hquiet.steps

/-! ### What a step does to a slot -/

/-- The two entries have the same key, client and translation. -/
structure SameFlow (f g : NatFlow) : Prop where
  fwdKey : g.fwdKey = f.fwdKey
  clientMac : g.clientMac = f.clientMac
  backendIp : g.backendIp = f.backendIp
  backendMac : g.backendMac = f.backendMac
  backendPort : g.backendPort = f.backendPort
  snatPort : g.snatPort = f.snatPort
  backendIdx : g.backendIdx = f.backendIdx

theorem SameFlow.revKey {f g : NatFlow} (h : SameFlow f g) : g.revKey = f.revKey := by
  simp only [NatFlow.revKey, h.backendIp, h.backendPort, h.snatPort, h.fwdKey]

theorem SameFlow.refl (f : NatFlow) : SameFlow f f := ⟨rfl, rfl, rfl, rfl, rfl, rfl, rfl⟩

theorem SameFlow.trans {f g h : NatFlow} (hfg : SameFlow f g) (hgh : SameFlow g h) :
    SameFlow f h :=
  ⟨hgh.fwdKey.trans hfg.fwdKey, hgh.clientMac.trans hfg.clientMac,
    hgh.backendIp.trans hfg.backendIp, hgh.backendMac.trans hfg.backendMac,
    hgh.backendPort.trans hfg.backendPort, hgh.snatPort.trans hfg.snatPort,
    hgh.backendIdx.trans hfg.backendIdx⟩

/-- The slot stays in use, and if its entry is not reaped afterwards then it is the same flow as
before. -/
structure Kept (f g : NatFlow) : Prop where
  occupied : g.occupied = f.occupied
  unreaped : g.Unreaped → f.Unreaped
  same : g.Unreaped → SameFlow f g

theorem Kept.refl (f : NatFlow) : Kept f f := ⟨rfl, id, fun _ => .refl f⟩

theorem Kept.trans {f g h : NatFlow} (hfg : Kept f g) (hgh : Kept g h) : Kept f h :=
  ⟨hgh.occupied.trans hfg.occupied, fun hun => hfg.unreaped (hgh.unreaped hun),
    fun hun => (hfg.same (hgh.unreaped hun)).trans (hgh.same hun)⟩

/-- An entry that ends up reaped is kept, whatever else happens to it. -/
theorem Kept.of_reaped {f g : NatFlow} (hocc : g.occupied = f.occupied) (h : g.reaped = true) :
    Kept f g :=
  ⟨hocc, fun hun => absurd (h.symm.trans hun.2) (by decide),
    fun hun => absurd (h.symm.trans hun.2) (by decide)⟩

/-- The entry that opening a flow for `m` leaves in its slot. -/
def freshFlow (hash : FlowKey → UInt32) (n : LbNode bits) (pool : BackendPool) (nowMs : UInt32)
    (m : PacketMeta) : NatFlow :=
  { newFlow hash m pool (n.nextPort hash pool m) with occupied := true, lastSeenMs := nowMs }

private theorem kept_update {t : NatTable bits} {s : Slot bits} {g : NatFlow}
    (h : Kept (t.slots s) g) (c : Slot bits) :
    Kept (t.slots c) (Function.update t.slots s g c) := by
  rcases eq_or_ne c s with rfl | hne
  · rwa [Function.update_self]
  · rw [Function.update_of_ne hne]
    exact .refl _

theorem teardown_nat {n : LbNode bits} {s : Slot bits} (h : (n.nat.slots s).Unreaped) :
    (n.teardown s).nat =
      { n.nat with
        slots := Function.update n.nat.slots s
          { n.nat.slots s with reaped := true, snatPort := 0 }
        size := if 0 < n.nat.size then n.nat.size - 1 else n.nat.size } := by
  simp only [teardown, close_of_unreaped h, releasePort_nat]

theorem markFin_slots (n : LbNode bits) (s : Slot bits) (dir : Direction) :
    (n.markFin s dir).nat.slots = Function.update n.nat.slots s
      { n.nat.slots s with finSeen := (n.nat.slots s).finSeen ||| finBit dir } := rfl

theorem teardown_slots {n : LbNode bits} {s : Slot bits} (h : (n.nat.slots s).Unreaped) :
    (n.teardown s).nat.slots = Function.update n.nat.slots s
      { n.nat.slots s with reaped := true, snatPort := 0 } := by
  rw [teardown_nat h]

/-- The second table differs from the first at most in slot `s`, and not in its time. -/
structure WritesAt (s : Slot bits) (t t' : NatTable bits) : Prop where
  rev : t'.rev = t.rev
  slots : ∀ c ≠ s, t'.slots c = t.slots c
  lastSeenMs : (t'.slots s).lastSeenMs = (t.slots s).lastSeenMs

theorem WritesAt.teardown {t : NatTable bits} {n : LbNode bits} {s : Slot bits}
    (h : WritesAt s t n.nat) (hun : (n.nat.slots s).Unreaped) :
    WritesAt s t (n.teardown s).nat where
  rev := by
    rw [teardown_nat hun]
    exact h.rev
  slots c hc := by
    rw [teardown_slots hun, Function.update_of_ne hc]
    exact h.slots c hc
  lastSeenMs := by
    rw [teardown_slots hun, Function.update_self]
    exact h.lastSeenMs

theorem writesAt_markFin (n : LbNode bits) (s : Slot bits) (dir : Direction) :
    WritesAt s n.nat (n.markFin s dir).nat where
  rev := rfl
  slots c hc := by rw [markFin_slots, Function.update_of_ne hc]
  lastSeenMs := by rw [markFin_slots, Function.update_self]

/-- `MaybeTeardown` writes to the slot of the flow only. -/
theorem writesAt_maybeTeardown {n : LbNode bits} {s : Slot bits} (hun : (n.nat.slots s).Unreaped)
    (m : PacketMeta) : WritesAt s n.nat (n.maybeTeardown s m).nat := by
  have hclose {n' : LbNode bits} (h : WritesAt s n.nat n'.nat) (hun' : (n'.nat.slots s).Unreaped)
      (b : Bool) : WritesAt s n.nat (if b then n'.teardown s else n').nat := by
    cases b with
    | true => exact h.teardown hun'
    | false => exact h
  unfold maybeTeardown
  cases m.has kTcpFin with
  | true =>
    refine hclose (writesAt_markFin n s m.dir) ?_ _
    rw [markFin_slots, Function.update_self]
    exact hun
  | false => exact hclose ⟨rfl, fun _ _ => rfl, rfl⟩ hun _

/-- A quiet step keeps every slot. -/
theorem QuietStep.kept {n n' : LbNode bits} (h : QuietStep nowMs n n') (s : Slot bits) :
    Kept (n.nat.slots s) (n'.nat.slots s) := by
  cases h with
  | reap hexp =>
    rw [reap_slots]
    refine kept_update ?_ s
    exact .of_reaped rfl rfl
  | touch hlive =>
    refine kept_update ?_ s
    exact ⟨rfl, id, fun _ => ⟨rfl, rfl, rfl, rfl, rfl, rfl, rfl⟩⟩
  | fin dir hlive =>
    refine kept_update ?_ s
    exact ⟨rfl, id, fun _ => ⟨rfl, rfl, rfl, rfl, rfl, rfl, rfl⟩⟩
  | close hlive =>
    rw [teardown_nat hlive.1]
    refine kept_update ?_ s
    exact .of_reaped rfl rfl

theorem QuietSteps.kept {n n' : LbNode bits} (h : QuietSteps nowMs n n') (s : Slot bits) :
    Kept (n.nat.slots s) (n'.nat.slots s) := by
  induction h with
  | refl => exact .refl _
  | tail _ hstep ih => exact ih.trans (hstep.kept s)

theorem QuietStep.rev_eq {n n' : LbNode bits} (h : QuietStep nowMs n n') :
    n'.nat.rev = n.nat.rev := by
  cases h with
  | reap hexp => exact reap_rev _ _
  | touch hlive => rfl
  | fin dir hlive => rfl
  | close hlive => rw [teardown_nat hlive.1]

/-- A quiet step refreshes an entry only if it is live, and then to the current time. -/
theorem QuietStep.lastSeenMs_cases {n n' : LbNode bits} (h : QuietStep nowMs n n')
    (s : Slot bits) :
    (n'.nat.slots s).lastSeenMs = (n.nat.slots s).lastSeenMs ∨
      ((n'.nat.slots s).lastSeenMs = nowMs ∧ (n.nat.slots s).Live n.nat.timeoutMs nowMs) := by
  have hupdate {c : Slot bits} {g : NatFlow} (hg : g.lastSeenMs = (n.nat.slots c).lastSeenMs) :
      (Function.update n.nat.slots c g s).lastSeenMs = (n.nat.slots s).lastSeenMs := by
    rcases eq_or_ne s c with rfl | hne
    · rwa [Function.update_self]
    · rw [Function.update_of_ne hne]
  cases h with
  | reap hexp =>
    rw [reap_slots]
    refine Or.inl (hupdate ?_)
    rfl
  | @touch c hlive =>
    rw [touch_slots]
    rcases eq_or_ne s c with rfl | hne
    · rw [Function.update_self]
      exact Or.inr ⟨rfl, hlive⟩
    · rw [Function.update_of_ne hne]
      exact Or.inl rfl
  | fin dir hlive =>
    refine Or.inl (hupdate ?_)
    rfl
  | close hlive =>
    rw [teardown_nat hlive.1]
    refine Or.inl (hupdate ?_)
    rfl

/-- A single step keeps a slot, or has just opened a flow in it. -/
theorem Step.slot_cases {n n' : LbNode bits} (h : Step hash pool nowMs m n n') (s : Slot bits) :
    Kept (n.nat.slots s) (n'.nat.slots s) ∨
      (m.dir = .forward ∧ MayOpen m ∧ Opens hash n pool nowMs m s ∧
        n'.nat.slots s = freshFlow hash n pool nowMs m) := by
  cases h with
  | quiet h => exact Or.inl (h.kept s)
  | @create c hdir hmay hopens =>
    rw [openAt_slots]
    rcases eq_or_ne s c with rfl | hne
    · exact Or.inr ⟨hdir, hmay, hopens, Function.update_self ..⟩
    · rw [Function.update_of_ne hne]
      exact Or.inl (.refl _)

theorem QuietStep.timeoutMs_eq {n n' : LbNode bits} (h : QuietStep nowMs n n') :
    n'.nat.timeoutMs = n.nat.timeoutMs := by
  cases h with
  | reap hexp => exact reap_timeoutMs _ _
  | touch hlive => rfl
  | fin dir hlive => rfl
  | close hlive => rw [teardown_nat hlive.1]

/-- What is live after a quiet step was live before it. -/
theorem QuietStep.live {n n' : LbNode bits} (h : QuietStep nowMs n n') {s : Slot bits}
    (hlive : (n'.nat.slots s).Live n'.nat.timeoutMs nowMs) :
    (n.nat.slots s).Live n.nat.timeoutMs nowMs := by
  rcases h.lastSeenMs_cases s with hsame | ⟨-, hlive⟩
  · refine ⟨(h.kept s).unreaped hlive.1, ?_⟩
    rw [← hsame, ← h.timeoutMs_eq]
    exact hlive.2
  · exact hlive

theorem Step.timeoutMs_eq {n n' : LbNode bits} (h : Step hash pool nowMs m n n') :
    n'.nat.timeoutMs = n.nat.timeoutMs := by
  cases h with
  | quiet h => exact h.timeoutMs_eq
  | create hdir hmay hopens => exact openAt_timeoutMs _ _ _ _ _

theorem arrive_steps (n : LbNode bits) {a : Arrival} (h : a.usable = some pool) :
    Steps hash pool a.nowMs a.packet n (arrive hash n a).1 := by
  rw [arrive_of_usable hash n h]
  exact handlePacket_steps n a.packet

/-- The rule for invariants of runs: what holds at the start and is kept by every single step, with
the pool, the clock and the packet of any of the arrivals, holds after the run. -/
theorem run_induct_mem (P : LbNode bits → Prop) {n : LbNode bits} (hinit : P n) {as : List Arrival}
    (hstep : ∀ a ∈ as, ∀ pool, a.usable = some pool → ∀ n n',
      P n → Step hash pool a.nowMs a.packet n n' → P n') :
    P (run hash n as) := by
  refine List.foldlRecOn as _ hinit fun n hn a ha => ?_
  cases husable : a.usable with
  | none => rwa [arrive_of_not_usable hash n husable]
  | some pool =>
    exact (arrive_steps n husable).rec hn fun _ hone ih => hstep a ha pool husable _ _ ih hone

/-- The same for a property that every step keeps, whatever the pool, the clock and the
packet. -/
theorem run_induct (P : LbNode bits → Prop) {n : LbNode bits} (hinit : P n)
    (hstep : ∀ (pool : BackendPool) (nowMs : UInt32) (m : PacketMeta) (n n' : LbNode bits),
      pool.activeCount ≠ 0 → P n → Step hash pool nowMs m n n' → P n') (as : List Arrival) :
    P (run hash n as) :=
  run_induct_mem P hinit fun a _ pool husable n n' =>
    hstep pool a.nowMs a.packet n n' (Arrival.usable_eq_some.mp husable).2

theorem run_timeoutMs (n : LbNode bits) (as : List Arrival) :
    (run hash n as).nat.timeoutMs = n.nat.timeoutMs :=
  run_induct (fun n' => n'.nat.timeoutMs = n.nat.timeoutMs) rfl
    (fun _ _ _ _ _ _ ih hstep => hstep.timeoutMs_eq.trans ih) as

end LbNode

end Cerebellum
