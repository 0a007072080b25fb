import Cerebellum.Nodes.PortCapacity
import Cerebellum.Nodes.Teardown
import Cerebellum.Nodes.Tracker

/-!
# The load-balancing node refines the connection tracker

Every run of `LbNode` is a run of the connection tracker: whatever arrives, the node does with each
packet something that the tracker may do, and leaves a table whose entries stand for the connections
and the held ports of the tracker. A slot that is not reaped stands for a connection; a slot in use
holds its port, reaped or not.

## Main definitions

* `Cerebellum.NatTable.ShowsOn`: some of the slots of a table stand for the state of the tracker.
* `Cerebellum.LbNode.Tracked`: the simulation relation.
* `Cerebellum.LbNode.outcomes`: the packets of a run with what becomes of them.

## Main results

* `Cerebellum.NatTable.ShowsOn.forget`, `ShowsOn.drop`, `ShowsOn.settle`: the parts of a step.
* `Cerebellum.LbNode.simulates_tracker`: the simulation.
* `Cerebellum.LbNode.refines_tracker`: the result for whole runs.
-/

namespace Cerebellum

open NatTable Simulation

/-! ### Entries and connections -/

/-- The entry records the connection. -/
structure Connection.Describes (c : Connection) (flow : NatFlow) : Prop where
  clientMac : flow.clientMac = c.clientMac
  backend : flow.backend = c.backend
  backendIdx : flow.backendIdx = c.backendIdx
  snatPort : flow.snatPort = c.snatPort
  lastSeenMs : flow.lastSeenMs = c.lastSeenMs
  finSeen : flow.finSeen = finBits (c.fins .forward) (c.fins .reverse)

namespace Connection.Describes

variable {c c' : Connection} {flow : NatFlow}

theorem toBackend_eq (h : c.Describes flow) (m : PacketMeta) :
    m.toBackend flow = c.toBackend m := by
  simp only [PacketMeta.toBackend, Connection.toBackend, ← h.backend, ← h.snatPort]
  rfl

theorem toClient_eq (h : c.Describes flow) (m : PacketMeta) :
    m.toClient flow = c.toClient flow.fwdKey m := by
  simp only [PacketMeta.toClient, Connection.toClient, h.clientMac]

theorem replyKey_eq (h : c.Describes flow) : c.replyKey flow.fwdKey = flow.revKey := by
  simp only [Connection.replyKey, NatFlow.revKey, ← h.backend, ← h.snatPort]
  rfl

theorem current_iff (h : c.Describes flow) {timeoutMs nowMs : UInt32} :
    c.Current timeoutMs nowMs ↔ nowMs - flow.lastSeenMs ≤ timeoutMs := by
  rw [Connection.Current, h.lastSeenMs]

end Connection.Describes

namespace NatTable

variable {bits : ℕ} {t t' : NatTable bits} {s : Slot bits} {timeoutMs nowMs : UInt32}
  {P P' : Slot bits → Prop} {T : Tracker} {key : FlowKey} {c : Connection}

/-- The slot of the entry holds the port for the backend. -/
def Holds (flow : NatFlow) (b : UInt8) (port : UInt16) : Prop :=
  flow.occupied = true ∧ flow.backendIdx = b ∧ port ≠ 0 ∧ flow.snatPort = port

/-- The slots with the property stand for the connections and the held ports of the tracker. -/
structure ShowsOn (P : Slot bits → Prop) (t : NatTable bits) (T : Tracker) : Prop where
  conns : ∀ key c, T.conns key = some c →
    ∃ s, P s ∧ (t.slots s).Unreaped ∧ (t.slots s).fwdKey = key ∧ c.Describes (t.slots s)
  slots : ∀ s, P s → (t.slots s).Unreaped →
    ∃ c, T.conns (t.slots s).fwdKey = some c ∧ c.Describes (t.slots s)
  held : ∀ b port, port ∈ T.held b ↔ ∃ s, P s ∧ Holds (t.slots s) b port

/-- The table stands for the state of the tracker. -/
abbrev Shows (t : NatTable bits) (T : Tracker) : Prop := ShowsOn (fun _ => True) t T

theorem Shows.mem_held_iff (h : Shows t T) {b : UInt8} {port : UInt16} :
    port ∈ T.held b ↔ port ∈ t.heldPorts b := by
  rw [h.held, mem_heldPorts]
  simp only [true_and, Holds]

/-- A connection with the key of an entry is the one that the entry records. -/
theorem ShowsOn.describes_of_conns (h : ShowsOn P t T) (hs : P s) (hun : (t.slots s).Unreaped)
    (hconn : T.conns (t.slots s).fwdKey = some c) : c.Describes (t.slots s) := by
  obtain ⟨c', hconn', hdescribes⟩ := h.slots s hs hun
  obtain rfl := Option.some.inj (hconn.symm.trans hconn')
  exact hdescribes

theorem Reaps.holds (hreaps : Reaps nowMs t t') {b : UInt8} {port : UInt16}
    (h : Holds (t'.slots s) b port) : Holds (t.slots s) b port := by
  obtain heq | ⟨-, heq⟩ := hreaps.slots_eq_or s
  · rwa [heq] at h
  · rw [heq] at h
    exact h

/-- Slots that are not live may be reaped, and left out of the account. -/
theorem ShowsOn.forget (h : Shows t T)
    (hport : ∀ s, (t.slots s).Unreaped → (t.slots s).snatPort ≠ 0)
    (hsame : ∀ s, P s → (t'.slots s).Unreaped → t'.slots s = t.slots s)
    (hlive : ∀ s, (t.slots s).Live timeoutMs nowMs → P s ∧ t'.slots s = t.slots s)
    (hholds : ∀ s, P s → ∀ b port, Holds (t'.slots s) b port → Holds (t.slots s) b port) :
    ∃ T', T.Forgets timeoutMs nowMs T' ∧ ShowsOn P t' T' := by
  classical
  let keep (key : FlowKey) : Prop := ∃ s, P s ∧ (t'.slots s).Unreaped ∧ (t'.slots s).fwdKey = key
  have hsome {key : FlowKey} {c : Connection} :
      (if keep key then T.conns key else none) = some c ↔ keep key ∧ T.conns key = some c := by
    split_ifs with hkeep
    · exact (and_iff_right hkeep).symm
    · exact iff_of_false nofun fun hconn => hkeep hconn.1
  refine ⟨⟨fun key => if keep key then T.conns key else none,
    fun b => {port | ∃ s, P s ∧ Holds (t'.slots s) b port}⟩, ⟨?_, ?_, ?_, ?_⟩, ⟨?_, ?_, ?_⟩⟩
  · exact fun key c hconn => (hsome.mp hconn).2
  · intro key c hconn hcurrent
    obtain ⟨s, -, hun, rfl, hdescribes⟩ := h.conns key c hconn
    obtain ⟨hs, heq⟩ := hlive s ⟨hun, hdescribes.current_iff.mp hcurrent⟩
    exact hsome.mpr ⟨⟨s, hs, heq.symm ▸ ⟨hun, rfl⟩⟩, hconn⟩
  · rintro b port ⟨s, hs, hport⟩
    exact (h.held b port).mpr ⟨s, trivial, hholds s hs b port hport⟩
  · intro key c hconn
    obtain ⟨⟨s, hs, hun, rfl⟩, hconn⟩ := hsome.mp hconn
    have heq := hsame s hs hun
    rw [heq] at hun hconn
    have hdescribes := h.describes_of_conns trivial hun hconn
    refine ⟨s, hs, ?_⟩
    rw [heq]
    exact ⟨hun.1, hdescribes.backendIdx, hdescribes.snatPort ▸ hport s hun, hdescribes.snatPort⟩
  · intro key c hconn
    obtain ⟨⟨s, hs, hun, rfl⟩, hconn⟩ := hsome.mp hconn
    refine ⟨s, hs, hun, rfl, ?_⟩
    have heq := hsame s hs hun
    rw [heq] at hun hconn ⊢
    exact h.describes_of_conns trivial hun hconn
  · intro s hs hun
    have heq := hsame s hs hun
    obtain ⟨c, hconn, hdescribes⟩ := h.slots s trivial (heq ▸ hun)
    exact ⟨c, hsome.mpr ⟨⟨s, hs, hun, rfl⟩, heq ▸ hconn⟩, heq ▸ hdescribes⟩
  · exact fun b port => Iff.rfl

/-- A key that is not on the scan has no connection. -/
theorem ShowsOn.conns_eq_none {hash : FlowKey → UInt32} (h : ShowsOn P t T)
    (hmap : ForwardMap hash t) (habs : AbsentOnScan hash t key) : T.conns key = none := by
  refine Option.eq_none_iff_forall_ne_some.mpr fun c hconn => ?_
  obtain ⟨s, -, hun, hkey, -⟩ := h.conns key c hconn
  exact hmap.absent habs s ⟨hun, hkey⟩

/-- Only the slots of the account matter. -/
theorem ShowsOn.congr (h : ShowsOn P t T) (hslots : ∀ s, P s → t'.slots s = t.slots s) :
    ShowsOn P t' T where
  conns key c hconn := by
    obtain ⟨s, hs, hslot⟩ := h.conns key c hconn
    exact ⟨s, hs, (hslots s hs).symm ▸ hslot⟩
  slots s hs hun := by
    rw [hslots s hs] at hun ⊢
    exact h.slots s hs hun
  held b port := by
    rw [h.held]
    exact exists_congr fun s => and_congr_right fun hs => by rw [hslots s hs]

/-- What the slots other than `s` stand for, when `s` holds a connection. -/
theorem ShowsOn.drop (h : Shows t T)
    (hunique : ∀ s', (t.slots s').Unreaped → (t.slots s').fwdKey = (t.slots s).fwdKey → s' = s)
    (hinj : ∀ s' b port, Holds (t.slots s') b port → Holds (t.slots s) b port → s' = s)
    (hun : (t.slots s).Unreaped) (hne : (t.slots s).snatPort ≠ 0)
    (hdescribes : c.Describes (t.slots s)) :
    ShowsOn (· ≠ s) t (T.drop (t.slots s).fwdKey c) where
  conns key' c' hconn := by
    have hkey : key' ≠ (t.slots s).fwdKey := by
      rintro rfl
      rw [Tracker.drop_conns, Function.update_self] at hconn
      exact absurd hconn.symm (Option.some_ne_none c')
    rw [Tracker.drop_conns, Function.update_of_ne hkey] at hconn
    obtain ⟨s', -, hun', rfl, hdescribes'⟩ := h.conns key' c' hconn
    exact ⟨s', fun hs => hkey (by rw [hs]), hun', rfl, hdescribes'⟩
  slots s' hs' hun' := by
    obtain ⟨c', hconn, hdescribes'⟩ := h.slots s' trivial hun'
    refine ⟨c', ?_, hdescribes'⟩
    rwa [Tracker.drop_conns, Function.update_of_ne fun hkey => hs' (hunique s' hun' hkey)]
  held b port := by
    have hself : Holds (t.slots s) c.backendIdx c.snatPort :=
      ⟨hun.1, hdescribes.backendIdx, hdescribes.snatPort ▸ hne, hdescribes.snatPort⟩
    have hothers : (∃ s', s' ≠ s ∧ Holds (t.slots s') b port) ↔
        port ∈ T.held b ∧ ¬ Holds (t.slots s) b port := by
      rw [h.held]
      constructor
      · rintro ⟨s', hs', hholds⟩
        exact ⟨⟨s', trivial, hholds⟩, fun hheld => hs' (hinj s' b port hholds hheld)⟩
      · rintro ⟨⟨s', -, hholds⟩, hnot⟩
        exact ⟨s', fun hs => hnot (hs ▸ hholds), hholds⟩
    rw [hothers, Tracker.drop_held]
    by_cases hb : b = c.backendIdx
    · subst hb
      rw [Function.update_self, Set.mem_sdiff, Set.mem_singleton_iff]
      refine and_congr_right fun _ => not_congr ⟨fun hport => hport ▸ hself, fun hholds => ?_⟩
      exact hholds.2.2.2.symm.trans hdescribes.snatPort
    · rw [Function.update_of_ne hb]
      refine (and_iff_left fun hholds => hb ?_).symm
      exact hholds.2.1.symm.trans hdescribes.backendIdx

/-- An entry is put into slot `s` for a connection that is added. -/
theorem ShowsOn.add (h : ShowsOn (· ≠ s) t T) {flow : NatFlow}
    (hslots : t'.slots = Function.update t.slots s flow) (hun : flow.Unreaped)
    (hne : flow.snatPort ≠ 0) (hnone : T.conns flow.fwdKey = none)
    (hdescribes : c.Describes flow) : Shows t' (T.add flow.fwdKey c) where
  conns key' c' hconn := by
    by_cases hkey : key' = flow.fwdKey
    · subst hkey
      rw [Tracker.add_conns, Function.update_self] at hconn
      obtain rfl := Option.some.inj hconn
      refine ⟨s, trivial, ?_⟩
      rw [hslots, Function.update_self]
      exact ⟨hun, rfl, hdescribes⟩
    · rw [Tracker.add_conns, Function.update_of_ne hkey] at hconn
      obtain ⟨s', hs', hslot⟩ := h.conns key' c' hconn
      refine ⟨s', trivial, ?_⟩
      rwa [hslots, Function.update_of_ne hs']
  slots s' _ hun' := by
    by_cases hs' : s' = s
    · subst hs'
      rw [hslots, Function.update_self, Tracker.add_conns, Function.update_self]
      exact ⟨c, rfl, hdescribes⟩
    · rw [hslots, Function.update_of_ne hs'] at hun' ⊢
      obtain ⟨c', hconn, hdescribes'⟩ := h.slots s' hs' hun'
      refine ⟨c', ?_, hdescribes'⟩
      rwa [Tracker.add_conns, Function.update_of_ne]
      exact fun hkey => Option.some_ne_none c' ((hkey ▸ hconn).symm.trans hnone)
  held b port := by
    have hslot : (∃ s', True ∧ Holds (t'.slots s') b port) ↔
        Holds flow b port ∨ port ∈ T.held b := by
      rw [h.held, hslots]
      constructor
      · rintro ⟨s', -, hholds⟩
        by_cases hs' : s' = s
        · subst hs'
          rw [Function.update_self] at hholds
          exact Or.inl hholds
        · rw [Function.update_of_ne hs'] at hholds
          exact Or.inr ⟨s', hs', hholds⟩
      · rintro (hholds | ⟨s', hs', hholds⟩)
        · exact ⟨s, trivial, by rwa [Function.update_self]⟩
        · exact ⟨s', trivial, by rwa [Function.update_of_ne hs']⟩
    have hflow : Holds flow b port ↔ b = c.backendIdx ∧ port = c.snatPort := by
      rw [Holds, hdescribes.backendIdx, hdescribes.snatPort]
      constructor
      · exact fun hholds => ⟨hholds.2.1.symm, hholds.2.2.2.symm⟩
      · rintro ⟨rfl, rfl⟩
        exact ⟨hun.1, rfl, hdescribes.snatPort ▸ hne, rfl⟩
    rw [hslot, hflow, Tracker.add_held]
    by_cases hb : b = c.backendIdx
    · subst hb
      rw [Function.update_self, Set.mem_insert_iff, eq_self_iff_true, true_and]
    · rw [Function.update_of_ne hb, or_iff_right fun hport => hb hport.1]

/-- An entry that is closed is put into slot `s`. -/
theorem ShowsOn.closed (h : ShowsOn (· ≠ s) t T) {flow : NatFlow}
    (hslots : t'.slots = Function.update t.slots s flow) (hreaped : flow.reaped = true)
    (hzero : flow.snatPort = 0) : Shows t' T where
  conns key' c' hconn := by
    obtain ⟨s', hs', hslot⟩ := h.conns key' c' hconn
    refine ⟨s', trivial, ?_⟩
    rwa [hslots, Function.update_of_ne hs']
  slots s' _ hun' := by
    by_cases hs' : s' = s
    · subst hs'
      rw [hslots, Function.update_self] at hun'
      exact Bool.noConfusion (hreaped.symm.trans hun'.2)
    · rw [hslots, Function.update_of_ne hs'] at hun' ⊢
      exact h.slots s' hs' hun'
  held b port := by
    rw [h.held, hslots]
    constructor
    · rintro ⟨s', hs', hholds⟩
      exact ⟨s', trivial, by rwa [Function.update_of_ne hs']⟩
    · rintro ⟨s', -, hholds⟩
      by_cases hs' : s' = s
      · subst hs'
        rw [Function.update_self, Holds, hzero] at hholds
        exact absurd hholds.2.2.2.symm hholds.2.2.1
      · rw [Function.update_of_ne hs'] at hholds
        exact ⟨s', hs', hholds⟩

end NatTable

namespace LbNode

variable {bits : ℕ} {hash : FlowKey → UInt32} {n : LbNode bits} {s : Slot bits} {m : PacketMeta}
  {timeoutMs nowMs : UInt32} {share : Finset UInt16} {T : Tracker} {c : Connection}

/-! ### What a packet leaves of its connection -/

/-- The entry after `MaybeTeardown`. -/
def leftOf (c : Connection) (m : PacketMeta) (flow : NatFlow) : NatFlow :=
  let seen := finBits (c.finsAfter m .forward) (c.finsAfter m .reverse)
  if c.closedBy m then { flow with finSeen := seen, reaped := true, snatPort := 0 }
  else { flow with finSeen := seen }

theorem marked_slots (hseen : (n.nat.slots s).finSeen = finBits (c.fins .forward) (c.fins .reverse))
    (m : PacketMeta) : (n.marked s m).nat.slots = Function.update n.nat.slots s
      { n.nat.slots s with
        finSeen := finBits (c.finsAfter m .forward) (c.finsAfter m .reverse) } := by
  have hbits := finBits_or (c.fins .forward) (c.fins .reverse) m.dir (m.has kTcpFin)
  simp only [Connection.finsAfter, ← hbits, marked]
  split_ifs
  · rw [markFin_slots, hseen]
  · rw [← hseen, Function.update_eq_self]

theorem maybeTeardown_slots (hun : (n.nat.slots s).Unreaped)
    (hseen : (n.nat.slots s).finSeen = finBits (c.fins .forward) (c.fins .reverse))
    (m : PacketMeta) : (n.maybeTeardown s m).nat.slots =
      Function.update n.nat.slots s (leftOf c m (n.nat.slots s)) := by
  have hdef : n.maybeTeardown s m =
      if m.has kTcpRst || (m.has kTcpFin && decide (((n.marked s m).nat.slots s).finSeen =
          finBit .forward ||| finBit .reverse)) then (n.marked s m).teardown s
      else n.marked s m := rfl
  have hmarked := marked_slots hseen m
  have hcond : (m.has kTcpRst || (m.has kTcpFin && decide (((n.marked s m).nat.slots s).finSeen =
      finBit .forward ||| finBit .reverse))) = c.closedBy m := by
    rw [Connection.closedBy, hmarked, Function.update_self]
    refine congrArg (m.has kTcpRst || m.has kTcpFin && ·) (Bool.eq_iff_iff.mpr ?_)
    rw [decide_eq_true_eq, finBits_eq_both, Bool.and_eq_true]
  rw [hdef, hcond, leftOf]
  split_ifs
  · have hunmarked : ((n.marked s m).nat.slots s).Unreaped := by
      rw [hmarked, Function.update_self]
      exact hun
    rw [teardown_slots hunmarked, hmarked, Function.update_self, Function.update_idem]
  · exact hmarked

/-- The packet of a connection leaves of it what the tracker leaves of it. -/
theorem shows_settle (c : Connection) (nowMs : UInt32) (h : ShowsOn (· ≠ s) n.nat T)
    (hun : (n.nat.slots s).Unreaped) (hne : (n.nat.slots s).snatPort ≠ 0)
    (hnone : T.conns (n.nat.slots s).fwdKey = none)
    (hdescribes : ({ c with lastSeenMs := nowMs } : Connection).Describes (n.nat.slots s))
    (m : PacketMeta) :
    Shows (n.maybeTeardown s m).nat (T.settle (n.nat.slots s).fwdKey c m nowMs) := by
  have hslots := maybeTeardown_slots hun hdescribes.finSeen m
  rw [Tracker.settle]
  rw [leftOf] at hslots
  cases hclosed : c.closedBy m with
  | true =>
    rw [if_pos (show Connection.closedBy { c with lastSeenMs := nowMs } m = true from hclosed)]
      at hslots
    rw [if_pos rfl]
    exact h.closed hslots rfl rfl
  | false =>
    rw [if_neg (show ¬ Connection.closedBy { c with lastSeenMs := nowMs } m = true from
      Bool.eq_false_iff.mp hclosed)] at hslots
    rw [if_neg Bool.false_ne_true]
    have hafter : (c.after m nowMs).Describes { n.nat.slots s with
        finSeen := finBits (c.finsAfter m .forward) (c.finsAfter m .reverse) } :=
      ⟨hdescribes.clientMac, hdescribes.backend, hdescribes.backendIdx, hdescribes.snatPort,
        hdescribes.lastSeenMs, rfl⟩
    have hadd := h.add hslots hun hne hnone hafter
    exact hadd

/-! ### The simulation -/

/-- The node keeps its invariants, and its table stands for the state of the tracker. -/
structure Tracked (hash : FlowKey → UInt32) (share : Finset UInt16) (timeoutMs : UInt32)
    (n : LbNode bits) (T : Tracker) : Prop where
  timeoutMs_eq : n.nat.timeoutMs = timeoutMs
  map : ForwardMap hash n.nat
  ports : n.PortsConserved share
  holds : n.HoldsPort
  shows : Shows n.nat T

/-- A packet keeps the invariants of the node. -/
theorem Tracked.of_shows (h : n.Tracked hash share timeoutMs T) (a : Arrival) {T' : Tracker}
    (hshows : Shows (arrive hash n a).1.nat T') :
    (arrive hash n a).1.Tracked hash share timeoutMs T' := by
  cases husable : a.usable with
  | none =>
    rw [arrive_of_not_usable hash n husable] at hshows ⊢
    exact ⟨h.timeoutMs_eq, h.map, h.ports, h.holds, hshows⟩
  | some pool =>
    have hactive := (Arrival.usable_eq_some.mp husable).2
    have hsteps : Steps hash pool a.nowMs a.packet n (arrive hash n a).1 := arrive_steps n husable
    have hinv : (arrive hash n a).1.nat.timeoutMs = timeoutMs ∧
        ForwardMap hash (arrive hash n a).1.nat ∧ (arrive hash n a).1.PortsConserved share ∧
        (arrive hash n a).1.HoldsPort := by
      refine hsteps.rec ⟨h.timeoutMs_eq, h.map, h.ports, h.holds⟩ fun _ hstep ih => ?_
      exact ⟨hstep.timeoutMs_eq.trans ih.1, forwardMap_step ih.2.1 hstep,
        portsConserved_step ih.2.2.1 hstep, holdsPort_step hactive ih.2.2.2 hstep⟩
    exact ⟨hinv.1, hinv.2.1, hinv.2.2.1, hinv.2.2.2, hshows⟩

/-- Reaping is forgetting. -/
theorem Tracked.reaps (h : n.Tracked hash share timeoutMs T) {t : NatTable bits}
    (hreaps : Reaps nowMs n.nat t) : ∃ T₁, T.Forgets timeoutMs nowMs T₁ ∧
      ({ n with nat := t } : LbNode bits).Tracked hash share timeoutMs T₁ := by
  obtain ⟨T₁, hforgets, hshows⟩ := h.shows.forget (fun s hun => (h.holds s hun).1)
    (fun s _ => hreaps.slots_eq_of_unreaped)
    (fun s hlive => ⟨trivial, hreaps.slots_eq_of_live (h.timeoutMs_eq ▸ hlive)⟩)
    (fun s _ b port => hreaps.holds)
  have hports : ({ n with nat := t } : LbNode bits).PortsConserved share :=
    (quietSteps_of_reaps hreaps).rec h.ports fun _ hstep ih b hb =>
      (free_add_heldPorts_quietStep hstep b).trans (ih b hb)
  refine ⟨T₁, hforgets, hreaps.timeoutMs_eq.trans h.timeoutMs_eq, h.map.reaps hreaps, hports,
    fun s hun => ?_, hshows⟩
  have heq : t.slots s = n.nat.slots s := hreaps.slots_eq_of_unreaped hun
  rw [show ({ n with nat := t } : LbNode bits).nat.slots s = t.slots s from rfl, heq] at hun ⊢
  exact h.holds s hun

/-- A packet of the connection in slot `s`. -/
theorem Tracked.hit {t : NatTable bits}
    (h : ({ n with nat := t } : LbNode bits).Tracked hash share timeoutMs T)
    (hlive : (t.slots s).Live t.timeoutMs nowMs) (m : PacketMeta) :
    ∃ c, T.conns (t.slots s).fwdKey = some c ∧ c.Current timeoutMs nowMs ∧
      c.Describes (t.slots s) ∧
      Shows (({ n with nat := t.touch s nowMs } : LbNode bits).maybeTeardown s m).nat
        ((T.drop (t.slots s).fwdKey c).settle (t.slots s).fwdKey c m nowMs) := by
  have hun := hlive.1
  obtain ⟨c, hconn, hdescribes⟩ := h.shows.slots s trivial hun
  obtain ⟨hne, hidx⟩ := h.holds s hun
  have htimeout : t.timeoutMs = timeoutMs := h.timeoutMs_eq
  refine ⟨c, hconn, hdescribes.current_iff.mpr (htimeout ▸ hlive.2), hdescribes, ?_⟩
  have hothers : ShowsOn (· ≠ s) t (T.drop (t.slots s).fwdKey c) := by
    refine h.shows.drop (fun s' hun' hkey => h.map.unique s' s hun' hun hkey) ?_ hun hne hdescribes
    intro s' b port hholds' hholds
    refine (h.ports.snatPort_inj hholds.1 hholds'.1 (hholds.2.1.trans hholds'.2.1.symm) hidx hne
      (hholds.2.2.2.trans hholds'.2.2.2.symm)).symm
  have hself : (t.touch s nowMs).slots s = { t.slots s with lastSeenMs := nowMs } := by
    rw [touch_slots, Function.update_self]
  have hsettle := shows_settle (n := { n with nat := t.touch s nowMs }) c nowMs
    (hothers.congr fun s' hs' => ?_) ?_ ?_ ?_ ?_ m
  · rw [hself] at hsettle
    exact hsettle
  · rw [touch_slots, Function.update_of_ne hs']
  · rw [hself]
    exact hun
  · rw [hself]
    exact hne
  · rw [hself]
    exact Function.update_self ..
  · rw [hself]
    exact ⟨hdescribes.clientMac, hdescribes.backend, hdescribes.backendIdx, hdescribes.snatPort,
      rfl, hdescribes.finSeen⟩

/-- A packet that opens a connection in slot `s`. -/
theorem Tracked.opens (h : n.Tracked hash share timeoutMs T) {pool : BackendPool}
    (hactive : pool.activeCount ≠ 0) {t : NatTable bits} (hreaps : Reaps nowMs n.nat t)
    (hopens : Opens hash { n with nat := t } pool nowMs m s) :
    let port := n.nextPort hash pool m
    let c := Connection.opened hash pool m port nowMs
    ∃ T₁, T.Forgets timeoutMs nowMs T₁ ∧ T₁.conns m.flowKey = none ∧ port ∈ share ∧
      port ∉ T₁.held (pool.select hash m.flowKey) ∧
      Shows ((openAt hash { n with nat := t } (newFlow hash m pool port) s nowMs).maybeTeardown
        s m).nat (T₁.settle m.flowKey c m nowMs) := by
  intro port c
  have hb : (pool.select hash m.flowKey).toNat < kMaxBackends :=
    (BackendPool.select_lt hash m.flowKey hactive).trans_le pool.length_slots_le
  obtain ⟨_, _, htracked⟩ := h.reaps hreaps
  have hlive (s' : Slot bits) (hs' : (n.nat.slots s').Live timeoutMs nowMs) :
      s' ≠ s ∧ t.slots s' = n.nat.slots s' := by
    rw [← h.timeoutMs_eq] at hs'
    refine ⟨?_, hreaps.slots_eq_of_live hs'⟩
    rintro rfl
    exact hopens.dead ((hreaps.live_iff s').mpr hs')
  -- the victim is forgotten together with the reaped entries
  obtain ⟨T₁, hforgets, hshows⟩ := h.shows.forget (P := (· ≠ s))
    (fun s' hun => (h.holds s' hun).1) (fun s' _ => hreaps.slots_eq_of_unreaped) hlive
    (fun s' _ b port => hreaps.holds)
  have hnone : T₁.conns m.flowKey = none :=
    hshows.conns_eq_none (h.map.reaps hreaps) hopens.absent
  have hfree : port ∈ n.freePorts (pool.select hash m.flowKey) := by
    rw [freePorts, PortPool.free_eq_cons_acquire hopens.port_ne_zero]
    exact Multiset.mem_coe.mpr List.mem_cons_self
  have hports := htracked.ports _ hb
  refine ⟨T₁, hforgets, hnone, ?_, ?_, ?_⟩
  · rw [← Finset.mem_val, ← hports]
    exact Multiset.mem_add.mpr (Or.inl hfree)
  · intro hheld
    obtain ⟨s', -, hocc, hidx, hne, hport⟩ := (hshows.held _ _).mp hheld
    have hmem : port ∈ t.heldPorts (pool.select hash m.flowKey) :=
      mem_heldPorts.mpr ⟨s', hocc, hidx, hne, hport⟩
    have hdisjoint := Multiset.nodup_add.mp (hports ▸ share.nodup)
    exact Multiset.disjoint_left.mp hdisjoint.2.2 hfree hmem
  · have hslots := openAt_slots hash { n with nat := t } (newFlow hash m pool port) s nowMs
    have hself : (openAt hash { n with nat := t } (newFlow hash m pool port) s nowMs).nat.slots s =
        { newFlow hash m pool port with occupied := true, lastSeenMs := nowMs } := by
      rw [hslots, Function.update_self]
    have hsettle := shows_settle
      (n := openAt hash { n with nat := t } (newFlow hash m pool port) s nowMs) c nowMs
      (hshows.congr fun s' hs' => ?_) ?_ ?_ ?_ ?_ m
    · rw [hself] at hsettle
      exact hsettle
    · rw [hslots, Function.update_of_ne hs']
    · rw [hself]
      exact ⟨rfl, rfl⟩
    · rw [hself]
      exact hopens.port_ne_zero
    · rw [hself]
      exact hnone
    · rw [hself]
      exact ⟨rfl, rfl, rfl, rfl, rfl, show (0 : UInt8) = finBits false false by decide⟩

/-- A table in which every slot is live is full. -/
theorem Tracked.full (h : n.Tracked hash share timeoutMs T)
    (hall : ∀ s, (n.nat.slots s).Live n.nat.timeoutMs nowMs) :
    T.Full (2 ^ bits) timeoutMs nowMs := by
  have hinj : Function.Injective fun s => (n.nat.slots s).fwdKey :=
    fun s s' => h.map.unique s s' (hall s).1 (hall s').1
  refine ⟨Finset.univ.image fun s => (n.nat.slots s).fwdKey, ?_, fun key hkey => ?_⟩
  · rw [Finset.card_image_of_injective _ hinj, Finset.card_univ, Fintype.card_fin]
  · obtain ⟨s, -, rfl⟩ := Finset.mem_image.mp hkey
    obtain ⟨c, hconn, hdescribes⟩ := h.shows.slots s trivial (hall s).1
    exact ⟨c, hconn, hdescribes.current_iff.mpr (h.timeoutMs_eq ▸ (hall s).2)⟩

/-- The node as a system whose labels are the packets with what becomes of them. -/
def system (hash : FlowKey → UInt32) (bits : ℕ) (timeoutMs : UInt32)
    (workerId nWorkers : UInt16) : System (LbNode bits) (Arrival × Bool × PacketMeta) where
  init := init bits timeoutMs workerId nWorkers
  step n label n' := arrive hash n label.1 = (n', label.2)

/-- Every packet is handled as the tracker may handle it. -/
theorem Tracked.step (h : n.Tracked hash share timeoutMs T) (a : Arrival) :
    ∃ T', Tracker.Step hash share (2 ^ bits) timeoutMs T (a, (arrive hash n a).2) T' ∧
      (arrive hash n a).1.Tracked hash share timeoutMs T' := by
  suffices hstep : ∃ T',
      Tracker.Step hash share (2 ^ bits) timeoutMs T (a, (arrive hash n a).2) T' ∧
        Shows (arrive hash n a).1.nat T' by
    obtain ⟨T', hstep, hshows⟩ := hstep
    exact ⟨T', hstep, h.of_shows a hshows⟩
  cases husable : a.usable with
  | none =>
    rw [arrive_of_not_usable hash n husable]
    exact ⟨T, .idle husable, h.shows⟩
  | some pool =>
    have hactive := (Arrival.usable_eq_some.mp husable).2
    rw [arrive_of_usable hash n husable]
    have hout := handlePacket_outcome hash n pool a.nowMs a.packet
    generalize handlePacket hash n pool a.nowMs a.packet = r at hout
    cases hout with
    | @forward t s hdir hreaps hlive hkey =>
      obtain ⟨T₁, hforgets, htracked⟩ := h.reaps hreaps
      obtain ⟨c, hconn, hcurrent, hdescribes, hshows⟩ := htracked.hit hlive a.packet
      have hmeta : (forwardVia { n with nat := t.touch s a.nowMs } s a.packet).2 =
          (true, c.toBackend a.packet) := by
        rw [forwardVia, ← hdescribes.toBackend_eq, touch_slots, Function.update_self]
        rfl
      rw [hkey] at hconn hshows
      rw [hmeta]
      exact ⟨_, .forward husable hforgets hdir hconn hcurrent, hshows⟩
    | @opened t s hdir hreaps hmay hopens =>
      obtain ⟨T₁, hforgets, hconn, hshare, hfree, hshows⟩ := h.opens hactive hreaps hopens
      have hmeta : (forwardVia (openAt hash { n with nat := t }
          (newFlow hash a.packet pool (n.nextPort hash pool a.packet)) s a.nowMs) s a.packet).2 =
          (true, (Connection.opened hash pool a.packet (n.nextPort hash pool a.packet)
            a.nowMs).toBackend a.packet) := by
        rw [forwardVia, openAt_slots, Function.update_self]
        rfl
      rw [hmeta]
      exact ⟨_, .opens husable hforgets hdir hmay hconn hshare hfree, hshows⟩
    | @refused t hdir hreaps habs hwhy =>
      obtain ⟨T₁, hforgets, htracked⟩ := h.reaps hreaps
      have hconn := htracked.shows.conns_eq_none htracked.map habs
      refine ⟨T₁, .refused husable hforgets hdir hconn ?_, htracked.shows⟩
      obtain hmay | hport | ⟨-, hall⟩ := hwhy
      · exact Or.inl hmay
      · have hb : (pool.select hash a.packet.flowKey).toNat < kMaxBackends :=
          (BackendPool.select_lt hash a.packet.flowKey hactive).trans_le pool.length_slots_le
        have hheld := (htracked.ports.free_eq_nil_iff hb).mp (PortPool.acquire_fst_eq_zero.mp hport)
        exact Or.inr (Or.inl fun port hmem => htracked.shows.mem_held_iff.mpr (hheld port hmem))
      · exact Or.inr (Or.inr (htracked.full hall))
    | @reverse t i s hdir hreaps hi hcell hans hfirst =>
      obtain ⟨T₁, hforgets, htracked⟩ := h.reaps hreaps
      obtain ⟨hlive, hkey⟩ := hreaps.answers_iff.mpr hans
      obtain ⟨c, hconn, hcurrent, hdescribes, hshows⟩ := htracked.hit hlive a.packet
      have hmeta : (reverseVia { n with nat := t.touch s a.nowMs } s a.packet).2 =
          (true, c.toClient (t.slots s).fwdKey a.packet) := by
        rw [reverseVia, ← hdescribes.toClient_eq, touch_slots, Function.update_self]
        rfl
      rw [hmeta]
      exact ⟨_, .reverse husable hforgets hdir hconn hcurrent (hdescribes.replyKey_eq.trans hkey),
        hshows⟩
    | @unknown t hdir hreaps hnone =>
      obtain ⟨T₁, hforgets, htracked⟩ := h.reaps hreaps
      exact ⟨T₁, .unknown husable hforgets hdir, htracked.shows⟩

theorem tracked_init (hash : FlowKey → UInt32) (bits : ℕ) (timeoutMs : UInt32)
    (workerId nWorkers : UInt16) : (init bits timeoutMs workerId nWorkers).Tracked hash
      (portShare workerId nWorkers) timeoutMs {} where
  timeoutMs_eq := rfl
  map := forwardMap_empty timeoutMs
  ports := portsConserved_init bits timeoutMs workerId nWorkers
  holds _ hun := Bool.noConfusion hun.1
  shows :=
    ⟨fun _ c hconn => absurd hconn.symm (Option.some_ne_none c),
      fun _ _ hun => Bool.noConfusion hun.1,
      fun _ _ => iff_of_false id fun ⟨_, _, hholds⟩ => Bool.noConfusion hholds.1⟩

/-- The connection tracker simulates the node. -/
theorem simulates_tracker (hash : FlowKey → UInt32) (bits : ℕ) (timeoutMs : UInt32)
    (workerId nWorkers : UInt16) :
    Simulates (system hash bits timeoutMs workerId nWorkers)
      (Tracker.system hash (portShare workerId nWorkers) (2 ^ bits) timeoutMs)
      (fun label label' => label = label')
      (Tracked hash (portShare workerId nWorkers) timeoutMs) where
  init := tracked_init hash bits timeoutMs workerId nWorkers
  step := by
    rintro n T ⟨a, verdict⟩ n' htracked hstep
    obtain ⟨rfl, rfl⟩ := Prod.mk.inj (show arrive hash n a = (n', verdict) from hstep)
    obtain ⟨T', hstep', htracked'⟩ := htracked.step a
    exact ⟨_, T', rfl, hstep', htracked'⟩

/-! ### Whole runs -/

/-- The packets of a run with what becomes of them. -/
def outcomes (hash : FlowKey → UInt32) (n : LbNode bits) (as : List Arrival) :
    List (Arrival × Bool × PacketMeta) :=
  as.zip (verdicts hash n as)

theorem outcomes_concat (n : LbNode bits) (as : List Arrival) (a : Arrival) :
    outcomes hash n (as ++ [a]) =
      outcomes hash n as ++ [(a, (arrive hash (run hash n as) a).2)] := by
  induction as generalizing n with
  | nil => rfl
  | cons b as ih =>
    simp only [outcomes, List.cons_append, verdicts, List.zip_cons_cons, run_cons] at ih ⊢
    rw [ih]

theorem exec_outcomes (hash : FlowKey → UInt32) (bits : ℕ) (timeoutMs : UInt32)
    (workerId nWorkers : UInt16) (as : List Arrival) :
    Exec (system hash bits timeoutMs workerId nWorkers)
      (outcomes hash (init bits timeoutMs workerId nWorkers) as)
      (run hash (init bits timeoutMs workerId nWorkers) as) := by
  induction as using List.reverseRecOn with
  | nil => exact .nil
  | append_singleton as a ih =>
    rw [outcomes_concat, run_append]
    exact ih.snoc rfl

/-- Whatever arrives at the node, in whatever order and at whatever times, all that becomes of the
packets is what the connection tracker may do with them, and the table that results stands for the
connections and held ports of the tracker. -/
theorem refines_tracker (hash : FlowKey → UInt32) (bits : ℕ) (timeoutMs : UInt32)
    (workerId nWorkers : UInt16) (as : List Arrival) :
    ∃ T, Exec (Tracker.system hash (portShare workerId nWorkers) (2 ^ bits) timeoutMs)
        (outcomes hash (init bits timeoutMs workerId nWorkers) as) T ∧
      Shows (run hash (init bits timeoutMs workerId nWorkers) as).nat T := by
  obtain ⟨labels, T, hlabels, hexec, htracked⟩ :=
    (simulates_tracker hash bits timeoutMs workerId nWorkers).exec (exec_outcomes ..)
  rw [List.forall₂_eq_eq_eq] at hlabels
  obtain rfl := hlabels
  exact ⟨T, hexec, htracked.shows⟩

end LbNode

end Cerebellum
