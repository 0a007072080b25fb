import Cerebellum.Nodes.ForwardMap
import Cerebellum.Nodes.ReplyTuples

/-!
# Reply packets find their flows

A reply is looked up through `rev`, whose cells are given to another slot only when the entry they
point to is dead. A cell that still points to a slot after the slot was taken over by a new flow
looks as live as that flow, so the same connection, opened and closed again and again, can use up
all cells. `IndexReverse` then gives up without a word, and the flow just opened cannot be found by
its replies.

As long as each opening finds room in `rev`, every live flow has a cell on the scan of its reply
tuple, and no two live flows have the same reply tuple, so that a reverse lookup finds exactly the
flow that the reply belongs to.

## Main definitions

* `Cerebellum.LbNode.Orderly`: the clock never goes back and the backends keep their slots.
* `Cerebellum.LbNode.FindsReplies`: every live flow is found by its reply tuple.
* `Cerebellum.LbNode.IndexHasRoom`: the packet opens no flow, or the flow has a cell to go to.

## Main results

* `Cerebellum.LbNode.findsReplies_iff_indexHasRoom`: replies find their flows in every state of a
  run exactly when every packet of the run meets `IndexHasRoom`.
-/

open Probing

namespace Cerebellum

open NatTable

namespace LbNode

variable {bits : ℕ} {hash : FlowKey → UInt32} {pool : BackendPool} {nowMs : UInt32}
  {m : PacketMeta}

/-! ### The property and its condition -/

/-- The pools of the run keep the backends in their slots, and the clock never goes back. -/
structure Orderly (backends : List BackendInfo) (as : List Arrival) : Prop
    extends StableBackends backends as where
  clock : as.Pairwise fun a a' => a.nowMs ≤ a'.nowMs

/-- `LookupReverse` with the reply tuple of the flow in slot `s` returns that flow. -/
def FoundByReply (hash : FlowKey → UInt32) (t : NatTable bits) (nowMs : UInt32) (s : Slot bits) :
    Prop :=
  (t.lookupReverse hash (t.slots s).backendIp (t.slots s).backendPort (t.slots s).snatPort
    (t.slots s).fwdKey.proto nowMs).2 = some s

/-- Every flow that is live at `nowMs` is found by its reply tuple. -/
def FindsReplies (hash : FlowKey → UInt32) (t : NatTable bits) (nowMs : UInt32) : Prop :=
  ∀ s, (t.slots s).Live t.timeoutMs nowMs → FoundByReply hash t nowMs s

/-- If `CreateFlow` reports success for the packet, then the flow it has inserted is found by its
reply tuple. -/
def InsertedIsFound (hash : FlowKey → UInt32) (n : LbNode bits) (a : Arrival) : Prop :=
  ∀ pool, a.usable = some pool → n.NeedsFlow a.nowMs a.packet → ∀ n' s,
    createFlow hash { n with nat := (n.nat.lookupForward hash a.packet.flowKey a.nowMs).1 }
      a.packet pool a.nowMs = (n', some s) → FoundByReply hash n'.nat a.nowMs s

/-- The packet needs a new flow, there is a port for it, and `s` is the first slot of the scan of
its key that is not live. -/
structure OpensIn (hash : FlowKey → UInt32) (n : LbNode bits) (pool : BackendPool) (nowMs : UInt32)
    (m : PacketMeta) (s : Slot bits) : Prop where
  needsFlow : n.NeedsFlow nowMs m
  port : (n.portPools (pool.select hash m.flowKey)).free ≠ []
  dead : ¬ (n.nat.slots s).Live n.nat.timeoutMs nowMs
  first : ∃ i < 2 ^ bits, s = probeAt (home (hash m.flowKey)) i ∧
    ∀ j < i, (n.nat.slots (probeAt (home (hash m.flowKey)) j)).Live n.nat.timeoutMs nowMs

/-- If the packet opens a flow, in slot `s` say, then some cell of `rev` is empty, or points to `s`,
or points to a slot that is not live. -/
def IndexHasRoom (hash : FlowKey → UInt32) (n : LbNode bits) (a : Arrival) : Prop :=
  ∀ pool, a.usable = some pool → ∀ s, OpensIn hash n pool a.nowMs a.packet s →
    ∃ cell, ∀ p, n.nat.rev cell = some p →
      p = s ∨ ¬ (n.nat.slots p).Live n.nat.timeoutMs a.nowMs

/-! ### Where a packet opens a flow -/

theorem Opens.opensIn {n : LbNode bits} {t : NatTable bits} {m : PacketMeta} {s : Slot bits}
    (hmap : ForwardMap hash n.nat) (hreaps : Reaps nowMs n.nat t) (hdir : m.dir = .forward)
    (hmay : MayOpen m) (h : Opens hash { n with nat := t } pool nowMs m s) :
    OpensIn hash n pool nowMs m s where
  needsFlow := by
    refine ⟨hdir, hmay, ?_⟩
    rintro ⟨c, hlive, hkey⟩
    have heq := hreaps.slots_eq_of_live hlive
    exact (hmap.reaps hreaps).absent h.absent c ⟨heq.symm ▸ hlive.1, heq.symm ▸ hkey⟩
  port := PortPool.acquire_fst_eq_zero.not.mp h.port_ne_zero
  dead := (hreaps.live_iff s).not.mp h.dead
  first := by
    obtain ⟨i, hi, hs, hbefore⟩ := h.first
    exact ⟨i, hi, hs, fun j hj => (hreaps.live_iff _).mp (hbefore j hj)⟩

/-- The first slot of the scan that is not live is unique. -/
theorem OpensIn.eq {n : LbNode bits} {m : PacketMeta} {s s' : Slot bits}
    (h : OpensIn hash n pool nowMs m s) (h' : OpensIn hash n pool nowMs m s') : s = s' := by
  obtain ⟨i, -, hs, hbefore⟩ := h.first
  obtain ⟨i', -, hs', hbefore'⟩ := h'.first
  rcases lt_trichotomy i i' with hlt | rfl | hgt
  · exact absurd (hs ▸ hbefore' i hlt) h.dead
  · exact hs.trans hs'.symm
  · exact absurd (hs' ▸ hbefore i' hgt) h'.dead

/-- A packet that needs a flow opens one, if there is a port and a slot that is not live. -/
theorem NeedsFlow.exists_opensIn {n : LbNode bits} {m : PacketMeta} (h : n.NeedsFlow nowMs m)
    (hport : (n.portPools (pool.select hash m.flowKey)).free ≠ []) {c : Slot bits}
    (hc : ¬ (n.nat.slots c).Live n.nat.timeoutMs nowMs) : ∃ s, OpensIn hash n pool nowMs m s := by
  have hex : ∃ i, i < 2 ^ bits ∧
      ¬ (n.nat.slots (probeAt (home (hash m.flowKey)) i)).Live n.nat.timeoutMs nowMs := by
    obtain ⟨i, hi, rfl⟩ := exists_probeAt_eq (home (hash m.flowKey)) c
    exact ⟨i, hi, hc⟩
  obtain ⟨hi, hdead⟩ := Nat.find_spec hex
  refine ⟨_, h, hport, hdead, Nat.find hex, hi, rfl, fun j hj => ?_⟩
  by_contra hlive
  exact Nat.find_min hex hj ⟨hj.trans hi, hlive⟩

/-- The first packet that may open a flow opens one. -/
theorem exists_opensIn_init (hash : FlowKey → UInt32) (bits : ℕ) (timeoutMs : UInt32)
    (backend : BackendInfo) (nowMs : UInt32) {m : PacketMeta} (hdir : m.dir = .forward)
    (hmay : MayOpen m) :
    ∃ s, OpensIn hash (init bits timeoutMs 0 1) (.single backend) nowMs m s := by
  have hempty (c : Slot bits) : ¬ ((init bits timeoutMs 0 1).nat.slots c).Live
      (init bits timeoutMs 0 1).nat.timeoutMs nowMs := fun hlive => Bool.noConfusion hlive.1.1
  have hport : ((init bits timeoutMs 0 1).portPools
      ((BackendPool.single backend).select hash m.flowKey)).free ≠ [] := fun hnil => by
    have hlength := PortPool.length_forWorker_zero_one
    rw [BackendPool.select_single, init_portPools (by decide)] at hnil
    rw [hnil] at hlength
    exact absurd hlength (by decide)
  have hneeds : (init bits timeoutMs 0 1).NeedsFlow nowMs m :=
    ⟨hdir, hmay, fun ⟨c, hlive, _⟩ => hempty c hlive⟩
  exact hneeds.exists_opensIn hport (hempty ⟨0, Nat.two_pow_pos bits⟩)

/-- A packet for which `OpensIn` holds opens its flow. -/
theorem OpensIn.createFlow_eq {n : LbNode bits} {m : PacketMeta} {s : Slot bits}
    (h : OpensIn hash n pool nowMs m s) (hmap : ForwardMap hash n.nat) :
    ∃ t, Reaps nowMs n.nat t ∧ n.nat.lookupForward hash m.flowKey nowMs = (t, none) ∧
      createFlow hash { n with nat := t } m pool nowMs =
        (openAt hash { n with nat := t } (newFlow hash m pool (n.nextPort hash pool m)) s nowMs,
          some s) := by
  obtain ⟨t, hreaps, ⟨c, -, hlive, hkey⟩ | ⟨hfound, habs⟩⟩ :=
    lookupForward_spec hash n.nat m.flowKey nowMs
  · have heq := hreaps.slots_eq_of_unreaped hlive.1
    exact absurd ⟨c, (hreaps.live_iff c).mp hlive, heq ▸ hkey⟩ h.needsFlow.noFlow
  refine ⟨t, hreaps, hfound, ?_⟩
  rcases createFlow_spec hash { n with nat := t } m pool nowMs habs with
    ⟨c, hopens, hcreate⟩ | ⟨hport | ⟨-, hfull⟩, -⟩
  · rwa [h.eq (hopens.opensIn hmap hreaps h.needsFlow.forward h.needsFlow.mayOpen)]
  · exact absurd (PortPool.acquire_fst_eq_zero.mp hport) h.port
  · exact absurd ((hreaps.live_iff s).mp (hfull s)) h.dead

/-- What `HandlePacket` does with such a packet. -/
theorem OpensIn.handlePacket_eq {n : LbNode bits} {m : PacketMeta} {s : Slot bits}
    (h : OpensIn hash n pool nowMs m s) (hmap : ForwardMap hash n.nat) :
    ∃ t, Reaps nowMs n.nat t ∧ handlePacket hash n pool nowMs m = forwardVia
      (openAt hash { n with nat := t } (newFlow hash m pool (n.nextPort hash pool m)) s nowMs)
      s m := by
  have hout := handlePacket_outcome hash n pool nowMs m
  generalize handlePacket hash n pool nowMs m = r at hout
  cases hout with
  | @forward t c hdir hreaps hlive hkey =>
    have heq := hreaps.slots_eq_of_unreaped hlive.1
    exact absurd ⟨c, (hreaps.live_iff c).mp hlive, heq ▸ hkey⟩ h.needsFlow.noFlow
  | @opened t c hdir hreaps hmay hopens =>
    exact ⟨t, hreaps, by rw [h.eq (hopens.opensIn hmap hreaps hdir hmay)]⟩
  | @refused t hdir hreaps habs hwhy =>
    rcases hwhy with hmay | hport | ⟨-, hfull⟩
    · exact absurd h.needsFlow.mayOpen hmay
    · exact absurd (PortPool.acquire_fst_eq_zero.mp hport) h.port
    · exact absurd ((hreaps.live_iff s).mp (hfull s)) h.dead
  | reverse hdir => exact absurd (hdir.symm.trans h.needsFlow.forward) (by decide)
  | unknown hdir => exact absurd (hdir.symm.trans h.needsFlow.forward) (by decide)

/-- The state after such a packet, if it has neither FIN nor RST. -/
theorem OpensIn.arrive_fst_eq {n : LbNode bits} {a : Arrival} {s : Slot bits}
    (h : OpensIn hash n pool a.nowMs a.packet s) (hmap : ForwardMap hash n.nat)
    (husable : a.usable = some pool) (hfin : a.packet.has kTcpFin = false)
    (hrst : a.packet.has kTcpRst = false) :
    ∃ t, Reaps a.nowMs n.nat t ∧ (arrive hash n a).1 = openAt hash { n with nat := t }
      (newFlow hash a.packet pool (n.nextPort hash pool a.packet)) s a.nowMs := by
  obtain ⟨t, hreaps, heq⟩ := h.handlePacket_eq hmap
  refine ⟨t, hreaps, ?_⟩
  rw [arrive_of_usable hash n husable, heq, forwardVia, maybeTeardown_of_not_has _ _ hfin hrst]

/-! ### The invariant of the reverse index -/

/-- Some cell on the scan of the reply tuple of slot `s` points to `s`, and no cell before it is
empty. -/
def OnReplyScan (hash : FlowKey → UInt32) (t : NatTable bits) (s : Slot bits) : Prop :=
  ∃ i < 2 ^ bits, t.rev (probeAt (home (hash (t.slots s).revKey)) i) = some s ∧
    ∀ j < i, t.rev (probeAt (home (hash (t.slots s).revKey)) j) ≠ none

theorem update_some_ne_none {rev : Slot bits → Option (Slot bits)} {cell k s : Slot bits}
    (h : rev cell ≠ none) : Function.update rev k (some s) cell ≠ none := by
  rcases eq_or_ne cell k with rfl | hne
  · rw [Function.update_self]
    exact Option.some_ne_none s
  · rwa [Function.update_of_ne hne]

/-- Indexing a slot leaves the cells of live flows alone. -/
theorem onReplyScan_indexReverse_of_live {t : NatTable bits} {c : Slot bits}
    (hlive : (t.slots c).Live t.timeoutMs nowMs) (h : OnReplyScan hash t c) (s : Slot bits) :
    OnReplyScan hash (t.indexReverse hash s nowMs) c := by
  obtain ⟨k, hk, hcell, hbefore⟩ := h
  rcases indexReverse_spec hash t s nowMs with ⟨i, -, hfree, -, heq⟩ | ⟨-, heq⟩
  · rw [heq]
    refine ⟨k, hk, ?_, fun j hj => update_some_ne_none (hbefore j hj)⟩
    have hne : probeAt (home (hash (t.slots c).revKey)) k ≠
        probeAt (home (hash (t.slots s).revKey)) i :=
      fun hsame => hfree (hsame ▸ ⟨c, hcell, hlive⟩)
    exact (Function.update_of_ne hne _ _).trans hcell
  · rw [heq]
    exact ⟨k, hk, hcell, hbefore⟩

theorem indexReverse_of_busy {t : NatTable bits} (h : ∀ cell, t.Busy nowMs cell) (s : Slot bits) :
    t.indexReverse hash s nowMs = t := by
  rcases indexReverse_spec hash t s nowMs with ⟨i, -, hfree, -⟩ | ⟨-, heq⟩
  · exact absurd (h _) hfree
  · exact heq

/-- Indexing a slot gives it a cell, unless every cell points to another live slot. -/
theorem onReplyScan_indexReverse_self {t : NatTable bits} {s : Slot bits}
    (hroom : ∃ cell, ∀ p, t.rev cell = some p → p = s ∨ ¬ (t.slots p).Live t.timeoutMs nowMs) :
    OnReplyScan hash (t.indexReverse hash s nowMs) s := by
  have hbusy {cell : Slot bits} (h : t.Busy nowMs cell) : t.rev cell ≠ none := by
    obtain ⟨p, hp, -⟩ := h
    rw [hp]
    exact Option.some_ne_none p
  rcases indexReverse_spec hash t s nowMs with ⟨i, hi, -, hbefore, heq⟩ | ⟨hall, heq⟩
  · rw [heq]
    exact ⟨i, hi, Function.update_self .., fun j hj => update_some_ne_none (hbusy (hbefore j hj))⟩
  · -- no cell was free, so the cell of the hypothesis already points to `s`
    rw [heq]
    obtain ⟨cell, hcell⟩ := hroom
    obtain ⟨p, hp, hlive⟩ := hall cell
    obtain rfl := (hcell p hp).resolve_right (not_not.mpr hlive)
    obtain ⟨i, hi, rfl⟩ := exists_probeAt_eq (home (hash (t.slots p).revKey)) cell
    exact ⟨i, hi, hp, fun j _ => hbusy (hall _)⟩

/-- A quiet step leaves the index alone. -/
theorem OnReplyScan.quietStep {n n' : LbNode bits} {s : Slot bits} (h : OnReplyScan hash n.nat s)
    (hstep : QuietStep nowMs n n') (hun : (n'.nat.slots s).Unreaped) :
    OnReplyScan hash n'.nat s := by
  rwa [OnReplyScan, hstep.rev_eq, ((hstep.kept s).same hun).revKey]

/-- Opening a flow in another slot leaves the cell of a live flow alone. -/
theorem OnReplyScan.openAt {n : LbNode bits} {flow : NatFlow} {s c : Slot bits} (hne : c ≠ s)
    (h : OnReplyScan hash n.nat c) (hlive : (n.nat.slots c).Live n.nat.timeoutMs nowMs) :
    OnReplyScan hash (LbNode.openAt hash n flow s nowMs).nat c := by
  rw [openAt_nat, place]
  refine onReplyScan_indexReverse_of_live ?_ ?_ s
  · simpa only [Function.update_of_ne hne] using hlive
  · simpa only [OnReplyScan, Function.update_of_ne hne] using h

/-- At the time `nowMs`: no entry was seen later than now, and every live one has its cell. -/
structure Indexed (hash : FlowKey → UInt32) (nowMs : UInt32) (n : LbNode bits) : Prop where
  seen : ∀ s, (n.nat.slots s).Unreaped → (n.nat.slots s).lastSeenMs ≤ nowMs
  onReplyScan : ∀ s, (n.nat.slots s).Live n.nat.timeoutMs nowMs → OnReplyScan hash n.nat s

theorem indexed_init (bits : ℕ) (timeoutMs : UInt32) (workerId nWorkers : UInt16) :
    Indexed hash nowMs (init bits timeoutMs workerId nWorkers) where
  seen _ h := Bool.noConfusion h.1
  onReplyScan _ h := Bool.noConfusion h.1.1

/-- An entry that is live was live at any time since it was last seen. -/
theorem live_of_le {timeoutMs earlier : UInt32} {flow : NatFlow}
    (hseen : flow.lastSeenMs ≤ earlier) (hle : earlier ≤ nowMs) (h : flow.Live timeoutMs nowMs) :
    flow.Live timeoutMs earlier := by
  refine ⟨h.1, ?_⟩
  have hidle := h.2
  rw [UInt32.le_iff_toNat_le, UInt32.toNat_sub_of_le _ _ (UInt32.le_trans hseen hle)] at hidle
  rw [UInt32.le_iff_toNat_le, UInt32.toNat_sub_of_le _ _ hseen]
  rw [UInt32.le_iff_toNat_le] at hle
  omega

/-- The invariant stays true while time passes. -/
theorem Indexed.later {n : LbNode bits} {later : UInt32} (h : Indexed hash nowMs n)
    (hle : nowMs ≤ later) : Indexed hash later n where
  seen s hun := UInt32.le_trans (h.seen s hun) hle
  onReplyScan s hlive := h.onReplyScan s (live_of_le (h.seen s hlive.1) hle hlive)

theorem Indexed.quietStep {n n' : LbNode bits} (h : Indexed hash nowMs n)
    (hstep : QuietStep nowMs n n') : Indexed hash nowMs n' where
  seen s hun := by
    rcases hstep.lastSeenMs_cases s with hsame | ⟨hnow, -⟩
    · rw [hsame]
      exact h.seen s ((hstep.kept s).unreaped hun)
    · rw [hnow]
      exact UInt32.le_refl nowMs
  onReplyScan s hlive := (h.onReplyScan s (hstep.live hlive)).quietStep hstep hlive.1

theorem Indexed.quietSteps {n n' : LbNode bits} (h : Indexed hash nowMs n)
    (hsteps : QuietSteps nowMs n n') : Indexed hash nowMs n' :=
  hsteps.rec h fun _ hstep ih => ih.quietStep hstep

/-- Opening a flow in slot `s` keeps the invariant if there is room for a cell of `s`. -/
theorem Indexed.openAt {n : LbNode bits} {flow : NatFlow} {s : Slot bits} (h : Indexed hash nowMs n)
    (hroom : ∃ cell, ∀ p, n.nat.rev cell = some p →
      p = s ∨ ¬ (n.nat.slots p).Live n.nat.timeoutMs nowMs) :
    Indexed hash nowMs (LbNode.openAt hash n flow s nowMs) := by
  constructor
  · intro c hun
    rw [openAt_slots] at hun ⊢
    rcases eq_or_ne c s with rfl | hne
    · rw [Function.update_self]
      exact UInt32.le_refl nowMs
    · rw [Function.update_of_ne hne] at hun ⊢
      exact h.seen c hun
  · intro c hlive
    rcases eq_or_ne c s with rfl | hne
    · rw [openAt_nat, place]
      refine onReplyScan_indexReverse_self ?_
      obtain ⟨cell, hcell⟩ := hroom
      refine ⟨cell, fun p hp => or_iff_not_imp_left.mpr fun hps => ?_⟩
      simp only [Function.update_of_ne hps]
      exact (hcell p hp).resolve_left hps
    · rw [openAt_timeoutMs, openAt_slots, Function.update_of_ne hne] at hlive
      exact (h.onReplyScan c hlive).openAt hne hlive

/-- With both invariants every live flow is found by its reply tuple, now and later. -/
theorem Indexed.findsReplies {n : LbNode bits} (h : Indexed hash nowMs n)
    {backends : List BackendInfo} {share : Finset UInt16} (hacc : n.Accounted backends share)
    (hdistinct : (backends.map fun b => (b.ip, b.port)).Nodup) {later : UInt32}
    (hle : nowMs ≤ later) : FindsReplies hash n.nat later := by
  intro s hlive
  obtain ⟨i, hi, hcell, hbefore⟩ := (h.later hle).onReplyScan s hlive
  rw [FoundByReply]
  obtain ⟨t, -, ⟨k, -, c, hfound, -, hans, -⟩ | ⟨-, hnone⟩⟩ :=
    lookupReverse_spec hash n.nat (n.nat.slots s).backendIp (n.nat.slots s).backendPort
      (n.nat.slots s).snatPort (n.nat.slots s).fwdKey.proto later
  · rw [hfound, hacc.eq_of_revKey_eq hdistinct hlive.1 hans.1.1 hans.2.symm]
  · exact absurd ⟨hlive, rfl⟩ (hnone i hi hbefore s hcell)

/-! ### Runs -/

theorem Orderly.append_left {backends : List BackendInfo} {as bs : List Arrival}
    (h : Orderly backends (as ++ bs)) : Orderly backends as where
  toStableBackends := h.toStableBackends.append_left
  clock := (List.pairwise_append.mp h.clock).1

/-- A flow opened where there is room has its cell afterwards. -/
theorem Indexed.opens {n : LbNode bits} {a : Arrival} (h : Indexed hash a.nowMs n)
    (hmap : ForwardMap hash n.nat) (hroom : IndexHasRoom hash n a) (husable : a.usable = some pool)
    {t : NatTable bits} {s : Slot bits} (hreaps : Reaps a.nowMs n.nat t)
    (hdir : a.packet.dir = .forward) (hmay : MayOpen a.packet)
    (hopens : Opens hash { n with nat := t } pool a.nowMs a.packet s) (flow : NatFlow) :
    Indexed hash a.nowMs (LbNode.openAt hash { n with nat := t } flow s a.nowMs) := by
  refine (h.quietSteps (quietSteps_of_reaps hreaps)).openAt ?_
  obtain ⟨cell, hcell⟩ := hroom pool husable s (hopens.opensIn hmap hreaps hdir hmay)
  refine ⟨cell, fun p hp => ?_⟩
  rw [hreaps.live_iff]
  exact hcell p (hreaps.rev_eq ▸ hp)

theorem Indexed.arrive {n : LbNode bits} {a : Arrival} (h : Indexed hash a.nowMs n)
    (hmap : ForwardMap hash n.nat) (hroom : IndexHasRoom hash n a) :
    Indexed hash a.nowMs (arrive hash n a).1 := by
  cases husable : a.usable with
  | none => rwa [arrive_of_not_usable hash n husable]
  | some pool =>
    rw [arrive_of_usable hash n husable]
    rcases handlePacket_quiet_or_opens n a.packet with
      hquiet | ⟨t, s, hdir, hreaps, hmay, hopens, hquiet⟩
    · exact h.quietSteps hquiet
    · exact (h.opens hmap hroom husable hreaps hdir hmay hopens _).quietSteps hquiet

/-- The index is in order after a run in which every opening found room. -/
theorem indexed_run {backends : List BackendInfo} {as : List Arrival} (h : Orderly backends as)
    {timeoutMs : UInt32} {workerId nWorkers : UInt16}
    (hroom : ∀ pre a post, as = pre ++ a :: post →
      IndexHasRoom hash (run hash (init bits timeoutMs workerId nWorkers) pre) a)
    (hnow : ∀ a ∈ as, a.nowMs ≤ nowMs) :
    Indexed hash nowMs (run hash (init bits timeoutMs workerId nWorkers) as) := by
  induction as using List.reverseRecOn generalizing nowMs with
  | nil => exact indexed_init bits timeoutMs workerId nWorkers
  | append_singleton as a ih =>
    have hbefore : Indexed hash a.nowMs (run hash (init bits timeoutMs workerId nWorkers) as) := by
      refine ih h.append_left (fun pre b post hsplit => hroom pre b (post ++ [a]) ?_) fun b hb => ?_
      · rw [hsplit, List.append_assoc, List.cons_append]
      · exact (List.pairwise_append.mp h.clock).2.2 b hb a (List.mem_singleton_self a)
    rw [run_append]
    exact (hbefore.arrive (forwardMap_run ..) (hroom as a [] rfl)).later
      (hnow a (List.mem_append_right as (List.mem_singleton_self a)))

/-- A flow opened where there is no room is not found by its replies. -/
theorem not_foundByReply_openAt {n : LbNode bits} {flow : NatFlow} {s : Slot bits}
    (hfull : ∀ cell, ∃ p, n.nat.rev cell = some p ∧ p ≠ s ∧
      (n.nat.slots p).Live n.nat.timeoutMs nowMs) {later : UInt32} :
    ¬ FoundByReply hash (LbNode.openAt hash n flow s nowMs).nat later s := by
  have hrev : (LbNode.openAt hash n flow s nowMs).nat.rev = n.nat.rev := by
    rw [openAt_nat, place, indexReverse_of_busy fun cell => ?_]
    obtain ⟨p, hp, hne, hlive⟩ := hfull cell
    refine ⟨p, hp, ?_⟩
    simpa only [Function.update_of_ne hne] using hlive
  intro hfound
  rw [FoundByReply] at hfound
  obtain ⟨t, -, ⟨k, -, c, heq, hcell, -⟩ | ⟨heq, -⟩⟩ := lookupReverse_spec hash
    (LbNode.openAt hash n flow s nowMs).nat
    ((LbNode.openAt hash n flow s nowMs).nat.slots s).backendIp
    ((LbNode.openAt hash n flow s nowMs).nat.slots s).backendPort
    ((LbNode.openAt hash n flow s nowMs).nat.slots s).snatPort
    ((LbNode.openAt hash n flow s nowMs).nat.slots s).fwdKey.proto later
  · rw [heq] at hfound
    obtain rfl := Option.some.inj hfound
    rw [hrev] at hcell
    obtain ⟨p, hp, hne, -⟩ := hfull (probeAt (home (hash _)) k)
    exact hne (Option.some.inj (hp.symm.trans hcell))
  · rw [heq] at hfound
    exact absurd hfound (by simp)

/-- A flow that is inserted where there is room is found by its replies. -/
theorem Indexed.insertedIsFound {n : LbNode bits} {a : Arrival} (h : Indexed hash a.nowMs n)
    (hmap : ForwardMap hash n.nat) (hroom : IndexHasRoom hash n a) {backends : List BackendInfo}
    {share : Finset UInt16} (hacc : n.Accounted backends share)
    (hdistinct : (backends.map fun b => (b.ip, b.port)).Nodup)
    (hstable : ∀ pool, a.pool = some pool → pool.slots <+: backends) :
    InsertedIsFound hash n a := by
  intro pool husable hneeds n' s hcreate
  obtain ⟨hpool, hactive⟩ := Arrival.usable_eq_some.mp husable
  obtain ⟨t, hreaps, ⟨c, -, hlive, hkey⟩ | ⟨hlookup, habs⟩⟩ :=
    lookupForward_spec hash n.nat a.packet.flowKey a.nowMs
  · have heq := hreaps.slots_eq_of_unreaped hlive.1
    exact absurd ⟨c, (hreaps.live_iff c).mp hlive, heq ▸ hkey⟩ hneeds.noFlow
  rw [hlookup] at hcreate
  rcases createFlow_spec hash { n with nat := t } a.packet pool a.nowMs habs with
    ⟨c, hopens, heq⟩ | ⟨-, heq⟩
  · obtain ⟨rfl, hc⟩ := Prod.mk.inj (heq.symm.trans hcreate)
    obtain rfl := Option.some.inj hc
    have hsteps : Steps hash pool a.nowMs a.packet n _ :=
      (quietSteps_of_reaps hreaps).steps.tail (.create hneeds.forward hneeds.mayOpen hopens)
    have hindexed := h.opens hmap hroom husable hreaps hneeds.forward hneeds.mayOpen hopens
      (newFlow hash a.packet pool (n.nextPort hash pool a.packet))
    exact hindexed.findsReplies (hacc.steps (hstable pool hpool) hactive hsteps) hdistinct
      (UInt32.le_refl _) c (live_openAt _ _ _ _)
  · exact absurd (congrArg Prod.snd (heq.symm.trans hcreate)) (by simp)

/-- For every run whose clock does not go back and whose pools keep each backend in its slot: in
every state that the run reaches, each flow that is live at some time from then on is found by its
reply tuple at that time, and so is each flow that was just inserted, if and only if each packet of
the run that opens a flow meets a cell of `rev` that is empty, or points to the slot of the flow, or
to a slot that is not live. -/
theorem findsReplies_iff_indexHasRoom (hash : FlowKey → UInt32) (bits : ℕ) (timeoutMs : UInt32)
    (workerId nWorkers : UInt16) (backends : List BackendInfo) (as : List Arrival)
    (horderly : Orderly backends as) :
    (∀ pre a post, as = pre ++ a :: post →
      let n := run hash (init bits timeoutMs workerId nWorkers) pre
      (∀ nowMs, a.nowMs ≤ nowMs → FindsReplies hash (arrive hash n a).1.nat nowMs) ∧
        InsertedIsFound hash n a) ↔
    ∀ pre a post, as = pre ++ a :: post →
      IndexHasRoom hash (run hash (init bits timeoutMs workerId nWorkers) pre) a := by
  constructor
  · intro hfound pre a post hsplit pool husable s hopens
    by_contra hfull
    simp only [not_exists, not_forall, not_or, not_not] at hfull
    obtain ⟨t, hreaps, hlookup, hcreate⟩ := hopens.createFlow_eq (forwardMap_run ..)
    have hin := (hfound pre a post hsplit).2 pool husable hopens.needsFlow _ _
      (by rw [hlookup]; exact hcreate)
    refine not_foundByReply_openAt (fun cell => ?_) hin
    obtain ⟨p, hp, hne, hlive⟩ := hfull cell
    exact ⟨p, hreaps.rev_eq.symm ▸ hp, hne, (hreaps.live_iff p).mpr hlive⟩
  · intro hroom pre a post hsplit n
    have hpre : as = (pre ++ [a]) ++ post := by
      rw [hsplit, List.append_assoc, List.singleton_append]
    have horderly' : Orderly backends (pre ++ [a]) := (hpre ▸ horderly).append_left
    have hindexed : Indexed hash a.nowMs n := by
      refine indexed_run horderly'.append_left (fun pre' b post' hsplit' => ?_) fun b hb => ?_
      · refine hroom pre' b (post' ++ a :: post) ?_
        rw [hsplit, hsplit', List.append_assoc, List.cons_append]
      · exact (List.pairwise_append.mp horderly'.clock).2.2 b hb a (List.mem_singleton_self a)
    have hmap : ForwardMap hash n.nat := forwardMap_run ..
    have hroom' := hroom pre a post hsplit
    have hacc := accounted_run horderly'.toStableBackends hash bits timeoutMs workerId nWorkers
    rw [run_append] at hacc
    have hacc' :=
      accounted_run horderly'.append_left.toStableBackends hash bits timeoutMs workerId nWorkers
    refine ⟨fun nowMs hle => (hindexed.arrive hmap hroom').findsReplies hacc horderly.distinct hle,
      hindexed.insertedIsFound hmap hroom' hacc' horderly.distinct ?_⟩
    exact horderly'.stable a (List.mem_append_right pre (List.mem_singleton_self a))

/-- The first packet of a run leaves a table in which replies find their flows. -/
theorem findsReplies_first_packet :
    let backend : BackendInfo := { ip := 0x0A000202, port := 8080 }
    let hash := FlowKey.hash .sse42
    let a : Arrival := ⟨some (.single backend), 7,
      { srcIp := 0x0A000102, dstIp := 0x0A0001FD, srcPort := 40000, dstPort := 80, proto := 17 }⟩
    Orderly [backend] [a] ∧
      FindsReplies hash (arrive hash (run hash (init 20 30000 0 1) []) a).1.nat 8 := by
  intro backend hash a
  have horderly : Orderly [backend] [a] := by
    refine ⟨stableBackends_single fun b hb => ?_, List.pairwise_singleton _ _⟩
    rw [List.mem_singleton.mp hb]
  have hroom := (findsReplies_iff_indexHasRoom hash 20 30000 0 1 [backend] [a] horderly).mpr ?_
  · exact ⟨horderly, (hroom [] a [] rfl).1 8 (by decide)⟩
  · intro pre b post hsplit pool _ s _
    obtain rfl : pre = [] := by
      have := congrArg List.length hsplit
      simp only [List.length_append, List.length_cons, List.length_nil] at this
      exact List.length_eq_zero_iff.mp (by omega)
    exact ⟨s, fun p hp => absurd hp (by simp [init])⟩

/-! ### A connection that is opened and reset until the index is full -/

/-- A slot whose cells are the first `k` of the scan of its reply tuple takes the next one. -/
theorem indexReverse_rev_of_chain {t : NatTable bits} {s : Slot bits} {key : FlowKey} {k : ℕ}
    (hkey : (t.slots s).revKey = key) (hk : k < 2 ^ bits)
    (hlive : (t.slots s).Live t.timeoutMs nowMs)
    (hrev : ∀ i < 2 ^ bits, t.rev (probeAt (home (hash key)) i) = if i < k then some s else none)
    {i : ℕ} (hi : i < 2 ^ bits) :
    (t.indexReverse hash s nowMs).rev (probeAt (home (hash key)) i) =
      if i < k + 1 then some s else none := by
  have hbusy (j : ℕ) (hj : j < 2 ^ bits) :
      t.Busy nowMs (probeAt (home (hash key)) j) ↔ j < k := by
    rw [Busy, hrev j hj]
    constructor
    · rintro ⟨p, hp, -⟩
      by_contra hjk
      rw [if_neg hjk] at hp
      exact absurd hp (by simp)
    · intro hjk
      exact ⟨s, if_pos hjk, hlive⟩
  rcases hkey ▸ indexReverse_spec hash t s nowMs with ⟨j, hj, hfree, hbefore, heq⟩ | ⟨hall, -⟩
  · have hjk : j = k := by
      rw [hbusy j hj] at hfree
      by_contra hne
      exact absurd ((hbusy k hk).mp (hbefore k (by omega))) (Nat.lt_irrefl k)
    subst hjk
    rw [heq]
    rcases eq_or_ne i j with rfl | hne
    · rw [if_pos (Nat.lt_succ_self i)]
      exact Function.update_self ..
    · have hcell : probeAt (home (hash key)) i ≠ probeAt (home (hash key)) j :=
        fun h => hne (probeAt_injOn _ hi hj h)
      refine (Function.update_of_ne hcell _ _).trans ((hrev i hi).trans ?_)
      have hiff : i < j ↔ i < j + 1 := by omega
      simp only [hiff]
  · exact absurd ((hbusy k hk).mp (hall _)) (Nat.lt_irrefl k)

/-- A TCP segment with the given flags from a port of one client to the virtual service. -/
def tcpSegment (srcPort : UInt16) (tcpFlags : UInt8) : PacketMeta :=
  { srcIp := 0x0A000102, dstIp := 0x0A0001FD, srcPort := srcPort, dstPort := 80, proto := kProtoTcp,
    tcpFlags := tcpFlags }

/-- The segment reaches the node at time `0`, while the pool has a single backend. -/
def tcpArrival (backend : BackendInfo) (srcPort : UInt16) (tcpFlags : UInt8) : Arrival :=
  ⟨some (.single backend), 0, tcpSegment srcPort tcpFlags⟩

theorem usable_tcpArrival (backend : BackendInfo) (srcPort : UInt16) (tcpFlags : UInt8) :
    (tcpArrival backend srcPort tcpFlags).usable = some (.single backend) :=
  Arrival.usable_eq_some.mpr ⟨rfl, Nat.one_ne_zero⟩

/-- The slot of the connection from port `40000`. -/
def reopenedSlot (bits : ℕ) (hash : FlowKey → UInt32) : Slot bits :=
  home (hash (tcpSegment 40000 0).flowKey)

/-- The node after the connection, always with source port `port`, has left `k` cells behind: its
slot holds `flow`, no other slot was ever used, and the pool of the backend is `ports`. -/
structure Reopened (hash : FlowKey → UInt32) (backend : BackendInfo) (port : UInt16)
    (n : LbNode bits) (k : ℕ) (flow : NatFlow) (ports : PortPool) : Prop where
  slot : n.nat.slots (reopenedSlot bits hash) = flow
  others : ∀ c ≠ reopenedSlot bits hash, (n.nat.slots c).occupied = false
  rev : ∀ i < 2 ^ bits,
    n.nat.rev (probeAt (home (hash (replyKey backend.ip backend.port port kProtoTcp))) i) =
      if i < k then some (reopenedSlot bits hash) else none
  pool : n.portPools 0 = ports

/-- The entry of the connection while it is open. -/
def reopenedFlow (hash : FlowKey → UInt32) (backend : BackendInfo) (port : UInt16) : NatFlow :=
  { newFlow hash (tcpSegment 40000 0) (.single backend) port with
    occupied := true, lastSeenMs := 0 }

theorem revKey_reopenedFlow (hash : FlowKey → UInt32) (backend : BackendInfo) (port : UInt16) :
    (reopenedFlow hash backend port).revKey =
      replyKey backend.ip backend.port port kProtoTcp := by
  simp only [reopenedFlow, newFlow, NatFlow.revKey, BackendPool.select_single]
  rfl

theorem Reopened.openAt {backend : BackendInfo} {ports : PortPool} {n : LbNode bits} {k : ℕ}
    {flow : NatFlow} (h : Reopened hash backend ports.acquire.1 n k flow ports)
    {t : NatTable bits} (hreaps : Reaps 0 n.nat t)
    (hclosed : flow.occupied = true → flow.snatPort = 0) (hk : k < 2 ^ bits) :
    Reopened hash backend ports.acquire.1
      (LbNode.openAt hash { n with nat := t } (newFlow hash (tcpSegment 40000 0) (.single backend)
        ports.acquire.1) (reopenedSlot bits hash) 0) (k + 1)
      (reopenedFlow hash backend ports.acquire.1) ports.acquire.2 where
  slot := by
    rw [openAt_slots, Function.update_self]
    rfl
  others c hc := by
    rw [openAt_slots, Function.update_of_ne hc, hreaps.occupied_eq]
    exact h.others c hc
  rev i hi := by
    have hslot : Function.update t.slots (reopenedSlot bits hash)
        (reopenedFlow hash backend ports.acquire.1) (reopenedSlot bits hash) =
          reopenedFlow hash backend ports.acquire.1 := Function.update_self ..
    rw [openAt_nat, place]
    refine indexReverse_rev_of_chain ?_ hk (live_of_lastSeen_eq ?_ ?_) (fun j hj => ?_) hi
    · exact (congrArg NatFlow.revKey hslot).trans (revKey_reopenedFlow hash backend _)
    · exact ⟨congrArg NatFlow.occupied hslot, congrArg NatFlow.reaped hslot⟩
    · exact congrArg NatFlow.lastSeenMs hslot
    · exact (congrFun hreaps.rev_eq _).trans (h.rev j hj)
  pool := by
    have hidx : (newFlow hash (tcpSegment 40000 0) (.single backend)
        ports.acquire.1).backendIdx = 0 := BackendPool.select_single ..
    have hnone : (if (t.slots (reopenedSlot bits hash)).occupied then
        (t.slots (reopenedSlot bits hash)).snatPort else 0) = 0 := by
      have hport : (t.slots (reopenedSlot bits hash)).snatPort = flow.snatPort := by
        rcases hreaps.slots_eq_or (reopenedSlot bits hash) with heq | ⟨-, heq⟩ <;>
          rw [heq, h.slot]
      split_ifs with hocc
      · rw [hreaps.occupied_eq, h.slot] at hocc
        exact hport.trans (hclosed hocc)
      · rfl
    simp only [LbNode.openAt, hidx, hnone, releasePort, ne_eq, not_true_eq_false, dite_false,
      Function.update_self, h.pool]

theorem has_syn (srcPort : UInt16) :
    (tcpSegment srcPort kTcpSyn).has kTcpFin = false ∧
      (tcpSegment srcPort kTcpSyn).has kTcpRst = false ∧ MayOpen (tcpSegment srcPort kTcpSyn) := by
  refine ⟨show decide (kTcpSyn &&& kTcpFin ≠ 0) = false by decide,
    show decide (kTcpSyn &&& kTcpRst ≠ 0) = false by decide, fun hmay => ?_⟩
  exact absurd hmay.2 (show ¬ decide (kTcpSyn &&& kTcpSyn ≠ 0) = false by decide)

/-- Opening the connection once more takes one more cell. -/
theorem Reopened.syn {backend : BackendInfo} {ports : PortPool} {n : LbNode bits} {k : ℕ}
    {flow : NatFlow} (h : Reopened hash backend ports.acquire.1 n k flow ports)
    (hports : ports.acquire.1 ≠ 0) (hmap : ForwardMap hash n.nat)
    (hreaped : flow.occupied = true → flow.reaped = true ∧ flow.snatPort = 0)
    (hk : k < 2 ^ bits) :
    Reopened hash backend ports.acquire.1
      (LbNode.arrive hash n (tcpArrival backend 40000 kTcpSyn)).1 (k + 1)
      (reopenedFlow hash backend ports.acquire.1) ports.acquire.2 := by
  have hdead (c : Slot bits) : ¬ (n.nat.slots c).Unreaped := fun hun => by
    rcases eq_or_ne c (reopenedSlot bits hash) with rfl | hne
    · rw [h.slot] at hun
      exact Bool.noConfusion ((hreaped hun.1).1.symm.trans hun.2)
    · exact Bool.noConfusion ((h.others c hne).symm.trans hun.1)
  obtain ⟨hfin, hrst, hmay⟩ := has_syn 40000
  have hselect := BackendPool.select_single backend hash (tcpSegment 40000 kTcpSyn).flowKey
  have hopens : OpensIn hash n (.single backend) 0 (tcpSegment 40000 kTcpSyn)
      (reopenedSlot bits hash) := by
    refine ⟨⟨rfl, hmay, fun ⟨c, hlive, _⟩ => hdead c hlive.1⟩, ?_, fun hlive => hdead _ hlive.1, 0,
      Nat.two_pow_pos bits, (probeAt_zero _).symm, fun j hj => absurd hj (Nat.not_lt_zero j)⟩
    rw [hselect, h.pool]
    exact PortPool.acquire_fst_eq_zero.not.mp hports
  have hport : n.nextPort hash (.single backend) (tcpSegment 40000 kTcpSyn) = ports.acquire.1 := by
    rw [nextPort, hselect, h.pool]
  obtain ⟨t, hreaps, heq⟩ := OpensIn.arrive_fst_eq (a := tcpArrival backend 40000 kTcpSyn) hopens
    hmap (usable_tcpArrival ..) hfin hrst
  rw [heq]
  change Reopened hash backend _ (LbNode.openAt hash _ (newFlow hash _ (.single backend)
    (n.nextPort hash (.single backend) (tcpSegment 40000 kTcpSyn))) _ 0) _ _ _
  rw [hport]
  exact h.openAt hreaps (fun hocc => (hreaped hocc).2) hk

theorem Reopened.teardown {backend : BackendInfo} {ports : PortPool} {n : LbNode bits} {k : ℕ}
    (h : Reopened hash backend ports.acquire.1 n k
      (reopenedFlow hash backend ports.acquire.1) ports.acquire.2)
    (hports : ports.acquire.1 ≠ 0) :
    Reopened hash backend ports.acquire.1 (n.teardown (reopenedSlot bits hash)) k
      { reopenedFlow hash backend ports.acquire.1 with reaped := true, snatPort := 0 } ports := by
  have hun : (n.nat.slots (reopenedSlot bits hash)).Unreaped := by
    rw [h.slot]
    exact ⟨rfl, rfl⟩
  have hidx : (reopenedFlow hash backend ports.acquire.1).backendIdx = 0 :=
    BackendPool.select_single ..
  have hsnat : (reopenedFlow hash backend ports.acquire.1).snatPort = ports.acquire.1 := rfl
  constructor
  · rw [teardown_nat hun, h.slot]
    exact Function.update_self ..
  · intro c hc
    rw [teardown_nat hun]
    exact (congrArg NatFlow.occupied (Function.update_of_ne hc _ _)).trans (h.others c hc)
  · intro i hi
    rw [teardown_nat hun]
    exact h.rev i hi
  · simp only [LbNode.teardown, close_of_unreaped hun, h.slot, hidx, hsnat, releasePort, ne_eq,
      hports, not_false_eq_true, dite_true, Function.update_self, h.pool,
      PortPool.acquire_release hports]

/-- Resetting the connection gives its port back, and leaves the cells where they are. -/
theorem Reopened.rst {backend : BackendInfo} {ports : PortPool} {n : LbNode bits} {k : ℕ}
    (h : Reopened hash backend ports.acquire.1 n k
      (reopenedFlow hash backend ports.acquire.1) ports.acquire.2)
    (hports : ports.acquire.1 ≠ 0) :
    ∃ flow, (flow.occupied = true → flow.reaped = true ∧ flow.snatPort = 0) ∧
      Reopened hash backend ports.acquire.1
        (LbNode.arrive hash n (tcpArrival backend 40000 kTcpRst)).1 k flow ports := by
  have hlive : (n.nat.slots (reopenedSlot bits hash)).Live n.nat.timeoutMs 0 := by
    rw [h.slot]
    exact live_of_lastSeen_eq ⟨rfl, rfl⟩ rfl
  have hpresent {t : NatTable bits} (hreaps : Reaps 0 n.nat t) :
      ¬ AbsentOnScan hash t (tcpSegment 40000 kTcpRst).flowKey := fun habs => by
    refine habs 0 (Nat.two_pow_pos bits) (fun j hj => absurd hj (Nat.not_lt_zero j)) ?_
    rw [probeAt_zero]
    change (t.slots (reopenedSlot bits hash)).Unreaped ∧
      (t.slots (reopenedSlot bits hash)).fwdKey = _
    rw [hreaps.slots_eq_of_live hlive, h.slot]
    exact ⟨⟨rfl, rfl⟩, rfl⟩
  have hfin : (tcpSegment 40000 kTcpRst).has kTcpFin = false := by decide
  have hrst : (tcpSegment 40000 kTcpRst).has kTcpRst = true := by decide
  rw [arrive_of_usable hash n (usable_tcpArrival ..)]
  change ∃ flow, _ ∧ Reopened hash backend _
    (handlePacket hash n (.single backend) 0 (tcpSegment 40000 kTcpRst)).1 k flow ports
  have hout := handlePacket_outcome hash n (.single backend) 0 (tcpSegment 40000 kTcpRst)
  generalize handlePacket hash n (.single backend) 0 (tcpSegment 40000 kTcpRst) = r at hout
  cases hout with
  | @forward t s hdir hreaps hs hkey =>
    obtain rfl : s = reopenedSlot bits hash := by
      by_contra hne
      have hocc := hreaps.occupied_eq s
      exact Bool.noConfusion ((h.others s hne).symm.trans (hocc.symm.trans hs.1.1))
    have htouched : Reopened hash backend ports.acquire.1
        { n with nat := t.touch (reopenedSlot bits hash) 0 } k
        (reopenedFlow hash backend ports.acquire.1) ports.acquire.2 := by
      refine ⟨?_, fun c hc => ?_, fun i hi => ?_, h.pool⟩
      · rw [touch_slots, Function.update_self, hreaps.slots_eq_of_live hlive, h.slot]
        rfl
      · rw [touch_slots, Function.update_of_ne hc, hreaps.occupied_eq]
        exact h.others c hc
      · exact (congrFun hreaps.rev_eq _).trans (h.rev i hi)
    have hdone := htouched.teardown hports
    rw [forwardVia, maybeTeardown_of_rst _ _ hfin hrst]
    exact ⟨_, fun _ => ⟨rfl, rfl⟩, hdone⟩
  | opened hdir hreaps hmay hopens => exact absurd hopens.absent (hpresent hreaps)
  | refused hdir hreaps habs hwhy => exact absurd habs (hpresent hreaps)
  | reverse hdir => exact Direction.noConfusion hdir
  | unknown hdir => exact Direction.noConfusion hdir

/-- The connection is opened and reset `k` times. -/
def reopenings (backend : BackendInfo) : ℕ → List Arrival
  | 0 => []
  | k + 1 => reopenings backend k ++
      [tcpArrival backend 40000 kTcpSyn, tcpArrival backend 40000 kTcpRst]

theorem mem_reopenings {backend : BackendInfo} {k : ℕ} {a : Arrival}
    (h : a ∈ reopenings backend k) : ∃ tcpFlags, a = tcpArrival backend 40000 tcpFlags := by
  induction k with
  | zero => exact absurd h List.not_mem_nil
  | succ k ih =>
    rcases List.mem_append.mp h with h | h
    · exact ih h
    · simp only [List.mem_cons, List.not_mem_nil, or_false] at h
      rcases h with rfl | rfl
      · exact ⟨_, rfl⟩
      · exact ⟨_, rfl⟩

/-- After `k` openings and resets `k` cells point to the slot of the connection. -/
theorem reopened_run (hash : FlowKey → UInt32) (bits : ℕ) (timeoutMs : UInt32)
    (backend : BackendInfo) {ports : PortPool} (hinit : PortPool.forWorker 0 1 = ports)
    (hports : ports.acquire.1 ≠ 0) {k : ℕ} (hk : k ≤ 2 ^ bits) :
    ∃ flow, (flow.occupied = true → flow.reaped = true ∧ flow.snatPort = 0) ∧
      Reopened hash backend ports.acquire.1
        (run hash (init bits timeoutMs 0 1) (reopenings backend k)) k flow ports := by
  induction k with
  | zero =>
    refine ⟨{}, fun h => Bool.noConfusion h, rfl, fun c _ => rfl, fun i _ => ?_, ?_⟩
    · rw [if_neg (Nat.not_lt_zero i)]
      rfl
    · exact (init_portPools (by decide) _ _ _).trans hinit
  | succ k ih =>
    obtain ⟨flow, hclosed, h⟩ := ih (Nat.le_of_succ_le hk)
    rw [reopenings, run_append]
    exact (h.syn hports (forwardMap_run ..) hclosed hk).rst hports

/-- When all cells point to the open connection, another one that is opened is not found by its
replies. -/
theorem Reopened.not_findsReplies {backend : BackendInfo} {port : UInt16} {ports : PortPool}
    {n : LbNode bits} (h : Reopened hash backend port n (2 ^ bits)
      (reopenedFlow hash backend port) ports) (hmap : ForwardMap hash n.nat)
    (hports : ports.free ≠ []) (hbits : bits ≠ 0) :
    ¬ FindsReplies hash (LbNode.arrive hash n (tcpArrival backend 40001 kTcpSyn)).1.nat 0 := by
  have hlive : (n.nat.slots (reopenedSlot bits hash)).Live n.nat.timeoutMs 0 := by
    rw [h.slot]
    exact live_of_lastSeen_eq ⟨rfl, rfl⟩ rfl
  have hdead {c : Slot bits} (hc : c ≠ reopenedSlot bits hash) :
      ¬ (n.nat.slots c).Live n.nat.timeoutMs 0 :=
    fun hlive => Bool.noConfusion ((h.others c hc).symm.trans hlive.1.1)
  obtain ⟨hfin, hrst, hmay⟩ := has_syn 40001
  have hneeds : n.NeedsFlow 0 (tcpSegment 40001 kTcpSyn) := by
    refine ⟨rfl, hmay, fun ⟨c, hc, hkey⟩ => ?_⟩
    obtain rfl : c = reopenedSlot bits hash := by
      by_contra hne
      exact hdead hne hc
    rw [h.slot] at hkey
    exact absurd (congrArg FlowKey.srcPort hkey) (show (40000 : UInt16) ≠ 40001 by decide)
  obtain ⟨c, hc⟩ : ∃ c, c ≠ reopenedSlot bits hash := by
    have : Nontrivial (Slot bits) := Fin.nontrivial_iff_two_le.mpr (Nat.le_self_pow hbits 2)
    exact exists_ne _
  have hfree : (n.portPools ((BackendPool.single backend).select hash
      (tcpSegment 40001 kTcpSyn).flowKey)).free ≠ [] := by
    rwa [BackendPool.select_single, h.pool]
  obtain ⟨s, hopens⟩ := hneeds.exists_opensIn hfree (hdead hc)
  obtain ⟨t, hreaps, heq⟩ := OpensIn.arrive_fst_eq (a := tcpArrival backend 40001 kTcpSyn) hopens
    hmap (usable_tcpArrival ..) hfin hrst
  rw [heq]
  intro hfinds
  refine not_foundByReply_openAt (fun cell => ?_) (hfinds s (live_openAt _ _ _ _))
  obtain ⟨i, hi, rfl⟩ := exists_probeAt_eq
    (home (hash (replyKey backend.ip backend.port port kProtoTcp))) cell
  refine ⟨reopenedSlot bits hash, ?_, ?_, (hreaps.live_iff _).mpr hlive⟩
  · rw [hreaps.rev_eq, h.rev i hi, if_pos hi]
  · rintro rfl
    exact hopens.dead hlive

theorem not_findsReplies_reopened (hash : FlowKey → UInt32) (timeoutMs : UInt32)
    (backend : BackendInfo) (hbits : bits ≠ 0) :
    ¬ FindsReplies hash (run hash (init bits timeoutMs 0 1) (reopenings backend (2 ^ bits - 1) ++
      [tcpArrival backend 40000 kTcpSyn, tcpArrival backend 40001 kTcpSyn])).nat 0 := by
  obtain ⟨ports, hinit⟩ : ∃ ports, PortPool.forWorker 0 1 = ports := ⟨_, rfl⟩
  have hlength : ports.free.length = 64512 := hinit ▸ PortPool.length_forWorker_zero_one
  have hports : ports.acquire.1 ≠ 0 := fun h => by
    rw [PortPool.acquire_fst_eq_zero.mp h] at hlength
    exact absurd hlength (by decide)
  have hmore : ports.acquire.2.free ≠ [] := fun h => by
    rw [PortPool.free_eq_cons_acquire hports, h, List.length_singleton] at hlength
    exact absurd hlength (by decide)
  have hpos := Nat.two_pow_pos bits
  obtain ⟨flow, hclosed, h⟩ := reopened_run hash bits timeoutMs backend hinit hports
    (Nat.sub_le (2 ^ bits) 1)
  have hopen := h.syn hports (forwardMap_run ..) hclosed (by omega)
  rw [Nat.sub_add_cancel hpos] at hopen
  have hmap : ForwardMap hash (run hash (init bits timeoutMs 0 1)
      (reopenings backend (2 ^ bits - 1) ++ [tcpArrival backend 40000 kTcpSyn])).nat :=
    forwardMap_run ..
  rw [run_append] at hmap ⊢
  exact hopen.not_findsReplies hmap hmore hbits

/-- With the default capacity and timeout, one client that opens and resets the same connection
`2 ^ 20 - 1` times and opens it once more fills the index; then its next connection is live and
cannot be found by its replies. -/
theorem reopened_connection_fills_index :
    let backend : BackendInfo := { ip := 0x0A000202, port := 8080 }
    let hash := FlowKey.hash .sse42
    let as := reopenings backend (2 ^ 20 - 1) ++
      [tcpArrival backend 40000 kTcpSyn, tcpArrival backend 40001 kTcpSyn]
    Orderly [backend] as ∧ ¬ FindsReplies hash (run hash (init 20 30000 0 1) as).nat 0 := by
  intro backend hash as
  constructor
  · have hall : ∀ a ∈ as, a.pool = some (.single backend) ∧ a.nowMs = 0 := by
      intro a ha
      rcases List.mem_append.mp ha with ha | ha
      · obtain ⟨tcpFlags, rfl⟩ := mem_reopenings ha
        exact ⟨rfl, rfl⟩
      · simp only [List.mem_cons, List.not_mem_nil, or_false] at ha
        rcases ha with rfl | rfl
        · exact ⟨rfl, rfl⟩
        · exact ⟨rfl, rfl⟩
    refine ⟨stableBackends_single fun a ha => (hall a ha).1, ?_⟩
    refine List.pairwise_of_forall_mem_list fun a ha a' ha' => ?_
    rw [(hall a ha).2, (hall a' ha').2]
    exact UInt32.le_refl 0
  · exact not_findsReplies_reopened hash 30000 backend (by decide)

end LbNode

end Cerebellum
