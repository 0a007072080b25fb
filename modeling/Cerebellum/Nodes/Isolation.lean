import Cerebellum.Nodes.Drain
import Cerebellum.Nodes.FlowCount

/-!
# Flows do not disturb each other

Lookups reap on their way, insertions overwrite expired entries, and the reverse index reclaims
cells by looking at the expiry of other entries. None of this touches an entry that is live, apart
from the one entry the packet is handled along, and no slot or cell in use becomes empty again.
`NatTable.Undisturbed` says this of the tables before and after a packet; that the scans of the
other flows still reach their entries and their cells is a consequence.

A refused packet is handled along no entry. `HandlePacket` may have reaped expired entries before
it refuses, and the number of flows is then lower by as many as it reaped. Nothing else of the
packet remains; a port that was taken for a flow for which the table has no slot is back on top of
its pool.

## Main definitions

* `Cerebellum.LbNode.entryOf`: the entry that a packet hits or creates.
* `Cerebellum.NatTable.Undisturbed`: what a packet leaves alone.

## Main results

* `Cerebellum.NatTable.Undisturbed.onReplyScan`, `Cerebellum.NatTable.Undisturbed.onScan`.
* `Cerebellum.LbNode.flows_undisturbed`.
* `Cerebellum.LbNode.refused_packet_leaves_no_trace`.
-/

open Probing

namespace Cerebellum

open NatTable LbNode

namespace NatTable

variable {bits : ℕ} {hash : FlowKey → UInt32} {t t₁ t₂ : NatTable bits} {nowMs : UInt32}
  {entry : Option (Slot bits)}

/-- The entries live at `nowMs`, other than `entry`, are unchanged; so are the cells that point to
slots of live entries; and no cell and no slot in use became empty. -/
structure Undisturbed (nowMs : UInt32) (entry : Option (Slot bits)) (t t' : NatTable bits) :
    Prop where
  slots : ∀ s, (t.slots s).Live t.timeoutMs nowMs → entry ≠ some s → t'.slots s = t.slots s
  cells : ∀ cell s, t.rev cell = some s → (t.slots s).Live t.timeoutMs nowMs →
    t'.rev cell = some s
  cellUsed : ∀ cell, t.rev cell ≠ none → t'.rev cell ≠ none
  slotUsed : ∀ s, (t.slots s).occupied = true → (t'.slots s).occupied = true

theorem Reaps.undisturbed (h : Reaps nowMs t t₁) : Undisturbed nowMs entry t t₁ where
  slots _ hlive _ := h.slots_eq_of_live hlive
  cells cell _ hcell _ := by rw [h.rev_eq, hcell]
  cellUsed cell hcell := by rwa [h.rev_eq]
  slotUsed s hs := by rwa [h.occupied_eq]

/-- What writes only to the slot of `entry`, and does not empty it, disturbs no more. -/
theorem Undisturbed.write {s : Slot bits} (h : Undisturbed nowMs (some s) t t₁)
    (hrev : t₂.rev = t₁.rev) (hslots : ∀ c ≠ s, t₂.slots c = t₁.slots c)
    (hused : (t₂.slots s).occupied = (t₁.slots s).occupied) : Undisturbed nowMs (some s) t t₂ where
  slots c hlive hne := by
    have hcs : c ≠ s := fun hcs => hne (congrArg some hcs.symm)
    rw [hslots c hcs, h.slots c hlive hne]
  cells cell c hcell hlive := by rw [hrev, h.cells cell c hcell hlive]
  cellUsed cell hcell := by
    rw [hrev]
    exact h.cellUsed cell hcell
  slotUsed c hc := by
    rcases eq_or_ne c s with rfl | hne
    · rw [hused]
      exact h.slotUsed c hc
    · rw [hslots c hne]
      exact h.slotUsed c hc

/-- A live flow keeps its place in the reverse index: a cell on the scan of its reply tuple points
to it, with no empty cell before. -/
theorem Undisturbed.onReplyScan {s : Slot bits} (h : Undisturbed nowMs entry t t₁)
    (hlive : (t.slots s).Live t.timeoutMs nowMs) (hne : entry ≠ some s)
    (hscan : OnReplyScan hash t s) : OnReplyScan hash t₁ s := by
  obtain ⟨i, hi, hcell, hbefore⟩ := hscan
  rw [OnReplyScan, h.slots s hlive hne]
  exact ⟨i, hi, h.cells _ s hcell hlive, fun j hj => h.cellUsed _ (hbefore j hj)⟩

/-- A live flow keeps its place in the table: no slot before it on the scan of its key is empty. -/
theorem Undisturbed.onScan {s : Slot bits} (h : Undisturbed nowMs entry t t₁)
    (hlive : (t.slots s).Live t.timeoutMs nowMs) (hne : entry ≠ some s)
    (hscan : OnScan hash t (t.slots s).fwdKey s) : OnScan hash t₁ (t₁.slots s).fwdKey s := by
  obtain ⟨i, hi, hs, hbefore⟩ := hscan
  rw [h.slots s hlive hne]
  exact ⟨i, hi, hs, fun j hj => h.slotUsed _ (hbefore j hj)⟩

/-- Two steps, the first of which lets no live entry die. -/
theorem Undisturbed.trans (h : Undisturbed nowMs entry t t₁)
    (hlive : ∀ s, (t.slots s).Live t.timeoutMs nowMs → (t₁.slots s).Live t₁.timeoutMs nowMs)
    (h' : Undisturbed nowMs entry t₁ t₂) : Undisturbed nowMs entry t t₂ where
  slots s hs hne := (h'.slots s (hlive s hs) hne).trans (h.slots s hs hne)
  cells cell s hcell hs := h'.cells cell s (h.cells cell s hcell hs) (hlive s hs)
  cellUsed cell hcell := h'.cellUsed cell (h.cellUsed cell hcell)
  slotUsed s hs := h'.slotUsed s (h.slotUsed s hs)

/-- Indexing a slot takes a cell that points to no live entry, and empties none. -/
theorem undisturbed_indexReverse (hash : FlowKey → UInt32) (t : NatTable bits) (s : Slot bits)
    (nowMs : UInt32) : Undisturbed nowMs entry t (t.indexReverse hash s nowMs) := by
  obtain ⟨i, -, hfree, -, heq⟩ | ⟨-, heq⟩ := indexReverse_spec hash t s nowMs
  · rw [heq]
    refine ⟨fun _ _ _ => rfl, fun cell c hcell hlive => ?_, fun cell hcell => ?_, fun _ hs => hs⟩
    · have hne : cell ≠ probeAt (home (hash (t.slots s).revKey)) i :=
        fun hsame => hfree (hsame ▸ ⟨c, hcell, hlive⟩)
      exact (Function.update_of_ne hne _ _).trans hcell
    · exact update_some_ne_none hcell
  · rw [heq]
    exact (Reaps.refl t).undisturbed

/-- Placing a flow in a slot that is not live disturbs no other entry. -/
theorem undisturbed_place (hash : FlowKey → UInt32) {s : Slot bits}
    (hdead : ¬ (t.slots s).Live t.timeoutMs nowMs) (flow : NatFlow) (size : ℕ) :
    Undisturbed nowMs (some s) t (t.place hash flow s size nowMs) := by
  let written : NatTable bits :=
    { t with
      slots := Function.update t.slots s { flow with occupied := true, lastSeenMs := nowMs }
      size := size }
  have hother {c : Slot bits} (hc : c ≠ s) : written.slots c = t.slots c :=
    Function.update_of_ne hc _ _
  have hwritten : Undisturbed nowMs (some s) t written := by
    refine ⟨fun c _ hne => hother fun hcs => hne (congrArg some hcs.symm), fun _ _ hcell _ => hcell,
      fun _ hcell => hcell, fun c hc => ?_⟩
    rcases eq_or_ne c s with rfl | hne
    · simp only [written, Function.update_self]
    · rwa [hother hne]
  refine hwritten.trans (fun c hc => ?_) (undisturbed_indexReverse hash written s nowMs)
  rw [hother fun hcs => hdead (hcs ▸ hc)]
  exact hc

end NatTable

namespace LbNode

variable {bits : ℕ} {hash : FlowKey → UInt32} {pool : BackendPool} {nowMs : UInt32}
  {m : PacketMeta}

/-- The `NatFlow*` that `HandlePacket` works with: the entry that the packet hits or creates, if it
is not refused. -/
def entryOf (hash : FlowKey → UInt32) (n : LbNode bits) (pool : BackendPool) (nowMs : UInt32)
    (m : PacketMeta) : Option (Slot bits) :=
  match m.dir with
  | .forward =>
    let (nat, found) := n.nat.lookupForward hash m.flowKey nowMs
    match found with
    | some s => some s
    | none =>
      if m.proto = kProtoTcp && !m.has kTcpSyn then none
      else (createFlow hash { n with nat := nat } m pool nowMs).2
  | .reverse => (n.nat.lookupReverse hash m.srcIp m.srcPort m.dstPort m.proto nowMs).2

/-- The packet is handled along the entry in slot `s`: either the entry was live and is refreshed,
or the slot was not live and a flow is opened in it. The second node is the one that `MaybeTeardown`
is called on. -/
inductive HandledAlong (hash : FlowKey → UInt32) (n : LbNode bits) (pool : BackendPool)
    (nowMs : UInt32) (m : PacketMeta) (s : Slot bits) : LbNode bits → Prop
  | hit {t : NatTable bits} (hreaps : Reaps nowMs n.nat t)
      (hlive : (t.slots s).Live t.timeoutMs nowMs) :
      HandledAlong hash n pool nowMs m s { n with nat := t.touch s nowMs }
  | opened {t : NatTable bits} (hdir : m.dir = .forward) (hreaps : Reaps nowMs n.nat t)
      (hmay : MayOpen m) (hopens : Opens hash { n with nat := t } pool nowMs m s) :
      HandledAlong hash n pool nowMs m s
        (openAt hash { n with nat := t } (newFlow hash m pool (n.nextPort hash pool m)) s nowMs)

theorem HandledAlong.live {n r : LbNode bits} {s : Slot bits}
    (h : HandledAlong hash n pool nowMs m s r) : (r.nat.slots s).Live r.nat.timeoutMs nowMs := by
  cases h with
  | hit _ hlive => exact live_touch hlive
  | opened _ _ _ _ => exact live_openAt _ _ _ _

/-- Up to the call of `MaybeTeardown` the packet is handled in single steps. -/
theorem HandledAlong.steps {n r : LbNode bits} {s : Slot bits}
    (h : HandledAlong hash n pool nowMs m s r) : Steps hash pool nowMs m n r := by
  cases h with
  | hit hreaps hlive => exact QuietSteps.steps ((quietSteps_of_reaps hreaps).tail (.touch hlive))
  | opened hdir hreaps hmay hopens =>
    exact (quietSteps_of_reaps hreaps).steps.tail (.create hdir hmay hopens)

theorem HandledAlong.undisturbed {n r : LbNode bits} {s : Slot bits}
    (h : HandledAlong hash n pool nowMs m s r) : Undisturbed nowMs (some s) n.nat r.nat := by
  cases h with
  | hit hreaps _ =>
    refine hreaps.undisturbed.write rfl (fun c hc => Function.update_of_ne hc _ _) ?_
    rw [touch_slots, Function.update_self]
  | opened _ hreaps _ hopens =>
    rw [openAt_nat]
    exact hreaps.undisturbed.trans (fun c hc => (hreaps.live_iff c).mpr hc)
      (undisturbed_place hash hopens.dead _ _)

/-- `HandlePacket` refuses the packet after some reaping, or handles it along its entry and sends it
on with the translation recorded there. -/
theorem handlePacket_entryOf (hash : FlowKey → UInt32) (n : LbNode bits) (pool : BackendPool)
    (nowMs : UInt32) (m : PacketMeta) :
    (entryOf hash n pool nowMs m = none ∧ ∃ t, Reaps nowMs n.nat t ∧
        handlePacket hash n pool nowMs m = ({ n with nat := t }, false, m)) ∨
      ∃ s r, entryOf hash n pool nowMs m = some s ∧ HandledAlong hash n pool nowMs m s r ∧
        handlePacket hash n pool nowMs m =
          (r.maybeTeardown s m, true, m.translated (r.nat.slots s)) := by
  have htranslated (flow : NatFlow) : m.translated flow =
      match m.dir with
      | .forward => m.toBackend flow
      | .reverse => m.toClient flow := rfl
  cases hdir : m.dir with
  | forward =>
    simp only [hdir] at htranslated
    obtain ⟨t, hreaps, ⟨s, hfound, hlive, -⟩ | ⟨hfound, habs⟩⟩ :=
      lookupForward_spec hash n.nat m.flowKey nowMs
    · simp only [entryOf, handlePacket, hdir, hfound, htranslated]
      exact Or.inr ⟨s, _, rfl, .hit hreaps hlive, rfl⟩
    · simp only [entryOf, handlePacket, hdir, hfound, htranslated]
      split_ifs with hclosed
      · exact Or.inl ⟨rfl, t, hreaps, rfl⟩
      · rcases createFlow_spec hash { n with nat := t } m pool nowMs habs with
          ⟨s, hopens, hcreate⟩ | ⟨-, hcreate⟩
        · rw [hcreate]
          have hmay : MayOpen m := mayOpen_iff.mpr (Bool.eq_false_iff.mpr hclosed)
          exact Or.inr ⟨s, _, rfl, .opened hdir hreaps hmay hopens, rfl⟩
        · rw [hcreate]
          exact Or.inl ⟨rfl, t, hreaps, rfl⟩
  | reverse =>
    simp only [hdir] at htranslated
    obtain ⟨t, hreaps, ⟨i, -, s, hfound, -, hans, -⟩ | ⟨hfound, -⟩⟩ :=
      lookupReverse_spec hash n.nat m.srcIp m.srcPort m.dstPort m.proto nowMs
    · simp only [entryOf, handlePacket, hdir, hfound, htranslated]
      exact Or.inr ⟨s, _, rfl, .hit hreaps ((hreaps.live_iff s).mpr hans.1), rfl⟩
    · simp only [entryOf, handlePacket, hdir, hfound]
      exact Or.inl ⟨trivial, t, hreaps, rfl⟩

/-- A packet disturbs no live entry but its own. -/
theorem undisturbed_handlePacket (hash : FlowKey → UInt32) (n : LbNode bits) (pool : BackendPool)
    (nowMs : UInt32) (m : PacketMeta) :
    Undisturbed nowMs (entryOf hash n pool nowMs m) n.nat
      (handlePacket hash n pool nowMs m).1.nat := by
  rcases handlePacket_entryOf hash n pool nowMs m with
    ⟨hentry, t, hreaps, heq⟩ | ⟨s, r, hentry, halong, heq⟩
  · rw [heq]
    exact hreaps.undisturbed
  · have hwrites := writesAt_maybeTeardown halong.live.1 m
    have hkept := QuietSteps.kept (quietSteps_maybeTeardown m halong.live) s
    rw [hentry, heq]
    exact halong.undisturbed.write hwrites.rev hwrites.slots hkept.occupied

/-- Flows do not disturb each other. In every state that a run reaches, a packet leaves every entry
live at that time, other than the one it hits or creates, unchanged in all fields, overwrites no
cell of the reverse index that points to the slot of a live entry, and empties no cell and no slot.
Every other live flow that had a cell on the scan of its reply tuple still has one, and it is still
on the scan of its key. -/
theorem flows_undisturbed (bits : ℕ) (hash : FlowKey → UInt32) (timeoutMs : UInt32)
    (workerId nWorkers : UInt16) (as : List Arrival) (pool : BackendPool) (nowMs : UInt32)
    (m : PacketMeta) :
    let n := run hash (init bits timeoutMs workerId nWorkers) as
    let n' := (handlePacket hash n pool nowMs m).1
    let entry := entryOf hash n pool nowMs m
    Undisturbed nowMs entry n.nat n'.nat ∧
      ∀ s, (n.nat.slots s).Live n.nat.timeoutMs nowMs ∧ entry ≠ some s →
        (OnReplyScan hash n.nat s → OnReplyScan hash n'.nat s) ∧
          OnScan hash n.nat (n.nat.slots s).fwdKey s ∧
          OnScan hash n'.nat (n'.nat.slots s).fwdKey s := by
  intro n n' entry
  have h := undisturbed_handlePacket hash n pool nowMs m
  refine ⟨h, fun s hs => ?_⟩
  obtain ⟨hlive, hne⟩ := hs
  have hscan := (forwardMap_run bits timeoutMs workerId nWorkers as).onScan s hlive.1
  exact ⟨h.onReplyScan hlive hne, hscan, h.onScan hlive hne hscan⟩

/-! ### Refused packets -/

/-- A packet is refused with the table as it was but for entries reaped, and the pools and the
counters as they were. -/
theorem exists_reaps_of_refused (n : LbNode bits)
    (h : (handlePacket hash n pool nowMs m).2.1 = false) :
    ∃ t, Reaps nowMs n.nat t ∧ (handlePacket hash n pool nowMs m).1 = { n with nat := t } := by
  have hout := handlePacket_outcome hash n pool nowMs m
  generalize handlePacket hash n pool nowMs m = r at h hout ⊢
  cases hout with
  | forward => exact Bool.noConfusion h
  | opened => exact Bool.noConfusion h
  | refused _ hreaps => exact ⟨_, hreaps, rfl⟩
  | reverse => exact Bool.noConfusion h
  | unknown _ hreaps => exact ⟨_, hreaps, rfl⟩

/-- A table that is full of live entries of other flows refuses every forward packet. -/
theorem refused_of_full {n : LbNode bits} (hdir : m.dir = .forward)
    (hfull : ∀ s, (n.nat.slots s).Live n.nat.timeoutMs nowMs ∧ (n.nat.slots s).fwdKey ≠ m.flowKey) :
    (handlePacket hash n pool nowMs m).2.1 = false := by
  have hout := handlePacket_outcome hash n pool nowMs m
  generalize handlePacket hash n pool nowMs m = r at hout ⊢
  cases hout with
  | @forward t s _ hreaps _ hkey =>
    rw [hreaps.slots_eq_of_live (hfull s).1] at hkey
    exact absurd hkey (hfull s).2
  | @opened t s _ hreaps _ hopens =>
    exact absurd ((hreaps.live_iff s).mpr (hfull s).1) hopens.dead
  | refused => rfl
  | reverse hrev => exact absurd (hrev.symm.trans hdir) (by decide)
  | unknown => rfl

/-- A refused packet leaves no trace: in every state that a run reaches, if `HandlePacket` refuses a
packet, then the port pools, the reverse index and the counters of opened flows are as they were,
every slot is as it was unless its entry was expired and is now marked reaped, and the number of
flows is lower by exactly the number of entries that were so marked. -/
theorem refused_packet_leaves_no_trace (bits : ℕ) (hash : FlowKey → UInt32) (timeoutMs : UInt32)
    (workerId nWorkers : UInt16) (as : List Arrival) (pool : BackendPool) (nowMs : UInt32)
    (m : PacketMeta) :
    let n := run hash (init bits timeoutMs workerId nWorkers) as
    let n' := (handlePacket hash n pool nowMs m).1
    (handlePacket hash n pool nowMs m).2.1 = false →
      (∀ idx, (n'.portPools idx).free = (n.portPools idx).free) ∧ n'.nat.rev = n.nat.rev ∧
        n'.newFlows = n.newFlows ∧ n'.backendFlows = n.backendFlows ∧
        (∀ s, n'.nat.slots s = n.nat.slots s ∨
          (expired n.nat.timeoutMs (n.nat.slots s) nowMs = true ∧
            n'.nat.slots s = { n.nat.slots s with reaped := true })) ∧
        n'.nat.size + newlyReaped n.nat n'.nat = n.nat.size := by
  intro n n' hrefused
  obtain ⟨t, hreaps, heq⟩ := exists_reaps_of_refused n hrefused
  have hcount : n.nat.Counted := counted_run (counted_init bits timeoutMs workerId nWorkers) as
  have hn' : n' = { n with nat := t } := heq
  rw [hn']
  refine ⟨fun _ => rfl, hreaps.rev_eq, rfl, rfl, hreaps.slots_eq_or, ?_⟩
  rw [hreaps.counted hcount, hcount]
  exact hreaps.flowCount_add

/-- A table with one slot, in use by a live flow: the SYN of another client takes a port, finds no
slot, and leaves the port pools as they were. -/
theorem full_table_gives_port_back :
    let backend : BackendInfo := { ip := 0x0A000202, port := 8080 }
    let hash := FlowKey.hash .sse42
    let n := run hash (init 0 30000 0 1) [tcpArrival backend 40000 kTcpSyn]
    let m := tcpSegment 40001 kTcpSyn
    (handlePacket hash n (.single backend) 0 m).2.1 = false ∧
      ∀ idx, ((handlePacket hash n (.single backend) 0 m).1.portPools idx).free =
        (n.portPools idx).free := by
  intro backend hash
  obtain ⟨s, hslot, -⟩ := exists_synFlow hash 0 30000 backend
  have htrace := refused_packet_leaves_no_trace 0 hash 30000 0 1
    [tcpArrival backend 40000 kTcpSyn] (.single backend) 0 (tcpSegment 40001 kTcpSyn)
  generalize run hash (init 0 30000 0 1) [tcpArrival backend 40000 kTcpSyn] = n at hslot htrace ⊢
  intro n' m
  have hrefused : (handlePacket hash n (.single backend) 0 m).2.1 = false := by
    refine refused_of_full rfl fun c => ?_
    obtain rfl : c = s := Subsingleton.elim (h := inferInstanceAs (Subsingleton (Fin 1))) c s
    rw [hslot]
    exact ⟨live_of_lastSeen_eq ⟨rfl, rfl⟩ rfl, by decide⟩
  exact ⟨hrefused, (htrace hrefused).1⟩

end LbNode

end Cerebellum
