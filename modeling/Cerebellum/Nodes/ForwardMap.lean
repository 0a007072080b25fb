import Cerebellum.Nodes.LbSteps

/-!
# The forward table is a map

The slots hold at most one entry for each key that is not reaped, and a forward lookup finds it
exactly while it is within the timeout. Slots are never emptied, so the scan of an entry's key meets
only slots in use before it meets the entry; this is the invariant `ForwardMap`, and it survives
every operation because a new entry takes the first slot that is not live.

Nothing is assumed of the clock: the lookups compare 32-bit differences.

## Main definitions

* `Cerebellum.NatTable.ForwardMap`: every unreaped entry can be reached by the scan of its key, and
  no two of them have the same key.

## Main results

* `Cerebellum.LbNode.forwardMap_run`: the invariant holds after every run.
* `Cerebellum.LbNode.forward_table_is_a_map`: the table behaves as a map from keys to entries.
-/

open Probing

namespace Cerebellum

open NatTable LbNode

namespace NatTable

variable {bits : ℕ} {hash : FlowKey → UInt32} {t t' : NatTable bits} {nowMs : UInt32}
  {key : FlowKey}

/-- The slot is the `i`-th of the scan of `key`, and the slots before it are in use. -/
def OnScan (hash : FlowKey → UInt32) (t : NatTable bits) (key : FlowKey) (s : Slot bits) : Prop :=
  ∃ i < 2 ^ bits, s = probeAt (home (hash key)) i ∧
    ∀ j < i, (t.slots (probeAt (home (hash key)) j)).occupied = true

/-- Every entry that is not reaped is on the scan of its key, and no other such entry has its key.
-/
structure ForwardMap (hash : FlowKey → UInt32) (t : NatTable bits) : Prop where
  onScan : ∀ s, (t.slots s).Unreaped → OnScan hash t (t.slots s).fwdKey s
  unique : ∀ s s', (t.slots s).Unreaped → (t.slots s').Unreaped →
    (t.slots s).fwdKey = (t.slots s').fwdKey → s = s'

theorem forwardMap_empty (timeoutMs : UInt32) :
    ForwardMap hash ({ timeoutMs := timeoutMs } : NatTable bits) where
  onScan _ h := Bool.noConfusion h.1
  unique _ _ h := Bool.noConfusion h.1

/-- What keeps every slot keeps the invariant. -/
theorem ForwardMap.of_kept (h : ForwardMap hash t)
    (hkept : ∀ s, Kept (t.slots s) (t'.slots s)) : ForwardMap hash t' where
  onScan s hs := by
    obtain ⟨i, hi, hsi, hbefore⟩ := h.onScan s ((hkept s).unreaped hs)
    rw [((hkept s).same hs).fwdKey]
    exact ⟨i, hi, hsi, fun j hj => ((hkept _).occupied).trans (hbefore j hj)⟩
  unique s s' hs hs' hkey := by
    rw [((hkept s).same hs).fwdKey, ((hkept s').same hs').fwdKey] at hkey
    exact h.unique s s' ((hkept s).unreaped hs) ((hkept s').unreaped hs') hkey

theorem Reaps.kept (h : Reaps nowMs t t') (s : Slot bits) : Kept (t.slots s) (t'.slots s) := by
  rcases h.slots_eq_or s with heq | ⟨-, heq⟩ <;> rw [heq]
  · exact .refl _
  · exact .of_reaped rfl rfl

theorem ForwardMap.reaps (h : ForwardMap hash t) (hreaps : Reaps nowMs t t') :
    ForwardMap hash t' :=
  h.of_kept hreaps.kept

/-- In a table that is a map, a key that is not on the scan is nowhere. -/
theorem ForwardMap.absent (h : ForwardMap hash t) (habs : AbsentOnScan hash t key)
    (s : Slot bits) : ¬ ((t.slots s).Unreaped ∧ (t.slots s).fwdKey = key) := by
  rintro ⟨hun, rfl⟩
  obtain ⟨i, hi, hsi, hbefore⟩ := h.onScan s hun
  refine habs i hi hbefore ?_
  rw [← hsi]
  exact ⟨hun, rfl⟩

/-- Putting an entry for an absent key into the first slot that is not live keeps the invariant. -/
theorem ForwardMap.update (h : ForwardMap hash t) {f : NatFlow} {s : Slot bits}
    (habs : AbsentOnScan hash t key)
    (hfirst : ∃ i < 2 ^ bits, s = probeAt (home (hash key)) i ∧
      ∀ j < i, (t.slots (probeAt (home (hash key)) j)).Live t.timeoutMs nowMs)
    (ht' : t'.slots = Function.update t.slots s f) (hkey : f.fwdKey = key)
    (hocc : f.occupied = true) : ForwardMap hash t' := by
  obtain ⟨i, hi, hs, hbefore⟩ := hfirst
  subst hkey
  have hself : t'.slots s = f := by rw [ht', Function.update_self]
  have hother {c : Slot bits} (hc : c ≠ s) : t'.slots c = t.slots c := by
    rw [ht', Function.update_of_ne hc]
  have hused {c : Slot bits} (hc : (t.slots c).occupied = true) :
      (t'.slots c).occupied = true := by
    rcases eq_or_ne c s with rfl | hne
    · rwa [hself]
    · rwa [hother hne]
  constructor
  · intro c hc
    rcases eq_or_ne c s with rfl | hne
    · rw [hself]
      exact ⟨i, hi, hs, fun j hj => hused (hbefore j hj).1.1⟩
    · rw [hother hne] at hc ⊢
      obtain ⟨k, hk, hck, hfirst⟩ := h.onScan c hc
      exact ⟨k, hk, hck, fun j hj => hused (hfirst j hj)⟩
  · intro c c' hc hc' hkey
    rcases eq_or_ne c s with hcs | hne <;> rcases eq_or_ne c' s with hcs' | hne'
    · exact hcs.trans hcs'.symm
    · rw [hcs, hself, hother hne'] at hkey
      rw [hother hne'] at hc'
      exact absurd ⟨hc', hkey.symm⟩ (h.absent habs c')
    · rw [hcs', hself, hother hne] at hkey
      rw [hother hne] at hc
      exact absurd ⟨hc, hkey⟩ (h.absent habs c)
    · rw [hother hne] at hc hkey
      rw [hother hne'] at hc' hkey
      exact h.unique c c' hc hc' hkey

/-- A forward lookup finds the entry for the key while it is live, and refreshes it. -/
theorem ForwardMap.lookupForward_of_live (h : ForwardMap hash t) {s : Slot bits}
    (hlive : (t.slots s).Live t.timeoutMs nowMs) (hkey : (t.slots s).fwdKey = key) :
    (lookupForward hash t key nowMs).2 = some s ∧
      (lookupForward hash t key nowMs).1.slots s = { t.slots s with lastSeenMs := nowMs } := by
  obtain ⟨t₁, hreaps, ⟨c, hfound, hc, hckey⟩ | ⟨hfound, habs⟩⟩ :=
    lookupForward_spec hash t key nowMs
  · have hsame := hreaps.slots_eq_of_unreaped hc.1
    rw [hsame] at hckey
    obtain rfl := h.unique s c hlive.1 (hsame ▸ hc.1) (hkey.trans hckey.symm)
    rw [hfound]
    exact ⟨rfl, by rw [touch_slots, Function.update_self, hsame]⟩
  · have hsame := hreaps.slots_eq_of_live hlive
    exact absurd (hsame.symm ▸ ⟨hlive.1, hkey⟩) ((h.reaps hreaps).absent habs s)

/-- A forward lookup that finds an entry finds a live one for the key. -/
theorem live_of_lookupForward_eq_some {s : Slot bits}
    (hs : (lookupForward hash t key nowMs).2 = some s) :
    (t.slots s).Live t.timeoutMs nowMs ∧ (t.slots s).fwdKey = key := by
  obtain ⟨t₁, hreaps, ⟨c, hfound, hc, hckey⟩ | ⟨hfound, -⟩⟩ :=
    lookupForward_spec hash t key nowMs
  · rw [hfound] at hs
    obtain rfl := Option.some.inj hs
    exact ⟨(hreaps.live_iff c).mp hc, hreaps.slots_eq_of_unreaped hc.1 ▸ hckey⟩
  · rw [hfound] at hs
    exact absurd hs (by simp)

/-- After a forward lookup that finds nothing, the table is still a map, without the key. -/
theorem ForwardMap.absent_of_lookupForward_eq_none (h : ForwardMap hash t)
    (hnone : (lookupForward hash t key nowMs).2 = none) :
    ForwardMap hash (lookupForward hash t key nowMs).1 ∧
      AbsentOnScan hash (lookupForward hash t key nowMs).1 key := by
  obtain ⟨t₁, hreaps, ⟨c, hfound, -⟩ | ⟨hfound, habs⟩⟩ := lookupForward_spec hash t key nowMs
  · rw [hfound] at hnone
    exact absurd hnone (by simp)
  · rw [hfound]
    exact ⟨h.reaps hreaps, habs⟩

/-- Inserting an entry for an absent key leaves a map. -/
theorem ForwardMap.insert (h : ForwardMap hash t) {flow : NatFlow}
    (habs : AbsentOnScan hash t flow.fwdKey) :
    ForwardMap hash (NatTable.insert hash t flow nowMs).1 := by
  rcases insert_spec hash t flow nowMs with ⟨i, hi, s, hs, -, hbefore, hins⟩ | ⟨-, hins⟩
  · rw [hins]
    exact h.update habs ⟨i, hi, hs, hbefore⟩ (place_slots ..) rfl rfl
  · rwa [hins]

end NatTable

namespace LbNode

variable {bits : ℕ} {hash : FlowKey → UInt32} {pool : BackendPool} {nowMs : UInt32}
  {m : PacketMeta}

theorem forwardMap_step {n n' : LbNode bits} (h : ForwardMap hash n.nat)
    (hstep : Step hash pool nowMs m n n') : ForwardMap hash n'.nat := by
  cases hstep with
  | quiet hquiet => exact h.of_kept hquiet.kept
  | create hdir hmay hopens =>
    exact h.update hopens.absent hopens.first (openAt_slots ..) rfl rfl

/-- The forward table is a map after every run. -/
theorem forwardMap_run (bits : ℕ) (timeoutMs : UInt32) (workerId nWorkers : UInt16)
    (as : List Arrival) :
    ForwardMap hash (run hash (init bits timeoutMs workerId nWorkers) as).nat :=
  run_induct (fun n => ForwardMap hash n.nat) (forwardMap_empty timeoutMs)
    (fun _ _ _ _ _ _ h hstep => forwardMap_step h hstep) as

/-- The forward table is a map, whatever the capacity, the packets and the clock. After any run,

* at most one entry for a key is not reaped;
* a lookup at `nowMs` returns the slot of that entry and refreshes it if the entry was last seen
  at most a timeout ago, in 32-bit arithmetic, and returns nothing otherwise;
* after a lookup that returned nothing no entry for the key is left that is not reaped, and
  inserting one then gives no second entry for it. -/
theorem forward_table_is_a_map (hash : FlowKey → UInt32) (bits : ℕ) (timeoutMs : UInt32)
    (workerId nWorkers : UInt16) (as : List Arrival) (key : FlowKey) :
    let t := (run hash (init bits timeoutMs workerId nWorkers) as).nat
    (∀ s s', (t.slots s).Unreaped → (t.slots s).fwdKey = key →
      (t.slots s').Unreaped → (t.slots s').fwdKey = key → s = s') ∧
    (∀ nowMs s, (t.slots s).Unreaped → (t.slots s).fwdKey = key →
      nowMs - (t.slots s).lastSeenMs ≤ timeoutMs →
        (t.lookupForward hash key nowMs).2 = some s ∧
        (t.lookupForward hash key nowMs).1.slots s = { t.slots s with lastSeenMs := nowMs }) ∧
    (∀ nowMs, (¬ ∃ s, (t.slots s).Unreaped ∧ (t.slots s).fwdKey = key ∧
      nowMs - (t.slots s).lastSeenMs ≤ timeoutMs) → (t.lookupForward hash key nowMs).2 = none) ∧
    (∀ nowMs, (t.lookupForward hash key nowMs).2 = none →
      (∀ s, ¬ (((t.lookupForward hash key nowMs).1.slots s).Unreaped ∧
        ((t.lookupForward hash key nowMs).1.slots s).fwdKey = key)) ∧
      ∀ flow, flow.fwdKey = key →
        let t' := ((t.lookupForward hash key nowMs).1.insert hash flow nowMs).1
        ∀ s s', (t'.slots s).Unreaped → (t'.slots s).fwdKey = key →
          (t'.slots s').Unreaped → (t'.slots s').fwdKey = key → s = s') := by
  intro t
  have hmap : ForwardMap hash t := forwardMap_run bits timeoutMs workerId nWorkers as
  have htime : t.timeoutMs = timeoutMs := run_timeoutMs _ as
  refine ⟨fun s s' hs hk hs' hk' => hmap.unique s s' hs hs' (hk.trans hk'.symm),
    fun nowMs s hs hk hin => hmap.lookupForward_of_live ⟨hs, htime.symm ▸ hin⟩ hk,
    fun nowMs hno => ?_, fun nowMs hnone => ?_⟩
  · by_contra hsome
    obtain ⟨s, hs⟩ := Option.ne_none_iff_exists'.mp hsome
    obtain ⟨hlive, hkey⟩ := live_of_lookupForward_eq_some hs
    exact hno ⟨s, hlive.1, hkey, htime ▸ hlive.2⟩
  · obtain ⟨hmap', habs⟩ := hmap.absent_of_lookupForward_eq_none hnone
    refine ⟨hmap'.absent habs, ?_⟩
    rintro flow rfl t' s s' hs hk hs' hk'
    exact (hmap'.insert habs).unique s s' hs hs' (hk.trans hk'.symm)

end LbNode

end Cerebellum
