import Cerebellum.Lb.NatTableSpec
import Mathlib.Algebra.BigOperators.Group.Finset.Piecewise
import Mathlib.Data.Fintype.BigOperators

/-!
# The number of flows in the conntrack table

`Size()` is a counter that `Insert`, `Reap` and `Close` adjust, each under its own condition.
`NatTable.Counted` ties it to the slots: the counter is the number of slots that are in use and not
reaped. Every operation of the table keeps this, whatever the times it is called with, and so it
holds after any sequence of calls.

`Reap` lowers the counter only if it is positive. `reapUnguarded` is the same function without that
test, on a 32-bit counter, and the calls with it in place of `reap` give the same tables: the test
is never needed.

## Main definitions

* `Cerebellum.NatTable.flowCount`, `Cerebellum.NatTable.Counted`.
* `Cerebellum.NatTable.newlyReaped`: the number of entries reaped between two tables.
* `Cerebellum.NatTable.Call`, `Cerebellum.NatTable.calls`: sequences of calls.
* `Cerebellum.NatTable.callsBy`: the same with another function in place of `Reap`.

## Main results

* `Cerebellum.NatTable.Counted.place`, `Counted.reap`, `Counted.close`: each change of the counter
  is the change of the number of flows.
* `Cerebellum.NatTable.Counted.calls`, `Cerebellum.NatTable.callsBy_reapUnguarded`.
-/

open Probing

namespace Cerebellum

namespace NatTable

variable {bits : ℕ} {t t' : NatTable bits} {s : Slot bits} {nowMs : UInt32} {flow : NatFlow}

/-- The number of slots that are in use and not reaped. -/
def flowCount (t : NatTable bits) : ℕ :=
  (Finset.univ.filter fun s => (t.slots s).Unreaped).card

/-- The number of slots that are live. -/
def liveCount (t : NatTable bits) (nowMs : UInt32) : ℕ :=
  (Finset.univ.filter fun s => (t.slots s).Live t.timeoutMs nowMs).card

/-- The counter is the number of flows that are not reaped. -/
def Counted (t : NatTable bits) : Prop := t.size = t.flowCount

theorem flowCount_le (t : NatTable bits) : t.flowCount ≤ 2 ^ bits := by
  refine (Finset.card_filter_le _ _).trans ?_
  rw [Finset.card_univ, Fintype.card_fin]

theorem liveCount_le_flowCount (t : NatTable bits) (nowMs : UInt32) :
    t.liveCount nowMs ≤ t.flowCount :=
  Finset.card_le_card (Finset.monotone_filter_right _ fun _ _ hlive => hlive.1)

theorem flowCount_pos (hun : (t.slots s).Unreaped) : 0 < t.flowCount :=
  Finset.card_pos.mpr ⟨s, Finset.mem_filter.mpr ⟨Finset.mem_univ s, hun⟩⟩

/-- An entry that is not reaped is counted. -/
theorem Counted.size_pos (h : t.Counted) (hun : (t.slots s).Unreaped) : 0 < t.size := by
  rw [h]
  exact flowCount_pos hun

/-! ### One slot written -/

/-- What writing one slot does to the number of flows. -/
theorem flowCount_update (h : t'.slots = Function.update t.slots s flow) :
    t'.flowCount + (if (t.slots s).Unreaped then 1 else 0) =
      t.flowCount + if flow.Unreaped then 1 else 0 := by
  have hcount (u : NatTable bits) :
      u.flowCount = ∑ c, if (u.slots c).Unreaped then 1 else 0 := by
    rw [flowCount, Finset.card_filter]
  have hwritten : (fun c => if (t'.slots c).Unreaped then 1 else 0) =
      Function.update (fun c => if (t.slots c).Unreaped then 1 else 0) s
        (if flow.Unreaped then 1 else 0) := by
    funext c
    rw [h]
    exact Function.apply_update (fun _ f => if NatFlow.Unreaped f then 1 else 0) t.slots s flow c
  rw [hcount, hcount t, hwritten, Finset.sum_update_of_mem (Finset.mem_univ s),
    ← Finset.add_sum_erase _ _ (Finset.mem_univ s), Finset.sdiff_singleton_eq_erase]
  omega

/-- Writing a slot without changing whether it holds a flow. -/
theorem Counted.write (h : t.Counted) (hslots : t'.slots = Function.update t.slots s flow)
    (hsize : t'.size = t.size) (hun : flow.Unreaped ↔ (t.slots s).Unreaped) : t'.Counted := by
  have hcount := flowCount_update hslots
  rw [Counted] at h ⊢
  simp only [hun] at hcount
  omega

theorem Counted.touch (h : t.Counted) : (t.touch s nowMs).Counted :=
  h.write rfl rfl Iff.rfl

/-- Reaping an entry in use lowers the counter exactly if it lowers the number of flows. -/
theorem Counted.reap (h : t.Counted) (hocc : (t.slots s).occupied = true) :
    (t.reap s).Counted := by
  by_cases hreaped : (t.slots s).reaped = true
  · rwa [NatTable.reap, if_pos hreaped]
  have hun : (t.slots s).Unreaped := ⟨hocc, by simpa using hreaped⟩
  have hcount := flowCount_update (reap_slots t s)
  have hgone : ¬ NatFlow.Unreaped { t.slots s with reaped := true } :=
    fun hun => Bool.noConfusion hun.2
  have hpos := h.size_pos hun
  have hsize : (t.reap s).size = t.size - 1 := by
    rw [NatTable.reap, if_neg hreaped]
    exact if_pos hpos
  rw [if_pos hun, if_neg hgone] at hcount
  rw [Counted] at h ⊢
  omega

/-- Placing a flow raises the counter exactly if the slot held no flow. -/
theorem Counted.place (hash : FlowKey → UInt32) (h : t.Counted) (hflow : flow.reaped = false)
    (s : Slot bits) (nowMs : UInt32) :
    (t.place hash flow s (if (t.slots s).Unreaped then t.size else t.size + 1) nowMs).Counted := by
  have hcount := flowCount_update (place_slots hash t flow s
    (if (t.slots s).Unreaped then t.size else t.size + 1) nowMs)
  have hun : NatFlow.Unreaped { flow with occupied := true, lastSeenMs := nowMs } := ⟨rfl, hflow⟩
  rw [if_pos hun] at hcount
  rw [Counted] at h ⊢
  rw [place_size]
  split_ifs at hcount ⊢ <;> omega

/-- Closing a flow lowers the counter by one, and closing it again leaves it. -/
theorem Counted.close (h : t.Counted) (s : Slot bits) : (t.close s).1.Counted := by
  by_cases hun : (t.slots s).Unreaped
  · have hslots : (t.close s).1.slots =
        Function.update t.slots s { t.slots s with reaped := true, snatPort := 0 } := by
      rw [close_of_unreaped hun]
    have hcount := flowCount_update hslots
    have hgone : ¬ NatFlow.Unreaped { t.slots s with reaped := true, snatPort := 0 } :=
      fun hun => Bool.noConfusion hun.2
    have hpos := h.size_pos hun
    have hsize : (t.close s).1.size = t.size - 1 := by
      rw [close_of_unreaped hun]
      exact if_pos hpos
    rw [if_pos hun, if_neg hgone] at hcount
    rw [Counted] at h ⊢
    omega
  · rwa [close_of_not_unreaped hun]

theorem Reaps.counted (h : Reaps nowMs t t') (hcount : t.Counted) : t'.Counted := by
  induction h with
  | refl => exact hcount
  | tail _ hstep ih =>
    obtain ⟨s, hexp, rfl⟩ := hstep
    exact ih.reap (occupied_of_expired hexp)

/-- The number of entries that were not reaped before and are reaped afterwards. -/
def newlyReaped (t t' : NatTable bits) : ℕ :=
  (Finset.univ.filter fun s => (t.slots s).reaped = false ∧ (t'.slots s).reaped = true).card

/-- Reaping lowers the number of flows by the number of entries reaped. -/
theorem Reaps.flowCount_add (h : Reaps nowMs t t') :
    t'.flowCount + newlyReaped t t' = t.flowCount := by
  have hslot (s : Slot bits) :
      ((t'.slots s).Unreaped ↔ (t.slots s).Unreaped ∧ (t'.slots s).Unreaped) ∧
        ((t.slots s).reaped = false ∧ (t'.slots s).reaped = true ↔
          (t.slots s).Unreaped ∧ ¬ (t'.slots s).Unreaped) := by
    rcases h.slots_eq_or s with heq | ⟨hexp, heq⟩
    · rw [heq]
      simp only [NatFlow.Unreaped]
      cases (t.slots s).occupied <;> cases (t.slots s).reaped <;> decide
    · rw [heq]
      simp only [NatFlow.Unreaped, occupied_of_expired hexp]
      cases (t.slots s).reaped <;> decide
  simp only [newlyReaped, flowCount, (hslot _).2]
  rw [Finset.filter_congr fun s _ => (hslot s).1, ← Finset.filter_filter, ← Finset.filter_filter]
  exact Finset.card_filter_add_card_filter_not _

/-! ### Sequences of calls -/

/-- `NatTable::Reap` without the test `size_ > 0U`: `--size_` on a 32-bit counter. -/
def reapUnguarded (t : NatTable bits) (s : Slot bits) : NatTable bits :=
  if (t.slots s).reaped then t
  else
    { t with
      slots := Function.update t.slots s { t.slots s with reaped := true }
      size := if t.size = 0 then 2 ^ 32 - 1 else t.size - 1 }

/-- Where the counter is right, the test in `Reap` is not needed. -/
theorem reapUnguarded_eq (h : t.Counted) (hocc : (t.slots s).occupied = true) :
    t.reapUnguarded s = t.reap s := by
  rw [reapUnguarded, reap]
  by_cases hreaped : (t.slots s).reaped = true
  · rw [if_pos hreaped, if_pos hreaped]
  · have hpos := h.size_pos ⟨hocc, by simpa using hreaped⟩
    rw [if_neg hreaped, if_neg hreaped, if_neg hpos.ne', if_pos hpos]

/-- A call of a public function of the table. The flows handed to `Insert` are not marked as
reaped, and `Close` is given an entry of the table. -/
inductive Call (bits : ℕ) where
  | lookupForward (key : FlowKey) (nowMs : UInt32)
  | lookupReverse (backendIp : UInt32) (backendPort snatPort : UInt16) (proto : UInt8)
      (nowMs : UInt32)
  | insert (flow : NatFlow) (hflow : flow.reaped = false) (nowMs : UInt32)
  | close (s : Slot bits)

section Calls

variable (reap : NatTable bits → Slot bits → NatTable bits) (hash : FlowKey → UInt32)

/-- The loop body of `LookupForward`, with `reap` for `Reap`. -/
def visitForwardBy (key : FlowKey) (nowMs : UInt32) (t : NatTable bits) (s : Slot bits) :
    Visit (NatTable bits) (Slot bits) :=
  let flow := t.slots s
  if !flow.occupied then .done t none
  else if expired t.timeoutMs flow nowMs then .next (reap t s)
  else if flow.fwdKey = key then .done (t.touch s nowMs) (some s)
  else .next t

/-- The loop body of `LookupReverse`, with `reap` for `Reap`. -/
def visitReverseBy (backendIp : UInt32) (backendPort snatPort : UInt16) (proto : UInt8)
    (nowMs : UInt32) (t : NatTable bits) (cell : Slot bits) :
    Visit (NatTable bits) (Slot bits) :=
  match t.rev cell with
  | none => .done t none
  | some s =>
    let flow := t.slots s
    if flow.occupied && expired t.timeoutMs flow nowMs then .next (reap t s)
    else if flow.occupied = true ∧ flow.backendIp = backendIp ∧ flow.backendPort = backendPort ∧
        flow.snatPort = snatPort ∧ flow.fwdKey.proto = proto then
      .done (t.touch s nowMs) (some s)
    else .next t

/-- The table after a call, with `reap` for `Reap`. -/
def callBy (t : NatTable bits) : Call bits → NatTable bits
  | .lookupForward key nowMs => (scan (visitForwardBy reap key nowMs) (home (hash key)) t).1
  | .lookupReverse backendIp backendPort snatPort proto nowMs =>
    (scan (visitReverseBy reap backendIp backendPort snatPort proto nowMs)
      (home (hash (replyKey backendIp backendPort snatPort proto))) t).1
  | .insert flow _ nowMs => (t.insert hash flow nowMs).1
  | .close s =>
    if !(t.slots s).occupied || (t.slots s).reaped then t
    else (reap t s).setSlot s { (reap t s).slots s with snatPort := 0 }

/-- The table after a sequence of calls, with `reap` for `Reap`. -/
def callsBy (t : NatTable bits) (cs : List (Call bits)) : NatTable bits :=
  cs.foldl (callBy reap hash) t

end Calls

/-- The table after a call. -/
def call (hash : FlowKey → UInt32) (t : NatTable bits) : Call bits → NatTable bits
  | .lookupForward key nowMs => (t.lookupForward hash key nowMs).1
  | .lookupReverse backendIp backendPort snatPort proto nowMs =>
    (t.lookupReverse hash backendIp backendPort snatPort proto nowMs).1
  | .insert flow _ nowMs => (t.insert hash flow nowMs).1
  | .close s => (t.close s).1

/-- The table after a sequence of calls. -/
def calls (hash : FlowKey → UInt32) (t : NatTable bits) (cs : List (Call bits)) : NatTable bits :=
  cs.foldl (call hash) t

variable (hash : FlowKey → UInt32)

/-- Every call keeps the counter right. -/
theorem Counted.call (h : t.Counted) (c : Call bits) : (t.call hash c).Counted := by
  cases c with
  | lookupForward key nowMs =>
    obtain ⟨t₁, hreaps, ⟨s, hfound, -, -⟩ | ⟨hfound, -⟩⟩ := lookupForward_spec hash t key nowMs
    · rw [NatTable.call, hfound]
      exact (hreaps.counted h).touch
    · rw [NatTable.call, hfound]
      exact hreaps.counted h
  | lookupReverse backendIp backendPort snatPort proto nowMs =>
    obtain ⟨t₁, hreaps, ⟨i, -, s, hfound, -⟩ | ⟨hfound, -⟩⟩ :=
      lookupReverse_spec hash t backendIp backendPort snatPort proto nowMs
    · rw [NatTable.call, hfound]
      exact (hreaps.counted h).touch
    · rw [NatTable.call, hfound]
      exact hreaps.counted h
  | insert flow hflow nowMs =>
    obtain ⟨i, -, s, -, -, -, hins⟩ | ⟨-, hins⟩ := insert_spec hash t flow nowMs
    · rw [NatTable.call, hins]
      exact h.place hash hflow s nowMs
    · rwa [NatTable.call, hins]
  | close s => exact h.close s

/-- The counter is right after any sequence of calls. -/
theorem Counted.calls (h : t.Counted) (cs : List (Call bits)) : (t.calls hash cs).Counted :=
  List.foldlRecOn cs _ h fun _ ih c _ => ih.call hash c

theorem counted_fresh (timeoutMs : UInt32) : Counted ({ timeoutMs } : NatTable bits) := by
  refine (Finset.card_eq_zero.mpr (Finset.filter_eq_empty_iff.mpr ?_)).symm
  intro s _ hun
  exact Bool.noConfusion hun.1

/-- A call with `Reap` as it is. -/
theorem callBy_reap (t : NatTable bits) (c : Call bits) :
    t.callBy NatTable.reap hash c = t.call hash c := by
  cases c with
  | lookupForward key nowMs => rfl
  | lookupReverse backendIp backendPort snatPort proto nowMs => rfl
  | insert flow hflow nowMs => rfl
  | close s =>
    simp only [callBy, call, close]
    split_ifs <;> rfl

/-- Where the counter is right, a call does the same without the test in `Reap`. -/
theorem callBy_reapUnguarded (h : t.Counted) (c : Call bits) :
    t.callBy reapUnguarded hash c = t.call hash c := by
  cases c with
  | lookupForward key nowMs =>
    refine congrArg Prod.fst (scan_congr Counted ?_ ?_ (home (hash key)) h)
    · intro t s ht
      dsimp only [visitForwardBy, visitForward]
      split_ifs with hocc hexp hkey
      · rfl
      · rw [reapUnguarded_eq ht (occupied_of_expired hexp)]
      · rfl
      · rfl
    · intro t s t' ht hnext
      exact (visitForward_next hnext).1.counted ht
  | lookupReverse backendIp backendPort snatPort proto nowMs =>
    refine congrArg Prod.fst (scan_congr Counted ?_ ?_
      (home (hash (replyKey backendIp backendPort snatPort proto))) h)
    · intro t cell ht
      dsimp only [visitReverseBy, visitReverse]
      cases t.rev cell with
      | none => rfl
      | some s =>
        dsimp only
        split_ifs with hexp hmatch
        · rw [reapUnguarded_eq ht (Bool.and_eq_true_iff.mp hexp).1]
        · rfl
        · rfl
    · intro t cell t' ht hnext
      exact (visitReverse_next hnext).1.counted ht
  | insert flow hflow nowMs => rfl
  | close s =>
    rw [← callBy_reap]
    simp only [callBy]
    split_ifs with hgone
    · rfl
    · rw [Bool.not_eq_true, Bool.or_eq_false_iff, Bool.not_eq_false'] at hgone
      rw [reapUnguarded_eq h hgone.1]

/-- Without the test in `Reap`, a sequence of calls gives the same table. -/
theorem callsBy_reapUnguarded (h : t.Counted) (cs : List (Call bits)) :
    t.callsBy reapUnguarded hash cs = t.calls hash cs := by
  induction cs generalizing t with
  | nil => rfl
  | cons c cs ih =>
    have hstep := callBy_reapUnguarded hash h c
    have hrest := ih (h.call hash c)
    rw [callsBy, calls, List.foldl_cons, List.foldl_cons, hstep]
    exact hrest

end NatTable

end Cerebellum
