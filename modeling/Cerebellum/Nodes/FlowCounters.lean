import Cerebellum.Nodes.FlowCount
import Mathlib.Algebra.Order.BigOperators.Group.Finset

/-!
# The counters of opened flows

`LbNode::CreateFlow` counts each flow that it opens twice, once for the node and once for the
backend. The counters have 64 bits, wrap, and start from whatever the shared segment holds. What is
added to them agrees, no backend has more flows in the table than were counted for it, and a packet
is counted for a slot only if the slot is enabled in the pool of its burst.

## Main definitions

* `Cerebellum.NatTable.flowsOf`: the number of flows of a backend in the table.
* `Cerebellum.LbNode.countedFor`: the number of packets that a run counts for a backend.
* `Cerebellum.LbNode.Accounts`: what a run adds to the counters and to the table.

## Main results

* `Cerebellum.LbNode.mem_active_of_backendFlows_arrive`: whom a packet is counted for.
* `Cerebellum.LbNode.counters_account`: the counters after every run.
-/

namespace Cerebellum

open NatTable

/-- The number of flows of backend `b` that are not reaped. -/
def NatTable.flowsOf {bits : ℕ} (t : NatTable bits) (b : UInt8) : ℕ :=
  (Finset.univ.filter fun s => (t.slots s).Unreaped ∧ (t.slots s).backendIdx = b).card

namespace LbNode

variable {bits : ℕ} {hash : FlowKey → UInt32} {pool : BackendPool} {nowMs : UInt32}
  {m : PacketMeta}

/-! ### Single steps -/

theorem newFlows_releasePort (n : LbNode bits) (idx : UInt8) (port : UInt16) :
    (n.releasePort idx port).newFlows = n.newFlows := by
  unfold releasePort
  split_ifs <;> rfl

theorem backendFlows_releasePort (n : LbNode bits) (idx : UInt8) (port : UInt16) :
    (n.releasePort idx port).backendFlows = n.backendFlows := by
  unfold releasePort
  split_ifs <;> rfl

theorem newFlows_openAt (n : LbNode bits) (flow : NatFlow) (s : Slot bits) :
    (openAt hash n flow s nowMs).newFlows = n.newFlows + 1 := by
  simp only [openAt, newFlows_releasePort]

theorem backendFlows_openAt (n : LbNode bits) (flow : NatFlow) (s : Slot bits) (b : UInt8) :
    (openAt hash n flow s nowMs).backendFlows b =
      n.backendFlows b + if b = flow.backendIdx then 1 else 0 := by
  simp only [openAt, backendFlows_releasePort]
  split_ifs with hb
  · rw [hb, Function.update_self]
  · rw [Function.update_of_ne hb, UInt64.add_zero]

/-- A quiet step counts nothing. -/
theorem QuietStep.counters_eq {n n' : LbNode bits} (h : QuietStep nowMs n n') :
    n'.newFlows = n.newFlows ∧ n'.backendFlows = n.backendFlows := by
  cases h with
  | reap hexp => exact ⟨rfl, rfl⟩
  | touch hlive => exact ⟨rfl, rfl⟩
  | fin dir hlive => exact ⟨rfl, rfl⟩
  | close hlive =>
    exact ⟨newFlows_releasePort _ _ _, backendFlows_releasePort _ _ _⟩

/-- A quiet step gives no backend more flows. -/
theorem QuietStep.flowsOf_le {n n' : LbNode bits} (h : QuietStep nowMs n n') (b : UInt8) :
    n'.nat.flowsOf b ≤ n.nat.flowsOf b := by
  refine Finset.card_le_card (Finset.monotone_filter_right _ fun s _ hs => ?_)
  obtain ⟨hun, hidx⟩ := hs
  exact ⟨(h.kept s).unreaped hun, ((h.kept s).same hun).backendIdx.symm.trans hidx⟩

/-- Opening a flow gives one more flow at most to the backend of the flow, and none to another one.
-/
theorem flowsOf_openAt_le (n : LbNode bits) (flow : NatFlow) (s : Slot bits) (b : UInt8) :
    (openAt hash n flow s nowMs).nat.flowsOf b ≤
      n.nat.flowsOf b + if b = flow.backendIdx then 1 else 0 := by
  have hother (c : Slot bits) (hc : c ≠ s) :
      (openAt hash n flow s nowMs).nat.slots c = n.nat.slots c := by
    rw [openAt_slots, Function.update_of_ne hc]
  have hself : ((openAt hash n flow s nowMs).nat.slots s).backendIdx = flow.backendIdx := by
    rw [openAt_slots, Function.update_self]
  split_ifs with hb
  · refine (Finset.card_le_card fun c hc => ?_).trans (Finset.card_insert_le s _)
    by_cases hcs : c = s
    · exact hcs ▸ Finset.mem_insert_self _ _
    · have hc' := (Finset.mem_filter.mp hc).2
      rw [hother c hcs] at hc'
      exact Finset.mem_insert_of_mem (Finset.mem_filter.mpr ⟨Finset.mem_univ c, hc'⟩)
  · rw [add_zero]
    refine Finset.card_le_card fun c hc => ?_
    obtain ⟨hun, hidx⟩ := (Finset.mem_filter.mp hc).2
    have hcs : c ≠ s := by
      rintro rfl
      exact hb (hidx.symm.trans hself)
    rw [hother c hcs] at hun hidx
    exact Finset.mem_filter.mpr ⟨Finset.mem_univ c, hun, hidx⟩

/-! ### The backend that a packet is counted for -/

/-- A step counts for a slot only if the slot is enabled in the pool. -/
theorem Step.mem_active_of_backendFlows_ne {n n' : LbNode bits} (h : Step hash pool nowMs m n n')
    (hactive : pool.activeCount ≠ 0) {b : UInt8} (hb : n'.backendFlows b ≠ n.backendFlows b) :
    b ∈ pool.active := by
  cases h with
  | quiet h => exact absurd (congrFun h.counters_eq.2 b) hb
  | create hdir hmay hopens =>
    rw [backendFlows_openAt] at hb
    split_ifs at hb with heq
    · rw [heq]
      exact BackendPool.select_mem_active hash m.flowKey hactive
    · exact absurd (UInt64.add_zero _) hb

/-- A packet is counted for a slot only if the slot is enabled in the pool of its burst. -/
theorem mem_active_of_backendFlows_arrive (n : LbNode bits) {a : Arrival} {b : UInt8}
    (hb : (arrive hash n a).1.backendFlows b ≠ n.backendFlows b) :
    ∃ pool, a.pool = some pool ∧ b ∈ pool.active := by
  cases husable : a.usable with
  | none =>
    rw [arrive_of_not_usable hash n husable] at hb
    exact absurd rfl hb
  | some pool =>
    obtain ⟨hpool, hactive⟩ := Arrival.usable_eq_some.mp husable
    refine ⟨pool, hpool, ?_⟩
    have hsteps : Steps hash pool a.nowMs a.packet n (arrive hash n a).1 := arrive_steps n husable
    generalize (arrive hash n a).1 = n' at hb hsteps
    induction hsteps with
    | refl => exact absurd rfl hb
    | @tail c d _ hstep ih =>
      by_cases hc : c.backendFlows b = n.backendFlows b
      · exact hstep.mem_active_of_backendFlows_ne hactive (hc ▸ hb)
      · exact ih hc

/-! ### Runs -/

/-- The number of packets of the run that were counted for backend `b`. -/
def countedFor (hash : FlowKey → UInt32) : LbNode bits → List Arrival → UInt8 → ℕ
  | _, [], _ => 0
  | n, a :: as, b =>
    (if (arrive hash n a).1.backendFlows b ≠ n.backendFlows b then 1 else 0) +
      countedFor hash (arrive hash n a).1 as b

/-- From `n` to `n'` the packets in `counted` were counted, once for the node and once for a
backend, and flows of a backend came into the table only if they were counted for it. -/
structure Accounts (n n' : LbNode bits) (counted : UInt8 → ℕ) : Prop where
  newFlows_eq : n'.newFlows = n.newFlows + UInt64.ofNat (∑ b, counted b)
  backendFlows_eq : ∀ b, n'.backendFlows b = n.backendFlows b + UInt64.ofNat (counted b)
  flowsOf_le : ∀ b, n'.nat.flowsOf b ≤ n.nat.flowsOf b + counted b
  counted_eq_zero : ∀ b : UInt8, kMaxBackends ≤ b.toNat → counted b = 0

theorem Accounts.trans {n n' n'' : LbNode bits} {counted counted' : UInt8 → ℕ}
    (h : Accounts n n' counted) (h' : Accounts n' n'' counted') :
    Accounts n n'' fun b => counted b + counted' b where
  newFlows_eq := by
    rw [h'.newFlows_eq, h.newFlows_eq, Finset.sum_add_distrib, UInt64.ofNat_add, UInt64.add_assoc]
  backendFlows_eq b := by
    rw [h'.backendFlows_eq, h.backendFlows_eq, UInt64.ofNat_add, UInt64.add_assoc]
  flowsOf_le b := by
    rw [← Nat.add_assoc]
    exact (h'.flowsOf_le b).trans (Nat.add_le_add_right (h.flowsOf_le b) _)
  counted_eq_zero b hb := by rw [h.counted_eq_zero b hb, h'.counted_eq_zero b hb]

theorem Accounts.refl (n : LbNode bits) : Accounts n n fun _ => 0 := by
  refine ⟨?_, fun _ => (UInt64.add_zero _).symm, fun _ => Nat.le_refl _, fun _ _ => rfl⟩
  rw [Finset.sum_const_zero]
  exact (UInt64.add_zero _).symm

theorem QuietSteps.accounts {n n' : LbNode bits} (h : QuietSteps nowMs n n') :
    Accounts n n' fun _ => 0 := by
  induction h with
  | refl => exact .refl n
  | tail _ hstep ih =>
    obtain ⟨hnew, hbackend⟩ := hstep.counters_eq
    refine ⟨hnew.trans ih.newFlows_eq, fun b => ?_, fun b => ?_, fun _ _ => rfl⟩
    · rw [hbackend]
      exact ih.backendFlows_eq b
    · exact (hstep.flowsOf_le b).trans (ih.flowsOf_le b)

/-- Opening a flow counts it for its backend, which has a counter. -/
theorem accounts_openAt (n : LbNode bits) (flow : NatFlow) (s : Slot bits)
    (hidx : flow.backendIdx.toNat < kMaxBackends) :
    Accounts n (openAt hash n flow s nowMs) fun b => if b = flow.backendIdx then 1 else 0 where
  newFlows_eq := by
    rw [newFlows_openAt, Finset.sum_ite_eq', if_pos (Finset.mem_univ _)]
    rfl
  backendFlows_eq b := by
    rw [backendFlows_openAt]
    split_ifs <;> rfl
  flowsOf_le := flowsOf_openAt_le n flow s
  counted_eq_zero b hb := by
    refine if_neg ?_
    rintro rfl
    exact absurd (hb.trans_lt hidx) (Nat.lt_irrefl _)

/-- Adding one to a counter changes it, even if it wraps. -/
theorem add_one_ne (v : UInt64) : v + 1 ≠ v := by
  intro h
  have hone : (1 : UInt64) = 0 := (UInt64.add_right_inj v).mp (h.trans (UInt64.add_zero v).symm)
  exact absurd hone (by decide)

/-- A packet is counted for one backend at most. -/
theorem accounts_arrive (n : LbNode bits) (a : Arrival) : Accounts n (arrive hash n a).1 fun b =>
    if (arrive hash n a).1.backendFlows b ≠ n.backendFlows b then 1 else 0 := by
  suffices h : ∃ counted : UInt8 → ℕ, (∀ b, counted b ≤ 1) ∧
      Accounts n (arrive hash n a).1 counted by
    obtain ⟨counted, hle, hacc⟩ := h
    convert hacc using 2 with b
    have heq := hacc.backendFlows_eq b
    rcases Nat.le_one_iff_eq_zero_or_eq_one.mp (hle b) with hzero | hone
    · rw [hzero] at heq ⊢
      exact if_neg (not_not.mpr (heq.trans (UInt64.add_zero _)))
    · rw [hone] at heq ⊢
      exact if_pos (heq ▸ add_one_ne (n.backendFlows b))
  cases husable : a.usable with
  | none =>
    rw [arrive_of_not_usable hash n husable]
    exact ⟨_, fun _ => Nat.zero_le 1, .refl n⟩
  | some pool =>
    rw [arrive_of_usable hash n husable]
    obtain hquiet | ⟨t, s, -, hreaps, -, -, hquiet⟩ :=
      @handlePacket_quiet_or_opens bits hash pool a.nowMs n a.packet
    · exact ⟨_, fun _ => Nat.zero_le 1, QuietSteps.accounts hquiet⟩
    · have hidx := (BackendPool.select_lt hash a.packet.flowKey
        (Arrival.usable_eq_some.mp husable).2).trans_le pool.length_slots_le
      refine ⟨_, fun b => ?_, ((quietSteps_of_reaps hreaps).accounts.trans
        (accounts_openAt { n with nat := t } _ s hidx)).trans hquiet.accounts⟩
      split_ifs <;> decide

/-- What a run has counted is what it has added to the counters. -/
theorem accounts_run (n : LbNode bits) (as : List Arrival) :
    Accounts n (run hash n as) (countedFor hash n as) := by
  induction as generalizing n with
  | nil => exact .refl n
  | cons a as ih => exact (accounts_arrive n a).trans (ih (arrive hash n a).1)

/-- The flows of all backends are the flows of the table. -/
theorem sum_flowsOf (t : NatTable bits) : ∑ b, t.flowsOf b = t.flowCount := by
  simp only [NatTable.flowsOf, NatTable.flowCount, ← Finset.filter_filter]
  exact (Finset.card_eq_sum_card_fiberwise fun s _ => Finset.mem_coe.mpr (Finset.mem_univ _)).symm

/-- The counters account for the flows. Whatever they held at the start: after every run, the
counter of the node and those of the backends have grown, modulo `2 ^ 64`, by the number of packets
that were counted, each for one backend; none was counted for a backend without a counter; each
backend has at most as many flows in the table as were counted for it, and all of them together are
the flows of the table, so that these are at most those counted. -/
theorem counters_account (bits : ℕ) (hash : FlowKey → UInt32) (timeoutMs : UInt32)
    (workerId nWorkers : UInt16) (newFlows : UInt64) (backendFlows : UInt8 → UInt64)
    (as : List Arrival) :
    let n₀ : LbNode bits :=
      { init bits timeoutMs workerId nWorkers with
        newFlows := newFlows, backendFlows := backendFlows }
    let n := run hash n₀ as
    let counted := countedFor hash n₀ as
    n.newFlows = newFlows + UInt64.ofNat (∑ b, counted b) ∧
      (∀ b, n.backendFlows b = backendFlows b + UInt64.ofNat (counted b)) ∧
      (∀ b : UInt8, kMaxBackends ≤ b.toNat → counted b = 0) ∧
      (∀ b, n.nat.flowsOf b ≤ counted b) ∧
      n.nat.size = ∑ b, n.nat.flowsOf b ∧ n.nat.size ≤ ∑ b, counted b := by
  intro n₀ n counted
  have h : Accounts n₀ n counted := accounts_run n₀ as
  have hempty (b : UInt8) : n₀.nat.flowsOf b = 0 :=
    Finset.card_eq_zero.mpr (Finset.filter_eq_empty_iff.mpr fun _ _ hs => Bool.noConfusion hs.1.1)
  have hle (b : UInt8) : n.nat.flowsOf b ≤ counted b := by
    have hflows := h.flowsOf_le b
    rwa [hempty, Nat.zero_add] at hflows
  have hsize : n.nat.size = ∑ b, n.nat.flowsOf b := by
    rw [sum_flowsOf]
    exact counted_run (n := n₀) (counted_init bits timeoutMs workerId nWorkers) as
  refine ⟨h.newFlows_eq, h.backendFlows_eq, h.counted_eq_zero, hle, hsize, ?_⟩
  rw [hsize]
  exact Finset.sum_le_sum fun b _ => hle b

end LbNode

end Cerebellum
