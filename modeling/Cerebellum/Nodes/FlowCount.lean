import Cerebellum.Lb.FlowCount
import Cerebellum.Nodes.LbSteps

/-!
# The published number of flows

The counter of the table is right after every run. `LbNode::Process` ends by storing it into
`active_flows`, unless the pool has no enabled backend: then it returns early and leaves both the
table and the stored value as they were. `active_flows` is in a shared segment, which a process that
was killed leaves behind and the next one does not clear. So the stored value is right as soon as
some burst has found an enabled backend, and before that only if it was zero from the start.

## Main definitions

* `Cerebellum.Burst`, `Cerebellum.LbNode.serve`: calls of `Process`, with the counters they publish.

## Main results

* `Cerebellum.LbNode.counted_run`: the counter is right after every run.
* `Cerebellum.LbNode.flow_count_exact`: the counter after any calls of the table, and when the
  number published by `Process` is right.
* `Cerebellum.LbNode.stale_active_flows`: a burst after which it is not.
-/

namespace Cerebellum

open NatTable

/-- A call of `Process`: the pool it loads, the clock value it reads and its packets. -/
structure Burst where
  pool : Option BackendPool
  nowMs : UInt32
  packets : List PacketMeta

/-- The burst finds a pool with an enabled backend. -/
def Burst.Usable (b : Burst) : Prop := ∃ pool, b.pool = some pool ∧ pool.activeCount ≠ 0

namespace LbNode

variable {bits : ℕ} {hash : FlowKey → UInt32} {pool : BackendPool} {nowMs : UInt32}
  {m : PacketMeta}

/-! ### The counter of the table -/

/-- A single step keeps the counter right. -/
theorem Step.counted {n n' : LbNode bits} (h : Step hash pool nowMs m n n')
    (hn : n.nat.Counted) : n'.nat.Counted := by
  cases h with
  | quiet h =>
    cases h with
    | reap hexp => exact hn.reap (occupied_of_expired hexp)
    | touch hlive => exact hn.touch
    | fin dir hlive => exact hn.write rfl rfl Iff.rfl
    | @close s hlive =>
      rw [teardown, releasePort_nat]
      exact hn.close s
  | @create s hdir hmay hopens =>
    rw [openAt_nat]
    exact hn.place hash rfl s nowMs

/-- A run keeps the counter right. -/
theorem counted_run {n : LbNode bits} (hn : n.nat.Counted) (as : List Arrival) :
    (run hash n as).nat.Counted :=
  run_induct (fun n => n.nat.Counted) hn (fun _ _ _ _ _ _ hn hstep => hstep.counted hn) as

theorem counted_init (bits : ℕ) (timeoutMs : UInt32) (workerId nWorkers : UInt16) :
    (init bits timeoutMs workerId nWorkers).nat.Counted :=
  counted_fresh timeoutMs

/-! ### The published counter -/

section Serve

variable (hash)

/-- The node and its `active_flows` after a call of `Process`. -/
def serve (st : LbNode bits × ℕ) (b : Burst) : LbNode bits × ℕ :=
  let processed := process hash st.1 st.2 b.pool b.nowMs b.packets
  (processed.1, processed.2.1)

/-- The node and its `active_flows` after a sequence of calls of `Process`. -/
def serveAll (st : LbNode bits × ℕ) (bursts : List Burst) : LbNode bits × ℕ :=
  bursts.foldl (serve hash) st

end Serve

/-- What is stored in `active_flows` is the number of flows in the table. -/
structure Published (st : LbNode bits × ℕ) : Prop where
  counted : st.1.nat.Counted
  stored : st.2 = st.1.nat.size

theorem counted_serve {st : LbNode bits × ℕ} (h : st.1.nat.Counted) (b : Burst) :
    (serve hash st b).1.nat.Counted := by
  rw [serve, (process_eq hash st.1 st.2 b.pool b.nowMs b.packets).1]
  exact counted_run h _

theorem counted_serveAll {st : LbNode bits × ℕ} (h : st.1.nat.Counted) (bursts : List Burst) :
    (serveAll hash st bursts).1.nat.Counted := by
  induction bursts generalizing st with
  | nil => exact h
  | cons b bursts ih => exact ih (counted_serve h b)

/-- A burst with an enabled backend stores the counter of the table. -/
theorem serve_of_usable (st : LbNode bits × ℕ) {b : Burst} (h : b.Usable) :
    (serve hash st b).2 = (serve hash st b).1.nat.size := by
  obtain ⟨pool, hpool, hactive⟩ := h
  simp only [serve, process, hpool, if_neg hactive]

/-- A burst without an enabled backend changes nothing. -/
theorem serve_of_not_usable (st : LbNode bits × ℕ) {b : Burst} (h : ¬ b.Usable) :
    serve hash st b = st := by
  cases hpool : b.pool with
  | none => simp only [serve, process, hpool]
  | some pool =>
    have hactive : pool.activeCount = 0 := by
      by_contra hactive
      exact h ⟨pool, hpool, hactive⟩
    simp only [serve, process, hpool, if_pos hactive]

theorem Published.serve {st : LbNode bits × ℕ} (h : Published st) (b : Burst) :
    Published (serve hash st b) := by
  by_cases husable : b.Usable
  · exact ⟨counted_serve h.counted b, serve_of_usable st husable⟩
  · rwa [serve_of_not_usable st husable]

theorem Published.serveAll {st : LbNode bits × ℕ} (h : Published st) (bursts : List Burst) :
    Published (serveAll hash st bursts) :=
  List.foldlRecOn bursts _ h fun _ ih b _ => ih.serve b

/-- Whatever was stored before, the first burst with an enabled backend puts it right. -/
theorem published_serveAll_of_usable {st : LbNode bits × ℕ} (h : st.1.nat.Counted)
    {bursts : List Burst} (husable : ∃ b ∈ bursts, b.Usable) :
    Published (LbNode.serveAll hash st bursts) := by
  induction bursts generalizing st with
  | nil =>
    obtain ⟨b, hb, -⟩ := husable
    exact absurd hb List.not_mem_nil
  | cons b bursts ih =>
    by_cases hb : b.Usable
    · have hnow : Published (LbNode.serve hash st b) :=
        ⟨counted_serve h b, serve_of_usable st hb⟩
      exact hnow.serveAll bursts
    · refine ih (counted_serve h b) ?_
      obtain ⟨c, hc, hcu⟩ := husable
      rcases List.mem_cons.mp hc with rfl | hc
      · exact absurd hcu hb
      · exact ⟨c, hc, hcu⟩

/-- Bursts without an enabled backend change nothing. -/
theorem serveAll_of_not_usable (st : LbNode bits × ℕ) {bursts : List Burst}
    (h : ∀ b ∈ bursts, ¬ b.Usable) : serveAll hash st bursts = st := by
  induction bursts with
  | nil => rfl
  | cons b bursts ih =>
    obtain ⟨hb, hbursts⟩ := List.forall_mem_cons.mp h
    rw [serveAll, List.foldl_cons, serve_of_not_usable st hb]
    exact ih hbursts

/-- A table that was not used yet has no flows. -/
theorem flowCount_init (bits : ℕ) (timeoutMs : UInt32) (workerId nWorkers : UInt16) :
    (init bits timeoutMs workerId nWorkers).nat.flowCount = 0 :=
  (counted_init bits timeoutMs workerId nWorkers).symm

/-- After some bursts the stored value is right if and only if it was zero from the start or one of
the bursts has found an enabled backend. -/
theorem stored_eq_flowCount_iff (hash : FlowKey → UInt32) (bits : ℕ) (timeoutMs : UInt32)
    (workerId nWorkers : UInt16) (stored : ℕ) (bursts : List Burst) :
    let st := serveAll hash (init bits timeoutMs workerId nWorkers, stored) bursts
    st.2 = st.1.nat.flowCount ↔ stored = 0 ∨ ∃ b ∈ bursts, b.Usable := by
  intro st
  have hinit := counted_init bits timeoutMs workerId nWorkers
  by_cases husable : ∃ b ∈ bursts, b.Usable
  · have hpublished : Published st := published_serveAll_of_usable hinit husable
    exact iff_of_true (hpublished.stored.trans hpublished.counted) (Or.inr husable)
  · have hnone : ∀ b ∈ bursts, ¬ b.Usable := fun b hb hu => husable ⟨b, hb, hu⟩
    rw [show st = _ from serveAll_of_not_usable _ hnone, flowCount_init, or_iff_left husable]

/-- The flow count. After any calls of the table's functions, with any times, `Size()` is the number
of slots in use and not reaped, so it is at most the capacity and at least the number of live flows
at any time, and the test `size_ > 0` in `Reap` can be left out; and the same number is in the table
after any calls of `Process`. The number in `active_flows` is that number after every one of these
calls if and only if it was zero from the start or the first burst finds an enabled backend; it is
so after all of them if and only if it was zero or one of the bursts has found an enabled backend.
-/
theorem flow_count_exact (bits : ℕ) (hash : FlowKey → UInt32) (timeoutMs : UInt32) :
    (∀ cs : List (NatTable.Call bits),
      let t := calls hash { timeoutMs } cs
      t.size = t.flowCount ∧ t.size ≤ 2 ^ bits ∧ (∀ nowMs, t.liveCount nowMs ≤ t.size) ∧
        callsBy reapUnguarded hash { timeoutMs } cs = t) ∧
      ∀ (workerId nWorkers : UInt16) (stored : ℕ) (bursts : List Burst),
        let after := serveAll hash (init bits timeoutMs workerId nWorkers, stored)
        (after bursts).1.nat.size = (after bursts).1.nat.flowCount ∧
        ((∀ pre b post, bursts = pre ++ b :: post →
            (after (pre ++ [b])).2 = (after (pre ++ [b])).1.nat.flowCount) ↔
          stored = 0 ∨ ∀ b ∈ bursts.head?, b.Usable) ∧
        ((after bursts).2 = (after bursts).1.nat.flowCount ↔
          stored = 0 ∨ ∃ b ∈ bursts, b.Usable) := by
  refine ⟨fun cs => ?_, fun workerId nWorkers stored bursts => ⟨?_, ?_, ?_⟩⟩
  · have hcount := (counted_fresh timeoutMs).calls hash cs
    refine ⟨hcount, ?_, fun nowMs => ?_, callsBy_reapUnguarded hash (counted_fresh timeoutMs) cs⟩
    · rw [hcount]
      exact flowCount_le _
    · rw [hcount]
      exact liveCount_le_flowCount _ nowMs
  · exact counted_serveAll (counted_init bits timeoutMs workerId nWorkers) bursts
  · simp only [stored_eq_flowCount_iff]
    constructor
    · intro h
      cases bursts with
      | nil => exact Or.inr nofun
      | cons b bursts =>
        refine (h [] b bursts rfl).imp_right fun ⟨c, hc, husable⟩ c' hc' => ?_
        obtain rfl := List.mem_singleton.mp hc
        exact Option.some.inj hc' ▸ husable
    · rintro (hzero | hfirst) pre b post rfl
      · exact Or.inl hzero
      · cases pre with
        | nil => exact Or.inr ⟨b, List.mem_singleton_self b, hfirst b rfl⟩
        | cons c pre => exact Or.inr ⟨c, List.mem_cons_self, hfirst c rfl⟩
  · exact stored_eq_flowCount_iff ..

/-- While no backend is enabled, the first burst leaves what an earlier process has stored. -/
theorem stale_active_flows :
    let syn : PacketMeta :=
      { srcIp := 0x0A000102, dstIp := 0x0A0001FD, srcPort := 40000, dstPort := 80,
        proto := kProtoTcp, tcpFlags := kTcpSyn }
    let st := serveAll (FlowKey.hash .sse42) (init 20 30000 0 1, 5) [⟨none, 7, [syn]⟩]
    st.2 = 5 ∧ st.1.nat.flowCount = 0 := by
  intro syn st
  have hnone : ∀ b ∈ [(⟨none, 7, [syn]⟩ : Burst)], ¬ b.Usable := by
    rintro b hb ⟨pool, hpool, -⟩
    rw [List.mem_singleton.mp hb] at hpool
    exact Option.some_ne_none pool hpool.symm
  rw [show st = _ from serveAll_of_not_usable _ hnone]
  exact ⟨rfl, flowCount_init 20 30000 0 1⟩

end LbNode

end Cerebellum
