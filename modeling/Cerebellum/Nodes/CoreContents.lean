import Cerebellum.Nodes.CoreConservation
import Cerebellum.Nodes.FrameContents

/-!
# What the cores make of frames

The IO core and its workers together do what the pipeline says. Each worker has a log of the frames
that its load balancer has seen, each once; they were steered to this worker. The load balancer is
in the state in which the pipeline leaves it after these frames as they were received. Every frame
that was sent is what the pipeline emits for the frame of this number, in the state that the load
balancer was in at its place in the log, or it is the reply to an ARP request. This holds in every
interleaving of the cores and their ring operations, and in the same way on a single core.

A frame that is waiting for its worker is as it was received, and one that is on its way to the
device is as it is due to be sent. A core writes the buffers of its own burst only, and as every
frame is in one place at a time (`Cerebellum.Cores.Conserved`), these are none of the others.

If the device and the rings accept all that they are given, nothing else is lost either: a frame is
freed only if the pipeline emits nothing for it, or if it is not steered to a worker and not
answered.

## Main definitions

* `Cerebellum.Cores.DueOf`, `Cerebellum.Cores.LostOf`: what is to be sent for a frame, if anything.
* `Cerebellum.Cores.Follows`: the invariant.
* `Cerebellum.Mono.FollowsPipeline`, `Cerebellum.Cores.FollowsPipeline`: what is sent is due.
* `Cerebellum.Mono.LosesNothing`, `Cerebellum.Cores.LosesNothing`: what is due is sent.

## Main results

* `Cerebellum.Cores.Follows.step`: every step keeps the invariant.
* `Cerebellum.cores_follow_pipeline`, `Cerebellum.cores_lose_nothing`: the results for whole runs.
-/

namespace Cerebellum

open Graph

variable {bits : ℕ}

/-- The device and all rings accept whole bursts. -/
structure Envs.HaveRoom (envs : Envs) : Prop where
  rx : envs.rx.HasRoom
  tx : envs.tx.HasRoom
  worker : ∀ w, (envs.worker w).HasRoom

namespace Cores

/-! ### Places -/

section Places

variable (s : Cores bits)

/-- The frame is between the cores, or was sent. -/
def Has (i : ℕ) : Prop :=
  i ∈ s.sent ∨ (∃ ring, i ∈ s.rings ring) ∨ ∃ lcore ring, (ring, i) ∈ s.out lcore

/-- The frame is on its way to a worker. -/
def Waits (w i : ℕ) : Prop := i ∈ s.rings (.worker w) ∨ (.worker w, i) ∈ s.out .io

/-- The frame is on its way to the device, or was sent. -/
def Leaves (i : ℕ) : Prop :=
  i ∈ s.sent ∨ i ∈ s.rings .egress ∨ ∃ lcore, (.egress, i) ∈ s.out lcore

/-- A worker has taken packets from its ring, with `rest` left. -/
def taken (w : ℕ) (rest : List ℕ) : Cores bits :=
  { s with rings := Function.update s.rings (.worker w) rest }

variable {s} {nWorkers w i : ℕ} {freed : List ℕ}

theorem Waits.has (h : s.Waits w i) : s.Has i :=
  .inr (h.imp (fun h => ⟨_, h⟩) fun h => ⟨_, _, h⟩)

theorem Leaves.has (h : s.Leaves i) : s.Has i :=
  h.imp_right fun h => h.imp (fun h => ⟨_, h⟩) fun ⟨_, h⟩ => ⟨_, _, h⟩

/-- The places of a frame are those that `between` counts. -/
theorem Has.mem (h : s.Has i) (habsent : ∀ w, nWorkers ≤ w → s.atWorker w = 0) :
    i ∈ (s.sent : Multiset ℕ) + s.between nWorkers := by
  have hworker {w : ℕ} (hmem : i ∈ s.atWorker w) : i ∈ s.between nWorkers := by
    have hw : w < nWorkers := by
      by_contra hge
      rw [habsent w (not_lt.mp hge)] at hmem
      exact Multiset.notMem_zero i hmem
    exact Multiset.mem_add.mpr (.inr (Multiset.mem_sum.mpr ⟨w, Finset.mem_range.mpr hw, hmem⟩))
  obtain hsent | ⟨ring, hring⟩ | ⟨lcore, ring, hout⟩ := h
  · exact Multiset.mem_add.mpr (.inl hsent)
  · refine Multiset.mem_add.mpr (.inr ?_)
    cases ring with
    | worker w => exact hworker (Multiset.mem_add.mpr (.inl hring))
    | egress =>
      exact Multiset.mem_add.mpr (.inl (Multiset.mem_add.mpr (.inr hring)))
  · refine Multiset.mem_add.mpr (.inr ?_)
    have hleaving : i ∈ s.leaving lcore := List.mem_map.mpr ⟨_, hout, rfl⟩
    cases lcore with
    | worker w => exact hworker (Multiset.mem_add.mpr (.inr hleaving))
    | io => exact Multiset.mem_add.mpr (.inl (Multiset.mem_add.mpr (.inl hleaving)))

/-- Frames that are somewhere were received. -/
theorem Conserved.lt_next (h : s.Conserved nWorkers freed) (hhas : s.Has i) : i < s.next := by
  have hmem : i ∈ (List.range s.next : Multiset ℕ) := by
    rw [h.eq]
    simp only [Multiset.mem_add]
    exact (Multiset.mem_add.mp (hhas.mem h.absent)).imp_left Or.inl
  exact List.mem_range.mp hmem

theorem rings_taken_of_ne {ring : Ring} (h : ring ≠ .worker w) (rest : List ℕ) :
    (s.taken w rest).rings ring = s.rings ring :=
  Function.update_of_ne h _ _

theorem rings_taken_self (rest : List ℕ) : (s.taken w rest).rings (.worker w) = rest :=
  Function.update_self _ _ _

/-- The frames that a worker takes from its ring are nowhere else. -/
theorem Conserved.taken (h : s.Conserved nWorkers freed) {burst rest : List ℕ}
    (hring : s.rings (.worker w) = burst ++ rest) :
    burst.Nodup ∧ ∀ i ∈ burst, ¬ (s.taken w rest).Has i := by
  have hself : s.atWorker w = burst + (s.taken w rest).atWorker w := by
    rw [atWorker, atWorker, hring, rings_taken_self, ← Multiset.coe_add, add_assoc]
    rfl
  have hother (w' : ℕ) (hw' : w' ≠ w) : (s.taken w rest).atWorker w' = s.atWorker w' := by
    rw [atWorker, atWorker, rings_taken_of_ne (fun heq => hw' (Ring.worker.inj heq))]
    rfl
  have habsent (w' : ℕ) (hw' : nWorkers ≤ w') : (s.taken w rest).atWorker w' = 0 := by
    obtain rfl | hne := eq_or_ne w' w
    · exact (add_eq_zero.mp (hself.symm.trans (h.absent w' hw'))).2
    · rw [hother w' hne, h.absent w' hw']
  have hbetween : s.between nWorkers = burst + (s.taken w rest).between nWorkers := by
    have hegress : (s.taken w rest).rings .egress = s.rings .egress :=
      rings_taken_of_ne (by simp) rest
    have hio : (s.taken w rest).leaving .io = s.leaving .io := rfl
    have hsum : ∑ w ∈ Finset.range nWorkers, s.atWorker w =
        burst + ∑ v ∈ Finset.range nWorkers, (s.taken w rest).atWorker v := by
      obtain hw | hw := lt_or_ge w nWorkers
      · have hadd := sum_atWorker_add hw hother
        rw [hself] at hadd
        exact add_right_cancel (b := (s.taken w rest).atWorker w) (by rw [← hadd]; abel)
      · have hnone : (burst : Multiset ℕ) = 0 :=
          (add_eq_zero.mp (hself.symm.trans (h.absent w hw))).1
        rw [hnone, zero_add]
        exact Finset.sum_congr rfl fun v hv =>
          (hother v ((Finset.mem_range.mp hv).trans_le hw).ne).symm
    rw [between, between, hsum, hegress, hio]
    abel
  have hsplit : (List.range s.next : Multiset ℕ) =
      burst + ((s.sent : Multiset ℕ) + (s.taken w rest).between nWorkers + freed) := by
    rw [h.eq, hbetween]
    abel
  have hnodup := Multiset.coe_nodup.mpr (List.nodup_range (n := s.next))
  rw [hsplit] at hnodup
  obtain ⟨hburst, -, hdisjoint⟩ := Multiset.nodup_add.mp hnodup
  exact ⟨Multiset.coe_nodup.mp hburst, fun i hi hhas =>
    Multiset.disjoint_left.mp hdisjoint hi (Multiset.mem_add.mpr (.inl (hhas.mem habsent)))⟩

/-! What a step does to the frames that are on their way. -/

variable {k : ℕ} {r : Run (World bits ℕ) ℕ} {rest : List ℕ}

theorem Waits.of_afterReceive (h : (s.afterReceive r k).Waits w i) :
    s.Waits w i ∨ (Ring.worker w, i) ∈ r.world.ledger.enqueued := by
  obtain hring | hout := h
  · exact .inl (.inl hring)
  · rw [out_afterReceive] at hout
    exact (List.mem_append.mp hout).imp_left .inr

theorem Leaves.of_afterReceive (h : (s.afterReceive r k).Leaves i) :
    s.Leaves i ∨ (Ring.egress, i) ∈ r.world.ledger.enqueued := by
  obtain hsent | hring | ⟨lcore, hout⟩ := h
  · exact .inl (.inl hsent)
  · exact .inl (.inr (.inl hring))
  · cases lcore with
    | worker w => exact .inl (.inr (.inr ⟨.worker w, hout⟩))
    | io =>
      rw [out_afterReceive] at hout
      exact (List.mem_append.mp hout).imp_left fun hout => .inr (.inr ⟨.io, hout⟩)

theorem Waits.of_taken {w' : ℕ} {burst : List ℕ} (hring : s.rings (.worker w) = burst ++ rest)
    (h : (s.taken w rest).Waits w' i) : s.Waits w' i := by
  refine h.imp_left fun hin => ?_
  obtain rfl | hne := eq_or_ne w' w
  · rw [rings_taken_self] at hin
    exact hring ▸ List.mem_append_right _ hin
  · rwa [rings_taken_of_ne (by simpa using hne)] at hin

theorem Leaves.of_taken (h : (s.taken w rest).Leaves i) : s.Leaves i :=
  h.imp_right fun h => h.imp_left fun hin => by rwa [rings_taken_of_ne (by simp)] at hin

theorem Waits.of_afterWork {w' : ℕ} (h : (s.afterWork r w rest).Waits w' i) :
    (s.taken w rest).Waits w' i := by
  have hio : (s.afterWork r w rest).out .io = s.out .io := out_afterWork_of_ne (by simp) r rest
  exact h.imp_right fun hout => hio ▸ hout

theorem Leaves.of_afterWork (h : (s.afterWork r w rest).Leaves i) :
    (s.taken w rest).Leaves i ∨ (Ring.egress, i) ∈ r.world.ledger.enqueued := by
  obtain hsent | hin | ⟨lcore, hout⟩ := h
  · exact .inl (.inl hsent)
  · exact .inl (.inr (.inl hin))
  · by_cases hlcore : lcore = .worker w
    · subst hlcore
      rw [out_afterWork_self] at hout
      exact (List.mem_append.mp hout).imp_left fun hout => .inr (.inr ⟨_, hout⟩)
    · rw [out_afterWork_of_ne hlcore] at hout
      exact .inl (.inr (.inr ⟨lcore, hout⟩))

theorem Waits.of_afterTransmit (h : (s.afterTransmit r rest).Waits w i) : s.Waits w i :=
  h.imp_left fun hin => by rwa [rings_afterTransmit_of_ne (by simp)] at hin

theorem Leaves.of_afterTransmit {burst : List ℕ} (hring : s.rings .egress = burst ++ rest)
    (hsent : ∀ i ∈ r.world.ledger.sent, i ∈ burst) (h : (s.afterTransmit r rest).Leaves i) :
    s.Leaves i := by
  obtain hin | hin | hout := h
  · exact (List.mem_append.mp hin).imp_right fun hin =>
      .inl (hring ▸ List.mem_append_left _ (hsent i hin))
  · rw [rings_afterTransmit_self] at hin
    exact .inr (.inl (hring ▸ List.mem_append_right _ hin))
  · exact .inr (.inr hout)

section Flush

variable {lcore : Lcore} {ring : Ring} {j : ℕ} {rest : List (Ring × ℕ)}

theorem mem_rings_afterFlush {ring' : Ring}
    (hi : i ∈ (s.afterFlush lcore ring j rest).rings ring') :
    i ∈ s.rings ring' ∨ ring' = ring ∧ i = j := by
  rw [rings_afterFlush] at hi
  refine (List.mem_append.mp hi).imp_right fun hi => ?_
  split_ifs at hi with hto
  · exact ⟨hto, List.mem_singleton.mp hi⟩
  · exact absurd hi List.not_mem_nil

theorem mem_out_afterFlush (hout : s.out lcore = (ring, j) :: rest) {lcore' : Lcore}
    {p : Ring × ℕ} (hp : p ∈ (s.afterFlush lcore ring j rest).out lcore') :
    p ∈ s.out lcore' := by
  rw [out_eq_afterFlush hout lcore']
  exact List.mem_append_right _ hp

theorem Waits.of_afterFlush (hconserved : s.Conserved nWorkers freed)
    (hout : s.out lcore = (ring, j) :: rest)
    (h : (s.afterFlush lcore ring j rest).Waits w i) : s.Waits w i := by
  have hhead : (ring, j) ∈ s.out lcore := hout ▸ List.mem_cons_self
  obtain hin | hin := h
  · obtain hin | ⟨rfl, rfl⟩ := mem_rings_afterFlush hin
    · exact .inl hin
    · cases lcore with
      | io => exact .inr hhead
      | worker w' => exact Ring.noConfusion (hconserved.worker w' _ hhead)
  · exact .inr (mem_out_afterFlush hout hin)

theorem Leaves.of_afterFlush (hout : s.out lcore = (ring, j) :: rest)
    (h : (s.afterFlush lcore ring j rest).Leaves i) : s.Leaves i := by
  have hhead : (ring, j) ∈ s.out lcore := hout ▸ List.mem_cons_self
  obtain hin | hin | ⟨lcore', hin⟩ := h
  · exact .inl hin
  · obtain hin | ⟨rfl, rfl⟩ := mem_rings_afterFlush hin
    · exact .inr (.inl hin)
    · exact .inr (.inr ⟨lcore, hhead⟩)
  · exact .inr (.inr ⟨lcore', mem_out_afterFlush hout hin⟩)

end Flush

end Places

/-! ### The invariant -/

section Invariant

variable (arrivals : ℕ → Mbuf) (hash : FlowKey → UInt32) (cfg : Config) (cks : Checksums)
  (nWorkers : ℕ) (envs : Envs) (start : ℕ → LbNode bits)

/-- The load balancer of a worker as it starts, and what it is given. -/
def balancing (w : ℕ) : Balancing bits ℕ := ⟨envs.worker w, arrivals, hash, cfg, cks, start w⟩

/-- The frame is what the pipeline emits for the frame of this number at its place in the log of a
worker, or it is the reply to it. -/
def DueOf (log : ℕ → List (ℕ × ℕ)) (i : ℕ) (mbuf : Mbuf) : Prop :=
  (∃ w, (balancing arrivals hash cfg cks envs start w).Emits (log w) i mbuf) ∨
    AnswersArp cfg (arrivals i).frame mbuf.frame

/-- Nothing is to be sent for the frame: it is not steered, it is an ARP frame that is not answered,
or the pipeline emits nothing for it at its place in the log of a worker. -/
def LostOf (log : ℕ → List (ℕ × ℕ)) (i : ℕ) : Prop :=
  classifyForSteer hash cfg nWorkers (arrivals i).frame = .drop ∨ Unanswered cfg arrivals i ∨
    ∃ w, (balancing arrivals hash cfg cks envs start w).Refuses (log w) i

/-- The load balancers have seen the frames of their logs, the frames that are waiting for them are
as they were received, and the others are as they are due to be sent. -/
structure Follows (log : ℕ → List (ℕ × ℕ)) (s : Cores bits) : Prop where
  logged : ∀ w, (balancing arrivals hash cfg cks envs start w).Logged (log w)
    (s.worker w).world.lb
  seen : ∀ w, ∀ p ∈ log w, p.1 < s.next ∧
    classifyForSteer hash cfg nWorkers (arrivals p.1).frame = .steer w
  waits : ∀ w i, s.Waits w i → s.mem i = arrivals i ∧
    classifyForSteer hash cfg nWorkers (arrivals i).frame = .steer w ∧ ∀ p ∈ log w, p.1 ≠ i
  leaves : ∀ i, s.Leaves i → DueOf arrivals hash cfg cks envs start log i (s.mem i)

/-- A step, with all frames that were freed so far. -/
def Releasing (p q : Cores bits × List ℕ) : Prop :=
  ∃ new, Releases arrivals hash cfg cks nWorkers envs p.1 new q.1 ∧ q.2 = p.2 ++ new

end Invariant

/-! ### Every step keeps the invariant -/

section Steps

variable {arrivals : ℕ → Mbuf} {hash : FlowKey → UInt32} {cfg : Config} {cks : Checksums}
  {nWorkers : ℕ} {envs : Envs} {start : ℕ → LbNode bits} {s s' : Cores bits} {freed : List ℕ}
  {log : ℕ → List (ℕ × ℕ)}

/-- At the start nothing was seen. -/
theorem Fresh.follows (h : s.Fresh hash cfg cks nWorkers envs) :
    s.Follows arrivals hash cfg cks nWorkers envs (fun w => (s.worker w).world.lb) fun _ => [] := by
  have hhas (i : ℕ) : ¬ s.Has i := by
    rintro (hsent | ⟨ring, hring⟩ | ⟨lcore, ring, hout⟩)
    · exact absurd (h.sent_eq ▸ hsent) List.not_mem_nil
    · exact absurd (h.rings_eq ring ▸ hring) List.not_mem_nil
    · exact absurd (h.out_eq lcore ▸ hout) List.not_mem_nil
  exact ⟨fun w => ⟨rfl, List.nodup_nil, nofun⟩, fun w => nofun,
    fun w i hwaits => absurd hwaits.has (hhas i), fun i hleaves => absurd hleaves.has (hhas i)⟩

/-- What is in the logs when that of a worker has grown. -/
theorem mem_grown {w w' : ℕ} {new : List (ℕ × ℕ)} {p : ℕ × ℕ}
    (hp : p ∈ Function.update log w (log w ++ new) w') : p ∈ log w' ∨ w' = w ∧ p ∈ new := by
  obtain rfl | hne := eq_or_ne w' w
  · rw [Function.update_self] at hp
    exact (List.mem_append.mp hp).imp_right fun hp => ⟨rfl, hp⟩
  · rw [Function.update_of_ne hne] at hp
    exact .inl hp

/-- What is due remains so while the log of a worker grows. -/
theorem DueOf.grow {i w : ℕ} {mbuf : Mbuf}
    (h : DueOf arrivals hash cfg cks envs start log i mbuf) (new : List (ℕ × ℕ)) :
    DueOf arrivals hash cfg cks envs start (Function.update log w (log w ++ new)) i mbuf := by
  obtain ⟨w', hemit⟩ | harp := h
  · refine Or.inl ⟨w', ?_⟩
    obtain rfl | hne := eq_or_ne w' w
    · rw [Function.update_self]
      exact hemit.append new
    · rw [Function.update_of_ne hne]
      exact hemit
  · exact Or.inr harp

theorem LostOf.grow {i w : ℕ} (h : LostOf arrivals hash cfg cks nWorkers envs start log i)
    (new : List (ℕ × ℕ)) :
    LostOf arrivals hash cfg cks nWorkers envs start (Function.update log w (log w ++ new)) i := by
  refine h.imp_right fun h => h.imp_right fun ⟨w', hrefuses⟩ => ⟨w', ?_⟩
  obtain rfl | hne := eq_or_ne w' w
  · rw [Function.update_self]
    exact hrefuses.append new
  · rw [Function.update_of_ne hne]
    exact hrefuses

/-- What is steered to a worker gets to its load balancer. -/
theorem isSome_arrival_of_steered (hn : 1 ≤ nWorkers) {mbuf : Mbuf} {w : ℕ}
    (h : classifyForSteer hash cfg nWorkers mbuf.frame = .steer w) (i : Input)
    (hi : i.mbuf = mbuf) : (Pipeline.arrival cfg i).isSome :=
  Pipeline.isSome_arrival (hi ▸ (steersAsParsed hn mbuf).steer.mp ⟨w, h⟩)

variable {k : ℕ} {r : Run (World bits ℕ) ℕ}

/-- The IO core receives frames. -/
theorem Follows.receive (h : s.Follows arrivals hash cfg cks nWorkers envs start log)
    (hconserved : s.Conserved nWorkers freed) (hn : 1 ≤ nWorkers)
    (hlive : s.rx.Live (buildRxGraph bits envs.rx hash cfg nWorkers))
    (hreceived : (envs.rx.received s.rx.world.tick).bufs = List.range' s.next k)
    (hmemory : ∀ i, envs.rx.memory s.rx.world.tick i =
      if i ∈ List.range' s.next k then arrivals i else s.mem i)
    (hrun : s.rx.Runs (buildRxGraph bits envs.rx hash cfg nWorkers) r) :
    (s.afterReceive r k).Follows arrivals hash cfg cks nWorkers envs start log ∧
      (envs.rx.HasRoom → ∀ i ∈ r.world.ledger.released,
        LostOf arrivals hash cfg cks nWorkers envs start log i) := by
  obtain ⟨-, g, root, fuel, hbuild, hreach, hrun⟩ := hlive.runs hrun
  have harrived : ∀ i ∈ (envs.rx.received s.rx.world.tick).bufs,
      envs.rx.memory s.rx.world.tick i = arrivals i := fun i hi => by
    rw [hmemory i, if_pos (hreceived ▸ hi)]
  obtain ⟨hsteered, hanswered, hfreed, hmem⟩ :=
    rx_due hbuild hreach hrun (hreceived ▸ List.nodup_range') harrived
  have hburst {p : Ring × ℕ} (hp : p ∈ r.world.ledger.enqueued) : s.next ≤ p.2 := by
    have htaken := (rx_disposes hn hbuild hreach hrun).1
    have hmem : p.2 ∈ ((envs.rx.received s.rx.world.tick).bufs : Multiset ℕ) := by
      rw [htaken]
      exact Multiset.mem_add.mpr (.inl (List.mem_map.mpr ⟨p, hp, rfl⟩))
    rw [hreceived] at hmem
    exact (List.mem_range'_1.mp hmem).1
  -- the buffers of the other frames are not written
  have hold {i : ℕ} (hhas : s.Has i) : (s.afterReceive r k).mem i = s.mem i := by
    have hnot : i ∉ List.range' s.next k := fun hi =>
      absurd (List.mem_range'_1.mp hi).1 (not_le.mpr (hconserved.lt_next hhas))
    change r.world.mem i = s.mem i
    rw [hmem i (hreceived ▸ hnot), hmemory i, if_neg hnot]
  refine ⟨⟨h.logged, fun w p hp => ⟨(h.seen w p hp).1.trans_le (Nat.le_add_right _ k),
    (h.seen w p hp).2⟩, fun w i hwaits => ?_, fun i hleaves => ?_⟩,
    fun hroom i hi => (hfreed hroom i hi).imp_right Or.inl⟩
  · obtain hwaits | hnew := hwaits.of_afterReceive
    · rw [hold hwaits.has]
      exact h.waits w i hwaits
    · obtain ⟨hmem, hclass⟩ := hsteered i w hnew
      exact ⟨hmem, hclass, fun p hp => ((h.seen w p hp).1.trans_le (hburst hnew)).ne⟩
  · obtain hleaves | hnew := hleaves.of_afterReceive
    · rw [hold hleaves.has]
      exact h.leaves i hleaves
    · exact Or.inr (hanswered i hnew)

/-- A worker takes packets from its ring and runs its graph. -/
theorem Follows.work (h : s.Follows arrivals hash cfg cks nWorkers envs start log)
    (hconserved : s.Conserved nWorkers freed) (hn : 1 ≤ nWorkers) {w : ℕ} {rest : List ℕ}
    (hlive : (s.worker w).Live (buildWorkerGraph bits (envs.worker w) hash cfg cks))
    (hring : s.rings (.worker w) =
      ((envs.worker w).received (s.worker w).world.tick).bufs ++ rest)
    (hmemory : (envs.worker w).memory (s.worker w).world.tick = s.mem)
    (hrun : (s.worker w).Runs (buildWorkerGraph bits (envs.worker w) hash cfg cks) r) :
    ∃ new, (s.afterWork r w rest).Follows arrivals hash cfg cks nWorkers envs start
        (Function.update log w (log w ++ new)) ∧
      ((envs.worker w).HasRoom → ∀ i ∈ r.world.ledger.released,
        LostOf arrivals hash cfg cks nWorkers envs start
          (Function.update log w (log w ++ new)) i) := by
  obtain ⟨-, g, root, fuel, hbuild, hreach, hrun⟩ := hlive.runs hrun
  obtain ⟨hnodup, helsewhere⟩ := hconserved.taken hring
  have hburst {i : ℕ} (hi : i ∈ ((envs.worker w).received (s.worker w).world.tick).bufs) :
      s.Waits w i := .inl (hring ▸ List.mem_append_left _ hi)
  obtain ⟨new, hnew, hlogged, hemits, hfreed, hmem⟩ :=
    (balancing arrivals hash cfg cks envs start w).worker_due hbuild hreach hrun hnodup (h.logged w)
      fun i hi => by
        obtain ⟨harrived, -, hfresh⟩ := h.waits w i (hburst hi)
        exact ⟨(congrFun hmemory i).trans harrived, hfresh⟩
  have htaken := (worker_disposes hbuild hreach hrun).1
  -- the buffers of the other frames are not written
  have hold {i : ℕ} (hhas : (s.taken w rest).Has i) : (s.afterWork r w rest).mem i = s.mem i :=
    (hmem i fun hi => helsewhere i hi hhas).trans (congrFun hmemory i)
  refine ⟨new, ⟨fun w' => ?_, fun w' p hp => ?_, fun w' i hwaits => ?_, fun i hleaves => ?_⟩,
    fun hroom i hi => ?_⟩
  · obtain rfl | hne := eq_or_ne w' w
    · rw [Function.update_self, worker_afterWork_self]
      exact hlogged
    · rw [Function.update_of_ne hne, worker_afterWork_of_ne hne]
      exact h.logged w'
  · obtain hearly | ⟨rfl, hlate⟩ := mem_grown hp
    · exact h.seen w' p hearly
    · have hwaits := hburst (hnew p hlate)
      exact ⟨hconserved.lt_next hwaits.has, (h.waits w' p.1 hwaits).2.1⟩
  · have htaken := hwaits.of_afterWork
    obtain ⟨harrived, hclass, hfresh⟩ := h.waits w' i (htaken.of_taken hring)
    refine ⟨(hold htaken.has).trans harrived, hclass, fun p hp => ?_⟩
    obtain hearly | ⟨rfl, hlate⟩ := mem_grown hp
    · exact hfresh p hearly
    · exact fun heq => helsewhere p.1 (hnew p hlate) (heq ▸ htaken.has)
  · obtain hleaves | hout := hleaves.of_afterWork
    · rw [hold hleaves.has]
      exact (h.leaves i hleaves.of_taken).grow new
    · refine Or.inl ⟨w, ?_⟩
      rw [Function.update_self]
      exact hemits (.egress, i) hout
  · have hin : i ∈ ((envs.worker w).received (s.worker w).world.tick).bufs := by
      have hmem : i ∈ (((envs.worker w).received (s.worker w).world.tick).bufs : Multiset ℕ) := by
        rw [htaken]
        exact Multiset.mem_add.mpr (.inr hi)
      exact hmem
    obtain ⟨hnone, -⟩ | hrefuses := hfreed hroom i hi
    · have hsome := isSome_arrival_of_steered hn (h.waits w i (hburst hin)).2.1
        ((balancing arrivals hash cfg cks envs start w).input (i, 0)) rfl
      exact absurd (hnone 0) (Option.isSome_iff_ne_none.mp hsome)
    · refine Or.inr (Or.inr ⟨w, ?_⟩)
      rw [Function.update_self]
      exact hrefuses

/-- Where there is room the output side of the IO core frees nothing. -/
theorem tx_released {env : Env ℕ} {g : Graph (World bits ℕ) ℕ} {root : NodeId}
    {d : Dispatcher ℕ} {fuel : ℕ} {world : World bits ℕ}
    (hbuild : buildTxGraph bits env = .ok (g, root)) (hd : Dispatcher.Reachable g root d)
    (hrun : Dispatcher.runOnce g root fuel .cleared d { world with ledger := {} } = .ok r)
    (hroom : env.HasRoom) : r.world.ledger.released = [] := by
  obtain ⟨g', hg', -, hwired⟩ := wired_tx bits env
  obtain ⟨rfl, rfl⟩ := Prod.mk.inj (Except.ok.inj (hg'.symm.trans hbuild))
  refine hwired.ledger_induct (I := fun ledger => ledger.released = []) (fun _ => rfl) ?_ hd hrun
  intro world input hworld
  obtain ⟨hfreed, hdropFreed⟩ := List.append_eq_nil_iff.mp hworld
  refine List.append_eq_nil_iff.mpr ⟨List.append_eq_nil_iff.mpr ⟨hfreed, ?_⟩, hdropFreed⟩
  exact List.eq_nil_iff_forall_not_mem.mpr fun i hi => Env.not_hasRoom_of_mem hi hroom

/-- The IO core takes packets from the ring back and runs its output graph. -/
theorem Follows.transmit (h : s.Follows arrivals hash cfg cks nWorkers envs start log)
    {rest : List ℕ} (hlive : s.tx.Live (buildTxGraph bits envs.tx))
    (hring : s.rings .egress = (envs.tx.received s.tx.world.tick).bufs ++ rest)
    (hmemory : envs.tx.memory s.tx.world.tick = s.mem)
    (hrun : s.tx.Runs (buildTxGraph bits envs.tx) r) :
    (s.afterTransmit r rest).Follows arrivals hash cfg cks nWorkers envs start log ∧
      (envs.tx.HasRoom → r.world.ledger.released = []) := by
  obtain ⟨-, g, root, fuel, hbuild, hreach, hrun⟩ := hlive.runs hrun
  have hmem : (s.afterTransmit r rest).mem = s.mem :=
    (tx_in_order (P := fun _ => true) hbuild hreach hrun).2.trans hmemory
  have hsent (i : ℕ) (hi : i ∈ r.world.ledger.sent) :
      i ∈ (envs.tx.received s.tx.world.tick).bufs := by
    have htaken : i ∈ ((envs.tx.received s.tx.world.tick).bufs : Multiset ℕ) := by
      rw [tx_disposes hbuild hreach hrun]
      exact Multiset.mem_add.mpr (.inl hi)
    exact htaken
  refine ⟨⟨h.logged, h.seen, fun w i hwaits => ?_, fun i hleaves => ?_⟩,
    tx_released hbuild hreach hrun⟩
  · rw [hmem]
    exact h.waits w i hwaits.of_afterTransmit
  · rw [hmem]
    exact h.leaves i (hleaves.of_afterTransmit hring hsent)

/-- A packet is put on its ring. -/
theorem Follows.flush (h : s.Follows arrivals hash cfg cks nWorkers envs start log)
    (hconserved : s.Conserved nWorkers freed) {lcore : Lcore} {ring : Ring} {i : ℕ}
    {rest : List (Ring × ℕ)} (hout : s.out lcore = (ring, i) :: rest) :
    (s.afterFlush lcore ring i rest).Follows arrivals hash cfg cks nWorkers envs start log :=
  ⟨h.logged, h.seen, fun w j hwaits => h.waits w j (hwaits.of_afterFlush hconserved hout),
    fun j hleaves => h.leaves j (hleaves.of_afterFlush hout)⟩

/-- Every step keeps the invariant, with longer logs, and where there is room only frees frames for
which nothing is to be sent. -/
theorem Follows.step (h : s.Follows arrivals hash cfg cks nWorkers envs start log)
    (hconserved : s.Conserved nWorkers freed) (hn : 1 ≤ nWorkers)
    (hlive : s.Live hash cfg cks nWorkers envs) {new : List ℕ}
    (hstep : Releases arrivals hash cfg cks nWorkers envs s new s') :
    ∃ log', s'.Follows arrivals hash cfg cks nWorkers envs start log' ∧
      (∀ i, LostOf arrivals hash cfg cks nWorkers envs start log i →
        LostOf arrivals hash cfg cks nWorkers envs start log' i) ∧
      (envs.HaveRoom → ∀ i ∈ new, LostOf arrivals hash cfg cks nWorkers envs start log' i) := by
  cases hstep with
  | receive hreceived hmemory hrun =>
    obtain ⟨hfollows, hfreed⟩ := h.receive hconserved hn hlive.rx hreceived hmemory hrun
    exact ⟨log, hfollows, fun _ => id, fun hroom => hfreed hroom.rx⟩
  | @work w rest r hring hmemory hrun =>
    obtain ⟨new, hfollows, hfreed⟩ := h.work hconserved hn (hlive.worker w) hring hmemory hrun
    exact ⟨_, hfollows, fun i hlost => hlost.grow new, fun hroom => hfreed (hroom.worker w)⟩
  | transmit hring hmemory hrun =>
    obtain ⟨hfollows, hfreed⟩ := h.transmit hlive.tx hring hmemory hrun
    refine ⟨log, hfollows, fun _ => id, fun hroom i hi => ?_⟩
    exact absurd (hfreed hroom.tx ▸ hi) List.not_mem_nil
  | flush hout =>
    exact ⟨log, h.flush hconserved hout, fun _ => id, fun _ i hi => absurd hi List.not_mem_nil⟩

/-- In every state that can be reached the workers have followed the pipeline. -/
theorem Fresh.exists_follows (h : s.Fresh hash cfg cks nWorkers envs) (hn : 1 ≤ nWorkers)
    (hsteps : Relation.ReflTransGen (Releasing arrivals hash cfg cks nWorkers envs)
      (s, []) (s', freed)) :
    History arrivals hash cfg cks nWorkers envs s' freed ∧
      ∃ log, s'.Follows arrivals hash cfg cks nWorkers envs (fun w => (s.worker w).world.lb) log ∧
        (envs.HaveRoom → ∀ i ∈ freed, LostOf arrivals hash cfg cks nWorkers envs
          (fun w => (s.worker w).world.lb) log i) := by
  generalize hp : (s', freed) = p at hsteps
  induction hsteps generalizing s' freed with
  | refl =>
    obtain ⟨rfl, rfl⟩ := Prod.mk.inj hp
    exact ⟨.start h, _, h.follows, fun _ i hi => absurd hi List.not_mem_nil⟩
  | @tail p q _ hstep ih =>
    obtain ⟨new, hreleases, hfreed⟩ := hstep
    obtain ⟨rfl, rfl⟩ : s' = q.1 ∧ freed = q.2 := Prod.mk.inj hp
    obtain ⟨hhistory, log, hfollows, hlost⟩ := ih rfl
    obtain ⟨hconserved, hlive⟩ := hhistory.conserved hn
    obtain ⟨log', hfollows', hgrow, hnew⟩ := hfollows.step hconserved hn hlive hreleases
    refine ⟨hfreed ▸ hhistory.step hreleases, log', hfollows', fun hroom i hi => ?_⟩
    rw [hfreed] at hi
    exact (List.mem_append.mp hi).elim (fun hold => hgrow i (hlost hroom i hold)) (hnew hroom i)

/-- Something is to be sent for a frame or nothing. -/
theorem Follows.not_lost (h : s.Follows arrivals hash cfg cks nWorkers envs start log) {i : ℕ}
    {mbuf : Mbuf} (hdue : DueOf arrivals hash cfg cks envs start log i mbuf) :
    ¬ LostOf arrivals hash cfg cks nWorkers envs start log i := by
  have hsteered {w : ℕ} {before after : List (ℕ × ℕ)} {tick : ℕ}
      (hlog : log w = before ++ (i, tick) :: after) :
      classifyForSteer hash cfg nWorkers (arrivals i).frame = .steer w :=
    (h.seen w (i, tick) (hlog ▸ List.mem_append_right _ List.mem_cons_self)).2
  have harp (htype : (arrivals i).frame.etherType = etherTypeArp) :
      classifyForSteer hash cfg nWorkers (arrivals i).frame = .arp := if_pos htype
  obtain ⟨w, hemit⟩ | hanswers := hdue
  · obtain ⟨before, tick, after, hlog, -⟩ := id hemit
    rintro (hdrop | ⟨htype, -⟩ | ⟨w', hrefuses⟩)
    · exact SteerResult.noConfusion ((hsteered hlog).symm.trans hdrop)
    · exact SteerResult.noConfusion ((hsteered hlog).symm.trans (harp htype))
    · obtain ⟨before', tick', after', hlog', -⟩ := id hrefuses
      obtain rfl := SteerResult.steer.inj ((hsteered hlog).symm.trans (hsteered hlog'))
      exact hemit.not_refuses (h.logged w) hrefuses
  · rintro (hdrop | ⟨-, hunanswered⟩ | ⟨w', before', tick', after', hlog', -⟩)
    · exact SteerResult.noConfusion ((harp hanswers.1).symm.trans hdrop)
    · exact hunanswered _ hanswers
    · exact SteerResult.noConfusion ((hsteered hlog').symm.trans (harp hanswers.1))

/-- The steps release some frames. -/
theorem exists_releasing
    (hsteps : Relation.ReflTransGen (Step arrivals hash cfg cks nWorkers envs) s s') :
    ∃ freed, Relation.ReflTransGen (Releasing arrivals hash cfg cks nWorkers envs)
      (s, []) (s', freed) := by
  induction hsteps with
  | refl => exact ⟨[], .refl⟩
  | tail _ hstep ih =>
    obtain ⟨freed, hsteps⟩ := ih
    obtain ⟨new, hreleases⟩ := (exists_releases_iff _ _ _ _ _ _).mpr hstep
    exact ⟨freed ++ new, hsteps.tail ⟨new, hreleases, rfl⟩⟩

end Steps

end Cores

/-! ### A single core -/

namespace Mono

variable {arrivals : ℕ → Mbuf} {hash : FlowKey → UInt32} {cfg : Config} {cks : Checksums}
  {env : Env ℕ} {start : LbNode bits} {s s' : Mono bits} {log : List (ℕ × ℕ)}

/-- The load balancer has seen the frames of its log. -/
structure Follows (arrivals : ℕ → Mbuf) (hash : FlowKey → UInt32) (cfg : Config) (cks : Checksums)
    (env : Env ℕ) (start : LbNode bits) (log : List (ℕ × ℕ)) (s : Mono bits) : Prop where
  logged : Balancing.Logged ⟨env, arrivals, hash, cfg, cks, start⟩ log s.core.world.lb
  seen : ∀ p ∈ log, p.1 < s.next
  live : s.core.Live (buildMonolithicGraph bits env hash cfg cks)

/-- A single core sends or frees what it receives. -/
theorem monolithic_disposes {g : Graph (World bits ℕ) ℕ} {root : NodeId} {d : Dispatcher ℕ}
    {fuel : ℕ} {world : World bits ℕ} {r : Run (World bits ℕ) ℕ}
    (hbuild : buildMonolithicGraph bits env hash cfg cks = .ok (g, root))
    (hd : Dispatcher.Reachable g root d)
    (hrun : Dispatcher.runOnce g root fuel .cleared d { world with ledger := {} } = .ok r) :
    ((env.received world.tick).bufs : Multiset ℕ) =
      r.world.ledger.sent + (r.world.ledger.released : Multiset ℕ) := by
  obtain ⟨g', hg', -, hwired⟩ := wired_monolithic bits env hash cfg cks
  obtain ⟨rfl, rfl⟩ := Prod.mk.inj (Except.ok.inj (hg'.symm.trans hbuild))
  let onNone : Ledger ℕ → Prop := Ledger.EnqueuedOn fun _ => False
  have henqueued : onNone r.world.ledger :=
    hwired.ledger_induct (I := onNone) (fun _ => nofun)
      ⟨(Ip4ParseNode.passes cfg).keeps onNone, (LbNode.passes env hash).keeps onNone,
        (DnatNode.passes cfg cks).keeps onNone, (EtherRewriteNode.passes cfg).keeps onNone,
        fun _ _ => id, fun _ _ => id, (ArpNode.passes cfg).keeps onNone⟩ hd hrun
  rw [(hwired.disposed hd hrun).coe_eq, Ledger.passed,
    List.eq_nil_iff_forall_not_mem.mpr henqueued, List.map_nil, Multiset.coe_nil, add_zero]

/-- What a single core does not send of a burst, it frees. -/
theorem mem_released_iff {g : Graph (World bits ℕ) ℕ} {root : NodeId} {d : Dispatcher ℕ}
    {fuel : ℕ} {world : World bits ℕ} {r : Run (World bits ℕ) ℕ}
    (hbuild : buildMonolithicGraph bits env hash cfg cks = .ok (g, root))
    (hd : Dispatcher.Reachable g root d)
    (hrun : Dispatcher.runOnce g root fuel .cleared d { world with ledger := {} } = .ok r)
    (hnodup : (env.received world.tick).bufs.Nodup) {i : ℕ}
    (hi : i ∈ (env.received world.tick).bufs) :
    i ∈ r.world.ledger.released ↔ i ∉ r.world.ledger.sent := by
  have hdisposes := monolithic_disposes hbuild hd hrun
  constructor
  · rw [← Multiset.coe_nodup, hdisposes] at hnodup
    exact fun hfreed hsent =>
      Multiset.disjoint_left.mp (Multiset.nodup_add.mp hnodup).2.2 hsent hfreed
  · intro hunsent
    rw [← Multiset.mem_coe, hdisposes] at hi
    exact (Multiset.mem_add.mp hi).resolve_left hunsent

/-- In every pass what is sent is due to be sent, and the other frames received are freed; where
there is room, they are not due to be sent. -/
theorem Follows.step (h : s.Follows arrivals hash cfg cks env start log)
    (hstep : Step arrivals hash cfg cks env s s') :
    ∃ new, s'.Follows arrivals hash cfg cks env start (log ++ new) ∧
      ∃ sent, s'.sent = s.sent ++ sent ∧
        (∀ i ∈ sent, Balancing.Due ⟨env, arrivals, hash, cfg, cks, start⟩ True (log ++ new) i
          (s'.core.world.mem i)) ∧
        ∀ i, s.next ≤ i → i < s'.next →
          (i ∈ s'.core.world.ledger.released ↔ i ∉ sent) ∧
          (env.HasRoom → i ∉ sent →
            Balancing.Rejects ⟨env, arrivals, hash, cfg, cks, start⟩ True (log ++ new) i
              (s'.core.world.mem i)) := by
  cases hstep with
  | @run k r hreceived hmemory hrun =>
    obtain ⟨hlive, g, root, fuel, hbuild, hreach, hrun⟩ := h.live.runs hrun
    have hburst {i : ℕ} : i ∈ (env.received s.core.world.tick).bufs ↔
        s.next ≤ i ∧ i < s.next + k := by
      rw [hreceived, List.mem_range'_1]
    have harrived : ∀ i ∈ (env.received s.core.world.tick).bufs,
        env.memory s.core.world.tick i = arrivals i ∧ ∀ p ∈ log, p.1 ≠ i := fun i hi =>
      ⟨hmemory i (hreceived ▸ hi), fun p hp => ((h.seen p hp).trans_le (hburst.mp hi).1).ne⟩
    have hnodup : (env.received s.core.world.tick).bufs.Nodup := hreceived ▸ List.nodup_range'
    obtain ⟨new, hnew, hlogged, hdue, hfreed⟩ := Balancing.monolithic_due
      (B := ⟨env, arrivals, hash, cfg, cks, start⟩) hbuild hreach hrun hnodup h.logged harrived
    have hreleased (i : ℕ) (hle : s.next ≤ i) (hlt : i < s.next + k) :=
      mem_released_iff hbuild hreach hrun hnodup (hburst.mpr ⟨hle, hlt⟩)
    refine ⟨new, ⟨hlogged, fun p hp => ?_, hlive⟩, r.world.ledger.sent, rfl, hdue,
      fun i hle hlt => ⟨hreleased i hle hlt, fun hroom hunsent =>
        hfreed hroom i ((hreleased i hle hlt).mpr hunsent)⟩⟩
    obtain hp | hp := List.mem_append.mp hp
    · exact (h.seen p hp).trans_le (Nat.le_add_right _ k)
    · exact (hburst.mp (hnew p hp)).2

/-- In every state that can be reached the core has followed the pipeline. -/
theorem exists_follows {core : Core bits}
    (hfresh : core.Fresh (buildMonolithicGraph bits env hash cfg cks))
    (hsteps : Relation.ReflTransGen (Step arrivals hash cfg cks env) { core := core } s) :
    ∃ log, s.Follows arrivals hash cfg cks env core.world.lb log := by
  induction hsteps with
  | refl => exact ⟨[], ⟨rfl, List.nodup_nil, nofun⟩, nofun, hfresh.live⟩
  | tail _ hstep ih =>
    obtain ⟨log, hfollows⟩ := ih
    obtain ⟨new, hfollows, -⟩ := hfollows.step hstep
    exact ⟨log ++ new, hfollows⟩

end Mono

/-! ### The result -/

section Result

variable (bits) (arrivals : ℕ → Mbuf) (hash : FlowKey → UInt32) (cfg : Config) (cks : Checksums)

/-- A single core sends what is due: in every pass of its loop, what the pipeline emits for the
frames at their places in the log of the load balancer, and replies to ARP requests. -/
def Mono.FollowsPipeline (env : Env ℕ) : Prop :=
  ∀ (core : Core bits) (s s' : Mono bits),
    core.Fresh (buildMonolithicGraph bits env hash cfg cks) →
    Relation.ReflTransGen (Step arrivals hash cfg cks env) { core := core } s →
    Step arrivals hash cfg cks env s s' →
    let B : Balancing bits ℕ := ⟨env, arrivals, hash, cfg, cks, core.world.lb⟩
    ∃ log new, B.Logged log s.core.world.lb ∧ B.Logged (log ++ new) s'.core.world.lb ∧
      ∃ sent, s'.sent = s.sent ++ sent ∧
        ∀ i ∈ sent, B.Due True (log ++ new) i (s'.core.world.mem i)

/-- The cores send what is due: each load balancer has seen the frames of its log, which were
steered to its worker, and all that was sent is what the pipeline emits for the frames at their
places in these logs, and replies to ARP requests. -/
def Cores.FollowsPipeline (nWorkers : ℕ) (envs : Envs) : Prop :=
  ∀ s₀ s : Cores bits, s₀.Fresh hash cfg cks nWorkers envs →
    Relation.ReflTransGen (Step arrivals hash cfg cks nWorkers envs) s₀ s →
    let start w := (s₀.worker w).world.lb
    ∃ log : ℕ → List (ℕ × ℕ),
      (∀ w, (balancing arrivals hash cfg cks envs start w).Logged (log w) (s.worker w).world.lb ∧
        ∀ p ∈ log w, p.1 < s.next ∧
          classifyForSteer hash cfg nWorkers (arrivals p.1).frame = .steer w) ∧
      ∀ i ∈ s.sent, DueOf arrivals hash cfg cks envs start log i (s.mem i)

/-- All that is sent is what the pipeline emits, one packet after the other, or the reply to an ARP
request: on a single core, and in any interleaving of the IO core and its workers. -/
theorem cores_follow_pipeline :
    (∀ env, Mono.FollowsPipeline bits arrivals hash cfg cks env) ∧
    ∀ nWorkers envs, Cores.FollowsPipeline bits arrivals hash cfg cks (nWorkers + 1) envs := by
  constructor
  · intro env core s s' hfresh hsteps hstep
    obtain ⟨log, hfollows⟩ := Mono.exists_follows hfresh hsteps
    obtain ⟨new, hfollows', sent, hsent, hdue, -⟩ := hfollows.step hstep
    exact ⟨log, new, hfollows.logged, hfollows'.logged, sent, hsent, hdue⟩
  · intro nWorkers envs s₀ s hfresh hsteps
    obtain ⟨freed, hsteps⟩ := Cores.exists_releasing hsteps
    obtain ⟨-, log, hfollows, -⟩ := hfresh.exists_follows (Nat.le_add_left 1 nWorkers) hsteps
    exact ⟨log, fun w => ⟨hfollows.logged w, hfollows.seen w⟩,
      fun i hi => hfollows.leaves i (.inl hi)⟩

/-- In every pass of its loop a single core sends the frames for which something is to be sent, and
frees the others. -/
def Mono.LosesNothing (env : Env ℕ) : Prop :=
  ∀ (core : Core bits) (s s' : Mono bits),
    core.Fresh (buildMonolithicGraph bits env hash cfg cks) →
    Relation.ReflTransGen (Step arrivals hash cfg cks env) { core := core } s →
    Step arrivals hash cfg cks env s s' →
    let B : Balancing bits ℕ := ⟨env, arrivals, hash, cfg, cks, core.world.lb⟩
    ∃ log, B.Logged log s'.core.world.lb ∧ ∃ sent, s'.sent = s.sent ++ sent ∧
      ∀ i, s.next ≤ i → i < s'.next →
        (i ∈ sent ↔ ¬ B.Rejects True log i (s'.core.world.mem i)) ∧
        (i ∈ s'.core.world.ledger.released ↔ B.Rejects True log i (s'.core.world.mem i))

/-- Every run of the cores frees some frames, step by step; and in every state that they can reach,
of the frames that are not between them any more, those for which something is to be sent were sent,
and the others were freed. -/
def Cores.LosesNothing (nWorkers : ℕ) (envs : Envs) : Prop :=
  ∀ s₀ s : Cores bits, s₀.Fresh hash cfg cks nWorkers envs →
    let Frees freed := Relation.ReflTransGen (Releasing arrivals hash cfg cks nWorkers envs)
      (s₀, []) (s, freed)
    (Relation.ReflTransGen (Step arrivals hash cfg cks nWorkers envs) s₀ s → ∃ freed, Frees freed) ∧
    ∀ freed, Frees freed →
      let start w := (s₀.worker w).world.lb
      ∃ log, s.Follows arrivals hash cfg cks nWorkers envs start log ∧
        ∀ i < s.next, i ∉ s.between nWorkers →
          (i ∈ s.sent ↔ ¬ LostOf arrivals hash cfg cks nWorkers envs start log i) ∧
          (i ∈ freed ↔ LostOf arrivals hash cfg cks nWorkers envs start log i)

/-- Where the device and the rings have room, exactly the frames are sent for which the pipeline
emits something and the ARP requests that are answered, and exactly the others are freed: on a
single core, and in any interleaving of the IO core and its workers. -/
theorem cores_lose_nothing (env : Env ℕ) (henv : env.HasRoom) (nWorkers : ℕ) (envs : Envs)
    (hroom : envs.HaveRoom) :
    Mono.LosesNothing bits arrivals hash cfg cks env ∧
      Cores.LosesNothing bits arrivals hash cfg cks (nWorkers + 1) envs := by
  constructor
  · intro core s s' hfresh hsteps hstep
    obtain ⟨log, hfollows⟩ := Mono.exists_follows hfresh hsteps
    obtain ⟨new, hfollows', sent, hsent, hdue, hrest⟩ := hfollows.step hstep
    refine ⟨log ++ new, hfollows'.logged, sent, hsent, fun i hle hlt => ?_⟩
    obtain ⟨hreleased, hrejects⟩ := hrest i hle hlt
    have hiff := Iff.intro (fun hi => (hdue i hi).not_rejects hfollows'.logged)
      fun hdue => by_contra fun hunsent => hdue (hrejects henv hunsent)
    exact ⟨hiff, hreleased.trans (iff_not_comm.mp hiff).symm⟩
  · intro s₀ s hfresh
    refine ⟨Cores.exists_releasing, fun freed hsteps => ?_⟩
    have hn : 1 ≤ nWorkers + 1 := Nat.le_add_left 1 nWorkers
    obtain ⟨hhistory, log, hfollows, hlost⟩ := hfresh.exists_follows hn hsteps
    refine ⟨log, hfollows, fun i hi hbetween => ?_⟩
    have hsent (hin : i ∈ s.sent) := hfollows.not_lost (hfollows.leaves i (.inl hin))
    have hmem : i ∈ s.sent ∨ i ∈ freed := by
      have hmem : i ∈ (List.range s.next : Multiset ℕ) := List.mem_range.mpr hi
      rw [(hhistory.conserved hn).1.eq] at hmem
      obtain hmem | hmem := Multiset.mem_add.mp hmem
      · exact Multiset.mem_add.mp hmem
      · exact absurd hmem hbetween
    exact ⟨⟨hsent, fun hdue => hmem.resolve_right fun hfreed => hdue (hlost hroom i hfreed)⟩,
      hlost hroom i, fun hnone => hmem.resolve_left fun hin => hsent hin hnone⟩

end Result

/-- A single core, and an IO core with two workers, send two packets of a client and free the third
one. -/
theorem cores_lose_nothing_two_workers :
    Mono.LosesNothing 20 FirstBurst.frames (FlowKey.hash .sse42) Pipeline.exampleConfig
        Pipeline.internetChecksums (FirstBurst.env FirstBurst.received FirstBurst.frames) ∧
      ∃ s₀ s : Cores 20, ∃ freed log,
        s₀.Fresh (FlowKey.hash .sse42) Pipeline.exampleConfig Pipeline.internetChecksums 2
          FirstBurst.envs ∧
        Relation.ReflTransGen (Cores.Releasing FirstBurst.frames (FlowKey.hash .sse42)
          Pipeline.exampleConfig Pipeline.internetChecksums 2 FirstBurst.envs) (s₀, []) (s, freed) ∧
        s.sent = [0, 1] ∧ 2 ∈ freed ∧
        ∀ i < 3, i ∈ freed ↔ Cores.LostOf FirstBurst.frames (FlowKey.hash .sse42)
          Pipeline.exampleConfig Pipeline.internetChecksums 2 FirstBurst.envs
          (fun w => (s₀.worker w).world.lb) log i := by
  obtain ⟨hmono, hcores⟩ := cores_lose_nothing 20 FirstBurst.frames (FlowKey.hash .sse42)
    Pipeline.exampleConfig Pipeline.internetChecksums
    (FirstBurst.env FirstBurst.received FirstBurst.frames) (fun _ => le_rfl) 1 FirstBurst.envs
    ⟨fun _ => le_rfl, fun _ => le_rfl, fun _ _ => le_rfl⟩
  obtain ⟨s₀, s, hfresh, hsteps, hnext, hsent, hrings, hout⟩ := FirstBurst.cores_send
  obtain ⟨hfrees, hloses⟩ := hcores s₀ s hfresh
  obtain ⟨freed, hfreed⟩ := hfrees hsteps
  obtain ⟨log, -, hiff⟩ := hloses freed hfreed
  have hbetween (i : ℕ) : i ∉ s.between 2 := by
    simp [Cores.between, Cores.leaving, Cores.atWorker, hrings, hout]
  have hall (i : ℕ) (hi : i < 3) := hiff i (hnext ▸ hi) (hbetween i)
  refine ⟨hmono, s₀, s, freed, log, hfresh, hfreed, hsent, ?_, fun i hi => (hall i hi).2⟩
  obtain ⟨hsentIff, hfreedIff⟩ := hall 2 (by decide)
  refine hfreedIff.mpr (not_not.mp fun hdue => ?_)
  have htwo := hsentIff.mpr hdue
  rw [hsent] at htwo
  exact absurd htwo (by decide)

end Cerebellum
