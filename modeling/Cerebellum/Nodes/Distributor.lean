import Cerebellum.Nodes.Pipeline

/-!
# The distributor

With more than one data core, one core does the input and output and the others are workers that
share nothing. The IO core steers every frame to the ring of one worker (`nodes/steer_node.cpp`),
and each worker takes bursts of frames from its ring through its own pipeline. Rings are FIFO
queues; a frame that finds its ring full is freed. The cores run independently: a run is any
interleaving of frames steered by the IO core and bursts handled by the workers.

Forward frames are steered by the hash of their key. Reverse frames are steered by their destination
port, which is the source port that the load balancer chose for the flow, and a worker chooses only
ports that are congruent to its number. So all frames of a flow go to the worker that holds it.

## Main definitions

* `Cerebellum.Distributor`, `Cerebellum.Distributor.Step`: the rings and workers, and their steps.
* `Cerebellum.Distributor.SharesNothing`: the flows of the workers are kept apart.

## Main results

* `Cerebellum.Distributor.steering_symmetric`: this holds in every reachable state.
-/

namespace Cerebellum

open NatTable LbNode Pipeline

/-- The rings from the IO core to the workers, oldest frame first, and the state of each worker. -/
structure Distributor (bits : ℕ) where
  rings : ℕ → List Mbuf := fun _ => []
  workers : ℕ → LbNode bits

namespace Distributor

variable {bits : ℕ}

/-- The start: empty rings, and each worker with its share of the ports. -/
def init (bits : ℕ) (timeoutMs : UInt32) (nWorkers : ℕ) : Distributor bits where
  workers w := LbNode.init bits timeoutMs (UInt16.ofNat w) (UInt16.ofNat nWorkers)

section Steps

variable (hash : FlowKey → UInt32) (cfg : Config) (cks : Checksums) (nWorkers : ℕ)

/-- What `SteerNode::Process` does with a frame, as far as the rings are concerned; `room` says
whether the ring of its worker accepts it. -/
def steer (d : Distributor bits) (mbuf : Mbuf) (room : Bool) : Distributor bits :=
  match classifyForSteer hash cfg nWorkers mbuf.frame with
  | .steer w =>
    if room then { d with rings := Function.update d.rings w (d.rings w ++ [mbuf]) } else d
  | .arp => d
  | .drop => d

/-- Worker `w` takes the first `k` frames from its ring through its pipeline. -/
def work (d : Distributor bits) (w k activeFlows : ℕ) (pool : Option BackendPool)
    (nowMs : UInt32) : Distributor bits where
  rings := Function.update d.rings w ((d.rings w).drop k)
  workers := Function.update d.workers w
    (Pipeline.burst hash cfg cks (d.workers w) activeFlows pool nowMs ((d.rings w).take k)).1

/-- One step of one of the cores. -/
inductive Step : Distributor bits → Distributor bits → Prop
  | io (d : Distributor bits) (mbuf : Mbuf) (room : Bool) :
      Step d (d.steer hash cfg nWorkers mbuf room)
  | work (d : Distributor bits) {w : ℕ} (hw : w < nWorkers) (k activeFlows : ℕ)
      (pool : Option BackendPool) (nowMs : UInt32) :
      Step d (d.work hash cfg cks w k activeFlows pool nowMs)

/-- The states that the cores can reach, in any interleaving. -/
def Reachable (timeoutMs : UInt32) (d : Distributor bits) : Prop :=
  Relation.ReflTransGen (Step hash cfg cks nWorkers) (init bits timeoutMs nWorkers) d

/-- The workers' flows are kept apart, and frames find the worker of their flow. -/
structure SharesNothing (d : Distributor bits) : Prop where
  /-- A flow is at the worker that both its key and its source port point to. -/
  home : ∀ w < nWorkers, ∀ s, ((d.workers w).nat.slots s).Unreaped →
    (hash ((d.workers w).nat.slots s).fwdKey).toNat % nWorkers = w ∧
      ((d.workers w).nat.slots s).snatPort.toNat % nWorkers = w
  /-- No two workers hold flows with the same key, or with the same source port of any backend. -/
  apart : ∀ w < nWorkers, ∀ w' < nWorkers, w ≠ w' → ∀ s s',
    ((d.workers w).nat.slots s).Unreaped → ((d.workers w').nat.slots s').Unreaped →
      ((d.workers w).nat.slots s).fwdKey ≠ ((d.workers w').nat.slots s').fwdKey ∧
        ((d.workers w).nat.slots s).snatPort ≠ ((d.workers w').nat.slots s').snatPort
  /-- Replies to the flow are steered to its worker. -/
  replies : ∀ w < nWorkers, ∀ s, ((d.workers w).nat.slots s).Unreaped → ∀ f : Frame,
    f.etherType = etherTypeIpv4 → (f.nextProtoId = ipprotoTcp ∨ f.nextProtoId = ipprotoUdp) →
    f.dstAddr = cfg.selfIp → f.dstPort = ((d.workers w).nat.slots s).snatPort →
      classifyForSteer hash cfg nWorkers f = .steer w
  /-- Forward frames of the flow are steered to its worker. -/
  forwards : ∀ w < nWorkers, ∀ s, ((d.workers w).nat.slots s).Unreaped → ∀ f : Frame,
    f.etherType = etherTypeIpv4 → (f.nextProtoId = ipprotoTcp ∨ f.nextProtoId = ipprotoUdp) →
    f.flowKey = ((d.workers w).nat.slots s).fwdKey →
      classifyForSteer hash cfg nWorkers f = .steer w

end Steps

/-! ### The invariant -/

variable {hash : FlowKey → UInt32} {cfg : Config} {cks : Checksums} {nWorkers : ℕ}

/-- A forward packet that belongs to worker `w`. -/
def ForWorker (hash : FlowKey → UInt32) (cfg : Config) (nWorkers w : ℕ) (key : FlowKey) : Prop :=
  key.dstIp = cfg.vip ∧ key.dstPort = cfg.vipPort ∧ steerWorker hash key nWorkers = w

/-- Rings hold frames steered to them only, and workers have seen packets of their own only. -/
structure Steered (hash : FlowKey → UInt32) (cfg : Config) (timeoutMs : UInt32) (nWorkers : ℕ)
    (d : Distributor bits) : Prop where
  rings : ∀ w < nWorkers, ∀ mbuf ∈ d.rings w,
    classifyForSteer hash cfg nWorkers mbuf.frame = .steer w
  workers : ∀ w < nWorkers, ∃ as : List Arrival,
    d.workers w = LbNode.run hash
        (LbNode.init bits timeoutMs (UInt16.ofNat w) (UInt16.ofNat nWorkers)) as ∧
      ∀ a ∈ as, a.packet.dir = .forward → ForWorker hash cfg nWorkers w a.packet.flowKey

theorem steered_init (bits : ℕ) (timeoutMs : UInt32) :
    Steered hash cfg timeoutMs nWorkers (init bits timeoutMs nWorkers) where
  rings _ _ _ h := absurd h List.not_mem_nil
  workers _ _ := ⟨[], rfl, fun _ h => absurd h List.not_mem_nil⟩

theorem exists_frame_eq_of_mem_inputs {mbufs : List Mbuf} {pool : Option BackendPool}
    {nowMs : UInt32} {i : Input} (h : i ∈ Pipeline.inputs cfg pool nowMs mbufs) :
    ∃ mbuf ∈ mbufs, mbuf.frame = i.mbuf.frame := by
  have hparsed {next : Ip4ParseNode.Next} {b : Mbuf} (hb : b ∈ Pipeline.parsedTo cfg next mbufs) :
      ∃ mbuf ∈ mbufs, mbuf.frame = b.frame := by
    obtain ⟨mbuf, hmbuf, hout⟩ := List.mem_filterMap.mp hb
    simp only [Option.ite_none_right_eq_some] at hout
    obtain rfl := Option.some.inj hout.2
    exact ⟨mbuf, hmbuf, rfl⟩
  obtain ⟨b, hb, rfl⟩ := List.mem_map.mp h
  rcases List.mem_append.mp hb with hb | hb
  · exact hparsed hb
  · exact hparsed hb

/-- The forward packets that a burst brings to the load balancer come from frames that were steered
by their key. -/
theorem forWorker_of_mem_inputs {mbufs : List Mbuf} {w : ℕ}
    (hsteer : ∀ mbuf ∈ mbufs, classifyForSteer hash cfg nWorkers mbuf.frame = .steer w)
    {pool : Option BackendPool} {nowMs : UInt32} {a : Arrival}
    (ha : a ∈ (Pipeline.inputs cfg pool nowMs mbufs).filterMap (Pipeline.arrival cfg))
    (hdir : a.packet.dir = .forward) : ForWorker hash cfg nWorkers w a.packet.flowKey := by
  obtain ⟨i, hi, hia⟩ := List.mem_filterMap.mp ha
  obtain ⟨mbuf, hmbuf, hframe⟩ := exists_frame_eq_of_mem_inputs hi
  have hw := hsteer mbuf hmbuf
  rw [hframe] at hw
  rcases Pipeline.pool_eq_of_arrival hia with ⟨-, -, hclass⟩ | ⟨-, -, hclass⟩
  · obtain ⟨⟨hip, hproto, hvip, hport⟩, hpacket⟩ := Ip4ParseNode.classify_eq_fwd.mp hclass
    rw [classifyForSteer_of_vip hip hproto ⟨hvip, hport⟩] at hw
    rw [hpacket]
    exact ⟨hvip, hport, SteerResult.steer.inj hw⟩
  · rw [(Ip4ParseNode.classify_eq_rev.mp hclass).2] at hdir
    exact Direction.noConfusion hdir

theorem Steered.steer {timeoutMs : UInt32} {d : Distributor bits}
    (h : Steered hash cfg timeoutMs nWorkers d) (mbuf : Mbuf) (room : Bool) :
    Steered hash cfg timeoutMs nWorkers (d.steer hash cfg nWorkers mbuf room) := by
  unfold Distributor.steer
  split
  · next w hclass =>
    cases room with
    | false => exact h
    | true =>
      refine ⟨fun w' hw' b hb => ?_, h.workers⟩
      rcases eq_or_ne w' w with rfl | hne
      · simp only [if_true, Function.update_self, List.mem_append, List.mem_singleton] at hb
        rcases hb with hb | rfl
        · exact h.rings w' hw' b hb
        · exact hclass
      · simp only [if_true, Function.update_of_ne hne] at hb
        exact h.rings w' hw' b hb
  · exact h
  · exact h

theorem Steered.work {timeoutMs : UInt32} {d : Distributor bits}
    (h : Steered hash cfg timeoutMs nWorkers d) (w k activeFlows : ℕ) (pool : Option BackendPool)
    (nowMs : UInt32) :
    Steered hash cfg timeoutMs nWorkers (d.work hash cfg cks w k activeFlows pool nowMs) := by
  constructor
  · intro w' hw' b hb
    rcases eq_or_ne w' w with rfl | hne
    · simp only [Distributor.work, Function.update_self] at hb
      exact h.rings w' hw' b (List.mem_of_mem_drop hb)
    · simp only [Distributor.work, Function.update_of_ne hne] at hb
      exact h.rings w' hw' b hb
  · intro w' hw'
    rcases eq_or_ne w' w with rfl | hne
    · obtain ⟨as, hrun, hown⟩ := h.workers w' hw'
      refine ⟨as ++ (Pipeline.inputs cfg pool nowMs ((d.rings w').take k)).filterMap
        (Pipeline.arrival cfg), ?_, fun a ha hdir => ?_⟩
      · rw [Distributor.work, LbNode.run_append, ← hrun]
        simp only [Function.update_self]
        exact (Pipeline.burst_eq hash cks (d.workers w') activeFlows pool nowMs _).1
      · rcases List.mem_append.mp ha with ha | ha
        · exact hown a ha hdir
        · exact forWorker_of_mem_inputs
            (fun b hb => h.rings w' hw' b (List.mem_of_mem_take hb)) ha hdir
    · simp only [Distributor.work, Function.update_of_ne hne]
      exact h.workers w' hw'

/-- The invariant holds in every reachable state. -/
theorem steered_of_reachable {timeoutMs : UInt32} {d : Distributor bits}
    (h : Reachable hash cfg cks nWorkers timeoutMs d) :
    Steered hash cfg timeoutMs nWorkers d := by
  induction h with
  | refl => exact steered_init bits timeoutMs
  | tail _ hstep ih =>
    cases hstep with
    | io mbuf room => exact ih.steer mbuf room
    | work hw k activeFlows pool nowMs => exact ih.work _ k activeFlows pool nowMs

/-! ### Flows and their worker -/

/-- The key of a flow is the key of a forward packet that the worker has seen. -/
theorem forWorker_of_unreaped {as : List Arrival} {w : ℕ} {timeoutMs : UInt32}
    {workerId nWorkers' : UInt16}
    (hown : ∀ a ∈ as, a.packet.dir = .forward → ForWorker hash cfg nWorkers w a.packet.flowKey)
    (s : Slot bits)
    (hun : ((LbNode.run hash (LbNode.init bits timeoutMs workerId nWorkers') as).nat.slots
      s).Unreaped) :
    ForWorker hash cfg nWorkers w
      ((LbNode.run hash (LbNode.init bits timeoutMs workerId nWorkers') as).nat.slots
        s).fwdKey := by
  refine run_induct_mem (fun n => ∀ s, (n.nat.slots s).Unreaped →
    ForWorker hash cfg nWorkers w (n.nat.slots s).fwdKey) (fun s h => Bool.noConfusion h.1)
    (fun a ha pool _ n n' ih hstep s hs => ?_) s hun
  rcases hstep.slot_cases s with hkept | ⟨hdir, -, -, hnew⟩
  · rw [(hkept.same hs).fwdKey]
    exact ih s (hkept.unreaped hs)
  · rw [hnew]
    exact hown a ha hdir

theorem toNat_mod_of_mem_portShare {w : ℕ} (hw : w < nWorkers) (hfits : nWorkers < 65536)
    {port : UInt16} (h : port ∈ portShare (UInt16.ofNat w) (UInt16.ofNat nWorkers)) :
    port.toNat % nWorkers = w := by
  have hmod := congrArg UInt16.toNat (mem_portShare.mp h).2.2
  rwa [UInt16.toNat_mod, UInt16.toNat_ofNat', UInt16.toNat_ofNat',
    Nat.mod_eq_of_lt (show nWorkers < 2 ^ 16 from hfits),
    Nat.mod_eq_of_lt (show w < 2 ^ 16 from hw.trans hfits)] at hmod

/-- In every state that the IO core and the workers can reach in any interleaving, the flows of the
workers are kept apart, and the frames of a flow, forward and reverse, are steered to the worker
that holds it. -/
theorem steering_symmetric (hash : FlowKey → UInt32) (cfg : Config) (cks : Checksums)
    (nWorkers : ℕ) (hfits : nWorkers < 65536) (hself : cfg.selfIp ≠ cfg.vip) (bits : ℕ)
    (timeoutMs : UInt32) (d : Distributor bits)
    (hd : Reachable hash cfg cks nWorkers timeoutMs d) : SharesNothing hash cfg nWorkers d := by
  have hsteered := steered_of_reachable hd
  have hkey : ∀ w < nWorkers, ∀ s, ((d.workers w).nat.slots s).Unreaped →
      ForWorker hash cfg nWorkers w ((d.workers w).nat.slots s).fwdKey := by
    intro w hw s hs
    obtain ⟨as, hrun, hown⟩ := hsteered.workers w hw
    rw [hrun] at hs ⊢
    exact forWorker_of_unreaped hown s hs
  have hport : ∀ w < nWorkers, ∀ s, ((d.workers w).nat.slots s).Unreaped →
      ((d.workers w).nat.slots s).snatPort.toNat % nWorkers = w := by
    intro w hw s hs
    obtain ⟨as, hrun, -⟩ := hsteered.workers w hw
    rw [hrun] at hs ⊢
    have hconserved := portsConserved_run hash bits timeoutMs (UInt16.ofNat w)
      (UInt16.ofNat nWorkers) as
    exact toNat_mod_of_mem_portShare hw hfits 
      (hconserved.snatPort_mem (holdsPort_run bits timeoutMs _ _ as) hs)
  constructor
  · intro w hw s hs
    exact ⟨(hkey w hw s hs).2.2, hport w hw s hs⟩
  · intro w hw w' hw' hne s s' hs hs'
    constructor
    · intro heq
      exact hne ((hkey w hw s hs).2.2.symm.trans (heq ▸ (hkey w' hw' s' hs').2.2))
    · intro heq
      exact hne ((hport w hw s hs).symm.trans (heq ▸ hport w' hw' s' hs'))
  · intro w hw s hs f hip hproto hdst hdport
    have hvip : ¬ (f.dstAddr = cfg.vip ∧ f.dstPort = cfg.vipPort) :=
      fun h => hself (hdst.symm.trans h.1)
    rw [classifyForSteer_of_self hip hproto hdst hvip, hdport, hport w hw s hs]
  · intro w hw s hs f hip hproto hflow
    obtain ⟨hvip, hvport, hw'⟩ := hkey w hw s hs
    rw [← hflow] at hvip hvport hw'
    rw [classifyForSteer_of_vip hip hproto ⟨hvip, hvport⟩, hw']

/-- Two workers, after one frame was steered and both workers have looked into their rings. -/
theorem steering_symmetric_two_workers :
    let hash := FlowKey.hash .sse42
    let pool := BackendPool.single { ip := 0x0A000202, port := 8080 }
    let d : Distributor 20 := (((init 20 30000 2).steer hash exampleConfig 2
      { frame := udpFrame 0x45 } true).work hash exampleConfig internetChecksums 0 32 0 (some pool)
        7).work hash exampleConfig internetChecksums 1 32 0 (some pool) 9
    Reachable hash exampleConfig internetChecksums 2 30000 d ∧
      SharesNothing hash exampleConfig 2 d := by
  intro hash pool d
  have hd : Reachable hash exampleConfig internetChecksums 2 30000 d :=
    ((Relation.ReflTransGen.single (.io _ _ _)).tail (.work _ (by decide) _ _ _ _)).tail
      (.work _ (by decide) _ _ _ _)
  exact ⟨hd, steering_symmetric hash exampleConfig internetChecksums 2 (by decide) (by decide) 20
    30000 d hd⟩

end Distributor

end Cerebellum
