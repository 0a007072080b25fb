import Cerebellum.Nodes.CoreContents
import Cerebellum.Nodes.Dataplane
import Cerebellum.Nodes.ValidChecksums

/-!
# What the data plane sends

What the lcores hand to the port, from end to end. A frame that is sent is the reply to an ARP
request, or a client's frame for the virtual service, now from the own address and a source port of
the ephemeral range to one of the backends, or the reply of a backend, now from the virtual service
to a client that has sent a frame to it before. With the checksums of RFC 1071, those of the frame
that is sent are valid if the frame received held a datagram, and nothing else in it is changed.

The backends are those that the control plane has listed; it only ever adds some.

## Main definitions

* `Cerebellum.Frame.SentFor`: the frame that is sent for a frame.
* `Cerebellum.SendsTranslated`: what is sent by the lcores that are launched.

## Main results

* `Cerebellum.Pipeline.sentFor_of_handle`: one packet on its way through the pipeline.
* `Cerebellum.launched_lcores_translate`: the result for whole runs.
-/

namespace Cerebellum

open Graph

variable {bits : ℕ}

/-! ### One frame -/

/-- The frame is for the virtual service. -/
def Frame.ForService (cfg : Config) (f : Frame) : Prop :=
  f.dstAddr = cfg.vip ∧ f.dstPort = cfg.vipPort

/-- What may be sent for a frame, if frames that satisfy `Seen` were received before. That the
frame carries the new addresses and ports is for frames with an IPv4 header of at least 20 bytes. -/
inductive Frame.SentFor (cfg : Config) (backends : List BackendInfo) (Seen : Frame → Prop)
    (f out : Frame) : Prop
  /-- The reply to an ARP request. -/
  | reply (hanswers : AnswersArp cfg f out) : SentFor cfg backends Seen f out
  /-- A client's frame on its way to a backend. -/
  | toBackend (flow : NatFlow) (hto : f.ForService cfg) (hkey : flow.fwdKey = f.flowKey)
      (hbackend : flow.backend ∈ backends) (hlow : kEphemeralLow ≤ flow.snatPort.toNat)
      (hrewritten : f.HoldsDatagram → f.RewrittenTo out)
      (hsent : 20 ≤ f.hdrLen → out.SentToBackend cfg flow) : SentFor cfg backends Seen f out
  /-- The reply of a backend on its way to a client; the flow has the key and the source MAC of a
  frame of this client. -/
  | toClient (flow : NatFlow) (opener : Frame) (hseen : Seen opener)
      (hopener : opener.ForService cfg) (hkey : flow.fwdKey = opener.flowKey)
      (hmac : flow.clientMac = opener.srcMac) (hbackend : flow.backend ∈ backends)
      (hreplies : f.RepliesTo cfg flow) (hrewritten : f.HoldsDatagram → f.RewrittenTo out)
      (hsent : 20 ≤ f.hdrLen → out.SentToClient cfg flow) : SentFor cfg backends Seen f out

/-- The same, when more frames were received. -/
theorem Frame.SentFor.mono {cfg : Config} {backends : List BackendInfo} {Seen Seen' : Frame → Prop}
    {f out : Frame} (h : f.SentFor cfg backends Seen out) (hseen : ∀ f, Seen f → Seen' f) :
    f.SentFor cfg backends Seen' out := by
  cases h with
  | reply hanswers => exact .reply hanswers
  | toBackend flow hto hkey hbackend hlow hrewritten hsent =>
    exact .toBackend flow hto hkey hbackend hlow hrewritten hsent
  | toClient flow opener hold hopener hkey hmac hbackend hreplies hrewritten hsent =>
    exact .toClient flow opener (hseen opener hold) hopener hkey hmac hbackend hreplies hrewritten
      hsent

namespace LbNode

/-- A flow that is not reaped has recorded the key and the source MAC of a forward packet. -/
theorem exists_opener (hash : FlowKey → UInt32) (bits : ℕ) (timeoutMs : UInt32)
    (workerId nWorkers : UInt16) (as : List Arrival) (s : Slot bits)
    (hun : ((run hash (init bits timeoutMs workerId nWorkers) as).nat.slots s).Unreaped) :
    ∃ a ∈ as, a.packet.dir = .forward ∧
      ((run hash (init bits timeoutMs workerId nWorkers) as).nat.slots s).fwdKey =
        a.packet.flowKey ∧
      ((run hash (init bits timeoutMs workerId nWorkers) as).nat.slots s).clientMac =
        a.packet.clientMac := by
  refine run_induct_mem (fun n => ∀ s, (n.nat.slots s).Unreaped → ∃ a ∈ as,
    a.packet.dir = .forward ∧ (n.nat.slots s).fwdKey = a.packet.flowKey ∧
      (n.nat.slots s).clientMac = a.packet.clientMac) (fun s h => Bool.noConfusion h.1)
    (fun a ha pool _ n n' ih hstep s hs => ?_) s hun
  obtain hkept | ⟨hdir, -, -, hnew⟩ := hstep.slot_cases s
  · have hsame := hkept.same hs
    rw [hsame.fwdKey, hsame.clientMac]
    exact ih s (hkept.unreaped hs)
  · rw [hnew]
    exact ⟨a, ha, hdir, rfl, rfl⟩

/-- A flow that is accounted for has one of the backends and one of the ports. -/
theorem Accounted.mem {backends : List BackendInfo} {share : Finset UInt16} {n : LbNode bits}
    (h : n.Accounted backends share) {s : Slot bits} (hun : (n.nat.slots s).Unreaped) :
    (n.nat.slots s).backend ∈ backends ∧ (n.nat.slots s).snatPort ∈ share := by
  obtain ⟨hlt, hname⟩ := h.names s hun
  refine ⟨?_, h.ports.snatPort_mem h.holds hun⟩
  rw [hname, List.getD_eq_getElem _ _ hlt]
  exact List.getElem_mem hlt

end LbNode

namespace Pipeline

variable {hash : FlowKey → UInt32} {cfg : Config} {cks : Checksums}

/-- What is emitted for a frame that holds a datagram has valid checksums. -/
theorem rewrittenTo_of_handle (hcks : cks.Rfc1071) {n : LbNode bits} {i : Input} {out : Mbuf}
    (hout : (handle hash cfg cks n i).2 = some out) (h : i.mbuf.frame.HoldsDatagram) :
    i.mbuf.frame.RewrittenTo out.frame := by
  obtain ⟨a, pool, ha, husable, -, -, rfl⟩ := handle_eq_some hout
  have hproto := LbNode.proto_arrive hash n a
  rw [LbNode.arrive_of_usable hash n husable, proto_of_arrival ha] at hproto
  let translated : Mbuf :=
    { i.mbuf with priv := (LbNode.handlePacket hash n pool a.nowMs a.packet).2.2 }
  exact rewrittenTo_rewrite hcks cfg (show translated.frame.HoldsDatagram from h) hproto

/-- What the pipeline emits for a frame, after any run. -/
theorem sentFor_of_handle (hcks : cks.Rfc1071) {backends : List BackendInfo} {is : List Input}
    {i : Input} (hstable : StablePools backends (is ++ [i])) {timeoutMs : UInt32}
    {workerId nWorkers : UInt16} {out : Mbuf}
    (hout : (handle hash cfg cks (run hash cfg (LbNode.init bits timeoutMs workerId nWorkers) is)
      i).2 = some out) :
    i.mbuf.frame.SentFor cfg backends (fun f => ∃ j ∈ is, j.mbuf.frame = f) out.frame := by
  have hbefore : StablePools backends is :=
    ⟨hstable.distinct, fun j hj => hstable.stable j (List.mem_append_left _ hj)⟩
  have hpools := hstable.stable i (List.mem_append_right is (List.mem_singleton_self i))
  have hacc := accounted hbefore hash cfg bits timeoutMs workerId nWorkers
  have hrewritten := rewrittenTo_of_handle hcks hout
  obtain ⟨a, pool, ha, -, hsent, -, heq⟩ := handle_eq_some hout
  obtain ⟨-, -, hclass⟩ | ⟨-, -, hclass⟩ := pool_eq_of_arrival ha
  · obtain ⟨⟨-, -, hto⟩, -⟩ := Ip4ParseNode.classify_eq_fwd.mp hclass
    have hfwd : (Ip4ParseNode.classify cfg i.mbuf).2 = .fwd := congrArg Prod.snd hclass
    obtain ⟨pool, s, flow, -, halong, hun, ⟨n', hacc', rfl⟩, -, hcarries⟩ :=
      exists_accounted_sentToBackend (LbNode.forwardMap_run ..) hacc hpools hfwd hout
    obtain ⟨hbackend, hport⟩ := hacc'.mem hun
    exact .toBackend (n'.nat.slots s) hto (halong.fwdKey.trans (flowKey_of_fwd hfwd).1) hbackend
      (mem_portShare.mp hport).1 hrewritten hcarries
  · obtain ⟨⟨-, -, hself, -⟩, hpacket⟩ := Ip4ParseNode.classify_eq_rev.mp hclass
    have hdir : a.packet.dir = .reverse := by rw [hpacket]
    obtain ⟨s, ⟨⟨hun, -⟩, hkey⟩, hm⟩ := exists_flow_of_reverse hdir hsent
    obtain ⟨b, hb, hfwd, hopened, hmac⟩ := LbNode.exists_opener hash bits timeoutMs workerId
      nWorkers _ s hun
    obtain ⟨j, hj, hja⟩ := List.mem_filterMap.mp hb
    have hopener : j.mbuf.frame.ForService cfg ∧
        b.packet = { Ip4ParseNode.parsedMeta j.mbuf.frame with dir := .forward } := by
      obtain ⟨-, -, hclass'⟩ | ⟨-, -, hclass'⟩ := pool_eq_of_arrival hja
      · obtain ⟨⟨-, -, hto⟩, hpacket'⟩ := Ip4ParseNode.classify_eq_fwd.mp hclass'
        exact ⟨hto, hpacket'⟩
      · rw [(Ip4ParseNode.classify_eq_rev.mp hclass').2] at hfwd
        exact Direction.noConfusion hfwd
    have hreplies : i.mbuf.frame.RepliesTo cfg
        ((run hash cfg (LbNode.init bits timeoutMs workerId nWorkers) is).nat.slots s) := by
      rw [hpacket] at hkey
      obtain ⟨hip, hport, hsnat, hproto⟩ := replyKey_inj.mp hkey
      exact ⟨hip.symm, hport.symm, hself, hsnat.symm, hproto.symm⟩
    refine .toClient _ j.mbuf.frame ⟨j, hj, rfl⟩ hopener.1 ?_ ?_ (hacc.mem hun).1 hreplies
      hrewritten fun hlen => ?_
    · rw [hopener.2] at hopened
      exact hopened
    · rw [hopener.2] at hmac
      exact hmac
    · rw [heq, hm]
      let n := run hash cfg (LbNode.init bits timeoutMs workerId nWorkers) is
      let translated : Mbuf := { i.mbuf with priv := a.packet.toClient (n.nat.slots s) }
      have hdir' : translated.priv.dir = .reverse := hdir
      exact carries_rewrite_of_reverse cfg cks hdir' hlen

end Pipeline

/-! ### The lcores -/

section Lcores

variable {backends : List BackendInfo} {timeoutMs : UInt32}

/-- What is emitted at a place in a log, by a load balancer that has started empty. -/
theorem Balancing.Emits.sentFor {B : Balancing bits ℕ} {log : List (ℕ × ℕ)} {i : ℕ} {mbuf : Mbuf}
    {Seen : Frame → Prop} (h : B.Emits log i mbuf) (hcks : B.cks.Rfc1071)
    (hdistinct : (backends.map fun b => (b.ip, b.port)).Nodup)
    (hpools : ∀ tick pool, B.env.pool tick = some pool → pool.slots <+: backends)
    {workerId nWorkers : UInt16} (hstart : B.start = .init bits timeoutMs workerId nWorkers)
    (hseen : ∀ p ∈ log, Seen (B.arrivals p.1).frame) :
    (B.arrivals i).frame.SentFor B.cfg backends Seen mbuf.frame := by
  obtain ⟨before, tick, after, rfl, hhandle⟩ := h
  have hstable : Pipeline.StablePools backends (before.map B.input ++ [B.input (i, tick)]) := by
    refine ⟨hdistinct, fun j hj => ?_⟩
    have hmem : j ∈ (before ++ [(i, tick)]).map B.input := by rwa [List.map_append]
    obtain ⟨p, -, rfl⟩ := List.mem_map.mp hmem
    exact hpools p.2
  rw [Balancing.stateAfter, hstart] at hhandle
  refine (Pipeline.sentFor_of_handle hcks hstable hhandle).mono ?_
  rintro _ ⟨j, hj, rfl⟩
  obtain ⟨p, hp, rfl⟩ := List.mem_map.mp hj
  exact hseen p (List.mem_append_left _ hp)

namespace Dataplane

variable {arrivals : ℕ → Mbuf} {hash : FlowKey → UInt32} {cfg : Config} {cks : Checksums}
  {args : List LcoreArg} {envs txEnvs : ℕ → Env ℕ} {portId : UInt16} {s s' : Dataplane bits}

/-- What was sent stays so. -/
theorem Step.exists_sent (hstep : Step arrivals hash cfg cks args envs txEnvs s s') :
    ∃ sent, s'.sent = s.sent ++ sent := by
  cases hstep with
  | mono => exact ⟨_, rfl⟩
  | receive => exact ⟨[], (List.append_nil _).symm⟩
  | transmit => exact ⟨_, rfl⟩
  | work => exact ⟨[], (List.append_nil _).symm⟩
  | enqueue => exact ⟨[], (List.append_nil _).symm⟩

/-- The buffers after a run of `RunMono`. -/
theorem Step.mono_mem
    (hstep : Step arrivals hash cfg cks (Layout.mono portId).args envs txEnvs s s') :
    (s'.core 0).world.mem = s'.mem := by
  cases hstep with
  | @mono idx k arg r harg =>
    obtain ⟨rfl, -⟩ := args_mono.mp harg
    have hcore : (s.afterMono r 0 k).core 0 = ⟨r.disp, r.world⟩ := Function.update_self 0 _ s.core
    rw [hcore]
    rfl
  | receive harg hrole =>
    obtain ⟨rfl, rfl⟩ := args_mono.mp harg
    cases hrole
  | transmit harg hrole =>
    obtain ⟨rfl, rfl⟩ := args_mono.mp harg
    cases hrole
  | work harg hrole =>
    obtain ⟨rfl, rfl⟩ := args_mono.mp harg
    cases hrole
  | enqueue harg _ hptr =>
    obtain ⟨rfl, rfl⟩ := args_mono.mp harg
    exact absurd hptr ringOf_monoArg

/-- What was received, as far as it is known after a step. -/
def Received (arrivals : ℕ → Mbuf) (next : ℕ) (f : Frame) : Prop :=
  ∃ j < next, (arrivals j).frame = f

/-- What a single lcore sends. -/
theorem Step.mono_sentFor
    (hs : Reachable arrivals hash cfg cks (Layout.mono portId).args envs txEnvs timeoutMs s)
    (hstep : Step arrivals hash cfg cks (Layout.mono portId).args envs txEnvs s s')
    (hcks : cks.Rfc1071) (hdistinct : (backends.map fun b => (b.ip, b.port)).Nodup)
    (hpools : ∀ idx tick pool, (envs idx).pool tick = some pool → pool.slots <+: backends) :
    ∃ sent, s'.sent = s.sent ++ sent ∧ ∀ i ∈ sent,
      (arrivals i).frame.SentFor cfg backends (Received arrivals s'.next) (s'.mem i).frame := by
  obtain ⟨s₀, hfresh, hsteps⟩ := hs
  have harg : (Layout.mono portId).args[0]? = some (monoArg portId) := rfl
  have hcore := hfresh.core 0 _ harg
  rw [LcoreArg.graph] at hcore
  have hlb : (s₀.core 0).world.lb = .init bits timeoutMs 0 1 := hfresh.lb 0 _ harg _ rfl
  have hmono : Relation.ReflTransGen (Mono.Step arrivals hash cfg cks (envs 0))
      ⟨s₀.core 0, s₀.next, s₀.sent⟩ ⟨s.core 0, s.next, s.sent⟩ :=
    hsteps.lift (fun s : Dataplane bits => (⟨s.core 0, s.next, s.sent⟩ : Mono bits))
      fun _ _ h => h.mono_step
  rw [hfresh.next_eq, hfresh.sent_eq] at hmono
  obtain ⟨log, hfollows⟩ := Mono.exists_follows hcore hmono
  obtain ⟨new, hfollows', sent, hsent, hdue, -⟩ := hfollows.step hstep.mono_step
  refine ⟨sent, hsent, fun i hi => ?_⟩
  rw [← hstep.mono_mem]
  obtain hemit | ⟨-, harp⟩ := hdue i hi
  · exact hemit.sentFor hcks hdistinct (hpools 0) hlb fun p hp => ⟨p.1, hfollows'.seen p hp, rfl⟩
  · exact .reply harp

/-- What the lcores of the distributor send. -/
theorem Step.distributor_sentFor {n : ℕ} (hpos : 1 ≤ n) (hn : n < kMaxLcores)
    (hs : Reachable arrivals hash cfg cks (Layout.distributor portId n).args envs txEnvs timeoutMs
      s)
    (hstep : Step arrivals hash cfg cks (Layout.distributor portId n).args envs txEnvs s s')
    (hcks : cks.Rfc1071) (hdistinct : (backends.map fun b => (b.ip, b.port)).Nodup)
    (hpools : ∀ idx tick pool, (envs idx).pool tick = some pool → pool.slots <+: backends) :
    ∃ sent, s'.sent = s.sent ++ sent ∧ ∀ i ∈ sent,
      (arrivals i).frame.SentFor cfg backends (Received arrivals s'.next) (s'.mem i).frame := by
  obtain ⟨s₀, hfresh, hsteps⟩ := hs
  obtain ⟨t₀, ht₀, hshows₀⟩ := hfresh.exists_shows hn
  obtain ⟨t, ht, hshows⟩ := hshows₀.steps hn (hsteps.tail hstep)
  obtain ⟨freed, ht⟩ := Cores.exists_releasing ht
  obtain ⟨-, log, hfollows, -⟩ := ht₀.exists_follows hpos ht
  obtain ⟨sent, hsent⟩ := hstep.exists_sent
  refine ⟨sent, hsent, fun i hi => ?_⟩
  have hleaves : t.Leaves i := .inl (hshows.sent_eq ▸ hsent ▸ List.mem_append_right _ hi)
  rw [← hshows.mem_eq, ← hshows.next_eq]
  obtain ⟨w, hemit⟩ | harp := hfollows.leaves i hleaves
  · have hw : w < n := by
      obtain ⟨before, tick, after, hlog, -⟩ := hemit
      have hmem : (i, tick) ∈ log w := hlog ▸ List.mem_append_right _ List.mem_cons_self
      exact (steersAsParsed hpos (arrivals i)).worker_lt w (hfollows.seen w _ hmem).2
    have harg : (Layout.distributor portId n).args[w + 1]? = some (workerArg portId n w) :=
      Layout.args_distributor.mpr (Or.inr ⟨w, hw, rfl, rfl⟩)
    have hlb := hfresh.lb (w + 1) _ harg _ rfl
    rw [← hshows₀.worker_eq w hw] at hlb
    exact hemit.sentFor hcks hdistinct (hpools (w + 1)) hlb
      fun p hp => ⟨p.1, (hfollows.seen w p hp).1, rfl⟩
  · exact .reply harp

end Dataplane

end Lcores

/-- Whatever `RunDataplane` launches: in every state that the lcores can reach and every step from
there, what is handed to the port are replies to ARP requests, frames of clients on their way to a
backend, and replies of backends on their way to a client. -/
def SendsTranslated (bits : ℕ) (arrivals : ℕ → Mbuf) (hash : FlowKey → UInt32) (cfg : Config)
    (cks : Checksums) (timeoutMs : UInt32) (envs txEnvs : ℕ → Env ℕ) (backends : List BackendInfo) :
    Prop :=
  ∀ created port lcoreCount layout, runDataplane created port lcoreCount = .ok layout →
    ∀ s s' : Dataplane bits,
      Dataplane.Reachable arrivals hash cfg cks layout.args envs txEnvs timeoutMs s →
      Dataplane.Step arrivals hash cfg cks layout.args envs txEnvs s s' →
      ∃ sent, s'.sent = s.sent ++ sent ∧ ∀ i ∈ sent, (arrivals i).frame.SentFor cfg backends
        (Dataplane.Received arrivals s'.next) (s'.mem i).frame

/-- In any interleaving, the lcores that `RunDataplane` launches send translated frames only, if the
packet library computes the checksums of RFC 1071 and the control plane keeps the backends in their
slots. -/
theorem launched_lcores_translate (bits : ℕ) (arrivals : ℕ → Mbuf) (hash : FlowKey → UInt32)
    (cfg : Config) (cks : Checksums) (timeoutMs : UInt32) (envs txEnvs : ℕ → Env ℕ)
    (backends : List BackendInfo) (hcks : cks.Rfc1071)
    (hdistinct : (backends.map fun b => (b.ip, b.port)).Nodup)
    (hpools : ∀ idx tick pool, (envs idx).pool tick = some pool → pool.slots <+: backends) :
    SendsTranslated bits arrivals hash cfg cks timeoutMs envs txEnvs backends := by
  intro created port lcoreCount layout hlayout s s' hs hstep
  obtain ⟨portId, -, ⟨-, rfl⟩ | ⟨n, hpos, hn, -, rfl, -⟩⟩ := runDataplane_eq_ok_iff.mp hlayout
  · exact hstep.mono_sentFor hs hcks hdistinct hpools
  · exact hstep.distributor_sentFor hpos hn hs hcks hdistinct hpools

/-- Lcores with one backend. -/
theorem launched_lcores_translate_one_backend :
    SendsTranslated 20 FirstBurst.frames (FlowKey.hash .sse42) Pipeline.exampleConfig
      rfc1071Checksums 30000 (fun _ => FirstBurst.env FirstBurst.received FirstBurst.frames)
      (fun _ => FirstBurst.env FirstBurst.forwarded FirstBurst.rewritten)
      [{ ip := 0x0A000202, port := 8080 }] := by
  refine launched_lcores_translate 20 _ _ _ _ _ _ _ _ rfc1071_rfc1071Checksums
    (List.nodup_singleton _) fun _ _ pool hpool => ?_
  obtain rfl := Option.some.inj hpool
  exact List.prefix_rfl

end Cerebellum
