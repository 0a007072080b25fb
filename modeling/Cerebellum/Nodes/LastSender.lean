import Cerebellum.Lib.Bindings
import Cerebellum.Nodes.ExpiredPorts
import Cerebellum.Nodes.Refinement
import Cerebellum.Nodes.ReplyTuples

/-!
# A reply goes to the client that its backend has last heard from

While no slot changes its backend and no two backends share an address and a port, the connection
tracker is an address translator: the inside addresses are the flow keys, the outside ones the reply
tuples, and a connection binds its key to its reply tuple. The workers have ports of their own, so
all of them together are an address translator, too, although they share nothing. Hence a reply that
a worker passes on goes to the client that the last packet under its tuple has come from, in any
interleaving of the workers, and however flows have been closed, timed out and evicted, and ports
been used again, in between. In particular no packet is passed on to a client that has not asked for
it.

## Main definitions

* `Cerebellum.Tracker.Orderly`: ports and names of backends tell the connections apart.
* `Cerebellum.Tracker.bindings`: the bindings of the connections.
* `Cerebellum.LbNode.workerOutcomes`: what becomes of the packets of several workers.
* `Cerebellum.LbNode.AnswersLastSender`: the property of a run.

## Main results

* `Cerebellum.Tracker.simulates_bindings`: the tracker is an address translator.
* `Cerebellum.LbNode.simulates_translator`: the workers together are one.
* `Cerebellum.LbNode.replies_go_to_last_sender`: the result for the workers.
-/

namespace Cerebellum

open NatTable Simulation Bindings

namespace Tracker

variable {hash : FlowKey → UInt32} {share : Finset UInt16} {capacity : ℕ}
  {timeoutMs nowMs : UInt32} {backends : List BackendInfo} {T T' : Tracker} {key : FlowKey}
  {c : Connection} {m : PacketMeta}

/-- Every connection holds its port, one of the worker's, and has the backend that its slot number
names, and no two connections have a port of one backend. -/
structure Orderly (share : Finset UInt16) (backends : List BackendInfo) (T : Tracker) : Prop where
  share : ∀ key c, T.conns key = some c → c.snatPort ∈ share
  used : ∀ key c, T.conns key = some c → c.snatPort ∈ T.held c.backendIdx
  names : ∀ key c, T.conns key = some c →
    c.backendIdx.toNat < backends.length ∧ c.backend = backends.getD c.backendIdx.toNat {}
  apart : ∀ key key' c c', T.conns key = some c → T.conns key' = some c' →
    c.backendIdx = c'.backendIdx → c.snatPort = c'.snatPort → key = key'

theorem orderly_empty (share : Finset UInt16) (backends : List BackendInfo) :
    Orderly share backends {} where
  share _ c hconn := absurd hconn.symm (Option.some_ne_none c)
  used _ c hconn := absurd hconn.symm (Option.some_ne_none c)
  names _ c hconn := absurd hconn.symm (Option.some_ne_none c)
  apart _ _ c _ hconn := absurd hconn.symm (Option.some_ne_none c)

theorem Orderly.forgets (h : T.Orderly share backends) (hforgets : T.Forgets timeoutMs nowMs T') :
    T'.Orderly share backends where
  share key c hconn := h.share key c (hforgets.conns key c hconn)
  used := hforgets.used
  names key c hconn := h.names key c (hforgets.conns key c hconn)
  apart key key' c c' hconn hconn' :=
    h.apart key key' c c' (hforgets.conns key c hconn) (hforgets.conns key' c' hconn')

theorem conns_of_drop {key' : FlowKey} {c' : Connection}
    (hconn : (T.drop key c).conns key' = some c') : key' ≠ key ∧ T.conns key' = some c' := by
  rw [drop_conns] at hconn
  by_cases hkey : key' = key
  · subst hkey
    rw [Function.update_self] at hconn
    exact absurd hconn.symm (Option.some_ne_none c')
  · rw [Function.update_of_ne hkey] at hconn
    exact ⟨hkey, hconn⟩

theorem Orderly.drop (h : T.Orderly share backends) (hconn : T.conns key = some c) :
    (T.drop key c).Orderly share backends where
  share key' c' hconn' := h.share key' c' (conns_of_drop hconn').2
  used key' c' hconn' := by
    obtain ⟨hkey, hconn'⟩ := conns_of_drop hconn'
    have hused := h.used key' c' hconn'
    rw [drop_held]
    by_cases hidx : c'.backendIdx = c.backendIdx
    · rw [hidx, Function.update_self]
      rw [hidx] at hused
      exact ⟨hused, fun hport => hkey (h.apart key' key c' c hconn' hconn hidx hport)⟩
    · rwa [Function.update_of_ne hidx]
  names key' c' hconn' := h.names key' c' (conns_of_drop hconn').2
  apart key₁ key₂ c₁ c₂ hconn₁ hconn₂ :=
    h.apart key₁ key₂ c₁ c₂ (conns_of_drop hconn₁).2 (conns_of_drop hconn₂).2

theorem conns_of_add {key' : FlowKey} {c' : Connection}
    (hconn : (T.add key c).conns key' = some c') :
    (key' = key ∧ c' = c) ∨ (key' ≠ key ∧ T.conns key' = some c') := by
  rw [add_conns] at hconn
  by_cases hkey : key' = key
  · subst hkey
    rw [Function.update_self] at hconn
    exact Or.inl ⟨rfl, (Option.some.inj hconn).symm⟩
  · rw [Function.update_of_ne hkey] at hconn
    exact Or.inr ⟨hkey, hconn⟩

theorem Orderly.add (h : T.Orderly share backends) (hshare : c.snatPort ∈ share)
    (hfree : c.snatPort ∉ T.held c.backendIdx)
    (hname : c.backendIdx.toNat < backends.length ∧
      c.backend = backends.getD c.backendIdx.toNat {}) :
    (T.add key c).Orderly share backends where
  share key' c' hconn := by
    obtain ⟨rfl, rfl⟩ | ⟨-, hconn⟩ := conns_of_add hconn
    · exact hshare
    · exact h.share key' c' hconn
  used key' c' hconn := by
    rw [add_held]
    obtain ⟨rfl, rfl⟩ | ⟨-, hconn⟩ := conns_of_add hconn
    · rw [Function.update_self]
      exact Set.mem_insert _ _
    · have hused := h.used key' c' hconn
      by_cases hidx : c'.backendIdx = c.backendIdx
      · rw [hidx] at hused ⊢
        rw [Function.update_self]
        exact Set.mem_insert_of_mem _ hused
      · rwa [Function.update_of_ne hidx]
  names key' c' hconn := by
    obtain ⟨rfl, rfl⟩ | ⟨-, hconn⟩ := conns_of_add hconn
    · exact hname
    · exact h.names key' c' hconn
  apart key₁ key₂ c₁ c₂ hconn₁ hconn₂ hidx hport := by
    obtain ⟨rfl, rfl⟩ | ⟨-, hold₁⟩ := conns_of_add hconn₁ <;>
      obtain ⟨rfl, rfl⟩ | ⟨-, hold₂⟩ := conns_of_add hconn₂
    · rfl
    · exact absurd (h.used key₂ c₂ hold₂) (hidx ▸ hport ▸ hfree)
    · exact absurd (h.used key₁ c₁ hold₁) (hidx.symm ▸ hport.symm ▸ hfree)
    · exact h.apart key₁ key₂ c₁ c₂ hold₁ hold₂ hidx hport

theorem Orderly.settle (h : T.Orderly share backends) (hshare : c.snatPort ∈ share)
    (hfree : c.snatPort ∉ T.held c.backendIdx)
    (hname : c.backendIdx.toNat < backends.length ∧
      c.backend = backends.getD c.backendIdx.toNat {}) :
    (T.settle key c m nowMs).Orderly share backends := by
  rw [Tracker.settle]
  split_ifs
  · exact h
  · exact h.add hshare hfree hname

/-- A packet of a connection keeps the order. -/
theorem Orderly.hit (h : T.Orderly share backends) (hconn : T.conns key = some c) :
    ((T.drop key c).settle key c m nowMs).Orderly share backends := by
  refine (h.drop hconn).settle (h.share key c hconn) ?_ (h.names key c hconn)
  rw [drop_held, Function.update_self]
  exact fun hmem => hmem.2 rfl

/-- Connections are told apart by their reply tuples. -/
theorem Orderly.eq_of_replyKey_eq (h : T.Orderly share backends)
    (hdistinct : (backends.map fun b => (b.ip, b.port)).Nodup) {key' : FlowKey} {c' : Connection}
    (hconn : T.conns key = some c) (hconn' : T.conns key' = some c')
    (hreply : c.replyKey key = c'.replyKey key') : key = key' := by
  obtain ⟨hip, hport, hsnat, -⟩ := replyKey_inj.mp hreply
  obtain ⟨hlt, hname⟩ := h.names key c hconn
  obtain ⟨hlt', hname'⟩ := h.names key' c' hconn'
  have hmem (i : ℕ) (hi : i < backends.length) :
      (backends.map fun b => (b.ip, b.port))[i]? =
        some ((backends.getD i {}).ip, (backends.getD i {}).port) := by
    rw [List.getElem?_map, List.getElem?_eq_getElem hi, List.getD_eq_getElem _ _ hi]
    rfl
  refine h.apart key key' c c' hconn hconn' (UInt8.toNat_inj.mp ?_) hsnat
  refine (List.getElem?_inj (by rwa [List.length_map]) hdistinct).mp ?_
  rw [hmem _ hlt, hmem _ hlt', ← hname, ← hname', hip, hport]

/-! ### The tracker as an address translator -/

/-- Keys are bound to the reply tuples of their connections. -/
def bindings (T : Tracker) (key : FlowKey) : Option FlowKey :=
  (T.conns key).map fun c => c.replyKey key

theorem bindings_eq_some {reply : FlowKey} :
    T.bindings key = some reply ↔ ∃ c, T.conns key = some c ∧ c.replyKey key = reply :=
  Option.map_eq_some_iff

theorem Forgets.within (h : T.Forgets timeoutMs nowMs T') : Within T'.bindings T.bindings := by
  intro key reply hbound
  obtain ⟨c, hconn, hreply⟩ := bindings_eq_some.mp hbound
  exact bindings_eq_some.mpr ⟨c, h.conns key c hconn, hreply⟩

theorem within_drop (T : Tracker) (key : FlowKey) (c : Connection) :
    Within (T.drop key c).bindings T.bindings := by
  intro key' reply hbound
  obtain ⟨c', hconn, hreply⟩ := bindings_eq_some.mp hbound
  exact bindings_eq_some.mpr ⟨c', (conns_of_drop hconn).2, hreply⟩

/-- A packet binds at most its own key, to the reply tuple of its connection. -/
theorem within_settle (hnone : T.conns key = none) (c : Connection) (m : PacketMeta)
    (nowMs : UInt32) : Within (T.settle key c m nowMs).bindings
      (Function.update T.bindings key (some (c.replyKey key))) := by
  intro key' reply hbound
  obtain ⟨c', hconn, hreply⟩ := bindings_eq_some.mp hbound
  rw [settle] at hconn
  split_ifs at hconn
  · have hkey : key' ≠ key := by
      rintro rfl
      exact Option.some_ne_none c' (hconn.symm.trans hnone)
    rw [Function.update_of_ne hkey]
    exact bindings_eq_some.mpr ⟨c', hconn, hreply⟩
  · obtain ⟨rfl, rfl⟩ | ⟨hkey, hold⟩ := conns_of_add hconn
    · rw [Function.update_self, ← hreply]
      rfl
    · rw [Function.update_of_ne hkey]
      exact bindings_eq_some.mpr ⟨c', hold, hreply⟩

theorem drop_conns_self (T : Tracker) (key : FlowKey) (c : Connection) :
    (T.drop key c).conns key = none := by
  rw [drop_conns, Function.update_self]

/-- The label of a packet forwarded under a reply tuple. -/
def SentUnder (label : Arrival × Bool × PacketMeta) (reply : FlowKey) : Prop :=
  label.1.packet.dir = .forward ∧ label.2.1 = true ∧
    replyKey label.2.2.backendIp label.2.2.backendPort label.2.2.snatPort label.1.packet.proto =
      reply

/-- What an observer of the addresses sees of a packet. -/
def ShowsAs (label : Arrival × Bool × PacketMeta) : Event FlowKey FlowKey → Prop
  | .sent key reply => SentUnder label reply ∧ label.1.packet.flowKey = key
  | .returned reply key => label.1.packet.dir = .reverse ∧ label.2.1 = true ∧
      label.1.packet.replyKey = reply ∧ label.2.2.clientIp = key.srcIp ∧
      label.2.2.clientPort = key.srcPort
  | .quiet => label.2.1 = false

/-- The pools keep the backends in their slots. -/
def KeepsSlots (backends : List BackendInfo) (label : Arrival × Bool × PacketMeta) : Prop :=
  ∀ pool, label.1.pool = some pool → pool.slots <+: backends

/-- A connection is opened to a backend that keeps its slot. -/
theorem names_opened {pool : BackendPool} (hslots : pool.slots <+: backends)
    (hactive : pool.activeCount ≠ 0) {port : UInt16} :
    (Connection.opened hash pool m port nowMs).backendIdx.toNat < backends.length ∧
      (Connection.opened hash pool m port nowMs).backend =
        backends.getD (Connection.opened hash pool m port nowMs).backendIdx.toNat {} := by
  have hlt := BackendPool.select_lt hash m.flowKey hactive
  obtain ⟨rest, rfl⟩ := hslots
  refine ⟨hlt.trans_le (by rw [List.length_append]; omega), ?_⟩
  exact (List.getD_append _ _ _ _ hlt).symm

/-- Under fixed backends the tracker is an address translator. -/
theorem simulates_bindings (hdistinct : (backends.map fun b => (b.ip, b.port)).Nodup) :
    Simulates ((system hash share capacity timeoutMs).restrict (KeepsSlots backends))
      ((Bindings.system : System (FlowKey → Option FlowKey) (Event FlowKey FlowKey)).restrict
        (InPool fun reply => reply.dstPort ∈ share)) ShowsAs
      (fun T bound => T.Orderly share backends ∧ T.bindings = bound) where
  init := ⟨orderly_empty share backends, rfl⟩
  step := by
    rintro T _ label T' ⟨horderly, rfl⟩ ⟨hslots, hstep⟩
    cases hstep with
    | idle husable =>
      exact ⟨.quiet, T.bindings, rfl, ⟨trivial, .quiet fun _ _ => id⟩, horderly, rfl⟩
    | refused husable hforgets hdir hconn hwhy =>
      exact ⟨.quiet, _, rfl, ⟨trivial, .quiet hforgets.within⟩, horderly.forgets hforgets, rfl⟩
    | unknown husable hforgets hdir =>
      exact ⟨.quiet, _, rfl, ⟨trivial, .quiet hforgets.within⟩, horderly.forgets hforgets, rfl⟩
    | @forward T₁ a pool c husable hforgets hdir hconn hcurrent =>
      refine ⟨.sent a.packet.flowKey (c.replyKey a.packet.flowKey), _, ⟨⟨hdir, rfl, rfl⟩, rfl⟩, ?_,
        (horderly.forgets hforgets).hit hconn, rfl⟩
      refine ⟨(horderly.forgets hforgets).share _ c hconn,
        .sent hforgets.within (Or.inl (bindings_eq_some.mpr ⟨c, hconn, rfl⟩)) ?_⟩
      exact (within_settle (drop_conns_self T₁ _ c) c _ _).trans ((within_drop T₁ _ c).update _ _)
    | @opens T₁ a pool port husable hforgets hdir hmay hconn hshare hfree =>
      let c := Connection.opened hash pool a.packet port a.nowMs
      have hname : c.backendIdx.toNat < backends.length ∧
          c.backend = backends.getD c.backendIdx.toNat {} :=
        names_opened (hslots pool (Arrival.usable_eq_some.mp husable).1)
          (Arrival.usable_eq_some.mp husable).2
      have hT₁ := horderly.forgets hforgets
      refine ⟨.sent a.packet.flowKey (c.replyKey a.packet.flowKey), _, ⟨⟨hdir, rfl, rfl⟩, rfl⟩, ?_,
        hT₁.settle hshare hfree hname, rfl⟩
      refine ⟨hshare, .sent hforgets.within (Or.inr fun key' hbound => ?_)
        (within_settle hconn c _ _)⟩
      obtain ⟨c', hconn', hreply⟩ := bindings_eq_some.mp hbound
      -- the new connection would be the one that is there
      have hkey : key' ≠ a.packet.flowKey := by
        rintro rfl
        exact Option.some_ne_none c' (hconn'.symm.trans hconn)
      have hadd : (T₁.add a.packet.flowKey c).Orderly share backends := hT₁.add hshare hfree hname
      refine hkey (hadd.eq_of_replyKey_eq hdistinct ?_ ?_ hreply)
      · rwa [add_conns, Function.update_of_ne hkey]
      · rw [add_conns, Function.update_self]
    | @reverse T₁ a pool key c husable hforgets hdir hconn hcurrent hreply =>
      have hbound := hforgets.within key _ (bindings_eq_some.mpr ⟨c, hconn, hreply⟩)
      refine ⟨.returned a.packet.replyKey key, _, ⟨hdir, rfl, rfl, rfl, rfl⟩, ?_,
        (horderly.forgets hforgets).hit hconn, rfl⟩
      refine ⟨trivial, .returned hbound ((within_settle (drop_conns_self T₁ key c) c _ _).trans ?_)⟩
      intro key' reply hafter
      by_cases hkey : key' = key
      · subst hkey
        rw [Function.update_self, hreply] at hafter
        exact hafter ▸ hbound
      · rw [Function.update_of_ne hkey] at hafter
        exact hforgets.within _ _ (within_drop T₁ key c _ _ hafter)

end Tracker

/-! ### Runs of the workers -/

/-- Shares of different workers have no port in common. -/
theorem eq_of_mem_portShare {nWorkers w w' port : UInt16} (h : port ∈ portShare w nWorkers)
    (h' : port ∈ portShare w' nWorkers) : w = w' :=
  (mem_portShare.mp h).2.2.symm.trans (mem_portShare.mp h').2.2

namespace LbNode

variable {bits : ℕ} {backends : List BackendInfo}

open Tracker

/-- The packets that reach several workers, in any interleaving, with what becomes of them. -/
def workerOutcomes (hash : FlowKey → UInt32) (nodes : UInt16 → LbNode bits) :
    List (UInt16 × Arrival) → List (UInt16 × Arrival × Bool × PacketMeta)
  | [] => []
  | (w, a) :: as =>
    (w, a, (arrive hash (nodes w) a).2) ::
      workerOutcomes hash (Function.update nodes w (arrive hash (nodes w) a).1) as

/-- The nodes of all workers when they start. -/
def workers (bits : ℕ) (timeoutMs : UInt32) (nWorkers w : UInt16) : LbNode bits :=
  init bits timeoutMs w nWorkers

/-- Every reply that a worker passes on goes to the client that the last packet under its tuple has
come from, a packet of the same worker. -/
def AnswersLastSender (labels : List (UInt16 × Arrival × Bool × PacketMeta)) : Prop :=
  ∀ before w a sent m rest, labels = before ++ (w, a, sent, m) :: rest →
    a.packet.dir = .reverse → sent = true →
      ∃ earlier label later, before = earlier ++ (w, label) :: later ∧
        SentUnder label a.packet.replyKey ∧ label.1.packet.srcIp = m.clientIp ∧
        label.1.packet.srcPort = m.clientPort ∧
        ∀ label' ∈ later, ¬ SentUnder label'.2 a.packet.replyKey

/-- What the packets of a run may be, when no slot changes its backend. -/
def workerSystem (hash : FlowKey → UInt32) (bits : ℕ) (timeoutMs : UInt32) (nWorkers : UInt16)
    (backends : List BackendInfo) :
    System (UInt16 → LbNode bits) (UInt16 × Arrival × Bool × PacketMeta) :=
  System.product fun w =>
    (system hash bits timeoutMs w nWorkers).restrict (KeepsSlots backends)

/-- What an observer of the addresses sees of a packet of a worker. -/
def WorkerShowsAs (l : UInt16 × Arrival × Bool × PacketMeta) :
    Event (UInt16 × FlowKey) FlowKey → Prop
  | .sent key reply => key.1 = l.1 ∧ ShowsAs l.2 (.sent key.2 reply)
  | .returned reply key => key.1 = l.1 ∧ ShowsAs l.2 (.returned reply key.2)
  | .quiet => ShowsAs l.2 .quiet

/-- A packet that is sent is seen as sent. -/
theorem WorkerShowsAs.eq_sent {l : UInt16 × Arrival × Bool × PacketMeta}
    {event : Event (UInt16 × FlowKey) FlowKey} (h : WorkerShowsAs l event) {reply : FlowKey}
    (hunder : SentUnder l.2 reply) : ∃ key, event = .sent key reply := by
  cases event with
  | sent key reply' => exact ⟨key, by rw [← hunder.2.2, ← h.2.1.2.2]⟩
  | returned reply' key => exact Direction.noConfusion (hunder.1.symm.trans h.2.1)
  | quiet => exact Bool.noConfusion (hunder.2.1.symm.trans h)

/-- A reply that is passed on is seen as returned. -/
theorem WorkerShowsAs.eq_returned {l : UInt16 × Arrival × Bool × PacketMeta}
    {event : Event (UInt16 × FlowKey) FlowKey} (h : WorkerShowsAs l event)
    (hdir : l.2.1.packet.dir = .reverse) (hsent : l.2.2.1 = true) :
    ∃ key, event = .returned l.2.1.packet.replyKey key := by
  cases event with
  | sent key reply => exact Direction.noConfusion (hdir.symm.trans h.2.1.1)
  | returned reply key => exact ⟨key, by rw [← h.2.2.2.1]⟩
  | quiet => exact Bool.noConfusion (hsent.symm.trans h)

/-- The workers together are an address translator. -/
theorem simulates_translator (hash : FlowKey → UInt32) (bits : ℕ) (timeoutMs : UInt32)
    (nWorkers : UInt16) (hdistinct : (backends.map fun b => (b.ip, b.port)).Nodup) :
    ∃ R, Simulates (workerSystem hash bits timeoutMs nWorkers backends)
      (Bindings.system : System (UInt16 × FlowKey → Option FlowKey)
        (Event (UInt16 × FlowKey) FlowKey)) WorkerShowsAs R := by
  have hworker (w : UInt16) :=
    ((simulates_tracker hash bits timeoutMs w nWorkers).restrict (KeepsSlots backends)).trans
      (simulates_bindings hdistinct)
  have hpools : ∀ (w w' : UInt16) (reply : FlowKey), reply.dstPort ∈ portShare w nWorkers →
      reply.dstPort ∈ portShare w' nWorkers → w = w' :=
    fun _ _ _ => eq_of_mem_portShare
  refine ⟨_, ((Simulates.product hworker).trans (simulates_combine hpools)).imp ?_⟩
  rintro ⟨_, _⟩ event ⟨⟨_, e⟩, ⟨rfl, _, rfl, hshows⟩, htag⟩
  cases event with
  | sent key reply =>
    obtain ⟨hkey, rfl⟩ : _ ∧ e = .sent key.2 reply := htag
    exact ⟨hkey, hshows⟩
  | returned reply key =>
    obtain ⟨hkey, rfl⟩ : _ ∧ e = .returned reply key.2 := htag
    exact ⟨hkey, hshows⟩
  | quiet =>
    obtain rfl : e = .quiet := htag
    exact hshows

theorem exec_workerOutcomes (hash : FlowKey → UInt32) (bits : ℕ) (timeoutMs : UInt32)
    (nWorkers : UInt16) {as : List (UInt16 × Arrival)}
    (h : StableBackends backends (as.map Prod.snd)) {nodes : UInt16 → LbNode bits}
    {labels : List (UInt16 × Arrival × Bool × PacketMeta)}
    (hexec : Exec (workerSystem hash bits timeoutMs nWorkers backends) labels nodes) :
    ∃ nodes', Exec (workerSystem hash bits timeoutMs nWorkers backends)
      (labels ++ workerOutcomes hash nodes as) nodes' := by
  induction as generalizing labels nodes with
  | nil => exact ⟨nodes, by rwa [workerOutcomes, List.append_nil]⟩
  | cons wa as ih =>
    obtain ⟨w, a⟩ := wa
    have hrest : StableBackends backends (as.map Prod.snd) :=
      ⟨h.distinct, fun a' ha' => h.stable a' (List.mem_cons_of_mem _ ha')⟩
    have hnext := hexec.snoc (l := (w, a, (arrive hash (nodes w) a).2))
      ⟨_, ⟨h.stable a List.mem_cons_self, rfl⟩, rfl⟩
    obtain ⟨nodes', hexec'⟩ := ih hrest hnext
    exact ⟨nodes', by rwa [workerOutcomes, List.append_cons]⟩

/-- In every run whose pools keep the backends in their slots, no two of which have the same address
and port, every reply that a worker passes on goes to the client that the last packet under its
tuple has come from. -/
theorem replies_go_to_last_sender (hash : FlowKey → UInt32) (bits : ℕ) (timeoutMs : UInt32)
    (nWorkers : UInt16) (as : List (UInt16 × Arrival))
    (h : StableBackends backends (as.map Prod.snd)) :
    AnswersLastSender (workerOutcomes hash (workers bits timeoutMs nWorkers) as) := by
  intro before w a sent m rest hlabels hdir hsent
  obtain ⟨_, hexec⟩ := exec_workerOutcomes hash bits timeoutMs nWorkers h .nil
  rw [List.nil_append, show (workerSystem hash bits timeoutMs nWorkers backends).init =
    workers bits timeoutMs nWorkers from rfl, hlabels, List.append_cons] at hexec
  obtain ⟨_, hexec⟩ := hexec.of_append
  -- the run up to the reply, as an observer of the addresses sees it
  obtain ⟨_, hsim⟩ := simulates_translator hash bits timeoutMs nWorkers h.distinct
  obtain ⟨events, bound, hevents, hbound, -⟩ := hsim.exec hexec
  obtain ⟨seen, event, rest', rfl, hseen, hevent, hrest⟩ :=
    forall₂_append_cons_right (List.Forall₂.flip (R := flip _) hevents)
  obtain rfl := List.forall₂_nil_right_iff.mp hrest
  obtain ⟨key, rfl⟩ := WorkerShowsAs.eq_returned hevent hdir hsent
  obtain ⟨hkey, -, -, -, hip, hport⟩ := hevent
  -- the last packet under the tuple, and the label of it
  obtain ⟨earlier, later, rfl, hlater⟩ := lastSender_eq_some (lastSender_of_returned hbound)
  obtain ⟨earlier', ⟨w', label⟩, later', rfl, -, ⟨hkey', hunder, hlabel⟩, hlater'⟩ :=
    forall₂_append_cons_right hseen.flip
  obtain rfl : w' = w := hkey'.symm.trans hkey
  refine ⟨earlier', label, later', rfl, hunder, ?_, ?_, fun label' hmem hunder' => ?_⟩
  · rw [hip, ← hlabel]
    rfl
  · rw [hport, ← hlabel]
    rfl
  · obtain ⟨before', after', rfl⟩ := List.append_of_mem hmem
    obtain ⟨before, event, after, rfl, -, hevent, -⟩ :=
      forall₂_append_cons_right (List.Forall₂.flip (R := flip _) hlater')
    obtain ⟨key', rfl⟩ := WorkerShowsAs.eq_sent hevent hunder'
    exact hlater key' (List.mem_append_right before List.mem_cons_self)

/-- The result for one backend, a datagram to a worker with one port, and the reply, which is passed
on to the client. -/
theorem replies_go_to_last_sender_one_backend :
    let backend : BackendInfo := { ip := 0x0A000202, port := 8080 }
    let reply : PacketMeta :=
      { srcIp := backend.ip, srcPort := backend.port, dstIp := 0x0A0001FE, dstPort := 64512,
        proto := 17, dir := .reverse }
    let as : List (UInt16 × Arrival) :=
      [(0, ⟨some (.single backend), 0, udpPacket 1⟩), (0, ⟨some (.single backend), 5, reply⟩)]
    let outcomes := workerOutcomes (FlowKey.hash .sse42) (workers 20 30000 64512) as
    StableBackends [backend] (as.map Prod.snd) ∧
      (outcomes.map fun o => (o.2.2.1, o.2.2.2.clientIp, o.2.2.2.clientPort)) =
        [(true, 0, 0), (true, (udpPacket 1).srcIp, (udpPacket 1).srcPort)] ∧
      AnswersLastSender outcomes := by
  intro backend reply as outcomes
  have hstable : StableBackends [backend] (as.map Prod.snd) := stableBackends_single (by simp [as])
  refine ⟨hstable, ?_, replies_go_to_last_sender (FlowKey.hash .sse42) 20 30000 64512 as hstable⟩
  simp only [outcomes, as, workerOutcomes, workers, init, forWorker_one_port, Function.update_self]
  decide +kernel

end LbNode

end Cerebellum
