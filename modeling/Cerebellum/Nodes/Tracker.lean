import Cerebellum.Lib.Simulation
import Cerebellum.Nodes.LbSteps
import Mathlib.Data.Set.Insert

/-!
# The connection tracker

What `LbNode` is for, without its table: a map from flow keys to connections, and for each backend
the ports that are not to be had. There are no slots, no scans, no reverse index and no reaping.
Between two packets a connection that has timed out may be forgotten, and a port that no connection
uses may become free; a connection that has not timed out is there and is used.

A packet opens a connection with any port that is not held. It is refused for a reason: it may not
open a connection, all ports of the worker are held for its backend, or there are as many current
connections as the table has room for. Only for replies no reason is given, as the reverse index
may lack the connection that they belong to.

## Main definitions

* `Cerebellum.Connection`, `Cerebellum.Tracker`: the abstract state.
* `Cerebellum.Tracker.Forgets`: what may happen between two packets.
* `Cerebellum.Tracker.Step`: what may happen to a packet.
* `Cerebellum.Tracker.system`: the tracker as a system whose labels are the packets with what
  becomes of them.
-/

namespace Cerebellum

/-- A connection: where its packets go in both directions, when the last one came, and the
directions that have sent a FIN. -/
structure Connection where
  clientMac : MacAddr
  backend : BackendInfo
  backendIdx : UInt8
  snatPort : UInt16
  lastSeenMs : UInt32
  fins : Direction → Bool

namespace Connection

/-- The metadata of a packet that goes to the backend. -/
def toBackend (c : Connection) (m : PacketMeta) : PacketMeta :=
  { m with
    backendIp := c.backend.ip
    backendMac := c.backend.mac
    backendPort := c.backend.port
    snatPort := c.snatPort }

/-- The metadata of a packet that goes back to the client. -/
def toClient (c : Connection) (key : FlowKey) (m : PacketMeta) : PacketMeta :=
  { m with
    clientIp := key.srcIp
    clientPort := key.srcPort
    clientMac := c.clientMac }

/-- The tuple that replies to the connection carry, laid out as a key. -/
def replyKey (c : Connection) (key : FlowKey) : FlowKey :=
  Cerebellum.replyKey c.backend.ip c.backend.port c.snatPort key.proto

/-- The connection has not timed out. -/
def Current (timeoutMs nowMs : UInt32) (c : Connection) : Prop :=
  nowMs - c.lastSeenMs ≤ timeoutMs

/-- The connection that a packet opens to the selected backend. -/
def opened (hash : FlowKey → UInt32) (pool : BackendPool) (m : PacketMeta) (port : UInt16)
    (nowMs : UInt32) : Connection where
  clientMac := m.clientMac
  backend := pool.getAt (pool.select hash m.flowKey)
  backendIdx := pool.select hash m.flowKey
  snatPort := port
  lastSeenMs := nowMs
  fins _ := false

/-- The directions that have sent a FIN, the packet included. -/
def finsAfter (c : Connection) (m : PacketMeta) (dir : Direction) : Bool :=
  c.fins dir || (m.dir = dir && m.has kTcpFin)

/-- The connection after a packet that does not close it. -/
def after (c : Connection) (m : PacketMeta) (nowMs : UInt32) : Connection :=
  { c with lastSeenMs := nowMs, fins := c.finsAfter m }

/-- The packet closes the connection: a reset, or a FIN when the other direction has sent one. -/
def closedBy (c : Connection) (m : PacketMeta) : Bool :=
  m.has kTcpRst || (m.has kTcpFin && (c.finsAfter m .forward && c.finsAfter m .reverse))

end Connection

/-- The connections by their keys, and the ports that are held for each backend. -/
structure Tracker where
  conns : FlowKey → Option Connection := fun _ => none
  held : UInt8 → Set UInt16 := fun _ => ∅

namespace Tracker

/-- Connections that have timed out are forgotten, and ports that none of the others uses are
given up, or not. -/
structure Forgets (timeoutMs nowMs : UInt32) (T T' : Tracker) : Prop where
  conns : ∀ key c, T'.conns key = some c → T.conns key = some c
  kept : ∀ key c, T.conns key = some c → c.Current timeoutMs nowMs → T'.conns key = some c
  held : ∀ b, T'.held b ⊆ T.held b
  used : ∀ key c, T'.conns key = some c → c.snatPort ∈ T'.held c.backendIdx

/-- A connection is added, with its port. -/
def add (T : Tracker) (key : FlowKey) (c : Connection) : Tracker where
  conns := Function.update T.conns key (some c)
  held := Function.update T.held c.backendIdx (insert c.snatPort (T.held c.backendIdx))

/-- A connection is dropped, with its port. -/
def drop (T : Tracker) (key : FlowKey) (c : Connection) : Tracker where
  conns := Function.update T.conns key none
  held := Function.update T.held c.backendIdx (T.held c.backendIdx \ {c.snatPort})

@[simp] theorem add_conns (T : Tracker) (key : FlowKey) (c : Connection) :
    (T.add key c).conns = Function.update T.conns key (some c) := rfl

@[simp] theorem add_held (T : Tracker) (key : FlowKey) (c : Connection) :
    (T.add key c).held =
      Function.update T.held c.backendIdx (insert c.snatPort (T.held c.backendIdx)) := rfl

@[simp] theorem drop_conns (T : Tracker) (key : FlowKey) (c : Connection) :
    (T.drop key c).conns = Function.update T.conns key none := rfl

@[simp] theorem drop_held (T : Tracker) (key : FlowKey) (c : Connection) :
    (T.drop key c).held =
      Function.update T.held c.backendIdx (T.held c.backendIdx \ {c.snatPort}) := rfl

/-- What is left of a connection after a packet of it. -/
def settle (T : Tracker) (key : FlowKey) (c : Connection) (m : PacketMeta) (nowMs : UInt32) :
    Tracker :=
  if c.closedBy m then T else T.add key (c.after m nowMs)

/-- There are as many current connections as there is room for. -/
def Full (capacity : ℕ) (timeoutMs nowMs : UInt32) (T : Tracker) : Prop :=
  ∃ keys : Finset FlowKey, keys.card = capacity ∧
    ∀ key ∈ keys, ∃ c, T.conns key = some c ∧ c.Current timeoutMs nowMs

section Steps

variable (hash : FlowKey → UInt32) (share : Finset UInt16) (capacity : ℕ) (timeoutMs : UInt32)

/-- A good reason to refuse a forward packet without a connection. -/
def MayRefuse (T : Tracker) (pool : BackendPool) (m : PacketMeta) (nowMs : UInt32) : Prop :=
  ¬ LbNode.MayOpen m ∨ (∀ port ∈ share, port ∈ T.held (pool.select hash m.flowKey)) ∨
    T.Full capacity timeoutMs nowMs

/-- What may happen to a packet. The label is the packet, with the pool and the time it meets,
whether it is passed on, and its metadata then. -/
inductive Step : Tracker → Arrival × Bool × PacketMeta → Tracker → Prop
  /-- There is no pool with an enabled backend. -/
  | idle {T : Tracker} {a : Arrival} (husable : a.usable = none) : Step T (a, false, a.packet) T
  /-- A forward packet of a connection. -/
  | forward {T T₁ : Tracker} {a : Arrival} {pool : BackendPool} {c : Connection}
      (husable : a.usable = some pool) (hforgets : T.Forgets timeoutMs a.nowMs T₁)
      (hdir : a.packet.dir = .forward) (hconn : T₁.conns a.packet.flowKey = some c)
      (hcurrent : c.Current timeoutMs a.nowMs) :
      Step T (a, true, c.toBackend a.packet)
        ((T₁.drop a.packet.flowKey c).settle a.packet.flowKey c a.packet a.nowMs)
  /-- A forward packet that opens a connection. -/
  | opens {T T₁ : Tracker} {a : Arrival} {pool : BackendPool} {port : UInt16}
      (husable : a.usable = some pool) (hforgets : T.Forgets timeoutMs a.nowMs T₁)
      (hdir : a.packet.dir = .forward) (hmay : LbNode.MayOpen a.packet)
      (hconn : T₁.conns a.packet.flowKey = none) (hshare : port ∈ share)
      (hfree : port ∉ T₁.held (pool.select hash a.packet.flowKey)) :
      Step T (a, true, (Connection.opened hash pool a.packet port a.nowMs).toBackend a.packet)
        (T₁.settle a.packet.flowKey (.opened hash pool a.packet port a.nowMs) a.packet a.nowMs)
  /-- A forward packet that is refused. -/
  | refused {T T₁ : Tracker} {a : Arrival} {pool : BackendPool}
      (husable : a.usable = some pool) (hforgets : T.Forgets timeoutMs a.nowMs T₁)
      (hdir : a.packet.dir = .forward) (hconn : T₁.conns a.packet.flowKey = none)
      (hwhy : T₁.MayRefuse hash share capacity timeoutMs pool a.packet a.nowMs) :
      Step T (a, false, a.packet) T₁
  /-- A reply to a connection. -/
  | reverse {T T₁ : Tracker} {a : Arrival} {pool : BackendPool} {key : FlowKey} {c : Connection}
      (husable : a.usable = some pool) (hforgets : T.Forgets timeoutMs a.nowMs T₁)
      (hdir : a.packet.dir = .reverse) (hconn : T₁.conns key = some c)
      (hcurrent : c.Current timeoutMs a.nowMs) (hreply : c.replyKey key = a.packet.replyKey) :
      Step T (a, true, c.toClient key a.packet)
        ((T₁.drop key c).settle key c a.packet a.nowMs)
  /-- A reply that is not passed on. -/
  | unknown {T T₁ : Tracker} {a : Arrival} {pool : BackendPool}
      (husable : a.usable = some pool) (hforgets : T.Forgets timeoutMs a.nowMs T₁)
      (hdir : a.packet.dir = .reverse) : Step T (a, false, a.packet) T₁

/-- The tracker, which starts without connections. -/
def system : Simulation.System Tracker (Arrival × Bool × PacketMeta) where
  init := {}
  step := Step hash share capacity timeoutMs

end Steps

end Tracker

end Cerebellum
