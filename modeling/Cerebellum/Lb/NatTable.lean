import Cerebellum.Lib.Probing
import Cerebellum.Net.FlowKey

/-!
# The connection-tracking table

`NatTable` (`lb/nat_table.hpp`) is an open-addressed table of flows, found by the hash of their
forward key, with a second open-addressed array `rev` whose cells point back into the table and
are found by the hash of the reply tuple. Flows are never removed: a flow that is closed, or seen to
be idle too long, is marked *reaped*, and its slot is overwritten by a later insertion.

The capacity is `2 ^ bits`, so that masking an index is reducing it modulo the capacity. A cell of
`rev` is an `Option` of a slot, where the source has `0` for an empty cell and the slot plus one
otherwise. A `NatFlow*` into the table is a slot number. Times are 32-bit and subtraction wraps.

## Main definitions

* `Cerebellum.NatFlow`, `Cerebellum.NatTable`.
* `Cerebellum.NatTable.expired`, `Cerebellum.NatFlow.Live`: the source's test for a dead entry, and
  its negation on occupied slots.
* `Cerebellum.NatTable.lookupForward`, `lookupReverse`, `insert`, `indexReverse`, `close`.

What each operation does is stated in `Cerebellum.Lb.NatTableSpec`.
-/

open Probing

namespace Cerebellum

/-- A table entry. -/
structure NatFlow where
  fwdKey : FlowKey := {}
  clientMac : MacAddr := {}
  backendIp : UInt32 := 0
  backendMac : MacAddr := {}
  backendPort : UInt16 := 0
  snatPort : UInt16 := 0
  backendIdx : UInt8 := 0
  lastSeenMs : UInt32 := 0
  finSeen : UInt8 := 0
  reaped : Bool := false
  occupied : Bool := false
deriving DecidableEq, Inhabited

/-- The key that `RevHash` hashes: the reply tuple laid out as a flow key. -/
def replyKey (backendIp : UInt32) (backendPort snatPort : UInt16) (proto : UInt8) : FlowKey where
  srcIp := backendIp
  srcPort := backendPort
  dstPort := snatPort
  proto := proto

namespace NatFlow

/-- The reply tuple of a flow, laid out as a flow key. -/
def revKey (flow : NatFlow) : FlowKey :=
  replyKey flow.backendIp flow.backendPort flow.snatPort flow.fwdKey.proto

/-- The slot holds a flow that has not been reaped. -/
def Unreaped (flow : NatFlow) : Prop := flow.occupied = true ∧ flow.reaped = false

instance (flow : NatFlow) : Decidable flow.Unreaped := inferInstanceAs (Decidable (_ ∧ _))

/-- The slot holds a flow that has not been reaped and has not been idle longer than the timeout. -/
def Live (timeoutMs : UInt32) (flow : NatFlow) (nowMs : UInt32) : Prop :=
  flow.Unreaped ∧ nowMs - flow.lastSeenMs ≤ timeoutMs

instance (timeoutMs : UInt32) (flow : NatFlow) (nowMs : UInt32) :
    Decidable (flow.Live timeoutMs nowMs) := inferInstanceAs (Decidable (_ ∧ _))

end NatFlow

/-- `replyKey` forgets nothing of the reply tuple. -/
theorem replyKey_inj {ip ip' : UInt32} {port port' snat snat' : UInt16} {proto proto' : UInt8} :
    replyKey ip port snat proto = replyKey ip' port' snat' proto' ↔
      ip = ip' ∧ port = port' ∧ snat = snat' ∧ proto = proto' := by
  simp only [replyKey, FlowKey.mk.injEq, true_and]

/-- A slot number of a table with `2 ^ bits` slots. -/
abbrev Slot (bits : ℕ) := Fin (2 ^ bits)

/-- The conntrack table: the slots, the reverse index, the number of flows not reaped, and the
timeout. -/
structure NatTable (bits : ℕ) where
  slots : Slot bits → NatFlow := fun _ => {}
  rev : Slot bits → Option (Slot bits) := fun _ => none
  size : ℕ := 0
  timeoutMs : UInt32

namespace NatTable

variable {bits : ℕ}

/-- `hash & kMask`. -/
def home (h : UInt32) : Slot bits :=
  ⟨h.toNat % 2 ^ bits, Nat.mod_lt _ (Nat.two_pow_pos bits)⟩

/-- `NatTable::Expired`. -/
def expired (timeoutMs : UInt32) (flow : NatFlow) (nowMs : UInt32) : Bool :=
  flow.occupied && (flow.reaped || decide (timeoutMs < nowMs - flow.lastSeenMs))

/-- Overwrite one slot. -/
def setSlot (t : NatTable bits) (s : Slot bits) (flow : NatFlow) : NatTable bits :=
  { t with slots := Function.update t.slots s flow }

/-- `NatTable::Reap`. -/
def reap (t : NatTable bits) (s : Slot bits) : NatTable bits :=
  if (t.slots s).reaped then t
  else
    { t with
      slots := Function.update t.slots s { t.slots s with reaped := true }
      size := if 0 < t.size then t.size - 1 else t.size }

/-- The assignment `flow.last_seen_ms = now_ms` of the lookups. -/
def touch (t : NatTable bits) (s : Slot bits) (nowMs : UInt32) : NatTable bits :=
  t.setSlot s { t.slots s with lastSeenMs := nowMs }

/-- `NatTable::Close`, with the released port and its backend. -/
def close (t : NatTable bits) (s : Slot bits) : NatTable bits × UInt16 × UInt8 :=
  let flow := t.slots s
  if !flow.occupied || flow.reaped then (t, 0, 0)
  else
    let t := t.reap s
    (t.setSlot s { t.slots s with snatPort := 0 }, flow.snatPort, flow.backendIdx)

section Operations

variable (hash : FlowKey → UInt32)

/-- The body of the loop of `LookupForward`: stop at a slot never used, reap an expired entry,
refresh the entry for the key. -/
def visitForward (key : FlowKey) (nowMs : UInt32) (t : NatTable bits) (s : Slot bits) :
    Visit (NatTable bits) (Slot bits) :=
  let flow := t.slots s
  if !flow.occupied then .done t none
  else if expired t.timeoutMs flow nowMs then .next (t.reap s)
  else if flow.fwdKey = key then .done (t.touch s nowMs) (some s)
  else .next t

/-- `NatTable::LookupForward`. -/
def lookupForward (t : NatTable bits) (key : FlowKey) (nowMs : UInt32) :
    NatTable bits × Option (Slot bits) :=
  scan (visitForward key nowMs) (home (hash key)) t

/-- The body of the loop of `IndexReverse`: take a cell that is empty or points to a slot that is
not in use or expired. -/
def visitCell (slot : Slot bits) (nowMs : UInt32) (t : NatTable bits) (cell : Slot bits) :
    Visit (NatTable bits) (Slot bits) :=
  match t.rev cell with
  | none => .done { t with rev := Function.update t.rev cell (some slot) } (some cell)
  | some p =>
    if !(t.slots p).occupied || expired t.timeoutMs (t.slots p) nowMs then
      .done { t with rev := Function.update t.rev cell (some slot) } (some cell)
    else .next t

/-- `NatTable::IndexReverse`, which does nothing when no cell can be taken. -/
def indexReverse (t : NatTable bits) (slot : Slot bits) (nowMs : UInt32) : NatTable bits :=
  (scan (visitCell slot nowMs) (home (hash (t.slots slot).revKey)) t).1

/-- The end of the loop of `Insert`: overwrite the slot and index it. -/
def place (t : NatTable bits) (flow : NatFlow) (s : Slot bits) (size : ℕ) (nowMs : UInt32) :
    NatTable bits :=
  indexReverse hash
    { t with
      slots := Function.update t.slots s { flow with occupied := true, lastSeenMs := nowMs }
      size := size }
    s nowMs

/-- The body of the loop of `Insert`: take a slot that was never used or holds an expired entry,
whose port and backend are then reported. -/
def visitVictim (flow : NatFlow) (nowMs : UInt32) (t : NatTable bits) (s : Slot bits) :
    Visit (NatTable bits) (Slot bits × UInt16 × UInt8) :=
  let victim := t.slots s
  if !victim.occupied then
    .done (place hash t flow s (t.size + 1) nowMs) (some (s, 0, 0))
  else if expired t.timeoutMs victim nowMs then
    .done (place hash t flow s (if victim.reaped then t.size + 1 else t.size) nowMs)
      (some (s, victim.snatPort, victim.backendIdx))
  else .next t

/-- `NatTable::Insert`. Besides the slot, the port and the backend of an evicted entry are
returned, and zeros when nothing was evicted. -/
def insert (t : NatTable bits) (flow : NatFlow) (nowMs : UInt32) :
    NatTable bits × Option (Slot bits) × UInt16 × UInt8 :=
  let found := scan (visitVictim hash flow nowMs) (home (hash flow.fwdKey)) t
  match found.2 with
  | some (s, evictedPort, evictedIdx) => (found.1, some s, evictedPort, evictedIdx)
  | none => (found.1, none, 0, 0)

/-- The body of the loop of `LookupReverse`: stop at an empty cell, reap an expired entry, refresh
the entry with the reply tuple. -/
def visitReverse (backendIp : UInt32) (backendPort snatPort : UInt16) (proto : UInt8)
    (nowMs : UInt32) (t : NatTable bits) (cell : Slot bits) :
    Visit (NatTable bits) (Slot bits) :=
  match t.rev cell with
  | none => .done t none
  | some s =>
    let flow := t.slots s
    if flow.occupied && expired t.timeoutMs flow nowMs then .next (t.reap s)
    else if flow.occupied = true ∧ flow.backendIp = backendIp ∧ flow.backendPort = backendPort ∧
        flow.snatPort = snatPort ∧ flow.fwdKey.proto = proto then
      .done (t.touch s nowMs) (some s)
    else .next t

/-- `NatTable::LookupReverse`. -/
def lookupReverse (t : NatTable bits) (backendIp : UInt32) (backendPort snatPort : UInt16)
    (proto : UInt8) (nowMs : UInt32) : NatTable bits × Option (Slot bits) :=
  scan (visitReverse backendIp backendPort snatPort proto nowMs)
    (home (hash (replyKey backendIp backendPort snatPort proto))) t

end Operations

end NatTable

end Cerebellum
