import Cerebellum.Nodes.Drain

/-!
# Idle times beyond the range of the clock

`NowMs` is a 32-bit number of milliseconds, and an entry is expired if the 32-bit difference to its
`last_seen_ms` exceeds the timeout. Here the time is a natural number, and every packet is handled
with its residue. A flow hit within the timeout is never taken for expired, however often the
residue wraps; but nothing reaps an entry that no scan passes over, and when such an entry has been
idle for `2 ^ 32` milliseconds, or up to a timeout longer, the difference is small again and the
lookups return it.

## Main definitions

* `Cerebellum.TimedArrival`: a packet with the time it comes at.
* `Cerebellum.LbNode.hitSlot`: the slot of the flow that a packet hits or creates.
* `Cerebellum.LbNode.timedRun`: a run, together with the time of the last hit of each slot.
* `Cerebellum.LbNode.StaysDead`: the lookups return only flows that were hit within the timeout.

## Main results

* `Cerebellum.LbNode.staysDead_iff_no_wrapped_idle`: when the lookups do.
* `Cerebellum.LbNode.wrapped_idle_flow_revives`: a flow that is returned after `2 ^ 32`
  milliseconds.
-/

namespace Cerebellum

open NatTable

/-- A packet that reaches the node at a time, with the backend pool of its burst. -/
structure TimedArrival where
  time : ℕ
  pool : Option BackendPool
  packet : PacketMeta

/-- The arrival as the node sees it. -/
def TimedArrival.arrival (b : TimedArrival) : Arrival where
  pool := b.pool
  nowMs := UInt32.ofNat b.time
  packet := b.packet

namespace LbNode

variable {bits : ℕ} (hash : FlowKey → UInt32)

/-- The slot of the flow that the packet hits or creates. -/
def hitSlot (n : LbNode bits) (a : Arrival) : Option (Slot bits) :=
  a.usable.bind fun pool =>
    if a.packet.dir = .forward then
      let (nat, found) := n.nat.lookupForward hash a.packet.flowKey a.nowMs
      found.or (if a.packet.proto = kProtoTcp && !a.packet.has kTcpSyn then none
        else (createFlow hash { n with nat := nat } a.packet pool a.nowMs).2)
    else (n.nat.lookupReverse hash a.packet.srcIp a.packet.srcPort a.packet.dstPort a.packet.proto
      a.nowMs).2

/-- A run, together with the time at which each slot was last hit. -/
def timedRun (n : LbNode bits) (bs : List TimedArrival) : LbNode bits × (Slot bits → ℕ) :=
  bs.foldl (fun r b =>
    ((arrive hash r.1 b.arrival).1,
      (hitSlot hash r.1 b.arrival).elim r.2 fun s => Function.update r.2 s b.time))
    (n, fun _ => 0)

/-- Whatever is looked up at time `t`, in either direction, the flow that is returned was last hit
at most a timeout ago. -/
def StaysDead (n : LbNode bits) (lastHit : Slot bits → ℕ) (t : ℕ) : Prop :=
  (∀ key s, (n.nat.lookupForward hash key (UInt32.ofNat t)).2 = some s →
      t - lastHit s ≤ n.nat.timeoutMs.toNat) ∧
    ∀ ip port snatPort proto s,
      (n.nat.lookupReverse hash ip port snatPort proto (UInt32.ofNat t)).2 = some s →
        t - lastHit s ≤ n.nat.timeoutMs.toNat

/-- Slot `s` holds an entry that is not reaped and has been idle for some multiple of `2 ^ 32`
milliseconds, or up to a timeout longer. -/
def WrappedIdle (n : LbNode bits) (lastHit : Slot bits → ℕ) (t : ℕ) (s : Slot bits) : Prop :=
  (n.nat.slots s).Unreaped ∧ ∃ k > 0, k * 2 ^ 32 ≤ t - lastHit s ∧
    t - lastHit s ≤ k * 2 ^ 32 + n.nat.timeoutMs.toNat

/-! ### What a packet hits -/

variable {hash}

/-- The packet leaves the other slots as a number of reaps would, and refreshes the slot that it
hits. -/
structure Hits (n : LbNode bits) (a : Arrival) (s : Slot bits) (n' : LbNode bits) : Prop where
  others : ∃ t, Reaps a.nowMs n.nat t ∧ ∀ c ≠ s, n'.nat.slots c = t.slots c
  unreaped : (n'.nat.slots s).Unreaped
  lastSeenMs : (n'.nat.slots s).lastSeenMs = a.nowMs

theorem hits_touch {n : LbNode bits} {a : Arrival} {t : NatTable bits} {s : Slot bits}
    (hreaps : Reaps a.nowMs n.nat t) (hlive : (t.slots s).Live t.timeoutMs a.nowMs) :
    Hits n a s { n with nat := t.touch s a.nowMs } where
  others := ⟨t, hreaps, fun c hc => by rw [touch_slots, Function.update_of_ne hc]⟩
  unreaped := (live_touch hlive).1
  lastSeenMs := by rw [touch_slots, Function.update_self]

/-- What a packet does to the slots, when `hit` is the slot that it hits. -/
def StampsAt (n : LbNode bits) (a : Arrival) (hit : Option (Slot bits)) (n' : LbNode bits) :
    Prop :=
  ∃ t, Reaps a.nowMs n.nat t ∧ ∀ c,
    if hit = some c then (n'.nat.slots c).lastSeenMs = a.nowMs
    else n'.nat.slots c = t.slots c

theorem Hits.stampsAt {n n' : LbNode bits} {a : Arrival} {s : Slot bits} (h : Hits n a s n') :
    StampsAt n a (some s) (n'.maybeTeardown s a.packet) := by
  have hwrites := writesAt_maybeTeardown h.unreaped a.packet
  obtain ⟨t, hreaps, hslots⟩ := h.others
  refine ⟨t, hreaps, fun c => ?_⟩
  split_ifs with hc
  · rw [← Option.some.inj hc]
    exact hwrites.lastSeenMs.trans h.lastSeenMs
  · have hne : c ≠ s := fun hcs => hc (hcs ▸ rfl)
    exact (hwrites.slots c hne).trans (hslots c hne)

theorem stampsAt_none {n : LbNode bits} {a : Arrival} {t : NatTable bits}
    (hreaps : Reaps a.nowMs n.nat t) : StampsAt n a none { n with nat := t } :=
  ⟨t, hreaps, fun c => by rw [if_neg (Option.some_ne_none c).symm]⟩

/-- A packet stamps the slot that it hits, and no other. -/
theorem arrive_stampsAt (hash : FlowKey → UInt32) (n : LbNode bits) (a : Arrival) :
    StampsAt n a (hitSlot hash n a) (arrive hash n a).1 := by
  cases husable : a.usable with
  | none =>
    rw [arrive_of_not_usable hash n husable, hitSlot, husable]
    exact stampsAt_none (.refl _)
  | some pool =>
    rw [arrive_of_usable hash n husable, hitSlot, husable, Option.bind_some]
    cases hdir : a.packet.dir with
    | forward =>
      obtain ⟨t, hreaps, ⟨s, hfound, hlive, -⟩ | ⟨hfound, habs⟩⟩ :=
        lookupForward_spec hash n.nat a.packet.flowKey a.nowMs
      · simp only [handlePacket, hdir, hfound, if_true, Option.some_or]
        exact (hits_touch hreaps hlive).stampsAt
      · simp only [handlePacket, hdir, hfound, if_true, Option.none_or]
        split_ifs with hgate
        · exact stampsAt_none hreaps
        · rcases createFlow_spec hash { n with nat := t } a.packet pool a.nowMs habs with
            ⟨s, hopens, hcreate⟩ | ⟨-, hcreate⟩
          · rw [hcreate]
            refine Hits.stampsAt ⟨⟨t, hreaps, fun c hc => ?_⟩, (live_openAt _ _ _ _).1, ?_⟩
            · rw [openAt_slots, Function.update_of_ne hc]
            · rw [openAt_slots, Function.update_self]
          · rw [hcreate]
            exact stampsAt_none hreaps
    | reverse =>
      obtain ⟨t, hreaps, ⟨i, -, s, hfound, -, hans, -⟩ | ⟨hfound, -⟩⟩ :=
        lookupReverse_spec hash n.nat a.packet.srcIp a.packet.srcPort a.packet.dstPort
          a.packet.proto a.nowMs
      · simp only [handlePacket, hdir, hfound, reduceCtorEq, if_false]
        exact (hits_touch hreaps ((hreaps.live_iff s).mpr hans.1)).stampsAt
      · simp only [handlePacket, hdir, hfound, reduceCtorEq, if_false]
        exact stampsAt_none hreaps

/-! ### The time of the last hit -/

/-- Every entry that is not reaped carries the residue of the time of its last hit, which is not
later than `t`. -/
def Stamped (n : LbNode bits) (lastHit : Slot bits → ℕ) (t : ℕ) : Prop :=
  ∀ s, (n.nat.slots s).Unreaped →
    (n.nat.slots s).lastSeenMs = UInt32.ofNat (lastHit s) ∧ lastHit s ≤ t

theorem Stamped.arrive {n : LbNode bits} {lastHit : Slot bits → ℕ} {t : ℕ} (h : Stamped n lastHit t)
    {b : TimedArrival} (hle : t ≤ b.time) :
    Stamped (LbNode.arrive hash n b.arrival).1
      ((hitSlot hash n b.arrival).elim lastHit fun s => Function.update lastHit s b.time)
      b.time := by
  obtain ⟨t', hreaps, hslots⟩ := arrive_stampsAt hash n b.arrival
  intro c hc
  have hslot := hslots c
  have hother (heq : (LbNode.arrive hash n b.arrival).1.nat.slots c = t'.slots c) :
      ((LbNode.arrive hash n b.arrival).1.nat.slots c).lastSeenMs = UInt32.ofNat (lastHit c) ∧
        lastHit c ≤ b.time := by
    rw [heq] at hc ⊢
    have hsame := hreaps.slots_eq_of_unreaped hc
    rw [hsame] at hc ⊢
    exact ⟨(h c hc).1, (h c hc).2.trans hle⟩
  cases hhit : hitSlot hash n b.arrival with
  | none =>
    rw [hhit, if_neg (Option.some_ne_none c).symm] at hslot
    exact hother hslot
  | some s =>
    rcases eq_or_ne c s with rfl | hne
    · rw [hhit, if_pos rfl] at hslot
      rw [Option.elim_some, Function.update_self]
      exact ⟨hslot, le_rfl⟩
    · rw [hhit, if_neg fun hcs => hne (Option.some.inj hcs).symm] at hslot
      rw [Option.elim_some, Function.update_of_ne hne]
      exact hother hslot

theorem timedRun_concat (hash : FlowKey → UInt32) (n : LbNode bits) (bs : List TimedArrival)
    (b : TimedArrival) :
    timedRun hash n (bs ++ [b]) = ((LbNode.arrive hash (timedRun hash n bs).1 b.arrival).1,
      (hitSlot hash (timedRun hash n bs).1 b.arrival).elim (timedRun hash n bs).2
        fun s => Function.update (timedRun hash n bs).2 s b.time) := by
  rw [timedRun, List.foldl_append]
  rfl

/-- The state of a timed run is that of the run. -/
theorem timedRun_fst (hash : FlowKey → UInt32) (n : LbNode bits) (bs : List TimedArrival) :
    (timedRun hash n bs).1 = run hash n (bs.map TimedArrival.arrival) := by
  induction bs using List.reverseRecOn with
  | nil => rfl
  | append_singleton bs b ih =>
    rw [timedRun_concat, List.map_append, run_append, ← ih]
    rfl

/-- Entries are stamped in every run whose clock does not go back. -/
theorem stamped_timedRun (hash : FlowKey → UInt32) (bits : ℕ) (timeoutMs : UInt32)
    (workerId nWorkers : UInt16) {bs : List TimedArrival}
    (hclock : bs.Pairwise fun b b' => b.time ≤ b'.time) {t : ℕ} (ht : ∀ b ∈ bs, b.time ≤ t) :
    Stamped (timedRun hash (init bits timeoutMs workerId nWorkers) bs).1
      (timedRun hash (init bits timeoutMs workerId nWorkers) bs).2 t := by
  induction bs using List.reverseRecOn generalizing t with
  | nil => exact fun s hs => Bool.noConfusion hs.1
  | append_singleton bs b ih =>
    obtain ⟨hbefore, -, hlast⟩ := List.pairwise_append.mp hclock
    have hb := ih hbefore fun c hc => hlast c hc b (List.mem_singleton_self b)
    rw [timedRun_concat]
    intro s hs
    obtain ⟨hseen, hle⟩ := hb.arrive le_rfl s hs
    exact ⟨hseen, hle.trans (ht b (List.mem_append_right bs (List.mem_singleton_self b)))⟩

/-- The node sees the idle time modulo `2 ^ 32`. -/
theorem toNat_ofNat_sub_ofNat {last t : ℕ} (h : last ≤ t) :
    (UInt32.ofNat t - UInt32.ofNat last).toNat = (t - last) % 2 ^ 32 := by
  rw [UInt32.toNat_sub, UInt32.toNat_ofNat', UInt32.toNat_ofNat']
  omega

/-- An entry that is not reaped is live when its idle time modulo `2 ^ 32` is within the timeout. -/
theorem Stamped.live_iff {n : LbNode bits} {lastHit : Slot bits → ℕ} {t : ℕ}
    (h : Stamped n lastHit t) {s : Slot bits} (hun : (n.nat.slots s).Unreaped) :
    (n.nat.slots s).Live n.nat.timeoutMs (UInt32.ofNat t) ↔
      (t - lastHit s) % 2 ^ 32 ≤ n.nat.timeoutMs.toNat := by
  obtain ⟨hseen, hle⟩ := h s hun
  rw [NatFlow.Live, hseen, UInt32.le_iff_toNat_le, toNat_ofNat_sub_ofNat hle]
  exact and_iff_right hun

/-- The lookups return live entries, and the forward lookup of its own key returns each of them. -/
theorem staysDead_iff_live {n : LbNode bits} (hmap : ForwardMap hash n.nat)
    (lastHit : Slot bits → ℕ) (t : ℕ) :
    StaysDead hash n lastHit t ↔ ∀ s, (n.nat.slots s).Live n.nat.timeoutMs (UInt32.ofNat t) →
      t - lastHit s ≤ n.nat.timeoutMs.toNat := by
  constructor
  · intro h s hlive
    exact h.1 _ s (hmap.lookupForward_of_live hlive rfl).1
  · refine fun h => ⟨fun key s hs => h s (live_of_lookupForward_eq_some hs).1, ?_⟩
    intro ip port snatPort proto s hs
    obtain ⟨t₁, -, ⟨i, -, c, hfound, -, hans, -⟩ | ⟨hfound, -⟩⟩ :=
      lookupReverse_spec hash n.nat ip port snatPort proto (UInt32.ofNat t)
    · rw [hfound] at hs
      obtain rfl := Option.some.inj hs
      exact h c hans.1
    · rw [hfound] at hs
      exact absurd hs.symm (Option.some_ne_none s)

/-- A clock that counts milliseconds without bound. In every run whose clock does not go back, and
at every time from its end on, the lookups return only flows that were last hit at most a timeout
ago if and only if no entry left in the table has been idle for a multiple of `2 ^ 32` milliseconds
or up to a timeout longer. An entry that was hit at most a timeout ago is never taken for expired.
-/
theorem staysDead_iff_no_wrapped_idle (hash : FlowKey → UInt32) (bits : ℕ) (timeoutMs : UInt32)
    (workerId nWorkers : UInt16) (bs : List TimedArrival)
    (hclock : bs.Pairwise fun b b' => b.time ≤ b'.time) (t : ℕ) (ht : ∀ b ∈ bs, b.time ≤ t) :
    let n := (timedRun hash (init bits timeoutMs workerId nWorkers) bs).1
    let lastHit := (timedRun hash (init bits timeoutMs workerId nWorkers) bs).2
    (StaysDead hash n lastHit t ↔ ∀ s, ¬ n.WrappedIdle lastHit t s) ∧
      ∀ s, (n.nat.slots s).Unreaped → t - lastHit s ≤ n.nat.timeoutMs.toNat →
        expired n.nat.timeoutMs (n.nat.slots s) (UInt32.ofNat t) = false := by
  intro n lastHit
  have hmap : ForwardMap hash n.nat := by
    rw [show n = _ from timedRun_fst ..]
    exact forwardMap_run ..
  have hstamped : Stamped n lastHit t :=
    stamped_timedRun hash bits timeoutMs workerId nWorkers hclock ht
  have hrange := n.nat.timeoutMs.toNat_lt
  refine ⟨(staysDead_iff_live hmap lastHit t).trans ⟨fun h s => ?_, fun h s hlive => ?_⟩,
    fun s hun hidle => ?_⟩
  · rintro ⟨hun, k, hk, hlow, hhigh⟩
    have hidle := h s ((hstamped.live_iff hun).mpr (by omega))
    omega
  · have hmod := (hstamped.live_iff hlive.1).mp hlive
    by_contra hidle
    refine h s ⟨hlive.1, (t - lastHit s) / 2 ^ 32, ?_, ?_, ?_⟩ <;> omega
  · refine expired_eq_false_of_live ((hstamped.live_iff hun).mpr ?_)
    exact (Nat.mod_le _ _).trans hidle

/-- The first SYN of a connection, at time `0`. -/
def synAtZero (backend : BackendInfo) : TimedArrival :=
  ⟨0, some (.single backend), tcpSegment 40000 kTcpSyn⟩

/-- After the first SYN of a connection its entry is in the table, last hit at time `0`. -/
theorem exists_synAtZero (hash : FlowKey → UInt32) (bits : ℕ) (timeoutMs : UInt32)
    (backend : BackendInfo) :
    ∃ s port, (timedRun hash (init bits timeoutMs 0 1) [synAtZero backend]).1.nat.slots s =
        synFlow backend port ∧
      (timedRun hash (init bits timeoutMs 0 1) [synAtZero backend]).2 s = 0 := by
  obtain ⟨s, hslot, -⟩ := exists_synFlow hash bits timeoutMs backend
  have hfst := timedRun_fst hash (init bits timeoutMs 0 1) [synAtZero backend]
  have hslot' : (timedRun hash (init bits timeoutMs 0 1) [synAtZero backend]).1.nat.slots s =
      synFlow backend 1024 := by
    rw [hfst]
    exact hslot
  refine ⟨s, 1024, hslot', ?_⟩
  have hle := (stamped_timedRun hash bits timeoutMs 0 1
    (List.pairwise_singleton _ (synAtZero backend)) (t := 0) (fun b hb => ?_) s
    (hslot' ▸ ⟨rfl, rfl⟩)).2
  · exact Nat.le_zero.mp hle
  · rw [List.mem_singleton.mp hb]
    exact le_rfl

/-- One millisecond later the lookups return only flows that were hit within the timeout. -/
theorem staysDead_next_millisecond :
    let backend : BackendInfo := { ip := 0x0A000202, port := 8080 }
    let hash := FlowKey.hash .sse42
    StaysDead hash (timedRun hash (init 20 30000 0 1) [synAtZero backend]).1
      (timedRun hash (init 20 30000 0 1) [synAtZero backend]).2 1 := by
  intro backend hash
  refine (staysDead_iff_no_wrapped_idle hash 20 30000 0 1 [synAtZero backend]
    (List.pairwise_singleton _ _) 1 fun b hb => ?_).1.mpr ?_
  · rw [List.mem_singleton.mp hb]
    exact Nat.zero_le 1
  · rintro s ⟨-, k, hk, hlow, -⟩
    omega

/-- After `2 ^ 32` milliseconds a forward lookup returns a flow that was last hit at time `0`. -/
theorem lookupForward_after_wrap (hash : FlowKey → UInt32) (bits : ℕ) (timeoutMs : UInt32)
    (backend : BackendInfo) :
    ∃ s, ((timedRun hash (init bits timeoutMs 0 1) [synAtZero backend]).1.nat.lookupForward hash
        (tcpSegment 40000 kTcpSyn).flowKey (UInt32.ofNat (2 ^ 32))).2 = some s ∧
      (timedRun hash (init bits timeoutMs 0 1) [synAtZero backend]).2 s = 0 := by
  obtain ⟨s, port, hslot, hlast⟩ := exists_synAtZero hash bits timeoutMs backend
  have hmap : ForwardMap hash
      (timedRun hash (init bits timeoutMs 0 1) [synAtZero backend]).1.nat := by
    rw [timedRun_fst]
    exact forwardMap_run ..
  refine ⟨s, (hmap.lookupForward_of_live ?_ ?_).1, hlast⟩
  · rw [hslot]
    exact live_of_lastSeen_eq ⟨rfl, rfl⟩ (show 0 = UInt32.ofNat (2 ^ 32) by decide)
  · rw [hslot]
    rfl

/-- A flow that has been idle for `2 ^ 32` milliseconds, with a timeout of half a minute, is
returned again. -/
theorem wrapped_idle_flow_revives :
    let backend : BackendInfo := { ip := 0x0A000202, port := 8080 }
    let hash := FlowKey.hash .sse42
    ∃ s, ((timedRun hash (init 20 30000 0 1) [synAtZero backend]).1.nat.lookupForward hash
        (tcpSegment 40000 kTcpSyn).flowKey (UInt32.ofNat (2 ^ 32))).2 = some s ∧
      30000 < 2 ^ 32 - (timedRun hash (init 20 30000 0 1) [synAtZero backend]).2 s := by
  intro backend hash
  obtain ⟨s, hfound, hlast⟩ := lookupForward_after_wrap hash 20 30000 backend
  refine ⟨s, hfound, ?_⟩
  rw [hlast]
  decide

end LbNode

end Cerebellum
