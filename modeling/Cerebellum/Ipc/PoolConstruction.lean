import Cerebellum.Ipc.SharedSegment
import Cerebellum.Lib.CheckedLoop

/-!
# How a pool is built

`RunDataplane` and `RunControlLoop` hand an array of `kMaxBackends` entries to `ReadControl`, and
the array and the count that come back to `BuildPool`, whose loop fills two vectors; the constructor
of `BackendPool` then collects the slots whose flag is not zero. Here the two loops are translated
with their counters and with checked accesses, and the assertions of the class are errors.

The counter of the constructor's loop has eight bits. It ends only because the list has no more than
`kMaxBackends` entries, which is the bound `ReadControl` puts on the count.

## Main definitions

* `Cerebellum.PoolVectors`: the two vectors of a `BackendPool`.
* `Cerebellum.PoolVectors.construct?`, `Cerebellum.PoolVectors.buildPool?`: the constructor and
  `BuildPool`, access by access.
* `Cerebellum.seedControl`: the view after `SeedControl`.

## Main results

* `Cerebellum.PoolVectors.construct?_isSome_iff`: the constructor returns for up to 255 slots.
* `Cerebellum.PoolVectors.buildPool?_eq`: `BuildPool` makes the pool of the entries that were read.
* `Cerebellum.PoolVectors.exists_pool`: what `BuildPool` makes is always such a pool.
-/

open CheckedLoop

namespace Cerebellum

/-- The array `out` of `ReadControl` after it returned `content`. -/
def Snapshot.copiedTo (content : Snapshot) (out : List ControlBackend) : List ControlBackend :=
  content.1 ++ out.drop content.1.length

/-- What a slot keeps of an entry. -/
def ControlBackend.info (entry : ControlBackend) : BackendInfo where
  ip := entry.ip
  mac := entry.mac
  port := entry.port

/-- The two vectors of a `BackendPool`: the slots, and the numbers of the enabled ones. -/
structure PoolVectors where
  slots : List BackendInfo
  active : List UInt8
deriving DecidableEq

/-- The vectors of a pool. -/
def BackendPool.vectors (pool : BackendPool) : PoolVectors where
  slots := pool.slots
  active := pool.active

namespace PoolVectors

/-- The body of the loop of the constructor, with its counter of eight bits. -/
def collect (enabled : List UInt8) (s : UInt8 × List UInt8) : Option (UInt8 × List UInt8) := do
  let flag ← enabled[s.1.toNat]?
  some (s.1 + 1, if flag ≠ 0 then s.2 ++ [s.1] else s.2)

/-- The constructor of `BackendPool` from the slots and their enabled flags. -/
def construct? (rounds : ℕ) (slots : List BackendInfo) (enabled : List UInt8) :
    Option PoolVectors :=
  if enabled.length ≠ slots.length then none
  else (loop? (fun s => s.1.toNat < slots.length) (collect enabled) rounds (0, [])).map fun s =>
    ⟨slots, s.2⟩

/-- The state of the loop of `BuildPool`: its counter and the two vectors. -/
structure Filling where
  i : ℕ := 0
  slots : List BackendInfo := []
  enabled : List UInt8 := []

/-- The body of the loop of `BuildPool`. -/
def fill (src : List ControlBackend) (s : Filling) : Option Filling := do
  let entry ← src[s.i]?
  some ⟨s.i + 1, s.slots ++ [entry.info], s.enabled ++ [entry.enabled]⟩

/-- `BuildPool`. -/
def buildPool? (rounds : ℕ) (src : List ControlBackend) (count : ℕ) : Option PoolVectors := do
  let filled ← loop? (fun s => s.i < count) (fill src) rounds {}
  construct? rounds filled.slots filled.enabled

end PoolVectors

/-! ### The constructor -/

namespace PoolVectors

variable {rounds : ℕ} {slots : List BackendInfo} {enabled : List UInt8}

/-- The numbers below `n` whose flag is not zero. -/
def enabledBelow (enabled : List UInt8) (n : ℕ) : List UInt8 :=
  ((List.range n).filter fun i => enabled.getD i 0 ≠ 0).map UInt8.ofNat

theorem enabledBelow_succ (enabled : List UInt8) (i : UInt8) :
    enabledBelow enabled (i.toNat + 1) =
      if enabled.getD i.toNat 0 ≠ 0 then enabledBelow enabled i.toNat ++ [i]
      else enabledBelow enabled i.toNat := by
  rw [enabledBelow, List.range_succ, List.filter_append, List.map_append]
  split_ifs with hflag
  · rw [List.filter_cons_of_pos (by simpa using hflag), List.filter_nil, List.map_singleton,
      UInt8.ofNat_toNat]
    rfl
  · rw [List.filter_cons_of_neg (by simpa using hflag), List.filter_nil, List.map_nil,
      List.append_nil]
    rfl

/-- The counter goes up by one as long as it is below its largest value. -/
theorem toNat_add_one {i : UInt8} (h : i.toNat < 255) : (i + 1).toNat = i.toNat + 1 := by
  have hone : (1 : UInt8).toNat = 1 := rfl
  rw [UInt8.toNat_add, hone, Nat.mod_eq_of_lt (by omega)]

/-- The constructor for up to 255 slots: one round for each of them. -/
theorem construct?_eq (hlength : enabled.length = slots.length) (hmax : slots.length ≤ 255)
    (hrounds : slots.length < rounds) :
    construct? rounds slots enabled = some ⟨slots, enabledBelow enabled slots.length⟩ := by
  have hloop := loop?_spec (fun s : UInt8 × List UInt8 => s.1.toNat < slots.length)
    (collect enabled) (fun s => s.1.toNat ≤ slots.length ∧ s.2 = enabledBelow enabled s.1.toNat)
    (fun s => slots.length - s.1.toNat) ?_ (s := (0, [])) ⟨Nat.zero_le _, rfl⟩ hrounds
  · obtain ⟨⟨i, active⟩, hs, ⟨hle, hactive⟩, hcond⟩ := hloop
    have hge : ¬ i.toNat < slots.length := of_decide_eq_false hcond
    have hi : i.toNat = slots.length := Nat.le_antisymm hle (Nat.not_lt.mp hge)
    rw [construct?, if_neg (not_not.mpr hlength), hs, Option.map_some, hactive, hi]
  · rintro ⟨i, active⟩ ⟨-, hactive⟩ hcond
    have hi : i.toNat < slots.length := of_decide_eq_true hcond
    have hnext := toNat_add_one (show i.toNat < 255 by omega)
    have hflag : enabled[i.toNat]? = some (enabled.getD i.toNat 0) := by
      rw [List.getD_eq_getElem _ _ (hlength ▸ hi), List.getElem?_eq_getElem]
    refine ⟨_, by rw [collect, hflag]; rfl, ⟨?_, ?_⟩, ?_⟩
    · rw [hnext]
      exact hi
    · rw [hnext, enabledBelow_succ, ← hactive]
    · rw [hnext]
      exact Nat.sub_succ_lt_self _ _ hi

/-- The constructor returns if and only if there are at most 255 slots; from 256 on its counter is
below the number of slots for ever. -/
theorem construct?_isSome_iff (hlength : enabled.length = slots.length) :
    (∃ rounds v, construct? rounds slots enabled = some v) ↔ slots.length ≤ 255 := by
  constructor
  · rintro ⟨rounds, v, hv⟩
    by_contra hlong
    have hcond (s : UInt8 × List UInt8) : decide (s.1.toNat < slots.length) = true :=
      decide_eq_true (lt_of_lt_of_le s.1.toNat_lt (by omega))
    rw [construct?, if_neg (not_not.mpr hlength), loop?_eq_none hcond, Option.map_none] at hv
    exact Option.some_ne_none v hv.symm
  · intro hmax
    exact ⟨_, _, construct?_eq hlength hmax (Nat.lt_succ_self _)⟩

/-! ### BuildPool -/

/-- The loop of `BuildPool` copies the entries one by one. -/
theorem fill_eq {src : List ControlBackend} {i : ℕ} (hi : i < src.length) :
    fill src ⟨i, (src.take i).map ControlBackend.info, (src.take i).map ControlBackend.enabled⟩ =
      some ⟨i + 1, (src.take (i + 1)).map ControlBackend.info,
        (src.take (i + 1)).map ControlBackend.enabled⟩ := by
  rw [fill, List.getElem?_eq_getElem hi, List.take_succ_eq_append_getElem hi, List.map_append,
    List.map_append]
  rfl

theorem loop?_fill {src : List ControlBackend} {count : ℕ} (hcount : count ≤ src.length)
    (hrounds : count < rounds) :
    loop? (fun s => s.i < count) (fill src) rounds {} =
      some ⟨count, (src.take count).map ControlBackend.info,
        (src.take count).map ControlBackend.enabled⟩ := by
  have hloop := loop?_spec (fun s : Filling => s.i < count) (fill src)
    (fun s => s.i ≤ count ∧ s = ⟨s.i, (src.take s.i).map ControlBackend.info,
      (src.take s.i).map ControlBackend.enabled⟩)
    (fun s => count - s.i) ?_ (s := {}) ⟨Nat.zero_le _, rfl⟩ hrounds
  · obtain ⟨s, hs, ⟨hle, hsteps⟩, hcond⟩ := hloop
    have hge : ¬ s.i < count := of_decide_eq_false hcond
    have hi : s.i = count := by omega
    rw [hs, hsteps, hi]
  · rintro s ⟨-, hsteps⟩ hcond
    have hi : s.i < count := of_decide_eq_true hcond
    refine ⟨_, by rw [hsteps, fill_eq (by omega)], ⟨Nat.succ_le_of_lt hi, rfl⟩, ?_⟩
    exact Nat.sub_succ_lt_self _ _ hi

/-- `BuildPool` makes the pool of the entries that `ReadControl` returned, whatever is behind them
in the array. -/
theorem buildPool?_eq (content : Snapshot) (out : List ControlBackend)
    (hrounds : content.1.length < rounds) :
    buildPool? rounds (content.copiedTo out) content.1.length =
      some (buildPool content).vectors := by
  have hcount : content.1.length ≤ (content.copiedTo out).length := by
    rw [Snapshot.copiedTo, List.length_append]
    exact Nat.le_add_right _ _
  have htake : (content.copiedTo out).take content.1.length = content.1 := List.take_left
  have hmax := content.2
  rw [buildPool?, loop?_fill hcount hrounds, htake]
  change construct? rounds (content.1.map _) (content.1.map _) = _
  rw [construct?_eq (by rw [List.length_map, List.length_map])
    (by rw [List.length_map]; unfold kMaxBackends at hmax; omega)
    (by rw [List.length_map]; exact hrounds)]
  rfl

theorem construct?_unique {rounds' : ℕ} {v v' : PoolVectors}
    (h : construct? rounds slots enabled = some v)
    (h' : construct? rounds' slots enabled = some v') : v = v' := by
  unfold construct? at h h'
  split_ifs at h h'
  obtain ⟨s, hs, rfl⟩ := Option.map_eq_some_iff.mp h
  obtain ⟨s', hs', rfl⟩ := Option.map_eq_some_iff.mp h'
  rw [loop?_unique hs hs']

theorem buildPool?_unique {rounds' count : ℕ} {src : List ControlBackend} {v v' : PoolVectors}
    (h : buildPool? rounds src count = some v) (h' : buildPool? rounds' src count = some v') :
    v = v' := by
  obtain ⟨s, hs, hv⟩ := Option.bind_eq_some_iff.mp h
  obtain ⟨s', hs', hv'⟩ := Option.bind_eq_some_iff.mp h'
  obtain rfl := loop?_unique hs hs'
  exact construct?_unique hv hv'

/-- The vectors are what `BuildPool` makes of an array that `ReadControl` has filled. -/
def Built (v : PoolVectors) : Prop :=
  ∃ (content : Snapshot) (out : List ControlBackend) (rounds : ℕ),
    buildPool? rounds (content.copiedTo out) content.1.length = some v

/-- What `BuildPool` makes is the pool of a list of entries. -/
theorem Built.exists_pool {v : PoolVectors} (h : v.Built) :
    ∃ pool : BackendPool, pool.vectors = v := by
  obtain ⟨content, out, rounds, hv⟩ := h
  exact ⟨buildPool content,
    buildPool?_unique (buildPool?_eq content out (Nat.lt_succ_self _)) hv⟩

end PoolVectors

/-! ### From the view to the pool -/

/-- `ReadControl` and `BuildPool` make the pool `v` of what is in the view: `ReadControl` returns
the content after finitely many steps, and `BuildPool` needs one round for each entry, whatever was
in the array before. The pool has a slot for each entry, and lists the slots whose entry has an
enabled flag that is not zero, once each and in increasing order. -/
structure MakesPool (view : ControlView) (v : PoolVectors) : Prop where
  returns : ∃ m, (Segment.readAlone view m).returned = [(view.seq, view.content)]
  builds : ∀ (out : List ControlBackend) (rounds : ℕ), min view.count kMaxBackends < rounds →
    PoolVectors.buildPool? rounds (view.content.copiedTo out) (min view.count kMaxBackends) = some v
  slots : v.slots = (List.range (min view.count kMaxBackends)).map fun i => (view.backends i).info
  length_slots_le : v.slots.length ≤ kMaxBackends
  mem_active : ∀ idx : UInt8, idx ∈ v.active ↔
    idx.toNat < min view.count kMaxBackends ∧ (view.backends idx.toNat).enabled ≠ 0
  increasing : v.active.Pairwise (· < ·)

theorem ControlView.length_content (view : ControlView) :
    view.content.1.length = min view.count kMaxBackends := by
  rw [ControlView.content, List.length_map, List.length_range]

/-- The pool of any view whose sequence number is even. -/
theorem makesPool {view : ControlView} (heven : view.seq &&& 1 = 0) :
    MakesPool view (buildPool view.content).vectors where
  returns := Segment.exists_returned heven
  builds out rounds hrounds := by
    rw [← view.length_content] at hrounds ⊢
    exact PoolVectors.buildPool?_eq view.content out hrounds
  slots := List.map_map
  length_slots_le := (buildPool view.content).length_slots_le
  mem_active idx := by
    have henabled : (buildPool view.content).enabled =
        (List.range (min view.count kMaxBackends)).map fun i => (view.backends i).enabled :=
      List.map_map
    have hlength : (buildPool view.content).slots.length = min view.count kMaxBackends := by
      rw [buildPool, List.length_map, view.length_content]
    change idx ∈ (buildPool view.content).active ↔ _
    rw [BackendPool.mem_active, henabled, hlength]
    refine and_congr_right fun hlt => ?_
    rw [List.getD_eq_getElem?_getD, List.getElem?_map, List.getElem?_range hlt]
    rfl
  increasing := BackendPool.pairwise_active _

/-- The view after `SeedControl`, which publishes the configured backends, all of them enabled, with
their number as an unsigned integer of 32 bits. -/
def seedControl (view : ControlView) (backends : List BackendInfo) : ControlView :=
  let entries := (controlEntries backends fun _ => 1).take (backends.length % 2 ^ 32)
  (Segment.publishSteps entries (Segment.publishLength entries) (view, .idle)).1

/-- `SeedControl` leaves an even sequence number even. -/
theorem seedControl_even {view : ControlView} (heven : view.seq &&& 1 = 0)
    (backends : List BackendInfo) : (seedControl view backends).seq &&& 1 = 0 := by
  rw [seedControl, (Segment.publishSteps_spec _ _).2.1]
  exact Segment.add_two_and_one.mpr heven

/-- The pool of a configuration has the first of its backends as slots. -/
theorem slots_seedControl (view : ControlView) (backends : List BackendInfo) :
    (buildPool (seedControl view backends).content).slots =
      backends.take (min kMaxBackends (backends.length % 2 ^ 32)) := by
  have hcontent : (seedControl view backends).content.1 = (controlEntries backends fun _ => 1).take
      (min kMaxBackends (backends.length % 2 ^ 32)) := by
    rw [seedControl, (Segment.publishSteps_spec _ _).2.2]
    exact List.take_take
  exact slots_buildPool_of_take hcontent

end Cerebellum
