import Cerebellum.Lb.BackendPool
import Mathlib.Algebra.BigOperators.Group.List.Basic
import Mathlib.Algebra.Order.BigOperators.Group.List
import Mathlib.Algebra.Order.Group.Nat
import Mathlib.Algebra.Ring.Nat
import Mathlib.Logic.Function.Basic

/-!
# The statistics aggregator

`StatsAggregator::Tick` (`stats/stats_aggregator.cpp`) adds up the statistics of all lcores and
reports, for four counters, by how much the total has grown since the last tick. The data plane
keeps adding to the counters while `Tick` loads them one after the other. A run is any list of
additions and of steps of `Tick`, each of which is one load; an addition that would carry a counter
to `2 ^ 64` is not a move.

The totals that the aggregator keeps are those of its own loads, and start as zero. So the rates of
the first `n` ticks add up to the total that the last of them has read, and not to what was counted
since the aggregator was created: the first tick reports everything that was counted before.

## Main definitions

* `Cerebellum.StatsAggregator.Tick`, `Cerebellum.StatsAggregator.step`: the model.
* `Cerebellum.StatsAggregator.AddsUp`: the rates account for what was counted since the start.
* `Cerebellum.StatsAggregator.Chained`, `Cerebellum.StatsAggregator.Tracks`: the invariants.

## Main results

* `Cerebellum.StatsAggregator.Tracks.run`: what a tick reads is between what the last one has read
  and what the counters show.
* `Cerebellum.StatsAggregator.rates_add_up_iff`: the rates add up if the counters start at zero.
* `Cerebellum.StatsAggregator.first_tick_reports_the_past`: and else they do not.
-/

namespace Cerebellum

/-- `ipc::kMaxLcores`. -/
def kMaxLcores : ℕ := 32

namespace StatsAggregator

/-! ### The model -/

/-- The counters that `Tick` forms rates of: `rx_packets`, `tx_packets`, `dropped` and `new_flows`.
-/
inductive Counter
  | rx
  | tx
  | dropped
  | newFlows
deriving DecidableEq

/-- The fields of `ipc::LcoreStats`. -/
inductive Field
  | counter (c : Counter)
  | activeFlows
  | backendFlows (backend : ℕ)
deriving DecidableEq

/-- `StatsAggregator::Snapshot`. -/
structure Snapshot where
  rx : UInt64 := 0
  tx : UInt64 := 0
  dropped : UInt64 := 0
  newFlows : UInt64 := 0

/-- `AggregatedStats`. -/
structure AggregatedStats where
  rxPps : UInt64 := 0
  txPps : UInt64 := 0
  droppedPps : UInt64 := 0
  newFlowsPs : UInt64 := 0
  activeFlows : UInt64 := 0
  backendFlows : ℕ → UInt64 := fun _ => 0

/-- The total of a counter. -/
def Snapshot.get (s : Snapshot) : Counter → UInt64
  | .rx => s.rx
  | .tx => s.tx
  | .dropped => s.dropped
  | .newFlows => s.newFlows

/-- The rate of a counter. -/
def AggregatedStats.rate (out : AggregatedStats) : Counter → UInt64
  | .rx => out.rxPps
  | .tx => out.txPps
  | .dropped => out.droppedPps
  | .newFlows => out.newFlowsPs

/-- The fields of one lcore in the order in which the loop body of `Tick` loads them. -/
def fields : List Field :=
  [.counter .rx, .counter .tx, .counter .dropped, .counter .newFlows, .activeFlows] ++
    (List.range kMaxBackends).map .backendFlows

/-- The loads of `Tick`. -/
def loads (nLcores : ℕ) : List (ℕ × Field) :=
  (List.range nLcores).flatMap fun lcore => fields.map fun field => (lcore, field)

/-- A call of `Tick` that is under way: the loads that it has still to make, its local variables,
and what the values that it has loaded add up to. -/
structure Tick where
  pending : List (ℕ × Field)
  current : Snapshot := {}
  out : AggregatedStats := {}
  read : Counter → ℕ := fun _ => 0

/-- The addition of a value that was loaded. -/
def Tick.add (t : Tick) : Field → UInt64 → Tick
  | .counter c, v =>
    let current :=
      match c with
      | .rx => { t.current with rx := t.current.rx + v }
      | .tx => { t.current with tx := t.current.tx + v }
      | .dropped => { t.current with dropped := t.current.dropped + v }
      | .newFlows => { t.current with newFlows := t.current.newFlows + v }
    { t with current := current, read := Function.update t.read c (t.read c + v.toNat) }
  | .activeFlows, v => { t with out := { t.out with activeFlows := t.out.activeFlows + v } }
  | .backendFlows b, v =>
    let backendFlows := Function.update t.out.backendFlows b (t.out.backendFlows b + v)
    { t with out := { t.out with backendFlows := backendFlows } }

/-- The last part of `Tick`: the growth since the last call, with unsigned subtractions. -/
def Tick.report (t : Tick) (prev : Snapshot) : AggregatedStats :=
  { t.out with
    rxPps := t.current.rx - prev.rx
    txPps := t.current.tx - prev.tx
    droppedPps := t.current.dropped - prev.dropped
    newFlowsPs := t.current.newFlows - prev.newFlows }

/-- What is recorded of a call of `Tick`: the totals it compared, its result, and what the values
that it has loaded add up to. -/
structure Record where
  prev : Snapshot
  current : Snapshot
  out : AggregatedStats
  read : Counter → ℕ

/-- The statistics of the lcores, `prev_`, the call of `Tick` that is under way, and the calls so
far. -/
structure State where
  lcores : ℕ → Field → UInt64
  prev : Snapshot := {}
  tick : Option Tick := none
  ticks : List Record := []

/-- The data plane adds to a counter or stores another field, or `Tick` makes its next step. -/
inductive Move
  | add (lcore : ℕ) (c : Counter) (k : UInt64)
  | store (lcore : ℕ) (field : Field) (v : UInt64)
  | tick

/-- A store of one field of one lcore. -/
def State.set (s : State) (lcore : ℕ) (field : Field) (v : UInt64) : State :=
  { s with
    lcores := Function.update s.lcores lcore (Function.update (s.lcores lcore) field v) }

/-- One move. -/
def step (nLcores : ℕ) (s : State) : Move → Option State
  | .add lcore c k =>
    if (s.lcores lcore (.counter c)).toNat + k.toNat < 2 ^ 64 then
      some (s.set lcore (.counter c) (s.lcores lcore (.counter c) + k))
    else none
  | .store _ (.counter _) _ => none
  | .store lcore field v => some (s.set lcore field v)
  | .tick =>
    match s.tick with
    | none => some { s with tick := some { pending := loads nLcores } }
    | some t =>
      match t.pending with
      | (lcore, field) :: rest =>
        some { s with tick := some ({ t with pending := rest }.add field (s.lcores lcore field)) }
      | [] =>
        some { s with
          prev := t.current
          tick := none
          ticks := s.ticks ++ [⟨s.prev, t.current, t.report s.prev, t.read⟩] }

/-- A run. -/
def run (nLcores : ℕ) (s : State) (moves : List Move) : Option State :=
  moves.foldlM (step nLcores) s

/-- The total of a counter over all lcores. -/
def total (nLcores : ℕ) (lcores : ℕ → Field → UInt64) (c : Counter) : ℕ :=
  ((List.range nLcores).map fun lcore => (lcores lcore (.counter c)).toNat).sum

/-- No subtraction has wrapped around, and after each tick the rates so far add up to the total that
the tick has read, less the total at the start. -/
def AddsUp (start : ℕ) (ticks : List Record) (c : Counter) : Prop :=
  (∀ t ∈ ticks, t.prev.get c ≤ t.current.get c) ∧
    ∀ before t, before ++ [t] <+: ticks →
      ((before ++ [t]).map fun t => (t.out.rate c).toNat).sum + start = t.read c

/-! ### Sums of what was read -/

variable {c : Counter} {start last : ℕ} {prev : Snapshot} {ticks : List Record}

/-- What the records of the ticks say about a counter: each begins with the totals of the one before
it, and reads no less than it. -/
inductive Chained (c : Counter) (start : ℕ) : List Record → Snapshot → ℕ → Prop
  | nil : Chained c start [] {} start
  | snoc {ticks : List Record} {prev : Snapshot} {last : ℕ} (h : Chained c start ticks prev last)
      {t : Record} (hprev : t.prev = prev) (hcurrent : t.current.get c = UInt64.ofNat (t.read c))
      (hle : last ≤ t.read c) (hrate : t.out.rate c = t.current.get c - prev.get c) :
      Chained c start (ticks ++ [t]) t.current (t.read c)

/-- The sum of the rates. -/
def rateSum (ticks : List Record) (c : Counter) : ℕ := (ticks.map fun t => (t.out.rate c).toNat).sum

theorem rateSum_concat (ticks : List Record) (t : Record) (c : Counter) :
    rateSum (ticks ++ [t]) c = rateSum ticks c + (t.out.rate c).toNat := by
  rw [rateSum, rateSum, List.map_append, List.sum_append, List.map_singleton, List.sum_singleton]

theorem addsUp_concat {t : Record} :
    AddsUp start (ticks ++ [t]) c ↔ AddsUp start ticks c ∧ t.prev.get c ≤ t.current.get c ∧
      rateSum (ticks ++ [t]) c + start = t.read c := by
  constructor
  · rintro ⟨hle, hsum⟩
    refine ⟨⟨fun t' ht' => hle t' (List.mem_append_left _ ht'), fun before t' hbefore => ?_⟩,
      hle t (by simp), hsum ticks t (List.prefix_refl _)⟩
    exact hsum before t' (hbefore.trans (List.prefix_append _ _))
  · rintro ⟨⟨hle, hsum⟩, hlast, hlastSum⟩
    refine ⟨fun t' ht' => ?_, fun before t' hbefore => ?_⟩
    · obtain ht' | ht' := List.mem_append.mp ht'
      · exact hle t' ht'
      · exact List.mem_singleton.mp ht' ▸ hlast
    · obtain heq | hbefore := List.prefix_concat_iff.mp hbefore
      · rw [heq]
        obtain rfl := List.singleton_inj.mp (List.append_inj_right' heq rfl)
        exact hlastSum
      · exact hsum before t' hbefore

/-- If the counters started at a multiple of `2 ^ 64`, and no total is that much above it, the rates
add up. -/
theorem Chained.addsUp (h : Chained c start ticks prev last) (hstart : 2 ^ 64 ∣ start)
    (hread : ∀ t ∈ ticks, t.read c < start + 2 ^ 64) :
    AddsUp start ticks c ∧ start ≤ last ∧ (prev.get c).toNat + start = last ∧
      rateSum ticks c + start = last := by
  induction h with
  | nil =>
    refine ⟨⟨by simp, fun before t hbefore => ?_⟩, le_rfl, ?_, Nat.zero_add start⟩
    · exact absurd (List.prefix_nil.mp hbefore) (by simp)
    · cases c <;> exact Nat.zero_add start
  | @snoc ticks prev last h t hprev hcurrent hle hrate ih =>
    obtain ⟨hadds, hstartLast, hlast, hsum⟩ :=
      ih fun t' ht' => hread t' (List.mem_append_left _ ht')
    have hlt := hread t (by simp)
    -- the total that was read, less the one at the start, is what the aggregator has computed
    have htotal : (t.current.get c).toNat + start = t.read c := by
      rw [hcurrent, UInt64.toNat_ofNat']
      omega
    have hmono : prev.get c ≤ t.current.get c := UInt64.le_iff_toNat_le.mpr (by omega)
    have hgrowth : (t.out.rate c).toNat = (t.current.get c).toNat - (prev.get c).toNat := by
      rw [hrate, UInt64.toNat_sub_of_le _ _ hmono]
    have hsum' : rateSum (ticks ++ [t]) c + start = t.read c := by
      rw [rateSum_concat, hgrowth]
      omega
    exact ⟨addsUp_concat.mpr ⟨hadds, hprev ▸ hmono, hsum'⟩, hstartLast.trans hle, htotal, hsum'⟩

/-- If the rates add up, the aggregator has computed the totals, less those at the start. -/
theorem Chained.of_addsUp (h : Chained c start ticks prev last) (hadds : AddsUp start ticks c) :
    (prev.get c).toNat + start = last ∧ rateSum ticks c + start = last ∧
      ∀ t ∈ ticks, t.read c % 2 ^ 64 + start = t.read c := by
  induction h with
  | nil =>
    refine ⟨?_, Nat.zero_add start, by simp⟩
    cases c <;> exact Nat.zero_add start
  | @snoc ticks prev last h t hprev hcurrent hle hrate ih =>
    obtain ⟨hbefore, hmono, hsum'⟩ := addsUp_concat.mp hadds
    obtain ⟨hlast, hsum, hread⟩ := ih hbefore
    rw [hprev] at hmono
    have hle' := UInt64.le_iff_toNat_le.mp hmono
    have hgrowth : (t.out.rate c).toNat = (t.current.get c).toNat - (prev.get c).toNat := by
      rw [hrate, UInt64.toNat_sub_of_le _ _ hmono]
    have htotal : (t.current.get c).toNat + start = t.read c := by
      rw [rateSum_concat, hgrowth] at hsum'
      omega
    refine ⟨htotal, hsum', fun t' ht' => ?_⟩
    obtain ht' | ht' := List.mem_append.mp ht'
    · exact hread t' ht'
    · obtain rfl := List.mem_singleton.mp ht'
      rwa [hcurrent, UInt64.toNat_ofNat'] at htotal

theorem Chained.addsUp_iff (h : Chained c start ticks prev last) (hticks : ticks ≠ []) :
    AddsUp start ticks c ↔ 2 ^ 64 ∣ start ∧ ∀ t ∈ ticks, t.read c < start + 2 ^ 64 := by
  constructor
  · intro hadds
    obtain ⟨-, -, hread⟩ := h.of_addsUp hadds
    obtain ⟨t, ht⟩ := List.exists_mem_of_ne_nil _ hticks
    refine ⟨?_, fun t' ht' => ?_⟩
    · have := hread t ht
      omega
    · have := hread t' ht'
      omega
  · exact fun hzero => (h.addsUp hzero.1 hzero.2).1

/-! ### Runs -/

variable {nLcores : ℕ} {lcores lcores' : ℕ → Field → UInt64} {s s' : State} {t : Tick}

/-- The sum of the values of a counter at the given places. -/
def sumAt (lcores : ℕ → Field → UInt64) (places : List (ℕ × Field)) (c : Counter) : ℕ :=
  (places.map fun place =>
    if place.2 = .counter c then (lcores place.1 (.counter c)).toNat else 0).sum

theorem sumAt_append (places places' : List (ℕ × Field)) :
    sumAt lcores (places ++ places') c = sumAt lcores places c + sumAt lcores places' c := by
  rw [sumAt, List.map_append, List.sum_append]
  rfl

/-- `Tick` loads each counter once. -/
theorem sumAt_loads : sumAt lcores (loads nLcores) c = total nLcores lcores c := by
  induction nLcores with
  | zero => rfl
  | succ n ih =>
    have hfields : sumAt lcores (fields.map fun field => (n, field)) c =
        (lcores n (.counter c)).toNat := by
      rw [fields, List.map_append, sumAt_append]
      have hbackends : sumAt lcores (((List.range kMaxBackends).map Field.backendFlows).map
          fun field => (n, field)) c = 0 := by
        rw [sumAt, List.map_map, List.map_map]
        exact List.sum_eq_zero (by simp)
      rw [hbackends, Nat.add_zero]
      cases c <;> simp [sumAt]
    have hsnoc : loads (n + 1) = loads n ++ fields.map fun field => (n, field) := by
      rw [loads, List.range_succ, List.flatMap_append, List.flatMap_singleton]
      rfl
    rw [hsnoc, sumAt_append, ih, hfields, total, total, List.range_succ, List.map_append,
      List.sum_append, List.map_singleton, List.sum_singleton]

theorem sumAt_mono (h : ∀ lcore, lcores lcore (.counter c) ≤ lcores' lcore (.counter c))
    (places : List (ℕ × Field)) : sumAt lcores places c ≤ sumAt lcores' places c := by
  refine List.sum_le_sum fun place _ => ?_
  split_ifs
  · exact UInt64.le_iff_toNat_le.mp (h place.1)
  · exact le_rfl

/-- A call of `Tick` under way: what it has read is no more than what the counters that it has read
show now, and together with the others no less than what the last tick has read. -/
structure Underway (nLcores : ℕ) (lcores : ℕ → Field → UInt64) (c : Counter) (last : ℕ) (t : Tick) :
    Prop where
  loaded : ∃ loaded, loaded ++ t.pending = loads nLcores ∧ t.read c ≤ sumAt lcores loaded c
  last_le : last ≤ t.read c + sumAt lcores t.pending c
  current_eq : t.current.get c = UInt64.ofNat (t.read c)

/-- The state follows the records, and the counters show at least what the last tick has read. -/
structure Tracks (nLcores : ℕ) (c : Counter) (start last : ℕ) (s : State) : Prop where
  chained : Chained c start s.ticks s.prev last
  last_le : last ≤ total nLcores s.lcores c
  tick : ∀ t, s.tick = some t → Underway nLcores s.lcores c last t

theorem Underway.mono (h : Underway nLcores lcores c last t)
    (hle : ∀ lcore, lcores lcore (.counter c) ≤ lcores' lcore (.counter c)) :
    Underway nLcores lcores' c last t := by
  obtain ⟨loaded, hloaded, hread⟩ := h.loaded
  exact ⟨⟨loaded, hloaded, hread.trans (sumAt_mono hle loaded)⟩,
    h.last_le.trans (Nat.add_le_add_left (sumAt_mono hle _) _), h.current_eq⟩

/-- The counters only grow. -/
theorem Tracks.grow (h : Tracks nLcores c start last s)
    (hle : ∀ lcore, s.lcores lcore (.counter c) ≤ lcores' lcore (.counter c)) :
    Tracks nLcores c start last { s with lcores := lcores' } := by
  refine ⟨h.chained, h.last_le.trans ?_, fun t ht => (h.tick t ht).mono hle⟩
  rw [← sumAt_loads, ← sumAt_loads]
  exact sumAt_mono hle _

theorem Tick.pending_add (t : Tick) (field : Field) (v : UInt64) :
    (t.add field v).pending = t.pending := by
  cases field <;> rfl

/-- A load counts for the counter whose field it is from. -/
theorem Tick.read_add (t : Tick) (field : Field) (v : UInt64) (c : Counter) :
    (t.add field v).read c = t.read c + if field = .counter c then v.toNat else 0 := by
  cases field with
  | counter c' =>
    rcases eq_or_ne c' c with rfl | hne
    · rw [if_pos rfl]
      exact Function.update_self ..
    · rw [if_neg fun h => hne (Field.counter.inj h)]
      exact Function.update_of_ne hne.symm _ _
  | activeFlows => rfl
  | backendFlows b => rfl

theorem Tick.get_current_add (t : Tick) (field : Field) (v : UInt64) (c : Counter) :
    (t.add field v).current.get c = t.current.get c + if field = .counter c then v else 0 := by
  cases field with
  | counter c' =>
    rcases eq_or_ne c' c with rfl | hne
    · rw [if_pos rfl]
      cases c' <;> rfl
    · rw [if_neg fun h => hne (Field.counter.inj h), UInt64.add_zero]
      cases c' <;> cases c <;> first | rfl | exact absurd rfl hne
  | activeFlows => exact (UInt64.add_zero _).symm
  | backendFlows b => exact (UInt64.add_zero _).symm

theorem sumAt_singleton (lcores : ℕ → Field → UInt64) (lcore : ℕ) (field : Field) (c : Counter) :
    sumAt lcores [(lcore, field)] c =
      if field = .counter c then (lcores lcore field).toNat else 0 := by
  rw [sumAt, List.map_singleton, List.sum_singleton]
  exact ite_congr rfl (fun hfield => by rw [hfield]) fun _ => rfl

/-- One load. -/
theorem Underway.add {lcore : ℕ} {field : Field} {rest : List (ℕ × Field)}
    (h : Underway nLcores lcores c last t) (hpending : t.pending = (lcore, field) :: rest) :
    Underway nLcores lcores c last
      (({ t with pending := rest } : Tick).add field (lcores lcore field)) := by
  obtain ⟨loaded, hloaded, hread⟩ := h.loaded
  have hlast := h.last_le
  rw [hpending] at hloaded hlast
  have hcons : sumAt lcores ((lcore, field) :: rest) c =
      sumAt lcores [(lcore, field)] c + sumAt lcores rest c := sumAt_append [(lcore, field)] rest
  rw [hcons] at hlast
  refine ⟨⟨loaded ++ [(lcore, field)], ?_, ?_⟩, ?_, ?_⟩
  · rw [Tick.pending_add, List.append_assoc]
    exact hloaded
  · rw [Tick.read_add, sumAt_append, sumAt_singleton]
    exact Nat.add_le_add_right hread _
  · rw [Tick.read_add, Tick.pending_add, ← sumAt_singleton, Nat.add_assoc]
    exact hlast
  · rw [Tick.get_current_add, Tick.read_add]
    change t.current.get c + _ = UInt64.ofNat (t.read c + _)
    rw [h.current_eq, UInt64.ofNat_add]
    split_ifs
    · rw [UInt64.ofNat_toNat]
    · rfl

/-- A store to another field does not change the counter, and an addition that does not wrap around
makes it larger. -/
theorem Tracks.set (h : Tracks nLcores c start last s) {lcore : ℕ} {field : Field} {v : UInt64}
    (hv : field = .counter c → s.lcores lcore (.counter c) ≤ v) :
    Tracks nLcores c start last (s.set lcore field v) := by
  refine h.grow fun lcore' => ?_
  by_cases hlcore : lcore' = lcore
  · subst hlcore
    rw [Function.update_self]
    by_cases hfield : field = .counter c
    · rw [hfield, Function.update_self]
      exact hv hfield
    · rw [Function.update_of_ne (Ne.symm hfield)]
      exact UInt64.le_refl _
  · rw [Function.update_of_ne hlcore]
    exact UInt64.le_refl _

theorem Tracks.step {m : Move} (h : Tracks nLcores c start last s)
    (hstep : step nLcores s m = some s') : ∃ last', Tracks nLcores c start last' s' := by
  cases m with
  | add lcore c' k =>
    rw [StatsAggregator.step] at hstep
    split_ifs at hstep with hlt
    obtain rfl := Option.some.inj hstep
    refine ⟨last, h.set fun hfield => ?_⟩
    obtain rfl := Field.counter.inj hfield
    rw [UInt64.le_iff_toNat_le, UInt64.toNat_add, Nat.mod_eq_of_lt hlt]
    exact Nat.le_add_right _ _
  | store lcore field v =>
    cases field with
    | counter c' => cases hstep
    | activeFlows =>
      obtain rfl := Option.some.inj hstep
      exact ⟨last, h.set fun hfield => Field.noConfusion hfield⟩
    | backendFlows b =>
      obtain rfl := Option.some.inj hstep
      exact ⟨last, h.set fun hfield => Field.noConfusion hfield⟩
  | tick =>
    rw [StatsAggregator.step] at hstep
    cases htick : s.tick with
    | none =>
      simp only [htick] at hstep
      obtain rfl := Option.some.inj hstep
      refine ⟨last, h.chained, h.last_le, fun t ht => ?_⟩
      obtain rfl := Option.some.inj ht
      refine ⟨⟨[], rfl, Nat.zero_le _⟩, ?_, by cases c <;> rfl⟩
      exact h.last_le.trans_eq (sumAt_loads.symm.trans (Nat.zero_add _).symm)
    | some t =>
      have hunderway := h.tick t htick
      simp only [htick] at hstep
      cases hpending : t.pending with
      | cons place rest =>
        obtain ⟨lcore, field⟩ := place
        simp only [hpending] at hstep
        obtain rfl := Option.some.inj hstep
        refine ⟨last, h.chained, h.last_le, fun t' ht' => ?_⟩
        obtain rfl := Option.some.inj ht'
        exact hunderway.add hpending
      | nil =>
        simp only [hpending] at hstep
        obtain rfl := Option.some.inj hstep
        obtain ⟨loaded, hloaded, hread⟩ := hunderway.loaded
        have hlast := hunderway.last_le
        rw [hpending, List.append_nil] at hloaded
        rw [hloaded, sumAt_loads] at hread
        rw [hpending] at hlast
        refine ⟨t.read c, h.chained.snoc rfl hunderway.current_eq hlast ?_, hread,
          fun _ ht => absurd ht (by simp)⟩
        cases c <;> rfl

/-- The invariant holds after every run. -/
theorem Tracks.run {moves : List Move} (h : Tracks nLcores c start last s)
    (hrun : run nLcores s moves = some s') : ∃ last', Tracks nLcores c start last' s' := by
  induction moves generalizing s last with
  | nil =>
    obtain rfl := Option.some.inj hrun
    exact ⟨last, h⟩
  | cons m moves ih =>
    rw [StatsAggregator.run, List.foldlM_cons] at hrun
    obtain ⟨s₁, hstep, hrest⟩ := Option.bind_eq_some_iff.mp hrun
    obtain ⟨last₁, h₁⟩ := h.step hstep
    exact ih h₁ hrest

theorem tracks_init (nLcores : ℕ) (lcores : ℕ → Field → UInt64) (c : Counter) :
    Tracks nLcores c (total nLcores lcores c) (total nLcores lcores c) { lcores := lcores } :=
  ⟨.nil, le_rfl, fun _ ht => absurd ht (by simp)⟩

/-- After every run in which a tick is over, no rate has wrapped around and the rates of the first
ticks add up to what the last of them has read less what the counters showed at the start, if and
only if the counters showed zero at the start, as an unsigned number of 64 bits, and no tick has
read `2 ^ 64` more than that. -/
theorem rates_add_up_iff (nLcores : ℕ) (lcores : ℕ → Field → UInt64) (moves : List Move) {s : State}
    (hrun : run nLcores { lcores := lcores } moves = some s) (hticks : s.ticks ≠ []) (c : Counter) :
    AddsUp (total nLcores lcores c) s.ticks c ↔
      2 ^ 64 ∣ total nLcores lcores c ∧
        ∀ t ∈ s.ticks, t.read c < total nLcores lcores c + 2 ^ 64 := by
  obtain ⟨last, h⟩ := (tracks_init nLcores lcores c).run hrun
  exact h.chained.addsUp_iff hticks

/-- Statistics in which one core has received `n` packets and nothing else has happened. -/
def received (n : UInt64) (lcore : ℕ) (field : Field) : UInt64 :=
  if lcore = 0 ∧ field = .counter .rx then n else 0

/-- Two ticks for one core, with three packets received during the first one before its counter is
loaded, and two more after that. -/
theorem rates_add_up_two_ticks :
    ∃ s, run 1 { lcores := received 0 } ([.tick, .add 0 .rx 3, .tick, .add 0 .rx 2] ++
        List.replicate 140 .tick) = some s ∧ AddsUp 0 s.ticks .rx := by
  obtain ⟨s, hrun, hticks⟩ := Option.map_eq_some_iff.mp (show
    (run 1 { lcores := received 0 } ([.tick, .add 0 .rx 3, .tick, .add 0 .rx 2] ++
      List.replicate 140 .tick)).map (fun s => s.ticks.map fun t => t.read .rx) = some [3, 5] by
    decide +kernel)
  have hne : s.ticks ≠ [] := fun hnil => by simp [hnil] at hticks
  refine ⟨s, hrun, (rates_add_up_iff 1 (received 0) _ hrun hne .rx).mpr ⟨by decide, fun t ht => ?_⟩⟩
  have hread : t.read .rx ∈ [3, 5] := hticks ▸ List.mem_map_of_mem ht
  have hle : t.read .rx ≤ 5 := by
    rcases List.mem_cons.mp hread with hread | hread
    · omega
    · exact (List.mem_singleton.mp hread).le
  exact hle.trans_lt (by decide)

/-- Five packets were received before the aggregator was created, and none since: the first tick
reports five packets per second. -/
theorem first_tick_reports_the_past :
    ∃ s, run kMaxLcores { lcores := received 5 } (List.replicate 2210 .tick) = some s ∧
      s.ticks.map (fun t => t.out.rxPps) = [5] ∧
      ¬ AddsUp (total kMaxLcores (received 5) .rx) s.ticks .rx := by
  obtain ⟨s, hrun, hticks⟩ := Option.map_eq_some_iff.mp (show
    (run kMaxLcores { lcores := received 5 } (List.replicate 2210 .tick)).map
      (fun s => s.ticks.map fun t => (t.out.rxPps, t.read .rx)) = some [(5, 5)] by decide +kernel)
  obtain ⟨t, ht, hpair⟩ := List.map_eq_singleton_iff.mp hticks
  obtain ⟨hrate, hread⟩ := Prod.mk.inj hpair
  have htotal : total kMaxLcores (received 5) .rx = 5 := by decide +kernel
  refine ⟨s, hrun, by rw [ht, List.map_singleton, hrate], fun hadds => ?_⟩
  have hsum := hadds.2 [] t (ht ▸ List.prefix_refl _)
  have hrate' : t.out.rate .rx = 5 := hrate
  rw [List.nil_append, List.map_singleton, List.sum_singleton, htotal, hread, hrate'] at hsum
  exact absurd hsum (by decide)

end StatsAggregator

end Cerebellum
