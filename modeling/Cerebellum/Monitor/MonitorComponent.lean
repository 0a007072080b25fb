import Cerebellum.Health.HealthChecker
import Cerebellum.Ipc.SharedSegment

/-!
# The monitor component and the data plane on one segment

`MonitorComponent` (`monitor/monitor_component.cpp`) runs the health checker, and once a second
calls `PublishControl`: it takes the states of the backends, turns them into flags, and publishes
the configured backends with these flags unless the flags are the ones it published last. It
remembers those in a vector of its own. The data plane calls `SeedControl` (`main.cpp`) when it
starts, which publishes all backends as enabled into the same segment.

A run is any list of moves: a step of the health checker, a step of the poller, a step of
`SeedControl`, the end of a data plane process, and a restart of the control plane. The state also
records by whom each entry was stored last, and of which backends a probe failed; nothing in the
moves reads these records.

## Main definitions

* `Cerebellum.MonitorComponent`, `Cerebellum.MonitorComponent.publishControl`.
* `Cerebellum.Deployment`, `Cerebellum.Deployment.step`, `Cerebellum.Deployment.run`.
* `Cerebellum.Publisher.For`: a call that publishes a given list.
* `Cerebellum.Deployment.Wired`: what every reachable state satisfies.

## Main results

* `Cerebellum.Publisher.For.step`: a step of a call keeps to its list.
* `Cerebellum.Deployment.Wired.step`: every move keeps the invariant.
-/

namespace Cerebellum

/-! ### Calls for a known list -/

namespace Publisher

/-- Whether no call is under way. -/
def isIdle : Publisher → Bool
  | idle => true
  | _ => false

/-- The entry that the next step of the call stores, if it is a store of an entry. -/
def stores : Publisher → Option ℕ
  | copying _ _ i => some i
  | _ => none

/-- The number of entries that the call has stored, counted up to `kMaxBackends` when it is done
with them. -/
def written : Publisher → ℕ
  | looping _ _ i | copying _ _ i => i
  | closing _ _ => kMaxBackends
  | _ => 0

/-- The call publishes the list `src`, and has stored its length once it is past that step. -/
def For (src : List ControlBackend) (count : ℕ) : Publisher → Prop
  | idle => True
  | loaded src' _ => src' = src
  | opened src' _ => src' = src
  | looping src' _ i =>
    src' = src ∧ count = min src.length kMaxBackends ∧ i ≤ min src.length kMaxBackends
  | copying src' _ i =>
    src' = src ∧ count = min src.length kMaxBackends ∧ i < min src.length kMaxBackends
  | closing src' _ => src' = src ∧ count = min src.length kMaxBackends

variable {src : List ControlBackend} {view : ControlView} {call : Publisher} {count : ℕ}

/-- A call is not disturbed by a store of the same length. -/
theorem For.of_count_eq (h : call.For src count) {count' : ℕ}
    (hcount : count' = count ∨ count' = min src.length kMaxBackends) : call.For src count' := by
  rcases hcount with rfl | rfl
  · exact h
  · cases call with
    | idle => trivial
    | loaded src' start => exact h
    | opened src' start => exact h
    | looping src' start i => exact ⟨h.1, rfl, h.2.2⟩
    | copying src' start i => exact ⟨h.1, rfl, h.2.2⟩
    | closing src' start => exact ⟨h.1, rfl⟩

/-- A step of a call keeps to its list. -/
theorem For.step (h : call.For src view.count) :
    (publishStep view call src).2.For src (publishStep view call src).1.count := by
  cases call with
  | idle => exact rfl
  | loaded src' start => exact h
  | opened src' start =>
    obtain rfl : src' = src := h
    exact ⟨rfl, rfl, Nat.zero_le _⟩
  | looping src' start i =>
    obtain ⟨rfl, hcount, hi⟩ := h
    by_cases hlt : i < view.count
    · simp only [publishStep, Control.publish, if_pos hlt]
      exact ⟨rfl, hcount, hcount ▸ hlt⟩
    · simp only [publishStep, Control.publish, if_neg hlt]
      exact ⟨rfl, hcount⟩
  | copying src' start i => exact ⟨h.1, h.2.1, h.2.2⟩
  | closing src' start => trivial

/-- The only length that a step of a call can store is that of its list. -/
theorem For.count_publishStep (h : call.For src view.count) :
    (publishStep view call src).1.count = view.count ∨
      (publishStep view call src).1.count = min src.length kMaxBackends := by
  cases call with
  | opened src' start =>
    obtain rfl : src' = src := h
    exact Or.inr rfl
  | _ => exact Or.inl rfl

/-- The only entry that a step of a call can store is the one of its list. -/
theorem For.backends_publishStep (h : call.For src view.count) (j : ℕ) :
    (publishStep view call src).1.backends j =
      if call.stores = some j then src.getD j default else view.backends j := by
  cases call with
  | copying src' start i =>
    obtain rfl : src' = src := h.1
    by_cases hij : i = j
    · subst hij
      rw [stores, if_pos rfl]
      exact Function.update_self ..
    · rw [stores, if_neg (fun heq => hij (Option.some.inj heq))]
      exact Function.update_of_ne (Ne.symm hij) _ _
  | _ => rfl

/-- The entries stored after a step that does not end the call. -/
theorem For.written_publishStep (h : call.For src view.count) {j : ℕ}
    (hj : j < min src.length kMaxBackends)
    (hidle : (publishStep view call src).2.isIdle = false) :
    j < (publishStep view call src).2.written ↔ j < call.written ∨ call.stores = some j := by
  cases call with
  | idle => simp [publishStep, Control.publish, written, stores]
  | loaded src' start => simp [publishStep, Control.publish, written, stores]
  | opened src' start => simp [publishStep, Control.publish, written, stores]
  | looping src' start i =>
    obtain ⟨rfl, hcount, hi⟩ := h
    by_cases hlt : i < view.count
    · simp [publishStep, Control.publish, if_pos hlt, written, stores]
    · simp only [publishStep, Control.publish, if_neg hlt, written, stores]
      simp only [reduceCtorEq, or_false]
      omega
  | copying src' start i =>
    simp only [publishStep, Control.publish, written, stores, Option.some.injEq]
    omega
  | closing src' start => exact Bool.noConfusion hidle

/-- The step that ends a call stores no entry, and all entries were stored before it. -/
theorem For.of_isIdle_publishStep (h : call.For src view.count)
    (hidle : (publishStep view call src).2.isIdle = true) :
    call.stores = none ∧ call.written = kMaxBackends ∧
      view.count = min src.length kMaxBackends := by
  cases call with
  | closing src' start => exact ⟨rfl, rfl, h.2⟩
  | looping src' start i =>
    by_cases hlt : i < view.count
    · simp [publishStep, Control.publish, if_pos hlt, isIdle] at hidle
    · simp [publishStep, Control.publish, if_neg hlt, isIdle] at hidle
  | _ => exact Bool.noConfusion hidle

/-- The number of steps until a call for a list of the given length is over, counted from its
beginning when it has not begun. -/
def stepsLeft (count : ℕ) : Publisher → ℕ
  | idle => 2 * count + 5
  | loaded _ _ => 2 * count + 4
  | opened _ _ => 2 * count + 3
  | looping _ _ i => 2 * (count - i) + 2
  | copying _ _ i => 2 * (count - i) + 1
  | closing _ _ => 1

theorem stepsLeft_pos (count : ℕ) (call : Publisher) : 0 < call.stepsLeft count := by
  cases call <;> simp [stepsLeft]

/-- A step that does not end the call is one step less, and the last step ends it. -/
theorem For.stepsLeft_publishStep (h : call.For src view.count) :
    if (publishStep view call src).2.isIdle then
      call.stepsLeft (min src.length kMaxBackends) = 1
    else (publishStep view call src).2.stepsLeft (min src.length kMaxBackends) + 1 =
      call.stepsLeft (min src.length kMaxBackends) := by
  cases call with
  | idle => rfl
  | loaded src' start => rfl
  | opened src' start => rfl
  | looping src' start i =>
    obtain ⟨rfl, hcount, hi⟩ := h
    by_cases hlt : i < view.count
    · simp only [publishStep, Control.publish, if_pos hlt, isIdle, stepsLeft]
      simp
    · simp only [publishStep, Control.publish, if_neg hlt, isIdle, stepsLeft]
      simp only [Bool.false_eq_true, if_false]
      omega
  | copying src' start i =>
    simp only [publishStep, Control.publish, isIdle, stepsLeft]
    simp only [Bool.false_eq_true, if_false]
    have hi := h.2.2
    omega
  | closing src' start => rfl

end Publisher

/-! ### The monitor component -/

/-- The flags that a tick makes of the states. -/
def enabledFlags (states : List BackendState) : List UInt8 :=
  states.map fun state => if state.status = .up then 1 else 0

/-- `MonitorComponent` with an attached control view: the health checker, the flags published last,
the flags and entries of the tick under way, and where its call of `ipc::PublishControl` stands. -/
structure MonitorComponent where
  health : HealthChecker
  publishedEnabled : List UInt8 := []
  tick : Option (List UInt8 × List ControlBackend) := none
  call : Publisher := .idle

namespace MonitorComponent

/-- `MonitorComponent::MonitorComponent`. -/
def new (backends : List BackendInfo) : MonitorComponent where
  health := HealthChecker.new backends

/-- The next step of `MonitorComponent::PublishControl`. The first step of a tick takes the states
and compares the flags; the other steps are those of `ipc::PublishControl`, after the last of which
the flags are remembered. -/
def publishControl (m : MonitorComponent) (view : ControlView) : ControlView × MonitorComponent :=
  match m.tick with
  | none =>
    let enabled := enabledFlags m.health.states
    if enabled = m.publishedEnabled then (view, m)
    else
      let entries := controlEntries (m.health.states.map (·.info)) fun i => enabled.getD i 0
      (view, { m with tick := some (enabled, entries) })
  | some (enabled, entries) =>
    let r := publishStep view m.call entries
    if r.2.isIdle then
      (r.1, { m with publishedEnabled := enabled, tick := none, call := .idle })
    else (r.1, { m with call := r.2 })

end MonitorComponent

/-! ### The deployment -/

/-- The entries that `SeedControl` publishes. -/
def seedEntries (backends : List BackendInfo) : List ControlBackend :=
  controlEntries backends fun _ => 1

/-- The segment, the control plane, the call of `SeedControl` of the data plane, and the records:
whether an entry was stored last by `SeedControl`, and whether a probe of a backend failed. -/
structure Deployment where
  view : ControlView := {}
  monitor : MonitorComponent
  seeding : Publisher := .idle
  seeded : ℕ → Bool := fun _ => false
  failed : ℕ → Bool := fun _ => false

namespace Deployment

/-- The control plane starts on a view. -/
def start (backends : List BackendInfo) (view : ControlView) : Deployment where
  view := view
  monitor := MonitorComponent.new backends

/-- Who moves next. A step of `SeedControl` when none is under way is a start of the data plane. -/
inductive Move
  | health (healthy : Bool) (nowNs : UInt64)
  | poll
  | seed
  | stopDataplane
  | restartControlplane

/-- The record of the next store of a call. -/
def recordStore (seeded : ℕ → Bool) (call : Publisher) (bySeed : Bool) (j : ℕ) : Bool :=
  if call.stores = some j then bySeed else seeded j

/-- The record of the next step of the health checker. -/
def recordProbe (failed : ℕ → Bool) (h : HealthChecker) (healthy : Bool) (i : ℕ) : Bool :=
  failed i || (h.probing = some i && !healthy)

/-- One move. -/
def step (backends : List BackendInfo) (s : Deployment) : Move → Deployment
  | .health healthy nowNs =>
    { s with
      monitor := { s.monitor with health := s.monitor.health.step healthy nowNs }
      failed := recordProbe s.failed s.monitor.health healthy }
  | .poll =>
    { s with
      view := (s.monitor.publishControl s.view).1
      monitor := (s.monitor.publishControl s.view).2
      seeded := recordStore s.seeded s.monitor.call false }
  | .seed =>
    { s with
      view := (publishStep s.view s.seeding (seedEntries backends)).1
      seeding := (publishStep s.view s.seeding (seedEntries backends)).2
      seeded := recordStore s.seeded s.seeding true }
  | .stopDataplane => { s with seeding := .idle }
  | .restartControlplane => { s with monitor := MonitorComponent.new backends }

/-- A run of the deployment. -/
def run (backends : List BackendInfo) (s : Deployment) (moves : List Move) : Deployment :=
  moves.foldl (step backends) s

/-- Both processes use the configured backends. -/
structure Wired (backends : List BackendInfo) (s : Deployment) : Prop where
  covers : HealthChecker.Covers backends s.monitor.health
  tick : ∀ enabled entries, s.monitor.tick = some (enabled, entries) →
    enabled.length = backends.length ∧
      entries = controlEntries backends (fun i => enabled.getD i 0) ∧
      s.monitor.call.For entries s.view.count
  idle : s.monitor.tick = none → s.monitor.call = .idle
  seeding : s.seeding.For (seedEntries backends) s.view.count

variable {backends : List BackendInfo} {s : Deployment}

theorem length_controlEntries (backends : List BackendInfo) (enabled : ℕ → UInt8) :
    (controlEntries backends enabled).length = backends.length := List.length_mapIdx

theorem length_seedEntries (backends : List BackendInfo) :
    (seedEntries backends).length = backends.length := length_controlEntries ..

theorem wired_start (backends : List BackendInfo) (view : ControlView) :
    (start backends view).Wired backends :=
  ⟨HealthChecker.covers_new backends, fun _ _ h => (nomatch h), fun _ => rfl, trivial⟩

/-! ### The steps of the poller -/

/-- A tick that finds the flags it published last does nothing. -/
theorem step_poll_of_eq (hbetween : s.monitor.tick = none) (hidle : s.monitor.call = .idle)
    (heq : enabledFlags s.monitor.health.states = s.monitor.publishedEnabled) :
    s.step backends .poll = s := by
  have hrecord : recordStore s.seeded s.monitor.call false = s.seeded := by
    rw [hidle]
    rfl
  simp only [step, MonitorComponent.publishControl, hbetween, heq, if_true, hrecord]

/-- Any other tick begins to publish. -/
theorem step_poll_of_ne (h : s.Wired backends) (hbetween : s.monitor.tick = none)
    (hne : enabledFlags s.monitor.health.states ≠ s.monitor.publishedEnabled) :
    s.step backends .poll =
      { s with
        monitor := { s.monitor with
          tick := some (enabledFlags s.monitor.health.states,
            controlEntries backends fun i =>
              (enabledFlags s.monitor.health.states).getD i 0) } } := by
  have hrecord : recordStore s.seeded s.monitor.call false = s.seeded := by
    rw [h.idle hbetween]
    rfl
  simp only [step, MonitorComponent.publishControl, hbetween, hne, if_false, hrecord,
    h.covers.states]

/-- A step of the tick that publishes the last sequence number. -/
theorem step_poll_of_isIdle {enabled : List UInt8} {entries : List ControlBackend}
    (htick : s.monitor.tick = some (enabled, entries))
    (hidle : (publishStep s.view s.monitor.call entries).2.isIdle = true) :
    s.step backends .poll =
      { s with
        view := (publishStep s.view s.monitor.call entries).1
        monitor := { s.monitor with publishedEnabled := enabled, tick := none, call := .idle }
        seeded := recordStore s.seeded s.monitor.call false } := by
  simp only [step, MonitorComponent.publishControl, htick, hidle, if_true]

/-- Any other step of the tick. -/
theorem step_poll_of_not_isIdle {enabled : List UInt8} {entries : List ControlBackend}
    (htick : s.monitor.tick = some (enabled, entries))
    (hidle : (publishStep s.view s.monitor.call entries).2.isIdle = false) :
    s.step backends .poll =
      { s with
        view := (publishStep s.view s.monitor.call entries).1
        monitor := { s.monitor with call := (publishStep s.view s.monitor.call entries).2 }
        seeded := recordStore s.seeded s.monitor.call false } := by
  simp only [step, MonitorComponent.publishControl, htick, hidle, Bool.false_eq_true, if_false]

theorem length_enabledFlags (h : s.Wired backends) :
    (enabledFlags s.monitor.health.states).length = backends.length := by
  rw [enabledFlags, List.length_map, h.covers.length_states]

/-! ### The invariant -/

theorem Wired.poll (h : s.Wired backends) : (s.step backends .poll).Wired backends := by
  cases htick : s.monitor.tick with
  | none =>
    by_cases heq : enabledFlags s.monitor.health.states = s.monitor.publishedEnabled
    · rw [step_poll_of_eq htick (h.idle htick) heq]
      exact h
    · rw [step_poll_of_ne h htick heq]
      refine ⟨h.covers, ?_, fun hnone => (nomatch hnone), h.seeding⟩
      rintro enabled entries ⟨⟩
      refine ⟨length_enabledFlags h, rfl, ?_⟩
      rw [h.idle htick]
      trivial
  | some t =>
    obtain ⟨enabled, entries⟩ := t
    obtain ⟨hlength, hentries, hcall⟩ := h.tick enabled entries htick
    have hseeding : s.seeding.For (seedEntries backends)
        (publishStep s.view s.monitor.call entries).1.count := by
      refine h.seeding.of_count_eq (hcall.count_publishStep.imp_right fun hcount => ?_)
      rw [hcount, hentries, length_controlEntries, length_seedEntries]
    cases hidle : (publishStep s.view s.monitor.call entries).2.isIdle with
    | true =>
      rw [step_poll_of_isIdle htick hidle]
      exact ⟨h.covers, fun _ _ hnone => (nomatch hnone), fun _ => rfl, hseeding⟩
    | false =>
      rw [step_poll_of_not_isIdle htick hidle]
      refine ⟨h.covers, fun enabled' entries' htick' => ?_, fun hnone => ?_, hseeding⟩
      · obtain ⟨rfl, rfl⟩ := Prod.mk.inj (Option.some.inj (htick.symm.trans htick'))
        exact ⟨hlength, hentries, hcall.step⟩
      · exact absurd (hnone.symm.trans htick) (Option.some_ne_none _).symm

theorem Wired.step (h : s.Wired backends) (move : Move) :
    (s.step backends move).Wired backends := by
  cases move with
  | health healthy nowNs => exact ⟨h.covers.step healthy nowNs, h.tick, h.idle, h.seeding⟩
  | poll => exact h.poll
  | seed =>
    refine ⟨h.covers, fun enabled entries htick => ?_, h.idle, h.seeding.step⟩
    obtain ⟨hlength, hentries, hcall⟩ := h.tick enabled entries htick
    refine ⟨hlength, hentries, hcall.of_count_eq ?_⟩
    refine h.seeding.count_publishStep.imp_right fun hcount => ?_
    rw [hentries, length_controlEntries, ← length_seedEntries backends]
    exact hcount
  | stopDataplane => exact ⟨h.covers, h.tick, h.idle, trivial⟩
  | restartControlplane =>
    exact ⟨HealthChecker.covers_new backends, fun _ _ hnone => (nomatch hnone), fun _ => rfl,
      h.seeding⟩

end Deployment

end Cerebellum
