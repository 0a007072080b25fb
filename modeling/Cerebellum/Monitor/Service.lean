import Cerebellum.Ipc.ControlSnapshots
import Cerebellum.Monitor.ControlAgreement
import Cerebellum.Nodes.FlowCounters
import Mathlib.Algebra.Ring.Nat

/-!
# From the probes to the flows

The parts that a probe of a backend passes through until it decides where new flows go: the health
checker, the ticks of `MonitorComponent` that publish the states, the control view, the calls of
`ReadControl` in `RunControlLoop`, which stores a new pool into `pool_rcu`, and the workers, whose
`LbNode::Process` loads the pool once for each frame. All of them run at the same time; a run is any
list of their moves.

The data plane has seeded the view and launched the workers when a run begins. The control plane
may be restarted between two ticks, as it is when `~MonitorComponent` has stopped the poller. The
state also records how many rounds, ticks and frames there were, from which states of the backends a
list was published, and of which backends a probe succeeded; nothing in the moves reads these
records.

## Main definitions

* `Cerebellum.Worker`, `Cerebellum.Service`, `Cerebellum.Service.poolRcu`.
* `Cerebellum.Service.Move`, `Cerebellum.Service.step`, `Cerebellum.Service.run`.
* `Cerebellum.Service.Sound`: what every reachable state satisfies.

## Main results

* `Cerebellum.Service.Sound.step`: every move keeps the invariant.
-/

namespace Cerebellum

/-- The list that a tick of `MonitorComponent::PublishControl` makes of the states. -/
def publishedEntries (states : List BackendState) : List ControlBackend :=
  controlEntries (states.map (·.info)) fun i => (enabledFlags states).getD i 0

/-- A worker: the state of its `LbNode`, the pool that `Process` loaded and the clock value that it
read for the frame it handles, and the number of frames so far. -/
structure Worker (bits : ℕ) where
  lb : LbNode bits
  pool : Option BackendPool := none
  nowMs : UInt32 := 0
  frames : ℕ := 0

/-- The control plane, the control view with its two sides, and the workers. -/
structure Service (bits : ℕ) where
  monitor : MonitorComponent
  control : Control
  /-- The pool that `RunDataplane` stores before it launches the workers. -/
  initial : BackendPool
  workers : ℕ → Worker bits
  /-- The rounds of probes that are over. -/
  rounds : ℕ := 0
  /-- The calls of `MonitorComponent::PublishControl` that are over. -/
  ticks : ℕ := 0
  /-- The states from which lists were published. -/
  origins : List (List BackendState) := []
  /-- Whether a probe of a backend succeeded. -/
  succeeded : ℕ → Bool := fun _ => false

/-- The list that the tick under way publishes is published further. -/
def Control.publishTick (c : Control) : Option (List UInt8 × List ControlBackend) → Control
  | none => c
  | some (_, entries) => c.publish entries

namespace Service

variable {bits : ℕ}

/-- What `pool_rcu` holds: the pool that was stored last. -/
def poolRcu (s : Service bits) : BackendPool := s.control.stored.getLast?.getD s.initial

/-- The workers start on a view that was seeded and read. -/
def start (bits : ℕ) (backends : List BackendInfo) (view : ControlView) (timeoutMs : UInt32)
    (nWorkers : UInt16) : Service bits where
  monitor := MonitorComponent.new backends
  control := Control.init view view.seq
  initial := buildPool view.content
  workers w := { lb := LbNode.init bits timeoutMs (UInt16.ofNat w) nWorkers }

/-- Who moves next: the health checker, the poller, the control plane that is restarted,
`RunControlLoop`, or worker `w`, which begins a frame or handles a packet of it. A restart between
two steps of one tick of the poller changes nothing. -/
inductive Move
  | health (healthy : Bool) (nowNs : UInt64)
  | poll
  | restart
  | readControl
  | frame (w : ℕ) (nowMs : UInt32)
  | packet (w : ℕ) (m : PacketMeta)

/-- Whether the next step of the health checker ends a round. -/
def endsRound (h : HealthChecker) : Bool := h.round.any fun r => ¬ r.2 < r.1.length

variable (hash : FlowKey → UInt32) (backends : List BackendInfo)

/-- One move. -/
def step (s : Service bits) : Move → Service bits
  | .health healthy nowNs =>
    { s with
      monitor := { s.monitor with health := s.monitor.health.step healthy nowNs }
      rounds := if endsRound s.monitor.health then s.rounds + 1 else s.rounds
      succeeded := fun i => s.succeeded i || (s.monitor.health.probing = some i && healthy) }
  | .poll =>
    let monitor := (s.monitor.publishControl s.control.view).2
    { s with
      monitor := monitor
      control := s.control.publishTick s.monitor.tick
      ticks := if monitor.tick.isNone then s.ticks + 1 else s.ticks
      origins :=
        if s.monitor.tick.isNone && monitor.tick.isSome then
          s.origins ++ [s.monitor.health.states]
        else s.origins }
  | .restart => if s.monitor.tick.isNone then { s with monitor := .new backends } else s
  | .readControl => { s with control := s.control.read }
  | .frame w nowMs =>
    { s with
      workers := Function.update s.workers w
        { s.workers w with
          pool := some s.poolRcu
          nowMs := nowMs
          frames := (s.workers w).frames + 1 } }
  | .packet w m =>
    let worker := s.workers w
    { s with
      workers := Function.update s.workers w
        { worker with lb := (LbNode.arrive hash worker.lb ⟨worker.pool, worker.nowMs, m⟩).1 } }

/-- A run of the service. -/
def run (s : Service bits) (moves : List Move) : Service bits := moves.foldl (step hash backends) s

variable {hash backends} {s : Service bits}

/-! ### The steps of the poller -/

/-- A step of `ipc::PublishControl` on the view alone is a step of the publisher. -/
theorem publishStep_eq (c : Control) (src : List ControlBackend) :
    publishStep c.view c.publisher src = ((c.publish src).view, (c.publish src).publisher) := by
  unfold publishStep Control.publish
  cases c.publisher <;> rfl

/-- A tick that finds the flags it published last is over at once. -/
theorem step_poll_of_eq (htick : s.monitor.tick = none)
    (heq : enabledFlags s.monitor.health.states = s.monitor.publishedEnabled) :
    s.step hash backends .poll = { s with ticks := s.ticks + 1 } := by
  simp [step, MonitorComponent.publishControl, Control.publishTick, htick, heq]

/-- Any other tick takes the states and begins to publish. -/
theorem step_poll_of_ne (htick : s.monitor.tick = none)
    (hne : enabledFlags s.monitor.health.states ≠ s.monitor.publishedEnabled) :
    s.step hash backends .poll =
      { s with
        monitor := { s.monitor with
          tick := some (enabledFlags s.monitor.health.states,
            publishedEntries s.monitor.health.states) }
        origins := s.origins ++ [s.monitor.health.states] } := by
  simp [step, MonitorComponent.publishControl, Control.publishTick, htick, hne, publishedEntries]

/-- The step that publishes the last sequence number ends the tick. -/
theorem step_poll_of_isIdle {enabled : List UInt8} {entries : List ControlBackend}
    (htick : s.monitor.tick = some (enabled, entries))
    (hcall : s.monitor.call = s.control.publisher)
    (hidle : (s.control.publish entries).publisher.isIdle = true) :
    s.step hash backends .poll =
      { s with
        monitor := { s.monitor with publishedEnabled := enabled, tick := none, call := .idle }
        control := s.control.publish entries
        ticks := s.ticks + 1 } := by
  simp [step, MonitorComponent.publishControl, Control.publishTick, htick, hcall, publishStep_eq,
    hidle]

/-- Any other step of a tick that publishes. -/
theorem step_poll_of_not_isIdle {enabled : List UInt8} {entries : List ControlBackend}
    (htick : s.monitor.tick = some (enabled, entries))
    (hcall : s.monitor.call = s.control.publisher)
    (hidle : (s.control.publish entries).publisher.isIdle = false) :
    s.step hash backends .poll =
      { s with
        monitor := { s.monitor with call := (s.control.publish entries).publisher }
        control := s.control.publish entries } := by
  simp [step, MonitorComponent.publishControl, Control.publishTick, htick, hcall, publishStep_eq,
    hidle]

end Service

/-! ### Single moves of the control view -/

/-- The sequence number that the call of `ReadControl` under way loaded first. -/
def Reader.loaded : Reader → Option UInt32
  | counting seqBefore | copying seqBefore _ _ => some seqBefore
  | _ => none

namespace Control

/-- A step of a call for a known list ends the call and adds a publish, or does neither. -/
theorem publish_cases {c : Control} {src : List ControlBackend}
    (h : c.publisher.For src c.view.count) :
    (c.publish src).publisher.isIdle = false ∧ (c.publish src).published = c.published ∨
      (c.publish src).publisher.isIdle = true ∧ ∃ start, c.publisher = .closing src start ∧
        (c.publish src).published = c.published ++ [(start + 2, src)] := by
  cases hcall : c.publisher with
  | looping src' start i =>
    left
    by_cases hi : i < c.view.count <;> simp [publish, hcall, hi, Publisher.isIdle]
  | closing src' start =>
    rw [hcall] at h
    obtain rfl : src' = src := h.1
    right
    rw [publish, hcall]
    exact ⟨rfl, start, rfl, rfl⟩
  | _ =>
    left
    rw [publish, hcall]
    exact ⟨rfl, rfl⟩

/-- A step of `RunControlLoop` ends a call of `ReadControl`, or changes only the reader and what is
counted for it. -/
theorem read_cases (c : Control) :
    (∃ reader started opened, c.read = { c with reader, started, opened } ∧
        opened ≤ c.opened ∧ (reader.loaded = none ∨ reader.loaded = c.reader.loaded ∨
          reader.loaded = some c.view.seq ∧ c.view.seq &&& 1 = 0)) ∨
      ∃ seq out, c.reader.loaded = some seq ∧ c.read = c.readReturn seq out := by
  obtain ⟨view, publisher, reader, applied, published, returned, stored, started, opened⟩ := c
  cases reader with
  | sleeping => exact Or.inl ⟨.entering, 0, 0, rfl, Nat.zero_le _, Or.inl rfl⟩
  | entering =>
    by_cases heven : view.seq &&& 1 = 0
    · refine Or.inl ⟨.counting view.seq, started, opened, ?_, le_rfl, Or.inr (Or.inr ⟨rfl, heven⟩)⟩
      simp only [read, heven, ne_eq, not_true_eq_false, if_false]
    · refine Or.inl ⟨.entering, started, opened, ?_, le_rfl, Or.inl rfl⟩
      simp only [read, heven, ne_eq, not_false_eq_true, if_true]
  | counting seqBefore =>
    exact Or.inl ⟨_, started, opened, rfl, le_rfl, Or.inr (Or.inl rfl)⟩
  | copying seqBefore count out =>
    by_cases hlt : out.1.length < count
    · refine Or.inl ⟨.copying seqBefore count ⟨out.1 ++ [view.backends out.1.length], ?_⟩, started,
        opened, ?_, le_rfl, Or.inr (Or.inl rfl)⟩
      · rw [List.length_append, List.length_singleton]
        omega
      · simp only [read, hlt, dite_true]
    · by_cases hseq : view.seq = seqBefore
      · refine Or.inr ⟨seqBefore, out, rfl, ?_⟩
        simp only [read, hlt, dite_false, hseq, if_true]
      · refine Or.inl ⟨.entering, started, opened, ?_, le_rfl, Or.inl rfl⟩
        simp only [read, hlt, dite_false, hseq, if_false]

theorem opens_read (c : Control) : c.read.opens = c.opens := by
  obtain ⟨reader, started, opened, hread, -⟩ | ⟨seq, out, -, hread⟩ := c.read_cases <;>
    rw [hread] <;> rfl

theorem versions_read (c : Control) (view₀ : ControlView) :
    c.read.versions view₀ = c.versions view₀ := by
  obtain ⟨reader, started, opened, hread, -⟩ | ⟨seq, out, -, hread⟩ := c.read_cases <;>
    rw [hread] <;> rfl

end Control

namespace Service

variable {bits : ℕ} {hash : FlowKey → UInt32} {backends : List BackendInfo} {s : Service bits}
  {view₀ : ControlView}

/-! ### The invariant -/

/-- A pool that was built from a list which a tick published. -/
def FromTick (s : Service bits) (pool : BackendPool) : Prop :=
  ∃ states ∈ s.origins, pool = buildPool (clamp (publishedEntries states))

/-- Every list in the control view comes from a tick, every pool from such a list or from the view
that was seeded, and what the poller remembers is what the last version shows. -/
structure Sound (backends : List BackendInfo) (view₀ : ControlView) (s : Service bits) : Prop where
  covers : HealthChecker.Covers backends s.monitor.health
  probed : HealthChecker.Probed (fun i st => st.status = .up → s.succeeded i = true)
    s.monitor.health
  origins : ∀ states ∈ s.origins, states.map (·.info) = backends ∧
    ∀ i st, states[i]? = some st → st.status = .up → s.succeeded i = true
  call_eq : s.monitor.call = s.control.publisher
  idle : s.monitor.tick = none → s.control.publisher = .idle
  tick : ∀ enabled entries, s.monitor.tick = some (enabled, entries) →
    (∃ states ∈ s.origins, enabled = enabledFlags states ∧ entries = publishedEntries states) ∧
      s.control.publisher.For entries s.control.view.count
  shown : s.monitor.publishedEnabled ≠ [] → ∃ states ∈ s.origins,
    s.monitor.publishedEnabled = enabledFlags states ∧
      ∃ seq, (s.control.versions view₀)[s.control.published.length]? =
        some (seq, clamp (publishedEntries states))
  published : ∀ p ∈ s.control.published, ∃ states ∈ s.origins, p.2 = publishedEntries states
  consistent : ∃ r, s.control.Consistent view₀ 0 r
  opened_le : s.control.opened ≤ s.control.opens
  initial_eq : s.initial = buildPool view₀.content
  applied : ∃ p ∈ s.control.versions view₀, s.control.applied = p.1 ∧ s.poolRcu = buildPool p.2
  workers : ∀ w pool, (s.workers w).pool = some pool → pool = s.initial ∨ s.FromTick pool

theorem sound_start (bits : ℕ) (backends : List BackendInfo) (view₀ : ControlView)
    (timeoutMs : UInt32) (nWorkers : UInt16) :
    (start bits backends view₀ timeoutMs nWorkers).Sound backends view₀ where
  covers := HealthChecker.covers_new backends
  probed := HealthChecker.probed_new _ backends
  origins := fun _ h => absurd h List.not_mem_nil
  call_eq := rfl
  idle := fun _ => rfl
  tick := fun _ _ h => nomatch h
  shown := fun h => absurd rfl h
  published := fun _ h => absurd h List.not_mem_nil
  consistent := ⟨0, Control.consistent_init view₀ view₀.seq (.inl rfl)⟩
  opened_le := Nat.zero_le _
  initial_eq := rfl
  applied := ⟨_, List.mem_cons_self, rfl, rfl⟩
  workers := fun _ _ h => nomatch h

/-- What `pool_rcu` holds is the first pool or one that was built from a list of a tick. -/
theorem Sound.poolRcu_cases (h : s.Sound backends view₀) :
    s.poolRcu = s.initial ∨ s.FromTick s.poolRcu := by
  obtain ⟨p, hp, -, hpool⟩ := h.applied
  rw [Control.versions, List.mem_cons, List.mem_map] at hp
  obtain rfl | ⟨q, hq, rfl⟩ := hp
  · exact Or.inl (hpool.trans h.initial_eq.symm)
  · obtain ⟨states, hstates, hentries⟩ := h.published q hq
    exact Or.inr ⟨states, hstates, hentries ▸ hpool⟩

/-! ### Preservation -/

theorem Sound.health (h : s.Sound backends view₀) (healthy : Bool) (nowNs : UInt64) :
    (s.step hash backends (.health healthy nowNs)).Sound backends view₀ where
  covers := h.covers.step healthy nowNs
  probed := by
    refine (h.probed.mono fun i st hst hup => ?_).step fun i st hprobing hup => ?_
    · change (s.succeeded i || _) = true
      rw [hst hup, Bool.true_or]
    · cases healthy with
      | true => simp [Service.step, hprobing]
      | false => exact absurd hup (show HealthStatus.down ≠ .up by decide)
  origins states hstates := by
    obtain ⟨hinfo, hup⟩ := h.origins states hstates
    refine ⟨hinfo, fun i st hst hstatus => ?_⟩
    change (s.succeeded i || _) = true
    rw [hup i st hst hstatus, Bool.true_or]
  call_eq := h.call_eq
  idle := h.idle
  tick := h.tick
  shown := h.shown
  published := h.published
  consistent := h.consistent
  opened_le := h.opened_le
  initial_eq := h.initial_eq
  applied := h.applied
  workers := h.workers

/-- A tick that begins to publish. -/
theorem Sound.beginTick (h : s.Sound backends view₀) (htick : s.monitor.tick = none)
    (hne : enabledFlags s.monitor.health.states ≠ s.monitor.publishedEnabled) :
    (s.step hash backends .poll).Sound backends view₀ := by
  have hold {states : List BackendState} (hstates : states ∈ s.origins) :
      states ∈ s.origins ++ [s.monitor.health.states] := List.mem_append_left _ hstates
  have hidle := h.idle htick
  rw [step_poll_of_ne htick hne]
  refine ⟨h.covers, h.probed, fun states hstates => ?_, h.call_eq,
    fun hnone => absurd hnone (Option.some_ne_none _),
    ?_, fun hshown => ?_, fun p hp => ?_, h.consistent, h.opened_le, h.initial_eq, h.applied,
    fun w pool hpool => (h.workers w pool hpool).imp_right ?_⟩
  · obtain hstates | hstates := List.mem_append.mp hstates
    · exact h.origins states hstates
    · obtain rfl := List.mem_singleton.mp hstates
      refine ⟨h.covers.states, fun i st hst hup => h.probed.states i st hst ?_ hup⟩
      rw [hup]
      decide
  · rintro enabled entries ⟨⟩
    refine ⟨⟨_, List.mem_append_right _ List.mem_cons_self, rfl, rfl⟩, ?_⟩
    rw [hidle]
    trivial
  · obtain ⟨states, hstates, hrest⟩ := h.shown hshown
    exact ⟨states, hold hstates, hrest⟩
  · obtain ⟨states, hstates, hentries⟩ := h.published p hp
    exact ⟨states, hold hstates, hentries⟩
  · rintro ⟨states, hstates, hentries⟩
    exact ⟨states, hold hstates, hentries⟩

/-- A step of `ipc::PublishControl` keeps what does not depend on where the call stands. -/
theorem Sound.applied_publish (h : s.Sound backends view₀) (src : List ControlBackend) :
    ∃ p ∈ (s.control.publish src).versions view₀, (s.control.publish src).applied = p.1 ∧
      (s.control.publish src).stored.getLast?.getD s.initial = buildPool p.2 := by
  have hmove : Control.PublisherMove view₀ s.control (s.control.publish src) :=
    Control.publisherMove_publish src
  obtain ⟨p, hp, happlied, hpool⟩ := h.applied
  exact ⟨p, hmove.versions_extend.subset hp, hmove.applied_eq.trans happlied,
    hmove.stored_eq ▸ hpool⟩

theorem opened_publish_le (c : Control) (h : c.opened ≤ c.opens) (src : List ControlBackend) :
    (c.publish src).opened ≤ (c.publish src).opens := by
  have hmove : Control.PublisherMove c.view c (c.publish src) := Control.publisherMove_publish src
  have hopens := hmove.opens_eq
  omega

/-- A step of a tick that publishes. -/
theorem Sound.publishTick (h : s.Sound backends view₀) {enabled : List UInt8}
    {entries : List ControlBackend} (htick : s.monitor.tick = some (enabled, entries)) :
    (s.step hash backends .poll).Sound backends view₀ := by
  obtain ⟨⟨states, hstates, henabled, hentries⟩, hfor⟩ := h.tick enabled entries htick
  obtain ⟨r, hconsistent⟩ := h.consistent
  have hconsistent' := hconsistent.publish entries
  have happlied := h.applied_publish entries
  have hopened := opened_publish_le s.control h.opened_le entries
  have hfor' : (s.control.publish entries).publisher.For entries
      (s.control.publish entries).view.count := by
    have hstep := hfor.step
    rwa [publishStep_eq] at hstep
  obtain ⟨hidle, hpublished⟩ | ⟨hidle, start, hclosing, hpublished⟩ := Control.publish_cases hfor
  · have hversions : (s.control.publish entries).versions view₀ = s.control.versions view₀ := by
      rw [Control.versions, Control.versions, hpublished]
    rw [step_poll_of_not_isIdle htick h.call_eq hidle]
    refine ⟨h.covers, h.probed, h.origins, rfl, fun hnone => ?_, fun enabled' entries' htick' => ?_,
      fun hshown => ?_, fun p hp => h.published p (hpublished ▸ hp), ⟨r, hconsistent'⟩, hopened,
      h.initial_eq, happlied, h.workers⟩
    · exact absurd (hnone.symm.trans htick) (Option.some_ne_none _).symm
    · obtain ⟨rfl, rfl⟩ := Prod.mk.inj (Option.some.inj (htick.symm.trans htick'))
      exact ⟨⟨states, hstates, henabled, hentries⟩, hfor'⟩
    · obtain ⟨states', hstates', hflags, seq, hlast⟩ := h.shown hshown
      refine ⟨states', hstates', hflags, seq, ?_⟩
      change ((s.control.publish entries).versions view₀)[
        (s.control.publish entries).published.length]? = _
      rw [hversions, hpublished]
      exact hlast
  · rw [step_poll_of_isIdle htick h.call_eq hidle]
    have hcall : (s.control.publish entries).publisher = .idle := by
      cases hp : (s.control.publish entries).publisher with
      | idle => rfl
      | _ => exact Bool.noConfusion (hp ▸ hidle)
    refine ⟨h.covers, h.probed, h.origins, hcall.symm, fun _ => hcall,
      fun _ _ hnone => absurd hnone.symm (Option.some_ne_none _),
      fun _ => ⟨states, hstates, henabled, start + 2, ?_⟩,
      fun p hp => ?_, ⟨r, hconsistent'⟩,
      hopened, h.initial_eq, happlied, h.workers⟩
    · change ((s.control.publish entries).versions view₀)[
        (s.control.publish entries).published.length]? = _
      have hlength : (s.control.versions view₀).length = _ := Control.length_versions
      rw [Control.versions_publish_closing hclosing, hpublished, List.length_append,
        List.length_singleton, ← hlength, List.getElem?_concat_length, hentries]
    · obtain hp | hp := List.mem_append.mp (hpublished ▸ hp)
      · exact h.published p hp
      · rw [List.mem_singleton.mp hp]
        exact ⟨states, hstates, hentries⟩

theorem Sound.poll (h : s.Sound backends view₀) :
    (s.step hash backends .poll).Sound backends view₀ := by
  cases htick : s.monitor.tick with
  | none =>
    by_cases heq : enabledFlags s.monitor.health.states = s.monitor.publishedEnabled
    · rw [step_poll_of_eq htick heq]
      exact ⟨h.covers, h.probed, h.origins, h.call_eq, h.idle, h.tick, h.shown, h.published,
        h.consistent, h.opened_le, h.initial_eq, h.applied, h.workers⟩
    · exact h.beginTick htick heq
  | some t => exact h.publishTick htick

theorem Sound.restart (h : s.Sound backends view₀) :
    (s.step hash backends .restart).Sound backends view₀ := by
  cases htick : s.monitor.tick with
  | some t =>
    simp only [Service.step, htick, Option.isNone_some, Bool.false_eq_true, if_false]
    exact h
  | none =>
    simp only [Service.step, htick, Option.isNone_none, if_true]
    exact ⟨HealthChecker.covers_new backends, HealthChecker.probed_new _ backends, h.origins,
      (h.idle htick).symm, fun _ => h.idle htick,
      fun _ _ hnone => absurd hnone.symm (Option.some_ne_none _),
      fun hne => absurd rfl hne, h.published, h.consistent, h.opened_le, h.initial_eq, h.applied,
      h.workers⟩

/-- Fewer than `2 ^ 31` publishes until now are needed for what `ReadControl` returns. -/
theorem Sound.readControl (h : s.Sound backends view₀) (heven : view₀.seq &&& 1 = 0)
    (hopens : s.control.opens < 2 ^ 31) :
    (s.step hash backends .readControl).Sound backends view₀ := by
  obtain ⟨r, hconsistent⟩ := h.consistent
  obtain ⟨r', hconsistent'⟩ := hconsistent.read heven fun _ => h.opened_le.trans_lt hopens
  obtain ⟨reader, started, opened, hread, hopened, -⟩ | ⟨seq, out, -, hread⟩ :=
    s.control.read_cases
  · rw [hread] at hconsistent'
    simp only [Service.step, hread]
    exact ⟨h.covers, h.probed, h.origins, h.call_eq, h.idle, h.tick, h.shown, h.published,
      ⟨r', hconsistent'⟩, hopened.trans h.opened_le, h.initial_eq, h.applied, h.workers⟩
  · rw [hread] at hconsistent'
    simp only [Service.step, hread]
    refine ⟨h.covers, h.probed, h.origins, h.call_eq, h.idle, h.tick, h.shown, h.published,
      ⟨r', hconsistent'⟩, h.opened_le, h.initial_eq, ?_, h.workers⟩
    have hmem : (seq, out) ∈ s.control.versions view₀ :=
      hconsistent'.returned_mem (seq, out) (List.mem_append_right _ List.mem_cons_self)
    by_cases hseq : seq = s.control.applied
    · obtain ⟨p, hp, happlied, hpool⟩ := h.applied
      refine ⟨p, hp, ?_, ?_⟩
      · simpa [Control.readReturn, hseq] using happlied
      · simpa [poolRcu, Control.readReturn, hseq] using hpool
    · refine ⟨(seq, out), hmem, ?_, ?_⟩
      · simp [Control.readReturn, hseq]
      · simp [poolRcu, Control.readReturn, hseq]

theorem Sound.frame (h : s.Sound backends view₀) (w : ℕ) (nowMs : UInt32) :
    (s.step hash backends (.frame w nowMs)).Sound backends view₀ := by
  refine ⟨h.covers, h.probed, h.origins, h.call_eq, h.idle, h.tick, h.shown, h.published,
    h.consistent, h.opened_le, h.initial_eq, h.applied, fun w' pool hpool => ?_⟩
  by_cases hw : w' = w
  · subst hw
    simp only [Service.step, Function.update_self, Option.some.injEq] at hpool
    exact hpool ▸ h.poolRcu_cases
  · simp only [Service.step, Function.update_of_ne hw] at hpool
    exact h.workers w' pool hpool

theorem Sound.packet (h : s.Sound backends view₀) (w : ℕ) (m : PacketMeta) :
    (s.step hash backends (.packet w m)).Sound backends view₀ := by
  refine ⟨h.covers, h.probed, h.origins, h.call_eq, h.idle, h.tick, h.shown, h.published,
    h.consistent, h.opened_le, h.initial_eq, h.applied, fun w' pool hpool => ?_⟩
  by_cases hw : w' = w
  · subst hw
    simp only [Service.step, Function.update_self] at hpool
    exact h.workers w' pool hpool
  · simp only [Service.step, Function.update_of_ne hw] at hpool
    exact h.workers w' pool hpool

/-- Every move keeps the invariant. -/
theorem Sound.step (h : s.Sound backends view₀) (heven : view₀.seq &&& 1 = 0)
    (hopens : s.control.opens < 2 ^ 31) (move : Move) :
    (s.step hash backends move).Sound backends view₀ := by
  cases move with
  | health healthy nowNs => exact h.health healthy nowNs
  | poll => exact h.poll
  | restart => exact h.restart
  | readControl => exact h.readControl heven hopens
  | frame w nowMs => exact h.frame w nowMs
  | packet w m => exact h.packet w m

/-! ### Runs -/

theorem opens_le_step (s : Service bits) (move : Move) :
    s.control.opens ≤ (s.step hash backends move).control.opens := by
  cases move with
  | poll =>
    change s.control.opens ≤ (s.control.publishTick s.monitor.tick).opens
    cases s.monitor.tick with
    | none => exact le_rfl
    | some t =>
      have hmove : Control.PublisherMove s.control.view s.control (s.control.publish t.2) :=
        Control.publisherMove_publish t.2
      exact hmove.opens_le
  | restart =>
    simp only [Service.step]
    split_ifs <;> exact le_rfl
  | readControl => exact (Control.opens_read s.control).ge
  | _ => exact le_rfl

theorem opens_le_run (hash : FlowKey → UInt32) (backends : List BackendInfo) (s : Service bits)
    (moves : List Move) : s.control.opens ≤ (s.run hash backends moves).control.opens := by
  induction moves generalizing s with
  | nil => exact le_rfl
  | cons move moves ih => exact (opens_le_step s move).trans (ih _)

/-- The invariant holds along every run with fewer than `2 ^ 31` publishes. -/
theorem Sound.run (h : s.Sound backends view₀) (heven : view₀.seq &&& 1 = 0) (moves : List Move)
    (hopens : (s.run hash backends moves).control.opens < 2 ^ 31) :
    (s.run hash backends moves).Sound backends view₀ := by
  induction moves generalizing s with
  | nil => exact h
  | cons move moves ih =>
    have hnow := (opens_le_run hash backends s (move :: moves)).trans_lt
      hopens
    exact ih (h.step heven hnow move) hopens

end Service

end Cerebellum
