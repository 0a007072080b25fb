import Cerebellum.Monitor.ControlAgreement

/-!
# Which backends the control plane disables

A backend that fails its probe is published as disabled. The converse is not kept: the flag of a
backend is `1` only if its state is `kUp`, a health checker that has just started has every backend
as `kUnknown`, and the poller ticks at once, so that a tick before the end of the first round of
probes publishes every backend as disabled. When every tick that publishes takes its snapshot after
that, or at least after a failed probe of each backend that is still `kUnknown`, an entry of the
view is disabled only if a probe of its backend failed.

## Main definitions

* `Cerebellum.Deployment.ProbedFirst`: in the run, no tick publishes a backend that is yet unprobed.
* `Cerebellum.Deployment.Blamed`: the invariant.

## Main results

* `Cerebellum.Deployment.Blamed.step`: what every such move keeps.
* `Cerebellum.Deployment.disabled_only_after_failed_probe`: the result for whole runs.
* `Cerebellum.Deployment.startup_disables_unprobed_backend`: a run that disables a healthy backend.
-/

namespace Cerebellum

namespace Deployment

/-- In this state, each backend with an entry in the view that is still `kUnknown` has failed a
probe. -/
def UnknownFailed (s : Deployment) : Prop :=
  ∀ i < min s.monitor.health.states.length kMaxBackends,
    (s.monitor.health.states.getD i default).status = .unknown → s.failed i = true

instance (s : Deployment) : Decidable s.UnknownFailed :=
  inferInstanceAs (Decidable (∀ i < min s.monitor.health.states.length kMaxBackends,
    (s.monitor.health.states.getD i default).status = .unknown → s.failed i = true))

/-- In the run, every tick that publishes begins when each backend that is still `kUnknown` has
failed a probe. -/
def ProbedFirst (backends : List BackendInfo) (s : Deployment) : List Move → Prop
  | [] => True
  | move :: moves =>
    (move.isPoll = true → s.monitor.tick = none →
        enabledFlags s.monitor.health.states ≠ s.monitor.publishedEnabled → s.UnknownFailed) ∧
      ProbedFirst backends (s.step backends move) moves

instance decidableProbedFirst (backends : List BackendInfo) :
    (s : Deployment) → (moves : List Move) → Decidable (ProbedFirst backends s moves)
  | _, [] => inferInstanceAs (Decidable True)
  | s, move :: moves =>
    have := decidableProbedFirst backends (s.step backends move) moves
    inferInstanceAs (Decidable ((move.isPoll = true → s.monitor.tick = none →
      enabledFlags s.monitor.health.states ≠ s.monitor.publishedEnabled → s.UnknownFailed) ∧
        ProbedFirst backends (s.step backends move) moves))

/-- Whoever is about to be disabled, or is disabled, has failed a probe. -/
structure Blamed (backends : List BackendInfo) (s : Deployment) : Prop where
  wired : s.Wired backends
  probed : HealthChecker.Probed (fun i st => st.status = .up ∨ s.failed i = true) s.monitor.health
  count : min s.view.count kMaxBackends = min backends.length kMaxBackends
  tick : ∀ enabled entries, s.monitor.tick = some (enabled, entries) →
    ∀ i < min backends.length kMaxBackends, enabled.getD i 0 = 0 → s.failed i = true
  entries : ∀ i < min backends.length kMaxBackends,
    (s.view.backends i).enabled = 0 → s.failed i = true

variable {backends : List BackendInfo} {s : Deployment}

theorem blamed_start {view : ControlView} (hview : view.content = clamp (seedEntries backends)) :
    (start backends view).Blamed backends where
  wired := wired_start backends view
  probed := HealthChecker.probed_new _ backends
  count := by
    have hlength := congrArg (fun l : Snapshot => l.1.length) hview
    simpa [start, ControlView.content, clamp, length_seedEntries, Nat.min_comm] using hlength
  tick := fun _ _ h => nomatch h
  entries := fun i hi henabled => by
    have hentry := ControlView.backends_eq_of_content_eq hview
      (j := i) (by rwa [length_seedEntries])
    have hlt : i < backends.length := by omega
    rw [seedEntries, getD_controlEntries] at hentry
    change (view.backends i).enabled = 0 at henabled
    rw [hentry, enabled_controlEntry hlt] at henabled
    exact absurd henabled (by decide)

theorem failed_of_failed (s : Deployment) (healthy : Bool) (nowNs : UInt64) {i : ℕ}
    (hfailed : s.failed i = true) : (s.step backends (.health healthy nowNs)).failed i = true := by
  simp [Deployment.step, recordProbe, hfailed]

theorem Blamed.health (h : s.Blamed backends) (healthy : Bool) (nowNs : UInt64) :
    (s.step backends (.health healthy nowNs)).Blamed backends where
  wired := h.wired.step _
  probed := by
    refine (h.probed.mono fun i st hst => ?_).step fun i st hprobing => ?_
    · exact hst.imp_right (failed_of_failed s healthy nowNs)
    · cases healthy with
      | true => exact Or.inl rfl
      | false =>
        right
        simp [Deployment.step, recordProbe, hprobing]
  count := h.count
  tick := fun enabled entries htick i hi hzero =>
    failed_of_failed s healthy nowNs (h.tick enabled entries htick i hi hzero)
  entries := fun i hi henabled => failed_of_failed s healthy nowNs (h.entries i hi henabled)

/-- A step of a call whose list disables only backends that failed a probe. -/
theorem Blamed.publishStep (h : s.Blamed backends) {call : Publisher} (enabled : ℕ → UInt8)
    (hcall : call.For (controlEntries backends enabled) s.view.count)
    (henabled : ∀ i < min backends.length kMaxBackends, enabled i = 0 → s.failed i = true) :
    min (publishStep s.view call (controlEntries backends enabled)).1.count kMaxBackends =
        min backends.length kMaxBackends ∧
      ∀ i < min backends.length kMaxBackends,
        ((publishStep s.view call (controlEntries backends enabled)).1.backends i).enabled = 0 →
          s.failed i = true := by
  constructor
  · rcases hcall.count_publishStep with hcount | hcount
    · rw [hcount, h.count]
    · rw [hcount, length_controlEntries, Nat.min_assoc, Nat.min_self]
  · intro i hi hzero
    have hlt : i < backends.length := by omega
    rw [hcall.backends_publishStep] at hzero
    split at hzero
    · rw [getD_controlEntries, enabled_controlEntry hlt] at hzero
      exact henabled i hi hzero
    · exact h.entries i hi hzero

theorem Blamed.poll (h : s.Blamed backends)
    (hprobed : s.monitor.tick = none →
      enabledFlags s.monitor.health.states ≠ s.monitor.publishedEnabled → s.UnknownFailed) :
    (s.step backends .poll).Blamed backends := by
  have hwired := h.wired.step .poll
  cases htick : s.monitor.tick with
  | none =>
    by_cases heq : enabledFlags s.monitor.health.states = s.monitor.publishedEnabled
    · rw [step_poll_of_eq htick (h.wired.idle htick) heq]
      exact h
    · rw [step_poll_of_ne h.wired htick heq] at hwired ⊢
      refine ⟨hwired, h.probed, h.count, ?_, h.entries⟩
      rintro enabled entries ⟨⟩ i hi hzero
      have hlt : i < s.monitor.health.states.length := by
        rw [h.wired.covers.length_states]
        omega
      have hst := List.getElem?_eq_getElem hlt
      have hgetD := List.getD_eq_getElem _ (default : BackendState) hlt
      rw [getD_enabledFlags, upFlag, hgetD] at hzero
      by_cases hunknown : s.monitor.health.states[i].status = .unknown
      · exact hprobed htick heq i (by omega) (hgetD ▸ hunknown)
      · refine (h.probed.states i _ hst hunknown).resolve_left fun hup => ?_
        rw [if_pos hup] at hzero
        exact absurd hzero (by decide)
  | some t =>
    obtain ⟨enabled, entries⟩ := t
    obtain ⟨-, hentries, hcall⟩ := h.wired.tick enabled entries htick
    have hstep := h.publishStep _ (hentries ▸ hcall) (h.tick enabled entries htick)
    rw [← hentries] at hstep
    cases hidle : (Cerebellum.publishStep s.view s.monitor.call entries).2.isIdle with
    | true =>
      rw [step_poll_of_isIdle htick hidle] at hwired ⊢
      exact ⟨hwired, h.probed, hstep.1, fun _ _ hnone => absurd hnone.symm (Option.some_ne_none _),
        hstep.2⟩
    | false =>
      rw [step_poll_of_not_isIdle htick hidle] at hwired ⊢
      exact ⟨hwired, h.probed, hstep.1, h.tick, hstep.2⟩

theorem Blamed.step (h : s.Blamed backends) (move : Move)
    (hprobed : move.isPoll = true → s.monitor.tick = none →
      enabledFlags s.monitor.health.states ≠ s.monitor.publishedEnabled → s.UnknownFailed) :
    (s.step backends move).Blamed backends := by
  cases move with
  | health healthy nowNs => exact h.health healthy nowNs
  | poll => exact h.poll (hprobed rfl)
  | seed =>
    have hstep := h.publishStep (fun _ => 1) h.wired.seeding
      fun _ _ hzero => absurd hzero (by decide)
    exact ⟨h.wired.step _, h.probed, hstep.1, h.tick, hstep.2⟩
  | stopDataplane => exact ⟨h.wired.step _, h.probed, h.count, h.tick, h.entries⟩
  | restartControlplane =>
    exact ⟨h.wired.step _, HealthChecker.probed_new _ backends, h.count,
      fun _ _ hnone => absurd hnone.symm (Option.some_ne_none _), h.entries⟩

theorem Blamed.run (h : s.Blamed backends) {moves : List Move}
    (hprobed : s.ProbedFirst backends moves) : (s.run backends moves).Blamed backends := by
  induction moves generalizing s with
  | nil => exact h
  | cons move moves ih => exact ih (h.step move hprobed.1) hprobed.2

/-- Only a failed probe disables a backend. The control plane starts on a view that is seeded with
all backends enabled. In every run of it, with any outcomes of the probes, any restarts of either
plane, and in which every tick that publishes begins when each backend that is still `kUnknown` has
failed a probe: a backend is disabled in the view only if a probe of it failed. -/
theorem disabled_only_after_failed_probe (backends : List BackendInfo) (view : ControlView)
    (hview : view.content = clamp (seedEntries backends)) (moves : List Move)
    (hprobed : (start backends view).ProbedFirst backends moves) (i : ℕ) (entry : ControlBackend)
    (hentry : ((start backends view).run backends moves).view.content.1[i]? = some entry)
    (hdisabled : entry.enabled = 0) :
    ((start backends view).run backends moves).failed i = true := by
  have h := (blamed_start hview).run hprobed
  obtain ⟨hlt, hget⟩ := List.getElem?_eq_some_iff.mp hentry
  simp only [ControlView.content, List.length_map, List.length_range] at hlt
  simp only [ControlView.content, List.getElem_map, List.getElem_range] at hget
  exact h.entries i (h.count ▸ hlt) (hget ▸ hdisabled)

/-- A view that is seeded with one backend. -/
def oneSeeded : ControlView where
  seq := 2
  count := 1
  backends := fun _ => { ip := 0x0A000202, port := 8080, enabled := 1 }

/-- A tick after a first round of probes in which the backend fails. -/
theorem tick_after_round_blames_backend :
    ((start oneBackend oneSeeded).run oneBackend
        (oneDown ++ List.replicate 8 .poll)).view.content.1 =
        [{ ip := 0x0A000202, port := 8080, enabled := 0 }] ∧
      ((start oneBackend oneSeeded).run oneBackend
        (oneDown ++ List.replicate 8 .poll)).failed 0 = true := by
  refine ⟨by decide, ?_⟩
  exact disabled_only_after_failed_probe oneBackend oneSeeded (by decide)
    (oneDown ++ List.replicate 8 .poll) (by decide) 0
    { ip := 0x0A000202, port := 8080, enabled := 0 } (by decide) rfl

/-- The first tick of a control plane that has not probed its backend yet: the backend is disabled,
and no probe of it failed. -/
theorem startup_disables_unprobed_backend :
    let s := (start oneBackend oneSeeded).run oneBackend (List.replicate 8 .poll)
    oneSeeded.content = clamp (seedEntries oneBackend) ∧
      s.view.content.1 = [{ ip := 0x0A000202, port := 8080, enabled := 0 }] ∧
      s.failed 0 = false := by
  decide

end Deployment

end Cerebellum
