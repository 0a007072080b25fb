import Cerebellum.Monitor.MonitorComponent

/-!
# The control view after a tick

A tick of the poller that no other publish overlaps should leave in the control view the configured
backends, each enabled if and only if its state in the snapshot of the tick is `kUp`. A tick that
publishes does so. A tick that finds the flags it published last does nothing, although the data
plane may have been restarted since, and its `SeedControl` stores every backend as enabled: then the
view shows an entry of a backend that is not up as enabled, and keeps showing it until the flags
change.

The invariant ties the entries of the view to the memory of the component: an entry that the
component stored last carries the flag of the tick under way, if the tick has reached it, and
otherwise the flag that is remembered.

## Main definitions

* `Cerebellum.MonitorComponent.shown`: the flag that the component stored last into an entry.
* `Cerebellum.Deployment.Tracked`: the invariant.
* `Cerebellum.Deployment.Move.isControl`, `Cerebellum.Deployment.Move.isPoll`.

## Main results

* `Cerebellum.Deployment.Tracked.run`: the invariant holds in every run.
* `Cerebellum.Deployment.tick_agrees_iff`: when a tick leaves the view in agreement with health.
* `Cerebellum.Deployment.restart_reenables_down_backend`: a run in which it does not.
-/

namespace Cerebellum

/-- The entry for backend `j` with a flag. -/
def controlEntry (backends : List BackendInfo) (j : ℕ) (enabled : UInt8) : ControlBackend :=
  (controlEntries backends fun _ => enabled).getD j default

theorem getD_controlEntries (backends : List BackendInfo) (enabled : ℕ → UInt8) (j : ℕ) :
    (controlEntries backends enabled).getD j default = controlEntry backends j (enabled j) := by
  simp only [controlEntry, controlEntries, List.getD_eq_getElem?_getD, List.getElem?_mapIdx]

theorem enabled_controlEntry {backends : List BackendInfo} {j : ℕ} (hj : j < backends.length)
    (enabled : UInt8) : (controlEntry backends j enabled).enabled = enabled := by
  simp [controlEntry, controlEntries, List.getD_eq_getElem?_getD, hj]

/-- The flag for the state of backend `i`. -/
def upFlag (states : List BackendState) (i : ℕ) : UInt8 :=
  if (states.getD i default).status = .up then 1 else 0

theorem getElem?_enabledFlags {states : List BackendState} {i : ℕ} (hi : i < states.length) :
    (enabledFlags states)[i]? = some (upFlag states i) := by
  rw [enabledFlags, List.getElem?_map, List.getElem?_eq_getElem hi, upFlag,
    List.getD_eq_getElem _ _ hi]
  rfl

theorem getD_enabledFlags (states : List BackendState) (i : ℕ) :
    (enabledFlags states).getD i 0 = upFlag states i := by
  rcases lt_or_ge i states.length with hi | hi
  · rw [List.getD_eq_getElem?_getD, getElem?_enabledFlags hi]
    rfl
  · rw [upFlag, List.getD_eq_default _ _ hi, List.getD_eq_default]
    · rfl
    · rw [enabledFlags, List.length_map]
      exact hi

/-- The flag that the component stored last into entry `j`, as far as it knows. -/
def MonitorComponent.shown (m : MonitorComponent) (j : ℕ) : Option UInt8 :=
  if j < m.call.written then m.tick.bind fun t => t.1[j]? else m.publishedEnabled[j]?

namespace Deployment

/-- The entries of the view are those of the two publishers, each with the flag that its last
publisher gave it. -/
structure Tracked (backends : List BackendInfo) (s : Deployment) : Prop where
  wired : s.Wired backends
  count : s.view.count = 0 ∨ s.view.count = min backends.length kMaxBackends
  cached : s.monitor.publishedEnabled ≠ [] → s.view.count = min backends.length kMaxBackends
  seeded : ∀ j < min backends.length kMaxBackends, s.seeded j = true →
    s.view.backends j = controlEntry backends j 1
  shown : ∀ j < min backends.length kMaxBackends, s.seeded j = false →
    ∀ f, s.monitor.shown j = some f → s.view.backends j = controlEntry backends j f

variable {backends : List BackendInfo} {s : Deployment}

theorem tracked_start (backends : List BackendInfo) : (start backends {}).Tracked backends where
  wired := wired_start backends {}
  count := Or.inl rfl
  cached := fun hne => absurd rfl hne
  seeded := fun _ _ h => Bool.noConfusion h
  shown := fun _ _ _ _ h => nomatch h

/-! ### Preservation -/

/-- The step of a call in which the component stores an entry or goes on to the next one. -/
theorem Tracked.poll_of_not_isIdle (h : s.Tracked backends) {enabled : List UInt8}
    {entries : List ControlBackend} (htick : s.monitor.tick = some (enabled, entries))
    (hidle : (publishStep s.view s.monitor.call entries).2.isIdle = false) :
    (s.step backends .poll).Tracked backends := by
  have hwired := h.wired.step .poll
  obtain ⟨-, hentries, hcall⟩ := h.wired.tick enabled entries htick
  have hlength : entries.length = backends.length := by
    rw [hentries, length_controlEntries]
  have hcount := hcall.count_publishStep
  have hbackends := hcall.backends_publishStep
  have hwritten := fun {j} => hcall.written_publishStep (j := j)
  rw [hlength] at hcount hwritten
  rw [step_poll_of_not_isIdle htick hidle] at hwired ⊢
  refine ⟨hwired, ?_, fun hne => ?_, fun j hj hseeded => ?_, fun j hj hseeded f hshown => ?_⟩
  · rcases hcount with hcount | hcount
    · exact hcount ▸ h.count
    · exact Or.inr hcount
  · exact hcount.elim (fun hcount => hcount.trans (h.cached hne)) id
  · simp only [recordStore] at hseeded
    split at hseeded
    · exact Bool.noConfusion hseeded
    · rename_i hstores
      exact (hbackends j).trans ((if_neg hstores).trans (h.seeded j hj hseeded))
  · simp only [recordStore] at hseeded
    simp only [MonitorComponent.shown, hwritten hj hidle] at hshown
    split at hseeded
    · rename_i hstores
      rw [if_pos (Or.inr hstores), htick, Option.bind_some] at hshown
      refine (hbackends j).trans ((if_pos hstores).trans ?_)
      rw [hentries, getD_controlEntries, List.getD_eq_getElem?_getD, hshown]
      rfl
    · rename_i hstores
      refine (hbackends j).trans ((if_neg hstores).trans (h.shown j hj hseeded f ?_))
      simpa only [MonitorComponent.shown, hstores, or_false] using hshown

/-- The step that ends the call, after which the flags are remembered. -/
theorem Tracked.poll_of_isIdle (h : s.Tracked backends) {enabled : List UInt8}
    {entries : List ControlBackend} (htick : s.monitor.tick = some (enabled, entries))
    (hidle : (publishStep s.view s.monitor.call entries).2.isIdle = true) :
    (s.step backends .poll).Tracked backends := by
  have hwired := h.wired.step .poll
  obtain ⟨-, hentries, hcall⟩ := h.wired.tick enabled entries htick
  have hlength : entries.length = backends.length := by
    rw [hentries, length_controlEntries]
  obtain ⟨hstores, hwritten, hcount⟩ := hcall.of_isIdle_publishStep hidle
  have hcount' : (publishStep s.view s.monitor.call entries).1.count =
      min backends.length kMaxBackends := by
    rcases hcall.count_publishStep with hsame | hnew
    · rw [hsame, hcount, hlength]
    · rw [hnew, hlength]
  have hbackends (j : ℕ) : (publishStep s.view s.monitor.call entries).1.backends j =
      s.view.backends j := by
    rw [hcall.backends_publishStep, hstores]
    exact if_neg (Option.some_ne_none j).symm
  have hrecord (j : ℕ) : recordStore s.seeded s.monitor.call false j = s.seeded j := by
    rw [recordStore, hstores]
    exact if_neg (Option.some_ne_none j).symm
  rw [step_poll_of_isIdle htick hidle] at hwired ⊢
  refine ⟨hwired, Or.inr hcount', fun _ => hcount', fun j hj hseeded => ?_,
    fun j hj hseeded f hshown => ?_⟩
  · exact (hbackends j).trans (h.seeded j hj ((hrecord j).symm.trans hseeded))
  · refine (hbackends j).trans (h.shown j hj ((hrecord j).symm.trans hseeded) f ?_)
    have hlt : j < s.monitor.call.written := hwritten ▸ lt_of_lt_of_le hj (Nat.min_le_right _ _)
    rw [MonitorComponent.shown, if_pos hlt, htick, Option.bind_some]
    exact hshown

theorem Tracked.poll (h : s.Tracked backends) : (s.step backends .poll).Tracked backends := by
  cases htick : s.monitor.tick with
  | none =>
    by_cases heq : enabledFlags s.monitor.health.states = s.monitor.publishedEnabled
    · rw [step_poll_of_eq htick (h.wired.idle htick) heq]
      exact h
    · have hwired := h.wired.step .poll
      rw [step_poll_of_ne h.wired htick heq] at hwired ⊢
      refine ⟨hwired, h.count, h.cached, h.seeded, fun j hj hseeded f hshown => ?_⟩
      -- the call has stored nothing yet
      refine h.shown j hj hseeded f ?_
      simpa only [MonitorComponent.shown, h.wired.idle htick, Publisher.written,
        Nat.not_lt_zero, if_false] using hshown
  | some t =>
    obtain ⟨enabled, entries⟩ := t
    cases hidle : (publishStep s.view s.monitor.call entries).2.isIdle with
    | true => exact h.poll_of_isIdle htick hidle
    | false => exact h.poll_of_not_isIdle htick hidle

theorem Tracked.seed (h : s.Tracked backends) : (s.step backends .seed).Tracked backends := by
  have hcount := h.wired.seeding.count_publishStep
  have hbackends := h.wired.seeding.backends_publishStep
  rw [length_seedEntries] at hcount
  refine ⟨h.wired.step .seed, ?_, fun hne => ?_, fun j hj hseeded => ?_,
    fun j hj hseeded f hshown => ?_⟩
  · rcases hcount with hcount | hcount
    · exact hcount.symm ▸ h.count
    · exact Or.inr hcount
  · exact hcount.elim (fun hcount => hcount.trans (h.cached hne)) id
  · simp only [step, recordStore] at hseeded
    split at hseeded
    · rename_i hstores
      refine (hbackends j).trans ((if_pos hstores).trans ?_)
      rw [seedEntries, getD_controlEntries]
    · rename_i hstores
      exact (hbackends j).trans ((if_neg hstores).trans (h.seeded j hj hseeded))
  · simp only [step, recordStore] at hseeded
    split at hseeded
    · exact Bool.noConfusion hseeded
    · rename_i hstores
      exact (hbackends j).trans ((if_neg hstores).trans (h.shown j hj hseeded f hshown))

theorem Tracked.step (h : s.Tracked backends) (move : Move) :
    (s.step backends move).Tracked backends := by
  cases move with
  | health healthy nowNs =>
    exact ⟨h.wired.step _, h.count, h.cached, h.seeded, h.shown⟩
  | poll => exact h.poll
  | seed => exact h.seed
  | stopDataplane => exact ⟨h.wired.step _, h.count, h.cached, h.seeded, h.shown⟩
  | restartControlplane =>
    exact ⟨h.wired.step _, h.count, fun hne => absurd rfl hne, h.seeded,
      fun _ _ _ _ hnone => nomatch hnone⟩

/-- The invariant holds in every run. -/
theorem Tracked.run (h : s.Tracked backends) (moves : List Move) :
    (s.run backends moves).Tracked backends := by
  induction moves generalizing s with
  | nil => exact h
  | cons move moves ih => exact ih (h.step move)

/-! ### A tick that nothing overlaps -/

/-- The moves of the control plane while it keeps running. -/
def Move.isControl : Move → Bool
  | .health _ _ | .poll => true
  | _ => false

/-- The moves of the poller. -/
def Move.isPoll : Move → Bool
  | .poll => true
  | _ => false

/-- The number of steps of the next tick after its first one. -/
def pollsLeft (backends : List BackendInfo) (s : Deployment) : ℕ :=
  if enabledFlags s.monitor.health.states = s.monitor.publishedEnabled then 0
  else Segment.publishLength (seedEntries backends)

/-- The health checker alone changes neither the view nor the tick. -/
theorem run_of_no_poll (backends : List BackendInfo) (s : Deployment) {moves : List Move}
    (hcontrol : ∀ move ∈ moves, move.isControl = true)
    (hpolls : moves.countP Move.isPoll = 0) :
    (s.run backends moves).view = s.view ∧ (s.run backends moves).seeded = s.seeded ∧
      (s.run backends moves).monitor.tick = s.monitor.tick ∧
      (s.run backends moves).monitor.publishedEnabled = s.monitor.publishedEnabled := by
  induction moves generalizing s with
  | nil => exact ⟨rfl, rfl, rfl, rfl⟩
  | cons move moves ih =>
    cases move with
    | health healthy nowNs =>
      exact ih (s.step backends (.health healthy nowNs))
        (fun m hm => hcontrol m (List.mem_cons_of_mem _ hm)) hpolls
    | poll => exact absurd hpolls (by simp [Move.isPoll])
    | seed => exact Bool.noConfusion (hcontrol _ List.mem_cons_self)
    | stopDataplane => exact Bool.noConfusion (hcontrol _ List.mem_cons_self)
    | restartControlplane => exact Bool.noConfusion (hcontrol _ List.mem_cons_self)

/-- A call that nothing overlaps ends after its last step, with all entries stored by it. -/
theorem run_of_tick (h : s.Wired backends) {enabled : List UInt8} {entries : List ControlBackend}
    (htick : s.monitor.tick = some (enabled, entries))
    (hunseeded : ∀ j < min backends.length kMaxBackends, j < s.monitor.call.written →
      s.seeded j = false)
    {moves : List Move} (hcontrol : ∀ move ∈ moves, move.isControl = true)
    (hpolls : moves.countP Move.isPoll =
      s.monitor.call.stepsLeft (min backends.length kMaxBackends)) :
    (s.run backends moves).monitor.tick = none ∧
      (s.run backends moves).monitor.publishedEnabled = enabled ∧
      ∀ j < min backends.length kMaxBackends, (s.run backends moves).seeded j = false := by
  induction moves generalizing s with
  | nil => exact absurd hpolls (Publisher.stepsLeft_pos _ _).ne
  | cons move moves ih =>
    have hrest : ∀ m ∈ moves, m.isControl = true :=
      fun m hm => hcontrol m (List.mem_cons_of_mem _ hm)
    cases move with
    | health healthy nowNs => exact ih (h.step (.health healthy nowNs)) htick hunseeded hrest hpolls
    | poll =>
      obtain ⟨-, hentries, hcall⟩ := h.tick enabled entries htick
      have hlength : entries.length = backends.length := by
        rw [hentries, length_controlEntries]
      have hleft := hcall.stepsLeft_publishStep
      have hwritten := fun {j} => hcall.written_publishStep (j := j)
      rw [hlength] at hleft hwritten
      rw [List.countP_cons_of_pos rfl] at hpolls
      have hwired := h.step .poll
      change (((s.step backends .poll).run backends moves).monitor.tick = none ∧
        ((s.step backends .poll).run backends moves).monitor.publishedEnabled = enabled ∧
        ∀ j < _, ((s.step backends .poll).run backends moves).seeded j = false)
      cases hidle : (publishStep s.view s.monitor.call entries).2.isIdle with
      | true =>
        rw [hidle, if_pos rfl] at hleft
        obtain ⟨hstores, hall, -⟩ := hcall.of_isIdle_publishStep hidle
        obtain ⟨-, hseeded, hnone, henabled⟩ :=
          run_of_no_poll backends (s.step backends .poll) hrest (by omega)
        rw [hseeded, hnone, henabled, step_poll_of_isIdle htick hidle]
        refine ⟨rfl, rfl, fun j hj => ?_⟩
        have hlt : j < s.monitor.call.written := hall ▸ lt_of_lt_of_le hj (Nat.min_le_right _ _)
        simp only [recordStore, hstores, reduceCtorEq, if_false]
        exact hunseeded j hj hlt
      | false =>
        rw [hidle] at hleft
        simp only [Bool.false_eq_true, if_false] at hleft
        rw [step_poll_of_not_isIdle htick hidle] at hwired ⊢
        refine ih hwired htick (fun j hj hlt => ?_) hrest (by simpa using by omega)
        simp only [recordStore]
        split
        · rfl
        · rename_i hstores
          exact hunseeded j hj (((hwritten hj hidle).mp hlt).resolve_right hstores)
    | seed => exact Bool.noConfusion (hcontrol _ List.mem_cons_self)
    | stopDataplane => exact Bool.noConfusion (hcontrol _ List.mem_cons_self)
    | restartControlplane => exact Bool.noConfusion (hcontrol _ List.mem_cons_self)

/-- Between two ticks, when the remembered flags are those of some states, the view agrees with the
states if and only if `SeedControl` was not the last to store the entry of a backend that is not
up. -/
theorem Tracked.content_eq_iff (h : s.Tracked backends) (hbetween : s.monitor.tick = none)
    {states : List BackendState} (hlength : states.length = backends.length)
    (hflags : s.monitor.publishedEnabled = enabledFlags states) :
    s.view.content = clamp (controlEntries backends (upFlag states)) ↔
      ∀ i < min backends.length kMaxBackends,
        (states.getD i default).status ≠ .up → s.seeded i = false := by
  have hshown (j : ℕ) (hj : j < min backends.length kMaxBackends) :
      s.monitor.shown j = some (upFlag states j) := by
    have hlt : j < states.length := by omega
    rw [MonitorComponent.shown, h.wired.idle hbetween, hflags]
    exact getElem?_enabledFlags hlt
  constructor
  · intro hcontent i hi hdown
    by_contra hseeded
    have hentry := ControlView.backends_eq_of_content_eq hcontent
      (j := i) (by rwa [length_controlEntries])
    rw [getD_controlEntries, h.seeded i hi (by simpa using hseeded)] at hentry
    have henabled := congrArg ControlBackend.enabled hentry
    have hlt : i < backends.length := by omega
    rw [enabled_controlEntry hlt, enabled_controlEntry hlt, upFlag, if_neg hdown] at henabled
    exact absurd henabled (by decide)
  · intro hseeded
    have hcount : s.view.count =
        min (controlEntries backends (upFlag states)).length kMaxBackends := by
      rw [length_controlEntries]
      rcases h.count with hzero | hcount
      · -- nothing was ever published, so there is nothing to publish
        by_contra hne
        refine hne (h.cached fun hnil => ?_)
        rw [hflags, enabledFlags, List.map_eq_nil_iff] at hnil
        rw [← hlength, hnil] at hne
        exact hne hzero
      · exact hcount
    refine ControlView.content_eq_clamp hcount fun j hj => ?_
    rw [hcount, length_controlEntries] at hj
    rw [getD_controlEntries]
    cases hs : s.seeded j with
    | false => exact h.shown j hj hs _ (hshown j hj)
    | true =>
      have hup : (states.getD j default).status = .up := by
        by_contra hdown
        exact Bool.noConfusion (hs.symm.trans (hseeded j hj hdown))
      rw [upFlag, if_pos hup]
      exact h.seeded j hj hs

/-- The control view agrees with health after a tick. In every run of the health checker, the poller
and any number of starts of the data plane on one segment, and for every next tick of the poller
during which only the control plane moves: the tick ends, and it leaves in the view the configured
backends in order, with `enabled = 1` for those that are `kUp` in the snapshot of the tick and
`enabled = 0` for the others, if and only if its flags are not the ones published last, or
`SeedControl` was not the last to store the entry of a backend that is not up. -/
theorem tick_agrees_iff (backends : List BackendInfo) (moves rest : List Move)
    (hbetween : ((start backends {}).run backends moves).monitor.tick = none)
    (hcontrol : ∀ move ∈ rest, move.isControl = true)
    (hpolls : rest.countP Move.isPoll =
      ((start backends {}).run backends moves).pollsLeft backends) :
    let s := (start backends {}).run backends moves
    let states := s.monitor.health.states
    let s' := (s.step backends .poll).run backends rest
    s'.monitor.tick = none ∧
      (s'.view.content = clamp (controlEntries backends (upFlag states)) ↔
        enabledFlags states ≠ s.monitor.publishedEnabled ∨
          ∀ i < min backends.length kMaxBackends,
            (states.getD i default).status ≠ .up → s.seeded i = false) := by
  intro s states s'
  have htracked : s.Tracked backends := (tracked_start backends).run moves
  have hlength : states.length = backends.length := htracked.wired.covers.length_states
  have hlast : s'.Tracked backends := (htracked.step .poll).run rest
  by_cases heq : enabledFlags states = s.monitor.publishedEnabled
  · have hstep : s.step backends .poll = s :=
      step_poll_of_eq hbetween (htracked.wired.idle hbetween) heq
    obtain ⟨hview, -, htick, -⟩ := run_of_no_poll backends s hcontrol
      (hpolls.trans (if_pos heq))
    have hview' : s'.view = s.view := by rw [← hview, ← hstep]
    have htick' : s'.monitor.tick = s.monitor.tick := by rw [← htick, ← hstep]
    refine ⟨htick'.trans hbetween, ?_⟩
    rw [hview', htracked.content_eq_iff hbetween hlength heq.symm]
    simp only [heq, ne_eq, not_true_eq_false, false_or]
  · have hstep := step_poll_of_ne htracked.wired hbetween heq
    have hidle : (s.step backends .poll).monitor.call = .idle := by
      rw [hstep]
      exact htracked.wired.idle hbetween
    have hsteps : rest.countP Move.isPoll =
        (s.step backends .poll).monitor.call.stepsLeft (min backends.length kMaxBackends) := by
      rw [hidle, ← length_seedEntries backends]
      exact hpolls.trans (if_neg heq)
    obtain ⟨hnone, henabled, hunseeded⟩ := run_of_tick (htracked.wired.step .poll)
      (congrArg (fun d : Deployment => d.monitor.tick) hstep)
      (fun j _ hlt => absurd hlt (by rw [hidle]; exact Nat.not_lt_zero j)) hcontrol hsteps
    refine ⟨hnone, ?_⟩
    rw [hlast.content_eq_iff hnone hlength henabled]
    exact iff_of_true (fun i hi _ => hunseeded i hi) (Or.inl heq)

/-- A configuration with one backend. -/
def oneBackend : List BackendInfo := [{ ip := 0x0A000202, port := 8080 }]

/-- A round of probes in which the only backend fails. -/
def oneDown : List Move := [.health false 1, .health false 2, .health false 3]

/-- The first tick publishes the backend as disabled. -/
theorem first_tick_disables_down_backend :
    ((((start oneBackend {}).run oneBackend oneDown).step oneBackend .poll).run oneBackend
      (List.replicate 7 .poll)).view.content =
        clamp [{ ip := 0x0A000202, port := 8080, enabled := 0 }] := by
  refine ((tick_agrees_iff oneBackend oneDown (List.replicate 7 .poll) rfl ?_ rfl).2.mpr
    (Or.inl (by decide)))
  intro move hmove
  rw [List.eq_of_mem_replicate hmove]
  rfl

/-- The data plane is restarted after that tick, and the next tick finds its flags unchanged: the
view shows the backend as enabled although it is down, and no publish overlaps the tick. -/
theorem restart_reenables_down_backend :
    let s := (start oneBackend {}).run oneBackend
      (oneDown ++ List.replicate 8 .poll ++ List.replicate 7 .seed)
    s.monitor.tick = none ∧ s.seeding.isIdle = true ∧ s.pollsLeft oneBackend = 0 ∧
      s.monitor.health.states.map (·.status) = [.down] ∧
      (s.step oneBackend .poll).view.content.1 =
        [{ ip := 0x0A000202, port := 8080, enabled := 1 }] ∧
      (s.step oneBackend .poll).view.content ≠
        clamp (controlEntries oneBackend (upFlag s.monitor.health.states)) := by
  decide

end Deployment

end Cerebellum
