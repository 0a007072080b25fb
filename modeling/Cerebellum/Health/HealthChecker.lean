import Cerebellum.Lb.BackendPool
import Mathlib.Data.List.Basic

/-!
# The health checker

`HealthChecker` (`health/health_checker.cpp`) keeps a state for each configured backend. A round of
`RunLoop` copies the states, probes the backends of the copy one after the other, and puts the copy
in the place of the states, so that `States` shows the outcomes of a round only when the round is
over. A probe is an outcome given from outside, and so is the clock.

## Main definitions

* `Cerebellum.HealthStatus`, `Cerebellum.BackendState`, `Cerebellum.HealthChecker`.
* `Cerebellum.HealthChecker.step`: the next step of `RunLoop`.
* `Cerebellum.HealthChecker.Probed`: a property of all states that were put in place by a probe.

## Main results

* `Cerebellum.HealthChecker.Covers.step`: the states are those of the configured backends.
* `Cerebellum.HealthChecker.Probed.step`: the induction rule for what a probe leaves behind.
-/

namespace Cerebellum

/-- `HealthStatus`. -/
inductive HealthStatus
  | unknown
  | up
  | down
  | draining
deriving DecidableEq, Inhabited

/-- `BackendState`. -/
structure BackendState where
  info : BackendInfo := {}
  status : HealthStatus := .unknown
  failCount : UInt32 := 0
  successCount : UInt32 := 0
  lastCheckNs : UInt64 := 0
deriving DecidableEq, Inhabited

/-- The body of the loop of a round: what a probe leaves in the state. -/
def BackendState.probed (state : BackendState) (healthy : Bool) (nowNs : UInt64) : BackendState :=
  { state with
    status := if healthy then .up else .down
    successCount := if healthy then state.successCount + 1 else state.successCount
    failCount := if healthy then state.failCount else state.failCount + 1
    lastCheckNs := nowNs }

/-- The states that `States` returns and, during a round, the copy of the round and the number of
backends probed so far. -/
structure HealthChecker where
  states : List BackendState
  round : Option (List BackendState × ℕ) := none

namespace HealthChecker

/-- `HealthChecker::HealthChecker`. -/
def new (backends : List BackendInfo) : HealthChecker where
  states := backends.map fun backend => { info := backend }

/-- The backend that the next step of `RunLoop` probes, if it is a probe. -/
def probing (h : HealthChecker) : Option ℕ :=
  h.round.bind fun r => if r.2 < r.1.length then some r.2 else none

/-- The next step of `RunLoop`: to copy the states, to probe the next backend of the copy with the
given outcome, or to put the copy in place. -/
def step (h : HealthChecker) (healthy : Bool) (nowNs : UInt64) : HealthChecker :=
  match h.round with
  | none => { h with round := some (h.states, 0) }
  | some (snapshot, i) =>
    if i < snapshot.length then
      { h with round := some (snapshot.modify i (·.probed healthy nowNs), i + 1) }
    else { states := snapshot }

/-- The states, and those of the copy, are states of the configured backends, in order. -/
structure Covers (backends : List BackendInfo) (h : HealthChecker) : Prop where
  states : h.states.map (·.info) = backends
  round : ∀ snapshot i, h.round = some (snapshot, i) → snapshot.map (·.info) = backends

variable {backends : List BackendInfo} {h : HealthChecker}

theorem covers_new (backends : List BackendInfo) : Covers backends (new backends) :=
  ⟨by simp [new, Function.comp_def], fun _ _ h => nomatch h⟩

/-- A probe does not change the configuration of a backend. -/
theorem map_info_modify_probed (snapshot : List BackendState) (i : ℕ) (healthy : Bool)
    (nowNs : UInt64) :
    (snapshot.modify i (·.probed healthy nowNs)).map (·.info) = snapshot.map (·.info) := by
  apply List.ext_getElem?
  intro j
  simp only [List.getElem?_map, List.getElem?_modify]
  by_cases hij : i = j
  · subst hij
    cases snapshot[i]? <;> simp [BackendState.probed]
  · cases snapshot[j]? <;> simp [hij]

theorem Covers.step (hc : Covers backends h) (healthy : Bool) (nowNs : UInt64) :
    Covers backends (h.step healthy nowNs) := by
  unfold HealthChecker.step
  split
  · refine ⟨hc.states, ?_⟩
    rintro snapshot i ⟨⟩
    exact hc.states
  · rename_i snapshot i hround
    have hsnapshot := hc.round snapshot i hround
    split
    · refine ⟨hc.states, ?_⟩
      rintro snapshot' i' ⟨⟩
      exact (map_info_modify_probed ..).trans hsnapshot
    · exact ⟨hsnapshot, fun _ _ h => nomatch h⟩

theorem Covers.length_states (hc : Covers backends h) : h.states.length = backends.length := by
  rw [← hc.states, List.length_map]

/-- Each state, and each one in the copy, is unprobed or has the property. -/
structure Probed (P : ℕ → BackendState → Prop) (h : HealthChecker) : Prop where
  states : ∀ i st, h.states[i]? = some st → st.status ≠ .unknown → P i st
  round : ∀ snapshot n, h.round = some (snapshot, n) →
    ∀ i st, snapshot[i]? = some st → st.status ≠ .unknown → P i st

theorem probed_new (P : ℕ → BackendState → Prop) (backends : List BackendInfo) :
    Probed P (new backends) := by
  refine ⟨fun i st hst hne => ?_, fun _ _ h => nomatch h⟩
  simp only [new, List.getElem?_map, Option.map_eq_some_iff] at hst
  obtain ⟨backend, -, rfl⟩ := hst
  exact absurd rfl hne

theorem Probed.mono {P Q : ℕ → BackendState → Prop} (hp : Probed P h)
    (hPQ : ∀ i st, P i st → Q i st) : Probed Q h :=
  ⟨fun i st hst hne => hPQ i st (hp.states i st hst hne),
    fun snapshot n hround i st hst hne => hPQ i st (hp.round snapshot n hround i st hst hne)⟩

/-- A step keeps the property if the probe that it makes, if any, leaves it behind. -/
theorem Probed.step {P : ℕ → BackendState → Prop} (hp : Probed P h) {healthy : Bool}
    {nowNs : UInt64}
    (hprobe : ∀ i st, h.probing = some i → P i (BackendState.probed st healthy nowNs)) :
    Probed P (h.step healthy nowNs) := by
  unfold HealthChecker.step
  split
  · refine ⟨hp.states, ?_⟩
    rintro snapshot n ⟨⟩
    exact hp.states
  · rename_i snapshot n hround
    have hsnapshot := hp.round snapshot n hround
    split
    · rename_i hlt
      have hprobing : h.probing = some n := by
        rw [probing, hround, Option.bind_some, if_pos hlt]
      refine ⟨hp.states, ?_⟩
      rintro snapshot' n' ⟨⟩ i st hst hne
      rw [List.getElem?_modify] at hst
      obtain ⟨st', hst', hstep⟩ := Option.map_eq_some_iff.mp hst
      by_cases hni : n = i
      · rw [if_pos hni] at hstep
        exact hni ▸ hstep ▸ hprobe n st' hprobing
      · rw [if_neg hni] at hstep
        exact hsnapshot i st (hstep ▸ hst') hne
    · exact ⟨hsnapshot, fun _ _ h => nomatch h⟩

end HealthChecker

end Cerebellum
