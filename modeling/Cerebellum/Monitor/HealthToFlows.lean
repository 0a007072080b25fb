import Cerebellum.Lib.Completions
import Cerebellum.Monitor.Service

/-!
# New flows follow the probes

A new flow goes to a backend only if the pool of its frame lists the backend as enabled. Every pool
but the first was built from a list that a tick published, so the backend was `kUp` in the states
that the tick took, and a probe of it had succeeded.

In the other direction, when from some moment on all probes of a backend have the same outcome, then
after two rounds of probes, two ticks and two calls of `ReadControl`, each two in this order,
`pool_rcu` lists the backend according to this outcome, and so does the pool of each frame that is
begun later. A worker then opens no flow to a backend that fails its probes. Two of a kind are
counted because the first may have begun too early; nothing is assumed about how the parts
interleave.

## Main definitions

* `Cerebellum.Service.OpensOnlyReported`: what is known of the backends that get new flows.
* `Cerebellum.Service.Steady`: in the run, all probes of a backend have the same outcome.
* `Cerebellum.Service.Follows`: the pools list the backend according to its probes.

## Main results

* `Cerebellum.Service.opensOnlyReported_run`: the backends that get new flows.
* `Cerebellum.Service.follows_probes`: the pools agree with the probes in the end.
-/

namespace Cerebellum

open Completions Relation

namespace Service

variable {bits : ℕ} {hash : FlowKey → UInt32} {backends : List BackendInfo} {s s' : Service bits}
  {view₀ : ControlView} {i : ℕ} {up : Bool}

/-! ### Who gets new flows -/

/-- Whichever worker handles whichever packet next: if a flow is opened to a slot, then the pool of
the frame is the first one, or else the states from which it was published had the backend of the
slot as `kUp`, and a probe of it had succeeded. -/
def OpensOnlyReported (hash : FlowKey → UInt32) (backends : List BackendInfo) (s : Service bits) :
    Prop :=
  ∀ (w : ℕ) (m : PacketMeta) (idx : UInt8),
    ((s.step hash backends (.packet w m)).workers w).lb.backendFlows idx ≠
        (s.workers w).lb.backendFlows idx →
      ∃ pool, (s.workers w).pool = some pool ∧ idx ∈ pool.active ∧
        (pool = s.initial ∨ ∃ states ∈ s.origins,
          pool = buildPool (clamp (publishedEntries states)) ∧
          (states.getD idx.toNat default).status = .up ∧ s.succeeded idx.toNat = true)

/-- The entry for a backend. -/
theorem getElem?_publishedEntries {states : List BackendState} {st : BackendState}
    (hst : states[i]? = some st) :
    (publishedEntries states)[i]? =
      some { ip := st.info.ip, port := st.info.port, mac := st.info.mac,
             enabled := upFlag states i } := by
  simp only [publishedEntries, controlEntries, List.getElem?_mapIdx, List.getElem?_map, hst,
    Option.map_some, getD_enabledFlags]

/-- A slot of a pool that was built from the states is enabled if its backend was up. -/
theorem mem_active_buildPool {states : List BackendState} {idx : UInt8}
    (hmem : idx ∈ (buildPool (clamp (publishedEntries states))).active) :
    ∃ st, states[idx.toNat]? = some st ∧ st.status = .up := by
  obtain ⟨hlt, henabled⟩ := BackendPool.mem_active.mp hmem
  simp only [buildPool, clamp, List.length_map, List.length_take, lt_min_iff] at hlt
  obtain ⟨hmax, hlength⟩ := hlt
  have hlength' : idx.toNat < states.length := by
    simpa [publishedEntries, Deployment.length_controlEntries] using hlength
  obtain ⟨st, hst⟩ : ∃ st, states[idx.toNat]? = some st := ⟨_, List.getElem?_eq_getElem hlength'⟩
  refine ⟨st, hst, ?_⟩
  have hflag : (buildPool (clamp (publishedEntries states))).enabled.getD idx.toNat 0 =
      upFlag states idx.toNat := by
    simp [buildPool, clamp, List.getD_eq_getElem?_getD, hmax, getElem?_publishedEntries hst]
  rw [hflag, upFlag, List.getD_eq_getElem?_getD, hst, Option.getD_some] at henabled
  by_contra hdown
  exact henabled (if_neg hdown)

theorem Sound.opensOnlyReported (h : s.Sound backends view₀) :
    s.OpensOnlyReported hash backends := by
  intro w m idx hcount
  simp only [Service.step, Function.update_self] at hcount
  obtain ⟨pool, hpool, hmem⟩ := LbNode.mem_active_of_backendFlows_arrive _ hcount
  refine ⟨pool, hpool, hmem, (h.workers w pool hpool).imp_right ?_⟩
  rintro ⟨states, hstates, rfl⟩
  obtain ⟨st, hst, hup⟩ := mem_active_buildPool hmem
  refine ⟨states, hstates, rfl, ?_, (h.origins states hstates).2 _ st hst hup⟩
  rw [List.getD_eq_getElem?_getD, hst]
  exact hup

/-! ### Probes with the same outcome -/

/-- The flag of a backend that is up, or of one that is not. -/
def flag (up : Bool) : UInt8 := if up then 1 else 0

/-- The control plane is not restarted, and if the next probe is one of backend `i` then it has the
given outcome. -/
def Move.Agrees (i : ℕ) (up : Bool) (s : Service bits) : Move → Prop
  | .health healthy _ => s.monitor.health.probing = some i → healthy = up
  | .restart => False
  | _ => True

/-- In the run, all probes of backend `i` have the given outcome, and the control plane is not
restarted. -/
def Steady (hash : FlowKey → UInt32) (backends : List BackendInfo) (i : ℕ) (up : Bool) :
    Service bits → List Move → Prop
  | _, [] => True
  | s, move :: moves =>
    move.Agrees i up s ∧ Steady hash backends i up (s.step hash backends move) moves

instance (i : ℕ) (up : Bool) (s : Service bits) (move : Move) : Decidable (move.Agrees i up s) :=
  match move with
  | .health healthy _ =>
    inferInstanceAs (Decidable (s.monitor.health.probing = some i → healthy = up))
  | .restart => inferInstanceAs (Decidable False)
  | .poll | .readControl | .frame _ _ | .packet _ _ => inferInstanceAs (Decidable True)

instance decidableSteady (hash : FlowKey → UInt32) (backends : List BackendInfo) (i : ℕ)
    (up : Bool) : (s : Service bits) → (moves : List Move) →
      Decidable (s.Steady hash backends i up moves)
  | _, [] => inferInstanceAs (Decidable True)
  | s, move :: moves =>
    have := decidableSteady hash backends i up (s.step hash backends move) moves
    inferInstanceAs (Decidable (move.Agrees i up s ∧
      Steady hash backends i up (s.step hash backends move) moves))

theorem steady_append {moves later : List Move} :
    s.Steady hash backends i up (moves ++ later) ↔
      s.Steady hash backends i up moves ∧
        (s.run hash backends moves).Steady hash backends i up later := by
  induction moves generalizing s with
  | nil => simp [Steady, Service.run]
  | cons move moves ih =>
    simp only [List.cons_append, Steady, ih, and_assoc]
    rfl

/-- A move of such a run. -/
def SteadyStep (hash : FlowKey → UInt32) (backends : List BackendInfo) (view₀ : ControlView) (i : ℕ)
    (up : Bool) (s s' : Service bits) : Prop :=
  s.Sound backends view₀ ∧ s.control.opens < 2 ^ 31 ∧
    ∃ move : Move, move.Agrees i up s ∧ s' = s.step hash backends move

theorem steadySteps_run (h : s.Sound backends view₀) (heven : view₀.seq &&& 1 = 0)
    {moves : List Move} (hsteady : s.Steady hash backends i up moves)
    (hopens : (s.run hash backends moves).control.opens < 2 ^ 31) :
    ReflTransGen (SteadyStep hash backends view₀ i up) s (s.run hash backends moves) := by
  induction moves generalizing s with
  | nil => exact .refl
  | cons move moves ih =>
    obtain ⟨hagrees, hrest⟩ := hsteady
    have hnow := (opens_le_run hash backends s (move :: moves)).trans_lt
      hopens
    exact .head ⟨h, hnow, move, hagrees, rfl⟩ (ih (h.step heven hnow move) hrest hopens)

/-! ### Rounds of probes -/

/-- In the round under way, if backend `i` was probed, it had the given outcome. -/
def FreshRound (i : ℕ) (up : Bool) (h : HealthChecker) : Prop :=
  ∀ snapshot n, h.round = some (snapshot, n) → i < n → upFlag snapshot i = flag up

/-- `States` reports the given outcome for backend `i`, and will do so after the round. -/
structure Reported (i : ℕ) (up : Bool) (h : HealthChecker) : Prop where
  fresh : FreshRound i up h
  upFlag_eq : upFlag h.states i = flag up

/-- A probe shows in the copy of the round. -/
theorem upFlag_modify_probed (snapshot : List BackendState) (n : ℕ) (healthy : Bool)
    (nowNs : UInt64) (hi : i < snapshot.length) :
    upFlag (snapshot.modify n (·.probed healthy nowNs)) i =
      if n = i then flag healthy else upFlag snapshot i := by
  have hlength : i < (snapshot.modify n (·.probed healthy nowNs)).length := by
    rwa [List.length_modify]
  rw [upFlag, upFlag, List.getD_eq_getElem _ _ hlength, List.getD_eq_getElem _ _ hi,
    List.getElem_modify]
  by_cases hni : n = i
  · simp only [hni, if_true, BackendState.probed]
    cases healthy <;> rfl
  · simp only [hni, if_false]

/-- A step of the health checker whose probe of backend `i`, if it is one, has the given outcome. -/
theorem FreshRound.step {h : HealthChecker} (hfresh : FreshRound i up h)
    (hcovers : HealthChecker.Covers backends h) (hi : i < backends.length) {healthy : Bool}
    (nowNs : UInt64) (hprobe : h.probing = some i → healthy = up) :
    FreshRound i up (h.step healthy nowNs) ∧
      if endsRound h then upFlag (h.step healthy nowNs).states i = flag up
      else (h.step healthy nowNs).states = h.states := by
  obtain ⟨states, round⟩ := h
  cases round with
  | none =>
    refine ⟨?_, rfl⟩
    rintro snapshot n ⟨⟩ hlt
    exact absurd hlt (Nat.not_lt_zero i)
  | some r =>
    obtain ⟨snapshot, n⟩ := r
    have hinfo := congrArg List.length (hcovers.round snapshot n rfl)
    rw [List.length_map] at hinfo
    by_cases hlt : n < snapshot.length
    · simp only [HealthChecker.step, endsRound, hlt, if_true, Option.any_some, not_true_eq_false,
        decide_false, Bool.false_eq_true, if_false, and_true]
      rintro snapshot' n' ⟨⟩ hin
      rw [upFlag_modify_probed _ _ _ _ (hinfo ▸ hi)]
      split_ifs with hni
      · rw [hprobe]
        rw [HealthChecker.probing, Option.bind_some, if_pos hlt, hni]
      · exact hfresh snapshot n rfl (by omega)
    · simp only [HealthChecker.step, endsRound, hlt, if_false, Option.any_some, not_false_eq_true,
        decide_true, if_true]
      exact ⟨fun _ _ hnone => absurd hnone.symm (Option.some_ne_none _),
        hfresh snapshot n rfl (by omega)⟩

/-- After the step that ends a round none is under way. -/
theorem freshRound_of_endsRound {h : HealthChecker} (hends : endsRound h = true) {healthy : Bool}
    {nowNs : UInt64} : FreshRound i up (h.step healthy nowNs) := by
  obtain ⟨states, round⟩ := h
  cases round with
  | none => exact Bool.noConfusion hends
  | some r =>
    obtain ⟨snapshot, n⟩ := r
    have hlt : ¬ n < snapshot.length := by simpa [endsRound] using hends
    simp only [HealthChecker.step, hlt, if_false]
    exact fun _ _ hnone => absurd hnone.symm (Option.some_ne_none _)

/-- A move is one of the health checker, with the given outcome, or leaves the health checker alone.
-/
theorem health_cases (hash : FlowKey → UInt32) (backends : List BackendInfo) {move : Move}
    (hagrees : move.Agrees i up s) :
    ((s.step hash backends move).monitor.health = s.monitor.health ∧
        (s.step hash backends move).rounds = s.rounds) ∨
      ∃ healthy nowNs, (s.monitor.health.probing = some i → healthy = up) ∧
        (s.step hash backends move).monitor.health = s.monitor.health.step healthy nowNs ∧
        (s.step hash backends move).rounds =
          if endsRound s.monitor.health then s.rounds + 1 else s.rounds := by
  cases move with
  | health healthy nowNs => exact Or.inr ⟨healthy, nowNs, hagrees, rfl, rfl⟩
  | restart => exact absurd hagrees id
  | poll =>
    refine Or.inl ⟨?_, rfl⟩
    simp only [Service.step, MonitorComponent.publishControl]
    split <;> split_ifs <;> rfl
  | _ => exact Or.inl ⟨rfl, rfl⟩

/-- A whole round of probes with the given outcome makes `States` report it. -/
theorem rounds_calls (hi : i < backends.length) :
    Calls (SteadyStep hash backends view₀ i up : Service bits → Service bits → Prop)
      Service.rounds (fun _ => True) (fun s => FreshRound i up s.monitor.health)
      (fun s => Reported i up s.monitor.health) where
  given _ _ := trivial
  count := by
    rintro s _ ⟨hsound, -, move, hagrees, rfl⟩
    obtain ⟨-, hrounds⟩ | ⟨healthy, nowNs, -, -, hrounds⟩ :=
      health_cases hash backends hagrees
    · exact Or.inl hrounds
    · rw [hrounds]
      split_ifs <;> simp
  fresh := by
    rintro s _ ⟨hsound, -, move, hagrees, rfl⟩ - - hfresh
    obtain ⟨hhealth, -⟩ | ⟨healthy, nowNs, hprobe, hhealth, -⟩ :=
      health_cases hash backends hagrees
    · exact hhealth ▸ hfresh
    · exact hhealth ▸ (hfresh.step hsound.covers hi nowNs hprobe).1
  begins := by
    rintro s _ ⟨hsound, -, move, hagrees, rfl⟩ - hdone
    obtain ⟨-, hrounds⟩ | ⟨healthy, nowNs, -, hhealth, hrounds⟩ :=
      health_cases hash backends hagrees
    · omega
    · cases hends : endsRound s.monitor.health with
      | true => exact hhealth ▸ freshRound_of_endsRound hends
      | false =>
        rw [hends] at hrounds
        exact absurd (hrounds.symm.trans hdone) (Nat.succ_ne_self _).symm
  achieves := by
    rintro s _ ⟨hsound, -, move, hagrees, rfl⟩ - hfresh hdone
    obtain ⟨-, hrounds⟩ | ⟨healthy, nowNs, hprobe, hhealth, hrounds⟩ :=
      health_cases hash backends hagrees
    · omega
    · obtain ⟨hfresh', hreported⟩ := hfresh.step hsound.covers hi nowNs hprobe
      cases hends : endsRound s.monitor.health with
      | true =>
        rw [if_pos hends] at hreported
        exact hhealth ▸ ⟨hfresh', hreported⟩
      | false =>
        rw [hends] at hrounds
        exact absurd (hrounds.symm.trans hdone) (Nat.succ_ne_self _).symm
  keeps := by
    rintro s _ ⟨hsound, -, move, hagrees, rfl⟩ - htarget
    obtain ⟨hhealth, -⟩ | ⟨healthy, nowNs, hprobe, hhealth, -⟩ :=
      health_cases hash backends hagrees
    · exact hhealth ▸ htarget
    · obtain ⟨hfresh', hreported⟩ := htarget.fresh.step hsound.covers hi nowNs hprobe
      rw [hhealth]
      refine ⟨hfresh', ?_⟩
      split_ifs at hreported
      · exact hreported
      · rw [hreported]
        exact htarget.upFlag_eq

/-! ### Ticks -/

/-- The list shows the given outcome for backend `i`. -/
def Shows (i : ℕ) (up : Bool) (content : Snapshot) : Prop :=
  ∃ entry, content.1[i]? = some entry ∧ entry.enabled = flag up

/-- The tick under way publishes the given outcome for backend `i`. -/
def FreshTick (i : ℕ) (up : Bool) (m : MonitorComponent) : Prop :=
  ∀ enabled entries, m.tick = some (enabled, entries) → enabled.getD i 0 = flag up

/-- The last version of the view shows the given outcome. -/
def LastShows (view₀ : ControlView) (i : ℕ) (up : Bool) (c : Control) : Prop :=
  ∃ p, (c.versions view₀).getLast? = some p ∧ Shows i up p.2

/-- The view shows the given outcome for backend `i`, and will do so after the tick. -/
structure Published (view₀ : ControlView) (i : ℕ) (up : Bool) (s : Service bits) : Prop where
  reported : Reported i up s.monitor.health
  fresh : FreshTick i up s.monitor
  last : LastShows view₀ i up s.control

theorem shows_publishedEntries {states : List BackendState}
    (hinfo : states.map (·.info) = backends) (hi : i < backends.length) (hmax : i < kMaxBackends)
    (hflag : upFlag states i = flag up) : Shows i up (clamp (publishedEntries states)) := by
  have hlt : i < states.length := by
    rwa [← hinfo, List.length_map] at hi
  have hentry := getElem?_publishedEntries (List.getElem?_eq_getElem hlt)
  have hclamp : (clamp (publishedEntries states)).1[i]? = (publishedEntries states)[i]? := by
    rw [clamp, List.getElem?_take, if_pos hmax]
  exact ⟨_, hclamp.trans hentry, hflag⟩

theorem getLast?_versions (c : Control) :
    (c.versions view₀).getLast? = (c.versions view₀)[c.published.length]? := by
  rw [List.getLast?_eq_getElem?, Control.length_versions, Nat.add_sub_cancel]

/-- A tick that finds the flags it published last leaves a view that shows them. -/
theorem Sound.lastShows_of_eq (h : s.Sound backends view₀) (hi : i < backends.length)
    (hmax : i < kMaxBackends) (hreported : upFlag s.monitor.health.states i = flag up)
    (heq : enabledFlags s.monitor.health.states = s.monitor.publishedEnabled) :
    LastShows view₀ i up s.control := by
  have hlength : s.monitor.publishedEnabled.length = backends.length := by
    rw [← heq, enabledFlags, List.length_map, h.covers.length_states]
  obtain ⟨states, hstates, hflags, seq, hlast⟩ := h.shown (by
    rintro hnil
    rw [hnil, List.length_nil] at hlength
    omega)
  refine ⟨_, (getLast?_versions _).trans hlast, ?_⟩
  refine shows_publishedEntries (h.origins states hstates).1 hi hmax ?_
  rw [← getD_enabledFlags, ← hflags, ← heq, getD_enabledFlags]
  exact hreported

/-- What a step of a tick that publishes leaves in the view. -/
theorem Sound.versions_publish (h : s.Sound backends view₀) (hi : i < backends.length)
    (hmax : i < kMaxBackends) {enabled : List UInt8} {entries : List ControlBackend}
    (htick : s.monitor.tick = some (enabled, entries)) (henabled : enabled.getD i 0 = flag up) :
    (s.control.publish entries).publisher.isIdle = false ∧
        (s.control.publish entries).versions view₀ = s.control.versions view₀ ∨
      (s.control.publish entries).publisher.isIdle = true ∧ ∃ p, Shows i up p.2 ∧
        (s.control.publish entries).versions view₀ = s.control.versions view₀ ++ [p] := by
  obtain ⟨⟨states, hstates, hflags, hentries⟩, hfor⟩ := h.tick enabled entries htick
  obtain ⟨hidle, hpublished⟩ | ⟨hidle, start, hclosing, -⟩ := Control.publish_cases hfor
  · left
    refine ⟨hidle, ?_⟩
    rw [Control.versions, Control.versions, hpublished]
  · right
    refine ⟨hidle, _, ?_, Control.versions_publish_closing hclosing⟩
    rw [hflags, getD_enabledFlags] at henabled
    exact hentries ▸ shows_publishedEntries (h.origins states hstates).1 hi hmax henabled

/-- What a move does to the tick under way and to the versions, when the states report the given
outcome. -/
theorem tick_cases (hash : FlowKey → UInt32) (h : s.Sound backends view₀) (hi : i < backends.length)
    (hmax : i < kMaxBackends) (hreported : upFlag s.monitor.health.states i = flag up)
    (hfresh : FreshTick i up s.monitor)
    {move : Move} (hagrees : move.Agrees i up s) :
    FreshTick i up (s.step hash backends move).monitor ∧
      ((s.step hash backends move).ticks = s.ticks ∧
          (s.step hash backends move).control.versions view₀ = s.control.versions view₀ ∨
        (s.step hash backends move).ticks = s.ticks + 1 ∧
          LastShows view₀ i up (s.step hash backends move).control ∧
          ∀ p ∈ (s.step hash backends move).control.versions view₀,
            p ∈ s.control.versions view₀ ∨ Shows i up p.2) := by
  cases move with
  | poll =>
    cases htick : s.monitor.tick with
    | none =>
      by_cases heq : enabledFlags s.monitor.health.states = s.monitor.publishedEnabled
      · rw [step_poll_of_eq htick heq]
        exact ⟨hfresh, Or.inr ⟨rfl, h.lastShows_of_eq hi hmax hreported heq, fun p => Or.inl⟩⟩
      · rw [step_poll_of_ne htick heq]
        refine ⟨?_, Or.inl ⟨rfl, rfl⟩⟩
        rintro enabled entries ⟨⟩
        rw [getD_enabledFlags]
        exact hreported
    | some t =>
      obtain ⟨enabled, entries⟩ := t
      obtain ⟨hidle, hversions⟩ | ⟨hidle, p, hshows, hversions⟩ :=
        h.versions_publish hi hmax htick (hfresh enabled entries htick)
      · rw [step_poll_of_not_isIdle htick h.call_eq hidle]
        exact ⟨hfresh, Or.inl ⟨rfl, hversions⟩⟩
      · rw [step_poll_of_isIdle htick h.call_eq hidle]
        refine ⟨fun _ _ hnone => absurd hnone.symm (Option.some_ne_none _),
          Or.inr ⟨rfl, ⟨p, ?_, hshows⟩, fun q hq => ?_⟩⟩
        · rw [hversions, List.getLast?_concat]
        · obtain hq | hq := List.mem_append.mp (hversions ▸ hq)
          · exact Or.inl hq
          · exact Or.inr (List.mem_singleton.mp hq ▸ hshows)
  | restart => exact absurd hagrees id
  | readControl => exact ⟨hfresh, Or.inl ⟨rfl, Control.versions_read _ _⟩⟩
  | _ => exact ⟨hfresh, Or.inl ⟨rfl, rfl⟩⟩

/-- After the step that ends a tick none is under way. -/
theorem ticks_cases (hash : FlowKey → UInt32) (backends : List BackendInfo) {move : Move}
    (hagrees : move.Agrees i up s) :
    (s.step hash backends move).ticks = s.ticks ∨
      (s.step hash backends move).ticks = s.ticks + 1 ∧
        (s.step hash backends move).monitor.tick = none := by
  cases move with
  | poll =>
    simp only [Service.step]
    cases htick : (s.monitor.publishControl s.control.view).2.tick with
    | none => exact Or.inr ⟨rfl, rfl⟩
    | some t => exact Or.inl rfl
  | restart => exact absurd hagrees id
  | _ => exact Or.inl rfl

/-- A whole tick under which the states report the given outcome publishes it. -/
theorem ticks_calls (hi : i < backends.length) (hmax : i < kMaxBackends) :
    Calls (SteadyStep hash backends view₀ i up : Service bits → Service bits → Prop) Service.ticks
      (fun s => Reported i up s.monitor.health) (fun s => FreshTick i up s.monitor)
      (Published view₀ i up) where
  given hstep hgiven := (rounds_calls hi).keeps hstep trivial hgiven
  count := by
    rintro s _ ⟨hsound, -, move, hagrees, rfl⟩
    exact (ticks_cases hash backends hagrees).imp_right And.left
  fresh := by
    rintro s _ ⟨hsound, -, move, hagrees, rfl⟩ hgiven - hfresh
    exact (tick_cases hash hsound hi hmax hgiven.upFlag_eq hfresh hagrees).1
  begins := by
    rintro s _ ⟨hsound, -, move, hagrees, rfl⟩ - hdone
    obtain hsame | ⟨-, hnone⟩ := ticks_cases hash backends hagrees
    · omega
    · intro enabled entries htick
      exact absurd (hnone.symm.trans htick) (Option.some_ne_none _).symm
  achieves := by
    intro s s' hstep hgiven hfresh hdone
    have hreported := (rounds_calls hi).keeps hstep trivial hgiven
    obtain ⟨hsound, -, move, hagrees, rfl⟩ := hstep
    obtain ⟨hfresh', ⟨hsame, -⟩ | ⟨-, hlast, -⟩⟩ :=
      tick_cases hash hsound hi hmax hgiven.upFlag_eq hfresh hagrees
    · omega
    · exact ⟨hreported, hfresh', hlast⟩
  keeps := by
    intro s s' hstep hgiven htarget
    have hreported := (rounds_calls hi).keeps hstep trivial hgiven
    obtain ⟨hsound, -, move, hagrees, rfl⟩ := hstep
    obtain ⟨hfresh', ⟨-, hversions⟩ | ⟨-, hlast, -⟩⟩ :=
      tick_cases hash hsound hi hmax hgiven.upFlag_eq htarget.fresh hagrees
    · refine ⟨hreported, hfresh', ?_⟩
      rw [LastShows, hversions]
      exact htarget.last
    · exact ⟨hreported, hfresh', hlast⟩

/-! ### Calls of `ReadControl` -/

/-- The number that the call of `ReadControl` under way loaded is that of versions that show the
given outcome. -/
def FreshRead (view₀ : ControlView) (i : ℕ) (up : Bool) (c : Control) : Prop :=
  ∀ seq, c.reader.loaded = some seq → ∀ p ∈ c.versions view₀, p.1 = seq → Shows i up p.2

/-- The pool lists backend `i` with the given outcome. -/
def Lists (i : ℕ) (up : Bool) (pool : BackendPool) : Prop :=
  ∃ content, pool = buildPool content ∧ Shows i up content

/-- `pool_rcu` lists backend `i` with the given outcome, and will do so after the call of
`ReadControl`. -/
structure Applied (view₀ : ControlView) (i : ℕ) (up : Bool) (s : Service bits) : Prop where
  published : Published view₀ i up s
  fresh : FreshRead view₀ i up s.control
  lists : Lists i up s.poolRcu

/-- The number in a view at rest is that of the last version only. -/
theorem Sound.shows_of_seq_eq (h : s.Sound backends view₀) (heven : view₀.seq &&& 1 = 0)
    (hopens : s.control.opens < 2 ^ 31) (hlast : LastShows view₀ i up s.control)
    (hrest : s.control.view.seq &&& 1 = 0) {p : UInt32 × Snapshot}
    (hp : p ∈ s.control.versions view₀) (hseq : p.1 = s.control.view.seq) : Shows i up p.2 := by
  obtain ⟨r, hconsistent⟩ := h.consistent
  have hreads := hconsistent.readsVersion_of_even heven hrest
  obtain ⟨k, hk⟩ := List.getElem?_of_mem hp
  have hklt : k < s.control.published.length + 1 := by
    have hlength : (s.control.versions view₀).length = _ := Control.length_versions
    rw [← hlength]
    exact (List.getElem?_eq_some_iff.mp hk).1
  have hle : s.control.published.length ≤ s.control.opens := Nat.le_add_right _ _
  have hnumber : seqAt view₀.seq k = seqAt view₀.seq s.control.published.length :=
    (hconsistent.numbered k p hk).symm.trans (hseq.trans hreads.seq_eq)
  obtain rfl := eq_of_seqAt_eq (Nat.le_of_lt_succ hklt) (by omega) hnumber
  obtain ⟨q, hq, hshows⟩ := hlast
  rw [getLast?_versions, hk, Option.some.injEq] at hq
  exact hq ▸ hshows

/-- A move is a step of `RunControlLoop`, or leaves the reader and `pool_rcu` alone. -/
theorem reader_cases (hash : FlowKey → UInt32) (backends : List BackendInfo) (view₀ : ControlView)
    (s : Service bits) {move : Move} (hagrees : move.Agrees i up s) :
    move = .readControl ∨
      (s.step hash backends move).control.reader = s.control.reader ∧
        (s.step hash backends move).control.returned = s.control.returned ∧
        (s.step hash backends move).poolRcu = s.poolRcu := by
  cases move with
  | readControl => exact Or.inl rfl
  | restart => exact absurd hagrees id
  | poll =>
    right
    simp only [Service.step, poolRcu]
    cases s.monitor.tick with
    | none => exact ⟨rfl, rfl, rfl⟩
    | some t =>
      have hmove : Control.PublisherMove view₀ s.control (s.control.publish t.2) :=
        Control.publisherMove_publish t.2
      refine ⟨hmove.reader_eq, hmove.returned_eq, ?_⟩
      change (s.control.publish t.2).stored.getLast?.getD s.initial = _
      rw [hmove.stored_eq]
  | _ => exact Or.inr ⟨rfl, rfl, rfl⟩

/-- What a step of `RunControlLoop` does, when the view shows the given outcome. -/
theorem read_cases (h : s.Sound backends view₀) (heven : view₀.seq &&& 1 = 0)
    (hopens : s.control.opens < 2 ^ 31) (hlast : LastShows view₀ i up s.control)
    (hfresh : FreshRead view₀ i up s.control) :
    FreshRead view₀ i up s.control.read ∧
      (s.control.read.returned = s.control.returned ∧ s.control.read.stored = s.control.stored ∨
        s.control.read.returned.length = s.control.returned.length + 1 ∧
          Lists i up (s.control.read.stored.getLast?.getD s.initial)) := by
  obtain ⟨r, hconsistent⟩ := h.consistent
  obtain ⟨r', hconsistent'⟩ := hconsistent.read heven fun _ => h.opened_le.trans_lt hopens
  obtain ⟨reader, started, opened, hread, -, hloaded⟩ | ⟨seq, out, hloaded, hread⟩ :=
    s.control.read_cases
  · rw [hread]
    refine ⟨fun seq hseq p hp hpseq => ?_, Or.inl ⟨rfl, rfl⟩⟩
    change reader.loaded = some seq at hseq
    obtain hnone | hsame | ⟨hview, hrest⟩ := hloaded
    · exact absurd (hnone.symm.trans hseq) (Option.some_ne_none _).symm
    · exact hfresh seq (hsame.symm.trans hseq) p hp hpseq
    · refine h.shows_of_seq_eq heven hopens hlast hrest hp ?_
      exact hpseq.trans (Option.some.inj (hseq.symm.trans hview))
  · rw [hread] at hconsistent' ⊢
    refine ⟨fun seq hseq => absurd hseq.symm (Option.some_ne_none _), Or.inr ⟨?_, ?_⟩⟩
    · exact List.length_append
    · have hmem : (seq, out) ∈ s.control.versions view₀ :=
        hconsistent'.returned_mem (seq, out) (List.mem_append_right _ List.mem_cons_self)
      by_cases hseq : seq = s.control.applied
      · obtain ⟨p, hp, happlied, hpool⟩ := h.applied
        refine ⟨p.2, ?_, hfresh seq hloaded p hp (happlied.symm.trans hseq.symm)⟩
        rw [← hpool]
        simp [Control.readReturn, hseq, poolRcu]
      · refine ⟨out, ?_, hfresh seq hloaded _ hmem rfl⟩
        simp [Control.readReturn, hseq]

/-- Versions that are added show the given outcome, so a fresh call of `ReadControl` stays fresh. -/
theorem FreshRead.of_versions {c c' : Control} (hfresh : FreshRead view₀ i up c)
    (hreader : c'.reader = c.reader)
    (hversions : ∀ p ∈ c'.versions view₀, p ∈ c.versions view₀ ∨ Shows i up p.2) :
    FreshRead view₀ i up c' := by
  intro seq hseq p hp hpseq
  obtain hold | hshows := hversions p hp
  · exact hfresh seq (hreader ▸ hseq) p hold hpseq
  · exact hshows

theorem Published.versions_step (hpublished : Published view₀ i up s) (h : s.Sound backends view₀)
    (hi : i < backends.length) (hmax : i < kMaxBackends) {move : Move}
    (hagrees : move.Agrees i up s) :
    ∀ p ∈ (s.step hash backends move).control.versions view₀,
      p ∈ s.control.versions view₀ ∨ Shows i up p.2 := by
  obtain ⟨-, ⟨-, hversions⟩ | ⟨-, -, hversions⟩⟩ :=
    tick_cases hash h hi hmax hpublished.reported.upFlag_eq hpublished.fresh hagrees
  · exact fun p hp => Or.inl (hversions ▸ hp)
  · exact hversions

/-- What a move does to the reader, when the view shows the given outcome. -/
theorem Published.reader_step (hash : FlowKey → UInt32) (hpublished : Published view₀ i up s)
    (h : s.Sound backends view₀)
    (hi : i < backends.length) (hmax : i < kMaxBackends) (heven : view₀.seq &&& 1 = 0)
    (hopens : s.control.opens < 2 ^ 31) {move : Move} (hagrees : move.Agrees i up s)
    (hfresh : FreshRead view₀ i up s.control) :
    FreshRead view₀ i up (s.step hash backends move).control ∧
      ((s.step hash backends move).control.returned = s.control.returned ∧
          (s.step hash backends move).poolRcu = s.poolRcu ∨
        (s.step hash backends move).control.returned.length = s.control.returned.length + 1 ∧
          Lists i up (s.step hash backends move).poolRcu) := by
  obtain rfl | ⟨hreader, hreturned, hpool⟩ :=
    reader_cases hash backends view₀ s hagrees
  · obtain ⟨hfresh', hcases⟩ := read_cases h heven hopens hpublished.last hfresh
    refine ⟨hfresh', hcases.imp_left fun ⟨hreturned, hstored⟩ => ⟨hreturned, ?_⟩⟩
    change s.control.read.stored.getLast?.getD s.initial = _
    rw [hstored]
    rfl
  · exact ⟨hfresh.of_versions hreader (hpublished.versions_step h hi hmax hagrees),
      Or.inl ⟨hreturned, hpool⟩⟩

/-- A whole call of `ReadControl` while the view shows the given outcome stores it. -/
theorem reads_calls (hi : i < backends.length) (hmax : i < kMaxBackends)
    (heven : view₀.seq &&& 1 = 0) :
    Calls (SteadyStep hash backends view₀ i up : Service bits → Service bits → Prop)
      (fun s => s.control.returned.length) (Published view₀ i up)
      (fun s => FreshRead view₀ i up s.control) (Applied view₀ i up) where
  given hstep hgiven := (ticks_calls hi hmax).keeps hstep hgiven.reported hgiven
  count := by
    rintro s _ ⟨hsound, hopens, move, hagrees, rfl⟩
    obtain rfl | ⟨-, hreturned, -⟩ :=
      reader_cases hash backends view₀ s hagrees
    · obtain ⟨reader, started, opened, hread, -⟩ | ⟨seq, out, -, hread⟩ := s.control.read_cases
      · simp only [Service.step, hread, true_or]
      · simp only [Service.step, hread, Control.readReturn, List.length_append,
          List.length_singleton, or_true]
    · exact Or.inl (congrArg List.length hreturned)
  fresh := by
    rintro s _ ⟨hsound, hopens, move, hagrees, rfl⟩ hgiven - hfresh
    exact (hgiven.reader_step hash hsound hi hmax heven hopens hagrees hfresh).1
  begins := by
    rintro s _ ⟨hsound, hopens, move, hagrees, rfl⟩ - hdone
    obtain rfl | ⟨-, hreturned, -⟩ :=
      reader_cases hash backends view₀ s hagrees
    · obtain ⟨reader, started, opened, hread, -⟩ | ⟨seq, out, -, hread⟩ := s.control.read_cases
      · simp only [Service.step, hread] at hdone
        omega
      · simp only [Service.step, hread]
        exact fun seq hseq => absurd hseq.symm (Option.some_ne_none _)
    · rw [hreturned] at hdone
      omega
  achieves := by
    intro s s' hstep hgiven hfresh hdone
    have hpublished := (ticks_calls hi hmax).keeps hstep hgiven.reported hgiven
    obtain ⟨hsound, hopens, move, hagrees, rfl⟩ := hstep
    obtain ⟨hfresh', ⟨hreturned, -⟩ | ⟨-, hlists⟩⟩ :=
      hgiven.reader_step hash hsound hi hmax heven hopens hagrees hfresh
    · rw [hreturned] at hdone
      omega
    · exact ⟨hpublished, hfresh', hlists⟩
  keeps := by
    intro s s' hstep hgiven htarget
    have hpublished := (ticks_calls hi hmax).keeps hstep hgiven.reported hgiven
    obtain ⟨hsound, hopens, move, hagrees, rfl⟩ := hstep
    obtain ⟨hfresh', ⟨-, hpool⟩ | ⟨-, hlists⟩⟩ :=
      hgiven.reader_step hash hsound hi hmax heven hopens hagrees htarget.fresh
    · exact ⟨hpublished, hfresh', hpool ▸ htarget.lists⟩
    · exact ⟨hpublished, hfresh', hlists⟩

/-! ### Frames -/

/-- A worker whose frame was begun while `pool_rcu` lists the backend with the given outcome. -/
theorem frames_calls (hi : i < backends.length) (hmax : i < kMaxBackends)
    (heven : view₀.seq &&& 1 = 0) (w : ℕ) :
    Calls (SteadyStep hash backends view₀ i up : Service bits → Service bits → Prop)
      (fun s => (s.workers w).frames) (Applied view₀ i up) (fun _ => True)
      (fun s => ∃ pool, (s.workers w).pool = some pool ∧ Lists i up pool) := by
  have hcases (s : Service bits) (move : Move) :
      ((s.step hash backends move).workers w).frames = (s.workers w).frames ∧
          ((s.step hash backends move).workers w).pool = (s.workers w).pool ∨
        ((s.step hash backends move).workers w).frames = (s.workers w).frames + 1 ∧
          ((s.step hash backends move).workers w).pool = some s.poolRcu := by
    cases move with
    | frame w' nowMs =>
      by_cases hw : w = w'
      · subst hw
        simp only [Service.step, Function.update_self, or_true, and_self]
      · simp only [Service.step, Function.update_of_ne hw, true_or, and_self]
    | packet w' m =>
      by_cases hw : w = w'
      · subst hw
        simp only [Service.step, Function.update_self, true_or, and_self]
      · simp only [Service.step, Function.update_of_ne hw, true_or, and_self]
    | restart =>
      simp only [Service.step]
      split_ifs <;> exact Or.inl ⟨rfl, rfl⟩
    | _ => exact Or.inl ⟨rfl, rfl⟩
  refine ⟨fun hstep hgiven => (reads_calls hi hmax heven).keeps hstep hgiven.published hgiven,
    ?_, fun _ _ _ _ => trivial, fun _ _ _ => trivial, ?_, ?_⟩
  · rintro s _ ⟨-, -, move, -, rfl⟩
    exact (hcases s move).imp And.left And.left
  · rintro s _ ⟨-, -, move, -, rfl⟩ hgiven - hdone
    obtain ⟨hsame, -⟩ | ⟨-, hpool⟩ := hcases s move
    · omega
    · exact ⟨_, hpool, hgiven.lists⟩
  · rintro s _ ⟨-, -, move, -, rfl⟩ hgiven ⟨pool, hpool, hlists⟩
    obtain ⟨-, hsame⟩ | ⟨-, hnew⟩ := hcases s move
    · exact ⟨pool, hsame.trans hpool, hlists⟩
    · exact ⟨_, hnew, hgiven.lists⟩

/-! ### Whole runs -/

theorem mem_active_iff_of_lists {idx : UInt8} {pool : BackendPool}
    (h : Lists idx.toNat up pool) : idx ∈ pool.active ↔ up = true := by
  obtain ⟨content, rfl, entry, hentry, hflag⟩ := h
  have hlt := (List.getElem?_eq_some_iff.mp hentry).1
  have henabled : (buildPool content).enabled.getD idx.toNat 0 = flag up := by
    simp [buildPool, List.getD_eq_getElem?_getD, hentry, hflag]
  rw [BackendPool.mem_active, henabled]
  simp only [buildPool, List.length_map, hlt, true_and]
  cases up <;> decide

/-- A move that is not a packet of the worker opens no flow there. -/
theorem backendFlows_step (s : Service bits) (move : Move) {w : ℕ} {pool : BackendPool}
    (hpool : (s.workers w).pool = some pool) {idx : UInt8} (hidx : idx ∉ pool.active) :
    ((s.step hash backends move).workers w).lb.backendFlows idx =
      (s.workers w).lb.backendFlows idx := by
  cases move with
  | frame w' nowMs =>
    by_cases hw : w = w'
    · subst hw
      simp only [Service.step, Function.update_self]
    · simp only [Service.step, Function.update_of_ne hw]
  | packet w' m =>
    by_cases hw : w = w'
    · subst hw
      simp only [Service.step, Function.update_self]
      by_contra hcount
      obtain ⟨pool', hpool', hmem⟩ := LbNode.mem_active_of_backendFlows_arrive _ hcount
      obtain rfl : pool = pool' := Option.some.inj (hpool.symm.trans hpool')
      exact hidx hmem
    · simp only [Service.step, Function.update_of_ne hw]
  | restart =>
    simp only [Service.step]
    split_ifs <;> rfl
  | _ => rfl

/-- In `s'`, `pool_rcu` lists slot `idx` if and only if its backend is up, and so does the pool of
every frame that was begun since `s`; if the backend is not up, then no next move opens a flow to it
in such a frame. -/
def Follows (hash : FlowKey → UInt32) (backends : List BackendInfo) (idx : UInt8) (up : Bool)
    (s s' : Service bits) : Prop :=
  (idx ∈ s'.poolRcu.active ↔ up = true) ∧
    ∀ w, (s.workers w).frames < (s'.workers w).frames →
      ∃ pool, (s'.workers w).pool = some pool ∧ (idx ∈ pool.active ↔ up = true) ∧
        (up = false → ∀ move, ((s'.step hash backends move).workers w).lb.backendFlows idx =
          (s'.workers w).lb.backendFlows idx)

theorem Applied.follows {idx : UInt8} (h : Applied view₀ idx.toNat up s)
    (hi : idx.toNat < backends.length) (hmax : idx.toNat < kMaxBackends)
    (heven : view₀.seq &&& 1 = 0)
    (hsteps : ReflTransGen (SteadyStep hash backends view₀ idx.toNat up) s s') :
    Follows hash backends idx up s s' := by
  have hend := (reads_calls hi hmax heven).target_of_steps hsteps h.published h
  refine ⟨mem_active_iff_of_lists hend.lists, fun w hframes => ?_⟩
  obtain ⟨pool, hpool, hlists⟩ :=
    (frames_calls hi hmax heven w).target_of_fresh hsteps h trivial hframes
  have hactive := mem_active_iff_of_lists hlists
  refine ⟨pool, hpool, hactive, fun hdown move => backendFlows_step s' move hpool fun hmem => ?_⟩
  exact Bool.noConfusion ((hactive.mp hmem).symm.trans hdown)

/-- In every run with fewer than `2 ^ 31` publishes, a flow is opened only to a backend that the
states behind its pool had as `kUp`, unless the pool is the first one. -/
theorem opensOnlyReported_run (bits : ℕ) (hash : FlowKey → UInt32) (backends : List BackendInfo)
    (view₀ : ControlView) (timeoutMs : UInt32) (nWorkers : UInt16) (heven : view₀.seq &&& 1 = 0)
    (moves : List Move)
    (hopens : ((start bits backends view₀ timeoutMs nWorkers).run hash backends
      moves).control.opens < 2 ^ 31) :
    ((start bits backends view₀ timeoutMs nWorkers).run hash backends moves).OpensOnlyReported hash
      backends :=
  ((sound_start bits backends view₀ timeoutMs nWorkers).run heven moves hopens).opensOnlyReported

/-- A round of probes finds the only backend up, which is published and read before a frame begins.
-/
theorem opensOnlyReported_one_backend :
    let backends : List BackendInfo := [{ ip := 0x0A000202, port := 8080 }]
    let moves := List.replicate 3 (Move.health true 0) ++ List.replicate 8 Move.poll ++
      List.replicate 5 Move.readControl ++ [.frame 0 0]
    ((start 1 backends {} 30000 1).run (fun _ => 0) backends moves).OpensOnlyReported (fun _ => 0)
      backends := by
  intro backends moves
  exact opensOnlyReported_run 1 (fun _ => 0) backends {} 30000 1 (by decide) moves (by decide)

/-- After any moves, if all probes of a backend have the same outcome from then on and the control
plane is not restarted, two rounds of probes, then two ticks, then two calls of `ReadControl` make
the pools follow the probes, whatever else moves and in whatever order. -/
theorem follows_probes (bits : ℕ) (hash : FlowKey → UInt32) (backends : List BackendInfo)
    (view₀ : ControlView) (timeoutMs : UInt32) (nWorkers : UInt16) (heven : view₀.seq &&& 1 = 0)
    (idx : UInt8) (hidx : idx.toNat < backends.length) (hmax : idx.toNat < kMaxBackends) (up : Bool)
    (before rounds ticks reads frames : List Move) :
    let s₀ := (start bits backends view₀ timeoutMs nWorkers).run hash backends before
    let s₁ := s₀.run hash backends rounds
    let s₂ := s₁.run hash backends ticks
    let s₃ := s₂.run hash backends reads
    let s₄ := s₃.run hash backends frames
    s₀.Steady hash backends idx.toNat up (rounds ++ (ticks ++ (reads ++ frames))) →
      s₄.control.opens < 2 ^ 31 → s₀.rounds + 2 ≤ s₁.rounds → s₁.ticks + 2 ≤ s₂.ticks →
        s₂.control.returned.length + 2 ≤ s₃.control.returned.length →
          Follows hash backends idx up s₃ s₄ := by
  intro s₀ s₁ s₂ s₃ s₄ hsteady hopens hrounds hticks hreads
  obtain ⟨hsteady₁, hsteady⟩ := steady_append.mp hsteady
  obtain ⟨hsteady₂, hsteady⟩ := steady_append.mp hsteady
  obtain ⟨hsteady₃, hsteady₄⟩ := steady_append.mp hsteady
  have hopens₃ := (opens_le_run _ _ s₃ frames).trans_lt hopens
  have hopens₂ := (opens_le_run _ _ s₂ reads).trans_lt hopens₃
  have hopens₁ := (opens_le_run _ _ s₁ ticks).trans_lt hopens₂
  have hopens₀ := (opens_le_run _ _ s₀ rounds).trans_lt hopens₁
  have hsound₀ : s₀.Sound backends view₀ :=
    (sound_start bits backends view₀ timeoutMs nWorkers).run heven before hopens₀
  have hsound₁ : s₁.Sound backends view₀ := hsound₀.run heven rounds hopens₁
  have hsound₂ : s₂.Sound backends view₀ := hsound₁.run heven ticks hopens₂
  have hsound₃ : s₃.Sound backends view₀ := hsound₂.run heven reads hopens₃
  have hreported : Reported idx.toNat up s₁.monitor.health := (rounds_calls hidx).target
    (steadySteps_run hsound₀ heven hsteady₁ hopens₁) trivial hrounds
  have hpublished : Published view₀ idx.toNat up s₂ := (ticks_calls hidx hmax).target
    (steadySteps_run hsound₁ heven hsteady₂ hopens₂) hreported hticks
  have happlied : Applied view₀ idx.toNat up s₃ := (reads_calls hidx hmax heven).target
    (steadySteps_run hsound₂ heven hsteady₃ hopens₃) hpublished hreads
  exact happlied.follows hidx hmax heven (steadySteps_run hsound₃ heven hsteady₄ hopens)

/-- The only backend fails its probes: the health checker makes two rounds, the poller publishes and
finds nothing new, and the control loop reads twice. The next frame opens no flow. -/
theorem follows_probes_one_backend :
    let backends : List BackendInfo := [{ ip := 0x0A000202, port := 8080 }]
    let view₀ : ControlView := {
      seq := 2
      count := 1
      backends := fun _ => { ip := 0x0A000202, port := 8080, enabled := 1 } }
    let hash : FlowKey → UInt32 := fun _ => 0
    let rounds := List.replicate 6 (Move.health false 0)
    let ticks := List.replicate 9 Move.poll
    let reads := List.replicate 10 Move.readControl
    let s := (((start 1 backends view₀ 30000 1).run hash backends rounds).run hash
      backends ticks).run hash backends reads
    Follows hash backends 0 false s (s.run hash backends [.frame 0 0]) := by
  intro backends view₀ hash rounds ticks reads s
  exact follows_probes 1 hash backends view₀ 30000 1 (by decide) 0 (by decide) (by decide) false []
    rounds ticks reads [.frame 0 0] (by decide) (by decide) (by decide) (by decide) (by decide)

end Service

end Cerebellum
