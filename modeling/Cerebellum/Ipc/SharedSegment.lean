import Cerebellum.Ipc.ControlSnapshots

/-!
# Several publishers on one control segment

The data plane seeds the control view when it starts, and the control plane publishes into it; the
segment outlives both, and is not cleared when it is opened again. Here any number of calls of
`PublishControl` make their steps on one view in any order, and a call may be cut off after any of
its steps.

A publisher adds to whatever sequence number it finds, so the next call that runs alone leaves the
parity as it was. If it was even, `ReadControl` returns the list of that call; if it was odd,
because a call was cut off between its two stores of the sequence number or two calls overlapped,
`ReadControl` spins forever.

## Main definitions

* `Cerebellum.Segment`, `Cerebellum.Segment.run`: the view, the calls under way, and histories.
* `Cerebellum.Segment.publishAlone`: a call that runs alone to completion.
* `Cerebellum.Segment.Recovers`: `ReadControl` then returns its list.
* `Cerebellum.Segment.Disciplined`: no calls overlap and none is cut off while it writes.

## Main results

* `Cerebellum.Segment.recovers_iff_even`: when the segment recovers.
* `Cerebellum.Segment.cut_off_publish_blocks_reader`: a history after which it does not.
-/

namespace Cerebellum

/-- One step of a call of `PublishControl` on a view: the new view, and where the call stands. -/
def publishStep (view : ControlView) (call : Publisher) (src : List ControlBackend) :
    ControlView × Publisher :=
  let s := Control.publish { view := view, publisher := call, applied := 0 } src
  (s.view, s.publisher)

/-- The view, and where each call stands. -/
structure Segment where
  view : ControlView := {}
  calls : ℕ → Publisher := fun _ => .idle

namespace Segment

/-- Caller `k` makes its next step, or its process dies. A caller between two calls begins one for
the given list. -/
inductive Move
  | publish (k : ℕ) (src : List ControlBackend)
  | die (k : ℕ)

/-- One move. -/
def step (s : Segment) : Move → Segment
  | .publish k src =>
    let r := publishStep s.view (s.calls k) src
    { view := r.1, calls := Function.update s.calls k r.2 }
  | .die k => { s with calls := Function.update s.calls k .idle }

/-- A history of the segment. -/
def run (s : Segment) (moves : List Move) : Segment := moves.foldl step s

/-- The number of steps of a call of `PublishControl`. -/
def publishLength (src : List ControlBackend) : ℕ := 2 * min src.length kMaxBackends + 5

/-- Caller `k` makes all steps of a call while no one else moves. -/
def publishAlone (s : Segment) (k : ℕ) (src : List ControlBackend) : Segment :=
  s.run (List.replicate (publishLength src) (.publish k src))

/-- `ReadControl` after its first `m` steps, while no one else moves. -/
def readAlone (view : ControlView) (m : ℕ) : Control :=
  (Control.init view 0).run (List.replicate m .read)

/-- Once caller `k` has published `src` alone, `ReadControl` alone returns, and returns the list. -/
def Recovers (s : Segment) (k : ℕ) (src : List ControlBackend) : Prop :=
  (s.publishAlone k src).calls k = .idle ∧
    ∃ m seq, (readAlone (s.publishAlone k src).view m).returned = [(seq, clamp src)]

/-- In the history a call begins only when no other is under way, and no call is cut off between its
two stores of the sequence number. -/
def Disciplined (s : Segment) : List Move → Prop
  | [] => True
  | .publish k src :: moves =>
    (s.calls k = .idle → ∀ j, s.calls j = .idle) ∧ Disciplined (s.step (.publish k src)) moves
  | .die k :: moves => (s.calls k).isWriting = false ∧ Disciplined (s.step (.die k)) moves

/-! ### A call that runs alone -/

section Alone

variable {view : ControlView} {src : List ControlBackend} {start : UInt32} {i : ℕ}

/-- The first `m` steps of a call that runs alone. -/
def publishSteps (src : List ControlBackend) (m : ℕ) (r : ControlView × Publisher) :
    ControlView × Publisher :=
  (fun r => publishStep r.1 r.2 src)^[m] r

theorem publishSteps_succ (src : List ControlBackend) (m : ℕ) (r : ControlView × Publisher) :
    publishSteps src (m + 1) r = publishSteps src m (publishStep r.1 r.2 src) := rfl

theorem publishSteps_add (src : List ControlBackend) (m n : ℕ) (r : ControlView × Publisher) :
    publishSteps src (m + n) r = publishSteps src n (publishSteps src m r) := by
  rw [publishSteps, Nat.add_comm, Function.iterate_add_apply]
  rfl

/-- The call is at the head of its loop, with the first `i` entries written. -/
structure Copied (src : List ControlBackend) (start : UInt32) (i : ℕ)
    (r : ControlView × Publisher) : Prop where
  call : r.2 = .looping src start i
  count : r.1.count = min src.length kMaxBackends
  entries : ∀ j < i, r.1.backends j = src.getD j default

/-- One round of the loop. -/
theorem Copied.round {r : ControlView × Publisher} (h : Copied src start i r)
    (hi : i < min src.length kMaxBackends) :
    Copied src start (i + 1) (publishSteps src 2 r) := by
  obtain ⟨view, call⟩ := r
  obtain rfl : call = _ := h.call
  have hlt : i < view.count := h.count ▸ hi
  have hround : publishSteps src 2 (view, .looping src start i) =
      ({ view with backends := Function.update view.backends i (src.getD i default) },
        .looping src start (i + 1)) := by
    simp only [publishSteps, Function.iterate_succ, Function.iterate_zero, Function.comp_apply, id,
      publishStep, Control.publish, if_pos hlt]
  rw [hround]
  refine ⟨rfl, h.count, fun j hj => ?_⟩
  rcases eq_or_ne j i with rfl | hne
  · exact Function.update_self ..
  · exact (Function.update_of_ne hne _ _).trans (h.entries j (by omega))

/-- The loop writes all entries. -/
theorem Copied.loop {r : ControlView × Publisher} {n : ℕ} (h : Copied src start i r)
    (hn : i + n = min src.length kMaxBackends) :
    Copied src start (min src.length kMaxBackends) (publishSteps src (2 * n) r) := by
  induction n generalizing r i with
  | zero => exact hn ▸ h
  | succ n ih =>
    rw [Nat.mul_succ, Nat.add_comm, publishSteps_add]
    exact ih (h.round (by omega)) (by omega)

/-- A call that runs alone raises the sequence number by two and leaves its list in the view. -/
theorem publishSteps_spec (view : ControlView) (src : List ControlBackend) :
    (publishSteps src (publishLength src) (view, .idle)).2 = .idle ∧
      (publishSteps src (publishLength src) (view, .idle)).1.seq = view.seq + 2 ∧
      (publishSteps src (publishLength src) (view, .idle)).1.content = clamp src := by
  have hlength : publishLength src = 3 + (2 * min src.length kMaxBackends + 2) := by
    rw [publishLength]
    omega
  rw [hlength, publishSteps_add, publishSteps_add]
  have hcopied : Copied src view.seq 0 (publishSteps src 3 (view, .idle)) :=
    ⟨rfl, rfl, fun j hj => absurd hj (Nat.not_lt_zero j)⟩
  have hdone := hcopied.loop (Nat.zero_add _)
  generalize publishSteps src (2 * min src.length kMaxBackends)
    (publishSteps src 3 (view, .idle)) = r at hdone
  obtain ⟨view', call⟩ := r
  obtain rfl : call = _ := hdone.call
  have hcount : ¬ min src.length kMaxBackends < view'.count := hdone.count ▸ Nat.lt_irrefl _
  have hlast : publishSteps src 2 (view', .looping src view.seq (min src.length kMaxBackends)) =
      ({ view' with seq := view.seq + 2 }, .idle) := by
    simp only [publishSteps, Function.iterate_succ, Function.iterate_zero, Function.comp_apply, id,
      publishStep, Control.publish, if_neg hcount]
  rw [hlast]
  refine ⟨rfl, rfl, ControlView.content_eq_clamp hdone.count fun j hj => ?_⟩
  exact hdone.entries j (hdone.count ▸ hj)

end Alone

variable {s : Segment} {k : ℕ} {src : List ControlBackend}

/-- The moves of one caller alone are the steps of its call. -/
theorem run_replicate (s : Segment) (k : ℕ) (src : List ControlBackend) (m : ℕ) :
    s.run (List.replicate m (.publish k src)) =
      { view := (publishSteps src m (s.view, s.calls k)).1
        calls := Function.update s.calls k (publishSteps src m (s.view, s.calls k)).2 } := by
  induction m generalizing s with
  | zero =>
    rw [publishSteps, Function.iterate_zero, id, Function.update_eq_self]
    rfl
  | succ m ih =>
    rw [List.replicate_succ, run, List.foldl_cons, ← run, ih, publishSteps_succ]
    simp only [step, Function.update_self, Function.update_idem]

theorem publishAlone_spec (hidle : s.calls k = .idle) (src : List ControlBackend) :
    (s.publishAlone k src).calls k = .idle ∧
      (s.publishAlone k src).view.seq = s.view.seq + 2 ∧
      (s.publishAlone k src).view.content = clamp src := by
  obtain ⟨hcall, hview⟩ := publishSteps_spec s.view src
  rw [publishAlone, run_replicate, hidle]
  exact ⟨(Function.update_self ..).trans hcall, hview⟩

/-! ### A reader that runs alone -/

/-- The loop of `ReadControl` copies the content of the view, and `ReadControl` returns. -/
theorem returned_of_copying {c : Control} {count : Fin (kMaxBackends + 1)} {out : Snapshot} {n : ℕ}
    (hreader : c.reader = .copying c.view.seq count out) (hout : out.1 <+: c.view.content.1)
    (hcount : (count : ℕ) = c.view.content.1.length) (hn : out.1.length + n = count) :
    (c.run (List.replicate (n + 1) .read)).returned =
      c.returned ++ [(c.view.seq, c.view.content)] := by
  induction n generalizing c out with
  | zero =>
    have hdone : out = c.view.content :=
      Subtype.ext (hout.eq_of_length (by omega))
    have hlt : ¬ out.1.length < count := by omega
    have hread : c.read = c.readReturn c.view.seq out := by
      simp only [Control.read, hreader, hlt, dite_false, if_true]
    change (c.read).returned = _
    rw [hread, hdone]
    rfl
  | succ n ih =>
    have hlt : out.1.length < count := by omega
    obtain ⟨out', hout', hread⟩ : ∃ out' : Snapshot,
        out'.1 = out.1 ++ [c.view.backends out.1.length] ∧
          c.read = { c with reader := .copying c.view.seq count out' } := by
      refine ⟨⟨out.1 ++ [c.view.backends out.1.length], ?_⟩, rfl, ?_⟩
      · rw [List.length_append, List.length_singleton]
        omega
      · simp only [Control.read, hreader, hlt, dite_true]
    change ((c.read).run (List.replicate (n + 1) .read)).returned = _
    rw [hread]
    refine ih rfl ?_ hcount ?_
    · rw [hout']
      exact Control.append_getElem_content hout (hcount ▸ hlt)
    · rw [hout', List.length_append, List.length_singleton]
      omega

/-- `ReadControl` alone returns the content of a view whose sequence number is even. -/
theorem exists_returned {view : ControlView} (heven : view.seq &&& 1 = 0) :
    ∃ m, (readAlone view m).returned = [(view.seq, view.content)] := by
  have hlength : view.content.1.length = min view.count kMaxBackends := by
    simp [ControlView.content]
  refine ⟨3 + (min view.count kMaxBackends + 1), ?_⟩
  have hstart : readAlone view 3 = { Control.init view 0 with
      reader := .copying view.seq
        ⟨min view.count kMaxBackends, Nat.lt_succ_of_le (Nat.min_le_right _ _)⟩
        ⟨[], Nat.zero_le _⟩ } := by
    simp [readAlone, Control.run, List.replicate, Control.step, Control.read, Control.init, heven]
  rw [readAlone, List.replicate_add, Control.run, List.foldl_append, ← Control.run, ← Control.run,
    ← readAlone, hstart]
  exact returned_of_copying rfl List.nil_prefix hlength.symm (Nat.zero_add _)

/-- `ReadControl` alone never returns from a view whose sequence number is odd. -/
theorem returned_eq_nil {view : ControlView} (hodd : view.seq &&& 1 ≠ 0) (m : ℕ) :
    (readAlone view m).returned = [] := by
  have hspin (m : ℕ) : ({ Control.init view 0 with reader := .entering } : Control).run
      (List.replicate m .read) = { Control.init view 0 with reader := .entering } := by
    induction m with
    | zero => rfl
    | succ m ih =>
      rw [List.replicate_succ, Control.run, List.foldl_cons, ← Control.run]
      have hstep : ({ Control.init view 0 with reader := .entering } : Control).step .read =
          { Control.init view 0 with reader := .entering } := by
        simp only [Control.step, Control.read, Control.init, ne_eq, hodd, not_false_eq_true,
          if_true]
      rw [hstep, ih]
  cases m with
  | zero => rfl
  | succ m =>
    change (({ Control.init view 0 with reader := .entering } : Control).run
      (List.replicate m .read)).returned = []
    rw [hspin]
    rfl

/-! ### Histories -/

/-- The sequence number is even except between the two stores of the call, when it is one more than
the call found. -/
def Paired (view : ControlView) : Publisher → Prop
  | .idle => view.seq &&& 1 = 0
  | .loaded _ start => start = view.seq ∧ view.seq &&& 1 = 0
  | .opened _ start => view.seq = start + 1 ∧ start &&& 1 = 0
  | .looping _ start _ => view.seq = start + 1 ∧ start &&& 1 = 0
  | .copying _ start _ => view.seq = start + 1 ∧ start &&& 1 = 0
  | .closing _ start => view.seq = start + 1 ∧ start &&& 1 = 0

theorem add_two_and_one {a : UInt32} : (a + 2) &&& 1 = 0 ↔ a &&& 1 = 0 := by
  rw [and_one_eq_zero_iff, and_one_eq_zero_iff, UInt32.toNat_add]
  have htwo : (2 : UInt32).toNat = 2 := rfl
  omega

theorem Paired.publishStep {view : ControlView} {call : Publisher} (h : Paired view call)
    (src : List ControlBackend) :
    Paired (publishStep view call src).1 (publishStep view call src).2 := by
  cases call with
  | idle => exact ⟨rfl, h⟩
  | loaded src' start => exact ⟨rfl, h.1 ▸ h.2⟩
  | opened src' start => exact h
  | looping src' start i =>
    by_cases hlt : i < view.count
    · simp only [Cerebellum.publishStep, Control.publish, if_pos hlt]
      exact h
    · simp only [Cerebellum.publishStep, Control.publish, if_neg hlt]
      exact h
  | copying src' start i => exact h
  | closing src' start => exact add_two_and_one.mpr h.2

/-- At most one call is under way, and it is paired with the sequence number. -/
def Alternating (s : Segment) : Prop :=
  ∃ k, (∀ j ≠ k, s.calls j = .idle) ∧ Paired s.view (s.calls k)

theorem Alternating.publish (h : s.Alternating)
    (hbegin : s.calls k = .idle → ∀ j, s.calls j = .idle) (src : List ControlBackend) :
    (s.step (.publish k src)).Alternating := by
  obtain ⟨c, hidle, hpaired⟩ := h
  -- the caller is the one under way, or there is none
  have hk : (∀ j ≠ k, s.calls j = .idle) ∧ Paired s.view (s.calls k) := by
    rcases eq_or_ne k c with rfl | hne
    · exact ⟨hidle, hpaired⟩
    · have hall := hbegin (hidle k hne)
      rw [hall c] at hpaired
      exact ⟨fun j _ => hall j, (hall k).symm ▸ hpaired⟩
  refine ⟨k, fun j hj => (Function.update_of_ne hj _ _).trans (hk.1 j hj), ?_⟩
  simp only [step, Function.update_self]
  exact hk.2.publishStep src

theorem Alternating.die (h : s.Alternating) (hwriting : (s.calls k).isWriting = false) :
    (s.step (.die k)).Alternating := by
  obtain ⟨c, hidle, hpaired⟩ := h
  refine ⟨c, fun j hj => ?_, ?_⟩
  · rcases eq_or_ne j k with rfl | hne
    · exact Function.update_self ..
    · exact (Function.update_of_ne hne _ _).trans (hidle j hj)
  · rcases eq_or_ne c k with rfl | hne
    · simp only [step, Function.update_self]
      cases hcall : s.calls c with
      | idle => rwa [hcall] at hpaired
      | loaded src start =>
        rw [hcall] at hpaired
        exact hpaired.2
      | opened src start => exact Bool.noConfusion (hcall ▸ hwriting)
      | looping src start i => exact Bool.noConfusion (hcall ▸ hwriting)
      | copying src start i => exact Bool.noConfusion (hcall ▸ hwriting)
      | closing src start => exact Bool.noConfusion (hcall ▸ hwriting)
    · simp only [step, Function.update_of_ne hne]
      exact hpaired

/-- In a disciplined history the next call finds an even sequence number. -/
theorem Alternating.even_of_disciplined (h : s.Alternating) {moves : List Move}
    (hdisciplined : s.Disciplined (moves ++ [.publish k src]))
    (hidle : (s.run moves).calls k = .idle) : (s.run moves).view.seq &&& 1 = 0 := by
  induction moves generalizing s with
  | nil =>
    obtain ⟨c, -, hpaired⟩ := h
    rwa [hdisciplined.1 hidle c] at hpaired
  | cons move moves ih =>
    cases move with
    | publish j src' => exact ih (h.publish hdisciplined.1 src') hdisciplined.2 hidle
    | die j => exact ih (h.die hdisciplined.1) hdisciplined.2 hidle

/-- Interrupted and overlapping publishes. After every history of a fresh segment, and for every
further call of `PublishControl` that runs alone: `ReadControl` then returns exactly its list if and
only if the call found an even sequence number. It does so in every history in which no calls
overlap and none is cut off between its two stores of the sequence number. -/
theorem recovers_iff_even (moves : List Move) (k : ℕ) (src : List ControlBackend)
    (hidle : (({} : Segment).run moves).calls k = .idle) :
    ((({} : Segment).run moves).Recovers k src ↔
        (({} : Segment).run moves).view.seq &&& 1 = 0) ∧
      (({} : Segment).Disciplined (moves ++ [.publish k src]) →
        (({} : Segment).run moves).Recovers k src) := by
  have hiff : (({} : Segment).run moves).Recovers k src ↔
      (({} : Segment).run moves).view.seq &&& 1 = 0 := by
    obtain ⟨hcall, hseq, hcontent⟩ := publishAlone_spec hidle src
    rw [← add_two_and_one, ← hseq]
    constructor
    · rintro ⟨-, m, seq, hreturned⟩
      by_contra hodd
      rw [returned_eq_nil hodd] at hreturned
      exact absurd hreturned.symm (List.cons_ne_nil _ _)
    · intro heven
      obtain ⟨m, hreturned⟩ := exists_returned heven
      exact ⟨hcall, m, _, hcontent ▸ hreturned⟩
  refine ⟨hiff, fun hdisciplined => hiff.mpr ?_⟩
  have hfresh : ({} : Segment).Alternating :=
    ⟨0, fun _ _ => rfl, show (0 : UInt32) &&& 1 = 0 by decide⟩
  exact hfresh.even_of_disciplined hdisciplined hidle

/-- A list with one backend, enabled or not. -/
def oneEntry (enabled : UInt8) : List ControlBackend :=
  [{ ip := 0x0A000202, port := 8080, enabled := enabled }]

/-- A call returns, and the next caller dies before it has stored anything. -/
def cutOffEarly : List Move :=
  .replicate (publishLength (oneEntry 1)) (.publish 0 (oneEntry 1)) ++
    [.publish 1 (oneEntry 0), .die 1]

/-- The segment recovers with the next call. -/
theorem publish_after_cut_off_recovers :
    (({} : Segment).run cutOffEarly).view.seq = 2 ∧
      (({} : Segment).run cutOffEarly).Recovers 2 (oneEntry 0) := by
  have hseq : (({} : Segment).run cutOffEarly).view.seq = 2 := by decide +kernel
  refine ⟨hseq, (recovers_iff_even cutOffEarly 2 (oneEntry 0) rfl).2 ?_⟩
  refine ⟨fun _ _ => rfl, nofun, nofun, nofun, nofun, nofun, nofun, fun _ j => ?_, rfl,
    fun _ j => ?_, trivial⟩
  · cases j with
    | zero => rfl
    | succ j => rfl
  · match j with
    | 0 => rfl
    | 1 => rfl
    | j + 2 => rfl

/-- A publisher dies after it made the sequence number odd. The next publish runs alone to
completion, and `ReadControl` spins forever. -/
theorem cut_off_publish_blocks_reader :
    let src : List ControlBackend := [{ ip := 0x0A000202, port := 8080, enabled := 1 }]
    let s := ({} : Segment).run [.publish 0 src, .publish 0 src, .die 0]
    s.calls 1 = .idle ∧ (s.publishAlone 1 src).calls 1 = .idle ∧
      ∀ m, (readAlone (s.publishAlone 1 src).view m).returned = [] := by
  intro src s
  obtain ⟨hcall, hseq, -⟩ := publishAlone_spec (s := s) (k := 1) rfl src
  refine ⟨rfl, hcall, fun m => returned_eq_nil ?_ m⟩
  rw [hseq]
  decide

end Segment

end Cerebellum
