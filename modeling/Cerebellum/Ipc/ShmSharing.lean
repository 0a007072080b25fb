import Cerebellum.Ipc.ShmSafety
import Mathlib.Tactic.IntervalCases

/-!
# Which providers share a segment

The data plane and the control plane find each other by the name of a segment only. Two providers
of one name have the same segment exactly when the name was bound all the time between their calls
of `shm_open`: a data plane that died leaves its segment to the next one, and with it those who are
attached; one that was destroyed removes the name, and no later data plane is on the segment of
those who were attached before. This holds whatever sizes they ask for.

A constructor returns if its own calls succeed, whatever the others do meanwhile: in create mode
always, and in attach mode if it opens the segment of a provider that is ready.

## Main definitions

* `Cerebellum.SharedMemory.OpensAt`, `Cerebellum.SharedMemory.BoundBetween`.
* `Cerebellum.SharedMemory.SharesWhileBound`: when two mappings are of one segment.
* `Cerebellum.SharedMemory.ConstructorsReturn`: when a constructor returns.

## Main results

* `Cerebellum.providers_share_while_bound`, `Cerebellum.constructors_return`.
-/

namespace Cerebellum

/-! ### The descriptor and the mapping of a provider -/

namespace ShmProvider

variable {k : Kernel} {pr : ShmProvider} {ok : Bool} {stage : Stage} {o : ℕ}

/-- What a provider has mapped is what it has open, whatever segments there are. -/
def HeldAt (pr : ShmProvider) : Stage → Prop
  | .opening | .unlinking _ | .done _ => pr.Closed
  | .closing _ => pr.ptr = none
  | _ => pr.ptr = none ∨ pr.ptr = pr.fd

theorem HeldAt.throws (h : pr.ptr = none ∨ pr.ptr = pr.fd) : pr.throws.HeldAt pr.throws.stage := h

theorem HeldAt.stop (outcome : Outcome) : (pr.stop outcome).HeldAt (pr.stop outcome).stage :=
  ⟨rfl, rfl⟩

/-- An access to the header leaves the descriptor and the mapping as they are, or ends it all. -/
theorem heldAt_access {next : ℕ → Kernel × ShmProvider}
    (h : ∀ o, (next o).2.HeldAt (next o).2.stage) :
    (access k pr next).2.HeldAt (access k pr next).2.stage := by
  rw [access]
  split
  · split_ifs
    · exact .stop _
    · exact h _
  · exact .stop _

theorem heldAt_onDescriptor {next : ℕ → Kernel × ShmProvider}
    (hptr : pr.ptr = none ∨ pr.ptr = pr.fd)
    (h : ∀ o, pr.fd = some o → (next o).2.HeldAt (next o).2.stage) :
    (onDescriptor k pr next).2.HeldAt (onDescriptor k pr next).2.stage := by
  rw [onDescriptor]
  split
  next o hfd => exact h o hfd
  · exact .throws hptr

theorem HeldAt.stepAt (h : pr.HeldAt stage) (hstage : pr.stage = stage) (ok : Bool) :
    (pr.stepAt k ok stage).2.HeldAt (pr.stepAt k ok stage).2.stage := by
  cases stage with
  | opening =>
    rw [ShmProvider.stepAt]
    split
    · split_ifs <;> exact .inl h.2
    · exact h
  | truncating =>
    refine heldAt_onDescriptor h fun o _ => ?_
    split_ifs
    · exact h
    · exact .throws h
  | changingMode =>
    rw [ShmProvider.stepAt]
    split_ifs
    · exact h
    · exact .throws h
  | verifyingSize =>
    refine heldAt_onDescriptor h fun o _ => ?_
    split_ifs
    · exact h
    · exact .throws h
  | mapping =>
    refine heldAt_onDescriptor h fun o hfd => ?_
    split_ifs
    · exact .inr hfd.symm
    · exact .inr hfd.symm
    · exact .throws h
  | writingMagic => exact heldAt_access fun _ => h
  | writingVersion => exact heldAt_access fun _ => h
  | checkingMagic | checkingVersion =>
    refine heldAt_access fun o => ?_
    split_ifs
    · exact h
    · exact .throws h
  | ready =>
    rw [ShmProvider.stepAt, hstage]
    exact h
  | unmapping outcome => exact rfl
  | closing outcome =>
    rw [ShmProvider.stepAt]
    split_ifs <;> exact ⟨rfl, h⟩
  | unlinking outcome => exact h
  | done outcome =>
    rw [ShmProvider.stepAt, hstage]
    exact h

theorem HeldAt.destroy (h : pr.HeldAt pr.stage) : pr.destroy.HeldAt pr.destroy.stage := by
  rw [ShmProvider.destroy]
  split_ifs with hstage
  · rwa [hstage] at h
  · exact h

theorem HeldAt.die (h : pr.HeldAt pr.stage) : pr.die.HeldAt pr.die.stage := by
  rw [ShmProvider.die]
  split
  · exact h
  · exact .stop _

theorem HeldAt.fd_eq (h : pr.HeldAt stage) (hptr : pr.ptr = some o) : pr.fd = some o := by
  have hnone (hnone : pr.ptr = none) : pr.fd = some o :=
    absurd (hnone.symm.trans hptr) (Option.some_ne_none o).symm
  cases stage with
  | opening | unlinking _ | done _ => exact hnone h.2
  | closing _ => exact hnone h
  | _ => exact h.elim hnone fun hsame => hsame.symm.trans hptr

/-- A descriptor is opened in the first step only. -/
theorem fd_stepAt (hfd : (pr.stepAt k ok stage).2.fd = some o) :
    pr.fd = some o ∨ stage = .opening := by
  cases stage with
  | opening => exact .inr rfl
  | closing _ => exact absurd hfd (Option.some_ne_none o).symm
  | _ =>
    left
    simp only [ShmProvider.stepAt, access, onDescriptor] at hfd
    repeat' split at hfd
    all_goals first
      | exact hfd
      | exact absurd hfd (Option.some_ne_none o).symm

/-- The call of `shm_open` in a constructor that got a descriptor. -/
theorem shmOpen_of_opening (hclosed : pr.Closed)
    (hfd : (pr.stepAt k ok .opening).2.fd = some o) :
    k.shmOpen (pr.mode = .create) pr.name = some ((pr.stepAt k ok .opening).1, o) := by
  rw [ShmProvider.stepAt] at hfd ⊢
  cases hopen : (if ok = true then k.shmOpen (pr.mode = .create) pr.name else none) with
  | none =>
    simp only [hopen] at hfd
    exact absurd (hclosed.1.symm.trans hfd) (Option.some_ne_none o).symm
  | some r =>
    simp only [hopen] at hfd
    obtain rfl := Option.some.inj hfd
    split_ifs at hopen
    exact hopen

end ShmProvider

namespace Kernel

variable {k k' : Kernel}

theorem lookup_of_shmOpen {oCreat : Bool} {name : String} {o : ℕ}
    (h : k.shmOpen oCreat name = some (k', o)) : k'.names.lookup name = some o := by
  rw [shmOpen] at h
  split at h
  next o' hlookup =>
    obtain ⟨rfl, rfl⟩ := Prod.mk.inj (Option.some.inj h)
    exact hlookup
  · split_ifs at h
    obtain ⟨rfl, rfl⟩ := Prod.mk.inj (Option.some.inj h)
    exact Registry.lookup_make_self

theorem step_of_shmOpen {oCreat : Bool} {name : String} {o : ℕ}
    (h : k.shmOpen oCreat name = some (k', o)) : Registry.Step k.names k'.names := by
  rw [shmOpen] at h
  split at h
  · obtain ⟨rfl, rfl⟩ := Prod.mk.inj (Option.some.inj h)
    exact .same _
  next hlookup =>
    split_ifs at h
    obtain ⟨rfl, rfl⟩ := Prod.mk.inj (Option.some.inj h)
    exact .make hlookup

end Kernel

namespace ShmProvider

variable {k : Kernel} {pr : ShmProvider} {ok : Bool}

/-- What a provider does to the names. -/
theorem names_stepAt (stage : Stage) :
    Registry.Step k.names (pr.stepAt k ok stage).1.names := by
  cases stage with
  | opening =>
    rw [ShmProvider.stepAt]
    split
    next hopen =>
      split_ifs at hopen
      exact Kernel.step_of_shmOpen hopen
    · exact .same _
  | unlinking _ =>
    rw [ShmProvider.stepAt]
    split_ifs
    · exact .remove _ _
    · exact .same _
  | _ =>
    simp only [ShmProvider.stepAt, access, onDescriptor]
    repeat' split
    all_goals exact .same _

end ShmProvider

/-! ### Histories -/

namespace SharedMemory

variable {s : SharedMemory} {args : ℕ → ShmArgs} {moves : List Move} {p q m : ℕ}

theorem names_step (s : SharedMemory) (move : Move) :
    Registry.Step s.kernel.names (s.step move).kernel.names := by
  cases move with
  | call p ok => exact ShmProvider.names_stepAt _
  | _ => exact .same _

/-- Everything that a provider has mapped it has open. -/
def Held (s : SharedMemory) : Prop := ∀ p, (s.providers p).HeldAt (s.providers p).stage

/-- The state after the first `m` moves. -/
def after (args : ℕ → ShmArgs) (moves : List Move) (m : ℕ) : SharedMemory :=
  (start args).run (moves.take m)

/-- In its move with number `m` the provider opens segment `o`. -/
def OpensAt (args : ℕ → ShmArgs) (moves : List Move) (p m o : ℕ) : Prop :=
  ((after args moves m).providers p).fd = none ∧
    ((after args moves (m + 1)).providers p).fd = some o

/-- The name is bound in all states from the one to the other. -/
def BoundBetween (args : ℕ → ShmArgs) (moves : List Move) (name : String) (i j : ℕ) : Prop :=
  ∀ m, i ≤ m → m ≤ j → (after args moves m).kernel.names.lookup name ≠ none

/-- Two mappings that are in place after some moves are mappings of one segment if and only if their
name was bound all the time between the two calls of `shm_open`. -/
def SharesWhileBound (args : ℕ → ShmArgs) (moves : List Move) : Prop :=
  ∀ m p q a b, ((after args moves m).providers p).ptr = some a →
    ((after args moves m).providers q).ptr = some b → (args p).name = (args q).name →
    ∃ i < m, ∃ j < m, OpensAt args moves p i a ∧ OpensAt args moves q j b ∧
      (a = b ↔ BoundBetween args moves (args p).name (min i j + 1) (max i j + 1))

theorem after_succ (args : ℕ → ShmArgs) (moves : List Move) (m : ℕ) :
    after args moves (m + 1) = after args moves m ∨
      ∃ move, after args moves (m + 1) = (after args moves m).step move := by
  by_cases hm : m < moves.length
  · refine .inr ⟨moves[m], ?_⟩
    rw [after, after, List.take_add_one, List.getElem?_eq_getElem hm, run, List.foldl_append]
    rfl
  · refine .inl ?_
    rw [after, after, List.take_of_length_le (by omega), List.take_of_length_le (by omega)]

theorem names_after_succ (args : ℕ → ShmArgs) (moves : List Move) (m : ℕ) :
    Registry.Step (after args moves m).kernel.names (after args moves (m + 1)).kernel.names := by
  obtain hsame | ⟨move, hstep⟩ := after_succ args moves m
  · rw [hsame]
    exact .same _
  · rw [hstep]
    exact names_step _ move

/-- What a move does to a provider. -/
theorem providers_step (s : SharedMemory) (move : Move) (p : ℕ) :
    (s.step move).providers p = s.providers p ∨
      (s.step move).providers p = (s.providers p).destroy ∨
      (s.step move).providers p = (s.providers p).die ∨
      ∃ ok, (s.step move).providers p = ((s.providers p).step s.kernel ok).2 ∧
        (s.step move).kernel = ((s.providers p).step s.kernel ok).1 := by
  have hupdate (q : ℕ) (pr : ShmProvider) : Function.update s.providers q pr p = s.providers p ∨
      p = q ∧ Function.update s.providers q pr p = pr := by
    obtain rfl | hne := eq_or_ne p q
    · exact .inr ⟨rfl, Function.update_self _ _ _⟩
    · exact .inl (Function.update_of_ne hne _ _)
  cases move with
  | call q ok =>
    obtain hsame | ⟨rfl, hnew⟩ := hupdate q ((s.providers q).step s.kernel ok).2
    · exact .inl hsame
    · exact .inr (.inr (.inr ⟨ok, hnew, rfl⟩))
  | destroy q =>
    obtain hsame | ⟨rfl, hnew⟩ := hupdate q (s.providers q).destroy
    · exact .inl hsame
    · exact .inr (.inl hnew)
  | die q =>
    obtain hsame | ⟨rfl, hnew⟩ := hupdate q (s.providers q).die
    · exact .inl hsame
    · exact .inr (.inr (.inl hnew))

theorem Held.step (h : s.Held) (move : Move) : (s.step move).Held := by
  intro p
  obtain hsame | hnew | hnew | ⟨ok, hnew, -⟩ := providers_step s move p
  · rw [hsame]
    exact h p
  · rw [hnew]
    exact (h p).destroy
  · rw [hnew]
    exact (h p).die
  · rw [hnew]
    exact (h p).stepAt rfl ok

theorem held_after (args : ℕ → ShmArgs) (moves : List Move) (m : ℕ) :
    (after args moves m).Held := by
  induction m with
  | zero => exact fun p => ⟨rfl, rfl⟩
  | succ m ih =>
    obtain hsame | ⟨move, hstep⟩ := after_succ args moves m
    · rwa [hsame]
    · rw [hstep]
      exact ih.step move

theorem toShmArgs_step (s : SharedMemory) (move : Move) (p : ℕ) :
    ((s.step move).providers p).toShmArgs = (s.providers p).toShmArgs := by
  obtain hsame | hnew | hnew | ⟨ok, hnew, -⟩ := providers_step s move p
  · rw [hsame]
  · rw [hnew, ShmProvider.toShmArgs_destroy]
  · rw [hnew, ShmProvider.toShmArgs_die]
  · rw [hnew, ShmProvider.step, ShmProvider.toShmArgs_stepAt]

theorem toShmArgs_run (s : SharedMemory) (moves : List Move) (p : ℕ) :
    ((s.run moves).providers p).toShmArgs = (s.providers p).toShmArgs := by
  induction moves generalizing s with
  | nil => rfl
  | cons move moves ih => exact (ih (s.step move)).trans (toShmArgs_step s move p)

theorem toShmArgs_after (args : ℕ → ShmArgs) (moves : List Move) (m p : ℕ) :
    ((after args moves m).providers p).toShmArgs = args p :=
  toShmArgs_run _ _ _

/-- A descriptor is there already, or it is opened by the move under the name of the provider. -/
theorem Held.fd_step (h : s.Held) {move : Move} {o : ℕ}
    (hfd : ((s.step move).providers p).fd = some o) :
    (s.providers p).fd = some o ∨ (s.providers p).fd = none ∧
      (s.step move).kernel.names.lookup (s.providers p).name = some o := by
  obtain hsame | hnew | hnew | ⟨ok, hnew, hkernel⟩ := providers_step s move p
  · exact .inl (hsame ▸ hfd)
  · rw [hnew, ShmProvider.destroy] at hfd
    split_ifs at hfd <;> exact .inl hfd
  · rw [hnew, ShmProvider.die] at hfd
    split at hfd
    · exact .inl hfd
    · exact absurd hfd (Option.some_ne_none o).symm
  · rw [hnew, ShmProvider.step] at hfd
    obtain hold | hopening := ShmProvider.fd_stepAt hfd
    · exact .inl hold
    · have hclosed := h p
      rw [hopening] at hfd hclosed
      rw [hkernel, ShmProvider.step, hopening]
      exact .inr ⟨hclosed.1, Kernel.lookup_of_shmOpen (ShmProvider.shmOpen_of_opening hclosed hfd)⟩

/-- A provider that has a segment open opened it in one of the moves. -/
theorem exists_opensAt {o : ℕ} (hfd : ((after args moves m).providers p).fd = some o) :
    ∃ i < m, OpensAt args moves p i o := by
  induction m with
  | zero => exact absurd hfd (Option.some_ne_none o).symm
  | succ m ih =>
    by_cases hold : ((after args moves m).providers p).fd = some o
    · obtain ⟨i, hi, hopens⟩ := ih hold
      exact ⟨i, hi.trans (Nat.lt_succ_self m), hopens⟩
    · obtain hsame | ⟨move, hstep⟩ := after_succ args moves m
      · exact absurd (hsame ▸ hfd) hold
      · have hcases := (held_after args moves m).fd_step (hstep ▸ hfd)
        exact ⟨m, Nat.lt_succ_self m, (hcases.resolve_left hold).1, hfd⟩

/-- After the move the name refers to the segment that was opened. -/
theorem OpensAt.lookup {o : ℕ} (h : OpensAt args moves p m o) :
    (after args moves (m + 1)).kernel.names.lookup (args p).name = some o := by
  obtain ⟨hnone, hfd⟩ := h
  obtain hsame | ⟨move, hstep⟩ := after_succ args moves m
  · rw [hsame] at hfd
    exact absurd (hnone.symm.trans hfd) (Option.some_ne_none o).symm
  · rw [hstep] at hfd ⊢
    obtain hold | ⟨-, hlookup⟩ := (held_after args moves m).fd_step hfd
    · exact absurd (hnone.symm.trans hold) (Option.some_ne_none o).symm
    · rwa [toShmArgs_after] at hlookup

theorem sound_names_after (args : ℕ → ShmArgs) (moves : List Move) (m : ℕ) :
    (after args moves m).kernel.names.Sound := by
  induction m with
  | zero => exact Registry.sound_empty
  | succ m ih => exact (names_after_succ args moves m).sound ih

/-- Two providers that open a name one after the other. -/
theorem OpensAt.eq_iff {i j a b : ℕ} (hp : OpensAt args moves p i a)
    (hq : OpensAt args moves q j b) (hname : (args p).name = (args q).name) (hij : i ≤ j) :
    a = b ↔ BoundBetween args moves (args p).name (i + 1) (j + 1) :=
  Registry.eq_iff_forall_bound (names_after_succ args moves) (Nat.succ_le_succ hij)
    (sound_names_after args moves _) hp.lookup (hname ▸ hq.lookup)

end SharedMemory

/-- Two providers of one name have the same segment mapped if and only if the name was bound all the
time between their calls of `shm_open`. -/
theorem providers_share_while_bound (args : ℕ → ShmArgs) (moves : List SharedMemory.Move) :
    SharedMemory.SharesWhileBound args moves := by
  intro m p q a b hp hq hname
  have hheld := SharedMemory.held_after args moves m
  obtain ⟨i, hi, hpi⟩ := SharedMemory.exists_opensAt ((hheld p).fd_eq hp)
  obtain ⟨j, hj, hqj⟩ := SharedMemory.exists_opensAt ((hheld q).fd_eq hq)
  refine ⟨i, hi, j, hj, hpi, hqj, ?_⟩
  obtain hij | hji := le_total i j
  · rw [min_eq_left hij, max_eq_right hij]
    exact hpi.eq_iff hqj hname hij
  · rw [min_eq_right hji, max_eq_left hji, eq_comm, hname]
    exact hqj.eq_iff hpi hname.symm hji

/-! ### Constructors that return -/

namespace ShmProvider

/-- The stage after a call that succeeds. -/
def Stage.next (mode : Mode) : Stage → Stage
  | .opening => if mode = .create then .truncating else .verifyingSize
  | .truncating => .changingMode
  | .changingMode | .verifyingSize => .mapping
  | .mapping => if mode = .create then .writingMagic else .checkingMagic
  | .writingMagic => .writingVersion
  | .checkingMagic => .checkingVersion
  | .writingVersion | .checkingVersion | .ready => .ready
  | .unmapping outcome => .closing outcome
  | .closing outcome => if mode = .create then .unlinking outcome else .done outcome
  | .unlinking outcome | .done outcome => .done outcome

/-- The stages at which a provider depends on what others have made of the segment. -/
def Stage.checks : Stage → Bool
  | .verifyingSize | .checkingMagic | .checkingVersion => true
  | _ => false

variable {layout : SegmentSizes} {sizes : ℕ → ℕ} {k : Kernel} {pr : ShmProvider} {stage : Stage}

/-- A provider that opens a segment and finds it whole goes on to the next stage. -/
theorem FitsAt.stage_stepAt (h : pr.FitsAt sizes k stage) (hk : k.Sound layout sizes)
    (hstage : pr.stage = stage) (hoff : pr.size.toNat < 2 ^ 63)
    (hopens : stage = .opening → (k.shmOpen (pr.mode = .create) pr.name).isSome)
    (hchecks : stage.checks → ∀ o, pr.fd = some o → (k.objects o).Reached pr.size.toNat 3) :
    (pr.stepAt k true stage).2.stage = stage.next pr.mode := by
  cases stage with
  | opening =>
    obtain ⟨r, hr⟩ := Option.isSome_iff_exists.mp (hopens rfl)
    simp only [ShmProvider.stepAt, if_true, hr, Stage.next]
  | truncating =>
    obtain ⟨o, h⟩ := h
    rw [ShmProvider.stepAt, h.onDescriptor_eq, if_pos ⟨rfl, hoff⟩]
    rfl
  | changingMode => rfl
  | verifyingSize =>
    obtain ⟨o, h⟩ := h
    have hsized := (hchecks rfl o h.fd_eq).sized (by omega)
    rw [ShmProvider.stepAt, h.onDescriptor_eq, if_pos ⟨rfl, by omega⟩]
    rfl
  | mapping =>
    obtain ⟨o, h⟩ := h
    have hne : pr.size ≠ 0 := by
      intro hzero
      have hheader := h.header_le hk
      rw [hzero] at hheader
      exact absurd hheader (by decide)
    rw [ShmProvider.stepAt, h.onDescriptor_eq, if_pos ⟨rfl, hne⟩]
    rfl
  | writingMagic =>
    obtain ⟨o, h⟩ := h
    rw [ShmProvider.stepAt, h.access_eq hk le_rfl]
    rfl
  | writingVersion =>
    obtain ⟨o, h⟩ := h
    rw [ShmProvider.stepAt, h.access_eq hk (by omega)]
    rfl
  | checkingMagic =>
    obtain ⟨o, h⟩ := h
    rw [ShmProvider.stepAt, h.access_eq hk le_rfl,
      if_pos ((hchecks rfl o h.fd_eq).magic (by omega))]
    rfl
  | checkingVersion =>
    obtain ⟨o, h⟩ := h
    rw [ShmProvider.stepAt, h.access_eq hk (by omega),
      if_pos ((hchecks rfl o h.fd_eq).version le_rfl)]
    rfl
  | ready => exact hstage
  | unmapping _ => rfl
  | closing _ => rfl
  | unlinking _ => rfl
  | done _ => exact hstage

/-- The stages at which the constructor has a descriptor. -/
def Stage.opened : Stage → Bool
  | .opening | .unmapping _ | .closing _ | .unlinking _ | .done _ => false
  | _ => true

theorem FitsAt.exists_fd (h : pr.FitsAt sizes k stage) (hopened : stage.opened) :
    ∃ o, pr.fd = some o := by
  cases stage with
  | opening | unmapping _ | closing _ | unlinking _ | done _ => exact Bool.noConfusion hopened
  | _ =>
    obtain ⟨o, h⟩ := h
    exact ⟨o, h.fd_eq⟩

theorem Stage.iterate_next_of_le {mode : Mode} {m n : ℕ}
    (hm : (Stage.next mode)^[m] .opening = .ready) (hmn : m ≤ n) :
    (Stage.next mode)^[n] .opening = .ready := by
  obtain ⟨d, rfl⟩ := Nat.exists_eq_add_of_le' hmn
  rw [Function.iterate_add_apply, hm]
  exact Function.iterate_fixed rfl d

theorem Stage.iterate_next_create {n : ℕ} (h : 6 ≤ n) :
    (Stage.next .create)^[n] .opening = .ready :=
  iterate_next_of_le rfl h

theorem Stage.iterate_next_attach {n : ℕ} (h : 5 ≤ n) :
    (Stage.next .attach)^[n] .opening = .ready :=
  iterate_next_of_le rfl h

/-- In create mode nothing is checked. -/
theorem Stage.checks_create (n : ℕ) : ((Stage.next .create)^[n] .opening).checks = false := by
  obtain hlt | hle := lt_or_ge n 6
  · interval_cases n <;> rfl
  · rw [iterate_next_create hle]
    rfl

theorem Stage.opened_attach {n : ℕ} (h : 1 ≤ n) :
    ((Stage.next .attach)^[n] .opening).opened = true := by
  obtain hlt | hle := lt_or_ge n 5
  · interval_cases n <;> rfl
  · rw [iterate_next_attach hle]
    rfl

end ShmProvider

namespace SharedMemory

variable {s : SharedMemory} {layout : SegmentSizes} {a : ShmArgs} {q o n : ℕ} {moves : List Move}

/-- The provider that a move is about. -/
def Move.provider : Move → ℕ
  | .call p _ | .destroy p | .die p => p

/-- The moves about the provider are calls that succeed. -/
def Succeeds (q : ℕ) (moves : List Move) : Prop :=
  ∀ move ∈ moves, move.provider = q → move = .call q true

/-- The number of moves about the provider. -/
def calls (q : ℕ) (moves : List Move) : ℕ := moves.countP (·.provider = q)

/-- A property of the provider that its calls and the moves of the others carry along. -/
theorem run_of_succeeds {I : ℕ → SharedMemory → Prop}
    (hown : ∀ n s, I n s → I (n + 1) (s.step (.call q true)))
    (hother : ∀ n s move, move.provider ≠ q → I n s → I n (s.step move))
    (hq : Succeeds q moves) (h : I n s) : I (n + calls q moves) (s.run moves) := by
  induction moves generalizing n s with
  | nil => exact h
  | cons move moves ih =>
    have hrest : Succeeds q moves := fun move' hmem => hq move' (List.mem_cons_of_mem _ hmem)
    rw [calls, List.countP_cons]
    by_cases hmove : move.provider = q
    · obtain rfl := hq move List.mem_cons_self hmove
      rw [if_pos (decide_eq_true hmove), ← add_assoc, add_right_comm]
      exact ih hrest (hown n s h)
    · rw [if_neg (by simpa using hmove)]
      exact ih hrest (hother n s move hmove h)

theorem providers_step_of_ne {move : Move} (h : move.provider ≠ q) :
    (s.step move).providers q = s.providers q := by
  cases move <;> exact Function.update_of_ne (Ne.symm h) _ _

/-- After `n` calls of its own the provider is at the stage that it should; in attach mode it has
segment `o` open, which is whole. -/
structure Making (layout : SegmentSizes) (a : ShmArgs) (q o n : ℕ) (s : SharedMemory) : Prop where
  sound : ∃ sizes, s.Sound layout sizes
  args_eq : (s.providers q).toShmArgs = a
  stage_eq : (s.providers q).stage = (ShmProvider.Stage.next a.mode)^[n] .opening
  whole : a.mode = .attach → 1 ≤ n ∧ o < s.kernel.names.made ∧ (s.providers q).fd = some o ∧
    (s.kernel.objects o).Reached a.size.toNat 3

theorem Making.size_ne_zero (h : Making layout a q o n s) : a.size.toNat ≠ 0 := by
  obtain ⟨sizes, hsound⟩ := h.sound
  have hheader := layout.header_le (s.providers q).name
  rw [← hsound.asks q, h.args_eq] at hheader
  omega

/-- A segment that is whole stays so. -/
theorem Making.reached_step (h : Making layout a q o n s) (hmode : a.mode = .attach)
    (move : Move) : o < (s.step move).kernel.names.made ∧
      ((s.step move).kernel.objects o).Reached a.size.toNat 3 := by
  obtain ⟨sizes, hsound⟩ := h.sound
  obtain ⟨-, -, hgrows, -⟩ := hsound.step move
  obtain ⟨-, hlt, -, hreached⟩ := h.whole hmode
  exact ⟨hlt.trans_le hgrows.made_le, hreached.grows (hgrows.objects o hlt) h.size_ne_zero⟩

theorem Making.other (h : Making layout a q o n s) {move : Move} (hmove : move.provider ≠ q) :
    Making layout a q o n (s.step move) := by
  obtain ⟨sizes, hsound⟩ := h.sound
  obtain ⟨sizes', -, -, hsound'⟩ := hsound.step move
  have hsame := providers_step_of_ne (s := s) hmove
  refine ⟨⟨sizes', hsound'⟩, hsame ▸ h.args_eq, hsame ▸ h.stage_eq, fun hmode => ?_⟩
  obtain ⟨hn, -, hfd, -⟩ := h.whole hmode
  obtain ⟨hlt, hreached⟩ := h.reached_step hmode move
  exact ⟨hn, hlt, hsame ▸ hfd, hreached⟩

/-- With a descriptor the provider has left the first stage. -/
theorem Making.opened (h : Making layout a q o n s) (hmode : a.mode = .attach) :
    (s.providers q).stage.opened = true := by
  rw [h.stage_eq, hmode]
  exact ShmProvider.Stage.opened_attach (h.whole hmode).1

/-- A call of the provider. -/
theorem Making.own (h : Making layout a q o n s) (hoff : a.size.toNat < 2 ^ 63) :
    Making layout a q o (n + 1) (s.step (.call q true)) := by
  obtain ⟨sizes, hsound⟩ := h.sound
  obtain ⟨sizes', -, -, hsound'⟩ := hsound.step (.call q true)
  have hself : (s.step (.call q true)).providers q =
      ((s.providers q).stepAt s.kernel true (s.providers q).stage).2 :=
    Function.update_self _ _ _
  have hstage : ((s.step (.call q true)).providers q).stage =
      (ShmProvider.Stage.next a.mode)^[n + 1] .opening := by
    rw [hself, ShmProvider.FitsAt.stage_stepAt (hsound.fits q) hsound.kernel rfl,
      Function.iterate_succ_apply', ← h.stage_eq, h.args_eq]
    · rwa [h.args_eq]
    · intro hopening
      rw [h.args_eq]
      cases hmode : a.mode with
      | create =>
        rw [Kernel.shmOpen]
        split <;> rfl
      | attach =>
        have hopened := h.opened hmode
        rw [hopening] at hopened
        exact Bool.noConfusion hopened
    · intro hchecks o' hfd
      cases hmode : a.mode with
      | create =>
        rw [h.stage_eq, hmode, ShmProvider.Stage.checks_create] at hchecks
        exact Bool.noConfusion hchecks
      | attach =>
        obtain ⟨-, -, hfd', hreached⟩ := h.whole hmode
        obtain rfl := Option.some.inj (hfd.symm.trans hfd')
        rwa [h.args_eq]
  refine ⟨⟨sizes', hsound'⟩, (toShmArgs_step s _ q).trans h.args_eq, hstage, fun hmode => ?_⟩
  obtain ⟨hn, -, hfd, -⟩ := h.whole hmode
  obtain ⟨hlt, hreached⟩ := h.reached_step hmode (.call q true)
  refine ⟨hn.trans (Nat.le_succ n), hlt, ?_, hreached⟩
  have hopened : ((s.step (.call q true)).providers q).stage.opened := by
    rw [hstage, hmode]
    exact ShmProvider.Stage.opened_attach (Nat.le_add_left 1 n)
  obtain ⟨o', hfd'⟩ := ShmProvider.FitsAt.exists_fd (hsound'.fits q) hopened
  obtain hold | hopening := ShmProvider.fd_stepAt (hself ▸ hfd')
  · rw [hfd', Option.some.inj (hold.symm.trans hfd)]
  · have hopened' := h.opened hmode
    rw [hopening] at hopened'
    exact Bool.noConfusion hopened'

/-- The stage of the provider after its calls. -/
theorem Making.run (h : Making layout a q o n s) (hoff : a.size.toNat < 2 ^ 63)
    (hq : Succeeds q moves) : Making layout a q o (n + calls q moves) (s.run moves) :=
  run_of_succeeds (fun _ _ h => h.own hoff) (fun _ _ _ hmove h => h.other hmove) hq h

/-- A provider that is ready has a whole segment mapped. -/
theorem Sound.reached_of_ready {sizes : ℕ → ℕ} (h : s.Sound layout sizes) {p : ℕ}
    (hready : (s.providers p).stage = .ready) :
    ∃ o, (s.providers p).fd = some o ∧ (s.providers p).ptr = some o ∧ o < s.kernel.names.made ∧
      (s.kernel.objects o).Reached (sizes o) 3 := by
  have hfits := h.fits p
  rw [ShmProvider.Fits, hready] at hfits
  obtain ⟨o, hopened⟩ := hfits
  exact ⟨o, hopened.fd_eq, hopened.ptr_eq, hopened.lt_made, hopened.size_eq ▸ hopened.reached⟩

/-- The first call of a constructor in attach mode. -/
theorem Making.attach {sizes : ℕ → ℕ} (h : s.Sound layout sizes)
    (hopening : (s.providers q).stage = .opening) (hmode : (s.providers q).mode = .attach)
    (hlookup : s.kernel.names.lookup (s.providers q).name = some o)
    (hreached : (s.kernel.objects o).Reached (sizes o) 3) :
    Making layout (s.providers q).toShmArgs q o 1 (s.step (.call q true)) := by
  obtain ⟨sizes', -, -, hsound'⟩ := h.step (.call q true)
  have hstep : (s.providers q).step s.kernel true =
      (s.kernel, { s.providers q with fd := some o, stage := .verifyingSize }) := by
    simp [ShmProvider.step, hopening, ShmProvider.stepAt, Kernel.shmOpen, hlookup, hmode]
  have hself : (s.step (.call q true)).providers q =
      { s.providers q with fd := some o, stage := .verifyingSize } :=
    (Function.update_self _ _ _).trans (congrArg Prod.snd hstep)
  have hkernel : (s.step (.call q true)).kernel = s.kernel := congrArg Prod.fst hstep
  refine ⟨⟨sizes', hsound'⟩, toShmArgs_step s _ q, ?_, fun _ => ⟨le_rfl, ?_, ?_, ?_⟩⟩
  · rw [hself, hmode]
    rfl
  · rw [hkernel]
    exact h.kernel.names _ _ hlookup
  · rw [hself]
  · rwa [hkernel, h.asks q, ← h.kernel.named _ _ hlookup]

/-- Whatever happened before and whatever the others do, a constructor whose calls succeed returns:
in create mode after its six calls, and in attach mode after its five, with the segment that its
name refers to at the first of them, if a provider that is ready has that segment mapped. -/
def ConstructorsReturn (layout : SegmentSizes) (name : ℕ → String)
    (mode : ℕ → ShmProvider.Mode) : Prop :=
  ∀ earlier moves q, (layout.sizeOf (name q)).toNat < 2 ^ 63 →
    let s := (start (layout.args name mode)).run earlier
    (s.providers q).stage = .opening → Succeeds q moves →
      (mode q = .create → 6 ≤ calls q moves →
        ((s.run moves).providers q).stage = .ready) ∧
      ∀ p o rest, mode q = .attach → moves = .call q true :: rest → 5 ≤ calls q moves →
        s.kernel.names.lookup (name q) = some o →
        (s.providers p).stage = .ready → (s.providers p).ptr = some o →
          ((s.run moves).providers q).stage = .ready ∧
            ((s.run moves).providers q).ptr = some o

end SharedMemory

/-- A constructor whose calls succeed returns. -/
theorem constructors_return (layout : SegmentSizes) (name : ℕ → String)
    (mode : ℕ → ShmProvider.Mode) : SharedMemory.ConstructorsReturn layout name mode := by
  intro earlier moves q hoff s hopening hq
  obtain ⟨sizes, hsound⟩ := (SharedMemory.sound_start layout name mode).run earlier
  have hargs : (s.providers q).toShmArgs = layout.args name mode q :=
    SharedMemory.toShmArgs_run _ _ _
  refine ⟨fun hmode hcalls => ?_, ?_⟩
  · have hmaking : SharedMemory.Making layout (layout.args name mode q) q 0 0 s :=
      ⟨⟨sizes, hsound⟩, hargs, hopening, fun hattach => absurd (hmode.symm.trans hattach) nofun⟩
    have hstage := (hmaking.run hoff hq).stage_eq
    rwa [zero_add, show (layout.args name mode q).mode = .create from hmode,
      ShmProvider.Stage.iterate_next_create hcalls] at hstage
  · rintro p o rest hmode rfl hcalls hlookup hready hptr
    obtain ⟨o', -, hptr', -, hreached⟩ := hsound.reached_of_ready hready
    obtain rfl := Option.some.inj (hptr.symm.trans hptr')
    have hname : (s.providers q).name = name q := congrArg ShmArgs.name hargs
    have hmaking := SharedMemory.Making.attach hsound hopening
      ((congrArg ShmArgs.mode hargs).trans hmode) (hname ▸ hlookup) hreached
    rw [hargs] at hmaking
    have hrest : SharedMemory.Succeeds q rest :=
      fun move hmem => hq move (List.mem_cons_of_mem _ hmem)
    have hdone := hmaking.run hoff hrest
    have hfirst : SharedMemory.calls q (.call q true :: rest) = SharedMemory.calls q rest + 1 :=
      List.countP_cons_of_pos (decide_eq_true rfl)
    have hcalls' : 5 ≤ 1 + SharedMemory.calls q rest := by omega
    have hstage := hdone.stage_eq
    rw [show (layout.args name mode q).mode = .attach from hmode,
      ShmProvider.Stage.iterate_next_attach hcalls'] at hstage
    obtain ⟨sizes', hsound'⟩ := hdone.sound
    obtain ⟨o', hfd, hmapped, -⟩ := hsound'.reached_of_ready hstage
    obtain ⟨-, -, hfd', -⟩ := hdone.whole hmode
    obtain rfl := Option.some.inj (hfd.symm.trans hfd')
    exact ⟨hstage, hmapped⟩

/-- The data plane makes the segment for its counters, and the control plane attaches to it. -/
theorem constructors_return_stats :
    let mode p : ShmProvider.Mode := if p = 0 then .create else .attach
    let created := (SharedMemory.start (SegmentSizes.views.args (fun _ => "/cerebellum_stats")
      mode)).run (.replicate 6 (.call 0 true))
    let attached := created.run (.replicate 5 (.call 1 true))
    (created.providers 0).stage = .ready ∧ (created.providers 0).ptr = some 0 ∧
      (attached.providers 1).stage = .ready ∧ (attached.providers 1).ptr = some 0 := by
  intro mode created attached
  have hreturns := constructors_return SegmentSizes.views (fun _ => "/cerebellum_stats") mode
  have hsucceeds (n q : ℕ) : SharedMemory.Succeeds q (.replicate n (.call q true)) :=
    fun move hmem _ => List.eq_of_mem_replicate hmem
  have hready : (created.providers 0).stage = .ready :=
    (hreturns [] (.replicate 6 (.call 0 true)) 0 (by decide +kernel) rfl (hsucceeds 6 0)).1 rfl
      (by decide)
  have hptr : (created.providers 0).ptr = some 0 := by decide +kernel
  have hlookup : created.kernel.names.lookup "/cerebellum_stats" = some 0 := by decide +kernel
  have hopening : (created.providers 1).stage = .opening := by decide +kernel
  obtain ⟨hstage, hmapped⟩ := (hreturns (.replicate 6 (.call 0 true))
    (.replicate 5 (.call 1 true)) 1 (by decide +kernel) hopening (hsucceeds 5 1)).2 0 0
    (.replicate 4 (.call 1 true)) rfl rfl (by decide) hlookup hready hptr
  exact ⟨hready, hptr, hstage, hmapped⟩

end Cerebellum
