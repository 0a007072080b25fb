import Cerebellum.Ipc.ShmProvider

/-!
# Providers only use segments that are there

All providers of a name ask for the same size, and this has room for the header. Then, whatever
calls fail and whoever dies, a provider whose constructor has returned has a whole segment mapped,
with a header that passes `CheckShmHeader`, and no header access goes past the end of a segment. A
provider that has come to an end has neither a mapping nor a descriptor.

What carries this is that a segment only grows: it is empty, then it has its size, and then its
header gets the magic number and the version; none of this is undone.

## Main definitions

* `Cerebellum.SegmentSizes`: the size of the segment of each name.
* `Cerebellum.ShmObject.Grows`: what a step of any provider leaves of a segment.
* `Cerebellum.ShmProvider.Fits`: what a provider holds at each stage.
* `Cerebellum.SharedMemory.Sound`: the invariant.

## Main results

* `Cerebellum.SharedMemory.Sound.step`: every move keeps the invariant.
* `Cerebellum.shared_memory_safe`: providers are safe in every history.
-/

namespace Cerebellum

open Bytes

/-- The size of the segment of each name, with room for the header. -/
structure SegmentSizes where
  sizeOf : String → UInt64
  header_le : ∀ name, 8 ≤ (sizeOf name).toNat

/-- Providers that ask for the size of their name. -/
def SegmentSizes.args (layout : SegmentSizes) (name : ℕ → String) (mode : ℕ → ShmProvider.Mode)
    (p : ℕ) : ShmArgs where
  name := name p
  size := layout.sizeOf (name p)
  mode := mode p

/-- The name of the control segment; the other segment is the one for the counters. -/
def kControlShmName : String := "/cerebellum_control"

/-- `sizeof(ipc::ControlView)` and `sizeof(ipc::StatsView)`: a header, and 64 entries of 16 bytes; a
header, and for each of 32 lcores 5 counters and one for each backend, each on a cache line of its
own. -/
def viewSize (name : String) : UInt64 :=
  if name = kControlShmName then 16 + 64 * 16 else 64 + 32 * ((5 + 64) * 64)

theorem header_le_viewSize (name : String) : 8 ≤ (viewSize name).toNat := by
  unfold viewSize
  split <;> decide

/-- The two segments of the service. -/
def SegmentSizes.views : SegmentSizes := ⟨viewSize, header_le_viewSize⟩

/-! ### Segments grow -/

namespace ShmObject

variable {object object' object'' : ShmObject} {size level : ℕ}

/-- How far a segment has been made: 1 with its size, 2 with the magic number, 3 with the version.
-/
structure Reached (object : ShmObject) (size level : ℕ) : Prop where
  sized : 1 ≤ level → object.size = size
  magic : 2 ≤ level → object.Holds 0 kShmMagic
  version : 3 ≤ level → object.Holds 4 kShmVersion

/-- What has been made of a segment that has a size stays. -/
def Grows (object object' : ShmObject) : Prop :=
  object.size ≠ 0 → object'.size = object.size ∧
    (object.Holds 0 kShmMagic → object'.Holds 0 kShmMagic) ∧
    (object.Holds 4 kShmVersion → object'.Holds 4 kShmVersion)

theorem Grows.refl (object : ShmObject) : object.Grows object := fun _ => ⟨rfl, id, id⟩

theorem Reached.grows (h : object.Reached size level) (hgrows : object.Grows object')
    (hsize : size ≠ 0) : object'.Reached size level := by
  refine ⟨fun hlevel => ?_, fun hlevel => ?_, fun hlevel => ?_⟩
  · have hsized := h.sized hlevel
    exact (hgrows (hsized ▸ hsize)).1.trans hsized
  · have hsized := h.sized (by omega)
    exact (hgrows (hsized ▸ hsize)).2.1 (h.magic hlevel)
  · have hsized := h.sized (by omega)
    exact (hgrows (hsized ▸ hsize)).2.2 (h.version hlevel)

theorem Reached.zero (object : ShmObject) (size : ℕ) : object.Reached size 0 :=
  ⟨fun h => absurd h (by omega), fun h => absurd h (by omega), fun h => absurd h (by omega)⟩

/-- The bytes of the header stay when a segment gets the size that it has. -/
theorem holds_truncate {off : ℕ} {w : UInt32} (hsize : object.size = size) (hoff : off + 4 ≤ size)
    (h : object.Holds off w) : (object.truncate size).Holds off w := by
  refine Eq.trans (readBytes_congr fun i _ hi => ?_) h
  exact if_pos ⟨by omega, by omega⟩

theorem grows_truncate (hsize : object.size = 0 ∨ object.size = size) (hheader : 8 ≤ size) :
    object.Grows (object.truncate size) := by
  intro hne
  have heq := hsize.resolve_left hne
  exact ⟨heq.symm, holds_truncate heq (by omega), holds_truncate heq (by omega)⟩

theorem holds_store_self (object : ShmObject) (off : ℕ) (w : UInt32) :
    (object.store off w).Holds off w :=
  readBytes_blit _ _ _

/-- A word that is stored elsewhere leaves a word alone. -/
theorem holds_store {off off' : ℕ} {w w' : UInt32} (hoff : off + 4 ≤ off' ∨ off' + 4 ≤ off)
    (h : object.Holds off w) : (object.store off' w').Holds off w := by
  refine Eq.trans (readBytes_congr fun i _ hi => ?_) h
  exact blit_of_notMem _ (by omega)

theorem grows_store_magic (object : ShmObject) : object.Grows (object.store 0 kShmMagic) :=
  fun _ => ⟨rfl, fun _ => holds_store_self _ _ _, holds_store (by omega)⟩

theorem grows_store_version (object : ShmObject) : object.Grows (object.store 4 kShmVersion) :=
  fun _ => ⟨rfl, holds_store (by omega), fun _ => holds_store_self _ _ _⟩

end ShmObject

namespace Kernel

variable {k k' : Kernel}

/-- What has been made of the segments stays. -/
structure Grows (k k' : Kernel) : Prop where
  made_le : k.names.made ≤ k'.names.made
  objects : ∀ o < k.names.made, (k.objects o).Grows (k'.objects o)

/-- The segments have no size yet or that of their name; `sizes` are the sizes that they were made
for. -/
structure Sound (layout : SegmentSizes) (sizes : ℕ → ℕ) (k : Kernel) : Prop where
  names : k.names.Sound
  named : ∀ name o, k.names.lookup name = some o → sizes o = (layout.sizeOf name).toNat
  header_le : ∀ o < k.names.made, 8 ≤ sizes o
  sized : ∀ o < k.names.made, (k.objects o).size = 0 ∨ (k.objects o).size = sizes o

theorem Grows.refl (k : Kernel) : k.Grows k := ⟨le_rfl, fun _ _ => .refl _⟩

theorem objects_modify_self (k : Kernel) (o : ℕ) (f : ShmObject → ShmObject) :
    (k.modify o f).objects o = f (k.objects o) :=
  Function.update_self _ _ _

theorem objects_modify_of_ne {o o' : ℕ} (h : o' ≠ o) (k : Kernel) (f : ShmObject → ShmObject) :
    (k.modify o f).objects o' = k.objects o' :=
  Function.update_of_ne h _ _

theorem grows_modify {o : ℕ} {f : ShmObject → ShmObject}
    (h : (k.objects o).Grows (f (k.objects o))) : k.Grows (k.modify o f) := by
  refine ⟨le_rfl, fun o' _ => ?_⟩
  obtain rfl | hne := eq_or_ne o' o
  · rwa [objects_modify_self]
  · rw [objects_modify_of_ne hne]
    exact .refl _

variable {layout : SegmentSizes} {sizes : ℕ → ℕ}

theorem Sound.modify (h : k.Sound layout sizes) {o : ℕ} {f : ShmObject → ShmObject}
    (hsize : (f (k.objects o)).size = 0 ∨ (f (k.objects o)).size = sizes o) :
    (k.modify o f).Sound layout sizes := by
  refine ⟨h.names, h.named, h.header_le, fun o' ho' => ?_⟩
  obtain rfl | hne := eq_or_ne o' o
  · rwa [objects_modify_self]
  · rw [objects_modify_of_ne hne]
    exact h.sized o' ho'

theorem Sound.shmUnlink (h : k.Sound layout sizes) (name : String) :
    (k.shmUnlink name).Sound layout sizes := by
  refine ⟨(Registry.Step.remove _ _).sound h.names, fun name' o hlookup => ?_, h.header_le, h.sized⟩
  obtain hsame | hnone | ⟨-, -, hmade⟩ := (Registry.Step.remove k.names name).lookup_cases name'
  · exact h.named name' o (hsame ▸ hlookup)
  · exact absurd (hnone.symm.trans hlookup) (Option.some_ne_none o).symm
  · exact absurd hmade (Nat.succ_ne_self _).symm

theorem objects_create_self (k : Kernel) (name : String) :
    (k.create name).objects k.names.made = {} :=
  Function.update_self _ _ _

theorem objects_create_of_lt {o : ℕ} (h : o < k.names.made) (name : String) :
    (k.create name).objects o = k.objects o :=
  Function.update_of_ne h.ne _ _

theorem lt_made_create {o : ℕ} {name : String} (h : o < (k.create name).names.made) :
    o = k.names.made ∨ o < k.names.made :=
  (Nat.lt_succ_iff_lt_or_eq.mp h).symm

/-- A new segment is made for the size of its name. -/
theorem Sound.create (h : k.Sound layout sizes) {name : String}
    (hnone : k.names.lookup name = none) :
    (k.create name).Sound layout
      (Function.update sizes k.names.made (layout.sizeOf name).toNat) := by
  refine ⟨(Registry.Step.make hnone).sound h.names, fun name' o hlookup => ?_, fun o ho => ?_,
    fun o ho => ?_⟩
  · obtain rfl | hne := eq_or_ne name' name
    · obtain rfl := Option.some.inj (Registry.lookup_make_self.symm.trans hlookup)
      exact Function.update_self _ _ _
    · have hold := (Registry.lookup_make_of_ne hne).symm.trans hlookup
      rw [Function.update_of_ne (h.names name' o hold).ne]
      exact h.named name' o hold
  · obtain rfl | hlt := lt_made_create ho
    · rw [Function.update_self]
      exact layout.header_le name
    · rw [Function.update_of_ne hlt.ne]
      exact h.header_le o hlt
  · obtain rfl | hlt := lt_made_create ho
    · exact Or.inl (congrArg ShmObject.size (objects_create_self k name))
    · rw [objects_create_of_lt hlt, Function.update_of_ne hlt.ne]
      exact h.sized o hlt

/-- `shm_open` finds the segment of the name or makes a new one; the others stay. -/
theorem Sound.shmOpen (h : k.Sound layout sizes) {oCreat : Bool} {name : String} {o : ℕ}
    (hopen : k.shmOpen oCreat name = some (k', o)) :
    ∃ sizes' : ℕ → ℕ, (∀ o < k.names.made, sizes' o = sizes o) ∧ k'.Sound layout sizes' ∧
      k.Grows k' ∧ o < k'.names.made ∧ sizes' o = (layout.sizeOf name).toNat := by
  cases hlookup : k.names.lookup name with
  | some o' =>
    simp only [Kernel.shmOpen, hlookup, Option.some.injEq, Prod.mk.injEq] at hopen
    obtain ⟨rfl, rfl⟩ := hopen
    exact ⟨sizes, fun _ _ => rfl, h, .refl k, h.names name o' hlookup, h.named name o' hlookup⟩
  | none =>
    cases oCreat with
    | false => simp [Kernel.shmOpen, hlookup] at hopen
    | true =>
      simp only [Kernel.shmOpen, hlookup, if_true, Option.some.injEq, Prod.mk.injEq] at hopen
      obtain ⟨rfl, rfl⟩ := hopen
      refine ⟨_, fun o ho => Function.update_of_ne ho.ne _ _, h.create hlookup,
        ⟨Nat.le_succ _, fun o ho => ?_⟩, Nat.lt_succ_self _, Function.update_self _ _ _⟩
      rw [objects_create_of_lt ho]
      exact .refl _

end Kernel

/-! ### What a provider holds -/

namespace ShmProvider

/-- The provider has segment `o` open and its mapping is `ptr`; `o` was made for the size that the
provider asks for, and its making has got to `level`. -/
structure Opened (sizes : ℕ → ℕ) (k : Kernel) (pr : ShmProvider) (level : ℕ) (ptr : Option ℕ)
    (o : ℕ) : Prop where
  fd_eq : pr.fd = some o
  ptr_eq : pr.ptr = ptr
  lt_made : o < k.names.made
  size_eq : sizes o = pr.size.toNat
  reached : (k.objects o).Reached pr.size.toNat level

/-- The provider holds nothing. -/
def Closed (pr : ShmProvider) : Prop := pr.fd = none ∧ pr.ptr = none

/-- What a provider holds at a stage. -/
def FitsAt (sizes : ℕ → ℕ) (k : Kernel) (pr : ShmProvider) : Stage → Prop
  | .opening => pr.Closed
  | .truncating | .verifyingSize => ∃ o, pr.Opened sizes k 0 none o
  | .changingMode | .mapping => ∃ o, pr.Opened sizes k 1 none o
  | .writingMagic | .checkingMagic => ∃ o, pr.Opened sizes k 1 (some o) o
  | .writingVersion | .checkingVersion => ∃ o, pr.Opened sizes k 2 (some o) o
  | .ready => ∃ o, pr.Opened sizes k 3 (some o) o
  | .unmapping outcome =>
    outcome ≠ .faulted ∧ ∃ o, pr.Opened sizes k 0 none o ∨ pr.Opened sizes k 1 (some o) o
  | .closing outcome => outcome ≠ .faulted ∧ ∃ o, pr.Opened sizes k 0 none o
  | .unlinking outcome | .done outcome => outcome ≠ .faulted ∧ pr.Closed

/-- A provider holds what its stage says. -/
def Fits (sizes : ℕ → ℕ) (k : Kernel) (pr : ShmProvider) : Prop := pr.FitsAt sizes k pr.stage

variable {layout : SegmentSizes} {sizes sizes' : ℕ → ℕ} {k k' : Kernel} {pr : ShmProvider}
  {level : ℕ} {ptr : Option ℕ} {o : ℕ}

theorem Opened.grows (h : pr.Opened sizes k level ptr o) (hk : k.Sound layout sizes)
    (hgrows : k.Grows k') (hsizes : ∀ o < k.names.made, sizes' o = sizes o) :
    pr.Opened sizes' k' level ptr o := by
  refine ⟨h.fd_eq, h.ptr_eq, h.lt_made.trans_le hgrows.made_le,
    (hsizes o h.lt_made).trans h.size_eq, h.reached.grows (hgrows.objects o h.lt_made) ?_⟩
  have hheader := hk.header_le o h.lt_made
  rw [h.size_eq] at hheader
  omega

/-- The steps of others leave a provider what it holds. -/
theorem FitsAt.grows {stage : Stage} (h : pr.FitsAt sizes k stage) (hk : k.Sound layout sizes)
    (hgrows : k.Grows k') (hsizes : ∀ o < k.names.made, sizes' o = sizes o) :
    pr.FitsAt sizes' k' stage := by
  cases stage with
  | opening | unlinking _ | done _ => exact h
  | unmapping _ =>
    obtain ⟨houtcome, o, h | h⟩ := h
    · exact ⟨houtcome, o, .inl (h.grows hk hgrows hsizes)⟩
    · exact ⟨houtcome, o, .inr (h.grows hk hgrows hsizes)⟩
  | closing _ =>
    obtain ⟨houtcome, o, h⟩ := h
    exact ⟨houtcome, o, h.grows hk hgrows hsizes⟩
  | _ =>
    obtain ⟨o, h⟩ := h
    exact ⟨o, h.grows hk hgrows hsizes⟩

/-- A provider that goes on to another stage has the same segment. -/
theorem Opened.goesOn (h : pr.Opened sizes k level ptr o) (stage : Stage) {level' : ℕ}
    (hreached : (k.objects o).Reached pr.size.toNat level') :
    Opened sizes k { pr with stage := stage } level' ptr o :=
  ⟨h.fd_eq, h.ptr_eq, h.lt_made, h.size_eq, hreached⟩

/-- The handler of the constructor finds the segment open. -/
theorem Opened.throws (h : pr.Opened sizes k level none o) : pr.throws.Fits sizes k :=
  ⟨Outcome.noConfusion, o, .inl (h.goesOn _ (.zero _ _))⟩

/-- The handler of the constructor finds the segment mapped. -/
theorem Opened.throws_mapped (h : pr.Opened sizes k level (some o) o) (hlevel : 1 ≤ level) :
    pr.throws.Fits sizes k :=
  ⟨Outcome.noConfusion, o,
    .inr (h.goesOn _ ⟨fun _ => h.reached.sized hlevel, by omega, by omega⟩)⟩

/-- The kernel and the provider are as they should after a step of the provider. -/
def StepSound (layout : SegmentSizes) (sizes : ℕ → ℕ) (k : Kernel) (r : Kernel × ShmProvider) :
    Prop :=
  ∃ sizes' : ℕ → ℕ, (∀ o < k.names.made, sizes' o = sizes o) ∧ r.1.Sound layout sizes' ∧
    k.Grows r.1 ∧ r.2.Fits sizes' r.1

theorem StepSound.of_fits {pr' : ShmProvider} (hk : k.Sound layout sizes)
    (h : pr'.Fits sizes k) : StepSound layout sizes k (k, pr') :=
  ⟨sizes, fun _ _ => rfl, hk, .refl k, h⟩

/-- One segment is changed. -/
theorem StepSound.of_modify {pr' : ShmProvider} {f : ShmObject → ShmObject}
    (hk : k.Sound layout sizes)
    (hsize : (f (k.objects o)).size = 0 ∨ (f (k.objects o)).size = sizes o)
    (hgrows : k.Grows (k.modify o f)) (h : pr'.Fits sizes (k.modify o f)) :
    StepSound layout sizes k (k.modify o f, pr') :=
  ⟨sizes, fun _ _ => rfl, hk.modify hsize, hgrows, h⟩

theorem Opened.header_le (h : pr.Opened sizes k level ptr o) (hk : k.Sound layout sizes) :
    8 ≤ pr.size.toNat :=
  h.size_eq ▸ hk.header_le o h.lt_made

/-- In a mapped segment that has its size the header can be accessed. -/
theorem Opened.access_eq (h : pr.Opened sizes k level (some o) o) (hk : k.Sound layout sizes)
    (hlevel : 1 ≤ level) (next : ℕ → Kernel × ShmProvider) : access k pr next = next o := by
  have hsize : (k.objects o).size ≠ 0 := by
    rw [h.reached.sized hlevel]
    have := h.header_le hk
    omega
  rw [access, h.ptr_eq]
  exact if_neg hsize

theorem Opened.onDescriptor_eq (h : pr.Opened sizes k level ptr o)
    (next : ℕ → Kernel × ShmProvider) : onDescriptor k pr next = next o := by
  rw [onDescriptor, h.fd_eq]

/-- A provider opens the segment of its name. -/
theorem StepSound.opening (hk : k.Sound layout sizes) (hsize : pr.size = layout.sizeOf pr.name)
    (h : pr.Closed) (ok : Bool) : StepSound layout sizes k (stepAt k pr ok .opening) := by
  rw [stepAt]
  cases hopen : (if ok = true then k.shmOpen (pr.mode = .create) pr.name else none) with
  | none => exact .of_fits hk ⟨Outcome.noConfusion, h⟩
  | some r =>
    obtain ⟨k', o⟩ := r
    have hok : ok = true := by
      by_contra hok
      rw [if_neg hok] at hopen
      exact absurd hopen (Option.some_ne_none _).symm
    rw [if_pos hok] at hopen
    obtain ⟨sizes', hsizes, hk', hgrows, hlt, hsizeOf⟩ := hk.shmOpen hopen
    refine ⟨sizes', hsizes, hk', hgrows, ?_⟩
    have hopened (stage : Stage) :
        Opened sizes' k' { pr with fd := some o, stage := stage } 0 none o :=
      ⟨rfl, h.2, hlt, hsizeOf.trans (congrArg UInt64.toNat hsize).symm, .zero _ _⟩
    by_cases hmode : pr.mode = .create
    · rw [if_pos hmode]
      exact ⟨o, hopened _⟩
    · rw [if_neg hmode]
      exact ⟨o, hopened _⟩

/-- What a provider holds after the step of each stage. -/
theorem FitsAt.stepAt {stage : Stage} (h : pr.FitsAt sizes k stage) (hk : k.Sound layout sizes)
    (hsize : pr.size = layout.sizeOf pr.name) (hstage : pr.stage = stage) (ok : Bool) :
    StepSound layout sizes k (stepAt k pr ok stage) := by
  cases stage with
  | opening => exact .opening hk hsize h ok
  | truncating =>
    obtain ⟨o, h⟩ := h
    rw [ShmProvider.stepAt, h.onDescriptor_eq]
    split_ifs
    · have hsized := hk.sized o h.lt_made
      rw [h.size_eq] at hsized
      have hgrows : k.Grows (k.modify o (·.truncate pr.size.toNat)) :=
        Kernel.grows_modify (ShmObject.grows_truncate hsized (h.header_le hk))
      refine .of_modify hk (.inr h.size_eq.symm) hgrows ⟨o, ?_⟩
      refine (h.grows hk hgrows fun _ _ => rfl).goesOn _ ⟨fun _ => ?_, by omega, by omega⟩
      rw [Kernel.objects_modify_self]
      rfl
    · exact .of_fits hk h.throws
  | changingMode =>
    obtain ⟨o, h⟩ := h
    rw [ShmProvider.stepAt]
    split_ifs
    · exact .of_fits hk ⟨o, h.goesOn _ h.reached⟩
    · exact .of_fits hk h.throws
  | verifyingSize =>
    obtain ⟨o, h⟩ := h
    rw [ShmProvider.stepAt, h.onDescriptor_eq]
    split_ifs with hok
    · refine .of_fits hk ⟨o, h.goesOn _ ⟨fun _ => ?_, by omega, by omega⟩⟩
      have hsized := hk.sized o h.lt_made
      have hheader := h.header_le hk
      rw [h.size_eq] at hsized
      omega
    · exact .of_fits hk h.throws
  | mapping =>
    obtain ⟨o, h⟩ := h
    rw [ShmProvider.stepAt, h.onDescriptor_eq]
    split_ifs with hok hmode
    · exact .of_fits hk ⟨o, h.fd_eq, rfl, h.lt_made, h.size_eq, h.reached⟩
    · exact .of_fits hk ⟨o, h.fd_eq, rfl, h.lt_made, h.size_eq, h.reached⟩
    · exact .of_fits hk h.throws
  | writingMagic =>
    obtain ⟨o, h⟩ := h
    rw [ShmProvider.stepAt, h.access_eq hk le_rfl]
    have hgrows : k.Grows (k.modify o (·.store 0 kShmMagic)) :=
      Kernel.grows_modify (ShmObject.grows_store_magic _)
    refine .of_modify hk (hk.sized o h.lt_made) hgrows ⟨o, ?_⟩
    have hnow := h.grows hk hgrows fun _ _ => rfl
    refine hnow.goesOn _ ⟨fun _ => hnow.reached.sized le_rfl, fun _ => ?_, by omega⟩
    rw [Kernel.objects_modify_self]
    exact ShmObject.holds_store_self _ _ _
  | writingVersion =>
    obtain ⟨o, h⟩ := h
    rw [ShmProvider.stepAt, h.access_eq hk (by omega)]
    have hgrows : k.Grows (k.modify o (·.store 4 kShmVersion)) :=
      Kernel.grows_modify (ShmObject.grows_store_version _)
    refine .of_modify hk (hk.sized o h.lt_made) hgrows ⟨o, ?_⟩
    have hnow := h.grows hk hgrows fun _ _ => rfl
    refine hnow.goesOn _ ⟨fun _ => hnow.reached.sized (by omega),
      fun _ => hnow.reached.magic le_rfl, fun _ => ?_⟩
    rw [Kernel.objects_modify_self]
    exact ShmObject.holds_store_self _ _ _
  | checkingMagic =>
    obtain ⟨o, h⟩ := h
    rw [ShmProvider.stepAt, h.access_eq hk le_rfl]
    split_ifs with hmagic
    · exact .of_fits hk ⟨o, h.goesOn _ ⟨fun _ => h.reached.sized le_rfl, fun _ => hmagic, by omega⟩⟩
    · exact .of_fits hk (h.throws_mapped le_rfl)
  | checkingVersion =>
    obtain ⟨o, h⟩ := h
    rw [ShmProvider.stepAt, h.access_eq hk (by omega)]
    split_ifs with hversion
    · exact .of_fits hk ⟨o, h.goesOn _ ⟨fun _ => h.reached.sized (by omega),
        fun _ => h.reached.magic le_rfl, fun _ => hversion⟩⟩
    · exact .of_fits hk (h.throws_mapped (by omega))
  | ready =>
    refine .of_fits hk ?_
    rw [Fits, hstage]
    exact h
  | unmapping outcome =>
    obtain ⟨houtcome, o, h | h⟩ := h
    · exact .of_fits hk ⟨houtcome, o, h.fd_eq, rfl, h.lt_made, h.size_eq, h.reached⟩
    · exact .of_fits hk ⟨houtcome, o, h.fd_eq, rfl, h.lt_made, h.size_eq, .zero _ _⟩
  | closing outcome =>
    obtain ⟨houtcome, o, h⟩ := h
    refine .of_fits hk ?_
    by_cases hmode : pr.mode = .create
    · rw [if_pos hmode]
      exact ⟨houtcome, rfl, h.ptr_eq⟩
    · rw [if_neg hmode]
      exact ⟨houtcome, rfl, h.ptr_eq⟩
  | unlinking outcome =>
    obtain ⟨houtcome, h⟩ := h
    rw [ShmProvider.stepAt]
    split_ifs
    · exact ⟨sizes, fun _ _ => rfl, hk.shmUnlink pr.name, ⟨le_rfl, fun _ _ => .refl _⟩, houtcome, h⟩
    · exact .of_fits hk ⟨houtcome, h⟩
  | done outcome =>
    refine .of_fits hk ?_
    rw [Fits, hstage]
    exact h

/-- The arguments of the constructor stay. -/
theorem toShmArgs_stepAt (k : Kernel) (pr : ShmProvider) (ok : Bool) (stage : Stage) :
    (stepAt k pr ok stage).2.toShmArgs = pr.toShmArgs := by
  cases stage <;> simp only [ShmProvider.stepAt, access, onDescriptor] <;> repeat' split
  all_goals rfl

theorem Fits.destroy (h : pr.Fits sizes k) : pr.destroy.Fits sizes k := by
  rw [ShmProvider.destroy]
  split_ifs with hstage
  · rw [Fits, hstage] at h
    obtain ⟨o, h⟩ := h
    exact ⟨Outcome.noConfusion, o,
      .inr (h.goesOn _ ⟨fun _ => h.reached.sized (by omega), by omega, by omega⟩)⟩
  · exact h

theorem Fits.die (h : pr.Fits sizes k) : pr.die.Fits sizes k := by
  rw [ShmProvider.die]
  split
  · exact h
  · exact ⟨Outcome.noConfusion, rfl, rfl⟩

theorem toShmArgs_destroy (pr : ShmProvider) : pr.destroy.toShmArgs = pr.toShmArgs := by
  rw [ShmProvider.destroy]
  split_ifs <;> rfl

theorem toShmArgs_die (pr : ShmProvider) : pr.die.toShmArgs = pr.toShmArgs := by
  rw [ShmProvider.die]
  split <;> rfl

/-- A provider has not accessed what is not there; what it has mapped is there as a whole; when its
constructor has returned the header is right; at its end it holds nothing. -/
structure Safe (k : Kernel) (pr : ShmProvider) : Prop where
  not_faulted : pr.stage ≠ .done .faulted
  mapped : ∀ o, pr.ptr = some o → pr.fd = some o ∧ (k.objects o).size = pr.size.toNat
  ready : pr.stage = .ready → ∃ o, pr.ptr = some o ∧ (k.objects o).CheckShmHeader
  released : ∀ outcome, pr.stage = .done outcome → pr.fd = none ∧ pr.ptr = none

/-- A mapping is that of the open segment, and the segment has its size. -/
theorem Opened.mapped (h : pr.Opened sizes k level ptr o)
    (hlevel : ptr = none ∨ 1 ≤ level ∧ ptr = some o) {o' : ℕ} (hptr : pr.ptr = some o') :
    pr.fd = some o' ∧ (k.objects o').size = pr.size.toNat := by
  rw [h.ptr_eq] at hptr
  obtain rfl | ⟨hlevel, rfl⟩ := hlevel
  · exact absurd hptr (Option.some_ne_none o').symm
  · obtain rfl := Option.some.inj hptr
    exact ⟨h.fd_eq, h.reached.sized hlevel⟩

theorem Closed.mapped (h : pr.Closed) {o' : ℕ} (hptr : pr.ptr = some o') :
    pr.fd = some o' ∧ (k.objects o').size = pr.size.toNat :=
  absurd (h.2.symm.trans hptr) (Option.some_ne_none o').symm

theorem FitsAt.mapped {stage : Stage} (h : pr.FitsAt sizes k stage) {o' : ℕ}
    (hptr : pr.ptr = some o') : pr.fd = some o' ∧ (k.objects o').size = pr.size.toNat := by
  cases stage with
  | opening => exact Closed.mapped h hptr
  | unlinking _ | done _ => exact Closed.mapped h.2 hptr
  | unmapping _ =>
    obtain ⟨-, o, h | h⟩ := h
    · exact h.mapped (.inl rfl) hptr
    · exact h.mapped (.inr ⟨le_rfl, rfl⟩) hptr
  | closing _ =>
    obtain ⟨-, o, h⟩ := h
    exact h.mapped (.inl rfl) hptr
  | truncating | verifyingSize | changingMode | mapping =>
    obtain ⟨o, h⟩ := h
    exact h.mapped (.inl rfl) hptr
  | _ =>
    obtain ⟨o, h⟩ := h
    exact h.mapped (.inr ⟨by omega, rfl⟩) hptr

theorem Fits.safe (h : pr.Fits sizes k) : pr.Safe k := by
  refine ⟨fun hstage => ?_, fun o hptr => FitsAt.mapped h hptr, fun hstage => ?_,
    fun outcome hstage => ?_⟩
  · rw [Fits, hstage] at h
    exact h.1 rfl
  · rw [Fits, hstage] at h
    obtain ⟨o, h⟩ := h
    exact ⟨o, h.ptr_eq, h.reached.magic (by omega), h.reached.version le_rfl⟩
  · rw [Fits, hstage] at h
    exact h.2

end ShmProvider

/-! ### Histories -/

namespace SharedMemory

variable {layout : SegmentSizes} {s : SharedMemory}

/-- The invariant: the segments are made as their names say, and every provider holds what its stage
says. -/
structure Sound (layout : SegmentSizes) (sizes : ℕ → ℕ) (s : SharedMemory) : Prop where
  kernel : s.kernel.Sound layout sizes
  asks : ∀ p, (s.providers p).size = layout.sizeOf (s.providers p).name
  fits : ∀ p, (s.providers p).Fits sizes s.kernel

theorem sound_start (layout : SegmentSizes) (name : ℕ → String) (mode : ℕ → ShmProvider.Mode) :
    Sound layout (fun _ => 0) (start (layout.args name mode)) :=
  ⟨⟨Registry.sound_empty, nofun, nofun, nofun⟩, fun _ => rfl, fun _ => ⟨rfl, rfl⟩⟩

/-- One provider is exchanged, and the kernel with it. -/
theorem Sound.update {sizes sizes' : ℕ → ℕ} (h : s.Sound layout sizes) {k : Kernel}
    (hkernel : k.Sound layout sizes') (hgrows : s.kernel.Grows k)
    (hsizes : ∀ o < s.kernel.names.made, sizes' o = sizes o) {p : ℕ} {pr : ShmProvider}
    (hargs : pr.toShmArgs = (s.providers p).toShmArgs) (hfits : pr.Fits sizes' k) :
    Sound layout sizes' { kernel := k, providers := Function.update s.providers p pr } := by
  refine ⟨hkernel, fun q => ?_, fun q => ?_⟩
  · obtain rfl | hne := eq_or_ne q p
    · simp only [Function.update_self, hargs]
      exact h.asks q
    · simp only [Function.update_of_ne hne]
      exact h.asks q
  · obtain rfl | hne := eq_or_ne q p
    · simpa only [Function.update_self] using hfits
    · simp only [Function.update_of_ne hne]
      exact ShmProvider.FitsAt.grows (h.fits q) h.kernel hgrows hsizes

/-- Every move keeps the invariant. -/
theorem Sound.step {sizes : ℕ → ℕ} (h : s.Sound layout sizes) (move : Move) :
    ∃ sizes' : ℕ → ℕ, (∀ o < s.kernel.names.made, sizes' o = sizes o) ∧
      s.kernel.Grows (s.step move).kernel ∧ (s.step move).Sound layout sizes' := by
  cases move with
  | call p ok =>
    obtain ⟨sizes', hsizes, hkernel, hgrows, hfits⟩ :=
      ShmProvider.FitsAt.stepAt (h.fits p) h.kernel (h.asks p) rfl ok
    exact ⟨sizes', hsizes, hgrows,
      h.update hkernel hgrows hsizes (ShmProvider.toShmArgs_stepAt _ _ _ _) hfits⟩
  | destroy p =>
    exact ⟨sizes, fun _ _ => rfl, .refl _, h.update h.kernel (.refl _) (fun _ _ => rfl)
      (ShmProvider.toShmArgs_destroy _) (h.fits p).destroy⟩
  | die p =>
    exact ⟨sizes, fun _ _ => rfl, .refl _, h.update h.kernel (.refl _) (fun _ _ => rfl)
      (ShmProvider.toShmArgs_die _) (h.fits p).die⟩

/-- The invariant holds in every history. -/
theorem Sound.run {sizes : ℕ → ℕ} (h : s.Sound layout sizes) (moves : List Move) :
    ∃ sizes', (s.run moves).Sound layout sizes' := by
  induction moves generalizing s sizes with
  | nil => exact ⟨sizes, h⟩
  | cons move moves ih =>
    obtain ⟨sizes', -, -, h'⟩ := h.step move
    exact ih h'

end SharedMemory

/-- In every history in which the providers of a name ask for the same size, every provider is
safe. -/
theorem shared_memory_safe (layout : SegmentSizes) (name : ℕ → String)
    (mode : ℕ → ShmProvider.Mode) (moves : List SharedMemory.Move) (p : ℕ) :
    let s := (SharedMemory.start (layout.args name mode)).run moves
    (s.providers p).Safe s.kernel := by
  obtain ⟨sizes, h⟩ := (SharedMemory.sound_start layout name mode).run moves
  exact (h.fits p).safe

end Cerebellum
