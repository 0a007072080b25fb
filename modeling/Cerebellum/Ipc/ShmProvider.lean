import Cerebellum.Lib.Bytes
import Cerebellum.Lib.Registry
import Mathlib.Data.Fintype.Basic

/-!
# Shared memory segments

The data plane makes its segments with `shm_open`, sizes them and writes a header; the control plane
opens them by name, checks their size and their header, and maps them. Here any number of providers
make their system calls and header accesses in any order. A call may fail, a provider may be
destroyed, and its process may die at any point.

A segment keeps its contents when it loses its name, and for those who have it open it stays; the
name can then be given to a new one. `ftruncate` to the size that a segment has changes nothing,
so a data plane that finds the segment of one that died goes on with its contents.

## Main definitions

* `Cerebellum.ShmObject`, `Cerebellum.Kernel`: segments and their names.
* `Cerebellum.ShmProvider`, `Cerebellum.ShmProvider.step`: the constructor and the destructor, one
  system call or header access at a time.
* `Cerebellum.SharedMemory`, `Cerebellum.SharedMemory.run`: many providers.
-/

namespace Cerebellum

open Bytes

def kShmMagic : UInt32 := 0x43455242

def kShmVersion : UInt32 := 1

/-- The four bytes of a word in memory, lowest first. -/
def wordBytes (w : UInt32) (j : Fin 4) : UInt8 := (w >>> (8 * (j : ℕ)).toUInt32).toUInt8

/-! ### The kernel -/

/-- A segment: its size and its bytes. -/
structure ShmObject where
  size : ℕ := 0
  bytes : Memory := fun _ => 0

namespace ShmObject

/-- `ftruncate`: what lies beyond the old or the new size is zero. -/
def truncate (object : ShmObject) (size : ℕ) : ShmObject where
  size := size
  bytes i := if i < object.size ∧ i < size then object.bytes i else 0

/-- The word at an offset is stored. -/
def store (object : ShmObject) (off : ℕ) (w : UInt32) : ShmObject :=
  { object with bytes := blit object.bytes off (wordBytes w) }

/-- The word at an offset is the given one. -/
def Holds (object : ShmObject) (off : ℕ) (w : UInt32) : Prop :=
  readBytes object.bytes off 4 = wordBytes w

instance (object : ShmObject) (off : ℕ) (w : UInt32) : Decidable (object.Holds off w) :=
  inferInstanceAs (Decidable (readBytes object.bytes off 4 = wordBytes w))

/-- `CheckShmHeader`. The magic number is the first word of the header, the version the second. -/
def CheckShmHeader (object : ShmObject) : Prop :=
  object.Holds 0 kShmMagic ∧ object.Holds 4 kShmVersion

end ShmObject

/-- The names of segments, and the segments. -/
structure Kernel where
  names : Registry String := {}
  objects : ℕ → ShmObject := fun _ => {}

namespace Kernel

/-- A new segment gets the name. -/
def create (k : Kernel) (name : String) : Kernel where
  names := k.names.make name
  objects := Function.update k.objects k.names.made {}

/-- `shm_open`, with or without `O_CREAT`: the segment that the name refers to. -/
def shmOpen (k : Kernel) (oCreat : Bool) (name : String) : Option (Kernel × ℕ) :=
  match k.names.lookup name with
  | some o => some (k, o)
  | none => if oCreat then some (k.create name, k.names.made) else none

/-- One segment is changed. -/
def modify (k : Kernel) (o : ℕ) (f : ShmObject → ShmObject) : Kernel :=
  { k with objects := Function.update k.objects o (f (k.objects o)) }

/-- `shm_unlink`. -/
def shmUnlink (k : Kernel) (name : String) : Kernel := { k with names := k.names.remove name }

end Kernel

/-! ### A provider -/

namespace ShmProvider

/-- `ShmProvider::Mode`. -/
inductive Mode
  | create
  | attach
deriving DecidableEq

/-- How a provider came to its end. -/
inductive Outcome
  /-- The constructor threw. -/
  | thrown
  /-- The destructor ran. -/
  | destroyed
  /-- The process died. -/
  | died
  /-- The process accessed memory behind which there is no segment. -/
  | faulted
deriving DecidableEq

/-- The system call or header access that comes next. -/
inductive Stage
  | opening
  | truncating
  | changingMode
  | verifyingSize
  | mapping
  | writingMagic
  | writingVersion
  | checkingMagic
  | checkingVersion
  | ready
  | unmapping (outcome : Outcome)
  | closing (outcome : Outcome)
  | unlinking (outcome : Outcome)
  | done (outcome : Outcome)
deriving DecidableEq

end ShmProvider

open ShmProvider

/-- The arguments of the constructor. -/
structure ShmArgs where
  name : String
  size : UInt64
  mode : Mode

/-- A provider, with the segment that its descriptor refers to and the one that it has mapped. -/
structure ShmProvider extends ShmArgs where
  fd : Option ℕ := none
  ptr : Option ℕ := none
  stage : Stage := .opening

namespace ShmProvider

/-- The constructor is left with an exception, after the handler has cleaned up. -/
def throws (pr : ShmProvider) : ShmProvider := { pr with stage := .unmapping .thrown }

/-- The process ends, and with it its mapping and its descriptor. -/
def stop (pr : ShmProvider) (outcome : Outcome) : ShmProvider :=
  { pr with fd := none, ptr := none, stage := .done outcome }

/-- An access to the header, which lies in the first page: there is none in an empty segment. -/
def access (k : Kernel) (pr : ShmProvider) (next : ℕ → Kernel × ShmProvider) :
    Kernel × ShmProvider :=
  match pr.ptr with
  | some o => if (k.objects o).size = 0 then (k, pr.stop .faulted) else next o
  | none => (k, pr.stop .faulted)

/-- A system call on the descriptor; without one it fails. -/
def onDescriptor (k : Kernel) (pr : ShmProvider) (next : ℕ → Kernel × ShmProvider) :
    Kernel × ShmProvider :=
  match pr.fd with
  | some o => next o
  | none => (k, pr.throws)

/-- The system call or header access of a stage. If `ok` is false then the call fails. -/
def stepAt (k : Kernel) (pr : ShmProvider) (ok : Bool) : Stage → Kernel × ShmProvider
  | .opening =>
    match if ok then k.shmOpen (pr.mode = .create) pr.name else none with
    | some (k', o) =>
      (k', { pr with
        fd := some o
        stage := if pr.mode = .create then .truncating else .verifyingSize })
    | none => (k, { pr with stage := .done .thrown })
  | .truncating =>
    onDescriptor k pr fun o =>
      -- a size that is no `off_t` makes the call fail
      if ok ∧ pr.size.toNat < 2 ^ 63 then
        (k.modify o (·.truncate pr.size.toNat), { pr with stage := .changingMode })
      else (k, pr.throws)
  | .changingMode => (k, if ok then { pr with stage := .mapping } else pr.throws)
  | .verifyingSize =>
    onDescriptor k pr fun o =>
      (k, if ok ∧ ¬ (k.objects o).size < pr.size.toNat then { pr with stage := .mapping }
        else pr.throws)
  | .mapping =>
    onDescriptor k pr fun o =>
      -- a mapping of no bytes is refused
      (k, if ok ∧ pr.size ≠ 0 then
          { pr with
            ptr := some o
            stage := if pr.mode = .create then .writingMagic else .checkingMagic }
        else pr.throws)
  | .writingMagic =>
    access k pr fun o => (k.modify o (·.store 0 kShmMagic), { pr with stage := .writingVersion })
  | .writingVersion =>
    access k pr fun o => (k.modify o (·.store 4 kShmVersion), { pr with stage := .ready })
  | .checkingMagic =>
    access k pr fun o =>
      (k, if (k.objects o).Holds 0 kShmMagic then { pr with stage := .checkingVersion }
        else pr.throws)
  | .checkingVersion =>
    access k pr fun o =>
      (k, if (k.objects o).Holds 4 kShmVersion then { pr with stage := .ready } else pr.throws)
  | .ready => (k, pr)
  | .unmapping outcome => (k, { pr with ptr := none, stage := .closing outcome })
  | .closing outcome =>
    (k, { pr with
      fd := none
      stage := if pr.mode = .create then .unlinking outcome else .done outcome })
  | .unlinking outcome =>
    (if ok then k.shmUnlink pr.name else k, { pr with stage := .done outcome })
  | .done _ => (k, pr)

/-- The next system call or header access. -/
def step (k : Kernel) (pr : ShmProvider) (ok : Bool) : Kernel × ShmProvider :=
  stepAt k pr ok pr.stage

/-- The destructor of a provider begins. -/
def destroy (pr : ShmProvider) : ShmProvider :=
  if pr.stage = .ready then { pr with stage := .unmapping .destroyed } else pr

/-- The process of a provider dies. -/
def die (pr : ShmProvider) : ShmProvider :=
  match pr.stage with
  | .done _ => pr
  | _ => pr.stop .died

end ShmProvider

/-! ### Many providers -/

/-- The kernel and the providers. -/
structure SharedMemory where
  kernel : Kernel := {}
  providers : ℕ → ShmProvider

namespace SharedMemory

/-- Provider `p` makes its next call, with the given success, or is destroyed, or its process
dies. -/
inductive Move
  | call (p : ℕ) (ok : Bool)
  | destroy (p : ℕ)
  | die (p : ℕ)

/-- One move. -/
def step (s : SharedMemory) : Move → SharedMemory
  | .call p ok =>
    let r := (s.providers p).step s.kernel ok
    { kernel := r.1, providers := Function.update s.providers p r.2 }
  | .destroy p => { s with providers := Function.update s.providers p (s.providers p).destroy }
  | .die p => { s with providers := Function.update s.providers p (s.providers p).die }

/-- A history. -/
def run (s : SharedMemory) (moves : List Move) : SharedMemory := moves.foldl step s

/-- The start: there are no segments, and no provider has made a call. -/
def start (args : ℕ → ShmArgs) : SharedMemory where
  providers p := { args p with }

end SharedMemory

end Cerebellum
