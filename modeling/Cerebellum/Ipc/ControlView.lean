import Cerebellum.Lb.BackendPool

/-!
# The control view

The control plane hands the list of backends to the data plane through shared memory
(`ipc/control_view.hpp`). `PublishControl` makes the sequence number odd, writes the count and the
entries, and makes it even again; `ReadControl` copies the count and the entries between two loads
of the sequence number and tries again unless both loads gave the same even number. `RunControlLoop`
(`main.cpp`) calls `ReadControl` again and again, and builds a pool when the sequence number is not
the one it applied last.

Here each load and store of the sequence number, the count or an entry is one move of the publisher
or of the reader, and a run is any list of moves. The state remembers what was published, what was
returned and which pools were stored; nothing in the moves reads these records.

## Main definitions

* `Cerebellum.ControlBackend`, `Cerebellum.ControlView`, `Cerebellum.ControlView.content`.
* `Cerebellum.controlEntries`: the entries for the configured backends.
* `Cerebellum.buildPool`: the pool that `RunControlLoop` builds.
* `Cerebellum.Control`: the view, the publisher, the reader, and what happened so far.
* `Cerebellum.Control.publish`, `Cerebellum.Control.read`: the next move of each side.
* `Cerebellum.Control.run`, `Cerebellum.Control.Within`: a run, and a bound that holds along it.
-/

namespace Cerebellum

/-- `ipc::ControlBackend`. -/
structure ControlBackend where
  ip : UInt32 := 0
  port : UInt16 := 0
  mac : MacAddr := {}
  enabled : UInt8 := 0
deriving DecidableEq, Inhabited

/-- The entries that `SeedControl` and `MonitorComponent::PublishControl` hand over: the configured
backends in order, each with an enabled flag. -/
def controlEntries (backends : List BackendInfo) (enabled : ℕ → UInt8) : List ControlBackend :=
  backends.mapIdx fun i b => { ip := b.ip, port := b.port, mac := b.mac, enabled := enabled i }

/-- The lists that fit into the view. -/
abbrev Snapshot : Type := { l : List ControlBackend // l.length ≤ kMaxBackends }

/-- What `PublishControl` keeps of a list. -/
def clamp (src : List ControlBackend) : Snapshot :=
  ⟨src.take kMaxBackends, List.length_take_le _ _⟩

/-- `ipc::ControlView`, less the header; the entries from `kMaxBackends` on are never used. -/
structure ControlView where
  seq : UInt32 := 0
  count : ℕ := 0
  backends : ℕ → ControlBackend := fun _ => {}

/-- The list that is in the view: the first `min count kMaxBackends` entries. -/
def ControlView.content (view : ControlView) : Snapshot :=
  ⟨(List.range (min view.count kMaxBackends)).map view.backends, by simp⟩

/-- A view into which all entries of a list are written holds the clamped list. -/
theorem ControlView.content_eq_clamp {view : ControlView} {src : List ControlBackend}
    (hcount : view.count = min src.length kMaxBackends)
    (hentries : ∀ j < view.count, view.backends j = src.getD j default) :
    view.content = clamp src := by
  apply Subtype.ext
  apply List.ext_getElem
  · simp [ControlView.content, clamp, hcount, Nat.min_comm]
  · intro j hj hj'
    have hlt : j < view.count := by
      rw [clamp, List.length_take] at hj'
      omega
    have hsrc : j < src.length := by omega
    simp only [ControlView.content, clamp, List.getElem_map, List.getElem_range, List.getElem_take]
    rw [hentries j hlt, List.getD_eq_getElem _ _ hsrc]

/-- The entries of a view that holds a clamped list. -/
theorem ControlView.backends_eq_of_content_eq {view : ControlView} {src : List ControlBackend}
    (hcontent : view.content = clamp src) {j : ℕ} (hj : j < min src.length kMaxBackends) :
    view.backends j = src.getD j default := by
  have hlist : (List.range (min view.count kMaxBackends)).map view.backends =
      src.take kMaxBackends := congrArg Subtype.val hcontent
  have hlength := congrArg List.length hlist
  rw [List.length_map, List.length_range, List.length_take] at hlength
  have hentry := congrArg (fun l => l[j]?) hlist
  simp only [List.getElem?_map, List.getElem?_take] at hentry
  rw [List.getElem?_range (by omega), if_pos (by omega)] at hentry
  rw [List.getD_eq_getElem?_getD, ← hentry]
  rfl

/-- `BuildPool`: one slot for each entry, with its enabled flag. -/
def buildPool (src : Snapshot) : BackendPool where
  slots := src.1.map fun b => { ip := b.ip, port := b.port, mac := b.mac }
  enabled := src.1.map fun b => b.enabled
  length_enabled := by simp
  length_slots_le := by simpa using src.2

/-- The slots of the first `k` entries for the configured backends. -/
theorem slots_buildPool_of_take {backends : List BackendInfo} {enabled : ℕ → UInt8} {k : ℕ}
    {content : Snapshot} (h : content.1 = (controlEntries backends enabled).take k) :
    (buildPool content).slots = backends.take k := by
  change content.1.map _ = _
  rw [h, List.map_take]
  refine congrArg (List.take k) (List.ext_getElem? fun i => ?_)
  rw [controlEntries, List.getElem?_map, List.getElem?_mapIdx]
  cases backends[i]? <;> rfl

/-- Where the publisher stands in `PublishControl`. -/
inductive Publisher
  /-- Between two calls. -/
  | idle
  /-- About to store the odd sequence number. -/
  | loaded (src : List ControlBackend) (start : UInt32)
  /-- About to store the count. -/
  | opened (src : List ControlBackend) (start : UInt32)
  /-- At the head of the loop, about to load the count. -/
  | looping (src : List ControlBackend) (start : UInt32) (i : ℕ)
  /-- In the body of the loop, about to store entry `i`. -/
  | copying (src : List ControlBackend) (start : UInt32) (i : ℕ)
  /-- About to store the even sequence number. -/
  | closing (src : List ControlBackend) (start : UInt32)

/-- Where the reader stands in `RunControlLoop` and `ReadControl`. -/
inductive Reader
  /-- Between two calls of `ReadControl`. -/
  | sleeping
  /-- About to load the sequence number. -/
  | entering
  /-- About to load the count. -/
  | counting (seqBefore : UInt32)
  /-- About to load the next of `count` entries or, when all are copied, the sequence number. -/
  | copying (seqBefore : UInt32) (count : Fin (kMaxBackends + 1)) (out : Snapshot)

/-- Whether a call of `ReadControl` is under way. -/
def Reader.isReading : Reader → Bool
  | sleeping => false
  | _ => true

/-- Whether the sequence number is odd because of the publisher. -/
def Publisher.isWriting : Publisher → Bool
  | idle | loaded _ _ => false
  | _ => true

/-- The view and the two sides, and a record of what happened: the completed publishes with their
sequence numbers, the pairs that `ReadControl` returned, the pools stored into `pool_rcu`, and how
many publishes loaded (`started`) and how many first stored (`opened`) the sequence number since the
last call of `ReadControl` began. -/
structure Control where
  view : ControlView
  publisher : Publisher := .idle
  reader : Reader := .sleeping
  applied : UInt32
  published : List (UInt32 × List ControlBackend) := []
  returned : List (UInt32 × Snapshot) := []
  stored : List BackendPool := []
  started : ℕ := 0
  opened : ℕ := 0

namespace Control

/-- The next step of `PublishControl`; between two calls, the next call is for the list `src`. -/
def publish (s : Control) (src : List ControlBackend) : Control :=
  match s.publisher with
  | .idle => { s with publisher := .loaded src s.view.seq, started := s.started + 1 }
  | .loaded src start =>
    { s with
      view := { s.view with seq := start + 1 }
      publisher := .opened src start
      opened := s.opened + 1 }
  | .opened src start =>
    { s with
      view := { s.view with count := min src.length kMaxBackends }
      publisher := .looping src start 0 }
  | .looping src start i =>
    { s with publisher := if i < s.view.count then .copying src start i else .closing src start }
  | .copying src start i =>
    { s with
      view := { s.view with backends := Function.update s.view.backends i (src.getD i default) }
      publisher := .looping src start (i + 1) }
  | .closing src start =>
    { s with
      view := { s.view with seq := start + 2 }
      publisher := .idle
      published := s.published ++ [(start + 2, src)] }

/-- `ReadControl` returns, and `RunControlLoop` stores a pool if the sequence number is not the one
it applied last. -/
def readReturn (s : Control) (seq : UInt32) (out : Snapshot) : Control :=
  { s with
    reader := .sleeping
    returned := s.returned ++ [(seq, out)]
    stored := if seq ≠ s.applied then s.stored ++ [buildPool out] else s.stored
    applied := if seq ≠ s.applied then seq else s.applied }

/-- The next step of `RunControlLoop`. -/
def read (s : Control) : Control :=
  match s.reader with
  | .sleeping => { s with reader := .entering, started := 0, opened := 0 }
  | .entering => if s.view.seq &&& 1 ≠ 0 then s else { s with reader := .counting s.view.seq }
  | .counting seqBefore =>
    { s with
      reader := .copying seqBefore
        ⟨min s.view.count kMaxBackends, Nat.lt_succ_of_le (Nat.min_le_right _ _)⟩
        ⟨[], Nat.zero_le _⟩ }
  | .copying seqBefore count out =>
    if h : out.1.length < count then
      let out' : Snapshot := ⟨out.1 ++ [s.view.backends out.1.length], by
        rw [List.length_append, List.length_singleton]
        omega⟩
      { s with reader := .copying seqBefore count out' }
    else if s.view.seq = seqBefore then s.readReturn seqBefore out
    else { s with reader := .entering }

/-- Who moves next; a publisher between two calls begins one for the given list. -/
inductive Move
  | publish (src : List ControlBackend)
  | read

/-- One move. -/
def step (s : Control) : Move → Control
  | .publish src => s.publish src
  | .read => s.read

/-- A run of the publisher and the reader, in any interleaving. -/
def run (s : Control) (moves : List Move) : Control := moves.foldl step s

/-- At every move of the run that is made during a call of `ReadControl`, `count` is below
`2 ^ 31`. -/
def Within (count : Control → ℕ) (s : Control) : List Move → Prop
  | [] => True
  | move :: moves =>
    (s.reader.isReading = true → count s < 2 ^ 31) ∧ Within count (s.step move) moves

instance decidableWithin (count : Control → ℕ) :
    (s : Control) → (moves : List Move) → Decidable (Within count s moves)
  | _, [] => inferInstanceAs (Decidable True)
  | s, move :: moves =>
    have := decidableWithin count (s.step move) moves
    inferInstanceAs (Decidable ((s.reader.isReading = true → count s < 2 ^ 31) ∧
      Within count (s.step move) moves))

/-- The start of `RunControlLoop`, when `applied` is the sequence number applied last. -/
def init (view : ControlView) (applied : UInt32) : Control where
  view := view
  applied := applied

/-- The initial content of the view and the completed publishes, each with its sequence number. -/
def versions (s : Control) (view : ControlView) : List (UInt32 × Snapshot) :=
  (view.seq, view.content) :: s.published.map fun p => (p.1, clamp p.2)

end Control

end Cerebellum
