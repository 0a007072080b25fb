import Cerebellum.Graph.Graph
import Mathlib.Logic.Function.Basic

/-!
# The dispatcher

`Dispatcher` (`graph/dispatcher.cpp`) runs a frame of handles through a graph. Each node has a list
of pending frames; a node with pending frames is on a stack of scheduled nodes, once. The loop takes
a node from the stack, processes its pending frames one after the other, and appends what the node
pushes on each wired output to the pending frames of the target. Frames come from a pool
(`graph/frame_pool.cpp`) and go back to it after they are processed.

Frames are referred to by their index in the storage of the pool, as the source refers to them by
pointers, so that two lists may hold the same frame; that this never happens is proved, not assumed.
An index beyond the size of a vector and a push on a full frame are faults. The loop has fuel, and
`Fault.running` says that it is used up. The run keeps a log of the calls of `Process`.

## Main definitions

* `Cerebellum.Graph.FramePool`, `Cerebellum.Dispatcher`.
* `Cerebellum.Dispatcher.routeInto`, `Cerebellum.Dispatcher.schedule`.
* `Cerebellum.Call`, `Cerebellum.Graph.Node.call`.
* `Cerebellum.Run`, `Cerebellum.Run.runNode`, `Cerebellum.Run.drainNode`, `Cerebellum.Run.drain`.
* `Cerebellum.Dispatcher.runOnce`.
-/

namespace Cerebellum

/-- What can go wrong in a run. -/
inductive Fault
  /-- A push on a full frame. -/
  | overflow
  /-- An index beyond the size of a vector. -/
  | badIndex
  /-- The loop is still running. -/
  | running
deriving DecidableEq

/-- A frame, by its index in the storage of the pool. -/
abbrev FrameId : Type := ℕ

namespace Graph

variable {Handle : Type}

/-- `Frame::Push`, with the assertion. -/
def Frame.push (frame : Frame Handle) (handle : Handle) : Except Fault (Frame Handle) :=
  if h : frame.bufs.length < kBurstSize then
    .ok ⟨frame.bufs ++ [handle], by
      rw [List.length_append, List.length_singleton]
      exact h⟩
  else .error .overflow

/-- `graph::FramePool`; the top of the free stack is the head of the list. -/
structure FramePool (Handle : Type) where
  storage : FrameId → Frame Handle := fun _ => .cleared
  allocated : ℕ := 0
  free : List FrameId := []

namespace FramePool

variable (pool : FramePool Handle)

/-- The constructor of `FramePool`. -/
def reserve (Handle : Type) (n : ℕ) : FramePool Handle where
  allocated := n
  free := (List.range n).reverse

/-- `FramePool::Acquire`. -/
def acquire : FrameId × FramePool Handle :=
  match pool.free with
  | [] =>
    (pool.allocated,
      { pool with
        storage := Function.update pool.storage pool.allocated .cleared
        allocated := pool.allocated + 1 })
  | f :: free => (f, { pool with storage := Function.update pool.storage f .cleared, free := free })

/-- `FramePool::Release`. -/
def release (f : FrameId) : FramePool Handle :=
  { pool with storage := Function.update pool.storage f .cleared, free := f :: pool.free }

/-- `frame->Push(handle)`. -/
def push (f : FrameId) (handle : Handle) : Except Fault (FramePool Handle) := do
  let frame ← (pool.storage f).push handle
  .ok { pool with storage := Function.update pool.storage f frame }

end FramePool

end Graph

open Graph

variable {σ Handle : Type}

/-- `graph::Dispatcher`; `size` is the size of the vectors `pending_` and `scheduled_`, and the top
of the stack `queue_` is the head of the list. -/
structure Dispatcher (Handle : Type) where
  size : ℕ
  pending : NodeId → List FrameId := fun _ => []
  scheduled : NodeId → Bool := fun _ => false
  queue : List NodeId := []
  scratch : ℕ → Frame Handle := fun _ => .cleared
  pool : FramePool Handle

namespace Dispatcher

/-- The constructor of `Dispatcher`. -/
def init (g : Graph σ Handle) : Dispatcher Handle where
  size := g.nodeCount.toNat
  pool := .reserve Handle (g.nodeCount.toNat + kMaxFanout)

variable (d : Dispatcher Handle)

/-- The check that `v` is an index of `pending_` and `scheduled_`. -/
def checkIndex (v : NodeId) : Except Fault Unit :=
  if v.toNat < d.size then .ok () else .error .badIndex

/-- `Dispatcher::Schedule`. -/
def schedule (v : NodeId) : Except Fault (Dispatcher Handle) := do
  d.checkIndex v
  if d.scheduled v then .ok d
  else .ok { d with scheduled := Function.update d.scheduled v true, queue := v :: d.queue }

/-- `pend.push_back(pool_.Acquire())`. -/
def addFrame (target : NodeId) : Dispatcher Handle :=
  { d with
    pool := d.pool.acquire.2
    pending := Function.update d.pending target (d.pending target ++ [d.pool.acquire.1]) }

/-- The first part of the loop body of `RouteInto`: a new frame, if there is none or it is full. -/
def openFrame (target : NodeId) : Dispatcher Handle :=
  match (d.pending target).getLast? with
  | none => d.addFrame target
  | some f => if (d.pool.storage f).full then d.addFrame target else d

/-- The loop body of `RouteInto`. -/
def pushBack (target : NodeId) (d : Dispatcher Handle) (handle : Handle) :
    Except Fault (Dispatcher Handle) :=
  match ((d.openFrame target).pending target).getLast? with
  | none => .error .badIndex
  | some f => do
    let pool ← (d.openFrame target).pool.push f handle
    .ok { d.openFrame target with pool := pool }

/-- `Dispatcher::RouteInto`. -/
def routeInto (target : NodeId) (src : Frame Handle) : Except Fault (Dispatcher Handle) := do
  d.checkIndex target
  src.bufs.foldlM (pushBack target) d

/-- The body of the second loop of `RunNode`: what was pushed on output `out` goes to its target. -/
def routeOutput (g : Graph σ Handle) (v : NodeId) (d : Dispatcher Handle) (out : ℕ) :
    Except Fault (Dispatcher Handle) :=
  if g.target v out = kInvalid ∨ (d.scratch out).bufs.length = 0 then .ok d
  else do
    let d ← d.routeInto (g.target v out) (d.scratch out)
    d.schedule (g.target v out)

/-- `Dispatcher::Reset`. -/
def reset : Dispatcher Handle :=
  { d with
    pool := (List.range d.size).foldl
      (fun pool v => (d.pending (UInt16.ofNat v)).foldl FramePool.release pool) d.pool
    pending := fun _ => []
    queue := []
    scheduled := fun _ => false }

end Dispatcher

/-- A call of `Process`: the handles in the frame, and those pushed on each output. -/
structure Call (Handle : Type) where
  node : NodeId
  input : List Handle
  outs : ℕ → List Handle

/-- The frames of the outputs of a node, with `rest` at the other places of the array. -/
def outputs {n : ℕ} (outs : Fin n → Frame Handle) (rest : ℕ → Frame Handle) (out : ℕ) :
    Frame Handle :=
  if h : out < n then outs ⟨out, h⟩ else rest out

/-- The call of `Process` of a node in a state of the nodes. -/
def Graph.Node.call (node : Graph.Node σ Handle) (v : NodeId) (world : σ) (input : Frame Handle) :
    Call Handle where
  node := v
  input := input.bufs
  outs out := (outputs (node.process world input).2 (fun _ => .cleared) out).bufs

/-- A run of the dispatcher: its state, the state of the nodes, and the calls made so far. -/
structure Run (σ Handle : Type) where
  disp : Dispatcher Handle
  world : σ
  log : List (Call Handle) := []

namespace Run

variable (g : Graph σ Handle)

/-- `Dispatcher::RunNode`. The frames in `scratch_` are cleared, filled by `Process`, and routed. -/
def runNode (v : NodeId) (input : Frame Handle) (r : Run σ Handle) :
    Except Fault (Run σ Handle) :=
  match g.nodes[v.toNat]? with
  | none => .error .badIndex
  | some node => do
    let scratch := outputs (node.process r.world input).2 r.disp.scratch
    let disp ← (List.range (g.fanout v)).foldlM (Dispatcher.routeOutput g v)
      { r.disp with scratch := scratch }
    .ok {
      disp := disp
      world := (node.process r.world input).1
      log := r.log ++ [node.call v r.world input] }

/-- The loop of `DrainNode` over the frames that were pending. -/
def drainFrames (v : NodeId) : List FrameId → Run σ Handle → Except Fault (Run σ Handle)
  | [], r => .ok r
  | f :: frames, r => do
    let r ← runNode g v (r.disp.pool.storage f) r
    drainFrames v frames { r with disp := { r.disp with pool := r.disp.pool.release f } }

/-- `Dispatcher::DrainNode`. -/
def drainNode (v : NodeId) (r : Run σ Handle) : Except Fault (Run σ Handle) := do
  r.disp.checkIndex v
  drainFrames g v (r.disp.pending v)
    { r with disp := { r.disp with pending := Function.update r.disp.pending v [] } }

/-- The node on top of the stack is taken off it. -/
def pop (v : NodeId) (queue : List NodeId) (r : Run σ Handle) : Run σ Handle :=
  { r with
    disp := { r.disp with queue := queue, scheduled := Function.update r.disp.scheduled v false } }

/-- The loop of `RunOnce`, which ends when the stack is empty. -/
def drain : ℕ → Run σ Handle → Except Fault (Run σ Handle)
  | 0, r => if r.disp.queue = [] then .ok r else .error .running
  | fuel + 1, r =>
    match r.disp.queue with
    | [] => .ok r
    | v :: queue => do
      let r ← drainNode g v (r.pop v queue)
      drain fuel r

variable {g} {r : Run σ Handle}

theorem drain_of_nil (h : r.disp.queue = []) (fuel : ℕ) : drain g fuel r = .ok r := by
  cases fuel with
  | zero => exact if_pos h
  | succ fuel => simp only [drain, h]

theorem drain_zero_of_cons {v : NodeId} {queue : List NodeId} (h : r.disp.queue = v :: queue) :
    drain g 0 r = .error .running :=
  if_neg (h ▸ List.cons_ne_nil _ _)

theorem drain_succ_of_cons {v : NodeId} {queue : List NodeId} (h : r.disp.queue = v :: queue)
    {r' : Run σ Handle} (hrun : drainNode g v (r.pop v queue) = .ok r') (fuel : ℕ) :
    drain g (fuel + 1) r = drain g fuel r' := by
  simp only [drain, h, hrun]
  rfl

end Run

/-- The first part of `RunOnce`: the handles of the root frame are pending at the root. -/
def Dispatcher.seed (root : NodeId) (frame : Frame Handle) (d : Dispatcher Handle) :
    Except Fault (Dispatcher Handle) := do
  let (f, pool) := d.reset.pool.acquire
  let pool ← frame.bufs.foldlM (fun pool handle => pool.push f handle) pool
  d.reset.checkIndex root
  let pending := Function.update d.reset.pending root (d.reset.pending root ++ [f])
  { d.reset with pool := pool, pending := pending }.schedule root

/-- `Dispatcher::RunOnce`. -/
def Dispatcher.runOnce (g : Graph σ Handle) (root : NodeId) (fuel : ℕ) (frame : Frame Handle)
    (d : Dispatcher Handle) (world : σ) : Except Fault (Run σ Handle) := do
  let d ← d.seed root frame
  Run.drain g fuel { disp := d, world := world }

end Cerebellum
