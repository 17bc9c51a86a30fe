import Clpkm.NDRange
import Clpkm.TaskBlocker

/-!
# A queue and the memory its commands work on

`TaskBlocker` says when the commands of a queue may start and end, and `NDRange` what a kernel
in slices makes of memory.  Here a queue executes: a command that the caller asked for changes
global memory when it ends, the work-items of a kernel run while the command of a slice is
running, and the callback looks at the headers to see whether the kernel needs another slice.
The kernels of several launches are in the queue at the same time, each with its buffers, and
work on the same memory.

The commands for headers and metadata and the markers do nothing to memory.  What other queues
do to memory is left out, and so are kernels with barriers, as in `NDRange`.  A command changes
memory at its end; one that fails changes nothing.
-/

namespace Clpkm
open Lang Instrumentor UpdateHeader
namespace CommandQueue

variable {Var Val Mem Block : Type} [DecidableEq Var]

/-- A kernel and the work-items that it is enqueued for. -/
structure Launch (Var Block : Type) [DecidableEq Var] {Val Mem : Type} (I : Interp Val Mem) where
  kernel : Kernel Var Val
  clang : Clang Var Val Block
  /-- `NumOfThread` -/
  n : Nat
  pos : 0 < n
  env : Fin n → Env Var Val
  restores : ∀ i, Restores I clang kernel (env i).args
  /-- `WorkGrpSize` -/
  size : Nat
  size_pos : 0 < size
  dvd : size ∣ n

variable {I : Interp Val Mem}

/-- What a call asks for. -/
inductive Task (Var Block : Type) [DecidableEq Var] {Val Mem : Type} (I : Interp Val Mem)
  /-- to read, write, copy, map or unmap, or a marker -/
  | command (f : Mem → Mem)
  | kernel (l : Launch Var Block I)

/-- What the command with an event does to memory. -/
inductive Operation (Mem : Type)
  | none
  | command (f : Mem → Mem)
  /-- a slice of the kernel of a work -/
  | slice (work : Nat)

/-- The work-items of a work. -/
structure Run (Var Block : Type) [DecidableEq Var] {Val Mem : Type} (I : Interp Val Mem) where
  launch : Launch Var Block I
  items : NDRange.Sliced Var Val Mem launch.n

/-- The work-items with the memory of the moment. -/
def Run.withMem (r : Run Var Block I) (m : Mem) : NDRange.Sliced Var Val Mem r.launch.n :=
  { r.items with mem := m }

/-- A queue that executes. -/
structure State (Var Block : Type) [DecidableEq Var] {Val Mem : Type} (I : Interp Val Mem) where
  queue : TaskBlocker.State
  /-- by the event of a command -/
  operation : Nat → Operation Mem
  /-- for each work of the queue -/
  runs : List (Run Var Block I)
  /-- for each call on the queue -/
  tasks : List (Task Var Block I)
  mem : Mem

/-- The choices of the environment, as `TaskBlocker` has them, but for what the callback of a
launch finds. -/
inductive Label (Var Block : Type) [DecidableEq Var] {Val Mem : Type} (I : Interp Val Mem)
  | foreign
  | settleForeign (id : Nat) (success : Bool)
  | device (l : DeviceLabel)
  | reorder (waits : List Nat) (success : Bool) (f : Mem → Mem)
  | launch (waits : List Nat) (done : Nat) (l : Launch Var Block I)
  /-- a step of a work-item in the slice with this event -/
  | item (id : Nat) (i : Nat)
  | resume (work : Nat) (done : Nat)

namespace State

def init (shallReorder : Bool) (m : Mem) : State Var Block I :=
  ⟨TaskBlocker.State.init shallReorder, fun _ => .none, [], [], m⟩

/-- A slice is over when every work-item has left it. -/
def mayMove (s : State Var Block I) : DeviceLabel → Bool
  | .finish id true =>
    match s.operation id with
    | .slice w => (s.runs[w]?).all fun r => r.items.idle
    | _ => true
  | _ => true

/-- Memory after a move of the device. -/
def memAfter (s : State Var Block I) : DeviceLabel → Mem
  | .finish id true =>
    match s.operation id with
    | .command f => f s.mem
    | _ => s.mem
  | _ => s.mem

/-- `ReorderCore` -/
def reorder (s : State Var Block I) (waits : List Nat) (success : Bool) (f : Mem → Mem) :
    State Var Block I :=
  if success then
    { s with
      queue := TaskBlocker.reorderCore s.queue waits true
      operation := Function.update s.operation s.queue.events.length (.command f)
      tasks := s.tasks ++ [.command f] }
  else s

/-- `clEnqueueNDRangeKernel`.  The kernel of the first slice is the third event; what it does
when a vendor call after it fails is left out. -/
def launch (s : State Var Block I) (waits : List Nat) (done : Nat) (l : Launch Var Block I) :
    State Var Block I :=
  let queue := TaskBlocker.enqueueNDRangeKernel s.queue waits done
  if (TaskBlocker.launchEvents s.queue waits).length ≤ done then
    { s with
      queue := queue
      operation := Function.update s.operation (s.queue.events.length + 2)
        (.slice s.queue.works.length)
      runs := s.runs ++ [⟨l, NDRange.Sliced.start I l.kernel l.clang l.env s.mem⟩]
      tasks := s.tasks ++ [.kernel l] }
  else { s with queue := queue }

/-- A work-item of a slice that is running. -/
def item (s : State Var Block I) (id i : Nat) : Option (State Var Block I) :=
  match s.operation id with
  | .slice w => do
    let r ← s.runs[w]?
    if h : EventTable.status s.queue.events id = some .running ∧ i < r.launch.n then
      let x ← NDRange.Sliced.step I r.launch.kernel r.launch.clang r.launch.env r.launch.size
        (r.withMem s.mem) (.item ⟨i, h.2⟩)
      return { s with runs := s.runs.set w ⟨r.launch, x⟩, mem := x.mem }
    else none
  | _ => none

/-- What the callback of a work finds in the headers, and the work-items after it. -/
def inspect (s : State Var Block I) (r : Run Var Block I) : Option (Int × Run Var Block I) := do
  let (progress, _) ← (updateHeader r.launch.size r.items.headers).toOption
  let x ← NDRange.Sliced.resumeOrFinish I r.launch.kernel r.launch.clang r.launch.env
    r.launch.size (r.withMem s.mem)
  return (progress, ⟨r.launch, x⟩)

/-- The read of the headers of the last slice. -/
def lastRead (s : State Var Block I) (work : TaskBlocker.Work) : Option EventStatus :=
  work.slices.getLast?.bind fun p => EventTable.status s.queue.events p.2

/-- `ResumeOrFinish`.  The kernel of another slice comes after the write of the headers. -/
def resume (s : State Var Block I) (w done : Nat) : Option (State Var Block I) := do
  let work ← s.queue.works[w]?
  let r ← s.runs[w]?
  if s.lastRead work = some .complete then
    let (progress, r') ← s.inspect r
    if progress = 0 then
      let queue ← TaskBlocker.step s.queue (.resume w .finish)
      return { s with queue := queue, runs := s.runs.set w r' }
    else
      let writeHeader := decide (progress < 0)
      let queue ← TaskBlocker.step s.queue (.resume w (.again writeHeader done))
      let run := s.queue.events.length + (if writeHeader then 1 else 0)
      return if writeHeader.toNat < done then
        { s with
          queue := queue
          operation := Function.update s.operation run (.slice w)
          runs := s.runs.set w r' }
      else { s with queue := queue }
  else
    let queue ← TaskBlocker.step s.queue (.resume w .finish)
    return { s with queue := queue }

/-- One step. -/
def step (s : State Var Block I) : Label Var Block I → Option (State Var Block I)
  | .foreign => (TaskBlocker.step s.queue .foreign).map fun q => { s with queue := q }
  | .settleForeign id success =>
    (TaskBlocker.step s.queue (.settleForeign id success)).map fun q => { s with queue := q }
  | .device l =>
    if s.mayMove l then
      (TaskBlocker.step s.queue (.device l)).map fun q =>
        { s with queue := q, mem := s.memAfter l }
    else none
  | .reorder waits success f => some (s.reorder waits success f)
  | .launch waits done l => some (s.launch waits done l)
  | .item id i => s.item id i
  | .resume w done => s.resume w done

end State

/-- The queue with a memory at the start. -/
def machine (I : Interp Val Mem) (shallReorder : Bool) (m : Mem) :
    Machine (State Var Block I) (Label Var Block I) :=
  ⟨(· = State.init shallReorder m), State.step⟩

/-- No vendor call of a launch or a callback fails once the kernel is enqueued, and of the
commands those that the caller asked for do not fail. -/
def Regular (s : State Var Block I) : Label Var Block I → Prop
  | .launch _ done _ => done ≤ 2 ∨ 5 ≤ done
  | .resume _ done => done = 0 ∨ 4 ≤ done
  | .device (.finish id false) => ∀ f, s.operation id ≠ .command f
  | _ => True

end CommandQueue
end Clpkm
