import Clpkm.Machine

/-!
# The life of a launched work

`clEnqueueNDRangeKernel` creates a `CallbackData`, which owns the kernel to run and the
events of what has been enqueued.  `MetaEnqueue` enqueues a slice and registers
`ResumeOrFinish` for the moment when the headers have been read; `ResumeOrFinish` looks
at them and enqueues the next slice or finishes.  So the data passes from a `unique_ptr`
to the vendor, and from callback to callback.

Every call of the vendor can fail.  A failure throws, the guards release what they
hold, and the `catch` of `ResumeOrFinish` cleans up.  The model follows the activations of
both functions from one call of the vendor to the next.  A registered callback is
delivered at any time.  The mutex of the work is left out, which leaves more runs in.

Each reference to an event gets a number when it is obtained.  `CallbackData` holds
nothing once it is freed.
-/

namespace Clpkm
namespace Lifecycle

/-- The two slots of `PrevWork`, in the order in which they are looked at. -/
inductive Slot
  | one
  | zero
  deriving DecidableEq, Repr

/-- What is asked about an event: its status, and when it began and ended. -/
inductive Query
  | status
  | profilingStart
  | profilingEnd
  deriving DecidableEq, Repr

/-- The calls of `MetaEnqueue`; `eventRead` is what the guard `EventRead` holds. -/
inductive Meta
  | enqueueKernel
  | enqueueRead
  | setCallback (eventRead : Nat)
  | flush (eventRead : Nat)
  deriving DecidableEq, Repr

/-- The callers of `MetaEnqueue`. -/
inductive Caller
  | enqueueNDRangeKernel
  | resumeOrFinish
  deriving DecidableEq, Repr

/-- The call of the vendor that an activation makes next. -/
inductive Pc
  | metaEnqueue (f : Caller) (m : Meta)
  /-- `clEnqueueMarkerWithWaitList` in `clEnqueueNDRangeKernel` -/
  | marker
  /-- `clEnqueueNDRangeKernel` has returned. -/
  | returned (success : Bool)
  | prevWork (idx : Slot) (q : Query)
  /-- the event of the callback; `ExecStatus` is its status -/
  | thisEvent (q : Query)
  | updateHeader
  /-- `clSetUserEventStatus` with `CL_COMPLETE` -/
  | setComplete
  | writeHeader
  /-- `clSetUserEventStatus` in the `catch` of `ResumeOrFinish` -/
  | setError
  /-- `ResumeOrFinish` has returned. -/
  | done
  deriving DecidableEq, Repr

/-- An activation; its guard is `Final` in `clEnqueueNDRangeKernel` and `ThisEvent` in
`ResumeOrFinish`. -/
structure Act where
  pc : Pc
  guard : Option Nat
  deriving DecidableEq, Repr

/-- `CallbackData`, as far as it owns something. -/
structure CallbackData where
  kernel : Bool
  prevWork0 : Option Nat
  prevWork1 : Option Nat
  final : Option Nat
  deriving DecidableEq, Repr

namespace CallbackData

def freed : CallbackData := ⟨false, none, none, none⟩

def slot (d : CallbackData) : Slot → Option Nat
  | .one => d.prevWork1
  | .zero => d.prevWork0

def releaseSlot (d : CallbackData) : Slot → CallbackData
  | .one => { d with prevWork1 := none }
  | .zero => { d with prevWork0 := none }

def events (d : CallbackData) : List Nat :=
  d.prevWork0.toList ++ d.prevWork1.toList ++ d.final.toList

end CallbackData

structure State where
  /-- `ShallReorder` of the queue -/
  shallReorder : Bool
  data : CallbackData
  acts : List Act
  /-- the events of registered callbacks that are still to be delivered -/
  pending : List Nat
  /-- `Final`, once it has been moved to the queue -/
  taskBlocker : Option Nat
  /-- the number of references obtained -/
  next : Nat
  /-- the references that have been released -/
  released : List Nat
  /-- how often the data was freed -/
  frees : Nat
  /-- how often a kernel was returned to the pool or released -/
  disposals : Nat
  /-- how often the status of `Final` was set -/
  statusSet : Nat
  deriving DecidableEq, Repr

/-- What `UpdateHeader` returns: 0, 1 or -1. -/
inductive Progress
  | finished
  | yetFinished
  | updated
  deriving DecidableEq, Repr

inductive Label
  /-- The next call of an activation succeeds or fails. -/
  | vendor (j : Nat) (ok : Bool)
  | updateHeader (j : Nat) (progress : Progress)
  /-- A registered callback is delivered. -/
  | deliver (i : Nat)
  /-- The queue drops its `TaskBlocker`. -/
  | dropTaskBlocker
  deriving DecidableEq, Repr

/-- What is looked at after a slot. -/
def Slot.following : Slot → Pc
  | .one => .prevWork .zero .status
  | .zero => .thisEvent .status

namespace State

def goto (s : State) (j : Nat) (a : Act) : State := { s with acts := s.acts.set j a }

def release (s : State) (es : List Nat) : State := { s with released := s.released ++ es }

/-- `delete Work` -/
def delete (s : State) : State :=
  { s with
    data := .freed,
    released := s.released ++ s.data.events,
    frees := s.frees + 1,
    disposals := s.disposals + s.data.kernel.toNat }

/-- `CallbackCleanup`: the kernel goes to the pool, and the data is freed. -/
def callbackCleanup (s : State) : State :=
  { s with
    data := { s.data with kernel := false },
    disposals := s.disposals + s.data.kernel.toNat }.delete

/-- The function returns; its guard is released. -/
def leave (s : State) (j : Nat) (a : Act) (pc : Pc) : State :=
  (s.release a.guard.toList).goto j ⟨pc, none⟩

/-- An exception leaves the body of the function.  In `clEnqueueNDRangeKernel` the `unique_ptr`
frees the data. -/
def throw (s : State) (f : Caller) (j : Nat) (a : Act) : State :=
  match f with
  | .enqueueNDRangeKernel => s.delete.leave j a (.returned false)
  | .resumeOrFinish => s.leave j a .setError

/-- `MetaEnqueue` -/
def metaEnqueue (s : State) (j : Nat) (a : Act) (f : Caller) : Meta → Bool → State
  | .enqueueKernel, true =>
    { s with data := { s.data with prevWork0 := some s.next }, next := s.next + 1 }.goto j
      { a with pc := .metaEnqueue f .enqueueRead }
  | .enqueueRead, true =>
    { s with next := s.next + 1 }.goto j { a with pc := .metaEnqueue f (.setCallback s.next) }
  | .setCallback e, true =>
    { s with pending := s.pending ++ [e] }.goto j { a with pc := .metaEnqueue f (.flush e) }
  | .flush _, true =>
    match f with
    | .enqueueNDRangeKernel => s.goto j { a with pc := .marker }
    | .resumeOrFinish => s.leave j a .done
  | .enqueueKernel, false | .enqueueRead, false => s.throw f j a
  | .setCallback e, false | .flush e, false => (s.release [e]).throw f j a

/-- The end of `clEnqueueNDRangeKernel`, after the marker. -/
def finishEnqueue (s : State) (j : Nat) (a : Act) : State :=
  if s.shallReorder then
    { s with taskBlocker := a.guard }.goto j ⟨.returned true, none⟩
  else s.leave j a (.returned true)

/-- What `ResumeOrFinish` does for a slot of `PrevWork`; an empty slot is skipped. -/
def prevWork (s : State) (j : Nat) (a : Act) (idx : Slot) (q : Query) (ok : Bool) : State :=
  match s.data.slot idx, ok, q with
  | none, _, _ => s.goto j { a with pc := idx.following }
  | some _, false, _ => s.throw .resumeOrFinish j a
  | some _, true, .status => s.goto j { a with pc := .prevWork idx .profilingStart }
  | some _, true, .profilingStart => s.goto j { a with pc := .prevWork idx .profilingEnd }
  | some e, true, .profilingEnd =>
    ({ s with data := s.data.releaseSlot idx }.release [e]).goto j { a with pc := idx.following }

/-- The next call of an activation; an assertion fails if the status of `Final` cannot be
set. -/
def vendor (s : State) (j : Nat) (a : Act) (ok : Bool) : Option State :=
  match a.pc, ok with
  | .metaEnqueue f m, ok => some (s.metaEnqueue j a f m ok)
  | .marker, true => some (s.finishEnqueue j a)
  | .marker, false => some (s.throw .enqueueNDRangeKernel j a)
  | .prevWork idx q, ok => some (s.prevWork j a idx q ok)
  | .thisEvent .status, true => some (s.goto j { a with pc := .thisEvent .profilingStart })
  | .thisEvent .profilingStart, true => some (s.goto j { a with pc := .thisEvent .profilingEnd })
  | .thisEvent .profilingEnd, true => some (s.goto j { a with pc := .updateHeader })
  | .thisEvent _, false => some (s.throw .resumeOrFinish j a)
  | .setComplete, true =>
    some ({ s with statusSet := s.statusSet + 1 }.callbackCleanup.leave j a .done)
  | .writeHeader, true =>
    some ({ s with data := { s.data with prevWork1 := some s.next }, next := s.next + 1 }.goto j
      { a with pc := .metaEnqueue .resumeOrFinish .enqueueKernel })
  | .writeHeader, false => some (s.throw .resumeOrFinish j a)
  | .setError, true =>
    some ({ s with statusSet := s.statusSet + 1 }.callbackCleanup.leave j a .done)
  | .setComplete, false | .setError, false => none
  | .returned _, _ | .updateHeader, _ | .done, _ => none

/-- What follows from the headers. -/
def updateHeader (s : State) (j : Nat) (a : Act) (progress : Progress) : Option State :=
  if a.pc = .updateHeader then
    some (s.goto j { a with
      pc := match progress with
        | .finished => .setComplete
        | .yetFinished => .metaEnqueue .resumeOrFinish .enqueueKernel
        | .updated => .writeHeader })
  else none

def step (s : State) : Label → Option State
  | .vendor j ok => s.acts[j]?.bind fun a => s.vendor j a ok
  | .updateHeader j progress => s.acts[j]?.bind fun a => s.updateHeader j a progress
  | .deliver i => s.pending[i]?.map fun e =>
    { s with
      pending := s.pending.eraseIdx i,
      acts := s.acts ++ [⟨.prevWork .one .status, some e⟩] }
  | .dropTaskBlocker => s.taskBlocker.map fun e => { s.release [e] with taskBlocker := none }

end State

/-- `clEnqueueNDRangeKernel` has created the data.  References 0 and 1 are those to `Final`, 2
is the event of writing the metadata. -/
def start (shallReorder : Bool) : State where
  shallReorder := shallReorder
  data := ⟨true, none, some 2, some 1⟩
  acts := [⟨.metaEnqueue .enqueueNDRangeKernel .enqueueKernel, some 0⟩]
  pending := []
  taskBlocker := none
  next := 3
  released := []
  frees := 0
  disposals := 0
  statusSet := 0

/-- The life of one work. -/
def machine : Machine State Label where
  Initial s := ∃ shallReorder, s = start shallReorder
  step := State.step

/-! ## What is promised -/

/-- The function has returned. -/
def Pc.finished : Pc → Bool
  | .returned _ | .done => true
  | _ => false

/-- Nothing is left to do for the work. -/
def State.Quiescent (s : State) : Prop :=
  s.pending = [] ∧ s.taskBlocker = none ∧ ∀ a ∈ s.acts, a.pc.finished = true

instance (s : State) : Decidable s.Quiescent :=
  inferInstanceAs (Decidable (_ ∧ _ ∧ ∀ a ∈ s.acts, _))

/-- The data, the kernel, the events and the status of the work are treated as they should. -/
structure Good (s : State) : Prop where
  frees_le : s.frees ≤ 1
  /-- no callback is still to be delivered when the data is freed -/
  pending : 0 < s.frees → s.pending = []
  disposals_le : s.disposals ≤ 1
  released_le : ∀ e, s.released.count e ≤ 1
  statusSet_le : s.statusSet ≤ 1
  /-- in the end everything has happened exactly once -/
  quiescent : s.Quiescent → s.frees = 1 ∧ s.disposals = 1 ∧
    (∀ e, e < s.next → s.released.count e = 1) ∧
    ((∃ a ∈ s.acts, a.pc = .returned true) → s.statusSet = 1)

/-- No `clFlush` in `MetaEnqueue` fails, and the marker is enqueued. -/
def Succeeds (s : State) (l : Label) : Prop :=
  ∀ j a, l = .vendor j false → s.acts[j]? = some a →
    a.pc ≠ .marker ∧ ∀ f e, a.pc ≠ .metaEnqueue f (.flush e)

end Lifecycle
end Clpkm
