import Clpkm.Machine
import Clpkm.Runtime.Lifecycle
import Mathlib.Logic.ExistsUnique

/-!
# The pools of kernel objects

A kernel of the application stands for any number of kernel objects of the vendor, so that
two launches of it do not share their arguments.  `clEnqueueNDRangeKernel` takes an object
from the pool of the kernel, or creates one, and hands it to the `CallbackData` of the
launch.  `CallbackCleanup` returns it to the pool.  On the way it is in guards of the type
`clKernel`: assigning to a guard swaps, constructing from a guard empties it, and a
guard that is destroyed releases what it holds.

Any number of threads call `clEnqueueNDRangeKernel` and run callbacks; a thread is a
thread of the application or one of the vendor, and a callback that the vendor runs inside
`clSetEventCallback` counts as a thread of its own.  The steps are those between which the
threads interleave, with every check and every call of the vendor.  The mutexes of the
works, of the `TaskBlocker`s and of the tables are left out, which leaves more runs in.
The kernel entries exist throughout.

Works and objects are numbered in the order in which they are created.
-/

namespace Clpkm
namespace KernelPool
open Lifecycle (Caller Progress)

/-- What `clEnqueueNDRangeKernel` does between taking the object and creating the work.
Each of these may end the call. -/
inductive Check
  /-- `clGetDeviceInfo` -/
  | deviceInfo
  | workDim
  | globalWorkSize
  /-- the local sizes divide the global sizes -/
  | workGroupSize
  | createMetadata
  | createLocal
  | createPrivate
  | writeMetadata
  /-- `clSetKernelArg`, with the number of calls that follow -/
  | setKernelArg (left : Nat)
  | createUserEvent
  deriving DecidableEq, Repr

/-- The calls of `MetaEnqueue`. -/
inductive Meta
  | enqueueKernel
  | enqueueRead
  | setCallback
  | flush
  deriving DecidableEq, Repr

/-- What a thread does next. -/
inductive Pc (K : Type)
  | idle
  /-- from here on `clEnqueueNDRangeKernel`: what is looked at before a kernel is taken -/
  | preCheck (k : K)
  | lockPool (k : K)
  | poolSize (k : K)
  /-- `KernelWrap = std::move(KernelInfo.Pool.back())` -/
  | moveBack (k : K)
  | popBack (k : K)
  | createKernel (k : K)
  | unlockPool (k : K)
  | check (k : K) (c : Check)
  | retainEvent (k : K)
  /-- `std::make_unique<CallbackData>` -/
  | newWork (k : K)
  | metaEnqueue (f : Caller) (m : Meta) (w : Nat)
  | marker (w : Nat)
  /-- `KernelWrap.get() = NULL` and `Work.release()` -/
  | releaseWork
  /-- from here on `ResumeOrFinish`: the status and the times of the events -/
  | inspect (w : Nat)
  /-- `clSetUserEventStatus` with `CL_COMPLETE` -/
  | setComplete (w : Nat)
  | writeHeader (w : Nat)
  /-- `clSetUserEventStatus` in the `catch` of `ResumeOrFinish` -/
  | setError (w : Nat)
  /-- from here on `CallbackCleanup` -/
  | lockCleanup (k : K) (w : Nat)
  /-- `KInfo.Pool.emplace_back(std::move(Work->Kernel))` -/
  | emplaceBack (k : K) (w : Nat)
  | unlockCleanup (k : K) (w : Nat)
  | deleteWork (w : Nat)
  deriving DecidableEq, Repr

/-- `CallbackData`, as far as it is about the kernel object. -/
structure CallbackData (K : Type) where
  kernel : Option Nat
  kInfo : K
  deriving DecidableEq, Repr

/-- A place on the heap. -/
inductive Block (K : Type)
  | unused
  | allocated (d : CallbackData K)
  | freed
  deriving DecidableEq, Repr

structure State (T K : Type) where
  pc : T → Pc K
  /-- the guard of the call; `none` is `NULL`, which it is when a call begins -/
  kernelWrap : T → Option Nat
  /-- `KernelInfo::Pool` -/
  pool : K → List (Option Nat)
  /-- who holds `KernelInfo::Mutex` -/
  mutex : K → Option T
  work : Nat → Block K
  /-- the number of works created -/
  nextWork : Nat
  /-- the works whose callback is registered and still to be delivered -/
  pending : List Nat
  /-- the number of kernel objects created -/
  created : Nat
  /-- the kernel objects for which the vendor's `clReleaseKernel` was called -/
  released : List Nat

/-- The steps of a thread. -/
inductive Label (T K : Type)
  /-- The application enqueues a kernel. -/
  | enqueue (t : T) (k : K)
  /-- The vendor delivers the callback of a work. -/
  | deliver (t : T) (w : Nat)
  /-- The next check or call of the vendor succeeds or fails. -/
  | move (t : T) (ok : Bool)
  /-- The header says how far the work is. -/
  | updateHeader (t : T) (progress : Progress)
  deriving DecidableEq, Repr

/-- What follows a check; `args` is the number of arguments of the kernel. -/
def Check.following {K : Type} (args : K → Nat) (k : K) : Check → Pc K
  | .deviceInfo => .check k .workDim
  | .workDim => .check k .globalWorkSize
  | .globalWorkSize => .check k .workGroupSize
  | .workGroupSize => .check k .createMetadata
  | .createMetadata => .check k .createLocal
  | .createLocal => .check k .createPrivate
  | .createPrivate => .check k .writeMetadata
  -- the metadata, the two buffers and the threshold follow the arguments of the kernel
  | .writeMetadata => .check k (.setKernelArg (args k + 3))
  | .setKernelArg (n + 1) => .check k (.setKernelArg n)
  | .setKernelArg 0 => .check k .createUserEvent
  | .createUserEvent => .retainEvent k

namespace State
variable {T K : Type} [DecidableEq T] [DecidableEq K]

def goto (s : State T K) (t : T) (p : Pc K) : State T K :=
  { s with pc := Function.update s.pc t p }

/-- A guard is destroyed that holds `g`. -/
def finalize (s : State T K) (g : Option Nat) : State T K :=
  { s with released := s.released ++ g.toList }

/-- The function returns; `KernelWrap` is destroyed. -/
def leave (s : State T K) (t : T) : State T K :=
  { s.finalize (s.kernelWrap t) with
    pc := Function.update s.pc t .idle
    kernelWrap := Function.update s.kernelWrap t none }

/-- Take the mutex of a kernel if it is free. -/
def lock (s : State T K) (t : T) (k : K) (p : Pc K) : Option (State T K) :=
  if (s.mutex k).isNone then
    some { s.goto t p with mutex := Function.update s.mutex k (some t) }
  else none

def unlock (s : State T K) (k : K) : State T K :=
  { s with mutex := Function.update s.mutex k none }

/-- The data of a work; to look at a freed work is undefined behaviour. -/
def access (s : State T K) (w : Nat) : Option (CallbackData K) :=
  match s.work w with
  | .allocated d => some d
  | .unused | .freed => none

/-- `delete Work` -/
def delete (s : State T K) (w : Nat) : Option (State T K) :=
  (s.access w).map fun d =>
    { s.finalize d.kernel with work := Function.update s.work w .freed }

/-- The guard of the call is swapped with the last one of the pool; there is no last one
in an empty vector. -/
def moveBack (s : State T K) (t : T) (k : K) : Option (State T K) :=
  (s.pool k).getLast?.map fun g =>
    { s.goto t (.popBack k) with
      pool := Function.update s.pool k ((s.pool k).dropLast ++ [s.kernelWrap t])
      kernelWrap := Function.update s.kernelWrap t g }

def popBack (s : State T K) (t : T) (k : K) : Option (State T K) :=
  (s.pool k).getLast?.map fun g =>
    { (s.finalize g).goto t (.unlockPool k) with
      pool := Function.update s.pool k (s.pool k).dropLast }

/-- The new object is swapped into the guard of the call. -/
def createKernel (s : State T K) (t : T) (k : K) : State T K :=
  { (s.finalize (s.kernelWrap t)).goto t (.unlockPool k) with
    kernelWrap := Function.update s.kernelWrap t (some s.created)
    created := s.created + 1 }

def newWork (s : State T K) (t : T) (k : K) : State T K :=
  { s.goto t (.metaEnqueue .enqueueNDRangeKernel .enqueueKernel s.nextWork) with
    kernelWrap := Function.update s.kernelWrap t none
    work := Function.update s.work s.nextWork (.allocated ⟨s.kernelWrap t, k⟩)
    nextWork := s.nextWork + 1 }

/-- An exception leaves the body of the function.  In `clEnqueueNDRangeKernel` the
`unique_ptr` deletes the work. -/
def throw (s : State T K) (t : T) (w : Nat) : Caller → Option (State T K)
  | .enqueueNDRangeKernel => (s.delete w).map (·.leave t)
  | .resumeOrFinish => some (s.goto t (.setError w))

def metaEnqueue (s : State T K) (t : T) (f : Caller) (w : Nat) : Meta → Bool → Option (State T K)
  | .enqueueKernel, true =>
    (s.access w).map fun _ => s.goto t (.metaEnqueue f .enqueueRead w)
  | .enqueueRead, true =>
    (s.access w).map fun _ => s.goto t (.metaEnqueue f .setCallback w)
  | .setCallback, true =>
    some { s.goto t (.metaEnqueue f .flush w) with pending := s.pending ++ [w] }
  -- the work's own mutex keeps the queue from being freed until here
  | .flush, true =>
    match f with
    | .enqueueNDRangeKernel => some (s.goto t (.marker w))
    | .resumeOrFinish => some (s.leave t)
  | _, false => s.throw t w f

/-- `KernelWrap` is overwritten, and the work is left to the callbacks. -/
def releaseWork (s : State T K) (t : T) : State T K :=
  { s.goto t .idle with kernelWrap := Function.update s.kernelWrap t none }

def emplaceBack (s : State T K) (t : T) (k : K) (w : Nat) : Option (State T K) :=
  (s.access w).map fun d =>
    { s.goto t (.unlockCleanup k w) with
      pool := Function.update s.pool k (s.pool k ++ [d.kernel])
      work := Function.update s.work w (.allocated { d with kernel := none }) }

/-- The next check or call of a thread; `none` if it waits for a mutex, if an assertion ends
the process, or if the step cannot fail. -/
def move (args : K → Nat) (s : State T K) (t : T) (ok : Bool) : Option (State T K) :=
  match s.pc t, ok with
  | .idle, _ => none
  | .preCheck k, true => some (s.goto t (.lockPool k))
  | .preCheck _, false => some (s.leave t)
  | .lockPool k, true => s.lock t k (.poolSize k)
  | .poolSize k, true =>
    some (s.goto t (if 0 < (s.pool k).length then .moveBack k else .createKernel k))
  | .moveBack k, true => s.moveBack t k
  | .popBack k, true => s.popBack t k
  | .createKernel k, true => some (s.createKernel t k)
  | .createKernel k, false => some ((s.unlock k).leave t)
  | .unlockPool k, true => some ((s.unlock k).goto t (.check k .deviceInfo))
  | .check k c, true => some (s.goto t (c.following args k))
  | .check _ _, false => some (s.leave t)
  | .retainEvent k, true => some (s.goto t (.newWork k))
  | .newWork k, true => some (s.newWork t k)
  | .newWork _, false => some (s.leave t)
  | .metaEnqueue f m w, ok => s.metaEnqueue t f w m ok
  | .marker _, true => some (s.goto t .releaseWork)
  | .marker w, false => s.throw t w .enqueueNDRangeKernel
  | .releaseWork, true => some (s.releaseWork t)
  | .inspect w, true => (s.access w).map fun _ => s
  | .inspect w, false => s.throw t w .resumeOrFinish
  | .setComplete w, true | .setError w, true =>
    (s.access w).map fun d => s.goto t (.lockCleanup d.kInfo w)
  | .writeHeader w, true =>
    (s.access w).map fun _ => s.goto t (.metaEnqueue .resumeOrFinish .enqueueKernel w)
  | .writeHeader w, false => s.throw t w .resumeOrFinish
  | .lockCleanup k w, true => s.lock t k (.emplaceBack k w)
  | .emplaceBack k w, true => s.emplaceBack t k w
  | .unlockCleanup k w, true => some ((s.unlock k).goto t (.deleteWork w))
  | .deleteWork w, true => (s.delete w).map (·.leave t)
  | _, false => none

/-- What follows from the header. -/
def updateHeader (s : State T K) (t : T) (progress : Progress) : Option (State T K) :=
  match s.pc t with
  | .inspect w =>
    (s.access w).map fun _ => s.goto t (match progress with
      | .finished => .setComplete w
      | .yetFinished => .metaEnqueue .resumeOrFinish .enqueueKernel w
      | .updated => .writeHeader w)
  | _ => none

/-- A thread that is in no call enters one. -/
def enter (s : State T K) (t : T) (p : Pc K) : Option (State T K) :=
  match s.pc t with
  | .idle => some (s.goto t p)
  | _ => none

end State

variable {T K : Type} [DecidableEq T] [DecidableEq K]

/-- Nothing has been launched. -/
def start (T K : Type) : State T K where
  pc _ := .idle
  kernelWrap _ := none
  pool _ := []
  mutex _ := none
  work _ := .unused
  nextWork := 0
  pending := []
  created := 0
  released := []

/-- The calls and callbacks of the threads `T` on the kernels `K`. -/
def machine (T K : Type) [DecidableEq T] [DecidableEq K] (args : K → Nat) :
    Machine (State T K) (Label T K) where
  Initial s := s = start T K
  step s
    | .enqueue t k => s.enter t (.preCheck k)
    | .deliver t w =>
      if w ∈ s.pending then
        (s.enter t (.inspect w)).map fun s => { s with pending := s.pending.erase w }
      else none
    | .move t ok => s.move args t ok
    | .updateHeader t progress => s.updateHeader t progress

/-! ## What is promised -/

/-- The work that the activation has to register, to finish or to free. -/
def Pc.work : Pc K → Option Nat
  | .metaEnqueue _ .flush _ => none
  | .metaEnqueue _ _ w | .inspect w | .setComplete w | .writeHeader w | .setError w
  | .lockCleanup _ w | .emplaceBack _ w | .unlockCleanup _ w | .deleteWork w => some w
  | _ => none

/-- The activation is a call of `clEnqueueNDRangeKernel`. -/
def Pc.isCall : Pc K → Bool
  | .metaEnqueue .resumeOrFinish _ _ | .idle | .inspect _ | .setComplete _ | .writeHeader _
  | .setError _ | .lockCleanup .. | .emplaceBack .. | .unlockCleanup .. | .deleteWork _ => false
  | _ => true

/-- Who may have a kernel object. -/
inductive Owner (T K : Type)
  | pool (k : K)
  /-- a call in progress -/
  | call (t : T)
  /-- a work in flight -/
  | flight (w : Nat)
  | released

namespace State

/-- The call of the thread prepares the work, whose callback it has still to register. -/
def Prepares (s : State T K) (t : T) (w : Nat) : Prop :=
  (s.pc t).isCall = true ∧ (s.pc t).work = some w

/-- The callback of the work is registered or runs. -/
def InFlight (s : State T K) (w : Nat) : Prop :=
  w ∈ s.pending ∨ ∃ t, (s.pc t).isCall = false ∧ (s.pc t).work = some w

/-- The kernel object that the work uses. -/
def kernel (s : State T K) (w : Nat) : Option Nat := (s.access w).bind CallbackData.kernel

/-- The kernel object belongs to the owner. -/
def Owns (s : State T K) (o : Nat) : Owner T K → Prop
  | .pool k => some o ∈ s.pool k
  | .call t => s.kernelWrap t = some o ∨ ∃ w, s.Prepares t w ∧ s.kernel w = some o
  | .flight w => s.InFlight w ∧ s.kernel w = some o
  | .released => o ∈ s.released

end State

/-- Kernel objects are not shared. -/
structure NeverShared (s : State T K) : Prop where
  /-- every object that was created has exactly one owner -/
  owner : ∀ o, o < s.created → ∃! x, s.Owns o x
  flight : ∀ w w' o, s.InFlight w → s.InFlight w' → s.kernel w = some o →
    s.kernel w' = some o → w = w'
  pooled : ∀ k w o, some o ∈ s.pool k → s.InFlight w → s.kernel w ≠ some o
  /-- an object is in its pool once -/
  pool_count : ∀ k o, (s.pool k).count (some o) ≤ 1
  /-- an object is released once -/
  released : s.released.Nodup
  /-- the work of a callback has not been freed -/
  access : ∀ w, s.InFlight w → ∃ d, s.access w = some d

/-- No vendor call fails between the registration of a callback and the return of the
function that registered it. -/
def UpToRegistration (s : State T K) (l : Label T K) : Prop :=
  ∀ t, l = .move t false → ∀ f w, s.pc t ≠ .marker w ∧ s.pc t ≠ .metaEnqueue f .flush w

end KernelPool
end Clpkm
