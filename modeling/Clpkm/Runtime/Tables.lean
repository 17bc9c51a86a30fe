import Clpkm.Runtime.KernelArgs
import Clpkm.Table

/-!
# The tables of the runtime

A low-priority process has a table for the queues, the programs and the kernels that the
application has created.  An entry of the queue table owns a shadow queue, an entry of the
program table owns the instrumented program and the profiles of its kernels, and an entry of
the kernel table points to one of these profiles.  A work that has been launched points
to the entry of its kernel and names a shadow queue.

Entries are removed when the application drops its last reference: for queues and
programs that is what the vendor says about the application's own object, for kernels it
is a counter of the runtime.

An entry that is removed is gone for good, also when the vendor hands out its handle
again.  So entries are numbered (`entry`), and a pointer to an entry is its number.  A
shadow queue is named by the entry that owns it.  A call that reads through a pointer to
an entry which is gone has no step.
-/

namespace Clpkm
namespace Runtime
open KernelArgs (KArg)

/-- What a call of the vendor returns: a result or an error code. -/
abbrev Vendor (α : Type) := Except Int α

/-- What a call of the runtime returns. -/
inductive Status
  | success
  | invalidCommandQueue
  | invalidKernel
  | invalidProgram
  | invalidProgramExecutable
  | invalidKernelName
  | invalidContext
  | invalidEventWaitList
  | buildProgramFailure
  | arg (ret : KernelArgs.Ret)
  | vendor (code : Int)
  deriving DecidableEq, Repr

/-- A pointer into the `KernelProfileList` of an entry of the program table. -/
structure ProfilePtr where
  entry : Nat
  idx : Nat
  deriving DecidableEq, Repr

structure ProgramInfo where
  entry : Nat
  context : Nat
  /-- none if the compiler has rejected the source -/
  shadowProgram : Option Nat
  kernelProfileList : List (String × KernelProfile)
  deriving DecidableEq, Repr

structure KernelInfo where
  entry : Nat
  context : Nat
  program : Nat
  profile : ProfilePtr
  args : List KArg
  pool : List Nat
  refCount : Nat
  deriving DecidableEq, Repr

structure QueueInfo where
  /-- the number of the entry, which is the name of its shadow queue -/
  entry : Nat
  context : Nat
  device : Nat
  shallReorder : Bool
  deriving DecidableEq, Repr

/-- `CallbackData`, as far as it refers to entries. -/
structure Work where
  queue : Nat
  kernel : Nat
  kInfo : Nat
  deriving DecidableEq, Repr

structure State where
  queueTable : AList (fun _ : Nat => QueueInfo)
  programTable : AList (fun _ : Nat => ProgramInfo)
  kernelTable : AList (fun _ : Nat => KernelInfo)
  /-- what has been launched and not cleaned up -/
  works : List Work
  /-- the vendor's reference counts of the application's queues and programs -/
  queueRefs : Nat → Nat
  programRefs : Nat → Nat
  /-- the number of the next entry -/
  next : Nat

namespace State
variable (s : State)

/-! ## Queues -/

/-- `clCreateCommandQueue`; `raw` and `shadow` are what the vendor returns for the
application's queue and for the shadow queue. -/
def createCommandQueue (context device : Nat) (outOfOrder : Bool) (raw : Vendor Nat)
    (shadow : Vendor Unit) : Option (Status × State) :=
  match raw, shadow with
  | .error code, _ => some (.vendor code, s)
  | .ok _, .error code => some (.vendor code, s)
  | .ok queue, .ok () =>
    -- "insertion to queue table didn't take place"
    if (s.queueTable.lookup queue).isSome then none
    else some (.success, { s with
      queueTable := s.queueTable.insert queue ⟨s.next, context, device, !outOfOrder⟩,
      queueRefs := Function.update s.queueRefs queue 1,
      next := s.next + 1 })

/-- The vendor's `clReleaseCommandQueue`. -/
def venReleaseCommandQueue (queue : Nat) (release : Vendor Unit) : Status × State :=
  match release with
  | .error code => (.vendor code, s)
  | .ok () =>
    (.success, { s with queueRefs := Function.update s.queueRefs queue (s.queueRefs queue - 1) })

/-- `clReleaseCommandQueue`; `info` is what the query of the reference count returns. -/
def releaseCommandQueue (queue : Nat) (info release : Vendor Unit) : Status × State :=
  match s.queueTable.lookup queue, info with
  | none, _ => (.invalidCommandQueue, s)
  | some _, .error code => (.vendor code, s)
  | some _, .ok () =>
    if s.queueRefs queue ≤ 1 then
      { s with queueTable := s.queueTable.erase queue }.venReleaseCommandQueue queue release
    else s.venReleaseCommandQueue queue release

/-! ## Programs -/

/-- `clBuildProgram`, of a program that has a source: `info` is what the queries return, with
the context of the program, `compiled` the result of `Compile`, `create` the instrumented
program, and `build` what the vendor says of it. -/
def buildProgram (program : Nat) (info : Vendor Nat)
    (compiled : Option (List (String × KernelProfile))) (create : Vendor Nat)
    (build : Vendor Unit) : Option (Status × State) :=
  match info, compiled, create with
  | .error code, _, _ => some (.vendor code, s)
  | .ok context, none, _ =>
    -- "insertion to program table didn't take place"
    if (s.programTable.lookup program).isSome then none
    else some (.buildProgramFailure, { s with
      programTable := s.programTable.insert program ⟨s.next, context, none, []⟩,
      next := s.next + 1 })
  | .ok _, some _, .error code => some (.vendor code, s)
  | .ok context, some pl, .ok shadow =>
    if (s.programTable.lookup program).isSome then none
    else some (match build with | .ok () => .success | .error code => .vendor code, { s with
      programTable := s.programTable.insert program ⟨s.next, context, some shadow, pl⟩,
      next := s.next + 1 })

/-- The vendor's `clReleaseProgram`. -/
def venReleaseProgram (program : Nat) (release : Vendor Unit) : Status × State :=
  match release with
  | .error code => (.vendor code, s)
  | .ok () =>
    (.success,
      { s with programRefs := Function.update s.programRefs program (s.programRefs program - 1) })

/-- `clReleaseProgram`; `info` is what the query of the reference count returns. -/
def releaseProgram (program : Nat) (info release : Vendor Unit) : Status × State :=
  match s.programTable.lookup program, info with
  | none, _ => s.venReleaseProgram program release
  | some _, .error code => (.vendor code, s)
  | some _, .ok () =>
    if s.programRefs program ≤ 1 then
      { s with programTable := s.programTable.erase program }.venReleaseProgram program release
    else s.venReleaseProgram program release

/-! ## Kernels -/

/-- What a pointer to a profile points to. -/
def profile (ptr : ProfilePtr) : Option (String × KernelProfile) :=
  (s.programTable.entries.find? fun e => e.2.entry == ptr.entry).bind
    fun e => e.2.kernelProfileList[ptr.idx]?

/-- `clCreateKernel` -/
def createKernel (program : Nat) (name : String) (create : Vendor Nat) :
    Option (Status × State) :=
  match s.programTable.lookup program with
  | none => some (.invalidProgram, s)
  | some pi =>
    match pi.shadowProgram, pi.kernelProfileList.findIdx? (·.1 == name), create with
    | none, _, _ => some (.invalidProgramExecutable, s)
    | some _, none, _ => some (.invalidKernelName, s)
    | some _, some _, .error code => some (.vendor code, s)
    | some shadow, some idx, .ok kernel =>
      -- "insertion to kernel table didn't table place"
      if (s.kernelTable.lookup kernel).isSome then none
      else (pi.kernelProfileList[idx]?).map fun entry =>
        (.success, { s with
          kernelTable := s.kernelTable.insert kernel
            ⟨s.next, pi.context, shadow, ⟨pi.entry, idx⟩,
              List.replicate entry.2.numOfParam ⟨0, none⟩, [], 1⟩,
          next := s.next + 1 })

/-- `clRetainKernel` -/
def retainKernel (kernel : Nat) : Status × State :=
  match s.kernelTable.lookup kernel with
  | none => (.invalidKernel, s)
  | some ki => (.success,
    { s with kernelTable := s.kernelTable.insert kernel { ki with refCount := ki.refCount + 1 } })

/-- `clReleaseKernel` -/
def releaseKernel (kernel : Nat) (release : Vendor Unit) : Status × State :=
  match s.kernelTable.lookup kernel with
  | none => (.invalidKernel, s)
  | some ki =>
    if 0 < ki.refCount - 1 then (.success,
      { s with kernelTable := s.kernelTable.insert kernel { ki with refCount := ki.refCount - 1 } })
    else
      (match release with | .ok () => .success | .error code => .vendor code,
        { s with kernelTable := s.kernelTable.erase kernel })

/-- `clSetKernelArg` -/
def setKernelArg (kernel argIndex argSize : Nat) (argValue : Option Nat) (vendor : KernelArgs.Ret) :
    Option (Status × State) :=
  match s.kernelTable.lookup kernel with
  | none => some (.invalidKernel, s)
  | some ki =>
    (s.profile ki.profile).bind fun entry =>
      (KernelArgs.setKernelArg ⟨entry.2, ki.args⟩ argIndex argSize argValue vendor).map
        fun (ret, info) => (.arg ret,
          { s with kernelTable := s.kernelTable.insert kernel { ki with args := info.args } })

/-- `clEnqueueNDRangeKernel`.  The kernel to run comes from the pool, or is what the vendor
returns for `create`; `launch` is the result of all that follows. -/
def enqueueNDRangeKernel (queue kernel : Nat) (waitListOk : Bool) (create : Vendor Nat)
    (launch : Vendor Unit) : Option (Status × State) :=
  match s.queueTable.lookup queue, s.kernelTable.lookup kernel with
  | none, _ => some (.invalidCommandQueue, s)
  | some _, none => some (.invalidKernel, s)
  | some qi, some ki =>
    if !waitListOk then some (.invalidEventWaitList, s)
    else if ki.context ≠ qi.context then some (.invalidContext, s)
    else (s.profile ki.profile).map fun _ =>
      match ki.pool.getLast?, create with
      | none, .error code => (.vendor code, s)
      | none, .ok k => enqueueWith qi ki k launch
      | some k, _ => enqueueWith qi ki k launch
where
  /-- A launch that fails gives up the kernel that it has taken. -/
  enqueueWith (qi : QueueInfo) (ki : KernelInfo) (k : Nat) (launch : Vendor Unit) :
      Status × State :=
    let s := { s with
      kernelTable := s.kernelTable.insert kernel { ki with pool := ki.pool.dropLast } }
    match launch with
    | .error code => (.vendor code, s)
    | .ok () => (.success, { s with works := s.works ++ [⟨qi.entry, k, ki.entry⟩] })

/-- `CallbackCleanup`, of the work at a position. -/
def callbackCleanup (i : Nat) : Option State :=
  s.works[i]?.bind fun w =>
    (s.kernelTable.entries.find? fun e => e.2.entry == w.kInfo).map fun e =>
      { s with
        kernelTable := s.kernelTable.insert e.1 { e.2 with pool := e.2.pool ++ [w.kernel] },
        works := s.works.eraseIdx i }

end State

end Runtime
end Clpkm
