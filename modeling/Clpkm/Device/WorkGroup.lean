import Clpkm.Machine
import Clpkm.Device.Locfefe
import Clpkm.Device.UpdateHeader

/-!
# Work-groups running an instrumented kernel

A launch runs the instrumented kernel on all work-items of all work-groups.  Every
work-item initialises its share of the counters, takes part in reloading local memory,
and goes where its header says.  At a call of `barrier` it counts itself off and waits;
when all work-items of the group have counted themselves off they go on together, else
those that have leave the kernel with the negative nonce of the barrier in their
headers.  Who leaves a kernel that has local memory to save counts itself off once
more, and the last batch saves.  Between two launches the host runs `UpdateHeader`.

The code of the kernel's author is left open (`Act`): it may write local memory, be
suspended in a loop, arrive at a barrier, and come to its end.  Where a work-item
passes barriers is given by a sequence of its own (`Wi.sites`); in a barrier-uniform
kernel all work-items of a group have the same (`uniform`).
Assumed of the device: work-items that wait at calls of `barrier` go on once all
work-items of the group that have not returned wait, and `async_work_group_copy`
copies once all work-items of the group have reached it.

`arrived` and `passed` count, for each work-item, the barriers it has arrived at and
those behind which it has executed code.  Counters are natural numbers; those of the code are
of 32 bits, which makes no difference in a group of less than 2^32 work-items
(`counters_in_range`).
-/

namespace Clpkm
namespace Device
open Locfefe UpdateHeader

/-- What a case of the switch on the header belongs to. -/
inductive Case (B : Nat)
  | loop
  | barrier (j : Fin B)
  deriving DecidableEq, Repr

/-- An instrumented kernel with `B` calls of `barrier`. -/
structure Code (B : Nat) where
  /-- the sizes of the variables in local memory -/
  locVars : List Nat
  /-- `__clpkm_dloc_sz_tbl` -/
  locParams : List Nat
  /-- the cases of the switch besides 1 -/
  case : Int → Option (Case B)
  /-- the nonce of a call of `barrier` -/
  nonce : Fin B → Int
  case_nonce : ∀ j, case (nonce j) = some (.barrier j)
  /-- the first nonce given out is 2 -/
  two_le : ∀ h c, case h = some c → 2 ≤ h

namespace Code
variable {B : Nat} (code : Code B)

/-- The buffers that are saved. -/
def bufs : List Buffer := buffers code.locVars code.locParams

/-- There is something to save. -/
def hasLocal : Bool := !code.bufs.isEmpty

/-- `InitBarrier` is not empty. -/
def initBarrier : Bool := code.hasLocal || decide (0 < B)

end Code

/-- Where a work-item is in the instrumented kernel. -/
inductive Pc (B : Nat)
  /-- before the initialisation of the counters -/
  | init
  /-- at `async_work_group_copy` -/
  | reload
  /-- waits at `InitBarrier` -/
  | entryBarrier
  /-- before the switch on the header -/
  | entry
  /-- in the code of the kernel's author -/
  | run
  /-- at a call of `barrier`: counted off, waits -/
  | stop1 (j : Fin B)
  | readRemain (j : Fin B)
  /-- has read `__remain_count`, waits -/
  | stop2 (j : Fin B) (remain : Nat)
  | atomicInc (j : Fin B) (remain : Nat)
  /-- waits at the original barrier -/
  | orig (j : Fin B)
  /-- at `__CLPKM_SV_LOC_AND_RET` -/
  | exit
  /-- has read `__clpkm_batch_sz`, waits -/
  | exit1 (batch : Nat)
  | exitDec (batch : Nat)
  /-- counted off with `__clpkm_exit_id`, waits -/
  | exit2 (batch id : Nat)
  | exitTest (batch id : Nat)
  /-- before the calls of `__clpkm_store_local` -/
  | store (batch id : Nat)
  /-- has returned; the batch size and exit id, and whether it has stored -/
  | returned (e : Option (Nat × Nat)) (stored : Bool)
  deriving DecidableEq, Repr

namespace Pc
variable {B : Nat}

/-- The work-item waits at a call of `barrier`. -/
def waiting : Pc B → Bool
  | entryBarrier | stop1 _ | stop2 _ _ | orig _ | exit1 _ | exit2 _ _ => true
  | _ => false

def isReturned : Pc B → Bool
  | returned _ _ => true
  | _ => false

/-- Where a work-item goes on that has waited at a barrier. -/
def afterBarrier : Pc B → Pc B
  | entryBarrier => entry
  | stop1 j => readRemain j
  | stop2 j r => atomicInc j r
  | orig _ => run
  | exit1 b => exitDec b
  | exit2 b id => exitTest b id
  | p => p

end Pc

/-- A work-item. -/
structure Wi (B : Nat) where
  /-- its entry of `__clpkm_hdr` -/
  hdr : Int
  pc : Pc B
  /-- the number of barriers it has arrived at -/
  arrived : Nat
  /-- the number of barriers behind which it has executed code -/
  passed : Nat
  /-- the sites of the barriers that it passes -/
  sites : Nat → Option (Fin B)

/-- What the work-items of a group share. -/
structure Shared (B : Nat) where
  /-- `__clpkm_barrier_stop` -/
  stop : Fin B → Nat
  /-- `__clpkm_final_stop` -/
  finalStop : Nat
  /-- the buffers in local memory -/
  loc : Nat → Bytes
  /-- the part of `__clpkm_local` that belongs to the group -/
  lvb : Bytes

/-- The share of work-item `i` of `n` in the initialisation: every `n`-th counter of
`__clpkm_barrier_stop` from the `i`-th on, and `__clpkm_final_stop` by work-item 0. -/
def Shared.initCounters {B : Nat} (code : Code B) (n i : Nat) (sh : Shared B) : Shared B :=
  { sh with
    stop := fun j => if j.val % n = i then n else sh.stop j,
    finalStop := if code.hasLocal && i == 0 then n else sh.finalStop }

/-- A step of a work-item. -/
inductive Act
  /-- the next step of the code that the compiler has added -/
  | advance
  /-- write a byte of a buffer in local memory -/
  | write (k x : Nat) (b : UInt8)
  /-- `__clpkm_should_chkpnt` holds at the end of a loop body -/
  | suspend (nonce : Int)
  /-- arrive at a barrier -/
  | arrive
  /-- come to the end of the kernel -/
  | finish

/-- A work-group. -/
structure Group (B : Nat) where
  wis : List (Wi B)
  shared : Shared B
  /-- what local memory held when the last launch ended -/
  held : Nat → Bytes

namespace Wi
variable {B : Nat} (code : Code B)

/-- The switch on the header. -/
def enter (w : Wi B) : Wi B :=
  if w.hdr = 1 then { w with pc := .run }
  else match code.case w.hdr with
    | some .loop => { w with pc := .run }
    | some (.barrier _) => { w with pc := .run, passed := w.passed + 1 }
    | none => { w with pc := .exit }

/-- The next step of the code that the compiler has added, for work-item `i` of `n`. -/
def advance (n i : Nat) (sh : Shared B) (w : Wi B) : Option (Wi B × Shared B) :=
  match w.pc with
  | .init =>
    let sh := sh.initCounters code n i
    if code.hasLocal && w.hdr != 1 then some ({ w with pc := .reload }, sh)
    else if code.initBarrier then some ({ w with pc := .entryBarrier }, sh)
    else some ({ w with pc := .entry }, sh)
  | .entry => some (w.enter code, sh)
  | .readRemain j => some ({ w with pc := .stop2 j (sh.stop j) }, sh)
  | .atomicInc j remain =>
    let sh := { sh with stop := Function.update sh.stop j (sh.stop j + 1) }
    if remain != 0 then some ({ w with pc := .exit, hdr := -code.nonce j }, sh)
    else some ({ w with pc := .orig j }, sh)
  | .exit =>
    if code.hasLocal then some ({ w with pc := .exit1 sh.finalStop }, sh)
    else some ({ w with pc := .returned none false }, sh)
  | .exitDec batch =>
    some ({ w with pc := .exit2 batch (sh.finalStop - 1) },
      { sh with finalStop := sh.finalStop - 1 })
  | .exitTest batch id =>
    if sh.finalStop != 0 then some ({ w with pc := .returned (some (batch, id)) false }, sh)
    else some ({ w with pc := .store batch id }, sh)
  | .store batch id =>
    some ({ w with pc := .returned (some (batch, id)) true },
      { sh with lvb := storeAll sh.loc id batch 0 code.bufs sh.lvb })
  | _ => none

/-- A step of work-item `i` of `n`. -/
def step (n i : Nat) (sh : Shared B) (w : Wi B) :
    Act → Option (Wi B × Shared B)
  | .advance => w.advance code n i sh
  | .write k x b =>
    if w.pc = .run then
      some (w, { sh with loc := Function.update sh.loc k (Function.update (sh.loc k) x b) })
    else none
  | .suspend nonce =>
    if w.pc = .run ∧ code.case nonce = some .loop then
      some ({ w with hdr := nonce, pc := .exit }, sh)
    else none
  | .arrive =>
    if w.pc = .run then
      (w.sites w.passed).map fun j =>
        ({ w with pc := .stop1 j, arrived := w.arrived + 1 },
          { sh with stop := Function.update sh.stop j (sh.stop j - 1) })
    else none
  | .finish =>
    if w.pc = .run ∧ w.sites w.passed = none then some ({ w with hdr := 0, pc := .exit }, sh)
    else none

/-- The end of waiting at a barrier. -/
def release (w : Wi B) : Wi B :=
  match w.pc with
  | .orig _ => { w with pc := .run, passed := w.passed + 1 }
  | p => { w with pc := p.afterBarrier }

end Wi

/-- A step of a group. -/
inductive GroupLabel
  | wi (i : Nat) (a : Act)
  /-- the copies of `async_work_group_copy` are complete -/
  | copy
  /-- the work-items that wait at a barrier go on -/
  | release

namespace Group
variable {B : Nat} (code : Code B)

/-- Every work-item has returned. -/
def ended (g : Group B) : Bool := g.wis.all (·.pc.isReturned)

def step (g : Group B) : GroupLabel → Option (Group B)
  | .wi i a => do
    let w ← g.wis[i]?
    let (w', sh) ← w.step code g.wis.length i g.shared a
    return { g with wis := g.wis.set i w', shared := sh }
  | .copy =>
    if g.wis.all (·.pc = .reload) then
      some { g with
        wis := g.wis.map fun w => { w with pc := .entryBarrier },
        shared := { g.shared with loc := reloadAll code.bufs g.shared.lvb g.shared.loc } }
    else none
  | .release =>
    if g.wis.all (fun w => w.pc.waiting || w.pc.isReturned) ∧ g.wis.any (·.pc.waiting) then
      some { g with wis := g.wis.map Wi.release }
    else none

/-- The headers of the group. -/
def headers (g : Group B) : List Int := g.wis.map Wi.hdr

/-- The group at the start of the next launch, with new headers; local memory then holds
anything. -/
def relaunch (g : Group B) (hs : List Int) (junk : Shared B) : Group B :=
  { g with
    wis := g.wis.zipWith (fun w h => { w with hdr := h, pc := .init }) hs,
    shared := { junk with lvb := g.shared.lvb },
    held := g.shared.loc }

end Group

/-! ## The host -/

/-- All work-groups, and the host. -/
structure State (B : Nat) where
  groups : List (Group B)
  /-- an assertion of `UpdateHeader` has failed -/
  aborted : Bool
  /-- the task is finished -/
  finished : Bool

/-- A step of a group, or of the host after a launch. -/
inductive Label (B : Nat)
  | device (g : Nat) (l : GroupLabel)
  | host (junk : Nat → Shared B)

variable {B : Nat}

/-- The next launch, given the headers of all groups one behind the other. -/
def relaunchAll : List (Group B) → List Int → (Nat → Shared B) → List (Group B)
  | [], _, _ => []
  | g :: gs, hs, junk =>
    g.relaunch (hs.take g.wis.length) (junk 0) ::
      relaunchAll gs (hs.drop g.wis.length) fun i => junk (i + 1)

/-- `ResumeOrFinish`, for work-groups of size `n`; the headers are written only when the
progress is negative. -/
def resumeOrFinish (n : Nat) (s : State B) (junk : Nat → Shared B) : State B :=
  let hs := (s.groups.map Group.headers).flatten
  match updateHeader n hs with
  | .error _ => { s with aborted := true }
  | .ok (progress, hs') =>
    if progress = 0 then { s with finished := true }
    else { s with groups := relaunchAll s.groups (if progress < 0 then hs' else hs) junk }

/-- A group before the first launch: the host has set all headers to 1. -/
def Group.Initial (n : Nat) (g : Group B) : Prop :=
  g.wis.length = n ∧ ∀ w ∈ g.wis, w.hdr = 1 ∧ w.pc = .init ∧ w.arrived = 0 ∧ w.passed = 0

/-- All work-items of the group pass the same sequence of barrier sites. -/
def Group.Uniform (g : Group B) : Prop := ∀ w ∈ g.wis, ∀ w' ∈ g.wis, w.sites = w'.sites

/-- A kernel on work-groups of size `n`. -/
def machine (code : Code B) (n : Nat) : Machine (State B) (Label B) where
  Initial s := 0 < n ∧ (∀ g ∈ s.groups, g.Initial n) ∧ s.aborted = false ∧ s.finished = false
  step s
    | .device i l =>
      if s.aborted || s.finished then none
      else do
        let g ← s.groups[i]?
        let g' ← g.step code l
        return { s with groups := s.groups.set i g' }
    | .host junk =>
      if s.aborted || s.finished || !s.groups.all Group.ended then none
      else some (resumeOrFinish n s junk)

/-- A barrier-uniform kernel on work-groups of size `n`. -/
def uniform (code : Code B) (n : Nat) : Machine (State B) (Label B) where
  Initial s := (machine code n).Initial s ∧ ∀ g ∈ s.groups, g.Uniform
  step := (machine code n).step

/-! ## A kernel with a loop and a barrier -/

namespace LoopBarrier

/-- A loop with a checkpoint, and a barrier behind it. -/
def kernel (locVars : List Nat) : Code 1 where
  locVars := locVars
  locParams := []
  case h := if h = 2 then some .loop else if h = 3 then some (.barrier 0) else none
  nonce _ := 3
  case_nonce := by decide
  two_le h c hc := by
    split at hc
    · omega
    · split at hc
      · omega
      · cases hc

def junk : Shared 1 := ⟨fun _ => 7, 7, fun _ _ => 7, fun _ => 7⟩

/-- One work-group of two work-items. -/
def start : State 1 :=
  ⟨[⟨List.replicate 2 ⟨1, .init, 0, 0, fun p => if p = 0 then some 0 else none⟩, junk,
    fun _ _ => 0⟩], false, false⟩

theorem initial_start (locVars : List Nat) : (uniform (kernel locVars) 2).Initial start := by
  refine ⟨⟨by decide, List.forall_mem_singleton.mpr ⟨rfl, fun w hw => ?_⟩, rfl, rfl⟩,
    List.forall_mem_singleton.mpr fun w hw w' hw' => ?_⟩
  · exact List.eq_of_mem_replicate hw ▸ ⟨rfl, rfl, rfl, rfl⟩
  · rw [List.eq_of_mem_replicate hw, List.eq_of_mem_replicate hw']

/-- Both work-items go on. -/
def both : List GroupLabel := [.wi 0 .advance, .wi 1 .advance]

end LoopBarrier
end Device
end Clpkm
