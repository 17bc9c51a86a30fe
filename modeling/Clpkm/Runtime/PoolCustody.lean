import Clpkm.Custody
import Clpkm.Runtime.KernelPool

/-!
# Where the kernel objects and the works are

An object is in a pool, in the guard of a call, in a work, or released.  A work is with the
activation that has to register, to finish or to free it, or with the vendor, or
freed.  Each operation of the calls and callbacks makes one object or one work, passes one on,
or touches none.
-/

namespace Clpkm
namespace KernelPool
open Lifecycle (Caller Progress)

variable {T K : Type} [DecidableEq T] [DecidableEq K]

/-- Where a kernel object may be. -/
inductive Place (T K : Type)
  | pool (k : K)
  | wrap (t : T)
  | work (w : Nat)
  | released
  deriving DecidableEq

/-- Where a work may be. -/
inductive WorkPlace (T : Type)
  | act (t : T)
  | pending
  | freed
  deriving DecidableEq

def Block.isFreed : Block K → Bool
  | .freed => true
  | _ => false

namespace State

/-- How often a place refers to a kernel object. -/
def held (s : State T K) : Place T K → Nat → Nat
  | .pool k, o => (s.pool k).count (some o)
  | .wrap t, o => slotCount (s.kernelWrap t) o
  | .work w, o => slotCount (s.kernel w) o
  | .released, o => s.released.count o

/-- How often a place refers to a work. -/
def heldWork (s : State T K) : WorkPlace T → Nat → Nat
  | .act t, w => slotCount (s.pc t).work w
  | .pending, w => s.pending.count w
  | .freed, w => (s.work w).isFreed.toNat

end State

/-! ## Slots and vectors -/

theorem count_toList (g : Option Nat) (o : Nat) : g.toList.count o = slotCount g o := by
  cases g with
  | none => rfl
  | some x =>
    by_cases h : o = x
    · subst h
      rw [slotCount_self]
      exact List.count_singleton_self
    · rw [slotCount_of_ne h]
      exact List.count_eq_zero_of_not_mem fun hm => h (List.mem_singleton.mp hm)

theorem count_concat (l : List (Option Nat)) (g : Option Nat) (o : Nat) :
    (l ++ [g]).count (some o) = l.count (some o) + slotCount g o := by
  rw [List.count_append, List.count_singleton]
  congr 1
  unfold slotCount
  by_cases h : g = some o
  · rw [if_pos h, if_pos (beq_iff_eq.mpr h)]
  · rw [if_neg h, if_neg fun he => h (beq_iff_eq.mp he)]

theorem eq_concat_of_getLast? {l : List (Option Nat)} {g : Option Nat} (h : l.getLast? = some g) :
    l = l.dropLast ++ [g] := by
  obtain ⟨ys, rfl⟩ := List.getLast?_eq_some_iff.mp h
  rw [List.dropLast_concat]

/-! ## Kernel objects on the way -/

section kernels
variable {s : State T K} {t : T} {k : K} {w n : Nat} {g : Option Nat} {d : CallbackData K}

omit [DecidableEq T] [DecidableEq K] in
theorem kernel_of_access (h : s.access w = some d) : s.kernel w = d.kernel := by
  unfold State.kernel
  rw [h]
  rfl

omit [DecidableEq T] [DecidableEq K] in
theorem access_eq_some : s.access w = some d ↔ s.work w = .allocated d := by
  unfold State.access
  cases s.work w with
  | allocated e => exact Option.some_inj.trans ⟨congrArg _, fun h => by cases h; rfl⟩
  | unused | freed => exact iff_of_false nofun nofun

omit [DecidableEq T] [DecidableEq K] in
theorem kernel_congr {s' : State T K} (h : s'.work w = s.work w) : s'.kernel w = s.kernel w := by
  unfold State.kernel State.access
  rw [h]

/-- A thread moves without touching the objects. -/
theorem custody_keep {s' : State T K} (h : Custody s.held n) (hpool : s'.pool = s.pool)
    (hwrap : s'.kernelWrap = s.kernelWrap) (hwork : s'.work = s.work)
    (hreleased : s'.released = s.released) : Custody s'.held n := by
  suffices heq : s'.held = s.held by rwa [heq]
  funext r o
  cases r with
  | pool k =>
    show (s'.pool k).count (some o) = (s.pool k).count (some o)
    rw [hpool]
  | wrap t =>
    show slotCount (s'.kernelWrap t) o = slotCount (s.kernelWrap t) o
    rw [hwrap]
  | work w =>
    show slotCount (s'.kernel w) o = slotCount (s.kernel w) o
    rw [kernel_congr (congrFun hwork w)]
  | released =>
    show s'.released.count o = s.released.count o
    rw [hreleased]

/-- A guard is destroyed when a function returns. -/
theorem custody_leave (h : Custody s.held n) : Custody (s.leave t).held n := by
  refine h.pass (p := .wrap t) (q := .released) (s.kernelWrap t) nofun ?_ ?_ ?_
  · intro o
    show slotCount (Function.update s.kernelWrap t none t) o + _ = _
    rw [Function.update_self, slotCount_none, Nat.zero_add]
    rfl
  · intro o
    show (s.released ++ (s.kernelWrap t).toList).count o = _
    rw [List.count_append, count_toList]
    rfl
  · intro r hr hr' o
    cases r with
    | pool | work => rfl
    | wrap u =>
      show slotCount (Function.update s.kernelWrap t none u) o = _
      rw [Function.update_of_ne (mt (congrArg Place.wrap) hr)]
      rfl
    | released => exact absurd rfl hr'

/-- The kernel of a work is released with the work. -/
theorem custody_delete {s' : State T K} (h : Custody s.held n) (hs : s.delete w = some s') :
    Custody s'.held n := by
  obtain ⟨d, hd, rfl⟩ := Option.map_eq_some_iff.mp hs
  refine h.pass (p := .work w) (q := .released) d.kernel nofun ?_ ?_ ?_
  · intro o
    have hnone : State.kernel { s.finalize d.kernel with
        work := Function.update s.work w .freed } w = none := by
      simp [State.kernel, State.access]
    show slotCount (State.kernel _ w) o + _ = slotCount (s.kernel w) o
    rw [hnone, kernel_of_access hd, slotCount_none, Nat.zero_add]
  · intro o
    show (s.released ++ d.kernel.toList).count o = _
    rw [List.count_append, count_toList]
    rfl
  · intro r hr hr' o
    cases r with
    | pool | wrap => rfl
    | work v =>
      show slotCount (State.kernel _ v) o = slotCount (s.kernel v) o
      rw [kernel_congr (Function.update_of_ne (mt (congrArg Place.work) hr) _ _)]
    | released => exact absurd rfl hr'

/-- The guard of the call, which is empty, gets the last object of the pool. -/
theorem custody_moveBack {s' : State T K} (h : Custody s.held n) (hwrap : s.kernelWrap t = none)
    (hs : s.moveBack t k = some s') : Custody s'.held n := by
  obtain ⟨g, hg, rfl⟩ := Option.map_eq_some_iff.mp hs
  refine h.pass (p := .pool k) (q := .wrap t) g nofun ?_ ?_ ?_
  · intro o
    show (Function.update s.pool k ((s.pool k).dropLast ++ [s.kernelWrap t]) k).count (some o) + _ =
      (s.pool k).count (some o)
    rw [Function.update_self, count_concat, hwrap, slotCount_none, Nat.add_zero, ← count_concat,
      ← eq_concat_of_getLast? hg]
  · intro o
    show slotCount (Function.update s.kernelWrap t g t) o = slotCount (s.kernelWrap t) o + _
    rw [Function.update_self, hwrap, slotCount_none, Nat.zero_add]
  · intro r hr hr' o
    cases r with
    | pool j =>
      show (Function.update s.pool k _ j).count (some o) = (s.pool j).count (some o)
      rw [Function.update_of_ne (mt (congrArg Place.pool) hr)]
    | wrap u =>
      show slotCount (Function.update s.kernelWrap t g u) o = slotCount (s.kernelWrap u) o
      rw [Function.update_of_ne (mt (congrArg Place.wrap) hr')]
    | work | released => rfl

/-- What is popped is destroyed. -/
theorem custody_popBack {s' : State T K} (h : Custody s.held n) (hs : s.popBack t k = some s') :
    Custody s'.held n := by
  obtain ⟨g, hg, rfl⟩ := Option.map_eq_some_iff.mp hs
  refine h.pass (p := .pool k) (q := .released) g nofun ?_ ?_ ?_
  · intro o
    show (Function.update s.pool k (s.pool k).dropLast k).count (some o) + _ =
      (s.pool k).count (some o)
    rw [Function.update_self, ← count_concat, ← eq_concat_of_getLast? hg]
  · intro o
    show (s.released ++ g.toList).count o = _
    rw [List.count_append, count_toList]
    rfl
  · intro r hr hr' o
    cases r with
    | pool j =>
      show (Function.update s.pool k _ j).count (some o) = (s.pool j).count (some o)
      rw [Function.update_of_ne (mt (congrArg Place.pool) hr)]
    | wrap | work => rfl
    | released => exact absurd rfl hr'

/-- A new object is in the guard of the call. -/
theorem custody_createKernel (h : Custody s.held s.created) (hwrap : s.kernelWrap t = none) :
    Custody (s.createKernel t k).held (s.created + 1) := by
  refine h.make (.wrap t) ?_ ?_
  · intro o
    show slotCount (Function.update s.kernelWrap t (some s.created) t) o =
      slotCount (s.kernelWrap t) o + _
    rw [Function.update_self, hwrap, slotCount_none, Nat.zero_add]
  · intro r hr o
    cases r with
    | pool | work => rfl
    | wrap u =>
      show slotCount (Function.update s.kernelWrap t _ u) o = slotCount (s.kernelWrap u) o
      rw [Function.update_of_ne (mt (congrArg Place.wrap) hr)]
    | released =>
      show (s.released ++ (s.kernelWrap t).toList).count o = s.released.count o
      rw [hwrap, Option.toList_none, List.append_nil]

/-- The object goes from the guard of the call to the new work. -/
theorem custody_newWork (h : Custody s.held n) (hunused : s.work s.nextWork = .unused) :
    Custody (s.newWork t k).held n := by
  have hkernel : (s.newWork t k).kernel s.nextWork = s.kernelWrap t := by
    simp [State.kernel, State.access, State.newWork]
  have hnone : s.kernel s.nextWork = none := by simp [State.kernel, State.access, hunused]
  refine h.pass (p := .wrap t) (q := .work s.nextWork) (s.kernelWrap t) nofun ?_ ?_ ?_
  · intro o
    show slotCount (Function.update s.kernelWrap t none t) o + _ = slotCount (s.kernelWrap t) o
    rw [Function.update_self, slotCount_none, Nat.zero_add]
  · intro o
    show slotCount ((s.newWork t k).kernel s.nextWork) o = slotCount (s.kernel s.nextWork) o + _
    rw [hkernel, hnone, slotCount_none, Nat.zero_add]
  · intro r hr hr' o
    cases r with
    | pool | released => rfl
    | wrap u =>
      show slotCount (Function.update s.kernelWrap t none u) o = slotCount (s.kernelWrap u) o
      rw [Function.update_of_ne (mt (congrArg Place.wrap) hr)]
    | work v =>
      show slotCount (State.kernel _ v) o = slotCount (s.kernel v) o
      rw [kernel_congr (Function.update_of_ne (mt (congrArg Place.work) hr') _ _)]

/-- The kernel of a finished work goes to the pool. -/
theorem custody_emplaceBack {s' : State T K} (h : Custody s.held n)
    (hs : s.emplaceBack t k w = some s') : Custody s'.held n := by
  obtain ⟨d, hd, rfl⟩ := Option.map_eq_some_iff.mp hs
  refine h.pass (p := .work w) (q := .pool k) d.kernel nofun ?_ ?_ ?_
  · intro o
    have hnone : State.kernel { s.goto t (.unlockCleanup k w) with
        pool := Function.update s.pool k (s.pool k ++ [d.kernel])
        work := Function.update s.work w (.allocated { d with kernel := none }) } w = none := by
      simp [State.kernel, State.access]
    show slotCount (State.kernel _ w) o + _ = slotCount (s.kernel w) o
    rw [hnone, kernel_of_access hd, slotCount_none, Nat.zero_add]
  · intro o
    show (Function.update s.pool k _ k).count (some o) = (s.pool k).count (some o) + _
    rw [Function.update_self, count_concat]
  · intro r hr hr' o
    cases r with
    | pool j =>
      show (Function.update s.pool k _ j).count (some o) = (s.pool j).count (some o)
      rw [Function.update_of_ne (mt (congrArg Place.pool) hr')]
    | wrap | released => rfl
    | work v =>
      show slotCount (State.kernel _ v) o = slotCount (s.kernel v) o
      rw [kernel_congr (Function.update_of_ne (mt (congrArg Place.work) hr) _ _)]

end kernels

/-! ## Works on the way -/

section works
omit [DecidableEq K]
variable {s s' : State T K} {t : T} {p : Pc K} {w n : Nat}

/-- A thread moves without taking or giving up a work. -/
theorem works_keep (h : Custody s.heldWork n) (hpc : s'.pc = Function.update s.pc t p)
    (hp : p.work = (s.pc t).work) (hpending : s'.pending = s.pending)
    (hfreed : ∀ v, (s'.work v).isFreed = (s.work v).isFreed) : Custody s'.heldWork n := by
  suffices heq : s'.heldWork = s.heldWork by rwa [heq]
  funext r v
  cases r with
  | act u =>
    show slotCount (s'.pc u).work v = slotCount (s.pc u).work v
    rw [hpc]
    by_cases hu : u = t
    · rw [hu, Function.update_self, hp]
    · rw [Function.update_of_ne hu]
  | pending =>
    show s'.pending.count v = s.pending.count v
    rw [hpending]
  | freed =>
    show (s'.work v).isFreed.toNat = (s.work v).isFreed.toNat
    rw [hfreed]

/-- A thread gives up its work, or takes one: what the other threads have does not change. -/
theorem heldWork_act {u : T} (hpc : s'.pc = Function.update s.pc t p) (hu : u ≠ t) (v : Nat) :
    s'.heldWork (.act u) v = s.heldWork (.act u) v := by
  show slotCount (s'.pc u).work v = slotCount (s.pc u).work v
  rw [hpc, Function.update_of_ne hu]

theorem heldWork_act_self (hpc : s'.pc = Function.update s.pc t p) (v : Nat) :
    s'.heldWork (.act t) v = slotCount p.work v := by
  show slotCount (s'.pc t).work v = slotCount p.work v
  rw [hpc, Function.update_self]

/-- The callback of the work is registered. -/
theorem works_register (h : Custody s.heldWork n) (hpc : s'.pc = Function.update s.pc t p)
    (hp : p.work = none) (ht : (s.pc t).work = some w) (hpending : s'.pending = s.pending ++ [w])
    (hwork : s'.work = s.work) : Custody s'.heldWork n := by
  refine h.pass (p := .act t) (q := .pending) (some w) nofun ?_ ?_ ?_
  · intro v
    rw [heldWork_act_self hpc, hp, slotCount_none, Nat.zero_add, ← ht]
    rfl
  · intro v
    show s'.pending.count v = s.pending.count v + _
    rw [hpending, List.count_append, ← count_toList, Option.toList_some]
  · intro r hr hr' v
    cases r with
    | act u => exact heldWork_act hpc (mt (congrArg WorkPlace.act) hr) v
    | pending => exact absurd rfl hr'
    | freed =>
      show (s'.work v).isFreed.toNat = _
      rw [hwork]
      rfl

/-- The callback of the work is delivered. -/
theorem works_deliver (h : Custody s.heldWork n) (hpc : s'.pc = Function.update s.pc t p)
    (hp : p.work = some w) (ht : (s.pc t).work = none) (hw : w ∈ s.pending)
    (hpending : s'.pending = s.pending.erase w) (hwork : s'.work = s.work) :
    Custody s'.heldWork n := by
  refine h.pass (p := .pending) (q := .act t) (some w) nofun ?_ ?_ ?_
  · intro v
    show s'.pending.count v + _ = s.pending.count v
    rw [hpending]
    by_cases hv : v = w
    · have hpos := List.count_pos_iff.mpr hw
      rw [hv, List.count_erase_self, slotCount_self]
      omega
    · rw [List.count_erase_of_ne hv, slotCount_of_ne hv, Nat.add_zero]
  · intro v
    show _ = slotCount (s.pc t).work v + _
    rw [heldWork_act_self hpc, hp, ht, slotCount_none, Nat.zero_add]
  · intro r hr hr' v
    cases r with
    | act u => exact heldWork_act hpc (mt (congrArg WorkPlace.act) hr') v
    | pending => exact absurd rfl hr
    | freed =>
      show (s'.work v).isFreed.toNat = _
      rw [hwork]
      rfl

/-- The work is freed. -/
theorem works_delete (h : Custody s.heldWork n) (hpc : s'.pc = Function.update s.pc t p)
    (hp : p.work = none) (ht : (s.pc t).work = some w) (hpending : s'.pending = s.pending)
    (hw : (s.work w).isFreed = false) (hwork : s'.work = Function.update s.work w .freed) :
    Custody s'.heldWork n := by
  refine h.pass (p := .act t) (q := .freed) (some w) nofun ?_ ?_ ?_
  · intro v
    rw [heldWork_act_self hpc, hp, slotCount_none, Nat.zero_add, ← ht]
    rfl
  · intro v
    show (s'.work v).isFreed.toNat = (s.work v).isFreed.toNat + _
    rw [hwork]
    by_cases hv : v = w
    · rw [hv, Function.update_self, hw, slotCount_self]
      rfl
    · rw [Function.update_of_ne hv, slotCount_of_ne hv, Nat.add_zero]
  · intro r hr hr' v
    cases r with
    | act u => exact heldWork_act hpc (mt (congrArg WorkPlace.act) hr) v
    | pending =>
      show s'.pending.count v = _
      rw [hpending]
      rfl
    | freed => exact absurd rfl hr'

/-- A work is created. -/
theorem works_newWork {k : K} (h : Custody s.heldWork s.nextWork) (ht : (s.pc t).work = none)
    (hunused : s.work s.nextWork = .unused) :
    Custody (s.newWork t k).heldWork (s.nextWork + 1) := by
  refine h.make (.act t) ?_ ?_
  · intro v
    show _ = slotCount (s.pc t).work v + _
    rw [heldWork_act_self (s := s) rfl, ht, slotCount_none, Nat.zero_add]
    rfl
  · intro r hr v
    cases r with
    | act u => exact heldWork_act (s := s) rfl (mt (congrArg WorkPlace.act) hr) v
    | pending => rfl
    | freed =>
      show (Function.update s.work s.nextWork (.allocated ⟨s.kernelWrap t, k⟩) v).isFreed.toNat =
        (s.work v).isFreed.toNat
      by_cases hv : v = s.nextWork
      · rw [hv, Function.update_self, hunused]
        rfl
      · rw [Function.update_of_ne hv]

end works

end KernelPool
end Clpkm
