import Clpkm.Locks
import Clpkm.Runtime.PoolCustody

/-!
# Kernel objects are not shared

Both the kernel objects and the works are in one place at a time.  That a pool is never
popped while it is empty rests on its mutex; that a work in flight has one callback rests on
nothing failing after the callback has been registered.

`never_shared` puts these together.  `move_eq_none_iff` adds that the model leaves out no
step because of undefined behaviour: a thread in a call goes on unless it waits for the
mutex of a pool.
-/

namespace Clpkm
namespace KernelPool
open Lifecycle (Caller Progress)

variable {T K : Type} [DecidableEq T] [DecidableEq K]

namespace Pc

/-- The guard of the call may hold an object. -/
def wraps : Pc K → Bool
  | .popBack _ | .unlockPool _ | .check .. | .retainEvent _ | .newWork _ => true
  | _ => false

/-- Holds the mutex of this kernel. -/
def locks (k : K) : Pc K → Prop
  | .poolSize j | .moveBack j | .popBack j | .createKernel j | .unlockPool j
  | .emplaceBack j _ | .unlockCleanup j _ => j = k
  | _ => False

/-- Takes the last object of this pool. -/
def takes (k : K) : Pc K → Prop
  | .moveBack j | .popBack j => j = k
  | _ => False

omit [DecidableEq K] in
theorem locks_of_takes {k : K} {p : Pc K} (h : p.takes k) : p.locks k := by
  cases p <;> first | exact h | exact h.elim

end Pc

/-- What holds in every state. -/
structure Inv (s : State T K) : Prop where
  kernels : Custody s.held s.created
  works : Custody s.heldWork s.nextWork
  unused : ∀ w, s.work w = .unused ↔ s.nextWork ≤ w
  wrap : ∀ t, (s.pc t).wraps = false → s.kernelWrap t = none
  mutex : ∀ k, OwnedBy (Pc.locks k) (s.mutex k) s.pc
  back : ∀ t k, (s.pc t).takes k → s.pool k ≠ []

/-! ## The mutexes of the pools -/

section mutex
variable {s : State T K} {t u : T} {p : Pc K} {k : K}

theorem Inv.keepMutex (h : Inv s) (hp : ∀ j, p.locks j ↔ (s.pc t).locks j) (j : K) :
    OwnedBy (Pc.locks j) (s.mutex j) (Function.update s.pc t p) :=
  (h.mutex j).keep (hp j)

/-- Two threads do not have the mutex of one pool. -/
theorem Inv.locks_unique (h : Inv s) (ht : (s.pc t).locks k) (hu : (s.pc u).locks k) : t = u :=
  Option.some.inj (((h.mutex k t).mpr ht).symm.trans ((h.mutex k u).mpr hu))

theorem Inv.takeMutex (h : Inv s) (hfree : s.mutex k = none) (hp : ∀ j, p.locks j ↔ k = j)
    (ht : ∀ j, ¬(s.pc t).locks j) (j : K) :
    OwnedBy (Pc.locks j) (Function.update s.mutex k (some t) j) (Function.update s.pc t p) := by
  by_cases hj : j = k
  · subst hj
    rw [Function.update_self]
    have hown := h.mutex j
    rw [hfree] at hown
    exact hown.take ((hp j).mpr rfl)
  · rw [Function.update_of_ne hj]
    exact (h.mutex j).keep (iff_of_false (fun hl => hj ((hp j).mp hl).symm) (ht j))

theorem Inv.dropMutex (h : Inv s) (ht : ∀ j, (s.pc t).locks j ↔ k = j) (hp : ∀ j, ¬p.locks j)
    (j : K) :
    OwnedBy (Pc.locks j) (Function.update s.mutex k none j) (Function.update s.pc t p) := by
  by_cases hj : j = k
  · subst hj
    rw [Function.update_self]
    exact (h.mutex j).drop ((ht j).mpr rfl) (hp j)
  · rw [Function.update_of_ne hj]
    exact (h.mutex j).keep (iff_of_false (hp j) fun hl => hj ((ht j).mp hl).symm)

end mutex

/-! ## The steps -/

variable {s s' : State T K} {t : T} {p : Pc K} {k : K} {w : Nat}

/-- **A thread makes a step**: what the other threads rely on is changed only under the mutex
of the pool. -/
theorem Inv.update (h : Inv s) (hpc : s'.pc = Function.update s.pc t p)
    (hkernels : Custody s'.held s'.created) (hworks : Custody s'.heldWork s'.nextWork)
    (hunused : ∀ w, s'.work w = .unused ↔ s'.nextWork ≤ w)
    (hwrap : p.wraps = false → s'.kernelWrap t = none)
    (hwraps : ∀ u, u ≠ t → s'.kernelWrap u = s.kernelWrap u)
    (hmutex : ∀ k, OwnedBy (Pc.locks k) (s'.mutex k) (Function.update s.pc t p))
    (htakes : ∀ k, p.takes k → s'.pool k ≠ [])
    (hpool : ∀ k, s'.pool k = s.pool k ∨ (s.pc t).locks k) : Inv s' := by
  refine ⟨hkernels, hworks, hunused, fun u hu => ?_, hpc ▸ hmutex, fun u k hu => ?_⟩
  · rw [hpc] at hu
    by_cases hut : u = t
    · rw [hut, Function.update_self] at hu
      rw [hut]
      exact hwrap hu
    · rw [Function.update_of_ne hut] at hu
      rw [hwraps u hut]
      exact h.wrap u hu
  · rw [hpc] at hu
    by_cases hut : u = t
    · rw [hut, Function.update_self] at hu
      exact htakes k hu
    · rw [Function.update_of_ne hut] at hu
      rcases hpool k with hk | hk
      · rw [hk]
        exact h.back u k hu
      · exact absurd (h.locks_unique (Pc.locks_of_takes hu) hk) hut

/-- A thread goes on and may take or give back a mutex, but has no part in the objects and the
works. -/
theorem Inv.quiet (h : Inv s) {q : Pc K} {m : K → Option T} (hq : s.pc t = q)
    (hwork : p.work = q.work)
    (hmutex : ∀ j, OwnedBy (Pc.locks j) (m j) (Function.update s.pc t p))
    (hwrap : p.wraps = false → q.wraps = false) (htakes : ∀ j, p.takes j → s.pool j ≠ []) :
    Inv { s.goto t p with mutex := m } := by
  subst hq
  exact h.update rfl (custody_keep h.kernels rfl rfl rfl rfl)
    (works_keep h.works rfl hwork rfl fun _ => rfl) h.unused (fun hp => h.wrap t (hwrap hp))
    (fun _ _ => rfl) hmutex htakes fun _ => .inl rfl

theorem Inv.next (h : Inv s) {q : Pc K} (hq : s.pc t = q) (hwork : p.work = q.work)
    (hlocks : ∀ j, p.locks j ↔ q.locks j) (hwrap : p.wraps = false → q.wraps = false)
    (htakes : ∀ j, p.takes j → s.pool j ≠ []) : Inv (s.goto t p) :=
  h.quiet hq hwork (h.keepMutex fun j => hq ▸ hlocks j) hwrap htakes

theorem Inv.lock (h : Inv s) {q : Pc K} (hq : s.pc t = q) (hs : s.lock t k p = some s')
    (hwork : p.work = q.work) (hp : ∀ j, p.locks j ↔ k = j) (hlocks : ∀ j, ¬q.locks j)
    (hwrap : p.wraps = false → q.wraps = false) (htakes : ∀ j, ¬p.takes j) : Inv s' := by
  unfold State.lock at hs
  split at hs
  · rename_i hfree
    cases hs
    exact h.quiet hq hwork
      (h.takeMutex (Option.isNone_iff_eq_none.mp hfree) hp fun j => hq ▸ hlocks j) hwrap
      fun j hj => absurd hj (htakes j)
  · cases hs

theorem Inv.unlock (h : Inv s) {q : Pc K} (hq : s.pc t = q) (hwork : p.work = q.work)
    (hlocks : ∀ j, q.locks j ↔ k = j) (hp : ∀ j, ¬p.locks j)
    (hwrap : p.wraps = false → q.wraps = false) : Inv ((s.unlock k).goto t p) :=
  h.quiet hq hwork (h.dropMutex (fun j => hq ▸ hlocks j) hp) hwrap fun j hj =>
    absurd (Pc.locks_of_takes hj) (hp j)

/-- A call returns before it has a work, or a callback after it has given it up. -/
theorem Inv.leave (h : Inv s) {q : Pc K} (hq : s.pc t = q) (hwork : q.work = none)
    (hlocks : ∀ j, ¬q.locks j) : Inv (s.leave t) := by
  subst hq
  exact h.update rfl (custody_leave h.kernels)
    (works_keep (p := .idle) h.works rfl hwork.symm rfl fun _ => rfl) h.unused
    (fun _ => Function.update_self ..) (fun u hu => Function.update_of_ne hu _ _)
    (h.keepMutex fun j => iff_of_false id (hlocks j)) nofun fun _ => .inl rfl

/-- The vendor has created no object. -/
theorem Inv.unlockLeave (h : Inv s) {q : Pc K} (hq : s.pc t = q) (hwork : q.work = none)
    (hlocks : ∀ j, q.locks j ↔ k = j) (hwrap : q.wraps = false) :
    Inv ((s.unlock k).leave t) := by
  have hunlock : Inv ((s.unlock k).goto t .idle) :=
    h.unlock hq hwork.symm hlocks (fun _ => id) fun _ => hwrap
  have heq : ((s.unlock k).goto t .idle).leave t = (s.unlock k).leave t := by
    simp [State.leave, State.goto, State.finalize]
  exact heq ▸ hunlock.leave (Function.update_self ..) rfl fun _ => id

omit [DecidableEq T] in
/-- What is in a pool is changed by the thread that has its mutex. -/
theorem pool_update (hlocks : (s.pc t).locks k) (l : List (Option Nat)) (j : K) :
    Function.update s.pool k l j = s.pool j ∨ (s.pc t).locks j := by
  by_cases hj : j = k
  · exact .inr (hj ▸ hlocks)
  · exact .inl (Function.update_of_ne hj _ _)

/-- A work that exists is there to stay, though it may be freed. -/
theorem Inv.unused_update (h : Inv s) {x : Block K} (hw : s.work w ≠ .unused)
    (hx : x ≠ .unused) (v : Nat) :
    Function.update s.work w x v = .unused ↔ s.nextWork ≤ v := by
  rw [← h.unused v]
  by_cases hv : v = w
  · rw [hv, Function.update_self]
    exact iff_of_false hx hw
  · rw [Function.update_of_ne hv]

theorem Inv.moveBack (h : Inv s) (hp : s.pc t = .moveBack k) (hs : s.moveBack t k = some s') :
    Inv s' := by
  have hwrap : s.kernelWrap t = none := h.wrap t (by rw [hp]; rfl)
  have hkernels := custody_moveBack h.kernels hwrap hs
  obtain ⟨g, hg, rfl⟩ := Option.map_eq_some_iff.mp hs
  refine h.update rfl hkernels ?_ h.unused nofun (fun u hu => Function.update_of_ne hu _ _)
    (h.keepMutex fun j => by rw [hp]; rfl) (fun j hj => ?_) (pool_update (by rw [hp]; rfl) _)
  · exact works_keep (s := s) h.works rfl (by rw [hp]; rfl) rfl fun _ => rfl
  · cases hj
    show Function.update s.pool k _ k ≠ []
    rw [Function.update_self]
    exact List.append_ne_nil_of_right_ne_nil _ (List.cons_ne_nil _ _)

theorem Inv.popBack (h : Inv s) (hp : s.pc t = .popBack k) (hs : s.popBack t k = some s') :
    Inv s' := by
  have hkernels := custody_popBack h.kernels hs
  obtain ⟨g, hg, rfl⟩ := Option.map_eq_some_iff.mp hs
  refine h.update rfl hkernels ?_ h.unused nofun (fun _ _ => rfl)
    (h.keepMutex fun j => by rw [hp]; rfl) nofun (pool_update (by rw [hp]; rfl) _)
  exact works_keep (s := s) h.works rfl (by rw [hp]; rfl) rfl fun _ => rfl

theorem Inv.createKernel (h : Inv s) (hp : s.pc t = .createKernel k) :
    Inv (s.createKernel t k) := by
  have hwrap : s.kernelWrap t = none := h.wrap t (by rw [hp]; rfl)
  refine h.update rfl (custody_createKernel h.kernels hwrap) ?_ h.unused nofun
    (fun u hu => Function.update_of_ne hu _ _) (h.keepMutex fun j => by rw [hp]; rfl) nofun
    fun _ => .inl rfl
  exact works_keep (s := s) h.works rfl (by rw [hp]; rfl) rfl fun _ => rfl

theorem Inv.newWork (h : Inv s) (hp : s.pc t = .newWork k) : Inv (s.newWork t k) := by
  have hnext := (h.unused s.nextWork).mpr le_rfl
  refine h.update rfl (custody_newWork h.kernels hnext)
    (works_newWork h.works (by rw [hp]; rfl) hnext) (fun v => ?_)
    (fun _ => Function.update_self ..) (fun u hu => Function.update_of_ne hu _ _)
    (h.keepMutex fun j => by rw [hp]; rfl) nofun fun _ => .inl rfl
  show Function.update s.work s.nextWork _ v = .unused ↔ s.nextWork + 1 ≤ v
  by_cases hv : v = s.nextWork
  · rw [hv, Function.update_self]
    exact iff_of_false nofun (by omega)
  · rw [Function.update_of_ne hv, h.unused]
    omega

theorem Inv.releaseWork (h : Inv s) (hp : s.pc t = .releaseWork) : Inv (s.releaseWork t) := by
  have hwrap : s.kernelWrap t = none := h.wrap t (by rw [hp]; rfl)
  have hsame : Function.update s.kernelWrap t none = s.kernelWrap := by
    rw [← hwrap, Function.update_eq_self]
  have heq : s.releaseWork t = s.goto t .idle := by
    unfold State.releaseWork
    rw [hsame]
    rfl
  rw [heq]
  exact h.next hp rfl (fun _ => Iff.rfl) (fun _ => rfl) nofun

/-- The vendor gets the callback of the work. -/
theorem Inv.register (h : Inv s) {f : Caller} (hp : s.pc t = .metaEnqueue f .setCallback w) :
    Inv { s.goto t (.metaEnqueue f .flush w) with pending := s.pending ++ [w] } := by
  exact h.update rfl (custody_keep h.kernels rfl rfl rfl rfl)
    (works_register h.works rfl rfl (by rw [hp]; rfl) rfl rfl) h.unused
    (fun _ => h.wrap t (by rw [hp]; rfl)) (fun _ _ => rfl) (h.keepMutex fun j => by rw [hp]; rfl)
    nofun fun _ => .inl rfl

/-- The vendor delivers the callback of the work. -/
theorem Inv.deliver (h : Inv s) (hp : s.pc t = .idle) (hw : w ∈ s.pending) :
    Inv { s.goto t (.inspect w) with pending := s.pending.erase w } := by
  exact h.update rfl (custody_keep h.kernels rfl rfl rfl rfl)
    (works_deliver h.works rfl rfl (by rw [hp]; rfl) hw rfl rfl) h.unused
    (fun _ => h.wrap t (by rw [hp]; rfl)) (fun _ _ => rfl) (h.keepMutex fun j => by rw [hp]; rfl)
    nofun fun _ => .inl rfl

theorem Inv.emplaceBack (h : Inv s) (hp : s.pc t = .emplaceBack k w)
    (hs : s.emplaceBack t k w = some s') : Inv s' := by
  have hkernels := custody_emplaceBack h.kernels hs
  obtain ⟨d, hd, rfl⟩ := Option.map_eq_some_iff.mp hs
  rw [access_eq_some] at hd
  have hused : s.work w ≠ .unused := by
    rw [hd]
    exact nofun
  refine h.update rfl hkernels ?_ (h.unused_update hused nofun)
    (fun _ => h.wrap t (by rw [hp]; rfl)) (fun _ _ => rfl)
    (h.keepMutex fun j => by rw [hp]; rfl) nofun (pool_update (by rw [hp]; rfl) _)
  refine works_keep (s := s) h.works rfl (by rw [hp]; rfl) rfl fun v => ?_
  show (Function.update s.work w (.allocated { d with kernel := none }) v).isFreed = _
  by_cases hv : v = w
  · rw [hv, Function.update_self, hd]
    rfl
  · rw [Function.update_of_ne hv]

/-- The work is freed, and the function returns. -/
theorem Inv.deleteLeave (h : Inv s) {q : Pc K} (hq : s.pc t = q) (hwork : q.work = some w)
    (hlocks : ∀ j, ¬q.locks j) (hs : (s.delete w).map (·.leave t) = some s') : Inv s' := by
  subst hq
  obtain ⟨s₁, hs₁, rfl⟩ := Option.map_eq_some_iff.mp hs
  have hkernels := custody_leave (t := t) (custody_delete h.kernels hs₁)
  obtain ⟨d, hd, rfl⟩ := Option.map_eq_some_iff.mp hs₁
  rw [access_eq_some] at hd
  have hused : s.work w ≠ .unused := by
    rw [hd]
    exact nofun
  refine h.update rfl hkernels ?_ (h.unused_update hused nofun) (fun _ => Function.update_self ..)
    (fun u hu => Function.update_of_ne hu _ _) (h.keepMutex fun j => iff_of_false id (hlocks j))
    nofun fun _ => .inl rfl
  exact works_delete h.works rfl rfl hwork rfl (by rw [hd]; rfl) rfl

theorem Inv.throw (h : Inv s) {q : Pc K} {f : Caller} (hq : s.pc t = q)
    (hwork : q.work = some w) (hlocks : ∀ j, ¬q.locks j) (hwrap : q.wraps = false)
    (hs : s.throw t w f = some s') : Inv s' := by
  cases f with
  | enqueueNDRangeKernel => exact h.deleteLeave hq hwork hlocks hs
  | resumeOrFinish =>
    cases hs
    exact h.next hq hwork.symm (fun j => iff_of_false id (hlocks j)) (fun _ => hwrap) nofun

/-- A step of `MetaEnqueue`; what comes after the registration succeeds. -/
theorem Inv.metaEnqueue (h : Inv s) {f : Caller} {m : Meta} {ok : Bool}
    (hp : s.pc t = .metaEnqueue f m w) (hok : m = .flush → ok = true)
    (hs : s.metaEnqueue t f w m ok = some s') : Inv s' := by
  cases ok with
  | false =>
    cases m with
    | flush => exact absurd (hok rfl) nofun
    | enqueueKernel | enqueueRead | setCallback => exact h.throw hp rfl (fun _ => id) rfl hs
  | true =>
    cases m with
    | enqueueKernel | enqueueRead =>
      obtain ⟨d, -, rfl⟩ := Option.map_eq_some_iff.mp hs
      exact h.next hp rfl (fun _ => Iff.rfl) (fun _ => rfl) nofun
    | setCallback =>
      cases hs
      exact h.register hp
    | flush =>
      cases f with
      | enqueueNDRangeKernel =>
        cases hs
        exact h.next hp rfl (fun _ => Iff.rfl) (fun _ => rfl) nofun
      | resumeOrFinish =>
        cases hs
        exact h.leave hp rfl fun _ => id

omit [DecidableEq K] in
theorem following_spec (args : K → Nat) (k : K) (c : Check) :
    (c.following args k).work = none ∧ (c.following args k).wraps = true ∧
      (∀ j, ¬(c.following args k).locks j) ∧ ∀ j, ¬(c.following args k).takes j := by
  cases c with
  | setKernelArg n => cases n <;> exact ⟨rfl, rfl, fun _ => id, fun _ => id⟩
  | _ => exact ⟨rfl, rfl, fun _ => id, fun _ => id⟩

/-- The next check or call of a thread. -/
theorem Inv.move (h : Inv s) {args : K → Nat} {ok : Bool}
    (hok : ok = false → ∀ f w, s.pc t ≠ .marker w ∧ s.pc t ≠ .metaEnqueue f .flush w)
    (hs : s.move args t ok = some s') : Inv s' := by
  unfold State.move at hs
  cases hp : s.pc t with
  | idle =>
    rw [hp] at hs
    cases hs
  | preCheck k =>
    rw [hp] at hs
    cases ok with
    | true =>
      cases hs
      exact h.next hp rfl (fun _ => Iff.rfl) (fun _ => rfl) nofun
    | false =>
      cases hs
      exact h.leave hp rfl fun _ => id
  | lockPool k =>
    rw [hp] at hs
    cases ok with
    | true =>
      exact h.lock hp hs rfl (fun _ => Iff.rfl) (fun _ => id) (fun _ => rfl) fun _ => id
    | false => cases hs
  | poolSize k =>
    rw [hp] at hs
    cases ok with
    | true =>
      cases hs
      by_cases hsize : 0 < (s.pool k).length
      · rw [if_pos hsize]
        refine h.next hp rfl (fun _ => Iff.rfl) (fun _ => rfl) fun j hj => ?_
        cases hj
        exact List.ne_nil_of_length_pos hsize
      · rw [if_neg hsize]
        exact h.next hp rfl (fun _ => Iff.rfl) (fun _ => rfl) nofun
    | false => cases hs
  | moveBack k =>
    rw [hp] at hs
    cases ok with
    | true => exact h.moveBack hp hs
    | false => cases hs
  | popBack k =>
    rw [hp] at hs
    cases ok with
    | true => exact h.popBack hp hs
    | false => cases hs
  | createKernel k =>
    rw [hp] at hs
    cases ok with
    | true =>
      cases hs
      exact h.createKernel hp
    | false =>
      cases hs
      exact h.unlockLeave hp rfl (fun _ => Iff.rfl) rfl
  | unlockPool k =>
    rw [hp] at hs
    cases ok with
    | true =>
      cases hs
      exact h.unlock hp rfl (fun _ => Iff.rfl) (fun _ => id) nofun
    | false => cases hs
  | check k c =>
    rw [hp] at hs
    cases ok with
    | true =>
      cases hs
      obtain ⟨hwork, hwraps, hlocks, htakes⟩ := following_spec args k c
      exact h.next hp hwork (fun j => iff_of_false (hlocks j) id)
        (fun hw => absurd hw (by rw [hwraps]; exact nofun)) fun j hj => absurd hj (htakes j)
    | false =>
      cases hs
      exact h.leave hp rfl fun _ => id
  | retainEvent k =>
    rw [hp] at hs
    cases ok with
    | true =>
      cases hs
      exact h.next hp rfl (fun _ => Iff.rfl) nofun nofun
    | false => cases hs
  | newWork k =>
    rw [hp] at hs
    cases ok with
    | true =>
      cases hs
      exact h.newWork hp
    | false =>
      cases hs
      exact h.leave hp rfl fun _ => id
  | metaEnqueue f m w =>
    rw [hp] at hs
    refine h.metaEnqueue hp (fun hm => ?_) hs
    subst hm
    by_contra hne
    exact (hok (Bool.eq_false_iff.mpr hne) f w).2 hp
  | marker w =>
    rw [hp] at hs
    cases ok with
    | true =>
      cases hs
      exact h.next hp rfl (fun _ => Iff.rfl) (fun _ => rfl) nofun
    | false => exact absurd hp (hok rfl .resumeOrFinish w).1
  | releaseWork =>
    rw [hp] at hs
    cases ok with
    | true =>
      cases hs
      exact h.releaseWork hp
    | false => cases hs
  | inspect w =>
    rw [hp] at hs
    cases ok with
    | true =>
      obtain ⟨d, -, rfl⟩ := Option.map_eq_some_iff.mp hs
      exact h
    | false => exact h.throw hp rfl (fun _ => id) rfl hs
  | setComplete w | setError w =>
    rw [hp] at hs
    cases ok with
    | true =>
      obtain ⟨d, -, rfl⟩ := Option.map_eq_some_iff.mp hs
      exact h.next hp rfl (fun _ => Iff.rfl) (fun _ => rfl) nofun
    | false => cases hs
  | writeHeader w =>
    rw [hp] at hs
    cases ok with
    | true =>
      obtain ⟨d, -, rfl⟩ := Option.map_eq_some_iff.mp hs
      exact h.next hp rfl (fun _ => Iff.rfl) (fun _ => rfl) nofun
    | false => exact h.throw hp rfl (fun _ => id) rfl hs
  | lockCleanup k w =>
    rw [hp] at hs
    cases ok with
    | true =>
      exact h.lock hp hs rfl (fun _ => Iff.rfl) (fun _ => id) (fun _ => rfl) fun _ => id
    | false => cases hs
  | emplaceBack k w =>
    rw [hp] at hs
    cases ok with
    | true => exact h.emplaceBack hp hs
    | false => cases hs
  | unlockCleanup k w =>
    rw [hp] at hs
    cases ok with
    | true =>
      cases hs
      exact h.unlock hp rfl (fun _ => Iff.rfl) (fun _ => id) fun _ => rfl
    | false => cases hs
  | deleteWork w =>
    rw [hp] at hs
    cases ok with
    | true => exact h.deleteLeave hp rfl (fun _ => id) hs
    | false => cases hs

theorem Inv.updateHeader (h : Inv s) {progress : Progress}
    (hs : s.updateHeader t progress = some s') : Inv s' := by
  unfold State.updateHeader at hs
  cases hp : s.pc t with
  | inspect w =>
    rw [hp] at hs
    obtain ⟨d, -, rfl⟩ := Option.map_eq_some_iff.mp hs
    cases progress with
    | finished | yetFinished | updated =>
      exact h.next hp rfl (fun _ => Iff.rfl) (fun _ => rfl) nofun
  | _ =>
    rw [hp] at hs
    cases hs

theorem inv_start : Inv (start T K) := by
  refine ⟨.empty fun r o => ?_, .empty fun r v => ?_, fun w => ?_, fun _ _ => rfl, fun k t => ?_,
    fun t k ht => nomatch ht⟩
  · cases r <;> rfl
  · cases r <;> rfl
  · exact iff_of_true rfl (Nat.zero_le w)
  · exact iff_of_false nofun id

/-- Every step keeps the invariant. -/
theorem Inv.step (h : Inv s) {args : K → Nat} {l : Label T K} (hc : UpToRegistration s l)
    (hs : (machine T K args).step s l = some s') : Inv s' := by
  cases l with
  | enqueue t k =>
    cases hp : s.pc t with
    | idle =>
      simp only [machine, State.enter, hp] at hs
      cases hs
      exact h.next hp rfl (fun _ => Iff.rfl) (fun _ => rfl) nofun
    | _ =>
      simp only [machine, State.enter, hp] at hs
      cases hs
  | deliver t w =>
    simp only [machine] at hs
    split at hs
    · rename_i hw
      cases hp : s.pc t with
      | idle =>
        simp only [State.enter, hp] at hs
        cases hs
        exact h.deliver hp hw
      | _ =>
        simp only [State.enter, hp] at hs
        cases hs
    · cases hs
  | move t ok => exact h.move (fun hok => hc t (hok ▸ rfl)) hs
  | updateHeader t progress => exact h.updateHeader hs

theorem inv_of_reachable {args : K → Nat}
    (hs : (machine T K args).ReachableBy UpToRegistration s) : Inv s :=
  hs.invariant (fun _ h0 => h0 ▸ inv_start) fun _ _ _ h hc hstep => h.step hc hstep

/-! ## What follows -/

/-- A work that has not been freed can be looked at. -/
theorem Inv.access (h : Inv s) {r : WorkPlace T} (hr : s.heldWork r w ≠ 0) (hne : r ≠ .freed) :
    ∃ d, s.access w = some d := by
  have hlt := h.works.lt_of_ne_zero hr
  cases hw : s.work w with
  | unused =>
    have := (h.unused w).mp hw
    omega
  | allocated d => exact ⟨d, access_eq_some.mpr hw⟩
  | freed =>
    have hfreed : s.heldWork .freed w ≠ 0 := by
      show (s.work w).isFreed.toNat ≠ 0
      rw [hw]
      exact Nat.one_ne_zero
    exact absurd (h.works.eq_of_ne_zero hr hfreed) hne

theorem Inv.access_of_work (h : Inv s) (ht : (s.pc t).work = some w) :
    ∃ d, s.access w = some d :=
  h.access (r := .act t) (slotCount_ne_zero.mpr ht) nofun

omit [DecidableEq T] [DecidableEq K] in
/-- A work in flight is with the vendor or with a callback. -/
theorem heldWork_of_inFlight (h : s.InFlight w) :
    s.heldWork .pending w ≠ 0 ∨ ∃ t, (s.pc t).isCall = false ∧ s.heldWork (.act t) w ≠ 0 := by
  rcases h with h | ⟨t, hcall, ht⟩
  · exact .inl (List.count_pos_iff.mpr h).ne'
  · exact .inr ⟨t, hcall, slotCount_ne_zero.mpr ht⟩

/-- Whose a place is: the data of a work belongs to the call that prepares it, then to the
work. -/
inductive Belongs (s : State T K) : Place T K → Owner T K → Prop
  | pool (k : K) : Belongs s (.pool k) (.pool k)
  | wrap (t : T) : Belongs s (.wrap t) (.call t)
  | prepares {t : T} {w : Nat} (h : s.Prepares t w) : Belongs s (.work w) (.call t)
  | flight {w : Nat} (h : s.InFlight w) : Belongs s (.work w) (.flight w)
  | released : Belongs s .released .released

omit [DecidableEq T] [DecidableEq K] in
/-- An owner has what is in its places. -/
theorem owns_iff {o : Nat} {x : Owner T K} :
    s.Owns o x ↔ ∃ r, s.held r o ≠ 0 ∧ Belongs s r x := by
  constructor
  · intro h
    cases x with
    | pool k => exact ⟨.pool k, (List.count_pos_iff.mpr h).ne', .pool k⟩
    | call t =>
      rcases h with h | ⟨w, hw, ho⟩
      · exact ⟨.wrap t, slotCount_ne_zero.mpr h, .wrap t⟩
      · exact ⟨.work w, slotCount_ne_zero.mpr ho, .prepares hw⟩
    | flight w => exact ⟨.work w, slotCount_ne_zero.mpr h.2, .flight h.1⟩
    | released => exact ⟨.released, (List.count_pos_iff.mpr h).ne', .released⟩
  · rintro ⟨r, hr, hx⟩
    cases hx with
    | pool k => exact List.count_pos_iff.mp (Nat.pos_of_ne_zero hr)
    | wrap t => exact .inl (slotCount_ne_zero.mp hr)
    | prepares hw => exact .inr ⟨_, hw, slotCount_ne_zero.mp hr⟩
    | flight hw => exact ⟨hw, slotCount_ne_zero.mp hr⟩
    | released => exact List.count_pos_iff.mp (Nat.pos_of_ne_zero hr)

/-- A call that prepares a work is its only party. -/
theorem Inv.not_inFlight (h : Inv s) (ht : s.Prepares t w) : ¬s.InFlight w := by
  intro hw
  have hact : s.heldWork (.act t) w ≠ 0 := slotCount_ne_zero.mpr ht.2
  rcases heldWork_of_inFlight hw with hw | ⟨u, hu, hw⟩
  · cases h.works.eq_of_ne_zero hact hw
  · cases h.works.eq_of_ne_zero hact hw
    rw [ht.1] at hu
    cases hu

/-- A place has one owner. -/
theorem Inv.belongs_unique (h : Inv s) {r : Place T K} {x y : Owner T K} (hx : Belongs s r x)
    (hy : Belongs s r y) : x = y := by
  cases hx with
  | pool k | wrap t | released =>
    cases hy
    rfl
  | @prepares t w ht =>
    cases hy with
    | @prepares u _ hu =>
      have hact : s.heldWork (.act t) w ≠ 0 := slotCount_ne_zero.mpr ht.2
      have hact' : s.heldWork (.act u) w ≠ 0 := slotCount_ne_zero.mpr hu.2
      cases h.works.eq_of_ne_zero hact hact'
      rfl
    | flight hw => exact absurd hw (h.not_inFlight ht)
  | flight hw =>
    cases hy with
    | prepares ht => exact absurd hw (h.not_inFlight ht)
    | flight _ => rfl

/-- A place that holds an object has an owner. -/
theorem Inv.exists_belongs (h : Inv s) {r : Place T K} {o : Nat} (hr : s.held r o ≠ 0) :
    ∃ x, Belongs s r x := by
  cases r with
  | pool k => exact ⟨_, .pool k⟩
  | wrap t => exact ⟨_, .wrap t⟩
  | released => exact ⟨_, .released⟩
  | work w =>
    have hkernel : s.kernel w = some o := slotCount_ne_zero.mp hr
    obtain ⟨d, hd, -⟩ := Option.bind_eq_some_iff.mp hkernel
    rw [access_eq_some] at hd
    have hlt : w < s.nextWork := by
      have hnot := mt (h.unused w).mpr (by rw [hd]; exact nofun)
      omega
    obtain ⟨q, hq, -⟩ := h.works.existsUnique hlt
    cases q with
    | act t =>
      have ht : (s.pc t).work = some w := by
        refine slotCount_ne_zero.mp ?_
        show s.heldWork (.act t) w ≠ 0
        omega
      cases hcall : (s.pc t).isCall with
      | true => exact ⟨_, .prepares ⟨hcall, ht⟩⟩
      | false => exact ⟨_, .flight (.inr ⟨t, hcall, ht⟩)⟩
    | pending =>
      have hpos : 0 < s.pending.count w := by
        show 0 < s.heldWork .pending w
        omega
      exact ⟨_, .flight (.inl (List.count_pos_iff.mp hpos))⟩
    | freed =>
      have hzero : s.heldWork .freed w = 0 := by
        show (s.work w).isFreed.toNat = 0
        rw [hd]
        rfl
      omega

theorem Inv.neverShared (h : Inv s) : NeverShared s := by
  refine ⟨fun o ho => ?_, fun w w' o _ _ hw hw' => ?_, fun k w o hk _ hw => ?_, fun k o => ?_, ?_,
    fun w hw => ?_⟩
  · obtain ⟨r, hr, -⟩ := h.kernels.existsUnique ho
    have hr0 : s.held r o ≠ 0 := by omega
    obtain ⟨x, hx⟩ := h.exists_belongs hr0
    refine ⟨x, owns_iff.mpr ⟨r, hr0, hx⟩, fun y hy => ?_⟩
    obtain ⟨r', hr', hy⟩ := owns_iff.mp hy
    rw [h.kernels.eq_of_ne_zero hr' hr0] at hy
    exact h.belongs_unique hy hx
  · have hwork : s.held (.work w) o ≠ 0 := slotCount_ne_zero.mpr hw
    have hwork' : s.held (.work w') o ≠ 0 := slotCount_ne_zero.mpr hw'
    cases h.kernels.eq_of_ne_zero hwork hwork'
    rfl
  · have hpool : s.held (.pool k) o ≠ 0 := (List.count_pos_iff.mpr hk).ne'
    have hwork : s.held (.work w) o ≠ 0 := slotCount_ne_zero.mpr hw
    cases h.kernels.eq_of_ne_zero hpool hwork
  · exact h.kernels.le_one (.pool k) o
  · exact List.nodup_iff_count_le_one.mpr fun o => h.kernels.le_one .released o
  · rcases heldWork_of_inFlight hw with hw | ⟨t, -, hw⟩
    · exact h.access hw nofun
    · exact h.access hw nofun

/-- **Kernel objects are never shared**, in any interleaving of calls and callbacks in which
nothing fails after a callback has been registered. -/
theorem never_shared (args : K → Nat) (s : State T K)
    (hs : (machine T K args).ReachableBy UpToRegistration s) : NeverShared s :=
  (inv_of_reachable hs).neverShared

/-- A thread enqueues the kernel and returns; the kernel has one argument. -/
def launch (t : Nat) : List (Label Nat Unit) := .enqueue t () :: List.replicate 27 (.move t true)

/-- A callback finds that the work is finished. -/
def finish (t w : Nat) : List (Label Nat Unit) :=
  .deliver t w :: .move t true :: .updateHeader t .finished :: List.replicate 5 (.move t true)

/-- Two threads launch the kernel.  The first launch is finished, and when its object is
taken from the pool again, the metadata cannot be created. -/
theorem never_shared_two_launches :
    ∃ s, (machine Nat Unit fun _ => 1).ReachableBy UpToRegistration s ∧ s.created = 2 ∧
      s.pending = [1] ∧ s.released = [0] ∧ s.kernel 1 = some 1 ∧ NeverShared s := by
  let M := machine Nat Unit fun _ => 1
  have h₀ : M.ReachableBy UpToRegistration (start Nat Unit) := .initial rfl
  let ls := launch 0 ++ launch 1 ++ finish 2 0 ++ .enqueue 0 () :: List.replicate 10 (.move 0 true)
  let s₁ := (M.run (start Nat Unit) ls).get (by decide)
  have h₁ : M.ReachableBy UpToRegistration s₁ := by
    refine h₀.run (fun l hl u t heq => ?_) (Option.some_get _).symm
    subst heq
    exact absurd hl (by simp [ls, launch, finish])
  let s₂ := (M.step s₁ (.move 0 false)).get (by decide)
  have h₂ : M.ReachableBy UpToRegistration s₂ := by
    refine h₁.step (l := .move 0 false) (fun t heq f w => ?_) (Option.some_get _).symm
    cases heq
    have hpc : s₁.pc 0 = .check () .createMetadata := by decide
    rw [hpc]
    exact ⟨nofun, nofun⟩
  exact ⟨s₂, h₂, by decide, by decide, by decide, by decide, never_shared (fun _ => 1) s₂ h₂⟩

/-! ## Nobody is stuck -/

/-- The pool whose mutex a thread asks for. -/
def Pc.asks : Pc K → Option K
  | .lockPool k | .lockCleanup k _ => some k
  | _ => none

/-- Another thread has the mutex that the thread asks for. -/
def State.Waits (s : State T K) (t : T) : Prop :=
  ∃ k u, (s.pc t).asks = some k ∧ s.mutex k = some u

theorem lock_eq_none_iff (hk : (s.pc t).asks = some k) : s.lock t k p = none ↔ s.Waits t := by
  unfold State.lock
  cases hm : s.mutex k with
  | none =>
    refine iff_of_false nofun ?_
    rintro ⟨j, u, hj, hu⟩
    rw [hk] at hj
    cases hj
    rw [hm] at hu
    cases hu
  | some u => exact iff_of_true rfl ⟨k, u, hk, hm⟩

omit [DecidableEq T] [DecidableEq K] in
/-- Who is in a call and asks for no mutex is not stuck. -/
theorem not_stuck {q : Pc K} (hq : s.pc t = q) (hne : q ≠ .idle) (hasks : q.asks = none) :
    ¬(q = .idle ∨ s.Waits t) := by
  rintro (hidle | ⟨k, u, hk, -⟩)
  · exact hne hidle
  · rw [hq, hasks] at hk
    cases hk

theorem Inv.access_ne_none (h : Inv s) {q : Pc K} (hq : s.pc t = q) (hwork : q.work = some w) :
    s.access w ≠ none := by
  obtain ⟨d, hd⟩ := h.access_of_work (hq ▸ hwork)
  rw [hd]
  exact nofun

theorem Inv.getLast?_ne_none (h : Inv s) {q : Pc K} (hq : s.pc t = q) (htakes : q.takes k) :
    (s.pool k).getLast? ≠ none :=
  mt List.getLast?_eq_none_iff.mp (h.back t k (hq ▸ htakes))

/-- **A thread in a call goes on unless it waits for the mutex of a pool.**  In particular
it never looks at a work that has been freed and never takes the last object of an empty
pool. -/
theorem move_eq_none_iff {args : K → Nat}
    (hs : (machine T K args).ReachableBy UpToRegistration s) (t : T) :
    s.move args t true = none ↔ s.pc t = .idle ∨ s.Waits t := by
  have h := inv_of_reachable hs
  unfold State.move
  cases hp : s.pc t with
  | idle => exact iff_of_true rfl (.inl rfl)
  | lockPool k | lockCleanup k w =>
    exact (lock_eq_none_iff (by rw [hp]; rfl)).trans (by simp)
  | metaEnqueue f m w =>
    refine iff_of_false (fun hnone => ?_) (not_stuck hp nofun rfl)
    cases m with
    | enqueueKernel | enqueueRead =>
      exact h.access_ne_none hp rfl (Option.map_eq_none_iff.mp hnone)
    | setCallback => cases hnone
    | flush => cases f <;> cases hnone
  | moveBack k | popBack k =>
    refine iff_of_false (fun hnone => ?_) (not_stuck hp nofun rfl)
    exact h.getLast?_ne_none hp rfl (Option.map_eq_none_iff.mp hnone)
  | inspect w | setComplete w | setError w | writeHeader w | emplaceBack k w =>
    refine iff_of_false (fun hnone => ?_) (not_stuck hp nofun rfl)
    exact h.access_ne_none hp rfl (Option.map_eq_none_iff.mp hnone)
  | deleteWork w =>
    refine iff_of_false (fun hnone => ?_) (not_stuck hp nofun rfl)
    exact h.access_ne_none hp rfl
      (Option.map_eq_none_iff.mp (Option.map_eq_none_iff.mp hnone))
  | _ => exact iff_of_false nofun (not_stuck hp nofun rfl)

end KernelPool
end Clpkm
