import Clpkm.Locks
import Clpkm.Machine
import Mathlib.Data.BitVec

/-!
# The locks around the kernel table

Any number of threads call `clEnqueueNDRangeKernel`, `clSetKernelArg`, `clRetainKernel`
and `clReleaseKernel` or run `CallbackCleanup`.  The first three hold `KTLock` shared; a
release holds it for upgrade.  All but `clSetKernelArg` take the mutex of the kernel, and
the last release of a kernel, still holding the mutex, asks for `KTLock` alone.

There it may deadlock: a call that has `KTLock` shared and is about to take the mutex of
the same kernel waits for the release, which waits for the call (`deadlock_retained`).
The converse needs no more than the order of the locks: where no such call is under way
when a release upgrades, every thread waits only for threads of smaller rank
(`no_deadlock`).
-/

namespace Clpkm
namespace KernelLocks

/-- The calls that hold `KTLock` shared. -/
inductive ReadCall
  | enqueueNDRangeKernel
  | setKernelArg
  | retainKernel
  deriving DecidableEq, Repr

/-- The call takes the mutex of the kernel. -/
def ReadCall.usesMutex : ReadCall → Bool
  | .setKernelArg => false
  | _ => true

/-- What a thread may do. -/
inductive Call
  | read (c : ReadCall)
  | releaseKernel
  | callbackCleanup
  deriving DecidableEq, Repr

/-- What a thread does next. -/
inductive Pc (K : Type)
  | idle
  | lockShared (c : ReadCall) (k : K)
  | find (c : ReadCall) (k : K)
  | lockMutex (c : ReadCall) (k : K)
  /-- with the mutex: take a kernel from the pool or count the reference -/
  | locked (c : ReadCall) (k : K)
  | unlockShared
  /-- from here on `clReleaseKernel` -/
  | lockUpgrade (k : K)
  | findUpgrade (k : K)
  | lockMutexUpgrade (k : K)
  | decrement (k : K)
  | unlockMutex (k : K)
  /-- wait in `upgrade_to_unique_lock` for the last reader -/
  | upgrade (k : K)
  | unlockMutexUnique (k : K)
  | erase (k : K)
  | downgrade
  | unlockUpgrade
  /-- from here on `CallbackCleanup` -/
  | lockMutexCleanup (k : K)
  /-- return the kernel to the pool -/
  | locksPool (k : K)
  deriving DecidableEq, Repr

/-- The threads, the locks and the reference counts of the kernels in the table. -/
structure State (T K : Type) where
  pc : T → Pc K
  ktLock : UpgradeMutex T
  mutex : K → Option T
  refCount : K → Option (BitVec 64)

/-- The steps of a thread. -/
inductive Label (T K : Type)
  | enter (t : T) (c : Call) (k : K)
  | move (t : T)
  /-- an enqueue returns an error before it takes the mutex -/
  | fail (t : T)
  deriving DecidableEq, Repr

variable {T K : Type} [DecidableEq T] [DecidableEq K]

namespace State

def goto (s : State T K) (t : T) (p : Pc K) : State T K :=
  { s with pc := Function.update s.pc t p }

/-- The first thing a call does. -/
def enter (s : State T K) (t : T) (c : Call) (k : K) : Option (State T K) :=
  match s.pc t with
  | .idle =>
    some (s.goto t (match c with
      | .read c => .lockShared c k
      | .releaseKernel => .lockUpgrade k
      | .callbackCleanup => .lockMutexCleanup k))
  | _ => none

/-- Take the mutex of a kernel if it is free. -/
def takeMutex (s : State T K) (t : T) (k : K) (p : Pc K) : Option (State T K) :=
  if (s.mutex k).isNone then
    some { s.goto t p with mutex := Function.update s.mutex k (some t) }
  else none

def giveMutex (s : State T K) (t : T) (k : K) (p : Pc K) : State T K :=
  { s.goto t p with mutex := Function.update s.mutex k none }

/-- The next step of a call; `none` if it has to wait. -/
def move (s : State T K) (t : T) : Option (State T K) :=
  match s.pc t with
  | .idle => none
  | .lockShared c k =>
    if s.ktLock.ready .shared then
      some { s.goto t (.find c k) with ktLock := s.ktLock.lockShared t }
    else none
  | .find c k =>
    some (s.goto t (if (s.refCount k).isSome && c.usesMutex then .lockMutex c k
      else .unlockShared))
  | .lockMutex c k => s.takeMutex t k (.locked c k)
  | .locked c k =>
    let refCount := if c = .retainKernel then
      Function.update s.refCount k ((s.refCount k).map (· + 1)) else s.refCount
    some { s.giveMutex t k .unlockShared with refCount := refCount }
  | .unlockShared => some { s.goto t .idle with ktLock := s.ktLock.unlockShared t }
  | .lockUpgrade k =>
    if s.ktLock.ready .upgrade then
      some { s.goto t (.findUpgrade k) with ktLock := s.ktLock.lockUpgrade t }
    else none
  | .findUpgrade k =>
    some (s.goto t (if (s.refCount k).isSome then .lockMutexUpgrade k else .unlockUpgrade))
  | .lockMutexUpgrade k => s.takeMutex t k (.decrement k)
  | .decrement k =>
    let r := (s.refCount k).map (· - 1)
    let s := { s with refCount := Function.update s.refCount k r }
    some (if r = some 0 then
      { s.goto t (.upgrade k) with ktLock := s.ktLock.upgradeToUnique t }
    else s.goto t (.unlockMutex k))
  | .unlockMutex k => some (s.giveMutex t k .unlockUpgrade)
  | .upgrade k =>
    if s.ktLock.ready .unique then some (s.goto t (.unlockMutexUnique k)) else none
  | .unlockMutexUnique k => some (s.giveMutex t k (.erase k))
  | .erase k =>
    some { s.goto t .downgrade with refCount := Function.update s.refCount k none }
  | .downgrade => some { s.goto t .unlockUpgrade with ktLock := s.ktLock.uniqueToUpgrade t }
  | .unlockUpgrade => some { s.goto t .idle with ktLock := s.ktLock.unlockUpgrade }
  | .lockMutexCleanup k => s.takeMutex t k (.locksPool k)
  | .locksPool k => some (s.giveMutex t k .idle)

/-- An enqueue that fails its checks. -/
def fail (s : State T K) (t : T) : Option (State T K) :=
  match s.pc t with
  | .find .enqueueNDRangeKernel _ => some (s.goto t .unlockShared)
  | _ => none

end State

/-- The threads start outside of all calls, with any kernels in the table. -/
def machine (T K : Type) [DecidableEq T] [DecidableEq K] : Machine (State T K) (Label T K) where
  Initial s := (∀ t, s.pc t = .idle) ∧ s.ktLock = .free ∧ ∀ k, s.mutex k = none
  step s
    | .enter t c k => s.enter t c k
    | .move t => s.move t
    | .fail t => s.fail t

/-! ## Who holds what and who waits -/

namespace Pc

/-- Holds `KTLock` shared. -/
def reads : Pc K → Prop
  | .find .. | .lockMutex .. | .locked .. | .unlockShared => True
  | _ => False

/-- Holds `KTLock` for upgrade. -/
def upgrades : Pc K → Prop
  | .findUpgrade _ | .lockMutexUpgrade _ | .decrement _ | .unlockMutex _ | .unlockUpgrade => True
  | _ => False

/-- Holds `KTLock` alone or shuts others out until it does. -/
def writes : Pc K → Prop
  | .upgrade _ | .unlockMutexUnique _ | .erase _ | .downgrade => True
  | _ => False

/-- Holds the mutex of this kernel. -/
def locks (k : K) : Pc K → Prop
  | .locked _ j | .decrement j | .unlockMutex j | .upgrade j | .unlockMutexUnique j
  | .locksPool j => j = k
  | _ => False

/-- Holds `KTLock` shared and is about to take the mutex of this kernel. -/
def heads (k : K) : Pc K → Prop
  | .find c j => c.usesMutex = true ∧ j = k
  | .lockMutex _ j => j = k
  | _ => False

/-- How the thread asks for `KTLock`. -/
def asks : Pc K → Option Mode
  | .lockShared .. => some .shared
  | .lockUpgrade _ => some .upgrade
  | .upgrade _ => some .unique
  | _ => none

/-- The kernel whose mutex the thread asks for. -/
def asksMutex : Pc K → Option K
  | .lockMutex _ k | .lockMutexUpgrade k | .lockMutexCleanup k => some k
  | _ => none

/-- Threads wait for threads of smaller rank. -/
def rank : Pc K → Nat
  | .lockUpgrade _ => 4
  | .lockShared .. | .lockMutexUpgrade _ | .lockMutexCleanup _ => 3
  | .upgrade _ => 2
  | .lockMutex .. => 1
  | _ => 0

omit [DecidableEq K]
variable {p : Pc K} {k : K}

theorem rank_lt_of_reads (h : p.reads) : p.rank < 2 := by
  cases p <;> first | exact h.elim | simp [rank]

theorem rank_lt_of_writes (h : p.writes) : p.rank < 3 := by
  cases p <;> first | exact h.elim | simp [rank]

theorem rank_lt_of_upgrades (h : p.upgrades) : p.rank < 4 := by
  cases p <;> first | exact h.elim | simp [rank]

/-- Only the last release of a kernel waits while it holds the mutex. -/
theorem rank_eq_zero_of_locks (h : p.locks k) (hp : p ≠ .upgrade k) : p.rank = 0 := by
  cases p with
  | upgrade j =>
    cases h
    exact absurd rfl hp
  | _ => first | exact h.elim | rfl

end Pc

/-- A thread asks for a lock that another one holds. -/
def State.WaitsFor (s : State T K) (t u : T) : Prop :=
  (∃ mode, (s.pc t).asks = some mode ∧ s.ktLock.Blocks u mode) ∨
    ∃ k, (s.pc t).asksMutex = some k ∧ s.mutex k = some u

/-- The step is not an upgrade by the last release of a kernel while another call has
`KTLock` shared and is about to take the mutex of this kernel. -/
def UpgradesAlone (s : State T K) : Label T K → Prop
  | .move t => ∀ k, s.pc t = .decrement k → s.refCount k = some 1 → ∀ u, ¬(s.pc u).heads k
  | _ => True

/-- A thread that is in a call moves unless it waits for another one. -/
theorem State.move_eq_none_iff (s : State T K) (t : T) :
    s.move t = none ↔ s.pc t = .idle ∨ ∃ u, s.WaitsFor t u := by
  have hlock : ∀ {mode : Mode} {s' : State T K}, (s.pc t).asks = some mode →
      (s.pc t).asksMutex = none → ((if s.ktLock.ready mode then some s' else none) = none ↔
        ∃ u, s.WaitsFor t u) := by
    intro mode s' hask hmutex
    have hready := s.ktLock.ready_iff mode
    constructor
    · intro h
      have hnot : ¬s.ktLock.ready mode = true := fun hr => by
        rw [if_pos hr] at h
        cases h
      obtain ⟨u, hu⟩ := not_forall.mp (mt hready.mpr hnot)
      exact ⟨u, .inl ⟨mode, hask, not_not.mp hu⟩⟩
    · rintro ⟨u, ⟨mode', hmode, hu⟩ | ⟨k, hk, _⟩⟩
      · rw [hask] at hmode
        cases hmode
        exact if_neg fun hr => hready.mp hr u hu
      · rw [hmutex] at hk
        cases hk
  have hmutex : ∀ {k : K} {p : Pc K}, (s.pc t).asks = none → (s.pc t).asksMutex = some k →
      (s.takeMutex t k p = none ↔ ∃ u, s.WaitsFor t u) := by
    intro k p hask hk
    unfold State.takeMutex
    cases hm : s.mutex k with
    | none =>
      refine iff_of_false nofun ?_
      rintro ⟨u, ⟨mode, hmode, _⟩ | ⟨k', hk', hu⟩⟩
      · rw [hask] at hmode
        cases hmode
      · rw [hk] at hk'
        cases hk'
        rw [hm] at hu
        cases hu
    | some u => exact iff_of_true rfl ⟨u, .inr ⟨k, hk, hm⟩⟩
  have hmoves : (s.pc t).asks = none → (s.pc t).asksMutex = none → ¬∃ u, s.WaitsFor t u := by
    rintro hask hk ⟨u, ⟨mode, hmode, _⟩ | ⟨k, hk', _⟩⟩
    · rw [hask] at hmode
      cases hmode
    · rw [hk] at hk'
      cases hk'
  unfold State.move
  cases hp : s.pc t with
  | idle => exact iff_of_true rfl (.inl rfl)
  | lockShared c k => exact (hlock (by rw [hp]; rfl) (by rw [hp]; rfl)).trans (by simp)
  | lockUpgrade k => exact (hlock (by rw [hp]; rfl) (by rw [hp]; rfl)).trans (by simp)
  | upgrade k => exact (hlock (by rw [hp]; rfl) (by rw [hp]; rfl)).trans (by simp)
  | lockMutex c k => exact (hmutex (by rw [hp]; rfl) (by rw [hp]; rfl)).trans (by simp)
  | lockMutexUpgrade k => exact (hmutex (by rw [hp]; rfl) (by rw [hp]; rfl)).trans (by simp)
  | lockMutexCleanup k => exact (hmutex (by rw [hp]; rfl) (by rw [hp]; rfl)).trans (by simp)
  | _ =>
    refine iff_of_false nofun (not_or.mpr ⟨nofun, hmoves ?_ ?_⟩)
    · rw [hp]
      rfl
    · rw [hp]
      rfl

/-! ## The invariant -/

/-- `KTLock` is held by the threads that say so. -/
structure LockInv (m : UpgradeMutex T) (pc : T → Pc K) : Prop where
  nodup : m.readers.Nodup
  readers : ∀ t ∈ m.readers, (pc t).reads
  upgrader : OwnedBy Pc.upgrades m.upgrader pc
  writer : OwnedBy Pc.writes m.writer pc
  single : m.upgrader = none ∨ m.writer = none

/-- While the last release of a kernel waits for the readers, none of them is about to
take the mutex of the kernel. -/
def Clear (pc : T → Pc K) : Prop := ∀ t k, pc t = .upgrade k → ∀ u, ¬(pc u).heads k

/-- What holds in every state. -/
structure Inv (s : State T K) : Prop where
  ktLock : LockInv s.ktLock s.pc
  mutex : ∀ k, OwnedBy (Pc.locks k) (s.mutex k) s.pc
  clear : Clear s.pc

section lock
omit [DecidableEq K]
variable {m : UpgradeMutex T} {pc : T → Pc K} {t : T} {p q : Pc K}

theorem LockInv.keep (h : LockInv m pc) (hp : pc t = p) (hr : p.reads → q.reads)
    (hu : q.upgrades ↔ p.upgrades) (hw : q.writes ↔ p.writes) :
    LockInv m (Function.update pc t q) := by
  rw [← hp] at hu hw
  refine ⟨h.nodup, fun u hmem => ?_, h.upgrader.keep hu, h.writer.keep hw, h.single⟩
  have hreads := h.readers u hmem
  by_cases hut : u = t
  · rw [hut, hp] at hreads
    rw [hut, Function.update_self]
    exact hr hreads
  · rw [Function.update_of_ne hut]
    exact hreads

theorem LockInv.lockShared (h : LockInv m pc) (hp : pc t = p) (hnr : ¬p.reads) (hr : q.reads)
    (hu : q.upgrades ↔ p.upgrades) (hw : q.writes ↔ p.writes) :
    LockInv (m.lockShared t) (Function.update pc t q) := by
  rw [← hp] at hu hw hnr
  refine ⟨List.nodup_cons.mpr ⟨fun hmem => hnr (h.readers t hmem), h.nodup⟩,
    fun u hmem => ?_, h.upgrader.keep hu, h.writer.keep hw, h.single⟩
  by_cases hut : u = t
  · rw [hut, Function.update_self]
    exact hr
  · rw [Function.update_of_ne hut]
    exact h.readers u ((List.mem_cons.mp hmem).resolve_left hut)

theorem LockInv.unlockShared (h : LockInv m pc) (hp : pc t = p)
    (hu : q.upgrades ↔ p.upgrades) (hw : q.writes ↔ p.writes) :
    LockInv (m.unlockShared t) (Function.update pc t q) := by
  rw [← hp] at hu hw
  refine ⟨h.nodup.erase t, fun u hmem => ?_, h.upgrader.keep hu, h.writer.keep hw, h.single⟩
  obtain ⟨hne, hmem⟩ := (List.Nodup.mem_erase_iff h.nodup).mp hmem
  rw [Function.update_of_ne hne]
  exact h.readers u hmem

/-- A thread that is no reader changes the way it holds the lock. -/
theorem LockInv.change (h : LockInv m pc) (hp : pc t = p) (hr : ¬p.reads)
    {upgrader writer : Option T}
    (hupgrader : OwnedBy Pc.upgrades upgrader (Function.update pc t q))
    (hwriter : OwnedBy Pc.writes writer (Function.update pc t q))
    (hsingle : upgrader = none ∨ writer = none) :
    LockInv { m with upgrader := upgrader, writer := writer } (Function.update pc t q) := by
  refine ⟨h.nodup, fun u hmem => ?_, hupgrader, hwriter, hsingle⟩
  have hreads := h.readers u hmem
  rw [Function.update_of_ne (by rintro rfl; exact hr (hp ▸ hreads))]
  exact hreads

theorem LockInv.lockUpgrade (h : LockInv m pc) (hp : pc t = p) (hr : ¬p.reads)
    (hready : m.ready .upgrade = true) (hu : q.upgrades) (hw : q.writes ↔ p.writes) :
    LockInv (m.lockUpgrade t) (Function.update pc t q) := by
  have hblocks := (m.ready_iff .upgrade).mp hready
  have hupgrader : m.upgrader = none :=
    Option.eq_none_iff_forall_ne_some.mpr fun u hm => hblocks u (.inr hm)
  have hwriter : m.writer = none :=
    Option.eq_none_iff_forall_ne_some.mpr fun u hm => hblocks u (.inl hm)
  have hown := h.upgrader
  rw [hupgrader] at hown
  rw [← hp] at hw
  exact h.change hp hr (hown.take hu) (h.writer.keep hw) (.inr hwriter)

theorem LockInv.unlockUpgrade (h : LockInv m pc) (hp : pc t = p) (hr : ¬p.reads)
    (hpu : p.upgrades) (hu : ¬q.upgrades) (hw : q.writes ↔ p.writes) :
    LockInv m.unlockUpgrade (Function.update pc t q) := by
  rw [← hp] at hpu hw
  exact h.change hp hr (h.upgrader.drop hpu hu) (h.writer.keep hw) (.inl rfl)

theorem LockInv.upgradeToUnique (h : LockInv m pc) (hp : pc t = p) (hr : ¬p.reads)
    (hpu : p.upgrades) (hu : ¬q.upgrades) (hw : q.writes) :
    LockInv (m.upgradeToUnique t) (Function.update pc t q) := by
  rw [← hp] at hpu
  have hwriter : m.writer = none := h.single.resolve_left fun hm => by
    rw [(h.upgrader t).mpr hpu] at hm
    cases hm
  have hown := h.writer
  rw [hwriter] at hown
  exact h.change hp hr (h.upgrader.drop hpu hu) (hown.take hw) (.inl rfl)

theorem LockInv.uniqueToUpgrade (h : LockInv m pc) (hp : pc t = p) (hr : ¬p.reads)
    (hpw : p.writes) (hu : q.upgrades) (hw : ¬q.writes) :
    LockInv (m.uniqueToUpgrade t) (Function.update pc t q) := by
  rw [← hp] at hpw
  have hupgrader : m.upgrader = none := h.single.resolve_right fun hm => by
    rw [(h.writer t).mpr hpw] at hm
    cases hm
  have hown := h.upgrader
  rw [hupgrader] at hown
  exact h.change hp hr (hown.take hu) (h.writer.drop hpw hw) (.inr rfl)

omit [DecidableEq T] in
/-- Nobody writes while a thread has the lock for upgrade. -/
theorem LockInv.no_writer (h : LockInv m pc) (ht : (pc t).upgrades) (u : T) :
    ¬(pc u).writes := by
  intro hu
  have hupgrader := (h.upgrader t).mpr ht
  have hwriter := (h.writer u).mpr hu
  rcases h.single with hnone | hnone
  · rw [hnone] at hupgrader
    cases hupgrader
  · rw [hnone] at hwriter
    cases hwriter

theorem Clear.keep (h : Clear pc) (hp : pc t = p) (hup : ∀ k, q ≠ .upgrade k)
    (hheads : ∀ k, q.heads k → p.heads k) : Clear (Function.update pc t q) := by
  intro u k hu v hv
  have hne : u ≠ t := by
    rintro rfl
    rw [Function.update_self] at hu
    exact hup k hu
  rw [Function.update_of_ne hne] at hu
  by_cases hvt : v = t
  · rw [hvt, Function.update_self] at hv
    exact h u k hu t (hp ▸ hheads k hv)
  · rw [Function.update_of_ne hvt] at hv
    exact h u k hu v hv

/-- Nobody waits for the last reader while nobody writes. -/
theorem Clear.of_no_writer (hnone : ∀ u, ¬(pc u).writes) (hup : ∀ k, q ≠ .upgrade k) :
    Clear (Function.update pc t q) := by
  intro u k hu
  by_cases hut : u = t
  · rw [hut, Function.update_self] at hu
    exact absurd hu (hup k)
  · rw [Function.update_of_ne hut] at hu
    exact absurd (hu ▸ trivial) (hnone u)

/-- The last release of a kernel starts to wait when nobody is about to take the mutex. -/
theorem Clear.upgrade {k : K} (hnone : ∀ u, ¬(pc u).writes) (hclear : ∀ u, ¬(pc u).heads k)
    (hheads : ¬(Pc.upgrade k).heads k) : Clear (Function.update pc t (.upgrade k)) := by
  intro u j hu v hv
  by_cases hut : u = t
  · rw [hut, Function.update_self] at hu
    cases hu
    by_cases hvt : v = t
    · rw [hvt, Function.update_self] at hv
      exact hheads hv
    · rw [Function.update_of_ne hvt] at hv
      exact hclear v hv
  · rw [Function.update_of_ne hut] at hu
    exact hnone u (hu ▸ trivial)

end lock

section step
variable {s s' : State T K} {t : T} {k : K} {p q : Pc K}

omit [DecidableEq K] in
/-- A step that touches no lock. -/
theorem Inv.goto (h : Inv s) (hp : s.pc t = p) (hr : p.reads → q.reads)
    (hu : q.upgrades ↔ p.upgrades) (hw : q.writes ↔ p.writes) (hl : ∀ k, q.locks k ↔ p.locks k)
    (hup : ∀ k, q ≠ .upgrade k) (hheads : ∀ k, q.heads k → p.heads k) : Inv (s.goto t q) where
  ktLock := h.ktLock.keep hp hr hu hw
  mutex k := (h.mutex k).keep (hp ▸ hl k)
  clear := h.clear.keep hp hup hheads

theorem Inv.takeMutex (h : Inv s) (hp : s.pc t = p) (hs : s.takeMutex t k q = some s')
    (hr : p.reads → q.reads) (hu : q.upgrades ↔ p.upgrades) (hw : q.writes ↔ p.writes)
    (hk : q.locks k) (hl : ∀ j, j ≠ k → (q.locks j ↔ p.locks j))
    (hup : ∀ k, q ≠ .upgrade k) (hheads : ∀ k, q.heads k → p.heads k) : Inv s' := by
  unfold State.takeMutex at hs
  split at hs
  · rename_i hfree
    cases hs
    refine ⟨h.ktLock.keep hp hr hu hw, fun j => ?_, h.clear.keep hp hup hheads⟩
    by_cases hj : j = k
    · subst hj
      have hown := h.mutex j
      rw [Option.isNone_iff_eq_none.mp hfree] at hown
      show OwnedBy _ (Function.update s.mutex j (some t) j) _
      rw [Function.update_self]
      exact hown.take hk
    · show OwnedBy _ (Function.update s.mutex k (some t) j) _
      rw [Function.update_of_ne hj]
      exact (h.mutex j).keep (hp ▸ hl j hj)
  · cases hs

theorem Inv.giveMutex (h : Inv s) (hp : s.pc t = p) (hr : p.reads → q.reads)
    (hu : q.upgrades ↔ p.upgrades) (hw : q.writes ↔ p.writes) (hk : p.locks k)
    (hnk : ¬q.locks k) (hl : ∀ j, j ≠ k → (q.locks j ↔ p.locks j))
    (hup : ∀ k, q ≠ .upgrade k) (hheads : ∀ k, q.heads k → p.heads k) :
    Inv (s.giveMutex t k q) := by
  refine ⟨h.ktLock.keep hp hr hu hw, fun j => ?_, h.clear.keep hp hup hheads⟩
  by_cases hj : j = k
  · subst hj
    show OwnedBy _ (Function.update s.mutex j none j) _
    rw [Function.update_self]
    exact (h.mutex j).drop (hp ▸ hk) hnk
  · show OwnedBy _ (Function.update s.mutex k none j) _
    rw [Function.update_of_ne hj]
    exact (h.mutex j).keep (hp ▸ hl j hj)

omit [DecidableEq T] [DecidableEq K] in
/-- The reference counts do not matter. -/
theorem Inv.setRefCount (h : Inv s) (refCount : K → Option (BitVec 64)) :
    Inv { s with refCount := refCount } := { h with }

omit [DecidableEq K] in
theorem Inv.enter {c : Call} (h : Inv s) (hs : s.enter t c k = some s') : Inv s' := by
  unfold State.enter at hs
  split at hs
  · rename_i hp
    cases hs
    cases c <;>
      exact h.goto hp (fun h => h) Iff.rfl Iff.rfl (fun _ => Iff.rfl) nofun (fun _ h => h)
  · cases hs

omit [DecidableEq K] in
theorem Inv.fail (h : Inv s) (hs : s.fail t = some s') : Inv s' := by
  unfold State.fail at hs
  split at hs
  · rename_i j hp
    cases hs
    exact h.goto hp (fun h => h) Iff.rfl Iff.rfl (fun _ => Iff.rfl) nofun nofun
  · cases hs

theorem Inv.move (h : Inv s) (hs : s.move t = some s') (hc : UpgradesAlone s (.move t)) :
    Inv s' := by
  unfold State.move at hs
  cases hp : s.pc t with
  | idle =>
    rw [hp] at hs
    cases hs
  | lockShared c k =>
    rw [hp] at hs
    simp only at hs
    split at hs
    · rename_i hready
      cases hs
      have hnone : ∀ u, ¬(s.pc u).writes := fun u hu =>
        (s.ktLock.ready_iff .shared).mp hready u ((h.ktLock.writer u).mpr hu)
      exact ⟨h.ktLock.lockShared hp id trivial Iff.rfl Iff.rfl,
        fun j => (h.mutex j).keep (hp ▸ Iff.rfl), Clear.of_no_writer hnone nofun⟩
    · cases hs
  | find c k =>
    rw [hp] at hs
    cases hs
    split
    · rename_i hcond
      exact h.goto hp id Iff.rfl Iff.rfl (fun _ => Iff.rfl) nofun
        fun _ hk => ⟨((Bool.and_eq_true _ _).mp hcond).2, hk⟩
    · exact h.goto hp id Iff.rfl Iff.rfl (fun _ => Iff.rfl) nofun nofun
  | lockMutex c k =>
    rw [hp] at hs
    exact h.takeMutex hp hs id Iff.rfl Iff.rfl rfl
      (fun j hj => iff_of_false (fun he => hj he.symm) id) nofun nofun
  | locked c k =>
    rw [hp] at hs
    cases hs
    exact (h.giveMutex (q := .unlockShared) hp id Iff.rfl Iff.rfl rfl id
      (fun j hj => iff_of_false id fun he => hj he.symm) nofun nofun).setRefCount _
  | unlockShared =>
    rw [hp] at hs
    cases hs
    exact ⟨h.ktLock.unlockShared hp Iff.rfl Iff.rfl, fun j => (h.mutex j).keep (hp ▸ Iff.rfl),
      h.clear.keep hp nofun nofun⟩
  | lockUpgrade k =>
    rw [hp] at hs
    simp only at hs
    split at hs
    · rename_i hready
      cases hs
      exact ⟨h.ktLock.lockUpgrade hp id hready trivial Iff.rfl,
        fun j => (h.mutex j).keep (hp ▸ Iff.rfl), h.clear.keep hp nofun nofun⟩
    · cases hs
  | findUpgrade k =>
    rw [hp] at hs
    cases hs
    split <;> exact h.goto hp id Iff.rfl Iff.rfl (fun _ => Iff.rfl) nofun nofun
  | lockMutexUpgrade k =>
    rw [hp] at hs
    exact h.takeMutex hp hs id Iff.rfl Iff.rfl rfl
      (fun j hj => iff_of_false (fun he => hj he.symm) id) nofun nofun
  -- the only step that begins to wait for readers, which is what the condition is about
  | decrement k =>
    rw [hp] at hs
    cases hs
    split
    · rename_i hr
      have hone : s.refCount k = some 1 := by
        obtain ⟨r, hr, hr0⟩ := Option.map_eq_some_iff.mp hr
        rw [hr, show r = 1 by rw [← sub_eq_zero]; exact hr0]
      have hnone := h.ktLock.no_writer (t := t) (hp ▸ trivial)
      exact ⟨h.ktLock.upgradeToUnique hp id trivial id trivial,
        fun j => (h.mutex j).keep (hp ▸ Iff.rfl), Clear.upgrade hnone (hc k hp hone) id⟩
    · exact (h.goto (q := .unlockMutex k) hp id Iff.rfl Iff.rfl (fun _ => Iff.rfl) nofun
        nofun).setRefCount _
  | unlockMutex k =>
    rw [hp] at hs
    cases hs
    exact h.giveMutex hp id Iff.rfl Iff.rfl rfl id
      (fun j hj => iff_of_false id fun he => hj he.symm) nofun nofun
  | upgrade k =>
    rw [hp] at hs
    simp only at hs
    split at hs
    · cases hs
      exact h.goto hp id Iff.rfl Iff.rfl (fun _ => Iff.rfl) nofun nofun
    · cases hs
  | unlockMutexUnique k =>
    rw [hp] at hs
    cases hs
    exact h.giveMutex hp id Iff.rfl Iff.rfl rfl id
      (fun j hj => iff_of_false id fun he => hj he.symm) nofun nofun
  | erase k =>
    rw [hp] at hs
    cases hs
    exact (h.goto (q := .downgrade) hp id Iff.rfl Iff.rfl (fun _ => Iff.rfl) nofun
      nofun).setRefCount _
  | downgrade =>
    rw [hp] at hs
    cases hs
    exact ⟨h.ktLock.uniqueToUpgrade hp id trivial trivial id,
      fun j => (h.mutex j).keep (hp ▸ Iff.rfl), h.clear.keep hp nofun nofun⟩
  | unlockUpgrade =>
    rw [hp] at hs
    cases hs
    exact ⟨h.ktLock.unlockUpgrade hp id trivial id Iff.rfl,
      fun j => (h.mutex j).keep (hp ▸ Iff.rfl), h.clear.keep hp nofun nofun⟩
  | lockMutexCleanup k =>
    rw [hp] at hs
    exact h.takeMutex hp hs id Iff.rfl Iff.rfl rfl
      (fun j hj => iff_of_false (fun he => hj he.symm) id) nofun nofun
  | locksPool k =>
    rw [hp] at hs
    cases hs
    exact h.giveMutex hp id Iff.rfl Iff.rfl rfl id
      (fun j hj => iff_of_false id fun he => hj he.symm) nofun nofun

end step

/-- In runs in which releases upgrade alone the invariant holds. -/
theorem inv_of_reachableBy {s : State T K} (hs : (machine T K).ReachableBy UpgradesAlone s) :
    Inv s := by
  apply hs.invariant
  · rintro s ⟨hidle, hfree, hmutex⟩
    refine ⟨?_, fun k t => ?_, fun t k ht => ?_⟩
    · rw [hfree]
      refine ⟨List.nodup_nil, fun t ht => absurd ht List.not_mem_nil, fun t => ?_, fun t => ?_,
        .inl rfl⟩
      · exact iff_of_false nofun (hidle t ▸ id)
      · exact iff_of_false nofun (hidle t ▸ id)
    · rw [hmutex k]
      exact iff_of_false nofun (hidle t ▸ id)
    · rw [hidle t] at ht
      cases ht
  · intro s l s' h hc hs
    cases l with
    | enter t c k => exact h.enter hs
    | move t => exact h.move hs hc
    | fail t => exact h.fail hs

omit [DecidableEq T] in
/-- Whoever is waited for has a smaller rank. -/
theorem Inv.rank_lt {s : State T K} (h : Inv s) {t u : T} (hw : s.WaitsFor t u) :
    (s.pc u).rank < (s.pc t).rank := by
  have hwrites : s.ktLock.writer = some u → (s.pc u).rank < 3 := fun hu =>
    Pc.rank_lt_of_writes ((h.ktLock.writer u).mp hu)
  rcases hw with ⟨mode, hask, hblocks⟩ | ⟨k, hask, howner⟩
  · cases ht : s.pc t with
    | lockShared c k =>
      rw [ht] at hask
      cases hask
      exact hwrites hblocks
    | lockUpgrade k =>
      rw [ht] at hask
      cases hask
      rcases hblocks with hu | hu
      · exact Nat.lt_succ_of_lt (hwrites hu)
      · exact Pc.rank_lt_of_upgrades ((h.ktLock.upgrader u).mp hu)
    | upgrade k =>
      rw [ht] at hask
      cases hask
      exact Pc.rank_lt_of_reads (h.ktLock.readers u hblocks)
    | _ =>
      rw [ht] at hask
      cases hask
  · have hlocks := (h.mutex k u).mp howner
    have hrank : s.pc u = .upgrade k ∨ (s.pc u).rank = 0 := by
      by_cases hu : s.pc u = .upgrade k
      · exact .inl hu
      · exact .inr (Pc.rank_eq_zero_of_locks hlocks hu)
    have hle : (s.pc u).rank ≤ 2 := by
      rcases hrank with hu | hu
      · rw [hu]
        exact Nat.le_refl 2
      · omega
    cases ht : s.pc t with
    | lockMutex c j =>
      rw [ht] at hask
      cases hask
      rcases hrank with hu | hu
      · exact absurd (ht ▸ rfl : (s.pc t).heads k) (h.clear u k hu t)
      · rw [hu]
        exact Nat.one_pos
    | lockMutexUpgrade j => exact Nat.lt_succ_of_le hle
    | lockMutexCleanup j => exact Nat.lt_succ_of_le hle
    | _ =>
      rw [ht] at hask
      cases hask

/-- **No deadlock.**  If the last release of a kernel never upgrades `KTLock` while
another call has it shared and is about to take the mutex of the kernel, then no threads
wait for each other. -/
theorem no_deadlock (T K : Type) [DecidableEq T] [DecidableEq K] {s : State T K}
    (hs : (machine T K).ReachableBy UpgradesAlone s) (D : Set T) :
    ¬Deadlocked s.WaitsFor D := by
  apply not_deadlocked fun t => (s.pc t).rank
  intro t u _ hw
  exact (inv_of_reachableBy hs).rank_lt hw

/-- One kernel in the table, with one reference, and two threads. -/
def oneKernel : State Bool Unit := ⟨fun _ => .idle, .free, fun _ => none, fun _ => some 1⟩

theorem oneKernel_initial : (machine Bool Unit).Initial oneKernel :=
  ⟨fun _ => rfl, rfl, fun _ => rfl⟩

/-- The last release waits for a thread that sets an argument, and that is all. -/
theorem no_deadlock_argument :
    ∃ s, (machine Bool Unit).ReachableBy UpgradesAlone s ∧ s.WaitsFor false true ∧
      ¬Deadlocked s.WaitsFor Set.univ := by
  have hrun : ∃ s, (machine Bool Unit).ReachableBy UpgradesAlone s ∧ s.WaitsFor false true := by
    have h := Machine.ReachableBy.initial (C := UpgradesAlone) oneKernel_initial
    replace h := h.step (l := Label.enter true (.read .setKernelArg) ()) trivial rfl
    replace h := h.step (l := Label.move true) nofun rfl
    replace h := h.step (l := Label.enter false .releaseKernel ()) trivial rfl
    replace h := h.step (l := Label.move false) nofun rfl
    replace h := h.step (l := Label.move false) nofun rfl
    replace h := h.step (l := Label.move false) nofun rfl
    replace h := h.step (l := Label.move false) (fun _ _ _ u => by cases u <;> nofun) rfl
    exact ⟨_, h, .inl ⟨.unique, rfl, List.mem_cons_self⟩⟩
  obtain ⟨s, hs, hwaits⟩ := hrun
  exact ⟨s, hs, hwaits, no_deadlock Bool Unit hs Set.univ⟩

/-- A thread retains a kernel while another one releases it for the last time. -/
def retainedRun : List (Label Bool Unit) :=
  [.enter true (.read .retainKernel) (), .move true, .move true,
    .enter false .releaseKernel (), .move false, .move false, .move false, .move false]

/-- The retaining thread waits for the mutex, the releasing one for the last reader. -/
theorem deadlock_retained :
    ¬∀ s, (machine Bool Unit).Reachable s → ∀ D, ¬Deadlocked s.WaitsFor D := by
  intro h
  have hrun : ∃ s, (machine Bool Unit).run oneKernel retainedRun = some s ∧
      s.pc true = .lockMutex .retainKernel () ∧ s.pc false = .upgrade () ∧
      s.mutex () = some false ∧ s.ktLock.readers = [true] :=
    ⟨_, rfl, rfl, rfl, rfl, rfl⟩
  obtain ⟨s, hs, htrue, hfalse, hmutex, hreaders⟩ := hrun
  have hreach : (machine Bool Unit).Reachable s :=
    Machine.reachable_of_run oneKernel_initial hs
  refine h s hreach Set.univ ⟨⟨true, trivial⟩, fun t _ => ⟨!t, trivial, ?_, ?_⟩⟩
  · cases t <;> decide
  · cases t with
    | true => exact .inr ⟨(), by rw [htrue]; rfl, hmutex⟩
    | false =>
      refine .inl ⟨.unique, by rw [hfalse]; rfl, ?_⟩
      rw [UpgradeMutex.Blocks, hreaders]
      exact List.mem_singleton_self true

end KernelLocks
end Clpkm
