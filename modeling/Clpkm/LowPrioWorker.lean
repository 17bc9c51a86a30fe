import Clpkm.Machine
import Clpkm.TaskKind
import Mathlib.Logic.Function.Basic

/-!
# Waiting in a low-priority process

A thread of a low-priority process that wants to run a task of kind `k` calls
`SchedStart(k)`, which blocks on the condition variable `CV[k]` while bit `k` of
`Bitmap` is set.  `LowPrioProcWorker` holds the lock while it handles whatever the
bus has to offer, each signal overwriting `Bitmap`; when the bus is empty it compares
`Bitmap` with the value of the previous round, drops the lock, notifies the
condition variables of the kinds whose bit went from 1 to 0, and polls.

The steps of the model are the regions guarded by `Mutex`; a region of a thread runs
from the lock to the return or to the wait, which releases the lock and blocks in one
step.  While the worker is inside its region no thread moves into one.  Spurious
wake-ups are allowed at any time.

The invariant (`BlockedOk`) says what a blocked thread may rely on in each phase of
the worker: that the old bitmap has its bit, that its notification is still to come,
or that the bitmap has its bit.  `no_lost_wakeup` reads off the last phase.
-/

namespace Clpkm
namespace LowPrioWorker

/-- A thread of the process, as far as `SchedStart` is concerned. -/
inductive Thread
  | idle
  /-- waiting on `CV[k]`, and not notified since its last test of the predicate -/
  | blocked (k : TaskKind)
  /-- woken up, and about to take the lock and test again -/
  | notified (k : TaskKind)
  /-- `SchedStart(k)` returned -/
  | returned (k : TaskKind)
  deriving DecidableEq, Repr

/-- Where `LowPrioProcWorker` is. -/
inductive Worker
  /-- the thread has not taken the lock for the first time -/
  | starting
  /-- calling `sd_bus_process`, with the lock held -/
  | processing
  /-- the lock is dropped; the kinds left to notify -/
  | notifying (clearedBitmap : TaskBitmap) (kinds : List TaskKind)
  /-- in `ppoll` -/
  | polling
  /-- `ppoll` returned; whether the termination event is set -/
  | polled (term : Bool)
  | stopped
  deriving DecidableEq, Repr

/-- A low-priority process. -/
structure State where
  bitmap : TaskBitmap
  oldBitmap : TaskBitmap
  worker : Worker
  thread : Nat → Thread

/-- The choices of the environment. -/
inductive Label
  /-- a thread calls `SchedStart` and gets the lock -/
  | schedStart (i : Nat) (k : TaskKind)
  /-- a waiting thread wakes up without a notification -/
  | spurious (i : Nat)
  /-- a thread that woke up gets the lock -/
  | resume (i : Nat)
  /-- the worker gets the lock -/
  | lock
  /-- `sd_bus_process` handles a message: a signal with a bitmap, or another one -/
  | process (runLevel : Option TaskBitmap)
  /-- `sd_bus_process` returns 0 -/
  | idle
  /-- the worker handles the next kind of its notification loop, or enters `ppoll` -/
  | notify
  /-- `ppoll` returns -/
  | poll (term : Bool)
  deriving DecidableEq, Repr

/-- The process at the creation of the worker, with the bitmap of `GetConfig`. -/
def State.init (bitmap : TaskBitmap) : State := ⟨bitmap, bitmap, .starting, fun _ => .idle⟩

/-- Nobody is inside a region guarded by `Mutex`; a region of a thread is one step. -/
def LockFree (s : State) : Prop := s.worker ≠ .processing

instance (s : State) : Decidable (LockFree s) := inferInstanceAs (Decidable (¬ _))

/-- The predicate of the wait, `Mask & ~Bitmap`. -/
def CanRun (bitmap : TaskBitmap) (k : TaskKind) : Prop := k.mask &&& ~~~bitmap ≠ 0#32

instance (bitmap : TaskBitmap) (k : TaskKind) : Decidable (CanRun bitmap k) :=
  inferInstanceAs (Decidable (¬ _))

/-- A thread tests the predicate under the lock and returns or blocks. -/
def test (s : State) (i : Nat) (k : TaskKind) : State :=
  let next := if CanRun s.bitmap k then Thread.returned k else Thread.blocked k
  { s with thread := Function.update s.thread i next }

/-- `CV[k].notify_all()`. -/
def notifyAll (thread : Nat → Thread) (k : TaskKind) : Nat → Thread :=
  fun i => if thread i = .blocked k then .notified k else thread i

/-- The bits that changed from 1 to 0 since the last round. -/
def clearedBitmap (s : State) : TaskBitmap := s.oldBitmap &&& (s.bitmap ^^^ BitVec.allOnes 32)

/-- One step of a thread or of the worker. -/
def step (s : State) : Label → Option State
  | .schedStart i k =>
    match s.thread i with
    | .idle | .returned _ => if LockFree s then some (test s i k) else none
    | _ => none
  | .spurious i =>
    match s.thread i with
    | .blocked k => some { s with thread := Function.update s.thread i (.notified k) }
    | _ => none
  | .resume i =>
    match s.thread i with
    | .notified k => if LockFree s then some (test s i k) else none
    | _ => none
  | .lock =>
    match s.worker with
    | .starting | .polled false => some { s with worker := .processing }
    | .polled true => some { s with worker := .stopped }
    | _ => none
  | .process runLevel =>
    if s.worker = .processing then some { s with bitmap := runLevel.getD s.bitmap } else none
  | .idle =>
    if s.worker = .processing then
      some { s with oldBitmap := s.bitmap, worker := .notifying (clearedBitmap s) TaskKind.all }
    else none
  | .notify =>
    match s.worker with
    | .notifying cleared (k :: kinds) =>
      some { s with
        thread := if cleared &&& k.mask ≠ 0#32 then notifyAll s.thread k else s.thread
        worker := .notifying cleared kinds }
    | .notifying _ [] => some { s with worker := .polling }
    | _ => none
  | .poll term => if s.worker = .polling then some { s with worker := .polled term } else none

/-- A low-priority process as a machine; it starts with any bitmap. -/
def machine : Machine State Label := ⟨fun s => ∃ bitmap, s = State.init bitmap, step⟩

/-! ## Tests of a bit -/

variable {s t : State}

theorem canRun_iff (bitmap : TaskBitmap) (k : TaskKind) :
    CanRun bitmap k ↔ bitmap.getLsbD k.val = false := by
  unfold CanRun
  rw [BitVec.and_comm, ne_eq, ← ne_eq, TaskKind.and_mask_ne_zero, BitVec.getLsbD_not,
    decide_eq_true k.val_lt, Bool.true_and, Bool.not_eq_true']

theorem getLsbD_clearedBitmap (s : State) (k : TaskKind) :
    (clearedBitmap s).getLsbD k.val = (s.oldBitmap.getLsbD k.val && !s.bitmap.getLsbD k.val) :=
  TaskKind.getLsbD_cleared _ _ _

/-! ## The invariant -/

/-- What a thread that waits for kind `k` relies on, by the phase of the worker. -/
def BlockedOk (bitmap oldBitmap : TaskBitmap) (k : TaskKind) : Worker → Prop
  | .processing => oldBitmap.getLsbD k.val = true
  | .notifying cleared kinds =>
    (k ∈ kinds ∧ cleared.getLsbD k.val = true) ∨ bitmap.getLsbD k.val = true
  | .starting | .polling | .polled _ | .stopped => bitmap.getLsbD k.val = true

/-- The invariant of a low-priority process. -/
structure Inv (s : State) : Prop where
  /-- Outside the worker's region the old bitmap is the bitmap. -/
  old : LockFree s → s.oldBitmap = s.bitmap
  blocked : ∀ i k, s.thread i = .blocked k → BlockedOk s.bitmap s.oldBitmap k s.worker

theorem inv_init (bitmap : TaskBitmap) : Inv (State.init bitmap) where
  old _ := rfl
  blocked := by intro i k h; cases h

/-- Outside the worker's region a set bit is all a waiting thread needs. -/
theorem blockedOk_of_bit (hfree : LockFree s) {k : TaskKind}
    (hbit : s.bitmap.getLsbD k.val = true) : BlockedOk s.bitmap s.oldBitmap k s.worker := by
  cases hw : s.worker with
  | processing => exact absurd hw hfree
  | notifying cleared kinds => exact Or.inr hbit
  | starting => exact hbit
  | polling => exact hbit
  | polled term => exact hbit
  | stopped => exact hbit

/-- A thread that tests the predicate blocks only while its bit is set. -/
theorem Inv.test (h : Inv s) (hfree : LockFree s) (i : Nat) (k : TaskKind) :
    Inv (test s i k) where
  old := h.old
  blocked := by
    intro j k' hj
    by_cases hij : j = i
    · subst hij
      simp only [LowPrioWorker.test, Function.update_self] at hj
      split at hj
      · cases hj
      · rename_i hrun
        cases hj
        rw [canRun_iff, Bool.not_eq_false] at hrun
        exact blockedOk_of_bit hfree hrun
    · simp only [LowPrioWorker.test, Function.update_of_ne hij] at hj
      exact h.blocked j k' hj

/-- A step of the worker that moves no thread. -/
theorem Inv.worker (h : Inv s) {bitmap oldBitmap : TaskBitmap} {w : Worker}
    (hold : w ≠ .processing → oldBitmap = bitmap)
    (hblocked : ∀ k, BlockedOk s.bitmap s.oldBitmap k s.worker → BlockedOk bitmap oldBitmap k w) :
    Inv ⟨bitmap, oldBitmap, w, s.thread⟩ where
  old := hold
  blocked i k hi := hblocked k (h.blocked i k hi)

/-- The notification of one kind. -/
theorem Inv.notify (h : Inv s) {cleared : TaskBitmap} {k : TaskKind} {kinds : List TaskKind}
    (hw : s.worker = .notifying cleared (k :: kinds)) :
    Inv { s with
      thread := if cleared &&& k.mask ≠ 0#32 then notifyAll s.thread k else s.thread
      worker := .notifying cleared kinds } where
  old _ := h.old (by rw [LockFree, hw]; exact fun h => by cases h)
  blocked := by
    intro i k' hi
    -- a thread that still waits waited before, and not for the notified kind
    have hbefore : s.thread i = .blocked k' ∧ (k' = k → ¬ cleared.getLsbD k.val = true) := by
      by_cases hm : cleared &&& k.mask ≠ 0#32
      · simp only [if_pos hm, notifyAll] at hi
        split at hi
        · cases hi
        · rename_i hne
          exact ⟨hi, fun hk => absurd (hk ▸ hi) hne⟩
      · simp only [if_neg hm] at hi
        exact ⟨hi, fun _ hc => hm ((TaskKind.and_mask_ne_zero cleared k).mpr hc)⟩
    have hok := h.blocked i k' hbefore.1
    rw [hw] at hok
    rcases hok with ⟨hmem, hc⟩ | hbit
    · rcases List.mem_cons.mp hmem with rfl | hmem
      · exact absurd hc (hbefore.2 rfl)
      · exact Or.inl ⟨hmem, hc⟩
    · exact Or.inr hbit

/-- **Step.**  Every step keeps the invariant. -/
theorem Inv.step (h : Inv s) {l : Label} (hs : step s l = some t) : Inv t := by
  cases l with
  | schedStart i k =>
    simp only [LowPrioWorker.step] at hs
    split at hs
    all_goals
      simp only [Option.ite_none_right_eq_some, Option.some.injEq, reduceCtorEq] at hs
    all_goals
      obtain ⟨hfree, rfl⟩ := hs
      exact h.test hfree i k
  | spurious i =>
    simp only [LowPrioWorker.step] at hs
    split at hs
    · rename_i k hi
      cases hs
      refine ⟨h.old, fun j k' hj => ?_⟩
      by_cases hij : j = i
      · subst hij
        simp at hj
      · exact h.blocked j k' (by simpa [Function.update_of_ne hij] using hj)
    · cases hs
  | resume i =>
    simp only [LowPrioWorker.step] at hs
    split at hs
    · rename_i k hi
      simp only [Option.ite_none_right_eq_some, Option.some.injEq] at hs
      obtain ⟨hfree, rfl⟩ := hs
      exact h.test hfree i k
    · cases hs
  | lock =>
    simp only [LowPrioWorker.step] at hs
    -- except while it processes messages the worker knows the bitmap
    have hkeep : s.worker ≠ .processing → ∀ k : TaskKind, s.bitmap.getLsbD k.val = true →
        s.oldBitmap.getLsbD k.val = true := fun hw k hb => h.old hw ▸ hb
    split at hs
    · rename_i hw
      cases hs
      refine h.worker (fun hp => absurd rfl hp) (fun k hok => ?_)
      rw [hw] at hok
      exact hkeep (by rw [hw]; decide) k hok
    · rename_i hw
      cases hs
      refine h.worker (fun hp => absurd rfl hp) (fun k hok => ?_)
      rw [hw] at hok
      exact hkeep (by rw [hw]; decide) k hok
    · rename_i hw
      cases hs
      refine h.worker (fun _ => h.old (by rw [LockFree, hw]; decide)) (fun k hok => ?_)
      rw [hw] at hok
      exact hok
    · cases hs
  | process runLevel =>
    simp only [LowPrioWorker.step, Option.ite_none_right_eq_some, Option.some.injEq] at hs
    obtain ⟨hw, rfl⟩ := hs
    refine h.worker (fun hp => absurd hw hp) (fun k hok => ?_)
    rw [hw] at hok ⊢
    exact hok
  -- a bit that has been cleared since then is among those whose threads will be notified
  | idle =>
    simp only [LowPrioWorker.step, Option.ite_none_right_eq_some, Option.some.injEq] at hs
    obtain ⟨hw, rfl⟩ := hs
    refine h.worker (fun _ => rfl) (fun k hok => ?_)
    rw [hw] at hok
    have hold : s.oldBitmap.getLsbD k.val = true := hok
    cases hb : s.bitmap.getLsbD k.val with
    | true => exact Or.inr hb
    | false =>
      refine Or.inl ⟨k.mem_all, ?_⟩
      rw [getLsbD_clearedBitmap, hold, hb]
      rfl
  | notify =>
    simp only [LowPrioWorker.step] at hs
    split at hs
    · rename_i hw
      cases hs
      exact h.notify hw
    · rename_i cleared hw
      cases hs
      refine h.worker (fun _ => h.old (by rw [LockFree, hw]; exact fun h => by cases h))
        (fun k hok => ?_)
      rw [hw] at hok
      rcases hok with ⟨hmem, _⟩ | hbit
      · cases hmem
      · exact hbit
    · cases hs
  | poll term =>
    simp only [LowPrioWorker.step, Option.ite_none_right_eq_some, Option.some.injEq] at hs
    obtain ⟨hw, rfl⟩ := hs
    refine h.worker (fun _ => h.old (by rw [LockFree, hw]; decide)) (fun k hok => ?_)
    rw [hw] at hok
    exact hok

theorem inv_of_reachable (hs : machine.Reachable s) : Inv s :=
  hs.invariant (fun _ ⟨_, h⟩ => h ▸ inv_init _) (fun _ _ _ h hstep => h.step hstep)

/-- Only `SchedStart` makes an idle thread one that waits or has waited. -/
theorem thread_of_step {l : Label} (h : step s l = some t) {i : Nat} (hi : t.thread i ≠ .idle) :
    s.thread i ≠ .idle ∨ ∃ k, l = .schedStart i k := by
  -- another thread stays as it is
  have hupdate : ∀ (j : Nat) (x : Thread), Function.update s.thread j x i ≠ .idle →
      i = j ∨ s.thread i ≠ .idle := by
    intro j x hx
    by_cases hij : i = j
    · exact .inl hij
    · rw [Function.update_of_ne hij] at hx
      exact .inr hx
  cases l with
  | schedStart j k =>
    simp only [step] at h
    split at h
    all_goals
      simp only [Option.ite_none_right_eq_some, Option.some.injEq, reduceCtorEq] at h
    all_goals
      obtain ⟨_, rfl⟩ := h
      rcases hupdate j _ hi with rfl | hne
      · exact .inr ⟨k, rfl⟩
      · exact .inl hne
  | spurious j =>
    simp only [step] at h
    split at h
    · rename_i k hj
      cases h
      rcases hupdate j _ hi with rfl | hne
      · exact .inl (by rw [hj]; exact fun h => by cases h)
      · exact .inl hne
    · cases h
  | resume j =>
    simp only [step] at h
    split at h
    · rename_i k hj
      simp only [Option.ite_none_right_eq_some, Option.some.injEq] at h
      obtain ⟨_, rfl⟩ := h
      rcases hupdate j _ hi with rfl | hne
      · exact .inl (by rw [hj]; exact fun h => by cases h)
      · exact .inl hne
    · cases h
  | lock =>
    simp only [step] at h
    split at h <;> cases h <;> exact .inl hi
  | process runLevel =>
    simp only [step, Option.ite_none_right_eq_some, Option.some.injEq] at h
    obtain ⟨_, rfl⟩ := h
    exact .inl hi
  | idle =>
    simp only [step, Option.ite_none_right_eq_some, Option.some.injEq] at h
    obtain ⟨_, rfl⟩ := h
    exact .inl hi
  | notify =>
    simp only [step] at h
    split at h
    · rename_i cleared k kinds hw
      cases h
      refine .inl (fun hidle => hi ?_)
      simp only
      split
      · simp only [notifyAll, hidle, reduceCtorEq, if_false]
      · exact hidle
    · cases h
      exact .inl hi
    · cases h
  | poll term =>
    simp only [step, Option.ite_none_right_eq_some, Option.some.injEq] at h
    obtain ⟨_, rfl⟩ := h
    exact .inl hi

/-! ## No lost wake-up -/

/-- The thread that tests its bit in the step. -/
def Label.testing : Label → Option Nat
  | .schedStart i _ | .resume i => some i
  | _ => none

/-- The test of the predicate is the only way to return. -/
theorem test_returned {i j : Nat} {k k' : TaskKind}
    (hafter : (test s j k').thread i = .returned k) :
    (i ≠ j ∧ s.thread i = .returned k) ∨ s.bitmap.getLsbD k.val = false := by
  by_cases hij : i = j
  · subst hij
    simp only [test, Function.update_self] at hafter
    split at hafter
    · rename_i hrun
      cases hafter
      exact .inr ((canRun_iff _ _).mp hrun)
    · cases hafter
  · simp only [test, Function.update_of_ne hij] at hafter
    exact .inl ⟨hij, hafter⟩

/-- A thread has returned before a step that is not its own, or the step held the lock and saw
the bit clear. -/
theorem returned_of_step {i : Nat} {k : TaskKind} {l : Label} (hs : step s l = some t)
    (hafter : t.thread i = .returned k) :
    (s.thread i = .returned k ∧ l.testing ≠ some i) ∨
      (LockFree s ∧ s.bitmap.getLsbD k.val = false) := by
  -- a thread that tests under the lock
  have htest : ∀ {j k'}, LockFree s → (test s j k').thread i = .returned k →
      (s.thread i = .returned k ∧ some j ≠ some i) ∨
        (LockFree s ∧ s.bitmap.getLsbD k.val = false) := by
    intro j k' hfree h
    rcases test_returned h with ⟨hij, hi⟩ | hbit
    · exact .inl ⟨hi, fun he => hij (Option.some.inj he).symm⟩
    · exact .inr ⟨hfree, hbit⟩
  cases l with
  | schedStart j k' =>
    simp only [step] at hs
    split at hs
    all_goals
      simp only [Option.ite_none_right_eq_some, Option.some.injEq, reduceCtorEq] at hs
    all_goals
      obtain ⟨hfree, rfl⟩ := hs
      exact htest hfree hafter
  | resume j =>
    simp only [step] at hs
    split at hs
    · simp only [Option.ite_none_right_eq_some, Option.some.injEq] at hs
      obtain ⟨hfree, rfl⟩ := hs
      exact htest hfree hafter
    · cases hs
  | spurious j =>
    refine .inl ⟨?_, Option.some_ne_none _ ∘ Eq.symm⟩
    simp only [step] at hs
    split at hs
    · cases hs
      by_cases hij : i = j
      · subst hij
        simp at hafter
      · simpa [Function.update_of_ne hij] using hafter
    · cases hs
  | lock =>
    refine .inl ⟨?_, Option.some_ne_none _ ∘ Eq.symm⟩
    simp only [step] at hs
    split at hs <;> cases hs <;> exact hafter
  | process runLevel =>
    refine .inl ⟨?_, Option.some_ne_none _ ∘ Eq.symm⟩
    simp only [step, Option.ite_none_right_eq_some, Option.some.injEq] at hs
    obtain ⟨_, rfl⟩ := hs
    exact hafter
  | idle =>
    refine .inl ⟨?_, Option.some_ne_none _ ∘ Eq.symm⟩
    simp only [step, Option.ite_none_right_eq_some, Option.some.injEq] at hs
    obtain ⟨_, rfl⟩ := hs
    exact hafter
  | notify =>
    refine .inl ⟨?_, Option.some_ne_none _ ∘ Eq.symm⟩
    simp only [step] at hs
    split at hs
    · cases hs
      simp only at hafter
      split at hafter
      · simp only [notifyAll] at hafter
        split at hafter
        · cases hafter
        · exact hafter
      · exact hafter
    · cases hs
      exact hafter
    · cases hs
  | poll term =>
    refine .inl ⟨?_, Option.some_ne_none _ ∘ Eq.symm⟩
    simp only [step, Option.ite_none_right_eq_some, Option.some.injEq] at hs
    obtain ⟨_, rfl⟩ := hs
    exact hafter

/-- **No lost wake-up.**  In every reachable state: while the worker polls, a thread
that waits for kind `k` without a notification since its last test finds bit `k` of
the bitmap set; and `SchedStart(k)` of a thread returns only in a step that held the lock and saw
the bit clear, which is every step of the thread after which it has returned, however often it
calls. -/
theorem no_lost_wakeup (s : State) (hs : machine.Reachable s) :
    (s.worker = .polling → ∀ i k, s.thread i = .blocked k → s.bitmap.getLsbD k.val = true) ∧
    (∀ l t i k, machine.step s l = some t → t.thread i = .returned k →
      (s.thread i = .returned k ∧ l.testing ≠ some i) ∨
        (LockFree s ∧ s.bitmap.getLsbD k.val = false)) := by
  refine ⟨fun hw i k hi => ?_, fun l t i k hstep => returned_of_step hstep⟩
  have hok := (inv_of_reachable hs).blocked i k hi
  rw [hw] at hok
  exact hok

/-- A thread blocks on a set bit while the worker polls; the bit is cleared in the next
batch, and the thread is notified and returns. -/
def wakeUpRun : List Label :=
  [.lock, .idle, .notify, .notify, .notify, .schedStart 0 .computing, .poll false, .lock,
    .process (some 0#32), .idle, .notify, .notify, .notify, .resume 0]

/-- After the run the worker polls again and nobody waits on a clear bit. -/
theorem no_lost_wakeup_wakeUpRun :
    ∃ s, machine.Reachable s ∧ s.thread 0 = .returned .computing ∧
      ∀ k, s.thread 0 = .blocked k → s.bitmap.getLsbD k.val = true := by
  let s := (machine.run (State.init 1#32) wakeUpRun).get (by decide)
  have hs : machine.Reachable s := Machine.reachable_of_run ⟨_, rfl⟩ (Option.some_get _).symm
  exact ⟨s, hs, by decide, (no_lost_wakeup s hs).1 (by decide) 0⟩

end LowPrioWorker
end Clpkm
