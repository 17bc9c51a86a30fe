import Mathlib.Data.List.Nodup
import Mathlib.Data.Set.Basic
import Mathlib.Logic.Function.Basic

/-!
# Locks and deadlock

A thread that cannot have a lock waits for the threads that hold it.  A set of threads is
deadlocked when each of its members waits for another one.  There is none if whoever is
waited for has a smaller rank than whoever waits (`not_deadlocked`).

`UpgradeMutex` can be held by many readers, by one upgrader at the same time, or by one
writer alone.  An upgrader turns into the writer in two steps: from the first on nobody
else gets the lock, the second waits until the last reader is gone.  `Blocks` says whom
each of the three ways to ask for the lock waits for.  `OwnedBy` is the invariant of a
lock with one holder: its owner is the one thread whose state says that it holds it.
-/

namespace Clpkm

universe u

/-- Every thread of the set waits for another thread of the set. -/
def Deadlocked {T : Type u} (waitsFor : T → T → Prop) (D : Set T) : Prop :=
  D.Nonempty ∧ ∀ t ∈ D, ∃ u ∈ D, u ≠ t ∧ waitsFor t u

/-- Threads that wait only for threads of smaller rank are not deadlocked. -/
theorem not_deadlocked {T : Type u} {waitsFor : T → T → Prop} (rank : T → Nat)
    (h : ∀ t u, u ≠ t → waitsFor t u → rank u < rank t) (D : Set T) :
    ¬Deadlocked waitsFor D := by
  rintro ⟨⟨t, ht⟩, hD⟩
  induction hn : rank t using Nat.strongRecOn generalizing t with
  | ind n ih =>
    obtain ⟨u, hu, hne, hw⟩ := hD t ht
    exact ih (rank u) (hn ▸ h t u hne hw) u hu rfl

/-- The owner of a lock is the one thread in whose state it is held. -/
def OwnedBy {T S : Type u} (holds : S → Prop) (owner : Option T) (f : T → S) : Prop :=
  ∀ t, owner = some t ↔ holds (f t)

namespace OwnedBy
variable {T S : Type u} [DecidableEq T] {owner : Option T} {f : T → S} {holds : S → Prop}
  {t : T} {a : S}

/-- A thread moves without taking or giving back the lock. -/
theorem keep (h : OwnedBy holds owner f) (ha : holds a ↔ holds (f t)) :
    OwnedBy holds owner (Function.update f t a) := by
  intro u
  by_cases hu : u = t
  · rw [hu, Function.update_self]
    exact (h t).trans ha.symm
  · rw [Function.update_of_ne hu]
    exact h u

/-- A thread takes the lock. -/
theorem take (h : OwnedBy holds none f) (ha : holds a) :
    OwnedBy holds (some t) (Function.update f t a) := by
  intro u
  by_cases hu : u = t
  · rw [hu, Function.update_self]
    exact iff_of_true rfl ha
  · rw [Function.update_of_ne hu]
    exact iff_of_false (fun he => hu (Option.some.inj he).symm) fun hf => nomatch (h u).mpr hf

/-- The owner gives the lock back. -/
theorem drop (h : OwnedBy holds owner f) (ht : holds (f t)) (ha : ¬holds a) :
    OwnedBy holds none (Function.update f t a) := by
  intro u
  by_cases hu : u = t
  · rw [hu, Function.update_self]
    exact iff_of_false nofun ha
  · rw [Function.update_of_ne hu]
    refine iff_of_false nofun fun hf => hu ?_
    have := ((h u).mpr hf).symm.trans ((h t).mpr ht)
    exact Option.some.inj this

end OwnedBy

/-- `boost::upgrade_mutex`. -/
structure UpgradeMutex (T : Type u) where
  readers : List T
  upgrader : Option T
  /-- the thread that has the lock alone or waits for the last reader -/
  writer : Option T
  deriving DecidableEq, Repr

/-- The ways to wait for the lock. -/
inductive Mode
  | shared
  | upgrade
  /-- the writer waits for the last reader -/
  | unique
  deriving DecidableEq, Repr

namespace UpgradeMutex
variable {T : Type u}

/-- The lock when nobody holds it. -/
def free : UpgradeMutex T := ⟨[], none, none⟩

/-- A thread that asks for the lock in this way waits for `u`. -/
def Blocks (m : UpgradeMutex T) (u : T) : Mode → Prop
  | .shared => m.writer = some u
  | .upgrade => m.writer = some u ∨ m.upgrader = some u
  | .unique => u ∈ m.readers

/-- The lock can be had in this way. -/
def ready (m : UpgradeMutex T) : Mode → Bool
  | .shared => m.writer.isNone
  | .upgrade => m.writer.isNone && m.upgrader.isNone
  | .unique => m.readers.isEmpty

/-- Whoever cannot have the lock waits for somebody. -/
theorem ready_iff (m : UpgradeMutex T) (mode : Mode) :
    m.ready mode = true ↔ ∀ u, ¬m.Blocks u mode := by
  obtain ⟨readers, upgrader, writer⟩ := m
  cases mode with
  | shared =>
    cases writer with
    | none => exact iff_of_true rfl nofun
    | some u => exact iff_of_false nofun fun h => h u rfl
  | upgrade =>
    cases writer with
    | none =>
      cases upgrader with
      | none => exact iff_of_true rfl fun u h => h.elim nofun nofun
      | some u => exact iff_of_false nofun fun h => h u (.inr rfl)
    | some u => exact iff_of_false nofun fun h => h u (.inl rfl)
  | unique =>
    cases readers with
    | nil => exact iff_of_true rfl fun _ => List.not_mem_nil
    | cons u us => exact iff_of_false nofun fun h => h u List.mem_cons_self

variable [DecidableEq T]

def lockShared (m : UpgradeMutex T) (t : T) : UpgradeMutex T :=
  { m with readers := t :: m.readers }

def unlockShared (m : UpgradeMutex T) (t : T) : UpgradeMutex T :=
  { m with readers := m.readers.erase t }

def lockUpgrade (m : UpgradeMutex T) (t : T) : UpgradeMutex T := { m with upgrader := some t }

def unlockUpgrade (m : UpgradeMutex T) : UpgradeMutex T := { m with upgrader := none }

/-- The upgrader shuts the others out. -/
def upgradeToUnique (m : UpgradeMutex T) (t : T) : UpgradeMutex T :=
  { m with upgrader := none, writer := some t }

/-- The writer becomes the upgrader again. -/
def uniqueToUpgrade (m : UpgradeMutex T) (t : T) : UpgradeMutex T :=
  { m with upgrader := some t, writer := none }

end UpgradeMutex
end Clpkm
