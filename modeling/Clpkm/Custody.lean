import Mathlib.Logic.ExistsUnique
import Mathlib.Logic.Function.Basic

/-!
# Objects that pass from place to place

Objects are made one after another and are numbered.  A `Ledger` says of each object in
which place it is: it is in one place from the moment it is made, and passes from one
place to another.

`Custody` compares a system with a ledger: each place of the system holds as many
references to an object as the ledger says, one or none.  Making an object and passing one
on keep it (`Custody.make`, `Custody.pass`), and it says that no two places share an object
and that no place has an object twice (`Custody.existsUnique`, `Custody.le_one`).
-/

namespace Clpkm

universe u

/-- Where the objects made so far are. -/
structure Ledger (P : Type u) where
  /-- the number of objects made so far -/
  made : Nat
  place : Nat → Option P
  isSome_place : ∀ o, (place o).isSome = true ↔ o < made

namespace Ledger
variable {P : Type u}

/-- Before anything is made. -/
def empty : Ledger P := ⟨0, fun _ => none, fun o => by simp⟩

/-- The next object is made in the place. -/
def make (L : Ledger P) (p : P) : Ledger P where
  made := L.made + 1
  place := Function.update L.place L.made (some p)
  isSome_place o := by
    by_cases ho : o = L.made
    · rw [ho, Function.update_self]
      exact iff_of_true rfl (Nat.lt_succ_self _)
    · rw [Function.update_of_ne ho, L.isSome_place]
      omega

/-- An object goes to the place. -/
def move (L : Ledger P) (o : Nat) (p : P) (h : o < L.made) : Ledger P where
  made := L.made
  place := Function.update L.place o (some p)
  isSome_place x := by
    by_cases hx : x = o
    · rw [hx, Function.update_self]
      exact iff_of_true rfl h
    · rw [Function.update_of_ne hx, L.isSome_place]

end Ledger

/-- How often a slot for one reference refers to the object. -/
def slotCount (g : Option Nat) (o : Nat) : Nat := if g = some o then 1 else 0

@[simp] theorem slotCount_none (o : Nat) : slotCount none o = 0 := rfl

@[simp] theorem slotCount_self (o : Nat) : slotCount (some o) o = 1 := if_pos rfl

theorem slotCount_of_ne {o x : Nat} (h : x ≠ o) : slotCount (some o) x = 0 :=
  if_neg fun he => h (Option.some.inj he).symm

theorem slotCount_ne_zero {g : Option Nat} {o : Nat} : slotCount g o ≠ 0 ↔ g = some o := by
  unfold slotCount
  by_cases h : g = some o
  · rw [if_pos h]
    exact iff_of_true Nat.one_ne_zero h
  · rw [if_neg h]
    exact iff_of_false (fun h0 => h0 rfl) h

/-- The places hold the `n` objects made so far as a ledger says. -/
def Custody {P : Type u} [DecidableEq P] (held : P → Nat → Nat) (n : Nat) : Prop :=
  ∃ L : Ledger P, L.made = n ∧ ∀ p o, held p o = if L.place o = some p then 1 else 0

namespace Custody
variable {P : Type u} [DecidableEq P] {held held' : P → Nat → Nat} {n o : Nat} {p q : P}

theorem empty (h : ∀ p o, held p o = 0) : Custody held 0 :=
  ⟨.empty, rfl, fun p o => (h p o).trans (if_neg nofun).symm⟩

/-- Whatever a place holds has been made. -/
theorem lt_of_ne_zero (h : Custody held n) (hp : held p o ≠ 0) : o < n := by
  obtain ⟨L, rfl, hL⟩ := h
  rw [hL] at hp
  by_cases ho : L.place o = some p
  · exact (L.isSome_place o).mp (by rw [ho]; rfl)
  · exact absurd (if_neg ho) hp

/-- No two places hold one object. -/
theorem eq_of_ne_zero (h : Custody held n) (hp : held p o ≠ 0) (hq : held q o ≠ 0) : p = q := by
  obtain ⟨L, -, hL⟩ := h
  rw [hL] at hp hq
  by_cases hop : L.place o = some p
  · by_cases hoq : L.place o = some q
    · exact Option.some.inj (hop.symm.trans hoq)
    · exact absurd (if_neg hoq) hq
  · exact absurd (if_neg hop) hp

/-- No place holds an object twice. -/
theorem le_one (h : Custody held n) (p : P) (o : Nat) : held p o ≤ 1 := by
  obtain ⟨L, -, hL⟩ := h
  rw [hL]
  split <;> omega

/-- **Every object that has been made is in one place.** -/
theorem existsUnique (h : Custody held n) (ho : o < n) : ∃! p, held p o = 1 := by
  obtain ⟨L, rfl, hL⟩ := id h
  obtain ⟨p, hp⟩ := Option.isSome_iff_exists.mp ((L.isSome_place o).mpr ho)
  have h1 : held p o = 1 := (hL p o).trans (if_pos hp)
  refine ⟨p, h1, fun q (hq : held q o = 1) => ?_⟩
  have hp0 : held p o ≠ 0 := by omega
  have hq0 : held q o ≠ 0 := by omega
  exact h.eq_of_ne_zero hq0 hp0

/-- The next object is made. -/
theorem make (h : Custody held n) (p : P) (hp : ∀ o, held' p o = held p o + slotCount (some n) o)
    (hr : ∀ r, r ≠ p → ∀ o, held' r o = held r o) : Custody held' (n + 1) := by
  obtain ⟨L, rfl, hL⟩ := h
  have hfresh : L.place L.made = none :=
    Option.not_isSome_iff_eq_none.mp fun h => absurd ((L.isSome_place _).mp h) (Nat.lt_irrefl _)
  refine ⟨L.make p, rfl, fun r o => ?_⟩
  show held' r o = if Function.update L.place L.made (some p) o = some r then 1 else 0
  by_cases ho : o = L.made
  · rw [ho, Function.update_self]
    by_cases hrp : r = p
    · rw [hrp, hp, hL, hfresh, slotCount_self, if_neg nofun, if_pos rfl]
    · rw [hr r hrp, hL, hfresh, if_neg nofun, if_neg fun he => hrp (Option.some.inj he).symm]
  · rw [Function.update_of_ne ho, ← hL]
    by_cases hrp : r = p
    · rw [hrp, hp, slotCount_of_ne ho, Nat.add_zero]
    · exact hr r hrp o

/-- **What a slot of one place refers to goes to another place.** -/
theorem pass (h : Custody held n) (g : Option Nat) (hpq : p ≠ q)
    (hp : ∀ o, held' p o + slotCount g o = held p o)
    (hq : ∀ o, held' q o = held q o + slotCount g o)
    (hr : ∀ r, r ≠ p → r ≠ q → ∀ o, held' r o = held r o) : Custody held' n := by
  cases g with
  | none =>
    suffices heq : held' = held by rwa [heq]
    funext r o
    by_cases hrp : r = p
    · rw [hrp]
      exact hp o
    · by_cases hrq : r = q
      · rw [hrq]
        exact hq o
      · exact hr r hrp hrq o
  | some x =>
    have hx : held p x ≠ 0 := by
      rw [← hp, slotCount_self]
      omega
    have hlt := h.lt_of_ne_zero hx
    have hle := h.le_one p x
    obtain ⟨L, rfl, hL⟩ := h
    have hpx : L.place x = some p := by
      by_contra hne
      exact hx ((hL p x).trans (if_neg hne))
    refine ⟨L.move x q hlt, rfl, fun r o => ?_⟩
    show held' r o = if Function.update L.place x (some q) o = some r then 1 else 0
    by_cases ho : o = x
    · subst ho
      rw [Function.update_self]
      by_cases hrq : r = q
      · rw [hrq, hq, hL, hpx, slotCount_self, if_neg fun he => hpq (Option.some.inj he), if_pos rfl]
      · rw [if_neg fun he => hrq (Option.some.inj he).symm]
        by_cases hrp : r = p
        · have := hp o
          rw [slotCount_self] at this
          rw [hrp]
          omega
        · rw [hr r hrp hrq, hL, hpx, if_neg fun he => hrp (Option.some.inj he).symm]
    · rw [Function.update_of_ne ho, ← hL]
      by_cases hrp : r = p
      · have := hp o
        rw [slotCount_of_ne ho] at this
        rw [hrp]
        omega
      · by_cases hrq : r = q
        · rw [hrq, hq, slotCount_of_ne ho, Nat.add_zero]
        · exact hr r hrp hrq o

end Custody
end Clpkm
