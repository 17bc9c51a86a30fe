import Clpkm.Slots
import Mathlib.Algebra.BigOperators.Group.List.Basic
import Mathlib.Data.List.Forall2

/-!
# Numbers in several radices

A row of digits, each below the radix of its place, is the number that has them from the
lowest place on.  Rows of digits and the numbers below the product of the radices
correspond to each other (`value_lt`, `value_inj`, `exists_digits`), and `next` steps
from each row to the one with the next number, as an odometer does (`next_eq_some`,
`next_eq_none`).
-/

namespace Clpkm
namespace MixedRadix

/-- One digit for each place. -/
def Digits (radices digits : List Nat) : Prop := List.Forall₂ (fun n d => d < n) radices digits

/-- The number with these digits. -/
def value : List Nat → List Nat → Nat
  | n :: ns, d :: ds => value ns ds * n + d
  | _, _ => 0

/-- The odometer: reset the leading places that are full and count the next one up. -/
def next : List Nat → List Nat → Option (List Nat)
  | n :: ns, d :: ds => if d = n - 1 then (next ns ds).map (0 :: ·) else some ((d + 1) :: ds)
  | _, _ => none

variable {ns ds es : List Nat}

theorem value_lt (h : Digits ns ds) : value ns ds < ns.prod := by
  induction h with
  | nil => exact Nat.one_pos
  | @cons n d ns ds hd _ ih =>
    rw [List.prod_cons, Nat.mul_comm n]
    exact linear_lt ih hd

theorem value_inj (hds : Digits ns ds) (hes : Digits ns es) (h : value ns ds = value ns es) :
    ds = es := by
  induction hds generalizing es with
  | nil =>
    cases hes
    rfl
  | @cons n d ns ds hd _ ih =>
    obtain ⟨e, es, he, htl, rfl⟩ := List.forall₂_cons_left_iff.mp hes
    obtain ⟨htail, hhead⟩ := linear_inj hd he h
    rw [hhead, ih htl htail]

theorem exists_digits {v : Nat} (h : v < ns.prod) : ∃ ds, Digits ns ds ∧ value ns ds = v := by
  induction ns generalizing v with
  | nil =>
    rw [List.prod_nil] at h
    exact ⟨[], .nil, (Nat.lt_one_iff.mp h).symm⟩
  | cons n ns ih =>
    rw [List.prod_cons] at h
    have hn : 0 < n := Nat.pos_of_ne_zero fun h0 => by
      rw [h0, Nat.zero_mul] at h
      exact absurd h (Nat.not_lt_zero v)
    obtain ⟨ds, hds, hv⟩ := ih (Nat.div_lt_of_lt_mul h)
    refine ⟨v % n :: ds, .cons (Nat.mod_lt v hn) hds, ?_⟩
    rw [value, hv, Nat.mul_comm]
    exact Nat.div_add_mod v n

/-- A row of zeros is the number 0. -/
theorem value_zeros {α : Type} (ns : List Nat) (row : List α) :
    value ns (row.map fun _ => 0) = 0 := by
  induction ns generalizing row with
  | nil => rfl
  | cons n ns ih =>
    cases row with
    | nil => rfl
    | cons _ row => rw [List.map_cons, value, ih, Nat.zero_mul]

theorem next_eq_some (h : Digits ns ds) (hnext : next ns ds = some es) :
    Digits ns es ∧ value ns es = value ns ds + 1 := by
  induction h generalizing es with
  | nil => cases hnext
  | @cons n d ns ds hd hds ih =>
    rw [next] at hnext
    split at hnext
    · obtain ⟨es, htail, rfl⟩ := Option.map_eq_some_iff.mp hnext
      obtain ⟨hes, hv⟩ := ih htail
      refine ⟨.cons (by omega) hes, ?_⟩
      rw [value, value, hv, Nat.succ_mul]
      omega
    · cases hnext
      exact ⟨.cons (by omega) hds, rfl⟩

/-- The odometer ends at the greatest number. -/
theorem next_eq_none (h : Digits ns ds) (hnext : next ns ds = none) :
    value ns ds + 1 = ns.prod := by
  induction h with
  | nil => rfl
  | @cons n d ns ds hd hds ih =>
    rw [next] at hnext
    split at hnext
    · have hv := ih (Option.map_eq_none_iff.mp hnext)
      rw [List.prod_cons, ← hv, value, Nat.mul_succ, Nat.mul_comm n]
      omega
    · cases hnext

end MixedRadix
end Clpkm
