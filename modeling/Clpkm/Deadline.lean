import Mathlib.Data.List.Chain
import Mathlib.Tactic.Common

/-!
# Goals that every run comes to

`Deadline r goal n x` says that along the steps of `r` every run from `x` is at a goal after
at most `n` steps, unless it has ended before.  To bound the steps between two events of a
program one gives every state a number (`Deadline.head` is the rule) and reads the bound off
with `Deadline.length_le`.
-/

namespace Clpkm

universe u

variable {α : Type u} {r : α → α → Prop} {goal : α → Prop}

/-- Every run is at a goal after at most so many steps, or has ended. -/
def Deadline (r : α → α → Prop) (goal : α → Prop) : Nat → α → Prop
  | 0, x => goal x
  | n + 1, x => goal x ∨ ∀ y, r x y → Deadline r goal n y

namespace Deadline
variable {n m : Nat} {x y : α}

theorem of_goal (h : goal x) : Deadline r goal n x := by
  cases n with
  | zero => exact h
  | succ n => exact .inl h

/-- Whatever comes next has its deadline. -/
theorem head (h : ∀ y, r x y → Deadline r goal n y) : Deadline r goal (n + 1) x := .inr h

theorem mono (h : Deadline r goal n x) (hnm : n ≤ m) : Deadline r goal m x := by
  induction n generalizing m x with
  | zero => exact of_goal h
  | succ n ih =>
    obtain ⟨m, rfl⟩ := Nat.exists_eq_succ_of_ne_zero (Nat.ne_zero_of_lt hnm)
    rcases h with h | h
    · exact .inl h
    · exact .inr fun y hy => ih (h y hy) (Nat.le_of_succ_le_succ hnm)

/-- A step that does not start at a goal leaves a step less. -/
theorem step (h : Deadline r goal n x) (hx : ¬goal x) (hy : r x y) :
    ∃ m, m + 1 = n ∧ Deadline r goal m y := by
  cases n with
  | zero => exact absurd h hx
  | succ n => exact ⟨n, rfl, h.resolve_left hx y hy⟩

/-- **The bound**: a run that passes no goal is no longer than the deadline. -/
theorem length_le {path : List α} (h : Deadline r goal n x) (hpath : List.IsChain r (x :: path))
    (hgoal : ∀ z ∈ (x :: path).dropLast, ¬goal z) : path.length ≤ n := by
  induction path generalizing n x with
  | nil => exact Nat.zero_le n
  | cons y path ih =>
    obtain ⟨hy, hpath⟩ := List.isChain_cons_cons.mp hpath
    obtain ⟨m, rfl, hm⟩ := h.step (hgoal x List.mem_cons_self) hy
    exact Nat.succ_le_succ (ih hm hpath fun z hz => hgoal z (List.mem_cons_of_mem x hz))

end Deadline
end Clpkm
