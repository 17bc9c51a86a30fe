import Mathlib.Data.List.Basic
import Mathlib.Tactic.Common

/-!
# Guarded state machines

Every concurrent part of this development is a `Machine`: a set of initial
states and a step function that takes the label of a step, which carries every
choice of the environment (who moves, what a call returned), and answers the next
state, or `none` when the step is not enabled.

`ReachableBy C` is reachability through steps that all meet the condition `C` on
the state before the step and the label of the step; `Reachable` leaves every
step in.  `ReachableBy.invariant` is the one induction over runs that the
safety theorems use: what holds initially and is kept by every step that meets
`C` holds in every state so reached.  `run` executes a list of labels, so that a
concrete run can be evaluated, and `Machine.reachable_of_run` turns it into reachability.
-/

namespace Clpkm

universe u v

/-- A state machine whose labels carry every choice of its environment. -/
structure Machine (State : Type u) (Label : Type v) where
  /-- The states a run may start in. -/
  Initial : State → Prop
  /-- The state after a step with this label, `none` if the step is not enabled. -/
  step : State → Label → Option State

namespace Machine
variable {State : Type u} {Label : Type v} (M : Machine State Label)

/-- Reachable through steps that all meet `C`. -/
inductive ReachableBy (C : State → Label → Prop) : State → Prop
  | initial {s : State} (h : M.Initial s) : ReachableBy C s
  | step {s t : State} {l : Label} (hs : ReachableBy C s) (hc : C s l)
      (h : M.step s l = some t) : ReachableBy C t

/-- Reachable through any steps. -/
def Reachable (s : State) : Prop := M.ReachableBy (fun _ _ => True) s

variable {M} {C D : State → Label → Prop}

/-- **The invariant rule.**  What every initial state satisfies and every step
meeting `C` keeps is true in every state reachable by such steps. -/
theorem ReachableBy.invariant {I : State → Prop} {s : State} (hs : M.ReachableBy C s)
    (h0 : ∀ s, M.Initial s → I s)
    (hstep : ∀ s l t, I s → C s l → M.step s l = some t → I t) : I s := by
  induction hs with
  | initial h => exact h0 _ h
  | step _ hc h ih => exact hstep _ _ _ ih hc h

/-- The invariant rule for unrestricted runs. -/
theorem Reachable.invariant {I : State → Prop} {s : State} (hs : M.Reachable s)
    (h0 : ∀ s, M.Initial s → I s)
    (hstep : ∀ s l t, I s → M.step s l = some t → I t) : I s :=
  ReachableBy.invariant hs h0 (fun s l t hi _ h => hstep s l t hi h)

theorem ReachableBy.mono {s : State} (hs : M.ReachableBy C s)
    (hCD : ∀ s l, C s l → D s l) : M.ReachableBy D s := by
  induction hs with
  | initial h => exact .initial h
  | step _ hc h ih => exact .step ih (hCD _ _ hc) h

theorem ReachableBy.reachable {s : State} (hs : M.ReachableBy C s) : M.Reachable s :=
  hs.mono (fun _ _ _ => trivial)

theorem Reachable.step {s t : State} {l : Label} (hs : M.Reachable s)
    (h : M.step s l = some t) : M.Reachable t :=
  ReachableBy.step hs trivial h

/-! ## Progress -/

variable (M) in
/-- Some step is enabled. -/
def Enabled (s : State) : Prop := ∃ l t, M.step s l = some t

/-- If every step makes a measure smaller, some run goes on until no step is enabled. -/
theorem Reachable.exists_not_enabled {s : State} (hs : M.Reachable s) (μ : State → Nat)
    (hμ : ∀ s l t, M.Reachable s → M.step s l = some t → μ t < μ s) :
    ∃ t, M.Reachable t ∧ ¬M.Enabled t := by
  induction hn : μ s using Nat.strongRecOn generalizing s with
  | ind n ih =>
    by_cases he : M.Enabled s
    · obtain ⟨l, t, ht⟩ := he
      exact ih (μ t) (hn ▸ hμ s l t hs ht) (hs.step ht) rfl
    · exact ⟨s, hs, he⟩

/-! ## Executable runs -/

variable (M) in
/-- Run a list of labels; `none` as soon as one of them is not enabled. -/
def run (s : State) (ls : List Label) : Option State := ls.foldlM M.step s

@[simp] theorem run_nil (s : State) : M.run s [] = some s := rfl

theorem run_cons (s : State) (l : Label) (ls : List Label) :
    M.run s (l :: ls) = (M.step s l).bind (fun t => M.run t ls) := rfl

theorem run_append (s : State) (ls ls' : List Label) :
    M.run s (ls ++ ls') = (M.run s ls).bind (fun t => M.run t ls') := by
  simp only [run, List.foldlM_append]
  rfl

/-- A run whose labels meet the condition in every state continues a run that does. -/
theorem ReachableBy.run {s t : State} {ls : List Label} (hs : M.ReachableBy C s)
    (hc : ∀ l ∈ ls, ∀ u, C u l) (h : M.run s ls = some t) : M.ReachableBy C t := by
  induction ls generalizing s with
  | nil =>
    rw [run_nil] at h
    exact Option.some.inj h ▸ hs
  | cons l ls ih =>
    rw [run_cons] at h
    obtain ⟨u, hu, ht⟩ := Option.bind_eq_some_iff.mp h
    exact ih (hs.step (hc l List.mem_cons_self s) hu)
      (fun l' hl' => hc l' (List.mem_cons_of_mem l hl')) ht

variable (M) in
/-- Run a list of labels as long as a condition is met that can be computed. -/
def runIf (c : State → Label → Bool) (s : State) (ls : List Label) : Option State :=
  ls.foldlM (fun s l => if c s l then M.step s l else none) s

/-- What is computed under a condition is reachable under the condition. -/
theorem ReachableBy.runIf {c : State → Label → Bool} {s t : State} {ls : List Label}
    (hs : M.ReachableBy C s) (hc : ∀ s l, c s l = true → C s l)
    (h : M.runIf c s ls = some t) : M.ReachableBy C t ∧ M.run s ls = some t := by
  induction ls generalizing s with
  | nil => exact ⟨Option.some.inj h ▸ hs, h⟩
  | cons l ls ih =>
    obtain ⟨u, hu, ht⟩ := Option.bind_eq_some_iff.mp h
    simp only [Option.ite_none_right_eq_some] at hu
    obtain ⟨hreach, hrun⟩ := ih (hs.step (hc s l hu.1) hu.2) ht
    refine ⟨hreach, ?_⟩
    rw [run_cons, hu.2]
    exact hrun

/-- A run started in a reachable state ends in a reachable state. -/
theorem Reachable.run {s t : State} {ls : List Label} (hs : M.Reachable s)
    (h : M.run s ls = some t) : M.Reachable t :=
  ReachableBy.run hs (fun _ _ _ => trivial) h

/-- A run from an initial state ends in a reachable state. -/
theorem reachable_of_run {s t : State} {ls : List Label} (h0 : M.Initial s)
    (h : M.run s ls = some t) : M.Reachable t :=
  Reachable.run (.initial h0) h

/-- **The potential rule.**  Labels of one kind are paid for by a potential that labels of
another kind may raise, each by at most a bound. -/
theorem countP_run_le {s t : State} {ls : List Label} {I : State → Prop} (μ : State → Nat)
    (p q : Label → Bool) (bound : Nat)
    (hμ : ∀ s l t, I s → l ∈ ls → M.step s l = some t →
      I t ∧ μ t + (if p l then 1 else 0) ≤ μ s + if q l then bound else 0)
    (hs : I s) (h : M.run s ls = some t) :
    I t ∧ μ t + ls.countP p ≤ μ s + bound * ls.countP q := by
  induction ls generalizing s with
  | nil =>
    rw [run_nil, Option.some.injEq] at h
    subst h
    exact ⟨hs, Nat.le_refl _⟩
  | cons l ls ih =>
    rw [run_cons] at h
    obtain ⟨u, hu, ht⟩ := Option.bind_eq_some_iff.mp h
    obtain ⟨hI, hlt⟩ := hμ s l u hs List.mem_cons_self hu
    obtain ⟨hIt, hle⟩ := ih (fun s l t hs hl => hμ s l t hs (List.mem_cons_of_mem _ hl)) hI ht
    refine ⟨hIt, ?_⟩
    rw [List.countP_cons, List.countP_cons, Nat.mul_add]
    cases hq : q l <;> simp only [hq, if_true, Bool.false_eq_true, if_false] at hlt ⊢ <;> omega

/-- If every step from a state with the invariant keeps it and makes a measure smaller, a run
keeps it and has at most as many steps as the measure says. -/
theorem length_run_le_of_invariant {s t : State} {ls : List Label} {I : State → Prop}
    (μ : State → Nat) (hμ : ∀ s l t, I s → M.step s l = some t → I t ∧ μ t < μ s) (hs : I s)
    (h : M.run s ls = some t) : I t ∧ ls.length ≤ μ s := by
  obtain ⟨ht, hle⟩ := countP_run_le (I := I) μ (fun _ => true) (fun _ => false) 0
    (fun s l t hs _ hstep => hμ s l t hs hstep) hs h
  rw [List.countP_true] at hle
  exact ⟨ht, by omega⟩

/-- The same for a measure that every step makes smaller. -/
theorem length_run_le {s t : State} {ls : List Label} (μ : State → Nat)
    (hμ : ∀ s l t, M.step s l = some t → μ t < μ s) (h : M.run s ls = some t) :
    ls.length ≤ μ s :=
  (length_run_le_of_invariant (I := fun _ => True) μ
    (fun s l t _ hstep => ⟨trivial, hμ s l t hstep⟩) trivial h).2

/-- Every reachable state is the end of a run. -/
theorem Reachable.exists_run {t : State} (ht : M.Reachable t) :
    ∃ s ls, M.Initial s ∧ M.run s ls = some t := by
  induction ht with
  | initial h => exact ⟨_, [], h, rfl⟩
  | @step s t l _ _ h ih =>
    obtain ⟨s₀, ls, h0, hr⟩ := ih
    refine ⟨s₀, ls ++ [l], h0, ?_⟩
    rw [run_append, hr]
    show (M.step s l).bind (fun u => some u) = some t
    rw [h]
    rfl

end Machine
end Clpkm
