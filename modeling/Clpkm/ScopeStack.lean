import Mathlib.Data.Set.Insert

/-!
# Scopes as a stack of sets

A new scope pushes an empty set, an element is added to the innermost scope, and leaving a
scope drops its set with all that was added there.

`mem_tracked_run` says the same without a stack: an element is there if it was added by one of
the calls, and nothing after that call has left the scope the call was in.

`Level` is where an element is when each one is listed only with the outermost of the scopes
that have it, which are numbered from the outside.
-/

namespace Clpkm
namespace ScopeStack

universe u

/-- What is done to the scopes. -/
inductive Call (α : Type u)
  | newScope
  | add (a : α)
  | popScope
  deriving DecidableEq, Repr

variable {α : Type u} {a b : α} {c : Call α} {cs : List (Call α)} {S : Set α}
  {st : List (Set α)} {m n d : Nat}

/-- The scopes that are open, the innermost first. -/
def step : List (Set α) → Call α → List (Set α)
  | st, .newScope => ∅ :: st
  | S :: st, .add a => insert a S :: st
  | _ :: st, .popScope => st
  | [], _ => []

def run (st : List (Set α)) (cs : List (Call α)) : List (Set α) := cs.foldl step st

/-- What was added in a scope that is open. -/
def tracked (st : List (Set α)) : Set α := {a | ∃ S ∈ st, a ∈ S}

/-- The calls do not leave the scope that is the `n`-th one from inside. -/
def StillOpen : Nat → List (Call α) → Prop
  | _, [] => True
  | n, .newScope :: cs => StillOpen (n + 1) cs
  | n, .add _ :: cs => StillOpen n cs
  | 0, .popScope :: _ => False
  | n + 1, .popScope :: cs => StillOpen n cs

/-- The element is added in a scope that is still open after the calls. -/
def AddedInOpen (cs : List (Call α)) (a : α) : Prop :=
  ∃ pre post, cs = pre ++ .add a :: post ∧ StillOpen 0 post

/-- The calls, which begin in the `n`-th scope from outside, never leave the outermost scope and
never go deeper than `m`. -/
def WellNested (m : Nat) : Nat → List (Call α) → Prop
  | _, [] => True
  | n, .newScope :: cs => n < m ∧ WellNested m (n + 1) cs
  | n, .add _ :: cs => WellNested m n cs
  | 0, .popScope :: _ => False
  | n + 1, .popScope :: cs => WellNested m n cs

theorem run_cons (st : List (Set α)) (c : Call α) (cs : List (Call α)) :
    run st (c :: cs) = run (step st c) cs := rfl

/-- Calls that are well nested do not leave the scope they begin in, as far as it is the
outermost. -/
theorem WellNested.stillOpen (h : WellNested m n cs) : StillOpen n cs := by
  induction cs generalizing n with
  | nil => trivial
  | cons c cs ih =>
    cases c with
    | newScope => exact ih h.2
    | add b => exact ih (n := n) (by cases n <;> exact h)
    | popScope =>
      cases n with
      | zero => exact h.elim
      | succ n => exact ih h

theorem WellNested.take (h : WellNested m n cs) (k : Nat) : WellNested m n (cs.take k) := by
  induction cs generalizing n k with
  | nil => rwa [List.take_nil]
  | cons c cs ih =>
    cases k with
    | zero => cases n <;> trivial
    | succ k =>
      rw [List.take_succ_cons]
      cases c with
      | newScope => exact ⟨h.1, ih h.2 k⟩
      | add b =>
        cases n with
        | zero => exact ih (n := 0) h k
        | succ n => exact ih (n := n + 1) h k
      | popScope =>
        cases n with
        | zero => exact h.elim
        | succ n => exact ih h k

/-! ## When an element is there -/

theorem stillOpen_add : StillOpen n (.add b :: cs) ↔ StillOpen n cs := by
  cases n <;> exact Iff.rfl

/-- The calls add the element themselves, or a later one does. -/
theorem addedInOpen_cons :
    AddedInOpen (c :: cs) a ↔ (c = .add a ∧ StillOpen 0 cs) ∨ AddedInOpen cs a := by
  constructor
  · rintro ⟨pre, post, heq, hopen⟩
    cases pre with
    | nil =>
      obtain ⟨rfl, rfl⟩ := List.cons.inj heq
      exact .inl ⟨rfl, hopen⟩
    | cons c' pre =>
      obtain ⟨rfl, rfl⟩ := List.cons.inj heq
      exact .inr ⟨pre, post, rfl, hopen⟩
  · rintro (⟨rfl, hopen⟩ | ⟨pre, post, rfl, hopen⟩)
    · exact ⟨[], cs, rfl, hopen⟩
    · exact ⟨c :: pre, post, rfl, hopen⟩

/-- What was there before the calls and is in a scope that is still open. -/
def KeptOpen (st : List (Set α)) (cs : List (Call α)) (a : α) : Prop :=
  ∃ i S, st[i]? = some S ∧ a ∈ S ∧ StillOpen i cs

theorem keptOpen_cons :
    KeptOpen (S :: st) cs a ↔ (a ∈ S ∧ StillOpen 0 cs) ∨
      ∃ i T, st[i]? = some T ∧ a ∈ T ∧ StillOpen (i + 1) cs := by
  constructor
  · rintro ⟨i, T, hi, ha, hopen⟩
    cases i with
    | zero =>
      cases hi
      exact .inl ⟨ha, hopen⟩
    | succ i => exact .inr ⟨i, T, hi, ha, hopen⟩
  · rintro (⟨ha, hopen⟩ | ⟨i, T, hi, ha, hopen⟩)
    · exact ⟨0, S, rfl, ha, hopen⟩
    · exact ⟨i + 1, T, hi, ha, hopen⟩

/-- **What is there after calls that do not leave the outermost scope**: what was there or was
added, as far as its scope is still open. -/
theorem mem_tracked_run (h : StillOpen st.length cs) :
    a ∈ tracked (run (S :: st) cs) ↔ KeptOpen (S :: st) cs a ∨ AddedInOpen cs a := by
  induction cs generalizing S st with
  | nil =>
    have hnone : ¬AddedInOpen ([] : List (Call α)) a := by
      rintro ⟨pre, post, heq, -⟩
      cases pre <;> cases heq
    rw [or_iff_left hnone]
    constructor
    · rintro ⟨T, hT, ha⟩
      obtain ⟨i, hi⟩ := List.getElem?_of_mem hT
      exact ⟨i, T, hi, ha, by cases i <;> trivial⟩
    · rintro ⟨i, T, hi, ha, -⟩
      exact ⟨T, List.mem_of_getElem? hi, ha⟩
  | cons c cs ih =>
    rw [run_cons, addedInOpen_cons]
    cases c with
    | newScope =>
      rw [step, ih (show StillOpen (S :: st).length cs from h), keptOpen_cons]
      have hempty : ¬(a ∈ (∅ : Set α) ∧ StillOpen 0 cs) := fun ha => ha.1
      rw [or_iff_right hempty,
        or_iff_right (a := Call.newScope = Call.add a ∧ _) (by rintro ⟨⟨⟩, _⟩)]
      rfl
    | add b =>
      rw [step, ih (stillOpen_add.mp h), keptOpen_cons, keptOpen_cons]
      simp only [stillOpen_add, Set.mem_insert_iff, Call.add.injEq]
      constructor
      · rintro ((⟨rfl | ha, hopen⟩ | hkept) | hadded)
        · exact .inr (.inl ⟨rfl, hopen⟩)
        · exact .inl (.inl ⟨ha, hopen⟩)
        · exact .inl (.inr hkept)
        · exact .inr (.inr hadded)
      · rintro ((⟨ha, hopen⟩ | hkept) | ⟨rfl, hopen⟩ | hadded)
        · exact .inl (.inl ⟨.inr ha, hopen⟩)
        · exact .inl (.inr hkept)
        · exact .inl (.inl ⟨.inl rfl, hopen⟩)
        · exact .inr hadded
    | popScope =>
      cases st with
      | nil => exact h.elim
      | cons T st =>
        rw [step, ih h, keptOpen_cons (S := S)]
        have hpop : ¬(a ∈ S ∧ StillOpen 0 (Call.popScope :: cs)) := fun ha => ha.2
        rw [or_iff_right hpop,
          or_iff_right (a := Call.popScope = Call.add a ∧ _) (by rintro ⟨⟨⟩, _⟩)]
        rfl

/-! ## The outermost scope of an element -/

/-- The outermost of the scopes that have the element. -/
def Level : List (Set α) → α → Nat → Prop
  | [], _, _ => False
  | S :: st, a, d => Level st a d ∨ (a ∈ S ∧ d = st.length ∧ ∀ e, ¬Level st a e)

theorem Level.lt (h : Level st a d) : d < st.length := by
  induction st with
  | nil => exact h.elim
  | cons S st ih =>
    rw [List.length_cons]
    rcases h with h | ⟨-, rfl, -⟩
    · have := ih h
      omega
    · omega

theorem exists_level_iff : (∃ d, Level st a d) ↔ a ∈ tracked st := by
  induction st with
  | nil =>
    refine iff_of_false (fun ⟨_, h⟩ => h) ?_
    rintro ⟨S, hS, -⟩
    cases hS
  | cons S st ih =>
    constructor
    · rintro ⟨d, h | ⟨ha, -, -⟩⟩
      · obtain ⟨T, hT, ha⟩ := ih.mp ⟨d, h⟩
        exact ⟨T, List.mem_cons_of_mem S hT, ha⟩
      · exact ⟨S, List.mem_cons_self, ha⟩
    · rintro ⟨T, hT, ha⟩
      by_cases hst : ∃ d, Level st a d
      · exact hst.imp fun d hd => .inl hd
      · rcases List.mem_cons.mp hT with rfl | hT
        · exact ⟨st.length, .inr ⟨ha, rfl, not_exists.mp hst⟩⟩
        · exact absurd (ih.mpr ⟨T, hT, ha⟩) hst

theorem level_newScope : Level (∅ :: st) a d ↔ Level st a d :=
  or_iff_left fun h => h.1

/-- An element that is there already stays where it is. -/
theorem level_add : Level (insert b S :: st) a d ↔
    Level (S :: st) a d ∨ (a = b ∧ d = st.length ∧ ∀ e, ¬Level (S :: st) b e) := by
  constructor
  · rintro (h | ⟨rfl | ha, rfl, hnone⟩)
    · exact .inl (.inl h)
    · by_cases ha : a ∈ S
      · exact .inl (.inr ⟨ha, rfl, hnone⟩)
      · refine .inr ⟨rfl, rfl, fun e he => ?_⟩
        rcases he with he | ⟨hmem, -, -⟩
        · exact hnone e he
        · exact ha hmem
    · exact .inl (.inr ⟨ha, rfl, hnone⟩)
  · rintro ((h | ⟨ha, rfl, hnone⟩) | ⟨rfl, rfl, hnone⟩)
    · exact .inl h
    · exact .inr ⟨.inr ha, rfl, hnone⟩
    · exact .inr ⟨.inl rfl, rfl, fun e he => hnone e (.inl he)⟩

/-- Leaving a scope drops what is there and not further out. -/
theorem level_popScope (S : Set α) (st : List (Set α)) :
    Level st a d ↔ Level (S :: st) a d ∧ d < st.length := by
  constructor
  · exact fun h => ⟨.inl h, h.lt⟩
  · rintro ⟨h | ⟨-, rfl, -⟩, hlt⟩
    · exact h
    · exact absurd hlt (Nat.lt_irrefl _)

end ScopeStack
end Clpkm
