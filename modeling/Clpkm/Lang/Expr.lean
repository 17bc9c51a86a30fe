import Mathlib.Logic.Function.Basic
import Mathlib.Tactic.Common

/-!
# Expressions with side effects

The expressions of a kernel read and assign private variables and read and write
global memory.  They are evaluated from left to right, `&&`, `||` and `?:` on demand.
What a value is, how global memory is accessed and what the operators compute is left
to an `Interp`; any access or operator may be undefined.

A private variable is indeterminate (`none`) before its first assignment, and reading
it then is undefined.  `eval_agree` is the lemma that liveness rests on: two stores
that agree on the defined values of the variables an evaluation reads evaluate
alike.
-/

namespace Clpkm
namespace Lang

/-- Values and global memory. -/
structure Interp (Val Mem : Type) where
  truthy : Val → Bool
  ofBool : Bool → Val
  load : Mem → Val → Option Val
  store : Mem → Val → Val → Option Mem

/-- An expression. -/
inductive Expr (Var Val : Type)
  | const (a : Val)
  | var (x : Var)
  /-- a read of global memory -/
  | load (e : Expr Var Val)
  /-- an operator that evaluates both operands -/
  | op (f : Val → Val → Option Val) (e₁ e₂ : Expr Var Val)
  | and (e₁ e₂ : Expr Var Val)
  | or (e₁ e₂ : Expr Var Val)
  | cond (e e₁ e₂ : Expr Var Val)
  | assign (x : Var) (e : Expr Var Val)
  /-- a write to global memory: address, value -/
  | store (e₁ e₂ : Expr Var Val)

/-- The private variables; `none` for an indeterminate value. -/
abbrev Store (Var Val : Type) := Var → Option Val

namespace Expr
variable {Var Val Mem : Type}

/-- The variables an expression mentions. -/
def vars : Expr Var Val → List Var
  | const _ => []
  | var x => [x]
  | load e => e.vars
  | op _ e₁ e₂ | and e₁ e₂ | or e₁ e₂ | store e₁ e₂ => e₁.vars ++ e₂.vars
  | cond e e₁ e₂ => e.vars ++ (e₁.vars ++ e₂.vars)
  | assign x e => x :: e.vars

variable [DecidableEq Var] (I : Interp Val Mem)

/-- The value of an expression and its effects. -/
def eval : Expr Var Val → Store Var Val → Mem → Option (Val × Store Var Val × Mem)
  | const a, σ, m => some (a, σ, m)
  | var x, σ, m => (σ x).map fun a => (a, σ, m)
  | load e, σ, m => do
    let (a, σ, m) ← e.eval σ m
    let b ← I.load m a
    return (b, σ, m)
  | op f e₁ e₂, σ, m => do
    let (a, σ, m) ← e₁.eval σ m
    let (b, σ, m) ← e₂.eval σ m
    let c ← f a b
    return (c, σ, m)
  | and e₁ e₂, σ, m => do
    let (a, σ, m) ← e₁.eval σ m
    if I.truthy a then
      let (b, σ, m) ← e₂.eval σ m
      return (I.ofBool (I.truthy b), σ, m)
    else return (I.ofBool false, σ, m)
  | or e₁ e₂, σ, m => do
    let (a, σ, m) ← e₁.eval σ m
    if I.truthy a then return (I.ofBool true, σ, m)
    else
      let (b, σ, m) ← e₂.eval σ m
      return (I.ofBool (I.truthy b), σ, m)
  | cond e e₁ e₂, σ, m => do
    let (a, σ, m) ← e.eval σ m
    if I.truthy a then e₁.eval σ m else e₂.eval σ m
  | assign x e, σ, m => do
    let (a, σ, m) ← e.eval σ m
    return (a, Function.update σ x (some a), m)
  | store e₁ e₂, σ, m => do
    let (a, σ, m) ← e₁.eval σ m
    let (b, σ, m) ← e₂.eval σ m
    let m ← I.store m a b
    return (b, σ, m)

/-- The variables that evaluating an expression reads. -/
def reads : Expr Var Val → Store Var Val → Mem → List Var
  | const _, _, _ => []
  | var x, _, _ => [x]
  | load e, σ, m => e.reads σ m
  | op _ e₁ e₂, σ, m | store e₁ e₂, σ, m =>
    e₁.reads σ m ++
      match e₁.eval I σ m with
      | some (_, σ, m) => e₂.reads σ m
      | none => []
  | and e₁ e₂, σ, m =>
    e₁.reads σ m ++
      match e₁.eval I σ m with
      | some (a, σ, m) => if I.truthy a then e₂.reads σ m else []
      | none => []
  | or e₁ e₂, σ, m =>
    e₁.reads σ m ++
      match e₁.eval I σ m with
      | some (a, σ, m) => if I.truthy a then [] else e₂.reads σ m
      | none => []
  | cond e e₁ e₂, σ, m =>
    e.reads σ m ++
      match e.eval I σ m with
      | some (a, σ, m) => if I.truthy a then e₁.reads σ m else e₂.reads σ m
      | none => []
  | assign _ e, σ, m => e.reads σ m

/-- An evaluation reads only variables that the expression mentions. -/
theorem reads_subset (e : Expr Var Val) (σ : Store Var Val) (m : Mem) :
    ∀ x ∈ e.reads I σ m, x ∈ e.vars := by
  induction e generalizing σ m with
  | const a => intro x hx; cases hx
  | var y => intro x hx; exact hx
  | load e ih => exact ih σ m
  | op f e₁ e₂ ih₁ ih₂ | store e₁ e₂ ih₁ ih₂ =>
    intro x hx
    simp only [reads, List.mem_append] at hx
    rcases hx with hx | hx
    · exact List.mem_append_left _ (ih₁ σ m x hx)
    · split at hx
      · exact List.mem_append_right _ (ih₂ _ _ x hx)
      · cases hx
  | and e₁ e₂ ih₁ ih₂ =>
    intro x hx
    simp only [reads, List.mem_append] at hx
    rcases hx with hx | hx
    · exact List.mem_append_left _ (ih₁ σ m x hx)
    · split at hx
      · split at hx
        · exact List.mem_append_right _ (ih₂ _ _ x hx)
        · cases hx
      · cases hx
  | or e₁ e₂ ih₁ ih₂ =>
    intro x hx
    simp only [reads, List.mem_append] at hx
    rcases hx with hx | hx
    · exact List.mem_append_left _ (ih₁ σ m x hx)
    · split at hx
      · split at hx
        · cases hx
        · exact List.mem_append_right _ (ih₂ _ _ x hx)
      · cases hx
  | cond e e₁ e₂ ih ih₁ ih₂ =>
    intro x hx
    simp only [reads, List.mem_append] at hx
    rcases hx with hx | hx
    · exact List.mem_append_left _ (ih σ m x hx)
    · apply List.mem_append_right _
      split at hx
      · split at hx
        · exact List.mem_append_left _ (ih₁ _ _ x hx)
        · exact List.mem_append_right _ (ih₂ _ _ x hx)
      · cases hx
  | assign y e ih =>
    intro x hx
    exact List.mem_cons_of_mem y (ih σ m x hx)

end Expr

/-! ## Agreement of stores -/

variable {Var Val Mem : Type}

/-- The second store has every defined value of the first, on the given variables. -/
def Agree (A : Var → Prop) (σ σ' : Store Var Val) : Prop :=
  ∀ x, A x → ∀ a, σ x = some a → σ' x = some a

theorem Agree.mono {A B : Var → Prop} {σ σ' : Store Var Val} (h : Agree A σ σ')
    (hBA : ∀ x, B x → A x) : Agree B σ σ' :=
  fun x hx a ha => h x (hBA x hx) a ha

theorem Agree.refl (A : Var → Prop) (σ : Store Var Val) : Agree A σ σ := fun _ _ _ h => h

variable [DecidableEq Var]

/-- Assigning the same value to both stores. -/
theorem Agree.update {A : Var → Prop} {σ σ' : Store Var Val} (h : Agree A σ σ') (x : Var)
    (v : Option Val) : Agree A (Function.update σ x v) (Function.update σ' x v) := by
  intro y hy a ha
  by_cases hxy : y = x
  · subst hxy
    rw [Function.update_self] at ha ⊢
    exact ha
  · rw [Function.update_of_ne hxy] at ha ⊢
    exact h y hy a ha

/-- A variable that takes the value of the first store in the second as well, if it has
one there, is one more on which they agree. -/
theorem Agree.declare {A : Var → Prop} {σ σ' : Store Var Val} (h : Agree A σ σ') (x : Var)
    {v v' : Option Val} (hv : ∀ a, v = some a → v' = some a) :
    Agree (fun y => A y ∨ y = x) (Function.update σ x v) (Function.update σ' x v') := by
  intro y hy a ha
  by_cases hxy : y = x
  · subst hxy
    rw [Function.update_self] at ha ⊢
    exact hv a ha
  · rw [Function.update_of_ne hxy] at ha ⊢
    exact h y (hy.resolve_right hxy) a ha

/-- **An evaluation depends on the variables it reads only.**  It gives the same value
and memory in a store that has every defined value of what it reads, and agreement on
any larger set of variables survives it. -/
theorem Expr.eval_agree (I : Interp Val Mem) (A : Var → Prop) (e : Expr Var Val)
    {σ σ' σ₁ : Store Var Val} {m m₁ : Mem} {a : Val}
    (h : e.eval I σ m = some (a, σ₁, m₁)) (hr : ∀ x ∈ e.reads I σ m, A x) (hA : Agree A σ σ') :
    ∃ σ₁', e.eval I σ' m = some (a, σ₁', m₁) ∧ Agree A σ₁ σ₁' := by
  induction e generalizing σ σ' σ₁ m m₁ a with
  | const b =>
    cases h
    exact ⟨σ', rfl, hA⟩
  | var x =>
    simp only [eval, Option.map_eq_some_iff] at h
    obtain ⟨b, hb, h⟩ := h
    cases h
    refine ⟨σ', ?_, hA⟩
    rw [eval, hA x (hr x List.mem_cons_self) a hb]
    rfl
  | load e ih =>
    simp only [eval, Option.bind_eq_bind, Option.bind_eq_some_iff] at h
    obtain ⟨⟨b, τ, n⟩, he, c, hc, h⟩ := h
    cases h
    obtain ⟨τ', he', hτ⟩ := ih he hr hA
    refine ⟨τ', ?_, hτ⟩
    simp only [eval, he', Option.bind_eq_bind, Option.bind_some, hc]
    rfl
  | op f e₁ e₂ ih₁ ih₂ =>
    simp only [eval, Option.bind_eq_bind, Option.bind_eq_some_iff] at h
    obtain ⟨⟨b, τ, n⟩, he₁, ⟨c, ρ, k⟩, he₂, d, hd, h⟩ := h
    cases h
    simp only [reads, he₁, List.mem_append] at hr
    obtain ⟨τ', he₁', hτ⟩ := ih₁ he₁ (fun x hx => hr x (Or.inl hx)) hA
    obtain ⟨ρ', he₂', hρ⟩ := ih₂ he₂ (fun x hx => hr x (Or.inr hx)) hτ
    refine ⟨ρ', ?_, hρ⟩
    simp only [eval, he₁', he₂', Option.bind_eq_bind, Option.bind_some, hd]
    rfl
  | and e₁ e₂ ih₁ ih₂ =>
    simp only [eval, Option.bind_eq_bind, Option.bind_eq_some_iff] at h
    obtain ⟨⟨b, τ, n⟩, he₁, h⟩ := h
    simp only [reads, he₁, List.mem_append] at hr
    obtain ⟨τ', he₁', hτ⟩ := ih₁ he₁ (fun x hx => hr x (Or.inl hx)) hA
    -- the second operand is evaluated only if the first one is true
    by_cases hb : I.truthy b = true
    · simp only [hb, if_true, Option.bind_eq_some_iff] at h hr
      obtain ⟨⟨c, ρ, k⟩, he₂, h⟩ := h
      cases h
      obtain ⟨ρ', he₂', hρ⟩ := ih₂ he₂ (fun x hx => hr x (Or.inr hx)) hτ
      refine ⟨ρ', ?_, hρ⟩
      simp only [eval, he₁', he₂', Option.bind_eq_bind, Option.bind_some, hb, if_true]
      rfl
    · simp only [hb, if_false, Bool.false_eq_true] at h
      cases h
      refine ⟨τ', ?_, hτ⟩
      simp only [eval, he₁', Option.bind_eq_bind, Option.bind_some, hb]
      rfl
  | or e₁ e₂ ih₁ ih₂ =>
    simp only [eval, Option.bind_eq_bind, Option.bind_eq_some_iff] at h
    obtain ⟨⟨b, τ, n⟩, he₁, h⟩ := h
    simp only [reads, he₁, List.mem_append] at hr
    obtain ⟨τ', he₁', hτ⟩ := ih₁ he₁ (fun x hx => hr x (Or.inl hx)) hA
    by_cases hb : I.truthy b = true
    · simp only [hb, if_true] at h
      cases h
      refine ⟨τ', ?_, hτ⟩
      simp only [eval, he₁', Option.bind_eq_bind, Option.bind_some, hb, if_true]
      rfl
    · simp only [hb, if_false, Bool.false_eq_true, Option.bind_eq_some_iff] at h hr
      obtain ⟨⟨c, ρ, k⟩, he₂, h⟩ := h
      cases h
      obtain ⟨ρ', he₂', hρ⟩ := ih₂ he₂ (fun x hx => hr x (Or.inr hx)) hτ
      refine ⟨ρ', ?_, hρ⟩
      simp only [eval, he₁', he₂', Option.bind_eq_bind, Option.bind_some, hb]
      rfl
  | cond e e₁ e₂ ih ih₁ ih₂ =>
    simp only [eval, Option.bind_eq_bind, Option.bind_eq_some_iff] at h
    obtain ⟨⟨b, τ, n⟩, he, h⟩ := h
    simp only [reads, he, List.mem_append] at hr
    obtain ⟨τ', he', hτ⟩ := ih he (fun x hx => hr x (Or.inl hx)) hA
    by_cases hb : I.truthy b = true
    · simp only [hb, if_true] at h hr
      obtain ⟨ρ', he₁', hρ⟩ := ih₁ h (fun x hx => hr x (Or.inr hx)) hτ
      refine ⟨ρ', ?_, hρ⟩
      simp only [eval, he', Option.bind_eq_bind, Option.bind_some, hb, if_true, he₁']
    · simp only [hb, if_false, Bool.false_eq_true] at h hr
      obtain ⟨ρ', he₂', hρ⟩ := ih₂ h (fun x hx => hr x (Or.inr hx)) hτ
      refine ⟨ρ', ?_, hρ⟩
      simp only [eval, he', Option.bind_eq_bind, Option.bind_some, hb]
      exact he₂'
  | assign x e ih =>
    simp only [eval, Option.bind_eq_bind, Option.bind_eq_some_iff] at h
    obtain ⟨⟨b, τ, n⟩, he, h⟩ := h
    cases h
    obtain ⟨τ', he', hτ⟩ := ih he hr hA
    refine ⟨Function.update τ' x (some b), ?_, hτ.update x (some b)⟩
    simp only [eval, he', Option.bind_eq_bind, Option.bind_some]
    rfl
  | store e₁ e₂ ih₁ ih₂ =>
    simp only [eval, Option.bind_eq_bind, Option.bind_eq_some_iff] at h
    obtain ⟨⟨b, τ, n⟩, he₁, ⟨c, ρ, k⟩, he₂, d, hd, h⟩ := h
    cases h
    simp only [reads, he₁, List.mem_append] at hr
    obtain ⟨τ', he₁', hτ⟩ := ih₁ he₁ (fun x hx => hr x (Or.inl hx)) hA
    obtain ⟨ρ', he₂', hρ⟩ := ih₂ he₂ (fun x hx => hr x (Or.inr hx)) hτ
    refine ⟨ρ', ?_, hρ⟩
    simp only [eval, he₁', he₂', Option.bind_eq_bind, Option.bind_some, hd]
    rfl

end Lang
end Clpkm
