import Clpkm.Lang.Expr
import Mathlib.Logic.Relation

/-!
# Statements and their runs

The body of a kernel is a `Stmt`.  The bodies of loops and the branches of `if` are
compound statements; a declaration in the head of a `for` is written in front of the
loop.  Every loop carries an annotation of a type `α`, which its run does not look at:
`Unit` in a program as it is written, what the compiler adds in the program it emits.

A run is a sequence of small steps.  The state has a control (`Ctl`: what is executed
now, with the continuation), a store and the global memory.  A step consists of an
`Action`, which is all that touches the data and which decides between two ways to go
on, and of the control that follows (`Ctl.next`).  Control and data can so be reasoned
about apart.

A configuration counts the loop iterations of its run.
-/

namespace Clpkm
namespace Lang

/-! ## Syntax -/

/-- A loop but for its body. -/
inductive LoopHead (Var Val : Type)
  | whileStmt (id : Nat) (cond : Expr Var Val)
  | doStmt (id : Nat) (cond : Expr Var Val)
  | forStmt (id : Nat) (cond inc : Option (Expr Var Val))

namespace LoopHead
variable {Var Val : Type}

/-- The identity of the statement. -/
def id : LoopHead Var Val → Nat
  | whileStmt id _ | doStmt id _ | forStmt id _ _ => id

def cond : LoopHead Var Val → Option (Expr Var Val)
  | whileStmt _ e | doStmt _ e => some e
  | forStmt _ e _ => e

def inc : LoopHead Var Val → Option (Expr Var Val)
  | whileStmt _ _ | doStmt _ _ => none
  | forStmt _ _ e => e

/-- The first iteration does not depend on the condition. -/
def bodyFirst : LoopHead Var Val → Bool
  | doStmt _ _ => true
  | whileStmt _ _ | forStmt _ _ _ => false

end LoopHead

/-- A statement of a kernel. -/
inductive Stmt (Var Val α : Type)
  | skip
  | expr (e : Expr Var Val)
  | decl (x : Var) (init : Option (Expr Var Val))
  | seq (s t : Stmt Var Val α)
  | compound (s : Stmt Var Val α)
  | ifStmt (e : Expr Var Val) (s t : Stmt Var Val α)
  | loop (h : LoopHead Var Val) (a : α) (b : Stmt Var Val α)
  | breakStmt
  | continueStmt
  | returnStmt

/-- What is executed after a statement. -/
inductive Cont (Var Val α : Type)
  | stop
  | seq (t : Stmt Var Val α) (k : Cont Var Val α)
  | loop (h : LoopHead Var Val) (a : α) (b : Stmt Var Val α) (k : Cont Var Val α)

/-- The control of a run. -/
inductive Ctl (Var Val α : Type)
  | exec (s : Stmt Var Val α) (k : Cont Var Val α)
  /-- a statement has ended -/
  | done (k : Cont Var Val α)
  /-- on the way out of a loop -/
  | brk (k : Cont Var Val α)
  /-- on the way to the end of a loop body -/
  | cont (k : Cont Var Val α)
  /-- after a loop body -/
  | next (h : LoopHead Var Val) (a : α) (b : Stmt Var Val α) (k : Cont Var Val α)
  /-- before the condition of a loop -/
  | test (h : LoopHead Var Val) (a : α) (b : Stmt Var Val α) (k : Cont Var Val α)
  /-- the kernel has returned -/
  | fin

variable {Var Val Mem α : Type}

/-- The program without its annotations. -/
def Stmt.erase : Stmt Var Val α → Stmt Var Val Unit
  | skip => .skip
  | expr e => .expr e
  | decl x init => .decl x init
  | seq s t => .seq s.erase t.erase
  | compound s => .compound s.erase
  | ifStmt e s t => .ifStmt e s.erase t.erase
  | loop h _ b => .loop h () b.erase
  | breakStmt => .breakStmt
  | continueStmt => .continueStmt
  | returnStmt => .returnStmt

def Cont.erase : Cont Var Val α → Cont Var Val Unit
  | stop => .stop
  | seq t k => .seq t.erase k.erase
  | loop h _ b k => .loop h () b.erase k.erase

def Ctl.erase : Ctl Var Val α → Ctl Var Val Unit
  | exec s k => .exec s.erase k.erase
  | done k => .done k.erase
  | brk k => .brk k.erase
  | cont k => .cont k.erase
  | next h _ b k => .next h () b.erase k.erase
  | test h _ b k => .test h () b.erase k.erase
  | fin => .fin

/-! ## Actions -/

/-- What a step does to the data. -/
inductive Action (Var Val : Type)
  | pass
  | eval (e : Expr Var Val)
  | init (x : Var) (e : Expr Var Val)
  /-- a declaration without initialiser -/
  | forget (x : Var)

namespace Action
variable [DecidableEq Var] (I : Interp Val Mem)

/-- The effect of an action, and the truth of the value it computes.  The first store
says what a variable holds that is declared without initialiser. -/
def run (indet : Store Var Val) : Action Var Val → Store Var Val → Mem →
    Option (Bool × Store Var Val × Mem)
  | pass, σ, m => some (true, σ, m)
  | eval e, σ, m => do
    let (a, σ, m) ← e.eval I σ m
    return (I.truthy a, σ, m)
  | init x e, σ, m => do
    let (a, σ, m) ← e.eval I σ m
    return (true, Function.update σ x (some a), m)
  | forget x, σ, m => some (true, Function.update σ x (indet x), m)

/-- The action may read the variable. -/
def Reads (v : Var) : Action Var Val → Prop
  | pass | forget _ => False
  | eval e | init _ e => ∃ (σ : Store Var Val) (m : Mem), v ∈ e.reads I σ m

/-- The action declares the variable. -/
def Kills (v : Var) : Action Var Val → Prop
  | pass | eval _ => False
  | init x _ | forget x => v = x

/-- The variables that an action mentions. -/
def vars : Action Var Val → List Var
  | pass | forget _ => []
  | eval e | init _ e => e.vars

theorem Reads.mem_vars {v : Var} {x : Action Var Val} (h : x.Reads I v) : v ∈ x.vars := by
  cases x with
  | pass | forget x => exact h.elim
  | eval e | init x e =>
    obtain ⟨σ, m, h⟩ := h
    exact e.reads_subset I σ m v h

/-- **An action depends on the variables it reads only.**  Two stores that agree on
them, and on some others, agree afterwards on all of these and on what the action
declares. -/
theorem run_agree (A : Var → Prop) (x : Action Var Val) (indet : Store Var Val)
    {σ σ' σ₁ : Store Var Val} {m m₁ : Mem} {t : Bool}
    (h : x.run I (fun _ => none) σ m = some (t, σ₁, m₁)) (hr : ∀ v, x.Reads I v → A v)
    (hA : Agree A σ σ') :
    ∃ σ₁', x.run I indet σ' m = some (t, σ₁', m₁) ∧ Agree (fun v => A v ∨ x.Kills v) σ₁ σ₁' := by
  cases x with
  | pass =>
    cases h
    exact ⟨σ', rfl, hA.mono fun v hv => hv.resolve_right id⟩
  | eval e =>
    simp only [run, Option.bind_eq_bind, Option.bind_eq_some_iff] at h
    obtain ⟨⟨a, τ, n⟩, he, h⟩ := h
    cases h
    obtain ⟨τ', he', hτ⟩ := e.eval_agree I A he (fun v hv => hr v ⟨σ, m, hv⟩) hA
    refine ⟨τ', ?_, hτ.mono fun v hv => hv.resolve_right id⟩
    simp only [run, he', Option.bind_eq_bind, Option.bind_some]
    rfl
  | init x e =>
    simp only [run, Option.bind_eq_bind, Option.bind_eq_some_iff] at h
    obtain ⟨⟨a, τ, n⟩, he, h⟩ := h
    cases h
    obtain ⟨τ', he', hτ⟩ := e.eval_agree I A he (fun v hv => hr v ⟨σ, m, hv⟩) hA
    refine ⟨Function.update τ' x (some a), ?_, hτ.declare x fun b hb => hb⟩
    simp only [run, he', Option.bind_eq_bind, Option.bind_some]
    rfl
  | forget x =>
    cases h
    exact ⟨_, rfl, hA.declare x fun b hb => by cases hb⟩

end Action

/-! ## Control -/

namespace Ctl

/-- What the next step does to the data. -/
def action : Ctl Var Val α → Action Var Val
  | exec (.expr e) _ => .eval e
  | exec (.decl x (some e)) _ => .init x e
  | exec (.decl x none) _ => .forget x
  | exec (.ifStmt e _ _) _ => .eval e
  | next h _ _ _ => h.inc.elim .pass .eval
  | test h _ _ _ => h.cond.elim .pass .eval
  | _ => .pass

/-- Where control goes after the action, given the truth of its value. -/
def step : Ctl Var Val α → Bool → Option (Ctl Var Val α)
  | exec .skip k, _ | exec (.expr _) k, _ | exec (.decl _ _) k, _ => some (done k)
  | exec (.seq s t) k, _ => some (exec s (.seq t k))
  | exec (.compound s) k, _ => some (exec s k)
  | exec (.ifStmt _ s t) k, b => some (exec (if b then s else t) k)
  | exec (.loop h a b) k, _ =>
    some (if h.bodyFirst then exec b (.loop h a b k) else test h a b k)
  | exec .breakStmt k, _ => some (brk k)
  | exec .continueStmt k, _ => some (cont k)
  | exec .returnStmt _, _ => some fin
  | done .stop, _ => some fin
  | done (.seq t k), _ => some (exec t k)
  | done (.loop h a b k), _ => some (next h a b k)
  | brk .stop, _ => none
  | brk (.seq _ k), _ => some (brk k)
  | brk (.loop _ _ _ k), _ => some (done k)
  | cont .stop, _ => none
  | cont (.seq _ k), _ => some (cont k)
  | cont (.loop h a b k), _ => some (next h a b k)
  | next h a b k, _ => some (test h a b k)
  | test h a b k, t => some (if t then exec b (.loop h a b k) else done k)
  | fin, _ => none

/-- The number of loop iterations that begin with the step. -/
def enters : Ctl Var Val α → Bool → Nat
  | exec (.loop h _ _) _, _ => if h.bodyFirst then 1 else 0
  | test _ _ _ _, t => if t then 1 else 0
  | _, _ => 0

@[simp] theorem action_erase (c : Ctl Var Val α) : c.erase.action = c.action := by
  match c with
  | exec s k =>
    cases s with
    | decl x init => cases init <;> rfl
    | _ => rfl
  | done _ | brk _ | cont _ | next _ _ _ _ | test _ _ _ _ | fin => rfl

@[simp] theorem enters_erase (c : Ctl Var Val α) (t : Bool) : c.erase.enters t = c.enters t := by
  match c with
  | exec s k => cases s <;> rfl
  | done _ | brk _ | cont _ | next _ _ _ _ | test _ _ _ _ | fin => rfl

/-- Annotations do not matter for where control goes. -/
theorem step_erase (c : Ctl Var Val α) (t : Bool) : c.erase.step t = (c.step t).map erase := by
  match c with
  | exec s k =>
    cases s with
    | ifStmt e s₁ s₂ => cases t <;> rfl
    | loop h a b => cases h <;> rfl
    | _ => rfl
  | done k | brk k | cont k => cases k <;> rfl
  | test h a b k => cases t <;> rfl
  | next _ _ _ _ | fin => rfl

end Ctl

/-! ## Runs -/

/-- The state of a run; `iters` counts the loop iterations begun. -/
structure Config (Var Val Mem α : Type) where
  ctl : Ctl Var Val α
  store : Store Var Val
  mem : Mem
  iters : Nat

namespace Config
variable [DecidableEq Var] (I : Interp Val Mem)

/-- One step; a variable declared without initialiser is indeterminate. -/
def step (c : Config Var Val Mem α) : Option (Config Var Val Mem α) := do
  let (t, σ, m) ← c.ctl.action.run I (fun _ => none) c.store c.mem
  let c' ← c.ctl.step t
  return ⟨c', σ, m, c.iters + c.ctl.enters t⟩

/-- Any number of steps. -/
def Runs : Config Var Val Mem α → Config Var Val Mem α → Prop :=
  Relation.ReflTransGen fun c c' => c.step I = some c'

/-- A step is an action followed by a step of the control. -/
theorem step_eq_some_iff {c c' : Config Var Val Mem α} :
    c.step I = some c' ↔
      ∃ t σ m c₁, c.ctl.action.run I (fun _ => none) c.store c.mem = some (t, σ, m) ∧
        c.ctl.step t = some c₁ ∧ c' = ⟨c₁, σ, m, c.iters + c.ctl.enters t⟩ := by
  simp only [step, Option.bind_eq_bind, Option.bind_eq_some_iff, Option.pure_def,
    Option.some_inj]
  constructor
  · rintro ⟨⟨t, σ, m⟩, hr, c₁, hc, rfl⟩
    exact ⟨t, σ, m, c₁, hr, hc, rfl⟩
  · rintro ⟨t, σ, m, c₁, hr, hc, rfl⟩
    exact ⟨⟨t, σ, m⟩, hr, c₁, hc, rfl⟩

/-- The configuration after some steps, or where the run gets before that. -/
def run : Nat → Config Var Val Mem α → Config Var Val Mem α
  | 0, c => c
  | n + 1, c => (c.step I).elim c (run n)

theorem runs_run (n : Nat) (c : Config Var Val Mem α) : c.Runs I (c.run I n) := by
  induction n generalizing c with
  | zero => exact .refl
  | succ n ih =>
    rw [run]
    cases hc : c.step I with
    | none => exact .refl
    | some c' => exact .head hc (ih c')

end Config
end Lang
end Clpkm
