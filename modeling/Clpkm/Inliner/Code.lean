import Mathlib.Data.List.Basic
import Mathlib.Tactic.Common

/-!
# The text that the inliner reads and writes

The inliner turns C into C, so that one syntax serves for the program as it is written
and for what becomes of it.  A `Code` is an expression, a list of arguments or a
statement.  Besides what a program contains there is what the inliner adds: statement
expressions with a label of their own, and `goto`.

Operands and arguments are evaluated from the left or from the right; which of the two
the compiler chooses is part of the code.  `&&` and `||` are written with `?:`, an
omitted condition of a loop is a constant, and an omitted expression is `nothing`.
A declaration in the head of a `for` is written in front of the loop.
-/

namespace Clpkm
namespace Inliner

inductive Kind
  | expr
  | args (left : Bool)
  | stmt

/-- The name of a variable: of the program, or `__clpkm_ret_n`. -/
inductive Name (Var : Type)
  | src (x : Var)
  | ret (n : Nat)
  deriving DecidableEq

inductive Code (Var Val Op F : Type) : Kind → Type
  | const (a : Val) : Code Var Val Op F .expr
  | nothing : Code Var Val Op F .expr
  | var (x : Name Var) : Code Var Val Op F .expr
  | op {d : Bool} (o : Op) (es : Code Var Val Op F (.args d)) : Code Var Val Op F .expr
  | cond (c e₁ e₂ : Code Var Val Op F .expr) : Code Var Val Op F .expr
  /-- `e₁, e₂`, in parentheses or not -/
  | comma (inParens : Bool) (e₁ e₂ : Code Var Val Op F .expr) : Code Var Val Op F .expr
  | assign (x : Name Var) (e : Code Var Val Op F .expr) : Code Var Val Op F .expr
  /-- a `CallExpr`, where it stands and what it calls -/
  | call {d : Bool} (loc : Nat) (g : F) (es : Code Var Val Op F (.args d)) :
    Code Var Val Op F .expr
  /-- `({ __label__ __CLPKM_EXIT_l; T r; s __CLPKM_EXIT_l: r; })`, without `r` for `void` -/
  | stmtExpr (l : Nat) (r : Option (Name Var)) (s : Code Var Val Op F .stmt) :
    Code Var Val Op F .expr
  | nil {d : Bool} : Code Var Val Op F (.args d)
  | cons {d : Bool} (e : Code Var Val Op F .expr) (es : Code Var Val Op F (.args d)) :
    Code Var Val Op F (.args d)
  | skip : Code Var Val Op F .stmt
  | exprStmt (e : Code Var Val Op F .expr) : Code Var Val Op F .stmt
  | decl (x : Name Var) (e : Code Var Val Op F .expr) : Code Var Val Op F .stmt
  | seq (s t : Code Var Val Op F .stmt) : Code Var Val Op F .stmt
  | compound (s : Code Var Val Op F .stmt) : Code Var Val Op F .stmt
  | ifStmt (c : Code Var Val Op F .expr) (s t : Code Var Val Op F .stmt) :
    Code Var Val Op F .stmt
  /-- `while`, `for`, and `do` if the body comes first: condition, increment, body -/
  | loop (bodyFirst : Bool) (c i : Code Var Val Op F .expr) (b : Code Var Val Op F .stmt) :
    Code Var Val Op F .stmt
  | breakStmt : Code Var Val Op F .stmt
  | continueStmt : Code Var Val Op F .stmt
  | returnStmt (e : Code Var Val Op F .expr) : Code Var Val Op F .stmt
  /-- `goto __CLPKM_EXIT_l` -/
  | gotoStmt (l : Nat) : Code Var Val Op F .stmt

variable {Var Val Op F : Type} {k : Kind}

namespace Code

/-- The calls in a code, in the order of a depth-first traversal. -/
def calls : {k : Kind} → Code Var Val Op F k → List (Nat × F)
  | _, op _ es => es.calls
  | _, cond c e₁ e₂ => c.calls ++ (e₁.calls ++ e₂.calls)
  | _, comma _ e₁ e₂ => e₁.calls ++ e₂.calls
  | _, assign _ e => e.calls
  | _, call loc g es => (loc, g) :: es.calls
  | _, stmtExpr _ _ s => s.calls
  | _, cons e es => e.calls ++ es.calls
  | _, exprStmt e => e.calls
  | _, decl _ e => e.calls
  | _, seq s t => s.calls ++ t.calls
  | _, compound s => s.calls
  | _, ifStmt c s t => c.calls ++ (s.calls ++ t.calls)
  | _, loop _ c i b => c.calls ++ (i.calls ++ b.calls)
  | _, returnStmt e => e.calls
  | _, _ => []

/-- The variables that a statement declares for those behind it. -/
def decls : {k : Kind} → Code Var Val Op F k → List (Name Var)
  | _, decl x _ => [x]
  | _, seq s t => s.decls ++ t.decls
  | _, _ => []

/-- The variable occurs and is not declared inside. -/
def Free : {k : Kind} → Code Var Val Op F k → Name Var → Prop
  | _, var y, x => x = y
  | _, op _ es, x => es.Free x
  | _, cond c e₁ e₂, x => c.Free x ∨ e₁.Free x ∨ e₂.Free x
  | _, comma _ e₁ e₂, x => e₁.Free x ∨ e₂.Free x
  | _, assign y e, x => x = y ∨ e.Free x
  | _, call _ _ es, x => es.Free x
  | _, stmtExpr _ r s, x => x ∉ r ∧ s.Free x
  | _, cons e es, x => e.Free x ∨ es.Free x
  | _, exprStmt e, x => e.Free x
  | _, decl y e, x => x ≠ y ∧ e.Free x
  | _, seq s t, x => s.Free x ∨ (x ∉ s.decls ∧ t.Free x)
  | _, compound s, x => s.Free x
  | _, ifStmt c s t, x => c.Free x ∨ s.Free x ∨ t.Free x
  | _, loop _ c i b, x => c.Free x ∨ i.Free x ∨ b.Free x
  | _, returnStmt e, x => e.Free x
  | _, _, _ => False

/-- The labels of the statement expressions. -/
def labels : {k : Kind} → Code Var Val Op F k → List Nat
  | _, op _ es => es.labels
  | _, cond c e₁ e₂ => c.labels ++ (e₁.labels ++ e₂.labels)
  | _, comma _ e₁ e₂ => e₁.labels ++ e₂.labels
  | _, assign _ e => e.labels
  | _, call _ _ es => es.labels
  | _, stmtExpr l _ s => l :: s.labels
  | _, cons e es => e.labels ++ es.labels
  | _, exprStmt e => e.labels
  | _, decl _ e => e.labels
  | _, seq s t => s.labels ++ t.labels
  | _, compound s => s.labels
  | _, ifStmt c s t => c.labels ++ (s.labels ++ t.labels)
  | _, loop _ c i b => c.labels ++ (i.labels ++ b.labels)
  | _, returnStmt e => e.labels
  | _, _ => []

/-- Something holds of all calls. -/
def Each (P : {d : Bool} → Nat → F → Code Var Val Op F (.args d) → Prop) :
    {k : Kind} → Code Var Val Op F k → Prop
  | _, op _ es => es.Each P
  | _, cond c e₁ e₂ => c.Each P ∧ e₁.Each P ∧ e₂.Each P
  | _, comma _ e₁ e₂ => e₁.Each P ∧ e₂.Each P
  | _, assign _ e => e.Each P
  | _, call loc g es => P loc g es ∧ es.Each P
  | _, stmtExpr _ _ s => s.Each P
  | _, cons e es => e.Each P ∧ es.Each P
  | _, exprStmt e => e.Each P
  | _, decl _ e => e.Each P
  | _, seq s t => s.Each P ∧ t.Each P
  | _, compound s => s.Each P
  | _, ifStmt c s t => c.Each P ∧ s.Each P ∧ t.Each P
  | _, loop _ c i b => c.Each P ∧ i.Each P ∧ b.Each P
  | _, returnStmt e => e.Each P
  | _, _ => True

/-- Nothing that the inliner adds. -/
def Plain : {k : Kind} → Code Var Val Op F k → Prop
  | _, op _ es => es.Plain
  | _, cond c e₁ e₂ => c.Plain ∧ e₁.Plain ∧ e₂.Plain
  | _, comma _ e₁ e₂ => e₁.Plain ∧ e₂.Plain
  | _, assign _ e => e.Plain
  | _, call _ _ es => es.Plain
  | _, stmtExpr _ _ _ => False
  | _, cons e es => e.Plain ∧ es.Plain
  | _, exprStmt e => e.Plain
  | _, decl _ e => e.Plain
  | _, seq s t => s.Plain ∧ t.Plain
  | _, compound s => s.Plain
  | _, ifStmt c s t => c.Plain ∧ s.Plain ∧ t.Plain
  | _, loop _ c i b => c.Plain ∧ i.Plain ∧ b.Plain
  | _, returnStmt e => e.Plain
  | _, gotoStmt _ => False
  | _, _ => True

/-- A comma expression that is not in parentheses. -/
def isComma : {k : Kind} → Code Var Val Op F k → Bool
  | _, comma false _ _ => true
  | _, _ => false

/-- The number of arguments. -/
def arity : {k : Kind} → Code Var Val Op F k → Nat
  | _, cons _ es => es.arity + 1
  | _, _ => 0

end Code

end Inliner
end Clpkm
