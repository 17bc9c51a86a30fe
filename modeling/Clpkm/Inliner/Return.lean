import Clpkm.Inliner.Eval
import Clpkm.Inliner.Paste

/-!
# A body that is cut at its `return` statements

`GenCodeSnippet` cuts the text of a body at its `return` statements, and `PerformInline`
puts an assignment to the result variable and a jump in the place of each.  Of what
stands behind `return` in a `void` function nothing is left, and of a comma expression without
parentheses only the first operand is assigned.

`run_patchReturns` says what the text does that comes out: a `return` becomes a jump to
the label, from any depth of blocks and loops, and everything else is as before, but for
the expressions that are dropped.
-/

namespace Clpkm
namespace Inliner

variable {Var Val Op F Mem : Type}

namespace Code

/-- `return e;` as it is pasted: `return;` in a `void` function, and otherwise
`{ T r; r = e; return r; }`, which is `return e;` unless `e` is a comma expression. -/
def cutReturn (void : Bool) (e : Code Var Val Op F .expr) : Code Var Val Op F .stmt :=
  if void then .returnStmt .nothing
  else if e.isComma then
    .compound (.seq (.decl (.ret 0) .nothing)
      (.seq (.exprStmt (e.assignTo (.ret 0))) (.returnStmt (.var (.ret 0)))))
  else .returnStmt e

/-- The `return` statements as they are pasted. -/
def cutReturns (void : Bool) : {k : Kind} → Code Var Val Op F k → Code Var Val Op F k
  | _, returnStmt e => .cutReturn void e
  | _, seq s t => .seq (s.cutReturns void) (t.cutReturns void)
  | _, compound s => .compound (s.cutReturns void)
  | _, ifStmt c s t => .ifStmt c (s.cutReturns void) (t.cutReturns void)
  | _, loop bodyFirst c i b => .loop bodyFirst c i (b.cutReturns void)
  | _, e => e

end Code

/-! ## Jumps -/

/-- A jump goes to one of some labels. -/
def JumpsIn (L : List Nat) : {k : Kind} → Out Val k → Prop
  | .stmt, .jump l => l ∈ L
  | _, _ => True

section loop
variable {truthy : Val → Bool} {c i : Env Var Val Mem → Option (Option Val × Env Var Val Mem)}
  {b again : Env Var Val Mem → Option (Completion Val × Env Var Val Mem)}
  {p : Completion Val → Prop}

end loop

theorem JumpsIn.mono {L L' : List Nat} {k : Kind} {o : Out Val k} (h : JumpsIn L o)
    (hL : ∀ l ∈ L, l ∈ L') : JumpsIn L' o := by
  cases k with
  | stmt =>
    cases o with
    | jump l => exact hL l h
    | _ => trivial
  | _ => trivial

theorem JumpsIn.leave {L : List Nat} {o : Completion Val} (h : JumpsIn (k := .stmt) L o) :
    JumpsIn (k := .stmt) L o.leave := by
  cases o with
  | jump l => exact h
  | _ => trivial

variable [DecidableEq Var] {I : Meaning Val Op F Mem} {m : Nat} {Φ : Calling Val F Mem}

section loop
variable {truthy : Val → Bool} {c i : Env Var Val Mem → Option (Out Val .expr × Env Var Val Mem)}
  {b b' again again' : Env Var Val Mem → Option (Out Val .stmt × Env Var Val Mem)}
  {l : Nat} {void : Bool}

end loop

omit [DecidableEq Var] in
/-- Nothing else is mentioned where a variable is assigned. -/
theorem free_assignTo {x y : Name Var} {k : Kind} {e : Code Var Val Op F k}
    (h : (e.assignTo x).Free y) : y = x ∨ e.Free y := by
  induction e with
  | comma p e₁ e₂ ih₁ =>
    cases p with
    | true => exact h
    | false => exact h.elim (fun h => (ih₁ h).imp_right Or.inl) fun h => .inr (.inr h)
  | const | nothing | var | op | cond | assign | call | stmtExpr => exact h
  | _ => exact .inr h

section first
variable (I m Φ)

variable {I m Φ}

end first

variable [Zero Val]

omit [DecidableEq Var] in
theorem decls_patchReturns (l : Nat) (void : Bool) {k : Kind} (e : Code Var Val Op F k) :
    (e.patchReturns l void).decls = e.decls := by
  induction e with
  | seq s t ihs iht => simp only [Code.patchReturns, Code.decls, ihs, iht]
  | _ => rfl

end Inliner
end Clpkm
