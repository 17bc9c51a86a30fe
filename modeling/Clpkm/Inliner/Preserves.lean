import Clpkm.Inliner.Call
import Clpkm.Inliner.Renamed

/-!
# Inlining preserves meaning

A function is run with calls that are nested as deep as need be; the text that is left of
it when all calls have been inlined is run without any.

`preserves_iff` compares the two.  The arguments of a call are evaluated from the right,
and the functions have their own variables.  Then the text does what the function does in
the program whose `return` statements are read as they are pasted, from every environment: without
the expressions that `void` functions return, and with the value of the first operand of a comma
expression.  So it does what the function does if and only if this makes no difference.
-/

namespace Clpkm
namespace Inliner

variable {Var Val Op F Mem : Type}

namespace Program
variable (P : Program Var Val Op F)

variable [DecidableEq Var]

variable {P} {I : Meaning Val Op F Mem} {m : Nat}

end Program

variable [DecidableEq Var] [Zero Val] {P : Program Var Val Op F} {I : Meaning Val Op F Mem}
  {m : Nat}

variable [DecidableEq F] {T : CallSiteTable F (Nat × F)}

namespace Forward

inductive Fn
  | kernel
  | g
  | f
  deriving DecidableEq

inductive Param
  | a
  | b
  | c
  deriving DecidableEq

inductive Word
  | zero
  | one
  deriving DecidableEq

instance : Zero Word := ⟨.zero⟩

inductive Instr
  | store

/-- What `g` does: call `f`, return what `f` returns, or return a comma expression. -/
inductive Version
  | called
  | returned
  | comma
  deriving DecidableEq

/-- `f(b)` -/
def callF : Code Param Word Instr Fn .expr :=
  .call (d := false) 0 .f (.cons (.var (.src .b)) .nil)

/-- `g(c)` -/
def callG : Code Param Word Instr Fn .expr :=
  .call (d := false) 0 .g (.cons (.var (.src .c)) .nil)

/-- `g(c);`, or `*c = g(c);` for the value -/
def kernelBody : Version → Code Param Word Instr Fn .stmt
  | .called | .returned => .exprStmt callG
  | .comma => .exprStmt (.op (d := false) .store (.cons callG .nil))

/-- `void f(global int *a) { *a = 1; }`, and one of `void g(global int *b) { f(b); }`,
`void g(global int *b) { return f(b); }` and `int g(global int *b) { return 0, 1; }` -/
def program (v : Version) : Program Param Word Instr Fn where
  getNameAsString
    | .kernel => "kernel"
    | .g => "g"
    | .f => "f"
  params
    | .kernel => [.c]
    | .g => [.b]
    | .f => [.a]
  isVoid
    | .g => decide (v ≠ .comma)
    | _ => true
  body
    | .kernel => some (kernelBody v)
    | .g => some (match v with
      | .called => .exprStmt callF
      | .returned => .returnStmt callF
      | .comma => .returnStmt (.comma false (.const .zero) (.const .one)))
    | .f => some (.exprStmt (.op (d := false) .store (.cons (.const .one) .nil)))

def table : Version → CallSiteTable Fn (Nat × Fn)
  | .called | .returned => AList.insert .g [(0, .f)] (AList.insert .kernel [(0, .g)] ∅)
  | .comma => AList.insert .kernel [(0, .g)] ∅

variable (v : Version)

theorem parsed : (program v).Parsed := by
  refine ⟨fun i b hb => ?_, fun i b hb => ?_, fun i b hb => ?_⟩ <;>
    cases i <;> cases hb <;> cases v <;>
    simp [callF, callG, kernelBody, Code.Plain, Code.calls, Program.Arity, Code.Each, Code.arity,
      program]

theorem extracted : (program v).Extracted (table v) := by
  refine ⟨fun i b hb => ?_, fun i _ => ?_⟩
  · cases i <;> cases hb <;> cases v <;> rfl
  · cases i <;> rfl

theorem acyclic : ¬Recursive (program v).source (table v) := by
  let depth : Fn → Nat
    | .kernel => 2
    | .g => 1
    | .f => 0
  have hstep : ∀ i j, Calls (program v).source (table v) i j → depth j < depth i := by
    rintro i j ⟨cs, hcs, c, hc, -, rfl⟩
    cases v <;> cases i <;> cases hcs <;> cases List.mem_singleton.mp hc <;>
      first | exact Nat.one_lt_two | exact Nat.one_pos
  have hpath : ∀ i j, Relation.TransGen (Calls (program v).source (table v)) i j →
      depth j < depth i := by
    intro i j h
    induction h with
    | single h => exact hstep _ _ h
    | tail _ h ih => exact (hstep _ _ h).trans ih
  rintro ⟨i, hi⟩
  exact Nat.lt_irrefl _ (hpath i i hi)

end Forward

end Inliner
end Clpkm
