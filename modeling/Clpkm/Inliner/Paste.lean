import Clpkm.Inliner.CallSites
import Clpkm.Inliner.Code
import Mathlib.Algebra.Notation.Defs

/-!
# What is put in place of a call

`GenCodeSnippet` cuts the body of a function at its `return` statements, and
`PerformInline` puts the pieces together again: a `return` becomes an assignment to the
result variable of this call and a jump to its label.  In front there are the parameters,
declared from the last one to the first and initialised with the arguments.  Label and
result variable get numbers that have not been used before.

The `Text` has the bodies of all functions, as rewritten so far, and the cache.  A call
that stands in a statement expression is not found any more: the inliner has lost track
of its place.
-/

namespace Clpkm
namespace Inliner

/-- The functions of a source file; a builtin function has no body. -/
structure Program (Var Val Op F : Type) where
  getNameAsString : F → String
  params : F → List Var
  isVoid : F → Bool
  /-- what stands between the braces -/
  body : F → Option (Code Var Val Op F .stmt)

/-- What the inliner writes to. -/
structure Text (Var Val Op F : Type) where
  body : F → Option (Code Var Val Op F .stmt)
  /-- `CC` -/
  cache : F → Option (Code Var Val Op F .stmt)
  nonce : Nat

variable {Var Val Op F : Type} [Zero Val]

namespace Code

omit [Zero Val] in
/-- `x = e` as it is pasted, `e` without parentheses: of a comma expression only the first operand
is assigned. -/
def assignTo (x : Name Var) : {k : Kind} → Code Var Val Op F k → Code Var Val Op F k
  | _, comma false e₁ e₂ => .comma false (e₁.assignTo x) e₂
  | .expr, e => .assign x e
  | _, e => e

/-- The `return` statements, patched with do-while and goto. -/
def patchReturns (n : Nat) (void : Bool) :
    {k : Kind} → Code Var Val Op F k → Code Var Val Op F k
  | _, returnStmt e => .loop true (.const 0) .nothing (.compound
      (if void then .gotoStmt n
      else .seq (.exprStmt (e.assignTo (.ret (n + 1)))) (.gotoStmt n)))
  | _, seq s t => .seq (s.patchReturns n void) (t.patchReturns n void)
  | _, compound s => .compound (s.patchReturns n void)
  | _, ifStmt c s t => .ifStmt c (s.patchReturns n void) (t.patchReturns n void)
  | _, loop bodyFirst c i b => .loop bodyFirst c i (b.patchReturns n void)
  | _, e => e

/-- The parameters are put in front, one after the other. -/
def bindParams {d : Bool} :
    List Var → Code Var Val Op F (.args d) → Code Var Val Op F .stmt → Code Var Val Op F .stmt
  | p :: ps, cons e es, s => bindParams ps es (.seq (.decl (.src p) e) s)
  | _, _, s => s

omit [Zero Val] in
variable [DecidableEq F] in
/-- A call is replaced. -/
def replaceCall (c : Nat × F)
    (text : (d : Bool) → Code Var Val Op F (.args d) → Code Var Val Op F .expr) :
    {k : Kind} → Code Var Val Op F k → Code Var Val Op F k
  | _, op o es => .op o (es.replaceCall c text)
  | _, cond b e₁ e₂ =>
    .cond (b.replaceCall c text) (e₁.replaceCall c text) (e₂.replaceCall c text)
  | _, comma p e₁ e₂ => .comma p (e₁.replaceCall c text) (e₂.replaceCall c text)
  | _, assign x e => .assign x (e.replaceCall c text)
  | _, call (d := d) loc g es =>
    if (loc, g) = c then text d es else .call loc g (es.replaceCall c text)
  | _, cons e es => .cons (e.replaceCall c text) (es.replaceCall c text)
  | _, exprStmt e => .exprStmt (e.replaceCall c text)
  | _, decl x e => .decl x (e.replaceCall c text)
  | _, seq s t => .seq (s.replaceCall c text) (t.replaceCall c text)
  | _, compound s => .compound (s.replaceCall c text)
  | _, ifStmt b s t =>
    .ifStmt (b.replaceCall c text) (s.replaceCall c text) (t.replaceCall c text)
  | _, loop bodyFirst b i s =>
    .loop bodyFirst (b.replaceCall c text) (i.replaceCall c text) (s.replaceCall c text)
  | _, returnStmt e => .returnStmt (e.replaceCall c text)
  | _, e => e

end Code

namespace Program
variable (P : Program Var Val Op F)

/-- The result variable of a call of the function. -/
def retVar (n : Nat) (g : F) : Option (Name Var) := if P.isVoid g then none else some (.ret (n + 1))

/-- The text in place of a call of a function, from the cached text of its body. -/
def paste (n : Nat) (g : F) {d : Bool} (es : Code Var Val Op F (.args d))
    (snippet : Code Var Val Op F .stmt) : Code Var Val Op F .expr :=
  .stmtExpr n (P.retVar n g)
    (.bindParams (P.params g) es (.compound (snippet.patchReturns n (P.isVoid g))))

/-- The calls that are to be inlined. -/
def pending {k : Kind} (e : Code Var Val Op F k) : List (Nat × F) :=
  e.calls.filter fun c => (P.body c.2).isSome

variable [DecidableEq F]

/-- The text in the cache, for a function whose calls have been inlined. -/
def addSnippet (f : F) (t : Text Var Val Op F) : Text Var Val Op F :=
  { t with cache := Function.update t.cache f (t.body f) }

/-- The last part of the loop of `PerformInline` -/
def replace (f : F) (c : Nat × F) (t : Text Var Val Op F) : Text Var Val Op F :=
  match t.cache c.2, t.body f with
  | some snippet, some s =>
    { t with
      body := Function.update t.body f
        (some (s.replaceCall c fun _ es => P.paste t.nonce c.2 es snippet))
      nonce := t.nonce + 2 }
  | _, _ => t

/-- The program as the inliner works on it. -/
def source : Source F (Nat × F) (Text Var Val Op F) where
  getNameAsString := P.getNameAsString
  hasBody f := (P.body f).isSome
  getDefinition f := f
  getDirectCallee := Prod.snd
  addSnippet := addSnippet
  replace := P.replace
  hasBody_getDefinition _ h := h

/-- The text before anything is inlined. -/
def text : Text Var Val Op F := ⟨P.body, fun _ => none, 0⟩

/-- All calls have as many arguments as there are parameters. -/
def Arity {k : Kind} (e : Code Var Val Op F k) : Prop :=
  e.Each fun _ g es => (P.body g).isSome = true → es.arity = (P.params g).length

/-- A program as it is parsed: nothing is in it that only the inliner adds, and each call stands
in a place of its own. -/
structure Parsed : Prop where
  plain : ∀ f b, P.body f = some b → b.Plain
  nodup : ∀ f b, P.body f = some b → b.calls.Nodup
  arity : ∀ f b, P.body f = some b → P.Arity b

/-- A table as `Extractor` builds it: the calls of every function that has some. -/
structure Extracted (T : CallSiteTable F (Nat × F)) : Prop where
  lookup : ∀ f b, P.body f = some b → (T.lookup f).getD [] = b.calls
  body : ∀ f ∈ T.keys, (P.body f).isSome = true

end Program
end Inliner
end Clpkm
