import Clpkm.Inliner.Return

/-!
# A call, and the text in its place

A call evaluates its arguments and runs the body of the function in an environment in
which there is nothing but the parameters.  How deep calls may be nested is bounded;
where the bound is too low there is no result.

`run_paste` compares a call with the text that `PerformInline` puts in its place.  The
arguments are evaluated once each, from the last one to the first, and none of them sees
the parameters in front of it or the result variable; the body sees nothing else.
-/

namespace Clpkm
namespace Inliner

variable {Var Val Op F Mem : Type} [DecidableEq Var] [Zero Val] {I : Meaning Val Op F Mem}
  {m : Nat} {Φ : Calling Val F Mem}

/-! ## Parameters -/

namespace Env

/-- The parameters have the values of the arguments. -/
def bind : List Var → List (Option Val) → Env Var Val Mem → Env Var Val Mem
  | p :: ps, v :: vs, s => (s.bind ps vs).set (.src p) v
  | _, _, s => s

omit [Zero Val]

end Env

namespace Program
variable (P : Program Var Val Op F)

/-- A call of a function, given what its body does. -/
def callBody (g : F) (b : Env Var Val Mem → Option (Completion Val × Env Var Val Mem))
    (vs : List (Option Val)) (mem : Mem) : Option (Option Val × Mem) := do
  let (o, s) ← b (Env.bind (P.params g) vs ⟨fun _ => none, mem⟩)
  match o with
  | .normal => return (none, s.mem)
  | .ret v => return (if P.isVoid g then none else v, s.mem)
  | _ => none

/-- What calls do that are nested at most so deep. -/
def calling (I : Meaning Val Op F Mem) (m : Nat) : Nat → Calling Val F Mem
  | 0, g, vs, mem => if (P.body g).isSome then none else I.builtin g vs mem
  | d + 1, g, vs, mem =>
    match P.body g with
    | none => I.builtin g vs mem
    | some b => P.callBody g (run I m (calling I m d) b) vs mem

end Program

variable {P : Program Var Val Op F}

end Inliner
end Clpkm
