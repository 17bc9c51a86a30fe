import Clpkm.Inliner.Capture
import Clpkm.Inliner.Recursion

/-!
# What is promised of a program

The renamer gives all variables and parameters names of their own.  A function that is
called is another one than the caller, for want of recursion, and so the arguments do not
mention its parameters.
-/

namespace Clpkm
namespace Inliner

variable {Var Val Op F : Type}

namespace Program
variable (P : Program Var Val Op F)

end Program

variable {k : Kind} {e : Code Var Val Op F k}

section each
variable {Q Q' R : {d : Bool} → Nat → F → Code Var Val Op F (.args d) → Prop}

end each

variable [Zero Val] [DecidableEq F] {P : Program Var Val Op F} {T : CallSiteTable F (Nat × F)}

end Inliner
end Clpkm
