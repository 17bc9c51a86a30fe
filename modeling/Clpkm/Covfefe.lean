import Mathlib.Data.List.Basic
import Mathlib.Tactic.Common

/-!
# The code that saves and reloads private variables

At a checkpoint the compiler asks `LiveVarTracker` which of the variables it tracks are
live and emits, for those in the private address space, one call that stores the
variable and one that loads it (`GenerateCovfefe`).  Both calls name the same place of
the live value buffer.  The helper is chosen by the alignment of the variable's type;
the places follow each other without padding.

Clang's live variable analysis is a parameter: `isLive b v` is
`LiveVariables::isLive` and `getBlock` is `CFGStmtMap::getBlock`.
-/

namespace Clpkm

universe u v w

/-- The address spaces of OpenCL that `GenerateCovfefe` tells apart. -/
inductive AddressSpace
  | opencl_private
  | opencl_global
  | opencl_constant
  | opencl_local
  deriving DecidableEq, Repr

/-- `clang::VarDecl`, with what `getTypeInfo` says about its type, in bits. -/
structure VarDecl where
  /-- the identity of the declaration -/
  addr : Nat
  name : String
  width : Nat
  align : Nat
  addressSpace : AddressSpace
  deriving DecidableEq, Repr

namespace LiveVarTracker
variable {Block : Type u} {Stmt : Type v} {Var : Type w}

/-- `IsLiveAfter`: the liveness of the variable in the block of the statement.  Clang has a block
for every statement of the function; without one the source is at `llvm_unreachable`, where this
is false. -/
def isLiveAfter (isLive : Block → Var → Bool) (getBlock : Stmt → Option Block)
    (vd : Var) (s : Stmt) : Bool :=
  match getBlock s with
  | some b => isLive b vd
  | none => false

/-- `GenLivenessAfter`: the tracked variables that are live, in the order of the
tracker. -/
def genLivenessAfter (isLive : Block → Var → Bool) (getBlock : Stmt → Option Block)
    (tracker : List Var) (s : Stmt) : List Var :=
  tracker.filter (fun vd => isLiveAfter isLive getBlock vd s)

end LiveVarTracker

namespace Instrumentor

/-- The helpers that copy a private variable, by the size of the unit they copy. -/
inductive MemcpyPrivate
  /-- `__clpkm_store_private` and `__clpkm_load_private` -/
  | align_1
  /-- `__clpkm_store_private_align_2` and `__clpkm_load_private_align_2` -/
  | align_2
  /-- `__clpkm_store_private_align_4` and `__clpkm_load_private_align_4` -/
  | align_4
  deriving DecidableEq, Repr

/-- A call of one of the helpers. -/
structure PrivateCopy where
  memcpy : MemcpyPrivate
  /-- the offset from `__clpkm_prv` -/
  offset : Nat
  var : VarDecl
  size : Nat
  deriving DecidableEq, Repr

/-- The two sequences of calls at a checkpoint. -/
structure Covfefe where
  store : List PrivateCopy
  load : List PrivateCopy
  reqPrvSize : Nat
  deriving DecidableEq, Repr

/-- The helper for a variable of the alignment, which is in bits. -/
def memcpyOf (align : Nat) : MemcpyPrivate :=
  if 32 ≤ align then .align_4 else if 16 ≤ align then .align_2 else .align_1

/-- The loop body of `GenerateCovfefe`. -/
def emitVar (c : Covfefe) (vd : VarDecl) : Covfefe :=
  match vd.addressSpace with
  | .opencl_private =>
    let size := (vd.width + 7) / 8
    let p : PrivateCopy := ⟨memcpyOf vd.align, c.reqPrvSize, vd, size⟩
    ⟨c.store ++ [p], c.load ++ [p], c.reqPrvSize + size⟩
  | .opencl_global | .opencl_constant | .opencl_local => c

/-- `GenerateCovfefe`; the size is padded to a multiple of 4. -/
def generateCovfefe (l : List VarDecl) : Covfefe :=
  let c := l.foldl emitVar ⟨[], [], 0⟩
  { c with reqPrvSize := (c.reqPrvSize + 3) / 4 * 4 }

/-- The variable is stored by the one sequence and loaded by the other. -/
def Covfefe.Saves (c : Covfefe) (vd : VarDecl) : Prop :=
  vd ∈ c.store.map PrivateCopy.var ∧ vd ∈ c.load.map PrivateCopy.var

/-- Each sequence copies the private variables of the list, in its order. -/
theorem foldl_emitVar (l : List VarDecl) (c : Covfefe) :
    (l.foldl emitVar c).store.map PrivateCopy.var =
      c.store.map PrivateCopy.var ++ l.filter (fun vd => vd.addressSpace = .opencl_private) ∧
    (l.foldl emitVar c).load.map PrivateCopy.var =
      c.load.map PrivateCopy.var ++ l.filter (fun vd => vd.addressSpace = .opencl_private) := by
  induction l generalizing c with
  | nil => simp
  | cons vd l ih =>
    rw [List.foldl_cons]
    obtain ⟨hs, hl⟩ := ih (emitVar c vd)
    rw [hs, hl]
    cases ha : vd.addressSpace <;> simp [emitVar, ha]

/-- A checkpoint saves the private variables of the list it is generated from. -/
theorem saves_generateCovfefe (l : List VarDecl) (vd : VarDecl) :
    (generateCovfefe l).Saves vd ↔ vd ∈ l ∧ vd.addressSpace = .opencl_private := by
  obtain ⟨hs, hl⟩ := foldl_emitVar l ⟨[], [], 0⟩
  unfold Covfefe.Saves generateCovfefe
  simp only [hs, hl, List.map_nil, List.nil_append, List.mem_filter, decide_eq_true_eq, and_self]

end Instrumentor
end Clpkm
