import Clpkm.Covfefe
import Clpkm.Device.Locfefe

/-!
# The profile of a kernel

While the compiler instruments a kernel it fills a `KernelProfile`, which is all that the
runtime learns about it: which parameters point to local memory, how many bytes the
variables in local memory take, and the largest number of bytes that a checkpoint needs
for private variables.

What the compiler sees of a kernel is a `KernelSource`.  That the sizes of types are
multiples of their alignments, and that the tracker yields the variables with the largest
alignment first, are fields of it.
-/

namespace Clpkm

/-- The number of bytes of a variable. -/
def VarDecl.size (vd : VarDecl) : Nat := (vd.width + 7) / 8

/-- The size of the type is a multiple of its alignment, which is a power of two of at least
a byte. -/
def VarDecl.Padded (vd : VarDecl) : Prop := ∃ e, vd.align = 8 * 2 ^ e ∧ 2 ^ e ∣ vd.size

/-- What the compiler sees of a kernel. -/
structure KernelSource where
  /-- for each parameter, whether it points to local memory -/
  params : List Bool
  /-- the variables in local memory -/
  locDecl : List VarDecl
  /-- the live variables at each checkpoint -/
  checkpoints : List (List VarDecl)
  padded : ∀ l ∈ checkpoints, ∀ vd ∈ l, vd.Padded
  /-- `SortBySize` -/
  sorted : ∀ l ∈ checkpoints, l.Pairwise fun a b => b.align ≤ a.align

/-- `KernelProfile`, without its name. -/
structure KernelProfile where
  numOfParam : Nat
  reqPrvSize : Nat
  reqLocSize : Nat
  locPtrParamIdx : List Nat
  deriving DecidableEq, Repr

namespace Instrumentor

/-- The parameters that point to local memory, from a position on. -/
def locPtrParamIdx : Nat → List Bool → List Nat
  | _, [] => []
  | i, true :: ps => i :: locPtrParamIdx (i + 1) ps
  | i, false :: ps => locPtrParamIdx (i + 1) ps

/-- The entry of the kernel in the profile list. -/
def profile (k : KernelSource) : KernelProfile where
  numOfParam := k.params.length
  reqPrvSize := k.checkpoints.foldl (fun req l => max req (generateCovfefe l).reqPrvSize) 0
  reqLocSize := Locfefe.reqLocSize (k.locDecl.map VarDecl.size)
  locPtrParamIdx := locPtrParamIdx 0 k.params

theorem mem_locPtrParamIdx {i j : Nat} {ps : List Bool} (h : j ∈ locPtrParamIdx i ps) :
    i ≤ j ∧ j < i + ps.length := by
  induction ps generalizing i with
  | nil => cases h
  | cons p ps ih =>
    rw [List.length_cons]
    cases p with
    | false =>
      have := ih h
      omega
    | true =>
      rcases List.mem_cons.mp h with rfl | h
      · omega
      · have := ih h
        omega

/-- The compiler generates the parameters in order. -/
theorem sorted_locPtrParamIdx (i : Nat) (ps : List Bool) :
    (locPtrParamIdx i ps).Pairwise (· < ·) := by
  induction ps generalizing i with
  | nil => exact List.Pairwise.nil
  | cons p ps ih =>
    cases p with
    | false => exact ih (i + 1)
    | true =>
      refine List.Pairwise.cons (fun j hj => ?_) (ih (i + 1))
      have := mem_locPtrParamIdx hj
      omega

/-- The profile has room for every checkpoint. -/
theorem reqPrvSize_le (k : KernelSource) {l : List VarDecl} (hl : l ∈ k.checkpoints) :
    (generateCovfefe l).reqPrvSize ≤ (profile k).reqPrvSize := by
  have hfold : ∀ (ls : List (List VarDecl)) (req : Nat),
      req ≤ ls.foldl (fun req l => max req (generateCovfefe l).reqPrvSize) req ∧
        ∀ l ∈ ls, (generateCovfefe l).reqPrvSize ≤
          ls.foldl (fun req l => max req (generateCovfefe l).reqPrvSize) req := by
    intro ls
    induction ls with
    | nil => exact fun req => ⟨Nat.le_refl req, fun l hl => nomatch hl⟩
    | cons a ls ih =>
      intro req
      obtain ⟨hle, hmem⟩ := ih (max req (generateCovfefe a).reqPrvSize)
      refine ⟨(Nat.le_max_left _ _).trans hle, fun l hl => ?_⟩
      rcases List.mem_cons.mp hl with rfl | hl
      · exact (Nat.le_max_right _ _).trans hle
      · exact hmem l hl
  exact (hfold k.checkpoints 0).2 l hl

end Instrumentor
end Clpkm
