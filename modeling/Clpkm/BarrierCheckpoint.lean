import Clpkm.FlowGraph
import Clpkm.Covfefe

/-!
# What a barrier saves

The checkpoint at a barrier saves the tracked variables that `IsLiveAfter` finds live
after the call.  `IsLiveAfter` asks for the block of the call, and Clang answers for
the end of the block.  A variable that the rest of the block reads, and nothing after
the block, is not live there: `barrier_forgets` is a straight-line kernel that loses
it.  `barrier_saves_iff` says exactly when a barrier saves everything the resumed code
reads: when every variable the rest of its block reads before declaring it is live at
the end of the block as well.

Clang's analysis runs with `killAtAssign` off, so every mention of a variable counts,
and only its declaration ends its life.
-/

namespace Clpkm
namespace BarrierCheckpoint
open FlowGraph Instrumentor

universe u

/-- An element of a basic block of a kernel, as far as its variables are concerned. -/
inductive Elem
  /-- the value of the variable is read -/
  | read (v : VarDecl)
  /-- the variable is the left-hand side of an assignment -/
  | assign (v : VarDecl)
  | decl (v : VarDecl)
  /-- a call of `barrier` -/
  | barrier (call : Nat)
  deriving DecidableEq, Repr

/-- The element reads the variable. -/
def Elem.Reads (v : VarDecl) (e : Elem) : Prop := e = .read v

/-- The element refers to the variable, so that Clang takes it for a use. -/
def Elem.Mentions (v : VarDecl) (e : Elem) : Prop := e = .read v ∨ e = .assign v

/-- The element declares the variable. -/
def Elem.Declares (v : VarDecl) (e : Elem) : Prop := e = .decl v

variable {Block : Type u} (g : Cfg Block Elem)

/-- What `LiveVariables::isLive` answers for: liveness at the end of the block. -/
def ClangLive (b : Block) (v : VarDecl) : Prop := g.LiveAtEnd (Elem.Mentions v) (Elem.Declares v) b

/-- Some path from the point right after the barrier reads the variable before it
crosses its declaration. -/
def ReadAfter (post : List Elem) (b : Block) (v : VarDecl) : Prop :=
  g.LiveAt (Elem.Reads v) (Elem.Declares v) post b

/-- The checkpoint code of a barrier call, as `VisitCallExpr` generates it. -/
def barrierCovfefe (isLive : Block → VarDecl → Bool) (getBlock : Nat → Option Block)
    (tracker : List VarDecl) (call : Nat) : Covfefe :=
  generateCovfefe (LiveVarTracker.genLivenessAfter isLive getBlock tracker call)

/-- The barrier saves every tracked private variable that the resumed code reads. -/
def SavesAll (isLive : Block → VarDecl → Bool) (getBlock : Nat → Option Block)
    (tracker : List VarDecl) (call : Nat) (post : List Elem) (b : Block) : Prop :=
  ∀ v ∈ tracker, v.addressSpace = .opencl_private → ReadAfter g post b v →
    (barrierCovfefe isLive getBlock tracker call).Saves v

variable {g}

/-- A barrier saves the tracked private variables that are live at the end of its
block. -/
theorem saves_barrierCovfefe {isLive : Block → VarDecl → Bool} {getBlock : Nat → Option Block}
    {tracker : List VarDecl} {call : Nat} {b : Block} (hb : getBlock call = some b)
    (v : VarDecl) : (barrierCovfefe isLive getBlock tracker call).Saves v ↔
      (v ∈ tracker ∧ isLive b v = true) ∧ v.addressSpace = .opencl_private := by
  unfold barrierCovfefe LiveVarTracker.genLivenessAfter
  rw [saves_generateCovfefe, List.mem_filter]
  simp only [LiveVarTracker.isLiveAfter, hb]

/-- **What a barrier saves.**  Let `isLive` answer for the end of a block and let
`getBlock` map a barrier call to the block that contains it.  A barrier saves every
tracked private variable that some path from it reads before declaring it, if and only
if every such variable that the rest of the barrier's block reads before declaring it
is also live at the end of the block. -/
theorem barrier_saves_iff (g : Cfg Block Elem) (isLive : Block → VarDecl → Bool)
    (getBlock : Nat → Option Block) (tracker : List VarDecl)
    (hlive : ∀ b v, isLive b v = true ↔ ClangLive g b v)
    (hblock : ∀ b call, Elem.barrier call ∈ g.elems b → getBlock call = some b)
    (b : Block) (call : Nat) (pre post : List Elem)
    (hb : g.elems b = pre ++ Elem.barrier call :: post) :
    SavesAll g isLive getBlock tracker call post b ↔
      ∀ v ∈ tracker, v.addressSpace = .opencl_private →
        Cfg.UsedFirst (Elem.Reads v) (Elem.Declares v) post → ClangLive g b v := by
  have hget : getBlock call = some b := hblock b call (by rw [hb]; simp)
  have hmention : ∀ (v : VarDecl) (e : Elem), Elem.Reads v e → Elem.Mentions v e :=
    fun v e h => Or.inl h
  constructor
  · intro h v hv hp hused
    have hsaved := h v hv hp (Cfg.live_iff_block.mpr (Or.inl hused))
    exact (hlive b v).mp ((saves_barrierCovfefe hget v).mp hsaved).1.2
  · intro h v hv hp hread
    refine (saves_barrierCovfefe hget v).mpr ⟨⟨hv, (hlive b v).mpr ?_⟩, hp⟩
    rcases Cfg.live_iff_block.mp hread with hused | ⟨_, hend⟩
    · exact h v hv hp hused
    · exact hend.mono (hmention v)

/-! ## Two kernels -/

/-- A private variable of type `int`. -/
def intVar (name : String) : VarDecl := ⟨0, name, 32, 32, .opencl_private⟩

/-- The body of `for (;;) { g[0] = x; barrier(...); }`. -/
def barrierLoop : Cfg Unit Elem where
  elems _ := [.read (intVar "x"), .barrier 0]
  succs _ := [()]

/-- Only `x` is live anywhere in the loop. -/
theorem barrierLoop_live (v : VarDecl) : ClangLive barrierLoop () v ↔ v = intVar "x" := by
  constructor
  · intro h
    have hpoint : ∀ p : List Elem × Unit, (∀ e ∈ p.1, e ∈ barrierLoop.elems ()) →
        Live barrierLoop.Succ (Cfg.AtHead (Elem.Mentions v)) (Cfg.AtHead (Elem.Declares v)) p →
        v = intVar "x" := by
      intro p hp hl
      induction hl with
      | @use p h =>
        match p, h, hp with
        | (e :: es, b), h, hp =>
          have he := hp e List.mem_cons_self
          simp only [barrierLoop, List.mem_cons, List.not_mem_nil, or_false] at he
          rcases he with rfl | rfl
          · rcases h with h | h <;> cases h
            rfl
          · rcases h with h | h <;> cases h
      | step _ hs _ ih =>
        cases hs with
        | elem e es b => exact ih (fun x hx => hp x (List.mem_cons_of_mem e hx))
        | edge _ => exact ih (fun x hx => hx)
    exact hpoint ([], ()) (fun e he => by cases he) h
  · rintro rfl
    refine .step (fun h => h) (.edge (List.mem_singleton.mpr rfl)) (.use (Or.inl rfl))

/-- The barrier of the loop saves `x`, which the next iteration reads. -/
theorem barrier_saves_barrierLoop :
    SavesAll barrierLoop (fun _ v => decide (v = intVar "x")) (fun _ => some ()) [intVar "x"] 0 []
      () := by
  refine (barrier_saves_iff barrierLoop _ _ [intVar "x"] (fun b v => ?_) (fun _ _ _ => rfl) () 0
    [.read (intVar "x")] [] rfl).mpr (fun v _ _ h => h.elim)
  rw [decide_eq_true_eq]
  exact (barrierLoop_live v).symm

/-- The block of `int x; x = 1; barrier(...); g[0] = x;`. -/
def straightLine : Cfg Unit Elem where
  elems _ := [.decl (intVar "x"), .assign (intVar "x"), .barrier 0, .read (intVar "x")]
  succs _ := []

/-- Nothing is live at the end of the last block. -/
theorem straightLine_dead (v : VarDecl) : ¬ ClangLive straightLine () v := by
  intro h
  cases h with
  | use h => exact h
  | step _ hs _ =>
    cases hs with
    | edge h => cases h

/-- **A barrier forgets a variable that only the rest of its block reads.** -/
theorem barrier_forgets :
    ∃ isLive : Unit → VarDecl → Bool, ∃ getBlock : Nat → Option Unit,
      (∀ b v, isLive b v = true ↔ ClangLive straightLine b v) ∧
      (∀ b call, Elem.barrier call ∈ straightLine.elems b → getBlock call = some b) ∧
      ReadAfter straightLine [.read (intVar "x")] () (intVar "x") ∧
      ¬ (barrierCovfefe isLive getBlock [intVar "x"] 0).Saves (intVar "x") := by
  refine ⟨fun _ _ => false, fun _ => some (), fun b v => ?_, fun _ _ _ => rfl, .use rfl, ?_⟩
  · constructor
    · intro h
      cases h
    · intro h
      exact absurd h (straightLine_dead v)
  · intro hsaved
    have hget : (fun _ : Nat => some ()) 0 = some () := rfl
    have hlive := ((saves_barrierCovfefe hget (intVar "x")).mp hsaved).1.2
    cases hlive

end BarrierCheckpoint
end Clpkm
