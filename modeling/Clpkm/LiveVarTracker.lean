import Clpkm.Covfefe
import Clpkm.KernelProfile
import Clpkm.OrderedMap
import Clpkm.ScopeStack
import Mathlib.Data.BitVec

/-!
# The tracker of variables in scope

Clang considers some variables alive outside of their scope, so the compiler tracks the scopes
itself.  `LiveVarTracker` numbers them by how deep they are: a variable is entered with the
number of the innermost scope, and at the end of a scope all variables are erased whose
number is not smaller.  The next scope gets the same number again.

The variables are ordered by the alignment of their types, then by their addresses, so
that those with the largest alignment come first when the live ones are enumerated.

`traverse` is what the visitor of the compiler does to the tracker below a function.
`tracker_follows_scope` compares the tracker with a stack of sets after each of these calls.
-/

namespace Clpkm
open ScopeStack (Call WellNested StillOpen AddedInOpen)

universe u v w

variable {Var : Type u} [LinearOrder Var]

/-- `SortBySize`; the order of the declarations is that of their addresses. -/
def SortBySize (align : Var → Nat) (lhs rhs : Var) : Prop :=
  if align lhs ≠ align rhs then align lhs > align rhs else lhs < rhs

instance (align : Var → Nat) : DecidableRel (SortBySize align) := fun _ _ =>
  inferInstanceAs (Decidable (ite _ _ _))

theorem sortBySize_iff {align : Var → Nat} {a b : Var} :
    SortBySize align a b ↔ align b < align a ∨ (align a = align b ∧ a < b) := by
  unfold SortBySize
  by_cases h : align a = align b
  · rw [if_neg (not_not.mpr h)]
    exact ⟨fun hlt => .inr ⟨h, hlt⟩, fun h' => h'.elim (fun hlt => by omega) And.right⟩
  · rw [if_pos h]
    exact ⟨.inl, fun h' => h'.elim id fun he => absurd he.1 h⟩

instance (align : Var → Nat) : IsStrictTotalOrder Var (SortBySize align) where
  irrefl a h := by
    rcases sortBySize_iff.mp h with h | h
    · exact Nat.lt_irrefl _ h
    · exact lt_irrefl a h.2
  trans a b c hab hbc := by
    rw [sortBySize_iff] at *
    rcases hab with hab | ⟨hab, hlt⟩ <;> rcases hbc with hbc | ⟨hbc, hlt'⟩
    · exact .inl (hbc.trans hab)
    · exact .inl (hbc ▸ hab)
    · exact .inl (hab ▸ hbc)
    · exact .inr ⟨hab.trans hbc, hlt.trans hlt'⟩
  trichotomous a b hab hba := by
    rw [sortBySize_iff] at hab hba
    have halign : align a = align b := by omega
    rcases lt_trichotomy a b with h | h | h
    · exact absurd (.inr ⟨halign, h⟩) hab
    · exact h
    · exact absurd (.inr ⟨halign.symm, h⟩) hba

/-- `LiveVarTracker`, as far as it is about scopes. -/
structure LiveVarTracker (align : Var → Nat) where
  tracker : OrderedMap Var (BitVec 32) (SortBySize align)
  scope : BitVec 32

namespace LiveVarTracker
variable {align : Var → Nat}

/-- `SetContext`, which begins with `EndContext`. -/
def setContext (_ : LiveVarTracker align) : LiveVarTracker align := ⟨.empty, 0⟩

def addTrack (T : LiveVarTracker align) (vd : Var) : LiveVarTracker align :=
  { T with tracker := T.tracker.emplace vd T.scope }

def newScope (T : LiveVarTracker align) : LiveVarTracker align := { T with scope := T.scope + 1 }

/-- The loop of `PopScope`: the entries that `It` has passed, and those from `It` on. -/
def popLoop (scope : BitVec 32) : List (Var × BitVec 32) → List (Var × BitVec 32) →
    List (Var × BitVec 32)
  | passed, [] => passed
  | passed, e :: rest =>
    if e.2 ≥ scope then popLoop scope passed rest else popLoop scope (passed ++ [e]) rest

omit [LinearOrder Var] in
theorem popLoop_eq (scope : BitVec 32) (passed l : List (Var × BitVec 32)) :
    popLoop scope passed l = passed ++ l.filter (·.2 < scope) := by
  induction l generalizing passed with
  | nil => exact (List.append_nil _).symm
  | cons e l ih =>
    unfold popLoop
    by_cases he : e.2 ≥ scope
    · rw [if_pos he, ih, List.filter_cons, if_neg (by simpa using he)]
    · rw [if_neg he, ih, List.filter_cons, if_pos (by simpa using he), List.append_assoc]
      rfl

theorem popLoop_sublist (T : LiveVarTracker align) :
    (popLoop T.scope [] T.tracker.entries).Sublist T.tracker.entries := by
  rw [popLoop_eq]
  exact List.filter_sublist

def popScope (T : LiveVarTracker align) : LiveVarTracker align where
  tracker := T.tracker.sublist (popLoop T.scope [] T.tracker.entries) T.popLoop_sublist
  scope := T.scope - 1

/-- A call of the visitor. -/
def step (T : LiveVarTracker align) : Call Var → LiveVarTracker align
  | .newScope => T.newScope
  | .add vd => T.addTrack vd
  | .popScope => T.popScope

def run (T : LiveVarTracker align) (cs : List (Call Var)) : LiveVarTracker align :=
  cs.foldl step T

/-- The tracked variables. -/
def tracked (T : LiveVarTracker align) : Set Var := {vd | vd ∈ T.tracker.keys}

/-! ## Enumerating the live variables -/

section liveness
variable {Block : Type v} {Stmt : Type w}

/-- An iterator goes on to the next variable that is live, or to the end. -/
def skip (live : Var → Bool) (it : List (Var × BitVec 32)) : List (Var × BitVec 32) :=
  it.dropWhile fun e => !live e.1

/-- The variables from an iterator on, with `++` from one to the next. -/
def enumerateFrom (live : Var → Bool) : List (Var × BitVec 32) → List Var
  | [] => []
  | e :: it => e.1 :: enumerateFrom live (skip live it)
termination_by it => it.length
decreasing_by
  exact Nat.lt_succ_of_le (List.dropWhile_suffix _).length_le

/-- `GenLivenessAfter`, from `begin` to `end`. -/
def enumerate (T : LiveVarTracker align) (isLive : Block → Var → Bool)
    (getBlock : Stmt → Option Block) (s : Stmt) : List Var :=
  let live vd := isLiveAfter isLive getBlock vd s
  enumerateFrom live (skip live T.tracker.entries)

omit [LinearOrder Var] in
theorem enumerateFrom_skip (live : Var → Bool) (it : List (Var × BitVec 32)) :
    enumerateFrom live (skip live it) = (it.map Prod.fst).filter live := by
  induction it with
  | nil => rw [skip, List.dropWhile_nil, enumerateFrom, List.map_nil, List.filter_nil]
  | cons e it ih =>
    rw [skip, List.dropWhile_cons, List.map_cons, List.filter_cons]
    cases he : live e.1 with
    | true =>
      rw [Bool.not_true, if_neg Bool.false_ne_true, if_pos rfl, enumerateFrom, ih]
    | false =>
      rw [Bool.not_false, if_pos rfl, if_neg Bool.false_ne_true]
      exact ih

/-- **The iterator yields the live variables in the order of the tracker.** -/
theorem enumerate_eq (T : LiveVarTracker align) (isLive : Block → Var → Bool)
    (getBlock : Stmt → Option Block) (s : Stmt) :
    T.enumerate isLive getBlock s = genLivenessAfter isLive getBlock T.tracker.keys s :=
  enumerateFrom_skip _ _

/-- Every live tracked variable is enumerated once. -/
theorem nodup_enumerate (T : LiveVarTracker align) (isLive : Block → Var → Bool)
    (getBlock : Stmt → Option Block) (s : Stmt) : (T.enumerate isLive getBlock s).Nodup := by
  rw [enumerate_eq]
  exact T.tracker.nodup_keys.filter _

theorem mem_enumerate (T : LiveVarTracker align) (isLive : Block → Var → Bool)
    (getBlock : Stmt → Option Block) (s : Stmt) (vd : Var) :
    vd ∈ T.enumerate isLive getBlock s ↔
      vd ∈ T.tracked ∧ isLiveAfter isLive getBlock vd s = true := by
  rw [enumerate_eq]
  exact List.mem_filter

/-- Variables with a larger alignment come first. -/
theorem sorted_enumerate (T : LiveVarTracker align) (isLive : Block → Var → Bool)
    (getBlock : Stmt → Option Block) (s : Stmt) :
    (T.enumerate isLive getBlock s).Pairwise fun a b => align b ≤ align a := by
  rw [enumerate_eq]
  refine (T.tracker.sorted_keys.imp fun h => ?_).sublist List.filter_sublist
  rcases sortBySize_iff.mp h with h | h
  · exact h.le
  · exact h.1.ge

end liveness

/-! ## Scopes as numbers -/

/-- The tracker has each variable with the number of the outermost open scope it was added
in. -/
structure Refines (T : LiveVarTracker align) (st : List (Set Var)) : Prop where
  scope : T.scope.toNat + 1 = st.length
  entries : ∀ vd d, (vd, d) ∈ T.tracker.entries ↔ ScopeStack.Level st vd d.toNat

variable {T : LiveVarTracker align} {st : List (Set Var)} {S : Set Var}

theorem refines_setContext (T : LiveVarTracker align) : Refines T.setContext [∅] := by
  refine ⟨rfl, fun vd d => iff_of_false List.not_mem_nil ?_⟩
  rintro (h | ⟨h, -⟩)
  · exact h
  · exact h

theorem Refines.newScope (h : Refines T st) (hlt : st.length < 4294967296) :
    Refines T.newScope (∅ :: st) := by
  refine ⟨?_, fun vd d => (h.entries vd d).trans ScopeStack.level_newScope.symm⟩
  have hscope := h.scope
  show (T.scope + 1).toNat + 1 = st.length + 1
  bv_omega

theorem Refines.scope_eq (h : Refines T (S :: st)) : T.scope.toNat = st.length :=
  Nat.succ.inj h.scope

theorem Refines.addTrack (h : Refines T (S :: st)) (vd : Var) :
    Refines (T.addTrack vd) (insert vd S :: st) := by
  have hscope := h.scope_eq
  refine ⟨h.scope, fun v d => ?_⟩
  rw [ScopeStack.level_add, ← h.entries]
  refine T.tracker.mem_emplace.trans (or_congr Iff.rfl ?_)
  rw [Prod.mk.injEq, and_assoc]
  refine and_congr Iff.rfl (and_congr ?_ ?_)
  · rw [← hscope, BitVec.toNat_inj]
  · constructor
    · intro hnone e he
      have hlt := he.lt
      rw [List.length_cons] at hlt
      refine hnone (BitVec.ofNat 32 e) ((h.entries vd _).mpr ?_)
      rwa [BitVec.toNat_ofNat, Nat.mod_eq_of_lt (by omega)]
    · exact fun hnone d hd => hnone _ ((h.entries vd d).mp hd)

theorem Refines.popScope (h : Refines T (S :: st)) (hne : st ≠ []) : Refines T.popScope st := by
  have hscope := h.scope_eq
  have hpos := List.length_pos_iff.mpr hne
  refine ⟨?_, fun v d => ?_⟩
  · show (T.scope - 1).toNat + 1 = st.length
    bv_omega
  · show (v, d) ∈ popLoop T.scope [] T.tracker.entries ↔ _
    rw [popLoop_eq, List.nil_append, List.mem_filter, decide_eq_true_eq, h.entries,
      ScopeStack.level_popScope S st, BitVec.lt_def, hscope]

/-- **The tracker refines a stack of sets** over any well-nested calls whose depth the counter
can hold. -/
theorem Refines.run {m n : Nat} {cs : List (Call Var)} (h : Refines T st)
    (hcs : WellNested m n cs) (hn : st.length = n + 1) (hm : m < 4294967296) :
    Refines (T.run cs) (ScopeStack.run st cs) := by
  induction cs generalizing T st n with
  | nil => exact h
  | cons c cs ih =>
    cases st with
    | nil => cases hn
    | cons S st =>
      rw [List.length_cons, Nat.add_right_cancel_iff] at hn
      cases c with
      | newScope =>
        have hlt := hcs.1
        exact ih (h.newScope (by rw [List.length_cons]; omega)) hcs.2
          (congrArg (· + 1 + 1) hn)
      | add vd =>
        exact ih (h.addTrack vd) (n := n) (by cases n <;> exact hcs) (congrArg (· + 1) hn)
      | popScope =>
        cases n with
        | zero => exact hcs.elim
        | succ n =>
          have hne : st ≠ [] := List.ne_nil_of_length_pos (by omega)
          exact ih (h.popScope hne) hcs hn

theorem Refines.tracked_eq (h : Refines T st) (hlen : st.length ≤ 4294967296) :
    T.tracked = ScopeStack.tracked st := by
  ext vd
  rw [← ScopeStack.exists_level_iff]
  constructor
  · intro hvd
    obtain ⟨⟨v, d⟩, he, rfl⟩ := List.mem_map.mp hvd
    exact ⟨d.toNat, (h.entries v d).mp he⟩
  · rintro ⟨d, hd⟩
    have hlt := hd.lt
    refine List.mem_map.mpr ⟨(vd, BitVec.ofNat 32 d), (h.entries vd _).mpr ?_, rfl⟩
    rwa [BitVec.toNat_ofNat, Nat.mod_eq_of_lt (by omega)]

end LiveVarTracker

/-! ## The calls of the visitor -/

namespace Instrumentor

/-- What the visitor meets below a function, in its order. -/
inductive Node (Var : Type u)
  | none
  | append (n m : Node Var)
  /-- a variable or a parameter, with its initialiser -/
  | varDecl (vd : Var) (init : Node Var)
  /-- also the one of a statement expression -/
  | compoundStmt (body : Node Var)
  /-- `for`, `do` and `while`, with the declarations and expressions of the header -/
  | loopStmt (parts : Node Var)
  | switchStmt (parts : Node Var)

/-- Variables of these types are not tracked. -/
def ignoreTypeSet : List String :=
  ["sampler_t", "image1d_t", "image1d_buffer_t", "image1d_array_t", "image2d_t", "image2d_array_t",
    "image3d_t"]

/-- The type without something like `__read_only` in front. -/
def afterLastSpace (typeStr : String) : String :=
  String.ofList (typeStr.toList.reverse.takeWhile (· ≠ ' ')).reverse

/-- `VisitVarDecl` -/
def visitVarDecl (typeStr : Var → String) (vd : Var) : List (Call Var) :=
  if typeStr vd ∈ ignoreTypeSet || afterLastSpace (typeStr vd) ∈ ignoreTypeSet then []
  else [.add vd]

/-- The calls of the tracker, and whether the traversal has come to the end. -/
def visit (typeStr : Var → String) : Node Var → List (Call Var) × Bool
  | .none => ([], true)
  | .append n m =>
    if (visit typeStr n).2 then
      ((visit typeStr n).1 ++ (visit typeStr m).1, (visit typeStr m).2)
    else visit typeStr n
  | .varDecl vd init => (visitVarDecl typeStr vd ++ (visit typeStr init).1, (visit typeStr init).2)
  | .compoundStmt body =>
    (.newScope :: (visit typeStr body).1 ++ [.popScope], (visit typeStr body).2)
  -- a loop is patched and the traversal goes on whatever its parts have returned
  | .loopStmt parts => ((visit typeStr parts).1, true)
  -- an error ends the traversal before the parts
  | .switchStmt _ => ([], false)

/-- How deep compound statements are nested. -/
def Node.depth : Node Var → Nat
  | .none => 0
  | .append n m => max n.depth m.depth
  | .varDecl _ init => init.depth
  | .compoundStmt body => body.depth + 1
  | .loopStmt parts | .switchStmt parts => parts.depth

omit [LinearOrder Var] in
theorem wellNested_visitVarDecl {typeStr : Var → String} {vd : Var} {m n : Nat}
    {cs : List (Call Var)} (h : WellNested m n cs) :
    WellNested m n (visitVarDecl typeStr vd ++ cs) := by
  unfold visitVarDecl
  split
  · exact h
  · cases n <;> exact h

omit [LinearOrder Var] in
/-- **The calls of a traversal are well nested**, also when it ends early. -/
theorem wellNested_visit (typeStr : Var → String) {node : Node Var} {m n : Nat}
    {cs : List (Call Var)} (hdepth : n + node.depth ≤ m) (h : WellNested m n cs) :
    WellNested m n ((visit typeStr node).1 ++ cs) := by
  induction node generalizing n cs with
  | none => exact h
  | append a b iha ihb =>
    unfold Node.depth at hdepth
    unfold visit
    split
    · rw [List.append_assoc]
      exact iha (by omega) (ihb (by omega) h)
    · exact iha (by omega) h
  | varDecl vd init ih =>
    unfold visit
    rw [List.append_assoc]
    exact wellNested_visitVarDecl (ih hdepth h)
  | compoundStmt body ih =>
    unfold Node.depth at hdepth
    show WellNested m n (.newScope :: (((visit typeStr body).1 ++ [.popScope]) ++ cs))
    rw [List.append_assoc]
    exact ⟨by omega, ih (by omega) h⟩
  | loopStmt parts ih => exact ih hdepth h
  | switchStmt parts => exact h

/-- A function that the compiler instruments. -/
structure FunctionDecl (Var : Type u) where
  /-- the parameters and the body -/
  node : Node Var
  /-- nested compound statements begin at different locations, which have 31 bits -/
  depth_le : node.depth ≤ 2147483648

/-- The calls that are made for the function, in their order. -/
def FunctionDecl.calls (f : FunctionDecl Var) (typeStr : Var → String) : List (Call Var) :=
  (visit typeStr f.node).1

/-- The tracker after some of the calls for the function. -/
def FunctionDecl.after {align : Var → Nat} (f : FunctionDecl Var) (typeStr : Var → String)
    (T : LiveVarTracker align) (k : Nat) : LiveVarTracker align :=
  T.setContext.run ((f.calls typeStr).take k)

omit [LinearOrder Var] in
theorem FunctionDecl.wellNested (f : FunctionDecl Var) (typeStr : Var → String) (k : Nat) :
    WellNested 2147483648 0 ((f.calls typeStr).take k) := by
  have hnil : WellNested 2147483648 0 ([] : List (Call Var)) := trivial
  have h := wellNested_visit typeStr (by simpa using f.depth_le) hnil
  rw [List.append_nil] at h
  exact h.take k

/-- What the tracker has after some calls. -/
structure FollowsScope {align : Var → Nat} (T : LiveVarTracker align) (cs : List (Call Var)) :
    Prop where
  /-- the variables that were added in a scope that is still open -/
  mem_tracked : ∀ vd, vd ∈ T.tracked ↔ AddedInOpen cs vd
  /-- the tracker refines a stack of sets -/
  tracked_eq : T.tracked = ScopeStack.tracked (ScopeStack.run [∅] cs)

/-- **The tracker follows the scopes**, after each call of a traversal, and enumerates the
tracked variables that are live once each, the larger alignments first. -/
theorem tracker_follows_scope {align : Var → Nat} {Block : Type v} {Stmt : Type w}
    (f : FunctionDecl Var) (typeStr : Var → String) (T : LiveVarTracker align) (k : Nat)
    (isLive : Block → Var → Bool) (getBlock : Stmt → Option Block) (s : Stmt) :
    FollowsScope (f.after typeStr T k) ((f.calls typeStr).take k) ∧
      ((f.after typeStr T k).enumerate isLive getBlock s).Nodup ∧
      (∀ vd, vd ∈ (f.after typeStr T k).enumerate isLive getBlock s ↔
        vd ∈ (f.after typeStr T k).tracked ∧
          LiveVarTracker.isLiveAfter isLive getBlock vd s = true) ∧
      ((f.after typeStr T k).enumerate isLive getBlock s).Pairwise
        fun a b => align b ≤ align a := by
  have hnested := f.wellNested typeStr k
  have hrun := (LiveVarTracker.refines_setContext T).run hnested rfl (by omega)
  have hlen : (ScopeStack.run [∅] ((f.calls typeStr).take k)).length ≤ 4294967296 := by
    have hlt := (f.after typeStr T k).scope.isLt
    have hscope : (f.after typeStr T k).scope.toNat + 1 = _ := hrun.scope
    omega
  have htracked := hrun.tracked_eq hlen
  refine ⟨⟨fun vd => ?_, htracked⟩, LiveVarTracker.nodup_enumerate ..,
    LiveVarTracker.mem_enumerate _ _ _ _, LiveVarTracker.sorted_enumerate ..⟩
  have hopen : StillOpen ([] : List (Set Var)).length ((f.calls typeStr).take k) :=
    hnested.stillOpen
  refine (Set.ext_iff.mp htracked vd).trans
    ((ScopeStack.mem_tracked_run hopen).trans (or_iff_right ?_))
  -- nothing is tracked before the first call
  rw [ScopeStack.keptOpen_cons]
  rintro (⟨h, -⟩ | ⟨i, S, hi, -⟩)
  · exact h
  · cases hi

/-- `kernel void f(1) { decl 8; for (decl 4;;) { decl 2; } { decl 3; } }`, where the variables are
named by their alignments. -/
def loopInKernel : FunctionDecl Nat where
  node := .append (.varDecl 1 .none) (.compoundStmt (.append (.varDecl 8 .none)
    (.append (.loopStmt (.append (.varDecl 4 .none) (.compoundStmt (.varDecl 2 .none))))
      (.compoundStmt (.varDecl 3 .none)))))
  depth_le := by decide

-- before the last scope ends; the one of the loop body has ended
example :
    (loopInKernel.after (fun _ => "int") (⟨.empty, 7⟩ : LiveVarTracker id) 9).tracker.entries =
      [(8, 1), (4, 1), (3, 2), (1, 0)] := by
  decide

/-! ## The checkpoints of a kernel -/

/-- What the compiler sees of a kernel whose checkpoints take their variables from the
tracker. -/
def kernelSource {Block : Type v} {Stmt : Type w} (decl : Var → VarDecl)
    (isLive : Block → Var → Bool) (getBlock : Stmt → Option Block) (params : List Bool)
    (locDecl : List VarDecl)
    (checkpoints : List (LiveVarTracker (fun vd => (decl vd).align) × Stmt))
    (padded : ∀ c ∈ checkpoints, ∀ vd ∈ c.1.enumerate isLive getBlock c.2, (decl vd).Padded) :
    KernelSource where
  params := params
  locDecl := locDecl
  checkpoints := checkpoints.map fun c => (c.1.enumerate isLive getBlock c.2).map decl
  padded l hl vd hvd := by
    obtain ⟨c, hc, rfl⟩ := List.mem_map.mp hl
    obtain ⟨v, hv, rfl⟩ := List.mem_map.mp hvd
    exact padded c hc v hv
  sorted l hl := by
    obtain ⟨c, hc, rfl⟩ := List.mem_map.mp hl
    exact List.pairwise_map.mpr (c.1.sorted_enumerate isLive getBlock c.2)

end Instrumentor
end Clpkm
