import Clpkm.Covfefe
import Clpkm.Lang.Scope
import Mathlib.Data.List.Intervals

/-!
# Checkpoints at the ends of loop bodies

`PatchLoopBody` appends a checkpoint to the body of every loop, except where Clang
evaluates the condition of the loop to false.  The checkpoint has a number of its own,
the nonce, and names the variables that it stores when the kernel is suspended there
and loads when the kernel is resumed there.  It is the annotation of the loop in the
emitted program.

`traverse` is the part of the visitor that concerns loops.  The tracker holds the
variables in scope: a compound statement pops what it declared.  The nonces of a
kernel are consecutive from 2, so that the label of a nonce is unique (`findLabel_eq`).
-/

namespace Clpkm
open Lang

/-- The checkpoint at the end of a loop body. -/
structure Chkpnt (Var : Type) where
  nonce : Nat
  /-- the variables that are stored and loaded -/
  saved : List Var

/-- A statement of the emitted program. -/
abbrev Patched (Var Val : Type) := Stmt Var Val (Option (Chkpnt Var))

namespace Instrumentor

/-- What the visitor asks Clang. -/
structure Clang (Var Val Block : Type) where
  /-- `LiveVariables::isLive` -/
  isLive : Block → Var → Bool
  /-- `CFGStmtMap::getBlock` of the body of a loop -/
  getBlock : Nat → Option Block
  /-- `isEvaluatable` and `EvaluateAsBooleanCondition` -/
  evaluate : Expr Var Val → Option Bool
  /-- `CFGBuilder::tryEvaluateBool`, which knows the value of more conditions, such as `e & 0` -/
  tryEvaluateBool : Expr Var Val → Option Bool

variable {Var Val Block : Type} (C : Clang Var Val Block)

/-- The loop never repeats. -/
def neverRepeats (h : LoopHead Var Val) : Bool := h.cond.bind C.evaluate == some false

/-- The flow graph on which the liveness is computed has an edge from the condition of the loop to
its body.  It has none where `CFGBuilder` knows that the condition is false. -/
def keepsEdge (h : LoopHead Var Val) : Bool := h.cond.bind C.tryEvaluateBool != some false

/-- `PatchLoopBody`: the checkpoint of a loop and the last nonce given out. -/
def patchLoopBody (tracker : List Var) (nonce : Nat) (h : LoopHead Var Val) :
    Option (Chkpnt Var) × Nat :=
  if neverRepeats C h then (none, nonce)
  else (some ⟨nonce + 1, LiveVarTracker.genLivenessAfter C.isLive C.getBlock tracker h.id⟩,
    nonce + 1)

/-- The traversal of a statement, from the variables tracked in front of it and the last
nonce given out.  The body of a loop is traversed before the loop is patched. -/
def traverse : Stmt Var Val Unit → List Var → Nat → Patched Var Val × Nat
  | .skip, _, n => (.skip, n)
  | .expr e, _, n => (.expr e, n)
  | .decl x init, _, n => (.decl x init, n)
  | .seq s t, E, n =>
    let (s', n) := traverse s E n
    let (t', n) := traverse t (s.after E) n
    (.seq s' t', n)
  | .compound s, E, n =>
    let (s', n) := traverse s E n
    (.compound s', n)
  | .ifStmt e s t, E, n =>
    let (s', n) := traverse s E n
    let (t', n) := traverse t E n
    (.ifStmt e s' t', n)
  | .loop h _ b, E, n =>
    let (b', n) := traverse b E n
    let (c, n) := patchLoopBody C E n h
    (.loop h c b', n)
  | .breakStmt, _, n => (.breakStmt, n)
  | .continueStmt, _, n => (.continueStmt, n)
  | .returnStmt, _, n => (.returnStmt, n)

/-- The nonces of the checkpoints in a program, in the order they are given out. -/
def labels : Patched Var Val → List Nat
  | .seq s t | .ifStmt _ s t => labels s ++ labels t
  | .compound s => labels s
  | .loop _ c b => labels b ++ (c.map Chkpnt.nonce).toList
  | _ => []

/-- The loop whose checkpoint has the nonce, with the checkpoint and the continuation.
This is where `case nonce:` of the switch on the header leads. -/
def findLabel (nonce : Nat) : Patched Var Val → Cont Var Val (Option (Chkpnt Var)) →
    Option (Chkpnt Var × Ctl Var Val (Option (Chkpnt Var)))
  | .seq s t, k => (findLabel nonce s (.seq t k)).or (findLabel nonce t k)
  | .compound s, k => findLabel nonce s k
  | .ifStmt _ s t, k => (findLabel nonce s k).or (findLabel nonce t k)
  | .loop h c b, k =>
    (findLabel nonce b (.loop h c b k)).or
      (c.bind fun p => if p.nonce = nonce then some (p, .next h c b k) else none)
  | _, _ => none

/-! ## What the traversal emits -/

/-- The emitted program is the program with annotations. -/
theorem erase_traverse (s : Stmt Var Val Unit) (E : List Var) (n : Nat) :
    (traverse C s E n).1.erase = s := by
  induction s generalizing E n with
  | seq s t ihs iht => simp only [traverse, Stmt.erase, ihs, iht]
  | compound s ih => simp only [traverse, Stmt.erase, ih]
  | ifStmt e s t ihs iht => simp only [traverse, Stmt.erase, ihs, iht]
  | loop h a b ih => simp only [traverse, Stmt.erase, ih]
  | _ => rfl

theorem after_traverse (s : Stmt Var Val Unit) (E F : List Var) (n : Nat) :
    (traverse C s E n).1.after F = s.after F := by
  rw [← Stmt.after_erase, erase_traverse]

/-- The nonces are consecutive. -/
theorem labels_traverse (s : Stmt Var Val Unit) (E : List Var) (n : Nat) :
    n ≤ (traverse C s E n).2 ∧
      labels (traverse C s E n).1 = List.Ico (n + 1) ((traverse C s E n).2 + 1) := by
  induction s generalizing E n with
  | seq s t ihs iht =>
    obtain ⟨hs, hls⟩ := ihs E n
    obtain ⟨ht, hlt⟩ := iht (s.after E) (traverse C s E n).2
    refine ⟨hs.trans ht, ?_⟩
    simp only [traverse, labels, hls, hlt]
    exact List.Ico.append_consecutive (by omega) (by omega)
  | compound s ih => exact ih E n
  | ifStmt e s t ihs iht =>
    obtain ⟨hs, hls⟩ := ihs E n
    obtain ⟨ht, hlt⟩ := iht E (traverse C s E n).2
    refine ⟨hs.trans ht, ?_⟩
    simp only [traverse, labels, hls, hlt]
    exact List.Ico.append_consecutive (by omega) (by omega)
  | loop h a b ih =>
    obtain ⟨hb, hlb⟩ := ih E n
    simp only [traverse, labels, hlb, patchLoopBody]
    by_cases hc : neverRepeats C h = true
    · rw [if_pos hc]
      exact ⟨hb, List.append_nil _⟩
    · rw [if_neg hc]
      refine ⟨by omega, ?_⟩
      have hlast : (Option.map Chkpnt.nonce (some (⟨(traverse C b E n).2 + 1,
          LiveVarTracker.genLivenessAfter C.isLive C.getBlock E h.id⟩ : Chkpnt Var))).toList =
            List.Ico ((traverse C b E n).2 + 1) ((traverse C b E n).2 + 1 + 1) :=
        (List.Ico.succ_singleton).symm
      rw [hlast]
      exact List.Ico.append_consecutive (by omega) (by omega)
  | _ => exact ⟨Nat.le_refl n, (List.Ico.self_empty).symm⟩

/-- No nonce is used twice. -/
theorem nodup_labels (s : Stmt Var Val Unit) (E : List Var) (n : Nat) :
    (labels (traverse C s E n).1).Nodup := by
  rw [(labels_traverse C s E n).2]
  exact List.Ico.nodup _ _

/-- Every checkpoint belongs to a loop that may repeat, and stores what is live of the
variables in scope at the loop. -/
def Saves : Patched Var Val → List Var → Prop
  | .seq s t, E => Saves s E ∧ Saves t (s.after E)
  | .compound s, E => Saves s E
  | .ifStmt _ s t, E => Saves s E ∧ Saves t E
  | .loop h c b, E =>
    Saves b E ∧ ∀ p, c = some p → neverRepeats C h = false ∧
      p.saved = LiveVarTracker.genLivenessAfter C.isLive C.getBlock E h.id
  | _, _ => True

theorem patchLoopBody_eq_some {E : List Var} {n : Nat} {h : LoopHead Var Val} {p : Chkpnt Var}
    (hp : (patchLoopBody C E n h).1 = some p) :
    neverRepeats C h = false ∧
      p.saved = LiveVarTracker.genLivenessAfter C.isLive C.getBlock E h.id := by
  unfold patchLoopBody at hp
  by_cases hc : neverRepeats C h = true
  · rw [if_pos hc] at hp
    cases hp
  · rw [if_neg hc] at hp
    cases hp
    exact ⟨Bool.eq_false_of_not_eq_true hc, rfl⟩

theorem saves_traverse (s : Stmt Var Val Unit) (E : List Var) (n : Nat) :
    Saves C (traverse C s E n).1 E := by
  induction s generalizing E n with
  | seq s t ihs iht =>
    refine ⟨ihs E n, ?_⟩
    rw [after_traverse]
    exact iht (s.after E) _
  | compound s ih => exact ih E n
  | ifStmt e s t ihs iht => exact ⟨ihs E n, iht E _⟩
  | loop h a b ih => exact ⟨ih E n, fun p hp => patchLoopBody_eq_some C hp⟩
  | _ => exact trivial

theorem Saves.part {p q : Place Var Val (Option (Chkpnt Var))} (h : p.Part q)
    (hp : Saves C p.stmt p.scope) : Saves C q.stmt q.scope := by
  cases h with
  | seqLeft | ifLeft | body => exact hp.1
  | seqRight | ifRight => exact hp.2
  | compound => exact hp

/-! ## Labels -/

/-- A nonce that is not used has no label. -/
theorem findLabel_eq_none {nonce : Nat} (s : Patched Var Val)
    (k : Cont Var Val (Option (Chkpnt Var))) (h : nonce ∉ labels s) :
    findLabel nonce s k = none := by
  induction s generalizing k with
  | seq s t ihs iht =>
    rw [labels, List.mem_append, not_or] at h
    rw [findLabel, ihs _ h.1, iht _ h.2, Option.or_none]
  | compound s ih => exact ih k h
  | ifStmt e s t ihs iht =>
    rw [labels, List.mem_append, not_or] at h
    rw [findLabel, ihs _ h.1, iht _ h.2, Option.or_none]
  | loop hd c b ih =>
    rw [labels, List.mem_append, not_or] at h
    rw [findLabel, ih _ h.1, Option.none_or]
    cases c with
    | none => rfl
    | some p =>
      refine if_neg fun hp => h.2 ?_
      rw [Option.map_some, Option.toList_some, hp]
      exact List.mem_singleton_self nonce
  | _ => rfl

/-- The nonces of a part are nonces of the whole. -/
theorem labels_subset {p q : Place Var Val (Option (Chkpnt Var))} (h : p.Inside q) :
    labels q.stmt ⊆ labels p.stmt := by
  refine h.inherit (P := fun q => labels q.stmt ⊆ labels p.stmt) ?_ (List.Subset.refl _)
  intro q r hq hsub
  refine List.Subset.trans ?_ hsub
  cases hq with
  | seqLeft | ifLeft | body => exact List.subset_append_left _ _
  | seqRight | ifRight => exact List.subset_append_right _ _
  | compound => exact List.Subset.refl _

/-- **The label of a checkpoint leads to its loop.** -/
theorem findLabel_eq {p : Place Var Val (Option (Chkpnt Var))} {E : List Var}
    {h : LoopHead Var Val} {c : Chkpnt Var} {b : Patched Var Val}
    {k : Cont Var Val (Option (Chkpnt Var))} (hin : p.Inside ⟨E, .loop h (some c) b, k⟩)
    (hn : (labels p.stmt).Nodup) :
    findLabel c.nonce p.stmt p.cont = some (c, .next h (some c) b k) := by
  have hmem : ∀ q : Place Var Val (Option (Chkpnt Var)),
      q.Inside ⟨E, .loop h (some c) b, k⟩ → c.nonce ∈ labels q.stmt :=
    fun q hq => labels_subset hq (List.mem_append_right _ List.mem_cons_self)
  induction hin using Relation.ReflTransGen.head_induction_on with
  | refl =>
    obtain ⟨_, _, hne⟩ := List.nodup_append.mp hn
    have hnb : c.nonce ∉ labels b := fun hb => hne _ hb _ List.mem_cons_self rfl
    rw [findLabel, findLabel_eq_none _ _ hnb, Option.none_or]
    exact if_pos rfl
  | head hp hq ih =>
    cases hp with
    | seqLeft F s t k' | ifLeft F e s t k' =>
      rw [findLabel, ih (List.nodup_append.mp hn).1, Option.some_or]
    | seqRight F s t k' | ifRight F e s t k' =>
      obtain ⟨_, hnt, hne⟩ := List.nodup_append.mp hn
      have hns : c.nonce ∉ labels s := fun hs => hne _ hs _ (hmem _ hq) rfl
      rw [findLabel, findLabel_eq_none _ _ hns, Option.none_or, ih hnt]
    | compound F s k' => exact ih hn
    | body F hd a b' k' =>
      rw [findLabel, ih (List.nodup_append.mp hn).1, Option.some_or]

end Instrumentor
end Clpkm
