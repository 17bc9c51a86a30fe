import Clpkm.Inliner.Inlined

/-!
# Where an instrumented kernel is resumed

The instrumentor puts a `case` label at the end of every loop body, unless the condition
never holds, and at every barrier.  By then the inliner has put whole bodies of functions
into expressions, so that a label can stand in the middle of one.  What has been computed
in front of it in the same full expression and is needed behind it, is not stored by the
checkpoint.

`sites` lists the ends of loop bodies and the calls of a code, each with whether something
is held there: an operand or an argument that has been evaluated already.  Only constants
are never held.  The arguments of a call that is inlined are not held, because they become
declarations.

`resumesWhole_iff` is the result: nothing is held at any label of a kernel if and only if
neither the kernel nor a function pasted into it calls, while something is held, a function
that has a label.  Operands are held: `x + f(y)` goes wrong as soon as `f` has a loop.
-/

namespace Clpkm
namespace Inliner

variable {Var Val Op F : Type}

/-- Where a code stands. -/
structure Context where
  /-- something that has been computed is needed afterwards -/
  held : Bool
  /-- arguments that become declarations -/
  params : Bool
  /-- the expressions of `return` statements are left out -/
  void : Bool

namespace Kind

def isArgs : Kind → Bool
  | args _ => true
  | _ => false

def isStmt : Kind → Bool
  | stmt => true
  | _ => false

end Kind

namespace Code

/-- Evaluating the code leaves something to be held. -/
def computes : {k : Kind} → Code Var Val Op F k → Bool
  | _, const _ => false
  | _, nothing => false
  | _, nil => false
  | _, cons e es => e.computes || es.computes
  | _, _ => true

/-- The ends of loop bodies (`none`) and the calls in a code, with whether something is held
there, given the conditions that never hold and the functions that are inlined. -/
def sites (neverHolds : Code Var Val Op F .expr → Bool) (inlined : F → Bool) :
    {k : Kind} → Code Var Val Op F k → Context → List (Bool × Option F)
  | _, op _ es, c => es.sites neverHolds inlined { c with params := false }
  | _, cond b e₁ e₂, c =>
    b.sites neverHolds inlined c ++
      (e₁.sites neverHolds inlined c ++ e₂.sites neverHolds inlined c)
  | _, comma _ e₁ e₂, c => e₁.sites neverHolds inlined c ++ e₂.sites neverHolds inlined c
  -- the value is computed first
  | _, assign _ e, c => e.sites neverHolds inlined c
  | _, call _ g es, c =>
    (c.held, some g) :: es.sites neverHolds inlined { c with params := inlined g }
  | _, stmtExpr _ _ s, c => s.sites neverHolds inlined { c with void := false }
  | _, cons (d := d) e es, c =>
    e.sites neverHolds inlined { c with held := c.held || (!c.params && !d && es.computes) } ++
      es.sites neverHolds inlined { c with held := c.held || (!c.params && d && e.computes) }
  | _, exprStmt e, c => e.sites neverHolds inlined c
  | _, decl _ e, c => e.sites neverHolds inlined c
  | _, seq s t, c => s.sites neverHolds inlined c ++ t.sites neverHolds inlined c
  | _, compound s, c => s.sites neverHolds inlined c
  | _, ifStmt b s t, c =>
    b.sites neverHolds inlined c ++
      (s.sites neverHolds inlined c ++ t.sites neverHolds inlined c)
  | _, loop _ b i s, c =>
    b.sites neverHolds inlined c ++ (i.sites neverHolds inlined c ++
      (s.sites neverHolds inlined c ++ if neverHolds b then [] else [(c.held, none)]))
  | _, returnStmt e, c => if c.void then [] else e.sites neverHolds inlined c
  | _, _, _ => []

end Code

/-- What Clang makes of conditions: inlining does not change what it evaluates to false. -/
structure Evaluator [Zero Val] (P : Program Var Val Op F) where
  /-- `isEvaluatable` and `EvaluateAsBooleanCondition`, with the result false -/
  neverHolds : Code Var Val Op F .expr → Bool
  neverHolds_zero : neverHolds (.const 0) = true
  neverHolds_inlined : ∀ N c c', Inlined P N c c' → neverHolds c' = neverHolds c

variable [Zero Val] {P : Program Var Val Op F} (C : Evaluator P)

/-- The sites of a code of the program. -/
abbrev sites {k : Kind} (e : Code Var Val Op F k) (c : Context) : List (Bool × Option F) :=
  e.sites C.neverHolds (fun g => (P.body g).isSome) c

/-- The instrumentor puts a label there: the end of a loop body, or a barrier. -/
def hasLabel (P : Program Var Val Op F) : Option F → Bool
  | none => true
  | some g => P.getNameAsString g == "barrier"

/-- The context of a function pasted in a statement of its own. -/
def pasted (P : Program Var Val Op F) (g : F) : Context := ⟨false, false, P.isVoid g⟩

/-- The context of a kernel. -/
def toplevel : Context := ⟨false, false, false⟩

/-- A call of the function contains a label. -/
inductive Resumes : F → Prop
  | barrier {g : F} (hg : P.body g = none) (h : hasLabel P (some g) = true) : Resumes g
  | loop {g : F} {b : Code Var Val Op F .stmt} {h : Bool} (hg : P.body g = some b)
      (hs : (h, none) ∈ sites C b (pasted P g)) : Resumes g
  | call {g f : F} {b : Code Var Val Op F .stmt} {h : Bool} (hg : P.body g = some b)
      (hs : (h, some f) ∈ sites C b (pasted P g)) (hf : Resumes f) : Resumes g

/-- A site contains a label. -/
def Resumable : Option F → Prop
  | none => True
  | some g => Resumes C g

/-- Something is held at a label in the function, when it is called where nothing is held. -/
inductive HeldIn : F → Prop
  | here {g : F} {b : Code Var Val Op F .stmt} {o : Option F} (hg : P.body g = some b)
      (hs : (true, o) ∈ sites C b (pasted P g)) (ho : Resumable C o) : HeldIn g
  | call {g f : F} {b : Code Var Val Op F .stmt} (hg : P.body g = some b)
      (hs : (false, some f) ∈ sites C b (pasted P g)) (hf : HeldIn f) : HeldIn g

/-- Neither a kernel nor a function pasted into it calls a function that contains a label, while
something is held. -/
def HoldsNothing (b : Code Var Val Op F .stmt) : Prop :=
  (∀ o, (true, o) ∈ sites C b toplevel → ¬Resumable C o) ∧
    ∀ g, (false, some g) ∈ sites C b toplevel → ¬HeldIn C g

/-- Nothing is held at any label of an emitted kernel. -/
def ResumesWhole (t : Code Var Val Op F .stmt) : Prop :=
  ∀ h o, (h, o) ∈ sites C t toplevel → hasLabel P o = true → h = false

/-! ## Sites in a context -/

section context
variable {C} {k : Kind}

/-- What a code does not look at in its context. -/
theorem sites_congr (e : Code Var Val Op F k) {c c' : Context} (hheld : c.held = c'.held)
    (hparams : k.isArgs = true → c.params = c'.params)
    (hvoid : k.isStmt = true → c.void = c'.void) : sites C e c = sites C e c' := by
  induction e generalizing c c' with
  | const | nothing | var | nil | skip | breakStmt | continueStmt | gotoStmt => rfl
  | op o es ih => exact ih hheld (fun _ => rfl) nofun
  | cond b e₁ e₂ ihb ih₁ ih₂ =>
    exact congrArg₂ (· ++ ·) (ihb hheld nofun nofun)
      (congrArg₂ (· ++ ·) (ih₁ hheld nofun nofun) (ih₂ hheld nofun nofun))
  | comma _ e₁ e₂ ih₁ ih₂ =>
    exact congrArg₂ (· ++ ·) (ih₁ hheld nofun nofun) (ih₂ hheld nofun nofun)
  | assign x e ih => exact ih hheld nofun nofun
  | call loc g es ih =>
    exact congrArg₂ (fun h l => (h, some g) :: l) hheld (ih hheld (fun _ => rfl) nofun)
  | stmtExpr l r s ih => exact ih hheld nofun fun _ => rfl
  | cons e es ih ihs =>
    have hargs : c.params = c'.params := hparams rfl
    refine congrArg₂ (· ++ ·) (ih ?_ nofun nofun) (ihs ?_ (fun _ => hargs) nofun)
    · show (c.held || _) = (c'.held || _)
      rw [hheld, hargs]
    · show (c.held || _) = (c'.held || _)
      rw [hheld, hargs]
  | exprStmt e ih => exact ih hheld nofun nofun
  | decl x e ih => exact ih hheld nofun nofun
  | seq s t ihs iht =>
    exact congrArg₂ (· ++ ·) (ihs hheld nofun hvoid) (iht hheld nofun hvoid)
  | compound s ih => exact ih hheld nofun hvoid
  | ifStmt b s t ihb ihs iht =>
    exact congrArg₂ (· ++ ·) (ihb hheld nofun nofun)
      (congrArg₂ (· ++ ·) (ihs hheld nofun hvoid) (iht hheld nofun hvoid))
  | loop bodyFirst b i s ihb ihi ihs =>
    refine congrArg₂ (· ++ ·) (ihb hheld nofun nofun) (congrArg₂ (· ++ ·) (ihi hheld nofun nofun)
      (congrArg₂ (· ++ ·) (ihs hheld nofun hvoid) ?_))
    rw [hheld]
  | returnStmt e ih =>
    simp only [sites, Code.sites]
    rw [hvoid rfl, show Code.sites _ _ e c = _ from ih hheld nofun nofun]

/-- Something is held in a part if it is held around it. -/
theorem held_of_mem_sites {e : Code Var Val Op F k} {c : Context} (hc : c.held = true)
    {x : Bool × Option F} (hx : x ∈ sites C e c) : x.1 = true := by
  induction e generalizing c with
  | const | nothing | var | nil | skip | breakStmt | continueStmt | gotoStmt => cases hx
  | op o es ih => exact ih (c := { c with params := false }) hc hx
  | assign y e ih | exprStmt e ih | decl y e ih | compound s ih => exact ih hc hx
  | cond b e₁ e₂ ih₁ ih₂ ih₃ | ifStmt b e₁ e₂ ih₁ ih₂ ih₃ =>
    rcases List.mem_append.mp hx with hx | hx
    · exact ih₁ hc hx
    rcases List.mem_append.mp hx with hx | hx
    · exact ih₂ hc hx
    · exact ih₃ hc hx
  | comma _ e₁ e₂ ih₁ ih₂ | seq e₁ e₂ ih₁ ih₂ =>
    rcases List.mem_append.mp hx with hx | hx
    · exact ih₁ hc hx
    · exact ih₂ hc hx
  | call loc g es ih =>
    rcases List.mem_cons.mp hx with rfl | hx
    · exact hc
    · exact ih (c := { c with params := (P.body g).isSome }) hc hx
  | stmtExpr l r s ih => exact ih (c := { c with void := false }) hc hx
  | cons e es ih ihs =>
    rcases List.mem_append.mp hx with hx | hx
    · exact ih (by rw [hc, Bool.true_or]) hx
    · exact ihs (by rw [hc, Bool.true_or]) hx
  | loop bodyFirst b i s ihb ihi ihs =>
    rcases List.mem_append.mp hx with hx | hx
    · exact ihb hc hx
    rcases List.mem_append.mp hx with hx | hx
    · exact ihi hc hx
    rcases List.mem_append.mp hx with hx | hx
    · exact ihs hc hx
    · split at hx
      · cases hx
      · rw [List.mem_singleton.mp hx]
        exact hc
  | returnStmt e ih =>
    simp only [sites, Code.sites] at hx
    split at hx
    · cases hx
    · exact ih hc hx

/-- Which sites there are does not depend on what is held. -/
theorem exists_mem_sites {e : Code Var Val Op F k} {c : Context} (c' : Context) {o : Option F}
    (hparams : c.params = c'.params) (hvoid : c.void = c'.void)
    (h : ∃ b, (b, o) ∈ sites C e c) : ∃ b, (b, o) ∈ sites C e c' := by
  induction e generalizing c c' with
  | const | nothing | var | nil | skip | breakStmt | continueStmt | gotoStmt =>
    obtain ⟨_, hx⟩ := h
    cases hx
  | op o' es ih => exact ih (c := { c with params := false }) _ rfl hvoid h
  | assign y e ih | exprStmt e ih | decl y e ih | compound s ih => exact ih _ hparams hvoid h
  | cond b e₁ e₂ ih₁ ih₂ ih₃ | ifStmt b e₁ e₂ ih₁ ih₂ ih₃ =>
    simp only [sites, Code.sites, List.mem_append, exists_or] at h ⊢
    exact h.imp (ih₁ _ hparams hvoid) (Or.imp (ih₂ _ hparams hvoid) (ih₃ _ hparams hvoid))
  | comma _ e₁ e₂ ih₁ ih₂ | seq e₁ e₂ ih₁ ih₂ =>
    simp only [sites, Code.sites, List.mem_append, exists_or] at h ⊢
    exact h.imp (ih₁ _ hparams hvoid) (ih₂ _ hparams hvoid)
  | call loc g es ih =>
    simp only [sites, Code.sites, List.mem_cons, Prod.mk.injEq, exists_or] at h ⊢
    refine h.imp ?_ (ih (c := { c with params := (P.body g).isSome }) _ rfl hvoid)
    rintro ⟨_, _, ho⟩
    exact ⟨_, rfl, ho⟩
  | stmtExpr l r s ih => exact ih (c := { c with void := false }) _ hparams rfl h
  | cons e es ih ihs =>
    simp only [sites, Code.sites, List.mem_append, exists_or] at h ⊢
    exact h.imp
      (ih (c := { c with held := c.held || (!c.params && !_ && es.computes) }) _ hparams hvoid)
      (ihs (c := { c with held := c.held || (!c.params && _ && e.computes) }) _ hparams hvoid)
  | loop bodyFirst b i s ihb ihi ihs =>
    simp only [sites, Code.sites, List.mem_append, exists_or] at h ⊢
    refine h.imp (ihb _ hparams hvoid)
      (Or.imp (ihi _ hparams hvoid) (Or.imp (ihs _ hparams hvoid) ?_))
    rintro ⟨_, hx⟩
    split at hx
    · cases hx
    · rename_i hb
      rw [if_neg hb]
      rw [List.mem_singleton, Prod.mk.injEq] at hx
      exact ⟨_, List.mem_singleton.mpr (by rw [hx.2])⟩
  | returnStmt e ih =>
    simp only [sites, Code.sites, hvoid] at h ⊢
    split at h
    · obtain ⟨_, hx⟩ := h
      cases hx
    · rename_i hv
      rw [if_neg hv]
      exact ih _ hparams hvoid h

/-! ## Sites in what is pasted -/

theorem sites_setVoid (e : Code Var Val Op F k) (c : Context) (void : Bool)
    (hk : k.isStmt = false) : sites C e c = sites C e { c with void := void } :=
  sites_congr e rfl (fun _ => rfl) fun h => absurd (h.symm.trans hk) nofun

/-- An assignment is made when the value is there. -/
theorem sites_assignTo (y : Name Var) (e : Code Var Val Op F k) (c : Context) :
    sites C (e.assignTo y) c = sites C e c := by
  induction e generalizing c with
  | comma p e₁ e₂ ih₁ =>
    cases p with
    | true => rfl
    | false => exact congrArg (· ++ sites C e₂ c) (ih₁ c)
  | _ => rfl

theorem mem_sites_patchReturns {n : Nat} {void : Bool} {e : Code Var Val Op F k} {c : Context}
    {x : Bool × Option F} :
    x ∈ sites C (e.patchReturns n void) c ↔ x ∈ sites C e { c with void := void } := by
  induction e generalizing c with
  | const | nothing | var | nil | skip | breakStmt | continueStmt | gotoStmt => exact Iff.rfl
  | op | cond | comma | assign | call | stmtExpr | cons =>
    exact iff_of_eq (congrArg (x ∈ ·) (sites_setVoid _ c void rfl))
  | exprStmt e | decl y e => exact iff_of_eq (congrArg (x ∈ ·) (sites_setVoid e c void rfl))
  | seq s t ihs iht =>
    simp only [sites, Code.patchReturns, Code.sites, List.mem_append] at ihs iht ⊢
    rw [ihs, iht]
  | compound s ih => exact ih
  | ifStmt b s t _ ihs iht =>
    simp only [sites, Code.patchReturns, Code.sites, List.mem_append] at ihs iht ⊢
    rw [ihs, iht, show Code.sites _ _ b c = _ from sites_setVoid b c void rfl]
  | loop bodyFirst b i s _ _ ihs =>
    simp only [sites, Code.patchReturns, Code.sites, List.mem_append] at ihs ⊢
    rw [ihs, show Code.sites _ _ b c = _ from sites_setVoid b c void rfl,
      show Code.sites _ _ i c = _ from sites_setVoid i c void rfl]
  | returnStmt e ih =>
    simp only [sites, Code.patchReturns, Code.sites, C.neverHolds_zero]
    cases void with
    | true => simp [Code.sites]
    | false =>
      have hsites : sites C (e.assignTo (.ret (n + 1))) c = sites C e { c with void := false } :=
        (sites_assignTo _ e c).trans (sites_setVoid e c false rfl)
      simp [Code.sites, show Code.sites _ _ (e.assignTo _) c = _ from hsites]

/-- Arguments that become declarations are not held. -/
theorem mem_sites_bindParams {d : Bool} {c : Context} {x : Bool × Option F} :
    ∀ (ps : List Var) (es : Code Var Val Op F (.args d)) (s : Code Var Val Op F .stmt),
      es.arity = ps.length →
      (x ∈ sites C (.bindParams ps es s) c ↔
        x ∈ sites C es { c with params := true } ∨ x ∈ sites C s c)
  | [], .nil, s, _ => by simp [sites, Code.bindParams, Code.sites]
  | p :: ps, .cons e es, s, h => by
    have hparam : sites C e
        { c with params := true, held := c.held || (!true && !d && es.computes) }
        = sites C e c := sites_congr e (Bool.or_false _) nofun nofun
    have hrest : sites C es { c with params := true, held := c.held || (!true && d && e.computes) }
        = sites C es { c with params := true } :=
      sites_congr es (Bool.or_false _) (fun _ => rfl) nofun
    have hcons : x ∈ sites C (.cons e es) { c with params := true } ↔
        x ∈ sites C e c ∨ x ∈ sites C es { c with params := true } := by
      rw [← hparam, ← hrest]
      exact List.mem_append
    have hseq : x ∈ sites C (.seq (.decl (.src p) e) s) c ↔ x ∈ sites C e c ∨ x ∈ sites C s c :=
      List.mem_append
    rw [Code.bindParams, mem_sites_bindParams ps es _ (Nat.succ.inj h), hcons, hseq]
    tauto

/-- **What is pasted for a call** has the sites of the arguments and of the body. -/
theorem mem_sites_paste {n : Nat} {g : F} {d : Bool} {es : Code Var Val Op F (.args d)}
    {b : Code Var Val Op F .stmt} (harity : es.arity = (P.params g).length) {c : Context}
    {x : Bool × Option F} :
    x ∈ sites C (P.paste n g es b) c ↔
      x ∈ sites C es { c with params := true } ∨ x ∈ sites C b { c with void := P.isVoid g } := by
  show x ∈ sites C (.bindParams (P.params g) es
    (.compound (b.patchReturns n (P.isVoid g)))) { c with void := false } ↔ _
  rw [mem_sites_bindParams _ _ _ harity]
  refine or_congr (iff_of_eq (congrArg (x ∈ ·) ?_)) mem_sites_patchReturns
  exact sites_congr es rfl (fun _ => rfl) nofun

theorem Inlined.computes {N : Nat} {e e' : Code Var Val Op F k} (h : Inlined P N e e') :
    e'.computes = e.computes := by
  induction h with
  | cons _ _ ih ihs => simp only [Code.computes, ih, ihs]
  | _ => rfl

/-- **Labels are found in the source.**  A property of the sites of a text holds somewhere if
and only if a property of the sites of its source does, when the two agree on loops and on
functions without a body, and the latter holds at a call if it holds in the body. -/
theorem exists_site_iff (hP : P.Parsed) {p q : Bool × Option F → Prop}
    (hloop : ∀ h, p (h, none) ↔ q (h, none))
    (hbuiltin : ∀ h g, P.body g = none → (p (h, some g) ↔ q (h, some g)))
    (hcall : ∀ (c : Context) g b, P.body g = some b →
      ((∃ x ∈ sites C b { c with void := P.isVoid g }, q x) ↔ q (c.held, some g)))
    {N : Nat} {e e' : Code Var Val Op F k} (h : Inlined P N e e') (hpending : P.pending e' = [])
    (harity : P.Arity e) (c : Context) :
    (∃ x ∈ sites C e' c, p x) ↔ ∃ x ∈ sites C e c, q x := by
  -- what is said about a list of sites follows from what is said about its parts
  have hnil : (∃ x ∈ ([] : List (Bool × Option F)), p x) ↔
      ∃ x ∈ ([] : List (Bool × Option F)), q x := by
    simp only [List.not_mem_nil, false_and]
  have happend : ∀ {l l' m m' : List (Bool × Option F)}, ((∃ x ∈ l, p x) ↔ ∃ x ∈ m, q x) →
      ((∃ x ∈ l', p x) ↔ ∃ x ∈ m', q x) → ((∃ x ∈ l ++ l', p x) ↔ ∃ x ∈ m ++ m', q x) := by
    intro l l' m m' h h'
    simp only [List.mem_append, or_and_right, exists_or]
    exact or_congr h h'
  have hone : ∀ {x y : Bool × Option F} {l m : List (Bool × Option F)}, (p x ↔ q y) →
      ((∃ x ∈ l, p x) ↔ ∃ x ∈ m, q x) → ((∃ z ∈ x :: l, p z) ↔ ∃ z ∈ y :: m, q z) := by
    intro x y l m h h'
    simp only [List.mem_cons, or_and_right, exists_or, exists_eq_left]
    exact or_congr h h'
  induction h generalizing c with
  | const | nothing | var | nil | skip | breakStmt | continueStmt => exact hnil
  | op o _ ih => exact ih hpending harity { c with params := false }
  | assign x _ ih | exprStmt _ ih | decl x _ ih | compound _ ih => exact ih hpending harity c
  | cond _ _ _ ih₁ ih₂ ih₃ | ifStmt _ _ _ ih₁ ih₂ ih₃ =>
    obtain ⟨hp₁, hp⟩ := pending_append hpending
    obtain ⟨hp₂, hp₃⟩ := pending_append hp
    exact happend (ih₁ hp₁ harity.1 c) (happend (ih₂ hp₂ harity.2.1 c) (ih₃ hp₃ harity.2.2 c))
  | comma _ _ _ ih₁ ih₂ | seq _ _ ih₁ ih₂ =>
    obtain ⟨hp₁, hp₂⟩ := pending_append hpending
    exact happend (ih₁ hp₁ harity.1 c) (ih₂ hp₂ harity.2 c)
  | cons he hes ih ihs =>
    obtain ⟨hp₁, hp₂⟩ := pending_append hpending
    simp only [sites, Code.sites, he.computes, hes.computes]
    exact happend (ih hp₁ harity.1 _) (ihs hp₂ harity.2 _)
  | call loc g _ ih =>
    rw [pending_call] at hpending
    by_cases hg : (P.body g).isSome = true
    · rw [if_pos hg] at hpending
      cases hpending
    · rw [if_neg hg] at hpending
      exact hone (hbuiltin c.held g (by simpa using hg))
        (ih hpending harity.2 { c with params := (P.body g).isSome })
  | paste loc hn hes hes' hg hb hb' ihs ihb =>
    have hsome := Option.isSome_of_eq_some hg
    have hargs := ihs hes' harity.2 { c with params := true }
    have hbody := (ihb hb' (hP.arity _ _ hg) { c with void := P.isVoid _ }).trans (hcall c _ _ hg)
    have hlen := hes.arity.trans (harity.1 hsome)
    simp only [mem_sites_paste hlen, or_and_right, exists_or]
    simp only [sites, Code.sites, hsome, List.mem_cons, or_and_right, exists_or, exists_eq_left]
    exact (or_congr hargs hbody).trans Or.comm
  | loop bodyFirst hc _ _ ihc ihi ihb =>
    obtain ⟨hp₁, hp⟩ := pending_append hpending
    obtain ⟨hp₂, hp₃⟩ := pending_append hp
    refine happend (ihc hp₁ harity.1 c)
      (happend (ihi hp₂ harity.2.1 c) (happend (ihb hp₃ harity.2.2 c) ?_))
    rw [C.neverHolds_inlined _ _ _ hc]
    split
    · exact hnil
    · exact hone (hloop c.held) hnil
  | returnStmt _ ih =>
    simp only [sites, Code.sites]
    split
    · exact hnil
    · exact ih hpending harity c

/-! ## Labels -/

/-- **A call contains a label** if and only if some site in the body does. -/
theorem resumes_iff {g : F} {b : Code Var Val Op F .stmt} (hg : P.body g = some b) {c : Context}
    (hvoid : c.void = P.isVoid g) :
    (∃ x ∈ sites C b c, Resumable C x.2) ↔ Resumes C g := by
  have hparams : sites C b c = sites C b { c with params := false } :=
    sites_congr b rfl nofun fun _ => rfl
  rw [hparams]
  constructor
  · rintro ⟨⟨h, o⟩, hx, ho⟩
    obtain ⟨h', hx'⟩ := exists_mem_sites (c := { c with params := false }) (pasted P g)
      rfl hvoid ⟨h, hx⟩
    cases o with
    | none => exact .loop hg hx'
    | some f => exact .call hg hx' ho
  · intro h
    cases h with
    | barrier hnone =>
      rw [hnone] at hg
      cases hg
    | loop hg' hs =>
      rw [hg', Option.some.injEq] at hg
      subst hg
      obtain ⟨h', hx'⟩ := exists_mem_sites (c := pasted P g) { c with params := false }
        rfl hvoid.symm ⟨_, hs⟩
      exact ⟨_, hx', trivial⟩
    | call hg' hs hf =>
      rw [hg', Option.some.injEq] at hg
      subst hg
      obtain ⟨h', hx'⟩ := exists_mem_sites (c := pasted P g) { c with params := false }
        rfl hvoid.symm ⟨_, hs⟩
      exact ⟨_, hx', hf⟩

/-- Something goes wrong at the site: it contains a label and something is held, or something
is held at a label in what it calls. -/
def Wrong (C : Evaluator P) (x : Bool × Option F) : Prop :=
  (x.1 = true ∧ Resumable C x.2) ∨ (x.1 = false ∧ ∃ g, x.2 = some g ∧ HeldIn C g)

/-- What goes wrong in the body goes wrong at the call. -/
theorem exists_wrong_iff {c : Context} {g : F} {b : Code Var Val Op F .stmt}
    (hg : P.body g = some b) :
    (∃ x ∈ sites C b { c with void := P.isVoid g }, Wrong C x) ↔ Wrong C (c.held, some g) := by
  cases hc : c.held with
  | true =>
    have hwrong : Wrong C (true, some g) ↔ Resumes C g := by
      simp [Wrong, Resumable]
    rw [hwrong,
      ← resumes_iff hg (c := { held := true, params := c.params, void := P.isVoid g }) rfl]
    refine exists_congr fun x => and_congr_right fun hx => ?_
    have hheld := held_of_mem_sites rfl hx
    simp [Wrong, hheld]
  | false =>
    have hwrong : Wrong C (false, some g) ↔ HeldIn C g := by
      simp [Wrong]
    have hsites : sites C b { held := false, params := c.params, void := P.isVoid g } =
        sites C b (pasted P g) := sites_congr b rfl nofun fun _ => rfl
    rw [hwrong, hsites]
    constructor
    · rintro ⟨⟨h, o⟩, hx, ⟨hh, ho⟩ | ⟨hh, f, ho, hf⟩⟩
      · cases hh
        exact .here hg hx ho
      · cases hh
        cases ho
        exact .call hg hx hf
    · intro h
      cases h with
      | here hg' hs ho =>
        rw [hg', Option.some.injEq] at hg
        subst hg
        exact ⟨_, hs, .inl ⟨rfl, ho⟩⟩
      | call hg' hs hf =>
        rw [hg', Option.some.injEq] at hg
        subst hg
        exact ⟨_, hs, .inr ⟨rfl, _, rfl, hf⟩⟩

/-- A text in which all calls have been inlined. -/
theorem Inlined.resumesWhole (hP : P.Parsed) {N : Nat} {b t : Code Var Val Op F .stmt}
    (h : Inlined P N b t) (hpending : P.pending t = []) (harity : P.Arity b) :
    ResumesWhole C t ↔ HoldsNothing C b := by
  have hsite := exists_site_iff (C := C) hP (p := fun x => x.1 = true ∧ hasLabel P x.2 = true)
    (q := Wrong C) (fun h => by simp [Wrong, Resumable, hasLabel]) (fun h g hg => ?_)
    (fun c g b hg => exists_wrong_iff hg) h hpending harity toplevel
  · have hleft : ResumesWhole C t ↔
        ¬∃ x ∈ sites C t toplevel, x.1 = true ∧ hasLabel P x.2 = true := by
      constructor
      · rintro hw ⟨⟨h, o⟩, hx, hh, ho⟩
        exact absurd (hh.symm.trans (hw h o hx ho)) (by decide)
      · intro hw h o hx ho
        by_contra hh
        exact hw ⟨(h, o), hx, (Bool.not_eq_false _).mp hh, ho⟩
    have hright : HoldsNothing C b ↔ ¬∃ x ∈ sites C b toplevel, Wrong C x := by
      constructor
      · rintro ⟨hhere, hcalls⟩ ⟨⟨h, o⟩, hx, ⟨hh, ho⟩ | ⟨hh, g, ho, hg⟩⟩
        · cases hh
          exact hhere o hx ho
        · cases hh
          cases ho
          exact hcalls g hx hg
      · intro hw
        exact ⟨fun o hx ho => hw ⟨_, hx, .inl ⟨rfl, ho⟩⟩,
          fun g hx hg => hw ⟨_, hx, .inr ⟨rfl, g, rfl, hg⟩⟩⟩
    rw [hleft, hright, hsite]
  -- a function without a body is resumed at if it has a label, and it holds nothing
  · have hresumes : Resumes C g ↔ hasLabel P (some g) = true := by
      constructor
      · intro hr
        cases hr with
        | barrier _ hl => exact hl
        | loop hg' | call hg' =>
          rw [hg] at hg'
          cases hg'
      · exact fun hl => .barrier hg hl
    have hheld : ¬HeldIn C g := by
      intro hh
      cases hh with
      | here hg' | call hg' =>
        rw [hg] at hg'
        cases hg'
    simp [Wrong, Resumable, hresumes, hheld]

end context

variable [DecidableEq F]

/-- **Nothing is held at a label of an emitted kernel if and only if** neither the kernel nor a
function pasted into it calls a function that contains a label, while an operand is held. -/
theorem resumesWhole_iff (C : Evaluator P) (hP : P.Parsed) {T : CallSiteTable F (Nat × F)}
    (hT : P.Extracted T) {n : Nat} {s : State F (Nat × F) (Text Var Val Op F)}
    (hr : executeAction P.source n (.start T P.text) = some (.ok s)) {kernel : F}
    {b t : Code Var Val Op F .stmt} (hb : P.body kernel = some b)
    (ht : s.text.body kernel = some t) : ResumesWhole C t ↔ HoldsNothing C b := by
  obtain ⟨t', ht', hinl, hpending⟩ := inlined_of_executeAction hP hT hr hb
  have htt : t' = t := Option.some.inj (ht'.symm.trans ht)
  subst htt
  exact hinl.resumesWhole hP hpending (hP.arity kernel b hb)

/-- Clang evaluates literals. -/
def literals [DecidableEq Val] (P : Program Var Val Op F) : Evaluator P where
  neverHolds
    | .const a => a == 0
    | _ => false
  neverHolds_zero := beq_self_eq_true 0
  neverHolds_inlined N c c' h := by
    cases h <;> rfl

namespace CountDown

inductive Fn
  | kernel
  | f
  deriving DecidableEq

/-- The literals of the programs. -/
inductive Lit
  | zero
  | one
  deriving DecidableEq

instance : Zero Lit := ⟨.zero⟩

inductive Arith
  | add
  | sub
  deriving DecidableEq

/-- `int f(int n) { while (n) n = n - 1; return n; }` -/
def helper : Code String Lit Arith Fn .stmt :=
  .seq (.loop false (.var (.src "n")) .nothing (.exprStmt (.assign (.src "n")
      (.op (d := true) .sub (.cons (.var (.src "n")) (.cons (.const .one) .nil))))))
    (.returnStmt (.var (.src "n")))

/-- A kernel with `x` and `y` that calls `f(y)`. -/
def program (b : Code String Lit Arith Fn .stmt) : Program String Lit Arith Fn where
  getNameAsString
    | .kernel => "kernel"
    | .f => "f"
  params
    | .kernel => ["x", "y"]
    | .f => ["n"]
  isVoid
    | .kernel => true
    | .f => false
  body
    | .kernel => some b
    | .f => some helper

/-- `f(y)` -/
def call : Code String Lit Arith Fn .expr :=
  .call (d := false) 0 .f (.cons (.var (.src "y")) .nil)

/-- `x = x + f(y);` -/
def operand : Code String Lit Arith Fn .stmt :=
  .exprStmt (.assign (.src "x") (.op (d := true) .add (.cons (.var (.src "x")) (.cons call .nil))))

/-- `x = f(y);` -/
def value : Code String Lit Arith Fn .stmt := .exprStmt (.assign (.src "x") call)

def table : CallSiteTable Fn (Nat × Fn) := (∅ : CallSiteTable Fn _).insert .kernel [(0, .f)]

theorem extracted {b : Code String Lit Arith Fn .stmt} (hb : b.calls = [(0, .f)]) :
    (program b).Extracted table := by
  refine ⟨fun g c hc => ?_, fun g hg => ?_⟩
  · cases g with
    | kernel =>
      cases hc
      rw [hb]
      rfl
    | f =>
      cases hc
      rfl
  · cases g <;> rfl

theorem parsed {b : Code String Lit Arith Fn .stmt} (hplain : b.Plain) (hb : b.calls = [(0, .f)])
    (harity : (program b).Arity b) : (program b).Parsed := by
  refine ⟨fun g c hc => ?_, fun g c hc => ?_, fun g c hc => ?_⟩ <;> cases g <;> cases hc
  · exact hplain
  · simp [helper, Code.Plain]
  · rw [hb]
    exact List.nodup_singleton _
  · exact List.nodup_nil
  · exact harity
  · simp [Program.Arity, helper, Code.Each]

theorem exists_run (b : Code String Lit Arith Fn .stmt) :
    ∃ s, executeAction (program b).source 3 (.start table (program b).text) = some (.ok s) :=
  ⟨_, rfl⟩

/-- The sites in the body of `f` -/
theorem sites_helper (b : Code String Lit Arith Fn .stmt) :
    sites (literals (program b)) helper (pasted (program b) .f) = [(false, none)] := rfl

/-- **`x + f(y)` is resumed in the middle**: `x` has been read before the loop in `f`. -/
theorem not_resumesWhole_operand :
    ∃ s t, executeAction (program operand).source 3 (.start table (program operand).text) =
        some (.ok s) ∧
      s.text.body .kernel = some t ∧ ¬ResumesWhole (literals (program operand)) t := by
  have hP : (program operand).Parsed := parsed (by simp [operand, call, Code.Plain]) rfl
    (by simp [Program.Arity, operand, call, Code.Each, Code.arity, program])
  obtain ⟨s, hs⟩ := exists_run operand
  obtain ⟨t, ht, hinl, hpending⟩ :=
    inlined_of_executeAction hP (extracted rfl) hs (f := .kernel) rfl
  refine ⟨s, t, hs, ht, fun hwhole => ?_⟩
  have hnothing := (hinl.resumesWhole hP hpending (hP.arity .kernel _ rfl)).mp hwhole
  refine hnothing.1 (some .f) ?_ (.loop rfl (sites_helper operand ▸ List.mem_singleton_self _))
  exact List.mem_singleton_self _

/-- `x = f(y)` is resumed at a point where nothing is held. -/
theorem resumesWhole_value :
    ∃ s t, executeAction (program value).source 3 (.start table (program value).text) =
        some (.ok s) ∧
      s.text.body .kernel = some t ∧ ResumesWhole (literals (program value)) t := by
  have hP : (program value).Parsed := parsed (by simp [value, call, Code.Plain]) rfl
    (by simp [Program.Arity, value, call, Code.Each, Code.arity, program])
  obtain ⟨s, hs⟩ := exists_run value
  obtain ⟨t, ht, _⟩ := inlined_of_executeAction hP (extracted rfl) hs (f := .kernel) rfl
  have hsites : sites (literals (program value)) value toplevel = [(false, some .f)] := rfl
  refine ⟨s, t, hs, ht, (resumesWhole_iff (literals _) hP (extracted rfl) hs rfl ht).mpr ⟨?_, ?_⟩⟩
  · intro o ho
    rw [hsites] at ho
    cases ho with
    | tail _ ho => cases ho
  · intro g hg hheld
    rw [hsites, List.mem_singleton, Prod.mk.injEq, Option.some.injEq] at hg
    rw [hg.2] at hheld
    cases hheld with
    | here hb hs ho =>
      cases hb
      rw [sites_helper] at hs
      cases hs with
      | tail _ hs => cases hs
    | call hb hs hf =>
      cases hb
      rw [sites_helper] at hs
      cases hs with
      | tail _ hs => cases hs

end CountDown

end Inliner
end Clpkm
