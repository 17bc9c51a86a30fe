import Clpkm.Inliner.Paste
import Clpkm.Inliner.Recursion

/-!
# What inlining does to a text

`Inlined P N e e'` says that `e'` comes from `e` by replacing some of its calls, with
numbers below `N`: the text in place of a call has the arguments and the body of the
function called, in which in turn all calls have been replaced, with smaller numbers.

`inlined_of_executeAction` is what the inliner is for: if it ends without an error, then
every body has become such a text, and no call is left that could be inlined.  The proof
follows the inliner.  While the calls of a function are replaced, from the last one to the
first, those that are left are an initial part of its calls, and nothing that is done for
the functions it calls touches its text.
-/

namespace Clpkm
namespace Inliner

variable {Var Val Op F : Type} [Zero Val]

inductive Inlined (P : Program Var Val Op F) :
    Nat → {k : Kind} → Code Var Val Op F k → Code Var Val Op F k → Prop
  | const {N : Nat} (a : Val) : Inlined P N (.const a) (.const a)
  | nothing {N : Nat} : Inlined P N .nothing .nothing
  | var {N : Nat} (x : Name Var) : Inlined P N (.var x) (.var x)
  | op {N : Nat} {d : Bool} (o : Op) {es es' : Code Var Val Op F (.args d)}
      (h : Inlined P N es es') : Inlined P N (.op o es) (.op o es')
  | cond {N : Nat} {c c' e₁ e₁' e₂ e₂' : Code Var Val Op F .expr} (hc : Inlined P N c c')
      (h₁ : Inlined P N e₁ e₁') (h₂ : Inlined P N e₂ e₂') :
      Inlined P N (.cond c e₁ e₂) (.cond c' e₁' e₂')
  | comma {N : Nat} (p : Bool) {e₁ e₁' e₂ e₂' : Code Var Val Op F .expr}
      (h₁ : Inlined P N e₁ e₁') (h₂ : Inlined P N e₂ e₂') :
      Inlined P N (.comma p e₁ e₂) (.comma p e₁' e₂')
  | assign {N : Nat} (x : Name Var) {e e' : Code Var Val Op F .expr} (h : Inlined P N e e') :
      Inlined P N (.assign x e) (.assign x e')
  /-- not replaced -/
  | call {N : Nat} {d : Bool} (loc : Nat) (g : F) {es es' : Code Var Val Op F (.args d)}
      (h : Inlined P N es es') : Inlined P N (.call loc g es) (.call loc g es')
  /-- replaced -/
  | paste {N n : Nat} {d : Bool} (loc : Nat) {g : F} {es es' : Code Var Val Op F (.args d)}
      {b b' : Code Var Val Op F .stmt} (hn : n + 1 < N) (hes : Inlined P n es es')
      (hes' : P.pending es' = []) (hg : P.body g = some b) (hb : Inlined P n b b')
      (hb' : P.pending b' = []) : Inlined P N (.call loc g es) (P.paste n g es' b')
  | nil {N : Nat} {d : Bool} : Inlined P N (.nil (d := d)) .nil
  | cons {N : Nat} {d : Bool} {e e' : Code Var Val Op F .expr}
      {es es' : Code Var Val Op F (.args d)} (h : Inlined P N e e') (hs : Inlined P N es es') :
      Inlined P N (.cons e es) (.cons e' es')
  | skip {N : Nat} : Inlined P N .skip .skip
  | exprStmt {N : Nat} {e e' : Code Var Val Op F .expr} (h : Inlined P N e e') :
      Inlined P N (.exprStmt e) (.exprStmt e')
  | decl {N : Nat} (x : Name Var) {e e' : Code Var Val Op F .expr} (h : Inlined P N e e') :
      Inlined P N (.decl x e) (.decl x e')
  | seq {N : Nat} {s s' t t' : Code Var Val Op F .stmt} (hs : Inlined P N s s')
      (ht : Inlined P N t t') : Inlined P N (.seq s t) (.seq s' t')
  | compound {N : Nat} {s s' : Code Var Val Op F .stmt} (h : Inlined P N s s') :
      Inlined P N (.compound s) (.compound s')
  | ifStmt {N : Nat} {c c' : Code Var Val Op F .expr} {s s' t t' : Code Var Val Op F .stmt}
      (hc : Inlined P N c c') (hs : Inlined P N s s') (ht : Inlined P N t t') :
      Inlined P N (.ifStmt c s t) (.ifStmt c' s' t')
  | loop {N : Nat} (bodyFirst : Bool) {c c' i i' : Code Var Val Op F .expr}
      {b b' : Code Var Val Op F .stmt} (hc : Inlined P N c c') (hi : Inlined P N i i')
      (hb : Inlined P N b b') : Inlined P N (.loop bodyFirst c i b) (.loop bodyFirst c' i' b')
  | breakStmt {N : Nat} : Inlined P N .breakStmt .breakStmt
  | continueStmt {N : Nat} : Inlined P N .continueStmt .continueStmt
  | returnStmt {N : Nat} {e e' : Code Var Val Op F .expr} (h : Inlined P N e e') :
      Inlined P N (.returnStmt e) (.returnStmt e')

variable {P : Program Var Val Op F} {k : Kind} {N M : Nat} {e e' : Code Var Val Op F k}

namespace Inlined

theorem mono (h : Inlined P N e e') (hNM : N ≤ M) : Inlined P M e e' := by
  induction h with
  | const a => exact .const a
  | nothing => exact .nothing
  | var x => exact .var x
  | op o _ ih => exact .op o (ih hNM)
  | cond _ _ _ ihc ih₁ ih₂ => exact .cond (ihc hNM) (ih₁ hNM) (ih₂ hNM)
  | comma p _ _ ih₁ ih₂ => exact .comma p (ih₁ hNM) (ih₂ hNM)
  | assign x _ ih => exact .assign x (ih hNM)
  | call loc g _ ih => exact .call loc g (ih hNM)
  | paste loc hn hes hes' hg hb hb' _ _ =>
    exact .paste loc (Nat.lt_of_lt_of_le hn hNM) hes hes' hg hb hb'
  | nil => exact .nil
  | cons _ _ ih ihs => exact .cons (ih hNM) (ihs hNM)
  | skip => exact .skip
  | exprStmt _ ih => exact .exprStmt (ih hNM)
  | decl x _ ih => exact .decl x (ih hNM)
  | seq _ _ ihs iht => exact .seq (ihs hNM) (iht hNM)
  | compound _ ih => exact .compound (ih hNM)
  | ifStmt _ _ _ ihc ihs iht => exact .ifStmt (ihc hNM) (ihs hNM) (iht hNM)
  | loop bodyFirst _ _ _ ihc ihi ihb => exact .loop bodyFirst (ihc hNM) (ihi hNM) (ihb hNM)
  | breakStmt => exact .breakStmt
  | continueStmt => exact .continueStmt
  | returnStmt _ ih => exact .returnStmt (ih hNM)

/-- A text in which nothing has been replaced. -/
theorem refl (h : e.Plain) : Inlined P N e e := by
  induction e with
  | const a => exact .const a
  | nothing => exact .nothing
  | var x => exact .var x
  | op o es ih => exact .op o (ih h)
  | cond c e₁ e₂ ihc ih₁ ih₂ => exact .cond (ihc h.1) (ih₁ h.2.1) (ih₂ h.2.2)
  | comma p e₁ e₂ ih₁ ih₂ => exact .comma p (ih₁ h.1) (ih₂ h.2)
  | assign x e ih => exact .assign x (ih h)
  | call loc g es ih => exact .call loc g (ih h)
  | stmtExpr | gotoStmt => exact h.elim
  | nil => exact .nil
  | cons e es ih ihs => exact .cons (ih h.1) (ihs h.2)
  | skip => exact .skip
  | exprStmt e ih => exact .exprStmt (ih h)
  | decl x e ih => exact .decl x (ih h)
  | seq s t ihs iht => exact .seq (ihs h.1) (iht h.2)
  | compound s ih => exact .compound (ih h)
  | ifStmt c s t ihc ihs iht => exact .ifStmt (ihc h.1) (ihs h.2.1) (iht h.2.2)
  | loop bodyFirst c i b ihc ihi ihb =>
    exact .loop bodyFirst (ihc h.1) (ihi h.2.1) (ihb h.2.2)
  | breakStmt => exact .breakStmt
  | continueStmt => exact .continueStmt
  | returnStmt e ih => exact .returnStmt (ih h)

/-- As many arguments as before -/
theorem arity (h : Inlined P N e e') : e'.arity = e.arity := by
  induction h with
  | cons _ _ _ ihs => simp only [Code.arity, ihs]
  | _ => rfl

end Inlined

/-! ## Calls that are left -/

omit [Zero Val] in
theorem pending_eq_nil_iff : P.pending e = [] ↔ ∀ c ∈ e.calls, (P.body c.2).isSome = false := by
  rw [Program.pending, List.filter_eq_nil_iff]
  exact forall₂_congr fun c _ => by rw [Bool.not_eq_true]

omit [Zero Val] in
theorem pending_append {e₁ e₂ : List (Nat × F)}
    (h : (e₁ ++ e₂).filter (fun c => (P.body c.2).isSome) = []) :
    e₁.filter (fun c => (P.body c.2).isSome) = [] ∧
      e₂.filter (fun c => (P.body c.2).isSome) = [] := by
  rw [List.filter_append, List.append_eq_nil_iff] at h
  exact h

omit [Zero Val] in
theorem calls_assignTo (x : Name Var) (e : Code Var Val Op F k) :
    (e.assignTo x).calls = e.calls := by
  induction e with
  | comma p e₁ e₂ ih₁ =>
    cases p with
    | true => rfl
    | false => exact congrArg (· ++ e₂.calls) ih₁
  | _ => rfl

theorem mem_calls_patchReturns {n : Nat} {void : Bool} {c : Nat × F}
    (h : c ∈ (e.patchReturns n void).calls) : c ∈ e.calls := by
  induction e with
  | returnStmt e =>
    cases void with
    | true => cases h
    | false => simpa [Code.patchReturns, Code.calls, calls_assignTo] using h
  | seq s t ihs iht =>
    simp only [Code.patchReturns, Code.calls, List.mem_append] at h ⊢
    exact h.imp ihs iht
  | compound s ih => exact ih h
  | ifStmt c s t _ ihs iht =>
    simp only [Code.patchReturns, Code.calls, List.mem_append] at h ⊢
    exact h.imp_right (Or.imp ihs iht)
  | loop bodyFirst c i b _ _ ihb =>
    simp only [Code.patchReturns, Code.calls, List.mem_append] at h ⊢
    exact h.imp_right (Or.imp_right ihb)
  | _ => exact h

omit [Zero Val] in
theorem mem_calls_bindParams {d : Bool} {c : Nat × F} :
    ∀ (ps : List Var) (es : Code Var Val Op F (.args d)) (s : Code Var Val Op F .stmt),
      c ∈ (Code.bindParams ps es s).calls → c ∈ es.calls ∨ c ∈ s.calls
  | [], es, s, h => by
    cases es <;> exact .inr h
  | p :: ps, .nil, s, h => .inr h
  | p :: ps, .cons e es, s, h => by
    rcases mem_calls_bindParams ps es (.seq (.decl (.src p) e) s) h with h | h
    · exact .inl (List.mem_append_right _ h)
    · rcases List.mem_append.mp h with h | h
      · exact .inl (List.mem_append_left _ h)
      · exact .inr h

/-- No call is left in the text in place of a call. -/
theorem pending_paste (n : Nat) (g : F) {d : Bool} {es : Code Var Val Op F (.args d)}
    {b : Code Var Val Op F .stmt} (hes : P.pending es = []) (hb : P.pending b = []) :
    P.pending (P.paste n g es b) = [] := by
  rw [pending_eq_nil_iff] at hes hb ⊢
  intro c hc
  rcases mem_calls_bindParams _ _ _ hc with hc | hc
  · exact hes c hc
  · exact hb c (mem_calls_patchReturns hc)

/-! ## Replacing the last call -/

/-- The element is only at the end. -/
def Last {α : Type} (c : α) (l : List α) : Prop := ∀ l₁ l₂, l = l₁ ++ c :: l₂ → l₂ = []

theorem Last.left {α : Type} {c : α} {l l' : List α} (h : Last c (l ++ l')) : Last c l :=
  fun l₁ l₂ hl => (List.append_eq_nil_iff.mp (h l₁ (l₂ ++ l') (by rw [hl]; simp))).1

theorem Last.right {α : Type} {c : α} {l l' : List α} (h : Last c (l ++ l')) : Last c l' :=
  fun l₁ l₂ hl => h (l ++ l₁) l₂ (by rw [hl]; simp)

theorem Last.tail {α : Type} {a c : α} {l : List α} (h : Last c (a :: l)) : Last c l :=
  Last.right (l := [a]) h

theorem last_concat {α : Type} {c : α} {l : List α} (h : c ∉ l) : Last c (l ++ [c]) := by
  intro l₁ l₂ hl
  have hrev := congrArg List.reverse hl
  simp only [List.reverse_append, List.reverse_cons, List.append_assoc, List.reverse_nil,
    List.nil_append, List.singleton_append] at hrev
  cases hl₂ : l₂.reverse with
  | nil => exact List.reverse_eq_nil_iff.mp hl₂
  | cons a r =>
    rw [hl₂, List.cons_append, List.cons.injEq] at hrev
    refine absurd (List.mem_reverse.mp ?_) h
    rw [hrev.2]
    exact List.mem_append_right _ List.mem_cons_self

section replace
variable [DecidableEq F]

theorem replaceCall_paste (c : Nat × F)
    (text : (d : Bool) → Code Var Val Op F (.args d) → Code Var Val Op F .expr) (n : Nat) (g : F)
    {d : Bool} (es : Code Var Val Op F (.args d)) (b : Code Var Val Op F .stmt) :
    (P.paste n g es b).replaceCall c text = P.paste n g es b := rfl

omit [Zero Val] [DecidableEq F] in
theorem pending_call {d : Bool} (loc : Nat) (g : F) (es : Code Var Val Op F (.args d)) :
    P.pending (.call loc g es) =
      if (P.body g).isSome then (loc, g) :: P.pending es else P.pending es :=
  List.filter_cons

/-- **The last call that is left can be replaced.** -/
theorem Inlined.replaceCall {n : Nat} {c : Nat × F} {b b' : Code Var Val Op F .stmt}
    (h : Inlined P N e e') (hN : N ≤ n) (hc : P.body c.2 = some b) (hb : Inlined P n b b')
    (hb' : P.pending b' = []) (hlast : Last c (P.pending e')) :
    Inlined P (n + 2) e (e'.replaceCall c fun _ es => P.paste n c.2 es b') := by
  have hN' : N ≤ n + 2 := Nat.le_trans hN (Nat.le_add_right n 2)
  induction h with
  | const a => exact .const a
  | nothing => exact .nothing
  | var x => exact .var x
  | op o _ ih => exact .op o (ih hN hlast hN')
  | cond _ _ _ ihc ih₁ ih₂ =>
    simp only [Program.pending, Code.calls, List.filter_append] at hlast
    exact .cond (ihc hN hlast.left hN') (ih₁ hN hlast.right.left hN')
      (ih₂ hN hlast.right.right hN')
  | comma p _ _ ih₁ ih₂ =>
    simp only [Program.pending, Code.calls, List.filter_append] at hlast
    exact .comma p (ih₁ hN hlast.left hN') (ih₂ hN hlast.right hN')
  | assign x _ ih => exact .assign x (ih hN hlast hN')
  | call loc g hes ih =>
    rw [pending_call] at hlast
    rw [Code.replaceCall]
    by_cases heq : (loc, g) = c
    -- no call is left in the arguments, as this one is the last
    · subst heq
      rw [if_pos rfl]
      rw [if_pos (Option.isSome_of_eq_some hc)] at hlast
      exact .paste loc (Nat.lt_succ_self _) (hes.mono hN) (hlast [] _ rfl) hc hb hb'
    · rw [if_neg heq]
      refine .call loc g (ih hN ?_ hN')
      by_cases hg : (P.body g).isSome = true
      · rw [if_pos hg] at hlast
        exact hlast.tail
      · rw [if_neg hg] at hlast
        exact hlast
  | paste loc hn hes hes' hg hgb hgb' _ _ =>
    rw [replaceCall_paste]
    exact .paste loc (Nat.lt_of_lt_of_le hn hN') hes hes' hg hgb hgb'
  | nil => exact .nil
  | cons _ _ ih ihs =>
    simp only [Program.pending, Code.calls, List.filter_append] at hlast
    exact .cons (ih hN hlast.left hN') (ihs hN hlast.right hN')
  | skip => exact .skip
  | exprStmt _ ih => exact .exprStmt (ih hN hlast hN')
  | decl x _ ih => exact .decl x (ih hN hlast hN')
  | seq _ _ ihs iht =>
    simp only [Program.pending, Code.calls, List.filter_append] at hlast
    exact .seq (ihs hN hlast.left hN') (iht hN hlast.right hN')
  | compound _ ih => exact .compound (ih hN hlast hN')
  | ifStmt _ _ _ ihc ihs iht =>
    simp only [Program.pending, Code.calls, List.filter_append] at hlast
    exact .ifStmt (ihc hN hlast.left hN') (ihs hN hlast.right.left hN')
      (iht hN hlast.right.right hN')
  | loop bodyFirst _ _ _ ihc ihi ihb =>
    simp only [Program.pending, Code.calls, List.filter_append] at hlast
    exact .loop bodyFirst (ihc hN hlast.left hN') (ihi hN hlast.right.left hN')
      (ihb hN hlast.right.right hN')
  | breakStmt => exact .breakStmt
  | continueStmt => exact .continueStmt
  | returnStmt _ ih => exact .returnStmt (ih hN hlast hN')

/-- What is left when a call has been replaced. -/
theorem Inlined.pending_replaceCall {n : Nat} {c : Nat × F} {b' : Code Var Val Op F .stmt}
    (h : Inlined P N e e') (hc : (P.body c.2).isSome = true) (hb' : P.pending b' = [])
    (hlast : Last c (P.pending e')) :
    P.pending (e'.replaceCall c fun _ es => P.paste n c.2 es b') =
      (P.pending e').filter (· ≠ c) := by
  induction h with
  | call loc g hes ih =>
    rw [pending_call] at hlast ⊢
    rw [Code.replaceCall]
    by_cases heq : (loc, g) = c
    · subst heq
      rw [if_pos rfl]
      rw [if_pos hc] at hlast ⊢
      have hes' := hlast [] _ rfl
      rw [pending_paste n g hes' hb', hes']
      simp
    · rw [if_neg heq, pending_call]
      by_cases hg : (P.body g).isSome = true
      · rw [if_pos hg] at hlast
        rw [if_pos hg, if_pos hg, ih hlast.tail, List.filter_cons_of_pos (by simpa using heq)]
      · rw [if_neg hg] at hlast
        rw [if_neg hg, if_neg hg, ih hlast]
  | paste loc hn hes hes' hg hgb hgb' _ _ =>
    rw [replaceCall_paste, pending_paste _ _ hes' hgb']
    rfl
  | op _ _ ih | assign _ _ ih | exprStmt _ ih | decl _ _ ih | compound _ ih | returnStmt _ ih =>
    exact ih hlast
  | cond _ _ _ ih₁ ih₂ ih₃ | ifStmt _ _ _ ih₁ ih₂ ih₃ | loop _ _ _ _ ih₁ ih₂ ih₃ =>
    simp only [Program.pending, Code.calls, List.filter_append] at hlast
    have h₁ := ih₁ hlast.left
    have h₂ := ih₂ hlast.right.left
    have h₃ := ih₃ hlast.right.right
    simp only [Program.pending] at h₁ h₂ h₃
    simp only [Program.pending, Code.replaceCall, Code.calls, List.filter_append, h₁, h₂, h₃]
  | comma _ _ _ ih₁ ih₂ | cons _ _ ih₁ ih₂ | seq _ _ ih₁ ih₂ =>
    simp only [Program.pending, Code.calls, List.filter_append] at hlast
    have h₁ := ih₁ hlast.left
    have h₂ := ih₂ hlast.right
    simp only [Program.pending] at h₁ h₂
    simp only [Program.pending, Code.replaceCall, Code.calls, List.filter_append, h₁, h₂]
  | const | nothing | var | nil | skip | breakStmt | continueStmt => rfl

/-! ## The inliner -/

/-- What is known about the text while the calls of the functions in the call chain are being
inlined. -/
structure TextInv (P : Program Var Val Op F) (callChain : List F)
    (s : State F (Nat × F) (Text Var Val Op F)) : Prop where
  /-- the sites are the calls of the function -/
  sites : ∀ f b cs, P.body f = some b → s.callSites.lookup f = some cs → cs = b.calls
  bodies : ∀ f, (s.callSites.lookup f).isSome = true → (P.body f).isSome = true
  inTable : ∀ f ∈ callChain, (s.callSites.lookup f).isSome = true
  inlined : ∀ f b, P.body f = some b →
    ∃ t, s.text.body f = some t ∧ Inlined P s.text.nonce b t
  /-- nothing has been done for the function -/
  untouched : ∀ f ∉ callChain, ∀ b, P.body f = some b →
    (s.callSites.lookup f).isSome = true → s.text.body f = some b
  /-- the function has been dealt with -/
  finished : ∀ f b t, P.body f = some b → s.callSites.lookup f = none →
    s.text.body f = some t → P.pending t = []
  cached : ∀ g ∈ s.cache, ∃ b b', P.body g = some b ∧ s.text.cache g = some b' ∧
    Inlined P s.text.nonce b b' ∧ P.pending b' = []

/-- What is done for other functions leaves those in the call chain alone. -/
structure Keeps (callChain : List F) (s s' : State F (Nat × F) (Text Var Val Op F)) : Prop where
  nonce : s.text.nonce ≤ s'.text.nonce
  body : ∀ f ∈ callChain, s'.text.body f = s.text.body f

omit [Zero Val] [DecidableEq F] in
theorem Keeps.refl (callChain : List F) (s : State F (Nat × F) (Text Var Val Op F)) :
    Keeps callChain s s := ⟨Nat.le_refl _, fun _ _ => rfl⟩

omit [Zero Val] [DecidableEq F] in
theorem Keeps.trans {callChain : List F} {s s' s'' : State F (Nat × F) (Text Var Val Op F)}
    (h : Keeps callChain s s') (h' : Keeps callChain s' s'') : Keeps callChain s s'' :=
  ⟨Nat.le_trans h.nonce h'.nonce, fun f hf => (h'.body f hf).trans (h.body f hf)⟩

variable {callChain : List F} {s s' : State F (Nat × F) (Text Var Val Op F)}

theorem textInv_start (hP : P.Parsed) {T : CallSiteTable F (Nat × F)} (hT : P.Extracted T) :
    TextInv P [] (.start T P.text) where
  sites f b cs hb hcs := by
    have hlookup := hT.lookup f b hb
    rw [show T.lookup f = some cs from hcs] at hlookup
    exact hlookup
  bodies f hf := hT.body f (mem_keys_iff.mpr (Option.isSome_iff_exists.mp hf))
  inTable _ hf := absurd hf List.not_mem_nil
  inlined f b hb := ⟨b, hb, .refl (hP.plain f b hb)⟩
  untouched _ _ _ hb _ := hb
  finished f b t hb hnone ht := by
    have hlookup := hT.lookup f b hb
    rw [show T.lookup f = none from hnone] at hlookup
    have hbt : b = t := Option.some.inj (hb.symm.trans ht)
    subst hbt
    rw [Program.pending, ← hlookup]
    rfl
  cached _ hg := absurd hg List.not_mem_nil

/-- **A snippet is put into the cache.** -/
theorem TextInv.addSnippet {g : F} {b : Code Var Val Op F .stmt} (h : TextInv P callChain s)
    (hg : P.body g = some b) (hnone : s.callSites.lookup g = none) :
    TextInv P callChain
      { s with cache := g :: s.cache, text := Program.addSnippet g s.text } := by
  refine ⟨h.sites, h.bodies, h.inTable, h.inlined, h.untouched, h.finished, fun f hf => ?_⟩
  obtain ⟨t, ht, hinl⟩ := h.inlined g b hg
  by_cases hfg : f = g
  · subst hfg
    refine ⟨b, t, hg, ?_, hinl, h.finished f b t hg hnone ht⟩
    exact (Function.update_self f _ _).trans ht
  · obtain ⟨b₁, b', hb₁, hc, hi, hp⟩ := h.cached f ((List.mem_cons.mp hf).resolve_left hfg)
    exact ⟨b₁, b', hb₁, (Function.update_of_ne hfg _ _).trans hc, hi, hp⟩

/-- **`GenCodeSnippet`**, if `PerformInline` does as it should. -/
theorem TextInv.genCodeSnippet
    {perform : F → State F (Nat × F) (Text Var Val Op F) →
      Result F (Nat × F) (Text Var Val Op F)}
    (hperform : ∀ g s s', (P.body g).isSome = true → TextInv P callChain s →
      perform g s = some (.ok s') →
      TextInv P callChain s' ∧ Keeps callChain s s' ∧ s'.callSites.lookup g = none)
    {g : F} (hg : (P.body g).isSome = true) (h : TextInv P callChain s)
    (hr : genCodeSnippet P.source perform g s = some (.ok s')) :
    TextInv P callChain s' ∧ Keeps callChain s s' ∧ g ∈ s'.cache := by
  obtain ⟨b, hb⟩ := Option.isSome_iff_exists.mp hg
  unfold Inliner.genCodeSnippet at hr
  by_cases hcache : g ∈ s.cache
  · rw [if_pos hcache] at hr
    cases hr
    exact ⟨h, .refl _ _, hcache⟩
  rw [if_neg hcache] at hr
  by_cases hcst : (s.callSites.lookup g).isSome = true
  · rw [if_pos hcst] at hr
    cases hp : perform g s with
    | none =>
      rw [hp] at hr
      cases hr
    | some r =>
      rw [hp] at hr
      cases r with
      | error e => cases hr
      | ok s₁ =>
        cases hr
        obtain ⟨h₁, hkeeps, hnone⟩ := hperform g s s₁ hg h hp
        exact ⟨h₁.addSnippet hb hnone, ⟨hkeeps.nonce, hkeeps.body⟩, List.mem_cons_self⟩
  · rw [if_neg hcst] at hr
    cases hr
    have hnone : s.callSites.lookup g = none := by simpa using hcst
    exact ⟨h.addSnippet hb hnone, ⟨Nat.le_refl _, fun _ _ => rfl⟩, List.mem_cons_self⟩

/-- **A call is replaced.** -/
theorem TextInv.replace {f : F} {c : Nat × F} {b₀ t : Code Var Val Op F .stmt}
    (h : TextInv P callChain s) (hf : f ∈ callChain) (hfb : P.body f = some b₀)
    (ht : s.text.body f = some t)
    (hc : c.2 ∈ s.cache) (hlast : Last c (P.pending t)) :
    TextInv P callChain { s with text := P.replace f c s.text } ∧
      s.text.nonce ≤ (P.replace f c s.text).nonce ∧
      (∀ g, g ≠ f → (P.replace f c s.text).body g = s.text.body g) ∧
      ∃ t', (P.replace f c s.text).body f = some t' ∧
        P.pending t' = (P.pending t).filter (· ≠ c) := by
  obtain ⟨b, b', hb, hcache, hinl, hpending⟩ := h.cached c.2 hc
  have hreplace : P.replace f c s.text =
      { s.text with
        body := Function.update s.text.body f
          (some (t.replaceCall c fun _ es => P.paste s.text.nonce c.2 es b'))
        nonce := s.text.nonce + 2 } := by
    rw [Program.replace, hcache, ht]
  have hle := Nat.le_add_right s.text.nonce 2
  -- no other text changes
  have hother : ∀ g, g ≠ f → (P.replace f c s.text).body g = s.text.body g := by
    intro g hg
    rw [hreplace]
    exact Function.update_of_ne hg _ _
  have hself : (P.replace f c s.text).body f =
      some (t.replaceCall c fun _ es => P.paste s.text.nonce c.2 es b') := by
    rw [hreplace]
    exact Function.update_self f _ _
  refine ⟨⟨h.sites, h.bodies, h.inTable, fun g b₁ hb₁ => ?_, fun g hg b₁ hb₁ hl => ?_,
    fun g b₁ t₁ hb₁ hl ht₁ => ?_, fun g hg => ?_⟩, ?_, hother, _, hself, ?_⟩
  · obtain ⟨t₁, ht₁, hinl₁⟩ := h.inlined g b₁ hb₁
    by_cases hgf : g = f
    · subst hgf
      have htt : t₁ = t := Option.some.inj (ht₁.symm.trans ht)
      subst htt
      refine ⟨_, hself, ?_⟩
      show Inlined P (P.replace g c s.text).nonce _ _
      rw [hreplace]
      exact hinl₁.replaceCall (Nat.le_refl _) hb hinl hpending hlast
    · refine ⟨t₁, (hother g hgf).trans ht₁, ?_⟩
      show Inlined P (P.replace f c s.text).nonce _ _
      rw [hreplace]
      exact hinl₁.mono hle
  · have hgf : g ≠ f := fun heq => hg (heq ▸ hf)
    exact (hother g hgf).trans (h.untouched g hg b₁ hb₁ hl)
  · have hgf : g ≠ f := by
      rintro rfl
      have hsome := h.inTable g hf
      rw [show s.callSites.lookup g = none from hl] at hsome
      cases hsome
    exact h.finished g b₁ t₁ hb₁ hl ((hother g hgf).symm.trans ht₁)
  · obtain ⟨b₁, b₁', hb₁, hc₁, hi₁, hp₁⟩ := h.cached g hg
    refine ⟨b₁, b₁', hb₁, ?_, ?_, hp₁⟩
    · show (P.replace f c s.text).cache g = _
      rw [hreplace]
      exact hc₁
    · show Inlined P (P.replace f c s.text).nonce _ _
      rw [hreplace]
      exact hi₁.mono hle
  · rw [hreplace]
    exact hle
  · obtain ⟨t₁, ht₁, hinl₁⟩ := h.inlined f b₀ hfb
    have htt : t₁ = t := Option.some.inj (ht₁.symm.trans ht)
    subst htt
    exact hinl₁.pending_replaceCall (Option.isSome_of_eq_some hb) hpending hlast

/-- **The loop over the calls of a function**: the calls that are left are those in front. -/
theorem TextInv.inlineCalls
    {gen : F → State F (Nat × F) (Text Var Val Op F) →
      Result F (Nat × F) (Text Var Val Op F)}
    (hgen : ∀ g s s', (P.body g).isSome = true → TextInv P callChain s →
      gen g s = some (.ok s') →
      TextInv P callChain s' ∧ Keeps callChain s s' ∧ g ∈ s'.cache)
    {f : F} {b t : Code Var Val Op F .stmt} {cs : List (Nat × F)} (hf : f ∈ callChain)
    (hfb : P.body f = some b) (hcs : cs.Nodup) (h : TextInv P callChain s)
    (ht : s.text.body f = some t)
    (hleft : P.pending t = cs.reverse.filter fun c => (P.body c.2).isSome)
    (hr : inlineCalls P.source gen f cs s = some (.ok s')) :
    TextInv P callChain s' ∧ s.text.nonce ≤ s'.text.nonce ∧
      (∀ g ∈ callChain, g ≠ f → s'.text.body g = s.text.body g) ∧
      ∃ t', s'.text.body f = some t' ∧ P.pending t' = [] := by
  induction cs generalizing s t with
  | nil =>
    cases hr
    exact ⟨h, Nat.le_refl _, fun _ _ _ => rfl, t, ht, hleft⟩
  | cons c cs ih =>
    obtain ⟨hnew, hcs⟩ := List.nodup_cons.mp hcs
    rw [List.reverse_cons, List.filter_append] at hleft
    rw [Inliner.inlineCalls] at hr
    by_cases hbody : P.source.hasBody (P.source.getDirectCallee c) = true
    · rw [if_pos hbody] at hr
      have hbody : (P.body c.2).isSome = true := hbody
      rw [List.filter_cons_of_pos (p := fun c : Nat × F => (P.body c.2).isSome) hbody,
        List.filter_nil] at hleft
      have hnew' : c ∉ cs.reverse.filter fun c => (P.body c.2).isSome :=
        fun hm => hnew (List.mem_reverse.mp (List.mem_filter.mp hm).1)
      cases hg : gen (P.source.getDefinition (P.source.getDirectCallee c)) s with
      | none =>
        rw [hg] at hr
        cases hr
      | some r =>
        rw [hg] at hr
        cases r with
        | error e => cases hr
        | ok s₁ =>
          obtain ⟨h₁, hkeeps, hcached⟩ := hgen c.2 s s₁ hbody h hg
          have ht₁ : s₁.text.body f = some t := (hkeeps.body f hf).trans ht
          -- the calls are replaced from the last one on
          have hlast : Last c (P.pending t) := by
            rw [hleft]
            exact last_concat hnew'
          obtain ⟨h₂, hnonce, hother, t₂, ht₂, hpending⟩ := h₁.replace hf hfb ht₁ hcached hlast
          have hleft₂ : P.pending t₂ = cs.reverse.filter fun c => (P.body c.2).isSome := by
            rw [hpending, hleft, List.filter_append, List.filter_eq_self.mpr, List.filter_singleton]
            · simp
            · intro a ha
              exact decide_eq_true fun hac => hnew' (hac ▸ ha)
          obtain ⟨h₃, hnonce₃, hother₃, hdone⟩ := ih hcs h₂ ht₂ hleft₂ hr
          refine ⟨h₃, Nat.le_trans hkeeps.nonce (Nat.le_trans hnonce hnonce₃), ?_, hdone⟩
          intro g hg hgf
          exact (hother₃ g hg hgf).trans ((hother g hgf).trans (hkeeps.body g hg))
    · rw [if_neg hbody] at hr
      have hbody : ¬(P.body c.2).isSome = true := hbody
      rw [List.filter_cons_of_neg (p := fun c : Nat × F => (P.body c.2).isSome) hbody,
        List.filter_nil, List.append_nil] at hleft
      exact ih hcs h ht hleft hr

/-- The record of a function is removed when no call is left in its text. -/
theorem TextInv.erase {f : F} {t : Code Var Val Op F .stmt} (hf : f ∉ callChain)
    (h : TextInv P (callChain ++ [f]) s) (ht : s.text.body f = some t)
    (hpending : P.pending t = []) :
    TextInv P callChain { s with callSites := s.callSites.erase f } := by
  refine ⟨fun g b cs hb hl => ?_, fun g hg => ?_, fun g hg => ?_, h.inlined,
    fun g hg b hb hl => ?_, fun g b t' hb hl ht' => ?_, h.cached⟩
  · apply h.sites g b cs hb
    by_cases hgf : g = f
    · subst hgf
      rw [AList.lookup_erase] at hl
      cases hl
    · rwa [AList.lookup_erase_ne hgf] at hl
  · have hgf : g ≠ f := by
      rintro rfl
      rw [AList.lookup_erase] at hg
      cases hg
    rw [AList.lookup_erase_ne hgf] at hg
    exact h.bodies g hg
  · have hgf : g ≠ f := fun heq => hf (heq ▸ hg)
    rw [AList.lookup_erase_ne hgf]
    exact h.inTable g (List.mem_append_left _ hg)
  · have hgf : g ≠ f := by
      rintro rfl
      rw [AList.lookup_erase] at hl
      cases hl
    rw [AList.lookup_erase_ne hgf] at hl
    refine h.untouched g (fun hm => ?_) b hb hl
    rcases List.mem_append.mp hm with hm | hm
    · exact hg hm
    · exact hgf (List.mem_singleton.mp hm)
  · by_cases hgf : g = f
    · subst hgf
      have htt : t' = t := Option.some.inj (ht'.symm.trans ht)
      exact htt ▸ hpending
    · rw [AList.lookup_erase_ne hgf] at hl
      exact h.finished g b t' hb hl ht'

/-- **`PerformInline`**: what it is called for is dealt with. -/
theorem TextInv.performInline (hP : P.Parsed) (n : Nat) {f : F}
    (hf : (P.body f).isSome = true) (h : TextInv P callChain s)
    (hr : performInline P.source n f callChain s = some (.ok s')) :
    TextInv P callChain s' ∧ Keeps callChain s s' ∧ s'.callSites.lookup f = none := by
  have hgone : s'.callSites.lookup f = none := lookup_of_performInline hf hr
  induction n generalizing f callChain s s' with
  | zero => cases hr
  | succ n ih =>
    rw [Inliner.performInline, if_pos (show P.source.hasBody f = true from hf)] at hr
    by_cases hmem : f ∈ callChain
    · rw [if_pos hmem] at hr
      cases hr
    rw [if_neg hmem] at hr
    cases hl : s.callSites.lookup f with
    | none =>
      rw [hl] at hr
      cases hr
      exact ⟨h, .refl _ _, hgone⟩
    | some calls =>
      simp only [hl] at hr
      obtain ⟨b, hb⟩ := Option.isSome_iff_exists.mp hf
      have hsome : (s.callSites.lookup f).isSome = true := Option.isSome_of_eq_some hl
      have ht := h.untouched f hmem b hb hsome
      have hcalls := h.sites f b calls hb hl
      -- the function joins the call chain
      have hchain : TextInv P (callChain ++ [f]) s := by
        refine ⟨h.sites, h.bodies, fun g hg => ?_, h.inlined, fun g hg b hb hl => ?_, h.finished,
          h.cached⟩
        · rcases List.mem_append.mp hg with hg | hg
          · exact h.inTable g hg
          · rw [List.mem_singleton.mp hg]
            exact hsome
        · exact h.untouched g (fun hm => hg (List.mem_append_left _ hm)) b hb hl
      have hgen : ∀ g s s', (P.body g).isSome = true → TextInv P (callChain ++ [f]) s →
          Inliner.genCodeSnippet P.source
            (fun g s => Inliner.performInline P.source n g (callChain ++ [f]) s) g s =
              some (.ok s') →
          TextInv P (callChain ++ [f]) s' ∧ Keeps (callChain ++ [f]) s s' ∧ g ∈ s'.cache := by
        intro g s s' hg h hr
        exact h.genCodeSnippet
          (fun g s s' hg h hr => ih hg h hr (lookup_of_performInline hg hr)) hg hr
      cases hloop : Inliner.inlineCalls P.source
          (Inliner.genCodeSnippet P.source
            fun g s => Inliner.performInline P.source n g (callChain ++ [f]) s) f
          calls.reverse s with
      | none =>
        rw [hloop] at hr
        cases hr
      | some r =>
        rw [hloop] at hr
        cases r with
        | error e => cases hr
        | ok s₁ =>
          cases hr
          have hnodup : calls.reverse.Nodup :=
            List.nodup_reverse.mpr (hcalls ▸ hP.nodup f b hb)
          have hleft : P.pending b = calls.reverse.reverse.filter
              fun c => (P.body c.2).isSome := by
            rw [List.reverse_reverse, hcalls]
            rfl
          obtain ⟨h₁, hnonce, hother, t, ht₁, hpending⟩ := hchain.inlineCalls hgen
            (List.mem_append_right _ (List.mem_singleton_self f)) hb hnodup ht hleft hloop
          refine ⟨h₁.erase hmem ht₁ hpending, ⟨hnonce, fun g hg => ?_⟩, hgone⟩
          exact hother g (List.mem_append_left _ hg) fun heq => hmem (heq ▸ hg)

/-- **What the inliner is for.**  When it ends without an error, the calls in every body have
been inlined, and none is left. -/
theorem inlined_of_executeAction (hP : P.Parsed) {T : CallSiteTable F (Nat × F)}
    (hT : P.Extracted T) {n : Nat} (hr : executeAction P.source n (.start T P.text) = some (.ok s))
    {f : F} {b : Code Var Val Op F .stmt} (hb : P.body f = some b) :
    ∃ t, s.text.body f = some t ∧ Inlined P s.text.nonce b t ∧ P.pending t = [] := by
  have hrun : ∀ (n : Nat) (u : State F (Nat × F) (Text Var Val Op F)), TextInv P [] u →
      executeAction P.source n u = some (.ok s) → TextInv P [] s ∧ s.callSites.keys = [] := by
    intro n
    induction n with
    | zero =>
      intro u _ hr
      cases hr
    | succ n ih =>
      intro u h hr
      rw [executeAction] at hr
      cases hu : u.callSites.keys with
      | nil =>
        rw [hu] at hr
        cases hr
        exact ⟨h, hu⟩
      | cons g rest =>
        simp only [hu] at hr
        have hg : (P.body g).isSome = true :=
          h.bodies g (Option.isSome_iff_exists.mpr (mem_keys_iff.mp (hu ▸ List.mem_cons_self)))
        cases hp : performInline P.source n g [] u with
        | none =>
          rw [hp] at hr
          cases hr
        | some r =>
          rw [hp] at hr
          cases r with
          | error e => cases hr
          | ok u' => exact ih u' (h.performInline hP n hg hp).1 hr
  obtain ⟨h, hkeys⟩ := hrun n _ (textInv_start hP hT) hr
  obtain ⟨t, ht, hinl⟩ := h.inlined f b hb
  refine ⟨t, ht, hinl, h.finished f b t hb ?_ ht⟩
  rw [AList.lookup_eq_none]
  intro hmem
  rw [AList.mem_keys, hkeys] at hmem
  cases hmem

end replace

end Inliner
end Clpkm
