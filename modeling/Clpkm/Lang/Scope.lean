import Clpkm.FlowGraph
import Clpkm.Lang.Stmt

/-!
# Scopes and liveness

A `Place` is a statement of a program with the variables in scope in front of it and
the continuation it runs with.  `Inside p q` says that `q` is reached from `p` by going
from statements to their parts; whatever a statement hands down to its parts holds
everywhere inside.

The flow graph of a program has the controls as points and an edge wherever some store
and memory make a step take it.  A variable is live at a control when some path reads
it before it is declared again.  Two facts about liveness are needed to restart a loop:

* a live variable is in scope (`Ctl.Live.mem_scope`), and
* while the body of a loop runs, there is a path from the start of the body to where
  the run is, and it declares only variables of the body (`Ctl.History`).
-/

namespace Clpkm
namespace Lang

variable {Var Val Mem α : Type}

/-! ## Declarations and scopes -/

namespace Stmt

/-- The variables that a statement declares. -/
def decls : Stmt Var Val α → List Var
  | decl x _ => [x]
  | seq s t | ifStmt _ s t => s.decls ++ t.decls
  | compound s | loop _ _ s => s.decls
  | _ => []

/-- The variables in scope behind a statement, given those in front of it. -/
def after : Stmt Var Val α → List Var → List Var
  | decl x _, E => x :: E
  | seq s t, E => t.after (s.after E)
  | _, E => E

/-- Every variable that is mentioned is in scope, and no declaration hides a variable. -/
def Scoped : Stmt Var Val α → List Var → Prop
  | expr e, E => e.vars ⊆ E
  | decl x init, E => x ∉ E ∧ ∀ e, init = some e → e.vars ⊆ E
  | seq s t, E => s.Scoped E ∧ t.Scoped (s.after E)
  | compound s, E => s.Scoped E
  | ifStmt e s t, E => e.vars ⊆ E ∧ s.Scoped E ∧ t.Scoped E
  | loop h _ b, E =>
    (∀ e, h.cond = some e → e.vars ⊆ E) ∧ (∀ e, h.inc = some e → e.vars ⊆ E) ∧ b.Scoped E
  | _, _ => True

theorem subset_after (s : Stmt Var Val α) (E : List Var) : E ⊆ s.after E := by
  induction s generalizing E with
  | decl x init => exact List.subset_cons_self x E
  | seq s t ihs iht => exact List.Subset.trans (ihs E) (iht (s.after E))
  | _ => exact List.Subset.refl E

@[simp] theorem after_erase (s : Stmt Var Val α) (E : List Var) :
    s.erase.after E = s.after E := by
  induction s generalizing E with
  | seq s t ihs iht => simp only [erase, after, ihs, iht]
  | _ => rfl

@[simp] theorem decls_erase (s : Stmt Var Val α) : s.erase.decls = s.decls := by
  induction s with
  | seq s t ihs iht | ifStmt e s t ihs iht => simp only [erase, decls, ihs, iht]
  | compound s ih | loop h a s ih => simp only [erase, decls, ih]
  | _ => rfl

/-- A statement declares nothing that is in scope in front of it. -/
theorem Scoped.notMem_decls {s : Stmt Var Val α} {E : List Var} (h : s.Scoped E) {v : Var}
    (hv : v ∈ E) : v ∉ s.decls := by
  induction s generalizing E with
  | decl x init =>
    intro hx
    rw [decls, List.mem_singleton] at hx
    subst hx
    exact h.1 hv
  | seq s t ihs iht =>
    rw [decls, List.mem_append]
    rintro (hs | ht)
    · exact ihs h.1 hv hs
    · exact iht h.2 (s.subset_after E hv) ht
  | ifStmt e s t ihs iht =>
    rw [decls, List.mem_append]
    rintro (hs | ht)
    · exact ihs h.2.1 hv hs
    · exact iht h.2.2 hv ht
  | compound s ih => exact ih h hv
  | loop hd a b ih => exact ih h.2.2 hv
  | _ => exact List.not_mem_nil

end Stmt

/-! ## Places -/

/-- A statement where it stands in a program. -/
structure Place (Var Val α : Type) where
  scope : List Var
  stmt : Stmt Var Val α
  cont : Cont Var Val α

/-- From a statement to one of its parts. -/
inductive Place.Part : Place Var Val α → Place Var Val α → Prop
  | seqLeft (E : List Var) (s t : Stmt Var Val α) (k : Cont Var Val α) :
      Part ⟨E, .seq s t, k⟩ ⟨E, s, .seq t k⟩
  | seqRight (E : List Var) (s t : Stmt Var Val α) (k : Cont Var Val α) :
      Part ⟨E, .seq s t, k⟩ ⟨s.after E, t, k⟩
  | compound (E : List Var) (s : Stmt Var Val α) (k : Cont Var Val α) :
      Part ⟨E, .compound s, k⟩ ⟨E, s, k⟩
  | ifLeft (E : List Var) (e : Expr Var Val) (s t : Stmt Var Val α) (k : Cont Var Val α) :
      Part ⟨E, .ifStmt e s t, k⟩ ⟨E, s, k⟩
  | ifRight (E : List Var) (e : Expr Var Val) (s t : Stmt Var Val α) (k : Cont Var Val α) :
      Part ⟨E, .ifStmt e s t, k⟩ ⟨E, t, k⟩
  | body (E : List Var) (h : LoopHead Var Val) (a : α) (b : Stmt Var Val α)
      (k : Cont Var Val α) : Part ⟨E, .loop h a b, k⟩ ⟨E, b, .loop h a b k⟩

/-- The second place lies inside the first. -/
def Place.Inside : Place Var Val α → Place Var Val α → Prop := Relation.ReflTransGen Place.Part

namespace Cont

/-- The loop bodies that are being executed, with the continuations they run with. -/
def bodies : Cont Var Val α → List (Stmt Var Val α × Cont Var Val α)
  | stop => []
  | seq _ k => k.bodies
  | loop h a b k => (b, loop h a b k) :: k.bodies

/-- The scope with which a continuation goes on when a statement has ended. -/
def Scope (r : Place Var Val α) : Cont Var Val α → List Var → Prop
  | stop, _ => True
  | seq t k, E => r.Inside ⟨E, t, k⟩
  | loop h a b k, E => r.Inside ⟨E, .loop h a b, k⟩

/-- The scope of the innermost loop of a continuation. -/
def LoopScope (r : Place Var Val α) : Cont Var Val α → List Var → Prop
  | stop, _ => True
  | seq _ k, E => k.LoopScope r E
  | loop h a b k, E => r.Inside ⟨E, .loop h a b, k⟩

end Cont

namespace Place
variable {r p q : Place Var Val α}

/-- What every part inherits holds everywhere inside. -/
theorem Inside.inherit {P : Place Var Val α → Prop} (hP : ∀ p q, Part p q → P p → P q)
    (h : p.Inside q) (hp : P p) : P q := by
  induction h with
  | refl => exact hp
  | tail _ hq ih => exact hP _ _ hq ih

theorem Part.scoped (h : Part p q) (hp : p.stmt.Scoped p.scope) : q.stmt.Scoped q.scope := by
  cases h with
  | seqLeft => exact hp.1
  | seqRight => exact hp.2
  | compound => exact hp
  | ifLeft => exact hp.2.1
  | ifRight => exact hp.2.2
  | body => exact hp.2.2

theorem Part.decls_subset (h : Part p q) : q.stmt.decls ⊆ p.stmt.decls := by
  cases h with
  | seqLeft | ifLeft => exact List.subset_append_left _ _
  | seqRight | ifRight => exact List.subset_append_right _ _
  | compound | body => exact List.Subset.refl _

/-- The continuation of a place inside the program, and the loop around it, have their
scopes in the scope of the place. -/
structure Fits (r p : Place Var Val α) : Prop where
  inside : r.Inside p
  cont : ∃ E, p.cont.Scope r E ∧ E ⊆ p.stmt.after p.scope
  loop : ∃ E, p.cont.LoopScope r E ∧ E ⊆ p.scope

theorem Fits.part (hp : r.Fits p) (h : Part p q) : r.Fits q := by
  have hin : r.Inside q := hp.inside.tail h
  obtain ⟨E, hE, hEs⟩ := hp.cont
  obtain ⟨L, hL, hLs⟩ := hp.loop
  cases h with
  | seqLeft F s t k =>
    exact ⟨hin, ⟨s.after F, hp.inside.tail (.seqRight F s t k), List.Subset.refl _⟩, ⟨L, hL, hLs⟩⟩
  | seqRight F s t k =>
    exact ⟨hin, ⟨E, hE, hEs⟩, ⟨L, hL, List.Subset.trans hLs (s.subset_after F)⟩⟩
  | compound F s k =>
    exact ⟨hin, ⟨E, hE, List.Subset.trans hEs (s.subset_after F)⟩, ⟨L, hL, hLs⟩⟩
  | ifLeft F e s t k =>
    exact ⟨hin, ⟨E, hE, List.Subset.trans hEs (s.subset_after F)⟩, ⟨L, hL, hLs⟩⟩
  | ifRight F e s t k =>
    exact ⟨hin, ⟨E, hE, List.Subset.trans hEs (t.subset_after F)⟩, ⟨L, hL, hLs⟩⟩
  | body F h a b k =>
    exact ⟨hin, ⟨F, hp.inside, b.subset_after F⟩, ⟨F, hp.inside, List.Subset.refl _⟩⟩

/-- Every place inside a whole program fits. -/
theorem Inside.fits (h : r.Inside p) (hr : r.cont = .stop) : r.Fits p := by
  refine h.inherit (fun p q hq hp => Fits.part hp hq) ⟨.refl, ⟨[], ?_, List.nil_subset _⟩,
    ⟨[], ?_, List.nil_subset _⟩⟩
  · rw [hr]
    exact trivial
  · rw [hr]
    exact trivial

/-- A loop body that a place runs in contains the place, or contained the first place
already. -/
theorem Inside.body (h : p.Inside q) {b : Stmt Var Val α} {k : Cont Var Val α}
    (hb : (b, k) ∈ q.cont.bodies) :
    (b, k) ∈ p.cont.bodies ∨ ∃ E, Inside ⟨E, b, k⟩ q := by
  induction h using Relation.ReflTransGen.head_induction_on with
  | refl => exact Or.inl hb
  | head hp hq ih =>
    rcases ih with ih | ih
    · cases hp with
      | body E h a b' k' =>
        rcases List.mem_cons.mp ih with heq | ih
        · cases heq
          exact Or.inr ⟨E, hq⟩
        · exact Or.inl ih
      | _ => exact Or.inl ih
    · exact Or.inr ih

/-- The place in the program without annotations. -/
def erase (p : Place Var Val α) : Place Var Val Unit := ⟨p.scope, p.stmt.erase, p.cont.erase⟩

theorem Part.erase (h : Part p q) : Part p.erase q.erase := by
  cases h with
  | seqLeft E s t k => exact .seqLeft E s.erase t.erase k.erase
  | seqRight E s t k =>
    have := Part.seqRight E s.erase t.erase k.erase
    rwa [Stmt.after_erase] at this
  | compound E s k => exact .compound E s.erase k.erase
  | ifLeft E e s t k => exact .ifLeft E e s.erase t.erase k.erase
  | ifRight E e s t k => exact .ifRight E e s.erase t.erase k.erase
  | body E h a b k => exact .body E h () b.erase k.erase

theorem Inside.erase (h : p.Inside q) : p.erase.Inside q.erase := by
  induction h with
  | refl => exact .refl
  | tail _ hq ih => exact ih.tail hq.erase

end Place

/-! ## The scope of a control -/

namespace Ctl

/-- The variables that a control may still refer to. -/
def Scope (r : Place Var Val α) : Ctl Var Val α → List Var → Prop
  | exec s k, E => r.Inside ⟨E, s, k⟩
  | done k, E => k.Scope r E
  | brk k, E | cont k, E => k.LoopScope r E
  | next h a b k, E | test h a b k, E => r.Inside ⟨E, .loop h a b, k⟩
  | fin, _ => True

/-- The continuation of a control. -/
def rest : Ctl Var Val α → Cont Var Val α
  | exec _ k | done k | brk k | cont k | next _ _ _ k | test _ _ _ k => k
  | fin => .stop

variable {r : Place Var Val α} {c c' : Ctl Var Val α}

theorem Scope.erase {E : List Var} (h : c.Scope r E) : c.erase.Scope r.erase E := by
  have hloop : ∀ k : Cont Var Val α, k.LoopScope r E → k.erase.LoopScope r.erase E := by
    intro k hk
    induction k with
    | stop => exact trivial
    | seq t k ih => exact ih hk
    | loop h a b k ih => exact Place.Inside.erase hk
  match c, h with
  | exec s k, h | next _ _ _ _, h | test _ _ _ _, h => exact Place.Inside.erase h
  | done .stop, h => exact trivial
  | done (.seq _ _), h | done (.loop _ _ _ _), h => exact Place.Inside.erase h
  | brk k, h | cont k, h => exact hloop k h
  | fin, h => exact trivial

/-- **One step stays in the scope**, but for what it declares. -/
theorem Scope.step (hr : r.cont = .stop) {E : List Var} (h : c.Scope r E) {t : Bool}
    (hs : c.step t = some c') :
    ∃ E', c'.Scope r E' ∧ ∀ v ∈ E', v ∈ E ∨ c.action.Kills v := by
  -- a statement that ends
  have hdone : ∀ (s : Stmt Var Val α) (k : Cont Var Val α), r.Inside ⟨E, s, k⟩ →
      ∃ E', (done k).Scope r E' ∧ E' ⊆ s.after E := fun s k hk => (hk.fits hr).cont
  -- a part of a statement or a loop in the same scope
  have hsame : ∀ c₁ : Ctl Var Val α, c₁.Scope r E →
      ∃ E', c₁.Scope r E' ∧ ∀ v ∈ E', v ∈ E ∨ c.action.Kills v :=
    fun c₁ h₁ => ⟨E, h₁, fun v hv => Or.inl hv⟩
  match c, h with
  | exec s k, h =>
    cases s with
    | skip | expr e =>
      cases hs
      obtain ⟨E', hE', hsub⟩ := hdone _ k h
      exact ⟨E', hE', fun v hv => Or.inl (hsub hv)⟩
    | decl x init =>
      cases hs
      obtain ⟨E', hE', hsub⟩ := hdone _ k h
      refine ⟨E', hE', fun v hv => ?_⟩
      rcases List.mem_cons.mp (hsub hv) with rfl | hv
      · cases init with
        | none => exact Or.inr rfl
        | some e => exact Or.inr rfl
      · exact Or.inl hv
    | seq s₁ s₂ =>
      cases hs
      exact hsame _ (Relation.ReflTransGen.tail h (.seqLeft E s₁ s₂ k))
    | compound s₁ =>
      cases hs
      exact hsame _ (Relation.ReflTransGen.tail h (.compound E s₁ k))
    | ifStmt e s₁ s₂ =>
      cases hs
      cases t with
      | true => exact hsame _ (Relation.ReflTransGen.tail h (.ifLeft E e s₁ s₂ k))
      | false => exact hsame _ (Relation.ReflTransGen.tail h (.ifRight E e s₁ s₂ k))
    | loop hd a b =>
      cases hs
      by_cases hb : hd.bodyFirst = true
      · rw [if_pos hb]
        exact hsame _ (Relation.ReflTransGen.tail h (.body E hd a b k))
      · rw [if_neg hb]
        exact hsame _ h
    | breakStmt | continueStmt =>
      cases hs
      obtain ⟨E', hE', hsub⟩ := (Place.Inside.fits h hr).loop
      exact ⟨E', hE', fun v hv => Or.inl (hsub hv)⟩
    | returnStmt =>
      cases hs
      exact hsame _ trivial
  | done .stop, h | done (.seq _ _), h | done (.loop _ _ _ _), h | brk (.seq _ _), h
  | cont (.seq _ _), h | cont (.loop _ _ _ _), h | next _ _ _ _, h =>
    cases hs
    exact hsame _ h
  | brk (.loop hd a b k), h =>
    cases hs
    obtain ⟨E', hE', hsub⟩ := hdone _ k h
    exact ⟨E', hE', fun v hv => Or.inl (hsub hv)⟩
  | test hd a b k, h =>
    cases hs
    cases t with
    | true => exact hsame _ (Relation.ReflTransGen.tail h (.body E hd a b k))
    | false =>
      obtain ⟨E', hE', hsub⟩ := hdone _ k h
      exact ⟨E', hE', fun v hv => Or.inl (hsub hv)⟩
  | brk .stop, _ | cont .stop, _ | fin, _ => cases hs

/-- The variables that the next action mentions are in scope. -/
theorem Scope.vars_subset (hr : r.stmt.Scoped r.scope) {E : List Var} (h : c.Scope r E) :
    c.action.vars ⊆ E := by
  have hin : ∀ (s : Stmt Var Val α) (k : Cont Var Val α), r.Inside ⟨E, s, k⟩ → s.Scoped E :=
    fun s k hk => hk.inherit (fun p q hq hp => hq.scoped hp) hr
  match c, h with
  | exec s k, h =>
    have hs := hin s k h
    cases s with
    | expr e => exact hs
    | decl x init =>
      cases init with
      | none => exact List.nil_subset E
      | some e => exact hs.2 e rfl
    | ifStmt e s t => exact hs.1
    | _ => exact List.nil_subset E
  | next hd a b k, h =>
    have hs := hin _ k h
    rw [action]
    cases hi : hd.inc with
    | none => exact List.nil_subset E
    | some e => exact hs.2.1 e hi
  | test hd a b k, h =>
    have hs := hin _ k h
    rw [action]
    cases hi : hd.cond with
    | none => exact List.nil_subset E
    | some e => exact hs.1 e hi
  | done _, _ | brk _, _ | cont _, _ | fin, _ => exact List.nil_subset E

/-! ## Liveness -/

variable (I : Interp Val Mem)

section
variable [DecidableEq Var]

/-- Some store and memory make a step go from the one control to the other. -/
def Flow (c c' : Ctl Var Val α) : Prop :=
  ∃ σ m t σ' m', c.action.run I (fun _ => none) σ m = some (t, σ', m') ∧ c.step t = some c'

/-- The variable is live. -/
def Live (v : Var) : Ctl Var Val α → Prop :=
  FlowGraph.Live (Flow I) (fun c => c.action.Reads I v) (fun c => c.action.Kills v)

/-- **A live variable is in scope.** -/
theorem Live.mem_scope (hr : r.cont = .stop) (hs : r.stmt.Scoped r.scope) {v : Var}
    (h : Live I v c) {E : List Var} (hc : c.Scope r E) : v ∈ E := by
  induction h generalizing E with
  | use hu => exact hc.vars_subset hs hu.mem_vars
  | step hk hf _ ih =>
    obtain ⟨σ, m, t, σ', m', _, hstep⟩ := hf
    obtain ⟨E', hE', hsub⟩ := hc.step hr hstep
    exact (hsub v (ih hE')).resolve_right hk

/-- What is live after a step is live before it or declared by it. -/
theorem Live.back {v : Var} (hf : Flow I c c') (h : Live I v c') :
    Live I v c ∨ c.action.Kills v := by
  by_cases hk : c.action.Kills v
  · exact Or.inr hk
  · exact Or.inl (.step hk hf h)

/-- Every loop body that is being executed has a path from its start to the control that
declares only variables of the body. -/
def History (c : Ctl Var Val α) : Prop :=
  ∀ p ∈ c.rest.bodies, ∀ v ∉ p.1.decls,
    FlowGraph.Avoids (Flow I) (fun c => c.action.Kills v) (.exec p.1 p.2) c

end

/-- The loop bodies after a step are some of those before it, and perhaps one that
begins. -/
theorem bodies_step {t : Bool} (hs : c.step t = some c') :
    (c'.rest.bodies ⊆ c.rest.bodies ∧ c'.rest.bodies.length ≤ c.rest.bodies.length) ∨
      ∃ b k, c' = exec b k ∧ k.bodies = (b, k) :: c.rest.bodies ∧ c.enters t = 1 := by
  match c with
  | exec s k =>
    cases s with
    | loop hd a b =>
      cases hs
      by_cases hb : hd.bodyFirst = true
      · refine Or.inr ⟨b, _, if_pos hb, rfl, ?_⟩
        rw [enters, if_pos hb]
      · rw [if_neg hb]
        exact Or.inl ⟨List.Subset.refl _, Nat.le_refl _⟩
    | returnStmt =>
      cases hs
      exact Or.inl ⟨List.nil_subset _, Nat.zero_le _⟩
    | _ =>
      cases hs
      exact Or.inl ⟨List.Subset.refl _, Nat.le_refl _⟩
  | done .stop | done (.seq _ _) | brk (.seq _ _) | cont (.seq _ _) | next _ _ _ _ =>
    cases hs
    exact Or.inl ⟨List.Subset.refl _, Nat.le_refl _⟩
  | done (.loop _ _ _ _) | brk (.loop _ _ _ _) | cont (.loop _ _ _ _) =>
    cases hs
    exact Or.inl ⟨List.subset_cons_self _ _, Nat.le_succ _⟩
  | test hd a b k =>
    cases hs
    cases t with
    | true => exact Or.inr ⟨b, _, rfl, rfl, rfl⟩
    | false => exact Or.inl ⟨List.Subset.refl _, Nat.le_refl _⟩
  | brk .stop | cont .stop | fin => cases hs

/-- Every loop body that begins counts as an iteration. -/
theorem length_bodies_step {t : Bool} (hs : c.step t = some c') :
    c'.rest.bodies.length ≤ c.rest.bodies.length + c.enters t := by
  rcases bodies_step hs with ⟨_, hlen⟩ | ⟨b, k, rfl, hk, hen⟩
  · omega
  · have hlen : k.bodies.length = c.rest.bodies.length + 1 := congrArg List.length hk
    change k.bodies.length ≤ _
    omega

/-- A step inside a loop body declares only variables of the body. -/
theorem Scope.kills_mem_decls (hr : r.cont = .stop) {E : List Var} (h : c.Scope r E) {v : Var}
    (hk : c.action.Kills v) {b : Stmt Var Val α} {k : Cont Var Val α}
    (hb : (b, k) ∈ c.rest.bodies) : v ∈ b.decls := by
  have hdecl : ∀ (x : Var) (init : Option (Expr Var Val)) (k' : Cont Var Val α),
      r.Inside ⟨E, .decl x init, k'⟩ → (b, k) ∈ k'.bodies → x ∈ b.decls := by
    intro x init k' hin hb
    rcases hin.body hb with hb | ⟨E', hin⟩
    · rw [hr] at hb
      cases hb
    · exact hin.inherit (P := fun p => p.stmt.decls ⊆ b.decls)
        (fun p q hq hp => List.Subset.trans hq.decls_subset hp) (List.Subset.refl _)
        List.mem_cons_self
  match c, h with
  | exec s k', h =>
    cases s with
    | decl x init =>
      cases init with
      | none =>
        cases hk
        exact hdecl v none k' h hb
      | some e =>
        cases hk
        exact hdecl v (some e) k' h hb
    | _ => cases hk
  | next hd a b' k', h =>
    rw [action] at hk
    cases hi : hd.inc with
    | none => rw [hi] at hk; cases hk
    | some e => rw [hi] at hk; cases hk
  | test hd a b' k', h =>
    rw [action] at hk
    cases hi : hd.cond with
    | none => rw [hi] at hk; cases hk
    | some e => rw [hi] at hk; cases hk

variable [DecidableEq Var]

/-- **One step extends the paths from the bodies that are being executed.** -/
theorem History.step (hr : r.cont = .stop) {E : List Var} (hc : c.Scope r E) (h : History I c)
    {t : Bool} (hs : c.step t = some c') (hf : Flow I c c') : History I c' := by
  have hold : ∀ p ∈ c.rest.bodies, ∀ v ∉ p.1.decls,
      FlowGraph.Avoids (Flow I) (fun c => c.action.Kills v) (.exec p.1 p.2) c' :=
    fun p hp v hv => .tail (h p hp v hv) (fun hk => hv (hc.kills_mem_decls hr hk hp)) hf
  intro p hp v hv
  rcases bodies_step hs with ⟨hsub, _⟩ | ⟨b, k, rfl, hk, _⟩
  · exact hold p (hsub hp) v hv
  · rw [rest, hk] at hp
    rcases List.mem_cons.mp hp with rfl | hp
    · exact .refl _
    · exact hold p hp v hv

/-- What is live at the end of a loop body is live at its start, unless the body
declares it. -/
theorem History.live_start {h : LoopHead Var Val} {a : α} {b : Stmt Var Val α}
    {k : Cont Var Val α} (hist : History I (.done (.loop h a b k))) {v : Var}
    (hv : v ∉ b.decls) (hl : Live I v (.done (.loop h a b k))) :
    Live I v (.exec b (.loop h a b k)) :=
  .of_avoids (hist (b, .loop h a b k) List.mem_cons_self v hv) hl

end Ctl
end Lang
end Clpkm
