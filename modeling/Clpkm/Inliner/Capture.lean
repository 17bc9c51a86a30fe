import Clpkm.Inliner.Inlined
import Clpkm.Inliner.Return

/-!
# Labels and variables are not captured

What the inliner adds to a text are labels, result variables and parameters.  In a
program whose functions share no variables, an argument of a call does not mention the
parameters of the function called, so that the declarations in front of its body take
nothing away from it.  A label and its result variable have a number that is larger than
all numbers in the arguments and in the body at the time of the call; the same snippet
may be pasted many times, but never into itself.
-/

namespace Clpkm
namespace Inliner

variable {Var Val Op F : Type}

namespace Code

/-- All variables that are declared somewhere. -/
def bound : {k : Kind} → Code Var Val Op F k → List (Name Var)
  | _, op _ es => es.bound
  | _, cond c e₁ e₂ => c.bound ++ (e₁.bound ++ e₂.bound)
  | _, comma _ e₁ e₂ => e₁.bound ++ e₂.bound
  | _, assign _ e => e.bound
  | _, call _ _ es => es.bound
  | _, stmtExpr _ r s => r.toList ++ s.bound
  | _, cons e es => e.bound ++ es.bound
  | _, exprStmt e => e.bound
  | _, decl x e => x :: e.bound
  | _, seq s t => s.bound ++ t.bound
  | _, compound s => s.bound
  | _, ifStmt c s t => c.bound ++ (s.bound ++ t.bound)
  | _, loop _ c i b => c.bound ++ (i.bound ++ b.bound)
  | _, returnStmt e => e.bound
  | _, _ => []

end Code

/-! ## What is in the text in place of a call -/

section bindParams
variable {d : Bool}

theorem free_bindParams {x : Name Var} :
    ∀ {ps : List Var} {es : Code Var Val Op F (.args d)} {s : Code Var Val Op F .stmt},
      es.arity = ps.length → (Code.bindParams ps es s).Free x →
      es.Free x ∨ (∀ p ∈ ps, x ≠ .src p) ∧ s.Free x
  | [], .nil, s, _, h => .inr ⟨nofun, h⟩
  | p :: ps, .cons e es, s, harity, h => by
    rcases free_bindParams (Nat.succ.inj harity) h with h | ⟨hx, h | ⟨hp, h⟩⟩
    · exact .inl (.inr h)
    · exact .inl (.inl h.2)
    · refine .inr ⟨fun q hq => ?_, h⟩
      rcases List.mem_cons.mp hq with rfl | hq
      · exact fun h => hp (h ▸ List.mem_singleton_self _)
      · exact hx q hq

end bindParams

section assignTo
variable {k : Kind} (x : Name Var) (e : Code Var Val Op F k)

end assignTo

section patchReturns
variable [Zero Val] {k : Kind} {e : Code Var Val Op F k} {l : Nat} {void : Bool}

/-- The result variable occurs in a text with a result only. -/
theorem free_patchReturns {x : Name Var} (h : (e.patchReturns l void).Free x) :
    e.Free x ∨ void = false ∧ x = .ret (l + 1) := by
  induction e with
  | returnStmt e =>
    cases void with
    | true => simp [Code.patchReturns, Code.Free] at h
    | false =>
      have h' : (e.assignTo (.ret (l + 1))).Free x := by
        simpa [Code.patchReturns, Code.Free, Code.decls] using h
      exact (free_assignTo h').symm.imp_right fun hx => ⟨rfl, hx⟩
  | seq s t ihs iht =>
    rcases h with h | ⟨hD, h⟩
    · exact (ihs h).imp_left .inl
    · rw [decls_patchReturns] at hD
      exact (iht h).imp_left fun ht => .inr ⟨hD, ht⟩
  | compound s ih => exact ih h
  | ifStmt c s t _ ihs iht =>
    rcases h with h | h | h
    · exact .inl (.inl h)
    · exact (ihs h).imp_left fun h => .inr (.inl h)
    · exact (iht h).imp_left fun h => .inr (.inr h)
  | loop bodyFirst c i b _ _ ihb =>
    rcases h with h | h | h
    · exact .inl (.inl h)
    · exact .inl (.inr (.inl h))
    · exact (ihb h).imp_left fun h => .inr (.inr h)
  | _ => exact .inl h

end patchReturns

/-! ## Texts -/

namespace Program
variable (P : Program Var Val Op F)

/-- The arguments are evaluated from the right, there are as many as parameters, and they mention
neither parameters of the function called nor what the inliner adds. -/
def CallOk {d : Bool} (_ : Nat) (g : F) (es : Code Var Val Op F (.args d)) : Prop :=
  (P.body g).isSome = true → d = false ∧ es.arity = (P.params g).length ∧
    (∀ p ∈ P.params g, ¬es.Free (.src p)) ∧ ∀ n, ¬es.Free (.ret n)

/-- The functions keep to their own variables. -/
structure Separated : Prop where
  calls : ∀ f b, P.body f = some b → b.Each P.CallOk
  params : ∀ f b, P.body f = some b → (P.params f).Nodup
  closed : ∀ f b, P.body f = some b → ∀ x, b.Free x → ∃ p ∈ P.params f, x = .src p
  bound : ∀ f b, P.body f = some b → ∀ x ∈ b.bound, ∃ y, x = .src y

end Program

variable [Zero Val] {P : Program Var Val Op F} {k : Kind} {N : Nat} {e e' : Code Var Val Op F k}

namespace Inlined

theorem decls_eq (h : Inlined P N e e') : e'.decls = e.decls := by
  induction h with
  | seq _ _ ihs iht => simp only [Code.decls, ihs, iht]
  | _ => rfl

theorem isComma_eq (h : Inlined P N e e') : e'.isComma = e.isComma := by
  cases h with
  | comma p => cases p <;> rfl
  | _ => rfl

theorem assignTo (x : Name Var) (h : Inlined P N e e') :
    Inlined P N (e.assignTo x) (e'.assignTo x) := by
  have h' := h
  induction h with
  | comma p h₁ h₂ ih₁ =>
    cases p with
    | true => exact .assign x h'
    | false => exact .comma false (ih₁ h₁) h₂
  | const | nothing | var | op | cond | assign | call | paste => exact .assign x h'
  | _ => exact h'

theorem cutReturn {e e' : Code Var Val Op F .expr} (h : Inlined P N e e') (void : Bool) :
    Inlined P N (e.cutReturn void) (e'.cutReturn void) := by
  unfold Code.cutReturn
  rw [h.isComma_eq]
  split
  · exact .returnStmt .nothing
  · split
    · exact .compound (.seq (.decl _ .nothing)
        (.seq (.exprStmt (h.assignTo _)) (.returnStmt (.var _))))
    · exact .returnStmt h

theorem cutReturns (h : Inlined P N e e') (void : Bool) :
    Inlined P N (e.cutReturns void) (e'.cutReturns void) := by
  induction h with
  | seq _ _ ihs iht => exact .seq ihs iht
  | compound _ ih => exact .compound ih
  | ifStmt hc _ _ _ ihs iht => exact .ifStmt hc ihs iht
  | loop bodyFirst hc hi _ _ _ ihb => exact .loop bodyFirst hc hi ihb
  | returnStmt h _ => exact h.cutReturn void
  | const a => exact .const a
  | nothing => exact .nothing
  | var x => exact .var x
  | op o h _ => exact .op o h
  | cond hc h₁ h₂ _ _ _ => exact .cond hc h₁ h₂
  | comma p h₁ h₂ _ _ => exact .comma p h₁ h₂
  | assign x h _ => exact .assign x h
  | call loc g h _ => exact .call loc g h
  | paste loc hn hes hes' hg hb hb' _ _ => exact .paste loc hn hes hes' hg hb hb'
  | nil => exact .nil
  | cons h hs _ _ => exact .cons h hs
  | skip => exact .skip
  | exprStmt h _ => exact .exprStmt h
  | decl x h _ => exact .decl x h
  | breakStmt => exact .breakStmt
  | continueStmt => exact .continueStmt

/-- Inlining makes no variable occur free. -/
theorem free (hP : P.Separated) (h : Inlined P N e e') (hcalls : e.Each P.CallOk) {x : Name Var}
    (hx : e'.Free x) : e.Free x := by
  induction h with
  | op _ _ ih | exprStmt _ ih | compound _ ih | returnStmt _ ih => exact ih hcalls hx
  | assign _ _ ih => exact hx.imp_right (ih hcalls)
  | decl _ _ ih => exact ⟨hx.1, ih hcalls hx.2⟩
  | call _ _ _ ih => exact ih hcalls.2 hx
  | cond _ _ _ ih₁ ih₂ ih₃ | ifStmt _ _ _ ih₁ ih₂ ih₃ | loop _ _ _ _ ih₁ ih₂ ih₃ =>
    exact hx.imp (ih₁ hcalls.1) (Or.imp (ih₂ hcalls.2.1) (ih₃ hcalls.2.2))
  | comma _ _ _ ih₁ ih₂ | cons _ _ ih₁ ih₂ => exact hx.imp (ih₁ hcalls.1) (ih₂ hcalls.2)
  | seq hs _ ihs iht =>
    rcases hx with hx | ⟨hD, hx⟩
    · exact .inl (ihs hcalls.1 hx)
    · rw [hs.decls_eq] at hD
      exact .inr ⟨hD, iht hcalls.2 hx⟩
  | paste loc hn hes _ hg _ _ ihs ihb =>
    obtain ⟨hr, hx⟩ := hx
    obtain ⟨_, harity, _, _⟩ := hcalls.1 (Option.isSome_of_eq_some hg)
    have harity' := hes.arity.trans harity
    rcases free_bindParams harity' hx with hx | ⟨hps, hx⟩
    · exact ihs hcalls.2 hx
    · rcases free_patchReturns hx with hx | ⟨hvoid, rfl⟩
      · obtain ⟨p, hp, rfl⟩ := hP.closed _ _ hg _ (ihb (hP.calls _ _ hg) hx)
        exact absurd rfl (hps p hp)
      · refine absurd ?_ hr
        rw [Program.retVar, hvoid]
        rfl
  | _ => exact hx

end Inlined

end Inliner
end Clpkm
