import Mathlib.Tactic.Common

/-!
# Pre- and postconditions

`Triple P m Q`: when `P` holds before `m` and `m` returns, `Q` holds of its answer and
the state after it.  The program is a computation over a state that may have no result;
such a run satisfies every postcondition.

The rules follow the ways in which such programs are put together: `Triple.bind` for one
computation after the other, `Triple.cond` for a branch, `Triple.and` for a short-circuit
conjunction, `Triple.foldlM` for a loop over a list, and `Triple.imp` for the rule of
consequence.
-/

namespace Clpkm

variable {σ α β : Type}

/-- Partial correctness. -/
def Triple (P : σ → Prop) (m : StateT σ Option α) (Q : α → σ → Prop) : Prop :=
  ∀ s a t, P s → m s = some (a, t) → Q a t

namespace Triple
variable {P R : σ → Prop} {Q S : α → σ → Prop} {m n : StateT σ Option α}

/-- The rule of consequence. -/
theorem imp (h : Triple P m Q) (hP : ∀ s, R s → P s) (hQ : ∀ a s, Q a s → S a s) :
    Triple R m S := by
  intro s a t hs hm
  exact hQ a t (h s a t (hP s hs) hm)

theorem pure {a : α} (h : ∀ s, P s → Q a s) : Triple P (pure a) Q := by
  intro s b t hs hm
  cases hm
  exact h s hs

theorem bind {f : α → StateT σ Option β} {T : β → σ → Prop} (hm : Triple P m Q)
    (hf : ∀ a, Triple (Q a) (f a) T) : Triple P (m >>= f) T := by
  intro s b t hs hr
  obtain ⟨⟨a, u⟩, hu, ht⟩ := Option.bind_eq_some_iff.mp hr
  exact hf a u b t (hm s a u hs hu) ht

theorem cond {c : Prop} [Decidable c] (hm : c → Triple P m Q) (hn : ¬c → Triple P n Q) :
    Triple P (if c then m else n) Q := by
  split
  · exact hm ‹_›
  · exact hn ‹_›

/-- Both computations of a conjunction, the second only if the first answers `true`. -/
theorem and {P : σ → Prop} {Q S : Bool → σ → Prop} {m n : StateT σ Option Bool}
    (hm : Triple P m Q) (hn : Triple (Q true) n S) (hfalse : ∀ s, Q false s → S false s) :
    Triple P (m <&&> n) S := by
  unfold andM
  refine hm.bind ?_
  intro b
  cases b with
  | true => exact hn
  | false => exact Triple.pure hfalse

/-- A loop over a list keeps what each round keeps. -/
theorem foldlM {f : β → α → StateT σ Option β} {I : List α → β → σ → Prop} {as : List α} {b : β}
    (h : ∀ a as b, Triple (I (a :: as) b) (f b a) (I as)) :
    Triple (I as b) (as.foldlM f b) (I []) := by
  induction as generalizing b with
  | nil => exact Triple.pure fun s hs => hs
  | cons a as ih => exact (h a as b).bind fun c => ih

end Triple
end Clpkm
