import Mathlib.Data.List.Basic
import Mathlib.Tactic.Common

/-!
# Liveness on flow graphs

A flow graph is a successor relation on program points.  For one variable, `use p`
says that the code at point `p` reads it and `kill p` that it starts a new life of it,
after reading.  The variable is live at `p` when some path from `p` reaches a use
before it passes a kill (`Live`).

The second half is about graphs of basic blocks.  A point of such a graph is what is
left of the current block together with the block, so that liveness at the end of a
block is liveness at the point where nothing is left.  `live_iff_block` is the
relation between the two: what is live inside a block is what the rest of the block
uses first, or does not kill and is live at the end.
-/

namespace Clpkm

universe u v

namespace FlowGraph

section Points
variable {Point : Type u} (succ : Point → Point → Prop) (use kill : Point → Prop)

/-- Some path reaches a use before it passes a kill. -/
inductive Live : Point → Prop
  | use {p : Point} (h : use p) : Live p
  | step {p q : Point} (hk : ¬ kill p) (hs : succ p q) (hq : Live q) : Live p

/-- A path from the first point to the second passes no kill. -/
inductive Avoids : Point → Point → Prop
  | refl (p : Point) : Avoids p p
  | tail {p q r : Point} (h : Avoids p q) (hk : ¬ kill q) (hs : succ q r) : Avoids p r

variable {succ use kill}

/-- What is live at the end of a path without kills is live at its start. -/
theorem Live.of_avoids {p q : Point} (h : Avoids succ kill p q) (hq : Live succ use kill q) :
    Live succ use kill p := by
  induction h with
  | refl => exact hq
  | tail _ hk hs ih => exact ih (.step hk hs hq)

theorem Live.mono {use' : Point → Prop} (huse : ∀ p, use p → use' p) {p : Point}
    (h : Live succ use kill p) : Live succ use' kill p := by
  induction h with
  | use h => exact .use (huse _ h)
  | step hk hs _ ih => exact .step hk hs ih

end Points

/-! ## Basic blocks -/

/-- A control-flow graph of basic blocks. -/
structure Cfg (Block : Type u) (Elem : Type v) where
  elems : Block → List Elem
  succs : Block → List Block

namespace Cfg
variable {Block : Type u} {Elem : Type v} (g : Cfg Block Elem) (use kill : Elem → Prop)

/-- One step through a block or to the start of a successor. -/
inductive Succ : List Elem × Block → List Elem × Block → Prop
  | elem (e : Elem) (es : List Elem) (b : Block) : Succ (e :: es, b) (es, b)
  | edge {b b' : Block} (h : b' ∈ g.succs b) : Succ ([], b) (g.elems b', b')

/-- The property of the first element that is left. -/
def AtHead (p : Elem → Prop) : List Elem × Block → Prop
  | (e :: _, _) => p e
  | ([], _) => False

/-- Liveness right before the elements that are left of a block. -/
def LiveAt (es : List Elem) (b : Block) : Prop := Live g.Succ (AtHead use) (AtHead kill) (es, b)

/-- Liveness at the end of a block. -/
def LiveAtEnd (b : Block) : Prop := g.LiveAt use kill [] b

/-- A use comes before every kill. -/
def UsedFirst : List Elem → Prop
  | [] => False
  | e :: es => use e ∨ (¬ kill e ∧ UsedFirst es)

variable {g use kill}

theorem liveAt_cons {e : Elem} {es : List Elem} {b : Block} :
    g.LiveAt use kill (e :: es) b ↔ use e ∨ (¬ kill e ∧ g.LiveAt use kill es b) := by
  constructor
  · intro h
    cases h with
    | use h => exact Or.inl h
    | step hk hs hq =>
      cases hs
      exact Or.inr ⟨hk, hq⟩
  · rintro (h | ⟨hk, hq⟩)
    · exact .use h
    · exact .step hk (.elem e es b) hq

/-- **Liveness inside a block and at its end.**  What is live before some elements of a
block is what they use first, or do not kill and is live at the end of the block. -/
theorem live_iff_block {es : List Elem} {b : Block} :
    g.LiveAt use kill es b ↔
      UsedFirst use kill es ∨ ((∀ e ∈ es, ¬ kill e) ∧ g.LiveAtEnd use kill b) := by
  induction es with
  | nil =>
    constructor
    · intro h
      refine Or.inr ⟨?_, h⟩
      intro e he
      cases he
    · rintro (h | ⟨_, h⟩)
      · exact h.elim
      · exact h
  | cons e es ih =>
    rw [liveAt_cons, ih, UsedFirst]
    constructor
    · rintro (hu | ⟨hk, hu | ⟨hks, hl⟩⟩)
      · exact Or.inl (Or.inl hu)
      · exact Or.inl (Or.inr ⟨hk, hu⟩)
      · refine Or.inr ⟨fun x hx => ?_, hl⟩
        rcases List.mem_cons.mp hx with rfl | hx
        · exact hk
        · exact hks x hx
    · rintro ((hu | ⟨hk, hu⟩) | ⟨hks, hl⟩)
      · exact Or.inl hu
      · exact Or.inr ⟨hk, Or.inl hu⟩
      · exact Or.inr ⟨hks e List.mem_cons_self,
          Or.inr ⟨fun x hx => hks x (List.mem_cons_of_mem e hx), hl⟩⟩

theorem LiveAtEnd.mono {use' : Elem → Prop} (huse : ∀ e, use e → use' e) {b : Block}
    (h : g.LiveAtEnd use kill b) : g.LiveAtEnd use' kill b := by
  refine Live.mono (fun p hp => ?_) h
  match p, hp with
  | (e :: _, _), hp => exact huse e hp

end Cfg
end FlowGraph
end Clpkm
