import Mathlib.Data.List.Chain
import Mathlib.Logic.Relation
import Mathlib.Tactic.Common

/-!
# Reaching a cycle

For a relation, the nodes from which a cycle can be reached.  A node from none of whose
successors a cycle can be reached does not reach one either; this is what a depth first
search that finishes its nodes one after the other relies on.
-/

namespace Clpkm

universe u

variable {α : Type u} (r : α → α → Prop)

/-- A cycle can be reached from the node. -/
def ReachesCycle (a : α) : Prop := ∃ b, Relation.ReflTransGen r a b ∧ Relation.TransGen r b b

/-- The nodes in the order of the list, and back to the first, form a cycle. -/
def IsCycle (a : α) (l : List α) : Prop := List.IsChain r (a :: (l ++ [a]))

variable {r} {a b : α} {l : List α}

theorem ReachesCycle.head (h : r a b) (hb : ReachesCycle r b) : ReachesCycle r a := by
  obtain ⟨c, hbc, hc⟩ := hb
  exact ⟨c, hbc.head h, hc⟩

theorem ReachesCycle.of_transGen (h : Relation.TransGen r a a) : ReachesCycle r a :=
  ⟨a, .refl, h⟩

/-- A node reaches a cycle only through a successor. -/
theorem not_reachesCycle (h : ∀ b, r a b → ¬ReachesCycle r b) : ¬ReachesCycle r a := by
  rintro ⟨c, hac, hc⟩
  rcases Relation.ReflTransGen.cases_head hac with rfl | ⟨b, hab, hbc⟩
  · obtain ⟨b, hab, hba⟩ := Relation.TransGen.head'_iff.mp hc
    exact h b hab ⟨a, hba, hc⟩
  · exact h b hab ⟨c, hbc, hc⟩

/-- The end of a chain is reached from its beginning. -/
theorem transGen_of_isChain (h : List.IsChain r (a :: (l ++ [b]))) : Relation.TransGen r a b := by
  induction l generalizing a with
  | nil => exact .single (List.isChain_cons_cons.mp h).1
  | cons c l ih =>
    rw [List.cons_append, List.isChain_cons_cons] at h
    exact .head h.1 (ih h.2)

theorem IsCycle.transGen (h : IsCycle r a l) : Relation.TransGen r a a := transGen_of_isChain h

end Clpkm
