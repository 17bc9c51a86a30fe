import Clpkm.Machine

/-!
# One machine follows another

A machine follows another one if each of its steps is a step of the other one or changes
nothing there.  `run_follows` is the rule for runs: it also lets the other machine get to a
bad state, after which nothing is said any more, and it counts.  What a state of the first
machine weighs is what its run is ahead of the run that it follows, so a bound for the
runs of the second machine and for the weight is one for the runs of the first.

`ReachableBy.map` is the case of a map between the states, without a bad state.  With it a
machine that is put together from others inherits their invariants.

`acc_of_follows` is the rule for termination: what follows a relation that comes to an end,
and makes a measure smaller when it does not move there, comes to an end as well.
-/

namespace Clpkm

universe u v u' v'

/-- **Termination is inherited.**  A relation comes to an end if each of its steps does, or is
one of a relation that comes to an end, or makes a measure smaller. -/
theorem acc_of_follows {α : Type u} {β : Type v} {r : α → α → Prop} {r' : β → β → Prop}
    {R : β → α → Prop} (μ : β → α → Nat)
    (h : ∀ x s t, R x s → r t s →
      Acc r t ∨ (∃ y, r' y x ∧ R y t) ∨ (R x t ∧ μ x t < μ x s))
    {x : β} {s : α} (hx : Acc r' x) (hR : R x s) : Acc r s := by
  induction hx generalizing s with
  | intro x _ ih =>
    induction hn : μ x s using Nat.strongRecOn generalizing s with
    | ind n ihn =>
      refine ⟨s, fun t ht => ?_⟩
      rcases h x s t hR ht with hacc | ⟨y, hy, hRy⟩ | ⟨hRx, hlt⟩
      · exact hacc
      · exact ih y hy hRy
      · exact ihn (μ x t) (hn ▸ hlt) hRx rfl

namespace Machine
variable {State : Type u} {Label : Type v} {State' : Type u'} {Label' : Type v'}
variable {M : Machine State Label} {N : Machine State' Label'}

section Runs
variable {R : State' → State → Prop} {Bad : State' → Prop} {weight : State → Nat}

/-- What the states of `M` are related to: after a step of `M` the same state, or the next
one of `N`; unless the state is bad. -/
def Follows (M : Machine State Label) (N : Machine State' Label') (R : State' → State → Prop)
    (Bad : State' → Prop) (weight : State → Nat) : Prop :=
  ∀ p s l t, R p s → M.step s l = some t →
    Bad p ∨ (R p t ∧ weight t = weight s + 1) ∨
      ∃ l' q, N.step p l' = some q ∧ R q t ∧ weight t = weight s

/-- **A run follows a run**, and is ahead of it by the weight that it has gained. -/
theorem run_follows (h : Follows M N R Bad weight) {p : State'} {s t : State} {ls : List Label}
    (hR : R p s) (hrun : M.run s ls = some t) :
    ∃ ls' q, N.run p ls' = some q ∧
      (Bad q ∨ R q t ∧ ls.length + weight s = ls'.length + weight t) := by
  induction ls generalizing s p with
  | nil =>
    rw [run_nil, Option.some.injEq] at hrun
    subst hrun
    exact ⟨[], p, rfl, .inr ⟨hR, rfl⟩⟩
  | cons l ls ih =>
    rw [run_cons] at hrun
    obtain ⟨u, hu, ht⟩ := Option.bind_eq_some_iff.mp hrun
    rcases h p s l u hR hu with hbad | ⟨hRu, hw⟩ | ⟨l', q, hq, hRu, hw⟩
    · exact ⟨[], p, rfl, .inl hbad⟩
    · obtain ⟨ls', r, hr, hend⟩ := ih hRu ht
      refine ⟨ls', r, hr, hend.imp id fun ⟨hRr, hlen⟩ => ⟨hRr, ?_⟩⟩
      rw [List.length_cons]
      omega
    · obtain ⟨ls', r, hr, hend⟩ := ih hRu ht
      refine ⟨l' :: ls', r, ?_, hend.imp id fun ⟨hRr, hlen⟩ => ⟨hRr, ?_⟩⟩
      · rw [run_cons, hq]
        exact hr
      · rw [List.length_cons, List.length_cons]
        omega

end Runs

/-! ## Termination -/

variable (M) in
/-- Every run from the state comes to an end. -/
def Terminates (s : State) : Prop := Acc (fun t s => ∃ l, M.step s l = some t) s

theorem Reachable.terminates {s : State} (hs : M.Reachable s)
    (h0 : ∀ s, M.Initial s → M.Terminates s) : M.Terminates s :=
  hs.invariant h0 fun _ l _ h hstep => h.inv ⟨l, hstep⟩

/-- A machine that follows one that comes to an end comes to an end, when what it can be ahead
is bounded. -/
theorem Follows.terminates {R : State' → State → Prop} {Bad : State' → Prop}
    {weight : State → Nat} (h : Follows M N R Bad weight) (bound : State' → Nat)
    (hbound : ∀ p s, R p s → weight s ≤ bound p) {p : State'} {s : State} (hp : N.Terminates p)
    (hgood : ∀ ls q, N.run p ls = some q → ¬Bad q) (hR : R p s) : M.Terminates s := by
  refine acc_of_follows (R := fun p s => R p s ∧ ∀ ls q, N.run p ls = some q → ¬Bad q)
    (fun p s => bound p - weight s) ?_ hp ⟨hR, hgood⟩
  rintro p s t ⟨hR, hgood⟩ ⟨l, hstep⟩
  rcases h p s l t hR hstep with hbad | ⟨hRt, hw⟩ | ⟨l', q, hq, hRq, _⟩
  · exact absurd hbad (hgood [] p rfl)
  · have hle := hbound p t hRt
    exact .inr (.inr ⟨⟨hRt, hgood⟩, by omega⟩)
  · refine .inr (.inl ⟨q, ⟨l', hq⟩, hRq, fun ls q' hq' => hgood (l' :: ls) q' ?_⟩)
    rw [run_cons, hq]
    exact hq'

variable {C : State → Label → Prop} {D : State' → Label' → Prop}

/-- **A map that turns steps into steps, or into nothing, turns reachable states into
reachable states.** -/
theorem ReachableBy.map (f : State → State') (h0 : ∀ s, M.Initial s → N.Initial (f s))
    (hstep : ∀ s l t, M.ReachableBy C s → C s l → M.step s l = some t →
      f t = f s ∨ ∃ l', D (f s) l' ∧ N.step (f s) l' = some (f t))
    {s : State} (hs : M.ReachableBy C s) : N.ReachableBy D (f s) := by
  induction hs with
  | initial h => exact .initial (h0 _ h)
  | @step s t l hs hc h ih =>
    rcases hstep s l t hs hc h with heq | ⟨l', hd, hl'⟩
    · rw [heq]
      exact ih
    · exact .step ih hd hl'

end Machine
end Clpkm
