import Clpkm.Device.Launch

/-!
# The barrier protocol between device and host

`barrier_protocol` is the result about any number of launches of a barrier-uniform kernel
on work-groups of any size: nobody executes code behind a barrier before every work-item
of his group has arrived there, `UpdateHeader` never finds work-items of a group
stopped at different barriers, and it leaves every group that is not done with a
work-item that the next launch will run.

That all work-items of a group pass the same barriers is needed for the last two only.
Those that have stopped have done so at the barrier behind the level of the group, and a
work-item at the end excludes one that has stopped.
-/

namespace Clpkm
namespace Device
open UpdateHeader

variable {B : Nat} {code : Code B}

namespace Group
variable {g g' : Group B}

/-! ## During a launch -/

/-- **The level of a group** lies between the barriers that its work-items have passed and
those that they have arrived at. -/
theorem Inv.level (h : g.Inv code) : ∃ p, ∀ w ∈ g.wis, w.passed ≤ p ∧ p ≤ w.arrived := by
  cases h with
  | entry first p loaded hb hok => exact ⟨p, fun w hw => (hok w hw).ready.level⟩
  | run first p hok | mid p hok | pass p hok | tail p k hok =>
    exact ⟨p, fun w hw => (hok w hw).level⟩
  | tailDec p k hok | tailEnd p k hok => exact ⟨p, fun w hw => (hok w hw).settled.level⟩

/-! ## Between two launches -/

/-- The work-items of a group that have stopped have done so at one barrier. -/
theorem Uniform.oneBarrier (hu : g.Uniform) {p : Nat} (h : ∀ w ∈ g.wis, Settled code p w) :
    OneBarrier g.headers := by
  intro a ha b hb hna hnb
  obtain ⟨w, hw, rfl⟩ := List.mem_map.mp ha
  obtain ⟨w', hw', rfl⟩ := List.mem_map.mp hb
  obtain ⟨j, hj, hh, _⟩ := (h w hw).stopped_of_neg hna
  obtain ⟨j', hj', hh', _⟩ := (h w' hw').stopped_of_neg hnb
  rw [hu w hw w' hw', hj'] at hj
  cases hj
  exact hh.trans hh'.symm

/-- **A group that is not done can go on.** -/
theorem Uniform.exists_pos (hu : g.Uniform) {p : Nat} (h : ∀ w ∈ g.wis, Settled code p w)
    (hne : ∃ x ∈ released g.headers, x ≠ 0) : ∃ x ∈ released g.headers, 0 < x := by
  obtain ⟨x, hx, hx0⟩ := hne
  unfold released at hx ⊢
  by_cases hall : ∀ x ∈ g.headers, x < 0
  · rw [if_pos hall] at hx ⊢
    obtain ⟨y, hy, rfl⟩ := List.mem_map.mp hx
    have := hall y hy
    exact ⟨-y, hx, by omega⟩
  · rw [if_neg hall] at hx ⊢
    by_cases hpos : ∃ x ∈ g.headers, 0 < x
    · exact hpos
    -- one work-item has stopped at a barrier and another is at the end
    exfalso
    have hnp : ∀ x ∈ g.headers, x ≤ 0 := fun x hx => by
      by_contra hlt
      exact hpos ⟨x, hx, by omega⟩
    obtain ⟨w, hw, rfl⟩ := List.mem_map.mp hx
    have hwle := hnp _ hx
    obtain ⟨j, hj, _⟩ := (h w hw).stopped_of_neg (by omega)
    refine hall fun y hy => ?_
    obtain ⟨w', hw', rfl⟩ := List.mem_map.mp hy
    have hle := hnp _ hy
    cases h w' hw' with
    | suspended hc ha hp =>
      have := code.two_le _ _ hc
      omega
    | @stopped j' hj' hh ha hp =>
      have := code.two_le_nonce j'
      omega
    | finished hs hh ha hp =>
      rw [hu w hw w' hw', hs] at hj
      cases hj

theorem Uniform.of_sites (h : g.Uniform) (he : g'.wis.map Wi.sites = g.wis.map Wi.sites) :
    g'.Uniform := by
  have hmem : ∀ w ∈ g'.wis, ∃ w₀ ∈ g.wis, w₀.sites = w.sites := fun w hw =>
    List.mem_map.mp (he ▸ List.mem_map_of_mem hw)
  intro w hw w' hw'
  obtain ⟨w₀, hw₀, h₀⟩ := hmem w hw
  obtain ⟨w₁, hw₁, h₁⟩ := hmem w' hw'
  rw [← h₀, ← h₁]
  exact h w₀ hw₀ w₁ hw₁

end Group

/-! ## All launches -/

variable {n : Nat} {s t : State B}

/-- What holds of a barrier-uniform kernel besides. -/
structure State.UniformInv (code : Code B) (n : Nat) (s : State B) : Prop extends
    s.Inv code n where
  uniform : ∀ g ∈ s.groups, g.Uniform
  notAborted : s.aborted = false

/-- All headers are 0 after a launch, or the next launch of every group begins. -/
theorem State.UniformInv.resumeOrFinish (h : s.UniformInv code n)
    (he : ∀ g ∈ s.groups, g.ended = true) (junk : Nat → Shared B) :
    (Device.resumeOrFinish n s junk = { s with finished := true } ∧
        ∀ g ∈ s.groups, ∀ x ∈ g.headers, x = 0) ∨
      ∃ gs, Device.resumeOrFinish n s junk = { s with groups := gs } ∧
        ∀ g' ∈ gs, ∃ g ∈ s.groups, ∃ i, g' = g.relaunch (released g.headers) (junk i) := by
  apply (h.toInv.resumeOrFinish junk).resolve_left
  rintro ⟨_, g, hg, hne⟩
  obtain ⟨hlen, hi⟩ := h.groups g hg
  obtain ⟨p, hset⟩ := hi.settled (hlen ▸ h.pos) (he g hg)
  exact hne ((h.uniform g hg).oneBarrier hset)

theorem State.UniformInv.step (h : s.UniformInv code n) {l : Label B}
    (hs : (machine code n).step s l = some t) : t.UniformInv code n := by
  refine ⟨h.toInv.step hs, ?_, ?_⟩
  all_goals
    rcases machine_step hs with ⟨i, l', g, g', _, hg, hg', rfl⟩ | ⟨junk, _, he, rfl⟩
  · have hu := h.uniform g (List.mem_of_getElem? hg)
    exact Table.forall_mem_set h.uniform i (hu.of_sites (Group.sites_step hg'))
  · rcases h.resumeOrFinish he junk with ⟨heq, _⟩ | ⟨gs, heq, hgs⟩
    · rw [heq]
      exact h.uniform
    · rw [heq]
      intro g' hg'
      obtain ⟨g, hg, i, rfl⟩ := hgs g' hg'
      exact (h.uniform g hg).of_sites (Group.sites_relaunch _)
  · exact h.notAborted
  · rcases h.resumeOrFinish he junk with ⟨heq, _⟩ | ⟨gs, heq, _⟩ <;> rw [heq] <;>
      exact h.notAborted

theorem uniformInv_of_reachable (hs : (uniform code n).Reachable s) : s.UniformInv code n := by
  refine hs.invariant (fun s h0 => ?_) fun _ _ _ hi h => hi.step h
  exact ⟨.initial h0.1, h0.2, h0.1.2.2.1⟩

/-- **The barrier protocol.**  In every state that a barrier-uniform kernel and the host can
reach, a work-item has passed no more barriers than every work-item of its group has
arrived at, and no assertion of `UpdateHeader` has failed.  After `UpdateHeader` a group
of which some header is not 0 has a positive header. -/
theorem barrier_protocol (hs : (uniform code n).Reachable s) :
    (∀ g ∈ s.groups, ∀ w ∈ g.wis, ∀ w' ∈ g.wis, w.passed ≤ w'.arrived) ∧ s.aborted = false ∧
      ∀ junk t, (uniform code n).step s (.host junk) = some t →
        ∀ g ∈ t.groups, (∃ w ∈ g.wis, w.hdr ≠ 0) → ∃ w ∈ g.wis, 0 < w.hdr := by
  have hi := uniformInv_of_reachable hs
  refine ⟨fun g hg w hw w' hw' => ?_, hi.notAborted, fun junk t ht g hg hne => ?_⟩
  · obtain ⟨p, hp⟩ := (hi.groups g hg).2.level
    exact (hp w hw).1.trans (hp w' hw').2
  · change (machine code n).step s (.host junk) = some t at ht
    rcases machine_step ht with ⟨_, _, _, _, hl, _⟩ | ⟨_, _, he, rfl⟩
    · cases hl
    obtain ⟨w, hw, hw0⟩ := hne
    rcases hi.resumeOrFinish he _ with ⟨heq, hz⟩ | ⟨gs, heq, hgs⟩
    · rw [heq] at hg
      exact (hw0 (hz g hg _ (List.mem_map_of_mem hw))).elim
    · rw [heq] at hg
      obtain ⟨g₀, hg₀, i, rfl⟩ := hgs g hg
      obtain ⟨hlen, hi₀⟩ := hi.groups g₀ hg₀
      obtain ⟨p, hset⟩ := hi₀.settled (hlen ▸ hi.pos) (he g₀ hg₀)
      have hmem := List.mem_map_of_mem (f := Wi.hdr) hw
      change w.hdr ∈ (g₀.relaunch (released g₀.headers) _).headers at hmem
      rw [Group.headers_relaunch] at hmem
      obtain ⟨x, hx, hpos⟩ := (hi.uniform g₀ hg₀).exists_pos hset ⟨_, hmem, hw0⟩
      rw [← Group.headers_relaunch] at hx
      obtain ⟨w', hw', rfl⟩ := List.mem_map.mp hx
      exact ⟨w', hw', hpos⟩

namespace LoopBarrier

/-- Arrive at the barrier, find that somebody is missing, and leave. -/
def stop (i : Nat) : List GroupLabel :=
  [.wi i .arrive, .release, .wi i .advance, .release, .wi i .advance, .wi i .advance]

/-- Work-item 0 is suspended in the loop while work-item 1 stops at the barrier. -/
def launch₁ : List GroupLabel :=
  both ++ .release :: both ++ .wi 0 (.suspend 2) :: .wi 0 .advance :: stop 1

/-- Work-item 0 arrives at the barrier, too. -/
def launch₂ : List GroupLabel := both ++ .release :: both ++ .wi 1 .advance :: stop 0

def stopped : State 1 :=
  ((uniform (kernel []) 2).run start (launch₁.map (.device 0) ++ .host (fun _ => junk) ::
    launch₂.map (.device 0))).get (by decide)

/-- Both go on behind the barrier. -/
theorem barrier_protocol_stopped :
    (∀ g ∈ stopped.groups, ∀ w ∈ g.wis, ∀ w' ∈ g.wis, w.passed ≤ w'.arrived) ∧
      stopped.aborted = false ∧ stopped.groups.map Group.headers = [[-3, -3]] ∧
      (resumeOrFinish 2 stopped fun _ => junk).groups.map Group.headers = [[3, 3]] ∧
      ∀ g ∈ (resumeOrFinish 2 stopped fun _ => junk).groups,
        (∃ w ∈ g.wis, w.hdr ≠ 0) → ∃ w ∈ g.wis, 0 < w.hdr := by
  have hs : (uniform (kernel []) 2).Reachable stopped :=
    Machine.reachable_of_run (initial_start []) (Option.some_get _).symm
  obtain ⟨hlevel, hok, hnext⟩ := barrier_protocol hs
  exact ⟨hlevel, hok, by decide, by decide, hnext _ _ rfl⟩

end LoopBarrier
end Device
end Clpkm
