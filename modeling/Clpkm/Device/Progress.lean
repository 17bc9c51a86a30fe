import Clpkm.Device.Protocol
import Mathlib.Algebra.Order.BigOperators.Group.List
import Mathlib.Algebra.BigOperators.Ring.List

/-!
# Launches come to an end

A work-item that stops at a barrier keeps the others from going on, and the work-items of a
group wait for one another at six places of the code that the compiler adds.  Still nobody
waits for ever.  In a barrier-uniform kernel that passes at most `M` barriers somebody can
always move until the host has found that all headers are 0, and then every work-item is at
the end of the kernel.

Every launch but the last brings some work-item to a barrier, behind one or to the end, or
it has a work-item suspended in a loop (`State.debt`).  So the number of launches exceeds that
of the suspensions by at most what there is to do, and within a launch the work-items only
move forward (`Wi.rank`).  What the kernel's author wrote counts as one step at any barrier,
suspension or end; its writes to local memory are not counted.
-/

namespace Clpkm
namespace Device
open Locfefe UpdateHeader

variable {B : Nat} {code : Code B} {n M : Nat}

/-! ## What is left to do -/

namespace Pc

/-- How far the work-item is from leaving the launch. -/
def rank : Pc B → Nat
  | init => 11
  | reload => 10
  | entryBarrier => 9
  | entry => 8
  | run => 7
  | stop1 _ => 10
  | readRemain _ => 9
  | stop2 _ _ => 8
  | atomicInc _ _ => 7
  | orig _ => 6
  | exit => 6
  | exit1 _ => 5
  | exitDec _ => 4
  | exit2 _ _ => 3
  | exitTest _ _ => 2
  | store _ _ => 1
  | returned _ _ => 0

/-- Before the switch on the header. -/
def early : Pc B → Bool
  | init | reload | entryBarrier | entry => true
  | _ => false

/-- In the code of the kernel's author, or at a barrier in it. -/
def inside : Pc B → Bool
  | run | stop1 _ | readRemain _ | stop2 _ _ | atomicInc _ _ | orig _ => true
  | _ => false

end Pc

namespace Wi

/-- The barriers, of `M`, to arrive at and to pass, and the end of the kernel. -/
def left (M : Nat) (w : Wi B) : Nat :=
  (M - w.arrived) + (M - w.passed) + if w.hdr = 0 then 0 else 1

/-- A barrier is worth more than the steps of the code around it. -/
def rank (M : Nat) (w : Wi B) : Nat := 4 * w.left M + w.pc.rank

/-- The work-item runs code of the kernel's author, or is going to in this launch. -/
def active (w : Wi B) : Bool := w.pc = .run || (w.pc.early && decide (0 < w.hdr))

/-- At most `M` barriers, and a header that has led into the kernel. -/
structure Sound (M : Nat) (w : Wi B) : Prop where
  sites : ∀ k, M ≤ k → w.sites k = none
  hdr : w.pc.inside = true → 0 < w.hdr

/-- What the phases say of a work-item where it can make progress. -/
structure Placed (code : Code B) (w : Wi B) : Prop where
  entry : w.pc = .entry → ∃ first p, Ready code first p w
  run : w.pc = .run → w.arrived = w.passed
  orig : ∀ j, w.pc = .orig j → w.sites w.passed = some j

end Wi

/-- The code of the kernel's author writes local memory. -/
def Act.isWrite : Act → Bool
  | .write _ _ _ => true
  | _ => false

def Act.isSuspend : Act → Bool
  | .suspend _ => true
  | _ => false

def GroupLabel.isWrite : GroupLabel → Bool
  | .wi _ a => a.isWrite
  | _ => false

def GroupLabel.isSuspend : GroupLabel → Bool
  | .wi _ a => a.isSuspend
  | _ => false

def Label.isWrite : Label B → Bool
  | .device _ l => l.isWrite
  | .host _ => false

def Label.isSuspend : Label B → Bool
  | .device _ l => l.isSuspend
  | .host _ => false

def Label.isHost : Label B → Bool
  | .device _ _ => false
  | .host _ => true

/-! ## Steps of a work-item -/

namespace Wi
variable {i : Nat} {sh sh' : Shared B} {w w' : Wi B} {a : Act}

theorem left_congr (hh : w'.hdr = 0 ↔ w.hdr = 0) (ha : w'.arrived = w.arrived)
    (hp : w'.passed = w.passed) : w'.left M = w.left M := by
  simp only [left, hh, ha, hp]

theorem left_of_ne (h : w.hdr ≠ 0) : w.left M = (M - w.arrived) + (M - w.passed) + 1 := by
  rw [left, if_neg h]

/-- A barrier that is still to come. -/
theorem Sound.passed_lt (h : w.Sound M) {j : Fin B} (hj : w.sites w.passed = some j) :
    w.passed < M := by
  by_contra hle
  rw [h.sites _ (Nat.not_lt.mp hle)] at hj
  cases hj

/-- A positive header leads into the kernel. -/
theorem enter_of_pos {first : Bool} {p : Nat} (h : Ready code first p w) (hpos : 0 < w.hdr) :
    (w.enter code).pc = .run := by
  unfold enter
  by_cases h1 : w.hdr = 1
  · rw [if_pos h1]
  · rw [if_neg h1]
    cases hc : code.case w.hdr with
    | some c => cases c <;> rfl
    | none =>
      exfalso
      cases h with
      | fresh hh => exact h1 hh
      | settled h =>
        cases h with
        | suspended hl =>
          rw [hc] at hl
          cases hl
        | @stopped j hj hh =>
          have := code.two_le_nonce j
          omega
        | finished hs hh => omega
      | @passing p w j hj hh =>
        rw [hh, code.case_nonce j] at hc
        cases hc

/-- The switch on the header. -/
theorem enter_progress (h : w.Sound M) (hpc : w.pc = .entry) (hp : w.Placed code) :
    (w.enter code).Sound M ∧ (w.enter code).left M ≤ w.left M ∧
      (w.enter code).rank M < w.rank M ∧ (w.active = true → (w.enter code).active = true) := by
  have hactive : w.active = true → (w.enter code).active = true := by
    intro ha
    obtain ⟨first, p, hr⟩ := hp.entry hpc
    have hpos : 0 < w.hdr := by simpa [active, hpc, Pc.early] using ha
    simp [active, enter_of_pos hr hpos]
  refine ⟨⟨fun k hk => by rw [sites_enter]; exact h.sites k hk, ?_⟩, ?_, ?_, hactive⟩
  all_goals
    unfold enter
    by_cases h1 : w.hdr = 1
    · simp [h1, left, rank, Pc.rank, hpc]
    · rw [if_neg h1]
      cases hc : code.case w.hdr with
      | none => simp [left, rank, Pc.rank, Pc.inside, hpc]
      | some c =>
        have htwo := code.two_le _ _ hc
        cases c <;> simp only [left, rank, Pc.rank, hpc] <;> omega

/-- **A step of a work-item makes progress**, and a work-item that is active stays so unless
less is left to do or it is suspended. -/
theorem step_progress (h : w.step code n i sh a = some (w', sh')) (hs : w.Sound M)
    (hp : w.Placed code) :
    w'.Sound M ∧ w'.left M ≤ w.left M ∧
      (if a.isWrite then w'.rank M = w.rank M else w'.rank M < w.rank M) ∧
      (w.active = true → w'.active = true ∨ w'.left M < w.left M ∨ a.isSuspend = true) := by
  cases a with
  | write k x b =>
    simp only [step, Option.ite_none_right_eq_some, Option.some.injEq, Prod.mk.injEq] at h
    obtain ⟨_, rfl, _⟩ := h
    exact ⟨hs, Nat.le_refl _, rfl, Or.inl⟩
  | suspend nonce =>
    simp only [step, Option.ite_none_right_eq_some, Option.some.injEq, Prod.mk.injEq] at h
    obtain ⟨⟨hpc, hc⟩, rfl, _⟩ := h
    have htwo := code.two_le _ _ hc
    have hpos := hs.hdr (by rw [hpc]; rfl)
    have hleft : left M { w with hdr := nonce, pc := .exit } = w.left M :=
      left_congr (by simp only; omega) rfl rfl
    refine ⟨⟨hs.sites, fun hin => by cases hin⟩, Nat.le_of_eq hleft, ?_,
      fun _ => Or.inr (Or.inr rfl)⟩
    simp only [Act.isWrite, rank, hleft, Pc.rank, hpc, Bool.false_eq_true, if_false]
    omega
  | arrive =>
    simp only [step, Option.ite_none_right_eq_some, Option.map_eq_some_iff, Prod.mk.injEq] at h
    obtain ⟨hpc, j, hj, rfl, _⟩ := h
    have hlt := hs.passed_lt hj
    have harr := hp.run hpc
    refine ⟨⟨hs.sites, fun _ => hs.hdr (by rw [hpc]; rfl)⟩, ?_, ?_, fun _ => Or.inr (Or.inl ?_)⟩
    · simp only [left]
      omega
    · simp only [Act.isWrite, left, rank, Pc.rank, hpc, Bool.false_eq_true, if_false]
      omega
    · simp only [left]
      omega
  | finish =>
    simp only [step, Option.ite_none_right_eq_some, Option.some.injEq, Prod.mk.injEq] at h
    obtain ⟨⟨hpc, _⟩, rfl, _⟩ := h
    have hpos := hs.hdr (by rw [hpc]; rfl)
    have hleft : left M { w with hdr := 0, pc := .exit } + 1 = w.left M := by
      rw [left_of_ne (w := w) (by omega)]
      rfl
    refine ⟨⟨hs.sites, fun hin => by cases hin⟩, by omega, ?_, fun _ => Or.inr (Or.inl ?_)⟩
    · simp only [Act.isWrite, rank, Pc.rank, hpc, Bool.false_eq_true, if_false]
      omega
    · omega
  | advance =>
    have hrun : w.pc ≠ .run := by
      intro hpc
      simp only [step, advance, hpc] at h
      cases h
    simp only [Act.isWrite, Bool.false_eq_true, if_false]
    cases advance_cases h with
    | enter hpc =>
      obtain ⟨hsound, hleft, hrank, hactive⟩ := enter_progress hs hpc hp
      exact ⟨hsound, hleft, hrank, fun ha => Or.inl (hactive ha)⟩
    | initReload hpc | initWait hpc | initEntry hpc =>
      refine ⟨⟨hs.sites, fun hin => by cases hin⟩, Nat.le_refl _, ?_, fun ha => Or.inl ?_⟩
      · simp [rank, left, Pc.rank, hpc]
      · simpa [active, Pc.early, hpc] using ha
    | readRemain hpc | pass hpc =>
      refine ⟨⟨hs.sites, fun _ => hs.hdr (by rw [hpc]; rfl)⟩, Nat.le_refl _, ?_, fun ha => ?_⟩
      · simp [rank, left, Pc.rank, hpc]
      · simp [active, Pc.early, hpc] at ha
    | @leave j remain hpc hr =>
      have htwo := code.two_le_nonce j
      have hpos := hs.hdr (by rw [hpc]; rfl)
      have hleft : left M ⟨-code.nonce j, .exit, w.arrived, w.passed, w.sites⟩ = w.left M :=
        left_congr (by simp only; omega) rfl rfl
      refine ⟨⟨hs.sites, fun hin => by cases hin⟩, Nat.le_of_eq hleft, ?_, fun ha => ?_⟩
      · simp only [rank, hleft, Pc.rank, hpc]
        omega
      · simp [active, Pc.early, hpc] at ha
    | exitLocal hpc | exitPlain hpc | exitDec hpc | exitReturn hpc | exitStore hpc | store hpc =>
      refine ⟨⟨hs.sites, fun hin => by cases hin⟩, Nat.le_refl _, ?_, fun ha => ?_⟩
      · simp [rank, left, Pc.rank, hpc]
      · simp [active, Pc.early, hpc] at ha
    | write hpc | suspend hpc | arrive hpc | finish hpc => exact absurd hpc hrun

/-- The code that the compiler has added goes on unless it waits. -/
theorem exists_advance (hb : ¬w.AtBarrier) (hrun : w.pc ≠ .run) (hreload : w.pc ≠ .reload) :
    ∃ r, w.advance code n i sh = some r := by
  cases hpc : w.pc with
  | entryBarrier | stop1 _ | stop2 _ _ | orig _ | exit1 _ | exit2 _ _ | returned _ _ =>
    refine absurd ?_ hb
    simp [AtBarrier, hpc, Pc.waiting, Pc.isReturned]
  | run => exact absurd hpc hrun
  | reload => exact absurd hpc hreload
  | entry | readRemain _ | exitDec _ | store _ _ =>
    simp only [advance, hpc]
    exact ⟨_, rfl⟩
  | atomicInc _ _ | exit | exitTest _ _ =>
    simp only [advance, hpc]
    split <;> exact ⟨_, rfl⟩
  | init =>
    simp only [advance, hpc]
    split
    · exact ⟨_, rfl⟩
    · split <;> exact ⟨_, rfl⟩

/-- The end of waiting at a barrier. -/
theorem release_progress (hs : w.Sound M) (hp : w.Placed code) (hb : w.AtBarrier) :
    w.release.Sound M ∧ w.release.left M ≤ w.left M ∧ w.release.rank M ≤ w.rank M ∧
      (w.pc.waiting = true → w.release.rank M < w.rank M) ∧
      (w.active = true → w.release.active = true) := by
  cases hpc : w.pc with
  | orig j =>
    have hlt := hs.passed_lt (hp.orig j hpc)
    rw [release_orig hpc]
    refine ⟨⟨hs.sites, fun _ => hs.hdr (by rw [hpc]; rfl)⟩, ?_, ?_, fun _ => ?_, fun _ => ?_⟩
    · simp only [left]
      omega
    · simp only [left, rank, Pc.rank, hpc]
      omega
    · simp only [left, rank, Pc.rank, hpc]
      omega
    · simp [active]
  | entryBarrier =>
    rw [release_eq hpc (fun j hj => by cases hj)]
    refine ⟨⟨hs.sites, fun h => by cases h⟩, Nat.le_refl _, ?_, fun _ => ?_, fun ha => ?_⟩
    · simp [rank, left, Pc.rank, Pc.afterBarrier, hpc]
    · simp [rank, left, Pc.rank, Pc.afterBarrier, hpc]
    · simpa [active, Pc.early, Pc.afterBarrier, hpc] using ha
  | stop1 _ | stop2 _ _ =>
    rw [release_eq hpc (fun j hj => by cases hj)]
    refine ⟨⟨hs.sites, fun _ => hs.hdr (by rw [hpc]; rfl)⟩, Nat.le_refl _, ?_, fun _ => ?_,
      fun ha => ?_⟩
    · simp [rank, left, Pc.rank, Pc.afterBarrier, hpc]
    · simp [rank, left, Pc.rank, Pc.afterBarrier, hpc]
    · simp [active, Pc.early, hpc] at ha
  | exit1 _ | exit2 _ _ =>
    rw [release_eq hpc (fun j hj => by cases hj)]
    refine ⟨⟨hs.sites, fun h => by cases h⟩, Nat.le_refl _, ?_, fun _ => ?_, fun ha => ?_⟩
    · simp [rank, left, Pc.rank, Pc.afterBarrier, hpc]
    · simp [rank, left, Pc.rank, Pc.afterBarrier, hpc]
    · simp [active, Pc.early, hpc] at ha
  | returned _ _ =>
    rw [release_eq hpc (fun j hj => by cases hj)]
    refine ⟨⟨hs.sites, fun h => by cases h⟩, Nat.le_refl _, ?_, fun hw => (by cases hw),
      fun ha => ?_⟩
    · simp [rank, left, Pc.rank, Pc.afterBarrier, hpc]
    · simp [active, Pc.early, hpc] at ha
  | init | reload | entry | run | readRemain _ | atomicInc _ _ | exit | exitDec _ | exitTest _ _
  | store _ _ =>
    rcases hb with hb | hb <;> rw [hpc] at hb <;> cases hb

end Wi

/-! ## Steps of a group -/

namespace Group
variable {g g' : Group B}

/-- What is left to do for all work-items. -/
def left (M : Nat) (g : Group B) : Nat := (g.wis.map (Wi.left M)).sum

def rank (M : Nat) (g : Group B) : Nat := (g.wis.map (Wi.rank M)).sum

def active (g : Group B) : Bool := g.wis.any Wi.active

/-- **Where the phases say a work-item is.** -/
theorem Inv.placed (h : g.Inv code) {w : Wi B} (hw : w ∈ g.wis) : w.Placed code := by
  cases h with
  | entry first p loaded hb hok =>
    have hokw := hok w hw
    refine ⟨fun hpc => ?_, fun hpc => ?_, fun j hpc => ?_⟩ <;>
      simp only [EntryOk, hpc] at hokw
  | run first p hok =>
    have hokw := hok w hw
    refine ⟨fun hpc => ?_, fun hpc => ?_, fun j hpc => ?_⟩ <;>
      simp only [RunOk, hpc] at hokw
    · exact ⟨first, p, hokw⟩
    · exact hokw.1.trans hokw.2.symm
  | pass p hok =>
    have hokw := hok w hw
    refine ⟨fun hpc => ?_, fun hpc => ?_, fun j hpc => ?_⟩ <;>
      simp only [PassOk, hpc] at hokw
    rw [hokw.2.2]
    exact hokw.1
  | mid p hok | tail p k hok | tailDec p k hok | tailEnd p k hok =>
    have hokw := hok w hw
    refine ⟨fun hpc => ?_, fun hpc => ?_, fun j hpc => ?_⟩ <;>
      simp only [MidOk, TailOk, TailDecOk, TailEndOk, hpc] at hokw

/-- What a change of all work-items does to the sums. -/
theorem map_progress {f : Wi B → Wi B} (sh : Shared B) (held : Nat → Bytes)
    (hleft : ∀ w ∈ g.wis, (f w).left M ≤ w.left M)
    (hrank : ∀ w ∈ g.wis, (f w).rank M ≤ w.rank M)
    (hlt : ∃ w ∈ g.wis, (f w).rank M < w.rank M)
    (hactive : ∀ w ∈ g.wis, w.active = true → (f w).active = true) :
    left M ⟨g.wis.map f, sh, held⟩ ≤ g.left M ∧ rank M ⟨g.wis.map f, sh, held⟩ < g.rank M ∧
      (g.active = true → active ⟨g.wis.map f, sh, held⟩ = true) := by
  refine ⟨?_, ?_, fun ha => ?_⟩
  · simp only [left, List.map_map]
    exact List.sum_le_sum hleft
  · simp only [rank, List.map_map]
    exact List.sum_lt_sum _ _ hrank hlt
  · obtain ⟨w, hw, haw⟩ := List.any_eq_true.mp ha
    exact List.any_eq_true.mpr ⟨f w, List.mem_map_of_mem hw, hactive w hw haw⟩

/-- **A step of a group makes progress.** -/
theorem step_progress {l : GroupLabel} (h : g.Inv code) (hpos : 0 < g.wis.length)
    (hs : ∀ w ∈ g.wis, w.Sound M) (hstep : g.step code l = some g') :
    (∀ w ∈ g'.wis, w.Sound M) ∧ g'.left M ≤ g.left M ∧
      (if l.isWrite then g'.rank M = g.rank M else g'.rank M < g.rank M) ∧
      (g.active = true → g'.active = true ∨ g'.left M < g.left M ∨ l.isSuspend = true) := by
  cases l with
  | wi i a =>
    simp only [step, Option.bind_eq_bind, Option.bind_eq_some_iff, Option.pure_def,
      Option.some_inj] at hstep
    obtain ⟨w, hw, ⟨w', sh⟩, hwi, rfl⟩ := hstep
    have hmem := List.mem_of_getElem? hw
    obtain ⟨hsound, hleft, hrank, hactive⟩ := Wi.step_progress hwi (hs w hmem) (h.placed hmem)
    have hsumLeft := Table.sum_map_set (Wi.left M) hw w'
    have hsumRank := Table.sum_map_set (Wi.rank M) hw w'
    refine ⟨Table.forall_mem_set hs i hsound, ?_, ?_, fun ha => ?_⟩
    · simp only [left]
      omega
    · by_cases hwr : a.isWrite = true
      · rw [if_pos hwr] at hrank
        simp only [GroupLabel.isWrite, hwr, if_true, rank]
        omega
      · rw [if_neg hwr] at hrank
        simp only [GroupLabel.isWrite, hwr, Bool.false_eq_true, if_false, rank]
        omega
    · refine Table.any_set hw ha fun hwa => (hactive hwa).imp id ?_
      rintro (hlt | hsus)
      · refine Or.inl ?_
        simp only [left]
        omega
      · exact Or.inr hsus
  | copy =>
    obtain ⟨hall, rfl⟩ := step_copy hstep
    have h0 : g.wis[0] ∈ g.wis := List.getElem_mem hpos
    have hmap := map_progress (M := M) (g := g)
      (f := fun w => ⟨w.hdr, .entryBarrier, w.arrived, w.passed, w.sites⟩)
      ⟨g.shared.stop, g.shared.finalStop, reloadAll code.bufs g.shared.lvb g.shared.loc,
        g.shared.lvb⟩ g.held (fun w _ => Nat.le_refl _) (fun w hw => ?_) ⟨_, h0, ?_⟩
      (fun w hw ha => ?_)
    · refine ⟨List.forall_mem_map.mpr fun w hw => ⟨(hs w hw).sites, fun hin => by cases hin⟩,
        hmap.1, hmap.2.1, fun ha => Or.inl (hmap.2.2 ha)⟩
    · simp [Wi.rank, Wi.left, Pc.rank, hall w hw]
    · simp [Wi.rank, Wi.left, Pc.rank, hall _ h0]
    · simpa [Wi.active, Pc.early, hall w hw] using ha
  | release =>
    obtain ⟨hat, ⟨v, hv, hwait⟩, rfl⟩ := step_release hstep
    have hrel := fun w hw => Wi.release_progress (hs w hw) (h.placed hw) (hat w hw)
    obtain ⟨hleft, hrank, hactive⟩ := map_progress (M := M) (g := g) (f := Wi.release)
      g.shared g.held (fun w hw => (hrel w hw).2.1)
      (fun w hw => (hrel w hw).2.2.1) ⟨v, hv, (hrel v hv).2.2.2.1 hwait⟩
      (fun w hw => (hrel w hw).2.2.2.2)
    exact ⟨List.forall_mem_map.mpr fun w hw => (hrel w hw).1, hleft, hrank,
      fun ha => Or.inl (hactive ha)⟩

/-- **A group that has not left the launch can move**, without a suspension or a write. -/
theorem Inv.enabled (h : g.Inv code) (hne : g.ended = false) :
    ∃ l g', l.isWrite = false ∧ l.isSuspend = false ∧ g.step code l = some g' := by
  by_cases hat : ∀ w ∈ g.wis, w.AtBarrier
  · -- somebody waits at a barrier, and everybody does
    obtain ⟨v, hv, hvr⟩ := List.all_eq_false.mp hne
    have hwait := (hat v hv).resolve_right hvr
    have hall : g.wis.all (fun w => w.pc.waiting || w.pc.isReturned) ∧
        g.wis.any (·.pc.waiting) := by
      refine ⟨List.all_eq_true.mpr fun w hw => ?_, List.any_eq_true.mpr ⟨v, hv, hwait⟩⟩
      rw [Bool.or_eq_true]
      exact hat w hw
    exact ⟨.release, _, rfl, rfl, by rw [Group.step, if_pos hall]⟩
  · simp only [not_forall] at hat
    obtain ⟨w, hw, hnot⟩ := hat
    have hwi : ∀ v ∈ g.wis, ∀ {a : Act}, a.isWrite = false → a.isSuspend = false →
        (∃ i, g.wis[i]? = some v ∧ ∃ r, v.step code g.wis.length i g.shared a = some r) →
        ∃ l g', l.isWrite = false ∧ l.isSuspend = false ∧ g.step code l = some g' := by
      rintro v _ a hwr hsu ⟨i, hi, r, hr⟩
      refine ⟨.wi i a, { g with wis := g.wis.set i r.1, shared := r.2 }, hwr, hsu, ?_⟩
      simp only [Group.step, hi, Option.bind_eq_bind, Option.bind_some, hr, Option.pure_def]
    have hget : ∀ v ∈ g.wis, ∃ i, g.wis[i]? = some v := fun v hv => List.mem_iff_getElem?.mp hv
    obtain ⟨i, hi⟩ := hget w hw
    by_cases hrun : w.pc = .run
    · cases hsite : w.sites w.passed with
      | some j =>
        refine hwi w hw (a := .arrive) rfl rfl ⟨i, hi, ?_⟩
        rw [Wi.step, if_pos hrun, hsite]
        exact ⟨_, rfl⟩
      | none =>
        refine hwi w hw (a := .finish) rfl rfl ⟨i, hi, ?_⟩
        rw [Wi.step, if_pos ⟨hrun, hsite⟩]
        exact ⟨_, rfl⟩
    by_cases hreload : w.pc = .reload
    · -- the copies are complete once all work-items have reached them
      obtain ⟨p, hok, _⟩ := h.reload hw hreload
      by_cases hall : ∀ v ∈ g.wis, v.pc = .reload
      · have hall' : g.wis.all (·.pc = .reload) = true :=
          List.all_eq_true.mpr fun v hv => decide_eq_true (hall v hv)
        exact ⟨.copy, _, rfl, rfl, by rw [Group.step, if_pos hall']⟩
      · simp only [not_forall] at hall
        obtain ⟨v, hv, hne'⟩ := hall
        have hinit : v.pc = .init := by
          have hokv := hok v hv
          have hokw := hok w hw
          rw [EntryOk, hreload] at hokw
          unfold EntryOk at hokv
          cases hpc : v.pc with
          | init => rfl
          | reload => exact absurd hpc hne'
          | entryBarrier =>
            rw [hpc] at hokv
            simp [hokw.2.1] at hokv
          | _ =>
            rw [hpc] at hokv
            exact hokv.elim
        obtain ⟨k, hk⟩ := hget v hv
        refine hwi v hv (a := .advance) rfl rfl ⟨k, hk, Wi.exists_advance ?_ ?_ ?_⟩ <;>
          simp [Wi.AtBarrier, hinit, Pc.waiting, Pc.isReturned]
    · exact hwi w hw (a := .advance) rfl rfl ⟨i, hi, Wi.exists_advance hnot hrun hreload⟩

end Group

/-! ## The next launch -/

namespace Group
variable {g g' : Group B}

/-- `UpdateHeader` leaves the headers that are 0, and only those, at 0. -/
theorem exists_header (g : Group B) :
    ∃ f : Wi B → Int, released g.headers = g.wis.map f ∧ ∀ w, f w = 0 ↔ w.hdr = 0 := by
  unfold released headers
  by_cases hall : ∀ x ∈ g.wis.map Wi.hdr, x < 0
  · exact ⟨fun w => -w.hdr, (if_pos hall).trans (List.map_map ..), fun w => Int.neg_eq_zero⟩
  · exact ⟨Wi.hdr, if_neg hall, fun w => Iff.rfl⟩

theorem exists_ne_zero (g : Group B) (h : ∃ x ∈ g.headers, x ≠ 0) :
    ∃ x ∈ released g.headers, x ≠ 0 := by
  obtain ⟨f, hf, hzero⟩ := g.exists_header
  obtain ⟨x, hx, hx0⟩ := h
  obtain ⟨w, hw, rfl⟩ := List.mem_map.mp hx
  exact ⟨f w, hf ▸ List.mem_map_of_mem hw, fun h0 => hx0 ((hzero w).mp h0)⟩

/-- A group that has left a launch starts the next one with as much left to do. -/
theorem relaunch_progress (he : g.ended = true) (hs : ∀ w ∈ g.wis, w.Sound M) (junk : Shared B) :
    (∀ w ∈ (g.relaunch (released g.headers) junk).wis, w.Sound M) ∧
      (g.relaunch (released g.headers) junk).left M = g.left M ∧
      (g.relaunch (released g.headers) junk).rank M = g.rank M + 11 * g.wis.length := by
  obtain ⟨f, hf, hzero⟩ := g.exists_header
  have hwis := wis_relaunch f hf junk
  have hleft : ∀ w : Wi B, Wi.left M ⟨f w, .init, w.arrived, w.passed, w.sites⟩ = w.left M :=
    fun w => Wi.left_congr (hzero w) rfl rfl
  refine ⟨?_, ?_, ?_⟩
  · rw [hwis]
    exact List.forall_mem_map.mpr fun w hw => ⟨(hs w hw).sites, fun hin => by cases hin⟩
  · rw [left, hwis, List.map_map]
    exact congrArg List.sum (List.map_congr_left fun w _ => hleft w)
  · have hrank : ∀ w ∈ g.wis, Wi.rank M ⟨f w, .init, w.arrived, w.passed, w.sites⟩ =
        w.rank M + 11 := by
      intro w hw
      obtain ⟨e, stored, hpc⟩ := returned_of_ended he hw
      rw [Wi.rank, Wi.rank, hleft, hpc]
      rfl
    rw [rank, hwis, List.map_map, rank]
    have hsum := congrArg List.sum (List.map_congr_left hrank)
    rw [List.sum_map_add, List.map_const', List.sum_replicate_nat, Nat.mul_comm] at hsum
    exact hsum

end Group

/-- Group by group, the next launch. -/
theorem forall₂_relaunchAll (f : Group B → List Int) (gs : List (Group B))
    (hf : ∀ g ∈ gs, (f g).length = g.wis.length) (junk : Nat → Shared B) :
    List.Forall₂ (fun g g' => ∃ sh, g' = g.relaunch (f g) sh) gs
      (relaunchAll gs (gs.map f).flatten junk) := by
  induction gs generalizing junk with
  | nil => exact .nil
  | cons g gs ih =>
    have hlen := hf g List.mem_cons_self
    rw [List.map_cons, List.flatten_cons, relaunchAll, List.take_left' hlen, List.drop_left' hlen]
    exact .cons ⟨junk 0, rfl⟩ (ih (fun g hg => hf g (List.mem_cons_of_mem _ hg)) _)

/-! ## All groups and the host -/

namespace State
variable {s t : State B}

def left (M : Nat) (s : State B) : Nat := (s.groups.map (Group.left M)).sum

def rank (M : Nat) (s : State B) : Nat := (s.groups.map (Group.rank M)).sum

def active (s : State B) : Bool := s.groups.any Group.active

/-- The number of work-items. -/
def items (s : State B) : Nat := (s.groups.map fun g => g.wis.length).sum

/-- What is left to do, and a launch that has not brought anybody further has still to. -/
def debt (M : Nat) (s : State B) : Nat :=
  s.left M + (if s.active then 0 else 1) + (if s.finished then 0 else 1)

/-- What progress rests on. -/
structure ProgressInv (code : Code B) (n M N : Nat) (s : State B) : Prop extends
    s.UniformInv code n where
  sound : ∀ g ∈ s.groups, ∀ w ∈ g.wis, w.Sound M
  items : s.items = N
  /-- when the task is finished every work-item is at the end of the kernel -/
  done : s.finished = true → ∀ g ∈ s.groups, ∀ w ∈ g.wis,
    w.hdr = 0 ∧ w.sites w.passed = none ∧ w.arrived = w.passed

/-- The groups after a launch that has not finished the task. -/
def relaunched (s : State B) (junk : Nat → Shared B) : List (Group B) :=
  relaunchAll s.groups (s.groups.map fun g => released g.headers).flatten junk

/-- **What the host does after a launch of a barrier-uniform kernel.** -/
theorem UniformInv.host (h : s.UniformInv code n) (he : ∀ g ∈ s.groups, g.ended = true)
    (junk : Nat → Shared B) :
    (Device.resumeOrFinish n s junk = { s with finished := true } ∧
        ∀ g ∈ s.groups, ∀ x ∈ g.headers, x = 0) ∨
      (Device.resumeOrFinish n s junk = { s with groups := s.relaunched junk } ∧
        ∃ g ∈ s.groups, ∃ x ∈ g.headers, x ≠ 0) := by
  have hgs : ∀ hs ∈ s.groups.map Group.headers, hs.length = n ∧ OneBarrier hs := by
    refine List.forall_mem_map.mpr fun g hg => ?_
    obtain ⟨hlen, hi⟩ := h.groups g hg
    obtain ⟨p, hset⟩ := hi.settled (hlen ▸ h.pos) (he g hg)
    exact ⟨(List.length_map _).trans hlen, (h.uniform g hg).oneBarrier hset⟩
  obtain ⟨progress, hup, hzero, hneg⟩ := updateHeader_flatten h.pos hgs
  by_cases h0 : progress = 0
  · refine Or.inl ⟨?_, fun g hg => hzero.mp h0 _ (List.mem_map_of_mem hg)⟩
    simp only [Device.resumeOrFinish, hup, if_pos h0]
  · refine Or.inr ⟨?_, ?_⟩
    · have hmap : (s.groups.map Group.headers).map released =
          s.groups.map fun g => released g.headers := List.map_map
      have hsame : (if progress < 0 then ((s.groups.map Group.headers).map released).flatten
          else (s.groups.map Group.headers).flatten) =
            (s.groups.map fun g => released g.headers).flatten := by
        rw [← hmap]
        split
        · rfl
        · rename_i hlt
          by_contra hne
          exact hlt (hneg fun heq => hne (congrArg List.flatten heq).symm)
      simp only [Device.resumeOrFinish, hup, if_neg h0, hsame, relaunched]
    · by_contra hno
      refine h0 (hzero.mpr (List.forall_mem_map.mpr fun g hg x hx => ?_))
      by_contra hne
      exact hno ⟨g, hg, x, hx, hne⟩

/-- A step is taken before the task is finished. -/
theorem not_finished_of_step {l : Label B} (h : (machine code n).step s l = some t) :
    s.finished = false := by
  cases l with
  | device i l' =>
    simp only [machine] at h
    split at h
    · cases h
    · rename_i hc
      simp only [Bool.or_eq_true, not_or, Bool.not_eq_true] at hc
      exact hc.2
  | host junk =>
    simp only [machine] at h
    split at h
    · cases h
    · rename_i hc
      simp only [Bool.or_eq_true, not_or, Bool.not_eq_true] at hc
      exact hc.1.2

variable {N : Nat}

/-- **A step of a work-group.** -/
theorem ProgressInv.device (h : s.ProgressInv code n M N) {i : Nat} {l : GroupLabel}
    {g g' : Group B} (hg : s.groups[i]? = some g) (hg' : g.step code l = some g')
    (ht : { s with groups := s.groups.set i g' }.UniformInv code n) (hf : s.finished = false) :
    ({ s with groups := s.groups.set i g' } : State B).ProgressInv code n M N ∧
      (rank M { s with groups := s.groups.set i g' } + if l.isWrite then 0 else 1) ≤ s.rank M ∧
      debt M { s with groups := s.groups.set i g' } ≤
        s.debt M + if l.isSuspend then 1 else 0 := by
  have hmem := List.mem_of_getElem? hg
  obtain ⟨hlen, hi⟩ := h.groups g hmem
  obtain ⟨hsound, hleft, hrank, hactive⟩ :=
    Group.step_progress hi (hlen ▸ h.pos) (h.sound g hmem) hg'
  have hsumLeft := Table.sum_map_set (Group.left M) hg g'
  have hsumRank := Table.sum_map_set (Group.rank M) hg g'
  have hsumItems := Table.sum_map_set (fun g : Group B => g.wis.length) hg g'
  simp only [Group.length_step hg'] at hsumItems
  refine ⟨⟨ht, Table.forall_mem_set h.sound i hsound, ?_, fun hfin => ?_⟩, ?_, ?_⟩
  · have hitems := h.items
    simp only [State.items] at hitems ⊢
    omega
  · simp only [hf] at hfin
    cases hfin
  · simp only [rank]
    split at hrank <;> rename_i hw <;> simp only [hw, if_true, Bool.false_eq_true, if_false] <;>
      omega
  · -- if nobody is active any longer, less is left to do
    have hstill : s.active = true →
        active { s with groups := s.groups.set i g' } = true ∨ g'.left M < g.left M ∨
          l.isSuspend = true :=
      fun ha => Table.any_set hg ha hactive
    simp only [debt, left]
    cases hact : s.active with
    | false =>
      simp only [Bool.false_eq_true, if_false]
      split <;> omega
    | true =>
      rcases hstill hact with ha | hlt | hsus
      · simp only [ha, if_true]
        omega
      · simp only [if_true]
        split <;> omega
      · simp only [hsus, if_true]
        split <;> omega

theorem map_eq_of_forall₂ {α β γ : Type*} {r : α → β → Prop} {l : List α} {l' : List β}
    (f : α → γ) (f' : β → γ) (h : List.Forall₂ r l l')
    (hr : ∀ a b, a ∈ l → r a b → f' b = f a) : l'.map f' = l.map f := by
  induction h with
  | nil => rfl
  | cons hab _ ih =>
    rw [List.map_cons, List.map_cons, hr _ _ List.mem_cons_self hab,
      ih fun a b ha => hr a b (List.mem_cons_of_mem _ ha)]

theorem exists_of_forall₂ {α β : Type*} {r : α → β → Prop} {l : List α} {l' : List β}
    (h : List.Forall₂ r l l') {a : α} (ha : a ∈ l) : ∃ b ∈ l', r a b := by
  induction h with
  | nil => cases ha
  | @cons x y l l' hxy _ ih =>
    rcases List.mem_cons.mp ha with rfl | ha
    · exact ⟨y, List.mem_cons_self, hxy⟩
    · obtain ⟨b, hb, hr⟩ := ih ha
      exact ⟨b, List.mem_cons_of_mem y hb, hr⟩

/-- **A step of the host.** -/
theorem ProgressInv.resumeOrFinish (h : s.ProgressInv code n M N)
    (he : ∀ g ∈ s.groups, g.ended = true) (hf : s.finished = false) (junk : Nat → Shared B)
    (ht : (Device.resumeOrFinish n s junk).UniformInv code n) :
    (Device.resumeOrFinish n s junk).ProgressInv code n M N ∧
      (Device.resumeOrFinish n s junk).rank M ≤ s.rank M + 11 * N ∧
      (Device.resumeOrFinish n s junk).debt M + 1 ≤ s.debt M := by
  -- everybody has left the launch
  have hidle : s.active = false := by
    by_contra hact
    rw [Bool.not_eq_false] at hact
    obtain ⟨g, hg, hga⟩ := List.any_eq_true.mp hact
    obtain ⟨w, hw, hwa⟩ := List.any_eq_true.mp hga
    obtain ⟨e, stored, hpc⟩ := Group.returned_of_ended (he g hg) hw
    simp [Wi.active, Pc.early, hpc] at hwa
  rcases h.toUniformInv.host he junk with ⟨heq, hzero⟩ | ⟨heq, g₀, hg₀, x, hx, hx0⟩
  · rw [heq] at ht ⊢
    refine ⟨⟨ht, h.sound, h.items, fun _ g hg w hw => ?_⟩, Nat.le_add_right _ _, ?_⟩
    · obtain ⟨hlen, hi⟩ := h.groups g hg
      obtain ⟨p, hset⟩ := hi.settled (hlen ▸ h.pos) (he g hg)
      have hw0 : w.hdr = 0 := hzero g hg _ (List.mem_map_of_mem hw)
      cases hset w hw with
      | suspended hc ha hp =>
        have := code.two_le _ _ hc
        omega
      | @stopped j hj hh ha hp =>
        have := code.two_le_nonce j
        omega
      | finished hs hh ha hp => exact ⟨hw0, by rw [hp]; exact hs, ha.trans hp.symm⟩
    · have hdebt : debt M { s with finished := true } + 1 = s.debt M := by
        rw [debt, debt, hf]
        rfl
      exact Nat.le_of_eq hdebt
  · have hall := forall₂_relaunchAll (fun g => released g.headers) s.groups
      (fun g _ => by
        obtain ⟨f, hf, _⟩ := g.exists_header
        rw [hf, List.length_map]) junk
    have hpair : ∀ g g', g ∈ s.groups → (∃ sh, g' = g.relaunch (released g.headers) sh) →
        (∀ w ∈ g'.wis, w.Sound M) ∧ g'.left M = g.left M ∧
          g'.rank M = g.rank M + 11 * g.wis.length ∧ g'.wis.length = g.wis.length := by
      rintro g _ hg ⟨sh, rfl⟩
      obtain ⟨hsound, hleft, hrank⟩ := Group.relaunch_progress (he g hg) (h.sound g hg) sh
      exact ⟨hsound, hleft, hrank, Group.length_relaunch sh⟩
    rw [heq] at ht ⊢
    have hleft : left M { s with groups := s.relaunched junk } = s.left M :=
      congrArg List.sum (map_eq_of_forall₂ _ _ hall fun g g' hg hr => (hpair g g' hg hr).2.1)
    have hitems : State.items { s with groups := s.relaunched junk } = s.items :=
      congrArg List.sum (map_eq_of_forall₂ _ _ hall fun g g' hg hr => (hpair g g' hg hr).2.2.2)
    have hrank : rank M { s with groups := s.relaunched junk } = s.rank M + 11 * N := by
      have hmap := congrArg List.sum (map_eq_of_forall₂
        (fun g => g.rank M + 11 * g.wis.length) (Group.rank M) hall
        fun g g' hg hr => (hpair g g' hg hr).2.2.1)
      rw [List.sum_map_add, List.sum_map_mul_left] at hmap
      rw [← h.items]
      exact hmap
    refine ⟨⟨ht, ?_, hitems.trans h.items, fun hfin => ?_⟩, Nat.le_of_eq hrank, ?_⟩
    · intro g' hg'
      obtain ⟨g, hg, i, rfl⟩ := mem_relaunchAll _ s.groups (fun g _ => by
        obtain ⟨f, hf, _⟩ := g.exists_header
        rw [hf, List.length_map]) junk g' hg'
      exact (hpair g _ hg ⟨_, rfl⟩).1
    · simp only [hf] at hfin
      cases hfin
    · -- the next launch has a work-item with a positive header
      obtain ⟨hlen, hi⟩ := h.groups g₀ hg₀
      obtain ⟨p, hset⟩ := hi.settled (hlen ▸ h.pos) (he g₀ hg₀)
      obtain ⟨y, hy, hpos⟩ := (h.uniform g₀ hg₀).exists_pos hset (g₀.exists_ne_zero ⟨x, hx, hx0⟩)
      obtain ⟨g', hg', sh, rfl⟩ := exists_of_forall₂ hall hg₀
      have hactive : active { s with groups := s.relaunched junk } = true := by
        rw [← Group.headers_relaunch sh] at hy
        obtain ⟨w, hw, rfl⟩ := List.mem_map.mp hy
        refine List.any_eq_true.mpr ⟨_, hg', List.any_eq_true.mpr ⟨w, hw, ?_⟩⟩
        have hpc : w.pc = .init := by
          obtain ⟨f, hf⟩ := g₀.released_headers
          rw [Group.wis_relaunch f hf] at hw
          obtain ⟨v, _, rfl⟩ := List.mem_map.mp hw
          rfl
        simp [Wi.active, Pc.early, hpc, hpos]
      rw [debt, debt, hleft, hactive, hidle, hf]
      exact Nat.le_refl _

/-- **Every step makes progress.** -/
theorem ProgressInv.step (h : s.ProgressInv code n M N) {l : Label B}
    (hs : (machine code n).step s l = some t) :
    t.ProgressInv code n M N ∧
      (t.rank M + if l.isWrite || l.isHost then 0 else 1) ≤
        s.rank M + (if l.isHost then 11 * N else 0) ∧
      (t.debt M + if l.isHost then 1 else 0) ≤ s.debt M + (if l.isSuspend then 1 else 0) := by
  have ht := h.toUniformInv.step hs
  have hf := not_finished_of_step hs
  rcases machine_step hs with ⟨i, l', g, g', rfl, hg, hg', rfl⟩ | ⟨junk, rfl, he, rfl⟩
  · obtain ⟨hinv, hrank, hdebt⟩ := h.device hg hg' ht hf
    refine ⟨hinv, ?_, hdebt⟩
    simpa [Label.isWrite, Label.isHost] using hrank
  · obtain ⟨hinv, hrank, hdebt⟩ := h.resumeOrFinish he hf junk ht
    exact ⟨hinv, hrank, hdebt⟩

/-- A launch costs a part of the debt, and every other step but a write lowers the rank. -/
theorem ProgressInv.potential (h : s.ProgressInv code n M N) {l : Label B}
    (hs : (machine code n).step s l = some t) :
    (t.rank M + (11 * N + 1) * t.debt M + if (!l.isWrite) = true then 1 else 0) ≤
      s.rank M + (11 * N + 1) * s.debt M + if l.isSuspend then 11 * N + 1 else 0 := by
  obtain ⟨_, hr, hd⟩ := h.step hs
  have hmul := Nat.mul_le_mul_left (11 * N + 1) hd
  rw [Nat.mul_add, Nat.mul_add] at hmul
  cases l with
  | host junk =>
    simp only [Label.isHost, Label.isWrite, Label.isSuspend, if_true, Bool.or_true,
      Bool.false_eq_true, if_false, Bool.not_false] at hr hmul ⊢
    omega
  | device i l' =>
    simp only [Label.isHost, Label.isWrite, Label.isSuspend, Bool.or_false,
      Bool.false_eq_true, if_false] at hr hmul ⊢
    rcases Bool.eq_false_or_eq_true l'.isWrite with hw | hw <;>
      rcases Bool.eq_false_or_eq_true l'.isSuspend with hsu | hsu <;>
      simp only [hw, hsu, if_true, Bool.false_eq_true, if_false, Bool.not_true,
        Bool.not_false] at hr hmul ⊢ <;> omega

/-- **Somebody can move** until the task is finished. -/
theorem ProgressInv.enabled (h : s.ProgressInv code n M N) (hf : s.finished = false) :
    ∃ l t, l.isWrite = false ∧ l.isSuspend = false ∧ (machine code n).step s l = some t := by
  have hgo : (s.aborted || s.finished) = false := by rw [h.notAborted, hf]; rfl
  by_cases he : s.groups.all Group.ended = true
  · let junk : Nat → Shared B := fun _ => ⟨fun _ => 0, 0, fun _ _ => 0, fun _ => 0⟩
    refine ⟨.host junk, Device.resumeOrFinish n s junk, rfl, rfl, ?_⟩
    simp only [machine, hgo, he]
    rfl
  · obtain ⟨g, hg, hne⟩ := List.all_eq_false.mp (Bool.eq_false_of_not_eq_true he)
    obtain ⟨i, hi⟩ := List.mem_iff_getElem?.mp hg
    obtain ⟨l, g', hw, hsu, hstep⟩ :=
      (h.groups g hg).2.enabled (Bool.eq_false_of_not_eq_true hne)
    refine ⟨.device i l, { s with groups := s.groups.set i g' }, hw, hsu, ?_⟩
    simp only [machine, hgo, hi, Bool.false_eq_true, if_false, Option.bind_eq_bind,
      Option.bind_some, hstep, Option.pure_def]

/-! ## At the beginning -/

/-- The invariant before the first launch. -/
theorem ProgressInv.initial (h0 : (uniform code n).Initial s)
    (hM : ∀ g ∈ s.groups, ∀ w ∈ g.wis, ∀ k, M ≤ k → w.sites k = none) :
    s.ProgressInv code n M (s.groups.length * n) := by
  have hu : s.UniformInv code n := uniformInv_of_reachable (.initial h0)
  refine ⟨hu, fun g hg w hw => ⟨hM g hg w hw, fun hin => ?_⟩, ?_, fun hf => ?_⟩
  · obtain ⟨_, hpc, _⟩ := (h0.1.2.1 g hg).2 w hw
    rw [hpc] at hin
    cases hin
  · rw [State.items, List.map_congr_left fun g hg => (h0.1.2.1 g hg).1, List.map_const',
      List.sum_replicate_nat]
  · rw [h0.1.2.2.2] at hf
    cases hf

/-- What there is to do before the first launch. -/
theorem left_initial (h0 : (machine code n).Initial s) :
    s.left M = s.groups.length * (n * (2 * M + 1)) ∧
      s.rank M = s.groups.length * (n * (8 * M + 15)) := by
  have hw : ∀ g ∈ s.groups, ∀ w ∈ g.wis,
      w.left M = 2 * M + 1 ∧ w.rank M = 8 * M + 15 := by
    intro g hg w hw
    obtain ⟨hh, hpc, ha, hp⟩ := (h0.2.1 g hg).2 w hw
    have hleft : w.left M = 2 * M + 1 := by
      rw [Wi.left_of_ne (by omega), ha, hp]
      omega
    refine ⟨hleft, ?_⟩
    rw [Wi.rank, hleft, hpc, Pc.rank]
    omega
  have hg : ∀ g ∈ s.groups, g.left M = n * (2 * M + 1) ∧ g.rank M = n * (8 * M + 15) := by
    intro g hg
    have hlen := (h0.2.1 g hg).1
    constructor
    · rw [Group.left, List.map_congr_left fun w hw' => (hw g hg w hw').1, List.map_const',
        List.sum_replicate_nat, hlen]
    · rw [Group.rank, List.map_congr_left fun w hw' => (hw g hg w hw').2, List.map_const',
        List.sum_replicate_nat, hlen]
  constructor
  · rw [State.left, List.map_congr_left fun g hg' => (hg g hg').1, List.map_const',
      List.sum_replicate_nat]
  · rw [State.rank, List.map_congr_left fun g hg' => (hg g hg').2, List.map_const',
      List.sum_replicate_nat]

end State

/-- **A barrier-uniform kernel comes to its end.**  In a run from the start, of `N` work-items
that pass at most `M` barriers each, the host starts at most `N * (2 * M + 1) + 2` launches
more than there are suspensions, and apart from writes to local memory the number of steps
is bounded by that of the suspensions.  In every state that is reached somebody can
move, or the task is finished and every work-item is at the end of the kernel. -/
theorem barrier_progress {s t : State B} {ls : List (Label B)} {M : Nat}
    (h0 : (uniform code n).Initial s)
    (hM : ∀ g ∈ s.groups, ∀ w ∈ g.wis, ∀ k, M ≤ k → w.sites k = none)
    (hrun : (uniform code n).run s ls = some t) :
    let N := s.groups.length * n
    ls.countP Label.isHost ≤ N * (2 * M + 1) + 2 + ls.countP Label.isSuspend ∧
      ls.countP (fun l => !l.isWrite) ≤ N * (8 * M + 15) +
        (11 * N + 1) * (N * (2 * M + 1) + 2 + ls.countP Label.isSuspend) ∧
      ((t.finished = true ∧ ∀ g ∈ t.groups, ∀ w ∈ g.wis,
          w.hdr = 0 ∧ w.sites w.passed = none ∧ w.arrived = w.passed) ∨
        ∃ l u, l.isWrite = false ∧ l.isSuspend = false ∧
          (uniform code n).step t l = some u) := by
  intro N
  have hI := State.ProgressInv.initial h0 hM
  obtain ⟨hleft, hrank⟩ := State.left_initial (M := M) h0.1
  have hleft' : s.left M = N * (2 * M + 1) := hleft.trans (Nat.mul_assoc ..).symm
  have hrank' : s.rank M = N * (8 * M + 15) := hrank.trans (Nat.mul_assoc ..).symm
  have hdebt : s.debt M ≤ N * (2 * M + 1) + 2 := by
    rw [State.debt, hleft']
    split <;> split <;> omega
  obtain ⟨_, hhosts⟩ := Machine.countP_run_le (M := uniform code n)
    (I := State.ProgressInv code n M N) (State.debt M) Label.isHost Label.isSuspend 1
    (fun s l t h _ hstep => ⟨(h.step hstep).1, (h.step hstep).2.2⟩) hI hrun
  obtain ⟨ht, hsteps⟩ := Machine.countP_run_le (M := uniform code n)
    (I := State.ProgressInv code n M N) (fun s => s.rank M + (11 * N + 1) * s.debt M)
    (fun l => !l.isWrite) Label.isSuspend (11 * N + 1)
    (fun s l t h _ hstep => ⟨(h.step hstep).1, h.potential hstep⟩) hI hrun
  refine ⟨by omega, ?_, ?_⟩
  · have hmul := Nat.mul_le_mul_left (11 * N + 1) hdebt
    rw [Nat.mul_add (11 * N + 1) (N * (2 * M + 1) + 2)]
    simp only [hrank'] at hsteps
    omega
  · cases hf : t.finished with
    | true => exact Or.inl ⟨rfl, ht.done hf⟩
    | false => exact Or.inr (ht.enabled hf)

namespace LoopBarrier

/-- Two launches, with a suspension in the first of them. -/
def twoLaunches : List (Label 1) :=
  launch₁.map (.device 0) ++ .host (fun _ => junk) :: launch₂.map (.device 0)

/-- The host is the next to move. -/
theorem barrier_progress_stopped :
    (uniform (kernel []) 2).run start twoLaunches = some stopped ∧
      twoLaunches.countP (fun l => !l.isWrite) ≤ 2 * 23 + 23 * (2 * 3 + 2 + 1) ∧
      ∃ l u, l.isWrite = false ∧ l.isSuspend = false ∧
        (uniform (kernel []) 2).step stopped l = some u := by
  have hrun : (uniform (kernel []) 2).run start twoLaunches = some stopped :=
    (Option.some_get _).symm
  have hM : ∀ g ∈ start.groups, ∀ w ∈ g.wis, ∀ k, 1 ≤ k → w.sites k = none := by
    refine List.forall_mem_singleton.mpr fun w hw k hk => ?_
    rw [List.eq_of_mem_replicate hw]
    exact if_neg (by omega)
  obtain ⟨_, hsteps, hfin | hmove⟩ := barrier_progress (initial_start []) hM hrun
  · exact absurd hfin.1 (by decide)
  · exact ⟨hrun, hsteps, hmove⟩

end LoopBarrier
end Device
end Clpkm
