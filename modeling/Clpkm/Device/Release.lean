import Clpkm.Device.Phases

/-!
# From phase to phase

A phase ends when the work-items that wait at a barrier go on.  The lemmas `release` say,
for each phase, where a work-item of this phase goes on.  Before the first barrier the
work-items initialise the counters together, each its share (`Initialised`), so that
they count what they should from then on (`Initialised.counters`).
-/

namespace Clpkm
namespace Device
open Locfefe

variable {B : Nat} {code : Code B} {n : Nat} {w : Wi B}

/-! ## Work-items that go on behind a barrier -/

/-- Between the `atomic_dec` and the `atomic_inc` of some site. -/
def Pc.stopping : Pc B → Bool
  | stop1 _ | readRemain _ | stop2 _ _ | atomicInc _ _ => true
  | _ => false

theorem Pc.stopping_of_stopped {j : Fin B} {p : Pc B} (h : p.stopped j = true) :
    p.stopping = true := by
  cases p with
  | stop1 _ | readRemain _ | stop2 _ _ | atomicInc _ _ => rfl
  | _ => cases h

theorem Pc.exitId_of_stopping {p : Pc B} (h : p.stopping = true) : p.exitId = none := by
  cases p with
  | stop1 _ | readRemain _ | stop2 _ _ | atomicInc _ _ => rfl
  | _ => cases h

/-- The work-item waits at a barrier or has returned. -/
def Wi.AtBarrier (w : Wi B) : Prop := w.pc.waiting = true ∨ w.pc.isReturned = true

theorem Wi.release_orig {j : Fin B} (h : w.pc = .orig j) :
    w.release = ⟨w.hdr, .run, w.arrived, w.passed + 1, w.sites⟩ := by
  unfold release
  rw [h]

theorem Wi.release_eq {p : Pc B} (h : w.pc = p) (hne : ∀ j, p ≠ .orig j) :
    w.release = ⟨w.hdr, p.afterBarrier, w.arrived, w.passed, w.sites⟩ := by
  unfold release
  rw [h]
  cases p with
  | orig j => exact (hne j rfl).elim
  | _ => rfl

theorem EntryOk.release {first loaded : Bool} {p : Nat} (h : EntryOk code first p loaded w)
    (hw : w.AtBarrier) : RunOk code n first p w.release ∧ w.pc = .entryBarrier := by
  unfold EntryOk at h
  unfold Wi.AtBarrier at hw
  cases hpc : w.pc with
  | entryBarrier =>
    rw [hpc] at h
    rw [Wi.release_eq hpc (fun j hj => nomatch hj)]
    exact ⟨h.2.of_pc .entry, rfl⟩
  | init | reload =>
    rw [hpc] at hw
    rcases hw with hw | hw <;> cases hw
  | _ =>
    rw [hpc] at h
    exact h.elim

theorem RunOk.release {first : Bool} {p : Nat} (h : RunOk code n first p w)
    (hw : w.AtBarrier) (stop : Fin B → Nat) : MidOk code n p stop w.release := by
  unfold RunOk at h
  unfold Wi.AtBarrier at hw
  cases hpc : w.pc with
  | stop1 j =>
    rw [hpc] at h
    rw [Wi.release_eq hpc (fun j hj => nomatch hj)]
    exact h
  | exit1 batch =>
    rw [hpc] at h
    rw [Wi.release_eq hpc (fun j hj => nomatch hj)]
    exact ⟨h.1.of_pc _, h.2⟩
  | returned e stored =>
    rw [hpc] at h
    rw [Wi.release_eq hpc (fun j hj => nomatch hj)]
    exact ⟨h.1.of_pc _, h.2⟩
  | init | entry | run | exit =>
    rw [hpc] at hw
    rcases hw with hw | hw <;> cases hw
  | _ =>
    rw [hpc] at h
    exact h.elim

/-- Where a work-item goes on from the middle of a launch: behind the barrier, with those
that leave there, or with those that were at the exit. -/
theorem MidOk.release {p : Nat} {stop : Fin B → Nat} (h : MidOk code n p stop w)
    (hw : w.AtBarrier) :
    (w.pc.stopping = true ∧ ∃ j, Stopping p j w ∧ (∀ j', w.pc.stopped j' = true → j = j') ∧
        w.release = ⟨w.hdr, .atomicInc j (stop j), w.arrived, w.passed, w.sites⟩) ∨
      (w.pc.stopping = false ∧ code.hasLocal = true ∧ Settled code p w ∧
        ∃ id, w.pc.exitId = some id ∧
          w.release = ⟨w.hdr, .exitTest n id, w.arrived, w.passed, w.sites⟩) ∨
      (w.pc.stopping = false ∧ code.hasLocal = false ∧ Settled code p w ∧
        ∃ e, w.pc = .returned e false ∧ w.release = w) := by
  unfold MidOk at h
  unfold Wi.AtBarrier at hw
  cases hpc : w.pc with
  | stop2 j remain =>
    rw [hpc] at h
    obtain ⟨hstop, rfl⟩ := h
    exact Or.inl ⟨rfl, j, hstop, fun j' hj' => of_decide_eq_true hj',
      Wi.release_eq hpc (fun j hj => nomatch hj)⟩
  | exit2 batch id =>
    rw [hpc] at h
    obtain ⟨hset, hl, rfl⟩ := h
    exact Or.inr (Or.inl ⟨rfl, hl, hset, id, rfl, Wi.release_eq hpc (fun j hj => nomatch hj)⟩)
  | returned e stored =>
    rw [hpc] at h
    obtain ⟨hset, hl, rfl⟩ := h
    have heta : w = ⟨w.hdr, .returned e false, w.arrived, w.passed, w.sites⟩ := by rw [← hpc]
    refine Or.inr (Or.inr ⟨rfl, hl, hset, e, rfl, ?_⟩)
    rw [Wi.release_eq hpc (fun j hj => nomatch hj)]
    exact heta.symm
  | readRemain _ | exitDec _ =>
    rw [hpc] at hw
    rcases hw with hw | hw <;> cases hw
  | _ =>
    rw [hpc] at h
    exact h.elim

theorem PassOk.release {p : Nat} (h : PassOk p w) (hw : w.AtBarrier) :
    RunOk code n false (p + 1) w.release := by
  unfold PassOk at h
  unfold Wi.AtBarrier at hw
  cases hpc : w.pc with
  | orig j =>
    rw [hpc] at h
    rw [Wi.release_orig hpc]
    exact ⟨h.2.1, congrArg (· + 1) h.2.2⟩
  | atomicInc _ _ =>
    rw [hpc] at hw
    rcases hw with hw | hw <;> cases hw
  | _ =>
    rw [hpc] at h
    exact h.elim

theorem TailOk.release {p k : Nat} (h : TailOk code p k w) (hw : w.AtBarrier)
    (hl : code.hasLocal = true) (hid : ∀ id, w.pc.exitId = some id → k ≤ id) :
    TailDecOk code p k w.release := by
  unfold TailOk at h
  unfold Wi.AtBarrier at hw
  cases hpc : w.pc with
  | exit1 batch =>
    rw [hpc] at h
    rw [Wi.release_eq hpc (fun j hj => nomatch hj)]
    exact ⟨h.1.of_pc _, h.2.2⟩
  | returned e stored =>
    rw [hpc] at h hid
    rw [Wi.release_eq hpc (fun j hj => nomatch hj)]
    obtain ⟨⟨batch, id⟩, rfl⟩ := Option.isSome_iff_exists.mp (h.2.2 hl)
    exact ⟨h.1.of_pc _, h.2.1, batch, id, rfl, hid id rfl⟩
  | atomicInc _ _ | exit | exitTest _ _ =>
    rw [hpc] at hw
    rcases hw with hw | hw <;> cases hw
  | _ =>
    rw [hpc] at h
    exact h.elim

theorem TailDecOk.release {p k : Nat} (h : TailDecOk code p k w) (hw : w.AtBarrier) :
    TailEndOk code p k w.release ∧ (∃ id, w.pc.exitId = some id) ∧
      ∀ e, w.release.pc ≠ .returned e true := by
  unfold TailDecOk at h
  unfold Wi.AtBarrier at hw
  cases hpc : w.pc with
  | exit2 batch id =>
    rw [hpc] at h
    rw [Wi.release_eq hpc (fun j hj => nomatch hj)]
    exact ⟨⟨h.1.of_pc _, h.2⟩, ⟨id, rfl⟩, fun e he => nomatch he⟩
  | returned e stored =>
    rw [hpc] at h
    rw [Wi.release_eq hpc (fun j hj => nomatch hj)]
    obtain ⟨hset, rfl, batch, id, rfl, hk⟩ := h
    exact ⟨⟨hset.of_pc _, batch, id, rfl, (fun hst => nomatch hst), fun _ => hk⟩, ⟨id, rfl⟩,
      fun e he => nomatch he⟩
  | exitDec _ =>
    rw [hpc] at hw
    rcases hw with hw | hw <;> cases hw
  | _ =>
    rw [hpc] at h
    exact h.elim

theorem TailEndOk.not_waiting {p k : Nat} (h : TailEndOk code p k w) :
    w.pc.waiting = false := by
  unfold TailEndOk at h
  cases hpc : w.pc with
  | exitTest _ _ | store _ _ | returned _ _ => rfl
  | _ =>
    rw [hpc] at h
    exact h.elim

/-! ## The initialisation of the counters -/

namespace Group
variable {g : Group B}

/-- What a work-item initialises is initialised once it has done so. -/
def Initialised (code : Code B) (g : Group B) : Prop :=
  ∀ (i : Nat) (w : Wi B), g.wis[i]? = some w → w.pc ≠ .init →
    (∀ j : Fin B, j.val % g.wis.length = i → g.shared.stop j = g.wis.length) ∧
      (code.hasLocal = true → i = 0 → g.shared.finalStop = g.wis.length)

theorem Initialised.wi (h : g.Initialised code) {i : Nat} (w' : Wi B) :
    Initialised code ⟨g.wis.set i w', g.shared.initCounters code g.wis.length i,
      g.held⟩ := by
  intro i' w hw hpc
  change (g.wis.set i w')[i']? = some w at hw
  rw [List.getElem?_set] at hw
  simp only [List.length_set, Shared.initCounters]
  by_cases hi : i = i'
  · subst hi
    refine ⟨fun j hj => if_pos hj, fun hl h0 => ?_⟩
    rw [hl, h0]
    rfl
  · rw [if_neg hi] at hw
    obtain ⟨hstop, hfin⟩ := h i' w hw hpc
    refine ⟨fun j hj => ?_, fun hl h0 => ?_⟩
    · rw [if_neg fun h => hi (h.symm.trans hj)]
      exact hstop j hj
    · subst h0
      rw [hl, if_neg]
      · exact hfin hl rfl
      · simpa using hi

/-- Nobody has an exit id, and nobody has counted himself off at a site. -/
theorem Initialised.counters (h : g.Initialised code) (hpos : 0 < g.wis.length)
    (hpc : ∀ w ∈ g.wis, w.pc = .entryBarrier) : g.Counters code := by
  have hidx : ∀ i, i < g.wis.length → ∃ w, g.wis[i]? = some w ∧ w.pc ≠ .init := by
    intro i hi
    refine ⟨g.wis[i], List.getElem?_eq_getElem hi, ?_⟩
    rw [hpc _ (List.getElem_mem hi)]
    exact fun hx => nomatch hx
  have hfin : code.hasLocal = true → g.shared.finalStop = g.wis.length := by
    intro hl
    obtain ⟨w, hw, hne⟩ := hidx 0 hpos
    exact (h 0 w hw hne).2 hl rfl
  refine ⟨fun j => ?_, fun hl => ?_, fun hl => Nat.le_of_eq (hfin hl)⟩
  · obtain ⟨w, hw, hne⟩ := hidx (j.val % g.wis.length) (Nat.mod_lt _ hpos)
    rw [(h _ w hw hne).1 j rfl, List.countP_eq_zero.mpr, Nat.add_zero]
    intro w hw
    rw [hpc w hw]
    exact Bool.false_ne_true
  · have hnil : g.exitIds = [] := by
      refine List.filterMap_eq_nil_iff.mpr fun w hw => ?_
      rw [hpc w hw]
      rfl
    rw [hnil, hfin hl, List.Ico.self_empty]

/-- A kernel without counters. -/
theorem counters_of_initBarrier (hb : code.initBarrier = false) : g.Counters code := by
  obtain ⟨hl, hB⟩ := Code.hasLocal_of_initBarrier hb
  refine ⟨fun j => ?_, fun h => ?_, fun h => ?_⟩
  · subst hB
    exact j.elim0
  · rw [hl] at h
    cases h
  · rw [hl] at h
    cases h

/-- While nobody has an exit id, `__clpkm_final_stop` is the size of the group. -/
theorem Counters.finalStop_eq (h : g.Counters code) (hl : code.hasLocal = true)
    (hn : ∀ w ∈ g.wis, w.pc.exitId = none) : g.shared.finalStop = g.wis.length := by
  have hnil : g.exitIds = [] := List.filterMap_eq_nil_iff.mpr hn
  have := h.length_exitIds hl
  rw [hnil, List.length_nil] at this
  omega

/-- When everybody has an exit id, `__clpkm_final_stop` is 0. -/
theorem Counters.finalStop_eq_zero (h : g.Counters code) (hl : code.hasLocal = true)
    (hn : ∀ w ∈ g.wis, ∃ id, w.pc.exitId = some id) : g.shared.finalStop = 0 := by
  have hlen : g.exitIds.length = g.wis.length := by
    refine List.filterMap_length_eq_length.mpr fun w hw => ?_
    obtain ⟨id, hid⟩ := hn w hw
    rw [hid]
    rfl
  have := h.length_exitIds hl
  omega

/-- The exit ids that have been given out are at least `__clpkm_final_stop`. -/
theorem Counters.finalStop_le_id (h : g.Counters code) (hl : code.hasLocal = true) {w : Wi B}
    (hw : w ∈ g.wis) {id : Nat} (hid : w.pc.exitId = some id) :
    g.shared.finalStop ≤ id ∧ id < g.wis.length := by
  have hmem : id ∈ g.exitIds := List.mem_filterMap.mpr ⟨w, hw, hid⟩
  exact List.Ico.mem.mp ((h.ids hl).mem_iff.mp hmem)

end Group
end Device
end Clpkm
