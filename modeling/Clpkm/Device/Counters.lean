import Clpkm.Table
import Clpkm.Device.WorkGroup
import Mathlib.Data.List.Intervals

/-!
# What the counters of a group count

Once a group has initialised its counters, each of them tells at any time how many
work-items have counted themselves off.  `__clpkm_barrier_stop[j]` is the size of the
group less the work-items that are between the `atomic_dec` and the `atomic_inc` of
site `j` (`Pc.Stopped`).  The exit ids that have been given out are the numbers from
`__clpkm_final_stop` to the size of the group, each once.

Neither depends on how far the work-items are in other respects.
-/

namespace Clpkm
namespace Device
open Locfefe

variable {B : Nat}

namespace Pc

/-- Between the `atomic_dec` and the `atomic_inc` of site `j`. -/
def stopped (j : Fin B) : Pc B → Bool
  | stop1 j' | readRemain j' | stop2 j' _ | atomicInc j' _ => j' = j
  | _ => false

/-- The exit id that the work-item has got. -/
def exitId : Pc B → Option Nat
  | exit2 _ id | exitTest _ id | store _ id => some id
  | returned e _ => e.map Prod.snd
  | _ => none

@[simp] theorem stopped_afterBarrier (j : Fin B) (p : Pc B) :
    p.afterBarrier.stopped j = p.stopped j := by
  cases p <;> rfl

@[simp] theorem exitId_afterBarrier (p : Pc B) : p.afterBarrier.exitId = p.exitId := by
  cases p <;> rfl

end Pc

namespace Wi

@[simp] theorem pc_release (w : Wi B) : w.release.pc = w.pc.afterBarrier := by
  unfold release
  cases w.pc <;> rfl

@[simp] theorem sites_release (w : Wi B) : w.release.sites = w.sites := by
  unfold release
  cases w.pc <;> rfl

end Wi

/-! ## Steps of a work-item -/

namespace Wi
variable {code : Code B} {n i : Nat} {sh sh' : Shared B}
  {w w' : Wi B} {a : Act}

/-- What a step of a work-item can do. -/
inductive Step (code : Code B) (n i : Nat) (sh : Shared B)
    (w : Wi B) : Wi B → Shared B → Prop
  | initReload (hpc : w.pc = .init) (hl : code.hasLocal = true) (hh : w.hdr ≠ 1) :
      Step code n i sh w ⟨w.hdr, .reload, w.arrived, w.passed, w.sites⟩ (sh.initCounters code n i)
  | initWait (hpc : w.pc = .init) (hh : code.hasLocal = false ∨ w.hdr = 1)
      (hb : code.initBarrier = true) :
      Step code n i sh w ⟨w.hdr, .entryBarrier, w.arrived, w.passed, w.sites⟩
        (sh.initCounters code n i)
  | initEntry (hpc : w.pc = .init) (hb : code.initBarrier = false) :
      Step code n i sh w ⟨w.hdr, .entry, w.arrived, w.passed, w.sites⟩ (sh.initCounters code n i)
  | enter (hpc : w.pc = .entry) : Step code n i sh w (w.enter code) sh
  | readRemain {j : Fin B} (hpc : w.pc = .readRemain j) :
      Step code n i sh w ⟨w.hdr, .stop2 j (sh.stop j), w.arrived, w.passed, w.sites⟩ sh
  | leave {j : Fin B} {remain : Nat} (hpc : w.pc = .atomicInc j remain) (hr : remain ≠ 0) :
      Step code n i sh w ⟨-code.nonce j, .exit, w.arrived, w.passed, w.sites⟩
        ⟨Function.update sh.stop j (sh.stop j + 1), sh.finalStop, sh.loc, sh.lvb⟩
  | pass {j : Fin B} (hpc : w.pc = .atomicInc j 0) :
      Step code n i sh w ⟨w.hdr, .orig j, w.arrived, w.passed, w.sites⟩
        ⟨Function.update sh.stop j (sh.stop j + 1), sh.finalStop, sh.loc, sh.lvb⟩
  | exitLocal (hpc : w.pc = .exit) (hl : code.hasLocal = true) :
      Step code n i sh w ⟨w.hdr, .exit1 sh.finalStop, w.arrived, w.passed, w.sites⟩ sh
  | exitPlain (hpc : w.pc = .exit) (hl : code.hasLocal = false) :
      Step code n i sh w ⟨w.hdr, .returned none false, w.arrived, w.passed, w.sites⟩ sh
  | exitDec {batch : Nat} (hpc : w.pc = .exitDec batch) :
      Step code n i sh w ⟨w.hdr, .exit2 batch (sh.finalStop - 1), w.arrived, w.passed, w.sites⟩
        ⟨sh.stop, sh.finalStop - 1, sh.loc, sh.lvb⟩
  | exitReturn {batch id : Nat} (hpc : w.pc = .exitTest batch id) (hf : sh.finalStop ≠ 0) :
      Step code n i sh w
        ⟨w.hdr, .returned (some (batch, id)) false, w.arrived, w.passed, w.sites⟩ sh
  | exitStore {batch id : Nat} (hpc : w.pc = .exitTest batch id) (hf : sh.finalStop = 0) :
      Step code n i sh w ⟨w.hdr, .store batch id, w.arrived, w.passed, w.sites⟩ sh
  | store {batch id : Nat} (hpc : w.pc = .store batch id) :
      Step code n i sh w ⟨w.hdr, .returned (some (batch, id)) true, w.arrived, w.passed, w.sites⟩
        ⟨sh.stop, sh.finalStop, sh.loc, storeAll sh.loc id batch 0 code.bufs sh.lvb⟩
  | write (hpc : w.pc = .run) (k x : Nat) (b : UInt8) : Step code n i sh w w
      ⟨sh.stop, sh.finalStop, Function.update sh.loc k (Function.update (sh.loc k) x b), sh.lvb⟩
  | suspend {h : Int} (hpc : w.pc = .run) (hc : code.case h = some .loop) :
      Step code n i sh w ⟨h, .exit, w.arrived, w.passed, w.sites⟩ sh
  | arrive {j : Fin B} (hpc : w.pc = .run) (hj : w.sites w.passed = some j) :
      Step code n i sh w ⟨w.hdr, .stop1 j, w.arrived + 1, w.passed, w.sites⟩
        ⟨Function.update sh.stop j (sh.stop j - 1), sh.finalStop, sh.loc, sh.lvb⟩
  | finish (hpc : w.pc = .run) (hs : w.sites w.passed = none) :
      Step code n i sh w ⟨0, .exit, w.arrived, w.passed, w.sites⟩ sh

/-- What the code that the compiler has added can do. -/
theorem advance_cases (h : w.advance code n i sh = some (w', sh')) :
    Step code n i sh w w' sh' := by
  cases hpc : w.pc with
  | init =>
    simp only [advance, hpc] at h
    by_cases hl : (code.hasLocal && w.hdr != 1) = true
    · rw [if_pos hl] at h
      cases h
      rw [Bool.and_eq_true, bne_iff_ne] at hl
      exact .initReload hpc hl.1 hl.2
    · rw [if_neg hl] at h
      by_cases hb : code.initBarrier = true
      · rw [if_pos hb] at h
        cases h
        refine .initWait hpc ?_ hb
        cases hc : code.hasLocal with
        | false => exact Or.inl rfl
        | true =>
          rw [hc, Bool.true_and, bne_iff_ne, Decidable.not_not] at hl
          exact Or.inr hl
      · rw [if_neg hb] at h
        cases h
        exact .initEntry hpc (Bool.eq_false_of_not_eq_true hb)
  | entry =>
    simp only [advance, hpc] at h
    cases h
    exact .enter hpc
  | readRemain j =>
    simp only [advance, hpc] at h
    cases h
    exact .readRemain hpc
  | atomicInc j remain =>
    simp only [advance, hpc] at h
    by_cases hr : remain = 0
    · subst hr
      cases h
      exact .pass hpc
    · rw [if_pos (bne_iff_ne.mpr hr)] at h
      cases h
      exact .leave hpc hr
  | exit =>
    simp only [advance, hpc] at h
    by_cases hl : code.hasLocal = true
    · rw [if_pos hl] at h
      cases h
      exact .exitLocal hpc hl
    · rw [if_neg hl] at h
      cases h
      exact .exitPlain hpc (Bool.eq_false_of_not_eq_true hl)
  | exitDec batch =>
    simp only [advance, hpc] at h
    cases h
    exact .exitDec hpc
  | exitTest batch id =>
    simp only [advance, hpc] at h
    by_cases hf : sh.finalStop = 0
    · rw [if_neg (by rw [bne_iff_ne, Decidable.not_not]; exact hf)] at h
      cases h
      exact .exitStore hpc hf
    · rw [if_pos (bne_iff_ne.mpr hf)] at h
      cases h
      exact .exitReturn hpc hf
  | store batch id =>
    simp only [advance, hpc] at h
    cases h
    exact .store hpc
  | _ =>
    simp only [advance, hpc] at h
    cases h

theorem step_cases (h : w.step code n i sh a = some (w', sh')) :
    Step code n i sh w w' sh' := by
  cases a with
  | advance => exact advance_cases h
  | write k x b =>
    simp only [step] at h
    split at h
    case isTrue hc =>
      cases h
      exact .write hc k x b
    case isFalse => cases h
  | suspend nonce =>
    simp only [step] at h
    split at h
    case isTrue hc =>
      cases h
      exact .suspend hc.1 hc.2
    case isFalse => cases h
  | arrive =>
    simp only [step] at h
    split at h
    case isTrue hc =>
      obtain ⟨j, hj, heq⟩ := Option.map_eq_some_iff.mp h
      cases heq
      exact .arrive hc hj
    case isFalse => cases h
  | finish =>
    simp only [step] at h
    split at h
    case isTrue hc =>
      cases h
      exact .finish hc.1 hc.2
    case isFalse => cases h

/-- The switch leads to the code of the kernel's author or out of the kernel. -/
theorem pc_enter (code : Code B) (w : Wi B) :
    (w.enter code).pc = .run ∨ (w.enter code).pc = .exit := by
  unfold enter
  by_cases h1 : w.hdr = 1
  · rw [if_pos h1]
    exact Or.inl rfl
  · rw [if_neg h1]
    cases code.case w.hdr with
    | none => exact Or.inr rfl
    | some c => cases c <;> exact Or.inl rfl

theorem sites_enter (w : Wi B) : (w.enter code).sites = w.sites := by
  unfold enter
  by_cases h1 : w.hdr = 1
  · rw [if_pos h1]
  · rw [if_neg h1]
    cases code.case w.hdr with
    | none => rfl
    | some c => cases c <;> rfl

/-- A step leaves the barriers that a work-item passes as they are. -/
theorem Step.sites (h : Step code n i sh w w' sh') : w'.sites = w.sites := by
  cases h with
  | enter hpc => exact w.sites_enter
  | _ => rfl

/-- `1` for a work-item that has counted itself off at the site. -/
def off (j : Fin B) (w : Wi B) : Nat := if w.pc.stopped j then 1 else 0

/-- **A step changes the counter of a site by as much as the number of work-items that
have counted themselves off there.** -/
theorem Step.stop (h : Step code n i sh w w' sh') (hi : w.pc ≠ .init)
    (hpos : ∀ j, w.pc.stopped j = false → 0 < sh.stop j) (j : Fin B) :
    sh'.stop j + w'.off j = sh.stop j + w.off j := by
  cases h with
  | initReload hpc | initWait hpc | initEntry hpc => exact (hi hpc).elim
  | enter hpc =>
    unfold off
    rcases pc_enter code w with hp | hp <;> rw [hpc, hp] <;> rfl
  | @leave j' _ hpc | @pass j' hpc =>
    unfold off
    rw [hpc]
    by_cases hj : j' = j
    · subst hj
      simp [Pc.stopped]
    · simp [Pc.stopped, hj, Function.update_of_ne (Ne.symm hj)]
  | @arrive j' hpc hj' =>
    unfold off
    by_cases hj : j' = j
    · subst hj
      have := hpos j' (by rw [hpc]; rfl)
      simp [Pc.stopped, hpc]
      omega
    · simp [Pc.stopped, hpc, hj, Function.update_of_ne (Ne.symm hj)]
  | write hpc k x b => rfl
  | readRemain hpc | exitLocal hpc | exitPlain hpc | exitDec hpc | exitReturn hpc | exitStore hpc
  | store hpc | suspend hpc | finish hpc =>
    unfold off
    rw [hpc]
    rfl

/-- **A step gives out the next smaller exit id, or none.** -/
theorem Step.exitId (h : Step code n i sh w w' sh') (hi : w.pc ≠ .init) :
    (w'.pc.exitId = w.pc.exitId ∧ sh'.finalStop = sh.finalStop) ∨
      (w.pc.exitId = none ∧ w'.pc.exitId = some (sh.finalStop - 1) ∧
        sh'.finalStop = sh.finalStop - 1) := by
  cases h with
  | initReload hpc | initWait hpc | initEntry hpc => exact (hi hpc).elim
  | enter hpc =>
    rcases pc_enter code w with hp | hp <;> rw [hpc, hp] <;> exact Or.inl ⟨rfl, rfl⟩
  | exitDec hpc =>
    rw [hpc]
    exact Or.inr ⟨rfl, rfl, rfl⟩
  | write hpc k x b => exact Or.inl ⟨rfl, rfl⟩
  | readRemain hpc | leave hpc | pass hpc | exitLocal hpc | exitPlain hpc | exitReturn hpc
  | exitStore hpc | store hpc | suspend hpc | arrive hpc | finish hpc =>
    rw [hpc]
    exact Or.inl ⟨rfl, rfl⟩

end Wi

/-! ## Steps of a group -/

namespace Group
variable {code : Code B} {g g' : Group B}

/-- A step of a work-item changes its entry and what is shared. -/
theorem step_wi {i : Nat} {a : Act} (h : g.step code (.wi i a) = some g') :
    ∃ w w' sh, g.wis[i]? = some w ∧
      Wi.Step code g.wis.length i g.shared w w' sh ∧
      g' = ⟨g.wis.set i w', sh, g.held⟩ := by
  simp only [step, Option.bind_eq_bind, Option.bind_eq_some_iff, Option.pure_def,
    Option.some_inj] at h
  obtain ⟨w, hw, ⟨w', sh⟩, hs, rfl⟩ := h
  exact ⟨w, w', sh, hw, Wi.step_cases hs, rfl⟩

theorem step_copy (h : g.step code .copy = some g') :
    (∀ w ∈ g.wis, w.pc = .reload) ∧
      g' = ⟨g.wis.map fun w => ⟨w.hdr, .entryBarrier, w.arrived, w.passed, w.sites⟩,
        ⟨g.shared.stop, g.shared.finalStop, reloadAll code.bufs g.shared.lvb g.shared.loc,
          g.shared.lvb⟩, g.held⟩ := by
  simp only [step] at h
  by_cases hall : g.wis.all (·.pc = .reload) = true
  · rw [if_pos hall] at h
    cases h
    exact ⟨fun w hw => of_decide_eq_true (List.all_eq_true.mp hall w hw), rfl⟩
  · rw [if_neg hall] at h
    cases h

theorem step_release (h : g.step code .release = some g') :
    (∀ w ∈ g.wis, w.pc.waiting = true ∨ w.pc.isReturned = true) ∧
      (∃ w ∈ g.wis, w.pc.waiting = true) ∧
        g' = ⟨g.wis.map Wi.release, g.shared, g.held⟩ := by
  simp only [step] at h
  split at h
  case isTrue hc =>
    cases h
    refine ⟨fun w hw => ?_, ?_, rfl⟩
    · have := List.all_eq_true.mp hc.1 w hw
      rwa [Bool.or_eq_true] at this
    · obtain ⟨w, hw, hwait⟩ := List.any_eq_true.mp hc.2
      exact ⟨w, hw, hwait⟩
  case isFalse => cases h

end Group

/-! ## The counters of a group -/

namespace Group

/-- The exit ids that have been given out. -/
def exitIds (g : Group B) : List Nat := g.wis.filterMap (·.pc.exitId)

/-- What the counters of a group count once they are initialised. -/
structure Counters (code : Code B) (g : Group B) : Prop where
  stop : ∀ j, g.shared.stop j + g.wis.countP (·.pc.stopped j) = g.wis.length
  ids : code.hasLocal = true → g.exitIds.Perm (List.Ico g.shared.finalStop g.wis.length)
  le : code.hasLocal = true → g.shared.finalStop ≤ g.wis.length

variable {code : Code B} {g g' : Group B}

/-- `__clpkm_final_stop` is the number of work-items without an exit id. -/
theorem Counters.length_exitIds (h : g.Counters code) (hl : code.hasLocal = true) :
    g.exitIds.length + g.shared.finalStop = g.wis.length := by
  have hlen := (h.ids hl).length_eq
  rw [List.Ico.length] at hlen
  have := h.le hl
  omega

/-- A map that leaves out an element makes a list shorter. -/
theorem length_exitIds_lt {i : Nat} {w : Wi B} (hw : g.wis[i]? = some w)
    (he : w.pc.exitId = none) : g.exitIds.length < g.wis.length := by
  have hle : g.exitIds.length ≤ g.wis.length := List.length_filterMap_le _ _
  refine Nat.lt_of_le_of_ne hle fun heq => ?_
  have hall := List.filterMap_length_eq_length.mp heq w (List.mem_of_getElem? hw)
  rw [he] at hall
  cases hall

/-- A counter at a site is positive while somebody has not counted himself off there. -/
theorem Counters.stop_pos (h : g.Counters code) {w : Wi B} (hw : w ∈ g.wis) {j : Fin B}
    (hj : w.pc.stopped j = false) : 0 < g.shared.stop j := by
  have hcount := h.stop j
  have hlt : g.wis.countP (·.pc.stopped j) < g.wis.length := by
    refine Nat.lt_of_le_of_ne List.countP_le_length fun heq => ?_
    have := List.countP_eq_length.mp heq w hw
    rw [hj] at this
    cases this
  omega

/-- It is less than the size of the group while somebody has. -/
theorem Counters.stop_lt (h : g.Counters code) {w : Wi B} (hw : w ∈ g.wis) {j : Fin B}
    (hj : w.pc.stopped j = true) : g.shared.stop j < g.wis.length := by
  have hcount := h.stop j
  have hpos : 0 < g.wis.countP (·.pc.stopped j) := List.countP_pos_iff.mpr ⟨w, hw, hj⟩
  omega

/-- `__clpkm_final_stop` is positive while somebody has no exit id. -/
theorem Counters.finalStop_pos (h : g.Counters code) (hl : code.hasLocal = true) {w : Wi B}
    (hw : w ∈ g.wis) (he : w.pc.exitId = none) : 0 < g.shared.finalStop := by
  obtain ⟨i, hi⟩ := List.mem_iff_getElem?.mp hw
  have hcount := h.length_exitIds hl
  have hlt := length_exitIds_lt hi he
  omega

/-- Every step of a work-item keeps the counters right. -/
theorem Counters.wi (h : g.Counters code) {i : Nat} {w w' : Wi B} {sh : Shared B}
    (hw : g.wis[i]? = some w) (hi : w.pc ≠ .init)
    (hs : Wi.Step code g.wis.length i g.shared w w' sh) :
    Counters code ⟨g.wis.set i w', sh, g.held⟩ := by
  have hpos : ∀ j, w.pc.stopped j = false → 0 < g.shared.stop j :=
    fun j hj => h.stop_pos (List.mem_of_getElem? hw) hj
  have hlen : (g.wis.set i w').length = g.wis.length := List.length_set
  refine ⟨fun j => ?_, fun hl => ?_, fun hl => ?_⟩
  · have hstep := hs.stop hi hpos j
    have hset := Table.countP_set (fun w : Wi B => w.pc.stopped j) hw w'
    have hold := h.stop j
    unfold Wi.off at hstep
    change sh.stop j + (g.wis.set i w').countP (·.pc.stopped j) = (g.wis.set i w').length
    rw [hlen]
    omega
  · change ((g.wis.set i w').filterMap (·.pc.exitId)).Perm
      (List.Ico sh.finalStop (g.wis.set i w').length)
    rw [hlen]
    rcases hs.exitId hi with ⟨hid, hfin⟩ | ⟨hn, hid, hfin⟩
    · rw [Table.filterMap_set_of_eq (fun w : Wi B => w.pc.exitId) hw hid, hfin]
      exact h.ids hl
    · have hle := h.le hl
      have hcount := h.length_exitIds hl
      have hlt := length_exitIds_lt hw hn
      refine (Table.filterMap_set_perm (fun w : Wi B => w.pc.exitId) hw hn hid).trans ?_
      rw [hfin, List.Ico.eq_cons (by omega)]
      apply List.Perm.cons _
      rw [Nat.sub_add_cancel (by omega)]
      exact h.ids hl
  · have hle := h.le hl
    change sh.finalStop ≤ (g.wis.set i w').length
    rw [hlen]
    rcases hs.exitId hi with ⟨_, hfin⟩ | ⟨_, _, hfin⟩ <;> omega

/-- The end of waiting at a barrier keeps the counters right. -/
theorem Counters.release (h : g.Counters code) :
    Counters code ⟨g.wis.map Wi.release, g.shared, g.held⟩ := by
  have hids : (g.wis.map Wi.release).filterMap (·.pc.exitId) = g.exitIds := by
    rw [List.filterMap_map]
    refine List.filterMap_congr fun w _ => ?_
    change w.release.pc.exitId = w.pc.exitId
    rw [Wi.pc_release, Pc.exitId_afterBarrier]
  refine ⟨fun j => ?_, fun hl => ?_, fun hl => ?_⟩
  · change g.shared.stop j + (g.wis.map Wi.release).countP (·.pc.stopped j) = _
    rw [List.countP_map, List.length_map, ← h.stop j]
    congr 1
    refine List.countP_congr fun w _ => ?_
    change w.release.pc.stopped j = true ↔ w.pc.stopped j = true
    rw [Wi.pc_release, Pc.stopped_afterBarrier]
  · change ((g.wis.map Wi.release).filterMap (·.pc.exitId)).Perm
      (List.Ico g.shared.finalStop (g.wis.map Wi.release).length)
    rw [hids, List.length_map]
    exact h.ids hl
  · change g.shared.finalStop ≤ (g.wis.map Wi.release).length
    rw [List.length_map]
    exact h.le hl

end Group
end Device
end Clpkm
