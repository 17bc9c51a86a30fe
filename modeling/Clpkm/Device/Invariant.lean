import Clpkm.Device.Release

/-!
# The invariant of a work-group

`Group.Inv` says which phase a group is in and what its counters and buffers hold in
this phase.  `Inv.step` is the step lemma: a step of a work-item stays in the phase
(`Inv.wi`), the end of `async_work_group_copy` happens before `InitBarrier`
(`Inv.copy`), and waiting at a barrier ends with the next phase (`Inv.release`).
-/

namespace Clpkm
namespace Device
open Locfefe

variable {B : Nat} {code : Code B}

/-- The live value buffer holds what local memory holds, in some of the words. -/
def Shared.Saved (code : Code B) (sh : Shared B) (loc : Nat → Bytes) (P : Nat → Prop) : Prop :=
  ∀ (k : Nat) (b : Buffer) (x : Nat), code.bufs[k]? = some b → x < b.size → P (x / 4) →
    sh.lvb (b.offset + x) = loc k x

namespace Group

/-- What holds of a group at any time of a launch. -/
inductive Inv (code : Code B) (g : Group B) : Prop
  | entry (first : Bool) (p : Nat) (loaded : Bool) (hb : code.initBarrier = true)
      (hw : ∀ w ∈ g.wis, EntryOk code first p loaded w) (hi : g.Initialised code)
      (hs : code.hasLocal = true → first = false → loaded = false →
        g.shared.Saved code g.held fun _ => True)
  | run (first : Bool) (p : Nat)
      (hw : ∀ w ∈ g.wis, RunOk code g.wis.length first p w) (hc : g.Counters code)
  | mid (p : Nat) (hw : ∀ w ∈ g.wis, MidOk code g.wis.length p g.shared.stop w)
      (hc : g.Counters code)
  | pass (p : Nat) (hw : ∀ w ∈ g.wis, PassOk p w) (hc : g.Counters code)
  | tail (p k : Nat) (hw : ∀ w ∈ g.wis, TailOk code p k w) (hc : g.Counters code)
      (hk : 0 < k) (hf : code.hasLocal = true → g.shared.finalStop = k)
  | tailDec (p k : Nat) (hw : ∀ w ∈ g.wis, TailDecOk code p k w) (hc : g.Counters code)
      (hk : 0 < k) (hkn : k ≤ g.wis.length) (hl : code.hasLocal = true)
      (hf : g.shared.finalStop ≤ k)
  | tailEnd (p k : Nat) (hw : ∀ w ∈ g.wis, TailEndOk code p k w) (hc : g.Counters code)
      (hk : 0 < k) (hkn : k ≤ g.wis.length) (hl : code.hasLocal = true)
      (hf : g.shared.finalStop = 0)
      (hm : ∀ w ∈ g.wis, ∀ batch id, w.pc = .returned (some (batch, id)) true →
        g.shared.Saved code g.shared.loc fun word => word % k = id)

variable {g g' : Group B}

/-! ## Steps of a work-item -/

theorem ordered_bufs (code : Code B) : Ordered code.bufs := ordered_buffers _ _

/-- The store of one work-item completes what it is responsible for, and keeps what the
others have stored. -/
theorem saved_store {sh : Shared B} {id k : Nat} (hid : id < k) {P : Nat → Prop}
    (hP : ∀ word, P word → word % k = id ∨
      sh.Saved code sh.loc fun word' => word' = word) :
    Shared.Saved code ⟨sh.stop, sh.finalStop, sh.loc, storeAll sh.loc id k 0 code.bufs sh.lvb⟩
      sh.loc P := by
  intro i b x hb hx hword
  change storeAll sh.loc id k 0 code.bufs sh.lvb (b.offset + x) = sh.loc i x
  rw [storeAll_apply hid (ordered_bufs code) 0 _ hb hx, Nat.zero_add]
  by_cases hmine : x / 4 % k = id
  · exact if_pos hmine
  · rw [if_neg hmine]
    exact (hP _ hword).resolve_left hmine i b x hb hx rfl

/-- **A step of a work-item stays in the phase.** -/
theorem Inv.wi (h : g.Inv code) {i : Nat} {w w' : Wi B} {sh : Shared B}
    (hw : g.wis[i]? = some w) (hs : Wi.Step code g.wis.length i g.shared w w' sh) :
    Inv code ⟨g.wis.set i w', sh, g.held⟩ := by
  have hmem : w ∈ g.wis := List.mem_of_getElem? hw
  have hlen : (g.wis.set i w').length = g.wis.length := List.length_set
  cases h with
  | entry first p loaded hb hok hi hsaved =>
    obtain ⟨hok', rfl⟩ := (hok w hmem).step hs hb
    exact .entry first p loaded hb (Table.forall_mem_set hok i hok') (hi.wi w') hsaved
  | run first p hok hc =>
    -- while the group runs nobody has counted `finalStop` down
    have hf : code.hasLocal = true → g.shared.finalStop = g.wis.length := by
      intro hl
      refine hc.finalStop_eq hl fun w hw => ?_
      have hokw := hok w hw
      unfold RunOk at hokw
      cases hpc : w.pc with
      | returned e stored =>
        rw [hpc] at hokw
        rw [hokw.2.1] at hl
        cases hl
      | exit2 _ _ | exitTest _ _ | store _ _ =>
        rw [hpc] at hokw
        exact hokw.elim
      | _ => rfl
    have hok' := (hok w hmem).step hs hf
    refine .run first p ?_ ?_
    · change ∀ w ∈ g.wis.set i w', RunOk code (g.wis.set i w').length first p w
      rw [hlen]
      exact Table.forall_mem_set hok i hok'
    · cases hb : code.initBarrier with
      | false => exact counters_of_initBarrier hb
      | true =>
        refine hc.wi hw (fun hpc => ?_) hs
        have hokw := hok w hmem
        rw [RunOk, hpc] at hokw
        exact absurd hb (by rw [hokw.1]; decide)
  | mid p hok hc =>
    have hi : w.pc ≠ .init := fun hpc => by simpa [MidOk, hpc] using hok w hmem
    have hsame : sh.stop = g.shared.stop := (hok w hmem).stop_step hs
    have hok' := (hok w hmem).step hs
    refine .mid p ?_ (hc.wi hw hi hs)
    change ∀ w ∈ g.wis.set i w', MidOk code (g.wis.set i w').length p sh.stop w
    rw [hlen]
    refine Table.forall_mem_set (fun w₁ hw₁ => ?_) i hok'
    rw [hsame]
    exact hok w₁ hw₁
  | pass p hok hc =>
    have hi : w.pc ≠ .init := fun hpc => by simpa [PassOk, hpc] using hok w hmem
    exact .pass p (Table.forall_mem_set hok i ((hok w hmem).step hs)) (hc.wi hw hi hs)
  | tail p k hok hc hk hf =>
    have hi : w.pc ≠ .init := fun hpc => by simpa [TailOk, hpc] using hok w hmem
    obtain ⟨hok', hfin⟩ := (hok w hmem).step hs hk hf
    exact .tail p k (Table.forall_mem_set hok i hok') (hc.wi hw hi hs) hk
      (fun hl => hfin.trans (hf hl))
  | tailDec p k hok hc hk hkn hl hf =>
    have hi : w.pc ≠ .init := fun hpc => by simpa [TailDecOk, hpc] using hok w hmem
    obtain ⟨hok', hfin⟩ := (hok w hmem).step hs hk hf
    exact .tailDec p k (Table.forall_mem_set hok i hok') (hc.wi hw hi hs) hk (hlen ▸ hkn) hl hfin
  | tailEnd p k hok hc hk hkn hl hf hm =>
    have hkn' := hlen ▸ hkn
    have hi : w.pc ≠ .init := fun hpc => by simpa [TailEndOk, hpc] using hok w hmem
    obtain ⟨hok', hcase⟩ := (hok w hmem).step hs hf
    have hok'' := Table.forall_mem_set hok i hok'
    have hc' := hc.wi hw hi hs
    -- the step stores nothing, or it stores the share of this work-item
    rcases hcase with ⟨rfl, hret⟩ | ⟨id, hid, hpc, rfl⟩
    · refine .tailEnd p k hok'' hc' hk hkn' hl hf (Table.forall_mem_set hm i fun batch id hpc => ?_)
      rw [hpc] at hret
      cases hret
    · refine .tailEnd p k hok'' hc' hk hkn' hl hf (Table.forall_mem_set ?_ i ?_)
      · intro w₁ hw₁ batch id₁ hpc₁
        refine saved_store hid fun word hword => Or.inr fun i b x hb hx hx4 => ?_
        exact hm w₁ hw₁ batch id₁ hpc₁ i b x hb hx (hx4 ▸ hword)
      · intro batch id₁ hpc₁
        rw [hpc] at hpc₁
        cases hpc₁
        exact saved_store hid fun word hword => Or.inl hword

/-! ## The reload -/

/-- A group with a work-item at the reload is before `InitBarrier`, in a later launch than
the first, and what is reloaded is what local memory held. -/
theorem Inv.reload (h : g.Inv code) {w : Wi B} (hw : w ∈ g.wis) (hpc : w.pc = .reload) :
    ∃ p, (∀ w ∈ g.wis, EntryOk code false p false w) ∧ g.Initialised code ∧
      code.initBarrier = true ∧ g.shared.Saved code g.held fun _ => True := by
  cases h with
  | entry first p loaded hb hok hi hs =>
    have hokw := hok w hw
    rw [EntryOk, hpc] at hokw
    obtain ⟨rfl, hl, rfl, _⟩ := hokw
    exact ⟨p, hok, hi, hb, hs hl rfl rfl⟩
  | run first p hok | mid p hok | pass p hok | tail p k hok | tailDec p k hok
  | tailEnd p k hok =>
    have hokw := hok w hw
    simp only [RunOk, MidOk, PassOk, TailOk, TailDecOk, TailEndOk, hpc] at hokw

theorem Inv.copy (h : g.Inv code) (hpos : 0 < g.wis.length) (hs : g.step code .copy = some g') :
    g'.Inv code := by
  obtain ⟨hall, rfl⟩ := step_copy hs
  have h0 : g.wis[0] ∈ g.wis := List.getElem_mem hpos
  obtain ⟨p, hok, hi, hb, _⟩ := h.reload h0 (hall _ h0)
  refine .entry false p true hb ?_ ?_ (fun _ _ hx => nomatch hx)
  · refine List.forall_mem_map.mpr fun w hw => ?_
    have hokw := hok w hw
    rw [EntryOk, hall w hw] at hokw
    exact ⟨Or.inl rfl, hokw.2.2.2.of_pc .entryBarrier⟩
  · intro i w hw hpc
    change (g.wis.map _)[i]? = some w at hw
    rw [List.getElem?_map, Option.map_eq_some_iff] at hw
    obtain ⟨w₀, hw₀, rfl⟩ := hw
    simp only [List.length_map]
    refine hi i w₀ hw₀ fun hinit => ?_
    rw [hall w₀ (List.mem_of_getElem? hw₀)] at hinit
    cases hinit

/-! ## The ends of phases -/

/-- After the middle of a launch all go on behind the barrier, all have been at the exit, or
those at barriers leave after those at the exit. -/
theorem Inv.release_mid {p : Nat}
    (hok : ∀ w ∈ g.wis, MidOk code g.wis.length p g.shared.stop w) (hc : g.Counters code)
    (hat : ∀ w ∈ g.wis, w.AtBarrier) (hwait : ∃ w ∈ g.wis, w.pc.waiting = true) :
    Inv code ⟨g.wis.map Wi.release, g.shared, g.held⟩ := by
  have hcases := fun w hw => (hok w hw).release (hat w hw)
  by_cases hall : ∃ j, g.shared.stop j = 0
  · -- nobody is missing at a site
    obtain ⟨j, hj⟩ := hall
    have hcount := hc.stop j
    rw [hj, Nat.zero_add] at hcount
    refine .pass p (List.forall_mem_map.mpr fun w hw => ?_) hc.release
    have hst := List.countP_eq_length.mp hcount w hw
    have hsg := Pc.stopping_of_stopped hst
    rcases hcases w hw with ⟨_, j', hstop, hj', hrel⟩ | ⟨hno, _⟩ | ⟨hno, _⟩
    · rw [hrel, hj' j hst]
      rw [hj' j hst] at hstop
      exact ⟨hstop, hj⟩
    · rw [hsg] at hno
      cases hno
    · rw [hsg] at hno
      cases hno
  have hmiss : ∀ j, g.shared.stop j ≠ 0 := fun j hj => hall ⟨j, hj⟩
  by_cases hk0 : g.wis.countP (·.pc.stopping) = 0
  · -- nobody has counted himself off at a site: all are at the exit
    have hnone := List.countP_eq_zero.mp hk0
    have hl : code.hasLocal = true := by
      obtain ⟨w, hw, hwt⟩ := hwait
      rcases hcases w hw with ⟨hst, _⟩ | ⟨_, hl, _⟩ | ⟨_, _, _, e, hpc, _⟩
      · exact (hnone w hw hst).elim
      · exact hl
      · rw [hpc] at hwt
        cases hwt
    have hexit : ∀ w ∈ g.wis, Settled code p w ∧ ∃ id, w.pc.exitId = some id ∧
        w.release = ⟨w.hdr, .exitTest g.wis.length id, w.arrived, w.passed, w.sites⟩ := by
      intro w hw
      rcases hcases w hw with ⟨hst, _⟩ | ⟨_, _, hset, hid⟩ | ⟨_, hl', _⟩
      · exact (hnone w hw hst).elim
      · exact ⟨hset, hid⟩
      · rw [hl] at hl'
        cases hl'
    have hpos : 0 < g.wis.length := by
      obtain ⟨w, hw, _⟩ := hwait
      exact List.length_pos_of_mem hw
    refine .tailEnd p g.wis.length (List.forall_mem_map.mpr fun w hw => ?_) hc.release hpos
      (Nat.le_of_eq (List.length_map _).symm) hl ?_ (List.forall_mem_map.mpr fun w hw => ?_)
    · obtain ⟨hset, id, hid, hrel⟩ := hexit w hw
      rw [hrel]
      exact ⟨hset.of_pc _, rfl, (hc.finalStop_le_id hl hw hid).2⟩
    · refine hc.finalStop_eq_zero hl fun w hw => ?_
      obtain ⟨_, id, hid, _⟩ := hexit w hw
      exact ⟨id, hid⟩
    · intro batch id hpc
      obtain ⟨_, id', _, hrel⟩ := hexit w hw
      rw [hrel] at hpc
      cases hpc
  · -- those that have counted themselves off at sites leave after the others
    refine .tail p _ (List.forall_mem_map.mpr fun w hw => ?_) hc.release
      (Nat.pos_of_ne_zero hk0) fun hl => ?_
    · rcases hcases w hw with ⟨_, j, hstop, _, hrel⟩ | ⟨_, hl, hset, id, _, hrel⟩ |
        ⟨_, hl, hset, e, hpc, hrel⟩
      · rw [hrel]
        exact ⟨hstop, hmiss j⟩
      · rw [hrel]
        exact ⟨hset.of_pc _, hl⟩
      · rw [hrel, TailOk, hpc]
        refine ⟨hset, rfl, fun hl' => ?_⟩
        rw [hl] at hl'
        cases hl'
    · -- everybody else has an exit id
      have hlen := hc.length_exitIds hl
      have hids : g.exitIds.length = g.wis.countP (fun w => !w.pc.stopping) := by
        rw [exitIds, List.length_filterMap_eq_countP]
        refine List.countP_congr fun w hw => ?_
        rcases hcases w hw with ⟨hst, _⟩ | ⟨hst, _, _, id, hid, _⟩ | ⟨_, hl', _⟩
        · rw [Pc.exitId_of_stopping hst, hst]
          exact Iff.rfl
        · rw [hid, hst]
          exact ⟨fun _ => rfl, fun _ => rfl⟩
        · rw [hl] at hl'
          cases hl'
      have hsum := List.length_eq_countP_add_countP (fun w : Wi B => w.pc.stopping) (l := g.wis)
      have hneg : g.wis.countP (fun w => !w.pc.stopping) =
          g.wis.countP (fun w => decide ¬w.pc.stopping = true) := by
        refine List.countP_congr fun w _ => ?_
        simp
      change g.shared.finalStop = g.wis.countP (·.pc.stopping)
      omega

/-- **Waiting at a barrier ends with the next phase.** -/
theorem Inv.release (h : g.Inv code) (hpos : 0 < g.wis.length)
    (hs : g.step code .release = some g') : g'.Inv code := by
  obtain ⟨hat, hwait, rfl⟩ := step_release hs
  cases h with
  | entry first p loaded hb hok hi hsaved =>
    refine .run first p (List.forall_mem_map.mpr fun w hw => ?_) ?_
    · exact ((hok w hw).release (hat w hw)).1
    · refine (hi.counters hpos fun w hw => ?_).release
      exact ((hok w hw).release (n := 0) (hat w hw)).2
  | run first p hok hc =>
    refine .mid p (List.forall_mem_map.mpr fun w hw => ?_) hc.release
    change MidOk code (g.wis.map Wi.release).length p _ w.release
    rw [List.length_map]
    exact (hok w hw).release (hat w hw) _
  | mid p hok hc => exact release_mid hok hc hat hwait
  | pass p hok hc =>
    exact .run false (p + 1)
      (List.forall_mem_map.mpr fun w hw => (hok w hw).release (hat w hw)) hc.release
  | tail p k hok hc hk hf =>
    -- the barrier somebody waits at is there for local memory only
    have hl : code.hasLocal = true := by
      obtain ⟨w, hw, hwt⟩ := hwait
      have hokw := hok w hw
      unfold TailOk at hokw
      cases hpc : w.pc with
      | exit1 _ =>
        rw [hpc] at hokw
        exact hokw.2.1
      | entryBarrier | stop1 _ | stop2 _ _ | orig _ | exit2 _ _ =>
        rw [hpc] at hokw
        exact hokw.elim
      | _ =>
        rw [hpc] at hwt
        cases hwt
    have hkn : k ≤ (g.wis.map Wi.release).length := by
      rw [List.length_map, ← hf hl]
      exact hc.le hl
    refine .tailDec p k (List.forall_mem_map.mpr fun w hw => ?_) hc.release hk hkn hl
      (Nat.le_of_eq (hf hl))
    refine (hok w hw).release (hat w hw) hl fun id hid => ?_
    rw [← hf hl]
    exact (hc.finalStop_le_id hl hw hid).1
  | tailDec p k hok hc hk hkn hl hf =>
    refine .tailEnd p k (List.forall_mem_map.mpr fun w hw => ?_) hc.release hk
      (by rw [List.length_map]; exact hkn) hl ?_ (List.forall_mem_map.mpr fun w hw => ?_)
    · exact ((hok w hw).release (hat w hw)).1
    · exact hc.finalStop_eq_zero hl fun w hw => ((hok w hw).release (hat w hw)).2.1
    · intro batch id hpc
      exact (((hok w hw).release (hat w hw)).2.2 _ hpc).elim
  -- behind the last barrier nobody waits
  | tailEnd p k hok hc hk hkn hl hf hm =>
    obtain ⟨w, hw, hwt⟩ := hwait
    rw [(hok w hw).not_waiting] at hwt
    cases hwt

/-- **Every step of a group keeps the invariant.** -/
theorem Inv.step (h : g.Inv code) (hpos : 0 < g.wis.length) {l : GroupLabel}
    (hs : g.step code l = some g') : g'.Inv code := by
  cases l with
  | wi i a =>
    obtain ⟨w, w', sh, hw, hstep, rfl⟩ := step_wi hs
    exact h.wi hw hstep
  | copy => exact h.copy hpos hs
  | release => exact h.release hpos hs

/-- The work-items of a group stay who they are. -/
theorem sites_step {l : GroupLabel} (hs : g.step code l = some g') :
    g'.wis.map Wi.sites = g.wis.map Wi.sites := by
  cases l with
  | wi i a =>
    obtain ⟨w, w', sh, hw, hstep, rfl⟩ := step_wi hs
    obtain ⟨hi, rfl⟩ := List.getElem?_eq_some_iff.mp hw
    refine List.ext_getElem (by simp) fun k hk hk' => ?_
    rw [List.getElem_map, List.getElem_map, List.getElem_set]
    by_cases hik : i = k
    · subst hik
      rw [if_pos rfl]
      exact hstep.sites
    · rw [if_neg hik]
  | copy =>
    obtain ⟨_, rfl⟩ := step_copy hs
    rw [List.map_map]
    rfl
  | release =>
    obtain ⟨_, _, rfl⟩ := step_release hs
    rw [List.map_map]
    exact List.map_congr_left fun w _ => w.sites_release

theorem length_step {l : GroupLabel} (hs : g.step code l = some g') :
    g'.wis.length = g.wis.length := by
  have hlen := congrArg List.length (sites_step hs)
  rwa [List.length_map, List.length_map] at hlen

end Group
end Device
end Clpkm
