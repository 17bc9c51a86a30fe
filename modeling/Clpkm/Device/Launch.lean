import Clpkm.Device.Invariant

/-!
# From launch to launch

A launch ends with every work-item suspended, stopped at the barrier behind the level of
the group, or at the end (`Inv.settled`).  With local memory it ends with the last
batch (`Inv.lastBatch`), and the live value buffer holds what local memory holds
(`Inv.saved`).  So whatever the host finds in the headers, the next launch starts with the
invariant, which holds in every reachable state (`inv_of_reachable`).
-/

namespace Clpkm
namespace Device
open Locfefe UpdateHeader

variable {B : Nat} {code : Code B}

namespace Group
variable {g g' : Group B}

/-! ## At the end of a launch -/

theorem returned_of_ended (h : g.ended = true) {w : Wi B} (hw : w ∈ g.wis) :
    ∃ e stored, w.pc = .returned e stored := by
  have hr := List.all_eq_true.mp h w hw
  cases hpc : w.pc with
  | returned e stored => exact ⟨e, stored, rfl⟩
  | _ => rw [hpc] at hr; cases hr

/-- **The headers at the end of a launch.** -/
theorem Inv.settled (h : g.Inv code) (hpos : 0 < g.wis.length) (he : g.ended = true) :
    ∃ p, ∀ w ∈ g.wis, Settled code p w := by
  cases h with
  | entry first p loaded hb hok | pass p hok =>
    -- nobody has returned
    have h0 : g.wis[0] ∈ g.wis := List.getElem_mem hpos
    obtain ⟨e, stored, hpc⟩ := returned_of_ended he h0
    have hokw := hok _ h0
    simp only [EntryOk, PassOk, hpc] at hokw
  | run first p hok | mid p hok | tail p k hok | tailDec p k hok | tailEnd p k hok =>
    refine ⟨p, fun w hw => ?_⟩
    obtain ⟨e, stored, hpc⟩ := returned_of_ended he hw
    have hokw := hok w hw
    simp only [RunOk, MidOk, TailOk, TailDecOk, TailEndOk, hpc] at hokw
    exact hokw.1

/-- A launch of a kernel with local memory ends with a last batch, which is as large as it
has read, and whose exit ids are the smallest. -/
theorem Inv.lastBatch (h : g.Inv code) (hpos : 0 < g.wis.length) (he : g.ended = true)
    (hl : code.hasLocal = true) :
    ∃ p k, (∀ w ∈ g.wis, TailEndOk code p k w) ∧ 0 < k ∧ k ≤ g.wis.length ∧
      g.exitIds.Perm (List.Ico 0 g.wis.length) ∧
        ∀ w ∈ g.wis, ∀ batch id, w.pc = .returned (some (batch, id)) true →
          g.shared.Saved code g.shared.loc fun word => word % k = id := by
  have h0 : g.wis[0] ∈ g.wis := List.getElem_mem hpos
  have hpc0 := returned_of_ended he h0
  cases h with
  | entry first p loaded hb hok | pass p hok =>
    obtain ⟨e, stored, hpc⟩ := hpc0
    have hokw := hok _ h0
    simp only [EntryOk, PassOk, hpc] at hokw
  | run first p hok | mid p hok =>
    -- without local memory only
    obtain ⟨e, stored, hpc⟩ := hpc0
    have hokw := hok _ h0
    simp only [RunOk, MidOk, hpc, hl, Bool.true_eq_false, false_and, and_false] at hokw
  | tail p k hok hc hk hf =>
    -- the second batch has not returned
    exfalso
    have hfin : g.shared.finalStop = 0 := by
      refine hc.finalStop_eq_zero hl fun w hw => ?_
      obtain ⟨e, stored, hpc⟩ := returned_of_ended he hw
      have hokw := hok w hw
      simp only [TailOk, hpc] at hokw
      obtain ⟨⟨batch, id⟩, rfl⟩ := Option.isSome_iff_exists.mp (hokw.2.2 hl)
      rw [hpc]
      exact ⟨id, rfl⟩
    have := hf hl
    omega
  | tailDec p k hok hc hk hkn hl' hf =>
    -- the second batch has not returned
    exfalso
    have hids : ∀ w ∈ g.wis, ∃ id, w.pc.exitId = some id ∧ k ≤ id := by
      intro w hw
      obtain ⟨e, stored, hpc⟩ := returned_of_ended he hw
      have hokw := hok w hw
      simp only [TailDecOk, hpc] at hokw
      obtain ⟨_, _, batch, id, rfl, hle⟩ := hokw
      rw [hpc]
      exact ⟨id, rfl, hle⟩
    have hfin := hc.finalStop_eq_zero hl fun w hw => by
      obtain ⟨id, hid, _⟩ := hids w hw
      exact ⟨id, hid⟩
    have hmem : 0 ∈ g.exitIds := by
      refine (hc.ids hl).mem_iff.mpr (List.Ico.mem.mpr ?_)
      omega
    obtain ⟨w, hw, hid⟩ := List.mem_filterMap.mp hmem
    obtain ⟨id, hid', hle⟩ := hids w hw
    rw [hid] at hid'
    cases hid'
    omega
  | tailEnd p k hok hc hk hkn hl' hf hm =>
    have hids := hc.ids hl
    rw [hf] at hids
    exact ⟨p, k, hok, hk, hkn, hids, hm⟩

/-- **At the end of a launch the live value buffer holds what local memory holds.** -/
theorem Inv.saved (h : g.Inv code) (hpos : 0 < g.wis.length) (he : g.ended = true)
    (hl : code.hasLocal = true) : g.shared.Saved code g.shared.loc fun _ => True := by
  obtain ⟨p, k, hok, hk, hkn, hids, hm⟩ := h.lastBatch hpos he hl
  intro i b x hb hx _
  -- the work-item of the last batch that is responsible for the word
  have hlt : x / 4 % k < k := Nat.mod_lt _ hk
  have hmem : x / 4 % k ∈ g.exitIds := by
    refine hids.mem_iff.mpr (List.Ico.mem.mpr ?_)
    omega
  obtain ⟨w, hw, hid⟩ := List.mem_filterMap.mp hmem
  obtain ⟨e, stored, hpc⟩ := returned_of_ended he hw
  have hokw := hok w hw
  simp only [TailEndOk, hpc] at hokw
  obtain ⟨_, batch, id, rfl, _, hno⟩ := hokw
  rw [hpc] at hid
  have hid' : id = x / 4 % k := Option.some.inj hid
  cases stored with
  | false =>
    have := hno rfl
    omega
  | true => exact hm w hw batch id hpc i b x hb hx hid'.symm

/-! ## The next launch -/

theorem wis_relaunch (f : Wi B → Int) {hs : List Int} (hf : hs = g.wis.map f)
    (junk : Shared B) :
    (g.relaunch hs junk).wis = g.wis.map fun w => ⟨f w, .init, w.arrived, w.passed, w.sites⟩ := by
  rw [hf, relaunch]
  simp only [List.zipWith_map_right, List.zipWith_self]

/-- A group whose work-items are ready starts a launch with the invariant. -/
theorem Inv.start (first : Bool) (p : Nat)
    (hw : ∀ w ∈ g.wis, w.pc = .init ∧ Ready code first p w)
    (hs : code.hasLocal = true → first = false → g.shared.Saved code g.held fun _ => True) :
    g.Inv code := by
  cases hb : code.initBarrier with
  | false =>
    refine .run first p (fun w hwm => ?_) (counters_of_initBarrier hb)
    obtain ⟨hpc, hr⟩ := hw w hwm
    rw [RunOk, hpc]
    exact ⟨hb, hr⟩
  | true =>
    refine .entry first p false hb (fun w hwm => ?_) ?_ (fun hl hf _ => hs hl hf)
    · obtain ⟨hpc, hr⟩ := hw w hwm
      rw [EntryOk, hpc]
      exact ⟨rfl, hr⟩
    · intro i w hwi hpc
      exact (hpc (hw w (List.mem_of_getElem? hwi)).1).elim

/-- **The next launch starts with the invariant.** -/
theorem Inv.relaunch (h : g.Inv code) (hpos : 0 < g.wis.length) (he : g.ended = true)
    (junk : Shared B) : (g.relaunch (released g.headers) junk).Inv code := by
  obtain ⟨p, hset⟩ := h.settled hpos he
  have hs : code.hasLocal = true →
      Shared.Saved code { junk with lvb := g.shared.lvb } g.shared.loc fun _ => True :=
    fun hl => h.saved hpos he hl
  by_cases hall : ∀ x ∈ g.headers, x < 0
  · -- all go on behind the barrier
    have hrel : released g.headers = g.wis.map fun w => -w.hdr := by
      rw [released, if_pos hall, headers, List.map_map]
      rfl
    refine Inv.start false (p + 1) ?_ (fun hl _ => hs hl)
    rw [wis_relaunch _ hrel]
    refine List.forall_mem_map.mpr fun w hw => ⟨rfl, ?_⟩
    obtain ⟨j, hj, hh, ha, hp⟩ := (hset w hw).stopped_of_neg (hall _ (List.mem_map_of_mem hw))
    exact .passing hj (by rw [hh, Int.neg_neg]) ha hp
  · have hrel : released g.headers = g.wis.map Wi.hdr := by
      rw [released, if_neg hall]
      rfl
    refine Inv.start false p ?_ (fun hl _ => hs hl)
    rw [wis_relaunch _ hrel]
    exact List.forall_mem_map.mpr fun w hw => ⟨rfl, .settled ((hset w hw).of_pc .init)⟩

theorem Initial.inv {n : Nat} (h : g.Initial n) : g.Inv code := by
  refine Inv.start true 0 (fun w hw => ?_) (fun _ hf => nomatch hf)
  obtain ⟨hh, hpc, ha, hp⟩ := h.2 w hw
  exact ⟨hpc, .fresh hh ha hp⟩

/-- `UpdateHeader` gives every work-item a header. -/
theorem released_headers (g : Group B) : ∃ f, released g.headers = g.wis.map f := by
  unfold released headers
  by_cases hall : ∀ x ∈ g.wis.map Wi.hdr, x < 0
  · exact ⟨_, (if_pos hall).trans (List.map_map ..)⟩
  · exact ⟨_, if_neg hall⟩

theorem sites_relaunch (junk : Shared B) :
    (g.relaunch (released g.headers) junk).wis.map Wi.sites = g.wis.map Wi.sites := by
  obtain ⟨f, hf⟩ := g.released_headers
  rw [wis_relaunch f hf, List.map_map]
  rfl

theorem length_relaunch (junk : Shared B) :
    (g.relaunch (released g.headers) junk).wis.length = g.wis.length := by
  obtain ⟨f, hf⟩ := g.released_headers
  rw [wis_relaunch f hf, List.length_map]

theorem headers_relaunch (junk : Shared B) :
    (g.relaunch (released g.headers) junk).headers = released g.headers := by
  obtain ⟨f, hf⟩ := g.released_headers
  rw [headers, wis_relaunch f hf, List.map_map, hf]
  rfl

end Group

/-! ## The host -/

variable {n : Nat} {s t : State B}

/-- Every group starts the next launch with the headers that `UpdateHeader` leaves. -/
theorem mem_relaunchAll (f : Group B → List Int) (gs : List (Group B))
    (hf : ∀ g ∈ gs, (f g).length = g.wis.length) (junk : Nat → Shared B) :
    ∀ g' ∈ relaunchAll gs (gs.map f).flatten junk,
      ∃ g ∈ gs, ∃ i, g' = g.relaunch (f g) (junk i) := by
  induction gs generalizing junk with
  | nil =>
    intro g' hg'
    cases hg'
  | cons g gs ih =>
    have hlen := hf g List.mem_cons_self
    rw [List.map_cons, List.flatten_cons, relaunchAll, List.take_left' hlen, List.drop_left' hlen]
    refine List.forall_mem_cons.mpr ⟨⟨g, List.mem_cons_self, 0, rfl⟩, fun g' hg' => ?_⟩
    obtain ⟨g₀, hg₀, i, rfl⟩ := ih (fun g hg => hf g (List.mem_cons_of_mem _ hg)) _ g' hg'
    exact ⟨g₀, List.mem_cons_of_mem g hg₀, i + 1, rfl⟩

/-- What holds of all groups in every reachable state. -/
structure State.Inv (code : Code B) (n : Nat) (s : State B) : Prop where
  pos : 0 < n
  groups : ∀ g ∈ s.groups, g.wis.length = n ∧ g.Inv code

/-- **What the host does after a launch**: it aborts because work-items of a group have
stopped at different barriers, finds that all headers are 0, or begins the next launch of
every group. -/
theorem State.Inv.resumeOrFinish (h : s.Inv code n) (junk : Nat → Shared B) :
    (Device.resumeOrFinish n s junk = { s with aborted := true } ∧
        ∃ g ∈ s.groups, ¬OneBarrier g.headers) ∨
      (Device.resumeOrFinish n s junk = { s with finished := true } ∧
        ∀ g ∈ s.groups, ∀ x ∈ g.headers, x = 0) ∨
      ∃ gs, Device.resumeOrFinish n s junk = { s with groups := gs } ∧
        ∀ g' ∈ gs, ∃ g ∈ s.groups, ∃ i, g' = g.relaunch (released g.headers) (junk i) := by
  have hlen : ∀ hs ∈ s.groups.map Group.headers, hs.length = n :=
    List.forall_mem_map.mpr fun g hg => (List.length_map _).trans (h.groups g hg).1
  by_cases hone : ∃ g ∈ s.groups, ¬OneBarrier g.headers
  · refine Or.inl ⟨?_, hone⟩
    cases hup : updateHeader n (s.groups.map Group.headers).flatten with
    | error e => simp only [Device.resumeOrFinish, hup]
    | ok r =>
      obtain ⟨g, hg, hne⟩ := hone
      exact (hne (oneBarrier_of_updateHeader h.pos hlen hup _ (List.mem_map_of_mem hg))).elim
  have hgs : ∀ hs ∈ s.groups.map Group.headers, hs.length = n ∧ OneBarrier hs := by
    refine fun hs hmem => ⟨hlen hs hmem, ?_⟩
    obtain ⟨g, hg, rfl⟩ := List.mem_map.mp hmem
    by_contra hne
    exact hone ⟨g, hg, hne⟩
  obtain ⟨progress, hup, hzero, hneg⟩ := updateHeader_flatten h.pos hgs
  by_cases h0 : progress = 0
  · refine Or.inr (Or.inl ⟨?_, ?_⟩)
    · simp only [Device.resumeOrFinish, hup, if_pos h0]
    · intro g hg x hx
      exact hzero.mp h0 _ (List.mem_map_of_mem hg) x hx
  · refine Or.inr (Or.inr ⟨relaunchAll s.groups
      (s.groups.map fun g => released g.headers).flatten junk, ?_, ?_⟩)
    · -- the headers that are not written back have not changed
      have hsame : (if progress < 0 then ((s.groups.map Group.headers).map released).flatten
          else (s.groups.map Group.headers).flatten) =
            (s.groups.map fun g => released g.headers).flatten := by
        rw [List.map_map]
        by_cases hlt : progress < 0
        · rw [if_pos hlt]
          rfl
        · rw [if_neg hlt]
          have hid : (s.groups.map Group.headers).map released = s.groups.map Group.headers := by
            by_contra hne
            exact hlt (hneg hne)
          rw [List.map_map] at hid
          exact congrArg List.flatten hid.symm
      simp only [Device.resumeOrFinish, hup, if_neg h0, hsame]
    · exact mem_relaunchAll _ _ (fun g _ => by simp [Group.headers]) junk

theorem State.Inv.host (h : s.Inv code n) (he : ∀ g ∈ s.groups, g.ended = true)
    (junk : Nat → Shared B) : (Device.resumeOrFinish n s junk).Inv code n := by
  rcases h.resumeOrFinish junk with ⟨heq, _⟩ | ⟨heq, _⟩ | ⟨gs, heq, hgs⟩
  · rw [heq]
    exact ⟨h.pos, h.groups⟩
  · rw [heq]
    exact ⟨h.pos, h.groups⟩
  · rw [heq]
    refine ⟨h.pos, fun g' hg' => ?_⟩
    obtain ⟨g, hg, i, rfl⟩ := hgs g' hg'
    obtain ⟨hlen, hi⟩ := h.groups g hg
    exact ⟨(Group.length_relaunch _).trans hlen,
      hi.relaunch (hlen ▸ h.pos) (he g hg) (junk i)⟩

/-- The steps of the machine. -/
theorem machine_step {l : Label B} (hs : (machine code n).step s l = some t) :
    (∃ i l' g g', l = .device i l' ∧ s.groups[i]? = some g ∧ g.step code l' = some g' ∧
        t = { s with groups := s.groups.set i g' }) ∨
      ∃ junk, l = .host junk ∧ (∀ g ∈ s.groups, g.ended = true) ∧
        t = resumeOrFinish n s junk := by
  cases l with
  | device i l' =>
    simp only [machine] at hs
    split at hs
    case isTrue => cases hs
    case isFalse =>
      simp only [Option.bind_eq_bind, Option.bind_eq_some_iff, Option.pure_def,
        Option.some_inj] at hs
      obtain ⟨g, hg, g', hg', rfl⟩ := hs
      exact Or.inl ⟨i, l', g, g', rfl, hg, hg', rfl⟩
  | host junk =>
    simp only [machine] at hs
    split at hs
    case isTrue => cases hs
    case isFalse hc =>
      cases hs
      simp only [Bool.or_eq_true, not_or, Bool.not_eq_true', Bool.not_eq_false,
        List.all_eq_true] at hc
      exact Or.inr ⟨junk, rfl, hc.2, rfl⟩

theorem State.Inv.step (h : s.Inv code n) {l : Label B}
    (hs : (machine code n).step s l = some t) : t.Inv code n := by
  rcases machine_step hs with ⟨i, l', g, g', _, hg, hg', rfl⟩ | ⟨junk, _, he, rfl⟩
  · obtain ⟨hlen, hi⟩ := h.groups g (List.mem_of_getElem? hg)
    exact ⟨h.pos, Table.forall_mem_set h.groups i
      ⟨(Group.length_step hg').trans hlen, hi.step (hlen ▸ h.pos) hg'⟩⟩
  · exact h.host he junk

theorem State.Inv.initial (h : (machine code n).Initial s) : s.Inv code n := by
  obtain ⟨hpos, hgs, _, _⟩ := h
  exact ⟨hpos, fun g hg => ⟨(hgs g hg).1, (hgs g hg).inv⟩⟩

/-- **The invariant holds in every reachable state.** -/
theorem inv_of_reachable (hs : (machine code n).Reachable s) : s.Inv code n :=
  hs.invariant (fun _ h0 => .initial h0) fun _ _ _ hi h => hi.step h

/-! ## The range of the counters -/

/-- Behind the start of a launch the counters count. -/
theorem Group.Inv.counters {g : Group B} (h : g.Inv code) {w : Wi B} (hw : w ∈ g.wis)
    (hpc : w.pc ≠ .init ∧ w.pc ≠ .reload ∧ w.pc ≠ .entryBarrier) : g.Counters code := by
  cases h with
  | entry first p loaded hb hok =>
    have hokw := hok w hw
    unfold EntryOk at hokw
    split at hokw
    · exact absurd ‹_› hpc.1
    · exact absurd ‹_› hpc.2.1
    · exact absurd ‹_› hpc.2.2
    · exact hokw.elim
  | run first p hok hc | mid p hok hc | pass p hok hc | tail p k hok hc | tailDec p k hok hc
  | tailEnd p k hok hc => exact hc

/-- Only in a kernel that has local memory to save do work-items count themselves off once more. -/
theorem Group.Inv.hasLocal {g : Group B} (h : g.Inv code) {w : Wi B} (hw : w ∈ g.wis)
    {batch : Nat} (hpc : w.pc = .exitDec batch) : code.hasLocal = true := by
  cases h with
  | tailDec p k hok hc hk hkn hl => exact hl
  | tailEnd p k hok hc hk hkn hl => exact hl
  | mid p hok =>
    have hokw := hok w hw
    rw [MidOk, hpc] at hokw
    exact hokw.2.1
  | entry first p loaded hb hok | run first p hok | pass p hok | tail p k hok =>
    have hokw := hok w hw
    simp only [EntryOk, RunOk, PassOk, TailOk, hpc] at hokw

/-- **The counters stay in their range.**  A work-item that counts itself off finds a positive
counter, and one that takes this back finds one that is less than the size of the group.  So the
counters of 32 bits of a group of less than 2^32 work-items never wrap around. -/
theorem counters_in_range (hs : (machine code n).Reachable s) {g : Group B} (hg : g ∈ s.groups)
    {w : Wi B} (hw : w ∈ g.wis) :
    (w.pc = .run → ∀ j, 0 < g.shared.stop j ∧ g.shared.stop j ≤ n) ∧
      (∀ j remain, w.pc = .atomicInc j remain → g.shared.stop j < n) ∧
      ∀ batch, w.pc = .exitDec batch → 0 < g.shared.finalStop ∧ g.shared.finalStop ≤ n := by
  obtain ⟨hlen, hi⟩ := (inv_of_reachable hs).groups g hg
  refine ⟨fun hpc j => ?_, fun j remain hpc => ?_, fun batch hpc => ?_⟩
  · have hc := hi.counters hw (by rw [hpc]; exact ⟨nofun, nofun, nofun⟩)
    have hcount := hc.stop j
    exact ⟨hc.stop_pos hw (by rw [hpc]; rfl), by omega⟩
  · have hc := hi.counters hw (by rw [hpc]; exact ⟨nofun, nofun, nofun⟩)
    exact hlen ▸ hc.stop_lt hw (by rw [hpc]; exact decide_eq_true rfl)
  · have hc := hi.counters hw (by rw [hpc]; exact ⟨nofun, nofun, nofun⟩)
    have hl := hi.hasLocal hw hpc
    exact ⟨hc.finalStop_pos hl hw (by rw [hpc]; rfl), hlen ▸ hc.le hl⟩

end Device
end Clpkm
