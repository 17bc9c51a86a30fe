import Clpkm.Device.Launch

/-!
# Local memory survives a suspension

`Group.Survives` is what a kernel that has local memory needs of the code around it: the
whole group reloads or nobody does, one batch of work-items saves when nobody else
touches local memory any more, this batch shares the work as it should, and what is
reloaded is what local memory held at the end of the launch before.
`local_memory_survives` says that it holds in every state that device and host can reach,
for kernels that are not barrier-uniform as well.
-/

namespace Clpkm
namespace Device
open Locfefe UpdateHeader

variable {B : Nat} {code : Code B}

namespace Pc

/-- Before the switch on the header. -/
def entering : Pc B → Bool
  | init | reload | entryBarrier | entry => true
  | _ => false

/-- Behind the last barrier, where nobody but `__clpkm_store_local` uses local memory. -/
def leaving : Pc B → Bool
  | exitTest _ _ | store _ _ | returned _ _ => true
  | _ => false

/-- The batch size and exit id of a work-item that stores or has stored. -/
def storing : Pc B → Option (Nat × Nat)
  | store batch id => some (batch, id)
  | returned e true => e
  | _ => none

end Pc

namespace Group

/-- The exit ids of the work-items that store or have stored. -/
def storingIds (g : Group B) : List Nat := g.wis.filterMap fun w => w.pc.storing.map Prod.snd

/-- What a group with local memory relies on. -/
structure Survives (code : Code B) (g : Group B) : Prop where
  /-- all or none have header 1 at the start of a launch -/
  header : ∀ w ∈ g.wis, ∀ w' ∈ g.wis, w.pc.entering = true → w'.pc.entering = true →
    (w.hdr = 1 ↔ w'.hdr = 1)
  /-- who reloads waits for work-items that have come there or will -/
  reload : ∀ w ∈ g.wis, w.pc = .reload →
    ∀ w' ∈ g.wis, w'.hdr ≠ 1 ∧ (w'.pc = .init ∨ w'.pc = .reload)
  /-- who has reloaded has done so together with all others -/
  reloaded : ∀ w ∈ g.wis, w.pc = .entryBarrier → w.hdr ≠ 1 → ∀ w' ∈ g.wis, w'.pc = .entryBarrier
  /-- when somebody stores, all have left the code of the kernel's author -/
  quiet : ∀ w ∈ g.wis, w.pc.storing.isSome = true → ∀ w' ∈ g.wis, w'.pc.leaving = true
  /-- those who store are of one batch -/
  batch : ∃ k, ∀ w ∈ g.wis, ∀ batch id, w.pc.storing = some (batch, id) → batch = k
  /-- at the end of a launch this batch has stored, and its exit ids are a permutation -/
  stored : g.ended = true → ∃ k, 0 < k ∧
    (∀ w ∈ g.wis, ∀ batch id, w.pc.storing = some (batch, id) → batch = k) ∧
      g.storingIds.Perm (List.range k)
  /-- what is reloaded is what local memory held at the end of the last launch -/
  copy : ∀ g', g.step code .copy = some g' → ∀ (i : Nat) (b : Buffer) (x : Nat),
    code.bufs[i]? = some b → x < b.size → g'.shared.loc i x = g.held i x

variable {g g' : Group B}

/-! ## The start of a launch -/

/-- Before the switch on the header, the header says whether this is the first launch. -/
theorem Inv.ready (h : g.Inv code) :
    ∃ first p, ∀ w ∈ g.wis, w.pc.entering = true → Ready code first p w := by
  cases h with
  | entry first p loaded hb hok => exact ⟨first, p, fun w hw _ => (hok w hw).ready⟩
  | run first p hok =>
    refine ⟨first, p, fun w hw he => ?_⟩
    have hokw := hok w hw
    unfold RunOk at hokw
    cases hpc : w.pc with
    | init =>
      rw [hpc] at hokw
      exact hokw.2
    | entry =>
      rw [hpc] at hokw
      exact hokw
    | reload | entryBarrier =>
      rw [hpc] at hokw
      exact hokw.elim
    | _ =>
      rw [hpc] at he
      cases he
  | mid p hok | pass p hok | tail p k hok | tailDec p k hok | tailEnd p k hok =>
    -- all are behind the switch
    refine ⟨true, 0, fun w hw he => ?_⟩
    have hokw := hok w hw
    cases hpc : w.pc with
    | init | reload | entryBarrier | entry =>
      simp only [MidOk, PassOk, TailOk, TailDecOk, TailEndOk, hpc] at hokw
    | _ =>
      rw [hpc] at he
      cases he

/-- A group with a work-item at the reload has not begun to leave it. -/
theorem Inv.all_reload (h : g.Inv code) (hl : code.hasLocal = true) {w : Wi B} (hw : w ∈ g.wis)
    (hpc : w.pc = .reload) : ∀ w' ∈ g.wis, w'.hdr ≠ 1 ∧ (w'.pc = .init ∨ w'.pc = .reload) := by
  obtain ⟨p, hok, _⟩ := h.reload hw hpc
  intro w' hw'
  have hh : w'.hdr ≠ 1 := fun h1 => nomatch (hok w' hw').ready.hdr_eq_one_iff.mp h1
  refine ⟨hh, ?_⟩
  have hokw := hok w' hw'
  unfold EntryOk at hokw
  cases hpc' : w'.pc with
  | init => exact Or.inl rfl
  | reload => exact Or.inr rfl
  | entryBarrier =>
    rw [hpc', hl] at hokw
    rcases hokw.1 with hx | hx | hx <;> cases hx
  | _ =>
    rw [hpc'] at hokw
    exact hokw.elim

/-- In a later launch than the first, the work-items come to `InitBarrier` together. -/
theorem Inv.all_reloaded (h : g.Inv code) (hl : code.hasLocal = true) {w : Wi B}
    (hw : w ∈ g.wis) (hpc : w.pc = .entryBarrier) (hh : w.hdr ≠ 1) :
    ∀ w' ∈ g.wis, w'.pc = .entryBarrier := by
  cases h with
  | entry first p loaded hb hok =>
    have hokw := hok w hw
    have hfirst : first = false :=
      Bool.eq_false_of_not_eq_true fun hf => hh (hokw.ready.hdr_eq_one_iff.mpr hf)
    have hloaded : loaded = true := by
      rw [EntryOk, hpc, hl, hfirst] at hokw
      rcases hokw.1 with hx | hx | hx
      · exact hx
      · cases hx
      · cases hx
    intro w' hw'
    have hokw' := hok w' hw'
    unfold EntryOk at hokw'
    cases hpc' : w'.pc with
    | entryBarrier => rfl
    | init | reload =>
      rw [hpc', hloaded] at hokw'
      cases hokw'.1
    | _ =>
      rw [hpc'] at hokw'
      exact hokw'.elim
  | run first p hok | mid p hok | pass p hok | tail p k hok | tailDec p k hok
  | tailEnd p k hok =>
    have hokw := hok w hw
    simp only [RunOk, MidOk, PassOk, TailOk, TailDecOk, TailEndOk, hpc] at hokw

/-- **What is reloaded** is what local memory held when the last launch ended. -/
theorem Inv.copy_eq_held (h : g.Inv code) (hpos : 0 < g.wis.length)
    (hs : g.step code .copy = some g') {i : Nat} {b : Buffer} {x : Nat}
    (hb : code.bufs[i]? = some b) (hx : x < b.size) : g'.shared.loc i x = g.held i x := by
  obtain ⟨hall, rfl⟩ := step_copy hs
  have h0 : g.wis[0] ∈ g.wis := List.getElem_mem hpos
  obtain ⟨_, _, _, _, hsaved⟩ := h.reload h0 (hall _ h0)
  exact (reloadAll_apply hb hx).trans (hsaved i b x hb hx trivial)

/-! ## The end of a launch -/

/-- Somebody stores in the last phase of a launch only. -/
theorem Inv.tailEnd_of_storing (h : g.Inv code) {w : Wi B} (hw : w ∈ g.wis)
    (hst : w.pc.storing.isSome = true) : ∃ p k, ∀ w ∈ g.wis, TailEndOk code p k w := by
  cases h with
  | tailEnd p k hok => exact ⟨p, k, hok⟩
  | entry first p loaded hb hok | run first p hok | mid p hok | pass p hok | tail p k hok
  | tailDec p k hok =>
    exfalso
    have hokw := hok w hw
    cases hpc : w.pc with
    | store batch id => simp only [EntryOk, RunOk, MidOk, PassOk, TailOk, TailDecOk, hpc] at hokw
    | returned e stored =>
      cases stored with
      | false =>
        rw [hpc] at hst
        cases hst
      | true =>
        simp only [EntryOk, RunOk, MidOk, PassOk, TailOk, TailDecOk, hpc, Bool.true_eq_false,
          false_and, and_false] at hokw
    | _ =>
      rw [hpc] at hst
      cases hst

/-- Those who store are of the last batch. -/
theorem batch_eq {p k : Nat} {w : Wi B} (h : TailEndOk code p k w) {batch id : Nat}
    (hst : w.pc.storing = some (batch, id)) : batch = k ∧ id < k := by
  unfold TailEndOk at h
  cases hpc : w.pc with
  | store batch id =>
    rw [hpc] at h hst
    cases hst
    exact h.2
  | returned e stored =>
    rw [hpc] at h hst
    obtain ⟨_, batch', id', rfl, hyes, _⟩ := h
    cases stored with
    | false => cases hst
    | true =>
      cases hst
      exact hyes rfl
  | _ =>
    rw [hpc] at hst
    cases hst

/-- When somebody stores, all have left the code of the kernel's author. -/
theorem Inv.quiet (h : g.Inv code) {w : Wi B} (hw : w ∈ g.wis)
    (hst : w.pc.storing.isSome = true) : ∀ w' ∈ g.wis, w'.pc.leaving = true := by
  obtain ⟨p, k, hok⟩ := h.tailEnd_of_storing hw hst
  intro w' hw'
  have hokw := hok w' hw'
  unfold TailEndOk at hokw
  cases hpc : w'.pc with
  | exitTest _ _ | store _ _ | returned _ _ => rfl
  | _ =>
    rw [hpc] at hokw
    exact hokw.elim

theorem Inv.batch (h : g.Inv code) :
    ∃ k, ∀ w ∈ g.wis, ∀ batch id, w.pc.storing = some (batch, id) → batch = k := by
  by_cases hst : ∃ w ∈ g.wis, w.pc.storing.isSome = true
  · obtain ⟨w, hw, hst⟩ := hst
    obtain ⟨p, k, hok⟩ := h.tailEnd_of_storing hw hst
    exact ⟨k, fun w' hw' batch id hst' => (batch_eq (hok w' hw') hst').1⟩
  · refine ⟨0, fun w hw batch id hst' => (hst ⟨w, hw, ?_⟩).elim⟩
    rw [hst']
    rfl

/-- **The last batch** is as large as it has read, and its exit ids are the smallest. -/
theorem Inv.stored (h : g.Inv code) (hpos : 0 < g.wis.length) (he : g.ended = true)
    (hl : code.hasLocal = true) :
    ∃ k, 0 < k ∧ (∀ w ∈ g.wis, ∀ batch id, w.pc.storing = some (batch, id) → batch = k) ∧
      g.storingIds.Perm (List.range k) := by
  obtain ⟨p, k, hok, hk, hkn, hids, _⟩ := h.lastBatch hpos he hl
  refine ⟨k, hk, fun w hw batch id hst => (batch_eq (hok w hw) hst).1, ?_⟩
  -- those who have stored are those whose exit id is smaller than the batch
  have hst : g.storingIds = g.exitIds.filter (· < k) := by
    rw [exitIds, List.filter_filterMap]
    refine List.filterMap_congr fun w hw => ?_
    obtain ⟨e, stored, hpc⟩ := returned_of_ended he hw
    have hokw := hok w hw
    simp only [TailEndOk, hpc] at hokw
    obtain ⟨_, batch, id, rfl, hyes, hno⟩ := hokw
    rw [hpc]
    cases stored with
    | false =>
      have hle := hno rfl
      change none = (some id).filter (· < k)
      rw [Option.filter_some, decide_eq_false (by omega)]
      rfl
    | true =>
      have hlt := (hyes rfl).2
      change some id = (some id).filter (· < k)
      rw [Option.filter_some, decide_eq_true hlt]
      rfl
  have hfilter := hids.filter (· < k)
  rw [List.Ico.filter_lt, List.Ico.zero_bot, Nat.min_eq_right hkn] at hfilter
  rw [hst]
  exact hfilter

/-- **The invariant gives what a group with local memory relies on.** -/
theorem Inv.survives (h : g.Inv code) (hpos : 0 < g.wis.length) (hl : code.hasLocal = true) :
    g.Survives code where
  header w hw w' hw' he he' := by
    obtain ⟨first, p, hready⟩ := h.ready
    rw [(hready w hw he).hdr_eq_one_iff, (hready w' hw' he').hdr_eq_one_iff]
  reload w hw hpc := h.all_reload hl hw hpc
  reloaded w hw hpc hh := h.all_reloaded hl hw hpc hh
  quiet w hw hst := h.quiet hw hst
  batch := h.batch
  stored he := h.stored hpos he hl
  copy _ hs _ _ _ hb hx := h.copy_eq_held hpos hs hb hx

end Group

/-! ## All launches -/

variable {n : Nat} {s : State B}

/-- **Local memory survives.**  In every state that a kernel with local memory and the host
can reach, every group has what it relies on. -/
theorem local_memory_survives (hs : (machine code n).Reachable s) (hl : code.hasLocal = true) :
    ∀ g ∈ s.groups, g.Survives code := by
  intro g hg
  have hi := inv_of_reachable hs
  obtain ⟨hlen, hinv⟩ := hi.groups g hg
  exact hinv.survives (hlen ▸ hi.pos) hl

/-! ## A kernel with 5 bytes of local memory -/

namespace LoopBarrier

/-- Work-item 0 writes the last byte and is suspended, work-item 1 stops at the barrier and
is the last batch. -/
def launchLocal : List GroupLabel :=
  both ++ .release :: both ++
    [.wi 0 (.write 0 4 9), .wi 0 (.suspend 2), .wi 0 .advance, .wi 1 .arrive, .release] ++
    both ++ .release :: both ++
    [.wi 1 .advance, .release, .wi 1 .advance, .release, .wi 1 .advance, .wi 1 .advance]

/-- The end of the launch. -/
def stored : State 1 :=
  ((machine (kernel [5]) 2).run start (launchLocal.map (.device 0))).get (by decide)

/-- In the next launch both work-items have come to the reload. -/
def reloading : State 1 :=
  ((machine (kernel [5]) 2).run stored
    (.host (fun _ => junk) :: both.map (.device 0))).get (by decide)

/-- Local memory holds anything before the reload, and the byte that work-item 0 has written
after it. -/
theorem local_memory_survives_reload :
    stored.groups.map Group.storingIds = [[0]] ∧
      (∀ g ∈ reloading.groups, g.Survives (kernel [5])) ∧
      reloading.groups.map (·.shared.loc 0 4) = [7] ∧
      (reloading.groups.map fun g => (g.step (kernel [5]) .copy).map (·.shared.loc 0 4)) =
        [some 9] := by
  have hs : (machine (kernel [5]) 2).Reachable stored :=
    Machine.reachable_of_run (initial_start [5]).1 (Option.some_get _).symm
  have hr : (machine (kernel [5]) 2).Reachable reloading := hs.run (Option.some_get _).symm
  exact ⟨by decide, local_memory_survives hr (by decide), by decide, by decide⟩

end LoopBarrier
end Device
end Clpkm
