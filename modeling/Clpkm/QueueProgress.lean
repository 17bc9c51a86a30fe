import Clpkm.TaskBlocker
import Mathlib.Logic.Relation

/-!
# An in-order queue does not get stuck

The order of a queue is kept by events that wait for one another: a call waits for the
`Final` event of its predecessor, and `Final` waits for a callback that itself waits for
commands created long after the call.  `Awaits` is the relation of what has to be settled
first.  It follows the wait lists, and from `Final` to the read of the last slice.

The identifiers alone do not show that it ends, since the read of a slice is younger than
`Final`.  But the commands of a further slice wait for nothing older than the slice, and the
kernel of the first slice waits only for what was there before `Final`; this is `SliceOk`.
Hence a chain of pending events ends at one that can move at once, or outside the queue, and
since each slice adds at most three commands the moves themselves come to an end.
-/

namespace Clpkm
namespace TaskBlocker
open EventTable

variable {s t : State} {es es' : List (Event Owner)} {moved : Nat → Prop}

/-! ## Who may wait for whom -/

/-- An event the caller can have: one from elsewhere or that of a call that succeeded. -/
def Visible (s : State) (w : Nat) : Prop :=
  s.events[w]?.bind Event.owner = some .foreign ∨ ∃ c ∈ s.calls, c.final = w

instance (s : State) (w : Nat) : Decidable (Visible s w) := inferInstanceAs (Decidable (_ ∨ _))

/-- The wait list of a call holds events that the caller can have. -/
def Respects (s : State) : Label → Prop
  | .reorder waits _ => ∀ w ∈ waits, Visible s w
  | .launch waits _ => ∀ w ∈ waits, Visible s w
  | _ => True

instance (s : State) (l : Label) : Decidable (Respects s l) := by
  cases l <;> unfold Respects <;> infer_instance

/-- A `Final` event is that of a launch whose callback is going to settle it. -/
def Settler (es : List (Event Owner)) (works : List Work) (w : Nat) : Prop :=
  ∀ v, es[w]?.bind Event.owner = some (.final v) → ∃ work, works[v]? = some work ∧ work.final = w

/-- The kernel of a slice waits for what was there before `Final`, or for a command that waits
for nothing; and a callback that is done has settled `Final`. -/
structure SliceOk (es : List (Event Owner)) (work : Work) : Prop where
  kernel : ∀ p ∈ work.slices, ∀ e, es[p.1]? = some e → ∀ w ∈ e.waits,
    w < work.final ∨ ∃ f, es[w]? = some f ∧ f.owner = none ∧ f.waits = []
  settled : work.active = false → ¬ Pending es work.final

/-- What is always true of the wait lists. -/
structure WaitsOk (s : State) : Prop where
  below : ∀ (id : Nat) (e : Event Owner), s.events[id]? = some e → ∀ w ∈ e.waits, w < id
  settler : ∀ (id : Nat) (e : Event Owner), s.events[id]? = some e →
    ∀ w ∈ e.waits, Settler s.events s.works w
  idle : ∀ (id : Nat) (e : Event Owner), s.events[id]? = some e → e.owner ≠ none →
    e.status ≠ .running
  slices : ∀ (v : Nat) (work : Work), s.works[v]? = some work → SliceOk s.events work

/-- What the caller can have exists, and somebody settles it. -/
theorem Inv.visible (h : Inv s) {w : Nat} (hw : Visible s w) :
    w < s.events.length ∧ Settler s.events s.works w := by
  rcases hw with hw | ⟨c, hc, rfl⟩
  · obtain ⟨e, he, _⟩ := Option.bind_eq_some_iff.mp hw
    refine ⟨(List.getElem?_eq_some_iff.mp he).1, fun v hv => ?_⟩
    rw [hw] at hv
    cases hv
  · have hok := h.calls c hc
    cases hwork : c.work with
    | none =>
      obtain ⟨e, he, ho, _⟩ := hok.first
      rw [hok.command hwork]
      refine ⟨(List.getElem?_eq_some_iff.mp he).1, fun v hv => ?_⟩
      rw [he, Option.bind_some, ho] at hv
      cases hv
    | some v =>
      obtain ⟨work, hv, hfinal, _⟩ := hok.kernel v hwork
      obtain ⟨e, he, ho⟩ := (h.works v work hv).final
      rw [hfinal] at he
      refine ⟨(List.getElem?_eq_some_iff.mp he).1, fun v' hv' => ?_⟩
      rw [he, Option.bind_some, ho, Option.some.injEq, Owner.final.injEq] at hv'
      exact ⟨work, hv' ▸ hv, hfinal⟩

/-- So does `TaskBlocker`. -/
theorem Inv.visible_blocker (h : Inv s) {w : Nat} (hw : w ∈ s.taskBlocker.toList) :
    Visible s w := by
  rw [h.blocker, Option.mem_toList] at hw
  split at hw
  · obtain ⟨c, hc, hfinal⟩ := Option.map_eq_some_iff.mp hw
    exact Or.inr ⟨c, List.mem_of_getLast? hc, hfinal⟩
  · cases hw

/-! ## Steps that create no event -/

theorem Settler.moves {works : List Work} {w : Nat} (h : Settler es works w)
    (hmoves : MovesTo es es') : Settler es' works w := by
  intro v hv
  obtain ⟨e', he', ho⟩ := Option.bind_eq_some_iff.mp hv
  obtain ⟨e, he, howner, _⟩ := hmoves.2 w e' he'
  refine h v ?_
  rw [he, Option.bind_some, ← howner]
  exact ho

theorem SliceOk.moves {work : Work} (h : SliceOk es work) (hext : Extends moved es es')
    (hmoves : MovesTo es es') : SliceOk es' work where
  kernel := by
    intro p hp e' he' w hw
    obtain ⟨e, he, _, hwaits, _⟩ := hmoves.2 p.1 e' he'
    rcases h.kernel p hp e he w (hwaits ▸ hw) with hlt | ⟨f, hf, ho, hnil⟩
    · exact Or.inl hlt
    · obtain ⟨f', hf', ho', hwaits', _⟩ := hext w f hf
      exact Or.inr ⟨f', hf', ho'.trans ho, hwaits'.trans hnil⟩
  settled ha hp := h.settled ha (hmoves.pending hp)

theorem WaitsOk.moveEvents (h : WaitsOk s) (hext : Extends moved s.events es')
    (hmoves : MovesTo s.events es') : WaitsOk { s with events := es' } where
  below := by
    intro id e' he' w hw
    obtain ⟨e, he, _, hwaits, _⟩ := hmoves.2 id e' he'
    exact h.below id e he w (hwaits ▸ hw)
  settler := by
    intro id e' he' w hw
    obtain ⟨e, he, _, hwaits, _⟩ := hmoves.2 id e' he'
    exact (h.settler id e he w (hwaits ▸ hw)).moves hmoves
  idle := by
    intro id e' he' ho hrun
    obtain ⟨e, he, howner, _, _, hback⟩ := hmoves.2 id e' he'
    rw [howner] at ho
    exact h.idle id e he ho (hback ho hrun)
  slices v work hv := (h.slices v work hv).moves hext hmoves

/-! ## New events and works -/

theorem get_old {l : List (Event Owner)} {id : Nat} (hlt : id < es.length) :
    (es ++ l)[id]? = es[id]? := List.getElem?_append_left hlt

theorem SliceOk.append {v : Nat} {work : Work} (h : SliceOk es work) (hok : WorkOk es v work)
    (l : List (Event Owner)) : SliceOk (es ++ l) work where
  kernel := by
    intro p hp e he w hw
    obtain ⟨x, hx, _⟩ := hok.run p hp
    rw [get_old (List.getElem?_eq_some_iff.mp hx).1] at he
    rcases h.kernel p hp e he w hw with hlt | ⟨f, hf, hrest⟩
    · exact Or.inl hlt
    · exact Or.inr ⟨f, (get_old (List.getElem?_eq_some_iff.mp hf).1).trans hf, hrest⟩
  settled := by
    rintro ha ⟨e, he, hu⟩
    obtain ⟨x, hx, _⟩ := hok.final
    rw [get_old (List.getElem?_eq_some_iff.mp hx).1] at he
    exact h.settled ha ⟨e, he, hu⟩

theorem Settler.append {works works' : List Work} {w : Nat} (h : Settler es works w)
    (hlt : w < es.length)
    (hworks : ∀ (v : Nat) (work : Work), works[v]? = some work → works'[v]? = some work)
    (l : List (Event Owner)) : Settler (es ++ l) works' w := by
  intro v hv
  rw [get_old hlt] at hv
  obtain ⟨work, hwork, hfinal⟩ := h v hv
  exact ⟨work, hworks v work hwork, hfinal⟩

/-- New events at the end of the table wait for events before them that somebody settles. -/
theorem WaitsOk.grow (h : WaitsOk s) (hi : Inv s) {l : List (Event Owner)} {works : List Work}
    (hworks : ∀ (v : Nat) (work : Work), s.works[v]? = some work → works[v]? = some work)
    (hfresh : Fresh l)
    (hl : ∀ (k : Nat) (e : Event Owner), l[k]? = some e → ∀ w ∈ e.waits, w < s.events.length + k ∧
      Settler (s.events ++ l) works w)
    (hnew : ∀ (v : Nat) (work : Work), works[v]? = some work →
      s.works[v]? = some work ∨ SliceOk (s.events ++ l) work) :
    WaitsOk { s with events := s.events ++ l, works := works } := by
  have hold : ∀ (id : Nat) (e : Event Owner), (s.events ++ l)[id]? = some e →
      s.events[id]? = some e ∨ s.events.length ≤ id ∧ l[id - s.events.length]? = some e := by
    intro id e he
    rw [List.getElem?_append] at he
    split at he
    · exact Or.inl he
    · exact Or.inr ⟨by omega, he⟩
  refine ⟨?_, ?_, ?_, ?_⟩
  · intro id e he w hw
    rcases hold id e he with he | ⟨hle, he⟩
    · exact h.below id e he w hw
    · have hlt := (hl _ e he w hw).1
      omega
  · intro id e he w hw
    rcases hold id e he with he | ⟨_, he⟩
    · have hlt : w < s.events.length :=
        Nat.lt_trans (h.below id e he w hw) (List.getElem?_eq_some_iff.mp he).1
      exact (h.settler id e he w hw).append hlt hworks l
    · exact (hl _ e he w hw).2
  · intro id e he ho
    rcases hold id e he with he | ⟨_, he⟩
    · exact h.idle id e he ho
    · rw [(hfresh e (List.mem_of_getElem? he)).1]
      intro hq
      cases hq
  · intro v work hv
    rcases hnew v work hv with hv | hok
    · exact (h.slices v work hv).append (hi.works v work hv) l
    · exact hok

/-- New events and no new work. -/
theorem WaitsOk.appendEvents (h : WaitsOk s) (hi : Inv s) {l : List (Event Owner)}
    (hfresh : Fresh l)
    (hl : ∀ (k : Nat) (e : Event Owner), l[k]? = some e → ∀ w ∈ e.waits, w < s.events.length + k ∧
      Settler (s.events ++ l) s.works w) :
    WaitsOk { s with events := s.events ++ l } :=
  h.grow hi (fun _ _ hv => hv) hfresh hl (fun _ _ hv => Or.inl hv)

/-- A work that changes but keeps its `Final`. -/
theorem WaitsOk.setWork (h : WaitsOk s) {w : Nat} {work work' : Work}
    (hw : s.works[w]? = some work) (hfinal : work'.final = work.final)
    (hok : SliceOk s.events work') :
    WaitsOk { s with works := s.works.set w work' } where
  below := h.below
  settler := by
    intro id e he x hx v hv
    obtain ⟨u, hu, huf⟩ := h.settler id e he x hx v hv
    by_cases hvw : w = v
    · subst hvw
      rw [hw, Option.some.injEq] at hu
      subst hu
      exact ⟨work', List.getElem?_set_self (List.getElem?_eq_some_iff.mp hw).1,
        hfinal.trans huf⟩
    · exact ⟨u, by rw [List.getElem?_set_ne hvw]; exact hu, huf⟩
  idle := h.idle
  slices := by
    intro v u hu
    by_cases hvw : w = v
    · subst hvw
      rw [List.getElem?_set_self (List.getElem?_eq_some_iff.mp hw).1, Option.some.injEq] at hu
      subst hu
      exact hok
    · rw [List.getElem?_set_ne hvw] at hu
      exact h.slices v u hu

/-! ## Calls -/

/-- A command, and what is not in the table, has no owner to settle it. -/
theorem settler_of_no_owner {works : List Work} {w : Nat}
    (h : es[w]?.bind Event.owner = none) : Settler es works w := by
  intro v hv
  rw [h] at hv
  cases hv

theorem WaitsOk.reorderCore (h : WaitsOk s) (hi : Inv s) {waits : List Nat}
    (hr : ∀ w ∈ waits, Visible s w) (success : Bool) :
    WaitsOk (reorderCore s waits success) := by
  cases success with
  | false => exact h
  | true =>
    have hgrow := h.appendEvents hi (l := [command (waits ++ s.taskBlocker.toList)])
      (fresh_command _) ?_
    · exact ⟨hgrow.below, hgrow.settler, hgrow.idle, hgrow.slices⟩
    · intro k e he w hw
      obtain ⟨hk, rfl⟩ : k = 0 ∧ e = command (waits ++ s.taskBlocker.toList) := by
        have hlt := (List.getElem?_eq_some_iff.mp he).1
        rw [List.length_singleton] at hlt
        obtain rfl : k = 0 := by omega
        exact ⟨rfl, (Option.some.inj he).symm⟩
      have hvisible : Visible s w := by
        rcases List.mem_append.mp hw with hw | hw
        · exact hr w hw
        · exact hi.visible_blocker hw
      obtain ⟨hlt, hsettler⟩ := hi.visible hvisible
      exact ⟨by omega, hsettler.append hlt (fun _ _ hv => hv) _⟩

/-- What the events of a launch wait for. -/
theorem launchEvents_waits {waits : List Nat} {k w : Nat} {e : Event Owner}
    (he : (launchEvents s waits)[k]? = some e) (hw : w ∈ e.waits) :
    (k = 2 ∧ (w ∈ waits ∨ w ∈ s.taskBlocker.toList)) ∨ (k = 2 ∧ w = s.events.length) ∨
      (k = 3 ∧ w = s.events.length + 2) ∨ (k = 4 ∧ w = s.events.length + 1) := by
  match k with
  | 0 | 1 =>
    cases he
    cases hw
  | 2 =>
    cases he
    simp only [command, List.mem_append, List.mem_singleton] at hw
    rcases hw with (hw | hw) | hw
    · exact Or.inl ⟨rfl, Or.inl hw⟩
    · exact Or.inr (Or.inl ⟨rfl, hw⟩)
    · exact Or.inl ⟨rfl, Or.inr hw⟩
  | 3 =>
    cases he
    exact Or.inr (Or.inr (Or.inl ⟨rfl, List.mem_singleton.mp hw⟩))
  | 4 =>
    cases he
    exact Or.inr (Or.inr (Or.inr ⟨rfl, List.mem_singleton.mp hw⟩))
  | k + 5 => cases he

/-- Only `Final` has an owner among the events of a launch. -/
theorem owner_launchEvents {waits : List Nat} {done k : Nat} (hk : k ≠ 1) :
    (s.events ++ (launchEvents s waits).take done)[s.events.length + k]?.bind Event.owner =
      none := by
  rw [List.getElem?_append_right (by omega), Nat.add_sub_cancel_left, List.getElem?_take]
  split
  · match k with
    | 0 | 2 | 3 | 4 => rfl
    | 1 => exact absurd rfl hk
    | k + 5 => rfl
  · rfl

theorem WaitsOk.enqueueNDRangeKernel (h : WaitsOk s) (hi : Inv s) {waits : List Nat}
    (hr : ∀ w ∈ waits, Visible s w) (done : Nat) :
    WaitsOk (enqueueNDRangeKernel s waits done) := by
  have hfresh := fresh_take (launchEvents_fresh s waits) done
  have hvisible : ∀ w, w ∈ waits ∨ w ∈ s.taskBlocker.toList → Visible s w := by
    intro w hw
    rcases hw with hw | hw
    · exact hr w hw
    · exact hi.visible_blocker hw
  -- everything but the marker, which waits for `Final`
  have hwaits : ∀ {works : List Work},
      (∀ (v : Nat) (work : Work), s.works[v]? = some work → works[v]? = some work) →
      ∀ (k : Nat) (e : Event Owner), (launchEvents s waits)[k]? = some e → k ≠ 4 →
      ∀ w ∈ e.waits, w < s.events.length + k ∧
        Settler (s.events ++ (launchEvents s waits).take done) works w := by
    intro works hworks k e he hk w hw
    rcases launchEvents_waits he hw with ⟨rfl, hw⟩ | ⟨rfl, rfl⟩ | ⟨rfl, rfl⟩ | ⟨h4, _⟩
    · obtain ⟨hlt, hsettler⟩ := hi.visible (hvisible w hw)
      exact ⟨by omega, hsettler.append hlt hworks _⟩
    · exact ⟨by omega, settler_of_no_owner (owner_launchEvents (k := 0) (by omega))⟩
    · exact ⟨by omega, settler_of_no_owner (owner_launchEvents (by omega))⟩
    · exact absurd h4 hk
  have htake : ∀ {k : Nat} {e : Event Owner}, ((launchEvents s waits).take done)[k]? = some e →
      k < done ∧ (launchEvents s waits)[k]? = some e := by
    intro k e he
    rw [List.getElem?_take] at he
    split at he
    · rename_i hk
      exact ⟨hk, he⟩
    · cases he
  unfold TaskBlocker.enqueueNDRangeKernel
  simp only
  split
  · rename_i hdone
    have hall := List.take_of_length_le hdone
    have hget := get_launchEvents s waits
    have hold : ∀ (v : Nat) (work : Work), s.works[v]? = some work → (s.works ++
        [⟨s.events.length + 1, [(s.events.length + 2, s.events.length + 3)], true⟩])[v]? =
          some work :=
      fun v work hv => (List.getElem?_append_left (List.getElem?_eq_some_iff.mp hv).1).trans hv
    have hgrow := h.grow hi hold hfresh ?_ ?_
    · exact ⟨hgrow.below, hgrow.settler, hgrow.idle, hgrow.slices⟩
    · intro k e he w hw
      by_cases hk : k = 4
      · subst hk
        rcases launchEvents_waits (htake he).2 hw with ⟨h2, _⟩ | ⟨h2, _⟩ | ⟨h2, _⟩ | ⟨_, rfl⟩
        · cases h2
        · cases h2
        · cases h2
        · refine ⟨by omega, fun v hv => ?_⟩
          rw [hall, hget 1] at hv
          cases hv
          exact ⟨_, List.getElem?_concat_length, rfl⟩
      · exact hwaits hold k e (htake he).2 hk w hw
    · intro v work hv
      rw [List.getElem?_append] at hv
      split at hv
      · exact Or.inl hv
      · have hmem := List.mem_of_getElem? hv
        rw [List.mem_singleton] at hmem
        subst hmem
        refine Or.inr ⟨?_, fun ha => absurd ha (by simp)⟩
        intro p hp e he w hw
        rw [List.mem_singleton.mp hp, hall, hget 2] at he
        rcases launchEvents_waits he hw with ⟨_, hw⟩ | ⟨_, rfl⟩ | ⟨h2, _⟩ | ⟨h2, _⟩
        · exact Or.inl (Nat.lt_succ_of_lt (hi.visible (hvisible w hw)).1)
        · exact Or.inl (Nat.lt_succ_self _)
        · cases h2
        · cases h2
  · rename_i hdone
    refine h.appendEvents hi hfresh (fun k e he => ?_)
    obtain ⟨hk, he⟩ := htake he
    refine hwaits (fun _ _ hv => hv) k e he ?_
    have hlen : (launchEvents s waits).length = 5 := rfl
    omega

/-! ## Callbacks -/

/-- The callback settles `Final`. -/
theorem WaitsOk.setFinal (h : WaitsOk s) (hi : Inv s) {w : Nat} {work : Work}
    (hw : s.works[w]? = some work) (success : Bool) : WaitsOk (setFinal s w work success) := by
  have hext := (hi.events.settle work.final success).1
  have hmoves := (settle_moves s.events work.final success).1
  have hold := (h.slices w work hw).moves hext hmoves
  obtain ⟨e, he, ho⟩ := (hi.works w work hw).final
  have howned : e.owner ≠ none := by
    rw [ho]
    intro hn
    cases hn
  have hsettled := not_pending_settle he howned (h.idle _ e he howned) success
  exact (h.moveEvents hext hmoves).setWork hw rfl ⟨hold.kernel, fun _ => hsettled⟩

/-- The commands of a slice wait for one another. -/
theorem sliceEvents_waits {writeHeader : Bool} {k w : Nat} {e : Event Owner}
    (he : (sliceEvents s writeHeader)[k]? = some e) (hw : w ∈ e.waits) :
    0 < k ∧ w + 1 = s.events.length + k := by
  cases writeHeader with
  | true =>
    match k with
    | 0 => cases he; cases hw
    | 1 | 2 => cases he; exact ⟨by omega, by rw [List.mem_singleton.mp hw]⟩
    | k + 3 => cases he
  | false =>
    match k with
    | 0 => cases he; cases hw
    | 1 => cases he; exact ⟨by omega, by rw [List.mem_singleton.mp hw]⟩
    | k + 2 => cases he

theorem owner_sliceEvents {writeHeader : Bool} {e : Event Owner}
    (he : e ∈ sliceEvents s writeHeader) : e.owner = none := by
  cases writeHeader <;>
    simp only [sliceEvents, if_true, Bool.false_eq_true, if_false, List.mem_cons,
      List.not_mem_nil, or_false] at he
  · rcases he with rfl | rfl <;> rfl
  · rcases he with rfl | rfl | rfl <;> rfl

/-- The kernel of a further slice waits for nothing, or for the write of the headers. -/
theorem kernel_sliceEvents {writeHeader : Bool} {e : Event Owner}
    (he : (s.events ++ sliceEvents s writeHeader)[
      s.events.length + (if writeHeader then 1 else 0)]? = some e) :
    ∀ w ∈ e.waits, ∃ f, (s.events ++ sliceEvents s writeHeader)[w]? = some f ∧
      f.owner = none ∧ f.waits = [] := by
  rw [List.getElem?_append_right (by omega), Nat.add_sub_cancel_left] at he
  cases writeHeader with
  | true =>
    cases he
    intro w hw
    rw [List.mem_singleton.mp hw, List.getElem?_append_right (by omega), Nat.sub_self]
    exact ⟨_, rfl, rfl, rfl⟩
  | false =>
    cases he
    intro w hw
    cases hw

/-- The callback enqueues the commands of a slice. -/
theorem WaitsOk.appendSlice (h : WaitsOk s) (hi : Inv s) (writeHeader : Bool) (done : Nat) :
    WaitsOk { s with events := s.events ++ (sliceEvents s writeHeader).take done } := by
  refine h.appendEvents hi (fresh_take (sliceEvents_fresh s writeHeader) done) ?_
  intro k e he w hw
  rw [List.getElem?_take] at he
  split at he
  · obtain ⟨hk, hprev⟩ := sliceEvents_waits he hw
    refine ⟨by omega, settler_of_no_owner ?_⟩
    rw [List.getElem?_append_right (by omega)]
    cases hget : ((sliceEvents s writeHeader).take done)[w - s.events.length]? with
    | none => rfl
    | some f => exact owner_sliceEvents (List.mem_of_mem_take (List.mem_of_getElem? hget))
  · cases he

theorem WaitsOk.resumeOrFinish (h : WaitsOk s) (hi : Inv s) {w : Nat} {work : Work}
    (hw : s.works[w]? = some work) (r : Resume) : WaitsOk (resumeOrFinish s w work r) := by
  cases r with
  | finish => exact h.setFinal hi hw true
  | again writeHeader done =>
    have happ := h.appendSlice hi writeHeader done
    unfold TaskBlocker.resumeOrFinish
    simp only
    split
    · rename_i hdone
      rw [List.take_of_length_le (Nat.le_of_lt hdone)] at happ ⊢
      have hold := happ.slices w work hw
      refine happ.setWork hw rfl ⟨?_, hold.settled⟩
      intro p hp e he
      rcases List.mem_append.mp hp with hp | hp
      · exact hold.kernel p hp e he
      · rw [List.mem_singleton.mp hp] at he
        exact fun x hx => Or.inr (kernel_sliceEvents he x hx)
    · exact happ.setFinal (hi.appendEvents (fresh_take (sliceEvents_fresh s writeHeader) done)) hw
        false

/-- **Step.**  Every step of a caller that respects what it can have keeps the wait lists in
order. -/
theorem WaitsOk.step (h : WaitsOk s) (hi : Inv s) {l : Label} (hr : Respects s l)
    (hs : step s l = some t) : WaitsOk t := by
  cases l with
  | foreign =>
    cases hs
    refine h.appendEvents hi (l := [owned .foreign]) ?_ ?_
    · intro e he
      rw [List.mem_singleton.mp he]
      exact ⟨rfl, rfl⟩
    · intro k e he w hw
      rw [List.mem_singleton.mp (List.mem_of_getElem? he)] at hw
      cases hw
  | settleForeign id success =>
    simp only [TaskBlocker.step, Option.ite_none_right_eq_some, Option.some.injEq] at hs
    obtain ⟨_, rfl⟩ := hs
    exact h.moveEvents (hi.events.settle id success).1 (settle_moves s.events id success).1
  | device l =>
    simp only [TaskBlocker.step, Option.map_eq_some_iff] at hs
    obtain ⟨es, hes, rfl⟩ := hs
    exact h.moveEvents (hi.events.device (fun _ => False) hes).1 (deviceStep_moves hes).1
  | reorder waits success =>
    cases hs
    exact h.reorderCore hi hr success
  | launch waits done =>
    cases hs
    exact h.enqueueNDRangeKernel hi hr done
  | resume w r =>
    simp only [TaskBlocker.step] at hs
    split at hs
    · rename_i final slices hw
      split at hs
      · cases hs
        exact h.resumeOrFinish hi hw r
      · cases hs
        exact h.setFinal hi hw false
      · cases hs
    · cases hs

/-- The second event has to be settled before the first one can be. -/
inductive Awaits (s : State) : Nat → Nat → Prop
  | wait {id w : Nat} {e : Event Owner} (he : s.events[id]? = some e) (hw : w ∈ e.waits) :
    Awaits s id w
  /-- the callback settles `Final` after the read of the last slice -/
  | callback {v : Nat} {work : Work} {p : Nat × Nat} (hv : s.works[v]? = some work)
      (hp : work.slices.getLast? = some p) : Awaits s work.final p.2

/-- An event that somebody else settles. -/
def Outside (s : State) (id : Nat) : Prop := s.events[id]?.bind Event.owner = some .foreign

/-- The device can move the event at once, or the callback of its launch can run, whatever the
headers say. -/
def Movable (s : State) (id : Nat) : Prop :=
  (∃ l es, l.id = id ∧ deviceStep s.events l = some es) ∨
    ∃ v work, s.works[v]? = some work ∧ work.final = id ∧
      ∀ r, ∃ t, step s (.resume v r) = some t

/-- A pending command can move unless its wait list holds a pending event. -/
theorem WaitsOk.movable_or_waits (h : WaitsOk s) {id : Nat} {e : Event Owner}
    (he : s.events[id]? = some e) (ho : e.owner = none) (hu : Unsettled e) :
    Movable s id ∨ ∃ w ∈ e.waits, Pending s.events w := by
  by_cases hw : ∃ w ∈ e.waits, Pending s.events w
  · exact Or.inr hw
  · have hlt := (List.getElem?_eq_some_iff.mp he).1
    have hex : ∀ w ∈ e.waits, w < s.events.length :=
      fun w hmem => Nat.lt_trans (h.below id e he w hmem) hlt
    exact Or.inl (Or.inl (exists_move he ho hu hex fun w hmem hpend => hw ⟨w, hmem, hpend⟩))

/-- The callback of an active launch can run when the last read is settled. -/
theorem movable_final {v : Nat} {work : Work} {p : Nat × Nat} {e : Event Owner}
    (hv : s.works[v]? = some work) (ha : work.active = true)
    (hp : work.slices.getLast? = some p) (he : s.events[p.2]? = some e) (hu : ¬ Unsettled e) :
    Movable s work.final := by
  obtain ⟨final, slices, active⟩ := work
  simp only at ha hp
  subst ha
  refine Or.inr ⟨v, _, hv, rfl, fun r => ?_⟩
  simp only [step, hv, hp, Option.bind_some, EventTable.status, he, Option.map_some]
  cases hst : e.status with
  | queued => exact absurd (Or.inl hst) hu
  | running => exact absurd (Or.inr hst) hu
  | complete => exact ⟨_, rfl⟩
  | failed => exact ⟨_, rfl⟩

/-- The event awaits a pending one that can move at once or is outside the queue. -/
def Unblocked (s : State) (id : Nat) : Prop :=
  ∃ j, Relation.ReflTransGen (Awaits s) id j ∧ Pending s.events j ∧ (Outside s j ∨ Movable s j)

theorem Unblocked.of_movable {id j : Nat} {e : Event Owner}
    (hchain : Relation.ReflTransGen (Awaits s) id j) (he : s.events[j]? = some e)
    (hu : Unsettled e) (hm : Movable s j) : Unblocked s id :=
  ⟨j, hchain, ⟨e, he, hu⟩, Or.inr hm⟩

/-- The `Final` event of a launch awaits its last slice, and that only what is older than
`Final`. -/
theorem WaitsOk.final_unblocked (h : WaitsOk s) (hi : Inv s) {v : Nat} {work : Work}
    (hv : s.works[v]? = some work) (hp : Pending s.events work.final)
    (hold : ∀ k e w, s.events[k]? = some e → w ∈ e.waits → w < work.final →
      Pending s.events w → Relation.ReflTransGen (Awaits s) work.final k →
      Unblocked s work.final) : Unblocked s work.final := by
  have hok := hi.works v work hv
  have hslice := h.slices v work hv
  have ha : work.active = true := by
    cases hact : work.active with
    | true => rfl
    | false => exact absurd hp (hslice.settled hact)
  obtain ⟨p, hlast⟩ := Option.isSome_iff_exists.mp (List.getLast?_isSome.mpr hok.nonempty)
  have hmem := List.mem_of_getLast? hlast
  obtain ⟨read, hread, hreadOwner, hreadWaits⟩ := hok.read p hmem
  have hcallback := Relation.ReflTransGen.single (Awaits.callback hv hlast)
  by_cases hur : Unsettled read
  · rcases h.movable_or_waits hread hreadOwner hur with hm | ⟨w, hw, hpend⟩
    · exact .of_movable hcallback hread hur hm
    · -- the kernel of the slice is yet to complete
      have hchain := hcallback.tail (.wait hread hw)
      rw [hreadWaits, List.mem_singleton] at hw
      subst hw
      obtain ⟨run, hrun, hru⟩ := hpend
      obtain ⟨run', hrun', hrunOwner⟩ := hok.run p hmem
      rw [hrun, Option.some.injEq] at hrun'
      subst hrun'
      rcases h.movable_or_waits hrun hrunOwner hru with hm | ⟨w, hw, hpend⟩
      · exact .of_movable hchain hrun hru hm
      · rcases hslice.kernel p hmem run hrun w hw with hlt | ⟨f, hf, hfo, hnil⟩
        · exact hold p.1 run w hrun hw hlt hpend hchain
        · obtain ⟨f', hf', huf⟩ := hpend
          rw [hf, Option.some.injEq] at hf'
          subst hf'
          rcases h.movable_or_waits hf hfo huf with hm | ⟨x, hx, _⟩
          · exact .of_movable (hchain.tail (.wait hrun hw)) hf huf hm
          · rw [hnil] at hx
            cases hx
  · exact ⟨work.final, .refl, hp, Or.inr (movable_final hv ha hlast hread hur)⟩

/-- **A chain of pending events ends.**  What a pending event awaits can move at once, or is
outside the queue. -/
theorem WaitsOk.unblocked (h : WaitsOk s) (hi : Inv s) (id : Nat)
    (hp : Pending s.events id) (hset : Settler s.events s.works id) : Unblocked s id := by
  induction id using Nat.strongRecOn with
  | ind id ih =>
    -- what awaits an older event
    have hold : ∀ k e w, s.events[k]? = some e → w ∈ e.waits → w < id → Pending s.events w →
        Relation.ReflTransGen (Awaits s) id k → Unblocked s id := by
      intro k e w he hw hlt hpend hchain
      obtain ⟨j, hj, hrest⟩ := ih w hlt hpend (h.settler k e he w hw)
      exact ⟨j, (hchain.tail (.wait he hw)).trans hj, hrest⟩
    obtain ⟨e, he, hu⟩ := hp
    cases ho : e.owner with
    | none =>
      rcases h.movable_or_waits he ho hu with hm | ⟨w, hw, hpend⟩
      · exact .of_movable .refl he hu hm
      · exact hold id e w he hw (h.below id e he w hw) hpend .refl
    | some o =>
      cases o with
      | foreign =>
        refine ⟨id, .refl, ⟨e, he, hu⟩, Or.inl ?_⟩
        rw [Outside, he, Option.bind_some, ho]
      | final v =>
        obtain ⟨work, hv, rfl⟩ := hset v (by rw [he, Option.bind_some, ho])
        exact h.final_unblocked hi hv ⟨e, he, hu⟩ hold

/-! ## The moves come to an end -/

/-- A move of the device or a callback. -/
def Label.inside : Label → Bool
  | .device _ => true
  | .resume _ _ => true
  | _ => false

/-- A callback that tries another slice. -/
def Label.again : Label → Bool
  | .resume _ (.again _ _) => true
  | _ => false

/-- What is still to do for the events, and the callbacks that are not done. -/
def State.rank (s : State) : Nat := load s.events + s.works.countP Work.active

theorem rank_setFinal {w : Nat} {work : Work} (hw : s.works[w]? = some work)
    (ha : work.active = true) (success : Bool) : (setFinal s w work success).rank < s.rank := by
  have hload := (settle_moves s.events work.final success).2
  obtain ⟨hlt, hget⟩ := List.getElem?_eq_some_iff.mp hw
  have hpos : 0 < s.works.countP Work.active :=
    List.countP_pos_iff.mpr ⟨work, List.mem_of_getElem? hw, ha⟩
  simp only [State.rank, TaskBlocker.setFinal, List.countP_set hlt, hget, ha, if_true,
    Bool.false_eq_true, if_false]
  omega

theorem Movable.enabled {id : Nat} (h : Movable s id) :
    ∃ l : Label, l.inside = true ∧ ∃ t, step s l = some t := by
  rcases h with ⟨l, es, _, hes⟩ | ⟨v, work, _, _, hr⟩
  · exact ⟨.device l, rfl, _, by rw [step, hes]; rfl⟩
  · exact ⟨.resume v .finish, rfl, hr .finish⟩

/-- Every call that is pending awaits an event that can move or is outside the queue. -/
theorem unblocked_of_call (hi : Inv s) (h : WaitsOk s) {c : Call} (hc : c ∈ s.calls)
    (hp : Pending s.events c.final) : Unblocked s c.final :=
  h.unblocked hi c.final hp (hi.visible (Or.inr ⟨c, hc, rfl⟩)).2

end TaskBlocker
end Clpkm
