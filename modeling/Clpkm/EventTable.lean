import Clpkm.Table

/-!
# Events and wait lists

A device executes commands in any order that respects their wait lists.  A table
holds every event created so far, a command's or a user's, under its index; the table
grows at the end, and the status of an event moves only forward.  A command starts
once all events of its wait list are complete, runs, and completes or fails; when an
event of its wait list failed it is terminated without starting.  Any other event has
an owner, who settles it once.

`Ok` is the invariant of the device: a command that started found its wait list
complete.  `Extends` says what a step may do to the events that exist, so that facts
about them outlive the step.
-/

namespace Clpkm

universe u

/-- The execution status of an event. -/
inductive EventStatus
  | queued
  | running
  | complete
  | failed
  deriving DecidableEq, Repr

/-- An event: a command of the device, or one that its owner settles. -/
structure Event (Owner : Type u) where
  /-- `none` for a command -/
  owner : Option Owner
  waits : List Nat
  status : EventStatus
  /-- the command has started executing at some time -/
  started : Bool
  deriving DecidableEq, Repr

/-- The moves of the device. -/
inductive DeviceLabel
  | start (id : Nat)
  | finish (id : Nat) (success : Bool)
  /-- an event of the wait list failed -/
  | terminate (id : Nat)
  deriving DecidableEq, Repr

/-- The command that a move of the device is about. -/
def DeviceLabel.id : DeviceLabel → Nat
  | .start id => id
  | .finish id _ => id
  | .terminate id => id

namespace EventTable
variable {Owner : Type u}

/-- A command that has just been enqueued. -/
def command (waits : List Nat) : Event Owner := ⟨none, waits, .queued, false⟩

/-- An event that its owner has yet to settle. -/
def owned (o : Owner) : Event Owner := ⟨some o, [], .queued, false⟩

/-- The status of an event of the table. -/
def status (es : List (Event Owner)) (id : Nat) : Option EventStatus := es[id]?.map Event.status

/-- The event is complete. -/
def Complete (es : List (Event Owner)) (id : Nat) : Prop := status es id = some .complete

instance (es : List (Event Owner)) (id : Nat) : Decidable (Complete es id) :=
  inferInstanceAs (Decidable (_ = _))

/-- The command has started executing. -/
def Started (es : List (Event Owner)) (id : Nat) : Prop := ∃ e, es[id]? = some e ∧ e.started = true

/-- A step of the device. -/
def deviceStep (es : List (Event Owner)) : DeviceLabel → Option (List (Event Owner))
  | .start id =>
    match es[id]? with
    | some ⟨none, waits, .queued, _⟩ =>
      if ∀ w ∈ waits, Complete es w then
        some (es.set id ⟨none, waits, .running, true⟩)
      else none
    | _ => none
  | .finish id success =>
    match es[id]? with
    | some ⟨none, waits, .running, started⟩ =>
      some (es.set id ⟨none, waits, if success then .complete else .failed, started⟩)
    | _ => none
  | .terminate id =>
    match es[id]? with
    | some ⟨none, waits, .queued, started⟩ =>
      if ∃ w ∈ waits, status es w = some .failed then
        some (es.set id ⟨none, waits, .failed, started⟩)
      else none
    | _ => none

/-- The owner of an event settles it, once. -/
def settle (es : List (Event Owner)) (id : Nat) (success : Bool) : List (Event Owner) :=
  match es[id]? with
  | some ⟨some o, waits, .queued, started⟩ =>
    es.set id ⟨some o, waits, if success then .complete else .failed, started⟩
  | _ => es

/-! ## The invariant of the device -/

/-- A command starts only when its wait list is complete, and runs only when it has
started. -/
structure Ok (es : List (Event Owner)) : Prop where
  waits : ∀ (id : Nat) (e : Event Owner), es[id]? = some e → e.started = true →
    ∀ w ∈ e.waits, Complete es w
  started : ∀ (id : Nat) (e : Event Owner), es[id]? = some e → e.owner = none →
    e.status = .running ∨ e.status = .complete → e.started = true

/-- What a step may do to the events that exist: the owned events outside `moved` keep
their status, everything else only moves forward. -/
def Extends (moved : Nat → Prop) (es es' : List (Event Owner)) : Prop :=
  ∀ id e, es[id]? = some e → ∃ e', es'[id]? = some e' ∧ e'.owner = e.owner ∧
    e'.waits = e.waits ∧ (e.status = .complete → e'.status = .complete) ∧
    (e.started = true → e'.started = true) ∧
    (e.owner ≠ none → ¬ moved id → e'.status = e.status)

variable {es es' : List (Event Owner)} {moved : Nat → Prop}

theorem complete_iff {id : Nat} :
    Complete es id ↔ ∃ e, es[id]? = some e ∧ e.status = .complete := by
  unfold Complete status
  rw [Option.map_eq_some_iff]

theorem Extends.refl (moved : Nat → Prop) (es : List (Event Owner)) : Extends moved es es :=
  fun _ e h => ⟨e, h, rfl, rfl, id, id, fun _ _ => rfl⟩

theorem Extends.complete (h : Extends moved es es') {id : Nat} (hc : Complete es id) :
    Complete es' id := by
  obtain ⟨e, he, hs⟩ := complete_iff.mp hc
  obtain ⟨e', he', _, _, hcomp, _⟩ := h id e he
  exact complete_iff.mpr ⟨e', he', hcomp hs⟩

/-- An owned event that a step leaves alone does not become complete. -/
theorem Extends.complete_of_owned (h : Extends moved es es') {id : Nat} {e : Event Owner}
    (he : es[id]? = some e) (ho : e.owner ≠ none) (hm : ¬ moved id) (hc : Complete es' id) :
    Complete es id := by
  obtain ⟨e', he', _, _, _, _, hsame⟩ := h id e he
  obtain ⟨e'', he'', hs⟩ := complete_iff.mp hc
  rw [he', Option.some.injEq] at he''
  subst he''
  exact complete_iff.mpr ⟨e, he, hsame ho hm ▸ hs⟩

/-- A started command has a complete wait list. -/
theorem Ok.waits_complete (h : Ok es) {id : Nat} {e : Event Owner} (he : es[id]? = some e)
    (hs : Started es id) : ∀ w ∈ e.waits, Complete es w := by
  obtain ⟨e', he', hst⟩ := hs
  rw [he, Option.some.injEq] at he'
  subst he'
  exact h.waits id e he hst

/-- A complete command has started. -/
theorem Ok.started_of_complete (h : Ok es) {id : Nat} {e : Event Owner} (he : es[id]? = some e)
    (ho : e.owner = none) (hc : Complete es id) : Started es id := by
  obtain ⟨e', he', hs⟩ := complete_iff.mp hc
  rw [he, Option.some.injEq] at he'
  subst he'
  exact ⟨e, he, h.started id e he ho (Or.inr hs)⟩

theorem ok_nil : Ok ([] : List (Event Owner)) where
  waits := by intro id e h; cases h
  started := by intro id e h; cases h

/-! ## New events -/

/-- Events right after their creation. -/
def Fresh (l : List (Event Owner)) : Prop := ∀ e ∈ l, e.status = .queued ∧ e.started = false

theorem extends_append (moved : Nat → Prop) (es l : List (Event Owner)) :
    Extends moved es (es ++ l) := by
  intro id e he
  have hlt : id < es.length := (List.getElem?_eq_some_iff.mp he).1
  exact ⟨e, (List.getElem?_append_left hlt).trans he, rfl, rfl, fun h => h, fun h => h,
    fun _ _ => rfl⟩

theorem Ok.append (h : Ok es) {l : List (Event Owner)} (hl : Fresh l) : Ok (es ++ l) := by
  have hold : ∀ (id : Nat) (e : Event Owner), (es ++ l)[id]? = some e →
      es[id]? = some e ∨ e ∈ l := by
    intro id e he
    rw [List.getElem?_append] at he
    split at he
    · exact Or.inl he
    · exact Or.inr (List.mem_of_getElem? he)
  refine ⟨?_, ?_⟩
  · intro id e he hs w hw
    rcases hold id e he with he | he
    · exact (extends_append (fun _ => False) es l).complete (h.waits id e he hs w hw)
    · rw [(hl e he).2] at hs
      cases hs
  · intro id e he ho hs
    rcases hold id e he with he | he
    · exact h.started id e he ho hs
    · rw [(hl e he).1] at hs
      rcases hs with hs | hs <;> cases hs

/-! ## Changing one event -/

/-- Replacing an event by a later stage of it. -/
theorem extends_set (moved : Nat → Prop) {id : Nat} {e : Event Owner} (e' : Event Owner)
    (he : es[id]? = some e)
    (howner : e'.owner = e.owner) (hwaits : e'.waits = e.waits)
    (hcomplete : e.status ≠ .complete) (hstarted : e.started = true → e'.started = true)
    (hmoved : e.owner = none ∨ moved id) : Extends moved es (es.set id e') := by
  intro id' x hx
  by_cases hid : id = id'
  · subst hid
    have hlt : id < es.length := (List.getElem?_eq_some_iff.mp he).1
    rw [he, Option.some.injEq] at hx
    subst hx
    refine ⟨e', by rw [List.getElem?_set_self hlt], howner, hwaits,
      fun h => absurd h hcomplete, hstarted, fun ho hm => ?_⟩
    rcases hmoved with h | h
    · exact absurd h ho
    · exact absurd h hm
  · exact ⟨x, by rw [List.getElem?_set_ne hid]; exact hx, rfl, rfl, fun h => h, fun h => h,
      fun _ _ => rfl⟩

theorem Ok.set (h : Ok es) {id : Nat} {e : Event Owner} (hext : Extends moved es (es.set id e))
    (hw : e.started = true → ∀ w ∈ e.waits, Complete es w)
    (hs : e.owner = none → e.status = .running ∨ e.status = .complete → e.started = true) :
    Ok (es.set id e) := by
  have hcases : ∀ (id' : Nat) (x : Event Owner), (es.set id e)[id']? = some x →
      x = e ∨ es[id']? = some x := by
    intro id' x hx
    by_cases hid : id = id'
    · subst hid
      rw [List.getElem?_set_self'] at hx
      obtain ⟨_, _, hx⟩ := Option.map_eq_some_iff.mp hx
      exact Or.inl hx.symm
    · rw [List.getElem?_set_ne hid] at hx
      exact Or.inr hx
  refine ⟨?_, ?_⟩
  · intro id' x hx hst w hmem
    rcases hcases id' x hx with rfl | hx
    · exact hext.complete (hw hst w hmem)
    · exact hext.complete (h.waits id' x hx hst w hmem)
  · intro id' x hx
    rcases hcases id' x hx with rfl | hx
    · exact hs
    · exact h.started id' x hx

/-- A step of the device moves commands forward and keeps the invariant. -/
theorem Ok.device (h : Ok es) (moved : Nat → Prop) {l : DeviceLabel}
    (hs : deviceStep es l = some es') :
    Extends moved es es' ∧ Ok es' := by
  cases l with
  | start id =>
    simp only [deviceStep] at hs
    split at hs
    · rename_i waits started he
      simp only [Option.ite_none_right_eq_some, Option.some.injEq] at hs
      obtain ⟨hw, rfl⟩ := hs
      have hext := extends_set moved ⟨none, waits, .running, true⟩ he rfl rfl
        (by intro h; cases h) (fun _ => rfl) (Or.inl rfl)
      exact ⟨hext, h.set hext (fun _ => hw) (fun _ _ => rfl)⟩
    · cases hs
  | finish id success =>
    simp only [deviceStep] at hs
    split at hs
    · rename_i waits started he
      cases hs
      have hst : started = true := h.started id _ he rfl (Or.inl rfl)
      have hw := h.waits id _ he hst
      have hext := extends_set moved
        ⟨none, waits, if success then .complete else .failed, started⟩ he rfl rfl
        (by intro h; cases h) (fun h => h) (Or.inl rfl)
      exact ⟨hext, h.set hext (fun _ => hw) (fun _ _ => hst)⟩
    · cases hs
  | terminate id =>
    simp only [deviceStep] at hs
    split at hs
    · rename_i waits started he
      simp only [Option.ite_none_right_eq_some, Option.some.injEq] at hs
      obtain ⟨_, rfl⟩ := hs
      have hw := h.waits id _ he
      have hext := extends_set moved ⟨none, waits, .failed, started⟩ he rfl rfl
        (by intro h; cases h) (fun h => h) (Or.inl rfl)
      refine ⟨hext, h.set hext hw (fun _ hr => ?_)⟩
      rcases hr with hr | hr <;> cases hr
    · cases hs

/-- Settling an owned event. -/
theorem Ok.settle (h : Ok es) (id : Nat) (success : Bool) :
    Extends (· = id) es (settle es id success) ∧ Ok (settle es id success) := by
  unfold EventTable.settle
  split
  · rename_i o waits started he
    have hw := h.waits id _ he
    have hext := extends_set (· = id)
      ⟨some o, waits, if success then .complete else .failed, started⟩ he rfl rfl
      (by intro h; cases h) (fun h => h) (Or.inr rfl)
    refine ⟨hext, h.set hext hw (fun ho => ?_)⟩
    cases ho
  · exact ⟨Extends.refl _ es, h⟩

/-! ## Progress -/

/-- Neither complete nor failed. -/
def Unsettled (e : Event Owner) : Prop := e.status = .queued ∨ e.status = .running

instance (e : Event Owner) : Decidable (Unsettled e) := inferInstanceAs (Decidable (_ ∨ _))

/-- The event with this index exists and is unsettled. -/
def Pending (es : List (Event Owner)) (id : Nat) : Prop := ∃ e, es[id]? = some e ∧ Unsettled e

/-- A step that creates no event: none changes its owner or its wait list, none becomes
unsettled again, and an owned event does not run. -/
def MovesTo (es es' : List (Event Owner)) : Prop :=
  es'.length = es.length ∧ ∀ (id : Nat) (e' : Event Owner), es'[id]? = some e' →
    ∃ e, es[id]? = some e ∧ e'.owner = e.owner ∧ e'.waits = e.waits ∧
      (Unsettled e' → Unsettled e) ∧
      (e.owner ≠ none → e'.status = .running → e.status = .running)

theorem MovesTo.refl (es : List (Event Owner)) : MovesTo es es :=
  ⟨rfl, fun _ e he => ⟨e, he, rfl, rfl, fun h => h, fun _ h => h⟩⟩

theorem MovesTo.pending (h : MovesTo es es') {id : Nat} (hp : Pending es' id) :
    Pending es id := by
  obtain ⟨e', he', hu⟩ := hp
  obtain ⟨e, he, _, _, hback, _⟩ := h.2 id e' he'
  exact ⟨e, he, hback hu⟩

theorem movesTo_set {id : Nat} {e e' : Event Owner} (he : es[id]? = some e)
    (howner : e'.owner = e.owner) (hwaits : e'.waits = e.waits) (hu : Unsettled e' → Unsettled e)
    (hrun : e.owner ≠ none → e'.status = .running → e.status = .running) :
    MovesTo es (es.set id e') := by
  refine ⟨List.length_set, fun id' x hx => ?_⟩
  by_cases hid : id = id'
  · subst hid
    rw [List.getElem?_set_self (List.getElem?_eq_some_iff.mp he).1, Option.some.injEq] at hx
    subst hx
    exact ⟨e, he, howner, hwaits, hu, hrun⟩
  · rw [List.getElem?_set_ne hid] at hx
    exact ⟨x, hx, rfl, rfl, fun h => h, fun _ h => h⟩

/-- What the device still has to do for an event. -/
def workLeft (e : Event Owner) : Nat :=
  match e.status with
  | .queued => 2
  | .running => 1
  | .complete | .failed => 0

/-- What there is still to do for all events. -/
def load (es : List (Event Owner)) : Nat := (es.map workLeft).sum

theorem load_set {id : Nat} {e : Event Owner} (e' : Event Owner) (he : es[id]? = some e) :
    load (es.set id e') + workLeft e = load es + workLeft e' := Table.sum_map_set workLeft he e'

/-- A step of the device does some of what there is to do. -/
theorem deviceStep_moves {l : DeviceLabel} (hs : deviceStep es l = some es') :
    MovesTo es es' ∧ load es' < load es := by
  cases l with
  | start id =>
    simp only [deviceStep] at hs
    split at hs
    · rename_i waits started he
      simp only [Option.ite_none_right_eq_some, Option.some.injEq] at hs
      obtain ⟨_, rfl⟩ := hs
      refine ⟨movesTo_set he rfl rfl (fun _ => Or.inl rfl) (fun h => absurd rfl h), ?_⟩
      have hload := load_set ⟨none, waits, .running, true⟩ he
      simp only [workLeft] at hload
      omega
    · cases hs
  | finish id success =>
    simp only [deviceStep] at hs
    split at hs
    · rename_i waits started he
      cases hs
      refine ⟨movesTo_set he rfl rfl (fun _ => Or.inr rfl) (fun h => absurd rfl h), ?_⟩
      have hload := load_set ⟨none, waits, if success then .complete else .failed, started⟩ he
      cases success <;>
        simp only [workLeft, if_true, Bool.false_eq_true, if_false] at hload ⊢ <;> omega
    · cases hs
  | terminate id =>
    simp only [deviceStep] at hs
    split at hs
    · rename_i waits started he
      simp only [Option.ite_none_right_eq_some, Option.some.injEq] at hs
      obtain ⟨_, rfl⟩ := hs
      refine ⟨movesTo_set he rfl rfl (fun _ => Or.inl rfl) (fun h => absurd rfl h), ?_⟩
      have hload := load_set ⟨none, waits, .failed, started⟩ he
      simp only [workLeft] at hload
      omega
    · cases hs

/-- Settling an owned event. -/
theorem settle_moves (es : List (Event Owner)) (id : Nat) (success : Bool) :
    MovesTo es (settle es id success) ∧ load (settle es id success) ≤ load es := by
  unfold settle
  split
  · rename_i o waits started he
    refine ⟨movesTo_set he rfl rfl (fun _ => Or.inl rfl) ?_, ?_⟩
    · intro _ h
      cases success <;> cases h
    · have hload := load_set
        ⟨some o, waits, if success then .complete else .failed, started⟩ he
      cases success <;>
        simp only [workLeft, if_true, Bool.false_eq_true, if_false] at hload ⊢ <;> omega
  · exact ⟨MovesTo.refl es, Nat.le_refl _⟩

/-- Its owner settles an event that does not run. -/
theorem not_pending_settle {id : Nat} {e : Event Owner} (he : es[id]? = some e)
    (ho : e.owner ≠ none) (hrun : e.status ≠ .running) (success : Bool) :
    ¬ Pending (settle es id success) id := by
  rintro ⟨e', he', hu⟩
  unfold settle at he'
  split at he'
  · rw [List.getElem?_set_self (List.getElem?_eq_some_iff.mp he).1, Option.some.injEq] at he'
    subst he'
    cases success <;> rcases hu with hu | hu <;> cases hu
  · rename_i hno
    rw [he, Option.some.injEq] at he'
    subst he'
    rcases hu with hu | hu
    · obtain ⟨owner, waits, status, started⟩ := e
      cases owner with
      | none => exact ho rfl
      | some o =>
        simp only at hu
        subst hu
        exact hno o waits started he
    · exact hrun hu

/-- **No command is stuck.**  The device can start, finish or terminate a pending command
whose wait list is settled. -/
theorem exists_move {id : Nat} {e : Event Owner} (he : es[id]? = some e) (ho : e.owner = none)
    (hu : Unsettled e) (hex : ∀ w ∈ e.waits, w < es.length)
    (hw : ∀ w ∈ e.waits, ¬ Pending es w) :
    ∃ (l : DeviceLabel) (es' : List (Event Owner)), l.id = id ∧ deviceStep es l = some es' := by
  obtain ⟨owner, waits, status, started⟩ := e
  simp only at ho hu hex hw
  subst ho
  rcases hu with hu | hu <;> simp only at hu <;> subst hu
  · by_cases hall : ∀ w ∈ waits, Complete es w
    · refine ⟨.start id, es.set id ⟨none, waits, .running, true⟩, rfl, ?_⟩
      simp only [deviceStep, he, if_pos hall]
    · -- a settled event that is not complete has failed
      have hfail : ∃ w ∈ waits, EventTable.status es w = some .failed := by
        simp only [not_forall] at hall
        obtain ⟨w, hmem, hnot⟩ := hall
        have hlt := hex w hmem
        have hget : es[w]? = some es[w] := List.getElem?_eq_getElem hlt
        refine ⟨w, hmem, ?_⟩
        rw [EventTable.status, hget, Option.map_some, Option.some.injEq]
        have hpend := fun h => hw w hmem ⟨_, hget, h⟩
        have hcomp := fun h => hnot (complete_iff.mpr ⟨_, hget, h⟩)
        cases hst : es[w].status with
        | queued => exact absurd (Or.inl hst) hpend
        | running => exact absurd (Or.inr hst) hpend
        | complete => exact absurd hst hcomp
        | failed => rfl
      refine ⟨.terminate id, es.set id ⟨none, waits, .failed, started⟩, rfl, ?_⟩
      simp only [deviceStep, he, if_pos hfail]
  · refine ⟨.finish id true, es.set id ⟨none, waits, .complete, started⟩, rfl, ?_⟩
    simp only [deviceStep, he, if_true]

/-! ## Completion -/

theorem complete_append {l : List (Event Owner)} (hl : Fresh l) {id : Nat} :
    Complete (es ++ l) id ↔ Complete es id := by
  refine ⟨fun hc => ?_, (extends_append (fun _ => False) es l).complete⟩
  obtain ⟨e, he, hs⟩ := complete_iff.mp hc
  rw [List.getElem?_append] at he
  split at he
  · exact complete_iff.mpr ⟨e, he, hs⟩
  · rw [(hl e (List.mem_of_getElem? he)).1] at hs
    cases hs

theorem complete_set {id i : Nat} {e : Event Owner} (hlt : id < es.length) :
    Complete (es.set id e) i ↔ if i = id then e.status = .complete else Complete es i := by
  unfold Complete status
  by_cases hi : i = id
  · rw [if_pos hi, hi, List.getElem?_set_self hlt, Option.map_some, Option.some.injEq]
  · rw [if_neg hi, List.getElem?_set_ne (Ne.symm hi)]

/-- The device makes an event complete by finishing it. -/
theorem deviceStep_complete {l : DeviceLabel} (hs : deviceStep es l = some es') {i : Nat} :
    Complete es' i ↔ Complete es i ∨ l = .finish i true := by
  have hset : ∀ {id : Nat} {e e' : Event Owner}, es[id]? = some e → e.status ≠ .complete →
      (Complete (es.set id e') i ↔ Complete es i ∨ (i = id ∧ e'.status = .complete)) := by
    intro id e e' he hne
    have hnot : ¬Complete es id := fun hc => by
      obtain ⟨e₁, he₁, hs₁⟩ := complete_iff.mp hc
      rw [he, Option.some.injEq] at he₁
      exact hne (he₁ ▸ hs₁)
    rw [complete_set (List.getElem?_eq_some_iff.mp he).1]
    by_cases hi : i = id
    · subst hi
      simp only [if_true, true_and, hnot, false_or]
    · simp only [hi, if_false, false_and, or_false]
  cases l with
  | start id =>
    simp only [deviceStep] at hs
    split at hs
    · rename_i waits started he
      simp only [Option.ite_none_right_eq_some, Option.some.injEq] at hs
      obtain ⟨_, rfl⟩ := hs
      rw [hset he nofun]
      simp
    · cases hs
  | finish id success =>
    simp only [deviceStep] at hs
    split at hs
    · rename_i waits started he
      cases hs
      rw [hset he nofun]
      cases success with
      | true => simp [eq_comm]
      | false => simp
    · cases hs
  | terminate id =>
    simp only [deviceStep] at hs
    split at hs
    · rename_i waits started he
      simp only [Option.ite_none_right_eq_some, Option.some.injEq] at hs
      obtain ⟨_, rfl⟩ := hs
      rw [hset he nofun]
      simp
    · cases hs

/-- A move of the device is about a command that is not complete; what is over has started. -/
theorem deviceStep_command {l : DeviceLabel} (h : Ok es) (hs : deviceStep es l = some es') :
    (∃ e, es[l.id]? = some e ∧ e.owner = none) ∧ ¬Complete es l.id ∧
      ∀ success, l = .finish l.id success → Started es l.id := by
  have hnot : ∀ {id : Nat} {e : Event Owner}, es[id]? = some e → e.status ≠ .complete →
      ¬Complete es id := by
    intro id e he hne hc
    obtain ⟨e', he', hs'⟩ := complete_iff.mp hc
    rw [he, Option.some.injEq] at he'
    exact hne (he' ▸ hs')
  cases l with
  | start id =>
    simp only [deviceStep] at hs
    split at hs
    · rename_i waits started he
      exact ⟨⟨_, he, rfl⟩, hnot he nofun, nofun⟩
    · cases hs
  | finish id success =>
    simp only [deviceStep] at hs
    split at hs
    · rename_i waits started he
      exact ⟨⟨_, he, rfl⟩, hnot he nofun, fun _ _ => ⟨_, he, h.started id _ he rfl (Or.inl rfl)⟩⟩
    · cases hs
  | terminate id =>
    simp only [deviceStep] at hs
    split at hs
    · rename_i waits started he
      exact ⟨⟨_, he, rfl⟩, hnot he nofun, nofun⟩
    · cases hs

/-- Settling an event that is still queued decides it. -/
theorem settle_complete {id : Nat} {e : Event Owner} (he : es[id]? = some e) (ho : e.owner ≠ none)
    (hq : e.status = .queued) (success : Bool) {i : Nat} :
    Complete (settle es id success) i ↔ Complete es i ∨ (i = id ∧ success = true) := by
  obtain ⟨owner, waits, st, started⟩ := e
  simp only at ho hq
  subst hq
  obtain ⟨o, rfl⟩ := Option.ne_none_iff_exists'.mp ho
  have hnot : ¬Complete es id := fun hc => by
    obtain ⟨e', he', hs'⟩ := complete_iff.mp hc
    rw [he, Option.some.injEq] at he'
    subst he'
    cases hs'
  unfold settle
  simp only [he]
  rw [complete_set (List.getElem?_eq_some_iff.mp he).1]
  by_cases hi : i = id
  · subst hi
    cases success <;> simp [hnot]
  · simp only [hi, if_false, false_and, or_false]

/-- Settling leaves every other event alone. -/
theorem complete_settle_of_ne {id i : Nat} (hi : i ≠ id) (success : Bool) :
    Complete (settle es id success) i ↔ Complete es i := by
  unfold settle
  split
  · rename_i o waits started he
    rw [complete_set (List.getElem?_eq_some_iff.mp he).1, if_neg hi]
  · rfl

/-! ## Without failures -/

/-- No event has failed. -/
def NoneFailed (es : List (Event Owner)) : Prop := ∀ e ∈ es, e.status ≠ .failed

theorem NoneFailed.status_ne (h : NoneFailed es) (id : Nat) : status es id ≠ some .failed := by
  intro hs
  obtain ⟨e, he, hf⟩ := Option.map_eq_some_iff.mp hs
  exact h e (List.mem_of_getElem? he) hf

theorem NoneFailed.append (h : NoneFailed es) {l : List (Event Owner)} (hl : Fresh l) :
    NoneFailed (es ++ l) := by
  intro e he
  rcases List.mem_append.mp he with he | he
  · exact h e he
  · rw [(hl e he).1]
    nofun

theorem NoneFailed.settle (h : NoneFailed es) (id : Nat) :
    NoneFailed (EventTable.settle es id true) := by
  unfold EventTable.settle
  split
  · exact Table.forall_mem_set h id nofun
  · exact h

/-- The device terminates no command when no event has failed. -/
theorem NoneFailed.terminate (h : NoneFailed es) (id : Nat) :
    deviceStep es (.terminate id) = none := by
  simp only [deviceStep]
  split
  · exact if_neg fun ⟨w, _, hw⟩ => h.status_ne w hw
  · rfl

theorem NoneFailed.device (h : NoneFailed es) {l : DeviceLabel} (hl : ∀ id, l ≠ .finish id false)
    (hs : deviceStep es l = some es') : NoneFailed es' := by
  cases l with
  | start id =>
    simp only [deviceStep] at hs
    split at hs
    · simp only [Option.ite_none_right_eq_some, Option.some.injEq] at hs
      obtain ⟨_, rfl⟩ := hs
      exact Table.forall_mem_set h id nofun
    · cases hs
  | finish id success =>
    simp only [deviceStep] at hs
    split at hs
    · cases hs
      cases success with
      | true => exact Table.forall_mem_set h id nofun
      | false => exact absurd rfl (hl id)
    · cases hs
  | terminate id =>
    rw [h.terminate id] at hs
    cases hs

/-- An event that exists is pending unless it is complete. -/
theorem NoneFailed.pending (h : NoneFailed es) {id : Nat} (hlt : id < es.length)
    (hc : ¬Complete es id) : Pending es id := by
  have hget : es[id]? = some es[id] := List.getElem?_eq_getElem hlt
  refine ⟨_, hget, ?_⟩
  have hfail := h _ (List.getElem_mem hlt)
  have hcomp : es[id].status ≠ .complete := fun hs => hc (complete_iff.mpr ⟨_, hget, hs⟩)
  match hst : es[id].status with
  | .queued => exact .inl hst
  | .running => exact .inr hst
  | .complete => exact absurd hst hcomp
  | .failed => exact absurd hst hfail

/-- A command that can end can end well. -/
theorem deviceStep_finish {id : Nat} {success : Bool}
    (hs : deviceStep es (.finish id success) = some es') :
    status es id = some .running ∧ ∃ es'', deviceStep es (.finish id true) = some es'' := by
  simp only [deviceStep] at hs ⊢
  split at hs
  · rename_i waits started he
    exact ⟨by rw [status, he]; rfl, _, rfl⟩
  · cases hs

/-- An owned event that a step leaves alone keeps its status. -/
theorem Extends.status_of_owned (h : Extends moved es es') {id : Nat} {e : Event Owner}
    (he : es[id]? = some e) (ho : e.owner ≠ none) (hm : ¬moved id) :
    status es' id = status es id := by
  obtain ⟨e', he', _, _, _, _, hsame⟩ := h id e he
  rw [status, status, he, he', Option.map_some, Option.map_some, hsame ho hm]

end EventTable
end Clpkm
