import Clpkm.CommandQueue.Device

/-!
# Which command executes which task

The commands of a queue and the tasks of its callers belong together: the command of a call
does what the call asks for, the slices of a work are those of the kernel that its call has
launched, and no two calls are complete with the same event.  `Wiring` says so of the parts of
a state that steps of the device leave alone.  `Wired` adds what changes with the events: when
the kernel of the last slice is complete, every work-item has left it.
-/

namespace Clpkm
namespace CommandQueue
open Lang EventTable

variable {Var Val Mem Block : Type} [DecidableEq Var] {I : Interp Val Mem}

/-- Who executes what: the calls and their tasks, what commands do, the launches of the works
and the slices of the works. -/
structure Wiring (calls : List TaskBlocker.Call) (tasks : List (Task Var Block I))
    (operation : Nat → Operation Mem) (launches : List (Launch Var Block I))
    (slices : List (List (Nat × Nat))) : Prop where
  length_launches : launches.length = slices.length
  length_tasks : tasks.length = calls.length
  command : ∀ (j : Nat) (c : TaskBlocker.Call), calls[j]? = some c → c.work = none →
    ∃ f, tasks[j]? = some (.command f) ∧ operation c.first = .command f
  kernel : ∀ (j : Nat) (c : TaskBlocker.Call) (w : Nat), calls[j]? = some c → c.work = some w →
    ∃ l, launches[w]? = some l ∧ tasks[j]? = some (.kernel l)
  /-- Such a command is the command of a call. -/
  ofCommand : ∀ id f, operation id = .command f → ∃ (j : Nat) (c : TaskBlocker.Call),
    calls[j]? = some c ∧ c.work = none ∧ c.first = id
  slice : ∀ id w, operation id = .slice w ↔
    ∃ ps, slices[w]? = some ps ∧ id ∈ ps.map Prod.fst
  ofWork : ∀ (w : Nat) (ps : List (Nat × Nat)), slices[w]? = some ps →
    ∃ (j : Nat) (c : TaskBlocker.Call), calls[j]? = some c ∧ c.work = some w
  final : ∀ (i j : Nat) (a b : TaskBlocker.Call), calls[i]? = some a → calls[j]? = some b →
    a.final = b.final → i = j

section
variable {calls : List TaskBlocker.Call} {tasks : List (Task Var Block I)}
  {operation : Nat → Operation Mem} {launches : List (Launch Var Block I)}
  {slices : List (List (Nat × Nat))} {n : Nat}

theorem wiring_nil : Wiring [] ([] : List (Task Var Block I)) (fun _ => .none) [] [] where
  length_launches := rfl
  length_tasks := rfl
  command := nofun
  kernel := nofun
  ofCommand := nofun
  slice _ _ := ⟨nofun, nofun⟩
  ofWork := nofun
  final := nofun

/-- A new command does not stand in for one that exists. -/
theorem Wiring.first_ne (hcalls : ∀ c ∈ calls, c.final < n ∧ c.first < n) {j k : Nat}
    {c : TaskBlocker.Call} (hc : calls[j]? = some c) (hk : n ≤ k) : c.first ≠ k := by
  have := (hcalls c (List.mem_of_getElem? hc)).2
  omega

/-- The call at the end has an event of its own. -/
theorem Wiring.final_concat (h : Wiring calls tasks operation launches slices)
    (hcalls : ∀ c ∈ calls, c.final < n ∧ c.first < n) {d : TaskBlocker.Call} (hd : n ≤ d.final)
    (i j : Nat) (a b : TaskBlocker.Call) (ha : (calls ++ [d])[i]? = some a)
    (hb : (calls ++ [d])[j]? = some b) (hab : a.final = b.final) : i = j := by
  have hlt : ∀ {k : Nat} {c : TaskBlocker.Call}, calls[k]? = some c → c.final < n :=
    fun hc => (hcalls _ (List.mem_of_getElem? hc)).1
  rcases Table.getElem?_concat_iff.mp ha with ha | ⟨hi, rfl⟩ <;>
    rcases Table.getElem?_concat_iff.mp hb with hb | ⟨hj, rfl⟩
  · exact h.final i j a b ha hb hab
  · have := hlt ha
    omega
  · have := hlt hb
    omega
  · rw [hi, hj]

/-- A call of `ReorderCore`. -/
theorem Wiring.reorder (h : Wiring calls tasks operation launches slices)
    (hcalls : ∀ c ∈ calls, c.final < n ∧ c.first < n)
    (hslices : ∀ ps ∈ slices, ∀ p ∈ ps, p.1 < n) (waits : List Nat) (f : Mem → Mem) :
    Wiring (calls ++ [⟨waits, n, n, none⟩]) (tasks ++ [.command f])
      (Function.update operation n (.command f)) launches slices where
  length_launches := h.length_launches
  length_tasks := by
    rw [List.length_append, List.length_append, h.length_tasks]
    rfl
  command j c hc hw := by
    rcases Table.getElem?_concat_iff.mp hc with hc | ⟨rfl, rfl⟩
    · obtain ⟨g, hg, hop⟩ := h.command j c hc hw
      refine ⟨g, Table.getElem?_concat_iff.mpr (.inl hg), ?_⟩
      rw [Function.update_of_ne (first_ne hcalls hc (Nat.le_refl n))]
      exact hop
    · exact ⟨f, Table.getElem?_concat_iff.mpr (.inr ⟨h.length_tasks.symm, rfl⟩),
        Function.update_self _ _ _⟩
  kernel j c w hc hw := by
    rcases Table.getElem?_concat_iff.mp hc with hc | ⟨_, rfl⟩
    · obtain ⟨l, hl, ht⟩ := h.kernel j c w hc hw
      exact ⟨l, hl, Table.getElem?_concat_iff.mpr (.inl ht)⟩
    · cases hw
  ofCommand id g hop := by
    by_cases hid : id = n
    · exact ⟨calls.length, _, List.getElem?_concat_length, rfl, hid.symm⟩
    · rw [Function.update_of_ne hid] at hop
      obtain ⟨j, c, hc, hrest⟩ := h.ofCommand id g hop
      exact ⟨j, c, Table.getElem?_concat_iff.mpr (.inl hc), hrest⟩
  slice id w := by
    by_cases hid : id = n
    · rw [hid, Function.update_self]
      refine ⟨nofun, ?_⟩
      rintro ⟨ps, hps, hmem⟩
      obtain ⟨p, hp, hpn⟩ := List.mem_map.mp hmem
      have := hslices ps (List.mem_of_getElem? hps) p hp
      omega
    · rw [Function.update_of_ne hid]
      exact h.slice id w
  ofWork w ps hps := by
    obtain ⟨j, c, hc, hw⟩ := h.ofWork w ps hps
    exact ⟨j, c, Table.getElem?_concat_iff.mpr (.inl hc), hw⟩
  final := h.final_concat hcalls (Nat.le_refl n)

/-- A launch whose vendor calls all succeed. -/
theorem Wiring.launch (h : Wiring calls tasks operation launches slices)
    (hcalls : ∀ c ∈ calls, c.final < n ∧ c.first < n)
    (hslices : ∀ ps ∈ slices, ∀ p ∈ ps, p.1 < n) (waits : List Nat) (l : Launch Var Block I) :
    Wiring (calls ++ [⟨waits, n + 2, n + 1, some slices.length⟩]) (tasks ++ [.kernel l])
      (Function.update operation (n + 2) (.slice slices.length)) (launches ++ [l])
      (slices ++ [[(n + 2, n + 3)]]) where
  length_launches := by
    rw [List.length_append, List.length_append, h.length_launches]
    rfl
  length_tasks := by
    rw [List.length_append, List.length_append, h.length_tasks]
    rfl
  command j c hc hw := by
    rcases Table.getElem?_concat_iff.mp hc with hc | ⟨_, rfl⟩
    · obtain ⟨g, hg, hop⟩ := h.command j c hc hw
      refine ⟨g, Table.getElem?_concat_iff.mpr (.inl hg), ?_⟩
      rw [Function.update_of_ne (first_ne hcalls hc (by omega))]
      exact hop
    · cases hw
  kernel j c w hc hw := by
    rcases Table.getElem?_concat_iff.mp hc with hc | ⟨rfl, rfl⟩
    · obtain ⟨k, hk, ht⟩ := h.kernel j c w hc hw
      exact ⟨k, Table.getElem?_concat_iff.mpr (.inl hk), Table.getElem?_concat_iff.mpr (.inl ht)⟩
    · cases hw
      exact ⟨l, Table.getElem?_concat_iff.mpr (.inr ⟨h.length_launches.symm, rfl⟩),
        Table.getElem?_concat_iff.mpr (.inr ⟨h.length_tasks.symm, rfl⟩)⟩
  ofCommand id g hop := by
    by_cases hid : id = n + 2
    · rw [hid, Function.update_self] at hop
      cases hop
    · rw [Function.update_of_ne hid] at hop
      obtain ⟨j, c, hc, hrest⟩ := h.ofCommand id g hop
      exact ⟨j, c, Table.getElem?_concat_iff.mpr (.inl hc), hrest⟩
  slice id w := by
    have hold : ∀ ps ∈ slices, ∀ p ∈ ps, p.1 ≠ n + 2 := fun ps hps p hp => by
      have := hslices ps hps p hp
      omega
    by_cases hid : id = n + 2
    · rw [hid, Function.update_self]
      constructor
      · intro hw
        cases hw
        exact ⟨_, List.getElem?_concat_length, List.mem_singleton.mpr rfl⟩
      · rintro ⟨ps, hps, hmem⟩
        obtain ⟨p, hp, hpn⟩ := List.mem_map.mp hmem
        rcases Table.getElem?_concat_iff.mp hps with hps | ⟨rfl, _⟩
        · exact absurd hpn (hold ps (List.mem_of_getElem? hps) p hp)
        · rfl
    · rw [Function.update_of_ne hid, h.slice]
      constructor
      · rintro ⟨ps, hps, hmem⟩
        exact ⟨ps, Table.getElem?_concat_iff.mpr (.inl hps), hmem⟩
      · rintro ⟨ps, hps, hmem⟩
        rcases Table.getElem?_concat_iff.mp hps with hps | ⟨_, rfl⟩
        · exact ⟨ps, hps, hmem⟩
        · exact absurd (List.mem_singleton.mp hmem) hid
  ofWork w ps hps := by
    rcases Table.getElem?_concat_iff.mp hps with hps | ⟨rfl, _⟩
    · obtain ⟨j, c, hc, hw⟩ := h.ofWork w ps hps
      exact ⟨j, c, Table.getElem?_concat_iff.mpr (.inl hc), hw⟩
    · exact ⟨calls.length, _, List.getElem?_concat_length, rfl⟩
  final := h.final_concat hcalls (Nat.le_succ n)

/-- Another slice of a work. -/
theorem Wiring.again (h : Wiring calls tasks operation launches slices)
    (hcalls : ∀ c ∈ calls, c.final < n ∧ c.first < n)
    (hslices : ∀ ps ∈ slices, ∀ p ∈ ps, p.1 < n) {w : Nat} {ps : List (Nat × Nat)}
    (hw : slices[w]? = some ps) {run : Nat} (hrun : n ≤ run) (read : Nat) :
    Wiring calls tasks (Function.update operation run (.slice w)) launches
      (slices.set w (ps ++ [(run, read)])) where
  length_launches := by rw [List.length_set, h.length_launches]
  length_tasks := h.length_tasks
  command j c hc hn := by
    rw [Function.update_of_ne (first_ne hcalls hc hrun)]
    exact h.command j c hc hn
  kernel := h.kernel
  ofCommand id f hop := by
    by_cases hid : id = run
    · rw [hid, Function.update_self] at hop
      cases hop
    · rw [Function.update_of_ne hid] at hop
      exact h.ofCommand id f hop
  slice id v := by
    have hold : ∀ qs ∈ slices, run ∉ qs.map Prod.fst := fun qs hqs hmem => by
      obtain ⟨p, hp, hpn⟩ := List.mem_map.mp hmem
      have := hslices qs hqs p hp
      omega
    by_cases hid : id = run
    · rw [hid, Function.update_self]
      constructor
      · intro hv
        cases hv
        refine ⟨_, (Table.getElem?_set_iff hw).mpr (.inl ⟨rfl, rfl⟩), ?_⟩
        rw [List.map_append]
        exact List.mem_append_right _ (List.mem_singleton.mpr rfl)
      · rintro ⟨qs, hqs, hmem⟩
        rcases (Table.getElem?_set_iff hw).mp hqs with ⟨rfl, _⟩ | ⟨_, hqs⟩
        · rfl
        · exact absurd hmem (hold qs (List.mem_of_getElem? hqs))
    · rw [Function.update_of_ne hid, h.slice]
      have hlast : id ∈ (ps ++ [(run, read)]).map Prod.fst ↔ id ∈ ps.map Prod.fst := by
        rw [List.map_append, List.mem_append]
        exact ⟨fun hmem => hmem.resolve_right fun hmem => hid (List.mem_singleton.mp hmem), .inl⟩
      constructor
      · rintro ⟨qs, hqs, hmem⟩
        by_cases hv : v = w
        · subst hv
          rw [hw, Option.some.injEq] at hqs
          subst hqs
          exact ⟨_, (Table.getElem?_set_iff hw).mpr (.inl ⟨rfl, rfl⟩), hlast.mpr hmem⟩
        · exact ⟨qs, (Table.getElem?_set_iff hw).mpr (.inr ⟨hv, hqs⟩), hmem⟩
      · rintro ⟨qs, hqs, hmem⟩
        rcases (Table.getElem?_set_iff hw).mp hqs with ⟨rfl, rfl⟩ | ⟨_, hqs⟩
        · exact ⟨ps, hw, hlast.mp hmem⟩
        · exact ⟨qs, hqs, hmem⟩
  ofWork v qs hqs := by
    rcases (Table.getElem?_set_iff hw).mp hqs with ⟨rfl, _⟩ | ⟨_, hqs⟩
    · exact h.ofWork v ps hw
    · exact h.ofWork v qs hqs
  final := h.final

end

/-! ## The invariant -/

/-- The wiring of a state, and what the callbacks rely on. -/
structure Wired (s : State Var Block I) : Prop where
  wiring : Wiring s.queue.calls s.tasks s.operation (s.runs.map Run.launch)
    (s.queue.works.map TaskBlocker.Work.slices)
  shallReorder : s.queue.shallReorder = true
  queued : ∀ (w : Nat) (work : TaskBlocker.Work), s.queue.works[w]? = some work →
    work.active = true → status s.queue.events work.final = some .queued
  /-- When every slice is complete, the work-items have left the last one. -/
  idle : ∀ (w : Nat) (work : TaskBlocker.Work) (r : Run Var Block I),
    s.queue.works[w]? = some work → s.runs[w]? = some r → work.active = true →
    (∀ p ∈ work.slices, Complete s.queue.events p.1) → r.items.idle = true

theorem wired_init (m : Mem) : Wired (State.init true m : State Var Block I) where
  wiring := wiring_nil
  shallReorder := rfl
  queued := nofun
  idle := nofun

/-- The events of calls exist. -/
theorem calls_lt {q : TaskBlocker.State} (h : TaskBlocker.Inv q) :
    ∀ c ∈ q.calls, c.final < q.events.length ∧ c.first < q.events.length := by
  intro c hc
  have hok := h.calls c hc
  obtain ⟨e, he, _⟩ := hok.first
  have hfirst := (List.getElem?_eq_some_iff.mp he).1
  refine ⟨?_, hfirst⟩
  rcases hw : c.work with _ | w
  · rw [hok.command hw]
    exact hfirst
  · obtain ⟨work, hwork, hfinal, _⟩ := hok.kernel w hw
    obtain ⟨f, hf, _⟩ := (h.works w work hwork).final
    rw [← hfinal]
    exact (List.getElem?_eq_some_iff.mp hf).1

/-- So do the kernels of slices. -/
theorem slices_lt {q : TaskBlocker.State} (h : TaskBlocker.Inv q) :
    ∀ ps ∈ q.works.map TaskBlocker.Work.slices, ∀ p ∈ ps, p.1 < q.events.length := by
  intro ps hps p hp
  obtain ⟨work, hwork, rfl⟩ := List.mem_map.mp hps
  obtain ⟨w, hw⟩ := List.mem_iff_getElem?.mp hwork
  obtain ⟨e, he, _⟩ := (h.works w work hw).run p hp
  exact (List.getElem?_eq_some_iff.mp he).1

variable {s t : State Var Block I} {es : List (Event TaskBlocker.Owner)}

/-- A slice is the kernel of a work, and a command of the device. -/
theorem Wired.slice (h : Wired s) (hq : TaskBlocker.Inv s.queue) {id w : Nat}
    (hop : s.operation id = .slice w) :
    ∃ work, s.queue.works[w]? = some work ∧ (∃ p ∈ work.slices, p.1 = id) ∧
      ∃ e, s.queue.events[id]? = some e ∧ e.owner = none := by
  obtain ⟨ps, hps, hmem⟩ := (h.wiring.slice id w).mp hop
  rw [List.getElem?_map] at hps
  obtain ⟨work, hwork, rfl⟩ := Option.map_eq_some_iff.mp hps
  obtain ⟨p, hp, rfl⟩ := List.mem_map.mp hmem
  exact ⟨work, hwork, ⟨p, hp, rfl⟩, (hq.works w work hwork).run p hp⟩

theorem Wired.operation_slice (h : Wired s) {w : Nat} {work : TaskBlocker.Work}
    (hw : s.queue.works[w]? = some work) {p : Nat × Nat} (hp : p ∈ work.slices) :
    s.operation p.1 = .slice w := by
  refine (h.wiring.slice p.1 w).mpr ⟨work.slices, ?_, List.mem_map_of_mem hp⟩
  rw [List.getElem?_map, hw]
  rfl

/-- A step that moves events or adds some.  A slice becomes complete only when its work-items
have left it. -/
theorem Wired.setEvents (h : Wired s) (m : Mem)
    (hqueued : ∀ (w : Nat) (work : TaskBlocker.Work), s.queue.works[w]? = some work →
      status es work.final = status s.queue.events work.final)
    (hover : ∀ id w r, s.operation id = .slice w → s.runs[w]? = some r → Complete es id →
      Complete s.queue.events id ∨ r.items.idle = true) :
    Wired { s with queue := { s.queue with events := es }, mem := m } where
  wiring := h.wiring
  shallReorder := h.shallReorder
  queued w work hw ha := (hqueued w work hw).trans (h.queued w work hw ha)
  idle w work r hw hr ha hall := by
    by_cases hold : ∀ p ∈ work.slices, Complete s.queue.events p.1
    · exact h.idle w work r hw hr ha hold
    · simp only [not_forall] at hold
      obtain ⟨p, hp, hnot⟩ := hold
      exact (hover p.1 w r (h.operation_slice hw hp) hr (hall p hp)).resolve_left hnot

/-- Events that are appended leave the final events alone. -/
theorem status_append {q : TaskBlocker.State} (hq : TaskBlocker.Inv q)
    (l : List (Event TaskBlocker.Owner)) {w : Nat} {work : TaskBlocker.Work}
    (hw : q.works[w]? = some work) :
    status (q.events ++ l) work.final = status q.events work.final := by
  obtain ⟨e, he, ho⟩ := (hq.works w work hw).final
  have hext := extends_append (fun _ => False) q.events l
  exact hext.status_of_owned he (by rw [ho]; nofun) fun hf => hf

theorem Wired.appendEvents (h : Wired s) (hq : TaskBlocker.Inv s.queue)
    {l : List (Event TaskBlocker.Owner)} (hl : Fresh l) :
    Wired { s with queue := { s.queue with events := s.queue.events ++ l } } :=
  h.setEvents s.mem (fun _ _ hw => status_append hq l hw)
    fun _ _ _ _ _ hc => .inl ((complete_append hl).mp hc)

/-- A move of the device. -/
theorem Wired.device (h : Wired s) (hq : TaskBlocker.Inv s.queue) {l : DeviceLabel}
    (hmay : s.mayMove l = true) (hs : deviceStep s.queue.events l = some es) (m : Mem) :
    Wired { s with queue := { s.queue with events := es }, mem := m } := by
  obtain ⟨hext, _⟩ := hq.events.device (fun _ => False) hs
  refine h.setEvents m (fun w work hw => ?_) fun id w r hop hr hc => ?_
  · obtain ⟨e, he, ho⟩ := (hq.works w work hw).final
    exact hext.status_of_owned he (by rw [ho]; nofun) fun hf => hf
  · rcases (deviceStep_complete hs).mp hc with hc | rfl
    · exact .inl hc
    · rw [State.mayMove, hop] at hmay
      simp only [hr, Option.all_some] at hmay
      exact .inr hmay

/-- An event from elsewhere is settled. -/
theorem Wired.settleForeign (h : Wired s) (hq : TaskBlocker.Inv s.queue) {id : Nat}
    (ho : s.queue.events[id]?.bind Event.owner = some .foreign) (success : Bool) :
    Wired { s with queue := { s.queue with events := settle s.queue.events id success } } := by
  obtain ⟨hext, _⟩ := hq.events.settle id success
  refine h.setEvents s.mem (fun w work hw => ?_) fun i w r hop _ hc => .inl ?_
  · obtain ⟨e, he, howner⟩ := (hq.works w work hw).final
    refine hext.status_of_owned he (by rw [howner]; nofun) fun hid => ?_
    rw [← hid, he, Option.bind_some, howner] at ho
    cases ho
  · obtain ⟨_, _, _, e, he, howner⟩ := h.slice hq hop
    refine (complete_settle_of_ne (fun hid => ?_) success).mp hc
    rw [← hid, he, Option.bind_some, howner] at ho
    cases ho

/-- A call of `ReorderCore` that succeeds. -/
theorem Wired.reorder (h : Wired s) (hq : TaskBlocker.Inv s.queue) (waits : List Nat)
    (f : Mem → Mem) : Wired (s.reorder waits true f) where
  wiring := h.wiring.reorder (calls_lt hq) (slices_lt hq) _ f
  shallReorder := h.shallReorder
  queued w work hw ha := (status_append hq _ hw).trans (h.queued w work hw ha)
  idle w work r hw hr ha hall := h.idle w work r hw hr ha fun p hp =>
    (complete_append (TaskBlocker.fresh_command _)).mp (hall p hp)

/-- What is there after a launch whose vendor calls all succeed. -/
theorem State.launch_succeeded (waits : List Nat) {done : Nat} (hdone : 5 ≤ done)
    (l : Launch Var Block I) : s.launch waits done l = { s with
      queue := { s.queue with
        events := s.queue.events ++ TaskBlocker.launchEvents s.queue waits
        works := s.queue.works ++
          [⟨s.queue.events.length + 1,
            [(s.queue.events.length + 2, s.queue.events.length + 3)], true⟩]
        calls := s.queue.calls ++
          [⟨waits ++ [s.queue.events.length] ++ s.queue.taskBlocker.toList,
            s.queue.events.length + 2, s.queue.events.length + 1, some s.queue.works.length⟩]
        taskBlocker :=
          if s.queue.shallReorder then
            (TaskBlocker.moveAssign s.queue.taskBlocker (some (s.queue.events.length + 1))).1
          else s.queue.taskBlocker }
      operation := Function.update s.operation (s.queue.events.length + 2)
        (.slice s.queue.works.length)
      runs := s.runs ++ [⟨l, NDRange.Sliced.start I l.kernel l.clang l.env s.mem⟩]
      tasks := s.tasks ++ [.kernel l] } := by
  have hlen : (TaskBlocker.launchEvents s.queue waits).length ≤ done := hdone
  simp only [State.launch, TaskBlocker.enqueueNDRangeKernel, if_pos hlen,
    List.take_of_length_le hlen]

/-- A launch whose vendor calls all succeed. -/
theorem Wired.launch (h : Wired s) (hq : TaskBlocker.Inv s.queue) (waits : List Nat) {done : Nat}
    (hdone : 5 ≤ done) (l : Launch Var Block I) : Wired (s.launch waits done l) := by
  have hfresh := TaskBlocker.launchEvents_fresh s.queue waits
  rw [State.launch_succeeded waits hdone l]
  refine ⟨?_, h.shallReorder, fun w work hw ha => ?_, fun w work r hw hr ha hall => ?_⟩
  · have hwiring := h.wiring.launch (calls_lt hq) (slices_lt hq)
      (waits ++ [s.queue.events.length] ++ s.queue.taskBlocker.toList) l
    rw [List.length_map] at hwiring
    simp only [List.map_append, List.map_cons, List.map_nil]
    exact hwiring
  · rcases Table.getElem?_concat_iff.mp hw with hw | ⟨rfl, rfl⟩
    · exact (status_append hq _ hw).trans (h.queued w work hw ha)
    · show status (s.queue.events ++ _) (s.queue.events.length + 1) = _
      rw [status, TaskBlocker.get_launchEvents s.queue waits 1]
      rfl
  · rcases Table.getElem?_concat_iff.mp hw with hw | ⟨rfl, rfl⟩
    · rcases Table.getElem?_concat_iff.mp hr with hr | ⟨hw', _⟩
      · exact h.idle w work r hw hr ha fun p hp => (complete_append hfresh).mp (hall p hp)
      · have hlt := (List.getElem?_eq_some_iff.mp hw).1
        have hlength := h.wiring.length_launches
        rw [List.length_map, List.length_map] at hlength
        omega
    · -- the kernel of the first slice has just been enqueued
      have hc := (complete_append hfresh).mp (hall _ (List.mem_singleton.mpr rfl))
      obtain ⟨e, he, _⟩ := complete_iff.mp hc
      have hlt := (List.getElem?_eq_some_iff.mp he).1
      omega

/-- What a step does to the work-items of a work does not change which launch they are. -/
theorem map_launch_set {runs : List (Run Var Block I)} {w : Nat} {r : Run Var Block I}
    (hr : runs[w]? = some r) (x : NDRange.Sliced Var Val Mem r.launch.n) :
    (runs.set w ⟨r.launch, x⟩).map Run.launch = runs.map Run.launch := by
  refine List.ext_getElem? fun v => ?_
  rw [List.getElem?_map, List.getElem?_map]
  by_cases hv : v = w
  · subst hv
    rw [List.getElem?_set_self (List.getElem?_eq_some_iff.mp hr).1, hr]
    rfl
  · rw [List.getElem?_set_ne (Ne.symm hv)]

/-- Nor does the end of a work change its slices. -/
theorem map_slices_set {works : List TaskBlocker.Work} {w : Nat} {work : TaskBlocker.Work}
    (hw : works[w]? = some work) (b : Bool) :
    (works.set w { work with active := b }).map TaskBlocker.Work.slices =
      works.map TaskBlocker.Work.slices := by
  refine List.ext_getElem? fun v => ?_
  rw [List.getElem?_map, List.getElem?_map]
  by_cases hv : v = w
  · subst hv
    rw [List.getElem?_set_self (List.getElem?_eq_some_iff.mp hw).1, hw]
    rfl
  · rw [List.getElem?_set_ne (Ne.symm hv)]

/-- A step of a work-item in a slice that is not complete. -/
theorem Wired.item (h : Wired s) {id w : Nat} {r : Run Var Block I}
    (hop : s.operation id = .slice w) (hr : s.runs[w]? = some r)
    (hid : ¬Complete s.queue.events id) (x : NDRange.Sliced Var Val Mem r.launch.n) (m : Mem) :
    Wired { s with runs := s.runs.set w ⟨r.launch, x⟩, mem := m } where
  wiring := by
    rw [map_launch_set hr]
    exact h.wiring
  shallReorder := h.shallReorder
  queued := h.queued
  idle v work r' hv hr' ha hall := by
    rcases (Table.getElem?_set_iff hr).mp hr' with ⟨rfl, _⟩ | ⟨_, hr'⟩
    · obtain ⟨ps, hps, hmem⟩ := (h.wiring.slice id v).mp hop
      rw [List.getElem?_map, hv] at hps
      cases hps
      obtain ⟨p, hp, rfl⟩ := List.mem_map.mp hmem
      exact absurd (hall p hp) hid
    · exact h.idle v work r' hv hr' ha hall

/-- The final events of two works are two events. -/
theorem final_ne {q : TaskBlocker.State} (hq : TaskBlocker.Inv q) {v w : Nat}
    {work work' : TaskBlocker.Work} (hv : q.works[v]? = some work)
    (hw : q.works[w]? = some work') (hvw : v ≠ w) : work.final ≠ work'.final := by
  intro heq
  obtain ⟨e, he, ho⟩ := (hq.works v work hv).final
  obtain ⟨e', he', ho'⟩ := (hq.works w work' hw).final
  rw [heq, he', Option.some.injEq] at he
  rw [he, ho, Option.some.injEq, TaskBlocker.Owner.final.injEq] at ho'
  exact hvw ho'

/-- The callback is done with its work. -/
theorem Wired.setFinal (h : Wired s) (hq : TaskBlocker.Inv s.queue) {w : Nat}
    {work : TaskBlocker.Work} (hw : s.queue.works[w]? = some work) (success : Bool)
    {runs : List (Run Var Block I)} (hlaunches : runs.map Run.launch = s.runs.map Run.launch)
    (hruns : ∀ v, v ≠ w → runs[v]? = s.runs[v]?) :
    Wired { s with queue := TaskBlocker.setFinal s.queue w work success, runs := runs } where
  wiring := by
    show Wiring s.queue.calls s.tasks s.operation (runs.map Run.launch)
      ((s.queue.works.set w { work with active := false }).map TaskBlocker.Work.slices)
    rw [hlaunches, map_slices_set hw]
    exact h.wiring
  shallReorder := h.shallReorder
  queued v work' hv ha := by
    rcases (Table.getElem?_set_iff hw).mp hv with ⟨_, rfl⟩ | ⟨hvw, hv⟩
    · cases ha
    · obtain ⟨e, he, ho⟩ := (hq.works v work' hv).final
      obtain ⟨hext, _⟩ := hq.events.settle work.final success
      exact (hext.status_of_owned he (by rw [ho]; nofun) (final_ne hq hv hw hvw)).trans
        (h.queued v work' hv ha)
  idle v work' r hv hr ha hall := by
    rcases (Table.getElem?_set_iff hw).mp hv with ⟨_, rfl⟩ | ⟨hvw, hv⟩
    · cases ha
    · refine h.idle v work' r hv (hruns v hvw ▸ hr) ha fun p hp => ?_
      refine (complete_settle_of_ne (fun hid => ?_) success).mp (hall p hp)
      -- a slice is a command, and the final event is none
      obtain ⟨e, he, ho⟩ := (hq.works v work' hv).run p hp
      obtain ⟨f, hf, hof⟩ := (hq.works w work hw).final
      rw [hid, hf, Option.some.injEq] at he
      rw [he, ho] at hof
      cases hof

/-- Another slice is enqueued. -/
theorem Wired.again (h : Wired s) (hq : TaskBlocker.Inv s.queue) {w : Nat}
    {work : TaskBlocker.Work} (hw : s.queue.works[w]? = some work)
    {l : List (Event TaskBlocker.Owner)} (hl : Fresh l) {run : Nat}
    (hrun : s.queue.events.length ≤ run) {r : Run Var Block I} (hr : s.runs[w]? = some r)
    (x : NDRange.Sliced Var Val Mem r.launch.n) :
    Wired { s with
      queue := { s.queue with
        events := s.queue.events ++ l
        works := s.queue.works.set w { work with slices := work.slices ++ [(run, run + 1)] } }
      operation := Function.update s.operation run (.slice w)
      runs := s.runs.set w ⟨r.launch, x⟩ } where
  wiring := by
    have hslices : (s.queue.works.map TaskBlocker.Work.slices)[w]? = some work.slices := by
      rw [List.getElem?_map, hw]
      rfl
    have hwiring := h.wiring.again (calls_lt hq) (slices_lt hq) hslices hrun (run + 1)
    rw [map_launch_set hr, List.map_set]
    exact hwiring
  shallReorder := h.shallReorder
  queued v work' hv ha := by
    rcases (Table.getElem?_set_iff hw).mp hv with ⟨rfl, rfl⟩ | ⟨hvw, hv⟩
    · exact (status_append hq l hw).trans (h.queued v work hw ha)
    · exact (status_append hq l hv).trans (h.queued v work' hv ha)
  idle v work' r' hv hr' ha hall := by
    rcases (Table.getElem?_set_iff hw).mp hv with ⟨rfl, rfl⟩ | ⟨hvw, hv⟩
    · -- its kernel has just been enqueued
      have hmem : (run, run + 1) ∈ work.slices ++ [(run, run + 1)] :=
        List.mem_append_right _ (List.mem_singleton.mpr rfl)
      obtain ⟨e, he, _⟩ := complete_iff.mp ((complete_append hl).mp (hall _ hmem))
      have := (List.getElem?_eq_some_iff.mp he).1
      omega
    · rw [List.getElem?_set_ne (Ne.symm hvw)] at hr'
      exact h.idle v work' r' hv hr' ha fun p hp => (complete_append hl).mp (hall p hp)

/-! ## Steps -/

/-- What a callback does to the queue: it goes on with its work if the last read is complete, and
gives up if it has failed. -/
theorem step_resume_cases {q q' : TaskBlocker.State} {w : Nat} {work : TaskBlocker.Work}
    {r : TaskBlocker.Resume} (hw : q.works[w]? = some work)
    (hs : TaskBlocker.step q (.resume w r) = some q') :
    work.active = true ∧
      ((work.slices.getLast?.bind (fun p => status q.events p.2) = some .complete ∧
        q' = TaskBlocker.resumeOrFinish q w work r) ∨
      (work.slices.getLast?.bind (fun p => status q.events p.2) = some .failed ∧
        q' = TaskBlocker.setFinal q w work false)) := by
  obtain ⟨final, slices, active⟩ := work
  simp only [TaskBlocker.step, hw] at hs
  cases active with
  | false => cases hs
  | true =>
    refine ⟨rfl, ?_⟩
    simp only at hs
    split at hs
    · rename_i hread
      cases hs
      exact .inl ⟨hread, rfl⟩
    · rename_i hread
      cases hs
      exact .inr ⟨hread, rfl⟩
    · cases hs

/-- **What a callback can do**: finish its task, enqueue another slice, or give up. -/
theorem State.resume_cases {w done : Nat} (hregular : done = 0 ∨ 4 ≤ done)
    (hs : s.resume w done = some t) :
    ∃ work, s.queue.works[w]? = some work ∧ work.active = true ∧
      ((∃ r r', s.runs[w]? = some r ∧ s.lastRead work = some .complete ∧
          s.inspect r = some (0, r') ∧ t = { s with
            queue := TaskBlocker.setFinal s.queue w work true, runs := s.runs.set w r' }) ∨
        (∃ r r' progress run l, s.runs[w]? = some r ∧ s.lastRead work = some .complete ∧
          s.inspect r = some (progress, r') ∧ progress ≠ 0 ∧ Fresh l ∧
          s.queue.events.length ≤ run ∧ t = { s with
            queue := { s.queue with
              events := s.queue.events ++ l
              works := s.queue.works.set w
                { work with slices := work.slices ++ [(run, run + 1)] } }
            operation := Function.update s.operation run (.slice w)
            runs := s.runs.set w r' }) ∨
        (done = 0 ∨ s.lastRead work = some .failed) ∧
          t = { s with queue := TaskBlocker.setFinal s.queue w work false }) := by
  simp only [State.resume, Option.bind_eq_bind, Option.bind_eq_some_iff, Option.pure_def] at hs
  obtain ⟨work, hw, r, hr, hs⟩ := hs
  by_cases hread : s.lastRead work = some .complete
  · rw [if_pos hread] at hs
    obtain ⟨⟨progress, r'⟩, hinspect, hs⟩ := Option.bind_eq_some_iff.mp hs
    simp only at hs
    by_cases h0 : progress = 0
    · rw [if_pos h0] at hs
      obtain ⟨q, hq, hs⟩ := Option.bind_eq_some_iff.mp hs
      obtain ⟨hactive, hcases⟩ := step_resume_cases hw hq
      rcases hcases with ⟨_, rfl⟩ | ⟨hnot, _⟩
      · subst h0
        cases hs
        exact ⟨work, hw, hactive, .inl ⟨r, r', hr, hread, hinspect, rfl⟩⟩
      · exact absurd (hread.symm.trans hnot) nofun
    · rw [if_neg h0] at hs
      obtain ⟨q, hq, hs⟩ := Option.bind_eq_some_iff.mp hs
      obtain ⟨hactive, hcases⟩ := step_resume_cases hw hq
      refine ⟨work, hw, hactive, ?_⟩
      rcases hcases with ⟨_, rfl⟩ | ⟨hnot, _⟩
      · rcases hregular with rfl | hdone
        -- nothing has been enqueued
        · rw [if_neg (Nat.not_lt_zero _)] at hs
          cases hs
          refine .inr (.inr ⟨.inl rfl, ?_⟩)
          simp only [TaskBlocker.resumeOrFinish, Nat.not_lt_zero, if_false, List.take_zero,
            List.append_nil]
        · have hlen : (TaskBlocker.sliceEvents s.queue (decide (progress < 0))).length < done := by
            cases decide (progress < 0) <;>
              simp only [TaskBlocker.sliceEvents, if_true, Bool.false_eq_true, if_false,
                List.length_cons, List.length_nil] <;> omega
          have hheader : (decide (progress < 0)).toNat < done := by
            have := Bool.toNat_le (decide (progress < 0))
            omega
          rw [if_pos hheader] at hs
          cases hs
          have hfresh := TaskBlocker.sliceEvents_fresh s.queue (decide (progress < 0))
          refine .inr (.inl ⟨r, r', progress,
            s.queue.events.length + (if decide (progress < 0) then 1 else 0), _, hr, hread,
            hinspect, h0, hfresh, Nat.le_add_right _ _, ?_⟩)
          have htake := List.take_of_length_le (Nat.le_of_lt hlen)
          simp only [TaskBlocker.resumeOrFinish, if_pos hlen, htake]
      · exact absurd (hread.symm.trans hnot) nofun
  · rw [if_neg hread] at hs
    obtain ⟨q, hq, hs⟩ := Option.bind_eq_some_iff.mp hs
    cases hs
    obtain ⟨hactive, hcases⟩ := step_resume_cases hw hq
    rcases hcases with ⟨hcomplete, _⟩ | ⟨hfailed, rfl⟩
    · exact absurd hcomplete hread
    · exact ⟨work, hw, hactive, .inr (.inr ⟨.inr hfailed, rfl⟩)⟩

/-- What a work-item can do: a step in a slice that is running. -/
theorem State.item_cases {id i : Nat} (hs : s.item id i = some t) :
    ∃ w r j x, s.operation id = .slice w ∧ s.runs[w]? = some r ∧
      status s.queue.events id = some .running ∧
      NDRange.Sliced.step I r.launch.kernel r.launch.clang r.launch.env r.launch.size
        (r.withMem s.mem) (.item j) = some x ∧
      t = { s with runs := s.runs.set w ⟨r.launch, x⟩, mem := x.mem } := by
  unfold State.item at hs
  match hop : s.operation id with
  | .slice w =>
    rw [hop] at hs
    simp only [Option.bind_eq_bind, Option.bind_eq_some_iff, Option.pure_def] at hs
    obtain ⟨r, hr, hs⟩ := hs
    by_cases h : status s.queue.events id = some .running ∧ i < r.launch.n
    · rw [dif_pos h] at hs
      obtain ⟨x, hx, hs⟩ := Option.bind_eq_some_iff.mp hs
      cases hs
      exact ⟨w, r, ⟨i, h.2⟩, x, rfl, hr, h.1, hx, rfl⟩
    · rw [dif_neg h] at hs
      cases hs
  | .none | .command _ =>
    rw [hop] at hs
    cases hs

theorem State.inspect_launch {r r' : Run Var Block I} {progress : Int}
    (h : s.inspect r = some (progress, r')) : ∃ x, r' = ⟨r.launch, x⟩ := by
  simp only [State.inspect, Option.bind_eq_bind, Option.bind_eq_some_iff, Option.pure_def,
    Option.some.injEq, Prod.mk.injEq] at h
  obtain ⟨_, _, x, _, _, rfl⟩ := h
  exact ⟨x, rfl⟩

/-- A launch that fails before its kernel has enqueued other commands. -/
theorem State.launch_failed (waits : List Nat) {done : Nat} (hdone : done ≤ 2)
    (l : Launch Var Block I) : ∃ es, Fresh es ∧ s.launch waits done l =
      { s with queue := { s.queue with events := s.queue.events ++ es } } := by
  have hlen : ¬(TaskBlocker.launchEvents s.queue waits).length ≤ done := by
    show ¬5 ≤ done
    omega
  refine ⟨_, TaskBlocker.fresh_take (TaskBlocker.launchEvents_fresh s.queue waits) done, ?_⟩
  simp only [State.launch, TaskBlocker.enqueueNDRangeKernel, if_neg hlen]

theorem fresh_foreign : Fresh [(owned .foreign : Event TaskBlocker.Owner)] := by
  intro e he
  rw [List.mem_singleton.mp he]
  exact ⟨rfl, rfl⟩

theorem not_complete_of_running {id : Nat} (h : status es id = some .running) :
    ¬Complete es id := by
  intro hc
  rw [Complete, h] at hc
  cases hc

/-- What the device can do. -/
theorem State.device_cases {l : DeviceLabel} (hs : s.step (.device l) = some t) :
    s.mayMove l = true ∧ ∃ es, deviceStep s.queue.events l = some es ∧
      t = { s with queue := { s.queue with events := es }, mem := s.memAfter l } := by
  rw [State.step, Option.ite_none_right_eq_some] at hs
  obtain ⟨hmay, hs⟩ := hs
  obtain ⟨q, hstep, rfl⟩ := Option.map_eq_some_iff.mp hs
  obtain ⟨es, hes, rfl⟩ := Option.map_eq_some_iff.mp hstep
  exact ⟨hmay, es, hes, rfl⟩

/-- What the owner of an event from elsewhere can do. -/
theorem State.settleForeign_cases {id : Nat} {success : Bool}
    (hs : s.step (.settleForeign id success) = some t) :
    s.queue.events[id]?.bind Event.owner = some .foreign ∧
      t = { s with queue := { s.queue with events := settle s.queue.events id success } } := by
  obtain ⟨q, hstep, rfl⟩ := Option.map_eq_some_iff.mp hs
  rw [TaskBlocker.step, Option.ite_none_right_eq_some, Option.some.injEq] at hstep
  obtain ⟨ho, rfl⟩ := hstep
  exact ⟨ho, rfl⟩

/-- **Every step keeps the wiring.** -/
theorem Wired.step (h : Wired s) (hq : TaskBlocker.Inv s.queue) {l : Label Var Block I}
    (hregular : Regular s l) (hs : s.step l = some t) : Wired t := by
  match l with
  | .foreign =>
    cases hs
    exact h.appendEvents hq fresh_foreign
  | .settleForeign id success =>
    obtain ⟨ho, rfl⟩ := State.settleForeign_cases hs
    exact h.settleForeign hq ho success
  | .device l =>
    obtain ⟨hmay, es, hes, rfl⟩ := State.device_cases hs
    exact h.device hq hmay hes _
  | .reorder waits success f =>
    cases hs
    cases success with
    | true => exact h.reorder hq waits f
    | false => exact h
  | .launch waits done l =>
    cases hs
    rcases hregular with hfailed | hdone
    · obtain ⟨es, hfresh, heq⟩ := State.launch_failed (s := s) waits hfailed l
      rw [heq]
      exact h.appendEvents hq hfresh
    · exact h.launch hq waits hdone l
  | .item id i =>
    obtain ⟨w, r, j, x, hop, hr, hrunning, _, rfl⟩ := State.item_cases hs
    exact h.item hop hr (not_complete_of_running hrunning) x x.mem
  | .resume w done =>
    obtain ⟨work, hw, _, ⟨r, r', hr, _, hinspect, rfl⟩ |
      ⟨r, r', _, _, _, hr, _, hinspect, _, hfresh, hrun, rfl⟩ | ⟨_, rfl⟩⟩ :=
      State.resume_cases hregular hs
    · obtain ⟨x, rfl⟩ := State.inspect_launch hinspect
      exact h.setFinal hq hw true (map_launch_set hr x)
        fun v hv => List.getElem?_set_ne (Ne.symm hv)
    · obtain ⟨x, rfl⟩ := State.inspect_launch hinspect
      exact h.again hq hw hfresh hrun hr x
    · exact h.setFinal hq hw false rfl fun _ _ => rfl

end CommandQueue
end Clpkm
