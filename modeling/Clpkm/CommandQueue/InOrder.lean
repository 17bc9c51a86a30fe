import Clpkm.CommandQueue.Wiring
import Clpkm.QueueProgress

/-!
# An in-order queue executes its tasks one after the other

The slices of a kernel are commands of a queue that executes out of order, and other calls are
enqueued behind a kernel while it is far from done.  `inOrder` says that none of this shows in
memory.  At any time the calls that are complete are the first ones on the queue.  Memory is what
their tasks make of it when each is executed as a whole after the one before, kernels as they are
written; and if the next call is a kernel, what some run of this kernel has made of it so far.
As for a single kernel the alternative is that the tasks so executed get to an undefined step.

`At` is the invariant: so many calls are complete, the next one may have begun, and the kernels
behind it are where they were enqueued.  A call is the next one when its wait list is complete
and its own event is not (`At.eq_of_waits`), since a wait list leads to all calls before.
-/

namespace Clpkm
open Lang Instrumentor UpdateHeader
namespace CommandQueue
open EventTable

variable {Var Val Mem Block : Type} [DecidableEq Var] {I : Interp Val Mem}

/-! ## One task after the other -/

/-- The kernel of a launch as it is written. -/
def Launch.plain (l : Launch Var Block I) (m : Mem) :
    Machine (NDRange.Plain Var Val Mem l.n) (Fin l.n) :=
  NDRange.plain I l.kernel l.env m

/-- What executing a task as a whole can make of memory. -/
def Task.Executes : Task Var Block I → Mem → Mem → Prop
  | .command f, m, m' => m' = f m
  | .kernel l, m, m' => ∃ p, (l.plain m).Reachable p ∧ p.Returned ∧ p.mem = m'

/-- What executing tasks in their order can make of memory. -/
def ExecuteAll : List (Task Var Block I) → Mem → Mem → Prop
  | [], m, m' => m' = m
  | t :: ts, m, m' => ∃ m₁, t.Executes m m₁ ∧ ExecuteAll ts m₁ m'

theorem ExecuteAll.concat {ts : List (Task Var Block I)} {t : Task Var Block I} {m m₁ m' : Mem}
    (h : ExecuteAll ts m m₁) (ht : t.Executes m₁ m') : ExecuteAll (ts ++ [t]) m m' := by
  induction ts generalizing m with
  | nil =>
    cases h
    exact ⟨m', ht, rfl⟩
  | cons u ts ih =>
    obtain ⟨m₂, hu, h⟩ := h
    exact ⟨m₂, hu, ih h⟩

theorem ExecuteAll.take_succ {ts : List (Task Var Block I)} {t : Task Var Block I}
    {m m₁ m' : Mem} {k : Nat} (h : ExecuteAll (ts.take k) m m₁) (hk : ts[k]? = some t)
    (ht : t.Executes m₁ m') : ExecuteAll (ts.take (k + 1)) m m' := by
  rw [List.take_add_one, hk]
  exact h.concat ht

/-- Executing the tasks can get to an undefined step of a kernel. -/
def Undefined (ts : List (Task Var Block I)) (m₀ : Mem) : Prop :=
  ∃ k m l p, ExecuteAll (ts.take k) m₀ m ∧ ts[k]? = some (.kernel l) ∧
    (l.plain m).Reachable p ∧ p.Undefined I

theorem Undefined.of_prefix {ts us : List (Task Var Block I)} {m₀ : Mem} (h : Undefined ts m₀)
    (hts : ts <+: us) : Undefined us m₀ := by
  obtain ⟨k, m, l, p, hall, hk, hp, hbad⟩ := h
  obtain ⟨vs, rfl⟩ := hts
  have hlt := (List.getElem?_eq_some_iff.mp hk).1
  refine ⟨k, m, l, p, ?_, (List.getElem?_append_left hlt).trans hk, hp, hbad⟩
  rw [List.take_append_of_le_length hlt.le]
  exact hall

/-! ## The invariant -/

/-- The work-items are where they have been enqueued. -/
def Run.Fresh (r : Run Var Block I) : Prop :=
  ∀ m, r.withMem m = NDRange.Sliced.start I r.launch.kernel r.launch.clang r.launch.env m

/-- The first `k` calls are complete and have left `m`; what else has become of memory is the
work of the next call. -/
structure At (s : State Var Block I) (m₀ : Mem) (k : Nat) (m : Mem) : Prop where
  executes : ExecuteAll (s.tasks.take k) m₀ m
  le : k ≤ s.queue.calls.length
  complete : ∀ (j : Nat) (c : TaskBlocker.Call), s.queue.calls[j]? = some c →
    (Complete s.queue.events c.final ↔ j < k)
  fresh : ∀ (j : Nat) (c : TaskBlocker.Call) (w : Nat) (r : Run Var Block I), k < j →
    s.queue.calls[j]? = some c → c.work = some w → s.runs[w]? = some r → r.Fresh
  mem : (∀ c : TaskBlocker.Call, s.queue.calls[k]? = some c → c.work = none) → s.mem = m
  kernel : ∀ (c : TaskBlocker.Call) (w : Nat) (r : Run Var Block I),
    s.queue.calls[k]? = some c → c.work = some w → s.runs[w]? = some r →
    ∃ p, (r.launch.plain m).Reachable p ∧
      NDRange.Inv I r.launch.clang r.launch.kernel p (r.withMem s.mem)

variable {s t : State Var Block I} {m₀ m : Mem} {k : Nat}

theorem at_init (m₀ : Mem) : At (State.init true m₀ : State Var Block I) m₀ 0 m₀ where
  executes := rfl
  le := Nat.le_refl 0
  complete := nofun
  fresh := nofun
  mem _ := rfl
  kernel := nofun

/-- Two calls do not share a work. -/
theorem Wired.work_inj (h : Wired s) (hq : TaskBlocker.Inv s.queue) {i j w : Nat}
    {a b : TaskBlocker.Call} (ha : s.queue.calls[i]? = some a) (hb : s.queue.calls[j]? = some b)
    (haw : a.work = some w) (hbw : b.work = some w) : i = j := by
  obtain ⟨work, hw, hfa, _⟩ := (hq.calls a (List.mem_of_getElem? ha)).kernel w haw
  obtain ⟨work', hw', hfb, _⟩ := (hq.calls b (List.mem_of_getElem? hb)).kernel w hbw
  rw [hw, Option.some.injEq] at hw'
  subst hw'
  exact h.wiring.final i j a b ha hb (hfa.symm.trans hfb)

/-- **The next call** is the one whose wait list is complete and whose event is not. -/
theorem At.eq_of_waits (h : At s m₀ k m) (hwired : Wired s) (hq : TaskBlocker.Inv s.queue)
    {j : Nat} {c : TaskBlocker.Call} (hc : s.queue.calls[j]? = some c)
    (hwaits : ∀ w ∈ c.waits, Complete s.queue.events w)
    (hnot : ¬Complete s.queue.events c.final) : j = k := by
  have hle : k ≤ j := Nat.le_of_not_lt fun hlt => hnot ((h.complete j c hc).mpr hlt)
  refine (Nat.eq_or_lt_of_le hle).elim Eq.symm fun hlt => ?_
  have hj := (List.getElem?_eq_some_iff.mp hc).1
  have ha : s.queue.calls[k]? = some s.queue.calls[k] := List.getElem?_eq_getElem (hlt.trans hj)
  obtain ⟨_, hearlier⟩ := hq.earlier hwired.shallReorder hlt ha hc
  exact absurd ((h.complete k _ ha).mp (hearlier hwaits).1) (Nat.lt_irrefl k)

/-- A step that makes no call complete and leaves memory and the work-items alone. -/
theorem At.keep (h : At s m₀ k m) (hcalls : t.queue.calls = s.queue.calls)
    (htasks : t.tasks = s.tasks) (hruns : t.runs = s.runs) (hmem : t.mem = s.mem)
    (hcomplete : ∀ c ∈ s.queue.calls,
      (Complete t.queue.events c.final ↔ Complete s.queue.events c.final)) :
    At t m₀ k m where
  executes := htasks ▸ h.executes
  le := hcalls ▸ h.le
  complete j c hc := by
    rw [hcalls] at hc
    exact (hcomplete c (List.mem_of_getElem? hc)).trans (h.complete j c hc)
  fresh j c w r := by
    rw [hcalls, hruns]
    exact h.fresh j c w r
  mem := by
    rw [hcalls, hmem]
    exact h.mem
  kernel c w r := by
    rw [hcalls, hruns, hmem]
    exact h.kernel c w r

/-- The next call becomes complete. -/
theorem At.advance (h : At s m₀ k m) {c : TaskBlocker.Call} (hc : s.queue.calls[k]? = some c)
    {u : Task Var Block I} (hu : s.tasks[k]? = some u) (hexec : u.Executes m t.mem)
    (hcalls : t.queue.calls = s.queue.calls) (htasks : t.tasks = s.tasks)
    (hruns : ∀ (j : Nat) (d : TaskBlocker.Call) (w : Nat), k < j →
      s.queue.calls[j]? = some d → d.work = some w → t.runs[w]? = s.runs[w]?)
    (hcomplete : ∀ (j : Nat) (d : TaskBlocker.Call), s.queue.calls[j]? = some d →
      (Complete t.queue.events d.final ↔ Complete s.queue.events d.final ∨ j = k)) :
    At t m₀ (k + 1) t.mem where
  executes := htasks ▸ h.executes.take_succ hu hexec
  le := hcalls ▸ (List.getElem?_eq_some_iff.mp hc).1
  complete j d hd := by
    rw [hcalls] at hd
    rw [hcomplete j d hd, h.complete j d hd]
    omega
  fresh j d w r hj hd hw hr := by
    rw [hcalls] at hd
    rw [hruns j d w (by omega) hd hw] at hr
    exact h.fresh j d w r (by omega) hd hw hr
  mem _ := rfl
  kernel d w r hd hw hr := by
    rw [hcalls] at hd
    rw [hruns (k + 1) d w (Nat.lt_succ_self k) hd hw] at hr
    refine ⟨_, .initial rfl, ?_⟩
    rw [h.fresh (k + 1) d w r (Nat.lt_succ_self k) hd hw hr]
    exact NDRange.inv_start (fun i => (r.launch.restores i).typed) r.launch.pos t.mem

/-- A new call at the end of the queue. -/
theorem At.enqueue (h : At s m₀ k m) {d : TaskBlocker.Call} {u : Task Var Block I}
    (hlen : s.tasks.length = s.queue.calls.length)
    (hcalls : t.queue.calls = s.queue.calls ++ [d]) (htasks : t.tasks = s.tasks ++ [u])
    (hmem : t.mem = s.mem)
    (hruns : ∀ (j : Nat) (c : TaskBlocker.Call) (w : Nat), s.queue.calls[j]? = some c →
      c.work = some w → t.runs[w]? = s.runs[w]?)
    (hnew : ∀ w r, d.work = some w → t.runs[w]? = some r → r.Fresh)
    (hcomplete : ∀ c ∈ s.queue.calls,
      (Complete t.queue.events c.final ↔ Complete s.queue.events c.final))
    (hd : ¬Complete t.queue.events d.final) : At t m₀ k m where
  executes := by
    rw [htasks, List.take_append_of_le_length (hlen ▸ h.le)]
    exact h.executes
  le := by
    rw [hcalls, List.length_append]
    exact h.le.trans (Nat.le_add_right _ _)
  complete j c hc := by
    rw [hcalls] at hc
    rcases Table.getElem?_concat_iff.mp hc with hc | ⟨rfl, rfl⟩
    · exact (hcomplete c (List.mem_of_getElem? hc)).trans (h.complete j c hc)
    · exact ⟨fun hc => absurd hc hd, fun hlt => absurd h.le (Nat.not_le.mpr hlt)⟩
  fresh j c w r hj hc hw hr := by
    rw [hcalls] at hc
    rcases Table.getElem?_concat_iff.mp hc with hc | ⟨_, rfl⟩
    · exact h.fresh j c w r hj hc hw (hruns j c w hc hw ▸ hr)
    · exact hnew w r hw hr
  mem hnone := by
    rw [hmem]
    refine h.mem fun c hc => hnone c ?_
    rw [hcalls]
    exact Table.getElem?_concat_iff.mpr (.inl hc)
  kernel c w r hc hw hr := by
    rw [hcalls] at hc
    rw [hmem]
    rcases Table.getElem?_concat_iff.mp hc with hc | ⟨rfl, rfl⟩
    · exact h.kernel c w r hc hw (hruns k c w hc hw ▸ hr)
    · -- all calls before are complete
      have hm : s.mem = m := h.mem fun c hc => by
        rw [List.getElem?_eq_none (Nat.le_refl _)] at hc
        cases hc
      refine ⟨_, .initial rfl, ?_⟩
      rw [hm, hnew w r hw hr]
      exact NDRange.inv_start (fun i => (r.launch.restores i).typed) r.launch.pos m

/-- What a move of the device, of a work-item or of a callback makes of the next call. -/
inductive Moved (s t : State Var Block I) (m₀ : Mem) (k : Nat) (m : Mem) : Prop
  | complete (m' : Mem) (h : At t m₀ (k + 1) m')
  /-- Its work-items stay where they are, and there is less to do for the device. -/
  | queue (h : At t m₀ k m) (hruns : t.runs = s.runs) (hmem : t.mem = s.mem)
      (hrank : t.queue.rank < s.queue.rank)
  /-- Its work-items take a step. -/
  | items (h : At t m₀ k m) {c : TaskBlocker.Call} {w : Nat} {r : Run Var Block I}
      {j : NDRange.Label r.launch.n} {x : NDRange.Sliced Var Val Mem r.launch.n}
      (hc : s.queue.calls[k]? = some c) (hw : c.work = some w) (hr : s.runs[w]? = some r)
      (hx : NDRange.Sliced.step I r.launch.kernel r.launch.clang r.launch.env r.launch.size
        (r.withMem s.mem) j = some x)
      (hruns : t.runs = s.runs.set w ⟨r.launch, x⟩) (hmem : t.mem = x.mem)

theorem Moved.exists_at (h : Moved s t m₀ k m) : ∃ k m, At t m₀ k m := by
  cases h with
  | complete m' h => exact ⟨_, m', h⟩
  | queue h => exact ⟨k, m, h⟩
  | items h => exact ⟨k, m, h⟩

/-! ## Kernels -/

/-- The call of a work. -/
theorem Wired.call_of_work (h : Wired s) (hq : TaskBlocker.Inv s.queue) {w : Nat}
    {work : TaskBlocker.Work} (hw : s.queue.works[w]? = some work) {r : Run Var Block I}
    (hr : s.runs[w]? = some r) :
    ∃ (j : Nat) (c : TaskBlocker.Call), s.queue.calls[j]? = some c ∧ c.work = some w ∧
      work.final = c.final ∧ c.runs s.queue = work.slices.map Prod.fst ∧
      s.tasks[j]? = some (.kernel r.launch) := by
  have hslices : (s.queue.works.map TaskBlocker.Work.slices)[w]? = some work.slices := by
    rw [List.getElem?_map, hw]
    rfl
  obtain ⟨j, c, hc, hcw⟩ := h.wiring.ofWork w work.slices hslices
  obtain ⟨work', hw', hfinal, _⟩ := (hq.calls c (List.mem_of_getElem? hc)).kernel w hcw
  rw [hw, Option.some.injEq] at hw'
  subst hw'
  obtain ⟨l, hl, ht⟩ := h.wiring.kernel j c w hc hcw
  rw [List.getElem?_map, hr] at hl
  cases hl
  refine ⟨j, c, hc, hcw, hfinal, ?_, ht⟩
  rw [TaskBlocker.Call.runs, hcw, Option.bind_some, hw]

/-- The work-items of the next call move on. -/
theorem At.setItems (h : At s m₀ k m) (hwired : Wired s) (hq : TaskBlocker.Inv s.queue)
    {c : TaskBlocker.Call} (hc : s.queue.calls[k]? = some c) {w : Nat} (hw : c.work = some w)
    {r : Run Var Block I} (hr : s.runs[w]? = some r) {x : NDRange.Sliced Var Val Mem r.launch.n}
    (hcalls : t.queue.calls = s.queue.calls) (htasks : t.tasks = s.tasks)
    (hruns : t.runs = s.runs.set w ⟨r.launch, x⟩) (hmem : t.mem = x.mem)
    (hcomplete : ∀ c ∈ s.queue.calls,
      (Complete t.queue.events c.final ↔ Complete s.queue.events c.final))
    (hx : ∃ p, (r.launch.plain m).Reachable p ∧
      NDRange.Inv I r.launch.clang r.launch.kernel p x) : At t m₀ k m where
  executes := htasks ▸ h.executes
  le := hcalls ▸ h.le
  complete j d hd := by
    rw [hcalls] at hd
    exact (hcomplete d (List.mem_of_getElem? hd)).trans (h.complete j d hd)
  fresh j d v r' hj hd hv hr' := by
    rw [hcalls] at hd
    rw [hruns] at hr'
    rcases (Table.getElem?_set_iff hr).mp hr' with ⟨rfl, _⟩ | ⟨_, hr'⟩
    · exact absurd (hwired.work_inj hq hc hd hw hv) hj.ne
    · exact h.fresh j d v r' hj hd hv hr'
  mem hnone := by
    rw [hcalls] at hnone
    rw [hnone c hc] at hw
    cases hw
  kernel d v r' hd hv hr' := by
    rw [hcalls, hc, Option.some.injEq] at hd
    subst hd
    rw [hw, Option.some.injEq] at hv
    subst hv
    rw [hruns] at hr'
    rcases (Table.getElem?_set_iff hr).mp hr' with ⟨_, rfl⟩ | ⟨hne, _⟩
    · have heq : Run.withMem (⟨r.launch, x⟩ : Run Var Block I) t.mem = x := by
        rw [hmem]
        rfl
      rw [heq]
      exact hx
    · exact absurd rfl hne

/-- A slice that is running is one of the next call. -/
theorem At.running (h : At s m₀ k m) (hwired : Wired s) (hq : TaskBlocker.Inv s.queue) {id w : Nat}
    {r : Run Var Block I} (hop : s.operation id = .slice w) (hr : s.runs[w]? = some r)
    (hrunning : status s.queue.events id = some .running) :
    ∃ c : TaskBlocker.Call, s.queue.calls[k]? = some c ∧ c.work = some w ∧
      s.tasks[k]? = some (.kernel r.launch) := by
  obtain ⟨work, hw, ⟨p, hp, rfl⟩, e, he, ho⟩ := hwired.slice hq hop
  obtain ⟨i, c, hc, hcw, hfinal, hslices, htask⟩ := hwired.call_of_work hq hw hr
  have hmem := List.mem_of_getElem? hc
  have hstarted : c.Started s.queue := by
    refine ⟨p.1, hslices ▸ List.mem_map_of_mem hp, e, he, hq.events.started p.1 e he ho (.inl ?_)⟩
    rw [status, he, Option.map_some, Option.some.injEq] at hrunning
    exact hrunning
  have hnot : ¬Complete s.queue.events c.final := fun hcomplete => by
    rw [← hfinal] at hcomplete
    exact not_complete_of_running hrunning ((hq.works w work hw).after hcomplete p hp)
  obtain rfl := h.eq_of_waits hwired hq hc (hq.waits_of_started hmem hstarted) hnot
  exact ⟨c, hc, hcw, htask⟩

/-- A work-item takes a step in a slice that is running. -/
theorem At.item (h : At s m₀ k m) (hwired : Wired s) (hq : TaskBlocker.Inv s.queue) {id w : Nat}
    {r : Run Var Block I} (hop : s.operation id = .slice w) (hr : s.runs[w]? = some r)
    (hrunning : status s.queue.events id = some .running) {j : Fin r.launch.n}
    {x : NDRange.Sliced Var Val Mem r.launch.n}
    (hx : NDRange.Sliced.step I r.launch.kernel r.launch.clang r.launch.env r.launch.size
      (r.withMem s.mem) (.item j) = some x) :
    Undefined s.tasks m₀ ∨
      Moved s { s with runs := s.runs.set w ⟨r.launch, x⟩, mem := x.mem } m₀ k m := by
  obtain ⟨c, hc, hcw, htask⟩ := h.running hwired hq hop hr hrunning
  obtain ⟨q, hreach, hinv⟩ := h.kernel c w r hc hcw hr
  have hkeep := fun hp => Moved.items (h.setItems (t := { s with
      runs := s.runs.set w ⟨r.launch, x⟩, mem := x.mem }) hwired hq hc hcw hr rfl rfl rfl rfl
    (fun _ _ => Iff.rfl) hp) hc hcw hr hx rfl rfl
  have hstep : (NDRange.sliced I r.launch.kernel r.launch.clang r.launch.env r.launch.size m).step
      (r.withMem s.mem) (.item j) = some x := hx
  rcases NDRange.follows r.launch.restores r.launch.size_pos r.launch.dvd m q _ _ x hinv hstep with
    hbad | ⟨hinv', _⟩ | ⟨l', q', hstep, hinv', _⟩
  · exact .inl ⟨k, m, r.launch, q, h.executes, htask, hreach, hbad⟩
  · exact .inr (hkeep ⟨q, hreach, hinv'⟩)
  · exact .inr (hkeep ⟨q', hreach.step hstep, hinv'⟩)

/-- The callback finds every header 0, or launches the kernel again. -/
theorem State.inspect_spec {r r' : Run Var Block I} {progress : Int}
    (hidle : r.items.idle = true) (h : s.inspect r = some (progress, r')) :
    (progress = 0 ∧ ∀ i, ((r.withMem s.mem).item i).ended = true) ∨
      (progress ≠ 0 ∧ (∃ i, ((r.withMem s.mem).item i).ended = false) ∧
        r' = ⟨r.launch, NDRange.Sliced.metaEnqueue I r.launch.kernel r.launch.clang r.launch.env
          (r.withMem s.mem)⟩) := by
  simp only [State.inspect, Option.bind_eq_bind, Option.bind_eq_some_iff, Option.pure_def,
    Option.some.injEq, Prod.mk.injEq] at h
  obtain ⟨⟨progress', hs⟩, hupdate, x, hx, rfl, rfl⟩ := h
  have hitems : ∀ i, ((r.withMem s.mem).item i).device = none := NDRange.Sliced.idle_iff.mp hidle
  have hok : updateHeader r.launch.size (r.withMem s.mem).headers = .ok (progress', hs) := by
    show updateHeader r.launch.size r.items.headers = _
    cases hres : updateHeader r.launch.size r.items.headers with
    | ok p =>
      rw [hres] at hupdate
      exact congrArg Except.ok (Option.some.inj hupdate)
    | error e =>
      rw [hres] at hupdate
      exact absurd hupdate (Option.some_ne_none _).symm
  have hlaunches : x.launches = (r.withMem s.mem).launches ↔ progress' = 0 := by
    rw [NDRange.Sliced.resumeOrFinish, hok] at hx
    by_cases h0 : progress' = 0
    · simp only [h0, if_true, Option.some.injEq] at hx
      subst hx
      exact ⟨fun _ => h0, fun _ => rfl⟩
    · simp only [h0, if_false, Option.some.injEq] at hx
      subst hx
      refine ⟨fun heq => ?_, fun h => absurd h h0⟩
      split at heq <;> exact absurd heq (Nat.succ_ne_self _)
  rcases NDRange.Sliced.resumeOrFinish_eq I r.launch.kernel r.launch.clang r.launch.env
      r.launch.size_pos r.launch.dvd hitems with ⟨heq, hall⟩ | ⟨heq, hsome⟩
  · cases hx.symm.trans heq
    exact .inl ⟨hlaunches.mp rfl, hall⟩
  · cases hx.symm.trans heq
    exact .inr ⟨fun h0 => absurd (hlaunches.mpr h0) (Nat.succ_ne_self _), hsome, rfl⟩

/-- A callback that goes on is that of the next call, and its work-items have left the slice. -/
theorem At.callback (h : At s m₀ k m) (hwired : Wired s) (hq : TaskBlocker.Inv s.queue) {w : Nat}
    {work : TaskBlocker.Work} (hw : s.queue.works[w]? = some work) (hactive : work.active = true)
    (hread : s.lastRead work = some .complete) {r : Run Var Block I} (hr : s.runs[w]? = some r) :
    r.items.idle = true ∧ ∃ c : TaskBlocker.Call, s.queue.calls[k]? = some c ∧
      c.work = some w ∧ work.final = c.final ∧ s.tasks[k]? = some (.kernel r.launch) := by
  have hok := hq.works w work hw
  have hall := hok.slices_complete hq.events hread
  refine ⟨hwired.idle w work r hw hr hactive hall, ?_⟩
  obtain ⟨i, c, hc, hcw, hfinal, hslices, htask⟩ := hwired.call_of_work hq hw hr
  have hmem := List.mem_of_getElem? hc
  have hstarted : c.Started s.queue := by
    obtain ⟨p, hp⟩ := List.exists_mem_of_ne_nil _ hok.nonempty
    obtain ⟨e, he, ho⟩ := hok.run p hp
    exact ⟨p.1, hslices ▸ List.mem_map_of_mem hp,
      hq.events.started_of_complete he ho (hall p hp)⟩
  have hnot : ¬Complete s.queue.events c.final := hfinal ▸ hok.active hactive
  obtain rfl := h.eq_of_waits hwired hq hc (hq.waits_of_started hmem hstarted) hnot
  exact ⟨c, hc, hcw, hfinal, htask⟩

/-- What settling the final event of a work makes complete. -/
theorem Wired.complete_setFinal (hwired : Wired s) (hq : TaskBlocker.Inv s.queue) {w : Nat}
    {work : TaskBlocker.Work} (hw : s.queue.works[w]? = some work) (hactive : work.active = true)
    (success : Bool) {i : Nat} :
    Complete (TaskBlocker.setFinal s.queue w work success).events i ↔
      Complete s.queue.events i ∨ (i = work.final ∧ success = true) := by
  obtain ⟨e, he, ho⟩ := (hq.works w work hw).final
  have hstatus := hwired.queued w work hw hactive
  rw [status, he, Option.map_some, Option.some.injEq] at hstatus
  exact settle_complete he (ho ▸ Option.some_ne_none _) hstatus success

/-- The callback of a launch. -/
theorem At.resume (h : At s m₀ k m) (hwired : Wired s) (hq : TaskBlocker.Inv s.queue) {w done : Nat}
    (hregular : done = 0 ∨ 4 ≤ done) (hs : s.resume w done = some t) : Moved s t m₀ k m := by
  obtain ⟨work, hw, hactive, ⟨r, r', hr, hread, hinspect, rfl⟩ |
    ⟨r, r', progress, run, l, hr, hread, hinspect, hne, hfresh, hrun, rfl⟩ |
      ⟨_, rfl⟩⟩ :=
    State.resume_cases hregular hs
  · obtain ⟨hidle, c, hc, hcw, hfinal, htask⟩ := h.callback hwired hq hw hactive hread hr
    obtain ⟨q, hreach, hinv⟩ := h.kernel c w r hc hcw hr
    rcases State.inspect_spec hidle hinspect with ⟨_, hall⟩ | ⟨hne, _⟩
    · have hexec : Task.Executes (.kernel r.launch) m s.mem :=
        ⟨q, hreach, fun i => (hinv.item i).ended s.mem (hall i), hinv.mem⟩
      refine .complete s.mem (h.advance hc htask hexec rfl rfl ?_ ?_)
      · intro j d v hj hd hv
        have hvw : v ≠ w := fun heq => hj.ne (hwired.work_inj hq hc hd hcw (heq ▸ hv))
        exact List.getElem?_set_ne (Ne.symm hvw)
      · intro j d hd
        refine (hwired.complete_setFinal hq hw hactive true).trans (or_congr_right ?_)
        refine ⟨fun heq => hwired.wiring.final j k d c hd hc (heq.1.trans hfinal), ?_⟩
        rintro rfl
        rw [hc, Option.some.injEq] at hd
        exact ⟨hd ▸ hfinal.symm, rfl⟩
    · exact absurd rfl hne
  · obtain ⟨hidle, c, hc, hcw, _, _⟩ := h.callback hwired hq hw hactive hread hr
    obtain ⟨q, hreach, hinv⟩ := h.kernel c w r hc hcw hr
    rcases State.inspect_spec hidle hinspect with ⟨h0, _⟩ | ⟨_, hsome, rfl⟩
    · exact absurd h0 hne
    · have hitems := NDRange.Sliced.idle_iff.mp hidle
      have hnext := h.setItems (t := { s with
          queue := { s.queue with
            events := s.queue.events ++ l
            works := s.queue.works.set w
              { work with slices := work.slices ++ [(run, run + 1)] } }
          operation := Function.update s.operation run (.slice w)
          runs := s.runs.set w ⟨r.launch, NDRange.Sliced.metaEnqueue I r.launch.kernel
            r.launch.clang r.launch.env (r.withMem s.mem)⟩ }) hwired hq hc hcw hr rfl rfl rfl rfl
        (fun _ _ => complete_append hfresh) ⟨q, hreach, (hinv.metaEnqueue hitems hsome).1⟩
      exact .items hnext hc hcw hr
        (hinv.step_host r.launch.env r.launch.size_pos r.launch.dvd hitems hsome) rfl rfl
  · refine .queue (h.keep rfl rfl rfl rfl fun c _ => ?_) rfl rfl
      (TaskBlocker.rank_setFinal hw hactive false)
    refine (hwired.complete_setFinal hq hw hactive false).trans (or_iff_left ?_)
    exact fun hf => absurd hf.2 Bool.false_ne_true

/-! ## Other steps -/

/-- A move of the device.  One that ends the command of a call executes its task. -/
theorem At.device (h : At s m₀ k m) (hwired : Wired s) (hq : TaskBlocker.Inv s.queue)
    {l : DeviceLabel} {es : List (Event TaskBlocker.Owner)}
    (hs : deviceStep s.queue.events l = some es) :
    Moved s { s with queue := { s.queue with events := es }, mem := s.memAfter l } m₀ k m := by
  obtain ⟨⟨e, he, ho⟩, hnot, hstarted⟩ := deviceStep_command hq.events hs
  by_cases hcommand : ∃ id f, l = .finish id true ∧ s.operation id = .command f
  · obtain ⟨id, f, rfl, hop⟩ := hcommand
    obtain ⟨j, c, hc, hcw, rfl⟩ := hwired.wiring.ofCommand id f hop
    have hmem := List.mem_of_getElem? hc
    have hfinal : c.final = c.first := (hq.calls c hmem).command hcw
    obtain rfl := h.eq_of_waits hwired hq hc (hq.waits_of_first hmem (hstarted true rfl))
      (hfinal ▸ hnot)
    obtain ⟨g, htask, hg⟩ := hwired.wiring.command j c hc hcw
    rw [hop, Operation.command.injEq] at hg
    subst hg
    have hm : s.mem = m := h.mem fun d hd => by
      rw [hc, Option.some.injEq] at hd
      exact hd ▸ hcw
    have hafter : s.memAfter (.finish c.first true) = f s.mem := by
      rw [State.memAfter, hop]
    refine .complete _ (h.advance hc htask (hafter.trans (hm ▸ rfl)) rfl rfl
      (fun _ _ _ _ _ _ => rfl) ?_)
    intro i d hd
    refine (deviceStep_complete hs).trans (or_congr_right ?_)
    rw [DeviceLabel.finish.injEq, and_iff_left rfl]
    refine ⟨fun heq => (hwired.wiring.final i j d c hd hc (heq ▸ hfinal.symm)), ?_⟩
    rintro rfl
    rw [hc, Option.some.injEq] at hd
    exact hd ▸ hfinal.symm
  · have hafter : s.memAfter l = s.mem := by
      unfold State.memAfter
      split
      · split
        · rename_i id _ f hop
          exact absurd ⟨id, f, rfl, hop⟩ hcommand
        · rfl
      · rfl
    have hrank : TaskBlocker.State.rank { s.queue with events := es } < s.queue.rank :=
      Nat.add_lt_add_right (deviceStep_moves hs).2 _
    refine .queue (h.keep rfl rfl rfl hafter fun c hc => ?_) rfl hafter hrank
    refine (deviceStep_complete hs).trans (or_iff_left ?_)
    rintro rfl
    rcases hcw : c.work with _ | w
    · obtain ⟨j, hj⟩ := List.mem_iff_getElem?.mp hc
      obtain ⟨f, _, hop⟩ := hwired.wiring.command j c hj hcw
      exact hcommand ⟨c.final, f, rfl, (hq.calls c hc).command hcw ▸ hop⟩
    · -- the final event of a launch is no command
      obtain ⟨work, hw, hfinal, _⟩ := (hq.calls c hc).kernel w hcw
      obtain ⟨e', he', ho'⟩ := (hq.works w work hw).final
      rw [hfinal] at he'
      cases he.symm.trans he'
      rw [ho] at ho'
      cases ho'

/-- A call of `ReorderCore` that succeeds. -/
theorem At.reorder (h : At s m₀ k m) (hwired : Wired s) (waits : List Nat) (f : Mem → Mem) :
    At (s.reorder waits true f) m₀ k m := by
  have hfresh := TaskBlocker.fresh_command (waits ++ s.queue.taskBlocker.toList)
  refine h.enqueue hwired.wiring.length_tasks rfl rfl rfl (fun _ _ _ _ _ => rfl) nofun
    (fun c _ => complete_append hfresh) fun hc => ?_
  obtain ⟨e, he, _⟩ := complete_iff.mp ((complete_append hfresh).mp hc)
  exact absurd (List.getElem?_eq_some_iff.mp he).1 (Nat.lt_irrefl _)

/-- A launch whose vendor calls all succeed. -/
theorem At.launch (h : At s m₀ k m) (hwired : Wired s) (waits : List Nat) {done : Nat}
    (hdone : 5 ≤ done) (l : Launch Var Block I) : At (s.launch waits done l) m₀ k m := by
  have hfresh := TaskBlocker.launchEvents_fresh s.queue waits
  have hlength : s.runs.length = s.queue.works.length := by
    have := hwired.wiring.length_launches
    rwa [List.length_map, List.length_map] at this
  rw [State.launch_succeeded waits hdone l]
  refine h.enqueue hwired.wiring.length_tasks rfl rfl rfl (fun j c w hc hw => ?_)
    (fun w r hw hr => ?_) (fun c _ => complete_append hfresh) fun hc => ?_
  · obtain ⟨l', hl', _⟩ := hwired.wiring.kernel j c w hc hw
    rw [List.getElem?_map] at hl'
    obtain ⟨r, hr, _⟩ := Option.map_eq_some_iff.mp hl'
    exact List.getElem?_append_left (List.getElem?_eq_some_iff.mp hr).1
  · cases hw
    rcases Table.getElem?_concat_iff.mp hr with hr | ⟨_, rfl⟩
    · have := (List.getElem?_eq_some_iff.mp hr).1
      omega
    · exact fun _ => rfl
  · obtain ⟨e, he, _⟩ := complete_iff.mp ((complete_append hfresh).mp hc)
    have := (List.getElem?_eq_some_iff.mp he).1
    simp only at this
    omega

/-- A move of the device, of a work-item or of a callback. -/
def Label.inside : Label Var Block I → Bool
  | .device _ | .item _ _ | .resume _ _ => true
  | _ => false

/-- Such a move is one of the next call, or about to be undefined. -/
theorem At.inside (h : At s m₀ k m) (hwired : Wired s) (hq : TaskBlocker.Inv s.queue)
    {l : Label Var Block I} (hl : l.inside = true) (hregular : Regular s l)
    (hs : s.step l = some t) : Undefined s.tasks m₀ ∨ Moved s t m₀ k m := by
  cases l with
  | device l =>
    obtain ⟨_, es, hes, rfl⟩ := State.device_cases hs
    exact .inr (h.device hwired hq hes)
  | item id i =>
    obtain ⟨w, r, j, x, hop, hr, hrunning, hx, rfl⟩ := State.item_cases hs
    exact h.item hwired hq hop hr hrunning hx
  | resume w done => exact .inr (h.resume hwired hq hregular hs)
  | foreign | settleForeign _ _ | reorder _ _ _ | launch _ _ _ => cases hl

/-- The wait list of a call. -/
def Label.waits : Label Var Block I → List Nat
  | .reorder waits _ _ | .launch waits _ _ => waits
  | _ => []

/-- A step is a step of `TaskBlocker` or leaves the queue alone, and tasks are only added. -/
theorem State.step_queue {l : Label Var Block I} (hs : s.step l = some t) :
    (t.queue = s.queue ∨ ∃ l', TaskBlocker.step s.queue l' = some t.queue ∧
      ((∀ w ∈ l.waits, TaskBlocker.Visible s.queue w) → TaskBlocker.Respects s.queue l')) ∧
      s.tasks <+: t.tasks := by
  match l with
  | .foreign | .settleForeign _ _ =>
    rw [State.step] at hs
    obtain ⟨q, hstep, rfl⟩ := Option.map_eq_some_iff.mp hs
    exact ⟨.inr ⟨_, hstep, fun _ => trivial⟩, List.prefix_rfl⟩
  | .device l =>
    rw [State.step, Option.ite_none_right_eq_some] at hs
    obtain ⟨q, hstep, rfl⟩ := Option.map_eq_some_iff.mp hs.2
    exact ⟨.inr ⟨_, hstep, fun _ => trivial⟩, List.prefix_rfl⟩
  | .reorder waits success f =>
    cases hs
    cases success with
    | true => exact ⟨.inr ⟨.reorder waits true, rfl, fun h => h⟩, List.prefix_append _ _⟩
    | false => exact ⟨.inl rfl, List.prefix_rfl⟩
  | .launch waits done l =>
    cases hs
    refine ⟨.inr ⟨.launch waits done, ?_, fun h => h⟩, ?_⟩
    · unfold State.launch
      split <;> rfl
    · unfold State.launch
      split
      · exact List.prefix_append _ _
      · exact List.prefix_rfl
  | .item id i =>
    obtain ⟨w, r, j, x, _, _, _, _, rfl⟩ := State.item_cases hs
    exact ⟨.inl rfl, List.prefix_rfl⟩
  | .resume w done =>
    simp only [State.step, State.resume, Option.bind_eq_bind, Option.bind_eq_some_iff,
      Option.pure_def] at hs
    obtain ⟨work, _, r, _, hs⟩ := hs
    split at hs
    · obtain ⟨⟨progress, r'⟩, _, hs⟩ := Option.bind_eq_some_iff.mp hs
      simp only at hs
      split at hs
      · obtain ⟨q, hstep, hs⟩ := Option.bind_eq_some_iff.mp hs
        cases hs
        exact ⟨.inr ⟨_, hstep, fun _ => trivial⟩, List.prefix_rfl⟩
      · obtain ⟨q, hstep, hs⟩ := Option.bind_eq_some_iff.mp hs
        cases hs
        split <;> exact ⟨.inr ⟨_, hstep, fun _ => trivial⟩, List.prefix_rfl⟩
    · obtain ⟨q, hstep, hs⟩ := Option.bind_eq_some_iff.mp hs
      cases hs
      exact ⟨.inr ⟨_, hstep, fun _ => trivial⟩, List.prefix_rfl⟩

theorem State.inv_queue (hq : TaskBlocker.Inv s.queue) {l : Label Var Block I}
    (hs : s.step l = some t) : TaskBlocker.Inv t.queue := by
  obtain ⟨heq | ⟨l', hl', _⟩, _⟩ := State.step_queue hs
  · rw [heq]
    exact hq
  · exact hq.step hl'

/-- **One step** of the queue: the next call stays the next one, or becomes complete. -/
theorem At.step (h : At s m₀ k m) (hwired : Wired s) (hq : TaskBlocker.Inv s.queue)
    {l : Label Var Block I} (hregular : Regular s l) (hs : s.step l = some t) :
    Undefined t.tasks m₀ ∨ ∃ k m, At t m₀ k m := by
  have hinside := fun hl => (h.inside hwired hq hl hregular hs).imp
    (fun hbad => hbad.of_prefix (State.step_queue hs).2) Moved.exists_at
  match l with
  | .foreign =>
    cases hs
    exact .inr ⟨k, m, h.keep rfl rfl rfl rfl fun _ _ => complete_append fresh_foreign⟩
  | .settleForeign id success =>
    obtain ⟨ho, rfl⟩ := State.settleForeign_cases hs
    refine .inr ⟨k, m, h.keep rfl rfl rfl rfl fun c hc => complete_settle_of_ne ?_ success⟩
    rintro rfl
    obtain ⟨e, he, howner⟩ := Option.bind_eq_some_iff.mp ho
    rcases hcw : c.work with _ | w
    · obtain ⟨e', he', ho', _⟩ := (hq.calls c hc).first
      rw [← (hq.calls c hc).command hcw] at he'
      cases he.symm.trans he'
      rw [howner] at ho'
      cases ho'
    · obtain ⟨work, hw, hfinal, _⟩ := (hq.calls c hc).kernel w hcw
      obtain ⟨e', he', ho'⟩ := (hq.works w work hw).final
      rw [hfinal] at he'
      cases he.symm.trans he'
      rw [howner] at ho'
      cases ho'
  | .reorder waits success f =>
    cases hs
    cases success with
    | true => exact .inr ⟨k, m, h.reorder hwired waits f⟩
    | false => exact .inr ⟨k, m, h⟩
  | .launch waits done l =>
    cases hs
    rcases hregular with hfailed | hdone
    · obtain ⟨es, hfresh, heq⟩ := State.launch_failed (s := s) waits hfailed l
      rw [heq]
      exact .inr ⟨k, m, h.keep rfl rfl rfl rfl fun _ _ => complete_append hfresh⟩
    · exact .inr ⟨k, m, h.launch hwired waits hdone l⟩
  | .device _ | .item _ _ | .resume _ _ => exact hinside rfl

/-! ## Runs -/

/-- The invariant holds over a whole run. -/
theorem at_of_reachable (hs : (machine I true m₀).ReachableBy Regular s) :
    TaskBlocker.Inv s.queue ∧ Wired s ∧ (Undefined s.tasks m₀ ∨ ∃ k m, At s m₀ k m) := by
  refine hs.invariant (I := fun s => TaskBlocker.Inv s.queue ∧ Wired s ∧
    (Undefined s.tasks m₀ ∨ ∃ k m, At s m₀ k m)) ?_ ?_
  · rintro s rfl
    exact ⟨TaskBlocker.inv_init true, wired_init m₀, .inr ⟨0, m₀, at_init m₀⟩⟩
  · rintro s l t ⟨hq, hwired, hat⟩ hregular hstep
    refine ⟨State.inv_queue hq hstep, hwired.step hq hregular hstep, ?_⟩
    rcases hat with hbad | ⟨k, m, h⟩
    · exact .inl (hbad.of_prefix (State.step_queue hstep).2)
    · exact h.step hwired hq hregular hstep

/-- **The tasks of an in-order queue are executed one after the other**, in any run in which no
vendor call of a launch or a callback fails once the kernel is enqueued, and no command fails
that the caller asked for.  Some first tasks are complete, memory is what they make of it in their
order, and at most one kernel has made something of it since. -/
theorem inOrder (hs : (machine I true m₀).ReachableBy Regular s) :
    s.tasks.length = s.queue.calls.length ∧ (Undefined s.tasks m₀ ∨
      ∃ k m, ExecuteAll (s.tasks.take k) m₀ m ∧
        (∀ (j : Nat) (c : TaskBlocker.Call), s.queue.calls[j]? = some c →
          (c.Complete s.queue ↔ j < k)) ∧
        (s.mem = m ∨ ∃ l p, s.tasks[k]? = some (.kernel l) ∧ (l.plain m).Reachable p ∧
          p.mem = s.mem)) := by
  obtain ⟨hq, hwired, hat⟩ := at_of_reachable hs
  refine ⟨hwired.wiring.length_tasks, hat.imp (fun h => h) ?_⟩
  rintro ⟨k, m, h⟩
  refine ⟨k, m, h.executes, fun j c hc => ?_, ?_⟩
  · rw [← h.complete j c hc]
    exact ⟨fun hc => hc.1, hq.complete_of_final (List.mem_of_getElem? hc)⟩
  · by_cases hnone : ∀ c : TaskBlocker.Call, s.queue.calls[k]? = some c → c.work = none
    · exact .inl (h.mem hnone)
    · simp only [not_forall] at hnone
      obtain ⟨c, hc, hne⟩ := hnone
      obtain ⟨w, hw⟩ := Option.ne_none_iff_exists'.mp hne
      obtain ⟨l, hl, htask⟩ := hwired.wiring.kernel k c w hc hw
      rw [List.getElem?_map] at hl
      obtain ⟨r, hr, rfl⟩ := Option.map_eq_some_iff.mp hl
      obtain ⟨p, hreach, hp⟩ := h.kernel c w r hc hw hr
      exact .inr ⟨r.launch, p, htask, hreach, hp.mem⟩

namespace Count
open CountKernel

/-- Two work-items of the kernel that counts. -/
def launch : Launch String Unit interp where
  kernel := kernel
  clang := clang
  n := 2
  pos := by decide
  env _ := env
  restores _ := restores
  size := 1
  size_pos := by decide
  dvd := one_dvd 2

/-- The commands of a slice, in which the work-items take turns, and the callback. -/
def slice (id rounds : Nat) : List (Label String Unit interp) :=
  [.device (.start id)] ++ (List.replicate rounds [.item id 0, .item id 1]).flatten ++
    [.device (.finish id true), .device (.start (id + 1)), .device (.finish (id + 1) true),
      .resume 0 4]

/-- An in-order queue with a memory of zeros. -/
def queue : Machine (State String Unit interp) (Label String Unit interp) :=
  machine interp true fun _ => 0

/-- The kernel, and a write behind it. -/
def schedule : List (Label String Unit interp) :=
  [.launch [] 5 launch, .reorder [] true fun m => Function.update m 3 9, .device (.start 0),
    .device (.finish 0 true)] ++ slice 2 11 ++ slice 6 8 ++ slice 8 4 ++
    [.device (.start 5), .device (.finish 5 true)]

theorem regular_slice {id rounds : Nat} {l : Label String Unit interp} (hl : l ∈ slice id rounds)
    (s : State String Unit interp) : Regular s l := by
  simp only [slice, List.mem_append, List.mem_cons, List.not_mem_nil, or_false,
    List.mem_flatten, List.mem_replicate] at hl
  rcases hl with (rfl | ⟨_, ⟨_, rfl⟩, hl⟩) | rfl | rfl | rfl | rfl
  · trivial
  · rcases List.mem_pair.mp hl with rfl | rfl <;> trivial
  · trivial
  · trivial
  · trivial
  · exact .inr (Nat.le_refl 4)

/-- Three slices, and the write after the last of them. -/
theorem inOrder_count :
    ∃ s, queue.ReachableBy Regular s ∧ [1, 2, 3].map s.mem = [1, 2, 9] ∧
      s.tasks.length = s.queue.calls.length ∧ (Undefined s.tasks (fun _ => 0) ∨
        ∃ k m, ExecuteAll (s.tasks.take k) (fun _ => 0) m ∧
          (∀ (j : Nat) (c : TaskBlocker.Call), s.queue.calls[j]? = some c →
            (c.Complete s.queue ↔ j < k)) ∧
          (s.mem = m ∨ ∃ l p, s.tasks[k]? = some (.kernel l) ∧ (l.plain m).Reachable p ∧
            p.mem = s.mem)) := by
  have hrun : ((queue.run (State.init true fun _ => 0) schedule).map fun s => [1, 2, 3].map s.mem) =
      some [1, 2, 9] := by decide +kernel
  obtain ⟨s, hs, hmem⟩ := Option.map_eq_some_iff.mp hrun
  have hinit : queue.ReachableBy Regular (State.init true fun _ => 0) := .initial rfl
  have hreach : queue.ReachableBy Regular s := by
    refine hinit.run (fun l hl u => ?_) hs
    simp only [schedule, List.mem_append, List.mem_cons, List.not_mem_nil, or_false] at hl
    rcases hl with ((((rfl | rfl | rfl | rfl) | hl) | hl) | hl) | rfl | rfl
    · exact .inr (Nat.le_refl 5)
    · trivial
    · trivial
    · trivial
    · exact regular_slice hl u
    · exact regular_slice hl u
    · exact regular_slice hl u
    · trivial
    · trivial
  exact ⟨s, hreach, hmem, inOrder hreach⟩

end Count
end CommandQueue
end Clpkm
