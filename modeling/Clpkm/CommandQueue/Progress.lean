import Clpkm.CommandQueue.InOrder

/-!
# An in-order queue executes all its tasks

`inOrder` says what memory can be, and not that anything is ever done.  Here nothing fails and
the caller puts on its wait lists what it can have.  Then the device, the work-items and the
callbacks alone come to an end, whatever their order, if the kernels as they are written come to
an end with the memory that they get (`Sound.terminates`).  What a step makes smaller is the
number of calls that are not complete; or what the kernel of the next call can still do; or the
rank of the queue.

Where they can do no more, every call is complete or one awaits an event from outside the queue
that is pending (`At.progress`).  `executes_all` puts the two together.
-/

namespace Clpkm
open Lang Instrumentor UpdateHeader
namespace CommandQueue
open EventTable

variable {Var Val Mem Block : Type} [DecidableEq Var] {I : Interp Val Mem}
variable {s t : State Var Block I} {m₀ m : Mem} {k : Nat}

/-! ## Steps in which nothing fails -/

/-- No command fails and nothing outside, no vendor call of a callback and none of a launch once
its kernel is enqueued; and wait lists hold events that the caller can have. -/
def Flawless (s : State Var Block I) (l : Label Var Block I) : Prop :=
  (∀ w ∈ l.waits, TaskBlocker.Visible s.queue w) ∧
    match l with
    | .settleForeign _ success | .device (.finish _ success) => success = true
    | .launch _ done _ => done ≤ 2 ∨ 5 ≤ done
    | .resume _ done => 4 ≤ done
    | _ => True

theorem Flawless.regular {l : Label Var Block I} (h : Flawless s l) : Regular s l := by
  cases l with
  | device l =>
    cases l with
    | finish id success =>
      obtain rfl : success = true := h.2
      trivial
    | start _ | terminate _ => trivial
  | launch _ _ _ => exact h.2
  | resume _ _ => exact .inr h.2
  | foreign | settleForeign _ _ | reorder _ _ _ | item _ _ => trivial

/-- A step of the device, a work-item or a callback in which nothing fails. -/
def Inside (t s : State Var Block I) : Prop :=
  ∃ l : Label Var Block I, l.inside = true ∧ Flawless s l ∧ s.step l = some t

theorem inside_device (l : DeviceLabel) {es : List (Event TaskBlocker.Owner)}
    (hl : ∀ id success, l = .finish id success → success = true) (hmay : s.mayMove l = true)
    (hs : deviceStep s.queue.events l = some es) : ∃ t, Inside t s := by
  have hstep : ∃ t, s.step (.device l) = some t := by
    rw [State.step, if_pos hmay, TaskBlocker.step, hs]
    exact ⟨_, rfl⟩
  refine hstep.imp fun t ht => ⟨.device l, rfl, ⟨List.forall_mem_nil _, ?_⟩, ht⟩
  cases l with
  | finish id success => exact hl id success rfl
  | start _ | terminate _ => trivial

/-- A command that is running can end, or a work-item in its slice can go on. -/
theorem At.running_inside (h : At s m₀ k m) (hwired : Wired s) (hq : TaskBlocker.Inv s.queue)
    (hgood : ¬Undefined s.tasks m₀) {id : Nat} {es : List (Event TaskBlocker.Owner)}
    (hrunning : status s.queue.events id = some .running)
    (hs : deviceStep s.queue.events (.finish id true) = some es) : ∃ t, Inside t s := by
  by_cases hmay : s.mayMove (.finish id true) = true
  · refine inside_device _ (fun _ _ heq => ?_) hmay hs
    cases heq
    rfl
  obtain ⟨w, r, hop, hr, hidle⟩ : ∃ w r, s.operation id = .slice w ∧ s.runs[w]? = some r ∧
      r.items.idle ≠ true := by
    unfold State.mayMove at hmay
    simp only at hmay
    split at hmay
    · rename_i w hop
      rcases hr : s.runs[w]? with _ | r
      · rw [hr] at hmay
        exact absurd rfl hmay
      · rw [hr] at hmay
        exact ⟨w, r, hop, hr, hmay⟩
    · exact absurd rfl hmay
  obtain ⟨c, hc, hcw, htask⟩ := h.running hwired hq hop hr hrunning
  obtain ⟨p, hreach, hinv⟩ := h.kernel c w r hc hcw hr
  obtain ⟨i, hi⟩ := not_forall.mp fun hall => hidle (NDRange.Sliced.idle_iff.mpr hall)
  rcases hinv.step_item r.launch.restores r.launch.size hi with hbad | ⟨x, hx⟩
  · exact absurd ⟨k, m, r.launch, p, h.executes, htask, hreach, hbad⟩ hgood
  · suffices ∃ t, s.item id i = some t from
      this.imp fun t ht => ⟨.item id i, rfl, ⟨List.forall_mem_nil _, trivial⟩, ht⟩
    rw [State.item, hop]
    simp only [hr, Option.bind_eq_bind, Option.bind_some]
    rw [dif_pos ⟨hrunning, i.2⟩, hx]
    exact ⟨_, rfl⟩

/-- A callback can inspect the headers. -/
theorem State.exists_inspect {r : Run Var Block I} (hidle : r.items.idle = true) :
    ∃ progress r', s.inspect r = some (progress, r') := by
  have hitems : ∀ i, ((r.withMem s.mem).item i).device = none := NDRange.Sliced.idle_iff.mp hidle
  obtain ⟨x, hx⟩ : ∃ x, NDRange.Sliced.resumeOrFinish I r.launch.kernel r.launch.clang
      r.launch.env r.launch.size (r.withMem s.mem) = some x := by
    rcases NDRange.Sliced.resumeOrFinish_eq I r.launch.kernel r.launch.clang r.launch.env
      r.launch.size_pos r.launch.dvd hitems with ⟨heq, _⟩ | ⟨heq, _⟩
    · exact ⟨_, heq⟩
    · exact ⟨_, heq⟩
  rcases hupdate : updateHeader r.launch.size r.items.headers with e | ⟨progress, hs⟩
  · rw [NDRange.Sliced.resumeOrFinish,
      show updateHeader r.launch.size (r.withMem s.mem).headers = .error e from hupdate] at hx
    cases hx
  · refine ⟨progress, ⟨r.launch, x⟩, ?_⟩
    rw [State.inspect, hupdate, hx]
    rfl

/-- The callback of a launch whose last headers are read can go on. -/
theorem At.callback_inside (h : At s m₀ k m) (hwired : Wired s) (hq : TaskBlocker.Inv s.queue)
    {w : Nat} {work : TaskBlocker.Work} (hw : s.queue.works[w]? = some work)
    (hactive : work.active = true) (hread : s.lastRead work = some .complete)
    (hs : ∀ r, ∃ q, TaskBlocker.step s.queue (.resume w r) = some q) : ∃ t, Inside t s := by
  have hlength := hwired.wiring.length_launches
  rw [List.length_map, List.length_map] at hlength
  have hlt : w < s.runs.length := hlength ▸ (List.getElem?_eq_some_iff.mp hw).1
  have hr : s.runs[w]? = some s.runs[w] := List.getElem?_eq_getElem hlt
  obtain ⟨hidle, -⟩ := h.callback hwired hq hw hactive hread hr
  obtain ⟨progress, r', hinspect⟩ := State.exists_inspect (s := s) hidle
  suffices ∃ t, s.resume w 4 = some t from
    this.imp fun t ht => ⟨.resume w 4, rfl, ⟨List.forall_mem_nil _, Nat.le_refl 4⟩, ht⟩
  simp only [State.resume, hw, hr, hread, hinspect, Option.bind_eq_bind, Option.bind_some,
    if_true]
  split
  · obtain ⟨q, hq⟩ := hs .finish
    exact ⟨_, by rw [hq]; rfl⟩
  · obtain ⟨q, hq⟩ := hs (.again (decide (progress < 0)) 4)
    exact ⟨_, by rw [hq]; rfl⟩

/-- Somebody can go on when an event of the queue can move. -/
theorem At.movable_inside (h : At s m₀ k m) (hwired : Wired s) (hq : TaskBlocker.Inv s.queue)
    (hnone : NoneFailed s.queue.events) (hgood : ¬Undefined s.tasks m₀) {id : Nat}
    (hm : TaskBlocker.Movable s.queue id) : ∃ t, Inside t s := by
  rcases hm with ⟨l, es, _, hes⟩ | ⟨w, work, hw, _, hstep⟩
  · cases l with
    | start id =>
      apply inside_device (.start id) _ rfl hes
      intro _ _ heq
      cases heq
    | finish id success =>
      obtain ⟨hrunning, es', hes'⟩ := deviceStep_finish hes
      exact h.running_inside hwired hq hgood hrunning hes'
    | terminate id =>
      rw [hnone.terminate id] at hes
      cases hes
  · obtain ⟨q, hq'⟩ := hstep .finish
    obtain ⟨hactive, ⟨hread, _⟩ | ⟨hread, _⟩⟩ := step_resume_cases hw hq'
    · exact h.callback_inside hwired hq hw hactive hread hstep
    · obtain ⟨p, _, hp⟩ := Option.bind_eq_some_iff.mp hread
      exact absurd hp (hnone.status_ne p.2)

/-- A call awaits an event from outside the queue that is pending. -/
def AwaitsOutside (s : State Var Block I) : Prop :=
  ∃ c ∈ s.queue.calls, ∃ j, Relation.ReflTransGen (TaskBlocker.Awaits s.queue) c.final j ∧
    Pending s.queue.events j ∧ TaskBlocker.Outside s.queue j

/-- All calls are complete, and memory is what executing their tasks makes of it. -/
def Done (s : State Var Block I) (m₀ : Mem) : Prop :=
  (∀ c ∈ s.queue.calls, c.Complete s.queue) ∧ ExecuteAll s.tasks m₀ s.mem

/-- **A queue goes on** until its tasks are executed or the next call awaits something outside. -/
theorem At.progress (h : At s m₀ k m) (hwired : Wired s) (hq : TaskBlocker.Inv s.queue)
    (hnone : NoneFailed s.queue.events) (hwaits : TaskBlocker.WaitsOk s.queue)
    (hgood : ¬Undefined s.tasks m₀) : (∃ t, Inside t s) ∨ AwaitsOutside s ∨ Done s m₀ := by
  rcases Nat.lt_or_ge k s.queue.calls.length with hlt | hge
  · have hmem := List.getElem_mem hlt
    have hnot : ¬Complete s.queue.events s.queue.calls[k].final := fun hf =>
      Nat.lt_irrefl k ((h.complete k _ (List.getElem?_eq_getElem hlt)).mp hf)
    have hpending := hnone.pending (calls_lt hq _ hmem).1 hnot
    obtain ⟨j, hchain, hj, hout | hm⟩ := TaskBlocker.unblocked_of_call hq hwaits hmem hpending
    · exact .inr (.inl ⟨_, hmem, j, hchain, hj, hout⟩)
    · exact .inl (h.movable_inside hwired hq hnone hgood hm)
  · refine .inr (.inr ⟨fun c hc => ?_, ?_⟩)
    · obtain ⟨j, hj⟩ := List.mem_iff_getElem?.mp hc
      have hlt := (List.getElem?_eq_some_iff.mp hj).1
      exact hq.complete_of_final hc ((h.complete j c hj).mpr (hlt.trans_le hge))
    · have hm : s.mem = m := h.mem fun c hc => by
        rw [List.getElem?_eq_none hge] at hc
        cases hc
      have hall := h.executes
      rw [List.take_of_length_le (hwired.wiring.length_tasks ▸ hge)] at hall
      rw [hm]
      exact hall

/-! ## The steps come to an end -/

/-- Every kernel, as it is written, comes to an end with the memory that it gets. -/
def KernelsEnd (ts : List (Task Var Block I)) (m₀ : Mem) : Prop :=
  ∀ k m l, ExecuteAll (ts.take k) m₀ m → ts[k]? = some (.kernel l) →
    (l.plain m).Terminates (NDRange.Plain.start l.kernel l.env m)

/-- What is true of a state whose tasks are well defined and end. -/
structure Sound (s : State Var Block I) (m₀ : Mem) : Prop where
  queue : TaskBlocker.Inv s.queue
  wired : Wired s
  good : ¬Undefined s.tasks m₀
  ends : KernelsEnd s.tasks m₀

/-- Such steps make no call and no task. -/
theorem State.calls_of_inside {l : Label Var Block I} (hl : l.inside = true)
    (hregular : Regular s l) (hs : s.step l = some t) :
    t.queue.calls = s.queue.calls ∧ t.tasks = s.tasks := by
  cases l with
  | device l =>
    obtain ⟨_, es, _, rfl⟩ := State.device_cases hs
    exact ⟨rfl, rfl⟩
  | item id i =>
    obtain ⟨w, r, j, x, _, _, _, _, rfl⟩ := State.item_cases hs
    exact ⟨rfl, rfl⟩
  | resume w done =>
    obtain ⟨work, _, _, ⟨_, _, _, _, _, rfl⟩ | ⟨_, _, _, _, _, _, _, _, _, _, _, rfl⟩ |
      ⟨_, rfl⟩⟩ := State.resume_cases hregular hs
    all_goals exact ⟨rfl, rfl⟩
  | foreign | settleForeign _ _ | reorder _ _ _ | launch _ _ _ => cases hl

theorem Sound.step (h : Sound s m₀) (hs : Inside t s) :
    Sound t m₀ ∧ t.queue.calls = s.queue.calls ∧ t.tasks = s.tasks := by
  obtain ⟨l, hl, hflawless, hstep⟩ := hs
  obtain ⟨hcalls, htasks⟩ := State.calls_of_inside hl hflawless.regular hstep
  refine ⟨⟨State.inv_queue h.queue hstep, h.wired.step h.queue hflawless.regular hstep, ?_, ?_⟩,
    hcalls, htasks⟩
  · rw [htasks]
    exact h.good
  · rw [htasks]
    exact h.ends

/-- What such a step makes of the next call. -/
theorem Sound.moved (h : Sound s m₀) (hat : At s m₀ k m) (hs : Inside t s) :
    Moved s t m₀ k m := by
  obtain ⟨l, hl, hflawless, hstep⟩ := hs
  exact (hat.inside h.wired h.queue hl hflawless.regular hstep).resolve_left h.good

/-- The steps before a call that is no kernel is complete. -/
theorem Sound.acc_command (h : Sound s m₀) (hat : At s m₀ k m)
    (hcommand : ∀ c : TaskBlocker.Call, s.queue.calls[k]? = some c → c.work = none)
    (hnext : ∀ (t : State Var Block I) m', Sound t m₀ → t.queue.calls = s.queue.calls →
      At t m₀ (k + 1) m' → Acc Inside t) : Acc Inside s := by
  -- nothing to follow, so that the rank alone is what gets smaller
  have hunit : Acc (fun _ _ : Unit => False) () := ⟨(), fun _ hf => hf.elim⟩
  refine acc_of_follows (R := fun _ u => Sound u m₀ ∧ At u m₀ k m ∧
    u.queue.calls = s.queue.calls) (fun _ u => u.queue.rank) ?_ hunit ⟨h, hat, rfl⟩
  rintro _ u t ⟨hu, hat', hcalls⟩ ht
  obtain ⟨hsound, hcalls', _⟩ := hu.step ht
  cases hu.moved hat' ht with
  | complete m' h' => exact .inl (hnext t m' hsound (hcalls'.trans hcalls) h')
  | queue h' _ _ hrank => exact .inr (.inr ⟨⟨hsound, h', hcalls'.trans hcalls⟩, hrank⟩)
  | items _ hc hw =>
    rw [hcommand _ (hcalls ▸ hc)] at hw
    cases hw

/-- The steps before a call of a kernel is complete.  The work-items follow a run of the kernel as
it is written, and while they do not move the queue has less and less to do. -/
theorem Sound.acc_kernel (h : Sound s m₀) (hat : At s m₀ k m) {c : TaskBlocker.Call} {w : Nat}
    (hc : s.queue.calls[k]? = some c) (hw : c.work = some w)
    (hnext : ∀ (t : State Var Block I) m', Sound t m₀ → t.queue.calls = s.queue.calls →
      At t m₀ (k + 1) m' → Acc Inside t) : Acc Inside s := by
  obtain ⟨_, hl, htask⟩ := h.wired.wiring.kernel k c w hc hw
  rw [List.getElem?_map] at hl
  obtain ⟨r, hr, rfl⟩ := Option.map_eq_some_iff.mp hl
  obtain ⟨p, hreach, hinv⟩ := hat.kernel c w r hc hw hr
  have hplain : (r.launch.plain m).Terminates p :=
    hreach.terminates fun q hq => hq ▸ h.ends k m r.launch hat.executes htask
  have hsliced := hinv.terminates r.launch.restores m r.launch.size_pos r.launch.dvd
    hplain fun ls q hrun hbad =>
      h.good ⟨k, m, r.launch, q, hat.executes, htask, hreach.run hrun, hbad⟩
  refine acc_of_follows (R := fun x u => Sound u m₀ ∧ At u m₀ k m ∧
    u.queue.calls = s.queue.calls ∧ ∃ r', u.runs[w]? = some ⟨r.launch, r'⟩ ∧
      x = { r' with mem := u.mem }) (fun _ u => u.queue.rank) ?_ hsliced
    ⟨h, hat, rfl, r.items, hr, rfl⟩
  rintro x u t ⟨hu, hat', hcalls, items, hitems, rfl⟩ ht
  obtain ⟨hsound, hcalls', _⟩ := hu.step ht
  cases hu.moved hat' ht with
  | complete m' h' => exact .inl (hnext t m' hsound (hcalls'.trans hcalls) h')
  | queue h' hruns hmem hrank =>
    exact .inr (.inr ⟨⟨hsound, h', hcalls'.trans hcalls, items, hruns ▸ hitems, hmem ▸ rfl⟩, hrank⟩)
  | @items h' _ v r' j x hc' hv hr' hx hruns hmem =>
    rw [hcalls, hc, Option.some.injEq] at hc'
    subst hc'
    rw [hw, Option.some.injEq] at hv
    subst hv
    rw [hitems, Option.some.injEq] at hr'
    subst hr'
    refine .inr (.inl ⟨x, ⟨j, hx⟩, hsound, h', hcalls'.trans hcalls, x, ?_, hmem ▸ rfl⟩)
    rw [hruns]
    exact List.getElem?_set_self (List.getElem?_eq_some_iff.mp hitems).1

/-- **The steps come to an end**, by induction on the calls that are not complete. -/
theorem Sound.terminates (h : Sound s m₀) (hat : At s m₀ k m) : Acc Inside s := by
  induction hn : s.queue.calls.length - k using Nat.strongRecOn generalizing s k m with
  | ind n ih =>
    have hnext : ∀ (t : State Var Block I) m', Sound t m₀ → t.queue.calls = s.queue.calls →
        At t m₀ (k + 1) m' → Acc Inside t := by
      intro t m' hsound hcalls hat'
      have hle := hat'.le
      refine ih (t.queue.calls.length - (k + 1)) ?_ hsound hat' rfl
      rw [hcalls] at hle ⊢
      omega
    by_cases hkernel : ∃ (c : TaskBlocker.Call) (w : Nat), s.queue.calls[k]? = some c ∧
      c.work = some w
    · obtain ⟨c, w, hc, hw⟩ := hkernel
      exact h.acc_kernel hat hc hw hnext
    · refine h.acc_command hat (fun c hc => ?_) hnext
      exact Option.eq_none_iff_forall_ne_some.mpr fun w hw => hkernel ⟨c, w, hc, hw⟩

namespace Count
open CountKernel

/-- One work-item of the kernel that counts. -/
def one : Launch String Unit interp :=
  { launch with
    n := 1, pos := Nat.one_pos, env := fun _ => env, restores := fun _ => restores,
    dvd := one_dvd 1 }

instance : Subsingleton (Fin one.n) := inferInstanceAs (Subsingleton (Fin 1))

end Count

end CommandQueue
end Clpkm
