import Clpkm.Machine
import Clpkm.EventTable

/-!
# The order of an in-order queue

A low-priority process runs kernels in slices on a shadow queue that executes out of
order, so the order of the caller's queue has to be kept by events.  Every queue
stores in `TaskBlocker` the event of the last call that succeeded on it; a call
appends it to its wait list and, if the queue is in-order (`ShallReorder`), stores its
own event instead, all under `BlockerMutex`.  The event of a kernel launch is `Final`,
a user event that the callback of the launch sets once its last slice is done.

The steps of the model are the critical sections of the calls on one queue, the
callbacks of the launches and the moves of the device.  A label says how many of the
vendor calls of a section succeed.  The device may execute the commands in any order
their wait lists permit; the caller's queue would forbid some of these orders, so the
results hold a fortiori.  A launch whose marker fails has freed the data of its
callback, and what the callback then does is left out.

`Inv` links the calls: each waits for the final event of its predecessor, and a final
event is complete only when its call has executed.  Hence `ordered`: of two calls that
succeeded on an in-order queue the later one starts only when the earlier is complete.
-/

namespace Clpkm
namespace TaskBlocker
open EventTable

/-- Who settles an event that is no command of the device. -/
inductive Owner
  /-- the callback of a kernel launch settles its `Final` event -/
  | final (work : Nat)
  /-- a user event of the caller, or a command of another queue -/
  | foreign
  deriving DecidableEq, Repr

/-- `CallbackData`: a launch whose slices are enqueued one after the other. -/
structure Work where
  final : Nat
  /-- the kernel command of each slice and the command that reads the headers after it -/
  slices : List (Nat × Nat)
  /-- the callback has not settled `Final` yet -/
  active : Bool
  deriving DecidableEq, Repr

/-- A call that succeeded. -/
structure Call where
  /-- the wait list handed to the vendor -/
  waits : List Nat
  /-- the command with this wait list -/
  first : Nat
  /-- the event that says the call is complete -/
  final : Nat
  /-- the work of a kernel launch, `none` for other calls -/
  work : Option Nat
  deriving DecidableEq, Repr

/-- A queue, the events of the device and the calls that succeeded on the queue, in the
order they held `BlockerMutex`. -/
structure State where
  shallReorder : Bool
  taskBlocker : Option Nat
  events : List (Event Owner)
  works : List Work
  calls : List Call
  deriving DecidableEq, Repr

/-- What a callback does when its slice is complete. -/
inductive Resume
  /-- all headers are 0 -/
  | finish
  /-- enqueue another slice, after writing the headers if they changed; the number of
  vendor calls that succeed -/
  | again (writeHeader : Bool) (done : Nat)
  deriving DecidableEq, Repr

/-- The choices of the environment. -/
inductive Label
  /-- an event comes into being elsewhere -/
  | foreign
  | settleForeign (id : Nat) (success : Bool)
  | device (l : DeviceLabel)
  /-- a read, write, copy, map, unmap or marker call; whether the vendor's succeeds -/
  | reorder (waits : List Nat) (success : Bool)
  /-- a kernel launch; how many of its vendor calls succeed -/
  | launch (waits : List Nat) (done : Nat)
  /-- the callback of a launch -/
  | resume (work : Nat) (r : Resume)
  deriving DecidableEq, Repr

/-- `QueueInfo` as `clCreateCommandQueue` fills it. -/
def State.init (shallReorder : Bool) : State := ⟨shallReorder, none, [], [], []⟩

/-- The move assignment of `ResGuard` swaps the resources. -/
def moveAssign {α : Type} (lhs rhs : α) : α × α := (rhs, lhs)

/-- `ReorderCore` with a vendor call that succeeds or fails. -/
def reorderCore (s : State) (waits : List Nat) (success : Bool) : State :=
  let waitingList := waits ++ s.taskBlocker.toList
  let altEvent := s.events.length
  if success then
    { s with
      events := s.events ++ [command waitingList]
      calls := s.calls ++ [⟨waitingList, altEvent, altEvent, none⟩]
      taskBlocker :=
        if s.shallReorder then (moveAssign s.taskBlocker (some altEvent)).1 else s.taskBlocker }
  else s

/-- The events of a launch in the order of their creation: the write of the metadata,
`Final`, the kernel, the read of the headers and the marker on the caller's queue. -/
def launchEvents (s : State) (waits : List Nat) : List (Event Owner) :=
  let base := s.events.length
  let newWaitingList := waits ++ [base] ++ s.taskBlocker.toList
  [command [], owned (.final s.works.length), command newWaitingList, command [base + 2],
    command [base + 1]]

/-- `clEnqueueNDRangeKernel`; it succeeds when all its vendor calls do. -/
def enqueueNDRangeKernel (s : State) (waits : List Nat) (done : Nat) : State :=
  let base := s.events.length
  let events := s.events ++ (launchEvents s waits).take done
  if (launchEvents s waits).length ≤ done then
    { s with
      events := events
      works := s.works ++ [⟨base + 1, [(base + 2, base + 3)], true⟩]
      calls := s.calls ++
        [⟨waits ++ [base] ++ s.taskBlocker.toList, base + 2, base + 1, some s.works.length⟩]
      taskBlocker :=
        if s.shallReorder then (moveAssign s.taskBlocker (some (base + 1))).1
        else s.taskBlocker }
  else { s with events := events }

/-- `clSetUserEventStatus` on `Final`; the callback is done with its work. -/
def setFinal (s : State) (w : Nat) (work : Work) (success : Bool) : State :=
  { s with
    events := settle s.events work.final success
    works := s.works.set w { work with active := false } }

/-- The events of another slice: the write of the headers, the kernel and the read. -/
def sliceEvents (s : State) (writeHeader : Bool) : List (Event Owner) :=
  let base := s.events.length
  if writeHeader then [command [], command [base], command [base + 1]]
  else [command [], command [base]]

/-- `ResumeOrFinish`, once the read of the last slice is over. -/
def resumeOrFinish (s : State) (w : Nat) (work : Work) (r : Resume) : State :=
  match r with
  | .finish => setFinal s w work true
  | .again writeHeader done =>
    let run := s.events.length + (if writeHeader then 1 else 0)
    let s' := { s with events := s.events ++ (sliceEvents s writeHeader).take done }
    -- the callback of the next slice is registered after the commands are enqueued
    if (sliceEvents s writeHeader).length < done then
      { s' with works := s.works.set w { work with slices := work.slices ++ [(run, run + 1)] } }
    else setFinal s' w work false

/-- One step of a call, a callback, the device or an owner elsewhere. -/
def step (s : State) : Label → Option State
  | .foreign => some { s with events := s.events ++ [owned .foreign] }
  | .settleForeign id success =>
    if (s.events[id]?.bind Event.owner) = some .foreign then
      some { s with events := settle s.events id success }
    else none
  | .device l => (deviceStep s.events l).map fun es => { s with events := es }
  | .reorder waits success => some (reorderCore s waits success)
  | .launch waits done => some (enqueueNDRangeKernel s waits done)
  | .resume w r =>
    match s.works[w]? with
    | some ⟨final, slices, true⟩ =>
      match slices.getLast?.bind (fun p => status s.events p.2) with
      | some .complete => some (resumeOrFinish s w ⟨final, slices, true⟩ r)
      | some .failed => some (setFinal s w ⟨final, slices, true⟩ false)
      | _ => none
    | _ => none

/-- The calls on one queue as a machine. -/
def machine : Machine State Label := ⟨fun s => ∃ shallReorder, s = State.init shallReorder, step⟩

/-! ## Started and complete calls -/

/-- The commands that execute a call: its command, or the slices of its kernel. -/
def Call.runs (s : State) (c : Call) : List Nat :=
  match c.work.bind (fun w => s.works[w]?) with
  | some work => work.slices.map Prod.fst
  | none => [c.first]

/-- A command of the call has started executing on the device. -/
def Call.Started (s : State) (c : Call) : Prop := ∃ id ∈ c.runs s, EventTable.Started s.events id

/-- The call's event is complete, and so is every command that executes the call. -/
def Call.Complete (s : State) (c : Call) : Prop :=
  EventTable.Complete s.events c.final ∧ ∀ id ∈ c.runs s, EventTable.Complete s.events id

/-- An event depends on call `i` if it is its event, or the event of a call whose wait
list contains one that depends on call `i`. -/
inductive DependsOn (s : State) (i : Nat) : Nat → Prop
  | final {c : Call} (h : s.calls[i]? = some c) : DependsOn s i c.final
  | through {k : Nat} {c : Call} {w : Nat} (h : s.calls[k]? = some c) (hw : w ∈ c.waits)
      (hd : DependsOn s i w) : DependsOn s i c.final

/-! ## The invariant -/

/-- What is always true of the work of a launch. -/
structure WorkOk (es : List (Event Owner)) (w : Nat) (work : Work) : Prop where
  final : ∃ e, es[work.final]? = some e ∧ e.owner = some (.final w)
  nonempty : work.slices ≠ []
  run : ∀ p ∈ work.slices, ∃ e, es[p.1]? = some e ∧ e.owner = none
  /-- The headers are read after the kernel. -/
  read : ∀ p ∈ work.slices, ∃ e, es[p.2]? = some e ∧ e.owner = none ∧ e.waits = [p.1]
  /-- A slice is enqueued only when its predecessors are complete. -/
  before : ∀ p ∈ work.slices.dropLast, Complete es p.1
  active : work.active = true → ¬ Complete es work.final
  /-- `Final` is complete only after every slice. -/
  after : Complete es work.final → ∀ p ∈ work.slices, Complete es p.1

/-- What is always true of a call. -/
structure CallOk (es : List (Event Owner)) (works : List Work) (c : Call) : Prop where
  first : ∃ e, es[c.first]? = some e ∧ e.owner = none ∧ e.waits = c.waits
  command : c.work = none → c.final = c.first
  kernel : ∀ w, c.work = some w → ∃ work, works[w]? = some work ∧ work.final = c.final ∧
    work.slices.head?.map Prod.fst = some c.first

/-- The invariant of a queue. -/
structure Inv (s : State) : Prop where
  events : Ok s.events
  works : ∀ w work, s.works[w]? = some work → WorkOk s.events w work
  calls : ∀ c ∈ s.calls, CallOk s.events s.works c
  blocker : s.taskBlocker = if s.shallReorder then s.calls.getLast?.map Call.final else none
  chain : s.shallReorder = true → ∀ k c d, s.calls[k]? = some c → s.calls[k + 1]? = some d →
    c.final ∈ d.waits

theorem inv_init (shallReorder : Bool) : Inv (State.init shallReorder) where
  events := ok_nil
  works := by intro w work h; cases h
  calls := by intro c h; cases h
  blocker := by cases shallReorder <;> rfl
  chain := by intro _ k c d h; cases h

variable {es es' : List (Event Owner)} {moved : Nat → Prop} {s t : State}

/-- What is true of a work stays true while its `Final` is left alone. -/
theorem WorkOk.extends {w : Nat} {work : Work} (h : WorkOk es w work)
    (hext : Extends moved es es') (hm : ¬ moved work.final) : WorkOk es' w work := by
  have hfinal : Complete es' work.final → Complete es work.final := by
    obtain ⟨e, he, ho⟩ := h.final
    exact hext.complete_of_owned he (by rw [ho]; exact fun h => by cases h) hm
  refine ⟨?_, h.nonempty, ?_, ?_, fun p hp => hext.complete (h.before p hp),
    fun ha hc => h.active ha (hfinal hc), fun hc p hp => hext.complete (h.after (hfinal hc) p hp)⟩
  · obtain ⟨e, he, ho⟩ := h.final
    obtain ⟨e', he', ho', _⟩ := hext _ _ he
    exact ⟨e', he', ho'.trans ho⟩
  · intro p hp
    obtain ⟨e, he, ho⟩ := h.run p hp
    obtain ⟨e', he', ho', _⟩ := hext _ _ he
    exact ⟨e', he', ho'.trans ho⟩
  · intro p hp
    obtain ⟨e, he, ho, hw⟩ := h.read p hp
    obtain ⟨e', he', ho', hw', _⟩ := hext _ _ he
    exact ⟨e', he', ho'.trans ho, hw'.trans hw⟩

theorem CallOk.extends {works : List Work} {c : Call} (h : CallOk es works c)
    (hext : Extends moved es es') : CallOk es' works c := by
  refine ⟨?_, h.command, h.kernel⟩
  obtain ⟨e, he, ho, hw⟩ := h.first
  obtain ⟨e', he', ho', hw', _⟩ := hext _ _ he
  exact ⟨e', he', ho'.trans ho, hw'.trans hw⟩

/-- A step that only moves events, none of them a `Final`. -/
theorem Inv.moveEvents (h : Inv s) (hext : Extends moved s.events es') (hok : Ok es')
    (hm : ∀ id, moved id → s.events[id]?.bind Event.owner = some .foreign) :
    Inv { s with events := es' } where
  events := hok
  works w work hw := by
    refine (h.works w work hw).extends hext (fun hmoved => ?_)
    obtain ⟨e, he, ho⟩ := (h.works w work hw).final
    have hf := hm _ hmoved
    rw [he, Option.bind_some, ho] at hf
    cases hf
  calls c hc := (h.calls c hc).extends hext
  blocker := h.blocker
  chain := h.chain

theorem fresh_take {l : List (Event Owner)} (h : Fresh l) (n : Nat) : Fresh (l.take n) :=
  fun e he => h e (List.mem_of_mem_take he)

/-- Enqueuing commands, whether the call succeeds or not. -/
theorem Inv.appendEvents (h : Inv s) {l : List (Event Owner)} (hl : Fresh l) :
    Inv { s with events := s.events ++ l } :=
  h.moveEvents (extends_append (fun _ => False) s.events l) (h.events.append hl)
    (fun _ hm => hm.elim)

/-- A call that succeeds: it waits for `TaskBlocker` and becomes the new one. -/
theorem Inv.call (h : Inv s) {c : Call} {works : List Work}
    (hworks : ∀ w work, works[w]? = some work → WorkOk s.events w work)
    (hcalls : ∀ d ∈ s.calls, CallOk s.events works d) (hc : CallOk s.events works c)
    (hwaits : ∀ b, s.taskBlocker = some b → b ∈ c.waits) :
    Inv { s with
      works := works
      calls := s.calls ++ [c]
      taskBlocker := if s.shallReorder then some c.final else s.taskBlocker } where
  events := h.events
  works := hworks
  calls := by
    intro d hd
    rcases List.mem_append.mp hd with hd | hd
    · exact hcalls d hd
    · rw [List.mem_singleton.mp hd]
      exact hc
  blocker := by
    have hb := h.blocker
    cases hs : s.shallReorder with
    | true => simp
    | false =>
      rw [hs] at hb
      simpa using hb
  chain := by
    intro hs k a b ha hb
    -- only the last pair of calls is new
    by_cases hk : k + 1 < s.calls.length
    · rw [List.getElem?_append_left hk] at hb
      rw [List.getElem?_append_left (by omega)] at ha
      exact h.chain hs k a b ha hb
    · have hlast : k + 1 = s.calls.length := by
        have := (List.getElem?_eq_some_iff.mp hb).1
        simp only [List.length_append, List.length_singleton] at this
        omega
      rw [hlast, List.getElem?_concat_length, Option.some.injEq] at hb
      subst hb
      rw [List.getElem?_append_left (by omega)] at ha
      apply hwaits a.final
      have hget : s.calls.getLast? = some a := by
        rw [List.getLast?_eq_getElem?, ← hlast]
        exact ha
      rw [h.blocker, hs, hget]
      rfl

theorem fresh_command (waits : List Nat) : Fresh [(command waits : Event Owner)] := by
  intro e he
  rw [List.mem_singleton.mp he]
  exact ⟨rfl, rfl⟩

/-- A call through `ReorderCore`. -/
theorem Inv.reorderCore (h : Inv s) (waits : List Nat) (success : Bool) :
    Inv (reorderCore s waits success) := by
  cases success with
  | false => exact h
  | true =>
    let waitingList := waits ++ s.taskBlocker.toList
    have happ := h.appendEvents (fresh_command waitingList)
    have hcall : CallOk (s.events ++ [command waitingList]) s.works
        ⟨waitingList, s.events.length, s.events.length, none⟩ := by
      refine ⟨⟨command waitingList, ?_, rfl, rfl⟩, fun _ => rfl, ?_⟩
      · exact List.getElem?_concat_length
      · intro w hw
        cases hw
    refine happ.call happ.works happ.calls hcall (fun b hb => ?_)
    have hb' : s.taskBlocker = some b := hb
    show b ∈ waits ++ s.taskBlocker.toList
    rw [hb']
    simp

theorem launchEvents_fresh (s : State) (waits : List Nat) : Fresh (launchEvents s waits) := by
  intro e he
  simp only [launchEvents, List.mem_cons, List.not_mem_nil, or_false] at he
  rcases he with rfl | rfl | rfl | rfl | rfl <;> exact ⟨rfl, rfl⟩

/-- The events of a launch that succeeds are at the end of the table. -/
theorem get_launchEvents (s : State) (waits : List Nat) (k : Nat) :
    (s.events ++ launchEvents s waits)[s.events.length + k]? = (launchEvents s waits)[k]? := by
  rw [List.getElem?_append_right (by omega)]
  congr 1
  omega

/-- A kernel launch. -/
theorem Inv.enqueueNDRangeKernel (h : Inv s) (waits : List Nat) (done : Nat) :
    Inv (enqueueNDRangeKernel s waits done) := by
  have happ := h.appendEvents (fresh_take (launchEvents_fresh s waits) done)
  unfold TaskBlocker.enqueueNDRangeKernel
  simp only
  split
  · rename_i hdone
    rw [List.take_of_length_le hdone] at happ ⊢
    have hget := get_launchEvents s waits
    -- the final event of the new work is a user event that nobody has set yet
    have hnew : WorkOk (s.events ++ launchEvents s waits) s.works.length
        ⟨s.events.length + 1, [(s.events.length + 2, s.events.length + 3)], true⟩ := by
      have hfinal : ¬ Complete (s.events ++ launchEvents s waits) (s.events.length + 1) := by
        intro hc
        unfold Complete status at hc
        rw [hget 1] at hc
        cases hc
      refine ⟨⟨_, hget 1, rfl⟩, by simp, ?_, ?_, ?_, fun _ => hfinal, fun hc => absurd hc hfinal⟩
      · intro p hp
        rw [List.mem_singleton.mp hp]
        exact ⟨_, hget 2, rfl⟩
      · intro p hp
        rw [List.mem_singleton.mp hp]
        exact ⟨_, hget 3, rfl, rfl⟩
      · intro p hp
        cases hp
    have hworks : ∀ w work, (s.works ++ [⟨s.events.length + 1,
        [(s.events.length + 2, s.events.length + 3)], true⟩])[w]? = some work →
        WorkOk (s.events ++ launchEvents s waits) w work := by
      intro w work hw
      by_cases hlt : w < s.works.length
      · rw [List.getElem?_append_left hlt] at hw
        exact happ.works w work hw
      · have hlen := (List.getElem?_eq_some_iff.mp hw).1
        simp only [List.length_append, List.length_singleton] at hlen
        have hw' : w = s.works.length := by omega
        subst hw'
        rw [List.getElem?_concat_length, Option.some.injEq] at hw
        subst hw
        exact hnew
    have hcall : CallOk (s.events ++ launchEvents s waits) (s.works ++ [⟨s.events.length + 1,
        [(s.events.length + 2, s.events.length + 3)], true⟩])
        ⟨waits ++ [s.events.length] ++ s.taskBlocker.toList, s.events.length + 2,
          s.events.length + 1, some s.works.length⟩ := by
      refine ⟨⟨_, hget 2, rfl, rfl⟩, ?_, ?_⟩
      · intro hw
        cases hw
      · intro w hw
        cases hw
        exact ⟨_, List.getElem?_concat_length, rfl, rfl⟩
    refine happ.call hworks (fun d hd => ?_) hcall (fun b hb => ?_)
    · have hok := happ.calls d hd
      refine ⟨hok.first, hok.command, fun w hw => ?_⟩
      obtain ⟨work, hwork, hrest⟩ := hok.kernel w hw
      have hlt := (List.getElem?_eq_some_iff.mp hwork).1
      exact ⟨work, (List.getElem?_append_left hlt).trans hwork, hrest⟩
    · have hb' : s.taskBlocker = some b := hb
      show b ∈ waits ++ [s.events.length] ++ s.taskBlocker.toList
      rw [hb']
      simp
  -- an error in between: the events stay, but there is neither a work nor a call
  · exact happ

/-- When the read of the last slice is complete, so is every slice. -/
theorem WorkOk.slices_complete {w : Nat} {work : Work} (h : WorkOk es w work) (hok : Ok es)
    (hread : work.slices.getLast?.bind (fun p => status es p.2) = some .complete) :
    ∀ p ∈ work.slices, Complete es p.1 := by
  obtain ⟨last, hlast, hst⟩ := Option.bind_eq_some_iff.mp hread
  have hmem : last ∈ work.slices := List.mem_of_getLast? hlast
  have hcomplete : Complete es last.1 := by
    obtain ⟨e, he, ho, hw⟩ := h.read last hmem
    apply hok.waits_complete he (hok.started_of_complete he ho hst) last.1
    rw [hw]
    exact List.mem_singleton.mpr rfl
  intro p hp
  have hsplit := List.dropLast_append_getLast? last hlast
  rw [← hsplit] at hp
  rcases List.mem_append.mp hp with hp | hp
  · exact h.before p hp
  · rw [List.mem_singleton.mp hp]
    exact hcomplete

/-- Changing the work of a launch but not its `Final` nor its first slice. -/
theorem Inv.setWork (h : Inv s) {w : Nat} {work work' : Work} (hw : s.works[w]? = some work)
    (hext : Extends moved s.events es') (hok : Ok es')
    (hm : ∀ id, moved id → id = work.final) (hwork' : WorkOk es' w work')
    (hfinal : work'.final = work.final)
    (hhead : work'.slices.head? = work.slices.head?) :
    Inv { s with events := es', works := s.works.set w work' } where
  events := hok
  works v u hu := by
    by_cases hv : w = v
    · subst hv
      rw [List.getElem?_set_self (List.getElem?_eq_some_iff.mp hw).1, Option.some.injEq] at hu
      subst hu
      exact hwork'
    · rw [List.getElem?_set_ne hv] at hu
      refine (h.works v u hu).extends hext (fun hmoved => hv ?_)
      -- the `Final` events of two works have two owners
      obtain ⟨e, he, ho⟩ := (h.works w work hw).final
      obtain ⟨e', he', ho'⟩ := (h.works v u hu).final
      rw [hm _ hmoved, he, Option.some.injEq] at he'
      rw [← he', ho, Option.some.injEq, Owner.final.injEq] at ho'
      exact ho'
  calls c hc := by
    have hcall := (h.calls c hc).extends hext
    refine ⟨hcall.first, hcall.command, fun v hv => ?_⟩
    obtain ⟨u, hu, huf, huh⟩ := hcall.kernel v hv
    by_cases hwv : w = v
    · subst hwv
      rw [hw, Option.some.injEq] at hu
      subst hu
      exact ⟨work', List.getElem?_set_self (List.getElem?_eq_some_iff.mp hw).1,
        hfinal.trans huf, by rw [hhead]; exact huh⟩
    · exact ⟨u, by rw [List.getElem?_set_ne hwv]; exact hu, huf, huh⟩
  blocker := h.blocker
  chain := h.chain

/-- An event settled as failed is not complete, unless it was before. -/
theorem complete_of_settle_failed {id : Nat} (hc : Complete (settle es id false) id) :
    Complete es id := by
  unfold settle at hc
  split at hc
  · rename_i o waits started he
    obtain ⟨e, he', hs⟩ := complete_iff.mp hc
    rw [List.getElem?_set_self (List.getElem?_eq_some_iff.mp he).1, Option.some.injEq] at he'
    subst he'
    cases hs
  · exact hc

/-- The callback settles `Final`: as complete only when every slice is. -/
theorem Inv.setFinal (h : Inv s) {w : Nat} {work : Work} (hw : s.works[w]? = some work)
    (ha : work.active = true) {success : Bool}
    (hall : success = true → ∀ p ∈ work.slices, Complete s.events p.1) :
    Inv (setFinal s w work success) := by
  obtain ⟨hext, hok⟩ := h.events.settle work.final success
  have hold := h.works w work hw
  refine h.setWork hw hext hok (fun _ hm => hm) ?_ rfl rfl
  refine ⟨?_, hold.nonempty, ?_, ?_, fun p hp => hext.complete (hold.before p hp), ?_, ?_⟩
  · obtain ⟨e, he, ho⟩ := hold.final
    obtain ⟨e', he', ho', _⟩ := hext _ _ he
    exact ⟨e', he', ho'.trans ho⟩
  · intro p hp
    obtain ⟨e, he, ho⟩ := hold.run p hp
    obtain ⟨e', he', ho', _⟩ := hext _ _ he
    exact ⟨e', he', ho'.trans ho⟩
  · intro p hp
    obtain ⟨e, he, ho, hwt⟩ := hold.read p hp
    obtain ⟨e', he', ho', hwt', _⟩ := hext _ _ he
    exact ⟨e', he', ho'.trans ho, hwt'.trans hwt⟩
  · intro hact
    cases hact
  · intro hc p hp
    cases success with
    | true => exact hext.complete (hall rfl p hp)
    | false => exact absurd (complete_of_settle_failed hc) (hold.active ha)

theorem sliceEvents_fresh (s : State) (writeHeader : Bool) : Fresh (sliceEvents s writeHeader) := by
  intro e he
  cases writeHeader <;>
    simp only [sliceEvents, if_true, Bool.false_eq_true, if_false, List.mem_cons,
      List.not_mem_nil, or_false] at he
  · rcases he with rfl | rfl <;> exact ⟨rfl, rfl⟩
  · rcases he with rfl | rfl | rfl <;> exact ⟨rfl, rfl⟩

/-- The kernel and the read of a new slice. -/
theorem get_sliceEvents (s : State) (writeHeader : Bool) :
    let run := s.events.length + (if writeHeader then 1 else 0)
    (∃ e, (s.events ++ sliceEvents s writeHeader)[run]? = some e ∧ e.owner = none) ∧
    ∃ e, (s.events ++ sliceEvents s writeHeader)[run + 1]? = some e ∧ e.owner = none ∧
      e.waits = [run] := by
  have hget : ∀ k, (s.events ++ sliceEvents s writeHeader)[s.events.length + k]? =
      (sliceEvents s writeHeader)[k]? := by
    intro k
    rw [List.getElem?_append_right (by omega)]
    congr 1
    omega
  cases writeHeader with
  | true => exact ⟨⟨_, hget 1, rfl⟩, ⟨_, hget 2, rfl, rfl⟩⟩
  | false => exact ⟨⟨_, hget 0, rfl⟩, ⟨_, hget 1, rfl, rfl⟩⟩

/-- The callback of a launch whose last slice is read. -/
theorem Inv.resumeOrFinish (h : Inv s) {w : Nat} {work : Work} (hw : s.works[w]? = some work)
    (ha : work.active = true)
    (hread : work.slices.getLast?.bind (fun p => status s.events p.2) = some .complete)
    (r : Resume) : Inv (resumeOrFinish s w work r) := by
  have hall := (h.works w work hw).slices_complete h.events hread
  cases r with
  | finish => exact h.setFinal hw ha (fun _ => hall)
  | again writeHeader done =>
    have happ := h.appendEvents (fresh_take (sliceEvents_fresh s writeHeader) done)
    unfold TaskBlocker.resumeOrFinish
    simp only
    split
    · rename_i hdone
      rw [List.take_of_length_le (Nat.le_of_lt hdone)] at happ ⊢
      have hold := happ.works w work hw
      have hall' : ∀ p ∈ work.slices, Complete (s.events ++ sliceEvents s writeHeader) p.1 :=
        fun p hp => (extends_append (fun _ => False) _ _).complete (hall p hp)
      obtain ⟨hrun, hreadNew⟩ := get_sliceEvents s writeHeader
      refine happ.setWork hw (Extends.refl (fun _ => False) _) happ.events
        (fun _ hm => hm.elim) ⟨hold.final, by simp, ?_, ?_, ?_, hold.active, ?_⟩ rfl ?_
      · intro p hp
        rcases List.mem_append.mp hp with hp | hp
        · exact hold.run p hp
        · rw [List.mem_singleton.mp hp]
          exact hrun
      · intro p hp
        rcases List.mem_append.mp hp with hp | hp
        · exact hold.read p hp
        · rw [List.mem_singleton.mp hp]
          exact hreadNew
      · intro p hp
        rw [List.dropLast_concat] at hp
        exact hall' p hp
      · intro hc
        exact absurd hc (hold.active ha)
      · exact List.head?_append_of_ne_nil _ hold.nonempty
    -- an error ends the work, and its final event says so
    · exact happ.setFinal hw ha (fun hf => by cases hf)

/-- **Step.**  Every step keeps the invariant. -/
theorem Inv.step (h : Inv s) {l : Label} (hs : step s l = some t) : Inv t := by
  cases l with
  | foreign =>
    cases hs
    refine h.appendEvents (fun e he => ?_)
    rw [List.mem_singleton.mp he]
    exact ⟨rfl, rfl⟩
  | settleForeign id success =>
    simp only [TaskBlocker.step, Option.ite_none_right_eq_some, Option.some.injEq] at hs
    obtain ⟨ho, rfl⟩ := hs
    obtain ⟨hext, hok⟩ := h.events.settle id success
    exact h.moveEvents hext hok (fun id' hm => by rw [hm]; exact ho)
  | device l =>
    simp only [TaskBlocker.step, Option.map_eq_some_iff] at hs
    obtain ⟨es, hes, rfl⟩ := hs
    obtain ⟨hext, hok⟩ := h.events.device (fun _ => False) hes
    exact h.moveEvents hext hok (fun _ hm => hm.elim)
  | reorder waits success =>
    cases hs
    exact h.reorderCore waits success
  | launch waits done =>
    cases hs
    exact h.enqueueNDRangeKernel waits done
  | resume w r =>
    simp only [TaskBlocker.step] at hs
    split at hs
    · rename_i final slices hw
      split at hs
      · rename_i hread
        cases hs
        exact h.resumeOrFinish hw rfl hread r
      · cases hs
        exact h.setFinal hw rfl (fun hf => by cases hf)
      · cases hs
    · cases hs

theorem inv_of_reachable (hs : machine.Reachable s) : Inv s :=
  hs.invariant (fun _ ⟨b, h⟩ => h ▸ inv_init b) (fun _ _ _ h hstep => h.step hstep)

/-! ## Order -/

/-- The slices of a launch, the first one being the command of its call. -/
theorem Inv.runs_of_work (h : Inv s) {c : Call} (hc : c ∈ s.calls) {w : Nat}
    (hw : c.work = some w) : ∃ work, WorkOk s.events w work ∧ work.final = c.final ∧
      c.runs s = work.slices.map Prod.fst ∧ ∃ p rest, work.slices = p :: rest ∧ p.1 = c.first := by
  obtain ⟨work, hwork, hfinal, hhead⟩ := (h.calls c hc).kernel w hw
  refine ⟨work, h.works w work hwork, hfinal, ?_, ?_⟩
  · rw [Call.runs, hw, Option.bind_some, hwork]
  · cases hsl : work.slices with
    | nil => rw [hsl] at hhead; cases hhead
    | cons p rest =>
      rw [hsl] at hhead
      exact ⟨p, rest, rfl, Option.some.inj hhead⟩

theorem Inv.runs_of_command (h : Inv s) {c : Call} (hc : c ∈ s.calls) (hw : c.work = none) :
    c.runs s = [c.first] ∧ c.final = c.first :=
  ⟨by rw [Call.runs, hw]; rfl, (h.calls c hc).command hw⟩

/-- A call whose first command started has a complete wait list. -/
theorem Inv.waits_of_first (h : Inv s) {c : Call} (hc : c ∈ s.calls)
    (hs : EventTable.Started s.events c.first) : ∀ w ∈ c.waits, EventTable.Complete s.events w := by
  obtain ⟨e, he, _, hw⟩ := (h.calls c hc).first
  rw [← hw]
  exact h.events.waits_complete he hs

/-- A call whose first command is complete has a complete wait list. -/
theorem Inv.waits_of_first_complete (h : Inv s) {c : Call} (hc : c ∈ s.calls)
    (hs : EventTable.Complete s.events c.first) :
    ∀ w ∈ c.waits, EventTable.Complete s.events w := by
  obtain ⟨e, he, ho, _⟩ := (h.calls c hc).first
  exact h.waits_of_first hc (h.events.started_of_complete he ho hs)

/-- A call that started found its wait list complete: a slice after the first exists
only once the first is complete. -/
theorem Inv.waits_of_started (h : Inv s) {c : Call} (hc : c ∈ s.calls) (hs : c.Started s) :
    ∀ w ∈ c.waits, EventTable.Complete s.events w := by
  obtain ⟨id, hid, hst⟩ := hs
  cases hw : c.work with
  | none =>
    rw [(h.runs_of_command hc hw).1, List.mem_singleton] at hid
    subst hid
    exact h.waits_of_first hc hst
  | some w =>
    obtain ⟨work, hok, _, hruns, p, rest, hsl, hp⟩ := h.runs_of_work hc hw
    rw [hruns, hsl, List.map_cons, List.mem_cons] at hid
    rcases hid with rfl | hid
    · rw [hp] at hst
      exact h.waits_of_first hc hst
    · cases rest with
      | nil => cases hid
      | cons q rest =>
        have hbefore : EventTable.Complete s.events p.1 := hok.before p (by rw [hsl]; simp)
        rw [hp] at hbefore
        exact h.waits_of_first_complete hc hbefore

/-- A call whose event is complete has executed. -/
theorem Inv.complete_of_final (h : Inv s) {c : Call} (hc : c ∈ s.calls)
    (hf : EventTable.Complete s.events c.final) : c.Complete s := by
  refine ⟨hf, fun id hid => ?_⟩
  cases hw : c.work with
  | none =>
    obtain ⟨hruns, hfinal⟩ := h.runs_of_command hc hw
    rw [hruns, List.mem_singleton] at hid
    rw [hid, ← hfinal]
    exact hf
  | some w =>
    obtain ⟨work, hok, hfinal, hruns, _⟩ := h.runs_of_work hc hw
    rw [hruns, List.mem_map] at hid
    obtain ⟨p, hp, rfl⟩ := hid
    exact hok.after (by rw [hfinal]; exact hf) p hp

/-- A complete call found its wait list complete. -/
theorem Inv.waits_of_complete (h : Inv s) {c : Call} (hc : c ∈ s.calls) (hcomp : c.Complete s) :
    ∀ w ∈ c.waits, EventTable.Complete s.events w := by
  refine h.waits_of_first_complete hc (hcomp.2 c.first ?_)
  cases hw : c.work with
  | none => rw [(h.runs_of_command hc hw).1]; exact List.mem_singleton.mpr rfl
  | some w =>
    obtain ⟨work, _, _, hruns, p, rest, hsl, hp⟩ := h.runs_of_work hc hw
    rw [hruns, hsl, ← hp]
    exact List.mem_cons_self

/-- On an in-order queue, a call whose wait list is complete comes after complete
calls only, and its wait list depends on each of them. -/
theorem Inv.earlier (h : Inv s) (hr : s.shallReorder = true) {i j : Nat} (hij : i < j)
    {a b : Call} (ha : s.calls[i]? = some a) (hb : s.calls[j]? = some b) :
    (∃ w ∈ b.waits, DependsOn s i w) ∧
      ((∀ w ∈ b.waits, EventTable.Complete s.events w) → a.Complete s) := by
  induction j generalizing b with
  | zero => omega
  | succ j ih =>
    have hlt : j < s.calls.length := by
      have := (List.getElem?_eq_some_iff.mp hb).1
      omega
    have hc : s.calls[j]? = some s.calls[j] := List.getElem?_eq_getElem hlt
    have hlink := h.chain hr j _ b hc hb
    by_cases hi : i = j
    · subst hi
      rw [hc, Option.some.injEq] at ha
      subst ha
      exact ⟨⟨_, hlink, .final hc⟩,
        fun hw => h.complete_of_final (List.mem_of_getElem? hc) (hw _ hlink)⟩
    · obtain ⟨⟨w, hw, hdep⟩, hcomp⟩ := ih (by omega) hc
      refine ⟨⟨_, hlink, .through hc hw hdep⟩, fun hall => hcomp ?_⟩
      have hmem := List.mem_of_getElem? hc
      exact h.waits_of_complete hmem (h.complete_of_final hmem (hall _ hlink))

end TaskBlocker
end Clpkm
