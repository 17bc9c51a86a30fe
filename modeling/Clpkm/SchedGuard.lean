import Clpkm.Machine
import Clpkm.TaskKind
import Clpkm.Table
import Mathlib.Logic.Function.Basic

/-!
# Scheduled tasks and their events in a high-priority process

An intercepted call of a high-priority process opens a `SchedGuard`, which counts the
task, and hands the vendor an event pointer: the caller's, or one of its own when the
caller passed none.  When the vendor succeeds, `BindToEvent` passes the duty to
uncount the task from the guard on to a callback of the event, and with it, for an
event the caller knows nothing about, the duty to release the event.  Both travel in
one integer: the kind, negated when the event has to be released.

`Inv` balances the account over any order of calls and callbacks: a counter is the
number of live guards plus the number of bound events still to complete.  The duty to
release is another matter: `COMPUTING` is 0, and so is its negation, so the callback
releases no event of that kind (`computing_not_released`).  Where no such event is
bound every internal event is released once (`accounted`).
-/

namespace Clpkm
namespace SchedGuard

/-- An event the vendor created for a call. -/
structure Event where
  /-- the user data of the callback that `BindToEvent` registered -/
  data : Option Int
  /-- the completion callback has run -/
  completed : Bool
  /-- how often the runtime called `clReleaseEvent` on it -/
  released : Nat
  deriving DecidableEq, Repr

/-- How far an intercepted call got. -/
inductive Phase
  /-- the guard is constructed -/
  | entered
  /-- the vendor returned `CL_SUCCESS` -/
  | succeeded
  /-- about to return -/
  | returning
  | returned
  deriving DecidableEq, Repr

/-- An intercepted call. -/
structure Call where
  kind : TaskKind
  /-- the caller passed a null event pointer -/
  nullEvent : Bool
  phase : Phase
  /-- `Kind` of the guard, `none` for `NUM_OF_TASK_KIND` -/
  guard : Option TaskKind
  event : Option Event
  deriving DecidableEq, Repr

/-- The counters and every call made so far. -/
structure State where
  count : TaskKind → BitVec 32
  calls : List Call

/-- The choices of the environment. -/
inductive Label
  | enter (k : TaskKind) (nullEvent : Bool)
  /-- the vendor's enqueue returns -/
  | vendor (i : Nat) (success : Bool)
  | bind (i : Nat)
  /-- the call returns and its guard is destroyed -/
  | leave (i : Nat)
  /-- the completion callback of the call's event -/
  | callback (i : Nat)
  deriving DecidableEq, Repr

def State.init : State := ⟨fun _ => 0#32, []⟩

/-- `SchedStart`, as far as the count is concerned. -/
def schedStart (count : TaskKind → BitVec 32) (k : TaskKind) : TaskKind → BitVec 32 :=
  Function.update count k (count k + 1#32)

/-- `SchedEnd`, as far as the count is concerned. -/
def schedEnd (count : TaskKind → BitVec 32) (k : TaskKind) : TaskKind → BitVec 32 :=
  Function.update count k (count k - 1#32)

/-- The user data that `BindToEvent` registers. -/
def bindData (k : TaskKind) (gottaReleaseEvent : Bool) : Int :=
  let data := (k.val : Int)
  if gottaReleaseEvent then -data else data

/-- `static_cast<task_kind>`; `none` for a value that is no kind. -/
def castKind (data : Int) : Option TaskKind := TaskKind.all.find? (fun k => (k.val : Int) = data)

/-- `SchedEndOnEventCallback`: the kind to uncount, and whether the event is released. -/
def schedEndOnEventCallback (data : Int) : Int × Bool :=
  if data < 0 then (-data, true) else (data, false)

/-- `BindToEvent` moves the task from the guard to the event, if there is one. -/
def Call.bindToEvent (c : Call) (k : TaskKind) : Call :=
  match c.event with
  | none => { c with phase := .returning }
  | some e =>
    { c with
      phase := .returning
      guard := none
      event := some { e with data := some (bindData k c.nullEvent) } }

/-- The event after its callback. -/
def Event.complete (e : Event) (data : Int) : Event :=
  { e with
    completed := true
    released := if (schedEndOnEventCallback data).2 then e.released + 1 else e.released }

/-- One step of a call or of a callback. -/
def step (s : State) : Label → Option State
  | .enter k nullEvent =>
    some ⟨schedStart s.count k, s.calls ++ [⟨k, nullEvent, .entered, some k, none⟩]⟩
  | .vendor i success =>
    match s.calls[i]? with
    | some ⟨k, nullEvent, .entered, guard, _⟩ =>
      let c : Call := if success then ⟨k, nullEvent, .succeeded, guard, some ⟨none, false, 0⟩⟩
        else ⟨k, nullEvent, .returning, guard, none⟩
      some { s with calls := s.calls.set i c }
    | _ => none
  | .bind i =>
    match s.calls[i]? with
    | some ⟨k, nullEvent, .succeeded, some guard, e⟩ =>
      let c : Call := ⟨k, nullEvent, .succeeded, some guard, e⟩
      some { s with calls := s.calls.set i (c.bindToEvent guard) }
    | _ => none
  | .leave i =>
    match s.calls[i]? with
    | some ⟨k, nullEvent, .returning, guard, e⟩ =>
      some ⟨guard.elim s.count (schedEnd s.count),
        s.calls.set i ⟨k, nullEvent, .returned, none, e⟩⟩
    | _ => none
  | .callback i =>
    match s.calls[i]? with
    | some ⟨k, nullEvent, phase, guard, some ⟨some data, false, released⟩⟩ =>
      let e : Event := ⟨some data, false, released⟩
      some ⟨(castKind (schedEndOnEventCallback data).1).elim s.count (schedEnd s.count),
        s.calls.set i ⟨k, nullEvent, phase, guard, some (e.complete data)⟩⟩
    | _ => none

/-- The calls of a high-priority process as a machine. -/
def machine : Machine State Label := ⟨(· = State.init), step⟩

/-! ## The account -/

/-- The call has a live guard of kind `k`. -/
def Call.guards (k : TaskKind) (c : Call) : Bool := c.guard = some k

/-- The event is bound and its callback has not run. -/
def Event.pending (e : Event) : Bool := e.data.isSome && !e.completed

/-- The call has an event bound for kind `k` whose callback has not run. -/
def Call.pending (k : TaskKind) (c : Call) : Bool := c.kind = k && c.event.any Event.pending

/-- The number of live guards of kind `k`. -/
def State.liveGuards (s : State) (k : TaskKind) : Nat := s.calls.countP (Call.guards k)

/-- The number of events bound for kind `k` and not yet completed. -/
def State.pendingEvents (s : State) (k : TaskKind) : Nat := s.calls.countP (Call.pending k)

/-- Every event has completed. -/
def State.AllCompleted (s : State) : Prop :=
  ∀ c ∈ s.calls, ∀ e, c.event = some e → e.completed = true

/-- Fewer than `2^32` tasks of a kind at a time, and no event of kind `COMPUTING` is
bound for a call with a null event pointer. -/
def Accountable (s : State) (l : Label) : Prop :=
  (∀ k nullEvent, l = .enter k nullEvent → s.liveGuards k + s.pendingEvents k + 1 < 2 ^ 32) ∧
  (∀ i c, l = .bind i → s.calls[i]? = some c → c.nullEvent = true → c.kind ≠ .computing)

/-! ## The user data -/

/-- The callback uncounts the kind that was bound. -/
theorem castKind_bindData (k : TaskKind) (b : Bool) :
    castKind (schedEndOnEventCallback (bindData k b)).1 = some k := by
  cases k <;> cases b <;> decide

/-- The callback releases exactly the internal events of a kind other than
`COMPUTING`. -/
theorem releases_bindData (k : TaskKind) (b : Bool) :
    (schedEndOnEventCallback (bindData k b)).2 = (b && decide (k ≠ .computing)) := by
  cases k <;> cases b <;> decide

/-! ## The invariant -/

/-- What is always true of a call. -/
structure CallOk (c : Call) : Prop where
  guard : ∀ k, c.guard = some k → k = c.kind
  entered : c.phase = .entered → c.event = none
  succeeded : c.phase = .succeeded → c.event = some ⟨none, false, 0⟩
  /-- An unbound event is untouched; a bound one is released at its completion if the
  caller passed no pointer, and its kind is then not `COMPUTING`. -/
  event : ∀ e, c.event = some e → e = ⟨none, false, 0⟩ ∨
    (e.data = some (bindData c.kind c.nullEvent) ∧ (c.nullEvent = true → c.kind ≠ .computing) ∧
      e.released = if e.completed = true ∧ c.nullEvent = true then 1 else 0)

/-- The tasks of kind `k` a call accounts for. -/
def weight (k : TaskKind) (c : Call) : Nat :=
  (if c.guards k then 1 else 0) + (if c.pending k then 1 else 0)

/-- The number of tasks of kind `k` that have not ended. -/
def total (calls : List Call) (k : TaskKind) : Nat :=
  calls.countP (Call.guards k) + calls.countP (Call.pending k)

theorem total_set {calls : List Call} {i : Nat} {c : Call} (h : calls[i]? = some c) (c' : Call)
    (k : TaskKind) : total (calls.set i c') k + weight k c = total calls k + weight k c' := by
  have hg := Table.countP_set (Call.guards k) h c'
  have hp := Table.countP_set (Call.pending k) h c'
  unfold total weight
  omega

theorem weight_le_total {calls : List Call} {i : Nat} {c : Call} (h : calls[i]? = some c)
    (k : TaskKind) : weight k c ≤ total calls k := by
  have hmem := List.mem_of_getElem? h
  have hone : ∀ p : Call → Bool, (if p c then 1 else 0) ≤ calls.countP p := by
    intro p
    split
    · exact List.countP_pos_iff.mpr ⟨c, hmem, ‹_›⟩
    · exact Nat.zero_le _
  exact Nat.add_le_add (hone _) (hone _)

/-- The invariant: the counters balance, and every call is in order. -/
structure Inv (s : State) : Prop where
  count : ∀ k, (s.count k).toNat = total s.calls k
  calls : ∀ c ∈ s.calls, CallOk c

theorem inv_init : Inv State.init where
  count _ := rfl
  calls := by intro c h; cases h

variable {s t : State}

/-- A step of one call that changes the counters as much as it changes the call's
share. -/
theorem Inv.update (h : Inv s) {i : Nat} {c c' : Call} (hi : s.calls[i]? = some c)
    {count : TaskKind → BitVec 32}
    (hcount : ∀ k, (count k).toNat + weight k c = (s.count k).toNat + weight k c')
    (hok : CallOk c') : Inv ⟨count, s.calls.set i c'⟩ where
  count k := by
    have hset := total_set hi c' k
    have hk := hcount k
    have hold := h.count k
    show (count k).toNat = total (s.calls.set i c') k
    omega
  calls d hd := by
    rcases List.mem_or_eq_of_mem_set hd with hd | rfl
    · exact h.calls d hd
    · exact hok

/-- Uncounting a task that a call accounts for does not wrap. -/
theorem Inv.schedEnd_toNat (h : Inv s) {i : Nat} {c : Call} (hi : s.calls[i]? = some c)
    {k : TaskKind} (hw : 0 < weight k c) (k' : TaskKind) :
    (schedEnd s.count k k').toNat + (if k = k' then 1 else 0) = (s.count k').toNat := by
  have hle := weight_le_total hi k
  rw [← h.count k] at hle
  unfold schedEnd
  by_cases hk : k = k'
  · subst hk
    rw [Function.update_self, if_pos rfl]
    bv_omega
  · rw [Function.update_of_ne (Ne.symm hk), if_neg hk]
    rfl

/-- A new task is counted. -/
theorem schedStart_toNat {k : TaskKind} {n : Nat} (hn : (s.count k).toNat = n)
    (hlt : n + 1 < 2 ^ 32) (k' : TaskKind) :
    (schedStart s.count k k').toNat = (s.count k').toNat + (if k = k' then 1 else 0) := by
  unfold schedStart
  by_cases hk : k = k'
  · subst hk
    rw [Function.update_self, if_pos rfl]
    bv_omega
  · rw [Function.update_of_ne (Ne.symm hk), if_neg hk]
    rfl

/-- A call enters. -/
theorem Inv.enter (h : Inv s) (k : TaskKind) (nullEvent : Bool)
    (hfew : total s.calls k + 1 < 2 ^ 32) :
    Inv ⟨schedStart s.count k, s.calls ++ [⟨k, nullEvent, .entered, some k, none⟩]⟩ where
  count k' := by
    have hold := h.count k'
    show (schedStart s.count k k').toNat = _
    rw [schedStart_toNat (h.count k) hfew, hold]
    unfold total
    rw [List.countP_append, List.countP_append, List.countP_singleton, List.countP_singleton]
    have hp : Call.pending k' ⟨k, nullEvent, .entered, some k, none⟩ = false := by
      simp [Call.pending]
    have hg : Call.guards k' ⟨k, nullEvent, .entered, some k, none⟩ = decide (k = k') := by
      simp [Call.guards]
    rw [hp, hg]
    by_cases hk : k = k'
    · simp [hk]; omega
    · simp [hk]
  calls c hc := by
    rcases List.mem_append.mp hc with hc | hc
    · exact h.calls c hc
    · rw [List.mem_singleton.mp hc]
      refine ⟨?_, fun _ => rfl, ?_, ?_⟩
      · intro k' hk
        exact (Option.some.inj hk).symm
      · intro hp
        cases hp
      · intro e he
        cases he

/-- The vendor's call returns. -/
theorem Inv.vendor (h : Inv s) {i : Nat} {k : TaskKind} {nullEvent success : Bool}
    {guard : Option TaskKind} {e : Option Event}
    (hi : s.calls[i]? = some ⟨k, nullEvent, .entered, guard, e⟩) :
    Inv ⟨s.count, s.calls.set i
      (if success then ⟨k, nullEvent, .succeeded, guard, some ⟨none, false, 0⟩⟩
        else ⟨k, nullEvent, .returning, guard, none⟩)⟩ := by
  have hok := h.calls _ (List.mem_of_getElem? hi)
  have he : e = none := hok.entered rfl
  subst he
  cases success with
  | true =>
    refine h.update hi (fun k' => ?_) ⟨hok.guard, ?_, fun _ => rfl, ?_⟩
    · simp [weight, Call.guards, Call.pending, Event.pending]
    · intro hp
      cases hp
    · intro e he
      exact Or.inl (Option.some.inj he).symm
  | false =>
    refine h.update hi (fun k' => ?_) ⟨hok.guard, ?_, ?_, ?_⟩
    · simp [weight, Call.guards, Call.pending]
    · intro hp
      cases hp
    · intro hp
      cases hp
    · intro e he
      cases he

/-- `BindToEvent` moves a task from the guard to the event. -/
theorem Inv.bind (h : Inv s) {i : Nat} {k guard : TaskKind} {nullEvent : Bool}
    {e : Option Event} (hi : s.calls[i]? = some ⟨k, nullEvent, .succeeded, some guard, e⟩)
    (hkind : nullEvent = true → k ≠ .computing) :
    Inv ⟨s.count, s.calls.set i
      ((⟨k, nullEvent, .succeeded, some guard, e⟩ : Call).bindToEvent guard)⟩ := by
  have hok := h.calls _ (List.mem_of_getElem? hi)
  have hguard : guard = k := hok.guard guard rfl
  have he : e = some ⟨none, false, 0⟩ := hok.succeeded rfl
  subst hguard
  subst he
  refine h.update hi (fun k' => ?_) ⟨?_, ?_, ?_, ?_⟩
  · have hbefore : weight k' ⟨guard, nullEvent, .succeeded, some guard, some ⟨none, false, 0⟩⟩ =
        if guard = k' then 1 else 0 := by
      simp [weight, Call.guards, Call.pending, Event.pending]
    have hafter : weight k' (Call.bindToEvent
        ⟨guard, nullEvent, .succeeded, some guard, some ⟨none, false, 0⟩⟩ guard) =
          if guard = k' then 1 else 0 := by
      by_cases hk : guard = k' <;>
        simp [weight, Call.guards, Call.pending, Call.bindToEvent, Event.pending, hk]
    rw [hbefore, hafter]
  · intro k' hk
    cases hk
  · intro hp
    cases hp
  · intro hp
    cases hp
  · intro e he
    rw [← Option.some.inj he]
    exact Or.inr ⟨rfl, hkind, by simp⟩

/-- The guard is destroyed. -/
theorem Inv.leave (h : Inv s) {i : Nat} {k : TaskKind} {nullEvent : Bool}
    {guard : Option TaskKind} {e : Option Event}
    (hi : s.calls[i]? = some ⟨k, nullEvent, .returning, guard, e⟩) :
    Inv ⟨guard.elim s.count (schedEnd s.count),
      s.calls.set i ⟨k, nullEvent, .returned, none, e⟩⟩ := by
  have hok := h.calls _ (List.mem_of_getElem? hi)
  have hok' : CallOk ⟨k, nullEvent, .returned, none, e⟩ := by
    refine ⟨?_, ?_, ?_, hok.event⟩
    · intro k' hk
      cases hk
    · intro hp
      cases hp
    · intro hp
      cases hp
  cases guard with
  | none => exact h.update hi (fun k' => rfl) hok'
  | some g =>
    refine h.update hi (fun k' => ?_) hok'
    have hw : ∀ k', weight k' ⟨k, nullEvent, .returning, some g, e⟩ =
        (if g = k' then 1 else 0) + weight k' ⟨k, nullEvent, .returned, none, e⟩ := by
      intro k'
      simp [weight, Call.guards, Call.pending]
    have hpos : 0 < weight g ⟨k, nullEvent, .returning, some g, e⟩ := by
      rw [hw, if_pos rfl]
      omega
    have hend := h.schedEnd_toNat hi hpos k'
    rw [hw]
    show (schedEnd s.count g k').toNat + _ = _
    omega

/-- The completion callback uncounts the task. -/
theorem Inv.callback (h : Inv s) {i : Nat} {k : TaskKind} {nullEvent : Bool} {phase : Phase}
    {guard : Option TaskKind} {data : Int} {released : Nat}
    (hi : s.calls[i]? = some ⟨k, nullEvent, phase, guard, some ⟨some data, false, released⟩⟩) :
    Inv ⟨(castKind (schedEndOnEventCallback data).1).elim s.count (schedEnd s.count),
      s.calls.set i ⟨k, nullEvent, phase, guard,
        some ((⟨some data, false, released⟩ : Event).complete data)⟩⟩ := by
  have hok := h.calls _ (List.mem_of_getElem? hi)
  rcases hok.event _ rfl with he | ⟨hdata, hkind, hrel⟩
  · cases he
  · have hdata : data = bindData k nullEvent := Option.some.inj hdata
    have hzero : released = 0 := by simpa using hrel
    clear hrel
    subst hdata
    subst hzero
    rw [castKind_bindData]
    have hw : ∀ k', weight k' ⟨k, nullEvent, phase, guard,
        some ⟨some (bindData k nullEvent), false, 0⟩⟩ = (if k = k' then 1 else 0) +
          weight k' ⟨k, nullEvent, phase, guard, some
            ((⟨some (bindData k nullEvent), false, 0⟩ : Event).complete
              (bindData k nullEvent))⟩ := by
      intro k'
      simp [weight, Call.guards, Call.pending, Event.pending, Event.complete, Nat.add_comm]
    refine h.update hi (fun k' => ?_) ⟨hok.guard, ?_, ?_, ?_⟩
    · have hpos : 0 < weight k ⟨k, nullEvent, phase, guard,
          some ⟨some (bindData k nullEvent), false, 0⟩⟩ := by
        rw [hw, if_pos rfl]
        omega
      have hend := h.schedEnd_toNat hi hpos k'
      rw [hw]
      show (schedEnd s.count k k').toNat + _ = _
      omega
    · intro hp
      cases hok.entered hp
    · intro hp
      cases hok.succeeded hp
    · intro e he
      rw [← Option.some.inj he]
      refine Or.inr ⟨rfl, hkind, ?_⟩
      show (if (schedEndOnEventCallback (bindData k nullEvent)).2 then 0 + 1 else 0) = _
      rw [releases_bindData]
      cases nullEvent with
      | false => rfl
      | true => simp [Event.complete, hkind rfl]

/-- **Step.**  Every accountable step keeps the invariant. -/
theorem Inv.step (h : Inv s) {l : Label} (hc : Accountable s l) (hs : step s l = some t) :
    Inv t := by
  cases l with
  | enter k nullEvent =>
    cases hs
    exact h.enter k nullEvent (hc.1 k nullEvent rfl)
  | vendor i success =>
    simp only [SchedGuard.step] at hs
    split at hs
    · rename_i hi
      cases hs
      exact h.vendor hi
    · cases hs
  | bind i =>
    simp only [SchedGuard.step] at hs
    split at hs
    · rename_i hi
      cases hs
      exact h.bind hi (hc.2 i _ rfl hi)
    · cases hs
  | leave i =>
    simp only [SchedGuard.step] at hs
    split at hs
    · rename_i hi
      cases hs
      exact h.leave hi
    · cases hs
  | callback i =>
    simp only [SchedGuard.step] at hs
    split at hs
    · rename_i hi
      cases hs
      exact h.callback hi
    · cases hs

theorem inv_of_reachableBy (hs : machine.ReachableBy Accountable s) : Inv s :=
  hs.invariant (fun _ h => h ▸ inv_init) (fun _ _ _ h hc hstep => h.step hc hstep)

/-! ## Balance -/

/-- **Every task is accounted for once and every internal event is released once**, in
every run with fewer than `2^32` tasks of a kind at a time that binds no `COMPUTING`
event of a call with a null event pointer: a counter is the number of live guards plus
the number of bound events still to complete, no event of a caller is ever released,
and once all events have completed every other event has been released once. -/
theorem accounted (s : State) (hs : machine.ReachableBy Accountable s) :
    (∀ k, (s.count k).toNat = s.liveGuards k + s.pendingEvents k) ∧
    (∀ c ∈ s.calls, ∀ e, c.event = some e → c.nullEvent = false → e.released = 0) ∧
    (s.AllCompleted →
      ∀ c ∈ s.calls, ∀ e, c.event = some e → c.nullEvent = true → e.released = 1) := by
  have h := inv_of_reachableBy hs
  refine ⟨h.count, ?_, ?_⟩
  · intro c hc e he hnull
    rcases (h.calls c hc).event e he with rfl | ⟨_, _, hrel⟩
    · rfl
    · rw [hrel, if_neg (by simp [hnull])]
  · intro hall c hc e he hnull
    have hcomp := hall c hc e he
    rcases (h.calls c hc).event e he with rfl | ⟨_, _, hrel⟩
    · cases hcomp
    · rw [hrel, if_pos ⟨hcomp, hnull⟩]

/-- The event of a read without an event pointer is released once. -/
theorem accounted_read :
    ∃ s, machine.Reachable s ∧ s.count .memcpy = 0#32 ∧
      ∃ c ∈ s.calls, ∃ e, c.event = some e ∧ e.released = 1 := by
  let s₁ := (machine.step State.init (.enter .memcpy true)).get (by decide)
  have h₁ : machine.ReachableBy Accountable s₁ := by
    refine .step (.initial rfl) (l := .enter .memcpy true) ⟨fun k _ _ => ?_, ?_⟩
      (Option.some_get _).symm
    · show 0 + 0 + 1 < 2 ^ 32
      omega
    · intro i c hl
      cases hl
  let s₂ := (machine.step s₁ (.vendor 0 true)).get (by decide)
  have h₂ : machine.ReachableBy Accountable s₂ := by
    refine .step h₁ (l := .vendor 0 true) ⟨?_, ?_⟩ (Option.some_get _).symm
    · intro k nullEvent hl
      cases hl
    · intro i c hl
      cases hl
  let s₃ := (machine.step s₂ (.bind 0)).get (by decide)
  have h₃ : machine.ReachableBy Accountable s₃ := by
    refine .step h₂ (l := .bind 0) ⟨?_, ?_⟩ (Option.some_get _).symm
    · intro k nullEvent hl
      cases hl
    · intro i c hl hc _
      cases hl
      have hget : s₂.calls[0]? =
          some ⟨.memcpy, true, .succeeded, some .memcpy, some ⟨none, false, 0⟩⟩ := by decide
      rw [hget, Option.some.injEq] at hc
      subst hc
      decide
  let s₄ := (machine.run s₃ [.callback 0, .leave 0]).get (by decide)
  have h₄ : machine.ReachableBy Accountable s₄ := by
    refine Machine.ReachableBy.run h₃ ?_ (Option.some_get _).symm
    intro l hl u
    simp only [List.mem_cons, List.not_mem_nil, or_false] at hl
    rcases hl with rfl | rfl <;> refine ⟨?_, ?_⟩ <;> intro _ _ h <;> cases h
  have hcalls : s₄.calls = [⟨.memcpy, true, .returned, none, some ⟨some (-1), true, 1⟩⟩] := by
    decide
  have hall : s₄.AllCompleted := by
    intro c hc e he
    rw [hcalls, List.mem_singleton] at hc
    subst hc
    rw [← Option.some.inj he]
  refine ⟨s₄, h₄.reachable, by decide, ⟨.memcpy, true, .returned, none, some ⟨some (-1), true, 1⟩⟩,
    by decide, ⟨some (-1), true, 1⟩, rfl, ?_⟩
  exact (accounted s₄ h₄).2.2 hall _ (by rw [hcalls]; exact List.mem_singleton.mpr rfl) _ rfl rfl

/-! ## The event nobody releases -/

/-- A launch of a kernel without an event pointer, from its guard to its callback. -/
def launchRun : List Label :=
  [.enter .computing true, .vendor 0 true, .bind 0, .leave 0, .callback 0]

/-- **The internal event of a `COMPUTING` call is never released**: the launch is over
and uncounted, its event complete, and the event's reference is still held. -/
theorem computing_not_released :
    ∃ s, machine.Reachable s ∧ s.AllCompleted ∧ s.count .computing = 0#32 ∧
      ∃ c ∈ s.calls, ∃ e, c.event = some e ∧ c.nullEvent = true ∧ e.released = 0 := by
  let s := (machine.run State.init launchRun).get (by decide)
  refine ⟨s, Machine.reachable_of_run rfl (Option.some_get _).symm, ?_, by decide, ?_⟩
  · intro c hc e he
    have hcalls : s.calls = [⟨.computing, true, .returned, none, some ⟨some 0, true, 0⟩⟩] := by
      decide
    rw [hcalls, List.mem_singleton] at hc
    subst hc
    rw [← Option.some.inj he]
  · exact ⟨⟨.computing, true, .returned, none, some ⟨some 0, true, 0⟩⟩, by decide,
      ⟨some 0, true, 0⟩, rfl, rfl, rfl⟩

end SchedGuard
end Clpkm
