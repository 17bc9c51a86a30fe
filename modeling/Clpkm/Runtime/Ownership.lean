import Clpkm.Runtime.Lifecycle
import Clpkm.Table
import Mathlib.Data.List.Perm.Basic

/-!
# Who owns a launched work

As long as no `clFlush` and no marker fails, one party at a time is responsible for the
`CallbackData`: an activation that has not yet registered the next callback, or the
vendor with a callback that is still to be delivered.  Whoever frees it was the only one.
For events there is a balance: every reference that was obtained is held in one place or
has been released once.

`lifecycle` draws the conclusions.  `freed_too_early` shows what happens when one of the
two calls fails: the exception frees the data although the callback has been registered.
-/

namespace Clpkm
namespace Lifecycle

/-- The activation is responsible for the data. -/
def Pc.owns : Pc → Bool
  | .metaEnqueue _ (.flush _) | .marker | .returned _ | .done => false
  | _ => true

/-- The activation is the one of `clEnqueueNDRangeKernel`. -/
def Pc.isCall : Pc → Bool
  | .metaEnqueue .enqueueNDRangeKernel _ | .marker | .returned _ => true
  | _ => false

/-- What the guard `EventRead` holds until the vendor has it. -/
def Pc.eventRead : Pc → List Nat
  | .metaEnqueue _ (.setCallback e) => [e]
  | _ => []

def Act.held (a : Act) : List Nat := a.guard.toList ++ a.pc.eventRead

/-- The references to events that somebody holds. -/
def State.held (s : State) : List Nat :=
  s.data.events ++ s.taskBlocker.toList ++ s.pending ++ s.acts.flatMap Act.held

/-- The slots of `PrevWork` that are empty when a call is made. -/
def Pc.SlotsOk (d : CallbackData) : Pc → Prop
  | .metaEnqueue _ .enqueueKernel => d.prevWork0 = none
  | .prevWork .zero _ => d.prevWork1 = none
  | .thisEvent _ | .updateHeader | .writeHeader => d.prevWork0 = none ∧ d.prevWork1 = none
  | _ => True

/-- How often a reference was obtained. -/
def obtained (next e : Nat) : Nat := if e < next then 1 else 0

theorem obtained_succ (next e : Nat) :
    obtained (next + 1) e = obtained next e + [next].count e := by
  unfold obtained
  rw [List.count_singleton]
  by_cases heq : next = e
  · rw [if_pos (by omega), if_neg (by omega), if_pos (beq_iff_eq.mpr heq)]
  · rw [if_neg (fun h => heq (beq_iff_eq.mp h))]
    by_cases hlt : e < next
    · rw [if_pos (by omega), if_pos hlt]
    · rw [if_neg (by omega), if_neg hlt]

structure Inv (s : State) : Prop where
  /-- one party is responsible until the data is freed -/
  owners : s.pending.length + s.acts.countP (·.pc.owns) + s.frees = 1
  calls : s.acts.countP (·.pc.isCall) = 1
  /-- the data is freed by the call that fails, or when the status is set -/
  status : s.statusSet + s.acts.countP (·.pc = .returned false) = s.frees
  disposals : s.disposals + s.data.kernel.toNat = 1
  kernel : s.data.kernel.toNat + s.frees = 1
  freed : 0 < s.frees → s.data = .freed
  slots : ∀ a ∈ s.acts, a.pc.SlotsOk s.data
  /-- every reference is held in one place or has been released once -/
  events : ∀ e, s.held.count e + s.released.count e = obtained s.next e
  guards : ∀ a ∈ s.acts, a.pc.finished = true → a.guard = none
  blocker : s.taskBlocker ≠ none → ∃ a ∈ s.acts, a.pc = .returned true

variable {s t : State} {j : Nat} {a b : Act}

theorem slotsOk_of_not_owns {pc : Pc} (h : pc.owns = false) (d : CallbackData) : pc.SlotsOk d := by
  cases pc with
  | metaEnqueue f m =>
    cases m with
    | enqueueKernel => cases h
    | enqueueRead | setCallback _ | flush _ => trivial
  | prevWork idx q => cases h
  | thisEvent q | updateHeader | writeHeader => cases h
  | marker | returned _ | setComplete | setError | done => trivial

/-- **An activation makes a step**: the balances only have to be looked at for what the step
changes. -/
theorem Inv.update (h : Inv s) (ha : s.acts[j]? = some a) (hacts : t.acts = s.acts.set j b)
    (howners : t.pending.length + b.pc.owns.toNat + t.frees =
      s.pending.length + a.pc.owns.toNat + s.frees)
    (hcall : b.pc.isCall = a.pc.isCall)
    (hstatus : t.statusSet + (if b.pc = .returned false then 1 else 0) + s.frees =
      s.statusSet + t.frees)
    (hreturned : ∀ ok, a.pc ≠ .returned ok)
    (hdisposals : t.disposals + t.data.kernel.toNat = s.disposals + s.data.kernel.toNat)
    (hkernel : t.data.kernel.toNat + t.frees = s.data.kernel.toNat + s.frees)
    (hfreed : 0 < t.frees → t.data = .freed)
    (hdata : a.pc.owns = true ∨ t.data = s.data) (hslots : b.pc.SlotsOk t.data)
    (hevents : ∀ e, t.data.events.count e + t.taskBlocker.toList.count e + t.pending.count e +
        b.held.count e + t.released.count e + obtained s.next e =
      s.data.events.count e + s.taskBlocker.toList.count e + s.pending.count e +
        a.held.count e + s.released.count e + obtained t.next e)
    (hguard : b.pc.finished = true → b.guard = none)
    (hblocker : t.taskBlocker = s.taskBlocker ∨ b.pc = .returned true) : Inv t := by
  have hmem : b ∈ s.acts.set j b := by
    obtain ⟨hlt, _⟩ := List.getElem?_eq_some_iff.mp ha
    exact List.mem_of_getElem? (List.getElem?_set_self hlt)
  refine ⟨?_, ?_, ?_, ?_, ?_, hfreed, ?_, fun e => ?_, ?_, fun hne => ?_⟩
  · have hset := Table.countP_set (fun a : Act => a.pc.owns) ha b
    have hown := h.owners
    rw [hacts]
    cases hb : b.pc.owns <;> cases hpa : a.pc.owns <;>
      simp only [hb, hpa, Bool.toNat_true, Bool.toNat_false, if_true] at * <;> simp at hset <;>
      omega
  · have hset := Table.countP_set (fun a : Act => a.pc.isCall) ha b
    have hcalls := h.calls
    rw [hacts]
    simp only [hcall] at hset
    omega
  · have hset := Table.countP_set (fun a : Act => decide (a.pc = .returned false)) ha b
    have hst := h.status
    rw [hacts]
    simp only [decide_eq_true_eq, hreturned false, if_false] at hset
    omega
  · rw [hdisposals]
    exact h.disposals
  · rw [hkernel]
    exact h.kernel
  · rw [hacts]
    intro c hc
    -- at most one activation owns the data, which is the one that moves
    by_cases hown : c.pc.owns = true
    · rcases hdata with howa | hsame
      · have hle : s.acts.countP (fun a => a.pc.owns) ≤ 1 := by
          have := h.owners
          omega
        rw [Table.eq_of_mem_set (fun a : Act => a.pc.owns) hle ha howa hc hown]
        exact hslots
      · rcases List.mem_or_eq_of_mem_set hc with hc | rfl
        · rw [hsame]
          exact h.slots c hc
        · exact hslots
    · exact slotsOk_of_not_owns (Bool.not_eq_true _ ▸ hown) _
  · have hset := Table.count_flatMap_set Act.held e ha b
    have hev := h.events e
    have hloc := hevents e
    simp only [State.held, List.count_append, hacts] at hev ⊢
    omega
  · rw [hacts]
    exact Table.forall_mem_set h.guards j hguard
  · rw [hacts]
    rcases hblocker with hsame | hret
    · rw [hsame] at hne
      obtain ⟨c, hc, hret⟩ := h.blocker hne
      obtain ⟨i, hi⟩ := List.mem_iff_getElem?.mp hc
      -- the call that has returned is not the one that moves
      have hij : j ≠ i := by
        rintro rfl
        rw [ha, Option.some.injEq] at hi
        exact hreturned true (hi ▸ hret)
      refine ⟨c, List.mem_of_getElem? (i := i) ?_, hret⟩
      rw [List.getElem?_set_ne hij]
      exact hi
    · exact ⟨b, hmem, hret⟩

/-! ## The steps of an activation -/

theorem ne_returned_of_owns {pc : Pc} (h : pc.owns = true) (ok : Bool) : pc ≠ .returned ok := by
  rintro rfl
  cases h

theorem not_finished_of_owns {pc : Pc} (h : pc.owns = true) : pc.finished = false := by
  cases pc with
  | returned _ | done => cases h
  | metaEnqueue _ _ | marker | prevWork _ _ | thisEvent _ | updateHeader | setComplete
  | writeHeader | setError => rfl

/-- The data is there as long as somebody owns it. -/
theorem Inv.frees_eq_zero (h : Inv s) (ha : s.acts[j]? = some a) (hown : a.pc.owns = true) :
    s.frees = 0 := by
  have hpos : 0 < s.acts.countP (·.pc.owns) :=
    List.countP_pos_iff.mpr ⟨a, List.mem_of_getElem? ha, hown⟩
  have := h.owners
  omega

/-- The owner goes on. -/
theorem Inv.move (h : Inv s) (ha : s.acts[j]? = some a) (hown : a.pc.owns = true)
    {d : CallbackData} {released : List Nat} {next : Nat} (hb : b.pc.owns = true)
    (hcall : b.pc.isCall = a.pc.isCall) (hkernel : d.kernel = s.data.kernel)
    (hslots : b.pc.SlotsOk d)
    (hevents : ∀ e, d.events.count e + b.held.count e + released.count e +
        obtained s.next e =
      s.data.events.count e + a.held.count e + s.released.count e +
        obtained next e) :
    Inv { s with acts := s.acts.set j b, data := d, released := released, next := next } := by
  have hzero := h.frees_eq_zero ha hown
  refine h.update ha rfl ?_ hcall ?_ (ne_returned_of_owns hown) ?_ ?_ (fun hpos => ?_) (.inl hown)
    hslots (fun e => ?_) (fun hfin => ?_) (.inl rfl)
  · rw [hown, hb]
  · rw [if_neg (ne_returned_of_owns hb false)]
    rfl
  · rw [hkernel]
  · rw [hkernel]
  · change 0 < s.frees at hpos
    omega
  · have := hevents e
    simp only
    omega
  · rw [not_finished_of_owns hb] at hfin
    cases hfin

theorem Inv.goto (h : Inv s) (ha : s.acts[j]? = some a) (hown : a.pc.owns = true) {pc : Pc}
    (hpc : pc.owns = true) (hcall : pc.isCall = a.pc.isCall)
    (hread : pc.eventRead = a.pc.eventRead) (hslots : pc.SlotsOk s.data) :
    Inv (s.goto j { a with pc := pc }) :=
  h.move ha hown hpc hcall rfl hslots fun _ => by rw [Act.held, Act.held, hread]

/-- The owner frees the data and returns. -/
theorem Inv.free (h : Inv s) (ha : s.acts[j]? = some a) (hown : a.pc.owns = true) {pc : Pc}
    (hpc : pc.finished = true) (hcall : pc.isCall = a.pc.isCall) {set : Nat}
    (hset : set + (if pc = .returned false then 1 else 0) = 1) {released : List Nat}
    (hreleased : ∀ e, released.count e = s.released.count e + s.data.events.count e +
      a.pc.eventRead.count e + a.guard.toList.count e) :
    Inv { s with
      acts := s.acts.set j ⟨pc, none⟩, data := .freed, released := released,
      frees := s.frees + 1, disposals := s.disposals + s.data.kernel.toNat,
      statusSet := s.statusSet + set } := by
  have hzero := h.frees_eq_zero ha hown
  have hpcown : pc.owns = false := by
    cases pc with
    | returned _ | done => rfl
    | metaEnqueue _ _ | marker | prevWork _ _ | thisEvent _ | updateHeader | setComplete
    | writeHeader | setError => cases hpc
  have hread : pc.eventRead = [] := by
    cases pc with
    | returned _ | done => rfl
    | metaEnqueue _ _ | marker | prevWork _ _ | thisEvent _ | updateHeader | setComplete
    | writeHeader | setError => cases hpc
  have hkernel : s.data.kernel.toNat = 1 := by
    have := h.kernel
    omega
  refine h.update ha rfl ?_ hcall ?_ (ne_returned_of_owns hown) ?_ ?_ (fun _ => rfl) (.inl hown)
    (slotsOk_of_not_owns hpcown _) (fun e => ?_) (fun _ => rfl) (.inl rfl)
  · simp only [hown, hpcown, Bool.toNat_true, Bool.toNat_false]
    omega
  · simp only
    omega
  · rfl
  · simp only [hkernel, CallbackData.freed, Bool.toNat_false]
    omega
  · have := hreleased e
    simp only [Act.held, hread, List.count_append, CallbackData.freed, CallbackData.events,
      Option.toList_none, List.append_nil, List.count_nil] at this ⊢
    omega

/-- A party that is not responsible goes on; it may release what it holds. -/
theorem Inv.tail (h : Inv s) (ha : s.acts[j]? = some a) (hown : a.pc.owns = false)
    (hfin : a.pc.finished = false) (hb : b.pc.owns = false) (hcall : b.pc.isCall = a.pc.isCall)
    (hret : b.pc ≠ .returned false) {released : List Nat} {taskBlocker : Option Nat}
    (hevents : ∀ e, taskBlocker.toList.count e + b.held.count e + released.count e =
      s.taskBlocker.toList.count e + a.held.count e + s.released.count e)
    (hguard : b.pc.finished = true → b.guard = none)
    (hblocker : taskBlocker = s.taskBlocker ∨ b.pc = .returned true) :
    Inv { s with
      acts := s.acts.set j b, released := released, taskBlocker := taskBlocker } := by
  refine h.update ha rfl ?_ hcall ?_ (fun ok heq => ?_) rfl rfl h.freed (.inr rfl)
    (slotsOk_of_not_owns hb _) (fun e => ?_) hguard hblocker
  · rw [hown, hb]
  · rw [if_neg hret]
    rfl
  · rw [heq] at hfin
    cases hfin
  · have := hevents e
    simp only
    omega

/-- An exception in a party that is responsible. -/
theorem Inv.throw (h : Inv s) (ha : s.acts[j]? = some a) (hown : a.pc.owns = true) (f : Caller)
    (hf : a.pc.isCall = decide (f = .enqueueNDRangeKernel)) :
    Inv ((s.release a.pc.eventRead).throw f j a) := by
  cases f with
  | enqueueNDRangeKernel =>
    have hcall : (Pc.returned false).isCall = a.pc.isCall := hf.symm
    refine h.free ha hown rfl hcall (rfl : 0 + 1 = 1) fun e => ?_
    simp only [State.release, State.delete, List.count_append]
    omega
  | resumeOrFinish =>
    refine h.move (b := ⟨.setError, none⟩) ha hown rfl hf.symm rfl trivial fun e => ?_
    rw [show Act.held ⟨.setError, none⟩ = [] from rfl]
    simp only [State.release, Act.held, List.count_append, List.count_nil]
    omega

theorem release_nil (s : State) : s.release [] = s := by
  unfold State.release
  rw [List.append_nil]

/-- An exception in a party that holds no event but its guard. -/
theorem Inv.throw_nil (h : Inv s) (ha : s.acts[j]? = some a) (hown : a.pc.owns = true)
    (hread : a.pc.eventRead = []) (f : Caller)
    (hf : a.pc.isCall = decide (f = .enqueueNDRangeKernel)) : Inv (s.throw f j a) := by
  have hthrow := h.throw ha hown f hf
  rwa [hread, release_nil] at hthrow

/-- The status is set, and the data is freed. -/
theorem Inv.cleanup (h : Inv s) (ha : s.acts[j]? = some a) (hown : a.pc.owns = true)
    (hcall : a.pc.isCall = false) (hread : a.pc.eventRead = []) :
    Inv ({ s with statusSet := s.statusSet + 1 }.callbackCleanup.leave j a .done) := by
  have hdone : Pc.done.isCall = a.pc.isCall := hcall.symm
  refine h.free ha hown rfl hdone (rfl : 1 + 0 = 1) fun e => ?_
  simp only [State.release, State.callbackCleanup, State.delete, CallbackData.events,
    List.count_append, hread, List.count_nil]
  omega

theorem isCall_metaEnqueue (f : Caller) (m : Meta) :
    (Pc.metaEnqueue f m).isCall = decide (f = .enqueueNDRangeKernel) := by
  cases f with
  | enqueueNDRangeKernel | resumeOrFinish => rfl

/-- **What a call in `MetaEnqueue` does**, if it is not a `clFlush` that fails. -/
theorem Inv.metaEnqueue (h : Inv s) {f : Caller} {m : Meta} {ok : Bool}
    (ha : s.acts[j]? = some a) (hpc : a.pc = .metaEnqueue f m)
    (hc : ok = false → ∀ e, m ≠ .flush e) : Inv (s.metaEnqueue j a f m ok) := by
  have hcall : a.pc.isCall = decide (f = .enqueueNDRangeKernel) := by
    rw [hpc, isCall_metaEnqueue]
  have hslots := h.slots a (List.mem_of_getElem? ha)
  cases m with
  | enqueueKernel =>
    have hown : a.pc.owns = true := by rw [hpc]; rfl
    have hread : a.pc.eventRead = [] := by rw [hpc]; rfl
    cases ok with
    | false => exact h.throw_nil ha hown hread f hcall
    | true =>
      have hempty : s.data.prevWork0 = none := by
        rw [hpc] at hslots
        exact hslots
      refine h.move ha hown rfl (hcall ▸ isCall_metaEnqueue f _) rfl trivial fun e => ?_
      rw [obtained_succ, Act.held, Act.held, hread]
      simp only [Pc.eventRead, CallbackData.events, hempty, List.count_append, Option.toList_none,
        Option.toList_some, List.count_nil]
      omega
  | enqueueRead =>
    have hown : a.pc.owns = true := by rw [hpc]; rfl
    have hread : a.pc.eventRead = [] := by rw [hpc]; rfl
    cases ok with
    | false => exact h.throw_nil ha hown hread f hcall
    | true =>
      refine h.move ha hown rfl (hcall ▸ isCall_metaEnqueue f _) rfl trivial fun e => ?_
      rw [obtained_succ, Act.held, Act.held, hread]
      simp only [Pc.eventRead, List.count_append, List.count_nil]
      omega
  | setCallback e =>
    have hown : a.pc.owns = true := by rw [hpc]; rfl
    have hread : a.pc.eventRead = [e] := by rw [hpc]; rfl
    cases ok with
    | false =>
      have hthrow := h.throw ha hown f hcall
      rwa [hread] at hthrow
    | true =>
      -- the vendor has the callback, and with it the data
      have hzero := h.frees_eq_zero ha hown
      refine h.update (b := { a with pc := .metaEnqueue f (.flush e) }) ha rfl ?_
        (hcall ▸ isCall_metaEnqueue f _) rfl (ne_returned_of_owns hown) rfl rfl h.freed
        (.inl hown) trivial (fun e' => ?_) (fun hfin => nomatch hfin) (.inl rfl)
      · rw [hown]
        change (s.pending ++ [e]).length + 0 + s.frees = s.pending.length + 1 + s.frees
        rw [List.length_append, List.length_singleton]
      · change _ + _ + (s.pending ++ [e]).count e' + (a.guard.toList ++ []).count e' + _ + _ = _
        rw [Act.held, hread, List.append_nil, List.count_append, List.count_append]
        simp only [State.metaEnqueue, State.goto]
        omega
  | flush e =>
    have hown : a.pc.owns = false := by rw [hpc]; rfl
    have hfin : a.pc.finished = false := by rw [hpc]; rfl
    have hread : a.pc.eventRead = [] := by rw [hpc]; rfl
    cases ok with
    | false => exact absurd rfl (hc rfl e)
    | true =>
      cases f with
      | enqueueNDRangeKernel =>
        refine h.tail (b := { a with pc := .marker }) ha hown hfin rfl hcall.symm
          (fun heq => nomatch heq) (fun e' => ?_) (fun heq => nomatch heq) (.inl rfl)
        rw [Act.held, Act.held, hread]
        rfl
      | resumeOrFinish =>
        refine h.tail (b := ⟨.done, none⟩) ha hown hfin rfl hcall.symm
          (fun heq => nomatch heq) (fun e' => ?_) (fun _ => rfl) (.inl rfl)
        rw [show Act.held ⟨.done, none⟩ = [] from rfl]
        simp only [State.release, Act.held, hread, List.count_append, List.count_nil]
        omega

/-- There is one activation of `clEnqueueNDRangeKernel`. -/
theorem Inv.call_unique (h : Inv s) (ha : a ∈ s.acts) (hb : b ∈ s.acts)
    (hacall : a.pc.isCall = true) (hbcall : b.pc.isCall = true) : b = a := by
  obtain ⟨i, hi⟩ := List.mem_iff_getElem?.mp ha
  obtain ⟨hlt, heq⟩ := List.getElem?_eq_some_iff.mp hi
  have hset : s.acts.set i a = s.acts := by rw [← heq, List.set_getElem_self]
  exact Table.eq_of_mem_set (fun a : Act => a.pc.isCall) (Nat.le_of_eq h.calls) hi hacall
    (by rwa [hset]) hbcall

/-- The queue has no event of the work before `clEnqueueNDRangeKernel` returns. -/
theorem Inv.taskBlocker_eq_none (h : Inv s) (ha : s.acts[j]? = some a) (hpc : a.pc = .marker) :
    s.taskBlocker = none := by
  by_contra hne
  obtain ⟨c, hc, hret⟩ := h.blocker hne
  have hca : c = a := h.call_unique (List.mem_of_getElem? ha) hc (by rw [hpc]; rfl)
    (by rw [hret]; rfl)
  rw [hca, hpc] at hret
  cases hret

theorem Inv.finishEnqueue (h : Inv s) (ha : s.acts[j]? = some a) (hpc : a.pc = .marker) :
    Inv (s.finishEnqueue j a) := by
  have hown : a.pc.owns = false := by rw [hpc]; rfl
  have hfin : a.pc.finished = false := by rw [hpc]; rfl
  have hcall : (Pc.returned true).isCall = a.pc.isCall := by rw [hpc]; rfl
  have hread : a.pc.eventRead = [] := by rw [hpc]; rfl
  have hnone := h.taskBlocker_eq_none ha hpc
  unfold State.finishEnqueue
  by_cases hreorder : s.shallReorder = true
  · rw [if_pos hreorder]
    refine h.tail (b := ⟨.returned true, none⟩) ha hown hfin rfl hcall (fun heq => nomatch heq)
      (fun e => ?_) (fun _ => rfl) (.inr rfl)
    rw [show Act.held ⟨.returned true, none⟩ = [] from rfl, hnone]
    simp only [Act.held, hread, List.count_append, List.count_nil, Option.toList_none]
    omega
  · rw [if_neg hreorder]
    refine h.tail (b := ⟨.returned true, none⟩) ha hown hfin rfl hcall (fun heq => nomatch heq)
      (fun e => ?_) (fun _ => rfl) (.inl rfl)
    rw [show Act.held ⟨.returned true, none⟩ = [] from rfl]
    simp only [State.release, Act.held, hread, List.count_append, List.count_nil]
    omega

/-- What is known about the slots when the next one is looked at. -/
theorem slotsOk_following {d : CallbackData} {idx : Slot} {q : Query}
    (h : (Pc.prevWork idx q).SlotsOk d) (hempty : d.slot idx = none) : idx.following.SlotsOk d := by
  cases idx with
  | one => exact hempty
  | zero => exact ⟨hempty, h⟩

theorem count_releaseSlot (d : CallbackData) {idx : Slot} {e : Nat} (he : d.slot idx = some e)
    (e' : Nat) : (d.releaseSlot idx).events.count e' + [e].count e' = d.events.count e' := by
  cases idx with
  | one =>
    have hslot : d.prevWork1 = some e := he
    simp only [CallbackData.releaseSlot, CallbackData.events, hslot, List.count_append,
      Option.toList_none, Option.toList_some, List.count_nil]
    omega
  | zero =>
    have hslot : d.prevWork0 = some e := he
    simp only [CallbackData.releaseSlot, CallbackData.events, hslot, List.count_append,
      Option.toList_none, Option.toList_some, List.count_nil]
    omega

/-- **What `ResumeOrFinish` does for a slot of `PrevWork`.** -/
theorem Inv.prevWork (h : Inv s) {idx : Slot} {q : Query} {ok : Bool}
    (ha : s.acts[j]? = some a) (hpc : a.pc = .prevWork idx q) :
    Inv (s.prevWork j a idx q ok) := by
  have hown : a.pc.owns = true := by rw [hpc]; rfl
  have hcall : a.pc.isCall = false := by rw [hpc]; rfl
  have hread : a.pc.eventRead = [] := by rw [hpc]; rfl
  have hslots : (Pc.prevWork idx q).SlotsOk s.data := by
    rw [← hpc]
    exact h.slots a (List.mem_of_getElem? ha)
  obtain ⟨hfown, hfcall, hfread⟩ : idx.following.owns = true ∧ idx.following.isCall = false ∧
      idx.following.eventRead = [] := by
    cases idx with
    | one | zero => exact ⟨rfl, rfl, rfl⟩
  unfold State.prevWork
  cases hslot : s.data.slot idx with
  | none =>
    exact h.goto ha hown hfown (hfcall.trans hcall.symm) (hfread.trans hread.symm)
      (slotsOk_following hslots hslot)
  | some e =>
    cases ok with
    | false => exact h.throw_nil ha hown hread .resumeOrFinish hcall
    | true =>
      have hsame : ∀ q', (Pc.prevWork idx q').SlotsOk s.data := by
        cases idx with
        | one => exact fun _ => trivial
        | zero => exact fun _ => hslots
      cases q with
      | status | profilingStart => exact h.goto ha hown rfl hcall.symm hread.symm (hsame _)
      | profilingEnd =>
        refine h.move (b := { a with pc := idx.following }) ha hown hfown
          (hfcall.trans hcall.symm) ?_ ?_ fun e' => ?_
        · cases idx with
          | one | zero => rfl
        · cases idx with
          | one => exact rfl
          | zero => exact ⟨rfl, hslots⟩
        · have hcount := count_releaseSlot s.data hslot e'
          simp only [State.release, Act.held, hfread, hread, List.count_append]
          omega

/-- **What a call of the vendor does**, if it is not one of those that must succeed. -/
theorem Inv.vendor (h : Inv s) {ok : Bool} (ha : s.acts[j]? = some a)
    (hc : ok = false → a.pc ≠ .marker ∧ ∀ f e, a.pc ≠ .metaEnqueue f (.flush e))
    (hs : s.vendor j a ok = some t) : Inv t := by
  have hslots := h.slots a (List.mem_of_getElem? ha)
  cases hpc : a.pc with
  | metaEnqueue f m =>
    simp only [State.vendor, hpc, Option.some.injEq] at hs
    subst hs
    exact h.metaEnqueue ha hpc fun hok e heq => (hc hok).2 f e (by rw [hpc, heq])
  | marker =>
    cases ok with
    | false => exact absurd hpc (hc rfl).1
    | true =>
      simp only [State.vendor, hpc, Option.some.injEq] at hs
      subst hs
      exact h.finishEnqueue ha hpc
  | prevWork idx q =>
    simp only [State.vendor, hpc, Option.some.injEq] at hs
    subst hs
    exact h.prevWork ha hpc
  | thisEvent q =>
    have hown : a.pc.owns = true := by rw [hpc]; rfl
    have hcall : a.pc.isCall = false := by rw [hpc]; rfl
    have hread : a.pc.eventRead = [] := by rw [hpc]; rfl
    rw [hpc] at hslots
    cases ok with
    | false =>
      simp only [State.vendor, hpc, Option.some.injEq] at hs
      subst hs
      exact h.throw_nil ha hown hread .resumeOrFinish hcall
    | true =>
      cases q with
      | status | profilingStart | profilingEnd =>
        simp only [State.vendor, hpc, Option.some.injEq] at hs
        subst hs
        exact h.goto ha hown rfl hcall.symm hread.symm hslots
  | setComplete | setError =>
    cases ok with
    | false =>
      simp only [State.vendor, hpc] at hs
      cases hs
    | true =>
      simp only [State.vendor, hpc, Option.some.injEq] at hs
      subst hs
      exact h.cleanup ha (by rw [hpc]; rfl) (by rw [hpc]; rfl) (by rw [hpc]; rfl)
  | writeHeader =>
    have hown : a.pc.owns = true := by rw [hpc]; rfl
    have hcall : a.pc.isCall = false := by rw [hpc]; rfl
    have hread : a.pc.eventRead = [] := by rw [hpc]; rfl
    rw [hpc] at hslots
    cases ok with
    | false =>
      simp only [State.vendor, hpc, Option.some.injEq] at hs
      subst hs
      exact h.throw_nil ha hown hread .resumeOrFinish hcall
    | true =>
      simp only [State.vendor, hpc, Option.some.injEq] at hs
      subst hs
      refine h.move (b := { a with pc := .metaEnqueue .resumeOrFinish .enqueueKernel }) ha hown
        rfl hcall.symm rfl hslots.1 fun e => ?_
      rw [obtained_succ, Act.held, Act.held, hread]
      simp only [Pc.eventRead, CallbackData.events, hslots.2, List.count_append,
        Option.toList_none, Option.toList_some, List.count_nil]
      omega
  | returned _ | updateHeader | done =>
    simp only [State.vendor, hpc] at hs
    cases hs

theorem Inv.updateHeader (h : Inv s) {progress : Progress} (ha : s.acts[j]? = some a)
    (hs : s.updateHeader j a progress = some t) : Inv t := by
  unfold State.updateHeader at hs
  by_cases hpc : a.pc = .updateHeader
  · rw [if_pos hpc, Option.some.injEq] at hs
    subst hs
    have hown : a.pc.owns = true := by rw [hpc]; rfl
    have hcall : a.pc.isCall = false := by rw [hpc]; rfl
    have hread : a.pc.eventRead = [] := by rw [hpc]; rfl
    have hslots := h.slots a (List.mem_of_getElem? ha)
    rw [hpc] at hslots
    cases progress with
    | finished => exact h.goto ha hown rfl hcall.symm hread.symm trivial
    | yetFinished => exact h.goto ha hown rfl hcall.symm hread.symm hslots.1
    | updated => exact h.goto ha hown rfl hcall.symm hread.symm hslots
  · rw [if_neg hpc] at hs
    cases hs

/-! ## Callbacks and the queue -/

/-- A callback that is delivered takes over the data and its event. -/
theorem Inv.deliver (h : Inv s) {i e : Nat} (hi : s.pending[i]? = some e) :
    Inv { s with
      pending := s.pending.eraseIdx i,
      acts := s.acts ++ [⟨.prevWork .one .status, some e⟩] } := by
  obtain ⟨hlt, hget⟩ := List.getElem?_eq_some_iff.mp hi
  have hlen := List.length_eraseIdx_add_one hlt
  have hmem : ∀ c ∈ s.acts ++ [⟨.prevWork .one .status, some e⟩],
      c ∈ s.acts ∨ c = ⟨.prevWork .one .status, some e⟩ := fun c hc => by
    rcases List.mem_append.mp hc with hc | hc
    · exact Or.inl hc
    · exact Or.inr (List.mem_singleton.mp hc)
  refine ⟨?_, ?_, ?_, h.disposals, h.kernel, h.freed, fun c hc => ?_, fun e' => ?_,
    fun c hc hfin => ?_, fun hne => ?_⟩
  · have hown := h.owners
    have hnew : [(⟨.prevWork .one .status, some e⟩ : Act)].countP (·.pc.owns) = 1 := rfl
    rw [List.countP_append, hnew]
    simp only
    omega
  · have hnew : [(⟨.prevWork .one .status, some e⟩ : Act)].countP (·.pc.isCall) = 0 := rfl
    rw [List.countP_append, hnew]
    exact h.calls
  · have hnew : [(⟨.prevWork .one .status, some e⟩ : Act)].countP
        (fun a => decide (a.pc = .returned false)) = 0 := rfl
    rw [List.countP_append, hnew]
    exact h.status
  · rcases hmem c hc with hc | rfl
    · exact h.slots c hc
    · trivial
  · have hev := h.events e'
    have hperm := (List.getElem_cons_eraseIdx_perm hlt).count_eq e'
    rw [hget, List.count_cons] at hperm
    simp only [State.held, List.count_append, List.flatMap_append, List.flatMap_singleton,
      Act.held, Pc.eventRead, Option.toList_some, List.count_nil, List.count_singleton]
      at hev ⊢
    omega
  · rcases hmem c hc with hc | rfl
    · exact h.guards c hc hfin
    · cases hfin
  · obtain ⟨c, hc, hret⟩ := h.blocker hne
    exact ⟨c, List.mem_append_left _ hc, hret⟩

theorem Inv.dropTaskBlocker (h : Inv s) {e : Nat} (he : s.taskBlocker = some e) :
    Inv { s.release [e] with taskBlocker := none } := by
  refine ⟨h.owners, h.calls, h.status, h.disposals, h.kernel, h.freed, h.slots, fun e' => ?_,
    h.guards, fun hne => absurd rfl hne⟩
  have hev := h.events e'
  simp only [State.held, State.release, he, List.count_append, Option.toList_some,
    Option.toList_none, List.count_nil] at hev ⊢
  omega

theorem inv_start (shallReorder : Bool) : Inv (start shallReorder) := by
  refine ⟨rfl, rfl, rfl, rfl, rfl, fun hpos => absurd hpos (Nat.lt_irrefl 0), fun a ha => ?_,
    fun e => ?_, fun a ha hfin => ?_, fun hne => absurd rfl hne⟩
  · rw [List.mem_singleton.mp ha]
    rfl
  · have hnone : obtained 0 e = 0 := if_neg (Nat.not_lt_zero e)
    change [2, 1, 0].count e + 0 = obtained (0 + 1 + 1 + 1) e
    rw [obtained_succ, obtained_succ, obtained_succ, hnone]
    simp only [List.count_cons, List.count_nil]
    omega
  · rw [List.mem_singleton.mp ha] at hfin
    cases hfin

theorem Inv.step {l : Label} (h : Inv s) (hc : Succeeds s l) (hs : machine.step s l = some t) :
    Inv t := by
  cases l with
  | vendor j ok =>
    obtain ⟨a, ha, hs⟩ := Option.bind_eq_some_iff.mp hs
    refine h.vendor ha (fun hok => ?_) hs
    subst hok
    exact hc j a rfl ha
  | updateHeader j progress =>
    obtain ⟨a, ha, hs⟩ := Option.bind_eq_some_iff.mp hs
    exact h.updateHeader ha hs
  | deliver i =>
    obtain ⟨e, hi, rfl⟩ := Option.map_eq_some_iff.mp hs
    exact h.deliver hi
  | dropTaskBlocker =>
    obtain ⟨e, he, rfl⟩ := Option.map_eq_some_iff.mp hs
    exact h.dropTaskBlocker he

/-! ## The life of a work -/

/-- When everything has returned, nobody holds an event. -/
theorem Inv.held_eq_nil (h : Inv s) (hq : s.Quiescent) (hfrees : s.frees = 1) :
    s.held = [] := by
  obtain ⟨hpending, hblocker, hfin⟩ := hq
  have hdata := h.freed (by omega)
  have hacts : s.acts.flatMap Act.held = [] := by
    refine List.flatMap_eq_nil_iff.mpr fun a ha => ?_
    rw [Act.held, h.guards a ha (hfin a ha)]
    have hpc := hfin a ha
    cases hapc : a.pc with
    | returned _ | done => rfl
    | metaEnqueue _ _ | marker | prevWork _ _ | thisEvent _ | updateHeader | setComplete
    | writeHeader | setError =>
      rw [hapc] at hpc
      cases hpc
  rw [State.held, hdata, hpending, hblocker, hacts]
  rfl

theorem Inv.good (h : Inv s) : Good s := by
  have howners := h.owners
  have hstatus := h.status
  have hdisposals := h.disposals
  have hkernel := h.kernel
  refine ⟨by omega, fun hpos => ?_, by omega, fun e => ?_, by omega, fun hq => ?_⟩
  · exact List.length_eq_zero_iff.mp (by omega)
  · have hev := h.events e
    unfold obtained at hev
    split at hev
    · omega
    · omega
  · have hnone : s.acts.countP (·.pc.owns) = 0 := by
      refine List.countP_eq_zero.mpr fun a ha hown => ?_
      have hfin := hq.2.2 a ha
      rw [not_finished_of_owns hown] at hfin
      cases hfin
    have hfrees : s.frees = 1 := by
      rw [hq.1, hnone] at howners
      simpa using howners
    refine ⟨hfrees, by omega, fun e he => ?_, fun hret => ?_⟩
    · have hev := h.events e
      rw [h.held_eq_nil hq hfrees, obtained, if_pos he] at hev
      simpa using hev
    · -- the only call of `clEnqueueNDRangeKernel` has not failed
      have hfailed : s.acts.countP (·.pc = .returned false) = 0 := by
        refine List.countP_eq_zero.mpr fun c hc hcret => ?_
        obtain ⟨a, ha, hret⟩ := hret
        have hcret : c.pc = .returned false := of_decide_eq_true hcret
        have hca : c = a := h.call_unique ha hc (by rw [hret]; rfl) (by rw [hcret]; rfl)
        rw [hca, hret] at hcret
        cases hcret
      omega

/-- **The life of a launched work**, in every run in which no `clFlush` and no marker fails. -/
theorem lifecycle (s : State) (hs : machine.ReachableBy Succeeds s) : Good s := by
  refine Inv.good (hs.invariant (fun s h0 => ?_) fun s l t hi hc h => hi.step hc h)
  obtain ⟨shallReorder, rfl⟩ := h0
  exact inv_start shallReorder

/-- A slice whose callback finds that the work goes on, up to the next kernel. -/
def firstSlice : List Label :=
  List.replicate 5 (.vendor 0 true) ++ [.deliver 0] ++ List.replicate 9 (.vendor 1 true) ++
    [.updateHeader 1 .yetFinished]

/-- The next kernel cannot be enqueued, and the work ends with an error. -/
theorem lifecycle_enqueue_fails :
    ∃ s, machine.run (start true)
        (firstSlice ++ [.vendor 1 false, .vendor 1 true, .dropTaskBlocker]) = some s ∧
      s.Quiescent ∧ s.statusSet = 1 ∧ s.released.length = s.next ∧ Good s := by
  have h₀ : machine.ReachableBy Succeeds (start true) := .initial ⟨true, rfl⟩
  let s₁ := (machine.run (start true) firstSlice).get (by decide)
  have h₁ : machine.ReachableBy Succeeds s₁ := by
    refine h₀.run (fun l hl u j a heq => ?_) (Option.some_get _).symm
    subst heq
    exact absurd hl (by simp [firstSlice])
  let s₂ := (machine.run s₁ [.vendor 1 false]).get (by decide)
  have h₂ : machine.ReachableBy Succeeds s₂ := by
    refine h₁.step (l := .vendor 1 false) (fun j a heq ha => ?_) (Option.some_get _).symm
    cases heq
    have hpc : s₁.acts[1]?.map Act.pc = some (.metaEnqueue .resumeOrFinish .enqueueKernel) := by
      decide
    rw [ha, Option.map_some, Option.some.injEq] at hpc
    rw [hpc]
    exact ⟨(fun heq => nomatch heq), fun f e heq => nomatch heq⟩
  let s₃ := (machine.run s₂ [.vendor 1 true, .dropTaskBlocker]).get (by decide)
  have h₃ : machine.ReachableBy Succeeds s₃ := by
    refine h₂.run (fun l hl u j a heq => ?_) (Option.some_get _).symm
    subst heq
    exact absurd hl (by simp)
  exact ⟨s₃, by decide, by decide, by decide, by decide, lifecycle s₃ h₃⟩

/-- The `clFlush` of the first slice fails. -/
def firstFlushFails : List Label := List.replicate 3 (.vendor 0 true) ++ [.vendor 0 false]

/-- The `clFlush` of the second slice fails. -/
def secondFlushFails : List Label :=
  firstSlice ++ List.replicate 3 (.vendor 1 true) ++ [.vendor 1 false, .vendor 1 true]

def markerFails : List Label := List.replicate 4 (.vendor 0 true) ++ [.vendor 0 false]

/-- A run frees the data while its callback is still to be delivered. -/
def FreedTooEarly (ls : List Label) : Prop :=
  ∃ s, machine.run (start true) ls = some s ∧ machine.Reachable s ∧ ¬Good s

theorem freedTooEarly_of_run {ls : List Label} (h : (machine.run (start true) ls).any
    (fun s => decide (0 < s.frees ∧ s.pending ≠ [])) = true) : FreedTooEarly ls := by
  cases hrun : machine.run (start true) ls with
  | none =>
    rw [hrun] at h
    cases h
  | some s =>
    rw [hrun] at h
    obtain ⟨hfrees, hpending⟩ := of_decide_eq_true h
    exact ⟨s, hrun, Machine.reachable_of_run ⟨true, rfl⟩ hrun,
      fun hgood => hpending (hgood.pending hfrees)⟩

/-- **The data can be freed while its callback is still to be delivered.** -/
theorem freed_too_early :
    FreedTooEarly firstFlushFails ∧ FreedTooEarly secondFlushFails ∧ FreedTooEarly markerFails :=
  ⟨freedTooEarly_of_run (by decide), freedTooEarly_of_run (by decide),
    freedTooEarly_of_run (by decide)⟩

/-- A work that is not quiescent can go on without one of these failures. -/
theorem exists_step {s : State} (hq : ¬s.Quiescent) :
    ∃ l t, machine.step s l = some t ∧ Succeeds s l := by
  by_cases hpending : s.pending = []
  · cases hblocker : s.taskBlocker with
    | some e =>
      refine ⟨.dropTaskBlocker, { s.release [e] with taskBlocker := none }, ?_, ?_⟩
      · simp only [machine, State.step, hblocker, Option.map_some]
      · intro j a heq
        cases heq
    | none =>
      obtain ⟨a, ha, hfin⟩ : ∃ a ∈ s.acts, a.pc.finished ≠ true := by
        by_contra hall
        push Not at hall
        exact hq ⟨hpending, hblocker, hall⟩
      obtain ⟨j, hj⟩ := List.mem_iff_getElem?.mp ha
      by_cases hpc : a.pc = .updateHeader
      · refine ⟨.updateHeader j .finished, s.goto j { a with pc := .setComplete }, ?_, ?_⟩
        · simp only [machine, State.step, hj, Option.bind_some, State.updateHeader, if_pos hpc]
        · intro j a heq
          cases heq
      · obtain ⟨t, ht⟩ : ∃ t, s.vendor j a true = some t := by
          unfold State.vendor
          cases hapc : a.pc with
          | returned _ | done =>
            rw [hapc] at hfin
            exact absurd rfl hfin
          | updateHeader => exact absurd hapc hpc
          | thisEvent q =>
            cases q with
            | status | profilingStart | profilingEnd => exact ⟨_, rfl⟩
          | metaEnqueue _ _ | marker | prevWork _ _ | setComplete | writeHeader | setError =>
            exact ⟨_, rfl⟩
        refine ⟨.vendor j true, t, ?_, ?_⟩
        · simp only [machine, State.step, hj, Option.bind_some, ht]
        · intro j a heq
          cases heq
  · obtain ⟨e, es, hcons⟩ := List.exists_cons_of_ne_nil hpending
    refine ⟨.deliver 0, { s with
      pending := s.pending.eraseIdx 0,
      acts := s.acts ++ [⟨.prevWork .one .status, some e⟩] }, ?_, ?_⟩
    · simp only [machine, State.step, hcons, List.getElem?_cons_zero, Option.map_some]
    · intro j a heq
      cases heq

end Lifecycle
end Clpkm
