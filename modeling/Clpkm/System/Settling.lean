import Clpkm.System.Agreement
import Clpkm.System.Quiet

/-!
# The system settles

Every step of the system left to itself makes its rank smaller (`fullRank_quiet_lt`), so every
such run ends.  It ends at rest (`atRest_iff`): a worker that waits for an answer gets it, a
client that waits for the configuration gets it, no signal stays unread, and a thread that was
woken up has tested its bit.  Together with `settled_agree` nobody waits for a task that has ended
longer than that.
-/

namespace Clpkm
namespace System

variable {cfg : GblConfig} {s t : State} {name : String}

/-! ## Every step counts -/

theorem inboxRank_send (all : Nat) (d : RunLevel.State) (m : RunLevel.ToDaemon) :
    inboxRank all { d with inbox := d.inbox ++ [m] } < inboxRank all d + messageRank all := by
  simp only [inboxRank, messageRank, List.length_append, List.length_singleton, Nat.mul_add]
  cases d.loop with
  | processing =>
    simp only
    omega
  | waiting =>
    simp only
    split <;> split <;> omega

/-- A sum in which all terms but one do not grow. -/
theorem sum_le_of_others {ι : Type} [DecidableEq ι] {S : Finset ι} {f g : ι → Nat} {i : ι}
    (hi : i ∈ S) (h : ∀ j, j ≠ i → g j ≤ f j) :
    ∑ j ∈ S, g j + f i ≤ ∑ j ∈ S, f j + g i := by
  rw [← Finset.add_sum_erase S g hi, ← Finset.add_sum_erase S f hi]
  have hle : ∑ j ∈ S.erase i, g j ≤ ∑ j ∈ S.erase i, f j :=
    Finset.sum_le_sum fun j hj => h j (Finset.ne_of_mem_erase hj)
  omega

section Rank
variable {N : Finset String} {C : Finset Nat}

/-- A connected process that moves. -/
theorem sum_setHigh_le (h : Within N C s) (hc : (s.high name).conn = .connected) (p : HighProc)
    (message : Nat) :
    ∑ n ∈ N, (Function.update s.high name p n).rank message + (s.high name).rank message ≤
      ∑ n ∈ N, (s.high n).rank message + p.rank message := by
  have hle := sum_le_of_others (f := fun n => (s.high n).rank message)
    (g := fun n => (Function.update s.high name p n).rank message) (h.high name hc)
    (fun n hn => by rw [Function.update_of_ne hn])
  rw [Function.update_self] at hle
  exact hle

/-- A client that moves with its worker. -/
theorem sum_client_le {c : Nat} (hc : c ∈ C) {x : RunLevel.Client} {q : LowPrioWorker.State} :
    ∑ i ∈ C, clientRank (Function.update s.daemon.client c x i)
        (Function.update s.low c q i).worker + clientRank (s.daemon.client c) (s.low c).worker ≤
      ∑ i ∈ C, clientRank (s.daemon.client i) (s.low i).worker + clientRank x q.worker := by
  have hle := sum_le_of_others (f := fun i => clientRank (s.daemon.client i) (s.low i).worker)
    (g := fun i => clientRank (Function.update s.daemon.client c x i)
      (Function.update s.low c q i).worker) hc
    (fun i hi => by rw [Function.update_of_ne hi, Function.update_of_ne hi])
  rw [Function.update_self, Function.update_self] at hle
  exact hle


/-- A connected process moves. -/
theorem rank_setHigh_lt (h : Within N C s) (hc : (s.high name).conn = .connected) {p : HighProc}
    (hp : p.rank (messageRank (signalRank * C.card)) <
      (s.high name).rank (messageRank (signalRank * C.card))) :
    rank N C (s.setHigh name p) < rank N C s := by
  have hsum := sum_setHigh_le h hc p (messageRank (signalRank * C.card))
  simp only [rank, State.setHigh]
  omega

/-- A connected process moves and sends a message, which was worth it. -/
theorem rank_setHigh_send_lt (h : Within N C s) (hc : (s.high name).conn = .connected)
    {p : HighProc} {m : DaemonMsg}
    (hp : p.rank (messageRank (signalRank * C.card)) + messageRank (signalRank * C.card) ≤
      (s.high name).rank (messageRank (signalRank * C.card))) :
    rank N C ((s.setHigh name p).send m) < rank N C s := by
  have hsum := sum_setHigh_le h hc p (messageRank (signalRank * C.card))
  have hinbox := inboxRank_send (signalRank * C.card) s.daemon (.task m)
  simp only [rank, State.setHigh, State.send]
  omega

/-- A step inside a high-priority process. -/
theorem rank_high_lt (h : Within N C s) {l : HighPrioWorker.Label}
    (hown : own s (.high name l) = true) (hs : step cfg s (.high name l) = some t) :
    rank N C t < rank N C s := by
  simp only [step, Option.ite_none_right_eq_some, Option.map_eq_some_iff] at hs
  obtain ⟨⟨hc, _⟩, q, hq, rfl⟩ := hs
  refine rank_setHigh_lt h hc ?_
  simp only [HighProc.rank, hc, if_true]
  cases l with
  | advance nanoSec =>
    cases hq
    exact rank_advance rfl rfl rfl hown
  | expire k =>
    simp only [HighPrioWorker.step] at hq
    split at hq
    · rename_i deadline ht
      simp only [Option.ite_none_right_eq_some, Option.some.injEq] at hq
      obtain ⟨hdue, rfl⟩ := hq
      exact rank_expire ht hdue rfl rfl rfl
    · cases hq
  | poll =>
    simp only [HighPrioWorker.step] at hq
    split at hq
    · rename_i hw
      simp only [Option.ite_none_right_eq_some, Option.some.injEq] at hq
      obtain ⟨hpoll, rfl⟩ := hq
      exact rank_poll hw hpoll rfl rfl rfl
    · cases hq
  | scan =>
    simp only [HighPrioWorker.step] at hq
    split at hq
    · rename_i revents hw
      cases hq
      exact rank_scan hw
    · cases hq
  | schedStart k => cases hown
  | schedEnd k => cases hown
  | terminate => cases hown
  | report => cases hown

/-- An answer of the daemon leaves its process less to do. -/
theorem rank_answer_le (m : RunLevel.ToDaemon) (message : Nat) (n : String) :
    (s.answer m n).rank message ≤ (s.high n).rank message := by
  unfold State.answer
  split
  · rename_i sender bitmap
    split
    · rename_i hcall
      by_cases hn : n = sender
      · subst hn
        simp only [Function.update_self, HighProc.rank, workerRank, hcall]
        split
        · split <;> omega
        · exact Nat.le_refl _
      · rw [Function.update_of_ne hn]
    · exact Nat.le_refl _
  · exact Nat.le_refl _

/-- The daemon handles a message. -/
theorem rank_process_lt (hs : step cfg s .process = some t) : rank N C t < rank N C s := by
  simp only [step] at hs
  split at hs
  · rename_i m rest hin
    obtain ⟨d, hd, rfl⟩ := Option.map_eq_some_iff.mp hs
    simp only [RunLevel.step] at hd
    split at hd
    · rename_i m' rest' hloop hin'
      rw [hin] at hin'
      cases hin'
      have hd' := Option.some.inj hd
      have hhigh : ∑ n ∈ N, (s.answer m n).rank (messageRank (signalRank * C.card)) ≤
          ∑ n ∈ N, (s.high n).rank (messageRank (signalRank * C.card)) :=
        Finset.sum_le_sum fun n _ => rank_answer_le m _ n
      have hinbox : inboxRank (signalRank * C.card) d + signalRank <
          inboxRank (signalRank * C.card) s.daemon := by
        rw [← hd']
        cases m with
        | task m =>
          simp only [inboxRank, RunLevel.processMsg, hloop, hin, List.length_cons, Nat.mul_add]
          omega
        | getConfig c =>
          simp only [inboxRank, RunLevel.processMsg, hloop, hin, List.length_cons, Nat.mul_add]
          omega
      have hclient : ∑ c ∈ C, clientRank (d.client c) (s.low c).worker ≤
          ∑ c ∈ C, clientRank (s.daemon.client c) (s.low c).worker + signalRank := by
        rw [← hd']
        cases m with
        | task m => exact Nat.le_add_right _ _
        | getConfig c =>
          simp only [RunLevel.processMsg]
          by_cases hc : c ∈ C
          · have hle := sum_le_of_others
              (f := fun i => clientRank (s.daemon.client i) (s.low i).worker)
              (g := fun i => clientRank (Function.update s.daemon.client c
                ((s.daemon.client c).deliver (.configReply (s.daemon.task.getConfig cfg))) i)
                  (s.low i).worker) hc (fun i hi => by rw [Function.update_of_ne hi])
            have hdeliver := clientRank_deliver (w := (s.low c).worker) (s.daemon.client c)
              (.configReply (s.daemon.task.getConfig cfg))
            simp only [Function.update_self] at hle
            omega
          · refine Nat.le_add_right_of_le (Finset.sum_le_sum fun i hi => ?_)
            rw [Function.update_of_ne (fun he : i = c => hc (he ▸ hi))]
      simp only [rank]
      omega
    · cases hd
  · cases hs

/-- The daemon ends a batch. -/
theorem rank_idle_lt (hs : step cfg s .idle = some t) : rank N C t < rank N C s := by
  obtain ⟨d, hd, rfl⟩ := Option.map_eq_some_iff.mp hs
  simp only [RunLevel.step, Option.ite_none_right_eq_some, Option.some.injEq] at hd
  obtain ⟨⟨hloop, hin⟩, rfl⟩ := hd
  have hinbox : inboxRank (signalRank * C.card) (RunLevel.endBatch s.daemon) +
      signalRank * C.card < inboxRank (signalRank * C.card) s.daemon := by
    have hend : (RunLevel.endBatch s.daemon).inbox = [] ∧
        (RunLevel.endBatch s.daemon).loop = .waiting := by
      unfold RunLevel.endBatch
      simp only
      split <;> exact ⟨hin, rfl⟩
    simp only [inboxRank, hend, hin, hloop, List.length_nil, if_true]
    omega
  have hclient : ∑ c ∈ C, clientRank ((RunLevel.endBatch s.daemon).client c) (s.low c).worker ≤
      ∑ c ∈ C, clientRank (s.daemon.client c) (s.low c).worker + signalRank * C.card := by
    have hle : ∀ c ∈ C, clientRank ((RunLevel.endBatch s.daemon).client c) (s.low c).worker ≤
        clientRank (s.daemon.client c) (s.low c).worker + signalRank := by
      intro c _
      unfold RunLevel.endBatch
      simp only
      split
      · exact clientRank_signal _ _
      · exact Nat.le_add_right _ _
    refine (Finset.sum_le_sum hle).trans (Nat.le_of_eq ?_)
    rw [Finset.sum_add_distrib, Finset.sum_const_nat (fun _ _ => rfl), Nat.mul_comm]
  simp only [rank]
  omega

/-- A low-priority process handles a message. -/
theorem rank_receive_lt (h : Within N C s) {c : Nat} (hs : receive cfg s c = some t) :
    rank N C t < rank N C s := by
  obtain ⟨d, hd, hs⟩ := Option.bind_eq_some_iff.mp hs
  simp only [RunLevel.step, Option.map_eq_some_iff] at hd
  obtain ⟨x, hx, rfl⟩ := hd
  have hphase : (s.daemon.client c).phase = .calling ∨ (s.daemon.client c).phase = .running := by
    unfold RunLevel.Client.receive at hx
    split at hx
    · cases hx
    · cases hx
    · exact .inl ‹_›
    · exact .inr ‹_›
  have hc : c ∈ C := h.client c (by rcases hphase with hp | hp <;> rw [hp] <;> decide)
  -- what the step leaves of the sum, by the worker it leaves behind
  have hsum : ∀ q : LowPrioWorker.State,
      clientRank x q.worker < clientRank (s.daemon.client c) (s.low c).worker →
      rank N C { s with
        daemon := { s.daemon with client := Function.update s.daemon.client c x }
        low := Function.update s.low c q } < rank N C s := by
    intro q hq
    have hle := sum_client_le (s := s) hc (x := x) (q := q)
    simp only [rank, inboxRank]
    omega
  rcases hphase with hp | hp
  · have hlt := clientRank_receive_calling (w := (s.low c).worker) hp hx
    split at hs
    · rename_i hrun
      cases hp.symm.trans hrun
    · cases hs
      exact hsum _ hlt
    · rename_i hne
      cases hs
      simp only [Function.update_self] at hne
      have hsame := hsum (s.low c) ?_
      · rw [Function.update_eq_self] at hsame
        exact hsame
      · simp only [clientRank, if_neg hne] at hlt ⊢
        exact hlt
  · obtain ⟨hrun, hlt⟩ := clientRank_receive_running hp hx
    split at hs
    · obtain ⟨q, hq, rfl⟩ := Option.map_eq_some_iff.mp hs
      simp only [LowPrioWorker.step, Option.ite_none_right_eq_some, Option.some.injEq] at hq
      obtain ⟨hw, rfl⟩ := hq
      refine hsum _ ?_
      simp only [hw]
      exact hlt
    · rename_i hne
      exact absurd hp hne
    · rename_i hne
      simp only [Function.update_self] at hne
      exact absurd hrun hne

/-- A step of the worker of a low-priority process. -/
theorem rank_low_lt (h : Within N C s) {c : Nat} {l : LowPrioWorker.Label}
    (hl : ∀ i, l ≠ .resume i) (hown : own s (.low c l) = true)
    (hs : step cfg s (.low c l) = some t) : rank N C t < rank N C s := by
  simp only [step, Option.ite_none_right_eq_some, Option.map_eq_some_iff] at hs
  obtain ⟨⟨hrun, _⟩, q, hq, rfl⟩ := hs
  have hc : c ∈ C := h.client c (by rw [hrun]; decide)
  have hlt : lowRank (s.daemon.client c).Drained q.worker <
      lowRank (s.daemon.client c).Drained (s.low c).worker := by
    refine lowRank_lt hq ?_
    cases l with
    | lock => exact .inl rfl
    | notify => exact .inr (.inl rfl)
    | idle => exact .inr (.inr (.inl ⟨rfl, of_decide_eq_true hown⟩))
    | poll term =>
      simp only [own, Bool.and_eq_true, Bool.not_eq_true', decide_eq_false_iff_not] at hown
      obtain ⟨rfl, hd⟩ := hown
      exact .inr (.inr (.inr ⟨rfl, hd⟩))
    | schedStart i k => cases hown
    | spurious i => cases hown
    | resume i => exact absurd rfl (hl i)
    | process runLevel => cases hown
  have hle := sum_client_le (s := s) hc (x := s.daemon.client c) (q := q)
  rw [Function.update_eq_self] at hle
  simp only [rank, clientRank, hrun, if_true] at hle ⊢
  omega

/-- A step of the system left to itself makes the rank smaller, unless a thread moves. -/
theorem rank_lt (h : Within N C s) {l : Label} (hl : ∀ c i, l ≠ .low c (.resume i))
    (hown : own s l = true) (hs : step cfg s l = some t) : rank N C t < rank N C s := by
  cases l with
  | high name l => exact rank_high_lt h hown hs
  | low c l => exact rank_low_lt h (fun i he => hl c i (he ▸ rfl)) hown hs
  | process => exact rank_process_lt hs
  | idle => exact rank_idle_lt hs
  | receive c => exact rank_receive_lt h hs
  | wake =>
    obtain ⟨d, hd, rfl⟩ := Option.map_eq_some_iff.mp hs
    simp only [RunLevel.step, Option.ite_none_right_eq_some, Option.some.injEq] at hd
    obtain ⟨hloop, rfl⟩ := hd
    simp only [own, Bool.not_eq_true', List.isEmpty_eq_false_iff] at hown
    simp only [rank, inboxRank, hloop, if_neg hown]
    omega
  | call name =>
    simp only [step] at hs
    split at hs
    · rename_i map hw
      simp only [Option.ite_none_right_eq_some, Option.some.injEq] at hs
      obtain ⟨⟨hc, hcall⟩, rfl⟩ := hs
      refine rank_setHigh_send_lt h hc ?_
      simp only [HighProc.rank, hc, hcall, workerRank, hw, if_true]
      omega
    · cases hs
  | callReturn name =>
    simp only [step, Option.ite_none_right_eq_some, Option.map_eq_some_iff] at hs
    obtain ⟨⟨hc, hcall⟩, q, hq, rfl⟩ := hs
    refine rank_setHigh_lt h hc ?_
    simp only [HighPrioWorker.step] at hq
    split at hq
    · rename_i map hw
      cases hq
      simp only [HighProc.rank, timersRank, hc, hcall, workerRank, hw, if_true]
      omega
    · cases hq
  | disconnect name =>
    simp only [step, Option.ite_none_right_eq_some, Option.some.injEq] at hs
    obtain ⟨hc, rfl⟩ := hs
    refine rank_setHigh_send_lt h hc ?_
    simp only [own, stopped] at hown
    split at hown
    · rename_i hw
      simp only [HighProc.rank, hc, workerRank, hw, if_true, reduceCtorEq, if_false]
      omega
    · cases hown
  | connect name => cases hown
  | nameOwnerChanged name oldOwner newOwner => cases hown
  | addMatch c => cases hown
  | callGetConfig c => cases hown

/-! ## Threads that were woken up -/

/-- A thread tests its bit again and leaves everything else alone. -/
theorem resume_of_step {c i : Nat} (hs : step cfg s (.low c (.resume i)) = some t) :
    (s.daemon.client c).phase = .running ∧ ∃ k, (s.low c).thread i = .notified k ∧
      t = { s with low := Function.update s.low c (LowPrioWorker.test (s.low c) i k) } := by
  simp only [step, Option.ite_none_right_eq_some, Option.map_eq_some_iff] at hs
  obtain ⟨⟨hrun, _⟩, q, hq, rfl⟩ := hs
  simp only [LowPrioWorker.step] at hq
  split at hq
  · rename_i k hi
    simp only [Option.ite_none_right_eq_some, Option.some.injEq] at hq
    obtain ⟨_, rfl⟩ := hq
    exact ⟨hrun, k, hi, rfl⟩
  · cases hq

/-- The test of a thread leaves it blocked or lets it return. -/
theorem woken_test (p : LowPrioWorker.State) (i j : Nat) (k : TaskKind) :
    woken ((LowPrioWorker.test p i k).thread j) = (woken (p.thread j) && decide (j ≠ i)) := by
  by_cases hj : j = i
  · subst hj
    simp only [LowPrioWorker.test, Function.update_self, ne_eq, not_true_eq_false, decide_false,
      Bool.and_false]
    split <;> rfl
  · simp only [LowPrioWorker.test, Function.update_of_ne hj, ne_eq, hj, not_false_eq_true,
      decide_true, Bool.and_true]

/-- One thread less that was woken up. -/
theorem wokenThreads_resume_lt {F : Finset Nat} {c i : Nat} {k : TaskKind} (hc : c ∈ C)
    (hF : i ∈ F) (hi : (s.low c).thread i = .notified k) :
    wokenThreads C F { s with low := Function.update s.low c (LowPrioWorker.test (s.low c) i k) } <
      wokenThreads C F s := by
  -- the woken threads of a client are among those from before
  have hsub : ∀ c', (F.filter fun j => woken ((Function.update s.low c
      (LowPrioWorker.test (s.low c) i k) c').thread j)) ⊆
        F.filter fun j => woken ((s.low c').thread j) := by
    intro c' j hj
    obtain ⟨hmem, hwoken⟩ := Finset.mem_filter.mp hj
    refine Finset.mem_filter.mpr ⟨hmem, ?_⟩
    by_cases hcc : c' = c
    · subst hcc
      rw [Function.update_self, woken_test, Bool.and_eq_true] at hwoken
      exact hwoken.1
    · rw [Function.update_of_ne hcc] at hwoken
      exact hwoken
  refine Finset.sum_lt_sum (fun c' _ => Finset.card_le_card (hsub c')) ⟨c, hc, ?_⟩
  refine Finset.card_lt_card ((Finset.ssubset_iff_of_subset (hsub c)).mpr ⟨i, ?_, ?_⟩)
  · exact Finset.mem_filter.mpr ⟨hF, by rw [hi]; rfl⟩
  · intro hmem
    have hwoken := (Finset.mem_filter.mp hmem).2
    rw [Function.update_self, woken_test] at hwoken
    simp at hwoken

/-- A thread counts by itself only. -/
theorem rank_resume {c i : Nat} {k : TaskKind} :
    rank N C { s with low := Function.update s.low c (LowPrioWorker.test (s.low c) i k) } =
      rank N C s := by
  have hworker : ∀ c', (Function.update s.low c (LowPrioWorker.test (s.low c) i k) c').worker =
      (s.low c').worker := by
    intro c'
    by_cases hc : c' = c
    · subst hc
      rw [Function.update_self]
      rfl
    · rw [Function.update_of_ne hc]
  simp only [rank, hworker]

/-- The threads that have ever called `SchedStart`. -/
def Threads (F : Finset Nat) (s : State) : Prop :=
  ∀ c i, (s.low c).thread i ≠ .idle → i ∈ F

/-- **Step.**  A step of the system left to itself makes its rank smaller. -/
theorem fullRank_quiet_lt {F : Finset Nat} (h : Within N C s) (hF : Threads F s) {l : Label}
    (hs : (quiet cfg).step s l = some t) : fullRank N C F t < fullRank N C F s := by
  simp only [quiet, Option.ite_none_right_eq_some] at hs
  obtain ⟨hown, hs⟩ := hs
  by_cases hl : ∃ c i, l = .low c (.resume i)
  · obtain ⟨c, i, rfl⟩ := hl
    obtain ⟨hrun, k, hi, rfl⟩ := resume_of_step hs
    have hc : c ∈ C := h.client c (by rw [hrun]; decide)
    have hlt := wokenThreads_resume_lt hc (hF c i (by rw [hi]; exact fun h => by cases h)) hi
    unfold fullRank
    rw [rank_resume]
    omega
  · exact fullRank_lt (rank_lt h (fun c i he => hl ⟨c, i, he⟩) hown hs)

end Rank

/-! ## Whoever takes part -/

/-- Only `SchedStart` makes a thread one that waits or has waited. -/
theorem thread_of_step {l : Label} (h : step cfg s l = some t) {c i : Nat}
    (hi : (t.low c).thread i ≠ .idle) :
    (s.low c).thread i ≠ .idle ∨ ∃ k, l = .low c (.schedStart i k) := by
  -- another process stays as it is
  have hupdate : ∀ (c' : Nat) (q : LowPrioWorker.State),
      (Function.update s.low c' q c).thread i ≠ .idle →
      c = c' ∧ q.thread i ≠ .idle ∨ (s.low c).thread i ≠ .idle := by
    intro c' q hq
    by_cases hc : c = c'
    · subst hc
      rw [Function.update_self] at hq
      exact .inl ⟨rfl, hq⟩
    · rw [Function.update_of_ne hc] at hq
      exact .inr hq
  cases l with
  | low c' l =>
    simp only [step, Option.ite_none_right_eq_some, Option.map_eq_some_iff] at h
    obtain ⟨_, q, hq, rfl⟩ := h
    rcases hupdate c' q hi with ⟨rfl, hne⟩ | hne
    · rcases LowPrioWorker.thread_of_step hq hne with hbefore | ⟨k, rfl⟩
      · exact .inl hbefore
      · exact .inr ⟨k, rfl⟩
    · exact .inl hne
  | receive c' =>
    obtain ⟨d, _, h⟩ := Option.bind_eq_some_iff.mp h
    split at h
    · obtain ⟨q, hq, rfl⟩ := Option.map_eq_some_iff.mp h
      rcases hupdate c' q hi with ⟨rfl, hne⟩ | hne
      · refine .inl ((LowPrioWorker.thread_of_step hq hne).resolve_right ?_)
        rintro ⟨k, hk⟩
        cases hk
      · exact .inl hne
    · cases h
      rcases hupdate c' _ hi with ⟨_, hne⟩ | hne
      · exact absurd rfl hne
      · exact .inl hne
    · cases h
      exact .inl hi
  | connect name =>
    simp only [step, Option.ite_none_right_eq_some, Option.some.injEq] at h
    obtain ⟨_, rfl⟩ := h
    exact .inl hi
  | disconnect name =>
    simp only [step, Option.ite_none_right_eq_some, Option.some.injEq] at h
    obtain ⟨_, rfl⟩ := h
    exact .inl hi
  | nameOwnerChanged name oldOwner newOwner =>
    simp only [step, Option.ite_none_left_eq_some, Option.some.injEq] at h
    obtain ⟨_, rfl⟩ := h
    exact .inl hi
  | high name l =>
    simp only [step, Option.ite_none_right_eq_some, Option.map_eq_some_iff] at h
    obtain ⟨_, p, _, rfl⟩ := h
    exact .inl hi
  | call name =>
    simp only [step] at h
    split at h
    · simp only [Option.ite_none_right_eq_some, Option.some.injEq] at h
      obtain ⟨_, rfl⟩ := h
      exact .inl hi
    · cases h
  | callReturn name =>
    simp only [step, Option.ite_none_right_eq_some, Option.map_eq_some_iff] at h
    obtain ⟨_, p, _, rfl⟩ := h
    exact .inl hi
  | process =>
    simp only [step] at h
    split at h
    · obtain ⟨d, _, rfl⟩ := Option.map_eq_some_iff.mp h
      exact .inl hi
    · cases h
  | idle =>
    obtain ⟨d, _, rfl⟩ := Option.map_eq_some_iff.mp h
    exact .inl hi
  | wake =>
    obtain ⟨d, _, rfl⟩ := Option.map_eq_some_iff.mp h
    exact .inl hi
  | addMatch c' =>
    obtain ⟨d, _, rfl⟩ := Option.map_eq_some_iff.mp h
    exact .inl hi
  | callGetConfig c' =>
    obtain ⟨d, _, rfl⟩ := Option.map_eq_some_iff.mp h
    exact .inl hi

/-- In a reachable state finitely many threads have called `SchedStart`. -/
theorem Threads.exists_of_reachable (hs : (machine cfg).Reachable s) : ∃ F, Threads F s := by
  refine hs.invariant (I := fun s => ∃ F, Threads F s) (fun s h => ?_)
    (fun s l t h (hstep : step cfg s l = some t) => ?_)
  · rw [show s = State.init from h]
    exact ⟨∅, fun c i hi => absurd rfl hi⟩
  · obtain ⟨F, hF⟩ := h
    by_cases hl : ∃ c i k, l = .low c (.schedStart i k)
    · obtain ⟨c, i, k, rfl⟩ := hl
      refine ⟨insert i F, fun c' j hj => ?_⟩
      rcases thread_of_step hstep hj with hbefore | ⟨k', he⟩
      · exact Finset.mem_insert_of_mem (hF c' j hbefore)
      · cases he
        exact Finset.mem_insert_self _ _
    · refine ⟨F, fun c' j hj => ?_⟩
      rcases thread_of_step hstep hj with hbefore | ⟨k', he⟩
      · exact hF c' j hbefore
      · exact absurd ⟨c', j, k', he⟩ hl

/-- What the system left to itself keeps, whatever answers are stale. -/
structure Orderly (N : Finset String) (C F : Finset Nat) (s : State) : Prop where
  within : Within N C s
  threads : Threads F s
  account : Account s
  clients : Clients s
  ok : RunLevel.ClientsOk s.daemon

theorem Orderly.exists_of_reachableBy (hs : (machine cfg).ReachableBy Regular s) :
    ∃ N C F, Orderly N C F s := by
  obtain ⟨N, C, hwithin⟩ := Within.exists_of_reachable hs.reachable
  obtain ⟨F, hF⟩ := Threads.exists_of_reachable hs.reachable
  exact ⟨N, C, F, hwithin, hF, account_of_reachableBy hs, clients_of_reachableBy hs,
    (RunLevel.inv_of_reachableBy (daemon_reachable hs)).ok⟩

theorem Orderly.quiet_step {N : Finset String} {C F : Finset Nat} (h : Orderly N C F s) {l : Label}
    (hs : (quiet cfg).step s l = some t) : Orderly N C F t := by
  have hs' := hs
  simp only [quiet, Option.ite_none_right_eq_some] at hs'
  obtain ⟨hown, hs'⟩ := hs'
  refine ⟨h.within.quiet_step hs, fun c i hi => ?_, h.account.step (fun name k hl => ?_) hs',
    h.clients.step hs', ?_⟩
  · rcases thread_of_step hs' hi with hbefore | ⟨k, rfl⟩
    · exact h.threads c i hbefore
    · cases hown
  · rw [hl] at hown
    cases hown
  · rcases daemon_of_step hs' with hd | ⟨l', _, _, hd⟩
    · rw [hd]
      exact h.ok
    · exact h.ok.step hd

/-! ## Where it ends -/

/-- The system is settled, a thread that was woken up has tested its bit, and whoever still waits
finds it set. -/
structure AtRest (s : State) : Prop extends Settled s where
  woken : ∀ c, (s.daemon.client c).phase = .running → ∀ i k, (s.low c).thread i ≠ .notified k
  blocked : ∀ c, (s.daemon.client c).phase = .running → ∀ i k, (s.low c).thread i = .blocked k →
    (s.low c).bitmap.getLsbD k.val = true

/-- A client that waits for its answer, or has not handled everything, has a message to
handle. -/
theorem exists_receive {c : RunLevel.Client} {bitmap : TaskBitmap} (h : c.Ok bitmap 0)
    (hc : c.phase = .calling ∨ c.phase = .running ∧ ¬ c.Drained) : ∃ c', c.receive = some c' := by
  have hget : c.taken < c.sent.length → ∃ m, c.sent[c.taken]? = some m :=
    fun hlt => ⟨_, List.getElem?_eq_getElem hlt⟩
  rcases hc with hp | ⟨hp, hd⟩
  · obtain ⟨hone, hnone, _⟩ := h.calling hp
    have hlt : c.taken < c.sent.length := by
      by_contra hge
      rw [List.take_of_length_le (Nat.not_lt.mp hge)] at hnone
      rw [hnone] at hone
      cases hone
    obtain ⟨m, hm⟩ := hget hlt
    simp only [RunLevel.Client.receive, hp, hm]
    cases m with
    | runLevelChanged b => exact ⟨_, rfl⟩
    | configReply r => exact ⟨_, rfl⟩
  · cases hq : c.rqueue with
    | cons b rest => exact ⟨_, by simp only [RunLevel.Client.receive, hp, hq]; rfl⟩
    | nil =>
      have hlt : c.taken < c.sent.length :=
        Nat.lt_of_le_of_ne h.taken_le (fun he => hd ⟨he, hq⟩)
      obtain ⟨m, hm⟩ := hget hlt
      simp only [RunLevel.Client.receive, hp, hq, hm]
      cases m with
      | runLevelChanged b => exact ⟨_, rfl⟩
      | configReply r => exact ⟨_, rfl⟩

section Progress
variable (hstuck : ¬ (quiet cfg).Enabled s)
include hstuck

theorem step_eq_none {l : Label} (hown : own s l = true) : step cfg s l = none := by
  cases ht : step cfg s l with
  | none => rfl
  | some t =>
    refine absurd ⟨l, t, ?_⟩ hstuck
    simp only [quiet, hown, if_true]
    exact ht

/-- The daemon waits and has no input. -/
theorem daemon_of_stuck : s.daemon.inbox = [] ∧ s.daemon.loop = .waiting := by
  have hin : s.daemon.inbox = [] := by
    cases hin : s.daemon.inbox with
    | nil => rfl
    | cons m rest =>
      cases hloop : s.daemon.loop with
      | processing =>
        have hnone := step_eq_none hstuck (l := .process) rfl
        simp only [step, hin, RunLevel.step, hloop, Option.map_some] at hnone
        cases hnone
      | waiting =>
        have hnone := step_eq_none hstuck (l := .wake) (by simp only [own, hin]; rfl)
        simp only [step, RunLevel.step, hloop, if_true, Option.map_some] at hnone
        cases hnone
  refine ⟨hin, ?_⟩
  cases hloop : s.daemon.loop with
  | waiting => rfl
  | processing =>
    have hnone := step_eq_none hstuck (l := .idle) rfl
    simp only [step, RunLevel.step, hloop, hin, and_self, if_true, Option.map_some] at hnone
    cases hnone

/-- Every timer of a process whose worker polls is disarmed. -/
theorem timer_of_stuck (hc : (s.high name).conn = .connected)
    (hw : (s.high name).proc.worker = .polling) (k : TaskKind) :
    (s.high name).proc.timer k = .disarmed := by
  cases ht : (s.high name).proc.timer k with
  | disarmed => rfl
  | expired =>
    have hany : TaskKind.all.any (HighPrioWorker.pollIn (s.high name).proc) = true :=
      List.any_eq_true.mpr ⟨k, k.mem_all, by simp [HighPrioWorker.pollIn, ht]⟩
    have hnone := step_eq_none hstuck (l := .high name .poll) rfl
    simp only [step, hc, HighPrioWorker.step, hw, hany, if_true, Option.map_some, ne_eq,
      reduceCtorEq, not_false_eq_true, and_self] at hnone
  | armed deadline =>
    by_cases hdue : deadline ≤ (s.high name).proc.clock
    · have hnone := step_eq_none hstuck (l := .high name (.expire k)) rfl
      simp only [step, hc, HighPrioWorker.step, ht, hdue, if_true, Option.map_some, ne_eq,
        reduceCtorEq, not_false_eq_true, and_self] at hnone
    · have hany : TaskKind.all.any (comesDue (s.high name).proc deadline) = true := by
        refine List.any_eq_true.mpr ⟨k, k.mem_all, ?_⟩
        simp only [comesDue, ht, Bool.and_eq_true, decide_eq_true_eq]
        omega
      have hnone := step_eq_none hstuck (l := .high name (.advance deadline)) hany
      simp only [step, hc, HighPrioWorker.step, if_true, Option.map_some, ne_eq,
        reduceCtorEq, not_false_eq_true, and_self] at hnone

/-- A connected process has said everything. -/
theorem high_of_stuck (h : Account s) (hc : (s.high name).conn = .connected) :
    (s.high name).proc.worker = .polling ∧ ∀ k, (s.high name).proc.timer k = .disarmed := by
  obtain ⟨hin, _⟩ := daemon_of_stuck hstuck
  have hok := h.high name
  cases hw : (s.high name).proc.worker with
  | polling => exact ⟨rfl, timer_of_stuck hstuck hc hw⟩
  | polled revents =>
    have hnone := step_eq_none hstuck (l := .high name .scan) rfl
    simp only [step, hc, HighPrioWorker.step, hw, if_true, Option.map_some, ne_eq,
      reduceCtorEq, not_false_eq_true, and_self] at hnone
  | stopped =>
    have hnone := step_eq_none hstuck (l := .disconnect name) (by simp only [own, stopped, hw])
    simp only [step, hc, if_true, reduceCtorEq] at hnone
  | reporting map =>
    cases hcall : (s.high name).call with
    | idle =>
      have hnone := step_eq_none hstuck (l := .call name) rfl
      simp only [step, hc, hw, hcall, and_self, if_true, reduceCtorEq] at hnone
    | sent =>
      -- its call is in the input of the daemon
      have hcalls := hok.calls (by rw [hc]; decide)
      rw [hin, if_pos hcall] at hcalls
      cases hcalls
    | replied isGranted =>
      cases isGranted with
      | false => exact absurd hcall hok.granted
      | true =>
        have hnone := step_eq_none hstuck (l := .callReturn name) rfl
        simp only [step, hc, HighPrioWorker.step, hw, hcall, and_self, if_true, Option.map_some,
          reduceCtorEq] at hnone

/-- A client handles a message if it has one. -/
theorem receive_of_stuck {c : Nat} {x : RunLevel.Client}
    (hx : (s.daemon.client c).receive = some x)
    (hc : (s.daemon.client c).phase = .calling ∨
      (s.daemon.client c).phase = .running ∧ (s.low c).worker = .processing) : False := by
  have hnone := step_eq_none hstuck (l := .receive c) rfl
  simp only [step, receive, RunLevel.step, hx, Option.map_some, Option.bind_some,
    Function.update_self] at hnone
  rcases hc with hp | ⟨hp, hw⟩
  · simp only [hp] at hnone
    split at hnone
    · rename_i hrun
      cases hrun
    · cases hnone
    · cases hnone
  · simp only [hp, LowPrioWorker.step, hw, if_true, Option.map_some, reduceCtorEq] at hnone

/-- A low-priority process has handled everything. -/
theorem low_of_stuck {c : Nat} {bitmap : TaskBitmap} (h : (s.daemon.client c).Ok bitmap 0)
    (hrun : (s.daemon.client c).phase = .running) :
    (s.low c).worker = .stopped ∨ (s.daemon.client c).Drained ∧ (s.low c).worker = .polling := by
  -- a step of the worker that is its own and enabled is a contradiction
  have hno : ∀ l, own s (.low c l) = true → isSignal l = false →
      (LowPrioWorker.step (s.low c) l).isSome = true → False := by
    intro l hown hsig hsome
    have hnone := step_eq_none hstuck hown
    simp only [step, hrun, hsig, and_self, if_true, Option.map_eq_none_iff] at hnone
    rw [hnone] at hsome
    cases hsome
  cases hw : (s.low c).worker with
  | stopped => exact .inl rfl
  | starting => exact (hno .lock rfl rfl (by simp only [LowPrioWorker.step, hw]; rfl)).elim
  | polled term =>
    refine (hno .lock rfl rfl ?_).elim
    cases term <;> simp only [LowPrioWorker.step, hw] <;> rfl
  | notifying cleared kinds =>
    refine (hno .notify rfl rfl ?_).elim
    cases kinds <;> simp only [LowPrioWorker.step, hw] <;> rfl
  | processing =>
    by_cases hd : (s.daemon.client c).Drained
    · refine (hno .idle (decide_eq_true hd) rfl ?_).elim
      simp only [LowPrioWorker.step, hw, if_true]
      rfl
    · obtain ⟨x, hx⟩ := exists_receive h (.inr ⟨hrun, hd⟩)
      exact (receive_of_stuck hstuck hx (.inr ⟨hrun, hw⟩)).elim
  | polling =>
    refine .inr ⟨?_, rfl⟩
    by_contra hd
    refine hno (.poll false) ?_ rfl ?_
    · simp only [own, decide_eq_false hd]
      rfl
    · simp only [LowPrioWorker.step, hw, if_true]
      rfl

/-- A thread that was woken up has tested its bit. -/
theorem woken_of_stuck {c : Nat} (hrun : (s.daemon.client c).phase = .running)
    (hfree : LowPrioWorker.LockFree (s.low c)) (i : Nat) (k : TaskKind) :
    (s.low c).thread i ≠ .notified k := by
  intro hi
  have hnone := step_eq_none hstuck (l := .low c (.resume i)) rfl
  simp only [step, hrun, isSignal, LowPrioWorker.step, hi, if_pos hfree, and_self, if_true,
    Option.map_some, reduceCtorEq] at hnone

end Progress

/-- At rest no thread is about to test its bit. -/
theorem AtRest.resume_eq_none (h : AtRest s) {c i : Nat}
    (hrun : (s.daemon.client c).phase = .running) :
    LowPrioWorker.step (s.low c) (.resume i) = none := by
  simp only [LowPrioWorker.step]
  split
  · rename_i k hi
    exact absurd hi (h.woken c hrun i k)
  · rfl

/-- A system at rest has nothing to do by itself. -/
theorem AtRest.step_eq_none (h : AtRest s) (hacc : Account s) {l : Label}
    (hown : own s l = true) : step cfg s l = none := by
  cases l with
  | high name l =>
    simp only [step, ite_eq_right_iff, and_imp]
    intro hc _
    obtain ⟨hw, ht⟩ := h.high name hc
    cases l with
    | advance nanoSec =>
      obtain ⟨k, _, hk⟩ := List.any_eq_true.mp hown
      simp only [comesDue, ht k] at hk
      cases hk
    | expire k => simp only [HighPrioWorker.step, ht k, Option.map_none]
    | poll =>
      have hany : ¬ TaskKind.all.any (HighPrioWorker.pollIn (s.high name).proc) = true := by
        intro hany
        obtain ⟨k, _, hk⟩ := List.any_eq_true.mp hany
        simp [HighPrioWorker.pollIn, ht k] at hk
      simp only [HighPrioWorker.step, hw, if_neg hany, Option.map_none]
    | scan => simp only [HighPrioWorker.step, hw, Option.map_none]
    | schedStart k => cases hown
    | schedEnd k => cases hown
    | terminate => cases hown
    | report => cases hown
  | disconnect name =>
    refine if_neg (fun hc => ?_)
    simp only [own, stopped, (h.high name hc).1] at hown
    cases hown
  | call name =>
    simp only [step]
    split
    · rename_i map hw
      refine if_neg (fun hc => ?_)
      cases (h.high name hc.1).1.symm.trans hw
    · rfl
  | callReturn name =>
    refine if_neg (fun hc => ?_)
    have hreporting := ((hacc.high name).reporting (by rw [hc.2]; decide)).2
    cases (h.high name hc.1).1.symm.trans hreporting
  | process => simp only [step, h.inbox]
  | idle => simp only [step, RunLevel.step, h.waiting, reduceCtorEq, false_and, if_false,
      Option.map_none]
  | wake =>
    simp only [own, h.inbox] at hown
    cases hown
  | receive c =>
    simp only [step, receive, RunLevel.step]
    cases hx : (s.daemon.client c).receive with
    | none => rfl
    | some x =>
      have hphase : (s.daemon.client c).phase = .running := by
        unfold RunLevel.Client.receive at hx
        split at hx
        · cases hx
        · cases hx
        · exact absurd ‹_› (h.calling c)
        · assumption
      simp only [Option.map_some, Option.bind_some, hphase, Option.map_eq_none_iff,
        LowPrioWorker.step, ite_eq_right_iff, reduceCtorEq, imp_false]
      rcases h.running c hphase with hw | ⟨_, hw⟩
      · rw [hw]
        decide
      · rw [hw]
        decide
  | low c l =>
    simp only [step, ite_eq_right_iff, and_imp, Option.map_eq_none_iff]
    intro hrun _
    rcases h.running c hrun with hw | ⟨hd, hw⟩
    · cases l with
      | lock => simp only [LowPrioWorker.step, hw]
      | notify => simp only [LowPrioWorker.step, hw]
      | idle => simp only [LowPrioWorker.step, hw, reduceCtorEq, if_false]
      | poll term => simp only [LowPrioWorker.step, hw, reduceCtorEq, if_false]
      | schedStart i k => cases hown
      | spurious i => cases hown
      | resume i => exact h.resume_eq_none hrun
      | process runLevel => cases hown
    · cases l with
      | lock => simp only [LowPrioWorker.step, hw]
      | notify => simp only [LowPrioWorker.step, hw]
      | idle => simp only [LowPrioWorker.step, hw, reduceCtorEq, if_false]
      | poll term =>
        simp only [own, decide_eq_true hd, Bool.not_true, Bool.and_false] at hown
        cases hown
      | schedStart i k => cases hown
      | spurious i => cases hown
      | resume i => exact h.resume_eq_none hrun
      | process runLevel => cases hown
  | connect name => cases hown
  | nameOwnerChanged name oldOwner newOwner => cases hown
  | addMatch c => cases hown
  | callGetConfig c => cases hown

/-- **A system that can do nothing by itself is at rest**, and the other way round. -/
theorem atRest_iff {N : Finset String} {C F : Finset Nat} (h : Orderly N C F s) :
    AtRest s ↔ ¬ (quiet cfg).Enabled s := by
  constructor
  · rintro hrest ⟨l, t, ht⟩
    simp only [quiet, Option.ite_none_right_eq_some] at ht
    rw [hrest.step_eq_none h.account ht.1] at ht
    cases ht.2
  · intro hstuck
    obtain ⟨hin, hloop⟩ := daemon_of_stuck hstuck
    have hok : ∀ c, (s.daemon.client c).Ok s.daemon.bitmap 0 := by
      intro c
      have hc := h.ok c
      rw [hin] at hc
      exact hc
    have hworker : ∀ c, (s.daemon.client c).phase = .running → (s.low c).worker = .stopped ∨
        (s.daemon.client c).Drained ∧ (s.low c).worker = .polling :=
      fun c hrun => low_of_stuck hstuck (hok c) hrun
    refine ⟨⟨hloop, hin, fun name hc => high_of_stuck hstuck h.account hc, fun c hp => ?_, hworker⟩,
      fun c hrun i k => woken_of_stuck hstuck hrun ?_ i k, fun c hrun i k hi => ?_⟩
    · obtain ⟨x, hx⟩ := exists_receive (hok c) (.inl hp)
      exact receive_of_stuck hstuck hx (.inl hp)
    · rcases hworker c hrun with hw | ⟨_, hw⟩ <;> rw [LowPrioWorker.LockFree, hw] <;> decide
    · have hbit := (LowPrioWorker.inv_of_reachable (h.clients.reachable c)).blocked i k hi
      rcases hworker c hrun with hw | ⟨_, hw⟩ <;> rw [hw] at hbit <;> exact hbit

/-- **The system settles.**  From every state of a regular run, all runs of the system left
to itself are shorter than some bound; and whatever such a run has done so far, it has nothing
left to do by itself exactly when the system is at rest. -/
theorem settles (cfg : GblConfig) (s : State) (hs : (machine cfg).ReachableBy Regular s) :
    ∃ bound, ∀ ls t, (quiet cfg).run s ls = some t →
      ls.length ≤ bound ∧ (AtRest t ↔ ¬ (quiet cfg).Enabled t) := by
  obtain ⟨N, C, F, horderly⟩ := Orderly.exists_of_reachableBy hs
  refine ⟨fullRank N C F s, fun ls t hrun => ?_⟩
  obtain ⟨ht, hle⟩ := Machine.length_run_le_of_invariant (I := Orderly N C F) (fullRank N C F)
    (fun s l t h hstep =>
      ⟨h.quiet_step hstep, fullRank_quiet_lt h.within h.threads hstep⟩) horderly hrun
  exact ⟨hle, atRest_iff ht⟩

/-- A process that is about to report, and a client that has asked, have something to do; as soon
as the system left to itself stops, it is at rest. -/
theorem settles_one_task :
    ∃ s, ¬ AtRest s ∧ (quiet ⟨"clpkm.sh", 100000#64⟩).Enabled s ∧
      ∃ bound, ∀ ls t, (quiet ⟨"clpkm.sh", 100000#64⟩).run s ls = some t → ls.length ≤ bound ∧
        (¬ (quiet ⟨"clpkm.sh", 100000#64⟩).Enabled t → AtRest t) := by
  let M := machine ⟨"clpkm.sh", 100000#64⟩
  let s := (M.runIf isRegular State.init (agreeRun.take 9)).get (by decide)
  have hsome : M.runIf isRegular State.init (agreeRun.take 9) = some s := (Option.some_get _).symm
  obtain ⟨hs, _⟩ := Machine.ReachableBy.runIf (C := Regular) (.initial rfl) regular_of_isRegular
    hsome
  obtain ⟨bound, hbound⟩ := settles _ s hs
  have hno : ¬ AtRest s := fun h => absurd h.inbox (by decide)
  have hself := (hbound [] s rfl).2
  exact ⟨s, hno, not_not.mp (fun h => hno (hself.mpr h)), bound,
    fun ls t hrun => ⟨(hbound ls t hrun).1, (hbound ls t hrun).2.mpr⟩⟩

end System
end Clpkm
