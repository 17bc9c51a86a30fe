import Clpkm.System.Bus
import Mathlib.Algebra.BigOperators.Group.Finset.Basic
import Mathlib.Algebra.Order.BigOperators.Group.Finset

/-!
# The system left to itself

In `quiet` no process comes, no task starts or ends, no client asks for anything, and a wait is
only left when there is something to do.  Time passes as far as some timer needs.  Whoever
can still do something can do it, in any order.

What there still is to do has a rank.  A message to the daemon is worth more than the signals
that the end of its batch sends to all clients, a report more than its message, and a
timer more than a report; the rank of a worker follows its loop.  A thread that has been woken
up tests its bit again, which costs one step for every notification.
-/

namespace Clpkm
namespace System

variable {cfg : GblConfig} {s t : State} {name : String}

/-! ## Left to itself -/

instance (c : RunLevel.Client) : Decidable c.Drained := inferInstanceAs (Decidable (_ ∧ _))

/-- A timer goes off in the time that passes. -/
def comesDue (p : HighPrioWorker.State) (nanoSec : Nat) (k : TaskKind) : Bool :=
  match p.timer k with
  | .armed deadline => p.clock < deadline && deadline ≤ p.clock + nanoSec
  | _ => false

/-- The worker has left its loop. -/
def stopped (p : HighPrioWorker.State) : Bool :=
  match p.worker with
  | .stopped => true
  | _ => false

/-- A step that does not start anything. -/
def own (s : State) : Label → Bool
  | .high name (.advance nanoSec) => TaskKind.all.any (comesDue (s.high name).proc nanoSec)
  | .high _ (.expire _) | .high _ .poll | .high _ .scan => true
  | .disconnect name => stopped (s.high name).proc
  | .call _ | .callReturn _ | .process | .idle | .receive _ => true
  | .wake => !s.daemon.inbox.isEmpty
  | .low _ .lock | .low _ .notify | .low _ (.resume _) => true
  | .low c .idle => decide (s.daemon.client c).Drained
  | .low c (.poll term) => !term && !decide (s.daemon.client c).Drained
  | _ => false

/-- The system left to itself. -/
def quiet (cfg : GblConfig) : Machine State Label :=
  ⟨fun _ => True, fun s l => if own s l then step cfg s l else none⟩

/-- Left to itself, the system stays with those who take part. -/
theorem Within.quiet_step {N : Finset String} {C : Finset Nat} (h : Within N C s) {l : Label}
    (hs : (quiet cfg).step s l = some t) : Within N C t := by
  simp only [quiet, Option.ite_none_right_eq_some] at hs
  obtain ⟨hown, hs⟩ := hs
  exact h.step hs (fun name hl => by rw [hl] at hown; cases hown)
    (fun c hl => by rw [hl] at hown; cases hown)

/-! ## Ranks -/

/-- `rank` of a message that a client gets. -/
def signalRank : Nat := 16

/-- Of a client with its worker.  A worker that polls or is on its way there has more to do if
something is left for it. -/
def lowRank (drained : Prop) [Decidable drained] : LowPrioWorker.Worker → Nat
  | .starting | .polled false => 6
  | .processing => 5
  | .notifying _ kinds => 1 + kinds.length + if drained then 0 else 8
  | .polling => if drained then 0 else 8
  | .polled true => 1
  | .stopped => 0

def clientRank (c : RunLevel.Client) (w : LowPrioWorker.Worker) : Nat :=
  8 * (c.sent.length - c.taken) + c.rqueue.length +
    if c.phase = .running then lowRank c.Drained w else 0

/-- Of the daemon and its input, where the signals of a batch are worth `all`. -/
def inboxRank (all : Nat) (d : RunLevel.State) : Nat :=
  (all + signalRank + 4) * d.inbox.length +
    match d.loop with
    | .processing => all + 2
    | .waiting => if d.inbox = [] then 0 else all + 3

/-- More than what a message to the daemon adds. -/
def messageRank (all : Nat) : Nat := 2 * all + signalRank + 8

def timerRank (report clock : Nat) : HighPrioWorker.Timer → Nat
  | .disarmed => 0
  | .expired => report
  | .armed deadline => if clock < deadline then report + 2 else report + 1

/-- The worker has polled a timer that it will find expired. -/
def consumable (p : HighPrioWorker.State) (revents : TaskKind → Bool) : Bool :=
  TaskKind.all.any fun k => decide (HighPrioWorker.Consumed p revents k)

def workerRank (message : Nat) (p : HighPrioWorker.State) (call : Call) : Nat :=
  match p.worker with
  | .polling => 1
  | .polled revents => if consumable p revents then 0 else message + 5
  | .reporting _ =>
    match call with
    | .idle => message + 4
    | .sent => 3
    | .replied _ => 2
  | .stopped => message + 1

def timersRank (message : Nat) (p : HighPrioWorker.State) : Nat :=
  timerRank (message + 5) p.clock (p.timer .computing) +
    timerRank (message + 5) p.clock (p.timer .memcpy)

def HighProc.rank (message : Nat) (p : HighProc) : Nat :=
  if p.conn = .connected then timersRank message p.proc + workerRank message p.proc p.call else 0

/-- What the daemon, the workers and the channels can still do by themselves. -/
def rank (N : Finset String) (C : Finset Nat) (s : State) : Nat :=
  inboxRank (signalRank * C.card) s.daemon +
    (∑ name ∈ N, (s.high name).rank (messageRank (signalRank * C.card)) +
      ∑ c ∈ C, clientRank (s.daemon.client c) (s.low c).worker)

/-- The thread has been woken up and has not tested its bit yet. -/
def woken : LowPrioWorker.Thread → Bool
  | .notified _ => true
  | _ => false

/-- The threads that have been woken up, of the clients `C` with the threads `F`. -/
def wokenThreads (C F : Finset Nat) (s : State) : Nat :=
  ∑ c ∈ C, (F.filter fun i => woken ((s.low c).thread i)).card

/-- What the system can still do by itself.  Whatever is left to the others counts more than all
threads together, which a notification may wake up. -/
def fullRank (N : Finset String) (C F : Finset Nat) (s : State) : Nat :=
  (C.card * F.card + 1) * rank N C s + wokenThreads C F s

theorem wokenThreads_le (C F : Finset Nat) (s : State) :
    wokenThreads C F s ≤ C.card * F.card := by
  refine Finset.sum_le_card_nsmul C _ F.card (fun c _ => ?_)
  exact Finset.card_le_card (Finset.filter_subset _ F)

/-- Whoever moves, it is worth the threads that it wakes up. -/
theorem fullRank_lt {N : Finset String} {C F : Finset Nat} (h : rank N C t < rank N C s) :
    fullRank N C F t < fullRank N C F s := by
  have hle := wokenThreads_le C F t
  have hmul : (C.card * F.card + 1) * (rank N C t + 1) ≤ (C.card * F.card + 1) * rank N C s :=
    Nat.mul_le_mul_left _ h
  unfold fullRank
  rw [Nat.mul_succ] at hmul
  omega

/-! ### A high-priority process -/

section HighRank
variable {p q : HighPrioWorker.State} {message : Nat}

/-- Timers that are less urgent one by one. -/
theorem timersRank_le (h : ∀ k, timerRank (message + 5) q.clock (q.timer k) ≤
    timerRank (message + 5) p.clock (p.timer k)) : timersRank message q ≤ timersRank message p :=
  Nat.add_le_add (h .computing) (h .memcpy)

theorem timersRank_lt {x : Nat} (h : ∀ k, timerRank (message + 5) q.clock (q.timer k) ≤
    timerRank (message + 5) p.clock (p.timer k)) {k : TaskKind}
    (hk : timerRank (message + 5) q.clock (q.timer k) + x ≤
      timerRank (message + 5) p.clock (p.timer k)) :
    timersRank message q + x ≤ timersRank message p := by
  have h₁ := h .computing
  have h₂ := h .memcpy
  unfold timersRank
  cases k <;> omega

/-- A timer comes due, or goes off. -/
theorem timerRank_mono {report clock clock' : Nat} (h : clock ≤ clock') (timer) :
    timerRank report clock' timer ≤ timerRank report clock timer := by
  cases timer with
  | armed deadline =>
    simp only [timerRank]
    split <;> split <;> omega
  | disarmed => exact Nat.le_refl _
  | expired => exact Nat.le_refl _

theorem consumable_iff {revents : TaskKind → Bool} :
    consumable p revents = true ↔ ∃ k, HighPrioWorker.Consumed p revents k := by
  simp only [consumable, List.any_eq_true, decide_eq_true_eq]
  exact ⟨fun ⟨k, _, h⟩ => ⟨k, h⟩, fun ⟨k, h⟩ => ⟨k, k.mem_all, h⟩⟩

theorem workerRank_of_consumable {call : Call} {revents : TaskKind → Bool}
    (hw : p.worker = .polled revents) (h : ∃ k, HighPrioWorker.Consumed p revents k) :
    workerRank message p call = 0 := by
  simp only [workerRank, hw, if_pos (consumable_iff.mpr h)]

theorem workerRank_of_not_consumable {call : Call} {revents : TaskKind → Bool}
    (hw : p.worker = .polled revents) (h : ¬ ∃ k, HighPrioWorker.Consumed p revents k) :
    workerRank message p call = message + 5 := by
  simp only [workerRank, hw, if_neg (fun hc => h (consumable_iff.mp hc))]

/-- Time passes until some timer comes due. -/
theorem rank_advance {call : Call} {nanoSec : Nat} (hclock : q.clock = p.clock + nanoSec)
    (htimer : q.timer = p.timer) (hw : q.worker = p.worker)
    (hdue : TaskKind.all.any (comesDue p nanoSec) = true) :
    timersRank message q + workerRank message q call <
      timersRank message p + workerRank message p call := by
  obtain ⟨k, _, hk⟩ := List.any_eq_true.mp hdue
  have hk' : timerRank (message + 5) q.clock (q.timer k) + 1 ≤
      timerRank (message + 5) p.clock (p.timer k) := by
    unfold comesDue at hk
    split at hk
    · rename_i deadline ht
      simp only [Bool.and_eq_true, decide_eq_true_eq] at hk
      simp only [htimer, hclock, ht, timerRank, if_pos hk.1, if_neg (Nat.not_lt.mpr hk.2)]
      exact Nat.le_refl _
    · cases hk
  have hlt := timersRank_lt (fun k' => by
    rw [hclock, htimer]
    exact timerRank_mono (Nat.le_add_right _ _) _) hk'
  have hsame : workerRank message q call = workerRank message p call := by
    have hcons : consumable q = consumable p := by
      funext revents
      rw [Bool.eq_iff_iff, consumable_iff, consumable_iff]
      simp only [HighPrioWorker.Consumed, htimer]
    unfold workerRank
    rw [hw, hcons]
  omega

/-- A timer goes off. -/
theorem rank_expire {call : Call} {k : TaskKind} {deadline : Nat}
    (ht : p.timer k = .armed deadline) (hdue : deadline ≤ p.clock) (hclock : q.clock = p.clock)
    (htimer : q.timer = Function.update p.timer k .expired) (hw : q.worker = p.worker) :
    timersRank message q + workerRank message q call <
      timersRank message p + workerRank message p call := by
  have hk : timerRank (message + 5) q.clock (q.timer k) + 1 ≤
      timerRank (message + 5) p.clock (p.timer k) := by
    simp only [htimer, Function.update_self, ht, timerRank, if_neg (Nat.not_lt.mpr hdue)]
    exact Nat.le_refl _
  have hother : ∀ k', k' ≠ k → q.timer k' = p.timer k' := fun k' hne => by
    rw [htimer, Function.update_of_ne hne]
  have hlt := timersRank_lt (fun k' => by
    by_cases hne : k' = k
    · subst hne
      exact Nat.le_of_succ_le hk
    · rw [hclock, hother k' hne]) hk
  -- what was to be found expired still is
  have hworker : workerRank message q call ≤ workerRank message p call := by
    cases hp : p.worker with
    | polled revents =>
      rw [hp] at hw
      by_cases hcons : ∃ k, HighPrioWorker.Consumed p revents k
      · obtain ⟨k', hr, he⟩ := hcons
        have hne : k' ≠ k := fun h => by cases (h ▸ he).symm.trans ht
        rw [workerRank_of_consumable hw ⟨k', hr, (hother k' hne).trans he⟩]
        exact Nat.zero_le _
      · rw [workerRank_of_not_consumable hp hcons]
        simp only [workerRank, hw]
        split <;> omega
    | polling => simp only [workerRank, hw, hp, Nat.le_refl]
    | reporting map => simp only [workerRank, hw, hp, Nat.le_refl]
    | stopped => simp only [workerRank, hw, hp, Nat.le_refl]
  omega

/-- `ppoll` finds a timer expired. -/
theorem rank_poll {call : Call} (hp : p.worker = .polling)
    (hpoll : TaskKind.all.any (HighPrioWorker.pollIn p) = true) (hclock : q.clock = p.clock)
    (htimer : q.timer = p.timer) (hw : q.worker = .polled (HighPrioWorker.pollIn p)) :
    timersRank message q + workerRank message q call <
      timersRank message p + workerRank message p call := by
  obtain ⟨k, _, hk⟩ := List.any_eq_true.mp hpoll
  have hexpired : q.timer k = .expired := by
    rw [htimer]
    simpa [HighPrioWorker.pollIn] using hk
  have hle : timersRank message q ≤ timersRank message p :=
    timersRank_le (fun k' => by rw [hclock, htimer])
  rw [workerRank_of_consumable hw ⟨k, hk, hexpired⟩]
  simp only [workerRank, hp]
  omega

/-- The worker reads the timers and decides what to report. -/
theorem rank_scan {call : Call} {revents : TaskKind → Bool} (hp : p.worker = .polled revents) :
    timersRank message (HighPrioWorker.scan p revents) +
        workerRank message (HighPrioWorker.scan p revents) call <
      timersRank message p + workerRank message p call := by
  have hscan : (HighPrioWorker.scan p revents).clock = p.clock ∧
      (HighPrioWorker.scan p revents).timer = (HighPrioWorker.scanKinds p revents).2 ∧
      workerRank message (HighPrioWorker.scan p revents) call ≤ message + 4 := by
    unfold HighPrioWorker.scan
    simp only
    split
    · refine ⟨rfl, rfl, ?_⟩
      simp only [workerRank]
      omega
    · refine ⟨rfl, rfl, ?_⟩
      simp only [workerRank]
      split <;> omega
  obtain ⟨hclock, htimer, hworker⟩ := hscan
  have hle : ∀ k, timerRank (message + 5) (HighPrioWorker.scan p revents).clock
      ((HighPrioWorker.scan p revents).timer k) ≤ timerRank (message + 5) p.clock (p.timer k) := by
    intro k
    rw [hclock, htimer, HighPrioWorker.scanKinds_timer]
    split
    · exact Nat.zero_le _
    · exact Nat.le_refl _
  by_cases hcons : ∃ k, HighPrioWorker.Consumed p revents k
  · obtain ⟨k, hk⟩ := hcons
    have hlt := timersRank_lt (x := message + 5) hle (k := k) (by
      rw [htimer, HighPrioWorker.scanKinds_timer, if_pos hk, hk.2]
      simp only [timerRank]
      omega)
    rw [workerRank_of_consumable hp ⟨k, hk⟩]
    omega
  · rw [workerRank_of_not_consumable hp hcons]
    have hsum := timersRank_le hle
    omega

end HighRank

/-! ### A client -/

section ClientRank
variable {c c' : RunLevel.Client} {w : LowPrioWorker.Worker}

theorem lowRank_le (a b : Prop) [Decidable a] [Decidable b] (w : LowPrioWorker.Worker) :
    lowRank a w ≤ lowRank b w + 8 := by
  cases w with
  | notifying cleared kinds =>
    simp only [lowRank]
    split <;> split <;> omega
  | polling =>
    simp only [lowRank]
    split <;> split <;> omega
  | polled term => cases term <;> exact Nat.le_add_right _ _
  | starting => exact Nat.le_add_right _ _
  | processing => exact Nat.le_add_right _ _
  | stopped => exact Nat.le_add_right _ _

theorem clientRank_deliver (c : RunLevel.Client) (m : RunLevel.ToClient) :
    clientRank (c.deliver m) w ≤ clientRank c w + signalRank := by
  have hle := lowRank_le (c.deliver m).Drained c.Drained w
  have hsent : (c.deliver m).sent.length = c.sent.length + 1 := List.length_append
  have htaken : (c.deliver m).taken = c.taken := rfl
  have hqueue : (c.deliver m).rqueue = c.rqueue := rfl
  unfold clientRank signalRank
  rw [hsent, htaken, hqueue]
  by_cases hp : c.phase = .running
  · have hp' : (c.deliver m).phase = .running := hp
    rw [if_pos hp, if_pos hp']
    omega
  · have hp' : (c.deliver m).phase ≠ .running := hp
    rw [if_neg hp, if_neg hp']
    omega

theorem clientRank_signal (c : RunLevel.Client) (b : TaskBitmap) :
    clientRank (c.signal b) w ≤ clientRank c w + signalRank := by
  unfold RunLevel.Client.signal
  split
  · exact Nat.le_add_right _ _
  · exact clientRank_deliver c _

/-- A client that waits for the answer of `GetConfig` handles a message. -/
theorem clientRank_receive_calling (hp : c.phase = .calling) (h : c.receive = some c') :
    clientRank c' .starting < clientRank c w := by
  simp only [RunLevel.Client.receive, hp] at h
  split at h
  · rename_i b hm
    cases h
    obtain ⟨hlt, _⟩ := RunLevel.Client.take_drop_of_get hm
    simp only [clientRank, hp, List.length_append, List.length_singleton, reduceCtorEq, if_false]
    omega
  · rename_i r hm
    cases h
    obtain ⟨hlt, _⟩ := RunLevel.Client.take_drop_of_get hm
    simp only [clientRank, hp, lowRank, reduceCtorEq, if_false, if_true]
    omega
  · cases h

/-- A worker handles a message. -/
theorem clientRank_receive_running (hp : c.phase = .running) (h : c.receive = some c') :
    c'.phase = .running ∧ clientRank c' .processing < clientRank c .processing := by
  simp only [RunLevel.Client.receive, hp] at h
  split at h
  · rename_i b rest hq
    cases h
    refine ⟨rfl, ?_⟩
    simp only [clientRank, hp, hq, lowRank, List.length_cons, if_true]
    omega
  · split at h
    · rename_i b hm
      cases h
      obtain ⟨hlt, _⟩ := RunLevel.Client.take_drop_of_get hm
      refine ⟨rfl, ?_⟩
      simp only [clientRank, hp, lowRank, if_true]
      omega
    · rename_i r hm
      cases h
      obtain ⟨hlt, _⟩ := RunLevel.Client.take_drop_of_get hm
      refine ⟨rfl, ?_⟩
      simp only [clientRank, hp, lowRank, if_true]
      omega
    · cases h

/-- The worker of a low-priority process goes on in its loop. -/
theorem lowRank_lt {drained : Prop} [Decidable drained] {p q : LowPrioWorker.State}
    {l : LowPrioWorker.Label} (h : LowPrioWorker.step p l = some q)
    (hl : l = .lock ∨ l = .notify ∨ l = .idle ∧ drained ∨ l = .poll false ∧ ¬ drained) :
    lowRank drained q.worker < lowRank drained p.worker := by
  rcases hl with rfl | rfl | ⟨rfl, hd⟩ | ⟨rfl, hd⟩
  · simp only [LowPrioWorker.step] at h
    split at h
    · rename_i hw
      cases h
      simp only [hw, lowRank]
      decide
    · rename_i hw
      cases h
      simp only [hw, lowRank]
      decide
    · rename_i hw
      cases h
      simp only [hw, lowRank]
      decide
    · cases h
  · simp only [LowPrioWorker.step] at h
    split at h
    · rename_i hw
      cases h
      simp only [hw, lowRank, List.length_cons]
      omega
    · rename_i hw
      cases h
      simp only [hw, lowRank, List.length_nil]
      omega
    · cases h
  · simp only [LowPrioWorker.step, Option.ite_none_right_eq_some, Option.some.injEq] at h
    obtain ⟨hw, rfl⟩ := h
    simp only [hw, lowRank, if_pos hd]
    decide
  · simp only [LowPrioWorker.step, Option.ite_none_right_eq_some, Option.some.injEq] at h
    obtain ⟨hw, rfl⟩ := h
    simp only [hw, lowRank, if_neg hd]
    decide

end ClientRank

end System
end Clpkm
