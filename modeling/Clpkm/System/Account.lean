import Clpkm.System.Bus

/-!
# The daemon's account of a running system

What a high-priority process has reported, its call that may be under way and its last word
about itself are one fact in three places: in the process, in the input of the daemon, and in
what the daemon has handled.  `HighProc.Ok` ties the places together for one process, and
`Account` for all of them; what the daemon has handled and its input are what was sent.
-/

namespace Clpkm
namespace System

variable {cfg : GblConfig} {s t : State} {name : String}

/-! ## What passes between the high-priority processes and the daemon -/

/-- The messages for the task management in the daemon's input. -/
def tasks (l : List RunLevel.ToDaemon) : List DaemonMsg :=
  l.filterMap fun
    | .task m => some m
    | .getConfig _ => none

/-- The calls of a sender in the daemon's input. -/
def callsOf (name : String) (l : List RunLevel.ToDaemon) : List TaskBitmap :=
  l.filterMap fun
    | .task (.setHighPrioTaskBitmap sender bitmap) => if sender = name then some bitmap else none
    | _ => none

theorem tasks_append (l l' : List RunLevel.ToDaemon) : tasks (l ++ l') = tasks l ++ tasks l' :=
  List.filterMap_append

theorem callsOf_append (name : String) (l l' : List RunLevel.ToDaemon) :
    callsOf name (l ++ l') = callsOf name l ++ callsOf name l' :=
  List.filterMap_append

theorem callsOf_singleton (name sender : String) (bitmap : TaskBitmap) :
    callsOf name [.task (.setHighPrioTaskBitmap sender bitmap)] =
      if sender = name then [bitmap] else [] := by
  by_cases h : sender = name
  · simp [callsOf, h]
  · simp [callsOf, h]

theorem callsOf_cons (name sender : String) (bitmap : TaskBitmap) (l : List RunLevel.ToDaemon) :
    callsOf name (.task (.setHighPrioTaskBitmap sender bitmap) :: l) =
      if sender = name then bitmap :: callsOf name l else callsOf name l := by
  rw [← List.singleton_append, callsOf_append, callsOf_singleton]
  split <;> rfl

/-- What the daemon takes a process to have reported, once everything sent so far has
arrived. -/
def HighProc.reported (p : HighProc) : TaskBitmap :=
  match p.conn, p.call with
  | .connected, .idle => HighPrioWorker.lastReported p.proc
  | .connected, _ => p.proc.oldBitmap
  | _, _ => 0#32

/-- What is always true of a high-priority process, of its messages in the daemon's input
and of all that was sent. -/
structure HighProc.Ok (name : String) (inbox : List RunLevel.ToDaemon) (sent : List DaemonMsg)
    (p : HighProc) : Prop where
  reachable : HighPrioWorker.machine.ReachableBy HighPrioWorker.FewOutstanding p.proc
  fresh : p.conn = .absent → p.proc = HighPrioWorker.State.init
  /-- The worker waits for the answer of its call. -/
  reporting : p.call ≠ .idle → p.conn = .connected ∧ p.proc.worker = .reporting p.proc.oldBitmap
  /-- A call that is not answered yet is the only one in the input. -/
  calls : p.conn ≠ .gone → callsOf name inbox = if p.call = .sent then [p.proc.oldBitmap] else []
  granted : p.call ≠ .replied false
  reported : Task.lastReported name sent = p.reported

/-- Only the return of its call reports, and until then the worker stays where it is. -/
theorem reports_of_step {p q : HighPrioWorker.State} {l : HighPrioWorker.Label}
    (h : HighPrioWorker.step p l = some q) (hl : l ≠ .report) :
    q.reports = p.reports ∧ ∀ map, p.worker = .reporting map →
      q.worker = p.worker ∧ q.oldBitmap = p.oldBitmap := by
  cases l with
  | schedStart k =>
    cases h
    exact ⟨rfl, fun _ _ => ⟨rfl, rfl⟩⟩
  | schedEnd k =>
    simp only [HighPrioWorker.step, Option.ite_none_right_eq_some, Option.some.injEq] at h
    obtain ⟨_, rfl⟩ := h
    exact ⟨rfl, fun _ _ => ⟨rfl, rfl⟩⟩
  | advance nanoSec =>
    cases h
    exact ⟨rfl, fun _ _ => ⟨rfl, rfl⟩⟩
  | expire k =>
    simp only [HighPrioWorker.step] at h
    split at h
    · simp only [Option.ite_none_right_eq_some, Option.some.injEq] at h
      obtain ⟨_, rfl⟩ := h
      exact ⟨rfl, fun _ _ => ⟨rfl, rfl⟩⟩
    · cases h
  | poll =>
    simp only [HighPrioWorker.step] at h
    split at h
    · rename_i hw
      simp only [Option.ite_none_right_eq_some, Option.some.injEq] at h
      obtain ⟨_, rfl⟩ := h
      exact ⟨rfl, fun map hm => by cases hw.symm.trans hm⟩
    · cases h
  | terminate =>
    simp only [HighPrioWorker.step] at h
    split at h
    · rename_i hw
      cases h
      exact ⟨rfl, fun map hm => by cases hw.symm.trans hm⟩
    · cases h
  | scan =>
    simp only [HighPrioWorker.step] at h
    split at h
    · rename_i revents hw
      cases h
      refine ⟨?_, fun map hm => by cases hw.symm.trans hm⟩
      unfold HighPrioWorker.scan
      simp only
      split <;> rfl
    · cases h
  | report => exact absurd rfl hl

namespace HighProc.Ok
variable {inbox inbox' : List RunLevel.ToDaemon} {sent sent' : List DaemonMsg} {p : HighProc}

theorem init (name : String) : HighProc.init.Ok name [] [] where
  reachable := .initial rfl
  fresh _ := rfl
  reporting h := absurd rfl h
  calls _ := rfl
  granted := by intro h; cases h
  reported := rfl

/-- The process does not take part. -/
theorem frame (h : p.Ok name inbox sent)
    (hcalls : p.conn ≠ .gone → callsOf name inbox' = callsOf name inbox)
    (hsent : Task.lastReported name sent' = Task.lastReported name sent) :
    p.Ok name inbox' sent' :=
  { h with
    calls := fun hc => (hcalls hc).trans (h.calls hc)
    reported := hsent.trans h.reported }

theorem call_idle_of_not_connected (h : p.Ok name inbox sent) (hc : p.conn ≠ .connected) :
    p.call = .idle := by
  by_contra hcall
  exact hc (h.reporting hcall).1

theorem reported_of_not_connected (hc : p.conn ≠ .connected) : p.reported = 0#32 := by
  rcases p with ⟨proc, conn, call⟩
  cases conn with
  | connected => exact absurd rfl hc
  | absent => rfl
  | gone => rfl

/-- Another process sends a message, or one of the names changes its owner. -/
theorem send (h : p.Ok name inbox sent) {m : DaemonMsg} (hcalls : callsOf name [.task m] = [])
    (hsent : Task.lastReported name (sent ++ [m]) = Task.lastReported name sent) :
    p.Ok name (inbox ++ [.task m]) (sent ++ [m]) :=
  h.frame (fun _ => by rw [callsOf_append, hcalls, List.append_nil]) hsent

theorem connect (h : p.Ok name inbox sent) (hc : p.conn = .absent) :
    HighProc.Ok name (inbox ++ [.task (.nameOwnerChanged name "" name)])
      (sent ++ [.nameOwnerChanged name "" name]) { p with conn := .connected } where
  reachable := h.reachable
  fresh := by intro h; cases h
  reporting hcall := absurd (h.call_idle_of_not_connected (by rw [hc]; decide)) hcall
  calls _ := by
    rw [callsOf_append, h.calls (by rw [hc]; decide)]
    exact List.append_nil _
  granted := h.granted
  reported := by
    have hnone : Task.lastReported name sent = 0#32 :=
      h.reported.trans (reported_of_not_connected (by rw [hc]; decide))
    have hcall := h.call_idle_of_not_connected (by rw [hc]; decide)
    rw [Task.lastReported_concat]
    simp only [hnone, ite_self, HighProc.reported, hcall, h.fresh hc]
    rfl

theorem disconnect (h : p.Ok name inbox sent) :
    HighProc.Ok name (inbox ++ [.task (.nameOwnerChanged name name "")])
      (sent ++ [.nameOwnerChanged name name ""]) { p with conn := .gone, call := .idle } where
  reachable := h.reachable
  fresh := by intro h; cases h
  reporting hcall := absurd rfl hcall
  calls hc := absurd rfl hc
  granted := by intro h; cases h
  reported := by
    rw [Task.lastReported_concat]
    simp [HighProc.reported]

/-- A step inside the process. -/
theorem own (h : p.Ok name inbox sent) (hc : p.conn = .connected) {l : HighPrioWorker.Label}
    {q : HighPrioWorker.State} (hl : l ≠ .report)
    (hfew : HighPrioWorker.FewOutstanding p.proc l)
    (hstep : HighPrioWorker.step p.proc l = some q) :
    HighProc.Ok name inbox sent { p with proc := q } := by
  obtain ⟨hreports, hsame⟩ := reports_of_step hstep hl
  -- while a call is under way the worker stays where it is
  have hold : p.call ≠ .idle → q.worker = p.proc.worker ∧ q.oldBitmap = p.proc.oldBitmap :=
    fun hcall => hsame _ (h.reporting hcall).2
  refine ⟨h.reachable.step hfew hstep, fun hc' => ?_, fun hcall => ?_, fun hgone => ?_, h.granted,
    ?_⟩
  · cases hc.symm.trans hc'
  · obtain ⟨hw, ho⟩ := hold hcall
    obtain ⟨hconn, hr⟩ := h.reporting hcall
    exact ⟨hconn, by rw [hw, ho, hr]⟩
  · rw [h.calls hgone]
    by_cases hcall : p.call = .sent
    · rw [if_pos hcall, if_pos hcall, (hold (by rw [hcall]; decide)).2]
    · rw [if_neg hcall, if_neg hcall]
  · rw [h.reported]
    simp only [HighProc.reported, hc]
    cases hcall : p.call with
    | idle => simp only [HighPrioWorker.lastReported, hreports]
    | sent => exact ((hold (by rw [hcall]; decide)).2).symm
    | replied isGranted => exact ((hold (by rw [hcall]; exact fun h => by cases h)).2).symm

/-- The worker calls the daemon. -/
theorem call (h : p.Ok name inbox sent) (hc : p.conn = .connected) (hcall : p.call = .idle)
    {map : TaskBitmap} (hw : p.proc.worker = .reporting map) :
    HighProc.Ok name (inbox ++ [.task (.setHighPrioTaskBitmap name map)])
      (sent ++ [.setHighPrioTaskBitmap name map]) { p with call := .sent } := by
  have hinv := HighPrioWorker.inv_of_reachableBy h.reachable
  obtain rfl := hinv.reporting map hw
  refine ⟨h.reachable, fun hc' => ?_, fun _ => ⟨hc, hw⟩, fun hgone => ?_, ?_, ?_⟩
  · cases hc.symm.trans hc'
  · have hnone : callsOf name inbox = [] := by
      rw [h.calls hgone, hcall]
      rfl
    rw [callsOf_append, hnone, callsOf_singleton, if_pos rfl]
    rfl
  · intro h
    cases h
  · rw [Task.lastReported_concat]
    simp only [hinv.oldValid, and_self, if_true, HighProc.reported, hc]

/-- The call returns. -/
theorem callReturn (h : p.Ok name inbox sent) {isGranted : Bool}
    (hcall : p.call = .replied isGranted) {q : HighPrioWorker.State}
    (hstep : HighPrioWorker.step p.proc .report = some q) :
    HighProc.Ok name inbox sent { p with proc := q, call := .idle } := by
  obtain ⟨hc, hw⟩ := h.reporting (by rw [hcall]; exact fun h => by cases h)
  simp only [HighPrioWorker.step, hw, Option.some.injEq] at hstep
  subst hstep
  refine ⟨h.reachable.step (l := .report) (fun k hk => by cases hk) ?_, fun hc' => ?_,
    fun hne => absurd rfl hne, fun hgone => ?_, fun h => (by cases h), ?_⟩
  · simp only [HighPrioWorker.machine, HighPrioWorker.step, hw]
  · cases hc.symm.trans hc'
  · rw [h.calls hgone, hcall]
    rfl
  · rw [h.reported]
    simp only [HighProc.reported, hc, hcall, HighPrioWorker.lastReported, List.getLast?_concat,
      Option.getD_some]

/-- The daemon answers the call. -/
theorem answered (h : p.Ok name inbox sent) (hcall : p.call = .sent) {isGranted : Bool}
    {inbox' : List RunLevel.ToDaemon} (hcalls : callsOf name inbox' = [])
    (hg : isGranted = true) :
    HighProc.Ok name inbox' sent { p with call := .replied isGranted } := by
  obtain ⟨hc, hw⟩ := h.reporting (by rw [hcall]; decide)
  refine ⟨h.reachable, h.fresh, fun _ => ⟨hc, hw⟩, fun _ => ?_, ?_, ?_⟩
  · rw [hcalls]
    rfl
  · simp [hg]
  · rw [h.reported]
    simp only [HighProc.reported, hc, hcall]

end HighProc.Ok

/-- The account of the daemon, and every high-priority process with what it sent. -/
structure Account (s : State) : Prop where
  /-- What was sent is what the daemon has handled and then its input. -/
  log : ∃ handled, s.daemon.task = Task.run handled ∧ s.sent = handled ++ tasks s.daemon.inbox
  high : ∀ name, (s.high name).Ok name s.daemon.inbox s.sent

namespace Account

theorem init : Account State.init where
  log := ⟨[], rfl, rfl⟩
  high name := HighProc.Ok.init name

/-- A step of the daemon or of a channel that handles no message of the daemon's input. -/
theorem bus (h : Account s) {d : RunLevel.State} (htask : d.task = s.daemon.task)
    (htasks : tasks d.inbox = tasks s.daemon.inbox)
    (hcalls : ∀ name, callsOf name d.inbox = callsOf name s.daemon.inbox)
    (low : Nat → LowPrioWorker.State) : Account { s with daemon := d, low := low } where
  log := by
    obtain ⟨handled, hrun, hsent⟩ := h.log
    exact ⟨handled, htask.trans hrun, by rw [htasks]; exact hsent⟩
  high name := (h.high name).frame (fun _ => hcalls name) rfl

/-- A message is sent. -/
theorem send (h : Account s) {m : DaemonMsg} {high : String → HighProc}
    (hhigh : ∀ name, (high name).Ok name (s.daemon.inbox ++ [.task m]) (s.sent ++ [m])) :
    Account (State.send { s with high := high } m) where
  log := by
    obtain ⟨handled, hrun, hsent⟩ := h.log
    refine ⟨handled, hrun, ?_⟩
    show s.sent ++ [m] = handled ++ tasks (s.daemon.inbox ++ [.task m])
    rw [tasks_append, hsent, List.append_assoc]
    rfl
  high := hhigh

/-- One process moves, and sends nothing. -/
theorem setHigh (h : Account s) {p : HighProc} (hp : p.Ok name s.daemon.inbox s.sent) :
    Account (s.setHigh name p) where
  log := h.log
  high name' := by
    by_cases hn : name' = name
    · subst hn
      simpa [State.setHigh] using hp
    · simpa [State.setHigh, Function.update_of_ne hn] using h.high name'

/-- One process moves and sends a message about itself. -/
theorem setHigh_send (h : Account s) {p : HighProc} {m : DaemonMsg}
    (hp : p.Ok name (s.daemon.inbox ++ [.task m]) (s.sent ++ [m]))
    (hother : ∀ name', name' ≠ name → callsOf name' [.task m] = [] ∧
      Task.lastReported name' (s.sent ++ [m]) = Task.lastReported name' s.sent) :
    Account ((s.setHigh name p).send m) := by
  refine h.send fun name' => ?_
  by_cases hn : name' = name
  · subst hn
    simpa using hp
  · obtain ⟨hcalls, hsent⟩ := hother name' hn
    simpa [Function.update_of_ne hn] using (h.high name').send hcalls hsent

/-- A change of the owner of another name says nothing about a process. -/
theorem nameOwnerChanged_other {n name' oldOwner newOwner : String} (sent : List DaemonMsg)
    (hn : name' ≠ n) : callsOf name' [.task (.nameOwnerChanged n oldOwner newOwner)] = [] ∧
      Task.lastReported name' (sent ++ [.nameOwnerChanged n oldOwner newOwner]) =
        Task.lastReported name' sent := by
  refine ⟨rfl, ?_⟩
  rw [Task.lastReported_concat]
  exact if_neg (fun h => hn h.1.symm)

/-- The daemon handles a call: its sender is waiting for the answer, unless it is gone. -/
theorem answer (h : Account s) {sender : String} {bitmap : TaskBitmap}
    {rest : List RunLevel.ToDaemon}
    (hin : s.daemon.inbox = .task (.setHighPrioTaskBitmap sender bitmap) :: rest) (name : String) :
    (s.answer (.task (.setHighPrioTaskBitmap sender bitmap)) name).Ok name rest s.sent := by
  have hok := h.high name
  rw [hin] at hok
  simp only [State.answer]
  by_cases hn : sender = name
  · subst hn
    by_cases hgone : (s.high sender).conn = .gone
    · have hidle := hok.call_idle_of_not_connected (by rw [hgone]; decide)
      rw [if_neg (by rw [hidle]; decide)]
      exact hok.frame (fun hc => absurd hgone hc) rfl
    · have hcalls := hok.calls hgone
      rw [callsOf_cons, if_pos rfl] at hcalls
      by_cases hcall : (s.high sender).call = .sent
      · rw [if_pos hcall, List.cons.injEq] at hcalls
        obtain ⟨rfl, hrest⟩ := hcalls
        have hvalid := (HighPrioWorker.inv_of_reachableBy hok.reachable).oldValid
        rw [if_pos hcall, Function.update_self]
        exact hok.answered hcall hrest
          (by rw [Task.setHighPrioTaskBitmap_valid _ _ hvalid])
      · rw [if_neg hcall] at hcalls
        cases hcalls
  · have hsame : callsOf name (.task (.setHighPrioTaskBitmap sender bitmap) :: rest) =
        callsOf name rest := by rw [callsOf_cons, if_neg hn]
    split
    · rw [Function.update_of_ne (Ne.symm hn)]
      exact hok.frame (fun _ => hsame.symm) rfl
    · exact hok.frame (fun _ => hsame.symm) rfl

/-- The daemon handles a message of its input. -/
theorem process (h : Account s) {m : RunLevel.ToDaemon} {rest : List RunLevel.ToDaemon}
    {d : RunLevel.State} (hin : s.daemon.inbox = m :: rest)
    (hd : RunLevel.step cfg s.daemon .process = some d) :
    Account { s with daemon := d, high := s.answer m } := by
  simp only [RunLevel.step] at hd
  split at hd
  · rename_i m' rest' hloop hin'
    rw [hin] at hin'
    cases hin'
    cases hd
    obtain ⟨handled, hrun, hsent⟩ := h.log
    cases m with
    | getConfig c =>
      refine ⟨⟨handled, hrun, ?_⟩, fun name => ?_⟩
      · rw [hsent, hin]
        rfl
      · have hok := h.high name
        rw [hin] at hok
        exact hok.frame (fun _ => rfl) rfl
    | task m =>
      refine ⟨⟨handled ++ [m], ?_, ?_⟩, fun name => ?_⟩
      · rw [Task.run_concat, ← hrun]
        rfl
      · rw [hsent, hin, List.append_assoc]
        rfl
      · show (s.answer (.task m) name).Ok name rest s.sent
        cases m with
        | nameOwnerChanged n oldOwner newOwner =>
          have hok := h.high name
          rw [hin] at hok
          exact hok.frame (fun _ => rfl) rfl
        | setHighPrioTaskBitmap sender bitmap => exact h.answer hin name
  · cases hd

/-- **Step.**  Every step keeps the account that does not start the `2^32`-nd task of a
kind. -/
theorem step (h : Account s) {l : Label}
    (hfew : ∀ name k, l = .high name (.schedStart k) →
      (s.high name).proc.outstanding k + 1 < 2 ^ 32)
    (hs : step cfg s l = some t) : Account t := by
  cases l with
  | connect name =>
    simp only [System.step, Option.ite_none_right_eq_some, Option.some.injEq] at hs
    obtain ⟨habsent, rfl⟩ := hs
    exact h.setHigh_send ((h.high name).connect habsent)
      (fun name' hn => nameOwnerChanged_other _ hn)
  | disconnect name =>
    simp only [System.step, Option.ite_none_right_eq_some, Option.some.injEq] at hs
    obtain ⟨_, rfl⟩ := hs
    exact h.setHigh_send (h.high name).disconnect (fun name' hn => nameOwnerChanged_other _ hn)
  | nameOwnerChanged name oldOwner newOwner =>
    simp only [System.step, Option.ite_none_left_eq_some, Option.some.injEq] at hs
    obtain ⟨hconn, rfl⟩ := hs
    refine h.send fun name' => ?_
    by_cases hn : name' = name
    · subst hn
      refine (h.high name').send rfl ?_
      -- the daemon knows nothing of this name
      have hnone : Task.lastReported name' s.sent = 0#32 :=
        (h.high name').reported.trans (HighProc.Ok.reported_of_not_connected hconn)
      rw [Task.lastReported_concat]
      simp only [hnone, ite_self]
    · obtain ⟨hcalls, hsent⟩ := nameOwnerChanged_other s.sent hn
      exact (h.high name').send hcalls hsent
  | high name l =>
    simp only [System.step, Option.ite_none_right_eq_some, Option.map_eq_some_iff] at hs
    obtain ⟨⟨hconn, hl⟩, p, hp, rfl⟩ := hs
    exact h.setHigh ((h.high name).own hconn hl (fun k hk => hfew name k (by rw [hk])) hp)
  | call name =>
    simp only [System.step] at hs
    split at hs
    · rename_i map hw
      simp only [Option.ite_none_right_eq_some, Option.some.injEq] at hs
      obtain ⟨⟨hconn, hcall⟩, rfl⟩ := hs
      refine h.setHigh_send ((h.high name).call hconn hcall hw) (fun name' hn => ⟨?_, ?_⟩)
      · rw [callsOf_singleton, if_neg (Ne.symm hn)]
      · rw [Task.lastReported_concat]
        exact if_neg (fun h => hn h.1.symm)
    · cases hs
  | callReturn name =>
    simp only [System.step, Option.ite_none_right_eq_some, Option.map_eq_some_iff] at hs
    obtain ⟨⟨_, hcall⟩, p, hp, rfl⟩ := hs
    exact h.setHigh ((h.high name).callReturn hcall hp)
  | process =>
    simp only [System.step] at hs
    split at hs
    · rename_i m rest hin
      obtain ⟨d, hd, rfl⟩ := Option.map_eq_some_iff.mp hs
      exact h.process hin hd
    · cases hs
  | idle =>
    obtain ⟨d, hd, rfl⟩ := Option.map_eq_some_iff.mp hs
    simp only [RunLevel.step, Option.ite_none_right_eq_some, Option.some.injEq] at hd
    obtain ⟨_, rfl⟩ := hd
    have hsame : (RunLevel.endBatch s.daemon).task = s.daemon.task ∧
        (RunLevel.endBatch s.daemon).inbox = s.daemon.inbox := by
      unfold RunLevel.endBatch
      simp only
      split <;> exact ⟨rfl, rfl⟩
    exact h.bus hsame.1 (by rw [hsame.2]) (fun name => by rw [hsame.2]) s.low
  | wake =>
    obtain ⟨d, hd, rfl⟩ := Option.map_eq_some_iff.mp hs
    simp only [RunLevel.step, Option.ite_none_right_eq_some, Option.some.injEq] at hd
    obtain ⟨_, rfl⟩ := hd
    refine h.bus ?_ ?_ (fun _ => ?_) s.low <;> rfl
  | addMatch c =>
    obtain ⟨d, hd, rfl⟩ := Option.map_eq_some_iff.mp hs
    simp only [RunLevel.step, Option.ite_none_right_eq_some, Option.some.injEq] at hd
    obtain ⟨_, rfl⟩ := hd
    refine h.bus ?_ ?_ (fun _ => ?_) s.low <;> rfl
  | callGetConfig c =>
    obtain ⟨d, hd, rfl⟩ := Option.map_eq_some_iff.mp hs
    simp only [RunLevel.step, Option.ite_none_right_eq_some, Option.some.injEq] at hd
    obtain ⟨_, rfl⟩ := hd
    refine h.bus ?_ ?_ (fun name => ?_) s.low
    · rfl
    · rw [tasks_append]
      exact List.append_nil _
    · rw [callsOf_append]
      exact List.append_nil _
  | receive c =>
    obtain ⟨d, hd, hs⟩ := Option.bind_eq_some_iff.mp hs
    simp only [RunLevel.step, Option.map_eq_some_iff] at hd
    obtain ⟨c', _, rfl⟩ := hd
    split at hs
    · obtain ⟨p, _, rfl⟩ := Option.map_eq_some_iff.mp hs
      refine h.bus ?_ ?_ (fun _ => ?_) _ <;> rfl
    · cases hs
      refine h.bus ?_ ?_ (fun _ => ?_) _ <;> rfl
    · cases hs
      refine h.bus ?_ ?_ (fun _ => ?_) s.low <;> rfl
  | low c l =>
    simp only [System.step, Option.ite_none_right_eq_some, Option.map_eq_some_iff] at hs
    obtain ⟨_, p, _, rfl⟩ := hs
    exact h.bus rfl rfl (fun _ => rfl) _

end Account

theorem account_of_reachableBy (hs : (machine cfg).ReachableBy Regular s) : Account s :=
  hs.invariant (fun _ h => h ▸ Account.init) (fun _ _ _ h hc hstep => h.step hc.tasks hstep)

/-! ## What the daemon records -/

/-- The daemon records at most one more sender. -/
theorem length_handle_le (t : Task) (m : DaemonMsg) :
    (t.handle m).procBitmap.entries.length ≤ t.procBitmap.entries.length + 1 := by
  have hinsert : ∀ n b, (t.procBitmap.insert n b).entries.length ≤
      t.procBitmap.entries.length + 1 := by
    intro n b
    rw [AList.entries_insert, List.length_cons]
    exact Nat.succ_le_succ (List.kerase_sublist n _).length_le
  cases m with
  | setHighPrioTaskBitmap sender bitmap =>
    show (t.setHighPrioTaskBitmap sender bitmap).1.procBitmap.entries.length ≤ _
    by_cases hvalid : ValidBitmap bitmap
    · rw [Task.setHighPrioTaskBitmap_valid t sender hvalid]
      exact hinsert sender bitmap
    · rw [Task.setHighPrioTaskBitmap_invalid t sender hvalid]
      exact Nat.le_succ _
  | nameOwnerChanged n oldOwner newOwner =>
    show (t.nameOwnerChangeWatcher n oldOwner newOwner).procBitmap.entries.length ≤ _
    unfold Task.nameOwnerChangeWatcher
    split
    · split
      · exact ((List.kerase_sublist n _).length_le).trans (hinsert n 0#32)
      · exact Nat.le_succ _
    · exact Nat.le_succ _

/-- Only the handling of a message changes what the daemon records. -/
theorem task_of_step {d d' : RunLevel.State} {l : RunLevel.Label}
    (h : RunLevel.step cfg d l = some d') :
    d'.task = d.task ∨ ∃ m, d'.task = d.task.handle m := by
  cases l with
  | send m =>
    cases h
    exact .inl rfl
  | process =>
    simp only [RunLevel.step] at h
    split at h
    · rename_i m rest _ _
      cases h
      cases m with
      | task m => exact .inr ⟨m, rfl⟩
      | getConfig c => exact .inl rfl
    · cases h
  | idle =>
    simp only [RunLevel.step, Option.ite_none_right_eq_some, Option.some.injEq] at h
    obtain ⟨_, rfl⟩ := h
    unfold RunLevel.endBatch
    simp only
    split <;> exact .inl rfl
  | addMatch c =>
    simp only [RunLevel.step, Option.ite_none_right_eq_some, Option.some.injEq] at h
    obtain ⟨_, rfl⟩ := h
    exact .inl rfl
  | callGetConfig c =>
    simp only [RunLevel.step, Option.ite_none_right_eq_some, Option.some.injEq] at h
    obtain ⟨_, rfl⟩ := h
    exact .inl rfl
  | receive c =>
    simp only [RunLevel.step, Option.map_eq_some_iff] at h
    obtain ⟨c', _, rfl⟩ := h
    exact .inl rfl
  | wake =>
    simp only [RunLevel.step, Option.ite_none_right_eq_some, Option.some.injEq] at h
    obtain ⟨_, rfl⟩ := h
    exact .inl rfl

/-- In a regular run the counters of the daemon count. -/
theorem taskInv_of_reachableBy (hs : (machine cfg).ReachableBy Regular s) : s.daemon.task.Inv := by
  refine hs.invariant (I := fun s => s.daemon.task.Inv) (fun s h => ?_) (fun s l t h hc hstep => ?_)
  · rw [show s = State.init from h]
    exact Task.inv_init
  · rcases daemon_of_step hstep with hd | ⟨l', _, _, hd⟩
    · rw [hd]
      exact h
    · rcases task_of_step hd with ht | ⟨m, ht⟩
      · rw [ht]
        exact h
      · have hlen := length_handle_le s.daemon.task m
        have hfew := hc.senders
        rw [ht]
        exact h.handle m (by omega) (by omega)

/-! ## No call is denied -/

/-- **No call is denied or mixed up.**  In every state of every regular run, no process has got
the answer its worker asserts against; a call that is not answered yet is the only one of its
process in the input of the daemon and carries the map of the report; and there is none without
a process that waits for its answer or is gone. -/
theorem no_call_denied (cfg : GblConfig) (s : State) (hs : (machine cfg).ReachableBy Regular s)
    (name : String) :
    (s.high name).call ≠ .replied false ∧
    ((s.high name).call = .sent →
      (s.high name).proc.worker = .reporting (s.high name).proc.oldBitmap ∧
        callsOf name s.daemon.inbox = [(s.high name).proc.oldBitmap]) ∧
    ((s.high name).call ≠ .sent → (s.high name).conn ≠ .gone →
      callsOf name s.daemon.inbox = []) := by
  have hok := (account_of_reachableBy hs).high name
  refine ⟨hok.granted, fun hcall => ?_, fun hcall hgone => ?_⟩
  · obtain ⟨hc, hw⟩ := hok.reporting (by rw [hcall]; decide)
    have hcalls := hok.calls (by rw [hc]; decide)
    rw [if_pos hcall] at hcalls
    exact ⟨hw, hcalls⟩
  · have hcalls := hok.calls hgone
    rw [if_neg hcall] at hcalls
    exact hcalls

/-- A process starts its first task, and its worker reports it. -/
def callRun : List Label :=
  [.connect ":1.4", .high ":1.4" (.schedStart .computing), .high ":1.4" (.advance 1),
    .high ":1.4" (.expire .computing), .high ":1.4" .poll, .high ":1.4" .scan, .call ":1.4"]

/-- The report is on its way. -/
theorem no_call_denied_callRun :
    ∃ s : State, (s.high ":1.4").call = .sent ∧ callsOf ":1.4" s.daemon.inbox = [1#32] := by
  let M := machine ⟨"clpkm.sh", 100000#64⟩
  let s := (M.runIf isRegular State.init callRun).get (by decide)
  have hsome : M.runIf isRegular State.init callRun = some s := (Option.some_get _).symm
  obtain ⟨hs, _⟩ := Machine.ReachableBy.runIf (C := Regular) (.initial rfl) regular_of_isRegular
    hsome
  have hcall : (s.high ":1.4").call = .sent := by decide
  have hold : (s.high ":1.4").proc.oldBitmap = 1#32 := by decide
  exact ⟨s, hcall, hold ▸ ((no_call_denied _ s hs ":1.4").2.1 hcall).2⟩

end System
end Clpkm
