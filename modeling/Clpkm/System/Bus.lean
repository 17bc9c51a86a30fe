import Clpkm.RunLevel
import Clpkm.HighPrioWorker
import Clpkm.LowPrioWorker
import Clpkm.Simulation
import Mathlib.Data.Finset.Dedup

/-!
# The schedule service with all its processes

The daemon, every high-priority process and every low-priority process on one bus.  The
parts are the machines of the modules this one imports; what is new is what passes between
them.  `HighPrioProcWorker` calls `SetHighPrioTaskBitmap` and waits for the answer, so a
process has at most one call under way; the bus keeps the messages of a connection in order
and releases its name after the last of them, and it never gives a name twice.  What a
low-priority process handles inside `sd_bus_process` is what its channel brings.

A process may leave at any time, with a call under way or tasks running.

When everything sent has arrived, every worker polls and no timer is set, the system is
`Settled`.
-/

namespace Clpkm
namespace System

/-- The connection of a high-priority process to the bus. -/
inductive Conn
  | absent
  | connected
  | gone
  deriving DecidableEq, Repr

/-- A call of `SetHighPrioTaskBitmap`, as its caller sees it. -/
inductive Call
  /-- no call is under way -/
  | idle
  | sent
  | replied (isGranted : Bool)
  deriving DecidableEq, Repr

/-- A high-priority process and its connection. -/
structure HighProc where
  proc : HighPrioWorker.State
  conn : Conn
  call : Call

/-- The daemon and all processes.  A connection is known by its unique name. -/
structure State where
  daemon : RunLevel.State
  high : String → HighProc
  low : Nat → LowPrioWorker.State
  /-- what has ever been sent to the task management of the daemon, in order -/
  sent : List DaemonMsg

/-- The choices of the environment. -/
inductive Label
  /-- a high-priority process connects to the bus -/
  | connect (name : String)
  /-- its connection is closed -/
  | disconnect (name : String)
  /-- a name that is not the connection of a high-priority process changes its owner -/
  | nameOwnerChanged (name oldOwner newOwner : String)
  /-- a step inside a high-priority process -/
  | high (name : String) (l : HighPrioWorker.Label)
  /-- the worker calls `SetHighPrioTaskBitmap` -/
  | call (name : String)
  /-- the call returns -/
  | callReturn (name : String)
  /-- the daemon handles one message -/
  | process
  /-- the daemon has handled its input -/
  | idle
  /-- `sd_bus_wait` of the daemon returns -/
  | wake
  | addMatch (c : Nat)
  | callGetConfig (c : Nat)
  /-- a low-priority process handles one message of its channel -/
  | receive (c : Nat)
  /-- a step inside a low-priority process -/
  | low (c : Nat) (l : LowPrioWorker.Label)
  deriving DecidableEq, Repr

def HighProc.init : HighProc := ⟨HighPrioWorker.State.init, .absent, .idle⟩

/-- Nobody but the daemon is on the bus. -/
def State.init : State :=
  ⟨RunLevel.State.init, fun _ => HighProc.init, fun _ => LowPrioWorker.State.init 0#32, []⟩

/-! ## Steps -/

namespace State

def setHigh (s : State) (name : String) (p : HighProc) : State :=
  { s with high := Function.update s.high name p }

/-- A message on its way to the task management of the daemon. -/
def send (s : State) (m : DaemonMsg) : State :=
  { s with
    daemon := { s.daemon with inbox := s.daemon.inbox ++ [.task m] }
    sent := s.sent ++ [m] }

/-- The answer to a message of the daemon's input, if its sender still waits for one. -/
def answer (s : State) : RunLevel.ToDaemon → String → HighProc
  | .task (.setHighPrioTaskBitmap sender bitmap) =>
    if (s.high sender).call = .sent then
      Function.update s.high sender { s.high sender with
        call := .replied (s.daemon.task.setHighPrioTaskBitmap sender bitmap).2 }
    else s.high
  | _ => s.high

end State

/-- `sd_bus_process` with a signal is a step of the channel. -/
def isSignal : LowPrioWorker.Label → Bool
  | .process (some _) => true
  | _ => false

variable (cfg : GblConfig)

/-- A low-priority process handles a message.  The answer of `GetConfig` starts its worker,
and from then on it is the worker that handles messages, inside `sd_bus_process`. -/
def receive (s : State) (c : Nat) : Option State :=
  (RunLevel.step cfg s.daemon (.receive c)).bind fun d =>
    let bitmap := (d.client c).bitmap
    match (s.daemon.client c).phase, (d.client c).phase with
    | .running, _ =>
      (LowPrioWorker.step (s.low c) (.process (some bitmap))).map fun p =>
        { s with daemon := d, low := Function.update s.low c p }
    | _, .running =>
      some { s with daemon := d, low := Function.update s.low c (LowPrioWorker.State.init bitmap) }
    | _, _ => some { s with daemon := d }

/-- One step of a process, of the daemon or of the bus. -/
def step (s : State) : Label → Option State
  | .connect name =>
    if (s.high name).conn = .absent then
      some ((s.setHigh name { s.high name with conn := .connected }).send
        (.nameOwnerChanged name "" name))
    else none
  | .disconnect name =>
    if (s.high name).conn = .connected then
      some ((s.setHigh name { s.high name with conn := .gone, call := .idle }).send
        (.nameOwnerChanged name name ""))
    else none
  | .nameOwnerChanged name oldOwner newOwner =>
    if (s.high name).conn = .connected then none
    else some (s.send (.nameOwnerChanged name oldOwner newOwner))
  | .high name l =>
    if (s.high name).conn = .connected ∧ l ≠ .report then
      (HighPrioWorker.step (s.high name).proc l).map fun p =>
        s.setHigh name { s.high name with proc := p }
    else none
  | .call name =>
    match (s.high name).proc.worker with
    | .reporting map =>
      if (s.high name).conn = .connected ∧ (s.high name).call = .idle then
        some ((s.setHigh name { s.high name with call := .sent }).send
          (.setHighPrioTaskBitmap name map))
      else none
    | _ => none
  | .callReturn name =>
    -- with another answer the assertion on `IsGranted` ends the process
    if (s.high name).conn = .connected ∧ (s.high name).call = .replied true then
      (HighPrioWorker.step (s.high name).proc .report).map fun p =>
        s.setHigh name { s.high name with proc := p, call := .idle }
    else none
  | .process =>
    match s.daemon.inbox with
    | m :: _ =>
      (RunLevel.step cfg s.daemon .process).map fun d =>
        { s with daemon := d, high := s.answer m }
    | [] => none
  | .idle => (RunLevel.step cfg s.daemon .idle).map fun d => { s with daemon := d }
  | .wake => (RunLevel.step cfg s.daemon .wake).map fun d => { s with daemon := d }
  | .addMatch c =>
    (RunLevel.step cfg s.daemon (.addMatch c)).map fun d => { s with daemon := d }
  | .callGetConfig c =>
    (RunLevel.step cfg s.daemon (.callGetConfig c)).map fun d => { s with daemon := d }
  | .receive c => receive cfg s c
  | .low c l =>
    if (s.daemon.client c).phase = .running ∧ isSignal l = false then
      (LowPrioWorker.step (s.low c) l).map fun p => { s with low := Function.update s.low c p }
    else none

/-- The schedule service and its processes as a machine. -/
def machine : Machine State Label := ⟨(· = State.init), step cfg⟩

/-- Some high-priority process runs a task of the kind. -/
def Running (s : State) (k : TaskKind) : Prop :=
  ∃ name, (s.high name).conn = .connected ∧ 0 < (s.high name).proc.outstanding k

/-- Everything sent has arrived and every worker polls; no timer is set.  A low-priority
process whose worker has left its loop ends. -/
structure Settled (s : State) : Prop where
  waiting : s.daemon.loop = .waiting
  inbox : s.daemon.inbox = []
  high : ∀ name, (s.high name).conn = .connected →
    (s.high name).proc.worker = .polling ∧ ∀ k, (s.high name).proc.timer k = .disarmed
  calling : ∀ c, (s.daemon.client c).phase ≠ .calling
  running : ∀ c, (s.daemon.client c).phase = .running →
    (s.low c).worker = .stopped ∨ (s.daemon.client c).Drained ∧ (s.low c).worker = .polling

/-- What a step may not do: start the `2^32`-nd task of a kind in one process, record the
`2^32`-nd sender, or end a batch of the daemon with a stale reply. -/
structure Regular (s : State) (l : Label) : Prop where
  tasks : ∀ name k, l = .high name (.schedStart k) →
    (s.high name).proc.outstanding k + 1 < 2 ^ 32
  senders : s.daemon.task.procBitmap.entries.length + 1 < 2 ^ 32
  reply : l = .idle → RunLevel.NoStaleReply s.daemon .idle

/-- A test for regular steps. -/
def isRegular (s : State) (l : Label) : Bool :=
  decide (s.daemon.task.procBitmap.entries.length + 1 < 2 ^ 32) &&
    match l with
    | .high name (.schedStart k) => decide ((s.high name).proc.outstanding k + 1 < 2 ^ 32)
    | .idle => decide (s.daemon.task.globalBitmap ≠ s.daemon.bitmap)
    | _ => true

theorem regular_of_isRegular (s : State) (l : Label) (h : isRegular s l = true) : Regular s l := by
  simp only [isRegular, Bool.and_eq_true, decide_eq_true_eq] at h
  refine ⟨fun name k hl => ?_, h.1, fun hl _ hb => ?_⟩
  · subst hl
    exact of_decide_eq_true h.2
  · subst hl
    exact absurd hb (of_decide_eq_true h.2)

variable {cfg} {s t : State} {name : String}

/-! ## The daemon -/

/-- A step of the daemon or of its channels, which ends a batch or adds a match only if the
label says so. -/
def BusStep (cfg : GblConfig) (d d' : RunLevel.State) (l : Label) : Prop :=
  ∃ l', (l' = .idle → l = .idle) ∧ (∀ c, l' = .addMatch c → l = .addMatch c) ∧
    RunLevel.step cfg d l' = some d'

theorem BusStep.send (u : State) (m : DaemonMsg) (l : Label) :
    BusStep cfg u.daemon (u.send m).daemon l :=
  ⟨.send m, (by intro h; cases h), (by intro c h; cases h), rfl⟩

theorem BusStep.of_map {l : Label} {b : RunLevel.Label} (hl : b = .idle → l = .idle)
    (hm : ∀ c, b = .addMatch c → l = .addMatch c)
    (h : (RunLevel.step cfg s.daemon b).map (fun d => { s with daemon := d }) = some t) :
    BusStep cfg s.daemon t.daemon l := by
  obtain ⟨d, hd, rfl⟩ := Option.map_eq_some_iff.mp h
  exact ⟨b, hl, hm, hd⟩

/-- A step of the whole is a step of the daemon and its channels, or none of theirs. -/
theorem daemon_of_step {l : Label} (h : step cfg s l = some t) :
    t.daemon = s.daemon ∨ BusStep cfg s.daemon t.daemon l := by
  cases l with
  | connect name =>
    simp only [step, Option.ite_none_right_eq_some, Option.some.injEq] at h
    obtain ⟨_, rfl⟩ := h
    exact .inr (BusStep.send (s.setHigh _ _) _ _)
  | disconnect name =>
    simp only [step, Option.ite_none_right_eq_some, Option.some.injEq] at h
    obtain ⟨_, rfl⟩ := h
    exact .inr (BusStep.send (s.setHigh _ _) _ _)
  | nameOwnerChanged name oldOwner newOwner =>
    simp only [step, Option.ite_none_left_eq_some, Option.some.injEq] at h
    obtain ⟨_, rfl⟩ := h
    exact .inr (BusStep.send s _ _)
  | high name l =>
    simp only [step, Option.ite_none_right_eq_some, Option.map_eq_some_iff] at h
    obtain ⟨_, p, _, rfl⟩ := h
    exact .inl rfl
  | call name =>
    simp only [step] at h
    split at h
    · simp only [Option.ite_none_right_eq_some, Option.some.injEq] at h
      obtain ⟨_, rfl⟩ := h
      exact .inr (BusStep.send (s.setHigh _ _) _ _)
    · cases h
  | callReturn name =>
    simp only [step, Option.ite_none_right_eq_some, Option.map_eq_some_iff] at h
    obtain ⟨_, p, _, rfl⟩ := h
    exact .inl rfl
  | process =>
    simp only [step] at h
    split at h
    · obtain ⟨d, hd, rfl⟩ := Option.map_eq_some_iff.mp h
      exact .inr ⟨.process, (by intro h; cases h), (by intro c h; cases h), hd⟩
    · cases h
  | idle => exact .inr (.of_map (fun _ => rfl) (by intro c h; cases h) h)
  | wake => exact .inr (.of_map (by intro h; cases h) (by intro c h; cases h) h)
  | addMatch c =>
    exact .inr (.of_map (b := .addMatch c) (by intro h; cases h) (by intro c h; cases h; rfl) h)
  | callGetConfig c => exact .inr (.of_map (by intro h; cases h) (by intro c h; cases h) h)
  | receive c =>
    obtain ⟨d, hd, h⟩ := Option.bind_eq_some_iff.mp h
    have hstep : BusStep cfg s.daemon d (.receive c) :=
      ⟨.receive c, (by intro h; cases h), (by intro c h; cases h), hd⟩
    split at h
    · obtain ⟨p, _, rfl⟩ := Option.map_eq_some_iff.mp h
      exact .inr hstep
    · cases h
      exact .inr hstep
    · cases h
      exact .inr hstep
  | low c l =>
    simp only [step, Option.ite_none_right_eq_some, Option.map_eq_some_iff] at h
    obtain ⟨_, p, _, rfl⟩ := h
    exact .inl rfl

/-- The daemon and its channels, seen alone, are as in `RunLevel`. -/
theorem daemon_reachable (hs : (machine cfg).ReachableBy Regular s) :
    (RunLevel.machine cfg).ReachableBy RunLevel.NoStaleReply s.daemon := by
  refine Machine.ReachableBy.map State.daemon (fun s h => ?_) (fun s l t _ hc h => ?_) hs
  · rw [show s = State.init from h]
    rfl
  · rcases daemon_of_step h with hd | ⟨l', hl, _, hd⟩
    · exact .inl hd
    · exact .inr ⟨l', fun hidle => hc.reply (hl hidle) rfl, hd⟩

/-! ## Who takes part -/

/-- The process that comes. -/
def Label.connecting : Label → Option String
  | .connect name => some name
  | _ => none

/-- The client that comes. -/
def Label.matching : Label → Option Nat
  | .addMatch c => some c
  | _ => none

/-- The connected processes and the clients that can get messages. -/
structure Within (N : Finset String) (C : Finset Nat) (s : State) : Prop where
  high : ∀ name, (s.high name).conn = .connected → name ∈ N
  client : ∀ c, (s.daemon.client c).phase ≠ .notStarted → c ∈ C

/-- Only `connect` connects a process. -/
theorem conn_of_step {l : Label} (h : step cfg s l = some t)
    (hc : (t.high name).conn = .connected) :
    (s.high name).conn = .connected ∨ l = .connect name := by
  have hset : ∀ (n : String) (p : HighProc), p.conn = (s.high n).conn →
      (Function.update s.high n p name).conn = .connected → (s.high name).conn = .connected := by
    intro n p hp hconn
    by_cases hn : name = n
    · subst hn
      rw [Function.update_self, hp] at hconn
      exact hconn
    · rw [Function.update_of_ne hn] at hconn
      exact hconn
  cases l with
  | connect n =>
    simp only [step, Option.ite_none_right_eq_some, Option.some.injEq] at h
    obtain ⟨_, rfl⟩ := h
    by_cases hn : name = n
    · exact .inr (by rw [hn])
    · simp only [State.send, State.setHigh, Function.update_of_ne hn] at hc
      exact .inl hc
  | disconnect n =>
    simp only [step, Option.ite_none_right_eq_some, Option.some.injEq] at h
    obtain ⟨_, rfl⟩ := h
    by_cases hn : name = n
    · subst hn
      simp only [State.send, State.setHigh, Function.update_self] at hc
      cases hc
    · simp only [State.send, State.setHigh, Function.update_of_ne hn] at hc
      exact .inl hc
  | nameOwnerChanged n oldOwner newOwner =>
    simp only [step, Option.ite_none_left_eq_some, Option.some.injEq] at h
    obtain ⟨_, rfl⟩ := h
    exact .inl hc
  | high n l =>
    simp only [step, Option.ite_none_right_eq_some, Option.map_eq_some_iff] at h
    obtain ⟨_, p, _, rfl⟩ := h
    refine .inl (hset n _ ?_ hc)
    rfl
  | call n =>
    simp only [step] at h
    split at h
    · simp only [Option.ite_none_right_eq_some, Option.some.injEq] at h
      obtain ⟨_, rfl⟩ := h
      refine .inl (hset n _ ?_ hc)
      rfl
    · cases h
  | callReturn n =>
    simp only [step, Option.ite_none_right_eq_some, Option.map_eq_some_iff] at h
    obtain ⟨_, p, _, rfl⟩ := h
    refine .inl (hset n _ ?_ hc)
    rfl
  | process =>
    simp only [step] at h
    split at h
    · obtain ⟨d, _, rfl⟩ := Option.map_eq_some_iff.mp h
      simp only [State.answer] at hc
      split at hc
      · split at hc
        · refine .inl (hset _ _ ?_ hc)
          rfl
        · exact .inl hc
      · exact .inl hc
    · cases h
  | idle =>
    obtain ⟨d, _, rfl⟩ := Option.map_eq_some_iff.mp h
    exact .inl hc
  | wake =>
    obtain ⟨d, _, rfl⟩ := Option.map_eq_some_iff.mp h
    exact .inl hc
  | addMatch c =>
    obtain ⟨d, _, rfl⟩ := Option.map_eq_some_iff.mp h
    exact .inl hc
  | callGetConfig c =>
    obtain ⟨d, _, rfl⟩ := Option.map_eq_some_iff.mp h
    exact .inl hc
  | receive c =>
    obtain ⟨d, _, h⟩ := Option.bind_eq_some_iff.mp h
    split at h
    · obtain ⟨p, _, rfl⟩ := Option.map_eq_some_iff.mp h
      exact .inl hc
    · cases h
      exact .inl hc
    · cases h
      exact .inl hc
  | low c l =>
    simp only [step, Option.ite_none_right_eq_some, Option.map_eq_some_iff] at h
    obtain ⟨_, p, _, rfl⟩ := h
    exact .inl hc

/-- Only adding the match starts a client. -/
theorem phase_of_step {d d' : RunLevel.State} {l : RunLevel.Label}
    (h : RunLevel.step cfg d l = some d') {c : Nat} (hl : l ≠ .addMatch c)
    (hc : (d.client c).phase = .notStarted) : (d'.client c).phase = .notStarted := by
  have hupdate : ∀ (c' : Nat) (x : RunLevel.Client), (d.client c').phase ≠ .notStarted →
      (Function.update d.client c' x c).phase = .notStarted := by
    intro c' x hx
    rw [Function.update_of_ne (fun he : c = c' => hx (he ▸ hc))]
    exact hc
  cases l with
  | send m =>
    cases h
    exact hc
  | addMatch c' =>
    simp only [RunLevel.step, Option.ite_none_right_eq_some, Option.some.injEq] at h
    obtain ⟨_, rfl⟩ := h
    simp only [Function.update_of_ne (fun he : c = c' => hl (he ▸ rfl))]
    exact hc
  | callGetConfig c' =>
    simp only [RunLevel.step, Option.ite_none_right_eq_some, Option.some.injEq] at h
    obtain ⟨hp, rfl⟩ := h
    exact hupdate c' _ (by rw [hp]; decide)
  | receive c' =>
    simp only [RunLevel.step, Option.map_eq_some_iff] at h
    obtain ⟨x, hx, rfl⟩ := h
    refine hupdate c' x (fun hp => ?_)
    simp only [RunLevel.Client.receive, hp] at hx
    cases hx
  | process =>
    simp only [RunLevel.step] at h
    split at h
    · rename_i m rest _ _
      cases h
      cases m with
      | task m => exact hc
      | getConfig c' =>
        simp only [RunLevel.processMsg]
        by_cases he : c = c'
        · subst he
          rw [Function.update_self]
          exact hc
        · rw [Function.update_of_ne he]
          exact hc
    · cases h
  | idle =>
    simp only [RunLevel.step, Option.ite_none_right_eq_some, Option.some.injEq] at h
    obtain ⟨_, rfl⟩ := h
    unfold RunLevel.endBatch RunLevel.Client.signal
    simp only
    split
    · simp only [hc, if_true]
    · exact hc
  | wake =>
    simp only [RunLevel.step, Option.ite_none_right_eq_some, Option.some.injEq] at h
    obtain ⟨_, rfl⟩ := h
    exact hc

namespace Within
variable {N N' : Finset String} {C C' : Finset Nat}

theorem init : Within N C State.init where
  high := by intro name hc; cases hc
  client c hc := absurd rfl hc

theorem mono (h : Within N C s) (hN : N ⊆ N') (hC : C ⊆ C') : Within N' C' s where
  high name hc := hN (h.high name hc)
  client c hc := hC (h.client c hc)

theorem step (h : Within N C s) {l : Label} (hs : step cfg s l = some t)
    (hconn : ∀ name, l = .connect name → name ∈ N) (hmatch : ∀ c, l = .addMatch c → c ∈ C) :
    Within N C t where
  high name hc := (conn_of_step hs hc).elim (h.high name) (hconn name)
  client c hc := by
    by_cases hl : l = .addMatch c
    · exact hmatch c hl
    · refine h.client c (fun hp => hc ?_)
      rcases daemon_of_step hs with hd | ⟨l', _, hm, hd⟩
      · rw [hd]
        exact hp
      · exact phase_of_step hd (fun hl' => hl (hm c hl')) hp

theorem run (h : Within N C s) {ls : List Label} (hs : (machine cfg).run s ls = some t)
    (hconn : ∀ name, .connect name ∈ ls → name ∈ N) (hmatch : ∀ c, .addMatch c ∈ ls → c ∈ C) :
    Within N C t := by
  induction ls generalizing s with
  | nil =>
    rw [Machine.run_nil, Option.some.injEq] at hs
    exact hs ▸ h
  | cons l ls ih =>
    rw [Machine.run_cons] at hs
    obtain ⟨u, hu, ht⟩ := Option.bind_eq_some_iff.mp hs
    have hstep : Within N C u := h.step hu (fun name hl => hconn name (hl ▸ List.mem_cons_self))
      (fun c hl => hmatch c (hl ▸ List.mem_cons_self))
    exact ih hstep ht (fun name hl => hconn name (List.mem_cons_of_mem l hl))
      (fun c hl => hmatch c (List.mem_cons_of_mem l hl))

/-- A reachable state has finitely many processes and clients. -/
theorem exists_of_reachable (hs : (machine cfg).Reachable s) : ∃ N C, Within N C s := by
  obtain ⟨s₀, ls, h0, hrun⟩ := hs.exists_run
  obtain rfl : s₀ = State.init := h0
  refine ⟨(ls.filterMap Label.connecting).toFinset, (ls.filterMap Label.matching).toFinset, ?_⟩
  refine init.run hrun (fun name hl => ?_) (fun c hl => ?_)
  · exact List.mem_toFinset.mpr (List.mem_filterMap.mpr ⟨_, hl, rfl⟩)
  · exact List.mem_toFinset.mpr (List.mem_filterMap.mpr ⟨_, hl, rfl⟩)

end Within

end System
end Clpkm
