import Clpkm.Machine
import Clpkm.Daemon

/-!
# Run levels between the daemon and its low-priority clients

A low-priority process learns the daemon's `GlobalBitmap` twice: once in the answer
to `GetConfig`, when it starts, and then from every `RunLevelChanged` signal.  The
daemon emits a signal only at the end of a batch of input, and only when the bitmap
differs from the one it emitted last (`Bitmap` in `main`).

The model keeps, for every client, everything the daemon ever sent to it and how
much of that the client took off the bus: a channel that loses nothing and keeps the
order.  `StartBus` adds the match first, so that signals reach the client from then
on, and then calls `GetConfig`; `sd_bus_call_method` puts the signals that arrive
before the reply aside and they are handled after it.

The answer to `GetConfig` is the bitmap of the moment, not the one emitted last.  A
batch that answers `GetConfig` while the two differ and then ends with the old value
back emits nothing, and the new client keeps the value nobody will correct
(`not_converged`).  When no batch ends so (`NoStaleReply`), every settled state is
converged (`converged_of_noStaleReply`).
-/

namespace Clpkm
namespace RunLevel

/-- The reply of `GetConfig`: compiler path, threshold and global bitmap. -/
abbrev ConfigReply := String × BitVec 64 × TaskBitmap

/-- What the daemon sends to a low-priority client. -/
inductive ToClient
  | configReply (r : ConfigReply)
  | runLevelChanged (bitmap : TaskBitmap)
  deriving DecidableEq, Repr

/-- What reaches the daemon over the bus. -/
inductive ToDaemon
  | task (m : DaemonMsg)
  | getConfig (client : Nat)
  deriving DecidableEq, Repr

/-- How far a client got in `ScheduleService::StartBus`. -/
inductive Phase
  /-- the match for `RunLevelChanged` is not added yet -/
  | notStarted
  /-- the match is added -/
  | matched
  /-- inside `sd_bus_call_method`, waiting for the reply of `GetConfig` -/
  | calling
  /-- `LowPrioProcWorker` handles the bus -/
  | running
  deriving DecidableEq, Repr

/-- A low-priority client and the daemon's channel to it. -/
structure Client where
  phase : Phase
  /-- `ScheduleService::Bitmap` -/
  bitmap : TaskBitmap
  /-- everything the daemon sent to this client, in order -/
  sent : List ToClient
  /-- how many messages of `sent` the client took off the bus -/
  taken : Nat
  /-- the signals put aside while waiting for the reply -/
  rqueue : List TaskBitmap
  deriving DecidableEq, Repr

/-- Where the daemon is in its main loop. -/
inductive Loop
  /-- calling `sd_bus_process` until it returns 0 -/
  | processing
  /-- in `sd_bus_wait` -/
  | waiting
  deriving DecidableEq, Repr

/-- The daemon, its input and its clients. -/
structure State where
  task : Task
  /-- `Bitmap` of `main`: the value emitted last -/
  bitmap : TaskBitmap
  loop : Loop
  inbox : List ToDaemon
  client : Nat → Client

/-- The choices of the environment. -/
inductive Label
  /-- a request of a high-priority process or a name change reaches the daemon -/
  | send (m : DaemonMsg)
  /-- a client adds its match -/
  | addMatch (c : Nat)
  /-- a client calls `GetConfig` -/
  | callGetConfig (c : Nat)
  /-- a client handles one message -/
  | receive (c : Nat)
  /-- `sd_bus_process` handles one message -/
  | process
  /-- `sd_bus_process` returned 0 -/
  | idle
  /-- `sd_bus_wait` returns -/
  | wake
  deriving DecidableEq, Repr

/-- A client before `StartBus`. -/
def Client.init : Client := ⟨.notStarted, 0#32, [], 0, []⟩

/-- The daemon right before its main loop. -/
def State.init : State := ⟨Task.init, 0#32, .processing, [], fun _ => Client.init⟩

namespace Client

/-- The daemon sends a message to the client. -/
def deliver (c : Client) (m : ToClient) : Client := { c with sent := c.sent ++ [m] }

/-- A signal reaches the clients whose match is added. -/
def signal (c : Client) (b : TaskBitmap) : Client :=
  if c.phase = .notStarted then c else c.deliver (.runLevelChanged b)

/-- The client handles one message.  While it waits for the reply it takes messages
off the bus and puts the signals aside; afterwards `sd_bus_process` serves the
signals put aside first. -/
def receive (c : Client) : Option Client :=
  match c.phase with
  | .notStarted | .matched => none
  | .calling =>
    match c.sent[c.taken]? with
    | some (.runLevelChanged b) => some { c with taken := c.taken + 1, rqueue := c.rqueue ++ [b] }
    | some (.configReply r) =>
      some { c with taken := c.taken + 1, phase := .running, bitmap := r.2.2 }
    | none => none
  | .running =>
    match c.rqueue with
    | b :: rest => some { c with rqueue := rest, bitmap := b }
    | [] =>
      match c.sent[c.taken]? with
      | some (.runLevelChanged b) => some { c with taken := c.taken + 1, bitmap := b }
      | some (.configReply _) => some { c with taken := c.taken + 1 }
      | none => none

theorem receive_sent {c c' : Client} (h : c.receive = some c') : c'.sent = c.sent := by
  unfold receive at h
  split at h
  · cases h
  · cases h
  · split at h <;> cases h <;> rfl
  · split at h
    · cases h; rfl
    · split at h <;> cases h <;> rfl

/-- The client has called `GetConfig`. -/
def Asked (c : Client) : Prop := c.phase = .calling ∨ c.phase = .running

instance (c : Client) : Decidable c.Asked := inferInstanceAs (Decidable (_ ∨ _))

/-- The client has handled everything delivered to it. -/
def Drained (c : Client) : Prop := c.taken = c.sent.length ∧ c.rqueue = []

end Client

variable (cfg : GblConfig)

/-- `sd_bus_process` on one message. -/
def processMsg (s : State) : ToDaemon → State
  | .task m => { s with task := s.task.handle m }
  | .getConfig c =>
    let reply := ToClient.configReply (s.task.getConfig cfg)
    { s with client := Function.update s.client c ((s.client c).deliver reply) }

/-- The end of a batch: emit the bitmap if it changed, then wait. -/
def endBatch (s : State) : State :=
  let newBitmap := s.task.globalBitmap
  if s.bitmap ≠ newBitmap then
    { s with
      bitmap := newBitmap
      client := fun c => (s.client c).signal newBitmap
      loop := .waiting }
  else { s with loop := .waiting }

/-- One step of the daemon, of a client or of the bus. -/
def step (s : State) : Label → Option State
  | .send m => some { s with inbox := s.inbox ++ [.task m] }
  | .addMatch c =>
    if (s.client c).phase = .notStarted then
      some { s with client := Function.update s.client c { s.client c with phase := .matched } }
    else none
  | .callGetConfig c =>
    if (s.client c).phase = .matched then
      some { s with
        client := Function.update s.client c { s.client c with phase := .calling }
        inbox := s.inbox ++ [.getConfig c] }
    else none
  | .receive c =>
    (s.client c).receive.map fun c' => { s with client := Function.update s.client c c' }
  | .process =>
    match s.loop, s.inbox with
    | .processing, m :: rest => some (processMsg cfg { s with inbox := rest } m)
    | _, _ => none
  | .idle => if s.loop = .processing ∧ s.inbox = [] then some (endBatch s) else none
  | .wake => if s.loop = .waiting then some { s with loop := .processing } else none

/-- The daemon and its clients as a machine. -/
def machine : Machine State Label := ⟨(· = State.init), step cfg⟩

/-- The daemon has processed all its input and waits, and every client that called
`GetConfig` has handled everything delivered to it. -/
def Settled (s : State) : Prop :=
  s.loop = .waiting ∧ s.inbox = [] ∧ ∀ c, (s.client c).Asked → (s.client c).Drained

/-- Every client that called `GetConfig` holds the daemon's global bitmap. -/
def Converged (s : State) : Prop :=
  ∀ c, (s.client c).Asked → (s.client c).bitmap = s.task.globalBitmap

/-! ## What a client knows -/

/-- The bitmaps of the signals in a list of messages. -/
def sigs (l : List ToClient) : List TaskBitmap :=
  l.filterMap fun
    | .runLevelChanged b => some b
    | .configReply _ => none

/-- The replies in a list of messages. -/
def replies (l : List ToClient) : List ConfigReply :=
  l.filterMap fun
    | .runLevelChanged _ => none
    | .configReply r => some r

@[simp] theorem sigs_nil : sigs [] = [] := rfl

@[simp] theorem sigs_append (l l' : List ToClient) : sigs (l ++ l') = sigs l ++ sigs l' :=
  List.filterMap_append

@[simp] theorem sigs_signal (b : TaskBitmap) : sigs [.runLevelChanged b] = [b] := rfl

@[simp] theorem sigs_reply (r : ConfigReply) : sigs [.configReply r] = [] := rfl

@[simp] theorem replies_nil : replies [] = [] := rfl

@[simp] theorem replies_append (l l' : List ToClient) :
    replies (l ++ l') = replies l ++ replies l' :=
  List.filterMap_append

@[simp] theorem replies_signal (b : TaskBitmap) : replies [.runLevelChanged b] = [] := rfl

@[simp] theorem replies_reply (r : ConfigReply) : replies [.configReply r] = [r] := rfl

theorem eq_reply_of_sigs_nil {l : List ToClient} {r : ConfigReply} (hs : sigs l = [])
    (hr : replies l = [r]) : l = [.configReply r] := by
  have hall : ∀ l, sigs l = [] → l = (replies l).map ToClient.configReply := by
    intro l h
    induction l with
    | nil => rfl
    | cons m l ih =>
      cases m with
      | configReply r => exact congrArg (ToClient.configReply r :: ·) (ih h)
      | runLevelChanged b => cases h
  rw [hall l hs, hr]
  rfl

/-- The value a client ends with once it has handled everything sent to it: the last
signal, or else the reply. -/
def finalValue (l : List ToClient) (r : ConfigReply) : TaskBitmap :=
  ((sigs l).getLast?).getD r.2.2

theorem finalValue_signal (l : List ToClient) (r : ConfigReply) (b : TaskBitmap) :
    finalValue (l ++ [.runLevelChanged b]) r = b := by
  simp [finalValue]

namespace Client

/-- The signals the client still has to handle. -/
def ahead (c : Client) : List TaskBitmap := c.rqueue ++ sigs (c.sent.drop c.taken)

/-- What is always true of a client when the daemon emitted `bitmap` last and
`pending` of the client's calls of `GetConfig` wait in the daemon's input. -/
structure Ok (bitmap : TaskBitmap) (pending : Nat) (c : Client) : Prop where
  taken_le : c.taken ≤ c.sent.length
  /-- The last signal carried the bitmap emitted last. -/
  last : ∀ b, (sigs c.sent).getLast? = some b → b = bitmap
  notStarted : c.phase = .notStarted → c.sent = []
  /-- A client that has not called `GetConfig` took nothing and gets no reply. -/
  early : ¬ c.Asked → replies c.sent = [] ∧ c.taken = 0 ∧ c.rqueue = [] ∧ pending = 0
  /-- A call is answered once, and a client that waits for the answer has put aside
  the signals before it. -/
  calling : c.phase = .calling → pending + (replies c.sent).length = 1 ∧
    replies (c.sent.take c.taken) = [] ∧ c.rqueue = sigs (c.sent.take c.taken)
  /-- A running client will hold the final value once it has handled the rest. -/
  running : c.phase = .running → pending = 0 ∧ replies (c.sent.drop c.taken) = [] ∧
    ∃ r, replies c.sent = [r] ∧ (c.ahead.getLast?).getD c.bitmap = finalValue c.sent r

theorem ok_init (bitmap : TaskBitmap) : Client.init.Ok bitmap 0 where
  taken_le := Nat.le_refl 0
  last := by intro b h; cases h
  notStarted _ := rfl
  early _ := ⟨rfl, rfl, rfl, rfl⟩
  calling := by intro h; cases h
  running := by intro h; cases h

variable {c : Client} {bitmap : TaskBitmap} {pending : Nat}

theorem not_asked_of_notStarted (h : c.phase = .notStarted) : ¬ c.Asked := by
  rintro (h' | h') <;> rw [h] at h' <;> cases h'

theorem not_asked_of_matched (h : c.phase = .matched) : ¬ c.Asked := by
  rintro (h' | h') <;> rw [h] at h' <;> cases h'

/-- Adding the match. -/
theorem Ok.addMatch (h : c.Ok bitmap pending) (hp : c.phase = .notStarted) :
    Ok bitmap pending { c with phase := .matched } where
  taken_le := h.taken_le
  last := h.last
  notStarted := by intro hp'; cases hp'
  early _ := h.early (not_asked_of_notStarted hp)
  calling := by intro hp'; cases hp'
  running := by intro hp'; cases hp'

/-- Calling `GetConfig`. -/
theorem Ok.callGetConfig (h : c.Ok bitmap pending) (hp : c.phase = .matched) :
    Ok bitmap (pending + 1) { c with phase := .calling } where
  taken_le := h.taken_le
  last := h.last
  notStarted := by intro hp'; cases hp'
  early hn := absurd (Or.inl rfl) hn
  calling _ := by
    obtain ⟨hr, ht, hq, hpend⟩ := h.early (not_asked_of_matched hp)
    simp only [hr, ht, hq, hpend, List.length_nil, List.take_zero, replies_nil, sigs_nil,
      and_self]
  running := by intro hp'; cases hp'

/-- A new signal reaches the client. -/
theorem Ok.signal (h : c.Ok bitmap pending) (b : TaskBitmap) : (c.signal b).Ok b pending := by
  unfold Client.signal
  by_cases hp : c.phase = .notStarted
  · rw [if_pos hp]
    refine { h with last := ?_ }
    intro b' hb'
    rw [h.notStarted hp] at hb'
    cases hb'
  · rw [if_neg hp]
    have hle := h.taken_le
    have htake : (c.sent ++ [ToClient.runLevelChanged b]).take c.taken = c.sent.take c.taken :=
      List.take_append_of_le_length hle
    have hdrop : (c.sent ++ [ToClient.runLevelChanged b]).drop c.taken =
        c.sent.drop c.taken ++ [.runLevelChanged b] := List.drop_append_of_le_length hle
    refine ⟨?_, ?_, ?_, ?_, ?_, ?_⟩
    · simp only [deliver, List.length_append]
      omega
    · intro b' hb'
      simp only [deliver, sigs_append, sigs_signal, List.getLast?_append] at hb'
      exact (Option.some.inj hb').symm
    · intro hp'
      exact absurd hp' hp
    · intro hn
      simpa [deliver] using h.early hn
    · intro hp'
      simp only [deliver, htake, replies_append, replies_signal, List.append_nil]
      exact h.calling hp'
    · intro hp'
      obtain ⟨hpend, hr, r, hone, -⟩ := h.running hp'
      refine ⟨hpend, ?_, r, ?_, ?_⟩
      · simp only [deliver, hdrop, replies_append, replies_signal, hr, List.append_nil]
      · simp only [deliver, replies_append, replies_signal, hone, List.append_nil]
      · simp only [deliver, finalValue_signal, ahead, hdrop, sigs_append, sigs_signal,
          ← List.append_assoc, List.getLast?_concat, Option.getD_some]

/-- The daemon answers a call of the client. -/
theorem Ok.reply (h : c.Ok bitmap (pending + 1)) (r : ConfigReply) :
    (c.deliver (.configReply r)).Ok bitmap pending := by
  have hcalling : c.phase = .calling := by
    have hasked : c.Asked := by
      by_contra hn
      exact absurd (h.early hn).2.2.2 (Nat.succ_ne_zero _)
    rcases hasked with hp | hp
    · exact hp
    · exact absurd (h.running hp).1 (Nat.succ_ne_zero _)
  have hne : ∀ p, p ≠ Phase.calling → c.phase ≠ p := fun p hp he => hp (he ▸ hcalling)
  obtain ⟨hone, hr, hq⟩ := h.calling hcalling
  have htake : (c.sent ++ [ToClient.configReply r]).take c.taken = c.sent.take c.taken :=
    List.take_append_of_le_length h.taken_le
  refine ⟨?_, ?_, ?_, ?_, ?_, ?_⟩
  · have hle := h.taken_le
    simp only [deliver, List.length_append]
    omega
  · simpa [deliver] using h.last
  · intro hp
    exact absurd hp (hne _ (by decide))
  · intro hn
    exact absurd (Or.inl hcalling) hn
  · intro _
    simp only [deliver, htake, replies_append, replies_reply, List.length_append,
      List.length_singleton]
    exact ⟨by omega, hr, hq⟩
  · intro hp
    exact absurd hp (hne _ (by decide))

/-- Taking one message moves it from what is left to what was taken. -/
theorem take_drop_of_get {l : List ToClient} {n : Nat} {m : ToClient} (h : l[n]? = some m) :
    n < l.length ∧ l.take (n + 1) = l.take n ++ [m] ∧ l.drop n = m :: l.drop (n + 1) := by
  obtain ⟨hlt, hm⟩ := List.getElem?_eq_some_iff.mp h
  refine ⟨hlt, ?_, ?_⟩
  · rw [List.take_add_one, h]
    rfl
  · rw [← hm]
    exact List.drop_eq_getElem_cons hlt

/-- The client handles one message. -/
theorem Ok.receive (h : c.Ok bitmap pending) {c' : Client} (hc : c.receive = some c') :
    c'.Ok bitmap pending := by
  unfold Client.receive at hc
  cases hp : c.phase with
  | notStarted => rw [hp] at hc; cases hc
  | matched => rw [hp] at hc; cases hc
  | calling =>
    rw [hp] at hc
    obtain ⟨hone, hr, hq⟩ := h.calling hp
    cases hm : c.sent[c.taken]? with
    | none => simp only [hm] at hc; cases hc
    | some m =>
      obtain ⟨hlt, htake, hdrop⟩ := take_drop_of_get hm
      cases m with
      | runLevelChanged b =>
        simp only [hm, Option.some.injEq] at hc
        subst hc
        refine ⟨hlt, h.last, ?_, ?_, ?_, ?_⟩
        · intro hp'; cases hp'
        · intro hn; exact absurd (Or.inl rfl) hn
        · intro _
          simp only [htake, replies_append, replies_signal, sigs_append, sigs_signal, hr, hq]
          exact ⟨hone, rfl, trivial⟩
        · intro hp'; cases hp'
      | configReply r =>
        simp only [hm, Option.some.injEq] at hc
        subst hc
        -- the reply is the only one: nothing but signals is left
        have hsplit : replies c.sent = r :: replies (c.sent.drop (c.taken + 1)) := by
          conv_lhs => rw [← List.take_append_drop c.taken c.sent]
          rw [replies_append, hr, hdrop]
          rfl
        have hlen : pending = 0 ∧ replies (c.sent.drop (c.taken + 1)) = [] := by
          rw [hsplit, List.length_cons] at hone
          exact ⟨by omega, List.length_eq_zero_iff.mp (by omega)⟩
        refine ⟨hlt, h.last, ?_, ?_, ?_, ?_⟩
        · intro hp'; cases hp'
        · intro hn; exact absurd (Or.inr rfl) hn
        · intro hp'; cases hp'
        · intro _
          refine ⟨hlen.1, hlen.2, r, by rw [hsplit, hlen.2], ?_⟩
          have hsigs : sigs c.sent = c.rqueue ++ sigs (c.sent.drop (c.taken + 1)) := by
            conv_lhs => rw [← List.take_append_drop (c.taken + 1) c.sent]
            rw [sigs_append, htake, sigs_append, sigs_reply, List.append_nil, hq]
          simp only [ahead, finalValue, hsigs]
  | running =>
    rw [hp] at hc
    obtain ⟨hpend, hr, r, hone, hval⟩ := h.running hp
    cases hq : c.rqueue with
    | cons b rest =>
      simp only [hq, Option.some.injEq] at hc
      subst hc
      refine ⟨h.taken_le, h.last, ?_, fun hn => absurd (Or.inr rfl) hn, ?_, ?_⟩
      · intro hp'; cases hp'
      · intro hp'; cases hp'
      intro _
      refine ⟨hpend, hr, r, hone, ?_⟩
      rw [← hval]
      simp only [ahead, hq, List.cons_append, List.getLast?_cons, Option.getD_some]
    | nil =>
      cases hm : c.sent[c.taken]? with
      | none => simp only [hq, hm] at hc; cases hc
      | some m =>
        obtain ⟨hlt, htake, hdrop⟩ := take_drop_of_get hm
        cases m with
        | configReply r' =>
          rw [hdrop] at hr
          cases hr
        | runLevelChanged b =>
          simp only [hq, hm, Option.some.injEq] at hc
          subst hc
          refine ⟨hlt, h.last, ?_, fun hn => absurd (Or.inr rfl) hn, ?_, ?_⟩
          · intro hp'; cases hp'
          · intro hp'; cases hp'
          intro _
          have hsigs : sigs (c.sent.drop c.taken) = b :: sigs (c.sent.drop (c.taken + 1)) := by
            rw [hdrop]
            rfl
          refine ⟨hpend, ?_, r, hone, ?_⟩
          · rw [hdrop] at hr
            exact hr
          · rw [← hval]
            simp only [ahead, hq, hsigs, List.nil_append, List.getLast?_cons, Option.getD_some]

end Client

/-! ## Convergence -/

/-- No batch ends without a signal while some client has been sent nothing but the
answer of its `GetConfig`, and that with another value. -/
def NoStaleReply (s : State) (l : Label) : Prop :=
  l = .idle → s.task.globalBitmap = s.bitmap →
    ∀ c r, (s.client c).sent = [.configReply r] → r.2.2 = s.bitmap

/-- Every client is as its messages say. -/
def ClientsOk (s : State) : Prop :=
  ∀ c, (s.client c).Ok s.bitmap (s.inbox.count (.getConfig c))

/-- Every answered client will end with the bitmap emitted last. -/
def Answered (s : State) : Prop :=
  ∀ c r, replies (s.client c).sent = [r] → finalValue (s.client c).sent r = s.bitmap

/-- The invariant of the daemon and its clients. -/
structure Inv (s : State) : Prop where
  ok : ClientsOk s
  /-- A waiting daemon has emitted its global bitmap, and every answered client will
  end with it. -/
  waiting : s.loop = .waiting → s.bitmap = s.task.globalBitmap ∧ Answered s

variable {cfg} {s t : State}

/-! ### The clients -/

namespace ClientsOk

theorem init : ClientsOk State.init := fun _ => Client.ok_init _

/-- A step of one client. -/
theorem updateClient (h : ClientsOk s) {c : Nat} {c' : Client} {inbox : List ToDaemon}
    (hok : c'.Ok s.bitmap (inbox.count (.getConfig c)))
    (hother : ∀ d, d ≠ c → inbox.count (.getConfig d) = s.inbox.count (.getConfig d)) :
    ClientsOk { s with client := Function.update s.client c c', inbox := inbox } := by
  intro d
  by_cases hd : d = c
  · subst hd
    simpa using hok
  · simp only [Function.update_of_ne hd, hother d hd]
    exact h d

/-- The daemon handles one message. -/
theorem processMsg (h : ClientsOk s) {m : ToDaemon} {rest : List ToDaemon}
    (hin : s.inbox = m :: rest) : ClientsOk (processMsg cfg { s with inbox := rest } m) := by
  cases m with
  | task m =>
    intro c
    have hok := h c
    rw [hin, List.count_cons_of_ne (by simp)] at hok
    exact hok
  | getConfig c =>
    intro d
    have hok := h d
    rw [hin] at hok
    by_cases hd : d = c
    · subst hd
      rw [List.count_cons_self] at hok
      simpa [RunLevel.processMsg] using hok.reply _
    · rw [List.count_cons_of_ne (by simpa using Ne.symm hd)] at hok
      simpa [RunLevel.processMsg, Function.update_of_ne hd] using hok

/-- The end of a batch. -/
theorem endBatch (h : ClientsOk s) : ClientsOk (endBatch s) := by
  unfold RunLevel.endBatch
  simp only
  split
  · exact fun c => (h c).signal _
  · exact h

/-- **Step.**  Every step keeps what is true of the clients. -/
theorem step (h : ClientsOk s) {l : Label} (hs : step cfg s l = some t) : ClientsOk t := by
  cases l with
  | send m =>
    cases hs
    intro c
    have hcount : (s.inbox ++ [ToDaemon.task m]).count (.getConfig c) =
        s.inbox.count (.getConfig c) := by
      rw [List.count_append, List.count_singleton]
      simp
    simp only [hcount]
    exact h c
  | addMatch c =>
    simp only [RunLevel.step, Option.ite_none_right_eq_some, Option.some.injEq] at hs
    obtain ⟨hp, rfl⟩ := hs
    exact h.updateClient ((h c).addMatch hp) (fun _ _ => rfl)
  | callGetConfig c =>
    simp only [RunLevel.step, Option.ite_none_right_eq_some, Option.some.injEq] at hs
    obtain ⟨hp, rfl⟩ := hs
    refine h.updateClient ?_ (fun d hd => ?_)
    · rw [List.count_append, List.count_singleton_self]
      exact (h c).callGetConfig hp
    · rw [List.count_append, List.count_singleton]
      simp [Ne.symm hd]
  | receive c =>
    simp only [RunLevel.step, Option.map_eq_some_iff] at hs
    obtain ⟨c', hc', rfl⟩ := hs
    exact h.updateClient ((h c).receive hc') (fun _ _ => rfl)
  | process =>
    simp only [RunLevel.step] at hs
    split at hs
    · rename_i m rest _ hin
      cases hs
      exact h.processMsg hin
    · cases hs
  | idle =>
    simp only [RunLevel.step, Option.ite_none_right_eq_some, Option.some.injEq] at hs
    obtain ⟨_, rfl⟩ := hs
    exact h.endBatch
  | wake =>
    simp only [RunLevel.step, Option.ite_none_right_eq_some, Option.some.injEq] at hs
    obtain ⟨_, rfl⟩ := hs
    exact h

end ClientsOk

/-! ### The daemon -/

theorem inv_init : Inv State.init where
  ok := .init
  waiting := by intro h; cases h

/-- The end of a batch brings every answered client up to date. -/
theorem Inv.endBatch (h : Inv s) (hc : NoStaleReply s .idle) :
    (endBatch s).bitmap = (endBatch s).task.globalBitmap ∧ Answered (endBatch s) := by
  unfold RunLevel.endBatch
  by_cases hb : s.bitmap = s.task.globalBitmap
  · rw [if_neg (not_not.mpr hb)]
    refine ⟨hb, fun c r hr => ?_⟩
    simp only at hr ⊢
    -- a client that got no signal only has its answer, which the condition is about
    cases hl : (sigs (s.client c).sent).getLast? with
    | none =>
      have hsent := eq_reply_of_sigs_nil (List.getLast?_eq_none_iff.mp hl) hr
      rw [finalValue, hl]
      exact hc rfl hb.symm c r hsent
    | some b =>
      rw [finalValue, hl]
      exact (h.ok c).last b hl
  · rw [if_pos hb]
    refine ⟨rfl, fun c r hr => ?_⟩
    simp only [Client.signal] at hr ⊢
    by_cases hp : (s.client c).phase = .notStarted
    · rw [if_pos hp, (h.ok c).notStarted hp] at hr
      cases hr
    · rw [if_neg hp]
      exact finalValue_signal _ _ _

/-- A step of one client that leaves what was sent to it alone. -/
theorem Answered.updateClient (h : Answered s) {c : Nat} {c' : Client} {inbox : List ToDaemon}
    (hsent : c'.sent = (s.client c).sent) :
    Answered { s with client := Function.update s.client c c', inbox := inbox } := by
  intro d r hr
  by_cases hd : d = c
  · subst hd
    simp only [Function.update_self, hsent] at hr ⊢
    exact h d r hr
  · simp only [Function.update_of_ne hd] at hr ⊢
    exact h d r hr

/-- **Step.**  Every step that meets the condition keeps the invariant. -/
theorem Inv.step (h : Inv s) {l : Label} (hc : NoStaleReply s l) (hs : step cfg s l = some t) :
    Inv t := by
  refine ⟨h.ok.step hs, fun hw => ?_⟩
  cases l with
  | send m =>
    cases hs
    exact h.waiting hw
  | addMatch c =>
    simp only [RunLevel.step, Option.ite_none_right_eq_some, Option.some.injEq] at hs
    obtain ⟨_, rfl⟩ := hs
    exact ⟨(h.waiting hw).1, (h.waiting hw).2.updateClient rfl⟩
  | callGetConfig c =>
    simp only [RunLevel.step, Option.ite_none_right_eq_some, Option.some.injEq] at hs
    obtain ⟨_, rfl⟩ := hs
    exact ⟨(h.waiting hw).1, (h.waiting hw).2.updateClient rfl⟩
  | receive c =>
    simp only [RunLevel.step, Option.map_eq_some_iff] at hs
    obtain ⟨c', hc', rfl⟩ := hs
    exact ⟨(h.waiting hw).1, (h.waiting hw).2.updateClient (Client.receive_sent hc')⟩
  | process =>
    simp only [RunLevel.step] at hs
    split at hs
    · rename_i m rest hl _
      cases hs
      -- the daemon is not waiting while it handles its input
      cases m <;> cases hl.symm.trans hw
    · cases hs
  | idle =>
    simp only [RunLevel.step, Option.ite_none_right_eq_some, Option.some.injEq] at hs
    obtain ⟨_, rfl⟩ := hs
    exact h.endBatch hc
  | wake =>
    simp only [RunLevel.step, Option.ite_none_right_eq_some, Option.some.injEq] at hs
    obtain ⟨_, rfl⟩ := hs
    cases hw

theorem inv_of_reachableBy (hs : (machine cfg).ReachableBy NoStaleReply s) : Inv s :=
  hs.invariant (fun _ h => h ▸ inv_init) (fun _ _ _ h hc hstep => h.step hc hstep)

/-- A drained client that was answered holds the final value. -/
theorem Inv.bitmap_of_drained (h : Inv s) (hin : s.inbox = []) {c : Nat}
    (hasked : (s.client c).Asked) (hd : (s.client c).Drained) :
    ∃ r, replies (s.client c).sent = [r] ∧
      (s.client c).bitmap = finalValue (s.client c).sent r := by
  have hok := h.ok c
  rw [hin] at hok
  obtain ⟨htaken, hq⟩ := hd
  rcases hasked with hp | hp
  · obtain ⟨hone, hr, _⟩ := hok.calling hp
    rw [htaken, List.take_length] at hr
    rw [hr] at hone
    cases hone
  · obtain ⟨_, _, r, hone, hval⟩ := hok.running hp
    refine ⟨r, hone, ?_⟩
    rw [← hval, Client.ahead, hq, htaken, List.drop_length]
    rfl

/-- **Convergence.**  In every run none of whose batches ends with a stale reply,
whenever the daemon waits with no input left and every client has handled what it
was sent, every client that called `GetConfig` holds the global bitmap. -/
theorem converged_of_noStaleReply (cfg : GblConfig) (s : State)
    (hs : (machine cfg).ReachableBy NoStaleReply s) (hsettled : Settled s) : Converged s := by
  obtain ⟨hloop, hin, hdrained⟩ := hsettled
  have h := inv_of_reachableBy hs
  obtain ⟨hb, hall⟩ := h.waiting hloop
  intro c hasked
  obtain ⟨r, hone, hval⟩ := h.bitmap_of_drained hin hasked (hdrained c hasked)
  rw [hval, hall c r hone, hb]

/-- The input of a batch in which a task is reported and a client calls `GetConfig`. -/
def startRun : List Label :=
  [.send (.setHighPrioTaskBitmap ":1.4" 1#32), .addMatch 0, .callGetConfig 0, .process, .process]

/-- A client that starts while a task is reported is answered before the signal of the
same batch, and ends with the bitmap of the daemon. -/
theorem converged_of_noStaleReply_one_client :
    ∃ s, Settled s ∧ (s.client 0).Asked ∧ Converged s ∧ (s.client 0).bitmap = 1#32 := by
  let M := machine ⟨"clpkm.sh", 100000#64⟩
  let s₁ := (M.run State.init startRun).get (by decide)
  have h₁ : M.ReachableBy NoStaleReply s₁ := by
    refine Machine.ReachableBy.run (.initial rfl) ?_ (Option.some_get _).symm
    intro l hl u hidle
    subst hidle
    exact absurd hl (by decide)
  -- the batch ends with a signal, since nothing was emitted before
  let s₂ := (M.step s₁ .idle).get (by decide)
  have h₂ : M.ReachableBy NoStaleReply s₂ :=
    h₁.step (l := .idle) (fun _ hb => absurd hb (by decide)) (Option.some_get _).symm
  let s₃ := (M.run s₂ [.receive 0, .receive 0]).get (by decide)
  have h₃ : M.ReachableBy NoStaleReply s₃ := by
    refine Machine.ReachableBy.run h₂ ?_ (Option.some_get _).symm
    intro l hl u hidle
    subst hidle
    exact absurd hl (by decide)
  have hsettled : Settled s₃ := by
    refine ⟨by decide, by decide, fun c hc => ?_⟩
    cases c with
    | zero => exact ⟨by decide, by decide⟩
    | succ c => exact ⟨rfl, rfl⟩
  exact ⟨s₃, hsettled, by decide, converged_of_noStaleReply _ s₃ h₃ hsettled, by decide⟩

/-! ## The lost update -/

/-- A high-priority process reports a task and takes it back within one batch, and
`GetConfig` is answered in between. -/
def staleReplyRun : List Label :=
  [.send (.setHighPrioTaskBitmap ":1.4" 1#32), .addMatch 0, .callGetConfig 0,
    .send (.setHighPrioTaskBitmap ":1.4" 0#32), .process, .process, .process, .idle, .receive 0]

/-- **A client can be left with a bitmap the daemon does not have.**  The run ends
with the daemon waiting, nothing on its way, `GlobalBitmap` 0 and the client's
`Bitmap` 1. -/
theorem not_converged :
    ∃ s, (machine ⟨"clpkm.sh", 100000#64⟩).Reachable s ∧ Settled s ∧
      s.task.globalBitmap = 0#32 ∧ (s.client 0).bitmap = 1#32 ∧ ¬ Converged s := by
  let M := machine ⟨"clpkm.sh", 100000#64⟩
  let s := (M.run State.init staleReplyRun).get (by decide)
  have hglobal : s.task.globalBitmap = 0#32 := by decide
  have hclient : (s.client 0).bitmap = 1#32 := by decide
  refine ⟨s, Machine.reachable_of_run rfl (Option.some_get _).symm, ⟨by decide, by decide, ?_⟩,
    hglobal, hclient, ?_⟩
  · intro c _
    cases c with
    | zero => exact ⟨by decide, by decide⟩
    | succ c => exact ⟨rfl, rfl⟩
  · intro h
    have h0 := h 0 (by decide)
    rw [hglobal, hclient] at h0
    cases h0

end RunLevel
end Clpkm
