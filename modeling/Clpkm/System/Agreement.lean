import Clpkm.System.Account
import Mathlib.Data.Finset.Insert

/-!
# Agreement

`settled_agree` is the purpose of the schedule service.  In a settled state the daemon, every
low-priority process and every thread in one of them agree about which kinds of tasks run in
the high-priority processes: `SchedStart` of a low-priority process waits exactly if some
high-priority process runs a task of the kind.  Its two halves are the account of the daemon
and `Clients`, which ties a low-priority process to its channel; the invariants of the parts do
the rest.
-/

namespace Clpkm
namespace System

variable {cfg : GblConfig} {s t : State} {name : String}

/-! ## What passes between the daemon and the low-priority processes -/

/-- Only a message from its channel makes a client running or changes its bitmap. -/
theorem client_of_step {d d' : RunLevel.State} {l : RunLevel.Label}
    (h : RunLevel.step cfg d l = some d') (hl : ∀ c, l ≠ .receive c) (c : Nat)
    (hrun : (d'.client c).phase = .running) :
    (d.client c).phase = .running ∧ (d'.client c).bitmap = (d.client c).bitmap := by
  -- another client moves to a phase before the worker runs
  have hupdate : ∀ (c' : Nat) (x : RunLevel.Client), x.phase ≠ .running →
      (Function.update d.client c' x c).phase = .running →
      (d.client c).phase = .running ∧
        (Function.update d.client c' x c).bitmap = (d.client c).bitmap := by
    intro c' x hx hrun
    by_cases hc : c = c'
    · subst hc
      rw [Function.update_self] at hrun
      exact absurd hrun hx
    · rw [Function.update_of_ne hc] at hrun ⊢
      exact ⟨hrun, rfl⟩
  cases l with
  | send m =>
    cases h
    exact ⟨hrun, rfl⟩
  | addMatch c' =>
    simp only [RunLevel.step, Option.ite_none_right_eq_some, Option.some.injEq] at h
    obtain ⟨_, rfl⟩ := h
    exact hupdate c' _ (by intro h; cases h) hrun
  | callGetConfig c' =>
    simp only [RunLevel.step, Option.ite_none_right_eq_some, Option.some.injEq] at h
    obtain ⟨_, rfl⟩ := h
    exact hupdate c' _ (by intro h; cases h) hrun
  | receive c' => exact absurd rfl (hl c')
  | process =>
    simp only [RunLevel.step] at h
    split at h
    · rename_i m rest _ _
      cases h
      cases m with
      | task m => exact ⟨hrun, rfl⟩
      | getConfig c' =>
        simp only [RunLevel.processMsg] at hrun ⊢
        by_cases hc : c = c'
        · subst hc
          rw [Function.update_self] at hrun ⊢
          exact ⟨hrun, rfl⟩
        · rw [Function.update_of_ne hc] at hrun ⊢
          exact ⟨hrun, rfl⟩
    · cases h
  | idle =>
    simp only [RunLevel.step, Option.ite_none_right_eq_some, Option.some.injEq] at h
    obtain ⟨_, rfl⟩ := h
    have hsame : ((RunLevel.endBatch d).client c).phase = (d.client c).phase ∧
        ((RunLevel.endBatch d).client c).bitmap = (d.client c).bitmap := by
      unfold RunLevel.endBatch RunLevel.Client.signal
      simp only
      split
      · simp only
        split <;> exact ⟨rfl, rfl⟩
      · exact ⟨rfl, rfl⟩
    exact ⟨hsame.1 ▸ hrun, hsame.2⟩
  | wake =>
    simp only [RunLevel.step, Option.ite_none_right_eq_some, Option.some.injEq] at h
    obtain ⟨_, rfl⟩ := h
    exact ⟨hrun, rfl⟩

/-- Only a signal changes the bitmap of a low-priority process. -/
theorem bitmap_of_low_step {p q : LowPrioWorker.State} {l : LowPrioWorker.Label}
    (h : LowPrioWorker.step p l = some q) (hl : isSignal l = false) : q.bitmap = p.bitmap := by
  cases l with
  | schedStart i k =>
    simp only [LowPrioWorker.step] at h
    split at h
    all_goals
      simp only [Option.ite_none_right_eq_some, Option.some.injEq, reduceCtorEq] at h
    all_goals
      obtain ⟨_, rfl⟩ := h
      rfl
  | spurious i =>
    simp only [LowPrioWorker.step] at h
    split at h
    · cases h
      rfl
    · cases h
  | resume i =>
    simp only [LowPrioWorker.step] at h
    split at h
    · simp only [Option.ite_none_right_eq_some, Option.some.injEq] at h
      obtain ⟨_, rfl⟩ := h
      rfl
    · cases h
  | lock =>
    simp only [LowPrioWorker.step] at h
    split at h <;> cases h <;> rfl
  | process runLevel =>
    simp only [LowPrioWorker.step, Option.ite_none_right_eq_some, Option.some.injEq] at h
    obtain ⟨_, rfl⟩ := h
    cases runLevel with
    | none => rfl
    | some b => cases hl
  | idle =>
    simp only [LowPrioWorker.step, Option.ite_none_right_eq_some, Option.some.injEq] at h
    obtain ⟨_, rfl⟩ := h
    rfl
  | notify =>
    simp only [LowPrioWorker.step] at h
    split at h <;> cases h <;> rfl
  | poll term =>
    simp only [LowPrioWorker.step, Option.ite_none_right_eq_some, Option.some.injEq] at h
    obtain ⟨_, rfl⟩ := h
    rfl

/-- Every low-priority process is one, and its bitmap is what its channel has brought. -/
structure Clients (s : State) : Prop where
  reachable : ∀ c, LowPrioWorker.machine.Reachable (s.low c)
  bitmap : ∀ c, (s.daemon.client c).phase = .running →
    (s.low c).bitmap = (s.daemon.client c).bitmap

namespace Clients

theorem init : Clients State.init where
  reachable _ := .initial ⟨0#32, rfl⟩
  bitmap := by intro c h; cases h

/-- A step outside the low-priority processes. -/
theorem bus (h : Clients s) {l : RunLevel.Label} (hl : ∀ c, l ≠ .receive c)
    (hd : RunLevel.step cfg s.daemon l = some t.daemon) (hlow : t.low = s.low) : Clients t where
  reachable := by
    rw [hlow]
    exact h.reachable
  bitmap c hrun := by
    obtain ⟨hrun', hbitmap⟩ := client_of_step hd hl c hrun
    rw [hlow, hbitmap, h.bitmap c hrun']

/-- A low-priority process moves. -/
theorem update (h : Clients s) {c : Nat} {d : RunLevel.State} {p : LowPrioWorker.State}
    (hp : LowPrioWorker.machine.Reachable p)
    (hbitmap : (d.client c).phase = .running → p.bitmap = (d.client c).bitmap)
    (hother : ∀ c', c' ≠ c → d.client c' = s.daemon.client c') :
    Clients { s with daemon := d, low := Function.update s.low c p } where
  reachable c' := by
    by_cases hc : c' = c
    · subst hc
      simpa using hp
    · simpa [Function.update_of_ne hc] using h.reachable c'
  bitmap c' := by
    by_cases hc : c' = c
    · subst hc
      simpa using hbitmap
    · simpa [Function.update_of_ne hc, hother c' hc] using h.bitmap c'

theorem receive (h : Clients s) {c : Nat} (hs : receive cfg s c = some t) : Clients t := by
  obtain ⟨d, hd, hs⟩ := Option.bind_eq_some_iff.mp hs
  simp only [RunLevel.step, Option.map_eq_some_iff] at hd
  obtain ⟨x, _, rfl⟩ := hd
  have hother : ∀ c', c' ≠ c → Function.update s.daemon.client c x c' = s.daemon.client c' :=
    fun c' hc => Function.update_of_ne hc _ _
  split at hs
  · obtain ⟨p, hp, rfl⟩ := Option.map_eq_some_iff.mp hs
    refine h.update (Machine.Reachable.step (l := .process (some _)) (h.reachable c) hp)
      (fun _ => ?_) hother
    simp only [LowPrioWorker.step, Option.ite_none_right_eq_some, Option.some.injEq] at hp
    obtain ⟨_, rfl⟩ := hp
    rfl
  · cases hs
    exact h.update (.initial ⟨_, rfl⟩) (fun _ => rfl) hother
  · rename_i hne
    cases hs
    refine ⟨h.reachable, fun c' hrun => ?_⟩
    by_cases hc : c' = c
    · subst hc
      simp only [Function.update_self] at hrun hne
      exact absurd hrun hne
    · simp only [hother c' hc] at hrun ⊢
      exact h.bitmap c' hrun

/-- **Step.**  Every step keeps what the channels have brought. -/
theorem step (h : Clients s) {l : Label} (hs : step cfg s l = some t) : Clients t := by
  -- a message to the daemon is none from it
  have hsend : ∀ (u : State) (m : DaemonMsg), u.daemon = s.daemon → u.low = s.low →
      Clients (u.send m) := by
    intro u m hd hlow
    have hstep : RunLevel.step cfg s.daemon (.send m) = some (u.send m).daemon := by
      rw [← hd]
      rfl
    exact h.bus (fun c hc => by cases hc) hstep hlow
  have hmap : ∀ l' : RunLevel.Label, (∀ c, l' ≠ .receive c) →
      (RunLevel.step cfg s.daemon l').map (fun d => { s with daemon := d }) = some t →
      Clients t := by
    intro l' hl hm
    obtain ⟨d, hd, rfl⟩ := Option.map_eq_some_iff.mp hm
    exact h.bus hl hd rfl
  cases l with
  | connect name =>
    simp only [System.step, Option.ite_none_right_eq_some, Option.some.injEq] at hs
    obtain ⟨_, rfl⟩ := hs
    exact hsend (s.setHigh _ _) _ rfl rfl
  | disconnect name =>
    simp only [System.step, Option.ite_none_right_eq_some, Option.some.injEq] at hs
    obtain ⟨_, rfl⟩ := hs
    exact hsend (s.setHigh _ _) _ rfl rfl
  | nameOwnerChanged name oldOwner newOwner =>
    simp only [System.step, Option.ite_none_left_eq_some, Option.some.injEq] at hs
    obtain ⟨_, rfl⟩ := hs
    exact hsend s _ rfl rfl
  | high name l =>
    simp only [System.step, Option.ite_none_right_eq_some, Option.map_eq_some_iff] at hs
    obtain ⟨_, p, _, rfl⟩ := hs
    exact ⟨h.reachable, h.bitmap⟩
  | call name =>
    simp only [System.step] at hs
    split at hs
    · simp only [Option.ite_none_right_eq_some, Option.some.injEq] at hs
      obtain ⟨_, rfl⟩ := hs
      exact hsend (s.setHigh _ _) _ rfl rfl
    · cases hs
  | callReturn name =>
    simp only [System.step, Option.ite_none_right_eq_some, Option.map_eq_some_iff] at hs
    obtain ⟨_, p, _, rfl⟩ := hs
    exact ⟨h.reachable, h.bitmap⟩
  | process =>
    simp only [System.step] at hs
    split at hs
    · obtain ⟨d, hd, rfl⟩ := Option.map_eq_some_iff.mp hs
      exact h.bus (fun c hc => by cases hc) hd rfl
    · cases hs
  | idle => exact hmap .idle (fun c hc => by cases hc) hs
  | wake => exact hmap .wake (fun c hc => by cases hc) hs
  | addMatch c => exact hmap (.addMatch c) (fun c hc => by cases hc) hs
  | callGetConfig c => exact hmap (.callGetConfig c) (fun c hc => by cases hc) hs
  | receive c => exact h.receive hs
  | low c l =>
    simp only [System.step, Option.ite_none_right_eq_some, Option.map_eq_some_iff] at hs
    obtain ⟨⟨hrun, hl⟩, p, hp, rfl⟩ := hs
    refine h.update ((h.reachable c).step hp) (fun _ => ?_) (fun _ _ => rfl)
    rw [bitmap_of_low_step hp hl, h.bitmap c hrun]

end Clients

theorem clients_of_reachableBy (hs : (machine cfg).ReachableBy Regular s) : Clients s :=
  hs.invariant (fun _ h => h ▸ Clients.init) (fun _ _ _ h _ hstep => h.step hstep)

/-! ## Agreement -/

/-- A settled process has reported exactly what it runs. -/
theorem HighProc.Ok.reported_bit {inbox : List RunLevel.ToDaemon} {sent : List DaemonMsg}
    {p : HighProc} (h : p.Ok name inbox sent) (hc : p.conn = .connected)
    (hw : p.proc.worker = .polling) {k : TaskKind} (ht : p.proc.timer k = .disarmed) :
    p.reported.getLsbD k.val = true ↔ 0 < p.proc.outstanding k := by
  have hinv := HighPrioWorker.inv_of_reachableBy h.reachable
  have hcall : p.call = .idle := by
    by_contra hcall
    cases hw.symm.trans (h.reporting hcall).2
  have hlast : p.reported = p.proc.oldBitmap := by
    simp only [HighProc.reported, hc, hcall]
    exact hinv.last (fun map hm => by cases hw.symm.trans hm)
  rw [hlast, hinv.disarmed k ht, hinv.bit, ← hinv.count, decide_eq_true_eq, Nat.pos_iff_ne_zero,
    ne_eq, ne_eq, ← BitVec.toNat_inj]
  rfl

/-- The daemon of a settled system knows which kinds of tasks run. -/
theorem Account.globalBitmap_iff (h : Account s) (htask : s.daemon.task.Inv) (hset : Settled s)
    (k : TaskKind) : s.daemon.task.globalBitmap.getLsbD k.val = true ↔ Running s k := by
  obtain ⟨handled, hrun, hsent⟩ := h.log
  rw [hset.inbox] at hsent
  have hhandled : s.sent = handled := hsent.trans (List.append_nil _)
  have hinv : (Task.run s.sent).Inv := by
    rw [hhandled, ← hrun]
    exact htask
  rw [hrun, ← hhandled, hinv.bit_iff_lastReported]
  refine exists_congr fun name => ?_
  have hok := h.high name
  rw [hok.reported]
  by_cases hc : (s.high name).conn = .connected
  · obtain ⟨hw, ht⟩ := hset.high name hc
    rw [hok.reported_bit hc hw (ht k)]
    exact ⟨fun h => ⟨hc, h⟩, fun h => h.2⟩
  · rw [HighProc.Ok.reported_of_not_connected hc, BitVec.getLsbD_zero]
    exact ⟨(fun h => by cases h), fun h => absurd h.1 hc⟩

/-- A low-priority process of a settled system holds the bitmap of the daemon. -/
theorem low_bitmap_of_settled (hs : (machine cfg).ReachableBy Regular s) (hset : Settled s)
    {c : Nat} (hrun : (s.daemon.client c).phase = .running)
    (hdrained : (s.daemon.client c).Drained) :
    (s.low c).bitmap = s.daemon.task.globalBitmap := by
  have h := RunLevel.inv_of_reachableBy (daemon_reachable hs)
  obtain ⟨hb, hall⟩ := h.waiting hset.waiting
  obtain ⟨r, hone, hval⟩ := h.bitmap_of_drained hset.inbox (.inr hrun) hdrained
  rw [(clients_of_reachableBy hs).bitmap c hrun, hval, hall c r hone, hb]

/-- **Agreement.**  In every settled state of every regular run, a bit of the global bitmap is
set exactly if some high-priority process runs a task of its kind; and in every low-priority
process whose worker polls, a thread only waits while one does, and `SchedStart`
waits exactly if one does. -/
theorem settled_agree (cfg : GblConfig) (s : State) (hs : (machine cfg).ReachableBy Regular s)
    (hset : Settled s) (k : TaskKind) :
    (s.daemon.task.globalBitmap.getLsbD k.val = true ↔ Running s k) ∧
    ∀ c, (s.daemon.client c).phase = .running → (s.low c).worker = .polling →
      (∀ i, (s.low c).thread i = .blocked k → Running s k) ∧
      ∀ i t, (machine cfg).step s (.low c (.schedStart i k)) = some t →
        ((t.low c).thread i = .blocked k ↔ Running s k) := by
  have hglobal := (account_of_reachableBy hs).globalBitmap_iff (taskInv_of_reachableBy hs) hset k
  refine ⟨hglobal, fun c hrun hw => ?_⟩
  have hdrained : (s.daemon.client c).Drained := by
    rcases hset.running c hrun with hstop | ⟨hd, _⟩
    · cases hw.symm.trans hstop
    · exact hd
  have hbitmap := low_bitmap_of_settled hs hset hrun hdrained
  rw [← hglobal, ← hbitmap]
  refine ⟨fun i hi => ?_, fun i t ht => ?_⟩
  · have hok := (LowPrioWorker.inv_of_reachable ((clients_of_reachableBy hs).reachable c)).blocked
      i k hi
    rw [hw] at hok
    exact hok
  · simp only [machine, step, Option.ite_none_right_eq_some, Option.map_eq_some_iff] at ht
    obtain ⟨_, p, hp, rfl⟩ := ht
    have htest : p = LowPrioWorker.test (s.low c) i k := by
      simp only [LowPrioWorker.step] at hp
      split at hp
      all_goals
        simp only [Option.ite_none_right_eq_some, Option.some.injEq, reduceCtorEq] at hp
      all_goals
        exact hp.2.symm
    simp only [htest, LowPrioWorker.test, Function.update_self]
    split
    · rename_i hcan
      rw [LowPrioWorker.canRun_iff] at hcan
      rw [hcan]
      exact ⟨(fun h => by cases h), (fun h => by cases h)⟩
    · rename_i hcan
      rw [LowPrioWorker.canRun_iff, Bool.not_eq_false] at hcan
      rw [hcan]
      exact ⟨fun _ => rfl, fun _ => rfl⟩

/-- A client asks for the configuration while a report is on its way, and then a thread of the
client wants to run a task of the same kind. -/
def agreeRun : List Label :=
  callRun ++ [.addMatch 0, .callGetConfig 0, .process, .process, .process, .callReturn ":1.4",
    .idle, .receive 0, .low 0 .lock, .receive 0, .low 0 .idle, .low 0 .notify, .low 0 .notify,
    .low 0 .notify, .low 0 (.schedStart 7 .computing)]

/-- The thread waits, since the process runs its task. -/
theorem settled_agree_one_task :
    ∃ s, Settled s ∧ (s.low 0).thread 7 = .blocked .computing ∧ Running s .computing := by
  let M := machine ⟨"clpkm.sh", 100000#64⟩
  let s := (M.runIf isRegular State.init agreeRun).get (by decide)
  have hsome : M.runIf isRegular State.init agreeRun = some s := (Option.some_get _).symm
  obtain ⟨hs, hrun⟩ := Machine.ReachableBy.runIf (C := Regular) (.initial rfl)
    regular_of_isRegular hsome
  have hwithin : Within {":1.4"} {0} s := by
    refine Within.init.run hrun (fun name hl => ?_) (fun c hl => ?_)
    · simpa [agreeRun, callRun] using hl
    · simpa [agreeRun, callRun] using hl
  have hset : Settled s := by
    refine ⟨by decide, by decide, fun name hc => ?_, fun c hp => ?_, fun c hp => ?_⟩
    · obtain rfl := Finset.mem_singleton.mp (hwithin.high name hc)
      refine ⟨by with_unfolding_all rfl, fun k => ?_⟩
      cases k <;> decide
    · obtain rfl := Finset.mem_singleton.mp (hwithin.client c (by rw [hp]; decide))
      exact absurd hp (by decide)
    · obtain rfl := Finset.mem_singleton.mp (hwithin.client c (by rw [hp]; decide))
      exact .inr ⟨⟨by decide, by decide⟩, by decide⟩
  have hagree := (settled_agree _ s hs hset .computing).2 0 (by decide) (by decide)
  exact ⟨s, hset, by decide, hagree.1 7 (by decide)⟩

end System
end Clpkm
