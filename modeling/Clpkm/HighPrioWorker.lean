import Clpkm.Machine
import Clpkm.TaskKind
import Mathlib.Logic.Function.Basic

/-!
# Reporting in a high-priority process

The threads of a high-priority process count their tasks with `SchedStart` and
`SchedEnd`, and `HighPrioProcWorker` tells the daemon which kinds of tasks run.  A
kind that becomes busy is reported at once, a kind that becomes idle only after a
hold time of one second: both calls wake the worker through a timer of the kind, set
to one nanosecond or to one second.

The worker polls the timers without the lock, then takes the lock, reads the
expirations and decides what to report.  A timer may be set anew in between, so a
poll result may be stale; `read` tells.

The model is a machine whose steps are the critical sections, the clock, the timers
and the moves of the worker.  `Inv` relates each timer to the bitmap and to
`OldBitmap`, the map reported last; three theorems follow for runs with fewer than
`2^32` tasks of a kind at a time: the bitmap is exact, a kind is reported idle only
after the hold time, and no change stays unreported (`reporting`).  The counters are
unsigned 32-bit words, and with `2^32` tasks at a time the counter is 0 while the
bit is set (`count_wraps`).
-/

namespace Clpkm
namespace HighPrioWorker

/-- A one-shot timer of the monotonic clock. -/
inductive Timer
  /-- not set, or its expiration is read -/
  | disarmed
  | armed (deadline : Nat)
  /-- gone off, and the expiration is not read yet -/
  | expired
  deriving DecidableEq, Repr

/-- Where `HighPrioProcWorker` is in its loop. -/
inductive Worker
  /-- in `ppoll` -/
  | polling
  /-- `ppoll` returned; `revents k` says whether `POLLIN` is set for timer `k` -/
  | polled (revents : TaskKind → Bool)
  /-- inside `sd_bus_call_method`, which carries the map to the daemon -/
  | reporting (mapToSet : TaskBitmap)
  /-- left the loop on the termination event -/
  | stopped

/-- A high-priority process. -/
structure State where
  /-- the monotonic clock, in nanoseconds -/
  clock : Nat
  count : TaskKind → BitVec 32
  bitmap : TaskBitmap
  timer : TaskKind → Timer
  oldBitmap : TaskBitmap
  worker : Worker
  /-- the maps reported to the daemon, in order -/
  reports : List TaskBitmap
  /-- calls of `SchedStart` that no `SchedEnd` has matched yet -/
  outstanding : TaskKind → Nat
  /-- the time of the `SchedEnd` that last brought the count to 0 -/
  zeroSince : TaskKind → Nat

/-- The choices of the environment. -/
inductive Label
  | schedStart (k : TaskKind)
  | schedEnd (k : TaskKind)
  | advance (nanoSec : Nat)
  /-- a timer whose deadline has passed goes off -/
  | expire (k : TaskKind)
  /-- `ppoll` returns because a timer is readable -/
  | poll
  /-- `ppoll` returns because of the termination event -/
  | terminate
  /-- the worker takes the lock and scans -/
  | scan
  /-- the call to the daemon returns -/
  | report
  deriving DecidableEq, Repr

/-- The process when the worker enters its loop for the first time. -/
def State.init : State where
  clock := 0
  count := fun _ => 0#32
  bitmap := 0#32
  timer := fun _ => .disarmed
  oldBitmap := 0#32
  worker := .polling
  reports := []
  outstanding := fun _ => 0
  zeroSince := fun _ => 0

/-- `GenOneTimeTimerSpec(0, 1)`. -/
def oneNanoSec : Nat := 1

/-- `GenOneTimeTimerSpec(1, 0)`, the hold time. -/
def oneSec : Nat := 1000000000

/-- `timerfd_settime`: the new deadline replaces the old one and an unread
expiration. -/
def setTime (s : State) (k : TaskKind) (nanoSec : Nat) : TaskKind → Timer :=
  Function.update s.timer k (.armed (s.clock + nanoSec))

/-- `SchedStart` of a high-priority process. -/
def schedStart (s : State) (k : TaskKind) : State :=
  let oldCount := s.count k
  { s with
    count := Function.update s.count k (oldCount + 1#32)
    bitmap := assignBits s.bitmap 1#32 k.mask
    timer := if oldCount = 0#32 then setTime s k oneNanoSec else s.timer
    outstanding := Function.update s.outstanding k (s.outstanding k + 1) }

/-- `SchedEnd`. -/
def schedEnd (s : State) (k : TaskKind) : State :=
  let newCount := s.count k - 1#32
  { s with
    count := Function.update s.count k newCount
    bitmap := assignBits s.bitmap newCount k.mask
    timer := if newCount = 0#32 then setTime s k oneSec else s.timer
    outstanding := Function.update s.outstanding k (s.outstanding k - 1)
    zeroSince := if newCount = 0#32 then Function.update s.zeroSince k s.clock else s.zeroSince }

/-- The loop body of the scan for one kind: the map to set and the timers. -/
def scanKind (revents : TaskKind → Bool) (clearedBitmap : TaskBitmap)
    (acc : TaskBitmap × (TaskKind → Timer)) (k : TaskKind) : TaskBitmap × (TaskKind → Timer) :=
  -- `POLLIN` and a successful `read`: the change is staged
  if revents k ∧ acc.2 k = .expired then (acc.1, Function.update acc.2 k .disarmed)
  -- cleared, and the timer has yet to go off: the change is reverted
  else if clearedBitmap &&& k.mask ≠ 0#32 then (acc.1 ^^^ k.mask, acc.2)
  else acc

/-- The bits that changed from 1 to 0 since the last report. -/
def clearedBitmap (s : State) : TaskBitmap := s.oldBitmap &&& (s.bitmap ^^^ BitVec.allOnes 32)

/-- The scan over all kinds. -/
def scanKinds (s : State) (revents : TaskKind → Bool) : TaskBitmap × (TaskKind → Timer) :=
  TaskKind.all.foldl (scanKind revents (clearedBitmap s)) (s.bitmap, s.timer)

/-- The critical section of the worker. -/
def scan (s : State) (revents : TaskKind → Bool) : State :=
  let (mapToSet, timer) := scanKinds s revents
  if mapToSet = s.oldBitmap then { s with timer := timer, worker := .polling }
  else { s with timer := timer, oldBitmap := mapToSet, worker := .reporting mapToSet }

/-- The value of `revents` for the timers. -/
def pollIn (s : State) (k : TaskKind) : Bool := s.timer k = .expired

/-- One step of a thread, the clock, a timer or the worker. -/
def step (s : State) : Label → Option State
  | .schedStart k => some (schedStart s k)
  | .schedEnd k => if 0 < s.outstanding k then some (schedEnd s k) else none
  | .advance nanoSec => some { s with clock := s.clock + nanoSec }
  | .expire k =>
    match s.timer k with
    | .armed deadline =>
      if deadline ≤ s.clock then some { s with timer := Function.update s.timer k .expired }
      else none
    | _ => none
  | .poll =>
    match s.worker with
    | .polling =>
      if TaskKind.all.any (pollIn s) then some { s with worker := .polled (pollIn s) } else none
    | _ => none
  | .terminate =>
    match s.worker with
    | .polling => some { s with worker := .stopped }
    | _ => none
  | .scan =>
    match s.worker with
    | .polled revents => some (scan s revents)
    | _ => none
  | .report =>
    match s.worker with
    | .reporting map => some { s with reports := s.reports ++ [map], worker := .polling }
    | _ => none

/-- A high-priority process as a machine. -/
def machine : Machine State Label := ⟨(· = State.init), step⟩

/-- The last reported map; every process is initially 0 from the perspective of the
daemon. -/
def lastReported (s : State) : TaskBitmap := s.reports.getLast?.getD 0#32

/-! ## The scan, bit by bit -/

/-- The worker takes the expiration of the timer. -/
def Consumed (s : State) (revents : TaskKind → Bool) (k : TaskKind) : Prop :=
  revents k = true ∧ s.timer k = .expired

instance (s : State) (revents : TaskKind → Bool) (k : TaskKind) :
    Decidable (Consumed s revents k) := inferInstanceAs (Decidable (_ ∧ _))

section ScanKind
variable (revents : TaskKind → Bool) (cleared : TaskBitmap)

theorem scanKind_timer (acc : TaskBitmap × (TaskKind → Timer)) (k k' : TaskKind) :
    (scanKind revents cleared acc k).2 k' =
      if k' = k ∧ revents k = true ∧ acc.2 k = .expired then .disarmed else acc.2 k' := by
  unfold scanKind
  by_cases hc : revents k = true ∧ acc.2 k = .expired
  · rw [if_pos hc]
    by_cases h : k' = k
    · subst h
      simp [hc]
    · simp [h]
  · rw [if_neg hc, if_neg (fun h : k' = k ∧ _ => hc h.2)]
    split <;> rfl

theorem scanKind_bit (acc : TaskBitmap × (TaskKind → Timer)) (k k' : TaskKind) :
    (scanKind revents cleared acc k).1.getLsbD k'.val =
      if k' = k ∧ ¬ (revents k = true ∧ acc.2 k = .expired) ∧ cleared.getLsbD k.val = true then
        !acc.1.getLsbD k'.val
      else acc.1.getLsbD k'.val := by
  unfold scanKind
  by_cases hc : revents k = true ∧ acc.2 k = .expired
  · rw [if_pos hc, if_neg (fun h : k' = k ∧ _ => h.2.1 hc)]
  · rw [if_neg hc]
    by_cases hm : cleared &&& k.mask ≠ 0#32
    · have hbit := (TaskKind.and_mask_ne_zero cleared k).mp hm
      rw [if_pos hm, TaskKind.getLsbD_xor_mask]
      simp [hc, hbit]
    · have hbit : ¬ cleared.getLsbD k.val = true := fun hb =>
        hm ((TaskKind.and_mask_ne_zero cleared k).mpr hb)
      rw [if_neg hm, if_neg (fun h : k' = k ∧ _ => hbit h.2.2)]

/-- A loop over distinct kinds treats a kind it visits once, with the timer it had
before the loop, and leaves the others alone. -/
theorem foldl_scanKind (ks : List TaskKind) (hnd : ks.Nodup)
    (acc : TaskBitmap × (TaskKind → Timer)) (k : TaskKind) :
    ((ks.foldl (scanKind revents cleared) acc).1.getLsbD k.val =
      if k ∈ ks then (scanKind revents cleared acc k).1.getLsbD k.val else acc.1.getLsbD k.val) ∧
    (ks.foldl (scanKind revents cleared) acc).2 k =
      if k ∈ ks then (scanKind revents cleared acc k).2 k else acc.2 k := by
  induction ks generalizing acc with
  | nil => simp
  | cons k₀ ks ih =>
    obtain ⟨hk₀, hks⟩ := List.nodup_cons.mp hnd
    obtain ⟨hbit, htimer⟩ := ih hks (scanKind revents cleared acc k₀)
    rw [List.foldl_cons, hbit, htimer]
    by_cases h : k = k₀
    · subst h
      simp [hk₀]
    · have hsame : (scanKind revents cleared acc k₀).1.getLsbD k.val = acc.1.getLsbD k.val ∧
          (scanKind revents cleared acc k₀).2 k = acc.2 k := by
        rw [scanKind_bit, scanKind_timer]
        simp [h]
      have hbit' : (scanKind revents cleared (scanKind revents cleared acc k₀) k).1.getLsbD k.val =
          (scanKind revents cleared acc k).1.getLsbD k.val := by
        rw [scanKind_bit _ _ (scanKind revents cleared acc k₀), scanKind_bit _ _ acc k k,
          hsame.1, hsame.2]
      have htimer' : (scanKind revents cleared (scanKind revents cleared acc k₀) k).2 k =
          (scanKind revents cleared acc k).2 k := by
        rw [scanKind_timer _ _ (scanKind revents cleared acc k₀), scanKind_timer _ _ acc k k,
          hsame.2]
      rw [hbit', htimer', hsame.1, hsame.2]
      simp [h]

theorem scanKind_valid {acc : TaskBitmap × (TaskKind → Timer)} (h : ValidBitmap acc.1)
    (k : TaskKind) : ValidBitmap (scanKind revents cleared acc k).1 := by
  unfold scanKind
  split
  · exact h
  · split
    · rw [validBitmap_iff] at h ⊢
      intro i hi
      have hk := k.val_lt_num
      rw [BitVec.getLsbD_xor, TaskKind.getLsbD_mask, h i hi, decide_eq_false (by omega)]
      rfl
    · exact h

theorem foldl_scanKind_valid (ks : List TaskKind) {acc : TaskBitmap × (TaskKind → Timer)}
    (h : ValidBitmap acc.1) : ValidBitmap (ks.foldl (scanKind revents cleared) acc).1 := by
  induction ks generalizing acc with
  | nil => exact h
  | cons k ks ih => exact ih (scanKind_valid revents cleared h k)

end ScanKind

variable {s t : State}

theorem getLsbD_clearedBitmap (s : State) (k : TaskKind) :
    (clearedBitmap s).getLsbD k.val = (s.oldBitmap.getLsbD k.val && !s.bitmap.getLsbD k.val) :=
  TaskKind.getLsbD_cleared _ _ _

/-- The scan stages what a read expiration allows and reverts the other clearings. -/
theorem scanKinds_bit (s : State) (revents : TaskKind → Bool) (k : TaskKind) :
    (scanKinds s revents).1.getLsbD k.val =
      if Consumed s revents k then s.bitmap.getLsbD k.val
      else (s.oldBitmap.getLsbD k.val || s.bitmap.getLsbD k.val) := by
  unfold scanKinds
  rw [(foldl_scanKind revents (clearedBitmap s) TaskKind.all TaskKind.all_nodup _ k).1,
    if_pos k.mem_all, scanKind_bit, getLsbD_clearedBitmap]
  by_cases hc : Consumed s revents k
  · rw [if_pos hc, if_neg (fun h : k = k ∧ _ => h.2.1 hc)]
  · rw [if_neg hc]
    have hc' : ¬ (revents k = true ∧ s.timer k = .expired) := hc
    cases ho : s.oldBitmap.getLsbD k.val <;> cases hb : s.bitmap.getLsbD k.val <;> simp [hc']

/-- The scan disarms the timers it reads and leaves the others alone. -/
theorem scanKinds_timer (s : State) (revents : TaskKind → Bool) (k : TaskKind) :
    (scanKinds s revents).2 k = if Consumed s revents k then .disarmed else s.timer k := by
  unfold scanKinds
  rw [(foldl_scanKind revents (clearedBitmap s) TaskKind.all TaskKind.all_nodup _ k).2,
    if_pos k.mem_all, scanKind_timer]
  simp only [true_and]
  rfl

theorem scanKinds_valid (h : ValidBitmap s.bitmap) (revents : TaskKind → Bool) :
    ValidBitmap (scanKinds s revents).1 :=
  foldl_scanKind_valid _ _ _ h

/-! ## The invariant -/

/-- Fewer than `2^32` tasks of a kind at a time. -/
def FewOutstanding (s : State) (l : Label) : Prop :=
  ∀ k, l = .schedStart k → s.outstanding k + 1 < 2 ^ 32

/-- The invariant of a high-priority process. -/
structure Inv (s : State) : Prop where
  count : ∀ k, (s.count k).toNat = s.outstanding k
  bit : ∀ k, s.bitmap.getLsbD k.val = decide (s.count k ≠ 0#32)
  valid : ValidBitmap s.bitmap
  oldValid : ValidBitmap s.oldBitmap
  reportsValid : ∀ map ∈ s.reports, ValidBitmap map
  /-- Without a timer to come there is nothing to report. -/
  disarmed : ∀ k, s.timer k = .disarmed → s.oldBitmap.getLsbD k.val = s.bitmap.getLsbD k.val
  /-- The timer of an idle kind runs for the hold time. -/
  armed : ∀ k d, s.count k = 0#32 → s.timer k = .armed d → d = s.zeroSince k + oneSec
  expired : ∀ k, s.count k = 0#32 → s.timer k = .expired → s.zeroSince k + oneSec ≤ s.clock
  reporting : ∀ map, s.worker = .reporting map → map = s.oldBitmap
  last : (∀ map, s.worker ≠ .reporting map) → lastReported s = s.oldBitmap

theorem inv_init : Inv State.init where
  count _ := rfl
  bit _ := by simp [State.init]
  valid := ValidBitmap.zero
  oldValid := ValidBitmap.zero
  reportsValid := by intro map h; cases h
  disarmed _ _ := rfl
  armed := by intro k d _ h; cases h
  expired := by intro k _ h; cases h
  reporting := by intro map h; cases h
  last _ := rfl

/-- A call that updates one kind: its counter, its bit and, when `set` says so, its
timer. -/
theorem Inv.updateKind (h : Inv s) (k : TaskKind) (c : BitVec 32) (n z nanoSec : Nat)
    (b : TaskBitmap) (set : Prop) [Decidable set] (hc : c.toNat = n)
    (hb : ∀ k', b.getLsbD k'.val = if k' = k then decide (c ≠ 0#32) else s.bitmap.getLsbD k'.val)
    (hvalid : ValidBitmap b)
    (hset : set → c = 0#32 → nanoSec = oneSec ∧ z = s.clock)
    (hkeep : ¬ set → s.count k ≠ 0#32 ∧ c ≠ 0#32) :
    Inv { s with
      count := Function.update s.count k c
      bitmap := b
      timer := if set then setTime s k nanoSec else s.timer
      outstanding := Function.update s.outstanding k n
      zeroSince := if c = 0#32 then Function.update s.zeroSince k z else s.zeroSince } := by
  -- the other kinds keep their timers and the times since when they are at zero
  have htimer : ∀ k', k' ≠ k → (if set then setTime s k nanoSec else s.timer) k' = s.timer k' := by
    intro k' hk
    split
    · exact Function.update_of_ne hk _ _
    · rfl
  have hzero : ∀ k', k' ≠ k → (if c = 0#32 then Function.update s.zeroSince k z
      else s.zeroSince) k' = s.zeroSince k' := by
    intro k' hk
    split
    · exact Function.update_of_ne hk _ _
    · rfl
  refine ⟨?_, ?_, hvalid, h.oldValid, h.reportsValid, ?_, ?_, ?_, h.reporting, h.last⟩
  · intro k'
    by_cases hk : k' = k
    · subst hk
      simpa using hc
    · simpa [Function.update_of_ne hk] using h.count k'
  · intro k'
    rw [hb]
    by_cases hk : k' = k
    · subst hk
      simp
    · simpa [hk] using h.bit k'
  · intro k' ht
    rw [hb]
    by_cases hk : k' = k
    · subst hk
      by_cases hs : set
      · simp [hs, setTime] at ht
      · obtain ⟨hold, hnew⟩ := hkeep hs
        simp only [hs, if_false] at ht
        rw [h.disarmed k' ht, h.bit, if_pos rfl, decide_eq_true hold, decide_eq_true hnew]
    · rw [if_neg hk]
      exact h.disarmed k' ((htimer k' hk).symm.trans ht)
  · intro k' d h0 ht
    by_cases hk : k' = k
    · subst hk
      simp only [Function.update_self] at h0
      by_cases hs : set
      · obtain ⟨hn, hz⟩ := hset hs h0
        simp only [hs, if_true, setTime, Function.update_self, Timer.armed.injEq] at ht
        simp only [h0, if_true, Function.update_self]
        omega
      · exact absurd h0 (hkeep hs).2
    · simp only [Function.update_of_ne hk] at h0
      simp only [hzero k' hk]
      exact h.armed k' d h0 ((htimer k' hk).symm.trans ht)
  · intro k' h0 ht
    by_cases hk : k' = k
    · subst hk
      simp only [Function.update_self] at h0
      by_cases hs : set
      · simp [hs, setTime] at ht
      · exact absurd h0 (hkeep hs).2
    · simp only [Function.update_of_ne hk] at h0
      simp only [hzero k' hk]
      exact h.expired k' h0 ((htimer k' hk).symm.trans ht)

theorem Inv.schedStart (h : Inv s) {k : TaskKind} (hfew : s.outstanding k + 1 < 2 ^ 32) :
    Inv (schedStart s k) := by
  have hcount := h.count k
  have htoNat : (s.count k + 1#32).toNat = s.outstanding k + 1 := by
    rw [BitVec.toNat_add, hcount]
    exact Nat.mod_eq_of_lt hfew
  have hne : s.count k + 1#32 ≠ 0#32 := by
    intro h0
    rw [h0] at htoNat
    cases htoNat
  have hup := h.updateKind k (s.count k + 1#32) (s.outstanding k + 1) s.clock oneNanoSec
    (assignBits s.bitmap 1#32 k.mask) (s.count k = 0#32) htoNat ?_ (h.valid.assignBits _ _)
    (fun _ h0 => absurd h0 hne) (fun hold => ⟨hold, hne⟩)
  · simp only [hne, if_false] at hup
    exact hup
  · intro k'
    rw [getLsbD_assignBits_mask]
    simp [hne]

theorem Inv.schedEnd (h : Inv s) {k : TaskKind} (hpos : 0 < s.outstanding k) :
    Inv (schedEnd s k) := by
  have hcount := h.count k
  have hlt := (s.count k).isLt
  have htoNat : (s.count k - 1#32).toNat = s.outstanding k - 1 := by
    rw [← hcount] at hpos ⊢
    bv_omega
  refine h.updateKind k (s.count k - 1#32) (s.outstanding k - 1) s.clock oneSec
    (assignBits s.bitmap (s.count k - 1#32) k.mask) (s.count k - 1#32 = 0#32) htoNat
    (fun k' => getLsbD_assignBits_mask _ _ _ _) (h.valid.assignBits _ _) (fun _ _ => ⟨rfl, rfl⟩)
    (fun hnew => ⟨?_, hnew⟩)
  intro h0
  rw [h0] at hcount
  simp only [BitVec.toNat_ofNat, Nat.zero_mod] at hcount
  omega

/-- A read expiration of an idle kind came after the hold time. -/
theorem Inv.consumed_of_cleared (h : Inv s) {revents : TaskKind → Bool} {k : TaskKind}
    (hold : s.oldBitmap.getLsbD k.val = true)
    (hnew : (scanKinds s revents).1.getLsbD k.val = false) :
    s.count k = 0#32 ∧ s.zeroSince k + oneSec ≤ s.clock := by
  rw [scanKinds_bit] at hnew
  by_cases hc : Consumed s revents k
  · rw [if_pos hc, h.bit] at hnew
    have h0 : s.count k = 0#32 := by simpa using hnew
    exact ⟨h0, h.expired k h0 hc.2⟩
  · rw [if_neg hc, hold] at hnew
    cases hnew

/-- A timer the scan leaves disarmed has nothing to report any more. -/
theorem Inv.scanKinds_disarmed (h : Inv s) {revents : TaskKind → Bool} {k : TaskKind}
    (ht : (scanKinds s revents).2 k = .disarmed) :
    (scanKinds s revents).1.getLsbD k.val = s.bitmap.getLsbD k.val := by
  rw [scanKinds_timer] at ht
  rw [scanKinds_bit]
  by_cases hc : Consumed s revents k
  · rw [if_pos hc]
  · rw [if_neg hc] at ht ⊢
    rw [h.disarmed k ht, Bool.or_self]

theorem Inv.scan (h : Inv s) {revents : TaskKind → Bool} (hw : s.worker = .polled revents) :
    Inv (scan s revents) := by
  have hlast := h.last (fun map hm => by rw [hw] at hm; cases hm)
  -- a scan disarms timers and arms none
  have harmed : ∀ k d, (scanKinds s revents).2 k = .armed d → s.timer k = .armed d := by
    intro k d ht
    rw [scanKinds_timer] at ht
    split at ht
    · cases ht
    · exact ht
  have hexpired : ∀ k, (scanKinds s revents).2 k = .expired → s.timer k = .expired := by
    intro k ht
    rw [scanKinds_timer] at ht
    split at ht
    · cases ht
    · exact ht
  unfold HighPrioWorker.scan
  simp only
  split
  · rename_i heq
    refine ⟨h.count, h.bit, h.valid, h.oldValid, h.reportsValid, ?_,
      fun k d h0 ht => h.armed k d h0 (harmed k d ht),
      fun k h0 ht => h.expired k h0 (hexpired k ht), ?_, fun _ => hlast⟩
    · intro k ht
      simp only
      rw [← heq]
      exact h.scanKinds_disarmed ht
    · intro map hm
      cases hm
  · refine ⟨h.count, h.bit, h.valid, scanKinds_valid h.valid revents, h.reportsValid,
      fun k ht => h.scanKinds_disarmed ht, fun k d h0 ht => h.armed k d h0 (harmed k d ht),
      fun k h0 ht => h.expired k h0 (hexpired k ht), ?_, ?_⟩
    · intro map hm
      cases hm
      rfl
    · intro hm
      exact absurd rfl (hm _)

/-- **Step.**  Every step keeps the invariant while the counters do not wrap. -/
theorem Inv.step (h : Inv s) {l : Label} (hfew : FewOutstanding s l) (hs : step s l = some t) :
    Inv t := by
  cases l with
  | schedStart k =>
    cases hs
    exact h.schedStart (hfew k rfl)
  | schedEnd k =>
    simp only [HighPrioWorker.step, Option.ite_none_right_eq_some, Option.some.injEq] at hs
    obtain ⟨hpos, rfl⟩ := hs
    exact h.schedEnd hpos
  | advance nanoSec =>
    cases hs
    exact { h with expired := fun k h0 ht => Nat.le_add_right_of_le (h.expired k h0 ht) }
  | expire k =>
    simp only [HighPrioWorker.step] at hs
    cases ht : s.timer k with
    | disarmed => simp only [ht] at hs; cases hs
    | expired => simp only [ht] at hs; cases hs
    | armed deadline =>
      simp only [ht, Option.ite_none_right_eq_some, Option.some.injEq] at hs
      obtain ⟨hle, rfl⟩ := hs
      refine { h with disarmed := ?_, armed := ?_, expired := ?_ }
      · intro k' ht'
        by_cases hk : k' = k
        · subst hk
          simp at ht'
        · exact h.disarmed k' (by simpa [Function.update_of_ne hk] using ht')
      · intro k' d h0 ht'
        by_cases hk : k' = k
        · subst hk
          simp at ht'
        · exact h.armed k' d h0 (by simpa [Function.update_of_ne hk] using ht')
      · intro k' h0 ht'
        by_cases hk : k' = k
        · subst hk
          exact h.armed k' deadline h0 ht ▸ hle
        · exact h.expired k' h0 (by simpa [Function.update_of_ne hk] using ht')
  | poll =>
    simp only [HighPrioWorker.step] at hs
    split at hs
    · rename_i hw
      simp only [Option.ite_none_right_eq_some, Option.some.injEq] at hs
      obtain ⟨_, rfl⟩ := hs
      refine { h with reporting := ?_, last := fun _ => h.last ?_ }
      · intro map hm
        cases hm
      · intro map hm
        rw [hw] at hm
        cases hm
    · cases hs
  | terminate =>
    simp only [HighPrioWorker.step] at hs
    split at hs
    · rename_i hw
      cases hs
      refine { h with reporting := ?_, last := fun _ => h.last ?_ }
      · intro map hm
        cases hm
      · intro map hm
        rw [hw] at hm
        cases hm
    · cases hs
  | scan =>
    simp only [HighPrioWorker.step] at hs
    split at hs
    · rename_i revents hw
      cases hs
      exact h.scan hw
    · cases hs
  | report =>
    simp only [HighPrioWorker.step] at hs
    split at hs
    · rename_i map hw
      cases hs
      have hmap := h.reporting map hw
      refine { h with reportsValid := ?_, reporting := ?_, last := fun _ => ?_ }
      · intro map' hm
        rcases List.mem_append.mp hm with hm | hm
        · exact h.reportsValid map' hm
        · rw [List.mem_singleton.mp hm, hmap]
          exact h.oldValid
      · intro map' hm
        cases hm
      · show ((s.reports ++ [map]).getLast?).getD 0#32 = s.oldBitmap
        rw [List.getLast?_concat, Option.getD_some, hmap]
    · cases hs

theorem inv_of_reachableBy (hs : machine.ReachableBy FewOutstanding s) : Inv s :=
  hs.invariant (fun _ h => h ▸ inv_init) (fun _ _ _ h hc hstep => h.step hc hstep)

/-! ## Reporting -/

/-- **Reporting loses no change and honours the hold time.**  In every run with fewer
than `2^32` tasks of a kind at a time: a bit of the bitmap is set exactly when the
count of its kind is not 0, and no bit outside the valid kinds is ever set or
reported; a scan that decides to report a bit off that was reported on last finds the
count 0 for at least the hold time; and when the worker polls with every timer disarmed, the last
reported map is the bitmap. -/
theorem reporting (s : State) (hs : machine.ReachableBy FewOutstanding s) :
    ((∀ k, s.bitmap.getLsbD k.val = true ↔ 0 < (s.count k).toNat) ∧
      (∀ k, (s.count k).toNat = s.outstanding k) ∧
      ValidBitmap s.bitmap ∧ ∀ map ∈ s.reports, ValidBitmap map) ∧
    (∀ t map k, machine.step s .scan = some t → t.worker = .reporting map →
      (lastReported s).getLsbD k.val = true → map.getLsbD k.val = false →
      s.count k = 0#32 ∧ s.zeroSince k + oneSec ≤ s.clock) ∧
    (s.worker = .polling → (∀ k, s.timer k = .disarmed) → lastReported s = s.bitmap) := by
  have h := inv_of_reachableBy hs
  refine ⟨⟨fun k => ?_, h.count, h.valid, h.reportsValid⟩, ?_, ?_⟩
  · rw [h.bit, decide_eq_true_eq, Nat.pos_iff_ne_zero, ne_eq, ne_eq, ← BitVec.toNat_inj]
    rfl
  · intro t map k hscan hmap hold hnew
    simp only [machine, step] at hscan
    split at hscan
    · rename_i revents hw
      cases hscan
      rw [h.last (fun map hm => by rw [hw] at hm; cases hm)] at hold
      unfold scan at hmap
      simp only at hmap
      split at hmap
      · cases hmap
      · cases hmap
        exact h.consumed_of_cleared hold hnew
    · cases hscan
  · intro hw hall
    rw [h.last (fun map hm => by rw [hw] at hm; cases hm)]
    exact h.oldValid.ext h.valid (fun k => h.disarmed k (hall k))

/-- What follows the start of a task: its timer goes off and the worker reports. -/
def reportRun : List Label := [.advance 1, .expire .computing, .poll, .scan, .report]

/-- A task that starts is reported, and then the last reported map is the bitmap. -/
theorem reporting_reportRun :
    ∃ s, machine.Reachable s ∧ s.reports = [1#32] ∧ lastReported s = s.bitmap := by
  let s₁ := schedStart State.init .computing
  have h₁ : machine.ReachableBy FewOutstanding s₁ :=
    .step (.initial rfl) (l := .schedStart .computing) (fun _ _ => show 0 + 1 < 2 ^ 32 by omega)
      rfl
  let s := (machine.run s₁ reportRun).get (by decide)
  have hs : machine.ReachableBy FewOutstanding s := by
    refine Machine.ReachableBy.run h₁ ?_ (Option.some_get _).symm
    intro l hl u k hk
    subst hk
    exact absurd hl (by cases k <;> decide)
  have hw : s.worker = .polling := by with_unfolding_all rfl
  have ht : ∀ k, s.timer k = .disarmed := by
    intro k
    cases k <;> decide
  exact ⟨s, hs.reachable, by decide, (reporting s hs).2.2 hw ht⟩

/-! ## The counter wraps -/

/-- After `n` calls of `SchedStart` the counter is `n` modulo `2^32` and the bit is
set. -/
theorem reachable_starts (n : Nat) : ∃ s, machine.Reachable s ∧
    s.count .computing = BitVec.ofNat 32 (n + 1) ∧
    s.bitmap.getLsbD TaskKind.computing.val = true := by
  have hbit : ∀ s : State,
      (schedStart s .computing).bitmap.getLsbD TaskKind.computing.val = true := by
    intro s
    show (assignBits s.bitmap 1#32 TaskKind.computing.mask).getLsbD _ = true
    rw [getLsbD_assignBits_mask]
    simp
  induction n with
  | zero =>
    exact ⟨schedStart State.init .computing,
      Machine.Reachable.step (l := .schedStart .computing) (.initial rfl) rfl, by decide, hbit _⟩
  | succ n ih =>
    obtain ⟨s, hs, hcount, _⟩ := ih
    refine ⟨schedStart s .computing, hs.step (l := .schedStart .computing) rfl, ?_, hbit s⟩
    show Function.update s.count .computing (s.count .computing + 1#32) .computing = _
    rw [Function.update_self, hcount]
    exact (BitVec.ofNat_add (n + 1) 1).symm

/-- **The counter is 0 and the bit set** once `2^32` tasks have started and none has
ended. -/
theorem count_wraps : ∃ s, machine.Reachable s ∧
    ¬ (s.bitmap.getLsbD TaskKind.computing.val = true ↔ 0 < (s.count .computing).toNat) := by
  obtain ⟨s, hs, hcount, hbit⟩ := reachable_starts (2 ^ 32 - 1)
  refine ⟨s, hs, fun h => ?_⟩
  have hpos := h.mp hbit
  rw [hcount, BitVec.toNat_ofNat] at hpos
  exact absurd hpos (by decide)

end HighPrioWorker
end Clpkm
