import Clpkm.Latency
import Mathlib.Algebra.Ring.Nat

/-!
# Time slices

`__clpkm_should_chkpnt` reads the clock of the device: a launch gives up when more than
`__clpkm_tlv` units of 1024 cycles have gone by since `__clpkm_init_cost_ctr`.  The unit, the
counter and the difference are 32 bits wide, and so is what the runtime makes of the daemon's
threshold.

`Timed` is the machine of `Host` with this clock in place of arbitrary answers.
`time_slices` says what the checkpoints are for.  A launch keeps its slice, however often it
is suspended in all, so that a kernel gets no more launches than its time has slices.  It
overruns its slice by no more than the latency of the kernel, as long as the two do not come
near the range of the counter.  And in the end the memory is that of the kernel as it is
written.  For the last point the answers that the clock gives in the run are a stream of
answers, with which the launches of `Host` follow the kernel (`Timed.exists_of_runs`).
-/

namespace Clpkm
open Lang Instrumentor

variable {Var Val Mem Block : Type}

/-! ## The clock of the toolkit -/

namespace Toolkit

/-- `(uint) (clock64() >> 10)` -/
def ticks (clock64 : BitVec 64) : BitVec 32 := (clock64 >>> 10).setWidth 32

/-- `__clpkm_init_cost_ctr`, which leaves this in the counter. -/
def initCostCtr (clock64 : BitVec 64) : BitVec 32 := ticks clock64

/-- `__clpkm_should_chkpnt` -/
def shouldChkpnt (clock64 : BitVec 64) (costCtr tlv : BitVec 32) : Bool :=
  decide (ticks clock64 - costCtr > tlv)

theorem toNat_ticks (t : Nat) : (ticks (BitVec.ofNat 64 t)).toNat = t / 1024 % 2 ^ 32 := by
  simp only [ticks, BitVec.toNat_setWidth, BitVec.toNat_ushiftRight, Nat.shiftRight_eq_div_pow,
    BitVec.toNat_ofNat]
  omega

/-- **The checkpoint compares the units that have begun**, in the range of the counter. -/
theorem shouldChkpnt_iff {t₀ t : Nat} (h : t₀ ≤ t) (tlv : BitVec 32) :
    shouldChkpnt (BitVec.ofNat 64 t) (initCostCtr (BitVec.ofNat 64 t₀)) tlv = true ↔
      tlv.toNat < (t / 1024 - t₀ / 1024) % 2 ^ 32 := by
  have hle : t₀ / 1024 ≤ t / 1024 := Nat.div_le_div_right h
  rw [shouldChkpnt, decide_eq_true_eq, gt_iff_lt, BitVec.lt_def, BitVec.toNat_sub, initCostCtr,
    toNat_ticks, toNat_ticks]
  have heq : (2 ^ 32 - t₀ / 1024 % 2 ^ 32 + t / 1024 % 2 ^ 32) % 2 ^ 32 =
      (t / 1024 - t₀ / 1024) % 2 ^ 32 := by omega
  rw [heq]

end Toolkit

/-- The time of a run, and what the daemon has configured. -/
structure Timing where
  /-- the cycles that have gone by, for each value of the clock of `Host` -/
  cycles : Nat → Nat
  mono : Monotone cycles
  /-- `getCRThreshold` -/
  threshold : BitVec 64

namespace Timing

def clock64 (T : Timing) (n : Nat) : BitVec 64 := BitVec.ofNat 64 (T.cycles n)

/-- `cl_uint Threshold = Srv.getCRThreshold()`, the argument `__clpkm_tlv` -/
def tlv (T : Timing) : BitVec 32 := T.threshold.setWidth 32

/-- The cycles of a slice. -/
def slice (T : Timing) : Nat := T.threshold.toNat % 2 ^ 32 * 1024

theorem slice_eq (T : Timing) : T.slice = T.tlv.toNat * 1024 := by
  rw [slice, tlv, BitVec.toNat_setWidth]

end Timing

/-! ## The machine -/

/-- The work-item with its cost counter; `began` is the time at which the launch that is running
has begun. -/
structure Timed (Var Val Mem : Type) where
  host : Host Var Val Mem
  /-- `__clpkm_ctr` -/
  costCtr : BitVec 32
  began : Nat

namespace Timed

def init (m : Mem) : Timed Var Val Mem := ⟨Host.init m, 0#32, 0⟩

/-- The answers of `__clpkm_should_chkpnt` with the counter of the moment. -/
def answers (T : Timing) (env : Env Var Val) (s : Timed Var Val Mem) : Env Var Val :=
  { env with shouldChkpnt := fun n => Toolkit.shouldChkpnt (T.clock64 n) s.costCtr T.tlv }

variable [DecidableEq Var] (I : Interp Val Mem) (K : Kernel Var Val) (C : Clang Var Val Block)
  (env : Env Var Val) (T : Timing)

/-- A step; a launch sets the counter. -/
def step (s : Timed Var Val Mem) : Option (Timed Var Val Mem) := do
  let h ← s.host.step I K C (s.answers T env)
  return if s.host.device.isNone then
    ⟨h, Toolkit.initCostCtr (T.clock64 h.clock), T.cycles h.clock⟩
  else { s with host := h }

/-- Any number of steps. -/
def Runs : Timed Var Val Mem → Timed Var Val Mem → Prop :=
  Relation.ReflTransGen fun s s' => s.step I K C env T = some s'

end Timed

/-! ## One step of the host -/

section step
variable [DecidableEq Var] {I : Interp Val Mem} {K : Kernel Var Val} {C : Clang Var Val Block}
  {env : Env Var Val}

/-- What one step can do: launch the kernel, end with it, test a checkpoint, or go on. -/
theorem Host.step_cases {s s' : Host Var Val Mem} (h : s.step I K C env = some s') :
    (s.device = none ∧ s.hdr ≠ 0 ∧ s' = { s with
      launches := s.launches + 1, clock := s.clock + 1, device := s.enter K C env }) ∨
    (∃ σ, s.device = some (.fin, σ) ∧ s' = { s with hdr := 0, device := none }) ∨
    (∃ h c b k σ, s.device = some (.done (.loop h (some c) b k), σ) ∧
      (env.shouldChkpnt s.clock = true ∧ s' = { s with
          hdr := c.nonce, prv := K.storePrivate c.saved σ s.prv, clock := s.clock + 1,
          device := none } ∨
        env.shouldChkpnt s.clock = false ∧ s' = { s with
          clock := s.clock + 1, device := some (.next h (some c) b k, σ) })) ∨
    (∃ ctl σ t σ' m ctl', s.device = some (ctl, σ) ∧ tests ctl = false ∧
      ctl.action.run I (env.garbage s.clock) σ s.mem = some (t, σ', m) ∧
      ctl.step t = some ctl' ∧
      s' = { s with mem := m, clock := s.clock + 1, device := some (ctl', σ') }) := by
  have hplain : ∀ {ctl : Ctl Var Val (Option (Chkpnt Var))} {σ : Store Var Val},
      ((ctl.action.run I (env.garbage s.clock) σ s.mem).bind fun r => (ctl.step r.1).bind fun ctl =>
        some { s with
          mem := r.2.2, clock := s.clock + 1, device := some (ctl, r.2.1) }) = some s' →
      ∃ t σ' m ctl', ctl.action.run I (env.garbage s.clock) σ s.mem = some (t, σ', m) ∧
        ctl.step t = some ctl' ∧
        s' = { s with mem := m, clock := s.clock + 1, device := some (ctl', σ') } := by
    intro ctl σ h
    obtain ⟨⟨t, σ', m⟩, hr, h⟩ := Option.bind_eq_some_iff.mp h
    obtain ⟨ctl', hs, h⟩ := Option.bind_eq_some_iff.mp h
    exact ⟨t, σ', m, ctl', hr, hs, (Option.some.inj h).symm⟩
  unfold step at h
  match hd : s.device with
  | none =>
    rw [hd] at h
    by_cases h0 : s.hdr = 0
    · rw [if_pos h0] at h
      cases h
    · rw [if_neg h0] at h
      exact .inl ⟨rfl, h0, (Option.some.inj h).symm⟩
  | some (.fin, σ) =>
    rw [hd] at h
    exact .inr (.inl ⟨σ, rfl, (Option.some.inj h).symm⟩)
  | some (.done (.loop hl (some c) b k), σ) =>
    rw [hd] at h
    dsimp only at h
    refine .inr (.inr (.inl ⟨hl, c, b, k, σ, rfl, ?_⟩))
    by_cases ha : env.shouldChkpnt s.clock = true
    · rw [if_pos ha] at h
      exact .inl ⟨ha, (Option.some.inj h).symm⟩
    · rw [if_neg ha] at h
      exact .inr ⟨Bool.eq_false_of_not_eq_true ha, (Option.some.inj h).symm⟩
  | some (.exec _ _, σ) | some (.done .stop, σ) | some (.done (.seq _ _), σ)
  | some (.done (.loop _ none _ _), σ) | some (.brk _, σ) | some (.cont _, σ)
  | some (.next _ _ _ _, σ) | some (.test _ _ _ _, σ) =>
    rw [hd] at h
    obtain ⟨t, σ', m, ctl', hr, hs, hs'⟩ := hplain h
    exact .inr (.inr (.inr ⟨_, σ, t, σ', m, ctl', rfl, rfl, hr, hs, hs'⟩))

/-- What Clang evaluates a condition to is what it is in every run. -/
def Instrumentor.Clang.Sound (C : Clang Var Val Block) (I : Interp Val Mem) : Prop :=
  ∀ e t, C.evaluate e = some t → ∀ σ m a σ' m', e.eval I σ m = some (a, σ', m') → I.truthy a = t

theorem allowed_of_run (hsound : C.Sound I) {x : Action Var Val} {g σ σ' : Store Var Val}
    {m m' : Mem} {t : Bool} (hr : x.run I g σ m = some (t, σ', m')) : Allowed C x t := by
  cases x with
  | pass | forget x =>
    cases hr
    rfl
  | init x e =>
    simp only [Action.run, Option.bind_eq_bind, Option.bind_eq_some_iff] at hr
    obtain ⟨_, _, hr⟩ := hr
    cases hr
    rfl
  | eval e =>
    simp only [Action.run, Option.bind_eq_bind, Option.bind_eq_some_iff] at hr
    obtain ⟨⟨a, τ, n⟩, he, hr⟩ := hr
    cases hr
    intro heval
    have htruthy := hsound e _ heval _ _ _ _ _ he
    cases hb : I.truthy a <;> rw [hb] at htruthy <;> cases htruthy

end step

/-! ## Invariant -/

section invariant
variable (K : Kernel Var Val) (C : Clang Var Val Block) (T : Timing)

/-- No launch is running.  Unless the kernel is done, the header leads into it, and every launch
so far has had its slice. -/
structure Timed.Paused (s : Timed Var Val Mem) : Prop where
  device : s.host.device = none
  entry : s.host.hdr ≠ 0 → s.host.hdr = 1 ∨ ∃ E h p b k,
    (K.root C).Inside ⟨E, .loop h (some p) b, k⟩ ∧ s.host.hdr = p.nonce
  spent : s.host.hdr ≠ 0 →
    s.host.launches * T.slice + T.cycles 0 ≤ T.cycles s.host.clock
  spentBefore : (s.host.launches - 1) * T.slice + T.cycles 0 ≤ T.cycles s.host.clock

/-- A launch is running.  Every launch before has had its slice, and it is at most `j` steps since
this one has last found that it may go on, at the time `tested`. -/
structure Timed.Running (q : Nat) (s : Timed Var Val Mem)
    (ctl : Ctl Var Val (Option (Chkpnt Var))) (σ : Store Var Val) : Prop where
  device : s.host.device = some (ctl, σ)
  scope : ∃ E, ctl.Scope (K.root C) E
  fits : K.Fits C ctl
  spent : (s.host.launches - 1) * T.slice + T.cycles 0 ≤ s.began
  costCtr : s.costCtr = Toolkit.initCostCtr (BitVec.ofNat 64 s.began)
  last : ∃ tested j d, s.began ≤ tested ∧ tested < s.began + T.slice + 1024 ∧
    tested ≤ T.cycles s.host.clock ∧ T.cycles s.host.clock ≤ tested + q * j ∧
    TestsWithin C d ctl ∧ d + j ≤ K.latency

variable {K C T} {env : Env Var Val} {q : Nat} {s s' : Timed Var Val Mem}
  {ctl : Ctl Var Val (Option (Chkpnt Var))} {σ : Store Var Val}

namespace Timed

theorem Running.began_le (h : Running K C T q s ctl σ) : s.began ≤ T.cycles s.host.clock := by
  obtain ⟨tested, j, d, hbegan, _, hle, _⟩ := h.last
  exact hbegan.trans hle

/-- **A launch overruns its slice by no more than the latency.** -/
theorem Running.lt (h : Running K C T q s ctl σ) :
    T.cycles s.host.clock < s.began + T.slice + 1024 + q * K.latency := by
  obtain ⟨tested, j, d, _, hlt, _, hle, _, hj⟩ := h.last
  have hq : q * j ≤ q * K.latency := Nat.mul_le_mul_left q (by omega)
  omega

/-- A launch that gives up has had its slice. -/
theorem Running.slice_le (h : Running K C T q s ctl σ)
    (ha : (s.answers T env).shouldChkpnt s.host.clock = true) :
    s.began + T.slice ≤ T.cycles s.host.clock := by
  have hlt : T.tlv.toNat < (T.cycles s.host.clock / 1024 - s.began / 1024) % 2 ^ 32 := by
    rw [← Toolkit.shouldChkpnt_iff h.began_le, ← h.costCtr]
    exact ha
  have := Nat.mod_le (T.cycles s.host.clock / 1024 - s.began / 1024) (2 ^ 32)
  rw [T.slice_eq]
  omega

/-- A launch that goes on is still in its slice. -/
theorem Running.lt_slice (hsmall : T.slice + q * K.latency + 2048 ≤ 2 ^ 42)
    (h : Running K C T q s ctl σ)
    (ha : (s.answers T env).shouldChkpnt s.host.clock = false) :
    T.cycles s.host.clock < s.began + T.slice + 1024 := by
  have hlt : ¬T.tlv.toNat < (T.cycles s.host.clock / 1024 - s.began / 1024) % 2 ^ 32 := by
    rw [← Toolkit.shouldChkpnt_iff h.began_le, ← h.costCtr]
    exact ne_true_of_eq_false ha
  -- the difference does not leave the range of the counter
  have hbound := h.lt
  have hmod : (T.cycles s.host.clock / 1024 - s.began / 1024) % 2 ^ 32 =
      T.cycles s.host.clock / 1024 - s.began / 1024 := Nat.mod_eq_of_lt (by omega)
  rw [hmod] at hlt
  rw [T.slice_eq]
  omega

/-- Between two launches, or in one of them. -/
inductive Inv (K : Kernel Var Val) (C : Clang Var Val Block) (T : Timing) (q : Nat)
    (s : Timed Var Val Mem) : Prop
  | paused (h : Paused K C T s)
  | running (ctl : Ctl Var Val (Option (Chkpnt Var))) (σ : Store Var Val)
      (h : Running K C T q s ctl σ)

theorem Inv.init (m : Mem) : Inv K C T q (init m : Timed Var Val Mem) :=
  .paused ⟨rfl, fun _ => .inl rfl, fun _ => (Nat.zero_mul T.slice ▸ Nat.zero_add _).le,
    (Nat.zero_mul T.slice ▸ Nat.zero_add _).le⟩

variable [DecidableEq Var] {I : Interp Val Mem}

/-- What a step of the machine does to the counter. -/
theorem step_eq_some_iff : s.step I K C env T = some s' ↔
    ∃ h, s.host.step I K C (s.answers T env) = some h ∧
      s' = if s.host.device.isNone then
        ⟨h, Toolkit.initCostCtr (T.clock64 h.clock), T.cycles h.clock⟩
      else { s with host := h } := by
  simp only [step, Option.bind_eq_bind, Option.bind_eq_some_iff, Option.pure_def, Option.some_inj]
  constructor
  · rintro ⟨h, hh, rfl⟩
    exact ⟨h, hh, rfl⟩
  · rintro ⟨h, hh, rfl⟩
    exact ⟨h, hh, rfl⟩

/-- A launch begins where the header leads. -/
theorem Paused.launch (htested : everyLoopTested C K.body = true) (env : Env Var Val)
    (h : Paused K C T s) (h0 : s.host.hdr ≠ 0) :
    ∃ ctl σ, s.host.enter K C (s.answers T env) = some (ctl, σ) ∧ (∃ E, ctl.Scope (K.root C) E) ∧
      K.Fits C ctl := by
  rcases h.entry h0 with h1 | ⟨E, hl, p, b, k, hin, hp⟩
  · refine ⟨.exec (K.instrument C) .stop, _, if_pos h1, ⟨K.params, .refl⟩, ?_⟩
    exact K.fits_of_inside (q := K.root C) htested .refl
  · have hlabel : findLabel p.nonce (K.instrument C) .stop = some (p, .next hl (some p) b k) :=
      findLabel_eq hin (nodup_labels C K.body K.params 1)
    have hn := Kernel.two_le_nonce hin
    have hfits : K.Fits C (.next hl (some p) b k) := K.fits_of_inside htested hin
    refine ⟨.next hl (some p) b k, K.loadPrivate p.saved s.host.prv
      (K.entryStore env.args (env.garbage s.host.clock)), ?_, ⟨E, hin⟩, hfits⟩
    unfold Host.enter
    rw [if_neg (by omega), hp, hlabel]
    rfl

/-- A launch. -/
theorem Paused.step (htested : everyLoopTested C K.body = true) (h : Paused K C T s)
    (hs : s.step I K C env T = some s') : Inv K C T q s' := by
  obtain ⟨h', hh, rfl⟩ := step_eq_some_iff.mp hs
  rw [h.device]
  rcases Host.step_cases hh with ⟨_, h0, rfl⟩ | ⟨σ, hd, _⟩ | ⟨_, _, _, _, σ, hd, _⟩ |
    ⟨_, σ, _, _, _, _, hd, _⟩
  · obtain ⟨ctl, σ, henter, hscope, hfits⟩ := h.launch htested env h0
    obtain ⟨n, hn, hdeadline⟩ := hfits.testsWithin
    have hspent := h.spent h0
    have hmono := T.mono (Nat.le_succ s.host.clock)
    refine .running ctl σ ⟨henter, hscope, hfits, ?_, rfl, ?_⟩
    · exact hspent.trans hmono
    · exact ⟨_, 0, n, Nat.le_refl _, by simp only [Option.isNone_none, if_true]; omega,
        Nat.le_refl _, Nat.le_refl _, hdeadline, by omega⟩
  · rw [h.device] at hd
    cases hd
  · rw [h.device] at hd
    cases hd
  · rw [h.device] at hd
    cases hd

/-- A step of a launch. -/
theorem Running.step (hsound : C.Sound I) (hsmall : T.slice + q * K.latency + 2048 ≤ 2 ^ 42)
    (hq : T.cycles (s.host.clock + 1) ≤ T.cycles s.host.clock + q)
    (h : Running K C T q s ctl σ) (hs : s.step I K C env T = some s') : Inv K C T q s' := by
  obtain ⟨h', hh, rfl⟩ := step_eq_some_iff.mp hs
  have hmono : T.cycles s.host.clock ≤ T.cycles (s.host.clock + 1) := T.mono (Nat.le_succ _)
  rw [h.device]
  rcases Host.step_cases hh with ⟨hd, _⟩ | ⟨σ', hd, rfl⟩ | ⟨hl, c, b, k, σ', hd, htest⟩ |
    ⟨ctl', σ', t, τ, m, ctl'', hd, htests, hr, hstep, rfl⟩
  · rw [h.device] at hd
    cases hd
  · refine .paused ⟨rfl, fun h0 => absurd rfl h0, fun h0 => absurd rfl h0, ?_⟩
    exact h.spent.trans h.began_le
  -- a checkpoint, with the answer of the clock
  · rw [h.device] at hd
    cases hd
    obtain ⟨E, hin⟩ := h.scope
    rcases htest with ⟨ha, rfl⟩ | ⟨ha, rfl⟩
    · have hslice := h.slice_le ha
      have hspent := h.spent
      have hlaunches : s.host.launches * T.slice ≤ (s.host.launches - 1) * T.slice + T.slice := by
        rw [← Nat.succ_mul]
        exact Nat.mul_le_mul_right _ (by omega)
      refine .paused ⟨rfl, fun _ => .inr ⟨E, hl, c, b, k, hin, rfl⟩, fun _ => ?_, ?_⟩
      · show s.host.launches * T.slice + T.cycles 0 ≤ T.cycles (s.host.clock + 1)
        omega
      · show (s.host.launches - 1) * T.slice + T.cycles 0 ≤ T.cycles (s.host.clock + 1)
        omega
    · have hfits : K.Fits C (.next hl (some c) b k) := h.fits
      obtain ⟨n, hn, hdeadline⟩ := hfits.testsWithin
      refine .running _ σ ⟨rfl, ⟨E, hin⟩, hfits, h.spent, h.costCtr, ?_⟩
      exact ⟨_, 1, n, h.began_le, h.lt_slice hsmall ha, hmono, by rw [Nat.mul_one]; exact hq,
        hdeadline, hn.le⟩
  · rw [h.device] at hd
    cases hd
    obtain ⟨E, hE⟩ := h.scope
    obtain ⟨E', hE', _⟩ := hE.step rfl hstep
    obtain ⟨tested, j, d, hbegan, hlt, hle, hsince, hdeadline, hj⟩ := h.last
    obtain ⟨d', rfl, hdeadline'⟩ := hdeadline.step (by rw [htests]; exact Bool.false_ne_true)
      ⟨t, allowed_of_run hsound hr, hstep⟩
    refine .running ctl'' τ ⟨rfl, ⟨E', hE'⟩, FitsCtl.step h.fits hstep, h.spent, h.costCtr, ?_⟩
    refine ⟨tested, j + 1, d', hbegan, hlt, hle.trans hmono, ?_, hdeadline', by omega⟩
    show T.cycles (s.host.clock + 1) ≤ _
    rw [Nat.mul_add, Nat.mul_one]
    omega

/-- The invariant holds over a whole run. -/
theorem Inv.runs (hsound : C.Sound I) (htested : everyLoopTested C K.body = true)
    (hsmall : T.slice + q * K.latency + 2048 ≤ 2 ^ 42) {m : Mem}
    (hq : ∀ s, (Timed.init m).Runs I K C env T s → s.host.device ≠ none →
      T.cycles (s.host.clock + 1) ≤ T.cycles s.host.clock + q)
    (hs : (Timed.init m).Runs I K C env T s) : Inv K C T q s := by
  induction hs with
  | refl => exact .init m
  | tail hr hstep ih =>
    cases ih with
    | paused h => exact h.step htested hstep
    | running ctl σ h =>
      refine h.step hsound hsmall (hq _ hr ?_) hstep
      rw [h.device]
      exact Option.some_ne_none _

end Timed
end invariant

/-! ## The answers of the clock as a stream -/

section stream
variable [DecidableEq Var] {I : Interp Val Mem} {K : Kernel Var Val} {C : Clang Var Val Block}
  {env : Env Var Val} {T : Timing} {m : Mem} {s s' : Timed Var Val Mem}

/-- The launch that is running is about to test a checkpoint. -/
def Host.AtTest (s : Host Var Val Mem) : Prop :=
  ∃ h c b k σ, s.device = some (.done (.loop h (some c) b k), σ)

/-- Only a test asks for an answer. -/
theorem Host.step_congr {s : Host Var Val Mem} {f g : Nat → Bool}
    (h : s.AtTest → f s.clock = g s.clock) :
    s.step I K C { env with shouldChkpnt := f } = s.step I K C { env with shouldChkpnt := g } := by
  unfold step
  match hd : s.device with
  | some (.done (.loop hl (some c) b k), σ) =>
    simp only [h ⟨hl, c, b, k, σ, hd⟩]
  | none | some (.fin, σ) | some (.exec _ _, σ) | some (.done .stop, σ)
  | some (.done (.seq _ _), σ) | some (.done (.loop _ none _ _), σ) | some (.brk _, σ)
  | some (.cont _, σ) | some (.next _ _ _ _, σ) | some (.test _ _ _ _, σ) => rfl

namespace Timed

/-- The clock does not go back, and it does not stand still at a test. -/
theorem clock_step (h : s.step I K C env T = some s') :
    s.host.clock ≤ s'.host.clock ∧ (s.host.AtTest → s.host.clock < s'.host.clock) := by
  obtain ⟨h', hh, rfl⟩ := step_eq_some_iff.mp h
  have hhost : ∀ b : Bool, (if b = true then
      (⟨h', Toolkit.initCostCtr (T.clock64 h'.clock), T.cycles h'.clock⟩ : Timed Var Val Mem)
    else { s with host := h' }).host = h' := by
    intro b
    cases b <;> rfl
  rw [hhost]
  rcases Host.step_cases hh with ⟨_, _, rfl⟩ | ⟨σ, hd, rfl⟩ |
    ⟨_, _, _, _, _, _, ⟨_, rfl⟩ | ⟨_, rfl⟩⟩ | ⟨_, _, _, _, _, _, _, _, _, _, rfl⟩
  · exact ⟨Nat.le_succ _, fun _ => Nat.lt_succ_self _⟩
  · refine ⟨Nat.le_refl _, ?_⟩
    rintro ⟨hl, c, b, k, σ', hd'⟩
    rw [hd] at hd'
    cases hd'
  · exact ⟨Nat.le_succ _, fun _ => Nat.lt_succ_self _⟩
  · exact ⟨Nat.le_succ _, fun _ => Nat.lt_succ_self _⟩
  · exact ⟨Nat.le_succ _, fun _ => Nat.lt_succ_self _⟩

theorem Runs.clock_le (h : s.Runs I K C env T s') : s.host.clock ≤ s'.host.clock := by
  induction h with
  | refl => exact Nat.le_refl _
  | tail _ hs ih => exact ih.trans (clock_step hs).1

/-- A run comes to a test once at most with one reading of the clock. -/
theorem Runs.eq_of_atTest (h : s.Runs I K C env T s') (ht : s.host.AtTest)
    (hc : s.host.clock = s'.host.clock) : s = s' := by
  rcases Relation.ReflTransGen.cases_head h with rfl | ⟨u, hu, h'⟩
  · rfl
  · have := (clock_step hu).2 ht
    have := Runs.clock_le h'
    omega

open Classical in
/-- The answers that are given in the run from the start. -/
noncomputable def stream (I : Interp Val Mem) (K : Kernel Var Val) (C : Clang Var Val Block)
    (env : Env Var Val) (T : Timing) (m : Mem) (n : Nat) : Bool :=
  decide (∃ s, (Timed.init m).Runs I K C env T s ∧ s.host.AtTest ∧ s.host.clock = n ∧
    (s.answers T env).shouldChkpnt n = true)

theorem stream_eq (h : (Timed.init m).Runs I K C env T s) (ht : s.host.AtTest) :
    stream I K C env T m s.host.clock = (s.answers T env).shouldChkpnt s.host.clock := by
  classical
  rw [Bool.eq_iff_iff]
  unfold stream
  constructor
  · intro hdec
    obtain ⟨s', h', ht', hc, ha⟩ := of_decide_eq_true hdec
    have hunique : Relator.RightUnique
        (fun s s' : Timed Var Val Mem => s.step I K C env T = some s') :=
      fun _ _ _ h₁ h₂ => Option.some.inj (h₁.symm.trans h₂)
    have heq : s = s' := by
      rcases Relation.ReflTransGen.total_of_right_unique hunique h h' with hr | hr
      · exact Runs.eq_of_atTest hr ht hc.symm
      · exact (Runs.eq_of_atTest hr ht' hc).symm
    subst heq
    exact ha
  · exact fun ha => decide_eq_true ⟨s, h, ht, rfl, ha⟩

/-- **Where launches with this stream of answers get, the clock gets.** -/
theorem exists_of_runs {h : Host Var Val Mem}
    (hr : (Host.init m).Runs I K C { env with shouldChkpnt := stream I K C env T m } h) :
    ∃ s, (Timed.init m).Runs I K C env T s ∧ s.host = h := by
  induction hr with
  | refl => exact ⟨_, .refl, rfl⟩
  | tail _ hs ih =>
    obtain ⟨s, hr, rfl⟩ := ih
    rw [Host.step_congr fun ht => stream_eq hr ht] at hs
    refine ⟨_, hr.tail (step_eq_some_iff.mpr ⟨_, hs, rfl⟩), ?_⟩
    cases s.host.device <;> rfl

end Timed
end stream

/-- **Time slices.**  Let every loop that may repeat be tested, and a step of a launch take at most
`q` cycles.  As long as slice and latency stay within the range of the counter, a launch is over
at most the latency after its slice, and with each launch but the last a slice of time has gone
by.  When every suspension brings back what is needed and the kernel as it is written returns, so
does the kernel with the clock, with the same memory. -/
theorem time_slices [DecidableEq Var] {I : Interp Val Mem} {C : Clang Var Val Block}
    {K : Kernel Var Val} (hsound : C.Sound I) (htested : everyLoopTested C K.body = true)
    (env : Env Var Val) (T : Timing) (m : Mem) {q : Nat}
    (hq : ∀ s, (Timed.init m).Runs I K C env T s → s.host.device ≠ none →
      T.cycles (s.host.clock + 1) ≤ T.cycles s.host.clock + q)
    (hsmall : T.slice + q * K.latency + 2048 ≤ 2 ^ 42) :
    (∀ s, (Timed.init m).Runs I K C env T s →
      (s.host.device ≠ none →
        T.cycles s.host.clock < s.began + T.slice + 1024 + q * K.latency) ∧
      (s.host.launches - 1) * T.slice ≤ T.cycles s.host.clock - T.cycles 0) ∧
    (Restores I C K env.args → ∀ c, (K.start env.args m).Runs I c → c.ctl = .fin →
      ∃ s, (Timed.init m).Runs I K C env T s ∧ s.host.device = none ∧ s.host.hdr = 0 ∧
        s.host.mem = c.mem ∧ s.host.launches ≤ c.iters + 1) := by
  constructor
  · intro s hs
    cases Timed.Inv.runs hsound htested hsmall hq hs with
    | paused h =>
      refine ⟨fun hd => absurd h.device hd, ?_⟩
      have := h.spentBefore
      omega
    | running ctl σ h =>
      refine ⟨fun _ => h.lt, ?_⟩
      have := h.spent
      have := h.began_le
      omega
  · intro hK c hrun hfin
    obtain ⟨h, ctl, σ, hr, hS⟩ :=
      Restores.runs { env with shouldChkpnt := Timed.stream I K C env T m } hK hrun
    obtain ⟨s, hs, heq⟩ := Timed.exists_of_runs (hr.tail (hS.step_fin hfin))
    have hlaunches := hS.launches
    rw [hfin] at hlaunches
    exact ⟨s, hs, by rw [heq], by rw [heq], by rw [heq]; exact hS.mem, by rw [heq]; exact hlaunches⟩

namespace CountKernel

/-- 600 cycles for each step, and slices of 2048 cycles -/
def timing : Timing where
  cycles n := 600 * n
  mono _ _ h := Nat.mul_le_mul_left 600 h
  threshold := 2#64

/-- The two rounds in slices. -/
theorem time_slices_count :
    (∀ s, (Timed.init fun _ => 0).Runs interp kernel clang env timing s →
      (s.host.device ≠ none → timing.cycles s.host.clock < s.began + 2048 + 1024 + 18000) ∧
      (s.host.launches - 1) * 2048 ≤ timing.cycles s.host.clock) ∧
    ∃ s, (Timed.init fun _ => 0).Runs interp kernel clang env timing s ∧ s.host.device = none ∧
      s.host.hdr = 0 ∧ [1, 2, 3].map s.host.mem = [1, 2, 0] ∧ s.host.launches ≤ 3 := by
  obtain ⟨hbounds, hmem⟩ := time_slices (I := interp) (C := clang) (K := kernel)
    (fun _ _ h => by cases h) rfl env timing (fun _ => 0) (q := 600)
    (fun _ _ _ => Nat.le_refl _) (by decide)
  refine ⟨hbounds, ?_⟩
  obtain ⟨s, hs, hd, hh, hm, hl⟩ := hmem restores _
    ((kernel.start env.args fun _ => 0).runs_run interp 30) (by with_unfolding_all rfl)
  refine ⟨s, hs, hd, hh, ?_, hl⟩
  rw [hm]
  with_unfolding_all rfl

end CountKernel
end Clpkm
