import Clpkm.Device.Counters

/-!
# The phases of a launch

The work-items of a group go from barrier to barrier together, so a launch is a
sequence of phases, and in each phase a work-item can be at few places.

* `entry`: before `InitBarrier`;
* `run`: in the code of the kernel's author, on the way to a barrier or to the exit;
* `mid`: some work-items have counted themselves off at sites and are about to read how
  many are missing, the others are at the exit;
* `pass`: nobody is missing, all go on;
* `tail`: `k` work-items leave from the barrier, after those that were at the exit;
* `tailDec`, `tailEnd`: the last `k` work-items count themselves off, and save.

All work-items of a group are at the same level `p`: they have passed `p` barriers or
are about to in this launch, and have arrived at no more than one more.
-/

namespace Clpkm
namespace Device
open Locfefe

variable {B : Nat}

section
variable (code : Code B) (n : Nat)

/-- What the header says of a work-item that has nothing more to do in a launch. -/
inductive Settled (p : Nat) (w : Wi B) : Prop
  /-- suspended in a loop -/
  | suspended (hc : code.case w.hdr = some .loop) (ha : w.arrived = p) (hp : w.passed = p)
  /-- stopped at a barrier -/
  | stopped {j : Fin B} (hj : w.sites p = some j) (hh : w.hdr = -code.nonce j)
      (ha : w.arrived = p + 1) (hp : w.passed = p)
  /-- at the end -/
  | finished (hs : w.sites p = none) (hh : w.hdr = 0) (ha : w.arrived = p) (hp : w.passed = p)

/-- What the header says of a work-item at the start of a launch, the first or a later
one. -/
inductive Ready : Bool → Nat → Wi B → Prop
  | fresh {w : Wi B} (hh : w.hdr = 1) (ha : w.arrived = 0) (hp : w.passed = 0) : Ready true 0 w
  | settled {p : Nat} {w : Wi B} (h : Settled code p w) : Ready false p w
  /-- about to go on behind a barrier -/
  | passing {p : Nat} {w : Wi B} {j : Fin B} (hj : w.sites p = some j) (hh : w.hdr = code.nonce j)
      (ha : w.arrived = p + 1) (hp : w.passed = p) : Ready false (p + 1) w

/-- The work-item has arrived at the barrier behind level `p`, at site `j`. -/
def Stopping (p : Nat) (j : Fin B) (w : Wi B) : Prop :=
  w.sites p = some j ∧ w.arrived = p + 1 ∧ w.passed = p

/-- The work-items before `InitBarrier`; `loaded` when local memory has been reloaded. -/
def EntryOk (first : Bool) (p : Nat) (loaded : Bool) (w : Wi B) : Prop :=
  match w.pc with
  | .init => loaded = false ∧ Ready code first p w
  | .reload =>
    loaded = false ∧ code.hasLocal = true ∧ first = false ∧ Ready code first p w
  | .entryBarrier =>
    (loaded = true ∨ code.hasLocal = false ∨ first = true) ∧ Ready code first p w
  | _ => False

def RunOk (first : Bool) (p : Nat) (w : Wi B) : Prop :=
  match w.pc with
  | .init => code.initBarrier = false ∧ Ready code first p w
  | .entry => Ready code first p w
  | .run => w.arrived = p ∧ w.passed = p
  | .stop1 j => Stopping p j w
  | .exit => Settled code p w
  | .exit1 batch => Settled code p w ∧ code.hasLocal = true ∧ batch = n
  | .returned _ stored => Settled code p w ∧ code.hasLocal = false ∧ stored = false
  | _ => False

/-- `stop` is the value of `__clpkm_barrier_stop`, which does not change in this phase. -/
def MidOk (p : Nat) (stop : Fin B → Nat) (w : Wi B) : Prop :=
  match w.pc with
  | .readRemain j => Stopping p j w
  | .stop2 j remain => Stopping p j w ∧ remain = stop j
  | .exitDec batch | .exit2 batch _ => Settled code p w ∧ code.hasLocal = true ∧ batch = n
  | .returned _ stored => Settled code p w ∧ code.hasLocal = false ∧ stored = false
  | _ => False

def PassOk (p : Nat) (w : Wi B) : Prop :=
  match w.pc with
  | .atomicInc j remain => Stopping p j w ∧ remain = 0
  | .orig j => Stopping p j w
  | _ => False

def TailOk (p k : Nat) (w : Wi B) : Prop :=
  match w.pc with
  | .atomicInc j remain => Stopping p j w ∧ remain ≠ 0
  | .exit => Settled code p w
  | .exit1 batch => Settled code p w ∧ code.hasLocal = true ∧ batch = k
  | .exitTest _ _ => Settled code p w ∧ code.hasLocal = true
  | .returned e stored =>
    Settled code p w ∧ stored = false ∧ (code.hasLocal = true → e.isSome = true)
  | _ => False

def TailDecOk (p k : Nat) (w : Wi B) : Prop :=
  match w.pc with
  | .exitDec batch => Settled code p w ∧ batch = k
  | .exit2 batch id => Settled code p w ∧ batch = k ∧ id < k
  | .returned e stored =>
    Settled code p w ∧ stored = false ∧ ∃ batch id, e = some (batch, id) ∧ k ≤ id
  | _ => False

def TailEndOk (p k : Nat) (w : Wi B) : Prop :=
  match w.pc with
  | .exitTest batch id | .store batch id => Settled code p w ∧ batch = k ∧ id < k
  | .returned e stored =>
    Settled code p w ∧ ∃ batch id, e = some (batch, id) ∧
      (stored = true → batch = k ∧ id < k) ∧ (stored = false → k ≤ id)
  | _ => False

end

variable {code : Code B} {n i : Nat} {w w' : Wi B}
  {sh sh' : Shared B}

/-! ## Headers and levels -/

theorem Settled.of_pc {p : Nat} (h : Settled code p w) (pc : Pc B) :
    Settled code p ⟨w.hdr, pc, w.arrived, w.passed, w.sites⟩ := by
  cases h with
  | suspended hc ha hp => exact .suspended hc ha hp
  | stopped hj hh ha hp => exact .stopped hj hh ha hp
  | finished hs hh ha hp => exact .finished hs hh ha hp

theorem Ready.of_pc {first : Bool} {p : Nat} (h : Ready code first p w) (pc : Pc B) :
    Ready code first p ⟨w.hdr, pc, w.arrived, w.passed, w.sites⟩ := by
  cases h with
  | fresh hh ha hp => exact .fresh hh ha hp
  | settled h => exact .settled (h.of_pc pc)
  | passing hj hh ha hp => exact .passing hj hh ha hp

/-- The level lies between the barriers passed and those arrived at. -/
theorem Settled.level {p : Nat} (h : Settled code p w) : w.passed ≤ p ∧ p ≤ w.arrived := by
  cases h <;> omega

theorem Ready.level {first : Bool} {p : Nat} (h : Ready code first p w) :
    w.passed ≤ p ∧ p ≤ w.arrived := by
  cases h with
  | fresh hh ha hp => omega
  | settled h => exact h.level
  | passing hj hh ha hp => omega

theorem Stopping.level {p : Nat} {j : Fin B} (h : Stopping p j w) :
    w.passed ≤ p ∧ p ≤ w.arrived := by
  obtain ⟨_, ha, hp⟩ := h
  omega

theorem Code.two_le_nonce (code : Code B) (j : Fin B) : 2 ≤ code.nonce j :=
  code.two_le _ _ (code.case_nonce j)

/-- The header is 1 in the first launch only. -/
theorem Ready.hdr_eq_one_iff {first : Bool} {p : Nat} (h : Ready code first p w) :
    w.hdr = 1 ↔ first = true := by
  cases h with
  | fresh hh ha hp => exact ⟨fun _ => rfl, fun _ => hh⟩
  | settled h =>
    refine ⟨fun h1 => ?_, fun hf => nomatch hf⟩
    cases h with
    | suspended hc ha hp =>
      have := code.two_le _ _ hc
      omega
    | @stopped j hj hh ha hp =>
      have := code.two_le_nonce j
      omega
    | finished hs hh ha hp => omega
  | @passing p w j hj hh ha hp =>
    refine ⟨fun h1 => ?_, fun hf => nomatch hf⟩
    have := code.two_le_nonce j
    omega

theorem Code.hasLocal_of_initBarrier (h : code.initBarrier = false) :
    code.hasLocal = false ∧ B = 0 := by
  unfold initBarrier at h
  rw [Bool.or_eq_false_iff, decide_eq_false_iff_not] at h
  exact ⟨h.1, by omega⟩

/-- The switch leads to the code behind the level. -/
theorem RunOk.enter {first : Bool} {p : Nat} (h : Ready code first p w) :
    RunOk code n first p (w.enter code) := by
  cases h with
  | fresh hh ha hp =>
    rw [Wi.enter, if_pos hh]
    exact ⟨ha, hp⟩
  | settled h =>
    have h1 : w.hdr ≠ 1 := fun h1 => nomatch (Ready.settled h).hdr_eq_one_iff.mp h1
    rw [Wi.enter, if_neg h1]
    cases h with
    | suspended hc ha hp =>
      rw [hc]
      exact ⟨ha, hp⟩
    | @stopped j hj hh ha hp =>
      have hnone : code.case w.hdr = none := by
        cases hc : code.case w.hdr with
        | none => rfl
        | some c =>
          have := code.two_le _ _ hc
          have := code.two_le_nonce j
          omega
      rw [hnone]
      exact .stopped hj hh ha hp
    | finished hs hh ha hp =>
      have hnone : code.case w.hdr = none := by
        cases hc : code.case w.hdr with
        | none => rfl
        | some c =>
          have := code.two_le _ _ hc
          omega
      rw [hnone]
      exact .finished hs hh ha hp
  | @passing p w j hj hh ha hp =>
    have h1 : w.hdr ≠ 1 := by
      have := code.two_le_nonce j
      omega
    rw [Wi.enter, if_neg h1, hh, code.case_nonce j]
    exact ⟨ha, congrArg (· + 1) hp⟩

/-- A work-item whose header is negative has stopped at the barrier behind the level. -/
theorem Settled.stopped_of_neg {p : Nat} (h : Settled code p w) (hneg : w.hdr < 0) :
    ∃ j, w.sites p = some j ∧ w.hdr = -code.nonce j ∧ w.arrived = p + 1 ∧ w.passed = p := by
  cases h with
  | suspended hc ha hp =>
    have := code.two_le _ _ hc
    omega
  | stopped hj hh ha hp => exact ⟨_, hj, hh, ha, hp⟩
  | finished hs hh ha hp => omega

theorem EntryOk.ready {first loaded : Bool} {p : Nat} (h : EntryOk code first p loaded w) :
    Ready code first p w := by
  unfold EntryOk at h
  cases hpc : w.pc with
  | init | entryBarrier =>
    rw [hpc] at h
    exact h.2
  | reload =>
    rw [hpc] at h
    exact h.2.2.2
  | _ =>
    rw [hpc] at h
    exact h.elim

theorem RunOk.level {first : Bool} {p : Nat} (h : RunOk code n first p w) :
    w.passed ≤ p ∧ p ≤ w.arrived := by
  unfold RunOk at h
  cases hpc : w.pc with
  | init =>
    rw [hpc] at h
    exact h.2.level
  | entry | stop1 _ | exit =>
    rw [hpc] at h
    exact h.level
  | run =>
    rw [hpc] at h
    omega
  | exit1 _ | returned _ _ =>
    rw [hpc] at h
    exact h.1.level
  | _ =>
    rw [hpc] at h
    exact h.elim

theorem MidOk.level {p : Nat} {stop : Fin B → Nat} (h : MidOk code n p stop w) :
    w.passed ≤ p ∧ p ≤ w.arrived := by
  unfold MidOk at h
  cases hpc : w.pc with
  | readRemain _ =>
    rw [hpc] at h
    exact h.level
  | stop2 _ _ | exitDec _ | exit2 _ _ | returned _ _ =>
    rw [hpc] at h
    exact h.1.level
  | _ =>
    rw [hpc] at h
    exact h.elim

theorem PassOk.level {p : Nat} (h : PassOk p w) : w.passed ≤ p ∧ p ≤ w.arrived := by
  unfold PassOk at h
  cases hpc : w.pc with
  | atomicInc _ _ =>
    rw [hpc] at h
    exact h.1.level
  | orig _ =>
    rw [hpc] at h
    exact h.level
  | _ =>
    rw [hpc] at h
    exact h.elim

theorem TailOk.level {p k : Nat} (h : TailOk code p k w) :
    w.passed ≤ p ∧ p ≤ w.arrived := by
  unfold TailOk at h
  cases hpc : w.pc with
  | exit =>
    rw [hpc] at h
    exact h.level
  | atomicInc _ _ | exit1 _ | exitTest _ _ | returned _ _ =>
    rw [hpc] at h
    exact h.1.level
  | _ =>
    rw [hpc] at h
    exact h.elim

theorem TailDecOk.settled {p k : Nat} (h : TailDecOk code p k w) :
    Settled code p w := by
  unfold TailDecOk at h
  cases hpc : w.pc with
  | exitDec _ | exit2 _ _ | returned _ _ =>
    rw [hpc] at h
    exact h.1
  | _ =>
    rw [hpc] at h
    exact h.elim

theorem TailEndOk.settled {p k : Nat} (h : TailEndOk code p k w) :
    Settled code p w := by
  unfold TailEndOk at h
  cases hpc : w.pc with
  | exitTest _ _ | store _ _ | returned _ _ =>
    rw [hpc] at h
    exact h.1
  | _ =>
    rw [hpc] at h
    exact h.elim

/-! ## Steps of a work-item within a phase -/

/-- Before `InitBarrier` a work-item initialises its counters and takes part in the reload,
or waits. -/
theorem EntryOk.step {first loaded : Bool} {p : Nat} (h : EntryOk code first p loaded w)
    (hs : Wi.Step code n i sh w w' sh') (hb : code.initBarrier = true) :
    EntryOk code first p loaded w' ∧ sh' = sh.initCounters code n i := by
  unfold EntryOk at h
  cases hs with
  | initReload hpc hl hh =>
    rw [hpc] at h
    have hfirst : first = false := by
      cases first with
      | false => rfl
      | true => exact (hh (h.2.hdr_eq_one_iff.mpr rfl)).elim
    exact ⟨⟨h.1, hl, hfirst, h.2.of_pc .reload⟩, rfl⟩
  | initWait hpc hh =>
    rw [hpc] at h
    refine ⟨⟨Or.inr ?_, h.2.of_pc .entryBarrier⟩, rfl⟩
    rcases hh with hh | hh
    · exact Or.inl hh
    · exact Or.inr (h.2.hdr_eq_one_iff.mp hh)
  | initEntry hpc hb' =>
    rw [hb'] at hb
    cases hb
  | enter hpc | readRemain hpc | leave hpc | pass hpc | exitLocal hpc | exitPlain hpc
  | exitDec hpc | exitReturn hpc | exitStore hpc | store hpc | write hpc | suspend hpc
  | arrive hpc | finish hpc =>
    rw [hpc] at h
    exact h.elim

theorem RunOk.step {first : Bool} {p : Nat} (h : RunOk code n first p w)
    (hs : Wi.Step code n i sh w w' sh')
    (hf : code.hasLocal = true → sh.finalStop = n) : RunOk code n first p w' := by
  unfold RunOk at h
  cases hs with
  | initReload hpc hl =>
    rw [hpc] at h
    rw [(Code.hasLocal_of_initBarrier h.1).1] at hl
    cases hl
  | initWait hpc hh hb =>
    rw [hpc] at h
    rw [h.1] at hb
    cases hb
  | initEntry hpc hb =>
    rw [hpc] at h
    exact h.2.of_pc .entry
  | enter hpc =>
    rw [hpc] at h
    exact .enter h
  | exitLocal hpc hl =>
    rw [hpc] at h
    exact ⟨h.of_pc _, hl, hf hl⟩
  | exitPlain hpc hl =>
    rw [hpc] at h
    exact ⟨h.of_pc _, hl, rfl⟩
  | write hpc k x b =>
    unfold RunOk
    rw [hpc] at h ⊢
    exact h
  | suspend hpc hc =>
    rw [hpc] at h
    exact .suspended hc h.1 h.2
  | arrive hpc hj =>
    rw [hpc] at h
    rw [h.2] at hj
    exact ⟨hj, congrArg (· + 1) h.1, h.2⟩
  | finish hpc hs =>
    rw [hpc] at h
    rw [h.2] at hs
    exact .finished hs rfl h.1 h.2
  | readRemain hpc | leave hpc | pass hpc | exitDec hpc | exitReturn hpc | exitStore hpc
  | store hpc =>
    rw [hpc] at h
    exact h.elim

theorem MidOk.step {p : Nat} (h : MidOk code n p sh.stop w)
    (hs : Wi.Step code n i sh w w' sh') : MidOk code n p sh'.stop w' := by
  unfold MidOk at h
  cases hs with
  | readRemain hpc =>
    rw [hpc] at h
    exact ⟨h, rfl⟩
  | exitDec hpc =>
    rw [hpc] at h
    exact ⟨h.1.of_pc _, h.2⟩
  | initReload hpc | initWait hpc | initEntry hpc | enter hpc | leave hpc | pass hpc
  | exitLocal hpc | exitPlain hpc | exitReturn hpc | exitStore hpc | store hpc | write hpc
  | suspend hpc | arrive hpc | finish hpc =>
    rw [hpc] at h
    exact h.elim

/-- Nobody counts himself off at a site before all have read how many are missing. -/
theorem MidOk.stop_step {p : Nat} {stop : Fin B → Nat} (h : MidOk code n p stop w)
    (hs : Wi.Step code n i sh w w' sh') : sh'.stop = sh.stop := by
  unfold MidOk at h
  cases hs with
  | initReload hpc | initWait hpc | initEntry hpc | leave hpc | pass hpc | arrive hpc =>
    rw [hpc] at h
    exact h.elim
  | enter | readRemain | exitLocal | exitPlain | exitDec | exitReturn | exitStore | store | write
  | suspend | finish => rfl

theorem PassOk.step {p : Nat} (h : PassOk p w)
    (hs : Wi.Step code n i sh w w' sh') : PassOk p w' := by
  unfold PassOk at h
  cases hs with
  | leave hpc hr =>
    rw [hpc] at h
    exact (hr h.2).elim
  | pass hpc =>
    rw [hpc] at h
    exact h.1
  | initReload hpc | initWait hpc | initEntry hpc | enter hpc | readRemain hpc | exitLocal hpc
  | exitPlain hpc | exitDec hpc | exitReturn hpc | exitStore hpc | store hpc | write hpc
  | suspend hpc | arrive hpc | finish hpc =>
    rw [hpc] at h
    exact h.elim

theorem TailOk.step {p k : Nat} (h : TailOk code p k w)
    (hs : Wi.Step code n i sh w w' sh') (hk : 0 < k)
    (hf : code.hasLocal = true → sh.finalStop = k) :
    TailOk code p k w' ∧ sh'.finalStop = sh.finalStop := by
  unfold TailOk at h
  cases hs with
  | leave hpc hr =>
    rw [hpc] at h
    exact ⟨.stopped h.1.1 rfl h.1.2.1 h.1.2.2, rfl⟩
  | pass hpc =>
    rw [hpc] at h
    exact (h.2 rfl).elim
  | exitLocal hpc hl =>
    rw [hpc] at h
    exact ⟨⟨h.of_pc _, hl, hf hl⟩, rfl⟩
  | exitPlain hpc hl =>
    rw [hpc] at h
    refine ⟨⟨h.of_pc _, rfl, fun hl' => ?_⟩, rfl⟩
    rw [hl] at hl'
    cases hl'
  | exitReturn hpc hne =>
    rw [hpc] at h
    exact ⟨⟨h.1.of_pc _, rfl, fun _ => rfl⟩, rfl⟩
  | exitStore hpc h0 =>
    rw [hpc] at h
    have := hf h.2
    omega
  | initReload hpc | initWait hpc | initEntry hpc | enter hpc | readRemain hpc | exitDec hpc
  | store hpc | write hpc | suspend hpc | arrive hpc | finish hpc =>
    rw [hpc] at h
    exact h.elim

theorem TailDecOk.step {p k : Nat} (h : TailDecOk code p k w)
    (hs : Wi.Step code n i sh w w' sh') (hk : 0 < k) (hf : sh.finalStop ≤ k) :
    TailDecOk code p k w' ∧ sh'.finalStop ≤ k := by
  unfold TailDecOk at h
  cases hs with
  | exitDec hpc =>
    rw [hpc] at h
    have hlt : sh.finalStop - 1 < k := by omega
    exact ⟨⟨h.1.of_pc _, h.2, hlt⟩, Nat.le_of_lt hlt⟩
  | initReload hpc | initWait hpc | initEntry hpc | enter hpc | readRemain hpc | leave hpc
  | pass hpc | exitLocal hpc | exitPlain hpc | exitReturn hpc | exitStore hpc | store hpc
  | write hpc | suspend hpc | arrive hpc | finish hpc =>
    rw [hpc] at h
    exact h.elim

/-- At the end a work-item finds that nobody is missing, or stores its share. -/
theorem TailEndOk.step {p k : Nat} (h : TailEndOk code p k w)
    (hs : Wi.Step code n i sh w w' sh') (hf : sh.finalStop = 0) :
    TailEndOk code p k w' ∧
      ((sh' = sh ∧ w'.pc.isReturned = false) ∨
        ∃ id, id < k ∧ w'.pc = .returned (some (k, id)) true ∧
          sh' = ⟨sh.stop, sh.finalStop, sh.loc, storeAll sh.loc id k 0 code.bufs sh.lvb⟩) := by
  unfold TailEndOk at h
  cases hs with
  | exitReturn hpc hne => exact (hne hf).elim
  | exitStore hpc h0 =>
    rw [hpc] at h
    exact ⟨⟨h.1.of_pc _, h.2⟩, Or.inl ⟨rfl, rfl⟩⟩
  | @store batch id hpc =>
    rw [hpc] at h
    obtain ⟨hset, rfl, hid⟩ := h
    exact ⟨⟨hset.of_pc _, batch, id, rfl, fun _ => ⟨rfl, hid⟩, fun hst => nomatch hst⟩,
      Or.inr ⟨id, hid, rfl, rfl⟩⟩
  | initReload hpc | initWait hpc | initEntry hpc | enter hpc | readRemain hpc | leave hpc
  | pass hpc | exitLocal hpc | exitPlain hpc | exitDec hpc | write hpc | suspend hpc | arrive hpc
  | finish hpc =>
    rw [hpc] at h
    exact h.elim

end Device
end Clpkm
