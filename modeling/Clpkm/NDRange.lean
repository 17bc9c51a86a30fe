import Clpkm.Device.UpdateHeader
import Clpkm.Relaunch
import Clpkm.Simulation
import Mathlib.Algebra.BigOperators.Fin
import Mathlib.Algebra.Order.BigOperators.Group.Finset

/-!
# A kernel in slices, on all work-items of an NDRange

`clEnqueueNDRangeKernel` launches the instrumented kernel on all work-items.  When every
work-item has left the launch, `ResumeOrFinish` lets `UpdateHeader` look at the headers and
launches the kernel on all of them again, unless every header is 0; a work-item with the
header 0 leaves a launch at once.  The work-items of a launch run at the same time and share
global memory, and a step of one of them (`Ctl.action`) is not interrupted by another.
What depends on the work-item, as `get_global_id` does, is an argument here.

`plain` runs the kernel as it is written on all work-items, in any interleaving.
`slices_refine` is the result, for kernels of which every suspension brings back what is needed
(`Restores`): what the slices have made of global memory, the kernel as it
is written can make of it as well, and when the host sets `Final` all its work-items have
returned.  Otherwise some interleaving of the kernel as it is written is undefined.
`slices_progress` bounds the length of a run of the slices by that of the run it follows,
and says that nobody is ever stuck.

The converse does not hold: a work-item that has left a launch has to wait for all others
to leave it, so the slices have fewer interleavings.
-/

namespace Clpkm
open Lang Instrumentor UpdateHeader
namespace NDRange

variable {Var Val Mem Block : Type} {n : Nat}

/-! ## The kernel as it is written -/

/-- A work-item. -/
structure Item (Var Val : Type) where
  ctl : Ctl Var Val Unit
  store : Store Var Val
  /-- the loop iterations begun -/
  iters : Nat

def Item.config (x : Item Var Val) (m : Mem) : Config Var Val Mem Unit :=
  ⟨x.ctl, x.store, m, x.iters⟩

def Item.ofConfig (c : Config Var Val Mem Unit) : Item Var Val := ⟨c.ctl, c.store, c.iters⟩

/-- All work-items, and global memory. -/
structure Plain (Var Val Mem : Type) (n : Nat) where
  item : Fin n → Item Var Val
  mem : Mem

section
variable [DecidableEq Var] (I : Interp Val Mem) (K : Kernel Var Val) (env : Fin n → Env Var Val)

namespace Plain

def start (m : Mem) : Plain Var Val Mem n := ⟨fun i => .ofConfig (K.start (env i).args m), m⟩

/-- A step of a work-item. -/
def step (p : Plain Var Val Mem n) (i : Fin n) : Option (Plain Var Val Mem n) :=
  (((p.item i).config p.mem).step I).map fun c =>
    ⟨Function.update p.item i (.ofConfig c), c.mem⟩

/-- The next step of a work-item that has not returned is undefined. -/
def Undefined (p : Plain Var Val Mem n) : Prop :=
  ∃ i, (p.item i).ctl ≠ .fin ∧ ((p.item i).config p.mem).step I = none

/-- All work-items have returned. -/
def Returned (p : Plain Var Val Mem n) : Prop := ∀ i, (p.item i).ctl = .fin

end Plain

/-- The kernel as it is written, on `n` work-items. -/
def plain (m : Mem) : Machine (Plain Var Val Mem n) (Fin n) :=
  ⟨(· = Plain.start K env m), Plain.step I⟩

end

/-! ## Slices -/

/-- A work-item and its part of the runtime's buffers. -/
structure WorkItem (Var Val : Type) where
  /-- `__clpkm_hdr` -/
  hdr : Nat
  /-- `__clpkm_prv` -/
  prv : Locfefe.Bytes
  launches : Nat
  clock : Nat
  device : Option (Ctl Var Val (Option (Chkpnt Var)) × Store Var Val)

namespace WorkItem

def host (w : WorkItem Var Val) (m : Mem) : Host Var Val Mem :=
  ⟨w.hdr, w.prv, m, w.launches, w.clock, w.device⟩

def ofHost (s : Host Var Val Mem) : WorkItem Var Val :=
  ⟨s.hdr, s.prv, s.launches, s.clock, s.device⟩

/-- The work-item has nothing more to do. -/
def ended (w : WorkItem Var Val) : Bool := w.device.isNone && w.hdr == 0

end WorkItem

/-- All work-items, global memory and the host. -/
structure Sliced (Var Val Mem : Type) (n : Nat) where
  item : Fin n → WorkItem Var Val
  mem : Mem
  launches : Nat
  /-- `Final` is set -/
  finished : Bool

inductive Label (n : Nat)
  /-- a step of a work-item that is in the launch -/
  | item (i : Fin n)
  /-- the callback at the end of a launch -/
  | host

namespace Sliced

/-- The headers as the host reads them. -/
def headers (s : Sliced Var Val Mem n) : List Int := List.ofFn fun i => ((s.item i).hdr : Int)

/-- The headers as the host writes them. -/
def setHeaders (s : Sliced Var Val Mem n) (hs : List Int) : Sliced Var Val Mem n :=
  { s with item := fun i => { s.item i with hdr := (hs.getD i 0).toNat } }

/-- No work-item is in a launch. -/
def idle (s : Sliced Var Val Mem n) : Bool :=
  (List.finRange n).all fun i => (s.item i).device.isNone

/-- How many work-items have nothing more to do. -/
def ended (s : Sliced Var Val Mem n) : Nat := ∑ i, (s.item i).ended.toNat

variable [DecidableEq Var] (I : Interp Val Mem) (K : Kernel Var Val) (C : Clang Var Val Block)
  (env : Fin n → Env Var Val)

/-- `MetaEnqueue` -/
def metaEnqueue (s : Sliced Var Val Mem n) : Sliced Var Val Mem n :=
  { s with
    item := fun i => (((s.item i).host s.mem).step I K C (env i)).elim (s.item i) .ofHost,
    launches := s.launches + 1 }

/-- `ResumeOrFinish`, for work-groups of a size; the headers are written only when the
progress is negative. -/
def resumeOrFinish (size : Nat) (s : Sliced Var Val Mem n) : Option (Sliced Var Val Mem n) :=
  match updateHeader size s.headers with
  | .error _ => none
  | .ok (progress, hs) =>
    if progress = 0 then some { s with finished := true }
    else some (metaEnqueue I K C env (if progress < 0 then s.setHeaders hs else s))

/-- `clEnqueueNDRangeKernel` -/
def start (m : Mem) : Sliced Var Val Mem n :=
  metaEnqueue I K C env ⟨fun _ => .ofHost (Host.init m), m, 0, false⟩

def step (size : Nat) (s : Sliced Var Val Mem n) : Label n → Option (Sliced Var Val Mem n)
  | .item i =>
    if (s.item i).device.isNone then none
    else (((s.item i).host s.mem).step I K C (env i)).map fun h =>
      { s with item := Function.update s.item i (.ofHost h), mem := h.mem }
  | .host => if s.finished || !s.idle then none else resumeOrFinish I K C env size s

end Sliced

/-- The instrumented kernel on `n` work-items, in work-groups of a size. -/
def sliced [DecidableEq Var] (I : Interp Val Mem) (K : Kernel Var Val) (C : Clang Var Val Block)
    (env : Fin n → Env Var Val) (size : Nat) (m : Mem) :
    Machine (Sliced Var Val Mem n) (Label n) :=
  ⟨(· = Sliced.start I K C env m), Sliced.step I K C env size⟩

/-! ## One work-item -/

section
variable [DecidableEq Var] (I : Interp Val Mem) (C : Clang Var Val Block) (K : Kernel Var Val)

/-- A work-item that has been suspended, and what it will go on with. -/
structure Suspended (x : Item Var Val) (w : WorkItem Var Val) (E : List Var)
    (h : LoopHead Var Val) (p : Chkpnt Var) (b : Patched Var Val)
    (k : Cont Var Val (Option (Chkpnt Var))) : Prop where
  inside : (K.root C).Inside ⟨E, .loop h (some p) b, k⟩
  device : w.device = none
  hdr : w.hdr = p.nonce
  ctl : x.ctl = .next h () b.erase k.erase
  agree : ∀ g, Agree (fun v => Ctl.Live I v x.ctl) x.store (K.loadPrivate p.saved w.prv g)
  typed : K.Typed x.store
  history : Ctl.History I x.ctl
  launches : w.launches + k.erase.bodies.length ≤ x.iters

/-- The work-item in slices is where the one is that runs the kernel as it is written. -/
inductive Matches (x : Item Var Val) (w : WorkItem Var Val) : Prop
  | running {ctl : Ctl Var Val (Option (Chkpnt Var))} {σ : Store Var Val}
      (h : ∀ m, Sim I C K (x.config m) (w.host m) ctl σ)
  | suspended {E : List Var} {h : LoopHead Var Val} {p : Chkpnt Var} {b : Patched Var Val}
      {k : Cont Var Val (Option (Chkpnt Var))} (hs : Suspended I C K x w E h p b k)
  | returned (hd : w.device = none) (hh : w.hdr = 0) (hc : x.ctl = .fin)
      (hl : w.launches ≤ x.iters + 1)

end

variable [DecidableEq Var] {I : Interp Val Mem} {C : Clang Var Val Block} {K : Kernel Var Val}
variable {x : Item Var Val} {w : WorkItem Var Val}

omit [DecidableEq Var] in
theorem ended_iff : w.ended = true ↔ w.device = none ∧ w.hdr = 0 := by
  rw [WorkItem.ended, Bool.and_eq_true, Option.isNone_iff_eq_none, beq_iff_eq]

/-- Memory may change under a work-item. -/
theorem sim_config {c : Config Var Val Mem Unit} {s : Host Var Val Mem}
    {ctl : Ctl Var Val (Option (Chkpnt Var))} {σ : Store Var Val} (h : Sim I C K c s ctl σ)
    (m : Mem) :
    Sim I C K ((Item.ofConfig c).config m) ((WorkItem.ofHost s).host m) ctl σ :=
  ⟨h.device, h.erase, rfl, h.agree, h.typed, h.scope, h.history, h.launches⟩

/-- The first launch. -/
theorem matches_start {env : Env Var Val} (hty : WellTyped I K env.args) (m : Mem) :
    ∃ s, ((WorkItem.ofHost (Host.init m)).host m).step I K C env = some s ∧
      s.launches = 1 ∧ s.device ≠ none ∧
      Matches I C K (.ofConfig (K.start env.args m)) (.ofHost s) :=
  ⟨_, rfl, rfl, nofun, .running fun m' => sim_config (Sim.entry hty m) m'⟩

/-- **A suspended work-item goes on** in the next launch. -/
theorem Suspended.resume {E : List Var} {h : LoopHead Var Val} {p : Chkpnt Var}
    {b : Patched Var Val} {k : Cont Var Val (Option (Chkpnt Var))}
    (hs : Suspended I C K x w E h p b k) (env : Env Var Val) (m : Mem) :
    ∃ s, (w.host m).step I K C env = some s ∧ s.launches = w.launches + 1 ∧ s.device ≠ none ∧
      Matches I C K x (.ofHost s) := by
  have hstep : (w.host m).step I K C env = _ := Host.step_resume hs.inside hs.device hs.hdr
  have hS : ∀ m', Sim I C K (x.config m')
      (⟨w.hdr, w.prv, m', w.launches + 1, w.clock + 1, some (.next h (some p) b k,
        K.loadPrivate p.saved w.prv (K.entryStore env.args (env.garbage w.clock)))⟩ :
          Host Var Val Mem)
      (.next h (some p) b k)
      (K.loadPrivate p.saved w.prv (K.entryStore env.args (env.garbage w.clock))) := by
    intro m'
    refine ⟨rfl, hs.ctl.symm, rfl, hs.agree _, hs.typed, ⟨E, hs.inside⟩, hs.history, ?_⟩
    have hpaid := hs.launches
    change w.launches + 1 + x.ctl.rest.bodies.length ≤ x.iters + 1
    rw [hs.ctl]
    change w.launches + 1 + k.erase.bodies.length ≤ x.iters + 1
    omega
  exact ⟨_, hstep, rfl, nofun, .running hS⟩

/-- **A work-item in a launch moves along with the kernel as it is written**: the next
step of the kernel either is followed in the launch, or suspends the work-item. -/
theorem step_sim {env : Env Var Val} (hK : Restores I C K env.args) {s : Host Var Val Mem}
    {c c' : Config Var Val Mem Unit} {ctl : Ctl Var Val (Option (Chkpnt Var))}
    {σ : Store Var Val} (hS : Sim I C K c s ctl σ) (hc : c.step I = some c') :
    ∃ s', s.step I K C env = some s' ∧ s'.mem = c'.mem ∧ s'.launches = s.launches ∧
      (WorkItem.ofHost s').ended = false ∧ Matches I C K (.ofConfig c') (.ofHost s') := by
  rcases hS.follow hK.typed hc with
    ⟨s', ctl', σ', hstep, hl, hS'⟩ | ⟨h, p, b, k, rfl, -, rfl, hstep⟩
  · refine ⟨s', hstep, hS'.mem, hl, ?_, .running fun m' => sim_config hS' m'⟩
    refine Bool.eq_false_iff.mpr fun he => ?_
    have hdev : s'.device = none := (ended_iff.mp he).1
    rw [hS'.device] at hdev
    cases hdev
  · obtain ⟨E, hE⟩ := hS.scope
    have hin : (K.root C).Inside ⟨E, .loop h (some p) b, k⟩ := hE
    have hn := Kernel.two_le_nonce hin
    have hce : c.ctl = .done (.loop h () b.erase k.erase) := hS.erase.symm
    have hpaid := hS.launches
    refine ⟨_, hstep, hS.mem, rfl, ?_, .suspended (E := E) (h := h) (p := p) (b := b) (k := k) ?_⟩
    · refine Bool.eq_false_iff.mpr fun he => ?_
      have : p.nonce = 0 := (ended_iff.mp he).2
      omega
    · refine ⟨hin, rfl, rfl, rfl, fun g v hv a ha => ?_, hS.typed, ?_, ?_⟩
      · obtain ⟨hsaved, hl⟩ := hS.mem_saved hK.live hv (hK.restored hin v)
        exact Kernel.loadPrivate_storePrivate hsaved (hK.whole v) (hS.agree v hl a ha)
          (hS.typed v a ha) s.prv
      · have hsc : c.ctl.Scope (K.root C).erase E := hS.erase ▸ hE.erase
        have hs : c.ctl.step true = some (.next h () b.erase k.erase) := by
          rw [hce]
          rfl
        exact hS.history.step I rfl hsc hs
          ⟨c.store, c.mem, true, c.store, c.mem, by rw [hce]; rfl, hs⟩
      · rw [hce] at hpaid
        simp only [Ctl.rest, Cont.bodies, List.length_cons, WorkItem.ofHost, Item.ofConfig]
          at hpaid ⊢
        omega

/-- **A step of a work-item in a launch** ends the launch, is undefined in the kernel as it
is written, or is a step there. -/
theorem Matches.step {env : Env Var Val} (hK : Restores I C K env.args) (h : Matches I C K x w)
    (m : Mem) (hd : w.device ≠ none) :
    (∃ s, (w.host m).step I K C env = some s ∧ s.mem = m ∧ s.launches = w.launches ∧
        (WorkItem.ofHost s).ended = true ∧ x.ctl = .fin ∧ Matches I C K x (.ofHost s)) ∨
      (x.ctl ≠ .fin ∧ (x.config m).step I = none) ∨
      ∃ s c, (w.host m).step I K C env = some s ∧ (x.config m).step I = some c ∧
        s.mem = c.mem ∧ s.launches = w.launches ∧ (WorkItem.ofHost s).ended = false ∧
        Matches I C K (.ofConfig c) (.ofHost s) := by
  cases h with
  | suspended hs => exact absurd hs.device hd
  | returned hdev => exact absurd hdev hd
  | @running ctl σ hsim =>
    have hS := hsim m
    by_cases hfin : x.ctl = .fin
    · have hpaid := hS.launches
      refine .inl ⟨_, hS.step_fin hfin, rfl, rfl, rfl, hfin, .returned rfl rfl hfin ?_⟩
      change w.launches + x.ctl.rest.bodies.length ≤ x.iters + 1 at hpaid
      change w.launches ≤ x.iters + 1
      omega
    · rcases hc : (x.config m).step I with _ | c
      · exact .inr (.inl ⟨hfin, rfl⟩)
      · obtain ⟨s, hs, hmem, hl, he, hM⟩ := step_sim hK hS hc
        exact .inr (.inr ⟨s, c, hs, rfl, hmem, hl, he, hM⟩)

/-! ## The host -/

/-- Without barriers no header is negative, and `UpdateHeader` only tells whether every
work-item is done. -/
theorem updateHeader_nonneg {size : Nat} (hsize : 0 < size) {hs : List Int}
    (hdiv : size ∣ hs.length) (hpos : ∀ h ∈ hs, 0 ≤ h) :
    ∃ progress, updateHeader size hs = .ok (progress, hs) ∧ 0 ≤ progress ∧
      (progress = 0 ↔ ∀ h ∈ hs, h = 0) := by
  have hflat := groups_flatten hdiv
  have hmem : ∀ g ∈ groups size hs, ∀ h ∈ g, 0 ≤ h := fun g hg h hh =>
    hpos h (hflat ▸ List.mem_flatten_of_mem hg hh)
  have hlen := length_of_mem_groups hdiv
  have hone : ∀ g ∈ groups size hs, g.length = size ∧ OneBarrier g := fun g hg =>
    ⟨hlen g hg, fun h hh _ _ hneg _ => absurd (hmem g hg h hh) (by omega)⟩
  obtain ⟨p, hp, hzero, -⟩ := updateHeader_flatten hsize hone
  obtain ⟨hheaders, -, hneg, hcases⟩ := updateHeader_ok hsize hlen hp
  -- no group has stopped as a whole
  have hnot : ∀ g ∈ groups size hs, ¬∀ h ∈ g, h < 0 := fun g hg hall => by
    obtain ⟨h, hh⟩ := List.exists_mem_of_length_pos (hlen g hg ▸ hsize)
    have := hall h hh
    have := hmem g hg h hh
    omega
  have hrel : (groups size hs).map released = groups size hs := by
    refine (List.map_congr_left fun g hg => ?_).trans (List.map_id _)
    exact if_neg (hnot g hg)
  rw [hrel, hflat] at hp
  refine ⟨p, hp, ?_, hzero.trans ⟨fun h x hx => ?_, fun h g hg x hx => ?_⟩⟩
  · have : p ≠ -1 := fun h => by
      obtain ⟨g, hg, hall⟩ := hneg.mp h
      exact hnot g hg hall
    simp only at hcases
    omega
  · rw [← hflat] at hx
    obtain ⟨g, hg, hx⟩ := List.mem_flatten.mp hx
    exact h g hg x hx
  · exact h x (hflat ▸ List.mem_flatten_of_mem hg hx)

namespace Sliced
variable {s t : Sliced Var Val Mem n} {size : Nat}

omit [DecidableEq Var] in
theorem idle_iff : s.idle = true ↔ ∀ i, (s.item i).device = none := by
  simp only [idle, List.all_eq_true, List.mem_finRange, true_implies, Option.isNone_iff_eq_none]

omit [DecidableEq Var] in
theorem ended_le (s : Sliced Var Val Mem n) : s.ended ≤ n := by
  refine (Finset.sum_le_card_nsmul Finset.univ _ 1 fun i _ => Bool.toNat_le _).trans ?_
  rw [Finset.card_univ, Fintype.card_fin, smul_eq_mul, Nat.mul_one]

omit [DecidableEq Var] in
/-- One work-item ends, or does not. -/
theorem ended_update (s : Sliced Var Val Mem n) (i : Fin n) (w : WorkItem Var Val) (m : Mem) :
    Sliced.ended { s with item := Function.update s.item i w, mem := m } +
        (s.item i).ended.toNat = s.ended + w.ended.toNat := by
  have hupd : (fun j => (Function.update s.item i w j).ended.toNat) =
      Function.update (fun j => (s.item j).ended.toNat) i w.ended.toNat := by
    funext j
    by_cases hj : j = i
    · rw [hj, Function.update_self, Function.update_self]
    · rw [Function.update_of_ne hj, Function.update_of_ne hj]
  have hsum := Finset.sum_update_of_mem (Finset.mem_univ i)
    (fun j => (s.item j).ended.toNat) w.ended.toNat
  have hold := Finset.sum_eq_add_sum_sdiff_singleton_of_mem (Finset.mem_univ i)
    (fun j => (s.item j).ended.toNat)
  unfold ended
  rw [hupd, hsum, hold]
  omega

/-- When no work-item is in a launch, the host finishes the task if there is nothing to do
for any of them, and launches the kernel again otherwise. -/
theorem resumeOrFinish_eq (I : Interp Val Mem) (K : Kernel Var Val) (C : Clang Var Val Block)
    (env : Fin n → Env Var Val) (hsize : 0 < size) (hdiv : size ∣ n)
    (hidle : ∀ i, (s.item i).device = none) :
    resumeOrFinish I K C env size s = some { s with finished := true } ∧
        (∀ i, (s.item i).ended = true) ∨
      resumeOrFinish I K C env size s = some (metaEnqueue I K C env s) ∧
        ∃ i, (s.item i).ended = false := by
  have hpos : ∀ h ∈ s.headers, 0 ≤ h := by
    intro h hh
    obtain ⟨i, rfl⟩ := List.mem_ofFn.mp hh
    exact Int.natCast_nonneg _
  have hlen : size ∣ s.headers.length := by rwa [headers, List.length_ofFn]
  obtain ⟨p, hp, hp0, hzero⟩ := updateHeader_nonneg hsize hlen hpos
  have hended : (∀ h ∈ s.headers, h = 0) ↔ ∀ i, (s.item i).ended = true := by
    simp only [headers, List.forall_mem_ofFn_iff, Int.natCast_eq_zero, ended_iff, hidle, true_and]
  unfold resumeOrFinish
  rw [hp]
  by_cases h : p = 0
  · exact .inl ⟨if_pos h, hended.mp (hzero.mp h)⟩
  · refine .inr ⟨?_, ?_⟩
    · show (if p = 0 then _ else _) = _
      rw [if_neg h, if_neg (by omega)]
    · by_contra hne
      refine h (hzero.mpr (hended.mpr fun i => ?_))
      exact Bool.eq_true_of_not_eq_false fun hi => hne ⟨i, hi⟩

end Sliced

/-! ## Runs -/

/-- The slices are where a run of the kernel as it is written is. -/
structure Inv (I : Interp Val Mem) (C : Clang Var Val Block) (K : Kernel Var Val)
    (p : Plain Var Val Mem n) (s : Sliced Var Val Mem n) : Prop where
  mem : p.mem = s.mem
  item : ∀ i, Matches I C K (p.item i) (s.item i)
  /-- who has something to do has been in every launch -/
  launches : ∀ i, (s.item i).ended = false → (s.item i).launches = s.launches
  latest : ∃ i, (s.item i).launches = s.launches
  finished : s.finished = true → ∀ i, (s.item i).ended = true

/-- What a run of the slices is ahead of the run that it follows: the ends of the
work-items, the launches and the end of the task. -/
def Sliced.weight (s : Sliced Var Val Mem n) : Nat := s.ended + s.launches + s.finished.toNat

variable {p : Plain Var Val Mem n} {s t : Sliced Var Val Mem n} {env : Fin n → Env Var Val}
  {size : Nat}

theorem Matches.ended (h : Matches I C K x w) (m : Mem) (he : w.ended = true) :
    x.ctl = .fin := by
  obtain ⟨hd, hh⟩ := ended_iff.mp he
  cases h with
  | running hsim =>
    have hdev : w.device = some _ := (hsim m).device
    rw [hd] at hdev
    cases hdev
  | suspended hs =>
    have := Kernel.two_le_nonce hs.inside
    have := hs.hdr
    omega
  | returned _ _ hc _ => exact hc

theorem Matches.launches_le (h : Matches I C K x w) (m : Mem) : w.launches ≤ x.iters + 1 := by
  cases h with
  | running hsim =>
    have hpaid := (hsim m).launches
    change w.launches + x.ctl.rest.bodies.length ≤ x.iters + 1 at hpaid
    omega
  | suspended hs =>
    have := hs.launches
    omega
  | returned _ _ _ hl => exact hl

/-- A work-item that is in no launch takes part in the next one, unless it is done. -/
theorem Matches.relaunch (h : Matches I C K x w) (env : Env Var Val) (m : Mem)
    (hd : w.device = none) :
    ((w.host m).step I K C env = none ∧ w.ended = true) ∨
      ∃ s, (w.host m).step I K C env = some s ∧ s.launches = w.launches + 1 ∧
        w.ended = false ∧ (WorkItem.ofHost s).ended = false ∧
        Matches I C K x (.ofHost s) := by
  cases h with
  | running hsim =>
    have hdev : w.device = some _ := (hsim m).device
    rw [hd] at hdev
    cases hdev
  | @suspended E h p b k hs =>
    obtain ⟨s, hstep, hl, hdev, hM⟩ := hs.resume env m
    have hn := Kernel.two_le_nonce hs.inside
    have hh := hs.hdr
    refine .inr ⟨s, hstep, hl, ?_, ?_, hM⟩
    · exact Bool.eq_false_iff.mpr fun he => by
        have := (ended_iff.mp he).2
        omega
    · exact Bool.eq_false_iff.mpr fun he => hdev (ended_iff.mp he).1
  | returned _ hh =>
    refine .inl ⟨?_, ended_iff.mpr ⟨hd, hh⟩⟩
    have hdev : (w.host m).device = none := hd
    unfold Host.step
    rw [hdev]
    exact if_pos hh

theorem metaEnqueue_item (s : Sliced Var Val Mem n) (i : Fin n) :
    (Sliced.metaEnqueue I K C env s).item i =
      (((s.item i).host s.mem).step I K C (env i)).elim (s.item i) .ofHost := rfl

theorem inv_start (hty : ∀ i, WellTyped I K (env i).args) (hn : 0 < n) (m : Mem) :
    Inv I C K (Plain.start K env m) (Sliced.start I K C env m) := by
  have hitem : ∀ i, ∃ s : Host Var Val Mem, (Sliced.start I K C env m).item i = .ofHost s ∧
      s.launches = 1 ∧ s.device ≠ none ∧
      Matches I C K (.ofConfig (K.start (env i).args m)) (.ofHost s) := by
    intro i
    obtain ⟨s, hs, hl, hd, hM⟩ := matches_start (C := C) (hty i) m
    refine ⟨s, ?_, hl, hd, hM⟩
    rw [Sliced.start, metaEnqueue_item, hs]
    rfl
  refine ⟨rfl, fun i => ?_, fun i _ => ?_, ⟨⟨0, hn⟩, ?_⟩, nofun⟩
  · obtain ⟨s, hs, -, -, hM⟩ := hitem i
    rw [hs]
    exact hM
  · obtain ⟨s, hs, hl, -, -⟩ := hitem i
    rw [hs]
    exact hl
  · obtain ⟨s, hs, hl, -, -⟩ := hitem ⟨0, hn⟩
    rw [hs]
    exact hl

theorem weight_start (hty : ∀ i, WellTyped I K (env i).args) (m : Mem) :
    (Sliced.start I K C env m).weight = 1 := by
  have hended : (Sliced.start I K C env m).ended = 0 := by
    refine Finset.sum_eq_zero fun i _ => ?_
    obtain ⟨s, hs, -, hd, -⟩ := matches_start (C := C) (hty i) m
    rw [Sliced.start, metaEnqueue_item, hs]
    exact congrArg Bool.toNat (Bool.eq_false_iff.mpr fun he => hd (ended_iff.mp he).1)
  rw [Sliced.weight, hended]
  rfl

/-- The next launch. -/
theorem Inv.metaEnqueue (h : Inv I C K p s) (hidle : ∀ i, (s.item i).device = none)
    (hsome : ∃ i, (s.item i).ended = false) :
    Inv I C K p (Sliced.metaEnqueue I K C env s) ∧
      (Sliced.metaEnqueue I K C env s).weight = s.weight + 1 := by
  have hitem := fun i => (h.item i).relaunch (env i) s.mem (hidle i)
  have hended : ∀ i, ((Sliced.metaEnqueue I K C env s).item i).ended = (s.item i).ended := by
    intro i
    rw [metaEnqueue_item]
    rcases hitem i with ⟨hs, -⟩ | ⟨u, hs, -, he, he', -⟩
    · rw [hs]
      rfl
    · rw [hs, he]
      exact he'
  have hlaunches : ∀ i, (s.item i).ended = false →
      ((Sliced.metaEnqueue I K C env s).item i).launches = s.launches + 1 := by
    intro i hi
    rw [metaEnqueue_item]
    rcases hitem i with ⟨-, he⟩ | ⟨u, hs, hl, -, -, -⟩
    · rw [hi] at he
      cases he
    · rw [hs]
      exact hl.trans (congrArg (· + 1) (h.launches i hi))
  refine ⟨⟨h.mem, fun i => ?_, fun i hi => ?_, ?_, fun hf i => ?_⟩, ?_⟩
  · rw [metaEnqueue_item]
    rcases hitem i with ⟨hs, -⟩ | ⟨u, hs, -, -, -, hM⟩
    · rw [hs]
      exact h.item i
    · rw [hs]
      exact hM
  · exact hlaunches i (hended i ▸ hi)
  · obtain ⟨i, hi⟩ := hsome
    exact ⟨i, hlaunches i hi⟩
  · rw [hended]
    exact h.finished hf i
  · have hsum : (Sliced.metaEnqueue I K C env s).ended = s.ended :=
      Finset.sum_congr rfl fun i _ => congrArg Bool.toNat (hended i)
    rw [Sliced.weight, hsum]
    show s.ended + (s.launches + 1) + s.finished.toNat =
      s.ended + s.launches + s.finished.toNat + 1
    omega

/-- A step of a work-item leaves the others where they are. -/
theorem Inv.item_step (h : Inv I C K p s) {i : Fin n} (hi : (s.item i).ended = false)
    {x : Item Var Val} {u : Host Var Val Mem} (hx : Matches I C K x (.ofHost u))
    (hl : u.launches = (s.item i).launches) :
    Inv I C K ⟨Function.update p.item i x, u.mem⟩
        { s with item := Function.update s.item i (.ofHost u), mem := u.mem } ∧
      Sliced.weight { s with item := Function.update s.item i (.ofHost u), mem := u.mem } =
        s.weight + (WorkItem.ofHost u).ended.toNat := by
  have hlaunches : ∀ j, (Function.update s.item i (WorkItem.ofHost u) j).launches =
      (s.item j).launches := by
    intro j
    by_cases hj : j = i
    · rw [hj, Function.update_self]
      exact hl
    · rw [Function.update_of_ne hj]
  refine ⟨⟨rfl, fun j => ?_, fun j he => ?_, ?_, fun hf => ?_⟩, ?_⟩
  · by_cases hj : j = i
    · rw [hj]
      show Matches I C K (Function.update p.item i x i) (Function.update s.item i _ i)
      rw [Function.update_self, Function.update_self]
      exact hx
    · show Matches I C K (Function.update p.item i x j) (Function.update s.item i _ j)
      rw [Function.update_of_ne hj, Function.update_of_ne hj]
      exact h.item j
  · refine (hlaunches j).trans ?_
    by_cases hj : j = i
    · rw [hj]
      exact h.launches i hi
    · change (Function.update s.item i (WorkItem.ofHost u) j).ended = false at he
      rw [Function.update_of_ne hj] at he
      exact h.launches j he
  · obtain ⟨j, hj⟩ := h.latest
    exact ⟨j, (hlaunches j).trans hj⟩
  · have := h.finished hf i
    rw [hi] at this
    cases this
  · have hsum := s.ended_update i (.ofHost u) u.mem
    rw [hi] at hsum
    unfold Sliced.weight
    simp only [Bool.toNat_false] at hsum ⊢
    omega

/-- **The slices follow the kernel as it is written.** -/
theorem follows (hK : ∀ i, Restores I C K (env i).args) (hsize : 0 < size) (hdiv : size ∣ n)
    (m : Mem) :
    Machine.Follows (sliced I K C env size m) (plain I K env m) (Inv I C K)
      (Plain.Undefined I) Sliced.weight := by
  intro p s l t hR hs
  change Sliced.step I K C env size s l = some t at hs
  match l with
  | .item i =>
    rw [Sliced.step] at hs
    by_cases hd : (s.item i).device = none
    · rw [hd] at hs
      cases hs
    have hi : (s.item i).ended = false := Bool.eq_false_iff.mpr fun he => hd (ended_iff.mp he).1
    rw [if_neg (fun h => hd (Option.isNone_iff_eq_none.mp h))] at hs
    obtain ⟨u, hu, rfl⟩ := Option.map_eq_some_iff.mp hs
    rcases (hR.item i).step (hK i) s.mem hd with
      ⟨u', hu', hmem, hl, he, -, hM⟩ | ⟨hne, hnone⟩ | ⟨u', c, hu', hc, hmem, hl, he, hM⟩
    · -- the work-item has returned, and leaves the launch
      cases hu.symm.trans hu'
      obtain ⟨hI, hw⟩ := hR.item_step hi hM hl
      have hp : (⟨Function.update p.item i (p.item i), u.mem⟩ : Plain Var Val Mem n) = p := by
        rw [Function.update_eq_self, hmem, ← hR.mem]
      rw [hp] at hI
      rw [he] at hw
      exact .inr (.inl ⟨hI, hw⟩)
    · rw [← hR.mem] at hnone
      exact .inl ⟨i, hne, hnone⟩
    · cases hu.symm.trans hu'
      obtain ⟨hI, hw⟩ := hR.item_step hi hM hl
      rw [he] at hw
      refine .inr (.inr ⟨i, ⟨Function.update p.item i (.ofConfig c), u.mem⟩, ?_, hI, hw⟩)
      show Plain.step I p i = _
      rw [← hR.mem] at hc
      rw [Plain.step, hc, hmem]
      rfl
  | .host =>
    rw [Sliced.step] at hs
    by_cases hidle : s.finished = false ∧ s.idle = true
    · obtain ⟨hf, hidle⟩ := hidle
      rw [hf, hidle, if_neg (by decide)] at hs
      have hidle := Sliced.idle_iff.mp hidle
      rcases Sliced.resumeOrFinish_eq I K C env hsize hdiv hidle with
        ⟨heq, hall⟩ | ⟨heq, hsome⟩
      · cases hs.symm.trans heq
        refine .inr (.inl ⟨⟨hR.mem, hR.item, hR.launches, hR.latest, fun _ => hall⟩, ?_⟩)
        show s.ended + s.launches + 1 = s.ended + s.launches + s.finished.toNat + 1
        rw [hf]
        rfl
      · cases hs.symm.trans heq
        exact .inr (.inl (hR.metaEnqueue hidle hsome))
    · rw [if_pos] at hs
      · cases hs
      · cases hf : s.finished with
        | true => rfl
        | false =>
          rw [hf] at hidle
          simp only [true_and, Bool.not_eq_true] at hidle
          rw [hidle]
          rfl

omit [DecidableEq Var] in
theorem enters_le (c : Ctl Var Val Unit) (t : Bool) : c.enters t ≤ 1 := by
  match c with
  | .exec (.loop h _ _) _ =>
    show (if h.bodyFirst then 1 else 0) ≤ 1
    split <;> decide
  | .test _ _ _ _ =>
    show (if t then 1 else 0) ≤ 1
    split <;> decide
  | .exec .skip _ | .exec (.expr _) _ | .exec (.decl _ _) _ | .exec (.seq _ _) _
  | .exec (.compound _) _ | .exec (.ifStmt _ _ _) _ | .exec .breakStmt _
  | .exec .continueStmt _ | .exec .returnStmt _ | .done _ | .brk _ | .cont _ | .next _ _ _ _
  | .fin => exact Nat.zero_le 1

/-- A work-item takes at most as many loop iterations as the run has steps. -/
theorem iters_le_length {ls : List (Fin n)} {m : Mem}
    (h : (plain I K env m).run (Plain.start K env m) ls = some p) (i : Fin n) :
    (p.item i).iters ≤ ls.length := by
  suffices hgen : ∀ (ls : List (Fin n)) (q : Plain Var Val Mem n),
      (plain I K env m).run q ls = some p → (p.item i).iters ≤ (q.item i).iters + ls.length by
    have := hgen ls _ h
    change (p.item i).iters ≤ 0 + ls.length at this
    omega
  intro ls
  induction ls with
  | nil =>
    intro q hq
    cases hq
    exact Nat.le_refl _
  | cons l ls ih =>
    intro q hq
    rw [Machine.run_cons] at hq
    obtain ⟨u, hu, hq⟩ := Option.bind_eq_some_iff.mp hq
    have := ih u hq
    obtain ⟨c, hc, rfl⟩ := Option.map_eq_some_iff.mp hu
    obtain ⟨t, σ, m', c₁, -, -, rfl⟩ := (Config.step_eq_some_iff I).mp hc
    have hle := enters_le (q.item l).ctl t
    change ((Function.update q.item l _) i).iters + ls.length ≥ _ at this
    rw [List.length_cons]
    by_cases hi : i = l
    · subst hi
      rw [Function.update_self] at this
      change (q.item i).iters + (q.item i).ctl.enters t + ls.length ≥ _ at this
      omega
    · rw [Function.update_of_ne hi] at this
      omega

/-- **Whatever memory the slices leave, the kernel as it is written can leave.** -/
theorem slices_refine (env : Fin n → Env Var Val) (hK : ∀ i, Restores I C K (env i).args) (m : Mem)
    (hsize : 0 < size) (hdiv : size ∣ n) (hn : 0 < n)
    (hs : (sliced I K C env size m).Reachable s) :
    (∃ p, (plain I K env m).Reachable p ∧ p.Undefined I) ∨
      ∃ p, (plain I K env m).Reachable p ∧ p.mem = s.mem ∧
        (s.finished = true → p.Returned) ∧ ∃ i, s.launches ≤ (p.item i).iters + 1 := by
  obtain ⟨s₀, ls, rfl, hrun⟩ := hs.exists_run
  obtain ⟨ls', p, hp, hend⟩ :=
    Machine.run_follows (follows hK hsize hdiv m) (inv_start (fun i => (hK i).typed) hn m) hrun
  have hreach : (plain I K env m).Reachable p := Machine.reachable_of_run rfl hp
  rcases hend with hbad | ⟨hI, -⟩
  · exact .inl ⟨p, hreach, hbad⟩
  · refine .inr ⟨p, hreach, hI.mem, fun hf i => (hI.item i).ended s.mem (hI.finished hf i), ?_⟩
    obtain ⟨i, hi⟩ := hI.latest
    exact ⟨i, hi ▸ (hI.item i).launches_le s.mem⟩

namespace Count
open CountKernel

/-- Two work-items of the kernel that counts, each of them its own work-group. -/
def twoItems : Fin 2 → Env String UInt8 := fun _ => CountKernel.env

/-- A launch in which the work-items take turns, and its callback. -/
def launch (k : Nat) : List (Label 2) :=
  (List.replicate k [Label.item 0, Label.item 1]).flatten ++ [.host]

def schedule : List (Label 2) := launch 11 ++ launch 8 ++ launch 4

/-- Three launches, of which each ends in a checkpoint but the last. -/
theorem slices_refine_count :
    ∃ s, (sliced interp kernel clang twoItems 1 fun _ => 0).Reachable s ∧ s.finished = true ∧
      s.launches = 3 ∧ [1, 2, 3].map s.mem = [1, 2, 0] ∧
      ((∃ p, (plain interp kernel twoItems fun _ => 0).Reachable p ∧ p.Undefined interp) ∨
        ∃ p, (plain interp kernel twoItems fun _ => 0).Reachable p ∧ p.mem = s.mem ∧
          (s.finished = true → p.Returned) ∧ ∃ i, s.launches ≤ (p.item i).iters + 1) := by
  have hrun : ((sliced interp kernel clang twoItems 1 fun _ => 0).run
      (Sliced.start interp kernel clang twoItems fun _ => 0) schedule).isSome = true := by
    with_unfolding_all rfl
  obtain ⟨s, hs⟩ := Option.isSome_iff_exists.mp hrun
  have hreach := Machine.reachable_of_run (M := sliced interp kernel clang twoItems 1 fun _ => 0)
    rfl hs
  refine ⟨s, hreach, ?_, ?_, ?_, slices_refine twoItems (fun _ => restores) _ (by decide)
    (one_dvd 2) (by decide) hreach⟩
  all_goals
    rw [← Option.some_get hrun, Option.some.injEq] at hs
    rw [← hs]
    with_unfolding_all rfl

end Count

/-- The host launches the kernel again as long as some work-item has something to do. -/
theorem Inv.step_host (h : Inv I C K p s) (env : Fin n → Env Var Val) (hsize : 0 < size)
    (hdiv : size ∣ n) (hidle : ∀ i, (s.item i).device = none)
    (hsome : ∃ i, (s.item i).ended = false) :
    Sliced.step I K C env size s .host = some (Sliced.metaEnqueue I K C env s) := by
  obtain ⟨i, hi⟩ := hsome
  have hnot : (s.item i).ended ≠ true := ne_true_of_eq_false hi
  have hunfinished : s.finished = false :=
    Bool.eq_false_of_not_eq_true fun hf => hnot (h.finished hf i)
  rw [Sliced.step, hunfinished, Sliced.idle_iff.mpr hidle, if_neg (by decide)]
  rcases Sliced.resumeOrFinish_eq I K C env hsize hdiv hidle with ⟨_, hall⟩ | ⟨heq, _⟩
  · exact absurd (hall i) hnot
  · exact heq

/-- A work-item in a launch can go on, unless it is about to do something undefined. -/
theorem Inv.step_item (h : Inv I C K p s) (hK : ∀ i, Restores I C K (env i).args)
    (size : Nat) {i : Fin n} (hd : (s.item i).device ≠ none) :
    p.Undefined I ∨ ∃ u, Sliced.step I K C env size s (.item i) = some u := by
  have hitem : Sliced.step I K C env size s (.item i) = _ :=
    if_neg fun h => hd (Option.isNone_iff_eq_none.mp h)
  rcases (h.item i).step (hK i) s.mem hd with
    ⟨u, hu, -⟩ | ⟨hne, hnone⟩ | ⟨u, c, hu, -⟩
  · rw [hu] at hitem
    exact .inr ⟨_, hitem⟩
  · rw [← h.mem] at hnone
    exact .inl ⟨i, hne, hnone⟩
  · rw [hu] at hitem
    exact .inr ⟨_, hitem⟩

/-- Unless a work-item is about to do something undefined, somebody can go on. -/
theorem Inv.enabled (h : Inv I C K p s) (hK : ∀ i, Restores I C K (env i).args)
    (hsize : 0 < size) (hdiv : size ∣ n) (m : Mem) :
    p.Undefined I ∨ s.finished = true ∨ (sliced I K C env size m).Enabled s := by
  by_cases hidle : ∀ i, (s.item i).device = none
  · by_cases hf : s.finished = true
    · exact .inr (.inl hf)
    have hhost : Sliced.step I K C env size s .host = Sliced.resumeOrFinish I K C env size s := by
      rw [Sliced.step, Bool.eq_false_of_not_eq_true hf, Sliced.idle_iff.mpr hidle]
      rfl
    rcases Sliced.resumeOrFinish_eq I K C env hsize hdiv hidle with
      ⟨heq, -⟩ | ⟨heq, -⟩
    · exact .inr (.inr ⟨.host, _, hhost.trans heq⟩)
    · exact .inr (.inr ⟨.host, _, hhost.trans heq⟩)
  · obtain ⟨i, hd⟩ := not_forall.mp hidle
    rcases h.step_item hK size hd with hbad | ⟨u, hu⟩
    · exact .inl hbad
    · exact .inr (.inr ⟨.item i, u, hu⟩)

/-- **The slices end when the kernel as it is written does.**  A run of the slices follows a
run of the kernel as it is written and has at most twice as many steps, and two for the
host and one for every work-item.  It can be continued until the task is finished. -/
theorem slices_progress (env : Fin n → Env Var Val) (hK : ∀ i, Restores I C K (env i).args)
    (m : Mem) (hsize : 0 < size) (hdiv : size ∣ n) (hn : 0 < n) {ls : List (Label n)}
    (hrun : (sliced I K C env size m).run (Sliced.start I K C env m) ls = some s) :
    ∃ ls' p, (plain I K env m).run (Plain.start K env m) ls' = some p ∧
      (p.Undefined I ∨ p.mem = s.mem ∧ ls.length ≤ 2 * ls'.length + n + 1 ∧
        (s.finished = true ∨ (sliced I K C env size m).Enabled s)) := by
  obtain ⟨ls', p, hp, hend⟩ :=
    Machine.run_follows (follows hK hsize hdiv m) (inv_start (fun i => (hK i).typed) hn m) hrun
  refine ⟨ls', p, hp, ?_⟩
  rcases hend with hbad | ⟨hI, hlen⟩
  · exact .inl hbad
  rcases hI.enabled hK hsize hdiv m with hbad | hgo
  · exact .inl hbad
  refine .inr ⟨hI.mem, ?_, hgo⟩
  obtain ⟨i, hi⟩ := hI.latest
  have hle := (hI.item i).launches_le s.mem
  have hiters := iters_le_length hp i
  have hended := s.ended_le
  have hfin := Bool.toNat_le s.finished
  rw [weight_start fun i => (hK i).typed, Sliced.weight] at hlen
  omega

namespace Count
open CountKernel

/-- Right after the first launch. -/
theorem slices_progress_count :
    ∃ s ls' p, (sliced interp kernel clang twoItems 1 fun _ => 0).run
        (Sliced.start interp kernel clang twoItems fun _ => 0) (launch 11) = some s ∧
      (plain interp kernel twoItems fun _ => 0).run (Plain.start kernel twoItems fun _ => 0) ls' =
        some p ∧
      (p.Undefined interp ∨ p.mem = s.mem ∧ (launch 11).length ≤ 2 * ls'.length + 2 + 1 ∧
        (s.finished = true ∨ (sliced interp kernel clang twoItems 1 fun _ => 0).Enabled s)) := by
  have hrun : ((sliced interp kernel clang twoItems 1 fun _ => 0).run
      (Sliced.start interp kernel clang twoItems fun _ => 0) (launch 11)).isSome = true := by
    with_unfolding_all rfl
  obtain ⟨s, hs⟩ := Option.isSome_iff_exists.mp hrun
  obtain ⟨ls', p, hp, hend⟩ := slices_progress twoItems (fun _ => restores) _ (by decide)
    (one_dvd 2) (by decide) hs
  exact ⟨s, ls', p, hs, hp, hend⟩

end Count

/-- When the kernel as it is written comes to an end from where it is, so do the slices. -/
theorem Inv.terminates (h : Inv I C K p s) (hK : ∀ i, Restores I C K (env i).args)
    (m : Mem) (hsize : 0 < size) (hdiv : size ∣ n) (hp : (plain I K env m).Terminates p)
    (hgood : ∀ ls q, (plain I K env m).run p ls = some q → ¬q.Undefined I) :
    (sliced I K C env size m).Terminates s := by
  refine (follows hK hsize hdiv m).terminates (fun p => n + ∑ i, (p.item i).iters + 2) ?_ hp
    hgood h
  intro p s hI
  obtain ⟨i, hi⟩ := hI.latest
  have hle := (hI.item i).launches_le s.mem
  have hiters := Finset.single_le_sum (fun j _ => Nat.zero_le (p.item j).iters)
    (Finset.mem_univ i)
  have hended := s.ended_le
  have hfin := Bool.toNat_le s.finished
  rw [Sliced.weight]
  omega

end NDRange
end Clpkm
