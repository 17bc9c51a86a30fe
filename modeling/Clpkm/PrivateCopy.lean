import Clpkm.KernelProfile
import Mathlib.Logic.Function.Basic

/-!
# Copying private variables

A checkpoint stores private variables with the helpers of `toolkit.cl` and loads them
with their counterparts.  Each helper copies whole units of 1, 2 or 4 bytes while as
many are left; which helper is called depends on the alignment of the variable.  A unit
is copied byte by byte here; that the pointers to units are aligned is shown elsewhere.

A typedef can give a type an alignment of which its size is no multiple, and then the
helpers leave out the last bytes.  `roundTrips_iff` is the exact condition under which
saving and reloading gives back every byte.
-/

namespace Clpkm
namespace Instrumentor
open Locfefe

/-! ## The helpers -/

/-- The places of the units that `while (size >= unit)` copies, from a place on; it makes at
most as many rounds as there are bytes. -/
def unitsFrom (unit : Nat) : Nat → Nat → Nat → List Nat
  | 0, _, _ => []
  | fuel + 1, x, size =>
    if unit ≤ size then x :: unitsFrom unit fuel (x + unit) (size - unit) else []

def units (unit size : Nat) : List Nat := unitsFrom unit size 0 size

/-- The loop of the helpers; the source begins at byte 0. -/
def copyUnits (unit : Nat) (dst : Bytes) (off : Nat) (src : Bytes) (size : Nat) : Bytes :=
  (units unit size).foldl (fun dst x => copyBytes dst off src x unit) dst

/-- `__clpkm_store_private_align_4` -/
def clpkmStorePrivateAlign4 (lvb : Bytes) (off : Nat) (src : Bytes) (size : Nat) : Bytes :=
  copyUnits 4 lvb off src size

/-- `__clpkm_store_private_align_2` -/
def clpkmStorePrivateAlign2 (lvb : Bytes) (off : Nat) (src : Bytes) (size : Nat) : Bytes :=
  copyUnits 2 lvb off src size

/-- `__clpkm_store_private` -/
def clpkmStorePrivate (lvb : Bytes) (off : Nat) (src : Bytes) (size : Nat) : Bytes :=
  copyUnits 1 lvb off src size

/-- `__clpkm_load_private_align_4` -/
def clpkmLoadPrivateAlign4 (lvb : Bytes) (off : Nat) (dst : Bytes) (size : Nat) : Bytes :=
  copyUnits 4 dst 0 (fun x => lvb (off + x)) size

/-- `__clpkm_load_private_align_2` -/
def clpkmLoadPrivateAlign2 (lvb : Bytes) (off : Nat) (dst : Bytes) (size : Nat) : Bytes :=
  copyUnits 2 dst 0 (fun x => lvb (off + x)) size

/-- `__clpkm_load_private` -/
def clpkmLoadPrivate (lvb : Bytes) (off : Nat) (dst : Bytes) (size : Nat) : Bytes :=
  copyUnits 1 dst 0 (fun x => lvb (off + x)) size

namespace MemcpyPrivate

def store : MemcpyPrivate → Bytes → Nat → Bytes → Nat → Bytes
  | align_1 => clpkmStorePrivate
  | align_2 => clpkmStorePrivateAlign2
  | align_4 => clpkmStorePrivateAlign4

def load : MemcpyPrivate → Bytes → Nat → Bytes → Nat → Bytes
  | align_1 => clpkmLoadPrivate
  | align_2 => clpkmLoadPrivateAlign2
  | align_4 => clpkmLoadPrivateAlign4

/-- What the helper copies at once. -/
def unit : MemcpyPrivate → Nat
  | align_1 => 1
  | align_2 => 2
  | align_4 => 4

end MemcpyPrivate

/-- The calls that store, executed on the private variables and the live value buffer. -/
def Covfefe.save (c : Covfefe) (prv : VarDecl → Bytes) (lvb : Bytes) : Bytes :=
  c.store.foldl (fun lvb p => p.memcpy.store lvb p.offset (prv p.var) p.size) lvb

/-- The calls that load. -/
def Covfefe.reload (c : Covfefe) (lvb : Bytes) (prv : VarDecl → Bytes) : VarDecl → Bytes :=
  c.load.foldl
    (fun prv p => Function.update prv p.var (p.memcpy.load lvb p.offset (prv p.var) p.size)) prv

/-! ## What the helpers copy -/

/-- The bytes that are copied. -/
def covered (m : MemcpyPrivate) (size : Nat) : Nat := size / m.unit * m.unit

theorem copyUnitsFrom_apply {unit : Nat} (hu : 0 < unit) (off : Nat) (src : Bytes)
    (fuel x size : Nat) (hf : size ≤ fuel) (dst : Bytes) (y : Nat) :
    (unitsFrom unit fuel x size).foldl (fun dst x => copyBytes dst off src x unit) dst y =
      if off + x ≤ y ∧ y < off + x + size / unit * unit then src (y - off) else dst y := by
  induction fuel generalizing x size dst with
  | zero =>
    obtain rfl : size = 0 := by omega
    rw [Nat.zero_div, Nat.zero_mul, if_neg (by omega)]
    rfl
  | succ fuel ih =>
    rw [unitsFrom]
    by_cases hle : unit ≤ size
    · rw [if_pos hle, List.foldl_cons, ih (x + unit) (size - unit) (by omega), copyBytes_apply]
      have hdiv : size / unit * unit = (size - unit) / unit * unit + unit := by
        rw [Nat.div_eq_sub_div hu hle, Nat.add_mul, Nat.one_mul]
      by_cases hlater : off + (x + unit) ≤ y ∧ y < off + (x + unit) + (size - unit) / unit * unit
      · rw [if_pos hlater, if_pos (by omega)]
      · rw [if_neg hlater]
        by_cases hhere : off + x ≤ y ∧ y < off + x + unit
        · rw [if_pos hhere, if_pos (by omega)]
        · rw [if_neg hhere, if_neg (by omega)]
    · rw [if_neg hle, Nat.div_eq_of_lt (by omega), Nat.zero_mul, if_neg (by omega)]
      rfl

theorem copyUnits_apply {unit : Nat} (hu : 0 < unit) (dst : Bytes) (off : Nat) (src : Bytes)
    (size y : Nat) :
    copyUnits unit dst off src size y =
      if off ≤ y ∧ y < off + size / unit * unit then src (y - off) else dst y :=
  copyUnitsFrom_apply hu off src size 0 size (Nat.le_refl size) dst y

/-- **What a call that stores copies.** -/
theorem store_apply (m : MemcpyPrivate) (lvb : Bytes) (off : Nat) (src : Bytes) (size y : Nat) :
    m.store lvb off src size y =
      if off ≤ y ∧ y < off + covered m size then src (y - off) else lvb y := by
  cases m with
  | align_1 | align_2 | align_4 => exact copyUnits_apply (by decide) lvb off src size y

/-- **What a call that loads copies.** -/
theorem load_apply (m : MemcpyPrivate) (lvb : Bytes) (off : Nat) (dst : Bytes) (size x : Nat) :
    m.load lvb off dst size x = if x < covered m size then lvb (off + x) else dst x := by
  have hload : m.load lvb off dst size x =
      if 0 ≤ x ∧ x < 0 + covered m size then lvb (off + (x - 0)) else dst x := by
    cases m with
    | align_1 | align_2 | align_4 => exact copyUnits_apply (by decide) dst 0 _ size x
  rw [hload, Nat.zero_add, Nat.sub_zero]
  exact if_congr (and_iff_right (Nat.zero_le x)) rfl rfl

theorem covered_le (m : MemcpyPrivate) (size : Nat) : covered m size ≤ size :=
  Nat.div_mul_le_self size m.unit

theorem covered_eq_iff (m : MemcpyPrivate) (size : Nat) : covered m size = size ↔ m.unit ∣ size :=
  ⟨fun h => ⟨size / m.unit, by rw [Nat.mul_comm]; exact h.symm⟩, Nat.div_mul_cancel⟩

/-! ## The calls of a checkpoint -/

/-- The calls for the variables of a list, from an offset on. -/
def calls : Nat → List VarDecl → List PrivateCopy
  | _, [] => []
  | off, vd :: l =>
    if vd.addressSpace = .opencl_private then
      ⟨memcpyOf vd.align, off, vd, vd.size⟩ :: calls (off + vd.size) l
    else calls off l

theorem foldl_emitVar_calls (l : List VarDecl) (c : Covfefe) :
    l.foldl emitVar c =
      ⟨c.store ++ calls c.reqPrvSize l, c.load ++ calls c.reqPrvSize l,
        l.foldl (fun n vd => if vd.addressSpace = .opencl_private then n + vd.size else n)
          c.reqPrvSize⟩ := by
  induction l generalizing c with
  | nil => simp only [List.foldl_nil, calls, List.append_nil]
  | cons vd l ih =>
    rw [List.foldl_cons, ih, List.foldl_cons, calls]
    cases ha : vd.addressSpace with
    | opencl_private =>
      simp only [emitVar, ha, if_pos, List.append_assoc, List.singleton_append]
      rfl
    | opencl_global | opencl_constant | opencl_local =>
      simp only [emitVar, ha, reduceCtorEq, if_false]

theorem store_generateCovfefe (l : List VarDecl) : (generateCovfefe l).store = calls 0 l := by
  unfold generateCovfefe
  rw [foldl_emitVar_calls]
  rfl

theorem load_generateCovfefe (l : List VarDecl) : (generateCovfefe l).load = calls 0 l := by
  unfold generateCovfefe
  rw [foldl_emitVar_calls]
  rfl

theorem mem_calls {off : Nat} {l : List VarDecl} {p : PrivateCopy} (h : p ∈ calls off l) :
    p.var ∈ l ∧ p.var.addressSpace = .opencl_private ∧ p.memcpy = memcpyOf p.var.align ∧
      p.size = p.var.size ∧ off ≤ p.offset := by
  induction l generalizing off with
  | nil => cases h
  | cons vd l ih =>
    rw [calls] at h
    by_cases ha : vd.addressSpace = .opencl_private
    · rw [if_pos ha] at h
      rcases List.mem_cons.mp h with rfl | h
      · exact ⟨List.mem_cons_self, ha, rfl, rfl, Nat.le_refl off⟩
      · obtain ⟨hmem, hp, hm, hs, hle⟩ := ih h
        exact ⟨List.mem_cons_of_mem vd hmem, hp, hm, hs, by omega⟩
    · rw [if_neg ha] at h
      obtain ⟨hmem, hp⟩ := ih h
      exact ⟨List.mem_cons_of_mem vd hmem, hp⟩

/-- Every private variable is copied. -/
theorem exists_call {off : Nat} {l : List VarDecl} {vd : VarDecl} (h : vd ∈ l)
    (hp : vd.addressSpace = .opencl_private) : ∃ p ∈ calls off l, p.var = vd := by
  induction l generalizing off with
  | nil => cases h
  | cons a l ih =>
    rw [calls]
    rcases List.mem_cons.mp h with rfl | h
    · rw [if_pos hp]
      exact ⟨_, List.mem_cons_self, rfl⟩
    · by_cases ha : a.addressSpace = .opencl_private
      · rw [if_pos ha]
        obtain ⟨p, hmem, hv⟩ := ih h
        exact ⟨p, List.mem_cons_of_mem _ hmem, hv⟩
      · rw [if_neg ha]
        exact ih h

/-- **The variables of a checkpoint lie one behind the other.** -/
theorem ordered_calls (off : Nat) (l : List VarDecl) :
    (calls off l).Pairwise fun p q => p.offset + p.size ≤ q.offset := by
  induction l generalizing off with
  | nil => exact List.Pairwise.nil
  | cons vd l ih =>
    rw [calls]
    by_cases ha : vd.addressSpace = .opencl_private
    · rw [if_pos ha]
      exact List.Pairwise.cons (fun q hq => (mem_calls hq).2.2.2.2) (ih _)
    · rw [if_neg ha]
      exact ih off

/-! ## Saving and reloading -/

section store
variable {α : Type} {f : α → PrivateCopy} {g : α → Bytes} {cs : List α}

/-- Calls that store to later places leave what lies before them. -/
theorem foldl_store_of_lt {y : Nat} (h : ∀ a ∈ cs, y < (f a).offset) (lvb : Bytes) :
    cs.foldl (fun lvb a => (f a).memcpy.store lvb (f a).offset (g a) (f a).size) lvb y =
      lvb y := by
  induction cs generalizing lvb with
  | nil => rfl
  | cons a cs ih =>
    have hlt := h a List.mem_cons_self
    rw [List.foldl_cons, ih fun b hb => h b (List.mem_cons_of_mem a hb), store_apply,
      if_neg (by omega)]

/-- **What is stored** by every call: the whole units of its source. -/
theorem foldl_store_apply
    (hord : cs.Pairwise fun a b => (f a).offset + (f a).size ≤ (f b).offset)
    {a : α} (ha : a ∈ cs) {x : Nat} (hx : x < covered (f a).memcpy (f a).size)
    (lvb : Bytes) :
    cs.foldl (fun lvb a => (f a).memcpy.store lvb (f a).offset (g a) (f a).size) lvb
      ((f a).offset + x) = g a x := by
  induction cs generalizing lvb with
  | nil => cases ha
  | cons b cs ih =>
    obtain ⟨hhead, htail⟩ := List.pairwise_cons.mp hord
    rw [List.foldl_cons]
    rcases List.mem_cons.mp ha with rfl | ha
    · have hle := covered_le (f a).memcpy (f a).size
      have hlt : ∀ b ∈ cs, (f a).offset + x < (f b).offset := fun b hb => by
        have := hhead b hb
        omega
      rw [foldl_store_of_lt hlt, store_apply, if_pos (by omega), Nat.add_sub_cancel_left]
    · exact ih htail ha _

end store

variable {prv : VarDecl → Bytes} {cs : List PrivateCopy}

/-- **What is loaded** for a variable: its whole units, and nothing else. -/
theorem foldl_load_apply {lvb : Bytes} {m : MemcpyPrivate} {vd : VarDecl}
    (hcs : ∀ p ∈ cs, p.var = vd → p.memcpy = m ∧ p.size = vd.size ∧
      ∀ x, x < covered m vd.size → lvb (p.offset + x) = prv vd x)
    (garbage : VarDecl → Bytes) (x : Nat) :
    cs.foldl (fun prv p =>
        Function.update prv p.var (p.memcpy.load lvb p.offset (prv p.var) p.size)) garbage vd x =
      if x < covered m vd.size ∧ ∃ p ∈ cs, p.var = vd then prv vd x else garbage vd x := by
  induction cs generalizing garbage with
  | nil =>
    rw [if_neg]
    · rfl
    · rintro ⟨_, p, hp, _⟩
      cases hp
  | cons a cs ih =>
    rw [List.foldl_cons, ih fun p hp => hcs p (List.mem_cons_of_mem a hp)]
    by_cases hx : x < covered m vd.size
    · by_cases ha : a.var = vd
      · obtain ⟨hm, hs, hl⟩ := hcs a List.mem_cons_self ha
        have hload : Function.update garbage a.var
            (a.memcpy.load lvb a.offset (garbage a.var) a.size) vd x = prv vd x := by
          rw [ha, Function.update_self, load_apply, hm, hs, if_pos hx]
          exact hl x hx
        rw [hload, ite_self, if_pos ⟨hx, a, List.mem_cons_self, ha⟩]
      · rw [Function.update_of_ne (Ne.symm ha)]
        refine if_congr (and_congr_right fun _ => ?_) rfl rfl
        constructor
        · rintro ⟨p, hp, hv⟩
          exact ⟨p, List.mem_cons_of_mem a hp, hv⟩
        · rintro ⟨p, hp, hv⟩
          rcases List.mem_cons.mp hp with rfl | hp
          · exact (ha hv).elim
          · exact ⟨p, hp, hv⟩
    · rw [if_neg fun h => hx h.1, if_neg fun h => hx h.1]
      by_cases ha : a.var = vd
      · obtain ⟨hm, hs, _⟩ := hcs a List.mem_cons_self ha
        rw [ha, Function.update_self, load_apply, hm, hs, if_neg hx]
      · rw [Function.update_of_ne (Ne.symm ha)]

/-- **What a suspension does to a private variable that is saved**: its whole units come
back, the bytes behind them are lost. -/
theorem reload_save (l : List VarDecl) (prv garbage : VarDecl → Bytes) (lvb : Bytes)
    {vd : VarDecl} (h : vd ∈ l) (hp : vd.addressSpace = .opencl_private) (x : Nat) :
    (generateCovfefe l).reload ((generateCovfefe l).save prv lvb) garbage vd x =
      if x < covered (memcpyOf vd.align) vd.size then prv vd x else garbage vd x := by
  have hcs : ∀ p ∈ calls 0 l, p.var = vd → p.memcpy = memcpyOf vd.align ∧ p.size = vd.size ∧
      ∀ x, x < covered (memcpyOf vd.align) vd.size →
        (generateCovfefe l).save prv lvb (p.offset + x) = prv vd x := by
    rintro p hmem rfl
    obtain ⟨_, _, hm, hs, _⟩ := mem_calls hmem
    refine ⟨hm, hs, fun x hx => ?_⟩
    rw [Covfefe.save, store_generateCovfefe]
    exact foldl_store_apply (f := fun p => p) (g := fun p => prv p.var) (ordered_calls 0 l) hmem
      (by rwa [hm, hs]) lvb
  rw [Covfefe.reload, load_generateCovfefe, foldl_load_apply hcs]
  exact if_congr (and_iff_left (exists_call h hp)) rfl rfl

/-- Saving and reloading gives back every byte of every private variable of the list. -/
def RoundTrips (l : List VarDecl) : Prop :=
  ∀ (prv garbage : VarDecl → Bytes) (lvb : Bytes), ∀ vd ∈ l, vd.addressSpace = .opencl_private →
    ∀ x, x < vd.size →
      (generateCovfefe l).reload ((generateCovfefe l).save prv lvb) garbage vd x = prv vd x

/-- What has to be copied is copied. -/
theorem roundTrips_iff_covered (l : List VarDecl) :
    RoundTrips l ↔ ∀ vd ∈ l, vd.addressSpace = .opencl_private →
      covered (memcpyOf vd.align) vd.size = vd.size := by
  constructor
  · intro h vd hmem hp
    by_contra hne
    -- the first byte that is not copied
    have hlt : covered (memcpyOf vd.align) vd.size < vd.size :=
      Nat.lt_of_le_of_ne (covered_le _ _) hne
    have hbyte := h (fun _ _ => 0) (fun _ _ => 1) (fun _ => 0) vd hmem hp _ hlt
    rw [reload_save l _ _ _ hmem hp, if_neg (Nat.lt_irrefl _)] at hbyte
    exact absurd hbyte (by decide)
  · intro h prv garbage lvb vd hmem hp x hx
    rw [reload_save l prv garbage lvb hmem hp, if_pos]
    rw [h vd hmem hp]
    exact hx

/-- **Private live values round-trip** if and only if the helper that the alignment of a
variable selects copies units of which the size of the variable is a multiple. -/
theorem roundTrips_iff (l : List VarDecl) :
    RoundTrips l ↔
      ∀ vd ∈ l, vd.addressSpace = .opencl_private → (memcpyOf vd.align).unit ∣ vd.size := by
  refine (roundTrips_iff_covered l).trans ?_
  exact forall₂_congr fun vd _ => imp_congr_right fun _ => covered_eq_iff _ _

/-- `typedef char c4 __attribute__((aligned(4))); c4 x;` is not restored. -/
theorem not_roundTrips_aligned : ¬RoundTrips [⟨0, "x", 8, 32, .opencl_private⟩] := by
  intro h
  have hbyte := h (fun _ _ => 0) (fun _ _ => 1) (fun _ => 0) _ List.mem_cons_self rfl 0 (by decide)
  exact absurd hbyte (by decide)

end Instrumentor
end Clpkm
