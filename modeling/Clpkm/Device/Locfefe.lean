import Mathlib.Algebra.BigOperators.Group.List.Basic
import Mathlib.Algebra.Order.Ring.Nat
import Mathlib.Tactic.Common

/-!
# Saving and reloading local memory

A kernel that has variables in local memory, or parameters that point to it, gets code
that copies them to the live value buffer of the work-group when a launch ends and back
when the next one begins (`GenerateLocfefe`).  The buffers lie one behind the other.
A variable takes a multiple of 4 bytes, a buffer of a parameter as many as the host
said.

The work-items of a batch share the copying: in `__clpkm_store_local` each takes every
`batch`-th word from its own number on, and whoever arrives at the word that is not
whole copies what there is of it.  `storeAll_apply` says which bytes one work-item
copies.
-/

namespace Clpkm
namespace Locfefe

/-- The bytes of a memory. -/
abbrev Bytes := Nat → UInt8

/-- Some bytes of the source are copied to the target, `off` bytes further on. -/
def copyBytes (dst : Bytes) (off : Nat) (src : Bytes) (start len : Nat) : Bytes :=
  fun y => if off + start ≤ y ∧ y < off + start + len then src (y - off) else dst y

/-- The loop of `__clpkm_store_local` and what follows it, from word `k` on; the loop
makes fewer rounds than there are bytes. -/
def storeFrom (off : Nat) (src : Bytes) (size batch : Nat) : Nat → Nat → Bytes → Bytes
  | 0, _, dst => dst
  | fuel + 1, k, dst =>
    if 4 * k + 4 ≤ size then
      storeFrom off src size batch fuel (k + batch) (copyBytes dst off src (4 * k) 4)
    else if 4 * k < size then copyBytes dst off src (4 * k) (size - 4 * k)
    else dst

/-- `__clpkm_store_local`. -/
def storeLocal (dst : Bytes) (off : Nat) (src : Bytes) (size id batch : Nat) : Bytes :=
  storeFrom off src size batch (size + 1) id dst

/-- A buffer in local memory: where it is saved, and its size. -/
structure Buffer where
  offset : Nat
  size : Nat
  deriving DecidableEq, Repr

/-- The places of buffers from an offset on, each followed by its padding. -/
def place (pad : Nat → Nat) : Nat → List Nat → List Buffer
  | _, [] => []
  | off, size :: sizes => ⟨off, size⟩ :: place pad (off + pad size) sizes

/-- `PaddedSize`. -/
def paddedSize (size : Nat) : Nat := (size + 3) / 4 * 4

/-- `ReqLocSize`: what the variables take. -/
def reqLocSize (vars : List Nat) : Nat := (vars.map paddedSize).sum

/-- The buffers of the variables and of the parameters, given their sizes. -/
def buffers (vars params : List Nat) : List Buffer :=
  place paddedSize 0 vars ++ place id (reqLocSize vars) params

/-- The calls of `__clpkm_store_local` of one work-item, from the `k`-th buffer on. -/
def storeAll (loc : Nat → Bytes) (id batch : Nat) : Nat → List Buffer → Bytes → Bytes
  | _, [], dst => dst
  | k, b :: bs, dst =>
    storeAll loc id batch (k + 1) bs (storeLocal dst b.offset (loc k) b.size id batch)

/-- The calls of `async_work_group_copy`, once they are complete. -/
def reloadAll (bs : List Buffer) (src : Bytes) (loc : Nat → Bytes) : Nat → Bytes :=
  fun k x => match bs[k]? with
    | some b => if x < b.size then src (b.offset + x) else loc k x
    | none => loc k x

/-! ## One buffer -/

theorem copyBytes_apply (dst : Bytes) (off : Nat) (src : Bytes) (start len y : Nat) :
    copyBytes dst off src start len y =
      if off + start ≤ y ∧ y < off + start + len then src (y - off) else dst y := rfl

/-- Every `batch`-th word from `k` on: `k` itself and every `batch`-th from `k + batch` on. -/
theorem stride_iff {k batch w : Nat} (hb : 0 < batch) :
    (k ≤ w ∧ (w - k) % batch = 0) ↔
      w = k ∨ (k + batch ≤ w ∧ (w - (k + batch)) % batch = 0) := by
  constructor
  · rintro ⟨hk, hw⟩
    by_cases h : w - k < batch
    · rw [Nat.mod_eq_of_lt h] at hw
      exact Or.inl (by omega)
    · rw [Nat.mod_eq_sub_mod (by omega)] at hw
      exact Or.inr ⟨by omega, by rwa [Nat.sub_sub] at hw⟩
  · rintro (rfl | ⟨hk, hw⟩)
    · exact ⟨Nat.le_refl w, by rw [Nat.sub_self, Nat.zero_mod]⟩
    · refine ⟨by omega, ?_⟩
      rw [Nat.mod_eq_sub_mod (by omega), Nat.sub_sub]
      exact hw

/-- The loop copies the bytes of every `batch`-th word. -/
theorem storeFrom_apply {off : Nat} {src : Bytes} {size batch : Nat} (hb : 0 < batch)
    (fuel k : Nat) (hf : size < 4 * (k + fuel)) (dst : Bytes) {x : Nat} (hx : x < size) :
    storeFrom off src size batch fuel k dst (off + x) =
      if k ≤ x / 4 ∧ (x / 4 - k) % batch = 0 then src x else dst (off + x) := by
  induction fuel generalizing k dst with
  | zero =>
    rw [storeFrom, if_neg (by omega)]
  | succ fuel ih =>
    have hstride := stride_iff (k := k) (w := x / 4) hb
    rw [storeFrom]
    by_cases hfull : 4 * k + 4 ≤ size
    · rw [if_pos hfull, ih (k + batch) (by omega), copyBytes_apply]
      by_cases hlater : k + batch ≤ x / 4 ∧ (x / 4 - (k + batch)) % batch = 0
      · rw [if_pos hlater, if_pos (hstride.mpr (Or.inr hlater))]
      · rw [if_neg hlater]
        by_cases hk : x / 4 = k
        · rw [if_pos (hstride.mpr (Or.inl hk)), if_pos (by omega), Nat.add_sub_cancel_left]
        · rw [if_neg (by omega), if_neg]
          rw [hstride]
          rintro (h | h)
          · exact hk h
          · exact hlater h
    · -- the last word, which is not whole
      have hk : (k ≤ x / 4 ∧ (x / 4 - k) % batch = 0) ↔ x / 4 = k := by
        rw [hstride]
        constructor
        · rintro (h | h)
          · exact h
          · omega
        · exact Or.inl
      rw [if_neg hfull]
      by_cases hlast : 4 * k < size
      · rw [if_pos hlast, copyBytes_apply]
        by_cases hxk : x / 4 = k
        · rw [if_pos (hk.mpr hxk), if_pos (by omega), Nat.add_sub_cancel_left]
        · rw [if_neg (by omega), if_neg (fun h => hxk (hk.mp h))]
      · rw [if_neg hlast, if_neg (fun h => by have := hk.mp h; omega)]

/-- Bytes outside of the buffer stay. -/
theorem storeFrom_of_outside {off : Nat} {src : Bytes} {size batch : Nat} (fuel k : Nat)
    (dst : Bytes) {y : Nat} (hy : y < off ∨ off + size ≤ y) :
    storeFrom off src size batch fuel k dst y = dst y := by
  induction fuel generalizing k dst with
  | zero => rfl
  | succ fuel ih =>
    rw [storeFrom]
    by_cases hfull : 4 * k + 4 ≤ size
    · rw [if_pos hfull, ih, copyBytes_apply, if_neg (by omega)]
    · rw [if_neg hfull]
      by_cases hlast : 4 * k < size
      · rw [if_pos hlast, copyBytes_apply, if_neg (by omega)]
      · rw [if_neg hlast]

/-- **What one work-item copies of a buffer**: the words whose number is its own modulo
the size of the batch. -/
theorem storeLocal_apply {dst : Bytes} {off : Nat} {src : Bytes} {size id batch : Nat}
    (hid : id < batch) {x : Nat} (hx : x < size) :
    storeLocal dst off src size id batch (off + x) =
      if x / 4 % batch = id then src x else dst (off + x) := by
  rw [storeLocal, storeFrom_apply (by omega) (size + 1) id (by omega) dst hx]
  refine if_congr ?_ rfl rfl
  constructor
  · rintro ⟨hle, hmod⟩
    have hw : x / 4 = id + (x / 4 - id) := by omega
    rw [hw, Nat.add_mod, hmod, Nat.add_zero, Nat.mod_mod, Nat.mod_eq_of_lt hid]
  · intro hmod
    have hw := Nat.div_add_mod (x / 4) batch
    rw [hmod] at hw
    refine ⟨by omega, ?_⟩
    have hsub : x / 4 - id = batch * (x / 4 / batch) := by omega
    rw [hsub, Nat.mul_mod_right]

/-! ## All buffers -/

/-- The buffers lie one behind the other. -/
def Ordered (bs : List Buffer) : Prop :=
  bs.Pairwise fun a b => a.offset + a.size ≤ b.offset

theorem le_offset_place {pad : Nat → Nat} {off : Nat} {sizes : List Nat} {b : Buffer}
    (hb : b ∈ place pad off sizes) : off ≤ b.offset := by
  induction sizes generalizing off with
  | nil => cases hb
  | cons s sizes ih =>
    rcases List.mem_cons.mp hb with rfl | hb
    · exact Nat.le_refl off
    · have := ih hb
      omega

theorem ordered_place {pad : Nat → Nat} (hpad : ∀ s, s ≤ pad s) (off : Nat) (sizes : List Nat) :
    Ordered (place pad off sizes) := by
  induction sizes generalizing off with
  | nil => exact List.Pairwise.nil
  | cons s sizes ih =>
    refine List.Pairwise.cons (fun b hb => ?_) (ih (off + pad s))
    have hle := le_offset_place hb
    have := hpad s
    change off + s ≤ b.offset
    omega

theorem end_place_le {pad : Nat → Nat} (hpad : ∀ s, s ≤ pad s) {off : Nat} {sizes : List Nat}
    {b : Buffer} (hb : b ∈ place pad off sizes) :
    b.offset + b.size ≤ off + (sizes.map pad).sum := by
  induction sizes generalizing off with
  | nil => cases hb
  | cons s sizes ih =>
    rw [List.map_cons, List.sum_cons]
    rcases List.mem_cons.mp hb with rfl | hb
    · have := hpad s
      change off + s ≤ _
      omega
    · have := ih hb
      omega

/-- No two buffers overlap in the live value buffer. -/
theorem ordered_buffers (vars params : List Nat) : Ordered (buffers vars params) := by
  have hpad : ∀ s, s ≤ paddedSize s := fun s => by
    unfold paddedSize
    omega
  refine List.pairwise_append.mpr
    ⟨ordered_place hpad 0 vars, ordered_place (fun s => Nat.le_refl s) _ params, ?_⟩
  intro a ha b hb
  have hend := end_place_le hpad ha
  have hstart := le_offset_place hb
  unfold reqLocSize at hstart
  omega

/-- The copies of later buffers leave what lies before them. -/
theorem storeAll_of_lt {loc : Nat → Bytes} {id batch : Nat} (k : Nat) (bs : List Buffer)
    (dst : Bytes) {y : Nat} (hy : ∀ b ∈ bs, y < b.offset) :
    storeAll loc id batch k bs dst y = dst y := by
  induction bs generalizing k dst with
  | nil => rfl
  | cons b bs ih =>
    rw [storeAll, ih _ _ fun b' hb' => hy b' (List.mem_cons_of_mem b hb')]
    exact storeFrom_of_outside _ _ _ (Or.inl (hy b List.mem_cons_self))

/-- **What one work-item copies**: in every buffer the words whose number is its own
modulo the size of the batch. -/
theorem storeAll_apply {loc : Nat → Bytes} {id batch : Nat} (hid : id < batch)
    {bs : List Buffer} (hord : Ordered bs) (k : Nat) (dst : Bytes) {i : Nat} {b : Buffer}
    (hb : bs[i]? = some b) {x : Nat} (hx : x < b.size) :
    storeAll loc id batch k bs dst (b.offset + x) =
      if x / 4 % batch = id then loc (k + i) x else dst (b.offset + x) := by
  induction bs generalizing k dst i with
  | nil => cases hb
  | cons a bs ih =>
    obtain ⟨hhead, htail⟩ := List.pairwise_cons.mp hord
    rw [storeAll]
    cases i with
    | zero =>
      rw [List.getElem?_cons_zero, Option.some_inj] at hb
      subst hb
      rw [storeAll_of_lt _ _ _ fun b hb => by have := hhead b hb; omega]
      exact storeLocal_apply hid hx
    | succ i =>
      rw [List.getElem?_cons_succ] at hb
      rw [ih htail (k + 1) _ hb, Nat.add_right_comm, Nat.add_assoc]
      have hle := hhead b (List.mem_of_getElem? hb)
      rw [storeLocal, storeFrom_of_outside _ _ _ (Or.inr (by omega))]

theorem reloadAll_apply {bs : List Buffer} {src : Bytes} {loc : Nat → Bytes} {k : Nat} {b : Buffer}
    (hb : bs[k]? = some b) {x : Nat} (hx : x < b.size) :
    reloadAll bs src loc k x = src (b.offset + x) := by
  rw [reloadAll, hb]
  exact if_pos hx

end Locfefe
end Clpkm
