import Mathlib.Data.List.Basic
import Mathlib.Algebra.Group.Nat.Defs
import Mathlib.Tactic.Common

/-!
# Task kinds and task bitmaps

The daemon and the runtime exchange a `task_bitmap`, an unsigned 32-bit word whose
bit `k` says that a task of kind `k` is wanted or running.  The word is never
recomputed: `UpdateGlobalBitmap` keeps one unsigned counter for each kind and
copies "the counter is not 0" into the bit with `AssignBits`, which in turn relies
on `IsNotZero`, a sign-extension trick.  This module embeds the three functions as
they compute, on 32-bit words, and says bit by bit what they do
(`isNotZero_eq`, `getLsbD_assignBits`, `getLsbD_updateGlobalBitmap`).
-/

namespace Clpkm

/-- `CLPKM::task_bitmap`. -/
abbrev TaskBitmap := BitVec 32

/-- `CLPKM::task_kind`, without the enumerator that counts the others. -/
inductive TaskKind
  | computing
  | memcpy
  deriving DecidableEq, Repr

/-- `task_kind::NUM_OF_TASK_KIND`. -/
def numOfTaskKind : Nat := 2

namespace TaskKind

/-- The underlying value of the enumerator. -/
def val : TaskKind → Nat
  | computing => 0
  | memcpy => 1

/-- The kinds in the order the loops over `Kind` visit them. -/
def all : List TaskKind := [computing, memcpy]

@[simp] theorem mem_all (k : TaskKind) : k ∈ all := by cases k <;> decide

theorem all_nodup : all.Nodup := by decide

theorem val_injective {k k' : TaskKind} (h : k.val = k'.val) : k = k' := by
  cases k <;> cases k' <;> first | rfl | cases h

theorem val_lt_num (k : TaskKind) : k.val < numOfTaskKind := by cases k <;> decide

theorem val_lt (k : TaskKind) : k.val < 32 := by cases k <;> decide

/-- Every valid bit belongs to a kind. -/
theorem exists_val_eq {i : Nat} (h : i < numOfTaskKind) : ∃ k : TaskKind, k.val = i := by
  match i, h with
  | 0, _ => exact ⟨computing, rfl⟩
  | 1, _ => exact ⟨memcpy, rfl⟩

/-- `static_cast<task_bitmap>(1) << Kind`. -/
def mask (k : TaskKind) : TaskBitmap := 1#32 <<< k.val

theorem getLsbD_mask (k : TaskKind) (i : Nat) : k.mask.getLsbD i = decide (i = k.val) := by
  have hk := k.val_lt
  unfold mask
  rw [BitVec.getLsbD_shiftLeft, BitVec.getLsbD_one]
  by_cases hi : i = k.val
  · subst hi; simp [hk]
  · simp only [hi, decide_false, Bool.and_eq_false_iff, Bool.not_eq_false', decide_eq_true_eq,
      decide_eq_false_iff_not]
    omega

/-- The test of one bit. -/
theorem and_mask_ne_zero (b : TaskBitmap) (k : TaskKind) :
    b &&& k.mask ≠ 0#32 ↔ b.getLsbD k.val = true := by
  constructor
  · intro h
    by_contra hb
    refine h (BitVec.eq_of_getLsbD_eq fun i hi => ?_)
    rw [BitVec.getLsbD_and, getLsbD_mask, BitVec.getLsbD_zero]
    by_cases hk : i = k.val
    · rw [hk, (Bool.not_eq_true _).mp hb, Bool.false_and]
    · rw [decide_eq_false hk, Bool.and_false]
  · intro hb h
    have hbit : (b &&& k.mask).getLsbD k.val = false := by rw [h, BitVec.getLsbD_zero]
    rw [BitVec.getLsbD_and, getLsbD_mask, hb] at hbit
    simp at hbit

/-- Flipping one bit. -/
theorem getLsbD_xor_mask (b : TaskBitmap) (k k' : TaskKind) :
    (b ^^^ k.mask).getLsbD k'.val = if k' = k then !b.getLsbD k'.val else b.getLsbD k'.val := by
  rw [BitVec.getLsbD_xor, getLsbD_mask]
  by_cases h : k' = k
  · subst h
    simp
  · have hv : k'.val ≠ k.val := fun hv => h (val_injective hv)
    simp [h, hv]

/-- The bits that are set in `old` and clear in `new`, as both workers compute them. -/
theorem getLsbD_cleared (old new : TaskBitmap) (k : TaskKind) :
    (old &&& (new ^^^ BitVec.allOnes 32)).getLsbD k.val =
      (old.getLsbD k.val && !new.getLsbD k.val) := by
  rw [BitVec.getLsbD_and, BitVec.getLsbD_xor, BitVec.getLsbD_allOnes, decide_eq_true k.val_lt,
    Bool.xor_true]

end TaskKind

/-- The mask of the valid fields, `(1 << NUM_OF_TASK_KIND) - 1`. -/
def validMask : TaskBitmap := (1#32 <<< numOfTaskKind) - 1#32

theorem getLsbD_validMask (i : Nat) : validMask.getLsbD i = decide (i < numOfTaskKind) := by
  by_cases h : i < 32
  · revert i; decide
  · rw [BitVec.getLsbD_of_ge _ _ (by omega)]
    simp only [numOfTaskKind]
    exact (decide_eq_false (by omega)).symm

/-- No bit outside the valid fields. -/
def ValidBitmap (b : TaskBitmap) : Prop := b &&& ~~~validMask = 0#32

instance (b : TaskBitmap) : Decidable (ValidBitmap b) :=
  inferInstanceAs (Decidable (b &&& ~~~validMask = 0#32))

theorem validBitmap_iff (b : TaskBitmap) :
    ValidBitmap b ↔ ∀ i, numOfTaskKind ≤ i → b.getLsbD i = false := by
  constructor
  · intro h i hi
    by_cases hlt : i < 32
    · have hbit : (b &&& ~~~validMask).getLsbD i = false := by rw [h]; simp
      rw [BitVec.getLsbD_and, BitVec.getLsbD_not, getLsbD_validMask] at hbit
      simpa [hlt, Nat.not_lt.mpr hi] using hbit
    · exact BitVec.getLsbD_of_ge _ _ (by omega)
  · intro h
    refine BitVec.eq_of_getLsbD_eq fun i hi => ?_
    rw [BitVec.getLsbD_and, BitVec.getLsbD_not, getLsbD_validMask]
    by_cases hn : i < numOfTaskKind
    · simp [hn]
    · simp [h i (Nat.not_lt.mp hn)]

theorem ValidBitmap.zero : ValidBitmap 0#32 := by decide

/-- Two valid bitmaps that agree on every kind are the same word. -/
theorem ValidBitmap.ext {a b : TaskBitmap} (ha : ValidBitmap a) (hb : ValidBitmap b)
    (h : ∀ k : TaskKind, a.getLsbD k.val = b.getLsbD k.val) : a = b := by
  refine BitVec.eq_of_getLsbD_eq fun i _ => ?_
  by_cases hn : i < numOfTaskKind
  · obtain ⟨k, rfl⟩ := TaskKind.exists_val_eq hn
    exact h k
  · rw [(validBitmap_iff a).mp ha i (Nat.not_lt.mp hn),
      (validBitmap_iff b).mp hb i (Nat.not_lt.mp hn)]

/-! ## The bit tricks -/

/-- `IsNotZero`: `(SNum | -SNum) >> 31` on signed 32-bit words. -/
def isNotZero (num : BitVec 32) : BitVec 32 := (num ||| -num).sshiftRight 31

/-- The sign bit of `n | -n` is set exactly when `n` is not 0; the shift spreads it
over the word. -/
theorem isNotZero_eq (num : BitVec 32) :
    isNotZero num = if num = 0#32 then 0#32 else BitVec.allOnes 32 := by
  have hmsb : (num ||| -num).msb = decide (num ≠ 0#32) := by
    rw [BitVec.msb_or, BitVec.msb_neg]
    by_cases h0 : num = 0#32
    · subst h0; decide
    · by_cases hmin : num = BitVec.intMin 32
      · subst hmin; decide
      · cases hm : num.msb <;> simp [h0, hmin]
  refine BitVec.eq_of_getLsbD_eq fun i hi => ?_
  have hbit : (isNotZero num).getLsbD i = (num ||| -num).msb := by
    unfold isNotZero
    rw [BitVec.getLsbD_sshiftRight]
    by_cases h : i = 0
    · subst h
      simp [BitVec.msb_eq_getLsbD_last]
    · have h31 : ¬ 31 + i < 32 := by omega
      simp [h31, Nat.not_le.mpr hi]
  rw [hbit, hmsb]
  by_cases h0 : num = 0#32
  · simp [h0]
  · rw [if_neg h0, BitVec.getLsbD_allOnes, decide_eq_true h0, decide_eq_true hi]

/-- `AssignBits`: `Bitmap ^= (Bitmap ^ IsCountNotZero) & BitMask`. -/
def assignBits (bitmap count bitMask : BitVec 32) : TaskBitmap :=
  bitmap ^^^ ((bitmap ^^^ isNotZero count) &&& bitMask)

/-- `AssignBits` writes "the count is not 0" into the masked bits and leaves every
other bit alone. -/
theorem getLsbD_assignBits (bitmap count bitMask : BitVec 32) {i : Nat} (hi : i < 32) :
    (assignBits bitmap count bitMask).getLsbD i =
      if bitMask.getLsbD i then decide (count ≠ 0#32) else bitmap.getLsbD i := by
  unfold assignBits
  rw [BitVec.getLsbD_xor, BitVec.getLsbD_and, BitVec.getLsbD_xor, isNotZero_eq]
  cases hm : bitMask.getLsbD i
  · simp
  · by_cases h0 : count = 0#32
    · simp [h0]
    · rw [if_neg h0, BitVec.getLsbD_allOnes, decide_eq_true hi]
      simp [h0]

/-- `AssignBits` on the mask of one kind. -/
theorem getLsbD_assignBits_mask (bitmap count : BitVec 32) (k k' : TaskKind) :
    (assignBits bitmap count k.mask).getLsbD k'.val =
      if k' = k then decide (count ≠ 0#32) else bitmap.getLsbD k'.val := by
  rw [getLsbD_assignBits _ _ _ k'.val_lt, TaskKind.getLsbD_mask]
  by_cases h : k' = k
  · subst h; simp
  · have hv : k'.val ≠ k.val := fun hv => h (TaskKind.val_injective hv)
    simp [h, hv]

theorem ValidBitmap.assignBits {bitmap : TaskBitmap} (h : ValidBitmap bitmap)
    (count : BitVec 32) (k : TaskKind) : ValidBitmap (assignBits bitmap count k.mask) := by
  rw [validBitmap_iff] at h ⊢
  intro i hi
  by_cases hlt : i < 32
  · have hk := k.val_lt_num
    rw [getLsbD_assignBits _ _ _ hlt, TaskKind.getLsbD_mask]
    rw [decide_eq_false (by omega)]
    exact h i hi
  · exact BitVec.getLsbD_of_ge _ _ (by omega)

/-! ## Incremental update of a global bitmap -/

/-- `UpdateGlobalBitmap`: the new global bitmap and the new count of processes that
run a task of the kind, once one process changed from `oldProcMap` to `newProcMap`. -/
def updateGlobalBitmap (gblMap count : BitVec 32) (k : TaskKind)
    (oldProcMap newProcMap : TaskBitmap) : TaskBitmap × BitVec 32 :=
  let bitMask := k.mask
  let newCount := count - ((oldProcMap &&& bitMask) >>> k.val)
  let newCount := newCount + ((newProcMap &&& bitMask) >>> k.val)
  (assignBits gblMap newCount bitMask, newCount)

/-- The summand of the counter: 1 when the bit is set, 0 otherwise. -/
theorem and_mask_shift (b : TaskBitmap) (k : TaskKind) :
    (b &&& k.mask) >>> k.val = if b.getLsbD k.val then 1#32 else 0#32 := by
  have hk := k.val_lt
  refine BitVec.eq_of_getLsbD_eq fun i hi => ?_
  rw [BitVec.getLsbD_ushiftRight, BitVec.getLsbD_and, TaskKind.getLsbD_mask]
  by_cases h : i = 0
  · subst h
    cases b.getLsbD k.val <;> simp
  · have hne : k.val + i ≠ k.val := by omega
    simp only [hne, decide_false, Bool.and_false]
    cases b.getLsbD k.val <;> simp [h]

theorem updateGlobalBitmap_count (gblMap count : BitVec 32) (k : TaskKind)
    (oldMap newMap : TaskBitmap) :
    (updateGlobalBitmap gblMap count k oldMap newMap).2 =
      count - (if oldMap.getLsbD k.val then 1#32 else 0#32) +
        (if newMap.getLsbD k.val then 1#32 else 0#32) := by
  simp only [updateGlobalBitmap, and_mask_shift]

theorem getLsbD_updateGlobalBitmap (gblMap count : BitVec 32) (k k' : TaskKind)
    (oldMap newMap : TaskBitmap) :
    (updateGlobalBitmap gblMap count k oldMap newMap).1.getLsbD k'.val =
      if k' = k then decide ((updateGlobalBitmap gblMap count k oldMap newMap).2 ≠ 0#32)
      else gblMap.getLsbD k'.val := by
  simp only [updateGlobalBitmap]
  exact getLsbD_assignBits_mask _ _ _ _

theorem ValidBitmap.updateGlobalBitmap {gblMap : TaskBitmap} (h : ValidBitmap gblMap)
    (count : BitVec 32) (k : TaskKind) (oldMap newMap : TaskBitmap) :
    ValidBitmap (updateGlobalBitmap gblMap count k oldMap newMap).1 :=
  h.assignBits _ k

end Clpkm
