import Mathlib.Tactic.Common

/-!
# Regions and slots

A buffer that is divided among parties is a row of slots of one width: the slot of
party `n` begins at `n * width`, and what the party does happens in regions that are
given from the beginning of its slot on.  This module has what such layouts need: a
region inside of its slot is inside of the buffer, regions in different slots are
disjoint, and parties that are numbered in several dimensions get different numbers.
-/

namespace Clpkm

/-- `size` bytes from `offset` on. -/
structure Region where
  offset : Nat
  size : Nat
  deriving DecidableEq, Repr

namespace Region
variable {r s : Region} {width n m count : Nat}

/-- The region lies in a buffer of that many bytes. -/
def Inside (r : Region) (bytes : Nat) : Prop := r.offset + r.size ≤ bytes

def Disjoint (r s : Region) : Prop :=
  r.offset + r.size ≤ s.offset ∨ s.offset + s.size ≤ r.offset

/-- The region begins at a multiple of its size. -/
def Aligned (r : Region) : Prop := r.size ∣ r.offset

/-- The region, given from `base` on. -/
def shift (base : Nat) (r : Region) : Region := ⟨base + r.offset, r.size⟩

@[simp] theorem shift_offset (base : Nat) (r : Region) :
    (r.shift base).offset = base + r.offset := rfl

@[simp] theorem shift_size (base : Nat) (r : Region) : (r.shift base).size = r.size := rfl

theorem Inside.mono {bytes bytes' : Nat} (h : r.Inside bytes) (hle : bytes ≤ bytes') :
    r.Inside bytes' :=
  Nat.le_trans h hle

/-- The end of a slot is the beginning of the next. -/
theorem slot_end_le (width : Nat) (hn : n < m) : n * width + width ≤ m * width := by
  calc n * width + width = (n + 1) * width := (Nat.succ_mul n width).symm
    _ ≤ m * width := Nat.mul_le_mul_right width hn

/-- **A region in a slot is inside of the buffer.** -/
theorem Inside.slot (h : r.Inside width) (hn : n < count) :
    (r.shift (n * width)).Inside (count * width) := by
  have hend := slot_end_le width hn
  simp only [Inside, shift_offset, shift_size] at h ⊢
  omega

/-- **Regions in different slots are disjoint.** -/
theorem Inside.disjoint_slots (hr : r.Inside width) (hs : s.Inside width) (hnm : n ≠ m) :
    (r.shift (n * width)).Disjoint (s.shift (m * width)) := by
  simp only [Inside, Disjoint, shift_offset, shift_size] at hr hs ⊢
  rcases Nat.lt_or_gt_of_ne hnm with hlt | hlt
  · have hend := slot_end_le width hlt
    exact Or.inl (by omega)
  · have hend := slot_end_le width hlt
    exact Or.inr (by omega)

theorem Aligned.shift {base : Nat} (h : r.Aligned) (hb : r.size ∣ base) :
    (r.shift base).Aligned :=
  Nat.dvd_add hb h

end Region

/-! ## Numbers in several dimensions -/

theorem linear_lt {a b m n : Nat} (ha : a < m) (hb : b < n) : a * n + b < m * n := by
  have hend := Region.slot_end_le n ha
  omega

theorem linear_inj {a b a' b' n : Nat} (hb : b < n) (hb' : b' < n)
    (h : a * n + b = a' * n + b') : a = a' ∧ b = b' := by
  have ha : a = a' := by
    rcases Nat.lt_trichotomy a a' with hlt | rfl | hlt
    · have hend := Region.slot_end_le n hlt
      omega
    · rfl
    · have hend := Region.slot_end_le n hlt
      omega
  subst ha
  exact ⟨rfl, by omega⟩

end Clpkm
