import Mathlib.Data.List.Basic
import Mathlib.Tactic.Common

/-!
# Several copies into one file

`writeAt` writes a piece at an offset of a file, as `pwrite` does: a gap between the end
of the file and the offset is filled with zeros.  Several processes copy the same text
into the same file, each of them truncating the file when it starts and writing the text
from its own offset on.

`Copied text file busy` holds throughout, where `busy` tells the offsets of the processes
that are still copying: a byte is right, or a process that has not got past it is busy.
When nobody is busy the file has the text (`Copied.eq`).
-/

namespace Clpkm

universe u

variable {Byte : Type u}

/-- The next piece of a text after the first bytes of it. -/
theorem take_add_piece (text : List Byte) (off k : Nat) :
    text.take (off + ((text.drop off).take k).length) =
      text.take off ++ (text.drop off).take k := by
  rw [List.take_add, List.length_take, ← List.take_take, List.take_length]

/-- Write a piece at an offset. -/
def writeAt (zero : Byte) (file : List Byte) (off : Nat) (piece : List Byte) : List Byte :=
  (file ++ List.replicate (off - file.length) zero).take off ++ piece ++
    file.drop (off + piece.length)

theorem length_writeAt (zero : Byte) (file : List Byte) (off : Nat) (piece : List Byte) :
    (writeAt zero file off piece).length = max file.length (off + piece.length) := by
  unfold writeAt
  simp only [List.length_append, List.length_take, List.length_replicate, List.length_drop]
  omega

/-- What a write does not touch is as before. -/
theorem getElem?_writeAt_of_lt (zero : Byte) {file : List Byte} {off p : Nat} (piece : List Byte)
    (hp : p < off) (hfile : p < file.length) : (writeAt zero file off piece)[p]? = file[p]? := by
  have hlen : p < ((file ++ List.replicate (off - file.length) zero).take off).length := by
    simp only [List.length_append, List.length_take, List.length_replicate]
    omega
  unfold writeAt
  rw [List.append_assoc, List.getElem?_append_left hlen, List.getElem?_take_of_lt hp,
    List.getElem?_append_left hfile]

theorem getElem?_writeAt_of_ge (zero : Byte) {file : List Byte} {off p : Nat} {piece : List Byte}
    (hp : off + piece.length ≤ p) : (writeAt zero file off piece)[p]? = file[p]? := by
  have hlen : ((file ++ List.replicate (off - file.length) zero).take off ++ piece).length =
      off + piece.length := by
    simp only [List.length_append, List.length_take, List.length_replicate]
    omega
  unfold writeAt
  rw [List.getElem?_append_right (by omega), hlen, List.getElem?_drop]
  congr 1
  omega

theorem getElem?_writeAt_mid (zero : Byte) (file : List Byte) {off p : Nat} {piece : List Byte}
    (hle : off ≤ p) (hlt : p < off + piece.length) :
    (writeAt zero file off piece)[p]? = piece[p - off]? := by
  have hlen : ((file ++ List.replicate (off - file.length) zero).take off).length = off := by
    simp only [List.length_append, List.length_take, List.length_replicate]
    omega
  unfold writeAt
  rw [List.append_assoc, List.getElem?_append_right (by omega), hlen,
    List.getElem?_append_left (by omega)]

/-- Every byte of the file is right or still to be written. -/
structure Copied (text file : List Byte) (busy : Nat → Prop) : Prop where
  length_le : file.length ≤ text.length
  right : ∀ p < text.length, file[p]? = text[p]? ∨ ∃ off ≤ p, busy off

namespace Copied
variable {text file : List Byte} {busy busy' : Nat → Prop} {off : Nat}

/-- A whole copy. -/
theorem whole (text : List Byte) (busy : Nat → Prop) : Copied text text busy :=
  ⟨Nat.le_refl _, fun _ _ => .inl rfl⟩

/-- A process opens the file and truncates it. -/
theorem truncate (text : List Byte) (h : busy 0) : Copied text [] busy :=
  ⟨Nat.zero_le _, fun _ _ => .inr ⟨0, Nat.zero_le _, h⟩⟩

theorem mono (h : Copied text file busy) (hbusy : ∀ o < text.length, busy o → busy' o) :
    Copied text file busy' := by
  refine ⟨h.length_le, fun p hp => (h.right p hp).imp_right ?_⟩
  rintro ⟨o, ho, hb⟩
  exact ⟨o, ho, hbusy o (Nat.lt_of_le_of_lt ho hp) hb⟩

/-- A busy process writes the next piece of the text. -/
theorem write (h : Copied text file busy) (zero : Byte) (k : Nat)
    (hself : busy' (off + ((text.drop off).take k).length))
    (hbusy : ∀ o, busy o → o = off ∨ busy' o) (hoff : off ≤ text.length) :
    Copied text (writeAt zero file off ((text.drop off).take k)) busy' := by
  have hpiece : ((text.drop off).take k).length = min k (text.length - off) := by
    rw [List.length_take, List.length_drop]
  refine ⟨?_, fun p hp => ?_⟩
  · have := h.length_le
    rw [length_writeAt, hpiece]
    omega
  · by_cases hlt : p < off
    · rcases h.right p hp with hright | ⟨o, ho, hb⟩
      · have hfile : p < file.length := by
          by_contra hge
          rw [List.getElem?_eq_none (by omega)] at hright
          have := List.getElem?_eq_none_iff.mp hright.symm
          omega
        exact .inl ((getElem?_writeAt_of_lt zero _ hlt hfile).trans hright)
      · exact .inr ⟨o, ho, (hbusy o hb).resolve_left (by omega)⟩
    · by_cases hin : p < off + ((text.drop off).take k).length
      · refine .inl ?_
        rw [getElem?_writeAt_mid zero file (by omega) hin, List.getElem?_take_of_lt (by omega),
          List.getElem?_drop]
        congr 1
        omega
      · rcases h.right p hp with hright | ⟨o, ho, hb⟩
        · exact .inl ((getElem?_writeAt_of_ge zero (by omega)).trans hright)
        · rcases hbusy o hb with rfl | hb
          · exact .inr ⟨_, by omega, hself⟩
          · exact .inr ⟨o, ho, hb⟩

/-- When nobody is busy the file has the text. -/
theorem eq (h : Copied text file busy) (hidle : ∀ o, ¬busy o) : file = text := by
  apply List.ext_getElem?
  intro p
  by_cases hp : p < text.length
  · exact (h.right p hp).resolve_right fun ⟨o, _, hb⟩ => hidle o hb
  · have := h.length_le
    rw [List.getElem?_eq_none (by omega), List.getElem?_eq_none (by omega)]

end Copied
end Clpkm
