import Mathlib.Data.List.Basic
import Mathlib.Tactic.Common

/-!
# Bounded pipes

A pipe holds at most as many bytes as its capacity; that it does is part of the type.
A write moves some bytes of a text into the room that is left and waits when there is
none.  A read takes some of the bytes and waits when there is none, unless nobody can
write any more: then it returns no byte, the end of the file.

`write_cases` and `read_cases` say what the two do, `exists_write` and `exists_read`
when they do not wait.
-/

namespace Clpkm

universe u

/-- The bytes in a pipe of this capacity. -/
structure Pipe (Byte : Type u) (capacity : Nat) where
  bytes : List Byte
  fits : bytes.length ≤ capacity
  deriving DecidableEq

namespace Pipe
variable {Byte : Type u} {capacity : Nat}

/-- A pipe nothing has been written to. -/
def empty : Pipe Byte capacity := ⟨[], Nat.zero_le capacity⟩

/-- Write the first `k` bytes of a text; the pipe and the rest of the text, or `none` if
the pipe has no room for them. -/
def write (p : Pipe Byte capacity) (text : List Byte) (k : Nat) :
    Option (Pipe Byte capacity × List Byte) :=
  if h : 0 < k ∧ k ≤ text.length ∧ p.bytes.length + k ≤ capacity then
    some (⟨p.bytes ++ text.take k, by
      rw [List.length_append, List.length_take, Nat.min_eq_left h.2.1]
      exact h.2.2⟩, text.drop k)
  else none

/-- Read `k` bytes; the bytes and the pipe, `none` if it has to wait.  No byte means the
end of the file. -/
def read (p : Pipe Byte capacity) (hasWriter : Bool) (k : Nat) :
    Option (List Byte × Pipe Byte capacity) :=
  if p.bytes.isEmpty then
    if hasWriter then none else some ([], p)
  else if 0 < k ∧ k ≤ p.bytes.length then
    some (p.bytes.take k, ⟨p.bytes.drop k, by
      rw [List.length_drop]
      exact Nat.le_trans (Nat.sub_le _ k) p.fits⟩)
  else none

/-- A write moves at least one byte from the text to the pipe. -/
theorem write_cases {p q : Pipe Byte capacity} {text rest : List Byte} {k : Nat}
    (h : p.write text k = some (q, rest)) :
    q.bytes ++ rest = p.bytes ++ text ∧ rest.length < text.length := by
  unfold write at h
  split at h
  · rename_i hk
    cases h
    refine ⟨by rw [List.append_assoc, List.take_append_drop], ?_⟩
    rw [List.length_drop]
    omega
  · cases h

theorem length_of_write {p q : Pipe Byte capacity} {text rest : List Byte} {k : Nat}
    (h : p.write text k = some (q, rest)) :
    q.bytes.length + rest.length = p.bytes.length + text.length ∧ rest.length < text.length := by
  obtain ⟨hbytes, hlt⟩ := write_cases h
  have hlen := congrArg List.length hbytes
  rw [List.length_append, List.length_append] at hlen
  exact ⟨hlen, hlt⟩

/-- A read takes at least one byte or finds the end of the file. -/
theorem read_cases {p q : Pipe Byte capacity} {hasWriter : Bool} {k : Nat} {got : List Byte}
    (h : p.read hasWriter k = some (got, q)) :
    (got = [] ∧ q = p ∧ p.bytes = [] ∧ hasWriter = false) ∨
      (got ≠ [] ∧ got ++ q.bytes = p.bytes ∧ q.bytes.length < p.bytes.length) := by
  unfold read at h
  split at h
  · rename_i hp
    split at h
    · cases h
    · rename_i hw
      cases h
      exact .inl ⟨rfl, rfl, List.isEmpty_iff.mp hp, Bool.eq_false_iff.mpr hw⟩
  · split at h
    · rename_i hk
      cases h
      refine .inr ⟨?_, List.take_append_drop k p.bytes, ?_⟩
      · apply List.ne_nil_of_length_pos
        rw [List.length_take]
        omega
      · rw [List.length_drop]
        omega
    · cases h

/-- A write to a pipe that is not full does not wait. -/
theorem exists_write {p : Pipe Byte capacity} {text : List Byte} (htext : text ≠ [])
    (hroom : p.bytes.length < capacity) : ∃ r, p.write text 1 = some r := by
  have hlen := List.length_pos_iff.mpr htext
  exact ⟨_, dif_pos ⟨Nat.one_pos, hlen, hroom⟩⟩

/-- A read does not wait if there is a byte to read or nobody left to write one. -/
theorem exists_read {p : Pipe Byte capacity} {hasWriter : Bool}
    (h : p.bytes ≠ [] ∨ hasWriter = false) : ∃ r, p.read hasWriter 1 = some r := by
  unfold read
  by_cases hp : p.bytes.isEmpty = true
  · have hw := h.resolve_left fun hne => hne (List.isEmpty_iff.mp hp)
    rw [if_pos hp, hw]
    exact ⟨_, rfl⟩
  · have hlen := List.length_pos_iff.mpr fun he => hp (List.isEmpty_iff.mpr he)
    rw [if_neg hp, if_pos ⟨Nat.one_pos, hlen⟩]
    exact ⟨_, rfl⟩

end Pipe
end Clpkm
