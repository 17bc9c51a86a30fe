import Clpkm.Device.Locfefe
import Clpkm.Machine
import Mathlib.Algebra.Order.BigOperators.Group.Finset
import Mathlib.Logic.Function.Basic

/-!
# The cooperative copy

The work-items of a batch run `__clpkm_store_local` side by side.  Each has two pointers to
words, which it advances by the size of the batch, and whoever comes to the word that is
not whole copies its bytes one by one, in a `switch` that falls through.  Every access to
memory is a step, and a word that is loaded or stored has to be aligned.

A work-item owns every `batchSize`-th word of the source and has at any time copied what it
owns of the bytes before its pointer (`Inv`).  So in every interleaving no byte is written
twice, nothing beyond the size is accessed, and `__builtin_unreachable` is not reached; a
step makes what is left smaller, so every run ends, with all bytes copied
(`storeLocal_exact`).
-/

namespace Clpkm
namespace StoreLocal
open Locfefe

/-- A call: what the work-items of the batch have in common.  `loc` is the local memory,
`glob` the global memory before the call. -/
structure Call where
  lvb : Nat
  src : Nat
  size : Nat
  batchSize : Nat
  loc : Bytes
  glob : Bytes

/-- Where a work-item is, with its pointers. -/
inductive Pc
  /-- at the test of the loop -/
  | loop (wLvb wSrc : Nat)
  /-- in the loop, after the load of a word -/
  | word (wLvb wSrc : Nat) (w : List UInt8)
  /-- at a label of the `switch`, or at the `break` if no bytes are left -/
  | tail (left bLvb bSrc : Nat)
  /-- after the load of a byte -/
  | byte (left bLvb bSrc : Nat) (b : UInt8)
  | finished
  | unreachable
  /-- at an access to a word that is not aligned -/
  | misaligned

/-- An access to one byte, to local memory if it is a read and to global memory if it is a
write. -/
structure Access where
  write : Bool
  item : Nat
  addr : Nat
  value : UInt8
  deriving DecidableEq, Repr

/-- Bytes from an address on. -/
def load (mem : Bytes) (addr n : Nat) : List UInt8 := (List.range' addr n).map mem

def store (mem : Bytes) : Nat → List UInt8 → Bytes
  | _, [] => mem
  | addr, b :: bs => store (Function.update mem addr b) (addr + 1) bs

/-- The accesses to bytes from an address on. -/
def accesses (write : Bool) (item : Nat) : Nat → List UInt8 → List Access
  | _, [] => []
  | addr, b :: bs => ⟨write, item, addr, b⟩ :: accesses write item (addr + 1) bs

/-- What a step of a work-item does. -/
structure Effect where
  pc : Pc
  mem : Bytes
  log : List Access

/-- `__clpkm_store_local`, step by step. -/
def next (c : Call) (id : Nat) (mem : Bytes) : Pc → Option Effect
  | .loop wLvb wSrc =>
    if wSrc + 4 ≤ c.src + c.size then
      if wSrc % 4 = 0 then
        some ⟨.word wLvb wSrc (load c.loc wSrc 4), mem,
          accesses false id wSrc (load c.loc wSrc 4)⟩
      else some ⟨.misaligned, mem, []⟩
    else if wSrc < c.src + c.size then
      if c.src + c.size - wSrc ≤ 3 then some ⟨.tail (c.src + c.size - wSrc) wLvb wSrc, mem, []⟩
      else some ⟨.unreachable, mem, []⟩
    else some ⟨.finished, mem, []⟩
  | .word wLvb wSrc w =>
    if wLvb % 4 = 0 then
      some ⟨.loop (wLvb + 4 * c.batchSize) (wSrc + 4 * c.batchSize), store mem wLvb w,
        accesses true id wLvb w⟩
    else some ⟨.misaligned, mem, []⟩
  | .tail 0 _ _ => some ⟨.finished, mem, []⟩
  | .tail (left + 1) bLvb bSrc =>
    some ⟨.byte left bLvb bSrc (c.loc bSrc), mem, accesses false id bSrc [c.loc bSrc]⟩
  | .byte left bLvb bSrc b =>
    some ⟨.tail left (bLvb + 1) (bSrc + 1), store mem bLvb [b], accesses true id bLvb [b]⟩
  | .finished | .unreachable | .misaligned => none

structure State where
  pcs : Nat → Pc
  mem : Bytes
  log : List Access

/-- All work-items at the test of the loop, each with pointers to the word of its number. -/
def start (c : Call) : State where
  pcs id := .loop (c.lvb + 4 * id) (c.src + 4 * id)
  mem := c.glob
  log := []

/-- The work-items of the batch in any interleaving. -/
def machine (c : Call) : Machine State Nat where
  Initial s := s = start c
  step s id :=
    if id < c.batchSize then
      (next c id s.mem (s.pcs id)).map fun e =>
        ⟨Function.update s.pcs id e.pc, e.mem, s.log ++ e.log⟩
    else none

/-- Who has written a byte, one entry for each write. -/
def writers (log : List Access) (addr : Nat) : List Nat :=
  (log.filter fun a => a.write && a.addr == addr).map Access.item

/-! ## Runs of bytes -/

theorem length_load (mem : Bytes) (addr n : Nat) : (load mem addr n).length = n := by
  rw [load, List.length_map, List.length_range']

theorem load_succ (mem : Bytes) (addr n : Nat) :
    load mem addr (n + 1) = mem addr :: load mem (addr + 1) n := by
  rw [load, List.range'_succ, List.map_cons]
  rfl

/-- What was loaded is stored. -/
theorem store_load (mem src : Bytes) (dst addr n y : Nat) :
    store mem dst (load src addr n) y =
      if dst ≤ y ∧ y < dst + n then src (addr + (y - dst)) else mem y := by
  induction n generalizing mem dst addr with
  | zero =>
    rw [if_neg (by omega)]
    rfl
  | succ n ih =>
    rw [load_succ, store, ih]
    by_cases hlater : dst + 1 ≤ y ∧ y < dst + 1 + n
    · rw [if_pos hlater, if_pos (by omega)]
      congr 1
      omega
    · rw [if_neg hlater]
      by_cases hfirst : y = dst
      · rw [hfirst, Function.update_self, if_pos (by omega), Nat.sub_self]
        rfl
      · rw [Function.update_of_ne hfirst, if_neg (by omega)]

theorem mem_accesses {write : Bool} {item addr start n : Nat} {mem : Bytes} {a : Access}
    (h : a ∈ accesses write item addr (load mem start n)) :
    a.write = write ∧ ∃ i < n, a.addr = addr + i ∧ a.value = mem (start + i) := by
  induction n generalizing addr start with
  | zero => cases h
  | succ n ih =>
    rw [load_succ, accesses] at h
    rcases List.mem_cons.mp h with rfl | h
    · exact ⟨rfl, 0, Nat.succ_pos n, rfl, rfl⟩
    · obtain ⟨hwrite, i, hi, haddr, hvalue⟩ := ih h
      refine ⟨hwrite, i + 1, Nat.succ_lt_succ hi, ?_, ?_⟩
      · rw [haddr]
        omega
      · rw [hvalue, Nat.add_right_comm]
        rfl

@[simp] theorem writers_append (log log' : List Access) (addr : Nat) :
    writers (log ++ log') addr = writers log addr ++ writers log' addr := by
  rw [writers, List.filter_append, List.map_append]
  rfl

theorem writers_cons (a : Access) (log : List Access) (y : Nat) :
    writers (a :: log) y =
      if a.write = true ∧ a.addr = y then a.item :: writers log y else writers log y := by
  unfold writers
  rw [List.filter_cons]
  by_cases h : a.write = true ∧ a.addr = y
  · rw [if_pos h, if_pos (by rw [h.1, h.2, beq_self_eq_true, Bool.and_true]), List.map_cons]
  · rw [if_neg h, if_neg]
    rw [Bool.and_eq_true, beq_iff_eq]
    exact h

/-- Reads have no writers. -/
theorem writers_reads (item addr : Nat) (bs : List UInt8) (y : Nat) :
    writers (accesses false item addr bs) y = [] := by
  induction bs generalizing addr with
  | nil => rfl
  | cons b bs ih => exact ih (addr + 1)

theorem writers_writes (item addr : Nat) (bs : List UInt8) (y : Nat) :
    writers (accesses true item addr bs) y =
      if addr ≤ y ∧ y < addr + bs.length then [item] else [] := by
  induction bs generalizing addr with
  | nil =>
    rw [if_neg (by rw [List.length_nil]; omega)]
    rfl
  | cons b bs ih =>
    rw [accesses, writers_cons, ih, List.length_cons]
    by_cases hfirst : addr = y
    · rw [if_pos ⟨rfl, hfirst⟩, if_neg (by omega), if_pos (by omega)]
    · rw [if_neg fun h => hfirst h.2]
      exact if_congr (by omega) rfl rfl

/-! ## The invariant -/

/-- The work-item that copies a byte: that whose turn it is at its word. -/
def owner (c : Call) (x : Nat) : Nat := x / 4 % c.batchSize

/-- A work-item is there and has copied what it owns of the first `done` bytes. -/
inductive At (c : Call) (id : Nat) : Nat → Pc → Prop
  | loop {k : Nat} (hk : k % c.batchSize = id) :
      At c id (4 * k) (.loop (c.lvb + 4 * k) (c.src + 4 * k))
  | word {k : Nat} (hk : k % c.batchSize = id) (hfull : 4 * k + 4 ≤ c.size) :
      At c id (4 * k) (.word (c.lvb + 4 * k) (c.src + 4 * k) (load c.loc (c.src + 4 * k) 4))
  | tail {k x left : Nat} (hk : k % c.batchSize = id) (hx : 4 * k ≤ x)
      (hsize : x + left = c.size) (hlast : c.size < 4 * k + 4) :
      At c id x (.tail left (c.lvb + x) (c.src + x))
  | byte {k x left : Nat} (hk : k % c.batchSize = id) (hx : 4 * k ≤ x)
      (hsize : x + left + 1 = c.size) (hlast : c.size < 4 * k + 4) :
      At c id x (.byte left (c.lvb + x) (c.src + x) (c.loc (c.src + x)))
  | finished : At c id c.size .finished

theorem At.eq_size {c : Call} {id done : Nat} (h : At c id done .finished) : done = c.size := by
  cases h
  rfl

theorem At.ne_unreachable {c : Call} {id done : Nat} {pc : Pc} (h : At c id done pc) :
    pc ≠ .unreachable := by
  rintro rfl
  cases h

theorem At.ne_misaligned {c : Call} {id done : Nat} {pc : Pc} (h : At c id done pc) :
    pc ≠ .misaligned := by
  rintro rfl
  cases h

/-- The byte at the address has been copied if its owner is past it. -/
def Copied (c : Call) (done : Nat → Nat) (y : Nat) : Prop :=
  c.lvb ≤ y ∧ y < c.lvb + c.size ∧ y - c.lvb < done (owner c (y - c.lvb))

instance (c : Call) (done : Nat → Nat) (y : Nat) : Decidable (Copied c done y) := by
  unfold Copied
  infer_instance

/-- An access is to a byte below the size, and a write writes the byte of the source. -/
def Access.Good (c : Call) (a : Access) : Prop :=
  if a.write then c.lvb ≤ a.addr ∧ a.addr < c.lvb + c.size ∧
    a.value = c.loc (c.src + (a.addr - c.lvb))
  else c.src ≤ a.addr ∧ a.addr < c.src + c.size

/-- What holds of a batch at any time, with the bytes that are done. -/
structure InvAt (c : Call) (done : Nat → Nat) (s : State) : Prop where
  at_pc : ∀ id < c.batchSize, At c id (done id) (s.pcs id)
  mem : ∀ y, s.mem y = if Copied c done y then c.loc (c.src + (y - c.lvb)) else c.glob y
  writers : ∀ y, writers s.log y = if Copied c done y then [owner c (y - c.lvb)] else []
  good : ∀ a ∈ s.log, a.Good c

def Inv (c : Call) (s : State) : Prop := ∃ done, InvAt c done s

/-- A work-item that goes from `done` to `done'` copies `n` bytes from `done` on, which are
those that it owns in between. -/
structure Piece (c : Call) (id done done' n : Nat) : Prop where
  owned : ∀ x, x < c.size → owner c x = id →
    (x < done' ↔ x < done ∨ done ≤ x ∧ x < done + n)
  mine : ∀ x, done ≤ x → x < done + n → x < c.size ∧ owner c x = id

/-- What a step does: it copies a piece. -/
structure Copies (c : Call) (id : Nat) (mem : Bytes) (done : Nat) (e : Effect)
    (done' n : Nat) : Prop where
  at_pc : At c id done' e.pc
  piece : Piece c id done done' n
  mem : ∀ y, e.mem y =
    if c.lvb + done ≤ y ∧ y < c.lvb + done + n then c.loc (c.src + (y - c.lvb)) else mem y
  writers : ∀ y, writers e.log y =
    if c.lvb + done ≤ y ∧ y < c.lvb + done + n then [id] else []
  good : ∀ a ∈ e.log, a.Good c

/-! ## One step -/

section Step
variable {c : Call} {id done : Nat}

theorem piece_nothing {done' : Nat} (h : done' = done ∨ done' = c.size ∧ c.size ≤ done) :
    Piece c id done done' 0 := by
  refine ⟨fun x hx _ => ?_, fun x hx hlt => ?_⟩
  · omega
  · omega

/-- Of the next `batchSize` words only the first is owned. -/
theorem piece_word {k : Nat} (hbatch : 0 < c.batchSize) (hk : k % c.batchSize = id)
    (hfull : 4 * k + 4 ≤ c.size) : Piece c id (4 * k) (4 * (k + c.batchSize)) 4 := by
  refine ⟨fun x hx hown => ⟨fun hlt => ?_, fun h => by omega⟩, fun x hx hlt => ⟨by omega, ?_⟩⟩
  · by_cases hword : k ≤ x / 4
    · have hmod : (x / 4 - k) % c.batchSize = 0 :=
        Nat.sub_mod_eq_zero_of_mod_eq (hown.trans hk.symm)
      rw [Nat.mod_eq_of_lt (by omega)] at hmod
      omega
    · omega
  · have hword : x / 4 = k := by omega
    rw [owner, hword, hk]

theorem piece_byte {k : Nat} (hk : k % c.batchSize = id) (hle : 4 * k ≤ done)
    (hlt : done < c.size) (hlast : c.size < 4 * k + 4) : Piece c id done (done + 1) 1 := by
  refine ⟨fun x _ _ => by omega, fun x hx hx' => ⟨by omega, ?_⟩⟩
  have hword : x / 4 = k := by omega
  rw [owner, hword, hk]

/-- A step that writes nothing. -/
theorem copies_nothing {mem : Bytes} {pc : Pc} {x n done' : Nat} (hpc : At c id done' pc)
    (hpiece : Piece c id done done' 0) (hn : x + n ≤ c.size) :
    Copies c id mem done ⟨pc, mem, accesses false id (c.src + x) (load c.loc (c.src + x) n)⟩
      done' 0 := by
  refine ⟨hpc, hpiece, fun y => ?_, fun y => ?_, fun a ha => ?_⟩
  · rw [if_neg (by omega)]
  · rw [if_neg (by omega), writers_reads]
  · obtain ⟨hwrite, i, hi, haddr, -⟩ := mem_accesses ha
    rw [Access.Good, if_neg (by rw [hwrite]; exact Bool.false_ne_true)]
    omega

/-- A step that writes what has been loaded. -/
theorem copies_load {mem : Bytes} {pc : Pc} {n done' : Nat} (hpc : At c id done' pc)
    (hpiece : Piece c id done done' n) (hn : done + n ≤ c.size) :
    Copies c id mem done
      ⟨pc, store mem (c.lvb + done) (load c.loc (c.src + done) n),
        accesses true id (c.lvb + done) (load c.loc (c.src + done) n)⟩ done' n := by
  refine ⟨hpc, hpiece, fun y => ?_, fun y => ?_, fun a ha => ?_⟩
  · show store mem (c.lvb + done) _ y = _
    rw [store_load]
    by_cases hy : c.lvb + done ≤ y ∧ y < c.lvb + done + n
    · rw [if_pos hy, if_pos hy]
      congr 1
      omega
    · rw [if_neg hy, if_neg hy]
  · rw [writers_writes, length_load]
  · obtain ⟨hwrite, i, hi, haddr, hvalue⟩ := mem_accesses ha
    rw [Access.Good, if_pos hwrite, haddr, hvalue]
    refine ⟨by omega, by omega, ?_⟩
    congr 1
    omega

/-- **One step of a work-item** copies a piece; it does not get to an undefined place. -/
theorem next_copies {mem : Bytes} {pc : Pc} {e : Effect} (hbatch : 0 < c.batchSize)
    (hsrc : 4 ∣ c.src) (hlvb : 4 ∣ c.lvb) (h : At c id done pc)
    (hnext : next c id mem pc = some e) : ∃ done' n, Copies c id mem done e done' n := by
  cases h with
  | @loop k hk =>
    rw [next] at hnext
    split at hnext
    · next hfull =>
      rw [if_pos (by omega)] at hnext
      cases hnext
      exact ⟨4 * k, 0, copies_nothing (.word hk (by omega)) (piece_nothing (.inl rfl)) (by omega)⟩
    -- no whole word is left
    · split at hnext
      · rw [if_pos (by omega)] at hnext
        cases hnext
        have hpc : At c id (4 * k)
            (.tail (c.src + c.size - (c.src + 4 * k)) (c.lvb + 4 * k) (c.src + 4 * k)) :=
          .tail hk (Nat.le_refl _) (by omega) (by omega)
        exact ⟨4 * k, 0, copies_nothing (n := 0) hpc (piece_nothing (.inl rfl)) (Nat.zero_le _)⟩
      · cases hnext
        exact ⟨c.size, 0, copies_nothing (n := 0) .finished
          (piece_nothing (.inr ⟨rfl, by omega⟩)) (Nat.zero_le _)⟩
  | @word k hk hfull =>
    rw [next, if_pos (by omega)] at hnext
    cases hnext
    have hpc : At c id (4 * (k + c.batchSize))
        (.loop (c.lvb + 4 * k + 4 * c.batchSize) (c.src + 4 * k + 4 * c.batchSize)) := by
      rw [Nat.add_assoc, Nat.add_assoc, ← Nat.mul_add]
      exact .loop ((Nat.add_mod_right k _).trans hk)
    exact ⟨_, 4, copies_load hpc (piece_word hbatch hk hfull) hfull⟩
  | @tail k x left hk hx hsize hlast =>
    cases left with
    | zero =>
      cases hnext
      have hend : c.size = done := hsize.symm
      exact ⟨c.size, 0, copies_nothing (n := 0) .finished
        (piece_nothing (.inl hend)) (Nat.zero_le _)⟩
    | succ left =>
      cases hnext
      exact ⟨done, 0, copies_nothing (x := done) (n := 1) (.byte hk hx hsize hlast)
        (piece_nothing (.inl rfl)) (by omega)⟩
  | @byte k x left hk hx hsize hlast =>
    cases hnext
    have hpc : At c id (done + 1) (.tail left (c.lvb + done + 1) (c.src + done + 1)) :=
      .tail hk (by omega) (by omega) hlast
    exact ⟨done + 1, 1, copies_load hpc (piece_byte hk hx (by omega) hlast) (by omega)⟩
  | finished => cases hnext

end Step

/-! ## Every interleaving -/

section Run
variable {c : Call} {s t : State} {id : Nat}

/-- At the start nothing has been copied: no byte is before the first word of its owner. -/
theorem not_copied_start (c : Call) (y : Nat) : ¬Copied c (fun id => 4 * id) y := by
  rintro ⟨-, -, hlt⟩
  have hle : owner c (y - c.lvb) ≤ (y - c.lvb) / 4 := Nat.mod_le _ _
  have hlt' : y - c.lvb < 4 * owner c (y - c.lvb) := hlt
  omega

theorem inv_start (c : Call) : Inv c (start c) := by
  refine ⟨fun id => 4 * id, fun id hid => ?_, fun y => ?_, fun y => ?_, fun a ha => ?_⟩
  · exact .loop (Nat.mod_eq_of_lt hid)
  · rw [if_neg (not_copied_start c y)]
    rfl
  · rw [if_neg (not_copied_start c y)]
    rfl
  · cases ha

/-- A piece is what has been copied in addition. -/
theorem copied_update {done : Nat → Nat} {done' n : Nat} (hpiece : Piece c id (done id) done' n)
    (y : Nat) : Copied c (Function.update done id done') y ↔
      Copied c done y ∨ c.lvb + done id ≤ y ∧ y < c.lvb + done id + n := by
  unfold Copied
  by_cases hown : owner c (y - c.lvb) = id
  · rw [hown, Function.update_self]
    constructor
    · rintro ⟨hle, hlt, hdone⟩
      have hcases := (hpiece.owned (y - c.lvb) (by omega) hown).mp hdone
      omega
    · rintro (⟨hle, hlt, hdone⟩ | ⟨hle, hlt⟩)
      · exact ⟨hle, hlt, (hpiece.owned (y - c.lvb) (by omega) hown).mpr (.inl hdone)⟩
      · obtain ⟨hsize, -⟩ := hpiece.mine (y - c.lvb) (by omega) (by omega)
        exact ⟨by omega, by omega,
          (hpiece.owned (y - c.lvb) hsize hown).mpr (.inr ⟨by omega, by omega⟩)⟩
  · rw [Function.update_of_ne hown]
    constructor
    · exact .inl
    · rintro (h | ⟨hle, hlt⟩)
      · exact h
      · exact absurd (hpiece.mine (y - c.lvb) (by omega) (by omega)).2 hown

theorem step_eq_some (h : (machine c).step s id = some t) :
    id < c.batchSize ∧ ∃ e, next c id s.mem (s.pcs id) = some e ∧
      t = ⟨Function.update s.pcs id e.pc, e.mem, s.log ++ e.log⟩ := by
  have hstep : (if id < c.batchSize then (next c id s.mem (s.pcs id)).map fun e =>
      (⟨Function.update s.pcs id e.pc, e.mem, s.log ++ e.log⟩ : State) else none) = some t := h
  split at hstep
  · next hid =>
    obtain ⟨e, he, rfl⟩ := Option.map_eq_some_iff.mp hstep
    exact ⟨hid, e, he, rfl⟩
  · cases hstep

/-- **Every step keeps the invariant.** -/
theorem inv_step (hbatch : 0 < c.batchSize) (hsrc : 4 ∣ c.src) (hlvb : 4 ∣ c.lvb)
    (hs : Inv c s) (h : (machine c).step s id = some t) : Inv c t := by
  obtain ⟨done, hs⟩ := hs
  obtain ⟨hid, e, hnext, rfl⟩ := step_eq_some h
  obtain ⟨done', n, hcopies⟩ := next_copies hbatch hsrc hlvb (hs.at_pc id hid) hnext
  have hcopied := copied_update hcopies.piece
  refine ⟨Function.update done id done', fun j hj => ?_, fun y => ?_, fun y => ?_, ?_⟩
  · by_cases hj' : j = id
    · rw [hj']
      show At c id (Function.update done id done' id) (Function.update s.pcs id e.pc id)
      rw [Function.update_self, Function.update_self]
      exact hcopies.at_pc
    · show At c j (Function.update done id done' j) (Function.update s.pcs id e.pc j)
      rw [Function.update_of_ne hj', Function.update_of_ne hj']
      exact hs.at_pc j hj
  · show e.mem y = _
    rw [hcopies.mem, hs.mem]
    by_cases hnew : c.lvb + done id ≤ y ∧ y < c.lvb + done id + n
    · rw [if_pos hnew, if_pos ((hcopied y).mpr (.inr hnew))]
    · rw [if_neg hnew]
      exact if_congr ((hcopied y).trans (or_iff_left hnew)).symm rfl rfl
  · show StoreLocal.writers (s.log ++ e.log) y = _
    rw [writers_append, hs.writers, hcopies.writers]
    by_cases hnew : c.lvb + done id ≤ y ∧ y < c.lvb + done id + n
    · obtain ⟨-, hown⟩ := hcopies.piece.mine (y - c.lvb) (by omega) (by omega)
      -- the work-item itself is the owner and has not got there before
      have hold : ¬Copied c done y := by
        rintro ⟨-, -, hlt⟩
        rw [hown] at hlt
        omega
      rw [if_neg hold, if_pos hnew, if_pos ((hcopied y).mpr (.inr hnew)), hown]
      rfl
    · rw [if_neg hnew, List.append_nil]
      exact if_congr ((hcopied y).trans (or_iff_left hnew)).symm rfl rfl
  · intro a ha
    rcases List.mem_append.mp ha with ha | ha
    · exact hs.good a ha
    · exact hcopies.good a ha

theorem inv_of_reachable (hbatch : 0 < c.batchSize) (hsrc : 4 ∣ c.src) (hlvb : 4 ∣ c.lvb)
    (hs : (machine c).Reachable s) : Inv c s := by
  apply hs.invariant
  · rintro s rfl
    exact inv_start c
  · intro s id t
    exact inv_step hbatch hsrc hlvb

/-! ## What is left -/

/-- At least as many steps as a work-item still makes. -/
def Pc.remaining (c : Call) : Pc → Nat
  | .loop _ wSrc => 2 * (c.src + c.size - wSrc) + 2
  | .word _ wSrc _ => 2 * (c.src + c.size - (wSrc + 4)) + 3
  | .tail left _ _ => 2 * left + 1
  | .byte left _ _ _ => 2 * left + 2
  | .finished | .unreachable | .misaligned => 0

def State.remaining (c : Call) (s : State) : Nat :=
  ∑ id ∈ Finset.range c.batchSize, (s.pcs id).remaining c

theorem next_remaining {mem : Bytes} {pc : Pc} {e : Effect} (hbatch : 0 < c.batchSize)
    (hnext : next c id mem pc = some e) : e.pc.remaining c < pc.remaining c := by
  cases pc with
  | loop wLvb wSrc =>
    rw [next] at hnext
    split at hnext
    · split at hnext
      · cases hnext
        show 2 * (c.src + c.size - (wSrc + 4)) + 3 < 2 * (c.src + c.size - wSrc) + 2
        omega
      · cases hnext
        exact Nat.succ_pos _
    · split at hnext
      · split at hnext
        · cases hnext
          exact Nat.lt_succ_self _
        · cases hnext
          exact Nat.succ_pos _
      · cases hnext
        exact Nat.succ_pos _
  | word wLvb wSrc w =>
    rw [next] at hnext
    split at hnext
    · cases hnext
      show 2 * (c.src + c.size - (wSrc + 4 * c.batchSize)) + 2 <
        2 * (c.src + c.size - (wSrc + 4)) + 3
      omega
    · cases hnext
      exact Nat.succ_pos _
  | tail left bLvb bSrc =>
    cases left with
    | zero =>
      cases hnext
      exact Nat.one_pos
    | succ left =>
      cases hnext
      exact Nat.lt_succ_self _
  | byte left bLvb bSrc b =>
    cases hnext
    exact Nat.lt_succ_self _
  | finished | unreachable | misaligned => cases hnext

theorem step_remaining (hbatch : 0 < c.batchSize) (h : (machine c).step s id = some t) :
    t.remaining c < s.remaining c := by
  obtain ⟨hid, e, hnext, rfl⟩ := step_eq_some h
  have hlt := next_remaining hbatch hnext
  apply Finset.sum_lt_sum
  · intro j _
    show (Function.update s.pcs id e.pc j).remaining c ≤ _
    by_cases hj : j = id
    · rw [hj, Function.update_self]
      exact Nat.le_of_lt hlt
    · rw [Function.update_of_ne hj]
  · refine ⟨id, Finset.mem_range.mpr hid, ?_⟩
    show (Function.update s.pcs id e.pc id).remaining c < _
    rw [Function.update_self]
    exact hlt

/-- A work-item that has not finished can make a step. -/
theorem exists_step (hs : Inv c s) (hid : id < c.batchSize) (hpc : s.pcs id ≠ .finished) :
    ∃ t, (machine c).step s id = some t := by
  obtain ⟨done, hs⟩ := hs
  obtain ⟨e, he⟩ : ∃ e, next c id s.mem (s.pcs id) = some e := by
    have hat := hs.at_pc id hid
    generalize s.pcs id = pc at hat hpc
    generalize done id = copied at hat
    cases hat with
    | loop =>
      rw [next]
      split
      · split <;> exact ⟨_, rfl⟩
      · split
        · split <;> exact ⟨_, rfl⟩
        · exact ⟨_, rfl⟩
    | word =>
      rw [next]
      split <;> exact ⟨_, rfl⟩
    | @tail k x left =>
      cases left with
      | zero => exact ⟨_, rfl⟩
      | succ left => exact ⟨_, rfl⟩
    | byte => exact ⟨_, rfl⟩
    | finished => exact absurd rfl hpc
  refine ⟨⟨Function.update s.pcs id e.pc, e.mem, s.log ++ e.log⟩, ?_⟩
  show (if id < c.batchSize then (next c id s.mem (s.pcs id)).map _ else none) = _
  rw [if_pos hid, he]
  rfl

end Run

/-- What holds of a batch at any time. -/
structure Safe (c : Call) (s : State) : Prop where
  /-- Accesses are to bytes below the size, and writes write the byte of the source. -/
  good : ∀ a ∈ s.log, a.Good c
  once : ∀ y, (writers s.log y).length ≤ 1
  reachable : ∀ id < c.batchSize, s.pcs id ≠ .unreachable
  aligned : ∀ id < c.batchSize, s.pcs id ≠ .misaligned

/-- What the batch leaves behind. -/
structure Complete (c : Call) (s : State) : Prop where
  /-- Exactly one work-item has written each byte, once. -/
  written : ∀ x < c.size, ∃ id < c.batchSize, writers s.log (c.lvb + x) = [id]
  copied : ∀ x < c.size, s.mem (c.lvb + x) = c.loc (c.src + x)
  unchanged : ∀ y, ¬(c.lvb ≤ y ∧ y < c.lvb + c.size) → s.mem y = c.glob y

theorem Inv.safe {c : Call} {s : State} (hs : Inv c s) : Safe c s := by
  obtain ⟨done, hs⟩ := hs
  refine ⟨hs.good, fun y => ?_, fun id hid => ?_, fun id hid => ?_⟩
  · rw [hs.writers]
    split
    · exact Nat.le_refl 1
    · exact Nat.zero_le 1
  · exact (hs.at_pc id hid).ne_unreachable
  · exact (hs.at_pc id hid).ne_misaligned

theorem Inv.complete {c : Call} {s : State} (hbatch : 0 < c.batchSize) (hs : Inv c s)
    (hfinished : ∀ id < c.batchSize, s.pcs id = .finished) : Complete c s := by
  obtain ⟨done, hs⟩ := hs
  have howner (x : Nat) : owner c x < c.batchSize := Nat.mod_lt _ hbatch
  have hdone : ∀ id < c.batchSize, done id = c.size := by
    intro id hid
    have hat := hs.at_pc id hid
    rw [hfinished id hid] at hat
    exact hat.eq_size
  have hcopied : ∀ x < c.size, Copied c done (c.lvb + x) := by
    intro x hx
    refine ⟨by omega, by omega, ?_⟩
    rw [hdone _ (howner _)]
    omega
  refine ⟨fun x hx => ?_, fun x hx => ?_, fun y hy => ?_⟩
  · refine ⟨owner c x, howner x, ?_⟩
    rw [hs.writers, if_pos (hcopied x hx), Nat.add_sub_cancel_left]
  · rw [hs.mem, if_pos (hcopied x hx), Nat.add_sub_cancel_left]
  · rw [hs.mem, if_neg fun h => hy ⟨h.1, h.2.1⟩]

/-- **The cooperative copy is exact.**  In every interleaving, all accesses are in range and
no undefined place is reached; the runs are bounded, and a work-item that has not finished
can go on; and when all have finished everything has been copied. -/
theorem storeLocal_exact {c : Call} (hbatch : 1 ≤ c.batchSize) (hsrc : 4 ∣ c.src)
    (hlvb : 4 ∣ c.lvb) :
    (∀ s, (machine c).Reachable s → Safe c s) ∧
    (∃ bound, ∀ ids t, (machine c).run (start c) ids = some t → ids.length ≤ bound) ∧
    (∀ s, (machine c).Reachable s → ∀ id < c.batchSize, s.pcs id ≠ .finished →
      ∃ t, (machine c).step s id = some t) ∧
    ∀ s, (machine c).Reachable s → (∀ id < c.batchSize, s.pcs id = .finished) →
      Complete c s := by
  refine ⟨fun s hs => ?_, ⟨(start c).remaining c, fun ids t hrun => ?_⟩, fun s hs id hid => ?_,
    fun s hs => ?_⟩
  · exact (inv_of_reachable hbatch hsrc hlvb hs).safe
  · exact Machine.length_run_le (State.remaining c) (fun s id t => step_remaining hbatch) hrun
  · exact exists_step (inv_of_reachable hbatch hsrc hlvb hs) hid
  · exact (inv_of_reachable hbatch hsrc hlvb hs).complete hbatch

/-- Seven bytes, copied by three work-items. -/
def sevenBytes : Call where
  lvb := 4
  src := 8
  size := 7
  batchSize := 3
  loc := UInt8.ofNat
  glob := fun _ => 0

theorem storeLocal_exact_seven :
    (∀ s, (machine sevenBytes).Reachable s → Safe sevenBytes s) ∧
    (∃ bound, ∀ ids t, (machine sevenBytes).run (start sevenBytes) ids = some t →
      ids.length ≤ bound) ∧
    (∀ s, (machine sevenBytes).Reachable s → ∀ id < 3, s.pcs id ≠ .finished →
      ∃ t, (machine sevenBytes).step s id = some t) ∧
    ∀ s, (machine sevenBytes).Reachable s → (∀ id < 3, s.pcs id = .finished) →
      Complete sevenBytes s :=
  storeLocal_exact (by decide : 1 ≤ 3) (by decide : 4 ∣ 8) (by decide : 4 ∣ 4)

/-! ## One work-item after the other -/

/-- What the first `n` work-items copy if they run one after the other. -/
theorem foldl_storeLocal {c : Call} {n : Nat} (hn : n ≤ c.batchSize) (y : Nat) :
    (List.range n).foldl (fun dst id =>
        storeLocal dst c.lvb (fun x => c.loc (c.src + x)) c.size id c.batchSize) c.glob y =
      if c.lvb ≤ y ∧ y < c.lvb + c.size ∧ owner c (y - c.lvb) < n then
        c.loc (c.src + (y - c.lvb)) else c.glob y := by
  induction n with
  | zero =>
    rw [if_neg fun h => Nat.not_lt_zero _ h.2.2]
    rfl
  | succ n ih =>
    rw [List.range_succ, List.foldl_append, List.foldl_cons, List.foldl_nil]
    by_cases hin : c.lvb ≤ y ∧ y < c.lvb + c.size
    · obtain ⟨x, rfl⟩ := Nat.exists_eq_add_of_le hin.1
      rw [storeLocal_apply hn (by omega), ih (Nat.le_of_succ_le hn), Nat.add_sub_cancel_left]
      show (if owner c x = n then _ else _) = _
      by_cases hlast : owner c x = n
      · rw [if_pos hlast, if_pos (by omega)]
      · rw [if_neg hlast]
        exact if_congr (by omega) rfl rfl
    · rw [storeLocal, storeFrom_of_outside _ _ _ (by omega), ih (Nat.le_of_succ_le hn),
        if_neg fun h => hin ⟨h.1, h.2.1⟩, if_neg fun h => hin ⟨h.1, h.2.1⟩]

/-- **Whatever the interleaving, the batch leaves what its work-items leave that run
`storeLocal` one after the other.** -/
theorem mem_eq_foldl_storeLocal {c : Call} {s : State} (hbatch : 1 ≤ c.batchSize)
    (hsrc : 4 ∣ c.src) (hlvb : 4 ∣ c.lvb) (hs : (machine c).Reachable s)
    (hfinished : ∀ id < c.batchSize, s.pcs id = .finished) :
    s.mem = (List.range c.batchSize).foldl (fun dst id =>
      storeLocal dst c.lvb (fun x => c.loc (c.src + x)) c.size id c.batchSize) c.glob := by
  have hcomplete := (inv_of_reachable hbatch hsrc hlvb hs).complete hbatch hfinished
  funext y
  rw [foldl_storeLocal (Nat.le_refl _)]
  by_cases hin : c.lvb ≤ y ∧ y < c.lvb + c.size
  · rw [if_pos ⟨hin.1, hin.2, Nat.mod_lt _ hbatch⟩, ← hcomplete.copied _ (by omega),
      Nat.add_sub_cancel' hin.1]
  · rw [if_neg fun h => hin ⟨h.1, h.2.1⟩, hcomplete.unchanged y hin]

end StoreLocal
end Clpkm
