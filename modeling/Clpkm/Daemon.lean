import Clpkm.TaskKind
import Clpkm.Table
import Mathlib.Data.List.Induction
import Mathlib.Data.List.Infix

/-!
# The daemon's account of the high-priority processes

The daemon keeps three views of one fact.  `ProcBitmap` records what every
high-priority process last reported, `CountOfEachTaskKind[k]` how many processes
reported kind `k`, and `GlobalBitmap` which of the counters are not 0.  Only the
first is written from the messages; the other two are maintained incrementally by
`UpdateProcBitmap`, one subtraction, one addition and one `AssignBits` for each kind.

`Task.Inv` ties the three together and is kept by every message as long as the table
stays below `2^32` entries, where the counters are exact.  `lastReported` is the
purpose of the whole structure, read off the messages alone: the last accepted
bitmap of a sender since its name was last released.
-/

namespace Clpkm

/-- `GblConfig`, as far as `GetConfig` sends it. -/
structure GblConfig where
  compilerPath : String
  threshold : BitVec 64
  deriving DecidableEq, Repr

/-- The daemon's `Task`. -/
structure Task where
  procBitmap : AList (fun _ : String => TaskBitmap)
  globalBitmap : TaskBitmap
  countOfEachTaskKind : TaskKind → BitVec 32

/-- The messages that reach the daemon's task management. -/
inductive DaemonMsg
  | setHighPrioTaskBitmap (sender : String) (bitmap : TaskBitmap)
  | nameOwnerChanged (name oldOwner newOwner : String)
  deriving DecidableEq, Repr

namespace Task

/-- The state the daemon starts with. -/
def init : Task := ⟨∅, 0#32, fun _ => 0#32⟩

/-- `GetConfig`: the reply, which reads the global bitmap of the moment. -/
def getConfig (t : Task) (cfg : GblConfig) : String × BitVec 64 × TaskBitmap :=
  (cfg.compilerPath, cfg.threshold, t.globalBitmap)

/-- One iteration of the loop of `UpdateProcBitmap`. -/
def updateKind (oldMap newMap : TaskBitmap)
    (acc : TaskBitmap × (TaskKind → BitVec 32)) (k : TaskKind) :
    TaskBitmap × (TaskKind → BitVec 32) :=
  let r := updateGlobalBitmap acc.1 (acc.2 k) k oldMap newMap
  (r.1, Function.update acc.2 k r.2)

/-- `UpdateProcBitmap` on the entry of `name`, which `operator[]` creates with value
0 when it is missing. -/
def updateProcBitmap (t : Task) (name : String) (newMap : TaskBitmap) : Task :=
  let oldMap := (t.procBitmap.lookup name).getD 0#32
  let r := TaskKind.all.foldl (updateKind oldMap newMap) (t.globalBitmap, t.countOfEachTaskKind)
  { procBitmap := t.procBitmap.insert name newMap
    globalBitmap := r.1
    countOfEachTaskKind := r.2 }

/-- `SetHighPrioTaskBitmap`: the new state and the reply. -/
def setHighPrioTaskBitmap (t : Task) (sender : String) (bitmap : TaskBitmap) : Task × Bool :=
  if bitmap &&& ~~~validMask ≠ 0#32 then (t, false)
  else (t.updateProcBitmap sender bitmap, true)

/-- `NameOwnerChangeWatcher`: a name without a new owner was released. -/
def nameOwnerChangeWatcher (t : Task) (name _oldOwner newOwner : String) : Task :=
  if newOwner = "" then
    match t.procBitmap.lookup name with
    | some _ =>
      let t' := t.updateProcBitmap name 0#32
      { t' with procBitmap := t'.procBitmap.erase name }
    | none => t
  else t

/-- What one message does to the state. -/
def handle (t : Task) : DaemonMsg → Task
  | .setHighPrioTaskBitmap sender bitmap => (t.setHighPrioTaskBitmap sender bitmap).1
  | .nameOwnerChanged name oldOwner newOwner => t.nameOwnerChangeWatcher name oldOwner newOwner

/-- The state after a sequence of messages. -/
def run (ms : List DaemonMsg) : Task := ms.foldl handle init

@[simp] theorem run_nil : run [] = init := rfl

theorem run_concat (ms : List DaemonMsg) (m : DaemonMsg) :
    run (ms ++ [m]) = (run ms).handle m := by
  unfold run
  rw [List.foldl_append]
  rfl

/-! ## What the loop over the kinds computes -/

/-- After the loop over `ks`, the counter of every kind of `ks` was updated once and
every other counter is as before. -/
theorem foldl_updateKind_count (oldMap newMap : TaskBitmap) (ks : List TaskKind)
    (hnd : ks.Nodup) (acc : TaskBitmap × (TaskKind → BitVec 32)) (k : TaskKind) :
    (ks.foldl (updateKind oldMap newMap) acc).2 k =
      if k ∈ ks then
        acc.2 k - (if oldMap.getLsbD k.val then 1#32 else 0#32) +
          (if newMap.getLsbD k.val then 1#32 else 0#32)
      else acc.2 k := by
  induction ks generalizing acc with
  | nil => simp
  | cons k' ks ih =>
    obtain ⟨hk', hnd⟩ := List.nodup_cons.mp hnd
    rw [List.foldl_cons, ih hnd]
    by_cases hk : k = k'
    · subst hk
      simp [hk', updateKind, updateGlobalBitmap_count]
    · simp [hk, updateKind]

/-- After the loop, the bit of every kind of `ks` says whether its new counter is
not 0; every other bit is as before. -/
theorem foldl_updateKind_bit (oldMap newMap : TaskBitmap) (ks : List TaskKind)
    (hnd : ks.Nodup) (acc : TaskBitmap × (TaskKind → BitVec 32)) (k : TaskKind) :
    (ks.foldl (updateKind oldMap newMap) acc).1.getLsbD k.val =
      if k ∈ ks then decide ((ks.foldl (updateKind oldMap newMap) acc).2 k ≠ 0#32)
      else acc.1.getLsbD k.val := by
  induction ks generalizing acc with
  | nil => simp
  | cons k' ks ih =>
    obtain ⟨hk', hnd'⟩ := List.nodup_cons.mp hnd
    rw [List.foldl_cons, ih hnd']
    by_cases hk : k = k'
    · subst hk
      have hcount := foldl_updateKind_count oldMap newMap ks hnd'
        (updateKind oldMap newMap acc k) k
      rw [if_neg hk'] at hcount
      rw [if_neg hk', if_pos (List.mem_cons_self ..), hcount]
      simp [updateKind, getLsbD_updateGlobalBitmap]
    · have hbit : (updateKind oldMap newMap acc k').1.getLsbD k.val = acc.1.getLsbD k.val := by
        simp [updateKind, getLsbD_updateGlobalBitmap, hk]
      rw [hbit]
      simp [hk]

theorem foldl_updateKind_valid (oldMap newMap : TaskBitmap) (ks : List TaskKind)
    (acc : TaskBitmap × (TaskKind → BitVec 32)) (h : ValidBitmap acc.1) :
    ValidBitmap (ks.foldl (updateKind oldMap newMap) acc).1 := by
  induction ks generalizing acc with
  | nil => exact h
  | cons k ks ih => exact ih _ (h.updateGlobalBitmap _ _ _ _)

section UpdateProcBitmap
variable (t : Task) (name : String) (newMap : TaskBitmap)

@[simp] theorem updateProcBitmap_procBitmap :
    (t.updateProcBitmap name newMap).procBitmap = t.procBitmap.insert name newMap := rfl

theorem updateProcBitmap_count (k : TaskKind) :
    (t.updateProcBitmap name newMap).countOfEachTaskKind k =
      t.countOfEachTaskKind k -
          (if ((t.procBitmap.lookup name).getD 0#32).getLsbD k.val then 1#32 else 0#32) +
        (if newMap.getLsbD k.val then 1#32 else 0#32) := by
  simp only [updateProcBitmap]
  rw [foldl_updateKind_count _ _ _ TaskKind.all_nodup, if_pos k.mem_all]

theorem updateProcBitmap_bit (k : TaskKind) :
    (t.updateProcBitmap name newMap).globalBitmap.getLsbD k.val =
      decide ((t.updateProcBitmap name newMap).countOfEachTaskKind k ≠ 0#32) := by
  have h := foldl_updateKind_bit ((t.procBitmap.lookup name).getD 0#32) newMap TaskKind.all
    TaskKind.all_nodup (t.globalBitmap, t.countOfEachTaskKind) k
  rw [if_pos k.mem_all] at h
  exact h

theorem updateProcBitmap_valid (h : ValidBitmap t.globalBitmap) :
    ValidBitmap (t.updateProcBitmap name newMap).globalBitmap :=
  foldl_updateKind_valid _ _ _ _ h

end UpdateProcBitmap

theorem setHighPrioTaskBitmap_valid (t : Task) (sender : String) {bitmap : TaskBitmap}
    (h : ValidBitmap bitmap) :
    t.setHighPrioTaskBitmap sender bitmap = (t.updateProcBitmap sender bitmap, true) :=
  if_neg (not_not.mpr h)

/-- A request with a bit outside the mask is answered false and changes nothing. -/
theorem setHighPrioTaskBitmap_invalid (t : Task) (sender : String) {bitmap : TaskBitmap}
    (h : ¬ ValidBitmap bitmap) : t.setHighPrioTaskBitmap sender bitmap = (t, false) :=
  if_pos h

/-! ## The invariant -/

/-- The number of processes whose stored bitmap has bit `k`. -/
def entriesWithBit (t : Task) (k : TaskKind) : Nat :=
  Table.countWhere (fun b : TaskBitmap => b.getLsbD k.val) t.procBitmap

/-- The three views agree. -/
structure Inv (t : Task) : Prop where
  /-- A counter is the number of entries with its bit. -/
  count : ∀ k, (t.countOfEachTaskKind k).toNat = t.entriesWithBit k
  /-- No stored bitmap has a bit outside the mask. -/
  stored : ∀ name b, t.procBitmap.lookup name = some b → ValidBitmap b
  /-- A bit of the global bitmap says that its counter is not 0. -/
  bit : ∀ k, t.globalBitmap.getLsbD k.val = decide (t.countOfEachTaskKind k ≠ 0#32)
  /-- The global bitmap has no bit outside the mask. -/
  valid : ValidBitmap t.globalBitmap

theorem inv_init : init.Inv where
  count _ := rfl
  stored := by
    intro name b h
    rw [init, AList.lookup_empty] at h
    cases h
  bit _ := by simp [init]
  valid := ValidBitmap.zero

variable {t : Task}

/-- A counter that includes a process with the bit set is not 0, so its decrement
does not wrap. -/
theorem Inv.bit_le_count (h : t.Inv) (name : String) (k : TaskKind) :
    (if ((t.procBitmap.lookup name).getD 0#32).getLsbD k.val then 1 else 0) ≤
      (t.countOfEachTaskKind k).toNat := by
  rw [h.count]
  cases hl : t.procBitmap.lookup name with
  | none => simp
  | some b =>
    have hsum := Table.countWhere_of_lookup (fun b : TaskBitmap => b.getLsbD k.val) hl
    unfold entriesWithBit
    rw [hsum, Option.getD_some]
    exact Nat.le_add_left _ _

/-- A 32-bit counter that takes out one summand it contains and adds another is exact
as long as the result fits. -/
theorem count_update_toNat {c : BitVec 32} {o n : Bool} {m : Nat}
    (hle : (if o then 1 else 0) ≤ c.toNat)
    (hm : m + (if o then 1 else 0) = c.toNat + (if n then 1 else 0)) (hlt : m < 2 ^ 32) :
    (c - (if o then 1#32 else 0#32) + (if n then 1#32 else 0#32)).toNat = m := by
  cases o <;> cases n <;> simp only [Bool.false_eq_true, if_true, if_false] at hle hm ⊢ <;>
    bv_omega

/-- 32-bit counters are exact: taking out the old summand and adding the new one
gives the number of entries after the insertion. -/
theorem Inv.updateProcBitmap_count_toNat (h : t.Inv) (name : String) (newMap : TaskBitmap)
    (hfew : (t.procBitmap.insert name newMap).entries.length < 2 ^ 32) (k : TaskKind) :
    ((t.updateProcBitmap name newMap).countOfEachTaskKind k).toNat =
      (t.updateProcBitmap name newMap).entriesWithBit k := by
  have hle := h.bit_le_count name k
  have hnum : (t.updateProcBitmap name newMap).entriesWithBit k +
      (if ((t.procBitmap.lookup name).getD 0#32).getLsbD k.val then 1 else 0) =
        (t.countOfEachTaskKind k).toNat + (if newMap.getLsbD k.val then 1 else 0) := by
    rw [h.count]
    unfold entriesWithBit
    rw [updateProcBitmap_procBitmap]
    cases hl : t.procBitmap.lookup name with
    | none =>
      rw [Table.countWhere_insert_of_lookup_none _ hl]
      simp
    | some b =>
      rw [Option.getD_some]
      exact Table.countWhere_insert_of_lookup (fun b : TaskBitmap => b.getLsbD k.val) hl
  have hbound : (t.updateProcBitmap name newMap).entriesWithBit k < 2 ^ 32 :=
    Nat.lt_of_le_of_lt (Table.countWhere_le_length _ _) hfew
  rw [updateProcBitmap_count]
  exact count_update_toNat hle hnum hbound

/-- `UpdateProcBitmap` keeps the invariant when the bitmap is valid. -/
theorem Inv.updateProcBitmap (h : t.Inv) (name : String) {newMap : TaskBitmap}
    (hnew : ValidBitmap newMap)
    (hfew : (t.procBitmap.insert name newMap).entries.length < 2 ^ 32) :
    (t.updateProcBitmap name newMap).Inv where
  count k := h.updateProcBitmap_count_toNat name newMap hfew k
  stored := by
    intro name' b hl
    rw [updateProcBitmap_procBitmap] at hl
    by_cases hn : name' = name
    · subst hn
      rw [AList.lookup_insert] at hl
      exact Option.some.inj hl ▸ hnew
    · rw [AList.lookup_insert_ne hn] at hl
      exact h.stored name' b hl
  bit k := updateProcBitmap_bit t name newMap k
  valid := updateProcBitmap_valid t name newMap h.valid

/-- An entry of value 0 counts for nothing, so erasing it keeps the invariant. -/
theorem Inv.erase_zero (h : t.Inv) {name : String}
    (hl : t.procBitmap.lookup name = some 0#32) :
    ({ t with procBitmap := t.procBitmap.erase name } : Task).Inv where
  count k := by
    show (t.countOfEachTaskKind k).toNat = _
    rw [h.count]
    unfold entriesWithBit
    rw [Table.countWhere_of_lookup _ hl]
    simp
  stored := by
    intro name' b hl'
    by_cases hn : name' = name
    · subst hn
      rw [AList.lookup_erase] at hl'
      cases hl'
    · rw [AList.lookup_erase_ne hn] at hl'
      exact h.stored name' b hl'
  bit := h.bit
  valid := h.valid

/-- Overwriting an entry does not lengthen the table. -/
theorem length_insert_of_lookup {s : AList (fun _ : String => TaskBitmap)} {name : String}
    {b : TaskBitmap} (hl : s.lookup name = some b) (b' : TaskBitmap) :
    (s.insert name b').entries.length = s.entries.length := by
  have hmem : name ∈ s.entries.keys :=
    AList.mem_keys.mp (AList.lookup_isSome.mp (by rw [hl]; rfl))
  obtain ⟨c, l₁, l₂, _, hs, he⟩ := List.exists_of_kerase hmem
  rw [AList.entries_insert, he, hs]
  simp only [List.length_cons, List.length_append]
  omega

/-- **Step.**  Every message keeps the invariant while fewer than `2^32` senders are
recorded. -/
theorem Inv.handle (h : t.Inv) (m : DaemonMsg) (hpre : t.procBitmap.entries.length < 2 ^ 32)
    (hfew : (t.handle m).procBitmap.entries.length < 2 ^ 32) : (t.handle m).Inv := by
  cases m with
  | setHighPrioTaskBitmap sender bitmap =>
    show (t.setHighPrioTaskBitmap sender bitmap).1.Inv
    have hfew' : (t.setHighPrioTaskBitmap sender bitmap).1.procBitmap.entries.length < 2 ^ 32 :=
      hfew
    by_cases hvalid : ValidBitmap bitmap
    · rw [setHighPrioTaskBitmap_valid t sender hvalid] at hfew' ⊢
      exact h.updateProcBitmap sender hvalid hfew'
    · rw [setHighPrioTaskBitmap_invalid t sender hvalid]
      exact h
  | nameOwnerChanged name oldOwner newOwner =>
    show (t.nameOwnerChangeWatcher name oldOwner newOwner).Inv
    unfold nameOwnerChangeWatcher
    split
    · cases hl : t.procBitmap.lookup name with
      | none => exact h
      | some b =>
        have hlen := length_insert_of_lookup hl 0#32
        have hup := h.updateProcBitmap name ValidBitmap.zero (by rw [hlen]; exact hpre)
        exact hup.erase_zero (by rw [updateProcBitmap_procBitmap, AList.lookup_insert])
    · exact h

/-! ## The purpose of the account -/

/-- The last accepted bitmap of a sender since its name was last released, 0 if there
is none: a function of the messages only. -/
def lastReported (name : String) (ms : List DaemonMsg) : TaskBitmap :=
  ms.foldl (fun b m =>
    match m with
    | .setHighPrioTaskBitmap sender bitmap =>
      if sender = name ∧ ValidBitmap bitmap then bitmap else b
    | .nameOwnerChanged n _ newOwner => if n = name ∧ newOwner = "" then 0#32 else b) 0#32

theorem lastReported_concat (name : String) (ms : List DaemonMsg) (m : DaemonMsg) :
    lastReported name (ms ++ [m]) =
      match m with
      | .setHighPrioTaskBitmap sender bitmap =>
        if sender = name ∧ ValidBitmap bitmap then bitmap else lastReported name ms
      | .nameOwnerChanged n _ newOwner =>
        if n = name ∧ newOwner = "" then 0#32 else lastReported name ms := by
  unfold lastReported
  rw [List.foldl_append]
  rfl

/-- `ProcBitmap` stores the last reported bitmap of every name. -/
theorem lookup_run (ms : List DaemonMsg) (name : String) :
    ((run ms).procBitmap.lookup name).getD 0#32 = lastReported name ms := by
  induction ms using List.reverseRecOn with
  | nil => rfl
  | append_singleton ms m ih =>
    rw [run_concat, lastReported_concat]
    cases m with
    | setHighPrioTaskBitmap sender bitmap =>
      show ((((run ms).setHighPrioTaskBitmap sender bitmap).1).procBitmap.lookup name).getD _ = _
      by_cases hv : ValidBitmap bitmap
      · rw [setHighPrioTaskBitmap_valid _ _ hv]
        simp only [updateProcBitmap_procBitmap]
        by_cases hn : sender = name
        · subst hn
          simp [hv]
        · rw [AList.lookup_insert_ne (Ne.symm hn)]
          simp [hn, ih]
      · rw [setHighPrioTaskBitmap_invalid _ _ hv]
        simp [hv, ih]
    | nameOwnerChanged n oldOwner newOwner =>
      show (((run ms).nameOwnerChangeWatcher n oldOwner newOwner).procBitmap.lookup name).getD _ = _
      unfold nameOwnerChangeWatcher
      by_cases ho : newOwner = ""
      · rw [if_pos ho]
        by_cases hn : n = name
        · subst hn
          simp only [ho, and_self, if_true]
          cases hl : (run ms).procBitmap.lookup n with
          | none => simp [hl]
          | some b => simp
        · simp only [hn, ho, false_and, if_false]
          cases hl : (run ms).procBitmap.lookup n with
          | none => exact ih
          | some b =>
            simp only [updateProcBitmap_procBitmap]
            rw [AList.lookup_erase_ne (Ne.symm hn), AList.lookup_insert_ne (Ne.symm hn)]
            exact ih
      · simp [ho, ih]

/-- The invariant holds after any messages that keep the table below `2^32`
entries. -/
theorem inv_run (ms : List DaemonMsg)
    (hfew : ∀ pre, pre <+: ms → (run pre).procBitmap.entries.length < 2 ^ 32) :
    (run ms).Inv := by
  induction ms using List.reverseRecOn with
  | nil => exact inv_init
  | append_singleton ms m ih =>
    have hpre : ms <+: ms ++ [m] := List.prefix_append ms [m]
    have hstep := hfew (ms ++ [m]) (List.prefix_refl _)
    rw [run_concat] at hstep ⊢
    exact (ih fun p hp => hfew p (hp.trans hpre)).handle m (hfew ms hpre) hstep

/-- A bit of the global bitmap is set exactly when some name last reported it. -/
theorem Inv.bit_iff_lastReported {ms : List DaemonMsg} (h : (run ms).Inv) (k : TaskKind) :
    (run ms).globalBitmap.getLsbD k.val = true ↔
      ∃ name, (lastReported name ms).getLsbD k.val = true := by
  have hpos : (run ms).globalBitmap.getLsbD k.val = true ↔ 0 < (run ms).entriesWithBit k := by
    rw [h.bit, ← h.count, decide_eq_true_eq, Nat.pos_iff_ne_zero, ne_eq, ne_eq,
      ← BitVec.toNat_inj]
    rfl
  rw [hpos, entriesWithBit, Table.countWhere_pos_iff]
  constructor
  · rintro ⟨name, b, hl, hb⟩
    refine ⟨name, ?_⟩
    rw [← lookup_run, hl]
    exact hb
  · rintro ⟨name, hb⟩
    rw [← lookup_run] at hb
    cases hl : (run ms).procBitmap.lookup name with
    | none => rw [hl] at hb; simp at hb
    | some b => rw [hl] at hb; exact ⟨name, b, hl, hb⟩

theorem Inv.lastReported_valid {ms : List DaemonMsg} (h : (run ms).Inv) (name : String) :
    ValidBitmap (lastReported name ms) := by
  rw [← lookup_run]
  cases hl : (run ms).procBitmap.lookup name with
  | none => exact ValidBitmap.zero
  | some b => exact h.stored name b hl

/-- **The global bitmap is the union of what the live processes last reported.**
After any messages, at any time with fewer than `2^32` recorded senders: a bit of
`GlobalBitmap` is set exactly when it is set in the last accepted bitmap of some
name; every counter is the number of entries with its bit and includes the entry any
next message replaces, so no decrement wraps; no stored bitmap leaves the mask; and a
request that does is refused without effect. -/
theorem globalBitmap_is_union (ms : List DaemonMsg)
    (hfew : ∀ pre, pre <+: ms → (run pre).procBitmap.entries.length < 2 ^ 32) :
    (∀ i, (run ms).globalBitmap.getLsbD i = true ↔
      ∃ name, (lastReported name ms).getLsbD i = true) ∧
    (∀ k, ((run ms).countOfEachTaskKind k).toNat = (run ms).entriesWithBit k) ∧
    (∀ name k, (if (((run ms).procBitmap.lookup name).getD 0#32).getLsbD k.val then 1 else 0) ≤
      ((run ms).countOfEachTaskKind k).toNat) ∧
    (∀ name b, (run ms).procBitmap.lookup name = some b → ValidBitmap b) ∧
    (∀ sender bitmap, ¬ ValidBitmap bitmap →
      (run ms).setHighPrioTaskBitmap sender bitmap = (run ms, false)) := by
  have h := inv_run ms hfew
  refine ⟨fun i => ?_, h.count, h.bit_le_count, h.stored,
    fun sender _ hv => setHighPrioTaskBitmap_invalid (run ms) sender hv⟩
  by_cases hi : i < numOfTaskKind
  · obtain ⟨k, rfl⟩ := TaskKind.exists_val_eq hi
    exact h.bit_iff_lastReported k
  · have hout : ∀ {b : TaskBitmap}, ValidBitmap b → b.getLsbD i = false :=
      fun hb => (validBitmap_iff _).mp hb i (Nat.not_lt.mp hi)
    rw [hout h.valid]
    constructor
    · intro hf; cases hf
    · rintro ⟨name, hb⟩
      rw [hout (h.lastReported_valid name)] at hb
      cases hb

/-- Two senders, one of them refused once and then gone: what is left is the union of
the other's last report. -/
theorem globalBitmap_is_union_two_senders :
    (run [.setHighPrioTaskBitmap ":1.4" 1#32, .setHighPrioTaskBitmap ":1.7" 3#32,
      .setHighPrioTaskBitmap ":1.4" 4#32, .nameOwnerChanged ":1.7" ":1.7" ""]).globalBitmap = 1#32 ∧
    ∃ name, (lastReported name [.setHighPrioTaskBitmap ":1.4" 1#32,
      .setHighPrioTaskBitmap ":1.7" 3#32, .setHighPrioTaskBitmap ":1.4" 4#32,
      .nameOwnerChanged ":1.7" ":1.7" ""]).getLsbD 0 = true := by
  refine ⟨by decide, ((globalBitmap_is_union _ ?_).1 0).mp (by decide)⟩
  intro pre hpre
  have hin := (List.mem_inits _ _).mpr hpre
  clear hpre
  revert pre
  decide

end Task
end Clpkm
