import Clpkm.MixedRadix
import Clpkm.PrivateCopy
import Clpkm.Runtime.KernelArgs
import Clpkm.Slots

/-!
# The layout of the checkpoint buffers

A launch has three buffers: the metadata (the sizes of the dynamically sized local
buffers, then one header for each work-item), the private and the local live value
buffer.  The runtime computes how many bytes they take, from the profile of the kernel
and the recorded arguments; the compiler computes where the kernel accesses them, and
the two only share the profile.

Here both are written down, and `layout_agrees` says that they fit: accesses stay inside
of the buffers, parties do not touch each other's slots, and what is accessed through a
pointer to a word is aligned.  Products do not overflow, so sizes are natural numbers.
-/

namespace Clpkm
namespace Layout
open Instrumentor KernelArgs Locfefe

/-! ## NDRanges -/

/-- A dimension: the number of work-items, and how many of them are in a group. -/
structure Dim where
  gws : Nat
  lws : Nat
  deriving DecidableEq, Repr

/-- `get_num_groups` -/
def Dim.numGroups (d : Dim) : Nat := d.gws / d.lws

/-- What `clEnqueueNDRangeKernel` accepts. -/
structure NDRange where
  dims : List Dim
  valid : ∀ d ∈ dims, d.gws ≠ 0 ∧ d.gws % d.lws = 0

/-- What a work-item gets from `get_group_id` and `get_local_id` in a dimension. -/
structure Pos where
  groupId : Nat
  localId : Nat
  deriving DecidableEq, Repr

def Dim.Contains (d : Dim) (p : Pos) : Prop := p.groupId < d.numGroups ∧ p.localId < d.lws

structure WorkItem (nd : NDRange) where
  pos : List Pos
  inRange : List.Forall₂ Dim.Contains nd.dims pos

/-- The group of a work-item. -/
def WorkItem.group {nd : NDRange} (wi : WorkItem nd) : List Nat := wi.pos.map Pos.groupId

/-! ## What the runtime computes -/

def numOfThread (nd : NDRange) : Nat := (nd.dims.map Dim.gws).prod

def numOfWorkGrp (nd : NDRange) : Nat := (nd.dims.map Dim.numGroups).prod

/-- `Args[Idx].first` -/
def argSize (ki : KernelInfo) (idx : Nat) : Nat := (ki.args[idx]?.map KArg.size).getD 0

/-- The recorded sizes of the dynamically sized local buffers. -/
def dynLocSizes (ki : KernelInfo) : List Nat := ki.profile.locPtrParamIdx.map (argSize ki)

def totalReqLocSize (ki : KernelInfo) : Nat := ki.profile.reqLocSize + (dynLocSizes ki).sum

def metadataSize (ki : KernelInfo) (nd : NDRange) : Nat :=
  (ki.profile.locPtrParamIdx.length + numOfThread nd) * 4

def privateBufferSize (ki : KernelInfo) (nd : NDRange) : Nat :=
  ki.profile.reqPrvSize * numOfThread nd

def localBufferSize (ki : KernelInfo) (nd : NDRange) : Nat :=
  totalReqLocSize ki * numOfWorkGrp nd

/-- The size table: a `cl_int` made of the first bytes of a size, on a little-endian host
the low half of it. -/
def hostMetadata (ki : KernelInfo) : List Nat := (dynLocSizes ki).map (· % 2 ^ 32)

/-! ## What the generated code accesses -/

structure LinearId where
  grpId : Nat
  locId : Nat
  grpSz : Nat
  deriving DecidableEq, Repr

/-- `__get_linear_id`; the loop begins with the last dimension. -/
def getLinearId : List Dim → List Pos → LinearId
  | d :: ds, p :: ps =>
    let r := getLinearId ds ps
    ⟨r.grpId * d.numGroups + p.groupId, r.locId * d.lws + p.localId, r.grpSz * d.lws⟩
  | _, _ => ⟨0, 0, 1⟩

variable {nd : NDRange}

/-- `__clpkm_grp_id` -/
def WorkItem.grpId (wi : WorkItem nd) : Nat := (getLinearId nd.dims wi.pos).grpId

/-- `__clpkm_id` -/
def WorkItem.id (wi : WorkItem nd) : Nat :=
  let r := getLinearId nd.dims wi.pos
  r.grpId * r.grpSz + r.locId

/-- `__clpkm_dloc_sz_tbl[idx]` -/
def dlocSzTbl (idx : Nat) : Region := Region.shift (idx * 4) ⟨0, 4⟩

/-- `__clpkm_hdr[__clpkm_id]` -/
def hdr (k : KernelSource) (id : Nat) : Region :=
  Region.shift ((profile k).locPtrParamIdx.length * 4) (Region.shift (id * 4) ⟨0, 4⟩)

/-- The place of a variable in the slot of a work-item. -/
def varRegion (p : PrivateCopy) : Region := ⟨p.offset, p.size⟩

/-- The units of a variable that are copied. -/
def unitRegions (p : PrivateCopy) : List Region :=
  (units p.memcpy.unit p.size).map fun x => ⟨p.offset + x, p.memcpy.unit⟩

/-- What a work-item accesses at a checkpoint with these live variables. -/
def prvAccesses (k : KernelSource) (l : List VarDecl) (id : Nat) : List Region :=
  let c := generateCovfefe l
  ((c.store ++ c.load).flatMap unitRegions).map (Region.shift (id * (profile k).reqPrvSize))

/-- What the loop of `__clpkm_store_local` and what follows it access, from word `k` on. -/
def storeRegionsFrom (size batch : Nat) : Nat → Nat → List Region
  | 0, _ => []
  | fuel + 1, k =>
    if 4 * k + 4 ≤ size then ⟨4 * k, 4⟩ :: storeRegionsFrom size batch fuel (k + batch)
    else (List.range (size - 4 * k)).map fun i => ⟨4 * k + i, 1⟩

/-- `__clpkm_store_local` -/
def storeRegions (size id batch : Nat) : List Region := storeRegionsFrom size batch (size + 1) id

/-- `async_work_group_copy` of characters -/
def loadRegions (size : Nat) : List Region := (List.range size).map fun i => ⟨i, 1⟩

/-- The buffers in the slot of a group, given the size table. -/
def locBuffers (k : KernelSource) (tbl : List Nat) : List Buffer :=
  buffers (k.locDecl.map VarDecl.size) tbl

def bufferRegion (b : Buffer) : Region := ⟨b.offset, b.size⟩

/-- What `__clpkm_local` is advanced by for each group. -/
def locStride (k : KernelSource) (tbl : List Nat) : Nat := (profile k).reqLocSize + tbl.sum

/-- What a work-item accesses when local memory is saved and reloaded. -/
def locAccesses (k : KernelSource) (tbl : List Nat) (grpId exitId batch : Nat) : List Region :=
  ((locBuffers k tbl).flatMap fun b =>
    (storeRegions b.size exitId batch ++ loadRegions b.size).map (Region.shift b.offset)).map
      (Region.shift (grpId * locStride k tbl))

/-! ## The copies and the regions -/

/-- Copying single bytes one after the other copies all of them. -/
theorem foldl_copyByte (off : Nat) (src : Bytes) (start n : Nat) (dst : Bytes) :
    ((List.range n).map fun i => (⟨start + i, 1⟩ : Region)).foldl
        (fun dst r => copyBytes dst off src r.offset r.size) dst =
      copyBytes dst off src start n := by
  induction n with
  | zero =>
    funext y
    rw [copyBytes_apply, if_neg (by omega)]
    rfl
  | succ n ih =>
    funext y
    rw [List.range_succ, List.map_append, List.foldl_append, ih]
    change copyBytes (copyBytes dst off src start n) off src (start + n) 1 y = _
    simp only [copyBytes_apply]
    by_cases hlast : off + (start + n) ≤ y ∧ y < off + (start + n) + 1
    · rw [if_pos hlast, if_pos (by omega)]
    · rw [if_neg hlast]
      exact if_congr (by omega) rfl rfl

/-- **`__clpkm_store_local` copies the regions that are listed.** -/
theorem storeLocal_eq_foldl (dst : Bytes) (off : Nat) (src : Bytes) (size id batch : Nat) :
    storeLocal dst off src size id batch =
      (storeRegions size id batch).foldl
        (fun dst r => copyBytes dst off src r.offset r.size) dst := by
  have hfrom : ∀ fuel k (dst : Bytes), storeFrom off src size batch fuel k dst =
      (storeRegionsFrom size batch fuel k).foldl
        (fun dst r => copyBytes dst off src r.offset r.size) dst := by
    intro fuel
    induction fuel with
    | zero => exact fun k dst => rfl
    | succ fuel ih =>
      intro k dst
      rw [storeFrom, storeRegionsFrom]
      by_cases hfull : 4 * k + 4 ≤ size
      · rw [if_pos hfull, if_pos hfull, List.foldl_cons, ih]
      · rw [if_neg hfull, if_neg hfull, foldl_copyByte]
        by_cases hlast : 4 * k < size
        · rw [if_pos hlast]
        · rw [if_neg hlast]
          funext y
          rw [copyBytes_apply, if_neg (by omega)]
  exact hfrom (size + 1) id dst

theorem mem_unitsFrom {unit fuel x size y : Nat} (h : y ∈ unitsFrom unit fuel x size) :
    x ≤ y ∧ unit ∣ y - x ∧ y + unit ≤ x + size := by
  induction fuel generalizing x size with
  | zero => cases h
  | succ fuel ih =>
    rw [unitsFrom] at h
    by_cases hle : unit ≤ size
    · rw [if_pos hle] at h
      rcases List.mem_cons.mp h with rfl | h
      · exact ⟨Nat.le_refl y, by rw [Nat.sub_self]; exact Nat.dvd_zero unit, by omega⟩
      · obtain ⟨hxy, hdvd, hend⟩ := ih h
        refine ⟨by omega, ?_, by omega⟩
        have hsub : y - x = (y - (x + unit)) + unit := by omega
        rw [hsub]
        exact Nat.dvd_add hdvd (Nat.dvd_refl unit)
    · rw [if_neg hle] at h
      cases h

theorem mem_storeRegionsFrom {size batch fuel k : Nat} {r : Region}
    (h : r ∈ storeRegionsFrom size batch fuel k) :
    r.Inside size ∧ r.Aligned ∧ r.size ∣ 4 := by
  induction fuel generalizing k with
  | zero => cases h
  | succ fuel ih =>
    rw [storeRegionsFrom] at h
    by_cases hfull : 4 * k + 4 ≤ size
    · rw [if_pos hfull] at h
      rcases List.mem_cons.mp h with rfl | h
      · exact ⟨hfull, Nat.dvd_mul_right 4 k, Nat.dvd_refl 4⟩
      · exact ih h
    · rw [if_neg hfull] at h
      obtain ⟨i, hi, rfl⟩ := List.mem_map.mp h
      have hlt := List.mem_range.mp hi
      refine ⟨?_, Nat.one_dvd _, Nat.one_dvd 4⟩
      change 4 * k + i + 1 ≤ size
      omega

theorem mem_loadRegions {size : Nat} {r : Region} (h : r ∈ loadRegions size) :
    r.Inside size ∧ r.Aligned ∧ r.size ∣ 4 := by
  obtain ⟨i, hi, rfl⟩ := List.mem_map.mp h
  exact ⟨List.mem_range.mp hi, Nat.one_dvd _, Nat.one_dvd 4⟩

/-! ## Numbers of work-items and groups -/

/-- Group and local ids are numbers in the radices of the dimensions. -/
theorem getLinearId_eq {ds : List Dim} {ps : List Pos} (h : List.Forall₂ Dim.Contains ds ps) :
    getLinearId ds ps = ⟨MixedRadix.value (ds.map Dim.numGroups) (ps.map Pos.groupId),
      MixedRadix.value (ds.map Dim.lws) (ps.map Pos.localId), (ds.map Dim.lws).prod⟩ := by
  induction h with
  | nil => rfl
  | @cons d p ds ps _ _ ih =>
    have hprod : ((d :: ds).map Dim.lws).prod = (ds.map Dim.lws).prod * d.lws := by
      rw [List.map_cons, List.prod_cons, Nat.mul_comm]
    rw [getLinearId, ih, hprod]
    rfl

theorem digits_groupId {ds : List Dim} {ps : List Pos} (h : List.Forall₂ Dim.Contains ds ps) :
    MixedRadix.Digits (ds.map Dim.numGroups) (ps.map Pos.groupId) := by
  apply List.forall₂_map_left_iff.mpr
  apply List.forall₂_map_right_iff.mpr
  exact h.imp fun _ _ hp => hp.1

theorem digits_localId {ds : List Dim} {ps : List Pos} (h : List.Forall₂ Dim.Contains ds ps) :
    MixedRadix.Digits (ds.map Dim.lws) (ps.map Pos.localId) := by
  apply List.forall₂_map_left_iff.mpr
  apply List.forall₂_map_right_iff.mpr
  exact h.imp fun _ _ hp => hp.2

theorem getLinearId_lt {ds : List Dim} {ps : List Pos} (h : List.Forall₂ Dim.Contains ds ps) :
    (getLinearId ds ps).grpId < (ds.map Dim.numGroups).prod ∧
      (getLinearId ds ps).locId < (ds.map Dim.lws).prod ∧
      (getLinearId ds ps).grpSz = (ds.map Dim.lws).prod := by
  rw [getLinearId_eq h]
  exact ⟨MixedRadix.value_lt (digits_groupId h), MixedRadix.value_lt (digits_localId h), rfl⟩

/-- A place is given by its group ids and its local ids. -/
theorem pos_ext {ps qs : List Pos} (hgroup : ps.map Pos.groupId = qs.map Pos.groupId)
    (hlocal : ps.map Pos.localId = qs.map Pos.localId) : ps = qs := by
  induction ps generalizing qs with
  | nil => exact (List.map_eq_nil_iff.mp hgroup.symm).symm
  | cons p ps ih =>
    obtain ⟨q, qs, rfl⟩ := List.exists_cons_of_ne_nil (l := qs) (by rintro rfl; cases hgroup)
    obtain ⟨hg, hgroups⟩ := List.cons.inj hgroup
    obtain ⟨hl, hlocals⟩ := List.cons.inj hlocal
    obtain ⟨groupId, localId⟩ := p
    obtain ⟨groupId', localId'⟩ := q
    cases hg
    cases hl
    rw [ih hgroups hlocals]

theorem getLinearId_inj {ds : List Dim} {ps qs : List Pos}
    (hp : List.Forall₂ Dim.Contains ds ps) (hq : List.Forall₂ Dim.Contains ds qs) :
    ((getLinearId ds ps).grpId = (getLinearId ds qs).grpId →
        ps.map Pos.groupId = qs.map Pos.groupId) ∧
      ((getLinearId ds ps).grpId = (getLinearId ds qs).grpId →
        (getLinearId ds ps).locId = (getLinearId ds qs).locId → ps = qs) := by
  rw [getLinearId_eq hp, getLinearId_eq hq]
  have hgroup := MixedRadix.value_inj (digits_groupId hp) (digits_groupId hq)
  have hlocal := MixedRadix.value_inj (digits_localId hp) (digits_localId hq)
  exact ⟨hgroup, fun hg hl => pos_ext (hgroup hg) (hlocal hl)⟩

/-- The work-items are those of all groups. -/
theorem numOfThread_eq (nd : NDRange) :
    numOfThread nd = numOfWorkGrp nd * (nd.dims.map Dim.lws).prod := by
  obtain ⟨dims, hvalid⟩ := nd
  unfold numOfThread numOfWorkGrp
  simp only
  induction dims with
  | nil => rfl
  | cons d ds ih =>
    obtain ⟨_, hmod⟩ := hvalid d List.mem_cons_self
    have hgws : d.gws = d.numGroups * d.lws :=
      (Nat.div_mul_cancel (Nat.dvd_of_mod_eq_zero hmod)).symm
    simp only [List.map_cons, List.prod_cons]
    rw [ih fun d' hd' => hvalid d' (List.mem_cons_of_mem d hd'), hgws]
    exact Nat.mul_mul_mul_comm _ _ _ _

theorem WorkItem.grpId_lt (wi : WorkItem nd) : wi.grpId < numOfWorkGrp nd :=
  (getLinearId_lt wi.inRange).1

theorem WorkItem.id_lt (wi : WorkItem nd) : wi.id < numOfThread nd := by
  obtain ⟨hg, hl, hs⟩ := getLinearId_lt wi.inRange
  rw [numOfThread_eq, WorkItem.id, hs]
  exact linear_lt hg hl

/-- Groups have different numbers. -/
theorem WorkItem.grpId_ne {wi wi' : WorkItem nd} (h : wi.group ≠ wi'.group) :
    wi.grpId ≠ wi'.grpId :=
  fun hid => h ((getLinearId_inj wi.inRange wi'.inRange).1 hid)

/-- Work-items have different numbers. -/
theorem WorkItem.id_ne {wi wi' : WorkItem nd} (h : wi ≠ wi') : wi.id ≠ wi'.id := by
  intro hid
  obtain ⟨_, hl, hs⟩ := getLinearId_lt wi.inRange
  obtain ⟨_, hl', hs'⟩ := getLinearId_lt wi'.inRange
  simp only [WorkItem.id, hs, hs'] at hid
  obtain ⟨hg, hloc⟩ := linear_inj hl hl' hid
  have hpos := (getLinearId_inj wi.inRange wi'.inRange).2 hg hloc
  obtain ⟨pos, hin⟩ := wi
  obtain ⟨pos', hin'⟩ := wi'
  cases hpos
  exact h rfl

/-! ## The private buffer -/

/-- The end of a variable is in the space that the variables of the list take. -/
theorem end_calls_le {off : Nat} {l : List VarDecl} {p : PrivateCopy} (h : p ∈ calls off l) :
    p.offset + p.size ≤
      l.foldl (fun n vd => if vd.addressSpace = .opencl_private then n + vd.size else n) off := by
  have hmono : ∀ (l : List VarDecl) (off : Nat), off ≤
      l.foldl (fun n vd => if vd.addressSpace = .opencl_private then n + vd.size else n) off := by
    intro l
    induction l with
    | nil => exact fun off => Nat.le_refl off
    | cons vd l ih =>
      intro off
      rw [List.foldl_cons]
      by_cases hp : vd.addressSpace = .opencl_private
      · rw [if_pos hp]
        exact (Nat.le_add_right off vd.size).trans (ih _)
      · rw [if_neg hp]
        exact ih off
  induction l generalizing off with
  | nil => cases h
  | cons vd l ih =>
    rw [calls] at h
    rw [List.foldl_cons]
    by_cases hp : vd.addressSpace = .opencl_private
    · rw [if_pos hp] at h ⊢
      rcases List.mem_cons.mp h with rfl | h
      · exact hmono l _
      · exact ih h
    · rw [if_neg hp] at h ⊢
      exact ih h

/-- A variable is inside of the slot of a work-item. -/
theorem varRegion_inside (k : KernelSource) {l : List VarDecl} (hl : l ∈ k.checkpoints)
    {p : PrivateCopy} (h : p ∈ calls 0 l) : (varRegion p).Inside (profile k).reqPrvSize := by
  refine Region.Inside.mono ?_ (reqPrvSize_le k hl)
  have hend := end_calls_le h
  have hreq : (generateCovfefe l).reqPrvSize = (l.foldl (fun n vd =>
      if vd.addressSpace = .opencl_private then n + vd.size else n) 0 + 3) / 4 * 4 := by
    unfold generateCovfefe
    rw [foldl_emitVar_calls]
  rw [hreq]
  change p.offset + p.size ≤ _
  omega

theorem four_dvd_reqPrvSize (k : KernelSource) : 4 ∣ (profile k).reqPrvSize := by
  have hfold : ∀ (ls : List (List VarDecl)) (req : Nat), 4 ∣ req →
      4 ∣ ls.foldl (fun req l => max req (generateCovfefe l).reqPrvSize) req := by
    intro ls
    induction ls with
    | nil => exact fun req h => h
    | cons l ls ih =>
      intro req h
      have hpad : 4 ∣ (generateCovfefe l).reqPrvSize := Nat.dvd_mul_left 4 _
      rw [List.foldl_cons]
      apply ih _
      rcases Nat.le_total req (generateCovfefe l).reqPrvSize with hle | hle
      · rwa [Nat.max_eq_right hle]
      · rwa [Nat.max_eq_left hle]
  exact hfold k.checkpoints 0 (Nat.dvd_zero 4)

theorem unit_dvd_four (m : MemcpyPrivate) : m.unit ∣ 4 := by
  cases m with
  | align_1 | align_2 | align_4 => decide

/-- A variable with a smaller alignment is copied in units that are not larger. -/
theorem unit_dvd_unit {a b : Nat} (h : b ≤ a) : (memcpyOf b).unit ∣ (memcpyOf a).unit := by
  unfold memcpyOf
  by_cases ha : 32 ≤ a
  · rw [if_pos ha]
    exact unit_dvd_four _
  · rw [if_neg ha, if_neg (show ¬32 ≤ b by omega)]
    by_cases hb : 16 ≤ b
    · rw [if_pos hb, if_pos (hb.trans h)]
    · rw [if_neg hb]
      exact Nat.one_dvd _

/-- A variable whose size is a multiple of its alignment consists of whole units. -/
theorem unit_dvd_size {vd : VarDecl} (h : vd.Padded) : (memcpyOf vd.align).unit ∣ vd.size := by
  obtain ⟨e, halign, hdvd⟩ := h
  refine Nat.dvd_trans ?_ hdvd
  unfold memcpyOf
  rw [halign]
  match e with
  | 0 => decide
  | 1 => decide
  | e + 2 =>
    have hpow : 2 ^ (e + 2) = 4 * 2 ^ e := by rw [Nat.pow_add, Nat.mul_comm]
    have hpos : 0 < 2 ^ e := Nat.two_pow_pos e
    rw [if_pos (by omega), hpow]
    exact Nat.dvd_mul_right 4 _

/-- **Every variable is at a multiple of its unit**, since those with larger units come first. -/
theorem unit_dvd_offset {off : Nat} {l : List VarDecl} (hpad : ∀ vd ∈ l, vd.Padded)
    (hsort : l.Pairwise fun a b => b.align ≤ a.align)
    (hoff : ∀ vd ∈ l, (memcpyOf vd.align).unit ∣ off) {p : PrivateCopy} (h : p ∈ calls off l) :
    p.memcpy.unit ∣ p.offset := by
  induction l generalizing off with
  | nil => cases h
  | cons vd l ih =>
    obtain ⟨hhead, htail⟩ := List.pairwise_cons.mp hsort
    have hpad' : ∀ vd ∈ l, vd.Padded := fun a ha => hpad a (List.mem_cons_of_mem vd ha)
    rw [calls] at h
    by_cases hp : vd.addressSpace = .opencl_private
    · rw [if_pos hp] at h
      rcases List.mem_cons.mp h with rfl | h
      · exact hoff vd List.mem_cons_self
      · refine ih hpad' htail (fun a ha => ?_) h
        have hsize := unit_dvd_size (hpad vd List.mem_cons_self)
        exact Nat.dvd_add (hoff a (List.mem_cons_of_mem vd ha))
          ((unit_dvd_unit (hhead a ha)).trans hsize)
    · rw [if_neg hp] at h
      exact ih hpad' htail (fun a ha => hoff a (List.mem_cons_of_mem vd ha)) h

/-- What is accessed at a checkpoint, seen from the slot of the work-item. -/
theorem mem_prvAccesses {k : KernelSource} {l : List VarDecl} (hl : l ∈ k.checkpoints) {id : Nat}
    {r : Region} (h : r ∈ prvAccesses k l id) :
    ∃ q : Region, r = q.shift (id * (profile k).reqPrvSize) ∧ q.Inside (profile k).reqPrvSize ∧
      q.Aligned ∧ q.size ∣ 4 := by
  obtain ⟨q, hq, rfl⟩ := List.mem_map.mp h
  obtain ⟨p, hp, hq⟩ := List.mem_flatMap.mp hq
  obtain ⟨x, hx, rfl⟩ := List.mem_map.mp hq
  rw [store_generateCovfefe, load_generateCovfefe, List.mem_append, or_self] at hp
  obtain ⟨_, hdvd, hend⟩ := mem_unitsFrom hx
  have hvar : p.offset + p.size ≤ (profile k).reqPrvSize := varRegion_inside k hl hp
  have hunit := unit_dvd_offset (k.padded l hl) (k.sorted l hl) (fun _ _ => Nat.dvd_zero _) hp
  refine ⟨_, rfl, ?_, Nat.dvd_add hunit hdvd, unit_dvd_four _⟩
  change p.offset + x + p.memcpy.unit ≤ _
  omega

/-! ## The local buffer and the size table -/

theorem end_buffers_le {vars params : List Nat} {b : Buffer} (h : b ∈ buffers vars params) :
    b.offset + b.size ≤ reqLocSize vars + params.sum := by
  have hpad : ∀ s, s ≤ paddedSize s := fun s => by
    unfold paddedSize
    omega
  rcases List.mem_append.mp h with h | h
  · have hend := end_place_le hpad h
    unfold reqLocSize
    omega
  · have hend : b.offset + b.size ≤ reqLocSize vars + (params.map id).sum :=
      end_place_le (fun s => Nat.le_refl s) h
    rw [List.map_id] at hend
    exact hend

/-- Buffers that are padded to multiples of 4 are at multiples of 4. -/
theorem four_dvd_place {pad : Nat → Nat} {off : Nat} {sizes : List Nat} (hoff : 4 ∣ off)
    (hsizes : ∀ s ∈ sizes, 4 ∣ pad s) {b : Buffer} (h : b ∈ place pad off sizes) :
    4 ∣ b.offset := by
  induction sizes generalizing off with
  | nil => cases h
  | cons s sizes ih =>
    rcases List.mem_cons.mp h with rfl | h
    · exact hoff
    · exact ih (Nat.dvd_add hoff (hsizes s List.mem_cons_self))
        (fun s' hs' => hsizes s' (List.mem_cons_of_mem s hs')) h

theorem four_dvd_sum {sizes : List Nat} (h : ∀ s ∈ sizes, 4 ∣ s) : 4 ∣ sizes.sum := by
  induction sizes with
  | nil => exact Nat.dvd_zero 4
  | cons s sizes ih =>
    rw [List.sum_cons]
    exact Nat.dvd_add (h s List.mem_cons_self)
      (ih fun s' hs' => h s' (List.mem_cons_of_mem s hs'))

theorem four_dvd_reqLocSize (vars : List Nat) : 4 ∣ reqLocSize vars := by
  refine four_dvd_sum fun s hs => ?_
  obtain ⟨v, _, rfl⟩ := List.mem_map.mp hs
  exact Nat.dvd_mul_left 4 _

theorem four_dvd_buffers {vars params : List Nat} (hparams : ∀ s ∈ params, 4 ∣ s) {b : Buffer}
    (h : b ∈ buffers vars params) : 4 ∣ b.offset := by
  rcases List.mem_append.mp h with h | h
  · exact four_dvd_place (Nat.dvd_zero 4) (fun s _ => Nat.dvd_mul_left 4 _) h
  · exact four_dvd_place (four_dvd_reqLocSize vars) hparams h

/-- `std::lower_bound` finds every parameter of the list. -/
theorem isDynLoc_of_mem {k : KernelSource} {idx : Nat}
    (h : idx ∈ (profile k).locPtrParamIdx) : isDynLoc (profile k) idx = true := by
  have hfind : ∀ l : List Nat, l.Pairwise (· < ·) → idx ∈ l →
      l.find? (idx ≤ ·) = some idx := by
    intro l hsort hmem
    induction l with
    | nil => cases hmem
    | cons a l ih =>
      obtain ⟨hhead, htail⟩ := List.pairwise_cons.mp hsort
      rcases List.mem_cons.mp hmem with rfl | hmem
      · exact List.find?_cons_of_pos (by simp)
      · have hlt := hhead idx hmem
        rw [List.find?_cons_of_neg (by simpa using hlt)]
        exact ih htail hmem
  have hidx := hfind (profile k).locPtrParamIdx (sorted_locPtrParamIdx 0 k.params) h
  rw [isDynLoc, hidx]
  exact beq_self_eq_true _

variable {k : KernelSource} {ki : KernelInfo}

/-- A recorded size is a multiple of 4 that fits the size table. -/
theorem mem_dynLocSizes (hwf : ki.WellFormed) (hk : ki.profile = profile k) {s : Nat}
    (h : s ∈ dynLocSizes ki) : 4 ∣ s ∧ s < 2 ^ 32 := by
  obtain ⟨idx, hidx, rfl⟩ := List.mem_map.mp h
  have hdyn : isDynLoc ki.profile idx = true := by
    rw [hk] at hidx ⊢
    exact isDynLoc_of_mem hidx
  unfold argSize
  cases ha : ki.args[idx]? with
  | none => exact ⟨Nat.dvd_zero 4, by decide⟩
  | some a => exact (hwf.dynLoc idx a ha hdyn).2

/-- **The kernel finds the recorded sizes in the size table.** -/
theorem hostMetadata_eq (hwf : ki.WellFormed) (hk : ki.profile = profile k) :
    hostMetadata ki = dynLocSizes ki := by
  refine (List.map_congr_left fun s hs => ?_).trans (List.map_id _)
  exact Nat.mod_eq_of_lt (mem_dynLocSizes hwf hk hs).2

/-- The kernel and the runtime agree on the slot of a group. -/
theorem locStride_eq (hwf : ki.WellFormed) (hk : ki.profile = profile k) :
    locStride k (hostMetadata ki) = totalReqLocSize ki := by
  rw [locStride, totalReqLocSize, hostMetadata_eq hwf hk, hk]

/-- What is accessed in local memory, seen from the slot of the group. -/
theorem mem_locAccesses {tbl : List Nat} (htbl : ∀ s ∈ tbl, 4 ∣ s)
    {grpId exitId batch : Nat} {r : Region} (h : r ∈ locAccesses k tbl grpId exitId batch) :
    ∃ q : Region, r = q.shift (grpId * locStride k tbl) ∧ q.Inside (locStride k tbl) ∧
      q.Aligned ∧ q.size ∣ 4 := by
  obtain ⟨q, hq, rfl⟩ := List.mem_map.mp h
  obtain ⟨b, hb, hq⟩ := List.mem_flatMap.mp hq
  obtain ⟨u, hu, rfl⟩ := List.mem_map.mp hq
  have hend : b.offset + b.size ≤ locStride k tbl := end_buffers_le hb
  obtain ⟨hin, hal, hfour⟩ : u.Inside b.size ∧ u.Aligned ∧ u.size ∣ 4 := by
    rcases List.mem_append.mp hu with hu | hu
    · exact mem_storeRegionsFrom hu
    · exact mem_loadRegions hu
  refine ⟨_, rfl, ?_, hal.shift (hfour.trans (four_dvd_buffers htbl hb)), hfour⟩
  unfold Region.Inside at hin ⊢
  rw [Region.shift_offset, Region.shift_size]
  omega

/-! ## Both sides agree -/

/-- What it means that the accesses of a kernel fit the buffers of a launch. -/
structure Agree (k : KernelSource) (ki : KernelInfo) (nd : NDRange) : Prop where
  hdr_inside : ∀ wi : WorkItem nd, (hdr k wi.id).Inside (metadataSize ki nd)
  dlocSzTbl_inside : ∀ idx, idx < (profile k).locPtrParamIdx.length →
    (dlocSzTbl idx).Inside (metadataSize ki nd)
  prv_inside : ∀ wi : WorkItem nd, ∀ l ∈ k.checkpoints, ∀ r ∈ prvAccesses k l wi.id,
    r.Inside (privateBufferSize ki nd)
  loc_inside : ∀ (wi : WorkItem nd) (exitId batch : Nat),
    ∀ r ∈ locAccesses k (hostMetadata ki) wi.grpId exitId batch, r.Inside (localBufferSize ki nd)
  /-- the kernel reads the sizes that were recorded -/
  sizes : hostMetadata ki = dynLocSizes ki
  hdr_disjoint : ∀ wi wi' : WorkItem nd, wi ≠ wi' → (hdr k wi.id).Disjoint (hdr k wi'.id)
  hdr_disjoint_dlocSzTbl : ∀ wi : WorkItem nd, ∀ idx, idx < (profile k).locPtrParamIdx.length →
    (hdr k wi.id).Disjoint (dlocSzTbl idx)
  prv_disjoint : ∀ wi wi' : WorkItem nd, wi ≠ wi' → ∀ l ∈ k.checkpoints, ∀ l' ∈ k.checkpoints,
    ∀ r ∈ prvAccesses k l wi.id, ∀ r' ∈ prvAccesses k l' wi'.id, r.Disjoint r'
  loc_disjoint : ∀ wi wi' : WorkItem nd, wi.group ≠ wi'.group → ∀ exitId batch exitId' batch',
    ∀ r ∈ locAccesses k (hostMetadata ki) wi.grpId exitId batch,
    ∀ r' ∈ locAccesses k (hostMetadata ki) wi'.grpId exitId' batch', r.Disjoint r'
  /-- the private variables of a checkpoint -/
  var_disjoint : ∀ l ∈ k.checkpoints,
    (generateCovfefe l).store.Pairwise (fun p q => (varRegion p).Disjoint (varRegion q)) ∧
      (generateCovfefe l).load = (generateCovfefe l).store
  /-- the buffers in local memory -/
  buffer_disjoint : (locBuffers k (hostMetadata ki)).Pairwise
    fun a b => (bufferRegion a).Disjoint (bufferRegion b)
  meta_aligned : (∀ wi : WorkItem nd, (hdr k wi.id).Aligned) ∧ ∀ idx, (dlocSzTbl idx).Aligned
  prv_aligned : ∀ wi : WorkItem nd, ∀ l ∈ k.checkpoints, ∀ r ∈ prvAccesses k l wi.id, r.Aligned
  loc_aligned : ∀ (wi : WorkItem nd) (exitId batch : Nat),
    ∀ r ∈ locAccesses k (hostMetadata ki) wi.grpId exitId batch, r.Aligned

/-- The headers are words behind the size table. -/
theorem hdr_eq (k : KernelSource) (id : Nat) :
    hdr k id = Region.shift (((profile k).locPtrParamIdx.length + id) * 4) ⟨0, 4⟩ := by
  unfold hdr Region.shift
  rw [Nat.add_mul, Nat.add_assoc]

theorem word_inside : (⟨0, 4⟩ : Region).Inside 4 := Nat.le_refl 4

theorem four_dvd_hostMetadata (hwf : ki.WellFormed) (hk : ki.profile = profile k) :
    ∀ s ∈ hostMetadata ki, 4 ∣ s := by
  rw [hostMetadata_eq hwf hk]
  exact fun s hs => (mem_dynLocSizes hwf hk hs).1

/-- The slot of a group begins at a multiple of 4. -/
theorem four_dvd_locStride {tbl : List Nat} (htbl : ∀ s ∈ tbl, 4 ∣ s) : 4 ∣ locStride k tbl :=
  Nat.dvd_add (four_dvd_reqLocSize _) (four_dvd_sum htbl)

theorem agree_of_wellFormed (hwf : ki.WellFormed) (hk : ki.profile = profile k) (nd : NDRange) :
    Agree k ki nd where
  hdr_inside wi := by
    rw [hdr_eq, metadataSize, hk]
    exact word_inside.slot (Nat.add_lt_add_left wi.id_lt _)
  dlocSzTbl_inside idx hidx := by
    rw [metadataSize, hk]
    exact word_inside.slot (Nat.lt_add_right _ hidx)
  prv_inside wi l hl r hr := by
    obtain ⟨q, rfl, hin, _⟩ := mem_prvAccesses hl hr
    rw [privateBufferSize, hk, Nat.mul_comm (profile k).reqPrvSize]
    exact hin.slot wi.id_lt
  loc_inside wi exitId batch r hr := by
    obtain ⟨q, rfl, hin, _⟩ := mem_locAccesses (four_dvd_hostMetadata hwf hk) hr
    rw [localBufferSize, ← locStride_eq hwf hk, Nat.mul_comm _ (numOfWorkGrp nd)]
    exact hin.slot wi.grpId_lt
  sizes := hostMetadata_eq hwf hk
  hdr_disjoint wi wi' hne := by
    rw [hdr_eq, hdr_eq]
    exact word_inside.disjoint_slots word_inside fun h => wi.id_ne hne (Nat.add_left_cancel h)
  hdr_disjoint_dlocSzTbl wi idx hidx := by
    rw [hdr_eq]
    exact word_inside.disjoint_slots word_inside (by omega)
  prv_disjoint wi wi' hne l hl l' hl' r hr r' hr' := by
    obtain ⟨q, rfl, hin, _⟩ := mem_prvAccesses hl hr
    obtain ⟨q', rfl, hin', _⟩ := mem_prvAccesses hl' hr'
    exact hin.disjoint_slots hin' (wi.id_ne hne)
  loc_disjoint wi wi' hne e b e' b' r hr r' hr' := by
    obtain ⟨q, rfl, hin, _⟩ := mem_locAccesses (four_dvd_hostMetadata hwf hk) hr
    obtain ⟨q', rfl, hin', _⟩ := mem_locAccesses (four_dvd_hostMetadata hwf hk) hr'
    exact hin.disjoint_slots hin' (wi.grpId_ne hne)
  var_disjoint l _ := by
    rw [store_generateCovfefe, load_generateCovfefe]
    exact ⟨(ordered_calls 0 l).imp fun h => Or.inl h, rfl⟩
  buffer_disjoint := (ordered_buffers _ _).imp fun h => Or.inl h
  meta_aligned := by
    refine ⟨fun wi => ?_, fun idx => ?_⟩
    · rw [hdr_eq]
      exact Region.Aligned.shift (Nat.dvd_zero 4) (Nat.dvd_mul_left 4 _)
    · exact Region.Aligned.shift (Nat.dvd_zero 4) (Nat.dvd_mul_left 4 _)
  prv_aligned wi l hl r hr := by
    obtain ⟨q, rfl, _, hal, hfour⟩ := mem_prvAccesses hl hr
    exact hal.shift (hfour.trans (Nat.dvd_mul_left_of_dvd (four_dvd_reqPrvSize k) _))
  loc_aligned wi exitId batch r hr := by
    obtain ⟨q, rfl, _, hal, hfour⟩ := mem_locAccesses (four_dvd_hostMetadata hwf hk) hr
    have hslot := four_dvd_locStride (k := k) (four_dvd_hostMetadata hwf hk)
    exact hal.shift (hfour.trans (Nat.dvd_mul_left_of_dvd hslot _))

/-- **Device and host agree on the layout of the checkpoint buffers**: for every kernel,
every NDRange, and the arguments that any sequence of calls has recorded. -/
theorem layout_agrees (k : KernelSource) (nd : NDRange) (s : KernelArgs.State)
    (hs : KernelArgs.machine.Reachable s) (hk : s.kernel.profile = profile k) :
    Agree k s.kernel nd :=
  agree_of_wellFormed (wellFormed_of_reachable hs) hk nd

/-- Two variables in local memory, one parameter that points to it, and a checkpoint with an
`int`, a `short` and a `char`. -/
def mixed : KernelSource where
  params := [false, true]
  locDecl := [⟨0, "a", 8, 8, .opencl_local⟩, ⟨1, "b", 48, 16, .opencl_local⟩]
  checkpoints := [[⟨2, "i", 32, 32, .opencl_private⟩, ⟨3, "s", 16, 16, .opencl_private⟩,
    ⟨4, "c", 8, 8, .opencl_private⟩]]
  padded := by
    intro l hl vd hvd
    rw [List.mem_singleton.mp hl] at hvd
    simp only [List.mem_cons, List.not_mem_nil, or_false] at hvd
    rcases hvd with rfl | rfl | rfl
    · exact ⟨2, rfl, by decide⟩
    · exact ⟨1, rfl, by decide⟩
    · exact ⟨0, rfl, by decide⟩
  sorted := by decide

/-- 2 × 2 groups of 2 × 3 work-items -/
def grid : NDRange := ⟨[⟨4, 2⟩, ⟨6, 3⟩], by decide⟩

/-- The application's kernel, before any argument is set. -/
def mixedStart : KernelArgs.State :=
  ⟨fun _ => 0, .init (profile mixed), fun _ => none, fun _ _ => 0, []⟩

/-- The local buffer gets 5 bytes, which are recorded as 8. -/
theorem layout_agrees_mixed :
    ∃ s, KernelArgs.machine.run mixedStart [.setKernelArg 1 5 none .success] = some s ∧
      (metadataSize s.kernel grid, privateBufferSize s.kernel grid, localBufferSize s.kernel grid) =
        (100, 192, 80) ∧
      Agree mixed s.kernel grid := by
  let s := (KernelArgs.machine.run mixedStart [.setKernelArg 1 5 none .success]).get (by decide)
  have hrun : KernelArgs.machine.run mixedStart [.setKernelArg 1 5 none .success] = some s :=
    (Option.some_get _).symm
  have hs : KernelArgs.machine.Reachable s :=
    Machine.reachable_of_run ⟨mixed, rfl, rfl, rfl⟩ hrun
  exact ⟨s, hrun, by decide, layout_agrees mixed grid s hs rfl⟩

end Layout
end Clpkm
