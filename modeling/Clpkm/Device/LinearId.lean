import Clpkm.Device.UpdateHeader
import Clpkm.MixedRadix
import Clpkm.Runtime.LaunchSizes
import Mathlib.Data.Set.Function

/-!
# Linear ids

`__get_linear_id` runs on the device, in 64-bit arithmetic: a loop from the last dimension
to the first that asks the built-in functions where the work-item is.  Its ids are those of
`Layout`, modulo 2^64 (`getLinearId_eq`).

Group and local ids are numbers in several radices, the numbers of groups and the local
sizes, so they number the groups, and the work-items of each group, one after the other
(`exists_workItem`).  If the work-items of the NDRange are less than 2^64, the ids number
what the host takes them to number (`linearIds`): the header entries of a group are the
block that `UpdateHeader` works on when it is given the size of the groups that
`clEnqueueNDRangeKernel` computes.
-/

namespace Clpkm
namespace LinearId
open LaunchSizes Layout

/-- The built-in functions that tell a work-item where it is. -/
structure Builtins where
  getWorkDim : Nat
  getNumGroups : Nat → Word
  getGroupId : Nat → Word
  getLocalSize : Nat → Word
  getLocalId : Nat → Word

/-- `__grp_id`, `__loc_id` and `__grp_sz`. -/
structure Locals where
  grpId : Word
  locId : Word
  grpSz : Word

/-- What `__get_linear_id` stores. -/
structure Ids where
  globalId : Word
  groupId : Word
  localId : Word
  groupSize : Word

/-- The loop, with `dim` dimensions to go. -/
def loop (b : Builtins) : Nat → Locals → Locals
  | 0, s => s
  | dim + 1, s =>
    loop b dim ⟨s.grpId * b.getNumGroups dim + b.getGroupId dim,
      s.locId * b.getLocalSize dim + b.getLocalId dim, s.grpSz * b.getLocalSize dim⟩

/-- `__get_linear_id` -/
def getLinearId (b : Builtins) : Ids :=
  let s := loop b b.getWorkDim ⟨0, 0, 1⟩
  ⟨s.grpId * s.grpSz + s.locId, s.grpId, s.locId, s.grpSz⟩

variable {nd : NDRange}

/-- The built-in functions in a work-item; they answer 1 and 0 where there is no dimension. -/
def builtins (wi : WorkItem nd) : Builtins where
  getWorkDim := nd.dims.length
  getNumGroups dim := BitVec.ofNat 64 ((nd.dims[dim]?.map Dim.numGroups).getD 1)
  getGroupId dim := BitVec.ofNat 64 ((wi.pos[dim]?.map Pos.groupId).getD 0)
  getLocalSize dim := BitVec.ofNat 64 ((nd.dims[dim]?.map Dim.lws).getD 1)
  getLocalId dim := BitVec.ofNat 64 ((wi.pos[dim]?.map Pos.localId).getD 0)

/-- The ids of a work-item. -/
def ids (wi : WorkItem nd) : Ids := getLinearId (builtins wi)

/-! ## The loop -/

/-- The exact ids, modulo 2^64. -/
def localsOf (r : Layout.LinearId) : Locals :=
  ⟨BitVec.ofNat 64 r.grpId, BitVec.ofNat 64 r.locId, BitVec.ofNat 64 r.grpSz⟩

/-- Before the loop comes to a dimension it has the ids of the dimensions above. -/
theorem loop_eq (wi : WorkItem nd) {dim : Nat} (hdim : dim ≤ nd.dims.length) :
    loop (builtins wi) dim (localsOf (Layout.getLinearId (nd.dims.drop dim) (wi.pos.drop dim))) =
      localsOf (Layout.getLinearId nd.dims wi.pos) := by
  induction dim with
  | zero => rfl
  | succ dim ih =>
    rw [← ih (Nat.le_of_succ_le hdim), loop]
    congr 1
    have hlt : dim < wi.pos.length := wi.inRange.length_eq ▸ hdim
    have hd : nd.dims[dim]? = some nd.dims[dim] := List.getElem?_eq_getElem hdim
    have hp : wi.pos[dim]? = some wi.pos[dim] := List.getElem?_eq_getElem hlt
    rw [List.drop_eq_getElem_cons hdim, List.drop_eq_getElem_cons hlt, Layout.getLinearId]
    simp only [localsOf, builtins, hd, hp, Option.map_some, Option.getD_some, BitVec.ofNat_add,
      BitVec.ofNat_mul]

/-- **The device computes the exact ids modulo 2^64.** -/
theorem ids_eq (wi : WorkItem nd) :
    ids wi = ⟨BitVec.ofNat 64 wi.id, BitVec.ofNat 64 wi.grpId,
      BitVec.ofNat 64 (Layout.getLinearId nd.dims wi.pos).locId,
      BitVec.ofNat 64 (Layout.getLinearId nd.dims wi.pos).grpSz⟩ := by
  have hloop := loop_eq wi (Nat.le_refl nd.dims.length)
  rw [List.drop_length, List.drop_eq_nil_of_le (wi.inRange.length_eq ▸ Nat.le_refl _)] at hloop
  have hids : loop (builtins wi) (builtins wi).getWorkDim ⟨0, 0, 1⟩ =
      localsOf (Layout.getLinearId nd.dims wi.pos) := hloop
  rw [ids, getLinearId, hids, WorkItem.id, BitVec.ofNat_add, BitVec.ofNat_mul]
  rfl

def globalId (wi : WorkItem nd) : Nat := (ids wi).globalId.toNat

def groupId (wi : WorkItem nd) : Nat := (ids wi).groupId.toNat

def localId (wi : WorkItem nd) : Nat := (ids wi).localId.toNat

def groupSize (wi : WorkItem nd) : Nat := (ids wi).groupSize.toNat

/-- The number of work-items in a group. -/
def workGrpSize (nd : NDRange) : Nat := (nd.dims.map Dim.lws).prod

/-- The ids number what the host takes them to number. -/
structure AgreesWithHost (nd : NDRange) : Prop where
  /-- The global ids number the work-items. -/
  globalId_bijOn : Set.BijOn (@globalId nd) Set.univ (Set.Iio (Layout.numOfThread nd))
  /-- The group ids number the groups. -/
  groupId_bijOn : ∃ number : List Nat → Nat,
    (∀ wi : WorkItem nd, groupId wi = number wi.group) ∧
    Set.BijOn number (Set.range fun wi : WorkItem nd => wi.group)
      (Set.Iio (Layout.numOfWorkGrp nd))
  groupSize_eq : ∀ wi : WorkItem nd, groupSize wi = workGrpSize nd
  /-- The local ids number the work-items of each group. -/
  localId_bijOn : ∀ wi : WorkItem nd,
    Set.BijOn (@localId nd) {other | other.group = wi.group} (Set.Iio (groupSize wi))
  /-- The global ids of a group are a block. -/
  block : ∀ g < Layout.numOfWorkGrp nd, @globalId nd '' {wi | groupId wi = g} =
    Set.Ico (g * workGrpSize nd) ((g + 1) * workGrpSize nd)
  /-- The host has the same number of work-items and size of the groups. -/
  host : ∀ (ki : KernelArgs.KernelInfo) (gws lws : List Word), (∀ g ∈ gws, g ≠ 0) →
    nd.dims = dims gws lws → ∃ c, count gws lws ⟨1, 1⟩ = .ok c ∧
      (sizes ki c).numOfThread.toNat = Layout.numOfThread nd ∧
      (sizes ki c).workGrpSize.toNat = workGrpSize nd
  /-- The header entry of a work-item is in the block of its group, at its local id. -/
  header : ∀ (hs : List Int) (wi : WorkItem nd),
    (UpdateHeader.group (workGrpSize nd) hs (groupId wi))[localId wi]? = hs[globalId wi]?

/-! ## Work-items and groups have all numbers -/

/-- A place with these group and local ids. -/
theorem exists_pos {ds : List Dim} {gs ls : List Nat}
    (hgs : MixedRadix.Digits (ds.map Dim.numGroups) gs)
    (hls : MixedRadix.Digits (ds.map Dim.lws) ls) :
    ∃ ps, List.Forall₂ Dim.Contains ds ps ∧ ps.map Pos.groupId = gs ∧
      ps.map Pos.localId = ls := by
  induction ds generalizing gs ls with
  | nil =>
    cases hgs
    cases hls
    exact ⟨[], .nil, rfl, rfl⟩
  | cons d ds ih =>
    obtain ⟨g, gs, hg, hgtail, rfl⟩ := List.forall₂_cons_left_iff.mp hgs
    obtain ⟨l, ls, hl, hltail, rfl⟩ := List.forall₂_cons_left_iff.mp hls
    obtain ⟨ps, hps, rfl, rfl⟩ := ih hgtail hltail
    exact ⟨⟨g, l⟩ :: ps, .cons ⟨hg, hl⟩ hps, rfl, rfl⟩

/-- There is a work-item for each number of a group and each number in a group. -/
theorem exists_workItem {g l : Nat} (hg : g < Layout.numOfWorkGrp nd)
    (hl : l < (nd.dims.map Dim.lws).prod) :
    ∃ wi : WorkItem nd, wi.grpId = g ∧ (Layout.getLinearId nd.dims wi.pos).locId = l := by
  obtain ⟨gs, hgs, rfl⟩ := MixedRadix.exists_digits hg
  obtain ⟨ls, hls, rfl⟩ := MixedRadix.exists_digits hl
  obtain ⟨ps, hps, rfl, rfl⟩ := exists_pos hgs hls
  refine ⟨⟨ps, hps⟩, ?_⟩
  rw [WorkItem.grpId, getLinearId_eq hps]
  exact ⟨rfl, rfl⟩

/-! ## The ids are exact -/

theorem workGrpSize_le (nd : NDRange) : workGrpSize nd ≤ Layout.numOfThread nd := by
  rw [numOfThread_eq]
  exact Nat.le_mul_of_pos_left _ (numOfWorkGrp_pos nd)

section Exact
variable (hfits : Layout.numOfThread nd < 2 ^ 64)
include hfits

theorem globalId_eq (wi : WorkItem nd) : globalId wi = wi.id := by
  rw [globalId, ids_eq]
  exact Nat.mod_eq_of_lt (Nat.lt_trans wi.id_lt hfits)

theorem groupId_eq (wi : WorkItem nd) : groupId wi = wi.grpId := by
  rw [groupId, ids_eq]
  exact Nat.mod_eq_of_lt
    (Nat.lt_trans (Nat.lt_of_lt_of_le wi.grpId_lt (numOfWorkGrp_le nd)) hfits)

theorem localId_eq (wi : WorkItem nd) :
    localId wi = (Layout.getLinearId nd.dims wi.pos).locId := by
  have hlt : (Layout.getLinearId nd.dims wi.pos).locId < workGrpSize nd :=
    (getLinearId_lt wi.inRange).2.1
  rw [localId, ids_eq]
  exact Nat.mod_eq_of_lt (Nat.lt_trans (Nat.lt_of_lt_of_le hlt (workGrpSize_le nd)) hfits)

theorem groupSize_eq (wi : WorkItem nd) : groupSize wi = workGrpSize nd := by
  rw [groupSize, ids_eq, (getLinearId_lt wi.inRange).2.2]
  exact Nat.mod_eq_of_lt (Nat.lt_of_le_of_lt (workGrpSize_le nd) hfits)

theorem localId_lt (wi : WorkItem nd) : localId wi < workGrpSize nd := by
  rw [localId_eq hfits]
  exact (getLinearId_lt wi.inRange).2.1

/-- A global id consists of the group id and the local id. -/
theorem globalId_eq_add (wi : WorkItem nd) :
    globalId wi = groupId wi * workGrpSize nd + localId wi := by
  rw [globalId_eq hfits, groupId_eq hfits, localId_eq hfits, WorkItem.id,
    (getLinearId_lt wi.inRange).2.2]
  rfl

/-- Work-items are in one group if and only if they have one group id. -/
theorem groupId_eq_iff (wi wi' : WorkItem nd) :
    groupId wi = groupId wi' ↔ wi.group = wi'.group := by
  rw [groupId_eq hfits, groupId_eq hfits]
  constructor
  · exact (getLinearId_inj wi.inRange wi'.inRange).1
  · intro h
    rw [WorkItem.grpId, WorkItem.grpId, getLinearId_eq wi.inRange, getLinearId_eq wi'.inRange]
    exact congrArg (MixedRadix.value (nd.dims.map Dim.numGroups)) h

/-- A work-item is determined by its group id and its local id. -/
theorem eq_of_ids {wi wi' : WorkItem nd} (hg : groupId wi = groupId wi')
    (hl : localId wi = localId wi') : wi = wi' := by
  by_contra hne
  apply WorkItem.id_ne hne
  rw [← globalId_eq hfits, ← globalId_eq hfits, globalId_eq_add hfits, globalId_eq_add hfits wi',
    hg, hl]

/-- There is a work-item for each group id and local id. -/
theorem exists_of_ids {g l : Nat} (hg : g < Layout.numOfWorkGrp nd) (hl : l < workGrpSize nd) :
    ∃ wi : WorkItem nd, groupId wi = g ∧ localId wi = l := by
  obtain ⟨wi, hgrp, hloc⟩ := exists_workItem hg hl
  exact ⟨wi, (groupId_eq hfits wi).trans hgrp, (localId_eq hfits wi).trans hloc⟩

theorem globalId_bijOn :
    Set.BijOn (@globalId nd) Set.univ (Set.Iio (Layout.numOfThread nd)) := by
  refine ⟨fun wi _ => ?_, fun wi _ wi' _ h => ?_, fun n hn => ?_⟩
  · rw [Set.mem_Iio, globalId_eq hfits]
    exact wi.id_lt
  · by_contra hne
    apply WorkItem.id_ne hne
    rw [← globalId_eq hfits, ← globalId_eq hfits]
    exact h
  · have hdiv : n / workGrpSize nd < Layout.numOfWorkGrp nd := by
      apply Nat.div_lt_of_lt_mul
      rw [Nat.mul_comm]
      exact numOfThread_eq nd ▸ Set.mem_Iio.mp hn
    obtain ⟨wi, hg, hl⟩ := exists_of_ids hfits hdiv (Nat.mod_lt n (prod_lws_pos nd))
    refine ⟨wi, Set.mem_univ wi, ?_⟩
    rw [globalId_eq_add hfits, hg, hl, Nat.mul_comm]
    exact Nat.div_add_mod n _

theorem groupId_bijOn : ∃ number : List Nat → Nat,
    (∀ wi : WorkItem nd, groupId wi = number wi.group) ∧
    Set.BijOn number (Set.range fun wi : WorkItem nd => wi.group)
      (Set.Iio (Layout.numOfWorkGrp nd)) := by
  have hnumber (wi : WorkItem nd) :
      groupId wi = MixedRadix.value (nd.dims.map Dim.numGroups) wi.group := by
    rw [groupId_eq hfits, WorkItem.grpId, getLinearId_eq wi.inRange]
    rfl
  refine ⟨MixedRadix.value (nd.dims.map Dim.numGroups), hnumber, ?_, ?_, fun g hg => ?_⟩
  · rintro _ ⟨wi, rfl⟩
    rw [← hnumber, groupId_eq hfits]
    exact wi.grpId_lt
  · rintro _ ⟨wi, rfl⟩ _ ⟨wi', rfl⟩ h
    rw [← hnumber, ← hnumber] at h
    exact (groupId_eq_iff hfits wi wi').mp h
  · obtain ⟨wi, hgrp, -⟩ := exists_of_ids hfits hg (prod_lws_pos nd)
    exact ⟨wi.group, ⟨wi, rfl⟩, (hnumber wi).symm.trans hgrp⟩

theorem localId_bijOn (wi : WorkItem nd) :
    Set.BijOn (@localId nd) {other | other.group = wi.group} (Set.Iio (groupSize wi)) := by
  rw [groupSize_eq hfits]
  refine ⟨fun other _ => localId_lt hfits other, fun a ha b hb h => ?_, fun l hl => ?_⟩
  · have hgroup : a.group = b.group := ha.trans hb.symm
    exact eq_of_ids hfits ((groupId_eq_iff hfits a b).mpr hgroup) h
  · have hg : groupId wi < Layout.numOfWorkGrp nd := groupId_eq hfits wi ▸ wi.grpId_lt
    obtain ⟨other, hgrp, hloc⟩ := exists_of_ids hfits hg hl
    exact ⟨other, (groupId_eq_iff hfits other wi).mp hgrp, hloc⟩

theorem image_globalId {g : Nat} (hg : g < Layout.numOfWorkGrp nd) :
    @globalId nd '' {wi | groupId wi = g} =
      Set.Ico (g * workGrpSize nd) ((g + 1) * workGrpSize nd) := by
  ext n
  rw [Set.mem_Ico, Nat.succ_mul]
  constructor
  · rintro ⟨wi, rfl, rfl⟩
    have hlt := localId_lt hfits wi
    rw [globalId_eq_add hfits]
    omega
  · rintro ⟨hle, hlt⟩
    obtain ⟨wi, hgrp, hloc⟩ :=
      exists_of_ids hfits (l := n - g * workGrpSize nd) hg (by omega)
    refine ⟨wi, hgrp, ?_⟩
    rw [globalId_eq_add hfits, hgrp, hloc]
    omega

/-- **Linear ids match the host's grouping.** -/
theorem linearIds : AgreesWithHost nd where
  globalId_bijOn := globalId_bijOn hfits
  groupId_bijOn := groupId_bijOn hfits
  groupSize_eq := groupSize_eq hfits
  localId_bijOn := localId_bijOn hfits
  block _ hg := image_globalId hfits hg
  host ki gws lws hgws hnd := by
    obtain ⟨hnum, -, hsize⟩ := counts_exact ki hfits
    exact ⟨countsOf nd, count_eq hgws hnd, hnum, hsize⟩
  header hs wi := by
    rw [UpdateHeader.group, List.getElem?_take_of_lt (localId_lt hfits wi), List.getElem?_drop,
      globalId_eq_add hfits]

end Exact

/-- Two dimensions: 3 groups of 2 and 2 groups of 5. -/
theorem linearIds_six_ten : AgreesWithHost ⟨[⟨6, 2⟩, ⟨10, 5⟩], by decide⟩ :=
  linearIds (by decide)

end LinearId
end Clpkm
