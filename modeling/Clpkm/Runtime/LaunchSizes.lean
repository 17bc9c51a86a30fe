import Clpkm.Layout
import Clpkm.Runtime.WorkGroupSize
import Mathlib.Algebra.Order.BigOperators.GroupWithZero.List

/-!
# The arithmetic of a launch

`clEnqueueNDRangeKernel` counts work-items and groups and computes the sizes of the three
buffers in `size_t`, that is, modulo 2^64.  `Layout` has the exact values as natural
numbers; here is what the code computes, and how the call goes on.

A conforming vendor refuses to create a buffer of no bytes and may refuse others.  A header
that the host has no memory for is an error code as well.  A header with more entries than a
vector can have is an exception that leaves the call, which returns no error code then.

Three things go wrong (`launch_exact_iff`).  A local size of 0 is a divisor before it is
checked, the number of groups is a divisor although it may have wrapped around to 0, and
sizes that wrapped around are used unless that of the metadata became 0.
-/

namespace Clpkm
namespace LaunchSizes
open KernelArgs Layout WorkGroupSize

/-- `size_t` -/
abbrev Word := BitVec 64

/-- `NumOfThread` and `NumOfWorkGrp`. -/
structure Counts where
  numOfThread : Word
  numOfWorkGrp : Word
  deriving DecidableEq

/-- What the call computes from the sizes. -/
structure Sizes where
  numOfThread : Word
  numOfWorkGrp : Word
  workGrpSize : Word
  metadataSize : Word
  privateBufferSize : Word
  localBufferSize : Word
  deriving DecidableEq

/-- How the call ends if it does not succeed. -/
inductive Stop
  | errorCode
  | divideByZero
  /-- `std::length_error`, after the buffers have been created with these sizes -/
  | exception (s : Sizes)
  deriving DecidableEq

/-- What the call depends on apart from its arguments. -/
structure Environment where
  /-- whether the vendor creates a buffer with so many bytes -/
  createBuffer : Word → Bool
  /-- whether the host has memory for a header with so many entries -/
  allocate : Word → Bool
  /-- whether the vendor's calls after that succeed -/
  rest : Bool
  createBuffer_zero : createBuffer 0 = false

/-- The loop over the dimensions. -/
def count : List Word → List Word → Counts → Except Stop Counts
  | g :: gws, l :: lws, c =>
    if l = 0 then .error .divideByZero
    else if g % l ≠ 0 then .error .errorCode
    else count gws lws ⟨c.numOfThread * g, c.numOfWorkGrp * (g / l)⟩
  | _, _, c => .ok c

/-- `TotalReqLocSize` -/
def totalReqLoc (ki : KernelInfo) : Word :=
  ki.profile.locPtrParamIdx.foldl (fun total idx => total + BitVec.ofNat 64 (argSize ki idx))
    (BitVec.ofNat 64 ki.profile.reqLocSize)

/-- `NumOfDynLocParam + NumOfThread` -/
def headerEntries (ki : KernelInfo) (c : Counts) : Word :=
  BitVec.ofNat 64 ki.profile.locPtrParamIdx.length + c.numOfThread

def sizes (ki : KernelInfo) (c : Counts) : Sizes where
  numOfThread := c.numOfThread
  numOfWorkGrp := c.numOfWorkGrp
  workGrpSize := c.numOfThread / c.numOfWorkGrp
  metadataSize := headerEntries ki c * 4
  privateBufferSize := BitVec.ofNat 64 ki.profile.reqPrvSize * c.numOfThread
  localBufferSize := totalReqLoc ki * c.numOfWorkGrp

/-- `std::vector<cl_int>::max_size` -/
def maxSize : Word := BitVec.ofNat 64 (2 ^ 61 - 1)

/-- The buffers and the header are created and the kernel is enqueued.  The call catches
`std::bad_alloc`. -/
def setUp (env : Environment) (ki : KernelInfo) (c : Counts) : Except Stop Sizes :=
  let s := sizes ki c
  if ¬env.createBuffer s.metadataSize then .error .errorCode
  else if s.localBufferSize ≠ 0 ∧ ¬env.createBuffer s.localBufferSize then .error .errorCode
  else if s.privateBufferSize ≠ 0 ∧ ¬env.createBuffer s.privateBufferSize then
    .error .errorCode
  else if headerEntries ki c > maxSize then .error (.exception s)
  else if ¬env.allocate (headerEntries ki c) then .error .errorCode
  else if ¬env.rest then .error .errorCode
  else .ok s

/-- `clEnqueueNDRangeKernel`, from the loop over the dimensions on. -/
def launch (env : Environment) (ki : KernelInfo) (gws realLws : List Word) :
    Except Stop Sizes :=
  match count gws realLws ⟨1, 1⟩ with
  | .error stop => .error stop
  | .ok c => if c.numOfWorkGrp = 0 then .error .divideByZero else setUp env ki c

/-- What `FindWorkGroupSize` is given: the global sizes and the limits of the device. -/
def extents (limits : List Nat) (gws : List Word) : List Extent :=
  List.zipWith (fun g limit => ⟨g.toNat, limit⟩) gws limits

/-- `RealLWS`: the local sizes that the caller gives, or those that are chosen. -/
def RealLws (limits : List Nat) (maxNumOfThread : Nat) (gws : List Word) :
    Option (List Word) → List Word → Prop
  | some lws, realLws => realLws = lws
  | none, realLws => Returns (extents limits gws) maxNumOfThread (realLws.map BitVec.toNat)

/-! ## What the call should do -/

/-- The dimensions with their sizes as natural numbers. -/
def dims (gws lws : List Word) : List Dim :=
  List.zipWith (fun g l => ⟨g.toNat, l.toNat⟩) gws lws

/-- No size has wrapped around. -/
structure Sizes.Exact (s : Sizes) (ki : KernelInfo) (nd : NDRange) : Prop where
  numOfThread : s.numOfThread.toNat = Layout.numOfThread nd
  numOfWorkGrp : s.numOfWorkGrp.toNat = Layout.numOfWorkGrp nd
  workGrpSize : s.workGrpSize.toNat = (nd.dims.map Dim.lws).prod
  one_le_workGrpSize : 1 ≤ s.workGrpSize.toNat
  metadataSize : s.metadataSize.toNat = Layout.metadataSize ki nd
  privateBufferSize : s.privateBufferSize.toNat = Layout.privateBufferSize ki nd
  localBufferSize : s.localBufferSize.toNat = Layout.localBufferSize ki nd

/-- The call returns an error code, or goes on with exact sizes. -/
def ExactOrRefused (ki : KernelInfo) (ds : List Dim) : Except Stop Sizes → Prop
  | .error .errorCode => True
  | .error .divideByZero => False
  | .error (.exception s) | .ok s => ∃ nd : NDRange, nd.dims = ds ∧ s.Exact ki nd

/-- The first dimension whose local size does not divide the global size. -/
def firstIndivisible (ds : List Dim) : Option Dim := ds.find? fun d => ¬d.lws ∣ d.gws

/-- All sizes of buffers fit in a `size_t`. -/
def Fits (ki : KernelInfo) (nd : NDRange) : Prop :=
  metadataSize ki nd < 2 ^ 64 ∧ privateBufferSize ki nd < 2 ^ 64 ∧ localBufferSize ki nd < 2 ^ 64

/-- The first local size that does not divide is not 0, or all divide, the number of groups
does not wrap around to 0, and either the size of the metadata does or all sizes fit. -/
def HoldsWhen (ki : KernelInfo) (ds : List Dim) : Prop :=
  (∃ d, firstIndivisible ds = some d ∧ d.lws ≠ 0) ∨
    ∃ nd : NDRange, nd.dims = ds ∧ numOfWorkGrp nd % 2 ^ 64 ≠ 0 ∧
      (metadataSize ki nd % 2 ^ 64 = 0 ∨ Fits ki nd)

/-! ## The loop over the dimensions -/

variable {ki : KernelInfo} {gws lws : List Word}

theorem dims_cons (g l : Word) (gws lws : List Word) :
    dims (g :: gws) (l :: lws) = ⟨g.toNat, l.toNat⟩ :: dims gws lws := rfl

theorem firstIndivisible_cons (d : Dim) (ds : List Dim) :
    firstIndivisible (d :: ds) = if d.lws ∣ d.gws then firstIndivisible ds else some d := by
  unfold firstIndivisible
  rw [List.find?_cons]
  by_cases hdvd : d.lws ∣ d.gws
  · rw [if_pos hdvd, decide_eq_false (not_not_intro hdvd)]
  · rw [if_neg hdvd, decide_eq_true hdvd]

/-- The remainder is 0 if and only if the local size divides. -/
theorem umod_eq_zero_iff (g l : Word) : g % l = 0 ↔ l.toNat ∣ g.toNat := by
  rw [← BitVec.toNat_inj, BitVec.toNat_umod]
  exact (Nat.dvd_iff_mod_eq_zero ..).symm

/-- No number but 0 is divided by 0. -/
theorem ne_zero_of_dvd {g l : Word} (hg : g ≠ 0) (h : l.toNat ∣ g.toNat) : l ≠ 0 := by
  rintro rfl
  apply hg
  apply BitVec.eq_of_toNat_eq
  exact Nat.eq_zero_of_zero_dvd h

/-- The loop stops at the first local size that does not divide. -/
theorem count_of_some {d : Dim} (hgws : ∀ g ∈ gws, g ≠ 0)
    (h : firstIndivisible (dims gws lws) = some d) (c : Counts) :
    count gws lws c = .error (if d.lws = 0 then .divideByZero else .errorCode) := by
  induction gws generalizing lws c with
  | nil => cases h
  | cons g gws ih =>
    cases lws with
    | nil => cases h
    | cons l lws =>
      obtain ⟨hg, hrest⟩ := List.forall_mem_cons.mp hgws
      rw [dims_cons, firstIndivisible_cons] at h
      by_cases hdvd : l.toNat ∣ g.toNat
      · rw [if_pos hdvd] at h
        rw [count, if_neg (ne_zero_of_dvd hg hdvd),
          if_neg (not_not_intro ((umod_eq_zero_iff g l).mpr hdvd))]
        exact ih hrest h _
      · rw [if_neg hdvd] at h
        cases h
        rw [count]
        by_cases hzero : l = 0
        · rw [if_pos hzero, if_pos (by rw [hzero]; rfl)]
        · have hnat : ¬l.toNat = 0 := fun hl => hzero (BitVec.eq_of_toNat_eq hl)
          rw [if_neg hzero, if_neg hnat, if_pos (mt (umod_eq_zero_iff g l).mp hdvd)]

/-- The loop has the counts modulo 2^64 if all local sizes divide. -/
theorem count_of_none (hgws : ∀ g ∈ gws, g ≠ 0)
    (h : firstIndivisible (dims gws lws) = none) (c : Counts) :
    count gws lws c =
      .ok ⟨c.numOfThread * BitVec.ofNat 64 ((dims gws lws).map Dim.gws).prod,
        c.numOfWorkGrp * BitVec.ofNat 64 ((dims gws lws).map Dim.numGroups).prod⟩ := by
  have hbase (c : Counts) : (Except.ok c : Except Stop Counts) =
      .ok ⟨c.numOfThread * BitVec.ofNat 64 1, c.numOfWorkGrp * BitVec.ofNat 64 1⟩ := by
    rw [BitVec.mul_one, BitVec.mul_one]
  induction gws generalizing lws c with
  | nil => exact hbase c
  | cons g gws ih =>
    cases lws with
    | nil => exact hbase c
    | cons l lws =>
      obtain ⟨hg, hrest⟩ := List.forall_mem_cons.mp hgws
      rw [dims_cons, firstIndivisible_cons] at h
      by_cases hdvd : l.toNat ∣ g.toNat
      · rw [if_pos hdvd] at h
        have hquot : g / l = BitVec.ofNat 64 (g.toNat / l.toNat) := by
          apply BitVec.eq_of_toNat_eq
          rw [BitVec.toNat_udiv, BitVec.toNat_ofNat]
          exact (Nat.mod_eq_of_lt (Nat.lt_of_le_of_lt (Nat.div_le_self ..) g.isLt)).symm
        rw [count, if_neg (ne_zero_of_dvd hg hdvd),
          if_neg (not_not_intro ((umod_eq_zero_iff g l).mpr hdvd)), ih hrest h, dims_cons,
          List.map_cons, List.map_cons, List.prod_cons, List.prod_cons, BitVec.ofNat_mul,
          BitVec.ofNat_mul, Dim.numGroups, ← hquot, BitVec.ofNat_toNat, BitVec.setWidth_eq,
          ← BitVec.mul_assoc, ← BitVec.mul_assoc]
      · rw [if_neg hdvd] at h
        cases h

/-! ## The sizes -/

variable {nd : NDRange}

theorem nd_eq {nd nd' : NDRange} (h : nd.dims = nd'.dims) : nd = nd' := by
  obtain ⟨ds, hds⟩ := nd
  obtain ⟨ds', hds'⟩ := nd'
  cases h
  rfl

theorem exists_of_mem_zipWith {α β γ : Type} {f : α → β → γ} {as : List α} {bs : List β}
    {c : γ} (h : c ∈ List.zipWith f as bs) : ∃ a ∈ as, ∃ b ∈ bs, f a b = c := by
  rw [← List.map_uncurry_zip_eq_zipWith] at h
  obtain ⟨⟨a, b⟩, hab, rfl⟩ := List.mem_map.mp h
  obtain ⟨ha, hb⟩ := List.of_mem_zip hab
  exact ⟨a, ha, b, hb, rfl⟩

/-- If all local sizes divide, they make up an NDRange. -/
theorem exists_nd (hgws : ∀ g ∈ gws, g ≠ 0) (h : firstIndivisible (dims gws lws) = none) :
    ∃ nd : NDRange, nd.dims = dims gws lws := by
  refine ⟨⟨dims gws lws, fun d hd => ⟨?_, ?_⟩⟩, rfl⟩
  · obtain ⟨g, hg, l, -, rfl⟩ := exists_of_mem_zipWith hd
    exact fun h0 => hgws g hg (BitVec.eq_of_toNat_eq h0)
  · have hdvd := List.find?_eq_none.mp h d hd
    rw [decide_eq_true_eq, not_not] at hdvd
    exact Nat.mod_eq_zero_of_dvd hdvd

/-- The counts modulo 2^64. -/
def countsOf (nd : NDRange) : Counts :=
  ⟨BitVec.ofNat 64 (Layout.numOfThread nd), BitVec.ofNat 64 (Layout.numOfWorkGrp nd)⟩

theorem firstIndivisible_eq_none (nd : NDRange) : firstIndivisible nd.dims = none := by
  apply List.find?_eq_none.mpr
  intro d hd
  rw [decide_eq_true_eq]
  exact not_not_intro (Nat.dvd_of_mod_eq_zero (nd.valid d hd).2)

theorem count_eq (hgws : ∀ g ∈ gws, g ≠ 0) (hnd : nd.dims = dims gws lws) :
    count gws lws ⟨1, 1⟩ = .ok (countsOf nd) := by
  rw [count_of_none hgws (hnd ▸ firstIndivisible_eq_none nd), ← hnd]
  show Except.ok (Counts.mk (1#64 * _) (1#64 * _)) = _
  rw [BitVec.one_mul, BitVec.one_mul]
  rfl

theorem totalReqLoc_eq (ki : KernelInfo) :
    totalReqLoc ki = BitVec.ofNat 64 (totalReqLocSize ki) := by
  have hfold (idxs : List Nat) (total : Nat) :
      idxs.foldl (fun total idx => total + BitVec.ofNat 64 (argSize ki idx))
          (BitVec.ofNat 64 total) =
        BitVec.ofNat 64 (total + (idxs.map (argSize ki)).sum) := by
    induction idxs generalizing total with
    | nil => rfl
    | cons idx idxs ih =>
      rw [List.foldl_cons, ← BitVec.ofNat_add, ih, List.map_cons, List.sum_cons, Nat.add_assoc]
  exact hfold ki.profile.locPtrParamIdx ki.profile.reqLocSize

/-- **All sizes are the exact ones modulo 2^64.** -/
theorem sizes_eq (ki : KernelInfo) (nd : NDRange) :
    sizes ki (countsOf nd) =
      { numOfThread := BitVec.ofNat 64 (Layout.numOfThread nd)
        numOfWorkGrp := BitVec.ofNat 64 (Layout.numOfWorkGrp nd)
        workGrpSize := BitVec.ofNat 64 (Layout.numOfThread nd) /
          BitVec.ofNat 64 (Layout.numOfWorkGrp nd)
        metadataSize := BitVec.ofNat 64 (metadataSize ki nd)
        privateBufferSize := BitVec.ofNat 64 (privateBufferSize ki nd)
        localBufferSize := BitVec.ofNat 64 (localBufferSize ki nd) } := by
  rw [sizes, headerEntries, totalReqLoc_eq, metadataSize, privateBufferSize, localBufferSize,
    BitVec.ofNat_mul, BitVec.ofNat_mul, BitVec.ofNat_mul, BitVec.ofNat_add]
  rfl

theorem numOfThread_pos (nd : NDRange) : 0 < Layout.numOfThread nd := by
  apply List.prod_pos
  intro g hg
  obtain ⟨d, hd, rfl⟩ := List.mem_map.mp hg
  exact Nat.pos_of_ne_zero (nd.valid d hd).1

theorem numOfWorkGrp_pos (nd : NDRange) : 0 < Layout.numOfWorkGrp nd := by
  have hpos := numOfThread_pos nd
  rw [numOfThread_eq] at hpos
  exact Nat.pos_of_mul_pos_right hpos

theorem prod_lws_pos (nd : NDRange) : 0 < (nd.dims.map Dim.lws).prod := by
  have hpos := numOfThread_pos nd
  rw [numOfThread_eq] at hpos
  exact Nat.pos_of_mul_pos_left hpos

theorem numOfWorkGrp_le (nd : NDRange) : Layout.numOfWorkGrp nd ≤ Layout.numOfThread nd := by
  rw [numOfThread_eq]
  exact Nat.le_mul_of_pos_right _ (prod_lws_pos nd)

/-- If the number of work-items fits, the counts are exact and the size of the groups is
the product of the local sizes. -/
theorem counts_exact (ki : KernelInfo) (hfits : Layout.numOfThread nd < 2 ^ 64) :
    (sizes ki (countsOf nd)).numOfThread.toNat = Layout.numOfThread nd ∧
      (sizes ki (countsOf nd)).numOfWorkGrp.toNat = Layout.numOfWorkGrp nd ∧
      (sizes ki (countsOf nd)).workGrpSize.toNat = (nd.dims.map Dim.lws).prod := by
  have hthread : (BitVec.ofNat 64 (Layout.numOfThread nd)).toNat = Layout.numOfThread nd :=
    Nat.mod_eq_of_lt hfits
  have hgroups : (BitVec.ofNat 64 (Layout.numOfWorkGrp nd)).toNat = Layout.numOfWorkGrp nd :=
    Nat.mod_eq_of_lt (Nat.lt_of_le_of_lt (numOfWorkGrp_le nd) hfits)
  refine ⟨hthread, hgroups, ?_⟩
  rw [sizes_eq]
  show (BitVec.ofNat 64 (Layout.numOfThread nd) / BitVec.ofNat 64 (Layout.numOfWorkGrp nd)).toNat
    = _
  rw [BitVec.toNat_udiv, hthread, hgroups, numOfThread_eq]
  exact Nat.mul_div_cancel_left _ (numOfWorkGrp_pos nd)

/-- The sizes are exact if and only if those of the buffers fit. -/
theorem exact_iff_fits : (sizes ki (countsOf nd)).Exact ki nd ↔ Fits ki nd := by
  rw [Fits]
  constructor
  · intro h
    rw [← h.metadataSize, ← h.privateBufferSize, ← h.localBufferSize]
    exact ⟨BitVec.isLt _, BitVec.isLt _, BitVec.isLt _⟩
  · rintro ⟨hmeta, hprv, hloc⟩
    -- the header has an entry for each work-item, so their number fits if the metadata does
    have hthread : Layout.numOfThread nd < 2 ^ 64 := by
      rw [metadataSize] at hmeta
      omega
    obtain ⟨hnum, hgrp, hsize⟩ := counts_exact ki hthread
    refine ⟨hnum, hgrp, hsize, ?_, ?_, ?_, ?_⟩
    · rw [hsize]
      exact prod_lws_pos nd
    · rw [sizes_eq]
      exact Nat.mod_eq_of_lt hmeta
    · rw [sizes_eq]
      exact Nat.mod_eq_of_lt hprv
    · rw [sizes_eq]
      exact Nat.mod_eq_of_lt hloc

/-! ## The call -/

/-- A vendor that refuses nothing but what it has to, and a host with enough memory for any
vector. -/
def Environment.generous : Environment where
  createBuffer n := n ≠ 0
  allocate _ := true
  rest := true
  createBuffer_zero := rfl

theorem launch_of_some {d : Dim} (env : Environment) (hgws : ∀ g ∈ gws, g ≠ 0)
    (h : firstIndivisible (dims gws lws) = some d) :
    launch env ki gws lws = .error (if d.lws = 0 then .divideByZero else .errorCode) := by
  rw [launch, count_of_some hgws h]

theorem ofNat_eq_zero_iff (n : Nat) : BitVec.ofNat 64 n = 0 ↔ n % 2 ^ 64 = 0 := by
  rw [← BitVec.toNat_inj, BitVec.toNat_ofNat]
  rfl

theorem launch_of_divides (env : Environment) (hgws : ∀ g ∈ gws, g ≠ 0)
    (hnd : nd.dims = dims gws lws) :
    launch env ki gws lws =
      if Layout.numOfWorkGrp nd % 2 ^ 64 = 0 then .error .divideByZero
      else setUp env ki (countsOf nd) := by
  rw [launch, count_eq hgws hnd]
  exact if_congr (ofNat_eq_zero_iff _) rfl rfl

/-- The set-up is refused, or goes on with the sizes after the buffer for the metadata has
been created. -/
theorem setUp_cases (env : Environment) (ki : KernelInfo) (c : Counts) :
    setUp env ki c = .error .errorCode ∨ env.createBuffer (sizes ki c).metadataSize = true ∧
      (setUp env ki c = .error (.exception (sizes ki c)) ∨ setUp env ki c = .ok (sizes ki c)) := by
  unfold setUp
  dsimp only
  by_cases hmeta : env.createBuffer (sizes ki c).metadataSize = true
  · rw [if_neg (not_not_intro hmeta)]
    split
    · exact .inl rfl
    · split
      · exact .inl rfl
      · split
        · exact .inr ⟨hmeta, .inl rfl⟩
        · split
          · exact .inl rfl
          · split
            · exact .inl rfl
            · exact .inr ⟨hmeta, .inr rfl⟩
  · exact .inl (if_pos hmeta)

/-- A generous environment refuses only if the size of the metadata is 0. -/
theorem setUp_generous (ki : KernelInfo) (c : Counts) (h : (sizes ki c).metadataSize ≠ 0) :
    setUp .generous ki c ≠ .error .errorCode := by
  have hcreate (n : Word) (hn : n ≠ 0) : Environment.generous.createBuffer n = true :=
    decide_eq_true hn
  unfold setUp
  dsimp only
  rw [if_neg (not_not_intro (hcreate _ h)), if_neg fun hloc => hloc.2 (hcreate _ hloc.1),
    if_neg fun hprv => hprv.2 (hcreate _ hprv.1)]
  split
  · intro hstop
    cases hstop
  · intro hstop
    cases hstop

/-- What goes on with the sizes is as it should be if and only if they fit. -/
theorem exactOrRefused_iff_fits {r : Except Stop Sizes} (hnd : nd.dims = dims gws lws)
    (hr : r = .error (.exception (sizes ki (countsOf nd))) ∨ r = .ok (sizes ki (countsOf nd))) :
    ExactOrRefused ki (dims gws lws) r ↔ Fits ki nd := by
  rw [← exact_iff_fits]
  have hexact : (∃ nd' : NDRange, nd'.dims = dims gws lws ∧
      (sizes ki (countsOf nd)).Exact ki nd') ↔ (sizes ki (countsOf nd)).Exact ki nd := by
    constructor
    · rintro ⟨nd', hnd', h⟩
      obtain rfl := nd_eq (hnd.trans hnd'.symm)
      exact h
    · intro h
      exact ⟨nd, hnd, h⟩
  rcases hr with rfl | rfl
  · exact hexact
  · exact hexact

/-- What the call does if all local sizes divide. -/
theorem launch_exact_of_divides (hgws : ∀ g ∈ gws, g ≠ 0) (hnd : nd.dims = dims gws lws) :
    (∀ env, ExactOrRefused ki (dims gws lws) (launch env ki gws lws)) ↔
      Layout.numOfWorkGrp nd % 2 ^ 64 ≠ 0 ∧ (metadataSize ki nd % 2 ^ 64 = 0 ∨ Fits ki nd) := by
  by_cases hgrp : Layout.numOfWorkGrp nd % 2 ^ 64 = 0
  · refine ⟨fun h => ?_, fun h => absurd hgrp h.1⟩
    have hbad := h .generous
    rw [launch_of_divides _ hgws hnd, if_pos hgrp] at hbad
    exact hbad.elim
  · have hlaunch (env : Environment) : launch env ki gws lws = setUp env ki (countsOf nd) := by
      rw [launch_of_divides env hgws hnd, if_neg hgrp]
    have hmeta : (sizes ki (countsOf nd)).metadataSize = 0 ↔ metadataSize ki nd % 2 ^ 64 = 0 := by
      rw [sizes_eq]
      exact ofNat_eq_zero_iff _
    constructor
    · intro h
      refine ⟨hgrp, ?_⟩
      by_cases hzero : metadataSize ki nd % 2 ^ 64 = 0
      · exact .inl hzero
      -- the call goes on with its sizes in some environment, so they have to be exact
      · have hgen := h .generous
        rw [hlaunch] at hgen
        rcases setUp_cases .generous ki (countsOf nd) with hrefused | ⟨-, hon⟩
        · exact absurd hrefused (setUp_generous ki _ (mt hmeta.mp hzero))
        · exact .inr ((exactOrRefused_iff_fits hnd hon).mp hgen)
    · rintro ⟨-, hfits⟩ env
      rw [hlaunch]
      rcases setUp_cases env ki (countsOf nd) with hrefused | ⟨hcreated, hon⟩
      · rw [hrefused]
        trivial
      · rcases hfits with hzero | hfits
        · rw [hmeta.mpr hzero, env.createBuffer_zero] at hcreated
          cases hcreated
        · exact (exactOrRefused_iff_fits hnd hon).mpr hfits

/-- What the call does, given the local sizes. -/
theorem launch_exact_of_lws (hgws : ∀ g ∈ gws, g ≠ 0) :
    (∀ env, ExactOrRefused ki (dims gws lws) (launch env ki gws lws)) ↔
      HoldsWhen ki (dims gws lws) := by
  cases hfirst : firstIndivisible (dims gws lws) with
  | some d =>
    constructor
    · intro h
      refine .inl ⟨d, hfirst, fun hzero => ?_⟩
      have hbad := h .generous
      rw [launch_of_some _ hgws hfirst, if_pos hzero] at hbad
      exact hbad
    · rintro (⟨d', hd', hne⟩ | ⟨nd, hnd, -⟩) env
      · obtain rfl : d = d' := Option.some.inj (hfirst.symm.trans hd')
        rw [launch_of_some env hgws hfirst, if_neg hne]
        trivial
      · rw [← hnd, firstIndivisible_eq_none] at hfirst
        cases hfirst
  | none =>
    obtain ⟨nd, hnd⟩ := exists_nd hgws hfirst
    rw [launch_exact_of_divides hgws hnd]
    constructor
    · intro h
      exact .inr ⟨nd, hnd, h⟩
    · rintro (⟨d, hd, -⟩ | ⟨nd', hnd', h⟩)
      · rw [hfirst] at hd
        cases hd
      · obtain rfl := nd_eq (hnd.trans hnd'.symm)
        exact h

/-- The local sizes of a launch are determined by its arguments. -/
theorem RealLws.unique {limits : List Nat} {maxNumOfThread : Nat} {given : Option (List Word)}
    {realLws realLws' : List Word} (h : RealLws limits maxNumOfThread gws given realLws)
    (h' : RealLws limits maxNumOfThread gws given realLws') : realLws = realLws' := by
  cases given with
  | some lws => exact h.trans h'.symm
  | none =>
    have hinj : Function.Injective (BitVec.toNat (w := 64)) := fun _ _ => BitVec.eq_of_toNat_eq
    exact List.map_injective_iff.mpr hinj (Returns.unique h h')

/-- `FindWorkGroupSize` chooses one local size for each dimension. -/
theorem exists_realLws {limits : List Nat} (maxNumOfThread : Nat)
    (hdim : gws.length ≤ limits.length) (hgws : ∀ g ∈ gws, g ≠ 0) (hlimits : ∀ n ∈ limits, 0 < n) :
    ∃ realLws, RealLws limits maxNumOfThread gws none realLws ∧ realLws.length = gws.length := by
  have hwork : ∀ d ∈ extents limits gws, 0 < d.work := by
    intro d hd
    obtain ⟨g, hg, n, -, rfl⟩ := exists_of_mem_zipWith hd
    exact Nat.pos_of_ne_zero fun h0 => hgws g hg (BitVec.eq_of_toNat_eq h0)
  have hlimit : ∀ d ∈ extents limits gws, 0 < d.limit := by
    intro d hd
    obtain ⟨g, -, n, hn, rfl⟩ := exists_of_mem_zipWith hd
    exact hlimits n hn
  obtain ⟨lws, hreturns, hadm, -⟩ := exists_returns hwork hlimit maxNumOfThread
  -- a divisor of a global size is a `size_t` as the global size is
  have hlt : ∀ n ∈ lws, n < 2 ^ 64 := by
    intro n hn
    obtain ⟨d, hd, hdvd⟩ := hadm.exists_dvd n hn
    obtain ⟨g, -, n, -, rfl⟩ := exists_of_mem_zipWith hd
    exact Nat.lt_of_le_of_lt (Nat.le_of_dvd (hwork _ hd) hdvd) g.isLt
  refine ⟨lws.map (BitVec.ofNat 64), ?_, ?_⟩
  · have hback : (lws.map (BitVec.ofNat 64)).map BitVec.toNat = lws := by
      rw [List.map_map]
      refine (List.map_congr_left fun n hn => ?_).trans (List.map_id lws)
      exact Nat.mod_eq_of_lt (hlt n hn)
    rw [RealLws, hback]
    exact hreturns
  · rw [List.length_map, ← hadm.length_eq, extents, List.length_zipWith]
    exact Nat.min_eq_left hdim

/-- **Launch arithmetic is exact or refused if and only if the first local size that does
not divide is not 0 or, if all divide, neither the number of groups nor the sizes of the
buffers wrap around, except that the size of the metadata may become 0.** -/
theorem launch_exact_iff {limits : List Nat} {maxNumOfThread : Nat} {lws : Option (List Word)}
    (hdim : gws.length ≤ limits.length) (hgws : ∀ g ∈ gws, g ≠ 0)
    (hlws : ∀ l, lws = some l → l.length = gws.length) (hlimits : ∀ n ∈ limits, 0 < n) :
    ∃ realLws, RealLws limits maxNumOfThread gws lws realLws ∧ realLws.length = gws.length ∧
      ((∀ env, ExactOrRefused ki (dims gws realLws) (launch env ki gws realLws)) ↔
        HoldsWhen ki (dims gws realLws)) := by
  cases lws with
  | some lws => exact ⟨lws, rfl, hlws lws rfl, launch_exact_of_lws hgws⟩
  | none =>
    obtain ⟨realLws, hreal, hlen⟩ := exists_realLws maxNumOfThread hdim hgws hlimits
    exact ⟨realLws, hreal, hlen, launch_exact_of_lws hgws⟩

/-- A kernel without parameters that needs 4 bytes for private variables. -/
def plainKernel : KernelInfo := ⟨⟨0, 4, 0, []⟩, []⟩

/-- A launch of 12 by 6 work-items without a local size. -/
theorem launch_exact_iff_twelve :
    ∃ realLws, RealLws [4, 64, 64] 8 [12, 6] none realLws ∧ realLws.length = 2 ∧
      ((∀ env, ExactOrRefused plainKernel (dims [12, 6] realLws)
          (launch env plainKernel [12, 6] realLws)) ↔
        HoldsWhen plainKernel (dims [12, 6] realLws)) :=
  launch_exact_iff (by decide) (by simp) (fun l h => absurd h.symm (Option.some_ne_none l))
    (by decide)

/-- A local size of 0, 2^64 groups, and 2^64 + 2 work-items, which count as 2. -/
theorem launch_not_exact :
    ¬(∀ env, ExactOrRefused plainKernel (dims [1] [0]) (launch env plainKernel [1] [0])) ∧
    ¬(∀ env, ExactOrRefused plainKernel (dims [4294967296, 4294967296] [1, 1])
      (launch env plainKernel [4294967296, 4294967296] [1, 1])) ∧
    ¬∀ env, ExactOrRefused plainKernel (dims [3, 6148914691236517206] [1, 1])
      (launch env plainKernel [3, 6148914691236517206] [1, 1]) := by
  refine ⟨fun h => ?_, fun h => ?_, fun h => ?_⟩
  · have hrun : launch .generous plainKernel [1] [0] = .error .divideByZero := by decide
    have hbad := h .generous
    rw [hrun] at hbad
    exact hbad
  · have hrun : launch .generous plainKernel [4294967296, 4294967296] [1, 1] =
        .error .divideByZero := by decide
    have hbad := h .generous
    rw [hrun] at hbad
    exact hbad
  · have hrun : launch .generous plainKernel [3, 6148914691236517206] [1, 1] =
        .ok ⟨2, 2, 1, 8, 8, 0⟩ := by decide
    have hbad := h .generous
    rw [hrun] at hbad
    obtain ⟨nd, hnd, hexact⟩ := hbad
    have hnum := hexact.numOfThread
    rw [Layout.numOfThread, hnd] at hnum
    exact absurd hnum (by decide)

end LaunchSizes
end Clpkm
