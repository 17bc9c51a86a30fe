import Clpkm.Machine
import Clpkm.Runtime.Tables

/-!
# Pointers between the tables

Calls of the application and callbacks in any order.  An entry of the kernel table
points to a profile, so the program that has the profile must stay in its table; a work
points to the entry of a kernel and uses a shadow queue, so both must stay as long as
the work is in flight.

The releases do not look at these pointers.  `profiles_live` and `works_live` say that
the entries stay in runs without a release that takes away what is still used, and
`profile_dangles` and `work_dangles` that OpenCL programs can have others.
-/

namespace Clpkm
namespace Runtime

inductive Label
  /-- The application creates a program; this is left to the vendor. -/
  | createProgram (program : Nat)
  | retainProgram (program : Nat)
  | retainCommandQueue (queue : Nat)
  | createCommandQueue (context device : Nat) (outOfOrder : Bool) (raw : Vendor Nat)
      (shadow : Vendor Unit)
  | releaseCommandQueue (queue : Nat) (info release : Vendor Unit)
  | buildProgram (program : Nat) (info : Vendor Nat)
      (compiled : Option (List (String × KernelProfile))) (create : Vendor Nat)
      (build : Vendor Unit)
  | releaseProgram (program : Nat) (info release : Vendor Unit)
  | createKernel (program : Nat) (name : String) (create : Vendor Nat)
  | retainKernel (kernel : Nat)
  | releaseKernel (kernel : Nat) (release : Vendor Unit)
  | setKernelArg (kernel argIndex argSize : Nat) (argValue : Option Nat)
      (vendor : KernelArgs.Ret)
  | enqueueNDRangeKernel (queue kernel : Nat) (waitListOk : Bool) (create : Vendor Nat)
      (launch : Vendor Unit)
  | callbackCleanup (i : Nat)

def State.step (s : State) : Label → Option State
  | .createProgram p =>
    if s.programRefs p = 0 then some { s with programRefs := Function.update s.programRefs p 1 }
    else none
  | .retainProgram p =>
    some { s with programRefs := Function.update s.programRefs p (s.programRefs p + 1) }
  | .retainCommandQueue q =>
    some { s with queueRefs := Function.update s.queueRefs q (s.queueRefs q + 1) }
  | .createCommandQueue context device outOfOrder raw shadow =>
    (s.createCommandQueue context device outOfOrder raw shadow).map Prod.snd
  | .releaseCommandQueue q info release => some (s.releaseCommandQueue q info release).2
  | .buildProgram p info compiled create build =>
    (s.buildProgram p info compiled create build).map Prod.snd
  | .releaseProgram p info release => some (s.releaseProgram p info release).2
  | .createKernel p name create => (s.createKernel p name create).map Prod.snd
  | .retainKernel k => some (s.retainKernel k).2
  | .releaseKernel k release => some (s.releaseKernel k release).2
  | .setKernelArg k i n v vendor => (s.setKernelArg k i n v vendor).map Prod.snd
  | .enqueueNDRangeKernel q k waitListOk create launch =>
    (s.enqueueNDRangeKernel q k waitListOk create launch).map Prod.snd
  | .callbackCleanup i => s.callbackCleanup i

/-- A low-priority process. -/
def machine : Machine State Label where
  Initial s := s.queueTable = ∅ ∧ s.programTable = ∅ ∧ s.kernelTable = ∅ ∧ s.works = []
  step := State.step

/-! ## What a step does to the tables -/

/-- The effects that a step can have on the tables and on the works in flight. -/
inductive Effect (s t : State) : Label → Prop
  | unchanged {l : Label} (hq : t.queueTable = s.queueTable)
      (hp : t.programTable = s.programTable) (hk : t.kernelTable = s.kernelTable)
      (hw : t.works = s.works) : Effect s t l
  | queueAdded {l : Label} (q : Nat) (qi : QueueInfo) (hnew : s.queueTable.lookup q = none)
      (hq : t.queueTable = s.queueTable.insert q qi) (hp : t.programTable = s.programTable)
      (hk : t.kernelTable = s.kernelTable) (hw : t.works = s.works) : Effect s t l
  | queueErased (q : Nat) (release : Vendor Unit) (hrefs : s.queueRefs q ≤ 1)
      (hq : t.queueTable = s.queueTable.erase q) (hp : t.programTable = s.programTable)
      (hk : t.kernelTable = s.kernelTable) (hw : t.works = s.works) :
      Effect s t (.releaseCommandQueue q (.ok ()) release)
  | programAdded {l : Label} (p : Nat) (pi : ProgramInfo)
      (hnew : s.programTable.lookup p = none) (hq : t.queueTable = s.queueTable)
      (hp : t.programTable = s.programTable.insert p pi) (hk : t.kernelTable = s.kernelTable)
      (hw : t.works = s.works) : Effect s t l
  | programErased (p : Nat) (release : Vendor Unit) (hrefs : s.programRefs p ≤ 1)
      (hq : t.queueTable = s.queueTable) (hp : t.programTable = s.programTable.erase p)
      (hk : t.kernelTable = s.kernelTable) (hw : t.works = s.works) :
      Effect s t (.releaseProgram p (.ok ()) release)
  | kernelAdded {l : Label} (k : Nat) (ki : KernelInfo) (hnew : s.kernelTable.lookup k = none)
      (hprofile : ∃ p pi, s.programTable.lookup p = some pi ∧ pi.entry = ki.profile.entry ∧
        ki.profile.idx < pi.kernelProfileList.length)
      (hq : t.queueTable = s.queueTable) (hp : t.programTable = s.programTable)
      (hk : t.kernelTable = s.kernelTable.insert k ki) (hw : t.works = s.works) : Effect s t l
  | kernelErased (k : Nat) (release : Vendor Unit)
      (hrefs : ∀ ki, s.kernelTable.lookup k = some ki → ki.refCount ≤ 1)
      (hq : t.queueTable = s.queueTable) (hp : t.programTable = s.programTable)
      (hk : t.kernelTable = s.kernelTable.erase k) (hw : t.works = s.works) :
      Effect s t (.releaseKernel k release)
  /-- A record of the kernel table changes, but not what it is and what it points to; works
  that come in point to it. -/
  | kernelUpdated {l : Label} (k : Nat) (ki ki' : KernelInfo)
      (hold : s.kernelTable.lookup k = some ki) (hentry : ki'.entry = ki.entry)
      (hprofile : ki'.profile = ki.profile) (hq : t.queueTable = s.queueTable)
      (hp : t.programTable = s.programTable) (hk : t.kernelTable = s.kernelTable.insert k ki')
      (hw : ∀ w ∈ t.works, w ∈ s.works ∨ (w.kInfo = ki.entry ∧
        ∃ q qi, s.queueTable.lookup q = some qi ∧ qi.entry = w.queue)) : Effect s t l

variable {s t : State}

/-- A record of the kernel table is replaced by one for the same kernel. -/
theorem effect_insert {k : Nat} {ki ki' : KernelInfo} {l : Label}
    (hold : s.kernelTable.lookup k = some ki) (hentry : ki'.entry = ki.entry)
    (hprofile : ki'.profile = ki.profile) :
    Effect s { s with kernelTable := s.kernelTable.insert k ki' } l :=
  .kernelUpdated k ki ki' hold hentry hprofile rfl rfl rfl fun _ hw => Or.inl hw

theorem lookup_eq_none_of_not_isSome {β : Type} {T : AList (fun _ : Nat => β)} {a : Nat}
    (h : ¬(T.lookup a).isSome = true) : T.lookup a = none := by
  simpa using h

theorem effect_createCommandQueue {context device : Nat} {outOfOrder : Bool} {raw : Vendor Nat}
    {shadow : Vendor Unit} {ret : Status} {l : Label}
    (h : s.createCommandQueue context device outOfOrder raw shadow = some (ret, t)) :
    Effect s t l := by
  cases raw with
  | error code =>
    cases h
    exact .unchanged rfl rfl rfl rfl
  | ok queue =>
    cases shadow with
    | error code =>
      cases h
      exact .unchanged rfl rfl rfl rfl
    | ok _ =>
      simp only [State.createCommandQueue] at h
      by_cases hin : (s.queueTable.lookup queue).isSome = true
      · rw [if_pos hin] at h
        cases h
      · rw [if_neg hin] at h
        cases h
        exact .queueAdded queue _ (lookup_eq_none_of_not_isSome hin) rfl rfl rfl rfl

/-- A release of the application's queue leaves the tables. -/
theorem venReleaseCommandQueue_tables (s : State) (q : Nat) (release : Vendor Unit) :
    (s.venReleaseCommandQueue q release).2.queueTable = s.queueTable ∧
      (s.venReleaseCommandQueue q release).2.programTable = s.programTable ∧
      (s.venReleaseCommandQueue q release).2.kernelTable = s.kernelTable ∧
      (s.venReleaseCommandQueue q release).2.works = s.works := by
  cases release with
  | error code | ok _ => exact ⟨rfl, rfl, rfl, rfl⟩

theorem venReleaseProgram_tables (s : State) (p : Nat) (release : Vendor Unit) :
    (s.venReleaseProgram p release).2.queueTable = s.queueTable ∧
      (s.venReleaseProgram p release).2.programTable = s.programTable ∧
      (s.venReleaseProgram p release).2.kernelTable = s.kernelTable ∧
      (s.venReleaseProgram p release).2.works = s.works := by
  cases release with
  | error code | ok _ => exact ⟨rfl, rfl, rfl, rfl⟩

theorem effect_releaseCommandQueue (s : State) (q : Nat) (info release : Vendor Unit) :
    Effect s (s.releaseCommandQueue q info release).2 (.releaseCommandQueue q info release) := by
  unfold State.releaseCommandQueue
  cases s.queueTable.lookup q with
  | none => exact .unchanged rfl rfl rfl rfl
  | some qi =>
    cases info with
    | error code => exact .unchanged rfl rfl rfl rfl
    | ok _ =>
      by_cases hrefs : s.queueRefs q ≤ 1
      · simp only [if_pos hrefs]
        obtain ⟨hq, hp, hk, hw⟩ := venReleaseCommandQueue_tables
          { s with queueTable := s.queueTable.erase q } q release
        exact .queueErased q release hrefs hq hp hk hw
      · simp only [if_neg hrefs]
        obtain ⟨hq, hp, hk, hw⟩ := venReleaseCommandQueue_tables s q release
        exact .unchanged hq hp hk hw

theorem effect_releaseProgram (s : State) (p : Nat) (info release : Vendor Unit) :
    Effect s (s.releaseProgram p info release).2 (.releaseProgram p info release) := by
  obtain ⟨hq, hp, hk, hw⟩ := venReleaseProgram_tables s p release
  unfold State.releaseProgram
  cases s.programTable.lookup p with
  | none => exact .unchanged hq hp hk hw
  | some pi =>
    cases info with
    | error code => exact .unchanged rfl rfl rfl rfl
    | ok _ =>
      by_cases hrefs : s.programRefs p ≤ 1
      · simp only [if_pos hrefs]
        obtain ⟨hq, hp, hk, hw⟩ := venReleaseProgram_tables
          { s with programTable := s.programTable.erase p } p release
        exact .programErased p release hrefs hq hp hk hw
      · simp only [if_neg hrefs]
        exact .unchanged hq hp hk hw

theorem effect_buildProgram {p : Nat} {info : Vendor Nat}
    {compiled : Option (List (String × KernelProfile))} {create : Vendor Nat}
    {build : Vendor Unit} {ret : Status} {l : Label}
    (h : s.buildProgram p info compiled create build = some (ret, t)) : Effect s t l := by
  cases info with
  | error code =>
    cases h
    exact .unchanged rfl rfl rfl rfl
  | ok context =>
    by_cases hin : (s.programTable.lookup p).isSome = true
    · cases compiled with
      | none =>
        simp only [State.buildProgram, if_pos hin] at h
        cases h
      | some pl =>
        cases create with
        | error code =>
          cases h
          exact .unchanged rfl rfl rfl rfl
        | ok shadow =>
          simp only [State.buildProgram, if_pos hin] at h
          cases h
    · have hnew := lookup_eq_none_of_not_isSome hin
      cases compiled with
      | none =>
        simp only [State.buildProgram, if_neg hin] at h
        cases h
        exact .programAdded p _ hnew rfl rfl rfl rfl
      | some pl =>
        cases create with
        | error code =>
          cases h
          exact .unchanged rfl rfl rfl rfl
        | ok shadow =>
          simp only [State.buildProgram, if_neg hin] at h
          cases h
          exact .programAdded p _ hnew rfl rfl rfl rfl

/-- A new kernel points to a profile of the program it is created from. -/
theorem effect_createKernel {p : Nat} {name : String} {create : Vendor Nat} {ret : Status}
    {l : Label} (h : s.createKernel p name create = some (ret, t)) : Effect s t l := by
  unfold State.createKernel at h
  cases hpi : s.programTable.lookup p with
  | none =>
    rw [hpi] at h
    cases h
    exact .unchanged rfl rfl rfl rfl
  | some pi =>
    simp only [hpi] at h
    split at h
    · cases h
      exact .unchanged rfl rfl rfl rfl
    · cases h
      exact .unchanged rfl rfl rfl rfl
    · cases h
      exact .unchanged rfl rfl rfl rfl
    · rename_i shadow idx kernel _ hidx
      by_cases hin : (s.kernelTable.lookup kernel).isSome = true
      · rw [if_pos hin] at h
        cases h
      · rw [if_neg hin] at h
        obtain ⟨entry, hentry, heq⟩ := Option.map_eq_some_iff.mp h
        cases heq
        have hlt : idx < pi.kernelProfileList.length := (List.getElem?_eq_some_iff.mp hentry).1
        exact .kernelAdded kernel _ (lookup_eq_none_of_not_isSome hin) ⟨p, pi, hpi, rfl, hlt⟩
          rfl rfl rfl rfl

theorem effect_retainKernel (s : State) (k : Nat) {l : Label} :
    Effect s (s.retainKernel k).2 l := by
  unfold State.retainKernel
  cases hki : s.kernelTable.lookup k with
  | none => exact .unchanged rfl rfl rfl rfl
  | some ki => exact effect_insert hki rfl rfl

theorem effect_releaseKernel (s : State) (k : Nat) (release : Vendor Unit) :
    Effect s (s.releaseKernel k release).2 (.releaseKernel k release) := by
  unfold State.releaseKernel
  cases hki : s.kernelTable.lookup k with
  | none => exact .unchanged rfl rfl rfl rfl
  | some ki =>
    by_cases hrefs : 0 < ki.refCount - 1
    · simp only [if_pos hrefs]
      exact effect_insert hki rfl rfl
    · simp only [if_neg hrefs]
      refine .kernelErased k release (fun ki' hki' => ?_) rfl rfl rfl rfl
      rw [hki, Option.some.injEq] at hki'
      subst hki'
      omega

theorem effect_setKernelArg {k i n : Nat} {v : Option Nat} {vendor : KernelArgs.Ret}
    {ret : Status} {l : Label} (h : s.setKernelArg k i n v vendor = some (ret, t)) :
    Effect s t l := by
  unfold State.setKernelArg at h
  cases hki : s.kernelTable.lookup k with
  | none =>
    rw [hki] at h
    cases h
    exact .unchanged rfl rfl rfl rfl
  | some ki =>
    simp only [hki] at h
    obtain ⟨entry, _, h⟩ := Option.bind_eq_some_iff.mp h
    obtain ⟨⟨r, info⟩, _, heq⟩ := Option.map_eq_some_iff.mp h
    cases heq
    exact effect_insert hki rfl rfl

/-- A launch that succeeds adds a work for the entry of the kernel and the queue. -/
theorem effect_enqueueWith {q k kernel : Nat} {qi : QueueInfo} {ki : KernelInfo}
    (hqi : s.queueTable.lookup q = some qi) (hki : s.kernelTable.lookup k = some ki)
    (launch : Vendor Unit) {l : Label} :
    Effect s (State.enqueueNDRangeKernel.enqueueWith s k qi ki kernel launch).2 l := by
  cases launch with
  | error code => exact effect_insert hki rfl rfl
  | ok _ =>
    refine .kernelUpdated k ki { ki with pool := ki.pool.dropLast } hki rfl rfl rfl rfl rfl ?_
    intro w hw
    rcases List.mem_append.mp hw with hw | hw
    · exact Or.inl hw
    · rw [List.mem_singleton.mp hw]
      exact Or.inr ⟨rfl, q, qi, hqi, rfl⟩

theorem effect_enqueueNDRangeKernel {q k : Nat} {waitListOk : Bool} {create : Vendor Nat}
    {launch : Vendor Unit} {ret : Status} {l : Label}
    (h : s.enqueueNDRangeKernel q k waitListOk create launch = some (ret, t)) :
    Effect s t l := by
  unfold State.enqueueNDRangeKernel at h
  cases hqi : s.queueTable.lookup q with
  | none =>
    rw [hqi] at h
    cases h
    exact .unchanged rfl rfl rfl rfl
  | some qi =>
    cases hki : s.kernelTable.lookup k with
    | none =>
      rw [hqi, hki] at h
      cases h
      exact .unchanged rfl rfl rfl rfl
    | some ki =>
      simp only [hqi, hki] at h
      by_cases hwait : (!waitListOk) = true
      · rw [if_pos hwait] at h
        cases h
        exact .unchanged rfl rfl rfl rfl
      rw [if_neg hwait] at h
      by_cases hctx : ki.context ≠ qi.context
      · rw [if_pos hctx] at h
        cases h
        exact .unchanged rfl rfl rfl rfl
      rw [if_neg hctx] at h
      obtain ⟨entry, _, heq⟩ := Option.map_eq_some_iff.mp h
      cases hpool : ki.pool.getLast? with
      | none =>
        cases create with
        | error code =>
          rw [hpool] at heq
          cases heq
          exact .unchanged rfl rfl rfl rfl
        | ok kernel =>
          rw [hpool] at heq
          obtain rfl : _ = t := congrArg Prod.snd heq
          exact effect_enqueueWith hqi hki launch
      | some kernel =>
        rw [hpool] at heq
        obtain rfl : _ = t := congrArg Prod.snd heq
        exact effect_enqueueWith hqi hki launch

theorem effect_callbackCleanup {i : Nat} {l : Label} (h : s.callbackCleanup i = some t) :
    Effect s t l := by
  obtain ⟨w, _, h⟩ := Option.bind_eq_some_iff.mp h
  obtain ⟨⟨k, ki⟩, hfind, rfl⟩ := Option.map_eq_some_iff.mp h
  have hmem : (⟨k, ki⟩ : Sigma fun _ : Nat => KernelInfo) ∈ s.kernelTable.entries :=
    List.mem_of_find?_eq_some hfind
  have hki : s.kernelTable.lookup k = some ki :=
    Option.mem_def.mp ((List.mem_dlookup_iff s.kernelTable.nodupKeys).mpr hmem)
  exact .kernelUpdated k ki { ki with pool := ki.pool ++ [w.kernel] } hki rfl rfl rfl rfl rfl
    fun w hw => Or.inl (List.mem_of_mem_eraseIdx hw)

theorem step_effect {l : Label} (h : machine.step s l = some t) : Effect s t l := by
  cases l with
  | createProgram p =>
    simp only [machine, State.step] at h
    by_cases hrefs : s.programRefs p = 0
    · rw [if_pos hrefs] at h
      cases h
      exact .unchanged rfl rfl rfl rfl
    · rw [if_neg hrefs] at h
      cases h
  | retainProgram p =>
    cases h
    exact .unchanged rfl rfl rfl rfl
  | retainCommandQueue q =>
    cases h
    exact .unchanged rfl rfl rfl rfl
  | createCommandQueue context device outOfOrder raw shadow =>
    obtain ⟨⟨ret, _⟩, hcall, rfl⟩ := Option.map_eq_some_iff.mp h
    exact effect_createCommandQueue hcall
  | releaseCommandQueue q info release =>
    cases h
    exact effect_releaseCommandQueue s q info release
  | buildProgram p info compiled create build =>
    obtain ⟨⟨ret, _⟩, hcall, rfl⟩ := Option.map_eq_some_iff.mp h
    exact effect_buildProgram hcall
  | releaseProgram p info release =>
    cases h
    exact effect_releaseProgram s p info release
  | createKernel p name create =>
    obtain ⟨⟨ret, _⟩, hcall, rfl⟩ := Option.map_eq_some_iff.mp h
    exact effect_createKernel hcall
  | retainKernel k =>
    cases h
    exact effect_retainKernel s k
  | releaseKernel k release =>
    cases h
    exact effect_releaseKernel s k release
  | setKernelArg k i n v vendor =>
    obtain ⟨⟨ret, _⟩, hcall, rfl⟩ := Option.map_eq_some_iff.mp h
    exact effect_setKernelArg hcall
  | enqueueNDRangeKernel q k waitListOk create launch =>
    obtain ⟨⟨ret, _⟩, hcall, rfl⟩ := Option.map_eq_some_iff.mp h
    exact effect_enqueueNDRangeKernel hcall
  | callbackCleanup i => exact effect_callbackCleanup h

/-! ## A run -/

def start : State := ⟨∅, ∅, ∅, [], fun _ => 0, fun _ => 0, 0⟩

/-- The application builds a program, creates a kernel of it and launches it once. -/
def launchOnce : List Label :=
  [.createCommandQueue 1 1 false (.ok 10) (.ok ()), .createProgram 20,
    .buildProgram 20 (.ok 1) (some [("f", ⟨0, 0, 0, []⟩)]) (.ok 21) (.ok ()),
    .createKernel 20 "f" (.ok 30), .enqueueNDRangeKernel 10 30 true (.ok 31) (.ok ())]

def launched : State := (machine.run start launchOnce).get (by decide)

theorem run_launchOnce : machine.run start launchOnce = some launched := (Option.some_get _).symm

theorem start_initial : machine.Initial start := ⟨rfl, rfl, rfl, rfl⟩

/-- Nothing is released in the run. -/
theorem not_release_of_mem {l : Label} (h : l ∈ launchOnce) :
    (∀ p info release, l ≠ .releaseProgram p info release) ∧
      (∀ k release, l ≠ .releaseKernel k release) ∧
      ∀ q info release, l ≠ .releaseCommandQueue q info release := by
  simp only [launchOnce, List.mem_cons, List.not_mem_nil, or_false] at h
  rcases h with rfl | rfl | rfl | rfl | rfl <;> simp

/-! ## Kernels and their programs -/

/-- The entry of the program table that has the profile is present. -/
def ProfileLive (s : State) (ptr : ProfilePtr) : Prop :=
  Table.Has (fun pi => pi.entry = ptr.entry ∧ ptr.idx < pi.kernelProfileList.length)
    s.programTable

/-- No entry of the kernel table outlives what it points to. -/
def ProfilesLive (s : State) : Prop :=
  Table.All (fun ki => ProfileLive s ki.profile) s.kernelTable

/-- A call of `clReleaseProgram` that drops the last reference to a program is made when no
entry of the kernel table points to one of its profiles. -/
def KeepsProfiles (s : State) (l : Label) : Prop :=
  ∀ p release, l = .releaseProgram p (.ok ()) release → s.programRefs p ≤ 1 →
    ∀ pi, s.programTable.lookup p = some pi →
      Table.All (fun ki => ki.profile.entry ≠ pi.entry) s.kernelTable

theorem ProfilesLive.effect {l : Label} (h : ProfilesLive s) (hc : KeepsProfiles s l)
    (he : Effect s t l) : ProfilesLive t := by
  unfold ProfilesLive ProfileLive at *
  cases he with
  | unchanged _ hp hk _ | queueAdded _ _ _ _ hp hk _ | queueErased _ _ _ _ hp hk _ =>
    rw [hp, hk]
    exact h
  | programAdded p pi hnew _ hp hk _ =>
    rw [hp, hk]
    exact h.mono fun ki hki => hki.insert hnew
  | programErased p release hrefs _ hp hk _ =>
    rw [hp, hk]
    intro k ki hki
    refine (h k ki hki).erase fun pi hpi heq => ?_
    exact hc p release rfl hrefs pi hpi k ki hki heq.1.symm
  | kernelAdded k ki _ hprofile _ hp hk _ =>
    rw [hp, hk]
    exact h.insert hprofile
  | kernelErased k release _ _ hp hk _ =>
    rw [hp, hk]
    exact h.erase
  | kernelUpdated k ki ki' hold _ hprofile _ hp hk _ =>
    rw [hp, hk]
    apply h.insert
    rw [hprofile]
    exact h k ki hold

/-- **Kernel entries never outlive what they point to**, in every run in which no release of a
program drops the last reference while a kernel of it is in the table. -/
theorem profiles_live (s : State) (hs : machine.ReachableBy KeepsProfiles s) :
    ProfilesLive s := by
  refine hs.invariant (fun s h0 => ?_) fun s l t hi hc h => hi.effect hc (step_effect h)
  obtain ⟨_, _, hk, _⟩ := h0
  unfold ProfilesLive
  rw [hk]
  intro k ki hki
  cases hki

theorem launched_keepsProfiles : machine.ReachableBy KeepsProfiles launched := by
  refine Machine.ReachableBy.run (.initial start_initial) (fun l hl u p release heq => ?_)
    run_launchOnce
  exact absurd heq ((not_release_of_mem hl).1 p _ release)

/-- The application retains and releases the program while its kernel is in the table. -/
theorem profiles_live_retained :
    ∃ s, machine.run launched [.retainProgram 20, .releaseProgram 20 (.ok ()) (.ok ())] = some s ∧
      (s.kernelTable.lookup 30).map KernelInfo.profile = some ⟨1, 0⟩ ∧ ProfilesLive s := by
  have h₁ := launched_keepsProfiles.step (l := .retainProgram 20)
    (fun _ _ heq => nomatch heq) rfl
  have h₂ := h₁.step (l := .releaseProgram 20 (.ok ()) (.ok ()))
    (fun p release heq hrefs => by
      cases heq
      exact absurd hrefs (by decide)) rfl
  exact ⟨_, rfl, by decide, profiles_live _ h₂⟩

/-- **A kernel can outlive its program**: the application releases the program after it has
created the kernel. -/
theorem profile_dangles :
    ∃ s, machine.Reachable s ∧
      machine.run launched [.releaseProgram 20 (.ok ()) (.ok ())] = some s ∧ ¬ProfilesLive s := by
  let s := (machine.run launched [.releaseProgram 20 (.ok ()) (.ok ())]).get (by decide)
  have hrun : machine.run launched [.releaseProgram 20 (.ok ()) (.ok ())] = some s :=
    (Option.some_get _).symm
  have hs : machine.Reachable s := launched_keepsProfiles.reachable.run hrun
  refine ⟨s, hs, hrun, fun hlive => ?_⟩
  obtain ⟨ki, hki⟩ : ∃ ki, s.kernelTable.lookup 30 = some ki :=
    Option.isSome_iff_exists.mp (by decide)
  obtain ⟨p, pi, hpi, _⟩ := hlive 30 ki hki
  have hempty : s.programTable = ∅ := AList.ext (by decide)
  rw [hempty, AList.lookup_empty] at hpi
  cases hpi

/-! ## Works and what they use -/

/-- The entry that the work points to is present, and so is the one that owns its shadow
queue. -/
def WorkLive (s : State) (w : Work) : Prop :=
  Table.Has (fun ki => ki.entry = w.kInfo) s.kernelTable ∧
    Table.Has (fun qi => qi.entry = w.queue) s.queueTable

/-- No work in flight outlives its kernel entry or its shadow queue. -/
def WorksLive (s : State) : Prop := ∀ w ∈ s.works, WorkLive s w

/-- A call that drops the last reference to a kernel or a queue is made when no work in flight
uses it. -/
def KeepsWorks (s : State) (l : Label) : Prop :=
  (∀ k release, l = .releaseKernel k release → ∀ ki, s.kernelTable.lookup k = some ki →
      ki.refCount ≤ 1 → ∀ w ∈ s.works, w.kInfo ≠ ki.entry) ∧
    ∀ q release, l = .releaseCommandQueue q (.ok ()) release → s.queueRefs q ≤ 1 →
      ∀ qi, s.queueTable.lookup q = some qi → ∀ w ∈ s.works, w.queue ≠ qi.entry

theorem WorksLive.effect {l : Label} (h : WorksLive s) (hc : KeepsWorks s l)
    (he : Effect s t l) : WorksLive t := by
  unfold WorksLive WorkLive at *
  cases he with
  | unchanged hq _ hk hw | programAdded _ _ _ hq _ hk hw | programErased _ _ _ hq _ hk hw =>
    rw [hq, hk, hw]
    exact h
  | queueAdded q qi hnew hq _ hk hw =>
    rw [hq, hk, hw]
    exact fun w hmem => ⟨(h w hmem).1, (h w hmem).2.insert hnew⟩
  | queueErased q release hrefs hq _ hk hw =>
    rw [hq, hk, hw]
    intro w hmem
    obtain ⟨hkernel, hqueue⟩ := h w hmem
    refine ⟨hkernel, hqueue.erase fun qi hqi heq => ?_⟩
    exact hc.2 q release rfl hrefs qi hqi w hmem heq.symm
  | kernelAdded k ki hnew _ hq _ hk hw =>
    rw [hq, hk, hw]
    exact fun w hmem => ⟨(h w hmem).1.insert hnew, (h w hmem).2⟩
  | kernelErased k release hrefs hq _ hk hw =>
    rw [hq, hk, hw]
    intro w hmem
    obtain ⟨hkernel, hqueue⟩ := h w hmem
    refine ⟨hkernel.erase fun ki hki heq => ?_, hqueue⟩
    exact hc.1 k release rfl ki hki (hrefs ki hki) w hmem heq.symm
  | kernelUpdated k ki ki' hold hentry _ hq _ hk hw =>
    rw [hq, hk]
    intro w hmem
    rcases hw w hmem with hmem | ⟨hkInfo, hqueue⟩
    · obtain ⟨hkernel, hqueue⟩ := h w hmem
      exact ⟨hkernel.update hold hentry.trans, hqueue⟩
    · exact ⟨⟨k, ki', AList.lookup_insert _, hentry.trans hkInfo.symm⟩, hqueue⟩

/-- **Work in flight never outlives its kernel entry or its shadow queue**, in every run in
which no release of a kernel or a queue drops the last reference while a work uses it. -/
theorem works_live (s : State) (hs : machine.ReachableBy KeepsWorks s) : WorksLive s := by
  refine hs.invariant (fun s h0 => ?_) fun s l t hi hc h => hi.effect hc (step_effect h)
  obtain ⟨_, _, _, hw⟩ := h0
  unfold WorksLive
  rw [hw]
  intro w hmem
  cases hmem

theorem launched_keepsWorks : machine.ReachableBy KeepsWorks launched := by
  refine Machine.ReachableBy.run (.initial start_initial) (fun l hl u => ?_) run_launchOnce
  obtain ⟨_, hkernel, hqueue⟩ := not_release_of_mem hl
  exact ⟨fun k release heq => absurd heq (hkernel k release),
    fun q release heq => absurd heq (hqueue q _ release)⟩

/-- The application retains and releases the kernel while its work is in flight. -/
theorem works_live_retained :
    ∃ s, machine.run launched [.retainKernel 30, .releaseKernel 30 (.ok ())] = some s ∧
      s.works = [⟨0, 31, 2⟩] ∧ WorksLive s := by
  have h₁ := launched_keepsWorks.step (l := .retainKernel 30)
    ⟨(fun _ _ heq => nomatch heq), fun _ _ heq => nomatch heq⟩ rfl
  have h₂ := h₁.step (l := .releaseKernel 30 (.ok ()))
    ⟨(fun k release heq ki hki hrefs => by
      cases heq
      cases hki
      exact absurd hrefs (by decide)), fun _ _ heq => nomatch heq⟩ rfl
  exact ⟨_, rfl, by decide, works_live _ h₂⟩

/-- **A work can outlive what it uses**: the application releases the kernel, or the queue,
after it has launched the work. -/
theorem work_dangles :
    (∃ s, machine.Reachable s ∧
      machine.run launched [.releaseKernel 30 (.ok ())] = some s ∧ ¬WorksLive s) ∧
    ∃ s, machine.Reachable s ∧
      machine.run launched [.releaseCommandQueue 10 (.ok ()) (.ok ())] = some s ∧
      ¬WorksLive s := by
  have hlaunched := launched_keepsWorks.reachable
  constructor
  · let s := (machine.run launched [.releaseKernel 30 (.ok ())]).get (by decide)
    have hrun : machine.run launched [.releaseKernel 30 (.ok ())] = some s :=
      (Option.some_get _).symm
    refine ⟨s, hlaunched.run hrun, hrun, fun hlive => ?_⟩
    obtain ⟨k, ki, hki, _⟩ := (hlive ⟨0, 31, 2⟩ (by decide)).1
    have hempty : s.kernelTable = ∅ := AList.ext (by decide)
    rw [hempty, AList.lookup_empty] at hki
    cases hki
  · let s := (machine.run launched [.releaseCommandQueue 10 (.ok ()) (.ok ())]).get (by decide)
    have hrun : machine.run launched [.releaseCommandQueue 10 (.ok ()) (.ok ())] = some s :=
      (Option.some_get _).symm
    refine ⟨s, hlaunched.run hrun, hrun, fun hlive => ?_⟩
    obtain ⟨q, qi, hqi, _⟩ := (hlive ⟨0, 31, 2⟩ (by decide)).2
    have hempty : s.queueTable = ∅ := AList.ext (by decide)
    rw [hempty, AList.lookup_empty] at hqi
    cases hqi

end Runtime
end Clpkm
