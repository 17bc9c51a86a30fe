import Clpkm.Machine
import Clpkm.SharedCopy
import Mathlib.Data.List.TakeDrop
import Mathlib.Logic.Function.Basic

/-!
# The code cache of the compiler driver

Any number of runs of `clpkm.sh` share a directory.  The name of a cache file is made of
the checksums of the preprocessed source and of the options, which are the `Key` of a
run, as no two of them collide.  A run looks for the two files of its key and emits them
with `cat` if both exist; otherwise it compiles, copies its results to the two files with
`cp` and emits its own.  The steps are the file operations: `cp` truncates its target
before it writes it piece by piece, and `cat` reads piece by piece up to the end of the
file.  The stages are a function of the key, which fails or yields the instrumented code
and the kernel profile.

A file exists from the moment it is opened for writing.  So a run may emit a file that is
not complete yet, or that another run has just truncated (`not_transparent_truncated`).
Where no run reads a file while another one copies to it, every run that succeeds emits
what the stages produce (`transparent`).
-/

namespace Clpkm
namespace Compiler
namespace Cache

/-- The two files of a cache entry. -/
inductive Ext
  | cl
  | yaml
  deriving DecidableEq, Repr

/-- What a run does next. -/
inductive Pc
  /-- `[ -f "$CACHE_BASE".cl ] && [ -f "$CACHE_BASE".yaml ]` -/
  | lookup (e : Ext)
  /-- read a cached file from this offset on -/
  | cat (e : Ext) (off : Nat)
  | compile
  /-- `cp` opens its target -/
  | openTarget (e : Ext)
  /-- `cp` has written its target up to this offset -/
  | copy (e : Ext) (off : Nat)
  /-- emit the results of this run -/
  | emit
  /-- the run has ended; whether it succeeded -/
  | ended (ok : Bool)
  deriving DecidableEq, Repr

/-- A run of the driver and what it has emitted. -/
structure Run where
  pc : Pc
  stdout : List UInt8
  stderr : List UInt8
  deriving DecidableEq, Repr

/-- The cache files and the runs. -/
structure State (R Key : Type) where
  file : Key → Ext → Option (List UInt8)
  run : R → Run

/-- What the runs are about. -/
structure Driver (R Key : Type) where
  toolkit : List UInt8
  /-- the preprocessed source and the options of a run -/
  key : R → Key
  /-- the instrumented code and the kernel profile, `none` if a stage fails -/
  stages : Key → Option (List UInt8 × List UInt8)

/-- The file of a result. -/
def select : Ext → List UInt8 × List UInt8 → List UInt8
  | .cl, r => r.1
  | .yaml, r => r.2

/-- `cat` writes the code to stdout and the profile to stderr. -/
def Run.print (r : Run) (e : Ext) (piece : List UInt8) : Run :=
  match e with
  | .cl => { r with stdout := r.stdout ++ piece }
  | .yaml => { r with stderr := r.stderr ++ piece }

variable {R Key : Type} [DecidableEq R] [DecidableEq Key]

def State.setRun (s : State R Key) (i : R) (r : Run) : State R Key :=
  { s with run := Function.update s.run i r }

def State.setFile (s : State R Key) (k : Key) (e : Ext) (f : List UInt8) : State R Key :=
  { s with file := Function.update s.file k (Function.update (s.file k) e (some f)) }

/-- The next step of a run; `n` bounds the piece it reads or writes. -/
def Driver.step (d : Driver R Key) (s : State R Key) (i : R) (n : Nat) : Option (State R Key) :=
  let k := d.key i
  let r := s.run i
  match r.pc with
  | .lookup .cl =>
    some (s.setRun i { r with
      pc := if (s.file k .cl).isSome then .lookup .yaml else .compile })
  | .lookup .yaml =>
    some (s.setRun i (if (s.file k .yaml).isSome then
      { r with pc := .cat .cl 0, stdout := r.stdout ++ d.toolkit } else { r with pc := .compile }))
  | .cat e off =>
    (s.file k e).bind fun f =>
      if off < f.length then
        if n = 0 then none
        else
          let piece := (f.drop off).take n
          some (s.setRun i { r.print e piece with pc := .cat e (off + piece.length) })
      else
        some (s.setRun i { r with
          pc := match e with
            | .cl => .cat .yaml 0
            | .yaml => .ended true })
  | .compile =>
    some (s.setRun i { r with
      pc := if (d.stages k).isSome then .openTarget .cl else .ended false })
  | .openTarget e => some ((s.setFile k e []).setRun i { r with pc := .copy e 0 })
  | .copy e off =>
    (d.stages k).bind fun result =>
      (s.file k e).bind fun f =>
        let text := select e result
        if off < text.length then
          if n = 0 then none
          else
            let piece := (text.drop off).take n
            some ((s.setFile k e (writeAt 0 f off piece)).setRun i
              { r with pc := .copy e (off + piece.length) })
        else
          some (s.setRun i { r with
            pc := match e with
              | .cl => .openTarget .yaml
              | .yaml => .emit })
  | .emit =>
    (d.stages k).map fun result =>
      s.setRun i ⟨.ended true, r.stdout ++ (d.toolkit ++ result.1), r.stderr ++ result.2⟩
  | .ended _ => none

/-- The runs start with a cache that earlier runs have left. -/
def Driver.machine (d : Driver R Key) : Machine (State R Key) (R × Nat) where
  Initial s := (∀ i, s.run i = ⟨.lookup .cl, [], []⟩) ∧
    ∀ k e f, s.file k e = some f → ∃ result, d.stages k = some result ∧ f = select e result
  step s l := d.step s l.1 l.2

/-- Every run that succeeded has emitted the toolkit with the instrumented code and the
kernel profile of its own source and options. -/
def Driver.Transparent (d : Driver R Key) (s : State R Key) : Prop :=
  ∀ i, (s.run i).pc = .ended true → ∃ code profile, d.stages (d.key i) = some (code, profile) ∧
    (s.run i).stdout = d.toolkit ++ code ∧ (s.run i).stderr = profile

/-- The step is not a read of a cache file that another run is copying to. -/
def Driver.Undisturbed (d : Driver R Key) (s : State R Key) (l : R × Nat) : Prop :=
  ∀ e off, (s.run l.1).pc = .cat e off →
    ∀ j, d.key j = d.key l.1 → ∀ o, (s.run j).pc ≠ .copy e o

/-! ## The invariant -/

/-- A run is copying to this file and has got to this offset. -/
def Driver.Busy (d : Driver R Key) (run : R → Run) (k : Key) (e : Ext) (off : Nat) : Prop :=
  ∃ j, d.key j = k ∧ (run j).pc = .copy e off

/-- How far a run has got, for a run with these results and these files of its key. -/
def RunOk (toolkit : List UInt8) (result : Option (List UInt8 × List UInt8))
    (file : Ext → Option (List UInt8)) (r : Run) : Prop :=
  match r.pc with
  | .lookup .cl | .compile => r.stdout = [] ∧ r.stderr = []
  | .lookup .yaml => (file .cl).isSome ∧ r.stdout = [] ∧ r.stderr = []
  | .cat .cl off => (file .yaml).isSome ∧ ∃ code profile, result = some (code, profile) ∧
      off ≤ code.length ∧ r.stdout = toolkit ++ code.take off ∧ r.stderr = []
  | .cat .yaml off => ∃ code profile, result = some (code, profile) ∧
      off ≤ profile.length ∧ r.stdout = toolkit ++ code ∧ r.stderr = profile.take off
  | .openTarget _ | .emit => result.isSome ∧ r.stdout = [] ∧ r.stderr = []
  | .copy e off => (∀ x, result = some x → off ≤ (select e x).length) ∧
      result.isSome ∧ r.stdout = [] ∧ r.stderr = []
  | .ended true => ∃ code profile, result = some (code, profile) ∧
      r.stdout = toolkit ++ code ∧ r.stderr = profile
  | .ended false => True

/-- What holds in every state. -/
structure Inv (d : Driver R Key) (s : State R Key) : Prop where
  file : ∀ k e f, s.file k e = some f → ∃ result, d.stages k = some result ∧
    Copied (select e result) f (d.Busy s.run k e)
  run : ∀ i, RunOk d.toolkit (d.stages (d.key i)) (s.file (d.key i)) (s.run i)

section step
variable {d : Driver R Key} {s t : State R Key} {i : R} {r : Run} {k : Key} {e : Ext}

theorem RunOk.mono {toolkit : List UInt8} {result : Option (List UInt8 × List UInt8)}
    {file file' : Ext → Option (List UInt8)} (h : RunOk toolkit result file r)
    (hfile : ∀ e, (file e).isSome → (file' e).isSome) : RunOk toolkit result file' r := by
  unfold RunOk at h ⊢
  split at h
  · exact h
  · exact h
  · exact ⟨hfile _ h.1, h.2⟩
  · exact ⟨hfile _ h.1, h.2⟩
  · exact h
  · exact h
  · exact h
  · exact h
  · exact h
  · trivial

omit [DecidableEq Key] in
/-- A run that is copying goes on with it or has just moved. -/
theorem busy_update {off : Nat} (r : Run) (h : d.Busy s.run k e off) :
    (d.key i = k ∧ (s.run i).pc = .copy e off) ∨ d.Busy (Function.update s.run i r) k e off := by
  obtain ⟨j, hj, hpc⟩ := h
  by_cases hji : j = i
  · subst hji
    exact .inl ⟨hj, hpc⟩
  · refine .inr ⟨j, hj, ?_⟩
    rw [Function.update_of_ne hji]
    exact hpc

omit [DecidableEq Key] in
theorem busy_self {off : Nat} (hpc : r.pc = .copy e off) :
    d.Busy (Function.update s.run i r) (d.key i) e off := by
  refine ⟨i, rfl, ?_⟩
  rw [Function.update_self]
  exact hpc

omit [DecidableEq Key] in
/-- A run moves and leaves the files alone. -/
theorem Inv.setRun (h : Inv d s)
    (hr : RunOk d.toolkit (d.stages (d.key i)) (s.file (d.key i)) r)
    (hdone : ∀ e off result, (s.run i).pc = .copy e off → d.stages (d.key i) = some result →
      (select e result).length ≤ off) : Inv d (s.setRun i r) := by
  refine ⟨fun k e f hf => ?_, fun j => ?_⟩
  · obtain ⟨result, hresult, hcopied⟩ := h.file k e f hf
    refine ⟨result, hresult, hcopied.mono fun off hoff hbusy => ?_⟩
    rcases busy_update (i := i) r hbusy with ⟨rfl, hpc⟩ | hbusy
    · exact absurd (hdone e off result hpc hresult) (Nat.not_le.mpr hoff)
    · exact hbusy
  · show RunOk _ _ _ (Function.update s.run i r j)
    by_cases hj : j = i
    · rw [hj, Function.update_self]
      exact hr
    · rw [Function.update_of_ne hj]
      exact h.run j

/-- A run moves and has written to a file of its key. -/
theorem Inv.setFile {f : List UInt8} (h : Inv d s)
    (hr : RunOk d.toolkit (d.stages (d.key i)) (s.file (d.key i)) r)
    (hsame : ∀ e' off, (s.run i).pc = .copy e' off → e' = e)
    (hcopied : ∃ result, d.stages (d.key i) = some result ∧
      Copied (select e result) f (d.Busy (Function.update s.run i r) (d.key i) e)) :
    Inv d ((s.setFile (d.key i) e f).setRun i r) := by
  have hfile : ∀ k e', (s.file k e').isSome → ((s.setFile (d.key i) e f).file k e').isSome := by
    intro k e' hk
    show (Function.update s.file (d.key i) (Function.update (s.file (d.key i)) e (some f)) k
      e').isSome
    by_cases hki : k = d.key i
    · subst hki
      rw [Function.update_self]
      by_cases he : e' = e
      · rw [he, Function.update_self]
        rfl
      · rw [Function.update_of_ne he]
        exact hk
    · rw [Function.update_of_ne hki]
      exact hk
  refine ⟨fun k e' f' hf => ?_, fun j => ?_⟩
  · change Function.update s.file (d.key i) (Function.update (s.file (d.key i)) e (some f)) k e' =
      some f' at hf
    -- only one file changes
    by_cases hke : k = d.key i ∧ e' = e
    · obtain ⟨rfl, rfl⟩ := hke
      rw [Function.update_self, Function.update_self] at hf
      cases hf
      exact hcopied
    · have hold : s.file k e' = some f' := by
        by_cases hki : k = d.key i
        · subst hki
          rw [Function.update_self, Function.update_of_ne fun he => hke ⟨rfl, he⟩] at hf
          exact hf
        · rw [Function.update_of_ne hki] at hf
          exact hf
      obtain ⟨result, hresult, hcopied⟩ := h.file k e' f' hold
      refine ⟨result, hresult, hcopied.mono fun off _ hbusy => ?_⟩
      rcases busy_update (i := i) r hbusy with ⟨hk, hpc⟩ | hbusy
      · exact absurd ⟨hk.symm, hsame e' off hpc⟩ hke
      · exact hbusy
  · show RunOk _ _ _ (Function.update s.run i r j)
    by_cases hj : j = i
    · rw [hj, Function.update_self]
      exact hr.mono (hfile _)
    · rw [Function.update_of_ne hj]
      exact (h.run j).mono (hfile _)

omit [DecidableEq R] [DecidableEq Key] in
/-- A file that nobody is copying to is whole. -/
theorem Inv.whole {f : List UInt8} (h : Inv d s) (hf : s.file k e = some f)
    (hidle : ∀ off, ¬d.Busy s.run k e off) {result : List UInt8 × List UInt8}
    (hresult : d.stages k = some result) : f = select e result := by
  obtain ⟨result', hresult', hcopied⟩ := h.file k e f hf
  cases hresult.symm.trans hresult'
  exact hcopied.eq hidle

omit [DecidableEq Key] in
/-- A run that copies to no file moves. -/
theorem Inv.move (h : Inv d s) (hpc : ∀ e off, (s.run i).pc ≠ .copy e off)
    (hr : RunOk d.toolkit (d.stages (d.key i)) (s.file (d.key i)) r) : Inv d (s.setRun i r) :=
  h.setRun hr fun e off _ hcopy => absurd hcopy (hpc e off)

theorem Inv.lookup {n : Nat} (h : Inv d s) (hpc : (s.run i).pc = .lookup e)
    (hs : d.step s i n = some t) : Inv d t := by
  have hrun := h.run i
  have hmove : ∀ e' off, (s.run i).pc ≠ .copy e' off := fun _ _ hcopy => by
    cases hpc.symm.trans hcopy
  unfold Driver.step at hs
  unfold RunOk at hrun
  rw [hpc] at hrun
  simp only [hpc] at hs
  cases e with
  | cl =>
    cases hs
    apply h.move hmove
    by_cases hf : (s.file (d.key i) .cl).isSome
    · simp only [if_pos hf]
      exact ⟨hf, hrun⟩
    · simp only [if_neg hf]
      exact hrun
  | yaml =>
    cases hs
    apply h.move hmove
    by_cases hf : (s.file (d.key i) .yaml).isSome
    · obtain ⟨hcl, hout, herr⟩ := hrun
      obtain ⟨f, hcl⟩ := Option.isSome_iff_exists.mp hcl
      obtain ⟨⟨code, profile⟩, hresult, _⟩ := h.file _ _ _ hcl
      rw [if_pos hf]
      refine ⟨hf, code, profile, hresult, Nat.zero_le _, ?_, herr⟩
      show (s.run i).stdout ++ d.toolkit = d.toolkit ++ []
      rw [hout, List.append_nil, List.nil_append]
    · rw [if_neg hf]
      exact hrun.2

/-- A run reads a cache file that nobody is copying to. -/
theorem Inv.cat {n off : Nat} (h : Inv d s) (hpc : (s.run i).pc = .cat e off)
    (hidle : ∀ off', ¬d.Busy s.run (d.key i) e off') (hs : d.step s i n = some t) :
    Inv d t := by
  have hrun := h.run i
  have hmove : ∀ e' off, (s.run i).pc ≠ .copy e' off := fun _ _ hcopy => by
    cases hpc.symm.trans hcopy
  unfold Driver.step at hs
  unfold RunOk at hrun
  rw [hpc] at hrun
  simp only [hpc] at hs
  obtain ⟨f, hf, hs⟩ := Option.bind_eq_some_iff.mp hs
  have hpiece (hlt : off < f.length) : off + ((f.drop off).take n).length ≤ f.length := by
    rw [List.length_take, List.length_drop]
    omega
  cases e with
  | cl =>
    obtain ⟨hyaml, code, profile, hresult, hoff, hout, herr⟩ := hrun
    -- the file is whole, as nobody is copying to it
    obtain rfl : f = code := h.whole hf hidle hresult
    split at hs
    · next hlt =>
      split at hs
      · cases hs
      · cases hs
        apply h.move hmove
        refine ⟨hyaml, f, profile, hresult, hpiece hlt, ?_, herr⟩
        show (s.run i).stdout ++ (f.drop off).take n = _
        rw [hout, List.append_assoc, ← take_add_piece]
    · next hend =>
      cases hs
      apply h.move hmove
      refine ⟨f, profile, hresult, Nat.zero_le _, ?_, herr⟩
      rw [hout, List.take_of_length_le (Nat.le_of_not_lt hend)]
  | yaml =>
    obtain ⟨code, profile, hresult, hoff, hout, herr⟩ := hrun
    obtain rfl : f = profile := h.whole hf hidle hresult
    split at hs
    · next hlt =>
      split at hs
      · cases hs
      · cases hs
        apply h.move hmove
        refine ⟨code, f, hresult, hpiece hlt, hout, ?_⟩
        show (s.run i).stderr ++ (f.drop off).take n = _
        rw [herr, ← take_add_piece]
    · next hend =>
      cases hs
      apply h.move hmove
      refine ⟨code, f, hresult, hout, ?_⟩
      rw [herr, List.take_of_length_le (Nat.le_of_not_lt hend)]

/-- A run writes a piece, or has written all of its result. -/
theorem Inv.copy {n off : Nat} (h : Inv d s) (hpc : (s.run i).pc = .copy e off)
    (hs : d.step s i n = some t) : Inv d t := by
  have hrun := h.run i
  unfold Driver.step at hs
  unfold RunOk at hrun
  rw [hpc] at hrun
  simp only [hpc] at hs
  obtain ⟨result, hresult, hs⟩ := Option.bind_eq_some_iff.mp hs
  obtain ⟨f, hf, hs⟩ := Option.bind_eq_some_iff.mp hs
  have hoff := hrun.1 result hresult
  obtain ⟨result', hresult', hcopied⟩ := h.file _ _ _ hf
  cases hresult.symm.trans hresult'
  split at hs
  · split at hs
    · cases hs
    · cases hs
      refine h.setFile ⟨fun x hx => ?_, hrun.2⟩
        (fun e' off' hp => by cases hpc.symm.trans hp; rfl)
        ⟨result, hresult, hcopied.write 0 n (busy_self rfl) (fun o hb => ?_) hoff⟩
      -- the offset stays in the text
      · cases hresult.symm.trans hx
        rw [List.length_take, List.length_drop]
        omega
      · refine (busy_update _ hb).imp_left fun hpc' => ?_
        cases hpc.symm.trans hpc'.2
        rfl
  · next hend =>
    cases hs
    refine h.setRun ?_ fun e' off' result' hp hr => ?_
    · cases e with
      | cl => exact hrun.2
      | yaml => exact hrun.2
    · cases hpc.symm.trans hp
      cases hresult.symm.trans hr
      exact Nat.le_of_not_lt hend

theorem Inv.step {n : Nat} (h : Inv d s) (hc : d.Undisturbed s (i, n))
    (hs : d.step s i n = some t) : Inv d t := by
  have hrun := h.run i
  unfold RunOk at hrun
  cases hpc : (s.run i).pc with
  | lookup e => exact h.lookup hpc hs
  | cat e off =>
    apply h.cat hpc _ hs
    rintro off' ⟨j, hj, hcopy⟩
    exact hc e off hpc j hj off' hcopy
  | compile =>
    rw [hpc] at hrun
    simp only [Driver.step, hpc] at hs
    cases hs
    apply h.move fun _ _ hcopy => by cases hpc.symm.trans hcopy
    by_cases hstages : (d.stages (d.key i)).isSome
    · simp only [if_pos hstages]
      exact ⟨hstages, hrun⟩
    · simp only [if_neg hstages]
      trivial
  | openTarget e =>
    rw [hpc] at hrun
    simp only [Driver.step, hpc] at hs
    cases hs
    obtain ⟨result, hresult⟩ := Option.isSome_iff_exists.mp hrun.1
    exact h.setFile ⟨fun _ _ => Nat.zero_le _, hrun⟩
      (fun e' off hp => by cases hpc.symm.trans hp)
      ⟨result, hresult, Copied.truncate _ (busy_self rfl)⟩
  | copy e off => exact h.copy hpc hs
  | emit =>
    rw [hpc] at hrun
    simp only [Driver.step, hpc] at hs
    obtain ⟨⟨code, profile⟩, hresult, rfl⟩ := Option.map_eq_some_iff.mp hs
    obtain ⟨_, hout, herr⟩ := hrun
    apply h.move fun _ _ hcopy => by cases hpc.symm.trans hcopy
    refine ⟨code, profile, hresult, ?_, ?_⟩
    · show (s.run i).stdout ++ (d.toolkit ++ code) = _
      rw [hout, List.nil_append]
    · show (s.run i).stderr ++ profile = _
      rw [herr, List.nil_append]
  | ended ok =>
    simp only [Driver.step, hpc] at hs
    cases hs

end step

/-- The invariant holds where no run reads a file that another one is copying to. -/
theorem inv_of_reachableBy {d : Driver R Key} {s : State R Key}
    (hs : d.machine.ReachableBy d.Undisturbed s) : Inv d s := by
  apply hs.invariant
  · rintro s ⟨hrun, hfile⟩
    refine ⟨fun k e f hf => ?_, fun i => ?_⟩
    · obtain ⟨result, hresult, rfl⟩ := hfile k e f hf
      exact ⟨result, hresult, Copied.whole _ _⟩
    · rw [hrun i]
      exact ⟨rfl, rfl⟩
  · rintro s ⟨i, n⟩ t h hc hs
    exact h.step hc hs

/-- **The cache is transparent** in runs in which no cache file is read while another run
copies to it. -/
theorem transparent (d : Driver R Key) {s : State R Key}
    (hs : d.machine.ReachableBy d.Undisturbed s) : d.Transparent s := by
  intro i hi
  have hrun := (inv_of_reachableBy hs).run i
  unfold RunOk at hrun
  rw [hi] at hrun
  exact hrun

/-- Two runs with the same source and options. -/
def twice : Driver Bool Unit := ⟨[0], fun _ => (), fun _ => some ([1], [2])⟩

/-- Both runs start with an empty cache. -/
def twiceStart : State Bool Unit := ⟨fun _ _ => none, fun _ => ⟨.lookup .cl, [], []⟩⟩

theorem twiceStart_initial : twice.machine.Initial twiceStart :=
  ⟨fun _ => rfl, fun _ _ _ h => nomatch h⟩

/-- A run hits the cache while another one fills it: it reads the code while the other one copies
the profile, and the profile when that has been copied. -/
theorem transparent_hit : ∃ s, twice.machine.ReachableBy twice.Undisturbed s ∧
    twice.Transparent s ∧ (s.run true).pc = .ended true ∧ (s.run false).pc = .ended true := by
  have hread : ∀ {s : State Bool Unit} {p : Pc} (e : Ext) (off : Nat), (s.run true).pc = p →
      (s.run false).pc = .cat e off → (∀ o, p ≠ .copy e o) → twice.Undisturbed s (false, 1) := by
    intro s p e off htrue hfalse hp e' off' hcat j _ o hj
    cases hfalse.symm.trans hcat
    cases j with
    | true => exact hp o (htrue.symm.trans hj)
    | false => cases hfalse.symm.trans hj
  have hrun : ∃ s, twice.machine.ReachableBy twice.Undisturbed s ∧
      (s.run true).pc = .ended true ∧ (s.run false).pc = .ended true := by
    have h := Machine.ReachableBy.initial (C := twice.Undisturbed) twiceStart_initial
    replace h := h.step (l := ((true, 1) : Bool × Nat)) nofun rfl
    replace h := h.step (l := ((true, 1) : Bool × Nat)) nofun rfl
    replace h := h.step (l := ((true, 1) : Bool × Nat)) nofun rfl
    replace h := h.step (l := ((true, 1) : Bool × Nat)) nofun rfl
    replace h := h.step (l := ((true, 1) : Bool × Nat)) nofun rfl
    replace h := h.step (l := ((true, 1) : Bool × Nat)) nofun rfl
    -- the profile has been opened, so both files exist
    replace h := h.step (l := ((false, 1) : Bool × Nat)) nofun rfl
    replace h := h.step (l := ((false, 1) : Bool × Nat)) nofun rfl
    replace h := h.step (hread .cl 0 rfl rfl nofun) rfl
    replace h := h.step (hread .cl 1 rfl rfl nofun) rfl
    replace h := h.step (l := ((true, 1) : Bool × Nat)) nofun rfl
    replace h := h.step (l := ((true, 1) : Bool × Nat)) nofun rfl
    replace h := h.step (hread .yaml 0 rfl rfl nofun) rfl
    replace h := h.step (hread .yaml 1 rfl rfl nofun) rfl
    replace h := h.step (l := ((true, 1) : Bool × Nat)) nofun rfl
    exact ⟨_, h, rfl, rfl⟩
  obtain ⟨s, hs, hended⟩ := hrun
  exact ⟨s, hs, transparent twice hs, hended⟩

/-- One run has just opened the profile to copy to it when the other one hits the cache. -/
theorem not_transparent_truncated :
    ¬∀ s, twice.machine.Reachable s → twice.Transparent s := by
  intro h
  have hrun : ∃ s, twice.machine.run twiceStart
      [(true, 1), (true, 1), (true, 1), (true, 1), (true, 1), (true, 1),
        (false, 1), (false, 1), (false, 1), (false, 1), (false, 1)] = some s ∧
      s.run false = ⟨.ended true, [0, 1], []⟩ := ⟨_, rfl, rfl⟩
  obtain ⟨s, hs, hfalse⟩ := hrun
  obtain ⟨code, profile, hresult, _, herr⟩ :=
    h s (Machine.reachable_of_run twiceStart_initial hs) false (by rw [hfalse])
  rw [hfalse] at herr
  cases hresult
  cases herr

end Cache
end Compiler
end Clpkm
