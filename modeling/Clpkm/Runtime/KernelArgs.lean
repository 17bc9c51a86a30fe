import Clpkm.KernelProfile
import Clpkm.Machine
import Mathlib.Logic.Function.Basic

/-!
# Arguments of a kernel

A low-priority process does not run the kernels that the application creates, but
kernels of the same name from the instrumented program.  `clSetKernelArg` therefore
records the size and the pointer it is given, after the vendor has accepted them for
the application's kernel, and `clEnqueueNDRangeKernel` hands all recorded arguments to
the vendor for the kernel that it is about to run.  The vendor reads the bytes behind a
pointer in that moment.

OpenCL lets the application reuse the memory as soon as `clSetKernelArg` returns.
`captured` is what it may rely on: for every argument the value of the last successful
call, as it was then.  `args_captured` says that a launch gets these values if and only
if the bytes behind the recorded pointers are then what they were when they were
recorded, and `args_not_captured` that they need not be.
-/

namespace Clpkm
namespace KernelArgs

/-- The memory of the application. -/
abbrev Memory := Nat → UInt8

/-- `karg_t`: the size and the pointer. -/
structure KArg where
  size : Nat
  value : Option Nat
  deriving DecidableEq, Repr

/-- `KernelInfo`, as far as arguments go. -/
structure KernelInfo where
  profile : KernelProfile
  args : List KArg
  deriving DecidableEq, Repr

/-- What an API call returns. -/
inductive Ret
  | success
  | invalidArgIndex
  | invalidArgValue
  /-- an error of the vendor's call -/
  | vendor (code : Int)
  deriving DecidableEq, Repr

/-- `KernelInfo` as `clCreateKernel` fills it. -/
def KernelInfo.init (profile : KernelProfile) : KernelInfo :=
  ⟨profile, List.replicate profile.numOfParam ⟨0, none⟩⟩

/-- The parameter is found in `LocPtrParamIdx` by `std::lower_bound`. -/
def isDynLoc (profile : KernelProfile) (argIndex : Nat) : Bool :=
  profile.locPtrParamIdx.find? (argIndex ≤ ·) == some argIndex

/-- The size of a dynamically sized local buffer, a multiple of 4. -/
def pad (argSize : Nat) : Nat := (argSize + 3) / 4 * 4

/-- `clSetKernelArg`, given what the vendor's call returns; `none` if an assertion fails. -/
def setKernelArg (ki : KernelInfo) (argIndex argSize : Nat) (argValue : Option Nat)
    (vendor : Ret) : Option (Ret × KernelInfo) :=
  if ki.args.length ≤ argIndex then some (.invalidArgIndex, ki)
  else if isDynLoc ki.profile argIndex then
    if argValue.isSome then some (.invalidArgValue, ki)
    else if 2 ^ 32 ≤ pad argSize then none
    else if vendor = .success then
      some (vendor, { ki with args := ki.args.set argIndex ⟨pad argSize, argValue⟩ })
    else some (vendor, ki)
  else if argValue.isNone then some (.invalidArgValue, ki)
  else if vendor = .success then
    some (vendor, { ki with args := ki.args.set argIndex ⟨argSize, argValue⟩ })
  else some (vendor, ki)

/-- The value of an argument. -/
inductive Value
  | bytes (bs : List UInt8)
  /-- a buffer in local memory -/
  | localMem (size : Nat)
  deriving DecidableEq, Repr

/-- What the vendor's `clSetKernelArg` takes from a size and a pointer. -/
def read (mem : Memory) : KArg → Value
  | ⟨size, some p⟩ => .bytes ((List.range size).map fun x => mem (p + x))
  | ⟨size, none⟩ => .localMem size

/-- The values that `clEnqueueNDRangeKernel` hands to the vendor. -/
def handed (mem : Memory) (ki : KernelInfo) : List Value := ki.args.map (read mem)

/-- What the application may rely on after a call of `clSetKernelArg` that succeeded. -/
def capture (mem : Memory) (profile : KernelProfile) (argIndex argSize : Nat)
    (argValue : Option Nat) : Value :=
  if isDynLoc profile argIndex then .localMem (pad argSize)
  else read mem ⟨argSize, argValue⟩

/-! ## Call sequences -/

/-- A launch: what the vendor got, and what the application has passed. -/
structure Launch where
  handed : List Value
  captured : Nat → Option Value

structure State where
  mem : Memory
  kernel : KernelInfo
  /-- the values of the last successful calls -/
  captured : Nat → Option Value
  /-- the memory in the moment of the last successful call -/
  recorded : Nat → Memory
  launches : List Launch

inductive Label
  /-- the application writes to its memory -/
  | write (addr : Nat) (b : UInt8)
  | setKernelArg (argIndex argSize : Nat) (argValue : Option Nat) (vendor : Ret)
  /-- a call of `clEnqueueNDRangeKernel` for which the vendor accepts all arguments -/
  | enqueue

def State.setKernelArg (s : State) (argIndex argSize : Nat) (argValue : Option Nat)
    (vendor : Ret) : Option (Ret × State) :=
  (KernelArgs.setKernelArg s.kernel argIndex argSize argValue vendor).map fun (ret, ki) =>
    (ret, { s with
      kernel := ki,
      captured :=
        if ret = .success then
          Function.update s.captured argIndex
            (some (capture s.mem s.kernel.profile argIndex argSize argValue))
        else s.captured,
      recorded :=
        if ret = .success then Function.update s.recorded argIndex s.mem else s.recorded })

/-- An application that uses one kernel. -/
def machine : Machine State Label where
  Initial s := ∃ src, s.kernel = .init (Instrumentor.profile src) ∧ s.captured = (fun _ => none) ∧
    s.launches = []
  step s
    | .write addr b => some { s with mem := Function.update s.mem addr b }
    | .setKernelArg argIndex argSize argValue vendor =>
      (s.setKernelArg argIndex argSize argValue vendor).map Prod.snd
    | .enqueue =>
      some { s with launches := s.launches ++ [⟨handed s.mem s.kernel, s.captured⟩] }

/-- The bytes behind the recorded pointers are what they were when they were recorded. -/
def Unchanged (s : State) : Prop :=
  ∀ i a, s.kernel.args[i]? = some a → ∀ p, a.value = some p →
    ∀ x, x < a.size → s.mem (p + x) = s.recorded i (p + x)

/-- A launch comes while they are. -/
def Keeps (s : State) (l : Label) : Prop := l = .enqueue → Unchanged s

/-! ## What a call does -/

variable {ki ki' : KernelInfo} {argIndex argSize : Nat} {argValue : Option Nat} {vendor ret : Ret}

theorem four_dvd_pad (n : Nat) : 4 ∣ pad n := Nat.dvd_mul_left 4 _

/-- A call either fails and leaves the record as it is, or records what it is given. -/
theorem setKernelArg_cases
    (h : setKernelArg ki argIndex argSize argValue vendor = some (ret, ki')) :
    (ret ≠ .success ∧ ki' = ki) ∨
      (ret = .success ∧ argIndex < ki.args.length ∧
        ∃ a, ki' = { ki with args := ki.args.set argIndex a } ∧
          (∀ mem, read mem a = capture mem ki.profile argIndex argSize argValue) ∧
          (isDynLoc ki.profile argIndex = true →
            a.value = none ∧ 4 ∣ a.size ∧ a.size < 2 ^ 32)) := by
  unfold setKernelArg at h
  by_cases hidx : ki.args.length ≤ argIndex
  · rw [if_pos hidx] at h
    cases h
    exact Or.inl ⟨(fun hr => nomatch hr), rfl⟩
  rw [if_neg hidx] at h
  by_cases hdyn : isDynLoc ki.profile argIndex = true
  · rw [if_pos hdyn] at h
    cases argValue with
    | some p =>
      cases h
      exact Or.inl ⟨(fun hr => nomatch hr), rfl⟩
    | none =>
      rw [if_neg (by decide)] at h
      by_cases hpad : 2 ^ 32 ≤ pad argSize
      · rw [if_pos hpad] at h
        cases h
      rw [if_neg hpad] at h
      by_cases hv : vendor = .success
      · rw [if_pos hv] at h
        cases h
        refine Or.inr ⟨hv, by omega, _, rfl, fun mem => ?_, fun _ => ⟨rfl, four_dvd_pad _, ?_⟩⟩
        · rw [capture, if_pos hdyn]
          rfl
        · exact Nat.lt_of_not_le hpad
      · rw [if_neg hv] at h
        cases h
        exact Or.inl ⟨hv, rfl⟩
  · rw [if_neg hdyn] at h
    cases argValue with
    | none =>
      cases h
      exact Or.inl ⟨(fun hr => nomatch hr), rfl⟩
    | some p =>
      rw [if_neg (fun hn => nomatch hn)] at h
      by_cases hv : vendor = .success
      · rw [if_pos hv] at h
        cases h
        refine Or.inr ⟨hv, by omega, _, rfl, fun mem => ?_, fun hy => (hdyn hy).elim⟩
        rw [capture, if_neg hdyn]
      · rw [if_neg hv] at h
        cases h
        exact Or.inl ⟨hv, rfl⟩

/-- A call that fails changes nothing. -/
theorem State.setKernelArg_failed {s s' : State}
    (h : s.setKernelArg argIndex argSize argValue vendor = some (ret, s'))
    (hr : ret ≠ .success) : s' = s := by
  obtain ⟨⟨r, ki⟩, hki, heq⟩ := Option.map_eq_some_iff.mp h
  cases heq
  rcases setKernelArg_cases hki with ⟨_, rfl⟩ | ⟨hs, _⟩
  · simp only [if_neg hr]
  · exact (hr hs).elim

/-! ## The record -/

/-- What holds of the recorded arguments of a kernel. -/
structure KernelInfo.WellFormed (ki : KernelInfo) : Prop where
  profile : ∃ src, ki.profile = Instrumentor.profile src
  length : ki.args.length = ki.profile.numOfParam
  /-- the size of a dynamically sized local buffer is a multiple of 4 that fits `cl_uint` -/
  dynLoc : ∀ i a, ki.args[i]? = some a → isDynLoc ki.profile i = true →
    a.value = none ∧ 4 ∣ a.size ∧ a.size < 2 ^ 32

theorem wellFormed_init (src : KernelSource) :
    (KernelInfo.init (Instrumentor.profile src)).WellFormed := by
  refine ⟨⟨src, rfl⟩, List.length_replicate, fun i a ha _ => ?_⟩
  have hmem := List.mem_of_getElem? ha
  rw [List.eq_of_mem_replicate hmem]
  exact ⟨rfl, Nat.dvd_zero 4, by decide⟩

theorem KernelInfo.WellFormed.setKernelArg (h : ki.WellFormed)
    (hs : setKernelArg ki argIndex argSize argValue vendor = some (ret, ki')) :
    ki'.WellFormed := by
  rcases setKernelArg_cases hs with ⟨_, rfl⟩ | ⟨_, hlt, a, rfl, _, hdyn⟩
  · exact h
  · refine ⟨h.profile, List.length_set.trans h.length, fun i b hb hi => ?_⟩
    change (ki.args.set argIndex a)[i]? = some b at hb
    change isDynLoc ki.profile i = true at hi
    by_cases hidx : argIndex = i
    · subst hidx
      rw [List.getElem?_set_self hlt] at hb
      cases hb
      exact hdyn hi
    · rw [List.getElem?_set_ne hidx] at hb
      exact h.dynLoc i b hb hi

/-- **The record is well formed in every reachable state.** -/
theorem wellFormed_of_reachable {s : State} (hs : machine.Reachable s) : s.kernel.WellFormed := by
  refine hs.invariant (I := fun s => s.kernel.WellFormed) (fun s h0 => ?_)
    (fun s l t hi h => ?_)
  · obtain ⟨src, hk, _⟩ := h0
    rw [hk]
    exact wellFormed_init src
  · cases l with
    | write addr b =>
      cases h
      exact hi
    | setKernelArg i n p v =>
      obtain ⟨⟨r, t'⟩, hset, rfl⟩ := Option.map_eq_some_iff.mp h
      obtain ⟨⟨r, ki⟩, hki, heq⟩ := Option.map_eq_some_iff.mp hset
      cases heq
      exact hi.setKernelArg hki
    | enqueue =>
      cases h
      exact hi

/-! ## What a launch gets -/

/-- What the code has recorded is what was passed, in the memory of that moment. -/
structure Inv (s : State) : Prop where
  captured : ∀ i v, s.captured i = some v →
    ∃ a, s.kernel.args[i]? = some a ∧ read (s.recorded i) a = v
  /-- every recorded pointer was passed -/
  pointer : ∀ i a p, s.kernel.args[i]? = some a → a.value = some p → (s.captured i).isSome = true

theorem Inv.setKernelArg {s s' : State} (h : Inv s)
    (hs : s.setKernelArg argIndex argSize argValue vendor = some (ret, s')) : Inv s' := by
  by_cases hr : ret = .success
  · obtain ⟨⟨r, ki⟩, hki, heq⟩ := Option.map_eq_some_iff.mp hs
    cases heq
    rcases setKernelArg_cases hki with ⟨hne, _⟩ | ⟨_, hlt, a, rfl, hread, _⟩
    · exact (hne hr).elim
    constructor
    · intro i v hv
      simp only [if_pos hr] at hv ⊢
      by_cases hidx : i = argIndex
      · subst hidx
        rw [Function.update_self] at hv ⊢
        cases hv
        exact ⟨a, List.getElem?_set_self hlt, hread s.mem⟩
      · rw [Function.update_of_ne hidx] at hv ⊢
        rw [List.getElem?_set_ne (Ne.symm hidx)]
        exact h.captured i v hv
    · intro i b p hb hp
      simp only [if_pos hr] at hb ⊢
      by_cases hidx : i = argIndex
      · subst hidx
        rw [Function.update_self]
        rfl
      · rw [List.getElem?_set_ne (Ne.symm hidx)] at hb
        rw [Function.update_of_ne hidx]
        exact h.pointer i b p hb hp
  · rw [State.setKernelArg_failed hs hr]
    exact h

/-- **The record says what was passed**, in every reachable state. -/
theorem inv_of_reachable {s : State} (hs : machine.Reachable s) : Inv s := by
  refine hs.invariant (fun s h0 => ?_) fun s l t hi h => ?_
  · obtain ⟨src, hk, hc, _⟩ := h0
    constructor
    · intro i v hv
      rw [hc] at hv
      cases hv
    · intro i a p ha hp
      rw [hk] at ha
      rw [List.eq_of_mem_replicate (List.mem_of_getElem? ha)] at hp
      cases hp
  · cases l with
    | write addr b =>
      cases h
      exact ⟨hi.captured, hi.pointer⟩
    | setKernelArg i n p v =>
      obtain ⟨⟨r, t'⟩, hset, rfl⟩ := Option.map_eq_some_iff.mp h
      exact hi.setKernelArg hset
    | enqueue =>
      cases h
      exact ⟨hi.captured, hi.pointer⟩

/-- What is read behind a pointer are the bytes there. -/
theorem read_eq_read_iff {mem mem' : Memory} {a : KArg} :
    read mem a = read mem' a ↔
      ∀ p, a.value = some p → ∀ x, x < a.size → mem (p + x) = mem' (p + x) := by
  obtain ⟨size, value⟩ := a
  cases value with
  | none => exact ⟨(fun _ _ hp => nomatch hp), fun _ => rfl⟩
  | some p =>
    constructor
    · rintro h _ ⟨⟩ x hx
      exact List.map_inj_left.mp (Value.bytes.inj h) x (List.mem_range.mpr hx)
    · intro h
      exact congrArg Value.bytes
        (List.map_congr_left fun x hx => h p rfl x (List.mem_range.mp hx))

/-- A launch that comes now gets what was passed. -/
def HandsCaptured (s : State) : Prop :=
  ∀ i v, s.captured i = some v → (handed s.mem s.kernel)[i]? = some v

/-- **When a launch gets what was passed.** -/
theorem Inv.handsCaptured_iff {s : State} (h : Inv s) : HandsCaptured s ↔ Unchanged s := by
  have hread : ∀ {i v a}, s.captured i = some v → s.kernel.args[i]? = some a →
      ((handed s.mem s.kernel)[i]? = some v ↔ read s.mem a = read (s.recorded i) a) := by
    intro i v a hv ha
    obtain ⟨a', ha', hr⟩ := h.captured i v hv
    rw [ha, Option.some.injEq] at ha'
    subst ha'
    rw [handed, List.getElem?_map, ha, Option.map_some, Option.some.injEq, hr]
  constructor
  · intro hc i a ha p hp
    obtain ⟨v, hv⟩ := Option.isSome_iff_exists.mp (h.pointer i a p ha hp)
    exact read_eq_read_iff.mp ((hread hv ha).mp (hc i v hv)) p hp
  · intro hu i v hv
    obtain ⟨a, ha, _⟩ := h.captured i v hv
    exact (hread hv ha).mpr (read_eq_read_iff.mpr (hu i a ha))

/-- Every launch so far has got what was passed. -/
def AllCaptured (s : State) : Prop :=
  ∀ l ∈ s.launches, ∀ i v, l.captured i = some v → l.handed[i]? = some v

theorem allCaptured_of_reachableBy {s : State} (hs : machine.ReachableBy Keeps s) :
    AllCaptured s := by
  have h := hs.invariant (I := fun s => Inv s ∧ AllCaptured s) ?_ ?_
  · exact h.2
  · intro s h0
    refine ⟨inv_of_reachable (.initial h0), fun l hl => ?_⟩
    obtain ⟨_, _, _, hnil⟩ := h0
    rw [hnil] at hl
    cases hl
  · rintro s l t ⟨hi, hall⟩ hk hstep
    cases l with
    | write addr b =>
      cases hstep
      exact ⟨⟨hi.captured, hi.pointer⟩, hall⟩
    | setKernelArg i n p v =>
      obtain ⟨⟨r, t'⟩, hset, rfl⟩ := Option.map_eq_some_iff.mp hstep
      refine ⟨hi.setKernelArg hset, ?_⟩
      obtain ⟨_, _, heq⟩ := Option.map_eq_some_iff.mp hset
      cases heq
      exact hall
    | enqueue =>
      cases hstep
      refine ⟨⟨hi.captured, hi.pointer⟩, fun l hl => ?_⟩
      rcases List.mem_append.mp hl with hl | hl
      · exact hall l hl
      · rw [List.mem_singleton.mp hl]
        exact hi.handsCaptured_iff.mpr (hk rfl)

/-- **Arguments are captured when they are set**, in every run in which no launch comes while a
byte behind a recorded pointer is not what it was when it was recorded: every launch gets, for
every argument, the value of the last successful call as it was then.  A launch that comes while
it is not so gets something else; and a call that fails changes nothing. -/
theorem args_captured (s : State) (hs : machine.ReachableBy Keeps s) :
    AllCaptured s ∧ (HandsCaptured s ↔ Unchanged s) ∧
      ∀ i n p v ret t, s.setKernelArg i n p v = some (ret, t) → ret ≠ .success → t = s :=
  ⟨allCaptured_of_reachableBy hs, (inv_of_reachable hs.reachable).handsCaptured_iff,
    fun _ _ _ _ _ _ h hr => State.setKernelArg_failed h hr⟩

/-- A kernel with one parameter, which is not a local buffer. -/
def oneParam : KernelSource := ⟨[false], [], [], by simp, by simp⟩

def start : State :=
  ⟨fun _ => 0, .init (Instrumentor.profile oneParam), fun _ => none, fun _ _ => 0, []⟩

/-- `x = 1; clSetKernelArg(K, 0, 4, &x);`, with `x` at address 100 -/
def passed : State :=
  (machine.run start [.write 100 1, .setKernelArg 0 4 (some 100) .success]).get (by decide)

/-- `clEnqueueNDRangeKernel(Q, K); x = 2; clSetKernelArg(K, 0, 4, &x);` -/
def reused : State :=
  (machine.run passed [.enqueue, .write 100 2, .setKernelArg 0 4 (some 100) .success]).get
    (by decide)

/-- The variable is used again for the second launch, and each launch gets its own value. -/
theorem args_captured_reused :
    ∃ s, machine.run reused [.enqueue] = some s ∧
      s.launches.map Launch.handed = [[.bytes [1, 0, 0, 0]], [.bytes [2, 0, 0, 0]]] ∧
      AllCaptured s := by
  have hunchanged : ∀ s : State, s.kernel.args = [⟨4, some 100⟩] →
      (∀ x, x < 4 → s.mem (100 + x) = s.recorded 0 (100 + x)) → Unchanged s := by
    intro s hargs hbytes i a ha p hp
    rw [hargs] at ha
    rcases i with _ | i
    · cases ha
      cases hp
      exact hbytes
    · cases ha
  have hstart : machine.ReachableBy Keeps start := .initial ⟨oneParam, rfl, rfl, rfl⟩
  have h₀ := hstart.step (l := .write 100 1) (fun h => nomatch h) rfl
  have h₁ : machine.ReachableBy Keeps passed :=
    h₀.step (l := .setKernelArg 0 4 (some 100) .success) (fun h => nomatch h) rfl
  have h₂ := h₁.step (l := .enqueue) (fun _ => hunchanged passed (by decide) (by decide)) rfl
  have h₂' := h₂.step (l := .write 100 2) (fun h => nomatch h) rfl
  have h₃ : machine.ReachableBy Keeps reused :=
    h₂'.step (l := .setKernelArg 0 4 (some 100) .success) (fun h => nomatch h) rfl
  have h₄ := h₃.step (l := .enqueue) (fun _ => hunchanged reused (by decide) (by decide)) rfl
  exact ⟨_, rfl, by decide, (args_captured _ h₄).1⟩

/-- **A launch can get what was never passed**: `x = 2;` before the launch makes the launch
get 2 instead of 1. -/
theorem args_not_captured :
    ∃ s, machine.Reachable s ∧ ∃ l ∈ s.launches,
      l.captured 0 = some (.bytes [1, 0, 0, 0]) ∧ l.handed[0]? = some (.bytes [2, 0, 0, 0]) := by
  let s := (machine.run passed [.write 100 2, .enqueue]).get (by decide)
  have hp : machine.Reachable passed :=
    Machine.reachable_of_run ⟨oneParam, rfl, rfl, rfl⟩ (Option.some_get _).symm
  have hs : machine.Reachable s := hp.run (Option.some_get _).symm
  refine ⟨s, hs, s.launches.getLast (by decide), List.getLast_mem _, by decide, by decide⟩

end KernelArgs
end Clpkm
