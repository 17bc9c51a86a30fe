import Clpkm.Triple
import Mathlib.Data.List.Nodup
import Mathlib.Logic.Function.Basic

/-!
# The system calls of a compilation

`compile` is the parent of `Compile` as a function of what its system calls answer: it
takes these answers from a list in the order of the calls.  Its variables are `Pid` and
the six descriptors, which the model names by pipe and end and which are held when the
variable is not -1.  The trace has the calls that touch descriptors and processes.

A trace is `Sound` if it kills nothing but a child of its own that it has not waited for,
waits for every child and closes every descriptor once.  The descriptors are always
closed once: `Cleanup` closes those still held (`Begun.closeFd`, `closed_cleanup`).  The
child is another matter.  Where `fork` fails `Pid` is -1, and `Cleanup` sends its signal
to every process it may; where a later call fails the child is killed or left alone, but
never waited for.  So `compile_sound_iff`: a compilation is sound if `pipe` fails or if
nothing does.
-/

namespace Clpkm
namespace Compiler
namespace Cleanup

/-- `SrcPipe`, `OutPipe` and `YamlPipe`. -/
inductive PipeName
  | src
  | out
  | yaml
  deriving DecidableEq, Repr

/-- The two descriptors of a pipe. -/
inductive End
  | read
  | write
  deriving DecidableEq, Repr

/-- A descriptor. -/
abbrev Fd := PipeName × End

/-- What `write` answers. -/
inductive WriteResult
  | wrote (n : Nat)
  /-- -1 with `EINTR` -/
  | interrupted
  /-- -1 with another error -/
  | failed
  deriving DecidableEq, Repr

/-- The answer of a system call. -/
inductive Result
  | pipe (ok : Bool)
  | fork (pid : Int)
  | close (ok : Bool)
  | write (r : WriteResult)
  /-- the number of bytes, `none` for -1 -/
  | read (r : Option Nat)
  /-- the exit status of the child, `none` for -1 -/
  | waitpid (r : Option Nat)
  deriving DecidableEq, Repr

/-- The answers that report an error `Compile` does not retry after. -/
def Result.Failed : Result → Prop
  | .pipe ok => ok = false
  | .fork pid => pid = -1
  | .close ok => ok = false
  | .write r => r = .failed
  | .read r => r = none
  | .waitpid r => r = none

instance (r : Result) : Decidable r.Failed := by
  cases r <;> exact inferInstanceAs (Decidable (_ = _))

/-- A system call that touches descriptors or processes, with what it answered. -/
inductive Call
  | pipe (p : PipeName) (ok : Bool)
  | fork (pid : Int)
  | close (fd : Fd)
  | kill (pid : Int)
  | waitpid (pid : Int) (ok : Bool)
  deriving DecidableEq, Repr

/-- The answers to come, the variables of `Compile` and the calls made so far. -/
structure State where
  results : List Result
  /-- the descriptor is in its variable -/
  held : Fd → Bool
  pid : Int
  trace : List Call

/-- Code of `Compile`; no answer when the list of results ends before it returns. -/
abbrev Code := StateT State Option

/-! ## System calls -/

def pipe (p : PipeName) : Code Bool := fun s =>
  match s.results with
  | .pipe ok :: rest =>
    some (ok, { s with
      results := rest
      held := if ok then Function.update (Function.update s.held (p, .read) true) (p, .write) true
        else s.held
      trace := s.trace ++ [.pipe p ok] })
  | _ => none

/-- `Pid = fork()`; the parent gets -1 or the positive pid of the child. -/
def fork : Code Unit := fun s =>
  match s.results with
  | .fork pid :: rest =>
    if pid = -1 ∨ 0 < pid then
      some ((), { s with results := rest, pid := pid, trace := s.trace ++ [.fork pid] })
    else none
  | _ => none

/-- `CloseFd`, which calls `close` only on a descriptor that is not -1. -/
def closeFd (fd : Fd) : Code Bool := fun s =>
  if s.held fd then
    match s.results with
    | .close ok :: rest =>
      some (ok, { s with
        results := rest
        held := Function.update s.held fd false
        trace := s.trace ++ [.close fd] })
    | _ => none
  else some (true, s)

/-- `FullWrite` of this many bytes; whether it does not return -1, and the results left. -/
def fullWriteFrom : List Result → Nat → Option (Bool × List Result)
  | rs, 0 => some (true, rs)
  | .write (.wrote n) :: rs, size + 1 =>
    if n ≤ size + 1 then fullWriteFrom rs (size + 1 - n) else none
  | .write .interrupted :: rs, size + 1 => fullWriteFrom rs (size + 1)
  | .write .failed :: rs, _ + 1 => some (false, rs)
  | _, _ + 1 => none

def fullWrite (size : Nat) : Code Bool := fun s =>
  (fullWriteFrom s.results size).map fun r => (r.1, { s with results := r.2 })

/-- The loop that reads a pipe to its end, with a buffer of 1024 bytes; whether it does
not end with -1, and the results left. -/
def readAllFrom : List Result → Option (Bool × List Result)
  | .read (some 0) :: rs => some (true, rs)
  | .read (some (n + 1)) :: rs => if n + 1 ≤ 1024 then readAllFrom rs else none
  | .read none :: rs => some (false, rs)
  | _ => none

def readAll : Code Bool := fun s =>
  (readAllFrom s.results).map fun r => (r.1, { s with results := r.2 })

/-- `waitpid(Pid, &ChildStatus, 0)`. -/
def waitpid : Code (Option Nat) := fun s =>
  match s.results with
  | .waitpid r :: rest =>
    some (r, { s with results := rest, trace := s.trace ++ [.waitpid s.pid r.isSome] })
  | _ => none

/-- `kill(Pid, SIGTERM)` unless `Pid` is 0. -/
def killChild : Code Unit :=
  modify fun s => if s.pid = 0 then s else { s with trace := s.trace ++ [.kill s.pid] }

/-- `Pid = 0`. -/
def forgetPid : Code Unit := modify fun s => { s with pid := 0 }

/-! ## Compile -/

/-- The descriptors in the order in which `Cleanup` closes them. -/
def allFds : List Fd :=
  [(.src, .read), (.src, .write), (.out, .read), (.out, .write), (.yaml, .read), (.yaml, .write)]

/-- The closure `Cleanup`. -/
def cleanup (succeed : Bool) : Code Bool := do
  let succeed ← allFds.foldlM (fun succeed fd => do return (← closeFd fd) && succeed) succeed
  killChild
  return succeed

/-- From `waitpid` on; whether the kernel profile loads. -/
def wait (loads : Bool) : Code Bool := do
  if (← waitpid) = some 0 then
    forgetPid
    let succeed ← cleanup true
    return loads && succeed
  else
    forgetPid
    let _ ← cleanup true
    return false

/-- Read a pipe to its end, close it and go on. -/
def readPipe (p : PipeName) (next : Code Bool) : Code Bool := do
  let ret ← readAll
  if (← closeFd (p, .read)) && ret then next else cleanup false

/-- The parent after `fork`. -/
def parent (size : Nat) (loads : Bool) : Code Bool := do
  if ← closeFd (.src, .read) <&&> (closeFd (.out, .write) <&&> closeFd (.yaml, .write)) then
    let ret ← fullWrite size
    if (← closeFd (.src, .write)) && ret then
      readPipe .out (readPipe .yaml (wait loads))
    else cleanup false
  else cleanup false

/-- `Compile` in the calling process, for a source of this many bytes. -/
def body (size : Nat) (loads : Bool) : Code Bool := do
  if ← pipe .src <&&> (pipe .out <&&> pipe .yaml) then
    fork
    if (← get).pid = -1 then cleanup false else parent size loads
  else cleanup false

/-- What `Compile` returns and the calls it made, when these are all the results. -/
def compile (size : Nat) (loads : Bool) (results : List Result) : Option (Bool × List Call) :=
  match body size loads ⟨results, fun _ => false, 0, []⟩ with
  | some (ret, ⟨[], _, _, trace⟩) => some (ret, trace)
  | _ => none

/-! ## Soundness -/

/-- The descriptors a call obtains. -/
def Call.obtains : Call → List Fd
  | .pipe p true => [(p, .read), (p, .write)]
  | _ => []

def Call.closes : Call → List Fd
  | .close fd => [fd]
  | _ => []

/-- The child a call creates. -/
def Call.forks : Call → List Int
  | .fork pid => if pid = -1 then [] else [pid]
  | _ => []

/-- The child a call waited for. -/
def Call.reaps : Call → List Int
  | .waitpid pid true => [pid]
  | _ => []

def Call.kills : Call → List Int
  | .kill pid => [pid]
  | _ => []

/-- A trace touches only its own child and descriptors, and leaves none behind. -/
structure Sound (trace : List Call) : Prop where
  kills : ∀ t pid u, trace = t ++ .kill pid :: u →
    0 < pid ∧ pid ∈ t.flatMap Call.forks ∧ pid ∉ t.flatMap Call.reaps
  reaps : ∀ pid ∈ trace.flatMap Call.forks, pid ∈ trace.flatMap Call.reaps
  closes : ∀ fd ∈ trace.flatMap Call.obtains, (trace.flatMap Call.closes).count fd = 1
  owns : ∀ fd ∈ trace.flatMap Call.closes, fd ∈ trace.flatMap Call.obtains

/-- Every descriptor has been obtained once, and closed once unless it is still held. -/
structure Begun (s : State) : Prop where
  nodup : (s.trace.flatMap Call.obtains).Nodup
  closed : ∀ fd, (s.trace.flatMap Call.closes).count fd + (s.held fd).toNat =
    (s.trace.flatMap Call.obtains).count fd
  killed : s.trace.flatMap Call.kills = []

/-- No descriptors but these are held. -/
def State.Holds (fds : List Fd) (s : State) : Prop := ∀ fd, s.held fd = true → fd ∈ fds

/-- The results up to here report no error. -/
def Sofar (results left : List Result) : Prop :=
  ∃ used, results = used ++ left ∧ ∀ r ∈ used, ¬r.Failed

/-- The results up to here report an error, but not of `pipe`. -/
def Erred (results left : List Result) : Prop :=
  ∃ used, results = used ++ left ∧ (∃ r ∈ used, r.Failed) ∧ .pipe false ∉ used

/-- What is settled when `Cleanup` is called. -/
inductive Outcome (results : List Result) (s : State) : Prop
  | refused (hresults : .pipe false ∈ results) (hforks : s.trace.flatMap Call.forks = [])
      (hpid : s.pid = 0)
  | unforked (hresults : Erred results s.results) (hforks : s.trace.flatMap Call.forks = [])
      (hpid : s.pid = -1)
  | abandoned (pid : Int) (hresults : Erred results s.results)
      (hforks : s.trace.flatMap Call.forks = [pid]) (hreaps : s.trace.flatMap Call.reaps = [])
  | waited (pid : Int) (hresults : Sofar results s.results) (hheld : s.Holds [])
      (hforks : s.trace.flatMap Call.forks = [pid])
      (hreaps : s.trace.flatMap Call.reaps = [pid]) (hpid : s.pid = 0)

/-- `Compile` may call `Cleanup` and return. -/
def Ended (results : List Result) (s : State) : Prop := Begun s ∧ Outcome results s

/-- The child has been forked, all is well and these descriptors may be held. -/
structure Working (results : List Result) (pid : Int) (fds : List Fd) (s : State) : Prop
    extends Begun s where
  results : Sofar results s.results
  forks : s.trace.flatMap Call.forks = [pid]
  reaps : s.trace.flatMap Call.reaps = []
  pid_eq : s.pid = pid
  pid_pos : 0 < pid
  holds : s.Holds fds

/-- After a call that answered so. -/
def Working.OrEnded (results : List Result) (pid : Int) (fds : List Fd) : Bool → State → Prop
  | true => Working results pid fds
  | false => Ended results

/-! ## Results -/

/-- What some calls other than `pipe` use up of the results, and whether all is well. -/
def Uses (ok : Bool) (left rest : List Result) : Prop :=
  ∃ used, left = used ++ rest ∧ .pipe false ∉ used ∧ (ok = true ↔ ∀ r ∈ used, ¬r.Failed)

section results
variable {results left rest : List Result} {r : Result} {ok : Bool}

theorem Uses.nil (left : List Result) : Uses true left left :=
  ⟨[], rfl, nofun, iff_of_true rfl nofun⟩

theorem Uses.cons (h : Uses ok left rest) (hr : ¬r.Failed) : Uses ok (r :: left) rest := by
  obtain ⟨used, rfl, hpipe, hok⟩ := h
  refine ⟨r :: used, rfl, List.not_mem_cons_of_ne_of_not_mem ?_ hpipe, ?_⟩
  · rintro rfl
    exact hr rfl
  · rw [hok, List.forall_mem_cons]
    exact ⟨fun h => ⟨hr, h⟩, fun h => h.2⟩

theorem Uses.one (hpipe : .pipe false ≠ r) (hok : ok = true ↔ ¬r.Failed) :
    Uses ok (r :: rest) rest := by
  refine ⟨[r], rfl, fun hp => hpipe (List.mem_singleton.mp hp), ?_⟩
  rw [hok, List.forall_mem_singleton]

theorem Sofar.use (h : Sofar results left) (hu : Uses true left rest) : Sofar results rest := by
  obtain ⟨before, rfl, hbefore⟩ := h
  obtain ⟨used, rfl, _, hok⟩ := hu
  refine ⟨before ++ used, (List.append_assoc ..).symm, fun r hr => ?_⟩
  exact (List.mem_append.mp hr).elim (hbefore r) (hok.mp rfl r)

theorem Sofar.err (h : Sofar results left) (hu : Uses false left rest) : Erred results rest := by
  obtain ⟨before, rfl, hbefore⟩ := h
  obtain ⟨used, rfl, hpipe, hok⟩ := hu
  have hfailed : ∃ r ∈ used, r.Failed := by
    by_contra hall
    have := hok.mpr fun r hr hf => hall ⟨r, hr, hf⟩
    cases this
  obtain ⟨r, hr, hf⟩ := hfailed
  refine ⟨before ++ used, (List.append_assoc ..).symm,
    ⟨r, List.mem_append_right before hr, hf⟩, fun hp => ?_⟩
  exact (List.mem_append.mp hp).elim (fun hp => hbefore _ hp rfl) hpipe

theorem Erred.use (h : Erred results left) (hu : Uses ok left rest) : Erred results rest := by
  obtain ⟨before, rfl, ⟨r, hr, hf⟩, hbefore⟩ := h
  obtain ⟨used, rfl, hpipe, _⟩ := hu
  refine ⟨before ++ used, (List.append_assoc ..).symm,
    ⟨r, List.mem_append_left used hr, hf⟩, fun hp => ?_⟩
  exact (List.mem_append.mp hp).elim hbefore hpipe

theorem uses_fullWrite {size : Nat} (h : fullWriteFrom left size = some (ok, rest)) :
    Uses ok left rest := by
  fun_induction fullWriteFrom left size with
  | case1 rs =>
    cases h
    exact Uses.nil _
  | case2 n rs size hn ih => exact (ih h).cons nofun
  | case3 n rs size hn => cases h
  | case4 rs size ih => exact (ih h).cons nofun
  | case5 rs size =>
    cases h
    exact Uses.one nofun (iff_of_false nofun fun hr => hr rfl)
  | case6 => cases h

theorem uses_readAll (h : readAllFrom left = some (ok, rest)) : Uses ok left rest := by
  fun_induction readAllFrom left with
  | case1 rs =>
    cases h
    exact Uses.one nofun (iff_of_true rfl nofun)
  | case2 n rs hn ih => exact (ih h).cons nofun
  | case3 n rs hn => cases h
  | case4 rs =>
    cases h
    exact Uses.one nofun (iff_of_false nofun fun hr => hr rfl)
  | case5 => cases h

end results

/-! ## Closing descriptors -/

section close
variable {results : List Result} {pid : Int} {fds : List Fd} {fd : Fd} {ok : Bool}
  {s t : State}

theorem uses_close (ok : Bool) (rest : List Result) : Uses ok (.close ok :: rest) rest := by
  refine Uses.one nofun ?_
  cases ok with
  | true => exact iff_of_true rfl nofun
  | false => exact iff_of_false nofun fun h => h rfl

/-- `CloseFd` does nothing to a descriptor that is not held. -/
theorem closeFd_cases (h : closeFd fd s = some (ok, t)) :
    (s.held fd = false ∧ ok = true ∧ t = s) ∨
    ∃ rest, s.held fd = true ∧ s.results = .close ok :: rest ∧
      t = { s with results := rest, held := Function.update s.held fd false,
                   trace := s.trace ++ [.close fd] } := by
  unfold closeFd at h
  split at h
  · rename_i hheld
    split at h
    · rename_i answer rest hresults
      cases h
      exact .inr ⟨rest, hheld, hresults, rfl⟩
    · cases h
  · rename_i hheld
    cases h
    exact .inl ⟨Bool.eq_false_iff.mpr hheld, rfl, rfl⟩

/-- A call that neither obtains nor closes descriptors and kills nothing. -/
theorem Begun.snoc {c : Call} (h : Begun s) (hheld : t.held = s.held)
    (htrace : t.trace = s.trace ++ [c]) (hobtains : c.obtains = []) (hcloses : c.closes = [])
    (hkills : c.kills = []) : Begun t := by
  refine ⟨?_, fun f => ?_, ?_⟩
  · rw [htrace, List.flatMap_append, List.flatMap_singleton, hobtains, List.append_nil]
    exact h.nodup
  · rw [htrace, hheld, List.flatMap_append, List.flatMap_append, List.flatMap_singleton,
      List.flatMap_singleton, hobtains, hcloses, List.append_nil, List.append_nil]
    exact h.closed f
  · rw [htrace, List.flatMap_append, List.flatMap_singleton, hkills, List.append_nil]
    exact h.killed

theorem Begun.closeFd (h : Begun s) (hc : closeFd fd s = some (ok, t)) : Begun t := by
  rcases closeFd_cases hc with ⟨_, _, rfl⟩ | ⟨rest, hheld, _, rfl⟩
  · exact h
  · refine ⟨?_, fun f => ?_, ?_⟩
    · simp only [List.flatMap_append, List.flatMap_singleton, Call.obtains, List.append_nil]
      exact h.nodup
    · simp only [List.flatMap_append, List.flatMap_singleton, Call.obtains, Call.closes,
        List.append_nil, List.count_append]
      rw [← h.closed f]
      by_cases hf : f = fd
      · rw [hf, Function.update_self, hheld, List.count_singleton_self]
        rfl
      · rw [Function.update_of_ne hf, List.count_singleton, if_neg (by simpa using Ne.symm hf)]
        rfl
    · simp only [List.flatMap_append, List.flatMap_singleton, Call.kills, List.append_nil]
      exact h.killed

theorem State.Holds.closeFd (h : s.Holds fds) (hc : closeFd fd s = some (ok, t)) :
    t.Holds (fds.filter (· ≠ fd)) := by
  intro f hf
  have hne : f ≠ fd ∧ s.held f = true := by
    rcases closeFd_cases hc with ⟨hheld, _, rfl⟩ | ⟨rest, hheld, _, rfl⟩
    · refine ⟨?_, hf⟩
      rintro rfl
      rw [hheld] at hf
      cases hf
    · by_cases hfd : f = fd
      · simp [hfd] at hf
      · simp only [Function.update_of_ne hfd] at hf
        exact ⟨hfd, hf⟩
  exact List.mem_filter.mpr ⟨h f hne.2, decide_eq_true hne.1⟩

theorem Outcome.closeFd (h : Outcome results s) (hc : closeFd fd s = some (ok, t)) :
    Outcome results t := by
  rcases closeFd_cases hc with ⟨_, _, rfl⟩ | ⟨rest, hheld, hres, rfl⟩
  · exact h
  · have huse : Uses ok s.results rest := hres ▸ uses_close ok rest
    have hforks : (s.trace ++ [Call.close fd]).flatMap Call.forks = s.trace.flatMap Call.forks := by
      simp [Call.forks]
    have hreaps : (s.trace ++ [Call.close fd]).flatMap Call.reaps = s.trace.flatMap Call.reaps := by
      simp [Call.reaps]
    cases h with
    | refused hr hf hp => exact .refused hr (hforks.trans hf) hp
    | unforked hr hf hp => exact .unforked (hr.use huse) (hforks.trans hf) hp
    | abandoned pid hr hf hw =>
      exact .abandoned pid (hr.use huse) (hforks.trans hf) (hreaps.trans hw)
    | waited pid hr hh hf hw hp => exact absurd (hh fd hheld) List.not_mem_nil

/-- Closing a descriptor goes on or fails. -/
theorem Working.closeFd (h : Working results pid fds s) (hc : closeFd fd s = some (ok, t)) :
    Working.OrEnded results pid (fds.filter (· ≠ fd)) ok t := by
  have hbegun := h.toBegun.closeFd hc
  have hholds := h.holds.closeFd hc
  rcases closeFd_cases hc with ⟨_, rfl, rfl⟩ | ⟨rest, hheld, hres, rfl⟩
  · exact { h with holds := hholds }
  · have huse : Uses ok s.results rest := hres ▸ uses_close ok rest
    have hforks : (s.trace ++ [Call.close fd]).flatMap Call.forks = [pid] := by
      simp [Call.forks, h.forks]
    have hreaps : (s.trace ++ [Call.close fd]).flatMap Call.reaps = [] := by
      simp [Call.reaps, h.reaps]
    cases ok with
    | true => exact ⟨hbegun, h.results.use huse, hforks, hreaps, h.pid_eq, h.pid_pos, hholds⟩
    | false => exact ⟨hbegun, .abandoned pid (h.results.err huse) hforks hreaps⟩

end close

/-! ## Every way through the code -/

section compile
variable {results : List Result} {pid : Int} {fds : List Fd} {size : Nat} {loads : Bool}

/-- After `kill` in `Cleanup`. -/
def Settled (results : List Result) (s : State) : Prop :=
  ∃ t, Ended results t ∧ t.Holds [] ∧ killChild t = some ((), s)

theorem holds_allFds (s : State) : s.Holds allFds := by
  rintro ⟨p, e⟩ _
  cases p <;> cases e <;> decide

/-- `Cleanup` closes what is still held. -/
theorem cleanup_spec (succeed : Bool) :
    Triple (Ended results) (cleanup succeed) (fun _ => Settled results) := by
  have hloop : Triple (fun s => Ended results s ∧ s.Holds allFds)
      (allFds.foldlM (fun succeed fd => do return (← closeFd fd) && succeed) succeed)
      fun _ s => Ended results s ∧ s.Holds [] := by
    refine Triple.foldlM (I := fun fds _ s => Ended results s ∧ s.Holds fds) fun fd fds _ => ?_
    have hclose : Triple (fun s => Ended results s ∧ s.Holds (fd :: fds)) (closeFd fd)
        fun _ s => Ended results s ∧ s.Holds fds := by
      rintro s ok t ⟨⟨hbegun, hout⟩, hholds⟩ hc
      refine ⟨⟨hbegun.closeFd hc, hout.closeFd hc⟩, fun f hf => ?_⟩
      obtain ⟨hmem, hne⟩ := List.mem_filter.mp (hholds.closeFd hc f hf)
      exact (List.mem_cons.mp hmem).resolve_left (of_decide_eq_true hne)
    exact hclose.bind fun _ => Triple.pure fun _ hs => hs
  have hkill : Triple (fun s => Ended results s ∧ s.Holds []) killChild
      fun _ => Settled results := fun s _ t hs hk => ⟨s, hs.1, hs.2, hk⟩
  unfold cleanup
  refine (hloop.imp (fun s hs => ⟨hs, holds_allFds s⟩) fun _ _ hs => hs).bind fun _ => ?_
  exact hkill.bind fun _ => Triple.pure fun _ hs => hs

theorem closeFd_spec (fd : Fd) :
    Triple (Working results pid fds) (closeFd fd)
      (Working.OrEnded results pid (fds.filter (· ≠ fd))) :=
  fun _ _ _ hs hc => Working.closeFd hs hc

/-- Closing a descriptor after a transfer. -/
theorem closeFd_and_spec (fd : Fd) (ret : Bool) :
    Triple (Working.OrEnded results pid fds ret) (closeFd fd)
      fun ok => Working.OrEnded results pid (fds.filter (· ≠ fd)) (ok && ret) := by
  cases ret with
  | true =>
    refine (closeFd_spec fd).imp (fun _ hs => hs) fun ok s hs => ?_
    rw [Bool.and_true]
    exact hs
  | false =>
    rintro s ok t ⟨hbegun, hout⟩ hc
    rw [Bool.and_false]
    exact ⟨hbegun.closeFd hc, hout.closeFd hc⟩

/-- The calls of a loop of reads or writes. -/
theorem Working.transfer {s : State} {ok : Bool} {rest : List Result}
    (h : Working results pid fds s) (hu : Uses ok s.results rest) :
    Working.OrEnded results pid fds ok { s with results := rest } := by
  have hbegun : Begun { s with results := rest } := { h.toBegun with }
  cases ok with
  | true => exact { h with toBegun := hbegun, results := h.results.use hu }
  | false => exact ⟨hbegun, .abandoned pid (h.results.err hu) h.forks h.reaps⟩

theorem fullWrite_spec (size : Nat) :
    Triple (Working results pid fds) (fullWrite size) (Working.OrEnded results pid fds) := by
  intro s ok t hs hw
  obtain ⟨⟨_, rest⟩, hr, hrt⟩ := Option.map_eq_some_iff.mp hw
  cases hrt
  exact hs.transfer (uses_fullWrite hr)

theorem readAll_spec :
    Triple (Working results pid fds) readAll (Working.OrEnded results pid fds) := by
  intro s ok t hs hw
  obtain ⟨⟨_, rest⟩, hr, hrt⟩ := Option.map_eq_some_iff.mp hw
  cases hrt
  exact hs.transfer (uses_readAll hr)

/-- Go on if all is well, clean up otherwise. -/
theorem orEnded_spec {next : Code Bool} {b : Bool}
    (hnext : Triple (Working results pid fds) next fun _ => Settled results) :
    Triple (Working.OrEnded results pid fds b) (if b then next else cleanup false)
      fun _ => Settled results := by
  cases b with
  | true => exact hnext
  | false => exact cleanup_spec false

/-- `waitpid` and `Pid = 0`. -/
theorem wait_spec (loads : Bool) :
    Triple (Working results pid []) (wait loads) fun _ => Settled results := by
  have hforget : ∀ status, Triple (fun s => ∃ u, Working results pid [] u ∧
      waitpid u = some (status, s)) forgetPid fun _ => Ended results := by
    rintro status s _ t ⟨u, hu, hw⟩ hf
    unfold waitpid at hw
    split at hw
    · rename_i r rest hres
      cases hw
      cases hf
      have huse : Uses status.isSome u.results rest := by
        rw [hres]
        exact Uses.one nofun (by cases status <;> simp [Result.Failed])
      have hbegun : Begun { u with
          results := rest, pid := 0, trace := u.trace ++ [.waitpid u.pid status.isSome] } :=
        hu.toBegun.snoc rfl rfl rfl rfl rfl
      refine ⟨hbegun, ?_⟩
      cases status with
      | none =>
        refine .abandoned pid (hu.results.err huse) ?_ ?_
        · simp [Call.forks, hu.forks]
        · simp [Call.reaps, hu.reaps]
      | some n =>
        refine .waited pid (hu.results.use huse) hu.holds ?_ ?_ rfl
        · simp [Call.forks, hu.forks]
        · simp [Call.reaps, hu.reaps, hu.pid_eq]
    · cases hw
  unfold wait
  refine Triple.bind (Q := fun status s => ∃ u, Working results pid [] u ∧
    waitpid u = some (status, s)) (fun s status t hs hw => ⟨s, hs, hw⟩) fun status => ?_
  -- in both branches `Pid` is reset before `Cleanup`
  have hreset (ret : Bool → Bool) : Triple (fun s => ∃ u, Working results pid [] u ∧
      waitpid u = some (status, s))
      (do forgetPid; let succeed ← cleanup true; return ret succeed)
      fun _ => Settled results :=
    (hforget status).bind fun _ => (cleanup_spec true).bind fun _ => Triple.pure fun _ hs => hs
  exact Triple.cond (fun _ => hreset (loads && ·)) fun _ => hreset fun _ => false

theorem readPipe_spec {p : PipeName} {next : Code Bool}
    (hnext : Triple (Working results pid (fds.filter (· ≠ (p, .read)))) next
      fun _ => Settled results) :
    Triple (Working results pid fds) (readPipe p next) fun _ => Settled results := by
  unfold readPipe
  refine readAll_spec.bind fun ret => (closeFd_and_spec (p, .read) ret).bind fun ok => ?_
  exact orEnded_spec hnext

theorem parent_spec (size : Nat) (loads : Bool) :
    Triple (Working results pid allFds) (parent size loads) fun _ => Settled results := by
  have hclose : Triple (Working results pid allFds)
      (closeFd (.src, .read) <&&> (closeFd (.out, .write) <&&> closeFd (.yaml, .write)))
      (Working.OrEnded results pid [(.src, .write), (.out, .read), (.yaml, .read)]) :=
    (closeFd_spec (.src, .read)).and ((closeFd_spec (.out, .write)).and
      (closeFd_spec (.yaml, .write)) fun _ hs => hs) fun _ hs => hs
  unfold parent
  refine hclose.bind fun ok => orEnded_spec ?_
  refine (fullWrite_spec size).bind fun ret => ?_
  refine (closeFd_and_spec (.src, .write) ret).bind fun ok => ?_
  exact orEnded_spec (readPipe_spec (readPipe_spec (wait_spec loads)))

/-- The two descriptors of each of these pipes. -/
def ends (pipes : List PipeName) : List Fd := pipes.flatMap fun p => [(p, .read), (p, .write)]

/-- These pipes are open and nothing has gone wrong. -/
structure Opening (results : List Result) (pipes : List PipeName) (s : State) : Prop
    extends Begun s where
  results : Sofar results s.results
  obtains : s.trace.flatMap Call.obtains = ends pipes
  forks : s.trace.flatMap Call.forks = []
  reaps : s.trace.flatMap Call.reaps = []
  pid_eq : s.pid = 0

/-- After a call of `pipe` that answered so. -/
def Opening.OrEnded (results : List Result) (pipes : List PipeName) : Bool → State → Prop
  | true => Opening results pipes
  | false => Ended results

theorem pipe_spec (pipes : List PipeName) {p : PipeName} (hp : (ends (pipes ++ [p])).Nodup) :
    Triple (Opening results pipes) (pipe p) (Opening.OrEnded results (pipes ++ [p])) := by
  intro s ok t hs hc
  unfold pipe at hc
  split at hc
  · rename_i answer rest hres
    cases hc
    have hends : ends (pipes ++ [p]) = ends pipes ++ [(p, .read), (p, .write)] := by simp [ends]
    have hforks : (s.trace ++ [Call.pipe p ok]).flatMap Call.forks = [] := by
      simp [Call.forks, hs.forks]
    have hreaps : (s.trace ++ [Call.pipe p ok]).flatMap Call.reaps = [] := by
      simp [Call.reaps, hs.reaps]
    have hkills : (s.trace ++ [Call.pipe p ok]).flatMap Call.kills = [] := by
      simp [Call.kills, hs.killed]
    have hcloses : (s.trace ++ [Call.pipe p ok]).flatMap Call.closes =
        s.trace.flatMap Call.closes := by simp [Call.closes]
    cases ok with
    | false =>
      refine ⟨hs.toBegun.snoc rfl rfl rfl rfl rfl, .refused ?_ hforks hs.pid_eq⟩
      obtain ⟨used, hused, _⟩ := hs.results
      rw [hused, hres]
      exact List.mem_append_right used List.mem_cons_self
    | true =>
      have hobtains : (s.trace ++ [Call.pipe p true]).flatMap Call.obtains =
          ends (pipes ++ [p]) := by simp [Call.obtains, hs.obtains, hends]
      have huse : Uses true s.results rest := by
        rw [hres]
        exact Uses.one nofun (iff_of_true rfl nofun)
      refine ⟨⟨?_, fun f => ?_, hkills⟩, hs.results.use huse, hobtains, hforks, hreaps, hs.pid_eq⟩
      · rw [hobtains]
        exact hp
      · -- the two descriptors have not been obtained before, so they are not held either
        have hclosed := hs.closed f
        rw [hobtains, hcloses, hends, List.count_append]
        rw [hs.obtains] at hclosed
        rw [hends] at hp
        have hnew : f ∈ [(p, End.read), (p, End.write)] → (ends pipes).count f = 0 := fun hf =>
          List.count_eq_zero.mpr fun hmem => (List.nodup_append.mp hp).2.2 f hmem f hf rfl
        show _ + (Function.update (Function.update s.held (p, .read) true) (p, .write) true
          f).toNat = _
        by_cases hw : f = (p, .write)
        · have := hnew (by simp [hw])
          subst hw
          rw [Function.update_self]
          simp
          omega
        · rw [Function.update_of_ne hw]
          by_cases hr : f = (p, .read)
          · have := hnew (by simp [hr])
            subst hr
            rw [Function.update_self]
            simp
            omega
          · rw [Function.update_of_ne hr, hclosed,
              List.count_eq_zero.mpr (show f ∉ [(p, End.read), (p, End.write)] by simp [hw, hr])]
            rfl
  · cases hc

theorem fork_spec :
    Triple (Opening results [.src, .out, .yaml]) fork fun _ s =>
      if s.pid = -1 then Ended results s else Working results s.pid allFds s := by
  intro s _ t hs hc
  unfold fork at hc
  split at hc
  · rename_i pid rest hres
    split at hc
    · rename_i hpid
      cases hc
      have hreaps : (s.trace ++ [Call.fork pid]).flatMap Call.reaps = [] := by
        simp [Call.reaps, hs.reaps]
      have hbegun : Begun { s with
          results := rest, pid := pid, trace := s.trace ++ [.fork pid] } :=
        hs.toBegun.snoc rfl rfl rfl rfl rfl
      show if pid = -1 then _ else _
      split
      · rename_i hfailed
        have huse : Uses false s.results rest := by
          rw [hres, hfailed]
          exact Uses.one nofun (iff_of_false nofun fun h => h rfl)
        refine ⟨hbegun, .unforked (hs.results.err huse) ?_ hfailed⟩
        simp [Call.forks, hs.forks, hfailed]
      · rename_i hforked
        have huse : Uses true s.results rest := by
          rw [hres]
          exact Uses.one nofun (iff_of_true rfl hforked)
        refine ⟨hbegun, hs.results.use huse, ?_, hreaps, rfl, hpid.resolve_left hforked,
          holds_allFds _⟩
        simp [Call.forks, hs.forks, hforked]
    · cases hc
  · cases hc

/-- Every way through `Compile` comes to a settled state. -/
theorem body_spec (size : Nat) (loads : Bool) (results : List Result) :
    Triple (· = ⟨results, fun _ => false, 0, []⟩) (body size loads) fun _ => Settled results := by
  have hinit : ∀ s : State, s = ⟨results, fun _ => false, 0, []⟩ → Opening results [] s := by
    rintro s rfl
    exact ⟨⟨List.nodup_nil, fun _ => rfl, rfl⟩, ⟨[], rfl, nofun⟩, rfl, rfl, rfl, rfl⟩
  have hpipes : Triple (Opening results []) (pipe .src <&&> (pipe .out <&&> pipe .yaml))
      (Opening.OrEnded results [.src, .out, .yaml]) :=
    (pipe_spec [] (by decide)).and ((pipe_spec [.src] (by decide)).and
      (pipe_spec [.src, .out] (by decide)) fun _ hs => hs) fun _ hs => hs
  have hfork : Triple (Opening results [.src, .out, .yaml])
      (do fork; if (← get).pid = -1 then cleanup false else parent size loads)
      fun _ => Settled results := by
    refine fork_spec.bind fun _ => ?_
    intro s b t hs hr
    change (if s.pid = -1 then cleanup false else parent size loads) s = some (b, t) at hr
    split at hs
    · rw [if_pos ‹_›] at hr
      exact cleanup_spec false s b t hs hr
    · rw [if_neg ‹_›] at hr
      exact parent_spec size loads s b t hs hr
  unfold body
  refine (hpipes.imp hinit fun _ _ hs => hs).bind fun ok => ?_
  cases ok with
  | true => exact hfork
  | false => exact cleanup_spec false

theorem Begun.sound {s : State} (h : Begun s) (hheld : s.Holds [])
    (hreaps : ∀ pid ∈ s.trace.flatMap Call.forks, pid ∈ s.trace.flatMap Call.reaps) :
    Sound s.trace := by
  have hcount : ∀ fd, (s.trace.flatMap Call.closes).count fd =
      (s.trace.flatMap Call.obtains).count fd := by
    intro fd
    rw [← h.closed fd, Bool.eq_false_iff.mpr fun hf => List.not_mem_nil (hheld fd hf)]
    rfl
  refine ⟨fun t pid u htrace => ?_, hreaps, fun fd hfd => ?_, fun fd hfd => ?_⟩
  · have hkill : pid ∈ s.trace.flatMap Call.kills := by
      rw [htrace]
      simp [Call.kills]
    rw [h.killed] at hkill
    exact absurd hkill List.not_mem_nil
  · rw [hcount fd]
    exact List.count_eq_one_of_mem h.nodup hfd
  · rw [← List.count_pos_iff, ← hcount fd]
    exact List.count_pos_iff.mpr hfd

/-- When there are no results left, an error has been found or there is none. -/
theorem Erred.not_fine (h : Erred results []) :
    ¬(.pipe false ∈ results ∨ ∀ r ∈ results, ¬r.Failed) := by
  obtain ⟨used, rfl, ⟨r, hr, hfailed⟩, hpipe⟩ := h
  rw [List.append_nil]
  rintro (hp | hall)
  · exact hpipe hp
  · exact hall r hr hfailed

theorem Settled.sound_iff {s : State} (h : Settled results s) (hs : s.results = []) :
    Sound s.trace ↔ .pipe false ∈ results ∨ ∀ r ∈ results, ¬r.Failed := by
  obtain ⟨t, ⟨hbegun, hout⟩, hheld, hkill⟩ := h
  have hst : s = if t.pid = 0 then t else { t with trace := t.trace ++ [.kill t.pid] } := by
    cases hkill
    rfl
  have hres : t.results = [] := by
    rw [hst] at hs
    split at hs <;> exact hs
  cases hout with
  | refused hr hforks hpid =>
    rw [if_pos hpid] at hst
    subst hst
    refine iff_of_true (hbegun.sound hheld fun pid hp => ?_) (.inl hr)
    rw [hforks] at hp
    exact absurd hp List.not_mem_nil
  | unforked hr hforks hpid =>
    rw [hres] at hr
    rw [if_neg (by rw [hpid]; decide), hpid] at hst
    refine iff_of_false (fun hsound => ?_) hr.not_fine
    have := (hsound.kills t.trace (-1) [] (by rw [hst])).1
    omega
  | abandoned pid hr hforks hreaps =>
    rw [hres] at hr
    refine iff_of_false (fun hsound => ?_) hr.not_fine
    have hsame : s.trace.flatMap Call.forks = [pid] ∧ s.trace.flatMap Call.reaps = [] := by
      rw [hst]
      split
      · exact ⟨hforks, hreaps⟩
      · simp [Call.forks, Call.reaps, hforks, hreaps]
    have hreaped := hsound.reaps pid (by rw [hsame.1]; exact List.mem_singleton_self pid)
    rw [hsame.2] at hreaped
    exact List.not_mem_nil hreaped
  | waited pid hr _ hforks hreaps hpid =>
    rw [if_pos hpid] at hst
    subst hst
    obtain ⟨used, rfl, hused⟩ := hr
    rw [hres, List.append_nil]
    refine iff_of_true (hbegun.sound hheld fun pid hp => ?_) (.inr hused)
    rw [hreaps, ← hforks]
    exact hp

/-- **The system calls of a compilation.**  `Compile` kills nothing but its own running
child, waits for every child and closes every descriptor once, if and only if a call of
`pipe` fails or no call fails for good. -/
theorem compile_sound_iff (size : Nat) (loads : Bool) (results : List Result) {ret : Bool}
    {trace : List Call} (h : compile size loads results = some (ret, trace)) :
    Sound trace ↔ .pipe false ∈ results ∨ ∀ r ∈ results, ¬r.Failed := by
  unfold compile at h
  split at h
  · rename_i b held pid calls hrun
    cases h
    exact (body_spec size loads results _ _ _ rfl hrun).sound_iff rfl
  · cases h

/-- The results when every call succeeds, for a source and outputs of one byte. -/
def allWell : List Result :=
  [.pipe true, .pipe true, .pipe true, .fork 7, .close true, .close true, .close true,
    .write .interrupted, .write (.wrote 1), .close true, .read (some 1), .read (some 0),
    .close true, .read (some 1), .read (some 0), .close true, .waitpid (some 0)]

theorem compile_sound_allWell :
    ∃ trace, compile 1 true allWell = some (true, trace) ∧ Sound trace := by
  let trace : List Call :=
    [.pipe .src true, .pipe .out true, .pipe .yaml true, .fork 7, .close (.src, .read),
      .close (.out, .write), .close (.yaml, .write), .close (.src, .write), .close (.out, .read),
      .close (.yaml, .read), .waitpid 7 true]
  have hrun : compile 1 true allWell = some (true, trace) := by decide +kernel
  exact ⟨trace, hrun, (compile_sound_iff 1 true allWell hrun).mpr (.inr (by decide))⟩

/-- The results when `fork` fails. -/
def forkFails : List Result :=
  [.pipe true, .pipe true, .pipe true, .fork (-1), .close true, .close true, .close true,
    .close true, .close true, .close true]

/-- When `fork` fails, `Cleanup` sends `SIGTERM` to pid -1. -/
theorem compile_not_sound_forkFails :
    ∃ trace, compile 1 true forkFails = some (false, trace ++ [.kill (-1)]) ∧
      ¬Sound (trace ++ [.kill (-1)]) := by
  refine ⟨[.pipe .src true, .pipe .out true, .pipe .yaml true, .fork (-1), .close (.src, .read),
    .close (.src, .write), .close (.out, .read), .close (.out, .write), .close (.yaml, .read),
    .close (.yaml, .write)], by decide +kernel, fun hsound => ?_⟩
  have := (hsound.kills _ (-1) [] rfl).1
  omega

end compile

end Cleanup
end Compiler
end Clpkm
