import Clpkm.LoopCheckpoint
import Clpkm.PrivateCopy

/-!
# Launching an instrumented kernel until it is done

One work-item runs an instrumented kernel.  A launch looks at the header: it starts the
body for 1 and goes to the label of a nonce otherwise, where it loads the variables of
the checkpoint.  All other private variables hold whatever they hold.  At the end of a
loop body with a checkpoint, `__clpkm_should_chkpnt` decides whether the launch goes on
or stores the variables, leaves the nonce in the header and ends.  The kernel is done
when it has left 0 in the header.  A variable is stored and loaded byte by byte, by the calls of
`GenerateCovfefe`.

A checkpoint brings back what is needed of a variable (`Restored`) if its size is a multiple of
the unit that is copied, and if its loop has an edge from the condition to the body in the flow
graph, or the variable is live at the condition all the same.  Of Clang it is asked that what is
live where the body of such a loop begins be live at the end of the block that ends in the loop's
condition (`LiveSound`); this is where the code asks.

`relaunch_preserves` is the result: when every suspension brings back what is needed, launching
again and again ends with the memory of an uninterrupted run, after at most one launch more than
the run has loop iterations.  `not_relaunch_preserves` has a kernel for either condition that ends
with another memory without it.

The proof is a simulation.  Program and launches are at the same control, up to the
checkpoints (`Sim`), and agree on the live variables.
-/

namespace Clpkm
open Lang Instrumentor Locfefe

variable {Var Val Mem Block : Type}

/-- A private variable as the compiler reads it, and how its value is kept in its bytes. -/
structure VarType (Val : Type) where
  decl : VarDecl
  /-- the bytes; without a value they are any -/
  bytes : Option Val → Bytes
  value : Bytes → Option Val
  isPrivate : decl.addressSpace = .opencl_private

namespace VarType

/-- The value is one of the type: the bytes of the variable determine it. -/
def Represents (t : VarType Val) (a : Val) : Prop :=
  ∀ f : Bytes, (∀ i, i < t.decl.size → f i = t.bytes (some a) i) → t.value f = some a

/-- The helper that is called copies all bytes. -/
def Whole (t : VarType Val) : Prop := (memcpyOf t.decl.align).unit ∣ t.decl.size

instance (t : VarType Val) : Decidable t.Whole := inferInstanceAs (Decidable (_ ∣ _))

end VarType

/-- A kernel as the compiler reads it: names are unique, and every mention of a variable
is in its scope. -/
structure Kernel (Var Val : Type) where
  params : List Var
  body : Stmt Var Val Unit
  inScope : body.Scoped params
  type : Var → VarType Val

/-- The kernel as the compiler emits it; the first nonce given out is 2. -/
def Kernel.instrument (K : Kernel Var Val) (C : Clang Var Val Block) : Patched Var Val :=
  (traverse C K.body K.params 1).1

/-- The emitted program as a place. -/
def Kernel.root (K : Kernel Var Val) (C : Clang Var Val Block) :
    Place Var Val (Option (Chkpnt Var)) := ⟨K.params, K.instrument C, .stop⟩

theorem Kernel.erase_root (K : Kernel Var Val) (C : Clang Var Val Block) :
    (K.root C).erase = ⟨K.params, K.body, .stop⟩ := by
  rw [root, Place.erase, instrument, erase_traverse]
  rfl

/-- The nonces are neither 0 nor 1. -/
theorem Kernel.two_le_nonce {K : Kernel Var Val} {C : Clang Var Val Block} {E : List Var}
    {h : LoopHead Var Val} {p : Chkpnt Var} {b : Patched Var Val}
    {k : Cont Var Val (Option (Chkpnt Var))}
    (hin : (K.root C).Inside ⟨E, .loop h (some p) b, k⟩) : 2 ≤ p.nonce := by
  have hmem : p.nonce ∈ labels (K.instrument C) :=
    labels_subset hin (List.mem_append_right _ List.mem_cons_self)
  rw [Kernel.instrument, (labels_traverse C K.body K.params 1).2] at hmem
  exact (List.Ico.mem.mp hmem).1

/-- What launches depend on besides the program; a clock counts the steps. -/
structure Env (Var Val : Type) where
  /-- the values of the parameters -/
  args : Store Var Val
  /-- the answers of `__clpkm_should_chkpnt` -/
  shouldChkpnt : Nat → Bool
  /-- what private variables hold that nothing has been assigned to -/
  garbage : Nat → Store Var Val

/-- The work-item and its part of the runtime's buffers. -/
structure Host (Var Val Mem : Type) where
  /-- `__clpkm_hdr` -/
  hdr : Nat
  /-- `__clpkm_prv` -/
  prv : Bytes
  mem : Mem
  launches : Nat
  clock : Nat
  /-- the launch that is running -/
  device : Option (Ctl Var Val (Option (Chkpnt Var)) × Store Var Val)

/-! ## Saving and reloading at a checkpoint -/

namespace Kernel
variable (K : Kernel Var Val)

/-- The calls that the compiler emits at a checkpoint. -/
def covfefe (saved : List Var) : Covfefe := generateCovfefe (saved.map fun v => (K.type v).decl)

/-- The calls of `__clpkm_store_private` at a checkpoint. -/
def storePrivate (saved : List Var) (σ : Store Var Val) (prv : Bytes) : Bytes :=
  ((K.covfefe saved).store.zip saved).foldl
    (fun prv q => q.1.memcpy.store prv q.1.offset ((K.type q.2).bytes (σ q.2)) q.1.size) prv

/-- The calls of `__clpkm_load_private` at a checkpoint. -/
def loadPrivate [DecidableEq Var] (saved : List Var) (prv : Bytes) (σ : Store Var Val) :
    Store Var Val :=
  ((K.covfefe saved).load.zip saved).foldl
    (fun σ q => Function.update σ q.2 ((K.type q.2).value
      (q.1.memcpy.load prv q.1.offset ((K.type q.2).bytes (σ q.2)) q.1.size))) σ

/-- The variables have values of their types. -/
def Typed (σ : Store Var Val) : Prop := ∀ v a, σ v = some a → (K.type v).Represents a

variable {K} {saved : List Var}

/-- The calls for the variables of a checkpoint, each with its variable. -/
theorem mem_zip_calls {off : Nat} {q : PrivateCopy × Var}
    (h : q ∈ (calls off (saved.map fun v => (K.type v).decl)).zip saved) :
    q.1.memcpy = memcpyOf (K.type q.2).decl.align ∧ q.1.size = (K.type q.2).decl.size := by
  induction saved generalizing off with
  | nil => cases h
  | cons v saved ih =>
    rw [List.map_cons, calls, if_pos (K.type v).isPrivate, List.zip_cons_cons] at h
    rcases List.mem_cons.mp h with rfl | h
    · exact ⟨rfl, rfl⟩
    · exact ih h

theorem exists_mem_zip_calls (off : Nat) {v : Var} (h : v ∈ saved) :
    ∃ q ∈ (calls off (saved.map fun v => (K.type v).decl)).zip saved, q.2 = v := by
  induction saved generalizing off with
  | nil => cases h
  | cons x saved ih =>
    rw [List.map_cons, calls, if_pos (K.type x).isPrivate, List.zip_cons_cons]
    rcases List.mem_cons.mp h with rfl | h
    · exact ⟨_, List.mem_cons_self, rfl⟩
    · obtain ⟨q, hq, hv⟩ := ih _ h
      exact ⟨q, List.mem_cons_of_mem _ hq, hv⟩

theorem ordered_zip_calls (saved : List Var) :
    ((calls 0 (saved.map fun v => (K.type v).decl)).zip saved).Pairwise
      fun q r => q.1.offset + q.1.size ≤ r.1.offset := by
  have hord := ordered_calls 0 (saved.map fun v => (K.type v).decl)
  generalize calls 0 (saved.map fun v => (K.type v).decl) = cs at hord
  induction cs generalizing saved with
  | nil => exact List.Pairwise.nil
  | cons p cs ih =>
    obtain ⟨hhead, htail⟩ := List.pairwise_cons.mp hord
    cases saved with
    | nil => exact List.Pairwise.nil
    | cons v saved =>
      exact List.Pairwise.cons (fun q hq => hhead q.1 (List.of_mem_zip hq).1) (ih saved htail)

/-- Whatever is loaded for a variable again and again, it is the same value. -/
theorem foldl_load_eq [DecidableEq Var] {prv : Bytes} {v : Var} {a : Option Val}
    {cs : List (PrivateCopy × Var)}
    (hcs : ∀ q ∈ cs, q.2 = v → ∀ f,
      (K.type v).value (q.1.memcpy.load prv q.1.offset f q.1.size) = a)
    {g : Store Var Val} (hv : (∃ q ∈ cs, q.2 = v) ∨ g v = a) :
    cs.foldl (fun σ q => Function.update σ q.2 ((K.type q.2).value
      (q.1.memcpy.load prv q.1.offset ((K.type q.2).bytes (σ q.2)) q.1.size))) g v = a := by
  induction cs generalizing g with
  | nil => exact hv.resolve_left (fun ⟨_, h, _⟩ => List.not_mem_nil h)
  | cons q cs ih =>
    refine ih (fun r hr => hcs r (List.mem_cons_of_mem q hr)) ?_
    by_cases hq : q.2 = v
    · subst hq
      exact Or.inr ((Function.update_self _ _ g).trans (hcs q List.mem_cons_self rfl _))
    · rcases hv with ⟨r, hr, hrv⟩ | hv
      · rcases List.mem_cons.mp hr with rfl | hr
        · exact absurd hrv hq
        · exact Or.inl ⟨r, hr, hrv⟩
      · exact Or.inr ((Function.update_of_ne (Ne.symm hq) _ g).trans hv)

/-- **A variable that is stored gets its value back**, if the helpers copy all its bytes. -/
theorem loadPrivate_storePrivate [DecidableEq Var] {σ g : Store Var Val} {v : Var} {a : Val}
    (hv : v ∈ saved) (hwhole : (K.type v).Whole) (ha : σ v = some a)
    (hrep : (K.type v).Represents a) (prv : Bytes) :
    K.loadPrivate saved (K.storePrivate saved σ prv) g v = some a := by
  have hstore : (K.covfefe saved).store = calls 0 (saved.map fun v => (K.type v).decl) :=
    store_generateCovfefe _
  have hload : (K.covfefe saved).load = calls 0 (saved.map fun v => (K.type v).decl) :=
    load_generateCovfefe _
  unfold loadPrivate storePrivate
  rw [hstore, hload]
  refine foldl_load_eq (fun q hq hqv f => hrep _ fun i hi => ?_)
    (Or.inl (exists_mem_zip_calls 0 hv))
  obtain ⟨hm, hs⟩ := mem_zip_calls hq
  have hcovered : covered q.1.memcpy q.1.size = (K.type v).decl.size := by
    rw [hm, hs, hqv]
    exact (covered_eq_iff _ _).mpr hwhole
  rw [load_apply, if_pos (by omega)]
  refine (foldl_store_apply (f := Prod.fst) (g := fun q => (K.type q.2).bytes (σ q.2))
    (ordered_zip_calls saved) hq (by omega) prv).trans ?_
  rw [hqv, ha]

/-- The helpers copy all bytes of the variables of a checkpoint if and only if its private live
values round-trip. -/
theorem roundTrips_iff_whole (saved : List Var) :
    RoundTrips (saved.map fun v => (K.type v).decl) ↔ ∀ v ∈ saved, (K.type v).Whole := by
  rw [roundTrips_iff_covered]
  constructor
  · intro h v hv
    exact (covered_eq_iff _ _).mp (h _ (List.mem_map_of_mem hv) (K.type v).isPrivate)
  · intro h vd hvd _
    obtain ⟨v, hv, rfl⟩ := List.mem_map.mp hvd
    exact (covered_eq_iff _ _).mpr (h v hv)

end Kernel

variable [DecidableEq Var]

/-! ## The machine -/

/-- The private variables when the kernel is entered. -/
def Kernel.entryStore (K : Kernel Var Val) (args g : Store Var Val) : Store Var Val :=
  fun x => if x ∈ K.params then args x else g x

/-- The run of the kernel as it is written. -/
def Kernel.start (K : Kernel Var Val) (args : Store Var Val) (m : Mem) :
    Config Var Val Mem Unit :=
  ⟨.exec K.body .stop, K.entryStore args fun _ => none, m, 0⟩

namespace Host

/-- Nothing has been launched yet. -/
def init (m : Mem) : Host Var Val Mem := ⟨1, fun _ => 0, m, 0, 0, none⟩

variable (I : Interp Val Mem) (K : Kernel Var Val) (C : Clang Var Val Block) (env : Env Var Val)

/-- The switch on the header.  A header without a case leaves the kernel at once. -/
def enter (s : Host Var Val Mem) : Option (Ctl Var Val (Option (Chkpnt Var)) × Store Var Val) :=
  let σ := K.entryStore env.args (env.garbage s.clock)
  if s.hdr = 1 then some (.exec (K.instrument C) .stop, σ)
  else (findLabel s.hdr (K.instrument C) .stop).map fun (c, ctl) =>
    (ctl, K.loadPrivate c.saved s.prv σ)

/-- A step: a launch, while the header is not 0, or a step of the launch that is
running. -/
def step (s : Host Var Val Mem) : Option (Host Var Val Mem) :=
  match s.device with
  | none =>
    if s.hdr = 0 then none
    else some { s with
      launches := s.launches + 1, clock := s.clock + 1, device := s.enter K C env }
  | some (.fin, _) => some { s with hdr := 0, device := none }
  | some (.done (.loop h (some c) b k), σ) =>
    if env.shouldChkpnt s.clock then
      some { s with
        hdr := c.nonce, prv := K.storePrivate c.saved σ s.prv, clock := s.clock + 1,
        device := none }
    else some { s with
      clock := s.clock + 1, device := some (.next h (some c) b k, σ) }
  | some (ctl, σ) => do
    let (t, σ, m) ← ctl.action.run I (env.garbage s.clock) σ s.mem
    let ctl ← ctl.step t
    return { s with mem := m, clock := s.clock + 1, device := some (ctl, σ) }

/-- Any number of steps. -/
def Runs : Host Var Val Mem → Host Var Val Mem → Prop :=
  Relation.ReflTransGen fun s s' => s.step I K C env = some s'

/-- The state after some steps, or where the run gets before that. -/
def run : Nat → Host Var Val Mem → Host Var Val Mem
  | 0, s => s
  | n + 1, s => (s.step I K C env).elim s (run n)

theorem runs_run (n : Nat) (s : Host Var Val Mem) : s.Runs I K C env (s.run I K C env n) := by
  induction n generalizing s with
  | zero => exact .refl
  | succ n ih =>
    rw [run]
    cases hs : s.step I K C env with
    | none => exact .refl
    | some s' => exact .head hs (ih s')

variable {I K C env}

/-- The cases of a step of a launch that is running and has not ended: at a checkpoint,
or as in any program. -/
theorem step_running {s : Host Var Val Mem} {ctl ctl' : Ctl Var Val (Option (Chkpnt Var))}
    {σ σ' : Store Var Val} {m : Mem} {t : Bool} (hd : s.device = some (ctl, σ))
    (hr : ctl.action.run I (env.garbage s.clock) σ s.mem = some (t, σ', m))
    (hs : ctl.step t = some ctl') :
    s.step I K C env =
        some { s with mem := m, clock := s.clock + 1, device := some (ctl', σ') } ∨
      ∃ h c b k, ctl = .done (.loop h (some c) b k) ∧ env.shouldChkpnt s.clock = true ∧
        s.step I K C env =
        some { s with
          hdr := c.nonce, prv := K.storePrivate c.saved σ s.prv, clock := s.clock + 1,
          device := none } := by
  have hplain : ctl.action.run I (env.garbage s.clock) σ s.mem = some (t, σ', m) →
      (do
        let (t, σ, m) ← ctl.action.run I (env.garbage s.clock) σ s.mem
        let ctl ← ctl.step t
        return { s with mem := m, clock := s.clock + 1, device := some (ctl, σ) }) =
      some { s with mem := m, clock := s.clock + 1, device := some (ctl', σ') } := by
    intro hr
    rw [hr]
    simp only [Option.bind_eq_bind, Option.bind_some, hs]
    rfl
  unfold step
  rw [hd]
  match ctl, hs, hr, hplain hr with
  | .done (.loop h (some c) b k), hs, hr, _ =>
    cases hs
    cases hr
    by_cases ha : env.shouldChkpnt s.clock = true
    · exact Or.inr ⟨h, c, b, k, rfl, ha, if_pos ha⟩
    · exact Or.inl (if_neg ha)
  | .exec _ _, _, _, hp | .done .stop, _, _, hp | .done (.seq _ _), _, _, hp
  | .done (.loop _ none _ _), _, _, hp | .brk _, _, _, hp | .cont _, _, _, hp
  | .next _ _ _ _, _, _, hp | .test _ _ _ _, _, _, hp => exact Or.inl hp

end Host

/-! ## The simulation -/

section
variable (I : Interp Val Mem) (C : Clang Var Val Block) (K : Kernel Var Val)

/-- What is live at the start of the body of a loop that may repeat is live where
`PatchLoopBody` asks for the liveness, if the flow graph leads from there to the body. -/
def LiveSound : Prop :=
  ∀ (E : List Var) (h : LoopHead Var Val) (b : Stmt Var Val Unit) (k : Cont Var Val Unit),
    Place.Inside ⟨K.params, K.body, .stop⟩ ⟨E, .loop h () b, k⟩ → neverRepeats C h = false →
      keepsEdge C h = true → ∀ v, Ctl.Live I v (.exec b (.loop h () b k)) →
        LiveVarTracker.isLiveAfter C.isLive C.getBlock v h.id = true

/-- The kernel is well typed: with these arguments, variables only get values of their types. -/
structure WellTyped (args : Store Var Val) : Prop where
  start : K.Typed (K.entryStore args fun _ => none)
  step : ∀ (E : List Var) (c c' : Config Var Val Mem Unit),
    c.ctl.Scope ⟨K.params, K.body, .stop⟩ E → K.Typed c.store → c.step I = some c' →
      K.Typed c'.store

/-- What is needed of a variable comes back at the checkpoint of a loop. -/
def Restored (h : LoopHead Var Val) (v : Var) : Prop :=
  (K.type v).Whole ∧
    (keepsEdge C h = true ∨ LiveVarTracker.isLiveAfter C.isLive C.getBlock v h.id = true)

/-- If the launch is suspended now, what is live comes back. -/
def Host.Keeps (env : Env Var Val) (s : Host Var Val Mem) : Prop :=
  ∀ h p b k σ, s.device = some (.done (.loop h (some p) b k), σ) →
    env.shouldChkpnt s.clock = true →
      ∀ v, Ctl.Live I v (.next h () b.erase k.erase) → Restored C K h v

/-- With these arguments every suspension brings back what is needed: Clang's liveness is right, the
kernel is well typed, all variables are copied as a whole, and the flow graph has an edge from the
condition to the body of every loop that may repeat. -/
structure Restores (args : Store Var Val) : Prop where
  live : LiveSound I C K
  typed : WellTyped I K args
  whole : ∀ v, (K.type v).Whole
  edge : ∀ (E : List Var) (h : LoopHead Var Val) (b : Stmt Var Val Unit) (k : Cont Var Val Unit),
    Place.Inside ⟨K.params, K.body, .stop⟩ ⟨E, .loop h () b, k⟩ → neverRepeats C h = false →
      keepsEdge C h = true

/-- The launch that is running is where the program is, and has the values of the live
variables.  Every launch but the first, and every loop body that is being executed, is
paid for by an iteration of its own. -/
structure Sim (c : Config Var Val Mem Unit) (s : Host Var Val Mem)
    (ctl : Ctl Var Val (Option (Chkpnt Var))) (σ : Store Var Val) : Prop where
  device : s.device = some (ctl, σ)
  erase : ctl.erase = c.ctl
  mem : s.mem = c.mem
  agree : Agree (fun v => Ctl.Live I v c.ctl) c.store σ
  typed : K.Typed c.store
  scope : ∃ E, ctl.Scope (K.root C) E
  history : Ctl.History I c.ctl
  launches : s.launches + c.ctl.rest.bodies.length ≤ c.iters + 1

end

variable {I : Interp Val Mem} {C : Clang Var Val Block} {K : Kernel Var Val}

omit [DecidableEq Var] in
/-- A checkpoint is in a loop of the kernel that may repeat, and stores what is live of the
variables in scope there. -/
theorem Kernel.checkpoint_inside {E : List Var} {h : LoopHead Var Val} {p : Chkpnt Var}
    {b : Patched Var Val} {k : Cont Var Val (Option (Chkpnt Var))}
    (hin : (K.root C).Inside ⟨E, .loop h (some p) b, k⟩) :
    Place.Inside ⟨K.params, K.body, .stop⟩ ⟨E, .loop h () b.erase, k.erase⟩ ∧
      neverRepeats C h = false ∧
      p.saved = LiveVarTracker.genLivenessAfter C.isLive C.getBlock E h.id := by
  have hpart : Saves C (.loop h (some p) b) E :=
    hin.inherit (P := fun q => Saves C q.stmt q.scope) (fun _ _ hq hp => Saves.part C hq hp)
      (saves_traverse C K.body K.params 1)
  refine ⟨?_, hpart.2 p rfl⟩
  rw [← K.erase_root C]
  exact hin.erase

/-- Where every suspension brings back what is needed, this one does. -/
theorem Restores.restored {args : Store Var Val} (hK : Restores I C K args) {E : List Var}
    {h : LoopHead Var Val} {p : Chkpnt Var} {b : Patched Var Val}
    {k : Cont Var Val (Option (Chkpnt Var))} (hin : (K.root C).Inside ⟨E, .loop h (some p) b, k⟩)
    (v : Var) : Restored C K h v := by
  obtain ⟨hie, hrep, -⟩ := Kernel.checkpoint_inside hin
  exact ⟨hK.whole v, .inl (hK.edge E h b.erase k.erase hie hrep)⟩

/-- Where every suspension brings back what is needed, so does the launch that is running. -/
theorem Restores.keeps {args : Store Var Val} (hK : Restores I C K args) (env : Env Var Val)
    {c : Config Var Val Mem Unit} {s : Host Var Val Mem}
    {ctl : Ctl Var Val (Option (Chkpnt Var))} {σ : Store Var Val} (hS : Sim I C K c s ctl σ) :
    s.Keeps I C K env := by
  intro h p b k τ hd _ v _
  obtain ⟨E, hE⟩ := hS.scope
  rw [hS.device] at hd
  obtain ⟨rfl, rfl⟩ := Prod.mk.inj (Option.some.inj hd)
  exact hK.restored hE v

/-- What the kernel is entered with starts the simulation. -/
theorem Sim.entry {env : Env Var Val} (hty : WellTyped I K env.args) (m : Mem) :
    Sim I C K (K.start env.args m)
      (⟨1, fun _ => 0, m, 1, 1, some (.exec (K.instrument C) .stop,
        K.entryStore env.args (env.garbage 0))⟩ : Host Var Val Mem)
      (.exec (K.instrument C) .stop) (K.entryStore env.args (env.garbage 0)) := by
  refine ⟨rfl, ?_, rfl, ?_, hty.start, ⟨K.params, .refl⟩, ?_, Nat.le_refl 1⟩
  · exact congrArg (Ctl.exec · .stop) (erase_traverse C K.body K.params 1)
  · intro v _ a ha
    change (if v ∈ K.params then env.args v else none) = some a at ha
    by_cases hv : v ∈ K.params
    · rw [if_pos hv] at ha
      exact (if_pos hv).trans ha
    · rw [if_neg hv] at ha
      cases ha
  · intro p hp
    cases hp

/-- The first launch starts the simulation. -/
theorem Sim.init {env : Env Var Val} (hty : WellTyped I K env.args) (m : Mem) :
    ∃ s σ, (Host.init m).Runs I K C env s ∧
      Sim I C K (K.start env.args m) s (.exec (K.instrument C) .stop) σ :=
  ⟨_, _, .single rfl, Sim.entry hty m⟩

/-- The values stay those of their types. -/
theorem Sim.typed_step {args : Store Var Val} (hty : WellTyped I K args)
    {c c' : Config Var Val Mem Unit} {s : Host Var Val Mem}
    {ctl : Ctl Var Val (Option (Chkpnt Var))} {σ : Store Var Val} (hS : Sim I C K c s ctl σ)
    (hc : c.step I = some c') : K.Typed c'.store := by
  obtain ⟨E, hE⟩ := hS.scope
  have hsc : c.ctl.Scope (K.root C).erase E := hS.erase ▸ hE.erase
  rw [K.erase_root C] at hsc
  exact hty.step E c c' hsc hS.typed hc

/-- One step of the program moves the control of the launch along with it; this holds
for whatever the store of the launch agrees with. -/
theorem Sim.advance {c c' : Config Var Val Mem Unit} {s s' : Host Var Val Mem}
    {ctl ctl' : Ctl Var Val (Option (Chkpnt Var))} {σ σ' : Store Var Val} {t : Bool}
    {τ : Store Var Val} {m : Mem} (hS : Sim I C K c s ctl σ)
    (hr : c.ctl.action.run I (fun _ => none) c.store c.mem = some (t, τ, m))
    (hs : ctl.step t = some ctl')
    (hc : c' = ⟨ctl'.erase, τ, m, c.iters + c.ctl.enters t⟩)
    (hd : s'.device = some (ctl', σ')) (hm : s'.mem = m)
    (hl : s'.launches + ctl'.erase.rest.bodies.length ≤ c'.iters + 1)
    (hA : Agree (fun v => Ctl.Live I v ctl'.erase) τ σ') (hτ : K.Typed τ) :
    Sim I C K c' s' ctl' σ' := by
  obtain ⟨E, hE⟩ := hS.scope
  obtain ⟨E', hE', _⟩ := hE.step rfl hs
  have hce : c.ctl.step t = some ctl'.erase := by
    rw [← hS.erase, Ctl.step_erase, hs, Option.map_some]
  have hsc : c.ctl.Scope (K.root C).erase E := hS.erase ▸ hE.erase
  subst hc
  exact ⟨hd, rfl, hm, hA, hτ, ⟨E', hE'⟩,
    hS.history.step I rfl hsc hce ⟨c.store, c.mem, t, τ, m, hr, hce⟩, hl⟩

/-- A checkpoint stores every variable that is live after it and comes back. -/
theorem Sim.mem_saved (hlive : LiveSound I C K) {c : Config Var Val Mem Unit}
    {s : Host Var Val Mem} {h : LoopHead Var Val} {p : Chkpnt Var} {b : Patched Var Val}
    {k : Cont Var Val (Option (Chkpnt Var))} {σ : Store Var Val}
    (hS : Sim I C K c s (.done (.loop h (some p) b k)) σ) {v : Var}
    (hv : Ctl.Live I v (.next h () b.erase k.erase)) (hres : Restored C K h v) :
    v ∈ p.saved ∧ Ctl.Live I v c.ctl := by
  obtain ⟨E, hE⟩ := hS.scope
  obtain ⟨hie, hrep, hsaved⟩ := Kernel.checkpoint_inside (C := C) hE
  -- the checkpoint changes nothing, so the variable is live in front of it
  have hdone : Ctl.Live I v (.done (.loop h () b.erase k.erase)) := by
    refine .step id ⟨c.store, c.mem, true, c.store, c.mem, rfl, rfl⟩ hv
  have hmem : v ∈ E := hv.mem_scope I (r := ⟨K.params, K.body, .stop⟩) rfl K.inScope hie
  have hdecl : v ∉ b.erase.decls := by
    have hscoped := hie.inherit (P := fun q => q.stmt.Scoped q.scope)
      (fun _ _ hq hp => hq.scoped hp) K.inScope
    exact hscoped.2.2.notMem_decls hmem
  have hist : Ctl.History I (.done (.loop h () b.erase k.erase)) := by
    have := hS.history
    rwa [← hS.erase] at this
  have hstart : Ctl.Live I v (.exec b.erase (.loop h () b.erase k.erase)) :=
    hist.live_start I hdecl hdone
  constructor
  · rw [hsaved]
    refine List.mem_filter.mpr ⟨hmem, ?_⟩
    rcases hres.2 with hedge | hl
    · exact hlive E h b.erase k.erase hie hrep hedge v hstart
    · exact hl
  · rw [← hS.erase]
    exact hdone

/-- A launch with the header of a checkpoint goes on right behind it. -/
theorem Host.step_resume {env : Env Var Val} {s : Host Var Val Mem} {E : List Var}
    {h : LoopHead Var Val} {p : Chkpnt Var} {b : Patched Var Val}
    {k : Cont Var Val (Option (Chkpnt Var))}
    (hin : (K.root C).Inside ⟨E, .loop h (some p) b, k⟩) (hd : s.device = none)
    (hh : s.hdr = p.nonce) :
    s.step I K C env = some { s with
      launches := s.launches + 1, clock := s.clock + 1,
      device := some (.next h (some p) b k,
        K.loadPrivate p.saved s.prv (K.entryStore env.args (env.garbage s.clock))) } := by
  have hn := Kernel.two_le_nonce hin
  have hlab : findLabel p.nonce (K.instrument C) .stop = some (p, .next h (some p) b k) :=
    findLabel_eq hin (nodup_labels C K.body K.params 1)
  unfold step
  rw [hd]
  simp only [enter, hh, hlab, Option.map_some]
  rw [if_neg (by omega), if_neg (by omega)]

/-- One step of the program is followed by a step of the launch, unless it is the end of a loop
body where the launch is suspended. -/
theorem Sim.follow {env : Env Var Val} (hty : WellTyped I K env.args)
    {c c' : Config Var Val Mem Unit} {s : Host Var Val Mem}
    {ctl : Ctl Var Val (Option (Chkpnt Var))} {σ : Store Var Val} (hS : Sim I C K c s ctl σ)
    (hc : c.step I = some c') :
    (∃ s' ctl' σ', s.step I K C env = some s' ∧ s'.launches = s.launches ∧
        Sim I C K c' s' ctl' σ') ∨
      ∃ h p b k, ctl = .done (.loop h (some p) b k) ∧ env.shouldChkpnt s.clock = true ∧
        c' = ⟨.next h () b.erase k.erase, c.store, c.mem, c.iters⟩ ∧
        s.step I K C env = some { s with
          hdr := p.nonce, prv := K.storePrivate p.saved σ s.prv, clock := s.clock + 1,
          device := none } := by
  have hτ : K.Typed c'.store := hS.typed_step hty hc
  obtain ⟨t, τ, m, c₁, hr, hs, rfl⟩ := (Config.step_eq_some_iff I).mp hc
  have hsc : (ctl.step t).map Ctl.erase = some c₁ := by rw [← Ctl.step_erase, hS.erase, hs]
  obtain ⟨ctl', hs', rfl⟩ := Option.map_eq_some_iff.mp hsc
  have hflow : Ctl.Flow I c.ctl ctl'.erase := ⟨c.store, c.mem, t, τ, m, hr, hs⟩
  obtain ⟨σ', hr', hA⟩ := c.ctl.action.run_agree I (fun v => Ctl.Live I v c.ctl)
    (env.garbage s.clock) hr (fun v hv => .use hv) hS.agree
  rw [← hS.erase, Ctl.action_erase, ← hS.mem] at hr'
  have hlen := Ctl.length_bodies_step hs
  have hpaid := hS.launches
  rcases Host.step_running (I := I) (K := K) (C := C) hS.device hr' hs' with
    hstep | ⟨h, p, b, k, rfl, hask, hstep⟩
  · refine .inl ⟨_, ctl', σ', hstep, rfl, ?_⟩
    refine hS.advance hr hs' rfl rfl rfl ?_ (hA.mono fun v hv => hv.back I hflow) hτ
    simp only
    omega
  · have hce : c.ctl = .done (.loop h () b.erase k.erase) := hS.erase.symm
    refine .inr ⟨h, p, b, k, rfl, hask, ?_, hstep⟩
    -- the end of the loop body changes nothing
    cases hs'
    rw [hce] at hr ⊢
    cases hr
    rfl

/-- **One step of the program is followed by the launches**: by one step, or, where the
kernel is suspended, by ending the launch and beginning the next. -/
theorem Sim.step (hlive : LiveSound I C K) {env : Env Var Val} (hty : WellTyped I K env.args)
    {c c' : Config Var Val Mem Unit} {s : Host Var Val Mem}
    {ctl : Ctl Var Val (Option (Chkpnt Var))} {σ : Store Var Val}
    (hS : Sim I C K c s ctl σ) (hkeeps : s.Keeps I C K env) (hc : c.step I = some c') :
    ∃ s' ctl' σ', s.Runs I K C env s' ∧ Sim I C K c' s' ctl' σ' := by
  rcases hS.follow hty hc with
    ⟨s', ctl', σ', hstep, -, hS'⟩ | ⟨h, p, b, k, rfl, hask, rfl, hstep⟩
  · exact ⟨s', ctl', σ', .single hstep, hS'⟩
  · obtain ⟨E, hE⟩ := hS.scope
    have hin : (K.root C).Inside ⟨E, .loop h (some p) b, k⟩ := hE
    have hce : c.ctl = .done (.loop h () b.erase k.erase) := hS.erase.symm
    have hpaid := hS.launches
    refine ⟨_, .next h (some p) b k, K.loadPrivate p.saved (K.storePrivate p.saved σ s.prv)
      (K.entryStore env.args (env.garbage (s.clock + 1))),
      .tail (.single hstep) (Host.step_resume hin rfl rfl), ?_⟩
    refine hS.advance (t := true) (τ := c.store) (m := c.mem) (by rw [hce]; rfl) rfl
      (by rw [hce]; rfl) rfl hS.mem ?_ ?_ hS.typed
    · rw [hce] at hpaid
      simp only [Ctl.erase, Ctl.rest, Cont.bodies, List.length_cons] at hpaid ⊢
      omega
    · intro v hv a ha
      have hres := hkeeps h p b k σ hS.device hask v hv
      obtain ⟨hsaved, hl⟩ := hS.mem_saved hlive hv hres
      exact Kernel.loadPrivate_storePrivate hsaved hres.1 (hS.agree v hl a ha) (hS.typed v a ha) _

/-- A whole run of the program is followed by the launches. -/
theorem Sim.runs (hlive : LiveSound I C K) {env : Env Var Val} (hty : WellTyped I K env.args)
    {m : Mem} (hkeeps : ∀ s c ctl σ, (Host.init m).Runs I K C env s → Sim I C K c s ctl σ →
      s.Keeps I C K env)
    {c : Config Var Val Mem Unit} (hrun : (K.start env.args m).Runs I c) :
    ∃ s ctl σ, (Host.init m).Runs I K C env s ∧ Sim I C K c s ctl σ := by
  induction hrun with
  | refl =>
    obtain ⟨s, σ, hs, hS⟩ := Sim.init (C := C) hty m
    exact ⟨s, _, σ, hs, hS⟩
  | tail _ hc ih =>
    obtain ⟨s, ctl, σ, hs, hS⟩ := ih
    obtain ⟨s', ctl', σ', hs', hS'⟩ := hS.step hlive hty (hkeeps s _ ctl σ hs hS) hc
    exact ⟨s', ctl', σ', hs.trans hs', hS'⟩

/-- Where the program has returned, the launch ends with the header 0. -/
theorem Sim.step_fin {env : Env Var Val} {c : Config Var Val Mem Unit} {s : Host Var Val Mem}
    {ctl : Ctl Var Val (Option (Chkpnt Var))} {σ : Store Var Val} (hS : Sim I C K c s ctl σ)
    (hfin : c.ctl = .fin) : s.step I K C env = some { s with hdr := 0, device := none } := by
  have hctl : ctl = .fin := by
    have he := hS.erase
    rw [hfin] at he
    match ctl, he with
    | .fin, _ => rfl
  unfold Host.step
  rw [hS.device, hctl]

/-- Where every suspension brings back what is needed, the launches follow the program. -/
theorem Restores.runs (env : Env Var Val) (hK : Restores I C K env.args) {m : Mem}
    {c : Config Var Val Mem Unit} (hrun : (K.start env.args m).Runs I c) :
    ∃ s ctl σ, (Host.init m).Runs I K C env s ∧ Sim I C K c s ctl σ :=
  Sim.runs hK.live hK.typed (fun _ _ _ _ _ hS => hK.keeps env hS) hrun

namespace CountKernel

/-- Numbers of 8 bits, with 0 for false, and a memory of numbers. -/
def interp : Interp UInt8 (Nat → Nat) where
  truthy a := a != 0
  ofBool b := if b then 1 else 0
  load m a := some (UInt8.ofNat (m a.toNat))
  store m a b := some (Function.update m a.toNat b.toNat)

/-- A type of one byte, with an alignment in bits. -/
def charType (align : Nat) (x : String) : VarType UInt8 where
  decl := ⟨0, x, 8, align, .opencl_private⟩
  bytes a _ := a.getD 0
  value f := some (f 0)
  isPrivate := rfl

theorem represents_charType (align : Nat) (x : String) (a : UInt8) :
    (charType align x).Represents a :=
  fun _ hf => congrArg some (hf 0 (by simp [charType, VarDecl.size]))

/-- `uchar i = 0; while (i < n) { i = i + 1; out[i] = i; }`, for the parameter `n` -/
def kernel : Kernel String UInt8 where
  params := ["n"]
  body := .seq (.decl "i" (some (.const 0)))
    (.loop (.whileStmt 0 (.op (fun a b => some (if a < b then 1 else 0)) (.var "i") (.var "n"))) ()
      (.compound (.seq
        (.expr (.assign "i" (.op (fun a b => some (a + b)) (.var "i") (.const 1))))
        (.expr (.store (.var "i") (.var "i"))))))
  inScope := by simp [Stmt.Scoped, Stmt.after, Expr.vars, LoopHead.cond, LoopHead.inc]
  type := charType 8

/-- Both variables are live wherever the loop is left or repeated. -/
def clang : Clang String UInt8 Unit where
  isLive _ _ := true
  getBlock _ := some ()
  evaluate _ := none
  tryEvaluateBool _ := none

/-- Two rounds, and a checkpoint whenever it is asked for. -/
def env : Env String UInt8 where
  args _ := some 2
  shouldChkpnt _ := true
  garbage _ _ := some 77

theorem keepsEdge_clang (h : LoopHead String UInt8) : keepsEdge clang h = true := by
  unfold keepsEdge
  cases h.cond <;> rfl

/-- Every suspension of the kernel brings back what is needed. -/
theorem restores : Restores interp clang kernel env.args where
  live _ _ _ _ _ _ _ _ _ := rfl
  typed := ⟨fun v a _ => represents_charType 8 v a, fun _ _ _ _ _ _ v a _ =>
    represents_charType 8 v a⟩
  whole _ := one_dvd _
  edge _ h _ _ _ _ := keepsEdge_clang h

end CountKernel

/-! ## Kernels that do not get back what they need -/

namespace StoreKernel
open CountKernel

/-- `x = 5; do { } while (f(g[0] = x, b));`, where the type of `x` has an alignment -/
def kernel (align : Nat) (f : UInt8 → UInt8 → UInt8) (b : UInt8) : Kernel String UInt8 where
  params := []
  body := .seq (.decl "x" (some (.const 5)))
    (.loop (.doStmt 0
      (.op (fun a b => some (f a b)) (.store (.const 0) (.var "x")) (.const b))) ()
      (.compound .skip))
  inScope := by simp [Stmt.Scoped, Stmt.after, Expr.vars, LoopHead.cond, LoopHead.inc]
  type := charType align

end StoreKernel
end Clpkm
