import Clpkm.Machine
import Clpkm.Pipe

/-!
# Driving the compiler through pipes

`Compile` forks the compiler and is coupled to it by three pipes.  The parent writes
the source to `SrcPipe`, then reads `OutPipe` to its end, then `YamlPipe`, and only
then waits for the child.  The child reads its whole input and then writes to stdout
and stderr as its `Script` for this input says.  The write end of a pipe to the parent
is open until the child exits.  The model has the runs whose system calls succeed; a
write or a read moves any number of bytes the pipe has room or content for.

While the parent reads `OutPipe` nobody reads `YamlPipe`.  So the child gets to its end
if what it writes to stderr fits into the pipe, and otherwise no run comes to an end
(`compile_progress_iff`).  A run that comes to an end has transmitted both texts whole
(`Inv.returned`).
-/

namespace Clpkm
namespace Compiler
namespace Pipes

universe u

/-- The capacities of the three pipes. -/
structure Capacity where
  src : Nat
  out : Nat
  yaml : Nat
  src_pos : 0 < src
  out_pos : 0 < out
  yaml_pos : 0 < yaml

/-- The streams the child writes to. -/
inductive Stream
  | stdout
  | stderr
  deriving DecidableEq, Repr

/-- The writes of the child in their order. -/
abbrev Script (Byte : Type u) := List (Stream × List Byte)

/-- How far `Compile` got after the fork. -/
inductive Parent (Byte : Type u)
  /-- in `FullWrite`, with this part of the source left -/
  | writeSource (left : List Byte)
  | readOut
  | readYaml
  | wait
  | returned
  deriving DecidableEq

/-- How far the compiler got. -/
inductive Child (Byte : Type u)
  | reading (input : List Byte)
  | writing (left : Script Byte)
  | exited
  deriving DecidableEq

/-- Both processes and the pipes between them. -/
structure State (Byte : Type u) (c : Capacity) where
  parent : Parent Byte
  child : Child Byte
  srcPipe : Pipe Byte c.src
  outPipe : Pipe Byte c.out
  yamlPipe : Pipe Byte c.yaml
  out : List Byte
  yaml : List Byte

/-- Who moves, and how many bytes. -/
inductive Label
  | parent (k : Nat)
  | child (k : Nat)
  deriving DecidableEq, Repr

variable {Byte : Type u} {c : Capacity}

/-- The write end of `SrcPipe` is open. -/
def Parent.writes : Parent Byte → Bool
  | .writeSource _ => true
  | _ => false

/-- The write ends of `OutPipe` and `YamlPipe` are open. -/
def Child.writes : Child Byte → Bool
  | .exited => false
  | _ => true

/-- The size of `Buffer`. -/
def bufferSize : Nat := 1024

/-- The next step of `Compile`. -/
def State.stepParent (s : State Byte c) (k : Nat) : Option (State Byte c) :=
  match s.parent with
  | .writeSource [] => some { s with parent := .readOut }
  | .writeSource left =>
    (s.srcPipe.write left k).map fun r =>
      { s with parent := .writeSource r.2, srcPipe := r.1 }
  | .readOut =>
    (s.outPipe.read s.child.writes (min k bufferSize)).map fun r =>
      if r.1.isEmpty then { s with parent := .readYaml }
      else { s with outPipe := r.2, out := s.out ++ r.1 }
  | .readYaml =>
    (s.yamlPipe.read s.child.writes (min k bufferSize)).map fun r =>
      if r.1.isEmpty then { s with parent := .wait }
      else { s with yamlPipe := r.2, yaml := s.yaml ++ r.1 }
  | .wait => if s.child.writes then none else some { s with parent := .returned }
  | .returned => none

/-- The next step of the compiler. -/
def State.stepChild (script : List Byte → Script Byte) (s : State Byte c) (k : Nat) :
    Option (State Byte c) :=
  match s.child with
  | .reading input =>
    (s.srcPipe.read s.parent.writes k).map fun r =>
      if r.1.isEmpty then { s with child := .writing (script input) }
      else { s with child := .reading (input ++ r.1), srcPipe := r.2 }
  | .writing [] => some { s with child := .exited }
  | .writing ((_, []) :: left) => some { s with child := .writing left }
  | .writing ((.stdout, text) :: left) =>
    (s.outPipe.write text k).map fun r =>
      { s with child := .writing ((.stdout, r.2) :: left), outPipe := r.1 }
  | .writing ((.stderr, text) :: left) =>
    (s.yamlPipe.write text k).map fun r =>
      { s with child := .writing ((.stderr, r.2) :: left), yamlPipe := r.1 }
  | .exited => none

/-- After the fork. -/
def State.init (c : Capacity) (source : List Byte) : State Byte c :=
  ⟨.writeSource source, .reading [], .empty, .empty, .empty, [], []⟩

/-- `Compile` and a compiler that behaves as the script says. -/
def compile (c : Capacity) (source : List Byte) (script : List Byte → Script Byte) :
    Machine (State Byte c) Label where
  Initial s := s = State.init c source
  step s
    | .parent k => s.stepParent k
    | .child k => s.stepChild script k

/-- Both processes are done. -/
def State.Finished (s : State Byte c) : Prop := s.parent = .returned ∧ s.child = .exited

/-- What a script writes to a stream. -/
def written (stream : Stream) : Script Byte → List Byte
  | [] => []
  | (target, text) :: left =>
    if target = stream then text ++ written stream left else written stream left

/-- The part of the source that is not in the pipe yet. -/
def Parent.left : Parent Byte → List Byte
  | .writeSource left => left
  | _ => []

/-- The steps of `Compile` that have come to their end. -/
def Parent.stage : Parent Byte → Nat
  | .writeSource _ => 0
  | .readOut => 1
  | .readYaml => 2
  | .wait => 3
  | .returned => 4

/-- What the child will still write to a stream, for a child with this whole script. -/
def Child.left (whole : Script Byte) (stream : Stream) : Child Byte → List Byte
  | .reading _ => written stream whole
  | .writing left => written stream left
  | .exited => []

/-! ## The invariant -/

/-- Where the bytes of the source and of the two texts are. -/
structure Inv (source : List Byte) (whole : Script Byte) (s : State Byte c) : Prop where
  source : ∀ input, s.child = .reading input →
    input ++ (s.srcPipe.bytes ++ s.parent.left) = source
  sent : (∀ input, s.child ≠ .reading input) → 1 ≤ s.parent.stage
  out : s.out ++ (s.outPipe.bytes ++ s.child.left whole .stdout) = written .stdout whole
  yaml : s.yaml ++ (s.yamlPipe.bytes ++ s.child.left whole .stderr) = written .stderr whole
  outRead : 2 ≤ s.parent.stage → s.child = .exited ∧ s.outPipe.bytes = []
  yamlUnread : s.parent.stage < 2 → s.yaml = []
  yamlRead : 3 ≤ s.parent.stage → s.yamlPipe.bytes = []
  fits : s.child = .exited → (written .stderr whole).length ≤ c.yaml

namespace Inv
variable {source : List Byte} {script : List Byte → Script Byte} {whole : Script Byte}
  {s t : State Byte c} {k : Nat}

theorem init (c : Capacity) (source : List Byte) (whole : Script Byte) :
    Inv source whole (State.init c source) where
  source := by
    rintro input ⟨⟩
    rfl
  sent h := absurd rfl (h [])
  out := rfl
  yaml := rfl
  outRead h := ((by decide : ¬2 ≤ 0) h).elim
  yamlUnread _ := rfl
  yamlRead h := ((by decide : ¬3 ≤ 0) h).elim
  fits h := by cases h

theorem stepParent (h : Inv source whole s) (hs : s.stepParent k = some t) :
    Inv source whole t := by
  obtain ⟨parent, child, srcPipe, outPipe, yamlPipe, out, yaml⟩ := s
  cases parent with
  | writeSource left =>
    cases left with
    | nil =>
      cases hs
      exact { h with
        sent := fun _ => Nat.le_refl 1
        outRead := fun hp => ((by decide : ¬2 ≤ 1) hp).elim
        yamlUnread := fun _ => h.yamlUnread (by decide : 0 < 2)
        yamlRead := fun hp => ((by decide : ¬3 ≤ 1) hp).elim }
    | cons b left =>
      obtain ⟨r, hr, rfl⟩ := Option.map_eq_some_iff.mp hs
      obtain ⟨hbytes, _⟩ := Pipe.write_cases hr
      exact { h with
        source := fun input hc => by
          show input ++ (r.1.bytes ++ r.2) = source
          rw [hbytes]
          exact h.source input hc }
  | readOut =>
    obtain ⟨⟨got, q⟩, hr, ht⟩ := Option.map_eq_some_iff.mp hs
    rcases Pipe.read_cases hr with ⟨rfl, rfl, hempty, hexit⟩ | ⟨hgot, hbytes, _⟩
    · cases ht
      have hchild : child = .exited := by
        cases child with
        | exited => rfl
        | _ => cases hexit
      exact { h with
        sent := fun _ => (by decide : 1 ≤ 2)
        outRead := fun _ => ⟨hchild, hempty⟩
        yamlUnread := fun hp => ((by decide : ¬2 < 2) hp).elim
        yamlRead := fun hp => ((by decide : ¬3 ≤ 2) hp).elim }
    · rw [if_neg (mt List.isEmpty_iff.mp hgot)] at ht
      cases ht
      exact { h with
        out := by
          show out ++ got ++ (q.bytes ++ _) = _
          rw [List.append_assoc, ← List.append_assoc got, hbytes]
          exact h.out
        outRead := fun hp => ((by decide : ¬2 ≤ 1) hp).elim }
  | readYaml =>
    obtain ⟨⟨got, q⟩, hr, ht⟩ := Option.map_eq_some_iff.mp hs
    rcases Pipe.read_cases hr with ⟨rfl, rfl, hempty, _⟩ | ⟨hgot, hbytes, _⟩
    · cases ht
      exact { h with
        sent := fun _ => (by decide : 1 ≤ 3)
        outRead := fun _ => h.outRead (Nat.le_refl 2)
        yamlUnread := fun hp => ((by decide : ¬3 < 2) hp).elim
        yamlRead := fun _ => hempty }
    · rw [if_neg (mt List.isEmpty_iff.mp hgot)] at ht
      cases ht
      exact { h with
        yaml := by
          show yaml ++ got ++ (q.bytes ++ _) = _
          rw [List.append_assoc, ← List.append_assoc got, hbytes]
          exact h.yaml
        yamlUnread := fun hp => ((by decide : ¬2 < 2) hp).elim
        yamlRead := fun hp => ((by decide : ¬3 ≤ 2) hp).elim }
  | wait =>
    change (if child.writes then none else some _) = some t at hs
    split at hs
    · cases hs
    · cases hs
      exact { h with
        sent := fun _ => (by decide : 1 ≤ 4)
        outRead := fun _ => h.outRead (by decide : 2 ≤ 3)
        yamlUnread := fun hp => ((by decide : ¬4 < 2) hp).elim
        yamlRead := fun _ => h.yamlRead (Nat.le_refl 3) }
  | returned => cases hs

/-- The child has read the whole source when it comes to the end of its input. -/
theorem input_eq {input : List Byte} (h : Inv source whole s) (hchild : s.child = .reading input)
    (hempty : s.srcPipe.bytes = []) (hclosed : s.parent.writes = false) :
    input = source ∧ 1 ≤ s.parent.stage := by
  have hleft : s.parent.left = [] ∧ 1 ≤ s.parent.stage := by
    cases hp : s.parent with
    | writeSource left =>
      rw [hp] at hclosed
      cases hclosed
    | _ => exact ⟨rfl, Nat.succ_le_succ (Nat.zero_le _)⟩
  have hsource := h.source input hchild
  rw [hempty, hleft.1, List.append_nil, List.append_nil] at hsource
  exact ⟨hsource, hleft.2⟩

/-- While the child has not exited, what it wrote to stderr is in the pipe. -/
theorem yaml_eq_nil (h : Inv source whole s) (hchild : s.child ≠ .exited) : s.yaml = [] := by
  apply h.yamlUnread
  by_contra hstage
  exact hchild (h.outRead (Nat.not_lt.mp hstage)).1

theorem stepChild (h : Inv source (script source) s) (hs : s.stepChild script k = some t) :
    Inv source (script source) t := by
  have hyaml := h.yaml_eq_nil
  obtain ⟨parent, child, srcPipe, outPipe, yamlPipe, out, yaml⟩ := s
  cases child with
  | reading input =>
    -- the parent comes to the end of the output only when the child has exited
    have hstage : ¬2 ≤ parent.stage := fun hp => by cases (h.outRead hp).1
    obtain ⟨⟨got, q⟩, hr, ht⟩ := Option.map_eq_some_iff.mp hs
    rcases Pipe.read_cases hr with ⟨rfl, rfl, hempty, hclosed⟩ | ⟨hgot, hbytes, _⟩
    · cases ht
      obtain ⟨hinput, hsent⟩ := h.input_eq rfl hempty hclosed
      rw [← hinput] at h ⊢
      exact { h with
        source := nofun
        sent := fun _ => hsent
        outRead := fun hp => absurd hp hstage
        fits := nofun }
    · rw [if_neg (mt List.isEmpty_iff.mp hgot)] at ht
      cases ht
      exact { h with
        source := by
          rintro _ ⟨⟩
          show input ++ got ++ (q.bytes ++ _) = source
          rw [List.append_assoc, ← List.append_assoc got, hbytes]
          exact h.source input rfl
        sent := fun hne => absurd rfl (hne _)
        outRead := fun hp => absurd hp hstage
        fits := nofun }
  | writing left =>
    have hstage : ¬2 ≤ parent.stage := fun hp => by cases (h.outRead hp).1
    cases hyaml nofun
    cases left with
    | nil =>
      cases hs
      exact { h with
        source := nofun
        sent := fun _ => h.sent nofun
        outRead := fun hp => absurd hp hstage
        fits := fun _ => by
          rw [← h.yaml]
          simpa [Child.left, written] using yamlPipe.fits }
    | cons w left =>
      obtain ⟨stream, text⟩ := w
      cases text with
      | nil =>
        cases hs
        have hskip : ∀ target : Stream, written target ((stream, []) :: left) =
            written target left := fun target => by
          rw [written]
          split <;> rfl
        exact { h with
          source := nofun
          sent := fun _ => h.sent nofun
          out := by
            rw [← h.out]
            exact congrArg (fun rest => out ++ (outPipe.bytes ++ rest)) (hskip .stdout).symm
          yaml := by
            rw [← h.yaml]
            exact congrArg (fun rest => [] ++ (yamlPipe.bytes ++ rest)) (hskip .stderr).symm
          outRead := fun hp => absurd hp hstage
          fits := nofun }
      | cons b text =>
        cases stream with
        | stdout =>
          obtain ⟨r, hr, rfl⟩ := Option.map_eq_some_iff.mp hs
          obtain ⟨hbytes, _⟩ := Pipe.write_cases hr
          exact { h with
            source := nofun
            sent := fun _ => h.sent nofun
            out := by
              rw [← h.out]
              show out ++ (r.1.bytes ++ (r.2 ++ _)) = out ++ (outPipe.bytes ++ (b :: text ++ _))
              rw [← List.append_assoc r.1.bytes, hbytes, List.append_assoc]
            outRead := fun hp => absurd hp hstage
            fits := nofun }
        | stderr =>
          obtain ⟨r, hr, rfl⟩ := Option.map_eq_some_iff.mp hs
          obtain ⟨hbytes, _⟩ := Pipe.write_cases hr
          exact { h with
            source := nofun
            sent := fun _ => h.sent nofun
            yaml := by
              rw [← h.yaml]
              show [] ++ (r.1.bytes ++ (r.2 ++ _)) = [] ++ (yamlPipe.bytes ++ (b :: text ++ _))
              rw [← List.append_assoc r.1.bytes, hbytes, List.append_assoc]
            outRead := fun hp => absurd hp hstage
            yamlRead := fun hp => absurd (Nat.le_of_succ_le hp) hstage
            fits := nofun }
  | exited => cases hs

/-- `compile` keeps the invariant. -/
theorem of_reachable (hs : (compile c source script).Reachable s) :
    Inv source (script source) s := by
  apply hs.invariant
  · rintro s rfl
    exact init c source _
  · intro s l t h hst
    cases l with
    | parent k => exact h.stepParent hst
    | child k => exact h.stepChild hst

/-- When both processes are done, the parent has what the child wrote. -/
theorem returned (h : Inv source whole s) (hs : s.Finished) :
    s.out = written .stdout whole ∧ s.yaml = written .stderr whole := by
  obtain ⟨hparent, hchild⟩ := hs
  have hstage : s.parent.stage = 4 := by
    rw [hparent]
    rfl
  have hout := h.out
  have hyaml := h.yaml
  rw [(h.outRead (by omega)).2, hchild] at hout
  rw [h.yamlRead (by omega), hchild] at hyaml
  simp only [Child.left, List.append_nil] at hout hyaml
  exact ⟨hout, hyaml⟩

/-- A child that has not exited finds room for what it writes to stderr, if all of it
fits into the pipe. -/
theorem room (h : Inv source whole s) (hchild : s.child ≠ .exited)
    (hleft : s.child.left whole .stderr ≠ [])
    (hfits : (written .stderr whole).length ≤ c.yaml) : s.yamlPipe.bytes.length < c.yaml := by
  have hlen := congrArg List.length h.yaml
  rw [h.yaml_eq_nil hchild, List.nil_append, List.length_append] at hlen
  have := List.length_pos_iff.mpr hleft
  omega

/-- The child or the parent can move while the child has not exited. -/
theorem enabled_child (h : Inv source (script source) s) (hchild : s.child ≠ .exited)
    (hfits : (written .stderr (script source)).length ≤ c.yaml) :
    (∃ t, s.stepChild script 1 = some t) ∨ ∃ t, s.stepParent 1 = some t := by
  have hroom := h.room hchild
  have hstage := fun h2 => hchild (h.outRead h2).1
  obtain ⟨parent, child, srcPipe, outPipe, yamlPipe, out, yaml⟩ := s
  cases child with
  | reading input =>
    by_cases hread : srcPipe.bytes ≠ [] ∨ parent.writes = false
    · obtain ⟨r, hr⟩ := Pipe.exists_read hread
      exact .inl ⟨_, congrArg (Option.map _) hr⟩
    · obtain ⟨hempty, hwrites⟩ := not_or.mp hread
      cases parent with
      | writeSource left =>
        cases left with
        | nil => exact .inr ⟨_, rfl⟩
        | cons b left =>
          have hsrc : srcPipe.bytes.length < c.src := by
            rw [not_not.mp hempty]
            exact c.src_pos
          obtain ⟨r, hr⟩ := Pipe.exists_write (List.cons_ne_nil b left) hsrc
          exact .inr ⟨_, congrArg (Option.map _) hr⟩
      | _ => exact absurd rfl hwrites
  | writing left =>
    have hsent := h.sent nofun
    match left with
    | [] => exact .inl ⟨_, rfl⟩
    | (_, []) :: left => exact .inl ⟨_, rfl⟩
    | (.stdout, b :: text) :: left =>
      by_cases hfull : outPipe.bytes.length < c.out
      · obtain ⟨r, hr⟩ := Pipe.exists_write (List.cons_ne_nil b text) hfull
        exact .inl ⟨_, congrArg (Option.map _) hr⟩
      -- the pipe is full, so the parent has something to read from it
      · cases parent with
        | readOut =>
          have hbytes : outPipe.bytes ≠ [] := by
            intro hempty
            rw [hempty] at hfull
            exact hfull c.out_pos
          obtain ⟨r, hr⟩ := Pipe.exists_read (.inl hbytes)
          exact .inr ⟨_, congrArg (Option.map _) hr⟩
        | writeSource left => exact absurd hsent (by decide : ¬1 ≤ 0)
        | readYaml => exact absurd (Nat.le_refl 2) hstage
        | wait => exact absurd (by decide : 2 ≤ 3) hstage
        | returned => exact absurd (by decide : 2 ≤ 4) hstage
    | (.stderr, b :: text) :: left =>
      obtain ⟨r, hr⟩ := Pipe.exists_write (List.cons_ne_nil b text) (hroom nofun hfits)
      exact .inl ⟨_, congrArg (Option.map _) hr⟩
  | exited => exact absurd rfl hchild

/-- Once the child has exited nothing keeps the parent from going on. -/
theorem enabled_parent (h : Inv source whole s) (hchild : s.child = .exited)
    (hparent : s.parent ≠ .returned) : ∃ t, s.stepParent 1 = some t := by
  have hsent := h.sent fun input hc => by cases hchild.symm.trans hc
  obtain ⟨parent, child, srcPipe, outPipe, yamlPipe, out, yaml⟩ := s
  cases hchild
  cases parent with
  | writeSource left => exact absurd hsent (by decide : ¬1 ≤ 0)
  | readOut =>
    obtain ⟨r, hr⟩ := Pipe.exists_read (p := outPipe) (.inr rfl)
    exact ⟨_, congrArg (Option.map _) hr⟩
  | readYaml =>
    obtain ⟨r, hr⟩ := Pipe.exists_read (p := yamlPipe) (.inr rfl)
    exact ⟨_, congrArg (Option.map _) hr⟩
  | wait => exact ⟨_, rfl⟩
  | returned => exact absurd rfl hparent

theorem enabled (h : Inv source (script source) s)
    (hfits : (written .stderr (script source)).length ≤ c.yaml) (hs : ¬s.Finished) :
    (compile c source script).Enabled s := by
  by_cases hchild : s.child = .exited
  · obtain ⟨t, ht⟩ := h.enabled_parent hchild fun hparent => hs ⟨hparent, hchild⟩
    exact ⟨.parent 1, t, ht⟩
  · rcases h.enabled_child hchild hfits with ⟨t, ht⟩ | ⟨t, ht⟩
    · exact ⟨.child 1, t, ht⟩
    · exact ⟨.parent 1, t, ht⟩

end Inv

/-! ## Every run is finite -/

/-- How many steps a script takes at most, where a byte counts twice: once into the pipe
and once out of it. -/
def cost : Script Byte → Nat
  | [] => 1
  | (_, text) :: left => 2 * text.length + cost left + 1

/-- How many steps the child takes at most, for a child with this whole script. -/
def Child.cost (whole : Script Byte) : Child Byte → Nat
  | .reading _ => Pipes.cost whole + 1
  | .writing left => Pipes.cost left
  | .exited => 0

/-- How many steps are left at most. -/
def State.cost (whole : Script Byte) (s : State Byte c) : Nat :=
  4 - s.parent.stage + 2 * s.parent.left.length + s.child.cost whole +
    s.srcPipe.bytes.length + s.outPipe.bytes.length + s.yamlPipe.bytes.length

section runs
variable {source : List Byte} {script : List Byte → Script Byte} {whole : Script Byte}
  {s t : State Byte c} {k : Nat}

theorem cost_stepParent (hs : s.stepParent k = some t) : t.cost whole < s.cost whole := by
  obtain ⟨parent, child, srcPipe, outPipe, yamlPipe, out, yaml⟩ := s
  cases parent with
  | writeSource left =>
    cases left with
    | nil =>
      cases hs
      simp only [State.cost, Parent.stage, Parent.left, List.length_nil]
      omega
    | cons b left =>
      obtain ⟨r, hr, rfl⟩ := Option.map_eq_some_iff.mp hs
      obtain ⟨hlen, hlt⟩ := Pipe.length_of_write hr
      dsimp only at hlen
      simp only [State.cost, Parent.stage, Parent.left]
      omega
  | readOut =>
    obtain ⟨⟨got, q⟩, hr, ht⟩ := Option.map_eq_some_iff.mp hs
    rcases Pipe.read_cases hr with ⟨rfl, _, _, _⟩ | ⟨hgot, _, hlt⟩
    · cases ht
      simp only [State.cost, Parent.stage, Parent.left, List.isEmpty_nil, if_true]
      omega
    · rw [if_neg (mt List.isEmpty_iff.mp hgot)] at ht
      cases ht
      change q.bytes.length < outPipe.bytes.length at hlt
      simp only [State.cost]
      omega
  | readYaml =>
    obtain ⟨⟨got, q⟩, hr, ht⟩ := Option.map_eq_some_iff.mp hs
    rcases Pipe.read_cases hr with ⟨rfl, _, _, _⟩ | ⟨hgot, _, hlt⟩
    · cases ht
      simp only [State.cost, Parent.stage, Parent.left, List.isEmpty_nil, if_true]
      omega
    · rw [if_neg (mt List.isEmpty_iff.mp hgot)] at ht
      cases ht
      change q.bytes.length < yamlPipe.bytes.length at hlt
      simp only [State.cost]
      omega
  | wait =>
    change (if child.writes then none else some _) = some t at hs
    split at hs
    · cases hs
    · cases hs
      simp only [State.cost, Parent.stage, Parent.left]
      omega
  | returned => cases hs

theorem cost_stepChild (h : Inv source (script source) s) (hs : s.stepChild script k = some t) :
    t.cost (script source) < s.cost (script source) := by
  obtain ⟨parent, child, srcPipe, outPipe, yamlPipe, out, yaml⟩ := s
  cases child with
  | reading input =>
    obtain ⟨⟨got, q⟩, hr, ht⟩ := Option.map_eq_some_iff.mp hs
    rcases Pipe.read_cases hr with ⟨rfl, rfl, hempty, hclosed⟩ | ⟨hgot, _, hlt⟩
    · cases ht
      obtain ⟨hinput, _⟩ := h.input_eq rfl hempty hclosed
      simp only [State.cost, Child.cost, List.isEmpty_nil, if_true, hinput]
      omega
    · rw [if_neg (mt List.isEmpty_iff.mp hgot)] at ht
      cases ht
      change q.bytes.length < srcPipe.bytes.length at hlt
      simp only [State.cost, Child.cost]
      omega
  | writing left =>
    match left with
    | [] =>
      cases hs
      simp only [State.cost, Child.cost, cost]
      omega
    | (_, []) :: left =>
      cases hs
      simp only [State.cost, Child.cost, cost, List.length_nil]
      omega
    | (.stdout, b :: text) :: left =>
      obtain ⟨r, hr, rfl⟩ := Option.map_eq_some_iff.mp hs
      obtain ⟨hlen, hlt⟩ := Pipe.length_of_write hr
      dsimp only at hlen
      simp only [State.cost, Child.cost, cost]
      omega
    | (.stderr, b :: text) :: left =>
      obtain ⟨r, hr, rfl⟩ := Option.map_eq_some_iff.mp hs
      obtain ⟨hlen, hlt⟩ := Pipe.length_of_write hr
      dsimp only at hlen
      simp only [State.cost, Child.cost, cost]
      omega
  | exited => cases hs

/-- Every run of `compile` goes on to a state in which nobody can move. -/
theorem exists_not_enabled (c : Capacity) (source : List Byte)
    (script : List Byte → Script Byte) :
    ∃ s, (compile c source script).Reachable s ∧ ¬(compile c source script).Enabled s := by
  have h0 : (compile c source script).Reachable (State.init c source) := .initial rfl
  apply h0.exists_not_enabled (State.cost (script source))
  intro s l t hs hst
  cases l with
  | parent k => exact cost_stepParent hst
  | child k => exact cost_stepChild (Inv.of_reachable hs) hst

/-- Both processes hang if the child writes more to stderr than `YamlPipe` holds. -/
theorem exists_deadlock (hlong : c.yaml < (written .stderr (script source)).length) :
    ∃ s, (compile c source script).Reachable s ∧ ¬s.Finished ∧
      ¬(compile c source script).Enabled s := by
  obtain ⟨s, hs, hstuck⟩ := exists_not_enabled c source script
  refine ⟨s, hs, fun hfinished => ?_, hstuck⟩
  have := (Inv.of_reachable hs).fits hfinished.2
  omega

end runs

/-- **Driving the compiler deadlocks unless its stderr fits into the pipe.**  In every
reachable state both processes are done or one of them can move, if and only if the
child writes no more to stderr for this source than `YamlPipe` holds. -/
theorem compile_progress_iff (c : Capacity) (source : List Byte)
    (script : List Byte → Script Byte) :
    (∀ s, (compile c source script).Reachable s →
      s.Finished ∨ (compile c source script).Enabled s) ↔
    (written .stderr (script source)).length ≤ c.yaml := by
  constructor
  · intro h
    by_contra hlong
    obtain ⟨s, hs, hunfinished, hstuck⟩ := exists_deadlock (Nat.not_le.mp hlong)
    exact (h s hs).elim hunfinished hstuck
  · intro hfits s hs
    by_cases hfinished : s.Finished
    · exact .inl hfinished
    · exact .inr ((Inv.of_reachable hs).enabled hfits hfinished)

/-- Pipes of 64 KiB. -/
def Capacity.linux : Capacity := ⟨65536, 65536, 65536, by decide, by decide, by decide⟩

/-- A compiler that reports one byte more than a pipe holds. -/
def verbose : List UInt8 → Script UInt8 := fun _ => [(.stderr, List.replicate 65537 0)]

theorem compile_not_progress :
    ¬∀ s, (compile Capacity.linux [0] verbose).Reachable s →
      s.Finished ∨ (compile Capacity.linux [0] verbose).Enabled s := by
  intro h
  have hlong : Capacity.linux.yaml < (written .stderr (verbose [0])).length := by
    show 65536 < (List.replicate 65537 (0 : UInt8) ++ []).length
    rw [List.append_nil, List.length_replicate]
    decide
  obtain ⟨s, hs, hunfinished, hstuck⟩ := exists_deadlock hlong
  exact (h s hs).elim hunfinished hstuck

end Pipes
end Compiler
end Clpkm
