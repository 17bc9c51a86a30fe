import Clpkm.Deadline
import Clpkm.Preemptible

/-!
# How far it is to the next checkpoint

`staysPreemptible_iff` says that a loop does not come around without a test of a checkpoint.
Here the same condition gives a number: `Kernel.latency` bounds the steps from any test of
`__clpkm_should_chkpnt`, or from the start of a launch, to the next test or to the end of the
launch.  It is computed from the statement alone.

A statement on its own takes at most `weight` steps until it is left or a checkpoint is tested,
because the body of a loop is entered at most once on the way (`deadline_exec`).  A
continuation may enter the body of every loop around it once more (`Cont.fuel`); so the bound
is the weight of the kernel, once and once more for each level of loops (`Cont.Fits`).
-/

namespace Clpkm
open Lang Instrumentor

variable {Var Val Mem Block α : Type}

namespace Lang

/-- The steps that a statement takes at most when the body of no loop is entered twice. -/
def Stmt.weight : Stmt Var Val α → Nat
  | .seq s t => s.weight + t.weight + 2
  | .compound s => s.weight + 1
  | .ifStmt _ s t => s.weight + t.weight + 1
  | .loop _ _ b => b.weight + 5
  | .returnStmt => 2
  | _ => 1

/-- How deep loops are nested. -/
def Stmt.loopDepth : Stmt Var Val α → Nat
  | .seq s t | .ifStmt _ s t => max s.loopDepth t.loopDepth
  | .compound s => s.loopDepth
  | .loop _ _ b => b.loopDepth + 1
  | _ => 0

theorem Stmt.weight_erase (s : Stmt Var Val α) : s.erase.weight = s.weight := by
  induction s with
  | seq s t ihs iht | ifStmt e s t ihs iht => simp only [erase, weight, ihs, iht]
  | compound s ih | loop h a b ih => simp only [erase, weight, ih]
  | _ => rfl

theorem Stmt.loopDepth_erase (s : Stmt Var Val α) : s.erase.loopDepth = s.loopDepth := by
  induction s with
  | seq s t ihs iht | ifStmt e s t ihs iht => simp only [erase, loopDepth, ihs, iht]
  | compound s ih | loop h a b ih => simp only [erase, loopDepth, ih]
  | _ => rfl

/-- The steps of a continuation, when the body of every loop is entered once more. -/
def Cont.fuel : Cont Var Val α → Nat
  | .stop => 2
  | .seq t k => t.weight + k.fuel + 1
  | .loop _ _ b k => b.weight + k.fuel + 6

/-- The steps of a control, in the same sense. -/
def Ctl.fuel : Ctl Var Val α → Nat
  | .exec s k => s.weight + k.fuel
  | .done k | .brk k | .cont k => k.fuel
  | .next _ _ b k | .test _ _ b k => b.weight + k.fuel + 6
  | .fin => 1

end Lang

/-- A bound on the steps between two tests of `__clpkm_should_chkpnt`. -/
def Kernel.latency (K : Kernel Var Val) : Nat := (K.body.loopDepth + 1) * K.body.weight + 4

section
variable (C : Clang Var Val Block)

/-- A loop never repeats, or has a checkpoint that no `continue` goes past. -/
def TestedLoop (h : LoopHead Var Val) (c : Option (Chkpnt Var)) (b : Patched Var Val) : Prop :=
  neverRepeats C h = true ∨ (c.isSome = true ∧ (emittedExits C b).cont = false)

theorem everyLoop_testedLoop {s : Stmt Var Val Unit} (hs : everyLoopTested C s = true)
    (E : List Var) (n : Nat) : (traverse C s E n).1.EveryLoop (TestedLoop C) := by
  induction s generalizing E n with
  | seq s t ihs iht | ifStmt e s t ihs iht =>
    obtain ⟨hs, ht⟩ := Bool.and_eq_true_iff.mp hs
    exact ⟨ihs hs _ _, iht ht _ _⟩
  | compound s ih => exact ih hs E n
  | loop h a b ih =>
    obtain ⟨hb, hh⟩ := Bool.and_eq_true_iff.mp hs
    refine ⟨ih hb E n, ?_⟩
    by_cases hc : neverRepeats C h = true
    · exact .inl hc
    · refine .inr ⟨?_, ?_⟩
      · show (patchLoopBody C E (traverse C b E n).2 h).1.isSome = true
        rw [patchLoopBody, if_neg hc]
        rfl
      · show (emittedExits C (traverse C b E n).1).cont = false
        rw [emittedExits_traverse]
        have hcont := (Bool.or_eq_true_iff.mp hh).resolve_left hc
        rwa [Bool.not_eq_true'] at hcont
  | _ => exact trivial

/-- Every run tests a checkpoint within so many steps, or has ended. -/
abbrev TestsWithin (n : Nat) (c : Ctl Var Val (Option (Chkpnt Var))) : Prop :=
  Deadline (CtlStep C) (fun c => tests c = true) n c

variable {C}

section loop
variable {h : LoopHead Var Val} {c : Option (Chkpnt Var)} {b : Patched Var Val}
  {k : Cont Var Val (Option (Chkpnt Var))} {n : Nat}

/-- A step that goes on in one way only. -/
theorem testsWithin_pass {x y : Ctl Var Val (Option (Chkpnt Var))}
    (hs : ∀ t, x.step t = some y) (hy : TestsWithin C n y) : TestsWithin C (n + 1) x := by
  refine .head fun z hz => ?_
  obtain ⟨t, _, hz⟩ := hz
  rw [hs t] at hz
  cases hz
  exact hy

/-- A loop that never repeats ends at its condition. -/
theorem testsWithin_next_of_neverRepeats (hc : neverRepeats C h = true)
    (hd : TestsWithin C n (.done k)) : TestsWithin C (n + 2) (.next h c b k) := by
  refine testsWithin_pass (y := .test h c b k) (fun _ => rfl) (.head fun y hy => ?_)
  obtain ⟨t, ht, hstep⟩ := hy
  cases hstep
  have hfalse : t = false := by
    refine Bool.eq_false_of_not_eq_true fun htrue => ?_
    have hrepeat := mayRepeat_of_allowed ht htrue
    rw [mayRepeat_eq, hc] at hrepeat
    cases hrepeat
  rw [hfalse]
  exact hd

theorem mayEnd_of_neverRepeats (hc : neverRepeats C h = true) : mayEnd C h = true := by
  unfold neverRepeats at hc
  unfold mayEnd
  cases he : h.cond with
  | none =>
    rw [he] at hc
    cases hc
  | some e =>
    rw [he] at hc
    exact bne_iff_ne.mpr ((beq_iff_eq.mp hc).trans_ne (by decide))

/-- **The body of a loop that is entered now is not entered again** without a test.  Behind the
loop it goes on if the body can be left by `break`, or gets to a condition that may fail. -/
theorem testsWithin_body (hl : TestedLoop C h c b)
    (hd : ((emittedExits C b).brk = true ∨
      ((emittedExits C b).again c.isSome = true ∧ mayEnd C h = true)) → TestsWithin C n (.done k))
    (hexec : ∀ m, ((emittedExits C b).done = true → TestsWithin C m (.done (.loop h c b k))) →
      ((emittedExits C b).brk = true → TestsWithin C m (.brk (.loop h c b k))) →
      ((emittedExits C b).cont = true → TestsWithin C m (.cont (.loop h c b k))) →
      TestsWithin C (b.weight + m) (.exec b (.loop h c b k))) :
    TestsWithin C (b.weight + n + 3) (.exec b (.loop h c b k)) := by
  have hbrk : (emittedExits C b).brk = true → TestsWithin C (n + 3) (.brk (.loop h c b k)) :=
    fun hbrk => (testsWithin_pass (fun _ => rfl) (hd (.inl hbrk))).mono (by omega)
  rw [Nat.add_assoc]
  rcases hl with hnever | ⟨htested, hcont⟩
  · have hnext : (emittedExits C b).again c.isSome = true →
        TestsWithin C (n + 2) (.next h c b k) := fun hagain =>
      testsWithin_next_of_neverRepeats hnever (hd (.inr ⟨hagain, mayEnd_of_neverRepeats hnever⟩))
    refine hexec (n + 3) (fun hdone => ?_) hbrk fun hcont => ?_
    · by_cases htested : c.isSome = true
      · exact .of_goal htested
      · refine testsWithin_pass (fun _ => rfl) (hnext ?_)
        rw [Exits.again, hdone, Bool.eq_false_of_not_eq_true htested]
        exact Bool.or_true _
    · refine testsWithin_pass (fun _ => rfl) (hnext ?_)
      rw [Exits.again, hcont, Bool.true_or]
  · refine hexec (n + 3) (fun _ => .of_goal htested) hbrk fun hc => ?_
    rw [hcont] at hc
    cases hc

/-- From the condition of a loop into its body or behind it. -/
theorem testsWithin_test
    (hb : mayRepeat C h = true → TestsWithin C (b.weight + n + 3) (.exec b (.loop h c b k)))
    (hd : mayEnd C h = true → TestsWithin C n (.done k)) :
    TestsWithin C (b.weight + n + 4) (.test h c b k) := by
  refine .head fun y hy => ?_
  obtain ⟨t, hallowed, hstep⟩ := hy
  cases hstep
  by_cases ht : t = true
  · rw [if_pos ht]
    exact hb (mayRepeat_of_allowed hallowed ht)
  · rw [if_neg ht]
    exact (hd (mayEnd_of_allowed hallowed (Bool.eq_false_of_not_eq_true ht))).mono (by omega)

end loop

/-- **A statement is left, or a checkpoint is tested, within its weight.**  The induction is on
the statement; a way out has to be provided for only if it can be taken without a test. -/
theorem deadline_exec (s : Patched Var Val) (hs : s.EveryLoop (TestedLoop C))
    (k : Cont Var Val (Option (Chkpnt Var))) {n : Nat}
    (hd : (emittedExits C s).done = true → TestsWithin C n (.done k))
    (hb : (emittedExits C s).brk = true → TestsWithin C n (.brk k))
    (hc : (emittedExits C s).cont = true → TestsWithin C n (.cont k)) :
    TestsWithin C (s.weight + n) (.exec s k) := by
  induction s generalizing k n with
  | skip | expr e | decl x init =>
    show TestsWithin C (1 + n) _
    rw [Nat.add_comm]
    exact testsWithin_pass (fun _ => rfl) (hd rfl)
  | breakStmt =>
    show TestsWithin C (1 + n) _
    rw [Nat.add_comm]
    exact testsWithin_pass (fun _ => rfl) (hb rfl)
  | continueStmt =>
    show TestsWithin C (1 + n) _
    rw [Nat.add_comm]
    exact testsWithin_pass (fun _ => rfl) (hc rfl)
  | returnStmt =>
    show TestsWithin C (2 + n) _
    rw [Nat.add_comm]
    refine testsWithin_pass (y := .fin) (fun _ => rfl) (.head fun y hy => ?_)
    obtain ⟨_, _, hstep⟩ := hy
    cases hstep
  | seq s t ihs iht =>
    have ht : (emittedExits C s).done = true →
        TestsWithin C (t.weight + n) (.exec t k) := fun hdone =>
      iht hs.2 k (fun h => hd (Bool.and_eq_true_iff.mpr ⟨hdone, h⟩))
        (fun h => hb (Bool.or_eq_true_iff.mpr (.inr (Bool.and_eq_true_iff.mpr ⟨hdone, h⟩))))
        (fun h => hc (Bool.or_eq_true_iff.mpr (.inr (Bool.and_eq_true_iff.mpr ⟨hdone, h⟩))))
    have hs : TestsWithin C (s.weight + (t.weight + n + 1)) (.exec s (.seq t k)) := by
      refine ihs hs.1 _ (fun h => testsWithin_pass (fun _ => rfl) (ht h)) (fun h => ?_) fun h => ?_
      · refine testsWithin_pass (fun _ => rfl) ?_
        exact (hb (Bool.or_eq_true_iff.mpr (.inl h))).mono (Nat.le_add_left _ _)
      · refine testsWithin_pass (fun _ => rfl) ?_
        exact (hc (Bool.or_eq_true_iff.mpr (.inl h))).mono (Nat.le_add_left _ _)
    have hweight : (Stmt.seq s t).weight + n = s.weight + (t.weight + n + 1) + 1 := by
      rw [Stmt.weight]
      omega
    rw [hweight]
    exact testsWithin_pass (fun _ => rfl) hs
  | compound s ih =>
    rw [Stmt.weight, Nat.add_right_comm]
    exact testsWithin_pass (fun _ => rfl) (ih hs k hd hb hc)
  | ifStmt e s t ihs iht =>
    rw [Stmt.weight, Nat.add_right_comm]
    refine .head fun y hy => ?_
    obtain ⟨b, hallowed, hstep⟩ := hy
    cases hstep
    cases b with
    | true =>
      have hin : ∀ {p : Bool}, p = true → (mayHold C e && p) = true := fun hp =>
        Bool.and_eq_true_iff.mpr ⟨mayHold_of_allowed hallowed, hp⟩
      exact (ihs hs.1 k (fun h => hd (Bool.or_eq_true_iff.mpr (.inl (hin h))))
        (fun h => hb (Bool.or_eq_true_iff.mpr (.inl (hin h))))
        (fun h => hc (Bool.or_eq_true_iff.mpr (.inl (hin h))))).mono (by omega)
    | false =>
      have hin : ∀ {p : Bool}, p = true → (mayFail C e && p) = true := fun hp =>
        Bool.and_eq_true_iff.mpr ⟨mayFail_of_allowed hallowed, hp⟩
      exact (iht hs.2 k (fun h => hd (Bool.or_eq_true_iff.mpr (.inr (hin h))))
        (fun h => hb (Bool.or_eq_true_iff.mpr (.inr (hin h))))
        (fun h => hc (Bool.or_eq_true_iff.mpr (.inr (hin h))))).mono (by omega)
  | loop h c b ih =>
    have hbody : (h.bodyFirst || mayRepeat C h) = true →
        TestsWithin C (b.weight + n + 3) (.exec b (.loop h c b k)) := by
      intro henter
      refine testsWithin_body hs.2 (fun hout => hd ?_) fun m => ih hs.1 _
      refine Bool.or_eq_true_iff.mpr (.inr (Bool.and_eq_true_iff.mpr ⟨henter, ?_⟩))
      rw [Bool.or_eq_true, Bool.and_eq_true]
      exact hout
    have hweight : (Stmt.loop h c b).weight + n = b.weight + n + 4 + 1 := by
      rw [Stmt.weight]
      omega
    rw [hweight]
    by_cases hfirst : h.bodyFirst = true
    · refine testsWithin_pass (y := .exec b (.loop h c b k)) (fun _ => ?_) ?_
      · rw [Ctl.step, if_pos hfirst]
      · exact (hbody (by rw [hfirst, Bool.true_or])).mono (Nat.le_succ _)
    · refine testsWithin_pass (y := .test h c b k) (fun _ => ?_) ?_
      · rw [Ctl.step, if_neg hfirst]
      · refine testsWithin_test (fun hrepeat => hbody (by rw [hrepeat, Bool.or_true])) fun hend =>
          hd (Bool.or_eq_true_iff.mpr (.inl (Bool.and_eq_true_iff.mpr ⟨?_, hend⟩)))
        rw [Bool.eq_false_of_not_eq_true hfirst]
        rfl

/-! ## From any control of the kernel -/

/-- A statement with its continuation fits into the bounds: `M` for its weight, `B` for all the
steps from here on when every loop in it is yet to be entered once more. -/
structure FitsAt (C : Clang Var Val Block) (M B : Nat) (s : Patched Var Val)
    (k : Cont Var Val (Option (Chkpnt Var))) : Prop where
  tested : s.EveryLoop (TestedLoop C)
  weight : s.weight ≤ M
  total : s.weight + k.fuel + s.loopDepth * M ≤ B

variable (C) in
/-- All that a continuation is made of fits. -/
def FitsCont (M B : Nat) : Cont Var Val (Option (Chkpnt Var)) → Prop
  | .stop => True
  | .seq t k => FitsAt C M B t k ∧ FitsCont M B k
  | .loop h c b k => FitsAt C M B (.loop h c b) k ∧ FitsCont M B k

variable (C) in
/-- All that a control is made of fits. -/
def FitsCtl (M B : Nat) : Ctl Var Val (Option (Chkpnt Var)) → Prop
  | .exec s k => FitsAt C M B s k ∧ FitsCont C M B k
  | .done k | .brk k | .cont k => FitsCont C M B k
  | .next h c b k | .test h c b k => FitsAt C M B (.loop h c b) k ∧ FitsCont C M B k
  | .fin => True

section fits
variable {M B : Nat} {s t : Patched Var Val} {k : Cont Var Val (Option (Chkpnt Var))}

namespace FitsAt

theorem left (h : FitsAt C M B (.seq s t) k) : FitsAt C M B s (.seq t k) := by
  obtain ⟨⟨hs, _⟩, hw, htotal⟩ := h
  have hdepth := Nat.mul_le_mul_right M (Nat.le_max_left s.loopDepth t.loopDepth)
  simp only [Stmt.weight, Stmt.loopDepth] at hw htotal
  exact ⟨hs, by omega, by rw [Cont.fuel]; omega⟩

theorem right (h : FitsAt C M B (.seq s t) k) : FitsAt C M B t k := by
  obtain ⟨⟨_, ht⟩, hw, htotal⟩ := h
  have hdepth := Nat.mul_le_mul_right M (Nat.le_max_right s.loopDepth t.loopDepth)
  simp only [Stmt.weight, Stmt.loopDepth] at hw htotal
  exact ⟨ht, by omega, by omega⟩

theorem compound (h : FitsAt C M B (.compound s) k) : FitsAt C M B s k := by
  obtain ⟨hs, hw, htotal⟩ := h
  simp only [Stmt.weight, Stmt.loopDepth] at hw htotal
  exact ⟨hs, by omega, by omega⟩

theorem thenBranch {e : Expr Var Val} (h : FitsAt C M B (.ifStmt e s t) k) :
    FitsAt C M B s k := by
  obtain ⟨⟨hs, _⟩, hw, htotal⟩ := h
  have hdepth := Nat.mul_le_mul_right M (Nat.le_max_left s.loopDepth t.loopDepth)
  simp only [Stmt.weight, Stmt.loopDepth] at hw htotal
  exact ⟨hs, by omega, by omega⟩

theorem elseBranch {e : Expr Var Val} (h : FitsAt C M B (.ifStmt e s t) k) :
    FitsAt C M B t k := by
  obtain ⟨⟨_, ht⟩, hw, htotal⟩ := h
  have hdepth := Nat.mul_le_mul_right M (Nat.le_max_right s.loopDepth t.loopDepth)
  simp only [Stmt.weight, Stmt.loopDepth] at hw htotal
  exact ⟨ht, by omega, by omega⟩

/-- The level of the loop pays for entering its body once more. -/
theorem body {h : LoopHead Var Val} {c : Option (Chkpnt Var)} {b : Patched Var Val}
    (hl : FitsAt C M B (.loop h c b) k) : FitsAt C M B b (.loop h c b k) := by
  obtain ⟨⟨hb, _⟩, hw, htotal⟩ := hl
  simp only [Stmt.weight, Stmt.loopDepth, Nat.add_mul, Nat.one_mul] at hw htotal
  exact ⟨hb, by omega, by rw [Cont.fuel]; omega⟩

end FitsAt

/-- Whatever lies inside a statement that fits, fits. -/
theorem FitsAt.inside {p q : Place Var Val (Option (Chkpnt Var))} (hin : p.Inside q)
    (hp : FitsAt C M B p.stmt p.cont ∧ FitsCont C M B p.cont) :
    FitsAt C M B q.stmt q.cont ∧ FitsCont C M B q.cont := by
  refine hin.inherit (P := fun q => FitsAt C M B q.stmt q.cont ∧ FitsCont C M B q.cont) ?_ hp
  rintro q r hqr ⟨hq, hk⟩
  cases hqr with
  | seqLeft => exact ⟨hq.left, hq.right, hk⟩
  | seqRight => exact ⟨hq.right, hk⟩
  | compound => exact ⟨hq.compound, hk⟩
  | ifLeft => exact ⟨hq.thenBranch, hk⟩
  | ifRight => exact ⟨hq.elseBranch, hk⟩
  | body => exact ⟨hq.body, hq, hk⟩

/-- A step keeps the bounds. -/
theorem FitsCtl.step {x y : Ctl Var Val (Option (Chkpnt Var))} (hx : FitsCtl C M B x) {t : Bool}
    (hs : x.step t = some y) : FitsCtl C M B y := by
  match x, hx with
  | .exec s k, ⟨hs', hk⟩ =>
    cases s with
    | skip | expr | decl | breakStmt | continueStmt =>
      cases hs
      exact hk
    | seq s₁ s₂ =>
      cases hs
      exact ⟨hs'.left, hs'.right, hk⟩
    | compound s₁ =>
      cases hs
      exact ⟨hs'.compound, hk⟩
    | ifStmt e s₁ s₂ =>
      cases hs
      cases t with
      | true => exact ⟨hs'.thenBranch, hk⟩
      | false => exact ⟨hs'.elseBranch, hk⟩
    | loop h c b =>
      cases hs
      by_cases hfirst : h.bodyFirst = true
      · rw [if_pos hfirst]
        exact ⟨hs'.body, hs', hk⟩
      · rw [if_neg hfirst]
        exact ⟨hs', hk⟩
    | returnStmt =>
      cases hs
      exact trivial
  | .done .stop, _ =>
    cases hs
    exact trivial
  | .done (.seq _ _), hk | .done (.loop _ _ _ _), hk | .cont (.loop _ _ _ _), hk
  | .next _ _ _ _, hk =>
    cases hs
    exact hk
  | .brk (.seq _ _), hk | .brk (.loop _ _ _ _), hk | .cont (.seq _ _), hk =>
    cases hs
    exact hk.2
  | .test h c b k, ⟨hl, hk⟩ =>
    cases hs
    cases t with
    | true => exact ⟨hl.body, hl, hk⟩
    | false => exact hk

theorem FitsCont.fuel_le (hB : 2 ≤ B) (hk : FitsCont C M B k) : k.fuel ≤ B + 1 := by
  match k, hk with
  | .stop, _ =>
    rw [Cont.fuel]
    omega
  | .seq t k, ⟨ht, _⟩ =>
    have := ht.total
    rw [Cont.fuel]
    omega
  | .loop h c b k, ⟨hl, _⟩ =>
    have := hl.total
    simp only [Stmt.weight] at this
    rw [Cont.fuel]
    omega

theorem FitsCtl.fuel_le (hB : 2 ≤ B) {x : Ctl Var Val (Option (Chkpnt Var))}
    (hx : FitsCtl C M B x) : x.fuel ≤ B + 1 := by
  match x, hx with
  | .exec s k, ⟨hs, _⟩ =>
    have := hs.total
    rw [Ctl.fuel]
    omega
  | .done k, hk | .brk k, hk | .cont k, hk => exact FitsCont.fuel_le hB hk
  | .next h c b k, ⟨hl, _⟩ | .test h c b k, ⟨hl, _⟩ =>
    have := hl.total
    simp only [Stmt.weight] at this
    rw [Ctl.fuel]
    omega
  | .fin, _ =>
    rw [Ctl.fuel]
    omega

end fits

/-- The condition of a loop that the run is in. -/
theorem FitsAt.testsWithin_test {M B : Nat} {h : LoopHead Var Val} {c : Option (Chkpnt Var)}
    {b : Patched Var Val} {k : Cont Var Val (Option (Chkpnt Var))}
    (hl : FitsAt C M B (.loop h c b) k) (hd : TestsWithin C k.fuel (.done k)) :
    TestsWithin C (b.weight + k.fuel + 4) (.test h c b k) :=
  Clpkm.testsWithin_test
    (fun _ => testsWithin_body hl.tested.2 (fun _ => hd) fun _ => deadline_exec b hl.tested.1 _)
    fun _ => hd

/-- **The fuel of a continuation is enough**, however it is entered. -/
theorem FitsCont.testsWithin {M B : Nat} {k : Cont Var Val (Option (Chkpnt Var))}
    (hk : FitsCont C M B k) :
    TestsWithin C k.fuel (.done k) ∧ TestsWithin C k.fuel (.brk k) ∧
      TestsWithin C k.fuel (.cont k) := by
  induction k with
  | stop =>
    refine ⟨testsWithin_pass (y := .fin) (fun _ => rfl) (.head fun y hy => ?_),
      .head fun y hy => ?_, .head fun y hy => ?_⟩ <;>
    · obtain ⟨_, _, hstep⟩ := hy
      cases hstep
  | seq t k ih =>
    obtain ⟨hd, hb, hc⟩ := ih hk.2
    refine ⟨testsWithin_pass (fun _ => rfl)
        (deadline_exec t hk.1.tested k (fun _ => hd) (fun _ => hb) fun _ => hc),
      testsWithin_pass (fun _ => rfl) (hb.mono (Nat.le_add_left _ _)),
      testsWithin_pass (fun _ => rfl) (hc.mono (Nat.le_add_left _ _))⟩
  | loop h c b k ih =>
    obtain ⟨hd, _, _⟩ := ih hk.2
    have hnext : TestsWithin C (b.weight + k.fuel + 5) (.next h c b k) :=
      testsWithin_pass (y := .test h c b k) (fun _ => rfl) (hk.1.testsWithin_test hd)
    exact ⟨testsWithin_pass (fun _ => rfl) hnext,
      (testsWithin_pass (fun _ => rfl) hd).mono (by rw [Cont.fuel]; omega),
      testsWithin_pass (fun _ => rfl) hnext⟩

/-- The fuel of a control is enough. -/
theorem FitsCtl.testsWithin {M B : Nat} {x : Ctl Var Val (Option (Chkpnt Var))}
    (hx : FitsCtl C M B x) : TestsWithin C x.fuel x := by
  match x, hx with
  | .exec s k, ⟨hs, hk⟩ =>
    obtain ⟨hd, hb, hc⟩ := FitsCont.testsWithin hk
    exact deadline_exec s hs.tested k (fun _ => hd) (fun _ => hb) fun _ => hc
  | .done k, hk => exact (FitsCont.testsWithin hk).1
  | .brk k, hk => exact (FitsCont.testsWithin hk).2.1
  | .cont k, hk => exact (FitsCont.testsWithin hk).2.2
  | .test h c b k, ⟨hl, hk⟩ =>
    exact (hl.testsWithin_test (FitsCont.testsWithin hk).1).mono (by rw [Ctl.fuel]; omega)
  | .next h c b k, ⟨hl, hk⟩ =>
    have htest := hl.testsWithin_test (FitsCont.testsWithin hk).1
    refine (testsWithin_pass (y := .test h c b k) (fun _ => rfl) htest).mono ?_
    rw [Ctl.fuel]
    omega
  | .fin, _ =>
    refine .head fun y hy => ?_
    obtain ⟨_, _, hstep⟩ := hy
    cases hstep

variable (C) in
/-- The control belongs to a run of the emitted kernel, as far as the bounds are concerned. -/
def Kernel.Fits (K : Kernel Var Val) (x : Ctl Var Val (Option (Chkpnt Var))) : Prop :=
  FitsCtl C K.body.weight (K.body.weight + 2 + K.body.loopDepth * K.body.weight) x

/-- What lies inside the emitted kernel fits. -/
theorem Kernel.fits_of_inside {K : Kernel Var Val} (htested : everyLoopTested C K.body = true)
    {q : Place Var Val (Option (Chkpnt Var))} (hin : (K.root C).Inside q) :
    K.Fits C (.exec q.stmt q.cont) := by
  have hweight : (K.instrument C).weight = K.body.weight := by
    rw [← Stmt.weight_erase, instrument, erase_traverse]
  have hdepth : (K.instrument C).loopDepth = K.body.loopDepth := by
    rw [← Stmt.loopDepth_erase, instrument, erase_traverse]
  refine FitsAt.inside hin ⟨⟨everyLoop_testedLoop C htested K.params 1, ?_, ?_⟩, trivial⟩
  · exact hweight.le
  · show (K.instrument C).weight + 2 + (K.instrument C).loopDepth * _ ≤ _
    rw [hweight, hdepth]

/-- **From every control of a run a checkpoint is tested within the latency**, or the launch
ends. -/
theorem Kernel.Fits.testsWithin {K : Kernel Var Val} {x : Ctl Var Val (Option (Chkpnt Var))}
    (hx : K.Fits C x) : ∃ n, n + 1 = K.latency ∧ TestsWithin C n x := by
  refine ⟨_, rfl, Deadline.mono (FitsCtl.testsWithin hx) ?_⟩
  refine (FitsCtl.fuel_le (Nat.le_trans (Nat.le_add_left 2 _) (Nat.le_add_right _ _)) hx).trans ?_
  rw [Nat.add_mul, Nat.one_mul]
  omega

/-- **No execution of the emitted kernel goes on for longer than the latency** without a test of
a checkpoint, wherever it starts. -/
theorem Kernel.length_le_latency {K : Kernel Var Val} (htested : everyLoopTested C K.body = true)
    {q : Place Var Val (Option (Chkpnt Var))} (hin : (K.root C).Inside q)
    {path : List (Ctl Var Val (Option (Chkpnt Var)))}
    (hpath : List.IsChain (CtlStep C) (.exec q.stmt q.cont :: path))
    (hquiet : ∀ x ∈ (.exec q.stmt q.cont :: path).dropLast, tests x = false) :
    path.length ≤ K.latency := by
  obtain ⟨n, hn, hdeadline⟩ := (K.fits_of_inside htested hin).testsWithin
  refine (hdeadline.length_le hpath fun x hx ht => ?_).trans (hn ▸ Nat.le_succ n)
  rw [hquiet x hx] at ht
  cases ht

end
end Clpkm
