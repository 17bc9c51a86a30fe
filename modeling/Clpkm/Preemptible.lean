import Clpkm.Relaunch

/-!
# Checkpoints between two iterations of a loop

The checkpoint of a loop stands at the end of its body, in front of the closing brace.
A loop stays preemptible if between two entries of its body, without leaving the loop,
some checkpoint is tested: its own, or that of a loop inside.  A `continue` goes past the
end of the body, to the condition of the loop.

An execution is a path of the control, where a condition may hold or fail unless Clang
evaluates it.  `exits` computes from the statement how it can be left before a checkpoint
is tested, and `preemptible_iff` says that this decides the matter: a loop that may repeat
is preemptible if and only if no `continue` of its own can be reached.
-/

namespace Clpkm
open Lang Instrumentor

variable {Var Val Mem Block α : Type}

/-! ## Executions -/

/-- The truth of a value that an action may compute, as far as Clang knows. -/
def Allowed (C : Clang Var Val Block) : Action Var Val → Bool → Prop
  | .eval e, t => C.evaluate e ≠ some (!t)
  | _, t => t = true

/-- One step of an execution. -/
def CtlStep (C : Clang Var Val Block) (c c' : Ctl Var Val α) : Prop :=
  ∃ t, Allowed C c.action t ∧ c.step t = some c'

/-- The step executes `__clpkm_should_chkpnt`. -/
def tests : Ctl Var Val (Option (Chkpnt Var)) → Bool
  | .done (.loop _ c _ _) => c.isSome
  | _ => false

/-- Between two entries of the body of a loop, without leaving the loop, a checkpoint is
tested. -/
def Preemptible (C : Clang Var Val Block) (h : LoopHead Var Val) (c : Option (Chkpnt Var))
    (b : Patched Var Val) (k : Cont Var Val (Option (Chkpnt Var))) : Prop :=
  ∀ path, List.IsChain (CtlStep C)
      (.exec b (.loop h c b k) :: (path ++ [.test h c b k, .exec b (.loop h c b k)])) →
    .done k ∉ path → ∃ x ∈ path, tests x = true

/-- A run is an execution, if Clang evaluates conditions as the run does. -/
theorem ctlStep_of_step [DecidableEq Var] {I : Interp Val Mem} {C : Clang Var Val Block}
    (hsound : ∀ e t, C.evaluate e = some t → ∀ σ m a σ' m',
      e.eval I σ m = some (a, σ', m') → I.truthy a = t)
    {c c' : Config Var Val Mem α} (h : c.step I = some c') : CtlStep C c.ctl c'.ctl := by
  obtain ⟨t, σ, m, c₁, hr, hc, rfl⟩ := (Config.step_eq_some_iff I).mp h
  refine ⟨t, ?_, hc⟩
  cases hx : c.ctl.action with
  | pass | forget x =>
    rw [hx] at hr
    cases hr
    rfl
  | init x e =>
    rw [hx] at hr
    simp only [Action.run, Option.bind_eq_bind, Option.bind_eq_some_iff] at hr
    obtain ⟨_, _, hr⟩ := hr
    cases hr
    rfl
  | eval e =>
    rw [hx] at hr
    simp only [Action.run, Option.bind_eq_bind, Option.bind_eq_some_iff] at hr
    obtain ⟨⟨a, τ, n⟩, he, hr⟩ := hr
    cases hr
    intro heval
    have htruthy := hsound e _ heval _ _ _ _ _ he
    cases hb : I.truthy a <;> rw [hb] at htruthy <;> cases htruthy

/-! ## How a statement is left -/

/-- How a statement can be left before a checkpoint is tested: at its end, by `break`, by
`continue`. -/
structure Exits where
  done : Bool
  brk : Bool
  cont : Bool
  deriving DecidableEq, Repr

namespace Exits

/-- One statement after the other. -/
def seq (p q : Exits) : Exits :=
  ⟨p.done && q.done, p.brk || (p.done && q.brk), p.cont || (p.done && q.cont)⟩

/-- One of two statements. -/
def alt (p q : Exits) : Exits := ⟨p.done || q.done, p.brk || q.brk, p.cont || q.cont⟩

/-- A statement that may be executed or not. -/
def guard (t : Bool) (p : Exits) : Exits := ⟨t && p.done, t && p.brk, t && p.cont⟩

/-- A loop body can come to the next condition of its loop. -/
def again (tested : Bool) (p : Exits) : Bool := p.cont || (!tested && p.done)

/-- A way out of a statement is a way on. -/
def meet (p q : Exits) : Bool := p.done && q.done || p.brk && q.brk || p.cont && q.cont

end Exits

section exits
variable (C : Clang Var Val Block)

/-- The condition may be true. -/
def mayHold (e : Expr Var Val) : Bool := C.evaluate e != some false

/-- The condition may be false. -/
def mayFail (e : Expr Var Val) : Bool := C.evaluate e != some true

/-- The loop may go on at its condition. -/
def mayRepeat (h : LoopHead Var Val) : Bool := h.cond.all (mayHold C)

/-- The loop may end at its condition. -/
def mayEnd (h : LoopHead Var Val) : Bool := h.cond.any (mayFail C)

/-- The ways out of a loop: all end at its end. -/
def loopExits (h : LoopHead Var Val) (tested : Bool) (p : Exits) : Exits where
  done := (!h.bodyFirst && mayEnd C h) ||
    ((h.bodyFirst || mayRepeat C h) && (p.brk || (p.again tested && mayEnd C h)))
  brk := false
  cont := false

/-- The ways out of a statement, given which loops have a checkpoint. -/
def exits (tested : LoopHead Var Val → α → Bool) : Stmt Var Val α → Exits
  | .skip | .expr _ | .decl _ _ => ⟨true, false, false⟩
  | .seq s t => (exits tested s).seq (exits tested t)
  | .compound s => exits tested s
  | .ifStmt e s t =>
    ((exits tested s).guard (mayHold C e)).alt ((exits tested t).guard (mayFail C e))
  | .loop h a b => loopExits C h (tested h a) (exits tested b)
  | .breakStmt => ⟨false, true, false⟩
  | .continueStmt => ⟨false, false, true⟩
  | .returnStmt => ⟨false, false, false⟩

/-- In the program as it is written: `PatchLoopBody` leaves out a loop that never repeats. -/
abbrev sourceExits : Stmt Var Val Unit → Exits := exits C fun h _ => !neverRepeats C h

/-- In the emitted program. -/
abbrev emittedExits : Patched Var Val → Exits := exits C fun _ c => c.isSome

/-- No loop that may repeat has a `continue` in front of which no checkpoint is tested. -/
def everyLoopTested : Stmt Var Val Unit → Bool
  | .seq s t | .ifStmt _ s t => everyLoopTested s && everyLoopTested t
  | .compound s => everyLoopTested s
  | .loop h _ b => everyLoopTested b && (neverRepeats C h || !(sourceExits C b).cont)
  | _ => true

theorem mayRepeat_eq (h : LoopHead Var Val) : mayRepeat C h = !neverRepeats C h := by
  unfold mayRepeat neverRepeats
  cases h.cond with
  | none => rfl
  | some e => rfl

/-- The traversal does not change the ways out. -/
theorem emittedExits_traverse (s : Stmt Var Val Unit) (E : List Var) (n : Nat) :
    emittedExits C (traverse C s E n).1 = sourceExits C s := by
  induction s generalizing E n with
  | seq s t ihs iht =>
    show ((emittedExits C _).seq (emittedExits C _)) = _
    rw [ihs, iht]
    rfl
  | compound s ih => exact ih E n
  | ifStmt e s t ihs iht =>
    show ((emittedExits C _).guard _).alt ((emittedExits C _).guard _) = _
    rw [ihs, iht]
    rfl
  | loop h a b ih =>
    have htested : (patchLoopBody C E (traverse C b E n).2 h).1.isSome = !neverRepeats C h := by
      unfold patchLoopBody
      by_cases hc : neverRepeats C h = true
      · rw [if_pos hc, hc]
        rfl
      · rw [if_neg hc, Bool.eq_false_of_not_eq_true hc]
        rfl
    show loopExits C h (patchLoopBody C E (traverse C b E n).2 h).1.isSome (emittedExits C _) = _
    rw [ih, htested]
    rfl
  | _ => rfl

end exits

/-! ## Inside a loop -/

/-- A part of a continuation. -/
inductive Frame (Var Val α : Type)
  | seq (t : Stmt Var Val α)
  | loop (h : LoopHead Var Val) (a : α) (b : Stmt Var Val α)

/-- The continuation with frames in front. -/
def plug : List (Frame Var Val α) → Cont Var Val α → Cont Var Val α
  | [], k => k
  | .seq t :: fs, k => .seq t (plug fs k)
  | .loop h a b :: fs, k => .loop h a b (plug fs k)

/-- The number of frames of a continuation. -/
def depth : Cont Var Val α → Nat
  | .stop => 0
  | .seq _ k | .loop _ _ _ k => depth k + 1

theorem depth_plug (fs : List (Frame Var Val α)) (k : Cont Var Val α) :
    depth (plug fs k) = fs.length + depth k := by
  induction fs with
  | nil => exact (Nat.zero_add _).symm
  | cons f fs ih =>
    cases f <;> simp only [plug, depth, ih, List.length_cons] <;> omega

theorem plug_ne (fs : List (Frame Var Val α)) (h : LoopHead Var Val) (a : α)
    (b : Stmt Var Val α) (k : Cont Var Val α) : plug fs (.loop h a b k) ≠ k := by
  intro he
  have hd := congrArg depth he
  rw [depth_plug, depth] at hd
  omega

section inside
variable (C : Clang Var Val Block)

/-- From the condition of a loop inside, the ways on being those behind it. -/
def backExits (h : LoopHead Var Val) (b : Patched Var Val) (q : Exits) : Bool :=
  q.done && (mayEnd C h || (mayRepeat C h && (emittedExits C b).brk))

/-- Whether the next condition of the loop around the frames can be reached before a
checkpoint is tested, from the end of a statement, from `break` and from `continue`. -/
def ahead (tested : Bool) : List (Frame Var Val (Option (Chkpnt Var))) → Exits
  | [] => ⟨!tested, false, true⟩
  | .seq t :: fs =>
    ⟨(emittedExits C t).meet (ahead tested fs), (ahead tested fs).brk, (ahead tested fs).cont⟩
  | .loop h c b :: fs =>
    ⟨!c.isSome && backExits C h b (ahead tested fs), (ahead tested fs).done,
      backExits C h b (ahead tested fs)⟩

/-- A control inside a loop, and whether it can reach the next condition of the loop before
a checkpoint is tested. -/
inductive Near (h : LoopHead Var Val) (c : Option (Chkpnt Var)) (b : Patched Var Val)
    (k : Cont Var Val (Option (Chkpnt Var))) :
    Ctl Var Val (Option (Chkpnt Var)) → Bool → Prop
  | exec (s : Patched Var Val) (fs : List (Frame Var Val (Option (Chkpnt Var)))) :
    Near h c b k (.exec s (plug fs (.loop h c b k)))
      ((emittedExits C s).meet (ahead C c.isSome fs))
  | done (fs : List (Frame Var Val (Option (Chkpnt Var)))) :
    Near h c b k (.done (plug fs (.loop h c b k))) (ahead C c.isSome fs).done
  | brk (fs : List (Frame Var Val (Option (Chkpnt Var)))) :
    Near h c b k (.brk (plug fs (.loop h c b k))) (ahead C c.isSome fs).brk
  | cont (fs : List (Frame Var Val (Option (Chkpnt Var)))) :
    Near h c b k (.cont (plug fs (.loop h c b k))) (ahead C c.isSome fs).cont
  | next (h' : LoopHead Var Val) (c' : Option (Chkpnt Var)) (b' : Patched Var Val)
      (fs : List (Frame Var Val (Option (Chkpnt Var)))) :
    Near h c b k (.next h' c' b' (plug fs (.loop h c b k)))
      (backExits C h' b' (ahead C c.isSome fs))
  | test (h' : LoopHead Var Val) (c' : Option (Chkpnt Var)) (b' : Patched Var Val)
      (fs : List (Frame Var Val (Option (Chkpnt Var)))) :
    Near h c b k (.test h' c' b' (plug fs (.loop h c b k)))
      (backExits C h' b' (ahead C c.isSome fs))
  | ownNext : Near h c b k (.next h c b k) true
  | ownTest : Near h c b k (.test h c b k) true

variable {C} {h : LoopHead Var Val} {c : Option (Chkpnt Var)} {b : Patched Var Val}
  {k : Cont Var Val (Option (Chkpnt Var))}

/-- The condition of the loop itself has been reached. -/
theorem Near.eq_true {x : Ctl Var Val (Option (Chkpnt Var))} {r : Bool} (hn : Near C h c b k x r)
    (hx : x = .test h c b k) : r = true := by
  cases hn with
  | ownTest => rfl
  | test h' c' b' fs =>
    injection hx with _ _ _ hk
    exact absurd hk (plug_ne fs h c b k)
  | exec | done | brk | cont | next | ownNext => cases hx

theorem mayHold_of_allowed {e : Expr Var Val} (ht : Allowed C (.eval e) true) :
    mayHold C e = true := bne_iff_ne.mpr ht

theorem mayFail_of_allowed {e : Expr Var Val} (ht : Allowed C (.eval e) false) :
    mayFail C e = true := bne_iff_ne.mpr ht

theorem mayRepeat_of_allowed {h : LoopHead Var Val} {t : Bool}
    (ha : Allowed C (h.cond.elim .pass .eval) t) (ht : t = true) : mayRepeat C h = true := by
  subst ht
  unfold mayRepeat
  cases hc : h.cond with
  | none => rfl
  | some e =>
    rw [hc] at ha
    exact mayHold_of_allowed ha

theorem mayEnd_of_allowed {h : LoopHead Var Val} {t : Bool}
    (ha : Allowed C (h.cond.elim .pass .eval) t) (ht : t = false) : mayEnd C h = true := by
  subst ht
  unfold mayEnd
  cases hc : h.cond with
  | none =>
    rw [hc] at ha
    cases ha
  | some e =>
    rw [hc] at ha
    exact mayFail_of_allowed ha

theorem Exits.meet_seq (p q r : Exits) :
    (p.seq q).meet r = p.meet ⟨q.meet r, r.brk, r.cont⟩ := by
  obtain ⟨p₁, p₂, p₃⟩ := p
  obtain ⟨q₁, q₂, q₃⟩ := q
  obtain ⟨r₁, r₂, r₃⟩ := r
  revert p₁ p₂ p₃ q₁ q₂ q₃ r₁ r₂ r₃
  decide

theorem Exits.meet_alt (p q r : Exits) : (p.alt q).meet r = (p.meet r || q.meet r) := by
  obtain ⟨p₁, p₂, p₃⟩ := p
  obtain ⟨q₁, q₂, q₃⟩ := q
  obtain ⟨r₁, r₂, r₃⟩ := r
  revert p₁ p₂ p₃ q₁ q₂ q₃ r₁ r₂ r₃
  decide

theorem Exits.meet_guard (t : Bool) (p r : Exits) : (p.guard t).meet r = (t && p.meet r) := by
  obtain ⟨p₁, p₂, p₃⟩ := p
  obtain ⟨r₁, r₂, r₃⟩ := r
  revert t p₁ p₂ p₃ r₁ r₂ r₃
  decide

/-- The ways on from the body of a loop with the ways out `p`, where `q` are the ways on behind
the loop: its condition may be false if `e` and true if `r`. -/
abbrev Exits.inBody (e r tested : Bool) (p q : Exits) : Exits :=
  ⟨!tested && (q.done && (e || (r && p.brk))), q.done, q.done && (e || (r && p.brk))⟩

/-- From the body of a `do` loop. -/
theorem Exits.meet_of_inBody (e r tested : Bool) (p q : Exits)
    (h : p.meet (inBody e r tested p q) = true) :
    (⟨p.brk || (p.again tested && e), false, false⟩ : Exits).meet q = true := by
  obtain ⟨p₁, p₂, p₃⟩ := p
  obtain ⟨q₁, q₂, q₃⟩ := q
  revert e r tested p₁ p₂ p₃ q₁ q₂ q₃
  decide

/-- From the body to the condition in front of it. -/
theorem Exits.back_of_inBody (e tested : Bool) (p q : Exits)
    (h : p.meet (inBody e true tested p q) = true) : (q.done && (e || (true && p.brk))) = true := by
  obtain ⟨p₁, p₂, p₃⟩ := p
  obtain ⟨q₁, q₂, q₃⟩ := q
  revert e tested p₁ p₂ p₃ q₁ q₂ q₃
  decide

/-- A step into a statement tests no checkpoint. -/
theorem Near.step_exec {s : Patched Var Val} {fs : List (Frame Var Val (Option (Chkpnt Var)))}
    {y : Ctl Var Val (Option (Chkpnt Var))}
    (hs : CtlStep C (.exec s (plug fs (.loop h c b k))) y) :
    y = .fin ∨ ∃ r', Near C h c b k y r' ∧
      (r' = true → (emittedExits C s).meet (ahead C c.isSome fs) = true) := by
  obtain ⟨t, hallowed, hstep⟩ := hs
  cases s with
  | skip | expr e | decl v init =>
    cases hstep
    refine .inr ⟨_, .done fs, fun hr => ?_⟩
    simpa [emittedExits, exits, Exits.meet] using hr
  | seq s₁ s₂ =>
    cases hstep
    refine .inr ⟨_, .exec s₁ (.seq s₂ :: fs), fun hr => ?_⟩
    show ((emittedExits C s₁).seq (emittedExits C s₂)).meet _ = true
    rw [Exits.meet_seq]
    exact hr
  | compound s =>
    cases hstep
    exact .inr ⟨_, .exec s fs, id⟩
  | ifStmt e s₁ s₂ =>
    cases hstep
    refine .inr ⟨_, .exec _ fs, fun hr => ?_⟩
    show (((emittedExits C s₁).guard _).alt ((emittedExits C s₂).guard _)).meet _ = true
    rw [Exits.meet_alt, Exits.meet_guard, Exits.meet_guard]
    cases t with
    | true =>
      rw [mayHold_of_allowed hallowed]
      exact Bool.or_eq_true_iff.mpr (.inl hr)
    | false =>
      rw [mayFail_of_allowed hallowed]
      exact Bool.or_eq_true_iff.mpr (.inr hr)
  -- a `do` loop goes to its body first, any other one to its condition
  | loop h' c' b' =>
    cases hstep
    by_cases hfirst : h'.bodyFirst = true
    · rw [if_pos hfirst]
      refine .inr ⟨_, .exec b' (.loop h' c' b' :: fs), fun hr => ?_⟩
      show (loopExits C h' c'.isSome (emittedExits C b')).meet _ = true
      simp only [loopExits, hfirst, Bool.not_true, Bool.false_and, Bool.false_or, Bool.true_or,
        Bool.true_and]
      exact Exits.meet_of_inBody _ _ _ _ _ hr
    · rw [if_neg hfirst]
      refine .inr ⟨_, .test h' c' b' fs, fun hr => ?_⟩
      obtain ⟨hdone, hway⟩ := (Bool.and_eq_true _ _).mp hr
      show (loopExits C h' c'.isSome (emittedExits C b')).meet _ = true
      have hout : (loopExits C h' c'.isSome (emittedExits C b')).done = true := by
        rw [loopExits, Bool.eq_false_of_not_eq_true hfirst]
        rcases (Bool.or_eq_true _ _).mp hway with hend | hbrk
        · simp [hend]
        · obtain ⟨hrepeat, hbrk⟩ := (Bool.and_eq_true _ _).mp hbrk
          simp [hrepeat, hbrk]
      simp [Exits.meet, hout, hdone]
  | breakStmt =>
    cases hstep
    refine .inr ⟨_, .brk fs, fun hr => ?_⟩
    simpa [emittedExits, exits, Exits.meet] using hr
  | continueStmt =>
    cases hstep
    refine .inr ⟨_, .cont fs, fun hr => ?_⟩
    simpa [emittedExits, exits, Exits.meet] using hr
  | returnStmt =>
    cases hstep
    exact .inl rfl

/-- **A step towards the condition of the loop.**  If the condition can be reached from behind
the step and no checkpoint is tested in the step, it can be reached from in front of it. -/
theorem Near.step {x y : Ctl Var Val (Option (Chkpnt Var))} {r : Bool} (hn : Near C h c b k x r)
    (hs : CtlStep C x y) :
    y = .done k ∨ y = .fin ∨
      ∃ r', Near C h c b k y r' ∧ (r' = true → r = true ∨ tests x = true) := by
  obtain ⟨t, hallowed, hstep⟩ := hs
  cases hn with
  | exec s fs =>
    rcases Near.step_exec ⟨t, hallowed, hstep⟩ with hy | ⟨r', hn', hr⟩
    · exact .inr (.inl hy)
    · exact .inr (.inr ⟨r', hn', fun h => .inl (hr h)⟩)
  | done fs =>
    match fs with
    | [] =>
      cases hstep
      refine .inr (.inr ⟨_, .ownNext, fun _ => ?_⟩)
      cases hc : c.isSome with
      | true => exact .inr hc
      | false => exact .inl rfl
    | .seq s :: fs =>
      cases hstep
      exact .inr (.inr ⟨_, .exec s fs, .inl⟩)
    | .loop h' c' b' :: fs =>
      cases hstep
      refine .inr (.inr ⟨_, .next h' c' b' fs, fun hr => ?_⟩)
      cases hc : c'.isSome with
      | true => exact .inr hc
      | false =>
        refine .inl ?_
        rw [ahead, hc]
        exact hr
  | brk fs =>
    match fs with
    | [] =>
      cases hstep
      exact .inl rfl
    | .seq s :: fs =>
      cases hstep
      exact .inr (.inr ⟨_, .brk fs, .inl⟩)
    | .loop h' c' b' :: fs =>
      cases hstep
      exact .inr (.inr ⟨_, .done fs, .inl⟩)
  | cont fs =>
    match fs with
    | [] =>
      cases hstep
      exact .inr (.inr ⟨_, .ownNext, fun _ => .inl rfl⟩)
    | .seq s :: fs =>
      cases hstep
      exact .inr (.inr ⟨_, .cont fs, .inl⟩)
    | .loop h' c' b' :: fs =>
      cases hstep
      exact .inr (.inr ⟨_, .next h' c' b' fs, .inl⟩)
  | next h' c' b' fs =>
    cases hstep
    exact .inr (.inr ⟨_, .test h' c' b' fs, .inl⟩)
  | test h' c' b' fs =>
    cases hstep
    cases t with
    | true =>
      have hrepeat := mayRepeat_of_allowed hallowed rfl
      refine .inr (.inr ⟨_, .exec b' (.loop h' c' b' :: fs), fun hr => .inl ?_⟩)
      have hback := Exits.back_of_inBody (mayEnd C h') c'.isSome (emittedExits C b')
        (ahead C c.isSome fs) (by rwa [ahead, backExits, hrepeat] at hr)
      rwa [backExits, hrepeat]
    | false =>
      have hend := mayEnd_of_allowed hallowed rfl
      refine .inr (.inr ⟨_, .done fs, fun hr => .inl ?_⟩)
      rw [backExits, hend]
      exact Bool.and_eq_true_iff.mpr ⟨hr, rfl⟩
  | ownNext =>
    cases hstep
    exact .inr (.inr ⟨_, .ownTest, fun _ => .inl rfl⟩)
  | ownTest =>
    cases hstep
    cases t with
    | true => exact .inr (.inr ⟨_, .exec b [], fun _ => .inl rfl⟩)
    | false => exact .inl rfl

/-- A path to the condition of the loop that stays in the loop and tests no checkpoint. -/
theorem Near.path {e : Ctl Var Val (Option (Chkpnt Var))} :
    ∀ {path : List (Ctl Var Val (Option (Chkpnt Var)))} {x : Ctl Var Val (Option (Chkpnt Var))}
      {r : Bool}, Near C h c b k x r →
      List.IsChain (CtlStep C) (x :: (path ++ [.test h c b k, e])) →
      .done k ∉ path → tests x = false → (∀ y ∈ path, tests y = false) → r = true
  | [], x, r, hn, hchain, _, htests, _ => by
    rcases hn.step (List.isChain_cons_cons.mp hchain).1 with hy | hy | ⟨r', hn', hr⟩
    · cases hy
    · cases hy
    · exact (hr (hn'.eq_true rfl)).resolve_right (by rw [htests]; exact Bool.false_ne_true)
  | y :: path, x, r, hn, hchain, hdone, htests, hall => by
    obtain ⟨hstep, hchain⟩ := List.isChain_cons_cons.mp hchain
    rcases hn.step hstep with hy | hy | ⟨r', hn', hr⟩
    · exact absurd (hy ▸ List.mem_cons_self) hdone
    · -- nothing follows when the kernel has returned
      subst hy
      cases path with
      | nil =>
        obtain ⟨t, _, hnone⟩ := (List.isChain_cons_cons.mp hchain).1
        cases hnone
      | cons z path =>
        obtain ⟨t, _, hnone⟩ := (List.isChain_cons_cons.mp hchain).1
        cases hnone
    · have hr' := hn'.path hchain (fun hm => hdone (List.mem_cons_of_mem _ hm))
        (hall y List.mem_cons_self) fun z hz => hall z (List.mem_cons_of_mem _ hz)
      exact (hr hr').resolve_right (by rw [htests]; exact Bool.false_ne_true)

theorem Exits.meet_ahead_nil (tested : Bool) (p : Exits) :
    p.meet (ahead C tested []) = p.again tested := by
  obtain ⟨p₁, p₂, p₃⟩ := p
  cases tested <;> cases p₁ <;> cases p₂ <;> cases p₃ <;> rfl

end inside

/-! ## Paths without a test -/

/-- How many frames there are below a control. -/
def Ctl.depth : Ctl Var Val α → Nat
  | .exec _ k | .done k | .brk k | .cont k => Clpkm.depth k
  | .next _ _ _ k | .test _ _ _ k => Clpkm.depth k + 1
  | .fin => 0

section paths
variable (C : Clang Var Val Block)

/-- One step that tests no checkpoint, from a control with so many frames below. -/
def QuietStep (d : Nat) (x y : Ctl Var Val (Option (Chkpnt Var))) : Prop :=
  CtlStep C x y ∧ tests x = false ∧ d ≤ Ctl.depth x

/-- Steps that test no checkpoint. -/
abbrev Quiet (d : Nat) : Ctl Var Val (Option (Chkpnt Var)) → Ctl Var Val (Option (Chkpnt Var)) →
    Prop := Relation.ReflTransGen (QuietStep C d)

variable {C} {d : Nat} {k : Cont Var Val (Option (Chkpnt Var))}

/-- A step whose action computes nothing. -/
theorem quiet_pass {x y z : Ctl Var Val (Option (Chkpnt Var))} (hx : x.action = .pass)
    (hstep : x.step true = some y) (htests : tests x = false) (hd : d ≤ Ctl.depth x)
    (h : Quiet C d y z) : Quiet C d x z := by
  refine .head ⟨⟨true, ?_, hstep⟩, htests, hd⟩ h
  rw [hx]
  rfl

theorem allowed_of_mayHold {e : Expr Var Val} (h : mayHold C e = true) :
    Allowed C (.eval e) true := bne_iff_ne.mp h

theorem allowed_of_mayFail {e : Expr Var Val} (h : mayFail C e = true) :
    Allowed C (.eval e) false := bne_iff_ne.mp h

theorem allowed_of_mayRepeat {h : LoopHead Var Val} (hr : mayRepeat C h = true) :
    Allowed C (h.cond.elim .pass .eval) true := by
  unfold mayRepeat at hr
  cases hc : h.cond with
  | none => rfl
  | some e =>
    rw [hc] at hr
    exact allowed_of_mayHold hr

theorem allowed_of_mayEnd {h : LoopHead Var Val} (he : mayEnd C h = true) :
    Allowed C (h.cond.elim .pass .eval) false := by
  unfold mayEnd at he
  cases hc : h.cond with
  | none =>
    rw [hc] at he
    cases he
  | some e =>
    rw [hc] at he
    exact allowed_of_mayFail he

theorem exists_allowed (C : Clang Var Val Block) (e : Expr Var Val) :
    ∃ t, Allowed C (.eval e) t := by
  by_cases he : C.evaluate e = some false
  · exact ⟨false, he.trans_ne (by decide)⟩
  · exact ⟨true, he⟩

/-- The increment of a loop never decides anything. -/
theorem exists_allowed_inc (C : Clang Var Val Block) (h : LoopHead Var Val) :
    ∃ t, Allowed C (h.inc.elim .pass .eval) t := by
  cases h.inc with
  | none => exact ⟨true, rfl⟩
  | some e => exact exists_allowed C e

theorem quiet_next {h : LoopHead Var Val} {c : Option (Chkpnt Var)} {b : Patched Var Val}
    {z : Ctl Var Val (Option (Chkpnt Var))} (hd : d ≤ depth k + 1)
    (hz : Quiet C d (.test h c b k) z) : Quiet C d (.next h c b k) z := by
  obtain ⟨t, ht⟩ := exists_allowed_inc C h
  exact .head ⟨⟨t, ht, rfl⟩, rfl, hd⟩ hz

/-- From the end of a loop body, or from a `continue`, to the condition. -/
theorem quiet_again {h : LoopHead Var Val} {c : Option (Chkpnt Var)} {b : Patched Var Val}
    {x : Ctl Var Val (Option (Chkpnt Var))} (hd : d ≤ depth k + 1)
    (hdone : (emittedExits C b).done = true → Quiet C d x (.done (.loop h c b k)))
    (hcont : (emittedExits C b).cont = true → Quiet C d x (.cont (.loop h c b k)))
    (hagain : (emittedExits C b).again c.isSome = true) : Quiet C d x (.test h c b k) := by
  rw [Exits.again, Bool.or_eq_true, Bool.and_eq_true] at hagain
  rcases hagain with hc | ⟨hcheck, hd'⟩
  · exact (hcont hc).trans (quiet_pass rfl rfl rfl hd (quiet_next hd .refl))
  · have htests : tests (.done (.loop h c b k)) = false := by
      cases c with
      | none => rfl
      | some p => cases hcheck
    exact (hdone hd').trans (quiet_pass rfl rfl htests hd (quiet_next hd .refl))

/-- **Every way out that `exits` finds can be taken.** -/
theorem quiet_exits (s : Patched Var Val) (k : Cont Var Val (Option (Chkpnt Var)))
    (hd : d ≤ depth k) :
    ((emittedExits C s).done = true → Quiet C d (.exec s k) (.done k)) ∧
      ((emittedExits C s).brk = true → Quiet C d (.exec s k) (.brk k)) ∧
      ((emittedExits C s).cont = true → Quiet C d (.exec s k) (.cont k)) := by
  induction s generalizing k with
  | skip =>
    refine ⟨fun _ => quiet_pass rfl rfl rfl hd .refl, fun h => ?_, fun h => ?_⟩ <;> cases h
  | expr e =>
    refine ⟨fun _ => ?_, fun h => ?_, fun h => ?_⟩
    · obtain ⟨t, ht⟩ := exists_allowed C e
      exact .single ⟨⟨t, ht, rfl⟩, rfl, hd⟩
    · cases h
    · cases h
  | decl x init =>
    refine ⟨fun _ => ?_, fun h => ?_, fun h => ?_⟩
    · cases init <;> exact .single ⟨⟨true, rfl, rfl⟩, rfl, hd⟩
    · cases h
    · cases h
  | seq s t ihs iht =>
    obtain ⟨hsd, hsb, hsc⟩ := ihs (.seq t k) (hd.trans (Nat.le_succ _))
    obtain ⟨htd, htb, htc⟩ := iht k hd
    have hd' : d ≤ depth (.seq t k) := hd.trans (Nat.le_succ _)
    -- the first statement ends and the second one is left
    have hboth : ∀ {z}, (emittedExits C s).done = true → Quiet C d (.exec t k) z →
        Quiet C d (.exec (.seq s t) k) z := fun hs hz =>
      quiet_pass rfl rfl rfl hd ((hsd hs).trans (quiet_pass rfl rfl rfl hd' hz))
    refine ⟨fun h => ?_, fun h => ?_, fun h => ?_⟩
    · obtain ⟨hs, ht⟩ := Bool.and_eq_true_iff.mp h
      exact hboth hs (htd ht)
    · rcases Bool.or_eq_true_iff.mp h with hs | h
      · exact quiet_pass rfl rfl rfl hd ((hsb hs).trans (quiet_pass rfl rfl rfl hd' .refl))
      · obtain ⟨hs, ht⟩ := Bool.and_eq_true_iff.mp h
        exact hboth hs (htb ht)
    · rcases Bool.or_eq_true_iff.mp h with hs | h
      · exact quiet_pass rfl rfl rfl hd ((hsc hs).trans (quiet_pass rfl rfl rfl hd' .refl))
      · obtain ⟨hs, ht⟩ := Bool.and_eq_true_iff.mp h
        exact hboth hs (htc ht)
  | compound s ih =>
    obtain ⟨hsd, hsb, hsc⟩ := ih k hd
    exact ⟨fun h => quiet_pass rfl rfl rfl hd (hsd h), fun h => quiet_pass rfl rfl rfl hd (hsb h),
      fun h => quiet_pass rfl rfl rfl hd (hsc h)⟩
  | ifStmt e s t ihs iht =>
    obtain ⟨hsd, hsb, hsc⟩ := ihs k hd
    obtain ⟨htd, htb, htc⟩ := iht k hd
    have hthen : ∀ {z}, mayHold C e = true → Quiet C d (.exec s k) z →
        Quiet C d (.exec (.ifStmt e s t) k) z := fun he hz =>
      .head ⟨⟨true, allowed_of_mayHold he, rfl⟩, rfl, hd⟩ hz
    have helse : ∀ {z}, mayFail C e = true → Quiet C d (.exec t k) z →
        Quiet C d (.exec (.ifStmt e s t) k) z := fun he hz =>
      .head ⟨⟨false, allowed_of_mayFail he, rfl⟩, rfl, hd⟩ hz
    refine ⟨fun h => ?_, fun h => ?_, fun h => ?_⟩ <;>
      rcases Bool.or_eq_true_iff.mp h with h | h <;> obtain ⟨he, h⟩ := Bool.and_eq_true_iff.mp h
    · exact hthen he (hsd h)
    · exact helse he (htd h)
    · exact hthen he (hsb h)
    · exact helse he (htb h)
    · exact hthen he (hsc h)
    · exact helse he (htc h)
  | loop h c b ih =>
    have hd' : d ≤ depth k + 1 := hd.trans (Nat.le_succ _)
    obtain ⟨hbd, hbb, hbc⟩ := ih (.loop h c b k) hd'
    refine ⟨fun hdone => ?_, fun h => ?_, fun h => ?_⟩
    · -- from the condition out of the loop
      have hleave : mayEnd C h = true → Quiet C d (.test h c b k) (.done k) := fun he =>
        .single ⟨⟨false, allowed_of_mayEnd he, rfl⟩, rfl, hd'⟩
      have hbody : (emittedExits C b).brk = true ∨
          ((emittedExits C b).again c.isSome = true ∧ mayEnd C h = true) →
          Quiet C d (.exec b (.loop h c b k)) (.done k) := by
        rintro (hb | ⟨hagain, he⟩)
        · exact (hbb hb).trans (quiet_pass rfl rfl rfl hd' .refl)
        · exact (quiet_again hd' hbd hbc hagain).trans (hleave he)
      simp only [emittedExits, exits, loopExits, Bool.or_eq_true, Bool.and_eq_true,
        Bool.not_eq_true'] at hdone
      by_cases hfirst : h.bodyFirst = true
      · refine quiet_pass (y := .exec b (.loop h c b k)) rfl ?_ rfl hd (hbody ?_)
        · show some (if h.bodyFirst then _ else _) = _
          rw [if_pos hfirst]
        · rcases hdone with ⟨hn, _⟩ | ⟨_, hout⟩
          · rw [hn] at hfirst
            cases hfirst
          · exact hout
      · refine quiet_pass (y := .test h c b k) rfl ?_ rfl hd ?_
        · show some (if h.bodyFirst then _ else _) = _
          rw [if_neg hfirst]
        · rcases hdone with ⟨_, he⟩ | ⟨hr, hout⟩
          · exact hleave he
          · have hrepeat := hr.resolve_left hfirst
            exact .head ⟨⟨true, allowed_of_mayRepeat hrepeat, rfl⟩, rfl, hd'⟩ (hbody hout)
    · cases h
    · cases h
  | breakStmt =>
    refine ⟨fun h => ?_, fun _ => quiet_pass rfl rfl rfl hd .refl, fun h => ?_⟩ <;> cases h
  | continueStmt =>
    refine ⟨fun h => ?_, fun h => ?_, fun _ => quiet_pass rfl rfl rfl hd .refl⟩ <;> cases h
  | returnStmt =>
    refine ⟨fun h => ?_, fun h => ?_, fun h => ?_⟩ <;> cases h

/-- The controls on a way without a test. -/
theorem Quiet.exists_path {x y e : Ctl Var Val (Option (Chkpnt Var))} (h : Quiet C d x y)
    (he : CtlStep C y e) :
    x = y ∨ (tests x = false ∧ d ≤ Ctl.depth x) ∧
      ∃ path, List.IsChain (CtlStep C) (x :: (path ++ [y, e])) ∧
        ∀ z ∈ path, tests z = false ∧ d ≤ Ctl.depth z := by
  induction h using Relation.ReflTransGen.head_induction_on with
  | refl => exact .inl rfl
  | head hstep _ ih =>
    refine .inr ⟨hstep.2, ?_⟩
    rcases ih with rfl | ⟨hgood, path, hchain, hall⟩
    · refine ⟨[], ?_, fun _ hz => absurd hz List.not_mem_nil⟩
      exact List.isChain_cons_cons.mpr ⟨hstep.1, List.isChain_cons_cons.mpr ⟨he, .singleton _⟩⟩
    · refine ⟨_ :: path, List.isChain_cons_cons.mpr ⟨hstep.1, hchain⟩, ?_⟩
      rintro z (_ | ⟨_, hz⟩)
      · exact hgood
      · exact hall z hz

end paths

/-! ## Loops of a kernel -/

/-- **A loop that may repeat is preemptible if and only if** its body comes to the next condition
through a checkpoint only. -/
theorem preemptible_iff {C : Clang Var Val Block} {h : LoopHead Var Val}
    (hrepeat : mayRepeat C h = true) (c : Option (Chkpnt Var)) (b : Patched Var Val)
    (k : Cont Var Val (Option (Chkpnt Var))) :
    Preemptible C h c b k ↔ (emittedExits C b).again c.isSome = false := by
  have hentry : tests (.exec b (.loop h c b k)) = false := rfl
  constructor
  · intro hp
    by_contra hagain
    have hagain := Bool.eq_true_of_not_eq_false hagain
    have hd : depth k + 1 ≤ depth (.loop h c b k) := Nat.le_refl _
    obtain ⟨hbd, _, hbc⟩ := quiet_exits (C := C) b (.loop h c b k) hd
    have hquiet := quiet_again (Nat.le_refl (depth k + 1)) hbd hbc hagain
    have hback : CtlStep C (.test h c b k) (.exec b (.loop h c b k)) :=
      ⟨true, allowed_of_mayRepeat hrepeat, rfl⟩
    rcases hquiet.exists_path hback with he | ⟨_, path, hchain, hall⟩
    · cases he
    · obtain ⟨x, hx, htests⟩ := hp path hchain fun hdone => by
        have hlt := (hall _ hdone).2
        rw [Ctl.depth] at hlt
        omega
      rw [(hall x hx).1] at htests
      cases htests
  · intro hagain path hchain hdone
    by_contra hnone
    push Not at hnone
    have hall : ∀ y ∈ path, tests y = false := fun y hy => Bool.eq_false_of_not_eq_true (hnone y hy)
    have hnear := (Near.exec (C := C) (h := h) (c := c) (b := b) (k := k) b []).path hchain hdone
      hentry hall
    rw [Exits.meet_ahead_nil, hagain] at hnear
    cases hnear

/-- All loops of a statement. -/
def Lang.Stmt.EveryLoop (P : LoopHead Var Val → α → Stmt Var Val α → Prop) : Stmt Var Val α → Prop
  | .seq s t | .ifStmt _ s t => s.EveryLoop P ∧ t.EveryLoop P
  | .compound s => s.EveryLoop P
  | .loop h a b => b.EveryLoop P ∧ P h a b
  | _ => True

theorem everyLoop_iff_inside {P : LoopHead Var Val → α → Stmt Var Val α → Prop}
    (p : Place Var Val α) :
    p.stmt.EveryLoop P ↔ ∀ E h a b k, p.Inside ⟨E, .loop h a b, k⟩ → P h a b := by
  constructor
  · intro hall E h a b k hin
    refine (hin.inherit (P := fun q => q.stmt.EveryLoop P) ?_ hall).2
    intro q r hq hr
    cases hq with
    | seqLeft | ifLeft | body => exact hr.1
    | seqRight | ifRight => exact hr.2
    | compound => exact hr
  · obtain ⟨E, s, k⟩ := p
    intro hin
    induction s generalizing E k with
    | seq s t ihs iht =>
      exact ⟨ihs E (.seq t k) fun _ _ _ _ _ h => hin _ _ _ _ _ (.head (.seqLeft E s t k) h),
        iht (s.after E) k fun _ _ _ _ _ h => hin _ _ _ _ _ (.head (.seqRight E s t k) h)⟩
    | compound s ih =>
      exact ih E k fun _ _ _ _ _ h => hin _ _ _ _ _ (.head (.compound E s k) h)
    | ifStmt e s t ihs iht =>
      exact ⟨ihs E k fun _ _ _ _ _ h => hin _ _ _ _ _ (.head (.ifLeft E e s t k) h),
        iht E k fun _ _ _ _ _ h => hin _ _ _ _ _ (.head (.ifRight E e s t k) h)⟩
    | loop h a b ih =>
      exact ⟨ih E (.loop h a b k) fun _ _ _ _ _ hb => hin _ _ _ _ _ (.head (.body E h a b k) hb),
        hin E h a b k .refl⟩
    | _ => exact trivial

/-- Which loops of the emitted program come to their next condition through a checkpoint only
is decided in the program as it is written. -/
theorem everyLoop_traverse (C : Clang Var Val Block) (s : Stmt Var Val Unit) (E : List Var)
    (n : Nat) :
    (traverse C s E n).1.EveryLoop
        (fun h c b => neverRepeats C h = false → (emittedExits C b).again c.isSome = false) ↔
      everyLoopTested C s = true := by
  induction s generalizing E n with
  | seq s t ihs iht | ifStmt e s t ihs iht =>
    rw [everyLoopTested, Bool.and_eq_true]
    exact and_congr (ihs _ _) (iht _ _)
  | compound s ih => exact ih E n
  | loop h a b ih =>
    rw [everyLoopTested, Bool.and_eq_true]
    apply and_congr (ih E n)
    show (neverRepeats C h = false → (emittedExits C (traverse C b E n).1).again
      (patchLoopBody C E (traverse C b E n).2 h).1.isSome = false) ↔ _
    rw [emittedExits_traverse, Bool.or_eq_true, Bool.not_eq_true']
    by_cases hc : neverRepeats C h = true
    · exact ⟨fun _ => .inl hc, fun _ hf => absurd (hc.symm.trans hf) (by decide)⟩
    · have hpatched : (patchLoopBody C E (traverse C b E n).2 h).1.isSome = true := by
        rw [patchLoopBody, if_neg hc]
        rfl
      rw [hpatched]
      have hagain : (sourceExits C b).again true = (sourceExits C b).cont := Bool.or_false _
      rw [hagain]
      exact ⟨fun himp => .inr (himp (Bool.eq_false_of_not_eq_true hc)),
        fun hor _ => hor.resolve_left hc⟩
  | _ => exact ⟨fun _ => rfl, fun _ => trivial⟩

/-- Every loop of the emitted kernel is preemptible whose condition Clang does not evaluate to
false. -/
def StaysPreemptible (C : Clang Var Val Block) (K : Kernel Var Val) : Prop :=
  ∀ E h c b k, (K.root C).Inside ⟨E, .loop h c b, k⟩ → neverRepeats C h = false →
    Preemptible C h c b k

/-- **Every loop stays preemptible, if and only if** no loop that may repeat has a `continue` of
its own that can be reached from the start of its body before a checkpoint is tested. -/
theorem staysPreemptible_iff (C : Clang Var Val Block) (K : Kernel Var Val) :
    StaysPreemptible C K ↔ everyLoopTested C K.body = true := by
  rw [← everyLoop_traverse C K.body K.params 1]
  have hplace := everyLoop_iff_inside (P := fun h c b => neverRepeats C h = false →
    (emittedExits C b).again c.isSome = false) (K.root C)
  refine Iff.trans ?_ hplace.symm
  have hloop : ∀ h c b k, (neverRepeats C h = false → Preemptible C h c b k) ↔
      (neverRepeats C h = false → (emittedExits C b).again c.isSome = false) := by
    intro h c b k
    refine imp_congr_right fun hc => preemptible_iff ?_ c b k
    rw [mayRepeat_eq, hc]
    rfl
  constructor
  · intro hall E h c b k hin
    exact (hloop h c b k).mp (hall E h c b k hin)
  · intro hall E h c b k hin
    exact (hloop h c b k).mpr (hall E h c b k hin)

namespace CountKernel

/-- `while (n) { n = n - 1; continue; }`, for the parameter `n` -/
def skipping : Kernel String UInt8 where
  params := ["n"]
  body := .loop (.whileStmt 0 (.var "n")) ()
    (.compound (.seq
      (.expr (.assign "n" (.op (fun a b => some (a - b)) (.var "n") (.const 1))))
      .continueStmt))
  inScope := by simp [Stmt.Scoped, Expr.vars, LoopHead.cond, LoopHead.inc]
  type := charType 8

/-- **A `continue` skips the checkpoint** at the end of the body. -/
theorem not_staysPreemptible_skipping : ¬StaysPreemptible clang skipping := by
  intro h
  have hp := h _ _ _ _ _ .refl rfl
  have hcond : ∀ e, Allowed clang (.eval e) true := fun _ => (Option.some_ne_none _).symm
  obtain ⟨x, hx, htests⟩ :=
    hp [.exec _ _, .exec _ _, .done _, .exec _ _, .cont _, .next _ _ _ _] (by
      repeat'
        first
        | exact .singleton _
        | refine List.isChain_cons_cons.mpr ⟨⟨true, ?_, rfl⟩, ?_⟩
      all_goals first | exact rfl | exact hcond _) (by simp)
  simp only [List.mem_cons, List.not_mem_nil, or_false] at hx
  rcases hx with rfl | rfl | rfl | rfl | rfl | rfl <;> cases htests

end CountKernel
end Clpkm
