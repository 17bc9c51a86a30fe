import Clpkm.Cycle
import Clpkm.Inliner.CallSites

/-!
# When the inliner ends

The call chain is a path of the call graph, so a function that is found in it closes a
cycle; and a function whose calls have all been inlined reaches no cycle.  So an error
is reported when the first function of the table that reaches a cycle is looked at.

A declaration without a body is skipped, but it stays in the table.  As soon as it is the
first entry the loop goes on for ever.  `meets_iff` is the exact condition under which
this does not happen.
-/

namespace Clpkm
namespace Inliner

universe u v w

variable {F : Type u} {C : Type v} {Rewriter : Type w}
variable {S : Source F C Rewriter} {T : CallSiteTable F C} {s s' : State F C Rewriter}

/-! ## The table -/

/-- Only functions that have a body are erased. -/
def Shrinks (S : Source F C Rewriter) (s s' : State F C Rewriter) : Prop :=
  ∃ keep : F → Bool, s'.callSites.keys = s.callSites.keys.filter keep ∧
    ∀ f, S.hasBody f = false → keep f = true

theorem Shrinks.refl (h : s'.callSites = s.callSites) : Shrinks S s s' := by
  refine ⟨fun _ => true, ?_, fun _ _ => rfl⟩
  rw [h, List.filter_true]

theorem Shrinks.trans {s'' : State F C Rewriter} (h : Shrinks S s s') (h' : Shrinks S s' s'') :
    Shrinks S s s'' := by
  obtain ⟨keep, hkeys, hkeep⟩ := h
  obtain ⟨keep', hkeys', hkeep'⟩ := h'
  refine ⟨fun f => keep' f && keep f, ?_, fun f hf => ?_⟩
  · rw [hkeys', hkeys, List.filter_filter]
  · exact Bool.and_eq_true_iff.mpr ⟨hkeep' f hf, hkeep f hf⟩

theorem Shrinks.mem {f : F} (h : Shrinks S s s') (hf : f ∈ s'.callSites.keys) :
    f ∈ s.callSites.keys := by
  obtain ⟨keep, hkeys, _⟩ := h
  rw [hkeys] at hf
  exact (List.mem_filter.mp hf).1

theorem Shrinks.length_le (h : Shrinks S s s') :
    s'.callSites.keys.length ≤ s.callSites.keys.length := by
  obtain ⟨keep, hkeys, _⟩ := h
  rw [hkeys]
  exact List.length_filter_le keep _

/-- A declaration without a body stays. -/
theorem Shrinks.mem_of_not_hasBody {f : F} (h : Shrinks S s s') (hb : S.hasBody f = false)
    (hf : f ∈ s.callSites.keys) : f ∈ s'.callSites.keys := by
  obtain ⟨keep, hkeys, hkeep⟩ := h
  rw [hkeys]
  exact List.mem_filter.mpr ⟨hf, hkeep f hb⟩

theorem takeWhile_filter {p q : F → Bool} (h : ∀ x, p x = false → q x = true) (l : List F) :
    (l.filter q).takeWhile p = (l.takeWhile p).filter q := by
  induction l with
  | nil => rfl
  | cons x l ih =>
    by_cases hp : p x = true
    · rw [List.takeWhile_cons_of_pos hp]
      by_cases hq : q x = true
      · rw [List.filter_cons_of_pos hq, List.filter_cons_of_pos hq,
          List.takeWhile_cons_of_pos hp, ih]
      · rw [List.filter_cons_of_neg hq, List.filter_cons_of_neg hq, ih]
    · have hq := h x (Bool.not_eq_true _ ▸ hp)
      rw [List.takeWhile_cons_of_neg hp, List.filter_cons_of_pos hq,
        List.takeWhile_cons_of_neg hp]
      rfl

/-- The functions in front of all declarations without a body. -/
def front (S : Source F C Rewriter) (T : CallSiteTable F C) : List F := T.keys.takeWhile S.hasBody

theorem Shrinks.mem_front_iff {f : F} (h : Shrinks S s s') :
    f ∈ front S s'.callSites ↔ f ∈ front S s.callSites ∧ f ∈ s'.callSites.keys := by
  obtain ⟨keep, hkeys, hkeep⟩ := h
  unfold front
  rw [hkeys, takeWhile_filter hkeep, List.mem_filter, List.mem_filter]
  constructor
  · rintro ⟨hfront, hk⟩
    exact ⟨hfront, (List.takeWhile_prefix _).subset hfront, hk⟩
  · rintro ⟨hfront, _, hk⟩
    exact ⟨hfront, hk⟩

variable [DecidableEq F]

theorem mem_keys_iff {f : F} : f ∈ s.callSites.keys ↔ ∃ cs, s.callSites.lookup f = some cs := by
  rw [AList.mem_keys.symm, ← AList.lookup_isSome, Option.isSome_iff_exists]

theorem Shrinks.erase {f : F} (hf : S.hasBody f = true) (s : State F C Rewriter) :
    Shrinks S s { s with callSites := s.callSites.erase f } := by
  refine ⟨fun g => g != f, ?_, fun g hg => ?_⟩
  · change (s.callSites.erase f).keys = _
    rw [AList.keys_erase, List.Nodup.erase_eq_filter (AList.keys_nodup s.callSites)]
  · rw [bne_iff_ne]
    rintro rfl
    rw [hf] at hg
    cases hg

/-! ## What is known in every state -/

/-- The table is part of the one at the beginning, and whatever has been dealt with
reaches no cycle. -/
structure Inv (S : Source F C Rewriter) (T : CallSiteTable F C) (s : State F C Rewriter) :
    Prop where
  lookup : ∀ f cs, s.callSites.lookup f = some cs → T.lookup f = some cs
  erased : ∀ f, s.callSites.lookup f = none → ¬ReachesCycle (Calls S T) f
  cached : ∀ f ∈ s.cache, ¬ReachesCycle (Calls S T) f

theorem inv_start (text : Rewriter) : Inv S T (.start T text) := by
  refine ⟨fun f cs h => h, fun f hf => ?_, fun f hf => nomatch hf⟩
  refine not_reachesCycle fun g hg => ?_
  obtain ⟨cs, hcs, _⟩ := hg
  rw [State.start] at hf
  rw [hf] at hcs
  cases hcs

/-- What a function of the inliner does, called for a function `f`. -/
structure Done (S : Source F C Rewriter) (T : CallSiteTable F C) (callChain : List F)
    (s s' : State F C Rewriter) : Prop where
  inv : Inv S T s'
  shrinks : Shrinks S s s'
  callChain : ∀ g ∈ callChain, g ∈ s'.callSites.keys

/-- The reported functions call each other. -/
def Report.Correct (S : Source F C Rewriter) (T : CallSiteTable F C) (e : Report F) : Prop :=
  IsCycle (Calls S T) e.func e.between

/-- What `PerformInline` and `GenCodeSnippet` return for a function. -/
def Spec (S : Source F C Rewriter) (T : CallSiteTable F C) (f : F) (callChain : List F)
    (s : State F C Rewriter) : Except (Report F) (State F C Rewriter) → Prop
  | .ok s' => Done S T callChain s s' ∧ ¬ReachesCycle (Calls S T) f
  | .error e => e.Correct S T ∧ ReachesCycle (Calls S T) f

theorem exists_takeWhile_append {f : F} {l : List F} (hf : f ∈ l) :
    ∃ rest, l = l.takeWhile (· ≠ f) ++ f :: rest := by
  induction l with
  | nil => cases hf
  | cons g l ih =>
    by_cases hg : g = f
    · subst hg
      exact ⟨l, by rw [List.takeWhile_cons_of_neg (by simp), List.nil_append]⟩
    · obtain ⟨rest, hrest⟩ := ih ((List.mem_cons.mp hf).resolve_left (Ne.symm hg))
      refine ⟨rest, ?_⟩
      rw [List.takeWhile_cons_of_pos (by simpa using hg), List.cons_append, ← hrest]

/-- **A function that is found in the call chain closes a cycle.** -/
theorem report_correct {f : F} {callChain : List F} (hf : f ∈ callChain)
    (hpath : List.IsChain (Calls S T) (callChain ++ [f])) :
    (report f callChain).Correct S T := by
  obtain ⟨rest, hrest⟩ := exists_takeWhile_append (List.mem_reverse.mpr hf)
  have hchain := congrArg List.reverse hrest
  rw [List.reverse_reverse, List.reverse_append, List.reverse_cons, List.append_assoc] at hchain
  rw [hchain, List.append_assoc] at hpath
  exact (List.isChain_append.mp hpath).2.1

/-- A call extends the path. -/
theorem path_concat {callChain : List F} {f g : F}
    (hpath : List.IsChain (Calls S T) (callChain ++ [f])) (hcall : Calls S T f g) :
    List.IsChain (Calls S T) (callChain ++ [f] ++ [g]) := by
  refine List.isChain_append.mpr ⟨hpath, List.isChain_singleton g, fun x hx y hy => ?_⟩
  rw [List.getLast?_concat, Option.mem_some_iff] at hx
  rw [List.head?_cons, Option.mem_some_iff] at hy
  subst hx hy
  exact hcall

theorem mem_keys_concat {callChain : List F} {f : F} {cs : List C}
    (hc : ∀ h ∈ callChain, h ∈ s.callSites.keys) (hl : s.callSites.lookup f = some cs) :
    ∀ h ∈ callChain ++ [f], h ∈ s.callSites.keys := by
  intro h hh
  rcases List.mem_append.mp hh with hh | hh
  · exact hc h hh
  · rw [List.mem_singleton.mp hh]
    exact mem_keys_iff.mpr ⟨cs, hl⟩

/-! ## One function -/

theorem Done.refl {callChain : List F} (h : Inv S T s)
    (hc : ∀ g ∈ callChain, g ∈ s.callSites.keys) : Done S T callChain s s :=
  ⟨h, .refl rfl, hc⟩

/-- The text does not matter. -/
theorem Inv.setText (h : Inv S T s) (text : Rewriter) : Inv S T { s with text := text } :=
  ⟨h.lookup, h.erased, h.cached⟩

theorem Done.trans {callChain : List F} {s'' : State F C Rewriter} (h : Done S T callChain s s')
    (h' : Done S T callChain s' s'') : Done S T callChain s s'' :=
  ⟨h'.inv, h.shrinks.trans h'.shrinks, h'.callChain⟩

/-- **`GenCodeSnippet`**, if `PerformInline` does as it should. -/
theorem genCodeSnippet_spec {perform : F → State F C Rewriter → Result F C Rewriter}
    {callChain : List F}
    (hperform : ∀ g s r, Inv S T s → (∀ h ∈ callChain, h ∈ s.callSites.keys) →
      List.IsChain (Calls S T) (callChain ++ [g]) → S.hasBody g = true →
      perform g s = some r → Spec S T g callChain s r)
    {g : F} {r : Except (Report F) (State F C Rewriter)} (hinv : Inv S T s)
    (hc : ∀ h ∈ callChain, h ∈ s.callSites.keys)
    (hpath : List.IsChain (Calls S T) (callChain ++ [g])) (hbody : S.hasBody g = true)
    (hr : genCodeSnippet S perform g s = some r) : Spec S T g callChain s r := by
  -- what happens once no cycle is reached from the function
  have hadd : ∀ s', Done S T callChain s s' → ¬ReachesCycle (Calls S T) g →
      Done S T callChain s
        { s' with cache := g :: s'.cache, text := S.addSnippet g s'.text } := by
    intro s' hdone hg
    refine ⟨⟨hdone.inv.lookup, hdone.inv.erased, fun f hf => ?_⟩, hdone.shrinks, hdone.callChain⟩
    rcases List.mem_cons.mp hf with rfl | hf
    · exact hg
    · exact hdone.inv.cached f hf
  unfold genCodeSnippet at hr
  by_cases hcache : g ∈ s.cache
  · rw [if_pos hcache] at hr
    cases hr
    exact ⟨.refl hinv hc, hinv.cached g hcache⟩
  · rw [if_neg hcache] at hr
    by_cases hcst : (s.callSites.lookup g).isSome = true
    · rw [if_pos hcst] at hr
      cases hp : perform g s with
      | none =>
        rw [hp] at hr
        cases hr
      | some res =>
        have hspec := hperform g s res hinv hc hpath hbody hp
        rw [hp] at hr
        cases res with
        | error e =>
          cases hr
          exact hspec
        | ok s' =>
          cases hr
          exact ⟨hadd s' hspec.1 hspec.2, hspec.2⟩
    · rw [if_neg hcst] at hr
      cases hr
      have hnone : s.callSites.lookup g = none := by simpa using hcst
      exact ⟨hadd s (.refl hinv hc) (hinv.erased g hnone), hinv.erased g hnone⟩

/-- **The loop over the calls of a function**: in the end no callee reaches a cycle. -/
theorem inlineCalls_spec {gen : F → State F C Rewriter → Result F C Rewriter} {f : F}
    {callChain : List F}
    (hgen : ∀ g s r, Inv S T s → (∀ h ∈ callChain, h ∈ s.callSites.keys) → Calls S T f g →
      S.hasBody g = true → gen g s = some r → Spec S T g callChain s r)
    {cs : List C}
    (hcs : ∀ c ∈ cs, S.hasBody (S.getDirectCallee c) = true →
      Calls S T f (S.getDefinition (S.getDirectCallee c)))
    {r : Except (Report F) (State F C Rewriter)} (hinv : Inv S T s)
    (hc : ∀ h ∈ callChain, h ∈ s.callSites.keys) (hr : inlineCalls S gen f cs s = some r) :
    match r with
    | .ok s' => Done S T callChain s s' ∧
      ∀ c ∈ cs, S.hasBody (S.getDirectCallee c) = true →
        ¬ReachesCycle (Calls S T) (S.getDefinition (S.getDirectCallee c))
    | .error e => e.Correct S T ∧ ReachesCycle (Calls S T) f := by
  induction cs generalizing s with
  | nil =>
    cases hr
    exact ⟨.refl hinv hc, fun c hmem => nomatch hmem⟩
  | cons c cs ih =>
    have htail : ∀ c' ∈ cs, S.hasBody (S.getDirectCallee c') = true →
        Calls S T f (S.getDefinition (S.getDirectCallee c')) :=
      fun c' hc' => hcs c' (List.mem_cons_of_mem c hc')
    rw [inlineCalls] at hr
    by_cases hbody : S.hasBody (S.getDirectCallee c) = true
    · rw [if_pos hbody] at hr
      have hcall := hcs c List.mem_cons_self hbody
      cases hg : gen (S.getDefinition (S.getDirectCallee c)) s with
      | none =>
        rw [hg] at hr
        cases hr
      | some res =>
        have hspec := hgen _ s res hinv hc hcall (S.hasBody_getDefinition _ hbody) hg
        rw [hg] at hr
        cases res with
        | error e =>
          cases hr
          exact ⟨hspec.1, hspec.2.head hcall⟩
        | ok s₁ =>
          obtain ⟨hdone, hacyclic⟩ := hspec
          have hrest := ih htail (hdone.inv.setText (S.replace f c s₁.text)) hdone.callChain hr
          cases r with
          | error e => exact hrest
          | ok s' =>
            obtain ⟨hdone', hall⟩ := hrest
            refine ⟨⟨hdone'.inv, hdone.shrinks.trans hdone'.shrinks, hdone'.callChain⟩, ?_⟩
            intro c' hc' hb
            rcases List.mem_cons.mp hc' with rfl | hc'
            · exact hacyclic
            · exact hall c' hc' hb
    -- a callee without a body is skipped
    · rw [if_neg hbody] at hr
      have hrest := ih htail hinv hc hr
      cases r with
      | error e => exact hrest
      | ok s' =>
        refine ⟨hrest.1, fun c' hc' hb => ?_⟩
        rcases List.mem_cons.mp hc' with rfl | hc'
        · exact absurd hb hbody
        · exact hrest.2 c' hc' hb

/-- **`PerformInline`**: the calls of the function are inlined, or it reaches a cycle. -/
theorem performInline_spec (n : Nat) {f : F} {callChain : List F}
    {r : Except (Report F) (State F C Rewriter)} (hinv : Inv S T s)
    (hc : ∀ h ∈ callChain, h ∈ s.callSites.keys)
    (hpath : List.IsChain (Calls S T) (callChain ++ [f])) (hbody : S.hasBody f = true)
    (hr : performInline S n f callChain s = some r) : Spec S T f callChain s r := by
  induction n generalizing f callChain s r with
  | zero => cases hr
  | succ n ih =>
    rw [performInline, if_pos hbody] at hr
    -- a function that is being inlined already closes a cycle
    by_cases hmem : f ∈ callChain
    · rw [if_pos hmem] at hr
      cases hr
      have hcycle := report_correct hmem hpath
      exact ⟨hcycle, .of_transGen hcycle.transGen⟩
    rw [if_neg hmem] at hr
    cases hl : s.callSites.lookup f with
    | none =>
      rw [hl] at hr
      cases hr
      exact ⟨.refl hinv hc, hinv.erased f hl⟩
    | some calls =>
      simp only [hl] at hr
      have hT := hinv.lookup f calls hl
      have hc' := mem_keys_concat hc hl
      have hgen : ∀ g s r, Inv S T s → (∀ h ∈ callChain ++ [f], h ∈ s.callSites.keys) →
          Calls S T f g → S.hasBody g = true →
          genCodeSnippet S (fun g s => performInline S n g (callChain ++ [f]) s) g s = some r →
          Spec S T g (callChain ++ [f]) s r := by
        intro g s r hinv hc hcall hg hr
        exact genCodeSnippet_spec (fun g s r hinv hc hpath hg hr => ih hinv hc hpath hg hr)
          hinv hc (path_concat hpath hcall) hg hr
      have hcs : ∀ c ∈ calls.reverse, S.hasBody (S.getDirectCallee c) = true →
          Calls S T f (S.getDefinition (S.getDirectCallee c)) :=
        fun c hmem hb => ⟨calls, hT, c, List.mem_reverse.mp hmem, hb, rfl⟩
      cases hloop : inlineCalls S
          (genCodeSnippet S fun g s => performInline S n g (callChain ++ [f]) s) f
          calls.reverse s with
      | none =>
        rw [hloop] at hr
        cases hr
      | some res =>
        have hspec := inlineCalls_spec hgen hcs hinv hc' hloop
        rw [hloop] at hr
        cases res with
        | error e =>
          cases hr
          exact hspec
        | ok s' =>
          cases hr
          obtain ⟨hdone, hall⟩ := hspec
          -- every cycle that the function reaches is reached by one of its callees
          have hacyclic : ¬ReachesCycle (Calls S T) f := by
            refine not_reachesCycle fun g hg => ?_
            obtain ⟨cs, hcs, c, hmem, hb, rfl⟩ := hg
            rw [hT, Option.some.injEq] at hcs
            subst hcs
            exact hall c (List.mem_reverse.mpr hmem) hb
          refine ⟨⟨⟨fun g cs hg => ?_, fun g hg => ?_, hdone.inv.cached⟩,
            hdone.shrinks.trans (.erase hbody s'), fun g hg => ?_⟩, hacyclic⟩
          · by_cases hgf : g = f
            · subst hgf
              rw [AList.lookup_erase] at hg
              cases hg
            · rw [AList.lookup_erase_ne hgf] at hg
              exact hdone.inv.lookup g cs hg
          · by_cases hgf : g = f
            · subst hgf
              exact hacyclic
            · rw [AList.lookup_erase_ne hgf] at hg
              exact hdone.inv.erased g hg
          · have hgf : g ≠ f := by
              rintro rfl
              exact hmem hg
            obtain ⟨cs, hcs⟩ := mem_keys_iff.mp (hdone.callChain g (List.mem_append_left _ hg))
            exact mem_keys_iff.mpr ⟨cs, by rwa [AList.lookup_erase_ne hgf]⟩

/-- What `ExecuteAction` calls. -/
theorem performInline_spec_nil {n : Nat} {f : F} {r : Except (Report F) (State F C Rewriter)}
    (hinv : Inv S T s) (hbody : S.hasBody f = true) (hr : performInline S n f [] s = some r) :
    Spec S T f [] s r :=
  performInline_spec n hinv (fun _ hh => absurd hh List.not_mem_nil) (List.isChain_singleton f)
    hbody hr

/-- A function that has been dealt with is not in the table. -/
theorem lookup_of_performInline {n : Nat} {f : F} {callChain : List F}
    (hbody : S.hasBody f = true) (hr : performInline S n f callChain s = some (.ok s')) :
    s'.callSites.lookup f = none := by
  cases n with
  | zero => cases hr
  | succ n =>
    rw [performInline, if_pos hbody] at hr
    by_cases hmem : f ∈ callChain
    · rw [if_pos hmem] at hr
      cases hr
    rw [if_neg hmem] at hr
    cases hl : s.callSites.lookup f with
    | none =>
      rw [hl] at hr
      cases hr
      exact hl
    | some calls =>
      simp only [hl] at hr
      split at hr
      · cases hr
      · cases hr
      · cases hr
        exact AList.lookup_erase f _

/-! ## Fuel -/

theorem genCodeSnippet_total {perform : F → State F C Rewriter → Result F C Rewriter} {g : F}
    (h : ∃ r, perform g s = some r) : ∃ r, genCodeSnippet S perform g s = some r := by
  unfold genCodeSnippet
  by_cases hcache : g ∈ s.cache
  · exact ⟨_, if_pos hcache⟩
  · rw [if_neg hcache]
    by_cases hcst : (s.callSites.lookup g).isSome = true
    · obtain ⟨r, hr⟩ := h
      rw [if_pos hcst, hr]
      cases r with
      | error e => exact ⟨_, rfl⟩
      | ok s' => exact ⟨_, rfl⟩
    · exact ⟨_, if_neg hcst⟩

omit [DecidableEq F] in
theorem inlineCalls_total {gen : F → State F C Rewriter → Result F C Rewriter} {f : F}
    {P : State F C Rewriter → Prop} (htext : ∀ s text, P s → P { s with text := text })
    {cs : List C}
    (hgen : ∀ c ∈ cs, S.hasBody (S.getDirectCallee c) = true → ∀ s, P s →
      ∃ r, gen (S.getDefinition (S.getDirectCallee c)) s = some r ∧ ∀ s', r = .ok s' → P s')
    (hs : P s) : ∃ r, inlineCalls S gen f cs s = some r := by
  induction cs generalizing s with
  | nil => exact ⟨_, rfl⟩
  | cons c cs ih =>
    have htail := fun c' hc' => hgen c' (List.mem_cons_of_mem c hc')
    rw [inlineCalls]
    by_cases hbody : S.hasBody (S.getDirectCallee c) = true
    · obtain ⟨r, hr, hok⟩ := hgen c List.mem_cons_self hbody s hs
      rw [if_pos hbody, hr]
      cases r with
      | error e => exact ⟨_, rfl⟩
      | ok s' => exact ih htail (htext s' _ (hok s' rfl))
    · rw [if_neg hbody]
      exact ih htail hs

/-- **`PerformInline` ends**: the call chain grows, and it is a part of the table. -/
theorem performInline_total (n : Nat) {f : F} {callChain : List F} (hinv : Inv S T s)
    (hc : ∀ h ∈ callChain, h ∈ s.callSites.keys) (hnodup : callChain.Nodup)
    (hpath : List.IsChain (Calls S T) (callChain ++ [f])) (hbody : S.hasBody f = true)
    (hn : s.callSites.keys.length < n + callChain.length) :
    ∃ r, performInline S n f callChain s = some r := by
  induction n generalizing f callChain s with
  | zero =>
    have hle := (List.subperm_of_subset hnodup hc).length_le
    omega
  | succ n ih =>
    rw [performInline, if_pos hbody]
    by_cases hmem : f ∈ callChain
    · rw [if_pos hmem]
      exact ⟨_, rfl⟩
    rw [if_neg hmem]
    cases hl : s.callSites.lookup f with
    | none => exact ⟨_, rfl⟩
    | some calls =>
      have hT := hinv.lookup f calls hl
      have hnodup' : (callChain ++ [f]).Nodup := by
        rw [List.nodup_append]
        refine ⟨hnodup, List.nodup_singleton f, fun a ha b hb => ?_⟩
        rw [List.mem_singleton.mp hb]
        rintro rfl
        exact hmem ha
      have hc' := mem_keys_concat hc hl
      -- what holds before each call
      let P : State F C Rewriter → Prop := fun u => Inv S T u ∧
        (∀ h ∈ callChain ++ [f], h ∈ u.callSites.keys) ∧
        u.callSites.keys.length ≤ s.callSites.keys.length
      have htotal : ∀ c ∈ calls.reverse, S.hasBody (S.getDirectCallee c) = true → ∀ u, P u →
          ∃ r, genCodeSnippet S (fun g s => performInline S n g (callChain ++ [f]) s)
            (S.getDefinition (S.getDirectCallee c)) u = some r ∧ ∀ u', r = .ok u' → P u' := by
        intro c hcm hb u hu
        have hcall : Calls S T f (S.getDefinition (S.getDirectCallee c)) :=
          ⟨calls, hT, c, List.mem_reverse.mp hcm, hb, rfl⟩
        have hb' := S.hasBody_getDefinition _ hb
        have hpath' := path_concat hpath hcall
        have hlen : u.callSites.keys.length < n + (callChain ++ [f]).length := by
          rw [List.length_append, List.length_singleton]
          have := hu.2.2
          omega
        obtain ⟨r, hr⟩ : ∃ r, genCodeSnippet S
            (fun g s => performInline S n g (callChain ++ [f]) s)
            (S.getDefinition (S.getDirectCallee c)) u = some r :=
          genCodeSnippet_total (ih hu.1 hu.2.1 hnodup' hpath' hb' hlen)
        refine ⟨r, hr, fun u' hu' => ?_⟩
        subst hu'
        have hspec := genCodeSnippet_spec
          (fun g s r hinv hc hpath hg hr => performInline_spec n hinv hc hpath hg hr)
          hu.1 hu.2.1 hpath' hb' hr
        exact ⟨hspec.1.inv, hspec.1.callChain, hspec.1.shrinks.length_le.trans hu.2.2⟩
      obtain ⟨r, hr⟩ := inlineCalls_total (P := P) (f := f)
        (fun u text hu => ⟨hu.1.setText text, hu.2.1, hu.2.2⟩) htotal
        (show P s from ⟨hinv, hc', Nat.le_refl _⟩)
      simp only [hr]
      cases r with
      | error e => exact ⟨_, rfl⟩
      | ok u => exact ⟨_, rfl⟩

/-! ## The whole table -/

/-- No declaration without a body comes before a function that reaches a cycle. -/
def Ends (S : Source F C Rewriter) (T T' : CallSiteTable F C) : Prop :=
  (∀ f ∈ T'.keys, S.hasBody f = true) ∨ ∃ f ∈ front S T', ReachesCycle (Calls S T) f

theorem performInline_skip {n : Nat} {f : F} {callChain : List F} (hbody : S.hasBody f ≠ true) :
    performInline S (n + 1) f callChain s = some (.ok s) := by
  rw [performInline, if_neg hbody]

/-- What `ExecuteAction` returns, if it ends. -/
def Outcome (S : Source F C Rewriter) (T : CallSiteTable F C) :
    Except (Report F) (State F C Rewriter) → Prop
  | .ok s => s.callSites.keys = [] ∧ Inv S T s
  | .error e => e.Correct S T

theorem executeAction_outcome (n : Nat) {r : Except (Report F) (State F C Rewriter)}
    (hinv : Inv S T s) (hr : executeAction S n s = some r) : Outcome S T r := by
  induction n generalizing s with
  | zero => cases hr
  | succ n ih =>
    rw [executeAction] at hr
    cases hkeys : s.callSites.keys with
    | nil =>
      rw [hkeys] at hr
      cases hr
      exact ⟨hkeys, hinv⟩
    | cons f rest =>
      simp only [hkeys] at hr
      by_cases hbody : S.hasBody f = true
      · cases hp : performInline S n f [] s with
        | none =>
          rw [hp] at hr
          cases hr
        | some res =>
          have hspec := performInline_spec_nil hinv hbody hp
          rw [hp] at hr
          cases res with
          | error e =>
            cases hr
            exact hspec.1
          | ok s' => exact ih hspec.1.inv hr
      · cases n with
        | zero => cases hr
        | succ n =>
          rw [performInline_skip hbody] at hr
          exact ih hinv hr

/-- A step of the loop keeps what makes it end. -/
theorem Ends.performInline {n : Nat} {f : F} (h : Ends S T s.callSites) (hinv : Inv S T s)
    (hbody : S.hasBody f = true) (hr : performInline S n f [] s = some (.ok s')) :
    Ends S T s'.callSites := by
  have hspec := performInline_spec_nil hinv hbody hr
  have hshrinks := hspec.1.shrinks
  rcases h with hall | ⟨g, hg, hcycle⟩
  · exact Or.inl fun g hg => hall g (hshrinks.mem hg)
  · refine Or.inr ⟨g, hshrinks.mem_front_iff.mpr ⟨hg, ?_⟩, hcycle⟩
    rw [mem_keys_iff, ← Option.isSome_iff_exists]
    by_contra hnone
    exact hspec.1.inv.erased g (by simpa using hnone) hcycle

/-- The first function of the table has a body. -/
theorem Ends.hasBody {f : F} {rest : List F} (h : Ends S T s.callSites)
    (hkeys : s.callSites.keys = f :: rest) : S.hasBody f = true := by
  rcases h with hall | ⟨g, hg, _⟩
  · exact hall f (by rw [hkeys]; exact List.mem_cons_self)
  · by_contra hbody
    rw [front, hkeys, List.takeWhile_cons_of_neg hbody] at hg
    cases hg

/-- **`ExecuteAction` ends** unless a declaration without a body gets to the front. -/
theorem executeAction_total (n : Nat) (hinv : Inv S T s) (hends : Ends S T s.callSites)
    (hn : s.callSites.keys.length + 1 < n) : ∃ r, executeAction S n s = some r := by
  induction n generalizing s with
  | zero => omega
  | succ n ih =>
    rw [executeAction]
    cases hkeys : s.callSites.keys with
    | nil => exact ⟨_, rfl⟩
    | cons f rest =>
      have hbody := hends.hasBody hkeys
      obtain ⟨r, hr⟩ := performInline_total n hinv
        (fun _ hh => absurd hh List.not_mem_nil) List.nodup_nil (List.isChain_singleton f) hbody
        (by rw [List.length_nil]; omega)
      simp only [hr]
      cases r with
      | error e => exact ⟨_, rfl⟩
      | ok s' =>
        have hspec := performInline_spec_nil hinv hbody hr
        apply ih hspec.1.inv (hends.performInline hinv hbody hr)
        -- the function itself is gone
        have hgone : f ∉ s'.callSites.keys := fun hmem => by
          obtain ⟨cs, hcs⟩ := mem_keys_iff.mp hmem
          rw [lookup_of_performInline hbody hr] at hcs
          cases hcs
        have hlt : s'.callSites.keys.length < s.callSites.keys.length := by
          obtain ⟨keep, hfilter, _⟩ := hspec.1.shrinks
          rw [hfilter] at hgone ⊢
          refine List.length_filter_lt_length_iff_exists.mpr ⟨f, ?_, fun hkeep => ?_⟩
          · rw [hkeys]
            exact List.mem_cons_self
          · refine hgone (List.mem_filter.mpr ⟨?_, hkeep⟩)
            rw [hkeys]
            exact List.mem_cons_self
        omega

/-- **Otherwise it goes on for ever.** -/
theorem executeAction_diverges (n : Nat) (hinv : Inv S T s) (hends : ¬Ends S T s.callSites) :
    executeAction S n s = none := by
  induction n generalizing s with
  | zero => rfl
  | succ n ih =>
    -- a record of a function without a body is there, and in front of it nobody reaches a cycle
    have hbodyless : ∃ g ∈ s.callSites.keys, S.hasBody g = false := by
      by_contra hall
      push Not at hall
      exact hends (Or.inl fun g hg => by simpa using hall g hg)
    have hfront : ∀ g ∈ front S s.callSites, ¬ReachesCycle (Calls S T) g :=
      fun g hg hcycle => hends (Or.inr ⟨g, hg, hcycle⟩)
    rw [executeAction]
    cases hkeys : s.callSites.keys with
    | nil =>
      obtain ⟨g, hg, _⟩ := hbodyless
      rw [hkeys] at hg
      cases hg
    | cons f rest =>
      simp only
      by_cases hbody : S.hasBody f = true
      · cases hp : performInline S n f [] s with
        | none => rfl
        | some res =>
          have hspec := performInline_spec_nil hinv hbody hp
          have hf : f ∈ front S s.callSites := by
            rw [front, hkeys, List.takeWhile_cons_of_pos hbody]
            exact List.mem_cons_self
          cases res with
          | error e => exact absurd hspec.2 (hfront f hf)
          | ok s' =>
            refine ih hspec.1.inv fun hends' => ?_
            rcases hends' with hall | ⟨g, hg, hcycle⟩
            · obtain ⟨g, hg, hb⟩ := hbodyless
              have hb' := hall g (hspec.1.shrinks.mem_of_not_hasBody hb hg)
              rw [hb] at hb'
              cases hb'
            · exact hfront g (hspec.1.shrinks.mem_front_iff.mp hg).1 hcycle
      · cases n with
        | zero => rfl
        | succ n =>
          rw [performInline_skip hbody]
          exact ih hinv hends

/-! ## What the inliner is for -/

/-- The call graph of the functions that have bodies has a cycle. -/
def Recursive (S : Source F C Rewriter) (T : CallSiteTable F C) : Prop :=
  ∃ f, Relation.TransGen (Calls S T) f f

/-- The inliner ends; it reports a cycle if there is one, and otherwise the table is empty in
the end. -/
structure Meets (S : Source F C Rewriter) (T : CallSiteTable F C) (text : Rewriter) : Prop where
  acyclic : ¬Recursive S T →
    ∃ n s, executeAction S n (.start T text) = some (.ok s) ∧ s.callSites = ∅
  recursive : Recursive S T →
    ∃ n e, executeAction S n (.start T text) = some (.error e) ∧ e.Correct S T

/-- **The inliner terminates and reports recursion exactly when there is some**, if and only if
no declaration without a body is in the table, or a function in front of all of them
reaches a cycle. -/
theorem meets_iff (S : Source F C Rewriter) (T : CallSiteTable F C) (text : Rewriter) :
    Meets S T text ↔ Ends S T T := by
  have hinv : Inv S T (.start T text) := inv_start text
  constructor
  · intro h
    by_contra hends
    have hnone := fun n => executeAction_diverges n hinv hends
    by_cases hrec : Recursive S T
    · obtain ⟨n, e, hr, _⟩ := h.recursive hrec
      rw [hnone n] at hr
      cases hr
    · obtain ⟨n, s, hr, _⟩ := h.acyclic hrec
      rw [hnone n] at hr
      cases hr
  · intro hends
    obtain ⟨r, hr⟩ := executeAction_total (T.keys.length + 2) hinv hends (Nat.lt_succ_self _)
    have hspec := executeAction_outcome _ hinv hr
    cases r with
    | error e =>
      refine ⟨fun hrec => ?_, fun _ => ⟨_, e, hr, hspec⟩⟩
      exact absurd ⟨e.func, hspec.transGen⟩ hrec
    | ok s =>
      obtain ⟨hkeys, hinv'⟩ := hspec
      have hempty : s.callSites = ∅ := AList.ext (List.map_eq_nil_iff.mp hkeys)
      refine ⟨fun _ => ⟨_, s, hr, hempty⟩, fun hrec => ?_⟩
      obtain ⟨f, hf⟩ := hrec
      refine absurd (.of_transGen hf) (hinv'.erased f ?_)
      rw [hempty, AList.lookup_empty]

/-- `int g(int x) { return x; } void f(int a[sizeof(g(1))]);` with `f` as 0 and `g` as 1 -/
def bareDecl : Source Nat Nat Unit where
  getNameAsString f := if f = 0 then "f" else "g"
  hasBody f := f == 1
  getDefinition f := f
  getDirectCallee c := c
  addSnippet _ text := text
  replace _ _ text := text
  hasBody_getDefinition _ h := h

def bareTable : CallSiteTable Nat Nat := (∅ : CallSiteTable Nat Nat).insert 0 [1]

/-- **The inliner goes on for ever** at a declaration without a body that has a call in the type
of a parameter. -/
theorem not_meets_bareDecl : ¬Meets bareDecl bareTable () := by
  intro h
  have hfront : front bareDecl (State.start bareTable ()).callSites = [] := by decide
  have hends : ¬Ends bareDecl bareTable (State.start bareTable ()).callSites := by
    rintro (hall | ⟨f, hf, _⟩)
    · exact absurd (hall 0 (by decide)) (by decide)
    · rw [hfront] at hf
      cases hf
  have hacyclic : ¬Recursive bareDecl bareTable := by
    rintro ⟨f, hf⟩
    obtain ⟨g, ⟨cs, hcs, _⟩, _⟩ := Relation.TransGen.head'_iff.mp hf
    obtain ⟨e, _, cs', hcs', c, hc, hbody, hfc⟩ := Relation.TransGen.tail'_iff.mp hf
    have hc1 : c = 1 := by simpa [bareDecl] using hbody
    have hf1 : f = 1 := hfc.trans hc1
    have hnone : bareTable.lookup 1 = none := by decide
    rw [hf1, hnone] at hcs
    cases hcs
  obtain ⟨n, s, hr, _⟩ := h.acyclic hacyclic
  rw [executeAction_diverges n (inv_start ()) hends] at hr
  cases hr

end Inliner
end Clpkm
