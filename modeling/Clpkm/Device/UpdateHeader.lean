import Mathlib.Data.List.Flatten
import Mathlib.Tactic.Common

/-!
# The headers between two launches

After a launch the host reads the headers of all work-items, one work-group behind the
other.  0 says that the work-item is done, a positive header that it has been suspended,
and the negative of a nonce that it has stopped at the barrier with this nonce.
`UpdateHeader` turns the headers of a group around when all of its work-items have
stopped at a barrier, and finds out whether anything is left to do.

`updateHeader_flatten` is what it computes when no group has work-items stopped at
different barriers: it does not abort, and deals with each group by itself
(`released`).  Otherwise it aborts (`oneBarrier_of_updateHeader`).
`updateHeader_contract` puts both into the terms of the array and of the three values it
may return.
-/

namespace Clpkm
namespace UpdateHeader

/-- The assertions of `UpdateHeader`. -/
inductive Assertion
  /-- "gws can't be perfectly divided by lws" -/
  | notDivisible
  /-- "some threads reach different barrier!" -/
  | differentBarrier
  deriving DecidableEq, Repr

/-- The local variables of `UpdateHeader`. -/
structure Locals where
  /-- the header of the first work-item of the group that has stopped at a barrier -/
  tag : Int
  tagCount : Nat
  progress : Int
  deriving DecidableEq, Repr

/-- `Progress |= 1`, for 0, 1 and -1. -/
def orOne (progress : Int) : Int := if progress = 0 then 1 else progress

/-- The loop over the work-items of a group. -/
def scan : List Int → Locals → Except Assertion Locals
  | [], s => .ok s
  | h :: hs, s =>
    if h = 0 then scan hs s
    else if 0 < h then scan hs ⟨s.tag, s.tagCount, orOne s.progress⟩
    else if s.tag = 0 then scan hs ⟨h, s.tagCount + 1, orOne s.progress⟩
    else if s.tag = h then scan hs ⟨s.tag, s.tagCount + 1, orOne s.progress⟩
    else .error .differentBarrier

/-- The loop over the groups, from some headers on; it makes at most as many rounds as
there are headers. -/
def updateFrom (size : Nat) : Nat → List Int → Int → Except Assertion (Int × List Int)
  | 0, hs, progress => .ok (progress, hs)
  | fuel + 1, hs, progress =>
    if hs = [] then .ok (progress, [])
    else if hs.length < size then .error .notDivisible
    else do
      let s ← scan (hs.take size) ⟨0, 0, progress⟩
      let (progress, rest) ← updateFrom size fuel (hs.drop size)
        (if s.tagCount = size then -1 else s.progress)
      return (progress,
        (if s.tagCount = size then List.replicate size (-s.tag) else hs.take size) ++ rest)

/-- `UpdateHeader`: the progress and the new headers, for groups of the size. -/
def updateHeader (size : Nat) (hs : List Int) : Except Assertion (Int × List Int) :=
  updateFrom size hs.length hs 0

/-! ## One group -/

/-- No two work-items of the group have stopped at different barriers. -/
def OneBarrier (hs : List Int) : Prop := ∀ h ∈ hs, ∀ h' ∈ hs, h < 0 → h' < 0 → h = h'

/-- A group goes on if all of its work-items have stopped. -/
def released (hs : List Int) : List Int := if ∀ h ∈ hs, h < 0 then hs.map (- ·) else hs

@[simp] theorem length_released (hs : List Int) : (released hs).length = hs.length := by
  unfold released
  by_cases h : ∀ h ∈ hs, h < 0
  · rw [if_pos h, List.length_map]
  · rw [if_neg h]

theorem mem_released {hs : List Int} {h : Int} (hh : h ∈ released hs) : h ∈ hs ∨ -h ∈ hs := by
  unfold released at hh
  split at hh
  · obtain ⟨x, hx, rfl⟩ := List.mem_map.mp hh
    exact .inr ((Int.neg_neg x).symm ▸ hx)
  · exact .inl hh

theorem orOne_ne_zero (p : Int) : orOne p ≠ 0 := by
  unfold orOne
  by_cases h : p = 0
  · rw [if_pos h]
    decide
  · rwa [if_neg h]

theorem orOne_neg {p : Int} (h : p < 0) : orOne p < 0 := by
  unfold orOne
  rw [if_neg (by omega)]
  exact h

/-- What the loop finds out about work-items that have stopped at the barrier of `t`, if
at any. -/
theorem scan_ok {t : Int} (hs : List Int) (ht : ∀ h ∈ hs, h < 0 → h = t) (s : Locals)
    (hs0 : s.tag = 0 ∨ s.tag = t) :
    ∃ s', scan hs s = .ok s' ∧ s'.tagCount = s.tagCount + hs.countP (· < 0) ∧
      (s'.tag = t ∨ (s'.tag = s.tag ∧ hs.countP (· < 0) = 0)) ∧
      (s'.progress = 0 ↔ s.progress = 0 ∧ ∀ h ∈ hs, h = 0) ∧
      (s.progress < 0 → s'.progress < 0) := by
  induction hs generalizing s with
  | nil =>
    refine ⟨s, rfl, rfl, Or.inr ⟨rfl, rfl⟩, ⟨fun h => ⟨h, ?_⟩, fun h => h.1⟩, id⟩
    intro h hh
    cases hh
  | cons h hs ih =>
    have htail : ∀ h ∈ hs, h < 0 → h = t := fun h' hh' => ht h' (List.mem_cons_of_mem h hh')
    have hall : (∀ h' ∈ h :: hs, h' = 0) ↔ h = 0 ∧ ∀ h' ∈ hs, h' = 0 := List.forall_mem_cons
    rw [scan, List.countP_cons, hall]
    by_cases h0 : h = 0
    · obtain ⟨s', he, hc, htag, hp, hlt⟩ := ih htail s hs0
      have hneg : decide (h < 0) = false := decide_eq_false (by omega)
      rw [if_pos h0, hneg]
      refine ⟨s', he, hc, htag, hp.trans ?_, hlt⟩
      exact ⟨fun ⟨h₁, h₂⟩ => ⟨h₁, h0, h₂⟩, fun ⟨h₁, _, h₂⟩ => ⟨h₁, h₂⟩⟩
    -- with a header other than 0 the progress is not 0
    have hprog : ∀ s' : Locals, (s'.progress = 0 ↔ orOne s.progress = 0 ∧ ∀ h' ∈ hs, h' = 0) →
        (s'.progress = 0 ↔ s.progress = 0 ∧ h = 0 ∧ ∀ h' ∈ hs, h' = 0) := by
      intro s' hp
      rw [hp]
      exact ⟨fun hx => (orOne_ne_zero _ hx.1).elim, fun hx => (h0 hx.2.1).elim⟩
    rw [if_neg h0]
    by_cases hpos : 0 < h
    · obtain ⟨s', he, hc, htag, hp, hlt⟩ := ih htail ⟨s.tag, s.tagCount, orOne s.progress⟩ hs0
      have hneg : decide (h < 0) = false := decide_eq_false (by omega)
      rw [if_pos hpos, hneg]
      exact ⟨s', he, hc, htag, hprog s' hp, fun h => hlt (orOne_neg h)⟩
    · have hht : h = t := ht h List.mem_cons_self (by omega)
      have hneg : decide (h < 0) = true := decide_eq_true (by omega)
      obtain ⟨s', he, hc, htag, hp, hlt⟩ :=
        ih htail ⟨t, s.tagCount + 1, orOne s.progress⟩ (Or.inr rfl)
      have hscan : (if s.tag = 0 then scan hs ⟨h, s.tagCount + 1, orOne s.progress⟩
          else if s.tag = h then scan hs ⟨s.tag, s.tagCount + 1, orOne s.progress⟩
          else .error .differentBarrier) = .ok s' := by
        subst hht
        rcases hs0 with hs0 | hs0
        · rw [if_pos hs0]
          exact he
        · rw [hs0, if_neg h0, if_pos rfl]
          exact he
      rw [if_neg hpos, hscan, hneg]
      refine ⟨s', rfl, ?_, Or.inl ?_, hprog s' hp, fun h => hlt (orOne_neg h)⟩
      · change s'.tagCount = s.tagCount + (hs.countP (· < 0) + 1)
        have hc' : s'.tagCount = s.tagCount + 1 + hs.countP (· < 0) := hc
        omega
      · rcases htag with htag | ⟨htag, _⟩
        · exact htag
        · exact htag

/-- When the loop ends, all work-items that have stopped have done so at one barrier. -/
theorem eq_tag_of_scan {hs : List Int} {s s' : Locals} (h : scan hs s = .ok s') :
    (∀ x ∈ hs, x < 0 → x = s'.tag) ∧ (s.tag ≠ 0 → s'.tag = s.tag) := by
  induction hs generalizing s with
  | nil =>
    cases h
    exact ⟨(fun x hx => nomatch hx), fun _ => rfl⟩
  | cons y hs ih =>
    rw [scan] at h
    by_cases h0 : y = 0
    · rw [if_pos h0] at h
      obtain ⟨hall, htag⟩ := ih h
      exact ⟨List.forall_mem_cons.mpr ⟨fun hy => by omega, hall⟩, htag⟩
    rw [if_neg h0] at h
    by_cases hpos : 0 < y
    · rw [if_pos hpos] at h
      obtain ⟨hall, htag⟩ := ih h
      exact ⟨List.forall_mem_cons.mpr ⟨fun hy => by omega, hall⟩, htag⟩
    rw [if_neg hpos] at h
    by_cases ht : s.tag = 0
    · rw [if_pos ht] at h
      obtain ⟨hall, htag⟩ := ih h
      exact ⟨List.forall_mem_cons.mpr ⟨fun _ => (htag h0).symm, hall⟩, fun hne => (hne ht).elim⟩
    rw [if_neg ht] at h
    by_cases hy : s.tag = y
    · rw [if_pos hy] at h
      obtain ⟨hall, htag⟩ := ih h
      exact ⟨List.forall_mem_cons.mpr ⟨fun _ => hy.symm.trans (htag ht).symm, hall⟩, htag⟩
    · rw [if_neg hy] at h
      cases h

/-- The loop over the work-items of a group leads to the new headers of the group. -/
theorem scan_released {hs : List Int} (hb : OneBarrier hs) (hne : hs ≠ []) (progress : Int) :
    ∃ s, scan hs ⟨0, 0, progress⟩ = .ok s ∧
      (if s.tagCount = hs.length then List.replicate hs.length (-s.tag) else hs) = released hs ∧
      ((if s.tagCount = hs.length then -1 else s.progress) = 0 ↔
        progress = 0 ∧ ∀ h ∈ hs, h = 0) ∧
      (progress < 0 ∨ released hs ≠ hs →
        (if s.tagCount = hs.length then -1 else s.progress) < 0) := by
  -- the header of the work-items that have stopped
  obtain ⟨t, ht⟩ : ∃ t, ∀ h ∈ hs, h < 0 → h = t := by
    by_cases hn : ∃ h ∈ hs, h < 0
    · obtain ⟨t, htm, htn⟩ := hn
      exact ⟨t, fun h hh hneg => hb h hh t htm hneg htn⟩
    · exact ⟨0, fun h hh hneg => (hn ⟨h, hh, hneg⟩).elim⟩
  obtain ⟨s, hscan, hcount, htag, hprog, hlt⟩ := scan_ok hs ht ⟨0, 0, progress⟩ (Or.inl rfl)
  refine ⟨s, hscan, ?_⟩
  rw [Nat.zero_add] at hcount
  have hall : s.tagCount = hs.length ↔ ∀ h ∈ hs, h < 0 := by
    rw [hcount, List.countP_eq_length]
    exact ⟨fun hx h hh => of_decide_eq_true (hx h hh), fun hx h hh => decide_eq_true (hx h hh)⟩
  by_cases hneg : ∀ h ∈ hs, h < 0
  · have hlen : 0 < hs.length := List.length_pos_iff.mpr hne
    have hst : s.tag = t := by
      rcases htag with htag | ⟨_, h0⟩
      · exact htag
      · have := hall.mpr hneg
        omega
    rw [if_pos (hall.mpr hneg), if_pos (hall.mpr hneg), released, if_pos hneg, hst]
    refine ⟨?_, ?_, fun _ => by decide⟩
    · refine (List.eq_replicate_iff.mpr ⟨List.length_map _, fun a ha => ?_⟩).symm
      obtain ⟨h, hh, rfl⟩ := List.mem_map.mp ha
      rw [ht h hh (hneg h hh)]
    · constructor
      · intro hx
        cases hx
      · rintro ⟨_, hz⟩
        obtain ⟨h, hh⟩ := List.exists_mem_of_ne_nil hs hne
        have := hneg h hh
        have := hz h hh
        omega
  · rw [if_neg fun hx => hneg (hall.mp hx), if_neg fun hx => hneg (hall.mp hx), released,
      if_neg hneg]
    exact ⟨rfl, hprog, fun h => hlt (h.resolve_right fun hne => hne rfl)⟩

/-! ## All groups -/

theorem bind_eq_ok {α β : Type} {x : Except Assertion α} {f : α → Except Assertion β} {b : β}
    (h : x >>= f = .ok b) : ∃ a, x = .ok a ∧ f a = .ok b := by
  cases x with
  | error e => cases h
  | ok a => exact ⟨a, rfl, h⟩

/-- The loop over the groups deals with the first one and goes on. -/
theorem updateFrom_append {size fuel : Nat} (hsize : 0 < size) {g : List Int}
    (hlen : g.length = size) (rest : List Int) (progress : Int) :
    updateFrom size (fuel + 1) (g ++ rest) progress =
      (scan g ⟨0, 0, progress⟩ >>= fun s =>
        updateFrom size fuel rest (if s.tagCount = size then -1 else s.progress) >>= fun r =>
          pure (r.1, (if s.tagCount = size then List.replicate size (-s.tag) else g) ++ r.2)) := by
  have hne : g ++ rest ≠ [] := fun h => by
    rw [(List.append_eq_nil_iff.mp h).1] at hlen
    rw [← hlen] at hsize
    exact absurd hsize (Nat.lt_irrefl 0)
  have hle : ¬(g ++ rest).length < size := by
    rw [List.length_append]
    omega
  rw [updateFrom, if_neg hne, if_neg hle, List.take_left' hlen, List.drop_left' hlen]

theorem updateFrom_flatten {size : Nat} (hsize : 0 < size) (gs : List (List Int))
    (hgs : ∀ g ∈ gs, g.length = size ∧ OneBarrier g) (fuel : Nat) (hf : gs.length ≤ fuel)
    (progress : Int) :
    ∃ p, updateFrom size fuel gs.flatten progress = .ok (p, (gs.map released).flatten) ∧
      (p = 0 ↔ progress = 0 ∧ ∀ g ∈ gs, ∀ h ∈ g, h = 0) ∧
      (progress < 0 ∨ gs.map released ≠ gs → p < 0) := by
  induction gs generalizing fuel progress with
  | nil =>
    refine ⟨progress, ?_, ⟨fun h => ⟨h, fun g hg => nomatch hg⟩, fun h => h.1⟩,
      fun h => h.resolve_right fun hne => hne rfl⟩
    cases fuel with
    | zero => rfl
    | succ fuel => rfl
  | cons g gs ih =>
    obtain ⟨hlen, hb⟩ := hgs g List.mem_cons_self
    have hne : g ≠ [] := by
      rintro rfl
      exact absurd hlen (by rw [List.length_nil]; omega)
    obtain ⟨fuel, rfl⟩ : ∃ f, fuel = f + 1 := ⟨fuel - 1, by rw [List.length_cons] at hf; omega⟩
    obtain ⟨s, hscan, hrel, hprog, hlt⟩ := scan_released hb hne progress
    obtain ⟨p, hp, hp0, hpn⟩ := ih (fun g' hg' => hgs g' (List.mem_cons_of_mem g hg')) fuel
      (by rw [List.length_cons] at hf; omega) (if s.tagCount = g.length then -1 else s.progress)
    rw [hlen] at hp hrel
    refine ⟨p, ?_, ?_, ?_⟩
    · rw [List.flatten_cons, updateFrom_append hsize hlen, hscan]
      simp only [Except.bind, bind, hp, pure, Except.pure, hrel, List.map_cons,
        List.flatten_cons]
    · rw [hp0, hprog, List.forall_mem_cons, and_assoc]
    · intro h
      apply hpn
      by_cases hg : released g = g
      · rcases h with h | h
        · exact Or.inl (hlt (Or.inl h))
        · refine Or.inr fun hgs => h ?_
          rw [List.map_cons, hg, hgs]
      · exact Or.inl (hlt (Or.inr hg))

theorem length_le_length_flatten {size : Nat} (hsize : 0 < size) {gs : List (List Int)}
    (hgs : ∀ g ∈ gs, g.length = size) : gs.length ≤ gs.flatten.length := by
  induction gs with
  | nil => exact Nat.le_refl 0
  | cons g gs ih =>
    have := ih fun g' hg' => hgs g' (List.mem_cons_of_mem g hg')
    have := hgs g List.mem_cons_self
    rw [List.flatten_cons, List.length_append, List.length_cons]
    omega

/-- **`UpdateHeader` deals with each group by itself.**  It says that nothing is left to do
exactly when every header is 0, and that the headers have to be written back whenever
it has changed some. -/
theorem updateHeader_flatten {size : Nat} (hsize : 0 < size) {gs : List (List Int)}
    (hgs : ∀ g ∈ gs, g.length = size ∧ OneBarrier g) :
    ∃ p, updateHeader size gs.flatten = .ok (p, (gs.map released).flatten) ∧
      (p = 0 ↔ ∀ g ∈ gs, ∀ h ∈ g, h = 0) ∧ (gs.map released ≠ gs → p < 0) := by
  have hfuel := length_le_length_flatten hsize fun g hg => (hgs g hg).1
  obtain ⟨p, hp, hp0, hpn⟩ := updateFrom_flatten hsize gs hgs gs.flatten.length hfuel 0
  exact ⟨p, hp, hp0.trans (and_iff_right rfl), fun h => hpn (Or.inr h)⟩

theorem oneBarrier_of_updateFrom {size : Nat} (hsize : 0 < size) {gs : List (List Int)}
    (hgs : ∀ g ∈ gs, g.length = size) {fuel : Nat} (hf : gs.length ≤ fuel) {progress : Int}
    {r : Int × List Int} (h : updateFrom size fuel gs.flatten progress = .ok r) :
    ∀ g ∈ gs, OneBarrier g := by
  induction gs generalizing fuel progress r with
  | nil => exact fun g hg => nomatch hg
  | cons g gs ih =>
    have hlen := hgs g List.mem_cons_self
    obtain ⟨fuel, rfl⟩ : ∃ f, fuel = f + 1 := ⟨fuel - 1, by rw [List.length_cons] at hf; omega⟩
    rw [List.flatten_cons, updateFrom_append hsize hlen] at h
    obtain ⟨s, hscan, h⟩ := bind_eq_ok h
    obtain ⟨r', hrest, _⟩ := bind_eq_ok h
    have htag := (eq_tag_of_scan hscan).1
    refine List.forall_mem_cons.mpr ⟨fun x hx y hy hxn hyn => ?_, ?_⟩
    · exact (htag x hx hxn).trans (htag y hy hyn).symm
    · exact ih (fun g' hg' => hgs g' (List.mem_cons_of_mem g hg'))
        (by rw [List.length_cons] at hf; omega) hrest

/-- `UpdateHeader` aborts when work-items of a group have stopped at different barriers. -/
theorem oneBarrier_of_updateHeader {size : Nat} (hsize : 0 < size) {gs : List (List Int)}
    (hgs : ∀ g ∈ gs, g.length = size) {r : Int × List Int}
    (h : updateHeader size gs.flatten = .ok r) : ∀ g ∈ gs, OneBarrier g :=
  oneBarrier_of_updateFrom hsize hgs (length_le_length_flatten hsize hgs) h

/-! ## The progress -/

theorem orOne_orOne (p : Int) : orOne (orOne p) = orOne p := if_neg (orOne_ne_zero p)

/-- A header other than 0 leaves a mark on the progress. -/
theorem scan_progress {hs : List Int} {s s' : Locals} (h : scan hs s = .ok s') :
    s'.progress = s.progress ∨ s'.progress = orOne s.progress := by
  have hmark : ∀ {p : Int}, s'.progress = orOne p ∨ s'.progress = orOne (orOne p) →
      s'.progress = orOne p := fun hp => hp.elim id fun hp => hp.trans (orOne_orOne _)
  fun_induction scan hs s with
  | case1 s =>
    cases h
    exact .inl rfl
  | case2 hs s ih => exact ih h
  | case3 y hs s _ _ ih => exact .inr (hmark (ih h))
  | case4 y hs s _ _ _ ih => exact .inr (hmark (ih h))
  | case5 hs s _ _ _ ih => exact .inr (hmark (ih h))
  | case6 => cases h

/-- The loop counts the work-items that have stopped. -/
theorem scan_tagCount {hs : List Int} {progress : Int} {s : Locals}
    (h : scan hs ⟨0, 0, progress⟩ = .ok s) : s.tagCount = hs.length ↔ ∀ x ∈ hs, x < 0 := by
  obtain ⟨s', hs', hcount, _⟩ := scan_ok hs (eq_tag_of_scan h).1 ⟨0, 0, progress⟩ (.inl rfl)
  cases h.symm.trans hs'
  rw [hcount, Nat.zero_add, List.countP_eq_length]
  exact ⟨fun hx y hy => of_decide_eq_true (hx y hy), fun hx y hy => decide_eq_true (hx y hy)⟩

/-- The progress is -1 exactly when it was before or a group has been turned around. -/
theorem updateFrom_progress {size : Nat} (hsize : 0 < size) {gs : List (List Int)}
    (hgs : ∀ g ∈ gs, g.length = size) {fuel : Nat} (hf : gs.length ≤ fuel) {progress : Int}
    {r : Int × List Int} (h : updateFrom size fuel gs.flatten progress = .ok r) :
    (r.1 = -1 ∨ r.1 = progress ∨ r.1 = orOne progress) ∧
      (r.1 = -1 → progress = -1 ∨ ∃ g ∈ gs, ∀ x ∈ g, x < 0) := by
  induction gs generalizing fuel progress r with
  | nil =>
    have hr : r = (progress, []) := by
      cases fuel with
      | zero =>
        cases h
        rfl
      | succ fuel =>
        cases h
        rfl
    rw [hr]
    exact ⟨.inr (.inl rfl), .inl⟩
  | cons g gs ih =>
    have hlen := hgs g List.mem_cons_self
    obtain ⟨fuel, rfl⟩ : ∃ f, fuel = f + 1 := ⟨fuel - 1, by rw [List.length_cons] at hf; omega⟩
    rw [List.flatten_cons, updateFrom_append hsize hlen] at h
    obtain ⟨s, hscan, h⟩ := bind_eq_ok h
    obtain ⟨r', hrest, h⟩ := bind_eq_ok h
    cases h
    have hcount := scan_tagCount hscan
    have hprogress := scan_progress hscan
    obtain ⟨hcases, hrewritten⟩ := ih (fun g' hg' => hgs g' (List.mem_cons_of_mem g hg'))
      (by rw [List.length_cons] at hf; omega) hrest
    rw [hlen] at hcount
    -- if the group is turned around the progress becomes -1, and it never leaves -1
    by_cases hall : s.tagCount = size
    · rw [if_pos hall] at hcases
      refine ⟨.inl (hcases.elim id fun h => h.elim id id), fun _ => .inr ?_⟩
      exact ⟨g, List.mem_cons_self, hcount.mp hall⟩
    · rw [if_neg hall] at hcases hrewritten
      constructor
      · rcases hcases with h | h | h
        · exact .inl h
        · rw [h]
          exact .inr hprogress
        · rcases hprogress with hp | hp
          · rw [h, hp]
            exact .inr (.inr rfl)
          · rw [h, hp, orOne_orOne]
            exact .inr (.inr rfl)
      · intro h
        rcases hrewritten h with hp | ⟨g', hg', hneg⟩
        · refine .inl ?_
          rcases hprogress with hp' | hp'
          · exact hp'.symm.trans hp
          · rw [hp', orOne] at hp
            split at hp
            · cases hp
            · exact hp
        · exact .inr ⟨g', List.mem_cons_of_mem g hg', hneg⟩

/-- It aborts exactly when work-items of one group have stopped at different barriers. -/
theorem updateHeader_error_iff {size : Nat} (hsize : 0 < size) {gs : List (List Int)}
    (hgs : ∀ g ∈ gs, g.length = size) :
    (∃ a, updateHeader size gs.flatten = .error a) ↔ ¬∀ g ∈ gs, OneBarrier g := by
  constructor
  · rintro ⟨a, ha⟩ hb
    obtain ⟨p, hp, _⟩ := updateHeader_flatten hsize fun g hg => ⟨hgs g hg, hb g hg⟩
    rw [ha] at hp
    cases hp
  · intro hb
    cases h : updateHeader size gs.flatten with
    | error a => exact ⟨a, rfl⟩
    | ok r => exact absurd (oneBarrier_of_updateHeader hsize hgs h) hb

/-- What it returns otherwise. -/
theorem updateHeader_ok {size : Nat} (hsize : 0 < size) {gs : List (List Int)}
    (hgs : ∀ g ∈ gs, g.length = size) {r : Int × List Int}
    (h : updateHeader size gs.flatten = .ok r) :
    r.2 = (gs.map released).flatten ∧ (r.1 = 0 ↔ ∀ g ∈ gs, ∀ x ∈ g, x = 0) ∧
      (r.1 = -1 ↔ ∃ g ∈ gs, ∀ x ∈ g, x < 0) ∧ (r.1 = 0 ∨ r.1 = -1 ∨ r.1 = 1) := by
  have hb := oneBarrier_of_updateHeader hsize hgs h
  obtain ⟨p, hp, hzero, hneg⟩ := updateHeader_flatten hsize fun g hg => ⟨hgs g hg, hb g hg⟩
  cases h.symm.trans hp
  have hfuel := length_le_length_flatten hsize hgs
  obtain ⟨hcases, hrewritten⟩ := updateFrom_progress hsize hgs hfuel h
  have hcases : p = 0 ∨ p = -1 ∨ p = 1 := by
    rcases hcases with h | h | h
    · exact .inr (.inl h)
    · exact .inl h
    · exact .inr (.inr h)
  refine ⟨rfl, hzero, ⟨fun hp => (hrewritten hp).resolve_left (by decide), ?_⟩, hcases⟩
  rintro ⟨g, hg, hall⟩
  have hchanged : gs.map released ≠ gs := by
    intro heq
    have hfix : released g = g := List.map_inj_left.mp (heq.trans (List.map_id gs).symm) g hg
    rw [released, if_pos hall] at hfix
    obtain ⟨x, hx⟩ := List.exists_mem_of_length_pos (hgs g hg ▸ hsize)
    -- an entry that is turned around does not stay what it was
    have hself : -x = x := List.map_inj_left.mp (hfix.trans (List.map_id g).symm) x hx
    have := hall x hx
    omega
  have := hneg hchanged
  omega

/-! ## The array of headers -/

/-- The headers of a work-group. -/
def group (size : Nat) (hs : List Int) (g : Nat) : List Int := (hs.drop (g * size)).take size

theorem flatten_groups {size n : Nat} {hs : List Int} (h : hs.length = n * size) :
    ((List.range n).map (group size hs)).flatten = hs := by
  induction n generalizing hs with
  | zero =>
    rw [Nat.zero_mul] at h
    exact (List.length_eq_zero_iff.mp h).symm
  | succ n ih =>
    have hnext : group size hs ∘ Nat.succ = group size (hs.drop size) := by
      funext g
      show (hs.drop ((g + 1) * size)).take size = ((hs.drop size).drop (g * size)).take size
      rw [List.drop_drop, Nat.succ_mul, Nat.add_comm]
    rw [List.range_succ_eq_map, List.map_cons, List.flatten_cons, List.map_map, hnext,
      ih (by rw [List.length_drop, h, Nat.succ_mul, Nat.add_sub_cancel])]
    show (hs.drop (0 * size)).take size ++ hs.drop size = hs
    rw [Nat.zero_mul, List.drop_zero, List.take_append_drop]

theorem group_flatten {size : Nat} {gs : List (List Int)} (hgs : ∀ g ∈ gs, g.length = size)
    {i : Nat} (hi : i < gs.length) : group size gs.flatten i = gs[i] := by
  induction gs generalizing i with
  | nil => exact absurd hi (Nat.not_lt_zero i)
  | cons g gs ih =>
    have hlen := hgs g List.mem_cons_self
    rw [List.flatten_cons, group]
    cases i with
    | zero =>
      rw [Nat.zero_mul, List.drop_zero, List.take_left' hlen]
      rfl
    | succ i =>
      rw [Nat.succ_mul, Nat.add_comm, ← List.drop_drop, List.drop_left' hlen]
      exact ih (fun g' hg' => hgs g' (List.mem_cons_of_mem g hg')) (Nat.lt_of_succ_lt_succ hi)

/-- Every header of the group is `-t`. -/
def StoppedAt (size : Nat) (hs : List Int) (g : Nat) (t : Int) : Prop :=
  0 < t ∧ ∀ h ∈ group size hs g, h = -t

/-- What `UpdateHeader` has to do when it does not abort. -/
structure Updated (size : Nat) (hs new : List Int) (progress : Int) : Prop where
  length : new.length = hs.length
  released : ∀ g < hs.length / size, ∀ t, StoppedAt size hs g t → ∀ h ∈ group size new g, h = t
  kept : ∀ g < hs.length / size, (∀ t, ¬StoppedAt size hs g t) → group size new g = group size hs g
  finished : progress = 0 ↔ ∀ h ∈ hs, h = 0
  rewritten : progress = -1 ↔ ∃ g < hs.length / size, ∃ t, StoppedAt size hs g t
  otherwise : progress = 0 ∨ progress = -1 ∨ progress = 1
  /-- no negation overflows if no header is the least number -/
  bounded : ∀ m, (∀ h ∈ hs, h.natAbs ≤ m) → ∀ h ∈ new, h.natAbs ≤ m

/-- A group in which all have stopped at one barrier has stopped at some barrier. -/
theorem exists_tag {g : List Int} (hne : g ≠ []) (hb : OneBarrier g) (hneg : ∀ h ∈ g, h < 0) :
    ∃ t, 0 < t ∧ ∀ h ∈ g, h = -t := by
  obtain ⟨x, hx⟩ := List.exists_mem_of_ne_nil g hne
  have hxneg := hneg x hx
  refine ⟨-x, by omega, fun h hh => ?_⟩
  rw [Int.neg_neg]
  exact hb h hh x hx (hneg h hh) hxneg

section groups
variable {size : Nat} {hs : List Int}

/-- The headers, group by group. -/
def groups (size : Nat) (hs : List Int) : List (List Int) :=
  (List.range (hs.length / size)).map (group size hs)

theorem mem_groups {g : List Int} :
    g ∈ groups size hs ↔ ∃ i < hs.length / size, group size hs i = g := by
  simp only [groups, List.mem_map, List.mem_range]

theorem groups_flatten (hdiv : size ∣ hs.length) : (groups size hs).flatten = hs :=
  flatten_groups (Nat.div_mul_cancel hdiv).symm

theorem length_of_mem_groups (hdiv : size ∣ hs.length) :
    ∀ g ∈ groups size hs, g.length = size := by
  intro g hg
  obtain ⟨i, hi, rfl⟩ := mem_groups.mp hg
  have hend : (i + 1) * size ≤ hs.length / size * size := Nat.mul_le_mul_right size hi
  rw [Nat.div_mul_cancel hdiv, Nat.succ_mul] at hend
  rw [group, List.length_take, List.length_drop]
  omega

/-- All groups have stopped at one barrier unless two headers of a group name different ones. -/
theorem oneBarrier_groups_iff : (∀ g ∈ groups size hs, OneBarrier g) ↔
    ¬∃ i < hs.length / size, ∃ h ∈ group size hs i, ∃ h' ∈ group size hs i,
      h < 0 ∧ h' < 0 ∧ h ≠ h' := by
  constructor
  · rintro hb ⟨i, hi, h, hh, h', hh', hneg, hneg', hne⟩
    exact hne (hb _ (mem_groups.mpr ⟨i, hi, rfl⟩) h hh h' hh' hneg hneg')
  · intro hsame g hg h hh h' hh' hneg hneg'
    obtain ⟨i, hi, rfl⟩ := mem_groups.mp hg
    by_contra hne
    exact hsame ⟨i, hi, h, hh, h', hh', hneg, hneg', hne⟩

/-- The new headers of a group. -/
theorem group_released (hdiv : size ∣ hs.length) {i : Nat} (hi : i < hs.length / size) :
    group size ((groups size hs).map released).flatten i = released (group size hs i) := by
  have hsizes : ∀ g ∈ (groups size hs).map released, g.length = size := by
    intro g hg
    obtain ⟨g', hg', rfl⟩ := List.mem_map.mp hg
    rw [length_released]
    exact length_of_mem_groups hdiv g' hg'
  have hi' : i < ((groups size hs).map released).length := by
    rwa [List.length_map, groups, List.length_map, List.length_range]
  rw [group_flatten hsizes hi', List.getElem_map]
  congr 1
  simp only [groups, List.getElem_map, List.getElem_range]

/-- A group has stopped as a whole exactly when it is turned around. -/
theorem exists_stoppedAt_iff {i : Nat} (hne : group size hs i ≠ [])
    (hb : OneBarrier (group size hs i)) :
    (∃ t, StoppedAt size hs i t) ↔ ∀ h ∈ group size hs i, h < 0 := by
  constructor
  · rintro ⟨t, ht, hall⟩ h hh
    have heq := hall h hh
    omega
  · exact exists_tag hne hb

/-- No negation makes a header greater in size. -/
theorem natAbs_le_of_released {m : Nat} (hdiv : size ∣ hs.length)
    (hm : ∀ h ∈ hs, h.natAbs ≤ m) :
    ∀ h ∈ ((groups size hs).map released).flatten, h.natAbs ≤ m := by
  intro h hh
  obtain ⟨g', hg', hh⟩ := List.mem_flatten.mp hh
  obtain ⟨g, hg, rfl⟩ := List.mem_map.mp hg'
  have hin : ∀ x ∈ g, x ∈ hs := by
    intro x hx
    rw [← groups_flatten hdiv]
    exact List.mem_flatten.mpr ⟨g, hg, hx⟩
  rcases mem_released hh with hh | hh
  · exact hm h (hin h hh)
  · rw [← Int.natAbs_neg]
    exact hm _ (hin _ hh)

theorem updated_of_ok (hsize : 0 < size) (hdiv : size ∣ hs.length) {progress : Int}
    {new : List Int} (hok : updateHeader size hs = .ok (progress, new)) :
    Updated size hs new progress := by
  have hsizes := length_of_mem_groups hdiv
  rw [← groups_flatten hdiv] at hok
  have hb := oneBarrier_of_updateHeader hsize hsizes hok
  obtain ⟨hnew, hzero, hneg, hcases⟩ := updateHeader_ok hsize hsizes hok
  obtain rfl : new = ((groups size hs).map released).flatten := hnew
  have hstopped : ∀ i < hs.length / size,
      (∃ t, StoppedAt size hs i t) ↔ ∀ h ∈ group size hs i, h < 0 := by
    intro i hi
    have hg : group size hs i ∈ groups size hs := mem_groups.mpr ⟨i, hi, rfl⟩
    have hpos : 0 < (group size hs i).length := Nat.lt_of_lt_of_eq hsize (hsizes _ hg).symm
    exact exists_stoppedAt_iff (List.ne_nil_of_length_pos hpos) (hb _ hg)
  refine ⟨?_, fun i hi t ht h hh => ?_, fun i hi hnot => ?_, ?_, ?_, hcases,
    fun m hm => natAbs_le_of_released hdiv hm⟩
  · have hlengths : ((groups size hs).map released).map List.length =
        (groups size hs).map List.length := by
      rw [List.map_map]
      exact List.map_congr_left fun g _ => length_released g
    rw [List.length_flatten, hlengths, ← List.length_flatten, groups_flatten hdiv]
  · rw [group_released hdiv hi, released, if_pos ((hstopped i hi).mp ⟨t, ht⟩)] at hh
    obtain ⟨x, hx, rfl⟩ := List.mem_map.mp hh
    have heq := ht.2 x hx
    omega
  · rw [group_released hdiv hi, released, if_neg fun hall => ?_]
    obtain ⟨t, ht⟩ := (hstopped i hi).mpr hall
    exact hnot t ht
  · rw [hzero, ← List.forall_mem_flatten, groups_flatten hdiv]
  · rw [hneg]
    constructor
    · rintro ⟨g, hg, hall⟩
      obtain ⟨i, hi, rfl⟩ := mem_groups.mp hg
      exact ⟨i, hi, (hstopped i hi).mpr hall⟩
    · rintro ⟨i, hi, ht⟩
      exact ⟨_, mem_groups.mpr ⟨i, hi, rfl⟩, (hstopped i hi).mp ht⟩

end groups

/-- **The contract of `UpdateHeader`.**  It aborts exactly when work-items of one group
have stopped at different barriers.  Otherwise it turns around the headers of the groups
that have stopped as a whole, leaves the others alone, and returns 0 if every header was
0, -1 if it has turned a group around, and 1 in all other cases. -/
theorem updateHeader_contract {size : Nat} (hsize : 0 < size) {hs : List Int}
    (hdiv : size ∣ hs.length) :
    ((∃ a, updateHeader size hs = .error a) ↔
      ∃ g < hs.length / size, ∃ h ∈ group size hs g, ∃ h' ∈ group size hs g,
        h < 0 ∧ h' < 0 ∧ h ≠ h') ∧
    ∀ progress new, updateHeader size hs = .ok (progress, new) → Updated size hs new progress := by
  refine ⟨?_, fun progress new hok => updated_of_ok hsize hdiv hok⟩
  have herror := updateHeader_error_iff hsize (length_of_mem_groups hdiv)
  rw [groups_flatten hdiv, oneBarrier_groups_iff, not_not] at herror
  exact herror

/-- Groups of two: one stopped as a whole, one in part, one suspended and done. -/
theorem updateHeader_contract_three :
    updateHeader 2 [-3, -3, -3, 1, 5, 0] = .ok (-1, [3, 3, -3, 1, 5, 0]) ∧
      Updated 2 [-3, -3, -3, 1, 5, 0] [3, 3, -3, 1, 5, 0] (-1) :=
  ⟨rfl, (updateHeader_contract (by decide) (by decide)).2 _ _ rfl⟩

end UpdateHeader
end Clpkm
