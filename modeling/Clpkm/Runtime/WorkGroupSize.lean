import Clpkm.MixedRadix
import Mathlib.Order.Bounds.Defs

/-!
# The automatic work-group size

`FindWorkGroupSize` chooses the local size of a launch that has none.  It enumerates the
divisors of the global size of each dimension in pairs, as far as they do not exceed the
limit of the device, and then tries all combinations for one whose product is as large as
the kernel permits.  The loops are given a number of rounds and have no result if they
have not ended by then, or if an index is out of range; products are taken modulo 2^64.

The tables have all admissible divisors (`mem_factors`) and the trials go through all
combinations (`search_spec`), so the result is always admissible
(`findWorkGroupSize_admissible`).  It is not always the best one: a combination is taken
only if its product is below the work-group limit of the kernel, although the limit
itself is allowed.  So the result is the best one if and only if no admissible combination
reaches the limit, or the limit is 1 (`findWorkGroupSize_best_iff`).
-/

namespace Clpkm
namespace WorkGroupSize
open MixedRadix

/-- A dimension: its global size and, as the vendor gives it, the greatest local size. -/
structure Extent where
  work : Nat
  limit : Nat
  deriving DecidableEq, Repr

/-- The loop over the factors of a dimension, from `num` on. -/
def factorsFrom (d : Extent) : Nat → Nat → Option (List Nat)
  | 0, _ => none
  | fuel + 1, num =>
    let quotient := d.work / num
    if num ≤ quotient ∧ num ≤ d.limit then
      (factorsFrom d fuel (num + 1)).map fun rest =>
        if d.work % num ≠ 0 then rest
        else if quotient ≠ num ∧ quotient ≤ d.limit then num :: quotient :: rest
        else num :: rest
    else some []

/-- `Factor` -/
def factors (fuel : Nat) : List Extent → Option (List (List Nat))
  | [] => some []
  | d :: ds => do
    let table ← factorsFrom d fuel 1
    let tables ← factors fuel ds
    return table :: tables

/-- `Factor[Dim].size() - 1` -/
def sizeMinusOne (table : List Nat) : Nat :=
  if table.isEmpty then 2 ^ 64 - 1 else table.length - 1

/-- `NextTry`, `none` if it answers `false`. -/
def nextTry : List (List Nat) → List Nat → Option (List Nat)
  | table :: tables, t :: ts =>
    if t = sizeMinusOne table then (nextTry tables ts).map (0 :: ·) else some ((t + 1) :: ts)
  | _, _ => none

/-- `Factor[Dim][Set[Dim]]` for all dimensions, `none` if an index is out of range. -/
def pick : List (List Nat) → List Nat → Option (List Nat)
  | table :: tables, t :: ts => do
    let factor ← table[t]?
    let rest ← pick tables ts
    return factor :: rest
  | _, _ => some []

/-- The product of some factors in a `size_t`. -/
def product (fs : List Nat) : Nat := fs.foldl (fun size f => size * f % 2 ^ 64) 1

/-- The loop over the trials, after `trySet`. -/
def search (tables : List (List Nat)) (maxNumOfThread : Nat) :
    Nat → List Nat → List Nat → Nat → Option (List Nat)
  | 0, _, _, _ => none
  | fuel + 1, trySet, maxSet, maxSize =>
    match nextTry tables trySet with
    | none => some maxSet
    | some trySet => do
      let chosen ← pick tables trySet
      let thisSize := product chosen
      if maxSize < thisSize ∧ thisSize < maxNumOfThread then
        search tables maxNumOfThread fuel trySet trySet thisSize
      else search tables maxNumOfThread fuel trySet maxSet maxSize

/-- `FindWorkGroupSize` -/
def findWorkGroupSize (fuel : Nat) (dims : List Extent) (maxNumOfThread : Nat) :
    Option (List Nat) := do
  let tables ← factors fuel dims
  let zeros := dims.map fun _ => 0
  let maxSet ← search tables maxNumOfThread fuel zeros zeros 1
  pick tables maxSet

/-- `FindWorkGroupSize` ends with this result. -/
def Returns (dims : List Extent) (maxNumOfThread : Nat) (lws : List Nat) : Prop :=
  ∃ n, ∀ fuel ≥ n, findWorkGroupSize fuel dims maxNumOfThread = some lws

/-- One local size for each dimension, which divides the global size and does not exceed
the limit. -/
def Admissible (dims : List Extent) (lws : List Nat) : Prop :=
  List.Forall₂ (fun d n => n ∣ d.work ∧ n ≤ d.limit) dims lws

/-- The dimensions of a launch: no size and no limit is 0, and the product of the limits
fits in a `size_t`. -/
structure Valid (dims : List Extent) : Prop where
  work_pos : ∀ d ∈ dims, 0 < d.work
  limit_pos : ∀ d ∈ dims, 0 < d.limit
  fits : (dims.map Extent.limit).prod < 2 ^ 64

/-! ## The factors -/

/-- The table of a dimension: 1 and then, in some order, all admissible factors. -/
structure IsTable (d : Extent) (table : List Nat) : Prop where
  head : table[0]? = some 1
  mem : ∀ n, n ∈ table ↔ n ∣ d.work ∧ n ≤ d.limit

/-- A factor is not below `num` and neither is its cofactor if one of them is `num` or both
are above it. -/
theorem num_le_iff {work num n : Nat} (hwork : 0 < work) (hnum : num ≤ work / num)
    (hdvd : n ∣ work) : num ≤ n ∧ num ≤ work / n ↔
      n = num ∨ n = work / num ∧ num ∣ work ∨ num + 1 ≤ n ∧ num + 1 ≤ work / n := by
  have hinv : work / (work / n) = n := Nat.div_div_self hdvd (Nat.ne_of_gt hwork)
  constructor
  · rintro ⟨hn, hq⟩
    by_cases hself : n = num
    · exact .inl hself
    · by_cases hother : work / n = num
      · refine .inr (.inl ⟨?_, ?_⟩)
        · rw [← hother, hinv]
        · rw [← hother]
          exact Nat.div_dvd_of_dvd hdvd
      · exact .inr (.inr ⟨by omega, by omega⟩)
  · rintro (rfl | ⟨rfl, hnumDvd⟩ | ⟨hn, hq⟩)
    · exact ⟨Nat.le_refl n, hnum⟩
    · rw [Nat.div_div_self hnumDvd (Nat.ne_of_gt hwork)]
      exact ⟨hnum, Nat.le_refl num⟩
    · exact ⟨by omega, by omega⟩

/-- A round adds `num` and its cofactor if they are factors and the cofactor is in the limit. -/
theorem mem_round {d : Extent} {num n : Nat} {rest : List Nat} :
    (n ∈ if d.work % num ≠ 0 then rest
      else if d.work / num ≠ num ∧ d.work / num ≤ d.limit then num :: d.work / num :: rest
      else num :: rest) ↔
      n ∈ rest ∨ num ∣ d.work ∧ (n = num ∨ n = d.work / num ∧ n ≤ d.limit) := by
  by_cases hdvd : num ∣ d.work
  · rw [if_neg (not_not_intro (Nat.mod_eq_zero_of_dvd hdvd))]
    by_cases hother : d.work / num ≠ num ∧ d.work / num ≤ d.limit
    · rw [if_pos hother, List.mem_cons, List.mem_cons]
      constructor
      · rintro (hn | hn | hn)
        · exact .inr ⟨hdvd, .inl hn⟩
        · exact .inr ⟨hdvd, .inr ⟨hn, hn ▸ hother.2⟩⟩
        · exact .inl hn
      · rintro (hn | ⟨-, hn | ⟨hn, -⟩⟩)
        · exact .inr (.inr hn)
        · exact .inl hn
        · exact .inr (.inl hn)
    · rw [if_neg hother, List.mem_cons]
      constructor
      · rintro (hn | hn)
        · exact .inr ⟨hdvd, .inl hn⟩
        · exact .inl hn
      · rintro (hn | ⟨-, hn | ⟨rfl, hlimit⟩⟩)
        · exact .inr hn
        · exact .inl hn
        · exact .inl (not_not.mp fun hne => hother ⟨hne, hlimit⟩)
  · rw [if_pos fun hmod => hdvd (Nat.dvd_of_mod_eq_zero hmod)]
    constructor
    · exact .inl
    · rintro (hn | ⟨hdvd', -⟩)
      · exact hn
      · exact absurd hdvd' hdvd

/-- A factor and its cofactor are found in the same round, that of the smaller one, so the
loop from `num` on finds the factors of which neither is below `num`. -/
theorem exists_factorsFrom {d : Extent} {num : Nat} (rounds : Nat) (hwork : 0 < d.work)
    (hnum : 0 < num) (hrounds : d.work < num + rounds) :
    ∃ table, (∀ fuel > rounds, factorsFrom d fuel num = some table) ∧
      ∀ n, n ∈ table ↔ n ∣ d.work ∧ n ≤ d.limit ∧ num ≤ n ∧ num ≤ d.work / n := by
  by_cases hgo : num ≤ d.work / num ∧ num ≤ d.limit
  · have hle : num ≤ d.work := Nat.le_trans hgo.1 (Nat.div_le_self d.work num)
    cases rounds with
    | zero => omega
    | succ rounds =>
      obtain ⟨rest, hrest, hmem⟩ :=
        exists_factorsFrom rounds hwork (Nat.succ_pos num) (by omega)
      refine ⟨if d.work % num ≠ 0 then rest
        else if d.work / num ≠ num ∧ d.work / num ≤ d.limit then num :: d.work / num :: rest
        else num :: rest, fun fuel hfuel => ?_, fun n => ?_⟩
      · cases fuel with
        | zero => omega
        | succ fuel =>
          rw [factorsFrom, if_pos hgo, hrest fuel (by omega)]
          rfl
      · rw [mem_round, hmem n]
        constructor
        · rintro (⟨hdvd, hlimit, hn, hq⟩ | ⟨hnumDvd, rfl | ⟨rfl, hlimit⟩⟩)
          · exact ⟨hdvd, hlimit, Nat.le_of_succ_le hn, Nat.le_of_succ_le hq⟩
          · exact ⟨hnumDvd, hgo.2, Nat.le_refl n, hgo.1⟩
          · have hdvd := Nat.div_dvd_of_dvd hnumDvd
            exact ⟨hdvd, hlimit, (num_le_iff hwork hgo.1 hdvd).mpr (.inr (.inl ⟨rfl, hnumDvd⟩))⟩
        · rintro ⟨hdvd, hlimit, hle⟩
          rcases (num_le_iff hwork hgo.1 hdvd).mp hle with rfl | ⟨rfl, hnumDvd⟩ | hlater
          · exact .inr ⟨hdvd, .inl rfl⟩
          · exact .inr ⟨hnumDvd, .inr ⟨rfl, hlimit⟩⟩
          · exact .inl ⟨hdvd, hlimit, hlater⟩
  · refine ⟨[], fun fuel hfuel => ?_, fun n => ?_⟩
    · cases fuel with
      | zero => omega
      | succ fuel => rw [factorsFrom, if_neg hgo]
    · constructor
      · intro hn
        cases hn
      · rintro ⟨-, hlimit, hn, hq⟩
        have hself : num ≤ d.work / num := Nat.le_trans hq (Nat.div_le_div_left hn hnum)
        exact absurd ⟨hself, Nat.le_trans hn hlimit⟩ hgo

/-- The first round finds 1. -/
theorem factorsFrom_one_head {d : Extent} {fuel : Nat} {table : List Nat} (hwork : 0 < d.work)
    (hlimit : 0 < d.limit) (htable : factorsFrom d fuel 1 = some table) : table[0]? = some 1 := by
  cases fuel with
  | zero => cases htable
  | succ fuel =>
    have hfirst : 1 ≤ d.work / 1 ∧ 1 ≤ d.limit := ⟨by rwa [Nat.div_one], hlimit⟩
    rw [factorsFrom, if_pos hfirst] at htable
    obtain ⟨rest, -, rfl⟩ := Option.map_eq_some_iff.mp htable
    rw [if_neg (not_not_intro (Nat.mod_one d.work))]
    split <;> rfl

theorem exists_table {d : Extent} (hwork : 0 < d.work) (hlimit : 0 < d.limit) :
    ∃ table, IsTable d table ∧ ∀ fuel > d.work, factorsFrom d fuel 1 = some table := by
  obtain ⟨table, hrun, hmem⟩ :=
    exists_factorsFrom d.work hwork Nat.one_pos (Nat.lt_add_of_pos_left Nat.one_pos)
  refine ⟨table, ⟨?_, fun n => ?_⟩, hrun⟩
  · exact factorsFrom_one_head hwork hlimit (hrun _ (Nat.lt_succ_self d.work))
  · rw [hmem n]
    constructor
    · rintro ⟨hdvd, hle, -, -⟩
      exact ⟨hdvd, hle⟩
    · rintro ⟨hdvd, hle⟩
      have hpos : 0 < n := Nat.pos_of_dvd_of_pos hdvd hwork
      exact ⟨hdvd, hle, hpos, Nat.div_pos (Nat.le_of_dvd hwork hdvd) hpos⟩

theorem exists_tables {dims : List Extent} (hwork : ∀ d ∈ dims, 0 < d.work)
    (hlimit : ∀ d ∈ dims, 0 < d.limit) :
    ∃ tables n, List.Forall₂ IsTable dims tables ∧
      ∀ fuel > n, factors fuel dims = some tables := by
  induction dims with
  | nil => exact ⟨[], 0, .nil, fun _ _ => rfl⟩
  | cons d dims ih =>
    obtain ⟨tables, n, htables, hrun⟩ := ih
      (fun e he => hwork e (List.mem_cons_of_mem d he))
      (fun e he => hlimit e (List.mem_cons_of_mem d he))
    obtain ⟨table, htable, hfirst⟩ := exists_table
      (hwork d List.mem_cons_self) (hlimit d List.mem_cons_self)
    refine ⟨table :: tables, max d.work n, .cons htable htables, fun fuel hfuel => ?_⟩
    rw [factors, hfirst fuel (by omega), hrun fuel (by omega)]
    rfl

/-! ## The trials -/

variable {tables : List (List Nat)} {ts : List Nat}

/-- No table is empty, so the size minus one does not wrap around and the trials count as an
odometer does. -/
theorem nextTry_eq (hne : ∀ table ∈ tables, table ≠ []) :
    nextTry tables ts = next (tables.map List.length) ts := by
  induction tables generalizing ts with
  | nil => rfl
  | cons table tables ih =>
    cases ts with
    | nil => rfl
    | cons t ts =>
      have hsize : sizeMinusOne table = table.length - 1 :=
        if_neg fun hempty => hne table List.mem_cons_self (List.isEmpty_iff.mp hempty)
      rw [nextTry, List.map_cons, next, hsize,
        ih fun table htable => hne table (List.mem_cons_of_mem _ htable)]

/-- The indices are in range and these are the factors at them. -/
def Picks (tables : List (List Nat)) (ts fs : List Nat) : Prop :=
  Digits (tables.map List.length) ts ∧ pick tables ts = some fs

/-- What is picked has a member of each table. -/
theorem exists_picks (h : Digits (tables.map List.length) ts) :
    ∃ fs, Picks tables ts fs ∧ List.Forall₂ (fun table f => f ∈ table) tables fs := by
  induction tables generalizing ts with
  | nil => exact ⟨[], ⟨h, rfl⟩, .nil⟩
  | cons table tables ih =>
    obtain ⟨t, ts, ht, hts, rfl⟩ := List.forall₂_cons_left_iff.mp h
    obtain ⟨fs, ⟨-, hpick⟩, hfs⟩ := ih hts
    refine ⟨table[t] :: fs, ⟨h, ?_⟩, .cons (List.getElem_mem ht) hfs⟩
    rw [pick, List.getElem?_eq_getElem ht, hpick]
    rfl

/-- Everything that has a member of each table can be picked. -/
theorem exists_index {fs : List Nat} (h : List.Forall₂ (fun table f => f ∈ table) tables fs) :
    ∃ ts, Picks tables ts fs := by
  induction h with
  | nil => exact ⟨[], .nil, rfl⟩
  | @cons table f tables fs hf _ ih =>
    obtain ⟨ts, hts, hpick⟩ := ih
    obtain ⟨t, ht, rfl⟩ := List.mem_iff_getElem.mp hf
    refine ⟨t :: ts, .cons ht hts, ?_⟩
    rw [pick, List.getElem?_eq_getElem ht, hpick]
    rfl

theorem Picks.unique {fs gs : List Nat} (hfs : Picks tables ts fs) (hgs : Picks tables ts gs) :
    fs = gs :=
  Option.some.inj (hfs.2.symm.trans hgs.2)

/-- One round of the search: the best one so far is replaced by what is tried if that is
better and below the limit. -/
theorem search_step {k : Nat} {trySet after maxSet best fs : List Nat}
    (hnext : nextTry tables trySet = some after) (htried : Picks tables after fs)
    (hbest : Picks tables maxSet best) :
    ∃ maxSet' best', Picks tables maxSet' best' ∧
      (∀ fuel, search tables k (fuel + 1) trySet maxSet (product best) =
        search tables k fuel after maxSet' (product best')) ∧
      product best ≤ product best' ∧ (best' = best ∨ product best' < k) ∧
      (product fs < k → product fs ≤ product best') := by
  by_cases hbetter : product best < product fs ∧ product fs < k
  · refine ⟨after, fs, htried, fun fuel => ?_, Nat.le_of_lt hbetter.1, .inr hbetter.2,
      fun _ => Nat.le_refl _⟩
    rw [search, hnext]
    show (pick tables after).bind _ = _
    rw [htried.2]
    exact if_pos hbetter
  · refine ⟨maxSet, best, hbest, fun fuel => ?_, Nat.le_refl _, .inl rfl, fun hk => ?_⟩
    · rw [search, hnext]
      show (pick tables after).bind _ = _
      rw [htried.2]
      exact if_neg hbetter
    · exact Nat.le_of_not_lt fun hlt => hbetter ⟨hlt, hk⟩

/-- **The search.**  What it ends with is at least as good as the best one so far, is this
one or stays below the limit, and is at least as good as everything below the limit that
has not been tried yet. -/
theorem search_spec {k rounds : Nat} {trySet maxSet best : List Nat}
    (hne : ∀ table ∈ tables, table ≠ []) (htry : Digits (tables.map List.length) trySet)
    (hbest : Picks tables maxSet best)
    (hrounds : value (tables.map List.length) trySet + rounds + 1 =
      (tables.map List.length).prod) :
    ∃ result chosen,
      (∀ fuel > rounds, search tables k fuel trySet maxSet (product best) = some result) ∧
      Picks tables result chosen ∧ product best ≤ product chosen ∧
      (chosen = best ∨ product chosen < k) ∧
      ∀ ts fs, Picks tables ts fs →
        value (tables.map List.length) trySet < value (tables.map List.length) ts →
        product fs < k → product fs ≤ product chosen := by
  induction rounds generalizing trySet maxSet best with
  | zero =>
    have hlast : nextTry tables trySet = none := by
      cases hnext : nextTry tables trySet with
      | none => rfl
      | some after =>
        obtain ⟨hdigits, hvalue⟩ := next_eq_some htry (nextTry_eq hne ▸ hnext)
        have hlt := value_lt hdigits
        omega
    refine ⟨maxSet, best, fun fuel hfuel => ?_, hbest, Nat.le_refl _, .inl rfl, ?_⟩
    · cases fuel with
      | zero => omega
      | succ fuel => rw [search, hlast]
    · intro ts fs hfs hlater _
      have hlt := value_lt hfs.1
      omega
  | succ rounds ih =>
    cases hnext : nextTry tables trySet with
    | none =>
      have hlast := next_eq_none htry (nextTry_eq hne ▸ hnext)
      omega
    | some after =>
      obtain ⟨hafter, hvalue⟩ := next_eq_some htry (nextTry_eq hne ▸ hnext)
      obtain ⟨tried, htried, -⟩ := exists_picks hafter
      obtain ⟨maxSet', best', hbest', hstep, hle, hbelow, hgood⟩ :=
        search_step hnext htried hbest
      obtain ⟨result, chosen, hrun, hresult, hle', hbelow', hmax⟩ :=
        ih hafter hbest' (by omega)
      refine ⟨result, chosen, fun fuel hfuel => ?_, hresult, Nat.le_trans hle hle', ?_, ?_⟩
      · cases fuel with
        | zero => omega
        | succ fuel =>
          rw [hstep fuel]
          exact hrun fuel (by omega)
      · rcases hbelow' with rfl | hbelow'
        · exact hbelow
        · exact .inr hbelow'
      · intro ts fs hfs hlater hk
        -- what has not been tried is what is tried now or comes later
        by_cases hsame : value (tables.map List.length) ts = value (tables.map List.length) after
        · obtain rfl := value_inj hfs.1 hafter hsame
          obtain rfl := hfs.unique htried
          exact Nat.le_trans (hgood hk) hle'
        · exact hmax ts fs hfs (by omega) hk

/-! ## The result -/

theorem product_eq_mod (fs : List Nat) : product fs = fs.prod % 2 ^ 64 := by
  have hfold (size : Nat) : fs.foldl (fun size f => size * f % 2 ^ 64) (size % 2 ^ 64) =
      size * fs.prod % 2 ^ 64 := by
    induction fs generalizing size with
    | nil => rw [List.foldl_nil, List.prod_nil, Nat.mul_one]
    | cons f fs ih =>
      rw [List.foldl_cons, Nat.mod_mul_mod, ih, List.prod_cons, Nat.mul_assoc]
  rw [product, ← Nat.one_mul fs.prod]
  exact hfold 1

/-- What is admissible fits in a `size_t` as the limits do. -/
theorem Admissible.prod_le {dims : List Extent} {lws : List Nat} (h : Admissible dims lws) :
    lws.prod ≤ (dims.map Extent.limit).prod := by
  induction h with
  | nil => exact Nat.le_refl 1
  | cons hn _ ih =>
    rw [List.map_cons, List.prod_cons, List.prod_cons]
    exact Nat.mul_le_mul hn.2 ih

theorem Admissible.exists_dvd {dims : List Extent} {lws : List Nat} (h : Admissible dims lws) :
    ∀ n ∈ lws, ∃ d ∈ dims, n ∣ d.work := by
  induction h with
  | nil => exact fun n hn => absurd hn List.not_mem_nil
  | @cons d n dims lws hn _ ih =>
    refine List.forall_mem_cons.mpr ⟨⟨d, List.mem_cons_self, hn.1⟩, fun m hm => ?_⟩
    obtain ⟨e, he, hdvd⟩ := ih m hm
    exact ⟨e, List.mem_cons_of_mem d he, hdvd⟩

theorem product_eq {dims : List Extent} {lws : List Nat} (hdims : Valid dims)
    (h : Admissible dims lws) : product lws = lws.prod := by
  rw [product_eq_mod]
  exact Nat.mod_eq_of_lt (Nat.lt_of_le_of_lt h.prod_le hdims.fits)

/-- The admissible local sizes are those with an entry from each table. -/
theorem admissible_iff {dims : List Extent} (h : List.Forall₂ IsTable dims tables)
    {lws : List Nat} :
    Admissible dims lws ↔ List.Forall₂ (fun table f => f ∈ table) tables lws := by
  induction h generalizing lws with
  | nil => exact ⟨fun h => by cases h; exact .nil, fun h => by cases h; exact .nil⟩
  | @cons d table dims tables htable _ ih =>
    constructor
    · intro h
      obtain ⟨n, lws, hn, hrest, rfl⟩ := List.forall₂_cons_left_iff.mp h
      exact .cons ((htable.mem n).mpr hn) (ih.mp hrest)
    · intro h
      obtain ⟨n, lws, hn, hrest, rfl⟩ := List.forall₂_cons_left_iff.mp h
      exact .cons ((htable.mem n).mp hn) (ih.mpr hrest)

theorem table_ne_nil {dims : List Extent} (h : List.Forall₂ IsTable dims tables) :
    ∀ table ∈ tables, table ≠ [] := by
  induction h with
  | nil => exact fun _ h => absurd h List.not_mem_nil
  | cons htable _ ih =>
    refine List.forall_mem_cons.mpr ⟨fun hnil => ?_, ih⟩
    have hhead := htable.head
    rw [hnil] at hhead
    cases hhead

/-- The trials start with 1 for each dimension. -/
theorem picks_zeros {dims : List Extent} (h : List.Forall₂ IsTable dims tables) :
    Picks tables (dims.map fun _ => 0) (dims.map fun _ => 1) := by
  induction h with
  | nil => exact ⟨.nil, rfl⟩
  | cons htable _ ih =>
    obtain ⟨hlen, -⟩ := List.getElem?_eq_some_iff.mp htable.head
    refine ⟨.cons hlen ih.1, ?_⟩
    rw [List.map_cons, pick, htable.head, ih.2]
    rfl

theorem Picks.admissible {dims : List Extent} {fs : List Nat}
    (htables : List.Forall₂ IsTable dims tables) (h : Picks tables ts fs) :
    Admissible dims fs := by
  obtain ⟨gs, hgs, hmem⟩ := exists_picks h.1
  obtain rfl := h.unique hgs
  exact (admissible_iff htables).mpr hmem

/-- `FindWorkGroupSize` has one result. -/
theorem Returns.unique {dims : List Extent} {k : Nat} {lws lws' : List Nat}
    (h : Returns dims k lws) (h' : Returns dims k lws') : lws = lws' := by
  obtain ⟨n, hn⟩ := h
  obtain ⟨n', hn'⟩ := h'
  have hsome := hn (max n n') (Nat.le_max_left n n')
  have hsome' := hn' (max n n') (Nat.le_max_right n n')
  exact Option.some.inj (hsome.symm.trans hsome')

/-- `FindWorkGroupSize` ends with an admissible local size.  As far as products in a
`size_t` tell, it is that of a single work-item or below the limit of the kernel, and the
greatest one below the limit. -/
theorem exists_returns {dims : List Extent} (hwork : ∀ d ∈ dims, 0 < d.work)
    (hlimit : ∀ d ∈ dims, 0 < d.limit) (k : Nat) :
    ∃ lws, Returns dims k lws ∧ Admissible dims lws ∧ 1 ≤ product lws ∧
      (product lws = 1 ∨ product lws < k) ∧
      ∀ other, Admissible dims other → product other < k → product other ≤ product lws := by
  obtain ⟨tables, n, htables, hfactors⟩ := exists_tables hwork hlimit
  have hzeros := picks_zeros htables
  have hstart : product (dims.map fun _ => 1) = 1 := by
    rw [product_eq_mod, List.prod_map_one]
    rfl
  obtain ⟨rounds, hrounds⟩ := Nat.exists_eq_add_of_lt (value_lt hzeros.1)
  obtain ⟨result, chosen, hrun, hresult, hle, hbelow, hmax⟩ :=
    search_spec (k := k) (table_ne_nil htables) hzeros.1 hzeros hrounds.symm
  rw [hstart] at hle
  refine ⟨chosen, ⟨max n rounds + 1, fun fuel hfuel => ?_⟩, hresult.admissible htables, hle, ?_,
    fun other hother hk => ?_⟩
  · rw [findWorkGroupSize, hfactors fuel (by omega)]
    show (search tables k fuel _ _ 1).bind _ = _
    rw [← hstart, hrun fuel (by omega)]
    exact hresult.2
  · rcases hbelow with rfl | hlt
    · exact .inl hstart
    · exact .inr hlt
  -- the first combination, of ones, is not tried but is the best one at the start
  · obtain ⟨ts, hts⟩ := exists_index ((admissible_iff htables).mp hother)
    rcases Nat.eq_zero_or_pos (value (tables.map List.length) ts) with hzero | hpos
    · obtain rfl := value_inj hts.1 hzeros.1 (hzero.trans (value_zeros _ dims).symm)
      rw [hts.unique hzeros, hstart]
      exact hle
    · apply hmax ts other hts _ hk
      rw [value_zeros]
      exact hpos

/-- If the limits of the device fit, these are the products of the entries. -/
theorem exists_returns_prod {dims : List Extent} (hdims : Valid dims) (k : Nat) :
    ∃ lws, Returns dims k lws ∧ Admissible dims lws ∧ 1 ≤ lws.prod ∧
      (lws.prod = 1 ∨ lws.prod < k) ∧
      ∀ other, Admissible dims other → other.prod < k → other.prod ≤ lws.prod := by
  obtain ⟨lws, hreturns, hadm, hpos, hbelow, hmax⟩ :=
    exists_returns hdims.work_pos hdims.limit_pos k
  rw [product_eq hdims hadm] at hpos hbelow
  refine ⟨lws, hreturns, hadm, hpos, hbelow, fun other hother hk => ?_⟩
  rw [← product_eq hdims hother] at hk ⊢
  rw [← product_eq hdims hadm]
  exact hmax other hother hk

/-- **The automatic work-group size is admissible.**  `FindWorkGroupSize` ends with one
entry for each dimension, which divides the global size and does not exceed the limit,
and the product does not exceed the limit of the kernel. -/
theorem findWorkGroupSize_admissible {dims : List Extent} {maxNumOfThread : Nat}
    (hdims : Valid dims) (hkernel : 1 ≤ maxNumOfThread) :
    ∃ lws, Returns dims maxNumOfThread lws ∧ Admissible dims lws ∧
      lws.prod ≤ maxNumOfThread := by
  obtain ⟨lws, hreturns, hadm, -, hbelow, -⟩ := exists_returns_prod hdims maxNumOfThread
  refine ⟨lws, hreturns, hadm, ?_⟩
  rcases hbelow with hone | hlt
  · rw [hone]
    exact hkernel
  · exact Nat.le_of_lt hlt

/-- The claim applies to a launch of 12 by 6 work-items. -/
theorem findWorkGroupSize_admissible_twelve :
    ∃ lws, Returns [⟨12, 4⟩, ⟨6, 64⟩] 8 lws ∧ Admissible [⟨12, 4⟩, ⟨6, 64⟩] lws ∧
      lws.prod ≤ 8 :=
  findWorkGroupSize_admissible ⟨by decide, by decide, by decide⟩ (by decide)

/-- The products of the admissible local sizes that the kernel permits. -/
def permitted (dims : List Extent) (maxNumOfThread : Nat) : Set Nat :=
  {size | size ≤ maxNumOfThread ∧ ∃ lws, Admissible dims lws ∧ lws.prod = size}

/-- **The automatic work-group size is the best one if and only if the limit of the kernel
is 1 or is not reached by any admissible one.** -/
theorem findWorkGroupSize_best_iff {dims : List Extent} {maxNumOfThread : Nat}
    (hdims : Valid dims) (hkernel : 1 ≤ maxNumOfThread) :
    ∃ lws, Returns dims maxNumOfThread lws ∧
      (IsGreatest (permitted dims maxNumOfThread) lws.prod ↔
        maxNumOfThread = 1 ∨ ¬∃ other, Admissible dims other ∧ other.prod = maxNumOfThread) := by
  obtain ⟨lws, hreturns, hadm, hpos, hbelow, hmax⟩ := exists_returns_prod hdims maxNumOfThread
  refine ⟨lws, hreturns, ?_, ?_⟩
  -- a limit that is reached would be the greatest, but the result is below it or 1
  · rintro ⟨-, hgreatest⟩
    by_cases hreached : ∃ other, Admissible dims other ∧ other.prod = maxNumOfThread
    · have hle := hgreatest ⟨Nat.le_refl maxNumOfThread, hreached⟩
      left
      omega
    · exact .inr hreached
  · intro hcond
    refine ⟨⟨by omega, lws, hadm, rfl⟩, ?_⟩
    rintro size ⟨hle, other, hother, rfl⟩
    rcases hcond with hone | hunreached
    · exact Nat.le_trans (hone ▸ hle) hpos
    · apply hmax other hother
      exact Nat.lt_of_le_of_ne hle fun heq => hunreached ⟨other, hother, heq⟩

/-- A limit of 5 is not reached by the divisors of 12 and 6. -/
theorem findWorkGroupSize_best_iff_five :
    ∃ lws, Returns [⟨12, 4⟩, ⟨6, 64⟩] 5 lws ∧
      (IsGreatest (permitted [⟨12, 4⟩, ⟨6, 64⟩] 5) lws.prod ↔
        5 = 1 ∨ ¬∃ other, Admissible [⟨12, 4⟩, ⟨6, 64⟩] other ∧ other.prod = 5) :=
  findWorkGroupSize_best_iff ⟨by decide, by decide, by decide⟩ (by decide)

/-- Two work-items of a kernel that permits groups of two are put into groups of one. -/
theorem findWorkGroupSize_not_best_two :
    ¬∀ dims k lws, Valid dims → 1 ≤ k → Returns dims k lws →
      IsGreatest (permitted dims k) lws.prod := by
  intro hbest
  have hreturns : Returns [⟨2, 2⟩] 2 [1] := by
    refine ⟨4, fun fuel hfuel => ?_⟩
    obtain ⟨rounds, rfl⟩ := Nat.exists_eq_add_of_le' hfuel
    rfl
  obtain ⟨-, hgreatest⟩ :=
    hbest [⟨2, 2⟩] 2 [1] ⟨by decide, by decide, by decide⟩ (by decide) hreturns
  have htwo : Admissible [⟨2, 2⟩] [2] := .cons ⟨by decide, by decide⟩ .nil
  have hle : 2 ≤ 1 := hgreatest ⟨Nat.le_refl 2, [2], htwo, rfl⟩
  exact absurd hle (by decide)

end WorkGroupSize
end Clpkm
