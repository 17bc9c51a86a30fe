import Mathlib.Data.List.AList
import Mathlib.Algebra.Ring.Nat
import Mathlib.Tactic.Common

/-!
# Counting the entries of a table

A hash table of the source is an association list with distinct keys, `AList`.
`Table.countWhere p` is the number of its entries whose value satisfies `p`; this
module says how inserting, overwriting and erasing an entry change that number.
`Table.countP_set` says the same of a list that is updated at an index, and
`Table.filterMap_set_perm` what the update adds to the values that are picked out.
`Table.All` and `Table.Has` say that every or some value of a table has a property.
-/

namespace Clpkm

universe u v

namespace Table
variable {α : Type u} {β : Type v} (p : β → Bool)

/-- The number of entries whose value satisfies `p`. -/
def countWhere (s : AList (fun _ : α => β)) : Nat := s.entries.countP (fun e => p e.2)

theorem countWhere_le_length (s : AList (fun _ : α => β)) :
    countWhere p s ≤ s.entries.length := List.countP_le_length

variable [DecidableEq α]

theorem erase_of_lookup_none {s : AList (fun _ : α => β)} {a : α} (h : s.lookup a = none) :
    s.erase a = s := by
  apply AList.ext
  exact List.kerase_of_notMem_keys (AList.lookup_eq_none.mp h)

/-- Inserting replaces the old entry of the key. -/
theorem countWhere_insert (s : AList (fun _ : α => β)) (a : α) (b : β) :
    countWhere p (s.insert a b) = countWhere p (s.erase a) + (if p b then 1 else 0) := by
  unfold countWhere
  rw [AList.entries_insert, List.countP_cons]
  rfl

/-- Erasing a key takes away the entry it was bound to. -/
theorem countWhere_of_lookup {s : AList (fun _ : α => β)} {a : α} {b : β}
    (h : s.lookup a = some b) :
    countWhere p s = countWhere p (s.erase a) + (if p b then 1 else 0) := by
  have hmem : a ∈ s.entries.keys :=
    AList.mem_keys.mp (AList.lookup_isSome.mp (by rw [h]; rfl))
  obtain ⟨b', l₁, l₂, _, hs, he⟩ := List.exists_of_kerase hmem
  have hb : b' = b := by
    have hin : (⟨a, b'⟩ : Sigma fun _ : α => β) ∈ s.entries := by rw [hs]; simp
    have hl := (List.mem_dlookup_iff s.nodupKeys).mpr hin
    exact Option.some.inj ((Option.mem_def.mp hl).symm.trans h)
  subst hb
  show List.countP _ s.entries = List.countP _ (List.kerase a s.entries) + _
  rw [he, hs, List.countP_append, List.countP_append, List.countP_cons]
  exact (Nat.add_assoc _ _ _).symm

/-- Overwriting an entry exchanges the summand of the old value for that of the new
one. -/
theorem countWhere_insert_of_lookup {s : AList (fun _ : α => β)} {a : α} {b b' : β}
    (h : s.lookup a = some b) :
    countWhere p (s.insert a b') + (if p b then 1 else 0) =
      countWhere p s + (if p b' then 1 else 0) := by
  rw [countWhere_insert, countWhere_of_lookup p h]
  omega

theorem countWhere_insert_of_lookup_none {s : AList (fun _ : α => β)} {a : α} {b : β}
    (h : s.lookup a = none) :
    countWhere p (s.insert a b) = countWhere p s + (if p b then 1 else 0) := by
  rw [countWhere_insert, erase_of_lookup_none h]

theorem countWhere_pos_iff {s : AList (fun _ : α => β)} :
    0 < countWhere p s ↔ ∃ a b, s.lookup a = some b ∧ p b = true := by
  unfold countWhere
  rw [List.countP_pos_iff]
  constructor
  · rintro ⟨⟨a, b⟩, hmem, hp⟩
    exact ⟨a, b, Option.mem_def.mp ((List.mem_dlookup_iff s.nodupKeys).mpr hmem), hp⟩
  · rintro ⟨a, b, hl, hp⟩
    exact ⟨⟨a, b⟩, (List.mem_dlookup_iff s.nodupKeys).mp hl, hp⟩

/-- A list around the element at an index, and what an update of that element leaves. -/
theorem exists_append_of_getElem? {γ : Type*} {l : List γ} {i : Nat} {x : γ}
    (h : l[i]? = some x) :
    ∃ l₁ l₂, l = l₁ ++ x :: l₂ ∧ ∀ y, l.set i y = l₁ ++ y :: l₂ := by
  obtain ⟨hi, rfl⟩ := List.getElem?_eq_some_iff.mp h
  have hset : ∀ y, l.set i y = l.take i ++ y :: l.drop (i + 1) := fun y => by
    rw [List.set_eq_take_append_cons_drop, if_pos hi]
  exact ⟨l.take i, l.drop (i + 1), (List.set_getElem_self hi).symm.trans (hset _), hset⟩

/-- Updating a list at an index exchanges the summand of the old element for that of
the new one. -/
theorem countP_set {γ : Type v} (q : γ → Bool) {l : List γ} {i : Nat} {x : γ}
    (h : l[i]? = some x) (y : γ) :
    (l.set i y).countP q + (if q x then 1 else 0) = l.countP q + (if q y then 1 else 0) := by
  obtain ⟨l₁, l₂, rfl, hset⟩ := exists_append_of_getElem? h
  rw [hset, List.countP_append, List.countP_append, List.countP_cons, List.countP_cons]
  omega

/-- The same of a sum. -/
theorem sum_map_set {γ : Type*} (f : γ → Nat) {l : List γ} {i : Nat} {x : γ}
    (h : l[i]? = some x) (y : γ) :
    ((l.set i y).map f).sum + f x = (l.map f).sum + f y := by
  obtain ⟨l₁, l₂, rfl, hset⟩ := exists_append_of_getElem? h
  rw [hset, List.map_append, List.map_append, List.map_cons, List.map_cons, List.sum_append,
    List.sum_append, List.sum_cons, List.sum_cons]
  omega

/-- Updating a list at an index exchanges what the old element contributes for what the new
one does. -/
theorem count_flatMap_set {γ δ : Type*} [DecidableEq δ] (f : γ → List δ) (d : δ) {l : List γ}
    {i : Nat} {x : γ} (h : l[i]? = some x) (y : γ) :
    ((l.set i y).flatMap f).count d + (f x).count d =
      (l.flatMap f).count d + (f y).count d := by
  obtain ⟨l₁, l₂, rfl, hset⟩ := exists_append_of_getElem? h
  simp only [hset, List.flatMap_append, List.flatMap_cons, List.count_append]
  omega

/-- When at most one element is counted, an update leaves none other than the new one that
is. -/
theorem eq_of_mem_set {γ : Type*} (q : γ → Bool) {l : List γ} (hl : l.countP q ≤ 1) {i : Nat}
    {x y z : γ} (hx : l[i]? = some x) (hq : q x = true) (hz : z ∈ l.set i y)
    (hqz : q z = true) : z = y := by
  obtain ⟨l₁, l₂, rfl, hset⟩ := exists_append_of_getElem? hx
  rw [List.countP_append, List.countP_cons, if_pos hq] at hl
  have hcounted : ∀ k : List γ, z ∈ k → 0 < k.countP q := fun k hk =>
    List.countP_pos_iff.mpr ⟨z, hk, hqz⟩
  rw [hset] at hz
  rcases List.mem_append.mp hz with hz | hz
  · have hpos := hcounted l₁ hz
    omega
  · rcases List.mem_cons.mp hz with rfl | hz
    · rfl
    · have hpos := hcounted l₂ hz
      omega

/-- Updating an element that the map leaves out to one that it keeps adds a value. -/
theorem filterMap_set_perm {γ δ : Type*} (f : γ → Option δ) {l : List γ} {i : Nat} {x y : γ} {d : δ}
    (h : l[i]? = some x) (hx : f x = none) (hy : f y = some d) :
    ((l.set i y).filterMap f).Perm (d :: l.filterMap f) := by
  obtain ⟨l₁, l₂, rfl, hset⟩ := exists_append_of_getElem? h
  rw [hset, List.filterMap_append, List.filterMap_append, List.filterMap_cons_some hy,
    List.filterMap_cons_none hx]
  exact List.perm_middle

/-- Updating an element to one with the same image changes nothing behind the map. -/
theorem filterMap_set_of_eq {γ δ : Type*} (f : γ → Option δ) {l : List γ} {i : Nat} {x y : γ}
    (h : l[i]? = some x) (hxy : f y = f x) : (l.set i y).filterMap f = l.filterMap f := by
  obtain ⟨l₁, l₂, rfl, hset⟩ := exists_append_of_getElem? h
  rw [hset, List.filterMap_append, List.filterMap_append, List.filterMap_cons,
    List.filterMap_cons, hxy]

/-- What every element satisfies, and the new one, every element of the updated list
satisfies. -/
theorem forall_mem_set {γ : Type*} {P : γ → Prop} {l : List γ} (h : ∀ x ∈ l, P x) (i : Nat) {y : γ}
    (hy : P y) : ∀ x ∈ l.set i y, P x := by
  intro x hx
  rcases List.mem_or_eq_of_mem_set hx with hx | rfl
  · exact h x hx
  · exact hy

/-- An update keeps that some element is picked out, unless the old one was and the new one
is not. -/
theorem any_set {γ : Type*} {p : γ → Bool} {l : List γ} {i : Nat} {x y : γ} {Q : Prop}
    (h : l[i]? = some x) (hany : l.any p = true) (hxy : p x = true → p y = true ∨ Q) :
    (l.set i y).any p = true ∨ Q := by
  obtain ⟨l₁, l₂, rfl, hset⟩ := exists_append_of_getElem? h
  rw [hset]
  simp only [List.any_append, List.any_cons, Bool.or_eq_true] at hany ⊢
  rcases hany with h₁ | hx | h₂
  · exact Or.inl (Or.inl h₁)
  · exact (hxy hx).imp (fun hy => Or.inr (Or.inl hy)) id
  · exact Or.inl (Or.inr (Or.inr h₂))

/-- An element of a list with one more at the end. -/
theorem getElem?_concat_iff {γ : Type*} {l : List γ} {x y : γ} {i : Nat} :
    (l ++ [x])[i]? = some y ↔ l[i]? = some y ∨ (i = l.length ∧ x = y) := by
  rw [List.getElem?_append]
  by_cases hi : i < l.length
  · rw [if_pos hi]
    exact ⟨.inl, fun h => h.elim id fun h => absurd hi (by omega)⟩
  · have hnone : l[i]? = none := List.getElem?_eq_none (by omega)
    rw [if_neg hi, hnone, List.getElem?_singleton]
    by_cases hlen : i = l.length
    · rw [if_pos (by omega), Option.some.injEq]
      exact ⟨fun h => .inr ⟨hlen, h⟩, fun h => h.elim nofun And.right⟩
    · rw [if_neg (by omega)]
      exact ⟨nofun, fun h => h.elim nofun fun h => absurd h.1 hlen⟩

/-- An element of an updated list. -/
theorem getElem?_set_iff {γ : Type*} {l : List γ} {x y z : γ} {i j : Nat} (h : l[i]? = some x) :
    (l.set i y)[j]? = some z ↔ (j = i ∧ y = z) ∨ (j ≠ i ∧ l[j]? = some z) := by
  by_cases hj : j = i
  · subst hj
    rw [List.getElem?_set_self (List.getElem?_eq_some_iff.mp h).1, Option.some.injEq]
    exact ⟨fun h => .inl ⟨rfl, h⟩, fun h => h.elim And.right fun h => absurd rfl h.1⟩
  · rw [List.getElem?_set_ne (Ne.symm hj)]
    exact ⟨fun h => .inr ⟨hj, h⟩, fun h => h.elim (fun h => absurd h.1 hj) And.right⟩

/-! ## Properties of the values of a table -/

section Values
variable {P : β → Prop} {s : AList (fun _ : α => β)} {a : α} {b b' : β}

/-- Every value has the property. -/
def All (P : β → Prop) (s : AList (fun _ : α => β)) : Prop := ∀ a b, s.lookup a = some b → P b

/-- Some value has the property. -/
def Has (P : β → Prop) (s : AList (fun _ : α => β)) : Prop := ∃ a b, s.lookup a = some b ∧ P b

theorem All.insert (h : All P s) (hb : P b) : All P (s.insert a b) := by
  intro a' b' hl
  by_cases ha : a' = a
  · subst ha
    rw [AList.lookup_insert, Option.some.injEq] at hl
    exact hl ▸ hb
  · rw [AList.lookup_insert_ne ha] at hl
    exact h a' b' hl

theorem All.erase (h : All P s) : All P (s.erase a) := by
  intro a' b' hl
  by_cases ha : a' = a
  · subst ha
    rw [AList.lookup_erase] at hl
    cases hl
  · rw [AList.lookup_erase_ne ha] at hl
    exact h a' b' hl

theorem All.mono {Q : β → Prop} (h : All P s) (hPQ : ∀ b, P b → Q b) : All Q s :=
  fun a b hl => hPQ b (h a b hl)

/-- A new entry hides none. -/
theorem Has.insert (h : Has P s) (ha : s.lookup a = none) : Has P (s.insert a b) := by
  obtain ⟨a', b', hl, hb⟩ := h
  refine ⟨a', b', ?_, hb⟩
  rwa [AList.lookup_insert_ne]
  rintro rfl
  rw [ha] at hl
  cases hl

/-- An entry is replaced by one that has the property if the old one has. -/
theorem Has.update (h : Has P s) (ha : s.lookup a = some b) (hb : P b → P b') :
    Has P (s.insert a b') := by
  obtain ⟨a', c, hl, hc⟩ := h
  by_cases heq : a' = a
  · subst heq
    rw [ha, Option.some.injEq] at hl
    subst hl
    exact ⟨a', b', AList.lookup_insert s, hb hc⟩
  · exact ⟨a', c, by rwa [AList.lookup_insert_ne heq], hc⟩

/-- An entry that does not have the property can be erased. -/
theorem Has.erase (h : Has P s) (ha : ∀ b, s.lookup a = some b → ¬P b) : Has P (s.erase a) := by
  obtain ⟨a', b, hl, hb⟩ := h
  refine ⟨a', b, ?_, hb⟩
  rwa [AList.lookup_erase_ne]
  rintro rfl
  exact ha b hl hb

end Values

end Table
end Clpkm
