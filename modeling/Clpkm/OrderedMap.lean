import Mathlib.Data.List.Pairwise
import Mathlib.Order.Defs.Unbundled

/-!
# Ordered maps

The entries of an `OrderedMap` are in increasing order of their keys, so that a key has one
entry.  `emplace` adds an entry unless the key has one.
-/

namespace Clpkm

universe u v

/-- A map whose entries are in the order `r` of their keys. -/
structure OrderedMap (K : Type u) (V : Type v) (r : K → K → Prop) where
  entries : List (K × V)
  sorted : entries.Pairwise fun a b => r a.1 b.1

namespace OrderedMap
variable {K : Type u} {V : Type v} {r : K → K → Prop}

def empty : OrderedMap K V r := ⟨[], List.Pairwise.nil⟩

def keys (m : OrderedMap K V r) : List K := m.entries.map Prod.fst

/-- The map without some of its entries. -/
def sublist (m : OrderedMap K V r) (l : List (K × V)) (h : l.Sublist m.entries) :
    OrderedMap K V r :=
  ⟨l, m.sorted.sublist h⟩

theorem sorted_keys (m : OrderedMap K V r) : m.keys.Pairwise r :=
  List.pairwise_map.mpr m.sorted

theorem nodup_keys [Std.Irrefl r] (m : OrderedMap K V r) : m.keys.Nodup := by
  refine m.sorted_keys.imp ?_
  rintro a _ h rfl
  exact Std.Irrefl.irrefl (r := r) a h

section emplace
variable [DecidableRel r] {k : K} {v : V} {l : List (K × V)} {e : K × V}

variable (r) in
/-- Put the entry in its place, unless there is one with the key. -/
def emplaceIn (k : K) (v : V) : List (K × V) → List (K × V)
  | [] => [(k, v)]
  | e :: l =>
    if r e.1 k then e :: emplaceIn k v l
    else if r k e.1 then (k, v) :: e :: l
    else e :: l

theorem of_mem_emplaceIn (h : e ∈ emplaceIn r k v l) : e = (k, v) ∨ e ∈ l := by
  induction l with
  | nil => exact .inl (List.mem_singleton.mp h)
  | cons a l ih =>
    unfold emplaceIn at h
    split at h
    · rcases List.mem_cons.mp h with rfl | h
      · exact .inr List.mem_cons_self
      · exact (ih h).imp_right (List.mem_cons_of_mem a)
    · split at h
      · exact List.mem_cons.mp h
      · exact .inr h

theorem mem_emplaceIn_of_mem (h : e ∈ l) : e ∈ emplaceIn r k v l := by
  induction l with
  | nil => cases h
  | cons a l ih =>
    unfold emplaceIn
    split
    · rcases List.mem_cons.mp h with rfl | h
      · exact List.mem_cons_self
      · exact List.mem_cons_of_mem a (ih h)
    · split
      · exact List.mem_cons_of_mem _ h
      · exact h

theorem pairwise_emplaceIn [IsTrans K r] (h : l.Pairwise fun a b => r a.1 b.1) :
    (emplaceIn r k v l).Pairwise fun a b => r a.1 b.1 := by
  induction l with
  | nil => exact List.pairwise_singleton _ _
  | cons a l ih =>
    obtain ⟨ha, hl⟩ := List.pairwise_cons.mp h
    unfold emplaceIn
    split
    · rename_i hak
      refine List.pairwise_cons.mpr ⟨fun e he => ?_, ih hl⟩
      rcases of_mem_emplaceIn he with rfl | he
      · exact hak
      · exact ha e he
    · split
      · rename_i hka
        refine List.pairwise_cons.mpr ⟨fun e he => ?_, h⟩
        rcases List.mem_cons.mp he with rfl | he
        · exact hka
        · exact IsTrans.trans _ _ _ hka (ha e he)
      · exact h

/-- The entry is there afterwards exactly if it was, or the key had none. -/
theorem mem_emplaceIn_self [IsStrictTotalOrder K r] (h : l.Pairwise fun a b => r a.1 b.1) :
    (k, v) ∈ emplaceIn r k v l ↔ (k, v) ∈ l ∨ ∀ w, (k, w) ∉ l := by
  induction l with
  | nil => exact iff_of_true List.mem_cons_self (.inr fun _ => List.not_mem_nil)
  | cons a l ih =>
    obtain ⟨ha, hl⟩ := List.pairwise_cons.mp h
    unfold emplaceIn
    split
    · rename_i hak
      have hne : ∀ w, (k, w) ≠ a := by
        rintro w rfl
        exact Std.Irrefl.irrefl (r := r) k hak
      simp only [List.mem_cons, hne, false_or, ih hl]
    · split
      · rename_i hka
        refine iff_of_true List.mem_cons_self (.inr fun w hw => ?_)
        rcases List.mem_cons.mp hw with rfl | hw
        · exact Std.Irrefl.irrefl (r := r) k hka
        · exact Std.Irrefl.irrefl (r := r) k (IsTrans.trans _ _ _ hka (ha (k, w) hw))
      · rename_i hak hka
        have hkey : a.1 = k := Std.Trichotomous.trichotomous (r := r) a.1 k hak hka
        refine (or_iff_left fun hnone => hnone a.2 ?_).symm
        rw [← hkey]
        exact List.mem_cons_self

/-- `emplace` -/
def emplace [IsTrans K r] (m : OrderedMap K V r) (k : K) (v : V) : OrderedMap K V r :=
  ⟨emplaceIn r k v m.entries, pairwise_emplaceIn m.sorted⟩

/-- **What `emplace` does.** -/
theorem mem_emplace [IsStrictTotalOrder K r] (m : OrderedMap K V r) :
    e ∈ (m.emplace k v).entries ↔ e ∈ m.entries ∨ (e = (k, v) ∧ ∀ w, (k, w) ∉ m.entries) := by
  constructor
  · intro h
    rcases of_mem_emplaceIn h with rfl | hmem
    · exact ((mem_emplaceIn_self m.sorted).mp h).imp_right fun hnone => ⟨rfl, hnone⟩
    · exact .inl hmem
  · rintro (h | ⟨rfl, hnone⟩)
    · exact mem_emplaceIn_of_mem h
    · exact (mem_emplaceIn_self m.sorted).mpr (.inr hnone)

end emplace
end OrderedMap
end Clpkm
