import Mathlib.Data.List.Infix

/-!
# Searching a text for a marker

`find` yields the position of the first occurrence of a marker in a text.  A marker of
which no proper beginning is also its ending is `Borderless`: two occurrences of it never
overlap.  So the first occurrence in a text that goes on with the marker is that one,
unless the marker already occurs before it (`find_append_self`); and an occurrence before
it is found whatever follows (`find_append_of_infix`).

A text given by its lines contains no marker that starts a line, unless one of the lines
begins with the rest of it (`not_infix_lines`).
-/

namespace Clpkm
namespace TextSearch

variable {α : Type*}

/-- No beginning of the marker is also its ending, apart from all of it. -/
def Borderless (m : List α) : Prop :=
  ∀ u v, m = u ++ v → u ≠ [] → v <+: m → v = []

theorem borderless_cons {a : α} {m : List α} (h : a ∉ m) : Borderless (a :: m) := by
  intro u v hm hu hv
  cases u with
  | nil => exact absurd rfl hu
  | cons b u =>
    have hu : m = u ++ v := (List.cons.inj hm).2
    cases v with
    | nil => rfl
    | cons c v =>
      -- the ending would begin with the first symbol again
      have hc : c = a := (List.cons_prefix_cons.mp hv).1
      exact absurd (by rw [hu, hc]; simp) h

theorem borderless_concat {a : α} {m : List α} (h : a ∉ m) : Borderless (m ++ [a]) := by
  intro u v hm hu hv
  rcases List.eq_nil_or_concat v with rfl | ⟨w, b, rfl⟩
  · rfl
  · rw [List.concat_eq_append] at hm hv ⊢
    rw [← List.append_assoc] at hm
    obtain ⟨huw, hab⟩ := List.append_inj' hm rfl
    obtain rfl : a = b := by simpa using hab
    -- the beginning ends with the last symbol, so it is the marker
    have hw : ¬ w ++ [a] <+: m := fun hw => h (hw.subset (by simp))
    have hl : (w ++ [a]).length ≤ m.length := by
      have hpos : 0 < u.length := List.length_pos_iff.mpr hu
      have hlen : m.length = u.length + w.length := by rw [huw, List.length_append]
      simp only [List.length_append, List.length_singleton]
      omega
    exact absurd (List.prefix_of_prefix_length_le hv (List.prefix_append m [a]) hl) hw

/-- A beginning of two texts is one of the first, or goes on into the second. -/
theorem prefix_append_cases {m t s : List α} (h : m <+: t ++ s) :
    m <+: t ∨ ∃ v, v <+: s ∧ m = t ++ v := by
  rcases List.prefix_or_prefix_of_prefix h (List.prefix_append t s) with hm | ⟨v, rfl⟩
  · exact Or.inl hm
  · exact Or.inr ⟨v, (List.prefix_append_right_inj t).mp h, rfl⟩

/-- A marker does not begin in a text before it and end in the marker itself. -/
theorem Borderless.not_prefix {m u : List α} (hb : Borderless m) (hu : u ≠ [])
    (h : ¬ m <+: u) (rest : List α) : ¬ m <+: u ++ (m ++ rest) := by
  intro hm
  rcases prefix_append_cases hm with hp | ⟨v, hv, huv⟩
  · exact h hp
  · have hle : v.length ≤ m.length := by simp [huv]
    have hvm : v <+: m := List.prefix_of_prefix_length_le hv (List.prefix_append m rest) hle
    obtain rfl : v = [] := hb u v huv hu hvm
    rw [List.append_nil] at huv
    exact h (huv ▸ List.prefix_rfl)

/-- The text of some lines, each started by the separator. -/
def lineText (sep : α) (ls : List (List α)) : List α :=
  ls.flatMap (sep :: ·)

@[simp] theorem lineText_nil (sep : α) : lineText sep [] = [] := rfl

@[simp] theorem lineText_cons (sep : α) (l : List α) (ls : List (List α)) :
    lineText sep (l :: ls) = sep :: (l ++ lineText sep ls) := by
  simp [lineText]

theorem lineText_append (sep : α) (ls ks : List (List α)) :
    lineText sep (ls ++ ks) = lineText sep ls ++ lineText sep ks :=
  List.flatMap_append

theorem append_lineText (sep : α) (l : List α) (ls : List (List α)) :
    l ++ lineText sep ls = [sep].intercalate (l :: ls) := by
  induction ls generalizing l with
  | nil => simp
  | cons k ls ih => rw [lineText_cons, List.intercalate_cons_cons, ← ih k]; simp

/-- Lines without the separator are the parts of their text between the separators. -/
theorem splitOn_lineText [DecidableEq α] {sep : α} {ls : List (List α)}
    (hls : ∀ k ∈ ls, sep ∉ k) : (lineText sep ls).splitOn sep = [] :: ls := by
  have h : lineText sep ls = [sep].intercalate ([] :: ls) := append_lineText sep [] ls
  rw [h]
  refine List.splitOn_intercalate sep (fun k hk => ?_) (List.cons_ne_nil [] ls)
  rcases List.mem_cons.mp hk with rfl | hk
  · exact List.not_mem_nil
  · exact hls k hk

/-- What is in the text after some symbols that are not its first one is after them. -/
theorem infix_append_of_notMem {a : α} {m l t : List α} (ha : a ∉ l)
    (h : a :: m <:+: l ++ t) : a :: m <:+: t := by
  induction l with
  | nil => exact h
  | cons b l ih =>
    rcases List.infix_cons_iff.mp h with hp | hi
    · exact absurd (by simp [(List.cons_prefix_cons.mp hp).1]) ha
    · exact ih (fun hl => ha (List.mem_cons_of_mem b hl)) hi

/-- **A marker that starts a line is not in the text of lines that begin otherwise.** -/
theorem not_infix_lines {sep : α} {m l : List α} {ls : List (List α)} (hm : sep ∉ m)
    (hl : sep ∉ l) (hls : ∀ k ∈ ls, sep ∉ k ∧ ¬ m <+: k) :
    ¬ sep :: m <:+: l ++ lineText sep ls := by
  intro h
  replace h := infix_append_of_notMem hl h
  induction ls with
  | nil => simp at h
  | cons k ls ih =>
    obtain ⟨hk, hmk⟩ := hls k List.mem_cons_self
    rw [lineText_cons] at h
    rcases List.infix_cons_iff.mp h with hp | hi
    · rcases prefix_append_cases (List.cons_prefix_cons.mp hp).2 with hp | ⟨v, hv, rfl⟩
      · exact hmk hp
      · -- the marker ends with the line, as it does not contain the separator
        have hnil : v = [] := by
          cases ls with
          | nil => exact List.prefix_nil.mp hv
          | cons j ls =>
            cases v with
            | nil => rfl
            | cons c v =>
              rw [lineText_cons] at hv
              exact absurd (by simp [(List.cons_prefix_cons.mp hv).1]) hm
        exact hmk (by simp [hnil])
    · exact ih (fun j hj => hls j (List.mem_cons_of_mem k hj)) (infix_append_of_notMem hk hi)

variable [DecidableEq α]

/-- The position of the first occurrence of a marker. -/
def find (m : List α) : List α → Option Nat
  | [] => if m = [] then some 0 else none
  | a :: t => if m <+: a :: t then some 0 else (find m t).map (· + 1)

theorem find_of_prefix {m t : List α} (h : m <+: t) : find m t = some 0 := by
  cases t with
  | nil => simp [find, List.prefix_nil.mp h]
  | cons a t => simp [find, h]

/-- **The marker that follows a text is the first one**, if the text does not contain it. -/
theorem find_append_self {m t : List α} (hb : Borderless m) (h : ¬ m <:+: t)
    (rest : List α) : find m (t ++ (m ++ rest)) = some t.length := by
  induction t with
  | nil => exact find_of_prefix (List.prefix_append m rest)
  | cons a t ih =>
    have ht : ¬ m <:+: t := fun hi => h (hi.trans (List.suffix_cons a t).isInfix)
    have hp : ¬ m <+: a :: (t ++ (m ++ rest)) :=
      hb.not_prefix (List.cons_ne_nil a t) (fun hm => h hm.isInfix) rest
    rw [List.cons_append, find, if_neg hp, ih ht]
    rfl

/-- A marker that a text contains is found in it, whatever follows. -/
theorem find_append_of_infix {m t : List α} (h : m <:+: t) (rest : List α) :
    ∃ i, find m (t ++ rest) = some i ∧ i + m.length ≤ t.length := by
  induction t with
  | nil =>
    obtain rfl : m = [] := List.infix_nil.mp h
    exact ⟨0, find_of_prefix List.nil_prefix, Nat.le_refl 0⟩
  | cons a t ih =>
    by_cases hp : m <+: a :: (t ++ rest)
    · exact ⟨0, find_of_prefix hp, by simpa using h.length_le⟩
    · have ht : m <:+: t := by
        rcases List.infix_cons_iff.mp h with hm | hm
        · exact absurd (hm.trans (List.prefix_append (a :: t) rest)) hp
        · exact hm
      obtain ⟨i, hi, hle⟩ := ih ht
      refine ⟨i + 1, ?_, ?_⟩
      · rw [List.cons_append, find, if_neg hp, hi]
        rfl
      · simp only [List.length_cons]
        omega

end TextSearch
end Clpkm
