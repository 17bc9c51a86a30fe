import Clpkm.YamlNode

/-!
# Mappings in block style

A sequence of mappings whose values are scalars, or sequences of scalars, is written with
one line for each entry, the first one of a mapping after a dash (`blockLines`).
`parseBlock` reads such lines from the last one on: an entry is kept until the line comes
that starts its mapping.  **What was written is read back** (`parseBlock_blockLines`), also
from the text of the lines up to the line of a marker (`parseText_blockLines`).
-/

namespace Clpkm
namespace Yaml

open TextSearch

/-- The text of a scalar. -/
def Node.text : Node → List Char
  | .scalar t => t
  | _ => []

/-- A sequence of scalars on one line. -/
def flowText (ts : List (List Char)) : List Char :=
  ['[', ' '] ++ [',', ' '].intercalate ts ++ [' ', ']']

/-- A value on the line of its key. -/
def Node.inline : Node → List Char
  | .scalar t => t
  | .sequence items => flowText (items.map text)
  | _ => []

/-- Values start in one column, unless the key is too long. -/
def padding (k : List Char) : Nat := max 1 (16 - k.length)

def entryLine (indent : List Char) (e : String × Node) : List Char :=
  indent ++ (e.1.toList ++ ':' :: (List.replicate (padding e.1.toList) ' ' ++ e.2.inline))

def itemLines : Node → List (List Char)
  | .mapping (e :: es) => entryLine ['-', ' '] e :: es.map (entryLine [' ', ' '])
  | _ => []

def blockLines : Node → List (List Char)
  | .sequence [] => [['[', ']']]
  | .sequence items => items.flatMap itemLines
  | _ => []

def parseValue (t : List Char) : Node :=
  if (t.dropWhile (· == ' ')).head? = some '[' then
    .sequence ((((t.filter (· != ' ')).drop 1).dropLast.splitOn ',').map .scalar)
  else .scalar (t.dropWhile (· == ' '))

def parseEntry (l : List Char) : String × Node :=
  (String.ofList (l.takeWhile (· != ':')), parseValue ((l.dropWhile (· != ':')).drop 1))

/-- One line, given the entries after it that still lack their mapping and the mappings
after those. -/
def parseLine (l : List Char) (st : List (String × Node) × List Node) :
    List (String × Node) × List Node :=
  if ['-', ' '] <+: l then ([], .mapping (parseEntry (l.drop 2) :: st.1) :: st.2)
  else (parseEntry (l.drop 2) :: st.1, st.2)

def parseBlock (ls : List (List Char)) : Node :=
  if ls = [] then .null
  else if ls = [['[', ']']] then .sequence []
  else .sequence (ls.foldr parseLine ([], [])).2

/-- The line of a marker ends the first document. -/
def IsMarker (l : List Char) : Prop := l = ['-', '-', '-'] ∨ l = ['.', '.', '.']

instance (l : List Char) : Decidable (IsMarker l) := inferInstanceAs (Decidable (_ ∨ _))

/-- The first document of a text of lines. -/
def parseText (t : List Char) : Node :=
  parseBlock (((t.splitOn '\n').drop 1).takeWhile fun l => !decide (IsMarker l))

/-- A value that can be written on the line of its key. -/
inductive Inline : Node → Prop
  | scalar {t : List Char} (hs : t.head? ≠ some ' ') (hb : t.head? ≠ some '[')
      (hn : '\n' ∉ t) : Inline (.scalar t)
  | sequence {ts : List (List Char)} (hne : ts ≠ [])
      (h : ∀ t ∈ ts, ',' ∉ t ∧ ' ' ∉ t ∧ '\n' ∉ t) : Inline (.sequence (ts.map .scalar))

/-- An entry that can be written on a line. -/
structure InlineEntry (e : String × Node) : Prop where
  colon : ':' ∉ e.1.toList
  newline : '\n' ∉ e.1.toList
  value : Inline e.2

/-- A sequence of mappings of such entries. -/
def Flat (n : Node) : Prop :=
  ∃ ess : List (List (String × Node)), n = .sequence (ess.map .mapping) ∧
    ∀ es ∈ ess, es ≠ [] ∧ ∀ e ∈ es, InlineEntry e

theorem filter_flowText {ts : List (List Char)} (h : ∀ t ∈ ts, ' ' ∉ t) :
    ([',', ' '].intercalate ts).filter (· != ' ') = [','].intercalate ts := by
  induction ts with
  | nil => rfl
  | cons t ts ih =>
    have ht : t.filter (· != ' ') = t := by
      refine List.filter_eq_self.mpr fun c hc => ?_
      simpa using fun hcs : c = ' ' => h t List.mem_cons_self (hcs ▸ hc)
    have hts := ih fun s hs => h s (List.mem_cons_of_mem t hs)
    cases ts with
    | nil => simpa using ht
    | cons s ts =>
      rw [List.intercalate_cons_cons, List.intercalate_cons_cons]
      simp only [List.filter_append, ht, hts]
      rfl

theorem inline_sequence (ts : List (List Char)) :
    (Node.sequence (ts.map Node.scalar)).inline = flowText ts :=
  congrArg flowText (by simp [Function.comp_def, Node.text])

theorem parseValue_inline {v : Node} (h : Inline v) (k : Nat) :
    parseValue (List.replicate k ' ' ++ v.inline) = v := by
  have hdrop : ∀ t : List Char, (List.replicate k ' ' ++ t).dropWhile (· == ' ') =
      t.dropWhile (· == ' ') := fun t =>
    List.dropWhile_append_of_pos fun c hc => by simp [(List.mem_replicate.mp hc).2]
  unfold parseValue
  rw [hdrop]
  cases h with
  | @scalar t hs hb hn =>
    have ht : t.dropWhile (· == ' ') = t := List.dropWhile_beq_eq_self_of_head?_ne hs
    show (if (t.dropWhile (· == ' ')).head? = some '[' then _ else _) = _
    rw [ht, if_neg hb]
    exact congrArg Node.scalar ht
  | @sequence ts hne h =>
    have hfilter : (List.replicate k ' ' ++ flowText ts).filter (· != ' ') =
        '[' :: ([','].intercalate ts ++ [']']) := by
      have hk : (List.replicate k ' ').filter (· != ' ') = [] := by simp
      rw [List.filter_append, hk, flowText, List.filter_append, List.filter_append,
        filter_flowText fun t ht => (h t ht).2.1]
      rfl
    rw [inline_sequence, hfilter, if_pos (by simp [flowText]), List.drop_succ_cons, List.drop_zero,
      List.dropLast_concat, List.splitOn_intercalate ',' (fun t ht => (h t ht).1) hne]

theorem parseEntry_entryLine {e : String × Node} (h : InlineEntry e) {indent : List Char}
    (hi : indent.length = 2) : parseEntry ((entryLine indent e).drop 2) = e := by
  have hkey : ∀ c ∈ e.1.toList, (c != ':') = true := by
    intro c hc
    simpa using fun hcc : c = ':' => h.colon (hcc ▸ hc)
  rw [entryLine, ← hi, List.drop_left, parseEntry, List.takeWhile_append_of_pos hkey,
    List.dropWhile_append_of_pos hkey]
  have htail : ∀ t : List Char, ((':' :: t).dropWhile (· != ':')).drop 1 = t := fun t => by simp
  rw [htail, parseValue_inline h.value]
  simp

/-- The lines of a mapping are read as the mapping. -/
theorem foldr_itemLines {es : List (String × Node)} (hne : es ≠ [])
    (h : ∀ e ∈ es, InlineEntry e) (items : List Node) :
    (itemLines (.mapping es)).foldr parseLine ([], items) = ([], .mapping es :: items) := by
  have hrest : ∀ fs : List (String × Node), (∀ e ∈ fs, InlineEntry e) →
      (fs.map (entryLine [' ', ' '])).foldr parseLine ([], items) = (fs, items) := by
    intro fs hfs
    induction fs with
    | nil => rfl
    | cons e fs ih =>
      have he : parseEntry ((entryLine [' ', ' '] e).drop 2) = e :=
        parseEntry_entryLine (hfs e List.mem_cons_self) rfl
      have hd : ¬ ['-', ' '] <+: entryLine [' ', ' '] e := by simp [entryLine]
      rw [List.map_cons, List.foldr_cons, ih fun f hf => hfs f (List.mem_cons_of_mem e hf),
        parseLine, if_neg hd, he]
  cases es with
  | nil => exact absurd rfl hne
  | cons e es =>
    have he : parseEntry ((entryLine ['-', ' '] e).drop 2) = e :=
      parseEntry_entryLine (h e List.mem_cons_self) rfl
    have hd : ['-', ' '] <+: entryLine ['-', ' '] e := List.prefix_append _ _
    rw [itemLines, List.foldr_cons, hrest es fun f hf => h f (List.mem_cons_of_mem e hf),
      parseLine, if_pos hd, he]

/-- **What was written in block style is read back.** -/
theorem parseBlock_blockLines {n : Node} (h : Flat n) : parseBlock (blockLines n) = n := by
  obtain ⟨ess, rfl, hess⟩ := h
  have hitems : ((ess.map Node.mapping).flatMap itemLines).foldr parseLine ([], []) =
      ([], ess.map Node.mapping) := by
    induction ess with
    | nil => rfl
    | cons es ess ih =>
      obtain ⟨hne, hes⟩ := hess es List.mem_cons_self
      rw [List.map_cons, List.flatMap_cons, List.foldr_append,
        ih fun fs hfs => hess fs (List.mem_cons_of_mem es hfs), foldr_itemLines hne hes]
  cases ess with
  | nil => rfl
  | cons es ess =>
    obtain ⟨hne, hes⟩ := hess es List.mem_cons_self
    obtain ⟨e, es, rfl⟩ := List.exists_cons_of_ne_nil hne
    have hl : blockLines (.sequence ((((e :: es) :: ess)).map .mapping)) =
        (((e :: es) :: ess).map Node.mapping).flatMap itemLines := rfl
    rw [hl, parseBlock, if_neg (by simp [itemLines]), if_neg (by simp [itemLines, entryLine]),
      hitems]

/-- A line without the beginning of a marker. -/
structure Content (l : List Char) : Prop where
  newline : '\n' ∉ l
  start : ¬ ['-', '-', '-'] <+: l
  stop : ¬ ['.', '.', '.'] <+: l

theorem Content.not_isMarker {l : List Char} (h : Content l) : ¬ IsMarker l := by
  rintro (rfl | rfl)
  · exact h.start List.prefix_rfl
  · exact h.stop List.prefix_rfl

theorem newline_notMem_intercalate {ts : List (List Char)} (h : ∀ t ∈ ts, '\n' ∉ t) :
    '\n' ∉ [',', ' '].intercalate ts := by
  induction ts with
  | nil => exact List.not_mem_nil
  | cons t ts ih =>
    have ht := h t List.mem_cons_self
    have hts := ih fun s hs => h s (List.mem_cons_of_mem t hs)
    cases ts with
    | nil => simpa using ht
    | cons s ts =>
      rw [List.intercalate_cons_cons]
      simp [ht, hts]

theorem Inline.newline {v : Node} (h : Inline v) : '\n' ∉ v.inline := by
  cases h with
  | scalar hs hb hn => exact hn
  | @sequence ts hne h =>
    have hts := newline_notMem_intercalate fun t ht => (h t ht).2.2
    rw [inline_sequence, flowText]
    simp [hts]

theorem InlineEntry.newline_entryLine {e : String × Node} (h : InlineEntry e)
    {indent : List Char} (hi : '\n' ∉ indent) : '\n' ∉ entryLine indent e := by
  simp [entryLine, hi, h.newline, h.value.newline]

theorem content_of_mem {n : Node} (h : Flat n) {l : List Char} (hl : l ∈ blockLines n) :
    Content l := by
  obtain ⟨ess, rfl, hess⟩ := h
  cases ess with
  | nil =>
    obtain rfl : l = ['[', ']'] := by simpa [blockLines] using hl
    exact ⟨by simp, by simp, by simp⟩
  | cons fs fss =>
    -- the line of an entry of one of the mappings
    obtain ⟨es, hes, hl⟩ : ∃ es ∈ fs :: fss, l ∈ itemLines (.mapping es) := by
      simpa [blockLines] using hl
    obtain ⟨hne, hes⟩ := hess es hes
    obtain ⟨e, es, rfl⟩ := List.exists_cons_of_ne_nil hne
    rcases List.mem_cons.mp hl with rfl | hl
    · exact ⟨(hes e List.mem_cons_self).newline_entryLine (by simp), by simp [entryLine],
        by simp [entryLine]⟩
    · obtain ⟨f, hf, rfl⟩ := List.mem_map.mp hl
      exact ⟨(hes f (List.mem_cons_of_mem e hf)).newline_entryLine (by simp),
        by simp [entryLine], by simp [entryLine]⟩

/-- **What was written in block style is read back from its text**, up to the end marker. -/
theorem parseText_blockLines {n : Node} (h : Flat n) :
    parseText (lineText '\n' (blockLines n ++ [['.', '.', '.']])) = n := by
  have hnew : ∀ l ∈ blockLines n ++ [['.', '.', '.']], '\n' ∉ l := by
    intro l hl
    rcases List.mem_append.mp hl with hl | hl
    · exact (content_of_mem h hl).newline
    · rw [List.mem_singleton.mp hl]
      simp
  have hline : ∀ l ∈ blockLines n, (!decide (IsMarker l)) = true := fun l hl => by
    simpa using (content_of_mem h hl).not_isMarker
  rw [parseText, splitOn_lineText hnew, List.drop_succ_cons, List.drop_zero,
    List.takeWhile_append_of_pos hline]
  simp [IsMarker, parseBlock_blockLines h]

end Yaml
end Clpkm
