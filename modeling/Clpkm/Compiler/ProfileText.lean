import Clpkm.Compiler.Profiles

/-!
# Libraries that write the profile list in block style

`block n` are libraries with all that `Libraries` asks for.  They write the profile list
in block style, with `n` lines of comment before it, and load the first document of a text
that starts with these comments.  Without comments that is how the library of the compiler
writes it.

Where the text before the document contains the characters of the start marker, enough
lines of comment show that the runtime does not get the document any more
(`profileList_block`).  A line of dashes is such a text, although it is not the line of a
marker (`not_roundTrip_dashes`).
-/

namespace Clpkm
namespace Compiler
namespace Profiles

open Yaml TextSearch

/-- A number in decimal digits. -/
def decimal {w : Nat} (n : BitVec w) : Text := Nat.toDigits 10 n.toNat

def ofDecimal (w : Nat) (t : Text) : Option (BitVec w) :=
  if !t.isEmpty && t.all Char.isDigit && decide (Nat.ofDigitChars 10 t 0 < 2 ^ w) then
    some (BitVec.ofNat w (Nat.ofDigitChars 10 t 0))
  else none

theorem isDigit_of_mem_decimal {w : Nat} {n : BitVec w} {c : Char} (h : c ∈ decimal n) :
    c.isDigit = true :=
  Nat.isDigit_of_mem_toDigits (by decide) (by decide) h

theorem ofDecimal_decimal {w : Nat} (n : BitVec w) : ofDecimal w (decimal n) = some n := by
  have hval : Nat.ofDigitChars 10 (decimal n) 0 = n.toNat := Nat.ofDigitChars_ten_toDigits
  have hne : (decimal n).isEmpty = false := List.isEmpty_eq_false_iff.mpr Nat.toDigits_ne_nil
  have hdigit : (decimal n).all Char.isDigit = true :=
    List.all_eq_true.mpr fun c hc => isDigit_of_mem_decimal hc
  have hlt : n.toNat < 2 ^ w := n.isLt
  simp [ofDecimal, hne, hdigit, hval, hlt]

/-- Scalars without quotes. -/
def plain : Scalars where
  ofString s := s.toList
  asString t := some (String.ofList t)
  ofUnsigned := decimal
  asUnsigned := ofDecimal 32
  ofSize := decimal
  asSize := ofDecimal 64
  asString_ofString s _ := by rw [String.ofList_toList]
  asUnsigned_ofUnsigned := ofDecimal_decimal
  asSize_ofSize := ofDecimal_decimal

theorem ne_of_identifierStart {c : Char} (h : identifierStart c = true) :
    c ≠ ' ' ∧ c ≠ '[' ∧ c ≠ '\n' := by
  refine ⟨?_, ?_, ?_⟩ <;> (rintro rfl; revert h; decide)

theorem ne_of_mem_decimal {w : Nat} {n : BitVec w} {c : Char} (h : c ∈ decimal n) :
    c ≠ ' ' ∧ c ≠ '[' ∧ c ≠ '\n' ∧ c ≠ ',' := by
  have hdigit := isDigit_of_mem_decimal h
  clear h
  refine ⟨?_, ?_, ?_, ?_⟩ <;> (rintro rfl; revert hdigit; decide)

theorem inline_identifier {t : Text} (h : isIdentifier t = true) : Inline (.scalar t) := by
  cases t with
  | nil => simp [isIdentifier] at h
  | cons c cs =>
    simp only [isIdentifier, Bool.and_eq_true, List.all_eq_true, Bool.or_eq_true] at h
    obtain ⟨hs, hb, hn⟩ := ne_of_identifierStart h.1
    refine .scalar (by simpa using hs) (by simpa using hb) fun hmem => ?_
    rcases List.mem_cons.mp hmem with hc | hc
    · exact hn hc.symm
    · rcases h.2 _ hc with h' | h' <;> revert h' <;> decide

theorem inline_decimal {w : Nat} (n : BitVec w) : Inline (.scalar (decimal n)) := by
  refine .scalar (fun h => ?_) (fun h => ?_) fun h => (ne_of_mem_decimal h).2.2.1 rfl
  · exact (ne_of_mem_decimal (List.mem_of_mem_head? h)).1 rfl
  · exact (ne_of_mem_decimal (List.mem_of_mem_head? h)).2.1 rfl

theorem inline_indices {l : List (BitVec 32)} (h : l ≠ []) : Inline (plain.indices l) := by
  have hmap : plain.indices l = .sequence ((l.map decimal).map .scalar) := by
    simp [Scalars.indices, Scalars.unsigned, plain, Function.comp_def]
  rw [hmap]
  refine .sequence (by simpa using h) fun t ht => ?_
  obtain ⟨n, _, rfl⟩ := List.mem_map.mp ht
  exact ⟨fun h => (ne_of_mem_decimal h).2.2.2 rfl, fun h => (ne_of_mem_decimal h).1 rfl,
    fun h => (ne_of_mem_decimal h).2.2.1 rfl⟩

theorem inlineEntry {k : String} {v : Node} (hc : ':' ∉ k.toList) (hn : '\n' ∉ k.toList)
    (hv : Inline v) : InlineEntry (k, v) := ⟨hc, hn, hv⟩

theorem inlineEntry_mapping {kp : KernelProfile} (h : isIdentifier kp.name.toList = true)
    {e : String × Node} (he : e ∈ plain.mapping kp) : InlineEntry e := by
  simp only [Scalars.mapping, List.flatten_cons, List.flatten_nil, List.append_nil,
    List.mem_append, mem_mapRequired, mem_mapOptional] at he
  rcases he with rfl | rfl | rfl | ⟨_, rfl⟩ | ⟨hl, rfl⟩
  · exact inlineEntry (by decide) (by decide) (inline_identifier h)
  · exact inlineEntry (by decide) (by decide) (inline_decimal kp.numOfParam)
  · exact inlineEntry (by decide) (by decide) (inline_decimal kp.reqPrvSize)
  · exact inlineEntry (by decide) (by decide) (inline_decimal kp.reqLocSize)
  · exact inlineEntry (by decide) (by decide) (inline_indices hl)

theorem flat_profiles {ps : List KernelProfile} (h : Named ps) : Flat (plain.profiles ps) := by
  refine ⟨ps.map plain.mapping, by simp [Scalars.profiles, Function.comp_def], ?_⟩
  intro es hes
  obtain ⟨kp, hkp, rfl⟩ := List.mem_map.mp hes
  exact ⟨by simp [Scalars.mapping, mapRequired], fun e he => inlineEntry_mapping (h kp hkp) he⟩

/-- The start marker and some lines of comment. -/
def header (n : Nat) : Text := ['-', '-', '-'] ++ lineText '\n' (List.replicate n ['#'])

theorem document_comments (n : Nat) (ls : List Text) :
    document (List.replicate n ['#'] ++ ls) =
      header n ++ lineText '\n' (ls ++ [['.', '.', '.']]) := by
  simp only [document, header, lineText_append, List.append_assoc]
  rfl

/-- Libraries that write some lines of comment before the profiles. -/
def block (n : Nat) : Libraries where
  toScalars := plain
  lines node := List.replicate n ['#'] ++ blockLines node
  load t := if header n <+: t then some (parseText (t.drop (header n).length)) else some .null
  content ps h l hl := by
    rcases List.mem_append.mp hl with hl | hl
    · rw [List.eq_of_mem_replicate hl]
      exact ⟨by decide, by decide⟩
    · have hc := content_of_mem (flat_profiles h) hl
      exact ⟨hc.newline, hc.stop⟩
  load_document ps h := by
    rw [document_comments, if_pos (List.prefix_append _ _), List.drop_left,
      parseText_blockLines (flat_profiles h)]

/-- No line of comment holds a dash. -/
theorem dash_notMem_comments (n : Nat) : '-' ∉ lineText '\n' (List.replicate n ['#']) := by
  intro h
  obtain ⟨l, hl, hd⟩ := List.mem_flatMap.mp h
  rw [List.eq_of_mem_replicate hl] at hd
  exact absurd hd (by decide)

theorem length_header (n : Nat) : (header n).length = 3 + 2 * n := by
  induction n with
  | zero => rfl
  | succ n ih =>
    simp only [header, List.replicate_succ, lineText_cons, List.length_append,
      List.length_cons, List.length_nil] at ih ⊢
    omega

/-- A text in which a dash comes after the start marker, too early for all the comments,
does not start with them. -/
theorem not_isPrefix_header {n : Nat} {u t : Text} (hu : 3 ≤ u.length) (hn : u.length ≤ n) :
    ¬ header n <+: u ++ '-' :: t := by
  intro h
  have hlen := length_header n
  rcases prefix_append_cases h with hp | ⟨v, hv, heq⟩
  · have hle := hp.length_le
    omega
  · cases v with
    | nil =>
      have hle := congrArg List.length heq
      simp only [List.append_nil] at hle
      omega
    | cons c v =>
      obtain rfl : c = '-' := (List.cons_prefix_cons.mp hv).1
      -- without its start marker the header is comments
      have hdrop : lineText '\n' (List.replicate n ['#']) = u.drop 3 ++ '-' :: v := by
        have hd := congrArg (List.drop 3) heq
        rwa [List.drop_append_of_le_length hu] at hd
      exact dash_notMem_comments n (by rw [hdrop]; simp)

theorem trimEnd_isPrefix (t : Text) : trimEnd t <+: t := by
  unfold trimEnd
  split
  · exact List.take_prefix _ t
  · exact List.prefix_rfl

/-- **With enough comment the runtime does not get the document any more** where the text
before it contains the characters of the start marker. -/
theorem profileList_block {pre : Text} (h : startMarker <:+: pre) (ps : List KernelProfile)
    (post : Text) :
    (block pre.length).profileList (pre ++ (block pre.length).emit ps ++ post) = none := by
  obtain ⟨i, hi, hle⟩ := find_append_of_infix h ((block pre.length).emit ps ++ post)
  have hlen : startMarker.length = 4 := rfl
  have hstart : ∃ t, trimStart (pre ++ ((block pre.length).emit ps ++ post)) =
      pre.drop i ++ '-' :: t := by
    rw [trimStart_of_find hi, List.drop_append_of_le_length (by omega)]
    exact ⟨_, rfl⟩
  obtain ⟨t, ht⟩ := hstart
  have hheader : ¬ header pre.length <+: trimEnd (pre.drop i ++ '-' :: t) := fun hp =>
    not_isPrefix_header (by simp only [List.length_drop]; omega)
      (by simp only [List.length_drop]; omega) (hp.trans (trimEnd_isPrefix _))
  rw [Libraries.profileList, List.append_assoc, ht]
  show (if header pre.length <+: _ then _ else some Node.null).bind _ = none
  rw [if_neg hheader]
  rfl

/-- **The runtime gets the profiles that the compiler wrote**, whatever the libraries do
beyond what is relied on, exactly if the text before the document does not contain the
characters of the start marker, be it at the end of a longer line. -/
theorem roundTrip_iff {ps : List KernelProfile} (hps : Named ps) (pre post : Text) :
    (∀ L : Libraries, L.profileList (pre ++ L.emit ps ++ post) = some ps) ↔
      ¬ startMarker <:+: pre := by
  constructor
  · intro h hpre
    have hsome := h (block pre.length)
    rw [profileList_block hpre] at hsome
    cases hsome
  · intro h L
    exact L.profileList_emit hps h post

/-- A kernel with a buffer in local memory. -/
def reduce : KernelProfile := ⟨"reduce", 3, 24, 0, [2]⟩

/-- A warning of the loader is dropped. -/
theorem roundTrip_warning :
    (block 0).profileList ("libtinfo.so.5: no version information available\n".toList ++
      (block 0).emit [reduce] ++ "1 warning generated.\n".toList) = some [reduce] :=
  (roundTrip_iff (by decide) _ _).mpr (by decide) (block 0)

/-- A line of five dashes is not the line of a marker.  Its end is taken for the start
marker, and the real one then starts another document. -/
theorem not_roundTrip_dashes :
    Named [reduce] ∧ ['-', '-', '-'] ∉ ['-', '-', '-', '-', '-', '\n'].splitOn '\n' ∧
      (block 0).profileList (['-', '-', '-', '-', '-', '\n'] ++
        (block 0).emit [reduce] ++ []) = none := by
  refine ⟨by decide, by decide, ?_⟩
  decide +kernel

end Profiles
end Compiler
end Clpkm
