import Mathlib.Data.BitVec
import Mathlib.Data.Fintype.Card
import Mathlib.Data.List.Basic
import Mathlib.Data.List.Nodup

/-!
# The list of variables to rename

Before kernels are inlined, every variable of the main file gets a name of its own.
`LstGenVisitor` goes through the declarations and emits an entry for each variable: where
its name is, counted from the start of the file, and what it is renamed to, which is a
counter in front of the old name.

The counter makes the new names distinct whatever the old ones are, since the first
underscore after it ends it (`newName_injective`).  It wraps after `2 ^ 32` entries, but a
location has no more than 32 bits either.

But a parameter need not have a name, and the visitor looks at the characters of the name
without asking.  `renames_iff` says for which translation units the list is as it should be.

`Node` is what `RecursiveASTVisitor` meets below a declaration, in its order.
-/

namespace Clpkm
namespace RenameList

/-- `SourceLocation` -/
inductive SourceLocation
  /-- in a file, with its raw encoding -/
  | file (raw : BitVec 32)
  /-- in the expansion of a macro, which starts at another location -/
  | expansion (start : SourceLocation)
  deriving DecidableEq, Repr

/-- What the visitor asks the source manager. -/
structure SourceManager where
  isInMainFile : SourceLocation → Bool
  /-- the raw encoding of the start of the main file -/
  startOfMainFile : BitVec 32

inductive DeclKind
  /-- a variable or a parameter, with its name -/
  | varDecl (identifier : Option String)
  | other
  deriving DecidableEq, Repr

structure Decl where
  location : SourceLocation
  kind : DeclKind
  deriving DecidableEq, Repr

/-- What the visitor meets. -/
inductive Node
  | none
  | append (n m : Node)
  | decl (d : Decl) (body : Node)
  /-- A part that the visitor goes through several times.  It goes through both forms of an
  initialiser list, and through a `typeof` for each declarator. -/
  | shared (times : Nat) (n : Node)

/-- An entry of the list. -/
structure Entry where
  offset : BitVec 32
  newName : String
  deriving DecidableEq, Repr

/-- `LstGenVisitor` -/
structure LstGenVisitor where
  nonce : BitVec 32
  outs : List Entry
  /-- the variables that it has visited -/
  visited : List Decl

/-- `ExpandStartLoc` -/
def expandStartLoc : SourceLocation → SourceLocation
  | .file raw => .file raw
  | .expansion start => start

/-- The text that is put in the place of a name. -/
def newName (nonce : BitVec 32) (name : String) : String :=
  "__R_" ++ toString nonce.toNat ++ "_" ++ name

/-- Go through something several times. -/
def repeated (f : LstGenVisitor → Option LstGenVisitor) : Nat → LstGenVisitor → Option LstGenVisitor
  | 0, s => some s
  | n + 1, s => (f s).bind (repeated f n)

section
variable (SM : SourceManager)

/-- `VisitVarDecl`; the name of a variable without a name is at a null pointer. -/
def visitVarDecl (s : LstGenVisitor) (d : Decl) (identifier : Option String) :
    Option LstGenVisitor :=
  match expandStartLoc d.location with
  -- a warning says that the variable cannot be renamed
  | .expansion _ => some { s with visited := s.visited ++ [d] }
  | .file thisPos => identifier.map fun varName =>
    { nonce := s.nonce + 1
      outs := s.outs ++ [⟨thisPos - SM.startOfMainFile, newName (s.nonce + 1) varName⟩]
      visited := s.visited ++ [d] }

def visit (s : LstGenVisitor) (d : Decl) : Option LstGenVisitor :=
  match d.kind with
  | .varDecl identifier => visitVarDecl SM s d identifier
  | .other => some s

/-- `TraverseDecl`, and the traversal of what is below; the declarations of other files are
left out. -/
def traverse : Node → LstGenVisitor → Option LstGenVisitor
  | .none, s => some s
  | .append n m, s => (traverse n s).bind (traverse m)
  | .decl d body, s =>
    if SM.isInMainFile d.location then (visit SM s d).bind (traverse body) else some s
  | .shared times n, s => repeated (traverse n) times s

end

/-- The list for the top-level declarations. -/
def generate (SM : SourceManager) (decls : Node) : Option LstGenVisitor :=
  traverse SM decls ⟨0, [], []⟩

/-! ## What is promised -/

/-- The name of a variable; other declarations are not renamed. -/
def Decl.identifier (d : Decl) : Option String :=
  match d.kind with
  | .varDecl identifier => identifier
  | .other => none

/-- The variables and parameters of the main file, each of them once. -/
def varDecls (SM : SourceManager) : Node → List Decl
  | .none => []
  | .append n m => varDecls SM n ++ varDecls SM m
  | .decl d body =>
    (if SM.isInMainFile d.location && d.kind != .other then [d] else []) ++ varDecls SM body
  | .shared _ n => varDecls SM n

/-- Where the name of a variable is, counted from the start of the file. -/
def offset (SM : SourceManager) (d : Decl) : BitVec 32 :=
  match d.location with
  | .file raw => raw - SM.startOfMainFile
  | .expansion _ => 0

/-- A translation unit whose variables are outside macros. -/
structure TranslationUnit where
  sourceManager : SourceManager
  decls : Node
  outsideMacros : ∀ d ∈ varDecls sourceManager decls, ∃ raw, d.location = .file raw
  /-- the names of two variables are at two places -/
  distinct : (((varDecls sourceManager decls).filter (·.identifier.isSome)).map
    Decl.location).Nodup

namespace TranslationUnit

def varDecls (u : TranslationUnit) : List Decl := RenameList.varDecls u.sourceManager u.decls

/-- The list is as it should be. -/
structure Renames (u : TranslationUnit) (s : LstGenVisitor) : Prop where
  /-- every variable is visited -/
  visited : ∀ d ∈ u.varDecls, d ∈ s.visited
  /-- every variable that has a name has exactly one entry -/
  named : ∀ d ∈ u.varDecls, d.identifier.isSome = true →
    (s.outs.filter (·.offset = offset u.sourceManager d)).length = 1
  /-- there is no other entry -/
  entry : ∀ e ∈ s.outs, ∃ d ∈ u.varDecls, d.identifier.isSome = true ∧
    e.offset = offset u.sourceManager d
  /-- the new names of two entries are different -/
  newNames : (s.outs.map Entry.newName).Nodup

end TranslationUnit

/-- The traversal comes to every variable once: none is inside a declaration of another file,
and none in a part that the visitor goes through several times, or not at all. -/
def PassedOnce (SM : SourceManager) : Node → Prop
  | .none => True
  | .append n m => PassedOnce SM n ∧ PassedOnce SM m
  | .decl d body =>
    (SM.isInMainFile d.location = true ∧ PassedOnce SM body) ∨ varDecls SM body = []
  | .shared times n => (times = 1 ∧ PassedOnce SM n) ∨ varDecls SM n = []

/-! ## New names -/

/-- The first underscore ends the counter. -/
theorem takeWhile_toDigits (k : Nat) (z : List Char) :
    (Nat.toDigits 10 k ++ ("_".toList ++ z)).takeWhile (· ≠ '_') = Nat.toDigits 10 k := by
  have hdigits : ∀ c ∈ Nat.toDigits 10 k, decide (c ≠ '_') = true := by
    intro c hc
    refine decide_eq_true fun he => ?_
    rw [he] at hc
    exact Nat.underscore_not_in_toDigits hc
  rw [List.takeWhile_append_of_pos hdigits]
  simp

/-- **A new name tells the value of the counter**, whatever the old name is. -/
theorem newName_injective {m n : BitVec 32} {x y : String} (h : newName m x = newName n y) :
    m = n := by
  have hlist := congrArg String.toList h
  unfold newName at hlist
  simp only [String.toList_append, Nat.toString_eq_repr, Nat.toList_repr, List.append_assoc,
    List.append_cancel_left_eq] at hlist
  have hnat := congrArg (fun l => Nat.ofDigitChars 10 l 0)
    ((takeWhile_toDigits m.toNat x.toList).symm.trans
      ((congrArg _ hlist).trans (takeWhile_toDigits n.toNat y.toList)))
  simp only [Nat.ofDigitChars_ten_toDigits] at hnat
  exact BitVec.eq_of_toNat_eq hnat

/-! ## The traversal as a list -/

section
variable {SM : SourceManager}

variable (SM) in
/-- The variables that the traversal comes to, in its order. -/
def passes : Node → List Decl
  | .none => []
  | .append n m => passes n ++ passes m
  | .decl d body =>
    if SM.isInMainFile d.location then (if d.kind != .other then [d] else []) ++ passes body
    else []
  | .shared times n => (List.replicate times (passes n)).flatten

theorem repeated_eq {f : LstGenVisitor → Option LstGenVisitor} {l : List Decl}
    (hf : ∀ s, f s = l.foldlM (visit SM) s) (k : Nat) (s : LstGenVisitor) :
    repeated f k s = (List.replicate k l).flatten.foldlM (visit SM) s := by
  induction k generalizing s with
  | zero => rfl
  | succ k ih =>
    rw [List.replicate_succ, List.flatten_cons, List.foldlM_append, ← hf]
    exact congrArg _ (funext ih)

/-- **The visitor visits what the traversal comes to**, one after another. -/
theorem traverse_eq (n : Node) (s : LstGenVisitor) :
    traverse SM n s = (passes SM n).foldlM (visit SM) s := by
  induction n generalizing s with
  | none => rfl
  | append n m ihn ihm =>
    simp only [passes, List.foldlM_append, ← ihn]
    exact congrArg _ (funext ihm)
  | decl d body ih =>
    simp only [traverse, passes]
    by_cases hmain : SM.isInMainFile d.location = true
    · simp only [hmain, if_true, List.foldlM_append]
      rw [show traverse SM body = fun s => (passes SM body).foldlM (visit SM) s from funext ih]
      cases hk : d.kind with
      | varDecl identifier => simp
      | other => simp [visit, hk]
    · simp [hmain]
  | shared k n ih => exact repeated_eq ih k s

theorem mem_varDecls_of_mem_passes {n : Node} {d : Decl} (h : d ∈ passes SM n) :
    d ∈ varDecls SM n := by
  induction n with
  | none => exact h
  | append n m ihn ihm =>
    exact List.mem_append.mpr ((List.mem_append.mp h).imp ihn ihm)
  | decl e body ih =>
    simp only [passes] at h
    split at h
    · rename_i hmain
      refine List.mem_append.mpr ((List.mem_append.mp h).imp (fun h => ?_) ih)
      rwa [hmain, Bool.true_and]
    · cases h
  | shared k n ih =>
    obtain ⟨l, hl, hd⟩ := List.mem_flatten.mp h
    rw [List.eq_of_mem_replicate hl] at hd
    exact ih hd

theorem varDecl_of_mem {n : Node} {d : Decl} (h : d ∈ varDecls SM n) : d.kind ≠ .other := by
  induction n with
  | none => cases h
  | append n m ihn ihm => exact (List.mem_append.mp h).elim ihn ihm
  | decl e body ih =>
    refine (List.mem_append.mp h).elim (fun h => ?_) ih
    split at h
    · rename_i hvar
      rw [List.mem_singleton.mp h]
      simpa using (Bool.and_eq_true_iff.mp hvar).2
    · cases h
  | shared k n ih => exact ih h

theorem passes_eq_nil {n : Node} (h : varDecls SM n = []) : passes SM n = [] :=
  List.eq_nil_iff_forall_not_mem.mpr fun d hd =>
    List.eq_nil_iff_forall_not_mem.mp h d (mem_varDecls_of_mem_passes hd)

theorem count_passes_eq_zero {n : Node} {d : Decl} (h : d ∉ varDecls SM n) :
    (passes SM n).count d = 0 :=
  List.count_eq_zero_of_not_mem (mt mem_varDecls_of_mem_passes h)

/-- The traversal comes to the variables once and in order. -/
theorem PassedOnce.passes_eq {n : Node} (h : PassedOnce SM n) : passes SM n = varDecls SM n := by
  induction n with
  | none => rfl
  | append n m ihn ihm =>
    simp only [passes, varDecls, ihn h.1, ihm h.2]
  | decl d body ih =>
    simp only [passes, varDecls]
    by_cases hmain : SM.isInMainFile d.location = true
    · have hbody : passes SM body = varDecls SM body := by
        rcases h with h | h
        · exact ih h.2
        · rw [h, passes_eq_nil h]
      rw [if_pos hmain, hmain, Bool.true_and, hbody]
    · rcases h with h | h
      · exact absurd h.1 hmain
      · simp [hmain, h]
  | shared k n ih =>
    rcases h with ⟨rfl, h⟩ | h
    · simp [passes, varDecls, ih h]
    · simp [passes, varDecls, h, passes_eq_nil h]

/-- If the traversal comes to each variable once, there is nothing that keeps it from that. -/
theorem passedOnce_of_count {n : Node} (hnd : (varDecls SM n).Nodup)
    (h : ∀ d ∈ varDecls SM n, (passes SM n).count d = 1) : PassedOnce SM n := by
  induction n with
  | none => trivial
  | append n m ihn ihm =>
    obtain ⟨hn, hm, hdisj⟩ := List.nodup_append.mp hnd
    refine ⟨ihn hn fun d hd => ?_, ihm hm fun d hd => ?_⟩
    · have hcount := h d (List.mem_append_left _ hd)
      have hzero := count_passes_eq_zero fun hmem => hdisj d hd d hmem rfl
      rwa [passes, List.count_append, hzero] at hcount
    · have hcount := h d (List.mem_append_right _ hd)
      have hzero := count_passes_eq_zero fun hmem => hdisj d hmem d hd rfl
      rwa [passes, List.count_append, hzero, Nat.zero_add] at hcount
  | decl e body ih =>
    obtain ⟨-, hbody, hdisj⟩ := List.nodup_append.mp hnd
    by_cases hmain : SM.isInMainFile e.location = true
    · refine .inl ⟨hmain, ih hbody fun d hd => ?_⟩
      have hcount := h d (List.mem_append_right _ hd)
      rw [passes, if_pos hmain, List.count_append] at hcount
      rw [hmain, Bool.true_and] at hdisj
      rwa [List.count_eq_zero_of_not_mem fun hmem => hdisj d hmem d hd rfl, Nat.zero_add] at hcount
    · refine .inr (List.eq_nil_iff_forall_not_mem.mpr fun d hd => ?_)
      have hcount := h d (List.mem_append_right _ hd)
      rw [passes, if_neg hmain] at hcount
      cases hcount
  | shared k n ih =>
    by_cases hnil : varDecls SM n = []
    · exact .inr hnil
    · have hcount : ∀ d ∈ varDecls SM n, k * (passes SM n).count d = 1 := by
        intro d hd
        have := h d hd
        rw [passes, List.count_flatten, List.map_replicate, List.sum_replicate_nat] at this
        simpa using this
      obtain ⟨d, hd⟩ := List.exists_mem_of_ne_nil _ hnil
      have hk : k = 1 := Nat.eq_one_of_mul_eq_one_right (hcount d hd)
      refine .inl ⟨hk, ih hnd fun d hd => ?_⟩
      have := hcount d hd
      rwa [hk, Nat.one_mul] at this

end

/-! ## The entries -/

section
variable (SM : SourceManager)

/-- The entries for variables that have names, from a value of the counter on. -/
def entries : BitVec 32 → List Decl → List Entry
  | _, [] => []
  | nonce, d :: l =>
    ⟨offset SM d, newName (nonce + 1) (d.identifier.getD "")⟩ :: entries (nonce + 1) l

variable {SM}

/-- A variable outside macros gets an entry; without a name it is the end. -/
theorem visit_eq {d : Decl} (hvar : d.kind ≠ .other) (hfile : ∃ raw, d.location = .file raw)
    (s : LstGenVisitor) :
    visit SM s d = d.identifier.map fun varName =>
      ⟨s.nonce + 1, s.outs ++ [⟨offset SM d, newName (s.nonce + 1) varName⟩],
        s.visited ++ [d]⟩ := by
  obtain ⟨location, kind⟩ := d
  obtain ⟨raw, rfl⟩ := hfile
  cases kind with
  | other => exact absurd rfl hvar
  | varDecl identifier => rfl

theorem foldlM_visit {l : List Decl} (hvar : ∀ d ∈ l, d.kind ≠ .other)
    (hfile : ∀ d ∈ l, ∃ raw, d.location = .file raw) (s : LstGenVisitor) :
    l.foldlM (visit SM) s =
      if ∀ d ∈ l, d.identifier.isSome = true then
        some ⟨s.nonce + BitVec.ofNat 32 l.length, s.outs ++ entries SM s.nonce l, s.visited ++ l⟩
      else none := by
  induction l generalizing s with
  | nil => simp [entries]
  | cons d l ih =>
    rw [List.foldlM_cons, visit_eq (hvar d List.mem_cons_self) (hfile d List.mem_cons_self)]
    cases hd : d.identifier with
    | none => simp [hd]
    | some name =>
      have hl := ih (fun e he => hvar e (List.mem_cons_of_mem d he))
        (fun e he => hfile e (List.mem_cons_of_mem d he))
      simp only [Option.map_some, Option.bind_eq_bind, Option.bind_some, hl, List.forall_mem_cons,
        hd, Option.isSome_some, true_and]
      split
      · simp only [entries, hd, Option.getD_some, List.append_assoc, List.singleton_append,
          List.length_cons, Option.some.injEq, LstGenVisitor.mk.injEq, and_true]
        rw [Nat.add_comm, BitVec.ofNat_add, BitVec.add_assoc]
        rfl
      · rfl

/-- A variable has as many entries as there are visits of it. -/
theorem length_filter_entries {l : List Decl} {d : Decl}
    (h : ∀ e ∈ l, offset SM e = offset SM d → e = d) (nonce : BitVec 32) :
    ((entries SM nonce l).filter (·.offset = offset SM d)).length = l.count d := by
  induction l generalizing nonce with
  | nil => rfl
  | cons e l ih =>
    have hl := ih (fun e he => h e (List.mem_cons_of_mem _ he)) (nonce + 1)
    by_cases he : e = d
    · rw [entries, List.filter_cons, if_pos (by rw [he]; exact decide_eq_true rfl),
        List.length_cons, hl, he, List.count_cons_self]
    · have hne : ¬offset SM e = offset SM d := fun ho => he (h e List.mem_cons_self ho)
      rw [entries, List.filter_cons, if_neg (by simpa using hne), hl, List.count_cons_of_ne he]

theorem exists_of_mem_entries {l : List Decl} {nonce : BitVec 32} {e : Entry}
    (h : e ∈ entries SM nonce l) :
    ∃ d ∈ l, e.offset = offset SM d ∧ ∃ i < l.length, ∃ name,
      e.newName = newName (nonce + 1 + BitVec.ofNat 32 i) name := by
  induction l generalizing nonce with
  | nil => cases h
  | cons d l ih =>
    rcases List.mem_cons.mp h with rfl | h
    · refine ⟨d, List.mem_cons_self, rfl, 0, Nat.succ_pos _, d.identifier.getD "", ?_⟩
      rw [show BitVec.ofNat 32 0 = 0#32 from rfl, BitVec.add_zero]
    · obtain ⟨d', hd', hoffset, i, hi, name, hname⟩ := ih h
      refine ⟨d', List.mem_cons_of_mem d hd', hoffset, i + 1, Nat.succ_lt_succ hi, name, ?_⟩
      rw [hname, Nat.add_comm i 1, BitVec.ofNat_add, ← BitVec.add_assoc]
      rfl

/-- **The new names are distinct** as long as the counter does not come round. -/
theorem nodup_newNames {l : List Decl} (h : l.length ≤ 4294967296) (nonce : BitVec 32) :
    ((entries SM nonce l).map Entry.newName).Nodup := by
  induction l generalizing nonce with
  | nil => exact List.nodup_nil
  | cons d l ih =>
    rw [List.length_cons] at h
    refine List.nodup_cons.mpr ⟨fun hmem => ?_, ih (by omega) (nonce + 1)⟩
    obtain ⟨e, he, heq⟩ := List.mem_map.mp hmem
    obtain ⟨-, -, -, i, hi, name, hname⟩ := exists_of_mem_entries he
    have hnonce := newName_injective (hname.symm.trans heq)
    bv_omega

end

/-! ## The translation units whose list is as it should be -/

namespace TranslationUnit
variable {u : TranslationUnit}

theorem offset_injective {d e : Decl} (hd : ∃ raw, d.location = .file raw)
    (he : ∃ raw, e.location = .file raw) {SM : SourceManager} (h : offset SM d = offset SM e) :
    d.location = e.location := by
  obtain ⟨x, hx⟩ := hd
  obtain ⟨y, hy⟩ := he
  unfold offset at h
  rw [hx, hy] at h
  have hxy : x = y := by bv_omega
  rw [hx, hy, hxy]

/-- There are no more names than places in the file. -/
theorem length_le (h : (u.varDecls.map Decl.location).Nodup) : u.varDecls.length ≤ 4294967296 := by
  have hoffset : (u.varDecls.map fun d => (offset u.sourceManager d).toFin).Nodup := by
    refine (List.Nodup.of_map _ h).map_on fun d hd e he heq => ?_
    have hlocation := offset_injective (u.outsideMacros d hd) (u.outsideMacros e he)
      (BitVec.eq_of_toFin_eq heq)
    exact List.inj_on_of_nodup_map h hd he hlocation
  have hcard := hoffset.length_le_card
  rwa [List.length_map, Fintype.card_fin] at hcard

/-- What the visitor has done with the translation unit. -/
theorem generate_eq (u : TranslationUnit) :
    generate u.sourceManager u.decls =
      if ∀ d ∈ passes u.sourceManager u.decls, d.identifier.isSome = true then
        some ⟨0 + BitVec.ofNat 32 (passes u.sourceManager u.decls).length,
          entries u.sourceManager 0 (passes u.sourceManager u.decls),
          passes u.sourceManager u.decls⟩
      else none :=
  (traverse_eq u.decls _).trans (foldlM_visit
    (fun _ hd => varDecl_of_mem (mem_varDecls_of_mem_passes hd))
    (fun d hd => u.outsideMacros d (mem_varDecls_of_mem_passes hd)) _)

/-- Variables that all have names are at different places. -/
theorem nodup_locations (h : ∀ d ∈ u.varDecls, d.identifier.isSome = true) :
    (u.varDecls.map Decl.location).Nodup := by
  have hdistinct : ((u.varDecls.filter (·.identifier.isSome)).map Decl.location).Nodup :=
    u.distinct
  rwa [List.filter_eq_self.mpr h] at hdistinct

/-- Then a variable has as many entries as the traversal comes to it. -/
theorem count_entries (h : ∀ d ∈ u.varDecls, d.identifier.isSome = true) {d : Decl}
    (hd : d ∈ u.varDecls) :
    ((entries u.sourceManager 0 (passes u.sourceManager u.decls)).filter
      (·.offset = offset u.sourceManager d)).length =
        (passes u.sourceManager u.decls).count d := by
  refine length_filter_entries (fun e he heq => ?_) 0
  have hmem := mem_varDecls_of_mem_passes he
  exact List.inj_on_of_nodup_map (nodup_locations h) hmem hd
    (offset_injective (u.outsideMacros e hmem) (u.outsideMacros d hd) heq)

/-- **When the list is as it should be**: the visitor comes to the end and every entry is right
exactly if every variable of the main file has a name and the traversal comes to it once. -/
theorem renames_iff (u : TranslationUnit) :
    (∃ s, generate u.sourceManager u.decls = some s ∧ u.Renames s) ↔
      (∀ d ∈ u.varDecls, d.identifier.isSome = true) ∧ PassedOnce u.sourceManager u.decls := by
  constructor
  · rintro ⟨s, hs, h⟩
    rw [generate_eq] at hs
    split at hs
    · rename_i hpassed
      cases hs
      have hnamed : ∀ d ∈ u.varDecls, d.identifier.isSome = true :=
        fun d hd => hpassed d (h.visited d hd)
      refine ⟨hnamed, passedOnce_of_count (List.Nodup.of_map _ (nodup_locations hnamed)) ?_⟩
      intro d hd
      rw [← count_entries hnamed hd]
      exact h.named d hd (hnamed d hd)
    · cases hs
  · rintro ⟨hnamed, honce⟩
    have hpasses := honce.passes_eq
    have hlocations := nodup_locations hnamed
    refine ⟨_, (generate_eq u).trans
      (if_pos fun d hd => hnamed d (mem_varDecls_of_mem_passes hd)), ?_, ?_, ?_, ?_⟩
    · intro d hd
      rwa [hpasses]
    · intro d hd _
      refine (count_entries hnamed hd).trans ?_
      rw [hpasses]
      exact List.count_eq_one_of_mem (List.Nodup.of_map _ hlocations) hd
    · intro e he
      obtain ⟨d, hd, hoffset, -⟩ := exists_of_mem_entries he
      have hmem := mem_varDecls_of_mem_passes hd
      exact ⟨d, hmem, hnamed d hmem, hoffset⟩
    · refine nodup_newNames ?_ 0
      rw [hpasses]
      exact length_le hlocations

/-- `void f(int a, int __R_1_a);`, in a main file that starts at 1 -/
def parameters : TranslationUnit where
  sourceManager := ⟨fun _ => true, 1⟩
  decls := .decl ⟨.file 6, .other⟩ (.append
    (.decl ⟨.file 12, .varDecl (some "a")⟩ .none)
    (.decl ⟨.file 19, .varDecl (some "__R_1_a")⟩ .none))
  outsideMacros d hd := by
    rcases List.mem_pair.mp hd with rfl | rfl
    · exact ⟨12, rfl⟩
    · exact ⟨19, rfl⟩
  distinct := by decide

-- A name that looks like a new one is renamed as well.
example :
    (generate parameters.sourceManager parameters.decls).map LstGenVisitor.outs =
      some [⟨11, "__R_1_a"⟩, ⟨18, "__R_2___R_1_a"⟩] := by
  decide

/-- `void f(int);`: the main file starts at 1, and what would be the name of the parameter is
at the bracket. -/
def prototype : TranslationUnit where
  sourceManager := ⟨fun _ => true, 1⟩
  decls := .decl ⟨.file 6, .other⟩ (.decl ⟨.file 11, .varDecl none⟩ .none)
  outsideMacros d hd := by
    rw [List.mem_singleton.mp hd]
    exact ⟨11, rfl⟩
  distinct := List.nodup_nil

/-- A parameter without a name is the end of the visitor. -/
theorem prototype_not_renamed :
    generate prototype.sourceManager prototype.decls = none ∧
      ¬∃ s, generate prototype.sourceManager prototype.decls = some s ∧ prototype.Renames s := by
  have hnone : generate prototype.sourceManager prototype.decls = none := rfl
  refine ⟨hnone, ?_⟩
  rintro ⟨s, hs, -⟩
  rw [hnone] at hs
  cases hs

end TranslationUnit

end RenameList
end Clpkm
