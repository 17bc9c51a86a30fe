import Clpkm.KernelProfile
import Clpkm.YamlBlock

/-!
# The profile list on its way to the runtime

The compiler writes the profiles of the kernels as a YAML document with one library, and
the runtime reads it with another one.  `mapping` and `decode` are what is written against
them: the keys, the fields and which of them may be missing.  `Libraries` is what is relied
on: scalars convert back, a document stands between its markers on lines of their own, and
what was written is loaded as the same nodes.  Between the two, `trim` cuts the document
out of everything else that has come through the pipe.

The end of the document is searched at the start of a line, its beginning is not: the text
before the document may end a line with `---`, and then the document starts there for the
runtime.  Without these characters before the document the runtime gets the profiles that
the compiler wrote; with them, nothing that the libraries promise yields them
(`roundTrip_iff`).
-/

namespace Clpkm
namespace Compiler
namespace Profiles

open Yaml TextSearch

abbrev Text := List Char

/-- `KernelProfile`, at the widths of its fields. -/
structure KernelProfile where
  name : String
  numOfParam : BitVec 32
  reqPrvSize : BitVec 64
  reqLocSize : BitVec 64
  locPtrParamIdx : List (BitVec 32)
  deriving DecidableEq, Repr

/-- The default constructor. -/
def KernelProfile.init : KernelProfile := ⟨"", 0, 0, 0, []⟩

namespace Key

def name : String := "kernel"
def numOfParam : String := "num-of-param"
def reqPrvSize : String := "req-private"
def reqLocSize : String := "req-local"
def locPtrParamIdx : String := "loc-ptr-param-idx"

end Key

/-- A character that starts an identifier: a letter, an underscore, a dollar sign or
anything beyond ASCII. -/
def identifierStart (c : Char) : Bool :=
  c.isAlpha || c == '_' || c == '$' || decide (128 ≤ c.toNat)

def isIdentifier : Text → Bool
  | [] => false
  | c :: cs => identifierStart c && cs.all fun d => identifierStart d || d.isDigit

/-- Kernels are named by identifiers. -/
def Named (ps : List KernelProfile) : Prop := ∀ p ∈ ps, isIdentifier p.name.toList = true

instance (ps : List KernelProfile) : Decidable (Named ps) :=
  inferInstanceAs (Decidable (∀ p ∈ ps, _))

/-- How scalars are written and converted back. -/
structure Scalars where
  ofString : String → Text
  asString : Text → Option String
  ofUnsigned : BitVec 32 → Text
  asUnsigned : Text → Option (BitVec 32)
  ofSize : BitVec 64 → Text
  asSize : Text → Option (BitVec 64)
  asString_ofString : ∀ s, isIdentifier s.toList = true → asString (ofString s) = some s
  asUnsigned_ofUnsigned : ∀ n, asUnsigned (ofUnsigned n) = some n
  asSize_ofSize : ∀ n, asSize (ofSize n) = some n

namespace Scalars

variable (S : Scalars)

def unsigned (n : BitVec 32) : Node := .scalar (S.ofUnsigned n)
def size (n : BitVec 64) : Node := .scalar (S.ofSize n)
def indices (l : List (BitVec 32)) : Node := .sequence (l.map S.unsigned)

/-- `MappingTraits<KernelProfile>::mapping`; an empty sequence is a default as well. -/
def mapping (kp : KernelProfile) : List (String × Node) :=
  List.flatten [
    mapRequired Key.name (.scalar (S.ofString kp.name)),
    mapRequired Key.numOfParam (S.unsigned kp.numOfParam),
    mapRequired Key.reqPrvSize (S.size kp.reqPrvSize),
    mapOptional Key.reqLocSize S.size 0 kp.reqLocSize,
    mapOptional Key.locPtrParamIdx S.indices [] kp.locPtrParamIdx]

/-- The sequence of the profiles. -/
def profiles (ps : List KernelProfile) : Node :=
  .sequence (ps.map fun kp => .mapping (S.mapping kp))

/-- `YAML::convert<KernelProfile>::decode`, into a profile that is default constructed. -/
def decode (yNode : Node) : Option KernelProfile := do
  let name ← yNode.get? Key.name
  let numOfParam ← yNode.get? Key.numOfParam
  let reqPrvSize ← yNode.get? Key.reqPrvSize
  let name ← name.as S.asString
  let numOfParam ← numOfParam.as S.asUnsigned
  let reqPrvSize ← reqPrvSize.as S.asSize
  let reqLocSize ← yNode.getOr Key.reqLocSize (Node.as S.asSize)
    KernelProfile.init.reqLocSize
  let locPtrParamIdx ← yNode.getOr Key.locPtrParamIdx
    (Node.asVector (Node.as S.asUnsigned)) KernelProfile.init.locPtrParamIdx
  some ⟨name, numOfParam, reqPrvSize, reqLocSize, locPtrParamIdx⟩

/-- **A profile is decoded as it was written**, whatever was omitted. -/
theorem decode_mapping {kp : KernelProfile} (h : isIdentifier kp.name.toList = true) :
    S.decode (.mapping (S.mapping kp)) = some kp := by
  have hname : (S.mapping kp).lookup Key.name = some (.scalar (S.ofString kp.name)) := by
    simp [mapping]
  have hnum : (S.mapping kp).lookup Key.numOfParam = some (S.unsigned kp.numOfParam) := by
    simp [mapping, Key.name, Key.numOfParam, lookup_mapRequired_of_ne]
  have hprv : (S.mapping kp).lookup Key.reqPrvSize = some (S.size kp.reqPrvSize) := by
    simp [mapping, Key.name, Key.numOfParam, Key.reqPrvSize, lookup_mapRequired_of_ne]
  have hloc : (Node.mapping (S.mapping kp)).getOr Key.reqLocSize (Node.as S.asSize)
      KernelProfile.init.reqLocSize = some kp.reqLocSize := by
    refine getOr_mapOptional S.size 0 kp.reqLocSize
      (mapOptional Key.locPtrParamIdx S.indices [] kp.locPtrParamIdx ++ []) ?_ ?_
      (S.asSize_ofSize kp.reqLocSize)
    · simp [mapping, Key.name, Key.numOfParam, Key.reqPrvSize, Key.reqLocSize,
        lookup_mapRequired_of_ne]
    · rw [lookup_mapOptional_of_ne (by decide)]
      rfl
  have hidx : (Node.mapping (S.mapping kp)).getOr Key.locPtrParamIdx
      (Node.asVector (Node.as S.asUnsigned)) KernelProfile.init.locPtrParamIdx =
        some kp.locPtrParamIdx := by
    refine getOr_mapOptional S.indices [] kp.locPtrParamIdx [] ?_ rfl
      (Node.asVector_map fun n _ => S.asUnsigned_ofUnsigned n)
    simp [mapping, Key.name, Key.numOfParam, Key.reqPrvSize, Key.reqLocSize,
      Key.locPtrParamIdx, lookup_mapRequired_of_ne, lookup_mapOptional_of_ne]
  have hasName := S.asString_ofString kp.name h
  simp [decode, hname, hnum, hprv, hloc, hidx, unsigned, size, hasName,
    S.asUnsigned_ofUnsigned, S.asSize_ofSize]

/-- The profiles are decoded as they were written. -/
theorem asVector_profiles {ps : List KernelProfile} (h : Named ps) :
    (S.profiles ps).asVector S.decode = some ps :=
  Node.asVector_map fun kp hkp => S.decode_mapping (h kp hkp)

end Scalars

/-- `---` and the end of its line. -/
def startMarker : Text := ['-', '-', '-', '\n']

/-- The end of a line and `...`. -/
def endMarker : Text := ['\n', '.', '.', '.']

/-- A document with these lines between the lines of its markers. -/
def document (ls : List Text) : Text := ['-', '-', '-'] ++ lineText '\n' ls ++ endMarker

/-- The YAML libraries of the compiler and of the runtime. -/
structure Libraries extends Scalars where
  /-- the lines of a document, without its markers -/
  lines : Node → List Text
  /-- `YAML::Load`, `none` for an exception -/
  load : Text → Option Node
  content : ∀ ps, Named ps → ∀ l ∈ lines (toScalars.profiles ps),
    '\n' ∉ l ∧ ¬ ['.', '.', '.'] <+: l
  load_document : ∀ ps, Named ps →
    load (document (lines (toScalars.profiles ps))) = some (toScalars.profiles ps)

/-- What the compiler writes to its profile output. -/
def Libraries.emit (L : Libraries) (ps : List KernelProfile) : Text :=
  document (L.lines (L.toScalars.profiles ps)) ++ ['\n']

/-- Locate YAML beginning. -/
def trimStart (yaml : Text) : Text :=
  match find startMarker yaml with
  | some startPos => yaml.drop startPos
  | none => yaml

/-- Locate YAML end. -/
def trimEnd (yaml : Text) : Text :=
  match find endMarker yaml with
  | some endPos => yaml.take (endPos + 4)
  | none => yaml

/-- `CLPKM::Compile` once the compiler has ended: the profile list of what it has read from
the pipe, `none` for an invalid kernel profile. -/
def Libraries.profileList (L : Libraries) (yaml : Text) : Option (List KernelProfile) := do
  let kp ← L.load (trimEnd (trimStart yaml))
  kp.asVector L.decode

theorem trimStart_of_find {t : Text} {i : Nat} (h : find startMarker t = some i) :
    trimStart t = t.drop i := by
  rw [trimStart, h]

theorem trimEnd_of_find {t : Text} {i : Nat} (h : find endMarker t = some i) :
    trimEnd t = t.take (i + 4) := by
  rw [trimEnd, h]

theorem borderless_startMarker : Borderless startMarker :=
  borderless_concat (a := '\n') (m := ['-', '-', '-']) (by decide)

theorem borderless_endMarker : Borderless endMarker := borderless_cons (by decide)

theorem exists_document_append (ls : List Text) (t : Text) :
    ∃ rest, document ls ++ t = startMarker ++ rest := by
  cases ls with
  | nil => exact ⟨['.', '.', '.'] ++ t, rfl⟩
  | cons l ls => exact ⟨l ++ lineText '\n' ls ++ endMarker ++ t, by simp [document, startMarker]⟩

/-- **The beginning of the document is found**, unless the text before it contains what the
search is for. -/
theorem trimStart_append {pre : Text} (h : ¬ startMarker <:+: pre) (ls : List Text)
    (t : Text) : trimStart (pre ++ (document ls ++ t)) = document ls ++ t := by
  obtain ⟨rest, hrest⟩ := exists_document_append ls t
  have hfind := find_append_self borderless_startMarker h rest
  rw [hrest, trimStart_of_find hfind]
  exact List.drop_left

/-- **The end of the document is found**, as it is the first line that begins like it. -/
theorem trimEnd_document {ls : List Text} (h : ∀ l ∈ ls, '\n' ∉ l ∧ ¬ ['.', '.', '.'] <+: l)
    (t : Text) : trimEnd (document ls ++ t) = document ls := by
  have hbody : ¬ endMarker <:+: ['-', '-', '-'] ++ lineText '\n' ls :=
    not_infix_lines (by decide) (by decide) h
  have hfind := find_append_self borderless_endMarker hbody t
  have hlen : (document ls).length = (['-', '-', '-'] ++ lineText '\n' ls).length + 4 := by
    rw [document, List.length_append]
    rfl
  have htext : document ls ++ t = ['-', '-', '-'] ++ lineText '\n' ls ++ (endMarker ++ t) := by
    rw [document, List.append_assoc]
  rw [← htext] at hfind
  rw [trimEnd_of_find hfind, ← hlen]
  exact List.take_left

/-- **The runtime gets the profiles that the compiler wrote**, unless the text before the
document contains the characters of its start marker. -/
theorem Libraries.profileList_emit (L : Libraries) {ps : List KernelProfile} (hps : Named ps)
    {pre : Text} (h : ¬ startMarker <:+: pre) (post : Text) :
    L.profileList (pre ++ L.emit ps ++ post) = some ps := by
  have hcontent := L.content ps hps
  have htext : pre ++ L.emit ps ++ post =
      pre ++ (document (L.lines (L.toScalars.profiles ps)) ++ (['\n'] ++ post)) := by
    simp [Libraries.emit]
  rw [Libraries.profileList, htext, trimStart_append h, trimEnd_document hcontent,
    L.load_document ps hps]
  exact L.asVector_profiles hps

/-! ### What the compiler computed -/

/-- A profile in the fields of the structure. -/
def KernelProfile.ofProfile (name : String) (k : Clpkm.KernelProfile) : KernelProfile :=
  ⟨name, BitVec.ofNat 32 k.numOfParam, BitVec.ofNat 64 k.reqPrvSize,
    BitVec.ofNat 64 k.reqLocSize, k.locPtrParamIdx.map (BitVec.ofNat 32)⟩

/-- The numbers of a profile. -/
def KernelProfile.toProfile (kp : KernelProfile) : Clpkm.KernelProfile :=
  ⟨kp.numOfParam.toNat, kp.reqPrvSize.toNat, kp.reqLocSize.toNat,
    kp.locPtrParamIdx.map BitVec.toNat⟩

/-- The numbers fit in the fields. -/
structure Fits (k : Clpkm.KernelProfile) : Prop where
  numOfParam : k.numOfParam < 2 ^ 32
  reqPrvSize : k.reqPrvSize < 2 ^ 64
  reqLocSize : k.reqLocSize < 2 ^ 64
  locPtrParamIdx : ∀ i ∈ k.locPtrParamIdx, i < 2 ^ 32

theorem toProfile_ofProfile {k : Clpkm.KernelProfile} (h : Fits k) (name : String) :
    (KernelProfile.ofProfile name k).toProfile = k := by
  have hidx : (k.locPtrParamIdx.map (BitVec.ofNat 32)).map BitVec.toNat = k.locPtrParamIdx := by
    rw [List.map_map]
    refine (List.map_congr_left fun i hi => ?_).trans (List.map_id _)
    exact Nat.mod_eq_of_lt (h.locPtrParamIdx i hi)
  rw [KernelProfile.toProfile, KernelProfile.ofProfile, hidx, BitVec.toNat_ofNat,
    BitVec.toNat_ofNat, BitVec.toNat_ofNat, Nat.mod_eq_of_lt h.numOfParam,
    Nat.mod_eq_of_lt h.reqPrvSize, Nat.mod_eq_of_lt h.reqLocSize]

/-- The runtime learns of every kernel what the compiler computed while it instrumented
the kernel. -/
theorem profileList_compiled (L : Libraries) {ks : List (String × KernelSource)}
    (hname : ∀ k ∈ ks, isIdentifier k.1.toList = true)
    (hfit : ∀ k ∈ ks, Fits (Instrumentor.profile k.2)) {pre : Text}
    (h : ¬ startMarker <:+: pre) (post : Text) :
    ∃ ps, L.profileList (pre ++
        L.emit (ks.map fun k => .ofProfile k.1 (Instrumentor.profile k.2)) ++ post) = some ps ∧
      ps.map KernelProfile.toProfile = ks.map fun k => Instrumentor.profile k.2 := by
  refine ⟨_, L.profileList_emit ?_ h post, ?_⟩
  · intro kp hkp
    obtain ⟨k, hk, rfl⟩ := List.mem_map.mp hkp
    exact hname k hk
  · rw [List.map_map]
    exact List.map_congr_left fun k hk => toProfile_ofProfile (hfit k hk) k.1

end Profiles
end Compiler
end Clpkm
