import Mathlib.Data.List.AList
import Mathlib.Tactic.Common

/-!
# The order in which calls are inlined

`Extractor` records, for each function, the calls in its declaration, in a table that is
shrunk until it is empty.  `PerformInline` replaces the calls of one function, the last
one first; before a call is replaced, `GenCodeSnippet` has all calls in the callee inlined
and puts the text of its body into a cache.  A function that is reached again while its
own calls are being inlined is an error.

The text itself is left open: `Rewriter` is what the inliner writes to, `addSnippet`
puts a function into the cache and `replace` replaces a call.  A hash table is an
association list in the order of its iteration, which erasing keeps.  The recursion is
bounded by fuel; without fuel there is no result.
-/

namespace Clpkm
namespace Inliner

universe u v w

/-- What the inliner works on: declarations of functions, calls, and the text. -/
structure Source (F : Type u) (C : Type v) (Rewriter : Type w) where
  getNameAsString : F → String
  /-- Some declaration of the function has a body. -/
  hasBody : F → Bool
  getDefinition : F → F
  getDirectCallee : C → F
  addSnippet : F → Rewriter → Rewriter
  replace : F → C → Rewriter → Rewriter
  hasBody_getDefinition : ∀ f, hasBody f = true → hasBody (getDefinition f) = true

abbrev CallSiteTable (F : Type u) (C : Type v) := AList (fun _ : F => List C)

structure State (F : Type u) (C : Type v) (Rewriter : Type w) where
  /-- `CST` -/
  callSites : CallSiteTable F C
  /-- the functions in `CC` -/
  cache : List F
  text : Rewriter

/-- The error "recursion detected": the function, and those called in between. -/
structure Report (F : Type u) where
  func : F
  between : List F
  deriving DecidableEq, Repr

variable {F : Type u} {C : Type v} {Rewriter : Type w} [DecidableEq F]

/-- The report for a function that is in the call chain: what comes behind it. -/
def report (f : F) (callChain : List F) : Report F :=
  ⟨f, (callChain.reverse.takeWhile (· ≠ f)).reverse⟩

/-- The text of the note. -/
def Report.note (S : Source F C Rewriter) (e : Report F) : String :=
  "call chain: " ++ S.getNameAsString e.func ++ " -> " ++
    String.join (e.between.map fun g => S.getNameAsString g ++ " -> ") ++
    S.getNameAsString e.func

/-- What a function of the inliner returns: a new state or an error; nothing without fuel. -/
abbrev Result (F : Type u) (C : Type v) (Rewriter : Type w) :=
  Option (Except (Report F) (State F C Rewriter))

variable (S : Source F C Rewriter)

/-- `GenCodeSnippet`, given `PerformInline` -/
def genCodeSnippet (performInline : F → State F C Rewriter → Result F C Rewriter) (f : F)
    (s : State F C Rewriter) : Result F C Rewriter :=
  if f ∈ s.cache then some (.ok s)
  else if (s.callSites.lookup f).isSome then
    match performInline f s with
    | none => none
    | some (.error e) => some (.error e)
    | some (.ok s) => some (.ok { s with cache := f :: s.cache, text := S.addSnippet f s.text })
  else some (.ok { s with cache := f :: s.cache, text := S.addSnippet f s.text })

/-- The loop of `PerformInline` over the calls in a function -/
def inlineCalls (genCodeSnippet : F → State F C Rewriter → Result F C Rewriter) (f : F) :
    List C → State F C Rewriter → Result F C Rewriter
  | [], s => some (.ok s)
  | c :: cs, s =>
    if S.hasBody (S.getDirectCallee c) then
      match genCodeSnippet (S.getDefinition (S.getDirectCallee c)) s with
      | none => none
      | some (.error e) => some (.error e)
      | some (.ok s) =>
        inlineCalls genCodeSnippet f cs { s with text := S.replace f c s.text }
    -- may be a builtin function
    else inlineCalls genCodeSnippet f cs s

/-- `PerformInline` -/
def performInline : Nat → F → List F → State F C Rewriter → Result F C Rewriter
  | 0, _, _, _ => none
  | n + 1, f, callChain, s =>
    if S.hasBody f then
      if f ∈ callChain then some (.error (report f callChain))
      else
        match s.callSites.lookup f with
        | none => some (.ok s)
        | some calls =>
          match inlineCalls S
              (genCodeSnippet S fun g s => performInline n g (callChain ++ [f]) s)
              f calls.reverse s with
          | none => none
          | some (.error e) => some (.error e)
          | some (.ok s) => some (.ok { s with callSites := s.callSites.erase f })
    -- "skipping declaration"
    else some (.ok s)

/-- `ExecuteAction` -/
def executeAction : Nat → State F C Rewriter → Result F C Rewriter
  | 0, _ => none
  | n + 1, s =>
    match s.callSites.keys with
    | [] => some (.ok s)
    | f :: _ =>
      match performInline S n f [] s with
      | none => none
      | some (.error e) => some (.error e)
      | some (.ok s) => executeAction n s

/-- The state before `ExecuteAction`. -/
def State.start (callSites : CallSiteTable F C) (text : Rewriter) : State F C Rewriter :=
  ⟨callSites, [], text⟩

/-- The call graph: a function calls the definition of another that has a body. -/
def Calls (T : CallSiteTable F C) (f g : F) : Prop :=
  ∃ cs, T.lookup f = some cs ∧ ∃ c ∈ cs, S.hasBody (S.getDirectCallee c) = true ∧
    g = S.getDefinition (S.getDirectCallee c)

end Inliner
end Clpkm
