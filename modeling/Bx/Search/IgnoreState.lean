import Bx.Search.IgnoreProgram

/-!
# Chains of ignore states

One ignore state per directory with ignore rules, nearest directory first (`src/search/ignore.c`). A program is asked
about the entry's path below its directory; `stateMatchWithMode` goes up the chain until one answers.
-/

namespace Bx.IgnoreState

open Bx.Kit Bx.IgnoreProgram

structure State where
  dirpath : Option CStr
  rootPrefix : Option CStr
  program : Option Program
  basenameOnlyChain : Bool
  hasGenericGlobFallbackChain : Bool

inductive MatchMode
  | literalBasename
  | literalExtension
  | literalDirectory
  | anchoredPrefix
  | genericGlobFallback
  | fullNoGenericGlobFallback
  | full
  deriving DecidableEq

def belowDirectory (dirpath path : CStr) : Option CStr :=
  if dirpath.isPrefixOf path then
    match path.drop dirpath.length with
    | [] => some []
    | '/' :: relativePath => some relativePath
    | _ => none
  else none

/-! ## Building chains -/

def stateInit (parents : List State) (dirpath : Option CStr) (program : Option Program) : State :=
  { dirpath
    rootPrefix := none
    program
    basenameOnlyChain := parents.head?.all (·.basenameOnlyChain) && program.all (·.basenameOnly)
    hasGenericGlobFallbackChain :=
      parents.head?.any (·.hasGenericGlobFallbackChain) || program.any hasGenericGlobFallback }

def appendState (chain : List State) (program : Option Program) (dirpath rootPrefix : Option CStr) : List State :=
  match program with
  | none => chain
  | some program => { stateInit chain dirpath (some program) with rootPrefix } :: chain

def stateCloneChain : List State → List State
  | [] => []
  | state :: parents =>
    let parents := stateCloneChain parents
    { stateInit parents state.dirpath state.program with rootPrefix := state.rootPrefix } :: parents

def rewriteRootPrefix (state : State) (currentRoot subtreeRoot : CStr) : Option CStr :=
  if state.dirpath.isSome then none
  else
    (belowDirectory currentRoot subtreeRoot).map fun suffix =>
      let base := state.rootPrefix.getD []
      if base.isEmpty || suffix.isEmpty then base ++ suffix else base ++ '/' :: suffix

def stateRewriteRootPrefixes (chain : List State) (currentRoot subtreeRoot : CStr) : List State :=
  chain.map fun state => { state with rootPrefix := rewriteRootPrefix state currentRoot subtreeRoot }

def stateCloneChainForSubtree (chain : List State) (currentRoot subtreeRoot : CStr) : List State :=
  stateRewriteRootPrefixes (stateCloneChain chain) currentRoot subtreeRoot

section
variable (L : Libc)

def Compiled (program : Program) : Prop :=
  ∃ patterns casefold, compileWithSources L patterns casefold = some program

inductive Built : List State → Prop
  | nil : Built []
  | init {chain program} (dirpath : Option CStr) : Built chain → (∀ p, program = some p → Compiled L p) →
      Built (stateInit chain dirpath program :: chain)
  | append {chain program} (dirpath rootPrefix : Option CStr) : Built chain → (∀ p, program = some p → Compiled L p) →
      Built (appendState chain program dirpath rootPrefix)
  | clone {chain} : Built chain → Built (stateCloneChain chain)
  | subtree {chain} (currentRoot subtreeRoot : CStr) : Built chain →
      Built (stateCloneChainForSubtree chain currentRoot subtreeRoot)

/-! ## Matching up the chain -/

def stateRelativePath (state : State) (path rootRelativePath : CStr) : CStr :=
  match state.dirpath.bind (belowDirectory · path) with
  | some relativePath => relativePath
  | none => if state.rootPrefix.isNone then path else rootRelativePath

def stateCandidate (state : State) (path rootRelativePath : CStr) : CStr :=
  let relativePath := stateRelativePath state path rootRelativePath
  match state.rootPrefix with
  | none => relativePath
  | some rootPrefix =>
    if rootPrefix.isEmpty then relativePath
    else if relativePath.isEmpty then rootPrefix
    else rootPrefix ++ '/' :: relativePath

def programMatchWithMode (program : Program) (name relativePath : CStr) (isDir : Bool) : MatchMode → MatchResult
  | .literalBasename => matchLiteralBasename L program name relativePath isDir
  | .literalExtension => matchLiteralExtension L program name relativePath isDir
  | .literalDirectory => matchLiteralDirectory L program name relativePath isDir
  | .anchoredPrefix => matchAnchoredPrefix L program name relativePath isDir
  | .genericGlobFallback => matchGenericGlobFallback L program name relativePath isDir
  | .fullNoGenericGlobFallback => matchWithoutGenericGlobFallback L program name relativePath isDir
  | .full => programMatch L program name relativePath isDir

def stateMatch (name path rootRelativePath : CStr) (isDir : Bool) (mode : MatchMode) (state : State) : MatchResult :=
  match state.program with
  | none => .noMatch
  | some program => programMatchWithMode L program name (stateCandidate state path rootRelativePath) isDir mode

def stateMatchWithMode (chain : List State) (name path rootRelativePath : CStr) (isDir : Bool) (mode : MatchMode) :
    MatchResult :=
  match chain with
  | [] => .noMatch
  | state :: parents =>
    (stateMatch L name path rootRelativePath isDir mode state).orElse
      (stateMatchWithMode parents name path rootRelativePath isDir mode)

def stateIsBasenameOnlyChain : List State → Bool
  | [] => false
  | state :: _ => state.basenameOnlyChain

def stateHasGenericGlobFallbackChain : List State → Bool
  | [] => false
  | state :: _ => state.hasGenericGlobFallbackChain

def stateMatchesPath (chain : List State) (name path rootRelativePath : CStr) (isDir : Bool) : Bool :=
  stateMatchWithMode L chain name path rootRelativePath isDir .full = .excluded

end

end Bx.IgnoreState
