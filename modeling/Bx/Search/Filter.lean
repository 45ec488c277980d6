import Bx.Search.IgnoreStateSound

/-!
# The walker's filter

Whether the walker skips an entry (`src/search/filter.c`): hidden names, the type filter (`entryMatchesType` is a
parameter), the ignore chain and the exclude patterns. `ignoreVerdict` asks the whole chain for one kind of rule before
the next, `stateMatchesPath` one directory for every kind: a search of one grid by rows and by columns.
-/

namespace Bx.Filter

open Bx.Kit Bx.IgnoreProgram Bx.IgnoreState

inductive DType
  | reg
  | dir
  | lnk
  | fifo
  | sock
  | blk
  | chr
  | unknown
  deriving DecidableEq

/-- `dType` is `none` where the directory read did not tell. -/
structure WalkEntry where
  path : CStr
  dType : Option DType
  isDir : Bool

structure IncludePattern where
  pattern : Option CStr
  casefold : Bool

/-- `typeFilter` is `none` for the NUL character. -/
structure FilterOpts where
  hidden : Bool
  typeFilter : Option Char
  globCaseInsensitive : Bool
  includePatterns : List IncludePattern
  excludePatterns : List (Option CStr)
  excludeDirs : List CStr

structure FilterState where
  opts : Option FilterOpts
  rootPath : Option CStr

inductive TypeMatch
  | no
  | yes
  | deferMetadata
  deriving DecidableEq

/-! ## The parts of the filter -/

def filterRelativePath (state : FilterState) (path : CStr) : CStr :=
  ((state.rootPath.bind (belowDirectory · path))).getD path

def entryMatchesTypeWithoutMetadata (entry : WalkEntry) (typeFilter : Char) : TypeMatch :=
  if typeFilter = 'f' then known .reg
  else if typeFilter = 'd' then if entry.isDir then .yes else .no
  else if typeFilter = 'l' then known .lnk
  else if typeFilter = 'x' then
    match entry.dType with
    | none | some .reg => .deferMetadata
    | some _ => .no
  else if typeFilter = 'e' then
    if entry.isDir then .deferMetadata
    else
      match entry.dType with
      | none | some .reg => .deferMetadata
      | some _ => .no
  else if typeFilter = 'p' then known .fifo
  else if typeFilter = 's' then known .sock
  else if typeFilter = 'b' then known .blk
  else if typeFilter = 'c' then known .chr
  else .no
where
  known (wanted : DType) : TypeMatch :=
    match entry.dType with
    | none => .deferMetadata
    | some dType => if dType = wanted then .yes else .no

def filterTypeMatch (state : FilterState) (entry : WalkEntry) : TypeMatch :=
  match state.opts.bind (·.typeFilter) with
  | none => .yes
  | some typeFilter => entryMatchesTypeWithoutMetadata entry typeFilter

section
variable (L : Libc)

def patternMatches (pattern : Option CStr) (casefold : Bool) (name relativePath : CStr) : Bool :=
  match pattern with
  | none | some [] => false
  | some pattern => L.fnmatch pattern name ⟨false, casefold⟩ ||
      (!relativePath.isEmpty && L.fnmatch pattern relativePath ⟨true, casefold⟩)

def filterMatchesIncludeRelative (state : FilterState) (name relativePath : CStr) : Bool :=
  match state.opts with
  | none => false
  | some opts => opts.includePatterns.any fun p =>
      patternMatches L p.pattern (opts.globCaseInsensitive || p.casefold) name relativePath

def filterMatchesExclude (state : FilterState) (name relativePath : CStr) : Bool :=
  match state.opts with
  | none => false
  | some opts => opts.excludePatterns.any fun p =>
      patternMatches L p opts.globCaseInsensitive name relativePath

def filterMatchesExcludeDir (state : FilterState) (name : CStr) : Bool :=
  match state.opts with
  | none => false
  | some opts => opts.excludeDirs.any fun pattern => L.fnmatch pattern name ⟨false, opts.globCaseInsensitive⟩

def filterIsHidden (name : CStr) : Bool := name.head? = some '.'

def filterHiddenPolicyShouldSkip (state : FilterState) (name path : CStr) : Bool :=
  match state.opts with
  | none => false
  | some opts => !opts.hidden && filterIsHidden name &&
      !filterMatchesIncludeRelative L state name (filterRelativePath state path)

section
variable (chain : List State) (name path relativePath : CStr) (isDir : Bool)

/-- What is known of the entry at `ignore_complete`. -/
def literalIgnore : MatchResult :=
  let basenameIgnore := stateMatchWithMode L chain name path relativePath isDir .literalBasename
  if basenameIgnore ≠ .noMatch then basenameIgnore
  else if stateIsBasenameOnlyChain chain then .noMatch
  else
    (stateMatchWithMode L chain name path relativePath isDir .literalExtension).orElse
      ((stateMatchWithMode L chain name path relativePath isDir .literalDirectory).orElse
        (stateMatchWithMode L chain name path relativePath isDir .anchoredPrefix))

def genericGlobIgnore : MatchResult :=
  if stateIsBasenameOnlyChain chain then .noMatch
  else if stateHasGenericGlobFallbackChain chain then
    stateMatchWithMode L chain name path relativePath isDir .genericGlobFallback
  else .noMatch

def ignoreVerdict : MatchResult :=
  (literalIgnore L chain name path relativePath isDir).orElse
    (genericGlobIgnore L chain name path relativePath isDir)

end

structure FilterResult where
  skip : Bool
  selected : Bool

def walkFilterShouldSkip (entryMatchesType : WalkEntry → Char → Bool) (state : FilterState) (entry : WalkEntry)
    (chain : List State) : FilterResult :=
  let name := PathOps.basenamePtr entry.path
  let path := entry.path
  if filterHiddenPolicyShouldSkip L state name path then ⟨true, true⟩
  else
    let typeMatch := filterTypeMatch state entry
    if typeMatch = .no ∧ !entry.isDir then ⟨false, false⟩
    else
      let relativePath := filterRelativePath state path
      let literal := literalIgnore L chain name path relativePath entry.isDir
      if literal = .excluded then ⟨true, true⟩
      else
        let selected := match typeMatch with
          | .yes => true
          | .no => false
          | .deferMetadata => match state.opts.bind (·.typeFilter) with
            | none => true
            | some typeFilter => entryMatchesType entry typeFilter
        if typeMatch = .deferMetadata ∧ !selected ∧ !entry.isDir then ⟨false, false⟩
        else if literal = .noMatch ∧ genericGlobIgnore L chain name path relativePath entry.isDir = .excluded then
          ⟨true, true⟩
        else if filterMatchesExcludeDir L state name then ⟨true, true⟩
        else if filterMatchesExclude L state name relativePath then ⟨true, true⟩
        else ⟨false, selected⟩

end

section
variable {L : Libc} {chain : List State} (name path relativePath : CStr) (isDir : Bool)

/-! ## The verdict as a search by rows -/

theorem answer_ne_noMatch {r : MatchResult} (h : r ≠ .noMatch) : answer r = some r := by
  cases r with
  | noMatch => exact absurd rfl h
  | included => rfl
  | excluded => rfl

theorem answer_eq_none_iff {r : MatchResult} : answer r = none ↔ r = .noMatch := by
  cases r <;> simp [answer]

section
variable (h : ChainWf L chain)
include h

theorem answer_literalIgnore : answer (literalIgnore L chain name path relativePath isDir) =
      ((answer (stateMatchWithMode L chain name path relativePath isDir .literalBasename)).or
        ((answer (stateMatchWithMode L chain name path relativePath isDir .literalExtension)).or
          ((answer (stateMatchWithMode L chain name path relativePath isDir .literalDirectory)).or
            (answer (stateMatchWithMode L chain name path relativePath isDir .anchoredPrefix))))) := by
  unfold literalIgnore
  by_cases hbase : stateMatchWithMode L chain name path relativePath isDir .literalBasename = .noMatch
  · simp only [hbase, ne_eq, not_true_eq_false, if_false]
    by_cases hb : stateIsBasenameOnlyChain chain = true
    · have hskip : ∀ mode ∈ stages, mode ≠ .literalBasename →
          answer (stateMatchWithMode L chain name path relativePath isDir mode) = none :=
        fun _ hm hne => stateMatchWithMode_of_basenameOnly name path relativePath isDir h hb hm hne
      rw [if_pos hb, hskip .literalExtension (by decide) (by decide), hskip .literalDirectory (by decide) (by decide),
        hskip .anchoredPrefix (by decide) (by decide)]
      rfl
    · rw [if_neg hb, answer_orElse, answer_orElse]
      rfl
  · simp only [hbase, ne_eq, not_false_eq_true, if_true]
    rw [answer_ne_noMatch hbase]
    rfl

theorem answer_genericGlobIgnore : answer (genericGlobIgnore L chain name path relativePath isDir) =
      answer (stateMatchWithMode L chain name path relativePath isDir .genericGlobFallback) := by
  unfold genericGlobIgnore
  by_cases hb : stateIsBasenameOnlyChain chain = true
  · rw [if_pos hb, stateMatchWithMode_of_basenameOnly name path relativePath isDir h hb (by decide) (by decide)]
    rfl
  rw [if_neg hb]
  by_cases hg : stateHasGenericGlobFallbackChain chain = true
  · rw [if_pos hg]
  · rw [if_neg hg, stateMatchWithMode_of_no_glob name path relativePath isDir h hg]
    rfl

theorem answer_ignoreVerdict : answer (ignoreVerdict L chain name path relativePath isDir) =
      rowsFirst (stageAnswer L name path relativePath isDir) stages chain := by
  rw [ignoreVerdict, answer_orElse, answer_literalIgnore name path relativePath isDir h,
    answer_genericGlobIgnore name path relativePath isDir h]
  simp only [answer_stateMatchWithMode, rowsFirst, stages, List.findSome?_cons, List.findSome?_nil]
  cases chain.findSome? (stageAnswer L name path relativePath isDir .literalBasename) with
  | some r => rfl
  | none =>
  cases chain.findSome? (stageAnswer L name path relativePath isDir .literalExtension) with
  | some r => rfl
  | none =>
  cases chain.findSome? (stageAnswer L name path relativePath isDir .literalDirectory) with
  | some r => rfl
  | none =>
  cases chain.findSome? (stageAnswer L name path relativePath isDir .anchoredPrefix) with
  | some r => rfl
  | none => cases chain.findSome? (stageAnswer L name path relativePath isDir .genericGlobFallback) <;> rfl

theorem ignoreVerdict_eq_noMatch_iff : ignoreVerdict L chain name path relativePath isDir = .noMatch ↔
      stateMatchWithMode L chain name path relativePath isDir .full = .noMatch := by
  rw [← answer_eq_none_iff, ← answer_eq_none_iff, answer_ignoreVerdict name path relativePath isDir h, answer_full, ← not_iff_not]
  exact rowsFirst_ne_none.trans columnsFirst_ne_none.symm

end

end

/-- **Walker agreement.** The walker excludes an entry exactly when the chain
does, exactly where the order of stages does not cross the order of states. -/
theorem ignoreVerdict_excluded_iff {L : Libc} {chain : List State} (h : Built L chain)
    (name path rootRelativePath : CStr) (isDir : Bool) :
    (ignoreVerdict L chain name path rootRelativePath isDir = .excluded ↔
        stateMatchesPath L chain name path rootRelativePath isDir = true) ↔
      ¬ StagesCross L name path rootRelativePath isDir chain := by
  have hw := built_wf h
  have hno := ignoreVerdict_eq_noMatch_iff name path rootRelativePath isDir hw
  rw [← rowsFirst_eq_columnsFirst_iff, ← answer_ignoreVerdict name path rootRelativePath isDir hw, ← answer_full,
    stateMatchesPath, decide_eq_true_iff]
  constructor
  · intro hiff
    refine congrArg answer ?_
    cases hv : ignoreVerdict L chain name path rootRelativePath isDir with
    | excluded => exact (hiff.mp hv).symm
    | noMatch => exact (hno.mp hv).symm
    | included =>
      -- the other answer is neither of the two
      cases hm : stateMatchWithMode L chain name path rootRelativePath isDir .full with
      | included => rfl
      | excluded => rw [hiff.mpr hm] at hv; cases hv
      | noMatch => rw [hno.mpr hm] at hv; cases hv
  · intro heq
    rw [answer_injective heq]

theorem ignoreVerdict_excluded_iff_log : ∃ parent child, compile posixLibc [some "foo.c".toList] false = some parent ∧
      compile posixLibc [some "*.log".toList] false = some child ∧
      let chain := [stateInit [stateInit [] (some "r".toList) (some parent)] (some "r/d".toList) (some child),
        stateInit [] (some "r".toList) (some parent)]
      ((ignoreVerdict posixLibc chain "foo.c".toList "r/d/foo.c".toList "d/foo.c".toList false = .excluded ↔
          stateMatchesPath posixLibc chain "foo.c".toList "r/d/foo.c".toList "d/foo.c".toList false = true) ↔
        ¬ StagesCross posixLibc "foo.c".toList "r/d/foo.c".toList "d/foo.c".toList false chain) := by
  have hp : compile posixLibc [some "foo.c".toList] false = some _ := rfl
  have hc : compile posixLibc [some "*.log".toList] false = some _ := rfl
  refine ⟨_, _, hp, hc, ignoreVerdict_excluded_iff ?_ _ _ _ _⟩
  exact .init _ (.init _ .nil fun p e => Option.some.inj e ▸ ⟨_, _, hp⟩) fun p e => Option.some.inj e ▸ ⟨_, _, hc⟩

/-- `foo.c` in the parent directory, `!foo*` in the child: the child's rule is
a glob, which the walker asks for last. -/
theorem walker_prefers_parent_basename :
    ¬ ∀ (L : Libc) (chain : List State), Built L chain → ∀ (name path rootRelativePath : CStr) (isDir : Bool),
      (ignoreVerdict L chain name path rootRelativePath isDir = .excluded ↔
        stateMatchesPath L chain name path rootRelativePath isDir = true) := by
  intro h
  have hp : compile posixLibc [some "foo.c".toList] false = some _ := rfl
  have hc : compile posixLibc [some "!foo*".toList] false = some _ := rfl
  have hans := h posixLibc _
    (.init (some "r/d".toList) (.init (some "r".toList) .nil fun p e => Option.some.inj e ▸ ⟨_, _, hp⟩)
      fun p e => Option.some.inj e ▸ ⟨_, _, hc⟩)
    "foo.c".toList "r/d/foo.c".toList "d/foo.c".toList false
  revert hans
  decide +kernel

end Bx.Filter
