import Bx.Kit.CString
import Bx.Kit.LastMatch
import Bx.Kit.SortedTable

/-!
# Ignore programs

The rules of one directory's ignore files (`src/search/ignore_program.c`). A rule whose pattern is a plain name, plain
extension, plain directory or plain path is also entered in a table for its kind; `programMatch` asks the tables in turn
and falls back to `fnmatch` for the rest.
-/

namespace Bx.IgnoreProgram

open Bx.Kit

inductive MatchResult
  | noMatch
  | included
  | excluded
  deriving DecidableEq

def MatchResult.orElse : MatchResult → MatchResult → MatchResult
  | .noMatch, later => later
  | result, _ => result

inductive SourceKind
  | builtin
  | gitignore
  | dotignore
  deriving DecidableEq

inductive RuleKind
  | invalid
  | literalBasename
  | literalExtension
  | literalDirectory
  | anchoredPrefix
  | genericGlob
  deriving DecidableEq

structure Rule where
  pattern : CStr
  source : SourceKind
  kind : RuleKind
  negate : Bool
  usesRelativePath : Bool
  directoryOnly : Bool
  deriving DecidableEq

def Rule.result (rule : Rule) : MatchResult := if rule.negate then .included else .excluded

structure LiteralEntry where
  name : CStr
  ruleIndex : Nat
  result : MatchResult
  deriving DecidableEq

structure AnchoredPrefix where
  prefixText : CStr
  prefixLen : Nat
  ruleIndex : Nat
  result : MatchResult
  directoryOnly : Bool
  deriving DecidableEq

structure Program where
  rules : List Rule
  literalBasenames : List LiteralEntry
  literalExtensions : List LiteralEntry
  literalDirectories : List LiteralEntry
  anchoredPrefixes : List AnchoredPrefix
  basenameOnly : Bool
  genericGlobSourceMask : Nat
  casefold : Bool
  deriving DecidableEq

def sourceMask : SourceKind → Nat
  | .builtin => 1 <<< 0
  | .gitignore => 1 <<< 1
  | .dotignore => 1 <<< 2

/-! ## Compiling a rule -/

variable (directoryOnly : Bool)

def ruleIsLiteralBasename (pattern : CStr) : Bool :=
  !directoryOnly && !pattern.isEmpty && !hasMeta pattern && !pattern.contains '/'

def ruleIsLiteralExtension (pattern : CStr) : Bool :=
  !directoryOnly && pattern[0]? = some '*' && pattern[1]? = some '.' && (pattern[2]?).isSome &&
    !hasMeta (pattern.drop 1) && !(pattern.drop 1).contains '/'

def ruleIsLiteralDirectory (pattern : CStr) : Bool :=
  directoryOnly && !pattern.isEmpty && !hasMeta pattern && !pattern.contains '/'

def ruleIsAnchoredPrefixCandidate (usesRelativePath directoryOnly : Bool) (pattern : CStr) : Bool :=
  (directoryOnly || usesRelativePath) && !pattern.isEmpty && !hasMeta pattern

def ruleClassify (usesRelativePath directoryOnly : Bool) (pattern : CStr) : RuleKind :=
  if pattern.isEmpty then .invalid
  else if ruleIsLiteralBasename directoryOnly pattern then .literalBasename
  else if ruleIsLiteralExtension directoryOnly pattern then .literalExtension
  else if ruleIsLiteralDirectory directoryOnly pattern then .literalDirectory
  else if ruleIsAnchoredPrefixCandidate usesRelativePath directoryOnly pattern then .anchoredPrefix
  else .genericGlob

/-- What `bx_ignore_rule_compile` leaves behind: a rule, no rule, or a pattern
that was allocated but could not be used. -/
inductive RuleCompile
  | compiled (rule : Rule)
  | skipped
  | failed

def skipBlanks (line : CStr) : CStr := line.dropWhile (· = ' ')

def skipChar (c : Char) (pattern : CStr) : CStr := if pattern.head? = some c then pattern.tail else pattern

def dropSlash (pattern : CStr) : CStr := if pattern.getLast? = some '/' then pattern.dropLast else pattern

def ruleCompile (line : CStr) (source : SourceKind) : RuleCompile :=
  let pattern := skipBlanks line
  if pattern.head? = some '#' || pattern.isEmpty then .skipped
  else
    let negate : Bool := pattern.head? = some '!'
    let pattern := skipChar '/' (skipChar '!' pattern)
    if pattern.isEmpty then .skipped
    else
      let directoryOnly : Bool := pattern.getLast? = some '/'
      let pattern := dropSlash pattern
      if pattern.isEmpty then .skipped
      else
        let usesRelativePath := pattern.contains '/'
        let kind := ruleClassify usesRelativePath directoryOnly pattern
        if kind = .invalid then .failed
        else .compiled ⟨pattern, source, kind, negate, usesRelativePath, directoryOnly⟩

/-- The loop over the lines; `none` is the failure exit. -/
def compileRules : List (Option CStr × SourceKind) → Option (List Rule)
  | [] => some []
  | (none, _) :: patterns => compileRules patterns
  | (some line, source) :: patterns =>
    match ruleCompile line source with
    | .compiled rule => (compileRules patterns).map (rule :: ·)
    | .skipped => compileRules patterns
    | .failed => none

/-! ## Building the tables -/

section
variable (L : Libc)

/-- The rules of one kind as table candidates, `key` being the text looked up. -/
def literalCandidates (kind : RuleKind) (key : CStr → CStr) (rules : List Rule) : List LiteralEntry :=
  rules.zipIdx.filterMap fun (rule, i) => if rule.kind = kind then some ⟨key rule.pattern, i, rule.result⟩ else none

variable (casefold : Bool)

def literalKey (entry : LiteralEntry) : CStr := L.fold casefold entry.name

def buildLiteralTable (kind : RuleKind) (key : CStr → CStr) (casefold : Bool) (rules : List Rule) : List LiteralEntry :=
  buildTable (literalKey L casefold) LiteralEntry.ruleIndex (literalCandidates kind key rules)

def buildLiteralBasenameTable (rules : List Rule) : List LiteralEntry :=
  buildLiteralTable L .literalBasename id casefold rules

def buildLiteralExtensionTable (rules : List Rule) : List LiteralEntry :=
  buildLiteralTable L .literalExtension (·.drop 1) casefold rules

def buildLiteralDirectoryTable (rules : List Rule) : List LiteralEntry :=
  buildLiteralTable L .literalDirectory id casefold rules

def entersPrefixTable (rule : Rule) : Bool := rule.kind = .anchoredPrefix || rule.kind = .literalDirectory

variable (rules : List Rule)

def buildAnchoredPrefixTable : List AnchoredPrefix :=
  rules.zipIdx.filterMap fun (rule, i) =>
    if entersPrefixTable rule then
      some ⟨rule.pattern, rule.pattern.length, i, rule.result, rule.directoryOnly⟩
    else none

def rulesAreBasenameOnly : Bool :=
  !rules.isEmpty && rules.all fun rule => rule.kind = .literalBasename

def buildGenericGlobSourceMask : Nat :=
  rules.foldl (fun mask rule => if rule.kind = .genericGlob then mask ||| sourceMask rule.source else mask) 0

def compileWithSources (patterns : List (Option CStr × SourceKind)) (casefold : Bool) : Option Program :=
  match compileRules patterns with
  | none => none
  | some [] => none
  | some rules => some
    { rules
      literalBasenames := buildLiteralBasenameTable L casefold rules
      literalExtensions := buildLiteralExtensionTable L casefold rules
      literalDirectories := buildLiteralDirectoryTable L casefold rules
      anchoredPrefixes := buildAnchoredPrefixTable rules
      basenameOnly := rulesAreBasenameOnly rules
      genericGlobSourceMask := buildGenericGlobSourceMask rules
      casefold }

def compile (patterns : List (Option CStr)) (casefold : Bool) : Option Program :=
  compileWithSources L (patterns.map (·, .builtin)) casefold

/-! ## Lookups -/

def findLiteral (table : List LiteralEntry) (casefold : Bool) (name : CStr) : Option LiteralEntry :=
  lookup (literalKey L casefold) table (L.fold casefold name)

variable (program : Program)

def findLiteralBasename (name : CStr) : Option LiteralEntry :=
  findLiteral L program.literalBasenames program.casefold name

def findLiteralExtensionExact (suffix : CStr) : Option LiteralEntry :=
  findLiteral L program.literalExtensions program.casefold suffix

def findLiteralDirectory (name : CStr) : Option LiteralEntry :=
  findLiteral L program.literalDirectories program.casefold name

/-- The suffixes of `name` that start at a dot, longest first. -/
def dotSuffixes (name : CStr) : List CStr := name.tails.filter fun suffix => suffix.head? = some '.'

def findLiteralExtension (name : CStr) : Option LiteralEntry :=
  (dotSuffixes name).foldl (fun best suffix =>
    match findLiteralExtensionExact L program suffix with
    | none => best
    | some entry => better LiteralEntry.ruleIndex best entry) none

/-- `relativePath` is at or below `prefixText`. -/
def prefixHit (casefold directoryOnly : Bool) (prefixText : CStr) (relativePath : CStr) (isDir : Bool) : Bool :=
  L.prefixEqual casefold relativePath prefixText prefixText.length &&
    match relativePath[prefixText.length]? with
    | none => !directoryOnly || isDir
    | some c => c = '/'

def ruleMatchesAnchoredPrefix (rule : Rule) (relativePath : CStr) (isDir : Bool) : Bool :=
  rule.kind = .anchoredPrefix && prefixHit L program.casefold rule.directoryOnly rule.pattern relativePath isDir

def findAnchoredPrefix (relativePath : CStr) (isDir : Bool) : Option AnchoredPrefix :=
  program.anchoredPrefixes.foldl (fun best entry =>
    if prefixHit L program.casefold entry.directoryOnly entry.prefixText relativePath isDir then
      better AnchoredPrefix.ruleIndex best entry
    else best) none

/-! ## Matching -/

def matchRule (rule : Rule) (name relativePath : CStr) (isDir : Bool) : MatchResult :=
  let candidate := if rule.usesRelativePath then relativePath else name
  if rule.kind = .anchoredPrefix then
    if ruleMatchesAnchoredPrefix L program rule relativePath isDir then rule.result else .noMatch
  else if candidate.isEmpty then .noMatch
  else if rule.directoryOnly && !isDir then .noMatch
  else if !L.fnmatch rule.pattern candidate ⟨rule.usesRelativePath, program.casefold⟩ then .noMatch
  else rule.result

/-- The rules `i - 1, i - 2, ...` down to `stop`, up to the first that answers. -/
def scanRules (test : Rule → MatchResult) (rules : List Rule) (stop : Nat) : Nat → MatchResult
  | 0 => .noMatch
  | i + 1 =>
    if i < stop then .noMatch
    else
      match rules[i]? with
      | none => .noMatch
      | some rule => (test rule).orElse (scanRules test rules stop i)

def clampStart (startIndex : Nat) : Nat :=
  if startIndex ≥ rules.length then rules.length - 1 else startIndex

def matchRulesFrom (name relativePath : CStr) (isDir : Bool) (startIndex stopExclusive : Nat) : MatchResult :=
  if program.rules.isEmpty then .noMatch
  else scanRules (fun rule => matchRule L program rule name relativePath isDir) program.rules stopExclusive
    (clampStart program.rules startIndex + 1)

def matchGenericRulesFrom (name relativePath : CStr) (isDir : Bool) (startIndex stopExclusive : Nat) : MatchResult :=
  if program.rules.isEmpty then .noMatch
  else scanRules
    (fun rule => if rule.kind ≠ .genericGlob then .noMatch else matchRule L program rule name relativePath isDir)
    program.rules stopExclusive (clampStart program.rules startIndex + 1)

/-- The `bx_ignore_program_match_after_*` functions: the rules after a table's hit. -/
def matchAfter (name relativePath : CStr) (isDir : Bool) (ruleIndex : Nat) : MatchResult :=
  matchRulesFrom L program name relativePath isDir (program.rules.length - 1) (ruleIndex + 1)

def matchHit (name relativePath : CStr) (isDir : Bool) (hit : Option (Nat × MatchResult)) : MatchResult :=
  if program.rules.isEmpty then .noMatch
  else
    match hit with
    | none => .noMatch
    | some (ruleIndex, result) => (matchAfter L program name relativePath isDir ruleIndex).orElse result

def matchLiteralBasename (name relativePath : CStr) (isDir : Bool) : MatchResult :=
  matchHit L program name relativePath isDir
    ((findLiteralBasename L program name).map fun entry => (entry.ruleIndex, entry.result))

def matchLiteralExtension (name relativePath : CStr) (isDir : Bool) : MatchResult :=
  matchHit L program name relativePath isDir
    ((findLiteralExtension L program name).map fun entry => (entry.ruleIndex, entry.result))

def matchLiteralDirectory (name relativePath : CStr) (isDir : Bool) : MatchResult :=
  matchHit L program name relativePath isDir
    ((if isDir then findLiteralDirectory L program name else none).map fun entry => (entry.ruleIndex, entry.result))

def matchAnchoredPrefix (name relativePath : CStr) (isDir : Bool) : MatchResult :=
  matchHit L program name relativePath isDir
    ((findAnchoredPrefix L program relativePath isDir).map fun entry => (entry.ruleIndex, entry.result))

def hasGenericGlobFallback : Bool := program.genericGlobSourceMask ≠ 0

def matchGenericGlobFallback (name relativePath : CStr) (isDir : Bool) : MatchResult :=
  if program.rules.isEmpty then .noMatch
  else if !hasGenericGlobFallback program then .noMatch
  else matchGenericRulesFrom L program name relativePath isDir (program.rules.length - 1) 0

def matchWithoutGenericGlobFallback (name relativePath : CStr) (isDir : Bool) : MatchResult :=
  (matchLiteralBasename L program name relativePath isDir).orElse
    ((matchLiteralExtension L program name relativePath isDir).orElse
      ((matchLiteralDirectory L program name relativePath isDir).orElse
        (matchAnchoredPrefix L program name relativePath isDir)))

def programMatch (name relativePath : CStr) (isDir : Bool) : MatchResult :=
  (matchWithoutGenericGlobFallback L program name relativePath isDir).orElse
    (matchGenericGlobFallback L program name relativePath isDir)

end

end Bx.IgnoreProgram
