import Bx.Kit.CString
import Bx.Kit.Loop

/-!
# Shell patterns

`src/applets/shell/ash/pattern.c` in a locale with one byte for a character: the compiler from source to terms, the
bracket check and the matching loop. What the C library answers is `PatternLocale`.
-/

namespace Bx.Ash

open Bx.Kit

/-! ## Options -/

inductive PatternPurpose
  | case
  | pathnameExpansion
  | parameterRemove
  | parameterSubstitute
  | conditional
  | globignore
  | completion
  deriving DecidableEq

inductive PatternDomain
  | string
  | pathname
  deriving DecidableEq

structure PatternOptions where
  purpose : PatternPurpose
  domain : PatternDomain
  extglob : Bool := false
  globstar : Bool := false
  caseInsensitive : Bool := false
  matchDotfiles : Bool := false
  asciiRanges : Bool := false

variable (o : PatternOptions)

def PatternOptions.valid : Bool :=
  let pathnamePurpose := o.purpose = .pathnameExpansion || o.purpose = .globignore
  let stringPurpose := o.purpose = .case || o.purpose = .parameterRemove || o.purpose = .parameterSubstitute ||
    o.purpose = .conditional
  !((pathnamePurpose && o.domain ≠ .pathname) || (stringPurpose && o.domain ≠ .string) ||
    ((o.globstar || o.matchDotfiles) && o.domain ≠ .pathname))

/-! ## Terms -/

inductive ExtglobOperator
  | zeroOrOne
  | zeroOrMore
  | oneOrMore
  | oneOf
  | noneOf

inductive Term
  | literal (span : CStr)
  | anyString
  | anyCharacter
  | bracket (span : CStr)
  | pathSeparator
  | globstar
  | extglob (operator : ExtglobOperator) (alternatives : List (List Term))

structure RequiredFeatures where
  extglob : Bool := false
  globstar : Bool := false
  asciiRanges : Bool := false

structure Pattern where
  options : PatternOptions
  root : List Term
  source : CStr
  required : RequiredFeatures

inductive CompileFailure
  | invalid
  | limit

/-! ## Brackets in the source -/

/-- `ash_pattern_notation_end`, past the two characters that open the notation: how many characters it has. -/
def notationEnd (kind : Char) : CStr → Nat → Option Nat
  | c :: d :: rest, taken =>
    if c = '\\' then notationEnd kind rest (taken + 2)
    else if c = kind && d = ']' then some (taken + 2)
    else notationEnd kind (d :: rest) (taken + 1)
  | _, _ => none

/-- The characters of the notation that starts with `c`, if one does. -/
def notationLength (c : Char) (rest : CStr) : Option Nat :=
  match rest with
  | kind :: body => if c = '[' && ['.', '=', ':'].contains kind then notationEnd kind body 2 else none
  | [] => none

/-- The loop of `ash_pattern_bracket_end`, with the characters that an escape or a notation has yet to pass. -/
def bracketScan : CStr → (skip taken : Nat) → Option Nat
  | [], _, _ => none
  | _ :: rest, skip + 1, taken => bracketScan rest skip (taken + 1)
  | c :: rest, 0, taken =>
    if c = '\\' && !rest.isEmpty then bracketScan rest 1 (taken + 1)
    else
      match notationLength c rest with
      | some length => bracketScan rest (length - 1) (taken + 1)
      | none => if c = ']' then some (taken + 1) else bracketScan rest 0 (taken + 1)

/-- How many characters the bracket at the start of `text` has. -/
def bracketEnd (text : CStr) : Option Nat :=
  let first := if text[1]? = some '!' || text[1]? = some '^' then 2 else 1
  let first := if text[first]? = some ']' then first + 1 else first
  bracketScan (text.drop first) 0 first

/-! ## Compiling -/

structure Compiler where
  rest : CStr
  required : RequiredFeatures := {}

def appendTerm (terms : List Term) (term : Term) : List Term :=
  match term, terms.getLast? with
  | .literal text, some (.literal span) => terms.dropLast ++ [.literal (span ++ text)]
  | term, _ => terms ++ [term]

def RequiredFeatures.add (required : RequiredFeatures) : Term → RequiredFeatures
  | .globstar => { required with globstar := true }
  | .bracket _ => { required with asciiRanges := required.asciiRanges || o.asciiRanges }
  | .extglob _ _ => { required with extglob := true }
  | _ => required

/-- The term that starts with `c`, and what follows it. -/
def compileTerm (c : Char) (rest : CStr) : Term × CStr :=
  if c = '\\' then
    match rest with
    | escaped :: rest => (.literal [escaped], rest)
    | [] => (.literal [c], [])
  else if c = '*' then
    let several := rest.head? = some '*'
    (if several && o.domain = .pathname && o.globstar then .globstar else .anyString, rest.dropWhile (· = '*'))
  else if c = '?' then (.anyCharacter, rest)
  else
    match if c = '[' then bracketEnd (c :: rest) else none with
    | some length => (.bracket ((c :: rest).take length), (c :: rest).drop length)
    | none => if c = '/' && o.domain = .pathname then (.pathSeparator, rest) else (.literal [c], rest)

def extglobOperator (c : Char) : Option ExtglobOperator :=
  match c with
  | '?' => some .zeroOrOne
  | '*' => some .zeroOrMore
  | '+' => some .oneOrMore
  | '@' => some .oneOf
  | '!' => some .noneOf
  | _ => none

def extglobAt (c : Char) (rest : CStr) : Option (ExtglobOperator × CStr) :=
  match rest with
  | '(' :: rest => if o.extglob then (extglobOperator c).map (·, rest) else none
  | _ => none

/-- `ash_pattern_compile_extglob` past the operator: the alternatives up to the closing parenthesis. -/
def compileAlternatives (compileSequence : Compiler → Option (Except CompileFailure (Compiler × List Term))) :
    Nat → Compiler → List (List Term) → Option (Except CompileFailure (Compiler × List (List Term)))
  | 0, _, _ => none
  | fuel + 1, compiler, alternatives =>
    match compileSequence compiler with
    | none => none
    | some (.error failure) => some (.error failure)
    | some (.ok (compiler, alternative)) =>
      match compiler.rest with
      | [] => some (.error .invalid)
      | delimiter :: rest =>
        if delimiter = ')' then some (.ok ({ compiler with rest }, alternatives ++ [alternative]))
        else compileAlternatives compileSequence fuel { compiler with rest } (alternatives ++ [alternative])

def maxNesting : Nat := 64

def compileSequence (o : PatternOptions) : Nat → (alternative : Bool) → (nesting : Nat) → Compiler → List Term →
      Option (Except CompileFailure (Compiler × List Term))
  | 0, _, _, _, _ => none
  | fuel + 1, alternative, nesting, compiler, terms =>
    match compiler.rest with
    | [] => some (.ok (compiler, terms))
    | c :: rest =>
      if alternative && (c = '|' || c = ')') then some (.ok (compiler, terms))
      else
        match extglobAt o c rest with
        | some (operator, rest) =>
          if nesting ≥ maxNesting then some (.error .limit)
          else
            match compileAlternatives (compileSequence o fuel true (nesting + 1) · []) fuel { compiler with rest } [] with
            | none => none
            | some (.error failure) => some (.error failure)
            | some (.ok (compiler, alternatives)) =>
              let term := Term.extglob operator alternatives
              compileSequence o fuel alternative nesting
                { compiler with required := compiler.required.add o term } (appendTerm terms term)
        | none =>
          let (term, rest) := compileTerm o c rest
          compileSequence o fuel alternative nesting ⟨rest, compiler.required.add o term⟩ (appendTerm terms term)

def compile (source : CStr) : Option (Except CompileFailure Pattern) :=
  if !o.valid || source.contains '\x00' then some (.error .invalid)
  else
    match compileSequence o (source.length + 1) false 0 ⟨source, {}⟩ [] with
    | none => none
    | some (.error failure) => some (.error failure)
    | some (.ok (compiler, root)) => some (.ok ⟨o, root, source, compiler.required⟩)

/-! ## Brackets in a match -/

inductive MatchResult
  | «match»
  | noMatch
  | unsupported
  | error
  deriving DecidableEq

/-- What the C library answers. A call that fails is `none`. -/
structure PatternLocale where
  /-- `fnmatch pattern string casefold` -/
  fnmatch : CStr → CStr → Bool → Option Bool
  towlower : Char → Char
  towupper : Char → Char
  wcrtomb : Char → Option CStr
  strcoll : CStr → CStr → Option Int
  /-- Only letters change case. -/
  towlower_slash : ∀ c, towlower c = towlower '/' → c = '/'

/-- One member of a bracket or end of a range. A literal character is valid in every such locale. -/
structure BracketAtom where
  rest : CStr
  literal : Option Char
  /-- `notation`: one of `.`, `=` and `:` for an atom that is written with it. -/
  mark : Option Char

def notationLiteral (body : CStr) : Option Char :=
  match body with
  | [c] => some c
  | ['\\', c] => some c
  | _ => none

/-- `ash_pattern_bracket_atom` at `c`, in the members up to the closing bracket. -/
def bracketAtom (c : Char) (rest : CStr) : BracketAtom :=
  match rest with
  | [] => ⟨[], some c, none⟩
  | d :: tail =>
    if c = '\\' then ⟨tail, some d, none⟩
    else
      match notationLength c rest with
      | some length =>
        let body := tail.take (length - 4)
        ⟨rest.drop (length - 1), if d = ':' then none else notationLiteral body, some d⟩
      | none => ⟨rest, some c, none⟩

section
variable (L : PatternLocale) (fold : Bool)

def classify (bracket single : CStr) (casefold : Bool) : MatchResult :=
  match L.fnmatch bracket single casefold with
  | some true => .match
  | some false => .noMatch
  | none => .error

/-- One candidate of `ash_pattern_collation_range`. -/
def collationBetween (first last candidate : CStr) : MatchResult :=
  match L.strcoll first candidate, L.strcoll candidate last with
  | some lower, some upper => if lower ≤ 0 && upper ≤ 0 then .match else .noMatch
  | _, _ => .error

def alternateCase (c : Char) : Char := if L.towupper c = c then L.towlower c else L.towupper c

def collationRange (left right c : Char) : MatchResult :=
  let r := collationBetween L [left] [right] [c]
  if r ≠ .noMatch || !fold || alternateCase L c = c then r
  else
    match L.wcrtomb (alternateCase L c) with
    | none => .error
    | some folded => collationBetween L [left] [right] folded

def symbolRange (left right c : Char) : MatchResult :=
  match classify L ['[', '[', '.', 'a', '.', ']', ']'] ['a'] false with
  | .noMatch => collationRange L fold left right c
  | .match => classify L (['[', '[', '.', left] ++ ['.', ']', '-', '[', '.'] ++ [right, '.', ']', ']']) [c] fold
  | r => r

def rangeLiteral (atom : BracketAtom) (literal : Char) : Bool :=
  atom.mark ≠ some '=' && !(['[', ']', '!', '^', '-', '\\'] : List Char).contains literal

/-- What the members between two cursors say of `c`, as a bracket of their own. -/
def classifyMembers (members : CStr) (c : Char) : MatchResult :=
  let quoted := match members.head? with
    | some first => if first = '!' || first = '^' then '\\' :: members else members
    | none => members
  classify L ('[' :: quoted ++ [']']) [c] fold

/-- The range between two atoms, whose text is `members`. -/
def bracketRange (left right : BracketAtom) (members : CStr) (c : Char) : MatchResult :=
  match left.literal, right.literal with
  | some l, some r =>
    if left.mark ≠ some '=' && right.mark ≠ some '=' then
      if rangeLiteral left l && rangeLiteral right r then classify L ['[', l, '-', r, ']'] [c] fold
      else symbolRange L fold l r c
    else classifyMembers L fold members c
  | _, _ => classifyMembers L fold members c

def bracketMember (atom : BracketAtom) (members : CStr) (c : Char) : MatchResult :=
  match atom.literal with
  | some literal =>
    let same := if fold then L.towlower literal = L.towlower c else literal = c
    if atom.mark ≠ some '=' then if same then .match else .noMatch
    else
      match classifyMembers L fold members c with
      | .noMatch => if same then .match else .noMatch
      | r => r
  | none => classifyMembers L fold members c

def bracketRound (first : Char) (rest : CStr) (c : Char) : MatchResult × CStr :=
  let start := first :: rest
  let left := bracketAtom first rest
  match left.rest with
  | '-' :: next :: rest =>
    let right := bracketAtom next rest
    (bracketRange L fold left right (start.take (start.length - right.rest.length)) c, right.rest)
  | _ => (bracketMember L fold left (start.take (start.length - left.rest.length)) c, left.rest)

/-- The loop of `ash_pattern_bracket` over the members, with what it has found so far. -/
def bracketMembers : Nat → CStr → Char → Bool → Option Bool
  | fuel + 1, first :: rest, c, matched =>
    match bracketRound L fold first rest c with
    | (.error, _) => none
    | (r, rest) => bracketMembers fuel rest c (matched || r = .match)
  | _, _, _, matched => some matched

def hasInfix (needle : CStr) : CStr → Bool
  | [] => needle.isEmpty
  | c :: rest => needle.isPrefixOf (c :: rest) || hasInfix needle rest

def bracket (span : CStr) (c : Char) : MatchResult :=
  if !span.contains '\\' && !hasInfix ['[', '.'] span && !hasInfix ['[', '='] span then classify L span [c] fold
  else
    let members := span.tail.dropLast
    let negate := members.head? = some '!' || members.head? = some '^'
    let members := if negate then members.tail else members
    match bracketMembers L fold members.length members c false with
    | none => .error
    | some matched => if matched ≠ negate then .match else .noMatch

/-! ## Matching -/

/-- The loop of `ash_pattern_literal` that compares characters whatever their case. -/
def literalFolded : CStr → CStr → Option Nat
  | [], _ => some 0
  | _ :: _, [] => none
  | left :: span, right :: text =>
    if L.towlower left ≠ L.towlower right then none else (literalFolded span text).map (· + 1)

/-- `ash_pattern_literal`: how many characters of the candidate the literal takes. -/
def literalTaken (span text : CStr) : Option Nat :=
  if fold then literalFolded L span text
  else if span.isPrefixOf text then some span.length
  else none

end

def wildcardAllowed (text : CStr) (value : Nat) : Bool :=
  if o.domain ≠ .pathname then true
  else text[value]? ≠ some '/' &&
    !(text[value]? = some '.' && (value = 0 || text[value - 1]? = some '/') && !o.matchDotfiles)

inductive Advance
  | matched (value : Nat)
  | separator (value : Nat)
  | star
  | failed
  | error

def advance (L : PatternLocale) (o : PatternOptions) (text : CStr) (value : Nat) : Term → Advance
  | .literal span =>
    match literalTaken L o.caseInsensitive span (text.drop value) with
    | some taken => .matched (value + taken)
    | none => .failed
  | .pathSeparator => if text[value]? = some '/' then .separator (value + 1) else .failed
  | .anyString => if wildcardAllowed o text value || text[value]? = some '/' then .star else .failed
  | .anyCharacter =>
    match text[value]? with
    | some _ => if wildcardAllowed o text value then .matched (value + 1) else .failed
    | none => .failed
  | .bracket span =>
    match text[value]? with
    | some c =>
      if wildcardAllowed o text value then
        match bracket L o.caseInsensitive span c with
        | .match => .matched (value + 1)
        | .error => .error
        | _ => .failed
      else .failed
    | none => .failed
  | .globstar => .failed
  | .extglob _ _ => .failed

structure MatchState where
  position : Nat := 0
  value : Nat := 0
  retry : Option Nat := none
  afterStar : Nat := 0

/-- The last `*` takes one more character. -/
def backtrack (text : CStr) (st : MatchState) : MatchState ⊕ MatchResult :=
  match st.retry with
  | none => .inr .noMatch
  | some retry =>
    if text[retry]? = none || !wildcardAllowed o text retry then .inr .noMatch
    else .inl { st with position := st.afterStar, value := retry + 1, retry := some (retry + 1) }

def matchStep (L : PatternLocale) (p : Pattern) (text : CStr) (st : MatchState) : MatchState ⊕ MatchResult :=
  match p.root[st.position]? with
  | none => if text[st.value]? = none then .inr .match else backtrack p.options text st
  | some term =>
    match advance L p.options text st.value term with
    | .matched value => .inl { st with position := st.position + 1, value }
    | .separator value => .inl { st with position := st.position + 1, value, retry := none }
    | .star =>
      .inl { st with position := st.position + 1, retry := some st.value, afterStar := st.position + 1 }
    | .failed => backtrack p.options text st
    | .error => .inr .error

def matchFuel (p : Pattern) (text : CStr) : Nat :=
  (p.root.length + 1) * (text.length + 2) * (p.root.length + 1)

def trailingBackslashes (source : CStr) : Nat := (source.reverse.takeWhile (· = '\\')).length

def matchPattern (L : PatternLocale) (p : Pattern) (text : CStr) : Option MatchResult :=
  if !p.options.valid then some .error
  else if p.required.extglob || p.required.globstar || p.required.asciiRanges then some .unsupported
  else if trailingBackslashes p.source % 2 ≠ 0 then some .noMatch
  else loop (matchStep L p text) (matchFuel p text) {}

end Bx.Ash
