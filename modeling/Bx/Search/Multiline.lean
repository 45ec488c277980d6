import Bx.Kit.Bytes
import Bx.Kit.Lines
import Bx.Kit.Loop

/-!
# Searching a whole buffer

`bx_search_multiline_buffer` from `src/search/search_multiline.c`: the matches are
looked for one behind the other, and each one is widened to whole lines before it is
printed. The names, colours and headings in front of a line are left out.
-/

namespace Bx.Multiline

open Kit

/-! ## Options and matchers -/

structure SearchOpts where
  named : Bool := true
  quiet : Bool := false
  countOnly : Bool := false
  omitZeroCountOutput : Bool := false
  filesWithMatches : Bool := false
  filesWithoutMatch : Bool := false
  stats : Bool := false
  maxCount : Nat := 0
  onlyMatching : Bool := false
  invertMatch : Bool := false
  maxColumns : Int := 0
  replace : Option Bytes := none
  trim : Bool := false
  nullData : Bool := false
  crlf : Bool := false

structure Match where
  start : Nat
  stop : Nat

inductive Found
  | at (bm : Match)
  | absent
  | error

structure Matcher where
  find : Bytes → Nat → Found
  lawful : ∀ buf start bm, find buf start = .at bm → start ≤ bm.start ∧ bm.start ≤ bm.stop ∧ bm.stop ≤ buf.length

def newline : UInt8 := 10
def carriageReturn : UInt8 := 13
def nul : UInt8 := 0

def SearchOpts.recordDelimiter (opts : SearchOpts) : UInt8 := if opts.nullData then nul else newline

def SearchOpts.printsLines (opts : SearchOpts) : Bool :=
  !opts.quiet && !opts.countOnly && !opts.filesWithMatches && !opts.filesWithoutMatch &&
    !(opts.onlyMatching && !opts.invertMatch)

/-! ## Places -/

def lineNumberForOffset (buf : Bytes) (offset : Nat) : Nat := 1 + lineOf newline buf offset

def lineStartOffset (buf : Bytes) (offset : Nat) : Nat := lineStart newline buf offset

def columnNumberForOffset (buf : Bytes) (offset : Nat) : Nat := offset - lineStartOffset buf offset + 1

def lineEndOffset (buf : Bytes) (offset : Nat) : Nat := lineEnd newline buf offset

def slice (buf : Bytes) (start stop : Nat) : Bytes := (buf.take stop).drop start

/-! ## Printing -/

inductive Content
  | omitted
  | replaced (text : Bytes)
  | plain (text : Bytes)
  deriving DecidableEq

inductive Event
  | matched (lineNum column byteOffset : Nat) (text : Bytes)
  | lines (outStart outEnd lineNum column : Nat) (content : Content)
  | count (fileMatches : Nat)
  | path
  deriving DecidableEq

/-- A `size_t` as an `int` -/
def asInt (n : Nat) : Int := (BitVec.ofNat 32 n).toInt

section
variable (m : Matcher) (opts : SearchOpts)

def recordMatchLen (text : Bytes) : Nat :=
  let len := if text.getLast? = some opts.recordDelimiter then text.length - 1 else text.length
  if opts.crlf && opts.recordDelimiter = newline && (text.take len).getLast? = some carriageReturn then len - 1 else len

def isTrimmed (b : UInt8) : Bool := b = 32 || b = 9 || b = 13 || b = 12 || b = 11

def printableTrimPrefix (text : Bytes) : Nat :=
  if opts.trim then ((text.take (recordMatchLen opts text)).takeWhile isTrimmed).length else 0

def shouldOmitLongMatchLine (recordLen : Nat) : Bool :=
  0 < opts.maxColumns && !opts.onlyMatching && opts.maxColumns < asInt recordLen

/-- `$0` stands for what matched. -/
def replacementPiece (matched : Bytes) : Bytes → Bytes
  | 36 :: 48 :: replace => matched ++ replacementPiece matched replace
  | b :: replace => b :: replacementPiece matched replace
  | [] => []

def Match.resume (bm : Match) : Nat := if bm.start < bm.stop then bm.stop else bm.start + 1

/-- What is printed up to the end of the record, and whether the matcher fails there -/
def replacedFrom (replace text : Bytes) : Nat → Nat → Nat → Bytes × Bool
  | 0, _, cursor => (text.drop cursor, false)
  | fuel + 1, start, cursor =>
    if text.length < start then (text.drop cursor, false)
    else
      match m.find text start with
      | .absent => (text.drop cursor, false)
      | .error => (text.drop cursor, true)
      | .at bm =>
        let rest := replacedFrom replace text fuel bm.resume bm.stop
        (slice text cursor bm.start ++ replacementPiece (slice text bm.start bm.stop) replace ++ rest.1, rest.2)

def printReplacedRecord (replace record : Bytes) : Bytes × Bool :=
  let text := record.take (recordMatchLen opts record)
  let trimPrefix := printableTrimPrefix opts record
  let printed := replacedFrom m replace text (text.length + 1) trimPrefix trimPrefix
  (printed.1 ++ [opts.recordDelimiter], printed.2)

def printPlainRecord (record : Bytes) : Bytes :=
  record.drop (printableTrimPrefix opts record) ++
    if record.getLast? = some opts.recordDelimiter then [] else [opts.recordDelimiter]

def recordContent (record : Bytes) : Content × Bool :=
  if shouldOmitLongMatchLine opts record.length then (.omitted, false)
  else
    match opts.replace with
    | some replace =>
      let printed := printReplacedRecord m opts replace record
      (.replaced printed.1, printed.2)
    | none => (.plain (printPlainRecord opts record), false)

/-! ## The search -/

structure State where
  start : Nat := 0
  fileMatches : Nat := 0
  failed : Bool := false
  events : List Event := []

def matcherFind (s : State) (buf : Bytes) : Found := if s.failed then .error else m.find buf s.start

def atMaxCount (fileMatches : Nat) : Bool := 0 < opts.maxCount && opts.maxCount ≤ fileMatches

def printLines (buf : Bytes) (bm : Match) (s : State) : State :=
  let outStart := lineStartOffset buf bm.start
  let outEnd := lineEndOffset buf bm.stop
  let content := recordContent m opts (slice buf outStart outEnd)
  { s with
    failed := content.2
    events := s.events ++ [.lines outStart outEnd (lineNumberForOffset buf outStart)
      (columnNumberForOffset buf bm.start) content.1] }

def goOn (bm : Match) (s : State) : State ⊕ State :=
  if atMaxCount opts s.fileMatches then .inr s else .inl { s with start := bm.resume }

def takeMatch (buf : Bytes) (bm : Match) (s : State) : State ⊕ State :=
  let s := { s with fileMatches := s.fileMatches + 1 }
  if opts.quiet then .inr s
  else if opts.countOnly then goOn opts bm s
  else if opts.filesWithMatches || opts.filesWithoutMatch then if opts.stats then goOn opts bm s else .inr s
  else if opts.onlyMatching && !opts.invertMatch then
    if bm.stop = bm.start then goOn opts bm s
    else
      goOn opts bm { s with
        events := s.events ++ [.matched (lineNumberForOffset buf bm.start) (columnNumberForOffset buf bm.start) bm.start
          (slice buf bm.start bm.stop)] }
  else goOn opts bm (printLines m opts buf bm s)

def step (buf : Bytes) (s : State) : State ⊕ State :=
  if buf.length < s.start then .inr s
  else
    match matcherFind m s buf with
    | .at bm => takeMatch m opts buf bm s
    | .absent => .inr s
    | .error => .inr { s with failed := true }

def emitSummary (s : State) : List Event :=
  s.events ++ (if opts.countOnly && !(opts.omitZeroCountOutput && s.fileMatches = 0) then [.count s.fileMatches] else []) ++
    (if opts.filesWithMatches && 0 < s.fileMatches && opts.named then [.path] else []) ++
    (if opts.filesWithoutMatch && s.fileMatches = 0 && opts.named then [.path] else [])

structure Outcome where
  status : Nat
  matchCount : Nat
  events : List Event
  deriving DecidableEq

def finish (s : State) : Outcome :=
  if s.failed then ⟨2, 0, s.events⟩ else ⟨if 0 < s.fileMatches then 0 else 1, s.fileMatches, emitSummary opts s⟩

def multilineBuffer (buf : Bytes) : Option Outcome := (loop (step m opts buf) (buf.length + 2) {}).map (finish opts)

end

end Bx.Multiline
