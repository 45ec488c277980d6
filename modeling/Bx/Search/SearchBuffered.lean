import Bx.Search.ContextRoll

/-!
# Searching record by record

`bx_search_buffered_opened` from `src/search/search_buffered.c` over the records of one file: which it prints, and with
what in between. A record of a binary file ends at its first NUL. There is memory, and neither reading nor matching
fails; how a record is printed is left out.
-/

namespace Bx.SearchBuffered

open Kit
open Bx.ContextRoll (Record Roll)

/-! ## Options -/

/-- With `--count-matches` there is a summary in place of the records. -/
structure SearchOpts where
  contextRequested : Bool := false
  afterContext : Nat := 0
  beforeContext : Nat := 0
  maxCount : Nat := 0
  invertMatch : Bool := false
  nullData : Bool := false
  crlf : Bool := false
  binaryAsText : Bool := false
  binaryWithoutMatch : Bool := false
  stopOnNonmatch : Bool := false
  quiet : Bool := false
  countOnly : Bool := false
  countMatches : Bool := false
  filesWithMatches : Bool := false
  filesWithoutMatch : Bool := false
  stats : Bool := false
  passthru : Bool := false
  suppressGroupSeparator : Bool := false
  counted : countMatches = true → (countOnly || filesWithMatches || filesWithoutMatch) = true := by decide

structure Matcher where
  find : Bytes → Bool
  countRecordMatches : Bytes → Nat

def newline : UInt8 := 10
def carriageReturn : UInt8 := 13
def nul : UInt8 := 0

namespace SearchOpts

def recordDelimiter (opts : SearchOpts) : UInt8 := if opts.nullData then nul else newline

/-- `bx_search_plan_needs_line_buffering` -/
def withContext (opts : SearchOpts) : Bool :=
  opts.contextRequested || 0 < opts.afterContext || 0 < opts.beforeContext

def emitsText (opts : SearchOpts) : Bool :=
  !opts.quiet && !opts.countOnly && !opts.filesWithMatches && !opts.filesWithoutMatch

def recordMatchLen (opts : SearchOpts) (raw : Bytes) : Nat :=
  let len := if raw.getLast? = some opts.recordDelimiter then raw.length - 1 else raw.length
  if opts.crlf && opts.recordDelimiter = newline && (raw.take len).getLast? = some carriageReturn then len - 1 else len

def recordHasNul (opts : SearchOpts) (raw : Bytes) : Bool :=
  !opts.nullData && !opts.binaryAsText && raw.getLast? = some nul

def segmentMatches (opts : SearchOpts) (m : Matcher) (text : Bytes) : Bool := xor opts.invertMatch (m.find text)

def matchText (opts : SearchOpts) (raw : Bytes) : Bytes :=
  raw.take (if opts.recordHasNul raw then raw.length - 1 else opts.recordMatchLen raw)

def matchedRecord (opts : SearchOpts) (m : Matcher) (raw : Bytes) : Bool := opts.segmentMatches m (opts.matchText raw)

def atMaxCount (opts : SearchOpts) (fileMatches : Nat) : Bool := 0 < opts.maxCount && opts.maxCount ≤ fileMatches

end SearchOpts

/-- Behind the first NUL, the segments between line ends and NULs are searched; the last one may be empty. -/
def binaryScanRemaining (m : Matcher) (opts : SearchOpts) (rest : Bytes) : Bool :=
  let segments := rest.splitOnP fun b => b = newline || b = nul
  segments.dropLast.any (opts.segmentMatches m) || segments.getLast?.any fun last => last ≠ [] && opts.segmentMatches m last

/-! ## Output -/

inductive Event
  | fileSeparator
  | groupSeparator
  | record (record : Record) (selected : Bool)
  | binaryMatch
  | count (fileMatches : Nat)
  | path (name : Bytes)
  deriving DecidableEq

/-- `contextOutputStarted` is kept from one file to the next. -/
structure Output where
  contextOutputStarted : Bool := false
  contextOutputStartedForFile : Bool := false
  printedContextLine : Bool := false
  lastEmittedLine : Nat := 0
  events : List Event := []

namespace Output

def print (o : Output) (event : Event) : Output := { o with events := o.events ++ [event] }

def maybeEmitContextFileSeparator (opts : SearchOpts) (o : Output) : Output :=
  if !o.contextOutputStarted || opts.suppressGroupSeparator then o else o.print .fileSeparator

def prepareContextRecord (opts : SearchOpts) (lineNumber : Nat) (o : Output) : Output × Bool :=
  let o :=
    if o.contextOutputStartedForFile then o
    else
      let o := o.maybeEmitContextFileSeparator opts
      { o with contextOutputStartedForFile := true, contextOutputStarted := true }
  let o :=
    if o.printedContextLine && o.lastEmittedLine < lineNumber && 1 < lineNumber - o.lastEmittedLine &&
        !opts.suppressGroupSeparator then
      o.print .groupSeparator
    else o
  (o, !(o.printedContextLine && lineNumber ≤ o.lastEmittedLine))

def emitRecord (record : Record) (selected : Bool) (o : Output) : Output := o.print (.record record selected)

def emitContextRecord (opts : SearchOpts) (record : Record) (selected : Bool) (o : Output) : Output :=
  let prepared := o.prepareContextRecord opts record.lineNumber
  if prepared.2 then
    { prepared.1.emitRecord record selected with printedContextLine := true, lastEmittedLine := record.lineNumber }
  else prepared.1

def emitBefore (opts : SearchOpts) (before : Roll) (o : Output) : Output :=
  (List.range before.count).foldl (fun o i => (before.get i).elim o fun record => o.emitContextRecord opts record false) o

end Output

/-! ## The search -/

structure State where
  before : Roll := {}
  output : Output
  fileMatches : Nat := 0
  matchedLines : Nat := 0
  fileOffset : Nat := 0
  lineNumber : Nat := 0
  afterLeft : Nat := 0
  maxCountReached : Bool := false
  sawMatchRecord : Bool := false
  binaryDetected : Bool := false
  binaryDiagnosticReported : Bool := false
  publishedOutput : Bool := false

section
variable (m : Matcher) (opts : SearchOpts)

namespace State

def report (s : State) : State :=
  if s.binaryDiagnosticReported then s
  else { s with output := s.output.print .binaryMatch, binaryDiagnosticReported := true }

def noteBinary (raw : Bytes) (s : State) : State :=
  if opts.recordHasNul raw && !s.binaryDetected then
    { s with binaryDetected := true, before := if opts.emitsText then s.before.clear else s.before }
  else s

def publish (current : Record) (s : State) : State :=
  if opts.withContext then
    { s with
      output := (s.output.emitBefore opts s.before).emitContextRecord opts current true
      before := s.before.clear
      publishedOutput := true }
  else { s with output := s.output.emitRecord current true, publishedOutput := true }

variable (current : Record)

/-- The second component is `stop`. -/
def takeSelected (s : State) : State × Bool :=
  let counted :=
    if opts.countMatches && !opts.invertMatch then m.countRecordMatches (opts.matchText current.text)
    else if opts.countMatches then 0
    else 1
  let s := { s with
    fileMatches := s.fileMatches + counted, matchedLines := s.matchedLines + 1, sawMatchRecord := true }
  let binaryStop := opts.emitsText && s.binaryDetected
  let s :=
    if binaryStop then s.report
    else if opts.emitsText then s.publish opts current
    else s
  let s := { s with
    afterLeft := if opts.withContext then opts.afterContext else 0
    maxCountReached := s.maxCountReached || opts.atMaxCount s.fileMatches }
  (s, binaryStop || opts.quiet ||
    ((opts.filesWithMatches || opts.filesWithoutMatch) && !opts.stats && !opts.binaryWithoutMatch) ||
    (s.maxCountReached && s.afterLeft = 0))

/-- The rest of a binary file is looked at once, unless something has been printed. -/
def takeBinary (rest : Bytes) (s : State) : State :=
  if !s.publishedOutput && binaryScanRemaining m opts rest then
    { s with fileMatches := s.fileMatches + 1, matchedLines := s.matchedLines + 1 }.report
  else s

def takeContext (s : State) : State × Bool :=
  if 0 < s.afterLeft then
    let s := { s with
      output := s.output.emitContextRecord opts current false
      afterLeft := s.afterLeft - 1 }
    (s, s.maxCountReached && s.afterLeft = 0)
  else ({ s with before := s.before.push current opts.beforeContext }, false)

def takeUnselected (rest : Bytes) (s : State) : State × Bool :=
  if s.binaryDetected && opts.emitsText then (s.takeBinary m opts rest, true)
  else if opts.withContext && opts.emitsText then s.takeContext opts current
  else if opts.passthru && opts.emitsText then
    ({ s with output := s.output.emitRecord current false, publishedOutput := true }, false)
  else (s, false)

def step (raw : Bytes) (rest : Bytes) (s : State) : State × Bool :=
  let current : Record := ⟨raw, s.fileOffset, s.lineNumber + 1⟩
  let s := { s with lineNumber := s.lineNumber + 1, fileOffset := s.fileOffset + raw.length }
  let s := s.noteBinary opts raw
  if s.binaryDetected && opts.binaryWithoutMatch then
    (if s.publishedOutput then s else { s with fileMatches := 0, matchedLines := 0 }, true)
  else
    let selected := opts.matchedRecord m raw && !opts.atMaxCount s.fileMatches
    if !selected && opts.stopOnNonmatch && s.sawMatchRecord then (s, true)
    else if selected then s.takeSelected m opts current
    else s.takeUnselected m opts current rest

def run : List Bytes → State → State
  | [], s => s
  | raw :: rest, s => if (s.step m opts raw rest.flatten).2 then (s.step m opts raw rest.flatten).1
    else run rest (s.step m opts raw rest.flatten).1

end State

def emitSummary (displayName : Option Bytes) (fileMatches : Nat) (o : Output) : Output :=
  let o := if opts.countOnly then o.print (.count fileMatches) else o
  let o := if opts.filesWithMatches && 0 < fileMatches then displayName.elim o fun name => o.print (.path name) else o
  if opts.filesWithoutMatch && fileMatches = 0 then displayName.elim o fun name => o.print (.path name) else o

/-- What is left of a search: what was printed, whether context was, and the result -/
structure Searched where
  events : List Event
  contextOutputStarted : Bool
  fileMatches : Nat
  status : Nat

def searchBufferedOpened (displayName : Option Bytes) (contextOutputStarted : Bool) (records : List Bytes) : Searched :=
  let s := State.run m opts records { output := { contextOutputStarted := contextOutputStarted } }
  let o :=
    if opts.countOnly || opts.filesWithMatches || opts.filesWithoutMatch then
      emitSummary opts displayName s.fileMatches s.output
    else s.output
  ⟨o.events, o.contextOutputStarted, s.fileMatches, if 0 < s.fileMatches then 0 else 1⟩

end

end Bx.SearchBuffered
