import Bx.Search.LiteralScan
import Bx.Search.RecordStream

/-!
# Whether a file has a literal

`bx_search_raw_presence_opened` from `src/search/search_raw_presence.c` reads the file in chunks and scans each together
with the last bytes before it (`src/search/search_chunk_overlap.h`). A read error ends the stream early.
-/

namespace Bx.RawPresence

open Bx.Kit Bx.Literal
open Bx.RecordStream (File)

def chunkCap : Nat := 65536
def sizeMax : Nat := 2 ^ 64 - 1
def eio : Nat := 5

/-- `bx_literal_absence_plan` with what it asks the matcher for -/
def absencePlan (ignoreCase localeUtf8Upper : Bool) (plan : ScanPlan) : Option ScanPlan :=
  if ignoreCase || localeUtf8Upper || plan.needleLen = 0 then none else some plan

/-! ## The overlap of chunks -/

def carryLen (scanLen overlapLen : Nat) : Nat := if overlapLen < scanLen then overlapLen else scanLen

def preserveSuffix (buf : Bytes) (carryLen : Nat) : Bytes :=
  if carryLen = 0 || carryLen > buf.length then buf else buf.drop (buf.length - carryLen) ++ buf.drop carryLen

def prependCarry (buf : Bytes) (carryLen : Nat) : Bytes :=
  (preserveSuffix buf carryLen).take (if carryLen ≤ buf.length then carryLen else 0)

def scanStart (carryLen overlapLen : Nat) : Nat := if carryLen > overlapLen then carryLen - overlapLen else 0

def hasFreshBytes (scanLen carryLen : Nat) : Bool := scanLen > carryLen

/-- `buf` are the bytes up to `len`. -/
structure Scanner where
  buf : Bytes
  cap : Nat

def growStep (needed newCap : Nat) : Nat ⊕ Option Nat :=
  if newCap < needed then if newCap > sizeMax / 2 then .inr none else .inl (newCap * 2) else .inr (some newCap)

/-- Without room there is no scanner. A capacity that grows gets there within `needed` steps. -/
def reserveBuffer (alloc : Nat → Bool) (scanner : Scanner) (needed : Nat) : Option Scanner :=
  if scanner.cap ≥ needed then some scanner
  else
    match loop (growStep needed) (needed + 1) (if scanner.cap = 0 then chunkCap else scanner.cap) with
    | some (some newCap) => if alloc newCap then some { scanner with cap := newCap } else none
    | _ => none

/-! ## The loop -/

structure Stats where
  allMatches : Nat := 0
  matchedLines : Nat := 0
  filesWithMatches : Nat := 0
  filesSearched : Nat := 0
  bytesSearched : Nat := 0

def Stats.noteFile (stats : Stats) : Stats := { stats with filesSearched := stats.filesSearched + 1 }

def Stats.noteRead (stats : Stats) (nread : Nat) : Stats := { stats with bytesSearched := stats.bytesSearched + nread }

def Stats.noteMatch (stats : Stats) : Stats :=
  { stats with
    allMatches := stats.allMatches + 1
    matchedLines := stats.matchedLines + 1
    filesWithMatches := stats.filesWithMatches + 1 }

/-- `error` is what `errno` is after a read error at the end of `file`. -/
structure Input where
  file : File
  error : Option Nat

inductive Output
  | pathRecord (displayName : Bytes)
  | pathError (displayName : Option Bytes) (errnum : Nat)

structure Scan where
  scanner : Scanner
  file : File
  carry : Nat := 0
  countedFile : Bool := false
  stats : Option Stats

structure Left where
  scan : Scan
  status : Nat
  fileMatches : Nat
  errnum : Option Nat := none

def Scan.note (s : Scan) (nread : Nat) : Scan :=
  { s with
    countedFile := true
    stats := s.stats.map fun stats => (if s.countedFile then stats else stats.noteFile).noteRead nread }

/-- The bytes of one `fread`, which stand in the buffer behind those that are kept -/
def Scan.read (s : Scan) : Bytes × Scan :=
  let kept := prependCarry s.scanner.buf s.carry
  let chunk := s.file.fread (s.scanner.cap - kept.length)
  (chunk.1, { s with scanner := { s.scanner with buf := kept ++ chunk.1 }, file := chunk.2 }.note chunk.1.length)

section
variable (plan : ScanPlan) (error : Option Nat)

def Scan.find (s : Scan) : Option (Option Nat) :=
  if hasFreshBytes s.scanner.buf.length s.carry then
    let start := scanStart s.carry plan.minOverlapLen
    (scanAbsent plan (s.scanner.buf.drop start)).map fun found => found.map (start + ·)
  else some none

def Scan.found (s : Scan) : Left := ⟨{ s with stats := s.stats.map Stats.noteMatch }, 0, 1, none⟩

/-- `errno` may be 0 though there was an error. -/
def Scan.atEnd (s : Scan) : Left :=
  match error with
  | some errno => ⟨s, 2, 0, some (if errno = 0 then eio else errno)⟩
  | none => ⟨s, 1, 0, none⟩

def Scan.next (s : Scan) : Scan := { s with carry := carryLen s.scanner.buf.length plan.minOverlapLen }

def Scan.step (s : Scan) : Scan ⊕ Option Left :=
  match s.read.2.find plan with
  | none => .inr none
  | some (some _) => .inr (some s.read.2.found)
  | some none => if s.read.1 = [] then .inr (some (s.read.2.atEnd error)) else .inl (s.read.2.next plan)

end

/-! ## The search -/

structure SearchOpts where
  filesWithMatches : Bool := false
  filesWithoutMatch : Bool := false
  suppressErrors : Bool := false

/-- `closed` says whether the file has been closed. -/
structure Run where
  status : Nat
  matchCount : Option Nat
  scanner : Scanner
  stats : Option Stats
  closed : Bool
  output : List Output

def pathRecord (wanted : Bool) (displayName : Option Bytes) : List Output :=
  if wanted then displayName.toList.map .pathRecord else []

def Left.output (left : Left) (displayName : Option Bytes) (opts : SearchOpts) : List Output :=
  if left.status ≠ 2 then
    pathRecord (opts.filesWithMatches && left.fileMatches > 0) displayName ++
      pathRecord (opts.filesWithoutMatch && left.fileMatches = 0) displayName
  else if opts.suppressErrors then [] else left.errnum.toList.map (.pathError displayName)

def Left.finish (left : Left) (useStdin : Bool) (displayName : Option Bytes) (opts : SearchOpts)
    (matchCount : Option Nat) : Run where
  status := left.status
  matchCount := if left.status ≠ 2 then matchCount.map (· + left.fileMatches) else matchCount
  scanner := left.scan.scanner
  stats := left.scan.stats
  closed := !useStdin
  output := left.output displayName opts

/-- Each `fread` has a byte at least until the file is at its end. -/
def rawPresenceOpened (alloc : Nat → Bool) (input : Input) (useStdin : Bool) (displayName : Option Bytes)
    (absencePlan : Option ScanPlan) (opts : SearchOpts) (matchCount : Option Nat) (scanner : Scanner)
    (stats : Option Stats) : Option Run :=
  match absencePlan with
  | none => some ⟨2, matchCount, scanner, stats, false, []⟩
  | some plan =>
    match reserveBuffer alloc { scanner with buf := [] } (chunkCap + plan.minOverlapLen) with
    | none => some ⟨2, matchCount, { scanner with buf := [] }, stats, !useStdin, []⟩
    | some scanner =>
      (loop (Scan.step plan input.error) (input.file.rest.length + 1)
        { scanner, file := input.file, stats }).join.map fun left => left.finish useStdin displayName opts matchCount

end Bx.RawPresence
