import Bx.Search.RecordStream
import Bx.Search.SearchBuffered

/-!
# Looking at the rest of a binary file

`bx_search_binary_scan_remaining` from `src/search/binary_scan.c` reads what is left in chunks and asks whether one of
the segments between line ends and NULs is selected.
-/

namespace Bx.BinaryScan

open Kit
open Bx.RecordStream (Stream File)
open Bx.SearchBuffered (Matcher SearchOpts newline nul)

def chunkCap : Nat := 8192

def readChunk (cap : Nat) (st : Stream) (f : File) : Bytes × Stream × File :=
  let copied := min st.pendingAvailable cap
  let head := (st.pending.drop st.pendingOff).take copied
  let st := if 0 < st.pendingAvailable then st.dropPending copied else st
  if copied = cap then (head, st, f)
  else
    let read := f.fread (cap - copied)
    (head ++ read.1, st, read.2)

def segmentLimit (st : Stream) : Nat :=
  if st.recordLimit = 0 then RecordStream.specialRecordLimit else st.recordLimit

def isBoundary (b : UInt8) : Bool := b = newline || b = nul

/-- The segment so far; of an empty segment it is known whether it is selected once one has been met. -/
structure Scan where
  segment : Bytes := []
  emptySelected : Option Bool := none

def asResult (selected : Bool) : Int := if selected then 1 else 0

def segmentAppend (limit : Nat) (segment data : Bytes) : Option Bytes :=
  if data = [] then some segment
  else if limit < segment.length ∨ limit - segment.length < data.length then none
  else some (segment ++ data)

section
variable (m : Matcher) (opts : SearchOpts)

def segmentMatches (segment : Bytes) : Bool := opts.segmentMatches m segment

/-- What is left of a chunk, from `start` on -/
def scanChunk (limit : Nat) : Nat → Bytes → Scan → Scan ⊕ Int
  | 0, _, s => .inl s
  | fuel + 1, chunk, s =>
    if chunk = [] then .inl s
    else
      let piece := chunk.takeWhile fun b => !isBoundary b
      match segmentAppend limit s.segment piece with
      | none => .inr (-1)
      | some grown =>
        match chunk.drop piece.length with
        | [] => .inl { s with segment := grown }
        | _ :: behind =>
          if grown ≠ [] then
            if segmentMatches m opts grown then .inr 1 else scanChunk limit fuel behind { s with segment := [] }
          else
            let emptySelected := s.emptySelected.getD (segmentMatches m opts [])
            if emptySelected then .inr 1
            else
              scanChunk limit fuel (behind.dropWhile isBoundary) { segment := grown, emptySelected := some emptySelected }

structure Scanning where
  stream : Stream
  file : File
  scan : Scan := {}

def scanStep (limit : Nat) (x : Scanning) : Scanning ⊕ Int :=
  let read := readChunk chunkCap x.stream x.file
  if read.1 = [] then
    .inr (if read.2.1.errnum.isSome then -1
      else if x.scan.segment ≠ [] then asResult (segmentMatches m opts x.scan.segment) else 0)
  else
    match scanChunk m opts limit read.1.length read.1 x.scan with
    | .inl scan => .inl ⟨read.2.1, read.2.2, scan⟩
    | .inr result => .inr result

def scanRemaining (st : Stream) (f : File) : Option Int :=
  loop (scanStep m opts (segmentLimit st)) ((RecordStream.unread st f).length + 1) ⟨st, f, {}⟩

end

end Bx.BinaryScan
