import Bx.Kit.Bytes
import Bx.Kit.Loop

/-!
# Record stream

How `src/search/record_stream.c` cuts a stream into records. What a chunk holds
beyond the end of a record waits in the pending buffer for the next call. There
is memory for both buffers, and reading does not fail.
-/

namespace Bx.RecordStream

open Bx.Kit

/-! ## The stream -/

/-- What is left of a stream, and how many bytes each `fread` gets at most -/
structure File where
  rest : Bytes
  splits : List Nat

def File.fread (f : File) (cap : Nat) : Bytes × File :=
  let count := min cap (max 1 (f.splits.headD cap))
  (f.rest.take count, { rest := f.rest.drop count, splits := f.splits.tail })

def File.getc (f : File) : Option UInt8 × File := (f.rest.head?, { f with rest := f.rest.tail })

inductive Errno
  | overflow

/-- `pending` are the bytes up to `pending_len`, `record` those read for the record so far. -/
structure Stream where
  record : Bytes := []
  pending : Bytes := []
  pendingOff : Nat := 0
  recordLimit : Nat := 0
  errnum : Option Errno := none

def binaryProbeCap : Nat := 1024
def readChunkCap : Nat := 8192
def specialRecordLimit : Nat := 16 * 1024 * 1024

namespace Stream

variable (st : Stream)

def pendingAvailable : Nat := st.pending.length - st.pendingOff

def resetPending : Stream := { st with pending := [], pendingOff := 0 }

def compactPending : Stream :=
  if st.pendingOff = 0 then st else { st with pending := st.pending.drop st.pendingOff, pendingOff := 0 }

def appendPending (data : Bytes) : Stream :=
  if data = [] then st else { st.compactPending with pending := st.compactPending.pending ++ data }

def dropPending (count : Nat) : Stream :=
  if st.pendingOff + count = st.pending.length then st.resetPending else { st with pendingOff := st.pendingOff + count }

def appendRecord (data : Bytes) : Bool × Stream :=
  if data = [] then (true, st)
  else if 0 < st.recordLimit ∧ st.recordLimit < st.record.length + data.length then
    (false, { st with errnum := some .overflow })
  else (true, { st with record := st.record ++ data })

/-- Up to `target` bytes are pending, fewer at the end of the stream. -/
def fillPending (target : Nat) : Nat → Stream → File → Stream × File
  | 0, st, f => (st, f)
  | fuel + 1, st, f =>
    if st.pendingAvailable < target then
      let st := st.compactPending
      let chunk := f.fread (target - st.pendingAvailable)
      let st := { st with pending := st.pending ++ chunk.1 }
      if chunk.1 = [] then (st, chunk.2) else fillPending target fuel st chunk.2
    else (st, f)

def begin : Stream :=
  { st.resetPending with errnum := none, recordLimit := specialRecordLimit }

def probeBinaryPrefix (regular : Bool) (st : Stream) (f : File) : Stream × File :=
  let st := { st with errnum := none }
  if regular then (st, f) else fillPending binaryProbeCap (binaryProbeCap + 1) st f

end Stream

/-! ## Records -/

def firstBoundary (data : Bytes) (delimiter : UInt8) (stop : Option UInt8) : Option (Nat × Bool) :=
  match data.idxOf? delimiter, stop.bind fun byte => data.idxOf? byte with
  | some hit, some stopHit => if stopHit < hit then some (stopHit, true) else some (hit, false)
  | none, some stopHit => some (stopHit, true)
  | some hit, none => some (hit, false)
  | none, none => none

structure Reading where
  stream : Stream
  file : File
  stopped : Bool := false

structure Call where
  length : Option Nat
  stopped : Bool
  stream : Stream
  file : File

def Reading.fail (x : Reading) : Call := ⟨none, x.stopped, x.stream, x.file⟩

def Reading.done (x : Reading) : Call := ⟨some x.stream.record.length, x.stopped, x.stream, x.file⟩

variable (delimiter : UInt8)

variable (stop : Option UInt8)

def takePending (x : Reading) : Reading ⊕ Call :=
  if x.stream.pendingAvailable = 0 then .inl x
  else
    let pending := x.stream.pending.drop x.stream.pendingOff
    let hit := firstBoundary pending delimiter stop
    let stopped := x.stopped || hit.elim false (·.2)
    let take := hit.elim x.stream.pendingAvailable (·.1 + 1)
    let appended := x.stream.appendRecord (pending.take take)
    if !appended.1 then .inr (Reading.fail ⟨appended.2, x.file, stopped⟩)
    else
      let st := appended.2.dropPending take
      if hit.isSome then .inr (Reading.done ⟨st, x.file, stopped⟩) else .inl ⟨st, x.file, stopped⟩

def readUntilStep (x : Reading) : Reading ⊕ Call :=
  match takePending delimiter stop x with
  | .inr call => .inr call
  | .inl x =>
    let read := x.file.fread readChunkCap
    if read.1 = [] then
      let x := { x with file := read.2 }
      .inr (if x.stream.record = [] then x.fail else x.done)
    else
      let hit := firstBoundary read.1 delimiter stop
      let stopped := x.stopped || hit.elim false (·.2)
      let take := hit.elim read.1.length (·.1 + 1)
      let appended := x.stream.appendRecord (read.1.take take)
      if !appended.1 then .inr (Reading.fail ⟨appended.2, read.2, stopped⟩)
      else
        let x : Reading := ⟨appended.2.appendPending (read.1.drop take), read.2, stopped⟩
        if hit.isSome then .inr x.done else .inl x

def unread (st : Stream) (f : File) : Bytes := st.pending.drop st.pendingOff ++ f.rest

def opened (st : Stream) (f : File) : Reading := ⟨{ st with errnum := none, record := [] }, f, false⟩

def readUntil (st : Stream) (f : File) : Call :=
  (loop (readUntilStep delimiter stop) ((unread st f).length + 1) (opened st f)).getD (opened st f).fail

def read (st : Stream) (f : File) : Call := readUntil delimiter none st f

def readLiveStep (x : Reading) : Reading ⊕ Call :=
  match takePending delimiter none x with
  | .inr call => .inr call
  | .inl x =>
    match x.file.getc with
    | (none, file) =>
      let x := { x with file := file }
      .inr (if x.stream.record = [] then x.fail else x.done)
    | (some byte, file) =>
      let appended := x.stream.appendRecord [byte]
      let x : Reading := ⟨appended.2, file, x.stopped⟩
      if !appended.1 then .inr x.fail else if byte = delimiter then .inr x.done else .inl x

def readLive (st : Stream) (f : File) : Call :=
  (loop (readLiveStep delimiter) ((unread st f).length + 1) (opened st f)).getD (opened st f).fail

/-- Calls until one returns -1: the records, which of them were stopped, and the error at the end -/
def records (call : Stream → File → Call) : Nat → Stream → File → List (Bytes × Bool) × Option Errno
  | 0, _, _ => ([], none)
  | fuel + 1, st, f =>
    let c := call st f
    match c.length with
    | none => ([], c.stream.errnum)
    | some _ =>
      let more := records call fuel c.stream c.file
      ((c.stream.record, c.stopped) :: more.1, more.2)

end Bx.RecordStream
