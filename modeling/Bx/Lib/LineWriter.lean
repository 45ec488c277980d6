import Bx.Kit.Bytes

/-!
# The line writer

`src/lib/line_writer.c` collects what is written in a buffer; what is larger goes past it. The first failure is kept and
answers every later call. The answers of `write(2)` are given in advance, and after the last of them everything is
accepted.
-/

namespace Bx.Lib

open Kit

/-! ## The descriptor -/

def eintr : Nat := 4

def eio : Nat := 5

def epipe : Nat := 32

/-- What `write(2)` answers: how many bytes it took at most, or why it failed -/
inductive Answer where
  | takes (count : Nat)
  | fails (errno : Nat)

def Answer.Accepts : Answer → Prop
  | takes count => count ≠ 0
  | fails errno => errno = eintr

structure Fd where
  answers : List Answer
  delivered : Bytes
  /-- Whether a write was given up -/
  failed : Bool

/-- `bx_xwrite_all`: the answers that are left, what is delivered, and the error it gives up on -/
def xwriteAll : List Answer → Bytes → Bytes → List Answer × Bytes × Option Nat
  | [], delivered, data => ([], delivered ++ data, none)
  | answer :: answers, delivered, data =>
    if data = [] then (answer :: answers, delivered, none)
    else
      match answer with
      | .fails errno => if errno = eintr then xwriteAll answers delivered data else (answers, delivered, some errno)
      | .takes count =>
        if count = 0 then (answers, delivered, some eio)
        else xwriteAll answers (delivered ++ data.take count) (data.drop count)

/-! ## Counters -/

/-- `struct bx_output_profile_sink`, as far as a writer counts -/
structure Profile where
  enabled : Bool
  bytes : Nat
  flushes : Nat
  shortWrites : Nat
  retries : Nat
  epipes : Nat

variable (profile : Profile)

def Profile.noteBytes (bytes : Nat) : Profile :=
  if profile.enabled then { profile with bytes := (profile.bytes + bytes) % 2 ^ 64 } else profile

def Profile.noteFlush : Profile :=
  if profile.enabled then { profile with flushes := (profile.flushes + 1) % 2 ^ 64 } else profile

def Profile.noteShortWrite : Profile :=
  if profile.enabled then { profile with shortWrites := (profile.shortWrites + 1) % 2 ^ 64 } else profile

def Profile.noteRetry : Profile :=
  if profile.enabled then { profile with retries := (profile.retries + 1) % 2 ^ 64 } else profile

def Profile.noteEpipe : Profile :=
  if profile.enabled then { profile with epipes := (profile.epipes + 1) % 2 ^ 64 } else profile

def Profile.noteTaken (taken remaining : Nat) : Profile :=
  if taken < remaining then (profile.noteBytes taken).noteShortWrite else profile.noteBytes taken

def xwriteAllProfiled : List Answer → Profile → Bytes → Bytes → Profile × List Answer × Bytes × Option Nat
  | [], profile, delivered, data =>
    (if data = [] then profile else profile.noteTaken data.length data.length, [], delivered ++ data, none)
  | answer :: answers, profile, delivered, data =>
    if data = [] then (profile, answer :: answers, delivered, none)
    else
      match answer with
      | .fails errno =>
        if errno = eintr then xwriteAllProfiled answers profile.noteRetry delivered data
        else (if errno = epipe then profile.noteEpipe else profile, answers, delivered, some errno)
      | .takes count =>
        if count = 0 then (profile, answers, delivered, some eio)
        else
          xwriteAllProfiled answers (profile.noteTaken (min count data.length) data.length)
            (delivered ++ data.take count) (data.drop count)

/-! ## The writer -/

/-- What is in the buffer is its first `length` bytes. -/
structure LineWriter where
  fd : Fd
  buffer : Bytes
  capacity : Nat
  error : Nat
  profile : Option Profile

namespace LineWriter

def init (answers : List Answer) (hasBuffer : Bool) (capacity : Nat) : LineWriter :=
  { fd := ⟨answers, [], false⟩, buffer := [], capacity := if hasBuffer then capacity else 0, error := 0, profile := none }

variable (writer : LineWriter)

def setProfile (profile : Option Profile) : LineWriter := { writer with profile }

def setError (errno : Nat) : LineWriter :=
  { writer with error := if errno ≠ 0 then errno else eio }

/-- After the calls of `write(2)` -/
def finish : List Answer × Bytes × Option Nat → LineWriter × Bool
  | (answers, delivered, none) => ({ writer with fd := { writer.fd with answers, delivered } }, true)
  | (answers, delivered, some errno) => ({ writer with fd := ⟨answers, delivered, true⟩ }.setError errno, false)

def writeAll (data : Bytes) : LineWriter × Bool :=
  match writer.profile with
  | some profile =>
    if profile.enabled then
      let counted := xwriteAllProfiled writer.fd.answers profile writer.fd.delivered data
      (writer.setProfile (some counted.1)).finish counted.2
    else writer.finish (xwriteAll writer.fd.answers writer.fd.delivered data)
  | none => writer.finish (xwriteAll writer.fd.answers writer.fd.delivered data)

def noteFlush : LineWriter := writer.setProfile (writer.profile.map Profile.noteFlush)

def flush : LineWriter × Bool :=
  if writer.error ≠ 0 then (writer, false)
  else if writer.buffer = [] then (writer.noteFlush, true)
  else { writer.noteFlush with buffer := [] }.writeAll writer.buffer

/-- `bx_line_writer_write`; no data stands for a null pointer with a positive length. -/
def write (data : Option Bytes) : LineWriter × Bool :=
  match data with
  | none => (writer, false)
  | some data =>
    if writer.error ≠ 0 then (writer, false)
    else if data.length = 0 then (writer, true)
    else if writer.capacity = 0 ∨ data.length > writer.capacity then
      if writer.flush.2 then writer.flush.1.writeAll data else (writer.flush.1, false)
    else if data.length > writer.capacity - writer.buffer.length then
      if writer.flush.2 then ({ writer.flush.1 with buffer := writer.flush.1.buffer ++ data }, true)
      else (writer.flush.1, false)
    else ({ writer with buffer := writer.buffer ++ data }, true)

/-! ## Runs -/

inductive Call where
  | write (data : Option Bytes)
  | flush

def call : Call → LineWriter × Bool
  | .write data => writer.write data
  | .flush => writer.flush

def run : LineWriter → List Call → LineWriter × List Bool
  | writer, [] => (writer, [])
  | writer, c :: calls => ((run (writer.call c).1 calls).1, (writer.call c).2 :: (run (writer.call c).1 calls).2)

def Call.data : Call → Bytes
  | .write data => data.getD []
  | .flush => []

def written (calls : List Call) : Bytes := calls.flatMap Call.data

end LineWriter

end Bx.Lib
