import Bx.Kit.SortedList
import Bx.Kit.Transition

/-!
# The output sink

Producers hand records to one emitter thread (`src/lib/output_sink.c`). An ordered sink emits by sequence number: the
queue is kept sorted, numbers given up by `skipSeq` are kept in a list, and the emitter waits for the record numbered
`nextSeq` until the sink is closed. Each critical section is one step.
-/

namespace Bx.OutputSink

open Bx.Kit

def canAdd (current amount limit : Nat) : Bool :=
  if limit = 0 ∨ amount = 0 then true
  else if amount > limit then current = 0
  else current ≤ limit - amount

def seqModulus : Nat := 2 ^ 64

structure Opts (Record : Type*) where
  maxPending : Nat
  maxPendingBytes : Nat
  firstSeq : Nat
  ordered : Bool
  recordSeq : Record → Nat
  recordSize : Record → Nat
  /-- Whether there is a `dispose_record`. -/
  disposeRecord : Bool
  maxPending_pos : 0 < maxPending
  firstSeq_lt : firstSeq < seqModulus
  recordSeq_lt : ∀ r, recordSeq r < seqModulus

structure Node (Record : Type*) where
  record : Record
  seq : Nat
  size : Nat

structure Sink (Record : Type*) where
  head : List (Node Record)
  skippedSeqs : List Nat
  pending : Nat
  pendingBytes : Nat
  nextSeq : Nat
  closed : Bool

variable {Record : Type*}

/-! ## Under the lock -/

variable (opts : Opts Record)

/-- The node that `bx_output_sink_submit` allocates. -/
def makeNode (record : Record) : Node Record :=
  { record
    seq := opts.recordSeq record
    size := if opts.maxPendingBytes > 0 then opts.recordSize record else 0 }

variable (sink : Sink Record)

def hasByteCapacity (node : Node Record) : Bool :=
  opts.maxPendingBytes = 0 || canAdd sink.pendingBytes node.size opts.maxPendingBytes

def insertNode (ordered : Bool) (node : Node Record) : List (Node Record) → List (Node Record)
  | [] => [node]
  | it :: rest => if !ordered || node.seq < it.seq then node :: it :: rest else it :: insertAfter rest
where
  insertAfter : List (Node Record) → List (Node Record)
    | [] => [node]
    | it :: rest => if it.seq ≤ node.seq then it :: insertAfter rest else node :: it :: rest

/-- `bx_output_sink_consume_skipped_locked`: what is left, and the next number. -/
def consumeSkipped : List Nat → Nat → List Nat × Nat
  | [], nextSeq => ([], nextSeq)
  | seq :: skipped, nextSeq =>
    if seq = nextSeq then consumeSkipped skipped ((nextSeq + 1) % seqModulus) else (seq :: skipped, nextSeq)

def advanceTo (skipped : List Nat) (nextSeq : Nat) : Sink Record :=
  let (skippedSeqs, nextSeq) := consumeSkipped skipped nextSeq
  { sink with skippedSeqs, nextSeq }

def dropHead (node : Node Record) (rest : List (Node Record)) : Sink Record :=
  { sink with
    head := rest
    pending := sink.pending - 1
    pendingBytes := if node.size ≤ sink.pendingBytes then sink.pendingBytes - node.size else 0 }

def takeReadyNode : Option (Node Record × Sink Record) :=
  match sink.head with
  | [] => none
  | node :: rest =>
    if opts.ordered && node.seq ≠ sink.nextSeq && !sink.closed then none
    else if opts.ordered && node.seq = sink.nextSeq then
      some (node, advanceTo (dropHead sink node rest) sink.skippedSeqs ((sink.nextSeq + 1) % seqModulus))
    else some (node, dropHead sink node rest)

def mustWait (node : Node Record) : Bool :=
  !sink.closed && (sink.pending ≥ opts.maxPending || !hasByteCapacity opts sink node)

def enqueue (opts : Opts Record) (sink : Sink Record) (node : Node Record) : Sink Record :=
  { sink with
    head := insertNode opts.ordered node sink.head
    pending := sink.pending + 1
    pendingBytes := sink.pendingBytes + node.size }

/-- The skipped numbers with `seq` in its place, unless it is there already. -/
def insertSkipped (seq : Nat) : List Nat → Option (List Nat)
  | [] => some [seq]
  | s :: rest =>
    if s < seq then (insertSkipped seq rest).map (s :: ·) else if s = seq then none else some (seq :: s :: rest)

structure SkipSeq (Record : Type*) where
  sink : Sink Record
  result : Bool
  signal : Bool

/-- `allocated`: the array can grow, if it has to. -/
def skipSeq (seq : Nat) (allocated : Bool) : SkipSeq Record :=
  if !opts.ordered then ⟨sink, true, false⟩
  else if seq < sink.nextSeq then ⟨sink, true, false⟩
  else
    match insertSkipped seq sink.skippedSeqs with
    | none => ⟨sink, true, false⟩
    | some skipped => if !allocated then ⟨sink, false, false⟩ else ⟨advanceTo sink skipped sink.nextSeq, true, true⟩

/-- The records `bx_output_sink_dispose` hands to `dispose_record` after the join. -/
def leftovers : List Record :=
  if opts.disposeRecord then sink.head.map (·.record) else []

/-! ## Threads -/

inductive Call
  | idle
  | calling
  | asleep
  | returned (ok : Bool)
  deriving DecidableEq

inductive Emitter (Record : Type*)
  | ready
  | asleep
  | emitting (node : Node Record)
  | disposing (node : Node Record)
  | exited

structure State (Record : Type*) where
  sink : Sink Record
  call : Record → Call
  emitter : Emitter Record
  /-- The calls of `emit_record` and `dispose_record` so far. -/
  emitted : List Record
  disposed : List Record
  /-- The numbers some producer has submitted or skipped. -/
  used : List Nat
  /-- The numbers for which `bx_output_sink_skip_seq` returned true. -/
  skipped : List Nat

def Call.wake : Call → Call
  | .asleep => .calling
  | call => call

def Emitter.wake : Emitter Record → Emitter Record
  | .asleep => .ready
  | emitter => emitter

def initial : State Record :=
  { sink := ⟨[], [], 0, 0, opts.firstSeq, false⟩
    call := fun _ => .idle
    emitter := .ready
    emitted := []
    disposed := []
    used := []
    skipped := [] }

inductive Action (Record : Type*)
  | submit (record : Record)
  | submitFails (record : Record)
  | lock (record : Record)
  | skip (seq : Nat) (allocated : Bool)
  | close
  | wake
  | take
  | park
  | exit
  | emit
  | dispose
  | wakeProducer (record : Record)
  | wakeEmitter

def Action.isEmitter : Action Record → Bool
  | .take | .park | .exit | .emit | .dispose => true
  | _ => false

variable (s : State Record)

def State.afterSkip (seq : Nat) (allocated : Bool) : State Record :=
  { s with
    sink := (skipSeq opts s.sink seq allocated).sink
    emitter := if (skipSeq opts s.sink seq allocated).signal then s.emitter.wake else s.emitter
    used := seq :: s.used
    skipped := if (skipSeq opts s.sink seq allocated).result then seq :: s.skipped else s.skipped }

def State.afterTake (node : Node Record) (sink : Sink Record) (call : Record → Call) : State Record :=
  { s with sink, call, emitter := .emitting node }

variable [DecidableEq Record]

def State.afterEnqueue (r : Record) : State Record :=
  { s with
    sink := enqueue opts s.sink (makeNode opts r)
    call := Function.update s.call r (.returned true)
    emitter := s.emitter.wake }

inductive Signalled (call : Record → Call) : (Record → Call) → Prop
  | one {r : Record} : call r = .asleep → Signalled call (Function.update call r .calling)
  | nobody : (∀ r, call r ≠ .asleep) → Signalled call call

/-- One step of one thread. Every number from `firstSeq` up is submitted or
skipped at most once. -/
inductive Step (opts : Opts Record) : State Record → Action Record → State Record → Prop
  | submit {s : State Record} {r : Record} : s.call r = .idle → opts.firstSeq ≤ opts.recordSeq r →
      opts.recordSeq r ∉ s.used → Step opts s (.submit r)
        { s with call := Function.update s.call r .calling, used := opts.recordSeq r :: s.used }
  | submitFails {s : State Record} {r : Record} : s.call r = .idle → opts.firstSeq ≤ opts.recordSeq r →
      opts.recordSeq r ∉ s.used → Step opts s (.submitFails r)
        { s with call := Function.update s.call r (.returned false), used := opts.recordSeq r :: s.used }
  | refuse {s : State Record} {r : Record} : s.call r = .calling → s.sink.closed = true →
      Step opts s (.lock r) { s with call := Function.update s.call r (.returned false) }
  | wait {s : State Record} {r : Record} : s.call r = .calling → mustWait opts s.sink (makeNode opts r) = true →
      Step opts s (.lock r) { s with call := Function.update s.call r .asleep }
  | enqueue {s : State Record} {r : Record} : s.call r = .calling → s.sink.closed = false →
      mustWait opts s.sink (makeNode opts r) = false → Step opts s (.lock r)
        (s.afterEnqueue opts r)
  | skip {s : State Record} {seq : Nat} {allocated : Bool} : opts.firstSeq ≤ seq → seq < seqModulus → seq ∉ s.used →
      Step opts s (.skip seq allocated)
        (s.afterSkip opts seq allocated)
  | close {s : State Record} : Step opts s .close
      { s with sink := { s.sink with closed := true }, call := fun r => (s.call r).wake, emitter := s.emitter.wake }
  | wake {s : State Record} : Step opts s .wake { s with call := fun r => (s.call r).wake, emitter := s.emitter.wake }
  | take {s : State Record} {node : Node Record} {sink : Sink Record} {call : Record → Call} : s.emitter = .ready →
      takeReadyNode opts s.sink = some (node, sink) → Signalled s.call call →
      Step opts s .take (s.afterTake node sink call)
  | park {s : State Record} : s.emitter = .ready → takeReadyNode opts s.sink = none →
      ¬ (s.sink.closed = true ∧ s.sink.pending = 0) → Step opts s .park { s with emitter := .asleep }
  | exit {s : State Record} : s.emitter = .ready → takeReadyNode opts s.sink = none → s.sink.closed = true →
      s.sink.pending = 0 → Step opts s .exit { s with emitter := .exited }
  | emit {s : State Record} {node : Node Record} : s.emitter = .emitting node →
      Step opts s .emit { s with emitter := .disposing node, emitted := s.emitted ++ [node.record] }
  | dispose {s : State Record} {node : Node Record} : s.emitter = .disposing node → Step opts s .dispose
      { s with
        emitter := .ready
        disposed := if opts.disposeRecord then s.disposed ++ [node.record] else s.disposed }
  -- condition variables may wake on their own
  | wakeProducer {s : State Record} {r : Record} : s.call r = .asleep →
      Step opts s (.wakeProducer r) { s with call := Function.update s.call r .calling }
  | wakeEmitter {s : State Record} : s.emitter = .asleep → Step opts s .wakeEmitter { s with emitter := .ready }

def system : System (State Record) (Action Record) :=
  { init := fun s => s = initial opts, step := Step opts }

end Bx.OutputSink
