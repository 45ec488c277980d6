import Bx.Kit.SortedList
import Bx.Kit.Transition

/-!
# Ordered publication

A coordinator reserves slots for packets that workers complete in any order, and publishes them in the order of their
64-bit sequence numbers (`src/lib/ordered_publication.c`). Each critical section and each callback is one step. A slot
is known by how many were reserved before it, and is completed or released once.
-/

namespace Bx.OrderedPublication

open Bx.Kit

def seqModulus : Nat := 2 ^ 64

structure Opts where
  maxInflight : Nat
  /-- Whether there is a `cancel` state and a `dispose`. -/
  cancel : Bool
  dispose : Bool
  maxInflight_pos : 0 < maxInflight

structure Packet where
  seq : Nat
  /-- The slot; the code does not keep this. -/
  slot : Nat

def Packet.ofSlot (slot : Nat) : Packet := ⟨slot % seqModulus, slot⟩

inductive Call
  | reserveSlot
  | drain

inductive Coordinator
  | idle
  /-- At the top of the loop of `bx_ordered_publication_flush_ready`. -/
  | flushing (call : Call)
  | publishing (call : Call) (packet : Packet)
  /-- The callback has returned, and the slot is still taken. -/
  | published (call : Call) (packet : Packet) (ok : Bool)
  | disposing (call : Call) (packet : Packet) (ok : Bool)
  | flushed (call : Call)
  /-- In the loop of `bx_ordered_publication_wait_for_ready`. -/
  | waiting (call : Call)
  | asleep (call : Call)

structure State where
  pendingHead : List Packet
  inflight : Nat
  nextSubmitSeq : Nat
  nextPublishSeq : Nat
  requested : Bool
  coordinator : Coordinator
  /-- How many slots were reserved, those that a worker is to complete, and those released. -/
  reserved : Nat
  held : List Nat
  released : List Nat
  /-- The calls of `publish` and `dispose` so far. -/
  published : List Packet
  disposed : List Packet
  /-- The packets whose slot was given back after their publication. -/
  finished : List Packet

/-! ## Under the lock -/

def insertPending (packet : Packet) (pending : List Packet) : List Packet :=
  insertAfter (fun p => p.seq < packet.seq) packet pending

def ready (s : State) : Option Packet := s.pendingHead.head?.filter (·.seq = s.nextPublishSeq)

def Coordinator.wake : Coordinator → Coordinator
  | .asleep call => .waiting call
  | coordinator => coordinator

/-! ## Steps -/

inductive Action
  | call (call : Call)
  | take
  | publish (ok : Bool)
  | giveBack
  | dispose
  | flushed
  | grant
  | drained
  | wait
  | park
  | resume
  | publishPacket (slot : Nat)
  | releaseSlot (slot : Nat)
  | wakeCoordinator

inductive Step (opts : Opts) : State → Action → State → Prop
  | call {s : State} {c : Call} : s.coordinator = .idle → Step opts s (.call c) { s with coordinator := .flushing c }
  | take {s : State} {c : Call} {p : Packet} {rest : List Packet} : s.coordinator = .flushing c →
      s.pendingHead = p :: rest → p.seq = s.nextPublishSeq → Step opts s .take
        { s with
          pendingHead := rest
          nextPublishSeq := (s.nextPublishSeq + 1) % seqModulus
          coordinator := .publishing c p }
  | publish {s : State} {c : Call} {p : Packet} {ok : Bool} : s.coordinator = .publishing c p →
      Step opts s (.publish ok)
        { s with
          requested := s.requested || (!ok && opts.cancel)
          coordinator := .published c p ok
          published := s.published ++ [p] }
  | giveBack {s : State} {c : Call} {p : Packet} {ok : Bool} : s.coordinator = .published c p ok →
      Step opts s .giveBack
        { s with
          inflight := if s.inflight > 0 then s.inflight - 1 else s.inflight
          coordinator := .disposing c p ok
          finished := s.finished ++ [p] }
  | dispose {s : State} {c : Call} {p : Packet} {ok : Bool} : s.coordinator = .disposing c p ok →
      Step opts s .dispose
        { s with
          coordinator := if ok then .flushing c else .idle
          disposed := if opts.dispose then s.disposed ++ [p] else s.disposed }
  | flushed {s : State} {c : Call} : s.coordinator = .flushing c → ready s = none →
      Step opts s .flushed { s with coordinator := .flushed c }
  | grant {s : State} : s.coordinator = .flushed .reserveSlot → s.inflight < opts.maxInflight →
      Step opts s .grant
        { s with
          inflight := s.inflight + 1
          nextSubmitSeq := (s.nextSubmitSeq + 1) % seqModulus
          coordinator := .idle
          reserved := s.reserved + 1
          held := s.reserved :: s.held }
  | waitSlot {s : State} : s.coordinator = .flushed .reserveSlot → ¬ s.inflight < opts.maxInflight →
      Step opts s .wait { s with coordinator := .waiting .reserveSlot }
  -- `bx_ordered_publication_drain` returns true
  | drained {s : State} : s.coordinator = .flushed .drain → s.inflight = 0 →
      Step opts s .drained { s with coordinator := .idle }
  | waitDrain {s : State} : s.coordinator = .flushed .drain → s.inflight ≠ 0 →
      Step opts s .wait { s with coordinator := .waiting .drain }
  | park {s : State} {c : Call} : s.coordinator = .waiting c → ready s = none → s.inflight > 0 →
      Step opts s .park { s with coordinator := .asleep c }
  | resume {s : State} {c : Call} : s.coordinator = .waiting c → ¬ (ready s = none ∧ s.inflight > 0) →
      Step opts s .resume { s with coordinator := .flushing c }
  | publishPacket {s : State} {slot : Nat} : slot ∈ s.held → Step opts s (.publishPacket slot)
      { s with
        pendingHead := insertPending (.ofSlot slot) s.pendingHead
        coordinator := s.coordinator.wake
        held := s.held.erase slot }
  | releaseSlot {s : State} {slot : Nat} : slot ∈ s.held → Step opts s (.releaseSlot slot)
      { s with
        inflight := if s.inflight > 0 then s.inflight - 1 else s.inflight
        coordinator := s.coordinator.wake
        held := s.held.erase slot
        released := slot :: s.released }
  -- the condition variable may wake on its own
  | wakeCoordinator {s : State} {c : Call} : s.coordinator = .asleep c →
      Step opts s .wakeCoordinator { s with coordinator := .waiting c }

def initial : State :=
  { pendingHead := []
    inflight := 0
    nextSubmitSeq := 0
    nextPublishSeq := 0
    requested := false
    coordinator := .idle
    reserved := 0
    held := []
    released := []
    published := []
    disposed := []
    finished := [] }

def system (opts : Opts) : System State Action := { init := fun s => s = initial, step := Step opts }

end Bx.OrderedPublication
