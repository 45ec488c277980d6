import Bx.Kit.FdTable
import Bx.Kit.SortedList
import Bx.Kit.Transition
import Mathlib.Data.List.Sort

/-!
# Descriptor transactions

A stack of nested transactions on the process's descriptors (`src/lib/fd_transaction.c`). Saving a target puts a
private duplicate of it at a high number, for a rollback to restore it from. A transaction declares the numbers it may
name, and a duplicate in their way is moved first. Every operation takes its faults as an argument.
-/

namespace Bx.FdTransaction

open Bx.Kit

variable {File : Type*}

structure Entry (File : Type*) where
  targetFd : Nat
  /-- `none` for the -1 of a target that was closed. -/
  savedFd : Option Nat
  targetFlags : Bool
  /-- What the target was when it was saved; the code does not keep this. -/
  original : Option (Desc File)

structure Ref where
  fd : Nat
  saved : Bool

structure Transaction where
  address : Nat
  references : List Ref
  entryStart : Nat
  nextBackupFd : Nat

structure State (File : Type*) where
  fds : FdTable File
  entries : List (Entry File)
  entryCapacity : Nat
  active : List Transaction

inductive Errno
  | einval
  | enomem
  | emfile

structure Faults where
  /-- `malloc` and `realloc` succeed. -/
  alloc : Bool
  /-- `F_DUPFD_CLOEXEC` with this minimum succeeds, if a number is free. -/
  dup : Nat → Bool
  dup2 : Nat → Bool

variable (faults : Faults) (s : State File) (address : Nat) (transaction : Transaction)

def Faults.none : Faults := ⟨true, fun _ => true, fun _ => true⟩

def sizeMax : Nat := 2 ^ 64 - 1

def sizeofRef : Nat := 8

def sizeofEntry : Nat := 12

/-! ## References -/

def refBelow (references : List Ref) (fd index : Nat) : Bool := references[index]?.any fun r => r.fd < fd

def findRef (references : List Ref) (fd : Nat) : Option Nat :=
  let first := lowerBound (refBelow references fd) 0 references.length
  if references[first]?.any (·.fd = fd) then some first else none

def Transaction.names (fd : Nat) : Bool := (findRef transaction.references fd).isSome

/-- The sorted list without repetitions, `last` being the number kept last. -/
def dropRepeats (last : Option Nat) : List Nat → List Nat
  | [] => []
  | fd :: fds => if last = some fd then dropRepeats last fds else fd :: dropRepeats (some fd) fds

def sortedReferences (descriptorReferences : List Nat) : List Ref :=
  (dropRepeats none (descriptorReferences.insertionSort (· ≤ ·))).map fun fd => ⟨fd, false⟩

def insertReference (fd : Nat) : List Ref → List Ref
  | [] => [⟨fd, false⟩]
  | r :: references => if r.fd < fd then r :: insertReference fd references else ⟨fd, false⟩ :: r :: references

/-! ## Invariants -/

def refsIncreasing : List Ref → Bool
  | r :: s :: references => r.fd < s.fd && refsIncreasing (s :: references)
  | _ => true

def referencesInvariant : Bool :=
  refsIncreasing transaction.references && transaction.nextBackupFd ≥ 10

def backupInvariant (entryIndex : Nat) : Bool :=
  match s.entries[entryIndex]? with
  | none => false
  | some entry =>
    entry.savedFd ≠ some entry.targetFd &&
    (match entry.savedFd with
      | none => true
      | some savedFd =>
        (s.fds savedFd).any (·.cloexec) &&
        (List.range entryIndex).all (fun i => s.entries[i]?.all fun other => other.savedFd ≠ some savedFd) &&
        s.active.all fun transaction => !transaction.names savedFd) &&
    (List.range entryIndex).all fun i => s.entries[i]?.all fun other =>
      some other.targetFd ≠ entry.savedFd && other.savedFd ≠ some entry.targetFd

def entryRange (start stop : Nat) : List Nat := List.range' start (stop - start)

def frameInvariant (frameEnd : Nat) : Bool :=
  transaction.entryStart ≤ frameEnd && referencesInvariant transaction &&
  (entryRange transaction.entryStart frameEnd).all (fun i => s.entries[i]?.any fun entry =>
    ((findRef transaction.references entry.targetFd).any fun index =>
      transaction.references[index]?.any (·.saved)) &&
    backupInvariant s i &&
    (entryRange transaction.entryStart i).all fun j => s.entries[j]?.all fun other =>
      other.targetFd ≠ entry.targetFd) &&
  transaction.references.all fun reference =>
    reference.saved = (entryRange transaction.entryStart frameEnd).any fun j =>
      s.entries[j]?.any fun entry => entry.targetFd = reference.fd

def framesInvariant (s : State File) : List Transaction → Nat → Bool
  | [], frameEnd => frameEnd = 0
  | transaction :: parents, frameEnd =>
    frameInvariant s transaction frameEnd && framesInvariant s parents transaction.entryStart

/-- `bx_fd_transaction_stack_invariants`; a transaction is never its own ancestor. -/
def stackInvariants : Bool :=
  s.entries.length ≤ s.entryCapacity && (s.active.map (·.address)).Nodup &&
    framesInvariant s s.active s.entries.length

/-! ## Private duplicates -/

structure DupPrivate (File : Type*) where
  result : Except Errno Nat
  fds : FdTable File
  nextBackupFd : Nat

/-- `bx_fd_transaction_dup_private`, for the transaction that comes first in `frames`. -/
def dupPrivate (faults : Faults) (frames : List Transaction) (sourceFd : Nat) (nextBackupFd : Nat)
    (fds : FdTable File) : DupPrivate File :=
  if !faults.dup nextBackupFd then ⟨.error .emfile, fds, nextBackupFd⟩
  else
    match _ : fds.dupMin sourceFd nextBackupFd with
    | none => ⟨.error .emfile, fds, nextBackupFd⟩
    | some (duplicate, fds') =>
      let collision := frames.any fun frame => frame.names duplicate
      if duplicate = intMax then
        if !collision then ⟨.ok duplicate, fds', intMax⟩ else ⟨.error .emfile, fds'.close duplicate, intMax⟩
      else if !collision then ⟨.ok duplicate, fds', duplicate + 1⟩
      else dupPrivate faults frames sourceFd (duplicate + 1) (fds'.close duplicate)
termination_by intMax + 1 - nextBackupFd
decreasing_by
  have h := FdTable.dupMin_some ‹_›
  omega

structure Relocate (File : Type*) where
  error : Option Errno
  fds : FdTable File
  entries : List (Entry File)
  nextBackupFd : Nat

def relocate (faults : Faults) (frames : List Transaction) (inTheWay : Nat → Bool) (onlyFirst : Bool) :
    List (Entry File) → Nat → FdTable File → Relocate File
  | [], nextBackupFd, fds => ⟨none, fds, [], nextBackupFd⟩
  | entry :: entries, nextBackupFd, fds =>
    match entry.savedFd.filter inTheWay with
    | none =>
      let rest := relocate faults frames inTheWay onlyFirst entries nextBackupFd fds
      { rest with entries := entry :: rest.entries }
    | some savedFd =>
      let duplicate := dupPrivate faults frames savedFd nextBackupFd fds
      match duplicate.result with
      | .error error => ⟨some error, duplicate.fds, entry :: entries, duplicate.nextBackupFd⟩
      | .ok fd =>
        let moved := { entry with savedFd := some fd }
        let fds := duplicate.fds.close savedFd
        if onlyFirst then ⟨none, fds, moved :: entries, duplicate.nextBackupFd⟩
        else
          let rest := relocate faults frames inTheWay onlyFirst entries duplicate.nextBackupFd fds
          { rest with entries := moved :: rest.entries }

/-! ## Operations -/

abbrev Result (File : Type*) := State File × Option Errno

def isActive : Bool := s.active.head?.any (·.address = address)

def beginTransaction (descriptorReferences : List Int) : Result File :=
  if s.active.any (·.address = address) || !stackInvariants s then (s, some .einval)
  else if descriptorReferences.length > sizeMax / sizeofRef then (s, some .enomem)
  else if !descriptorReferences.isEmpty && !faults.alloc then (s, some .enomem)
  else if descriptorReferences.any (· < 0) then (s, some .einval)
  else
    let candidate : Transaction :=
      { address
        references := sortedReferences (descriptorReferences.map Int.toNat)
        entryStart := s.entries.length
        nextBackupFd := 10 }
    let moved := relocate faults (candidate :: s.active) candidate.names false s.entries 10 s.fds
    match moved.error with
    | some error => ({ s with fds := moved.fds, entries := moved.entries }, some error)
    | none =>
      ({ s with
          fds := moved.fds
          entries := moved.entries
          active := { candidate with nextBackupFd := moved.nextBackupFd } :: s.active }, none)

def addReference (fd : Int) : Result File :=
  match s.active with
  | [] => (s, some .einval)
  | transaction :: parents =>
    if transaction.address ≠ address ∨ fd < 0 then (s, some .einval)
    else if transaction.names fd.toNat then (s, none)
    else if transaction.references.length ≥ sizeMax / sizeofRef then (s, some .enomem)
    else if !faults.alloc then (s, some .enomem)
    else
      let candidate := { transaction with references := insertReference fd.toNat transaction.references }
      let moved := relocate faults (candidate :: parents) (· = fd.toNat) true s.entries transaction.nextBackupFd s.fds
      match moved.error with
      | some error => ({ s with fds := moved.fds, entries := moved.entries }, some error)
      | none =>
        ({ s with
            fds := moved.fds
            entries := moved.entries
            active := { candidate with nextBackupFd := moved.nextBackupFd } :: parents }, none)

def entriesReserve : Option Nat :=
  if s.entries.length ≠ s.entryCapacity then some s.entryCapacity
  else
    let capacity := if s.entryCapacity = 0 then 4 else s.entryCapacity * 2
    if capacity > sizeMax / sizeofEntry ∨ !faults.alloc then none else some capacity

def saveEntry (parents : List Transaction) (index : Nat) (entry : Entry File) : State File :=
  { s with
    entries := s.entries ++ [entry]
    active :=
      { transaction with references := transaction.references.modify index fun r => { r with saved := true } } ::
        parents }

def save (targetFd : Int) : Result File :=
  match s.active with
  | [] => (s, some .einval)
  | transaction :: parents =>
    if transaction.address ≠ address ∨ targetFd < 0 then (s, some .einval)
    else
      match findRef transaction.references targetFd.toNat with
      | none => (s, some .einval)
      | some index =>
        if transaction.references[index]?.any (·.saved) then (s, none)
        else
          match entriesReserve faults s with
          | none => (s, some .enomem)
          | some entryCapacity =>
            match s.fds targetFd.toNat with
            | none =>
              (saveEntry { s with entryCapacity } transaction parents index ⟨targetFd.toNat, none, false, none⟩, none)
            | some desc =>
              let duplicate := dupPrivate faults s.active targetFd.toNat transaction.nextBackupFd s.fds
              let transaction := { transaction with nextBackupFd := duplicate.nextBackupFd }
              match duplicate.result with
              | .error error =>
                ({ s with fds := duplicate.fds, entryCapacity, active := transaction :: parents }, some error)
              | .ok savedFd =>
                (saveEntry { s with fds := duplicate.fds, entryCapacity } transaction parents index
                  ⟨targetFd.toNat, some savedFd, desc.cloexec, some desc⟩, none)

def restore (fds : FdTable File) (entry : Entry File) : FdTable File × Option Errno :=
  match entry.savedFd with
  | none => (fds.close entry.targetFd, none)
  | some savedFd =>
    match if faults.dup2 entry.targetFd then fds.dup2 savedFd entry.targetFd else none with
    | none => (fds.close savedFd, some .emfile)
    | some fds' => ((fds'.setCloexec entry.targetFd entry.targetFlags).close savedFd, none)

def restoreAll (faults : Faults) : List (Entry File) → FdTable File → FdTable File × Option Errno
  | [], fds => (fds, none)
  | entry :: entries, fds =>
    let (fds, error) := restore faults fds entry
    let (fds, later) := restoreAll faults entries fds
    (fds, error.or later)

def finish (parents : List Transaction) (fds : FdTable File) : State File :=
  { s with fds, entries := s.entries.take transaction.entryStart, active := parents }

def rollback : Result File :=
  match s.active with
  | [] => (s, some .einval)
  | transaction :: parents =>
    if transaction.address ≠ address then (s, some .einval)
    else
      let (fds, error) := restoreAll faults (s.entries.drop transaction.entryStart).reverse s.fds
      (finish s transaction parents fds, error)

def closeBackups (entries : List (Entry File)) (fds : FdTable File) : FdTable File :=
  (entries.filterMap (·.savedFd)).foldl FdTable.close fds

def commit : Result File :=
  match s.active with
  | [] => (s, some .einval)
  | transaction :: parents =>
    if transaction.address ≠ address then (s, some .einval)
    else (finish s transaction parents (closeBackups (s.entries.drop transaction.entryStart) s.fds), none)

def discard (s : State File) : State File :=
  { fds := closeBackups s.entries s.fds, entries := [], entryCapacity := 0, active := [] }

/-! ## Runs -/

inductive Action (File : Type*)
  | beginTransaction (faults : Faults) (address : Nat) (descriptorReferences : List Int)
  | addReference (faults : Faults) (address : Nat) (fd : Int)
  | save (faults : Faults) (address : Nat) (targetFd : Int)
  | rollback (faults : Faults) (address : Nat)
  | commit (address : Nat)
  | discard
  /-- The user opens, duplicates onto or closes a number. -/
  | user (fd : Nat) (desc : Option (Desc File))

def perform : Action File → State File
  | .beginTransaction faults address descriptorReferences => (beginTransaction faults s address descriptorReferences).1
  | .addReference faults address fd => (addReference faults s address fd).1
  | .save faults address targetFd => (save faults s address targetFd).1
  | .rollback faults address => (rollback faults s address).1
  | .commit address => (commit s address).1
  | .discard => discard s
  | .user fd desc => { s with fds := s.fds.set fd desc }

def Permitted (s : State File) : Action File → Prop
  | .user fd _ => ∀ transaction ∈ s.active.head?, ∃ r ∈ transaction.references, r.fd = fd
  | _ => True

instance (s : State File) (a : Action File) : Decidable (Permitted s a) := by
  unfold Permitted
  split <;> infer_instance

def system (File : Type*) : System (State File) (Action File) :=
  { init := fun s => s.entries = [] ∧ s.entryCapacity = 0 ∧ s.active = []
    step := fun s a t => Permitted s a ∧ t = perform s a }

end Bx.FdTransaction
