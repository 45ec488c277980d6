import Bx.Kit.BucketTable
import Bx.Kit.Bytes

/-!
# Published downloads

A completed transfer maps its URL to the local path, and the URL it was redirected to as well. What a call adds is
staged, then counted against the limits, then the table grows, and only then it is committed.
-/

namespace Bx.Fetch
open Kit

/-! ## State -/

inductive MappingPriority
  | redirect
  | persisted
  | sidecar
  | direct
  deriving DecidableEq

def MappingPriority.rank : MappingPriority → Nat
  | .redirect => 0
  | .persisted => 1
  | .sidecar => 2
  | .direct => 3

structure MappingNode where
  publicUrl : Bytes
  localPath : Bytes
  priority : MappingPriority

structure DownloadNode where
  url : Bytes
  localPath : Bytes
  serverMtime : Option Int

structure PublicationState where
  mappingBuckets : Buckets MappingNode
  mappingCount : Nat
  mappingBytes : Nat
  downloads : List DownloadNode
  downloadCount : Nat
  downloadBytes : Nat

variable (s : PublicationState)

def PublicationState.new : PublicationState := ⟨[], 0, 0, [], 0, 0⟩

/-! ## Limits -/

def urlMaxBytes : Nat := 64 * 1024

def urlStateMaxEntries : Nat := 64 * 1024

def urlStateMaxBytes : Nat := 64 * 1024 * 1024

def urlMapMaxFieldBytes : Nat := urlMaxBytes

def urlMapMaxEntries : Nat := urlStateMaxEntries

def urlMapMaxDecodedBytes : Nat := urlStateMaxBytes

def sizeMax : Nat := 2 ^ 64 - 1

def canReserve (currentEntries currentBytes addEntries addBytes maxEntries maxBytes : Nat) : Bool :=
  currentEntries ≤ maxEntries && currentBytes ≤ maxBytes && addEntries ≤ maxEntries - currentEntries &&
    addBytes ≤ maxBytes - currentBytes

def boundedLength (value : Bytes) (maxBytes : Nat) : Option Nat :=
  if maxBytes < value.length then none else some value.length

theorem boundedLength_some {value : Bytes} {maxBytes length : Nat} (h : boundedLength value maxBytes = some length) :
    length = value.length ∧ value.length ≤ maxBytes := by
  unfold boundedLength at h
  split at h
  · cases h
  · rename_i hle
    exact ⟨(Option.some.inj h).symm, Nat.le_of_not_lt hle⟩

theorem canReserve_iff {entries bytes addEntries addBytes maxEntries maxBytes : Nat} :
    canReserve entries bytes addEntries addBytes maxEntries maxBytes = true ↔
      entries + addEntries ≤ maxEntries ∧ bytes + addBytes ≤ maxBytes := by
  unfold canReserve
  simp only [Bool.and_eq_true, decide_eq_true_eq]
  omega

def publicationHash (value : Bytes) : Nat :=
  (value.foldl (fun hash c => (hash ^^^ c.toUInt64) * 1099511628211) (14695981039346656037 : UInt64)).toNat

def findPublicMapping (publicUrl : Bytes) : Option MappingNode :=
  findEntry MappingNode.publicUrl publicationHash s.mappingBuckets publicUrl

def shouldReplaceMapping (existing : MappingNode) (localPath : Bytes) (priority : MappingPriority) : Bool :=
  if priority ≠ existing.priority then existing.priority.rank < priority.rank
  else compare localPath existing.localPath == .lt

/-! ## Staging -/

inductive Failure
  | invalid
  | busy
  | exhausted
  deriving DecidableEq

abbrev PublicationM := EStateM Failure PublicationState

structure StagedMapping where
  existing : Option MappingNode
  insertion : Option MappingNode
  replacementPath : Option Bytes
  priority : MappingPriority
  oldPathLength : Nat
  newPathLength : Nat
  updatePriority : Bool

/-- `allocated` is false where there is no memory for what is staged. -/
def stageMapping (publicUrl localPath : Bytes) (priority : MappingPriority) (allocated : Bool) :
    Except Failure StagedMapping :=
  match boundedLength publicUrl urlMapMaxFieldBytes, boundedLength localPath urlMapMaxFieldBytes with
  | some _, some pathLength =>
    match findPublicMapping s publicUrl with
    | some existing =>
      let staged : StagedMapping :=
        { existing := some existing, insertion := none, replacementPath := none, priority := priority,
          oldPathLength := existing.localPath.length, newPathLength := pathLength, updatePriority := false }
      if !shouldReplaceMapping existing localPath priority then
        .ok { staged with updatePriority := existing.priority.rank < priority.rank }
      else if existing.localPath = localPath then .ok { staged with updatePriority := true }
      else if allocated then .ok { staged with replacementPath := some localPath }
      else .error .exhausted
    | none =>
      if allocated then
        .ok { existing := none, insertion := some ⟨publicUrl, localPath, priority⟩, replacementPath := none,
              priority := priority, oldPathLength := 0, newPathLength := pathLength, updatePriority := false }
      else .error .exhausted
  | _, _ => .error .exhausted

def reserveStaged (counts : Nat × Nat) (staged : StagedMapping) : Except Failure (Nat × Nat) :=
  match staged.insertion with
  | some insertion =>
    let added := insertion.publicUrl.length + staged.newPathLength
    if sizeMax < added || !canReserve counts.1 counts.2 1 added urlMapMaxEntries urlMapMaxDecodedBytes then .error .exhausted
    else .ok (counts.1 + 1, counts.2 + added)
  | none =>
    if staged.replacementPath.isSome then
      if counts.2 < staged.oldPathLength then .error .invalid
      else
        let retained := counts.2 - staged.oldPathLength
        if !canReserve counts.1 retained 0 staged.newPathLength urlMapMaxEntries urlMapMaxDecodedBytes then .error .exhausted
        else .ok (counts.1, retained + staged.newPathLength)
    else .ok counts

variable (staged : List StagedMapping)

def mappingReservation : Except Failure (Nat × Nat) :=
  staged.foldlM reserveStaged (s.mappingCount, s.mappingBytes)

/-! ## Growing and committing -/

/-- Doubled until a quarter stays free; 64 doublings are more than a size has bits. -/
def desiredBuckets (finalCount : Nat) : Nat → Nat → Option Nat
  | 0, _ => none
  | fuel + 1, desired =>
    if desired - desired / 4 < finalCount then
      if sizeMax / 2 < desired then none else desiredBuckets finalCount fuel (desired * 2)
    else some desired

def ensureMappingCapacity (finalCount : Nat) (allocated : Bool) : PublicationM Unit := do
  let s ← get
  let bucketCount := s.mappingBuckets.length
  match desiredBuckets finalCount 64 (if bucketCount = 0 then 16 else bucketCount) with
  | none => throw .exhausted
  | some desired =>
    if desired = bucketCount then pure ()
    else if sizeMax / 8 < desired || !allocated then throw .exhausted
    else set { s with mappingBuckets := rehash MappingNode.publicUrl publicationHash s.mappingBuckets desired }

def commitStagedMapping (staged : StagedMapping) : PublicationState :=
  match staged.insertion with
  | some insertion =>
    { s with mappingBuckets := pushEntry MappingNode.publicUrl publicationHash s.mappingBuckets insertion }
  | none =>
    match staged.existing with
    | none => s
    | some existing =>
      match staged.replacementPath with
      | some path =>
        { s with mappingBuckets := updateEntry MappingNode.publicUrl s.mappingBuckets existing.publicUrl fun node =>
            { node with localPath := path, priority := staged.priority } }
      | none =>
        if staged.updatePriority then
          { s with mappingBuckets := updateEntry MappingNode.publicUrl s.mappingBuckets existing.publicUrl fun node =>
              { node with priority := staged.priority } }
        else s

def commitAll (counts : Nat × Nat) : PublicationState :=
  { staged.foldl commitStagedMapping s with mappingCount := counts.1, mappingBytes := counts.2 }

def commitReserved (tableAllocated : Bool) : PublicationM Unit := do
  let counts ← ofExcept (mappingReservation (← get) staged)
  ensureMappingCapacity counts.1 tableAllocated
  modify fun s => commitAll s staged counts

def addPublicMapping (publicUrl localPath : Bytes) (priority : MappingPriority) (allocated tableAllocated : Bool) :
    PublicationM Unit := do
  let staged ← ofExcept (stageMapping (← get) publicUrl localPath priority allocated)
  commitReserved [staged] tableAllocated

/-! ## Calls -/

inductive OutputState
  | none
  | committed
  | metadataCommitted
  | unchanged
  | commitFailed
  deriving DecidableEq

structure TransferCompletion where
  resultOk : Bool
  spider : Bool
  hasPayload : Bool
  outputState : OutputState
  requestUrl : Option Bytes
  effectiveTarget : Option Bytes
  outputPath : Bytes
  serverMtime : Option Int

variable (completion : TransferCompletion)

def completionCanPublish : Bool :=
  completion.resultOk && !completion.spider && completion.outputPath != ascii "-" && completion.hasPayload &&
    (completion.outputState == .committed || completion.outputState == .metadataCommitted ||
      completion.outputState == .unchanged)

structure Allocations where
  download : Bool
  direct : Bool
  redirect : Bool
  table : Bool

inductive PublicationResult
  | failed (failure : Failure)
  | skipped
  | recorded
  deriving DecidableEq

def recordMappings (requestUrl effectiveUrl : Bytes) (allocations : Allocations) : PublicationM Unit := do
  let s ← get
  let some urlLength := boundedLength effectiveUrl urlMaxBytes | throw .exhausted
  let some pathLength := boundedLength completion.outputPath urlMapMaxFieldBytes | throw .exhausted
  if !canReserve s.downloadCount s.downloadBytes 1 (urlLength + pathLength) urlStateMaxEntries urlStateMaxBytes then
    throw .exhausted
  if !allocations.download then throw .exhausted
  let direct ← ofExcept (stageMapping s requestUrl completion.outputPath .direct allocations.direct)
  let staged ←
    if requestUrl = effectiveUrl then pure [direct]
    else do
      let redirect ← ofExcept (stageMapping s effectiveUrl completion.outputPath .redirect allocations.redirect)
      pure [direct, redirect]
  commitReserved staged allocations.table
  modify fun t =>
    { t with
      downloads := ⟨effectiveUrl, completion.outputPath, completion.serverMtime⟩ :: t.downloads
      downloadCount := t.downloadCount + 1
      downloadBytes := t.downloadBytes + (urlLength + pathLength) }

def resultOf (outcome : EStateM.Result Failure PublicationState Unit) : PublicationState × PublicationResult :=
  match outcome with
  | .ok _ s => (s, .recorded)
  | .error failure s => (s, .failed failure)

def recordCompletion (allocations : Allocations) : PublicationState × PublicationResult :=
  if !completionCanPublish completion then (s, .skipped)
  else
    match completion.requestUrl with
    | none => (s, .failed .invalid)
    | some requestUrl =>
      resultOf ((recordMappings completion requestUrl (completion.effectiveTarget.getD requestUrl) allocations).run s)

inductive Recovery
  | refused
  | missing
  | present (displayUrl : Bytes)

structure RecoveredMapping where
  recovery : Recovery
  localPath : Bytes
  priority : MappingPriority

def loadRecoveredMapping (recovered : RecoveredMapping) (allocations : Allocations) :
    PublicationState × PublicationResult :=
  match recovered.recovery with
  | .refused => (s, .failed .invalid)
  | .missing => (s, .skipped)
  | .present displayUrl =>
    resultOf ((addPublicMapping displayUrl recovered.localPath recovered.priority allocations.direct
      allocations.table).run s)

/-- What the store and the metadata sidecars deliver, and whether they could be read to the end -/
structure RecoverySource where
  mappings : List (RecoveredMapping × Allocations)
  complete : Bool

def loadRecovered (candidate : PublicationState) : List (RecoveredMapping × Allocations) → PublicationState × Bool
  | [] => (candidate, true)
  | (recovered, allocations) :: rest =>
    match loadRecoveredMapping candidate recovered allocations with
    | (next, .failed _) => (next, false)
    | (next, _) => loadRecovered next rest

/-- Recovered mappings go into a new state first, and into this one when all of them are there. -/
def loadPersistedMappings (convertLinks : Bool) (source : RecoverySource) : PublicationState × PublicationResult :=
  if !convertLinks then (s, .skipped)
  else if s.mappingCount ≠ 0 || s.downloadCount ≠ 0 then (s, .failed .busy)
  else
    let loaded := loadRecovered PublicationState.new source.mappings
    if !loaded.2 || !source.complete then (s, .failed .invalid)
    else
      let candidate := loaded.1
      ({ s with mappingBuckets := candidate.mappingBuckets, mappingCount := candidate.mappingCount,
                mappingBytes := candidate.mappingBytes }, .recorded)

inductive Call
  | completion (completion : TransferCompletion)
  | recovered (recovered : RecoveredMapping)

def publish (call : Call) (allocations : Allocations) : PublicationState × PublicationResult :=
  match call with
  | .completion completion => recordCompletion s completion allocations
  | .recovered recovered => loadRecoveredMapping s recovered allocations

/-- The path for a URL; `displaySafe` is the URL as it is shown, if it can be. -/
def lookup (displaySafe : Bytes → Option Bytes) (s : PublicationState) (url : Bytes) : Option (Bytes × MappingPriority) := do
  let publicUrl ← displaySafe url
  let mapping ← findPublicMapping s publicUrl
  return (mapping.localPath, mapping.priority)

end Bx.Fetch
