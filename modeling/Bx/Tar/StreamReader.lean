import Bx.Tar.Entry

/-!
# The archive stream reader

The stream reader pulls its bytes from a plain input and hands each entry to a
visitor: its header, its payload in chunks, its end. A visitor can refuse at
any point, which fails the whole read.
-/

namespace Bx.Tar
open Kit

structure Input where
  rest : Bytes
  totalBytesRead : Nat := 0

inductive StreamEnd
  | eof
  | zeroBlocks

structure VisitorOps (υ : Type) where
  beginEntry : υ → Entry → Option υ
  visitPayload : Option (υ → Entry → Bytes → Option υ) := none
  endEntry : Option (υ → Entry → Option υ) := none
  finishArchive : Option (υ → Nat → StreamEnd → Nat → Option υ) := none
  streamSparsePayload : Bool := false

def fileChunkSize : Nat := 256 * 1024

/-! ## Reading -/

namespace Input

variable (input : Input)

def advance (len : Nat) : Input :=
  { rest := input.rest.drop len, totalBytesRead := input.totalBytesRead + len }

def readExact (len : Nat) : Option (Option Bytes × Input) :=
  if len ≤ input.rest.length then some (some (input.rest.take len), input.advance len)
  else if input.rest = [] then some (none, input)
  else none

def readFull (len : Nat) : Option (Bytes × Input) :=
  match input.readExact len with
  | some (some data, input) => some (data, input)
  | _ => none

def skip (input : Input) (len : Nat) : Option Input :=
  if len ≤ input.rest.length then some (input.advance len) else none

def readTextPayload (size : Nat) : Option (Bytes × Input) :=
  match input.readFull size with
  | none => none
  | some (payload, input) => (input.skip (roundUp size blockSize - size)).map fun input => (longText payload, input)

def skipPayload (size : Nat) : Option Input := input.skip (roundUp size blockSize)

end Input

structure PaxReadState where
  input : Input
  remaining : Nat
  target : PaxInfo

section
variable (skipOwnerGroupNames isGlobal : Bool)

def readPaxRecordsStep (s : PaxReadState) : PaxReadState ⊕ Option (PaxInfo × Input) :=
  if s.remaining = 0 then .inr (some (s.target, s.input))
  else
    match recordLength 0 0 s.input.rest with
    | none => .inr none
    | some (lineLen, digits) =>
      let consumed := digits + 1
      if digits = 0 ∨ lineLen = 0 ∨ paxRecordLimit < lineLen ∨ s.remaining < lineLen ∨ lineLen ≤ consumed then
        .inr none
      else
        match (s.input.advance consumed).readFull (lineLen - consumed) with
        | none => .inr none
        | some (record, input) =>
          if record.getLast? ≠ some 10 then .inr none
          else
            match applyPaxRecord skipOwnerGroupNames isGlobal s.target record.dropLast with
            | none => .inr none
            | some target => .inl { input := input, remaining := s.remaining - lineLen, target := target }

def readPaxRecords (input : Input) (size : Nat) (target : PaxInfo) : Option (PaxInfo × Input) :=
  match (loop (readPaxRecordsStep skipOwnerGroupNames isGlobal) (size + 1) ⟨input, size, target⟩).join with
  | none => none
  | some (target, input) => (input.skip (roundUp size blockSize - size)).map fun input => (target, input)

end

/-! ## Sparse payloads -/

def readSparseNumberLine (input : Input) (remaining : Nat) : Option (Nat × Nat × Input) :=
  (sparseNumberLine 0 0 (input.rest.take remaining)).map fun line => (line.1, line.2, input.advance line.2)

def readSparseExtents (size : Nat) : Nat → Input → Nat → Option (List SparseExtent × Input × Nat)
  | 0, input, mapBytes => some ([], input, mapBytes)
  | count + 1, input, mapBytes =>
    match readSparseNumberLine input (size - mapBytes) with
    | none => none
    | some (offset, bytesRead, input) =>
      if size - mapBytes < bytesRead then none
      else
        let mapBytes := mapBytes + bytesRead
        match readSparseNumberLine input (size - mapBytes) with
        | none => none
        | some (chunkSize, bytesRead, input) =>
          if size - mapBytes < bytesRead then none
          else
            match readSparseExtents size count input (mapBytes + bytesRead) with
            | none => none
            | some (extents, input, mapBytes) => some (⟨offset, chunkSize⟩ :: extents, input, mapBytes)

/-- The entry with its map, the padding after its data, and the input at the data -/
def prepareSparsePayload (input : Input) (size : Nat) (entry : Entry) : Option (Entry × Nat × Input) :=
  match readSparseNumberLine input size with
  | none => none
  | some (extentCount, mapBytes, input) =>
    if size < mapBytes then none
    else if sparseExtentLimit < extentCount ∨ (size - mapBytes) / 4 < extentCount then none
    else
      match readSparseExtents size extentCount input mapBytes with
      | none => none
      | some (extents, input, mapBytes) =>
        match checkedSizeRoundUp mapBytes blockSize with
        | none => none
        | some paddedMapBytes =>
          if size < paddedMapBytes then none
          else
            (input.skip (paddedMapBytes - mapBytes)).map fun input =>
              ({ entry with extents := extents, dataLen := size - paddedMapBytes },
                roundUp size blockSize - size, input)

def readSparsePayloadBuffered (input : Input) (entry : Entry) (archivePadding : Nat) : Option (Entry × Input) :=
  match input.readFull entry.dataLen with
  | none => none
  | some (data, input) => (input.skip archivePadding).map fun input => ({ entry with data := data }, input)

/-! ## Visiting -/

section
variable {υ : Type}

structure ChunkState (υ : Type) where
  user : υ
  input : Input
  remaining : Nat

def nextChunk (remaining : Nat) : Nat := if fileChunkSize < remaining then fileChunkSize else remaining

variable (visit : υ → Entry → Bytes → Option υ)

def visitChunksStep (entry : Entry) (s : ChunkState υ) : ChunkState υ ⊕ Option (υ × Input) :=
  if s.remaining = 0 then .inr (some (s.user, s.input))
  else
    let chunk := nextChunk s.remaining
    match s.input.readFull chunk with
    | none => .inr none
    | some (data, input) =>
      match visit s.user entry data with
      | none => .inr none
      | some user => .inl { user := user, input := input, remaining := s.remaining - chunk }

def visitChunks (entry : Entry) (size : Nat) (user : υ) (input : Input) : Option (υ × Input) :=
  (loop (visitChunksStep visit entry) (size + 1) ⟨user, input, size⟩).join

variable (ops : VisitorOps υ)

def visitPayload (entry : Entry) (size : Nat) (user : υ) (input : Input) : Option (υ × Input) :=
  let padding := roundUp size blockSize - size
  if size = 0 then (input.skip padding).map fun input => (user, input)
  else
    match ops.visitPayload with
    | none => (input.skipPayload size).map fun input => (user, input)
    | some visit =>
      match visitChunks visit entry size user input with
      | none => none
      | some (user, input) => (input.skip padding).map fun input => (user, input)

def visitSparsePayload (entry : Entry) (archivePadding : Nat) (user : υ) (input : Input) : Option (υ × Input) :=
  if entry.dataLen = 0 then (input.skip archivePadding).map fun input => (user, input)
  else
    match ops.visitPayload with
    | none =>
      match input.skip entry.dataLen with
      | none => none
      | some input => (input.skip archivePadding).map fun input => (user, input)
    | some visit =>
      match visitChunks visit entry entry.dataLen user input with
      | none => none
      | some (user, input) => (input.skip archivePadding).map fun input => (user, input)

structure VisitState (υ : Type) where
  input : Input
  /-- A block read ahead, when it turned out not to be zero -/
  header : Option Bytes := none
  pax : PaxInfo := {}
  shared : PaxInfo := {}
  long : LongTexts := {}
  user : υ

def finishArchive (user : υ) (blockIndex : Nat) (stop : StreamEnd) (totalBytesRead : Nat) : Option υ :=
  match ops.finishArchive with
  | none => some user
  | some finish => finish user blockIndex stop totalBytesRead

/-- The map of a sparse member, and its data unless the visitor wants them in chunks -/
def prepareMember (pax : PaxInfo) (size : Nat) (entry : Entry) (input : Input) : Option (Entry × Nat × Input) :=
  if entry.kind = .reg ∧ sparseMember pax = true then
    match prepareSparsePayload input size (entry.asSparse pax.sparseRealsize) with
    | none => none
    | some (entry, archivePadding, input) =>
      if ops.streamSparsePayload then some (entry, archivePadding, input)
      else
        (readSparsePayloadBuffered input entry archivePadding).map fun read => (read.1, archivePadding, read.2)
  else some (entry, 0, input)

def visitMemberPayload (entry : Entry) (size archivePadding : Nat) (user : υ) (input : Input) : Option (υ × Input) :=
  if entry.kind = .reg then
    if entry.sparse then
      if ops.streamSparsePayload then visitSparsePayload ops entry archivePadding user input else some (user, input)
    else visitPayload ops entry size user input
  else (input.skipPayload size).map fun input => (user, input)

def endEntry (user : υ) (entry : Entry) : Option υ :=
  match ops.endEntry with
  | none => some user
  | some finish => finish user entry

variable (o : ReaderOptions)

variable (s : VisitState υ)

def visitEntry (header : Bytes) (headerBlockIndex size : Nat) : Option (VisitState υ) :=
  let effective := paxEffectiveInfo s.shared s.pax
  match prepareEntryFromHeader o header size (typeflag header) effective effective.numbers s.shared.metadata s.long with
  | none => none
  | some (entry, long) =>
    match prepareMember ops s.pax size (entry.atBlock headerBlockIndex) s.input with
    | none => none
    | some (entry, archivePadding, input) =>
      match ops.beginEntry s.user entry with
      | none => none
      | some user =>
        match visitMemberPayload ops entry size archivePadding user input with
        | none => none
        | some (user, input) =>
          (endEntry ops user entry).map fun user =>
            { s with input := input, header := none, pax := paxInfoClear s.pax, long := long, user := user }

def visitBlock (header : Bytes) (headerBlockIndex : Nat) : Option (VisitState υ) :=
  if headerChecksumValid header then
    match headerPayloadSize header (paxEffectiveInfo s.shared s.pax).numbers with
    | none => none
    | some size =>
      let type := typeflag header
      if type = 120 then
        (readPaxRecords o.skipOwnerGroupNames false s.input size s.pax).map fun read =>
          { s with input := read.2, header := none, pax := read.1 }
      else if type = 103 then
        (readPaxRecords o.skipOwnerGroupNames true s.input size s.shared).map fun read =>
          { s with input := read.2, header := none, shared := read.1 }
      else if type = 76 then
        (s.input.readTextPayload size).map fun read =>
          { s with input := read.2, header := none, long := { s.long with name := some read.1 } }
      else if type = 75 then
        (s.input.readTextPayload size).map fun read =>
          { s with input := read.2, header := none, long := { s.long with link := some read.1 } }
      else visitEntry ops o s header headerBlockIndex size
  else none

/-- A header block in hand: zero blocks end the archive, a lone one is passed over. -/
def visitHeader (header : Bytes) : VisitState υ ⊕ Option υ :=
  let headerBlockIndex := s.input.totalBytesRead / blockSize - 1
  if blockIsZero header then
    match s.input.readExact blockSize with
    | none => .inr none
    | some (none, input) => .inr (finishArchive ops s.user headerBlockIndex .eof input.totalBytesRead)
    | some (some next, input) =>
      if blockIsZero next then
        .inr (finishArchive ops s.user headerBlockIndex .zeroBlocks input.totalBytesRead)
      else .inl { s with input := input, header := some next }
  else
    match visitBlock ops o s header headerBlockIndex with
    | none => .inr none
    | some next => .inl next

def visitStep : VisitState υ ⊕ Option υ :=
  match s.header with
  | some header => visitHeader ops o s header
  | none =>
    match s.input.readExact blockSize with
    | none => .inr none
    | some (none, input) =>
      .inr (finishArchive ops s.user (input.totalBytesRead / blockSize) .eof input.totalBytesRead)
    | some (some header, input) => visitHeader ops o { s with input := input } header

def visitArchiveStream (archive : Bytes) (user : υ) : Option υ :=
  (loop (visitStep ops o) (archive.length + 1) { input := { rest := archive }, user := user }).join

end

/-! ## Opening -/

inductive Codec
  | gzip
  | bzip2
  | xz
  | zstd
  deriving DecidableEq

def detectMagic (data : Bytes) : Option Codec :=
  if [0x1f, 0x8b].isPrefixOf data then some .gzip
  else if (ascii "BZh").isPrefixOf data then some .bzip2
  else if ([0xfd] ++ ascii "7zXZ" ++ [0]).isPrefixOf data then some .xz
  else if [0x28, 0xb5, 0x2f, 0xfd].isPrefixOf data then some .zstd
  else none

/-- Without a required codec, a regular file is tried for every magic and other input for gzip. -/
def inputCodec (detectAll : Bool) (data : Bytes) : Option Codec :=
  (detectMagic data).filter fun codec => detectAll || codec == .gzip

/-- `decode` stands for the decompressors. -/
def visitArchiveInput {υ : Type} (decode : Codec → Bytes → Option Bytes) (detectAll : Bool) (ops : VisitorOps υ)
    (o : ReaderOptions) (archive : Bytes) (user : υ) : Option υ :=
  match inputCodec detectAll archive with
  | none => visitArchiveStream ops o archive user
  | some codec => (decode codec archive).bind fun plain => visitArchiveStream ops o plain user

/-! ## Collecting -/

structure CollectState where
  entries : List Entry := []
  /-- The entry between its beginning and its end -/
  current : Option Entry := none
  currentPayload : Bytes := []
  collectingPayload : Bool := false

def cloneEntry (src : Entry) (copyData : Bool) : Entry :=
  { src with data := if copyData then src.data else [], headerBlockIndex := 0 }

variable (state : CollectState)

def collectBeginEntry (entry : Entry) : CollectState :=
  let collecting := entry.kind == .reg && !entry.sparse
  let clone := cloneEntry entry (!collecting)
  { entries := state.entries
    current := some (if collecting then { clone with data := [], dataLen := 0 } else clone)
    collectingPayload := collecting }

def collectVisitPayload (_ : Entry) (data : Bytes) : CollectState :=
  if state.collectingPayload then { state with currentPayload := state.currentPayload ++ data } else state

def collectEndEntry (_ : Entry) : CollectState :=
  match state.current with
  | none => state
  | some current =>
    let finished :=
      if state.collectingPayload then
        { current with data := state.currentPayload, dataLen := state.currentPayload.length }
      else current
    { state with
      entries := state.entries ++ [finished], current := none
      currentPayload := if state.collectingPayload then [] else state.currentPayload, collectingPayload := false }

def collectOps : VisitorOps CollectState where
  beginEntry state entry := some (collectBeginEntry state entry)
  visitPayload := some fun state entry data => some (collectVisitPayload state entry data)
  endEntry := some fun state entry => some (collectEndEntry state entry)

def collectArchiveStream (o : ReaderOptions) (archive : Bytes) : Option (List Entry) :=
  (visitArchiveStream collectOps o archive {}).map (·.entries)

end Bx.Tar
