import Bx.Zip.Directory
import Mathlib.Data.List.DropRight

/-!
# Updating an archive

A run writes a record for each input into a temporary file, copies the members that are not marked for deletion behind
them, ends the archive and puts it in the place of the target. What the file system and the compressors answer is a
parameter.
-/

namespace Bx.Zip
open Kit

/-! ## What a run works on -/

structure ExistingEntry where
  entry : CentralEntry
  delete : Bool
  changed : Bool

structure InputInfo where
  isDir : Bool
  isStdin : Bool
  size : UInt64
  dosTime : UInt16
  dosDate : UInt16
  mtime : Int64
  atime : Int64
  ctime : Int64
  uid : UInt32
  gid : UInt32

/-- What writing an input emits and what it notes of it. `advance` is what it adds to the offset that is kept beside. -/
structure Payload where
  record : Bytes
  crc32 : UInt32
  compSize : UInt64
  uncompSize : UInt64
  method : UInt16
  flags : UInt16
  extAttr : UInt32
  versionMade : UInt16
  zip64 : Bool
  advance : UInt64

structure Options where
  copyMode : Bool
  differenceMode : Bool
  filesync : Bool
  freshen : Bool
  update : Bool
  storePaths : Bool
  noDirEntries : Bool
  removeSource : Bool
  dryRun : Bool
  excludeExtraAttrs : Bool
  outputToStdout : Bool
  outputPath : Bool
  filterAfter : Option Int64
  filterBefore : Option Int64
  zipComment : Bytes
  zipCommentSpecified : Bool
  setArchiveMtime : Bool
  fixArchive : Bool
  fixFixArchive : Bool

structure CrossCopy where
  openSource : Bool
  openTarget : Bool
  copied : Nat
  copyOk : Bool
  closeOk : Bool
  unlinkOk : Bool

inductive Rename
  | done
  | failed
  | crossDevice (copy : CrossCopy)

/-- Answers of the file system, of the patterns and of the compressors. What is asked for an input is answered by its
place in the list: the same path may answer differently later. `leftover` is what a fresh slot of the entry list holds,
`closed` how much stands in the temporary file when closing it does not write the rest. -/
structure Env where
  shouldInclude : Bytes → Bool
  copyModeKeep : Bytes → Bool
  patternMatches : Bytes → Bytes → Bool
  sourceExists : Bytes → Bool
  describeInput : Nat → Option InputInfo
  encode : Nat → Except Failure (UInt64 → UInt64 → Payload)
  dosToUnixTime : UInt16 → UInt16 → Int64
  leftover : Nat → Int64
  createTemp : Option Failure
  copyFails : Nat → Option Failure
  endFails : Option Failure
  closed : Option Nat
  rename : Rename
  applyMtimeOk : Bool

/-! ## Marks -/

def markDelete (e : ExistingEntry) : ExistingEntry := { e with delete := true, changed := true }

def markCopied (env : Env) (e : ExistingEntry) : ExistingEntry :=
  let keep := env.copyModeKeep e.entry.name.val
  { e with delete := !keep, changed := keep || e.changed }

variable (opts : Options)

/-- The times that `-t` and `-tt` let through -/
def timeSelected (mtime : Int64) : Bool :=
  !(opts.filterAfter.any fun t => decide (mtime < t)) && !(opts.filterBefore.any fun t => decide (t ≤ mtime))

def differenceSelects (env : Env) (pattern : Bytes) (e : ExistingEntry) : Bool :=
  !e.delete && env.patternMatches pattern e.entry.name.val
    && timeSelected opts (env.dosToUnixTime e.entry.hdr.modDate e.entry.hdr.modTime)

def markDifference (env : Env) (patterns : List Bytes) (existing : List ExistingEntry) : List ExistingEntry :=
  patterns.foldl (fun existing pattern =>
    existing.map fun e => if differenceSelects opts env pattern e then markDelete e else e) existing

def markFilesync (env : Env) (existing : List ExistingEntry) : List ExistingEntry :=
  existing.map fun e => if !e.delete && !env.sourceExists e.entry.name.val then markDelete e else e

/-! ## Selecting an input -/

theorem zero_notMem_basename {path : Bytes} (h : 0 ∉ path) : 0 ∉ path.rtakeWhile (· != 47) :=
  fun hmem => h ((List.rtakeWhile_suffix _ _).subset hmem)

def storedName (path : CText) : CText :=
  if opts.storePaths then path else ⟨path.val.rtakeWhile (· != 47), zero_notMem_basename path.property⟩

def entryName (path : CText) (info : InputInfo) : CText :=
  let stored := storedName opts path
  if info.isDir && stored.val.getLast? != some 47 then
    ⟨stored.val ++ [47], by simpa using stored.property⟩
  else stored

variable (existing : List ExistingEntry)

def findExisting (name : CText) : Option Nat :=
  existing.findIdx? fun e => !e.delete && e.entry.name == name

def processEntry (info : InputInfo) (e : ExistingEntry) : Bool :=
  if opts.filesync then
    info.dosDate != e.entry.hdr.modDate || info.dosTime != e.entry.hdr.modTime
      || info.size != e.entry.hdr.uncompSize.toUInt64
  else
    !(decide (info.dosDate < e.entry.hdr.modDate)
      || info.dosDate == e.entry.hdr.modDate && decide (info.dosTime ≤ e.entry.hdr.modTime))

inductive Selection
  | skip
  | upToDate
  | write (name : CText) (info : InputInfo) (existing : Option Nat)

def selectInput (env : Env) (place : Nat) (path : CText) (existing : List ExistingEntry) : Selection :=
  if !env.shouldInclude path.val then .skip
  else match env.describeInput place with
    | none => .skip
    | some info =>
      if info.isDir && opts.noDirEntries then .skip
      else
        let name := entryName opts path info
        if !timeSelected opts info.mtime then .skip
        else match findExisting existing name with
          | some j =>
            if (opts.freshen || opts.update) && !(existing[j]?.any (processEntry opts info)) then .upToDate
            else .write name info (some j)
          | none => if opts.freshen then .skip else .write name info none

def markSelected : Option Nat → List ExistingEntry
  | none => existing
  | some j => existing.modify j markDelete

/-! ## Writing -/

structure RunState where
  existing : List ExistingEntry
  out : Bytes
  offset : UInt64
  entries : List WriterEntry
  added : Nat
  skippedByUpdate : Bool
  removed : List CText
  newestMtime : Option Int64

def currentOffset (s : RunState) : UInt64 := UInt64.ofNat s.out.length

def updateNewest (newest : Option Int64) (t : Int64) : Option Int64 :=
  match newest with
  | none => some t
  | some old => if old < t then some t else some old

variable (e : CentralEntry)

def keptComment : Option Bytes := if e.comment = [] then none else some e.comment

def keptCommentLen : UInt16 := if e.comment = [] then 0 else e.hdr.commentLen

theorem keptComment_length (text : Bytes) (h : keptComment e = some text) : text.length = (keptCommentLen e).toNat := by
  unfold keptComment at h
  unfold keptCommentLen
  by_cases hnil : e.comment = []
  · simp [hnil] at h
  · rw [if_neg hnil] at h ⊢
    cases h
    exact e.comment_length

def newEntry (name : CText) (info : InputInfo) (p : Payload) (lhoOffset : UInt64) (replaced : Option ExistingEntry) :
    WriterEntry where
  name := name
  crc32 := p.crc32
  compSize := p.compSize
  uncompSize := p.uncompSize
  lhoOffset := lhoOffset
  method := p.method
  flags := p.flags
  modTime := info.dosTime
  modDate := info.dosDate
  extAttr := p.extAttr
  versionMade := p.versionMade
  intAttr := 0
  zip64 := p.zip64
  diskStart := 0
  comment := replaced.bind fun e => keptComment e.entry
  commentLen := (replaced.map fun e => keptCommentLen e.entry).getD 0
  comment_length := by
    intro text h
    cases replaced with
    | none => cases h
    | some e => exact keptComment_length e.entry text h
  atime := info.atime
  mtime := info.mtime
  ctime := info.ctime
  uid := info.uid
  gid := info.gid

def markedState (s : RunState) (info : InputInfo) (found : Option Nat) : RunState :=
  { s with
    existing := markSelected s.existing found
    added := s.added + 1
    newestMtime := updateNewest s.newestMtime info.mtime }

def isWritten (info : InputInfo) : Bool := !opts.dryRun && !(info.isDir && !opts.storePaths)

/-- `unlink` leaves directories alone. -/
def isRemoved (info : InputInfo) : Bool := opts.removeSource && !info.isStdin && !info.isDir

def writeInput (s : RunState) (path name : CText) (info : InputInfo) (found : Option Nat)
    (encode : UInt64 → UInt64 → Payload) : RunState :=
  let p := encode s.offset (currentOffset s)
  let replaced := found.bind fun j => s.existing[j]?
  { s with
    out := s.out ++ p.record
    offset := s.offset + p.advance
    entries := s.entries ++ [newEntry name info p (currentOffset s) replaced]
    removed := if isRemoved opts info then s.removed ++ [path] else s.removed }

def addInput (env : Env) (place : Nat) (path : CText) (s : RunState) : RunState × Option Failure :=
  match selectInput opts env place path s.existing with
  | .skip => (s, none)
  | .upToDate => ({ s with skippedByUpdate := true }, none)
  | .write name info found =>
    let s := markedState s info found
    if isWritten opts info then
      match env.encode place with
      | .error failure => (s, some failure)
      | .ok encode => (writeInput opts s path name info found encode, none)
    else (s, none)

def addInputs (opts : Options) (env : Env) : Nat → List CText → RunState → RunState × Option Failure
  | _, [], s => (s, none)
  | place, path :: paths, s =>
    match addInput opts env place path s with
    | (s, some failure) => (s, some failure)
    | (s, none) => addInputs opts env (place + 1) paths s

/-! ## Copying a member -/

def shouldStripAttrExtra (tag : UInt16) : Bool :=
  tag == 0x5455 || tag == 0x5855 || tag == 0x7875 || tag == 0x756e || tag == 0x000a

/-- The blocks that `-X` leaves; a block that is cut short leaves the field as it was. -/
def filterExtra : Nat → Bytes → Option Bytes
  | 0, _ => some []
  | fuel + 1, extra =>
    match readU16 extra with
    | none => some []
    | some (tag, rest) =>
      match readU16 rest with
      | none => some []
      | some (sz, rest) =>
        if rest.length < sz.toNat then none
        else (filterExtra fuel (rest.drop sz.toNat)).map fun kept =>
          if shouldStripAttrExtra tag then kept else extra.take (4 + sz.toNat) ++ kept

def filterExtraForExclude (extra : Bytes) : Bytes := (filterExtra extra.length extra).getD extra

def copyExistingEntry (excludeExtraAttrs : Bool) (f : File) (e : CentralEntry) : Except Failure Bytes :=
  if 2 ^ 63 ≤ e.lhoOffset.toNat then .error (ioError "seek to old LHO failed")
  else
    let record := f.bytes.drop e.lhoOffset.toNat
    match LocalHeader.read record with
    | none => .error (ioError "read old LHO failed")
    | some (lho, rest) =>
      if lho.signature ≠ sigLocal then .error (ioError "read old LHO failed")
      else
        let headerLen : UInt64 := 30 + lho.nameLen.toUInt64 + lho.extraLen.toUInt64
        let totalToCopy := headerLen + e.compSize
        if !excludeExtraAttrs then
          if record.length < totalToCopy.toNat then .error (ioError "short read during entry copy")
          else .ok (record.take totalToCopy.toNat)
        else
          match readExact lho.nameLen.toNat "read old filename failed" rest with
          | .error failure => .error failure
          | .ok (name, rest) =>
            match readExact lho.extraLen.toNat "read old extra failed" rest with
            | .error failure => .error failure
            | .ok (extra, rest) =>
              let filtered := filterExtraForExclude extra
              let data := rest.take e.compSize.toNat
              if rest.length < e.compSize.toNat then .error (ioError "short read during entry data copy")
              else .ok (({ lho with extraLen := UInt16.ofNat filtered.length }).bytes ++ name.val ++ filtered ++ data)

def keptEntry (env : Env) (s : RunState) (e : CentralEntry) : WriterEntry where
  name := e.name
  crc32 := e.hdr.crc32
  compSize := e.compSize
  uncompSize := e.uncompSize
  lhoOffset := currentOffset s
  method := e.hdr.method
  flags := e.hdr.flags
  modTime := e.hdr.modTime
  modDate := e.hdr.modDate
  extAttr := if opts.excludeExtraAttrs then 0 else e.hdr.extAttr
  versionMade := if opts.excludeExtraAttrs then e.hdr.versionMade &&& 0x00ff else e.hdr.versionMade
  intAttr := e.hdr.intAttr
  zip64 := decide (0xffffffff ≤ e.compSize) || decide (0xffffffff ≤ e.uncompSize) || decide (0xffffffff ≤ s.offset)
  diskStart := 0
  comment := keptComment e
  commentLen := keptCommentLen e
  comment_length := keptComment_length e
  atime := env.leftover s.entries.length
  mtime := env.leftover s.entries.length
  ctime := env.leftover s.entries.length
  uid := 0
  gid := 0

def copyEntry (env : Env) (f : File) (place : Nat) (e : ExistingEntry) (s : RunState) : RunState × Option Failure :=
  if e.delete then (s, none)
  else match env.copyFails place with
    | some failure => (s, some failure)
    | none =>
      match copyExistingEntry opts.excludeExtraAttrs f e.entry with
      | .error failure => (s, some failure)
      | .ok copied =>
        ({ s with
            out := s.out ++ copied
            offset := s.offset + UInt64.ofNat copied.length
            entries := s.entries ++ [keptEntry opts env s e.entry]
            newestMtime := updateNewest s.newestMtime (env.dosToUnixTime e.entry.hdr.modDate e.entry.hdr.modTime) },
          none)

def copyEntries (opts : Options) (env : Env) (f : File) :
    Nat → List ExistingEntry → RunState → RunState × Option Failure
  | _, [], s => (s, none)
  | place, e :: existing, s =>
    match copyEntry opts env f place e s with
    | (s, some failure) => (s, some failure)
    | (s, none) => copyEntries opts env f (place + 1) existing s

/-- What stands at the target: what stood there before, the new archive, or so many bytes of it -/
inductive Target
  | old
  | new
  | cut (length : Nat)

/-- `zu_publish_replace`: whether it succeeded and what stands at the target afterwards -/
def publishReplace : Rename → Bool × Target
  | .done => (true, .new)
  | .failed => (false, .old)
  | .crossDevice copy =>
    if !copy.openSource || !copy.openTarget then (false, .old)
    else if !copy.copyOk then (false, .cut copy.copied)
    else if !copy.closeOk then (false, .new)
    else (copy.unlinkOk, .new)

/-! ## A run -/

structure Result where
  status : Option Failure
  removed : List CText
  entries : List WriterEntry
  existing : List ExistingEntry
  archive : Bytes
  target : Target

def nothingToDo : Failure := ⟨.noFiles, ""⟩

def usageError (message : String) : Failure := ⟨.usage, message⟩

def startState (added : Nat) : RunState := ⟨existing, [], 0, [], added, false, [], none⟩

def copyMarks (env : Env) (loaded : List ExistingEntry) : List ExistingEntry :=
  if opts.copyMode then loaded.map (markCopied env) else loaded

def preparedMarks (env : Env) (patterns : List CText) (loaded : List ExistingEntry) : List ExistingEntry :=
  if opts.differenceMode then markDifference opts env (patterns.map Subtype.val) (copyMarks opts env loaded)
  else if !opts.copyMode && opts.filesync then markFilesync env loaded
  else copyMarks opts env loaded

def copySelected (env : Env) (loaded : List ExistingEntry) : Nat :=
  if opts.copyMode then (copyMarks opts env loaded).countP (fun e => !e.delete) else 0

def deletesNothing (env : Env) (patterns : List CText) (loaded : List ExistingEntry) : Bool :=
  opts.differenceMode && (preparedMarks opts env patterns loaded).countP (fun e => e.delete)
    == (copyMarks opts env loaded).countP (fun e => e.delete)

def loadedEntries (existing : Option (File × List ExistingEntry)) : List ExistingEntry :=
  (existing.map Prod.snd).getD []

def prepareRun (env : Env) (patterns : List CText) (existing : Option (File × List ExistingEntry)) :
    Except Failure RunState :=
  if opts.copyMode && !opts.outputPath then .error (usageError "copy mode requires --out")
  else if opts.copyMode && existing.isNone then .error (usageError "copy mode requires an existing archive")
  else if deletesNothing opts env patterns (loadedEntries existing) then .error nothingToDo
  else .ok (startState (preparedMarks opts env patterns (loadedEntries existing))
    (copySelected opts env (loadedEntries existing)))

def hasNothingToDo (s : RunState) : Bool :=
  s.added == 0 && !opts.differenceMode && !(s.existing.any fun e => e.changed) && !opts.zipCommentSpecified
    && !opts.setArchiveMtime && !opts.fixArchive && !opts.fixFixArchive && !(s.skippedByUpdate && opts.filesync)

def closedTarget (env : Env) : Target → Target
  | .new => (env.closed.map Target.cut).getD .new
  | target => target

def finishRun (env : Env) (archive : Bytes) (s : RunState) : Result :=
  let published := if opts.dryRun || opts.outputToStdout then (true, .old) else publishReplace env.rename
  let result (status : Option Failure) : Result :=
    ⟨status, s.removed, s.entries, s.existing, archive, closedTarget env published.2⟩
  if !published.1 then result (some (ioError "rename temp file failed"))
  else if opts.setArchiveMtime && s.newestMtime.isSome && !opts.outputToStdout && !env.applyMtimeOk then
    result (some (ioError "failed to set archive mtime"))
  else result none

def writeInputs (env : Env) (inputs : List CText) (s : RunState) : RunState × Option Failure :=
  if opts.differenceMode || opts.copyMode then (s, none) else addInputs opts env 0 inputs s

def copyMembers (env : Env) (existing : Option (File × List ExistingEntry)) (s : RunState) :
    RunState × Option Failure :=
  match existing with
  | none => (s, none)
  | some (f, _) => copyEntries opts env f 0 s.existing s

def modifyArchive (env : Env) (inputs : List CText) (existing : Option (File × List ExistingEntry)) : Result :=
  let stop (failure : Failure) (s : RunState) : Result := ⟨some failure, s.removed, s.entries, s.existing, s.out, .old⟩
  match prepareRun opts env inputs existing with
  | .error failure => ⟨some failure, [], [], [], [], .old⟩
  | .ok s =>
    match (if opts.dryRun || opts.outputToStdout then none else env.createTemp) with
    | some failure => stop failure s
    | none =>
      match writeInputs opts env inputs s with
      | (s, some failure) => stop failure s
      | (s, none) =>
        if hasNothingToDo opts s then stop nothingToDo s
        else if opts.dryRun then finishRun opts env s.out s
        else match copyMembers opts env existing s with
          | (s, some failure) => stop failure s
          | (s, none) =>
            match env.endFails with
            | some failure => stop failure s
            | none =>
              match writeEnd opts.excludeExtraAttrs s.entries (currentOffset s) opts.zipComment with
              | .error failure => stop failure s
              | .ok tail => finishRun opts env (s.out ++ tail) s

end Bx.Zip
