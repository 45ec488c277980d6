import Bx.Cpio.Bounds

/-!
# Writing and reading cpio archives

An archive is assembled in a temporary file: for each entry a header, its name
and its data, and a trailer behind the last. Reading goes from member to member
and ends at the trailer, behind which only zeros may stand.
-/

namespace Bx.Cpio
open Kit Lib

/-! ## Formats -/

inductive Format
  | newc
  | odc

namespace Format

def label : Format → String
  | newc => "newc"
  | odc => "odc"

def magic : Format → Bytes
  | newc => ascii "070701"
  | odc => ascii "070707"

def headerLen : Format → Nat
  | newc => 110
  | odc => 76

def alignment : Format → Nat
  | newc => 4
  | odc => 1

def trailerAlignment : Format → Nat
  | newc => 512
  | odc => 2

def wideLimit : Format → Nat
  | newc => 2 ^ 32 - 1
  | odc => 0o77777777777

end Format

structure Diag where
  subject : Option Bytes
  text : String

def overflow (subject : Bytes) : Diag := ⟨some subject, "Value too large for defined data type"⟩

def trailerName : Bytes := ascii "TRAILER!!!"

def memberCountLimit : Nat := 1048576

def memberByteLimit : Nat := 256 * 1024 * 1024

def sizeofEntry : Nat := 128

/-! ## Modes and devices -/

variable (mode : Nat)

def fileType : Nat := mode &&& 0o170000

def isReg : Bool := fileType mode == 0o100000
def isLnk : Bool := fileType mode == 0o120000
def isDir : Bool := fileType mode == 0o040000
def isFifo : Bool := fileType mode == 0o010000
def isChr : Bool := fileType mode == 0o020000
def isBlk : Bool := fileType mode == 0o060000

def major (dev : Nat) : Nat := dev / 2 ^ 8 % 2 ^ 12 + dev / 2 ^ 44 % 2 ^ 20 * 2 ^ 12

def minor (dev : Nat) : Nat := dev % 2 ^ 8 + dev / 2 ^ 20 % 2 ^ 24 * 2 ^ 8

def makedev (major minor : Nat) : Nat :=
  major % 2 ^ 12 * 2 ^ 8 + major / 2 ^ 12 % 2 ^ 20 * 2 ^ 44 + minor % 2 ^ 8 + minor / 2 ^ 8 % 2 ^ 24 * 2 ^ 20

def deviceFromNumbers (majorNumber minorNumber : Nat) : Option Nat :=
  if 0xfff < majorNumber ∨ 0xfffff < minorNumber then none else some (makedev majorNumber minorNumber)

/-! ## The temporary archive -/

/-- Its length is an `off_t`. -/
structure Spool where
  bytes : Bytes
  length_lt : bytes.length < 2 ^ 63

namespace Spool

def empty : Spool := ⟨[], by decide⟩

variable (s : Spool)

def append (data : Bytes) : Option Spool :=
  if h : s.bytes.length + data.length < 2 ^ 63 then some ⟨s.bytes ++ data, by rwa [List.length_append]⟩ else none

def appendZeros (len : Nat) : Option Spool := s.append (List.replicate len 0)

def readAt (offset len : Nat) : Bytes := (s.bytes.drop offset).take len

def zeroRange (offset len : Nat) : Bool := zeroPadding (s.readAt offset len)

end Spool

/-! ## Writing -/

structure HeaderFields where
  name : CText
  ino : Nat
  mode : Nat
  uid : Nat
  gid : Nat
  nlink : Nat
  mtime : Int
  device : Nat
  rdev : Nat
  size : Nat

def newcFields (h : HeaderFields) (namesize : Nat) : List Nat :=
  [h.ino, h.mode, h.uid, h.gid, h.nlink, h.mtime.toNat, h.size, major h.device, minor h.device, major h.rdev,
    minor h.rdev, namesize, 0]

def odcFields (h : HeaderFields) (namesize : Nat) : List Nat :=
  [h.device, h.ino, h.mode, h.uid, h.gid, h.nlink, h.rdev, h.mtime.toNat, namesize, h.size]

def emitHeaderWith (encode : List Nat → Option Bytes) (fields : HeaderFields → Nat → List Nat) (alignment : Nat)
    (s : Spool) (h : HeaderFields) : Option Spool :=
  if h.mtime < 0 then none
  else do
    let namesize ← checkedAdd h.name.val.length 1
    let header ← encode (fields h namesize)
    let s ← s.append header
    let s ← s.append (h.name.val ++ [0])
    s.appendZeros (padding s.bytes.length alignment)

def emitNewcHeader : Spool → HeaderFields → Option Spool := emitHeaderWith encodeNewcHeader newcFields 4

def emitOdcHeader : Spool → HeaderFields → Option Spool := emitHeaderWith encodeOdcHeader odcFields 1

def emitHeader : Format → Spool → HeaderFields → Option Spool
  | .newc => emitNewcHeader
  | .odc => emitOdcHeader

/-- What the file system says of a file; of a regular file its contents, of a link its target -/
structure FsEntry where
  archivePath : CText
  mode : UInt32
  mode_lt : mode.toNat < 2 ^ 16
  uid : UInt32
  gid : UInt32
  nlink : UInt64
  mtime : Int64
  ino : UInt64
  dev : UInt64
  rdev : UInt64
  contents : Bytes
  linkTarget : CText

structure Options where
  format : Format
  ownerOverride : Bool
  owner : UInt32
  group : UInt32
  reproducible : Bool

/-- An entry with the number that stands for its inode; of several names of one file only the last gets the data. -/
structure Emission where
  entry : FsEntry
  syntheticIno : UInt64
  suppressData : Bool

def payloadOf (em : Emission) : Bytes :=
  if isLnk em.entry.mode.toNat then em.entry.linkTarget.val
  else if isReg em.entry.mode.toNat && !em.suppressData then em.entry.contents
  else []

variable (opts : Options)

def headerOf (em : Emission) : HeaderFields :=
  let entry := em.entry
  let mode := entry.mode.toNat
  { name := entry.archivePath
    ino := if opts.reproducible then em.syntheticIno.toNat else entry.ino.toNat
    mode := mode
    uid := if opts.ownerOverride then opts.owner.toNat else if opts.reproducible then 0 else entry.uid.toNat
    gid := if opts.ownerOverride then opts.group.toNat else if opts.reproducible then 0 else entry.gid.toNat
    nlink := if opts.reproducible && isDir mode then 2 else entry.nlink.toNat
    mtime := entry.mtime.toInt
    device := if opts.reproducible then 0 else entry.dev.toNat
    rdev := if isChr mode || isBlk mode then entry.rdev.toNat else 0
    size := (payloadOf em).length }

def emitOneFsEntry (s : Spool) (em : Emission) : Except Diag Spool :=
  let entry := em.entry
  let mode := entry.mode.toNat
  let name := entry.archivePath.val
  if name = trailerName then .error ⟨some name, "reserved cpio trailer name"⟩
  else if entry.mtime.toInt < 0 ∨ opts.format.wideLimit < entry.mtime.toInt.toNat
      ∨ (isReg mode ∧ opts.format.wideLimit < entry.contents.length) then .error (overflow name)
  else match emitHeader opts.format s (headerOf opts em) with
    | none => .error (overflow name)
    | some s =>
      match s.append (payloadOf em) with
      | none => .error (overflow (if isReg mode then ascii "temporary archive" else name))
      | some s =>
        match s.appendZeros (padding s.bytes.length opts.format.alignment) with
        | none => .error (overflow name)
        | some s => .ok s

def emitEntries (opts : Options) : Spool → List Emission → Except Diag Spool
  | s, [] => .ok s
  | s, em :: ems =>
    match emitOneFsEntry opts s em with
    | .error d => .error d
    | .ok s => emitEntries opts s ems

def trailerFields : HeaderFields := ⟨⟨trailerName, by decide⟩, 0, 0, 0, 0, 1, 0, 0, 0, 0⟩

variable (format : Format)

def emitTrailer (s : Spool) : Except Diag Spool :=
  match emitHeader format s trailerFields with
  | none => .error (overflow (ascii "archive trailer"))
  | some s =>
    match s.appendZeros (padding s.bytes.length format.trailerAlignment) with
    | none => .error (overflow (ascii "archive trailer"))
    | some s => .ok s

/-- The order of the entries is the caller's: it holds the names of one file back until all have come. -/
def buildArchive (ems : List Emission) : Except Diag Spool :=
  match emitEntries opts Spool.empty ems with
  | .error d => .error d
  | .ok s => emitTrailer opts.format s

/-! ## Reading -/

inductive Kind
  | reg
  | dir
  | symlink
  | fifo
  | char
  | block

structure Member where
  name : Bytes
  kind : Kind
  mode : Nat
  uid : Nat
  gid : Nat
  nlink : Nat
  mtime : Nat
  ino : Nat
  device : Nat
  rdev : Nat
  size : Nat
  linkTarget : Option Bytes
  /-- where the data stands in the archive, and how long it is -/
  data : Option (Nat × Nat)

structure Header where
  ino : Nat
  mode : Nat
  uid : Nat
  gid : Nat
  nlink : Nat
  mtime : Nat
  size : Nat
  namesize : Nat
  device : Nat
  rdevMajor : Nat
  rdevMinor : Nat

def parseNewcHeader (header : Bytes) : Option Header := do
  if header.take 6 ≠ ascii "070701" then none
  else
    let ino ← numberAt 4 header 6 8
    let mode ← numberAt 4 header 14 8
    let uid ← numberAt 4 header 22 8
    let gid ← numberAt 4 header 30 8
    let nlink ← numberAt 4 header 38 8
    let mtime ← numberAt 4 header 46 8
    let size ← numberAt 4 header 54 8
    let devmajor ← numberAt 4 header 62 8
    let devminor ← numberAt 4 header 70 8
    let rdevmajor ← numberAt 4 header 78 8
    let rdevminor ← numberAt 4 header 86 8
    let namesize ← numberAt 4 header 94 8
    let check ← numberAt 4 header 102 8
    if check ≠ 0 then none
    else some ⟨ino, mode, uid, gid, nlink, mtime, size, namesize, devmajor <<< 32 ||| devminor, rdevmajor, rdevminor⟩

def parseOdcHeader (header : Bytes) : Option Header := do
  if header.take 6 ≠ ascii "070707" then none
  else
    let device ← numberAt 3 header 6 6
    let ino ← numberAt 3 header 12 6
    let mode ← numberAt 3 header 18 6
    let uid ← numberAt 3 header 24 6
    let gid ← numberAt 3 header 30 6
    let nlink ← numberAt 3 header 36 6
    let rdev ← numberAt 3 header 42 6
    let mtime ← numberAt 3 header 48 11
    let namesize ← numberAt 3 header 59 6
    let size ← numberAt 3 header 65 11
    some ⟨ino, mode, uid, gid, nlink, mtime, size, namesize, device, major rdev, minor rdev⟩

def parseHeader : Format → Bytes → Option Header
  | .newc => parseNewcHeader
  | .odc => parseOdcHeader

def orFail {α : Type} (d : Diag) : Option α → Except Diag α
  | none => .error d
  | some a => .ok a

def check (d : Diag) (holds : Bool) : Except Diag Unit := if holds then .ok () else .error d

def diag (text : String) : Diag := ⟨none, text⟩

structure NameCheck where
  valid : Bool
  trailer : Bool

def validateName (s : Spool) (offset len : Nat) : NameCheck :=
  let name := s.readAt offset len
  let valid := name.getLast? == some 0 && !name.dropLast.contains 0
  ⟨valid, valid && name == trailerName ++ [0]⟩

/-- Bits beyond the type and the permissions, or a number that does not fit its type -/
def unrepresentable (h : Header) : Bool :=
  h.mode &&& (uintmaxMax - 0o177777) != 0 || decide (2 ^ 32 ≤ h.mode) || decide (2 ^ 32 ≤ h.uid)
    || decide (2 ^ 32 ≤ h.gid) || decide (2 ^ 64 ≤ h.nlink) || decide (2 ^ 63 ≤ h.mtime)

def memberMetadataBudget (count bytes mode namesize size : Nat) : Option Nat := do
  let extra ← checkedAdd sizeofEntry namesize
  let extra ← if isLnk mode then (checkedAdd extra size).bind fun extra => checkedAdd extra 1 else some extra
  metadataBudget count bytes extra memberCountLimit memberByteLimit

def parsePayload (s : Spool) (offset : Nat) (entry : Member) : Except Diag Member :=
  if isReg entry.mode then .ok { entry with kind := .reg, data := some (offset, entry.size) }
  else if isLnk entry.mode then
    let target := s.readAt offset entry.size
    if symlinkTargetValid target then .ok { entry with kind := .symlink, linkTarget := some target }
    else .error (diag "invalid symlink target")
  else do
    let kind ←
      if isDir entry.mode then .ok .dir
      else if isFifo entry.mode then .ok .fifo
      else if isChr entry.mode then .ok .char
      else if isBlk entry.mode then .ok .block
      else .error ⟨some entry.name, "unsupported cpio file type"⟩
    if entry.size ≠ 0 then .error ⟨some entry.name, "unexpected payload for cpio file type"⟩
    else .ok { entry with kind := kind }

inductive Step
  | trailer
  | member (entry : Member) (next bytes : Nat)

def parseMember (s : Spool) (pos count bytes : Nat) : Except Diag Step := do
  let h ← orFail (diag ("invalid " ++ format.label ++ " header")) (parseHeader format (s.readAt pos format.headerLen))
  let pos := pos + format.headerLen
  let truncated := diag ("invalid or truncated " ++ format.label ++ " member")
  let bounds ← orFail truncated
    (memberBounds s.bytes.length pos h.namesize h.size format.alignment format.alignment)
  let name := validateName s pos h.namesize
  check truncated name.valid
  check (diag ("invalid " ++ format.label ++ " padding"))
    (s.zeroRange (pos + h.namesize) (bounds.dataOffset - (pos + h.namesize))
      && s.zeroRange (bounds.dataOffset + h.size) (bounds.nextOffset - (bounds.dataOffset + h.size)))
  if name.trailer then
    check (diag ("invalid " ++ format.label ++ " trailer")) (h.size == 0)
    check (diag "trailing data after cpio trailer") (s.zeroRange bounds.nextOffset (s.bytes.length - bounds.nextOffset))
    .ok .trailer
  else
    check (diag "unrepresentable cpio metadata") (!unrepresentable h)
    let bytes ← orFail (diag "cpio member metadata limit exceeded")
      (memberMetadataBudget count bytes h.mode h.namesize h.size)
    let text := cText (s.readAt pos h.namesize)
    let rdev ←
      if isChr h.mode || isBlk h.mode then
        orFail ⟨some text, "invalid device metadata"⟩ (deviceFromNumbers h.rdevMajor h.rdevMinor)
      else .ok 0
    let entry ← parsePayload s bounds.dataOffset
      ⟨text, .reg, h.mode, h.uid, h.gid, h.nlink, h.mtime, h.ino % 2 ^ 32, h.device, rdev, h.size, none, none⟩
    .ok (.member entry bounds.nextOffset bytes)

def parseEntries (format : Format) (s : Spool) : Nat → Nat → List Member → Nat → Except Diag (List Member)
  | 0, _, _, _ => .error (diag ("truncated " ++ format.label ++ " archive"))
  | fuel + 1, pos, entries, bytes =>
    if pos ≤ s.bytes.length ∧ format.headerLen ≤ s.bytes.length - pos then
      match parseMember format s pos entries.length bytes with
      | .error d => .error d
      | .ok .trailer => .ok entries
      | .ok (.member entry next bytes) => parseEntries format s fuel next (entries ++ [entry]) bytes
    else .error (diag ("truncated " ++ format.label ++ " archive"))

def parseArchive (s : Spool) : Except Diag (List Member) :=
  parseEntries format s (s.bytes.length + 1) 0 [] 0

def parseNewcArchive : Spool → Except Diag (List Member) := parseArchive .newc

def parseOdcArchive : Spool → Except Diag (List Member) := parseArchive .odc

end Bx.Cpio
