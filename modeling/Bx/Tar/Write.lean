import Bx.Tar.Entry

/-!
# Writing an entry

A path is split over the name and prefix fields at its last slash that fits.
What the header's fields cannot hold goes to pax records in a header of their
own before it.
-/

namespace Bx.Tar
open Kit

structure RawEntry where
  path : Bytes
  linkname : Option Bytes := none
  uname : Option Bytes := none
  gname : Option Bytes := none
  kind : Kind
  mode : Nat
  uid : Nat
  gid : Nat
  rdev : Nat × Nat := (0, 0)
  data : Bytes := []
  mtime : Timespec
  metadata : Metadata := {}

/-! ## Names -/

structure UstarName where
  name : Bytes
  leading : Bytes

def splitAtSlash (whole : Bytes) : Nat → Option UstarName
  | 0 => none
  | slashIndex + 1 =>
    if whole[slashIndex]? ≠ some 47 then splitAtSlash whole slashIndex
    else if slashIndex ≤ 155 ∧ whole.length - slashIndex - 1 ≤ 100 then
      some { name := whole.drop (slashIndex + 1), leading := whole.take slashIndex }
    else splitAtSlash whole slashIndex

def wholeName (path : Bytes) (directory : Bool) : Bytes := if directory then path ++ [47] else path

def splitUstarName (path : Bytes) (directory : Bool) : Option UstarName :=
  if (wholeName path directory).length ≤ 100 then some { name := wholeName path directory, leading := [] }
  else splitAtSlash (wholeName path directory) (wholeName path directory).length

/-! ## Records -/

def paxTotalStep (payload total : Nat) : Nat ⊕ Nat :=
  let digits := (numeral 10 total).length + 1
  let next := payload + digits - 1
  if next = total then .inr total else .inl next

def paxTotal (payload : Nat) : Option Nat := loop (paxTotalStep payload) payload (payload + 1)

def paxAppend (key value : Bytes) : Option Bytes :=
  (paxTotal (key.length + value.length + 3)).map fun total =>
    numeral 10 total ++ [32] ++ key ++ [61] ++ value ++ [10]

def signedNumeral (n : Int) : Bytes := if n < 0 then 45 :: numeral 10 (-n).toNat else numeral 10 n.toNat

/-- Nanoseconds count up from the second below, a decimal fraction away from zero. -/
def paxMtimeText (time : Timespec) : Bytes :=
  if time.nsec = 0 then signedNumeral time.sec
  else if time.sec < 0 then
    45 :: numeral 10 (-(time.sec + 1)).toNat ++ [46] ++ paddedNumeral 10 9 (1000000000 - time.nsec)
  else signedNumeral time.sec ++ [46] ++ paddedNumeral 10 9 time.nsec

def metadataWrite (metadata : Metadata) : Option Bytes := do
  let xattrs ← metadata.xattrs.mapM fun attr => paxAppend (ascii "SCHILY.xattr." ++ attr.1) attr.2
  let access ← (metadata.aclAccess.map (paxAppend (ascii "SCHILY.acl.access"))).getD (some [])
  let default ← (metadata.aclDefault.map (paxAppend (ascii "SCHILY.acl.default"))).getD (some [])
  let flags ← (metadata.fileFlags.map (paxAppend (ascii "SCHILY.fflags"))).getD (some [])
  some (xattrs.flatten ++ access ++ default ++ flags)

def metadataPresent (metadata : Metadata) : Bool :=
  !metadata.xattrs.isEmpty || metadata.aclAccess.isSome || metadata.aclDefault.isSome || metadata.fileFlags.isSome

/-! ## Header blocks -/

structure RawHeader where
  name : UstarName
  linkname : Option Bytes := none
  uname : Option Bytes := none
  gname : Option Bytes := none
  type : UInt8
  mode : Nat := 0
  uid : Nat := 0
  gid : Nat := 0
  rdev : Nat × Nat := (0, 0)
  size : Nat := 0
  mtime : Nat := 0

def octalField (width value : Nat) : Bytes := paddedNumeral 8 (width - 1) value ++ [0]

def textField (width : Nat) (text : Bytes) : Bytes :=
  text.take width ++ List.replicate (width - text.length) 0

def RawHeader.isDevice (h : RawHeader) : Bool := h.type == 51 || h.type == 52

namespace RawHeader
variable (h : RawHeader)

def fields (checksum : Bytes) : List Bytes :=
  [textField 100 h.name.name, octalField 8 (h.mode % 0o10000), octalField 8 h.uid, octalField 8 h.gid,
    octalField 12 h.size, octalField 12 h.mtime, checksum, [h.type], textField 100 (h.linkname.getD []),
    ascii "ustar" ++ [0] ++ ascii "00", textField 32 (h.uname.getD []), textField 32 (h.gname.getD []),
    if h.isDevice then octalField 8 h.rdev.1 else List.replicate 8 0,
    if h.isDevice then octalField 8 h.rdev.2 else List.replicate 8 0,
    textField 155 h.name.leading, List.replicate 12 0]

def checksum : Nat := byteSum (h.fields (List.replicate 8 32)).flatten

def block : Bytes := (h.fields (paddedNumeral 8 6 h.checksum ++ [0, 32])).flatten

end RawHeader

/-! ## Entries -/

def ustarIdMax : Nat := 0o7777777

def ustarSizeTimeMax : Nat := 0o77777777777

def entryType : Kind → UInt8
  | .reg => 48
  | .dir => 53
  | .symlink => 50
  | .hardlink => 49
  | .fifo => 54
  | .char => 51
  | .block => 52

def zeroPadding (len : Nat) : Bytes := List.replicate (roundUp len blockSize - len) 0

namespace RawEntry
variable (e : RawEntry)

def isDir : Bool := e.kind == .dir

def payload : Bytes := if e.kind = .reg then e.data else []

def needPathPax : Bool := (splitUstarName e.path e.isDir).isNone

def needLinkPax : Bool := 100 < (e.linkname.getD []).length

def needUidPax : Bool := ustarIdMax < e.uid

def needGidPax : Bool := ustarIdMax < e.gid

def needSizePax : Bool := ustarSizeTimeMax < e.payload.length

def needMtimePax : Bool := e.mtime.sec < 0 || e.mtime.nsec != 0 || (ustarSizeTimeMax : Int) < e.mtime.sec

def needNumericPax : Bool := e.needUidPax || e.needGidPax || e.needSizePax || e.needMtimePax

def needPax : Bool := e.needPathPax || e.needLinkPax || e.needNumericPax || metadataPresent e.metadata

def validNumbers : Bool :=
  decide (e.mtime.nsec < 1000000000) && decide (e.payload.length ≤ sizeMax - (blockSize - 1)) && e.uid != idMax
    && e.gid != idMax

def validDevice : Bool :=
  if e.kind = .char ∨ e.kind = .block then decide (e.rdev.1 ≤ 0xfff) && decide (e.rdev.2 ≤ 0xfffff) else true

def recordIf (need : Bool) (key : String) (value : Bytes) : Option Bytes :=
  if need then paxAppend (ascii key) value else some []

def paxData : Option Bytes := do
  let metadata ← metadataWrite e.metadata
  let path ← recordIf e.needPathPax "path" e.path
  let linkpath ← recordIf e.needLinkPax "linkpath" (e.linkname.getD [])
  let uid ← recordIf e.needUidPax "uid" (numeral 10 e.uid)
  let gid ← recordIf e.needGidPax "gid" (numeral 10 e.gid)
  let size ← recordIf e.needSizePax "size" (numeral 10 e.payload.length)
  let mtime ← recordIf e.needMtimePax "mtime" (paxMtimeText e.mtime)
  some (metadata ++ path ++ linkpath ++ uid ++ gid ++ size ++ mtime)

def paxMember : Option Bytes :=
  if e.needPax then do
    let data ← e.paxData
    let name ← splitUstarName (ascii "./PaxHeaders/bx") false
    some (RawHeader.block { name := name, type := 120, mode := 0o644, size := data.length } ++ data
      ++ zeroPadding data.length)
  else some []

def mainHeader (name : UstarName) : RawHeader where
  name := name
  linkname := if e.needLinkPax then some [] else e.linkname
  uname := e.uname
  gname := e.gname
  type := entryType e.kind
  mode := e.mode
  uid := if e.needUidPax then 0 else e.uid
  gid := if e.needGidPax then 0 else e.gid
  rdev := e.rdev
  size := if e.needSizePax then 0 else e.payload.length
  mtime := if e.needMtimePax then 0 else (e.mtime.sec % 2 ^ 64).toNat

def writeHeader (allowPax : Bool) : Option Bytes :=
  if !e.validNumbers || !e.validDevice then none
  else if e.needPax && !allowPax then none
  else do
    let member ← e.paxMember
    let name ←
      match splitUstarName e.path e.isDir with
      | some name => some name
      | none => splitUstarName (ascii "PaxPayload") e.isDir
    some (member ++ (e.mainHeader name).block)

def writeRawEntry (allowPax : Bool) : Option Bytes :=
  (e.writeHeader allowPax).map fun header =>
    if e.kind = .reg then header ++ e.data ++ zeroPadding e.data.length else header

end RawEntry

def recordBlocks : Nat := 20

def writeTrailer (bytesWritten : Nat) : Bytes :=
  List.replicate (roundUp (bytesWritten + 2 * blockSize) (blockSize * recordBlocks) - bytesWritten) 0

end Bx.Tar
