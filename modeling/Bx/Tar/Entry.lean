import Mathlib.Data.List.DropRight
import Bx.Tar.Pax

/-!
# Archive entries

An entry is prepared from its header, the records in force and the long texts that came before it; a long text that an
entry takes is gone afterwards. The payload of a sparse member begins with a map of extents.
-/

namespace Bx.Tar
open Kit

inductive Kind
  | reg
  | dir
  | symlink
  | hardlink
  | fifo
  | char
  | block
  deriving DecidableEq

structure SparseExtent where
  offset : Nat
  size : Nat
  deriving DecidableEq

/-- A device is its two numbers; `data` are the bytes the entry owns. -/
structure Entry where
  metadata : Metadata := {}
  name : Bytes
  linkname : Option Bytes := none
  uname : Option Bytes := none
  gname : Option Bytes := none
  kind : Kind := .reg
  mode : Nat := 0
  uid : Nat := 0
  gid : Nat := 0
  rdev : Nat × Nat := (0, 0)
  mtime : Timespec := ⟨0, 0⟩
  omitUid : Bool := false
  omitGid : Bool := false
  omitMtime : Bool := false
  data : Bytes := []
  dataLen : Nat := 0
  size : Nat := 0
  sparse : Bool := false
  extents : List SparseExtent := []
  headerBlockIndex : Nat := 0
  deriving DecidableEq

structure LongTexts where
  name : Option Bytes := none
  link : Option Bytes := none

structure ReaderOptions where
  skipOwnerGroupNames : Bool := false
  skipOwnerGroupIds : Bool := false

variable (header : Bytes)

def headerPayloadSize (numbers : PaxNumbers) : Option Nat :=
  let extended := isExtendedType (typeflag header)
  if !extended && numbers.size.deleted then none
  else
    match if !extended && numbers.size.present then some numbers.size.value
        else parseOctalField (field header 124 12) with
    | none => none
    | some size => if sizeMax - (blockSize - 1) < size then none else some size

variable (payload : Bytes)

def longText : Bytes := cText (payload.rdropWhile (· == 0))

/-! ## Preparing an entry -/

def deviceNumbers (size : Nat) : Option (Nat × Nat) :=
  if size ≠ 0 then none
  else
    match deviceField (field header 329 8), deviceField (field header 337 8) with
    | some major, some minor => if 0xfff < major ∨ 0xfffff < minor then none else some (major, minor)
    | _, _ => none

def entryKind (size : Nat) (type : UInt8) : Option (Kind × (Nat × Nat)) :=
  if type = 0 ∨ type = 48 then some (.reg, (0, 0))
  else if type = 53 then some (.dir, (0, 0))
  else if type = 50 then some (.symlink, (0, 0))
  else if type = 49 then some (.hardlink, (0, 0))
  else if type = 54 then some (.fifo, (0, 0))
  else if type = 51 then (deviceNumbers header size).map fun rdev => (.char, rdev)
  else if type = 52 then (deviceNumbers header size).map fun rdev => (.block, rdev)
  else none

def entryMetadata (shared : Metadata) (pax : PaxInfo) : Metadata :=
  let merged := shared.copy.overlay pax.metadata
  let labelled := if pax.omitSelinux then merged.remove (ascii "security.selinux") else merged
  if labelled.aclAccess = some [] then { labelled with aclAccess := none } else labelled

def entryName (type : UInt8) (path longName : Option Bytes) : Bytes :=
  let name := (path <|> longName).getD (headerName header)
  if type = 53 ∨ type = 68 then name.rdropWhile (· == 47) else name

def headerNumber {α : Type} (number : PaxNumber α) (ofHeader : Nat → α) (octal : Bytes) : α :=
  if number.present then number.value
  else ofHeader (if number.deleted then 0 else (parseOctalField octal).getD 0)

def ownerName (record : Option Bytes) (octets : Bytes) : Option Bytes :=
  match record with
  | some name => if name = [] then none else some name
  | none => if octets.headD 0 == 0 then none else some (cText octets)

def entryLinkname (type : UInt8) (linkpath longLink : Option Bytes) : Option Bytes :=
  match linkpath with
  | some target => some target
  | none => if isLinkType type then some (longLink.getD (cText (field header 157 100))) else none

def prepareEntryFromHeader (o : ReaderOptions) (header : Bytes) (size : Nat) (type : UInt8) (pax : PaxInfo)
    (numbers : PaxNumbers) (sharedMetadata : Metadata) (long : LongTexts) : Option (Entry × LongTexts) :=
  if isLinkType type && pax.linkpath == some [] then none
  else
    match entryKind header size type with
    | none => none
    | some (kind, rdev) =>
      some
        ({ metadata := entryMetadata sharedMetadata pax
           name := entryName header type pax.path long.name
           linkname := entryLinkname header type pax.linkpath long.link
           uname := if o.skipOwnerGroupNames then none else ownerName pax.uname (field header 265 32)
           gname := if o.skipOwnerGroupNames then none else ownerName pax.gname (field header 297 32)
           kind := kind
           rdev := rdev
           mode := (parseOctalField (field header 100 8)).getD 0 % 2 ^ 32
           uid := if o.skipOwnerGroupIds then 0 else headerNumber numbers.uid (· % 2 ^ 32) (field header 108 8)
           gid := if o.skipOwnerGroupIds then 0 else headerNumber numbers.gid (· % 2 ^ 32) (field header 116 8)
           mtime := headerNumber numbers.mtime (fun sec => ⟨sec, 0⟩) (field header 136 12)
           omitUid := numbers.uid.deleted
           omitGid := numbers.gid.deleted
           omitMtime := numbers.mtime.deleted
           size := size },
         { name := none, link := if pax.linkpath.isSome || isLinkType type then none else long.link })

/-! ## Sparse maps -/

def sparseExtentLimit : Nat := 65536

def sparseNumberDigit (ch : UInt8) (value : Nat) : Option Nat :=
  if isDigit 10 ch then
    if (sizeMax - digitValue ch) / 10 < value then none else some (value * 10 + digitValue ch)
  else none

def sparseNumberLine : Nat → Nat → Bytes → Option (Nat × Nat)
  | _, _, [] => none
  | value, bytesRead, ch :: rest =>
    if ch = 10 then if bytesRead = 0 then none else some (value, bytesRead + 1)
    else
      match sparseNumberDigit ch value with
      | none => none
      | some value => sparseNumberLine value (bytesRead + 1) rest

/-- The number at `pos`, and the position after its line -/
def sparseBufferNumber (pos : Nat) : Option (Nat × Nat) :=
  (sparseNumberLine 0 0 (payload.drop pos)).map fun line => (line.1, pos + line.2)

def parseSparseExtents (payload : Bytes) : Nat → Nat → Option (List SparseExtent × Nat)
  | 0, pos => some ([], pos)
  | count + 1, pos =>
    match sparseBufferNumber payload pos with
    | none => none
    | some (offset, pos) =>
      match sparseBufferNumber payload pos with
      | none => none
      | some (size, pos) =>
        match parseSparseExtents payload count pos with
        | none => none
        | some (extents, pos) => some (⟨offset, size⟩ :: extents, pos)

def checkedSizeRoundUp (value align : Nat) : Option Nat :=
  let remainder := value % align
  if remainder = 0 then some value
  else if sizeMax - (align - remainder) < value then none else some (value + (align - remainder))

variable (entry : Entry)

def parseSparseMap : Option Entry :=
  match sparseBufferNumber payload 0 with
  | none => none
  | some (extentCount, pos) =>
    if sparseExtentLimit < extentCount ∨ (payload.length - pos) / 4 < extentCount then none
    else
      match parseSparseExtents payload extentCount pos with
      | none => none
      | some (extents, pos) =>
        match checkedSizeRoundUp pos blockSize with
        | none => none
        | some dataStart =>
          if payload.length < dataStart then none
          else some { entry with
            extents := extents, data := payload.drop dataStart, dataLen := payload.length - dataStart }

def Entry.asSparse (realsize : Nat) : Entry := { entry with sparse := true, size := realsize }

def Entry.atBlock (index : Nat) : Entry := { entry with headerBlockIndex := index }

def sparseMember (pax : PaxInfo) : Bool := pax.sparseEnabled && pax.sparseMajor == 1 && pax.sparseMinor == 0

end Bx.Tar
