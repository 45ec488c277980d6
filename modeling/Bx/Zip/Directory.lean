import Bx.Zip.EndRecord

/-!
# The central directory

The writer emits one record for each entry and the end records behind them; values of 64 bits go into the Zip64 extra
field where a sentinel stands in the header. The reader resolves the sentinels.
-/

namespace Bx.Zip
open Kit

/-- An entry as the writer keeps it. The comment's buffer is as long as the length beside it says. -/
structure WriterEntry where
  name : CText
  crc32 : UInt32
  compSize : UInt64
  uncompSize : UInt64
  lhoOffset : UInt64
  method : UInt16
  flags : UInt16
  modTime : UInt16
  modDate : UInt16
  extAttr : UInt32
  versionMade : UInt16
  intAttr : UInt16
  zip64 : Bool
  diskStart : UInt32
  comment : Option Bytes
  commentLen : UInt16
  comment_length : ∀ text, comment = some text → text.length = commentLen.toNat
  atime : Int64
  mtime : Int64
  ctime : Int64
  uid : UInt32
  gid : UInt32

variable (excludeExtraAttrs : Bool) (e : WriterEntry) (entries : List WriterEntry)

/-! ## Extra fields -/

def needUncomp64 : Bool := e.zip64 || decide (0xffffffff ≤ e.uncompSize)
def needComp64 : Bool := e.zip64 || decide (0xffffffff ≤ e.compSize)
def needOff64 : Bool := e.zip64 || decide (0xffffffff ≤ e.lhoOffset)

def needZip64Extra : Bool := needUncomp64 e || needComp64 e || needOff64 e

def getExtraLen (zip64 isLh : Bool) (e : Option WriterEntry) : UInt16 :=
  let len : UInt16 :=
    if zip64 then
      if isLh then 4 + 2 * 8
      else match e with
        | none => 0
        | some e =>
          let zv : UInt16 := (if needUncomp64 e then 1 else 0) + (if needComp64 e then 1 else 0)
            + (if needOff64 e then 1 else 0)
          if 0 < zv then 4 + zv * 8 else 0
    else 0
  if excludeExtraAttrs then len
  else len + (4 + 1 + (if isLh then 3 else 1) * 4) + (if isLh then 15 else 0)

def zip64Vals : List Word :=
  (if needUncomp64 e then [.u64 e.uncompSize] else []) ++ (if needComp64 e then [.u64 e.compSize] else [])
    ++ (if needOff64 e then [.u64 e.lhoOffset] else [])

def time32 (t : Int64) : UInt32 := t.toUInt64.toUInt32

def writeZip64Extra (uncompSize compSize : UInt64) (isLh : Bool) (e : WriterEntry) : Bytes :=
  if isLh then pack [.u16 extraZip64, .u16 16, .u64 uncompSize, .u64 compSize]
  else if 0 < (zip64Vals e).length then
    pack ([.u16 extraZip64, .u16 (UInt16.ofNat ((zip64Vals e).length * 8))] ++ zip64Vals e)
  else []

def writeAttrExtra (isLh : Bool) (e : WriterEntry) : Bytes :=
  if isLh then
    pack [.u16 0x5455, .u16 13, .u8 7, .u32 (time32 e.mtime), .u32 (time32 e.atime), .u32 (time32 e.ctime),
      .u16 0x7875, .u16 11, .u8 1, .u8 4, .u32 e.uid, .u8 4, .u32 e.gid]
  else pack [.u16 0x5455, .u16 5, .u8 1, .u32 (time32 e.mtime)]

def writeExtraFields (zip64 : Bool) (uncompSize compSize : UInt64) (isLh : Bool) (e : WriterEntry) : Bytes :=
  (if zip64 then writeZip64Extra uncompSize compSize isLh e else [])
    ++ (if excludeExtraAttrs then [] else writeAttrExtra isLh e)

/-! ## Central records -/

def centralHeader : CentralHeader where
  signature := sigCentral
  versionMade := e.versionMade
  versionNeeded := if e.zip64 || needZip64Extra e then 45 else if e.method = 0 then 10 else 20
  flags := e.flags
  method := e.method
  modTime := e.modTime
  modDate := e.modDate
  crc32 := e.crc32
  compSize := if needComp64 e then 0xffffffff else e.compSize.toUInt32
  uncompSize := if needUncomp64 e then 0xffffffff else e.uncompSize.toUInt32
  nameLen := UInt16.ofNat e.name.val.length
  extraLen := getExtraLen excludeExtraAttrs (needZip64Extra e) false (some e)
  commentLen := e.commentLen
  diskStart := if 0xffff < e.diskStart then 0xffff else e.diskStart.toUInt16
  intAttr := e.intAttr
  extAttr := e.extAttr
  lhoOffset := if needOff64 e then 0xffffffff else e.lhoOffset.toUInt32

structure DirectoryState where
  out : Bytes
  cdSize : UInt64
  needsZip64 : Bool

def writeCentralEntry (d : DirectoryState) (e : WriterEntry) : Except Failure DirectoryState :=
  let ch := centralHeader excludeExtraAttrs e
  let extra := writeExtraFields excludeExtraAttrs (needZip64Extra e) e.uncompSize e.compSize false e
  let done (text : Bytes) : DirectoryState :=
    { out := d.out ++ ch.bytes ++ e.name.val ++ extra ++ text
      cdSize := d.cdSize + UInt64.ofNat (46 + e.name.val.length + ch.extraLen.toNat + e.commentLen.toNat)
      needsZip64 := d.needsZip64 || (e.zip64 || needZip64Extra e) }
  if 0 < e.commentLen then
    match e.comment with
    | none => .error (ioError "entry comment missing")
    | some text => .ok (done text)
  else .ok (done [])

def writeCentralEntries (excludeExtraAttrs : Bool) : DirectoryState → List WriterEntry → Except Failure DirectoryState
  | d, [] => .ok d
  | d, e :: entries =>
    match writeCentralEntry excludeExtraAttrs d e with
    | .error failure => .error failure
    | .ok d => writeCentralEntries excludeExtraAttrs d entries

def writeCentralDirectory (cdOffset : UInt64) : Except Failure DirectoryState :=
  (writeCentralEntries excludeExtraAttrs ⟨[], 0, decide (0xffff < entries.length) || decide (0xffffffff < cdOffset)⟩
    entries).map fun d => if 0xffffffff < d.cdSize then { d with needsZip64 := true } else d

/-! ## End records -/

def endCentral (entryCount : Nat) (cdOffset cdSize : UInt64) (commentLen : UInt16) : EndCentral where
  signature := sigEnd
  diskNum := 0
  diskStart := 0
  entriesDisk := if 0xffff < entryCount then 0xffff else UInt16.ofNat entryCount
  entriesTotal := if 0xffff < entryCount then 0xffff else UInt16.ofNat entryCount
  cdSize := if 0xffffffff < cdSize then 0xffffffff else cdSize.toUInt32
  cdOffset := if 0xffffffff < cdOffset then 0xffffffff else cdOffset.toUInt32
  commentLen := commentLen

def writeEndCentral (cdOffset cdSize : UInt64) (comment : Bytes) : Bytes :=
  (endCentral entries.length cdOffset cdSize (UInt16.ofNat comment.length)).bytes ++ comment

def end64Central (cdOffset cdSize : UInt64) : EndCentral64 where
  signature := sigEnd64
  size := 56 - 12
  versionMade := entries.foldl (fun made e => if made < e.versionMade then e.versionMade else made) 45
  versionNeeded := 45
  diskNum := 0
  diskStart := 0
  entriesDisk := UInt64.ofNat entries.length
  entriesTotal := UInt64.ofNat entries.length
  cdSize := cdSize
  cdOffset := cdOffset

def end64Locator (cdOffset cdSize : UInt64) : End64Locator := ⟨sigEnd64Loc, 0, cdOffset + cdSize, 1⟩

def writeEndCentral64 (cdOffset cdSize : UInt64) : Bytes :=
  (end64Central entries cdOffset cdSize).bytes ++ (end64Locator cdOffset cdSize).bytes

def writeEnd (cdOffset : UInt64) (zipComment : Bytes) : Except Failure Bytes :=
  match writeCentralDirectory excludeExtraAttrs entries cdOffset with
  | .error failure => .error failure
  | .ok d =>
    if 0xffff < zipComment.length then .error ⟨.usage, "archive comment too large"⟩
    else .ok (d.out ++ (if d.needsZip64 then writeEndCentral64 entries cdOffset d.cdSize else [])
      ++ writeEndCentral entries cdOffset d.cdSize zipComment)

/-! ## Reading a record -/

def zip64Payload : Nat → Bytes → Option Bytes
  | 0, _ => none
  | fuel + 1, extra =>
    match readU16 extra with
    | none => none
    | some (tag, extra) =>
      match readU16 extra with
      | none => none
      | some (sz, extra) =>
        if extra.length < sz.toNat then none
        else if tag = extraZip64 then some (extra.take sz.toNat)
        else zip64Payload fuel (extra.drop sz.toNat)

def takeField (need : Bool) (current : UInt64) (payload : Bytes) : UInt64 × Bytes :=
  if need then (readU64 payload).getD (current, payload) else (current, payload)

structure EntrySizes where
  comp : UInt64
  uncomp : UInt64
  lho : UInt64

def resolveZip64Sizes (hdr : CentralHeader) (extra : Bytes) : EntrySizes :=
  let needUncomp := hdr.uncompSize == 0xffffffff
  let needComp := hdr.compSize == 0xffffffff
  let needLho := hdr.lhoOffset == 0xffffffff
  let payload := if needUncomp || needComp || needLho then zip64Payload extra.length extra else none
  match payload with
  | none => ⟨hdr.compSize.toUInt64, hdr.uncompSize.toUInt64, hdr.lhoOffset.toUInt64⟩
  | some payload =>
    let uncomp := takeField needUncomp hdr.uncompSize.toUInt64 payload
    let comp := takeField needComp hdr.compSize.toUInt64 uncomp.2
    let lho := takeField needLho hdr.lhoOffset.toUInt64 comp.2
    ⟨comp.1, uncomp.1, lho.1⟩

structure CentralEntry where
  hdr : CentralHeader
  name : CText
  name_length : name.val.length ≤ hdr.nameLen.toNat
  extra : Bytes
  comment : Bytes
  comment_length : comment.length = hdr.commentLen.toNat
  compSize : UInt64
  uncompSize : UInt64
  lhoOffset : UInt64
  deriving DecidableEq

def readExact (size : Nat) (message : String) (input : Bytes) :
    Except Failure ({ bytes : Bytes // bytes.length = size } × Bytes) :=
  if h : input.length < size then .error (ioError message)
  else .ok (⟨input.take size, by rw [List.length_take]; omega⟩, input.drop size)

def readCentralEntry (input : Bytes) : Except Failure (CentralEntry × Bytes) := do
  match CentralHeader.read input with
  | none => .error (ioError "bad central header")
  | some (hdr, input) =>
    if hdr.signature ≠ sigCentral then .error (ioError "bad central header")
    else
      let (name, input) ← readExact hdr.nameLen.toNat "short read on filename" input
      let (extra, input) ← readExact hdr.extraLen.toNat "short read on extra field" input
      if (hdr.compSize == 0xffffffff || hdr.uncompSize == 0xffffffff || hdr.lhoOffset == 0xffffffff)
          && hdr.extraLen == 0 then
        .error (ioError "missing Zip64 extra for large entry")
      else
        let (comment, input) ← readExact hdr.commentLen.toNat "short read on file comment" input
        let sizes := resolveZip64Sizes hdr extra
        .ok (⟨hdr, ⟨cText name, zero_notMem_cText name⟩, le_of_le_of_eq (length_cText_le name) name.property, extra,
          comment, comment.property, sizes.comp, sizes.uncomp, sizes.lho⟩, input)

def readCentralEntries : Nat → Bytes → Except Failure (List CentralEntry × Bytes)
  | 0, input => .ok ([], input)
  | count + 1, input =>
    match readCentralEntry input with
    | .error failure => .error failure
    | .ok (entry, input) =>
      match readCentralEntries count input with
      | .error failure => .error failure
      | .ok (entries, input) => .ok (entry :: entries, input)

end Bx.Zip
