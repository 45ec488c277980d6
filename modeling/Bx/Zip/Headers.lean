import Bx.Kit.LittleEndian

/-!
# Zip records

The fixed part of every record of an archive is a packed record that starts
with its signature. A reader takes it from the front of its input; whether the
signature is the right one is for the caller to check.
-/

namespace Bx.Zip
open Kit

def sigLocal : UInt32 := 0x04034b50
def sigCentral : UInt32 := 0x02014b50
def sigEnd : UInt32 := 0x06054b50
def sigEnd64 : UInt32 := 0x06064b50
def sigEnd64Loc : UInt32 := 0x07064b50
def sigDescriptor : UInt32 := 0x08074b50

def extraZip64 : UInt16 := 0x0001

/-! ## Local headers -/

structure LocalHeader where
  signature : UInt32
  versionNeeded : UInt16
  flags : UInt16
  method : UInt16
  modTime : UInt16
  modDate : UInt16
  crc32 : UInt32
  compSize : UInt32
  uncompSize : UInt32
  nameLen : UInt16
  extraLen : UInt16

namespace LocalHeader

variable (h : LocalHeader)

def words : List Word :=
  [.u32 h.signature, .u16 h.versionNeeded, .u16 h.flags, .u16 h.method, .u16 h.modTime, .u16 h.modDate, .u32 h.crc32,
    .u32 h.compSize, .u32 h.uncompSize, .u16 h.nameLen, .u16 h.extraLen]

def bytes : Bytes := pack h.words

def read (input : Bytes) : Option (LocalHeader × Bytes) := do
  let (signature, input) ← readU32 input
  let (versionNeeded, input) ← readU16 input
  let (flags, input) ← readU16 input
  let (method, input) ← readU16 input
  let (modTime, input) ← readU16 input
  let (modDate, input) ← readU16 input
  let (crc32, input) ← readU32 input
  let (compSize, input) ← readU32 input
  let (uncompSize, input) ← readU32 input
  let (nameLen, input) ← readU16 input
  let (extraLen, input) ← readU16 input
  return (⟨signature, versionNeeded, flags, method, modTime, modDate, crc32, compSize, uncompSize, nameLen,
    extraLen⟩, input)

@[simp] theorem length_bytes (h : LocalHeader) : h.bytes.length = 30 := by
  rw [bytes, length_pack]
  simp [words, Word.size]

theorem read_bytes (rest : Bytes) : read (h.bytes ++ rest) = some (h, rest) := by
  simp only [bytes, words, pack_cons, pack_nil, List.append_assoc, List.nil_append]
  simp only [read, ↓readU16_bind, ↓readU32_bind]
  rfl

end LocalHeader

/-! ## Central headers -/

structure CentralHeader where
  signature : UInt32
  versionMade : UInt16
  versionNeeded : UInt16
  flags : UInt16
  method : UInt16
  modTime : UInt16
  modDate : UInt16
  crc32 : UInt32
  compSize : UInt32
  uncompSize : UInt32
  nameLen : UInt16
  extraLen : UInt16
  commentLen : UInt16
  diskStart : UInt16
  intAttr : UInt16
  extAttr : UInt32
  lhoOffset : UInt32
  deriving DecidableEq

namespace CentralHeader

variable (h : CentralHeader)

def words : List Word :=
  [.u32 h.signature, .u16 h.versionMade, .u16 h.versionNeeded, .u16 h.flags, .u16 h.method, .u16 h.modTime,
    .u16 h.modDate, .u32 h.crc32, .u32 h.compSize, .u32 h.uncompSize, .u16 h.nameLen, .u16 h.extraLen,
    .u16 h.commentLen, .u16 h.diskStart, .u16 h.intAttr, .u32 h.extAttr, .u32 h.lhoOffset]

def bytes : Bytes := pack h.words

def read (input : Bytes) : Option (CentralHeader × Bytes) := do
  let (signature, input) ← readU32 input
  let (versionMade, input) ← readU16 input
  let (versionNeeded, input) ← readU16 input
  let (flags, input) ← readU16 input
  let (method, input) ← readU16 input
  let (modTime, input) ← readU16 input
  let (modDate, input) ← readU16 input
  let (crc32, input) ← readU32 input
  let (compSize, input) ← readU32 input
  let (uncompSize, input) ← readU32 input
  let (nameLen, input) ← readU16 input
  let (extraLen, input) ← readU16 input
  let (commentLen, input) ← readU16 input
  let (diskStart, input) ← readU16 input
  let (intAttr, input) ← readU16 input
  let (extAttr, input) ← readU32 input
  let (lhoOffset, input) ← readU32 input
  return (⟨signature, versionMade, versionNeeded, flags, method, modTime, modDate, crc32, compSize, uncompSize,
    nameLen, extraLen, commentLen, diskStart, intAttr, extAttr, lhoOffset⟩, input)

@[simp] theorem length_bytes (h : CentralHeader) : h.bytes.length = 46 := by
  rw [bytes, length_pack]
  simp [words, Word.size]

theorem read_bytes (rest : Bytes) : read (h.bytes ++ rest) = some (h, rest) := by
  simp only [bytes, words, pack_cons, pack_nil, List.append_assoc, List.nil_append]
  simp only [read, ↓readU16_bind, ↓readU32_bind]
  rfl

end CentralHeader

/-! ## End records -/

structure EndCentral where
  signature : UInt32
  diskNum : UInt16
  diskStart : UInt16
  entriesDisk : UInt16
  entriesTotal : UInt16
  cdSize : UInt32
  cdOffset : UInt32
  commentLen : UInt16

namespace EndCentral

def words (h : EndCentral) : List Word :=
  [.u32 h.signature, .u16 h.diskNum, .u16 h.diskStart, .u16 h.entriesDisk, .u16 h.entriesTotal, .u32 h.cdSize,
    .u32 h.cdOffset, .u16 h.commentLen]

def bytes (h : EndCentral) : Bytes := pack h.words

def read (input : Bytes) : Option (EndCentral × Bytes) := do
  let (signature, input) ← readU32 input
  let (diskNum, input) ← readU16 input
  let (diskStart, input) ← readU16 input
  let (entriesDisk, input) ← readU16 input
  let (entriesTotal, input) ← readU16 input
  let (cdSize, input) ← readU32 input
  let (cdOffset, input) ← readU32 input
  let (commentLen, input) ← readU16 input
  return (⟨signature, diskNum, diskStart, entriesDisk, entriesTotal, cdSize, cdOffset, commentLen⟩, input)

@[simp] theorem length_bytes (h : EndCentral) : h.bytes.length = 22 := by
  rw [bytes, length_pack]
  simp [words, Word.size]

theorem read_bytes (h : EndCentral) (rest : Bytes) : read (h.bytes ++ rest) = some (h, rest) := by
  simp only [bytes, words, pack_cons, pack_nil, List.append_assoc, List.nil_append]
  simp only [read, ↓readU16_bind, ↓readU32_bind]
  rfl

end EndCentral

structure EndCentral64 where
  signature : UInt32
  size : UInt64
  versionMade : UInt16
  versionNeeded : UInt16
  diskNum : UInt32
  diskStart : UInt32
  entriesDisk : UInt64
  entriesTotal : UInt64
  cdSize : UInt64
  cdOffset : UInt64

namespace EndCentral64

variable (h : EndCentral64)

def words : List Word :=
  [.u32 h.signature, .u64 h.size, .u16 h.versionMade, .u16 h.versionNeeded, .u32 h.diskNum, .u32 h.diskStart,
    .u64 h.entriesDisk, .u64 h.entriesTotal, .u64 h.cdSize, .u64 h.cdOffset]

def bytes : Bytes := pack h.words

def read (input : Bytes) : Option (EndCentral64 × Bytes) := do
  let (signature, input) ← readU32 input
  let (size, input) ← readU64 input
  let (versionMade, input) ← readU16 input
  let (versionNeeded, input) ← readU16 input
  let (diskNum, input) ← readU32 input
  let (diskStart, input) ← readU32 input
  let (entriesDisk, input) ← readU64 input
  let (entriesTotal, input) ← readU64 input
  let (cdSize, input) ← readU64 input
  let (cdOffset, input) ← readU64 input
  return (⟨signature, size, versionMade, versionNeeded, diskNum, diskStart, entriesDisk, entriesTotal, cdSize,
    cdOffset⟩, input)

@[simp] theorem length_bytes (h : EndCentral64) : h.bytes.length = 56 := by
  rw [bytes, length_pack]
  simp [words, Word.size]

theorem read_bytes (rest : Bytes) : read (h.bytes ++ rest) = some (h, rest) := by
  simp only [bytes, words, pack_cons, pack_nil, List.append_assoc, List.nil_append]
  simp only [read, ↓readU16_bind, ↓readU32_bind, ↓readU64_bind]
  rfl

end EndCentral64

structure End64Locator where
  signature : UInt32
  diskNum : UInt32
  eocd64Offset : UInt64
  totalDisks : UInt32

namespace End64Locator

variable (h : End64Locator)

def words : List Word :=
  [.u32 h.signature, .u32 h.diskNum, .u64 h.eocd64Offset, .u32 h.totalDisks]

def bytes : Bytes := pack h.words

def read (input : Bytes) : Option (End64Locator × Bytes) := do
  let (signature, input) ← readU32 input
  let (diskNum, input) ← readU32 input
  let (eocd64Offset, input) ← readU64 input
  let (totalDisks, input) ← readU32 input
  return (⟨signature, diskNum, eocd64Offset, totalDisks⟩, input)

@[simp] theorem length_bytes (h : End64Locator) : h.bytes.length = 20 := by
  rw [bytes, length_pack]
  simp [words, Word.size]

theorem read_bytes (rest : Bytes) : read (h.bytes ++ rest) = some (h, rest) := by
  simp only [bytes, words, pack_cons, pack_nil, List.append_assoc, List.nil_append]
  simp only [read, ↓readU32_bind, ↓readU64_bind]
  rfl

end End64Locator

structure DataDescriptor where
  signature : UInt32
  crc32 : UInt32
  compSize : UInt32
  uncompSize : UInt32

def DataDescriptor.bytes (h : DataDescriptor) : Bytes :=
  pack [.u32 h.signature, .u32 h.crc32, .u32 h.compSize, .u32 h.uncompSize]

end Bx.Zip
