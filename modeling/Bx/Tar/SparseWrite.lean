import Bx.Tar.ArchiveRoundTrip

/-!
# Sparse entries written and read back

A sparse entry is written as records with its name and its logical size, a member of another name, and as its payload
the map of extents, padded, and the data. The reader finds the map again and gives the data as a whole or in chunks.
-/

namespace Bx.Tar
open Kit List

variable {key value : Bytes} {extents : List SparseExtent} {pax : PaxInfo}

/-! ## Entries that are written in chunks -/

structure LiveEntry where
  written : Bytes
  dataRemaining : Nat
  paddingRemaining : Nat
  active : Bool

def startRawEntry (written : Bytes) (e : RawEntry) (allowPax : Bool) : Option LiveEntry :=
  (e.writeHeader allowPax).map fun header =>
    { written := written ++ header
      dataRemaining := e.payload.length
      paddingRemaining := roundUp e.payload.length blockSize - e.payload.length
      active := true }

def writeRawEntryChunk (live : LiveEntry) (data : Bytes) : Option LiveEntry :=
  if !live.active then none
  else if live.dataRemaining < data.length then none
  else some { live with written := live.written ++ data, dataRemaining := live.dataRemaining - data.length }

def writeRawEntryChunks (live : LiveEntry) (chunks : List Bytes) : Option LiveEntry :=
  chunks.foldlM writeRawEntryChunk live

def zeroChunks (remaining : Nat) : List Bytes :=
  if remaining = 0 then []
  else if blockSize < remaining then replicate blockSize 0 :: zeroChunks (remaining - blockSize)
  else [replicate remaining 0]
  termination_by remaining
  decreasing_by
    unfold blockSize at *
    omega

def finishRawEntry (live : LiveEntry) : Option Bytes :=
  if !live.active then none
  else if live.dataRemaining ≠ 0 then none
  else some (live.written ++ (zeroChunks live.paddingRemaining).flatten)

/-! ## Sparse entries -/

structure SparseEntry where
  path : Bytes
  uname : Option Bytes := none
  gname : Option Bytes := none
  mode : Nat
  uid : Nat
  gid : Nat
  extents : List SparseExtent
  logicalSize : Nat
  compactSize : Nat
  mtime : Timespec
  metadata : Metadata := {}

def decimalDigits (value : Nat) : Nat := if value < 10 then 1 else decimalDigits (value / 10) + 1

def compactSum : Nat → List SparseExtent → Option Nat
  | sum, [] => some sum
  | sum, extent :: extents => if sizeMax - sum < extent.size then none else compactSum (sum + extent.size) extents

def addLineSize (total value : Nat) : Option Nat :=
  if sizeMax - total < decimalDigits value + 1 then none else some (total + (decimalDigits value + 1))

def addExtentSize (total : Nat) (extent : SparseExtent) : Option Nat :=
  (addLineSize total extent.offset).bind fun total => addLineSize total extent.size

def sparseMapSize (extents : List SparseExtent) : Option Nat :=
  extents.foldlM addExtentSize (decimalDigits extents.length + 1)

def writeSparseNumberLine (live : LiveEntry) (value : Nat) : Option LiveEntry :=
  writeRawEntryChunk live (numeral 10 value ++ [10])

def writeSparseExtent (live : LiveEntry) (extent : SparseExtent) : Option LiveEntry :=
  (writeSparseNumberLine live extent.offset).bind fun live => writeSparseNumberLine live extent.size

namespace SparseEntry
variable (e : SparseEntry)

def paxData : Option Bytes := do
  let metadata ← metadataWrite e.metadata
  let path ← paxAppend (ascii "path") e.path
  let major ← paxAppend (ascii "GNU.sparse.major") (ascii "1")
  let minor ← paxAppend (ascii "GNU.sparse.minor") (ascii "0")
  let realsize ← paxAppend (ascii "GNU.sparse.realsize") (numeral 10 e.logicalSize)
  some (metadata ++ path ++ major ++ minor ++ realsize)

def paxMember : Option Bytes := do
  let data ← e.paxData
  let name ← splitUstarName (ascii "./PaxHeaders/bx") false
  some ((paxHeader name data.length).block ++ data ++ zeroPadding data.length)

def member (payload : Bytes) : RawEntry where
  path := ascii "PaxPayload"
  uname := e.uname
  gname := e.gname
  kind := .reg
  mode := e.mode
  uid := e.uid
  gid := e.gid
  data := payload
  mtime := e.mtime

def startV1Entry : Option LiveEntry := do
  let sum ← compactSum 0 e.extents
  if sum ≠ e.compactSize then none
  else do
    let records ← e.paxMember
    let mapSize ← sparseMapSize e.extents
    let paddedMapSize := roundUp mapSize blockSize % 2 ^ 64
    if paddedMapSize < mapSize ∨ sizeMax - paddedMapSize < e.compactSize then none
    else do
      let live ← startRawEntry records (e.member (replicate (paddedMapSize + e.compactSize) 0)) true
      let live ← writeSparseNumberLine live e.extents.length
      let live ← e.extents.foldlM writeSparseExtent live
      writeRawEntryChunks live (zeroChunks (paddedMapSize - mapSize))

def write (chunks : List Bytes) : Option Bytes := do
  let live ← e.startV1Entry
  let live ← writeRawEntryChunks live chunks
  finishRawEntry live

end SparseEntry

/-! ## The map as text -/

def numberLine (value : Nat) : Bytes := numeral 10 value ++ [10]

def extentLines (extents : List SparseExtent) : Bytes :=
  extents.flatMap fun extent => numberLine extent.offset ++ numberLine extent.size

def mapText (extents : List SparseExtent) : Bytes := numberLine extents.length ++ extentLines extents

def paddedMap (extents : List SparseExtent) : Bytes := mapText extents ++ zeroPadding (mapText extents).length

theorem decimalDigits_eq (value : Nat) : decimalDigits value = (numeral 10 value).length := by
  induction value using Nat.strong_induction_on with
  | _ value ih =>
    rw [decimalDigits]
    unfold numeral at ih ⊢
    by_cases h : value < 10
    · rw [if_pos h, Nat.toDigits_of_lt_base h]
      rfl
    · rw [if_neg h, ih (value / 10) (by omega), @Nat.toDigits_of_base_le 10 value (by decide) (by omega)]
      simp

theorem length_numberLine (value : Nat) : (numberLine value).length = decimalDigits value + 1 := by
  unfold numberLine
  rw [decimalDigits_eq, length_append]
  rfl

theorem addLineSize_eq {total value : Nat} (h : total + (numberLine value).length ≤ sizeMax) :
    addLineSize total value = some (total + (numberLine value).length) := by
  rw [length_numberLine] at *
  unfold addLineSize
  rw [if_neg (by omega)]

theorem addExtentSizes_eq {total : Nat} (h : total + (extentLines extents).length ≤ sizeMax) :
    extents.foldlM addExtentSize total = some (total + (extentLines extents).length) := by
  induction extents generalizing total with
  | nil => rfl
  | cons extent extents ih =>
    have hcons : (extentLines (extent :: extents)).length =
        (numberLine extent.offset).length + (numberLine extent.size).length + (extentLines extents).length := by
      simp [extentLines, add_assoc]
    rw [hcons] at h ⊢
    have hstep : addExtentSize total extent =
        some (total + (numberLine extent.offset).length + (numberLine extent.size).length) := by
      unfold addExtentSize
      rw [addLineSize_eq (by omega), Option.bind_some, addLineSize_eq (by omega)]
    rw [foldlM_cons, hstep, Option.bind_eq_bind, Option.bind_some, ih (by omega)]
    congr 1
    omega

theorem sparseMapSize_eq (h : (mapText extents).length ≤ sizeMax) :
    sparseMapSize extents = some (mapText extents).length := by
  have hlength : (mapText extents).length = (numberLine extents.length).length + (extentLines extents).length :=
    length_append
  unfold sparseMapSize
  rw [← length_numberLine, addExtentSizes_eq (by omega), hlength]

theorem zeroChunks_flatten (remaining : Nat) : (zeroChunks remaining).flatten = replicate remaining 0 := by
  induction remaining using Nat.strong_induction_on with
  | _ remaining ih =>
    rw [zeroChunks]
    by_cases hzero : remaining = 0
    · rw [if_pos hzero, hzero]
      rfl
    · rw [if_neg hzero]
      by_cases hmore : blockSize < remaining
      · have hsum : blockSize + (remaining - blockSize) = remaining := by omega
        rw [if_pos hmore, flatten_cons, ih _ (by unfold blockSize at *; omega), ← replicate_add, hsum]
      · rw [if_neg hmore]
        simp

/-! ## What is written -/

def LiveEntry.after (live : LiveEntry) (bytes : Bytes) : LiveEntry :=
  { live with written := live.written ++ bytes, dataRemaining := live.dataRemaining - bytes.length }

section
variable {live : LiveEntry}

theorem LiveEntry.after_after (a b : Bytes) : (live.after a).after b = live.after (a ++ b) := by
  unfold LiveEntry.after
  simp [Nat.sub_sub]

theorem writeRawEntryChunk_eq (hactive : live.active = true) {data : Bytes} (h : data.length ≤ live.dataRemaining) :
    writeRawEntryChunk live data = some (live.after data) := by
  unfold writeRawEntryChunk
  rw [if_neg (by simp [hactive]), if_neg (by omega)]
  rfl

theorem writeSparseNumberLine_eq (hactive : live.active = true) {value : Nat}
    (h : (numberLine value).length ≤ live.dataRemaining) :
    writeSparseNumberLine live value = some (live.after (numberLine value)) :=
  writeRawEntryChunk_eq hactive h

theorem writeRawEntryChunks_eq {chunks : List Bytes} {live : LiveEntry} (hactive : live.active = true)
    (h : chunks.flatten.length ≤ live.dataRemaining) :
    writeRawEntryChunks live chunks = some (live.after chunks.flatten) := by
  unfold writeRawEntryChunks
  induction chunks generalizing live with
  | nil => simp [LiveEntry.after]
  | cons chunk chunks ih =>
    rw [flatten_cons, length_append] at h
    rw [foldlM_cons, writeRawEntryChunk_eq hactive (by omega), Option.bind_eq_bind, Option.bind_some,
      @ih (live.after chunk) hactive (by unfold LiveEntry.after; dsimp only; omega), LiveEntry.after_after,
      flatten_cons]

theorem writeSparseExtents_eq {live : LiveEntry} (hactive : live.active = true)
    (h : (extentLines extents).length ≤ live.dataRemaining) :
    extents.foldlM writeSparseExtent live = some (live.after (extentLines extents)) := by
  induction extents generalizing live with
  | nil => simp [LiveEntry.after, extentLines]
  | cons extent extents ih =>
    have hcons : extentLines (extent :: extents) =
        numberLine extent.offset ++ numberLine extent.size ++ extentLines extents := rfl
    rw [hcons, length_append, length_append] at h
    have hoffset : writeSparseNumberLine live extent.offset = some (live.after (numberLine extent.offset)) :=
      writeSparseNumberLine_eq hactive (by omega)
    have hsize : writeSparseNumberLine (live.after (numberLine extent.offset)) extent.size =
        some ((live.after (numberLine extent.offset)).after (numberLine extent.size)) :=
      @writeSparseNumberLine_eq (live.after _) hactive _ (by unfold LiveEntry.after; dsimp only; omega)
    have hstep : writeSparseExtent live extent =
        some (live.after (numberLine extent.offset ++ numberLine extent.size)) := by
      unfold writeSparseExtent
      rw [hoffset, Option.bind_some, hsize, LiveEntry.after_after]
    rw [foldlM_cons, hstep, Option.bind_eq_bind, Option.bind_some,
      @ih (live.after _) hactive (by unfold LiveEntry.after; dsimp only; rw [length_append]; omega),
      LiveEntry.after_after, hcons]

end

/-! ## The records of the metadata -/

def OnlyMetadata (target pax : PaxInfo) : Prop :=
  pax = { target with metadata := pax.metadata, omitSelinux := pax.omitSelinux, active := pax.active }

variable {target : PaxInfo}

theorem applyPaxMetadata_only (h : applyPaxMetadata target key value = some pax) : OnlyMetadata target pax := by
  unfold applyPaxMetadata at h
  dsimp only at h
  split at h
  · cases h
    rfl
  · split at h
    · cases h
    · split at h
      · cases h
        rfl
      · cases h

variable {name record : Bytes}

theorem applyPaxRecord_schily (h : applyPaxRecord false false target (ascii "SCHILY." ++ name ++ 61 :: value) = some pax) :
    OnlyMetadata target pax := by
  have hplain : (ascii "SCHILY.").all (· != 61) = true := rfl
  have htake : ∃ rest, (ascii "SCHILY." ++ name ++ 61 :: value).takeWhile (· != 61) = ascii "SCHILY." ++ rest := by
    rw [append_assoc, takeWhile_append_of_pos (all_eq_true.mp hplain)]
    exact ⟨_, rfl⟩
  obtain ⟨rest, hkey⟩ := htake
  have hhead : (ascii "SCHILY." ++ rest).head? = some 83 := rfl
  have hne : ∀ key : Bytes, key.head? ≠ some 83 → ascii "SCHILY." ++ rest ≠ key := by
    intro key hother heq
    rw [heq] at hhead
    exact hother hhead
  have hfield : PaxField.ofKey (ascii "SCHILY." ++ rest) = none := by
    unfold PaxField.ofKey
    rw [if_neg (hne _ (by decide)), if_neg (hne _ (by decide)), if_neg (hne _ (by decide)), if_neg (hne _ (by decide))]
  have htext : PaxText.ofKey (ascii "SCHILY." ++ rest) = none := by
    unfold PaxText.ofKey
    rw [if_neg (hne _ (by decide)), if_neg (hne _ (by decide)), if_neg (hne _ (by decide)), if_neg (hne _ (by decide))]
  have hschily : (ascii "SCHILY.").isPrefixOf (ascii "SCHILY." ++ rest) = true :=
    isPrefixOf_iff_prefix.mpr (prefix_append _ _)
  unfold applyPaxRecord splitPaxRecord at h
  dsimp only at h
  rw [hkey] at h
  split at h
  · cases h
  · rename_i key value' hsplit
    split at hsplit
    · cases hsplit
    · split at hsplit
      · cases hsplit
      · cases hsplit
        rw [hfield, htext] at h
        dsimp only at h
        rw [hschily, Bool.true_or, if_pos rfl] at h
        exact applyPaxMetadata_only h

theorem parsePaxRecords_appended {more : Bytes}
    (happend : paxAppend key value = some record) (hlength : record.length ≤ 2 ^ 32)
    (hread : parsePaxRecords false false target (record ++ more) = some pax) :
    ∃ next, applyPaxRecord false false target (key ++ 61 :: value) = some next ∧
      ∀ more, parsePaxRecords false false target (record ++ more) = parsePaxRecords false false next more := by
  obtain ⟨total, htotal, hlen, _⟩ := paxAppend_spec key value
  rw [happend] at htotal
  cases htotal
  rw [hlen] at hlength
  have hlimit : total ≤ paxRecordLimit := by
    by_contra hlong
    have hdigits : ∀ c ∈ numeral 10 total, isDigit 10 c = true := numeral_digits total
    have hframe : paxRecord total key value ++ more =
        numeral 10 total ++ 32 :: (key ++ 61 :: value ++ [10] ++ more) := by
      simp [paxRecord]
    have hnumber : recordLength 0 0 (paxRecord total key value ++ more) = some (total, (numeral 10 total).length) := by
      have hfits : numeralValue 10 0 (numeral 10 total) ≤ (sizeMax - 9) / 10 := by
        rw [numeralValue_decimal]
        exact Nat.le_trans hlength (by decide)
      rw [hframe, recordLength_digits hdigits 0 0 hfits, numeralValue_decimal, zero_add]
    have hnil : paxRecord total key value ++ more ≠ [] := by simp [paxRecord]
    have hstep : parsePaxRecordsStep false false (target, paxRecord total key value ++ more) = .inr none := by
      unfold parsePaxRecordsStep
      dsimp only
      rw [if_neg hnil, hnumber]
      dsimp only
      rw [if_pos (Or.inr (Or.inr (Or.inl (Nat.lt_of_not_le hlong))))]
    unfold parsePaxRecords at hread
    simp [loop_leave hstep] at hread
  rw [parsePaxRecords_record false false hlen hlimit] at hread
  obtain ⟨next, happly, _⟩ := Option.bind_eq_some_iff.mp hread
  refine ⟨next, happly, ?_⟩
  intro more
  rw [parsePaxRecords_record false false hlen hlimit, happly]
  rfl

inductive SchilyRecords : Bytes → Prop
  | nil : SchilyRecords []
  | cons {name value record records : Bytes} (happend : paxAppend (ascii "SCHILY." ++ name) value = some record)
      (hrecords : SchilyRecords records) : SchilyRecords (record ++ records)

variable {a b : Bytes} {records : Bytes}

theorem SchilyRecords.append (ha : SchilyRecords a) (hb : SchilyRecords b) : SchilyRecords (a ++ b) := by
  induction ha with
  | nil => exact hb
  | cons happend _ ih =>
    rw [append_assoc]
    exact .cons happend ih

theorem SchilyRecords.single (happend : paxAppend (ascii "SCHILY." ++ name) value = some record) : SchilyRecords record := by
  have h := SchilyRecords.cons happend .nil
  rw [append_nil] at h
  exact h

theorem SchilyRecords.optional {name : Bytes} {text : Option Bytes} {record : Bytes}
    (h : (text.map (paxAppend (ascii "SCHILY." ++ name))).getD (some []) = some record) : SchilyRecords record := by
  cases text with
  | none => cases h; exact .nil
  | some text => exact .single h

theorem SchilyRecords.attributes {xattrs : List (Bytes × Bytes)} {records : List Bytes}
    (h : xattrs.mapM (fun attr => paxAppend (ascii "SCHILY.xattr." ++ attr.1) attr.2) = some records) :
    SchilyRecords records.flatten := by
  induction xattrs generalizing records with
  | nil => cases h; exact .nil
  | cons attr xattrs ih =>
    rw [mapM_cons] at h
    obtain ⟨record, happend, h⟩ := Option.bind_eq_some_iff.mp h
    obtain ⟨others, hothers, h⟩ := Option.bind_eq_some_iff.mp h
    cases h
    have hname : ascii "SCHILY.xattr." ++ attr.1 = ascii "SCHILY." ++ (ascii "xattr." ++ attr.1) := rfl
    rw [hname] at happend
    rw [flatten_cons]
    exact .cons happend (ih hothers)

theorem schilyRecords_metadataWrite {metadata : Metadata} (h : metadataWrite metadata = some records) :
    SchilyRecords records := by
  unfold metadataWrite at h
  obtain ⟨xattrs, hxattrs, h⟩ := Option.bind_eq_some_iff.mp h
  obtain ⟨access, haccess, h⟩ := Option.bind_eq_some_iff.mp h
  obtain ⟨default, hdefault, h⟩ := Option.bind_eq_some_iff.mp h
  obtain ⟨flags, hflags, h⟩ := Option.bind_eq_some_iff.mp h
  cases h
  have haccess' := @SchilyRecords.optional (ascii "acl.access") _ _ haccess
  have hdefault' := @SchilyRecords.optional (ascii "acl.default") _ _ hdefault
  have hflags' := @SchilyRecords.optional (ascii "fflags") _ _ hflags
  exact (((SchilyRecords.attributes hxattrs).append haccess').append hdefault').append hflags'

theorem parsePaxRecords_schily (h : SchilyRecords records)
    (hlength : records.length ≤ 2 ^ 32) (hread : parsePaxRecords false false target records = some pax) :
    OnlyMetadata target pax ∧
      ∀ more, parsePaxRecords false false target (records ++ more) = parsePaxRecords false false pax more := by
  induction h generalizing target with
  | nil =>
    cases hread
    exact ⟨rfl, fun more => rfl⟩
  | cons happend _ ih =>
    rw [length_append] at hlength
    obtain ⟨next, happly, hnext⟩ := parsePaxRecords_appended happend (by omega) hread
    rw [hnext] at hread
    obtain ⟨honly, hmore⟩ := ih (by omega) hread
    refine ⟨?_, ?_⟩
    · have hfirst := applyPaxRecord_schily happly
      unfold OnlyMetadata at hfirst honly ⊢
      rw [honly, hfirst]
    · intro more
      rw [append_assoc, hnext, hmore]

namespace SparseEntry

/-- What the code checks of an entry and its types promise. The records of the
metadata are some that the reader takes. -/
structure WellFormed (e : SparseEntry) (payload : Bytes) : Prop where
  path_text : 0 ∉ e.path
  path_length : e.path.length ≤ textMax
  uid : e.uid < idMax
  gid : e.gid < idMax
  nsec : e.mtime.nsec < 1000000000
  sec : -2 ^ 63 ≤ e.mtime.sec ∧ e.mtime.sec < 2 ^ 63
  extents : e.extents.length ≤ sparseExtentLimit
  extent : ∀ extent ∈ e.extents, extent.offset ≤ sizeMax ∧ extent.size ≤ sizeMax
  logicalSize : e.logicalSize ≤ sizeMax
  compactSize : e.compactSize = payload.length
  extentSizes : (e.extents.map (·.size)).sum = payload.length
  room : (paddedMap e.extents).length + payload.length ≤ sizeMax - (blockSize - 1)
  metadata : ∃ records pax, metadataWrite e.metadata = some records ∧ records.length ≤ 2 ^ 32 ∧
    parsePaxRecords false false {} records = some pax

variable {e : SparseEntry} {payload : Bytes}

theorem compactSum_eq {sum : Nat} (h : sum + (extents.map (·.size)).sum ≤ sizeMax) :
    compactSum sum extents = some (sum + (extents.map (·.size)).sum) := by
  induction extents generalizing sum with
  | nil => rfl
  | cons extent extents ih =>
    rw [map_cons, sum_cons] at h ⊢
    unfold compactSum
    rw [if_neg (by omega), ih (by omega)]
    congr 1
    omega

theorem length_paddedMap (extents : List SparseExtent) :
    (paddedMap extents).length = roundUp (mapText extents).length blockSize := length_padded (mapText extents)

theorem member_writeHeader (h : a.length = b.length) :
    (e.member a).writeHeader true = (e.member b).writeHeader true := by
  have hpayload : (e.member a).payload.length = (e.member b).payload.length := h
  have hsize : (e.member a).needSizePax = (e.member b).needSizePax := by
    unfold RawEntry.needSizePax
    rw [hpayload]
  have hdata : (e.member a).paxData = (e.member b).paxData := by
    unfold RawEntry.paxData
    rw [hpayload, hsize]
    rfl
  have hneed : (e.member a).needPax = (e.member b).needPax := by
    unfold RawEntry.needPax RawEntry.needNumericPax
    rw [hsize]
    rfl
  have hmember : (e.member a).paxMember = (e.member b).paxMember := by
    unfold RawEntry.paxMember
    rw [hdata, hneed]
  have hmain : (e.member a).mainHeader = (e.member b).mainHeader := by
    unfold RawEntry.mainHeader
    rw [hpayload, hsize]
    rfl
  have hvalid : (e.member a).validNumbers = (e.member b).validNumbers := by
    unfold RawEntry.validNumbers
    rw [hpayload]
    rfl
  unfold RawEntry.writeHeader
  rw [hvalid, hneed, hmember, hmain]
  rfl

def paxOver (e : SparseEntry) (pax : PaxInfo) : PaxInfo :=
  { pax with
    path := some e.path
    sparseMajor := 1
    sparseMinor := 0
    sparseRealsize := e.logicalSize
    sparseEnabled := true
    active := true }

theorem apply_sparse (hequals : 61 ∉ key) (hzero : 0 ∉ key)
    (hfield : PaxField.ofKey key = none) (htext : PaxText.ofKey key = none)
    (hmetadata : ((ascii "SCHILY.").isPrefixOf key || key == ascii "RHT.security.selinux") = false) :
    applyPaxRecord false false target (key ++ 61 :: value) = applyPaxSparse target key value := by
  unfold applyPaxRecord
  rw [splitPaxRecord_pair hequals hzero]
  dsimp only
  rw [hfield, htext]
  dsimp only
  rw [hmetadata]
  rfl

theorem read_short (h : key.length + value.length ≤ textMax + 16) :
    ∃ record, paxAppend key value = some record ∧ record.length ≤ textMax + 26 ∧
      ∀ {target next : PaxInfo} {more : Bytes},
        applyPaxRecord false false target (key ++ 61 :: value) = some next →
        parsePaxRecords false false target (record ++ more) = parsePaxRecords false false next more := by
  obtain ⟨total, happend, hlength, hle⟩ := paxAppend_short h
  refine ⟨_, happend, by rw [hlength]; exact hle, ?_⟩
  intro target next more happly
  rw [parsePaxRecords_record false false hlength (Nat.le_trans hle (by decide)), happly]
  rfl

section
variable (h : e.WellFormed payload)
include h

theorem paxData_read : ∃ data pax, e.paxData = some data ∧ data.length ≤ ustarSizeTimeMax ∧ OnlyMetadata {} pax ∧
      parsePaxRecords false false {} data = some (e.paxOver pax) := by
  obtain ⟨records, pax, hrecords, hlength, hread⟩ := h.metadata
  obtain ⟨honly, hmore⟩ := parsePaxRecords_schily (schilyRecords_metadataWrite hrecords) hlength hread
  have hpath_len := h.path_length
  have hdigits : (numeral 10 e.logicalSize).length ≤ 20 :=
    length_numeral_le (by decide) (lt_of_le_of_lt h.logicalSize (by decide))
  obtain ⟨path, hpath, hpath_len', hpath_read⟩ := @read_short (ascii "path") e.path (by simp only [ascii]; simp; omega)
  obtain ⟨major, hmajor, hmajor_len, hmajor_read⟩ := @read_short (ascii "GNU.sparse.major") (ascii "1") (by decide)
  obtain ⟨minor, hminor, hminor_len, hminor_read⟩ := @read_short (ascii "GNU.sparse.minor") (ascii "0") (by decide)
  obtain ⟨size, hsize, hsize_len, hsize_read⟩ :=
    @read_short (ascii "GNU.sparse.realsize") (numeral 10 e.logicalSize) (by simp only [ascii, textMax]; simp; omega)
  refine ⟨records ++ (path ++ (major ++ (minor ++ (size ++ [])))), pax, ?_, ?_, honly, ?_⟩
  · unfold paxData
    simp only [hrecords, hpath, hmajor, hminor, hsize, Option.bind_eq_bind, Option.bind_some]
    simp
  · simp only [length_append, length_nil, ustarSizeTimeMax]
    unfold textMax at *
    omega
  · have hnumber : cText (numeral 10 e.logicalSize) = numeral 10 e.logicalSize :=
      cText_of_zero_notMem (zero_notMem_numeral _)
    have hmajor_apply : ∀ target : PaxInfo,
        applyPaxRecord false false target (ascii "GNU.sparse.major" ++ 61 :: ascii "1") =
          some { target with sparseMajor := 1, sparseEnabled := true, active := true } := by
      intro target
      rw [apply_sparse (by decide) (by decide) (by decide) (by decide) (by decide)]
      rfl
    have hminor_apply : ∀ target : PaxInfo,
        applyPaxRecord false false target (ascii "GNU.sparse.minor" ++ 61 :: ascii "0") =
          some { target with sparseMinor := 0, sparseEnabled := true, active := true } := by
      intro target
      rw [apply_sparse (by decide) (by decide) (by decide) (by decide) (by decide)]
      rfl
    have hsize_apply : ∀ target : PaxInfo,
        applyPaxRecord false false target (ascii "GNU.sparse.realsize" ++ 61 :: numeral 10 e.logicalSize) =
          some { target with sparseRealsize := e.logicalSize, sparseEnabled := true, active := true } := by
      intro target
      rw [apply_sparse (by decide) (by decide) (by decide) (by decide) (by decide)]
      unfold applyPaxSparse
      rw [if_neg (by decide), if_neg (by decide), if_neg (by decide), if_pos rfl, hnumber,
        sizeParseUint_numeral h.logicalSize]
      rfl
    rw [hmore, hpath_read (apply_text h.path_text "path" (by decide) (by decide) rfl rfl h.path_length),
      hmajor_read (hmajor_apply _), hminor_read (hminor_apply _), hsize_read (hsize_apply _), parsePaxRecords_nil]
    rfl

theorem length_paddedMap_le : (paddedMap e.extents).length + payload.length ≤ sizeMax :=
  Nat.le_trans h.room (Nat.sub_le _ _)

end

/-! ## The member -/

def body (e : SparseEntry) (payload : Bytes) : Bytes := paddedMap e.extents ++ payload

def payloadName : UstarName := ⟨ascii "PaxPayload", []⟩

def mainHeader (e : SparseEntry) (payload : Bytes) : RawHeader := (e.member (e.body payload)).mainHeader payloadName

def bare (e : SparseEntry) (payload : Bytes) : RawEntry :=
  { e.member (e.body payload) with uname := none, gname := none, mode := 0 }

section
variable (h : e.WellFormed payload)
include h

theorem body_length_le : (e.body payload).length ≤ sizeMax - (blockSize - 1) := by
  unfold body
  rw [length_append]
  exact h.room

theorem bare_wellFormed : (e.bare payload).WellFormed where
  kind := ⟨nofun, nofun⟩
  path_ne := (by decide : ascii "PaxPayload" ≠ [])
  path_text := (by decide : 0 ∉ ascii "PaxPayload")
  path_length := (by decide : (ascii "PaxPayload").length ≤ textMax)
  dirname := nofun
  target := by
    intro hlink
    cases hlink with
    | inl hlink => cases hlink
    | inr hlink => cases hlink
  no_target := fun _ => rfl
  target_text := not_mem_nil
  target_length := Nat.zero_le _
  mode := Nat.zero_lt_succ _
  uid := h.uid
  gid := h.gid
  nsec := h.nsec
  sec := h.sec
  uname := ⟨not_mem_nil, Nat.zero_le _⟩
  gname := ⟨not_mem_nil, Nat.zero_le _⟩
  payload := body_length_le h
  metadata := rfl

theorem member_paxData (target : PaxInfo) :
    ∃ data, (e.member (e.body payload)).paxData = some data ∧ data.length ≤ ustarSizeTimeMax ∧
      parsePaxRecords false false target data = some ((e.member (e.body payload)).paxOnto target) :=
  paxData_onto (bare_wellFormed h) target

theorem member_parts : ∃ second, (e.member (e.body payload)).paxMember = some second ∧
      (e.member (e.body payload)).writeHeader true = some (second ++ (e.mainHeader payload).block) := by
  obtain ⟨second, hsecond⟩ : ∃ second, (e.member (e.body payload)).paxMember = some second := by
    unfold RawEntry.paxMember
    by_cases hneed : (e.member (e.body payload)).needPax = true
    · obtain ⟨data, hdata, _⟩ := member_paxData h {}
      obtain ⟨name, hname⟩ : ∃ name, splitUstarName (ascii "./PaxHeaders/bx") false = some name := ⟨_, rfl⟩
      rw [if_pos hneed, hdata, hname]
      exact ⟨_, rfl⟩
    · rw [if_neg hneed]
      exact ⟨_, rfl⟩
  obtain ⟨hnumbers, hdevice⟩ := valid_written (bare_wellFormed h)
  have hvalid : (e.member (e.body payload)).validNumbers = true := hnumbers
  have hvalid' : (e.member (e.body payload)).validDevice = true := hdevice
  have hname : splitUstarName (e.member (e.body payload)).path (e.member (e.body payload)).isDir = some payloadName :=
    rfl
  refine ⟨second, hsecond, ?_⟩
  unfold RawEntry.writeHeader
  rw [hvalid, hvalid', hsecond, hname]
  simp [mainHeader]

theorem started : ∃ records second, e.paxMember = some records ∧ (e.member (e.body payload)).paxMember = some second ∧
      e.startV1Entry = some
        { written := records ++ (second ++ (e.mainHeader payload).block) ++ paddedMap e.extents
          dataRemaining := payload.length
          paddingRemaining := roundUp (e.body payload).length blockSize - (e.body payload).length
          active := true } := by
  obtain ⟨data, pax, hdata, _⟩ := paxData_read h
  obtain ⟨second, hsecond, hheader⟩ := member_parts h
  obtain ⟨records, hrecords⟩ : ∃ records, e.paxMember = some records := by
    unfold paxMember
    obtain ⟨name, hname⟩ : ∃ name, splitUstarName (ascii "./PaxHeaders/bx") false = some name := ⟨_, rfl⟩
    rw [hdata, hname]
    exact ⟨_, rfl⟩
  refine ⟨records, second, hrecords, hsecond, ?_⟩
  have hroom := length_paddedMap_le h
  have hmap := length_paddedMap e.extents
  have hgrow := le_roundUp (mapText e.extents).length blockSize
  have hsum : compactSum 0 e.extents = some payload.length := by
    rw [compactSum_eq (by rw [h.extentSizes]; omega), h.extentSizes, zero_add]
  have hcompact := h.compactSize
  have hmod : roundUp (mapText e.extents).length blockSize % 2 ^ 64 = (paddedMap e.extents).length := by
    rw [hmap]
    unfold sizeMax at hroom
    omega
  have hwhole : (replicate ((paddedMap e.extents).length + payload.length) (0 : UInt8)).length =
      (e.body payload).length := by
    simp [body]
  let live : LiveEntry :=
    { written := records ++ (second ++ (e.mainHeader payload).block)
      dataRemaining := (e.body payload).length
      paddingRemaining := roundUp (e.body payload).length blockSize - (e.body payload).length
      active := true }
  have hstart : startRawEntry records
      (e.member (replicate ((paddedMap e.extents).length + payload.length) 0)) true = some live := by
    have hpayload : (e.member (replicate ((paddedMap e.extents).length + payload.length) 0)).payload.length =
        (e.body payload).length := hwhole
    unfold startRawEntry
    rw [member_writeHeader hwhole, hheader, hpayload]
    rfl
  have hremaining : live.dataRemaining = (paddedMap e.extents).length + payload.length := length_append
  have htext : (mapText e.extents).length = (numberLine e.extents.length).length + (extentLines e.extents).length :=
    length_append
  have hcount : writeSparseNumberLine live e.extents.length = some (live.after (numberLine e.extents.length)) :=
    writeSparseNumberLine_eq rfl (by omega)
  have hextents : e.extents.foldlM writeSparseExtent (live.after (numberLine e.extents.length)) =
      some (live.after (mapText e.extents)) := by
    rw [@writeSparseExtents_eq _ (live.after _) rfl (by unfold LiveEntry.after; dsimp only; omega),
      LiveEntry.after_after]
    rfl
  have hzeros : writeRawEntryChunks (live.after (mapText e.extents))
      (zeroChunks ((paddedMap e.extents).length - (mapText e.extents).length)) =
      some (live.after (paddedMap e.extents)) := by
    have hflat := zeroChunks_flatten ((paddedMap e.extents).length - (mapText e.extents).length)
    rw [@writeRawEntryChunks_eq _ (live.after _) rfl
      (by rw [hflat, length_replicate]; unfold LiveEntry.after; dsimp only; omega), hflat, LiveEntry.after_after,
      hmap]
    rfl
  have hend : (live.after (paddedMap e.extents)).dataRemaining = payload.length := by
    unfold LiveEntry.after
    dsimp only
    omega
  unfold startV1Entry
  rw [hsum, Option.bind_eq_bind, Option.bind_some, if_neg (not_not_intro hcompact.symm), hrecords,
    sparseMapSize_eq (by omega)]
  simp only [Option.bind_eq_bind, Option.bind_some]
  rw [hmod, if_neg (by omega), hcompact, hstart]
  simp only [Option.bind_some]
  rw [hcount, Option.bind_some, hextents, Option.bind_some, hzeros, ← hend]
  rfl

theorem write_eq {chunks : List Bytes} (hchunks : chunks.flatten = payload) :
    ∃ records second, e.paxMember = some records ∧ (e.member (e.body payload)).paxMember = some second ∧
      e.write chunks = some (records ++ (second ++ ((e.mainHeader payload).block ++
        (e.body payload ++ zeroPadding (e.body payload).length)))) := by
  obtain ⟨records, second, hrecords, hsecond, hstarted⟩ := started h
  refine ⟨records, second, hrecords, hsecond, ?_⟩
  unfold write
  rw [hstarted, Option.bind_eq_bind, Option.bind_some, writeRawEntryChunks_eq rfl (by rw [hchunks]),
    Option.bind_some, hchunks]
  unfold finishRawEntry LiveEntry.after
  simp [zeroChunks_flatten, body, zeroPadding]

end

end SparseEntry

end Bx.Tar
