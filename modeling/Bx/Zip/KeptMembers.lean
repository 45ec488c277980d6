import Bx.Zip.ModifyRun
import Bx.Zip.DirectoryRoundTrip

/-!
# Kept members

A member that is kept is copied as far as its header and its sizes say, and gets a new record.
-/

namespace Bx.Zip
open Kit List

/-! ## Timestamps in the extra field -/

structure ExtraFields where
  mtime : Option UInt32
  atime : Option UInt32
  ctime : Option UInt32
  uid : Option UInt32
  gid : Option UInt32

def noExtraFields : ExtraFields := ⟨none, none, none, none, none⟩

def takeWord (present : Bool) (current : Option UInt32) (data : Bytes) : Option UInt32 × Bytes :=
  if present then
    match readU32 data with
    | some (t, data) => (some t, data)
    | none => (current, data)
  else (current, data)

/-- `UT`: flags, then the times that they announce -/
def parseTimes (data : Bytes) (out : ExtraFields) : ExtraFields :=
  match data with
  | [] => out
  | flags :: data =>
    let mtime := takeWord (flags &&& 1 != 0) out.mtime data
    let atime := takeWord (flags &&& 2 != 0) out.atime mtime.2
    let ctime := takeWord (flags &&& 4 != 0) out.ctime atime.2
    { out with mtime := mtime.1, atime := atime.1, ctime := ctime.1 }

/-- `ux`: a version, then an identity and its size, twice -/
def parseOwner (data : Bytes) (out : ExtraFields) : ExtraFields :=
  match data with
  | 1 :: uidSize :: data =>
    let uid := takeWord (uidSize == 4) out.uid data
    let data := if uidSize == 4 && decide (4 ≤ data.length) then uid.2 else data.drop uidSize.toNat
    match data with
    | [] => { out with uid := uid.1 }
    | gidSize :: data => { out with uid := uid.1, gid := (takeWord (gidSize == 4) out.gid data).1 }
  | _ => out

def parseBlock (tag : UInt16) (data : Bytes) (out : ExtraFields) : ExtraFields :=
  if tag = 0x5455 then parseTimes data out
  else if tag = 0x7875 then parseOwner data out
  else out

def parseBlocks : Nat → Bytes → ExtraFields → ExtraFields
  | 0, _, out => out
  | fuel + 1, extra, out =>
    match readU16 extra with
    | none => out
    | some (tag, rest) =>
      match readU16 rest with
      | none => out
      | some (sz, rest) =>
        if rest.length < sz.toNat then out
        else parseBlocks fuel (rest.drop sz.toNat) (parseBlock tag (rest.take sz.toNat) out)

def parseExtraFields (extra : Bytes) : ExtraFields := parseBlocks extra.length extra noExtraFields

theorem parseBlocks_block {data : Bytes} {sz : UInt16} (h : data.length = sz.toNat) (tag : UInt16) (more : Bytes)
    (fuel : Nat) (out : ExtraFields) :
    parseBlocks (fuel + 1) (pack [.u16 tag, .u16 sz] ++ data ++ more) out = parseBlocks fuel more (parseBlock tag data out) := by
  rw [parseBlocks]
  simp only [pack_cons, pack_nil, append_assoc, nil_append, readU16_bytes]
  rw [if_neg (by rw [length_append]; omega), take_left' h, drop_left' h]

theorem parseTimes_central (t : UInt32) (out : ExtraFields) :
    parseTimes (pack [.u8 1, .u32 t]) out = { out with mtime := some t } := by
  have hhead : pack [.u8 1, .u32 t] = 1 :: (Word.u32 t).bytes := by
    simp [Word.bytes, leBytes]
  have hread : readU32 (Word.u32 t).bytes = some (t, []) := by
    have h := readU32_bytes t []
    rwa [append_nil] at h
  have hatime : (1 : UInt8) &&& 2 = 0 := rfl
  have hctime : (1 : UInt8) &&& 4 = 0 := rfl
  rw [hhead]
  simp [parseTimes, takeWord, hread, hatime, hctime]

theorem parseBlocks_times (t : UInt32) (fuel : Nat) (out : ExtraFields) :
    parseBlocks (fuel + 1) (pack [.u16 0x5455, .u16 5, .u8 1, .u32 t]) out = { out with mtime := some t } := by
  have hsplit : pack [.u16 0x5455, .u16 5, .u8 1, .u32 t]
      = pack [.u16 0x5455, .u16 5] ++ pack [.u8 1, .u32 t] ++ [] := by
    rw [append_nil, ← pack_append]
    rfl
  have hlen : (pack [.u8 1, .u32 t]).length = (5 : UInt16).toNat := by
    simp [Word.size]
  rw [hsplit, parseBlocks_block hlen]
  have hnil : ∀ fuel out, parseBlocks fuel [] out = out := by
    intro fuel out
    cases fuel with
    | zero => rfl
    | succ fuel => simp [parseBlocks, readU16, readLe]
  rw [hnil, parseBlock, if_pos rfl]
  exact parseTimes_central t out

theorem times_written (e : WriterEntry) (uncomp comp : UInt64) :
    parseExtraFields (writeExtraFields false (needZip64Extra e) uncomp comp false e)
      = { noExtraFields with mtime := some (time32 e.mtime) } := by
  unfold parseExtraFields
  cases hneed : needZip64Extra e with
  | false =>
    have hfuel : (writeExtraFields false false uncomp comp false e).length = 8 + 1 := by
      simp [writeExtraFields, writeAttrExtra, Word.size]
    rw [hfuel]
    exact parseBlocks_times _ 8 _
  | true =>
    have hle := length_zip64Vals_le e
    have hsz : (pack (zip64Vals e)).length = (UInt16.ofNat ((zip64Vals e).length * 8)).toNat := by
      rw [length_pack_zip64Vals, UInt16.toNat_ofNat']
      omega
    have hbytes : writeExtraFields false true uncomp comp false e
        = pack [.u16 extraZip64, .u16 (UInt16.ofNat ((zip64Vals e).length * 8))] ++ pack (zip64Vals e)
          ++ pack [.u16 0x5455, .u16 5, .u8 1, .u32 (time32 e.mtime)] := by
      simp only [writeExtraFields, writeZip64Extra, writeAttrExtra, if_true, if_false, Bool.false_eq_true,
        if_pos (zip64Vals_pos e hneed), pack_append]
    obtain ⟨fuel, hfuel⟩ : ∃ n, (writeExtraFields false true uncomp comp false e).length = n + 1 + 1 := by
      refine ⟨(writeExtraFields false true uncomp comp false e).length - 2, ?_⟩
      have hlong : 9 ≤ (writeExtraFields false true uncomp comp false e).length := by
        rw [hbytes, length_append]
        simp [Word.size]
      omega
    rw [hfuel, hbytes, parseBlocks_block hsz]
    exact parseBlocks_times _ fuel _

/-! ## Members of the old archive -/

/-- Where the local record of a member stands in the old archive: header, name and extra field, data, and a descriptor
when flag bit 3 is set. A descriptor has four bytes at least and does not start like another record. -/
structure Recorded (f : File) (e : CentralEntry) (lho : LocalHeader) (nameExtra data descriptor : Bytes) : Prop where
  place : ∃ before after, f.bytes = before ++ (lho.bytes ++ nameExtra ++ data ++ descriptor) ++ after
    ∧ before.length = e.lhoOffset.toNat
  signature : lho.signature = sigLocal
  nameExtra_length : nameExtra.length = lho.nameLen.toNat + lho.extraLen.toNat
  data_length : data.length = e.compSize.toNat
  noDescriptor : lho.flags &&& 8 = 0 → descriptor = []
  descriptor : lho.flags &&& 8 ≠ 0 → 4 ≤ descriptor.length ∧ descriptor.take 4 ≠ (Word.u32 sigLocal).bytes
    ∧ descriptor.take 4 ≠ (Word.u32 sigCentral).bytes

structure SameCentral (e c : CentralEntry) : Prop where
  name : c.name = e.name
  crc32 : c.hdr.crc32 = e.hdr.crc32
  compSize : c.compSize = e.compSize
  uncompSize : c.uncompSize = e.uncompSize
  method : c.hdr.method = e.hdr.method
  flags : c.hdr.flags = e.hdr.flags
  modTime : c.hdr.modTime = e.hdr.modTime
  modDate : c.hdr.modDate = e.hdr.modDate
  extra : parseExtraFields c.extra = parseExtraFields e.extra
  extAttr : c.hdr.extAttr = e.hdr.extAttr
  intAttr : c.hdr.intAttr = e.hdr.intAttr
  versionMade : c.hdr.versionMade = e.hdr.versionMade
  comment : c.comment = e.comment

/-- The new archive shows the member as the old one did: the same local record at the new offset, the same values in the
directory. -/
structure SameMember (archive : Bytes) (e : CentralEntry) (record : Bytes) (w : WriterEntry) : Prop where
  localRecord : (archive.drop w.lhoOffset.toNat).take record.length = record
  central : ∀ rest, ∃ c, readCentralEntry (centralRecord false w ++ rest) = .ok (c, rest) ∧ SameCentral e c

section
variable {f : File} {e : CentralEntry} {lho : LocalHeader} {nameExtra data descriptor : Bytes}

theorem copyExistingEntry_recorded (h : Recorded f e lho nameExtra data descriptor) :
    copyExistingEntry false f e = .ok (lho.bytes ++ nameExtra ++ data) := by
  obtain ⟨before, after, hbytes, hbefore⟩ := h.place
  have hlt := f.length_lt
  rw [hbytes] at hlt
  simp only [length_append, LocalHeader.length_bytes, h.nameExtra_length, h.data_length, hbefore] at hlt
  have hdrop : f.bytes.drop e.lhoOffset.toNat = lho.bytes ++ (nameExtra ++ (data ++ (descriptor ++ after))) := by
    rw [hbytes, ← hbefore, append_assoc, drop_left]
    simp only [append_assoc]
  have htotal : (30 + lho.nameLen.toUInt64 + lho.extraLen.toUInt64 + e.compSize).toNat
      = (lho.bytes ++ nameExtra ++ data).length := by
    rw [length_append, length_append, LocalHeader.length_bytes, h.nameExtra_length, h.data_length]
    simp only [UInt64.toNat_add, UInt16.toNat_toUInt64, UInt64.reduceToNat]
    omega
  simp only [copyExistingEntry]
  rw [if_neg (by omega), hdrop, LocalHeader.read_bytes]
  dsimp only
  rw [if_neg (fun hne => hne h.signature), if_pos Bool.not_false, htotal]
  have hassoc : lho.bytes ++ (nameExtra ++ (data ++ (descriptor ++ after)))
      = lho.bytes ++ nameExtra ++ data ++ (descriptor ++ after) := by
    simp only [append_assoc]
  rw [hassoc, if_neg (by rw [length_append]; omega), take_left]

theorem recorded_begins (h : Recorded f e lho nameExtra data descriptor) :
    ∃ rest, lho.bytes ++ nameExtra ++ data = (Word.u32 sigLocal).bytes ++ rest := by
  refine ⟨pack (lho.words.drop 1) ++ nameExtra ++ data, ?_⟩
  have hhead : lho.bytes = (Word.u32 sigLocal).bytes ++ pack (lho.words.drop 1) := by
    rw [← h.signature]
    rfl
  rw [hhead]
  simp only [append_assoc]

end

/-! ## The new record -/

section
variable {opts : Options} {env : Env} {s : RunState} {e : CentralEntry}

theorem keptComment_getD (e : CentralEntry) : (keptComment e).getD [] = e.comment := by
  unfold keptComment
  by_cases hnil : e.comment = []
  · rw [if_pos hnil, hnil]
    rfl
  · rw [if_neg hnil]
    rfl

theorem length_comment (e : CentralEntry) : e.comment.length = (keptCommentLen e).toNat := by
  unfold keptCommentLen
  by_cases hnil : e.comment = []
  · rw [if_pos hnil, hnil]
    rfl
  · rw [if_neg hnil]
    exact e.comment_length

theorem keptEntry_commentPresent : CommentPresent (keptEntry opts env s e) := by
  have htext : commentText (keptEntry opts env s e) = e.comment := keptComment_getD e
  have hlen : (keptEntry opts env s e).commentLen = keptCommentLen e := rfl
  unfold CommentPresent
  rw [htext, hlen]
  exact length_comment e

theorem keptEntry_central (hx : opts.excludeExtraAttrs = false) :
    (∀ rest, ∃ c, readCentralEntry (centralRecord false (keptEntry opts env s e) ++ rest) = .ok (c, rest)
      ∧ SameCentral e c)
    ↔ parseExtraFields e.extra = { noExtraFields with mtime := some (time32 (env.leftover s.entries.length)) } := by
  have hname : (keptEntry opts env s e).name.val.length < 65536 :=
    lt_of_le_of_lt e.name_length e.hdr.nameLen.toNat_lt
  have htimes := times_written (keptEntry opts env s e) (keptEntry opts env s e).uncompSize
    (keptEntry opts env s e).compSize
  have htime : (keptEntry opts env s e).mtime = env.leftover s.entries.length := rfl
  rw [htime] at htimes
  refine ⟨?_, ?_⟩
  · intro h
    obtain ⟨c, hread, hsame⟩ := h []
    obtain ⟨c', hread', _, _, hextra⟩ := readCentralEntry_record false _ hname keptEntry_commentPresent []
    rw [hread] at hread'
    have heq : c = c' := congrArg Prod.fst (Except.ok.inj hread')
    rw [← hsame.extra, heq, hextra, htimes]
  · intro h rest
    obtain ⟨c, hread, hmatches, hhdr, hextra⟩ :=
      readCentralEntry_record false _ hname (@keptEntry_commentPresent opts env s e) rest
    refine ⟨c, hread, hmatches.name, hmatches.crc32, hmatches.compSize, hmatches.uncompSize, hmatches.method,
      hmatches.flags, ?_, ?_, ?_, ?_, ?_, ?_, hmatches.comment.trans (keptComment_getD e)⟩
    · rw [hhdr]
      rfl
    · rw [hhdr]
      rfl
    · rw [hextra, htimes, h]
    · rw [hhdr]
      simp [centralHeader, keptEntry, hx]
    · rw [hhdr]
      rfl
    · rw [hhdr]
      simp [centralHeader, keptEntry, hx]

end

theorem centralHeader_begins (h : CentralHeader) :
    h.bytes = (Word.u32 h.signature).bytes ++ pack (h.words.drop 1) := rfl

theorem directory_begins {entries : List WriterEntry} (hsome : entries ≠ []) :
    ∃ rest, directory false entries = (Word.u32 sigCentral).bytes ++ rest := by
  cases entries with
  | nil => exact absurd rfl hsome
  | cons first others =>
    have hrecord : ∃ rest, centralRecord false first = (Word.u32 sigCentral).bytes ++ rest := by
      rw [centralRecord, centralHeader_begins]
      simp only [append_assoc]
      exact ⟨_, rfl⟩
    obtain ⟨rest, hrest⟩ := hrecord
    refine ⟨rest ++ directory false others, ?_⟩
    rw [← append_assoc, ← hrest]
    rfl

theorem take_follow_ne {follow rest descriptor : Bytes} {signature : UInt32}
    (hfollow : follow = (Word.u32 signature).bytes ++ rest) (hlong : 4 ≤ descriptor.length)
    (hne : descriptor.take 4 ≠ (Word.u32 signature).bytes) : follow.take descriptor.length ≠ descriptor := by
  intro heq
  have htake := congrArg (List.take 4) heq
  rw [take_take, min_eq_left hlong, hfollow] at htake
  have hhead : ((Word.u32 signature).bytes ++ rest).take 4 = (Word.u32 signature).bytes :=
    take_left' (Word.length_bytes _)
  rw [hhead] at htake
  exact hne htake.symm

section
variable {opts : Options} {env : Env} {inputs : List CText} {f : File} {existing : List ExistingEntry}
variable (hok : (modifyArchive opts env inputs (some (f, existing))).status = none)
variable (hdry : opts.dryRun = false) (hx : opts.excludeExtraAttrs = false)
include hok hdry hx

theorem modifyArchive_kept : ∃ s tail, (modifyArchive opts env inputs (some (f, existing))).archive
        = s.out ++ (directory false s.entries ++ tail)
      ∧ (modifyArchive opts env inputs (some (f, existing))).entries = s.entries
      ∧ ∃ added copied, s.entries = added ++ copied
        ∧ List.Forall₂ (KeptBefore opts env f
            (keptEntries (modifyArchive opts env inputs (some (f, existing))).existing) s)
          (keptEntries (modifyArchive opts env inputs (some (f, existing))).existing) copied := by
  obtain ⟨s₀, s₁, s₂, tail, _, _, hcopy, htail, hrun⟩ := modifyArchive_completed hok hdry
  obtain ⟨_, hentries, hexisting, harchive⟩ := @finishRun_fields opts env (s₂.out ++ tail) s₂
  have hcopied := copyEntries_spec hcopy
  obtain ⟨copied, hcop, hall⟩ := hcopied.entries
  rw [hx] at htail
  obtain ⟨_, _, hbytes⟩ := writeEnd_spec htail
  rw [append_assoc] at hbytes
  rw [hrun, hentries, hexisting, harchive, hcopied.existing]
  exact ⟨s₂, _, by rw [hbytes], rfl, s₁.entries, copied, hcop, hall⟩

variable (published : File) (hpublished : (modifyArchive opts env inputs (some (f, existing))).archive = published.bytes)
variable (hrecorded : ∀ e ∈ keptEntries (modifyArchive opts env inputs (some (f, existing))).existing,
  ∃ lho nameExtra data descriptor, Recorded f e lho nameExtra data descriptor)
include hpublished hrecorded

end

/-! ## A streamed member -/

variable (flags : UInt16)

def streamedHeader : LocalHeader := ⟨sigLocal, 20, flags, 0, 0, 0x21, 0, 1, 1, 1, 0⟩

def memberDescriptor : DataDescriptor := ⟨sigDescriptor, 0, 1, 1⟩

def streamedEntry : CentralEntry where
  hdr := ⟨sigCentral, 20, 20, flags, 0, 0, 0x21, 0, 1, 1, 1, 9, 0, 0, 0, 0, 0⟩
  name := ⟨ascii "s", by decide⟩
  name_length := Nat.le_refl 1
  extra := pack [.u16 0x5455, .u16 5, .u8 1, .u32 0]
  comment := []
  comment_length := rfl
  compSize := 1
  uncompSize := 1
  lhoOffset := 0

def streamedArchive (descriptor : Bytes) (h : descriptor.length ≤ 16) : File where
  bytes := [] ++ ((streamedHeader flags).bytes ++ ascii "s" ++ ascii "d" ++ descriptor) ++ ascii "PK"
  length_lt := by
    simp only [length_append, LocalHeader.length_bytes, ascii, length_map]
    simp
    omega

def newComment : Options := { junkPaths with zipCommentSpecified := true }

def storedRun : Result := modifyArchive newComment plainEnv [] (some (streamedArchive 0 [] (by decide),
  [⟨streamedEntry 0, false, false⟩]))

def streamedRun : Result := modifyArchive newComment plainEnv []
  (some (streamedArchive 8 memberDescriptor.bytes (by decide), [⟨streamedEntry 8, false, false⟩]))

theorem streamed_recorded : Recorded (streamedArchive 8 memberDescriptor.bytes (by decide)) (streamedEntry 8)
    (streamedHeader 8) (ascii "s") (ascii "d") memberDescriptor.bytes where
  place := ⟨[], ascii "PK", rfl, rfl⟩
  signature := rfl
  nameExtra_length := rfl
  data_length := rfl
  noDescriptor := by decide
  descriptor := fun _ => by decide

theorem stored_recorded : Recorded (streamedArchive 0 [] (by decide)) (streamedEntry 0) (streamedHeader 0) (ascii "s")
    (ascii "d") [] where
  place := ⟨[], ascii "PK", rfl, rfl⟩
  signature := rfl
  nameExtra_length := rfl
  data_length := rfl
  noDescriptor := fun _ => rfl
  descriptor := by decide

theorem storedRun_existing : keptEntries storedRun.existing = [streamedEntry 0] := by decide

set_option maxRecDepth 4000 in
theorem storedRun_length : storedRun.archive.length < 2 ^ 63 := by decide

theorem streamedRun_existing : keptEntries streamedRun.existing = [streamedEntry 8] := by decide

set_option maxRecDepth 4000 in
theorem streamedRun_length : streamedRun.archive.length < 2 ^ 63 := by decide

end Bx.Zip
