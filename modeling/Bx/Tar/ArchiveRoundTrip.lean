import Bx.Tar.StreamPayload
import Bx.Tar.EntryRecords

/-!
# An entry written and read back

An archive of one entry is an extended header where one is needed, the entry's own header, its padded payload and zero
blocks. The stream reader shows every field as it was written, except that the path of a slash and a hundred other bytes
comes back without its slash.
-/

namespace Bx.Tar
open Kit List

/-! ## What a visitor is shown -/

inductive VisitEvent
  | beginEntry (entry : Entry)
  | payload (data : Bytes)
  | endEntry (entry : Entry)
  | finishArchive (blockIndex : Nat) (stop : StreamEnd) (totalBytesRead : Nat)

def logOps : VisitorOps (List VisitEvent) where
  beginEntry log entry := some (log ++ [.beginEntry entry])
  visitPayload := some fun log _ data => some (log ++ [.payload data])
  endEntry := some fun log entry => some (log ++ [.endEntry entry])
  finishArchive := some fun log blockIndex stop total => some (log ++ [.finishArchive blockIndex stop total])

def ShowsOne (log : List VisitEvent) (entry : Entry) (payload : Bytes) : Prop :=
  ∃ (chunks : List Bytes) (blockIndex : Nat) (stop : StreamEnd) (total : Nat),
    log = [.beginEntry entry] ++ chunks.map .payload ++ [.endEntry entry, .finishArchive blockIndex stop total] ∧
      chunks.flatten = payload

/-- What is written of an entry, read back under `name`; an absent owner name and an empty one are the same. -/
structure SameEntry (e : RawEntry) (name : Bytes) (entry : Entry) : Prop where
  name : entry.name = name
  linkname : entry.linkname = e.linkname
  kind : entry.kind = e.kind
  mode : entry.mode = e.mode
  uid : entry.uid = e.uid
  gid : entry.gid = e.gid
  size : entry.size = e.payload.length
  mtime : entry.mtime = e.mtime
  uname : entry.uname.getD [] = e.uname.getD []
  gname : entry.gname.getD [] = e.gname.getD []
  omits : entry.omitUid = false ∧ entry.omitGid = false ∧ entry.omitMtime = false

/-- Writing with pax allowed, the trailer, and reading back through the codec layer -/
def RoundTrips (decode : Codec → Bytes → Option Bytes) (detectAll : Bool) (e : RawEntry) : Prop :=
  ∃ written log entry, e.writeRawEntry true = some written ∧
    visitArchiveInput decode detectAll logOps {} (written ++ writeTrailer written.length) [] = some log ∧
    ShowsOne log entry e.payload ∧ SameEntry e e.path entry

/-! ## The prepared entry -/

section
variable {e : RawEntry} (h : e.WellFormed) {name : UstarName}

theorem effective_writtenPax (e : RawEntry) : paxEffectiveInfo {} e.writtenPax = e.writtenPax := by
  unfold RawEntry.writtenPax
  cases e.needPathPax <;> cases e.needLinkPax <;> cases e.needUidPax <;> cases e.needGidPax <;>
    cases e.needSizePax <;> cases e.needMtimePax <;> rfl

theorem entryType_not_extended (kind : Kind) : isExtendedType (entryType kind) = false := by
  cases kind <;> rfl

theorem isLinkType_entryType (kind : Kind) :
    isLinkType (entryType kind) = true ↔ kind = .symlink ∨ kind = .hardlink := by
  cases kind <;> decide

theorem mainHeader_size (hpayload : e.payload.length ≤ sizeMax - (blockSize - 1)) (name : UstarName) :
    headerPayloadSize (e.mainHeader name).block e.writtenPax.numbers = some e.payload.length := by
  have hextended : isExtendedType (typeflag (e.mainHeader name).block) = false := by
    rw [RawHeader.block_typeflag]
    exact entryType_not_extended e.kind
  have hroom := Nat.not_lt_of_le hpayload
  simp only [headerPayloadSize, hextended]
  by_cases hneed : e.needSizePax = true
  · simp [RawEntry.writtenPax, hneed, PaxNumber.known, PaxNumber.deleted, hroom]
  · have hfits : e.payload.length ≤ ustarSizeTimeMax := by
      unfold RawEntry.needSizePax at hneed
      simpa using hneed
    have hsize : (e.mainHeader name).size = e.payload.length := by
      simp [RawEntry.mainHeader, hneed]
    have hread := (e.mainHeader name).block_size (by rw [hsize]; exact hfits)
    rw [hsize] at hread
    simp [RawEntry.writtenPax, hneed, PaxNumber.deleted, hread, hroom]

theorem headerNumber_written {α : Type} {need : Bool} {value default : α} {stored : Nat} {octal : Bytes} {f : Nat → α}
    (hread : need = false → parseOctalField octal = some stored) (hstored : need = false → f stored = value) :
    headerNumber (if need then PaxNumber.known value else { value := default }) f octal = value := by
  cases need with
  | true => rfl
  | false => simp [headerNumber, PaxNumber.deleted, hread rfl, hstored rfl]

theorem rdropWhile_slash {path : Bytes} (h : path.getLast? ≠ some 47) : path.rdropWhile (· == 47) = path := by
  apply rdropWhile_eq_self_iff.mpr
  intro hne hlast
  apply h
  rw [getLast?_eq_some_getLast hne]
  exact congrArg some (by simpa using hlast)

theorem entryName_written (h : e.WellFormed)
    (hname : e.needPathPax = false → splitUstarName e.path e.isDir = some name) :
    entryName (e.mainHeader name).block (entryType e.kind) e.writtenPax.path none =
      if e.isDir = false ∧ LosesSlash e.path then e.path.tail else e.path := by
  have htype : entryType e.kind = 53 ∨ entryType e.kind = 68 ↔ e.isDir = true := by
    unfold RawEntry.isDir
    cases e.kind <;> decide
  have hread : e.needPathPax = false → headerName (e.mainHeader name).block = joinedName name := by
    intro hneed
    have hsplit := hname hneed
    obtain ⟨hlen, hlen'⟩ := splitUstarName_lengths hsplit
    obtain ⟨hbytes, hbytes'⟩ := splitUstarName_bytes hsplit h.path_text
    exact (e.mainHeader name).block_name hbytes hbytes' hlen hlen'
  unfold entryName
  by_cases hdir : e.isDir = true
  · -- the slash of a directory is taken off again
    have hlast := h.dirname (by simpa [RawEntry.isDir] using hdir)
    rw [if_pos (htype.mpr hdir), if_neg (by simp [hdir])]
    by_cases hneed : e.needPathPax = true
    · simp only [RawEntry.writtenPax, hneed, if_true, Option.orElse_eq_orElse, Option.orElse_some, Option.getD_some]
      exact rdropWhile_slash hlast
    · have hneed' : e.needPathPax = false := by simpa using hneed
      have hsplit := hname hneed'
      rw [hdir] at hsplit
      have hjoined : (e.writtenPax.path <|> none).getD (headerName (e.mainHeader name).block) = e.path ++ [47] := by
        simp [RawEntry.writtenPax, hneed', hread hneed', joinedName_dir hsplit]
      have hslash : (e.path ++ [47]).rdropWhile (· == 47) = e.path.rdropWhile (· == 47) :=
        rdropWhile_concat_pos _ _ _ (by decide)
      simp only [hjoined, hslash]
      exact rdropWhile_slash hlast
  · have hfile : e.isDir = false := by simpa using hdir
    rw [if_neg (fun hslash => hdir (htype.mp hslash))]
    by_cases hneed : e.needPathPax = true
    · have hkeeps : ¬LosesSlash e.path := by
        intro hloses
        unfold RawEntry.needPathPax at hneed
        simp [hfile, splitUstarName_loses hloses] at hneed
      rw [if_neg (fun hboth => hkeeps hboth.2)]
      simp [RawEntry.writtenPax, hneed]
    · have hneed' : e.needPathPax = false := by simpa using hneed
      have hsplit := hname hneed'
      rw [hfile] at hsplit
      simp [RawEntry.writtenPax, hneed', hread hneed', joinedName_file hsplit, hfile]

theorem entryKind_written (h : e.WellFormed) (header : Bytes) (size : Nat) :
    entryKind header size (entryType e.kind) = some (e.kind, (0, 0)) := by
  have hkind := h.kind
  cases hcase : e.kind with
  | char => exact absurd hcase hkind.1
  | block => exact absurd hcase hkind.2
  | reg => rfl
  | dir => rfl
  | symlink => rfl
  | hardlink => rfl
  | fifo => rfl

theorem entryLinkname_written (h : e.WellFormed) (name : UstarName) :
    entryLinkname (e.mainHeader name).block (entryType e.kind) e.writtenPax.linkpath none = e.linkname := by
  by_cases hlink : e.kind = .symlink ∨ e.kind = .hardlink
  · obtain ⟨target, htarget, _⟩ := h.target hlink
    have htext := h.target_text
    rw [htarget] at htext
    unfold entryLinkname
    by_cases hneed : e.needLinkPax = true
    · simp [RawEntry.writtenPax, hneed, htarget]
    · have hfits : target.length ≤ 100 := by
        unfold RawEntry.needLinkPax at hneed
        rw [htarget] at hneed
        simpa using hneed
      have hlinkname : (e.mainHeader name).linkname = some target := by simp [RawEntry.mainHeader, hneed, htarget]
      have hfield := (e.mainHeader name).block_linkname
      rw [hlinkname] at hfield
      simp only [RawEntry.writtenPax, hneed, (isLinkType_entryType e.kind).mpr hlink, hfield, htarget]
      exact congrArg some (cText_textField htext hfits)
  · have hnone := h.no_target hlink
    have hneed : e.needLinkPax = false := by
      unfold RawEntry.needLinkPax
      rw [hnone]
      rfl
    have hplain : isLinkType (entryType e.kind) = false := by
      rw [← Bool.not_eq_true, isLinkType_entryType]
      exact hlink
    simp [entryLinkname, RawEntry.writtenPax, hneed, hplain, hnone]

theorem numberIf_kept {α : Type} (need : Bool) (value default : α) :
    (if need then PaxNumber.known value else { value := default }).deleted = false := by
  cases need <;> rfl

theorem ownerName_written {header : Bytes} {offset : Nat} {name : Option Bytes}
    (hfield : field header offset 32 = textField 32 (name.getD []))
    (h : 0 ∉ name.getD [] ∧ (name.getD []).length ≤ 32) :
    (ownerName none (field header offset 32)).getD [] = name.getD [] := by
  rw [hfield, ownerName_textField h.1 h.2 (by decide)]
  by_cases hnil : name.getD [] = []
  · rw [if_pos hnil, hnil]
    rfl
  · rw [if_neg hnil]
    rfl

theorem mode_written (h : e.WellFormed) (name : UstarName) :
    (parseOctalField (field (e.mainHeader name).block 100 8)).getD 0 % 2 ^ 32 = e.mode := by
  have hmode : (e.mainHeader name).mode = e.mode := rfl
  have hlt := h.mode
  rw [(e.mainHeader name).block_mode, hmode, Nat.mod_eq_of_lt hlt, Option.getD_some]
  omega

theorem uid_written (huid : e.uid < idMax) (name : UstarName) :
    headerNumber e.writtenPax.numbers.uid (· % 2 ^ 32) (field (e.mainHeader name).block 108 8) = e.uid := by
  apply @headerNumber_written Nat e.needUidPax e.uid 0 e.uid
  · intro hneed
    have hstored : (e.mainHeader name).uid = e.uid := by simp [RawEntry.mainHeader, hneed]
    have hread := (e.mainHeader name).block_uid (by rw [hstored]; simpa [RawEntry.needUidPax] using hneed)
    rw [hstored] at hread
    exact hread
  · intro _
    exact Nat.mod_eq_of_lt (Nat.lt_trans huid (by decide))

theorem gid_written (hgid : e.gid < idMax) (name : UstarName) :
    headerNumber e.writtenPax.numbers.gid (· % 2 ^ 32) (field (e.mainHeader name).block 116 8) = e.gid := by
  apply @headerNumber_written Nat e.needGidPax e.gid 0 e.gid
  · intro hneed
    have hstored : (e.mainHeader name).gid = e.gid := by simp [RawEntry.mainHeader, hneed]
    have hread := (e.mainHeader name).block_gid (by rw [hstored]; simpa [RawEntry.needGidPax] using hneed)
    rw [hstored] at hread
    exact hread
  · intro _
    exact Nat.mod_eq_of_lt (Nat.lt_trans hgid (by decide))

theorem mtime_written (hsec : -2 ^ 63 ≤ e.mtime.sec ∧ e.mtime.sec < 2 ^ 63) (name : UstarName) :
    headerNumber e.writtenPax.numbers.mtime (fun sec => ⟨sec, 0⟩) (field (e.mainHeader name).block 136 12) =
      e.mtime := by
  have hfits : e.needMtimePax = false → 0 ≤ e.mtime.sec ∧ e.mtime.nsec = 0 ∧ e.mtime.sec ≤ ustarSizeTimeMax := by
    intro hneed
    simpa [RawEntry.needMtimePax, and_assoc] using hneed
  apply @headerNumber_written Timespec e.needMtimePax e.mtime ⟨0, 0⟩ e.mtime.sec.toNat
  · intro hneed
    have hbounds := hsec
    have hmtime : (e.mainHeader name).mtime = e.mtime.sec.toNat := by
      simp only [RawEntry.mainHeader, hneed]
      have hpos := (hfits hneed).1
      have hmod : e.mtime.sec % 2 ^ 64 = e.mtime.sec := by omega
      rw [if_neg Bool.false_ne_true, hmod]
    have hread := (e.mainHeader name).block_mtime (by rw [hmtime]; have hle := (hfits hneed).2.2; omega)
    rw [hmtime] at hread
    exact hread
  · intro hneed
    obtain ⟨hpos, hnsec, _⟩ := hfits hneed
    have hsec : (e.mtime.sec.toNat : Int) = e.mtime.sec := Int.toNat_of_nonneg hpos
    rw [hsec, ← hnsec]

theorem prepare_written (h : e.WellFormed)
    (hname : e.needPathPax = false → splitUstarName e.path e.isDir = some name) :
    ∃ entry, prepareEntryFromHeader {} (e.mainHeader name).block e.payload.length (entryType e.kind) e.writtenPax
        e.writtenPax.numbers {} {} = some (entry, {}) ∧ entry.sparse = false ∧
      SameEntry e (if e.isDir = false ∧ LosesSlash e.path then e.path.tail else e.path) entry := by
  have hlinkpath : (isLinkType (entryType e.kind) && e.writtenPax.linkpath == some []) = false := by
    by_cases hneed : e.needLinkPax = true
    · have hlong : e.linkname.getD [] ≠ [] := by
        intro hnil
        unfold RawEntry.needLinkPax at hneed
        simp [hnil] at hneed
      simp [RawEntry.writtenPax, hneed, hlong]
    · simp [RawEntry.writtenPax, hneed]
  have hlong : ({ name := none, link :=
      if e.writtenPax.linkpath.isSome || isLinkType (entryType e.kind) then none else none } : LongTexts) = {} := by
    rw [ite_self]
  simp only [prepareEntryFromHeader, hlinkpath, entryKind_written h, hlong]
  refine ⟨_, rfl, rfl, ?_⟩
  exact
    { name := entryName_written h hname
      linkname := entryLinkname_written h name
      kind := rfl
      mode := mode_written h name
      uid := uid_written h.uid name
      gid := gid_written h.gid name
      size := rfl
      mtime := mtime_written h.sec name
      uname := ownerName_written (e.mainHeader name).block_uname h.uname
      gname := ownerName_written (e.mainHeader name).block_gname h.gname
      omits := ⟨numberIf_kept _ _ _, numberIf_kept _ _ _, numberIf_kept _ _ _⟩ }

end

/-! ## Steps of the reader -/

section
variable {υ : Type} {ops : VisitorOps υ} {s : VisitState υ}

theorem visitStep_block {header after : Bytes} (hheader : s.header = none) (hrest : s.input.rest = header ++ after)
    (hlength : header.length = blockSize) (hzero : blockIsZero header = false) :
    ∃ index, visitStep ops {} s =
      match visitBlock ops {} { s with input := s.input.advance blockSize } header index with
      | none => .inr none
      | some next => .inl next := by
  have hle : blockSize ≤ s.input.rest.length := by
    rw [hrest, length_append]
    omega
  have htake : s.input.rest.take blockSize = header := by rw [hrest, take_left' hlength]
  refine ⟨(s.input.advance blockSize).totalBytesRead / blockSize - 1, ?_⟩
  simp only [visitStep, hheader, Input.readExact, if_pos hle, htake, visitHeader, hzero]
  rfl

theorem advance_block {header after : Bytes} (hrest : s.input.rest = header ++ after)
    (hlength : header.length = blockSize) : (s.input.advance blockSize).rest = after := by
  rw [Input.advance_rest, hrest, drop_left' hlength]

theorem length_padded (payload : Bytes) :
    (payload ++ zeroPadding payload.length).length = roundUp payload.length blockSize := by
  have hle := le_roundUp payload.length blockSize
  unfold zeroPadding
  rw [length_append, length_replicate]
  omega

def paxHeader (name : UstarName) (size : Nat) : RawHeader := { name := name, type := 120, mode := 0o644, size := size }

theorem visitStep_paxMember {name : UstarName} {data after : Bytes} {pax : PaxInfo} (hheader : s.header = none)
    (hrest : s.input.rest = (paxHeader name data.length).block ++ ((data ++ zeroPadding data.length) ++ after))
    (hlength : data.length ≤ ustarSizeTimeMax) (hread : parsePaxRecords false false s.pax data = some pax) :
    ∃ next, visitStep ops {} s = .inl next ∧ next.input.rest = after ∧ next.header = none ∧ next.pax = pax ∧
      next.shared = s.shared ∧ next.long = s.long ∧ next.user = s.user := by
  have hblock := (paxHeader name data.length).length_block
  obtain ⟨index, hstep⟩ := @visitStep_block υ ops s _ _ hheader hrest hblock (paxHeader name data.length).block_not_zero
  have htype : typeflag (paxHeader name data.length).block = 120 := (paxHeader name data.length).block_typeflag
  have hsize : headerPayloadSize (paxHeader name data.length).block (paxEffectiveInfo s.shared s.pax).numbers =
      some data.length := by
    have hoctal : parseOctalField (field (paxHeader name data.length).block 124 12) = some data.length :=
      (paxHeader name data.length).block_size hlength
    have hroom : ¬sizeMax - (blockSize - 1) < data.length :=
      Nat.not_lt_of_le (Nat.le_trans hlength (by decide))
    have hextended : isExtendedType 120 = true := by decide
    simp [headerPayloadSize, htype, hextended, hoctal, hroom]
  have hafter := advance_block hrest hblock
  have hroom : roundUp data.length blockSize ≤ (s.input.advance blockSize).rest.length := by
    rw [hafter, length_append, length_padded]
    omega
  have htake : (s.input.advance blockSize).rest.take data.length = data := by
    rw [hafter, append_assoc, take_left' rfl]
  rw [hstep]
  simp only [visitBlock, (paxHeader name data.length).block_checksum, hsize, htype, readPaxRecords_eq _ _ _ _ _ hroom,
    htake, hread]
  refine ⟨_, rfl, ?_, rfl, rfl, rfl, rfl, rfl⟩
  rw [Input.advance_rest, hafter, drop_left' (length_padded data)]

end

/-- The log of a visitor that has seen the beginning of an entry and `seen` of its payload -/
def LogSeen (entry : Entry) (log : List VisitEvent) (seen : Bytes) : Prop :=
  ∃ chunks : List Bytes, log = [.beginEntry entry] ++ chunks.map .payload ∧ chunks.flatten = seen

theorem LogSeen.append {entry : Entry} {log : List VisitEvent} {seen : Bytes} (h : LogSeen entry log seen)
    (data : Bytes) : LogSeen entry (log ++ [.payload data]) (seen ++ data) := by
  obtain ⟨chunks, rfl, rfl⟩ := h
  refine ⟨chunks ++ [data], ?_, ?_⟩
  · simp
  · simp

theorem visitMemberPayload_log {entry : Entry} {input : Input} {payload after : Bytes} (hsparse : entry.sparse = false)
    (hpayload : entry.kind ≠ .reg → payload = [])
    (hrest : input.rest = (payload ++ zeroPadding payload.length) ++ after) :
    ∃ log, visitMemberPayload logOps entry payload.length 0 [.beginEntry entry] input =
        some (log, input.advance (roundUp payload.length blockSize)) ∧ LogSeen entry log payload := by
  have hroom : roundUp payload.length blockSize ≤ input.rest.length := by
    rw [hrest, length_append, length_padded]
    omega
  have htake : input.rest.take payload.length = payload := by
    rw [hrest, append_assoc, take_left' rfl]
  have hstart : LogSeen entry [.beginEntry entry] [] := ⟨[], rfl, rfl⟩
  unfold visitMemberPayload
  by_cases hreg : entry.kind = .reg
  · rw [if_pos hreg, hsparse]
    obtain ⟨log, hvisit, hseen⟩ := @visitPayload_of_step _ _ entry logOps payload.length _ input (LogSeen entry) rfl
      (fun log seen data h => ⟨log ++ [.payload data], rfl, h.append data⟩) hstart hroom
    rw [htake] at hseen
    exact ⟨log, hvisit, hseen⟩
  · have hnil := hpayload hreg
    rw [if_neg hreg, Input.skipPayload, Input.skip_of_le hroom]
    rw [hnil]
    exact ⟨_, rfl, hstart⟩

def RawEntry.readName (e : RawEntry) : Bytes := if e.isDir = false ∧ LosesSlash e.path then e.path.tail else e.path

theorem SameEntry.atBlock {e : RawEntry} {name : Bytes} {entry : Entry} (h : SameEntry e name entry) (index : Nat) :
    SameEntry e name (entry.atBlock index) :=
  { name := h.name, linkname := h.linkname, kind := h.kind, mode := h.mode, uid := h.uid, gid := h.gid, size := h.size
    mtime := h.mtime, uname := h.uname, gname := h.gname, omits := h.omits }

section
variable {e : RawEntry} (h : e.WellFormed) {name : UstarName}
  (hname : e.needPathPax = false → splitUstarName e.path e.isDir = some name) {s : VisitState (List VisitEvent)}
  (hpax : s.pax = e.writtenPax) (hshared : s.shared = {}) (hlong : s.long = {}) (huser : s.user = []) {after : Bytes}
include h hname hpax hshared hlong huser

theorem visitEntry_written (hrest : s.input.rest = (e.payload ++ zeroPadding e.payload.length) ++ after) (index : Nat) :
    ∃ next entry log, visitEntry logOps {} s (e.mainHeader name).block index e.payload.length = some next ∧
      next.header = none ∧ next.input.rest = after ∧ next.user = log ++ [.endEntry entry] ∧
      LogSeen entry log e.payload ∧ SameEntry e e.readName entry := by
  have htype : typeflag (e.mainHeader name).block = entryType e.kind := (e.mainHeader name).block_typeflag
  have heffective : paxEffectiveInfo s.shared s.pax = e.writtenPax := by
    rw [hshared, hpax]
    exact effective_writtenPax e
  obtain ⟨entry, hprepare, hsparse, hsame⟩ := prepare_written h hname
  have hpayload : (entry.atBlock index).kind ≠ .reg → e.payload = [] := by
    intro hother
    have hkind : (entry.atBlock index).kind = e.kind := hsame.kind
    rw [hkind] at hother
    simp [RawEntry.payload, hother]
  obtain ⟨log, hvisit, hseen⟩ := @visitMemberPayload_log (entry.atBlock index) _ e.payload after hsparse hpayload hrest
  have hmember : prepareMember logOps s.pax e.payload.length (entry.atBlock index) s.input =
      some (entry.atBlock index, 0, s.input) := by
    have hplain : sparseMember s.pax = false := by
      rw [hpax]
      rfl
    simp [prepareMember, hplain]
  have hmeta : s.shared.metadata = {} := by rw [hshared]
  have hbegin : logOps.beginEntry s.user (entry.atBlock index) = some [.beginEntry (entry.atBlock index)] := by
    rw [huser]
    rfl
  have hend : endEntry logOps log (entry.atBlock index) = some (log ++ [.endEntry (entry.atBlock index)]) := rfl
  simp only [visitEntry, heffective, htype, hmeta, hlong, hprepare, hmember, hbegin, hvisit, hend, Option.map_some]
  refine ⟨_, entry.atBlock index, log, rfl, rfl, ?_, rfl, hseen, hsame.atBlock index⟩
  rw [Input.advance_rest, hrest, drop_left' (length_padded e.payload)]

theorem visitStep_entry (hheader : s.header = none)
    (hrest : s.input.rest = (e.mainHeader name).block ++ ((e.payload ++ zeroPadding e.payload.length) ++ after)) :
    ∃ next entry log, visitStep logOps {} s = .inl next ∧ next.header = none ∧ next.input.rest = after ∧
      next.user = log ++ [.endEntry entry] ∧ LogSeen entry log e.payload ∧ SameEntry e e.readName entry := by
  have hblock := (e.mainHeader name).length_block
  obtain ⟨index, hstep⟩ := @visitStep_block _ logOps s _ _ hheader hrest hblock (e.mainHeader name).block_not_zero
  have htype : typeflag (e.mainHeader name).block = entryType e.kind := (e.mainHeader name).block_typeflag
  have heffective : paxEffectiveInfo s.shared s.pax = e.writtenPax := by
    rw [hshared, hpax]
    exact effective_writtenPax e
  have hkinds : entryType e.kind ≠ 120 ∧ entryType e.kind ≠ 103 ∧ entryType e.kind ≠ 76 ∧ entryType e.kind ≠ 75 := by
    cases e.kind <;> decide
  obtain ⟨next, entry, log, hvisit, hnext⟩ := @visitEntry_written e h name hname
    { s with input := s.input.advance blockSize } hpax hshared hlong huser after (advance_block hrest hblock) index
  refine ⟨next, entry, log, ?_, hnext⟩
  rw [hstep]
  simp only [visitBlock, (e.mainHeader name).block_checksum, heffective, mainHeader_size h.payload, htype, hkinds,
    if_true, if_false, hvisit]

end

theorem visitStep_trailer {ops : VisitorOps (List VisitEvent)} (hops : ops.finishArchive = logOps.finishArchive)
    {s : VisitState (List VisitEvent)} {n : Nat} (hheader : s.header = none) (hrest : s.input.rest = replicate n 0)
    (hn : 2 * blockSize ≤ n) :
    ∃ index total, visitStep ops {} s = .inr (some (s.user ++ [.finishArchive index .zeroBlocks total])) := by
  have hzero : ∀ k, blockIsZero (replicate k 0) = true := by
    intro k
    simp [blockIsZero]
  have hfirst : s.input.readExact blockSize =
      some (some (replicate blockSize 0), s.input.advance blockSize) := by
    have hmin : min blockSize n = blockSize := by omega
    unfold Input.readExact
    rw [hrest, length_replicate, if_pos (by omega), take_replicate, hmin]
  have hsecond : (s.input.advance blockSize).readExact blockSize =
      some (some (replicate blockSize 0), (s.input.advance blockSize).advance blockSize) := by
    have hmin : min blockSize (n - blockSize) = blockSize := by omega
    unfold Input.readExact
    rw [Input.advance_rest, hrest, drop_replicate, length_replicate, if_pos (by omega), take_replicate,
      hmin]
  simp only [visitStep, hheader, hfirst, visitHeader, hzero, if_true, hsecond, finishArchive, hops]
  exact ⟨_, _, rfl⟩

/-! ## The whole archive -/

theorem two_blocks_le_trailer (bytesWritten : Nat) :
    ∃ n, writeTrailer bytesWritten = replicate n 0 ∧ 2 * blockSize ≤ n := by
  refine ⟨_, rfl, ?_⟩
  have hle := le_roundUp (bytesWritten + 2 * blockSize) (blockSize * recordBlocks)
  omega

theorem writtenPax_none {e : RawEntry} (h : e.needPax = false) : e.writtenPax = {} := by
  rw [← paxOnto_empty, paxOnto_none h]

section
variable {e : RawEntry} (h : e.WellFormed)
include h

theorem valid_written : e.validNumbers = true ∧ e.validDevice = true := by
  have huid : e.uid ≠ idMax := ne_of_lt h.uid
  have hgid : e.gid ≠ idMax := ne_of_lt h.gid
  have hpayload := h.payload
  refine ⟨?_, ?_⟩
  · simp [RawEntry.validNumbers, h.nsec, hpayload, huid, hgid]
  · simp [RawEntry.validDevice, h.kind]

theorem writeRawEntry_parts :
    ∃ member name, e.paxMember = some member ∧ (e.needPathPax = false → splitUstarName e.path e.isDir = some name) ∧
      e.writeRawEntry true =
        some (member ++ ((e.mainHeader name).block ++ (e.payload ++ zeroPadding e.payload.length))) := by
  obtain ⟨hnumbers, hdevice⟩ := valid_written h
  obtain ⟨member, hmember⟩ : ∃ member, e.paxMember = some member := by
    unfold RawEntry.paxMember
    by_cases hneed : e.needPax = true
    · obtain ⟨data, hdata, _⟩ := paxData_read h
      obtain ⟨name, hname⟩ : ∃ name, splitUstarName (ascii "./PaxHeaders/bx") false = some name := ⟨_, rfl⟩
      rw [if_pos hneed, hdata, hname]
      exact ⟨_, rfl⟩
    · rw [if_neg hneed]
      exact ⟨_, rfl⟩
  have hplaceholder : ∀ directory, ∃ name, splitUstarName (ascii "PaxPayload") directory = some name := by
    intro directory
    cases directory <;> exact ⟨_, rfl⟩
  obtain ⟨name, hname, hchosen⟩ : ∃ name, (e.needPathPax = false → splitUstarName e.path e.isDir = some name) ∧
      (splitUstarName e.path e.isDir).elim (splitUstarName (ascii "PaxPayload") e.isDir) some = some name := by
    cases hsplit : splitUstarName e.path e.isDir with
    | some name => exact ⟨name, fun _ => rfl, rfl⟩
    | none =>
      obtain ⟨name, hname⟩ := hplaceholder e.isDir
      refine ⟨name, ?_, hname⟩
      intro hneed
      simp [RawEntry.needPathPax, hsplit] at hneed
  refine ⟨member, name, hmember, hname, ?_⟩
  have hheader : e.writeHeader true = some (member ++ (e.mainHeader name).block) := by
    unfold RawEntry.writeHeader
    simp only [hnumbers, hdevice, hmember, Bool.not_true, Bool.or_self, Bool.and_false, Bool.false_eq_true, if_false]
    cases hsplit : splitUstarName e.path e.isDir with
    | some _ =>
      rw [hsplit] at hchosen
      cases hchosen
      rfl
    | none =>
      rw [hsplit] at hchosen
      rw [Option.elim_none] at hchosen
      simp [hchosen]
  unfold RawEntry.writeRawEntry
  rw [hheader]
  by_cases hreg : e.kind = .reg
  · simp [RawEntry.payload, hreg]
  · simp [RawEntry.payload, hreg, zeroPadding, roundUp_zero]

theorem run_entry {name : UstarName} (hname : e.needPathPax = false → splitUstarName e.path e.isDir = some name)
    {s : VisitState (List VisitEvent)} (hheader : s.header = none) (hpax : s.pax = e.writtenPax)
    (hshared : s.shared = {}) (hlong : s.long = {}) (huser : s.user = []) {n : Nat} (hn : 2 * blockSize ≤ n)
    (hrest : s.input.rest = (e.mainHeader name).block ++
      ((e.payload ++ zeroPadding e.payload.length) ++ replicate n 0)) (fuel : Nat) :
    ∃ log entry, loop (visitStep logOps {}) (fuel + 2) s = some (some log) ∧ ShowsOne log entry e.payload ∧
      SameEntry e e.readName entry := by
  obtain ⟨next, entry, log, hstep, hnext, hafter, hlog, hseen, hsame⟩ :=
    visitStep_entry h hname hpax hshared hlong huser hheader hrest
  obtain ⟨index, total, hend⟩ := visitStep_trailer rfl hnext hafter hn
  obtain ⟨chunks, rfl, hchunks⟩ := hseen
  refine ⟨next.user ++ [.finishArchive index .zeroBlocks total], entry, ?_, ?_, hsame⟩
  · rw [loop_go hstep, loop_leave hend]
  · refine ⟨chunks, index, .zeroBlocks, total, ?_, hchunks⟩
    rw [hlog]
    simp

theorem reads_member {member : Bytes} (hmember : e.paxMember = some member) {name : UstarName}
    (hname : e.needPathPax = false → splitUstarName e.path e.isDir = some name) {n : Nat} (hn : 2 * blockSize ≤ n)
    {archive : Bytes} (harchive : archive = member ++ ((e.mainHeader name).block ++
      ((e.payload ++ zeroPadding e.payload.length) ++ replicate n 0))) :
    ∃ log entry, visitArchiveStream logOps {} archive [] = some log ∧ ShowsOne log entry e.payload ∧
      SameEntry e e.readName entry := by
  obtain ⟨fuel, hfuel⟩ : ∃ fuel, archive.length + 1 = fuel + 3 := by
    refine ⟨archive.length + 1 - 3, ?_⟩
    rw [harchive]
    simp only [length_append, length_replicate]
    unfold blockSize at hn
    omega
  unfold visitArchiveStream
  rw [hfuel]
  unfold RawEntry.paxMember at hmember
  by_cases hneed : e.needPax = true
  · obtain ⟨data, hdata, hlength, hread⟩ := paxData_read h
    obtain ⟨name', hname'⟩ : ∃ name, splitUstarName (ascii "./PaxHeaders/bx") false = some name := ⟨_, rfl⟩
    rw [if_pos hneed, hdata, hname'] at hmember
    cases hmember
    obtain ⟨next, hstep, hrest, hheader, hpax, hshared, hlong, huser⟩ :=
      @visitStep_paxMember _ logOps { input := { rest := archive }, user := [] } name' data _ e.writtenPax rfl
        (by rw [harchive, append_assoc, append_assoc, ← append_assoc data]; rfl) hlength hread
    obtain ⟨log, entry, hrun, hshows⟩ := run_entry h hname hheader hpax hshared hlong huser hn hrest fuel
    refine ⟨log, entry, ?_, hshows⟩
    rw [loop_go hstep, hrun]
    rfl
  · have hneed' : e.needPax = false := by simpa using hneed
    rw [if_neg hneed] at hmember
    cases hmember
    obtain ⟨log, entry, hrun, hshows⟩ := @run_entry e h name hname { input := { rest := archive }, user := [] } rfl
      (writtenPax_none hneed').symm rfl rfl rfl n hn harchive (fuel + 1)
    refine ⟨log, entry, ?_, hshows⟩
    rw [hrun]
    rfl

theorem reads_written :
    ∃ written log entry, e.writeRawEntry true = some written ∧
      visitArchiveStream logOps {} (written ++ writeTrailer written.length) [] = some log ∧
      ShowsOne log entry e.payload ∧ SameEntry e e.readName entry := by
  obtain ⟨member, name, hmember, hname, hwritten⟩ := writeRawEntry_parts h
  obtain ⟨n, htrailer, hn⟩ := two_blocks_le_trailer
    (member ++ ((e.mainHeader name).block ++ (e.payload ++ zeroPadding e.payload.length))).length
  obtain ⟨log, entry, hvisit, hshows⟩ := reads_member h hmember hname hn rfl
  refine ⟨_, log, entry, hwritten, ?_, hshows⟩
  rw [htrailer, ← hvisit]
  simp

end

/-! ## Through the codec layer -/

def RawEntry.firstName (e : RawEntry) : Bytes :=
  if e.needPax then ascii "./PaxHeaders/bx" else ((splitUstarName e.path e.isDir).map (·.name)).getD []

theorem isPrefixOf_append {magic head : Bytes} (h : magic.length ≤ head.length) (more : Bytes) :
    magic.isPrefixOf (head ++ more) = magic.isPrefixOf head := by
  rw [Bool.eq_iff_iff, isPrefixOf_iff_prefix, isPrefixOf_iff_prefix]
  refine ⟨?_, ?_⟩
  · intro hprefix
    exact prefix_of_prefix_length_le hprefix (prefix_append head more) h
  · intro hprefix
    exact hprefix.trans (prefix_append head more)

theorem inputCodec_append (detectAll : Bool) {head : Bytes} (h : 6 ≤ head.length) (more : Bytes) :
    inputCodec detectAll (head ++ more) = inputCodec detectAll head := by
  have hmagic : ∀ magic : Bytes, magic.length ≤ 6 → magic.isPrefixOf (head ++ more) = magic.isPrefixOf head :=
    fun magic hle => isPrefixOf_append (Nat.le_trans hle h) more
  unfold inputCodec detectMagic
  rw [hmagic [0x1f, 0x8b] (by decide), hmagic (ascii "BZh") (by decide),
    hmagic ([0xfd] ++ ascii "7zXZ" ++ [0]) (by decide), hmagic [0x28, 0xb5, 0x2f, 0xfd] (by decide)]

theorem name_prefix_block (header : RawHeader) : textField 100 header.name.name <+: header.block := by
  refine ⟨((header.fields (paddedNumeral 8 6 header.checksum ++ [0, 32])).drop 1).flatten, ?_⟩
  unfold RawHeader.block
  rw [← flatten_cons]
  rfl

theorem firstName_prefix {e : RawEntry} (h : e.WellFormed) {written : Bytes}
    (hwritten : e.writeRawEntry true = some written) : textField 100 e.firstName <+: written := by
  obtain ⟨member, name, hmember, hname, hparts⟩ := writeRawEntry_parts h
  rw [hwritten] at hparts
  cases hparts
  unfold RawEntry.paxMember at hmember
  unfold RawEntry.firstName
  by_cases hneed : e.needPax = true
  · obtain ⟨data, hdata, _⟩ := paxData_read h
    obtain ⟨name', hname'⟩ : ∃ name, splitUstarName (ascii "./PaxHeaders/bx") false = some name := ⟨_, rfl⟩
    have htext : name'.name = ascii "./PaxHeaders/bx" := by
      cases hname'
      rfl
    rw [if_pos hneed, hdata, hname'] at hmember
    cases hmember
    rw [if_pos hneed, ← htext]
    apply prefix_append_of_prefix
    apply prefix_append_of_prefix
    apply prefix_append_of_prefix
    exact name_prefix_block { name := name', type := 120, mode := 0o644, size := data.length }
  · have hpath : e.needPathPax = false := by
      simp only [RawEntry.needPax, Bool.not_eq_true, Bool.or_eq_false_iff] at hneed
      exact hneed.1.1.1
    rw [if_neg hneed] at hmember
    cases hmember
    rw [if_neg hneed, hname hpath, nil_append]
    exact prefix_append_of_prefix (name_prefix_block (e.mainHeader name))

section
variable {decode : Codec → Bytes → Option Bytes} {detectAll : Bool} {e : RawEntry} (h : e.WellFormed)
  (hplain : inputCodec detectAll (textField 100 e.firstName) = none)
include h hplain

theorem shows_written :
    ∃ written log entry, e.writeRawEntry true = some written ∧
      visitArchiveInput decode detectAll logOps {} (written ++ writeTrailer written.length) [] = some log ∧
      ShowsOne log entry e.payload ∧ SameEntry e e.readName entry := by
  obtain ⟨written, log, entry, hwritten, hvisit, hshows⟩ := reads_written h
  refine ⟨written, log, entry, hwritten, ?_, hshows⟩
  have hcodec : inputCodec detectAll (written ++ writeTrailer written.length) = none := by
    obtain ⟨more, hmore⟩ := firstName_prefix h hwritten
    rw [← hmore, append_assoc, inputCodec_append detectAll (by simp), hplain]
  unfold visitArchiveInput
  rw [hcodec]
  exact hvisit

theorem readName_of_roundTrips (hround : RoundTrips decode detectAll e) : e.readName = e.path := by
  obtain ⟨written, log, entry, hwritten, hvisit, hshows, hsame⟩ := hround
  obtain ⟨written', log', entry', hwritten', hvisit', hshows', hsame'⟩ := @shows_written decode detectAll e h hplain
  rw [hwritten] at hwritten'
  cases hwritten'
  rw [hvisit] at hvisit'
  cases hvisit'
  obtain ⟨chunks, index, stop, total, hlog, _⟩ := hshows
  obtain ⟨chunks', index', stop', total', hlog', _⟩ := hshows'
  rw [hlog] at hlog'
  have hfirst := congrArg head? hlog'
  cases hfirst
  rw [← hsame.name, ← hsame'.name]

end

theorem tail_ne_of_losesSlash {path : Bytes} (h : LosesSlash path) : path.tail ≠ path := by
  intro heq
  have hlen := congrArg List.length heq
  simp [length_tail, h.1] at hlen

/-- **Main result.** What was written comes back, but for one slash. -/
theorem roundTrips_iff (decode : Codec → Bytes → Option Bytes) {detectAll : Bool} {e : RawEntry} (h : e.WellFormed)
    (hplain : inputCodec detectAll (textField 100 e.firstName) = none) :
    RoundTrips decode detectAll e ↔ ¬(e.isDir = false ∧ LosesSlash e.path) := by
  refine ⟨?_, ?_⟩
  · intro hround hloses
    have hname := readName_of_roundTrips h hplain hround
    unfold RawEntry.readName at hname
    rw [if_pos hloses] at hname
    exact tail_ne_of_losesSlash hloses.2 hname
  · intro hkeeps
    obtain ⟨written, log, entry, hwritten, hvisit, hshows, hsame⟩ := @shows_written decode detectAll e h hplain
    unfold RawEntry.readName at hsame
    rw [if_neg hkeeps] at hsame
    exact ⟨written, log, entry, hwritten, hvisit, hshows, hsame⟩

def slashEntry : RawEntry where
  path := 47 :: replicate 100 97
  kind := .reg
  mode := 0o644
  uid := 0
  gid := 0
  data := [1]
  mtime := ⟨0, 0⟩

theorem slashEntry_wellFormed : slashEntry.WellFormed where
  kind := by decide
  path_ne := by decide
  path_text := by decide
  path_length := by decide
  dirname := by decide
  target := by decide
  no_target := by decide
  target_text := by decide
  target_length := by decide
  mode := by decide
  uid := by decide
  gid := by decide
  nsec := by decide
  sec := by decide
  uname := by decide
  gname := by decide
  payload := by decide
  metadata := by decide

theorem roundTrips_iff_slashEntry : ¬RoundTrips (fun _ _ => none) true slashEntry :=
  fun hround => (roundTrips_iff (fun _ _ => none) slashEntry_wellFormed (by decide)).mp hround (by decide)

/-- The path of `slashEntry` comes back without its slash. -/
theorem roundTrips_loses_slash :
    ¬∀ (decode : Codec → Bytes → Option Bytes) (detectAll : Bool) (e : RawEntry), e.WellFormed →
      RoundTrips decode detectAll e := by
  intro hall
  have hround := hall (fun _ _ => none) true slashEntry slashEntry_wellFormed
  have hname := readName_of_roundTrips slashEntry_wellFormed (by decide) hround
  exact absurd hname (by decide)

end Bx.Tar
